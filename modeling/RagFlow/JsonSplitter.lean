import RagFlow.JsonPaths

/-! # The JSON splitter

`RAGFlowJsonParser`: a document becomes chunks, which are dictionaries with some of its paths.

* **Splitting.** Lists become dictionaries (`listToDict`).  An entry that fits is stored in the last
  chunk under its whole path; of any other the value is split, after a new chunk is started if the
  last one is large enough (`split`, `splitEntries`).
* **One step.** A value at a free path is placed in the merged chunks, and the paths not comparable
  with its own stay free (`Placed`, `store_spec`).
* **A run.** The whole value is placed unless an empty dictionary is split further: then nothing is
  ever at its path (`split_spec`).  So a document is conserved exactly if no empty container does
  not fit where it is met (`conserves_iff`).  A scalar has no path, and the parser raises. -/

namespace RagFlow

open Py Json

/-- `RAGFlowJsonParser`. -/
structure JsonParser where
  maxChunkSize : ℤ
  minChunkSize : ℤ

/-- The chunks so far; there is always a last one. -/
structure Chunks (F : Type) where
  done : List (List (Str × Json F))
  last : List (Str × Json F)

variable {F : Type}

namespace Chunks

def toList (chunks : Chunks F) : List (List (Str × Json F)) := chunks.done ++ [chunks.last]

/-- `chunks.append({})`. -/
def open_ (chunks : Chunks F) : Chunks F := ⟨chunks.toList, []⟩

end Chunks

namespace JsonParser

/-- `RAGFlowJsonParser(max_chunk_size, min_chunk_size)`. -/
def init (maxChunkSize : ℤ) (minChunkSize : Option ℤ) : JsonParser where
  maxChunkSize := maxChunkSize * 2
  minChunkSize := minChunkSize.getD (max (maxChunkSize - 200) 50)

/-- `_set_nested_dict`; `none` when it raises. -/
def setNestedDict : List (Str × Json F) → Path → Json F → Option (List (Str × Json F))
  | _, [], _ => none
  | d, [k], value => some (Dict.set k value d)
  | d, k :: k' :: path, value =>
      match d.lookup k with
      | none => (setNestedDict [] (k' :: path) value).map (fun d' => Dict.set k (dict d') d)
      | some (dict d') =>
          (setNestedDict d' (k' :: path) value).map (fun d' => Dict.set k (dict d') d)
      | some _ => none

mutual
/-- `_list_to_dict_preprocessing`. -/
def listToDict : Json F → Json F
  | dict es => dict (listToDictEntries es)
  | list xs => dict (listToDictItems 0 xs)
  | v => v

def listToDictEntries : List (Str × Json F) → List (Str × Json F)
  | [] => []
  | (k, v) :: es => (k, listToDict v) :: listToDictEntries es

/-- The items of a list from the given index on. -/
def listToDictItems : ℕ → List (Json F) → List (Str × Json F)
  | _, [] => []
  | i, x :: xs => (natText i, listToDict x) :: listToDictItems (i + 1) xs
end

section splitting
variable [FloatText F] (parser : JsonParser)

/-- `_json_size`. -/
def jsonSize (d : List (Str × Json F)) : ℕ := (dict d).dumps.length

/-- The entry fits into the last chunk. -/
def fits (chunks : Chunks F) (key : Str) (value : Json F) : Bool :=
  (jsonSize [(key, value)] : ℤ) < parser.maxChunkSize - jsonSize chunks.last

/-- A new chunk is started if the last one is big enough. -/
def opened (chunks : Chunks F) : Chunks F :=
  if parser.minChunkSize ≤ jsonSize chunks.last then chunks.open_ else chunks

/-- The value is set in the last chunk. -/
def store (chunks : Chunks F) (path : Path) (value : Json F) : Option (Chunks F) :=
  (setNestedDict chunks.last path value).map (fun d => { chunks with last := d })

mutual
/-- `_json_split`. -/
def split (chunks : Chunks F) (path : Path) : Json F → Option (Chunks F)
  | dict es => splitEntries chunks path es
  | v => store chunks path v

/-- The loop over the items of a dictionary. -/
def splitEntries (chunks : Chunks F) (path : Path) : List (Str × Json F) → Option (Chunks F)
  | [] => some chunks
  | (key, value) :: es => do
      let chunks ←
        if parser.fits chunks key value then store chunks (path ++ [key]) value
        else split (parser.opened chunks) (path ++ [key]) value
      splitEntries chunks path es
end

/-- `split_json`. -/
def splitJson (jsonData : Json F) (convertLists : Bool) : Option (List (List (Str × Json F))) := do
  let chunks ← parser.split ⟨[], []⟩ [] (if convertLists then listToDict jsonData else jsonData)
  return if chunks.last.isEmpty then chunks.done else chunks.toList

/-- `_parse_json`; a text that is no JSON document has no sections. -/
def parseJson (content : Str) : Option (List Str) :=
  match loads content with
  | none => some []
  | some (jsonData : Json F) => do
      let chunks ← parser.splitJson jsonData true
      return (chunks.filter (fun line => !line.isEmpty)).map (fun line => (dict line).dumps)

/-- A character that ends a line of `str.splitlines`. -/
def isLineEnd (c : Char) : Bool :=
  let n := c.toNat
  (10 ≤ n && n ≤ 13) || (28 ≤ n && n ≤ 30) || n == 0x85 || n == 0x2028 || n == 0x2029

/-- `s.splitlines()`. -/
def splitlines : Str → List Str
  | [] => []
  | '\r' :: '\n' :: s => [] :: splitlines s
  | c :: s =>
      if isLineEnd c then [] :: splitlines s
      else match splitlines s with
        | [] => [[c]]
        | line :: lines => (c :: line) :: lines

/-- `_parse_jsonl`: the sections of the lines, of which the blank ones have none. -/
def parseJsonl (content : Str) : Option (List Str) := do
  let sections ← (splitlines (strip content)).mapM (fun line =>
    if (strip line).isEmpty then some [] else parser.parseJson (F := F) line)
  return sections.flatten

end splitting

/-! ### What is conserved -/

/-- A dictionary or a list. -/
def isContainer : Json F → Bool
  | dict _ | list _ => true
  | _ => false

/-- The deep merge of the chunks. -/
def merged (chunks : List (List (Str × Json F))) : Json F := dict (chunks.foldl mergeEntries [])

/-- No two chunks have a key path in common. -/
def DisjointPaths (chunks : List (List (Str × Json F))) : Prop :=
  chunks.Pairwise (fun c d => (entryPaths c).Disjoint (entryPaths d))

section conservation
variable [FloatText F] (parser : JsonParser)

/-- The chunks of a container have disjoint key paths and its data; every text of a scalar has a
result. -/
def Conserves (v : Json F) : Prop :=
  if isContainer v then
    ∃ chunks, parser.splitJson v true = some chunks ∧ DisjointPaths chunks ∧
      merged chunks = listToDict v
  else ∀ content, loads content = some v → (parser.parseJson (F := F) content).isSome

/-- What the loop does with an entry. -/
def splitEntry (chunks : Chunks F) (path : Path) (key : Str) (value : Json F) :
    Option (Chunks F) :=
  if parser.fits chunks key value then store chunks (path ++ [key]) value
  else parser.split (parser.opened chunks) (path ++ [key]) value

mutual
/-- No empty dictionary is split. -/
def keeps (chunks : Chunks F) (path : Path) : Json F → Bool
  | dict es => !es.isEmpty && keepsEntries chunks path es
  | _ => true

/-- No empty dictionary is split where it is met below the entries. -/
def keepsEntries (chunks : Chunks F) (path : Path) : List (Str × Json F) → Bool
  | [] => true
  | (key, value) :: es =>
      (parser.fits chunks key value || keeps (parser.opened chunks) (path ++ [key]) value) &&
        keepsEntries ((parser.splitEntry chunks path key value).getD chunks) path es
end

/-- Every empty container fits into the last chunk where it is met. -/
def keepsEmpty (v : Json F) : Bool :=
  match listToDict v with
  | dict es => parser.keepsEntries ⟨[], []⟩ [] es
  | _ => true

end conservation

mutual
/-- There is no empty container in the value. -/
def full : Json F → Bool
  | dict es => !es.isEmpty && fullEntries es
  | list xs => !xs.isEmpty && fullItems xs
  | _ => true

def fullEntries : List (Str × Json F) → Bool
  | [] => true
  | (_, v) :: es => full v && fullEntries es

def fullItems : List (Json F) → Bool
  | [] => true
  | x :: xs => full x && fullItems xs
end

/-- There is no empty container below the value. -/
def fullBelow : Json F → Bool
  | dict es => fullEntries es
  | list xs => fullItems xs
  | _ => true

end JsonParser

/-! ### One step -/

namespace Chunks

/-- The keys of the chunks are distinct at every level, and their key paths disjoint. -/
structure Ready (chunks : Chunks F) : Prop where
  wf : ∀ c ∈ chunks.toList, (dict c).WF
  disjoint : JsonParser.DisjointPaths chunks.toList

/-- The path is free in every chunk. -/
def FreeAt (chunks : Chunks F) (p : Path) : Prop := ∀ c ∈ chunks.toList, Free (some (dict c)) p

theorem FreeAt.ne_nil {chunks : Chunks F} {p : Path} (h : chunks.FreeAt p) : p ≠ [] := by
  rintro rfl
  have hlast := h chunks.last (List.mem_append_right _ (List.mem_singleton_self _))
  cases eq_none_of_free_nil hlast

theorem FreeAt.append {chunks : Chunks F} {p : Path} (h : chunks.FreeAt p) (q : Path) :
    chunks.FreeAt (p ++ q) := fun c hc => free_append (h c hc) q

end Chunks

namespace JsonParser

/-- From chunks to others in which the value is placed at the path, or of which a path below it
never holds what the value has there. -/
structure Placed (chunks next : Chunks F) (path : Path) (v : Json F) (kept : Bool) : Prop where
  ready : next.Ready
  frame : ∀ q, ¬ path <+: q → ¬ q <+: path → chunks.FreeAt q → next.FreeAt q
  merged : kept = true → merged next.toList = place (some (merged chunks.toList)) path v
  lost : kept = false → ∃ r, next.FreeAt (path ++ r) ∧ ¬ Free (some v) r

theorem merged_concat (cs : List (List (Str × Json F))) (c : List (Str × Json F)) :
    merged (cs ++ [c]) = deepMerge (some (merged cs)) (dict c) := by
  unfold merged
  rw [List.foldl_append, List.foldl_cons, List.foldl_nil, deepMerge]

theorem free_merged {cs : List (List (Str × Json F))} {p : Path} (hp : p ≠ [])
    (hwf : ∀ c ∈ cs, (dict c).WF) (h : ∀ c ∈ cs, Free (some (dict c)) p) :
    Free (some (merged cs)) p := by
  induction cs using List.reverseRecOn with
  | nil =>
      obtain ⟨k, p, rfl⟩ := List.exists_cons_of_ne_nil hp
      exact free_empty
  | append_singleton cs c ih =>
      have hc : c ∈ cs ++ [c] := List.mem_append_right _ (List.mem_singleton_self c)
      have hcs := ih (fun d hd => hwf d (List.mem_append_left _ hd))
        (fun d hd => h d (List.mem_append_left _ hd))
      rw [merged_concat]
      refine free_mergeOpt (m := some (merged cs)) (c := some (dict c)) ?_ hcs (h c hc)
      rintro w ⟨⟩
      exact hwf c hc

/-- At a free path the value is set. -/
theorem setNestedDict_of_free {d : List (Str × Json F)} {p : Path} (v : Json F)
    (h : Free (some (dict d)) p) :
    ∃ d', setNestedDict d p v = some d' ∧ place (some (dict d)) p v = dict d' := by
  induction p generalizing d with
  | nil => cases eq_none_of_free_nil h
  | cons k p ih =>
      cases p with
      | nil => exact ⟨_, rfl, rfl⟩
      | cons k' p =>
          have hrest := (free_dict_cons d k (k' :: p)).mp h
          rw [setNestedDict, place, entriesOf]
          cases hl : d.lookup k with
          | none =>
              obtain ⟨d', hset, hplace⟩ := ih (d := []) free_empty
              refine ⟨Dict.set k (dict d') d, by rw [hset]; rfl, ?_⟩
              rw [← hplace]
              rfl
          | some w =>
              rw [hl] at hrest
              cases w with
              | dict es =>
                  obtain ⟨d', hset, hplace⟩ := ih hrest
                  exact ⟨_, by dsimp only; rw [hset]; rfl, by rw [hplace]⟩
              | _ => simp [Free] at hrest

section steps
variable [FloatText F] (parser : JsonParser)

omit [FloatText F] in
/-- **One step.**  A value is stored at a free path. -/
theorem store_spec {chunks : Chunks F} {path : Path} {v : Json F} (hready : chunks.Ready)
    (hfree : chunks.FreeAt path) (hv : v.WF) :
    ∃ next, store chunks path v = some next ∧ Placed chunks next path v true := by
  obtain ⟨done, last⟩ := chunks
  have hlast : last ∈ done ++ [last] := List.mem_append_right _ (List.mem_singleton_self last)
  have hdone : ∀ c ∈ done, c ∈ done ++ [last] := fun c hc => List.mem_append_left _ hc
  obtain ⟨d, hset, hplace⟩ := setNestedDict_of_free v (hfree last hlast)
  have hwf : (dict d).WF := by
    rw [← hplace]
    refine place_wf ?_ hv
    rintro w ⟨⟩
    exact hready.wf last hlast
  refine ⟨⟨done, d⟩, by rw [store, hset]; rfl, ⟨?_, ?_⟩, ?_, fun _ => ?_, fun h => nomatch h⟩
  · intro c hc
    rcases List.mem_append.mp hc with hc | hc
    · exact hready.wf c (hdone c hc)
    · rw [List.mem_singleton.mp hc]
      exact hwf
  · obtain ⟨hpairs, -, hcross⟩ := List.pairwise_append.mp hready.disjoint
    refine List.pairwise_append.mpr ⟨hpairs, List.pairwise_singleton _ _, ?_⟩
    rintro c hc _ hd q hq hq'
    rw [List.mem_singleton.mp hd] at hq'
    have hq' := entryPaths_subset d hq'
    rw [← hplace] at hq'
    rcases mem_keyPaths_place hq' with hold | ⟨r, -, rfl⟩
    · exact hcross c hc last (List.mem_singleton_self last) hq hold
    · exact not_prefix_of_free (hready.wf c (hdone c hc)) (hfree c (hdone c hc)) hq
        (List.prefix_append path r)
  · intro q hpq hqp hq c hc
    rcases List.mem_append.mp hc with hc | hc
    · exact hq c (hdone c hc)
    · rw [List.mem_singleton.mp hc, ← hplace]
      exact free_place v hpq hqp (hq last hlast)
  · show merged (done ++ [d]) = place (some (merged (done ++ [last]))) path v
    have hmerged := free_merged hfree.ne_nil (fun c hc => hready.wf c (hdone c hc))
      (fun c hc => hfree c (hdone c hc))
    rw [merged_concat, ← hplace, deepMerge_place v ?_ hmerged (hfree last hlast), merged_concat,
      mergeOpt]
    rintro w ⟨⟩
    exact hready.wf last hlast

/-- A new chunk is empty. -/
theorem opened_spec {chunks : Chunks F} (hready : chunks.Ready) :
    (parser.opened chunks).Ready ∧
      merged (parser.opened chunks).toList = merged chunks.toList ∧
      ∀ p, chunks.FreeAt p → (parser.opened chunks).FreeAt p := by
  unfold opened
  split_ifs
  · refine ⟨⟨?_, ?_⟩, ?_, ?_⟩
    · intro c hc
      rcases List.mem_append.mp hc with hc | hc
      · exact hready.wf c hc
      · rw [List.mem_singleton.mp hc]
        exact ⟨List.nodup_nil, trivial⟩
    · refine List.pairwise_append.mpr ⟨hready.disjoint, List.pairwise_singleton _ _, ?_⟩
      rintro c - _ hd q - hq'
      rw [List.mem_singleton.mp hd] at hq'
      cases hq'
    · show merged (chunks.toList ++ [[]]) = merged chunks.toList
      unfold merged
      rw [List.foldl_append, List.foldl_cons, List.foldl_nil, mergeEntries_nil]
    · intro p hp c hc
      rcases List.mem_append.mp hc with hc | hc
      · exact hp c hc
      · obtain ⟨k, p, rfl⟩ := List.exists_cons_of_ne_nil hp.ne_nil
        rw [List.mem_singleton.mp hc]
        exact free_empty
  · exact ⟨hready, rfl, fun _ h => h⟩

end steps

/-! ### A run -/

section runs
variable [FloatText F] (parser : JsonParser)

theorem splitEntries_cons (chunks : Chunks F) (path : Path) (key : Str) (value : Json F)
    (es : List (Str × Json F)) :
    parser.splitEntries chunks path ((key, value) :: es) =
      (parser.splitEntry chunks path key value).bind
        (fun chunks => parser.splitEntries chunks path es) := by
  rw [splitEntries, splitEntry]
  split_ifs <;> rfl

/-- Chunks after an entry has been stored or split. -/
theorem splitEntry_spec {chunks : Chunks F} {path : Path} {key : Str} {value : Json F}
    (hready : chunks.Ready) (hfree : chunks.FreeAt (path ++ [key])) (hv : value.WF)
    (hsplit : ∃ next, parser.split (parser.opened chunks) (path ++ [key]) value = some next ∧
      Placed (parser.opened chunks) next (path ++ [key]) value
        (parser.keeps (parser.opened chunks) (path ++ [key]) value)) :
    ∃ next, parser.splitEntry chunks path key value = some next ∧
      Placed chunks next (path ++ [key]) value (parser.fits chunks key value ||
        parser.keeps (parser.opened chunks) (path ++ [key]) value) := by
  unfold splitEntry
  cases hfits : parser.fits chunks key value with
  | true => exact store_spec hready hfree hv
  | false =>
      obtain ⟨next, hnext, hplaced⟩ := hsplit
      obtain ⟨-, hmerged, hopened⟩ := opened_spec parser hready
      refine ⟨next, hnext, hplaced.ready, ?_, ?_, hplaced.lost⟩
      · exact fun q hpq hqp hq => hplaced.frame q hpq hqp (hopened q hq)
      · intro hkept
        rw [hplaced.merged hkept, hmerged]

/-- The paths of two different keys are not comparable. -/
theorem not_prefix_of_ne (path q : Path) {k k' : Str} (h : k ≠ k') :
    ¬ path ++ [k] <+: path ++ k' :: q ∧ ¬ path ++ k' :: q <+: path ++ [k] := by
  rw [List.prefix_append_right_inj, List.prefix_append_right_inj, List.cons_prefix_cons,
    List.cons_prefix_cons]
  exact ⟨fun hp => h hp.1, fun hp => h hp.1.symm⟩

mutual
/-- **A run.**  A value is split at a free path. -/
theorem split_spec : ∀ (v : Json F) (chunks : Chunks F) (path : Path), v.WF → chunks.Ready →
    chunks.FreeAt path → ∃ next, parser.split chunks path v = some next ∧
      Placed chunks next path v (parser.keeps chunks path v)
  | .null, _, _, hv, hready, hfree => store_spec hready hfree hv
  | .bool _, _, _, hv, hready, hfree => store_spec hready hfree hv
  | .int _, _, _, hv, hready, hfree => store_spec hready hfree hv
  | .float _, _, _, hv, hready, hfree => store_spec hready hfree hv
  | .str _, _, _, hv, hready, hfree => store_spec hready hfree hv
  | .list _, _, _, hv, hready, hfree => store_spec hready hfree hv
  | dict es, chunks, path, hv, hready, hfree => by
      obtain ⟨next, hnext, hplaced⟩ := splitEntries_spec es chunks path hv.1 hv.2 hready
        (fun e _ => hfree.append [e.1])
      refine ⟨next, hnext, ?_⟩
      by_cases hes : es = []
      · subst hes
        cases hnext
        refine ⟨hready, fun q _ _ hq => hq, (fun h => nomatch h), fun _ => ⟨[], ?_, ?_⟩⟩
        · rwa [List.append_nil]
        · exact fun h => nomatch eq_none_of_free_nil h
      · have hkeeps : parser.keeps chunks path (dict es) = parser.keepsEntries chunks path es := by
          rw [keeps, List.isEmpty_eq_false_iff.mpr hes]
          rfl
        rw [hkeeps]
        obtain ⟨hreadyNext, hframe, hmerge, hlost⟩ := hplaced
        refine ⟨hreadyNext, fun q hpq hqp hq => hframe q (fun e _ => ?_) hq, fun hkept => ?_, hlost⟩
        · refine ⟨fun hp => hpq ((List.prefix_append path _).trans hp), fun hp => ?_⟩
          rcases List.prefix_concat_iff.mp hp with rfl | hp
          · exact hpq (List.prefix_append path _)
          · exact hqp hp
        · have hmerged := free_merged hfree.ne_nil hready.wf hfree
          rw [hmerge hkept, foldl_place hes ?_ hv.1]
          rw [valueAt_of_free hmerged]
          rfl

/-- The entries of a dictionary are split below a path. -/
theorem splitEntries_spec : ∀ (es : List (Str × Json F)) (chunks : Chunks F) (path : Path),
    (es.map Prod.fst).Nodup → WFEntries es → chunks.Ready →
    (∀ e ∈ es, chunks.FreeAt (path ++ [e.1])) →
    ∃ next, parser.splitEntries chunks path es = some next ∧ next.Ready ∧
      (∀ q, (∀ e ∈ es, ¬ path ++ [e.1] <+: q ∧ ¬ q <+: path ++ [e.1]) →
        chunks.FreeAt q → next.FreeAt q) ∧
      (parser.keepsEntries chunks path es = true → merged next.toList =
        es.foldl (fun m e => place (some m) (path ++ [e.1]) e.2) (merged chunks.toList)) ∧
      (parser.keepsEntries chunks path es = false →
        ∃ r, next.FreeAt (path ++ r) ∧ ¬ Free (some (dict es)) r)
  | [], chunks, _, _, _, hready, _ =>
      ⟨chunks, rfl, hready, fun _ _ h => h, fun _ => rfl, fun h => nomatch h⟩
  | (k, v) :: es, chunks, path, hkeys, hwf, hready, hfree => by
      rw [List.map_cons, List.nodup_cons] at hkeys
      obtain ⟨hnew, hkeys⟩ := hkeys
      have hne : ∀ e ∈ es, e.1 ≠ k := fun e he h => hnew (List.mem_map.mpr ⟨e, he, h⟩)
      have hk : chunks.FreeAt (path ++ [k]) := hfree (k, v) List.mem_cons_self
      obtain ⟨hopened, -, hfreeOpened⟩ := opened_spec parser hready
      obtain ⟨mid, hmid, hplaced⟩ := splitEntry_spec parser hready hk hwf.1
        (split_spec v _ _ hwf.1 hopened (hfreeOpened _ hk))
      obtain ⟨next, hnext, hreadyNext, hframe, hmerged, hlost⟩ :=
        splitEntries_spec es mid path hkeys hwf.2 hplaced.ready (fun e he =>
          have hnot := not_prefix_of_ne path [] (hne e he).symm
          hplaced.frame _ hnot.1 hnot.2 (hfree e (List.mem_cons_of_mem _ he)))
      have hkeeps : parser.keepsEntries chunks path ((k, v) :: es) =
          ((parser.fits chunks k v || parser.keeps (parser.opened chunks) (path ++ [k]) v) &&
            parser.keepsEntries mid path es) := by
        rw [keepsEntries, hmid]
        rfl
      refine ⟨next, by rw [splitEntries_cons, hmid]; exact hnext, hreadyNext, ?_, ?_, ?_⟩
      · intro q hq hfreeq
        obtain ⟨hqk, hqes⟩ := List.forall_mem_cons.mp hq
        exact hframe q hqes (hplaced.frame q hqk.1 hqk.2 hfreeq)
      · intro hkept
        rw [hkeeps, Bool.and_eq_true] at hkept
        rw [hmerged hkept.2, hplaced.merged hkept.1]
        rfl
      · intro hkept
        rw [hkeeps, Bool.and_eq_false_iff] at hkept
        rcases hkept with hkept | hkept
        · obtain ⟨r, hr, hv⟩ := hplaced.lost hkept
          refine ⟨k :: r, hframe _ (fun e he => not_prefix_of_ne path r (hne e he)) ?_, ?_⟩
          · rwa [List.append_assoc] at hr
          · rw [free_dict_cons, List.lookup_cons_self]
            exact hv
        · obtain ⟨r, hr, hes⟩ := hlost hkept
          refine ⟨r, hr, fun hr' => hes ?_⟩
          cases r with
          | nil => cases eq_none_of_free_nil hr'
          | cons k' r =>
              rw [free_dict_cons] at hr' ⊢
              by_cases hkk : k' = k
              · rw [hkk, Dict.lookup_eq_none_iff.mpr hnew]
                exact free_none r
              · rwa [Dict.lookup_cons_of_ne hkk] at hr'
end

end runs

/-! ### Documents -/

theorem natText_injective : Function.Injective natText := by
  intro m n h
  have hm := digitsOf_natText Unicode.ascii m
  rw [h, digitsOf_natText] at hm
  exact (Option.some.inj hm).symm

mutual
/-- The conversion of lists keeps the keys distinct. -/
theorem listToDict_wf : ∀ v : Json F, v.WF → (listToDict v).WF
  | .null, _ => trivial
  | .bool _, _ => trivial
  | .int _, _ => trivial
  | .float _, _ => trivial
  | .str _, _ => trivial
  | list xs, h => by
      obtain ⟨hkeys, hwf⟩ := listToDictItems_wf xs 0 h
      refine ⟨?_, hwf⟩
      rw [hkeys]
      exact (List.nodup_range' 1).map natText_injective
  | dict es, h => by
      obtain ⟨hkeys, hwf⟩ := listToDictEntries_wf es h.2
      refine ⟨?_, hwf⟩
      rw [hkeys]
      exact h.1

theorem listToDictEntries_wf : ∀ es : List (Str × Json F), WFEntries es →
    (listToDictEntries es).map Prod.fst = es.map Prod.fst ∧ WFEntries (listToDictEntries es)
  | [], _ => ⟨rfl, trivial⟩
  | (k, v) :: es, h => by
      obtain ⟨hkeys, hwf⟩ := listToDictEntries_wf es h.2
      exact ⟨congrArg (k :: ·) hkeys, listToDict_wf v h.1, hwf⟩

theorem listToDictItems_wf : ∀ (xs : List (Json F)) (i : ℕ), WFItems xs →
    (listToDictItems i xs).map Prod.fst = (List.range' i xs.length).map natText ∧
      WFEntries (listToDictItems i xs)
  | [], _, _ => ⟨rfl, trivial⟩
  | x :: xs, i, h => by
      obtain ⟨hkeys, hwf⟩ := listToDictItems_wf xs (i + 1) h.2
      exact ⟨congrArg (natText i :: ·) hkeys, listToDict_wf x h.1, hwf⟩
end

/-- A container is converted to a dictionary. -/
theorem listToDict_container {v : Json F} (h : isContainer v = true) :
    ∃ es, listToDict v = dict es := by
  cases v with
  | dict es => exact ⟨_, rfl⟩
  | list xs => exact ⟨_, rfl⟩
  | _ => cases h

section documents
variable [FloatText F] (parser : JsonParser)

/-- A container is split into chunks with disjoint key paths, which have its data if no empty
container is split. -/
theorem splitJson_container {v : Json F} (hwf : v.WF) (h : isContainer v = true) :
    ∃ chunks, parser.splitJson v true = some chunks ∧ DisjointPaths chunks ∧
      (merged chunks = listToDict v ↔ parser.keepsEmpty v = true) := by
  obtain ⟨es, hes⟩ := listToDict_container h
  have hdict := listToDict_wf v hwf
  rw [hes] at hdict
  have hready : (⟨[], []⟩ : Chunks F).Ready := by
    refine ⟨fun c hc => ?_, List.pairwise_singleton _ _⟩
    rw [List.mem_singleton.mp hc]
    exact ⟨List.nodup_nil, trivial⟩
  obtain ⟨next, hnext, hreadyNext, -, hmerged, hlost⟩ := splitEntries_spec parser es ⟨[], []⟩ []
    hdict.1 hdict.2 hready (fun e _ c hc => by
      rw [List.mem_singleton.mp hc]
      exact free_empty)
  have hkeeps : parser.keepsEmpty v = parser.keepsEntries ⟨[], []⟩ [] es := by
    rw [keepsEmpty, hes]
  have hiff : merged next.toList = listToDict v ↔ parser.keepsEmpty v = true := by
    rw [hkeeps, hes]
    constructor
    · intro heq
      by_contra hnot
      obtain ⟨r, hr, hfree⟩ := hlost (Bool.eq_false_iff.mpr hnot)
      rw [← heq] at hfree
      exact hfree (free_merged hr.ne_nil hreadyNext.wf hr)
    · intro hkept
      rw [hmerged hkept]
      by_cases hnil : es = []
      · subst hnil
        rfl
      · exact foldl_place hnil rfl hdict.1
  have hsplit : parser.splitJson v true =
      some (if next.last.isEmpty then next.done else next.toList) := by
    rw [splitJson, if_pos rfl, hes, split, hnext]
    rfl
  refine ⟨_, hsplit, ?_⟩
  cases hlast : next.last with
  | nil =>
      have hmerge : merged next.toList = merged next.done := by
        rw [Chunks.toList, hlast]
        unfold merged
        rw [List.foldl_append, List.foldl_cons, List.foldl_nil, mergeEntries_nil]
      rw [hmerge] at hiff
      exact ⟨(List.pairwise_append.mp hreadyNext.disjoint).1, hiff⟩
  | cons e d => exact ⟨hreadyNext.disjoint, hiff⟩

theorem splitJson_scalar {v : Json F} (h : isContainer v = false) :
    parser.splitJson v true = none := by
  cases v with
  | dict es => cases h
  | list xs => cases h
  | _ => rfl

/-- A text has a result unless it is the text of a scalar. -/
theorem parseJson_isSome_iff (content : Str) :
    (parser.parseJson (F := F) content).isSome ↔
      ∀ v : Json F, loads content = some v → isContainer v = true := by
  unfold parseJson
  cases hv : loads (F := F) content with
  | none => exact ⟨fun _ _ h => (nomatch h), fun _ => rfl⟩
  | some v =>
      constructor
      · rintro h w ⟨⟩
        by_contra hnot
        dsimp only at h
        rw [splitJson_scalar parser (Bool.eq_false_iff.mpr hnot)] at h
        cases h
      · intro h
        obtain ⟨chunks, hsplit, -⟩ := splitJson_container parser (loads_wf hv) (h v rfl)
        dsimp only
        rw [hsplit]
        rfl

theorem mapM_isSome_iff {α β : Type} {f : α → Option β} {xs : List α} :
    (xs.mapM f).isSome ↔ ∀ x ∈ xs, (f x).isSome := by
  induction xs with
  | nil => simp
  | cons x xs ih =>
      rw [List.mapM_cons, List.forall_mem_cons, ← ih]
      cases f x with
      | none => simp
      | some y => cases xs.mapM f <;> simp

/-- A file of lines has a result unless one of them is the text of a scalar. -/
theorem parseJsonl_isSome_iff (content : Str) :
    (parser.parseJsonl (F := F) content).isSome ↔
      ∀ line ∈ splitlines (strip content), strip line ≠ [] →
        ∀ v : Json F, loads line = some v → isContainer v = true := by
  have hlines : (parser.parseJsonl (F := F) content).isSome ↔
      ((splitlines (strip content)).mapM (fun line =>
        if (strip line).isEmpty then some [] else parser.parseJson (F := F) line)).isSome := by
    unfold parseJsonl
    generalize (splitlines (strip content)).mapM (fun line =>
      if (strip line).isEmpty then some [] else parser.parseJson (F := F) line) = sections
    cases sections <;> rfl
  rw [hlines, mapM_isSome_iff]
  refine forall₂_congr (fun line _ => ?_)
  split_ifs with hblank
  · exact ⟨fun _ hne => absurd (List.isEmpty_iff.mp hblank) hne, fun _ => rfl⟩
  · rw [parseJson_isSome_iff]
    exact ⟨fun h _ => h, fun h => h (fun hnil => hblank (List.isEmpty_iff.mpr hnil))⟩

theorem conserves_keepsEmpty {v : Json F} (hwf : v.WF) :
    parser.Conserves v ↔ isContainer v = true ∧ parser.keepsEmpty v = true := by
  unfold Conserves
  split_ifs with h
  · obtain ⟨chunks, hsplit, hdisjoint, hiff⟩ := splitJson_container parser hwf h
    constructor
    · rintro ⟨chunks', hsplit', -, hmerged⟩
      rw [hsplit] at hsplit'
      cases hsplit'
      exact ⟨h, hiff.mp hmerged⟩
    · exact fun hkeeps => ⟨chunks, hsplit, hdisjoint, hiff.mpr hkeeps.2⟩
  · constructor
    · intro hparse
      have hsome := (parseJson_isSome_iff parser v.dumps).mp (hparse _ (loads_dumps hwf)) v
        (loads_dumps hwf)
      exact absurd hsome h
    · exact fun hkeeps => absurd hkeeps.1 h

end documents

/-! ### Chunk sizes -/

section sizes
variable [FloatText F] (parser : JsonParser)

mutual
/-- Without empty containers nothing is lost. -/
theorem keeps_of_full : ∀ (v : Json F) (chunks : Chunks F) (path : Path), full v = true →
    parser.keeps chunks path (listToDict v) = true
  | .null, _, _, _ => rfl
  | .bool _, _, _, _ => rfl
  | .int _, _, _, _ => rfl
  | .float _, _, _, _ => rfl
  | .str _, _, _, _ => rfl
  | list [], _, _, h => nomatch h
  | list (x :: xs), chunks, path, h => keepsItems_of_full (x :: xs) 0 chunks path h
  | dict [], _, _, h => nomatch h
  | dict (e :: es), chunks, path, h => keepsEntries_of_full (e :: es) chunks path h

theorem keepsEntries_of_full : ∀ (es : List (Str × Json F)) (chunks : Chunks F) (path : Path),
    fullEntries es = true → parser.keepsEntries chunks path (listToDictEntries es) = true
  | [], _, _, _ => rfl
  | (k, v) :: es, chunks, path, h => by
      rw [fullEntries, Bool.and_eq_true] at h
      rw [listToDictEntries, keepsEntries, keeps_of_full v _ _ h.1, keepsEntries_of_full es _ _ h.2,
        Bool.or_true, Bool.and_true]

theorem keepsItems_of_full : ∀ (xs : List (Json F)) (i : ℕ) (chunks : Chunks F) (path : Path),
    fullItems xs = true → parser.keepsEntries chunks path (listToDictItems i xs) = true
  | [], _, _, _, _ => rfl
  | x :: xs, i, chunks, path, h => by
      rw [fullItems, Bool.and_eq_true] at h
      rw [listToDictItems, keepsEntries, keeps_of_full x _ _ h.1,
        keepsItems_of_full xs _ _ _ h.2, Bool.or_true, Bool.and_true]
end

/-- Nothing fits into chunks of size zero. -/
theorem fits_zero (chunks : Chunks F) (key : Str) (value : Json F) :
    (init 0 none).fits chunks key value = false := by
  unfold fits init
  rw [decide_eq_false_iff_not]
  dsimp only
  omega

mutual
/-- If nothing fits, every empty container is split. -/
theorem full_of_keeps : ∀ (v : Json F) (chunks : Chunks F) (path : Path),
    (init 0 none).keeps chunks path (listToDict v) = true → full v = true
  | .null, _, _, _ => rfl
  | .bool _, _, _, _ => rfl
  | .int _, _, _, _ => rfl
  | .float _, _, _, _ => rfl
  | .str _, _, _, _ => rfl
  | list [], _, _, h => nomatch h
  | list (x :: xs), chunks, path, h => fullItems_of_keeps (x :: xs) 0 chunks path h
  | dict [], _, _, h => nomatch h
  | dict (e :: es), chunks, path, h => fullEntries_of_keeps (e :: es) chunks path h

theorem fullEntries_of_keeps : ∀ (es : List (Str × Json F)) (chunks : Chunks F) (path : Path),
    (init 0 none).keepsEntries chunks path (listToDictEntries es) = true → fullEntries es = true
  | [], _, _, _ => rfl
  | (k, v) :: es, chunks, path, h => by
      rw [listToDictEntries, keepsEntries, fits_zero, Bool.false_or, Bool.and_eq_true] at h
      rw [fullEntries, full_of_keeps v _ _ h.1, fullEntries_of_keeps es _ _ h.2, Bool.and_true]

theorem fullItems_of_keeps : ∀ (xs : List (Json F)) (i : ℕ) (chunks : Chunks F) (path : Path),
    (init 0 none).keepsEntries chunks path (listToDictItems i xs) = true → fullItems xs = true
  | [], _, _, _, _ => rfl
  | x :: xs, i, chunks, path, h => by
      rw [listToDictItems, keepsEntries, fits_zero, Bool.false_or, Bool.and_eq_true] at h
      rw [fullItems, full_of_keeps x _ _ h.1, fullItems_of_keeps xs _ _ _ h.2, Bool.and_true]
end

/-- No size of the chunks loses an empty container only if there is none. -/
theorem keepsEmpty_forall_iff {v : Json F} :
    (∀ (maxChunkSize : ℤ) (minChunkSize : Option ℤ),
      (init maxChunkSize minChunkSize).keepsEmpty v = true) ↔ fullBelow v = true := by
  constructor
  · intro h
    cases v with
    | dict es => exact fullEntries_of_keeps es _ _ (h 0 none)
    | list xs => exact fullItems_of_keeps xs _ _ _ (h 0 none)
    | _ => rfl
  · intro h maxChunkSize minChunkSize
    cases v with
    | dict es => exact keepsEntries_of_full _ es _ _ h
    | list xs => exact keepsItems_of_full _ xs _ _ _ h
    | _ => rfl

/-- **Conservation.**  With given chunk sizes a document is conserved exactly if it is a container
and each empty container below it fits where it is met; with all chunk sizes, exactly if there is
no empty container below it. -/
theorem conserves_iff {v : Json F} (hwf : v.WF) :
    (∀ (maxChunkSize : ℤ) (minChunkSize : Option ℤ),
      (init maxChunkSize minChunkSize).Conserves v ↔
        isContainer v = true ∧ (init maxChunkSize minChunkSize).keepsEmpty v = true) ∧
    ((∀ (maxChunkSize : ℤ) (minChunkSize : Option ℤ),
      (init maxChunkSize minChunkSize).Conserves v) ↔
        isContainer v = true ∧ fullBelow v = true) := by
  have hiff := fun (maxChunkSize : ℤ) (minChunkSize : Option ℤ) =>
    conserves_keepsEmpty (init maxChunkSize minChunkSize) hwf
  refine ⟨hiff, fun h => ?_, fun h maxChunkSize minChunkSize => ?_⟩
  · exact ⟨((hiff 0 none).mp (h 0 none)).1,
      keepsEmpty_forall_iff.mp (fun a b => ((hiff a b).mp (h a b)).2)⟩
  · exact (hiff _ _).mpr ⟨h.1, keepsEmpty_forall_iff.mpr h.2 _ _⟩

end sizes

/-- A document in which nothing is lost. -/
def settings : Json Tenths := dict [("a".toList, dict [("b".toList, .int 1)])]

theorem settings_wf : settings.WF :=
  ⟨List.nodup_singleton _, ⟨List.nodup_singleton _, trivial, trivial⟩, trivial⟩

theorem settings_conserved :
    settings.WF ∧ (∀ (maxChunkSize : ℤ) (minChunkSize : Option ℤ),
      (init maxChunkSize minChunkSize).Conserves settings) :=
  ⟨settings_wf, (conserves_iff settings_wf).2.mpr ⟨rfl, rfl⟩⟩

/-- An empty dictionary that does not fit is lost, and for a scalar the parser raises. -/
theorem not_conserved :
    ¬ (init 1 none).Conserves (dict [("a".toList, dict [])] : Json Tenths) ∧
      ¬ ∀ content, loads content = some (.int 5 : Json Tenths) →
        ((init 512 none).parseJson (F := Tenths) content).isSome := by
  constructor
  · rintro ⟨chunks, hsplit, -, hmerged⟩
    have hlength : ((init 1 none).splitJson (dict [("a".toList, dict [])] : Json Tenths) true).map
        List.length = some 0 := by
      decide +kernel
    rw [hsplit] at hlength
    rw [List.length_eq_zero_iff.mp (Option.some.inj hlength)] at hmerged
    cases hmerged
  · intro h
    have hloads : loads (intText 5) = some (.int 5 : Json Tenths) :=
      loads_dumps (v := (.int 5 : Json Tenths)) trivial
    have hsome := h _ hloads
    unfold parseJson at hsome
    rw [hloads] at hsome
    cases hsome

end JsonParser

end RagFlow
