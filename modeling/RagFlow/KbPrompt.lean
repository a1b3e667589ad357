import RagFlow.CanvasReference
import RagFlow.Prompts

/-! # The knowledge of a prompt

`kb_prompt` of `rag/prompts/generator.py` renders the retrieved chunks, as many as the prompt has
room for.

* **Counting.** The loop counts the chunks with a content up to the one that is too much, and that
  one (`chunksNum`).  The list that it cuts at the right place is not used any more.
* **Rendering.** The first `chunksNum` chunks of all are rendered, each with its place as its id.
* **Budget.** `budgeted_iff`: these are the longest part within the budget exactly if no chunk is
  too much and none is empty, or one chunk before the one that is too much is empty. -/

namespace RagFlow.Prompts

open Py

variable {F : Type}

/-! ### Chunks -/

/-- A dictionary. -/
abbrev Fields (F : Type) := Agent.Reference.Fields F

/-- A retrieved chunk: a dictionary whose content is a string; it may have no document. -/
structure Chunk (F : Type) where
  fields : Fields F
  content : Str
  content_eq : Agent.Reference.getValue fields "content" "content_with_weight" = .str content
  docId : Option Str
  docId_eq : Agent.Reference.getValue fields "doc_id" "document_id" = docId.elim .null .str

/-- What is read elsewhere: the documents with one of the ids, their metadata, the text of a value
and the hash of a text. -/
structure Sources (F : Type) where
  getByIds : List (Option Str) → List Str
  getDocumentMetadata : Str → Fields F
  str : Json F → Str
  hashStr2int : Str → ℕ

/-! ### Counting -/

/-- `max_tokens * 0.97`. -/
def limit (maxTokens : ℤ) : ℚ :=
  Binary64.nearest (Binary64.nearest maxTokens * Binary64.nearest (97 / 100))

/-- The integer is beyond the largest double. -/
def Overflows (maxTokens : ℤ) : Prop := 2 ^ 1024 ≤ |Binary64.nearest maxTokens|

instance (maxTokens : ℤ) : Decidable (Overflows maxTokens) :=
  inferInstanceAs (Decidable (_ ≤ _))

/-- The loop over the contents; `none` is OverflowError. -/
def Encoder.chunksNumFrom (enc : Encoder) (maxTokens : ℤ) : List Str → ℕ → ℕ → Option ℕ
  | [], _, chunksNum => some chunksNum
  | c :: knowledges, used, chunksNum =>
      if c = [] then enc.chunksNumFrom maxTokens knowledges used chunksNum
      else if Overflows maxTokens then none
      else if limit maxTokens < (used + enc.numTokens c : ℕ) then some (chunksNum + 1)
      else enc.chunksNumFrom maxTokens knowledges (used + enc.numTokens c) (chunksNum + 1)

def Encoder.chunksNum (enc : Encoder) (maxTokens : ℤ) (knowledges : List Str) : Option ℕ :=
  enc.chunksNumFrom maxTokens knowledges 0 0

/-! ### Rendering -/

/-- `re.sub(r"\n+", " ", line)`, after a line break or not. -/
def joinLines : Bool → Str → Str
  | _, [] => []
  | after, c :: line =>
      if c = '\n' then (if after then joinLines true line else ' ' :: joinLines true line)
      else c :: joinLines false line

namespace Sources
variable (src : Sources F)

def drawNode (k : Str) (line : Json F) : Str :=
  let line := match line with
    | .null => []
    | .str s => s
    | v => src.str v
  if line = [] then [] else "\n├── ".toList ++ k ++ ": ".toList ++ joinLines false line

/-- The documents with their metadata. -/
def docsWithMeta (ids : List (Option Str)) : List (Str × Fields F) :=
  (src.getByIds ids).foldl (fun docs d => Dict.set d (src.getDocumentMetadata d) docs) []

/-- The id that is shown; `none` if there is no text to hash. -/
def shownId (hashId : Bool) (i : ℕ) (ck : Chunk F) : Option ℕ :=
  if hashId then
    match Agent.Reference.getValue ck.fields "id" "chunk_id" with
    | .str s => some (src.hashStr2int s)
    | _ => none
  else some i

def drawChunk (docs : List (Str × Fields F)) (id : ℕ) (ck : Chunk F) : Str :=
  let fields := match ck.docId with
    | some d => (docs.lookup d).getD []
    | none => []
  "\nID: ".toList ++ natText id ++
    (src.drawNode "Title" (Agent.Reference.getValue ck.fields "docnm_kwd" "document_name") ++
      (match ck.fields.lookup "url".toList with
        | some line => src.drawNode "URL" line
        | none => []) ++
      fields.flatMap (fun x => src.drawNode x.1 x.2)) ++
    "\n└── Content:\n".toList ++ ck.content

/-- `kb_prompt`; `none` if it raises. -/
def kbPrompt (enc : Encoder) (chunks : List (Chunk F)) (maxTokens : ℤ) (hashId : Bool) :
    Option (List Str) := do
  let chunksNum ← enc.chunksNum maxTokens (chunks.map Chunk.content)
  let cks := chunks.take chunksNum
  let docs := src.docsWithMeta (cks.map Chunk.docId)
  cks.zipIdx.mapM (fun x => do
    let id ← src.shownId hashId x.2 x.1
    some (src.drawChunk docs id x.1))

end Sources

/-! ### The longest part within the budget -/

namespace Encoder
variable (enc : Encoder)

/-- The tokens of some contents. -/
def tokens (contents : List Str) : ℕ :=
  (contents.map (fun c => if c = [] then 0 else enc.numTokens c)).sum

/-- The first `k` contents are within the budget, and no more are. -/
structure Longest (maxTokens : ℤ) (contents : List Str) (k : ℕ) : Prop where
  le : k ≤ contents.length
  within : (enc.tokens (contents.take k) : ℚ) ≤ limit maxTokens
  longest : ∀ j ≤ contents.length, (enc.tokens (contents.take j) : ℚ) ≤ limit maxTokens → j ≤ k

/-- The number of contents that are not empty. -/
def filled (contents : List Str) : ℕ := contents.countP (fun c => c ≠ [])

theorem tokens_cons (c : Str) (cs : List Str) :
    enc.tokens (c :: cs) = (if c = [] then 0 else enc.numTokens c) + enc.tokens cs := List.sum_cons

/-- More contents have more tokens. -/
theorem tokens_take_mono {contents : List Str} {j k : ℕ} (h : j ≤ k) :
    enc.tokens (contents.take j) ≤ enc.tokens (contents.take k) := by
  have hsub : (contents.take j).Sublist (contents.take k) := List.take_sublist_take_left h
  exact (hsub.map _).sum_le_sum (fun _ _ => Nat.zero_le _)

variable {enc} {maxTokens : ℤ}

/-- Within the budget all filled chunks are counted. -/
theorem chunksNumFrom_within (hsmall : ¬ Overflows maxTokens) (cs : List Str) :
    ∀ used num : ℕ, ((used + enc.tokens cs : ℕ) : ℚ) ≤ limit maxTokens →
      enc.chunksNumFrom maxTokens cs used num = some (num + filled cs) := by
  induction cs with
  | nil => exact fun used num _ => rfl
  | cons c cs ih =>
      intro used num hle
      rw [tokens_cons] at hle
      rw [chunksNumFrom]
      by_cases hc : c = []
      · rw [if_pos hc, Nat.zero_add] at hle
        rw [if_pos hc, ih used num hle, hc]
        rfl
      · rw [if_neg hc, ← Nat.add_assoc] at hle
        have hnext : ¬ limit maxTokens < ((used + enc.numTokens c : ℕ) : ℚ) := by
          refine not_lt.mpr (le_trans ?_ hle)
          exact_mod_cast Nat.le_add_right _ _
        rw [if_neg hc, if_neg hsmall, if_neg hnext, ih _ _ hle]
        unfold filled
        rw [List.countP_cons_of_pos (by simpa using hc)]
        congr 1
        omega

/-- The chunk that is too much is counted with those before it. -/
theorem chunksNumFrom_over (hsmall : ¬ Overflows maxTokens) {cs : List Str} {i : ℕ}
    (hi : i < cs.length) : ∀ used num : ℕ,
      ((used + enc.tokens (cs.take i) : ℕ) : ℚ) ≤ limit maxTokens →
      limit maxTokens < ((used + enc.tokens (cs.take (i + 1)) : ℕ) : ℚ) →
      enc.chunksNumFrom maxTokens cs used num = some (num + filled (cs.take i) + 1) := by
  induction cs generalizing i with
  | nil => exact absurd hi (Nat.not_lt_zero i)
  | cons c cs ih =>
      intro used num hle hlt
      rw [List.take_succ_cons, tokens_cons] at hlt
      rw [chunksNumFrom]
      cases i with
      | zero =>
          rw [List.take_zero] at hle hlt
          have hc : c ≠ [] := by
            intro hc
            rw [if_pos hc, Nat.zero_add] at hlt
            exact absurd hle (not_le.mpr hlt)
          rw [if_neg hc, show enc.tokens [] = 0 from rfl, Nat.add_zero] at hlt
          rw [if_neg hc, if_neg hsmall, if_pos hlt]
          rfl
      | succ i =>
          rw [List.take_succ_cons, tokens_cons] at hle
          have hi' := Nat.lt_of_succ_lt_succ hi
          rw [List.take_succ_cons]
          by_cases hc : c = []
          · rw [if_pos hc, Nat.zero_add] at hle hlt
            rw [if_pos hc, ih hi' used num hle hlt, hc]
            rfl
          · rw [if_neg hc, ← Nat.add_assoc] at hle hlt
            have hnext : ¬ limit maxTokens < ((used + enc.numTokens c : ℕ) : ℚ) := by
              refine not_lt.mpr (le_trans ?_ hle)
              exact_mod_cast Nat.le_add_right _ _
            rw [if_neg hc, if_neg hsmall, if_neg hnext, ih hi' _ _ hle hlt]
            unfold filled
            rw [List.countP_cons_of_pos (by simpa using hc)]
            congr 1
            omega

/-- A budget beyond the doubles raises at the first filled chunk. -/
theorem chunksNumFrom_overflows (hlarge : Overflows maxTokens) (cs : List Str) :
    ∀ used num : ℕ, enc.chunksNumFrom maxTokens cs used num =
      if ∀ c ∈ cs, c = [] then some num else none := by
  induction cs with
  | nil => exact fun used num => rfl
  | cons c cs ih =>
      intro used num
      rw [chunksNumFrom]
      by_cases hc : c = []
      · rw [if_pos hc, ih]
        refine if_congr ?_ rfl rfl
        rw [List.forall_mem_cons]
        exact (and_iff_right hc).symm
      · rw [if_neg hc, if_pos hlarge, if_neg (fun h => hc (h c List.mem_cons_self))]

theorem chunksNumFrom_le {cs : List Str} : ∀ {used num k : ℕ},
    enc.chunksNumFrom maxTokens cs used num = some k → k ≤ num + cs.length := by
  induction cs with
  | nil =>
      intro used num k h
      cases h
      exact Nat.le_refl _
  | cons c cs ih =>
      intro used num k h
      rw [chunksNumFrom] at h
      rw [List.length_cons]
      split_ifs at h
      · have hle := ih h
        omega
      · cases h
        omega
      · have hle := ih h
        omega

/-- Contents that are too much have a first one that is. -/
theorem exists_over {contents : List Str} (hzero : 0 ≤ limit maxTokens)
    (h : limit maxTokens < enc.tokens contents) : ∃ i < contents.length,
      (enc.tokens (contents.take i) : ℚ) ≤ limit maxTokens ∧
        limit maxTokens < enc.tokens (contents.take (i + 1)) := by
  have hex : ∃ k, limit maxTokens < enc.tokens (contents.take k) :=
    ⟨contents.length, by rwa [List.take_length]⟩
  classical
  have hspec := Nat.find_spec hex
  have hmin := fun m => @Nat.find_min _ _ hex m
  cases hk : Nat.find hex with
  | zero =>
      rw [hk, List.take_zero] at hspec
      exact absurd hzero (not_le.mpr hspec)
  | succ i =>
      have hi := hmin i (by omega)
      rw [hk] at hspec
      refine ⟨i, ?_, not_lt.mp hi, hspec⟩
      by_contra hlen
      rw [List.take_of_length_le (by omega)] at hi hspec
      exact hi hspec

theorem Longest.unique {contents : List Str} {j k : ℕ} (hj : enc.Longest maxTokens contents j)
    (hk : enc.Longest maxTokens contents k) : j = k :=
  Nat.le_antisymm (hk.longest j hj.le hj.within) (hj.longest k hk.le hk.within)

theorem longest_all {contents : List Str} (h : (enc.tokens contents : ℚ) ≤ limit maxTokens) :
    enc.Longest maxTokens contents contents.length := by
  refine ⟨Nat.le_refl _, ?_, fun j hj _ => hj⟩
  rwa [List.take_length]

theorem longest_over {contents : List Str} {i : ℕ} (hi : i < contents.length)
    (hle : (enc.tokens (contents.take i) : ℚ) ≤ limit maxTokens)
    (hlt : limit maxTokens < enc.tokens (contents.take (i + 1))) :
    enc.Longest maxTokens contents i := by
  refine ⟨hi.le, hle, fun j _ hj => ?_⟩
  by_contra hij
  have hmono := @tokens_take_mono enc contents (i + 1) j (by omega)
  have hcast : (enc.tokens (contents.take (i + 1)) : ℚ) ≤ enc.tokens (contents.take j) := by
    exact_mod_cast hmono
  linarith

/-- The number of empty contents. -/
theorem filled_add_count (contents : List Str) :
    filled contents + contents.count [] = contents.length := by
  induction contents with
  | nil => rfl
  | cons c cs ih =>
      unfold filled at ih ⊢
      rw [List.countP_cons, List.count_cons, List.length_cons, ← ih]
      by_cases hc : c = []
      · simp [hc]
        omega
      · simp [hc]
        omega

variable (enc) in
/-- When the first `chunksNum` chunks are the longest part within the budget. -/
def CountsLongest (maxTokens : ℤ) (contents : List Str) : Prop :=
  0 ≤ limit maxTokens ∧ (¬ Overflows maxTokens ∨ contents = []) ∧
    (((enc.tokens contents : ℚ) ≤ limit maxTokens ∧ [] ∉ contents) ∨
      ∃ i < contents.length, (enc.tokens (contents.take i) : ℚ) ≤ limit maxTokens ∧
        limit maxTokens < enc.tokens (contents.take (i + 1)) ∧ (contents.take i).count [] = 1)

/-- The number that is counted is compared with the length of the longest part. -/
theorem longest_iff_eq {contents : List Str} {k m : ℕ}
    (hk : enc.chunksNum maxTokens contents = some k) (hm : enc.Longest maxTokens contents m) :
    (∃ k, enc.chunksNum maxTokens contents = some k ∧ enc.Longest maxTokens contents k) ↔
      k = m := by
  constructor
  · rintro ⟨k', hk', hlongest⟩
    rw [hk] at hk'
    cases hk'
    exact hlongest.unique hm
  · rintro rfl
    exact ⟨k, hk, hm⟩

/-- A budget beyond the doubles is only taken if no chunk is looked at. -/
theorem longest_iff_of_overflows {contents : List Str} (hlarge : Overflows maxTokens)
    (hzero : 0 ≤ limit maxTokens) :
    (∃ k, enc.chunksNum maxTokens contents = some k ∧ enc.Longest maxTokens contents k) ↔
      contents = [] := by
  have hrun := @chunksNumFrom_overflows enc maxTokens hlarge contents 0 0
  constructor
  · rintro ⟨k, hk, hlongest⟩
    unfold chunksNum at hk
    rw [hrun] at hk
    split_ifs at hk with hempty
    cases hk
    have htokens : enc.tokens contents = 0 := by
      refine List.sum_eq_zero (fun n hn => ?_)
      obtain ⟨c, hc, rfl⟩ := List.mem_map.mp hn
      exact if_pos (hempty c hc)
    have hlength := hlongest.longest contents.length (Nat.le_refl _) (by
      rw [List.take_length, htokens]
      exact_mod_cast hzero)
    exact List.eq_nil_of_length_eq_zero (Nat.le_zero.mp hlength)
  · rintro rfl
    exact ⟨0, rfl, longest_all (by exact_mod_cast hzero)⟩

theorem longest_chunksNum_iff (contents : List Str) :
    (∃ k, enc.chunksNum maxTokens contents = some k ∧ enc.Longest maxTokens contents k) ↔
      enc.CountsLongest maxTokens contents := by
  have hnone : (∃ k, enc.chunksNum maxTokens contents = some k ∧
      enc.Longest maxTokens contents k) → 0 ≤ limit maxTokens := by
    rintro ⟨k, -, hk⟩
    exact le_trans (Nat.cast_nonneg _) hk.within
  by_cases hzero : 0 ≤ limit maxTokens
  swap
  · exact iff_of_false (fun h => hzero (hnone h)) (fun h => hzero h.1)
  by_cases hlarge : Overflows maxTokens
  · rw [longest_iff_of_overflows hlarge hzero]
    constructor
    · rintro rfl
      exact ⟨hzero, Or.inr rfl, Or.inl ⟨by exact_mod_cast hzero, List.not_mem_nil⟩⟩
    · rintro ⟨-, hnil, -⟩
      exact hnil.resolve_left (not_not_intro hlarge)
  unfold CountsLongest
  rw [and_iff_right hzero, and_iff_right (Or.inl hlarge)]
  by_cases hall : (enc.tokens contents : ℚ) ≤ limit maxTokens
  · have hrun := @chunksNumFrom_within enc maxTokens hlarge contents 0 0 (by rwa [Nat.zero_add])
    rw [Nat.zero_add] at hrun
    have hnever : ¬ ∃ i < contents.length, (enc.tokens (contents.take i) : ℚ) ≤ limit maxTokens ∧
        limit maxTokens < enc.tokens (contents.take (i + 1)) ∧
          (contents.take i).count [] = 1 := by
      rintro ⟨i, hi, hle, hlt, -⟩
      have heq := (longest_over hi hle hlt).unique (longest_all hall)
      omega
    have hcount := filled_add_count contents
    rw [longest_iff_eq hrun (longest_all hall), or_iff_left hnever, and_iff_right hall,
      ← List.count_eq_zero]
    omega
  · obtain ⟨i, hi, hle, hlt⟩ := exists_over hzero (not_le.mp hall)
    have hrun := @chunksNumFrom_over enc maxTokens hlarge contents i hi 0 0
      (by rwa [Nat.zero_add]) (by rwa [Nat.zero_add])
    rw [Nat.zero_add] at hrun
    have hlongest := longest_over hi hle hlt
    have hcount := filled_add_count (contents.take i)
    rw [List.length_take, Nat.min_eq_left hi.le] at hcount
    rw [longest_iff_eq hrun hlongest, or_iff_right (fun h => hall h.1)]
    constructor
    · exact fun h => ⟨i, hi, hle, hlt, by omega⟩
    · rintro ⟨j, hj, hle', hlt', hempty⟩
      obtain rfl := (longest_over hj hle' hlt').unique hlongest
      omega

end Encoder

/-! ### The budget -/

namespace Sources
variable (src : Sources F) (enc : Encoder)

/-- The texts show the chunks, each with its place as its id. -/
structure Rendered (chunks : List (Chunk F)) (out : List Str) : Prop where
  length : out.length = chunks.length
  shown : ∀ i ck, chunks[i]? = some ck → ∃ nodes, out[i]? =
    some ("\nID: ".toList ++ natText i ++ nodes ++ "\n└── Content:\n".toList ++ ck.content)

/-- The chunks that are rendered are the longest part within the budget. -/
def Budgeted (chunks : List (Chunk F)) (maxTokens : ℤ) : Prop :=
  ∃ k out, src.kbPrompt enc chunks maxTokens false = some out ∧
    enc.Longest maxTokens (chunks.map Chunk.content) k ∧ Rendered (chunks.take k) out

theorem kbPrompt_eq (chunks : List (Chunk F)) (maxTokens : ℤ) :
    src.kbPrompt enc chunks maxTokens false =
      (enc.chunksNum maxTokens (chunks.map Chunk.content)).map (fun n =>
        (chunks.take n).zipIdx.map (fun x =>
          src.drawChunk (src.docsWithMeta ((chunks.take n).map Chunk.docId)) x.2 x.1)) := by
  unfold kbPrompt
  cases enc.chunksNum maxTokens (chunks.map Chunk.content) with
  | none => rfl
  | some n => exact List.mapM_pure

theorem rendered_drawChunk (docs : List (Str × Fields F)) (chunks : List (Chunk F)) :
    Rendered chunks (chunks.zipIdx.map (fun x => src.drawChunk docs x.2 x.1)) := by
  refine ⟨?_, fun i ck hck => ?_⟩
  · rw [List.length_map, List.length_zipIdx]
  · rw [List.getElem?_map, List.getElem?_zipIdx, hck, Option.map_some, Option.map_some,
      Nat.zero_add]
    exact ⟨_, rfl⟩

theorem budgeted_iff_longest (chunks : List (Chunk F)) (maxTokens : ℤ) :
    src.Budgeted enc chunks maxTokens ↔
      ∃ k, enc.chunksNum maxTokens (chunks.map Chunk.content) = some k ∧
        enc.Longest maxTokens (chunks.map Chunk.content) k := by
  constructor
  · rintro ⟨k, out, hout, hlongest, hrendered⟩
    rw [kbPrompt_eq] at hout
    obtain ⟨n, hn, rfl⟩ := Option.map_eq_some_iff.mp hout
    have hle := Encoder.chunksNumFrom_le hn
    have hlength := hrendered.length
    have hk := hlongest.le
    rw [List.length_map] at hle hk
    rw [List.length_map, List.length_zipIdx, List.length_take, List.length_take] at hlength
    obtain rfl : n = k := by omega
    exact ⟨n, hn, hlongest⟩
  · rintro ⟨k, hk, hlongest⟩
    have hrendered := rendered_drawChunk src
      (src.docsWithMeta ((chunks.take k).map Chunk.docId)) (chunks.take k)
    refine ⟨k, _, ?_, hlongest, hrendered⟩
    rw [kbPrompt_eq, hk, Option.map_some]

/-- **Budget.**  The longest part within the budget is rendered exactly if no chunk is too much and
none is empty, or one chunk before the one that is too much is empty. -/
theorem budgeted_iff (chunks : List (Chunk F)) (maxTokens : ℤ) :
    src.Budgeted enc chunks maxTokens ↔
      enc.CountsLongest maxTokens (chunks.map Chunk.content) :=
  (src.budgeted_iff_longest enc chunks maxTokens).trans (Encoder.longest_chunksNum_iff _)

end Sources

theorem limit_one : 0 ≤ limit 1 ∧ limit 1 ≤ 1 := by
  have hone : Binary64.IsDouble 1 := ⟨1, 0, by norm_num, by norm_num, by norm_num⟩
  have hhalf : Binary64.IsDouble (1 / 2) := ⟨1, -1, by norm_num, by norm_num, by norm_num⟩
  have hpos : ∀ x : ℚ, 1 / 4 < x → 0 < Binary64.nearest x := fun x hx =>
    Binary64.lt_nearest hhalf (by norm_num) (by linarith)
  have hmax := hpos 1 (by norm_num)
  have hshare := hpos (97 / 100) (by norm_num)
  have hmaxle : Binary64.nearest 1 ≤ 1 := Binary64.nearest_le hone (le_refl 1)
  have hsharele : Binary64.nearest (97 / 100) ≤ 1 :=
    Binary64.nearest_le hone (by norm_num)
  unfold limit
  rw [Int.cast_one]
  have hprod : Binary64.nearest 1 * Binary64.nearest (97 / 100) ≤ 1 :=
    mul_le_one₀ hmaxle hshare.le hsharele
  exact ⟨Binary64.nearest_nonneg (mul_pos hmax hshare).le,
    Binary64.nearest_le hone hprod⟩

/-- Nothing is read elsewhere. -/
def Sources.none : Sources Unit := ⟨fun _ => [], fun _ => [], fun _ => [], fun _ => 0⟩

/-- A chunk of two tokens where one is allowed is rendered. -/
theorem not_budgeted_long : ¬ Sources.none.Budgeted Encoder.characters
    [⟨[("content".toList, .str "aa".toList)], "aa".toList, rfl, none, rfl⟩] 1 := by
  rw [Sources.budgeted_iff_longest, Encoder.longest_chunksNum_iff]
  rintro ⟨-, -, ⟨hle, -⟩ | ⟨i, hi, -, -, hcount⟩⟩
  · have htokens : Encoder.characters.tokens ["aa".toList] = 2 := by decide
    have hle' := le_trans hle limit_one.2
    rw [List.map_singleton, htokens] at hle'
    norm_num at hle'
  · obtain rfl : i = 0 := by
      rw [List.length_map, List.length_singleton] at hi
      omega
    exact absurd hcount (by decide)

end RagFlow.Prompts
