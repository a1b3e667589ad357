import RagFlow.Dict
import RagFlow.PyJson

/-! # The references of a run

`add_reference` of `agent/canvas.py`: the tools of a canvas record the chunks and the documents that
an answer rests on.

* **Record.** Chunks are kept under the hash of their id, documents under their name.
* **Slip.** Before an entry is added the code looks for its key in the record itself, which has the
  keys `chunks` and `doc_aggs` only, and not in the dictionary that the entry goes to.  So the last
  entry of a key stays, not the first, and a document of one of these two names is never added.
* **Result.** `reference_keepsFirst_iff`: the first entries stay exactly when each id and each name
  is added the last time with an entry of the first call that added it, and no document is named
  `chunks` or `doc_aggs`. -/

namespace RagFlow.Agent.Reference

open Py

variable {F : Type}

/-- A dictionary. -/
abbrev Fields (F : Type) := List (Str × Json F)

/-! ### Chunks -/

/-- `d.get(k)`. -/
def get (d : Fields F) (k : Str) : Json F := (d.lookup k).getD .null

/-- `get_value(d, k1, k2)`. -/
def getValue (d : Fields F) (k1 k2 : Str) : Json F := (d.lookup k1).getD (get d k2)

/-- A chunk of a tool: a dictionary whose id is a string. -/
structure Chunk (F : Type) where
  fields : Fields F
  id : Str
  id_eq : getValue fields "chunk_id" "id" = .str id

/-- An item of the list of chunks; what is not a dictionary is left out. -/
inductive Obj (F : Type) where
  | dict (chunk : Chunk F)
  | other

/-- A formatted chunk. -/
structure Entry (F : Type) where
  fields : Fields F
  id : Str
  id_eq : get fields "id" = .str id

/-- The fields of a formatted chunk. -/
def formatFields (chunk : Fields F) : Fields F :=
  [("id", getValue chunk "chunk_id" "id"),
   ("content", getValue chunk "content" "content_with_weight"),
   ("document_id", getValue chunk "doc_id" "document_id"),
   ("document_name", getValue chunk "docnm_kwd" "document_name"),
   ("dataset_id", getValue chunk "kb_id" "dataset_id"),
   ("image_id", getValue chunk "image_id" "img_id"),
   ("positions", getValue chunk "positions" "position_int"),
   ("url", get chunk "url"),
   ("similarity", get chunk "similarity"),
   ("vector_similarity", get chunk "vector_similarity"),
   ("term_similarity", get chunk "term_similarity"),
   ("doc_type", getValue chunk "doc_type_kwd" "doc_type"),
   ("source_type", get chunk "source_type"),
   ("location", get chunk "location")]

def formatChunk (chunk : Chunk F) : Entry F := ⟨formatFields chunk.fields, chunk.id, chunk.id_eq⟩

/-- `chunks_format` on a list of chunks. -/
def chunksFormat (chunks : List (Obj F)) : List (Entry F) :=
  chunks.filterMap fun
    | .dict chunk => some (formatChunk chunk)
    | .other => none

/-! ### The record -/

/-- A document of a tool: a dictionary with a name. -/
structure Doc (F : Type) where
  fields : Fields F
  name : Str
  name_eq : get fields "doc_name" = .str name

/-- A record of references. -/
structure Record (F : Type) where
  chunks : List (ℕ × Entry F)
  docAggs : List (Str × Doc F)

namespace Record

/-- The keys of dictionaries that occur here. -/
inductive Key where
  | int (n : ℕ)
  | str (s : Str)
  deriving DecidableEq

/-- The keys of a record, which is a dictionary itself. -/
def keys : List Key := [.str "chunks", .str "doc_aggs"]

def empty : Record F := ⟨[], []⟩

end Record

section hash

-- the number that `hashlib.sha1` computes
variable (sha1 : Str → ℕ)

def hashStr2int (line : Str) (mod : ℕ) : ℕ := sha1 line % mod

def addChunk (r : Record F) (ck : Entry F) : Record F :=
  let cid := hashStr2int sha1 ck.id 500
  if Record.Key.int cid ∈ Record.keys then r
  else { r with chunks := Dict.set cid ck r.chunks }

def addDoc (r : Record F) (doc : Doc F) : Record F :=
  if Record.Key.str doc.name ∈ Record.keys then r
  else { r with docAggs := Dict.set doc.name doc r.docAggs }

/-- `self.retrieval`, with a record if there was none. -/
def started (retrieval : List (Record F)) : List (Record F) :=
  if retrieval.isEmpty then [Record.empty] else retrieval

/-- `get_reference`. -/
def getReference (retrieval : List (Record F)) : Record F := retrieval.getLast?.getD Record.empty

/-- The arguments of a call of `add_reference`. -/
structure Call (F : Type) where
  chunks : List (Obj F)
  docInfos : List (Doc F)

/-- `add_reference`: the last record is changed in its place. -/
def addReference (retrieval : List (Record F)) (call : Call F) : List (Record F) :=
  let r := getReference retrieval
  let r := (chunksFormat call.chunks).foldl (addChunk sha1) r
  let r := call.docInfos.foldl addDoc r
  (started retrieval).dropLast ++ [r]

/-- The calls of a run. -/
def addReferences (retrieval : List (Record F)) (calls : List (Call F)) : List (Record F) :=
  calls.foldl (addReference sha1) retrieval

end hash

/-! ### What is added -/

/-- The chunks that each call adds, by id. -/
def chunkBatches (calls : List (Call F)) : List (List (Str × Entry F)) :=
  calls.map (fun call => (chunksFormat call.chunks).map (fun ck => (ck.id, ck)))

/-- The documents that each call adds, by name. -/
def docBatches (calls : List (Call F)) : List (List (Str × Doc F)) :=
  calls.map (fun call => call.docInfos.map (fun doc => (doc.name, doc)))

/-- A name that is a key of the record. -/
def Reserved (name : Str) : Prop := name = "chunks" ∨ name = "doc_aggs"

instance (name : Str) : Decidable (Reserved name) :=
  inferInstanceAs (Decidable (_ ∨ _))

section calls

variable {sha1 : Str → ℕ}

theorem addChunk_eq (r : Record F) (ck : Entry F) :
    addChunk sha1 r ck =
      { r with chunks := Dict.set (hashStr2int sha1 ck.id 500) ck r.chunks } := by
  unfold addChunk
  exact if_neg (by simp [Record.keys])

theorem foldl_addChunk (cks : List (Entry F)) (r : Record F) :
    cks.foldl (addChunk sha1) r =
      ⟨Dict.update r.chunks (cks.map (fun ck => (hashStr2int sha1 ck.id 500, ck))), r.docAggs⟩ := by
  induction cks generalizing r with
  | nil => rfl
  | cons ck cks ih =>
      rw [List.foldl_cons, ih, addChunk_eq]
      rfl

theorem mem_keys_iff (name : Str) : Record.Key.str name ∈ Record.keys ↔ Reserved name := by
  unfold Record.keys Reserved
  rw [List.mem_cons, List.mem_singleton, Record.Key.str.injEq, Record.Key.str.injEq]

theorem foldl_addDoc (docs : List (Doc F)) (r : Record F) :
    docs.foldl addDoc r =
      ⟨r.chunks, Dict.update r.docAggs
        ((docs.filter (fun doc => ¬Reserved doc.name)).map (fun doc => (doc.name, doc)))⟩ := by
  induction docs generalizing r with
  | nil => rfl
  | cons doc docs ih =>
      rw [List.foldl_cons, ih]
      unfold addDoc
      by_cases hname : Reserved doc.name
      · rw [if_pos ((mem_keys_iff doc.name).mpr hname),
          List.filter_cons_of_neg (by simpa using hname)]
      · rw [if_neg (fun h => hname ((mem_keys_iff doc.name).mp h)),
          List.filter_cons_of_pos (by simpa using hname)]
        rfl

/-- A call changes the last record only. -/
theorem getReference_addReference (retrieval : List (Record F)) (call : Call F) :
    getReference (addReference sha1 retrieval call) =
      call.docInfos.foldl addDoc
        ((chunksFormat call.chunks).foldl (addChunk sha1) (getReference retrieval)) := by
  unfold addReference
  show ((_ ++ [_] : List (Record F)).getLast?).getD Record.empty = _
  rw [List.getLast?_append, List.getLast?_singleton, Option.some_or, Option.getD_some]

/-- The chunks of a record after some calls. -/
theorem chunks_addReferences (calls : List (Call F)) (retrieval : List (Record F)) :
    (getReference (addReferences sha1 retrieval calls)).chunks =
      Dict.update (getReference retrieval).chunks
        ((chunkBatches calls).flatten.map (fun e => (hashStr2int sha1 e.1 500, e.2))) := by
  unfold addReferences
  induction calls generalizing retrieval with
  | nil => rfl
  | cons call calls ih =>
      rw [List.foldl_cons, ih, getReference_addReference, foldl_addDoc, foldl_addChunk]
      unfold chunkBatches Dict.update
      rw [List.map_cons, List.flatten_cons, List.map_append, List.foldl_append, List.map_map]
      rfl

/-- The documents of a record after some calls. -/
theorem docAggs_addReferences (calls : List (Call F)) (retrieval : List (Record F)) :
    (getReference (addReferences sha1 retrieval calls)).docAggs =
      Dict.update (getReference retrieval).docAggs
        ((docBatches calls).flatten.filter (fun e => ¬Reserved e.1)) := by
  unfold addReferences
  induction calls generalizing retrieval with
  | nil => rfl
  | cons call calls ih =>
      rw [List.foldl_cons, ih, getReference_addReference, foldl_addDoc, foldl_addChunk]
      unfold docBatches Dict.update
      rw [List.map_cons, List.flatten_cons, List.filter_append, List.foldl_append, List.filter_map]
      rfl

/-- The ids of the chunks that are added have different hashes. -/
def Injective (sha1 : Str → ℕ) (calls : List (Call F)) : Prop :=
  ∀ e ∈ (chunkBatches calls).flatten, ∀ e' ∈ (chunkBatches calls).flatten,
    hashStr2int sha1 e.1 500 = hashStr2int sha1 e'.1 500 → e.1 = e'.1

/-- The chunk of an id is the one that was added last. -/
theorem lookup_chunks {retrieval : List (Record F)} {calls : List (Call F)}
    (hfresh : getReference retrieval = Record.empty) (hinj : Injective sha1 calls) :
    ∀ e ∈ (chunkBatches calls).flatten,
      (getReference (addReferences sha1 retrieval calls)).chunks.lookup
        (hashStr2int sha1 e.1 500) = Dict.lastValue (chunkBatches calls) e.1 := by
  intro e he
  rw [chunks_addReferences, hfresh, Dict.lookup_update, ← List.map_reverse]
  show Option.or _ (([] : List (ℕ × Entry F)).lookup _) = _
  rw [List.lookup_nil, Option.or_none]
  refine @Dict.lookup_map Str (Entry F) _ _ ℕ _ _ (hashStr2int sha1 · 500) e.1 _
    (fun x hx hkey => ?_)
  exact hinj x (List.mem_reverse.mp hx) e he hkey

/-- The document of a name is the one that was added last, if the name is not reserved. -/
theorem lookup_docAggs (sha1 : Str → ℕ) {retrieval : List (Record F)} (calls : List (Call F))
    (hfresh : getReference retrieval = Record.empty) (name : Str) :
    (getReference (addReferences sha1 retrieval calls)).docAggs.lookup name =
      if Reserved name then none else Dict.lastValue (docBatches calls) name := by
  rw [docAggs_addReferences, hfresh, Dict.lookup_update, ← List.filter_reverse]
  show Option.or _ (([] : List (Str × Doc F)).lookup _) = _
  rw [List.lookup_nil, Option.or_none,
    Dict.lookup_filter (fun name => decide (¬Reserved name))]
  by_cases h : Reserved name
  · rw [if_pos h, if_neg (by simpa using h)]
  · rw [if_neg h, if_pos (by simpa using h)]
    rfl

end calls

/-! ### What is kept -/

/-- A record keeps, for each chunk and each document, an entry of the first call that added it. -/
def KeepsFirst (sha1 : Str → ℕ) (calls : List (Call F)) (r : Record F) : Prop :=
  Dict.KeepsFirst (chunkBatches calls) (fun id => r.chunks.lookup (hashStr2int sha1 id 500)) ∧
    Dict.KeepsFirst (docBatches calls) (fun name => r.docAggs.lookup name)

/-- The first entries stay exactly when every id and every name is added the last time with an
entry of the first call that added it, and no name is reserved. -/
theorem reference_keepsFirst_iff (sha1 : Str → ℕ) (retrieval : List (Record F))
    (calls : List (Call F)) (hfresh : getReference retrieval = Record.empty)
    (hinj : Injective sha1 calls) :
    KeepsFirst sha1 calls (getReference (addReferences sha1 retrieval calls)) ↔
      Dict.RepeatsFirst (chunkBatches calls) ∧ Dict.RepeatsFirst (docBatches calls) ∧
        ∀ e ∈ (docBatches calls).flatten, ¬Reserved e.1 := by
  have hdocs := lookup_docAggs sha1 calls hfresh
  unfold KeepsFirst
  rw [Dict.keepsFirst_iff (lookup_chunks hfresh hinj)]
  refine and_congr_right (fun _ => ?_)
  constructor
  · intro h
    have hnames : ∀ e ∈ (docBatches calls).flatten, ¬Reserved e.1 := by
      intro e he hreserved
      obtain ⟨v, -, hv⟩ := h e he
      dsimp only at hv
      rw [hdocs, if_pos hreserved] at hv
      cases hv
    refine ⟨(Dict.keepsFirst_iff (fun e he => ?_)).mp h, hnames⟩
    rw [hdocs, if_neg (hnames e he)]
  · rintro ⟨h, hnames⟩
    refine (Dict.keepsFirst_iff (fun e he => ?_)).mpr h
    rw [hdocs, if_neg (hnames e he)]

/-- The digest of two texts, as numbers. -/
def twoDigests (s : Str) : ℕ :=
  if s = "a" then 0x86f7e437faa5a7fce15d1ddcb9eaeaea377667b8
  else if s = "b" then 0xe9d71f5ee7c92d6dc9e92ffdad17b8bd49418f98
  else 0

/-- A chunk with a content. -/
def textChunk (id content : Str) : Chunk Tenths :=
  ⟨[("chunk_id", .str id), ("content", .str content)], id, rfl⟩

def namedDoc (name : Str) : Doc Tenths := ⟨[("doc_name", .str name)], name, rfl⟩

theorem reference_keepsFirst_iff_two :
    KeepsFirst twoDigests
      [⟨[.dict (textChunk "a" "x")], [namedDoc "d"]⟩, ⟨[.dict (textChunk "b" "y")], []⟩]
      (getReference (addReferences twoDigests []
        [⟨[.dict (textChunk "a" "x")], [namedDoc "d"]⟩, ⟨[.dict (textChunk "b" "y")], []⟩])) := by
  refine (reference_keepsFirst_iff twoDigests [] _ rfl ?_).mpr ⟨?_, ?_, ?_⟩
  · intro e he e' he' hhash
    rcases List.mem_pair.mp he with rfl | rfl <;> rcases List.mem_pair.mp he' with rfl | rfl
    · rfl
    · revert hhash
      decide
    · revert hhash
      decide
    · rfl
  · intro e he v hv
    rcases List.mem_pair.mp he with rfl | rfl <;> cases hv <;> exact List.mem_singleton_self _
  · intro e he v hv
    cases List.mem_singleton.mp he
    cases hv
    exact List.mem_singleton_self _
  · intro e he
    cases List.mem_singleton.mp he
    decide

/-- A chunk that is added again with another content takes the place of the first. -/
theorem reference_overwritten :
    Injective twoDigests
        [⟨[.dict (textChunk "a" "x")], []⟩, ⟨[.dict (textChunk "a" "y")], []⟩] ∧
      ¬KeepsFirst twoDigests
        [⟨[.dict (textChunk "a" "x")], []⟩, ⟨[.dict (textChunk "a" "y")], []⟩]
        (getReference (addReferences twoDigests []
          [⟨[.dict (textChunk "a" "x")], []⟩, ⟨[.dict (textChunk "a" "y")], []⟩])) := by
  have hinj : Injective twoDigests
      [⟨[.dict (textChunk "a" "x")], []⟩, ⟨[.dict (textChunk "a" "y")], []⟩] := by
    intro e he e' he' _
    rcases List.mem_pair.mp he with rfl | rfl <;> rcases List.mem_pair.mp he' with rfl | rfl <;> rfl
  refine ⟨hinj, fun h => ?_⟩
  have hrepeats := (Dict.keepsFirst_iff (lookup_chunks rfl hinj)).mp h.1
  have hfirst := List.mem_singleton.mp
    (hrepeats ("a", formatChunk (textChunk "a" "x")) List.mem_cons_self _ rfl)
  have hcontent : (Json.str "y" : Json Tenths) = .str "x" :=
    congrArg (fun ck : Entry Tenths => get ck.fields "content") hfirst
  exact absurd (Json.str.inj hcontent) (by decide)

end RagFlow.Agent.Reference
