import Mathlib.Data.List.DropRight
import RagFlow.CanvasVars

/-! # The metadata of documents

`api/db/services/doc_metadata_service.py`: the metadata of a document is a row of an index in the
document store, one index for each tenant.  What is written goes through
`_split_combined_values`, some of it twice.

* **Values.** `splitCombinedValues` splits the strings in lists at delimiters and drops repeated
  items; doing it twice is doing it once (`splitCombinedValues_idem`).
* **Engines.** The five engines of `common/settings.py` differ in the parameters of their `get`
  and `search`, in the form of the search results and in the conditions of a deletion.
* **Writing.** `updateDocumentMetadata` has a partial update for Elasticsearch, which merges
  objects.  It is never reached: the row is looked up first, with keyword arguments that no
  engine's `get` has, and the `TypeError` is taken for a missing row.  So every path ends in
  `insertDocumentMetadata`, which replaces the row (`row_updateDocumentMetadata`).

Calls to the store succeed here; what is modelled of failure is what the calling code itself
causes (arguments that do not match, methods that do not exist). -/

namespace RagFlow.DocMeta

open Py
open Agent (Value setEntry)

/-! ### Loops over items with distinct keys -/

section loop
variable {σ α β κ : Type} {step : σ → α → σ} (view : σ → β) {l : List α}

/-- What no round changes is not changed by the loop. -/
theorem foldl_view (h : ∀ a ∈ l, ∀ p, view (step p a) = view p) (p : σ) :
    view (l.foldl step p) = view p := by
  induction l generalizing p with
  | nil => rfl
  | cons a l ih =>
      rw [List.foldl_cons, ih (fun b hb => h b (List.mem_cons_of_mem _ hb)),
        h a List.mem_cons_self]

/-- What only the rounds of one key change is changed in one round. -/
theorem foldl_view_of_mem (key : α → κ) {a : α} {v v' : β}
    (hne : ∀ b p, key b ≠ key a → view (step p b) = view p)
    (hself : ∀ p, view p = v → view (step p a) = v') (hnodup : (l.map key).Nodup) (ha : a ∈ l)
    {p : σ} (hp : view p = v) : view (l.foldl step p) = v' := by
  obtain ⟨l₁, l₂, rfl⟩ := List.append_of_mem ha
  rw [List.map_append, List.map_cons, List.nodup_append, List.nodup_cons] at hnodup
  obtain ⟨-, ⟨hafter, -⟩, hbefore⟩ := hnodup
  rw [List.foldl_append, List.foldl_cons]
  rw [foldl_view view (fun b hb p => hne b p fun h => hafter (h ▸ List.mem_map_of_mem hb))]
  apply hself
  rw [foldl_view view (fun b hb p => hne b p fun h =>
    hbefore _ (List.mem_map_of_mem hb) _ List.mem_cons_self h)]
  exact hp

end loop

/-! ### Lists without repeated items -/

section dedupe
variable {α τ : Type} [DecidableEq τ] (text : α → τ)

/-- The loop of `dedupe_list`; `seen` are the texts of the items before. -/
def dedupeFrom (seen : List τ) : List α → List α
  | [] => []
  | x :: xs =>
      if text x ∈ seen then dedupeFrom seen xs else x :: dedupeFrom (text x :: seen) xs

/-- `dedupe_list`: the first item of each text. -/
def dedupeList (xs : List α) : List α := dedupeFrom text [] xs

theorem mem_of_mem_dedupeFrom {x : α} : ∀ {xs : List α} {seen : List τ},
    x ∈ dedupeFrom text seen xs → x ∈ xs ∧ text x ∉ seen
  | y :: xs, seen, h => by
      unfold dedupeFrom at h
      split_ifs at h with hy
      · obtain ⟨hx, hseen⟩ := mem_of_mem_dedupeFrom h
        exact ⟨List.mem_cons_of_mem _ hx, hseen⟩
      · rcases List.mem_cons.mp h with rfl | h
        · exact ⟨List.mem_cons_self, hy⟩
        · obtain ⟨hx, hseen⟩ := mem_of_mem_dedupeFrom h
          exact ⟨List.mem_cons_of_mem _ hx, fun hmem => hseen (List.mem_cons_of_mem _ hmem)⟩

/-- A deduplicated list is not changed by a deduplication that has seen no more texts. -/
theorem dedupeFrom_dedupeFrom : ∀ (xs : List α) {seen seen' : List τ},
    (∀ t ∈ seen', t ∈ seen) → dedupeFrom text seen' (dedupeFrom text seen xs) =
      dedupeFrom text seen xs
  | [], seen, seen', _ => rfl
  | x :: xs, seen, seen', hsub => by
      by_cases hx : text x ∈ seen
      · rw [dedupeFrom, if_pos hx]
        exact dedupeFrom_dedupeFrom xs hsub
      · rw [dedupeFrom, if_neg hx, dedupeFrom, if_neg (fun hmem => hx (hsub _ hmem))]
        congr 1
        apply dedupeFrom_dedupeFrom xs
        intro t ht
        rcases List.mem_cons.mp ht with rfl | ht
        · exact List.mem_cons_self
        · exact List.mem_cons_of_mem _ (hsub t ht)

theorem dedupeList_idem (xs : List α) : dedupeList text (dedupeList text xs) = dedupeList text xs :=
  dedupeFrom_dedupeFrom text xs (fun _ h => h)

end dedupe

/-! ### Splitting combined values -/

theorem mem_of_mem_strip {c : Char} {s : Str} (h : c ∈ strip s) : c ∈ s :=
  (List.dropWhile_suffix isSpace).mem ((List.rdropWhile_prefix isSpace (lstrip s)).mem h)

/-- No part of a split holds a character at which the text is split. -/
theorem not_of_mem_splitOnP {α : Type} {p : α → Bool} {x : α} : ∀ {xs part : List α},
    part ∈ xs.splitOnP p → x ∈ part → p x = false
  | [], part, h, hx => by
      rw [List.splitOnP_nil, List.mem_singleton] at h
      rw [h] at hx
      cases hx
  | y :: xs, part, h, hx => by
      rw [List.splitOnP_cons_eq_if_modifyHead] at h
      split_ifs at h with hy
      · rcases List.mem_cons.mp h with rfl | h
        · cases hx
        · exact not_of_mem_splitOnP h hx
      · obtain ⟨head, rest, hsplit⟩ := List.exists_cons_of_ne_nil (List.splitOnP_ne_nil p xs)
        rw [hsplit, List.modifyHead_cons] at h
        rcases List.mem_cons.mp h with rfl | h
        · rcases List.mem_cons.mp hx with rfl | hx
          · exact Bool.eq_false_of_not_eq_true hy
          · exact not_of_mem_splitOnP (hsplit ▸ List.mem_cons_self) hx
        · exact not_of_mem_splitOnP (hsplit ▸ List.mem_cons_of_mem _ h) hx

/-- The characters of `[、,，;；|]`. -/
def isDelimiter (c : Char) : Bool := c ∈ ['、', ',', '，', ';', '；', '|']

/-- The stripped parts of a text between delimiters, without the empty ones (so that it does not
matter that the source splits at runs of delimiters). -/
def splitItems (s : Str) : List Str :=
  (((strip s).splitOnP isDelimiter).map strip).filter (fun part => !part.isEmpty)

theorem splitItems_of_mem {s part : Str} (h : part ∈ splitItems s) : splitItems part = [part] := by
  obtain ⟨hmem, hne⟩ := List.mem_filter.mp h
  obtain ⟨raw, hraw, rfl⟩ := List.mem_map.mp hmem
  have hplain : ∀ c ∈ strip raw, isDelimiter c = false :=
    fun c hc => not_of_mem_splitOnP hraw (mem_of_mem_strip hc)
  unfold splitItems
  rw [strip_strip, List.splitOnP_eq_singleton hplain, List.map_singleton, strip_strip]
  simpa using hne

/-- One round of the loop over the items of a list. -/
def splitItem : Value → List Value
  | .str s => if splitItems s = [] then [.str s] else (splitItems s).map .str
  | v => [v]

theorem splitItem_of_mem {v w : Value} (h : w ∈ splitItem v) : splitItem w = [w] := by
  cases v with
  | str s =>
      simp only [splitItem] at h
      split_ifs at h with hs
      · rw [List.mem_singleton] at h
        rw [h, splitItem, if_pos hs]
      · obtain ⟨part, hpart, rfl⟩ := List.mem_map.mp h
        rw [splitItem, splitItems_of_mem hpart]
        simp
  | none | bool _ | int _ | float _ | list _ | dict _ =>
      simp only [splitItem, List.mem_singleton] at h
      rw [h]
      rfl

/-- A metadata dictionary. -/
abbrev Meta := Table (Str × Value) Prod.fst

section split
variable (text : Value → Str)

/-- What becomes of the value of a key. -/
def splitValue : Value → Value
  | .list xs => .list (dedupeList text (xs.flatMap splitItem))
  | v => v

/-- `_split_combined_values`. -/
def splitCombinedValues (metaFields : Meta) : Meta :=
  metaFields.updateWhere (fun _ => true) (fun e => (e.1, splitValue text e.2)) (fun _ => rfl)

theorem flatMap_eq_self {α : Type} {f : α → List α} {xs : List α} (h : ∀ x ∈ xs, f x = [x]) :
    xs.flatMap f = xs := by
  induction xs with
  | nil => rfl
  | cons x xs ih =>
      rw [List.flatMap_cons, h x List.mem_cons_self,
        ih (fun y hy => h y (List.mem_cons_of_mem _ hy))]
      rfl

theorem splitValue_idem (v : Value) : splitValue text (splitValue text v) = splitValue text v := by
  cases v with
  | list xs =>
      have hsplit : (dedupeList text (xs.flatMap splitItem)).flatMap splitItem =
          dedupeList text (xs.flatMap splitItem) := by
        apply flatMap_eq_self
        intro w hw
        obtain ⟨v, -, hv⟩ := List.mem_flatMap.mp (mem_of_mem_dedupeFrom text hw).1
        exact splitItem_of_mem hv
      show Value.list (dedupeList text (List.flatMap splitItem _)) = _
      rw [hsplit, dedupeList_idem]
      rfl
  | none | bool _ | int _ | float _ | str _ | dict _ => rfl

theorem splitCombinedValues_idem (m : Meta) :
    splitCombinedValues text (splitCombinedValues text m) = splitCombinedValues text m := by
  apply Table.ext
  show ((m.rows.map _).map _) = m.rows.map _
  rw [List.map_map]
  apply List.map_congr_left
  intro e _
  simp [splitValue_idem]

theorem get?_splitCombinedValues (m : Meta) (key : Str) :
    (splitCombinedValues text m).get? key =
      (m.get? key).map (fun e => (e.1, splitValue text e.2)) :=
  Table.get?_updateAll key

/-- The keys of metadata. -/
def keys (m : Meta) : List Str := m.rows.map Prod.fst

theorem keys_splitCombinedValues (m : Meta) : keys (splitCombinedValues text m) = keys m := by
  unfold keys splitCombinedValues Table.updateWhere
  rw [List.map_map]
  rfl

theorem splitCombinedValues_rows_eq_nil {m : Meta} :
    (splitCombinedValues text m).rows = [] ↔ m.rows = [] := by
  unfold splitCombinedValues Table.updateWhere
  simp

end split

/-! ### Engines -/

/-- The document engines, the values of `DOC_ENGINE`. -/
inductive Engine where
  | elasticsearch
  | infinity
  | opensearch
  | oceanbase
  | seekdb
  deriving DecidableEq

/-- The exceptions that calls to the document store raise here. -/
inductive Exn where
  | typeError
  | attributeError
  | doesNotExist
  deriving DecidableEq

/-- Do keyword arguments match the parameters of a function?  `params` are those without a
default. -/
def bindsKeywords (params keywords : List String) : Bool :=
  keywords.all (· ∈ params) && params.all (· ∈ keywords)

namespace Engine

/-- The parameters of `docStoreConn.get`. -/
def getParams : Engine → List String
  | elasticsearch => ["doc_id", "index_name", "dataset_ids"]
  | opensearch => ["chunkId", "indexName", "knowledgebaseIds"]
  | infinity | oceanbase | seekdb => ["chunk_id", "index_name", "knowledgebase_ids"]

/-- The parameters of `docStoreConn.search`. -/
def searchParams : Engine → List String
  | opensearch => ["selectFields", "highlightFields", "condition", "matchExprs", "orderBy",
      "offset", "limit", "indexNames", "knowledgebaseIds"]
  | elasticsearch | infinity | oceanbase | seekdb => ["select_fields", "highlight_fields",
      "condition", "match_expressions", "order_by", "offset", "limit", "index_names",
      "knowledgebase_ids"]

/-- `OSConnection` alone has no `create_doc_meta_idx`. -/
def hasCreateDocMetaIdx (e : Engine) : Bool := e ≠ opensearch

/-- `docStoreConn.es` is a client of Elasticsearch. -/
def hasEsClient (e : Engine) : Bool := e = elasticsearch

/-- `not settings.DOC_ENGINE_INFINITY and not settings.DOC_ENGINE_OCEANBASE`. -/
def usesPartialUpdate (e : Engine) : Bool := e ≠ infinity && e ≠ oceanbase

end Engine

/-! ### The store -/

/-- What is read of the database: the dataset of a document and the tenant of a dataset.  No
document has the empty id. -/
structure Db where
  kbId : Str → Option Str
  tenantId : Str → Option Str
  kbId_nil : kbId [] = none

/-- A row of `Document` joined with `Knowledgebase`. -/
structure Document (db : Db) (docId : Str) where
  kbId : Str
  tenantId : Str
  kb_eq : db.kbId docId = some kbId
  tenant_eq : db.tenantId kbId = some tenantId

/-- The join of `Document` and `Knowledgebase` at a document. -/
def Db.document (db : Db) (docId : Str) : Option (Document db docId) :=
  match hkb : db.kbId docId with
  | none => none
  | some kbId =>
      match htenant : db.tenantId kbId with
      | none => none
      | some tenantId => some ⟨kbId, tenantId, hkb, htenant⟩

variable {db : Db} {docId : Str}

instance : Subsingleton (Document db docId) where
  allEq := by
    rintro ⟨kb, tenant, hkb, htenant⟩ ⟨kb', tenant', hkb', htenant'⟩
    obtain rfl := Option.some.inj (hkb.symm.trans hkb')
    obtain rfl := Option.some.inj (htenant.symm.trans htenant')
    rfl

theorem Document.id_ne_nil (doc : Document db docId) : docId ≠ [] := by
  rintro rfl
  cases db.kbId_nil.symm.trans doc.kb_eq

theorem Db.document_eq (doc : Document db docId) : db.document docId = some doc := by
  unfold document
  split
  · rename_i hkb
    cases hkb.symm.trans doc.kb_eq
  · rename_i kb hkb
    obtain rfl := Option.some.inj (hkb.symm.trans doc.kb_eq)
    split
    · rename_i htenant
      cases htenant.symm.trans doc.tenant_eq
    · exact congrArg some (Subsingleton.elim _ _)

/-- A row of a metadata index.  It is stored under the dataset of its document. -/
structure Row (db : Db) where
  id : Str
  kbId : Str
  metaFields : Meta
  owned : ∀ kb, db.kbId id = some kb → kb = kbId

/-- The row of a document with the given metadata. -/
def Document.metaRow (doc : Document db docId) (metaFields : Meta) : Row db where
  id := docId
  kbId := doc.kbId
  metaFields := metaFields
  owned := fun _ hkb => Option.some.inj (hkb.symm.trans doc.kb_eq)

@[simp] theorem Document.metaRow_id (doc : Document db docId) (m : Meta) :
    (doc.metaRow m).id = docId := rfl

/-- A metadata index. -/
abbrev Index (db : Db) := Table (Row db) Row.id

/-- The document store: the index `ragflow_doc_meta_{tenant_id}` of each tenant that has one. -/
abbrev Store (db : Db) := Str → Option (Index db)

/-- The row of a document in the index of a tenant. -/
def Store.find (s : Store db) (tenantId docId : Str) : Option (Row db) :=
  (s tenantId).bind (·.get? docId)

/-- The row of a document in the index of its own tenant. -/
def Store.row (s : Store db) (doc : Document db docId) : Option (Row db) :=
  s.find doc.tenantId docId

/-- `docStoreConn.create_doc_meta_idx`. -/
def createDocMetaIdx (e : Engine) (tenantId : Str) (s : Store db) : Except Exn (Store db) :=
  if e.hasCreateDocMetaIdx then .ok (Function.update s tenantId (some Table.empty))
  else .error .attributeError

/-- `if not index_exist: create_doc_meta_idx`. -/
def ensureIndex (e : Engine) (tenantId : Str) (s : Store db) : Except Exn (Store db) :=
  match s tenantId with
  | some _ => .ok s
  | none => createDocMetaIdx e tenantId s

/-- The rows a call of `docStoreConn.delete` with the condition `{"id": doc_id}` removes;
Elasticsearch and OpenSearch add the dataset to the condition. -/
def Engine.deletes (e : Engine) (docId kbId : Str) (r : Row db) : Bool :=
  match e with
  | elasticsearch | opensearch => r.id = docId && r.kbId = kbId
  | infinity | oceanbase | seekdb => r.id = docId

mutual
/-- The value Elasticsearch stores when an update has `new` where the source has `old`. -/
def mergeValue : Value → Value → Value
  | .dict old, .dict new => .dict (mergeEntries old new)
  | _, new => new
/-- Objects are merged key by key. -/
def mergeEntries : List (Str × Value) → List (Str × Value) → List (Str × Value)
  | old, [] => old
  | old, (key, v) :: new =>
      mergeEntries (setEntry key (match old.lookup key with
        | some o => mergeValue o v
        | none => v) old) new
end

/-- The `meta_fields` after `es.update(doc={"meta_fields": new})`. -/
def mergeMeta (old new : Meta) : Meta :=
  new.rows.foldl (fun m e => m.put (e.1, match m.get? e.1 with
    | some o => mergeValue o.2 e.2
    | none => e.2)) old

/-! ### The operations on the metadata of a document -/

section operations
variable (text : Value → Str) (e : Engine)

/-- `get_document_metadata`. -/
def getDocumentMetadata (docId : Str) (s : Store db) : Meta :=
  match db.document docId with
  | none => Table.empty
  | some doc => ((s.row doc).map Row.metaFields).getD Table.empty

/-- `insert_document_metadata`.  All engines write a row in place of one with its id. -/
def insertDocumentMetadata (docId : Str) (metaFields : Meta) (s : Store db) : Store db × Bool :=
  match db.document docId with
  | none => (s, false)
  | some doc =>
      let row := doc.metaRow
        (if metaFields.rows = [] then Table.empty else splitCombinedValues text metaFields)
      match ensureIndex e doc.tenantId s with
      | .error _ => (s, false)
      | .ok s =>
          (Function.update s doc.tenantId ((s doc.tenantId).map (·.upsert row)), true)

/-- `delete_document_metadata` with `skip_empty_check=True`. -/
def deleteDocumentMetadata (docId kbId : Str) (tenantId : Option Str) (s : Store db) :
    Store db × Bool :=
  match tenantId.or (db.tenantId kbId) with
  | none => (s, false)
  | some tenantId =>
      match s tenantId with
      | none => (s, true)
      | some index =>
          match index.get? docId with
          | none => (s, true)
          | some _ =>
              (Function.update s tenantId (some (index.deleteWhere (e.deletes docId kbId))), true)

/-- `docStoreConn.get` called with keyword arguments. -/
def getByKeywords (keywords : List String) (tenantId docId : Str) (s : Store db) :
    Except Exn (Option (Row db)) :=
  if bindsKeywords e.getParams keywords then .ok (s.find tenantId docId) else .error .typeError

/-- `docStoreConn.es.update(id=doc_id, doc={"meta_fields": meta_fields})`. -/
def partialUpdate (tenantId docId : Str) (metaFields : Meta) (s : Store db) :
    Except Exn (Store db) :=
  if e.hasEsClient then
    .ok (Function.update s tenantId ((s tenantId).map (·.updateWhere (fun r => r.id = docId)
      (fun r => { r with metaFields := mergeMeta r.metaFields metaFields }) (fun _ => rfl))))
  else .error .attributeError

/-- `update_document_metadata`. -/
def updateDocumentMetadata (docId : Str) (metaFields : Meta) (s : Store db) : Store db × Bool :=
  match db.document docId with
  | none => (s, false)
  | some doc =>
      let processed := splitCombinedValues text metaFields
      if e.usesPartialUpdate then
        match s doc.tenantId with
        | none =>
            match createDocMetaIdx e doc.tenantId s with
            | .error _ => (s, false)
            | .ok s => insertDocumentMetadata text e docId processed s
        | some _ =>
            match getByKeywords e ["index_name", "id", "kb_id"] doc.tenantId docId s with
            | .ok (some _) =>
                match partialUpdate e doc.tenantId docId processed s with
                | .ok s => (s, true)
                | .error _ => insertDocumentMetadata text e docId processed s
            | .ok none => insertDocumentMetadata text e docId processed s
            | .error _ => insertDocumentMetadata text e docId processed s
      else
        insertDocumentMetadata text e docId processed
          (deleteDocumentMetadata e docId doc.kbId (some doc.tenantId) s).1

end operations

/-! ### What the operations do to the rows -/

section rows
variable {e : Engine} {s : Store db} {tenantId : Str}

theorem find_update (index : Option (Index db)) (tenantId' docId : Str) :
    Store.find (Function.update s tenantId index) tenantId' docId =
      if tenantId' = tenantId then index.bind (·.get? docId) else s.find tenantId' docId := by
  unfold Store.find
  split_ifs with h
  · rw [h, Function.update_self]
  · rw [Function.update_of_ne h]

/-- Can rows be written to the index of the tenant? -/
def Writable (e : Engine) (tenantId : Str) (s : Store db) : Prop :=
  e.hasCreateDocMetaIdx = true ∨ (s tenantId).isSome

theorem index_eq_none_of_not_writable (h : ¬Writable e tenantId s) : s tenantId = none := by
  cases hindex : s tenantId with
  | none => rfl
  | some index => exact absurd (.inr (hindex ▸ rfl)) h

theorem createDocMetaIdx_eq_ok {s' : Store db} (h : createDocMetaIdx e tenantId s = .ok s')
    (hnone : s tenantId = none) : s'.find = s.find ∧ (s' tenantId).isSome := by
  unfold createDocMetaIdx at h
  split_ifs at h
  obtain rfl := Except.ok.inj h
  constructor
  · funext tenantId' docId
    rw [find_update]
    split_ifs with htenant
    · rw [htenant, Store.find, hnone]
      rfl
    · rfl
  · rw [Function.update_self]
    rfl

theorem ensureIndex_eq_ok {s' : Store db} (h : ensureIndex e tenantId s = .ok s') :
    s'.find = s.find ∧ (s' tenantId).isSome := by
  unfold ensureIndex at h
  split at h
  · rename_i index hindex
    obtain rfl := Except.ok.inj h
    exact ⟨rfl, hindex ▸ rfl⟩
  · rename_i hnone
    exact createDocMetaIdx_eq_ok h hnone

theorem exists_ensureIndex (h : Writable e tenantId s) :
    ∃ s', ensureIndex e tenantId s = .ok s' := by
  unfold ensureIndex
  cases hindex : s tenantId with
  | some index => exact ⟨s, rfl⟩
  | none =>
      rcases h with h | h
      · exact ⟨_, if_pos h⟩
      · rw [hindex] at h
        cases h

theorem split_or_empty (text : Value → Str) (m : Meta) :
    (if m.rows = [] then Table.empty else splitCombinedValues text m) =
      splitCombinedValues text m := by
  split_ifs with h
  · apply Table.ext
    rw [splitCombinedValues_rows_eq_nil text |>.mpr h]
    rfl
  · rfl

/-- An insertion writes the row of its document. -/
theorem row_insertDocumentMetadata (text : Value → Str) (doc : Document db docId)
    (h : Writable e doc.tenantId s) (m : Meta) :
    (insertDocumentMetadata text e docId m s).1.row doc =
      some (doc.metaRow (splitCombinedValues text m)) := by
  obtain ⟨s', hs'⟩ := exists_ensureIndex h
  obtain ⟨-, hindex⟩ := ensureIndex_eq_ok hs'
  obtain ⟨index, hindex⟩ := Option.isSome_iff_exists.mp hindex
  simp only [insertDocumentMetadata, Db.document_eq doc, hs', split_or_empty]
  rw [Store.row, find_update, if_pos rfl, hindex, Option.map_some, Option.bind_some,
    Table.get?_upsert, Document.metaRow_id, if_pos rfl]

theorem find_insertDocumentMetadata_of_ne (text : Value → Str) {docId' : Str}
    (hne : docId' ≠ docId) (m : Meta) (tenantId : Str) :
    (insertDocumentMetadata text e docId m s).1.find tenantId docId' =
      s.find tenantId docId' := by
  unfold insertDocumentMetadata
  split
  · rfl
  · rename_i doc _
    simp only
    split
    · rfl
    · rename_i s' hs'
      obtain ⟨hfind, hindex⟩ := ensureIndex_eq_ok hs'
      obtain ⟨index, hindex⟩ := Option.isSome_iff_exists.mp hindex
      rw [find_update, split_or_empty, ← hfind]
      split_ifs with htenant
      · rw [hindex, Option.map_some, Option.bind_some, Table.get?_upsert, Document.metaRow_id,
          if_neg hne, htenant, Store.find, hindex]
        rfl
      · rfl

/-- A deletion removes the row of its document. -/
theorem row_deleteDocumentMetadata (doc : Document db docId) {given : Option Str}
    (hgiven : given = none ∨ given = some doc.tenantId) :
    (deleteDocumentMetadata e docId doc.kbId given s).1.row doc = none := by
  have htenant : given.or (db.tenantId doc.kbId) = some doc.tenantId := by
    rcases hgiven with rfl | rfl
    · exact doc.tenant_eq
    · rfl
  simp only [deleteDocumentMetadata, htenant]
  cases hindex : s doc.tenantId with
  | none =>
      show s.find doc.tenantId docId = none
      rw [Store.find, hindex]
      rfl
  | some index =>
      simp only
      cases hget : index.get? docId with
      | none =>
          show s.find doc.tenantId docId = none
          rw [Store.find, hindex]
          exact hget
      | some r =>
          obtain ⟨-, hid⟩ := Table.get?_eq_some.mp hget
          have hkb : doc.kbId = r.kbId := r.owned doc.kbId (hid ▸ doc.kb_eq)
          simp only
          rw [Store.row, find_update, if_pos rfl, Option.bind_some,
            Table.get?_deleteWhere_eq_filter, hget]
          cases e <;> simp [Engine.deletes, hid, hkb]

theorem find_deleteDocumentMetadata_of_ne {docId' : Str} (hne : docId' ≠ docId) (kbId : Str)
    (given : Option Str) (tenantId : Str) :
    (deleteDocumentMetadata e docId kbId given s).1.find tenantId docId' =
      s.find tenantId docId' := by
  unfold deleteDocumentMetadata
  split
  · rfl
  · split
    · rfl
    · rename_i index hindex
      split
      · rfl
      · rw [find_update]
        split_ifs with htenant
        · rw [htenant, Store.find, hindex, Option.bind_some, Option.bind_some,
            Table.get?_deleteWhere_eq_filter]
          cases hget : index.get? docId' with
          | none => rfl
          | some r =>
              have hid : r.id ≠ docId := fun h =>
                hne ((Table.get?_eq_some.mp hget).2.symm.trans h)
              cases e <;> simp [Engine.deletes, hid]
        · rfl

theorem Writable.deleteDocumentMetadata (h : Writable e tenantId s) (kbId : Str)
    (given : Option Str) :
    Writable e tenantId (deleteDocumentMetadata e docId kbId given s).1 := by
  rcases h with h | h
  · exact .inl h
  · right
    unfold DocMeta.deleteDocumentMetadata
    split
    · exact h
    · rename_i tenantId' _
      split
      · exact h
      · split
        · exact h
        · show (Function.update s tenantId' _ tenantId).isSome
          by_cases htenant : tenantId = tenantId'
          · rw [htenant, Function.update_self]
            rfl
          · rw [Function.update_of_ne htenant]
            exact h

/-- No engine's `get` has the keyword arguments of `update_document_metadata`. -/
theorem getByKeywords_eq (docId : Str) : getByKeywords e ["index_name", "id", "kb_id"] tenantId
    docId s = .error .typeError := by
  have hbinds : bindsKeywords e.getParams ["index_name", "id", "kb_id"] = false := by
    cases e <;> simp [bindsKeywords, Engine.getParams]
  rw [getByKeywords, hbinds]
  rfl

/-- Whatever path an update takes, it ends with an insertion, into a store that has the rows of
the other documents. -/
theorem updateDocumentMetadata_eq_insert (text : Value → Str) (doc : Document db docId)
    (h : Writable e doc.tenantId s) (m : Meta) :
    ∃ s' : Store db, Writable e doc.tenantId s' ∧
      (∀ tenantId docId', docId' ≠ docId → s'.find tenantId docId' = s.find tenantId docId') ∧
      updateDocumentMetadata text e docId m s =
        insertDocumentMetadata text e docId (splitCombinedValues text m) s' := by
  simp only [updateDocumentMetadata, Db.document_eq doc, getByKeywords_eq]
  by_cases hpartial : e.usesPartialUpdate = true
  · rw [if_pos hpartial]
    cases hindex : s doc.tenantId with
    | some index => exact ⟨s, h, fun _ _ _ => rfl, rfl⟩
    | none =>
        obtain ⟨s', hs'⟩ := exists_ensureIndex h
        simp only [ensureIndex, hindex] at hs'
        obtain ⟨hfind, hsome⟩ := createDocMetaIdx_eq_ok hs' hindex
        simp only [hs']
        exact ⟨s', .inr hsome, fun _ _ _ => by rw [hfind], rfl⟩
  · rw [if_neg hpartial]
    exact ⟨_, h.deleteDocumentMetadata doc.kbId (some doc.tenantId), fun tenantId docId' hne =>
      find_deleteDocumentMetadata_of_ne hne doc.kbId _ tenantId, rfl⟩

/-- Where no row can be written an update changes nothing. -/
theorem updateDocumentMetadata_of_not_writable (text : Value → Str) (doc : Document db docId)
    (h : ¬Writable e doc.tenantId s) (m : Meta) :
    updateDocumentMetadata text e docId m s = (s, false) := by
  have hcreate : ¬e.hasCreateDocMetaIdx = true := fun hcreate => h (.inl hcreate)
  have hindex := index_eq_none_of_not_writable h
  have hpartial : e.usesPartialUpdate = true := by
    cases e with
    | opensearch => rfl
    | elasticsearch | infinity | oceanbase | seekdb => exact absurd rfl hcreate
  simp only [updateDocumentMetadata, Db.document_eq doc, if_pos hpartial, hindex, createDocMetaIdx,
    if_neg hcreate]

/-- An update replaces the row of its document. -/
theorem row_updateDocumentMetadata (text : Value → Str) (doc : Document db docId)
    (h : Writable e doc.tenantId s) (m : Meta) :
    (updateDocumentMetadata text e docId m s).1.row doc =
      some (doc.metaRow (splitCombinedValues text m)) := by
  obtain ⟨s', hwritable, -, heq⟩ := updateDocumentMetadata_eq_insert text doc h m
  -- the values were split before, and are split once more by the insertion
  rw [heq, row_insertDocumentMetadata text doc hwritable, splitCombinedValues_idem]

theorem find_updateDocumentMetadata_of_ne (text : Value → Str) {docId' : Str}
    (hne : docId' ≠ docId) (m : Meta) (tenantId : Str) :
    (updateDocumentMetadata text e docId m s).1.find tenantId docId' =
      s.find tenantId docId' := by
  cases hdoc : db.document docId with
  | none => simp only [updateDocumentMetadata, hdoc]
  | some doc =>
      by_cases hwritable : Writable e doc.tenantId s
      · obtain ⟨s', -, hothers, heq⟩ := updateDocumentMetadata_eq_insert text doc hwritable m
        rw [heq, find_insertDocumentMetadata_of_ne text hne, hothers tenantId docId' hne]
      · rw [updateDocumentMetadata_of_not_writable text doc hwritable]

theorem getDocumentMetadata_eq (doc : Document db docId) :
    getDocumentMetadata docId s = ((s.row doc).map Row.metaFields).getD Table.empty := by
  simp only [getDocumentMetadata, Db.document_eq doc]

/-- An update leaves exactly the split values, on every engine and whatever was stored before. -/
theorem getDocumentMetadata_updateDocumentMetadata (text : Value → Str) (doc : Document db docId)
    (h : Writable e doc.tenantId s) (m : Meta) :
    getDocumentMetadata docId (updateDocumentMetadata text e docId m s).1 =
      splitCombinedValues text m := by
  rw [getDocumentMetadata_eq doc, row_updateDocumentMetadata text doc h]
  rfl

end rows

/-! A dataset with two documents, of which the first has a row. -/

def sampleDb : Db where
  kbId docId := if docId = ['1'] ∨ docId = ['2'] then some ['k'] else none
  tenantId kbId := if kbId = ['k'] then some ['t'] else none
  kbId_nil := rfl

def sampleFirst : Document sampleDb ['1'] := ⟨['k'], ['t'], rfl, rfl⟩

def sampleSecond : Document sampleDb ['2'] := ⟨['k'], ['t'], rfl, rfl⟩

def sampleStore (m : Meta) : Store sampleDb := fun tenantId =>
  if tenantId = ['t'] then some ⟨[sampleFirst.metaRow m], List.nodup_singleton _⟩ else none

/-- `str` on strings. -/
def sampleText : Value → Str
  | .str s => s
  | _ => []

end RagFlow.DocMeta
