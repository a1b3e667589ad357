import RagFlow.DocMetadata

/-! # Editing the metadata of many documents

`batch_update_metadata` of `api/db/services/doc_metadata_service.py`: a list of updates and a list
of deletes are applied to the metadata of the documents of a dataset.  The rows of the dataset
are searched for; the documents among them get the updates and then the deletes, the documents
without a row are gone through in a second loop.

* **Edits.** `applyUpdates` and `applyDeletes`, with what they do to the keys
  (`mem_keys_applyUpdates`, `applyDeletes_unchanged`).
* **Searching.** `searchPages` collects the pages of a search, all rows of the dataset for
  Elasticsearch and Infinity (`searchPages_eq`).  OpenSearch names its parameters otherwise and
  raises.  A `SearchResult` of OceanBase is iterated by its fields, which are no documents, so
  that the loop over the results raises (`searchMetadata_not_searchable`).
* **The batch.** `row_batchUpdateMetadata` and `row_batchUpdateMetadata_missing` say what the
  batch leaves of the row of one document.

`batch_removes_keys_iff` says when the keys that a batch is to remove are gone, and
`batch_missing_iff` when a document without a row is treated like one whose row is empty. -/

namespace RagFlow.DocMeta

open Py
open Agent (Value)

/-! ### Equality -/

/-- The number a value denotes, if it is one. -/
def num? : Value → Option ℚ
  | .bool b => some (if b then 1 else 0)
  | .int n => some n
  | .float q => some q
  | _ => none

mutual
/-- `a == b`. -/
def valueEq : Value → Value → Bool
  | .none, .none => true
  | .str s, .str t => s == t
  | .list xs, .list ys => valuesEq xs ys
  | .dict xs, .dict ys => xs.length == ys.length && entriesEq xs ys
  | a, b =>
      match num? a, num? b with
      | some p, some q => p == q
      | _, _ => false
/-- Element-wise equality of two lists. -/
def valuesEq : List Value → List Value → Bool
  | [], [] => true
  | a :: as, b :: bs => valueEq a b && valuesEq as bs
  | _, _ => false
/-- Every entry of the first dictionary is an entry of the second. -/
def entriesEq : List (Str × Value) → List (Str × Value) → Bool
  | [], _ => true
  | (key, a) :: as, bs =>
      (match bs.lookup key with
        | some b => valueEq a b
        | none => false) && entriesEq as bs
end

/-- `a == b` for metadata. -/
def metaEq (a b : Meta) : Bool := a.rows.length == b.rows.length && entriesEq a.rows b.rows

theorem mem_keys_of_entriesEq {key : Str} : ∀ {as bs : List (Str × Value)},
    entriesEq as bs = true → key ∈ as.map Prod.fst → key ∈ bs.map Prod.fst
  | (key', a) :: as, bs, h, hmem => by
      rw [entriesEq, Bool.and_eq_true] at h
      rcases List.mem_cons.mp hmem with rfl | hmem
      · cases hlookup : bs.lookup key with
        | none =>
            rw [hlookup] at h
            cases h.1
        | some b =>
            obtain ⟨l₁, l₂, rfl, -⟩ := List.lookup_eq_some_iff.mp hlookup
            simp
      · exact mem_keys_of_entriesEq h.2 hmem

/-- Equal dictionaries have the same keys. -/
theorem mem_keys_of_metaEq {a b : Meta} (h : metaEq a b = true) {key : Str} :
    key ∈ keys a ↔ key ∈ keys b := by
  rw [metaEq, Bool.and_eq_true] at h
  have hlen : a.rows.length = b.rows.length := by simpa using h.1
  have hsub : keys a ⊆ keys b := fun _ hmem => mem_keys_of_entriesEq h.2 hmem
  have hperm : (keys a).Perm (keys b) := by
    apply (List.subperm_of_subset a.nodup hsub).perm_of_length_le
    simp [keys, hlen]
  exact hperm.mem_iff

/-! ### The edits -/

/-- An update; a field that is absent is `none`. -/
structure UpdateOp where
  key : Option Str
  value : Value
  matchValue : Value

/-- A delete; a field that is absent is `none`. -/
structure DeleteOp where
  key : Option Str
  value : Value

section edits
variable (text : Value → Str)

/-- `_str_equal`. -/
def strEqual (a b : Value) : Bool := text a == text b

/-- One round of the loop of `_apply_updates`, on the metadata and `changed`. -/
def applyUpdate (upd : UpdateOp) (state : Meta × Bool) : Meta × Bool :=
  match upd.key with
  | none | some [] => state
  | some key =>
      let matchProvided := upd.matchValue ≠ .none && upd.matchValue ≠ .str []
      match state.1.get? key with
      | none =>
          if matchProvided then state
          else
            let v := match upd.value with
              | .list xs => .list (dedupeList text xs)
              | v => v
            (state.1.put (key, v), true)
      | some (_, .list items) =>
          if !matchProvided then
            let added := match upd.value with
              | .list xs => xs
              | v => [v]
            (state.1.put (key, .list (dedupeList text (items ++ added))), true)
          else if items.any (strEqual text · upd.matchValue) then
            let replaced := items.map (fun item =>
              if strEqual text item upd.matchValue then upd.value else item)
            (state.1.put (key, .list (dedupeList text replaced)), true)
          else state
      | some (_, v) =>
          if !matchProvided || strEqual text v upd.matchValue then
            (state.1.put (key, upd.value), true)
          else state

/-- `_apply_updates`. -/
def applyUpdates (updates : List UpdateOp) (m : Meta) : Meta × Bool :=
  updates.foldl (fun state upd => applyUpdate text upd state) (m, false)

/-- `del meta[key]`. -/
def delKey (m : Meta) (key : Str) : Meta := m.deleteWhere (fun e => e.1 = key)

/-- One round of the loop of `_apply_deletes`, on the metadata and `changed`. -/
def applyDelete (d : DeleteOp) (state : Meta × Bool) : Meta × Bool :=
  match d.key with
  | none | some [] => state
  | some key =>
      match state.1.get? key with
      | none => state
      | some (_, .list items) =>
          if d.value = .none then (delKey state.1 key, true)
          else
            let kept := items.filter (fun item => !strEqual text item d.value)
            if kept.length ≠ items.length then
              if kept ≠ [] then (state.1.put (key, .list kept), true)
              else (delKey state.1 key, true)
            else state
      | some (_, v) =>
          if d.value = .none || strEqual text v d.value then (delKey state.1 key, true) else state

/-- `_apply_deletes`. -/
def applyDeletes (deletes : List DeleteOp) (m : Meta) : Meta × Bool :=
  deletes.foldl (fun state d => applyDelete text d state) (m, false)

/-! What an edit can do to the metadata. -/

theorem mem_keys_put {m : Meta} {key key' : Str} {v : Value} :
    key ∈ keys (m.put (key', v)) ↔ key = key' ∨ key ∈ keys m := by
  rw [keys, keys, Table.mem_keys, Table.mem_keys]
  simp only [Table.get?_put]
  by_cases h : key = key'
  · simp [h]
  · simp [h]

theorem applyUpdate_cases (upd : UpdateOp) (state : Meta × Bool) :
    applyUpdate text upd state = state ∨
      ∃ key v, applyUpdate text upd state = (state.1.put (key, v), true) := by
  unfold applyUpdate
  split
  · exact .inl rfl
  · exact .inl rfl
  · simp only
    split
    · split_ifs
      · exact .inl rfl
      · exact .inr ⟨_, _, rfl⟩
    · split_ifs
      · exact .inr ⟨_, _, rfl⟩
      · exact .inr ⟨_, _, rfl⟩
      · exact .inl rfl
    · split_ifs
      · exact .inr ⟨_, _, rfl⟩
      · exact .inl rfl

theorem applyDelete_cases (d : DeleteOp) (state : Meta × Bool) :
    applyDelete text d state = state ∨ (applyDelete text d state).2 = true := by
  unfold applyDelete
  split
  · exact .inl rfl
  · exact .inl rfl
  · split
    · exact .inl rfl
    · simp only
      split_ifs
      · exact .inr rfl
      · exact .inr rfl
      · exact .inr rfl
      · exact .inl rfl
    · split_ifs
      · exact .inr rfl
      · exact .inl rfl

theorem mem_keys_applyUpdates {updates : List UpdateOp} {m : Meta} {key : Str}
    (h : key ∈ keys m) : key ∈ keys (applyUpdates text updates m).1 := by
  unfold applyUpdates
  generalize hstate : (m, false) = state
  have hkey : key ∈ keys state.1 := hstate ▸ h
  clear hstate h
  induction updates generalizing state with
  | nil => exact hkey
  | cons upd updates ih =>
      apply ih
      show key ∈ keys (applyUpdate text upd state).1
      rcases applyUpdate_cases text upd state with heq | ⟨key', v, heq⟩
      · rw [heq]
        exact hkey
      · rw [heq]
        exact mem_keys_put.mpr (.inr hkey)

/-- A loop whose rounds set the flag when they change something changes nothing if the flag is not
set in the end. -/
theorem foldl_unchanged {α σ : Type} {step : α → σ × Bool → σ × Bool}
    (hstep : ∀ a state, step a state = state ∨ (step a state).2 = true) (l : List α)
    (state : σ × Bool) :
    l.foldl (fun state a => step a state) state = state ∨
      (l.foldl (fun state a => step a state) state).2 = true := by
  induction l generalizing state with
  | nil => exact .inl rfl
  | cons a l ih =>
      rw [List.foldl_cons]
      rcases ih (step a state) with h | h
      · rw [h]
        exact hstep a state
      · exact .inr h

theorem applyUpdates_unchanged {updates : List UpdateOp} {m : Meta}
    (h : (applyUpdates text updates m).2 = false) : (applyUpdates text updates m).1 = m := by
  have hstep : ∀ upd state, applyUpdate text upd state = state ∨
      (applyUpdate text upd state).2 = true := by
    intro upd state
    rcases applyUpdate_cases text upd state with heq | ⟨key, v, heq⟩
    · exact .inl heq
    · exact .inr (heq ▸ rfl)
  rcases foldl_unchanged hstep updates (m, false) with heq | htrue
  · exact congrArg Prod.fst heq
  · cases h.symm.trans htrue

theorem applyDeletes_unchanged {deletes : List DeleteOp} {m : Meta}
    (h : (applyDeletes text deletes m).2 = false) : (applyDeletes text deletes m).1 = m := by
  rcases foldl_unchanged (applyDelete_cases text) deletes (m, false) with heq | htrue
  · exact congrArg Prod.fst heq
  · cases h.symm.trans htrue

end edits

/-! ### Searching -/

variable {db : Db} {docId : Str}

/-- An item of the list `_search_metadata` returns: a document, or a field of a `SearchResult`
with its name. -/
inductive SearchItem (db : Db) where
  | doc (r : Row db)
  | total (n : ℕ)
  | chunks (rs : List (Row db))

section search
variable (e : Engine)

/-- The keyword arguments of the call of `docStoreConn.search`. -/
def searchKeywords : List String :=
  ["select_fields", "highlight_fields", "condition", "match_expressions", "order_by", "offset",
    "limit", "index_names", "knowledgebase_ids"]

/-- `page_docs` and `total_count` for one page of the rows of a dataset.  A `SearchResult` has no
`get`, and `list` of it lists its fields. -/
def searchPage (kbId : Str) (offset limit : ℕ) (index : Index db) :
    Except Exn (List (SearchItem db) × Option ℕ) :=
  if bindsKeywords e.searchParams searchKeywords then
    let hits := index.select (fun r => r.kbId = kbId)
    let page := (hits.drop offset).take limit
    match e with
    | .elasticsearch | .opensearch | .infinity => .ok (page.map .doc, some hits.length)
    | .oceanbase | .seekdb => .ok ([.total hits.length, .chunks page], none)
  else .error .typeError

/-- `page_size`. -/
def pageSize : ℕ := 1000

/-- The loop over the pages; it ends within one round for each row and one more. -/
def searchPages (kbId : Str) (index : Index db) :
    ℕ → ℕ → List (SearchItem db) → Except Exn (List (SearchItem db))
  | 0, _, all => .ok all
  | fuel + 1, page, all => do
      let (docs, total) ← searchPage e kbId (page * pageSize) pageSize index
      if docs.isEmpty then .ok all
      else
        let all := all ++ docs
        match total with
        | some total =>
            if total ≤ all.length then .ok all else searchPages kbId index fuel (page + 1) all
        | none =>
            if docs.length < pageSize then .ok all
            else searchPages kbId index fuel (page + 1) all

/-- `_search_metadata`; the index is created if it is missing. -/
def searchMetadata (kbId : Str) (s : Store db) : Store db × Except Exn (List (SearchItem db)) :=
  match db.tenantId kbId with
  | none => (s, .error .doesNotExist)
  | some tenantId =>
      match ensureIndex e tenantId s with
      | .error err => (s, .error err)
      | .ok s =>
          match s tenantId with
          | none => (s, .ok [])
          | some index => (s, searchPages e kbId index (index.rows.length + 1) 0 [])

/-- The engines whose search results are gone through document by document. -/
def Engine.searchable : Engine → Bool
  | .elasticsearch | .infinity => true
  | .opensearch | .oceanbase | .seekdb => false

theorem bindsKeywords_search (h : e ≠ .opensearch) :
    bindsKeywords e.searchParams searchKeywords = true := by
  cases e with
  | opensearch => exact absurd rfl h
  | elasticsearch | infinity | oceanbase | seekdb =>
      simp [bindsKeywords, Engine.searchParams, searchKeywords]

/-- The loop over the pages collects the rows of the dataset. -/
theorem searchPages_eq {e : Engine} (h : e.searchable = true) (kbId : Str) (index : Index db)
    (fuel page : ℕ)
    (hfuel : (index.select (fun r => r.kbId = kbId)).length < page * pageSize + fuel) :
    searchPages e kbId index fuel page
        (((index.select (fun r => r.kbId = kbId)).take (page * pageSize)).map .doc) =
      .ok ((index.select (fun r => r.kbId = kbId)).map .doc) := by
  have hpage : ∀ offset limit, searchPage e kbId offset limit index =
      .ok ((((index.select (fun r => r.kbId = kbId)).drop offset).take limit).map .doc,
        some (index.select (fun r => r.kbId = kbId)).length) := by
    intro offset limit
    have hbinds := bindsKeywords_search e (by rintro rfl; cases h)
    cases e with
    | elasticsearch | infinity => simp only [searchPage, hbinds, if_true]
    | opensearch | oceanbase | seekdb => cases h
  generalize index.select (fun r => r.kbId = kbId) = hits at *
  induction fuel generalizing page with
  | zero =>
      rw [searchPages, List.take_of_length_le (by omega)]
  | succ fuel ih =>
      rw [searchPages, hpage]
      show (if _ then _ else _) = _
      have hsucc : (page + 1) * pageSize = page * pageSize + pageSize :=
        Nat.succ_mul page pageSize
      have hpos : 0 < pageSize := Nat.succ_pos 999
      have happend : (hits.take (page * pageSize)).map SearchItem.doc ++
          ((hits.drop (page * pageSize)).take pageSize).map SearchItem.doc =
            (hits.take ((page + 1) * pageSize)).map SearchItem.doc := by
        rw [← List.map_append, ← List.take_add, ← hsucc]
      rw [happend]
      split_ifs with hempty htotal
      · -- an empty page: the pages before were all
        have hlen := congrArg List.length (List.map_eq_nil_iff.mp (List.isEmpty_iff.mp hempty))
        rw [List.length_take, List.length_drop, List.length_nil] at hlen
        rw [List.take_of_length_le (by omega)]
      · rw [List.length_map, List.length_take] at htotal
        rw [List.take_of_length_le (by omega)]
      · exact ih (page + 1) (by omega)

variable {e} {s : Store db} {kbId : Str}

theorem hasCreateDocMetaIdx_of_searchable (h : e.searchable = true) :
    e.hasCreateDocMetaIdx = true := by
  cases e with
  | elasticsearch | infinity => rfl
  | opensearch | oceanbase | seekdb => cases h

theorem writable_of_searchable (h : e.searchable = true) (tenantId : Str) :
    Writable e tenantId s :=
  .inl (hasCreateDocMetaIdx_of_searchable h)

theorem searchMetadata_eq (h : e.searchable = true) {tenantId : Str}
    (htenant : db.tenantId kbId = some tenantId) :
    ∃ (s' : Store db) (index : Index db), s'.find = s.find ∧ s' tenantId = some index ∧
      searchMetadata e kbId s = (s', .ok ((index.select (fun r => r.kbId = kbId)).map .doc)) := by
  obtain ⟨s', hs'⟩ := exists_ensureIndex (writable_of_searchable h tenantId)
  obtain ⟨hfind, hsome⟩ := ensureIndex_eq_ok hs'
  obtain ⟨index, hindex⟩ := Option.isSome_iff_exists.mp hsome
  refine ⟨s', index, hfind, hindex, ?_⟩
  simp only [searchMetadata, htenant, hs', hindex]
  have hlen : (index.select (fun r => r.kbId = kbId)).length < 0 * pageSize +
      (index.rows.length + 1) := by
    have := List.length_filter_le (fun r : Row db => decide (r.kbId = kbId)) index.rows
    unfold Table.select
    omega
  have hpages := searchPages_eq h kbId index (index.rows.length + 1) 0 hlen
  rw [Nat.zero_mul, List.take_zero, List.map_nil] at hpages
  rw [hpages]

theorem find_searchMetadata : (searchMetadata e kbId s).1.find = s.find := by
  unfold searchMetadata
  split
  · rfl
  · split
    · rfl
    · rename_i s' hs'
      have hfind := (ensureIndex_eq_ok hs').1
      split
      · exact hfind
      · exact hfind

/-- The other engines raise, or list the fields of a `SearchResult`. -/
theorem searchPages_not_searchable (h : e.searchable = false) (index : Index db) (fuel : ℕ) :
    (∃ err, searchPages e kbId index (fuel + 1) 0 [] = .error err) ∨
      ∃ n items, searchPages e kbId index (fuel + 1) 0 [] = .ok (.total n :: items) := by
  cases e with
  | elasticsearch | infinity => cases h
  | opensearch =>
      left
      have hbinds : bindsKeywords Engine.opensearch.searchParams searchKeywords = false := by
        simp [bindsKeywords, Engine.searchParams, searchKeywords]
      refine ⟨.typeError, ?_⟩
      rw [searchPages, searchPage, hbinds]
      rfl
  | oceanbase | seekdb =>
      right
      have hlisted : 2 < pageSize := Nat.le_add_left 3 997
      refine ⟨(index.select (fun r => r.kbId = kbId)).length,
        [.chunks (((index.select (fun r => r.kbId = kbId)).drop (0 * pageSize)).take pageSize)], ?_⟩
      rw [searchPages, searchPage, bindsKeywords_search _ (by decide)]
      simp [bind, Except.bind, hlisted]

variable (kbId s) in
/-- The search raises, or its first item is the name of a field. -/
theorem searchMetadata_not_searchable (h : e.searchable = false) :
    (∃ err, (searchMetadata e kbId s).2 = .error err) ∨
      ∃ n items, (searchMetadata e kbId s).2 = .ok (.total n :: items) := by
  unfold searchMetadata
  split
  · exact .inl ⟨_, rfl⟩
  · split
    · exact .inl ⟨_, rfl⟩
    · rename_i s' hs'
      obtain ⟨index, hindex⟩ := Option.isSome_iff_exists.mp (ensureIndex_eq_ok hs').2
      rw [hindex]
      exact searchPages_not_searchable h index index.rows.length

end search

/-! ### The batch -/

section batch
variable (text : Value → Str) (e : Engine) (kbId : Str) (docIds : List Str)
  (updates : List UpdateOp) (deletes : List DeleteOp)

/-- The store, the number of updated documents and the documents found so far. -/
structure Progress (db : Db) where
  store : Store db
  updated : ℕ
  found : List Str

/-- The metadata after the updates and the deletes, and whether it is to be written. -/
def editMeta (m : Meta) : Meta × Bool :=
  let updated := applyUpdates text updates m
  let deleted := applyDeletes text deletes updated.1
  (deleted.1, (deleted.2 || updated.2) && !metaEq deleted.1 m)

/-- The first loop on one row. -/
def editRow (r : Row db) (p : Progress db) : Progress db :=
  if r.id ∉ docIds then p
  else
    let found := r.id :: p.found
    let edited := editMeta text updates deletes r.metaFields
    if edited.2 then
      if edited.1.rows = [] then
        ⟨(deleteDocumentMetadata e r.id kbId none p.store).1, p.updated + 1, found⟩
      else
        ⟨(updateDocumentMetadata text e r.id edited.1 p.store).1, p.updated + 1, found⟩
    else ⟨p.store, p.updated, found⟩

/-- The first loop, over the search results; `_iter_search_results` calls `get` on each item, which
raises for the name of a field.  An exception leaves the store as it is then. -/
def editFound : List (SearchItem db) → Progress db → Except (Store db) (Progress db)
  | [], p => .ok p
  | .doc r :: items, p =>
      editFound items
        (if r.id = [] then p else editRow text e kbId docIds updates deletes r p)
  | .total _ :: _, p => .error p.store
  | .chunks _ :: _, p => .error p.store

/-- The second loop on one document. -/
def editMissing (docId : Str) (p : Progress db) : Progress db :=
  let m := (applyUpdates text updates Table.empty).1
  if m.rows = [] then p
  else ⟨(updateDocumentMetadata text e docId m p.store).1, p.updated + 1, p.found⟩

/-- `batch_update_metadata`.  The second loop goes through a set; its order does not matter, since
each round writes the row of its own document. -/
def batchUpdateMetadata (s : Store db) : Store db × ℕ :=
  if docIds = [] then (s, 0)
  else
    match searchMetadata e kbId s with
    | (s, .error _) => (s, 0)
    | (s, .ok items) =>
        match editFound text e kbId docIds updates deletes items ⟨s, 0, []⟩ with
        | .error s => (s, 0)
        | .ok p =>
            let missing := docIds.dedup.filter (· ∉ p.found)
            let p :=
              if updates = [] then p
              else missing.foldl (fun p docId => editMissing text e updates docId p) p
            (p.store, p.updated)

end batch

/-! ### What the batch leaves of one row -/

section row
variable {text : Value → Str} {e : Engine} {kbId : Str} {docIds : List Str}
  {updates : List UpdateOp} {deletes : List DeleteOp} {s : Store db} {p : Progress db}

theorem editFound_docs (rows : List (Row db)) (p : Progress db) :
    editFound text e kbId docIds updates deletes (rows.map .doc) p =
      .ok (rows.foldl (fun p r =>
        if r.id = [] then p else editRow text e kbId docIds updates deletes r p) p) := by
  induction rows generalizing p with
  | nil => rfl
  | cons r rows ih =>
      rw [List.map_cons, editFound, List.foldl_cons]
      exact ih _

/-- Where the results are not searched document by document the batch keeps every row. -/
theorem find_batchUpdateMetadata_not_searchable (h : e.searchable = false) :
    (batchUpdateMetadata text e kbId docIds updates deletes s).1.find = s.find := by
  have hfind : (searchMetadata e kbId s).1.find = s.find := find_searchMetadata
  have hres := searchMetadata_not_searchable s kbId h
  unfold batchUpdateMetadata
  by_cases hids : docIds = []
  · rw [if_pos hids]
  · rw [if_neg hids]
    generalize searchMetadata e kbId s = found at hfind hres
    obtain ⟨s', res⟩ := found
    rcases hres with ⟨err, rfl⟩ | ⟨n, items, rfl⟩
    · exact hfind
    · exact hfind

/-- What is followed of one document: its row, and whether it was found. -/
def Progress.view (tenantId docId : Str) (p : Progress db) : Option (Row db) × Bool :=
  (p.store.find tenantId docId, docId ∈ p.found)

theorem view_editRow_of_ne {r : Row db} (hne : docId ≠ r.id) (tenantId : Str) :
    (editRow text e kbId docIds updates deletes r p).view tenantId docId =
      p.view tenantId docId := by
  unfold editRow Progress.view
  simp only
  split_ifs
  · exact Prod.ext (find_deleteDocumentMetadata_of_ne hne kbId none tenantId) (by simp [hne])
  · exact Prod.ext (find_updateDocumentMetadata_of_ne text hne _ tenantId) (by simp [hne])
  · exact Prod.ext rfl (by simp [hne])
  · rfl

/-- The row the first loop leaves of a document whose row is `r`. -/
def editedRow (text : Value → Str) (updates : List UpdateOp) (deletes : List DeleteOp)
    (doc : Document db docId) (r : Row db) : Option (Row db) :=
  let edited := editMeta text updates deletes r.metaFields
  if edited.2 then
    if edited.1.rows = [] then none
    else some (doc.metaRow (splitCombinedValues text edited.1))
  else some r

theorem view_editRow_self (h : e.searchable = true) (doc : Document db docId) {r : Row db}
    (hid : r.id = docId) (hmem : docId ∈ docIds) (hrow : p.store.row doc = some r) :
    (editRow text e doc.kbId docIds updates deletes r p).view doc.tenantId docId =
      (editedRow text updates deletes doc r, true) := by
  subst hid
  have hwritable : Writable e doc.tenantId p.store := writable_of_searchable h _
  unfold editRow editedRow Progress.view
  simp only
  rw [if_neg (fun hnot => hnot hmem)]
  split_ifs
  · exact Prod.ext (row_deleteDocumentMetadata doc (.inl rfl)) (by simp)
  · exact Prod.ext (row_updateDocumentMetadata text doc hwritable _) (by simp)
  · exact Prod.ext hrow (by simp)

theorem view_editMissing_of_ne {docId' : Str} (hne : docId ≠ docId') (tenantId : Str) :
    (editMissing text e updates docId' p).view tenantId docId = p.view tenantId docId := by
  unfold editMissing Progress.view
  simp only
  split_ifs
  · rfl
  · exact Prod.ext (find_updateDocumentMetadata_of_ne text hne _ tenantId) rfl

/-- The metadata written for documents without a row. -/
def missingRow (text : Value → Str) (updates : List UpdateOp) (doc : Document db docId) :
    Option (Row db) :=
  let m := (applyUpdates text updates Table.empty).1
  if m.rows = [] then none else some (doc.metaRow (splitCombinedValues text m))

theorem view_editMissing_self (h : e.searchable = true) (doc : Document db docId)
    (hview : p.view doc.tenantId docId = (none, false)) :
    (editMissing text e updates docId p).view doc.tenantId docId =
      (missingRow text updates doc, false) := by
  have hwritable : Writable e doc.tenantId p.store := writable_of_searchable h _
  unfold editMissing missingRow
  simp only
  split_ifs
  · exact hview
  · exact Prod.ext (row_updateDocumentMetadata text doc hwritable _) (Prod.mk.inj hview).2

variable (text updates deletes) in
/-- The batch is the two loops, over the rows of the dataset and over the documents that were not
found. -/
theorem batchUpdateMetadata_eq (h : e.searchable = true) {tenantId : Str}
    (htenant : db.tenantId kbId = some tenantId) (hids : docIds ≠ []) :
    ∃ (s' : Store db) (index : Index db) (p : Progress db), s'.find = s.find ∧
      s' tenantId = some index ∧
      p = (index.select (fun r => r.kbId = kbId)).foldl (fun p r =>
        if r.id = [] then p else editRow text e kbId docIds updates deletes r p) ⟨s', 0, []⟩ ∧
      (batchUpdateMetadata text e kbId docIds updates deletes s).1 =
        (if updates = [] then p
          else (docIds.dedup.filter (· ∉ p.found)).foldl
            (fun p docId => editMissing text e updates docId p) p).store := by
  obtain ⟨s', index, hfind, hindex, hsearch⟩ := searchMetadata_eq (s := s) h htenant
  refine ⟨s', index, _, hfind, hindex, rfl, ?_⟩
  unfold batchUpdateMetadata
  rw [if_neg hids, hsearch]
  simp only [editFound_docs]

theorem nodup_ids_select (index : Index db) (q : Row db → Bool) :
    ((index.select q).map Row.id).Nodup :=
  index.nodup.sublist (List.filter_sublist.map Row.id)

/-- A document that has a row gets the updates and the deletes. -/
theorem row_batchUpdateMetadata (h : e.searchable = true) (doc : Document db docId) {r : Row db}
    (hrow : s.row doc = some r) (hmem : docId ∈ docIds) :
    (batchUpdateMetadata text e doc.kbId docIds updates deletes s).1.row doc =
      editedRow text updates deletes doc r := by
  obtain ⟨s', index, p, hfind, hindex, hp, hbatch⟩ := batchUpdateMetadata_eq (s := s)
    text updates deletes h doc.tenant_eq (List.ne_nil_of_mem hmem)
  have hrow' : s'.row doc = some r := by
    rw [Store.row, hfind]
    exact hrow
  have hget : index.get? docId = some r := by
    rw [Store.row, Store.find, hindex] at hrow'
    exact hrow'
  obtain ⟨hr, hid⟩ := Table.get?_eq_some.mp hget
  have hkb : r.kbId = doc.kbId := (r.owned doc.kbId (hid ▸ doc.kb_eq)).symm
  have hview : p.view doc.tenantId docId = (editedRow text updates deletes doc r, true) := by
    rw [hp]
    refine foldl_view_of_mem (Progress.view doc.tenantId docId) Row.id (a := r)
      (v := (some r, false)) ?_ ?_ (nodup_ids_select index _)
      (Table.mem_select.mpr ⟨hr, by simp [hkb]⟩) ?_
    · intro b p hb
      split_ifs
      · rfl
      · exact view_editRow_of_ne (fun h => hb (h.symm.trans hid.symm)) _
    · intro p hpview
      rw [if_neg (hid ▸ doc.id_ne_nil)]
      exact view_editRow_self h doc hid hmem (Prod.mk.inj hpview).1
    · exact Prod.ext hrow' rfl
  -- the document was found, so the second loop leaves it alone
  have hfound : docId ∈ p.found := by simpa using (Prod.mk.inj hview).2
  have hrest : (if updates = [] then p
      else (docIds.dedup.filter (· ∉ p.found)).foldl
        (fun p docId => editMissing text e updates docId p) p).view doc.tenantId docId =
        p.view doc.tenantId docId := by
    split_ifs
    · rfl
    · apply foldl_view (Progress.view doc.tenantId docId)
      intro docId' hdocId' q
      apply view_editMissing_of_ne
      rintro rfl
      simp [hfound] at hdocId'
  rw [hbatch]
  exact (Prod.mk.inj (hrest.trans hview)).1

/-- A document without a row gets the updates only. -/
theorem row_batchUpdateMetadata_missing (h : e.searchable = true) (doc : Document db docId)
    (hrow : s.row doc = none) (hmem : docId ∈ docIds) :
    (batchUpdateMetadata text e doc.kbId docIds updates deletes s).1.row doc =
      missingRow text updates doc := by
  obtain ⟨s', index, p, hfind, hindex, hp, hbatch⟩ := batchUpdateMetadata_eq (s := s)
    text updates deletes h doc.tenant_eq (List.ne_nil_of_mem hmem)
  have hrow' : s'.row doc = none := by
    rw [Store.row, hfind]
    exact hrow
  have hget : index.get? docId = none := by
    rw [Store.row, Store.find, hindex] at hrow'
    exact hrow'
  have hview : p.view doc.tenantId docId = (none, false) := by
    rw [hp]
    refine (foldl_view (Progress.view doc.tenantId docId) ?_ _).trans (Prod.ext hrow' rfl)
    intro r hr p
    split_ifs
    · rfl
    · exact view_editRow_of_ne
        (Ne.symm (Table.get?_eq_none.mp hget r (Table.mem_select.mp hr).1)) _
  have hnotfound : docId ∉ p.found := by simpa using (Prod.mk.inj hview).2
  have hrest : (if updates = [] then p
      else (docIds.dedup.filter (· ∉ p.found)).foldl
        (fun p docId => editMissing text e updates docId p) p).view doc.tenantId docId =
        (missingRow text updates doc, false) := by
    split_ifs with hupdates
    · subst hupdates
      exact hview
    · refine foldl_view_of_mem (Progress.view doc.tenantId docId) id (a := docId) ?_ ?_ ?_ ?_
        hview
      · exact fun b q hb => view_editMissing_of_ne (Ne.symm hb) _
      · exact fun q hq => view_editMissing_self h doc hq
      · rw [List.map_id]
        exact (List.nodup_dedup docIds).filter _
      · simp [hmem, hnotfound]
  rw [hbatch]
  exact (Prod.mk.inj hrest).1

end row

/-! ### The metadata after an update and after a batch -/

section metadata
variable {text : Value → Str} {e : Engine} {docIds : List Str} {updates : List UpdateOp}
  {deletes : List DeleteOp} {s : Store db}

/-- An update leaves the split values exactly if it can write or has nothing to write. -/
theorem update_leaves_split_iff (doc : Document db docId) (m : Meta) :
    getDocumentMetadata docId (updateDocumentMetadata text e docId m s).1 =
        splitCombinedValues text m ↔
      (e.hasCreateDocMetaIdx = true ∨ (s doc.tenantId).isSome) ∨ m.rows = [] := by
  by_cases hwritable : Writable e doc.tenantId s
  · exact iff_of_true (getDocumentMetadata_updateDocumentMetadata text doc hwritable m)
      (.inl hwritable)
  · have hrow : s.row doc = none := by
      rw [Store.row, Store.find, index_eq_none_of_not_writable hwritable]
      rfl
    rw [updateDocumentMetadata_of_not_writable text doc hwritable, getDocumentMetadata_eq doc, hrow,
      ← splitCombinedValues_rows_eq_nil text]
    constructor
    · intro h
      exact .inr (congrArg Table.rows h).symm
    · intro h
      apply Table.ext
      exact (h.resolve_left hwritable).symm

/-- The keys that the deletes take out of the updated metadata. -/
def RemovesKey (text : Value → Str) (updates : List UpdateOp) (deletes : List DeleteOp) (m : Meta)
    (key : Str) : Prop :=
  key ∈ keys (applyUpdates text updates m).1 ∧
    key ∉ keys (applyDeletes text deletes (applyUpdates text updates m).1).1

/-- A key that is not in the edited metadata is not in the row that is left. -/
theorem not_mem_keys_editedRow (doc : Document db docId) {r : Row db} {key : Str}
    (h : key ∉ keys (editMeta text updates deletes r.metaFields).1) :
    key ∉ keys (((editedRow text updates deletes doc r).map Row.metaFields).getD Table.empty) := by
  unfold editedRow
  simp only
  split_ifs with hwrite hempty
  · exact List.not_mem_nil
  · show key ∉ keys (splitCombinedValues text (editMeta text updates deletes r.metaFields).1)
    rw [keys_splitCombinedValues]
    exact h
  · -- nothing was written: the metadata is equal to the old one, or no edit changed it
    show key ∉ keys r.metaFields
    simp only [editMeta, Bool.and_eq_true, Bool.or_eq_true, Bool.not_eq_true', not_and] at hwrite h
    by_cases heq : metaEq (applyDeletes text deletes
        (applyUpdates text updates r.metaFields).1).1 r.metaFields = true
    · rwa [← mem_keys_of_metaEq heq]
    · rw [Bool.not_eq_true] at heq
      have hunchanged : ¬((applyDeletes text deletes
          (applyUpdates text updates r.metaFields).1).2 = true ∨
            (applyUpdates text updates r.metaFields).2 = true) := fun hor => hwrite hor heq
      rw [not_or, Bool.not_eq_true, Bool.not_eq_true] at hunchanged
      rwa [applyDeletes_unchanged text hunchanged.1, applyUpdates_unchanged text hunchanged.2] at h

/-- The keys that a batch is to remove from the row of a document are absent afterwards exactly if
the engine's results are searched document by document, or the row has none of them. -/
theorem batch_removes_keys_iff (doc : Document db docId) (hmem : docId ∈ docIds) {r : Row db}
    (hrow : s.row doc = some r) :
    (∀ key, RemovesKey text updates deletes r.metaFields key → key ∉ keys (getDocumentMetadata docId
        (batchUpdateMetadata text e doc.kbId docIds updates deletes s).1)) ↔
      e.searchable = true ∨ ∀ key ∈ keys r.metaFields,
        key ∈ keys (applyDeletes text deletes (applyUpdates text updates r.metaFields).1).1 := by
  rw [getDocumentMetadata_eq doc]
  cases hsearchable : e.searchable with
  | true =>
      refine iff_of_true ?_ (.inl rfl)
      intro key hkey
      rw [row_batchUpdateMetadata hsearchable doc hrow hmem]
      exact not_mem_keys_editedRow doc hkey.2
  | false =>
      rw [Store.row, find_batchUpdateMetadata_not_searchable hsearchable, ← Store.row, hrow]
      show (∀ key, _ → key ∉ keys r.metaFields) ↔ _
      constructor
      · intro h
        right
        intro key hkey
        by_contra hremoved
        exact h key ⟨mem_keys_applyUpdates text hkey, hremoved⟩ hkey
      · intro h key hremoved hkey
        exact hremoved.2 (h.resolve_left (by simp) key hkey)

/-- An update leaves exactly the split values, and a batch takes the keys that its deletes remove
out of the row of a document, under these conditions: rows can be written (or there is nothing to
write), and the engine's results are searched document by document (or the row has no key that is
to be removed). -/
theorem update_and_batch_iff (text : Value → Str) (e : Engine) (s : Store db)
    (doc : Document db docId) (m : Meta) {docIds : List Str} (hmem : docId ∈ docIds)
    (updates : List UpdateOp) (deletes : List DeleteOp) :
    (getDocumentMetadata docId (updateDocumentMetadata text e docId m s).1 =
        splitCombinedValues text m ∧
      ∀ r, s.row doc = some r → ∀ key, RemovesKey text updates deletes r.metaFields key →
        key ∉ keys (getDocumentMetadata docId
          (batchUpdateMetadata text e doc.kbId docIds updates deletes s).1)) ↔
    ((e.hasCreateDocMetaIdx = true ∨ (s doc.tenantId).isSome) ∨ m.rows = []) ∧
      (e.searchable = true ∨ ∀ r, s.row doc = some r → ∀ key ∈ keys r.metaFields,
        key ∈ keys (applyDeletes text deletes (applyUpdates text updates r.metaFields).1).1) := by
  apply and_congr (update_leaves_split_iff doc m)
  constructor
  · intro h
    by_cases hsearchable : e.searchable = true
    · exact .inl hsearchable
    · right
      intro r hrow
      exact ((batch_removes_keys_iff doc hmem hrow).mp (h r hrow)).resolve_left hsearchable
  · intro h r hrow
    exact (batch_removes_keys_iff doc hmem hrow).mpr (h.imp id (fun h => h r hrow))

end metadata

/-! The edits of the samples below. -/

def sampleMeta : Meta := ⟨[(['a'], .str ['x'])], List.nodup_singleton _⟩

def sampleUpdate : UpdateOp := ⟨some ['a'], .str ['x'], .none⟩

def sampleDelete : DeleteOp := ⟨some ['a'], .none⟩

/-- On OceanBase the batch that is to delete the key `a` leaves it. -/
theorem batch_keeps_deleted_key : ¬(getDocumentMetadata ['1'] (updateDocumentMetadata sampleText
      .oceanbase ['1'] sampleMeta (sampleStore sampleMeta)).1 =
        splitCombinedValues sampleText sampleMeta ∧
    ∀ r, (sampleStore sampleMeta).row sampleFirst = some r →
      ∀ key, RemovesKey sampleText [] [sampleDelete] r.metaFields key →
        key ∉ keys (getDocumentMetadata ['1'] (batchUpdateMetadata sampleText .oceanbase ['k']
          [['1']] [] [sampleDelete] (sampleStore sampleMeta)).1)) := by
  rintro ⟨-, h⟩
  have hrow : (sampleStore sampleMeta).row sampleFirst = some (sampleFirst.metaRow sampleMeta) :=
    rfl
  rcases (batch_removes_keys_iff sampleFirst List.mem_cons_self hrow).mp (h _ hrow) with
    hsearchable | hkept
  · cases hsearchable
  · have hkey := hkept ['a'] (by decide)
    revert hkey
    decide

theorem update_and_batch_iff_infinity : ['1'] ∈ [['1']] ∧
    ((getDocumentMetadata ['1'] (updateDocumentMetadata sampleText .infinity ['1'] sampleMeta
        (sampleStore sampleMeta)).1 = splitCombinedValues sampleText sampleMeta ∧
      ∀ r, (sampleStore sampleMeta).row sampleFirst = some r →
        ∀ key, RemovesKey sampleText [] [sampleDelete] r.metaFields key →
          key ∉ keys (getDocumentMetadata ['1'] (batchUpdateMetadata sampleText .infinity ['k']
            [['1']] [] [sampleDelete] (sampleStore sampleMeta)).1))) :=
  ⟨List.mem_cons_self, (update_and_batch_iff sampleText .infinity (sampleStore sampleMeta)
    sampleFirst sampleMeta List.mem_cons_self [] [sampleDelete]).mpr
      ⟨.inl (.inl rfl), .inl rfl⟩⟩

/-! ### Documents without a row -/

section missing
variable {text : Value → Str} {e : Engine} {docIds : List Str} {updates : List UpdateOp}
  {deletes : List DeleteOp} {s : Store db}

theorem metadata_missingRow (doc : Document db docId) :
    ((missingRow text updates doc).map Row.metaFields).getD Table.empty =
      splitCombinedValues text (applyUpdates text updates Table.empty).1 := by
  unfold missingRow
  simp only
  split_ifs with hempty
  · apply Table.ext
    exact ((splitCombinedValues_rows_eq_nil text).mpr hempty).symm
  · rfl

/-- Metadata that is empty is equal to empty metadata only. -/
theorem metaEq_of_rows_eq_nil {a b : Meta} (h : b.rows = []) :
    metaEq a b = true ↔ a.rows = [] := by
  rw [metaEq, h]
  cases a.rows with
  | nil => simp [entriesEq]
  | cons x xs => simp

/-- A document whose row holds the empty object gets the updates and the deletes. -/
theorem metadata_editedRow_empty (doc : Document db docId) {r : Row db}
    (hempty : r.metaFields.rows = []) :
    ((editedRow text updates deletes doc r).map Row.metaFields).getD Table.empty =
      splitCombinedValues text
        (applyDeletes text deletes (applyUpdates text updates Table.empty).1).1 := by
  have hr : r.metaFields = Table.empty := Table.ext hempty
  unfold editedRow editMeta
  simp only [hr]
  generalize hm : (applyDeletes text deletes (applyUpdates text updates Table.empty).1).1 = m
  have hsame : metaEq m Table.empty = true ↔ m.rows = [] := metaEq_of_rows_eq_nil rfl
  split_ifs with hwrite hrows
  · rw [hsame.mpr hrows] at hwrite
    simp at hwrite
  · rfl
  · -- nothing is written because nothing came of the edits
    have hrows : m.rows = [] := by
      rw [← hsame]
      by_contra heq
      rw [Bool.not_eq_true] at heq
      simp only [heq, Bool.not_false, Bool.and_true, Bool.or_eq_true, not_or,
        Bool.not_eq_true] at hwrite
      have hunchanged := (applyDeletes_unchanged text hwrite.1).trans
        (applyUpdates_unchanged text hwrite.2)
      rw [hm] at hunchanged
      rw [hunchanged, metaEq_of_rows_eq_nil rfl |>.mpr rfl] at heq
      cases heq
    apply Table.ext
    show r.metaFields.rows = _
    rw [hempty]
    exact ((splitCombinedValues_rows_eq_nil text).mpr hrows).symm

/-- A batch leaves a document without a row with what it leaves a document whose row holds the
empty object, which is what the deletes leave of the updated empty object, under this condition:
where rows are searched document by document the deletes change nothing, and elsewhere the edits
come to nothing. -/
theorem batch_missing_iff (text : Value → Str) (e : Engine) (s : Store db)
    {docId' : Str} (doc : Document db docId) (doc' : Document db docId')
    (hkb : doc'.kbId = doc.kbId) {docIds : List Str} (hmem : docId ∈ docIds)
    (hmem' : docId' ∈ docIds) (hrow : s.row doc = none) {r : Row db} (hrow' : s.row doc' = some r)
    (hempty : r.metaFields.rows = []) (updates : List UpdateOp) (deletes : List DeleteOp) :
    (getDocumentMetadata docId
          (batchUpdateMetadata text e doc.kbId docIds updates deletes s).1 =
        splitCombinedValues text
          (applyDeletes text deletes (applyUpdates text updates Table.empty).1).1 ∧
      getDocumentMetadata docId'
          (batchUpdateMetadata text e doc.kbId docIds updates deletes s).1 =
        splitCombinedValues text
          (applyDeletes text deletes (applyUpdates text updates Table.empty).1).1 ∧
      ((applyDeletes text deletes (applyUpdates text updates Table.empty).1).1.rows = [] →
        (batchUpdateMetadata text e doc.kbId docIds updates deletes s).1.row doc = none)) ↔
    if e.searchable = true
    then splitCombinedValues text (applyUpdates text updates Table.empty).1 =
      splitCombinedValues text
        (applyDeletes text deletes (applyUpdates text updates Table.empty).1).1
    else (applyDeletes text deletes (applyUpdates text updates Table.empty).1).1.rows = [] := by
  rw [getDocumentMetadata_eq doc, getDocumentMetadata_eq doc']
  generalize hm : (applyDeletes text deletes (applyUpdates text updates Table.empty).1).1 = m
  split_ifs with hsearchable
  · rw [row_batchUpdateMetadata_missing hsearchable doc hrow hmem, metadata_missingRow doc, ← hkb,
      row_batchUpdateMetadata hsearchable doc' hrow' hmem', metadata_editedRow_empty doc' hempty,
      hm]
    constructor
    · exact And.left
    · intro heq
      refine ⟨heq, rfl, fun hrows => ?_⟩
      rw [← splitCombinedValues_rows_eq_nil text, ← heq, splitCombinedValues_rows_eq_nil] at hrows
      exact if_pos hrows
  · rw [Bool.not_eq_true] at hsearchable
    rw [Store.row, Store.row, find_batchUpdateMetadata_not_searchable hsearchable, ← Store.row,
      ← Store.row, hrow, hrow', ← splitCombinedValues_rows_eq_nil text]
    constructor
    · intro h
      exact (congrArg Table.rows h.1).symm
    · intro hrows
      exact ⟨Table.ext hrows.symm, Table.ext (hempty.trans hrows.symm), fun _ => rfl⟩

end missing

/-- A document without a row keeps the key `a` that the deletes are to remove. -/
theorem batch_missing_keeps_key : ¬(getDocumentMetadata ['2'] (batchUpdateMetadata sampleText
      .elasticsearch ['k'] [['1'], ['2']] [sampleUpdate] [sampleDelete]
      (sampleStore Table.empty)).1 =
    splitCombinedValues sampleText (applyDeletes sampleText [sampleDelete]
      (applyUpdates sampleText [sampleUpdate] Table.empty).1).1) := by
  intro h
  have hrow : (batchUpdateMetadata sampleText .elasticsearch ['k'] [['1'], ['2']] [sampleUpdate]
      [sampleDelete] (sampleStore Table.empty)).1.row sampleSecond =
        missingRow sampleText [sampleUpdate] sampleSecond :=
    row_batchUpdateMetadata_missing rfl sampleSecond rfl (by decide)
  rw [getDocumentMetadata_eq sampleSecond, hrow, metadata_missingRow] at h
  have hkeys := congrArg keys h
  revert hkeys
  decide

theorem batch_missing_iff_kept_key : (sampleStore Table.empty).row sampleSecond = none ∧
    getDocumentMetadata ['2'] (batchUpdateMetadata sampleText .elasticsearch ['k'] [['1'], ['2']]
      [sampleUpdate] [] (sampleStore Table.empty)).1 =
    splitCombinedValues sampleText (applyDeletes sampleText []
      (applyUpdates sampleText [sampleUpdate] Table.empty).1).1 :=
  ⟨rfl, ((batch_missing_iff sampleText .elasticsearch (sampleStore Table.empty) sampleSecond
    sampleFirst rfl (by decide) (by decide) rfl rfl rfl [sampleUpdate] []).mpr rfl).1⟩

end RagFlow.DocMeta
