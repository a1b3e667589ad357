import RagFlow.DocMetadata

/-! # Metadata extracted while a document is parsed

The parsing of a document extracts metadata from its chunks (`build_chunks` and `run_dataflow` of
`rag/svr/task_executor.py`).  The objects of the chunks are merged into one by
`update_metadata_to` of `common/metadata_utils.py`, then the stored metadata is merged into that,
and the result replaces the stored row.

`update_metadata_to` takes over strings and the strings in lists and drops everything else.  In
the second merge it is the stored metadata that is filtered so: `autoMetadata_keeps_iff` says
that nothing of it is lost exactly if nothing was extracted, or the stored values are strings or
lists and the lists without a string stand under extracted keys. -/

namespace RagFlow.DocMeta

open Py
open Agent (Value)

/-! ### Merging -/

/-- `isinstance(v, str)`. -/
def isStr : Value → Bool
  | .str _ => true
  | _ => false

/-- `isinstance(v, (str, list))`. -/
def isText : Value → Bool
  | .str _ | .list _ => true
  | _ => false

section merge
variable (text : Value → Str) (loads : Str → Option Value)

/-- What `update_metadata_to` takes of a value. -/
def takeValue : Value → Option Value
  | .str s => some (.str s)
  | .list xs =>
      if xs.filter isStr = [] then none else some (.list (dedupeList text (xs.filter isStr)))
  | _ => none

/-- The value of a key after the value `v` was added to what it had. -/
def addValue : Option Value → Value → Value
  | some (.list ys), .list xs => .list (dedupeList text (ys ++ xs))
  | some (.list ys), v => .list (dedupeList text (ys ++ [v]))
  | _, v => v

/-- One round of the loop of `update_metadata_to`. -/
def mergeEntry (metadata : Meta) (entry : Str × Value) : Meta :=
  match takeValue text entry.2 with
  | none => metadata
  | some v =>
      metadata.put (entry.1, addValue text ((metadata.get? entry.1).map Prod.snd) v)

/-- `update_metadata_to`; `loads` is `json_repair.loads`, which may raise. -/
def updateMetadataTo (metadata : Meta) (m : Value) : Meta :=
  match m with
  | .dict entries => entries.foldl (mergeEntry text) metadata
  | .str s =>
      if s = [] then metadata
      else
        match loads s with
        | some (.dict entries) => entries.foldl (mergeEntry text) metadata
        | _ => metadata
  | _ => metadata

/-- The metadata extracted from the chunks of a document. -/
def extractMetadata (objs : List Value) : Meta :=
  objs.foldl (updateMetadataTo text loads) Table.empty

variable {db : Db} (e : Engine)

/-- What parsing does to the stored metadata. -/
def autoMetadata (docId : Str) (objs : List Value) (s : Store db) : Store db :=
  let metadata := extractMetadata text loads objs
  if metadata.rows = [] then s
  else
    let existing := getDocumentMetadata docId s
    (updateDocumentMetadata text e docId
      (updateMetadataTo text loads metadata (.dict existing.rows)) s).1

end merge

/-! ### What a merge does to the keys -/

section keys
variable {text : Value → Str} {loads : Str → Option Value} {m : Meta} {key : Str}

/-- The value of a key. -/
def value? (m : Meta) (key : Str) : Option Value := (m.get? key).map Prod.snd

theorem value?_mergeEntry (m : Meta) (entry : Str × Value) (key : Str) :
    value? (mergeEntry text m entry) key =
      if key = entry.1 then
        (match takeValue text entry.2 with
          | none => value? m key
          | some v => some (addValue text (value? m key) v))
      else value? m key := by
  unfold mergeEntry
  cases takeValue text entry.2 with
  | none => simp
  | some v =>
      unfold value?
      rw [Table.get?_put]
      split_ifs with hkey
      · simp [hkey]
      · rfl

/-- Extracted values are strings and lists. -/
theorem isText_addValue {old : Option Value} {v w : Value} (h : takeValue text v = some w) :
    isText (addValue text old w) = true := by
  have hw : isText w = true := by
    cases v with
    | str s =>
        obtain rfl := Option.some.inj h
        rfl
    | list xs =>
        simp only [takeValue] at h
        split_ifs at h
        obtain rfl := Option.some.inj h
        rfl
    | none | bool _ | int _ | float _ | dict _ => cases h
  unfold addValue
  split
  · rfl
  · rfl
  · exact hw

/-- All values are strings or lists. -/
def AllText (m : Meta) : Prop := ∀ key v, value? m key = some v → isText v = true

theorem AllText.mergeEntry (h : AllText m) (entry : Str × Value) :
    AllText (mergeEntry text m entry) := by
  intro key v hv
  rw [value?_mergeEntry] at hv
  split_ifs at hv with hkey
  · cases htake : takeValue text entry.2 with
    | none =>
        rw [htake] at hv
        exact h key v hv
    | some w =>
        rw [htake] at hv
        obtain rfl := Option.some.inj hv
        exact isText_addValue htake
  · exact h key v hv

theorem AllText.foldl (h : AllText m) (entries : List (Str × Value)) :
    AllText (entries.foldl (DocMeta.mergeEntry text) m) := by
  induction entries generalizing m with
  | nil => exact h
  | cons entry entries ih => exact ih (h.mergeEntry entry)

theorem AllText.updateMetadataTo (h : AllText m) (obj : Value) :
    AllText (updateMetadataTo text loads m obj) := by
  unfold DocMeta.updateMetadataTo
  split
  · exact h.foldl _
  · split_ifs
    · exact h
    · split
      · exact h.foldl _
      · exact h
  · exact h

theorem allText_extractMetadata (objs : List Value) :
    AllText (extractMetadata text loads objs) := by
  unfold extractMetadata
  have hempty : AllText Table.empty := fun key v hv => by cases hv
  generalize Table.empty = m at hempty
  induction objs generalizing m with
  | nil => exact hempty
  | cons obj objs ih => exact ih _ (hempty.updateMetadataTo obj)

variable (text loads) in
/-- The value of a key after metadata was merged in. -/
theorem value?_merge {entries : Meta} {v : Value} (h : (key, v) ∈ entries) (m : Meta) :
    value? (updateMetadataTo text loads m (.dict entries.rows)) key =
      match takeValue text v with
      | none => value? m key
      | some w => some (addValue text (value? m key) w) := by
  refine foldl_view_of_mem (fun m => value? m key) Prod.fst (a := (key, v)) ?_ ?_ entries.nodup h
    rfl
  · intro entry m hne
    show value? (mergeEntry text m entry) key = _
    rw [value?_mergeEntry, if_neg (Ne.symm hne)]
  · intro m' hm'
    show value? (mergeEntry text m' (key, v)) key = _
    rw [value?_mergeEntry, if_pos rfl]
    rw [show value? m' key = value? m key from hm']

theorem mem_keys_iff_isSome : key ∈ keys m ↔ (value? m key).isSome := by
  unfold keys value?
  rw [Table.mem_keys, Option.isSome_map, Option.isSome_iff_exists]

theorem value?_of_mem {v : Value} (h : (key, v) ∈ m) : value? m key = some v := by
  rw [value?, Table.get?_eq_some.mpr ⟨h, rfl⟩]
  rfl

theorem value?_splitCombinedValues :
    value? (splitCombinedValues text m) key = (value? m key).map (splitValue text) := by
  unfold value?
  rw [get?_splitCombinedValues, Option.map_map, Option.map_map]
  rfl

theorem isText_splitValue (v : Value) : isText (splitValue text v) = isText v := by
  cases v <;> rfl

end keys

/-! ### What parsing leaves of the stored metadata -/

section keep
variable {db : Db} {docId : Str} {text : Value → Str} {loads : Str → Option Value} {e : Engine}
  {s : Store db}

/-- Is a stored entry one that the merge keeps?  Numbers, booleans and objects are dropped, and so
are lists without a string unless their key was extracted. -/
def Kept (extracted : Meta) : Str × Value → Prop
  | (_, .str _) => True
  | (key, .list xs) => (∃ x ∈ xs, isStr x = true) ∨ key ∈ keys extracted
  | _ => False

/-- A document with stored metadata has a row, so its metadata can be written. -/
theorem writable_of_mem_metadata (doc : Document db docId) {entry : Str × Value}
    (h : entry ∈ getDocumentMetadata docId s) : Writable e doc.tenantId s := by
  right
  rw [getDocumentMetadata_eq doc, Store.row, Store.find] at h
  cases hindex : s doc.tenantId with
  | none =>
      rw [hindex] at h
      cases h
  | some index => rfl

/-- The merge of stored metadata into extracted metadata keeps an entry, its value included if that
is neither a string nor a list, exactly if it is of the kind that is kept. -/
theorem merge_keeps_iff {extracted existing : Meta} (hext : AllText extracted)
    {entry : Str × Value} (h : entry ∈ existing) :
    (entry.1 ∈ keys (splitCombinedValues text
          (updateMetadataTo text loads extracted (.dict existing.rows))) ∧
      (isText entry.2 = false → entry ∈ splitCombinedValues text
        (updateMetadataTo text loads extracted (.dict existing.rows)))) ↔
      Kept extracted entry := by
  obtain ⟨key, v⟩ := entry
  have hvalue := value?_merge text loads h extracted
  generalize updateMetadataTo text loads extracted (.dict existing.rows) = merged at hvalue ⊢
  rw [keys_splitCombinedValues, mem_keys_iff_isSome, hvalue]
  -- what is neither a string nor a list is not merged, and is not among the extracted values
  have hdropped : takeValue text v = none → isText v = false →
      (key, v) ∉ splitCombinedValues text merged := by
    intro htake hnot hmem
    rw [htake] at hvalue
    have hsplit := value?_of_mem hmem
    rw [value?_splitCombinedValues, hvalue, Option.map_eq_some_iff] at hsplit
    obtain ⟨w, hw, rfl⟩ := hsplit
    rw [isText_splitValue, hext key w hw] at hnot
    cases hnot
  cases v with
  | str t => simp [takeValue, isText, Kept]
  | list xs =>
      by_cases hstrs : xs.filter isStr = []
      · have hnone : ¬∃ x ∈ xs, isStr x = true := by
          rintro ⟨x, hx, hstr⟩
          exact List.ne_nil_of_mem (List.mem_filter.mpr ⟨hx, hstr⟩) hstrs
        have htake : takeValue text (.list xs) = none := if_pos hstrs
        rw [htake]
        constructor
        · rintro ⟨hkey, -⟩
          exact .inr (mem_keys_iff_isSome.mpr hkey)
        · intro hkept
          exact ⟨mem_keys_iff_isSome.mp (hkept.resolve_left hnone), fun hnot => by cases hnot⟩
      · obtain ⟨x, hx⟩ := List.exists_mem_of_ne_nil _ hstrs
        have htake : takeValue text (.list xs) =
            some (.list (dedupeList text (xs.filter isStr))) := if_neg hstrs
        rw [htake]
        exact iff_of_true ⟨rfl, fun hnot => by cases hnot⟩ (.inl ⟨x, List.mem_filter.mp hx⟩)
  | none | bool _ | int _ | float _ | dict _ =>
      exact iff_of_false (fun hkept => hdropped rfl rfl (hkept.2 rfl)) id

/-- Parsing keeps the keys of the stored metadata, and the values that are neither strings nor
lists, exactly if nothing was extracted or all stored entries are of the kind that is kept. -/
theorem autoMetadata_keeps_iff (text : Value → Str) (loads : Str → Option Value) (e : Engine)
    (s : Store db) (doc : Document db docId) (objs : List Value) :
    (∀ entry ∈ getDocumentMetadata docId s,
      entry.1 ∈ keys (getDocumentMetadata docId (autoMetadata text loads e docId objs s)) ∧
      (isText entry.2 = false →
        entry ∈ getDocumentMetadata docId (autoMetadata text loads e docId objs s))) ↔
    (extractMetadata text loads objs).rows = [] ∨
      ∀ entry ∈ getDocumentMetadata docId s, Kept (extractMetadata text loads objs) entry := by
  unfold autoMetadata
  by_cases hext : (extractMetadata text loads objs).rows = []
  · simp only [hext, if_true, true_or, iff_true]
    exact fun entry h => ⟨List.mem_map_of_mem h, fun _ => h⟩
  · simp only [hext, if_false, false_or]
    apply forall_congr'
    intro entry
    apply imp_congr_right
    intro h
    rw [getDocumentMetadata_updateDocumentMetadata text doc (writable_of_mem_metadata doc h)]
    exact merge_keeps_iff (allText_extractMetadata objs) h

end keep

/-- A stored number is lost when a string was extracted under another key. -/
theorem autoMetadata_loses_number : ¬∀ entry ∈ getDocumentMetadata ['1']
      (sampleStore ⟨[(['n'], .int 5)], List.nodup_singleton _⟩),
    entry.1 ∈ keys (getDocumentMetadata ['1'] (autoMetadata sampleText (fun _ => none) .infinity
      ['1'] [.dict [(['a'], .str ['x'])]]
      (sampleStore ⟨[(['n'], .int 5)], List.nodup_singleton _⟩))) ∧
    (isText entry.2 = false → entry ∈ getDocumentMetadata ['1'] (autoMetadata sampleText
      (fun _ => none) .infinity ['1'] [.dict [(['a'], .str ['x'])]]
      (sampleStore ⟨[(['n'], .int 5)], List.nodup_singleton _⟩))) := by
  intro h
  have hkey := (h (['n'], .int 5) List.mem_cons_self).1
  revert hkey
  decide

end RagFlow.DocMeta
