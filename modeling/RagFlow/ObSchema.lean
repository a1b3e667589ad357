import RagFlow.PyJson

/-! # Rows of OceanBase from documents of Elasticsearch

`schema.py` of `tools/es-to-oceanbase-migration`: the columns of the table and the conversion of
a document to a row.

* **Documents.** `Hit.doc` is a document as `scroll_documents` yields it: the fields of the source
  with the id, and the score, among them.
* **Conversion.** `convertDocument` converts the columns by their type, takes over vector fields and
  writes the other fields as the text of a dictionary under `extra`.
* **What a row tells.** `Recovers`: the values that the columns and `extra` of a row give back.
  `convertDocument_recovers`: they are those of the document, strings in arrays being cleaned.

The set of vector fields that the converter collects is left out; the conversion does not read
it. -/

namespace RagFlow.Ob

open Py Json

/-! ### Columns -/

/-- The definition of a column. -/
structure Column where
  name : Str
  obType : Str
  isArray : Bool := false
  isJson : Bool := false
  /-- The value of a document without the field. -/
  default : Option (ℤ ⊕ Str) := none

/-- `RAGFLOW_COLUMNS`. -/
def columns : List Column :=
  [{ name := "id", obType := "String(256)" },
    { name := "kb_id", obType := "String(256)" },
    { name := "doc_id", obType := "String(256)" },
    { name := "docnm_kwd", obType := "String(256)" },
    { name := "doc_type_kwd", obType := "String(256)" },
    { name := "title_tks", obType := "String(256)" },
    { name := "title_sm_tks", obType := "String(256)" },
    { name := "content_with_weight", obType := "LONGTEXT" },
    { name := "content_ltks", obType := "LONGTEXT" },
    { name := "content_sm_ltks", obType := "LONGTEXT" },
    { name := "pagerank_fea", obType := "Integer" },
    { name := "important_kwd", obType := "ARRAY(String(256))", isArray := true },
    { name := "important_tks", obType := "TEXT" },
    { name := "question_kwd", obType := "ARRAY(String(1024))", isArray := true },
    { name := "question_tks", obType := "TEXT" },
    { name := "tag_kwd", obType := "ARRAY(String(256))", isArray := true },
    { name := "tag_feas", obType := "JSON", isJson := true },
    { name := "available_int", obType := "Integer", default := some (.inl 1) },
    { name := "create_time", obType := "String(19)" },
    { name := "create_timestamp_flt", obType := "Double" },
    { name := "img_id", obType := "String(128)" },
    { name := "position_int", obType := "ARRAY(ARRAY(Integer))", isArray := true },
    { name := "page_num_int", obType := "ARRAY(Integer)", isArray := true },
    { name := "top_int", obType := "ARRAY(Integer)", isArray := true },
    { name := "knowledge_graph_kwd", obType := "String(256)" },
    { name := "source_id", obType := "ARRAY(String(256))", isArray := true },
    { name := "entity_kwd", obType := "String(256)" },
    { name := "entity_type_kwd", obType := "String(256)" },
    { name := "from_entity_kwd", obType := "String(256)" },
    { name := "to_entity_kwd", obType := "String(256)" },
    { name := "weight_int", obType := "Integer" },
    { name := "weight_flt", obType := "Double" },
    { name := "entities_kwd", obType := "ARRAY(String(256))", isArray := true },
    { name := "rank_flt", obType := "Double" },
    { name := "removed_kwd", obType := "String(256)", default := some (.inr "N") },
    { name := "metadata", obType := "JSON", isJson := true },
    { name := "extra", obType := "JSON", isJson := true },
    { name := "_order_id", obType := "Integer" },
    { name := "group_id", obType := "String(256)" },
    { name := "mom_id", obType := "String(256)" }]

def columnNames : List Str := columns.map (·.name)

/-- `ARRAY_COLUMNS`. -/
def arrayColumns : List Str :=
  ["important_kwd", "question_kwd", "tag_kwd", "source_id", "entities_kwd", "position_int",
    "page_num_int", "top_int"]

/-- `JSON_COLUMNS`. -/
def jsonColumns : List Str := ["tag_feas", "metadata", "extra"]

/-- The branches of the conversion of a value, in the order of their tests. -/
inductive Kind where
  | array
  | json
  | integer
  | double
  | text
  | string
  | other
  deriving DecidableEq

def Column.kind (c : Column) : Kind :=
  if c.isArray then .array
  else if c.isJson then .json
  else if contains "Integer" c.obType then .integer
  else if contains "Double" c.obType || contains "Float" c.obType then .double
  else if contains "LONGTEXT" c.obType || contains "TEXT" c.obType then .text
  else if contains "String" c.obType then .string
  else .other

/-- The field is that of a vector: `q_`, digits and `_vec` at its start. -/
def isVectorField (u : Unicode) (key : Str) : Bool :=
  let rest := key.drop 2
  let digits := rest.takeWhile (fun c => (u.digit c).isSome)
  startswith key "q_" && !digits.isEmpty && startswith (rest.drop digits.length) "_vec"

/-! ### Documents -/

variable {F : Type}

/-- The entries of a document or of a row. -/
abbrev Dict (F : Type) := List (Str × Json F)

/-- `d.get(key)`, a missing key being `None`. -/
def get (d : Dict F) (key : Str) : Json F := (d.lookup key).getD null

/-- A hit of a search.  Elasticsearch keeps the names of its metadata fields out of the source. -/
structure Hit (F : Type) where
  id : Str
  source : Dict F
  /-- The score, which may be null, if the response has one. -/
  score : Option (Json F)
  id_ne : id ≠ []
  wf : (dict source).WF
  score_wf : ∀ v ∈ score, v.WF
  metadata : ∀ key ∈ source.map Prod.fst, key ∉ (["_id", "_source", "_score"] : List Str)

/-- The document of a hit, as `scroll_documents` yields it. -/
def Hit.doc (hit : Hit F) : Dict F :=
  let doc := setItem "_id" (str hit.id) hit.source
  match hit.score with
  | none => doc
  | some score => setItem "_score" score doc

/-! ### Conversion of values -/

/-- `s.replace(c, r)` for a single character. -/
def replaceChar (c : Char) (r s : Str) : Str := s.flatMap (fun d => if d = c then r else [d])

/-- An item of an array, cleaned. -/
def clean : Json F → Json F
  | str s =>
      let s := strip s
      let s := replaceChar '\\' ['\\', '\\'] s
      let s := replaceChar '\n' ['\\', 'n'] s
      let s := replaceChar '\r' ['\\', 'r'] s
      let s := replaceChar '\t' ['\\', 't'] s
      str s
  | v => v

section convert
variable [Binary64 F]

/-- `_convert_array_value`. -/
def convertArrayValue : Json F → Json F
  | null => null
  | str s =>
      match (loads s : Option (Json F)) with
      | some _ => str s
      | none => str (list [(str s : Json F)]).dumps
  | list xs => str (list (xs.map clean)).dumps
  | v => str (list [v]).dumps

/-- `_convert_json_value`. -/
def convertJsonValue (u : Unicode) : Json F → Json F
  | null => null
  | str s => str s
  | dict d => str (dict d).dumps
  | list xs => str (list xs).dumps
  | v => str (v.toStr u)

/-- `_convert_integer`. -/
def convertInteger (u : Unicode) : Json F → Except Overflow (Json F)
  | null => .ok null
  | .bool b => .ok (int (if b then 1 else 0))
  | v =>
      match toInt u v with
      | .error e => .error e
      | .ok none => .ok null
      | .ok (some n) => .ok (int n)

/-- `_convert_float`. -/
def convertFloat : Json F → Except Overflow (Json F)
  | null => .ok null
  | v =>
      match toFloat v with
      | .error e => .error e
      | .ok none => .ok null
      | .ok (some x) => .ok (float x)

/-- `_convert_text`. -/
def convertText (u : Unicode) : Json F → Json F
  | null => null
  | dict d => str (dict d).dumps
  | list xs => str (list xs).dumps
  | v => str (v.toStr u)

/-- `_convert_string`. -/
def convertString (u : Unicode) (name : Str) : Json F → Json F
  | null => null
  | list xs =>
      if name = "kb_id" then
        match xs with
        | [] => null
        | x :: _ => str (x.toStr u)
      else str (list xs).dumps
  | dict d => str (dict d).dumps
  | v => str (v.toStr u)

/-- `_convert_field_value`. -/
def convertFieldValue (u : Unicode) (c : Column) (v : Json F) : Except Overflow (Json F) :=
  match c.kind with
  | .array => .ok (convertArrayValue v)
  | .json => .ok (convertJsonValue u v)
  | .integer => convertInteger u v
  | .double => convertFloat v
  | .text => .ok (convertText u v)
  | .string => .ok (convertString u c.name v)
  | .other => .ok (str (v.toStr u))

/-! ### Conversion of documents -/

/-- The exceptions of the conversion: a source that is not a dictionary has no fields. -/
inductive ConvertError where
  | attributeError
  | overflowError

/-- The field that a column is filled from. -/
def defaultValue (c : Column) : Option (Json F) :=
  c.default.map (fun d => match d with
    | .inl n => int n
    | .inr s => str s)

/-- What the conversion puts into a column: the value converted, the default if there is none, or
nothing. -/
def columnValue (u : Unicode) (source : Dict F) (c : Column) : Except Overflow (Option (Json F)) :=
  match get source c.name with
  | null => .ok (defaultValue c)
  | v =>
      match convertFieldValue u c v with
      | .error e => .error e
      | .ok w => .ok (some w)

/-- The step of the conversion for one column. -/
def convertColumn (u : Unicode) (source row : Dict F) (c : Column) : Except ConvertError (Dict F) :=
  if c.name = "id" then .ok row
  else
    match columnValue u source c with
    | .error .overflowError => .error .overflowError
    | .ok none => .ok row
    | .ok (some w) => .ok (setItem c.name w row)

def convertColumns (u : Unicode) (source : Dict F) :
    List Column → Dict F → Except ConvertError (Dict F)
  | [], row => .ok row
  | c :: cs, row => do
      let row ← convertColumn u source row c
      convertColumns u source cs row

/-- The step of the conversion for a field that may be a vector. -/
def takeVector (u : Unicode) (row : Dict F) (e : Str × Json F) : Dict F :=
  if isVectorField u e.1 then
    match e.2 with
    | list xs => setItem e.1 (list xs) row
    | _ => row
  else row

/-- The fields that are neither columns nor vectors. -/
def extraFields (u : Unicode) (source : Dict F) : Dict F :=
  source.filter (fun e => e.1 ∉ columnNames && !isVectorField u e.1)

/-- The other fields put under `extra`. -/
def addExtra (row fields : Dict F) : Dict F :=
  if fields.isEmpty then row
  else
    match get row "extra" with
    | dict existing =>
        if existing.isEmpty then setItem "extra" (str (dict fields).dumps) row
        else setItem "extra" (dict (fields.foldl (fun d e => setItem e.1 e.2 d) existing)) row
    | _ => setItem "extra" (str (dict fields).dumps) row

/-- The identifier of the row. -/
def idRow (u : Unicode) (docId : Json F) (source : Dict F) : Dict F :=
  let truthy : Bool :=
    match docId with
    | null => false
    | str s => !s.isEmpty
    | list xs => !xs.isEmpty
    | dict d => !d.isEmpty
    | v => number v ≠ some (.fin 0)
  if truthy then [("id", str (docId.toStr u))]
  else
    match source.lookup ("id" : Str) with
    | none => []
    | some v => [("id", str (v.toStr u))]

/-- `convert_document` on the fields of the source. -/
def convertSource (u : Unicode) (docId : Json F) (source : Dict F) :
    Except ConvertError (Dict F) := do
  let row ← convertColumns u source columns (idRow u docId source)
  let row := source.foldl (takeVector u) row
  pure (addExtra row (extraFields u source))

/-- `convert_document`. -/
def convertDocument (u : Unicode) (doc : Dict F) : Except ConvertError (Dict F) :=
  match doc.lookup ("_source" : Str) with
  | none => convertSource u (get doc "_id") doc
  | some (dict source) => convertSource u (get doc "_id") source
  | some _ => .error .attributeError

/-! ### Columns of the row -/

section row
variable {u : Unicode} {source row row' : Dict F} {c : Column}

omit [Binary64 F] in
theorem get_setItem (k : Str) (v : Json F) (d : Dict F) : get (setItem k v d) k = v := by
  unfold get
  rw [lookup_setItem]
  rfl

omit [Binary64 F] in
theorem get_setItem_of_ne {k k' : Str} (h : k' ≠ k) (v : Json F) (d : Dict F) :
    get (setItem k v d) k' = get d k' := by
  unfold get
  rw [lookup_setItem_of_ne h]

/-- A column is filled with its value; the others and the identifier are left alone. -/
theorem convertColumn_get (h : convertColumn u source row c = .ok row') :
    (∀ k : Str, k ≠ c.name ∨ k = "id" → get row' k = get row k) ∧
      (c.name ≠ "id" → ∃ o, columnValue u source c = .ok o ∧
        get row' c.name = o.getD (get row c.name)) := by
  by_cases hid : c.name = "id"
  · unfold convertColumn at h
    rw [if_pos hid] at h
    cases h
    exact ⟨fun _ _ => rfl, fun hne => absurd hid hne⟩
  · unfold convertColumn at h
    rw [if_neg hid] at h
    cases hvalue : columnValue u source c with
    | error e =>
        rw [hvalue] at h
        cases h
    | ok o =>
        rw [hvalue] at h
        cases o with
        | none =>
            cases h
            exact ⟨fun _ _ => rfl, fun _ => ⟨none, rfl, rfl⟩⟩
        | some w =>
            cases h
            refine ⟨fun k hk => get_setItem_of_ne ?_ w row,
              fun _ => ⟨some w, rfl, get_setItem c.name w row⟩⟩
            rcases hk with hk | rfl
            · exact hk
            · exact Ne.symm hid

theorem convertColumns_get (cs : List Column) : ∀ {row row' : Dict F},
    (cs.map (·.name)).Nodup → convertColumns u source cs row = .ok row' →
      (∀ k : Str, k ∉ cs.map (·.name) ∨ k = "id" → get row' k = get row k) ∧
        ∀ c ∈ cs, c.name ≠ "id" → ∃ o, columnValue u source c = .ok o ∧
          get row' c.name = o.getD (get row c.name) := by
  induction cs with
  | nil =>
      intro row row' _ h
      cases h
      exact ⟨fun _ _ => rfl, fun c hc => by cases hc⟩
  | cons c cs ih =>
      intro row row' hnodup h
      rw [List.map_cons, List.nodup_cons] at hnodup
      unfold convertColumns at h
      cases hstep : convertColumn u source row c with
      | error e =>
          rw [hstep] at h
          cases h
      | ok row₁ =>
          rw [hstep] at h
          obtain ⟨hother, hown⟩ := convertColumn_get hstep
          obtain ⟨hothers, hcolumns⟩ := ih hnodup.2 h
          constructor
          · intro k hk
            rw [List.map_cons, List.mem_cons, not_or] at hk
            rw [hothers k (hk.imp_left And.right), hother k (hk.imp_left And.left)]
          · intro c' hc' hid
            rcases List.mem_cons.mp hc' with rfl | hc'
            · rw [hothers _ (Or.inl hnodup.1)]
              exact hown hid
            · have hne : c'.name ≠ c.name := by
                intro heq
                exact hnodup.1 (heq ▸ List.mem_map_of_mem hc')
              obtain ⟨o, ho, hget⟩ := hcolumns c' hc' hid
              rw [hother _ (Or.inl hne)] at hget
              exact ⟨o, ho, hget⟩

/-- The columns are converted unless one of them overflows. -/
theorem convertColumns_eq_ok (cs : List Column)
    (h : ∀ c ∈ cs, c.name ≠ "id" → ∃ o, columnValue u source c = .ok o) :
    ∀ row : Dict F, ∃ row', convertColumns u source cs row = .ok row' := by
  induction cs with
  | nil => exact fun row => ⟨row, rfl⟩
  | cons c cs ih =>
      intro row
      have hstep : ∃ row₁, convertColumn u source row c = .ok row₁ := by
        by_cases hid : c.name = "id"
        · exact ⟨row, by unfold convertColumn; rw [if_pos hid]⟩
        · obtain ⟨o, ho⟩ := h c List.mem_cons_self hid
          unfold convertColumn
          rw [if_neg hid, ho]
          cases o with
          | none => exact ⟨row, rfl⟩
          | some w => exact ⟨_, rfl⟩
      obtain ⟨row₁, hrow₁⟩ := hstep
      obtain ⟨row', hrow'⟩ := ih (fun c hc => h c (List.mem_cons_of_mem _ hc)) row₁
      refine ⟨row', ?_⟩
      unfold convertColumns
      rw [hrow₁]
      exact hrow'

/-! ### Vectors and other fields -/

omit [Binary64 F] in
theorem takeVector_get_of_ne {e : Str × Json F} {k : Str}
    (h : k ≠ e.1 ∨ isVectorField u e.1 = false) : get (takeVector u row e) k = get row k := by
  obtain ⟨key, v⟩ := e
  unfold takeVector
  rcases h with hne | hvector
  · split_ifs
    · cases v with
      | list xs => exact get_setItem_of_ne hne _ _
      | null | bool _ | int _ | float _ | str _ | dict _ => rfl
    · rfl
  · dsimp only at hvector ⊢
    rw [hvector]
    rfl

omit [Binary64 F] in
/-- Vectors change nothing but the vector fields of the source. -/
theorem foldl_takeVector_get {k : Str} (fields : Dict F)
    (h : isVectorField u k = false ∨ k ∉ fields.map Prod.fst) :
    ∀ row : Dict F, get (fields.foldl (takeVector u) row) k = get row k := by
  induction fields with
  | nil => exact fun _ => rfl
  | cons e fields ih =>
      intro row
      rw [List.map_cons, List.mem_cons, not_or] at h
      rw [List.foldl_cons, ih (h.imp_right And.right)]
      apply takeVector_get_of_ne
      by_cases hk : k = e.1
      · rcases h with h | h
        · exact Or.inr (hk ▸ h)
        · exact absurd hk h.1
      · exact Or.inl hk

omit [Binary64 F] in
/-- A vector field that is a list is taken over. -/
theorem foldl_takeVector_vector {k : Str} {xs : List (Json F)} (h : isVectorField u k = true)
    (fields : Dict F) (hnodup : (fields.map Prod.fst).Nodup) (hk : (k, list xs) ∈ fields) :
    ∀ row : Dict F, get (fields.foldl (takeVector u) row) k = list xs := by
  induction fields with
  | nil => cases hk
  | cons e fields ih =>
      intro row
      rw [List.map_cons, List.nodup_cons] at hnodup
      rw [List.foldl_cons]
      rcases List.mem_cons.mp hk with rfl | hk
      · rw [foldl_takeVector_get fields (Or.inr hnodup.1)]
        unfold takeVector
        rw [if_pos h]
        exact get_setItem k _ row
      · exact ih hnodup.2 hk _

/-! ### The table -/

/-- The names of the columns are distinct, none of them is the name of a vector, and those of the
metadata of a hit are not among them. -/
theorem columnNames_table : columnNames.Nodup ∧
    columnNames.all (fun k => !startswith k "q_") = true ∧ ("extra" : Str) ∈ columnNames ∧
    ("_id" : Str) ∉ columnNames ∧ ("_source" : Str) ∉ columnNames ∧
    ("_score" : Str) ∉ columnNames := by decide +kernel

theorem columnNames_nodup : columnNames.Nodup := columnNames_table.1

theorem extra_mem_columnNames : ("extra" : Str) ∈ columnNames := columnNames_table.2.2.1

/-- No column has the name of a vector. -/
theorem not_isVectorField_of_mem (u : Unicode) {k : Str} (h : k ∈ columnNames) :
    isVectorField u k = false := by
  have hk := List.all_eq_true.mp columnNames_table.2.1 k h
  unfold isVectorField
  rw [Bool.not_eq_true'] at hk
  rw [hk]
  rfl

theorem metadata_not_column : ("_id" : Str) ∉ columnNames ∧ ("_source" : Str) ∉ columnNames ∧
    ("_score" : Str) ∉ columnNames := columnNames_table.2.2.2

/-! ### Documents of hits -/

variable (hit : Hit F)

omit [Binary64 F] in
theorem lookup_doc {k : Str} (hid : k ≠ "_id") (hscore : k ≠ "_score") :
    hit.doc.lookup k = hit.source.lookup k := by
  unfold Hit.doc
  cases hit.score with
  | none => exact lookup_setItem_of_ne hid _ _
  | some score =>
      dsimp only
      rw [lookup_setItem_of_ne hscore, lookup_setItem_of_ne hid]

omit [Binary64 F] in
theorem lookup_doc_id : hit.doc.lookup ("_id" : Str) = some (str hit.id) := by
  unfold Hit.doc
  cases hit.score with
  | none => exact lookup_setItem _ _ _
  | some score =>
      dsimp only
      rw [lookup_setItem_of_ne (by decide), lookup_setItem]

omit [Binary64 F] in
theorem lookup_doc_source : hit.doc.lookup ("_source" : Str) = none := by
  rw [lookup_doc hit (by decide) (by decide)]
  cases h : hit.source.lookup ("_source" : Str) with
  | none => rfl
  | some v =>
      have hmem := List.mem_map_of_mem (f := Prod.fst) (Dict.mem_of_lookup h)
      exact absurd (List.mem_cons_of_mem _ List.mem_cons_self) (hit.metadata _ hmem)

omit [Binary64 F] in
theorem doc_wf : (dict hit.doc).WF := by
  have hdoc := setItem_wf (k := "_id") (v := (str hit.id : Json F)) trivial hit.wf
  unfold Hit.doc
  cases hscore : hit.score with
  | none => exact hdoc
  | some score => exact setItem_wf (hit.score_wf score hscore) hdoc

omit [Binary64 F] in
theorem filter_wf {d : Dict F} (p : Str × Json F → Bool) (h : (dict d).WF) :
    (dict (d.filter p)).WF := by
  refine ⟨h.1.sublist (List.filter_sublist.map _), wfEntries_iff.mpr (fun e he => ?_)⟩
  exact wfEntries_iff.mp h.2 e (List.mem_filter.mp he).1

omit [Binary64 F] in
theorem extraFields_wf : (dict (extraFields u hit.doc)).WF := filter_wf _ (doc_wf hit)

omit [Binary64 F] in
/-- The identifier is among the other fields of every document. -/
theorem id_mem_extraFields : (("_id", str hit.id) : Str × Json F) ∈ extraFields u hit.doc := by
  refine List.mem_filter.mpr ⟨Dict.mem_of_lookup (lookup_doc_id hit), ?_⟩
  rw [Bool.and_eq_true, decide_eq_true_iff, Bool.not_eq_true']
  exact ⟨metadata_not_column.1, rfl⟩

omit [Binary64 F] in
theorem lookup_extraFields {k : Str} (hcolumn : k ∉ columnNames)
    (hvector : isVectorField u k = false) (source : Dict F) :
    (extraFields u source).lookup k = source.lookup k := by
  unfold extraFields
  induction source with
  | nil => rfl
  | cons e source ih =>
      by_cases hk : k = e.1
      · have hkeep : (decide (e.1 ∉ columnNames) && !isVectorField u e.1) = true := by
          rw [← hk, hvector, Bool.not_false, Bool.and_true, decide_eq_true_iff]
          exact hcolumn
        rw [List.filter_cons, if_pos hkeep, List.lookup_cons, List.lookup_cons, hk,
          beq_self_eq_true]
      · rw [List.lookup_cons, beq_eq_false_iff_ne.mpr hk, List.filter_cons]
        split_ifs
        · rw [List.lookup_cons, beq_eq_false_iff_ne.mpr hk]
          exact ih
        · exact ih

/-! ### The row of a document -/

theorem convertDocument_eq :
    convertDocument u hit.doc = convertSource u (str hit.id) hit.doc := by
  unfold convertDocument
  rw [lookup_doc_source]
  dsimp only
  unfold get
  rw [lookup_doc_id]
  rfl

theorem idRow_hit (source : Dict F) :
    idRow u (str hit.id) source = [(("id" : Str), str hit.id)] := by
  have hne : (!hit.id.isEmpty) = true := by
    rw [Bool.not_eq_true', List.isEmpty_eq_false_iff]
    exact hit.id_ne
  unfold idRow
  dsimp only
  rw [if_pos hne]
  rfl

theorem convertJsonValue_ne_dict (v : Json F) (d : Dict F) : convertJsonValue u v ≠ dict d := by
  cases v <;> exact fun h => by cases h

/-- The fields put under `extra` when the row has no dictionary there. -/
theorem addExtra_get {fields : Dict F} (hne : fields ≠ []) (hrow : ∀ d, get row "extra" ≠ dict d) :
    get (addExtra row fields) "extra" = str (dict fields).dumps ∧
      ∀ k : Str, k ≠ "extra" → get (addExtra row fields) k = get row k := by
  have hadd : addExtra row fields = setItem "extra" (str (dict fields).dumps) row := by
    unfold addExtra
    rw [if_neg (by simpa using hne)]
    cases hextra : get row "extra" with
    | dict d => exact absurd hextra (hrow d)
    | null | bool _ | int _ | float _ | str _ | list _ => rfl
  rw [hadd]
  exact ⟨get_setItem _ _ _, fun k hk => get_setItem_of_ne hk _ _⟩

/-- What the row of a document holds. -/
structure RowOf (u : Unicode) (hit : Hit F) (row : Dict F) : Prop where
  id : get row "id" = str hit.id
  column : ∀ c ∈ columns, c.name ≠ "id" → c.name ≠ "extra" →
    ∃ o, columnValue u hit.doc c = .ok o ∧ get row c.name = o.getD null
  vector : ∀ k xs, isVectorField u k = true → hit.doc.lookup k = some (list xs) →
    get row k = list xs
  extra : get row "extra" = str (dict (extraFields u hit.doc)).dumps

theorem columnValue_extra_ne_dict {o : Option (Json F)}
    (h : columnValue u source { name := "extra", obType := "JSON", isJson := true } = .ok o)
    (d : Dict F) : o.getD null ≠ dict d := by
  have hkind : ({ name := "extra", obType := "JSON", isJson := true } : Column).kind = .json := rfl
  unfold columnValue convertFieldValue at h
  rw [hkind] at h
  split at h
  · cases h
    exact fun h => by cases h
  · cases h
    exact convertJsonValue_ne_dict _ d

theorem convertDocument_rowOf {hit : Hit F} (h : convertDocument u hit.doc = .ok row) :
    RowOf u hit row := by
  rw [convertDocument_eq] at h
  unfold convertSource at h
  rw [idRow_hit] at h
  cases hcolumns : convertColumns u hit.doc columns [(("id" : Str), str hit.id)] with
  | error e =>
      rw [hcolumns] at h
      cases h
  | ok row₁ =>
      rw [hcolumns] at h
      cases h
      obtain ⟨hother, hown⟩ := convertColumns_get columns columnNames_nodup hcolumns
      have hnew : ∀ k : Str, k ≠ "id" →
          get ([(("id" : Str), str hit.id)] : Dict F) k = null := by
        intro k hk
        unfold get
        rw [List.lookup_cons, beq_eq_false_iff_ne.mpr hk]
        rfl
      have hvectors : ∀ k ∈ columnNames,
          get (hit.doc.foldl (takeVector u) row₁) k = get row₁ k := fun k hk =>
        foldl_takeVector_get hit.doc (Or.inl (not_isVectorField_of_mem u hk)) row₁
      have hextra : ∀ d, get (hit.doc.foldl (takeVector u) row₁) "extra" ≠ dict d := by
        intro d
        obtain ⟨o, ho, hget⟩ := hown { name := "extra", obType := "JSON", isJson := true }
          (List.mem_of_getElem? (i := 36) rfl) (by decide)
        rw [hvectors _ extra_mem_columnNames, hget, hnew _ (by decide)]
        exact columnValue_extra_ne_dict ho d
      obtain ⟨hadd, hkeep⟩ := addExtra_get (List.ne_nil_of_mem (id_mem_extraFields (u := u) hit))
        hextra
      refine ⟨?_, fun c hc hid hne => ?_, fun k xs hvector hk => ?_, hadd⟩
      · rw [hkeep _ (by decide), hvectors _ (by decide), hother _ (Or.inr rfl)]
        rfl
      · obtain ⟨o, ho, hget⟩ := hown c hc hid
        rw [hkeep _ hne, hvectors _ (List.mem_map_of_mem hc), hget, hnew _ hid]
        exact ⟨o, ho, rfl⟩
      · have hne : k ≠ "extra" := by
          rintro rfl
          rw [not_isVectorField_of_mem u extra_mem_columnNames] at hvector
          cases hvector
        rw [hkeep k hne]
        exact foldl_takeVector_vector hvector hit.doc (doc_wf hit).1 (Dict.mem_of_lookup hk) row₁

/-! ### Overflows -/

/-- The conversion of the column raises: an infinite float in an integer column, or an integer
beyond the floats in a double column. -/
def Overflows (source : Dict F) (c : Column) : Prop :=
  (c.kind = .integer ∧ ∃ neg, get source c.name = float (.inf neg)) ∨
    (c.kind = .double ∧ ∃ n, get source c.name = int n ∧ (Binary64.ofInt n : Option F) = none)

theorem convertInteger_eq_ok {v : Json F} (h : ∀ neg, v ≠ float (.inf neg)) :
    ∃ w, convertInteger u v = .ok w := by
  cases v with
  | null => exact ⟨_, rfl⟩
  | bool b => exact ⟨_, rfl⟩
  | int n => exact ⟨_, rfl⟩
  | float x =>
      cases x with
      | fin x => exact ⟨_, rfl⟩
      | inf neg => exact absurd rfl (h neg)
      | nan => exact ⟨_, rfl⟩
  | str s =>
      show ∃ w, (match (Except.ok (intOf u s) : Except Overflow (Option ℤ)) with
        | .error e => .error e
        | .ok none => .ok null
        | .ok (some n) => .ok (int n)) = Except.ok w
      cases intOf u s with
      | none => exact ⟨_, rfl⟩
      | some n => exact ⟨_, rfl⟩
  | list xs => exact ⟨_, rfl⟩
  | dict d => exact ⟨_, rfl⟩

theorem convertFloat_eq_ok {v : Json F}
    (h : ∀ n, v = int n → (Binary64.ofInt n : Option F) ≠ none) :
    ∃ w, convertFloat v = .ok w := by
  unfold convertFloat toFloat
  cases v with
  | null => exact ⟨_, rfl⟩
  | bool b =>
      obtain ⟨x, hx⟩ := Option.isSome_iff_exists.mp
        (Binary64.ofInt_isSome (F := F) (if b then 1 else 0) (by cases b <;> decide))
      dsimp only
      rw [hx]
      exact ⟨_, rfl⟩
  | int n =>
      obtain ⟨x, hx⟩ := Option.ne_none_iff_exists'.mp (h n rfl)
      dsimp only
      rw [hx]
      exact ⟨_, rfl⟩
  | float x => exact ⟨_, rfl⟩
  | str s =>
      dsimp only
      cases (Binary64.ofStr s : Option (PyFloat F)) with
      | none => exact ⟨_, rfl⟩
      | some x => exact ⟨_, rfl⟩
  | list xs => exact ⟨_, rfl⟩
  | dict d => exact ⟨_, rfl⟩

theorem columnValue_of_ne_null (h : get source c.name ≠ null) :
    columnValue u source c = (convertFieldValue u c (get source c.name)).map some := by
  unfold columnValue
  split
  · next hnull => exact absurd hnull h
  · cases convertFieldValue u c (get source c.name) with
    | error e => rfl
    | ok w => rfl

/-- A column whose conversion does not overflow gets a value or none. -/
theorem columnValue_eq_ok (h : ¬Overflows source c) : ∃ o, columnValue u source c = .ok o := by
  by_cases hnull : get source c.name = null
  · unfold columnValue
    rw [hnull]
    exact ⟨_, rfl⟩
  · rw [columnValue_of_ne_null hnull]
    have hvalue : ∃ w, convertFieldValue u c (get source c.name) = .ok w := by
      unfold convertFieldValue
      cases hkind : c.kind with
      | integer =>
          exact convertInteger_eq_ok (fun neg hv => h (Or.inl ⟨hkind, neg, hv⟩))
      | double =>
          exact convertFloat_eq_ok (fun n hv hn => h (Or.inr ⟨hkind, n, hv, hn⟩))
      | array | json | text | string | other => exact ⟨_, rfl⟩
    obtain ⟨w, hw⟩ := hvalue
    rw [hw]
    exact ⟨some w, rfl⟩

theorem convertDocument_eq_ok (h : ∀ c ∈ columns, ¬Overflows hit.doc c) :
    ∃ row, convertDocument u hit.doc = .ok row := by
  have hcolumns : ∀ row, ∃ row', convertColumns u hit.doc columns row = .ok row' :=
    convertColumns_eq_ok columns (fun c hc _ => columnValue_eq_ok (h c hc))
  obtain ⟨row₁, hrow₁⟩ := hcolumns (idRow u (str hit.id) hit.doc)
  rw [convertDocument_eq]
  unfold convertSource
  rw [hrow₁]
  exact ⟨_, rfl⟩

/-! ### What a row tells -/

omit [Binary64 F] in
theorem get_wf {d : Dict F} (h : (dict d).WF) (k : Str) : (get d k).WF := by
  unfold get
  cases hk : d.lookup k with
  | none => exact trivial
  | some v => exact wfEntries_iff.mp h.2 _ (Dict.mem_of_lookup hk)

omit [Binary64 F] in
theorem clean_wf {v : Json F} (h : v.WF) : (clean v).WF := by
  cases v with
  | str s => exact trivial
  | null | bool _ | int _ | float _ | list _ | dict _ => exact h

omit [Binary64 F] in
theorem map_clean_wf {xs : List (Json F)} (h : (list xs).WF) : (list (xs.map clean)).WF := by
  refine wfItems_iff.mpr (fun x hx => ?_)
  obtain ⟨y, hy, rfl⟩ := List.mem_map.mp hx
  exact clean_wf (wfItems_iff.mp h y hy)

/-- The string is left as it is by the cleaning. -/
def IsClean (s : Str) : Prop := strip s = s ∧ ∀ c ∈ s, c ∉ ['\\', '\n', '\r', '\t']

theorem replaceChar_of_not_mem {a : Char} {s : Str} (h : a ∉ s) (r : Str) :
    replaceChar a r s = s := by
  unfold replaceChar
  induction s with
  | nil => rfl
  | cons d s ih =>
      rw [List.mem_cons, not_or] at h
      rw [List.flatMap_cons, if_neg (Ne.symm h.1), ih h.2]
      rfl

omit [Binary64 F] in
theorem clean_str {s : Str} (h : IsClean s) : clean (str s : Json F) = str s := by
  have hmem : ∀ a : Char, a ∈ ['\\', '\n', '\r', '\t'] → a ∉ s := fun a ha hs => h.2 a hs ha
  unfold clean
  dsimp only
  rw [h.1, replaceChar_of_not_mem (hmem _ (by simp)), replaceChar_of_not_mem (hmem _ (by simp)),
    replaceChar_of_not_mem (hmem _ (by simp)), replaceChar_of_not_mem (hmem _ (by simp))]

omit [Binary64 F] in
theorem map_clean_eq_self {xs : List (Json F)} (h : ∀ s, str s ∈ xs → IsClean s) :
    xs.map clean = xs := by
  have hclean : ∀ x ∈ xs, clean x = id x := by
    intro x hx
    cases x with
    | str s => exact clean_str (h s hx)
    | null | bool _ | int _ | float _ | list _ | dict _ => rfl
  rw [List.map_congr_left hclean, List.map_id]

/-- The value of the row is a text that decodes to `v`. -/
def Decodes (row : Dict F) (k : Str) (v : Json F) : Prop :=
  ∃ t, get row k = str t ∧ loads t = some v

/-- The row gives back the fields of the source: arrays with their strings cleaned, the objects
and lists of JSON columns other than `extra` and of columns of text, the values that are of the
type of their column, vectors, and the fields without a column under `extra`. -/
structure Recovers (u : Unicode) (source row : Dict F) : Prop where
  array : ∀ c ∈ columns, c.kind = .array → ∀ xs, get source c.name = list xs →
    Decodes row c.name (list (xs.map clean)) ∧
      ((∀ s, str s ∈ xs → IsClean s) → Decodes row c.name (list xs))
  json : ∀ c ∈ columns, c.kind = .json → c.name ≠ "extra" → ∀ v, get source c.name = v →
    (∃ d, v = dict d) ∨ (∃ xs, v = list xs) → Decodes row c.name v
  integer : ∀ c ∈ columns, c.kind = .integer → ∀ n, get source c.name = int n →
    get row c.name = int n
  double : ∀ c ∈ columns, c.kind = .double → ∀ x, get source c.name = float x →
    get row c.name = float x
  text : ∀ c ∈ columns, c.kind = .text ∨ c.kind = .string ∨ c.kind = .json → c.name ≠ "id" →
    c.name ≠ "extra" → ∀ s, get source c.name = str s → get row c.name = str s
  object : ∀ c ∈ columns, c.kind = .text ∨ c.kind = .string → c.name ≠ "id" → ∀ v,
    get source c.name = v → (∃ d, v = dict d) ∨ (c.name ≠ "kb_id" ∧ ∃ xs, v = list xs) →
      Decodes row c.name v
  vector : ∀ k xs, isVectorField u k = true → source.lookup k = some (list xs) →
    get row k = list xs
  extra : ∃ t d, get row "extra" = str t ∧ loads t = some (dict d) ∧
    ∀ k, k ∉ columnNames → isVectorField u k = false → k ∈ source.map Prod.fst →
      d.lookup k = source.lookup k

/-- The types of the columns that are listed or treated by their names. -/
theorem columns_kinds : columns.all (fun c => c.kind ≠ .other ∧
    (c.kind = .array ↔ c.name ∈ arrayColumns) ∧ (c.kind = .json ↔ c.name ∈ jsonColumns) ∧
    (c.name = "id" ∨ c.name = "kb_id" → c.kind = .string) ∧
    (c.name = "content_with_weight" → c.kind = .text)) = true := by decide +kernel

theorem kind_of_column (hc : c ∈ columns) : c.kind ≠ .other ∧
    (c.kind = .array ↔ c.name ∈ arrayColumns) ∧ (c.kind = .json ↔ c.name ∈ jsonColumns) ∧
    (c.name = "id" ∨ c.name = "kb_id" → c.kind = .string) ∧
    (c.name = "content_with_weight" → c.kind = .text) :=
  of_decide_eq_true (List.all_eq_true.mp columns_kinds c hc)

theorem kind_array_iff (hc : c ∈ columns) : c.kind = .array ↔ c.name ∈ arrayColumns :=
  (kind_of_column hc).2.1

theorem kind_json_iff (hc : c ∈ columns) : c.kind = .json ↔ c.name ∈ jsonColumns :=
  (kind_of_column hc).2.2.1

theorem kind_of_id (hc : c ∈ columns) (h : c.name = "id") : c.kind = .string :=
  (kind_of_column hc).2.2.2.1 (Or.inl h)

theorem kind_of_kbId (hc : c ∈ columns) (h : c.name = "kb_id") : c.kind = .string :=
  (kind_of_column hc).2.2.2.1 (Or.inr h)

theorem kind_of_content (hc : c ∈ columns) (h : c.name = "content_with_weight") :
    c.kind = .text :=
  (kind_of_column hc).2.2.2.2 h

theorem kind_of_extra (hc : c ∈ columns) (h : c.name = "extra") : c.kind = .json :=
  (kind_json_iff hc).mpr (by rw [h]; decide)

omit [Binary64 F] in
theorem get_doc {k : Str} (h : k ∈ columnNames) : get hit.doc k = get hit.source k := by
  have hne : ∀ k' : Str, k' ∉ columnNames → k ≠ k' := fun k' hk' heq => hk' (heq ▸ h)
  unfold get
  rw [lookup_doc hit (hne _ metadata_not_column.1) (hne _ metadata_not_column.2.2)]

/-- The value that a field of the source leaves in its column. -/
theorem RowOf.get_column {hit : Hit F} (h : RowOf u hit row) (hc : c ∈ columns)
    (hid : c.name ≠ "id") (hextra : c.name ≠ "extra") (hv : get hit.source c.name ≠ null) :
    convertFieldValue u c (get hit.source c.name) = .ok (get row c.name) := by
  obtain ⟨o, ho, hget⟩ := h.column c hc hid hextra
  rw [← get_doc hit (List.mem_map_of_mem hc)] at hv ⊢
  rw [columnValue_of_ne_null hv] at ho
  cases hw : convertFieldValue u c (get hit.doc c.name) with
  | error e =>
      rw [hw] at ho
      cases ho
  | ok w =>
      rw [hw] at ho
      cases ho
      rw [hget]
      rfl

/-- The field of a column that is not `id` or `extra`, converted by the kind of the column. -/
theorem RowOf.get_kind {hit : Hit F} (h : RowOf u hit row) (hc : c ∈ columns)
    (hstring : c.kind = .string → c.name ≠ "id") (hjson : c.kind = .json → c.name ≠ "extra")
    {v : Json F} (hv : get hit.source c.name = v) (hne : v ≠ null) :
    v.WF ∧ convertFieldValue u c v = .ok (get row c.name) := by
  subst hv
  refine ⟨get_wf hit.wf c.name, h.get_column hc (fun hid => ?_) (fun hextra => ?_) hne⟩
  · exact hstring (kind_of_id hc hid) hid
  · exact hjson (kind_of_extra hc hextra) hextra

/-- Objects, and lists outside of `kb_id`, are written as JSON whatever the type of the column. -/
theorem RowOf.decodes_object {hit : Hit F} (h : RowOf u hit row) (hc : c ∈ columns)
    (hkind : c.kind = .json ∨ c.kind = .text ∨ c.kind = .string)
    (hstring : c.kind = .string → c.name ≠ "id") (hjson : c.kind = .json → c.name ≠ "extra")
    {v : Json F} (hv : get hit.source c.name = v)
    (hshape : (∃ d, v = dict d) ∨ (c.name ≠ "kb_id" ∧ ∃ xs, v = list xs)) :
    Decodes row c.name v := by
  obtain ⟨hwf, hvalue⟩ := h.get_kind hc hstring hjson hv
    (by rcases hshape with ⟨d, rfl⟩ | ⟨-, xs, rfl⟩ <;> simp)
  refine ⟨_, ?_, loads_dumps hwf⟩
  unfold convertFieldValue at hvalue
  rcases hshape with ⟨d, rfl⟩ | ⟨hne, xs, rfl⟩
  · rcases hkind with hkind | hkind | hkind
    · rw [hkind] at hvalue
      exact (Except.ok.inj hvalue).symm
    · rw [hkind] at hvalue
      exact (Except.ok.inj hvalue).symm
    · rw [hkind] at hvalue
      exact (Except.ok.inj hvalue).symm
  · rcases hkind with hkind | hkind | hkind
    · rw [hkind] at hvalue
      exact (Except.ok.inj hvalue).symm
    · rw [hkind] at hvalue
      exact (Except.ok.inj hvalue).symm
    · rw [hkind] at hvalue
      dsimp only [convertString] at hvalue
      rw [if_neg hne] at hvalue
      exact (Except.ok.inj hvalue).symm

/-- The row of a document gives back the fields of its source. -/
theorem RowOf.recovers {hit : Hit F} (h : RowOf u hit row) : Recovers u hit.source row := by
  constructor
  · intro c hc hkind xs hxs
    obtain ⟨hwf, hvalue⟩ := h.get_kind hc (by simp [hkind]) (by simp [hkind]) hxs (by simp)
    unfold convertFieldValue at hvalue
    rw [hkind] at hvalue
    have hdecodes : Decodes row c.name (list (xs.map clean)) :=
      ⟨_, (Except.ok.inj hvalue).symm, loads_dumps (map_clean_wf hwf)⟩
    refine ⟨hdecodes, fun hclean => ?_⟩
    rw [map_clean_eq_self hclean] at hdecodes
    exact hdecodes
  · intro c hc hkind hextra v hv hshape
    refine h.decodes_object hc (Or.inl hkind) (by simp [hkind]) (fun _ => hextra) hv ?_
    refine hshape.imp_right (fun hlist => ⟨fun hkb => ?_, hlist⟩)
    rw [kind_of_kbId hc hkb] at hkind
    cases hkind
  · intro c hc hkind n hn
    obtain ⟨-, hvalue⟩ := h.get_kind hc (by simp [hkind]) (by simp [hkind]) hn (by simp)
    unfold convertFieldValue at hvalue
    rw [hkind] at hvalue
    exact (Except.ok.inj hvalue).symm
  · intro c hc hkind x hx
    obtain ⟨-, hvalue⟩ := h.get_kind hc (by simp [hkind]) (by simp [hkind]) hx (by simp)
    unfold convertFieldValue at hvalue
    rw [hkind] at hvalue
    exact (Except.ok.inj hvalue).symm
  · intro c hc hkind hid hextra s hs
    obtain ⟨-, hvalue⟩ := h.get_kind hc (fun _ => hid) (fun _ => hextra) hs (by simp)
    unfold convertFieldValue at hvalue
    rcases hkind with hkind | hkind | hkind
    · rw [hkind] at hvalue
      exact (Except.ok.inj hvalue).symm
    · rw [hkind] at hvalue
      exact (Except.ok.inj hvalue).symm
    · rw [hkind] at hvalue
      exact (Except.ok.inj hvalue).symm
  · intro c hc hkind hid v hv hshape
    exact h.decodes_object hc (Or.inr hkind) (fun _ => hid)
      (by rcases hkind with hk | hk <;> simp [hk]) hv hshape
  · intro k xs hvector hk
    refine h.vector k xs hvector ?_
    rw [lookup_doc hit]
    · exact hk
    · rintro rfl
      cases hvector
    · rintro rfl
      cases hvector
  · refine ⟨_, _, h.extra, loads_dumps (extraFields_wf hit), fun k hcolumn hvector hk => ?_⟩
    rw [lookup_extraFields hcolumn hvector, lookup_doc hit]
    · rintro rfl
      exact hit.metadata _ hk (by decide)
    · rintro rfl
      exact hit.metadata _ hk (by decide)

end row

/-! ### The documents of an index -/

/-- **Rows give back the fields of documents.**  The row of a document as `scroll_documents` yields
it gives back the fields of its source, unless the conversion overflows. -/
theorem convertDocument_recovers (u : Unicode) (hit : Hit F)
    (h : ∀ c ∈ columns, ¬Overflows hit.source c) :
    ∃ row, convertDocument u hit.doc = .ok row ∧ Recovers u hit.source row := by
  obtain ⟨row, hrow⟩ := convertDocument_eq_ok (u := u) hit
    (fun c hc ho => h c hc (by rw [Overflows, ← get_doc hit (List.mem_map_of_mem hc)]; exact ho))
  exact ⟨row, hrow, (convertDocument_rowOf hrow).recovers⟩

theorem not_overflows {source : Dict F} (hint : ∀ n, (Binary64.ofInt n : Option F) ≠ none)
    (hinf : ∀ e ∈ source, ∀ neg, e.2 ≠ float (.inf neg)) (c : Column) : ¬Overflows source c := by
  rintro (⟨-, neg, hv⟩ | ⟨-, n, -, hn⟩)
  · unfold get at hv
    cases hk : source.lookup c.name with
    | none =>
        rw [hk] at hv
        cases hv
    | some v =>
        rw [hk] at hv
        exact hinf _ (Dict.mem_of_lookup hk) neg hv
  · exact hint n hn

/-- A string or a number. -/
def IsItem : Json F → Prop
  | str _ | int _ | float _ => True
  | _ => False

/-- The row determines the source: arrays of strings and numbers and the objects of JSON columns,
and under `extra` the fields without a column, those of the source's own `extra` and no others. -/
structure Lossless (u : Unicode) (source row : Dict F) : Prop where
  array : ∀ c ∈ columns, c.kind = .array → ∀ xs, (∀ x ∈ xs, IsItem x) →
    get source c.name = list xs → Decodes row c.name (list xs)
  json : ∀ c ∈ columns, c.kind = .json → c.name ≠ "extra" → ∀ d, get source c.name = dict d →
    Decodes row c.name (dict d)
  extra : get row "extra" = null ∧ extraFields u source = [] ∨
    ∃ d, Decodes row "extra" (dict d) ∧ (∀ e ∈ extraFields u source, d.lookup e.1 = some e.2) ∧
      (∀ own, get source "extra" = dict own → ∀ e ∈ own, e.1 ∉ source.map Prod.fst →
        d.lookup e.1 = some e.2) ∧
      ∀ k ∈ d.map Prod.fst, k ∈ source.map Prod.fst ∨
        ∃ own, get source "extra" = dict own ∧ k ∈ own.map Prod.fst

/-- The row of a document always has its identifier under `extra`, and nothing of the source's own
`extra`. -/
theorem extra_decodes {u : Unicode} {hit : Hit F} {row : Dict F}
    (h : convertDocument u hit.doc = .ok row) :
    Decodes row "extra" (dict (extraFields u hit.doc)) ∧
      (("_id", str hit.id) : Str × Json F) ∈ extraFields u hit.doc :=
  ⟨⟨_, (convertDocument_rowOf h).extra, loads_dumps (extraFields_wf hit)⟩, id_mem_extraFields hit⟩

end convert

/-! A document with a padded keyword, a field without a column and an `extra` of its own. -/

def paddedHit : Hit Tenths where
  id := "d1"
  source := [("kb_id", list [str "kb"]), ("important_kwd", list [str " a"]),
    ("weight_flt", float (.fin ⟨false, 0, 5⟩)), ("page", int 3),
    ("extra", dict [("lang", str "en")])]
  score := none
  id_ne := by simp
  wf := by
    refine ⟨by decide, ?_⟩
    simp [WFEntries, WF, WFItems]
  score_wf := fun _ h => by cases h
  metadata := by decide

theorem padded_recovers :
    ∃ row, convertDocument Unicode.ascii paddedHit.doc = .ok row ∧
      Recovers Unicode.ascii paddedHit.source row :=
  convertDocument_recovers Unicode.ascii paddedHit
    (fun c _ => not_overflows (by simp [Binary64.ofInt]) (by simp [paddedHit]) c)

theorem padded_not_lossless :
    ∃ row, convertDocument Unicode.ascii paddedHit.doc = .ok row ∧
      ¬Lossless Unicode.ascii paddedHit.source row := by
  obtain ⟨row, hrow⟩ := convertDocument_eq_ok (u := Unicode.ascii) paddedHit
    (fun c _ => not_overflows (by simp [Binary64.ofInt]) (by simp [paddedHit, Hit.doc, setItem]) c)
  refine ⟨row, hrow, fun h => ?_⟩
  have hkwd : (⟨"important_kwd", "ARRAY(String(256))", true, false, none⟩ : Column) ∈ columns :=
    List.mem_of_getElem? (i := 11) rfl
  obtain ⟨t, ht, hload⟩ := h.array _ hkwd rfl [str " a"] (by simp [IsItem]) rfl
  obtain ⟨⟨t', ht', hload'⟩, -⟩ := (convertDocument_rowOf hrow).recovers.array _ hkwd rfl
    [str " a"] rfl
  rw [ht] at ht'
  cases ht'
  rw [hload] at hload'
  cases hload'

end RagFlow.Ob
