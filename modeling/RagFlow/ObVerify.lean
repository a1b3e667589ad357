import RagFlow.ObSchema

/-! # Verification of migrated documents

`verify.py` of `tools/es-to-oceanbase-migration`: `_compare_documents` compares a document with its
row field by field, normalising both values on its own.

* **Comparison.** `valuesEqual`, `compareDocuments`.
* **Agreement.** `Kept` says for each type of column which values the conversion and the comparison
  treat alike, `Agrees` says it of a column of a document.
* **One column.** The comparison of a field with its column is evaluated by the type of the column
  and the form of the value (`valuesEqual_of_ne_null`, `kept_iff`).
* **Documents.** `compare_iff`: a document and its row match on a list of columns exactly when each
  of them agrees. -/

namespace RagFlow.Ob

open Py Json

variable {F : Type} [Binary64 F]

/-! ### The comparison -/

/-- `VERIFY_FIELDS`. -/
def verifyFields : List Str :=
  ["id", "kb_id", "doc_id", "docnm_kwd", "content_with_weight", "available_int", "create_time"]

/-- The value that a string holds as a JSON text, or the value itself. -/
def tryLoads : Json F → Json F
  | str s => (loads s).getD (str s)
  | v => v

def isNull : Json F → Bool
  | null => true
  | _ => false

/-- The sets of the texts of the items are equal. -/
def sameTexts (u : Unicode) (xs ys : List (Json F)) : Bool :=
  (xs.map (toStr u)).all (fun t => t ∈ ys.map (toStr u)) &&
    (ys.map (toStr u)).all (fun t => t ∈ xs.map (toStr u))

/-- The comparison of two lists, if both are. -/
def compareLists (u : Unicode) : Json F → Json F → Option Bool
  | list xs, list ys => some (sameTexts u xs ys)
  | _, _ => none

/-- The value of `content_with_weight` in the row, decoded if the document has a dictionary. -/
def decodeContent : Json F → Json F → Json F
  | dict _, str s => tryLoads (str s)
  | _, ob => ob

/-- The first item of a list that has one. -/
def firstItem : Json F → Json F
  | list (x :: _) => x
  | v => v

/-- `_values_equal`. -/
def valuesEqual (u : Unicode) (field : Str) (es ob : Json F) : Bool :=
  if isNull es && isNull ob then true
  else if isNull es || isNull ob then false
  else
    let ob := if field ∈ arrayColumns then tryLoads ob else ob
    match if field ∈ arrayColumns then compareLists u es ob else none with
    | some b => b
    | none =>
        if field ∈ jsonColumns then eq (tryLoads es) (tryLoads ob)
        else
          let ob := if field = "content_with_weight" then decodeContent es ob else ob
          let es := if field = "kb_id" then firstItem es else es
          es.toStr u = ob.toStr u

/-- A field on which a document and its row differ. -/
structure Difference (F : Type) where
  field : Str
  esValue : Json F
  obValue : Json F

/-- `_compare_documents`. -/
def compareDocuments (u : Unicode) (esDoc obDoc : Dict F) (fields : List Str) :
    Bool × List (Difference F) :=
  let differences := fields.filterMap (fun field =>
    let es := get esDoc field
    let ob := get obDoc field
    if isNull es && isNull ob then none
    else if valuesEqual u field es ob then none
    else some ⟨field, es, ob⟩)
  (differences.isEmpty, differences)

/-! ### Agreement -/

/-- The conversion and the comparison treat the value alike in a column of its type. -/
def Kept (u : Unicode) (c : Column) (v : Json F) : Prop :=
  match c.kind with
  | .array =>
      match v with
      | list xs => sameTexts u xs (xs.map clean) = true
      | str s => ∃ w : Json F, loads s = some w ∧ w.toStr u = s
      | _ => False
  | .json =>
      match v with
      | dict _ | list _ | int _ | float (.fin _) => True
      | str s => loads s ≠ some (float .nan : Json F)
      | _ => False
  | .integer =>
      match v with
      | int _ => True
      | str s => ∃ n, s = intText n
      | _ => False
  | .double =>
      match v with
      | float _ => True
      | str s => ∃ x : PyFloat F, s = x.str
      | _ => False
  | .text =>
      match v with
      | dict d => c.name = "content_with_weight" ∨ (dict d).toStr u = (dict d).dumps
      | list xs => (list xs).toStr u = (list xs).dumps
      | _ => True
  | .string =>
      match v with
      | list xs => if c.name = "kb_id" then xs ≠ [] else (list xs).toStr u = (list xs).dumps
      | dict d => (dict d).toStr u = (dict d).dumps
      | _ => True
  | .other => True

/-- The column of a document survives the comparison with its row: the identifier is that of the
hit, `extra` is equal to the fields without a column, a missing field has no default, and any other
value is kept. -/
def Agrees (u : Unicode) (hit : Hit F) (c : Column) : Prop :=
  if c.name = "id" then
    get hit.source "id" ≠ null ∧ (get hit.source "id").toStr u = hit.id
  else if c.name = "extra" then
    get hit.source "extra" ≠ null ∧
      eq (tryLoads (get hit.source "extra")) (dict (extraFields u hit.doc)) = true
  else if isNull (get hit.source c.name) then c.default = none
  else Kept u c (get hit.source c.name)

/-! ### One field -/

section field
variable {u : Unicode} {field : Str} {es ob : Json F}

omit [Binary64 F] in
theorem isNull_iff {v : Json F} : isNull v = true ↔ v = null := by
  cases v <;> simp [isNull]

theorem valuesEqual_null : valuesEqual u field (null : Json F) ob = true ↔ ob = null := by
  cases ob <;> simp [valuesEqual, isNull]

theorem valuesEqual_null_right (hes : es ≠ null) : valuesEqual u field es null = false := by
  unfold valuesEqual
  cases es with
  | null => exact absurd rfl hes
  | bool _ | int _ | float _ | str _ | list _ | dict _ => rfl

theorem valuesEqual_of_ne_null (hes : es ≠ null) (hob : ob ≠ null) :
    valuesEqual u field es ob =
      match if field ∈ arrayColumns then
          compareLists u es (if field ∈ arrayColumns then tryLoads ob else ob) else none with
      | some b => b
      | none =>
          if field ∈ jsonColumns then
            eq (tryLoads es) (tryLoads (if field ∈ arrayColumns then tryLoads ob else ob))
          else
            let ob := if field ∈ arrayColumns then tryLoads ob else ob
            let ob := if field = "content_with_weight" then decodeContent es ob else ob
            let es := if field = "kb_id" then firstItem es else es
            es.toStr u = ob.toStr u := by
  have hes' : isNull es = false := by
    rw [← Bool.not_eq_true, isNull_iff]
    exact hes
  have hob' : isNull ob = false := by
    rw [← Bool.not_eq_true, isNull_iff]
    exact hob
  unfold valuesEqual
  rw [hes', hob']
  rfl

end field

theorem tryLoads_of_some {s : Str} {v : Json F} (h : loads s = some v) : tryLoads (str s) = v := by
  simp [tryLoads, h]

theorem tryLoads_of_none {s : Str} (h : (loads s : Option (Json F)) = none) :
    tryLoads (str s : Json F) = str s := by
  simp [tryLoads, h]

theorem tryLoads_dumps {v : Json F} (h : v.WF) : tryLoads (str v.dumps) = v :=
  tryLoads_of_some (loads_dumps h)

theorem decodeContent_of_ne_dict {es : Json F} (h : ∀ d, es ≠ dict d) (ob : Json F) :
    decodeContent es ob = ob := by
  cases es with
  | dict d => exact absurd rfl (h d)
  | null | bool _ | int _ | float _ | str _ | list _ => rfl

omit [Binary64 F] in
theorem firstItem_of_ne_list {v : Json F} (h : ∀ xs, v ≠ list xs) : firstItem v = v := by
  cases v with
  | list xs => exact absurd rfl (h xs)
  | null | bool _ | int _ | float _ | str _ | dict _ => rfl

/-! ### The types of columns -/

section kinds
variable {u : Unicode} {c : Column} {v w : Json F}

theorem valuesEqual_array (hc : c ∈ columns) (hkind : c.kind = .array) (hv : v ≠ null)
    (hw : w ≠ null) :
    valuesEqual u c.name v w = true ↔
      (compareLists u v (tryLoads w)).getD (v.toStr u = (tryLoads w).toStr u) = true := by
  have harray := (kind_array_iff hc).mp hkind
  have hjson : c.name ∉ jsonColumns := fun h => by simp [(kind_json_iff hc).mpr h] at hkind
  have hcontent : c.name ≠ "content_with_weight" := fun h => by
    simp [kind_of_content hc h] at hkind
  have hkb : c.name ≠ "kb_id" := fun h => by simp [kind_of_kbId hc h] at hkind
  rw [valuesEqual_of_ne_null hv hw, if_pos harray, if_pos harray]
  cases compareLists u v (tryLoads w) with
  | some b => rfl
  | none =>
      dsimp only
      rw [if_neg hjson, if_neg hcontent, if_neg hkb]
      rfl

theorem valuesEqual_json (hc : c ∈ columns) (hkind : c.kind = .json) (hv : v ≠ null)
    (hw : w ≠ null) : valuesEqual u c.name v w = eq (tryLoads v) (tryLoads w) := by
  have harray : c.name ∉ arrayColumns := fun h => by simp [(kind_array_iff hc).mpr h] at hkind
  have hjson := (kind_json_iff hc).mp hkind
  rw [valuesEqual_of_ne_null hv hw, if_neg harray, if_neg harray]
  dsimp only
  rw [if_pos hjson]

theorem valuesEqual_plain (hc : c ∈ columns) (hkind : c.kind ≠ .array ∧ c.kind ≠ .json)
    (hv : v ≠ null) (hw : w ≠ null) :
    valuesEqual u c.name v w = true ↔
      (if c.name = "kb_id" then firstItem v else v).toStr u =
        (if c.name = "content_with_weight" then decodeContent v w else w).toStr u := by
  have harray : c.name ∉ arrayColumns := fun h => hkind.1 ((kind_array_iff hc).mpr h)
  have hjson : c.name ∉ jsonColumns := fun h => hkind.2 ((kind_json_iff hc).mpr h)
  rw [valuesEqual_of_ne_null hv hw, if_neg harray, if_neg harray]
  dsimp only
  rw [if_neg hjson, decide_eq_true_iff]

/-- Columns of numbers are compared by their texts. -/
theorem valuesEqual_number (hc : c ∈ columns) (hkind : c.kind = .integer ∨ c.kind = .double)
    (hv : v ≠ null) :
    valuesEqual u c.name v w = true ↔ w ≠ null ∧ v.toStr u = w.toStr u := by
  have hcontent : c.name ≠ "content_with_weight" := fun h => by
    simp [kind_of_content hc h] at hkind
  have hkb : c.name ≠ "kb_id" := fun h => by simp [kind_of_kbId hc h] at hkind
  by_cases hw : w = null
  · rw [hw, valuesEqual_null_right hv]
    exact iff_of_false Bool.false_ne_true (fun h => h.1 rfl)
  · rw [valuesEqual_plain hc (by rcases hkind with h | h <;> simp [h]) hv hw, if_neg hcontent,
      if_neg hkb]
    exact ⟨fun h => ⟨hw, h⟩, fun h => h.2⟩

/-! ### Arrays -/

/-- A single value is wrapped, and never equal to the list of it. -/
theorem array_single (hc : c ∈ columns) (hkind : c.kind = .array) (hv : v ≠ null) (hwf : v.WF)
    (hlist : ∀ xs, v ≠ list xs) : valuesEqual u c.name v (str (list [v]).dumps) = false := by
  have hload : tryLoads (str (list [v]).dumps) = list [v] := by
    have hwf' : (list [v]).WF := ⟨hwf, trivial⟩
    exact tryLoads_dumps hwf'
  have hnone : compareLists u v (list [v]) = none := by
    cases v with
    | list xs => exact absurd rfl (hlist xs)
    | null | bool _ | int _ | float _ | str _ | dict _ => rfl
  rw [← Bool.not_eq_true, valuesEqual_array hc hkind hv (by simp), hload, hnone, Option.getD_none,
    decide_eq_true_iff]
  exact toStr_ne_singleton u v

theorem array_kept_iff (hc : c ∈ columns) (hkind : c.kind = .array) (hv : v ≠ null) (hwf : v.WF) :
    valuesEqual u c.name v (convertArrayValue v) = true ↔ Kept u c v := by
  have hsingle := array_single (u := u) hc hkind hv hwf
  unfold Kept
  rw [hkind]
  cases v with
  | null => exact absurd rfl hv
  | bool b => simp [convertArrayValue, hsingle (by simp)]
  | int n => simp [convertArrayValue, hsingle (by simp)]
  | float x => simp [convertArrayValue, hsingle (by simp)]
  | dict d => simp [convertArrayValue, hsingle (by simp)]
  | list xs =>
      have hlist : tryLoads (str (list (xs.map clean)).dumps) = list (xs.map clean) :=
        tryLoads_dumps (map_clean_wf hwf)
      show valuesEqual u c.name (list xs) (str (list (xs.map clean)).dumps) = true ↔ _
      rw [valuesEqual_array hc hkind hv (by simp), hlist]
      rfl
  | str s =>
      cases hs : (loads s : Option (Json F)) with
      | none =>
          have hconvert : convertArrayValue (str s : Json F) =
              str (list [(str s : Json F)]).dumps := by
            simp [convertArrayValue, hs]
          rw [hconvert, hsingle (by simp)]
          simp [hs]
      | some w =>
          have hconvert : convertArrayValue (str s : Json F) = str s := by
            simp [convertArrayValue, hs]
          rw [hconvert, valuesEqual_array hc hkind hv (by simp), tryLoads_of_some hs]
          show decide (s = w.toStr u) = true ↔ _
          rw [decide_eq_true_iff]
          constructor
          · intro h
            exact ⟨w, hs, h.symm⟩
          · rintro ⟨w', hw', h⟩
            rw [hs] at hw'
            cases hw'
            exact h.symm

/-! ### Objects -/

/-- A value that is written as its own JSON text is read back. -/
theorem eq_tryLoads_self (hwf : v.WF) (hnumber : number v ≠ some .nan) (hv : tryLoads v = v)
    (hconvert : convertJsonValue u v = str v.dumps) :
    eq (tryLoads v) (tryLoads (convertJsonValue u v)) = true := by
  rw [hconvert, tryLoads_dumps hwf, hv]
  exact (eq_self_iff hwf).mpr hnumber

theorem json_kept_iff (hc : c ∈ columns) (hkind : c.kind = .json) (hv : v ≠ null) (hwf : v.WF) :
    valuesEqual u c.name v (convertJsonValue u v) = true ↔ Kept u c v := by
  have hconvert : convertJsonValue u v ≠ null := by
    cases v <;> simp [convertJsonValue] at hv ⊢
  rw [valuesEqual_json hc hkind hv hconvert]
  unfold Kept
  rw [hkind]
  cases v with
  | null => exact absurd rfl hv
  | bool b =>
      have hload : tryLoads (convertJsonValue u (bool b : Json F)) =
          str ((bool b : Json F).toStr u) := by
        cases b with
        | true => exact tryLoads_of_none rfl
        | false => exact tryLoads_of_none rfl
      rw [hload]
      simp [tryLoads, eq, same, number]
  | int n => exact iff_of_true (eq_tryLoads_self hwf (by simp [number]) rfl rfl) trivial
  | float x =>
      cases x with
      | fin x => exact iff_of_true (eq_tryLoads_self hwf (by simp [number]) rfl rfl) trivial
      | inf neg =>
          have hload : tryLoads (convertJsonValue u (float (.inf neg) : Json F)) =
              str (PyFloat.str (.inf neg : PyFloat F)) := by
            cases neg with
            | true => exact tryLoads_of_none rfl
            | false => exact tryLoads_of_none rfl
          rw [hload]
          simp [tryLoads, eq, same, number]
      | nan => simp [tryLoads, eq, number]
  | str s =>
      show eq (tryLoads (str s)) (tryLoads (str s : Json F)) = true ↔
        loads s ≠ some (float .nan : Json F)
      cases hs : (loads s : Option (Json F)) with
      | none =>
          rw [tryLoads_of_none hs]
          exact iff_of_true ((eq_self_iff (v := (str s : Json F)) trivial).mpr (by simp [number]))
            (by simp)
      | some w =>
          rw [tryLoads_of_some hs, eq_self_iff (loads_wf hs), ne_eq, number_eq_nan_iff, ne_eq,
            Option.some_inj]
  | list xs => exact iff_of_true (eq_tryLoads_self hwf (by simp [number]) rfl rfl) trivial
  | dict d => exact iff_of_true (eq_tryLoads_self hwf (by simp [number]) rfl rfl) trivial

/-! ### Numbers -/

/-- What is true of a text when it is that of the value it parses to is true of the texts of
values. -/
theorem printed_iff {α : Type} {s : Str} {P : Prop} (parse : Str → Option α) (print : α → Str)
    (hprint : ∀ a, parse (print a) = some a) (hnone : parse s = none → ¬P)
    (hsome : ∀ a, parse s = some a → (P ↔ s = print a)) : P ↔ ∃ a, s = print a := by
  cases hs : parse s with
  | none =>
      refine iff_of_false (hnone hs) ?_
      rintro ⟨a, rfl⟩
      rw [hprint] at hs
      cases hs
  | some a =>
      rw [hsome a hs]
      refine ⟨fun h => ⟨a, h⟩, ?_⟩
      rintro ⟨b, rfl⟩
      rw [hprint] at hs
      cases hs
      rfl

theorem integer_kept_iff (hc : c ∈ columns) (hkind : c.kind = .integer) (hv : v ≠ null)
    (hw : convertInteger u v = .ok w) : valuesEqual u c.name v w = true ↔ Kept u c v := by
  rw [valuesEqual_number hc (Or.inl hkind) hv]
  unfold Kept
  rw [hkind]
  cases v with
  | null => exact absurd rfl hv
  | bool b =>
      cases hw
      refine iff_of_false (fun h => ?_) id
      cases b with
      | true => exact absurd (show ("True" : Str) = intText 1 from h.2) (by decide)
      | false => exact absurd (show ("False" : Str) = intText 0 from h.2) (by decide)
  | int n =>
      cases hw
      exact iff_of_true ⟨by simp, rfl⟩ trivial
  | float x =>
      cases x with
      | fin x =>
          cases hw
          exact iff_of_false (fun h => repr_ne_intText x _ h.2) id
      | inf neg => cases hw
      | nan =>
          cases hw
          exact iff_of_false (fun h => h.1 rfl) id
  | str s =>
      refine printed_iff (intOf u) intText (intOf_intText u) (fun hs h => ?_) (fun n hs => ?_)
      · simp [convertInteger, toInt, hs] at hw
        exact h.1 hw.symm
      · simp [convertInteger, toInt, hs] at hw
        rw [← hw]
        exact ⟨fun h => h.2, fun h => ⟨by simp, h⟩⟩
  | list xs =>
      cases hw
      exact iff_of_false (fun h => h.1 rfl) id
  | dict d =>
      cases hw
      exact iff_of_false (fun h => h.1 rfl) id

theorem repr_ne_cons (x : F) {d : Char} (hd : d ≠ '-' ∧ d.isDigit = false) (t : Str) :
    FloatText.repr x ≠ d :: t := by
  obtain ⟨c, t', hc, hhead⟩ := real_head (FloatText.repr_real x)
  rw [hc]
  intro h
  cases h
  exact hhead.ne hd rfl

theorem double_kept_iff (hc : c ∈ columns) (hkind : c.kind = .double) (hv : v ≠ null)
    (hw : convertFloat v = .ok w) : valuesEqual u c.name v w = true ↔ Kept u c v := by
  rw [valuesEqual_number hc (Or.inr hkind) hv]
  unfold Kept
  rw [hkind]
  cases v with
  | null => exact absurd rfl hv
  | bool b =>
      cases hx : (Binary64.ofInt (if b then 1 else 0) : Option F) with
      | none => simp [convertFloat, toFloat, hx] at hw
      | some x =>
          simp [convertFloat, toFloat, hx] at hw
          rw [← hw]
          refine iff_of_false (fun h => ?_) id
          cases b with
          | true => exact repr_ne_cons x (d := 'T') (by decide) _ h.2.symm
          | false => exact repr_ne_cons x (d := 'F') (by decide) _ h.2.symm
  | int n =>
      cases hx : (Binary64.ofInt n : Option F) with
      | none => simp [convertFloat, toFloat, hx] at hw
      | some x =>
          simp [convertFloat, toFloat, hx] at hw
          rw [← hw]
          exact iff_of_false (fun h => repr_ne_intText x n h.2.symm) id
  | float x =>
      cases hw
      exact iff_of_true ⟨by simp, rfl⟩ trivial
  | str s =>
      refine printed_iff Binary64.ofStr (fun x : PyFloat F => x.str) Binary64.ofStr_str
        (fun hs h => ?_) (fun x hs => ?_)
      · simp [convertFloat, toFloat, hs] at hw
        exact h.1 hw.symm
      · simp [convertFloat, toFloat, hs] at hw
        rw [← hw]
        exact ⟨fun h => h.2, fun h => ⟨by simp, h⟩⟩
  | list xs =>
      cases hw
      exact iff_of_false (fun h => h.1 rfl) id
  | dict d =>
      cases hw
      exact iff_of_false (fun h => h.1 rfl) id

/-! ### Texts -/

theorem text_kept_iff (hc : c ∈ columns) (hkind : c.kind = .text) (hv : v ≠ null) (hwf : v.WF) :
    valuesEqual u c.name v (convertText u v) = true ↔ Kept u c v := by
  have hkb : c.name ≠ "kb_id" := fun h => by simp [kind_of_kbId hc h] at hkind
  have hconvert : convertText u v ≠ null := by
    cases v <;> simp [convertText] at hv ⊢
  rw [valuesEqual_plain hc (by simp [hkind]) hv hconvert, if_neg hkb]
  unfold Kept
  rw [hkind]
  have hplain : ∀ v : Json F, (∀ d, v ≠ dict d) → ∀ w,
      (if c.name = "content_with_weight" then decodeContent v w else w) = w := by
    intro v hd w
    split_ifs
    · exact decodeContent_of_ne_dict hd w
    · rfl
  cases v with
  | null => exact absurd rfl hv
  | bool b => rw [hplain _ (by simp)]; exact iff_of_true rfl trivial
  | int n => rw [hplain _ (by simp)]; exact iff_of_true rfl trivial
  | float x => rw [hplain _ (by simp)]; exact iff_of_true rfl trivial
  | str s => rw [hplain _ (by simp)]; exact iff_of_true rfl trivial
  | list xs => rw [hplain _ (by simp)]; rfl
  | dict d =>
      show _ ↔ c.name = "content_with_weight" ∨ (dict d).toStr u = (dict d).dumps
      by_cases hcontent : c.name = "content_with_weight"
      · have hload : decodeContent (dict d) (convertText u (dict d)) = dict d := tryLoads_dumps hwf
        rw [if_pos hcontent, hload]
        exact iff_of_true rfl (Or.inl hcontent)
      · rw [if_neg hcontent]
        exact ⟨Or.inr, fun h => h.resolve_left hcontent⟩

theorem string_kept_iff (hc : c ∈ columns) (hkind : c.kind = .string) (hv : v ≠ null) :
    valuesEqual u c.name v (convertString u c.name v) = true ↔ Kept u c v := by
  have hcontent : c.name ≠ "content_with_weight" := fun h => by
    simp [kind_of_content hc h] at hkind
  have hplain : ∀ w, w ≠ null → (valuesEqual u c.name v w = true ↔
      (if c.name = "kb_id" then firstItem v else v).toStr u = w.toStr u) := by
    intro w hw
    rw [valuesEqual_plain hc (by simp [hkind]) hv hw, if_neg hcontent]
  have hfirst : (∀ xs, v ≠ list xs) → (if c.name = "kb_id" then firstItem v else v) = v := by
    intro hlist
    split_ifs
    · exact firstItem_of_ne_list hlist
    · rfl
  unfold Kept
  rw [hkind]
  cases v with
  | null => exact absurd rfl hv
  | bool b =>
      rw [hplain _ (by simp [convertString]), hfirst (by simp)]
      exact iff_of_true rfl trivial
  | int n =>
      rw [hplain _ (by simp [convertString]), hfirst (by simp)]
      exact iff_of_true rfl trivial
  | float x =>
      rw [hplain _ (by simp [convertString]), hfirst (by simp)]
      exact iff_of_true rfl trivial
  | str s =>
      rw [hplain _ (by simp [convertString]), hfirst (by simp)]
      exact iff_of_true rfl trivial
  | dict d =>
      rw [hplain _ (by simp [convertString]), hfirst (by simp)]
      rfl
  | list xs =>
      show _ ↔ if c.name = "kb_id" then xs ≠ [] else (list xs).toStr u = (list xs).dumps
      by_cases hkb : c.name = "kb_id"
      · rw [if_pos hkb]
        cases xs with
        | nil =>
            have hnull : convertString u c.name (list [] : Json F) = null := by
              simp [convertString, hkb]
            rw [hnull, valuesEqual_null_right hv]
            simp
        | cons x xs =>
            have hstr : convertString u c.name (list (x :: xs)) = str (x.toStr u) := by
              simp [convertString, hkb]
            rw [hstr, hplain _ (by simp), if_pos hkb]
            exact iff_of_true rfl (List.cons_ne_nil _ _)
      · have hstr : convertString u c.name (list xs) = str (list xs).dumps := by
          unfold convertString
          dsimp only
          rw [if_neg hkb]
        rw [if_neg hkb, hstr, hplain _ (by simp), if_neg hkb]
        rfl

/-! ### Documents -/

/-- The comparison of a value with its conversion. -/
theorem kept_iff (hc : c ∈ columns) (hv : v ≠ null) (hwf : v.WF)
    (hw : convertFieldValue u c v = .ok w) :
    valuesEqual u c.name v w = true ↔ Kept u c v := by
  unfold convertFieldValue at hw
  cases hkind : c.kind with
  | array =>
      rw [hkind] at hw
      rw [← Except.ok.inj hw]
      exact array_kept_iff hc hkind hv hwf
  | json =>
      rw [hkind] at hw
      rw [← Except.ok.inj hw]
      exact json_kept_iff hc hkind hv hwf
  | integer =>
      rw [hkind] at hw
      exact integer_kept_iff hc hkind hv hw
  | double =>
      rw [hkind] at hw
      exact double_kept_iff hc hkind hv hw
  | text =>
      rw [hkind] at hw
      rw [← Except.ok.inj hw]
      exact text_kept_iff hc hkind hv hwf
  | string =>
      rw [hkind] at hw
      rw [← Except.ok.inj hw]
      exact string_kept_iff hc hkind hv
  | other =>
      exact absurd hkind (kind_of_column hc).1

end kinds

section documents
variable {u : Unicode} {hit : Hit F} {row : Dict F} {c : Column}

omit [Binary64 F] in
theorem defaultValue_eq_null_iff : (defaultValue c : Option (Json F)).getD null = null ↔
    c.default = none := by
  unfold defaultValue
  rcases c.default with _ | n | s
  · exact iff_of_true rfl rfl
  · exact iff_of_false (by simp) (by simp)
  · exact iff_of_false (by simp) (by simp)

/-- The comparison of a document with its row in one column. -/
theorem agrees_iff (h : RowOf u hit row) (hc : c ∈ columns) :
    valuesEqual u c.name (get hit.doc c.name) (get row c.name) = true ↔ Agrees u hit c := by
  rw [get_doc hit (List.mem_map_of_mem hc)]
  unfold Agrees
  by_cases hid : c.name = "id"
  · rw [if_pos hid, hid, h.id]
    by_cases hnull : get hit.source "id" = null
    · rw [hnull, valuesEqual_null]
      simp
    · have hplain := valuesEqual_plain (u := u) (w := (str hit.id : Json F)) hc
        (by simp [kind_of_id hc hid]) hnull (by simp)
      rw [hid, if_neg (by decide), if_neg (by decide)] at hplain
      rw [hplain]
      exact ⟨fun heq => ⟨hnull, heq⟩, fun heq => heq.2⟩
  · by_cases hextra : c.name = "extra"
    · rw [if_neg hid, if_pos hextra, hextra, h.extra]
      by_cases hnull : get hit.source "extra" = null
      · rw [hnull, valuesEqual_null]
        simp
      · have hjson := valuesEqual_json (u := u) (w := str (dict (extraFields u hit.doc)).dumps) hc
          (kind_of_extra hc hextra) hnull (by simp)
        rw [hextra, tryLoads_dumps (extraFields_wf hit)] at hjson
        rw [hjson]
        exact ⟨fun heq => ⟨hnull, heq⟩, fun heq => heq.2⟩
    · rw [if_neg hid, if_neg hextra]
      by_cases hnull : get hit.source c.name = null
      · obtain ⟨o, ho, hget⟩ := h.column c hc hid hextra
        have hvalue : columnValue u hit.doc c = .ok (defaultValue c) := by
          unfold columnValue
          rw [get_doc hit (List.mem_map_of_mem hc), hnull]
        rw [hvalue] at ho
        cases ho
        rw [hnull, valuesEqual_null, hget, if_pos (isNull_iff.mpr rfl)]
        exact defaultValue_eq_null_iff
      · rw [if_neg (by rw [isNull_iff]; exact hnull)]
        exact kept_iff hc hnull (get_wf hit.wf c.name) (h.get_column hc hid hextra hnull)

theorem compareDocuments_eq_true {esDoc obDoc : Dict F} {fields : List Str} :
    (compareDocuments u esDoc obDoc fields).1 = true ↔
      ∀ f ∈ fields, valuesEqual u f (get esDoc f) (get obDoc f) = true := by
  unfold compareDocuments
  dsimp only
  rw [List.isEmpty_iff, List.filterMap_eq_nil_iff]
  refine forall₂_congr (fun f _ => ?_)
  split_ifs with hnull heq
  · rw [Bool.and_eq_true, isNull_iff, isNull_iff] at hnull
    exact iff_of_true rfl (by rw [hnull.1, valuesEqual_null]; exact hnull.2)
  · exact iff_of_true rfl heq
  · exact iff_of_false (by simp) heq

/-- A column that overflows keeps the document from having a row. -/
theorem RowOf.not_overflows (h : RowOf u hit row) (hc : c ∈ columns) :
    ¬Overflows hit.source c := by
  have hdoc := get_doc hit (List.mem_map_of_mem (f := (·.name)) hc)
  rintro (⟨hkind, neg, hv⟩ | ⟨hkind, n, hv, hn⟩)
  · obtain ⟨-, hvalue⟩ := h.get_kind hc (by simp [hkind]) (by simp [hkind]) hv (by simp)
    unfold convertFieldValue at hvalue
    rw [hkind] at hvalue
    cases hvalue
  · obtain ⟨-, hvalue⟩ := h.get_kind hc (by simp [hkind]) (by simp [hkind]) hv (by simp)
    unfold convertFieldValue at hvalue
    rw [hkind] at hvalue
    simp [convertFloat, toFloat, hn] at hvalue

end documents

/-- **Verification of a document.**  A document and its row match on a list of columns exactly when
the conversion does not overflow and each of the columns agrees. -/
theorem compare_iff (u : Unicode) (hit : Hit F) (fields : List Str)
    (hfields : ∀ f ∈ fields, f ∈ columnNames) :
    (∃ row, convertDocument u hit.doc = .ok row ∧
        (compareDocuments u hit.doc row fields).1 = true) ↔
      (∀ c ∈ columns, ¬Overflows hit.source c) ∧
        ∀ c ∈ columns, c.name ∈ fields → Agrees u hit c := by
  constructor
  · rintro ⟨row, hrow, hmatch⟩
    have hrowOf := convertDocument_rowOf hrow
    rw [compareDocuments_eq_true] at hmatch
    exact ⟨fun c hc => hrowOf.not_overflows hc,
      fun c hc hf => (agrees_iff hrowOf hc).mp (hmatch c.name hf)⟩
  · rintro ⟨hoverflow, hagrees⟩
    obtain ⟨row, hrow⟩ := convertDocument_eq_ok (u := u) hit
      (fun c hc ho => hoverflow c hc
        (by rw [Overflows, ← get_doc hit (List.mem_map_of_mem hc)]; exact ho))
    refine ⟨row, hrow, compareDocuments_eq_true.mpr (fun f hf => ?_)⟩
    obtain ⟨c, hc, rfl⟩ := List.mem_map.mp (hfields f hf)
    exact (agrees_iff (convertDocument_rowOf hrow) hc).mpr (hagrees c hc hf)

/-! A document with the fields that are verified by default, and one without `available_int`, for
which the row has the default. -/

def availableHit : Hit Tenths where
  id := "d2"
  source := [("id", str "d2"), ("kb_id", list [str "kb"]), ("docnm_kwd", str "a.pdf"),
    ("content_with_weight", dict [("text", str "it"), ("weight", int 1)]),
    ("available_int", int 1), ("important_kwd", list [str "a"])]
  score := some null
  id_ne := by simp
  wf := by
    refine ⟨by decide, ?_⟩
    simp [WFEntries, WF, WFItems]
  score_wf := by
    rintro v ⟨⟩
    exact trivial
  metadata := by decide

def availableRow : Dict Tenths :=
  [("id", str "d2"), ("kb_id", str "kb"), ("docnm_kwd", str "a.pdf"),
    ("content_with_weight", str "\x7b\"text\": \"it\", \"weight\": 1\x7d"),
    ("important_kwd", str "[\"a\"]"), ("available_int", int 1), ("removed_kwd", str "N"),
    ("extra", str "\x7b\"_id\": \"d2\", \"_score\": null\x7d")]

theorem available_agrees :
    (∀ c ∈ columns, ¬Overflows availableHit.source c) ∧
      ∀ c ∈ columns, c.name ∈ verifyFields → Agrees Unicode.ascii availableHit c :=
  (compare_iff Unicode.ascii availableHit verifyFields (by decide)).mp
    ⟨availableRow, rfl, by decide +kernel⟩

theorem noScore_wf : ∀ v ∈ (none : Option (Json Tenths)), v.WF := by
  rintro v ⟨⟩

def plainHit : Hit Tenths where
  id := "d3"
  source := [("id", str "d3"), ("kb_id", str "kb"), ("content_with_weight", str "it")]
  score := none
  id_ne := by simp
  wf := by
    refine ⟨by decide, ?_⟩
    simp [WFEntries, WF]
  score_wf := noScore_wf
  metadata := by decide

/-- The row has the default of `available_int`, the document has nothing to compare it with. -/
theorem plain_differs :
    ∃ row, convertDocument Unicode.ascii plainHit.doc = .ok row ∧
      compareDocuments Unicode.ascii plainHit.doc row verifyFields =
        (false, [⟨"available_int", null, int 1⟩]) :=
  ⟨_, rfl, rfl⟩

end RagFlow.Ob
