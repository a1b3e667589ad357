import Mathlib.Data.List.Basic
import Mathlib.Data.Nat.Basic
import Mathlib.Data.Nat.Find
import Mathlib.Tactic.SplitIfs
import RagFlow.Pages
import RagFlow.PyStr

/-! # Rows of a spreadsheet

`RAGFlowExcelParser` reads the rows of a sheet up to the row that `_get_actual_row_count` gives, and
cuts them into HTML tables.

* **Rows.** A large sheet is searched for its last row by bisection with a test on ten rows
  (`searchLoop`), and the next 500 rows are looked through.  `reached_iff`: no row is cut off
  exactly if the bisection is led to a row that is close enough to the last row with data.
* **Tables.** `html` makes `(len(rows) - 1) // chunk_rows + 1` tables of a sheet.  `tabled_iff`:
  they are as they should be exactly if the number of data rows is no multiple of `chunk_rows`. -/

namespace RagFlow.Excel

open Py Pages

/-! ### The rows of a sheet -/

/-- A worksheet.  Rows and columns are counted from 1, and a cell with a value is inside. -/
structure Worksheet where
  max_row : ℕ
  max_column : ℕ
  /-- `str(cell.value)` of a cell, `none` where the value is `None`. -/
  value : ℕ → ℕ → Option Str
  inside : ∀ r c, value r c ≠ none → (1 ≤ r ∧ r ≤ max_row) ∧ 1 ≤ c ∧ c ≤ max_column

/-- `range(a, b)`. -/
def pyRange (a b : ℕ) : List ℕ := List.range' a (b - a)

namespace Worksheet

variable (ws : Worksheet)

/-- `min(ws.max_column or 1, 50)`. -/
def maxCol : ℕ := min (if ws.max_column = 0 then 1 else ws.max_column) 50

/-- `row_has_data`. -/
def rowHasData (r : ℕ) : Bool :=
  (pyRange 1 (ws.maxCol + 1)).any fun c =>
    match ws.value r c with
    | some v => decide (strip v ≠ [])
    | none => false

/-- The first row with data among the ten rows from `mid`. -/
def window (mid : ℕ) : Option ℕ :=
  (pyRange mid (min (mid + 10) (ws.max_row + 1))).find? ws.rowHasData

/-- The bisection: the last data row found, when `last` is the one found before. -/
def searchLoop (left right last : ℕ) (hl : 1 ≤ left) : ℕ :=
  if left ≤ right then
    match ws.window ((left + right) / 2) with
    | some r => searchLoop ((left + right) / 2 + 1) right (max last r) (by omega)
    | none => searchLoop left ((left + right) / 2 - 1) last hl
  else last
termination_by right + 1 - left

/-- The last row with data among the 500 rows from `last`, `last` if there is none. -/
def lookOn (last : ℕ) : ℕ :=
  (pyRange last (min (last + 500) (ws.max_row + 1))).foldl
    (fun last_data_row r => if ws.rowHasData r then r else last_data_row) last

/-- `_get_actual_row_count`. -/
def actualRowCount : ℕ :=
  if ws.max_row = 0 then 0
  else if ws.max_row ≤ 10000 then ws.max_row
  else if ¬ (pyRange 1 (min 101 (ws.max_row + 1))).any ws.rowHasData then 0
  else ws.lookOn (ws.searchLoop 1 ws.max_row 1 le_rfl)

/-- The values of a row that `ws.iter_rows` yields. -/
def row (r : ℕ) : List (Option Str) := (pyRange 1 (ws.max_column + 1)).map (ws.value r)

/-- `_get_rows_limited`: the numbers of the rows. -/
def rowsLimited : List ℕ :=
  if ws.actualRowCount = 0 then [] else pyRange 1 (ws.actualRowCount + 1)

/-- The row has a cell among its first 50 that is not blank. -/
def NonBlank (r : ℕ) : Prop := ∃ c v, c ≤ 50 ∧ ws.value r c = some v ∧ strip v ≠ []

/-- No row is cut off: the iteration over the rows comes to every row that is not blank. -/
def Reached : Prop := ∀ r, ws.NonBlank r → r ≤ ws.actualRowCount ∧ r ∈ ws.rowsLimited

end Worksheet

/-! ### Bisection -/

/-- The bisection of `left … right` towards `t` visits the row `m`. -/
inductive Visits (t : ℕ) : ℕ → ℕ → ℕ → Prop where
  | here {left right : ℕ} (h : left ≤ right) : Visits t left right ((left + right) / 2)
  | higher {left right m : ℕ} (h : left ≤ right) (ht : (left + right) / 2 ≤ t)
      (hm : Visits t ((left + right) / 2 + 1) right m) : Visits t left right m
  | lower {left right m : ℕ} (h : left ≤ right) (ht : t < (left + right) / 2)
      (hm : Visits t left ((left + right) / 2 - 1) m) : Visits t left right m

theorem Visits.left_le {t left right m : ℕ} (h : Visits t left right m) (hl : 1 ≤ left) :
    left ≤ m := by
  induction h with
  | here h => omega
  | higher h _ _ ih =>
      have := ih (by omega)
      omega
  | lower h _ _ ih => exact ih hl

/-- A row with data is among the ten rows from `m`. -/
def Worksheet.DataFrom (ws : Worksheet) (m : ℕ) : Prop :=
  ∃ r, m ≤ r ∧ r < m + 10 ∧ ws.NonBlank r

/-- The condition under which no row is cut off. -/
def Worksheet.Found (ws : Worksheet) : Prop :=
  ws.max_row ≤ 10000 ∨ (∀ r, ¬ ws.NonBlank r) ∨
    (∃ r, r ≤ 100 ∧ ws.NonBlank r) ∧
    ∃ t, t ≤ ws.max_row ∧ (∀ m, Visits t 1 ws.max_row m → (ws.DataFrom m ↔ m ≤ t)) ∧
      ∀ r, ws.NonBlank r → r < max t 1 + 500

namespace Worksheet

variable {ws : Worksheet}

theorem mem_pyRange {a b r : ℕ} : r ∈ pyRange a b ↔ a ≤ r ∧ r < b := by
  unfold pyRange
  rw [List.mem_range'_1]
  omega

theorem NonBlank.bounds {r : ℕ} (h : ws.NonBlank r) : 1 ≤ r ∧ r ≤ ws.max_row := by
  obtain ⟨c, v, -, hv, -⟩ := h
  exact (ws.inside r c (by rw [hv]; exact Option.some_ne_none v)).1

/-- The test on a row sees the cells of the first 50 columns. -/
theorem rowHasData_iff {r : ℕ} : ws.rowHasData r = true ↔ ws.NonBlank r := by
  unfold rowHasData NonBlank
  rw [List.any_eq_true]
  constructor
  · rintro ⟨c, hc, h⟩
    rw [mem_pyRange] at hc
    have hle : ws.maxCol ≤ 50 := min_le_right _ _
    cases hv : ws.value r c with
    | none => rw [hv] at h; cases h
    | some v =>
        rw [hv] at h
        exact ⟨c, v, by omega, hv, of_decide_eq_true h⟩
  · rintro ⟨c, v, hc, hv, hblank⟩
    obtain ⟨-, hc1, hcmax⟩ := ws.inside r c (by rw [hv]; exact Option.some_ne_none v)
    refine ⟨c, mem_pyRange.mpr ⟨hc1, ?_⟩, ?_⟩
    · unfold maxCol
      rw [if_neg (by omega)]
      omega
    · rw [hv]
      exact decide_eq_true hblank

theorem window_eq_none {m : ℕ} : ws.window m = none ↔ ¬ ws.DataFrom m := by
  unfold window DataFrom
  rw [List.find?_eq_none]
  constructor
  · rintro h ⟨r, hle, hlt, hr⟩
    have hmax := hr.bounds.2
    exact h r (mem_pyRange.mpr ⟨hle, by omega⟩) (rowHasData_iff.mpr hr)
  · intro h r hmem hr
    rw [mem_pyRange] at hmem
    exact h ⟨r, hmem.1, by omega, rowHasData_iff.mp hr⟩

/-- The row a window gives is its first with data. -/
theorem window_eq_some {m r : ℕ} (h : ws.window m = some r) :
    ws.NonBlank r ∧ m ≤ r ∧ r < m + 10 ∧ ∀ r', m ≤ r' → ws.NonBlank r' → r ≤ r' := by
  unfold window pyRange at h
  rw [List.find?_range'_eq_some] at h
  obtain ⟨hr, hmem, hfirst⟩ := h
  rw [List.mem_range'_1] at hmem
  refine ⟨rowHasData_iff.mp hr, by omega, by omega, ?_⟩
  intro r' hle hr'
  by_contra hlt
  have hno := hfirst r' hle (by omega)
  rw [rowHasData_iff.mpr hr'] at hno
  cases hno

/-- What the loop over the last rows finds. -/
theorem foldl_look (l : List ℕ) (hl : l.Pairwise (· < ·)) (last : ℕ) (hlast : ∀ r ∈ l, last ≤ r) :
    let found := l.foldl (fun last_data_row r => if ws.rowHasData r then r else last_data_row) last
    last ≤ found ∧ (found = last ∨ found ∈ l) ∧ ∀ r ∈ l, ws.NonBlank r → r ≤ found := by
  induction l generalizing last with
  | nil => exact ⟨le_rfl, Or.inl rfl, by simp⟩
  | cons a l ih =>
      rw [List.pairwise_cons] at hl
      have ha := hlast a (by simp)
      rw [List.foldl_cons]
      by_cases hdata : ws.rowHasData a = true
      · rw [if_pos hdata]
        obtain ⟨hle, hmem, hall⟩ := ih hl.2 a (fun r hr => (hl.1 r hr).le)
        refine ⟨ha.trans hle, ?_, ?_⟩
        · rcases hmem with h | h
          · exact Or.inr (by rw [h]; exact List.mem_cons_self)
          · exact Or.inr (List.mem_cons_of_mem _ h)
        · intro r hr hblank
          rcases List.mem_cons.mp hr with rfl | hr
          · exact hle
          · exact hall r hr hblank
      · rw [if_neg hdata]
        obtain ⟨hle, hmem, hall⟩ := ih hl.2 last (fun r hr => hlast r (List.mem_cons_of_mem _ hr))
        refine ⟨hle, hmem.imp_right (List.mem_cons_of_mem _), ?_⟩
        intro r hr hblank
        rcases List.mem_cons.mp hr with rfl | hr
        · exact absurd (rowHasData_iff.mpr hblank) hdata
        · exact hall r hr hblank

theorem lookOn_spec (last : ℕ) :
    last ≤ ws.lookOn last ∧ ws.lookOn last < last + 500 ∧
      ∀ r, ws.NonBlank r → r < last + 500 → r ≤ ws.lookOn last := by
  have hpair : (pyRange last (min (last + 500) (ws.max_row + 1))).Pairwise (· < ·) :=
    List.pairwise_lt_range'
  have hle : ∀ r ∈ pyRange last (min (last + 500) (ws.max_row + 1)), last ≤ r := by
    intro r hr
    exact (mem_pyRange.mp hr).1
  obtain ⟨h1, h2, h3⟩ := @foldl_look ws _ hpair last hle
  refine ⟨h1, ?_, ?_⟩
  · rcases h2 with h | h
    · unfold lookOn
      omega
    · have := (mem_pyRange.mp h).2
      unfold lookOn
      omega
  · intro r hr hlt
    rcases Nat.lt_or_ge r last with h | h
    · exact h.le.trans h1
    · have hmax := hr.bounds.2
      exact h3 r (mem_pyRange.mpr ⟨h, by omega⟩) hr

/-! ### The end of the bisection -/

/-- A row whose ten rows have data, while those of the next row have none, has data. -/
theorem nonBlank_of_boundary {t : ℕ} (ht : ws.DataFrom t)
    (hnext : t = ws.max_row ∨ (t < ws.max_row ∧ ¬ ws.DataFrom (t + 1))) : ws.NonBlank t := by
  obtain ⟨r, hle, hlt, hr⟩ := ht
  have hmax := hr.bounds.2
  rcases hnext with h | ⟨-, h⟩
  · have : r = t := by omega
    rwa [this] at hr
  · by_contra hne
    have : r ≠ t := by
      rintro rfl
      exact hne hr
    exact h ⟨r, by omega, by omega, hr⟩

/-- Where the bisection ends: at a row with data and none in the ten rows after it, or at the row
before the first.  All its tests have the result they should have for this row. -/
theorem searchLoop_spec (left right last : ℕ) (hl : 1 ≤ left) (hlr : left ≤ right + 1)
    (hright : right = ws.max_row ∨ (right < ws.max_row ∧ ¬ ws.DataFrom (right + 1))) :
    ∃ t, left ≤ t + 1 ∧ t ≤ right ∧
      (t = ws.max_row ∨ (t < ws.max_row ∧ ¬ ws.DataFrom (t + 1))) ∧
      (left ≤ t → ws.NonBlank t) ∧
      (∀ m, Visits t left right m → (ws.DataFrom m ↔ m ≤ t)) ∧
      ws.searchLoop left right last hl = if left ≤ t then max last t else last := by
  induction left, right, last, hl using searchLoop.induct ws with
  | case1 left right last hl hle r hw ih =>
      obtain ⟨t, hmid, htr, hnext, hdata, hvisit, hloop⟩ := ih (by omega) hright
      obtain ⟨hr, hmr, hrm, hfirst⟩ := window_eq_some hw
      have hfrom : ws.DataFrom ((left + right) / 2) := ⟨r, hmr, hrm, hr⟩
      have ht : ws.NonBlank t := by
        rcases Nat.lt_or_ge ((left + right) / 2) t with h | h
        · exact hdata h
        · have heq : (left + right) / 2 = t := by omega
          rw [heq] at hfrom
          exact nonBlank_of_boundary hfrom hnext
      have hrt : r ≤ t := hfirst t (by omega) ht
      refine ⟨t, by omega, htr, hnext, fun _ => ht, ?_, ?_⟩
      · intro m hm
        cases hm with
        | here _ => exact ⟨fun _ => by omega, fun _ => hfrom⟩
        | higher _ _ hm => exact hvisit m hm
        | lower _ hlt _ => omega
      · rw [searchLoop, if_pos hle, hw]
        dsimp only
        rw [hloop, if_pos (by omega : left ≤ t)]
        split_ifs <;> omega
  | case2 left right last hl hle hw ih =>
      have hno := window_eq_none.mp hw
      have hsub : (left + right) / 2 - 1 + 1 = (left + right) / 2 := by omega
      obtain ⟨t, hlt, htr, hnext, hdata, hvisit, hloop⟩ := ih (by omega) (by
        refine Or.inr ⟨?_, by rwa [hsub]⟩
        rcases hright with h | ⟨h, -⟩ <;> omega)
      refine ⟨t, hlt, by omega, hnext, hdata, ?_, ?_⟩
      · intro m hm
        cases hm with
        | here _ => exact ⟨fun h => absurd h hno, fun _ => by omega⟩
        | higher _ _ _ => omega
        | lower _ _ hm => exact hvisit m hm
      · rw [searchLoop, if_pos hle, hw]
        exact hloop
  | case3 left right last hl hlt =>
      refine ⟨right, by omega, le_rfl, hright, fun h => by omega, ?_, ?_⟩
      · intro m hm
        cases hm <;> omega
      · rw [searchLoop, if_neg hlt, if_neg (by omega)]

/-- The tests of a bisection determine where it ends. -/
theorem eq_of_visits {s t left right : ℕ} (hs : left ≤ s + 1) (hsr : s ≤ right)
    (ht : left ≤ t + 1) (htr : t ≤ right) (hl : 1 ≤ left)
    (hvs : ∀ m, Visits s left right m → (ws.DataFrom m ↔ m ≤ s))
    (hvt : ∀ m, Visits t left right m → (ws.DataFrom m ↔ m ≤ t)) : s = t := by
  induction hn : right + 1 - left using Nat.strong_induction_on generalizing left right with
  | _ n ih =>
      rcases Nat.lt_or_ge right left with hlt | hle
      · omega
      have hs' := hvs _ (Visits.here hle)
      have ht' := hvt _ (Visits.here hle)
      by_cases hm : (left + right) / 2 ≤ s
      · have hmt : (left + right) / 2 ≤ t := ht'.mp (hs'.mpr hm)
        exact ih _ (by omega) (by omega) hsr (by omega) htr (by omega)
          (fun m h => hvs m (Visits.higher hle hm h))
          (fun m h => hvt m (Visits.higher hle hmt h)) rfl
      · have hmt : ¬ (left + right) / 2 ≤ t := fun h => hm (hs'.mp (ht'.mpr h))
        exact ih _ (by omega) hs (by omega) ht (by omega) hl
          (fun m h => hvs m (Visits.lower hle (by omega) h))
          (fun m h => hvt m (Visits.lower hle (by omega) h)) rfl

/-! ### Rows that are cut off -/

theorem mem_rowsLimited {r : ℕ} (h : 1 ≤ r) : r ∈ ws.rowsLimited ↔ r ≤ ws.actualRowCount := by
  unfold rowsLimited
  split_ifs with h0
  · rw [h0]
    exact iff_of_false List.not_mem_nil (by omega)
  · rw [mem_pyRange]
    omega

theorem reached_iff_le : ws.Reached ↔ ∀ r, ws.NonBlank r → r ≤ ws.actualRowCount := by
  constructor
  · intro h r hr
    exact (h r hr).1
  · intro h r hr
    exact ⟨h r hr, (mem_rowsLimited hr.bounds.1).mpr (h r hr)⟩

/-- The test on the first hundred rows. -/
theorem any_first_rows (hmax : 10000 < ws.max_row) :
    (pyRange 1 (min 101 (ws.max_row + 1))).any ws.rowHasData = true ↔
      ∃ r, r ≤ 100 ∧ ws.NonBlank r := by
  rw [List.any_eq_true]
  constructor
  · rintro ⟨r, hr, hdata⟩
    rw [mem_pyRange] at hr
    exact ⟨r, by omega, rowHasData_iff.mp hdata⟩
  · rintro ⟨r, hr, hdata⟩
    have hone := hdata.bounds.1
    exact ⟨r, mem_pyRange.mpr ⟨hone, by omega⟩, rowHasData_iff.mpr hdata⟩

/-- Where the search comes to, for a sheet with data in its first rows. -/
theorem actualRowCount_large (hmax : 10000 < ws.max_row) (hfirst : ∃ r, r ≤ 100 ∧ ws.NonBlank r) :
    ∃ t, t ≤ ws.max_row ∧ (∀ m, Visits t 1 ws.max_row m → (ws.DataFrom m ↔ m ≤ t)) ∧
      ws.actualRowCount = ws.lookOn (max t 1) := by
  obtain ⟨t, -, htr, -, -, hvisit, hloop⟩ :=
    @searchLoop_spec ws 1 ws.max_row 1 le_rfl (by omega) (Or.inl rfl)
  refine ⟨t, htr, hvisit, ?_⟩
  have hend : ws.searchLoop 1 ws.max_row 1 le_rfl = max t 1 := by
    rw [hloop]
    split_ifs <;> omega
  unfold actualRowCount
  rw [if_neg (by omega), if_neg (by omega), (any_first_rows hmax).mpr hfirst, hend]
  rfl

theorem reached_of_found (h : ws.Found) : ws.Reached := by
  rw [reached_iff_le]
  intro r hr
  have hbounds := hr.bounds
  rcases h with hsmall | hnone | ⟨hfirst, t, htr, hvisit, hclose⟩
  · unfold actualRowCount
    rw [if_neg (by omega), if_pos hsmall]
    exact hbounds.2
  · exact absurd hr (hnone r)
  · rcases Nat.lt_or_ge 10000 ws.max_row with hmax | hsmall
    · obtain ⟨s, hsr, hvisit', hcount⟩ := actualRowCount_large hmax hfirst
      have hst : s = t := eq_of_visits (by omega) hsr (by omega) htr le_rfl hvisit' hvisit
      subst hst
      rw [hcount]
      exact (lookOn_spec (max s 1)).2.2 r hr (hclose r hr)
    · unfold actualRowCount
      rw [if_neg (by omega), if_pos hsmall]
      exact hbounds.2

theorem found_of_reached (h : ws.Reached) : ws.Found := by
  rw [reached_iff_le] at h
  unfold Found
  rcases Nat.lt_or_ge 10000 ws.max_row with hmax | hsmall
  · refine Or.inr ?_
    by_cases hfirst : ∃ r, r ≤ 100 ∧ ws.NonBlank r
    · obtain ⟨t, htr, hvisit, hcount⟩ := actualRowCount_large hmax hfirst
      refine Or.inr ⟨hfirst, t, htr, hvisit, ?_⟩
      intro r hr
      have hle := h r hr
      have hlook := (@lookOn_spec ws (max t 1)).2.1
      omega
    · refine Or.inl (fun r hr => ?_)
      have hle := h r hr
      have hone := hr.bounds.1
      unfold actualRowCount at hle
      have hany : ¬ (pyRange 1 (min 101 (ws.max_row + 1))).any ws.rowHasData = true := by
        rw [any_first_rows hmax]
        exact hfirst
      rw [if_neg (by omega), if_neg (by omega), if_pos hany] at hle
      omega
  · exact Or.inl hsmall

/-- No row is cut off exactly if the sheet is small or empty, or has data in its first hundred rows
and the bisection is led to a row less than 500 rows above the last row with data. -/
theorem reached_iff (ws : Worksheet) : ws.Reached ↔ ws.Found :=
  ⟨found_of_reached, reached_of_found⟩

/-- A sheet without a gap of ten rows is read to its end. -/
theorem reached_of_no_gap (hfirst : ∃ r, r ≤ 100 ∧ ws.NonBlank r)
    (hgap : ∀ r, ws.NonBlank r → ∀ m, 1 ≤ m → m ≤ r → ws.DataFrom m) : ws.Reached := by
  obtain ⟨r₀, hr₀100, hr₀⟩ := hfirst
  -- the last row with data
  have hbound : ∀ r, ws.NonBlank r → r ≤ ws.max_row := fun r hr => hr.bounds.2
  obtain ⟨d, hd, hlast⟩ : ∃ d, ws.NonBlank d ∧ ∀ r, ws.NonBlank r → r ≤ d := by
    classical
    exact ⟨Nat.findGreatest ws.NonBlank ws.max_row, Nat.findGreatest_spec (hbound r₀ hr₀) hr₀,
      fun r hr => Nat.le_findGreatest (hbound r hr) hr⟩
  refine reached_of_found (Or.inr (Or.inr ⟨⟨r₀, hr₀100, hr₀⟩, d, hbound d hd, ?_, ?_⟩))
  · intro m hm
    have hone := hm.left_le le_rfl
    constructor
    · rintro ⟨r, hle, -, hr⟩
      exact hle.trans (hlast r hr)
    · intro hle
      exact hgap d hd m hone hle
  · intro r hr
    have := hlast r hr
    omega

end Worksheet

/-- A sheet with one column and data in the first and the last of 10001 rows. -/
def farRow : Worksheet where
  max_row := 10001
  max_column := 1
  value r c := if (r = 1 ∨ r = 10001) ∧ c = 1 then some "x".toList else none
  inside := by
    intro r c h
    have : (r = 1 ∨ r = 10001) ∧ c = 1 := by
      by_contra hno
      exact h (if_neg hno)
    omega

/-- The first test of the bisection, on the rows from 5001, ends the search for the last row. -/
theorem farRow_cut_off : farRow.NonBlank 10001 ∧ ¬ farRow.Reached := by
  have hblank : ∀ r, farRow.NonBlank r ↔ r = 1 ∨ r = 10001 := by
    intro r
    constructor
    · rintro ⟨c, v, -, hv, -⟩
      by_contra hno
      have hnone : farRow.value r c = none := if_neg (fun h => hno h.1)
      rw [hnone] at hv
      cases hv
    · intro h
      exact ⟨1, "x".toList, by omega, if_pos ⟨h, rfl⟩, by decide⟩
  refine ⟨(hblank 10001).mpr (Or.inr rfl), ?_⟩
  intro h
  rcases Worksheet.found_of_reached h with hsmall | hnone | ⟨-, t, htr, hvisit, hclose⟩
  · exact absurd hsmall (by decide)
  · exact hnone 1 ((hblank 1).mpr (Or.inl rfl))
  · have hfar := hclose 10001 ((hblank 10001).mpr (Or.inr rfl))
    obtain ⟨r, hle, hlt, hr⟩ := (hvisit 5001 (Visits.here (by decide))).mpr (by omega)
    rcases (hblank r).mp hr with rfl | rfl <;> omega

/-! ### Tables -/

/-- `html.escape` on one character. -/
def escapeChar (c : Char) : Str :=
  if c = '&' then "&amp;".toList
  else if c = '<' then "&lt;".toList
  else if c = '>' then "&gt;".toList
  else if c = '"' then "&quot;".toList
  else if c = Char.ofNat 39 then "&#x27;".toList
  else [c]

/-- `html.escape`. -/
def escape (s : Str) : Str := s.flatMap escapeChar

/-- `_fmt`. -/
def fmt : Option Str → Str
  | none => []
  | some v => strip v

/-- The row of the header. -/
def headRow (r : List (Option Str)) : Str :=
  "<tr>".toList ++ r.flatMap (fun t => "<th>".toList ++ escape (fmt t) ++ "</th>".toList) ++
    "</tr>".toList

/-- The row of a data row. -/
def bodyRow (r : List (Option Str)) : Str :=
  "<tr>".toList ++
    r.flatMap (fun c => match c with
      | none => "<td></td>".toList
      | some v => "<td>".toList ++ escape (fmt (some v)) ++ "</td>".toList) ++
    "</tr>".toList

/-- A table with the header and the given data rows. -/
def tableHtml (sheetname : Str) (header : List (Option Str))
    (rows : List (List (Option Str))) : Str :=
  "<table><caption>".toList ++ sheetname ++ "</caption>".toList ++ headRow header ++
    rows.flatMap bodyRow ++ "</table>\n".toList

/-- The tables of the rows of a sheet, `none` for the exception of a division by zero. -/
def rowsHtml (sheetname : Str) (rows : List (List (Option Str))) (chunk_rows : ℕ) :
    Option (List Str) :=
  match rows with
  | [] => some []
  | header :: _ =>
      if chunk_rows = 0 then none
      else some ((List.range ((rows.length - 1) / chunk_rows + 1)).map fun chunk_i =>
        tableHtml sheetname header
          ((rows.drop (1 + chunk_i * chunk_rows)).take
            (min (1 + (chunk_i + 1) * chunk_rows) rows.length - (1 + chunk_i * chunk_rows))))

/-- The values of the rows of a sheet. -/
def Worksheet.rows (ws : Worksheet) : List (List (Option Str)) := ws.rowsLimited.map ws.row

/-- One turn of the loop over the sheets, `none` for a sheet whose rows raise an exception. -/
def sheetHtml (chunk_rows : ℕ) : Str × Option Worksheet → Option (List Str)
  | (_, none) => some []
  | (sheetname, some ws) => rowsHtml sheetname ws.rows chunk_rows

/-- `html` on the sheets of a workbook. -/
def html (wb : List (Str × Option Worksheet)) (chunk_rows : ℕ) : Option (List Str) :=
  (wb.mapM (sheetHtml chunk_rows)).map List.flatten

/-- The tables cut the data rows, each has the header and from 1 to `chunk_rows` data rows. -/
def Tabled (sheetname : Str) (header : List (Option Str)) (data : List (List (Option Str)))
    (chunk_rows : ℕ) (out : List Str) : Prop :=
  ∃ tables : List (List (List (Option Str))), out = tables.map (tableHtml sheetname header) ∧
    tables.flatten = data ∧ ∀ t ∈ tables, 1 ≤ t.length ∧ t.length ≤ chunk_rows

/-- The tables of the pages of the data rows. -/
def pagesHtml (sheetname : Str) (header : List (Option Str)) (data : List (List (Option Str)))
    (chunk_rows : ℕ) : List Str :=
  (List.range (data.length / chunk_rows + 1)).map fun i =>
    tableHtml sheetname header (page data chunk_rows i)

/-- The data rows of table `i` are page `i` of the data rows. -/
theorem rowsHtml_cons (sheetname : Str) (header : List (Option Str))
    (data : List (List (Option Str))) {chunk_rows : ℕ} (hc : 1 ≤ chunk_rows) :
    rowsHtml sheetname (header :: data) chunk_rows =
      some (pagesHtml sheetname header data chunk_rows) := by
  unfold rowsHtml pagesHtml
  dsimp only
  rw [if_neg (Nat.one_le_iff_ne_zero.mp hc), List.length_cons, Nat.add_sub_cancel]
  refine congrArg some (List.map_congr_left (fun i _ => ?_))
  rw [Nat.add_comm 1 (i * chunk_rows), Nat.add_comm 1 ((i + 1) * chunk_rows), List.drop_succ_cons]
  unfold page
  congr 1
  rw [Nat.succ_mul]
  rcases Nat.le_total (i * chunk_rows + chunk_rows) data.length with h | h
  · congr 1
    omega
  · rw [List.take_of_length_le, List.take_of_length_le]
    · rw [List.length_drop]
      omega
    · rw [List.length_drop]
      omega

theorem length_bodyRow_pos (r : List (Option Str)) : 0 < (bodyRow r).length := by
  have htag : 0 < "<tr>".toList.length := by decide
  unfold bodyRow
  rw [List.length_append, List.length_append]
  omega

/-- A data row adds text to its table. -/
theorem length_tableHtml_lt (sheetname : Str) (header : List (Option Str))
    {rows : List (List (Option Str))} (h : 1 ≤ rows.length) :
    (tableHtml sheetname header []).length < (tableHtml sheetname header rows).length := by
  cases rows with
  | nil => cases h
  | cons r rows =>
      have hpos := length_bodyRow_pos r
      unfold tableHtml
      rw [List.flatMap_nil, List.append_nil, List.flatMap_cons]
      simp only [List.length_append]
      omega

theorem tabled_of_not_dvd (sheetname : Str) (header : List (Option Str))
    {data : List (List (Option Str))} {chunk_rows : ℕ} (hc : 1 ≤ chunk_rows)
    (h : ¬ chunk_rows ∣ data.length) :
    Tabled sheetname header data chunk_rows (pagesHtml sheetname header data chunk_rows) := by
  have hlt : data.length / chunk_rows * chunk_rows < data.length := by
    have hle := Nat.div_mul_le_self data.length chunk_rows
    have hne : data.length / chunk_rows * chunk_rows ≠ data.length :=
      fun heq => h ⟨data.length / chunk_rows, by rw [Nat.mul_comm, heq]⟩
    omega
  refine ⟨(List.range (data.length / chunk_rows + 1)).map (page data chunk_rows), ?_, ?_, ?_⟩
  · rw [List.map_map]
    rfl
  · rw [← List.flatMap_def]
    refine flatMap_page_eq ?_
    rw [Nat.succ_mul]
    have := Nat.lt_div_mul_add (a := data.length) hc
    omega
  · intro t ht
    obtain ⟨i, hi, rfl⟩ := List.mem_map.mp ht
    refine ⟨?_, length_page_le _ _ _⟩
    have hle : i * chunk_rows ≤ data.length / chunk_rows * chunk_rows :=
      Nat.mul_le_mul_right _ (by rw [List.mem_range] at hi; omega)
    unfold page
    rw [List.length_take, List.length_drop]
    omega

theorem not_tabled_of_dvd (sheetname : Str) (header : List (Option Str))
    {data : List (List (Option Str))} {chunk_rows : ℕ} (h : chunk_rows ∣ data.length) :
    ¬ Tabled sheetname header data chunk_rows (pagesHtml sheetname header data chunk_rows) := by
  rintro ⟨tables, hout, -, hsize⟩
  -- the last page is empty, and a table without rows is shorter than one with rows
  have hempty : page data chunk_rows (data.length / chunk_rows) = [] := by
    unfold page
    rw [Nat.div_mul_cancel h, List.drop_length, List.take_nil]
  have hlast : tableHtml sheetname header [] ∈ tables.map (tableHtml sheetname header) := by
    rw [← hout, pagesHtml, List.mem_map]
    exact ⟨data.length / chunk_rows, List.mem_range.mpr (by omega), by rw [hempty]⟩
  obtain ⟨t, ht, heq⟩ := List.mem_map.mp hlast
  have hlen := length_tableHtml_lt sheetname header (hsize t ht).1
  rw [heq] at hlen
  omega

/-- The tables of a sheet are in order exactly if `chunk_rows` does not divide the number of its
data rows. -/
theorem tabled_iff (sheetname : Str) (ws : Worksheet) {header : List (Option Str)}
    {data : List (List (Option Str))} (hrows : ws.rows = header :: data) {chunk_rows : ℕ}
    (hc : 1 ≤ chunk_rows) :
    (∃ out, sheetHtml chunk_rows (sheetname, some ws) = some out ∧
        Tabled sheetname header data chunk_rows out) ↔ ¬ chunk_rows ∣ data.length := by
  have hsheet : sheetHtml chunk_rows (sheetname, some ws) =
      some (pagesHtml sheetname header data chunk_rows) := by
    show rowsHtml sheetname ws.rows chunk_rows = _
    rw [hrows, rowsHtml_cons sheetname header data hc]
  constructor
  · rintro ⟨out, hout, h⟩ hdvd
    rw [hsheet, Option.some_inj] at hout
    subst hout
    exact not_tabled_of_dvd sheetname header hdvd h
  · exact fun hdvd => ⟨_, hsheet, tabled_of_not_dvd sheetname header hc hdvd⟩

/-- A sheet with a header and two data rows in one column. -/
def threeRows : Worksheet where
  max_row := 3
  max_column := 1
  value r c := if (1 ≤ r ∧ r ≤ 3) ∧ c = 1 then some "x".toList else none
  inside := by
    intro r c h
    have : (1 ≤ r ∧ r ≤ 3) ∧ c = 1 := by
      by_contra hno
      exact h (if_neg hno)
    omega

theorem threeRows_tabled :
    1 ≤ 256 ∧ ∃ out, sheetHtml 256 ("s".toList, some threeRows) = some out ∧
      Tabled "s".toList [some "x".toList] [[some "x".toList], [some "x".toList]] 256 out :=
  ⟨by decide, (tabled_iff "s".toList threeRows (by decide +kernel) (by decide)).mpr (by decide)⟩

/-- With one data row in a table, the two data rows of the sheet make three tables, the last without
a data row. -/
theorem threeRows_not_tabled :
    ∃ out, sheetHtml 1 ("s".toList, some threeRows) = some out ∧ out.length = 3 ∧
      ¬ Tabled "s".toList [some "x".toList] [[some "x".toList], [some "x".toList]] 1 out := by
  have hrows : threeRows.rows =
      [some "x".toList] :: [[some "x".toList], [some "x".toList]] := by decide +kernel
  have hsheet : sheetHtml 1 ("s".toList, some threeRows) = some (pagesHtml "s".toList
      [some "x".toList] [[some "x".toList], [some "x".toList]] 1) := by
    show rowsHtml _ threeRows.rows 1 = _
    rw [hrows, rowsHtml_cons _ _ _ (Nat.le_refl 1)]
  exact ⟨_, hsheet, rfl, not_tabled_of_dvd _ _ (by decide)⟩

end RagFlow.Excel
