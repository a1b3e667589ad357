import RagFlow.TaskRanges

/-! # The rows of a spreadsheet

The parser `Excel` of `rag/app/table.py`, which a task calls with its interval of rows, and
`row_number`, by which `queue_tasks` divides a workbook into tasks.

* **Headers.** `parseHeaders` finds the header rows of a sheet and their texts.
* **Rows.** `rowLoop` goes through the rows of a sheet below its headers with a number that is
  continued from sheet to sheet, and stops at the end of the interval; `call` goes through the
  sheets.
* **Failures.** A sheet without rows to count, such as a chart sheet, is passed over by
  `row_number` and by the loop over the sheets.  But `call` counts the rows of all sheets first,
  and there the exception ends it.
* **Tasks.** `callRows_eq`: a call that returns extracts the data rows of the workbook whose numbers
  are in its interval.  `tableTasks_cover_iff`: each data row is extracted by exactly one task,
  although the tasks are cut from a number of rows that counts the headers too, exactly when the
  rows of all sheets can be counted (or there are no data rows).

A row that is extracted is listed with its number here.  The descriptions of the images of a sheet,
which fill empty cells of its data frame, are left out. -/

namespace RagFlow.TableParser

open Py Interval

/-- What the parser reads of a character or of a cell. -/
structure CellText (V : Type) where
  /-- `str(value)`. -/
  str : V → Str
  /-- `str.isalpha` on a character. -/
  isAlpha : Char → Bool
  /-- `str.isdigit` on a character. -/
  isDigit : Char → Bool
  /-- `str.upper`. -/
  upper : Str → Str

/-- A merged range of cells; rows and columns count from 1. -/
structure MergedRange where
  minRow : ℕ
  maxRow : ℕ
  minCol : ℕ
  maxCol : ℕ

/-- A sheet: the rows of `iter_rows` up to the actual row count, and the merged ranges. -/
structure Sheet (V : Type) where
  rows : List (List (Option V))
  merged : List MergedRange
  /-- `max_row` or the access to a cell raises: a chart sheet has neither. -/
  countRaises : Bool := false
  /-- `iter_rows` raises. -/
  rowsRaise : Bool := false

/-- The values of a row, one for each column of the headers. -/
abbrev RowData (V : Type) := List (Option V)

/-! ### Access to the rows -/

section access
variable {V : Type}

/-- `_get_actual_row_count`: `none` is an exception. -/
def getActualRowCount (ws : Sheet V) : Option ℕ :=
  if ws.countRaises then none else some ws.rows.length

/-- `_get_rows_limited`: `none` is an exception. -/
def getRowsLimited (ws : Sheet V) : Option (List (List (Option V))) := do
  let actualRows ← getActualRowCount ws
  if actualRows = 0 then some [] else if ws.rowsRaise then none else some ws.rows

/-- The rows that the loop over the sheets goes through; a sheet is skipped when their access
raises. -/
def readRows (ws : Sheet V) : List (List (Option V)) := (getRowsLimited ws).getD []

end access

section parser
variable {V : Type} (t : CellText V)

/-! ### Headers -/

/-- `_looks_like_header`. -/
def looksLikeHeader (value : Str) : Bool :=
  if value.length < 1 then false
  else if value.any (fun c => 127 < c.toNat) then true
  else if 2 ≤ (value.filter t.isAlpha).length then true
  else ("()：:（）_-" : Str).any (· ∈ value)

/-- `value.replace(".", "").replace("-", "").replace(",", "").isdigit()`. -/
def isNumeric (value : Str) : Bool :=
  let digits := value.filter (fun c => c != '.' && c != '-' && c != ',')
  !digits.isEmpty && digits.all t.isDigit

/-- `_looks_like_data`. -/
def looksLikeData (value : Str) : Bool :=
  if value.length = 1 && t.upper value ∈ (["Y", "N", "M", "X", "/", "-"] : List Str) then true
  else if isNumeric t value then true
  else startswith value "0x" && value.length ≤ 10

/-- `_row_looks_like_header`. -/
def rowLooksLikeHeader (row : List (Option V)) : Bool :=
  let values := row.filterMap (Option.map (fun v => strip (t.str v)))
  let headerLike := values.countP (looksLikeHeader t)
  let dataLike := values.countP (fun v => !looksLikeHeader t v && looksLikeData t v)
  if values = [] then false else dataLike ≤ headerLike

/-- `_detect_header_rows`. -/
def detectHeaderRows (rows : List (List (Option V))) : ℕ :=
  if rows.length < 2 then 1
  else 1 + ((rows.take 5).tail.takeWhile (rowLooksLikeHeader t)).length

/-- `ws.cell(row, col).value`. -/
def cellValue (ws : Sheet V) (row col : ℕ) : Option V :=
  (ws.rows[row - 1]?).bind (fun r => (r[col - 1]?).bind id)

/-- `_get_merged_cell_value` and `_get_inherited_value`. -/
def mergedCellValue (ws : Sheet V) (row col : ℕ) : Option V :=
  match ws.merged.find? (fun m =>
      m.minRow ≤ row && row ≤ m.maxRow && (m.minCol ≤ col && col ≤ m.maxCol)) with
  | some m => cellValue ws m.minRow m.minCol
  | none => none

/-- `_is_valid_header_part`. -/
def isValidHeaderPart (value : Str) : Bool :=
  if value.length = 1 && t.upper value ∈ (["Y", "N", "M", "X"] : List Str) then false
  else if isNumeric t value then false
  else value ∉ (["/", "-", "+", "*", "="] : List Str)

/-- `f"Column_{n}"`. -/
def columnName (n : ℕ) : Str := "Column_" ++ toString n

/-- The parts of the header of a column, one for each header row that says something new. -/
def headerParts (ws : Sheet V) (headerRows col : ℕ) : List Str :=
  ((ws.rows.take headerRows).zipIdx).foldl (fun parts x =>
    match x.1[col]? with
    | none => parts
    | some cell =>
        match (mergedCellValue ws (x.2 + 1) (col + 1)).or cell with
        | none => parts
        | some v =>
            let value := strip (t.str v)
            if value ≠ [] ∧ value ∉ parts ∧ isValidHeaderPart t value then parts ++ [value]
            else parts) []

/-- `_build_hierarchical_headers`. -/
def buildHierarchicalHeaders (ws : Sheet V) (headerRows : ℕ) : List Str :=
  let maxCol := (ws.rows.take headerRows).foldl (fun m row => max m row.length) 0
  let headers := (List.range maxCol).map (fun col =>
    let parts := headerParts t ws headerRows col
    if parts = [] then columnName (col + 1) else List.intercalate "-" parts)
  headers.filter (fun h => h ≠ [] && h ≠ "-")

/-- `_parse_simple_headers`. -/
def parseSimpleHeaders (ws : Sheet V) : List Str × ℕ :=
  match ws.rows with
  | [] => ([], 0)
  | headerRow :: _ =>
      (headerRow.mapIdx (fun i cell =>
        match cell with
        | none => columnName (i + 1)
        | some v => if strip (t.str v) = [] then columnName (i + 1) else strip (t.str v)), 1)

/-- `_parse_multi_level_headers`. -/
def parseMultiLevelHeaders (ws : Sheet V) : List Str × ℕ :=
  if ws.rows.length < 2 then ([], 0)
  else
    let headerRows := detectHeaderRows t ws.rows
    if headerRows = 1 then parseSimpleHeaders t ws
    else (buildHierarchicalHeaders t ws headerRows, headerRows)

/-- `_parse_headers`: the headers and the number of header rows. -/
def parseHeaders (ws : Sheet V) : List Str × ℕ :=
  if ws.rows = [] then ([], 0)
  else if ws.merged.any (fun m => m.minRow ≤ 2) then parseMultiLevelHeaders t ws
  else parseSimpleHeaders t ws

/-! ### Rows -/

/-- `_extract_row_data`. -/
def extractRowData (ws : Sheet V) (absoluteRowIdx expectedCols : ℕ) : Option (RowData V) :=
  some ((List.range expectedCols).map (fun col =>
    (cellValue ws (absoluteRowIdx + 1) (col + 1)).or
      (mergedCellValue ws (absoluteRowIdx + 1) (col + 1))))

/-- `_is_empty_row`. -/
def isEmptyRow (data : RowData V) : Bool :=
  data.all (fun cell =>
    match cell with
    | none => true
    | some v => strip (t.str v) = [])

/-- The rows of a sheet below its headers, with their indices. -/
def belowHeaders (ws : Sheet V) : List (List (Option V) × ℕ) :=
  (ws.rows.drop (parseHeaders t ws).2).zipIdx

/-- What is extracted of one of these rows. -/
def rowOf (ws : Sheet V) (x : List (Option V) × ℕ) : Option (RowData V) :=
  extractRowData ws ((parseHeaders t ws).2 + x.2) (parseHeaders t ws).1.length

/-- The loop over the rows of a sheet: the data with the numbers of the rows, the failures and
`rn`. -/
def rowLoop (ws : Sheet V) (fromPage toPage : ℤ) :
    List (List (Option V) × ℕ) → ℕ → List (RowData V × ℕ) × List ℕ × ℕ
  | [], rn => ([], [], rn)
  | x :: rows, n =>
      let rn := n + 1
      if (rn : ℤ) - 1 < fromPage then rowLoop ws fromPage toPage rows rn
      else if toPage ≤ (rn : ℤ) - 1 then ([], [], rn)
      else
        let rest := rowLoop ws fromPage toPage rows rn
        match rowOf t ws x with
        | none => (rest.1, x.2 :: rest.2.1, rest.2.2)
        | some data =>
            if isEmptyRow t data then rest else ((data, rn - 1) :: rest.1, rest.2)

/-- A data frame. -/
structure Frame (V : Type) where
  headers : List Str
  data : List (RowData V × ℕ)

/-- The loop over the sheets. -/
def sheetLoop (fromPage toPage : ℤ) : List (Sheet V) → ℕ → List (Frame V) × List ℕ
  | [], _ => ([], [])
  | ws :: wb, rn =>
      if readRows ws = [] then sheetLoop fromPage toPage wb rn
      else
        let headers := (parseHeaders t ws).1
        if headers = [] then sheetLoop fromPage toPage wb rn
        else
          let sheet := rowLoop t ws fromPage toPage (belowHeaders t ws) rn
          let rest := sheetLoop fromPage toPage wb sheet.2.2
          (if sheet.1 = [] then rest.1 else ⟨headers, sheet.1⟩ :: rest.1, sheet.2.1 ++ rest.2)

/-- The first loop of `Excel.__call__`, over the rows of all sheets; it has no `try`. -/
def totalRows (wb : List (Sheet V)) : Option ℕ :=
  wb.foldlM (fun total ws => (getActualRowCount ws).map (total + ·)) 0

/-- `Excel.__call__`: the data frames and the failures, or `none` for an exception. -/
def call (wb : List (Sheet V)) (fromPage toPage : ℤ) : Option (List (Frame V) × List ℕ) := do
  let _ ← totalRows wb
  some (sheetLoop t fromPage toPage wb 0)

/-- The rows that a call extracts. -/
def callRows (wb : List (Sheet V)) (fromPage toPage : ℤ) : List (RowData V × ℕ) :=
  ((call t wb fromPage toPage).map Prod.fst).getD [] |>.flatMap Frame.data

/-- `RAGFlowExcelParser.row_number` of a workbook; a sheet whose count raises is skipped. -/
def rowNumber (wb : List (Sheet V)) : ℕ :=
  wb.foldl (fun total ws => total + (getActualRowCount ws).getD 0) 0

/-! ### The data rows of a workbook -/

/-- The data rows of a sheet, none if its rows cannot be read. -/
def dataRows (ws : Sheet V) : List (Option (RowData V)) :=
  if readRows ws = [] ∨ (parseHeaders t ws).1 = [] then []
  else (belowHeaders t ws).map (rowOf t ws)

/-- A row that has data, with its number. -/
def nonEmpty (x : Option (RowData V) × ℕ) : Option (RowData V × ℕ) :=
  match x.1 with
  | none => none
  | some data => if isEmptyRow t data then none else some (data, x.2)

/-- The rows that have data, with their numbers from `start` on. -/
def numberedFrom (start : ℕ) (rows : List (Option (RowData V))) : List (RowData V × ℕ) :=
  (rows.zipIdx start).filterMap (nonEmpty t)

/-- The data rows of a workbook that are not empty, with their numbers across the sheets. -/
def numberedRows (wb : List (Sheet V)) : List (RowData V × ℕ) :=
  numberedFrom t 0 (wb.flatMap (dataRows t))

/-! ### What a call extracts -/

variable {t}

theorem numberedFrom_append (start : ℕ) (rows rows' : List (Option (RowData V))) :
    numberedFrom t start (rows ++ rows') =
      numberedFrom t start rows ++ numberedFrom t (start + rows.length) rows' := by
  unfold numberedFrom
  rw [List.zipIdx_append, List.filterMap_append]

theorem numberedFrom_cons (start : ℕ) (row : Option (RowData V))
    (rows : List (Option (RowData V))) :
    numberedFrom t start (row :: rows) =
      (nonEmpty t (row, start)).toList ++ numberedFrom t (start + 1) rows := by
  unfold numberedFrom
  rw [List.zipIdx_cons, List.filterMap_cons]
  cases nonEmpty t (row, start) with
  | none => rfl
  | some x => rfl

/-- A row is numbered with its place. -/
theorem mem_numberedFrom {start : ℕ} {rows : List (Option (RowData V))} {x : RowData V × ℕ} :
    x ∈ numberedFrom t start rows ↔ start ≤ x.2 ∧ rows[x.2 - start]? = some (some x.1) ∧
      isEmptyRow t x.1 = false := by
  unfold numberedFrom
  rw [List.mem_filterMap]
  constructor
  · rintro ⟨⟨row, n⟩, hmem, hx⟩
    obtain ⟨hle, hget⟩ := List.mem_zipIdx_iff_le_and_getElem?_sub.mp hmem
    cases row with
    | none => cases hx
    | some data =>
        simp only [nonEmpty] at hx
        split_ifs at hx with hempty
        obtain rfl := Option.some.inj hx
        exact ⟨hle, hget, Bool.eq_false_iff.mpr hempty⟩
  · rintro ⟨hle, hget, hempty⟩
    refine ⟨(some x.1, x.2), List.mem_zipIdx_iff_le_and_getElem?_sub.mpr ⟨hle, hget⟩, ?_⟩
    simp [nonEmpty, hempty]

/-- The rows with numbers in an interval. -/
def within (fromPage toPage : ℤ) (rows : List (RowData V × ℕ)) : List (RowData V × ℕ) :=
  rows.filter (fun x => (x.2 : ℤ) ∈ points (fromPage, toPage))

variable {fromPage toPage : ℤ}

theorem within_append (rows rows' : List (RowData V × ℕ)) :
    within fromPage toPage (rows ++ rows') =
      within fromPage toPage rows ++ within fromPage toPage rows' :=
  List.filter_append _ _

theorem within_nonEmpty (row : Option (RowData V)) (n : ℕ) :
    within fromPage toPage (nonEmpty t (row, n)).toList =
      if (n : ℤ) ∈ points (fromPage, toPage) then (nonEmpty t (row, n)).toList else [] := by
  cases h : nonEmpty t (row, n) with
  | none => simp [within]
  | some x =>
      have hx : x.2 = n := by
        unfold nonEmpty at h
        cases row with
        | none => cases h
        | some data =>
            simp only at h
            split_ifs at h
            rw [← Option.some.inj h]
      by_cases hmem : (n : ℤ) ∈ points (fromPage, toPage)
      · simp [within, hx, hmem]
      · simp [within, hx, hmem]

/-- No row from the end of the interval on has a number in the interval. -/
theorem within_numberedFrom_of_le {start : ℕ} (h : toPage ≤ start)
    (rows : List (Option (RowData V))) :
    within fromPage toPage (numberedFrom t start rows) = [] := by
  refine List.filter_eq_nil_iff.mpr (fun x hx => ?_)
  obtain ⟨hle, -⟩ := mem_numberedFrom.mp hx
  rw [decide_eq_true_eq, mem_points]
  simp only
  omega

variable (t fromPage toPage) in
/-- The loop over the rows of a sheet extracts the rows with numbers in the interval; it goes on
counting to the last row, or stops at the end of the interval. -/
theorem rowLoop_spec (ws : Sheet V) (rows : List (List (Option V) × ℕ)) (rn : ℕ) :
    (rowLoop t ws fromPage toPage rows rn).1 =
        within fromPage toPage (numberedFrom t rn (rows.map (rowOf t ws))) ∧
      ((rowLoop t ws fromPage toPage rows rn).2.2 = rn + rows.length ∨
        toPage < (rowLoop t ws fromPage toPage rows rn).2.2 ∧
          (rowLoop t ws fromPage toPage rows rn).2.2 ≤ rn + rows.length) := by
  induction rows generalizing rn with
  | nil => exact ⟨rfl, .inl rfl⟩
  | cons x rows ih =>
      obtain ⟨hrows, hcount⟩ := ih (rn + 1)
      have hlength : rn + 1 + rows.length = rn + (x :: rows).length := by
        rw [List.length_cons]
        omega
      rw [hlength] at hcount
      unfold rowLoop
      simp only [List.map_cons]
      by_cases hbefore : ((rn + 1 : ℕ) : ℤ) - 1 < fromPage
      · rw [if_pos hbefore]
        refine ⟨?_, hcount⟩
        rw [hrows, numberedFrom_cons, within_append]
        rw [within_nonEmpty, if_neg (by rw [mem_points]; simp only; omega), List.nil_append]
      · rw [if_neg hbefore]
        by_cases hafter : toPage ≤ ((rn + 1 : ℕ) : ℤ) - 1
        · rw [if_pos hafter]
          refine ⟨?_, .inr ⟨by simp only; omega, by rw [List.length_cons]; simp only; omega⟩⟩
          rw [← List.map_cons, within_numberedFrom_of_le (by omega)]
        · rw [if_neg hafter, numberedFrom_cons, within_append, ← hrows, within_nonEmpty,
            if_pos (by rw [mem_points]; simp only; omega)]
          cases hrow : rowOf t ws x with
          | none => exact ⟨rfl, hcount⟩
          | some data =>
              simp only [nonEmpty]
              split_ifs with hempty
              · exact ⟨rfl, hcount⟩
              · exact ⟨rfl, hcount⟩

theorem getActualRowCount_of_readRows {ws : Sheet V} (h : readRows ws ≠ []) :
    getActualRowCount ws = some ws.rows.length := by
  unfold getActualRowCount
  by_cases hraises : ws.countRaises
  · simp [readRows, getRowsLimited, getActualRowCount, hraises] at h
  · rw [if_neg hraises]

theorem length_dataRows_le (ws : Sheet V) :
    (dataRows t ws).length ≤ (getActualRowCount ws).getD 0 := by
  unfold dataRows belowHeaders
  split_ifs with hnone
  · exact Nat.zero_le _
  · rw [not_or] at hnone
    rw [List.length_map, List.length_zipIdx, List.length_drop,
      getActualRowCount_of_readRows hnone.1, Option.getD_some]
    omega

/-- The loop over the sheets extracts the rows with numbers in the interval.  The counter `rn` is
the number of the data rows `start` before the sheet, unless an earlier sheet was left at the end of
the interval: then it may lag behind, but is past the interval. -/
theorem sheetLoop_rows (wb : List (Sheet V)) (rn start : ℕ)
    (hcount : rn = start ∨ toPage < rn ∧ rn ≤ start) :
    (sheetLoop t fromPage toPage wb rn).1.flatMap Frame.data =
      within fromPage toPage (numberedFrom t start (wb.flatMap (dataRows t))) := by
  induction wb generalizing rn start with
  | nil => rfl
  | cons ws wb ih =>
      unfold sheetLoop
      rw [List.flatMap_cons]
      by_cases hrows : readRows ws = []
      · rw [if_pos hrows, ih rn start hcount, dataRows, if_pos (.inl hrows), List.nil_append]
      · rw [if_neg hrows]
        by_cases hheaders : (parseHeaders t ws).1 = []
        · simp only [hheaders, if_true]
          rw [ih rn start hcount, dataRows, if_pos (.inr hheaders), List.nil_append]
        · simp only [hheaders, if_false]
          have hdata : dataRows t ws = (belowHeaders t ws).map (rowOf t ws) := by
            rw [dataRows, if_neg (by rw [not_or]; exact ⟨hrows, hheaders⟩)]
          have hlength : (dataRows t ws).length = (belowHeaders t ws).length := by
            rw [hdata, List.length_map]
          obtain ⟨hsheet, hnext⟩ :=
            rowLoop_spec t fromPage toPage ws (belowHeaders t ws) rn
          rw [numberedFrom_append, within_append, ← ih (rowLoop t ws fromPage toPage
            (belowHeaders t ws) rn).2.2 (start + (dataRows t ws).length) (by omega)]
          have hfirst : (rowLoop t ws fromPage toPage (belowHeaders t ws) rn).1 =
              within fromPage toPage (numberedFrom t start (dataRows t ws)) := by
            rw [hsheet, ← hdata]
            rcases hcount with rfl | ⟨hpast, hle⟩
            · rfl
            · rw [within_numberedFrom_of_le (by omega), within_numberedFrom_of_le (by omega)]
          rw [← hfirst]
          split_ifs with hnil
          · rw [hnil, List.nil_append]
          · rw [List.flatMap_cons]

/-- The numbers increase, so that a row is listed once. -/
theorem pairwise_numberedRows (wb : List (Sheet V)) :
    (numberedRows t wb).Pairwise (fun x y => x.2 < y.2) := by
  unfold numberedRows numberedFrom
  rw [List.pairwise_filterMap]
  have hnumber : ∀ {x : Option (RowData V) × ℕ} {y}, nonEmpty t x = some y → y.2 = x.2 := by
    rintro ⟨row, n⟩ y hy
    cases row with
    | none => cases hy
    | some data =>
        simp only [nonEmpty] at hy
        split_ifs at hy
        rw [← Option.some.inj hy]
  have hindices : ((wb.flatMap (dataRows t)).zipIdx 0).Pairwise (fun x y => x.2 < y.2) := by
    rw [← List.pairwise_map (f := Prod.snd), List.zipIdx_map_snd]
    exact List.pairwise_lt_range'
  refine hindices.imp (fun {x y} hxy x' hx' y' hy' => ?_)
  rw [hnumber hx', hnumber hy']
  exact hxy

/-- The rows of all sheets can be counted. -/
def Countable (wb : List (Sheet V)) : Prop := ∀ ws ∈ wb, ws.countRaises = false

theorem foldlM_isSome_iff (wb : List (Sheet V)) (n : ℕ) :
    (wb.foldlM (fun total ws => (getActualRowCount ws).map (total + ·)) n).isSome ↔
      Countable wb := by
  induction wb generalizing n with
  | nil => simp [Countable]
  | cons ws wb ih =>
      rw [List.foldlM_cons]
      cases hraises : ws.countRaises with
      | true =>
          have hnone : getActualRowCount ws = none := by simp [getActualRowCount, hraises]
          rw [hnone]
          simp [Countable, hraises]
      | false =>
          have hsome : getActualRowCount ws = some ws.rows.length := by
            simp [getActualRowCount, hraises]
          rw [hsome]
          refine (ih _).trans ?_
          simp [Countable, hraises]

theorem totalRows_isSome_iff {wb : List (Sheet V)} : (totalRows wb).isSome ↔ Countable wb :=
  foldlM_isSome_iff wb 0

/-- A call extracts the data rows whose numbers across the sheets are in its interval, if the rows
of all sheets can be counted. -/
theorem callRows_eq {wb : List (Sheet V)} (hcountable : Countable wb) (fromPage toPage : ℤ) :
    callRows t wb fromPage toPage = within fromPage toPage (numberedRows t wb) := by
  obtain ⟨total, htotal⟩ := Option.isSome_iff_exists.mp (totalRows_isSome_iff.mpr hcountable)
  unfold callRows call
  rw [htotal]
  exact sheetLoop_rows wb 0 0 (.inl rfl)

/-- Otherwise it raises, whatever its interval. -/
theorem callRows_eq_nil {wb : List (Sheet V)} (hcountable : ¬Countable wb) (fromPage toPage : ℤ) :
    callRows t wb fromPage toPage = [] := by
  have hnone : totalRows wb = none := by
    rwa [← totalRows_isSome_iff, Option.not_isSome_iff_eq_none] at hcountable
  unfold callRows call
  rw [hnone]
  rfl

/-! ### The tasks of a workbook -/

theorem foldl_rows (wb : List (Sheet V)) (n : ℕ) :
    n + (wb.flatMap (dataRows t)).length ≤
      wb.foldl (fun total ws => total + (getActualRowCount ws).getD 0) n := by
  induction wb generalizing n with
  | nil => exact Nat.le_refl n
  | cons ws wb ih =>
      have hle := length_dataRows_le (t := t) ws
      have hrest := ih (n + (getActualRowCount ws).getD 0)
      rw [List.flatMap_cons, List.length_append, List.foldl_cons]
      omega

variable (t) in
/-- There are at most as many data rows as rows. -/
theorem length_dataRows_le_rowNumber (wb : List (Sheet V)) :
    (wb.flatMap (dataRows t)).length ≤ rowNumber wb := by
  have h := foldl_rows (t := t) wb 0
  rwa [Nat.zero_add] at h

/-- The number of a data row is one of the rows that are divided into tasks. -/
theorem number_mem_points {wb : List (Sheet V)} {x : RowData V × ℕ} (hx : x ∈ numberedRows t wb) :
    (x.2 : ℤ) ∈ points (0, rowNumber wb) := by
  obtain ⟨-, hget, -⟩ := mem_numberedFrom.mp hx
  have hlt := (List.getElem?_eq_some_iff.mp hget).1
  have hle := length_dataRows_le_rowNumber t wb
  rw [mem_points]
  simp only
  omega

variable (t) in
/-- The tasks of a workbook cover it, exactly when the rows of all its sheets can be counted or it
has no data rows: each data row that is not empty is extracted by exactly one task, and a task
extracts nothing else, and nothing twice. -/
theorem tableTasks_cover_iff (wb : List (Sheet V)) (env : ParseEnv) (doc : Document)
    (bucket name : Str) (hbranch : taskBranch doc.type doc.parserId = .tableRows)
    (hrows : env.rowNumber bucket name = rowNumber wb) :
    ((∀ x ∈ numberedRows t wb,
        ∃! r, r ∈ taskRanges env doc bucket name ∧ x ∈ callRows t wb r.1 r.2) ∧
      ∀ r ∈ taskRanges env doc bucket name,
        (callRows t wb r.1 r.2).Sublist (numberedRows t wb)) ↔
      Countable wb ∨ numberedRows t wb = [] := by
  have hcuts : Cuts 3000 0 (rowNumber wb) (taskRanges env doc bucket name) := by
    rw [← hrows]
    unfold taskRanges
    rw [hbranch]
    exact cuts_pyRange 0 _ (by decide)
  by_cases hcountable : Countable wb
  · refine iff_of_true ⟨fun x hx => ?_, fun r _ => ?_⟩ (Or.inl hcountable)
    · obtain ⟨r, ⟨hr, hxr⟩, hunique⟩ := hcuts.existsUnique (number_mem_points hx)
      have hmem : ∀ r : ℤ × ℤ, x ∈ callRows t wb r.1 r.2 ↔ (x.2 : ℤ) ∈ points r := fun r => by
        rw [callRows_eq hcountable, within, List.mem_filter, decide_eq_true_eq]
        exact and_iff_right hx
      exact ⟨r, ⟨hr, (hmem r).mpr hxr⟩,
        fun r' ⟨hr', hxr'⟩ => hunique r' ⟨hr', (hmem r').mp hxr'⟩⟩
    · rw [callRows_eq hcountable]
      exact List.filter_sublist
  · constructor
    · rintro ⟨hcover, -⟩
      refine Or.inr (List.eq_nil_iff_forall_not_mem.mpr fun x hx => ?_)
      obtain ⟨r, ⟨-, hxr⟩, -⟩ := hcover x hx
      rw [callRows_eq_nil hcountable] at hxr
      exact List.not_mem_nil hxr
    · rintro (hcount | hnil)
      · exact absurd hcount hcountable
      · rw [hnil]
        refine ⟨fun x hx => absurd hx List.not_mem_nil, fun r _ => ?_⟩
        rw [callRows_eq_nil hcountable]

end parser

/-! Two sheets with headers, and an empty row in the first; and the same with a chart sheet behind
them. -/

def sampleText : CellText Str := ⟨id, Char.isAlpha, Char.isDigit, fun s => s.map Char.toUpper⟩

def sampleWorkbook : List (Sheet Str) :=
  [{ rows := [[some "name"], [some "x"], [none]], merged := [] },
    { rows := [[some "name"], [some "y"]], merged := [] }]

def sampleDoc : Document :=
  { id := "d", kbId := "kb", parserId := "table", pipelineId := [], parserConfig := {},
    createdBy := "t", type := "doc", name := "a.xlsx", sourceType := [], suffix := "xlsx",
    location := some "a.xlsx", size := 1, contentHash := none, run := .unstart, progress := 0,
    tokenNum := 0, chunkNum := 0 }

def sampleEnv : ParseEnv :=
  { totalPageNumber := fun _ _ => none
    rowNumber := fun _ _ => 5
    digest := fun _ _ _ _ => "g"
    now := 0
    random := 0 }

example : callRows sampleText sampleWorkbook 0 5 =
    [([some "x".toList], 0), ([some "y".toList], 2)] := by
  decide

theorem tableTasks_cover_sample :
    (∃! r, r ∈ taskRanges sampleEnv sampleDoc "kb" "a.xlsx" ∧
      ([some "y".toList], 2) ∈ callRows sampleText sampleWorkbook r.1 r.2) :=
  ((tableTasks_cover_iff sampleText sampleWorkbook sampleEnv sampleDoc "kb" "a.xlsx" (by decide)
    (by decide)).mpr (.inl (by unfold Countable; decide))).1 _ (by decide)

/-- A sheet that has only a chart. -/
def chartSheet : Sheet Str := { rows := [], merged := [], countRaises := true }

/-- There is a task for the rows of the two sheets, but it raises. -/
theorem chartSheet_not_covered :
    rowNumber (sampleWorkbook ++ [chartSheet]) = 5 ∧
      taskRanges sampleEnv sampleDoc "kb" "a.xlsx" = [(0, 5)] ∧
      ([some "y".toList], 2) ∈ numberedRows sampleText (sampleWorkbook ++ [chartSheet]) ∧
      ¬∃! r, r ∈ taskRanges sampleEnv sampleDoc "kb" "a.xlsx" ∧ ([some "y".toList], 2) ∈
        callRows sampleText (sampleWorkbook ++ [chartSheet]) r.1 r.2 := by
  refine ⟨by decide, by decide, by decide, ?_⟩
  rintro ⟨r, ⟨-, hr⟩, -⟩
  have hraises : ¬Countable (sampleWorkbook ++ [chartSheet]) := by
    unfold Countable
    decide
  rw [callRows_eq_nil hraises] at hr
  exact List.not_mem_nil hr

end RagFlow.TableParser
