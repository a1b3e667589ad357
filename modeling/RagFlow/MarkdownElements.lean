import RagFlow.Literals

/-! # Markdown elements

`MarkdownElementExtractor`: the lines of a text become headers, code blocks, lists, quotes and text
blocks; with delimiters the text is cut at these instead.

* **Blocks.** A block is a run of lines: the scanners differ only in the lines at which they stop
  (`scanBlock`).  Each returns the lines it went over (`scanBlock_spec`).
* **The driver.** It goes on after the last line of an element, which is not before its first
  (`elementAt_spec`), so it ends.  Its elements are disjoint ranges of lines in order, and there is
  nothing on the other lines (`sectionsFrom_spec`).
* **Delimiters.** The texts between the matches of `finditer` are the parts of `re.split`
  (`partsFrom_finditer`). -/

namespace RagFlow.Markdown

open Py

/-- What the regular expressions know of the characters outside ASCII. -/
structure CharClasses where
  /-- A decimal digit. -/
  decimal : Char → Bool
  /-- A letter or a digit. -/
  alphanumeric : Char → Bool

namespace CharClasses

/-- The class of "\d". -/
def digit (u : CharClasses) (c : Char) : Bool := if isAscii c then c.isDigit else u.decimal c

/-- The class of "\w". -/
def word (u : CharClasses) (c : Char) : Bool :=
  if isAscii c then c.isAlphanum || c = '_' else u.alphanumeric c

end CharClasses

inductive BlockType where
  | header
  | codeBlock
  | listBlock
  | blockquote
  | textBlock
  deriving DecidableEq

/-- An element; a part between delimiters has no type. -/
structure Element where
  type : Option BlockType
  content : Str
  startLine : ℕ
  endLine : ℕ
  deriving DecidableEq

/-! ### Lines -/

/-- "^#{1,6}\s+.*$". -/
def isHeader (line : Str) : Bool :=
  let hashes := (line.takeWhile (· = '#')).length
  1 ≤ hashes && hashes ≤ 6 && (line.drop hashes).head?.any isSpace

def isFence (line : Str) : Bool := startswith (strip line) "\x60\x60\x60".toList

/-- The text after the indent starts with a bullet and white space. -/
def isBullet (line : Str) : Bool :=
  match line.dropWhile isSpace with
  | c :: d :: _ => (c = '-' || c = '*' || c = '+') && isSpace d
  | _ => false

def isQuote (line : Str) : Bool := startswith (strip line) ">".toList

/-- The number of white space characters before the text. -/
def indent (line : Str) : ℕ := (line.takeWhile isSpace).length

section lines
variable (u : CharClasses)

/-- The text after the indent starts with a number, a dot and white space. -/
def isNumbered (line : Str) : Bool :=
  let body := line.dropWhile isSpace
  let digits := (body.takeWhile u.digit).length
  match body.drop digits with
  | c :: d :: _ => 1 ≤ digits && c = '.' && isSpace d
  | _ => false

/-- "^\s+\w+.*$". -/
def isIndentedWord (line : Str) : Bool :=
  1 ≤ indent line && (line.dropWhile isSpace).head?.any u.word

/-- The line starts a block that ends a text block. -/
def startsBlock (line : Str) : Bool :=
  isHeader line || isFence line || isBullet line || isNumbered u line || isQuote line

end lines

/-! ### Blocks -/

/-- What a scanner does with a line. -/
inductive Scan where
  | stop
  | take
  | takeLast

/-- The loop of the scanners: the lines of the block and the number of the last one.  What is done
with a line depends on its number, on itself and on the next line. -/
def scanBlock (scan : ℕ → Str → Option Str → Scan) :
    ℕ → List Str → List Str → ℕ → List Str × ℕ
  | _, [], contentLines, endPos => (contentLines, endPos)
  | i, line :: rest, contentLines, endPos =>
      match scan i line rest.head? with
      | .stop => (contentLines, endPos)
      | .take => scanBlock scan (i + 1) rest (contentLines ++ [line]) i
      | .takeLast => (contentLines ++ [line], i)

/-- `"\n".join(lines)`. -/
def joinLines (lines : List Str) : Str := ['\n'].intercalate lines

/-- The element of the lines that a scanner returns. -/
def blockElement (type : BlockType) (startPos : ℕ) (block : List Str × ℕ) : Element :=
  ⟨some type, joinLines block.1, startPos, block.2⟩

section blocks
variable (u : CharClasses) (lines : List Str) (startPos : Fin lines.length)

/-- `_extract_header`. -/
def extractHeader : Element := ⟨some .header, lines[startPos], startPos, startPos⟩

/-- `_extract_code_block`. -/
def extractCodeBlock : Element :=
  blockElement .codeBlock startPos (scanBlock
    (fun _ line _ => if isFence line then .takeLast else .take)
    (startPos + 1) (lines.drop (startPos + 1)) [lines[startPos]] startPos)

/-- The line belongs to a list that starts at the given line. -/
def continuesList (i : ℕ) (line : Str) : Bool :=
  isBullet line || isNumbered u line || (startPos < i && strip line = []) ||
    (startPos < i && 2 ≤ indent line && isBullet line) ||
    (startPos < i && 2 ≤ indent line && isNumbered u line) ||
    (startPos < i && isIndentedWord u line)

/-- `_extract_list_block`. -/
def extractListBlock : Element :=
  blockElement .listBlock startPos (scanBlock
    (fun i line _ => if continuesList u lines startPos i line then .take else .stop)
    startPos (lines.drop startPos) [] startPos)

/-- `_extract_blockquote`. -/
def extractBlockquote : Element :=
  blockElement .blockquote startPos (scanBlock
    (fun i line _ => if isQuote line || (startPos < i && strip line = []) then .take else .stop)
    startPos (lines.drop startPos) [] startPos)

/-- `_extract_text_block`. -/
def extractTextBlock : Element :=
  blockElement .textBlock startPos (scanBlock
    (fun _ line next =>
      if startsBlock u line then .stop
      else if strip line = [] && next.any (startsBlock u) then .stop
      else .take)
    (startPos + 1) (lines.drop (startPos + 1)) [lines[startPos]] startPos)

/-- The element that starts at a line, none if the line is blank. -/
def elementAt : Option Element :=
  let line := lines[startPos]
  if isHeader line then some (extractHeader lines startPos)
  else if isFence line then some (extractCodeBlock lines startPos)
  else if isBullet line || isNumbered u line then some (extractListBlock u lines startPos)
  else if isQuote line then some (extractBlockquote lines startPos)
  else if strip line ≠ [] then some (extractTextBlock u lines startPos)
  else none

end blocks

/-! ### What the scanners return -/

/-- The lines from `a` to `b`. -/
def lineRange (lines : List Str) (a b : ℕ) : List Str := (lines.take (b + 1)).drop a

/-- The element is a range of the lines. -/
structure IsRange (lines : List Str) (e : Element) : Prop where
  le : e.startLine ≤ e.endLine
  lt : e.endLine < lines.length
  content : e.content = joinLines (lineRange lines e.startLine e.endLine)

/-- A scanner returns the lines it went over. -/
theorem scanBlock_spec (scan : ℕ → Str → Option Str → Scan) (rest : List Str) :
    ∀ (i : ℕ) (contentLines : List Str) (endPos : ℕ), ∃ n ≤ rest.length,
      scanBlock scan i rest contentLines endPos =
        (contentLines ++ rest.take n, if n = 0 then endPos else i + n - 1) := by
  induction rest with
  | nil => exact fun i contentLines endPos => ⟨0, le_rfl, by rw [scanBlock]; simp⟩
  | cons line rest ih =>
      intro i contentLines endPos
      rw [scanBlock]
      cases scan i line rest.head? with
      | stop => exact ⟨0, Nat.zero_le _, by simp⟩
      | takeLast => exact ⟨1, by simp, by simp⟩
      | take =>
          obtain ⟨n, hn, heq⟩ := ih (i + 1) (contentLines ++ [line]) i
          refine ⟨n + 1, Nat.succ_le_succ hn, ?_⟩
          dsimp only
          rw [heq, List.take_succ_cons, List.append_assoc, if_neg n.succ_ne_zero]
          congr 1
          split_ifs <;> omega

section ranges
variable {u : CharClasses} {lines : List Str} {startPos : Fin lines.length}

theorem drop_eq_cons : lines.drop startPos = lines[startPos] :: lines.drop (startPos + 1) :=
  List.drop_eq_getElem_cons startPos.isLt

theorem lineRange_start (n : ℕ) : lineRange lines startPos (startPos + n) =
    lines[startPos] :: (lines.drop (startPos + 1)).take n := by
  have hlen : (startPos : ℕ) + n + 1 - startPos = n + 1 := by omega
  rw [lineRange, List.drop_take, hlen, drop_eq_cons, List.take_succ_cons]

/-- A scanner that has taken the first line returns a range. -/
theorem isRange_scanBlock (scan : ℕ → Str → Option Str → Scan) (type : BlockType) :
    IsRange lines (blockElement type startPos (scanBlock scan (startPos + 1)
      (lines.drop (startPos + 1)) [lines[startPos]] startPos)) := by
  obtain ⟨n, hn, heq⟩ := scanBlock_spec scan (lines.drop (startPos + 1)) (startPos + 1)
    [lines[startPos]] startPos
  have hend : (if n = 0 then (startPos : ℕ) else startPos + 1 + n - 1) = startPos + n := by
    split_ifs <;> omega
  have hlt := startPos.isLt
  rw [List.length_drop] at hn
  rw [heq, hend]
  refine ⟨Nat.le_add_right _ _, ?_, ?_⟩
  · show (startPos : ℕ) + n < lines.length
    omega
  · show joinLines _ = joinLines (lineRange lines startPos (startPos + n))
    rw [lineRange_start]
    rfl

/-- A scanner that takes the first line returns a range. -/
theorem isRange_scanBlock_of_take {scan : ℕ → Str → Option Str → Scan} (type : BlockType)
    (h : ∀ next, scan startPos lines[startPos] next = .take) :
    IsRange lines (blockElement type startPos
      (scanBlock scan startPos (lines.drop startPos) [] startPos)) := by
  rw [drop_eq_cons, scanBlock, h]
  exact isRange_scanBlock scan type

/-- The element that starts at a line is a range from there. -/
theorem elementAt_spec {e : Element} (h : elementAt u lines startPos = some e) :
    e.startLine = startPos ∧ IsRange lines e := by
  unfold elementAt at h
  dsimp only at h
  split_ifs at h with hheader hfence hlist hquote htext
  · cases h
    refine ⟨rfl, le_rfl, startPos.isLt, ?_⟩
    show lines[startPos] = joinLines (lineRange lines startPos (startPos + 0))
    rw [lineRange_start, List.take_zero]
    exact List.intercalate_singleton.symm
  · cases h
    exact ⟨rfl, isRange_scanBlock _ _⟩
  · cases h
    refine ⟨rfl, isRange_scanBlock_of_take _ (fun next => if_pos ?_)⟩
    unfold continuesList
    rw [hlist]
    rfl
  · cases h
    refine ⟨rfl, isRange_scanBlock_of_take _ (fun next => if_pos ?_)⟩
    rw [hquote]
    rfl
  · cases h
    exact ⟨rfl, isRange_scanBlock _ _⟩

theorem elementAt_eq_none (h : elementAt u lines startPos = none) : strip lines[startPos] = [] := by
  unfold elementAt at h
  dsimp only at h
  split_ifs at h with _ _ _ _ htext
  exact not_not.mp htext

end ranges

/-! ### The driver -/

section driver
variable (u : CharClasses) (lines : List Str) {α : Type} (out : Element → α)

/-- The loop of `extract_elements` over the lines from `i` on. -/
def sectionsFrom (i : ℕ) : List α :=
  if hi : i < lines.length then
    match he : elementAt u lines ⟨i, hi⟩ with
    | some e => out e :: sectionsFrom (e.endLine + 1)
    | none => sectionsFrom (i + 1)
  else []
termination_by lines.length - i
decreasing_by
  · obtain ⟨hstart, hrange⟩ := elementAt_spec he
    have hle := hrange.le
    rw [hstart] at hle
    dsimp only at hle
    omega
  · omega

theorem sectionsFrom_of_some {i : ℕ} (hi : i < lines.length) {e : Element}
    (he : elementAt u lines ⟨i, hi⟩ = some e) :
    sectionsFrom u lines out i = out e :: sectionsFrom u lines out (e.endLine + 1) := by
  rw [sectionsFrom, dif_pos hi]
  split
  · next e' he' =>
      rw [he] at he'
      cases he'
      rfl
  · next hnone =>
      rw [he] at hnone
      cases hnone

theorem sectionsFrom_of_none {i : ℕ} (hi : i < lines.length)
    (he : elementAt u lines ⟨i, hi⟩ = none) :
    sectionsFrom u lines out i = sectionsFrom u lines out (i + 1) := by
  rw [sectionsFrom, dif_pos hi]
  split
  · next e' he' =>
      rw [he] at he'
      cases he'
  · rfl

theorem sectionsFrom_of_le {i : ℕ} (hi : ¬ i < lines.length) : sectionsFrom u lines out i = [] := by
  rw [sectionsFrom, dif_neg hi]

/-- The loop without meta puts out the contents. -/
theorem sectionsFrom_map (i : ℕ) :
    sectionsFrom u lines out i = (sectionsFrom u lines id i).map out := by
  fun_induction sectionsFrom u lines out i with
  | case1 i hi e he ih => rw [sectionsFrom_of_some u lines id hi he, List.map_cons, ih, id]
  | case2 i hi he ih => rw [sectionsFrom_of_none u lines id hi he, ih]
  | case3 i hi => rw [sectionsFrom_of_le u lines id hi, List.map_nil]

/-- **The driver.**  The elements from a line on are ranges in order, and the other lines are
blank. -/
theorem sectionsFrom_spec (i : ℕ) :
    (∀ e ∈ sectionsFrom u lines id i, i ≤ e.startLine ∧ IsRange lines e) ∧
      (sectionsFrom u lines id i).Pairwise (fun e e' => e.endLine < e'.startLine) ∧
      ∀ j : Fin lines.length, i ≤ j →
        (∀ e ∈ sectionsFrom u lines id i, ¬ (e.startLine ≤ j ∧ j ≤ e.endLine)) →
        strip lines[j] = [] := by
  fun_induction sectionsFrom u lines id i with
  | case1 i hi e he ih =>
      obtain ⟨hranges, hpairs, hblank⟩ := ih
      obtain ⟨hstart, hrange⟩ := elementAt_spec he
      have hle := hrange.le
      rw [hstart] at hle
      dsimp only at hle
      refine ⟨List.forall_mem_cons.mpr ⟨⟨hstart.ge, hrange⟩, fun e' he' => ?_⟩,
        List.pairwise_cons.mpr ⟨fun e' he' => (hranges e' he').1, hpairs⟩, fun j hij hj => ?_⟩
      · obtain ⟨hfrom, hrange'⟩ := hranges e' he'
        exact ⟨by omega, hrange'⟩
      · obtain ⟨hje, hjes⟩ := List.forall_mem_cons.mp hj
        refine hblank j ?_ hjes
        have hnot : ¬ (e.startLine ≤ (j : ℕ) ∧ (j : ℕ) ≤ e.endLine) := hje
        rw [hstart] at hnot
        dsimp only at hnot
        omega
  | case2 i hi he ih =>
      obtain ⟨hranges, hpairs, hblank⟩ := ih
      refine ⟨fun e' he' => ?_, hpairs, fun j hij hj => ?_⟩
      · obtain ⟨hfrom, hrange'⟩ := hranges e' he'
        exact ⟨by omega, hrange'⟩
      · rcases Nat.eq_or_lt_of_le hij with rfl | hlt
        · exact elementAt_eq_none he
        · exact hblank j hlt hj
  | case3 i hi =>
      refine ⟨fun e he => (nomatch he), List.Pairwise.nil, fun j hij _ => ?_⟩
      exact absurd (Nat.lt_of_le_of_lt hij j.isLt) hi

end driver

/-! ### Delimiters -/

section delimiters
variable (pattern : List Str) (text : Str)

/-- The spans of the matches of a pattern of literals in a text that starts at `pos`, from the
position after `skip` characters. -/
def finditerFrom : ℕ → ℕ → Str → List (ℕ × ℕ)
  | _, _, [] => []
  | skip + 1, pos, _ :: s => finditerFrom skip (pos + 1) s
  | 0, pos, c :: s =>
      match pattern.find? (startswith (c :: s)) with
      | some d => (pos, pos + d.length) :: finditerFrom (d.length - 1) (pos + 1) s
      | none => finditerFrom 0 (pos + 1) s

/-- `re.split(pattern, s)` for a pattern of literals without a group, from the position after `skip`
characters, `cur` being the part read so far in reverse. -/
def splitFrom : ℕ → Str → Str → List Str
  | _, cur, [] => [cur.reverse]
  | skip + 1, cur, _ :: s => splitFrom skip cur s
  | 0, cur, c :: s =>
      match pattern.find? (startswith (c :: s)) with
      | some d => cur.reverse :: splitFrom (d.length - 1) [] s
      | none => splitFrom 0 (c :: cur) s

/-- The texts between the spans from `lastEnd` on. -/
def partsFrom : List (ℕ × ℕ) → ℕ → List Str
  | [], lastEnd => [text.drop lastEnd]
  | m :: ms, lastEnd => (text.take m.1).drop lastEnd :: partsFrom ms m.2

variable {pattern text}

/-- **Parts.**  The texts between the matches are the parts of the split. -/
theorem partsFrom_finditer (hne : ∀ d ∈ pattern, d ≠ []) (s : Str) :
    ∀ (pos lastEnd : ℕ) (cur : Str), text.drop pos = s → lastEnd ≤ text.length →
      cur.reverse = (text.take pos).drop lastEnd →
      partsFrom text (finditerFrom pattern (lastEnd - pos) pos s) lastEnd =
        splitFrom pattern (lastEnd - pos) cur s := by
  induction s with
  | nil =>
      intro pos lastEnd cur hs _ hcur
      rw [finditerFrom, splitFrom, partsFrom, hcur,
        List.take_of_length_le (List.drop_eq_nil_iff.mp hs)]
  | cons c s ih =>
      intro pos lastEnd cur hs hlast hcur
      have hlen := congrArg List.length hs
      rw [List.length_drop, List.length_cons] at hlen
      have hs' : text.drop (pos + 1) = s := by
        rw [← List.drop_drop, hs, List.drop_succ_cons, List.drop_zero]
      cases hskip : lastEnd - pos with
      | succ k =>
          have hk : k = lastEnd - (pos + 1) := by omega
          rw [finditerFrom, splitFrom, hk]
          refine ih (pos + 1) lastEnd cur hs' hlast ?_
          rw [hcur, List.drop_eq_nil_of_le (by rw [List.length_take]; omega),
            List.drop_eq_nil_of_le (by rw [List.length_take]; omega)]
      | zero =>
          rw [finditerFrom, splitFrom]
          cases hfind : pattern.find? (startswith (c :: s)) with
          | none =>
              have hstep : lastEnd - (pos + 1) = 0 := by omega
              have hih := ih (pos + 1) lastEnd (c :: cur) hs' hlast (by
                have htake : text.take (pos + 1) = text.take pos ++ [c] := by
                  rw [List.take_add, hs, List.take_succ_cons, List.take_zero]
                rw [List.reverse_cons, hcur, htake, List.drop_append_of_le_length]
                rw [List.length_take]
                omega)
              rw [hstep] at hih
              exact hih
          | some d =>
              have hd := List.length_pos_iff.mpr (hne d (List.mem_of_find?_eq_some hfind))
              have hstarts := (startswith_iff.mp (List.find?_some hfind)).length_le
              rw [List.length_cons] at hstarts
              have hstep : pos + d.length - (pos + 1) = d.length - 1 := by omega
              have hih := ih (pos + 1) (pos + d.length) [] hs' (by omega) (by
                rw [List.drop_eq_nil_of_le (by rw [List.length_take]; omega), List.reverse_nil])
              rw [hstep] at hih
              dsimp only
              rw [partsFrom, hih, hcur]

end delimiters

example : partsFrom "a##b" (finditerFrom ["##".toList] 0 0 "a##b") 0 =
    ["a".toList, "b".toList] := by
  decide

/-! ### `extract_elements` -/

def nonblank (s : Str) : Bool := !(strip s).isEmpty

/-- `get_delimiters`, the alternatives of the pattern; there are none without a delimiter. -/
def getDelimiters : Option Str → List Str
  | some delimiters => Nlp.customPattern (Nlp.customDelimiters delimiters)
  | none => []

/-- The loop over the matches. -/
def elementsBetween (text : Str) : List (ℕ × ℕ) → ℕ → List Element
  | [], lastEnd =>
      let part := text.drop lastEnd
      if nonblank part then
        [⟨none, strip part, (text.take lastEnd).count '\n', text.count '\n'⟩]
      else []
  | m :: ms, lastEnd =>
      let part := (text.take m.1).drop lastEnd
      (if nonblank part then
        [⟨none, strip part, (text.take lastEnd).count '\n', (text.take m.1).count '\n'⟩]
      else []) ++ elementsBetween text ms m.2

section extract
variable (u : CharClasses) (markdownContent : Str) (delimiter : Option Str)

/-- `extract_elements(delimiter, include_meta=True)`. -/
def extractElements : List Element :=
  let lines := markdownContent.splitOn '\n'
  let dels := getDelimiters delimiter
  if dels ≠ [] then
    let text := joinLines lines
    elementsBetween text (finditerFrom dels 0 0 text) 0
  else (sectionsFrom u lines id 0).filter (fun section_ => nonblank section_.content)

/-- `extract_elements(delimiter, include_meta=False)`. -/
def extractContents : List Str :=
  let lines := markdownContent.splitOn '\n'
  let dels := getDelimiters delimiter
  if dels ≠ [] then ((splitFrom dels 0 [] (joinLines lines)).filter nonblank).map strip
  else (sectionsFrom u lines Element.content 0).filter nonblank

end extract

theorem content_elementsBetween (text : Str) (ms : List (ℕ × ℕ)) (lastEnd : ℕ) :
    (elementsBetween text ms lastEnd).map Element.content =
      ((partsFrom text ms lastEnd).filter nonblank).map strip := by
  induction ms generalizing lastEnd with
  | nil =>
      rw [elementsBetween, partsFrom, List.filter_cons, List.filter_nil]
      split_ifs <;> rfl
  | cons m ms ih =>
      rw [elementsBetween, partsFrom, List.filter_cons, List.map_append, ih]
      split_ifs <;> rfl

/-- Without meta the contents of the elements are returned. -/
theorem extractContents_eq (u : CharClasses) (markdownContent : Str) (delimiter : Option Str) :
    extractContents u markdownContent delimiter =
      (extractElements u markdownContent delimiter).map Element.content := by
  unfold extractContents extractElements
  dsimp only
  split_ifs with hdels
  · have hne : ∀ d ∈ getDelimiters delimiter, d ≠ [] := by
      cases delimiter with
      | none => exact fun d hd => (nomatch hd)
      | some delimiters => exact Nlp.ne_nil_of_mem_customPattern delimiters
    rw [content_elementsBetween]
    exact congrArg (fun parts => (parts.filter nonblank).map strip)
      (partsFrom_finditer hne _ 0 0 [] rfl (Nat.zero_le _) rfl).symm
  · rw [sectionsFrom_map, List.filter_map]
    rfl

/-- A text with only white space in it is stripped to nothing. -/
theorem strip_eq_nil_iff {s : Str} : strip s = [] ↔ ∀ c ∈ s, isSpace c = true := by
  constructor
  · intro h c hc
    have hleft : ∀ d ∈ lstrip s, isSpace d = true := List.rdropWhile_eq_nil_iff.mp h
    rw [← List.takeWhile_append_dropWhile (p := isSpace) (l := s)] at hc
    rcases List.mem_append.mp hc with hc | hc
    · exact List.mem_takeWhile_imp hc
    · exact hleft c hc
  · intro h
    refine List.rdropWhile_eq_nil_iff.mpr (fun c hc => h c ?_)
    exact (List.dropWhile_suffix isSpace).subset hc

theorem mem_joinLines {lines : List Str} {line : Str} {c : Char} (hline : line ∈ lines)
    (hc : c ∈ line) : c ∈ joinLines lines := by
  unfold joinLines
  induction lines with
  | nil => cases hline
  | cons l lines ih =>
      cases lines with
      | nil =>
          rw [List.mem_singleton.mp hline] at hc
          rwa [List.intercalate_singleton]
      | cons l' lines =>
          rw [List.intercalate_cons_cons]
          rcases List.mem_cons.mp hline with rfl | hline
          · exact List.mem_append_left _ (List.mem_append_left _ hc)
          · exact List.mem_append_right _ (ih hline)

theorem mem_lineRange {lines : List Str} {a b : ℕ} (i : Fin lines.length) (ha : a ≤ i)
    (hb : i ≤ b) : lines[i] ∈ lineRange lines a b := by
  have hlen := i.isLt
  refine List.mem_drop_iff_getElem.mpr ⟨i - a, ?_, ?_⟩
  · rw [List.length_take]
    omega
  · rw [List.getElem_take]
    congr 1
    omega

/-- The elements are disjoint ranges of lines in order, and the lines outside are blank. -/
structure Extracted (lines : List Str) (elements : List Element) : Prop where
  ranges : ∀ e ∈ elements, IsRange lines e
  inOrder : elements.Pairwise (fun e e' => e.endLine < e'.startLine)
  blank : ∀ i : Fin lines.length,
    (∀ e ∈ elements, ¬ (e.startLine ≤ i ∧ i ≤ e.endLine)) → strip lines[i] = []

/-- **Extraction.**  Without delimiters the elements are disjoint ranges of the lines with nothing
outside; with and without meta the same texts are returned. -/
theorem extractElements_spec (u : CharClasses) (markdownContent : Str) :
    Extracted (markdownContent.splitOn '\n') (extractElements u markdownContent none) ∧
      ∀ delimiter, extractContents u markdownContent delimiter =
        (extractElements u markdownContent delimiter).map Element.content := by
  refine ⟨?_, extractContents_eq u markdownContent⟩
  have helements : extractElements u markdownContent none =
      (sectionsFrom u (markdownContent.splitOn '\n') id 0).filter
        (fun e => nonblank e.content) := rfl
  rw [helements]
  obtain ⟨hranges, hpairs, hblank⟩ := sectionsFrom_spec u (markdownContent.splitOn '\n') 0
  refine ⟨fun e he => (hranges e (List.mem_of_mem_filter he)).2, hpairs.filter _, fun i hi => ?_⟩
  by_contra hline
  refine hline (hblank i (Nat.zero_le _) (fun e he hin => hi e ?_ hin))
  -- an element that is left out has nothing on its lines
  refine List.mem_filter.mpr ⟨he, ?_⟩
  unfold nonblank
  rw [Bool.not_eq_true', List.isEmpty_eq_false_iff]
  intro hcontent
  refine hline (strip_eq_nil_iff.mpr (fun c hc => strip_eq_nil_iff.mp hcontent c ?_))
  rw [(hranges e he).2.content]
  exact mem_joinLines (mem_lineRange i hin.1 hin.2) hc

end RagFlow.Markdown
