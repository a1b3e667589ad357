import Mathlib.Data.List.DropRight
import Mathlib.Data.List.Infix
import Mathlib.Tactic.Common

/-! # Python strings

A Python `str` is a finite sequence of code points, modelled as `Str := List Char`, so that
prefixes, suffixes and concatenation are those of lists.  The operations below follow the
documentation of the built-in type.

* **White space.** `isSpace` is `str.isspace` on one character: the white space of `strip()`
  and of `split()` without argument.
* **Case.** `lower` is `str.lower`.  On ASCII and on the sigma, which has two forms, it is fixed
  here; the mapping of the other characters is data of the interpreter (`CaseTable`). -/

namespace RagFlow.Py

/-- A Python string: its sequence of code points. -/
abbrev Str := List Char

instance : Coe String Str := ⟨String.toList⟩

instance : LawfulBEq Str := inferInstance

/-! ### White space -/

/-- `str.isspace` on a single character. -/
def isSpace (c : Char) : Bool :=
  let n := c.toNat
  (9 ≤ n && n ≤ 13) || (28 ≤ n && n ≤ 32) || n == 0x85 || n == 0xA0 || n == 0x1680 ||
    (0x2000 ≤ n && n ≤ 0x200A) || n == 0x2028 || n == 0x2029 || n == 0x202F || n == 0x205F ||
    n == 0x3000

/-- `s.lstrip()`. -/
def lstrip (s : Str) : Str := s.dropWhile isSpace

/-- `s.rstrip()`. -/
def rstrip (s : Str) : Str := (s.reverse.dropWhile isSpace).reverse

/-- `s.strip()`. -/
def strip (s : Str) : Str := rstrip (lstrip s)

/-- Stripping twice is stripping once. -/
theorem strip_strip (s : Str) : strip (strip s) = strip s := by
  -- the text that is left starts where the left strip stopped
  have hhead : lstrip (strip s) = strip s := by
    unfold lstrip
    rw [List.dropWhile_eq_self_iff]
    intro hpos
    have hprefix : strip s <+: lstrip s := List.rdropWhile_prefix isSpace _
    have hlen := hprefix.length_le
    have hnot := List.dropWhile_eq_self_iff.mp (List.dropWhile_idempotent isSpace s)
      (Nat.lt_of_lt_of_le hpos hlen)
    have heq : (strip s)[0] = (lstrip s)[0] := hprefix.getElem hpos
    rw [heq]
    exact hnot
  show rstrip (lstrip (strip s)) = strip s
  rw [hhead]
  exact List.rdropWhile_idempotent isSpace (lstrip s)

/-! ### Prefixes, suffixes and substrings -/

/-- `s.startswith(p)`. -/
def startswith (s p : Str) : Bool := p.isPrefixOf s

/-- `s.endswith(p)`. -/
def endswith (s p : Str) : Bool := p.isSuffixOf s

/-- `p in s`, which is also `s.find(p) >= 0`. -/
def contains (p : Str) : Str → Bool
  | [] => p.isEmpty
  | c :: s => p.isPrefixOf (c :: s) || contains p s

@[simp] theorem startswith_iff {s p : Str} : startswith s p = true ↔ p <+: s := by
  simp [startswith]

theorem contains_iff {p s : Str} : contains p s = true ↔ p <:+: s := by
  induction s with
  | nil => simp [contains]
  | cons c s ih =>
      rw [contains, Bool.or_eq_true, List.isPrefixOf_iff_prefix, ih, List.infix_cons_iff]

/-! ### Splitting -/

/-- `s.split()`: the maximal runs without white space. -/
def splitWs (s : Str) : List Str := (s.splitOnP isSpace).filter (fun c => !c.isEmpty)

/-- `s.split(sep)` from the position after `skip` characters, `cur` being the part read so far
in reverse. -/
def splitSepFrom (sep : Str) : ℕ → Str → Str → List Str
  | _, cur, [] => [cur.reverse]
  | skip + 1, cur, _ :: s => splitSepFrom sep skip cur s
  | 0, cur, c :: s =>
      if sep.isPrefixOf (c :: s) then cur.reverse :: splitSepFrom sep (sep.length - 1) [] s
      else splitSepFrom sep 0 (c :: cur) s

/-- `s.split(sep)` for a non-empty separator. -/
def splitSep (sep s : Str) : List Str := splitSepFrom sep 0 [] s

/-- The translation of line ends in text mode. -/
def universalNewlines : Str → Str
  | '\r' :: '\n' :: s => '\n' :: universalNewlines s
  | '\r' :: s => '\n' :: universalNewlines s
  | c :: s => c :: universalNewlines s
  | [] => []

/-- The lines of a text file, without their line ends. -/
def fileLines (content : Str) : List Str := (universalNewlines content).splitOn '\n'

/-! ### Case -/

/-- The lower-case mapping of the characters outside ASCII, and the properties `Cased` and
`Case_Ignorable` of all characters. -/
structure CaseTable where
  lowerChar : Char → Str
  isCased : Char → Bool
  isCaseIgnorable : Char → Bool

/-- ASCII code points. -/
def isAscii (c : Char) : Bool := c.toNat < 128

namespace CaseTable
variable (ct : CaseTable)

/-- `str.lower` on a single character. -/
def lower1 (c : Char) : Str := if isAscii c then [c.toLower] else ct.lowerChar c

/-- The text begins with a cased character, apart from those that are ignored. -/
def casedFirst (s : Str) : Bool := (s.dropWhile ct.isCaseIgnorable).head?.any ct.isCased

/-- `str.lower` on the text after `before`, of which the last character comes first.  A sigma is
final between a cased character and none. -/
def lowerAfter : Str → Str → Str
  | _, [] => []
  | before, c :: s =>
      (if c = 'Σ' then (if ct.casedFirst before && !ct.casedFirst s then ['ς'] else ['σ'])
        else ct.lower1 c) ++ lowerAfter (c :: before) s

/-- `s.lower()`. -/
def lower (s : Str) : Str := ct.lowerAfter [] s

/-- The table that moves no character outside ASCII but sigma. -/
def ascii : CaseTable where
  lowerChar c := [c]
  isCased c := c.isAlpha
  isCaseIgnorable c := c.toNat ∈ [39, 46, 58, 94, 96]

end CaseTable

end RagFlow.Py
