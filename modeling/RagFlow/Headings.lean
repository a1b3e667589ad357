import Mathlib.Data.List.TakeWhile
import Mathlib.Tactic.SplitIfs
import RagFlow.PyStr

/-! # Headings

What `tree_merge` and `hierarchical_merge` of `rag/nlp/__init__.py` share.

* **Regular expressions.** `Re` is what the bullet patterns are made of; `re.match` asks whether
  anything is left of the text after a prefix that matches (`Re.rests`).
* **Levels.** A section has the level of the first bullet pattern it starts with, else the next one
  if its layout says it is a title, else the one of body text (`sectionLevel`).
* **Sections.** Those that are blank, of a single character or numeric are left out (`kept`). -/

namespace RagFlow.Nlp.Headings

open Py

/-! ### Regular expressions -/

/-- `rep p least most` are at least `least` and at most `most` characters of the class `p`; `eos` is
`$`. -/
inductive Re where
  | lit (s : Str)
  | one (p : Char → Bool)
  | rep (p : Char → Bool) (least : ℕ) (most : Option ℕ)
  | seq (r r' : Re)
  | alt (r r' : Re)
  | eos

namespace Re

/-- What can be left of a text after a match at its start. -/
def rests : Re → Str → List Str
  | lit l, s => if l <+: s then [s.drop l.length] else []
  | one p, s =>
      match s with
      | [] => []
      | c :: s => if p c then [s] else []
  | rep p least most, s =>
      let run := (s.takeWhile p).length
      let longest := (most.map (min run)).getD run
      ((List.range (longest + 1)).filter (least ≤ ·)).map s.drop
  | seq r r', s => (r.rests s).flatMap r'.rests
  | alt r r', s => r.rests s ++ r'.rests s
  | eos, s => if s = [] ∨ s = ['\n'] then [s] else []

/-- `re.match(r, s)`. -/
def isMatch (r : Re) (s : Str) : Bool := !(r.rests s).isEmpty

/-- One after another. -/
def all : List Re → Re
  | [] => lit []
  | [r] => r
  | r :: rs => seq r (all rs)

/-- One of them. -/
def any : List Re → Re
  | [] => one fun _ => false
  | [r] => r
  | r :: rs => alt r (any rs)

end Re

/-! ### The patterns -/

def digit (c : Char) : Bool := '0' ≤ c && c ≤ '9'

def numeral (c : Char) : Bool := c ∈ "零一二三四五六七八九十百".toList

/-- `第`, a number of characters of the class `p`, and `last`. -/
def ordinal (p : Char → Bool) (last : Re) : Re := .all [.lit "第".toList, .rep p 1 none, last]

def ordinalOf (p : Char → Bool) (unit : String) : Re := ordinal p (.lit unit.toList)

/-- `inner` in parentheses, each in one of its two forms. -/
def parenthesized (inner : Re) : Re :=
  .all [.one fun c => c ∈ "(（".toList, inner, .one fun c => c ∈ ")）".toList]

/-- Up to two digits. -/
def shortNumber : Re := .rep digit 0 (some 2)

def dot : Re := .lit ".".toList

def numeralOrDigit (c : Char) : Bool := numeral c || digit c

/-- `n` hash signs, and whatever follows in the line. -/
def hashes (n : ℕ) : Re := .seq (.lit (List.replicate n '#')) (.rep (· ≠ '\n') 0 none)

/-- `BULLET_PATTERN`. -/
def bulletPattern : List (List Re) := [
  [ordinal numeralOrDigit
      (.any [.seq (.rep (· = '分') 0 (some 1)) (.lit "编".toList), .lit "部分".toList]),
    ordinalOf numeralOrDigit "章",
    ordinalOf numeralOrDigit "节",
    ordinalOf numeralOrDigit "条",
    parenthesized (.rep numeral 1 none)],
  [ordinalOf digit "章",
    ordinalOf digit "节",
    .seq shortNumber (.one fun c => c ∈ ". 、".toList),
    .all [shortNumber, dot, shortNumber,
      .one fun c => !(('a' ≤ c && c ≤ 'z') || ('A' ≤ c && c ≤ 'Z') || c ∈ "/%~-".toList)],
    .all [shortNumber, dot, shortNumber, dot, shortNumber],
    .all [shortNumber, dot, shortNumber, dot, shortNumber, dot, shortNumber]],
  [ordinalOf numeralOrDigit "章",
    ordinalOf numeralOrDigit "节",
    .seq (.rep numeral 1 none) (.one fun c => c ∈ " 、".toList),
    parenthesized (.rep numeral 1 none),
    parenthesized shortNumber],
  [.seq (.lit "PART ".toList) (.any (["ONE", "TWO", "THREE", "FOUR", "FIVE", "SIX", "SEVEN",
      "EIGHT", "NINE", "TEN"].map fun n => .lit n.toList)),
    .seq (.lit "Chapter ".toList) (.any [.seq (.rep (· = 'I') 1 none) (.rep (· = 'V') 0 (some 1)),
      .seq (.lit "V".toList) (.rep (· = 'I') 0 none), .lit "XI".toList, .lit "IX".toList,
      .lit "X".toList]),
    .seq (.lit "Section ".toList) (.rep digit 1 none),
    .seq (.lit "Article ".toList) (.rep digit 1 none)],
  [.seq (.lit "#".toList) (.one (· ≠ '#')),
    .seq (.lit "##".toList) (.one (· ≠ '#')),
    hashes 3, hashes 4, hashes 5, hashes 6]]

/-- `not_title`. -/
def notTitle (txt : Str) : Bool :=
  if (ordinalOf numeralOrDigit "条").isMatch txt then false
  else if 12 < (splitWs txt).length ∨ (!contains " ".toList txt ∧ 32 ≤ txt.length) then true
  else txt.any fun c => c ∈ ",;，。；！!".toList

/-! ### Lists -/

inductive Err where
  | indexError
  | assertionError
deriving DecidableEq

/-- `xs[i]`; a negative index counts from the end. -/
def item {α : Type} (xs : List α) (i : ℤ) : Except Err α :=
  match (if i < 0 then i + xs.length else i) with
  | .ofNat k =>
      match xs[k]? with
      | some x => .ok x
      | none => .error .indexError
  | .negSucc _ => .error .indexError

theorem item_natCast {α : Type} {xs : List α} {k : ℕ} (h : k < xs.length) :
    item xs k = .ok xs[k] := by
  unfold item
  rw [if_neg (by omega)]
  change (match xs[k]? with
    | some x => Except.ok x
    | none => Except.error Err.indexError) = _
  rw [List.getElem?_eq_getElem h]

theorem item_of_length_le {α : Type} {xs : List α} {i : ℤ} (h : xs.length ≤ i) :
    item xs i = .error .indexError := by
  obtain ⟨k, rfl⟩ := Int.eq_ofNat_of_zero_le (show 0 ≤ i by omega)
  unfold item
  rw [if_neg (by omega)]
  change (match xs[k]? with
    | some x => Except.ok x
    | none => Except.error Err.indexError) = _
  rw [List.getElem?_eq_none (by omega)]

/-- An index in range, from either end. -/
theorem item_of_range {α : Type} {xs : List α} {i : ℤ} (hlow : -(xs.length : ℤ) ≤ i)
    (hhigh : i < xs.length) : ∃ x ∈ xs, item xs i = .ok x := by
  by_cases hneg : i < 0
  · obtain ⟨k, hk⟩ := Int.eq_ofNat_of_zero_le (show 0 ≤ i + xs.length by omega)
    have hlt : k < xs.length := by omega
    refine ⟨xs[k], List.getElem_mem hlt, ?_⟩
    rw [← item_natCast hlt, ← hk]
    unfold item
    rw [if_pos hneg, if_neg (by omega)]
  · obtain ⟨k, rfl⟩ := Int.eq_ofNat_of_zero_le (show 0 ≤ i by omega)
    have hlt : k < xs.length := by omega
    exact ⟨xs[k], List.getElem_mem hlt, item_natCast hlt⟩

theorem item_neg_one {α : Type} {xs : List α} (h : xs ≠ []) :
    item xs (-1) = .ok (xs.getLast h) := by
  have hlength : 0 < xs.length := List.length_pos_iff.mpr h
  rw [List.getLast_eq_getElem, ← item_natCast]
  have hindex : (-1 : ℤ) + xs.length = ((xs.length - 1 : ℕ) : ℤ) := by omega
  unfold item
  rw [if_pos (by omega), if_neg (by omega), hindex]

theorem item_nil {α : Type} (i : ℤ) : item ([] : List α) i = .error .indexError := by
  unfold item
  split <;> simp

/-! ### Sections -/

/-- The sections are all texts, or all texts with a layout. -/
inductive Sections where
  | texts (ts : List Str)
  | pairs (ps : List (Str × Str))

namespace Sections

def isEmpty : Sections → Bool
  | texts ts => ts.isEmpty
  | pairs ps => ps.isEmpty

/-- Texts get an empty layout. -/
def toPairs : Sections → List (Str × Str)
  | texts ts => ts.map fun t => (t, [])
  | pairs ps => ps

end Sections

/-- The section is not blank, of a single character or numeric, without its position. -/
def isKept (t : Str) : Bool :=
  let text := strip ((splitSep "@".toList t).headD [])
  !t.isEmpty && 1 < text.length && !(Re.seq (.rep digit 1 none) .eos).isMatch text

/-- `filter out position information in pdf sections`. -/
def kept (sections : Sections) : List (Str × Str) := sections.toPairs.filter fun s => isKept s.1

theorem mem_dropWhile {p : Char → Bool} {c : Char} {s : Str} (hs : c ∈ s) (hc : p c = false) :
    c ∈ s.dropWhile p := by
  induction s with
  | nil => exact hs
  | cons d s ih =>
      rw [List.dropWhile_cons]
      split_ifs with hd
      · rcases List.mem_cons.mp hs with rfl | hs
        · rw [hc] at hd
          cases hd
        · exact ih hs
      · exact hs

/-- What is not of the class `p` stays when the class is stripped from both ends. -/
theorem mem_strip {p : Char → Bool} {c : Char} {s : Str} (hs : c ∈ s) (hc : p c = false) :
    c ∈ ((s.dropWhile p).reverse.dropWhile p).reverse :=
  List.mem_reverse.mpr (mem_dropWhile (List.mem_reverse.mpr (mem_dropWhile hs hc)) hc)

theorem mem_of_mem_splitSepFrom {sep s cur piece : Str} {k : ℕ} {c : Char}
    (h : piece ∈ splitSepFrom sep k cur s) (hc : c ∈ piece) : c ∈ cur ∨ c ∈ s := by
  induction s generalizing k cur with
  | nil =>
      rw [splitSepFrom.eq_def, List.mem_singleton] at h
      rw [h, List.mem_reverse] at hc
      exact Or.inl hc
  | cons d s ih =>
      cases k with
      | succ k =>
          rw [splitSepFrom] at h
          exact (ih h).imp_right (List.mem_cons_of_mem _)
      | zero =>
          rw [splitSepFrom] at h
          split_ifs at h with hsep
          · rcases List.mem_cons.mp h with rfl | h
            · exact Or.inl (List.mem_reverse.mp hc)
            · exact Or.inr (List.mem_cons_of_mem _ ((ih h).resolve_left List.not_mem_nil))
          · rcases ih h with hcur | hs
            · rcases List.mem_cons.mp hcur with rfl | hcur
              · exact Or.inr List.mem_cons_self
              · exact Or.inl hcur
            · exact Or.inr (List.mem_cons_of_mem _ hs)

/-- A section that is kept has text. -/
theorem exists_of_isKept {t : Str} (h : isKept t = true) : ∃ c ∈ t, isSpace c = false := by
  unfold isKept at h
  simp only [Bool.and_eq_true, decide_eq_true_eq] at h
  obtain ⟨⟨-, hlong⟩, -⟩ := h
  by_contra hnone
  have hspace : ∀ c ∈ t, isSpace c = true := fun c hc =>
    eq_true_of_ne_false fun hfalse => hnone ⟨c, hc, hfalse⟩
  have hpiece : ∀ c ∈ (splitSep "@".toList t).headD [], isSpace c = true := by
    intro c hc
    cases hsplit : splitSep "@".toList t with
    | nil =>
        rw [hsplit] at hc
        exact absurd hc List.not_mem_nil
    | cons piece pieces =>
        rw [hsplit] at hc
        have hmem : piece ∈ splitSep "@".toList t := by
          rw [hsplit]
          exact List.mem_cons_self
        exact hspace c ((mem_of_mem_splitSepFrom hmem hc).resolve_left List.not_mem_nil)
  have hempty : strip ((splitSep "@".toList t).headD []) = [] := by
    unfold strip rstrip lstrip
    rw [List.dropWhile_eq_nil_iff.mpr hpiece]
    rfl
  rw [hempty] at hlong
  exact absurd hlong (by decide)

/-- The number of the first pattern `bullet` starts with; else the next number if the layout is
that of a title and `text` may be one, else the number after that. -/
def sectionLevel (patterns : List Re) (bullet text layout : Str) : ℕ :=
  match patterns.findIdx? (·.isMatch bullet) with
  | some i => i
  | none =>
      if (contains "title".toList layout || contains "head".toList layout) && !notTitle text then
        patterns.length
      else patterns.length + 1

end RagFlow.Nlp.Headings
