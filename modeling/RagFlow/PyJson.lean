import Mathlib.Data.Rat.Defs
import RagFlow.Dict
import RagFlow.JsonText

/-! # Python's built-ins on JSON values

`str`, `repr`, `==`, `int` and `float` on the values that `json.loads` returns.

* **Texts.** `repr` writes containers with the `repr` of their items; `str` differs from it on
  strings only.  Of the characters outside ASCII the interpreter knows which are printed and which
  are decimal digits (`Unicode`).
* **Equality.** `eq` compares numbers by value and dictionaries without regard to order.  The
  decoder has one NaN object, so within containers it is equal to itself; NaN itself is not.
* **Conversions.** `toInt` and `toFloat` return `none` where `int` and `float` raise a
  `ValueError` or a `TypeError`; an `OverflowError` is an error.

Floats are a type with the operations and the laws of `Binary64`. -/

namespace RagFlow

open Py

/-- What the interpreter knows of the characters outside ASCII. -/
structure Unicode where
  /-- `c.isprintable()`. -/
  printable : Char → Bool
  /-- The value of a decimal digit. -/
  decimal : Char → Option ℕ

namespace Unicode

/-- Nothing outside ASCII is printed as it is or is a digit. -/
def ascii : Unicode := ⟨fun _ => false, fun _ => none⟩

/-- The value of a decimal digit. -/
def digit (u : Unicode) (c : Char) : Option ℕ :=
  if isAscii c then if c.isDigit then some (c.toNat - 48) else none else u.decimal c

theorem digit_of_isDigit (u : Unicode) {c : Char} (h : c.isDigit = true) :
    u.digit c = some (c.toNat - 48) := by
  have hascii : isAscii c = true := by
    unfold Char.isDigit at h
    rw [Bool.and_eq_true, decide_eq_true_iff, decide_eq_true_iff] at h
    unfold isAscii
    rw [decide_eq_true_iff]
    have hle : c.toNat ≤ 57 := h.2
    omega
  unfold digit
  rw [if_pos hascii, if_pos h]

/-! ### The texts of strings -/

def apostrophe : Char := Char.ofNat 39

/-- The quote that `repr` puts around a string. -/
def quoteOf (s : Str) : Char := if apostrophe ∈ s ∧ '"' ∉ s then '"' else apostrophe

/-- The last `k` hexadecimal digits of a number. -/
def hexText : ℕ → ℕ → Str
  | 0, _ => []
  | k + 1, n => hexText k (n / 16) ++ [(n % 16).digitChar]

/-- An escape of `repr`. -/
def escape (c : Char) : Str :=
  if c.toNat < 256 then '\\' :: 'x' :: hexText 2 c.toNat
  else if c.toNat < 65536 then '\\' :: 'u' :: hexText 4 c.toNat
  else '\\' :: 'U' :: hexText 8 c.toNat

/-- A character within the `repr` of a string. -/
def reprChar (u : Unicode) (quote c : Char) : Str :=
  if c = quote ∨ c = '\\' then ['\\', c]
  else if c = '\n' then ['\\', 'n']
  else if c = '\r' then ['\\', 'r']
  else if c = '\t' then ['\\', 't']
  else if isAscii c then if c.toNat < 32 ∨ c.toNat = 127 then escape c else [c]
  else if u.printable c then [c]
  else escape c

/-- `repr(s)` of a string. -/
def reprStr (u : Unicode) (s : Str) : Str :=
  quoteOf s :: (s.flatMap (u.reprChar (quoteOf s)) ++ [quoteOf s])

theorem reprChar_ne_nil (u : Unicode) (quote c : Char) : u.reprChar quote c ≠ [] := by
  unfold reprChar escape
  split_ifs <;> exact List.cons_ne_nil _ _

theorem length_le_reprStr (u : Unicode) (s : Str) : s.length + 2 ≤ (u.reprStr s).length := by
  have hbody : ∀ (q : Char) (s : Str), s.length ≤ (s.flatMap (u.reprChar q)).length := by
    intro q s
    induction s with
    | nil => exact le_rfl
    | cons c s ih =>
        have hc := List.length_pos_iff.mpr (u.reprChar_ne_nil q c)
        rw [List.flatMap_cons, List.length_append, List.length_cons]
        omega
  have h := hbody (quoteOf s) s
  unfold reprStr
  rw [List.length_cons, List.length_append, List.length_singleton]
  omega

end Unicode

/-! ### Floats -/

/-- `str(x)` of a float. -/
def PyFloat.str {F : Type} [FloatText F] : PyFloat F → Str
  | .fin x => FloatText.repr x
  | .inf false => "inf"
  | .inf true => "-inf"
  | .nan => "nan"

/-- Floats with their conversions. -/
class Binary64 (F : Type) extends FloatText F where
  /-- The number that a finite float is. -/
  value : F → ℚ
  /-- `float(s)` of a string; `none` when it raises. -/
  ofStr : Str → Option (PyFloat F)
  /-- `float(n)` of an integer; `none` when it is too large. -/
  ofInt : ℤ → Option F
  ofStr_str : ∀ x : PyFloat F, ofStr x.str = some x
  ofInt_isSome : ∀ n : ℤ, n.natAbs ≤ 9007199254740992 → (ofInt n).isSome = true

/-- The text of a finite float is not that of an integer. -/
theorem repr_ne_intText {F : Type} [FloatText F] (x : F) (n : ℤ) :
    FloatText.repr x ≠ intText n := by
  intro h
  have hreal := Json.scanNumber_real (F := F) (FloatText.repr_real x) Json.stops_nil
  have hint := Json.scanNumber_intText (F := F) n Json.stops_nil
  rw [h, hint] at hreal
  cases hreal

namespace Json

variable {F : Type}

/-! ### Texts -/

section texts
variable [FloatText F] (u : Unicode)

mutual
/-- `repr(v)`. -/
def repr : Json F → Str
  | null => "None"
  | bool true => "True"
  | bool false => "False"
  | int n => intText n
  | float x => x.str
  | str s => u.reprStr s
  | list xs => '[' :: reprItems xs
  | dict entries => '{' :: reprEntries entries

def reprItems : List (Json F) → Str
  | [] => [']']
  | x :: xs => repr x ++ if xs.isEmpty then [']'] else ',' :: ' ' :: reprItems xs

def reprEntries : List (Str × Json F) → Str
  | [] => ['}']
  | (k, v) :: entries =>
      u.reprStr k ++ ':' :: ' ' ::
        (repr v ++ if entries.isEmpty then ['}'] else ',' :: ' ' :: reprEntries entries)
end

/-- `str(v)`. -/
def toStr : Json F → Str
  | str s => s
  | v => v.repr u

/-- The text of a list of one value is longer than that of the value. -/
theorem toStr_ne_singleton (v : Json F) : v.toStr u ≠ (list [v]).toStr u := by
  have hlength : ((list [v]).toStr u).length = (v.repr u).length + 2 := by
    show ('[' :: (v.repr u ++ [']'])).length = _
    simp
  have hle : (v.toStr u).length ≤ (v.repr u).length := by
    cases v with
    | str s =>
        have h := u.length_le_reprStr s
        show s.length ≤ (u.reprStr s).length
        omega
    | null | bool _ | int _ | float _ | list _ | dict _ => exact le_rfl
  intro h
  rw [← h] at hlength
  omega

end texts

/-! ### Entries of dictionaries -/

theorem setItem_eq (k : Str) (v : Json F) (d : List (Str × Json F)) :
    setItem k v d = Dict.set k v d := by
  induction d with
  | nil => rfl
  | cons e d ih => rw [setItem, Dict.set, ih]

theorem lookup_setItem (k : Str) (v : Json F) (d : List (Str × Json F)) :
    (setItem k v d).lookup k = some v := by
  rw [setItem_eq, Dict.lookup_set, if_pos rfl]

theorem lookup_setItem_of_ne {k k' : Str} (h : k' ≠ k) (v : Json F) (d : List (Str × Json F)) :
    (setItem k v d).lookup k' = d.lookup k' := by
  rw [setItem_eq, Dict.lookup_set, if_neg h]

/-- Setting an item keeps the keys distinct. -/
theorem setItem_wf {k : Str} {v : Json F} {d : List (Str × Json F)} (hv : v.WF)
    (hd : (dict d).WF) : (dict (setItem k v d)).WF := by
  rw [setItem_eq]
  refine ⟨Dict.nodup_set hd.1, wfEntries_iff.mpr (fun e he => ?_)⟩
  rcases Dict.mem_of_mem_set he with rfl | he
  · exact hv
  · exact wfEntries_iff.mp hd.2 e he

/-! ### Decoded values have distinct keys -/

section decode
variable [FloatText F]

omit [FloatText F] in
theorem ofPairs_wf {pairs : List (Str × Json F)} (h : WFEntries pairs) :
    (dict (ofPairs pairs)).WF := by
  have hfold : ∀ d : List (Str × Json F), (dict d).WF →
      (dict (pairs.foldl (fun d e => setItem e.1 e.2 d) d)).WF := by
    induction pairs with
    | nil => exact fun _ hd => hd
    | cons e pairs ih =>
        intro d hd
        exact ih h.2 _ (setItem_wf h.1 hd)
  exact hfold [] ⟨List.nodup_nil, trivial⟩

omit [FloatText F] in
theorem scanWord_eq_some {w s : Str} {v : Json F} {r : Json F × Str}
    (h : scanWord w v s = some r) : r.1 = v := by
  unfold scanWord at h
  split_ifs at h
  cases h
  rfl

theorem scanNumber_wf {s : Str} {r : Json F × Str} (h : scanNumber s = some r) : r.1.WF := by
  unfold scanNumber at h
  dsimp only at h
  split at h
  · cases h
  · split at h
    · cases h
      exact trivial
    · cases h
      exact trivial

theorem scanAtom_wf {s : Str} {r : Json F × Str} (h : scanAtom s = some r) : r.1.WF := by
  unfold scanAtom at h
  simp only [Option.orElse_eq_orElse, Option.orElse_eq_or, Option.or_eq_some_iff] at h
  rcases h with h | ⟨-, h | ⟨-, h | ⟨-, h | ⟨-, h | ⟨-, h | ⟨-, h⟩⟩⟩⟩⟩⟩
  · rw [scanWord_eq_some h]
    exact trivial
  · rw [scanWord_eq_some h]
    exact trivial
  · rw [scanWord_eq_some h]
    exact trivial
  · exact scanNumber_wf h
  · rw [scanWord_eq_some h]
    exact trivial
  · rw [scanWord_eq_some h]
    exact trivial
  · rw [scanWord_eq_some h]
    exact trivial

/-- The dictionaries of a value that is read have distinct keys. -/
theorem scan_wf (fuel : ℕ) :
    (∀ s r, scanOnce fuel s = some r → (r.1 : Json F).WF) ∧
      (∀ s r, scanItems fuel s = some r → WFItems (r.1 : List (Json F))) ∧
      ∀ s r, scanEntries fuel s = some r → WFEntries (r.1 : List (Str × Json F)) := by
  induction fuel with
  | zero =>
      refine ⟨fun s r h => ?_, fun s r h => ?_, fun s r h => ?_⟩
      · rw [scanOnce] at h
        cases h
      · rw [scanItems] at h
        cases h
      · rw [scanEntries] at h
        cases h
  | succ fuel ih =>
      obtain ⟨ihOnce, ihItems, ihEntries⟩ := ih
      refine ⟨fun s r h => ?_, fun s r h => ?_, fun s r h => ?_⟩
      · cases scansOnce h with
        | string | emptyList => exact trivial
        | emptyDict => exact ⟨List.nodup_nil, trivial⟩
        | entries _ hx => exact ofPairs_wf (ihEntries _ _ hx)
        | items hx => exact ihItems _ _ hx
        | atom h => exact scanAtom_wf h
      · cases scansItems h with
        | last hv => exact ⟨ihOnce _ _ hv, trivial⟩
        | more hv _ hx => exact ⟨ihOnce _ _ hv, ihItems _ _ hx⟩
      · cases scansEntries h with
        | last _ _ hv => exact ⟨ihOnce _ _ hv, trivial⟩
        | more _ _ hv _ _ hx => exact ⟨ihOnce _ _ hv, ihEntries _ _ hx⟩

theorem loads_wf {s : Str} {v : Json F} (h : loads s = some v) : v.WF := by
  unfold loads at h
  split at h
  · cases h
  · next w t hw =>
      split_ifs at h
      cases h
      exact (scan_wf _).1 _ _ hw

end decode

/-! ### Equality -/

section equality
variable [Binary64 F]

/-- The number that a value is. -/
def number : Json F → Option (PyFloat ℚ)
  | bool b => some (.fin (if b then 1 else 0))
  | int n => some (.fin n)
  | float (.fin x) => some (.fin (Binary64.value x))
  | float (.inf neg) => some (.inf neg)
  | float .nan => some .nan
  | _ => none

/-- `bool(v)`. -/
def truthy : Json F → Bool
  | null => false
  | str s => !s.isEmpty
  | list xs => !xs.isEmpty
  | dict entries => !entries.isEmpty
  | v => number v ≠ some (.fin 0)

mutual
/-- `v is w or v == w`. -/
def same : Json F → Json F → Bool
  | null, null => true
  | str s, str t => s = t
  | list xs, list ys => sameItems xs ys
  | dict d, dict e => d.length = e.length && sameEntries d e
  | v, w => (number v).isSome && number v = number w

def sameItems : List (Json F) → List (Json F) → Bool
  | [], [] => true
  | x :: xs, y :: ys => same x y && sameItems xs ys
  | _, _ => false

/-- The dictionary `e` has the entries of a list. -/
def sameEntries : List (Str × Json F) → List (Str × Json F) → Bool
  | [], _ => true
  | (k, v) :: d, e =>
      (match e.lookup k with
        | none => false
        | some w => same v w) && sameEntries d e
end

/-- `v == w`. -/
def eq (v w : Json F) : Bool := number v ≠ some .nan && same v w

theorem number_eq_nan_iff {v : Json F} : number v = some .nan ↔ v = float .nan := by
  cases v with
  | float x => cases x <;> simp [number]
  | null | bool _ | int _ | str _ | list _ | dict _ => simp [number]

theorem same_of_number {v : Json F} {x : PyFloat ℚ} (h : number v = some x) :
    same v v = true := by
  cases v with
  | bool _ | int _ | float _ => simp [same, h]
  | null | str _ | list _ | dict _ => cases h

mutual
/-- A value is the same as itself. -/
theorem same_self : ∀ v : Json F, v.WF → same v v = true
  | null, _ => by rw [same]
  | bool b, _ => same_of_number (v := bool b) rfl
  | int n, _ => same_of_number (v := int n) rfl
  | float (.fin x), _ => same_of_number (v := float (.fin x)) rfl
  | float (.inf neg), _ => same_of_number (v := float (.inf neg)) rfl
  | float .nan, _ => same_of_number (v := float .nan) rfl
  | str s, _ => by rw [same, decide_eq_true_iff]
  | list xs, h => by
      rw [same]
      exact sameItems_self xs h
  | dict d, h => by
      rw [same, Bool.and_eq_true, decide_eq_true_iff]
      exact ⟨rfl, sameEntries_self d h.2 d (fun e he => Dict.lookup_of_mem h.1 he)⟩

theorem sameItems_self : ∀ xs : List (Json F), WFItems xs → sameItems xs xs = true
  | [], _ => by rw [sameItems]
  | x :: xs, h => by
      rw [sameItems, same_self x h.1, sameItems_self xs h.2]
      rfl

theorem sameEntries_self : ∀ d : List (Str × Json F), WFEntries d → ∀ e : List (Str × Json F),
    (∀ p ∈ d, e.lookup p.1 = some p.2) → sameEntries d e = true
  | [], _, _, _ => by rw [sameEntries]
  | (k, v) :: d, h, e, he => by
      have hrest := sameEntries_self d h.2 e (fun p hp => he p (List.mem_cons_of_mem _ hp))
      rw [sameEntries, he (k, v) List.mem_cons_self, hrest]
      dsimp only
      rw [same_self v h.1]
      rfl
end

theorem eq_self_iff {v : Json F} (h : v.WF) : eq v v = true ↔ number v ≠ some .nan := by
  unfold eq
  rw [same_self v h, Bool.and_true, decide_eq_true_iff]

end equality

/-! ### Conversions -/

/-- An `OverflowError`. -/
inductive Overflow where
  | overflowError

/-- The white space around an integer. -/
def isIntSpace (c : Char) : Bool := isSpace c && !(28 ≤ c.toNat && c.toNat ≤ 31)

/-- The number of a list of digits, single underscores between them. -/
def digitsOf (u : Unicode) (s : Str) : Option ℕ :=
  let parts := s.splitOn '_'
  if parts.all (fun p => !p.isEmpty && p.all (fun c => (u.digit c).isSome)) then
    some (parts.flatten.foldl (fun n c => 10 * n + (u.digit c).getD 0) 0)
  else none

/-- `int(s)` of a string; `none` when it raises. -/
def intOf (u : Unicode) (s : Str) : Option ℤ :=
  let s := ((s.dropWhile isIntSpace).reverse.dropWhile isIntSpace).reverse
  match s with
  | [] => none
  | c :: t =>
      if c = '-' then (digitsOf u t).map (fun n : ℕ => -(n : ℤ))
      else if c = '+' then (digitsOf u t).map (fun n : ℕ => (n : ℤ))
      else (digitsOf u (c :: t)).map (fun n : ℕ => (n : ℤ))

theorem foldl_digits (u : Unicode) {s : Str} (hs : ∀ c ∈ s, c.isDigit = true) (n : ℕ) :
    s.foldl (fun n c => 10 * n + (u.digit c).getD 0) n = Nat.ofDigitChars 10 s n := by
  unfold Nat.ofDigitChars
  induction s generalizing n with
  | nil => rfl
  | cons c s ih =>
      have hc : u.digit c = some (c.toNat - 48) := u.digit_of_isDigit (hs c List.mem_cons_self)
      rw [List.foldl_cons, List.foldl_cons, ih (fun d hd => hs d (List.mem_cons_of_mem _ hd)), hc]
      rfl

theorem digitsOf_natText (u : Unicode) (n : ℕ) : digitsOf u (natText n) = some n := by
  obtain ⟨hne, hdigits⟩ := natText_digits n
  have hunderscore : '_' ∉ natText n := fun h => by cases hdigits _ h
  unfold digitsOf
  rw [List.splitOn_eq_singleton hunderscore]
  dsimp only
  rw [if_pos, List.flatten_singleton, foldl_digits u hdigits]
  · unfold natText
    rw [Nat.ofDigitChars_ten_toDigits]
  · rw [List.all_cons, List.all_nil, Bool.and_true, Bool.and_eq_true]
    refine ⟨by simpa using hne, List.all_eq_true.mpr (fun c hc => ?_)⟩
    rw [u.digit_of_isDigit (hdigits c hc)]
    rfl

theorem isIntSpace_of_isDigit {c : Char} (h : c.isDigit = true) : isIntSpace c = false := by
  unfold Char.isDigit at h
  rw [Bool.and_eq_true, decide_eq_true_iff, decide_eq_true_iff] at h
  have hge : 48 ≤ c.toNat := h.1
  have hle : c.toNat ≤ 57 := h.2
  unfold isIntSpace isSpace
  rw [Bool.and_eq_false_iff]
  left
  simp only [Bool.or_eq_false_iff, Bool.and_eq_false_iff, decide_eq_false_iff_not,
    beq_eq_false_iff_ne]
  omega

/-- `int` reads the text of an integer. -/
theorem intOf_intText (u : Unicode) (n : ℤ) : intOf u (intText n) = some n := by
  have hspace : ∀ c ∈ intText n, isIntSpace c = false := by
    intro c hc
    rcases List.mem_append.mp hc with hc | hc
    · unfold signText at hc
      split_ifs at hc
      · rw [List.mem_singleton.mp hc]
        rfl
      · cases hc
    · exact isIntSpace_of_isDigit ((natText_digits _).2 c hc)
  have hstrip : (((intText n).dropWhile isIntSpace).reverse.dropWhile isIntSpace).reverse =
      intText n := by
    have hdrop : ∀ s : Str, (∀ c ∈ s, isIntSpace c = false) → s.dropWhile isIntSpace = s := by
      intro s hs
      cases s with
      | nil => rfl
      | cons c s => exact List.dropWhile_cons_of_neg (by simp [hs c List.mem_cons_self])
    rw [hdrop _ hspace, hdrop _ (fun c hc => hspace c (List.mem_reverse.mp hc)),
      List.reverse_reverse]
  unfold intOf
  rw [hstrip]
  unfold intText
  by_cases hn : n < 0
  · have hsign : signText (decide (n < 0)) = ['-'] := by simp [signText, hn]
    rw [hsign, List.singleton_append]
    dsimp only
    rw [if_pos rfl, digitsOf_natText, Option.map_some]
    congr 1
    omega
  · have hsign : signText (decide (n < 0)) = [] := by simp [signText, hn]
    obtain ⟨c, t, hc, hdigit, -⟩ := natText_cons n.natAbs
    have hplus : c ≠ '+' := by
      rintro rfl
      cases hdigit
    have hminus : c ≠ '-' := by
      rintro rfl
      cases hdigit
    have hvalue := digitsOf_natText u n.natAbs
    rw [hc] at hvalue
    rw [hsign, List.nil_append, hc]
    dsimp only
    rw [if_neg hminus, if_neg hplus, hvalue, Option.map_some]
    congr 1
    omega

/-- `int(v)` of a value that is not a boolean. -/
def toInt [Binary64 F] (u : Unicode) : Json F → Except Overflow (Option ℤ)
  | int n => .ok (some n)
  | float (.fin x) => .ok (some ((Binary64.value x).num.tdiv (Binary64.value x).den))
  | float (.inf _) => .error .overflowError
  | str s => .ok (intOf u s)
  | _ => .ok none

/-- `float(v)`. -/
def toFloat [Binary64 F] : Json F → Except Overflow (Option (PyFloat F))
  | bool b =>
      match Binary64.ofInt (if b then 1 else 0) with
      | none => .error .overflowError
      | some x => .ok (some (.fin x))
  | int n =>
      match Binary64.ofInt n with
      | none => .error .overflowError
      | some x => .ok (some (.fin x))
  | float x => .ok (some x)
  | str s => .ok (Binary64.ofStr s)
  | _ => .ok none

end Json

/-! ### Floats of one decimal, for closed examples -/

/-- A float with one decimal. -/
structure Tenths where
  neg : Bool
  whole : ℕ
  tenth : Fin 10
  deriving DecidableEq

namespace Tenths

def text (x : Tenths) : Str :=
  signText x.neg ++ natText x.whole ++ ['.', (x.tenth : ℕ).digitChar] ++ []

/-- A sign, digits, a point and a digit. -/
def parse (s : Str) : Option Tenths :=
  let (neg, s) := Json.scanMinus s
  match Json.scanWhole s with
  | some (whole, [c, d]) =>
      if h : c = '.' ∧ d.toNat - 48 < 10 then
        some ⟨neg, Nat.ofDigitChars 10 whole 0, ⟨d.toNat - 48, h.2⟩⟩
      else none
  | _ => none

theorem text_real (x : Tenths) : IsReal x.text := by
  refine ⟨x.neg, x.whole, ['.', (x.tenth : ℕ).digitChar], [], rfl, Or.inr ?_, Or.inl rfl, Or.inl ?_⟩
  · refine ⟨[(x.tenth : ℕ).digitChar], rfl, List.cons_ne_nil _ _, fun c hc => ?_⟩
    rw [List.mem_singleton.mp hc]
    have hdigits := (Json.natText_digits (x.tenth : ℕ)).2
    unfold natText at hdigits
    rw [Nat.toDigits_of_lt_base x.tenth.isLt] at hdigits
    exact hdigits _ List.mem_cons_self
  · exact List.cons_ne_nil _ _

theorem parse_text (x : Tenths) : parse x.text = some x := by
  have hrest : ∀ c t, (['.', (x.tenth : ℕ).digitChar] : Str) = c :: t → c.isDigit = false := by
    intro c t h
    cases h
    rfl
  have htenth := Nat.toNat_digitChar_sub_48_of_lt_ten x.tenth.isLt
  unfold parse text
  rw [List.append_nil, List.append_assoc, Json.scanMinus_append]
  dsimp only
  rw [Json.scanWhole_natText x.whole hrest]
  dsimp only
  rw [dif_pos ⟨rfl, by rw [htenth]; exact x.tenth.isLt⟩]
  unfold natText
  simp only [Nat.ofDigitChars_ten_toDigits, htenth]

instance : Binary64 Tenths where
  repr := text
  ofLiteral s := (parse s).elim .nan .fin
  repr_real := text_real
  ofLiteral_repr x := by rw [parse_text, Option.elim_some]
  value x := (if x.neg then -1 else 1) * ((x.whole : ℚ) + (x.tenth : ℕ) / 10)
  ofStr s :=
    match parse s with
    | some x => some (.fin x)
    | none =>
        if s = "inf" then some (.inf false)
        else if s = "-inf" then some (.inf true)
        else if s = "nan" then some .nan
        else none
  ofInt n := some ⟨n < 0, n.natAbs, ⟨0, by decide⟩⟩
  ofStr_str x := by
    cases x with
    | fin x =>
        have h := parse_text x
        show (match parse x.text with
          | some x => some (PyFloat.fin x)
          | none => _) = _
        rw [h]
    | inf neg => cases neg <;> rfl
    | nan => rfl
  ofInt_isSome _ _ := rfl

end Tenths

end RagFlow
