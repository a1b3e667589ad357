import Mathlib.Order.WithBot
import RagFlow.Binary64
import RagFlow.JsonText

/-! # Numbers of JavaScript and their texts

The numbers of JavaScript other than NaN, and the two conversions `Number(s)` and `String(x)`, for
programs that keep numbers in texts.

* **Numbers.** A finite number is a double, written as the rational number it is; the two zeros are
  one (`Number`).
* **Reading.** `number` reads a text, which may be empty, have white space around it, be a decimal
  number with a sign, or one in another radix.
* **Writing.** `toText` takes the coarsest decimal grid with a number that is read back
  (`shortest`), and shows it with or without an exponent.
* **Round trip.** `number_toText`: every double is read back from its text. -/

namespace RagFlow.Js

open Py

/-! ### Numbers -/

/-- A number other than NaN. -/
inductive Number where
  | negInfinity
  | finite (q : ℚ)
  | infinity
deriving DecidableEq

namespace Number

def toOrder : Number → WithBot (WithTop ℚ)
  | negInfinity => ⊥
  | finite q => ((q : WithTop ℚ) : WithBot (WithTop ℚ))
  | infinity => ((⊤ : WithTop ℚ) : WithBot (WithTop ℚ))

theorem toOrder_injective : Function.Injective toOrder := by
  intro a b h
  cases a with
  | negInfinity =>
      cases b with
      | negInfinity => rfl
      | finite q => exact absurd h (WithBot.bot_ne_coe)
      | infinity => exact absurd h (WithBot.bot_ne_coe)
  | finite p =>
      cases b with
      | negInfinity => exact absurd h (WithBot.coe_ne_bot)
      | finite q => exact congrArg finite (WithTop.coe_inj.mp (WithBot.coe_inj.mp h))
      | infinity => exact absurd (WithBot.coe_inj.mp h) (WithTop.coe_ne_top)
  | infinity =>
      cases b with
      | negInfinity => exact absurd h (WithBot.coe_ne_bot)
      | finite q => exact absurd (WithBot.coe_inj.mp h) (WithTop.top_ne_coe)
      | infinity => rfl

instance : LinearOrder Number := LinearOrder.lift' toOrder toOrder_injective

theorem finite_lt_finite {p q : ℚ} : finite p < finite q ↔ p < q :=
  WithBot.coe_lt_coe.trans WithTop.coe_lt_coe

theorem finite_le_finite {p q : ℚ} : finite p ≤ finite q ↔ p ≤ q :=
  WithBot.coe_le_coe.trans WithTop.coe_le_coe

/-- The number nearest to `q`. -/
def round (q : ℚ) : Number :=
  if 2 ^ 1024 ≤ Binary64.nearest q then infinity
  else if Binary64.nearest q ≤ -2 ^ 1024 then negInfinity
  else finite (Binary64.nearest q)

def neg : Number → Number
  | negInfinity => infinity
  | finite q => finite (-q)
  | infinity => negInfinity

/-- `x + 1`. -/
def addOne : Number → Number
  | finite q => round (q + 1)
  | x => x

/-- The finite numbers are doubles. -/
def IsDouble : Number → Prop
  | finite q => Binary64.IsDouble q ∧ |q| < 2 ^ 1024
  | _ => True

end Number

/-! ### Reading -/

/-- White space and line ends. -/
def isSpace (c : Char) : Bool :=
  let n := c.toNat
  (9 ≤ n && n ≤ 13) || n == 32 || n == 0xA0 || n == 0x1680 || (0x2000 ≤ n && n ≤ 0x200A) ||
    n == 0x2028 || n == 0x2029 || n == 0x202F || n == 0x205F || n == 0x3000 || n == 0xFEFF

def trim (s : Str) : Str := (s.dropWhile isSpace).rdropWhile isSpace

/-- Some decimal digits. -/
def digitsValue (ds : Str) : Option ℕ :=
  if ds ≠ [] ∧ ds.all Char.isDigit then some (Nat.ofDigitChars 10 ds 0) else none

/-- The exponent at the end of a number, or none. -/
def parseExponent : Str → Option ℤ
  | [] => some 0
  | c :: t =>
      if c = 'e' ∨ c = 'E' then
        match t with
        | '+' :: ds => (digitsValue ds).map (fun e : ℕ => (e : ℤ))
        | '-' :: ds => (digitsValue ds).map (fun e : ℕ => -(e : ℤ))
        | ds => (digitsValue ds).map (fun e : ℕ => (e : ℤ))
      else none

/-- The digits after the decimal point, and the rest. -/
def scanFraction : Str → Str × Str
  | '.' :: t => Json.scanDigits t
  | rest => ([], rest)

/-- A decimal number without a sign. -/
def parseDecimal (s : Str) : Option ℚ :=
  let (whole, rest) := Json.scanDigits s
  let (fraction, rest) := scanFraction rest
  if whole ++ fraction = [] then none
  else (parseExponent rest).map (fun e =>
    ((Nat.ofDigitChars 10 (whole ++ fraction) 0 : ℕ) : ℚ) * 10 ^ (e - (fraction.length : ℤ)))

/-- The value of a digit in a radix up to 16. -/
def radixDigit (c : Char) : ℕ :=
  if c.isDigit then c.toNat - '0'.toNat
  else if 'a' ≤ c ∧ c ≤ 'f' then c.toNat - 'a'.toNat + 10
  else if 'A' ≤ c ∧ c ≤ 'F' then c.toNat - 'A'.toNat + 10
  else 16

/-- An integer in another radix. -/
def parseRadix (radix : ℕ) (ds : Str) : Option Number :=
  if ds ≠ [] ∧ ds.all (fun c => radixDigit c < radix) then
    some (Number.round (ds.foldl (fun n c => radix * n + radixDigit c) 0 : ℕ))
  else none

def parseUnsigned (s : Str) : Option Number :=
  if s = "Infinity".toList then some .infinity else (parseDecimal s).map Number.round

def parseSigned : Str → Option Number
  | '+' :: s => parseUnsigned s
  | '-' :: s => (parseUnsigned s).map Number.neg
  | s => parseUnsigned s

/-- The radix that the second character stands for. -/
def radixOf (c : Char) : Option ℕ :=
  if c = 'x' ∨ c = 'X' then some 16
  else if c = 'o' ∨ c = 'O' then some 8
  else if c = 'b' ∨ c = 'B' then some 2
  else none

/-- `Number(s)`; `none` is NaN. -/
def number (s : Str) : Option Number :=
  match trim s with
  | [] => some (.finite 0)
  | '0' :: c :: ds =>
      match radixOf c with
      | some radix => parseRadix radix ds
      | none => parseSigned ('0' :: c :: ds)
  | t => parseSigned t

/-! ### Writing -/

/-- The multiple of `10 ^ j` that is read back as `q`, the closest one. -/
def candidate (q : ℚ) (j : ℤ) : Option ℕ :=
  let d := ⌊q / 10 ^ j⌋.toNat
  (if q / 10 ^ j - d ≤ 1 / 2 then [d, d + 1] else [d + 1, d]).find?
    (fun s => 0 < s ∧ Binary64.nearest (s * 10 ^ j) = q)

/-- The grids from the coarsest on; on the last of these every double has a number. -/
def grids : List ℤ := (List.range 1400).map (fun i : ℕ => 309 - (i : ℤ))

/-- The coarsest grid with a number that is read back, and the number. -/
def shortest (q : ℚ) : Option (ℕ × ℤ) :=
  grids.findSome? (fun j => (candidate q j).map (fun s => (s, j)))

/-- The exponent `e` of a text. -/
def exponentText (e : ℤ) : Str := 'e' :: (if e < 0 then '-' else '+') :: natText e.natAbs

/-- The text of `s * 10 ^ j`. -/
def formatDecimal (s : ℕ) (j : ℤ) : Str :=
  let digits := natText s
  let n := digits.length + j
  if 0 ≤ j ∧ n ≤ 21 then digits ++ List.replicate j.toNat '0'
  else if 0 < n ∧ n ≤ 21 then digits.take n.toNat ++ '.' :: digits.drop n.toNat
  else if -6 < n ∧ n ≤ 0 then '0' :: '.' :: (List.replicate (-n).toNat '0' ++ digits)
  else if digits.length = 1 then digits ++ exponentText (n - 1)
  else digits.take 1 ++ '.' :: digits.drop 1 ++ exponentText (n - 1)

/-- The text of a positive number. -/
def positiveText (q : ℚ) : Str :=
  match shortest q with
  | some (s, j) => formatDecimal s j
  | none => []

/-- `String(x)`. -/
def toText : Number → Str
  | .negInfinity => "-Infinity".toList
  | .infinity => "Infinity".toList
  | .finite q =>
      if q = 0 then ['0'] else if q < 0 then '-' :: positiveText (-q) else positiveText q

/-! ### Reading what is written -/

section decimal

theorem digitsValue_natText (n : ℕ) : digitsValue (natText n) = some n := by
  obtain ⟨hne, hdigits⟩ := Json.natText_digits n
  unfold digitsValue
  rw [if_pos ⟨hne, List.all_eq_true.mpr hdigits⟩]
  exact congrArg some Nat.ofDigitChars_ten_toDigits

theorem parseExponent_exponentText (e : ℤ) : parseExponent (exponentText e) = some e := by
  unfold exponentText
  by_cases he : e < 0
  · rw [if_pos he]
    show (digitsValue (natText e.natAbs)).map (fun e : ℕ => -(e : ℤ)) = some e
    rw [digitsValue_natText, Option.map_some]
    congr 1
    omega
  · rw [if_neg he]
    show (digitsValue (natText e.natAbs)).map (fun e : ℕ => (e : ℤ)) = some e
    rw [digitsValue_natText, Option.map_some]
    congr 1
    omega

/-- What may follow the digits of a number. -/
def IsMark (mark : Str) (e : ℤ) : Prop := mark = [] ∧ e = 0 ∨ mark = exponentText e

theorem IsMark.parse {mark : Str} {e : ℤ} (h : IsMark mark e) : parseExponent mark = some e := by
  rcases h with ⟨rfl, rfl⟩ | rfl
  · rfl
  · exact parseExponent_exponentText e

theorem IsMark.stops {mark : Str} {e : ℤ} (h : IsMark mark e) :
    ∀ c t, mark = c :: t → c.isDigit = false ∧ c ≠ '.' := by
  rintro c t rfl
  rcases h with ⟨hnil, -⟩ | h
  · cases hnil
  · obtain ⟨rfl, -⟩ := List.cons.inj h
    exact ⟨by decide, by decide⟩

/-- A number without a decimal point. -/
theorem parseDecimal_whole {whole mark : Str} {e : ℤ} (hne : whole ≠ [])
    (hwhole : ∀ c ∈ whole, c.isDigit = true) (hmark : IsMark mark e) :
    parseDecimal (whole ++ mark) =
      some (((Nat.ofDigitChars 10 whole 0 : ℕ) : ℚ) * 10 ^ e) := by
  have hfraction : scanFraction mark = ([], mark) := by
    cases mark with
    | nil => rfl
    | cons c t =>
        have hdot := (hmark.stops c t rfl).2
        unfold scanFraction
        split
        next t' heq => exact absurd (List.cons.inj heq).1 hdot
        next => rfl
  unfold parseDecimal
  rw [Json.scanDigits_append hwhole (fun c t h => (hmark.stops c t h).1)]
  dsimp only
  rw [hfraction]
  dsimp only
  rw [List.append_nil, if_neg hne, hmark.parse, Option.map_some, List.length_nil, Nat.cast_zero,
    sub_zero]

/-- A number with a decimal point. -/
theorem parseDecimal_point {whole fraction mark : Str} {e : ℤ} (hne : whole ++ fraction ≠ [])
    (hwhole : ∀ c ∈ whole, c.isDigit = true) (hfraction : ∀ c ∈ fraction, c.isDigit = true)
    (hmark : IsMark mark e) : parseDecimal (whole ++ '.' :: (fraction ++ mark)) =
      some (((Nat.ofDigitChars 10 (whole ++ fraction) 0 : ℕ) : ℚ) *
        10 ^ (e - (fraction.length : ℤ))) := by
  have hpoint : ∀ c t, '.' :: (fraction ++ mark) = c :: t → c.isDigit = false := by
    intro c t h
    obtain ⟨rfl, -⟩ := List.cons.inj h
    rfl
  have hscan : scanFraction ('.' :: (fraction ++ mark)) = (fraction, mark) :=
    Json.scanDigits_append hfraction (fun c t h => (hmark.stops c t h).1)
  unfold parseDecimal
  rw [Json.scanDigits_append hwhole hpoint]
  dsimp only
  rw [hscan]
  dsimp only
  rw [if_neg hne, hmark.parse, Option.map_some]

/-- The text of a decimal is read as its value. -/
theorem parseDecimal_formatDecimal (s : ℕ) (j : ℤ) :
    parseDecimal (formatDecimal s j) = some ((s : ℚ) * 10 ^ j) := by
  obtain ⟨hne, hdigits⟩ := Json.natText_digits s
  have hvalue : Nat.ofDigitChars 10 (natText s) 0 = s := Nat.ofDigitChars_ten_toDigits
  have hten : (10 : ℚ) ≠ 0 := by norm_num
  have hlength : 0 < (natText s).length := List.length_pos_iff.mpr hne
  have hnone : IsMark [] 0 := Or.inl ⟨rfl, rfl⟩
  have hzeros : ∀ n : ℕ, ∀ c ∈ List.replicate n '0', c.isDigit = true := by
    intro n c hc
    rw [(List.mem_replicate.mp hc).2]
    rfl
  unfold formatDecimal
  dsimp only
  split_ifs with hwhole hpoint hsmall hone
  · have hread := @parseDecimal_whole (natText s ++ List.replicate j.toNat '0') [] 0
      (List.append_ne_nil_of_left_ne_nil hne _)
      (fun c hc => (List.mem_append.mp hc).elim (hdigits c) (hzeros _ c)) hnone
    rw [List.append_nil] at hread
    rw [hread, Nat.ofDigitChars_append, Nat.ofDigitChars_replicate_zero, hvalue, zpow_zero, mul_one]
    congr 1
    push_cast
    rw [mul_comm, ← zpow_natCast, Int.toNat_of_nonneg hwhole.1]
  · have hread := @parseDecimal_point ((natText s).take ((natText s).length + j).toNat)
      ((natText s).drop ((natText s).length + j).toNat) [] 0
      (by rwa [List.take_append_drop])
      (fun c hc => hdigits c (List.mem_of_mem_take hc))
      (fun c hc => hdigits c (List.mem_of_mem_drop hc)) hnone
    rw [List.append_nil] at hread
    rw [hread, List.take_append_drop, hvalue, List.length_drop]
    congr 3
    omega
  · have hread := @parseDecimal_point ['0']
      (List.replicate (-((natText s).length + j : ℤ)).toNat '0' ++ natText s) [] 0
      (List.cons_ne_nil _ _) (fun c hc => by rw [List.mem_singleton.mp hc]; rfl)
      (fun c hc => (List.mem_append.mp hc).elim (hzeros _ c) (hdigits c)) hnone
    rw [List.append_nil] at hread
    have hdigitsValue : Nat.ofDigitChars 10 (['0'] ++
        (List.replicate (-((natText s).length + j : ℤ)).toNat '0' ++ natText s)) 0 = s := by
      rw [Nat.ofDigitChars_append, Nat.ofDigitChars_append, Nat.ofDigitChars_replicate_zero]
      show Nat.ofDigitChars 10 (natText s) (_ * 0) = s
      rw [Nat.mul_zero, hvalue]
    rw [hdigitsValue] at hread
    show parseDecimal (['0'] ++ '.' :: _) = _
    rw [hread, List.length_append, List.length_replicate]
    congr 3
    omega
  · have hread := parseDecimal_whole hne hdigits (Or.inr (rfl : _ = exponentText
      ((natText s).length + j - 1)))
    rw [hread, hvalue]
    congr 3
    omega
  · have hread := @parseDecimal_point ((natText s).take 1) ((natText s).drop 1)
      (exponentText ((natText s).length + j - 1)) ((natText s).length + j - 1)
      (by rwa [List.take_append_drop])
      (fun c hc => hdigits c (List.mem_of_mem_take hc))
      (fun c hc => hdigits c (List.mem_of_mem_drop hc)) (Or.inr rfl)
    rw [List.append_assoc, List.cons_append, hread, List.take_append_drop, hvalue, List.length_drop]
    congr 3
    omega

end decimal

/-! ### The grids -/

theorem shortest_spec {q : ℚ} {s : ℕ} {j : ℤ} (h : shortest q = some (s, j)) :
    Binary64.nearest (s * 10 ^ j) = q := by
  obtain ⟨i, -, hi⟩ := List.exists_of_findSome?_eq_some h
  obtain ⟨d, hd, heq⟩ := Option.map_eq_some_iff.mp hi
  cases heq
  have hfound := List.find?_some hd
  rw [decide_eq_true_eq] at hfound
  exact hfound.2

/-- A double is a multiple of every fine enough grid. -/
theorem scaled_double {e : ℤ} {g k : ℕ} (h : e + g = k) (n : ℕ) :
    (n : ℚ) * 2 ^ e / 10 ^ (-(g : ℤ)) = ((n * 2 ^ k * 5 ^ g : ℕ) : ℚ) := by
  have hten : (10 : ℚ) ^ g = 2 ^ g * 5 ^ g := by
    rw [← mul_pow]
    norm_num
  have htwo : (2 : ℚ) ^ e * 2 ^ g = 2 ^ k := by
    rw [← zpow_natCast (2 : ℚ) g, ← zpow_add₀ (by norm_num), h, zpow_natCast]
  rw [zpow_neg, div_inv_eq_mul, zpow_natCast, hten]
  push_cast
  rw [← htwo]
  ring

theorem candidate_of_eq {q : ℚ} {j : ℤ} {d : ℕ} (hq : 0 < q) (hd : Binary64.IsDouble q)
    (h : q / 10 ^ j = d) : (candidate q j).isSome := by
  have hten : (10 : ℚ) ^ j ≠ 0 := by positivity
  have hvalue : (d : ℚ) * 10 ^ j = q := by
    rw [← h, div_mul_cancel₀ _ hten]
  have hpos : 0 < d := by
    rcases Nat.eq_zero_or_pos d with rfl | hpos
    · rw [Nat.cast_zero, zero_mul] at hvalue
      exact absurd hvalue hq.ne
    · exact hpos
  unfold candidate
  rw [h, Int.floor_natCast, Int.toNat_natCast]
  dsimp only
  rw [sub_self, if_pos (by norm_num), List.find?_isSome]
  refine ⟨d, List.mem_cons_self, decide_eq_true ⟨hpos, ?_⟩⟩
  rw [hvalue, Binary64.nearest_of_isDouble hd]

/-- The finest grid has every double. -/
theorem shortest_isSome {q : ℚ} (hq : 0 < q) (hd : Binary64.IsDouble q) : (shortest q).isSome := by
  have hcandidate : (candidate q (-((1074 : ℕ) : ℤ))).isSome := by
    obtain ⟨m, e, hm, he, rfl⟩ := id hd
    have hpos : 0 < m := by
      have hpow : (0 : ℚ) < 2 ^ e := by positivity
      exact_mod_cast (pos_iff_pos_of_mul_pos hq).mpr hpow
    obtain ⟨n, rfl⟩ := Int.eq_ofNat_of_zero_le hpos.le
    obtain ⟨k, hk⟩ := Int.eq_ofNat_of_zero_le (show 0 ≤ e + (1074 : ℕ) by omega)
    exact candidate_of_eq hq hd (scaled_double hk n)
  have hgrid : -((1074 : ℕ) : ℤ) ∈ grids := by
    unfold grids
    rw [List.mem_map]
    exact ⟨1383, List.mem_range.mpr (by omega), by omega⟩
  unfold shortest
  rw [List.findSome?_isSome_iff]
  exact ⟨_, hgrid, by rwa [Option.isSome_map]⟩

/-- On a coarser grid no number is read back as a digit. -/
theorem candidate_digit {n : ℕ} (hn : 0 < n) (hlt : n < 10) {j : ℤ} (hj : 0 < j) :
    candidate n j = none := by
  have hten : (10 : ℚ) ≤ 10 ^ j := by
    calc (10 : ℚ) = 10 ^ (1 : ℤ) := (zpow_one 10).symm
      _ ≤ 10 ^ j := zpow_le_zpow_right₀ (by norm_num) hj
  unfold candidate
  rw [List.find?_eq_none]
  intro s _ hs
  obtain ⟨hpos, hread⟩ := of_decide_eq_true hs
  have hs' : (1 : ℚ) ≤ s := by exact_mod_cast hpos
  have hn' : (n : ℚ) ≤ 9 := by exact_mod_cast Nat.le_of_lt_succ hlt
  have hlarge : (10 : ℚ) ≤ s * 10 ^ j := by nlinarith
  have hd : Binary64.IsDouble ((n : ℚ) + 1) := by
    have h := Binary64.isDouble_intCast (n := (n : ℤ) + 1) (by rw [abs_of_nonneg] <;> omega)
    rwa [Int.cast_add, Int.cast_one, Int.cast_natCast] at h
  have hgreater := Binary64.lt_nearest (m := n) hd (by linarith)
    (show ((n : ℚ) + (n + 1)) / 2 < s * 10 ^ j by linarith)
  exact hgreater.ne' hread

/-- A digit is written as itself. -/
theorem toText_digit {n : ℕ} (hn : 0 < n) (hlt : n < 10) :
    toText (.finite n) = formatDecimal n 0 := by
  have hpos : (0 : ℚ) < n := by exact_mod_cast hn
  have hd : Binary64.IsDouble (n : ℚ) := by
    have h := Binary64.isDouble_intCast (n := (n : ℤ)) (by rw [abs_of_nonneg] <;> omega)
    rwa [Int.cast_natCast] at h
  have hzero : candidate n 0 = some n := by
    unfold candidate
    rw [zpow_zero, div_one, Int.floor_natCast, Int.toNat_natCast]
    dsimp only
    rw [sub_self, if_pos (by norm_num), List.find?_cons_of_pos]
    rw [decide_eq_true_iff, mul_one]
    exact ⟨hn, Binary64.nearest_of_isDouble hd⟩
  have hgrids : grids = (List.range 309).map (fun i : ℕ => 309 - (i : ℤ)) ++
      0 :: ((List.range 1090).map (310 + ·)).map (fun i : ℕ => 309 - (i : ℤ)) := by
    have hrange : List.range 1400 = List.range 309 ++ 309 :: (List.range 1090).map (310 + ·) := by
      rw [show 1400 = 310 + 1090 by rfl, List.range_add, List.range_succ, List.append_assoc]
      rfl
    unfold grids
    rw [hrange, List.map_append]
    rfl
  have hshortest : shortest n = some (n, 0) := by
    unfold shortest
    rw [List.findSome?_eq_some_iff]
    refine ⟨_, 0, _, hgrids, by rw [hzero, Option.map_some], fun j hj => ?_⟩
    obtain ⟨i, hi, rfl⟩ := List.mem_map.mp hj
    have hi' := List.mem_range.mp hi
    rw [candidate_digit hn hlt (by omega), Option.map_none]
  unfold toText positiveText
  dsimp only
  rw [if_neg hpos.ne', if_neg hpos.not_gt, hshortest]

/-! ### Characters -/

/-- The characters of decimal texts. -/
def InText (c : Char) : Prop := c.isDigit = true ∨ c = '.' ∨ c = 'e' ∨ c = '+' ∨ c = '-'

/-- A decimal text starts with a digit. -/
def IsText (s : Str) : Prop := ∃ c t, s = c :: t ∧ c.isDigit = true ∧ ∀ d ∈ t, InText d

theorem inText_exponentText (e : ℤ) : ∀ c ∈ exponentText e, InText c := by
  intro c hc
  rcases List.mem_cons.mp hc with rfl | hc
  · exact Or.inr (Or.inr (Or.inl rfl))
  · rcases List.mem_cons.mp hc with rfl | hc
    · split_ifs
      · exact Or.inr (Or.inr (Or.inr (Or.inr rfl)))
      · exact Or.inr (Or.inr (Or.inr (Or.inl rfl)))
    · exact Or.inl ((Json.natText_digits _).2 c hc)

/-- Digits and what may follow them. -/
theorem isText_append {digits rest : Str} (hne : digits ≠ [])
    (hdigits : ∀ c ∈ digits, c.isDigit = true) (hrest : ∀ c ∈ rest, InText c) :
    IsText (digits ++ rest) := by
  obtain ⟨c, t, rfl⟩ := List.exists_cons_of_ne_nil hne
  refine ⟨c, t ++ rest, rfl, hdigits c List.mem_cons_self, fun d hd => ?_⟩
  rcases List.mem_append.mp hd with hd | hd
  · exact Or.inl (hdigits d (List.mem_cons_of_mem _ hd))
  · exact hrest d hd

theorem isText_formatDecimal (s : ℕ) (j : ℤ) : IsText (formatDecimal s j) := by
  obtain ⟨hne, hdigits⟩ := Json.natText_digits s
  have hlength : 0 < (natText s).length := List.length_pos_iff.mpr hne
  have htake : ∀ n, n ≠ 0 → (natText s).take n ≠ [] := by
    intro n hn hnil
    rw [List.take_eq_nil_iff] at hnil
    exact hnil.elim hn hne
  have htakeDigits : ∀ n, ∀ c ∈ (natText s).take n, c.isDigit = true := fun n c hc =>
    hdigits c (List.mem_of_mem_take hc)
  have hdropText : ∀ n, ∀ c ∈ '.' :: (natText s).drop n, InText c := by
    intro n c hc
    rcases List.mem_cons.mp hc with rfl | hc
    · exact Or.inr (Or.inl rfl)
    · exact Or.inl (hdigits c (List.mem_of_mem_drop hc))
  have hzeros : ∀ n, ∀ c ∈ List.replicate n '0', InText c := by
    intro n c hc
    rw [(List.mem_replicate.mp hc).2]
    exact Or.inl rfl
  unfold formatDecimal
  dsimp only
  split_ifs with hwhole hpoint hsmall hone
  · exact isText_append hne hdigits (hzeros _)
  · exact isText_append (htake _ (by omega)) (htakeDigits _) (hdropText _)
  · refine ⟨'0', _, rfl, rfl, fun c hc => ?_⟩
    rcases List.mem_cons.mp hc with rfl | hc
    · exact Or.inr (Or.inl rfl)
    · rcases List.mem_append.mp hc with hc | hc
      · exact hzeros _ c hc
      · exact Or.inl (hdigits c hc)
  · exact isText_append hne hdigits (inText_exponentText _)
  · rw [List.append_assoc]
    refine isText_append (htake 1 (by omega)) (htakeDigits 1) (fun c hc => ?_)
    rcases List.mem_append.mp hc with hc | hc
    · exact hdropText 1 c hc
    · exact inText_exponentText _ c hc

/-- The characters are no white space, and stand for no radix. -/
theorem InText.spec {c : Char} (h : InText c) : isSpace c = false ∧ radixOf c = none ∧ c ≠ '_' := by
  rcases h with h | rfl | rfl | rfl | rfl
  · obtain ⟨hge, hle⟩ := Bool.and_eq_true_iff.mp h
    have hge' : 48 ≤ c.toNat := of_decide_eq_true hge
    have hle' : c.toNat ≤ 57 := of_decide_eq_true hle
    have hne : ∀ d : Char, 57 < d.toNat → c ≠ d := by
      rintro d hd rfl
      omega
    refine ⟨?_, ?_, hne _ (by decide)⟩
    · unfold isSpace
      simp
      omega
    · unfold radixOf
      rw [if_neg (not_or.mpr ⟨hne _ (by decide), hne _ (by decide)⟩),
        if_neg (not_or.mpr ⟨hne _ (by decide), hne _ (by decide)⟩),
        if_neg (not_or.mpr ⟨hne _ (by decide), hne _ (by decide)⟩)]
  all_goals exact ⟨by decide, by decide, by decide⟩

theorem trim_eq {s : Str} (h : ∀ c ∈ s, isSpace c = false) : trim s = s := by
  unfold trim
  have hleft : s.dropWhile isSpace = s := by
    rw [List.dropWhile_eq_self_iff]
    intro hpos
    rw [h _ (List.getElem_mem hpos)]
    exact Bool.false_ne_true
  rw [hleft, List.rdropWhile_eq_self_iff]
  intro hne
  rw [h _ (List.getLast_mem hne)]
  exact Bool.false_ne_true

/-! ### The round trip -/

theorem IsText.inText {s : Str} (h : IsText s) : ∀ c ∈ s, InText c := by
  obtain ⟨c, t, rfl, hdigit, ht⟩ := h
  intro d hd
  rcases List.mem_cons.mp hd with rfl | hd
  · exact Or.inl hdigit
  · exact ht d hd

theorem IsText.ne {s : Str} (h : IsText s) {d : Char} (hd : d.isDigit = false) (t : Str) :
    s ≠ d :: t := by
  obtain ⟨c, t', rfl, hdigit, -⟩ := h
  rintro heq
  rw [(List.cons.inj heq).1, hd] at hdigit
  exact Bool.false_ne_true hdigit

theorem parseUnsigned_text {s : Str} (h : IsText s) {q : ℚ} (hs : parseDecimal s = some q) :
    parseUnsigned s = some (Number.round q) := by
  unfold parseUnsigned
  have hname : s ≠ "Infinity".toList := h.ne (by decide) "nfinity".toList
  rw [if_neg hname, hs, Option.map_some]

theorem parseSigned_text {s : Str} (h : IsText s) {q : ℚ} (hs : parseDecimal s = some q) :
    parseSigned s = some (Number.round q) := by
  unfold parseSigned
  split
  next t => exact absurd rfl (h.ne (by decide) t)
  next t => exact absurd rfl (h.ne (by decide) t)
  next => exact parseUnsigned_text h hs

/-- A text is read as the decimal number it is. -/
theorem number_text {s : Str} (h : IsText s) {q : ℚ} (hs : parseDecimal s = some q) :
    number s = some (Number.round q) := by
  unfold number
  rw [trim_eq (fun c hc => (h.inText c hc).spec.1)]
  split
  next =>
    obtain ⟨c, t, hnil, -⟩ := h
    cases hnil
  next c ds =>
    rw [(h.inText c (List.mem_cons_of_mem _ List.mem_cons_self)).spec.2.1]
    exact parseSigned_text h hs
  next => exact parseSigned_text h hs

/-- After a sign as its negation. -/
theorem number_neg_text {s : Str} (h : IsText s) {q : ℚ} (hs : parseDecimal s = some q) :
    number ('-' :: s) = some (Number.round q).neg := by
  have htrim : trim ('-' :: s) = '-' :: s := by
    refine trim_eq (fun c hc => ?_)
    rcases List.mem_cons.mp hc with rfl | hc
    · decide
    · exact (h.inText c hc).spec.1
  unfold number
  rw [htrim]
  show (parseUnsigned s).map Number.neg = _
  rw [parseUnsigned_text h hs, Option.map_some]

/-- The text of a positive double is that of a decimal which is read as the double. -/
theorem positiveText_spec {q : ℚ} (hq : 0 < q) (hd : Binary64.IsDouble q) :
    IsText (positiveText q) ∧
      ∃ r, parseDecimal (positiveText q) = some r ∧ Binary64.nearest r = q := by
  obtain ⟨⟨s, j⟩, hs⟩ := Option.isSome_iff_exists.mp (shortest_isSome hq hd)
  unfold positiveText
  rw [hs]
  exact ⟨isText_formatDecimal s j, _, parseDecimal_formatDecimal s j, shortest_spec hs⟩

theorem round_of_nearest {q r : ℚ} (h : Binary64.nearest r = q) (hlt : |q| < 2 ^ 1024) :
    Number.round r = .finite q := by
  obtain ⟨hlo, hhi⟩ := abs_lt.mp hlt
  unfold Number.round
  rw [h, if_neg (not_le.mpr hhi), if_neg (not_le.mpr hlo)]

/-- A double is read back from its text. -/
theorem number_toText {x : Number} (hx : x.IsDouble) : number (toText x) = some x := by
  cases x with
  | negInfinity => decide
  | infinity => decide
  | finite q =>
      obtain ⟨hd, hlt⟩ := hx
      unfold toText
      dsimp only
      rcases lt_trichotomy q 0 with hneg | rfl | hpos
      · rw [if_neg hneg.ne, if_pos hneg]
        obtain ⟨htext, r, hr, hnear⟩ := positiveText_spec (neg_pos.mpr hneg) hd.neg
        rw [number_neg_text htext hr, round_of_nearest hnear ((abs_neg q).trans_lt hlt)]
        show some (Number.finite (- -q)) = _
        rw [neg_neg]
      · rw [if_pos rfl]
        have hzero : IsText ['0'] := ⟨'0', [], rfl, rfl, fun _ h => absurd h List.not_mem_nil⟩
        have hread := @parseDecimal_whole ['0'] [] 0 (List.cons_ne_nil _ _)
          (fun c hc => by rw [List.mem_singleton.mp hc]; rfl) (Or.inl ⟨rfl, rfl⟩)
        rw [List.append_nil] at hread
        rw [number_text hzero hread]
        show some (Number.round ((0 : ℕ) * 10 ^ (0 : ℤ))) = _
        rw [Nat.cast_zero, zero_mul, round_of_nearest Binary64.nearest_zero (by norm_num)]
      · rw [if_neg hpos.ne', if_neg hpos.not_gt]
        obtain ⟨htext, r, hr, hnear⟩ := positiveText_spec hpos hd
        rw [number_text htext hr, round_of_nearest hnear hlt]

/-- The text of a number is free of the character that joins names and numbers. -/
theorem underscore_notMem_toText {x : Number} (hx : x.IsDouble) : '_' ∉ toText x := by
  have htext : ∀ q : ℚ, 0 < q → Binary64.IsDouble q → '_' ∉ positiveText q :=
    fun q hq hd h => ((positiveText_spec hq hd).1.inText _ h).spec.2.2 rfl
  cases x with
  | negInfinity => decide
  | infinity => decide
  | finite q =>
      unfold toText
      dsimp only
      rcases lt_trichotomy q 0 with hneg | rfl | hpos
      · rw [if_neg hneg.ne, if_pos hneg, List.mem_cons, not_or]
        exact ⟨by decide, htext _ (neg_pos.mpr hneg) hx.1.neg⟩
      · rw [if_pos rfl]
        decide
      · rw [if_neg hpos.ne', if_neg hpos.not_gt]
        exact htext q hpos hx.1

/-- A rounded number is a double. -/
theorem isDouble_round (q : ℚ) : (Number.round q).IsDouble := by
  unfold Number.round
  by_cases hhi : 2 ^ 1024 ≤ Binary64.nearest q
  · rw [if_pos hhi]
    trivial
  by_cases hlo : Binary64.nearest q ≤ -2 ^ 1024
  · rw [if_neg hhi, if_pos hlo]
    trivial
  · rw [if_neg hhi, if_neg hlo]
    exact ⟨Binary64.isDouble_nearest q, abs_lt.mpr ⟨not_le.mp hlo, not_le.mp hhi⟩⟩

theorem isDouble_zero : (Number.finite 0).IsDouble := by
  refine ⟨⟨0, 0, by norm_num, by omega, by norm_num⟩, ?_⟩
  rw [abs_zero]
  positivity

theorem isDouble_neg {x : Number} (hx : x.IsDouble) : x.neg.IsDouble := by
  cases x with
  | negInfinity => trivial
  | infinity => trivial
  | finite q => exact ⟨hx.1.neg, (abs_neg q).trans_lt hx.2⟩

theorem isDouble_parseUnsigned {s : Str} {x : Number} (h : parseUnsigned s = some x) :
    x.IsDouble := by
  unfold parseUnsigned at h
  by_cases hs : s = "Infinity".toList
  · rw [if_pos hs] at h
    cases h
    trivial
  · rw [if_neg hs] at h
    obtain ⟨q, -, rfl⟩ := Option.map_eq_some_iff.mp h
    exact isDouble_round q

theorem isDouble_parseSigned {s : Str} {x : Number} (h : parseSigned s = some x) : x.IsDouble := by
  unfold parseSigned at h
  split at h
  next => exact isDouble_parseUnsigned h
  next =>
    obtain ⟨y, hy, rfl⟩ := Option.map_eq_some_iff.mp h
    exact isDouble_neg (isDouble_parseUnsigned hy)
  next => exact isDouble_parseUnsigned h

/-- A number that is read is a double. -/
theorem isDouble_number {s : Str} {x : Number} (h : number s = some x) : x.IsDouble := by
  unfold number at h
  split at h
  next =>
    cases h
    exact isDouble_zero
  next =>
    split at h
    next radix _ =>
      unfold parseRadix at h
      split at h
      next =>
        cases h
        exact isDouble_round _
      next => cases h
    next => exact isDouble_parseSigned h
  next => exact isDouble_parseSigned h

theorem isDouble_addOne {x : Number} (hx : x.IsDouble) : x.addOne.IsDouble := by
  cases x with
  | negInfinity => exact hx
  | infinity => exact hx
  | finite q => exact isDouble_round (q + 1)

end RagFlow.Js
