import RagFlow.FloatFormat

/-! # Quotients of integers in double precision

The true division of two integers gives the double nearest to the exact quotient, on a tie the one
with the even last digit.  The doubles are the format with 53 digits (`FloatFormat.double`), and
what holds of all formats is used of them under their own names.  The module says when the ceiling
of the double is the ceiling of the quotient:

* `ceil_nearest_div`: the ceiling of `a / b` is exact up to `a = b * 2 ^ (53 - log2 b)`;
* `nearest_div_succ`: at the next numerator the quotient is rounded down to an integer;
* `ceil_nearest_one`, `nearest_eq_zero`: a small quotient is rounded to zero from `2 ^ (-1075)` on
  downwards, above it its ceiling is exact. -/

namespace RagFlow.Binary64

open FloatFormat

/-- The exponent of the last of the 53 digits of a double near `x`. -/
def lastExponent (x : ℚ) : ℤ := max (Int.log 2 |x| - 52) (-1074)

/-- The double nearest to `x`, if the doubles had no largest exponent. -/
def nearest (x : ℚ) : ℚ := roundHalfEven (x / 2 ^ lastExponent x) * 2 ^ lastExponent x

/-- `a / b` on integers: `none` is ZeroDivisionError, or OverflowError where the quotient is beyond
the largest double. -/
def trueDiv (a b : ℤ) : Option ℚ :=
  if b = 0 then none
  else if |nearest (a / b)| < 2 ^ 1024 then some (nearest (a / b)) else none

/-- The numbers with at most 53 binary digits, none beyond the last place of the subnormals. -/
def IsDouble (d : ℚ) : Prop := ∃ m e : ℤ, |m| ≤ 2 ^ 53 ∧ -1074 ≤ e ∧ d = m * 2 ^ e

/-! ### The nearest double -/

theorem isDouble_intCast {n : ℤ} (h : |n| ≤ 2 ^ 53) : IsDouble n :=
  Format.holds_intCast (F := double) h

/-- A double is not rounded. -/
theorem nearest_of_isDouble {x : ℚ} (hd : IsDouble x) : nearest x = x :=
  Format.nearest_of_holds (F := double) hd

/-- The rounded number is a double. -/
theorem isDouble_nearest (x : ℚ) : IsDouble (nearest x) := Format.holds_nearest (F := double) x

theorem IsDouble.neg {d : ℚ} (h : IsDouble d) : IsDouble (-d) := Format.Holds.neg (F := double) h

theorem nearest_le {x d : ℚ} (hd : IsDouble d) (h : x ≤ d) : nearest x ≤ d :=
  Format.nearest_le (F := double) hd h

theorem le_nearest {x d : ℚ} (hd : IsDouble d) (h : d ≤ x) : d ≤ nearest x :=
  Format.le_nearest (F := double) hd h

/-- A quotient above the middle between `m` and a double is not rounded down to `m`. -/
theorem lt_nearest {x m d : ℚ} (hd : IsDouble d) (hmd : m < d) (h : (m + d) / 2 < x) :
    m < nearest x := Format.lt_nearest (F := double) hd hmd h

theorem nearest_mono : Monotone nearest := double.nearest_mono

theorem nearest_zero : nearest 0 = 0 := Format.nearest_zero (F := double)

theorem nearest_nonneg {x : ℚ} (hx : 0 ≤ x) : 0 ≤ nearest x :=
  Format.nearest_nonneg (F := double) hx

/-! ### The ceiling of a quotient -/

/-- The ceiling of a quotient is exact if the double just above the integer below it is closer. -/
theorem ceil_nearest {x d : ℚ} {c : ℤ} (hc : ⌈x⌉ = c) (hdc : IsDouble (c : ℚ))
    (hd : IsDouble d) (hlt : (c : ℚ) - 1 < d) (h : ((c : ℚ) - 1 + d) / 2 < x) :
    ⌈nearest x⌉ = c := by
  rw [Int.ceil_eq_iff]
  have hxc : x ≤ c := hc ▸ Int.le_ceil x
  exact ⟨lt_nearest hd hlt h, nearest_le hdc hxc⟩

theorem le_two_pow_53 {m t : ℕ} (ht : t ≤ 53) (hm : m ≤ 2 ^ (53 - t)) : m * 2 ^ t ≤ 2 ^ 53 := by
  calc m * 2 ^ t ≤ 2 ^ (53 - t) * 2 ^ t := Nat.mul_le_mul_right _ hm
    _ = 2 ^ 53 := by rw [← pow_add]; congr 1; omega

/-- Up to this numerator the rounding of `a / b` does not reach an integer from above. -/
theorem ceil_nearest_div {a b : ℕ} (ha : 0 < a) (hb : 0 < b) (hlog : Nat.log 2 b ≤ 53)
    (hle : a ≤ b * 2 ^ (53 - Nat.log 2 b)) :
    ⌈nearest ((a : ℚ) / b)⌉ = ⌈(a : ℚ) / b⌉ := by
  have ha' : (0 : ℚ) < a := by exact_mod_cast ha
  have hb' : (0 : ℚ) < b := by exact_mod_cast hb
  have hx : (0 : ℚ) < (a : ℚ) / b := by positivity
  obtain ⟨c, hc⟩ : ∃ c : ℕ, ⌈(a : ℚ) / b⌉ = c := ⟨_, (Int.natCast_ceil_eq_ceil hx.le).symm⟩
  have hcpos : 0 < c := by
    have := Int.ceil_pos.mpr hx
    omega
  -- the ceiling has at most `53 - log2 b` digits
  have hcle : c ≤ 2 ^ (53 - Nat.log 2 b) := by
    have hq : (a : ℚ) / b ≤ ((2 ^ (53 - Nat.log 2 b) : ℤ) : ℚ) := by
      rw [div_le_iff₀ hb', mul_comm]
      exact_mod_cast hle
    have := Int.ceil_le.mpr hq
    rw [hc] at this
    exact_mod_cast this
  have hc53 : c ≤ 2 ^ 53 := hcle.trans (Nat.pow_le_pow_right (by norm_num) (by omega))
  -- the fraction is at least `1 / b`, and that is above half of the last place
  have hfrac : (c : ℚ) - 1 + 1 / b ≤ (a : ℚ) / b := by
    have hlt : (c : ℚ) - 1 < (a : ℚ) / b := (Int.ceil_eq_iff.mp hc).1
    have hint : ((c - 1 : ℕ) : ℚ) * b < a := by
      rw [lt_div_iff₀ hb'] at hlt
      rw [Nat.cast_sub hcpos]
      simpa using hlt
    have hint' : (c - 1) * b + 1 ≤ a := by
      have : (c - 1) * b < a := by exact_mod_cast hint
      omega
    rw [le_div_iff₀ hb', add_mul, one_div, inv_mul_cancel₀ hb'.ne']
    have : (((c - 1) * b + 1 : ℕ) : ℚ) ≤ a := by exact_mod_cast hint'
    push_cast [Nat.cast_sub (show 1 ≤ c by omega)] at this
    linarith
  have hb2 : (b : ℚ) < 2 ^ (Nat.log 2 b + 1) := by
    exact_mod_cast Nat.lt_pow_succ_log_self (by norm_num) b
  have hhalf : (1 : ℚ) / 2 ^ Nat.log 2 b / 2 < 1 / b := by
    rw [div_div, ← pow_succ]
    exact one_div_lt_one_div_of_lt hb' hb2
  rw [hc]
  refine ceil_nearest (d := (c : ℚ) - 1 + 1 / 2 ^ Nat.log 2 b) hc ?_ ?_ ?_ ?_
  · exact isDouble_intCast (by rw [Nat.abs_cast]; exact_mod_cast hc53)
  · refine ⟨((c - 1) * 2 ^ Nat.log 2 b + 1 : ℕ), -(Nat.log 2 b : ℤ), ?_, by omega, ?_⟩
    · rw [Nat.abs_cast]
      have hle1 := le_two_pow_53 hlog hcle
      have hpos : 0 < 2 ^ Nat.log 2 b := by positivity
      have heq : (c - 1) * 2 ^ Nat.log 2 b + 2 ^ Nat.log 2 b = c * 2 ^ Nat.log 2 b := by
        rw [← Nat.succ_mul]
        congr 1
        omega
      have : (c - 1) * 2 ^ Nat.log 2 b + 1 ≤ 2 ^ 53 := by omega
      exact_mod_cast this
    · rw [zpow_neg, zpow_natCast]
      push_cast [Nat.cast_sub (show 1 ≤ c by omega)]
      field_simp
  · have : (0 : ℚ) < 1 / 2 ^ Nat.log 2 b := by positivity
    push_cast
    linarith
  · push_cast
    linarith

/-- One numerator more and the quotient is rounded down to an integer: the part `1 / b` is at most
half of the last place. -/
theorem nearest_div_succ {b : ℕ} (hb : 0 < b) (hlog : Nat.log 2 b ≤ 52) :
    nearest (((b * 2 ^ (53 - Nat.log 2 b) + 1 : ℕ) : ℚ) / b) = 2 ^ (53 - Nat.log 2 b) := by
  generalize ht : Nat.log 2 b = t at *
  have hb' : (0 : ℚ) < b := by exact_mod_cast hb
  have hbt : (2 : ℚ) ^ t ≤ b := by
    have := Nat.pow_log_le_self 2 hb.ne'
    rw [ht] at this
    exact_mod_cast this
  have hx : ((b * 2 ^ (53 - t) + 1 : ℕ) : ℚ) / b = 2 ^ (53 - t) + 1 / b := by
    push_cast
    field_simp
  rw [hx]
  have hpos : (0 : ℚ) < 2 ^ (53 - t) + 1 / b := by positivity
  have hone : (1 : ℚ) / b ≤ 1 := by
    rw [div_le_one hb']
    exact_mod_cast hb
  have hlog2 : Int.log 2 ((2 : ℚ) ^ (53 - t) + 1 / b) = (53 - t : ℕ) := by
    apply le_antisymm
    · rw [← Int.lt_add_one_iff, ← Int.lt_zpow_iff_log_lt (by norm_num) hpos]
      have h2 : (1 : ℚ) < 2 ^ (53 - t) := one_lt_pow₀ (by norm_num) (by omega)
      have hsucc : ((2 : ℕ) : ℚ) ^ (((53 - t : ℕ) : ℤ) + 1) = 2 ^ (53 - t) * 2 := by
        rw [← pow_succ]
        norm_cast
      rw [hsucc]
      linarith
    · rw [← Int.zpow_le_iff_le_log (by norm_num) hpos]
      have : (0 : ℚ) ≤ 1 / b := by positivity
      push_cast
      rw [zpow_natCast]
      linarith
  have hlast : lastExponent ((2 : ℚ) ^ (53 - t) + 1 / b) = 1 - t := by
    unfold lastExponent
    rw [abs_of_pos hpos, hlog2]
    omega
  unfold nearest
  rw [hlast]
  have hq : ((2 : ℚ) ^ (53 - t) + 1 / b) / 2 ^ (1 - t : ℤ) = 2 ^ 52 + 2 ^ t / (2 * b) := by
    have h1 : (2 : ℚ) ^ (1 - t : ℤ) = 2 / 2 ^ t := by
      rw [zpow_sub₀ (by norm_num), zpow_one, zpow_natCast]
    have h2 : (2 : ℚ) ^ (53 - t) * 2 ^ t = 2 ^ 52 * 2 := by
      rw [← pow_add, ← pow_succ]
      congr 1
      omega
    rw [h1, div_div_eq_mul_div, add_mul, h2]
    field_simp
  have hsmall : (2 : ℚ) ^ t / (2 * b) ≤ 1 / 2 := by
    rw [div_le_div_iff₀ (by positivity) (by norm_num)]
    linarith
  have hround : roundHalfEven (2 ^ 52 + 2 ^ t / (2 * b)) = 2 ^ 52 := by
    have hnonneg : (0 : ℚ) ≤ 2 ^ t / (2 * b) := by positivity
    refine roundHalfEven_of_lt ?_ (by norm_num) ?_
    · rw [Int.floor_eq_iff]
      push_cast
      constructor <;> linarith
    · push_cast
      linarith
  have hpow : ((2 ^ 52 : ℤ) : ℚ) = 2 ^ (52 : ℤ) := by norm_num
  rw [hq, hround, hpow, ← zpow_natCast, ← zpow_add₀ (by norm_num)]
  congr 1
  omega

/-! ### Small quotients -/

theorem two_zpow_succ {e f : ℤ} (h : f = e + 1) : (2 : ℚ) ^ f = 2 * 2 ^ e := by
  rw [h, zpow_add_one₀ (by norm_num), mul_comm]

theorem ceil_nearest_one {x : ℚ} (h : (2 : ℚ) ^ (-1075 : ℤ) < x) (hle : x ≤ 1) :
    ⌈nearest x⌉ = 1 := by
  have hpow : (0 : ℚ) < 2 ^ (-1075 : ℤ) := by positivity
  have hx : 0 < x := hpow.trans h
  have hc : ⌈x⌉ = 1 := by
    rw [Int.ceil_eq_iff]
    push_cast
    constructor <;> linarith
  have htwice : (2 : ℚ) ^ (-1074 : ℤ) = 2 * 2 ^ (-1075 : ℤ) := two_zpow_succ (by omega)
  refine ceil_nearest (d := 2 ^ (-1074 : ℤ)) hc ?_ ?_ ?_ ?_
  · exact isDouble_intCast (by norm_num)
  · exact ⟨1, -1074, by norm_num, by omega, by rw [Int.cast_one, one_mul]⟩
  · rw [htwice, Int.cast_one]
    linarith
  · rw [htwice, Int.cast_one]
    linarith

theorem nearest_eq_zero {x : ℚ} (hx : 0 < x) (h : x ≤ 2 ^ (-1075 : ℤ)) : nearest x = 0 := by
  have hlast : lastExponent x = -1074 := by
    have hlog : Int.log 2 x ≤ Int.log 2 ((2 : ℚ) ^ (-1075 : ℤ)) := Int.log_mono_right hx h
    have hpow : Int.log 2 ((2 : ℚ) ^ (-1075 : ℤ)) = -1075 := by
      simpa using Int.log_zpow (R := ℚ) (b := 2) (by norm_num) (-1075)
    unfold lastExponent
    rw [abs_of_pos hx]
    omega
  have hq : x / 2 ^ (-1074 : ℤ) ≤ 1 / 2 := by
    have htwice : (2 : ℚ) ^ (-1074 : ℤ) = 2 * 2 ^ (-1075 : ℤ) := two_zpow_succ (by omega)
    rw [div_le_iff₀ (by positivity), htwice]
    linarith
  have hround : roundHalfEven (x / 2 ^ (-1074 : ℤ)) = 0 := by
    have hnonneg : 0 ≤ x / 2 ^ (-1074 : ℤ) := by positivity
    refine roundHalfEven_of_lt ?_ (by norm_num) ?_
    · rw [Int.floor_eq_iff, Int.cast_zero]
      constructor <;> linarith
    · rw [Int.cast_zero, sub_zero]
      exact hq
  unfold nearest
  rw [hlast, hround]
  simp

/-! ### No overflow -/

theorem trueDiv_eq_some {a b : ℤ} (ha : 0 < a) (hb : 0 < b) (hle : a ≤ b * 2 ^ 54) :
    trueDiv a b = some (nearest (a / b)) := by
  have ha' : (0 : ℚ) < a := by exact_mod_cast ha
  have hb' : (0 : ℚ) < b := by exact_mod_cast hb
  have hx : (0 : ℚ) < (a : ℚ) / b := by positivity
  have hq : (a : ℚ) / b ≤ 2 ^ 54 := by
    rw [div_le_iff₀ hb', mul_comm]
    exact_mod_cast hle
  have hd : IsDouble ((2 : ℚ) ^ 54) := ⟨2 ^ 53, 1, by norm_num, by omega, by norm_num⟩
  have hlt : |nearest ((a : ℚ) / b)| < 2 ^ 1024 := by
    rw [abs_of_nonneg (nearest_nonneg hx.le)]
    have hpow : (2 : ℚ) ^ 54 < 2 ^ 1024 := pow_lt_pow_right₀ one_lt_two (by omega)
    exact (nearest_le hd hq).trans_lt hpow
  unfold trueDiv
  rw [if_neg (by omega), if_pos hlt]

end RagFlow.Binary64
