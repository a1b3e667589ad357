import Mathlib.Algebra.Order.Field.Power
import Mathlib.Algebra.Order.Floor.Ring
import Mathlib.Data.Int.Log
import Mathlib.Data.Rat.Floor
import Mathlib.Tactic.FieldSimp
import Mathlib.Tactic.GCongr
import Mathlib.Tactic.Linarith
import Mathlib.Tactic.Positivity

/-! # Floating-point formats

A format has a number of binary digits and a last place for its smallest numbers; it has no largest
exponent.  A rational number is rounded to the nearest number of the format, on a tie to the one
with the even last digit.

* `abs_nearest_sub_le`: no number of the format is closer;
* `nearest_mono`, `nearest_of_holds`: rounding is monotone and leaves the numbers of the format;
* `abs_nearest_sub_le_mul_abs`: the error is at most half of the last digit;
* `Holds.sub_intCast`: integers are taken away without an error. -/

namespace RagFlow.FloatFormat

/-! ### Rounding to an integer -/

/-- The integer nearest to `q`, on a tie the even one. -/
def roundHalfEven (q : ℚ) : ℤ :=
  if q - ⌊q⌋ < 1 / 2 then ⌊q⌋
  else if 1 / 2 < q - ⌊q⌋ then ⌊q⌋ + 1
  else if ⌊q⌋ % 2 = 0 then ⌊q⌋ else ⌊q⌋ + 1

theorem abs_roundHalfEven_sub_le_half (q : ℚ) : |(roundHalfEven q : ℚ) - q| ≤ 1 / 2 := by
  have hlo := Int.floor_le q
  have hhi := Int.lt_floor_add_one q
  unfold roundHalfEven
  split_ifs <;> push_cast <;> rw [abs_le] <;> constructor <;> linarith

/-- No integer is closer. -/
theorem abs_roundHalfEven_sub_le (q : ℚ) (k : ℤ) : |(roundHalfEven q : ℚ) - q| ≤ |(k : ℚ) - q| := by
  by_cases hk : k = roundHalfEven q
  · rw [hk]
  have hone : (1 : ℚ) ≤ |(k : ℚ) - roundHalfEven q| := by
    have h : (1 : ℤ) ≤ |k - roundHalfEven q| := Int.one_le_abs (sub_ne_zero.mpr hk)
    exact_mod_cast h
  have htri := abs_sub_le (k : ℚ) q (roundHalfEven q)
  have hhalf := abs_roundHalfEven_sub_le_half q
  rw [abs_sub_comm q] at htri
  linarith

theorem roundHalfEven_of_lt {q : ℚ} {n : ℤ} (hn : ⌊q⌋ = n) (heven : n % 2 = 0)
    (hq : q - n ≤ 1 / 2) : roundHalfEven q = n := by
  unfold roundHalfEven
  rw [hn]
  by_cases hlt : q - n < 1 / 2
  · rw [if_pos hlt]
  · rw [if_neg hlt, if_neg (by linarith), if_pos heven]

/-! ### Formats -/

structure Format where
  /-- The binary digits after the first. -/
  fraction : ℕ
  /-- The last place of the smallest numbers. -/
  minExponent : ℤ
  minExponent_nonpos : minExponent ≤ 0

namespace Format

variable (F : Format)

/-- The exponent of the last digit of a number near `x`. -/
def lastExponent (x : ℚ) : ℤ := max (Int.log 2 |x| - F.fraction) F.minExponent

/-- The number of the format nearest to `x`. -/
def nearest (x : ℚ) : ℚ := roundHalfEven (x / 2 ^ F.lastExponent x) * 2 ^ F.lastExponent x

/-- The numbers of the format. -/
def Holds (d : ℚ) : Prop :=
  ∃ m e : ℤ, |m| ≤ 2 ^ (F.fraction + 1) ∧ F.minExponent ≤ e ∧ d = m * 2 ^ e

variable {F} {x y d : ℚ}

theorem holds_intCast {n : ℤ} (h : |n| ≤ 2 ^ (F.fraction + 1)) : F.Holds n :=
  ⟨n, 0, h, F.minExponent_nonpos, by simp⟩

theorem Holds.neg (h : F.Holds d) : F.Holds (-d) := by
  obtain ⟨m, e, hm, he, rfl⟩ := h
  exact ⟨-m, e, by rwa [abs_neg], he, by push_cast; ring⟩

theorem abs_nearest_sub_eq (x : ℚ) (k : ℤ) : |(k : ℚ) * 2 ^ F.lastExponent x - x| =
    |(k : ℚ) - x / 2 ^ F.lastExponent x| * 2 ^ F.lastExponent x := by
  have hu : (0 : ℚ) < 2 ^ F.lastExponent x := by positivity
  rw [← abs_of_pos hu, ← abs_mul, abs_of_pos hu, sub_mul, div_mul_cancel₀ _ hu.ne']

/-- No multiple of the last place is closer. -/
theorem abs_nearest_sub_le_mul (x : ℚ) (k : ℤ) :
    |F.nearest x - x| ≤ |(k : ℚ) * 2 ^ F.lastExponent x - x| := by
  unfold nearest
  rw [abs_nearest_sub_eq, abs_nearest_sub_eq]
  have := abs_roundHalfEven_sub_le (x / 2 ^ F.lastExponent x) k
  gcongr

theorem nearest_zero : F.nearest 0 = 0 := by
  have hround : roundHalfEven 0 = 0 := by
    rw [roundHalfEven_of_lt Int.floor_zero (by norm_num)]
    norm_num
  unfold nearest
  rw [zero_div, hround, Int.cast_zero, zero_mul]

/-- A number with its last place below that of `x` is below the power of two below `x`. -/
theorem abs_le_of_lt_lastExponent (hx : x ≠ 0) {m e : ℤ} (hm : |m| ≤ 2 ^ (F.fraction + 1))
    (he : F.minExponent ≤ e) (hlt : e < F.lastExponent x) :
    F.lastExponent x = Int.log 2 |x| - F.fraction ∧ |(m : ℚ) * 2 ^ e| ≤ 2 ^ Int.log 2 |x| ∧
      (2 : ℚ) ^ Int.log 2 |x| ≤ |x| := by
  have hlast : F.lastExponent x = Int.log 2 |x| - F.fraction := by
    unfold lastExponent at hlt ⊢
    omega
  refine ⟨hlast, ?_, ?_⟩
  · have hm' : |(m : ℚ)| ≤ 2 ^ (F.fraction + 1) := by exact_mod_cast hm
    have hu : (0 : ℚ) < 2 ^ e := by positivity
    rw [abs_mul, abs_of_pos hu]
    calc |(m : ℚ)| * 2 ^ e ≤ 2 ^ (F.fraction + 1) * 2 ^ e := by gcongr
      _ = 2 ^ ((F.fraction + 1 : ℕ) + e) := by
        rw [zpow_add₀ (by norm_num : (2 : ℚ) ≠ 0), zpow_natCast]
      _ ≤ 2 ^ Int.log 2 |x| := zpow_le_zpow_right₀ (by norm_num) (by omega)
  · simpa using Int.zpow_log_le_self (b := 2) (by norm_num) (abs_pos.mpr hx)

/-- No number of the format is closer. -/
theorem abs_nearest_sub_le (x : ℚ) (hd : F.Holds d) : |F.nearest x - x| ≤ |d - x| := by
  rcases eq_or_ne x 0 with rfl | hx
  · rw [nearest_zero, sub_self, abs_zero]
    exact abs_nonneg _
  obtain ⟨m, e, hm, he, rfl⟩ := hd
  by_cases hle : F.lastExponent x ≤ e
  · -- the number is a multiple of the last place of `x`
    have heq : (m : ℚ) * 2 ^ e = ((m * 2 ^ (e - F.lastExponent x).toNat : ℤ) : ℚ) *
        2 ^ F.lastExponent x := by
      push_cast
      rw [mul_assoc, ← zpow_natCast, ← zpow_add₀ (by norm_num : (2 : ℚ) ≠ 0)]
      congr 2
      omega
    rw [heq]
    exact abs_nearest_sub_le_mul x _
  · -- the power of two below `x`, with its sign, is a multiple of the last place
    obtain ⟨hlast, hdle, hpow⟩ := abs_le_of_lt_lastExponent hx hm he (not_le.mp hle)
    have hsplit : (2 : ℚ) ^ Int.log 2 |x| = ((2 ^ F.fraction : ℤ) : ℚ) * 2 ^ F.lastExponent x := by
      push_cast
      rw [hlast, ← zpow_natCast, ← zpow_add₀ (by norm_num : (2 : ℚ) ≠ 0)]
      congr 1
      omega
    have hsub : |x| - 2 ^ Int.log 2 |x| ≤ |(m : ℚ) * 2 ^ e - x| := by
      have htri := abs_sub_abs_le_abs_sub x ((m : ℚ) * 2 ^ e)
      rw [abs_sub_comm] at htri
      linarith
    refine le_trans ?_ hsub
    rcases lt_or_gt_of_ne hx with hneg | hpos
    · have hmul := abs_nearest_sub_le_mul (F := F) x (-2 ^ F.fraction)
      have hcast : ((-2 ^ F.fraction : ℤ) : ℚ) * 2 ^ F.lastExponent x = -2 ^ Int.log 2 |x| := by
        rw [hsplit]
        push_cast
        ring
      rw [hcast] at hmul
      rw [abs_of_neg hneg] at hpow hmul ⊢
      have hge : 0 ≤ -2 ^ Int.log 2 (-x) - x := by linarith
      rw [abs_of_nonneg hge] at hmul
      linarith
    · have hmul := abs_nearest_sub_le_mul (F := F) x (2 ^ F.fraction)
      rw [← hsplit] at hmul
      rw [abs_of_pos hpos] at hpow hmul ⊢
      have hge : 2 ^ Int.log 2 x - x ≤ 0 := by linarith
      rw [abs_of_nonpos hge] at hmul
      linarith

/-- A number of the format is not rounded. -/
theorem nearest_of_holds (hd : F.Holds d) : F.nearest d = d := by
  have h := abs_nearest_sub_le d hd
  rw [sub_self, abs_zero] at h
  exact sub_eq_zero.mp (abs_eq_zero.mp (le_antisymm h (abs_nonneg _)))

theorem nearest_le (hd : F.Holds d) (h : x ≤ d) : F.nearest x ≤ d := by
  by_contra hlt
  have hnear := abs_nearest_sub_le x hd
  rw [abs_of_nonneg (by linarith), abs_of_nonneg (by linarith)] at hnear
  linarith

theorem le_nearest (hd : F.Holds d) (h : d ≤ x) : d ≤ F.nearest x := by
  by_contra hlt
  have hnear := abs_nearest_sub_le x hd
  rw [abs_of_nonpos (by linarith), abs_of_nonpos (by linarith)] at hnear
  linarith

/-- Above the middle between `m` and a number of the format nothing is rounded down to `m`. -/
theorem lt_nearest {m : ℚ} (hd : F.Holds d) (hmd : m < d) (h : (m + d) / 2 < x) :
    m < F.nearest x := by
  by_contra hle
  have hnear := abs_nearest_sub_le x hd
  rw [abs_of_nonpos (by linarith)] at hnear
  rcases le_total x d with hxd | hxd
  · rw [abs_of_nonneg (by linarith)] at hnear
    linarith
  · rw [abs_of_nonpos (by linarith)] at hnear
    linarith

/-- The error is at most half of the last place. -/
theorem abs_nearest_sub_le_half (x : ℚ) : |F.nearest x - x| ≤ 2 ^ F.lastExponent x / 2 := by
  have hhalf := abs_roundHalfEven_sub_le_half (x / 2 ^ F.lastExponent x)
  unfold nearest
  rw [abs_nearest_sub_eq]
  calc _ ≤ 1 / 2 * (2 : ℚ) ^ F.lastExponent x := by gcongr
    _ = 2 ^ F.lastExponent x / 2 := by ring

/-- The error is relative to the number, except for the smallest numbers. -/
theorem abs_nearest_sub_le_mul_abs (x : ℚ) :
    |F.nearest x - x| ≤ |x| / 2 ^ (F.fraction + 1) + 2 ^ F.minExponent := by
  have hsmall : (0 : ℚ) < 2 ^ F.minExponent := by positivity
  rcases eq_or_ne x 0 with rfl | hx
  · rw [nearest_zero, sub_self, abs_zero, zero_div, zero_add]
    exact hsmall.le
  have hhalf := abs_nearest_sub_le_half (F := F) x
  have hlast : (2 : ℚ) ^ F.lastExponent x ≤ |x| / 2 ^ F.fraction + 2 ^ F.minExponent := by
    have hlarge : 0 ≤ |x| / 2 ^ F.fraction := by positivity
    unfold lastExponent
    rcases le_total (Int.log 2 |x| - F.fraction) F.minExponent with h | h
    · rw [max_eq_right h]
      linarith
    · have hpow : (2 : ℚ) ^ Int.log 2 |x| ≤ |x| := by
        simpa using Int.zpow_log_le_self (b := 2) (by norm_num) (abs_pos.mpr hx)
      have hdiv : (2 : ℚ) ^ Int.log 2 |x| / 2 ^ F.fraction ≤ |x| / 2 ^ F.fraction := by gcongr
      rw [max_eq_left h, zpow_sub₀ (by norm_num), zpow_natCast]
      linarith
  have hsplit : |x| / 2 ^ (F.fraction + 1) = |x| / 2 ^ F.fraction / 2 := by
    rw [pow_succ, div_div]
  linarith

/-- The rounded number is one of the format. -/
theorem holds_nearest (x : ℚ) : F.Holds (F.nearest x) := by
  refine ⟨roundHalfEven (x / 2 ^ F.lastExponent x), F.lastExponent x, ?_, le_max_right _ _, rfl⟩
  have hu : (0 : ℚ) < 2 ^ F.lastExponent x := by positivity
  have hlt : |x / 2 ^ F.lastExponent x| < 2 ^ (F.fraction + 1) := by
    have hlog : |x| < 2 ^ (Int.log 2 |x| + 1) := by
      exact_mod_cast Int.lt_zpow_succ_log_self (by norm_num) |x|
    rw [abs_div, abs_of_pos hu, div_lt_iff₀ hu]
    calc |x| < 2 ^ (Int.log 2 |x| + 1) := hlog
      _ ≤ 2 ^ ((F.fraction + 1 : ℕ) + F.lastExponent x) := by
        have hlast : Int.log 2 |x| - F.fraction ≤ F.lastExponent x := le_max_left _ _
        exact zpow_le_zpow_right₀ (by norm_num) (by omega)
      _ = 2 ^ (F.fraction + 1) * 2 ^ F.lastExponent x := by
        rw [zpow_add₀ (by norm_num : (2 : ℚ) ≠ 0), zpow_natCast]
  have hhalf := abs_roundHalfEven_sub_le_half (x / 2 ^ F.lastExponent x)
  have hround : |(roundHalfEven (x / 2 ^ F.lastExponent x) : ℚ)| < 2 ^ (F.fraction + 1) + 1 := by
    have htri := abs_sub_abs_le_abs_sub (roundHalfEven (x / 2 ^ F.lastExponent x) : ℚ)
      (x / 2 ^ F.lastExponent x)
    linarith
  have hcast : |roundHalfEven (x / 2 ^ F.lastExponent x)| < 2 ^ (F.fraction + 1) + 1 := by
    exact_mod_cast hround
  omega

/-- Rounding is monotone. -/
theorem nearest_mono (F : Format) : Monotone F.nearest := by
  intro x y hxy
  by_cases hle : x ≤ F.nearest y
  · exact nearest_le (holds_nearest y) hle
  · -- if the roundings were the wrong way round, `x` and `y` would both be in their middle
    by_cases hge : F.nearest x ≤ y
    · exact le_nearest (holds_nearest x) hge
    · by_contra hlt
      have hx := abs_nearest_sub_le x (holds_nearest (F := F) y)
      have hy := abs_nearest_sub_le y (holds_nearest (F := F) x)
      rw [abs_of_nonneg (by linarith), abs_of_nonpos (by linarith)] at hx
      rw [abs_of_nonpos (by linarith), abs_of_nonneg (by linarith)] at hy
      have heq : x = y := by linarith
      exact hlt (heq ▸ le_rfl)

theorem nearest_nonneg (hx : 0 ≤ x) : 0 ≤ F.nearest x :=
  nearest_zero.symm.le.trans (F.nearest_mono hx)

/-- An integer is taken from a number without an error. -/
theorem Holds.sub_intCast {k : ℤ} (hd : F.Holds d) (hk : 0 ≤ k) (hkd : (k : ℚ) ≤ d)
    (hle : d ≤ 2 ^ (F.fraction + 1)) : F.Holds (d - k) := by
  obtain ⟨m, e, hm, he, rfl⟩ := hd
  have hk' : (0 : ℚ) ≤ k := by exact_mod_cast hk
  rcases le_total 0 e with hpos | hneg
  · -- the number is an integer
    have hint : (m : ℚ) * 2 ^ e = ((m * 2 ^ e.toNat : ℤ) : ℚ) := by
      push_cast
      rw [← zpow_natCast, Int.toNat_of_nonneg hpos]
    rw [hint] at hkd hle ⊢
    rw [← Int.cast_sub]
    refine holds_intCast ?_
    have hkd' : k ≤ m * 2 ^ e.toNat := by exact_mod_cast hkd
    have hle' : m * 2 ^ e.toNat ≤ 2 ^ (F.fraction + 1) := by exact_mod_cast hle
    rw [abs_of_nonneg (by linarith)]
    linarith
  · have hu : (0 : ℚ) < 2 ^ e := by positivity
    have hone : ((2 ^ (-e).toNat : ℤ) : ℚ) * 2 ^ e = 1 := by
      push_cast
      rw [← zpow_natCast, Int.toNat_of_nonneg (by omega), ← zpow_add₀ (by norm_num), neg_add_cancel,
        zpow_zero]
    have hsub : (m : ℚ) * 2 ^ e - k = ((m - k * 2 ^ (-e).toNat : ℤ) : ℚ) * 2 ^ e := by
      rw [Int.cast_sub, Int.cast_mul, sub_mul, mul_assoc, hone, mul_one]
    refine ⟨m - k * 2 ^ (-e).toNat, e, ?_, he, hsub⟩
    have hnonneg : (0 : ℚ) ≤ ((m - k * 2 ^ (-e).toNat : ℤ) : ℚ) := by
      refine nonneg_of_mul_nonneg_left ?_ hu
      rw [← hsub]
      linarith
    have hnonneg' : 0 ≤ m - k * 2 ^ (-e).toNat := by exact_mod_cast hnonneg
    have hpow : 0 ≤ k * 2 ^ (-e).toNat := by positivity
    rw [abs_of_nonneg hnonneg']
    have hm' := (abs_le.mp hm).2
    omega

end Format

/-- Single precision, without a largest exponent. -/
def single : Format := ⟨23, -149, by decide⟩

/-- Double precision, without a largest exponent. -/
def double : Format := ⟨52, -1074, by decide⟩

end RagFlow.FloatFormat
