import Mathlib.Data.Nat.Bitwise
import Mathlib.Tactic.Common

/-! # Bit fields of words

Words of 32 bits that are put together from fields, and read field by field, as numbers: a mask is a
remainder, a shift to the right a quotient, a shift to the left a product, and `|||` of fields that
do not overlap a sum. -/

namespace RagFlow.Words

/-- The lower bits. -/
theorem toNat_and_mask (u : UInt32) (k : ℕ) {mask : UInt32} (h : mask.toNat = 2 ^ k - 1) :
    (u &&& mask).toNat = u.toNat % 2 ^ k := by
  rw [UInt32.toNat_and, h, Nat.and_two_pow_sub_one_eq_mod]

/-- A single bit. -/
theorem and_bit_ne_zero_iff (u : UInt32) (k : ℕ) {bit : UInt32} (h : bit.toNat = 2 ^ k) :
    u &&& bit ≠ 0 ↔ u.toNat / 2 ^ k % 2 = 1 := by
  have hpos : 0 < 2 ^ k := Nat.two_pow_pos k
  rw [ne_eq, ← UInt32.toNat_inj, UInt32.toNat_and, h, Nat.and_two_pow,
    Nat.testBit_eq_decide_div_mod_eq]
  by_cases hbit : u.toNat / 2 ^ k % 2 = 1
  · rw [decide_eq_true hbit]
    refine iff_of_true (fun hzero => ?_) hbit
    rw [Bool.toNat_true, Nat.one_mul] at hzero
    exact hpos.ne' hzero
  · rw [decide_eq_false hbit]
    refine iff_of_false (fun hne => hne ?_) hbit
    rw [Bool.toNat_false, Nat.zero_mul]
    rfl

theorem toNat_shiftRight (u : UInt32) (k : ℕ) {shift : UInt32} (h : shift.toNat = k)
    (hk : k < 32) : (u >>> shift).toNat = u.toNat / 2 ^ k := by
  rw [UInt32.toNat_shiftRight, h, Nat.mod_eq_of_lt hk, Nat.shiftRight_eq_div_pow]

/-- A shift to the left that loses no bit. -/
theorem toNat_shiftLeft {u : UInt32} {k : ℕ} {shift : UInt32} (h : shift.toNat = k) (hk : k < 32)
    (hu : u.toNat * 2 ^ k < 2 ^ 32) : (u <<< shift).toNat = u.toNat * 2 ^ k := by
  rw [UInt32.toNat_shiftLeft, h, Nat.mod_eq_of_lt hk, Nat.shiftLeft_eq, Nat.mod_eq_of_lt hu]

/-- A field below bit `k` under one above. -/
theorem toNat_or {hi lo : UInt32} (k a : ℕ) (hhi : hi.toNat = 2 ^ k * a) (hlo : lo.toNat < 2 ^ k) :
    (hi ||| lo).toNat = hi.toNat + lo.toNat := by
  rw [UInt32.toNat_or, hhi, ← Nat.two_pow_add_eq_or_of_lt hlo]

end RagFlow.Words
