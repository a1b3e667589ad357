import RagFlow.BestTokens
import RagFlow.Words

/-! # Values of the dictionary

`Encode`, `DecodeFreq` and `DecodePOSIndex` of `internal/cpp/rag_analyzer.cpp` keep the frequency of
a word and the index of its part of speech in one value of the trie, with the arithmetic of 32-bit
words.

* **Fields.** `toNat_encode`: the frequency without its sign is in the bits up to 22, the sign in
  bit 23, the index above.
* **Reading.** `toInt_decodeFreq`: on all words, also those that are no value, `decodeFreq` reads
  the frequency that the segmentation is scored with.
* **Round trip.** `decode_encode`; a value is not negative, so it is none of the results `-1` and
  `-2` of the lookups. -/

namespace RagFlow.DictValue

open Words

/-! ### The words -/

def encode (freq idx : Int32) : Int32 :=
  let encodedValue : UInt32 :=
    if freq < 0 then (-freq).toUInt32 ||| ((1 : UInt32) <<< 23) else (freq &&& 0x7FFFFF).toUInt32
  (encodedValue ||| idx.toUInt32 <<< 24).toInt32

def decodeFreq (value : Int32) : Int32 :=
  let v1 := value.toUInt32 &&& 0xFFFFFF
  if v1 &&& ((1 : UInt32) <<< 23) ≠ 0 then -(v1 &&& 0x7FFFFF).toInt32 else v1.toInt32

def decodePOSIndex (value : Int32) : Int32 := (value.toUInt32 >>> 24).toInt32

/-! ### Words as numbers -/

/-- A signed word is the unsigned one, or that less `2 ^ 32`. -/
theorem toInt_eq (x : Int32) : x.toInt =
    if x.toUInt32.toNat < 2 ^ 31 then (x.toUInt32.toNat : ℤ) else x.toUInt32.toNat - 2 ^ 32 := by
  have h := BitVec.toInt_eq_toNat_cond x.toBitVec
  rw [Int32.toNat_toBitVec] at h
  rw [← Int32.toInt_toBitVec, h]
  split_ifs <;> omega

theorem toInt_toInt32 {u : UInt32} (h : u.toNat < 2 ^ 31) : u.toInt32.toInt = u.toNat := by
  rw [toInt_eq, UInt32.toUInt32_toInt32, if_pos h]

/-! ### Reading -/

/-- A word is the signed one up to a multiple of `2 ^ 32`. -/
theorem toInt_emod (value : Int32) :
    value.toInt % 2 ^ 24 = ((value.toUInt32.toNat % 2 ^ 24 : ℕ) : ℤ) := by
  rw [toInt_eq]
  split_ifs <;> omega

theorem toInt_decodeFreq (value : Int32) :
    (decodeFreq value).toInt = Analyzer.decodeFreq value.toInt := by
  have hlow : (value.toUInt32 &&& 0xFFFFFF).toNat = value.toUInt32.toNat % 2 ^ 24 :=
    toNat_and_mask _ 24 rfl
  have hfreq : (value.toUInt32 &&& 0xFFFFFF &&& 0x7FFFFF).toNat =
      value.toUInt32.toNat % 2 ^ 24 % 2 ^ 23 := by
    rw [toNat_and_mask _ 23 rfl, hlow]
  unfold decodeFreq Analyzer.decodeFreq
  dsimp only
  rw [toInt_emod]
  by_cases hsign : 2 ^ 23 ≤ value.toUInt32.toNat % 2 ^ 24
  · have hbit : value.toUInt32.toNat % 2 ^ 24 / 2 ^ 23 % 2 = 1 := by omega
    rw [if_pos ((and_bit_ne_zero_iff _ 23 rfl).mpr (by rw [hlow]; exact hbit)), if_pos (by omega),
      Int32.toInt_neg, toInt_toInt32 (by rw [hfreq]; omega), hfreq,
      Int.bmod_eq_of_le (by omega) (by omega)]
    omega
  · have hbit : ¬ value.toUInt32.toNat % 2 ^ 24 / 2 ^ 23 % 2 = 1 := by omega
    rw [if_neg (by rw [and_bit_ne_zero_iff _ 23 rfl, hlow]; exact hbit), if_neg (by omega),
      toInt_toInt32 (by rw [hlow]; omega), hlow]

theorem toInt_decodePOSIndex (value : Int32) :
    (decodePOSIndex value).toInt = value.toUInt32.toNat / 2 ^ 24 := by
  have hshift : (value.toUInt32 >>> 24).toNat = value.toUInt32.toNat / 2 ^ 24 :=
    toNat_shiftRight _ 24 rfl (by omega)
  have hlt := value.toUInt32.toNat_lt
  unfold decodePOSIndex
  rw [toInt_toInt32 (by rw [hshift]; omega), hshift]
  omega

/-! ### Writing -/

/-- The word of a number that is not negative. -/
theorem toNat_of_nonneg {x : Int32} (h : 0 ≤ x.toInt) : (x.toUInt32.toNat : ℤ) = x.toInt := by
  have hx := toInt_eq x
  have hlt := x.toUInt32.toNat_lt
  split_ifs at hx <;> omega

/-- The word of the absolute value. -/
theorem toNat_neg {x : Int32} (h : x.toInt < 0) : ((-x).toUInt32.toNat : ℤ) = -x.toInt := by
  have hx := toInt_eq x
  have hlt := x.toUInt32.toNat_lt
  rw [Int32.toUInt32_neg, UInt32.toNat_neg]
  unfold UInt32.size
  split_ifs at hx <;> omega

/-- The sign and the frequency. -/
theorem toNat_field {freq : Int32} (h : |freq.toInt| < 2 ^ 23) :
    ((if freq < 0 then (-freq).toUInt32 ||| ((1 : UInt32) <<< 23)
      else (freq &&& 0x7FFFFF).toUInt32).toNat : ℤ) =
        |freq.toInt| + if freq.toInt < 0 then 2 ^ 23 else 0 := by
  obtain ⟨hlo, hhi⟩ := abs_lt.mp h
  by_cases hneg : freq.toInt < 0
  · have hlt : freq < 0 := Int32.lt_iff_toInt_lt.mpr hneg
    have hword := toNat_neg hneg
    have hbit : ((1 : UInt32) <<< 23).toNat = 2 ^ 23 := rfl
    have hor := toNat_or 23 1 hbit (show (-freq).toUInt32.toNat < 2 ^ 23 by omega)
    rw [if_pos hlt, if_pos hneg, abs_of_neg hneg, UInt32.or_comm, hor, hbit]
    push_cast
    omega
  · have hlt : ¬ freq < 0 := fun h => hneg (Int32.lt_iff_toInt_lt.mp h)
    have hword := toNat_of_nonneg (not_lt.mp hneg)
    rw [if_neg hlt, if_neg hneg, abs_of_nonneg (not_lt.mp hneg), Int32.toUInt32_and,
      toNat_and_mask _ 23 rfl]
    omega

theorem toNat_encode {freq idx : Int32} (hfreq : |freq.toInt| < 2 ^ 23) (hnonneg : 0 ≤ idx.toInt)
    (hidx : idx.toInt < 128) : ((encode freq idx).toUInt32.toNat : ℤ) =
      |freq.toInt| + (if freq.toInt < 0 then 2 ^ 23 else 0) + idx.toInt * 2 ^ 24 := by
  have hfield := toNat_field hfreq
  have hword := toNat_of_nonneg hnonneg
  have hshift : (idx.toUInt32 <<< 24).toNat = idx.toUInt32.toNat * 2 ^ 24 :=
    toNat_shiftLeft rfl (by omega) (by omega)
  unfold encode
  dsimp only
  rw [UInt32.toUInt32_toInt32, UInt32.or_comm,
    toNat_or 24 idx.toUInt32.toNat (by rw [hshift, Nat.mul_comm])
      (by split_ifs at hfield ⊢ <;> omega), hshift]
  push_cast
  omega

/-- A value of a frequency below `2 ^ 23` and an index below 128 is read back, and is neither the
result of a lookup that finds no key nor of one that finds no longer key. -/
theorem decode_encode {freq idx : Int32} (hfreq : |freq.toInt| < 2 ^ 23) (hnonneg : 0 ≤ idx.toInt)
    (hidx : idx.toInt < 128) :
    decodeFreq (encode freq idx) = freq ∧ decodePOSIndex (encode freq idx) = idx ∧
      0 ≤ (encode freq idx).toInt ∧ encode freq idx ≠ -1 ∧ encode freq idx ≠ -2 := by
  have hword := toNat_encode hfreq hnonneg hidx
  have hvalue := toInt_eq (encode freq idx)
  have habs := abs_nonneg freq.toInt
  obtain ⟨hlo, hhi⟩ := abs_lt.mp hfreq
  have hsmall : (encode freq idx).toUInt32.toNat < 2 ^ 31 := by
    split_ifs at hword <;> omega
  rw [if_pos hsmall] at hvalue
  have hpos : 0 ≤ (encode freq idx).toInt := by omega
  refine ⟨?_, ?_, hpos, ?_, ?_⟩
  · rw [← Int32.toInt_inj, toInt_decodeFreq]
    unfold Analyzer.decodeFreq
    dsimp only
    rcases lt_or_ge freq.toInt 0 with hneg | hge
    · rw [if_pos hneg, abs_of_neg hneg] at hword
      rw [if_pos (by omega)]
      omega
    · rw [if_neg hge.not_gt, abs_of_nonneg hge] at hword
      rw [if_neg (by omega)]
      omega
  · rw [← Int32.toInt_inj, toInt_decodePOSIndex]
    split_ifs at hword <;> omega
  · intro h
    rw [h] at hpos
    exact absurd hpos (by decide)
  · intro h
    rw [h] at hpos
    exact absurd hpos (by decide)

/-- The most negative frequency with the greatest index. -/
theorem decode_encode_extreme :
    decodeFreq (encode (-8388607) 127) = -8388607 ∧ decodePOSIndex (encode (-8388607) 127) = 127 ∧
      0 ≤ (encode (-8388607) 127).toInt ∧ encode (-8388607) 127 ≠ -1 ∧
      encode (-8388607) 127 ≠ -2 :=
  decode_encode (by decide) (by decide) (by decide)

end RagFlow.DictValue
