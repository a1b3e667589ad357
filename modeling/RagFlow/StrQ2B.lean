import RagFlow.RagPositions
import RagFlow.Words

/-! # Full width characters, byte by byte

`StrQ2B` of `internal/cpp/rag_analyzer.cpp` decodes the sequences of one to three bytes, maps the
code point and encodes it again; any other byte goes to the output as it is.  A read behind the zero
that ends the string has no value.

* **Bytes and code points.** `isTwoBytes_iff`, `isThreeBytes_iff`, `toNat_codepoint2`,
  `toNat_codepoint3`: the tests and the arithmetic of the code in numbers.
* **One character.** `strQ2B_encode_append`: from the bytes of a character the code makes those of
  its half width form `q2bChar`, and goes on behind them.
* **A string.** `strQ2B_flatMap`: the bytes of a text become those of `Analyzer.strQ2B`.
  `strQ2B_string` says so of strings and code points. -/

namespace RagFlow.Q2B

open Words

/-! ### The code -/

/-- `input[i]`, `i` from the byte that is read on, with the zero behind the string. -/
def byteAt (rest : List UInt8) (i : ℕ) : Option UInt8 := (rest ++ [0])[i]?

def codepoint2 (c c1 : UInt8) : UInt32 :=
  (c.toUInt32 &&& 0x1F) <<< 6 ||| (c1.toUInt32 &&& 0x3F)

def codepoint3 (c c1 c2 : UInt8) : UInt32 :=
  (c.toUInt32 &&& 0x0F) <<< 12 ||| (c1.toUInt32 &&& 0x3F) <<< 6 ||| (c2.toUInt32 &&& 0x3F)

/-- What a code point adds to the output. -/
def put (codepoint : UInt32) : List UInt8 :=
  if codepoint ≥ 0xFF01 ∧ codepoint ≤ 0xFF5E then [(codepoint - 0xFEE0).toUInt8]
  else if codepoint = 0x3000 then [0x20]
  else if codepoint < 0x80 then [codepoint.toUInt8]
  else if codepoint < 0x800 then
    [((0xC0 : UInt32) ||| codepoint >>> 6).toUInt8,
      ((0x80 : UInt32) ||| (codepoint &&& 0x3F)).toUInt8]
  else if codepoint < 0x10000 then
    [((0xE0 : UInt32) ||| codepoint >>> 12).toUInt8,
      ((0x80 : UInt32) ||| (codepoint >>> 6 &&& 0x3F)).toUInt8,
      ((0x80 : UInt32) ||| (codepoint &&& 0x3F)).toUInt8]
  else []

/-- One round of the loop: what is added to the output, and the bytes that are left. -/
def round (c : UInt8) (rest : List UInt8) : Option (List UInt8 × List UInt8) :=
  if c < 0x80 then some (put c.toUInt32, rest)
  else if c &&& 0xE0 = 0xC0 then do
    let c1 ← byteAt rest 0
    return (put (codepoint2 c c1), rest.drop 1)
  else if c &&& 0xF0 = 0xE0 then do
    let c1 ← byteAt rest 0
    let c2 ← byteAt rest 1
    return (put (codepoint3 c c1 c2), rest.drop 2)
  else some ([c], rest)

theorem length_round {c : UInt8} {rest piece left : List UInt8}
    (h : round c rest = some (piece, left)) : left.length ≤ rest.length := by
  unfold round at h
  split_ifs at h
  · rw [← (Prod.mk.inj (Option.some.inj h)).2]
  · obtain ⟨c1, -, h⟩ := Option.bind_eq_some_iff.mp h
    rw [← (Prod.mk.inj (Option.some.inj h)).2, List.length_drop]
    omega
  · obtain ⟨c1, -, h⟩ := Option.bind_eq_some_iff.mp h
    obtain ⟨c2, -, h⟩ := Option.bind_eq_some_iff.mp h
    rw [← (Prod.mk.inj (Option.some.inj h)).2, List.length_drop]
    omega
  · rw [← (Prod.mk.inj (Option.some.inj h)).2]

def strQ2B : List UInt8 → Option (List UInt8)
  | [] => some []
  | c :: rest =>
      match _h : round c rest with
      | none => none
      | some (piece, left) => (strQ2B left).map (piece ++ ·)
termination_by input => input.length
decreasing_by
  have hle := length_round _h
  rw [List.length_cons]
  omega

theorem strQ2B_cons {c : UInt8} {rest piece left : List UInt8}
    (h : round c rest = some (piece, left)) :
    strQ2B (c :: rest) = (strQ2B left).map (piece ++ ·) := by
  rw [strQ2B]
  split
  case h_1 hnone =>
      rw [h] at hnone
      exact nomatch hnone
  case h_2 piece' left' hsome =>
      obtain ⟨rfl, rfl⟩ := Prod.mk.inj (Option.some.inj (hsome.symm.trans h))
      rfl

/-! ### Bytes and code points -/

/-- A test of bytes that holds of all numbers below 256. -/
theorem of_table {p : UInt8 → Bool}
    (h : (List.range 256).all (fun n => p (UInt8.ofNat n)) = true) (c : UInt8) : p c = true := by
  have hc := List.all_eq_true.mp h c.toNat (List.mem_range.mpr c.toNat_lt)
  rwa [UInt8.ofNat_toNat] at hc

/-- `(c & 0xE0) == 0xC0`. -/
theorem isTwoBytes_iff (c : UInt8) : c &&& 0xE0 = 0xC0 ↔ c.toNat / 32 = 6 :=
  of_decide_eq_true (of_table (p := fun c => decide (c &&& 0xE0 = 0xC0 ↔ c.toNat / 32 = 6))
    (by decide +kernel) c)

/-- `(c & 0xF0) == 0xE0`. -/
theorem isThreeBytes_iff (c : UInt8) : c &&& 0xF0 = 0xE0 ↔ c.toNat / 16 = 14 :=
  of_decide_eq_true (of_table (p := fun c => decide (c &&& 0xF0 = 0xE0 ↔ c.toNat / 16 = 14))
    (by decide +kernel) c)

/-- The bits of a byte that belong to the code point. -/
theorem toNat_toUInt32_and (c : UInt8) (k : ℕ) {mask : UInt32} (h : mask.toNat = 2 ^ k - 1) :
    (c.toUInt32 &&& mask).toNat = c.toNat % 2 ^ k := by
  rw [toNat_and_mask _ k h, UInt8.toNat_toUInt32]

theorem toNat_codepoint2 (c c1 : UInt8) :
    (codepoint2 c c1).toNat = c.toNat % 32 * 64 + c1.toNat % 64 := by
  have hc : (c.toUInt32 &&& 0x1F).toNat = c.toNat % 32 := toNat_toUInt32_and c 5 rfl
  have hc1 : (c1.toUInt32 &&& 0x3F).toNat = c1.toNat % 64 := toNat_toUInt32_and c1 6 rfl
  have hhi : ((c.toUInt32 &&& 0x1F) <<< 6).toNat = c.toNat % 32 * 64 := by
    rw [toNat_shiftLeft (k := 6) rfl (by omega) (by omega)]
    omega
  unfold codepoint2
  rw [toNat_or 6 (c.toNat % 32) (by omega) (by omega), hhi, hc1]

theorem toNat_codepoint3 (c c1 c2 : UInt8) : (codepoint3 c c1 c2).toNat =
    c.toNat % 16 * 4096 + c1.toNat % 64 * 64 + c2.toNat % 64 := by
  have hc : (c.toUInt32 &&& 0x0F).toNat = c.toNat % 16 := toNat_toUInt32_and c 4 rfl
  have hc1 : (c1.toUInt32 &&& 0x3F).toNat = c1.toNat % 64 := toNat_toUInt32_and c1 6 rfl
  have hc2 : (c2.toUInt32 &&& 0x3F).toNat = c2.toNat % 64 := toNat_toUInt32_and c2 6 rfl
  have hhi : ((c.toUInt32 &&& 0x0F) <<< 12).toNat = c.toNat % 16 * 4096 := by
    rw [toNat_shiftLeft (k := 12) rfl (by omega) (by omega)]
    omega
  have hmid : ((c1.toUInt32 &&& 0x3F) <<< 6).toNat = c1.toNat % 64 * 64 := by
    rw [toNat_shiftLeft (k := 6) rfl (by omega) (by omega)]
    omega
  have hupper : ((c.toUInt32 &&& 0x0F) <<< 12 ||| (c1.toUInt32 &&& 0x3F) <<< 6).toNat =
      c.toNat % 16 * 4096 + c1.toNat % 64 * 64 := by
    rw [toNat_or 12 (c.toNat % 16) (by omega) (by omega), hhi, hmid]
  unfold codepoint3
  rw [toNat_or 6 (c.toNat % 16 * 64 + c1.toNat % 64) (by omega) (by omega), hupper, hc2]

/-- A byte with a tag in its upper bits. -/
theorem toUInt8_or {tag u : UInt32} (k a : ℕ) (htag : tag.toNat = 2 ^ k * a)
    (hu : u.toNat < 2 ^ k) : (tag ||| u).toUInt8 = UInt8.ofNat (u.toNat + tag.toNat) := by
  rw [← UInt8.ofNat_uInt32ToNat, toNat_or k a htag hu, Nat.add_comm]

/-! ### One character -/

theorem utf8EncodeChar_one {c : Char} (h : c.toNat ≤ 0x7f) :
    String.utf8EncodeChar c = [UInt8.ofNat c.toNat] := by
  rw [String.utf8EncodeChar]
  exact if_pos h

theorem utf8EncodeChar_two {c : Char} (hlo : 0x7f < c.toNat) (hhi : c.toNat ≤ 0x7ff) :
    String.utf8EncodeChar c =
      [UInt8.ofNat (c.toNat / 64 % 32 + 0xc0), UInt8.ofNat (c.toNat % 64 + 0x80)] := by
  rw [String.utf8EncodeChar]
  exact (if_neg (not_le.mpr hlo)).trans (if_pos hhi)

theorem utf8EncodeChar_three {c : Char} (hlo : 0x7ff < c.toNat) (hhi : c.toNat ≤ 0xffff) :
    String.utf8EncodeChar c =
      [UInt8.ofNat (c.toNat / 4096 % 16 + 0xe0), UInt8.ofNat (c.toNat / 64 % 64 + 0x80),
        UInt8.ofNat (c.toNat % 64 + 0x80)] := by
  have hfst : ¬ c.toNat ≤ 0x7f := by omega
  rw [String.utf8EncodeChar]
  exact (if_neg hfst).trans ((if_neg (not_le.mpr hlo)).trans (if_pos hhi))

theorem utf8EncodeChar_four {c : Char} (hlo : 0xffff < c.toNat) :
    String.utf8EncodeChar c =
      [UInt8.ofNat (c.toNat / 262144 % 8 + 0xf0), UInt8.ofNat (c.toNat / 4096 % 64 + 0x80),
        UInt8.ofNat (c.toNat / 64 % 64 + 0x80), UInt8.ofNat (c.toNat % 64 + 0x80)] := by
  have hfst : ¬ c.toNat ≤ 0x7f := by omega
  have hsnd : ¬ c.toNat ≤ 0x7ff := by omega
  rw [String.utf8EncodeChar]
  exact (if_neg hfst).trans ((if_neg hsnd).trans (if_neg (not_le.mpr hlo)))

theorem toUInt32_ofNat {c : Char} (h : c.toNat ≤ 0x7f) :
    (UInt8.ofNat c.toNat).toUInt32 = c.val := by
  have hval : c.val.toNat = c.toNat := rfl
  rw [← UInt32.toNat_inj, UInt8.toNat_toUInt32, UInt8.toNat_ofNat']
  omega

/-- The code points that are encoded as they are. -/
theorem put_same {c : Char} (h : c.toNat ≤ 0xffff)
    (hfull : ¬ (0xFF01 ≤ c.toNat ∧ c.toNat ≤ 0xFF5E)) (hspace : c.toNat ≠ 0x3000) :
    put c.val = String.utf8EncodeChar c := by
  have hval : c.val.toNat = c.toNat := rfl
  have hlow : (c.val &&& 0x3F).toNat = c.toNat % 64 := toNat_and_mask c.val 6 rfl
  have hsix : (c.val >>> 6).toNat = c.toNat / 64 := toNat_shiftRight c.val 6 rfl (by omega)
  have hmid : (c.val >>> 6 &&& 0x3F).toNat = c.toNat / 64 % 64 := by
    rw [← hsix]
    exact toNat_and_mask _ 6 rfl
  have htop : (c.val >>> 12).toNat = c.toNat / 4096 := toNat_shiftRight c.val 12 rfl (by omega)
  have hne : c.val ≠ 0x3000 := fun heq => hspace (by rw [← hval, heq]; rfl)
  have hnot : ¬ (c.val ≥ 0xFF01 ∧ c.val ≤ 0xFF5E) := hfull
  unfold put
  rw [if_neg hnot, if_neg hne]
  by_cases hone : c.toNat ≤ 0x7f
  · have hlt : c.val < 0x80 := UInt32.lt_iff_toNat_lt.mpr (Nat.lt_succ_of_le hone)
    rw [if_pos hlt, utf8EncodeChar_one hone, ← UInt8.ofNat_uInt32ToNat, hval]
  have hge : ¬ c.val < 0x80 := fun hlt => hone (Nat.le_of_lt_succ (UInt32.lt_iff_toNat_lt.mp hlt))
  rw [if_neg hge]
  by_cases htwo : c.toNat ≤ 0x7ff
  · have hlt : c.val < 0x800 := UInt32.lt_iff_toNat_lt.mpr (Nat.lt_succ_of_le htwo)
    rw [if_pos hlt, utf8EncodeChar_two (not_le.mp hone) htwo,
      toUInt8_or 6 3 rfl (by omega), toUInt8_or 7 1 rfl (by omega), hsix, hlow,
      Nat.mod_eq_of_lt (show c.toNat / 64 < 32 by omega)]
    rfl
  have hge : ¬ c.val < 0x800 := fun hlt => htwo (Nat.le_of_lt_succ (UInt32.lt_iff_toNat_lt.mp hlt))
  have hlt : c.val < 0x10000 := UInt32.lt_iff_toNat_lt.mpr (Nat.lt_succ_of_le h)
  rw [if_neg hge, if_pos hlt, utf8EncodeChar_three (not_le.mp htwo) h,
    toUInt8_or 5 7 rfl (by omega), toUInt8_or 7 1 rfl (by omega), toUInt8_or 7 1 rfl (by omega),
    htop, hmid, hlow, Nat.mod_eq_of_lt (show c.toNat / 4096 < 16 by omega)]
  rfl

theorem put_val {c : Char} (h : c.toNat ≤ 0xffff) :
    put c.val = String.utf8EncodeChar (Analyzer.q2bChar c) := by
  unfold Analyzer.q2bChar
  by_cases hfull : 0xFF01 ≤ c.toNat ∧ c.toNat ≤ 0xFF5E
  · have hwide : c.val ≥ 0xFF01 ∧ c.val ≤ 0xFF5E := hfull
    have hchar : (Char.ofNat (c.toNat - 0xFEE0)).toNat = c.toNat - 0xFEE0 :=
      Analyzer.toNat_ofNat (by omega)
    have hle : (0xFEE0 : UInt32) ≤ c.val :=
      UInt32.le_iff_toNat_le.mpr (show 0xFEE0 ≤ c.toNat by omega)
    rw [if_pos hfull, utf8EncodeChar_one (by omega), hchar, put, if_pos hwide,
      ← UInt8.ofNat_uInt32ToNat, UInt32.toNat_sub_of_le _ _ hle]
    rfl
  rw [if_neg hfull]
  by_cases hspace : c.toNat = 0x3000
  · have hval : c.val = 0x3000 := UInt32.toNat_inj.mp hspace
    rw [if_pos hspace, hval]
    rfl
  · rw [if_neg hspace, put_same h hfull hspace]

theorem not_ascii {c : UInt8} (h : 0x80 ≤ c.toNat) : ¬ c < 0x80 :=
  fun hlt => absurd (UInt8.lt_iff_toNat_lt.mp hlt) (not_lt.mpr h)

theorem round_two {c : UInt8} (h : c.toNat / 32 = 6) (c1 : UInt8) (rest : List UInt8) :
    round c (c1 :: rest) = some (put (codepoint2 c c1), rest) := by
  rw [round, if_neg (not_ascii (by omega)), if_pos ((isTwoBytes_iff c).mpr h)]
  rfl

theorem round_three {c : UInt8} (h : c.toNat / 16 = 14) (c1 c2 : UInt8) (rest : List UInt8) :
    round c (c1 :: c2 :: rest) = some (put (codepoint3 c c1 c2), rest) := by
  have htwo : ¬ c.toNat / 32 = 6 := by omega
  rw [round, if_neg (not_ascii (by omega)), if_neg ((isTwoBytes_iff c).not.mpr htwo),
    if_pos ((isThreeBytes_iff c).mpr h)]
  rfl

/-- A byte that begins no sequence of one to three bytes. -/
theorem strQ2B_pass {c : UInt8} (hascii : 0x80 ≤ c.toNat) (htwo : c.toNat / 32 ≠ 6)
    (hthree : c.toNat / 16 ≠ 14) (rest : List UInt8) :
    strQ2B (c :: rest) = (strQ2B rest).map ([c] ++ ·) := by
  refine strQ2B_cons ?_
  rw [round, if_neg (not_ascii hascii), if_neg ((isTwoBytes_iff c).not.mpr htwo),
    if_neg ((isThreeBytes_iff c).not.mpr hthree)]

theorem toNat_byte (n : ℕ) : (UInt8.ofNat n).toNat = n % 256 := UInt8.toNat_ofNat'

section encode
variable {c : Char} (rest : List UInt8)

theorem strQ2B_encode_one (h : c.toNat ≤ 0x7f) : strQ2B (String.utf8EncodeChar c ++ rest) =
    (strQ2B rest).map (String.utf8EncodeChar (Analyzer.q2bChar c) ++ ·) := by
  have hlt : UInt8.ofNat c.toNat < 0x80 := by
    rw [UInt8.lt_iff_toNat_lt, toNat_byte]
    exact (Nat.mod_le _ _).trans_lt (Nat.lt_succ_of_le h)
  rw [utf8EncodeChar_one h, ← put_val (by omega)]
  refine strQ2B_cons ?_
  rw [round, if_pos hlt, toUInt32_ofNat h]
  rfl

theorem strQ2B_encode_two (hlo : 0x7f < c.toNat) (hhi : c.toNat ≤ 0x7ff) :
    strQ2B (String.utf8EncodeChar c ++ rest) =
      (strQ2B rest).map (String.utf8EncodeChar (Analyzer.q2bChar c) ++ ·) := by
  have hval : c.val.toNat = c.toNat := rfl
  have hlead := toNat_byte (c.toNat / 64 % 32 + 0xc0)
  have hnext := toNat_byte (c.toNat % 64 + 0x80)
  have hcode : codepoint2 (UInt8.ofNat (c.toNat / 64 % 32 + 0xc0))
      (UInt8.ofNat (c.toNat % 64 + 0x80)) = c.val := by
    rw [← UInt32.toNat_inj, toNat_codepoint2]
    omega
  rw [utf8EncodeChar_two hlo hhi, ← put_val (by omega)]
  refine strQ2B_cons ((round_two (by omega) _ _).trans ?_)
  rw [hcode]
  rfl

theorem strQ2B_encode_three (hlo : 0x7ff < c.toNat) (hhi : c.toNat ≤ 0xffff) :
    strQ2B (String.utf8EncodeChar c ++ rest) =
      (strQ2B rest).map (String.utf8EncodeChar (Analyzer.q2bChar c) ++ ·) := by
  have hval : c.val.toNat = c.toNat := rfl
  have hlead := toNat_byte (c.toNat / 4096 % 16 + 0xe0)
  have hmid := toNat_byte (c.toNat / 64 % 64 + 0x80)
  have hnext := toNat_byte (c.toNat % 64 + 0x80)
  have hcode : codepoint3 (UInt8.ofNat (c.toNat / 4096 % 16 + 0xe0))
      (UInt8.ofNat (c.toNat / 64 % 64 + 0x80)) (UInt8.ofNat (c.toNat % 64 + 0x80)) = c.val := by
    rw [← UInt32.toNat_inj, toNat_codepoint3]
    omega
  rw [utf8EncodeChar_three hlo hhi, ← put_val hhi]
  refine strQ2B_cons ((round_three (by omega) _ _ _).trans ?_)
  rw [hcode]
  rfl

/-- The four bytes of a code point outside the basic plane pass one by one. -/
theorem strQ2B_encode_four (hlo : 0xffff < c.toNat) : strQ2B (String.utf8EncodeChar c ++ rest) =
    (strQ2B rest).map (String.utf8EncodeChar (Analyzer.q2bChar c) ++ ·) := by
  have hsame : Analyzer.q2bChar c = c := by
    unfold Analyzer.q2bChar
    rw [if_neg (by omega), if_neg (by omega)]
  have hlead := toNat_byte (c.toNat / 262144 % 8 + 0xf0)
  have hsnd := toNat_byte (c.toNat / 4096 % 64 + 0x80)
  have hthird := toNat_byte (c.toNat / 64 % 64 + 0x80)
  have hlast := toNat_byte (c.toNat % 64 + 0x80)
  rw [hsame, utf8EncodeChar_four hlo]
  show strQ2B (_ :: _ :: _ :: _ :: rest) = _
  rw [strQ2B_pass (by omega) (by omega) (by omega), strQ2B_pass (by omega) (by omega) (by omega),
    strQ2B_pass (by omega) (by omega) (by omega), strQ2B_pass (by omega) (by omega) (by omega),
    Option.map_map, Option.map_map, Option.map_map]
  rfl

end encode

theorem strQ2B_encode_append (c : Char) (rest : List UInt8) :
    strQ2B (String.utf8EncodeChar c ++ rest) =
      (strQ2B rest).map (String.utf8EncodeChar (Analyzer.q2bChar c) ++ ·) := by
  by_cases hone : c.toNat ≤ 0x7f
  · exact strQ2B_encode_one rest hone
  by_cases htwo : c.toNat ≤ 0x7ff
  · exact strQ2B_encode_two rest (not_le.mp hone) htwo
  by_cases hthree : c.toNat ≤ 0xffff
  · exact strQ2B_encode_three rest (not_le.mp htwo) hthree
  · exact strQ2B_encode_four rest (not_le.mp hthree)

/-! ### A string -/

theorem strQ2B_flatMap (s : Py.Str) :
    strQ2B (s.flatMap String.utf8EncodeChar) =
      some ((Analyzer.strQ2B s).flatMap String.utf8EncodeChar) := by
  induction s with
  | nil => rw [List.flatMap_nil, strQ2B]; rfl
  | cons c s ih =>
      rw [List.flatMap_cons, strQ2B_encode_append, ih]
      rfl

/-- The code points of half width. -/
def halfWidth (codepoint : ℕ) : ℕ :=
  if 0xFF01 ≤ codepoint ∧ codepoint ≤ 0xFF5E then codepoint - 0xFF01 + 0x21
  else if codepoint = 0x3000 then 0x20
  else codepoint

theorem toNat_q2bChar (c : Char) : (Analyzer.q2bChar c).toNat = halfWidth c.toNat := by
  unfold Analyzer.q2bChar halfWidth
  split_ifs with hfull hspace
  · rw [Analyzer.toNat_ofNat (by omega)]
    omega
  · rfl
  · rfl

theorem halfWidth_halfWidth (codepoint : ℕ) :
    halfWidth (halfWidth codepoint) = halfWidth codepoint := by
  unfold halfWidth
  split_ifs <;> omega

theorem q2bChar_q2bChar (c : Char) :
    Analyzer.q2bChar (Analyzer.q2bChar c) = Analyzer.q2bChar c := by
  rw [← Char.toNat_inj, toNat_q2bChar, toNat_q2bChar, halfWidth_halfWidth]

/-- The bytes of a string. -/
def bytes (s : String) : List UInt8 := s.toByteArray.data.toList

theorem bytes_eq (s : String) : bytes s = s.toList.flatMap String.utf8EncodeChar := by
  unfold bytes
  rw [← String.utf8Encode_toList, List.utf8Encode, List.toList_data_toByteArray]

/-- The bytes of a string become those of the string with the code points of half width, which has
as many characters and is kept. -/
theorem strQ2B_string (s : String) : ∃ t : String, strQ2B (bytes s) = some (bytes t) ∧
    t.toList.map Char.toNat = s.toList.map (fun c => halfWidth c.toNat) ∧ t.length = s.length ∧
      strQ2B (bytes t) = some (bytes t) := by
  refine ⟨String.ofList (Analyzer.strQ2B s.toList), ?_, ?_, ?_, ?_⟩
  · rw [bytes_eq, bytes_eq, strQ2B_flatMap, String.toList_ofList]
  · rw [String.toList_ofList, Analyzer.strQ2B, List.map_map]
    exact List.map_congr_left (fun c _ => toNat_q2bChar c)
  · rw [← String.length_toList, ← String.length_toList, String.toList_ofList,
      Analyzer.length_strQ2B]
  · rw [bytes_eq, strQ2B_flatMap, String.toList_ofList, Analyzer.strQ2B, Analyzer.strQ2B,
      List.map_map]
    exact congrArg (fun text => some (List.flatMap String.utf8EncodeChar text))
      (List.map_congr_left (fun c _ => q2bChar_q2bChar c))

end RagFlow.Q2B
