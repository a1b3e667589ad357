import RagFlow.Blocks
import RagFlow.RagAnalyzer

/-! # Positions of the converted line

`TokenizeWithPosition` of `internal/cpp/rag_analyzer.cpp` converts a line before it splits it: runs
of characters that are no word characters become a blank (`pcre2GlobalReplaceWithPosition`), full
width characters become half width (`strQ2B`), and traditional characters simplified (`convert`, a
library that is not looked into here, as are the word characters `isWord`).  `finalPosMapping` maps
the bytes of the converted line back into the line.  Positions are `unsigned`.

`finalPosMapping_mapsBack`: if the conversion keeps the number of characters, and the line has less
than `2 ^ 32` bytes, the bytes of the `k`-th character are mapped to the beginning of the `k`-th
unit of the line, a word character or a run of others.  Greater positions do not fit
(`finalPosMapping_wraps`). -/

namespace RagFlow.Analyzer

open Py Blocks

/-! ### The conversions -/

/-- `static_cast<unsigned>`. -/
def unsigned (n : ℕ) : ℕ := n % 2 ^ 32

/-- The pairs for bytes that are kept. -/
def samePositions (p n : ℕ) : List (ℕ × ℕ) :=
  (List.range n).map (fun i => (unsigned (p + i), unsigned (p + i)))

section replace
variable (isWord : Char → Bool) (replacement : Str)

/-- `PCRE2GlobalReplaceWithPosition` for the pattern `\W+`, from the end of the last match on. -/
def replaceFrom (lastMatchEnd : ℕ) (rest : Str) : Str × List (ℕ × ℕ) :=
  let beforeMatch := rest.takeWhile isWord
  let matchStart := lastMatchEnd + byteLen beforeMatch
  match h : rest.dropWhile isWord with
  | [] => (rest, samePositions lastMatchEnd (byteLen rest))
  | c :: after =>
      let found := c :: after.takeWhile (!isWord ·)
      let next := replaceFrom (matchStart + byteLen found) (after.dropWhile (!isWord ·))
      (beforeMatch ++ replacement ++ next.1,
        samePositions lastMatchEnd (byteLen beforeMatch) ++
          List.replicate (byteLen replacement) (unsigned matchStart, unsigned matchStart) ++ next.2)
termination_by rest.length
decreasing_by
  have hdrop := (List.dropWhile_suffix isWord (l := rest)).length_le
  have hafter := (List.dropWhile_suffix (!isWord ·) (l := after)).length_le
  rw [h, List.length_cons] at hdrop
  omega

def pcre2GlobalReplaceWithPosition (text : Str) : Str × List (ℕ × ℕ) :=
  replaceFrom isWord replacement 0 text

end replace

/-- What `StrQ2B` makes of a character. -/
def q2bChar (c : Char) : Char :=
  if 0xFF01 ≤ c.toNat ∧ c.toNat ≤ 0xFF5E then Char.ofNat (c.toNat - 0xFEE0)
  else if c.toNat = 0x3000 then ' '
  else c

def strQ2B (input : Str) : Str := input.map q2bChar

/-! ### The tables -/

/-- The loop of `BuildPositionMapping`, and what is left to fill. -/
def buildFrom (size origPos : ℕ) : Str → Str → List ℕ
  | o :: original, c :: converted =>
      List.replicate c.utf8Size (unsigned origPos) ++
        buildFrom size (origPos + o.utf8Size) original converted
  | _, rest => List.replicate (byteLen rest + 1) (unsigned size)

def buildPositionMapping (original converted : Str) : List ℕ :=
  buildFrom (byteLen original) 0 original converted

section mapping
variable (isWord : Char → Bool) (convert : Str → Str) (line : Str)

def processedLine : Str := (pcre2GlobalReplaceWithPosition isWord [' '] line).1

def pcre2PosMapping : List (ℕ × ℕ) := (pcre2GlobalReplaceWithPosition isWord [' '] line).2

/-- The line that is split into tokens. -/
def strline : Str := convert (strQ2B (processedLine isWord line))

/-- The tables put together, each with its range check. -/
def composed (openccPosMapping strq2bPosMapping : List ℕ) (pcre2PosMapping : List (ℕ × ℕ))
    (i : ℕ) : Option ℕ := do
  let str1Pos ← openccPosMapping[i]?
  let processedPos ← strq2bPosMapping[str1Pos]?
  let position ← pcre2PosMapping[processedPos]?
  return position.1

/-- The mapping of `TokenizeWithPosition`. -/
def finalPosMapping : List ℕ :=
  let processed := processedLine isWord line
  let str1 := strQ2B processed
  let openccPosMapping := buildPositionMapping str1 (convert str1)
  let strq2bPosMapping := buildPositionMapping processed str1
  (List.range (byteLen (convert str1))).map (fun i =>
      (composed openccPosMapping strq2bPosMapping (pcre2PosMapping isWord line) i).getD
        (unsigned (byteLen line))) ++
    [unsigned (byteLen line)]

end mapping

/-! ### Units of the line -/

/-- The sizes of the characters. -/
def sizes (s : Str) : List ℕ := s.map Char.utf8Size

section units
variable (isWord : Char → Bool)

/-- The word characters and the runs of other characters. -/
def units : Str → List Str
  | [] => []
  | c :: s =>
      if isWord c then [c] :: units s
      else (c :: s.takeWhile (!isWord ·)) :: units (s.dropWhile (!isWord ·))
termination_by s => s.length
decreasing_by
  · exact Nat.lt_succ_self _
  · exact Nat.lt_succ_of_le (List.dropWhile_suffix _).length_le

theorem flatten_units (s : Str) : (units isWord s).flatten = s := by
  induction s using units.induct isWord with
  | case1 => rw [units, List.flatten_nil]
  | case2 c s hc ih => rw [units, if_pos hc, List.flatten_cons, ih, List.singleton_append]
  | case3 c s hc ih =>
      rw [units, if_neg hc, List.flatten_cons, ih, List.cons_append,
        List.takeWhile_append_dropWhile]

/-- A prefix of the units is a prefix of the line. -/
theorem exists_take_units (s : Str) (k : ℕ) :
    ∃ n, ((units isWord s).take k).flatten = s.take n := by
  have h : ((units isWord s).take k).flatten ++ ((units isWord s).drop k).flatten = s := by
    rw [← List.flatten_append, List.take_append_drop, flatten_units]
  exact ⟨((units isWord s).take k).flatten.length, List.prefix_iff_eq_take.mp ⟨_, h⟩⟩

theorem sum_sizes_units (s : Str) : ((units isWord s).map byteLen).sum = byteLen s := by
  rw [← byteLen_flatten, flatten_units]

/-! ### The replacement, unit by unit -/

theorem byteLen_cons (c : Char) (s : Str) : byteLen (c :: s) = c.utf8Size + byteLen s := by
  rw [byteLen, List.map_cons, List.sum_cons, byteLen]

theorem samePositions_add (p m n : ℕ) :
    samePositions p (m + n) = samePositions p m ++ samePositions (p + m) n := by
  unfold samePositions
  rw [List.range_add, List.map_append, List.map_map]
  refine congrArg _ (List.map_congr_left fun i _ => ?_)
  show (unsigned (p + (m + i)), unsigned (p + (m + i))) = _
  rw [Nat.add_assoc]

theorem replaceFrom_nil (replacement : Str) (p : ℕ) :
    replaceFrom isWord replacement p [] = ([], []) := by
  rw [replaceFrom]
  rfl

/-- A word character is kept. -/
theorem replaceFrom_word (replacement : Str) (p : ℕ) {c : Char} (s : Str)
    (hc : isWord c = true) :
    replaceFrom isWord replacement p (c :: s) =
      (c :: (replaceFrom isWord replacement (p + c.utf8Size) s).1,
        samePositions p c.utf8Size ++
          (replaceFrom isWord replacement (p + c.utf8Size) s).2) := by
  rw [replaceFrom, replaceFrom, List.takeWhile_cons_of_pos hc, byteLen_cons,
    List.dropWhile_cons_of_pos hc]
  split
  case h_1 => rw [samePositions_add]
  case h_2 a after h =>
      simp only [byteLen_cons, samePositions_add, List.cons_append, List.append_assoc,
        Nat.add_assoc]

/-- A run of other characters is replaced. -/
theorem replaceFrom_run (replacement : Str) (p : ℕ) {c : Char} (s : Str)
    (hc : ¬isWord c = true) :
    replaceFrom isWord replacement p (c :: s) =
      (replacement ++ (replaceFrom isWord replacement
          (p + byteLen (c :: s.takeWhile (!isWord ·))) (s.dropWhile (!isWord ·))).1,
        List.replicate (byteLen replacement) (unsigned p, unsigned p) ++
          (replaceFrom isWord replacement
            (p + byteLen (c :: s.takeWhile (!isWord ·))) (s.dropWhile (!isWord ·))).2) := by
  rw [replaceFrom, List.takeWhile_cons_of_neg hc]
  split
  case h_1 h => rw [List.dropWhile_cons_of_neg hc] at h; cases h
  case h_2 a after h =>
      rw [List.dropWhile_cons_of_neg hc] at h
      obtain ⟨rfl, rfl⟩ := List.cons_eq_cons.mp h
      rfl

theorem length_processed (p : ℕ) (s : Str) :
    (replaceFrom isWord [' '] p s).1.length = (units isWord s).length := by
  induction s using units.induct isWord generalizing p with
  | case1 => rw [replaceFrom_nil, units]; rfl
  | case2 c s hc ih =>
      rw [replaceFrom_word isWord [' '] p s hc, units, if_pos hc, List.length_cons, ih,
        List.length_cons]
  | case3 c s hc ih =>
      rw [replaceFrom_run isWord [' '] p s hc, units, if_neg hc, List.singleton_append,
        List.length_cons, ih, List.length_cons]

theorem byteLen_processed_le (p : ℕ) (s : Str) :
    byteLen (replaceFrom isWord [' '] p s).1 ≤ byteLen s := by
  induction s using units.induct isWord generalizing p with
  | case1 => rw [replaceFrom_nil]
  | case2 c s hc ih =>
      rw [replaceFrom_word isWord [' '] p s hc, byteLen_cons, byteLen_cons]
      exact Nat.add_le_add_left (ih _) _
  | case3 c s hc ih =>
      have hrun : byteLen (s.takeWhile (!isWord ·)) + byteLen (s.dropWhile (!isWord ·)) =
          byteLen s := by
        rw [← byteLen_append, List.takeWhile_append_dropWhile]
      have hrest := ih (p + byteLen (c :: s.takeWhile (!isWord ·)))
      have hblank : Char.utf8Size ' ' = 1 := rfl
      have hpos := c.utf8Size_pos
      rw [replaceFrom_run isWord [' '] p s hc, List.singleton_append, byteLen_cons ' ',
        byteLen_cons c s]
      omega

/-- Where the characters of the processed line begin, the table has the beginnings of the units. -/
theorem map_starts_processed (p : ℕ) (s : Str) (before : List (ℕ × ℕ)) :
    (starts before.length (sizes (replaceFrom isWord [' '] p s).1)).map
        (fun q => (before ++ (replaceFrom isWord [' '] p s).2)[q]?.map Prod.fst) =
      (starts p ((units isWord s).map byteLen)).map (fun q => some (unsigned q)) := by
  induction s using units.induct isWord generalizing p before with
  | case1 => rw [replaceFrom_nil, units]; rfl
  | case2 c s hc ih =>
      have hne : samePositions p c.utf8Size ≠ [] := by
        intro h
        have := congrArg List.length h
        rw [samePositions, List.length_map, List.length_range] at this
        exact absurd this c.utf8Size_pos.ne'
      have hhead : (samePositions p c.utf8Size).head? = some (unsigned p, unsigned p) := by
        rw [samePositions, List.head?_map, List.head?_range, if_neg c.utf8Size_pos.ne']
        rfl
      have hlen : before.length + c.utf8Size =
          (before ++ samePositions p c.utf8Size).length := by
        rw [List.length_append, samePositions, List.length_map, List.length_range]
      have hbyte : byteLen [c] = c.utf8Size := rfl
      rw [replaceFrom_word isWord [' '] p s hc, units, if_pos hc, List.map_cons, starts, sizes,
        List.map_cons, starts, List.map_cons, List.map_cons,
        getElem?_block before _ _ hne, hhead, hlen, hbyte]
      have := ih (p + c.utf8Size) (before ++ samePositions p c.utf8Size)
      rw [List.append_assoc] at this
      exact congrArg _ this
  | case3 c s hc ih =>
      have hbyte : byteLen [' '] = 1 := rfl
      have hlen : before.length + Char.utf8Size ' ' =
          (before ++ [(unsigned p, unsigned p)]).length := by
        rw [List.length_append]
        rfl
      rw [replaceFrom_run isWord [' '] p s hc, units, if_neg hc, List.map_cons, starts, sizes,
        List.singleton_append, List.map_cons, starts, List.map_cons, List.map_cons, hbyte,
        List.replicate_one, getElem?_block before _ _ (List.cons_ne_nil _ _), hlen]
      have := ih (p + byteLen (c :: s.takeWhile (!isWord ·)))
        (before ++ [(unsigned p, unsigned p)])
      rw [List.append_assoc] at this
      exact congrArg _ this

end units

/-! ### The tables put together -/

theorem length_sizes (s : Str) : (sizes s).length = s.length := List.length_map _

theorem sizes_pos (s : Str) : ∀ n ∈ sizes s, 0 < n := by
  intro n hn
  obtain ⟨c, -, rfl⟩ := List.mem_map.mp hn
  exact c.utf8Size_pos

theorem unsigned_of_lt {n : ℕ} (h : n < 2 ^ 32) : unsigned n = n := Nat.mod_eq_of_lt h

theorem map_unsigned {l : List ℕ} (h : ∀ n ∈ l, n < 2 ^ 32) : l.map unsigned = l := by
  conv_rhs => rw [← List.map_id l]
  exact List.map_congr_left fun n hn => unsigned_of_lt (h n hn)

theorem buildFrom_eq (size p : ℕ) {original converted : Str}
    (h : converted.length = original.length) :
    buildFrom size p original converted =
      (spread (sizes converted) (starts p (sizes original)) ++ [size]).map unsigned := by
  induction original generalizing p converted with
  | nil =>
      rw [List.length_eq_zero_iff.mp h]
      rfl
  | cons o original ih =>
      cases converted with
      | nil => cases h
      | cons c converted =>
          rw [buildFrom, ih _ (Nat.succ.inj h), ← List.map_replicate, ← List.map_append,
            ← List.append_assoc]
          rfl

/-- The table of a conversion that keeps the number of characters. -/
theorem buildPositionMapping_eq {original converted : Str}
    (h : converted.length = original.length) (hsize : byteLen original < 2 ^ 32) :
    buildPositionMapping original converted =
      spread (sizes converted) (starts 0 (sizes original)) ++ [byteLen original] := by
  rw [buildPositionMapping, buildFrom_eq _ _ h]
  refine map_unsigned (fun n hn => ?_)
  rw [List.mem_append, List.mem_singleton] at hn
  cases hn with
  | inl hn =>
      have hle : n ≤ 0 + byteLen original := (bounds_of_mem_starts (mem_of_mem_spread hn)).2
      omega
  | inr hn => exact hn ▸ hsize

theorem toNat_ofNat {n : ℕ} (h : n < 128) : (Char.ofNat n).toNat = n := by
  have hvalid : n.isValidChar := Or.inl (by omega)
  rw [Char.ofNat, dif_pos hvalid]
  rfl

theorem utf8Size_ofNat {n : ℕ} (h : n < 128) : (Char.ofNat n).utf8Size = 1 := by
  refine Char.utf8Size_eq_one_iff.mpr (UInt32.le_iff_toNat_le.mpr ?_)
  show (Char.ofNat n).toNat ≤ 127
  rw [toNat_ofNat h]
  omega

theorem utf8Size_q2bChar_le (c : Char) : (q2bChar c).utf8Size ≤ c.utf8Size := by
  have hpos := c.utf8Size_pos
  unfold q2bChar
  split_ifs with h h'
  · rw [utf8Size_ofNat (by omega)]
    exact hpos
  · exact hpos
  · exact Nat.le_refl _

theorem byteLen_strQ2B_le (s : Str) : byteLen (strQ2B s) ≤ byteLen s := by
  induction s with
  | nil => exact Nat.le_refl _
  | cons c s ih =>
      rw [strQ2B, List.map_cons, byteLen_cons, byteLen_cons]
      exact Nat.add_le_add (utf8Size_q2bChar_le c) ih

theorem length_strQ2B (s : Str) : (strQ2B s).length = s.length := List.length_map _

theorem composed_eq (openccPosMapping strq2bPosMapping : List ℕ) (pcre2PosMapping : List (ℕ × ℕ))
    (i : ℕ) :
    composed openccPosMapping strq2bPosMapping pcre2PosMapping i =
      (openccPosMapping[i]?.bind (strq2bPosMapping[·]?)).bind
        fun q => pcre2PosMapping[q]?.map Prod.fst := by
  simp only [Option.map_eq_bind, Option.bind_assoc]
  rfl

section mapping
variable {isWord : Char → Bool} {convert : Str → Str} {line : Str}

theorem length_processedLine : (processedLine isWord line).length = (units isWord line).length :=
  length_processed isWord 0 line

theorem length_str1 :
    (strQ2B (processedLine isWord line)).length = (units isWord line).length := by
  rw [length_strQ2B, length_processedLine]

/-- The outer tables put together: the characters of the converted line have the beginnings of the
characters of the processed line. -/
theorem map_bind_tables
    (hconvert : (strline isWord convert line).length =
      (strQ2B (processedLine isWord line)).length)
    (hsize : byteLen line < 2 ^ 32) :
    (List.range (byteLen (strline isWord convert line))).map (fun i =>
        (buildPositionMapping (strQ2B (processedLine isWord line))
          (strline isWord convert line))[i]?.bind
            ((buildPositionMapping (processedLine isWord line)
              (strQ2B (processedLine isWord line)))[·]?)) =
      (spread (sizes (strline isWord convert line))
        (starts 0 (sizes (processedLine isWord line)))).map some := by
  have hprocessed : byteLen (processedLine isWord line) ≤ byteLen line :=
    byteLen_processed_le isWord 0 line
  have hstr1 := byteLen_strQ2B_le (processedLine isWord line)
  rw [buildPositionMapping_eq hconvert (by omega),
    buildPositionMapping_eq (length_strQ2B (processedLine isWord line)) (by omega)]
  refine map_bind_getElem? ?_ ?_ (sizes_pos _) _ _
  · rw [length_sizes, length_sizes, hconvert]
  · rw [length_sizes, length_starts, length_sizes, length_strQ2B]

/-- The beginnings of the units fit if the line does. -/
theorem map_unsigned_starts (hsize : byteLen line < 2 ^ 32) :
    (starts 0 ((units isWord line).map byteLen)).map unsigned =
      starts 0 ((units isWord line).map byteLen) := by
  refine map_unsigned (fun n hn => ?_)
  have := (bounds_of_mem_starts hn).2
  rw [sum_sizes_units] at this
  omega

/-- The three tables put together: the characters of the converted line have the beginnings of the
units. -/
theorem finalPosMapping_eq
    (hconvert : (strline isWord convert line).length =
      (strQ2B (processedLine isWord line)).length)
    (hsize : byteLen line < 2 ^ 32) :
    finalPosMapping isWord convert line =
      spread (sizes (strline isWord convert line)) (starts 0 ((units isWord line).map byteLen)) ++
        [byteLen line] := by
  have hpcre2 : (starts 0 (sizes (processedLine isWord line))).map
      (fun q => (pcre2PosMapping isWord line)[q]?.map Prod.fst) =
        (starts 0 ((units isWord line).map byteLen)).map (fun q => some (unsigned q)) :=
    map_starts_processed isWord 0 line []
  have houter := congrArg (List.map fun o => (Option.bind o fun q =>
    ((pcre2PosMapping isWord line)[q]?).map Prod.fst).getD (byteLen line))
      (map_bind_tables hconvert hsize)
  have hinner := congrArg (List.map fun o => Option.getD o (byteLen line)) hpcre2
  rw [List.map_map, List.map_map] at houter hinner
  rw [map_spread] at houter
  unfold finalPosMapping
  simp only [composed_eq, unsigned_of_lt hsize]
  refine congrArg (· ++ [byteLen line]) ?_
  exact houter.trans (congrArg _ (hinner.trans (map_unsigned_starts hsize)))

end mapping

/-! ### The mapping leads back -/

/-- Each byte of the `k`-th character is mapped to the beginning of the `k`-th unit, and the end to
the end. -/
structure MapsBack (isWord : Char → Bool) (line converted : Str) (mapping : List ℕ) : Prop where
  length : mapping.length = byteLen converted + 1
  monotone : mapping.Pairwise (· ≤ ·)
  boundary : ∀ p ∈ mapping, p ≤ byteLen line ∧ ∃ n, p = byteLen (line.take n)
  characters : converted.length = (units isWord line).length
  beginning : ∀ k i, k < converted.length → byteLen (converted.take k) ≤ i →
    i < byteLen (converted.take (k + 1)) →
      mapping[i]? = some (byteLen ((units isWord line).take k).flatten)
  ending : mapping[byteLen converted]? = some (byteLen line)

theorem byteLen_take (s : Str) (k : ℕ) : byteLen (s.take k) = ((sizes s).take k).sum := by
  rw [sizes, ← List.map_take, byteLen]

theorem sum_take_units (isWord : Char → Bool) (line : Str) (k : ℕ) :
    (((units isWord line).map byteLen).take k).sum =
      byteLen ((units isWord line).take k).flatten := by
  rw [byteLen_flatten, List.map_take]

/-- A unit begins between two characters of the line. -/
theorem boundary_of_mem_starts {isWord : Char → Bool} {line : Str} {p : ℕ}
    (h : p ∈ starts 0 ((units isWord line).map byteLen)) :
    p ≤ byteLen line ∧ ∃ n, p = byteLen (line.take n) := by
  have hle := (bounds_of_mem_starts h).2
  rw [sum_sizes_units] at hle
  refine ⟨by omega, ?_⟩
  obtain ⟨k, hk⟩ := List.mem_iff_getElem?.mp h
  have hlt : k < ((units isWord line).map byteLen).length := by
    obtain ⟨hlt, -⟩ := List.getElem?_eq_some_iff.mp hk
    rwa [length_starts] at hlt
  rw [getElem?_starts 0 hlt, sum_take_units, Nat.zero_add] at hk
  obtain ⟨n, hn⟩ := exists_take_units isWord line k
  exact ⟨n, by rw [← hn, Option.some.inj hk]⟩

/-- Characters with the beginnings of the units lead back. -/
theorem mapsBack_spread (isWord : Char → Bool) (line converted : Str)
    (h : converted.length = (units isWord line).length) :
    MapsBack isWord line converted
      (spread (sizes converted) (starts 0 ((units isWord line).map byteLen)) ++
        [byteLen line]) := by
  have hlen : (sizes converted).length =
      (starts 0 ((units isWord line).map byteLen)).length := by
    rw [length_sizes, length_starts, List.length_map, h]
  have hspread := length_spread hlen
  refine ⟨?_, ?_, ?_, h, ?_, ?_⟩
  · rw [List.length_append, hspread]
    rfl
  · rw [List.pairwise_append]
    refine ⟨pairwise_spread Nat.le_refl _ (pairwise_starts _ _), List.pairwise_singleton _ _, ?_⟩
    intro p hp q hq
    rw [List.mem_singleton.mp hq]
    exact (boundary_of_mem_starts (mem_of_mem_spread hp)).1
  · intro p hp
    rw [List.mem_append, List.mem_singleton] at hp
    cases hp with
    | inl hp => exact boundary_of_mem_starts (mem_of_mem_spread hp)
    | inr hp =>
        refine ⟨Nat.le_of_eq hp, line.length, ?_⟩
        rw [hp, List.take_length]
  · intro k i hk hle hlt
    rw [byteLen_take] at hle hlt
    have hk' : k < (sizes converted).length := by rwa [length_sizes]
    have hsum := sum_take_le (sizes converted) (k + 1)
    rw [List.getElem?_append_left (by omega), getElem?_spread hlen hk' hle hlt,
      getElem?_starts 0 (by rw [List.length_map]; omega), sum_take_units, Nat.zero_add]
  · rw [List.getElem?_append_right (by rw [hspread]; exact Nat.le_refl _), hspread]
    show [byteLen line][byteLen converted - byteLen converted]? = _
    rw [Nat.sub_self]
    rfl

/-- If the conversion keeps the number of characters, the mapping of a line whose positions fit
leads back. -/
theorem finalPosMapping_mapsBack (isWord : Char → Bool) (convert : Str → Str) (line : Str)
    (hconvert : (convert (strQ2B (processedLine isWord line))).length =
      (strQ2B (processedLine isWord line)).length)
    (hsize : byteLen line < 2 ^ 32) :
    MapsBack isWord line (strline isWord convert line) (finalPosMapping isWord convert line) := by
  rw [finalPosMapping_eq hconvert hsize]
  exact mapsBack_spread isWord line _ (hconvert.trans length_str1)

theorem finalPosMapping_mapsBack_wide :
    let isWord := fun c : Char => c != '，' && c != '。'
    let convert := List.map fun c : Char => if c = '鎝' then '𨱏' else c
    let line := ['，', '。', 'Ａ', '鎝', '。', 'é']
    MapsBack isWord line (strline isWord convert line) (finalPosMapping isWord convert line) :=
  finalPosMapping_mapsBack _ _ _ (List.length_map _) (by decide)

/-! ### Positions that do not fit -/

theorem lt_of_mem_replaceFrom (isWord : Char → Bool) (p : ℕ) (s : Str) {q : ℕ × ℕ}
    (h : q ∈ (replaceFrom isWord [' '] p s).2) : q.1 < 2 ^ 32 := by
  have hlt : ∀ n, unsigned n < 2 ^ 32 := fun n => Nat.mod_lt n (by decide)
  induction s using units.induct isWord generalizing p with
  | case1 => rw [replaceFrom_nil] at h; exact absurd h List.not_mem_nil
  | case2 c s hc ih =>
      rw [replaceFrom_word isWord [' '] p s hc, List.mem_append] at h
      cases h with
      | inl h =>
          obtain ⟨i, -, rfl⟩ := List.mem_map.mp h
          exact hlt _
      | inr h => exact ih _ h
  | case3 c s hc ih =>
      rw [replaceFrom_run isWord [' '] p s hc, List.mem_append] at h
      cases h with
      | inl h => rw [List.eq_of_mem_replicate h]; exact hlt p
      | inr h => exact ih _ h

theorem lt_of_mem_finalPosMapping {isWord : Char → Bool} {convert : Str → Str} {line : Str} {p : ℕ}
    (h : p ∈ finalPosMapping isWord convert line) : p < 2 ^ 32 := by
  have hend : unsigned (byteLen line) < 2 ^ 32 := Nat.mod_lt _ (by decide)
  unfold finalPosMapping at h
  rw [List.mem_append, List.mem_singleton] at h
  cases h with
  | inl h =>
      obtain ⟨i, -, rfl⟩ := List.mem_map.mp h
      cases hc : composed _ _ (pcre2PosMapping isWord line) i with
      | none => exact hend
      | some p =>
          rw [composed_eq] at hc
          obtain ⟨a, -, ha⟩ := Option.bind_eq_some_iff.mp hc
          obtain ⟨q, hq, rfl⟩ := Option.map_eq_some_iff.mp ha
          exact lt_of_mem_replaceFrom isWord 0 line (List.mem_of_getElem? hq)
  | inr h => rw [h]; exact hend

/-- A unit that begins at `2 ^ 32` or later is not found. -/
theorem finalPosMapping_wraps {isWord : Char → Bool} {convert : Str → Str} {line : Str} {k : ℕ}
    (hk : k < (units isWord line).length)
    (hlarge : 2 ^ 32 ≤ byteLen ((units isWord line).take k).flatten) :
    ¬MapsBack isWord line (strline isWord convert line) (finalPosMapping isWord convert line) := by
  intro h
  have hk' : k < (strline isWord convert line).length := by rwa [h.characters]
  have hnext : byteLen ((strline isWord convert line).take k) <
      byteLen ((strline isWord convert line).take (k + 1)) := by
    have hone := ((strline isWord convert line)[k]).utf8Size_pos
    rw [List.take_succ_eq_append_getElem hk', byteLen_append, byteLen_cons]
    omega
  have hentry := h.beginning k _ hk' (Nat.le_refl _) hnext
  have := lt_of_mem_finalPosMapping (List.mem_of_getElem? hentry)
  omega

theorem units_replicate {isWord : Char → Bool} {c : Char} (hc : isWord c = true) (n : ℕ) :
    units isWord (List.replicate n c) = List.replicate n [c] := by
  induction n with
  | zero => rw [List.replicate_zero, units, List.replicate_zero]
  | succ n ih => rw [List.replicate_succ, units, if_pos hc, ih, List.replicate_succ]

theorem words_not_mapsBack (convert : Str → Str) {n : ℕ} (hn : 2 ^ 32 < n) :
    ¬MapsBack Char.isAlpha (List.replicate n 'a')
      (strline Char.isAlpha convert (List.replicate n 'a'))
      (finalPosMapping Char.isAlpha convert (List.replicate n 'a')) := by
  have hunits := units_replicate (show Char.isAlpha 'a' = true from rfl) n
  have hbyte : byteLen ['a'] = 1 := rfl
  refine @finalPosMapping_wraps _ _ _ (2 ^ 32) ?_ ?_
  · rw [hunits, List.length_replicate]
    exact hn
  · rw [hunits, List.take_replicate, byteLen_flatten, List.map_replicate, hbyte,
      List.sum_replicate_nat, Nat.min_eq_left (Nat.le_of_lt hn), Nat.mul_one]

theorem finalPosMapping_not_mapsBack :
    ¬∀ (isWord : Char → Bool) (convert : Str → Str) (line : Str),
      (convert (strQ2B (processedLine isWord line))).length =
        (strQ2B (processedLine isWord line)).length →
      MapsBack isWord line (strline isWord convert line)
        (finalPosMapping isWord convert line) := by
  intro h
  have hid : ∀ s : Str, (id s).length = s.length := fun _ => rfl
  exact words_not_mapsBack id (Nat.lt_succ_self (2 ^ 32)) (h Char.isAlpha id _ (hid _))

end RagFlow.Analyzer
