import Mathlib.Tactic.Linarith
import Mathlib.Tactic.NormNum
import Mathlib.Tactic.Ring
import RagFlow.Literals

/-! # The text of merged sections

What `naive_merge` keeps of its sections, for empty positions and no overlap.

* **Custom mode.** The chunks are the pieces between the delimiters (`foldlM_addPieces`).
* **Floats.** The overlap is computed in floats.  Rounding is exact for numbers with at most 53
  digits (`FloatRounding`), which is enough for texts that fit into memory (`InMemory`).
* **Plain mode.** The chunks are the joins of consecutive groups of sections, the first of them
  empty (`Grouped`).  A group is extended only while it is not full (`addSection_merging`).

`naiveMerge_conserves`: no text is lost. -/

namespace RagFlow.Nlp

open Py

/-! ### Custom mode -/

theorem appendMissing_empty (t host : Str) : appendMissing t host (.str []) = .ok t := by
  cases host with
  | nil => rfl
  | cons c host => rfl

/-- The pieces of one section, each with a line break before it. -/
theorem addPieces_eq (env : MergeEnv) (pattern : List Str) {pos : PyVal}
    (hpos : pos.truthy = false) (text : Str) (s : List Str × List ℕ) :
    addPieces env pattern s (text, pos) =
      .ok (s.1 ++ (kept pattern (reSplit pattern text)).map ('\n' :: ·),
        s.2 ++ (kept pattern (reSplit pattern text)).map
          fun t => env.numTokensFromString ('\n' :: t)) := by
  unfold addPieces
  generalize reSplit pattern text = pieces
  induction pieces generalizing s with
  | nil => simp [kept, pure, Except.pure]
  | cons t pieces ih =>
      rw [List.foldlM_cons]
      by_cases ht : t ∈ pattern
      · have hskip : addPiece env pattern pos s t = .ok s := by
          rw [addPiece, if_pos (List.contains_iff_mem.mpr ht)]
          rfl
        rw [hskip, kept_cons_of_mem ht]
        exact ih s
      · have hadd : addPiece env pattern pos s t = .ok
            (s.1 ++ ['\n' :: t], s.2 ++ [env.numTokensFromString ('\n' :: t)]) := by
          have hempty : (if env.numTokensFromString ('\n' :: t) < 8 then .str [] else pos).truthy
              = false := by
            split_ifs
            · rfl
            · exact hpos
          rw [addPiece, if_neg (by rw [List.contains_iff_mem]; exact ht)]
          dsimp only
          rw [appendPosition, hempty]
          rfl
        rw [hadd, kept_cons_of_not_mem ht]
        refine (ih _).trans ?_
        simp

/-- The loop in custom mode. -/
theorem foldlM_addPieces (env : MergeEnv) (pattern : List Str) (sections : List (Str × PyVal))
    (hpos : ∀ x ∈ sections, x.2.truthy = false) (s : List Str × List ℕ) :
    ∃ nums, sections.foldlM (addPieces env pattern) s = .ok
      (s.1 ++ sections.flatMap (fun x => (kept pattern (reSplit pattern x.1)).map ('\n' :: ·)),
        nums) := by
  induction sections generalizing s with
  | nil => exact ⟨s.2, by simp [pure, Except.pure]⟩
  | cons x sections ih =>
      obtain ⟨nums, hrun⟩ := ih (fun y hy => hpos y (List.mem_cons_of_mem x hy))
        (s.1 ++ (kept pattern (reSplit pattern x.1)).map ('\n' :: ·),
          s.2 ++ (kept pattern (reSplit pattern x.1)).map
            fun t => env.numTokensFromString ('\n' :: t))
      refine ⟨nums, ?_⟩
      rw [List.foldlM_cons, addPieces_eq env pattern (hpos x List.mem_cons_self) x.1 s]
      refine hrun.trans ?_
      simp

/-! ### Floats -/

/-- Binary floats with 53 digits: what has at most 53 digits and is not too large is not rounded,
and rounding keeps the order. -/
structure FloatRounding (round : ℚ → ℚ) : Prop where
  exact : ∀ m : ℤ, |m| ≤ 9007199254740992 → ∀ k < 970, round (m * 2 ^ k) = m * 2 ^ k
  mono : ∀ p q : ℚ, p ≤ q → round p ≤ round q

/-- The number of addresses of a 64-bit process, `2 ^ 48`. -/
def addressSpace : ℕ := 281474976710656

namespace FloatRounding

variable {round : ℚ → ℚ} (h : FloatRounding round)
include h

theorem round_int {m : ℤ} (hm : |m| ≤ addressSpace) : round m = m := by
  have hexact := h.exact m (hm.trans (by decide)) 0 (by decide)
  rwa [pow_zero, mul_one] at hexact

/-- A hundredfold has two digits `0` at its end. -/
theorem round_hundredfold {m : ℤ} (hm : |m| ≤ addressSpace) :
    round ((m * 100 : ℤ) : ℚ) = ((m * 100 : ℤ) : ℚ) := by
  have hbound : |m * 25| ≤ 9007199254740992 := by
    unfold addressSpace at hm
    rw [abs_le] at hm ⊢
    omega
  have hexact := h.exact (m * 25) hbound 2 (by decide)
  have hsplit : ((m * 25 : ℤ) : ℚ) * 2 ^ 2 = ((m * 100 : ℤ) : ℚ) := by
    push_cast
    ring
  rwa [hsplit] at hexact

theorem round_percent {m : ℤ} (hm : |m| ≤ addressSpace) :
    round (round ((m * 100 : ℤ) : ℚ) / 100) = m := by
  rw [h.round_hundredfold hm]
  have hquot : ((m * 100 : ℤ) : ℚ) / 100 = m := by
    push_cast
    ring
  rw [hquot, h.round_int hm]

end FloatRounding

theorem length_removeTagFrom_le (k : ℕ) (s : Str) : (removeTagFrom k s).length ≤ s.length := by
  induction s generalizing k with
  | nil => cases k <;> exact le_rfl
  | cons c s ih =>
      cases k with
      | succ k => exact (ih k).trans (Nat.le_succ _)
      | zero =>
          rw [removeTagFrom]
          cases tagLength (c :: s) with
          | some n => exact (ih (n - 1)).trans (Nat.le_succ _)
          | none => exact Nat.succ_le_succ (ih 0)

/-- Without overlap nothing is repeated. -/
theorem overlap_zero {env : MergeEnv} (hround : FloatRounding env.round) {ck : Str}
    (hck : ck.length ≤ addressSpace) : overlap env ck (.int 0) = [] := by
  have hlen : |((removeTag ck).length : ℤ)| ≤ addressSpace := by
    rw [Nat.abs_cast]
    exact_mod_cast (length_removeTagFrom_le 0 ck).trans hck
  have hpercent : env.round (env.round
      ((((removeTag ck).length : ℤ) * (100 - 0) : ℤ) : ℚ) / 100) = ((removeTag ck).length : ℤ) := by
    rw [sub_zero]
    exact hround.round_percent hlen
  show sliceFrom (removeTag ck) (truncate (env.round (env.round
      ((((removeTag ck).length : ℤ) * (100 - 0) : ℤ) : ℚ) / 100))) = []
  rw [hpercent]
  have htrunc : truncate (((removeTag ck).length : ℤ) : ℚ) = (removeTag ck).length := by
    unfold truncate
    rw [Rat.num_intCast, Rat.den_intCast]
    exact Int.tdiv_one _
  rw [htrunc, sliceFrom, if_neg (by omega), Int.toNat_natCast, List.drop_length]

/-- A chunk that is not full does not have more tokens than it may have. -/
theorem le_of_not_full {env : MergeEnv} (hround : FloatRounding env.round) {n : ℤ} {num : ℕ}
    (hnum : num ≤ addressSpace) (h : ¬fullFrom env (.int n) (.int 0) < num) : (num : ℤ) ≤ n := by
  by_contra hlt
  refine h ?_
  have hbelow : fullFrom env (.int n) (.int 0) ≤
      env.round (env.round ((((num : ℤ) - 1) * 100 : ℤ) : ℚ) / 100) := by
    refine hround.mono _ _ (div_le_div_of_nonneg_right (hround.mono _ _ ?_) (by norm_num))
    show ((n * (100 - 0) : ℤ) : ℚ) ≤ ((((num : ℤ) - 1) * 100 : ℤ) : ℚ)
    exact_mod_cast (by omega : n * (100 - 0) ≤ ((num : ℤ) - 1) * 100)
  have hexact := hround.round_percent (m := (num : ℤ) - 1) (by
    unfold addressSpace at hnum ⊢
    rw [abs_le]
    omega)
  rw [hexact] at hbelow
  refine hbelow.trans_lt ?_
  push_cast
  linarith

/-! ### Plain mode -/

section plain

variable (tokens : Str → ℕ) (n : ℤ)

/-- A group gets a further text only while it has at most `n` tokens. -/
def ExtendedWhile (g : List Str) : Prop :=
  ∀ p t q, g = p ++ t :: q → p ≠ [] → ((p.map tokens).sum : ℤ) ≤ n

/-- The chunks are the joins of groups of consecutive texts. -/
def Grouped (texts cks : List Str) : Prop :=
  ∃ groups : List (List Str), groups.flatten = texts ∧ cks = groups.map List.flatten ∧
    ∀ g ∈ groups, ExtendedWhile tokens n g

theorem extendedWhile_of_length_le {g : List Str} (hg : g.length ≤ 1) :
    ExtendedWhile tokens n g := by
  intro p t q hsplit hp
  have hlen := congrArg List.length hsplit
  rw [List.length_append, List.length_cons] at hlen
  have hpos := List.length_pos_iff.mpr hp
  omega

variable {tokens n}

theorem ExtendedWhile.snoc {g : List Str} (hg : ExtendedWhile tokens n g)
    (hle : ((g.map tokens).sum : ℤ) ≤ n) (t : Str) : ExtendedWhile tokens n (g ++ [t]) := by
  intro p u q hsplit hp
  rcases List.eq_nil_or_concat q with rfl | ⟨q, x, rfl⟩
  · obtain ⟨rfl, -⟩ := List.append_inj' hsplit rfl
    exact hle
  · rw [List.concat_eq_append, ← List.cons_append, ← List.append_assoc] at hsplit
    obtain ⟨hg', -⟩ := List.append_inj' hsplit rfl
    exact hg p u q hg' hp

theorem Grouped.flatten {texts cks : List Str} (h : Grouped tokens n texts cks) :
    cks.flatten = texts.flatten := by
  obtain ⟨groups, rfl, rfl, -⟩ := h
  rw [List.flatten_flatten]

end plain

/-- The texts that `naive_merge` puts together, a line break before each section. -/
def texts (sections : List (Str × PyVal)) : List Str := sections.map fun x => '\n' :: x.1

/-- The state of the loop after some sections.  The last of the groups is the one of the last
chunk, with its tokens counted; the seed of the list is an empty group. -/
structure Merging (env : MergeEnv) (n : ℤ) (done : List Str) (s : Chunks) : Prop where
  groups : ∃ gs : Filled (List Str), gs.toList.flatten = done ∧
    s.cks.before = gs.before.map List.flatten ∧ s.cks.last = gs.last.flatten ∧
    s.tkNums.last = (gs.last.map env.numTokensFromString).sum ∧
    ∀ g ∈ gs.toList, ExtendedWhile env.numTokensFromString n g

/-- The sections and their tokens have addresses. -/
structure InMemory (env : MergeEnv) (sections : List (Str × PyVal)) : Prop where
  text : (texts sections).flatten.length ≤ addressSpace
  tokens : ((texts sections).map env.numTokensFromString).sum ≤ addressSpace

theorem merging_start (env : MergeEnv) (n : ℤ) :
    Merging env n [] { cks := ⟨[], []⟩, tkNums := ⟨[], 0⟩ } := by
  refine ⟨⟨⟨[], []⟩, rfl, rfl, rfl, rfl, fun g hg => ?_⟩⟩
  rw [List.mem_singleton.mp hg]
  exact extendedWhile_of_length_le _ _ (Nat.zero_le 1)

theorem addChunk_of_empty_pos (env : MergeEnv) (a p : Number) (s : Chunks) (t : Str) {pos : PyVal}
    (hpos : pos.truthy = false) :
    addChunk env a p s t pos = .ok
      (if s.cks.last = [] ∨ fullFrom env a p < s.tkNums.last then
        { cks := s.cks.append (overlap env s.cks.last p ++ t)
          tkNums := s.tkNums.append (env.numTokensFromString t) }
      else
        { cks := s.cks.setLast (s.cks.last ++ t)
          tkNums := s.tkNums.setLast (s.tkNums.last + env.numTokensFromString t) }) := by
  unfold addChunk
  dsimp only
  have hnone : (if env.numTokensFromString t < 8 then PyVal.str []
      else if pos.truthy = true then pos else .str []) = .str [] := by
    rw [hpos, if_neg Bool.false_ne_true, ite_self]
  rw [hnone]
  by_cases hnew : s.cks.last = [] ∨ fullFrom env a p < s.tkNums.last
  · rw [if_pos hnew, if_pos hnew, appendMissing_empty]
    rfl
  · rw [if_neg hnew, if_neg hnew, appendMissing_empty]
    rfl

/-- A round of the loop: a new group, or a longer last one. -/
theorem addSection_merging {env : MergeEnv} (hround : FloatRounding env.round) {n : ℤ}
    {done : List Str} {s : Chunks} {x : Str × PyVal} (hpos : x.2.truthy = false)
    (htext : done.flatten.length ≤ addressSpace)
    (htokens : (done.map env.numTokensFromString).sum ≤ addressSpace)
    (h : Merging env n done s) :
    ∃ s', addSection env (.int n) (.int 0) s x = .ok s' ∧
      Merging env n (done ++ ['\n' :: x.1]) s' := by
  obtain ⟨gs, rfl, hbefore, hlast, hnum, hextended⟩ := h.groups
  have hmem : gs.last ∈ gs.toList := List.mem_append_right _ (List.mem_singleton_self _)
  have hck : s.cks.last.length ≤ addressSpace := by
    refine le_trans ?_ htext
    rw [hlast, Filled.toList, List.flatten_append, List.flatten_singleton, List.flatten_append,
      List.length_append]
    omega
  have hnumle : s.tkNums.last ≤ addressSpace := by
    refine le_trans ?_ htokens
    rw [hnum, Filled.toList, List.flatten_append, List.flatten_singleton, List.map_append,
      List.sum_append]
    omega
  refine ⟨_, addChunk_of_empty_pos env _ _ s _ hpos, ?_⟩
  by_cases hnew : s.cks.last = [] ∨ fullFrom env (.int n) (.int 0) < s.tkNums.last
  · rw [if_pos hnew, overlap_zero hround hck, List.nil_append]
    refine ⟨⟨gs.append ['\n' :: x.1], ?_, ?_, ?_, ?_, fun g hg => ?_⟩⟩
    · show (gs.toList ++ [['\n' :: x.1]]).flatten = _
      rw [List.flatten_append, List.flatten_singleton]
    · show s.cks.before ++ [s.cks.last] = (gs.before ++ [gs.last]).map List.flatten
      rw [List.map_append, hbefore, hlast]
      rfl
    · exact (List.flatten_singleton).symm
    · exact (List.sum_singleton).symm
    · rcases List.mem_append.mp hg with hg | hg
      · exact hextended g hg
      · rw [List.mem_singleton.mp hg]
        exact extendedWhile_of_length_le _ _ le_rfl
  · rw [if_neg hnew]
    obtain ⟨-, hfull⟩ := not_or.mp hnew
    have hle := le_of_not_full hround hnumle hfull
    rw [hnum] at hle
    refine ⟨⟨gs.setLast (gs.last ++ ['\n' :: x.1]), ?_, hbefore, ?_, ?_, fun g hg => ?_⟩⟩
    · show (gs.before ++ [gs.last ++ ['\n' :: x.1]]).flatten = (gs.before ++ [gs.last]).flatten ++ _
      simp
    · show s.cks.last ++ '\n' :: x.1 = (gs.last ++ ['\n' :: x.1]).flatten
      rw [hlast, List.flatten_append, List.flatten_singleton]
    · show s.tkNums.last + _ = ((gs.last ++ ['\n' :: x.1]).map env.numTokensFromString).sum
      rw [hnum, List.map_append, List.sum_append, List.map_singleton, List.sum_singleton]
    · rcases List.mem_append.mp hg with hg | hg
      · exact hextended g (List.mem_append_left _ hg)
      · rw [List.mem_singleton.mp hg]
        exact (hextended _ hmem).snoc hle _

/-- The loop in plain mode. -/
theorem foldlM_addSection {env : MergeEnv} (hround : FloatRounding env.round) {n : ℤ}
    (sections : List (Str × PyVal)) (hpos : ∀ x ∈ sections, x.2.truthy = false) (done : List Str)
    (s : Chunks) (htext : (done ++ texts sections).flatten.length ≤ addressSpace)
    (htokens : ((done ++ texts sections).map env.numTokensFromString).sum ≤ addressSpace)
    (h : Merging env n done s) :
    ∃ s', sections.foldlM (addSection env (.int n) (.int 0)) s = .ok s' ∧
      Merging env n (done ++ texts sections) s' := by
  induction sections generalizing done s with
  | nil =>
      refine ⟨s, rfl, ?_⟩
      rwa [texts, List.map_nil, List.append_nil]
  | cons x sections ih =>
      have hsplit : done ++ texts (x :: sections) = (done ++ ['\n' :: x.1]) ++ texts sections := by
        rw [List.append_assoc]
        rfl
      have hdone : done.flatten.length ≤ addressSpace := by
        rw [List.flatten_append, List.length_append] at htext
        omega
      have hnums : (done.map env.numTokensFromString).sum ≤ addressSpace := by
        rw [List.map_append, List.sum_append] at htokens
        omega
      obtain ⟨s₁, hadd, hs₁⟩ := addSection_merging hround (hpos x List.mem_cons_self) hdone hnums h
      rw [hsplit] at htext htokens ⊢
      obtain ⟨s', hrun, hs'⟩ := ih (fun y hy => hpos y (List.mem_cons_of_mem x hy)) _ s₁ htext
        htokens hs₁
      refine ⟨s', ?_, hs'⟩
      rw [List.foldlM_cons, hadd]
      exact hrun

/-- **No text is lost.**  Without delimiters of its own `naive_merge` returns the texts of
consecutive sections, put together while a chunk is not full; with such delimiters it returns what
stands between them. -/
theorem naiveMerge_conserves (env : MergeEnv) (hround : FloatRounding env.round)
    (sections : List (Str × PyVal)) (hmemory : InMemory env sections)
    (hpos : ∀ x ∈ sections, x.2.truthy = false) (n : ℤ) (delimiter : Str) :
    ∃ cks, naiveMerge env sections (.int n) delimiter (.int 0) = .ok cks ∧
      (customDelimiters delimiter = [] → cks.flatten = (texts sections).flatten ∧
        Grouped env.numTokensFromString n (texts sections) cks) ∧
      (customDelimiters delimiter ≠ [] →
        ∃ pieces : List (List Str), cks = pieces.flatten.map ('\n' :: ·) ∧
          List.Forall₂ (fun text ps => Cut (customPattern (customDelimiters delimiter)) text ps ∧
            Interleaved (customPattern (customDelimiters delimiter)) text ps)
            (sections.map Prod.fst) pieces) := by
  unfold naiveMerge
  by_cases hempty : sections = []
  · subst hempty
    refine ⟨[], if_pos rfl, fun _ => ⟨rfl, [], rfl, rfl, fun _ h => ?_⟩,
      fun _ => ⟨[], rfl, List.Forall₂.nil⟩⟩
    exact absurd h List.not_mem_nil
  rw [if_neg hempty]
  dsimp only
  by_cases hcustom : customDelimiters delimiter ≠ []
  · rw [if_pos hcustom]
    obtain ⟨nums, hrun⟩ := foldlM_addPieces env (customPattern (customDelimiters delimiter))
      sections hpos ([], [])
    rw [hrun]
    refine ⟨_, rfl, fun h => absurd h hcustom, fun _ =>
      ⟨sections.map fun x => kept (customPattern (customDelimiters delimiter))
        (reSplit (customPattern (customDelimiters delimiter)) x.1), ?_, ?_⟩⟩
    · rw [List.nil_append, List.map_flatten, List.map_map, List.flatMap_def]
      rfl
    · rw [List.forall₂_map_left_iff, List.forall₂_map_right_iff, List.forall₂_same]
      intro x _
      have hcut := reSplit_cut (ne_nil_of_mem_customPattern delimiter) (customPattern_sorted _) x.1
      exact ⟨hcut, hcut.interleaved⟩
  · rw [if_neg hcustom]
    obtain ⟨s', hrun, hs'⟩ := foldlM_addSection hround sections hpos [] _ hmemory.text
      hmemory.tokens (merging_start env n)
    rw [hrun]
    refine ⟨_, rfl, fun _ => ?_, fun h => absurd h hcustom⟩
    obtain ⟨gs, hflat, hbefore, hlast, -, hextended⟩ := hs'.groups
    have hgrouped : Grouped env.numTokensFromString n (texts sections) s'.cks.toList := by
      refine ⟨gs.toList, hflat, ?_, hextended⟩
      rw [Filled.toList, Filled.toList, List.map_append, hbefore, hlast]
      rfl
    exact ⟨hgrouped.flatten, hgrouped⟩

/-! Three letters, the first two in one chunk, and two letters with a delimiter of their own between
them. -/

def letterEnv : MergeEnv := ⟨List.length, id⟩

theorem naiveMerge_conserves_letters :
    (naiveMerge letterEnv [(['a'], .str []), (['b'], .str []), (['c'], .str [])] (.int 2) "\n"
        (.int 0)).toOption = some [[], "\na\nb".toList, "\nc".toList] ∧
      (∃ cks, naiveMerge letterEnv [(['a'], .str []), (['b'], .str []), (['c'], .str [])] (.int 2)
        "\n" (.int 0) = .ok cks ∧ cks.flatten = "\na\nb\nc".toList) ∧
      ∃ cks pieces, naiveMerge letterEnv [("a;b".toList, .str [])] (.int 2) "\x60;\x60" (.int 0) =
          .ok cks ∧ cks = pieces.map ('\n' :: ·) ∧
        Interleaved (customPattern (customDelimiters "\x60;\x60")) "a;b".toList pieces := by
  have hround : FloatRounding letterEnv.round := ⟨fun _ _ _ _ => rfl, fun _ _ h => h⟩
  refine ⟨by decide +kernel, ?_, ?_⟩
  · obtain ⟨cks, hrun, hplain, -⟩ := naiveMerge_conserves letterEnv hround
      [(['a'], .str []), (['b'], .str []), (['c'], .str [])] ⟨by decide, by decide⟩
      (by simp [PyVal.truthy]) 2 "\n"
    exact ⟨cks, hrun, (hplain (by decide)).1⟩
  · obtain ⟨cks, hrun, -, hcustom⟩ := naiveMerge_conserves letterEnv hround
      [("a;b".toList, .str [])] ⟨by decide, by decide⟩ (by simp [PyVal.truthy]) 2 "\x60;\x60"
    obtain ⟨pieces, hcks, hpieces⟩ := hcustom (by decide)
    obtain ⟨ps, rest, ⟨-, hps⟩, hrest, rfl⟩ := List.forall₂_cons_left_iff.mp hpieces
    rw [List.forall₂_nil_left_iff.mp hrest, List.flatten_singleton] at hcks
    exact ⟨cks, ps, hrun, hcks, hps⟩

end RagFlow.Nlp
