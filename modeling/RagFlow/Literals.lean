import RagFlow.NaiveMerge

/-! # Splitting at literals

What `re.split` does with a pattern that is an alternation of literals.

* **Spec.** `Cut` says how a text is cut at the leftmost occurrence of a literal, the longest of
  those that start there, and so on in what follows.
* **Induction.** `reSplit` finds nothing, or it finds a literal and goes on after it
  (`reSplit_induction`).  Everything else about it is proved by this induction.
* **Pieces.** The pieces between the literals are those of `Cut` (`reSplit_cut`), pieces and
  literals make up the text (`Cut.interleaved`, `flatten_reSplit`), and there is no literal in the
  last piece (`reSplit_getLast`). -/

namespace RagFlow.Nlp

open Py

/-! ### Cutting at literals -/

section cut

variable {α : Type}

/-- None of the literals starts inside `u`, if `v` follows it. -/
def NoStart (ds : List (List α)) (u v : List α) : Prop :=
  ∀ a b, u = a ++ b → b ≠ [] → ∀ d ∈ ds, ¬d <+: b ++ v

/-- The pieces of a text between consecutive occurrences of the literals: the leftmost, and of those
that start there the longest. -/
inductive Cut (ds : List (List α)) : List α → List (List α) → Prop where
  | rest {s : List α} (hnone : NoStart ds s []) : Cut ds s [s]
  | next {before d after : List α} {pieces : List (List α)} (hd : d ∈ ds)
      (hfirst : NoStart ds before (d ++ after))
      (hlongest : ∀ d' ∈ ds, d' <+: d ++ after → d'.length ≤ d.length)
      (hafter : Cut ds after pieces) : Cut ds (before ++ (d ++ after)) (before :: pieces)

theorem noStart_nil (ds : List (List α)) (v : List α) : NoStart ds [] v := by
  intro a b hab hb
  exact absurd (List.append_eq_nil_iff.mp hab.symm).2 hb

theorem NoStart.snoc {ds : List (List α)} {u v : List α} {c : α} (hu : NoStart ds u (c :: v))
    (hc : ∀ d ∈ ds, ¬d <+: c :: v) : NoStart ds (u ++ [c]) v := by
  intro a b hab hb d hd hpre
  rcases List.eq_nil_or_concat b with rfl | ⟨b', x, rfl⟩
  · exact hb rfl
  · rw [List.concat_eq_append, ← List.append_assoc] at hab
    obtain ⟨rfl, hx⟩ := List.append_inj' hab rfl
    cases hx
    have hpre' : d <+: b' ++ c :: v := by simpa using hpre
    by_cases hb' : b' = []
    · subst hb'
      exact hc d hd hpre'
    · exact hu a b' rfl hb' d hd hpre'

/-- A piece is not one of the literals. -/
theorem NoStart.not_mem {ds : List (List α)} {u v : List α} (h : NoStart ds u v)
    (hne : ∀ d ∈ ds, d ≠ []) : u ∉ ds :=
  fun hu => h [] u rfl (hne u hu) u hu (List.prefix_append u v)

/-- The pieces with a literal after each but the last make up the text. -/
def Interleaved (ds : List (List α)) (s : List α) (pieces : List (List α)) : Prop :=
  ∃ last : List α, ∃ pairs : List (List α × List α),
    pieces = pairs.map Prod.fst ++ [last] ∧ (∀ p ∈ pairs, p.2 ∈ ds) ∧
      s = (pairs.map fun p => p.1 ++ p.2).flatten ++ last

theorem Cut.interleaved {ds : List (List α)} {s : List α} {pieces : List (List α)}
    (h : Cut ds s pieces) : Interleaved ds s pieces := by
  induction h with
  | rest hnone => exact ⟨_, [], rfl, fun _ h => (List.not_mem_nil h).elim, rfl⟩
  | @next before d after pieces hd hfirst hlongest hafter ih =>
      obtain ⟨last, pairs, rfl, hpairs, rfl⟩ := ih
      refine ⟨last, (before, d) :: pairs, rfl, fun p hp => ?_, by simp⟩
      rcases List.mem_cons.mp hp with rfl | hp
      · exact hd
      · exact hpairs p hp

end cut

/-! ### The induction -/

theorem reSplitFrom_skip (pattern : List Str) (k : ℕ) (cur s : Str) :
    reSplitFrom pattern k cur s = reSplitFrom pattern 0 cur (s.drop k) := by
  induction k generalizing s with
  | zero => rfl
  | succ k ih =>
      cases s with
      | nil => rfl
      | cons c s =>
          rw [reSplitFrom, ih, List.drop_succ_cons]

section induction

variable {pattern : List Str} (hne : ∀ d ∈ pattern, d ≠ [])
include hne

/-- Either there is no literal in the text, or the search goes on after the first. -/
theorem reSplitFrom_cases (s : Str) : ∀ cur : Str, NoStart pattern cur.reverse s →
    (reSplitFrom pattern 0 cur s = [cur.reverse ++ s] ∧ NoStart pattern (cur.reverse ++ s) []) ∨
      ∃ before d after, cur.reverse ++ s = before ++ (d ++ after) ∧
        pattern.find? (startswith (d ++ after)) = some d ∧ NoStart pattern before (d ++ after) ∧
        reSplitFrom pattern 0 cur s = before :: d :: reSplit pattern after := by
  induction s with
  | nil =>
      intro cur hstart
      refine Or.inl ⟨?_, ?_⟩
      · rw [reSplitFrom, List.append_nil]
      · rwa [List.append_nil]
  | cons c s ih =>
      intro cur hstart
      cases hfind : pattern.find? (startswith (c :: s)) with
      | none =>
          have hnone : ∀ d ∈ pattern, ¬d <+: c :: s := by
            intro d hd hpre
            exact absurd (startswith_iff.mpr hpre) (List.find?_eq_none.mp hfind d hd)
          have hcases := ih (c :: cur) (by rw [List.reverse_cons]; exact hstart.snoc hnone)
          rw [List.reverse_cons, List.append_assoc, List.singleton_append] at hcases
          rw [reSplitFrom, hfind]
          exact hcases
      | some d =>
          obtain ⟨tail, htail⟩ := startswith_iff.mp (List.find?_some hfind)
          have hlen : 0 < d.length :=
            List.length_pos_iff.mpr (hne d (List.mem_of_find?_eq_some hfind))
          have hrest : s.drop (d.length - 1) = tail := by
            have hdrop := congrArg (List.drop d.length) htail
            rw [List.drop_left] at hdrop
            rw [hdrop, ← List.drop_succ_cons (a := c), Nat.sub_add_cancel hlen]
          refine Or.inr ⟨cur.reverse, d, tail, by rw [htail], by rw [htail, hfind],
            by rwa [htail], ?_⟩
          rw [reSplitFrom, hfind]
          show cur.reverse :: d :: reSplitFrom pattern (d.length - 1) [] s = _
          rw [reSplitFrom_skip, hrest]
          rfl

theorem reSplit_induction {motive : Str → List Str → Prop}
    (rest : ∀ s, NoStart pattern s [] → motive s [s])
    (next : ∀ before d after, d ∈ pattern → pattern.find? (startswith (d ++ after)) = some d →
      NoStart pattern before (d ++ after) → motive after (reSplit pattern after) →
      motive (before ++ (d ++ after)) (before :: d :: reSplit pattern after))
    (s : Str) : motive s (reSplit pattern s) := by
  induction hn : s.length using Nat.strong_induction_on generalizing s with
  | _ n ih =>
      rcases reSplitFrom_cases hne s [] (noStart_nil pattern s) with
        ⟨hsplit, hstart⟩ | ⟨before, d, after, hs, hfind, hstart, hsplit⟩
      · rw [reSplit, hsplit]
        exact rest s hstart
      · rw [List.reverse_nil, List.nil_append] at hs
        have hd := List.mem_of_find?_eq_some hfind
        have hlen := List.length_pos_iff.mpr (hne d hd)
        have htotal := congrArg List.length hs
        rw [List.length_append, List.length_append] at htotal
        rw [reSplit, hsplit, hs]
        exact next before d after hd hfind hstart (ih after.length (by omega) after rfl)

theorem flatten_reSplit (s : Str) : (reSplit pattern s).flatten = s := by
  induction s using reSplit_induction hne with
  | rest s hstart => simp
  | next before d after hd hfind hstart ih => simp [ih]

/-- The last piece, with no literal in it. -/
theorem reSplit_getLast (s : Str) :
    ∃ pieces t, reSplit pattern s = pieces ++ [t] ∧ NoStart pattern t [] := by
  induction s using reSplit_induction hne with
  | rest s hstart => exact ⟨[], s, rfl, hstart⟩
  | next before d after hd hfind hstart ih =>
      obtain ⟨pieces, t, hsplit, ht⟩ := ih
      exact ⟨before :: d :: pieces, t, by rw [hsplit]; rfl, ht⟩

end induction

/-! ### The pieces between the literals -/

/-- The pieces that are not literals. -/
def kept (pattern pieces : List Str) : List Str := pieces.filter fun t => !pattern.contains t

theorem kept_cons_of_mem {pattern : List Str} {t : Str} (ht : t ∈ pattern) (l : List Str) :
    kept pattern (t :: l) = kept pattern l := by
  simp [kept, ht]

theorem kept_cons_of_not_mem {pattern : List Str} {t : Str} (ht : t ∉ pattern) (l : List Str) :
    kept pattern (t :: l) = t :: kept pattern l := by
  simp [kept, ht]

/-- The literal that is found is the longest, if the longer ones come first. -/
theorem longest_of_find? {pattern : List Str} {d s : Str}
    (hsorted : pattern.Pairwise (fun a b => b.length ≤ a.length))
    (hfind : pattern.find? (startswith s) = some d) :
    ∀ d' ∈ pattern, d' <+: s → d'.length ≤ d.length := by
  intro d' hd' hpre
  obtain ⟨-, before, after, rfl, hbefore⟩ := List.find?_eq_some_iff_append.mp hfind
  rcases List.mem_append.mp hd' with hd' | hd'
  · have hno := hbefore d' hd'
    rw [startswith_iff.mpr hpre] at hno
    exact absurd hno (by decide)
  · rcases List.mem_cons.mp hd' with rfl | hd'
    · exact le_rfl
    · exact (List.pairwise_cons.mp (List.pairwise_append.mp hsorted).2.1).1 d' hd'

theorem reSplit_cut {pattern : List Str} (hne : ∀ d ∈ pattern, d ≠ [])
    (hsorted : pattern.Pairwise (fun a b => b.length ≤ a.length)) (s : Str) :
    Cut pattern s (kept pattern (reSplit pattern s)) := by
  induction s using reSplit_induction hne with
  | rest s hstart =>
      rw [kept_cons_of_not_mem (hstart.not_mem hne)]
      exact Cut.rest hstart
  | next before d after hd hfind hstart ih =>
      rw [kept_cons_of_not_mem (hstart.not_mem hne), kept_cons_of_mem hd]
      exact Cut.next hd hstart (longest_of_find? hsorted hfind) ih

/-! ### The delimiters -/

theorem ne_nil_of_mem_customDelimitersFrom (s : Str) :
    ∀ k, ∀ d ∈ customDelimitersFrom k s, d ≠ [] := by
  induction s with
  | nil =>
      intro k d hd
      rw [customDelimitersFrom] at hd
      cases hd
  | cons c s ih =>
      intro k d hd
      cases k with
      | succ k => exact ih k d hd
      | zero =>
          rw [customDelimitersFrom] at hd
          split_ifs at hd with hmatch
          · rcases List.mem_cons.mp hd with rfl | hd
            · exact hmatch.2.1
            · exact ih _ d hd
          · exact ih 0 d hd

theorem mem_customPattern {ds : List Str} {d : Str} : d ∈ customPattern ds ↔ d ∈ ds := by
  rw [customPattern, (List.perm_insertionSort _ _).mem_iff, List.mem_dedup]

theorem customPattern_sorted (ds : List Str) :
    (customPattern ds).Pairwise (fun a b => b.length ≤ a.length) :=
  List.pairwise_insertionSort _ _

theorem ne_nil_of_mem_customPattern (delimiter : Str) :
    ∀ d ∈ customPattern (customDelimiters delimiter), d ≠ [] :=
  fun d hd => ne_nil_of_mem_customDelimitersFrom delimiter 0 d (mem_customPattern.mp hd)

end RagFlow.Nlp
