import Mathlib.Data.List.Count
import Mathlib.Data.List.Sort

/-! # The first gap of a sorted list

Sorted values are compared with their neighbours: `firstGap` is the successor of the first one that
is not directly followed by its successor.  The successor function is arbitrary.

* **Spacing.** A value is `Spaced` in a list if it occurs once, its successor is greater and nothing
  lies between the two.
* **Stops.** `Stops` says where the search ends, in terms of the members and how often they occur.
* **Search.** There is exactly one such value, and the search returns its successor
  (`firstGap_spec`). -/

namespace RagFlow.FirstGap

variable {α : Type} [LinearOrder α] (s : α → α)

def firstGap : List α → Option α
  | [] => none
  | [a] => some (s a)
  | a :: b :: rest => if s a ≠ b then some (s a) else firstGap (b :: rest)

/-- `a` occurs once, and nothing lies between `a` and its successor. -/
def Spaced (xs : List α) (a : α) : Prop := a < s a ∧ xs.count a = 1 ∧ ∀ x ∈ xs, a < x → s a ≤ x

/-- The members below `a` are spaced, and their successors are members. -/
def Reached (xs : List α) (a : α) : Prop := a ∈ xs ∧ ∀ x ∈ xs, x < a → Spaced s xs x ∧ s x ∈ xs

/-- The value after which the first gap is. -/
def Stops (xs : List α) (a : α) : Prop := Reached s xs a ∧ (Spaced s xs a → s a ∉ xs)

instance (xs : List α) (a : α) : Decidable (Spaced s xs a) :=
  inferInstanceAs (Decidable (_ ∧ _ ∧ ∀ x ∈ xs, _))

instance (xs : List α) (a : α) : Decidable (Reached s xs a) :=
  inferInstanceAs (Decidable (_ ∧ ∀ x ∈ xs, _))

variable {s} {a b k : α} {xs ys rest : List α}

/-! ### Lists with the same members -/

theorem Spaced.perm (h : Spaced s xs a) (hp : xs.Perm ys) : Spaced s ys a := by
  obtain ⟨hlt, hcount, hbetween⟩ := h
  refine ⟨hlt, ?_, fun x hx => hbetween x (hp.mem_iff.mpr hx)⟩
  rw [← hp.count_eq, hcount]

theorem Reached.perm (h : Reached s xs a) (hp : xs.Perm ys) : Reached s ys a := by
  obtain ⟨ha, hbelow⟩ := h
  refine ⟨hp.mem_iff.mp ha, fun x hx hlt => ?_⟩
  obtain ⟨hspaced, hsucc⟩ := hbelow x (hp.mem_iff.mpr hx) hlt
  exact ⟨hspaced.perm hp, hp.mem_iff.mp hsucc⟩

theorem Stops.perm (h : Stops s xs a) (hp : xs.Perm ys) : Stops s ys a :=
  ⟨h.1.perm hp, fun hspaced hmem => h.2 (hspaced.perm hp.symm) (hp.mem_iff.mpr hmem)⟩

theorem spaced_of_nodup (honce : xs.Nodup) (ha : a ∈ xs) (hlt : a < s a)
    (hbetween : ∀ x ∈ xs, a < x → s a ≤ x) : Spaced s xs a :=
  ⟨hlt, List.count_eq_one_of_mem honce ha, hbetween⟩

/-! ### The head of a sorted list -/

theorem head_le (hsorted : (a :: rest).Pairwise (· ≤ ·)) : ∀ x ∈ a :: rest, a ≤ x := by
  rw [List.forall_mem_cons]
  exact ⟨le_rfl, (List.pairwise_cons.mp hsorted).1⟩

theorem reached_head (hsorted : (a :: rest).Pairwise (· ≤ ·)) : Reached s (a :: rest) a :=
  ⟨List.mem_cons_self, fun x hx hlt => absurd hlt (head_le hsorted x hx).not_gt⟩

/-- A spaced head whose successor is a member is directly followed by it. -/
theorem succ_of_spaced (hsorted : (a :: rest).Pairwise (· ≤ ·)) (h : Spaced s (a :: rest) a)
    (hmem : s a ∈ a :: rest) : ∃ rest', rest = s a :: rest' := by
  obtain ⟨hlt, hcount, hbetween⟩ := h
  have hsucc : s a ∈ rest := (List.mem_cons.mp hmem).resolve_left hlt.ne'
  cases rest with
  | nil => exact absurd hsucc List.not_mem_nil
  | cons b rest =>
      have hb : b ∈ a :: b :: rest := List.mem_cons_of_mem _ List.mem_cons_self
      have hne : a ≠ b := by
        rintro rfl
        rw [List.count_cons_self, List.count_cons_self] at hcount
        omega
      have hle : s a ≤ b := hbetween b hb (lt_of_le_of_ne (head_le hsorted b hb) hne)
      have hge : b ≤ s a := head_le (List.pairwise_cons.mp hsorted).2 _ hsucc
      exact ⟨rest, by rw [le_antisymm hle hge]⟩

/-- The search stops at a head that its successor does not follow. -/
theorem stops_head (hsorted : (a :: rest).Pairwise (· ≤ ·)) (hrest : ∀ rest', rest ≠ s a :: rest') :
    Stops s (a :: rest) k ↔ k = a := by
  have hfresh : Spaced s (a :: rest) a → s a ∉ a :: rest := by
    intro hspaced hmem
    obtain ⟨rest', h⟩ := succ_of_spaced hsorted hspaced hmem
    exact hrest rest' h
  constructor
  · rintro ⟨⟨hmem, hbelow⟩, -⟩
    by_contra hne
    obtain ⟨hspaced, hsucc⟩ := hbelow a List.mem_cons_self
      (lt_of_le_of_ne (head_le hsorted k hmem) (Ne.symm hne))
    exact hfresh hspaced hsucc
  · rintro rfl
    exact ⟨reached_head hsorted, hfresh⟩

/-! ### The tail of a sorted list -/

theorem spaced_cons (hab : a < b) : Spaced s (a :: xs) b ↔ Spaced s xs b := by
  unfold Spaced
  rw [List.count_cons_of_ne hab.ne, List.forall_mem_cons]
  constructor
  · rintro ⟨hlt, hcount, -, hbetween⟩
    exact ⟨hlt, hcount, hbetween⟩
  · rintro ⟨hlt, hcount, hbetween⟩
    exact ⟨hlt, hcount, fun hba => absurd hba hab.not_gt, hbetween⟩

theorem succ_mem_cons (hab : a < b) (hspaced : Spaced s xs b) : s b ∈ a :: xs ↔ s b ∈ xs := by
  rw [List.mem_cons, or_iff_right (hab.trans hspaced.1).ne']

/-- A head that is followed by its successor is spaced if it is smaller. -/
theorem spaced_head (hsorted : (a :: s a :: rest).Pairwise (· ≤ ·)) (hlt : a < s a) :
    Spaced s (a :: s a :: rest) a := by
  have hrest : ∀ x ∈ s a :: rest, s a ≤ x := head_le (List.pairwise_cons.mp hsorted).2
  refine ⟨hlt, ?_, fun x hx hax => ?_⟩
  · rw [List.count_cons_self, List.count_eq_zero_of_not_mem]
    exact fun ha => (hrest a ha).not_gt hlt
  · rcases List.mem_cons.mp hx with rfl | hx
    · exact absurd hax (lt_irrefl _)
    · exact hrest x hx

/-- A value that is its own successor is where the search stops. -/
theorem stops_fixed (hsorted : (a :: rest).Pairwise (· ≤ ·)) (ha : s a = a) :
    Stops s (a :: rest) k ↔ k = a := by
  have hnot : ¬ Spaced s (a :: rest) a := fun h => h.1.ne' ha
  constructor
  · rintro ⟨⟨hmem, hbelow⟩, -⟩
    by_contra hne
    exact hnot (hbelow a List.mem_cons_self
      (lt_of_le_of_ne (head_le hsorted k hmem) (Ne.symm hne))).1
  · rintro rfl
    exact ⟨reached_head hsorted, fun h => absurd h hnot⟩

/-- A head that is followed by its successor can be left out. -/
theorem stops_tail (hsorted : (a :: s a :: rest).Pairwise (· ≤ ·)) :
    Stops s (a :: s a :: rest) k ↔ Stops s (s a :: rest) k := by
  have htail := (List.pairwise_cons.mp hsorted).2
  rcases (head_le hsorted (s a) (List.mem_cons_of_mem _ List.mem_cons_self)).eq_or_lt with
    heq | hlt
  · rw [stops_fixed hsorted heq.symm, stops_fixed htail (by rw [← heq, ← heq]), ← heq]
  · have habove : ∀ x ∈ s a :: rest, a < x := fun x hx => hlt.trans_le (head_le htail x hx)
    have hhead := spaced_head hsorted hlt
    have hmem : s a ∈ a :: s a :: rest := List.mem_cons_of_mem _ List.mem_cons_self
    constructor
    · rintro ⟨⟨hk, hbelow⟩, hfresh⟩
      have hne : k ≠ a := by
        rintro rfl
        exact hfresh hhead hmem
      have hk' : k ∈ s a :: rest := (List.mem_cons.mp hk).resolve_left hne
      refine ⟨⟨hk', fun x hx hxk => ?_⟩, fun hspaced hsucc => ?_⟩
      · obtain ⟨hspaced, hsucc⟩ := hbelow x (List.mem_cons_of_mem _ hx) hxk
        have hspaced' := (spaced_cons (habove x hx)).mp hspaced
        exact ⟨hspaced', (succ_mem_cons (habove x hx) hspaced').mp hsucc⟩
      · exact hfresh ((spaced_cons (habove k hk')).mpr hspaced) (List.mem_cons_of_mem _ hsucc)
    · rintro ⟨⟨hk, hbelow⟩, hfresh⟩
      refine ⟨⟨List.mem_cons_of_mem _ hk, fun x hx hxk => ?_⟩, fun hspaced hsucc => ?_⟩
      · rcases List.mem_cons.mp hx with rfl | hx
        · exact ⟨hhead, hmem⟩
        · obtain ⟨hspaced, hsucc⟩ := hbelow x hx hxk
          exact ⟨(spaced_cons (habove x hx)).mpr hspaced, List.mem_cons_of_mem _ hsucc⟩
      · have hspaced' := (spaced_cons (habove k hk)).mp hspaced
        exact hfresh hspaced' ((succ_mem_cons (habove k hk) hspaced').mp hsucc)

/-! ### The search -/

/-- The search stops at one value and returns its successor. -/
theorem firstGap_spec : ∀ {xs : List α}, xs.Pairwise (· ≤ ·) → xs ≠ [] →
    ∃ a, firstGap s xs = some (s a) ∧ ∀ k, Stops s xs k ↔ k = a
  | [], _, hne => absurd rfl hne
  | [a], hsorted, _ => ⟨a, rfl, fun k => stops_head hsorted (fun _ h => nomatch h)⟩
  | a :: b :: rest, hsorted, _ => by
      unfold firstGap
      by_cases hb : s a = b
      · subst hb
        rw [if_neg (not_not.mpr rfl)]
        obtain ⟨k, hgap, hstops⟩ := firstGap_spec (List.pairwise_cons.mp hsorted).2
          (List.cons_ne_nil _ _)
        exact ⟨k, hgap, fun k' => (stops_tail hsorted).trans (hstops k')⟩
      · rw [if_pos hb]
        exact ⟨a, rfl, fun k => stops_head hsorted
          (fun rest' h => hb (List.cons.inj h).1.symm)⟩

end RagFlow.FirstGap
