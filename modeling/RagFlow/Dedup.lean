import Mathlib.Data.List.Sublists

/-! # First occurrences

`firsts r` keeps the elements of a list to which no element before them is related.

`firsts_eq_iff`: a coarser equivalence `r` keeps the same elements as `q` exactly when it relates no
two elements of the list that `q` does not relate. -/

namespace RagFlow.Dedup

variable {α : Type}

open Classical in
/-- The elements of a list to which none before them is related; `before` stands before the
list. -/
noncomputable def firsts (r : α → α → Prop) (before : List α) : List α → List α
  | [] => []
  | x :: xs =>
      if ∃ y ∈ before, r y x then firsts r (before ++ [x]) xs
      else x :: firsts r (before ++ [x]) xs

theorem firsts_cons_of_rel {r : α → α → Prop} {before : List α} {x : α}
    (h : ∃ y ∈ before, r y x) (xs : List α) :
    firsts r before (x :: xs) = firsts r (before ++ [x]) xs := by
  rw [firsts, if_pos h]

theorem firsts_cons_of_not_rel {r : α → α → Prop} {before : List α} {x : α}
    (h : ¬∃ y ∈ before, r y x) (xs : List α) :
    firsts r before (x :: xs) = x :: firsts r (before ++ [x]) xs := by
  rw [firsts, if_neg h]

/-- A coarser relation keeps less. -/
theorem length_firsts_le {r q : α → α → Prop} (hqr : ∀ x y, q x y → r x y)
    (before xs : List α) : (firsts r before xs).length ≤ (firsts q before xs).length := by
  induction xs generalizing before with
  | nil => exact le_rfl
  | cons x xs ih =>
      have hle := ih (before ++ [x])
      by_cases hq : ∃ y ∈ before, q y x
      · obtain ⟨y, hy, hyx⟩ := hq
        rw [firsts_cons_of_rel ⟨y, hy, hyx⟩, firsts_cons_of_rel ⟨y, hy, hqr y x hyx⟩]
        exact hle
      · rw [firsts_cons_of_not_rel hq, List.length_cons]
        by_cases hr : ∃ y ∈ before, r y x
        · rw [firsts_cons_of_rel hr]
          omega
        · rw [firsts_cons_of_not_rel hr, List.length_cons]
          omega

/-- On the list the coarser relation says the same as the finer one. -/
def Agree (r q : α → α → Prop) (xs : List α) : Prop := ∀ x ∈ xs, ∀ y ∈ xs, r x y → q x y

theorem Agree.concat {r q : α → α → Prop} (hr : Equivalence r) (hq : Equivalence q)
    {before : List α} (h : Agree r q before) {x : α} (hx : ∀ y ∈ before, r y x → q y x) :
    Agree r q (before ++ [x]) := by
  intro y hy z hz hyz
  rcases List.mem_append.mp hy with hy | hy <;> rcases List.mem_append.mp hz with hz | hz
  · exact h y hy z hz hyz
  · cases List.mem_singleton.mp hz
    exact hx y hy hyz
  · cases List.mem_singleton.mp hy
    exact hq.symm (hx z hz (hr.symm hyz))
  · cases List.mem_singleton.mp hy
    cases List.mem_singleton.mp hz
    exact hq.refl x

theorem firsts_eq_iff_agree {r q : α → α → Prop} (hr : Equivalence r) (hq : Equivalence q)
    (hqr : ∀ x y, q x y → r x y) (before xs : List α) (hbefore : Agree r q before) :
    firsts r before xs = firsts q before xs ↔ Agree r q (before ++ xs) := by
  induction xs generalizing before with
  | nil =>
      rw [List.append_nil]
      exact ⟨fun _ => hbefore, fun _ => rfl⟩
  | cons x xs ih =>
      have happend : before ++ x :: xs = before ++ [x] ++ xs := by simp
      rw [happend]
      by_cases hrel : ∃ y ∈ before, r y x
      · by_cases hrelq : ∃ y ∈ before, q y x
        · rw [firsts_cons_of_rel hrel, firsts_cons_of_rel hrelq]
          refine ih _ (hbefore.concat hr hq (fun z hz hzx => ?_))
          obtain ⟨y, hy, hyx⟩ := hrelq
          exact hq.trans (hbefore z hz y hy (hr.trans hzx (hr.symm (hqr y x hyx)))) hyx
        · rw [firsts_cons_of_rel hrel, firsts_cons_of_not_rel hrelq]
          constructor
          · intro heq
            have hle := length_firsts_le hqr (before ++ [x]) xs
            rw [heq, List.length_cons] at hle
            omega
          · intro hagree
            obtain ⟨y, hy, hyx⟩ := hrel
            refine absurd ⟨y, hy, hagree y ?_ x ?_ hyx⟩ hrelq
            · exact List.mem_append_left _ (List.mem_append_left _ hy)
            · exact List.mem_append_left _ (List.mem_append_right _ List.mem_cons_self)
      · have hrelq : ¬∃ y ∈ before, q y x := fun ⟨y, hy, hyx⟩ => hrel ⟨y, hy, hqr y x hyx⟩
        rw [firsts_cons_of_not_rel hrel, firsts_cons_of_not_rel hrelq, List.cons_inj_right]
        exact ih _ (hbefore.concat hr hq (fun y hy hyx => absurd ⟨y, hy, hyx⟩ hrel))

theorem firsts_eq_iff {r q : α → α → Prop} (hr : Equivalence r) (hq : Equivalence q)
    (hqr : ∀ x y, q x y → r x y) (xs : List α) :
    firsts r [] xs = firsts q [] xs ↔ Agree r q xs :=
  firsts_eq_iff_agree hr hq hqr [] xs (fun x hx => absurd hx List.not_mem_nil)

end RagFlow.Dedup
