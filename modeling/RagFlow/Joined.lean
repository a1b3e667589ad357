import Mathlib.Algebra.Order.BigOperators.Group.List
import Mathlib.Algebra.Order.Ring.Nat
import Mathlib.Data.List.Basic

/-! # Joining lists with a separator

`sep.intercalate l` puts `sep` between the lists of `l`, as `sep.join(l)` does with strings.  The
lemmas say how it is built up from the right, how it splits, and how long it is. -/

namespace RagFlow.Joined

variable {α : Type*} (sep : List α)

/-- One more list at the end. -/
theorem intercalate_concat {l : List (List α)} (h : l ≠ []) (x : List α) :
    sep.intercalate (l ++ [x]) = sep.intercalate l ++ sep ++ x := by
  induction l with
  | nil => exact absurd rfl h
  | cons y l ih =>
      cases l with
      | nil => simp
      | cons z l =>
          rw [List.cons_append, List.intercalate_cons_of_ne_nil (by simp),
            ih (List.cons_ne_nil z l), List.intercalate_cons_of_ne_nil (List.cons_ne_nil z l)]
          simp only [List.append_assoc]

/-- The sum of the lengths of the parts and one separator for each. -/
def width (l : List (List α)) : ℕ := (l.map (fun x => x.length + sep.length)).sum

theorem length_intercalate {l : List (List α)} (h : l ≠ []) :
    (sep.intercalate l).length + sep.length = width sep l := by
  induction l with
  | nil => exact absurd rfl h
  | cons y l ih =>
      cases l with
      | nil => simp [width]
      | cons z l =>
          have hrest := ih (List.cons_ne_nil z l)
          have hcons : width sep (y :: z :: l) = y.length + sep.length + width sep (z :: l) := by
            simp [width]
          rw [List.intercalate_cons_of_ne_nil (List.cons_ne_nil z l), hcons, ← hrest]
          simp only [List.length_append]
          omega

theorem width_append (l m : List (List α)) : width sep (l ++ m) = width sep l + width sep m := by
  simp [width]

/-- Joining groups does not change the sum. -/
theorem width_map_intercalate {groups : List (List (List α))} (h : ∀ g ∈ groups, g ≠ []) :
    width sep (groups.map sep.intercalate) = width sep groups.flatten := by
  induction groups with
  | nil => rfl
  | cons g groups ih =>
      have hg := length_intercalate sep (h g List.mem_cons_self)
      have hcons : width sep ((g :: groups).map sep.intercalate) =
          (sep.intercalate g).length + sep.length + width sep (groups.map sep.intercalate) := by
        simp [width]
      rw [hcons, hg, ih (fun g' hg' => h g' (List.mem_cons_of_mem _ hg')), List.flatten_cons,
        width_append]

/-- With fewer parts the sum is smaller. -/
theorem width_lt_of_sublist (hsep : sep ≠ []) {l m : List (List α)} (h : l.Sublist m)
    (hlt : l.length < m.length) : width sep l < width sep m := by
  have hpos := List.length_pos_iff.mpr hsep
  have hle : width sep l + m.length ≤ width sep m + l.length := by
    clear hlt
    induction h with
    | slnil => exact le_rfl
    | cons x _ ih =>
        simp only [width, List.map_cons, List.sum_cons, List.length_cons] at ih ⊢
        omega
    | cons_cons x _ ih =>
        simp only [width, List.map_cons, List.sum_cons, List.length_cons] at ih ⊢
        omega
  omega

end RagFlow.Joined
