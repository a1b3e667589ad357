import Mathlib.Data.Int.Order.Basic
import Mathlib.Data.List.Pairwise
import Mathlib.Data.Set.Lattice
import Mathlib.Order.CompletePartialOrder

/-! # Cutting an interval into pieces

Half-open intervals of integers are pairs of their ends.  `Cuts size lo hi l` says that `l` lists
pieces of `[lo, hi)` in increasing order, none empty or longer than `size`, that are disjoint and
cover it.  Each point of the interval is then in exactly one piece (`Cuts.existsUnique`). -/

namespace RagFlow.Interval

/-- The points of a half-open interval. -/
def points (r : ℤ × ℤ) : Set ℤ := {x | r.1 ≤ x ∧ x < r.2}

instance (r : ℤ × ℤ) (x : ℤ) : Decidable (x ∈ points r) :=
  inferInstanceAs (Decidable (r.1 ≤ x ∧ x < r.2))

theorem mem_points {r : ℤ × ℤ} {x : ℤ} : x ∈ points r ↔ r.1 ≤ x ∧ x < r.2 := Iff.rfl

/-- The pieces of `l` cut `[lo, hi)`: not empty, of at most `size` points, one after another, and
with its points. -/
structure Cuts (size : ℕ) (lo hi : ℤ) (l : List (ℤ × ℤ)) : Prop where
  nonempty : ∀ r ∈ l, r.1 < r.2
  small : ∀ r ∈ l, r.2 - r.1 ≤ size
  ordered : l.Pairwise (fun r r' => r.2 ≤ r'.1)
  covers : ∀ x, (∃ r ∈ l, x ∈ points r) ↔ x ∈ points (lo, hi)

namespace Cuts

variable {size : ℕ} {lo hi : ℤ} {l : List (ℤ × ℤ)}

/-- Two pieces have no point in common. -/
theorem disjoint (h : Cuts size lo hi l) :
    l.Pairwise (fun r r' => Disjoint (points r) (points r')) := by
  refine h.ordered.imp (fun {r r'} hle => ?_)
  rw [Set.disjoint_left]
  intro x hx hx'
  rw [mem_points] at hx hx'
  omega

/-- A point in two pieces is in one. -/
theorem eq_of_mem (h : Cuts size lo hi l) {r r' : ℤ × ℤ} (hr : r ∈ l) (hr' : r' ∈ l) {x : ℤ}
    (hx : x ∈ points r) (hx' : x ∈ points r') : r = r' := by
  by_contra hne
  have : Std.Symm fun r r' : ℤ × ℤ => Disjoint (points r) (points r') := ⟨fun _ _ h => h.symm⟩
  exact Set.disjoint_left.mp (h.disjoint.forall hr hr' hne) hx hx'

/-- Each point of the interval is in exactly one piece. -/
theorem existsUnique (h : Cuts size lo hi l) {x : ℤ} (hx : x ∈ points (lo, hi)) :
    ∃! r, r ∈ l ∧ x ∈ points r := by
  obtain ⟨r, hr, hxr⟩ := (h.covers x).mpr hx
  exact ⟨r, ⟨hr, hxr⟩, fun r' ⟨hr', hxr'⟩ => h.eq_of_mem hr' hr hxr' hxr⟩

end Cuts

end RagFlow.Interval
