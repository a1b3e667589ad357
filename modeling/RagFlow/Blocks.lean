import Mathlib.Algebra.Order.Ring.Int
import Mathlib.Tactic.Common

/-! # Sequences cut in blocks

A sequence is cut in blocks of given sizes.

* `starts p sizes` has the places where the blocks begin, the first one at `p`.
* `spread sizes values` has the value of a block at every place of the block: a table that maps the
  places of one sequence into another.

`getElem?_spread`: a place has the value of its block.  `map_bind_getElem?`: two tables are composed
block by block, since a table has its values where its blocks begin (`map_getElem?_starts`). -/

namespace RagFlow.Blocks

variable {α β : Type}

/-- The places where the blocks begin. -/
def starts : ℕ → List ℕ → List ℕ
  | _, [] => []
  | p, n :: sizes => p :: starts (p + n) sizes

/-- The value of its block at each place. -/
def spread : List ℕ → List α → List α
  | n :: sizes, v :: values => List.replicate n v ++ spread sizes values
  | _, _ => []

@[simp] theorem length_starts (p : ℕ) (sizes : List ℕ) :
    (starts p sizes).length = sizes.length := by
  induction sizes generalizing p with
  | nil => rfl
  | cons n sizes ih => rw [starts, List.length_cons, ih, List.length_cons]

theorem getElem?_starts (p : ℕ) {sizes : List ℕ} {k : ℕ} (hk : k < sizes.length) :
    (starts p sizes)[k]? = some (p + (sizes.take k).sum) := by
  induction sizes generalizing p k with
  | nil => exact absurd hk (Nat.not_lt_zero k)
  | cons n sizes ih =>
      cases k with
      | zero => rfl
      | succ k =>
          rw [starts, List.getElem?_cons_succ, ih (p + n) (Nat.lt_of_succ_lt_succ hk),
            List.take_succ_cons, List.sum_cons, Nat.add_assoc]

/-- The blocks begin between the first place and the end. -/
theorem bounds_of_mem_starts {p : ℕ} {sizes : List ℕ} {q : ℕ} (h : q ∈ starts p sizes) :
    p ≤ q ∧ q ≤ p + sizes.sum := by
  induction sizes generalizing p with
  | nil => exact absurd h List.not_mem_nil
  | cons n sizes ih =>
      rw [List.sum_cons]
      rw [starts, List.mem_cons] at h
      cases h with
      | inl h => omega
      | inr h =>
          have := ih h
          omega

theorem pairwise_starts (p : ℕ) (sizes : List ℕ) : (starts p sizes).Pairwise (· ≤ ·) := by
  induction sizes generalizing p with
  | nil => exact List.Pairwise.nil
  | cons n sizes ih =>
      refine List.Pairwise.cons (fun q hq => ?_) (ih (p + n))
      have := (bounds_of_mem_starts hq).1
      omega

theorem mem_of_mem_spread {sizes : List ℕ} {values : List α} {v : α}
    (h : v ∈ spread sizes values) : v ∈ values := by
  induction sizes generalizing values with
  | nil => exact absurd h List.not_mem_nil
  | cons n sizes ih =>
      cases values with
      | nil => exact absurd h List.not_mem_nil
      | cons w values =>
          rw [spread, List.mem_append] at h
          cases h with
          | inl h => exact List.mem_cons.mpr (Or.inl (List.eq_of_mem_replicate h))
          | inr h => exact List.mem_cons_of_mem w (ih h)

theorem length_spread {sizes : List ℕ} {values : List α} (h : sizes.length = values.length) :
    (spread sizes values).length = sizes.sum := by
  induction sizes generalizing values with
  | nil => rfl
  | cons n sizes ih =>
      cases values with
      | nil => cases h
      | cons v values =>
          rw [spread, List.length_append, List.length_replicate, ih (Nat.succ.inj h),
            List.sum_cons]

theorem map_spread (f : α → β) (sizes : List ℕ) (values : List α) :
    (spread sizes values).map f = spread sizes (values.map f) := by
  induction sizes generalizing values with
  | nil => rfl
  | cons n sizes ih =>
      cases values with
      | nil => rfl
      | cons v values =>
          rw [spread, List.map_append, List.map_replicate, ih, List.map_cons, spread]

/-- Values in order are in order when they are spread. -/
theorem pairwise_spread {r : α → α → Prop} (hr : ∀ a, r a a) (sizes : List ℕ) {values : List α}
    (h : values.Pairwise r) : (spread sizes values).Pairwise r := by
  induction sizes generalizing values with
  | nil => exact List.Pairwise.nil
  | cons n sizes ih =>
      cases h with
      | nil => exact List.Pairwise.nil
      | @cons v values hv h =>
          rw [spread, List.pairwise_append]
          refine ⟨List.pairwise_replicate.mpr (Or.inr (hr v)), ih h, ?_⟩
          intro a ha b hb
          rw [List.eq_of_mem_replicate ha]
          exact hv b (mem_of_mem_spread hb)

/-- The places of the `k`-th block have the `k`-th value. -/
theorem getElem?_spread {sizes : List ℕ} {values : List α} (h : sizes.length = values.length)
    {k i : ℕ} (hk : k < sizes.length) (hle : (sizes.take k).sum ≤ i)
    (hlt : i < (sizes.take (k + 1)).sum) : (spread sizes values)[i]? = values[k]? := by
  induction sizes generalizing values k i with
  | nil => exact absurd hk (Nat.not_lt_zero k)
  | cons n sizes ih =>
      cases values with
      | nil => cases h
      | cons v values =>
          rw [List.take_succ_cons, List.sum_cons] at hlt
          rw [spread]
          cases k with
          | zero =>
              have hi : i < n := by simpa using hlt
              rw [List.getElem?_append_left (by rw [List.length_replicate]; exact hi),
                List.getElem?_replicate, if_pos hi]
              rfl
          | succ k =>
              rw [List.take_succ_cons, List.sum_cons] at hle
              rw [List.getElem?_append_right (by rw [List.length_replicate]; omega),
                List.length_replicate, List.getElem?_cons_succ]
              exact ih (Nat.succ.inj h) (Nat.lt_of_succ_lt_succ hk) (by omega) (by omega)

theorem sum_take_le (sizes : List ℕ) (k : ℕ) : (sizes.take k).sum ≤ sizes.sum := by
  conv_rhs => rw [← List.take_append_drop k sizes, List.sum_append]
  exact Nat.le_add_right _ _

/-- Where its blocks begin, a table has its values. -/
theorem map_getElem?_starts {sizes : List ℕ} {values : List α}
    (h : sizes.length = values.length) (hpos : ∀ n ∈ sizes, 0 < n) (rest : List α) :
    (starts 0 sizes).map (fun p => (spread sizes values ++ rest)[p]?) = values.map some := by
  refine List.ext_getElem? (fun k => ?_)
  rw [List.getElem?_map, List.getElem?_map]
  by_cases hk : k < sizes.length
  · have hlt : (sizes.take k).sum < (sizes.take (k + 1)).sum := by
      rw [List.take_succ_eq_append_getElem hk, List.sum_append, List.sum_singleton]
      have := hpos _ (List.getElem_mem hk)
      omega
    have hle := sum_take_le sizes (k + 1)
    rw [getElem?_starts 0 hk, Nat.zero_add, Option.map_some,
      List.getElem?_append_left (by rw [length_spread h]; omega),
      getElem?_spread h hk (Nat.le_refl _) hlt, List.getElem?_eq_getElem (by omega),
      Option.map_some]
  · rw [List.getElem?_eq_none (by rw [length_starts]; omega),
      List.getElem?_eq_none (by omega), Option.map_none, Option.map_none]

/-- The first entry of a block that stands in a table. -/
theorem getElem?_block {α : Type} (before block rest : List α) (hne : block ≠ []) :
    (before ++ (block ++ rest))[before.length]? = block.head? := by
  obtain ⟨a, block, rfl⟩ := List.exists_cons_of_ne_nil hne
  rw [List.getElem?_append_right (Nat.le_refl _), Nat.sub_self]
  rfl

/-- What a table with more entries has at the places of the first. -/
theorem map_range_getElem? {α : Type} (l rest : List α) :
    (List.range l.length).map (fun i => (l ++ rest)[i]?) = l.map some := by
  refine List.ext_getElem? (fun i => ?_)
  rw [List.getElem?_map, List.getElem?_map]
  by_cases hi : i < l.length
  · rw [List.getElem?_range hi, Option.map_some, List.getElem?_append_left hi,
      List.getElem?_eq_getElem hi, Option.map_some]
  · rw [List.getElem?_eq_none (by rw [List.length_range]; omega),
      List.getElem?_eq_none (by omega), Option.map_none, Option.map_none]

/-- A table is read through another, whose entries are the places where its blocks begin. -/
theorem map_bind_getElem? {sizes sizes' : List ℕ} {values : List α}
    (h : sizes.length = sizes'.length) (h' : sizes'.length = values.length)
    (hpos : ∀ n ∈ sizes', 0 < n) (rest : List ℕ) (rest' : List α) :
    (List.range sizes.sum).map (fun i =>
        (spread sizes (starts 0 sizes') ++ rest)[i]?.bind fun p =>
          (spread sizes' values ++ rest')[p]?) =
      (spread sizes values).map some := by
  have houter := map_range_getElem? (spread sizes (starts 0 sizes')) rest
  rw [length_spread (by rw [length_starts, h])] at houter
  have hread := congrArg
    (List.map fun o => Option.bind o fun p => (spread sizes' values ++ rest')[p]?) houter
  rw [List.map_map, List.map_map] at hread
  have hinner : (spread sizes (starts 0 sizes')).map
      (fun p => (spread sizes' values ++ rest')[p]?) = (spread sizes values).map some := by
    rw [map_spread, map_getElem?_starts h' hpos, map_spread]
  exact hread.trans hinner

end RagFlow.Blocks
