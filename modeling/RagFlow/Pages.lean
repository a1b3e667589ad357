import Mathlib.Data.List.Basic
import Mathlib.Data.Nat.Basic

/-! # Pages of a list

Page `i` of size `n` is the `i`-th run of `n` elements, counted from 0.  The first `k` pages
together are the first `k * n` elements (`flatMap_page`), and an element is on the page that its
place divided by the size gives (`mem_page`). -/

namespace RagFlow.Pages

variable {α : Type*}

/-- Page `i` of the list, in pages of `n` elements. -/
def page (l : List α) (n i : ℕ) : List α := (l.drop (i * n)).take n

/-- The first pages, one after another. -/
theorem flatMap_page (l : List α) (n k : ℕ) :
    (List.range k).flatMap (page l n) = l.take (k * n) := by
  induction k with
  | zero => simp
  | succ k ih =>
      rw [List.range_succ, List.flatMap_append, ih, Nat.succ_mul, List.take_add]
      simp [page]

theorem flatMap_page_eq {l : List α} {n k : ℕ} (h : l.length ≤ k * n) :
    (List.range k).flatMap (page l n) = l := by
  rw [flatMap_page, List.take_of_length_le h]

theorem length_page_le (l : List α) (n i : ℕ) : (page l n i).length ≤ n :=
  List.length_take_le _ _

theorem getElem?_page {l : List α} {n i j : ℕ} (hj : j < n) :
    (page l n i)[j]? = l[i * n + j]? := by
  rw [page, List.getElem?_take_of_lt hj, List.getElem?_drop]

/-- An element is on the page of its place. -/
theorem mem_page {l : List α} {n i : ℕ} {x : α} (hn : 0 < n) :
    x ∈ page l n i ↔ ∃ j, j / n = i ∧ l[j]? = some x := by
  rw [List.mem_iff_getElem?]
  constructor
  · rintro ⟨j, hj⟩
    have hlt : j < n := by
      obtain ⟨hlen, -⟩ := List.getElem?_eq_some_iff.mp hj
      exact Nat.lt_of_lt_of_le hlen (length_page_le l n i)
    rw [getElem?_page hlt] at hj
    refine ⟨i * n + j, ?_, hj⟩
    rw [Nat.add_comm, Nat.add_mul_div_right _ _ hn, Nat.div_eq_of_lt hlt, Nat.zero_add]
  · rintro ⟨j, rfl, hj⟩
    refine ⟨j % n, ?_⟩
    rw [getElem?_page (Nat.mod_lt j hn), Nat.div_add_mod']
    exact hj

end RagFlow.Pages
