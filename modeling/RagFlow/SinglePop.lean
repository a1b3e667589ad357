import Mathlib.Data.List.Induction
import Mathlib.Order.Lattice
import Mathlib.Tactic.SplitIfs

/-! # A stack with single pops

A stack that is to be ascending from its top loses its top, and only that, when the new element is
greater.

* **Spec.** An element of the input is cut off by a greater one after it; those that are not
  (`Uncut`) should make up the stack.
* **Result.** `run_sorted_iff`: the stack is ascending exactly when no element cuts off two at once
  (`DoubleCut`), and then it has only elements that are not cut off (`mem_run`). -/

namespace RagFlow.SinglePop

variable {α : Type} [LinearOrder α]

/-- `t` on top of the stack, in place of a top that is less. -/
def push : List α → α → List α
  | [], t => [t]
  | l :: rest, t => if l < t then t :: rest else t :: l :: rest

def run (stack ts : List α) : List α := ts.foldl push stack

/-- `x` is in `ts` and no greater element follows. -/
def Uncut (ts : List α) (x : α) : Prop := ∃ as bs, ts = as ++ x :: bs ∧ ∀ b ∈ bs, b < x

/-- An element cuts off another one, and one in between that the other one did not let through. -/
def DoubleCut (ts : List α) : Prop :=
  ∃ as p bs t cs, ts = as ++ p :: (bs ++ t :: cs) ∧ bs ≠ [] ∧ (∀ b ∈ bs, b < p) ∧ p < t

theorem run_append (stack ts us : List α) : run stack (ts ++ us) = run (run stack ts) us :=
  List.foldl_append

/-! ### The bottom -/

/-- The bottom of the stack stays, if it is greater than the input. -/
theorem run_bottom {j : α} {ts : List α} (hj : ∀ t ∈ ts, t < j) (tops : List α) :
    ∃ tops', run (tops ++ [j]) ts = tops' ++ [j] := by
  induction ts generalizing tops with
  | nil => exact ⟨tops, rfl⟩
  | cons t ts ih =>
      obtain ⟨ht, hts⟩ := List.forall_mem_cons.mp hj
      have hpush : ∃ tops', push (tops ++ [j]) t = tops' ++ [j] := by
        cases tops with
        | nil => exact ⟨[t], if_neg ht.not_gt⟩
        | cons l rest =>
            by_cases hl : l < t
            · exact ⟨t :: rest, if_pos hl⟩
            · exact ⟨t :: l :: rest, if_neg hl⟩
      obtain ⟨tops', htops'⟩ := hpush
      change ∃ tops', run (push (tops ++ [j]) t) ts = tops' ++ [j]
      rw [htops']
      exact ih hts tops'

theorem head?_push (stack : List α) (t : α) : (push stack t).head? = some t := by
  cases stack with
  | nil => rfl
  | cons l rest =>
      rw [push]
      split_ifs <;> rfl

theorem mem_push {stack : List α} {t x : α} (hx : x ∈ push stack t) : x = t ∨ x ∈ stack := by
  cases stack with
  | nil => exact Or.inl (List.mem_singleton.mp hx)
  | cons l rest =>
      rw [push] at hx
      split_ifs at hx
      · exact (List.mem_cons.mp hx).imp_right (List.mem_cons_of_mem _)
      · exact List.mem_cons.mp hx

theorem mem_of_mem_run {stack ts : List α} {x : α} (hx : x ∈ run stack ts) :
    x ∈ stack ∨ x ∈ ts := by
  induction ts generalizing stack with
  | nil => exact Or.inl hx
  | cons t ts ih =>
      rcases ih hx with hx | hx
      · rcases mem_push hx with rfl | hx
        · exact Or.inr List.mem_cons_self
        · exact Or.inl hx
      · exact Or.inr (List.mem_cons_of_mem _ hx)

/-! ### Order -/

/-- A stack that is not ascending stays so. -/
theorem sorted_of_push {stack : List α} {t : α} (h : (push stack t).Pairwise (· < ·)) :
    stack.Pairwise (· < ·) := by
  cases stack with
  | nil => exact List.Pairwise.nil
  | cons l rest =>
      rw [push] at h
      split_ifs at h with hl
      · obtain ⟨ht, hrest⟩ := List.pairwise_cons.mp h
        exact List.pairwise_cons.mpr ⟨fun x hx => hl.trans (ht x hx), hrest⟩
      · exact (List.pairwise_cons.mp h).2

theorem sorted_of_run {stack ts : List α} (h : (run stack ts).Pairwise (· < ·)) :
    stack.Pairwise (· < ·) := by
  induction ts generalizing stack with
  | nil => exact h
  | cons t ts ih => exact sorted_of_push (ih h)

/-- What is under the top stays there. -/
theorem mem_tail_push {stack : List α} {t p : α} (hp : p ∈ stack.tail) :
    p ∈ (push stack t).tail := by
  cases stack with
  | nil => exact absurd hp List.not_mem_nil
  | cons l rest =>
      rw [push]
      split_ifs
      · exact hp
      · exact List.mem_cons_of_mem _ hp

theorem mem_tail_run {stack ts : List α} {p : α} (hp : p ∈ stack.tail) :
    p ∈ (run stack ts).tail := by
  induction ts generalizing stack with
  | nil => exact hp
  | cons t ts ih => exact ih (mem_tail_push hp)

/-- The stack is not ascending once a greater element has come over one that is under the top. -/
theorem not_sorted_push {stack : List α} {t p : α} (hp : p ∈ stack.tail) (ht : p < t) :
    ¬(push stack t).Pairwise (· < ·) := by
  cases stack with
  | nil => exact absurd hp List.not_mem_nil
  | cons l rest =>
      intro h
      rw [push] at h
      split_ifs at h
      · exact ht.not_gt ((List.pairwise_cons.mp h).1 p hp)
      · exact ht.not_gt ((List.pairwise_cons.mp h).1 p (List.mem_cons_of_mem _ hp))

theorem not_sorted_of_doubleCut {stack ts : List α} (h : DoubleCut ts) :
    ¬(run stack ts).Pairwise (· < ·) := by
  obtain ⟨as, p, bs, t, cs, rfl, hbs, hlt, hpt⟩ := h
  obtain ⟨b, bs, rfl⟩ := List.exists_cons_of_ne_nil hbs
  intro hsorted
  have hhead := head?_push (run stack as) p
  have hp : p ∈ (push (push (run stack as) p) b).tail := by
    cases hpush : push (run stack as) p with
    | nil =>
        rw [hpush] at hhead
        cases hhead
    | cons l rest =>
        rw [hpush] at hhead
        obtain rfl : l = p := Option.some.inj hhead
        rw [push, if_neg (hlt b List.mem_cons_self).not_gt]
        exact List.mem_cons_self
  have hrun : run stack (as ++ p :: (b :: bs ++ t :: cs)) =
      run (push (run (push (push (run stack as) p) b) bs) t) cs := by
    unfold run
    simp only [List.foldl_append, List.foldl_cons, List.cons_append]
  rw [hrun] at hsorted
  exact not_sorted_push (mem_tail_run hp) hpt (sorted_of_run hsorted)

/-! ### What is cut off -/

theorem Uncut.snoc {ts : List α} {x t : α} (h : Uncut ts x) (ht : t < x) :
    Uncut (ts ++ [t]) x := by
  obtain ⟨as, bs, rfl, hbs⟩ := h
  refine ⟨as, bs ++ [t], by simp, fun b hb => ?_⟩
  rcases List.mem_append.mp hb with hb | hb
  · exact hbs b hb
  · rwa [List.mem_singleton.mp hb]

theorem DoubleCut.snoc {ts : List α} (h : DoubleCut ts) (t : α) : DoubleCut (ts ++ [t]) := by
  obtain ⟨as, p, bs, u, cs, rfl, hbs, hlt, hpu⟩ := h
  exact ⟨as, p, bs, u, cs ++ [t], by simp, hbs, hlt, hpu⟩

/-- The stack after the input `ts`, over the bottom `j`. -/
structure Good (j : α) (ts stack : List α) : Prop where
  sorted : stack.Pairwise (· < ·)
  uncut : ∀ x ∈ stack, x = j ∨ Uncut ts x
  top : ∀ l rest, stack = l :: rest → l = j ∧ rest = [] ∨ ∃ as, ts = as ++ [l]

/-- A new element that does not cut off two. -/
theorem Good.push {j t : α} {ts stack : List α} (h : Good j ts stack) (ht : t < j) (hts : t ∉ ts)
    (hcut : ¬DoubleCut (ts ++ [t])) : Good j (ts ++ [t]) (push stack t) := by
  have htop : ∀ l rest, SinglePop.push stack t = l :: rest →
      l = j ∧ rest = [] ∨ ∃ as, ts ++ [t] = as ++ [l] := by
    intro l rest hstack
    have hhead := head?_push stack t
    rw [hstack] at hhead
    exact Or.inr ⟨ts, by rw [Option.some.inj hhead]⟩
  have hself : Uncut (ts ++ [t]) t := ⟨ts, [], rfl, fun b hb => absurd hb List.not_mem_nil⟩
  cases stack with
  | nil =>
      refine ⟨List.pairwise_singleton _ _, fun x hx => ?_, htop⟩
      rw [List.mem_singleton.mp hx]
      exact Or.inr hself
  | cons l rest =>
      obtain ⟨hl, hrest⟩ := List.pairwise_cons.mp h.sorted
      -- what is under the top is greater than `t`, or `t` would cut off two
      have hunder : ∀ x ∈ rest, t < x := by
        intro x hx
        rcases h.uncut x (List.mem_cons_of_mem _ hx) with rfl | ⟨as, bs, rfl, hbs⟩
        · exact ht
        · refine lt_of_not_ge fun hle => ?_
          have hne : x ≠ t := fun heq => hts (by simp [heq])
          refine hcut ⟨as, x, bs, t, [], by simp, ?_, hbs, lt_of_le_of_ne hle hne⟩
          rintro rfl
          rcases h.top l rest rfl with ⟨-, rfl⟩ | ⟨as', heq⟩
          · exact absurd hx List.not_mem_nil
          · have hlx : x = l := by
              have hlast := congrArg List.getLast? heq
              simpa using hlast
            exact absurd (hl x hx) (by rw [hlx]; exact lt_irrefl l)
      have hkeep : ∀ x ∈ rest, x = j ∨ Uncut (ts ++ [t]) x := fun x hx =>
        (h.uncut x (List.mem_cons_of_mem _ hx)).imp_right fun hu => hu.snoc (hunder x hx)
      rw [SinglePop.push] at htop ⊢
      split_ifs at htop ⊢ with hlt
      · refine ⟨List.pairwise_cons.mpr ⟨hunder, hrest⟩, fun x hx => ?_, htop⟩
        rcases List.mem_cons.mp hx with rfl | hx
        · exact Or.inr hself
        · exact hkeep x hx
      · have htl : t < l := by
          refine lt_of_le_of_ne (le_of_not_gt hlt) fun heq => ?_
          rcases h.uncut l List.mem_cons_self with rfl | ⟨as, bs, rfl, -⟩
          · exact ht.ne heq
          · exact hts (by simp [heq])
        refine ⟨List.pairwise_cons.mpr ⟨fun x hx => ?_, h.sorted⟩, fun x hx => ?_, htop⟩
        · rcases List.mem_cons.mp hx with rfl | hx
          · exact htl
          · exact hunder x hx
        · rcases List.mem_cons.mp hx with rfl | hx
          · exact Or.inr hself
          · exact (h.uncut x hx).imp_right fun hu => hu.snoc (by
              rcases List.mem_cons.mp hx with rfl | hx
              · exact htl
              · exact hunder x hx)

theorem run_good {j : α} {ts : List α} (hj : ∀ t ∈ ts, t < j) (hts : ts.Nodup)
    (hcut : ¬DoubleCut ts) : Good j ts (run [j] ts) := by
  induction ts using List.reverseRecOn with
  | nil =>
      refine ⟨List.pairwise_singleton _ _, fun x hx => Or.inl (List.mem_singleton.mp hx), ?_⟩
      intro l rest heq
      obtain ⟨rfl, rfl⟩ := List.cons.inj heq
      exact Or.inl ⟨rfl, rfl⟩
  | append_singleton ts t ih =>
      obtain ⟨hts', -, hdisj⟩ := List.nodup_append.mp hts
      have hgood := ih (fun x hx => hj x (List.mem_append_left _ hx)) hts'
        fun hd => hcut (hd.snoc t)
      rw [run_append]
      refine hgood.push (hj t (List.mem_append_right _ List.mem_cons_self)) (fun hmem => ?_) hcut
      exact hdisj t hmem t List.mem_cons_self rfl

theorem run_sorted_iff {j : α} {ts : List α} (hj : ∀ t ∈ ts, t < j) (hts : ts.Nodup) :
    (run [j] ts).Pairwise (· < ·) ↔ ¬DoubleCut ts :=
  ⟨fun h hcut => not_sorted_of_doubleCut hcut h, fun hcut => (run_good hj hts hcut).sorted⟩

/-- What is on the stack is not cut off. -/
theorem mem_run {j x : α} {ts : List α} (hj : ∀ t ∈ ts, t < j) (hts : ts.Nodup)
    (hcut : ¬DoubleCut ts) (hx : x ∈ run [j] ts) : x = j ∨ Uncut ts x :=
  (run_good hj hts hcut).uncut x hx

end RagFlow.SinglePop
