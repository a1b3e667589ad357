import Mathlib.Data.List.Range
import Mathlib.Logic.Function.Iterate
import Mathlib.Order.Monotone.Basic

/-! # Trying the values of an orbit

A value that is taken is replaced by the next one, until one is free or the tries are used up.

* **Orbits.** `orbit next a n` is the value tried after `n` failures.  An orbit along which a
  measure increases has no value twice (`orbit_injective`).
* **Trying.** `tryFrom` finds the first free value of the orbit (`tryFrom_eq_some`), and nothing
  if all the values it tries are taken (`tryFrom_eq_none`). -/

namespace RagFlow.Orbit

variable {α : Type}

/-- The value after `n` steps. -/
def orbit (next : α → α) (a : α) (n : ℕ) : α := next^[n] a

section orbits
variable {next : α → α} {a : α}

theorem orbit_zero : orbit next a 0 = a := rfl

theorem orbit_succ (n : ℕ) : orbit next a (n + 1) = next (orbit next a n) :=
  Function.iterate_succ_apply' next n a

theorem orbit_succ' (n : ℕ) : orbit next a (n + 1) = orbit next (next a) n := rfl

/-- What one step keeps holds along the orbit. -/
theorem orbit_invariant {p : α → Prop} (hstep : ∀ b, p b → p (next b)) (ha : p a) (n : ℕ) :
    p (orbit next a n) := by
  induction n with
  | zero => exact ha
  | succ n ih =>
      rw [orbit_succ]
      exact hstep _ ih

/-- An orbit along which a measure increases has no value twice. -/
theorem orbit_injective {p : α → Prop} {w : α → ℕ} (hstep : ∀ b, p b → p (next b))
    (hless : ∀ b, p b → w b < w (next b)) (ha : p a) :
    Function.Injective (orbit next a) := by
  have hmono : StrictMono (fun n => w (orbit next a n)) := by
    refine strictMono_nat_of_lt_succ (fun n => ?_)
    rw [orbit_succ]
    exact hless _ (orbit_invariant hstep ha n)
  exact fun n m h => hmono.injective (congrArg w h)

/-- A map that turns steps into steps maps the orbit to the orbit. -/
theorem orbit_map {β : Type} {g : α → β} {next' : β → β} {p : α → Prop}
    (hstep : ∀ b, p b → p (next b)) (hg : ∀ b, p b → g (next b) = next' (g b)) (ha : p a) (n : ℕ) :
    g (orbit next a n) = orbit next' (g a) n := by
  induction n with
  | zero => rfl
  | succ n ih => rw [orbit_succ, orbit_succ, hg _ (orbit_invariant hstep ha n), ih]

end orbits

/-- Tries at most `n` values, from `a` on. -/
def tryFrom (next : α → α) (taken : α → Bool) : ℕ → α → Option α
  | 0, _ => none
  | n + 1, a => if taken a then tryFrom next taken n (next a) else some a

section tries
variable {next : α → α} {taken : α → Bool}

/-- The value found is the first free one. -/
theorem tryFrom_eq_some {k : ℕ} : ∀ {n : ℕ} {a : α}, k < n → taken (orbit next a k) = false →
    (∀ j < k, taken (orbit next a j) = true) → tryFrom next taken n a = some (orbit next a k) := by
  induction k with
  | zero =>
      rintro (_ | n) a hk hfree -
      · exact absurd hk (Nat.lt_irrefl 0)
      · rw [orbit_zero] at hfree
        rw [tryFrom, hfree, if_neg Bool.false_ne_true, orbit_zero]
  | succ k ih =>
      rintro (_ | n) a hk hfree hbefore
      · exact absurd hk (Nat.not_lt_zero _)
      · have htaken : taken a = true := hbefore 0 (Nat.succ_pos k)
        rw [tryFrom, htaken, if_pos rfl, orbit_succ', ih (Nat.lt_of_succ_lt_succ hk) hfree]
        exact fun j hj => hbefore (j + 1) (Nat.succ_lt_succ hj)

theorem tryFrom_eq_none {n : ℕ} {a : α} (h : ∀ j < n, taken (orbit next a j) = true) :
    tryFrom next taken n a = none := by
  induction n generalizing a with
  | zero => rfl
  | succ n ih =>
      have htaken : taken a = true := h 0 (Nat.succ_pos n)
      rw [tryFrom, htaken, if_pos rfl]
      exact ih (fun j hj => h (j + 1) (Nat.succ_lt_succ hj))

theorem not_taken_of_tryFrom {n : ℕ} {a b : α} (h : tryFrom next taken n a = some b) :
    taken b = false := by
  induction n generalizing a with
  | zero => cases h
  | succ n ih =>
      rw [tryFrom] at h
      split at h
      case isTrue => exact ih h
      case isFalse hfree =>
        cases h
        exact Bool.eq_false_iff.mpr hfree

end tries

end RagFlow.Orbit
