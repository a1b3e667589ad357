import Mathlib.Algebra.BigOperators.Group.Multiset.Basic
import Mathlib.Data.Multiset.Bind
import Mathlib.Logic.Relation

/-! # A shared state and the threads that work on it

The threads are a multiset of local states.  A thread enters in a starting state, acts on the
shared state and goes on or ends; the shared state may also take steps of its own, for a worker
that is always there.  Each step is atomic, and the steps of the threads come in any order.

* **Runs.** `Reachable`: any number of steps.
* **Invariants.** What each kind of step keeps holds in every reachable state
  (`Reachable.invariant`). -/

namespace RagFlow

structure Crew (S T : Type) where
  shared : S
  threads : Multiset T

/-- What the threads and the shared state may do. -/
structure Crew.Rules (S T : Type) where
  enters : T → Prop
  acts : S → T → S → Option T → Prop
  moves : S → S → Prop

namespace Crew

variable {S T : Type} {rules : Rules S T}

/-- The thread that goes on, if it does, and the others. -/
def rejoin (t : Option T) (ts : Multiset T) : Multiset T := t.elim ts (· ::ₘ ts)

theorem mem_rejoin {t : Option T} {ts : Multiset T} {x : T} :
    x ∈ rejoin t ts ↔ t = some x ∨ x ∈ ts := by
  cases t with
  | none => exact (or_iff_right (fun h => nomatch h)).symm
  | some t =>
      show x ∈ t ::ₘ ts ↔ _
      rw [Multiset.mem_cons, Option.some_inj, eq_comm]

/-- What the threads have in all, with the thread that goes on counted by itself. -/
theorem sum_rejoin {M : Type} [AddCommMonoid M] (f : T → M) (t : Option T) (ts : Multiset T) :
    ((rejoin t ts).map f).sum = t.elim 0 f + (ts.map f).sum := by
  cases t with
  | none => exact (zero_add _).symm
  | some t =>
      show ((t ::ₘ ts).map f).sum = _
      rw [Multiset.map_cons, Multiset.sum_cons]
      rfl

inductive Step (rules : Rules S T) : Crew S T → Crew S T → Prop
  | enter {s : S} {ts : Multiset T} {t : T} (h : rules.enters t) : Step rules ⟨s, ts⟩ ⟨s, t ::ₘ ts⟩
  | act {s s' : S} {ts : Multiset T} {t : T} {t' : Option T} (h : rules.acts s t s' t') :
      Step rules ⟨s, t ::ₘ ts⟩ ⟨s', rejoin t' ts⟩
  | move {s s' : S} {ts : Multiset T} (h : rules.moves s s') : Step rules ⟨s, ts⟩ ⟨s', ts⟩

/-- A thread by itself goes on. -/
theorem Step.alone {s s' : S} {t t' : T} (h : rules.acts s t s' (some t')) :
    Step rules ⟨s, {t}⟩ ⟨s', {t'}⟩ :=
  @Step.act S T rules s s' 0 t (some t') h

/-- A thread by itself ends. -/
theorem Step.ends {s s' : S} {t : T} (h : rules.acts s t s' none) :
    Step rules ⟨s, {t}⟩ ⟨s', 0⟩ :=
  @Step.act S T rules s s' 0 t none h

def Reachable (rules : Rules S T) : Crew S T → Crew S T → Prop :=
  Relation.ReflTransGen (Step rules)

/-- What every step keeps holds in every reachable state. -/
theorem Reachable.invariant {I : S → Multiset T → Prop} {c₀ c : Crew S T}
    (hc : Reachable rules c₀ c) (h₀ : I c₀.shared c₀.threads)
    (henter : ∀ s ts t, I s ts → rules.enters t → I s (t ::ₘ ts))
    (hact : ∀ s ts t s' t', I s (t ::ₘ ts) → rules.acts s t s' t' → I s' (rejoin t' ts))
    (hmove : ∀ s ts s', I s ts → rules.moves s s' → I s' ts) : I c.shared c.threads := by
  induction hc with
  | refl => exact h₀
  | tail _ hstep ih =>
      cases hstep with
      | enter h => exact henter _ _ _ ih h
      | act h => exact hact _ _ _ _ _ ih h
      | move h => exact hmove _ _ _ ih h

end Crew

end RagFlow
