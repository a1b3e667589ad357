import Mathlib.Algebra.Order.BigOperators.Group.Multiset
import Mathlib.Algebra.Order.Group.Nat
import Mathlib.Tactic.Abel
import RagFlow.Crew

/-! # The containers of the sandbox

The executor manager keeps a queue of containers for each language.  A request passes the
semaphore of its language, takes a name from the queue, has the container checked under the lock,
executes and puts the name back.  A container that cannot be recreated is not put back.  A step
lies between two points at which another request may run.

* **Containers.** Every container that was created waits in the queue of its language, is in the
  hands of one request, or is gone (`ledger`).
* **Semaphores.** As many requests as the pool has containers are past the semaphore, and one
  holds the lock (`admitted`, `oneLock`).
* **Turned away.** A request finds the queue empty only if a container is missing: it was never
  created, or it is gone (`short`). -/

namespace RagFlow.SandboxPool

inductive SupportLanguage where
  | python | nodejs
deriving DecidableEq

/-- Where a request is.  A container is known by the number in its name. -/
inductive Phase where
  | arrives
  /-- It is past the semaphore. -/
  | admitted
  /-- In the loop of `allocate_container_blocking`, at first or after an attempt. -/
  | allocates (again : Bool)
  | waitsToCheck (container : ℕ)
  | checks (container : ℕ)
  | recreates (container : ℕ)
  /-- Before the `try` of `execute_code`. -/
  | prepares (container : ℕ)
  | executes (container : ℕ)
  | cleansUp (container : ℕ)
  | waitsToRelease (container : ℕ)
  | releases (container : ℕ)
  | recreatesCrashed (container : ℕ)
  /-- `busy`: there was no available container. -/
  | answered (busy : Bool)

inductive Task where
  | request (language : SupportLanguage) (phase : Phase)
  | teardown
  | empties (language : SupportLanguage)

open Phase Task

structure Pool where
  /-- `_CONTAINER_QUEUES`. -/
  queues : SupportLanguage → List ℕ
  /-- `_CONTAINER_LOCK`. -/
  locked : Bool
  /-- `_CONTAINER_EXECUTION_SEMAPHORES`. -/
  permits : SupportLanguage → ℕ
  /-- The containers that were not put back. -/
  gone : SupportLanguage → Multiset ℕ

namespace Pool

def setQueue (p : Pool) (language : SupportLanguage) (queue : List ℕ) : Pool :=
  { p with queues := Function.update p.queues language queue }

def put (p : Pool) (language : SupportLanguage) (container : ℕ) : Pool :=
  p.setQueue language (p.queues language ++ [container])

def lose (p : Pool) (language : SupportLanguage) (container : ℕ) : Pool :=
  { p with gone := Function.update p.gone language (container ::ₘ p.gone language) }

def lock (p : Pool) : Pool := { p with locked := true }

def unlock (p : Pool) : Pool := { p with locked := false }

def setPermits (p : Pool) (language : SupportLanguage) (n : ℕ) : Pool :=
  { p with permits := Function.update p.permits language n }

end Pool

/-- `run_code_handler` up to the execution: the semaphore, the check of the code, and
`allocate_container_blocking`. -/
inductive Allocate : Pool → Task → Pool → Option Task → Prop
  | acquire {p l} (n : ℕ) (h : p.permits l = n + 1) :
      Allocate p (request l arrives) (p.setPermits l n) (some (request l admitted))
  | refused {p l} : Allocate p (request l admitted) p (some (request l (answered false)))
  | safe {p l} : Allocate p (request l admitted) p (some (request l (allocates false)))
  | got {p l again i rest} (h : p.queues l = i :: rest) :
      Allocate p (request l (allocates again)) (p.setQueue l rest)
        (some (request l (waitsToCheck i)))
  | empty {p l again} (h : p.queues l = []) :
      Allocate p (request l (allocates again)) p (some (request l (allocates true)))
  /-- The time is not up before the first attempt. -/
  | timeout {p l} : Allocate p (request l (allocates true)) p (some (request l (answered true)))
  | lock {p l i} (h : p.locked = false) :
      Allocate p (request l (waitsToCheck i)) p.lock (some (request l (checks i)))
  | running {p l i} :
      Allocate p (request l (checks i)) p.unlock (some (request l (prepares i)))
  | notRunning {p l i} : Allocate p (request l (checks i)) p (some (request l (recreates i)))
  | recreated {p l i} :
      Allocate p (request l (recreates i)) p.unlock (some (request l (prepares i)))
  | notRecreated {p l i} :
      Allocate p (request l (recreates i)) (p.unlock.lose l i)
        (some (request l (allocates true)))

/-- The rest of `execute_code`, `release_container`, and the end of the handler. -/
inductive Execute : Pool → Task → Pool → Option Task → Prop
  | prepared {p l i} : Execute p (request l (prepares i)) p (some (request l (executes i)))
  /-- `os.makedirs` raises, and the container is not released. -/
  | notPrepared {p l i} :
      Execute p (request l (prepares i)) (p.lose l i) (some (request l (answered false)))
  | executed {p l i} : Execute p (request l (executes i)) p (some (request l (cleansUp i)))
  | cleaned {p l i} : Execute p (request l (cleansUp i)) p (some (request l (waitsToRelease i)))
  | lock {p l i} (h : p.locked = false) :
      Execute p (request l (waitsToRelease i)) p.lock (some (request l (releases i)))
  | running {p l i} :
      Execute p (request l (releases i)) (p.unlock.put l i) (some (request l (answered false)))
  | crashed {p l i} :
      Execute p (request l (releases i)) p (some (request l (recreatesCrashed i)))
  | recreated {p l i} :
      Execute p (request l (recreatesCrashed i)) (p.unlock.put l i)
        (some (request l (answered false)))
  | notRecreated {p l i} :
      Execute p (request l (recreatesCrashed i)) (p.unlock.lose l i)
        (some (request l (answered false)))
  | leave {p l busy} :
      Execute p (request l (answered busy)) (p.setPermits l (p.permits l + 1)) none

/-- `teardown_containers`. -/
inductive Teardown : Pool → Task → Pool → Option Task → Prop
  | lock {p} (h : p.locked = false) : Teardown p teardown p.lock (some (empties .python))
  | remove {p l i rest} (h : p.queues l = i :: rest) :
      Teardown p (empties l) ((p.setQueue l rest).lose l i) (some (empties l))
  /-- The command that removes the container raises. -/
  | fails {p l i rest} (h : p.queues l = i :: rest) :
      Teardown p (empties l) ((p.setQueue l rest).lose l i).unlock none
  | next {p} (h : p.queues .python = []) :
      Teardown p (empties .python) p (some (empties .nodejs))
  | done {p} (h : p.queues .nodejs = []) : Teardown p (empties .nodejs) p.unlock none

/-- Requests come in any number, and the pool may be torn down. -/
def rules : Crew.Rules Pool Task where
  enters t := (∃ l, t = request l arrives) ∨ t = teardown
  acts p t p' t' := Allocate p t p' t' ∨ Execute p t p' t' ∨ Teardown p t p' t'
  moves _ _ := False

/-- After `init_containers(size)`: the containers that could be created. -/
def initial (size : ℕ) (created : SupportLanguage → List ℕ) : Pool :=
  ⟨created, false, fun _ => size, fun _ => 0⟩

/-! ### What a task has -/

/-- The containers of the language `l` in the hands of the task. -/
def Task.held (l : SupportLanguage) : Task → Multiset ℕ
  | request l' phase =>
      match phase with
      | waitsToCheck i | checks i | recreates i | prepares i | executes i | cleansUp i
      | waitsToRelease i | releases i | recreatesCrashed i => if l' = l then {i} else 0
      | _ => 0
  | _ => 0

def Task.permit (l : SupportLanguage) : Task → ℕ
  | request _ arrives => 0
  | request l' _ => if l' = l then 1 else 0
  | _ => 0

def Task.locks : Task → ℕ
  | request _ (checks _) | request _ (recreates _) | request _ (releases _)
  | request _ (recreatesCrashed _) | empties _ => 1
  | _ => 0

/-- The request has found no container. -/
def Task.missed (l : SupportLanguage) : Task → Prop
  | request l' (allocates true) => l' = l
  | request l' (answered true) => l' = l
  | _ => False

structure Inv (size : ℕ) (created : SupportLanguage → List ℕ) (p : Pool) (ts : Multiset Task) :
    Prop where
  ledger : ∀ l, (p.queues l : Multiset ℕ) + (ts.map (held l)).sum + p.gone l
    = (created l : Multiset ℕ)
  admitted : ∀ l, p.permits l + (ts.map (permit l)).sum = size
  oneLock : (ts.map locks).sum = if p.locked = true then 1 else 0
  short : ∀ l, ∀ t ∈ ts, t.missed l → (created l).length < size ∨ p.gone l ≠ 0

/-! ### What an action changes -/

variable {p p' : Pool} {t : Task} {t' : Option Task} {ts : Multiset Task}

/-- What moves between the pool and the task, for each language. -/
structure Effect (p : Pool) (t : Task) (p' : Pool) (t' : Option Task) : Prop where
  containers : ∀ l, (p'.queues l : Multiset ℕ) + t'.elim 0 (held l) + p'.gone l
    = (p.queues l : Multiset ℕ) + held l t + p.gone l
  permits : ∀ l, p'.permits l + t'.elim 0 (permit l) = p.permits l + permit l t
  lock : t'.elim 0 locks + (if p.locked = true then 1 else 0)
    = locks t + if p'.locked = true then 1 else 0
  gone : ∀ l, p.gone l ≠ 0 → p'.gone l ≠ 0
  missed : ∀ l, t'.elim False (missed l) →
    p'.gone l ≠ 0 ∨ t.missed l ∨ (p.queues l = [] ∧ permit l t = 1 ∧ held l t = 0)

/-- The name that is taken from a queue is in the hands of the task. -/
theorem queue_taken {l l' : SupportLanguage} {i : ℕ} {rest : List ℕ} (h : p.queues l' = i :: rest) :
    (Function.update p.queues l' rest l : Multiset ℕ) + (if l' = l then {i} else 0)
      = (p.queues l : Multiset ℕ) := by
  by_cases hl : l' = l
  · subst hl
    rw [if_pos rfl, Function.update_self, h, add_comm]
    rfl
  · rw [if_neg hl, add_zero, Function.update_of_ne (Ne.symm hl)]

theorem queue_put (p : Pool) (l l' : SupportLanguage) (i : ℕ) :
    (Function.update p.queues l' (p.queues l' ++ [i]) l : Multiset ℕ)
      = (p.queues l : Multiset ℕ) + if l' = l then {i} else 0 := by
  by_cases hl : l' = l
  · subst hl
    rw [if_pos rfl, Function.update_self, ← Multiset.coe_add]
    rfl
  · rw [if_neg hl, add_zero, Function.update_of_ne (Ne.symm hl)]

theorem gone_lost (p : Pool) (l l' : SupportLanguage) (i : ℕ) :
    Function.update p.gone l' (i ::ₘ p.gone l') l = (if l' = l then {i} else 0) + p.gone l := by
  by_cases hl : l' = l
  · subst hl
    rw [if_pos rfl, Function.update_self]
    rfl
  · rw [if_neg hl, zero_add, Function.update_of_ne (Ne.symm hl)]

theorem permits_set (p : Pool) {l' : SupportLanguage} {n m : ℕ} (h : p.permits l' + n = m)
    (l : SupportLanguage) :
    Function.update p.permits l' m l = p.permits l + if l' = l then n else 0 := by
  by_cases hl : l' = l
  · subst hl
    rw [if_pos rfl, Function.update_self, h]
  · rw [if_neg hl, add_zero, Function.update_of_ne (Ne.symm hl)]

theorem gone_ne_zero {l l' : SupportLanguage} {i : ℕ} (h : p.gone l ≠ 0) :
    Function.update p.gone l' (i ::ₘ p.gone l') l ≠ 0 := by
  by_cases hl : l' = l
  · subst hl
    rw [Function.update_self]
    exact Multiset.cons_ne_zero
  · rwa [Function.update_of_ne (Ne.symm hl)]

theorem Allocate.effect (hact : Allocate p t p' t') (hlock : locks t = 1 → p.locked = true) :
    Effect p t p' t' := by
  cases hact with
  | @acquire l' n h =>
      refine ⟨fun l => rfl, fun l => ?_, rfl, fun l => id, fun l hm => hm.elim⟩
      show Function.update p.permits l' n l + (if l' = l then 1 else 0) = p.permits l + 0
      by_cases hl : l' = l
      · subst hl
        rw [Function.update_self, if_pos rfl, h, add_zero]
      · rw [Function.update_of_ne (Ne.symm hl), if_neg hl]
  | refused => exact ⟨fun l => rfl, fun l => rfl, rfl, fun l => id, fun l hm => hm.elim⟩
  | safe => exact ⟨fun l => rfl, fun l => rfl, rfl, fun l => id, fun l hm => hm.elim⟩
  | @got l' again i rest h =>
      refine ⟨fun l => ?_, fun l => rfl, rfl, fun l => id, fun l hm => hm.elim⟩
      show (Function.update p.queues l' rest l : Multiset ℕ) + (if l' = l then {i} else 0)
        + p.gone l = (p.queues l : Multiset ℕ) + 0 + p.gone l
      rw [queue_taken h, add_zero]
  | empty h =>
      refine ⟨fun l => rfl, fun l => rfl, rfl, fun l => id, fun l hm => ?_⟩
      change _ = l at hm
      subst hm
      exact Or.inr (Or.inr ⟨h, if_pos rfl, rfl⟩)
  | timeout => exact ⟨fun l => rfl, fun l => rfl, rfl, fun l => id, fun l hm => Or.inr (Or.inl hm)⟩
  | lock h =>
      refine ⟨fun l => rfl, fun l => rfl, ?_, fun l => id, fun l hm => hm.elim⟩
      rw [h]
      rfl
  | running =>
      refine ⟨fun l => rfl, fun l => rfl, ?_, fun l => id, fun l hm => hm.elim⟩
      rw [hlock rfl]
      rfl
  | notRunning => exact ⟨fun l => rfl, fun l => rfl, rfl, fun l => id, fun l hm => hm.elim⟩
  | recreated =>
      refine ⟨fun l => rfl, fun l => rfl, ?_, fun l => id, fun l hm => hm.elim⟩
      rw [hlock rfl]
      rfl
  | @notRecreated l' i =>
      refine ⟨fun l => ?_, fun l => rfl, ?_, fun l => gone_ne_zero, fun l hm => ?_⟩
      · show (p.queues l : Multiset ℕ) + 0 + Function.update p.gone l' (i ::ₘ p.gone l') l
          = (p.queues l : Multiset ℕ) + (if l' = l then {i} else 0) + p.gone l
        rw [gone_lost]
        abel
      · rw [hlock rfl]
        rfl
      · change l' = l at hm
        subst hm
        refine Or.inl fun hzero => ?_
        change Function.update p.gone l' (i ::ₘ p.gone l') l' = 0 at hzero
        rw [Function.update_self] at hzero
        exact Multiset.cons_ne_zero hzero

theorem Execute.effect (hact : Execute p t p' t') (hlock : locks t = 1 → p.locked = true) :
    Effect p t p' t' := by
  cases hact with
  | prepared => exact ⟨fun l => rfl, fun l => rfl, rfl, fun l => id, fun l hm => hm.elim⟩
  | @notPrepared l' i =>
      refine ⟨fun l => ?_, fun l => rfl, rfl, fun l => gone_ne_zero, fun l hm => hm.elim⟩
      show (p.queues l : Multiset ℕ) + 0 + Function.update p.gone l' (i ::ₘ p.gone l') l
        = (p.queues l : Multiset ℕ) + (if l' = l then {i} else 0) + p.gone l
      rw [gone_lost]
      abel
  | executed => exact ⟨fun l => rfl, fun l => rfl, rfl, fun l => id, fun l hm => hm.elim⟩
  | cleaned => exact ⟨fun l => rfl, fun l => rfl, rfl, fun l => id, fun l hm => hm.elim⟩
  | lock h =>
      refine ⟨fun l => rfl, fun l => rfl, ?_, fun l => id, fun l hm => hm.elim⟩
      rw [h]
      rfl
  | @running l' i =>
      refine ⟨fun l => ?_, fun l => rfl, ?_, fun l => id, fun l hm => hm.elim⟩
      · show (Function.update p.queues l' (p.queues l' ++ [i]) l : Multiset ℕ) + 0 + p.gone l
          = (p.queues l : Multiset ℕ) + (if l' = l then {i} else 0) + p.gone l
        rw [queue_put, add_zero]
      · rw [hlock rfl]
        rfl
  | crashed => exact ⟨fun l => rfl, fun l => rfl, rfl, fun l => id, fun l hm => hm.elim⟩
  | @recreated l' i =>
      refine ⟨fun l => ?_, fun l => rfl, ?_, fun l => id, fun l hm => hm.elim⟩
      · show (Function.update p.queues l' (p.queues l' ++ [i]) l : Multiset ℕ) + 0 + p.gone l
          = (p.queues l : Multiset ℕ) + (if l' = l then {i} else 0) + p.gone l
        rw [queue_put, add_zero]
      · rw [hlock rfl]
        rfl
  | @notRecreated l' i =>
      refine ⟨fun l => ?_, fun l => rfl, ?_, fun l => gone_ne_zero, fun l hm => hm.elim⟩
      · show (p.queues l : Multiset ℕ) + 0 + Function.update p.gone l' (i ::ₘ p.gone l') l
          = (p.queues l : Multiset ℕ) + (if l' = l then {i} else 0) + p.gone l
        rw [gone_lost]
        abel
      · rw [hlock rfl]
        rfl
  | @leave l' busy =>
      refine ⟨fun l => rfl, fun l => ?_, rfl, fun l => id, fun l hm => hm.elim⟩
      show Function.update p.permits l' (p.permits l' + 1) l + 0
        = p.permits l + if l' = l then 1 else 0
      rw [permits_set p rfl, add_zero]

theorem Teardown.effect (hact : Teardown p t p' t') (hlock : locks t = 1 → p.locked = true) :
    Effect p t p' t' := by
  have hremoved : ∀ {l' : SupportLanguage} {i : ℕ} {rest : List ℕ}, p.queues l' = i :: rest →
      ∀ l, (Function.update p.queues l' rest l : Multiset ℕ) + 0
          + Function.update p.gone l' (i ::ₘ p.gone l') l
        = (p.queues l : Multiset ℕ) + 0 + p.gone l := by
    intro l' i rest h l
    rw [gone_lost, ← queue_taken h]
    abel
  cases hact with
  | lock h =>
      refine ⟨fun l => rfl, fun l => rfl, ?_, fun l => id, fun l hm => hm.elim⟩
      rw [h]
      rfl
  | remove h => exact ⟨hremoved h, fun l => rfl, rfl, fun l => gone_ne_zero, fun l hm => hm.elim⟩
  | fails h =>
      refine ⟨hremoved h, fun l => rfl, ?_, fun l => gone_ne_zero, fun l hm => hm.elim⟩
      rw [hlock rfl]
      rfl
  | next h => exact ⟨fun l => rfl, fun l => rfl, rfl, fun l => id, fun l hm => hm.elim⟩
  | done h =>
      refine ⟨fun l => rfl, fun l => rfl, ?_, fun l => id, fun l hm => hm.elim⟩
      rw [hlock rfl]
      rfl

/-! ### Runs -/

variable {size : ℕ} {created : SupportLanguage → List ℕ}

/-- A task that holds a container is past the semaphore. -/
theorem card_held_le (l : SupportLanguage) (t : Task) :
    Multiset.card (held l t) ≤ permit l t := by
  have hone : ∀ (l' : SupportLanguage) (i : ℕ),
      Multiset.card (if l' = l then {i} else 0 : Multiset ℕ) ≤ if l' = l then 1 else 0 := by
    intro l' i
    split_ifs
    · exact le_rfl
    · exact le_rfl
  cases t with
  | request l' phase =>
      cases phase with
      | arrives => exact Nat.zero_le _
      | admitted => exact Nat.zero_le _
      | allocates again => exact Nat.zero_le _
      | answered busy => exact Nat.zero_le _
      | _ i => exact hone l' i
  | teardown => exact Nat.zero_le _
  | empties l' => exact Nat.zero_le _

theorem card_sum_held_le (l : SupportLanguage) (ts : Multiset Task) :
    Multiset.card (ts.map (held l)).sum ≤ (ts.map (permit l)).sum := by
  induction ts using Multiset.induction with
  | empty => exact le_rfl
  | cons t ts ih =>
      rw [Multiset.map_cons, Multiset.sum_cons, Multiset.map_cons, Multiset.sum_cons,
        Multiset.card_add]
      exact Nat.add_le_add (card_held_le l t) ih

/-- Where a request that waits for a container finds none, one is missing. -/
theorem Inv.missing (h : Inv size created p (t ::ₘ ts)) {l : SupportLanguage}
    (hempty : p.queues l = []) (hpermit : permit l t = 1) (hheld : held l t = 0) :
    (created l).length < size ∨ p.gone l ≠ 0 := by
  have hledger := h.ledger l
  have hadmitted := h.admitted l
  rw [hempty, Multiset.map_cons, Multiset.sum_cons, hheld, zero_add] at hledger
  rw [Multiset.map_cons, Multiset.sum_cons, hpermit] at hadmitted
  have hcard := congrArg Multiset.card hledger
  rw [Multiset.card_add, Multiset.card_add, Multiset.coe_card, Multiset.coe_card,
    List.length_nil] at hcard
  have hle := card_sum_held_le l ts
  by_cases hgone : p.gone l = 0
  · rw [hgone, Multiset.card_zero] at hcard
    exact Or.inl (by omega)
  · exact Or.inr hgone

theorem Inv.locked (h : Inv size created p (t ::ₘ ts)) (ht : locks t = 1) : p.locked = true := by
  have hone := h.oneLock
  rw [Multiset.map_cons, Multiset.sum_cons, ht] at hone
  by_contra hlocked
  rw [if_neg hlocked] at hone
  omega

theorem Inv.act (h : Inv size created p (t ::ₘ ts)) (he : Effect p t p' t') :
    Inv size created p' (Crew.rejoin t' ts) := by
  refine ⟨fun l => ?_, fun l => ?_, ?_, fun l x hx hm => ?_⟩
  · have hledger := h.ledger l
    rw [Multiset.map_cons, Multiset.sum_cons] at hledger
    rw [Crew.sum_rejoin, ← hledger]
    calc (p'.queues l : Multiset ℕ) + (t'.elim 0 (held l) + (ts.map (held l)).sum) + p'.gone l
        = (p'.queues l : Multiset ℕ) + t'.elim 0 (held l) + p'.gone l
          + (ts.map (held l)).sum := by abel
      _ = (p.queues l : Multiset ℕ) + held l t + p.gone l + (ts.map (held l)).sum := by
          rw [he.containers l]
      _ = (p.queues l : Multiset ℕ) + (held l t + (ts.map (held l)).sum) + p.gone l := by abel
  · have hadmitted := h.admitted l
    have hpermits := he.permits l
    rw [Multiset.map_cons, Multiset.sum_cons] at hadmitted
    rw [Crew.sum_rejoin]
    omega
  · have hone := h.oneLock
    have hlock := he.lock
    rw [Multiset.map_cons, Multiset.sum_cons] at hone
    rw [Crew.sum_rejoin]
    omega
  · have hkept : (created l).length < size ∨ p.gone l ≠ 0 →
        (created l).length < size ∨ p'.gone l ≠ 0 := Or.imp_right (he.gone l)
    rcases Crew.mem_rejoin.mp hx with rfl | hx
    · rcases he.missed l hm with hgone | hmissed | ⟨hempty, hpermit, hheld⟩
      · exact Or.inr hgone
      · exact hkept (h.short l t (Multiset.mem_cons_self t ts) hmissed)
      · exact hkept (h.missing hempty hpermit hheld)
    · exact hkept (h.short l x (Multiset.mem_cons_of_mem hx) hm)

theorem Inv.enter (h : Inv size created p ts) (ht : (∃ l, t = request l arrives) ∨ t = teardown) :
    Inv size created p (t ::ₘ ts) := by
  have hzero : (∀ l, held l t = 0) ∧ (∀ l, permit l t = 0) ∧ locks t = 0 ∧ ∀ l, ¬ t.missed l := by
    rcases ht with ⟨l, rfl⟩ | rfl
    · exact ⟨fun _ => rfl, fun _ => rfl, rfl, fun _ hm => hm⟩
    · exact ⟨fun _ => rfl, fun _ => rfl, rfl, fun _ hm => hm⟩
  obtain ⟨hheld, hpermit, hlocks, hmissed⟩ := hzero
  refine ⟨fun l => ?_, fun l => ?_, ?_, fun l x hx hm => ?_⟩
  · rw [Multiset.map_cons, Multiset.sum_cons, hheld, zero_add]
    exact h.ledger l
  · rw [Multiset.map_cons, Multiset.sum_cons, hpermit, zero_add]
    exact h.admitted l
  · rw [Multiset.map_cons, Multiset.sum_cons, hlocks, zero_add]
    exact h.oneLock
  · rcases Multiset.mem_cons.mp hx with rfl | hx
    · exact absurd hm (hmissed l)
    · exact h.short l x hx hm

theorem inv_reachable {c : Crew Pool Task}
    (hc : Crew.Reachable rules ⟨initial size created, 0⟩ c) :
    Inv size created c.shared c.threads := by
  refine hc.invariant ⟨fun l => ?_, fun l => rfl, rfl, fun l x hx => ?_⟩
    (fun _ _ _ h ht => h.enter ht) (fun _ _ _ _ _ h hact => ?_) (fun _ _ _ _ hmove => hmove.elim)
  · exact (add_zero _).trans (add_zero _)
  · exact absurd hx (Multiset.notMem_zero x)
  · rcases hact with hact | hact | hact
    · exact h.act (hact.effect h.locked)
    · exact h.act (hact.effect h.locked)
    · exact h.act (hact.effect h.locked)

/-- No container is in the hands of two requests, at most `size` requests of a language are past
the semaphore, and one task holds the lock. -/
theorem container_once (hnodup : ∀ l, (created l).Nodup) {c : Crew Pool Task}
    (hc : Crew.Reachable rules ⟨initial size created, 0⟩ c) :
    (∀ l, (c.shared.queues l : Multiset ℕ) + (c.threads.map (held l)).sum + c.shared.gone l
        = (created l : Multiset ℕ) ∧ ∀ i, (c.threads.map (held l)).sum.count i ≤ 1) ∧
      (∀ l, (c.threads.map (permit l)).sum ≤ size) ∧ (c.threads.map locks).sum ≤ 1 := by
  have h := inv_reachable hc
  refine ⟨fun l => ⟨h.ledger l, fun i => ?_⟩, fun l => ?_, ?_⟩
  · have hone := Multiset.nodup_iff_count_le_one.mp (Multiset.coe_nodup.mpr (hnodup l)) i
    rw [← h.ledger l, Multiset.count_add, Multiset.count_add] at hone
    omega
  · have := h.admitted l
    omega
  · rw [h.oneLock]
    split_ifs
    · exact le_rfl
    · exact Nat.zero_le 1

/-- While every container of a language was created and none is gone, no request of the language
finds the queue empty, so none is turned away. -/
theorem never_busy {l : SupportLanguage} (hsize : (created l).length = size) {c : Crew Pool Task}
    (hc : Crew.Reachable rules ⟨initial size created, 0⟩ c) (hgone : c.shared.gone l = 0) :
    request l (answered true) ∉ c.threads ∧
      ∀ again, request l (allocates again) ∈ c.threads →
        again = false ∧ c.shared.queues l ≠ [] := by
  have h := inv_reachable hc
  have hno : ∀ t ∈ c.threads, ¬ t.missed l := by
    intro t ht hm
    rcases h.short l t ht hm with hlt | hne
    · omega
    · exact hne hgone
  refine ⟨fun ht => hno _ ht rfl, fun again ht => ⟨?_, fun hempty => ?_⟩⟩
  · cases again with
    | false => rfl
    | true => exact absurd rfl (hno _ ht)
  · obtain ⟨ts, hts⟩ := Multiset.exists_cons_of_mem ht
    rw [hts] at h
    rcases h.missing hempty (if_pos rfl) rfl with hlt | hne
    · omega
    · exact hne hgone

/-! ### A request of a pool with one container -/

section run

def single : SupportLanguage → List ℕ := fun _ => [0]

def afterAcquire : Pool := (initial 1 single).setPermits .python 0

theorem reachable_allocates : Crew.Reachable rules ⟨initial 1 single, 0⟩
    ⟨afterAcquire, {request .python (allocates false)}⟩ := by
  have henter : Crew.Step rules ⟨initial 1 single, 0⟩
      ⟨initial 1 single, {request .python arrives}⟩ := .enter (Or.inl ⟨.python, rfl⟩)
  have hacquire : Crew.Step rules ⟨initial 1 single, {request .python arrives}⟩
      ⟨afterAcquire, {request .python admitted}⟩ := .alone (Or.inl (.acquire 0 rfl))
  have hsafe : Crew.Step rules ⟨afterAcquire, {request .python admitted}⟩
      ⟨afterAcquire, {request .python (allocates false)}⟩ := .alone (Or.inl .safe)
  exact ((Relation.ReflTransGen.single henter).tail hacquire).tail hsafe

theorem never_busy_allocates : afterAcquire.queues .python ≠ [] :=
  ((never_busy (l := .python) rfl reachable_allocates rfl).2 false
    (Multiset.mem_singleton_self _)).2

theorem container_once_waits :
    (({request .python (waitsToCheck 0)} : Multiset Task).map (held .python)).sum.count 0 ≤ 1 := by
  have hgot : Crew.Step rules ⟨afterAcquire, {request .python (allocates false)}⟩
      ⟨afterAcquire.setQueue .python [], {request .python (waitsToCheck 0)}⟩ :=
    .alone (Or.inl (.got rfl))
  exact ((container_once (fun _ => List.nodup_singleton 0)
    (reachable_allocates.tail hgot)).1 .python).2 0

end run

end RagFlow.SandboxPool
