import Mathlib.Logic.Relation
import RagFlow.ConsumerGroup

/-! # The queues of the task executors

Producers append tasks to streams, one for each priority.  An executor reads what was pending for
its name when it started (`get_unacked_iterator`), then new messages, queue after queue, and it
acknowledges a message when it has done with it.  A reading command may fail before or after the
server has executed it, and an executor may stop at any point; it starts again under its name.

* **Steps.** `Collect` is a read of `collect`, `Handle` what becomes of a message that was read, and
  `Limit` a step of the semaphore `task_limiter`.
* **No loss.** Every message is still to be delivered, pending for one executor, or was
  acknowledged, and acknowledged only when it was done (`SharedInv`).
* **Executors.** What an executor has in its hands is pending for it, and within one life it gets a
  message once (`ExecutorInv`).  Each message in its hands has a permit of the semaphore
  (`ExecutorInv.permits`).
* **Recovery.** Unless a message was withheld from it, an executor that has come to new messages
  has got all that was pending for it (`ExecutorInv.complete`). -/

namespace RagFlow.TaskQueue

open Requeue

variable {Q C P : Type}

/-- A message: its queue and its identifier. -/
abbrev Message (Q : Type) := Q × StreamId

/-- How far a message that was read has come. -/
inductive Stage where
  | collected
  | handling
  /-- It was handled, or there was nothing to handle. -/
  | done

/-- Where the executor reads next. -/
inductive Cursor (Q : Type) where
  /-- In `get_unacked_iterator`, with the queues that are left; `failed` attempts so far. -/
  | history (queues : List Q) (currentMin : StreamId) (failed : ℕ)
  /-- In the loop over the queues for a new message. -/
  | fresh (queues : List Q) (failed : ℕ)
  | idle

/-- The semaphore `task_limiter` and the tasks `task_manager` that have passed it without having a
message in hand: those that have still to read one, and those that are about to release it. -/
structure Limiter where
  permits : ℕ
  reading : ℕ
  leaving : ℕ

/-- A process.  `seen` are the messages it was given, `calm` says that no message was withheld
from it by a read that failed. -/
structure Executor (Q : Type) where
  cursor : Cursor Q
  limiter : Limiter
  hands : List (Message Q × Stage)
  seen : List (Message Q)
  calm : Bool

namespace Executor

/-- A task has read a message. -/
def receive (x : Executor Q) (m : Message Q) (cursor : Cursor Q) : Executor Q :=
  { x with
    cursor := cursor
    limiter := { x.limiter with reading := x.limiter.reading - 1 }
    hands := (m, .collected) :: x.hands
    seen := m :: x.seen }

/-- A task has read nothing. -/
def leave (x : Executor Q) : Executor Q :=
  { x with
    cursor := .idle
    limiter := { x.limiter with
      reading := x.limiter.reading - 1
      leaving := x.limiter.leaving + 1 } }

def setStage [DecidableEq Q] (x : Executor Q) (m : Message Q) (stage : Stage) : Executor Q :=
  { x with hands := x.hands.map fun e => if e.1 = m then (m, stage) else e }

/-- A task has done with its message. -/
def drop [DecidableEq Q] (x : Executor Q) (m : Message Q) : Executor Q :=
  { x with
    limiter := { x.limiter with leaving := x.limiter.leaving + 1 }
    hands := x.hands.filter fun e => e.1 ≠ m }

end Executor

/-- The groups of the queues, and which messages are done and acknowledged. -/
structure Shared (Q C P : Type) where
  groups : Q → ConsumerGroup C P
  done : Message Q → Prop
  acked : Message Q → Prop

namespace Shared

def setGroup [DecidableEq Q] (s : Shared Q C P) (q : Q) (g : ConsumerGroup C P) : Shared Q C P :=
  { s with groups := Function.update s.groups q g }

def finish (s : Shared Q C P) (m : Message Q) : Shared Q C P :=
  { s with done := fun m' => m' = m ∨ s.done m' }

def ack [DecidableEq Q] (s : Shared Q C P) (m : Message Q) : Shared Q C P :=
  { s with
    groups := Function.update s.groups m.1 ((s.groups m.1).ack m.2)
    acked := fun m' => m' = m ∨ s.acked m' }

end Shared

/-- After a read that failed `queue_consumer` tries again, three times in all. -/
def Cursor.retry (queues : List Q) (failed : ℕ) : Cursor Q :=
  if failed + 1 < 3 then .fresh queues (failed + 1) else .fresh queues.tail 0

section steps
variable [DecidableEq Q] [DecidableEq C]

/-- The reads of `collect` by a task of the executor `c`. -/
inductive Collect (names : List Q) (c : C) :
    Shared Q C P → Executor Q → Shared Q C P → Executor Q → Prop
  | unacked {s x q queues currentMin failed id}
      (hcur : x.cursor = .history (q :: queues) currentMin failed)
      (hreading : 0 < x.limiter.reading)
      (hid : (s.groups q).after c currentMin = some id) :
      Collect names c s x s (x.receive (q, id) (.history (q :: queues) id 0))
  | noUnacked {s x q queues currentMin failed}
      (hcur : x.cursor = .history (q :: queues) currentMin failed)
      (hid : (s.groups q).after c currentMin = none) :
      Collect names c s x s { x with cursor := .history queues (toLex (0, 0)) 0 }
  /-- `queue_consumer` asks again. -/
  | unackedFails {s x q queues currentMin failed}
      (hcur : x.cursor = .history (q :: queues) currentMin failed) (hf : failed + 1 < 3) :
      Collect names c s x s
        { x with cursor := .history (q :: queues) currentMin (failed + 1) }
  | unackedGivesUp {s x q queues currentMin failed}
      (hcur : x.cursor = .history (q :: queues) currentMin failed) (hf : ¬ failed + 1 < 3) :
      Collect names c s x s
        { x with cursor := .history queues (toLex (0, 0)) 0, calm := false }
  /-- An exception in the generator ends it. -/
  | unackedRaises {s x queues currentMin failed}
      (hcur : x.cursor = .history queues currentMin failed) :
      Collect names c s x s
        { x with cursor := .history [] (toLex (0, 0)) 0, calm := false }
  | stopIteration {s x currentMin failed} (hcur : x.cursor = .history [] currentMin failed) :
      Collect names c s x s { x with cursor := .fresh names 0 }
  | begin {s x} (hcur : x.cursor = .idle) (hreading : 0 < x.limiter.reading) :
      Collect names c s x s { x with cursor := .fresh names 0 }
  | new {s x q queues failed id} (hcur : x.cursor = .fresh (q :: queues) failed)
      (hreading : 0 < x.limiter.reading) (hid : (s.groups q).next = some id) :
      Collect names c s x (s.setGroup q ((s.groups q).deliver c id hid))
        (x.receive (q, id) .idle)
  | noNew {s x q queues failed} (hcur : x.cursor = .fresh (q :: queues) failed)
      (hid : (s.groups q).next = none) :
      Collect names c s x s { x with cursor := .fresh queues 0 }
  /-- The server has delivered the message, the reply is lost. -/
  | newLost {s x q queues failed id} (hcur : x.cursor = .fresh (q :: queues) failed)
      (hid : (s.groups q).next = some id) :
      Collect names c s x (s.setGroup q ((s.groups q).deliver c id hid))
        { x with cursor := .retry (q :: queues) failed, calm := false }
  | newRefused {s x q queues failed} (hcur : x.cursor = .fresh (q :: queues) failed) :
      Collect names c s x s { x with cursor := .retry (q :: queues) failed }
  | nothing {s x failed} (hcur : x.cursor = .fresh [] failed)
      (hreading : 0 < x.limiter.reading) : Collect names c s x s x.leave

/-- The rest of `collect` and `handle_task` for a message that was read. -/
inductive Handle : Shared Q C P → Executor Q → Shared Q C P → Executor Q → Prop
  | accept {s x m} (h : (m, Stage.collected) ∈ x.hands) :
      Handle s x s (x.setStage m .handling)
  /-- The message is empty, the task unknown, abandoned or cancelled. -/
  | reject {s x m} (h : (m, Stage.collected) ∈ x.hands) :
      Handle s x (s.finish m) (x.setStage m .done)
  /-- The task is done, failed or cancelled. -/
  | handled {s x m} (h : (m, Stage.handling) ∈ x.hands) :
      Handle s x (s.finish m) (x.setStage m .done)
  /-- An exception leaves `handle_task` before the message is acknowledged. -/
  | raises {s x m stage} (h : (m, stage) ∈ x.hands) : Handle s x s (x.drop m)
  /-- `XACK` is executed; whether its reply arrives makes no difference. -/
  | acked {s x m} (h : (m, Stage.done) ∈ x.hands) : Handle s x (s.ack m) (x.drop m)
  | ackRefused {s x m} (h : (m, Stage.done) ∈ x.hands) : Handle s x s (x.drop m)

/-- The semaphore: `main` acquires it for a new task, and a task releases it at its end. -/
inductive Limit : Executor Q → Executor Q → Prop
  | acquire {x} (h : 0 < x.limiter.permits) :
      Limit x { x with limiter := { x.limiter with
        permits := x.limiter.permits - 1
        reading := x.limiter.reading + 1 } }
  | release {x} (h : 0 < x.limiter.leaving) :
      Limit x { x with limiter := { x.limiter with
        permits := x.limiter.permits + 1
        leaving := x.limiter.leaving - 1 } }

/-- The queues and the executors by their names. -/
structure System (Q C P : Type) where
  shared : Shared Q C P
  executors : C → Option (Executor Q)

def System.initial : System Q C P :=
  ⟨⟨fun _ => .empty, fun _ => False, fun _ => False⟩, fun _ => none⟩

/-- An executor that has just started; `limit` is `MAX_CONCURRENT_TASKS`. -/
def started (names : List Q) (limit : ℕ) : Executor Q :=
  ⟨.history names (toLex (0, 0)) 0, ⟨limit, 0, 0⟩, [], [], true⟩

inductive Step (names : List Q) (limit : ℕ) : System Q C P → System Q C P → Prop
  /-- `queue_product`. -/
  | produce {w : System Q C P} (q : Q) (now : ℕ) (fields : P) :
      Step names limit w
        { w with shared := w.shared.setGroup q ((w.shared.groups q).xadd now fields) }
  | start {w : System Q C P} {c : C} (h : w.executors c = none) :
      Step names limit w
        { w with executors := Function.update w.executors c (some (started names limit)) }
  | stop {w : System Q C P} {c : C} {x : Executor Q} (h : w.executors c = some x) :
      Step names limit w { w with executors := Function.update w.executors c none }
  | collect {w : System Q C P} {c : C} {x x' : Executor Q} {s' : Shared Q C P}
      (h : w.executors c = some x) (hact : Collect names c w.shared x s' x') :
      Step names limit w ⟨s', Function.update w.executors c (some x')⟩
  | handle {w : System Q C P} {c : C} {x x' : Executor Q} {s' : Shared Q C P}
      (h : w.executors c = some x) (hact : Handle w.shared x s' x') :
      Step names limit w ⟨s', Function.update w.executors c (some x')⟩
  | limit {w : System Q C P} {c : C} {x x' : Executor Q} (h : w.executors c = some x)
      (hact : Limit x x') :
      Step names limit w { w with executors := Function.update w.executors c (some x') }

def Reachable (names : List Q) (limit : ℕ) : System Q C P → Prop :=
  Relation.ReflTransGen (Step names limit) System.initial

end steps

/-! ### What holds in every state -/

/-- The queues that are left. -/
def Cursor.queues : Cursor Q → List Q
  | .history queues _ _ => queues
  | .fresh queues _ => queues
  | .idle => []

/-- A message of the queue is behind the cursor. -/
def Cursor.Passed : Cursor Q → Message Q → Prop
  | .history [] _ _, _ => True
  | .history (q :: queues) currentMin _, m => m.1 ∉ queues ∧ (m.1 = q → m.2 ≤ currentMin)
  | _, _ => True

structure SharedInv (names : List Q) (s : Shared Q C P) : Prop where
  delivered_le : ∀ q, (s.groups q).lastDelivered ≤ (s.groups q).stream.lastId
  pending_names : ∀ q, ∀ e ∈ (s.groups q).pending, q ∈ names ∧ toLex (0, 0) < e.1
  covers : ∀ q, (s.groups q).Covers fun id => s.acked (q, id)
  acked_done : ∀ m, s.acked m → s.done m
  acked_not_pending : ∀ m, s.acked m →
    m.2 ≤ (s.groups m.1).lastDelivered ∧ ∀ c, (m.2, c) ∉ (s.groups m.1).pending

structure ExecutorInv (names : List Q) (limit : ℕ) (s : Shared Q C P) (c : C) (x : Executor Q) :
    Prop where
  queues : x.cursor.queues.Nodup ∧ ∀ q ∈ x.cursor.queues, q ∈ names
  /-- Every permit is free, with a task that reads or leaves, or with a message in hand. -/
  permits : x.limiter.permits + x.limiter.reading + x.limiter.leaving + x.hands.length = limit
  hands_nodup : (x.hands.map Prod.fst).Nodup
  hands_pending : ∀ e ∈ x.hands, (e.1.2, c) ∈ (s.groups e.1.1).pending
  hands_seen : ∀ e ∈ x.hands, e.1 ∈ x.seen
  hands_done : ∀ e ∈ x.hands, e.2 = .done → s.done e.1
  seen_nodup : x.seen.Nodup
  seen_le : ∀ m ∈ x.seen, m.2 ≤ (s.groups m.1).lastDelivered
  passed : ∀ m ∈ x.seen, x.cursor.Passed m
  complete : x.calm = true → ∀ m, (m.2, c) ∈ (s.groups m.1).pending → x.cursor.Passed m →
    m ∈ x.seen

variable {names : List Q} {limit : ℕ} {s s' : Shared Q C P} {x x' : Executor Q} {c c' : C} {q : Q}
  {m : Message Q} {g : ConsumerGroup C P} {id : StreamId}

theorem zero_le_id (id : StreamId) : toLex (0, 0) ≤ id := by
  refine Prod.Lex.le_iff.mpr ?_
  rcases Nat.eq_zero_or_pos (ofLex id).1 with h | h
  · exact Or.inr ⟨h.symm, Nat.zero_le _⟩
  · exact Or.inl h

/-! ### What an executor knows -/

/-- What the executor `c` knows of the queues does not change. -/
structure Frame (c : C) (s s' : Shared Q C P) : Prop where
  pending : ∀ q id, (id, c) ∈ (s'.groups q).pending ↔ (id, c) ∈ (s.groups q).pending
  delivered : ∀ q, (s.groups q).lastDelivered ≤ (s'.groups q).lastDelivered
  done : ∀ m, s.done m → s'.done m

theorem Frame.rfl (c : C) (s : Shared Q C P) : Frame c s s :=
  ⟨fun _ _ => Iff.rfl, fun _ => le_rfl, fun _ => id⟩

theorem ExecutorInv.frame (h : ExecutorInv names limit s c x) (hf : Frame c s s') :
    ExecutorInv names limit s' c x where
  queues := h.queues
  permits := h.permits
  hands_nodup := h.hands_nodup
  hands_pending e he := (hf.pending _ _).mpr (h.hands_pending e he)
  hands_seen := h.hands_seen
  hands_done e he hd := hf.done _ (h.hands_done e he hd)
  seen_nodup := h.seen_nodup
  seen_le m hm := (h.seen_le m hm).trans (hf.delivered m.1)
  passed := h.passed
  complete hcalm m hm := h.complete hcalm m ((hf.pending _ _).mp hm)

theorem Frame.finish (c : C) (s : Shared Q C P) (m : Message Q) : Frame c s (s.finish m) :=
  ⟨fun _ _ => Iff.rfl, fun _ => le_rfl, fun _ => Or.inr⟩

/-- Nothing is taken from the executor `c`. -/
structure Grows (c : C) (s s' : Shared Q C P) : Prop where
  pending : ∀ m : Message Q, (m.2, c) ∈ (s.groups m.1).pending → (m.2, c) ∈ (s'.groups m.1).pending
  delivered : ∀ q, (s.groups q).lastDelivered ≤ (s'.groups q).lastDelivered
  done : ∀ m, s.done m → s'.done m

theorem Grows.rfl (c : C) (s : Shared Q C P) : Grows c s s :=
  ⟨fun _ => id, fun _ => le_rfl, fun _ => id⟩

namespace ExecutorInv

/-- The cursor moves and nothing is read. -/
theorem move (h : ExecutorInv names limit s c x) (hg : Grows c s s') {cursor : Cursor Q}
    {calm : Bool} (hqueues : cursor.queues.Nodup ∧ ∀ q ∈ cursor.queues, q ∈ names)
    (hpassed : ∀ m ∈ x.seen, cursor.Passed m)
    (hcomplete : calm = true → x.calm = true ∧ ∀ m, (m.2, c) ∈ (s'.groups m.1).pending →
      cursor.Passed m → (m.2, c) ∈ (s.groups m.1).pending ∧ x.cursor.Passed m) :
    ExecutorInv names limit s' c { x with cursor := cursor, calm := calm } where
  queues := hqueues
  permits := h.permits
  hands_nodup := h.hands_nodup
  hands_pending e he := hg.pending _ (h.hands_pending e he)
  hands_seen := h.hands_seen
  hands_done e he hd := hg.done _ (h.hands_done e he hd)
  seen_nodup := h.seen_nodup
  seen_le m hm := (h.seen_le m hm).trans (hg.delivered m.1)
  passed := hpassed
  complete hcalm m hm hp := by
    obtain ⟨hx, hback⟩ := hcomplete hcalm
    obtain ⟨hm, hp⟩ := hback m hm hp
    exact h.complete hx m hm hp

/-- The cursor moves when nothing is left of the history. -/
theorem moveOn (h : ExecutorInv names limit s c x) (hall : ∀ m, x.cursor.Passed m)
    {cursor : Cursor Q} (hqueues : cursor.queues.Nodup ∧ ∀ q ∈ cursor.queues, q ∈ names)
    (hpassed : ∀ m, cursor.Passed m) :
    ExecutorInv names limit s c { x with cursor := cursor } :=
  h.move (Grows.rfl c s) hqueues (fun m _ => hpassed m)
    fun hcalm => ⟨hcalm, fun m hm _ => ⟨hm, hall m⟩⟩

/-- Only the semaphore is affected. -/
theorem limiter (h : ExecutorInv names limit s c x) {l : Limiter}
    (hl : l.permits + l.reading + l.leaving + x.hands.length = limit) :
    ExecutorInv names limit s c { x with limiter := l } :=
  ⟨h.queues, hl, h.hands_nodup, h.hands_pending, h.hands_seen, h.hands_done, h.seen_nodup,
    h.seen_le, h.passed, h.complete⟩

/-- A message is read that is pending and was not seen. -/
theorem receive (h : ExecutorInv names limit s c x) (hg : Grows c s s') {cursor : Cursor Q}
    (hqueues : cursor.queues.Nodup ∧ ∀ q ∈ cursor.queues, q ∈ names)
    (hreading : 0 < x.limiter.reading) (hpending : (m.2, c) ∈ (s'.groups m.1).pending)
    (hnew : m ∉ x.seen) (hpassed : ∀ m' ∈ m :: x.seen, cursor.Passed m')
    (hcomplete : ∀ m', (m'.2, c) ∈ (s'.groups m'.1).pending → cursor.Passed m' →
      m' = m ∨ ((m'.2, c) ∈ (s.groups m'.1).pending ∧ x.cursor.Passed m')) :
    ExecutorInv names limit s' c (x.receive m cursor) where
  queues := hqueues
  permits := by
    have h := h.permits
    show x.limiter.permits + (x.limiter.reading - 1) + x.limiter.leaving + (x.hands.length + 1) = _
    omega
  hands_nodup := by
    show (((m, Stage.collected) :: x.hands).map Prod.fst).Nodup
    rw [List.map_cons, List.nodup_cons]
    refine ⟨fun hmem => ?_, h.hands_nodup⟩
    obtain ⟨e, he, hem⟩ := List.mem_map.mp hmem
    have hseen := h.hands_seen e he
    rw [hem] at hseen
    exact hnew hseen
  hands_pending e he := by
    rcases List.mem_cons.mp he with rfl | he
    · exact hpending
    · exact hg.pending _ (h.hands_pending e he)
  hands_seen e he := by
    rcases List.mem_cons.mp he with rfl | he
    · exact List.mem_cons_self
    · exact List.mem_cons_of_mem _ (h.hands_seen e he)
  hands_done e he hd := by
    rcases List.mem_cons.mp he with rfl | he
    · cases hd
    · exact hg.done _ (h.hands_done e he hd)
  seen_nodup := List.nodup_cons.mpr ⟨hnew, h.seen_nodup⟩
  seen_le m' hm' := by
    rcases List.mem_cons.mp hm' with rfl | hm'
    · exact (s'.groups m'.1).le_delivered _ hpending
    · exact (h.seen_le m' hm').trans (hg.delivered m'.1)
  passed := hpassed
  complete hcalm m' hm' hp := by
    rcases hcomplete m' hm' hp with rfl | ⟨hm', hp⟩
    · exact List.mem_cons_self
    · exact List.mem_cons_of_mem _ (h.complete hcalm m' hm' hp)

end ExecutorInv

theorem Limit.executor (hact : Limit x x') (h : ExecutorInv names limit s c x) :
    ExecutorInv names limit s c x' := by
  have hpermits := h.permits
  cases hact with
  | acquire hfree =>
      refine h.limiter ?_
      simp only
      omega
  | release hleaving =>
      refine h.limiter ?_
      simp only
      omega

section cursor

variable {queues : List Q} {currentMin : StreamId} {n k : ℕ}

/-- The queues that are left when one is done with. -/
theorem queues_tail (h : (q :: queues).Nodup ∧ ∀ q' ∈ q :: queues, q' ∈ names) :
    queues.Nodup ∧ ∀ q' ∈ queues, q' ∈ names :=
  ⟨h.1.of_cons, fun q' hq' => h.2 q' (List.mem_cons_of_mem _ hq')⟩

/-- What is passed stays so on the next queue. -/
theorem passed_next (h : (Cursor.history (q :: queues) currentMin n).Passed m) :
    (Cursor.history queues (toLex (0, 0)) k).Passed m := by
  cases queues with
  | nil => trivial
  | cons q' queues =>
      refine ⟨fun hm => h.1 (List.mem_cons_of_mem _ hm), fun hm => absurd ?_ h.1⟩
      rw [hm]
      exact List.mem_cons_self

/-- At the beginning of a queue nothing of the queues that are left is passed. -/
theorem not_mem_of_passed (hm : toLex (0, 0) < m.2)
    (h : (Cursor.history queues (toLex (0, 0)) k).Passed m) : m.1 ∉ queues := by
  cases queues with
  | nil => exact List.not_mem_nil
  | cons q' queues =>
      intro hmem
      rcases List.mem_cons.mp hmem with hq | hq
      · exact absurd hm (not_lt.mpr (h.2 hq))
      · exact h.1 hq

end cursor

theorem queues_retry {queues : List Q} (h : queues.Nodup ∧ ∀ q ∈ queues, q ∈ names) (n : ℕ) :
    (Cursor.retry queues n).queues.Nodup ∧ ∀ q ∈ (Cursor.retry queues n).queues, q ∈ names := by
  unfold Cursor.retry
  split_ifs
  · exact h
  · exact ⟨h.1.sublist (List.tail_sublist _), fun q hq => h.2 q (List.mem_of_mem_tail hq)⟩

theorem passed_retry (queues : List Q) (n : ℕ) (m : Message Q) :
    (Cursor.retry queues n).Passed m := by
  unfold Cursor.retry
  split_ifs <;> trivial

theorem SharedInv.finish (h : SharedInv names s) (m : Message Q) : SharedInv names (s.finish m) :=
  ⟨h.delivered_le, h.pending_names, h.covers, fun m' hm' => Or.inr (h.acked_done m' hm'),
    h.acked_not_pending⟩

section queues
variable [DecidableEq Q]

/-! ### The queues -/

theorem setGroup_self (s : Shared Q C P) (q : Q) (g : ConsumerGroup C P) :
    (s.setGroup q g).groups q = g := Function.update_self _ _ _

theorem setGroup_of_ne (s : Shared Q C P) (g : ConsumerGroup C P) {q' : Q} (h : q' ≠ q) :
    (s.setGroup q g).groups q' = s.groups q' := Function.update_of_ne h _ _

namespace SharedInv

theorem setGroup (h : SharedInv names s) (hle : g.lastDelivered ≤ g.stream.lastId)
    (hpending : ∀ e ∈ g.pending, q ∈ names ∧ toLex (0, 0) < e.1)
    (hcovers : g.Covers fun id => s.acked (q, id))
    (hacked : ∀ id, s.acked (q, id) → id ≤ g.lastDelivered ∧ ∀ c, (id, c) ∉ g.pending) :
    SharedInv names (s.setGroup q g) := by
  refine ⟨fun q' => ?_, fun q' => ?_, fun q' => ?_, h.acked_done, fun m hm => ?_⟩
  · by_cases hq : q' = q
    · subst hq
      rwa [setGroup_self]
    · rw [setGroup_of_ne s g hq]
      exact h.delivered_le q'
  · by_cases hq : q' = q
    · subst hq
      rwa [setGroup_self]
    · rw [setGroup_of_ne s g hq]
      exact h.pending_names q'
  · by_cases hq : q' = q
    · subst hq
      rwa [setGroup_self]
    · rw [setGroup_of_ne s g hq]
      exact h.covers q'
  · by_cases hq : m.1 = q
    · subst hq
      rw [setGroup_self]
      exact hacked m.2 hm
    · rw [setGroup_of_ne s g hq]
      exact h.acked_not_pending m hm

theorem produce (h : SharedInv names s) (q : Q) (now : ℕ) (fields : P) :
    SharedInv names (s.setGroup q ((s.groups q).xadd now fields)) :=
  h.setGroup ((h.delivered_le q).trans (lt_nextId now _).le) (h.pending_names q)
    ((h.covers q).xadd (h.delivered_le q) now fields) fun _ => h.acked_not_pending _

theorem deliver (h : SharedInv names s) (hq : q ∈ names) (hid : (s.groups q).next = some id) :
    SharedInv names (s.setGroup q ((s.groups q).deliver c id hid)) := by
  obtain ⟨hlt, ⟨fields, hmem⟩, -⟩ := ConsumerGroup.next_eq_some hid
  refine h.setGroup ((s.groups q).stream.le_last _ hmem) (fun e he => ?_)
    ((h.covers q).deliver hid) fun i hi => ?_
  · rcases List.mem_append.mp he with he | he
    · exact h.pending_names q e he
    · rw [List.mem_singleton.mp he]
      exact ⟨hq, (zero_le_id _).trans_lt hlt⟩
  · obtain ⟨hle, hnot⟩ := h.acked_not_pending _ hi
    refine ⟨hle.trans hlt.le, fun c' hc' => ?_⟩
    rcases List.mem_append.mp hc' with hc' | hc'
    · exact hnot c' hc'
    · have heq : i = id := congrArg Prod.fst (List.mem_singleton.mp hc')
      exact absurd hlt (not_lt.mpr (heq ▸ hle))

/-- The group of a queue after an acknowledgement. -/
theorem ack_groups (s : Shared Q C P) (m : Message Q) (q : Q) :
    (s.ack m).groups q = s.groups q ∧ q ≠ m.1 ∨
      (s.ack m).groups q = (s.groups q).ack m.2 ∧ q = m.1 := by
  by_cases hq : q = m.1
  · subst hq
    exact Or.inr ⟨Function.update_self _ _ _, rfl⟩
  · exact Or.inl ⟨Function.update_of_ne hq _ _, hq⟩

theorem ack (h : SharedInv names s) (hm : (m.2, c) ∈ (s.groups m.1).pending) (hdone : s.done m) :
    SharedInv names (s.ack m) := by
  refine ⟨fun q => ?_, fun q e he => ?_, fun q => ?_, fun m' hm' => ?_, fun m' hm' => ?_⟩
  · rcases ack_groups s m q with ⟨hg, -⟩ | ⟨hg, -⟩
    · rw [hg]
      exact h.delivered_le q
    · rw [hg]
      exact h.delivered_le q
  · rcases ack_groups s m q with ⟨hg, -⟩ | ⟨hg, -⟩
    · rw [hg] at he
      exact h.pending_names q e he
    · rw [hg] at he
      exact h.pending_names q e (ConsumerGroup.mem_ack.mp he).1
  · rcases ack_groups s m q with ⟨hg, -⟩ | ⟨hg, hq⟩
    · rw [hg]
      exact fun e he => (h.covers q e he).imp_right (Or.imp_right Or.inr)
    · subst hq
      rw [hg]
      exact (h.covers m.1).ack (Or.inl rfl) fun _ => Or.inr
  · rcases hm' with rfl | hm'
    · exact hdone
    · exact h.acked_done m' hm'
  · rcases hm' with rfl | hm'
    · rcases ack_groups s m' m'.1 with ⟨-, hne⟩ | ⟨hg, -⟩
      · exact absurd rfl hne
      · rw [hg]
        exact ⟨(s.groups m'.1).le_delivered _ hm, fun c' hc' =>
          (ConsumerGroup.mem_ack.mp hc').2 rfl⟩
    · obtain ⟨hle, hnot⟩ := h.acked_not_pending m' hm'
      rcases ack_groups s m m'.1 with ⟨hg, -⟩ | ⟨hg, -⟩
      · rw [hg]
        exact ⟨hle, hnot⟩
      · rw [hg]
        exact ⟨hle, fun c' hc' => hnot c' (ConsumerGroup.mem_ack.mp hc').1⟩

end SharedInv

theorem frame_setGroup (hpending : ∀ id, (id, c) ∈ g.pending ↔ (id, c) ∈ (s.groups q).pending)
    (hdelivered : (s.groups q).lastDelivered ≤ g.lastDelivered) : Frame c s (s.setGroup q g) := by
  refine ⟨fun q' id => ?_, fun q' => ?_, fun _ => id⟩
  · by_cases hq : q' = q
    · subst hq
      rw [setGroup_self]
      exact hpending id
    · rw [setGroup_of_ne s g hq]
  · by_cases hq : q' = q
    · subst hq
      rwa [setGroup_self]
    · rw [setGroup_of_ne s g hq]

theorem frame_deliver (hne : c ≠ c') (hid : (s.groups q).next = some id) :
    Frame c s (s.setGroup q ((s.groups q).deliver c' id hid)) := by
  refine frame_setGroup (fun i => ?_) (ConsumerGroup.next_eq_some hid).1.le
  show (i, c) ∈ (s.groups q).pending ++ [(id, c')] ↔ _
  rw [List.mem_append, List.mem_singleton]
  exact or_iff_left fun h => hne (congrArg Prod.snd h)

theorem frame_ack (hne : c ≠ c') (hm : (m.2, c') ∈ (s.groups m.1).pending) :
    Frame c s (s.ack m) := by
  refine ⟨fun q id => ?_, fun q => ?_, fun _ h => h⟩
  · rcases SharedInv.ack_groups s m q with ⟨hg, -⟩ | ⟨hg, rfl⟩
    · rw [hg]
    · rw [hg, ConsumerGroup.mem_ack]
      refine and_iff_left_of_imp fun h heq => hne ?_
      exact ConsumerGroup.owner_unique (heq ▸ h) hm
  · rcases SharedInv.ack_groups s m q with ⟨hg, -⟩ | ⟨hg, -⟩
    · rw [hg]
    · rw [hg]
      exact le_rfl

/-- What is pending for the reader after a delivery. -/
theorem pending_deliver (hid : (s.groups q).next = some id) :
    (m.2, c) ∈ ((s.setGroup q ((s.groups q).deliver c id hid)).groups m.1).pending ↔
      m = (q, id) ∨ (m.2, c) ∈ (s.groups m.1).pending := by
  by_cases hq : m.1 = q
  · subst hq
    rw [setGroup_self]
    show (m.2, c) ∈ (s.groups m.1).pending ++ [(id, c)] ↔ _
    rw [List.mem_append, List.mem_singleton, or_comm, Prod.mk.injEq, and_iff_left rfl,
      Prod.ext_iff, and_iff_right rfl]
  · rw [setGroup_of_ne s _ hq]
    exact (or_iff_right fun h => hq (congrArg Prod.fst h)).symm

theorem grows_deliver (hid : (s.groups q).next = some id) :
    Grows c s (s.setGroup q ((s.groups q).deliver c id hid)) := by
  refine ⟨fun m hm => (pending_deliver hid).mpr (Or.inr hm), fun q' => ?_, fun _ h => h⟩
  by_cases hq : q' = q
  · subst hq
    rw [setGroup_self]
    exact (ConsumerGroup.next_eq_some hid).1.le
  · rw [setGroup_of_ne s _ hq]

end queues

section actions
variable [DecidableEq Q] [DecidableEq C]

/-! ### The executor that reads -/

theorem Collect.shared (hact : Collect names c s x s' x') (h : SharedInv names s)
    (hx : ExecutorInv names limit s c x) : SharedInv names s' := by
  cases hact with
  | new hcur _ hid =>
      have hq := hx.queues.2
      rw [hcur] at hq
      exact h.deliver (hq _ List.mem_cons_self) hid
  | newLost hcur hid =>
      have hq := hx.queues.2
      rw [hcur] at hq
      exact h.deliver (hq _ List.mem_cons_self) hid
  | _ => exact h

theorem Collect.frame (hact : Collect names c s x s' x') (hne : c' ≠ c) : Frame c' s s' := by
  cases hact with
  | new _ _ hid => exact frame_deliver hne hid
  | newLost _ hid => exact frame_deliver hne hid
  | _ => exact Frame.rfl c' s

theorem Collect.executor (hact : Collect names c s x s' x') (hnames : names.Nodup)
    (hs : SharedInv names s) (h : ExecutorInv names limit s c x) :
    ExecutorInv names limit s' c x' := by
  have hqueues := h.queues
  have hpassed := h.passed
  have hno : ∀ {m : Message Q}, (m.2, c) ∈ (s.groups m.1).pending → toLex (0, 0) < m.2 :=
    fun hm => (hs.pending_names _ _ hm).2
  cases hact with
  | @unacked q queues currentMin failed id hcur hreading hid =>
      rw [hcur] at hqueues hpassed
      obtain ⟨hpending, hlt, hfirst⟩ := ConsumerGroup.after_eq_some hid
      have hq : q ∉ queues := (List.nodup_cons.mp hqueues.1).1
      refine h.receive (Grows.rfl c s) hqueues hreading hpending (fun hmem => ?_) (fun m' hm' => ?_)
        fun m' hm' hp => ?_
      · exact absurd ((hpassed _ hmem).2 rfl) (not_le.mpr hlt)
      · rcases List.mem_cons.mp hm' with rfl | hm'
        · exact ⟨hq, fun _ => le_rfl⟩
        · exact ⟨(hpassed m' hm').1, fun hq' => ((hpassed m' hm').2 hq').trans hlt.le⟩
      · rw [hcur]
        by_cases hbefore : m'.1 = q → m'.2 ≤ currentMin
        · exact Or.inr ⟨hm', hp.1, hbefore⟩
        · obtain ⟨hq', hgt⟩ := Classical.not_imp.mp hbefore
          subst hq'
          refine Or.inl (Prod.ext rfl (le_antisymm (hp.2 rfl) ?_))
          exact hfirst _ hm' (not_le.mp hgt)
  | @noUnacked q queues currentMin failed hcur hid =>
      rw [hcur] at hqueues hpassed
      refine h.move (Grows.rfl c s) (queues_tail hqueues) (fun m hm => passed_next (hpassed m hm))
        fun hcalm => ⟨hcalm, fun m hm hp => ⟨hm, ?_⟩⟩
      rw [hcur]
      refine ⟨not_mem_of_passed (hno hm) hp, fun hq => ?_⟩
      subst hq
      exact ConsumerGroup.after_eq_none hid hm
  | unackedFails hcur hf =>
      rw [hcur] at hqueues hpassed
      -- The cursor stays where it is, so nothing is withheld.
      refine h.move (Grows.rfl c s) hqueues hpassed fun hcalm => ⟨hcalm, fun m hm hp => ⟨hm, ?_⟩⟩
      rw [hcur]
      exact hp
  | unackedGivesUp hcur hf =>
      rw [hcur] at hqueues hpassed
      exact h.move (Grows.rfl c s) (queues_tail hqueues) (fun m hm => passed_next (hpassed m hm))
        fun hcalm => nomatch hcalm
  | unackedRaises hcur =>
      exact h.move (Grows.rfl c s) ⟨List.nodup_nil, fun q hq => nomatch hq⟩ (fun _ _ => trivial)
        fun hcalm => nomatch hcalm
  | stopIteration hcur =>
      exact h.moveOn (fun m => hcur ▸ trivial) ⟨hnames, fun _ => id⟩ (fun _ => trivial)
  | begin hcur hreading =>
      exact h.moveOn (fun m => hcur ▸ trivial) ⟨hnames, fun _ => id⟩ (fun _ => trivial)
  | @new q queues failed id hcur hreading hid =>
      refine h.receive (grows_deliver hid) ⟨List.nodup_nil, fun q hq => nomatch hq⟩ hreading
        ((pending_deliver hid).mpr (Or.inl rfl)) (fun hmem => ?_) (fun _ _ => trivial)
        fun m' hm' _ => ?_
      · exact absurd (h.seen_le _ hmem) (not_le.mpr (ConsumerGroup.next_eq_some hid).1)
      · refine ((pending_deliver hid).mp hm').imp_right fun hm' => ⟨hm', ?_⟩
        rw [hcur]
        trivial
  | noNew hcur hid =>
      rw [hcur] at hqueues
      exact h.moveOn (fun m => hcur ▸ trivial) (queues_tail hqueues) (fun _ => trivial)
  | newLost hcur hid =>
      rw [hcur] at hqueues
      exact h.move (grows_deliver hid) (queues_retry hqueues _) (fun m _ => passed_retry _ _ m)
        fun hcalm => nomatch hcalm
  | newRefused hcur =>
      rw [hcur] at hqueues
      exact h.moveOn (fun m => hcur ▸ trivial) (queues_retry hqueues _) (passed_retry _ _)
  | nothing hcur hreading =>
      have hpermits := h.permits
      have hleave := h.limiter (l := ⟨x.limiter.permits, x.limiter.reading - 1,
        x.limiter.leaving + 1⟩) (by simp only; omega)
      refine hleave.moveOn (fun m => ?_) ⟨List.nodup_nil, fun q hq => nomatch hq⟩ (fun _ => trivial)
      show x.cursor.Passed m
      rw [hcur]
      trivial

end actions

section handle
variable [DecidableEq Q]

/-! ### The executor that has read -/

theorem fst_setStage (m : Message Q) (stage : Stage) (hands : List (Message Q × Stage)) :
    (hands.map fun e => if e.1 = m then (m, stage) else e).map Prod.fst = hands.map Prod.fst := by
  rw [List.map_map]
  refine List.map_congr_left fun e _ => ?_
  rw [Function.comp_apply]
  split_ifs with he
  · exact he.symm
  · rfl

/-- Where a key is there once, one entry is left out. -/
theorem length_filter_ne {hands : List (Message Q × Stage)} {stage : Stage}
    (hnodup : (hands.map Prod.fst).Nodup) (hm : (m, stage) ∈ hands) :
    (hands.filter fun e => e.1 ≠ m).length + 1 = hands.length := by
  have hone : (hands.map Prod.fst).count m = 1 :=
    List.count_eq_one_of_mem hnodup (List.mem_map_of_mem hm)
  rw [List.count_eq_countP, List.countP_map] at hone
  have hsplit :=
    List.length_eq_countP_add_countP (fun e : Message Q × Stage => e.1 == m) (l := hands)
  have hfilter : (hands.filter fun e => e.1 ≠ m).length =
      hands.countP fun e : Message Q × Stage => ¬(e.1 == m) = true := by
    rw [List.countP_eq_length_filter]
    simp
  have hcount : hands.countP (fun e : Message Q × Stage => e.1 == m) = 1 := hone
  omega

namespace ExecutorInv

theorem setStage (h : ExecutorInv names limit s c x) {stage : Stage}
    (hdone : stage = .done → s.done m) : ExecutorInv names limit s c (x.setStage m stage) := by
  have hmem : ∀ e ∈ (x.setStage m stage).hands,
      (e.1 ∈ x.hands.map Prod.fst) ∧ (e.2 = .done → s.done e.1) := by
    intro e he
    obtain ⟨e₀, he₀, rfl⟩ := List.mem_map.mp he
    have hfst : e₀.1 ∈ x.hands.map Prod.fst := List.mem_map_of_mem he₀
    split_ifs with heq
    · exact ⟨heq ▸ hfst, hdone⟩
    · exact ⟨hfst, h.hands_done e₀ he₀⟩
  refine ⟨h.queues, ?_, ?_, fun e he => ?_, fun e he => ?_, fun e he => (hmem e he).2,
    h.seen_nodup, h.seen_le, h.passed, h.complete⟩
  · show x.limiter.permits + x.limiter.reading + x.limiter.leaving + (x.hands.map _).length = limit
    rw [List.length_map]
    exact h.permits
  · show ((x.hands.map _).map Prod.fst).Nodup
    rw [fst_setStage]
    exact h.hands_nodup
  · obtain ⟨e₀, he₀, heq⟩ := List.mem_map.mp (hmem e he).1
    rw [← heq]
    exact h.hands_pending e₀ he₀
  · obtain ⟨e₀, he₀, heq⟩ := List.mem_map.mp (hmem e he).1
    rw [← heq]
    exact h.hands_seen e₀ he₀

theorem drop (h : ExecutorInv names limit s c x) {stage : Stage} (hm : (m, stage) ∈ x.hands) :
    ExecutorInv names limit s c (x.drop m) := by
  have hmem : ∀ e ∈ (x.drop m).hands, e ∈ x.hands := fun e he => (List.mem_filter.mp he).1
  refine ⟨h.queues, ?_, ?_,
    fun e he => h.hands_pending e (hmem e he), fun e he => h.hands_seen e (hmem e he),
    fun e he => h.hands_done e (hmem e he), h.seen_nodup, h.seen_le, h.passed, h.complete⟩
  · have hone := length_filter_ne h.hands_nodup hm
    have hpermits := h.permits
    show x.limiter.permits + x.limiter.reading + (x.limiter.leaving + 1) +
      (x.hands.filter fun e => e.1 ≠ m).length = limit
    omega
  · exact h.hands_nodup.sublist (List.filter_sublist.map _)

/-- The message that was acknowledged is not in the hands any more. -/
theorem ack (h : ExecutorInv names limit s c x) {stage : Stage} (hm : (m, stage) ∈ x.hands) :
    ExecutorInv names limit (s.ack m) c (x.drop m) := by
  have hd := h.drop hm
  have hback : ∀ m' : Message Q, (m'.2, c) ∈ ((s.ack m).groups m'.1).pending →
      (m'.2, c) ∈ (s.groups m'.1).pending := by
    intro m' hm'
    rcases SharedInv.ack_groups s m m'.1 with ⟨hg, -⟩ | ⟨hg, -⟩
    · rwa [hg] at hm'
    · rw [hg] at hm'
      exact (ConsumerGroup.mem_ack.mp hm').1
  have hle : ∀ q, ((s.ack m).groups q).lastDelivered = (s.groups q).lastDelivered := by
    intro q
    rcases SharedInv.ack_groups s m q with ⟨hg, -⟩ | ⟨hg, -⟩
    · rw [hg]
    · rw [hg]
      rfl
  refine ⟨hd.queues, hd.permits, hd.hands_nodup, fun e he => ?_, hd.hands_seen, hd.hands_done,
    hd.seen_nodup, fun m' hm' => ?_, hd.passed, fun hcalm m' hm' hp => ?_⟩
  · have hpending := hd.hands_pending e he
    have hne : e.1 ≠ m := by simpa using (List.mem_filter.mp he).2
    rcases SharedInv.ack_groups s m e.1.1 with ⟨hg, -⟩ | ⟨hg, hq⟩
    · rwa [hg]
    · rw [hg]
      exact ConsumerGroup.mem_ack.mpr ⟨hpending, fun hid => hne (Prod.ext hq hid)⟩
  · rw [hle]
    exact hd.seen_le m' hm'
  · exact h.complete hcalm m' (hback m' hm') hp

end ExecutorInv

theorem Handle.shared (hact : Handle s x s' x') (h : SharedInv names s)
    (hx : ExecutorInv names limit s c x) : SharedInv names s' := by
  cases hact with
  | reject hm => exact h.finish _
  | handled hm => exact h.finish _
  | acked hm => exact h.ack (hx.hands_pending _ hm) (hx.hands_done _ hm rfl)
  | _ => exact h

theorem Handle.frame (hact : Handle s x s' x') (hne : c' ≠ c)
    (hx : ExecutorInv names limit s c x) : Frame c' s s' := by
  cases hact with
  | reject hm => exact Frame.finish c' s _
  | handled hm => exact Frame.finish c' s _
  | acked hm => exact frame_ack hne (hx.hands_pending _ hm)
  | _ => exact Frame.rfl c' s

theorem Handle.executor (hact : Handle s x s' x') (h : ExecutorInv names limit s c x) :
    ExecutorInv names limit s' c x' := by
  cases hact with
  | accept hm => exact h.setStage fun hd => nomatch hd
  | reject hm => exact (h.frame (Frame.finish c s _)).setStage fun _ => Or.inl rfl
  | handled hm => exact (h.frame (Frame.finish c s _)).setStage fun _ => Or.inl rfl
  | raises hm => exact h.drop hm
  | acked hm => exact h.ack hm
  | ackRefused hm => exact h.drop hm

end handle

/-! ### Runs -/

/-- What holds in every state. -/
structure Inv (names : List Q) (limit : ℕ) (w : System Q C P) : Prop where
  shared : SharedInv names w.shared
  executor : ∀ c x, w.executors c = some x → ExecutorInv names limit w.shared c x

variable {w w' : System Q C P}

theorem started_inv (hnames : names.Nodup) (hs : SharedInv names s) :
    ExecutorInv names limit s c (started names limit) where
  queues := ⟨hnames, fun _ => id⟩
  permits := rfl
  hands_nodup := List.nodup_nil
  hands_pending e he := nomatch he
  hands_seen e he := nomatch he
  hands_done e he := nomatch he
  seen_nodup := List.nodup_nil
  seen_le m hm := nomatch hm
  passed m hm := nomatch hm
  complete _ m hm hp := by
    obtain ⟨hq, hlt⟩ := hs.pending_names _ _ hm
    exact absurd hq (not_mem_of_passed hlt hp)

/-- One executor acts; the others see no change. -/
theorem Inv.act [DecidableEq C] (h : Inv names limit w) (hs : SharedInv names s')
    (hx : ExecutorInv names limit s' c x') (hf : ∀ c', c' ≠ c → Frame c' w.shared s') :
    Inv names limit ⟨s', Function.update w.executors c (some x')⟩ := by
  refine ⟨hs, fun c' y hy => ?_⟩
  by_cases hc : c' = c
  · subst hc
    change Function.update w.executors c' (some x') c' = some y at hy
    rw [Function.update_self] at hy
    cases hy
    exact hx
  · change Function.update w.executors c (some x') c' = some y at hy
    rw [Function.update_of_ne hc] at hy
    exact (h.executor c' y hy).frame (hf c' hc)

section runs
variable [DecidableEq Q] [DecidableEq C]

theorem Inv.step (hnames : names.Nodup) (h : Inv names limit w) (hstep : Step names limit w w') :
    Inv names limit w' := by
  cases hstep with
  | produce q now fields =>
      refine ⟨h.shared.produce q now fields, fun c x hx => (h.executor c x hx).frame ?_⟩
      exact frame_setGroup (fun _ => Iff.rfl) le_rfl
  | start hc =>
      exact h.act h.shared (started_inv hnames h.shared) fun c' _ => Frame.rfl c' _
  | @stop c x hc =>
      refine ⟨h.shared, fun c' y hy => ?_⟩
      by_cases hcc : c' = c
      · subst hcc
        change Function.update w.executors c' none c' = some y at hy
        rw [Function.update_self] at hy
        cases hy
      · change Function.update w.executors c none c' = some y at hy
        rw [Function.update_of_ne hcc] at hy
        exact h.executor c' y hy
  | collect hc hact =>
      have hx := h.executor _ _ hc
      exact h.act (hact.shared h.shared hx) (hact.executor hnames h.shared hx)
        fun c' hne => hact.frame hne
  | handle hc hact =>
      have hx := h.executor _ _ hc
      exact h.act (hact.shared h.shared hx) (hact.executor hx) fun c' hne => hact.frame hne hx
  | limit hc hact =>
      exact h.act h.shared (hact.executor (h.executor _ _ hc)) fun c' _ => Frame.rfl c' _

theorem inv_reachable (hnames : names.Nodup) (h : Reachable names limit w) :
    Inv names limit w := by
  induction h with
  | refl =>
      exact ⟨⟨fun _ => le_rfl, fun _ e he => (nomatch he), fun _ e he => (nomatch he),
        fun _ hm => hm.elim, fun _ hm => hm.elim⟩, fun c x hx => (nomatch hx)⟩
  | tail _ hstep ih => exact ih.step hnames hstep

/-- No message is lost: each is still to be delivered, is pending for one executor, or was
acknowledged, and what was acknowledged is done. -/
theorem message_kept (hnames : names.Nodup) (h : Reachable names limit w) (q : Q) :
    (∀ e ∈ (w.shared.groups q).stream.entries,
      (w.shared.groups q).lastDelivered < e.1 ∨
        (∃ c, (e.1, c) ∈ (w.shared.groups q).pending ∧
          ∀ c', (e.1, c') ∈ (w.shared.groups q).pending → c' = c) ∨
        w.shared.acked (q, e.1)) ∧
      ∀ id, w.shared.acked (q, id) → w.shared.done (q, id) := by
  have hs := (inv_reachable hnames h).shared
  refine ⟨fun e he => ?_, fun id hid => hs.acked_done _ hid⟩
  rcases hs.covers q e he with hlt | ⟨c, hc⟩ | hack
  · exact Or.inl hlt
  · exact Or.inr (Or.inl ⟨c, hc, fun c' hc' => ConsumerGroup.owner_unique hc' hc⟩)
  · exact Or.inr (Or.inr hack)

/-- A message is in the hands of one executor at most, once, and not after it was acknowledged;
while it runs an executor is given a message once, and has no more in hand than the limit. -/
theorem message_once (hnames : names.Nodup) (h : Reachable names limit w) {c : C} {x : Executor Q}
    (hx : w.executors c = some x) :
    x.seen.Nodup ∧ (x.hands.map Prod.fst).Nodup ∧ x.hands.length ≤ limit ∧
      ∀ e ∈ x.hands, ¬ w.shared.acked e.1 ∧
        ∀ c' y, w.executors c' = some y → ∀ e' ∈ y.hands, e'.1 = e.1 → c' = c := by
  have hinv := inv_reachable hnames h
  have hc := hinv.executor c x hx
  refine ⟨hc.seen_nodup, hc.hands_nodup, hc.permits ▸ Nat.le_add_left _ _,
    fun e he => ⟨fun hack => ?_, ?_⟩⟩
  · exact (hinv.shared.acked_not_pending _ hack).2 c (hc.hands_pending e he)
  · intro c' y hy e' he' heq
    have hpending := (hinv.executor c' y hy).hands_pending e' he'
    rw [heq] at hpending
    exact ConsumerGroup.owner_unique hpending (hc.hands_pending e he)

/-- An executor from which no failed read has withheld a message has been given everything that is
pending for it as soon as it reads new messages. -/
theorem survivor_recovers (hnames : names.Nodup) (h : Reachable names limit w) {c : C}
    {x : Executor Q}
    (hx : w.executors c = some x) (hcalm : x.calm = true)
    (hfresh : x.cursor = .idle ∨ ∃ queues failed, x.cursor = .fresh queues failed) (m : Message Q)
    (hm : (m.2, c) ∈ (w.shared.groups m.1).pending) : m ∈ x.seen := by
  refine ((inv_reachable hnames h).executor c x hx).complete hcalm m hm ?_
  rcases hfresh with hcur | ⟨queues, failed, hcur⟩
  · rw [hcur]
    trivial
  · rw [hcur]
    trivial

end runs

/-! ### A run with one message -/

section one_message

/-- A message is in the queue `0`. -/
def produced : System ℕ ℕ ℕ :=
  { (System.initial : System ℕ ℕ ℕ) with
    shared := System.initial.shared.setGroup 0 ((System.initial.shared.groups 0).xadd 1 7) }

/-- The executor `5` runs. -/
def running (w : System ℕ ℕ ℕ) (x : Executor ℕ) : System ℕ ℕ ℕ :=
  { w with executors := Function.update w.executors 5 (some x) }

def exhausted : Executor ℕ := { started [0] 1 with cursor := .history [] (toLex (0, 0)) 0 }

def looking : Executor ℕ := { started [0] 1 with cursor := .fresh [0] 0 }

/-- Its one permit is taken. -/
def admitted : Executor ℕ := { looking with limiter := ⟨0, 1, 0⟩ }

def reader : Executor ℕ := admitted.receive (0, toLex (1, 0)) .idle

def looks : System ℕ ℕ ℕ :=
  running (running (running (running produced (started [0] 1)) exhausted) looking) admitted

/-- The executor has read the message. -/
def read : System ℕ ℕ ℕ :=
  ⟨looks.shared.setGroup 0 ((looks.shared.groups 0).deliver 5 (toLex (1, 0)) rfl),
    Function.update looks.executors 5 (some reader)⟩

theorem executors_running (w : System ℕ ℕ ℕ) (x : Executor ℕ) :
    (running w x).executors 5 = some x := by
  show Function.update w.executors 5 (some x) 5 = some x
  exact Function.update_self _ _ _

theorem executors_read : read.executors 5 = some reader := by
  show Function.update looks.executors 5 (some reader) 5 = some reader
  exact Function.update_self _ _ _

theorem reachable_read : Reachable [0] 1 read := by
  have hproduce : Reachable [0] 1 produced := .single (.produce 0 1 7)
  have hstart := hproduce.tail (.start (c := 5) rfl)
  have hnone := hstart.tail (.collect (executors_running produced _) (.noUnacked rfl rfl))
  have hstop := hnone.tail (.collect (executors_running _ exhausted) (.stopIteration rfl))
  have hacquire := hstop.tail (.limit (executors_running _ looking) (.acquire Nat.one_pos))
  exact hacquire.tail (.collect (executors_running _ admitted) (.new rfl Nat.one_pos rfl))

theorem message_kept_read :
    (toLex (1, 0), 5) ∈ (read.shared.groups 0).pending ∧
      (read.shared.acked (0, toLex (1, 0)) → read.shared.done (0, toLex (1, 0))) :=
  ⟨List.mem_singleton.mpr rfl,
    (message_kept (List.nodup_singleton 0) reachable_read 0).2 (toLex (1, 0))⟩

theorem message_once_read : reader.seen.Nodup ∧ reader.hands.length ≤ 1 := by
  obtain ⟨hseen, -, hbound, -⟩ :=
    message_once (List.nodup_singleton 0) reachable_read executors_read
  exact ⟨hseen, hbound⟩

theorem survivor_recovers_read : (0, toLex (1, 0)) ∈ reader.seen :=
  survivor_recovers (List.nodup_singleton 0) reachable_read executors_read rfl (Or.inl rfl)
    (0, toLex (1, 0)) (List.mem_singleton.mpr rfl)

end one_message

end RagFlow.TaskQueue
