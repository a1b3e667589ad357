import Mathlib.Algebra.Order.Field.Rat
import Mathlib.Algebra.BigOperators.Group.Finset.Piecewise
import Mathlib.Algebra.Order.BigOperators.Group.Finset
import Mathlib.Tactic.Linarith
import RagFlow.Db
import RagFlow.Interleave

/-! # The progress of a task

`TaskService.update_progress`, called by any number of executors at the same time.  A call reads
the task, takes the lock `update_progress`, writes the message and the number, and releases the
lock; every statement is atomic, and between two of them other calls may take steps.  On macOS
no lock is taken.  The tables are those of `Db` with the columns on progress; what the column
`progress` keeps of a number is a parameter.

* **The number.** It is written by an `UPDATE` whose `WHERE` clause looks at the stored value, so
  no order of the calls matters: `-1` stays, and otherwise the number only grows or becomes `-1`
  (`progress_advances`).  Nothing bounds a reported number by `1`.
* **The message.** It is computed from the row that was read before the lock was taken, so that
  the lock does not protect it: `message_lost` shows two calls of which one overwrites the
  message of the other.  `messages_kept` says that this is the only way: every message is there
  in a run in which each write finds the text as its call has read it, as long as the text stays
  within the limit, which `trim_header_by_lines` counts in characters. -/

namespace RagFlow.Progress

open Py Effect Effect.Pool

/-! ### The tables -/

/-- A task, with the columns on progress that `update_progress` and `_sync_progress` use. -/
structure TaskRow extends Task where
  beginAt : Option ℚ
  processDuration : ℚ
  progressMsg : Option Str
deriving DecidableEq

/-- The columns of a document on progress; `run` may be null. -/
structure DocRow where
  id : Str
  run : Option TaskStatus
  progress : ℚ
  progressMsg : Option Str
  processBeginAt : Option ℚ
  processDuration : ℚ
deriving DecidableEq

/-- The two tables, the columns `progress` in them, and the lock `update_progress`. -/
structure ProgressDb where
  column : FloatColumn
  tasks : Table TaskRow (·.id)
  docs : Table DocRow DocRow.id
  locked : Bool
  /-- The column keeps the numbers of the tasks. -/
  stored : ∀ t ∈ tasks, column.store t.progress = t.progress

/-- The exceptions of the two functions. -/
inductive Err where
  /-- Raised by the database, Redis or the lock. -/
  | failure
  | doesNotExist
  | keyError
  | typeError
  | attributeError
deriving DecidableEq

/-! ### Commands -/

/-- The columns an update of a document gives; `run` may be given as null. -/
structure DocInfo where
  run : Option (Option TaskStatus) := none
  progress : Option ℚ := none
  progressMsg : Option Str := none
  processBeginAt : Option ℚ := none
  processDuration : Option ℚ := none
deriving DecidableEq

def DocInfo.apply (column : FloatColumn) (u : DocInfo) (d : DocRow) : DocRow :=
  { d with
    run := u.run.getD d.run
    progress := (u.progress.map column.store).getD d.progress
    progressMsg := if u.progressMsg.isSome then u.progressMsg else d.progressMsg
    processBeginAt := if u.processBeginAt.isSome then u.processBeginAt else d.processBeginAt
    processDuration := u.processDuration.getD d.processDuration }

theorem DocInfo.apply_id (column : FloatColumn) (u : DocInfo) (d : DocRow) :
    (u.apply column d).id = d.id := rfl

inductive Cmd where
  /-- `Task.get_by_id`. -/
  | getTask (id : Str)
  | lock
  | unlock
  | setProgressMsg (id msg : Str)
  /-- The `UPDATE` of `progress` with its condition on the stored value. -/
  | raiseProgress (id : Str) (prog : ℚ)
  | setDuration (id : Str) (duration : ℚ)
  /-- `datetime.now()`. -/
  | now
  /-- `TaskService.query(doc_id=...)`. -/
  | tasksOf (docId : Str)
  /-- `DocumentService.get_by_id`. -/
  | getDoc (id : Str)
  /-- `get_queue_length`. -/
  | queueLength (priority : ℤ)
  /-- `DocumentService.update_by_id`. -/
  | updateById (id : Str) (info : DocInfo)
  /-- The update of a document that is not cancelled. -/
  | updateUncanceled (id : Str) (info : DocInfo)
  /-- `REDIS_CONN.set(f"{t.id}-cancel", "x")`. -/
  | cancelTask (id : Str)
  | deleteTasks (docId : Str)

abbrev Cmd.Ret : Cmd → Type
  | getTask _ => TaskRow
  | now => ℚ
  | tasksOf _ => List TaskRow
  | getDoc _ => Option DocRow
  | queueLength _ => ℕ
  | _ => Unit

/-- What the surroundings decide about a command: its fate, the time and the length of a queue. -/
structure Choice where
  fate : Fate := .served
  now : ℚ := 0
  lag : ℕ := 0

/-- The row after the conditional update of `progress`. -/
def TaskRow.raise (column : FloatColumn) (prog : ℚ) (t : TaskRow) : TaskRow :=
  { t with toTask := t.toTask.setProgress column (some prog) }

@[simp] theorem TaskRow.raise_id (column : FloatColumn) (prog : ℚ) (t : TaskRow) :
    (t.raise column prog).id = t.id := rfl

def TaskRow.setMsg (msg : Str) (t : TaskRow) : TaskRow := { t with progressMsg := some msg }

def TaskRow.setDuration (duration : ℚ) (t : TaskRow) : TaskRow :=
  { t with processDuration := duration }

/-- The row as a query gives it. -/
def TaskRow.read (column : FloatColumn) (t : TaskRow) : TaskRow :=
  { t with progress := column.read t.progress }

def DocRow.read (column : FloatColumn) (d : DocRow) : DocRow :=
  { d with progress := column.read d.progress }

/-- An update of a row that leaves its key and a number that the column keeps. -/
structure Keeping (column : FloatColumn) (f : TaskRow → TaskRow) : Prop where
  id : ∀ t, (f t).id = t.id
  stored : ∀ t, column.store t.progress = t.progress →
    column.store (f t).progress = (f t).progress

theorem TaskRow.setMsg_keeping (column : FloatColumn) (msg : Str) :
    Keeping column (TaskRow.setMsg msg) := ⟨fun _ => rfl, fun _ ht => ht⟩

theorem TaskRow.setDuration_keeping (column : FloatColumn) (duration : ℚ) :
    Keeping column (TaskRow.setDuration duration) := ⟨fun _ => rfl, fun _ ht => ht⟩

theorem TaskRow.raise_keeping (column : FloatColumn) (prog : ℚ) :
    Keeping column (TaskRow.raise column prog) where
  id _ := rfl
  stored t ht := by
    show column.store (t.nextProgress column (some prog)) = t.nextProgress column (some prog)
    unfold Task.nextProgress
    simp only
    split_ifs
    · exact column.store_store prog
    · exact ht

namespace ProgressDb

/-- `Task.get_by_id`. -/
def getTask (s : ProgressDb) (id : Str) : Except Err TaskRow :=
  match s.tasks.get? id with
  | some t => .ok (t.read s.column)
  | none => .error .doesNotExist

/-- `Task.update(...).where(Task.id == id)`. -/
def updateTask (s : ProgressDb) (id : Str) (f : TaskRow → TaskRow)
    (hf : Keeping s.column f) : ProgressDb :=
  { s with
    tasks := s.tasks.updateWhere (·.id = id) f hf.id
    stored := fun t ht => by
      rcases Table.mem_updateWhere.mp ht with ⟨ht, -⟩ | ⟨u, hu, -, rfl⟩
      · exact s.stored t ht
      · exact hf.stored u (s.stored u hu) }

theorem get?_updateTask {s : ProgressDb} {id : Str} {f : TaskRow → TaskRow}
    {hf : Keeping s.column f} (k : Str) : (s.updateTask id f hf).tasks.get? k =
      if k = id then (s.tasks.get? k).map f else s.tasks.get? k := by
  show (s.tasks.updateWhere (·.id = id) f hf.id).get? k = _
  rw [Table.get?_updateWhere]

/-- `Document.update(info).where(...)`. -/
def updateDocs (s : ProgressDb) (p : DocRow → Bool) (info : DocInfo) : ProgressDb :=
  { s with docs := s.docs.updateWhere p (info.apply s.column) (info.apply_id s.column) }

/-- `Task.delete().where(Task.doc_id == doc_id)`. -/
def deleteTasks (s : ProgressDb) (docId : Str) : ProgressDb :=
  { s with
    tasks := s.tasks.deleteWhere (·.docId = docId)
    stored := fun t ht => s.stored t (Table.mem_deleteWhere.mp ht).1 }

theorem mem_updateTask {s : ProgressDb} {id : Str} {f : TaskRow → TaskRow}
    {hf : Keeping s.column f} {t : TaskRow} : t ∈ (s.updateTask id f hf).tasks ↔
      (t ∈ s.tasks ∧ decide (t.id = id) = false) ∨
        ∃ u ∈ s.tasks, decide (u.id = id) = true ∧ f u = t := by
  show t ∈ s.tasks.updateWhere (·.id = id) f hf.id ↔ _
  rw [Table.mem_updateWhere]

theorem mem_updateDocs {s : ProgressDb} {p : DocRow → Bool} {info : DocInfo} {d : DocRow} :
    d ∈ (s.updateDocs p info).docs ↔
      (d ∈ s.docs ∧ p d = false) ∨ ∃ u ∈ s.docs, p u = true ∧ info.apply s.column u = d := by
  show d ∈ s.docs.updateWhere p (info.apply s.column) (info.apply_id s.column) ↔ _
  rw [Table.mem_updateWhere]

end ProgressDb

/-- The effect of a command that is served. -/
def Cmd.apply (x : Choice) : (c : Cmd) → ProgressDb → Except Err c.Ret × ProgressDb
  | getTask id, s => (s.getTask id, s)
  | lock, s => (.ok (), { s with locked := true })
  | unlock, s => (.ok (), { s with locked := false })
  | setProgressMsg id msg, s =>
      (.ok (), s.updateTask id (TaskRow.setMsg msg) (TaskRow.setMsg_keeping s.column msg))
  | raiseProgress id prog, s =>
      (.ok (), s.updateTask id (TaskRow.raise s.column prog) (TaskRow.raise_keeping s.column prog))
  | setDuration id duration, s =>
      (.ok (), s.updateTask id (TaskRow.setDuration duration)
        (TaskRow.setDuration_keeping s.column duration))
  | now, s => (.ok x.now, s)
  | tasksOf docId, s =>
      (.ok ((s.tasks.select (·.docId = docId)).map (TaskRow.read s.column)), s)
  | getDoc id, s => (.ok ((s.docs.get? id).map (DocRow.read s.column)), s)
  | queueLength _, s => (.ok x.lag, s)
  | updateById id info, s => (.ok (), s.updateDocs (·.id = id) info)
  | updateUncanceled id info, s =>
      (.ok (), s.updateDocs (fun d => d.id = id && d.run ≠ some .cancel) info)
  | cancelTask _, s => (.ok (), s)
  | deleteTasks docId, s => (.ok (), s.deleteTasks docId)

/-- The lock is waited for; any command may fail, before or after it has taken effect. -/
def serve : Handler Choice Cmd Cmd.Ret Err ProgressDb :=
  fun x c s =>
    match c with
    | .lock =>
        if s.locked && x.fate ≠ .refused then none
        else some (x.fate.reply .failure s (Cmd.apply x .lock s))
    | c => some (x.fate.reply .failure s (c.apply x s))

abbrev ProgressProg := Prog Cmd Cmd.Ret Err

/-- Programs on the tables, running at the same time. -/
abbrev ProgressPool (ι : Type) := Pool ι Cmd Cmd.Ret Err ProgressDb Unit

theorem serve_cases {x : Choice} {c : Cmd} {s s' : ProgressDb} {r : Except Err c.Ret}
    (h : serve x c s = some (r, s')) :
    (r = (c.apply x s).1 ∧ s' = (c.apply x s).2) ∨
      (r = .error .failure ∧ (s' = s ∨ s' = (c.apply x s).2)) := by
  unfold serve at h
  split at h
  · split_ifs at h
    exact Fate.reply_cases (Option.some.inj h)
  · exact Fate.reply_cases (Option.some.inj h)

/-! ### `update_progress` -/

/-- The text after the first line break from which at most `max` characters are left; `rest` is
the text from the position reached. -/
def trimFrom (text : Str) (max : ℕ) : Str → Str
  | [] => text
  | c :: rest => if c = '\n' ∧ (c :: rest).length ≤ max then rest else trimFrom text max rest

/-- `trim_header_by_lines`, which counts characters. -/
def trimHeaderByLines (text : Str) (max : ℕ) : Str :=
  if text.length ≤ max then text else trimFrom text max text

/-- `info`: a key may be missing. -/
structure Info where
  progressMsg : Option Str
  progress : Option ℚ
deriving DecidableEq

/-- A call, and whether the variable `MACOS` is set where it is made. -/
structure UpdateCall where
  macos : Bool
  id : Str
  info : Info
deriving DecidableEq

/-- The new message, after what the task had when it was read. -/
def writeMsg (id : Str) (info : Info) (task : TaskRow) : ProgressProg Unit :=
  match info.progressMsg with
  | none => throw .keyError
  | some [] => pure ()
  | some msg =>
      match task.progressMsg with
      | none => throw .typeError
      | some old =>
          Prog.perform (C := Cmd) (.setProgressMsg id (trimHeaderByLines (old ++ '\n' :: msg) 3000))

def writeProgress (id : Str) (info : Info) : ProgressProg Unit :=
  match info.progress with
  | none => pure ()
  | some prog => Prog.perform (C := Cmd) (.raiseProgress id prog)

/-- `with DB.lock("update_progress", -1)`, except on macOS. -/
def locking (macos : Bool) (body : ProgressProg Unit) : ProgressProg Unit :=
  match macos with
  | true => body
  | false => do
      Prog.perform (C := Cmd) .lock
      Prog.tryFinally body (Prog.perform (C := Cmd) .unlock)

def writeDuration (id : Str) (task : TaskRow) : ProgressProg Unit :=
  match task.beginAt with
  | none => throw .typeError
  | some beginAt => do
      let now ← Prog.perform (C := Cmd) .now
      Prog.perform (C := Cmd) (.setDuration id (now - beginAt))

/-- `TaskService.update_progress`. -/
def updateProgress (call : UpdateCall) : ProgressProg Unit := do
  let task ← Prog.perform (C := Cmd) (.getTask call.id)
  locking call.macos (do
    writeMsg call.id call.info task
    writeProgress call.id call.info)
  writeDuration call.id task

/-! ### What a call does to its task -/

/-- What a call has read of the message, and whether it has written it. -/
inductive Seen where
  | fresh
  | read (msg : Option Str)
  | wrote
  /-- The write has failed, and may have taken effect. -/
  | failed
deriving DecidableEq

def Seen.next (g : Seen) : (c : Cmd) → Except Err c.Ret → Seen
  | .getTask _, .ok t => read t.progressMsg
  | .setProgressMsg .., .ok _ => wrote
  | .setProgressMsg .., .error _ => failed
  | _, _ => g

/-- The message of a call. -/
def UpdateCall.message (call : UpdateCall) : Str := call.info.progressMsg.getD []

/-- A call reads its task once and writes no other: the number it reports, and once the message
after what it has read. -/
def UpdateCall.allows (call : UpdateCall) (g : Seen) : Cmd → Prop
  | .setProgressMsg id msg => id = call.id ∧ ∃ old, g = .read (some old) ∧
      msg = trimHeaderByLines (old ++ '\n' :: call.message) 3000
  | .raiseProgress id prog => id = call.id ∧ call.info.progress = some prog
  | .getTask _ => g = .fresh
  | .lock | .unlock | .setDuration .. | .now => True
  | _ => False

def UpdateCall.updating (call : UpdateCall) : Protocol Cmd Cmd.Ret Err Seen :=
  ⟨call.allows, Seen.next⟩

/-- A call that returns has written its message, if it has one. -/
def UpdateCall.Delivered (call : UpdateCall) (g : Seen) (r : Except Err Unit) : Prop :=
  r = .ok () → g = .wrote ∨ call.message = []

section follows
variable (call : UpdateCall)

theorem writeMsg_follows (task : TaskRow) :
    Follows call.updating call.Delivered (.read task.progressMsg)
      (writeMsg call.id call.info task) := by
  unfold writeMsg
  split
  · exact Follows.throw (fun h => by cases h)
  · next hmsg => exact Follows.pure (fun _ => .inr (by simp [UpdateCall.message, hmsg]))
  · next msg _ hmsg =>
      split
      · exact Follows.throw (fun h => by cases h)
      · next old hold =>
          refine Follows.perform ⟨rfl, old, by rw [hold], ?_⟩ (fun r => ?_)
          · simp only [UpdateCall.message, hmsg, Option.getD_some]
          · cases r with
            | ok _ => exact fun _ => .inl rfl
            | error e => exact fun h => by cases h

theorem writeProgress_follows (g : Seen) :
    Follows call.updating (fun g' _ => g' = g) g (writeProgress call.id call.info) := by
  unfold writeProgress
  split
  · exact Follows.pure rfl
  · next prog hprog => exact Follows.perform ⟨rfl, hprog⟩ (fun _ => rfl)

theorem locking_follows {g : Seen} {body : ProgressProg Unit}
    (hbody : Follows call.updating call.Delivered g body) :
    Follows call.updating call.Delivered g (locking call.macos body) := by
  unfold locking
  cases call.macos with
  | true => exact hbody
  | false =>
      refine Follows.perform_bind trivial (fun _ => ?_) (fun e h => by cases h)
      refine Follows.tryFinally hbody (fun g r hr => Follows.perform trivial (fun x => ?_))
      exact ⟨fun _ => hr, fun e _ h => by cases h⟩

theorem writeDuration_follows {g : Seen} (task : TaskRow) :
    Follows call.updating (fun g' _ => g' = g) g (writeDuration call.id task) := by
  unfold writeDuration
  split
  · exact Follows.throw rfl
  · refine Follows.perform_bind trivial (fun now => ?_) (fun e => rfl)
    exact Follows.perform trivial (fun _ => rfl)

theorem updateProgress_follows :
    Follows call.updating call.Delivered .fresh (updateProgress call) := by
  refine Follows.perform_bind rfl (fun task => ?_) (fun e h => by cases h)
  refine Follows.bind (locking_follows call ?_) (fun g _ h => ?_) (fun g e h => h)
  · refine Follows.bind (writeMsg_follows call task) (fun g _ h => ?_) (fun g e h => h)
    exact (writeProgress_follows call g).weaken (fun g' r hg' _ => hg' ▸ h rfl)
  · exact (writeDuration_follows call task).weaken (fun g' r hg' _ => hg' ▸ h rfl)

end follows

/-! ### The number -/

section number

/-- The number of a task may become `new` when the numbers in `reported` are reported: one that is
greater than the old one, as the column keeps it, or `-1`. -/
def Advances (column : FloatColumn) (reported : ℚ → Prop) (old new : ℚ) : Prop :=
  new = old ∨ (old ≠ -1 ∧ ∃ v, reported v ∧ new = column.store v ∧
    (new = -1 ∨ (old < v ∧ old ≤ new)))

namespace Advances
variable {column : FloatColumn} {reported : ℚ → Prop} {a b c : ℚ}

theorem refl (a : ℚ) : Advances column reported a a := .inl rfl

theorem trans (hab : Advances column reported a b) (hbc : Advances column reported b c) :
    Advances column reported a c := by
  rcases hab with rfl | ⟨ha, v, hv, rfl, hab⟩
  · exact hbc
  · rcases hbc with rfl | ⟨hb, u, hu, rfl, hbc⟩
    · exact .inr ⟨ha, v, hv, rfl, hab⟩
    · refine .inr ⟨ha, u, hu, rfl, ?_⟩
      rcases hbc with hbc | ⟨hlt, hle⟩
      · exact .inl hbc
      · have hold := (hab.resolve_left hb).2
        exact .inr ⟨lt_of_le_of_lt hold hlt, hold.trans hle⟩

end Advances

theorem nextProgress_advances {column : FloatColumn} {reported : ℚ → Prop} {prog : ℚ}
    (hprog : reported prog) {t : Task} (ht : column.store t.progress = t.progress) :
    Advances column reported t.progress (t.nextProgress column (some prog)) := by
  unfold Task.nextProgress
  simp only
  split_ifs with h
  · rw [Bool.and_eq_true, Bool.or_eq_true, decide_eq_true_eq, decide_eq_true_eq,
      decide_eq_true_eq] at h
    obtain ⟨hne, hnew⟩ := h
    refine .inr ⟨hne, prog, hprog, rfl, hnew.imp (fun heq => ?_) (fun hlt => ⟨hlt, ?_⟩)⟩
    · rw [heq]
      exact column.store_neg_one
    · -- The old number is kept as it is, and the column keeps the order.
      calc t.progress = column.store t.progress := ht.symm
        _ ≤ column.store prog := column.store_mono hlt.le
  · exact .inl rfl

variable {ι : Type} (calls : ι → UpdateCall)

/-- The numbers that the calls report about a task. -/
def Reported (id : Str) (v : ℚ) : Prop := ∃ i, (calls i).id = id ∧ (calls i).info.progress = some v

/-- The rows of two tables have the same keys, and their numbers have advanced. -/
def TasksAdvance (s s' : ProgressDb) : Prop :=
  s'.column = s.column ∧ ∀ id t, s.tasks.get? id = some t →
    ∃ t', s'.tasks.get? id = some t' ∧
      Advances s.column (Reported calls id) t.progress t'.progress

variable {calls}

theorem TasksAdvance.refl (s : ProgressDb) : TasksAdvance calls s s :=
  ⟨rfl, fun _ t ht => ⟨t, ht, Advances.refl _⟩⟩

theorem TasksAdvance.trans {s₁ s₂ s₃ : ProgressDb} (h : TasksAdvance calls s₁ s₂)
    (h' : TasksAdvance calls s₂ s₃) : TasksAdvance calls s₁ s₃ := by
  refine ⟨h'.1.trans h.1, fun id t ht => ?_⟩
  obtain ⟨t₂, ht₂, hadv⟩ := h.2 id t ht
  obtain ⟨t₃, ht₃, hadv'⟩ := h'.2 id t₂ ht₂
  rw [h.1] at hadv'
  exact ⟨t₃, ht₃, hadv.trans hadv'⟩

/-- An update of one task that advances its number. -/
theorem TasksAdvance.updateTask {s : ProgressDb} {id : Str} {f : TaskRow → TaskRow}
    (hf : Keeping s.column f)
    (hadv : ∀ t ∈ s.tasks, Advances s.column (Reported calls id) t.progress (f t).progress) :
    TasksAdvance calls s (s.updateTask id f hf) := by
  refine ⟨rfl, fun k t ht => ?_⟩
  have hmem : t ∈ s.tasks := (Table.get?_eq_some.mp ht).1
  rw [ProgressDb.get?_updateTask, ht]
  by_cases hk : k = id
  · subst hk
    exact ⟨f t, by simp, hadv t hmem⟩
  · exact ⟨t, by simp [hk], Advances.refl _⟩

theorem apply_advances {i : ι} {g : Seen} {c : Cmd} (hallows : (calls i).allows g c) (x : Choice)
    (s : ProgressDb) : TasksAdvance calls s (c.apply x s).2 := by
  cases c with
  | getTask _ | lock | unlock | now => exact TasksAdvance.refl _
  | setProgressMsg id msg =>
      exact TasksAdvance.updateTask (TaskRow.setMsg_keeping s.column msg)
        (fun t _ => Advances.refl _)
  | setDuration id d =>
      exact TasksAdvance.updateTask (TaskRow.setDuration_keeping s.column d)
        (fun t _ => Advances.refl _)
  | raiseProgress id prog =>
      obtain ⟨rfl, hprog⟩ := hallows
      exact TasksAdvance.updateTask (TaskRow.raise_keeping s.column prog)
        (fun t ht => nextProgress_advances ⟨i, rfl, hprog⟩ (s.stored t ht))
  | tasksOf _ | getDoc _ | queueLength _ | updateById _ _ | updateUncanceled _ _ | cancelTask _
    | deleteTasks _ => exact hallows.elim

/-- One step of one call. -/
theorem serve_advances {i : ι} {g : Seen} {c : Cmd} (hallows : (calls i).allows g c) {x : Choice}
    {s s' : ProgressDb} {r : Except Err c.Ret} (h : serve x c s = some (r, s')) :
    TasksAdvance calls s s' := by
  rcases serve_cases h with ⟨-, rfl⟩ | ⟨-, rfl | rfl⟩
  · exact apply_advances hallows x s
  · exact TasksAdvance.refl _
  · exact apply_advances hallows x s

variable [DecidableEq ι]

/-- Any number of steps between two reachable pools. -/
theorem reaches_advances {s : ProgressDb} {p q : ProgressPool ι}
    (hp : Reaches serve anyStep (start s (fun i => updateProgress (calls i))) p)
    (hq : Reaches serve anyStep p q) : TasksAdvance calls p.state q.state := by
  induction hq with
  | refl => exact TasksAdvance.refl _
  | @tail m q hm hlast ih =>
      obtain ⟨i, c, x, r, hallows, -, hserve⟩ :=
        Reaches.issued (P := fun i => (calls i).updating) (g := fun _ => .fresh)
          (fun i => updateProgress_follows (calls i)) (hp.trans hm) hlast
      exact ih.trans (serve_advances hallows hserve)

/-- From any state that the calls reach to any later one: a failed task stays failed, otherwise the
number grows or becomes `-1`; and `1` is left only by `-1` or by what the column keeps of a larger
number that a call has reported. -/
theorem progress_advances (calls : ι → UpdateCall) {s : ProgressDb} {p q : ProgressPool ι}
    (hp : Reaches serve anyStep (start s (fun i => updateProgress (calls i))) p)
    (hq : Reaches serve anyStep p q) {id : Str} {t : TaskRow}
    (ht : p.state.tasks.get? id = some t) :
    ∃ t', q.state.tasks.get? id = some t' ∧
      (t.progress = -1 → t'.progress = -1) ∧
      (t'.progress = -1 ∨ t.progress ≤ t'.progress) ∧
      (t.progress = 1 → t'.progress = 1 ∨ t'.progress = -1 ∨
        (1 < t'.progress ∧ ∃ v, Reported calls id v ∧ 1 < v ∧ t'.progress = s.column.store v)) := by
  obtain ⟨t', ht', hadv⟩ := (reaches_advances hp hq).2 id t ht
  rw [(reaches_advances Relation.ReflTransGen.refl hp).1] at hadv
  refine ⟨t', ht', ?_⟩
  rcases hadv with heq | ⟨hne, v, hv, hstore, hnew⟩
  · rw [heq]
    exact ⟨fun h => h, .inr le_rfl, .inl⟩
  · refine ⟨fun h => absurd h hne, hnew.imp_right And.right, fun hone => ?_⟩
    rw [hone] at hnew
    rcases hnew with hneg | ⟨hlt, hle⟩
    · exact .inr (.inl hneg)
    · rcases hle.eq_or_lt with heq | habove
      · exact .inl heq.symm
      · exact .inr (.inr ⟨habove, v, hv, hlt, hstore⟩)

/-! A task with progress `1`, of which a number above `1` is reported. -/

/-- A task as it is queued. -/
def queuedTask (id : Str) (progress : ℚ) : TaskRow :=
  { id, docId := "doc", fromPage := 0, toPage := 100000000, taskType := [], priority := 0,
    progress, digest := [], chunkIds := [], createTime := 0, beginAt := some 0,
    processDuration := 0, progressMsg := some [] }

/-- A table with one task, whose number is kept in single precision. -/
def oneTask (progress : ℚ) (h : FloatColumn.single.store progress = progress) : ProgressDb :=
  ⟨.single, ⟨[queuedTask "task" progress], List.nodup_singleton _⟩, Table.empty, false,
    fun t ht => by
      cases List.mem_singleton.mp ht
      exact h⟩

/-- Calls that report one number each. -/
def reporting (prog : ℚ) (_ : Unit) : UpdateCall := ⟨false, "task", ⟨some [], some prog⟩⟩

def reportingPool (progress prog : ℚ) (h : FloatColumn.single.store progress = progress) :
    ProgressPool Unit :=
  start (oneTask progress h) (fun i => updateProgress (reporting prog i))

/-- All steps of one call. -/
def reportingRun : List (Unit × Choice) := List.replicate 6 ((), {})

theorem progress_advances_to_half :
    ∃ q t', play serve anyStep reportingRun
        (reportingPool 0 (1 / 2) FloatColumn.single.store_zero) = some q ∧
      q.state.tasks.get? "task" = some t' ∧ (t'.progress = -1 ∨ 0 ≤ t'.progress) := by
  refine ⟨_, _, rfl, rfl, ?_⟩
  have ht : (reportingPool 0 (1 / 2) FloatColumn.single.store_zero).state.tasks.get? "task" =
      some (queuedTask "task" 0) := rfl
  obtain ⟨t', ht', -, h, -⟩ := progress_advances (reporting (1 / 2))
    Relation.ReflTransGen.refl (play_reaches reportingRun rfl) ht
  cases ht'
  exact h

theorem progress_leaves_one :
    ∃ q t', Reaches serve anyStep (reportingPool 1 (5 / 4) FloatColumn.single.store_one) q ∧
      q.state.tasks.get? "task" = some t' ∧ t'.progress ≠ 1 ∧ t'.progress ≠ -1 := by
  have hplay : ∃ q t', play serve anyStep reportingRun
      (reportingPool 1 (5 / 4) FloatColumn.single.store_one) = some q ∧
      q.state.tasks.get? "task" = some t' ∧ t'.progress = 5 / 4 :=
    ⟨_, _, rfl, rfl, by decide +kernel⟩
  obtain ⟨q, t', hplay, ht', hprog⟩ := hplay
  refine ⟨q, t', play_reaches _ hplay, ht', ?_, ?_⟩
  · norm_num [hprog]
  · norm_num [hprog]

end number

/-! ### The message -/

/-- The stored message of a task. -/
def ProgressDb.message (s : ProgressDb) (id : Str) : Str :=
  ((s.tasks.get? id).bind (·.progressMsg)).getD []

section message
variable {ι : Type} [DecidableEq ι]

/-- What the call has read of the message. -/
def lastSeen (p : ProgressPool ι) (i : ι) : Seen :=
  (own i p.trace).foldl (fun g e => g.next e.cmd e.reply) .fresh

/-- A write of the message finds the row as its call has read it. -/
def Current (p : ProgressPool ι) (i : ι) : Cmd → Prop
  | .setProgressMsg id _ =>
      some (lastSeen p i) = (p.state.tasks.get? id).map (fun t => .read t.progressMsg)
  | _ => True

instance (p : ProgressPool ι) (i : ι) (c : Cmd) : Decidable (Current p i c) := by
  cases c with
  | setProgressMsg id msg => exact inferInstanceAs (Decidable (_ = _))
  | _ => exact inferInstanceAs (Decidable True)

/-- The call has tried to write. -/
def Seen.spent : Seen → Bool
  | wrote | failed => true
  | fresh | read _ => false

/-- What a call adds to the text at most. -/
def UpdateCall.cost (call : UpdateCall) (g : Seen) : ℕ :=
  if g.spent then call.message.length + 1 else 0

theorem UpdateCall.cost_of_spent {call : UpdateCall} {g : Seen} (h : g.spent = true) :
    call.cost g = call.message.length + 1 := by
  unfold UpdateCall.cost
  rw [if_pos h]

theorem UpdateCall.cost_of_not_spent {call : UpdateCall} {g : Seen} (h : g.spent = false) :
    call.cost g = 0 := by
  unfold UpdateCall.cost
  rw [h]
  rfl

theorem UpdateCall.cost_le (call : UpdateCall) (g : Seen) :
    call.cost g ≤ call.message.length + 1 := by
  unfold UpdateCall.cost
  split_ifs
  · exact le_rfl
  · exact Nat.zero_le _

variable (calls : ι → UpdateCall) (id : Str) (initial : Str)

/-- The text is no longer than what the calls have added, and has the messages of those that
have written. -/
structure Kept [Fintype ι] (s : ProgressDb) (g : ι → Seen) : Prop where
  bound : (s.message id).length ≤ initial.length + ∑ i, (calls i).cost (g i)
  wrote : ∀ i, g i = .wrote → (calls i).message <:+: s.message id

theorem sum_cost_update [Fintype ι] (g : ι → Seen) (i : ι) (g' : Seen) :
    ∑ j, (calls j).cost (Function.update g i g' j) + (calls i).cost (g i) =
      ∑ j, (calls j).cost (g j) + (calls i).cost g' := by
  have hupdate : (fun j => (calls j).cost (Function.update g i g' j)) =
      Function.update (fun j => (calls j).cost (g j)) i ((calls i).cost g') :=
    funext (fun j => Function.apply_update (fun j => (calls j).cost) g i g' j)
  rw [hupdate, Finset.sum_update_of_mem (Finset.mem_univ i),
    Finset.sum_eq_add_sum_sdiff_singleton_of_mem (Finset.mem_univ i)]
  omega

variable {calls id initial}

theorem message_updateTask {s : ProgressDb} {k : Str} {f : TaskRow → TaskRow}
    (hf : Keeping s.column f) (hmsg : ∀ t, (f t).progressMsg = t.progressMsg) :
    (s.updateTask k f hf).message id = s.message id := by
  unfold ProgressDb.message
  rw [ProgressDb.get?_updateTask]
  split_ifs
  · cases s.tasks.get? id with
    | none => rfl
    | some t => simp [hmsg]
  · rfl

/-- Only the one command writes the message. -/
theorem apply_message {call : UpdateCall} {g : Seen} {c : Cmd} (hallows : call.allows g c)
    (hc : ∀ k msg, c ≠ .setProgressMsg k msg) (x : Choice) (s : ProgressDb) :
    (c.apply x s).2.message id = s.message id := by
  cases c with
  | setProgressMsg k msg => exact absurd rfl (hc k msg)
  | getTask _ | lock | unlock | now => rfl
  | raiseProgress k prog =>
      exact message_updateTask (TaskRow.raise_keeping s.column prog) (fun _ => rfl)
  | setDuration k d =>
      exact message_updateTask (TaskRow.setDuration_keeping s.column d) (fun _ => rfl)
  | tasksOf _ | getDoc _ | queueLength _ | updateById _ _ | updateUncanceled _ _ | cancelTask _
    | deleteTasks _ => exact hallows.elim

variable [Fintype ι]

/-- A step that leaves the message alone. -/
theorem Kept.stay {s s' : ProgressDb} {g : ι → Seen} {i : ι} {g' : Seen}
    (h : Kept calls id initial s g) (hs : s'.message id = s.message id)
    (hspent : (g i).spent = true → g'.spent = true) (hwrote : g' = .wrote → g i = .wrote) :
    Kept calls id initial s' (Function.update g i g') := by
  have hcost : (calls i).cost (g i) ≤ (calls i).cost g' := by
    cases hg : (g i).spent with
    | true => rw [UpdateCall.cost_of_spent hg, UpdateCall.cost_of_spent (hspent hg)]
    | false =>
        rw [UpdateCall.cost_of_not_spent hg]
        exact Nat.zero_le _
  have hsum := sum_cost_update calls g i g'
  have hbound := h.bound
  refine ⟨?_, fun j hj => ?_⟩
  · rw [hs]
    omega
  · rw [hs]
    by_cases hij : j = i
    · subst hij
      rw [Function.update_self] at hj
      exact h.wrote j (hwrote hj)
    · rw [Function.update_of_ne hij] at hj
      exact h.wrote j hj

/-- A message that is appended to the stored text. -/
theorem Kept.append {s s' : ProgressDb} {g : ι → Seen} {i : ι} {g' : Seen}
    (h : Kept calls id initial s g) (hs : s'.message id = s.message id ++ '\n' :: (calls i).message)
    (hspent : (g i).spent = false) (hspent' : g'.spent = true) :
    Kept calls id initial s' (Function.update g i g') := by
  have hsum := sum_cost_update calls g i g'
  rw [UpdateCall.cost_of_not_spent hspent, UpdateCall.cost_of_spent hspent'] at hsum
  have hbound := h.bound
  refine ⟨?_, fun j hj => ?_⟩
  · rw [hs, List.length_append, List.length_cons]
    omega
  · rw [hs]
    by_cases hij : j = i
    · subst hij
      exact (List.suffix_cons _ _).isInfix.trans (List.suffix_append _ _).isInfix
    · rw [Function.update_of_ne hij] at hj
      exact (h.wrote j hj).trans (List.prefix_append _ _).isInfix

theorem trimHeaderByLines_of_le {text : Str} {max : ℕ} (h : text.length ≤ max) :
    trimHeaderByLines text max = text := by
  unfold trimHeaderByLines
  rw [if_pos h]

/-- The text that a call is about to write is within the limit. -/
theorem Kept.fits {s : ProgressDb} {g : ι → Seen} {i : ι} (h : Kept calls id initial s g)
    (hlimit : initial.length + ∑ i, ((calls i).message.length + 1) ≤ 3000)
    (hspent : (g i).spent = false) :
    (s.message id ++ '\n' :: (calls i).message).length ≤ 3000 := by
  have hsum := sum_cost_update calls g i .wrote
  rw [UpdateCall.cost_of_not_spent hspent, UpdateCall.cost_of_spent rfl] at hsum
  have hle : ∑ j, (calls j).cost (Function.update g i .wrote j) ≤
      ∑ j, ((calls j).message.length + 1) := Finset.sum_le_sum (fun j _ => UpdateCall.cost_le _ _)
  have hbound := h.bound
  rw [List.length_append, List.length_cons]
  omega

/-- What the task has is what the call has read. -/
theorem message_of_current {s : ProgressDb} {old : Str}
    (h : some (Seen.read (some old)) = (s.tasks.get? id).map (fun t => .read t.progressMsg)) :
    (∃ t, s.tasks.get? id = some t) ∧ s.message id = old := by
  obtain ⟨t, ht, hseen⟩ := Option.map_eq_some_iff.mp h.symm
  injection hseen with hmsg
  refine ⟨⟨t, ht⟩, ?_⟩
  unfold ProgressDb.message
  rw [ht, Option.bind_some, hmsg]
  rfl

theorem message_setProgressMsg {s : ProgressDb} {t : TaskRow} (ht : s.tasks.get? id = some t)
    (msg : Str) (x : Choice) : ((Cmd.setProgressMsg id msg).apply x s).2.message id = msg := by
  unfold ProgressDb.message Cmd.apply
  simp only [ProgressDb.get?_updateTask, ht]
  rfl

theorem kept_step (hid : ∀ i, (calls i).id = id)
    (hlimit : initial.length + ∑ i, ((calls i).message.length + 1) ≤ 3000)
    {s s' : ProgressDb} {g : ι → Seen} {i : ι} {c : Cmd} {x : Choice} {r : Except Err c.Ret}
    (h : Kept calls id initial s g) (hallows : (calls i).allows (g i) c)
    (hcurrent : ∀ k msg, c = .setProgressMsg k msg →
      some (g i) = (s.tasks.get? k).map (fun t => .read t.progressMsg))
    (hserve : serve x c s = some (r, s')) :
    Kept calls id initial s' (Function.update g i ((g i).next c r)) := by
  by_cases hc : ∀ k msg, c ≠ .setProgressMsg k msg
  · have hmsg : s'.message id = s.message id := by
      rcases serve_cases hserve with ⟨-, rfl⟩ | ⟨-, rfl | rfl⟩
      · exact apply_message hallows hc x s
      · rfl
      · exact apply_message hallows hc x s
    cases c with
    | setProgressMsg k msg => exact absurd rfl (hc k msg)
    | getTask k =>
        have hfresh : g i = .fresh := hallows
        have hspent : ¬(g i).spent = true := by
          rw [hfresh]
          exact Bool.false_ne_true
        refine h.stay hmsg (fun hs => absurd hs hspent) (fun hw => ?_)
        rw [hfresh] at hw
        cases r with
        | ok t => cases hw
        | error e => cases hw
    | _ => exact h.stay hmsg (fun hs => hs) (fun hw => hw)
  · push Not at hc
    obtain ⟨k, msg, rfl⟩ := hc
    obtain ⟨rfl, old, hread, rfl⟩ := hallows
    have hrow := hcurrent _ _ rfl
    rw [hid i] at hserve hrow
    rw [hread] at hrow ⊢
    obtain ⟨⟨t, ht⟩, hold⟩ := message_of_current hrow
    have hspent : (g i).spent = false := by
      rw [hread]
      rfl
    have hfits := h.fits hlimit hspent
    rw [hold] at hfits
    rw [trimHeaderByLines_of_le hfits] at hserve
    have hmsg := message_setProgressMsg ht (s.message id ++ '\n' :: (calls i).message) x
    rw [← hold] at hserve
    rcases serve_cases hserve with ⟨rfl, rfl⟩ | ⟨rfl, rfl | rfl⟩
    · exact h.append hmsg hspent rfl
    · exact h.stay rfl (fun _ => rfl) (fun hw => by cases hw)
    · exact h.append hmsg hspent rfl

/-- In every run in which the writes of the message find the text as their calls have read it,
the text has the messages of all calls that have returned, provided that it cannot get longer
than `3000` characters. -/
theorem messages_kept (calls : ι → UpdateCall) (id : Str) (hid : ∀ i, (calls i).id = id)
    (s : ProgressDb)
    (hlimit : (s.message id).length + ∑ i, ((calls i).message.length + 1) ≤ 3000)
    (q : ProgressPool ι)
    (hreach : Reaches serve Current (start s (fun i => updateProgress (calls i))) q) (i : ι)
    (hi : q.threads i = .ret ()) : (calls i).message <:+: q.state.message id := by
  have hinit : Kept calls id (s.message id) s (fun _ => .fresh) :=
    ⟨Nat.le_add_right _ _, fun _ h => by cases h⟩
  have hstep : ∀ (p : ProgressPool ι) (j : ι) (c : Cmd) (x : Choice) (r : Except Err c.Ret)
      (s' : ProgressDb), Kept calls id (s.message id) p.state (lastSeen p) →
      (calls j).allows (lastSeen p j) c → Current p j c → serve x c p.state = some (r, s') →
      Kept calls id (s.message id) s'
        (Function.update (lastSeen p) j ((lastSeen p j).next c r)) := by
    intro p j c x r s' h hallows hcond hserve
    refine kept_step hid hlimit h hallows (fun k msg hc => ?_) hserve
    subst hc
    exact hcond
  obtain ⟨hkept, hfollows⟩ := hreach.keeps (P := fun i => (calls i).updating)
    (I := fun s' _ g => Kept calls id (s.message id) s' g)
    (fun i => updateProgress_follows (calls i)) hinit hstep
  have hend := hfollows i
  rw [hi] at hend
  rcases hend rfl with hwrote | hempty
  · exact hkept.wrote i hwrote
  · rw [hempty]
    exact List.nil_infix

/-! Two calls on one task. -/

def twoMessages : Bool → UpdateCall
  | true => ⟨false, "task", ⟨some "parsed", some (1 / 2)⟩⟩
  | false => ⟨false, "task", ⟨some "embedded", some (3 / 4)⟩⟩

def twoMessagesPool : ProgressPool Bool :=
  start (oneTask 0 FloatColumn.single.store_zero) (fun i => updateProgress (twoMessages i))

/-- All steps of one call: read, lock, message, number, unlock, time, duration. -/
def stepsOf (i : Bool) (n : ℕ) : List (Bool × Choice) := List.replicate n (i, {})

theorem messages_kept_in_turn :
    ∃ q, play serve Current (stepsOf true 7 ++ stepsOf false 7) twoMessagesPool = some q ∧
      (∀ i, q.threads i = .ret ()) ∧ ∀ i, (twoMessages i).message <:+: q.state.message "task" := by
  have hplay : ∃ q, play serve Current (stepsOf true 7 ++ stepsOf false 7) twoMessagesPool =
      some q ∧ q.threads true = .ret () ∧ q.threads false = .ret () := ⟨_, rfl, rfl, rfl⟩
  obtain ⟨q, hplay, htrue, hfalse⟩ := hplay
  have hret : ∀ i, q.threads i = .ret () := by
    intro i
    cases i with
    | true => exact htrue
    | false => exact hfalse
  exact ⟨q, hplay, hret, fun i => messages_kept twoMessages "task" (fun i => by cases i <;> rfl) _
    (by decide) q (play_reaches _ hplay) i (hret i)⟩

/-- Both calls read the task before one of them writes. -/
theorem message_lost :
    ∃ q, Reaches serve anyStep twoMessagesPool q ∧ (∀ i, q.threads i = .ret ()) ∧
      ¬(twoMessages true).message <:+: q.state.message "task" := by
  have hplay : ∃ q, play serve anyStep
      (stepsOf true 1 ++ stepsOf false 1 ++ stepsOf true 6 ++ stepsOf false 6) twoMessagesPool =
        some q ∧ q.threads true = .ret () ∧ q.threads false = .ret () ∧
      q.state.message "task" = ("\nembedded" : Str) := ⟨_, rfl, rfl, rfl, rfl⟩
  obtain ⟨q, hplay, htrue, hfalse, hmsg⟩ := hplay
  refine ⟨q, play_reaches _ hplay, ?_, ?_⟩
  · intro i
    cases i with
    | true => exact htrue
    | false => exact hfalse
  · rw [hmsg]
    decide

end message

end RagFlow.Progress
