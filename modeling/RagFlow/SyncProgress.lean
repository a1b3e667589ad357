import Mathlib.Algebra.Order.BigOperators.Group.List
import Mathlib.Data.Char
import Mathlib.Data.List.Lex
import Mathlib.Data.List.Sort
import RagFlow.Binary64
import RagFlow.TaskProgress

/-! # The status of a document

`DocumentService._sync_progress` reads the tasks of a document, then the document, and writes the
status and the progress that follow from both, unless the document has been cancelled by then.
It runs beside any other programs on the two tables: the updates of task progress, the requests
of users to cancel, and other runs of itself.

* **Cancellation.** The status is written by an `UPDATE` that leaves a cancelled document alone,
  so a cancelled document stays so, whenever the request arrives.
* **The values.** What is written depends only on the rows that were read (`outcome`).  A document
  fails only with a failed task and none under way.  It is done when no task is under way and none
  has failed; but a document that has been read as done keeps this status while tasks are under
  way, with the mean of their numbers as its progress, and this mean may be `1` when one number is
  above `1` (`sync_status`).

The numbers are added in double precision. -/

namespace RagFlow.Progress

open Py Effect Effect.Pool

/-! ### The loop over the tasks -/

/-- `PIPELINE_SPECIAL_PROGRESS_FREEZE_TASK_TYPES`. -/
def freezeTaskTypes : List Str := ["raptor", "graphrag", "mindmap"]

/-- The variables of the loop. -/
structure Tally where
  msg : List Str := []
  prg : ℚ := 0
  finished : Bool := true
  bad : ℕ := 0
  specialTaskRunning : Bool := false
  priority : ℤ := 0

/-- The task is neither finished nor failed. -/
def TaskRow.underWay (t : TaskRow) : Bool := 0 ≤ t.progress && t.progress < 1

/-- What a task adds to the progress of its document. -/
def TaskRow.share (t : TaskRow) : ℚ := if 0 ≤ t.progress then t.progress else 0

/-- One round of the loop; a task whose message is null raises at `strip`. -/
def Tally.add (ct : CaseTable) (a : Tally) (t : TaskRow) : Except Err Tally :=
  match t.progressMsg with
  | none => .error .attributeError
  | some msg => .ok {
      msg := if (strip msg).isEmpty then a.msg else a.msg ++ [msg]
      prg := Binary64.nearest (a.prg + t.share)
      finished := a.finished && !t.underWay
      bad := if t.progress = -1 then a.bad + 1 else a.bad
      specialTaskRunning := a.specialTaskRunning || freezeTaskTypes.contains (ct.lower t.taskType)
      priority := max a.priority t.priority }

def tallyAll (ct : CaseTable) : Tally → List TaskRow → Except Err Tally
  | a, [] => .ok a
  | a, t :: ts => do
      let a ← a.add ct t
      tallyAll ct a ts

/-- The status of the document and its progress, where one is written. -/
def outcome (tally : Tally) (tasks : ℕ) (doc : DocRow) : Option TaskStatus × Option ℚ :=
  let (prg, status) : ℚ × Option TaskStatus :=
    if tally.finished && tally.bad ≠ 0 then (-1, some .fail)
    else if tally.finished then (1, some .done)
    else (Binary64.nearest (tally.prg / tasks), doc.run)
  let freezeProgress := tally.specialTaskRunning && 1 ≤ doc.progress && !tally.finished
  (status, if prg ≠ 0 && !freezeProgress then some prg else none)

/-! ### `_sync_progress` -/

/-- The entries of a document that `_sync_progress` is given. -/
structure SyncDoc where
  id : Str
  processBeginAt : Option ℚ
deriving DecidableEq

/-- `DocumentService.get_by_id`, which gives no document on an exception. -/
def getDocById (id : Str) : ProgressProg (Option DocRow) :=
  tryCatch (Prog.perform (C := Cmd) (.getDoc id)) (fun _ => pure none)

/-- The time at which the processing has begun, now if it has none. -/
def beginAtOf (d : SyncDoc) : ProgressProg ℚ :=
  match d.processBeginAt with
  | some beginAt => pure beginAt
  | none => do
      let now ← Prog.perform (C := Cmd) .now
      Prog.perform (C := Cmd) (.updateById d.id { processBeginAt := some now })
      pure now

/-- `"%d tasks are ahead in the queue..."`. -/
def aheadInQueue (n : ℕ) : Str := (toString n).toList ++ " tasks are ahead in the queue...".toList

/-- The suffixes of a message after which the length of the queue is told. -/
def createdTask : List Str :=
  ["created task graphrag", "created task raptor", "created task mindmap"]

/-- The message of the document. -/
def messageOf (tally : Tally) : ProgressProg Str :=
  let msg : Str := ['\n'].intercalate (tally.msg.insertionSort (· ≤ ·))
  if msg = [] then do
    let n ← Prog.perform (C := Cmd) (.queueLength tally.priority)
    pure (aheadInQueue n)
  else if createdTask.any (endswith msg) then do
    let n ← Prog.perform (C := Cmd) (.queueLength tally.priority)
    pure (msg ++ '\n' :: aheadInQueue n)
  else pure msg

/-- The write, from the tasks and the document that were read. -/
def writeStatus (ct : CaseTable) (d : SyncDoc) (tsks : List TaskRow) (doc : DocRow) :
    ProgressProg Unit := do
  let tally ← Prog.ofExcept (tallyAll ct {} tsks)
  let beginAt ← beginAtOf d
  let now ← Prog.perform (C := Cmd) .now
  let msg ← messageOf tally
  Prog.perform (C := Cmd) (.updateUncanceled d.id {
    run := some (outcome tally tsks.length doc).1
    progress := (outcome tally tsks.length doc).2
    progressMsg := some msg
    processDuration := some (max (now - beginAt) 0) })

/-- The body of the `try` statement. -/
def syncDoc (ct : CaseTable) (d : SyncDoc) : ProgressProg Unit := do
  let tsks ← Prog.perform (C := Cmd) (.tasksOf d.id)
  if tsks = [] then pure ()
  else do
    let doc ← getDocById d.id
    match doc with
    | none => throw .attributeError
    | some doc => if doc.run = some .cancel then pure () else writeStatus ct d tsks doc

/-- `_sync_progress`. -/
def syncProgress (ct : CaseTable) : List SyncDoc → ProgressProg Unit
  | [] => pure ()
  | d :: docs => do
      tryCatch (syncDoc ct d) (fun _ => pure ())
      syncProgress ct docs

/-! ### A request to cancel -/

/-- `cancel_all_task_of`. -/
def cancelAllTaskOf (docId : Str) : ProgressProg Unit := do
  let tsks ← Prog.perform (C := Cmd) (.tasksOf docId)
  tsks.forM (fun t => tryCatch (Prog.perform (C := Cmd) (.cancelTask t.id)) (fun _ => pure ()))

/-- The request `run` with `TaskStatus.CANCEL` for one document, after the checks of access. -/
def cancelRun (docId : Str) (delete : Bool) : ProgressProg Unit := do
  let doc ← getDocById docId
  match doc with
  | none => pure ()
  | some doc => do
      let tsks ← Prog.perform (C := Cmd) (.tasksOf docId)
      if doc.run ∈ [some TaskStatus.running, some .cancel] ∨ tsks.any (·.progress < 1) then do
        cancelAllTaskOf docId
        Prog.perform (C := Cmd)
          (.updateById docId { run := some (some .cancel), progress := some 0 })
        if delete then Prog.perform (C := Cmd) (.deleteTasks docId) else pure ()
      else pure ()

/-! ### What the values are -/

section outcome
variable {ct : CaseTable} {ts : List TaskRow} {tally : Tally} {doc : DocRow}

/-- The numbers of the tasks, added one after the other. -/
def sumProgress (ts : List TaskRow) (prg : ℚ) : ℚ :=
  ts.foldl (fun prg t => Binary64.nearest (prg + t.share)) prg

/-- Their mean. -/
def meanProgress (ts : List TaskRow) : ℚ := Binary64.nearest (sumProgress ts 0 / ts.length)

/-- The loop, without its variables. -/
theorem tallyAll_eq_ok {a b : Tally} (h : tallyAll ct a ts = .ok b) :
    b.finished = (a.finished && ts.all (!·.underWay)) ∧
      b.bad = a.bad + ts.countP (·.progress = -1) ∧
      b.prg = sumProgress ts a.prg := by
  induction ts generalizing a with
  | nil =>
      cases h
      simp [sumProgress]
  | cons t ts ih =>
      unfold tallyAll at h
      cases hadd : a.add ct t with
      | error e =>
          rw [hadd] at h
          cases h
      | ok a' =>
          rw [hadd] at h
          obtain ⟨hfinished, hbad, hprg⟩ := ih h
          unfold Tally.add at hadd
          split at hadd
          · cases hadd
          · cases hadd
            refine ⟨?_, ?_, ?_⟩
            · rw [hfinished, List.all_cons, Bool.and_assoc]
            · rw [hbad, List.countP_cons]
              by_cases ht : t.progress = -1
              · simp [ht]
                omega
              · simp [ht]
            · rw [hprg]
              rfl

theorem finished_iff (h : tallyAll ct {} ts = .ok tally) :
    tally.finished = true ↔ ∀ t ∈ ts, t.underWay = false := by
  rw [(tallyAll_eq_ok h).1]
  simp

theorem bad_ne_zero_iff (h : tallyAll ct {} ts = .ok tally) :
    tally.bad ≠ 0 ↔ ∃ t ∈ ts, t.progress = -1 := by
  rw [(tallyAll_eq_ok h).2.1]
  show 0 + _ ≠ 0 ↔ _
  rw [zero_add, Nat.ne_zero_iff_zero_lt, List.countP_pos_iff]
  simp

theorem share_nonneg (t : TaskRow) : 0 ≤ t.share := by
  unfold TaskRow.share
  split_ifs with h
  · exact h
  · exact le_rfl

theorem sumProgress_nonneg {prg : ℚ} (h : 0 ≤ prg) : 0 ≤ sumProgress ts prg := by
  induction ts generalizing prg with
  | nil => exact h
  | cons t ts ih => exact ih (Binary64.nearest_nonneg (add_nonneg h (share_nonneg t)))

theorem meanProgress_nonneg (ts : List TaskRow) : 0 ≤ meanProgress ts :=
  Binary64.nearest_nonneg (div_nonneg (sumProgress_nonneg le_rfl) (Nat.cast_nonneg _))

/-- The three kinds of outcome. -/
theorem outcome_cases (tally : Tally) (n : ℕ) (doc : DocRow) :
    (tally.finished = true ∧ tally.bad ≠ 0 ∧ outcome tally n doc = (some .fail, some (-1))) ∨
    (tally.finished = true ∧ tally.bad = 0 ∧ outcome tally n doc = (some .done, some 1)) ∨
    (tally.finished = false ∧ (outcome tally n doc).1 = doc.run ∧
      ∀ v, (outcome tally n doc).2 = some v → v = Binary64.nearest (tally.prg / n)) := by
  unfold outcome
  cases hfinished : tally.finished with
  | true =>
      by_cases hbad : tally.bad = 0
      · exact .inr (.inl ⟨rfl, hbad, by simp [hbad]⟩)
      · exact .inl ⟨rfl, hbad, by simp [hbad]⟩
  | false =>
      refine .inr (.inr ⟨rfl, rfl, fun v hv => ?_⟩)
      simp only [Bool.false_and, Bool.false_eq_true, if_false] at hv
      split_ifs at hv
      exact (Option.some.inj hv).symm

/-- What the column keeps of the progress that is written: of an unfinished document it is the mean
of the numbers. -/
theorem outcome_stored {column : FloatColumn} (h : tallyAll ct {} ts = .ok tally) {v : ℚ}
    (hfinished : tally.finished = false)
    (hprg : (outcome tally ts.length doc).2.map column.store = some v) :
    v = column.store (meanProgress ts) := by
  obtain ⟨u, hu, rfl⟩ := Option.map_eq_some_iff.mp hprg
  rcases outcome_cases tally ts.length doc with ⟨hfin, -, -⟩ | ⟨hfin, -, -⟩ | ⟨-, -, hmean⟩
  · exact absurd hfin (by simp [hfinished])
  · exact absurd hfin (by simp [hfinished])
  · rw [hmean u hu, (tallyAll_eq_ok h).2.2]
    rfl

/-- A document that fails: a task has failed and none is under way. -/
theorem outcome_fail {column : FloatColumn} (h : tallyAll ct {} ts = .ok tally)
    (hprg : (outcome tally ts.length doc).2.map column.store = some (-1)) :
    (∃ t ∈ ts, t.progress = -1) ∧ ∀ t ∈ ts, t.underWay = false := by
  rcases outcome_cases tally ts.length doc with
    ⟨hfinished, hbad, -⟩ | ⟨-, -, hdone⟩ | ⟨hfinished, -, -⟩
  · exact ⟨(bad_ne_zero_iff h).mp hbad, (finished_iff h).mp hfinished⟩
  · rw [hdone, Option.map_some, column.store_one] at hprg
    norm_num at hprg
  · -- The mean of the numbers is not negative.
    have hstored := outcome_stored h hfinished hprg
    have hnonneg := column.store_nonneg (meanProgress_nonneg ts)
    linarith

/-- The numbers that tasks have: `-1`, or not negative. -/
def TaskRow.Regular (t : TaskRow) : Prop := t.progress = -1 ∨ 0 ≤ t.progress

/-- A document that is done with progress `1`: all tasks are finished, or it was done before and the
mean of the numbers is kept as `1`. -/
theorem outcome_done {column : FloatColumn} (h : tallyAll ct {} ts = .ok tally)
    (hreg : ∀ t ∈ ts, t.Regular) (hrun : (outcome tally ts.length doc).1 = some .done)
    (hprg : (outcome tally ts.length doc).2.map column.store = some 1) :
    (∀ t ∈ ts, 1 ≤ t.progress) ∨
      (doc.run = some .done ∧ column.store (meanProgress ts) = 1) := by
  rcases outcome_cases tally ts.length doc with
    ⟨-, -, hfail⟩ | ⟨hfinished, hbad, -⟩ | ⟨hfinished, hkept, -⟩
  · rw [hfail] at hrun
    cases hrun
  · refine .inl (fun t ht => ?_)
    have hway := (finished_iff h).mp hfinished t ht
    have hgood : t.progress ≠ -1 := fun hneg => (bad_ne_zero_iff h).mpr ⟨t, ht, hneg⟩ hbad
    have hnonneg := (hreg t ht).resolve_left hgood
    simpa [TaskRow.underWay, hnonneg] using hway
  · exact .inr ⟨hkept ▸ hrun, (outcome_stored h hfinished hprg).symm⟩

end outcome

/-! ### What a run of `_sync_progress` does -/

/-- The tasks and the document that were read last. -/
structure Reading where
  tasks : List TaskRow := []
  doc : Option DocRow := none

def Reading.next (g : Reading) : (c : Cmd) → Except Err c.Ret → Reading
  | .tasksOf _, .ok ts => ⟨ts, none⟩
  | .getDoc _, .ok doc => { g with doc }
  | _, _ => g

/-- Documents are written without `run`, or with what follows from the rows that were read. -/
def Reading.allows (ct : CaseTable) (g : Reading) : Cmd → Prop
  | .updateUncanceled _ info => ∃ tally doc, tallyAll ct {} g.tasks = .ok tally ∧
      g.doc = some doc ∧ info.run = some (outcome tally g.tasks.length doc).1 ∧
      info.progress = (outcome tally g.tasks.length doc).2
  | .updateById _ info => info.run = none
  | .tasksOf _ | .getDoc _ | .queueLength _ | .now => True
  | _ => False

def syncing (ct : CaseTable) : Protocol Cmd Cmd.Ret Err Reading := ⟨Reading.allows ct, Reading.next⟩

section follows
variable {ct : CaseTable} {g : Reading}

theorem beginAtOf_follows (d : SyncDoc) :
    Follows (syncing ct) (fun g' _ => g' = g) g (beginAtOf d) := by
  unfold beginAtOf
  split
  · exact Follows.pure rfl
  · refine Follows.perform_bind trivial (fun now => ?_) (fun _ => rfl)
    exact Follows.perform_bind rfl (fun _ => Follows.pure rfl) (fun _ => rfl)

theorem messageOf_follows (tally : Tally) :
    Follows (syncing ct) (fun g' _ => g' = g) g (messageOf tally) := by
  have hqueue : ∀ f : ℕ → Str, Follows (syncing ct) (fun g' _ => g' = g) g (do
      let n ← Prog.perform (C := Cmd) (.queueLength tally.priority)
      pure (f n) : ProgressProg Str) :=
    fun f => Follows.perform_bind trivial (fun _ => Follows.pure rfl) (fun _ => rfl)
  unfold messageOf
  exact Follows.ite (fun _ => hqueue _) (fun _ => Follows.ite (fun _ => hqueue _)
    (fun _ => Follows.pure rfl))

theorem writeStatus_follows (d : SyncDoc) {doc : DocRow} (hdoc : g.doc = some doc) :
    Follows (syncing ct) (fun _ _ => True) g (writeStatus ct d g.tasks doc) := by
  unfold writeStatus
  cases htally : tallyAll ct {} g.tasks with
  | error e => trivial
  | ok tally =>
      show Follows (syncing ct) (fun _ _ => True) g (beginAtOf d >>= _)
      refine Follows.bind (beginAtOf_follows d) (fun g' beginAt hg' => ?_) (fun _ _ _ => trivial)
      subst hg'
      refine Follows.perform_bind trivial (fun now => ?_) (fun _ => trivial)
      refine Follows.bind (messageOf_follows tally) (fun g' msg hg' => ?_) (fun _ _ _ => trivial)
      subst hg'
      exact Follows.perform ⟨tally, doc, htally, hdoc, rfl, rfl⟩ (fun _ => trivial)

/-- A document that is found is the one that was read. -/
def Reading.Found (g : Reading) (g' : Reading) (r : Except Err (Option DocRow)) : Prop :=
  ∀ doc, r = .ok (some doc) → g' = { g with doc := some doc }

theorem getDocById_follows (id : Str) : Follows (syncing ct) g.Found g (getDocById id) := by
  have hget : Follows (syncing ct) g.Found g (Prog.perform (C := Cmd) (.getDoc id)) := by
    refine Follows.perform trivial (fun r doc hr => ?_)
    cases hr
    rfl
  exact Follows.tryCatch hget (fun _ _ h => h) (fun _ _ _ => Follows.pure (fun _ h => by cases h))

theorem syncDoc_follows (d : SyncDoc) :
    Follows (syncing ct) (fun _ _ => True) g (syncDoc ct d) := by
  refine Follows.perform_bind trivial (fun ts => ?_) (fun _ => trivial)
  refine Follows.ite (fun _ => Follows.pure trivial) (fun _ => ?_)
  refine Follows.bind (getDocById_follows d.id) (fun g' found hfound => ?_) (fun _ _ _ => trivial)
  cases found with
  | none => exact Follows.throw trivial
  | some doc =>
      rw [hfound doc rfl]
      exact Follows.ite (fun _ => Follows.pure trivial) (fun _ => writeStatus_follows d rfl)

theorem syncProgress_follows (docs : List SyncDoc) :
    Follows (syncing ct) (fun _ _ => True) g (syncProgress ct docs) := by
  induction docs generalizing g with
  | nil => exact Follows.pure trivial
  | cons d docs ih =>
      refine Follows.bind (Q := fun _ _ => True) ?_ (fun _ _ _ => ih) (fun _ _ _ => trivial)
      exact Follows.tryCatch (syncDoc_follows d) (fun _ _ _ => trivial)
        (fun _ _ _ => Follows.pure trivial)

end follows

/-! ### Any programs on the two tables -/

section runs

theorem raise_regular (column : FloatColumn) {t : TaskRow} (ht : t.Regular) (prog : ℚ) :
    (t.raise column prog).Regular := by
  unfold TaskRow.Regular TaskRow.raise Task.setProgress Task.nextProgress
  simp only
  split_ifs with h
  · simp only [Bool.and_eq_true, Bool.or_eq_true, decide_eq_true_eq] at h
    rcases h with ⟨hne, rfl | hlt⟩
    · exact .inl column.store_neg_one
    · exact .inr (column.store_nonneg ((ht.resolve_left hne).trans hlt.le))
  · exact ht

theorem read_regular (column : FloatColumn) {t : TaskRow} (ht : t.Regular) :
    (t.read column).Regular := by
  rcases ht with hneg | hnonneg
  · exact .inl ((congrArg column.read hneg).trans column.read_neg_one)
  · exact .inr (column.read_nonneg hnonneg)

/-- Every command keeps the numbers of the tasks regular. -/
theorem apply_regular {s : ProgressDb} (hs : ∀ t ∈ s.tasks, t.Regular) (x : Choice) (c : Cmd) :
    ∀ t ∈ (c.apply x s).2.tasks, t.Regular := by
  have hupdate : ∀ (id : Str) (f : TaskRow → TaskRow) (hf : Keeping s.column f),
      (∀ t, t.Regular → (f t).Regular) → ∀ t ∈ (s.updateTask id f hf).tasks, t.Regular := by
    intro id f hf hreg t ht
    rcases ProgressDb.mem_updateTask.mp ht with ⟨ht, -⟩ | ⟨u, hu, -, rfl⟩
    · exact hs t ht
    · exact hreg u (hs u hu)
  cases c with
  | setProgressMsg id msg =>
      exact hupdate id _ (TaskRow.setMsg_keeping s.column msg) (fun _ h => h)
  | setDuration id d =>
      exact hupdate id _ (TaskRow.setDuration_keeping s.column d) (fun _ h => h)
  | raiseProgress id prog =>
      exact hupdate id _ (TaskRow.raise_keeping s.column prog)
        (fun _ h => raise_regular s.column h prog)
  | deleteTasks docId =>
      intro t ht
      have hmem : t ∈ s.tasks.deleteWhere (·.docId = docId) := ht
      exact hs t (Table.mem_deleteWhere.mp hmem).1
  | _ => exact hs

theorem serve_regular {x : Choice} {c : Cmd} {s s' : ProgressDb} {r : Except Err c.Ret}
    (hs : ∀ t ∈ s.tasks, t.Regular) (h : serve x c s = some (r, s')) :
    ∀ t ∈ s'.tasks, t.Regular := by
  rcases serve_cases h with ⟨-, rfl⟩ | ⟨-, rfl | rfl⟩
  · exact apply_regular hs x c
  · exact hs
  · exact apply_regular hs x c

/-- The numbers that are read are those of the table. -/
theorem next_regular {g : Reading} {x : Choice} {c : Cmd} {s s' : ProgressDb}
    {r : Except Err c.Ret} (hg : ∀ t ∈ g.tasks, t.Regular) (hs : ∀ t ∈ s.tasks, t.Regular)
    (h : serve x c s = some (r, s')) : ∀ t ∈ (g.next c r).tasks, t.Regular := by
  cases c with
  | tasksOf docId =>
      rcases serve_cases h with ⟨rfl, -⟩ | ⟨rfl, -⟩
      · intro t ht
        obtain ⟨u, hu, rfl⟩ := List.mem_map.mp ht
        exact read_regular s.column (hs u (Table.mem_select.mp hu).1)
      · exact hg
  | getDoc id =>
      cases r with
      | ok doc => exact hg
      | error e => exact hg
  | _ => exact hg

/-- A command that `_sync_progress` issues leaves a cancelled document cancelled. -/
theorem apply_canceled {ct : CaseTable} {g : Reading} {c : Cmd} (hallows : g.allows ct c)
    (x : Choice) {s : ProgressDb} {d : DocRow} (hd : d ∈ s.docs) (hrun : d.run = some .cancel) :
    ∃ d' ∈ (c.apply x s).2.docs, d'.id = d.id ∧ d'.run = some .cancel := by
  cases c with
  | updateUncanceled id info =>
      exact ⟨d, ProgressDb.mem_updateDocs.mpr (.inl ⟨hd, by simp [hrun]⟩), rfl, hrun⟩
  | updateById id info =>
      by_cases hid : d.id = id
      · have hnone : info.run = none := hallows
        refine ⟨info.apply s.column d, ProgressDb.mem_updateDocs.mpr (.inr ⟨d, hd, ?_, rfl⟩),
          rfl, ?_⟩
        · exact decide_eq_true hid
        · show info.run.getD d.run = _
          rw [hnone]
          exact hrun
      · exact ⟨d, ProgressDb.mem_updateDocs.mpr (.inl ⟨hd, decide_eq_false hid⟩), rfl, hrun⟩
  | tasksOf _ | getDoc _ | queueLength _ | now => exact ⟨d, hd, rfl, hrun⟩
  | getTask _ | lock | unlock | setProgressMsg _ _ | raiseProgress _ _ | setDuration _ _
    | cancelTask _ | deleteTasks _ => exact hallows.elim

variable {ι : Type} [DecidableEq ι]

/-- What the thread has read last, after a trace. -/
def lastRead (i : ι) (t : List (ι × Event Cmd Cmd.Ret Err)) : Reading :=
  (own i t).foldl (fun g e => g.next e.cmd e.reply) {}

/-- `_sync_progress` in the thread `i`, any program in the others. -/
def syncingIn (ct : CaseTable) (i j : ι) : Protocol Cmd Cmd.Ret Err Reading :=
  if j = i then syncing ct else Protocol.free

theorem phases_syncingIn (ct : CaseTable) (i : ι) (t : List (ι × Event Cmd Cmd.Ret Err)) :
    phases (syncingIn ct i) (fun _ => {}) t i = lastRead i t := by
  unfold phases syncingIn
  rw [if_pos rfl]
  rfl

theorem threads_follow {ct : CaseTable} {docs : List SyncDoc} {i : ι}
    {threads : ι → ProgressProg Unit} (hi : threads i = syncProgress ct docs) (j : ι) :
    Follows (syncingIn ct i j) (fun _ _ => True) {} (threads j) := by
  unfold syncingIn
  by_cases hij : j = i
  · rw [if_pos hij, hij, hi]
    exact syncProgress_follows docs
  · rw [if_neg hij]
    exact Follows.free _

/-- The numbers of all tasks stay regular, and so do those that are read. -/
theorem reaches_regular {ct : CaseTable} {docs : List SyncDoc} {i : ι}
    {threads : ι → ProgressProg Unit} (hi : threads i = syncProgress ct docs) {s : ProgressDb}
    (hs : ∀ t ∈ s.tasks, t.Regular) {q : ProgressPool ι}
    (hreach : Reaches serve anyStep (start s threads) q) :
    ∀ t ∈ (lastRead i q.trace).tasks, t.Regular := by
  have hkeeps := (hreach.keeps (P := syncingIn ct i) (g := fun _ => {})
    (I := fun s _ g => (∀ t ∈ s.tasks, t.Regular) ∧ ∀ t ∈ (g i).tasks, t.Regular)
    (threads_follow hi) ⟨hs, fun t ht => by cases ht⟩ ?_).1
  · rw [phases_syncingIn] at hkeeps
    exact hkeeps.2
  · rintro p j c x r s' ⟨hstate, hread⟩ - - hserve
    refine ⟨serve_regular hstate hserve, ?_⟩
    by_cases hij : i = j
    · subst hij
      rw [Function.update_self]
      unfold syncingIn at hread ⊢
      rw [if_pos rfl]
      exact next_regular hread hstate hserve
    · rw [Function.update_of_ne hij]
      exact hread

/-- `_sync_progress` in one thread, beside any other programs on the tables: it moves no cancelled
document, it writes `DONE` with a progress that is kept as `1` only if all tasks it has read are at
`1` or above, or if it has read the document as done and the mean of the numbers is kept as `1`, and
it writes `FAIL` with progress `-1` only if it has read a failed task and none that is under way. -/
theorem sync_status (ct : CaseTable) (docs : List SyncDoc) {i : ι}
    {threads : ι → ProgressProg Unit} (hi : threads i = syncProgress ct docs) {s : ProgressDb}
    (hs : ∀ t ∈ s.tasks, t.Regular) {q : ProgressPool ι}
    (hreach : Reaches serve anyStep (start s threads) q) :
    (∀ x q', q.step serve anyStep i x = some q' → ∀ d ∈ q.state.docs, d.run = some .cancel →
      ∃ d' ∈ q'.state.docs, d'.id = d.id ∧ d'.run = some .cancel) ∧
    ∀ t t' id info r, q.trace = t ++ (i, ⟨.updateUncanceled id info, r⟩) :: t' →
      (info.run = some (some .done) → info.progress.map s.column.store = some 1 →
        (∀ u ∈ (lastRead i t).tasks, 1 ≤ u.progress) ∨
          ((∃ doc, (lastRead i t).doc = some doc ∧ doc.run = some .done) ∧
            s.column.store (meanProgress (lastRead i t).tasks) = 1)) ∧
      (info.run = some (some .fail) → info.progress.map s.column.store = some (-1) →
        (∃ u ∈ (lastRead i t).tasks, u.progress = -1) ∧
          ∀ u ∈ (lastRead i t).tasks, ¬(0 ≤ u.progress ∧ u.progress < 1)) := by
  have hfollows : ∀ p, Reaches serve anyStep (start s threads) p →
      Follows (syncing ct) (fun _ _ => True) (lastRead i p.trace) (p.threads i) := by
    intro p hp
    have hall := (hp.keeps (P := syncingIn ct i) (g := fun _ => {}) (I := fun _ _ _ => True)
      (threads_follow hi) trivial (fun _ _ _ _ _ _ _ _ _ _ => trivial)).2 i
    rw [phases_syncingIn] at hall
    unfold syncingIn at hall
    rw [if_pos rfl] at hall
    exact hall
  refine ⟨fun x q' hstep d hd hrun => ?_, fun t t' id info r htrace => ?_⟩
  · have hnow := hfollows q hreach
    unfold step at hstep
    split at hstep
    · next c k hthread =>
        rw [hthread] at hnow
        rw [if_pos trivial] at hstep
        obtain ⟨⟨r, s'⟩, hserve, rfl⟩ := Option.map_eq_some_iff.mp hstep
        rcases serve_cases hserve with ⟨-, rfl⟩ | ⟨-, rfl | rfl⟩
        · exact apply_canceled hnow.1 x hd hrun
        · exact ⟨d, hd, rfl, hrun⟩
        · exact apply_canceled hnow.1 x hd hrun
    · cases hstep
  · obtain ⟨p, k, hp, rfl, hthread⟩ := hreach.before htrace
    have hnow := hfollows p hp
    rw [hthread] at hnow
    obtain ⟨tally, doc, htally, hdoc, hinfoRun, hinfoProgress⟩ := hnow.1
    refine ⟨fun hrun hprg => ?_, fun _ hprg => ?_⟩
    · rw [hinfoRun] at hrun
      rw [hinfoProgress] at hprg
      have hreg := reaches_regular hi hs hp
      exact (outcome_done htally hreg (Option.some.inj hrun) hprg).imp_right
        (fun h => ⟨⟨doc, hdoc, h.1⟩, h.2⟩)
    · rw [hinfoProgress] at hprg
      obtain ⟨hbad, hway⟩ := outcome_fail htally hprg
      refine ⟨hbad, fun u hu hunder => ?_⟩
      have hu := hway u hu
      simp [TaskRow.underWay, hunder.1, hunder.2] at hu

/-! A request to cancel that arrives between the reads and the write. -/

def oneDoc (run : TaskStatus) (progress : ℚ) (tasks : Table TaskRow (·.id))
    (h : ∀ t ∈ tasks, FloatColumn.single.store t.progress = t.progress) : ProgressDb :=
  ⟨.single, tasks, ⟨[⟨"doc", some run, progress, some [], some 0, 0⟩], List.nodup_singleton _⟩,
    false, h⟩

def syncAndCancel : Bool → ProgressProg Unit
  | true => syncProgress CaseTable.ascii [⟨"doc", some 0⟩]
  | false => cancelRun "doc" false

def syncAndCancelPool : ProgressPool Bool :=
  start (oneDoc .running 0 _ (oneTask 1 FloatColumn.single.store_one).stored) syncAndCancel

theorem sync_status_canceled :
    ∃ q, play serve anyStep (stepsOf true 2 ++ stepsOf false 5 ++ stepsOf true 2)
        syncAndCancelPool = some q ∧
      (q.state.docs.get? "doc").map DocRow.run = some (some .cancel) ∧
      ∀ x q', q.step serve anyStep true x = some q' → ∀ d ∈ q.state.docs, d.run = some .cancel →
        ∃ d' ∈ q'.state.docs, d'.id = d.id ∧ d'.run = some .cancel := by
  have hplay : ∃ q, play serve anyStep (stepsOf true 2 ++ stepsOf false 5 ++ stepsOf true 2)
      syncAndCancelPool = some q ∧
      (q.state.docs.get? "doc").map DocRow.run = some (some .cancel) := ⟨_, rfl, rfl⟩
  obtain ⟨q, hplay, hrun⟩ := hplay
  have hthread : syncAndCancel true = syncProgress CaseTable.ascii [⟨"doc", some 0⟩] := rfl
  have hregular : ∀ t ∈ syncAndCancelPool.state.tasks, t.Regular := by
    intro t ht
    cases List.mem_singleton.mp ht
    exact .inr zero_le_one
  exact ⟨q, hplay, hrun,
    (sync_status CaseTable.ascii _ hthread hregular (play_reaches _ hplay)).1⟩

/-! A document that is done, with one task above `1` and one below. -/

def aboveAndBelow : Table TaskRow (·.id) :=
  ⟨[queuedTask "a" (1 / 2), queuedTask "b" (3 / 2)], by decide⟩

theorem aboveAndBelow_stored : ∀ t ∈ aboveAndBelow,
    FloatColumn.single.store t.progress = t.progress := by
  have hbelow := FloatColumn.single_store (m := 1) (e := -1) (by decide) (by decide)
  have habove := FloatColumn.single_store (m := 3) (e := -1) (by decide) (by decide)
  intro t ht
  rcases List.mem_pair.mp (Table.mem_rows.mp ht) with rfl | rfl
  · norm_num at hbelow
    exact hbelow
  · norm_num at habove
    exact habove

def doneEarlyPool : ProgressPool Unit :=
  start (oneDoc .done 1 aboveAndBelow aboveAndBelow_stored)
    (fun _ => syncProgress CaseTable.ascii [⟨"doc", some 0⟩])

theorem sync_done_early :
    (∀ t ∈ doneEarlyPool.state.tasks, t.Regular) ∧
    ∃ q t t' info r, Reaches serve anyStep doneEarlyPool q ∧
      q.trace = t ++ ((), ⟨.updateUncanceled "doc" info, r⟩) :: t' ∧
      info.run = some (some .done) ∧ info.progress = some 1 ∧
      ∃ u ∈ (lastRead () t).tasks, u.progress < 1 := by
  have hplay : ∃ q t t' info r, play serve anyStep (List.replicate 5 ((), {})) doneEarlyPool =
      some q ∧ q.trace = t ++ ((), ⟨.updateUncanceled "doc" info, r⟩) :: t' ∧
      info.run = some (some .done) ∧ info.progress = some 1 ∧
      (lastRead () t).tasks = aboveAndBelow.rows := by
    refine ⟨_, [_, _, _, _], [], _, _, rfl, rfl, ?_, ?_, rfl⟩
    · decide +kernel
    · decide +kernel
  obtain ⟨q, t, t', info, r, hplay, htrace, hrun, hprg, htasks⟩ := hplay
  refine ⟨fun u hu => ?_, q, t, t', info, r, play_reaches _ hplay, htrace, hrun, hprg,
    queuedTask "a" (1 / 2), ?_, ?_⟩
  · have hrows : u ∈ aboveAndBelow.rows := hu
    rcases List.mem_pair.mp hrows with rfl | rfl
    · exact .inr (by norm_num [queuedTask])
    · exact .inr (by norm_num [queuedTask])
  · rw [htasks]
    exact List.mem_cons_self
  · norm_num [queuedTask]

end runs

end RagFlow.Progress
