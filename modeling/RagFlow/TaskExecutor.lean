import RagFlow.DocumentService

/-! # Executing a task

`handleTask` is the part of `do_handle_task` for the standard chunking methods.  The chunks the
parser built, their token count and the table of contents are given (`Built`), whatever they are;
what the executor does with them is modelled: the insertion in batches together with the mother
chunks, the list of identifiers written to the task after each batch, the counters, the checks for
cancellation between them and the cleanup at the end.

The column `chunk_ids` of the task is its ledger: `queue_tasks` deletes or takes over what is
listed there.  `handleTask_ledger_iff` says when the ledger is right after a task is done.  Each
call of `insert_chunks` starts a list of its own, so the table of contents replaces the list of
the parsed chunks; and the mother chunks are inserted but never listed. -/

namespace RagFlow

open Py

/-! ### What is executed -/

/-- A chunk as the parser and the enrichment leave it, in the fields the insertion reads. -/
structure BuiltChunk where
  id : Str
  docId : Str
  mom : Option Str
  momWithWeight : Option Str
deriving DecidableEq

/-- `ck.get("mom") or ck.get("mom_with_weight") or ""`. -/
def BuiltChunk.motherText (c : BuiltChunk) : Str :=
  match c.mom with
  | none | some [] => c.momWithWeight.getD []
  | some mom => mom

/-- The outcome of the parser, the enrichment and `build_TOC`. -/
structure Built where
  chunks : List BuiltChunk
  tokenCount : ℤ
  toc : Option BuiltChunk

/-- The task with what `collect` joins to it. -/
structure TaskContext where
  id : Str
  docId : Str
  kbId : Str
  tenantId : Str
  parserId : Str
  parserConfig : ParserConfig

/-- The settings of the executor. -/
structure ExecEnv where
  /-- `settings.DOC_BULK_SIZE`. -/
  docBulkSize : ℕ
  bulk_pos : 0 < docBulkSize
  /-- `xxh64(..).hexdigest()` of a text. -/
  hash : Str → Str
  caseTable : CaseTable

/-- The table of contents, when the task builds one. -/
def tocOf (env : ExecEnv) (task : TaskContext) (built : Built) : Option BuiltChunk :=
  if env.caseTable.lower task.parserId = "naive" && task.parserConfig.tocExtraction then built.toc
  else none

/-! ### Cancellation and progress -/

/-- `has_canceled`: an exception counts as no. -/
def hasCanceled (taskId : Str) : Service Bool :=
  try issue .hasCanceled taskId (.hasCanceled taskId) catch _ => pure false

/-- `set_progress`: raises when the task is cancelled; other exceptions are logged. -/
def setProgress (taskId : Str) (prog : Option ℚ) : Service Unit := do
  let cancel ← hasCanceled taskId
  try
    issue .progressUpdate taskId (.updateProgress taskId (if cancel then some (-1) else prog))
    if cancel then issue .progressUpdate taskId (.raiseError .taskCanceled)
  catch e => if e = .taskCanceled then throw e else pure ()

/-! ### `insert_chunks` -/

/-- The mother chunks, one for each text; `seen` are the identifiers before. -/
def mothersOf (hash : Str → Str) : List Str → List BuiltChunk → List BuiltChunk
  | _, [] => []
  | seen, c :: cs =>
      if c.motherText.isEmpty then mothersOf hash seen cs
      else
        let id := hash c.motherText
        if seen.contains id then mothersOf hash seen cs
        else
          { id, docId := c.docId, mom := none, momWithWeight := none } ::
            mothersOf hash (id :: seen) cs

/-- The row of the document store for a chunk of the task. -/
def TaskContext.row (task : TaskContext) (hash : Str → Str) (c : BuiltChunk) : Chunk :=
  { index := indexName (some task.tenantId), kbId := task.kbId, id := c.id, body := .text c.docId,
    momId := if c.motherText.isEmpty then none else some (hash c.motherText) }

/-- `range(0, n, size)`. -/
def batchStarts (size n : ℕ) : List ℕ := (List.range ((n + size - 1) / size)).map (· * size)

/-- Insert the batch that starts at `b`. -/
def insertBatch (env : ExecEnv) (task : TaskContext) (cs : List BuiltChunk) (b : ℕ) :
    Service Unit :=
  issue .chunksInsert task.id
    (.insertChunks (((cs.drop b).take env.docBulkSize).map (task.row env.hash)))

/-- The loop over the batches of the mother chunks. -/
def insertMothers (env : ExecEnv) (task : TaskContext) (ms : List BuiltChunk) :
    List ℕ → Service Bool
  | [] => pure true
  | b :: bs => do
      insertBatch env task ms b
      let canceled ← hasCanceled task.id
      if canceled then do
        setProgress task.id (some (-1))
        pure false
      else insertMothers env task ms bs

/-- `update_chunk_ids`, and the undoing of the insertion when the task is unknown. -/
def recordChunkIds (task : TaskContext) (ids : List Str) : Service Bool :=
  try
    issue .chunkIdsUpdate task.id (.updateChunkIds task.id ids)
    pure true
  catch e =>
    if e = .doesNotExist then do
      issue .chunksDrop task.id (.deleteChunks ids (indexName (some task.tenantId)) task.kbId)
      issue .chunksDrop task.id .external
      setProgress task.id (some (-1))
      pure false
    else throw e

/-- The progress reported after the batch that starts at `b`. -/
def reportBatch (task : TaskContext) (n b : ℕ) : Service Unit :=
  if b % 128 = 0 then setProgress task.id (some (4 / 5 + 1 / 10 * (b + 1) / n)) else pure ()

/-- The loop over the batches of the chunks. -/
def insertBatches (env : ExecEnv) (task : TaskContext) (cs : List BuiltChunk) :
    List ℕ → Service Bool
  | [] => pure true
  | b :: bs => do
      insertBatch env task cs b
      let canceled ← hasCanceled task.id
      if canceled then do
        setProgress task.id (some (-1))
        pure false
      else do
        reportBatch task cs.length b
        let recorded ← recordChunkIds task ((cs.take (b + env.docBulkSize)).map (·.id))
        if recorded then insertBatches env task cs bs else pure false

/-- `insert_chunks`. -/
def insertChunks (env : ExecEnv) (task : TaskContext) (cs : List BuiltChunk) : Service Bool := do
  let ms := mothersOf env.hash [] cs
  let done ← insertMothers env task ms (batchStarts env.docBulkSize ms.length)
  if done then insertBatches env task cs (batchStarts env.docBulkSize cs.length) else pure false

/-- Go on with `next` unless the task has been cancelled. -/
def unlessCanceled (task : TaskContext) (next : Service Bool) : Service Bool := do
  let canceled ← hasCanceled task.id
  if canceled then do
    setProgress task.id (some (-1))
    pure false
  else next

/-! ### `do_handle_task` -/

/-- The insertion of the table of contents. -/
def insertToc (env : ExecEnv) (task : TaskContext) : Option BuiltChunk → Service Bool
  | none => pure true
  | some toc => do
      let inserted ← unlessCanceled task (insertChunks env task [toc])
      if inserted then do
        let _ ← incrementChunkNum task.docId task.kbId 0 1
        pure true
      else pure false

/-- The `try` statement after the chunks are inserted: the counters and the table of contents. -/
def finishTask (env : ExecEnv) (task : TaskContext) (built : Built) : Service Bool := do
  let _ ← incrementChunkNum task.docId task.kbId built.tokenCount
    (built.chunks.map (·.id)).dedup.length
  setProgress task.id none
  let inserted ← insertToc env task (tocOf env task built)
  if inserted then
    unlessCanceled task do
      setProgress task.id (some 1)
      pure true
  else pure false

/-- The body of the `try` statement. -/
def indexChunks (env : ExecEnv) (task : TaskContext) (built : Built) : Service Bool := do
  let inserted ← unlessCanceled task (insertChunks env task built.chunks)
  if inserted then unlessCanceled task (finishTask env task built) else pure false

/-- The `finally` clause: a cancelled task leaves no chunks. -/
def cleanupCanceled (task : TaskContext) : Service Unit := do
  let canceled ← hasCanceled task.id
  if canceled then
    quietly (issue .chunksDrop task.id
      (.deleteChunksOf task.docId (indexName (some task.tenantId)) task.kbId))

/-- The outcome of a body, as a value. -/
def attempt {α : Type} (body : Service α) : Service (Except Err α) :=
  try (do let a ← body; pure (.ok a)) catch e => pure (.error e)

/-- `try body finally clause`. -/
def withFinally {α : Type} (body : Service α) (clause : Service Unit) : Service α := do
  let r ← attempt body
  clause
  match r with
  | .ok a => pure a
  | .error e => throw e

/-- `do_handle_task` for the standard chunking methods; the answer says whether the task has come
to its end. -/
def handleTask (env : ExecEnv) (task : TaskContext) (built : Built) : Service Bool :=
  unlessCanceled task do
    issue .bindModel task.id .external
    issue .buildChunks task.id .external
    if built.chunks.isEmpty then
      setProgress task.id (some 1)
      pure true
    else
      issue .embedding task.id .external
      withFinally (indexChunks env task built) (cleanupCanceled task)

/-! ### The ledger and what is inserted -/

/-- The identifiers an operation inserts into the document store. -/
def Op.inserts : Op → List Str
  | .insertChunks cs => cs.map (·.id)
  | _ => []

/-- The identifiers the run of a service inserts into the document store. -/
def inserted {α : Type} (su : Surroundings) (p : Service α) (w : World) : List Str :=
  (Effect.Prog.log (handle su) p w).flatMap (·.op.inserts)

/-- The column `chunk_ids` of the task. -/
def ledger (taskId : Str) (db : Db) : Option (List Str) :=
  (db.tasks.get? taskId).map (·.chunkIds)

/-- The two parts of a sequence that has succeeded, and what they insert. -/
theorem exec_bind_inserted {α β : Type} {su : Surroundings} {p : Service α} {f : α → Service β}
    {w w' : World} {b : β} (h : (p >>= f).exec su w = (.ok b, w')) :
    ∃ a w₁, p.exec su w = (.ok a, w₁) ∧ (f a).exec su w₁ = (.ok b, w') ∧
      inserted su (p >>= f) w = inserted su p w ++ inserted su (f a) w₁ := by
  obtain ⟨a, w₁, h₁, h₂⟩ := Service.exec_bind_eq_ok h
  refine ⟨a, w₁, h₁, h₂, ?_⟩
  unfold inserted
  unfold Service.exec at h₁
  rw [Effect.Prog.log_bind, h₁, List.flatMap_append]

/-- The service inserts nothing and leaves the ledger of the task alone, however it ends. -/
structure Neutral {α : Type} (taskId : Str) (p : Service α) : Prop where
  ledger : ∀ su w, ledger taskId (p.exec su w).2.db = RagFlow.ledger taskId w.db
  inserted : ∀ su w, RagFlow.inserted su p w = []

namespace Neutral

variable {α β : Type} {taskId : Str}

theorem pure (a : α) : Neutral taskId (Pure.pure a : Service α) := ⟨fun _ _ => rfl, fun _ _ => rfl⟩

theorem throw (e : Err) : Neutral taskId (MonadExcept.throw e : Service α) :=
  ⟨fun _ _ => rfl, fun _ _ => rfl⟩

theorem issue {p : Point} {key : Str} {op : Op} (hins : op.inserts = [])
    (hop : ∀ uuid db, RagFlow.ledger taskId (Db.apply uuid op db).2 = RagFlow.ledger taskId db) :
    Neutral taskId (RagFlow.issue p key op) := by
  refine ⟨?_, ?_⟩
  · intro su w
    unfold RagFlow.issue Service.exec
    rw [Effect.Prog.exec_perform]
    unfold handle
    have hop := hop su.uuid w.db
    split_ifs
    · rfl
    · rcases ha : Db.apply su.uuid op w.db with ⟨a, db⟩
      rw [ha] at hop
      cases a with
      | ok r => exact hop
      | error e => exact hop
  · intro su w
    unfold RagFlow.inserted RagFlow.issue
    rw [Effect.Prog.log_perform, List.flatMap_cons, List.flatMap_nil, List.append_nil, hins]

theorem bind {p : Service α} {f : α → Service β} (hp : Neutral taskId p)
    (hf : ∀ a, Neutral taskId (f a)) : Neutral taskId (p >>= f) := by
  refine ⟨?_, ?_⟩
  · intro su w
    have hw := hp.ledger su w
    unfold Service.exec at hw ⊢
    rw [Effect.Prog.exec_bind]
    rcases hr : Effect.Prog.exec (handle su) p w with ⟨a, w₁⟩
    rw [hr] at hw
    cases a with
    | ok a => exact ((hf a).ledger su w₁).trans hw
    | error e => exact hw
  · intro su w
    have hw := hp.inserted su w
    unfold RagFlow.inserted at hw ⊢
    rw [Effect.Prog.log_bind, List.flatMap_append, hw, List.nil_append]
    rcases Effect.Prog.exec (handle su) p w with ⟨a, w₁⟩
    cases a with
    | ok a => exact (hf a).inserted su w₁
    | error e => rfl

theorem tryCatch {p : Service α} {f : Err → Service α} (hp : Neutral taskId p)
    (hf : ∀ e, Neutral taskId (f e)) : Neutral taskId (MonadExcept.tryCatch p f) := by
  refine ⟨?_, ?_⟩
  · intro su w
    have hw := hp.ledger su w
    unfold Service.exec at hw ⊢
    rw [Effect.Prog.exec_tryCatch]
    rcases hr : Effect.Prog.exec (handle su) p w with ⟨a, w₁⟩
    rw [hr] at hw
    cases a with
    | ok a => exact hw
    | error e => exact ((hf e).ledger su w₁).trans hw
  · intro su w
    have hw := hp.inserted su w
    unfold RagFlow.inserted at hw ⊢
    rw [Effect.Prog.log_tryCatch, List.flatMap_append, hw, List.nil_append]
    rcases Effect.Prog.exec (handle su) p w with ⟨a, w₁⟩
    cases a with
    | ok a => rfl
    | error e => exact (hf e).inserted su w₁

theorem ite {c : Prop} [Decidable c] {p q : Service α} (hp : Neutral taskId p)
    (hq : Neutral taskId q) : Neutral taskId (if c then p else q) := by
  split_ifs
  · exact hp
  · exact hq

end Neutral

theorem ledger_updateProgress (taskId : Str) (id : Str) (prog : Option ℚ) (uuid : ℕ → Str)
    (db : Db) :
    ledger taskId (Db.apply uuid (.updateProgress id prog) db).2 = ledger taskId db := by
  simp only [Db.apply]
  split
  · rfl
  · have hget : (db.tasks.updateWhere (·.id = id) (Task.setProgress db.engine.number prog)
        (fun _ => rfl)).get? taskId =
          if taskId = id then (db.tasks.get? taskId).map (Task.setProgress db.engine.number prog)
          else db.tasks.get? taskId := Table.get?_updateWhere
    unfold ledger
    rw [hget]
    split_ifs
    · rw [Option.map_map]
      rfl
    · rfl

section neutral
variable {taskId : Str}

theorem hasCanceled_neutral (id : Str) : Neutral taskId (hasCanceled id) :=
  Neutral.tryCatch (Neutral.issue rfl (fun _ _ => rfl)) (fun _ => Neutral.pure false)

theorem setProgress_neutral (id : Str) (prog : Option ℚ) :
    Neutral taskId (setProgress id prog) := by
  refine Neutral.bind (hasCanceled_neutral id) (fun cancel => Neutral.tryCatch ?_ ?_)
  · refine Neutral.bind (Neutral.issue rfl (ledger_updateProgress taskId id _)) (fun _ => ?_)
    exact Neutral.ite (Neutral.issue rfl (fun _ _ => rfl)) (Neutral.pure ())
  · exact fun e => Neutral.ite (Neutral.throw e) (Neutral.pure ())

theorem incrementChunkNum_neutral (docId kbId : Str) (tokenNum chunkNum : ℤ) :
    Neutral taskId (incrementChunkNum docId kbId tokenNum chunkNum) :=
  Neutral.bind (Neutral.issue rfl (fun _ _ => rfl))
    (fun _ => Neutral.issue rfl (fun _ _ => rfl))

theorem cleanupCanceled_neutral (task : TaskContext) : Neutral taskId (cleanupCanceled task) := by
  refine Neutral.bind (hasCanceled_neutral task.id) (fun _ => Neutral.ite ?_ (Neutral.pure ()))
  exact Neutral.tryCatch (Neutral.issue rfl (fun _ _ => rfl)) (fun _ => Neutral.pure ())

theorem reportBatch_neutral (task : TaskContext) (n b : ℕ) :
    Neutral taskId (reportBatch task n b) :=
  Neutral.ite (setProgress_neutral task.id _) (Neutral.pure ())

end neutral

theorem attempt_exec {α : Type} (su : Surroundings) (p : Service α) (w : World) :
    (attempt p).exec su w = (.ok (p.exec su w).1, (p.exec su w).2) := by
  unfold attempt Service.exec
  rw [Effect.Prog.exec_tryCatch, Effect.Prog.exec_bind]
  rcases Effect.Prog.exec (handle su) p w with ⟨r, w₁⟩
  cases r with
  | ok a => rfl
  | error e => rfl

theorem attempt_inserted {α : Type} (su : Surroundings) (p : Service α) (w : World) :
    inserted su (attempt p) w = inserted su p w := by
  unfold inserted attempt
  rw [Effect.Prog.log_tryCatch, Effect.Prog.exec_bind, Effect.Prog.log_bind]
  rcases Effect.Prog.exec (handle su) p w with ⟨r, w₁⟩
  cases r with
  | ok a => simp [Effect.Prog.log, Effect.Prog.exec, Pure.pure]
  | error e => simp [Effect.Prog.log, Pure.pure]

/-! ### What a service that answers `true` has recorded -/

/-- Whenever the service answers `true`, it has inserted `ids` and changed the ledger by `g`. -/
def Records (taskId : Str) (p : Service Bool) (ids : List Str) (g : List Str → List Str) : Prop :=
  ∀ su w w', p.exec su w = (.ok true, w') →
    inserted su p w = ids ∧ ledger taskId w'.db = (ledger taskId w.db).map g

namespace Records

variable {α : Type} {taskId : Str} {p q : Service Bool} {ids ids' : List Str}
  {g g' : List Str → List Str}

theorem pure_true : Records taskId (pure true) [] id := by
  intro su w w' h
  cases h
  exact ⟨rfl, Option.map_id.symm ▸ rfl⟩

theorem pure_false : Records taskId (pure false) ids g := by
  intro su w w' h
  cases h

theorem neutral_bind {r : Service α} {f : α → Service Bool} (hr : Neutral taskId r)
    (hf : ∀ a, Records taskId (f a) ids g) : Records taskId (r >>= f) ids g := by
  intro su w w' h
  obtain ⟨a, w₁, h₁, h₂, hins⟩ := exec_bind_inserted h
  obtain ⟨hins₂, hledger₂⟩ := hf a su w₁ w' h₂
  have hledger₁ := hr.ledger su w
  rw [h₁] at hledger₁
  refine ⟨?_, ?_⟩
  · rw [hins, hr.inserted su w, hins₂, List.nil_append]
  · rw [hledger₂, hledger₁]

/-- One service after the other, when the first answers `true`. -/
theorem seq (hp : Records taskId p ids g) (hq : Records taskId q ids' g') :
    Records taskId (p >>= fun b => if b then q else pure false) (ids ++ ids') (g' ∘ g) := by
  intro su w w' h
  obtain ⟨b, w₁, h₁, h₂, hins⟩ := exec_bind_inserted h
  cases b with
  | false => cases h₂
  | true =>
      obtain ⟨hins₁, hledger₁⟩ := hp su w w₁ h₁
      obtain ⟨hins₂, hledger₂⟩ := hq su w₁ w' h₂
      refine ⟨?_, ?_⟩
      · rw [hins, hins₁]
        exact congrArg (ids ++ ·) hins₂
      · rw [hledger₂, hledger₁, Option.map_map]

/-- A cancelled task is given up, and then the answer is not `true`. -/
theorem unlessCanceled (task : TaskContext) (hq : Records taskId q ids g) :
    Records taskId (RagFlow.unlessCanceled task q) ids g := by
  refine neutral_bind (hasCanceled_neutral task.id) (fun canceled => ?_)
  cases canceled with
  | true => exact neutral_bind (setProgress_neutral task.id _) (fun _ => pure_false)
  | false => exact hq

theorem withFinally {clause : Service Unit} (hp : Records taskId p ids g)
    (hclause : Neutral taskId clause) : Records taskId (RagFlow.withFinally p clause) ids g := by
  intro su w w' h
  obtain ⟨r, w₁, h₁, h, hins⟩ := exec_bind_inserted h
  obtain ⟨_, w₂, h₂, h₃, hins₂⟩ := exec_bind_inserted h
  rw [attempt_exec] at h₁
  have hledger₂ := hclause.ledger su w₁
  rw [h₂] at hledger₂
  cases r with
  | error e => cases h₃
  | ok b =>
      cases h₃
      obtain ⟨hok, hw⟩ := Prod.mk.inj h₁
      have hbody : p.exec su w = (.ok true, w₁) := Prod.ext (Except.ok.inj hok) hw
      obtain ⟨hins₁, hledger₁⟩ := hp su w w₁ hbody
      refine ⟨?_, ?_⟩
      · refine hins.trans ?_
        rw [attempt_inserted, hins₁, hins₂, hclause.inserted su w₁, List.nil_append]
        exact List.append_nil ids
      · rw [← hledger₁]
        exact hledger₂

end Records

/-- Inserting a batch before going on. -/
theorem insertBatch_records {env : ExecEnv} {task : TaskContext} {taskId : Str}
    {cs : List BuiltChunk} {b : ℕ} {q : Service Bool} {ids : List Str} {g : List Str → List Str}
    (hq : Records taskId q ids g) :
    Records taskId (insertBatch env task cs b >>= fun _ => q)
      (((cs.drop b).take env.docBulkSize).map (·.id) ++ ids) g := by
  intro su w w' h
  obtain ⟨_, w₁, h₁, h₂, hins⟩ := exec_bind_inserted h
  obtain ⟨hins₂, hledger₂⟩ := hq su w₁ w' h₂
  obtain ⟨-, -, rfl⟩ := exec_issue_eq_ok h₁
  refine ⟨?_, hledger₂⟩
  rw [hins, hins₂]
  congr 1
  unfold inserted insertBatch issue
  rw [Effect.Prog.log_perform]
  simp [Op.inserts, TaskContext.row, Function.comp_def]

theorem insertMothers_records (env : ExecEnv) (task : TaskContext) (taskId : Str)
    (ms : List BuiltChunk) (bs : List ℕ) :
    Records taskId (insertMothers env task ms bs)
      (bs.flatMap (fun b => ((ms.drop b).take env.docBulkSize).map (·.id))) id := by
  induction bs with
  | nil => exact Records.pure_true
  | cons b bs ih =>
      rw [List.flatMap_cons]
      exact insertBatch_records (Records.unlessCanceled task ih)

theorem recordChunkIds_records (task : TaskContext) (ids : List Str) :
    Records task.id (recordChunkIds task ids) [] (fun _ => ids) := by
  intro su w w' h
  unfold recordChunkIds Service.exec at h
  rw [Effect.Prog.exec_tryCatch] at h
  rcases hr : (issue .chunkIdsUpdate task.id (.updateChunkIds task.id ids)).exec su w with ⟨r, w₁⟩
  have hr' := hr
  unfold Service.exec at hr'
  rw [Effect.Prog.exec_bind, hr'] at h
  cases r with
  | ok u =>
      cases h
      obtain ⟨-, -, rfl⟩ := exec_issue_eq_ok hr
      have hget : (w.db.tasks.updateWhere (·.id = task.id) (fun t => { t with chunkIds := ids })
          (fun _ => rfl)).get? task.id = if task.id = task.id then
            (w.db.tasks.get? task.id).map (fun t => { t with chunkIds := ids })
          else w.db.tasks.get? task.id := Table.get?_updateWhere
      refine ⟨?_, ?_⟩
      · unfold inserted recordChunkIds
        rw [Effect.Prog.log_tryCatch, Effect.Prog.exec_bind, Effect.Prog.log_bind, hr']
        unfold issue
        rw [Effect.Prog.log_perform]
        rfl
      · unfold ledger
        simp only [Db.apply]
        rw [hget, if_pos rfl, Option.map_map, Option.map_map]
        rfl
  | error e =>
      dsimp only at h
      split_ifs at h
      · obtain ⟨_, _, -, h⟩ := Service.exec_bind_eq_ok h
        obtain ⟨_, _, -, h⟩ := Service.exec_bind_eq_ok h
        obtain ⟨_, _, -, h⟩ := Service.exec_bind_eq_ok h
        cases h
      · cases h

theorem insertBatches_records (env : ExecEnv) (task : TaskContext) (cs : List BuiltChunk)
    (bs : List ℕ) :
    Records task.id (insertBatches env task cs bs)
      (bs.flatMap (fun b => ((cs.drop b).take env.docBulkSize).map (·.id)))
      (fun old => bs.foldl (fun _ b => (cs.take (b + env.docBulkSize)).map (·.id)) old) := by
  induction bs with
  | nil => exact Records.pure_true
  | cons b bs ih =>
      rw [List.flatMap_cons]
      refine insertBatch_records (Records.unlessCanceled task ?_)
      refine Records.neutral_bind (reportBatch_neutral task _ b) (fun _ => ?_)
      exact Records.seq (recordChunkIds_records task _) ih

/-! ### The batches -/

section batches
variable {α : Type}

theorem flatMap_range_batches (l : List α) (k n : ℕ) :
    ((List.range n).map (· * k)).flatMap (fun b => (l.drop b).take k) = l.take (n * k) := by
  induction n with
  | zero => simp
  | succ n ih =>
      rw [List.range_succ, List.map_append, List.flatMap_append, ih, Nat.succ_mul, List.take_add]
      simp

theorem length_le_batches {k : ℕ} (hk : 0 < k) (n : ℕ) : n ≤ (n + k - 1) / k * k := by
  have hdiv := Nat.div_add_mod (n + k - 1) k
  have hmod := Nat.mod_lt (n + k - 1) hk
  rw [Nat.mul_comm]
  omega

/-- The batches make up the list. -/
theorem flatMap_batchStarts {k : ℕ} (hk : 0 < k) (l : List α) :
    (batchStarts k l.length).flatMap (fun b => (l.drop b).take k) = l := by
  unfold batchStarts
  rw [flatMap_range_batches, List.take_of_length_le (length_le_batches hk l.length)]

/-- The last list written is the whole list. -/
theorem foldl_batchStarts {k : ℕ} (hk : 0 < k) {l : List α} (hl : l ≠ []) {β : Type}
    (f : List α → β) (old : β) :
    (batchStarts k l.length).foldl (fun _ b => f (l.take (b + k))) old = f l := by
  obtain ⟨n, hn⟩ : ∃ n, (l.length + k - 1) / k = n + 1 := by
    apply Nat.exists_eq_succ_of_ne_zero
    intro hzero
    have hle := length_le_batches hk l.length
    rw [hzero, Nat.zero_mul] at hle
    exact hl (List.length_eq_zero_iff.mp (Nat.le_zero.mp hle))
  have hle := length_le_batches hk l.length
  unfold batchStarts
  rw [hn] at hle ⊢
  rw [List.range_succ, List.map_append, List.foldl_append]
  show f (l.take (n * k + k)) = f l
  rw [← Nat.succ_mul, List.take_of_length_le hle]

end batches

/-! ### What a task records -/

/-- The identifiers one call of `insert_chunks` inserts: the mothers and the chunks. -/
def insertIds (env : ExecEnv) (cs : List BuiltChunk) : List Str :=
  (mothersOf env.hash [] cs).map (·.id) ++ cs.map (·.id)

theorem insertChunks_records (env : ExecEnv) (task : TaskContext) {cs : List BuiltChunk}
    (hcs : cs ≠ []) :
    Records task.id (insertChunks env task cs) (insertIds env cs) (fun _ => cs.map (·.id)) := by
  have h := Records.seq
    (insertMothers_records env task task.id (mothersOf env.hash [] cs)
      (batchStarts env.docBulkSize (mothersOf env.hash [] cs).length))
    (insertBatches_records env task cs (batchStarts env.docBulkSize cs.length))
  have hg : (fun old => (batchStarts env.docBulkSize cs.length).foldl
      (fun _ b => (cs.take (b + env.docBulkSize)).map (·.id)) old) ∘ id =
        fun _ => cs.map (·.id) :=
    funext (foldl_batchStarts env.bulk_pos hcs (fun l => l.map (·.id)))
  rw [hg, ← List.map_flatMap, ← List.map_flatMap, flatMap_batchStarts env.bulk_pos,
    flatMap_batchStarts env.bulk_pos] at h
  exact h

/-- The identifiers the insertion of the table of contents adds. -/
def tocIds (env : ExecEnv) : Option BuiltChunk → List Str
  | none => []
  | some toc => insertIds env [toc]

/-- The ledger after the table of contents. -/
def tocLedger : Option BuiltChunk → List Str → List Str
  | none, old => old
  | some toc, _ => [toc.id]

theorem insertToc_records (env : ExecEnv) (task : TaskContext) (toc : Option BuiltChunk) :
    Records task.id (insertToc env task toc) (tocIds env toc) (tocLedger toc) := by
  cases toc with
  | none => exact Records.pure_true
  | some toc =>
      have h := Records.seq
        (Records.unlessCanceled task (insertChunks_records env task (List.cons_ne_nil toc [])))
        (Records.neutral_bind (incrementChunkNum_neutral task.docId task.kbId 0 1)
          (fun _ => Records.pure_true))
      rw [List.append_nil] at h
      exact h

theorem finishTask_records (env : ExecEnv) (task : TaskContext) (built : Built) :
    Records task.id (finishTask env task built) (tocIds env (tocOf env task built))
      (tocLedger (tocOf env task built)) := by
  have hend : Records task.id (unlessCanceled task (do
      setProgress task.id (some 1)
      pure true)) [] id :=
    Records.unlessCanceled task (Records.neutral_bind (setProgress_neutral task.id _)
      (fun _ => Records.pure_true))
  have htoc := Records.seq (insertToc_records env task (tocOf env task built)) hend
  rw [List.append_nil] at htoc
  refine Records.neutral_bind (incrementChunkNum_neutral _ _ _ _) (fun _ => ?_)
  exact Records.neutral_bind (setProgress_neutral task.id none) (fun _ => htoc)

theorem indexChunks_records (env : ExecEnv) (task : TaskContext) {built : Built}
    (hbuilt : built.chunks ≠ []) :
    Records task.id (indexChunks env task built)
      (insertIds env built.chunks ++ tocIds env (tocOf env task built))
      (fun _ => tocLedger (tocOf env task built) (built.chunks.map (·.id))) := by
  have h := Records.seq (Records.unlessCanceled task (insertChunks_records env task hbuilt))
    (Records.unlessCanceled task (finishTask_records env task built))
  exact h

/-- The identifiers a task inserts. -/
def taskIds (env : ExecEnv) (task : TaskContext) (built : Built) : List Str :=
  if built.chunks = [] then []
  else insertIds env built.chunks ++ tocIds env (tocOf env task built)

/-- The ledger of a task at its end. -/
def taskLedger (env : ExecEnv) (task : TaskContext) (built : Built) (old : List Str) : List Str :=
  if built.chunks = [] then old
  else tocLedger (tocOf env task built) (built.chunks.map (·.id))

theorem handleTask_records (env : ExecEnv) (task : TaskContext) (built : Built) :
    Records task.id (handleTask env task built) (taskIds env task built)
      (taskLedger env task built) := by
  refine Records.unlessCanceled task ?_
  refine Records.neutral_bind (Neutral.issue rfl (fun _ _ => rfl)) (fun _ => ?_)
  refine Records.neutral_bind (Neutral.issue rfl (fun _ _ => rfl)) (fun _ => ?_)
  unfold taskIds taskLedger
  by_cases hbuilt : built.chunks = []
  · simp only [hbuilt, List.isEmpty_nil, if_true]
    exact Records.neutral_bind (setProgress_neutral task.id _) (fun _ => Records.pure_true)
  · have hempty : ¬ built.chunks.isEmpty = true := fun h => hbuilt (List.isEmpty_iff.mp h)
    simp only [hbuilt, if_false, if_neg hempty]
    refine Records.neutral_bind (Neutral.issue rfl (fun _ _ => rfl)) (fun _ => ?_)
    exact Records.withFinally (indexChunks_records env task hbuilt) (cleanupCanceled_neutral task)

/-! ### When the ledger is right -/

/-- The mother chunks are those of the texts, each under the hash of its text. -/
theorem mem_mothersOf {hash : Str → Str} {id : Str} (cs : List BuiltChunk) : ∀ seen : List Str,
    id ∈ (mothersOf hash seen cs).map (·.id) ↔
      id ∉ seen ∧ ∃ c ∈ cs, c.motherText ≠ [] ∧ hash c.motherText = id := by
  induction cs with
  | nil => intro seen; simp [mothersOf]
  | cons c cs ih =>
      intro seen
      unfold mothersOf
      by_cases htext : c.motherText = []
      · simp only [htext, List.isEmpty_nil, if_true]
        rw [ih]
        simp [htext]
      · have hempty : ¬ c.motherText.isEmpty = true := fun h => htext (List.isEmpty_iff.mp h)
        rw [if_neg hempty]
        dsimp only
        split_ifs with hseen
        · have hmem : hash c.motherText ∈ seen := List.contains_iff_mem.mp hseen
          rw [ih]
          constructor
          · rintro ⟨hid, c', hc', h⟩
            exact ⟨hid, c', List.mem_cons_of_mem _ hc', h⟩
          · rintro ⟨hid, c', hc', h⟩
            rcases List.mem_cons.mp hc' with rfl | hc'
            · exact absurd (h.2 ▸ hmem) hid
            · exact ⟨hid, c', hc', h⟩
        · have hnew : hash c.motherText ∉ seen := fun h => hseen (List.contains_iff_mem.mpr h)
          rw [List.map_cons, List.mem_cons, ih]
          constructor
          · rintro (rfl | ⟨hid, c', hc', h⟩)
            · exact ⟨hnew, c, List.mem_cons_self, htext, rfl⟩
            · exact ⟨fun hs => hid (List.mem_cons_of_mem _ hs), c', List.mem_cons_of_mem _ hc', h⟩
          · rintro ⟨hid, c', hc', h⟩
            by_cases heq : id = hash c.motherText
            · exact Or.inl heq
            · refine Or.inr ⟨by simp [heq, hid], ?_⟩
              rcases List.mem_cons.mp hc' with rfl | hc'
              · exact absurd h.2.symm heq
              · exact ⟨c', hc', h⟩

/-- The ledger can be right: nothing was built and nothing stood in it; or there is no table of
contents and every mother chunk is one of the chunks; or there is one, and it is also every other
chunk. -/
def LedgerComplete (env : ExecEnv) (task : TaskContext) (built : Built) (old : List Str) : Prop :=
  if built.chunks = [] then old = []
  else
    match tocOf env task built with
    | none => ∀ c ∈ built.chunks, c.motherText ≠ [] →
        ∃ c' ∈ built.chunks, c'.id = env.hash c.motherText
    | some toc => ∀ c ∈ toc :: built.chunks, c.id = toc.id ∧
        (c.motherText ≠ [] → env.hash c.motherText = toc.id)

theorem mem_insertIds {env : ExecEnv} {cs : List BuiltChunk} {id : Str} :
    id ∈ insertIds env cs ↔
      (∃ c ∈ cs, c.motherText ≠ [] ∧ env.hash c.motherText = id) ∨ ∃ c ∈ cs, c.id = id := by
  unfold insertIds
  rw [List.mem_append, mem_mothersOf, List.mem_map]
  simp

theorem taskLedger_iff (env : ExecEnv) (task : TaskContext) (built : Built) (old : List Str) :
    (∀ id, id ∈ taskLedger env task built old ↔ id ∈ taskIds env task built) ↔
      LedgerComplete env task built old := by
  unfold taskLedger taskIds LedgerComplete
  by_cases hbuilt : built.chunks = []
  · simp only [hbuilt, if_true]
    rw [List.eq_nil_iff_forall_not_mem]
    simp
  · simp only [hbuilt, if_false]
    cases tocOf env task built with
    | none =>
        simp only [tocLedger, tocIds, List.append_nil, mem_insertIds, List.mem_map]
        constructor
        · intro h c hc htext
          exact (h _).mpr (Or.inl ⟨c, hc, htext, rfl⟩)
        · intro h id
          refine ⟨Or.inr, ?_⟩
          rintro (⟨c, hc, htext, rfl⟩ | hid)
          · exact h c hc htext
          · exact hid
    | some toc =>
        simp only [tocLedger, tocIds, List.mem_append, mem_insertIds, List.mem_singleton]
        constructor
        · intro h c hc
          rcases List.mem_cons.mp hc with rfl | hc
          · exact ⟨rfl, fun htext => (h _).mpr (Or.inr (Or.inl ⟨c, rfl, htext, rfl⟩))⟩
          · exact ⟨(h _).mpr (Or.inl (Or.inr ⟨c, hc, rfl⟩)),
              fun htext => (h _).mpr (Or.inl (Or.inl ⟨c, hc, htext, rfl⟩))⟩
        · intro h id
          constructor
          · rintro rfl
            exact Or.inr (Or.inr ⟨toc, rfl, rfl⟩)
          · rintro ((⟨c, hc, htext, rfl⟩ | ⟨c, hc, rfl⟩) | ⟨c, hc, htext, rfl⟩ | ⟨c, hc, rfl⟩)
            · exact (h c (List.mem_cons_of_mem _ hc)).2 htext
            · exact (h c (List.mem_cons_of_mem _ hc)).1
            · exact (h c (List.mem_cons.mpr (Or.inl hc))).2 htext
            · exact (h c (List.mem_cons.mpr (Or.inl hc))).1

/-- **The ledger of a task.**  When a task has come to its end, its column `chunk_ids` lists
exactly what the task has inserted if and only if `LedgerComplete`. -/
theorem handleTask_ledger_iff (env : ExecEnv) (task : TaskContext) (built : Built)
    (su : Surroundings) (w w' : World) (t : Task) (htask : w.db.tasks.get? task.id = some t)
    (h : (handleTask env task built).exec su w = (.ok true, w')) :
    (∃ t', w'.db.tasks.get? task.id = some t' ∧
      ∀ id, id ∈ t'.chunkIds ↔ id ∈ inserted su (handleTask env task built) w) ↔
      LedgerComplete env task built t.chunkIds := by
  obtain ⟨hins, hledger⟩ := handleTask_records env task built su w w' h
  unfold ledger at hledger
  rw [htask, Option.map_some, Option.map_some] at hledger
  obtain ⟨t', ht', hids⟩ := Option.map_eq_some_iff.mp hledger
  rw [hins, ← taskLedger_iff, ← hids]
  constructor
  · rintro ⟨t'', ht'', h⟩
    obtain rfl : t' = t'' := Option.some_inj.mp (ht'.symm.trans ht'')
    exact h
  · intro h
    exact ⟨t', ht', h⟩

/-! A document of two chunks, with and without a table of contents. -/

def twoChunks (tocExtraction : Bool) : TaskContext :=
  { id := "p0", docId := "d", kbId := "kb", tenantId := "t", parserId := "naive",
    parserConfig := { tocExtraction } }

def twoChunksBuilt : Built :=
  { chunks := [⟨"x", "d", none, none⟩, ⟨"y", "d", none, none⟩]
    tokenCount := 10
    toc := some ⟨"c", "d", none, none⟩ }

def twoChunksEnv : ExecEnv :=
  { docBulkSize := 4, bulk_pos := by decide, hash := id, caseTable := CaseTable.ascii }

def twoChunksTask : Task :=
  { id := "p0", docId := "d", fromPage := 0, toPage := 12, taskType := [], priority := 0,
    progress := 0, digest := "g0", chunkIds := [], createTime := 0 }

def twoChunksWorld : World :=
  { db := { halvesDb [] with tasks := ⟨[twoChunksTask], by decide⟩, chunks := Table.empty }
    raised := [] }

/-- The run of the task. -/
def twoChunksRun (tocExtraction : Bool) : Except Err Bool × World :=
  (handleTask twoChunksEnv (twoChunks tocExtraction) twoChunksBuilt).exec halvesSu twoChunksWorld

theorem handleTask_ledger_plain :
    (twoChunksRun false).1 = .ok true ∧
      ∃ t', (twoChunksRun false).2.db.tasks.get? "p0" = some t' ∧
        ∀ id, id ∈ t'.chunkIds ↔ id ∈ inserted halvesSu
          (handleTask twoChunksEnv (twoChunks false) twoChunksBuilt) twoChunksWorld := by
  have hrun : twoChunksRun false = (.ok true, (twoChunksRun false).2) := rfl
  refine ⟨rfl, (handleTask_ledger_iff twoChunksEnv (twoChunks false) twoChunksBuilt halvesSu
    twoChunksWorld _ twoChunksTask rfl hrun).mpr ?_⟩
  intro c hc htext
  rcases List.mem_cons.mp hc with rfl | hc
  · exact absurd rfl htext
  · rw [List.mem_singleton] at hc
    subst hc
    exact absurd rfl htext

/-- With the table of contents the task lists `c` alone, although it has inserted `x`, `y` and
`c`. -/
theorem handleTask_ledger_toc :
    (twoChunksRun true).1 = .ok true ∧
      ¬ ∃ t', (twoChunksRun true).2.db.tasks.get? "p0" = some t' ∧
        ∀ id, id ∈ t'.chunkIds ↔ id ∈ inserted halvesSu
          (handleTask twoChunksEnv (twoChunks true) twoChunksBuilt) twoChunksWorld := by
  refine ⟨rfl, ?_⟩
  rintro ⟨t', ht', h⟩
  have hins : inserted halvesSu (handleTask twoChunksEnv (twoChunks true) twoChunksBuilt)
      twoChunksWorld = [("x" : Str), "y", "c"] := rfl
  cases ht'
  have hx := (h "x").mpr (hins ▸ List.mem_cons_self)
  exact absurd hx (by decide)

end RagFlow
