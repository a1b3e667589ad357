import RagFlow.Db
import RagFlow.FileType

/-! # Queueing the tasks of a document

`queueTasks` divides a document into tasks, lets each of them take over the chunks of a finished
task of the previous run with the same first page and digest (`reusePrevTaskChunks`), deletes the
chunks nobody took over, and queues what is left to do.  `taskRanges` is the division: the pages
of a PDF, the rows of a table, or a single task.

Taking over works in place: the list of the previous task is emptied, so that a second task with
the same first page and digest finds it empty, and what has not been emptied at the end is
deleted.  `claimed` says which previous tasks are taken over, without running the loop, and
`reuseAll_prev`, `reuseAll_tasks` show that the loop does just that.

Chunk identifiers are hashes of content and document, so two page ranges with the same text share
them.  `queueTasks_reuse_iff` is the consequence: what the new tasks took over survives the
deletion exactly when no stored chunk is at the same time in a list that was taken over and in a
list that was not. -/

namespace RagFlow

open Py

/-- What the parsers and the clock say. -/
structure ParseEnv where
  /-- `PdfParser.total_page_number` of the file at a storage address. -/
  totalPageNumber : Str → Str → Option ℕ
  /-- `RAGFlowExcelParser.row_number` of the file at a storage address. -/
  rowNumber : Str → Str → ℕ
  /-- The digest of the chunking configuration and of a page range. -/
  digest : Document → Knowledgebase → ℤ → ℤ → Str
  /-- `current_timestamp()`. -/
  now : ℕ
  /-- `random.random() * 1 / 100.0`. -/
  random : ℚ

/-! ### The division into tasks -/

/-- `range(start, stop, step)` for a positive step. -/
def pyRange (start stop : ℤ) (step : ℕ) : List ℤ :=
  (List.range (((stop - start).toNat + step - 1) / step)).map (fun i => start + (i * step : ℕ))

/-- `doc["parser_config"].get("task_page_size") or default`. -/
def pageSizeOr (config : ParserConfig) (default : ℕ) : ℕ :=
  match config.taskPageSize with
  | none | some 0 => default
  | some n => n

/-- The number of pages of a task. -/
def taskPageSize (doc : Document) : ℕ :=
  if doc.parserId ∈ (["one", "knowledge_graph"] : List Str) ||
      doc.parserConfig.layoutRecognize.getD "DeepDOC" ≠ "DeepDOC" ||
      doc.parserConfig.tocExtraction then 10 ^ 9
  else if doc.parserId = "paper" then pageSizeOr doc.parserConfig 22
  else pageSizeOr doc.parserConfig 12

/-- The page intervals of one entry `(s, e)` of the page ranges. -/
def pageIntervals (pageSize pages : ℕ) (r : ℤ × ℤ) : List (ℤ × ℤ) :=
  let s := max 0 (r.1 - 1)
  let e := min (r.2 - 1) pages
  (pyRange s e pageSize).map (fun p => (p, min (p + pageSize) e))

/-- The intervals of the tasks of a document. -/
def taskRanges (env : ParseEnv) (doc : Document) (bucket name : Str) : List (ℤ × ℤ) :=
  match taskBranch doc.type doc.parserId with
  | .pdfPages =>
      let ranges := if doc.parserConfig.pages.isEmpty then [(1, 10 ^ 5)] else doc.parserConfig.pages
      ranges.flatMap
        (pageIntervals (taskPageSize doc) ((env.totalPageNumber bucket name).getD 0))
  | .tableRows =>
      let rn : ℤ := env.rowNumber bucket name
      (pyRange 0 rn 3000).map (fun i => (i, min (i + 3000) rn))
  | .single => [(0, 100000000)]

/-- `new_task()` for an interval. -/
def newTask (doc : Document) (id : Str) (r : ℤ × ℤ) : Task :=
  { id, docId := doc.id, fromPage := r.1, toPage := r.2, taskType := [], priority := 0,
    progress := 0, digest := [], chunkIds := [], createTime := 0 }

/-- The tasks of the intervals, each with an identifier of its own. -/
def newTasks (doc : Document) : List (ℤ × ℤ) → Service (List Task)
  | [] => pure []
  | r :: rs => do
      let id ← issue .taskUuid doc.id .uuid4
      let ts ← newTasks doc rs
      pure (newTask doc id r :: ts)

/-! ### Taking over the chunks of previous tasks -/

/-- What two tasks have to agree on: the first page and the digest. -/
def Task.key (t : Task) : ℤ × Str := (t.fromPage, t.digest)

/-- `reuse_prev_task_chunks`: the task, the previous tasks and the number of chunks. -/
def reusePrevTaskChunks (task : Task) : List Task → Task × List Task × ℕ
  | [] => (task, [], 0)
  | p :: prev =>
      if p.key = task.key then
        if p.progress < 1 || p.chunkIds.isEmpty then (task, p :: prev, 0)
        else ({ task with chunkIds := p.chunkIds, progress := 1 },
          { p with chunkIds := [] } :: prev, p.chunkIds.length)
      else
        let (t, ps, n) := reusePrevTaskChunks task prev
        (t, p :: ps, n)

/-- The loop over the new tasks. -/
def reuseAll : List Task → List Task → List Task × List Task × ℕ
  | [], prev => ([], prev, 0)
  | t :: ts, prev =>
      let (t, prev, n) := reusePrevTaskChunks t prev
      let (ts, prev, m) := reuseAll ts prev
      (t :: ts, prev, n + m)

/-! ### `queue_tasks` -/

/-- The digests and creation times of the new tasks; the configuration is read for each. -/
def digestTasks (env : ParseEnv) (doc : Document) (priority : ℤ)
    (config : Option (Document × Knowledgebase)) (tasks : List Task) : Service (List Task) :=
  match config, tasks with
  | none, [] => pure []
  | none, _ :: _ => do
      issue .chunkingConfig doc.id (.raiseError .doesNotExist)
      pure []
  | some (d, kb), tasks =>
      pure (tasks.mapIdx (fun i t => { t with
        digest := env.digest d kb t.fromPage t.toPage
        priority := priority
        createTime := env.now + i }))

/-- Deletion of the chunks that no new task took over. -/
def deletePrevChunks (doc : Document) (config : Option (Document × Knowledgebase))
    (ids : List Str) : Service Unit :=
  match config with
  | none => issue .prevChunksDelete doc.id (.raiseError .doesNotExist)
  | some (d, kb) =>
      issue .prevChunksDelete doc.id (.deleteChunks ids (indexName (some kb.tenantId)) d.kbId)

/-- The reuse step: the new tasks after it and the number of chunks taken over. -/
def reuseStep (doc : Document) (config : Option (Document × Knowledgebase))
    (tasks prev : List Task) : Service (List Task × ℕ) := do
  if prev.isEmpty then pure (tasks, 0)
  else
    let (tasks, prev, ckNum) := reuseAll tasks prev
    issue .prevTasksDelete doc.id (.deleteTasks doc.id)
    let preChunkIds := prev.flatMap (·.chunkIds)
    if preChunkIds.isEmpty then pure (tasks, ckNum)
    else
      deletePrevChunks doc config preChunkIds
      pure (tasks, ckNum)

/-- The unfinished tasks go to the queue. -/
def queueUnfinished (doc : Document) : List Task → Service Unit
  | [] => pure ()
  | t :: ts => do
      if t.progress < 1 then issue .queueTask doc.id (.queueProduct t)
      queueUnfinished doc ts

/-- `DocumentService.begin2parse`. -/
def begin2parse (env : ParseEnv) (docId : Str) : Service Unit := do
  let _ ← issue .begin2parse docId
    (.updateDocument docId { progress := some env.random, run := some .running })

/-- `queue_tasks` from the newly built tasks on. -/
def enqueueTasks (env : ParseEnv) (doc : Document) (config : Option (Document × Knowledgebase))
    (tasks : List Task) : Service Unit := do
  let prev ← issue .tasksQuery doc.id (.tasksOf doc.id)
  let (tasks, ckNum) ← reuseStep doc config tasks prev
  let _ ← issue .chunkNumUpdate doc.id (.updateDocument doc.id { chunkNum := some ckNum })
  issue .tasksInsert doc.id (.insertTasks tasks)
  begin2parse env doc.id
  queueUnfinished doc tasks

/-- `queue_tasks`. -/
def queueTasks (env : ParseEnv) (doc : Document) (bucket name : Str) (priority : ℤ) :
    Service Unit := do
  if taskBranch doc.type doc.parserId ≠ .single then issue .readFile doc.id .external
  let tasks ← newTasks doc (taskRanges env doc bucket name)
  let config ← issue .chunkingConfig doc.id (.chunkingConfig doc.id)
  let tasks ← digestTasks env doc priority config tasks
  enqueueTasks env doc config tasks

/-- `queue_dataflow`: the answer of the queue is not looked at. -/
def queueDataflow (env : ParseEnv) (doc : Document) : Service Unit := do
  let id ← issue .taskUuid doc.id .uuid4
  let task : Task := { newTask doc id (0, 100000000) with
    taskType := "dataflow", createTime := env.now }
  issue .prevTasksDelete doc.id (.deleteTasks doc.id)
  begin2parse env doc.id
  issue .tasksInsert doc.id (.insertTasks [task])
  issue .kbIdGet doc.id .external
  try issue .queueTask doc.id (.queueProduct task) catch _ => pure ()

/-! ### Which previous tasks are taken over -/

section reuse
variable (new : List Task)

/-- The previous task is taken over: it is the first one with its key (`seen` holds the keys
before it), it is finished and has chunks, and some new task has its key. -/
def claimed (seen : List (ℤ × Str)) (p : Task) : Bool :=
  !seen.contains p.key && decide (1 ≤ p.progress) && !p.chunkIds.isEmpty &&
    (new.map Task.key).contains p.key

/-- The previous tasks that are taken over. -/
def takenOver : List (ℤ × Str) → List Task → List Task
  | _, [] => []
  | seen, p :: prev =>
      if claimed new seen p then p :: takenOver (p.key :: seen) prev
      else takenOver (p.key :: seen) prev

/-- The previous tasks that are not. -/
def leftBehind : List (ℤ × Str) → List Task → List Task
  | _, [] => []
  | seen, p :: prev =>
      if claimed new seen p then leftBehind (p.key :: seen) prev
      else p :: leftBehind (p.key :: seen) prev

/-- The previous tasks after the loop: those taken over have lost their chunks. -/
def settle : List (ℤ × Str) → List Task → List Task
  | _, [] => []
  | seen, p :: prev =>
      (if claimed new seen p then { p with chunkIds := [] } else p) :: settle (p.key :: seen) prev

end reuse

/-- A task whose key came before is not taken over. -/
theorem claimed_of_seen {new : List Task} {seen : List (ℤ × Str)} {p : Task}
    (h : ∀ t ∈ new, t.key ∈ seen) : claimed new seen p = false := by
  unfold claimed
  by_cases hk : (new.map Task.key).contains p.key = true
  · obtain ⟨t, ht, htk⟩ := List.mem_map.mp (List.contains_iff_mem.mp hk)
    have hs : p.key ∈ seen := htk ▸ h t ht
    simp [hs]
  · simp only [Bool.not_eq_true] at hk
    rw [hk, Bool.and_false]

/-- With one new task more, what it claims is claimed. -/
theorem claimed_cons (t : Task) (ts : List Task) {seen : List (ℤ × Str)} {p : Task} :
    claimed (t :: ts) seen p = (claimed [t] seen p || claimed ts seen p) := by
  unfold claimed
  rw [← Bool.and_or_distrib_left]
  simp only [List.map_cons, List.map_nil, List.contains_cons, List.contains_nil, Bool.or_false]

/-- A task that has lost its chunks is not taken over. -/
theorem claimed_emptied {new : List Task} {seen : List (ℤ × Str)} {p : Task} :
    claimed new seen { p with chunkIds := [] } = false := by
  unfold claimed
  simp

theorem settle_of_seen {new : List Task} (prev : List Task) : ∀ seen : List (ℤ × Str),
    (∀ t ∈ new, t.key ∈ seen) → settle new seen prev = prev := by
  induction prev with
  | nil => intro seen _; rfl
  | cons p prev ih =>
      intro seen h
      simp only [settle, claimed_of_seen h, Bool.false_eq_true, if_false]
      rw [ih _ (fun t ht => List.mem_cons_of_mem _ (h t ht))]

theorem takenOver_of_seen {new : List Task} (prev : List Task) : ∀ seen : List (ℤ × Str),
    (∀ t ∈ new, t.key ∈ seen) → takenOver new seen prev = [] := by
  induction prev with
  | nil => intro seen _; rfl
  | cons p prev ih =>
      intro seen h
      simp only [takenOver, claimed_of_seen h, Bool.false_eq_true, if_false]
      exact ih _ (fun t ht => List.mem_cons_of_mem _ (h t ht))

/-- One new task takes over one list or none. -/
theorem reusePrevTaskChunks_spec (t : Task) (prev : List Task) : ∀ seen : List (ℤ × Str),
    t.key ∉ seen →
      (takenOver [t] seen prev = [] ∧
        reusePrevTaskChunks t prev = (t, settle [t] seen prev, 0)) ∨
      ∃ p, takenOver [t] seen prev = [p] ∧ p.key = t.key ∧
        reusePrevTaskChunks t prev = ({ t with chunkIds := p.chunkIds, progress := 1 },
          settle [t] seen prev, p.chunkIds.length) := by
  induction prev with
  | nil => intro seen _; exact Or.inl ⟨rfl, rfl⟩
  | cons p prev ih =>
      intro seen hs
      simp only [reusePrevTaskChunks, takenOver, settle]
      by_cases hk : p.key = t.key
      · have hseen : ∀ u ∈ [t], u.key ∈ p.key :: seen := by simp [hk]
        rw [if_pos hk, takenOver_of_seen prev _ hseen, settle_of_seen prev _ hseen]
        by_cases hp : (decide (p.progress < 1) || p.chunkIds.isEmpty) = true
        · have hc : claimed [t] seen p = false := by
            simp only [Bool.or_eq_true, decide_eq_true_eq] at hp
            unfold claimed
            rcases hp with hp | hp
            · simp [not_le.mpr hp]
            · simp [hp]
          exact Or.inl (by simp [hp, hc])
        · have hc : claimed [t] seen p = true := by
            simp only [Bool.or_eq_true, decide_eq_true_eq, not_or, not_lt] at hp
            unfold claimed
            simp [hk, hs, hp.1, hp.2]
          refine Or.inr ⟨p, ?_, hk, ?_⟩
          · rw [if_pos hc]
          · rw [if_neg hp, if_pos hc]
      · have hc : claimed [t] seen p = false := by
          unfold claimed
          simp [hk]
        rw [if_neg hk]
        simp only [hc, Bool.false_eq_true, if_false]
        rcases ih (p.key :: seen) (by simp [hs, Ne.symm hk]) with ⟨hnil, heq⟩ | ⟨q, hq, hqk, heq⟩
        · rw [heq]
          exact Or.inl ⟨hnil, rfl⟩
        · rw [heq]
          exact Or.inr ⟨q, hq, hqk, rfl⟩

/-- One new task settles the previous tasks as `settle` says. -/
theorem reusePrevTaskChunks_prev (t : Task) (prev : List Task) :
    (reusePrevTaskChunks t prev).2.1 = settle [t] [] prev := by
  rcases reusePrevTaskChunks_spec t prev [] List.not_mem_nil with ⟨-, heq⟩ | ⟨p, -, -, heq⟩
  · rw [heq]
  · rw [heq]

theorem settle_settle (t : Task) (ts prev : List Task) : ∀ seen : List (ℤ × Str),
    settle ts seen (settle [t] seen prev) = settle (t :: ts) seen prev := by
  induction prev with
  | nil => intro seen; rfl
  | cons p prev ih =>
      intro seen
      simp only [settle, claimed_cons t ts]
      cases h : claimed [t] seen p with
      | true =>
          simp only [if_true, claimed_emptied, Bool.true_or, Bool.false_eq_true, if_false]
          rw [← ih]
          rfl
      | false =>
          simp only [Bool.false_eq_true, if_false, Bool.false_or]
          rw [ih]

/-- What a longer list of new tasks takes over is what its first task takes over and what the
others find afterwards. -/
theorem takenOver_cons (t : Task) (ts prev : List Task) : ∀ seen : List (ℤ × Str),
    (takenOver (t :: ts) seen prev).Perm
      (takenOver [t] seen prev ++ takenOver ts seen (settle [t] seen prev)) := by
  induction prev with
  | nil => intro seen; exact List.Perm.refl _
  | cons p prev ih =>
      intro seen
      simp only [takenOver, settle, claimed_cons t ts]
      cases h : claimed [t] seen p with
      | true =>
          simp only [if_true, claimed_emptied, Bool.true_or, Bool.false_eq_true, if_false]
          exact (ih (p.key :: seen)).cons p
      | false =>
          simp only [Bool.false_eq_true, if_false, Bool.false_or]
          split_ifs with h'
          · exact ((ih (p.key :: seen)).cons p).trans List.perm_middle.symm
          · exact ih (p.key :: seen)

/-- The loop empties exactly the lists of the claimed tasks. -/
theorem reuseAll_prev (ts : List Task) : ∀ prev : List Task,
    (reuseAll ts prev).2.1 = settle ts [] prev := by
  induction ts with
  | nil => intro prev; exact (settle_of_seen prev [] (by simp)).symm
  | cons t ts ih =>
      intro prev
      simp only [reuseAll]
      rw [ih, reusePrevTaskChunks_prev, settle_settle]

theorem reuseAll_nil (ts : List Task) : reuseAll ts [] = (ts, [], 0) := by
  induction ts with
  | nil => rfl
  | cons t ts ih => simp only [reuseAll, reusePrevTaskChunks, ih]

/-- What is handed over: the first page and the digest together with the chunks. -/
def handing (t : Task) : (ℤ × Str) × List Str := (t.key, t.chunkIds)

/-- The tasks that are finished without having been executed. -/
def reused (ts : List Task) : List Task := ts.filter (1 ≤ ·.progress)

/-- One new task receives what it takes over. -/
theorem reusePrevTaskChunks_task {t : Task} (ht : t.progress < 1) (prev : List Task) :
    (reused [(reusePrevTaskChunks t prev).1]).map handing =
      (takenOver [t] [] prev).map handing := by
  rcases reusePrevTaskChunks_spec t prev [] List.not_mem_nil with ⟨hnil, heq⟩ | ⟨p, hp, hk, heq⟩
  · rw [heq, hnil]
    unfold reused
    simp [not_le.mpr ht]
  · have hkey : Task.key { t with chunkIds := p.chunkIds, progress := 1 } = p.key := hk.symm
    rw [heq, hp]
    simp [reused, handing, hkey]

/-- The new tasks receive what is taken over, each list once. -/
theorem reuseAll_tasks (ts : List Task) : ∀ prev : List Task, (∀ t ∈ ts, t.progress < 1) →
    ((reused (reuseAll ts prev).1).map handing).Perm ((takenOver ts [] prev).map handing) := by
  induction ts with
  | nil =>
      intro prev _
      rw [takenOver_of_seen prev [] (by simp)]
      exact List.Perm.refl _
  | cons t ts ih =>
      intro prev h
      have hsplit : reused (reuseAll (t :: ts) prev).1 =
          reused [(reusePrevTaskChunks t prev).1] ++
            reused (reuseAll ts (settle [t] [] prev)).1 := by
        simp only [reuseAll, reusePrevTaskChunks_prev]
        exact List.filter_append [_] _
      rw [hsplit, List.map_append,
        reusePrevTaskChunks_task (h t List.mem_cons_self) prev]
      have htail := ih (settle [t] [] prev) (fun u hu => h u (List.mem_cons_of_mem _ hu))
      refine (htail.append_left _).trans ?_
      rw [← List.map_append]
      exact (takenOver_cons t ts prev []).symm.map _

/-- The number the loop returns is the number of chunks taken over. -/
theorem reuseAll_count (ts : List Task) : ∀ prev : List Task,
    (reuseAll ts prev).2.2 = ((takenOver ts [] prev).map (·.chunkIds.length)).sum := by
  induction ts with
  | nil =>
      intro prev
      rw [takenOver_of_seen prev [] (by simp)]
      rfl
  | cons t ts ih =>
      intro prev
      have hhead : (reusePrevTaskChunks t prev).2.2 =
          ((takenOver [t] [] prev).map (·.chunkIds.length)).sum := by
        rcases reusePrevTaskChunks_spec t prev [] List.not_mem_nil with
          ⟨hnil, heq⟩ | ⟨p, hp, -, heq⟩
        · rw [heq, hnil]
          rfl
        · rw [heq, hp]
          simp
      simp only [reuseAll, ih, reusePrevTaskChunks_prev, hhead]
      rw [((takenOver_cons t ts prev []).map _).sum_eq, List.map_append, List.sum_append]

theorem takenOver_sublist (new prev : List Task) : ∀ seen : List (ℤ × Str),
    (takenOver new seen prev).Sublist prev := by
  induction prev with
  | nil => intro seen; exact List.Sublist.slnil
  | cons p prev ih =>
      intro seen
      simp only [takenOver]
      split_ifs
      · exact (ih _).cons_cons p
      · exact (ih _).cons p

/-- No two tasks with the same key are taken over. -/
theorem takenOver_keys (new prev : List Task) : ∀ seen : List (ℤ × Str),
    ((takenOver new seen prev).map Task.key).Nodup ∧
      ∀ p ∈ takenOver new seen prev, p.key ∉ seen := by
  induction prev with
  | nil => intro seen; exact ⟨List.nodup_nil, by simp [takenOver]⟩
  | cons p prev ih =>
      intro seen
      obtain ⟨hnodup, hseen⟩ := ih (p.key :: seen)
      have hseen' : ∀ q ∈ takenOver new (p.key :: seen) prev, q.key ∉ seen := by
        intro q hq hqs
        exact hseen q hq (List.mem_cons_of_mem _ hqs)
      simp only [takenOver]
      split_ifs with hc
      · have hp : p.key ∉ seen := by
          unfold claimed at hc
          intro hp
          simp [hp] at hc
        refine ⟨List.nodup_cons.mpr ⟨?_, hnodup⟩, ?_⟩
        · intro hmem
          obtain ⟨q, hq, hqk⟩ := List.mem_map.mp hmem
          exact hseen q hq (hqk ▸ List.mem_cons_self)
        · intro q hq
          rcases List.mem_cons.mp hq with rfl | hq
          · exact hp
          · exact hseen' q hq
      · exact ⟨hnodup, hseen'⟩

/-- What the loop leaves in the lists of the previous tasks. -/
theorem settle_chunkIds (new prev : List Task) : ∀ seen : List (ℤ × Str),
    (settle new seen prev).flatMap (·.chunkIds) =
      (leftBehind new seen prev).flatMap (·.chunkIds) := by
  induction prev with
  | nil => intro seen; rfl
  | cons p prev ih =>
      intro seen
      simp only [settle, leftBehind, List.flatMap_cons]
      split_ifs
      · rw [ih, List.nil_append]
      · rw [ih, List.flatMap_cons]

theorem mem_takenOver_or_leftBehind (new prev : List Task) : ∀ seen : List (ℤ × Str),
    ∀ p ∈ prev, p ∈ takenOver new seen prev ∨ p ∈ leftBehind new seen prev := by
  induction prev with
  | nil => intro seen p hp; exact absurd hp List.not_mem_nil
  | cons q prev ih =>
      intro seen p hp
      simp only [takenOver, leftBehind]
      rcases List.mem_cons.mp hp with rfl | hp
      · split_ifs
        · exact Or.inl List.mem_cons_self
        · exact Or.inr List.mem_cons_self
      · have := ih (q.key :: seen) p hp
        split_ifs
        · exact this.imp_left (List.mem_cons_of_mem _)
        · exact this.imp_right (List.mem_cons_of_mem _)

/-! ### What a successful run does to the document store -/

/-- Queueing appends the unfinished tasks to the queue and changes nothing else. -/
theorem queueUnfinished_eq_ok {su : Surroundings} {doc : Document} (ts : List Task) :
    ∀ {w w' : World}, (queueUnfinished doc ts).exec su w = (.ok (), w') →
      w'.db = { w.db with queue := w.db.queue ++ ts.filter (·.progress < 1) } := by
  induction ts with
  | nil =>
      intro w w' h
      cases h
      rw [List.filter_nil, List.append_nil]
  | cons t ts ih =>
      intro w w' h
      unfold queueUnfinished at h
      split_ifs at h with ht
      · obtain ⟨_, w₁, h₁, h₂⟩ := Service.exec_bind_eq_ok h
        obtain ⟨-, -, rfl⟩ := exec_issue_eq_ok h₁
        rw [ih h₂]
        simp only [Db.apply, List.filter_cons, ht, decide_true, if_true, List.append_assoc,
          List.singleton_append]
      · rw [ih h]
        simp only [List.filter_cons, ht, decide_false, Bool.false_eq_true, if_false]

/-- The reuse step returns the tasks of the loop and the number of chunks taken over. -/
theorem reuseStep_eq_ok {su : Surroundings} {doc : Document}
    {config : Option (Document × Knowledgebase)} {ts prev : List Task} {w w' : World}
    {r : List Task × ℕ} (h : (reuseStep doc config ts prev).exec su w = (.ok r, w')) :
    r = ((reuseAll ts prev).1, (reuseAll ts prev).2.2) ∧
      ∃ tasks chunks, w'.db = { w.db with tasks, chunks } := by
  unfold reuseStep at h
  split_ifs at h with hprev
  · cases h
    rw [List.isEmpty_iff.mp hprev, reuseAll_nil]
    exact ⟨rfl, w.db.tasks, w.db.chunks, rfl⟩
  · obtain ⟨_, w₁, h₁, h⟩ := Service.exec_bind_eq_ok h
    obtain ⟨-, -, rfl⟩ := exec_issue_eq_ok h₁
    dsimp only at h
    split_ifs at h with hids
    · cases h
      exact ⟨rfl, _, _, rfl⟩
    · obtain ⟨_, w₂, h₂, h⟩ := Service.exec_bind_eq_ok h
      cases h
      refine ⟨rfl, ?_⟩
      unfold deletePrevChunks at h₂
      split at h₂
      · obtain ⟨-, hok, -⟩ := exec_issue_eq_ok h₂
        cases hok
      · obtain ⟨-, -, rfl⟩ := exec_issue_eq_ok h₂
        exact ⟨_, _, rfl⟩

/-- The reuse step deletes what nobody took over. -/
theorem reuseStep_chunks {su : Surroundings} {doc d : Document} {kb : Knowledgebase}
    {ts prev : List Task} {w w' : World} {r : List Task × ℕ}
    (h : (reuseStep doc (some (d, kb)) ts prev).exec su w = (.ok r, w')) :
    ∀ c, c ∈ w'.db.chunks ↔ c ∈ w.db.chunks ∧
      ¬ (Db.inKb (indexName (some kb.tenantId)) d.kbId c = true ∧
        c.id ∈ (leftBehind ts [] prev).flatMap (·.chunkIds)) := by
  intro c
  unfold reuseStep at h
  split_ifs at h with hprev
  · cases h
    rw [List.isEmpty_iff.mp hprev]
    simp [leftBehind]
  · obtain ⟨_, w₁, h₁, h⟩ := Service.exec_bind_eq_ok h
    obtain ⟨-, -, rfl⟩ := exec_issue_eq_ok h₁
    rw [reuseAll_prev, settle_chunkIds] at h
    dsimp only at h
    split_ifs at h with hids
    · cases h
      rw [List.isEmpty_iff.mp hids]
      simp [Db.apply]
    · obtain ⟨_, w₂, h₂, h⟩ := Service.exec_bind_eq_ok h
      obtain ⟨-, -, rfl⟩ := exec_issue_eq_ok h₂
      cases h
      simp [Db.apply]

/-- The insertion of an empty list of tasks raises. -/
theorem insertTasks_ne_nil {su : Surroundings} {p : Point} {key : Str} {ts : List Task}
    {w w' : World} (h : (issue p key (.insertTasks ts)).exec su w = (.ok (), w')) : ts ≠ [] := by
  obtain ⟨-, hok, -⟩ := exec_issue_eq_ok h
  rintro rfl
  cases hok

/-- The document after `queue_tasks` with `ckNum` chunks taken over. -/
def queued (env : ParseEnv) (column : FloatColumn) (ckNum : ℕ) (d : Document) : Document :=
  { d with chunkNum := ckNum, progress := column.store env.random, run := .running }

/-- The parts of a successful `enqueueTasks`: the reuse step, and after it a change of the tasks,
of the queue and of the row of the document. -/
theorem enqueueTasks_eq_ok {env : ParseEnv} {su : Surroundings} {doc : Document}
    {config : Option (Document × Knowledgebase)} {ts : List Task} {w w' : World}
    (h : (enqueueTasks env doc config ts).exec su w = (.ok (), w')) :
    ∃ r w₁, (reuseStep doc config ts (w.db.getTasks doc.id)).exec su w = (.ok r, w₁) ∧
      r.1 ≠ [] ∧ ∃ tasks, w'.db = { w₁.db with
        tasks
        queue := w₁.db.queue ++ r.1.filter (·.progress < 1)
        documents := w₁.db.documents.updateWhere (·.id = doc.id)
          (queued env w₁.db.engine.number r.2) (fun _ => rfl) } := by
  obtain ⟨prev, w₁, h₁, h⟩ := Service.exec_bind_eq_ok h
  obtain ⟨-, hprev, rfl⟩ := exec_issue_eq_ok h₁
  cases hprev
  obtain ⟨⟨ts', ckNum⟩, w₂, h₂, h⟩ := Service.exec_bind_eq_ok h
  obtain ⟨_, w₃, h₃, h⟩ := Service.exec_bind_eq_ok h
  obtain ⟨-, -, rfl⟩ := exec_issue_eq_ok h₃
  obtain ⟨_, w₄, h₄, h⟩ := Service.exec_bind_eq_ok h
  have hne := insertTasks_ne_nil h₄
  obtain ⟨-, -, rfl⟩ := exec_issue_eq_ok h₄
  obtain ⟨_, w₅, h₅, h⟩ := Service.exec_bind_eq_ok h
  obtain ⟨_, w₆, h₆, h₅⟩ := Service.exec_bind_eq_ok h₅
  cases h₅
  obtain ⟨-, -, rfl⟩ := exec_issue_eq_ok h₆
  have hqueue := queueUnfinished_eq_ok _ h
  refine ⟨(ts', ckNum), w₂, h₂, hne, ?_⟩
  cases ts' with
  | nil => exact absurd rfl hne
  | cons t ts' =>
      have hdocuments : (w₂.db.documents.updateWhere (·.id = doc.id)
          (DocumentUpdate.apply w₂.db.engine.number { chunkNum := some ckNum })
            (fun _ => rfl)).updateWhere (·.id = doc.id)
              (DocumentUpdate.apply w₂.db.engine.number
                { progress := some env.random, run := some .running }) (fun _ => rfl) =
          w₂.db.documents.updateWhere (·.id = doc.id) (queued env w₂.db.engine.number ckNum)
            (fun _ => rfl) :=
        Table.updateWhere_updateWhere
      refine ⟨(t :: ts').foldl Table.upsert w₂.db.tasks, ?_⟩
      rw [hqueue]
      simp only [Db.apply]
      rw [hdocuments]

/-! ### The tasks `queue_tasks` builds -/

/-- The tasks of the intervals when the identifiers are drawn from position `n` on. -/
def newTasksFrom (doc : Document) (uuid : ℕ → Str) : ℕ → List (ℤ × ℤ) → List Task
  | _, [] => []
  | n, r :: rs => newTask doc (uuid n) r :: newTasksFrom doc uuid (n + 1) rs

/-- The newly built tasks, with the digest for the configuration `(d, kb)`. -/
def builtTasks (env : ParseEnv) (doc : Document) (bucket name : Str) (priority : ℤ)
    (uuid : ℕ → Str) (n : ℕ) (d : Document) (kb : Knowledgebase) : List Task :=
  (newTasksFrom doc uuid n (taskRanges env doc bucket name)).mapIdx (fun i t => { t with
    digest := env.digest d kb t.fromPage t.toPage
    priority := priority
    createTime := env.now + i })

theorem newTasksFrom_progress (doc : Document) (uuid : ℕ → Str) (rs : List (ℤ × ℤ)) :
    ∀ n, ∀ t ∈ newTasksFrom doc uuid n rs, t.progress = 0 := by
  induction rs with
  | nil => intro n t ht; exact absurd ht List.not_mem_nil
  | cons r rs ih =>
      intro n t ht
      rcases List.mem_cons.mp ht with rfl | ht
      · rfl
      · exact ih _ t ht

theorem builtTasks_progress {env : ParseEnv} {doc : Document} {bucket name : Str} {priority : ℤ}
    {uuid : ℕ → Str} {n : ℕ} {d : Document} {kb : Knowledgebase} :
    ∀ t ∈ builtTasks env doc bucket name priority uuid n d kb, t.progress < 1 := by
  intro t ht
  obtain ⟨i, hi, rfl⟩ := List.mem_mapIdx.mp ht
  show (newTasksFrom doc uuid n (taskRanges env doc bucket name))[i].progress < 1
  rw [newTasksFrom_progress doc uuid _ n _ (List.getElem_mem hi)]
  exact zero_lt_one

/-- Building the tasks draws identifiers and changes nothing else. -/
theorem newTasks_spec {su : Surroundings} {doc : Document} (rs : List (ℤ × ℤ)) :
    ∀ {w w' : World} {ts : List Task}, (newTasks doc rs).exec su w = (.ok ts, w') →
      ts = newTasksFrom doc su.uuid w.db.nextUuid rs ∧
        w' = { w with db := { w.db with nextUuid := w.db.nextUuid + rs.length } } := by
  induction rs with
  | nil =>
      intro w w' ts h
      cases h
      exact ⟨rfl, rfl⟩
  | cons r rs ih =>
      intro w w' ts h
      obtain ⟨id, w₁, h₁, h⟩ := Service.exec_bind_eq_ok h
      obtain ⟨-, hid, rfl⟩ := exec_issue_eq_ok h₁
      obtain ⟨ts', w₂, h₂, h⟩ := Service.exec_bind_eq_ok h
      obtain ⟨rfl, rfl⟩ := ih h₂
      cases h
      cases hid
      refine ⟨rfl, ?_⟩
      simp only [Db.apply, List.length_cons, Nat.add_assoc, Nat.add_comm 1]

/-- A successful `queue_tasks` has found the configuration, built its tasks and enqueued them. -/
theorem queueTasks_eq_ok {env : ParseEnv} {su : Surroundings} {doc : Document}
    {bucket name : Str} {priority : ℤ} {w w' : World}
    (h : (queueTasks env doc bucket name priority).exec su w = (.ok (), w')) :
    ∃ d kb n, w.db.getChunkingConfig doc.id = some (d, kb) ∧
      (enqueueTasks env doc (some (d, kb))
        (builtTasks env doc bucket name priority su.uuid w.db.nextUuid d kb)).exec su
        { w with db := { w.db with nextUuid := n } } = (.ok (), w') := by
  have hread : (do
      let tasks ← newTasks doc (taskRanges env doc bucket name)
      let config ← issue .chunkingConfig doc.id (.chunkingConfig doc.id)
      let tasks ← digestTasks env doc priority config tasks
      enqueueTasks env doc config tasks : Service Unit).exec su w = (.ok (), w') := by
    unfold queueTasks at h
    split_ifs at h
    · obtain ⟨_, w₁, h₁, h⟩ := Service.exec_bind_eq_ok h
      obtain ⟨-, -, rfl⟩ := exec_issue_eq_ok h₁
      exact h
    · exact h
  obtain ⟨ts, w₁, h₁, h⟩ := Service.exec_bind_eq_ok hread
  obtain ⟨rfl, rfl⟩ := newTasks_spec _ h₁
  obtain ⟨config, w₂, h₂, h⟩ := Service.exec_bind_eq_ok h
  obtain ⟨-, hconfig, rfl⟩ := exec_issue_eq_ok h₂
  obtain ⟨ts, w₃, h₃, h⟩ := Service.exec_bind_eq_ok h
  cases config with
  | none =>
      -- without a configuration the digests raise, and so does the insertion of no tasks
      cases htasks : newTasksFrom doc su.uuid w.db.nextUuid (taskRanges env doc bucket name) with
      | nil =>
          rw [htasks] at h₃
          cases h₃
          obtain ⟨r, _, hr, hne, -⟩ := enqueueTasks_eq_ok h
          exact absurd (congrArg Prod.fst (reuseStep_eq_ok hr).1) hne
      | cons t ts =>
          rw [htasks] at h₃
          obtain ⟨_, _, hraise, -⟩ := Service.exec_bind_eq_ok h₃
          obtain ⟨-, hok, -⟩ := exec_issue_eq_ok hraise
          cases hok
  | some config =>
      obtain ⟨d, kb⟩ := config
      cases h₃
      exact ⟨d, kb, _, Except.ok.inj hconfig, h⟩

/-! ### The chunks after `queue_tasks` -/

/-- What reuse should do, for the previous tasks `prev`, the new tasks `new` after the reuse step
and the chunks of the index and knowledge base before and after. -/
structure ReuseSound (index kbId : Str) (prev new : List Task)
    (before after : Table Chunk Chunk.key) : Prop where
  /-- The chunks recorded on a reused task are still there. -/
  kept : ∀ t ∈ reused new, ∀ c ∈ before, c.id ∈ t.chunkIds → c ∈ after
  /-- A chunk of a previous task that is on no reused task is gone. -/
  dropped : ∀ p ∈ prev, ∀ id ∈ p.chunkIds, (∀ t ∈ reused new, id ∉ t.chunkIds) →
    ∀ c ∈ after, Db.inKb index kbId c = true → c.id ≠ id
  /-- The reused tasks have their chunks from previous tasks, each from one of its own. -/
  handedOnce : ∃ givers : List Task, givers.Sublist prev ∧ (givers.map Task.key).Nodup ∧
    ((reused new).map handing).Perm (givers.map handing)

/-- A chunk of the knowledge base that is in a list taken over and in one left behind. -/
def Shared (index kbId : Str) (prev new : List Task) (c : Chunk) : Prop :=
  Db.inKb index kbId c = true ∧ (∃ p ∈ takenOver new [] prev, c.id ∈ p.chunkIds) ∧
    ∃ q ∈ leftBehind new [] prev, c.id ∈ q.chunkIds

instance (index kbId : Str) (prev new : List Task) (c : Chunk) :
    Decidable (Shared index kbId prev new c) :=
  inferInstanceAs (Decidable (_ ∧ _ ∧ _))

section sound
variable {index kbId : Str} {prev ts : List Task} {before after : Table Chunk Chunk.key}

theorem mem_reused_of_takenOver (hts : ∀ t ∈ ts, t.progress < 1) {p : Task}
    (hp : p ∈ takenOver ts [] prev) :
    ∃ t ∈ reused (reuseAll ts prev).1, t.chunkIds = p.chunkIds := by
  have hmem := (reuseAll_tasks ts prev hts).mem_iff.mpr (List.mem_map_of_mem hp)
  obtain ⟨t, ht, heq⟩ := List.mem_map.mp hmem
  exact ⟨t, ht, congrArg Prod.snd heq⟩

theorem mem_takenOver_of_reused (hts : ∀ t ∈ ts, t.progress < 1) {t : Task}
    (ht : t ∈ reused (reuseAll ts prev).1) :
    ∃ p ∈ takenOver ts [] prev, p.chunkIds = t.chunkIds := by
  have hmem := (reuseAll_tasks ts prev hts).mem_iff.mp (List.mem_map_of_mem ht)
  obtain ⟨p, hp, heq⟩ := List.mem_map.mp hmem
  exact ⟨p, hp, congrArg Prod.snd heq⟩

/-- When the chunks of the tasks left behind are deleted, reuse is sound exactly when no stored
chunk is shared. -/
theorem reuseSound_iff (hts : ∀ t ∈ ts, t.progress < 1)
    (hafter : ∀ c, c ∈ after ↔ c ∈ before ∧ ¬ (Db.inKb index kbId c = true ∧
      c.id ∈ (leftBehind ts [] prev).flatMap (·.chunkIds))) :
    ReuseSound index kbId prev (reuseAll ts prev).1 before after ↔
      ∀ c ∈ before, ¬ Shared index kbId prev ts c := by
  constructor
  · rintro hsound c hc ⟨hkb, ⟨p, hp, hcp⟩, q, hq, hcq⟩
    obtain ⟨t, ht, heq⟩ := mem_reused_of_takenOver hts hp
    have hkept := hsound.kept t ht c hc (heq ▸ hcp)
    exact ((hafter c).mp hkept).2 ⟨hkb, List.mem_flatMap.mpr ⟨q, hq, hcq⟩⟩
  · intro hshared
    refine ⟨?_, ?_, ?_⟩
    · intro t ht c hc hct
      obtain ⟨p, hp, heq⟩ := mem_takenOver_of_reused hts ht
      refine (hafter c).mpr ⟨hc, ?_⟩
      rintro ⟨hkb, hleft⟩
      obtain ⟨q, hq, hcq⟩ := List.mem_flatMap.mp hleft
      exact hshared c hc ⟨hkb, ⟨p, hp, heq ▸ hct⟩, q, hq, hcq⟩
    · rintro p hp id hid hnot c hc hkb rfl
      rcases mem_takenOver_or_leftBehind ts prev [] p hp with hp | hp
      · obtain ⟨t, ht, heq⟩ := mem_reused_of_takenOver hts hp
        exact hnot t ht (heq ▸ hid)
      · exact ((hafter c).mp hc).2 ⟨hkb, List.mem_flatMap.mpr ⟨p, hp, hid⟩⟩
    · exact ⟨takenOver ts [] prev, takenOver_sublist ts prev [], (takenOver_keys ts prev []).1,
        reuseAll_tasks ts prev hts⟩

end sound

/-- After a successful `queue_tasks` the reused tasks have kept their chunks, what no reused task
holds is gone and no list was handed out twice, exactly when no stored chunk of the knowledge
base is at the same time in a list taken over and in a list left behind. -/
theorem queueTasks_reuse_iff (env : ParseEnv) (su : Surroundings) (doc : Document)
    (bucket name : Str) (priority : ℤ) (w w' : World)
    (h : (queueTasks env doc bucket name priority).exec su w = (.ok (), w')) :
    ∃ d kb, w.db.getChunkingConfig doc.id = some (d, kb) ∧
      let prev := w.db.getTasks doc.id
      let new := builtTasks env doc bucket name priority su.uuid w.db.nextUuid d kb
      let index := indexName (some kb.tenantId)
      (ReuseSound index d.kbId prev (reuseAll new prev).1 w.db.chunks w'.db.chunks ↔
        ∀ c ∈ w.db.chunks, ¬ Shared index d.kbId prev new c) := by
  obtain ⟨d, kb, n, hconfig, h⟩ := queueTasks_eq_ok h
  obtain ⟨r, w₁, hr, -, _, hdb⟩ := enqueueTasks_eq_ok h
  have hchunks : w'.db.chunks = w₁.db.chunks := by rw [hdb]
  have hspec := reuseStep_chunks hr
  rw [← hchunks] at hspec
  exact ⟨d, kb, hconfig, reuseSound_iff builtTasks_progress hspec⟩

/-! A document of 24 pages whose second half failed in the previous run.  Both halves hold the
text with the chunk `y`. -/

def halvesKb : Knowledgebase :=
  { id := "kb", tenantId := "t", parserId := "naive", pipelineId := [], parserConfig := {},
    docNum := 1, tokenNum := 9, chunkNum := 3, valid := true }

def halvesDoc : Document :=
  { id := "d", kbId := "kb", parserId := "naive", pipelineId := [], parserConfig := {},
    createdBy := "t", type := "pdf", name := "a.pdf", sourceType := [], suffix := "pdf",
    location := some "a.pdf", size := 1, contentHash := none, run := .fail, progress := -1,
    tokenNum := 9, chunkNum := 3 }

def halvesEnv : ParseEnv :=
  { totalPageNumber := fun _ _ => some 24
    rowNumber := fun _ _ => 0
    digest := fun _ _ p _ => if p = 0 then "g0" else "g2"
    now := 7
    random := 0 }

/-- The task of the pages from `p` on, with the chunks it has recorded. -/
def halvesTask (id : Str) (p : ℤ) (digest : Str) (progress : ℚ) (chunkIds : List Str) : Task :=
  { id, docId := "d", fromPage := p, toPage := p + 12, taskType := [], priority := 0, progress,
    digest, chunkIds, createTime := 0 }

def halvesChunk (id : Str) : Chunk :=
  { index := "ragflow_t", kbId := "kb", id, body := .text "d" }

def halvesDb (secondHalf : List Str) : Db :=
  { engine := .postgres
    kbs := ⟨[halvesKb], by decide⟩
    documents := ⟨[halvesDoc], by decide⟩
    files := Table.empty
    file2documents := Table.empty
    tasks := ⟨[halvesTask "p0" 0 "g0" 1 ["x", "y"], halvesTask "p2" 12 "g2" (-1) secondHalf],
      by simp [halvesTask]⟩
    directories := Table.empty
    chunks := ⟨[halvesChunk "x", halvesChunk "y", halvesChunk "z"], by decide⟩
    canceled := []
    queue := []
    nextUuid := 0 }

def halvesSu : Surroundings :=
  { uuid := fun n => List.replicate (n + 1) 'u', raises := fun _ => false }

/-- The run of `queue_tasks` on the document. -/
def halvesRun (secondHalf : List Str) : Except Err Unit × World :=
  (queueTasks halvesEnv halvesDoc "kb" "a.pdf" 0).exec halvesSu ⟨halvesDb secondHalf, []⟩

/-- The new tasks of that run after the reuse step. -/
def halvesNew (secondHalf : List Str) : List Task :=
  (reuseAll (builtTasks halvesEnv halvesDoc "kb" "a.pdf" 0 halvesSu.uuid 0 halvesDoc halvesKb)
    ((halvesDb secondHalf).getTasks "d")).1

theorem queueTasks_reuse_distinct_text :
    (halvesRun ["z"]).1 = .ok () ∧
      ReuseSound "ragflow_t" "kb" ((halvesDb ["z"]).getTasks "d") (halvesNew ["z"])
        (halvesDb ["z"]).chunks (halvesRun ["z"]).2.db.chunks := by
  have hrun : halvesRun ["z"] = (.ok (), (halvesRun ["z"]).2) := rfl
  obtain ⟨d, kb, hconfig, h⟩ :=
    queueTasks_reuse_iff halvesEnv halvesSu halvesDoc "kb" "a.pdf" 0 ⟨halvesDb ["z"], []⟩ _ hrun
  cases hconfig
  refine ⟨rfl, h.mpr ?_⟩
  show ∀ c ∈ (halvesDb ["z"]).chunks.rows, ¬ Shared _ _ _ _ c
  decide

/-- The first half takes over `x` and `y`, the second half starts again, and `y` is deleted with
what the second half had recorded. -/
theorem queueTasks_reuse_equal_text :
    (halvesRun ["y"]).1 = .ok () ∧
      ¬ ReuseSound "ragflow_t" "kb" ((halvesDb ["y"]).getTasks "d") (halvesNew ["y"])
        (halvesDb ["y"]).chunks (halvesRun ["y"]).2.db.chunks := by
  refine ⟨rfl, ?_⟩
  intro h
  have hreused : reused (halvesNew ["y"]) =
      [{ halvesTask ['u'] 0 "g0" 1 ["x", "y"] with createTime := 7 }] := rfl
  have hkept := h.kept _ (hreused ▸ List.mem_cons_self) (halvesChunk "y")
    (show halvesChunk "y" ∈ (halvesDb ["y"]).chunks.rows by decide) (by decide)
  have hrows : (halvesRun ["y"]).2.db.chunks.rows = [halvesChunk "x", halvesChunk "z"] := rfl
  rw [Table.mem_rows, hrows] at hkept
  exact absurd hkept (by decide)

end RagFlow
