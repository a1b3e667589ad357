import RagFlow.ScanDirectory

/-! # The commands of a scan

The programs of a scan, sorted by the commands they issue:

* `idle`: reads, drawing an identifier, and the record of the directory;
* `removal id`: what the removal of the document `id` issues;
* `link reuse id`: what an import issues for its document `id` once the row of the document is
  saved.  Without `reuse` it may count on the tasks of `id` having no chunks, and then deletes
  none.

None of these saves a document or asks which documents have a location; these two commands stand
in `importFile` alone, and neither they nor the reads between them are issued from anywhere else
(`Point.early`).

`runScan_uses` puts the parts together for any contract that includes what the documents found
and the files of the directory give rise to.  It is instantiated for each property of a scan. -/

namespace RagFlow

open Py Effect

/-! ### Classes of commands -/

/-- The points of an import up to the saving of the document. -/
def Point.early : Point → Bool
  | .docsAt | .docUuid | .getsize | .getmtime | .docSave => true
  | _ => false

/-- Reads, and writes to the record of the directory. -/
def Op.Idle : Op → Prop
  | .getKb _ | .directoriesOf _ | .insertDirectory _ | .docsBySource _ _ | .getDocument _
  | .getTenantId _ | .chunkingConfig _ | .countDone _ | .storageLink _ | .getFile _ | .tasksOf _
  | .uuid4 | .external | .osStat _ | .raiseError _ => True
  | _ => False

/-- The removal of the document `id`. -/
def Op.Removal (id : Str) : Op → Prop
  | .deleteFile2Document x | .deleteFile x | .deleteDocumentAndUpdateKbCounts x
  | .deleteChunksOf x _ _ => x = id
  | .cancelAllTaskOf _ | .deleteTasks _ | .graphSource _ _ | .graphRemoveSource _ _ _
  | .graphMarkRemoved _ _ | .graphDeleteOrphans _ _ => True
  | op => op.Idle

/-- Tasks of the document `id`, without chunks unless there may be some to take over. -/
def TasksOf (reuse : Bool) (id : Str) (ts : List Task) : Prop :=
  ∀ t ∈ ts, t.docId = id ∧ (reuse = false → t.chunkIds = [])

/-- What an import does for its document `id` after the row is saved. -/
def Op.Link (reuse : Bool) (id : Str) : Op → Prop
  | .insertFile f => f.id = id
  | .insertFile2Document l => l.documentId = id
  | .updateDocument x _ => x = id
  | .insertTasks ts => TasksOf reuse id ts
  | .deleteChunks _ _ _ => reuse = true
  | .increaseDocNum _ | .kbFolder _ | .deleteTasks _ | .queueProduct _ => True
  | op => op.Idle

/-- Without chunks to take over, the tasks of the document have none. -/
def Op.Bare (reuse : Bool) (id : Str) : (op : Op) → op.Ret → Prop
  | .tasksOf x, ts => x = id → reuse = false → ∀ t ∈ ts, t.chunkIds = []
  | _, _ => True

def idle : Terms where
  asks c := c.op.Idle ∧ c.site.point.early = false
  answers _ _ := True

def removal (id : Str) : Terms where
  asks c := c.op.Removal id ∧ c.site.point.early = false
  answers _ _ := True

def link (reuse : Bool) (id : Str) : Terms where
  asks c := c.op.Link reuse id ∧ c.site.point.early = false
  answers c r := c.op.Bare reuse id r

theorem Op.Idle.link {op : Op} (h : op.Idle) (reuse : Bool) (id : Str) : op.Link reuse id := by
  cases op <;> first | exact h | exact h.elim

theorem idle_within_link (reuse : Bool) (id : Str) : idle.Within (link reuse id) :=
  ⟨fun _ hc => ⟨hc.1.link reuse id, hc.2⟩, fun _ _ _ => trivial⟩

/-- With reuse an import counts on nothing. -/
theorem link_answers (id : Str) (c : Call) (r : c.op.Ret) : (link true id).answers c r := by
  obtain ⟨site, op⟩ := c
  cases op with
  | tasksOf x => exact fun _ h => by cases h
  | _ => trivial

/-- Any value. -/
abbrev Anything {α : Type} (_ : α) : Prop := True

section rules
variable {K : Terms} {α : Type} {Q : α → Prop} {p : Point} {key : Str} {op : Op}

theorem uses_issue (h : K.asks ⟨⟨p, key⟩, op⟩) : Uses K Anything (issue p key op) :=
  ⟨h, fun _ _ => trivial, fun _ => trivial⟩

/-- A command and what follows it. -/
theorem uses_issue_bind {f : op.Ret → Service α} (h : K.asks ⟨⟨p, key⟩, op⟩)
    (hf : ∀ r, K.answers ⟨⟨p, key⟩, op⟩ r → Uses K Q (f r)) : Uses K Q (issue p key op >>= f) :=
  Uses.bind (Uses.perform h) hf

theorem uses_quietly {body : Service Unit} (h : Uses K Anything body) :
    Uses K Anything (quietly body) := Uses.tryCatch h (fun _ => Only.pure trivial)

theorem uses_getOrNone {ρ : Type} {body : Service (Option ρ)} (h : Uses K Anything body) :
    Uses K Anything (getOrNone body) := Uses.tryCatch h (fun _ => Only.pure trivial)

end rules

/-! ### Removing a document -/

theorem cleanupGraph_uses (doc : Document) (index : Str) :
    Uses (removal doc.id) Anything (cleanupGraph doc index) := by
  refine uses_issue_bind ⟨trivial, rfl⟩ (fun source _ => Uses.ite (fun _ => ?_) (fun _ => ?_))
  · refine uses_issue_bind ⟨trivial, rfl⟩ (fun _ _ => ?_)
    refine uses_issue_bind ⟨trivial, rfl⟩ (fun _ _ => ?_)
    exact uses_issue ⟨trivial, rfl⟩
  · exact Uses.pure trivial

theorem removeDocument_uses (doc : Document) (tenantId : Option Str) :
    Uses (removal doc.id) Anything (removeDocument doc tenantId) := by
  refine uses_issue_bind ⟨rfl, rfl⟩ (fun deleted _ => Uses.ite (fun _ => ?_) (fun _ => ?_))
  · refine Uses.bind (uses_quietly (uses_issue ⟨trivial, rfl⟩)) (fun _ _ => ?_)
    refine Uses.bind (uses_quietly (uses_issue ⟨trivial, rfl⟩)) (fun _ _ => ?_)
    refine Uses.bind (uses_quietly (uses_issue ⟨trivial, rfl⟩)) (fun _ _ => ?_)
    refine Uses.bind (uses_quietly (uses_issue ⟨trivial, rfl⟩)) (fun _ _ => ?_)
    refine Uses.bind (uses_quietly (uses_issue ⟨rfl, rfl⟩)) (fun _ _ => ?_)
    refine Uses.bind (uses_quietly (uses_issue ⟨trivial, rfl⟩)) (fun _ _ => ?_)
    exact uses_quietly (cleanupGraph_uses doc _)
  · exact Uses.pure trivial

theorem removeScanned_uses (doc : Document) :
    Uses (removal doc.id) Anything (removeScanned doc) := by
  refine uses_issue_bind ⟨rfl, rfl⟩ (fun _ _ => ?_)
  refine uses_issue_bind ⟨rfl, rfl⟩ (fun _ _ => ?_)
  refine uses_issue_bind ⟨trivial, rfl⟩ (fun tenantId _ => ?_)
  exact removeDocument_uses doc tenantId

/-! ### Queueing the tasks of a document -/

section tasks
variable {reuse : Bool} {doc : Document}

theorem newTasks_uses (reuse : Bool) (rs : List (ℤ × ℤ)) :
    Uses idle (TasksOf reuse doc.id) (newTasks doc rs) := by
  induction rs with
  | nil => exact Uses.pure (fun t ht => absurd ht List.not_mem_nil)
  | cons r rs ih =>
      refine uses_issue_bind ⟨trivial, rfl⟩ (fun id _ => ?_)
      refine Uses.bind ih (fun ts hts => Uses.pure ?_)
      intro t ht
      rcases List.mem_cons.mp ht with rfl | ht
      · exact ⟨rfl, fun _ => rfl⟩
      · exact hts t ht

theorem digestTasks_uses (env : ParseEnv) (priority : ℤ)
    (config : Option (Document × Knowledgebase)) {ts : List Task} (hts : TasksOf reuse doc.id ts) :
    Uses idle (TasksOf reuse doc.id) (digestTasks env doc priority config ts) := by
  cases config with
  | none =>
      cases ts with
      | nil => exact Uses.pure hts
      | cons t ts =>
          exact uses_issue_bind ⟨trivial, rfl⟩
            (fun _ _ => Uses.pure (fun t ht => absurd ht List.not_mem_nil))
  | some config =>
      refine Uses.pure ?_
      intro t ht
      obtain ⟨i, hi, rfl⟩ := List.mem_mapIdx.mp ht
      exact hts ts[i] (List.getElem_mem hi)

theorem begin2parse_uses (env : ParseEnv) (docId : Str) :
    Uses (link reuse docId) Anything (begin2parse env docId) :=
  uses_issue_bind ⟨rfl, rfl⟩ (fun _ _ => Uses.pure trivial)

theorem queueUnfinished_uses (ts : List Task) :
    Uses (link reuse doc.id) Anything (queueUnfinished doc ts) := by
  induction ts with
  | nil => exact Uses.pure trivial
  | cons t ts ih =>
      unfold queueUnfinished
      split_ifs
      · exact uses_issue_bind ⟨trivial, rfl⟩ (fun _ _ => ih)
      · exact ih

theorem reusePrevTaskChunks_docId (t : Task) (prev : List Task) :
    (reusePrevTaskChunks t prev).1.docId = t.docId := by
  rcases reusePrevTaskChunks_spec t prev [] List.not_mem_nil with ⟨-, heq⟩ | ⟨p, -, -, heq⟩
  · rw [heq]
  · rw [heq]

theorem reuseAll_docId {id : Str} (ts : List Task) : ∀ prev : List Task,
    (∀ t ∈ ts, t.docId = id) → ∀ t ∈ (reuseAll ts prev).1, t.docId = id := by
  induction ts with
  | nil => intro prev h; exact h
  | cons t ts ih =>
      intro prev h u hu
      simp only [reuseAll] at hu
      rcases List.mem_cons.mp hu with rfl | hu
      · rw [reusePrevTaskChunks_docId]
        exact h t List.mem_cons_self
      · exact ih _ (fun u hu => h u (List.mem_cons_of_mem _ hu)) u hu

/-- A task without chunks is not taken over. -/
theorem reusePrevTaskChunks_bare (t : Task) {prev : List Task} (h : ∀ p ∈ prev, p.chunkIds = []) :
    reusePrevTaskChunks t prev = (t, prev, 0) := by
  induction prev with
  | nil => rfl
  | cons p prev ih =>
      have hp := h p List.mem_cons_self
      simp only [reusePrevTaskChunks]
      split_ifs with hkey hskip
      · rfl
      · simp [hp] at hskip
      · rw [ih (fun q hq => h q (List.mem_cons_of_mem _ hq))]

theorem reuseAll_bare (ts : List Task) {prev : List Task} (h : ∀ p ∈ prev, p.chunkIds = []) :
    reuseAll ts prev = (ts, prev, 0) := by
  induction ts with
  | nil => rfl
  | cons t ts ih => simp only [reuseAll, reusePrevTaskChunks_bare t h, ih]

/-- The reuse step deletes chunks only when there are some to take over. -/
theorem reuseStep_uses (config : Option (Document × Knowledgebase)) {ts prev : List Task}
    (hts : TasksOf reuse doc.id ts) (hprev : reuse = false → ∀ t ∈ prev, t.chunkIds = []) :
    Uses (link reuse doc.id) (fun r => TasksOf reuse doc.id r.1)
      (reuseStep doc config ts prev) := by
  have hnew : TasksOf reuse doc.id (reuseAll ts prev).1 := by
    cases reuse with
    | true =>
        intro t ht
        exact ⟨reuseAll_docId ts prev (fun u hu => (hts u hu).1) t ht, fun h => by cases h⟩
    | false =>
        rw [reuseAll_bare ts (hprev rfl)]
        exact hts
  refine Uses.ite (fun _ => Uses.pure hts) (fun _ => ?_)
  refine uses_issue_bind ⟨trivial, rfl⟩ (fun _ _ => ?_)
  refine Uses.ite (fun _ => Uses.pure hnew) (fun hdelete => ?_)
  have hreuse : reuse = true := by
    cases reuse with
    | true => rfl
    | false =>
        refine absurd ?_ hdelete
        rw [reuseAll_bare ts (hprev rfl)]
        simpa using hprev rfl
  refine Uses.bind (Q := Anything) ?_ (fun _ _ => Uses.pure hnew)
  unfold deletePrevChunks
  split
  · exact uses_issue ⟨trivial, rfl⟩
  · exact uses_issue ⟨hreuse, rfl⟩

theorem enqueueTasks_uses (env : ParseEnv) (config : Option (Document × Knowledgebase))
    {ts : List Task} (hts : TasksOf reuse doc.id ts) :
    Uses (link reuse doc.id) Anything (enqueueTasks env doc config ts) := by
  refine uses_issue_bind ⟨trivial, rfl⟩ (fun prev hprev => ?_)
  refine Uses.bind (reuseStep_uses config hts (hprev rfl)) (fun r hr => ?_)
  refine uses_issue_bind ⟨rfl, rfl⟩ (fun _ _ => ?_)
  refine uses_issue_bind ⟨hr, rfl⟩ (fun _ _ => ?_)
  exact Uses.bind (begin2parse_uses env doc.id) (fun _ _ => queueUnfinished_uses r.1)

theorem queueTasks_uses (env : ParseEnv) (bucket name : Str) (priority : ℤ) :
    Uses (link reuse doc.id) Anything (queueTasks env doc bucket name priority) := by
  have hidle := idle_within_link reuse doc.id
  have hbuild : Uses (link reuse doc.id) Anything (do
      let tasks ← newTasks doc (taskRanges env doc bucket name)
      let config ← issue .chunkingConfig doc.id (.chunkingConfig doc.id)
      let tasks ← digestTasks env doc priority config tasks
      enqueueTasks env doc config tasks) := by
    refine Uses.bind ((newTasks_uses reuse _).within hidle) (fun ts hts => ?_)
    refine uses_issue_bind ⟨trivial, rfl⟩ (fun config _ => ?_)
    refine Uses.bind ((digestTasks_uses env priority config hts).within hidle) (fun ts hts => ?_)
    exact enqueueTasks_uses env config hts
  unfold queueTasks
  split_ifs
  · exact uses_issue_bind ⟨trivial, rfl⟩ (fun _ _ => hbuild)
  · exact hbuild

theorem queueDataflow_uses (env : ParseEnv) :
    Uses (link reuse doc.id) Anything (queueDataflow env doc) := by
  refine uses_issue_bind ⟨trivial, rfl⟩ (fun id _ => ?_)
  refine uses_issue_bind ⟨trivial, rfl⟩ (fun _ _ => ?_)
  refine Uses.bind (begin2parse_uses env doc.id) (fun _ _ => ?_)
  refine uses_issue_bind ⟨?_, rfl⟩ (fun _ _ => ?_)
  · intro t ht
    rw [List.mem_singleton.mp ht]
    exact ⟨rfl, fun _ => rfl⟩
  · refine uses_issue_bind ⟨trivial, rfl⟩ (fun _ _ => ?_)
    exact Uses.tryCatch (uses_issue ⟨trivial, rfl⟩) (fun _ => Only.pure trivial)

theorem documentAddress_uses (docId : Str) :
    Uses idle Anything (documentAddress docId) := by
  refine Uses.bind (uses_getOrNone (uses_issue ⟨trivial, rfl⟩)) (fun doc _ => ?_)
  cases doc with
  | some doc => exact Uses.pure trivial
  | none => exact uses_issue_bind ⟨trivial, rfl⟩ (fun _ _ => Uses.pure trivial)

theorem getStorageAddress_uses (docId : Str) :
    Uses idle Anything (getStorageAddress docId) := by
  refine uses_issue_bind ⟨trivial, rfl⟩ (fun link _ => ?_)
  cases link with
  | none => exact documentAddress_uses docId
  | some link =>
      refine uses_issue_bind ⟨trivial, rfl⟩ (fun file _ => ?_)
      exact Uses.ite (fun _ => Uses.pure trivial) (fun _ => documentAddress_uses link.documentId)

theorem startParsing_uses (reuse : Bool) (env : ParseEnv) (doc : Document) (priority : ℤ) :
    Uses (link reuse doc.id) Anything (startParsing env doc priority) := by
  refine Uses.ite (fun _ => queueDataflow_uses env) (fun _ => ?_)
  refine Uses.bind ((getStorageAddress_uses doc.id).within (idle_within_link reuse doc.id))
    (fun address _ => ?_)
  exact queueTasks_uses env address.1 address.2 priority

theorem dropFieldMap_uses (doc : Document) : Uses idle Anything (dropFieldMap doc) := by
  refine uses_issue_bind ⟨trivial, rfl⟩ (fun count _ => ?_)
  exact Uses.ite (fun _ => uses_issue ⟨trivial, rfl⟩) (fun _ => Uses.pure trivial)

theorem runDocument_uses (env : ParseEnv) (counted : List Str) (priority : ℤ) :
    Uses (link reuse doc.id) Anything (runDocument env doc counted priority) := by
  have hstart := startParsing_uses reuse env doc priority
  refine Uses.ite (fun _ => ?_) (fun _ => hstart)
  refine Uses.ite (fun _ => Uses.pure trivial) (fun _ => ?_)
  refine Uses.ite (fun _ => hstart) (fun _ => ?_)
  exact Uses.bind ((dropFieldMap_uses doc).within (idle_within_link reuse doc.id))
    (fun _ _ => hstart)

theorem registerFile_uses (env : ScanEnv) (plan : ScanPlan) (f : WalkEntry) (doc : Document) :
    Uses (link reuse doc.id) Anything (registerFile env plan f doc) := by
  refine uses_issue_bind ⟨trivial, rfl⟩ (fun parentId _ => ?_)
  refine uses_issue_bind ⟨trivial, rfl⟩ (fun size _ => ?_)
  refine uses_issue_bind ⟨rfl, rfl⟩ (fun _ _ => ?_)
  exact uses_quietly (uses_issue ⟨rfl, rfl⟩)

theorem linkFile_uses (env : ScanEnv) (req : ScanRequest) (plan : ScanPlan) (f : WalkEntry)
    (doc : Document) : Uses (link reuse doc.id) Anything (linkFile env req plan f doc) :=
  Uses.bind (registerFile_uses env plan f doc)
    (fun _ _ => runDocument_uses env.toParseEnv [] req.priority)

end tasks

/-! ### The scan -/

section scan
variable {env : ScanEnv} {req : ScanRequest} {plan : ScanPlan} {K : Terms}

theorem directoryRecord_uses (req : ScanRequest) (plan : ScanPlan) :
    Uses idle Anything (directoryRecord req plan) := by
  refine uses_issue_bind ⟨trivial, rfl⟩ (fun dirs _ => ?_)
  split
  · exact uses_issue_bind ⟨trivial, rfl⟩ (fun _ _ => Uses.pure trivial)
  · refine uses_issue_bind ⟨trivial, rfl⟩ (fun id _ => ?_)
    refine uses_issue_bind ⟨trivial, rfl⟩ (fun _ _ => ?_)
    exact uses_issue_bind ⟨trivial, rfl⟩ (fun _ _ => Uses.pure trivial)

/-- The sweep leaves the document alone, or it may touch it and `K` includes its removal. -/
def Sweepable (env : ScanEnv) (plan : ScanPlan) (K : Terms) (touch : Bool) (d : Document) : Prop :=
  ((d.location.getD []) ∈ plan.files.map (·.path) ∧
      ∀ st, K.answers ⟨⟨.stat, d.id⟩, .osStat (env.fs.stat (d.location.getD []))⟩ st →
        unchanged d st = true) ∨
    (touch = true ∧ (removal d.id).Within K)

/-- What the sweep does not count. -/
structure Swept (touch : Bool) (t t' : Tally) : Prop where
  imported : t'.imported = t.imported
  errors : t'.errors = t.errors
  counts : touch = false → t'.deleted = t.deleted ∧ t'.reparsed = t.reparsed

theorem Swept.refl {touch : Bool} {t : Tally} : Swept touch t t := ⟨rfl, rfl, fun _ => ⟨rfl, rfl⟩⟩

theorem Swept.trans {touch : Bool} {t t' t'' : Tally} (h : Swept touch t t')
    (h' : Swept touch t' t'') : Swept touch t t'' := by
  refine ⟨h'.imported.trans h.imported, h'.errors.trans h.errors, fun ht => ?_⟩
  exact ⟨(h'.counts ht).1.trans (h.counts ht).1, (h'.counts ht).2.trans (h.counts ht).2⟩

theorem sweepDoc_uses (hidle : idle.Within K) {touch : Bool} {d : Document}
    (hd : d.startsWith plan.path = true → Sweepable env plan K touch d) (t : Tally) :
    Uses K (Swept touch t) (sweepDoc env plan t d) := by
  have hskip : Swept touch t { t with skipped := t.skipped + 1 } := ⟨rfl, rfl, fun _ => ⟨rfl, rfl⟩⟩
  refine Uses.ite (fun hstarts => ?_) (fun _ => Uses.pure Swept.refl)
  rcases hd hstarts with ⟨hmem, hunchanged⟩ | ⟨rfl, hK⟩
  · refine Uses.ite (fun _ => ?_) (fun h => absurd (List.contains_iff_mem.mpr hmem) h)
    refine Uses.tryCatch (uses_issue_bind (hidle.asks _ ⟨trivial, rfl⟩) (fun st hst => ?_))
      (fun _ => Only.pure Swept.refl)
    exact Uses.ite (fun _ => Uses.pure hskip) (fun h => absurd (hunchanged st hst) h)
  · have hremove : Uses K Anything (removeScanned d) := (removeScanned_uses d).within hK
    refine Uses.ite (fun _ => ?_) (fun _ => ?_)
    · refine Uses.tryCatch (uses_issue_bind (hidle.asks _ ⟨trivial, rfl⟩) (fun st _ => ?_))
        (fun _ => Only.pure Swept.refl)
      refine Uses.ite (fun _ => Uses.pure hskip) (fun _ => ?_)
      refine Uses.tryCatch (Uses.bind hremove (fun _ _ => Uses.pure ?_))
        (fun _ => Only.pure Swept.refl)
      exact ⟨rfl, rfl, fun h => by cases h⟩
    · refine Uses.bind (uses_quietly hremove) (fun _ _ => Uses.pure ?_)
      exact ⟨rfl, rfl, fun h => by cases h⟩

theorem sweep_uses (hidle : idle.Within K) {touch : Bool} (docs : List Document)
    (hdocs : ∀ d ∈ docs, d.startsWith plan.path = true → Sweepable env plan K touch d) :
    ∀ t, Uses K (Swept touch t) (sweep env plan t docs) := by
  induction docs with
  | nil => intro t; exact Uses.pure Swept.refl
  | cons d docs ih =>
      intro t
      refine Uses.bind (sweepDoc_uses hidle (hdocs d List.mem_cons_self) t) (fun t' ht' => ?_)
      have hrest := ih (fun d hd => hdocs d (List.mem_cons_of_mem _ hd)) t'
      exact hrest.weaken (fun _ h => ht'.trans h)

/-- `K` includes the import of the file under the identifier `id`. -/
structure ImportableAs (env : ScanEnv) (plan : ScanPlan) (K : Terms) (f : WalkEntry) (id : Str) :
    Prop where
  getsize : K.asks ⟨⟨.getsize, f.path⟩, .osStat (env.fs.stat f.path)⟩
  getmtime : K.asks ⟨⟨.getmtime, f.path⟩, .osStat (env.fs.stat f.path)⟩
  save : ∀ size hash,
    K.asks ⟨⟨.docSave, f.path⟩, .saveDocument (newDocument env plan id f size hash)⟩
  link : ∃ reuse, (RagFlow.link reuse id).Within K

/-- `K` includes the import of the file, the identifiers drawn for it being in `Q`. -/
structure Importable (env : ScanEnv) (plan : ScanPlan) (K : Terms) (Q : Str → Prop)
    (f : WalkEntry) : Prop where
  uuid : K.asks ⟨⟨.docUuid, f.path⟩, .uuid4⟩
  drawn : ∀ id, K.answers ⟨⟨.docUuid, f.path⟩, .uuid4⟩ id → Q id
  new : ∀ id, Q id → ImportableAs env plan K f id

theorem describeFile_uses {f : WalkEntry} {id : Str} (hf : ImportableAs env plan K f id) :
    Uses K (fun d => ∃ size hash, d = newDocument env plan id f size hash)
      (describeFile env plan id f) := by
  refine uses_issue_bind hf.getsize (fun size _ => ?_)
  refine uses_issue_bind hf.getmtime (fun mtime _ => ?_)
  exact Uses.pure ⟨size.1, mtimeHash mtime.2, rfl⟩

theorem importNew_uses {f : WalkEntry} {id : Str} (hf : ImportableAs env plan K f id) :
    Uses K (fun r => r = some id) (importNew env req plan f id) := by
  refine Uses.bind (describeFile_uses hf) (fun d hd => ?_)
  obtain ⟨size, hash, rfl⟩ := hd
  obtain ⟨reuse, hlink⟩ := hf.link
  have hinsert : Uses K Anything
      (insertDocument f.path (newDocument env plan id f size hash)) := by
    refine uses_issue_bind (hf.save size hash) (fun _ _ => ?_)
    refine uses_issue_bind (hlink.asks _ ⟨trivial, rfl⟩) (fun num _ => ?_)
    exact Uses.ite (fun _ => uses_issue (hlink.asks _ ⟨trivial, rfl⟩)) (fun _ => Uses.pure trivial)
  refine Uses.bind hinsert (fun _ _ => ?_)
  refine Uses.bind ((linkFile_uses env req plan f _).within hlink) (fun _ _ => ?_)
  exact Uses.pure rfl

theorem importFile_uses {Q : Str → Prop} {f : WalkEntry}
    (hquery : K.asks ⟨⟨.docsAt, f.path⟩, .docsAt plan.kb.id f.path⟩)
    (hf : K.answers ⟨⟨.docsAt, f.path⟩, .docsAt plan.kb.id f.path⟩ [] →
      Importable env plan K Q f) :
    Uses K (fun r => ∀ id ∈ r, Q id) (importFile env req plan f) := by
  refine uses_issue_bind hquery (fun existing hexisting => ?_)
  refine Uses.ite (fun hempty => ?_) (fun _ => Uses.pure (fun id hid => by cases hid))
  rw [List.isEmpty_iff.mp hempty] at hexisting
  have hf := hf hexisting
  refine uses_issue_bind hf.uuid (fun id hid => ?_)
  refine (importNew_uses (hf.new id (hf.drawn id hid))).weaken ?_
  rintro r rfl x hx
  cases hx
  exact hf.drawn id hid

/-- What the imports of some files add, and what they do not count. -/
structure Imported (Q : Str → Prop) (files : List WalkEntry) (t t' : Tally) : Prop where
  imported : ∀ id ∈ t'.imported, id ∈ t.imported ∨ Q id
  grows : t.imported <+: t'.imported
  errors : ∀ x ∈ t'.errors, x ∈ t.errors ∨ ∃ f ∈ files, x.1 = f.rel
  reports : t.errors <+: t'.errors
  deleted : t'.deleted = t.deleted
  reparsed : t'.reparsed = t.reparsed

theorem Imported.refl {Q : Str → Prop} {files : List WalkEntry} {t : Tally} :
    Imported Q files t t :=
  ⟨fun _ h => Or.inl h, List.prefix_rfl, fun _ h => Or.inl h, List.prefix_rfl, rfl, rfl⟩

theorem Imported.cons {Q : Str → Prop} {f : WalkEntry} {files : List WalkEntry}
    {t t' t'' : Tally} (h : Imported Q [f] t t') (h' : Imported Q files t' t'') :
    Imported Q (f :: files) t t'' := by
  refine ⟨fun id hid => ?_, h.grows.trans h'.grows, fun x hx => ?_, h.reports.trans h'.reports,
    h'.deleted.trans h.deleted, h'.reparsed.trans h.reparsed⟩
  · rcases h'.imported id hid with hid | hid
    · exact h.imported id hid
    · exact Or.inr hid
  · rcases h'.errors x hx with hx | ⟨g, hg, hrel⟩
    · rcases h.errors x hx with hx | ⟨g, hg, hrel⟩
      · exact Or.inl hx
      · exact Or.inr ⟨f, List.mem_cons_self, List.mem_singleton.mp hg ▸ hrel⟩
    · exact Or.inr ⟨g, List.mem_cons_of_mem f hg, hrel⟩

theorem importStep_uses {Q : Str → Prop} {f : WalkEntry}
    (hquery : K.asks ⟨⟨.docsAt, f.path⟩, .docsAt plan.kb.id f.path⟩)
    (hf : K.answers ⟨⟨.docsAt, f.path⟩, .docsAt plan.kb.id f.path⟩ [] →
      Importable env plan K Q f) (t : Tally) :
    Uses K (Imported Q [f] t) (importStep env req plan t f) := by
  refine Uses.tryCatch (Uses.bind (importFile_uses hquery hf) (fun r hr => ?_))
    (fun e => Only.pure ⟨fun _ h => Or.inl h, List.prefix_rfl, fun x hx => ?_,
      List.prefix_append _ _, rfl, rfl⟩)
  · cases r with
    | none =>
        exact Uses.pure ⟨fun _ h => Or.inl h, List.prefix_rfl, fun _ h => Or.inl h,
          List.prefix_rfl, rfl, rfl⟩
    | some id =>
        refine Uses.pure ⟨fun x hx => ?_, List.prefix_append _ _, fun _ h => Or.inl h,
          List.prefix_rfl, rfl, rfl⟩
        rcases List.mem_append.mp hx with hx | hx
        · exact Or.inl hx
        · rw [List.mem_singleton.mp hx]
          exact Or.inr (hr id rfl)
  · rcases List.mem_append.mp hx with hx | hx
    · exact Or.inl hx
    · rw [List.mem_singleton.mp hx]
      exact Or.inr ⟨f, List.mem_cons_self, rfl⟩

theorem importAll_uses {Q : Str → Prop} (files : List WalkEntry)
    (hquery : ∀ f ∈ files, K.asks ⟨⟨.docsAt, f.path⟩, .docsAt plan.kb.id f.path⟩)
    (hfiles : ∀ f ∈ files, K.answers ⟨⟨.docsAt, f.path⟩, .docsAt plan.kb.id f.path⟩ [] →
      Importable env plan K Q f) :
    ∀ t, Uses K (Imported Q files t) (importAll env req plan t files) := by
  induction files with
  | nil => intro t; exact Uses.pure Imported.refl
  | cons f files ih =>
      intro t
      refine Uses.bind (importStep_uses (hquery f List.mem_cons_self)
        (hfiles f List.mem_cons_self) t) (fun t' ht' => ?_)
      have hrest := ih (fun f hf => hquery f (List.mem_cons_of_mem _ hf))
        (fun f hf => hfiles f (List.mem_cons_of_mem _ hf)) t'
      exact hrest.weaken (fun _ h => ht'.cons h)

/-- The whole scan: `K` includes the reads, the removal of what the sweep touches and the import
of the files that have no document. -/
theorem runScan_uses (hidle : idle.Within K) {touch : Bool} {Q : Str → Prop}
    (hdocs : ∀ docs, K.answers
        ⟨⟨.docsQuery, req.kbId⟩, .docsBySource plan.kb.id localScan⟩ docs →
      ∀ d ∈ docs, d.startsWith plan.path = true → Sweepable env plan K touch d)
    (hquery : ∀ f ∈ plan.files, K.asks ⟨⟨.docsAt, f.path⟩, .docsAt plan.kb.id f.path⟩)
    (hfiles : ∀ f ∈ plan.files, K.answers ⟨⟨.docsAt, f.path⟩, .docsAt plan.kb.id f.path⟩ [] →
      Importable env plan K Q f) :
    Uses K (fun report => (∀ id ∈ report.imported, Q id) ∧
      (touch = false → report.deleted = 0 ∧ report.reparsed = 0)) (runScan env req plan) := by
  refine Uses.bind ((directoryRecord_uses req plan).within hidle) (fun _ _ => ?_)
  refine uses_issue_bind (hidle.asks _ ⟨trivial, rfl⟩) (fun docs hd => ?_)
  refine Uses.bind (sweep_uses hidle docs (hdocs docs hd) {}) (fun t ht => ?_)
  refine Uses.bind (importAll_uses plan.files hquery hfiles t) (fun t' ht' => ?_)
  refine uses_issue_bind (hidle.asks _ ⟨trivial, rfl⟩) (fun _ _ => Uses.pure ⟨?_, ?_⟩)
  · intro id hid
    rcases ht'.imported id hid with hid | hid
    · rw [ht.imported] at hid
      exact absurd hid List.not_mem_nil
    · exact hid
  · intro htouch
    exact ⟨ht'.deleted.trans (ht.counts htouch).1, ht'.reparsed.trans (ht.counts htouch).2⟩

theorem importable_any (env : ScanEnv) (plan : ScanPlan) (f : WalkEntry) :
    Importable env plan Contract.any Anything f :=
  ⟨trivial, fun _ _ => trivial, fun id _ => ⟨trivial, trivial, fun _ _ => trivial,
    true, fun _ _ => trivial, fun c r _ => link_answers id c r⟩⟩

end scan

end RagFlow
