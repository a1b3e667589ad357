import RagFlow.ScanRun

/-! # What a scan leaves alone

A scan of the directory `dir` is to leave alone the documents outside of it, with their files,
links and chunks (`Frame`).  Every command of the scan is of a kind that does (`Op.Framed`),
provided that the removals hit documents inside of `dir` only; `framed_keeps` goes over the
commands once, and the run follows by `Only.exec`.

The removals are decided by `startswith(path)`, without a separator.  So the provision fails when
an earlier scan has left a document in a directory whose name begins with that of `dir`, and then
the document is removed: `scanFrame_iff`.

Nothing is assumed of the identifiers drawn except that they are new (`Fresh`). -/

namespace RagFlow

open Py Effect

/-- Some document outside of the directory has this identifier. -/
def Outside (dir : Str) (db : Db) (id : Str) : Prop :=
  ∃ d ∈ db.documents, inside dir d.location = false ∧ d.id = id

/-- The documents outside of the directory are the same, and so are the files, links and chunks
under the identifiers in `owned`. -/
structure Frame (dir : Str) (owned : Str → Prop) (db db' : Db) : Prop where
  documents : Table.Agree (fun d => inside dir d.location = false) db.documents db'.documents
  files : Table.Agree (fun f => owned f.id) db.files db'.files
  links : Table.Agree (fun l => owned l.documentId) db.file2documents db'.file2documents
  chunks : Table.Agree (fun c => ∃ id, owned id ∧ c.docId = some id) db.chunks db'.chunks

namespace Frame
variable {dir : Str} {owned : Str → Prop} {db db' db'' : Db}

theorem refl : Frame dir owned db db :=
  ⟨Table.Agree.refl, Table.Agree.refl, Table.Agree.refl, Table.Agree.refl⟩

theorem trans (h : Frame dir owned db db') (h' : Frame dir owned db' db'') :
    Frame dir owned db db'' :=
  ⟨h.documents.trans h'.documents, h.files.trans h'.files, h.links.trans h'.links,
    h.chunks.trans h'.chunks⟩

/-- What stands outside of the directory stood there at the beginning. -/
theorem outside (h : Frame dir (Outside dir db) db db') {d : Document} (hd : d ∈ db'.documents)
    (hin : inside dir d.location = false) : Outside dir db d.id :=
  ⟨d, (h.documents d hin).mp hd, hin, rfl⟩

end Frame

/-! ### The commands -/

section commands
variable {dir : Str} {uuid : ℕ → Str} {db₀ : Db}

theorem Fresh.not_outside (h : Fresh uuid db₀) {id : Str} (hid : Drawn uuid db₀ id) :
    ¬Outside dir db₀ id := by
  obtain ⟨n, hn, rfl⟩ := hid
  rintro ⟨d, hd, -, heq⟩
  exact h.documents n hn d hd heq

/-- The commands that leave alone what is outside of the directory. -/
def Op.Framed (dir : Str) (uuid : ℕ → Str) (db₀ : Db) : Op → Prop
  | .deleteFile2Document x | .deleteFile x | .deleteDocumentAndUpdateKbCounts x
  | .deleteChunksOf x _ _ => ¬Outside dir db₀ x
  | .insertFile f => Drawn uuid db₀ f.id
  | .insertFile2Document l => Drawn uuid db₀ l.documentId
  | .updateDocument x _ => Drawn uuid db₀ x
  | .insertTasks ts => ∀ t ∈ ts, t.chunkIds = []
  | .saveDocument d => Drawn uuid db₀ d.id ∧ inside dir d.location = true
  | .incrementDocument _ _ _ | .incrementKb _ _ _ | .updateChunkIds _ _ | .updateProgress _ _
  | .deleteChunks _ _ _ | .insertChunks _ => False
  | _ => True

/-- What a scan may count on: the tasks of its own documents have no chunks, and a document it
finds inside of the directory has an identifier that is not used outside. -/
def Op.Granted (dir : Str) (uuid : ℕ → Str) (db₀ : Db) : (op : Op) → op.Ret → Prop
  | .uuid4, id => Drawn uuid db₀ id
  | .tasksOf x, ts => Drawn uuid db₀ x → ∀ t ∈ ts, t.chunkIds = []
  | .docsBySource kbId sourceType, ds => ∀ d ∈ ds, d.kbId = kbId ∧ d.sourceType = sourceType ∧
      if inside dir d.location then ¬Outside dir db₀ d.id else d ∈ db₀.documents
  | _, _ => True

def framed (dir : Str) (uuid : ℕ → Str) (db₀ : Db) : Terms where
  asks c := c.op.Framed dir uuid db₀
  answers c r := c.op.Granted dir uuid db₀ r

theorem Op.Idle.framed {op : Op} (h : op.Idle) : op.Framed dir uuid db₀ := by
  cases op <;> trivial

theorem Op.Removal.framed {op : Op} {id : Str} (h : op.Removal id) (hid : ¬Outside dir db₀ id) :
    op.Framed dir uuid db₀ := by
  cases op with
  | deleteFile2Document | deleteFile | deleteDocumentAndUpdateKbCounts | deleteChunksOf =>
      cases h
      exact hid
  | _ => trivial

theorem Op.Link.framed {op : Op} {id : Str} (h : op.Link false id) (hid : Drawn uuid db₀ id) :
    op.Framed dir uuid db₀ := by
  cases op with
  | insertFile | insertFile2Document | updateDocument =>
      cases h
      exact hid
  | insertTasks ts => exact fun t ht => (h t ht).2 rfl
  | deleteChunks => cases h
  | _ => trivial

theorem idle_within_framed : idle.Within (framed dir uuid db₀) :=
  ⟨fun _ hc => hc.1.framed, fun _ _ _ => trivial⟩

theorem removal_within_framed {id : Str} (hid : ¬Outside dir db₀ id) :
    (removal id).Within (framed dir uuid db₀) :=
  ⟨fun _ hc => hc.1.framed hid, fun _ _ _ => trivial⟩

theorem link_within_framed {id : Str} (hid : Drawn uuid db₀ id) :
    (link false id).Within (framed dir uuid db₀) := by
  refine ⟨fun _ hc => hc.1.framed hid, fun c r hr => ?_⟩
  obtain ⟨site, op⟩ := c
  cases op with
  | tasksOf x => exact fun hx _ t ht => hr (hx ▸ hid) t ht
  | _ => trivial

/-! ### What the commands keep -/

/-- What holds at every moment of a scan that began in `db₀`. -/
structure FrameInv (dir : Str) (uuid : ℕ → Str) (db₀ db : Db) : Prop where
  frame : Frame dir (Outside dir db₀) db₀ db
  next : db₀.nextUuid ≤ db.nextUuid
  own : ∀ d ∈ db.documents, Drawn uuid db₀ d.id → inside dir d.location = true
  bare : ∀ t ∈ db.tasks, Drawn uuid db₀ t.docId → t.chunkIds = []

theorem Fresh.frameInv (h : Fresh uuid db₀) : FrameInv dir uuid db₀ db₀ := by
  refine ⟨Frame.refl, le_refl _, ?_, ?_⟩
  · rintro d hd ⟨n, hn, heq⟩
    exact absurd heq (h.documents n hn d hd)
  · rintro t ht ⟨n, hn, heq⟩
    exact absurd heq (h.tasks n hn t ht)

namespace FrameInv
variable {db db' : Db}

theorem step (h : FrameInv dir uuid db₀ db) (hframe : Frame dir (Outside dir db₀) db db')
    (hnext : db.nextUuid ≤ db'.nextUuid)
    (hown : ∀ d ∈ db'.documents, Drawn uuid db₀ d.id → inside dir d.location = true)
    (hbare : ∀ t ∈ db'.tasks, Drawn uuid db₀ t.docId → t.chunkIds = []) :
    FrameInv dir uuid db₀ db' :=
  ⟨h.frame.trans hframe, h.next.trans hnext, hown, hbare⟩

/-- A change of the documents only. -/
theorem setDocuments (h : FrameInv dir uuid db₀ db) {documents : Table Document Document.id}
    (hd : Table.Agree (fun d => inside dir d.location = false) db.documents documents)
    (hown : ∀ d ∈ documents, Drawn uuid db₀ d.id → inside dir d.location = true)
    {kbs : Table Knowledgebase Knowledgebase.id} :
    FrameInv dir uuid db₀ { db with documents, kbs } :=
  h.step ⟨hd, Table.Agree.refl, Table.Agree.refl, Table.Agree.refl⟩ (le_refl _) hown h.bare

/-- A change of the files, with identifiers drawn for it. -/
theorem setFiles (h : FrameInv dir uuid db₀ db) {files : Table File File.id} {n : ℕ}
    (hf : Table.Agree (fun f => Outside dir db₀ f.id) db.files files) (hn : db.nextUuid ≤ n) :
    FrameInv dir uuid db₀ { db with files, nextUuid := n } :=
  h.step ⟨Table.Agree.refl, hf, Table.Agree.refl, Table.Agree.refl⟩ hn h.own h.bare

theorem setLinks (h : FrameInv dir uuid db₀ db)
    {file2documents : Table File2Document File2Document.id}
    (hl : Table.Agree (fun l => Outside dir db₀ l.documentId) db.file2documents file2documents) :
    FrameInv dir uuid db₀ { db with file2documents } :=
  h.step ⟨Table.Agree.refl, Table.Agree.refl, hl, Table.Agree.refl⟩ (le_refl _) h.own h.bare

theorem setChunks (h : FrameInv dir uuid db₀ db) {chunks : Table Chunk Chunk.key}
    (hc : Table.Agree (fun c => ∃ id, Outside dir db₀ id ∧ c.docId = some id) db.chunks chunks) :
    FrameInv dir uuid db₀ { db with chunks } :=
  h.step ⟨Table.Agree.refl, Table.Agree.refl, Table.Agree.refl, hc⟩ (le_refl _) h.own h.bare

theorem setTasks (h : FrameInv dir uuid db₀ db) {tasks : Table Task Task.id}
    (hbare : ∀ t ∈ tasks, Drawn uuid db₀ t.docId → t.chunkIds = []) :
    FrameInv dir uuid db₀ { db with tasks } :=
  h.step ⟨Table.Agree.refl, Table.Agree.refl, Table.Agree.refl, Table.Agree.refl⟩ (le_refl _)
    h.own hbare

/-- A change of something else. -/
theorem setRest (h : FrameInv dir uuid db₀ db) {kbs : Table Knowledgebase Knowledgebase.id}
    {directories : Table ScannedDirectory ScannedDirectory.id} {canceled : List Str}
    {queue : List Task} {n : ℕ} (hn : db.nextUuid ≤ n) :
    FrameInv dir uuid db₀ { db with kbs, directories, canceled, queue, nextUuid := n } :=
  h.step ⟨Table.Agree.refl, Table.Agree.refl, Table.Agree.refl, Table.Agree.refl⟩ hn h.own h.bare

/-- An insertion, or an exception that changes nothing. -/
theorem orRaise {τ : Type} (h : FrameInv dir uuid db₀ db) {fits : Bool} {t : Option τ}
    {put : τ → Db} (hput : ∀ x, t = some x → FrameInv dir uuid db₀ (put x)) :
    FrameInv dir uuid db₀ (Db.orRaise fits t db put).2 := by
  unfold Db.orRaise
  split
  · exact h
  · exact h
  · exact hput _ rfl

theorem insertFile (hfresh : Fresh uuid db₀) (h : FrameInv dir uuid db₀ db) {f : File}
    (hf : Drawn uuid db₀ f.id) {files : Table File File.id}
    (hins : db.files.insert? f = some files) {n : ℕ} (hn : db.nextUuid ≤ n) :
    FrameInv dir uuid db₀ { db with files, nextUuid := n } :=
  h.setFiles (Table.Agree.insert? hins (hfresh.not_outside hf)) hn

theorem folderOrNew (hfresh : Fresh uuid db₀) (h : FrameInv dir uuid db₀ db) (p : File → Bool)
    (mk : Str → File) (hmk : ∀ id, (mk id).id = id) :
    FrameInv dir uuid db₀ (Db.folderOrNew uuid p mk db).2 := by
  have hdrawn : Drawn uuid db₀ (mk (uuid db.nextUuid)).id := ⟨_, h.next, hmk _⟩
  unfold Db.folderOrNew
  split
  · exact h
  · dsimp only
    split
    · exact h.setRest (Nat.le_succ _)
    · next files hins => exact h.insertFile hfresh hdrawn hins (Nat.le_succ _)

theorem getKbFolder (hfresh : Fresh uuid db₀) (h : FrameInv dir uuid db₀ db) (tenantId : Str) :
    FrameInv dir uuid db₀ (Db.getKbFolder uuid tenantId db).2 := by
  have hroot := h.folderOrNew hfresh (fun f => f.tenantId = tenantId && f.parentId = f.id)
    (Db.rootFolder tenantId) (fun _ => rfl)
  unfold Db.getKbFolder
  split
  · next heq => rw [heq] at hroot; exact hroot
  · next heq =>
      rw [heq] at hroot
      exact hroot.folderOrNew hfresh _ _ (fun _ => rfl)

/-- The chunks of a knowledge graph belong to no document. -/
theorem updateGraph (h : FrameInv dir uuid db₀ db) {q : Chunk → Bool} {f : Chunk → Chunk}
    {hf : ∀ c, (f c).key = c.key} (hq : ∀ c, q c = true → c.docId = none ∧ (f c).docId = none) :
    FrameInv dir uuid db₀ { db with chunks := db.chunks.updateWhere q f hf } := by
  refine h.setChunks (Table.Agree.updateWhere (fun c _ hqc => ?_))
  obtain ⟨hnone, hnone'⟩ := hq c hqc
  refine ⟨?_, ?_⟩
  · rintro ⟨id, -, hid⟩
    rw [hnone] at hid
    cases hid
  · rintro ⟨id, -, hid⟩
    rw [hnone'] at hid
    cases hid

theorem deleteChunks (h : FrameInv dir uuid db₀ db) {q : Chunk → Bool}
    (hq : ∀ c id, c.docId = some id → Outside dir db₀ id → q c = false) :
    FrameInv dir uuid db₀ { db with chunks := db.chunks.deleteWhere q } :=
  h.setChunks (Table.Agree.deleteWhere (fun c _ ⟨id, hid, hc⟩ => hq c id hc hid))

end FrameInv

theorem Chunk.docId_eq_none_of_sourceId {c : Chunk} (h : c.sourceId ≠ none) : c.docId = none := by
  obtain ⟨_, _, _, body⟩ := c
  cases body with
  | text => exact absurd rfl h
  | graph => rfl

theorem Chunk.docId_removeSource (docId : Str) (c : Chunk) :
    (c.removeSource docId).docId = c.docId := by
  obtain ⟨_, _, _, body⟩ := c
  cases body <;> rfl

theorem Chunk.docId_markRemoved (c : Chunk) : c.markRemoved.docId = c.docId := by
  obtain ⟨_, _, _, body⟩ := c
  cases body <;> rfl

theorem Chunk.docId_eq_none_of_isGraph {c : Chunk} (h : c.isGraph = true) : c.docId = none := by
  obtain ⟨_, _, _, body⟩ := c
  cases body with
  | text => cases h
  | graph => rfl

/-- Every command of the contract keeps the invariant. -/
theorem Op.Framed.apply (hfresh : Fresh uuid db₀) {op : Op} (hop : op.Framed dir uuid db₀) {db : Db}
    (h : FrameInv dir uuid db₀ db) : FrameInv dir uuid db₀ (Db.apply uuid op db).2 := by
  cases op with
  | increaseDocNum | uuid4 | cancelAllTaskOf | queueProduct =>
      exact h.setRest (by simp)
  | insertDirectory d => exact h.orRaise (fun _ _ => h.setRest (le_refl _))
  | saveDocument d =>
      obtain ⟨-, hin⟩ := hop
      refine h.orRaise (fun documents hins => ?_)
      refine h.setDocuments (Table.Agree.insert? hins (by simp [hin])) ?_
      intro x hx hdrawn
      rcases (Table.mem_insert? hins).mp hx with hx | rfl
      · exact h.own x hx hdrawn
      · exact hin
  | deleteDocumentAndUpdateKbCounts id =>
      show FrameInv dir uuid db₀ (db.deleteDocumentAndUpdateKbCounts id).2
      unfold Db.deleteDocumentAndUpdateKbCounts
      split
      · exact h
      · refine h.setDocuments (Table.Agree.deleteWhere (fun d hd hout => ?_)) ?_
        · have houtside : Outside dir db₀ d.id := h.frame.outside hd hout
          simp only [decide_eq_false_iff_not]
          exact fun heq => hop (heq ▸ houtside)
        · intro d hd hdrawn
          exact h.own d (Table.mem_deleteWhere.mp hd).1 hdrawn
  | updateDocument id u =>
      refine h.setDocuments (Table.Agree.updateWhere (fun d hd hid => ?_)) ?_
      · have hin : inside dir d.location = true :=
          h.own d hd ((of_decide_eq_true hid : d.id = id) ▸ hop)
        exact ⟨by simp [hin], by simp [DocumentUpdate.apply, hin]⟩
      · intro d hd hdrawn
        rcases Table.mem_updateWhere.mp hd with ⟨hd, -⟩ | ⟨r, hr, -, rfl⟩
        · exact h.own d hd hdrawn
        · exact h.own r hr hdrawn
  | deleteFile2Document id =>
      refine h.setLinks (Table.Agree.deleteWhere (fun l _ hl => ?_))
      simp only [decide_eq_false_iff_not]
      exact fun heq => hop (heq ▸ hl)
  | deleteFile id =>
      refine h.setFiles (Table.Agree.deleteWhere (fun f _ hf => ?_)) (le_refl _)
      simp only [decide_eq_false_iff_not]
      exact fun heq => hop (heq ▸ hf)
  | kbFolder tenantId => exact h.getKbFolder hfresh tenantId
  | insertFile f => exact h.orRaise (fun files hins => h.insertFile hfresh hop hins (le_refl _))
  | insertFile2Document l =>
      refine h.orRaise (fun links hins => ?_)
      exact h.setLinks (Table.Agree.insert? hins (hfresh.not_outside hop))
  | deleteTasks id =>
      exact h.setTasks (fun t ht => h.bare t (Table.mem_deleteWhere.mp ht).1)
  | insertTasks ts =>
      cases ts with
      | nil => exact h
      | cons t ts =>
          refine h.setTasks (fun u hu hdrawn => ?_)
          rcases Table.mem_foldl_upsert hu with hu | hu
          · exact h.bare u hu hdrawn
          · exact hop u hu
  | deleteChunksOf id index kbId =>
      refine h.deleteChunks (fun c x hc hx => ?_)
      have hne : c.docId ≠ some id := by
        rw [hc]
        rintro ⟨rfl⟩
        exact hop hx
      simp [hne]
  | graphRemoveSource docId index kbId =>
      refine h.updateGraph (fun c hc => ?_)
      have hnone : c.docId = none := by
        refine Chunk.docId_eq_none_of_sourceId (fun hs => ?_)
        simp [hs] at hc
      exact ⟨hnone, (Chunk.docId_removeSource docId c).trans hnone⟩
  | graphMarkRemoved index kbId =>
      refine h.updateGraph (fun c hc => ?_)
      have hnone := Chunk.docId_eq_none_of_isGraph (Bool.and_eq_true_iff.mp hc).2
      exact ⟨hnone, (Chunk.docId_markRemoved c).trans hnone⟩
  | graphDeleteOrphans index kbId =>
      refine h.deleteChunks (fun c x hc _ => ?_)
      cases hs : c.sourceId with
      | none => simp
      | some s =>
          have hnone := Chunk.docId_eq_none_of_sourceId (c := c) (by simp [hs])
          rw [hnone] at hc
          cases hc
  | getFile id =>
      simp only [Db.apply]
      cases db.files.get? id <;> exact h
  | osStat answer => cases answer <;> exact h
  | incrementDocument | incrementKb | updateChunkIds | updateProgress | deleteChunks
  | insertChunks => exact hop.elim
  | _ => exact h

/-- The replies are as promised. -/
theorem FrameInv.granted {db : Db} (h : FrameInv dir uuid db₀ db) {op : Op} {r : op.Ret}
    (hr : (Db.apply uuid op db).1 = .ok r) : op.Granted dir uuid db₀ r := by
  cases op with
  | uuid4 =>
      cases hr
      exact ⟨_, h.next, rfl⟩
  | tasksOf id =>
      cases hr
      intro hdrawn t ht
      have ht : t ∈ db.tasks ∧ t.docId = id := by
        simpa [Db.getTasks, List.mem_insertionSort] using ht
      exact h.bare t ht.1 (ht.2 ▸ hdrawn)
  | docsBySource kbId sourceType =>
      cases hr
      intro d hd
      obtain ⟨hd, hq⟩ := Table.mem_select.mp hd
      rw [Bool.and_eq_true, decide_eq_true_iff, decide_eq_true_iff] at hq
      refine ⟨hq.1, hq.2, ?_⟩
      split_ifs with hin
      · -- a document outside with the same identifier would be the same row
        rintro ⟨x, hx, hxout, hxid⟩
        have heq := db.documents.eq_of_key_eq hd ((h.frame.documents x hxout).mpr hx) hxid.symm
        rw [heq, hxout] at hin
        cases hin
      · exact (h.frame.documents d (by simpa using hin)).mp hd
  | _ => trivial

theorem framed_keeps (hfresh : Fresh uuid db₀) :
    (framed dir uuid db₀).Keeps (Call.apply uuid) (FrameInv dir uuid db₀) :=
  fun _ _ hc h => ⟨Op.Framed.apply hfresh hc h, fun _ hr => h.granted hr⟩

end commands

/-! ### The scan -/

section scan
variable {env : ScanEnv} {req : ScanRequest} {plan : ScanPlan}

theorem runScan_framed {uuid : ℕ → Str} {db₀ : Db}
    (hfiles : plan.files = filesToImport env plan.path)
    (hcond : ∀ d ∈ db₀.documents, d.kbId = plan.kb.id → d.sourceType = localScan →
      d.startsWith plan.path = true → inside plan.path d.location = true) :
    Uses (framed plan.path uuid db₀) (fun report => ∀ id ∈ report.imported, Drawn uuid db₀ id)
      (runScan env req plan) := by
  have hdocs : ∀ docs, (framed plan.path uuid db₀).answers
        ⟨⟨.docsQuery, req.kbId⟩, .docsBySource plan.kb.id localScan⟩ docs →
      ∀ d ∈ docs, d.startsWith plan.path = true →
        Sweepable env plan (framed plan.path uuid db₀) true d := by
    intro docs hdocs d hd hstarts
    obtain ⟨hkb, hsource, hd⟩ := hdocs d hd
    refine Or.inr ⟨rfl, removal_within_framed ?_⟩
    split_ifs at hd with hin
    · exact hd
    · exact absurd (hcond d hd hkb hsource hstarts) hin
  have himport : ∀ f ∈ plan.files,
      Importable env plan (framed plan.path uuid db₀) (Drawn uuid db₀) f := by
    intro f hf
    exact ⟨trivial, fun _ h => h, fun id hid => ⟨trivial, trivial,
      fun _ _ => ⟨hid, inside_of_mem_files hfiles hf⟩, false, link_within_framed hid⟩⟩
  exact (runScan_uses idle_within_framed hdocs (fun _ _ => trivial)
    (fun f hf _ => himport f hf)).weaken (fun _ h => h.1)

/-! ### Where the provision fails -/

/-- Saves happen under drawn identifiers only. -/
def Op.Drawing (Q : Str → Prop) : Op → Prop
  | .saveDocument d => Q d.id
  | _ => True

/-- The identifiers that `uuid4` gives are in `Q`. -/
def Op.Gives (Q : Str → Prop) : (op : Op) → op.Ret → Prop
  | .uuid4, id => Q id
  | _, _ => True

def drawing (Q : Str → Prop) : Terms where
  asks c := c.op.Drawing Q
  answers c r := c.op.Gives Q r

theorem link_within_drawing (Q : Str → Prop) (id : Str) : (link true id).Within (drawing Q) := by
  refine ⟨fun c hc => ?_, fun c r _ => link_answers id c r⟩
  obtain ⟨site, op⟩ := c
  cases op with
  | saveDocument d => exact False.elim hc.1
  | _ => trivial

theorem importable_drawing (env : ScanEnv) (plan : ScanPlan) (Q : Str → Prop) (f : WalkEntry) :
    Importable env plan (drawing Q) Q f :=
  ⟨trivial, fun _ h => h, fun id hid => ⟨trivial, trivial, fun _ _ => hid, true,
    link_within_drawing Q id⟩⟩

theorem importAll_drawing (Q : Str → Prop) (files : List WalkEntry) (t : Tally) :
    Uses (drawing Q) (Imported Q files t) (importAll env req plan t files) :=
  importAll_uses files (fun _ _ => trivial) (fun f _ _ => importable_drawing env plan Q f) t

/-- What is drawn from a state on. -/
theorem drawing_answers {uuid : ℕ → Str} {db₀ db : Db} (hnext : db₀.nextUuid ≤ db.nextUuid)
    {c : Call} {r : c.op.Ret} (hr : (Call.apply uuid c db).1 = .ok r) :
    (drawing (Drawn uuid db₀)).answers c r := by
  obtain ⟨site, op⟩ := c
  cases op with
  | uuid4 =>
      cases hr
      exact ⟨_, hnext, rfl⟩
  | _ => trivial

/-- A document that is gone does not come back under its identifier. -/
theorem drawing_keeps {uuid : ℕ → Str} {db₀ : Db} {x : Str} (hx : ¬Drawn uuid db₀ x) :
    (drawing (Drawn uuid db₀)).Keeps (Call.apply uuid)
      (fun db => db₀.nextUuid ≤ db.nextUuid ∧ ∀ s ∈ db.stamps, s.id ≠ x) := by
  rintro ⟨site, op⟩ db hc ⟨hnext, hgone⟩
  refine ⟨⟨hnext.trans (nextUuid_apply uuid op db), ?_⟩, fun r hr => drawing_answers hnext hr⟩
  rcases stamps_apply uuid op db with heq | ⟨d, rfl, -, heq⟩ | ⟨id, -, heq⟩
  · show ∀ s ∈ (Db.apply uuid op db).2.stamps, s.id ≠ x
    rw [heq]
    exact hgone
  · show ∀ s ∈ (Db.apply uuid (.saveDocument d) db).2.stamps, s.id ≠ x
    rw [heq]
    intro s hs
    rcases List.mem_append.mp hs with hs | hs
    · exact hgone s hs
    · rw [List.mem_singleton.mp hs]
      exact fun h => hx (h ▸ hc)
  · show ∀ s ∈ (Db.apply uuid op db).2.stamps, s.id ≠ x
    rw [heq]
    exact fun s hs => hgone s (List.mem_filter.mp hs).1

/-- A stale document is gone after the scan. -/
theorem not_mem_of_stale {uuid : ℕ → Str} {w : World} (hfresh : Fresh uuid w.db)
    (hadmitted : admitted env req (w.db.kbs.get? req.kbId) = .ok plan) {d : Document}
    (hd : d ∈ staleDocs env plan w.db) :
    d ∉ ((scanDirectory env req).exec (calm uuid) w).2.db.documents := by
  obtain ⟨-, -, hfiles⟩ := admitted_eq_ok hadmitted
  obtain ⟨db₁, t, t', w', id, hsweep, -, himport, hrun⟩ := runScan_calm hfresh hfiles req
  rw [scanDirectory_state rfl hadmitted, hrun]
  have hold : ¬Drawn uuid w.db d.id :=
    hfresh.not_drawn (mem_stamps.mpr ⟨d, (mem_staleDocs.mp hd).1, rfl⟩)
  have hgone : ∀ s ∈ db₁.stamps, s.id ≠ d.id := by
    rw [hsweep.stamps]
    intro s hs heq
    refine of_decide_eq_true (List.mem_filter.mp hs).2 ?_
    rw [heq]
    exact List.mem_map_of_mem hd
  have hkeeps := Service.exec_keeps himport (importAll_drawing (Drawn uuid w.db) plan.files t).only
    (Terms.keeps_handle (calm uuid) (drawing_keeps hold)) ⟨hsweep.next, hgone⟩
  intro hmem
  exact hkeeps.1.2 d.stamp (mem_stamps.mpr ⟨d, hmem, rfl⟩) rfl

/-- **Frame of a scan.**  Whatever raises meanwhile, a scan leaves alone what is outside of its
directory exactly when the documents of earlier scans that its prefix test selects lie inside. -/
theorem scanFrame_iff (env : ScanEnv) (req : ScanRequest) (w : World) :
    (∀ su : Surroundings, Fresh su.uuid w.db →
      Frame (abspath env.cwd req.path) (Outside (abspath env.cwd req.path) w.db) w.db
        ((scanDirectory env req).exec su w).2.db) ↔
    ∀ plan, admitted env req (w.db.kbs.get? req.kbId) = .ok plan →
      ∀ d ∈ w.db.documents, d.kbId = plan.kb.id → d.sourceType = localScan →
        d.startsWith plan.path = true → inside plan.path d.location = true := by
  constructor
  · intro hframe plan hadmitted d hd hkb hsource hstarts
    obtain ⟨-, hpath, hfiles⟩ := admitted_eq_ok hadmitted
    cases hin : inside plan.path d.location with
    | true => rfl
    | false =>
        exfalso
        obtain ⟨uuid, hfresh⟩ := exists_fresh w.db
        have hstale : d.stale env plan = true := by
          unfold Document.stale
          rw [hstarts, Bool.true_and, Bool.not_eq_true', Bool.and_eq_false_iff]
          left
          rw [Bool.eq_false_iff]
          intro hmem
          obtain ⟨f, hf, heq⟩ := List.mem_map.mp (List.contains_iff_mem.mp hmem)
          have hfin := inside_of_mem_files hfiles hf
          rw [heq, ← location_of_startsWith hstarts, hin] at hfin
          cases hfin
        have hgone := not_mem_of_stale hfresh hadmitted
          (mem_staleDocs.mpr ⟨hd, hkb, hsource, hstale⟩)
        have hdocs := (hframe (calm uuid) hfresh).documents
        rw [← hpath] at hdocs
        exact hgone ((hdocs d hin).mpr hd)
  · intro hcond su hfresh
    rcases scanDirectory_cases env req su w with ⟨r, w', hexec, hdb⟩ | ⟨plan, hraise, hadmitted⟩
    · rw [hexec, hdb]
      exact Frame.refl
    · obtain ⟨-, hpath, hfiles⟩ := admitted_eq_ok hadmitted
      rw [scanDirectory_state hraise hadmitted, ← hpath]
      have huses : Uses (framed plan.path su.uuid w.db)
          (fun report => ∀ id ∈ report.imported, Drawn su.uuid w.db id)
          (runScan env req plan) := runScan_framed hfiles (hcond plan hadmitted)
      have hinv := huses.only.exec (Terms.keeps_handle su (framed_keeps hfresh))
        (s := w) hfresh.frameInv
      exact hinv.1.frame

end scan

/-! Two directories of one volume, `data` and `data2`; the one file is in the second. -/

def siblingFs : FileSystem :=
  { files := [⟨["mnt", "data2", "b.txt"], 1, 5⟩]
    emptyDirs := [["mnt", "data"]]
    nodup := by simp
    names := by decide }

def siblingDoc : Document := volumeDoc "d" "/mnt/data2/b.txt"

def siblingDb : Db := volumeDb ⟨[siblingDoc], by simp⟩

/-- Documents whose identifiers do not start with the letter of `volumeUuid`. -/
theorem fresh_volumeDb {documents : Table Document Document.id}
    (h : ∀ d ∈ documents.rows, d.id.head? ≠ some 'u') : Fresh volumeUuid (volumeDb documents) := by
  refine ⟨?_, ?_, ?_, ?_⟩
  · intro m n h
    have hlen := congrArg List.length h
    simpa [volumeUuid] using hlen
  · intro n _ d hd heq
    exact h d hd (heq ▸ rfl)
  · intro n _ t ht
    exact absurd ht List.not_mem_nil
  · intro n _ d hd
    exact absurd hd List.not_mem_nil

/-- The scan of `/mnt/data` removes the document of the file in `/mnt/data2`. -/
theorem scanFrame_sibling :
    Fresh volumeUuid siblingDb ∧
      ¬Frame "/mnt/data" (Outside "/mnt/data" siblingDb) siblingDb
        ((scanDirectory (volumeEnv siblingFs) volumeRequest).exec (calm volumeUuid)
          ⟨siblingDb, []⟩).2.db := by
  refine ⟨fresh_volumeDb (by decide), fun hframe => ?_⟩
  have hrows : ((scanDirectory (volumeEnv siblingFs) volumeRequest).exec (calm volumeUuid)
      ⟨siblingDb, []⟩).2.db.documents.rows = [] := rfl
  have hmem := (hframe.documents siblingDoc (by decide)).mpr List.mem_cons_self
  rw [Table.mem_rows, hrows] at hmem
  exact absurd hmem List.not_mem_nil

end RagFlow
