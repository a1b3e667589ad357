import Mathlib.Algebra.Order.Ring.Rat
import Mathlib.Data.List.Sort
import RagFlow.Columns
import RagFlow.Effect
import RagFlow.Table

/-! # The stores of the service and their atomic operations

The state shared by the services: the relational tables (knowledge bases, documents, files,
the link table between files and documents, tasks, scanned directories), the document store
with the chunks, the Redis keys that cancel a task and the Redis stream of queued tasks.

`Op` lists the statements the services issue, one constructor per statement (a statement, or a
`DB.atomic()` block, is atomic); `Op.Ret` is the type of the reply and `Db.apply` the effect.
A program of the services is a `Prog` over `Call`, an operation together with the place of the
source it is issued from (`Site`).

* **Exceptions.** `handle` runs an operation.  It raises when the surroundings make that site
  raise (`raises`: a lost connection, a missing permission) and when the operation itself
  fails (a duplicate primary key, a missing row).  Either way the site is recorded in
  `World.raised`, so that "no step raises" is a property of the final state.
* **Identifiers.** `uuid4` draws from a stream `uuid`; nothing is assumed about it, a repeated
  identifier surfaces as a duplicate key.
* **Server.** Locations and names are compared as the database server compares them, numbers are
  kept as its columns keep them (`Engine`), and a row whose values do not fit is refused.
  Identifiers are compared as they are, since they are digits.
* **Left out.** Objects of the blob storage, the metadata index and time stamps: the operations
  on them (`external`) can raise but change nothing below. -/

namespace RagFlow

open Py

/-! ### Rows -/

/-- `TaskStatus`, the values of the column `run`. -/
inductive TaskStatus where
  | unstart | running | cancel | done | fail | schedule
deriving DecidableEq, Repr

/-- The entries of `parser_config` the services read. -/
structure ParserConfig where
  layoutRecognize : Option Str := none
  taskPageSize : Option ℕ := none
  tocExtraction : Bool := false
  pages : List (ℤ × ℤ) := []
deriving DecidableEq

structure Knowledgebase where
  id : Str
  tenantId : Str
  parserId : Str
  pipelineId : Str
  parserConfig : ParserConfig
  docNum : ℤ
  tokenNum : ℤ
  chunkNum : ℤ
  valid : Bool
deriving DecidableEq

structure Document where
  id : Str
  kbId : Str
  parserId : Str
  pipelineId : Str
  parserConfig : ParserConfig
  createdBy : Str
  type : Str
  name : Str
  sourceType : Str
  suffix : Str
  location : Option Str
  size : ℕ
  contentHash : Option Str
  run : TaskStatus
  progress : ℚ
  tokenNum : ℤ
  chunkNum : ℤ
deriving DecidableEq

/-- Changes of `doc_num`, `token_num` and `chunk_num`. -/
abbrev Counters := ℤ × ℤ × ℤ

def Knowledgebase.add (δ : Counters) (kb : Knowledgebase) : Knowledgebase :=
  { kb with
    docNum := kb.docNum + δ.1
    tokenNum := kb.tokenNum + δ.2.1
    chunkNum := kb.chunkNum + δ.2.2 }

def Document.add (tokenNum chunkNum : ℤ) (d : Document) : Document :=
  { d with tokenNum := d.tokenNum + tokenNum, chunkNum := d.chunkNum + chunkNum }

/-- The values that do not come from other rows fit their columns. -/
def Document.fits (d : Document) : Bool :=
  d.size < integerBound && d.name.length ≤ 255 && d.type.length ≤ 32 && d.suffix.length ≤ 32 &&
    d.location.all (·.length ≤ 1024) && d.contentHash.all (·.length ≤ 32)

/-- The columns an `update_by_id` on a document gives, in the places the services give them. -/
structure DocumentUpdate where
  parserId : Option Str := none
  pipelineId : Option Str := none
  run : Option TaskStatus := none
  progress : Option ℚ := none
  tokenNum : Option ℤ := none
  chunkNum : Option ℤ := none

def DocumentUpdate.apply (column : FloatColumn) (u : DocumentUpdate) (d : Document) : Document :=
  { d with
    parserId := u.parserId.getD d.parserId
    pipelineId := u.pipelineId.getD d.pipelineId
    run := u.run.getD d.run
    progress := (u.progress.map column.store).getD d.progress
    tokenNum := u.tokenNum.getD d.tokenNum
    chunkNum := u.chunkNum.getD d.chunkNum }

structure File where
  id : Str
  parentId : Str
  tenantId : Str
  createdBy : Str
  name : Str
  location : Str
  size : ℕ
  type : Str
  sourceType : Str
deriving DecidableEq

def File.fits (f : File) : Bool :=
  f.size < integerBound && f.name.length ≤ 255 && f.type.length ≤ 32 && f.location.length ≤ 1024

structure File2Document where
  id : Str
  fileId : Str
  documentId : Str
deriving DecidableEq

structure Task where
  id : Str
  docId : Str
  fromPage : ℤ
  toPage : ℤ
  taskType : Str
  priority : ℤ
  progress : ℚ
  digest : Str
  chunkIds : List Str
  createTime : ℕ
deriving DecidableEq

/-- `update_progress`: a failed task stays failed, otherwise progress only grows or fails. -/
def Task.nextProgress (column : FloatColumn) (prog : Option ℚ) (t : Task) : ℚ :=
  match prog with
  | none => t.progress
  | some p => if t.progress ≠ -1 && (p = -1 || t.progress < p) then column.store p else t.progress

def Task.setProgress (column : FloatColumn) (prog : Option ℚ) (t : Task) : Task :=
  { t with progress := t.nextProgress column prog }

structure ScannedDirectory where
  id : Str
  kbId : Str
  directoryPath : Str
  scanIntervalMinutes : ℤ
  createdBy : Str
deriving DecidableEq

/-- What the chunks of a knowledge graph are. -/
inductive GraphKwd where
  | entity | relation | graph | subgraph | communityReport
deriving DecidableEq, Repr

/-- A chunk is text of a document or part of the graph of its knowledge base; the latter has no
document of its own but lists those it comes from. -/
inductive ChunkBody where
  | text (docId : Str)
  | graph (kwd : GraphKwd) (sourceId : List Str) (removed : Bool)
deriving DecidableEq

/-- A row of the document store. -/
structure Chunk where
  index : Str
  kbId : Str
  id : Str
  body : ChunkBody
  /-- The column `mom_id`: the mother chunk it is a part of. -/
  momId : Option Str := none
deriving DecidableEq

namespace Chunk

/-- The column `doc_id`. -/
def docId (c : Chunk) : Option Str :=
  match c.body with
  | .text docId => some docId
  | .graph .. => none

/-- The column `source_id`. -/
def sourceId (c : Chunk) : Option (List Str) :=
  match c.body with
  | .text _ => none
  | .graph _ sourceId _ => some sourceId

/-- The row with the whole graph. -/
def isGraph (c : Chunk) : Bool :=
  match c.body with
  | .graph .graph _ _ => true
  | _ => false

/-- `{"remove": {"source_id": doc.id}}`. -/
def removeSource (docId : Str) (c : Chunk) : Chunk :=
  match c.body with
  | .text _ => c
  | .graph kwd sourceId removed =>
      { c with body := .graph kwd (sourceId.filter (· ≠ docId)) removed }

/-- `{"removed_kwd": "Y"}`. -/
def markRemoved (c : Chunk) : Chunk :=
  match c.body with
  | .text _ => c
  | .graph kwd sourceId _ => { c with body := .graph kwd sourceId true }

end Chunk

/-- The key of a chunk: its index and its identifier. -/
def Chunk.key (c : Chunk) : Str × Str := (c.index, c.id)

theorem Chunk.removeSource_key (docId : Str) (c : Chunk) : (c.removeSource docId).key = c.key := by
  unfold removeSource
  split <;> rfl

theorem Chunk.markRemoved_key (c : Chunk) : c.markRemoved.key = c.key := by
  unfold markRemoved
  split <;> rfl

/-- `search.index_name`. -/
def indexName (tenantId : Option Str) : Str := ("ragflow_" : Str) ++ tenantId.getD "None"

/-- `FileSource.LOCAL_SCAN`. -/
def localScan : Str := "local_scan"

/-- `FileSource.KNOWLEDGEBASE`. -/
def knowledgebaseSource : Str := "knowledgebase"

/-- `FileSource.UPLOADED`. -/
def uploaded : Str := "uploaded"

/-- `FileType.FOLDER`. -/
def folderType : Str := "folder"

/-- `KNOWLEDGEBASE_FOLDER_NAME`. -/
def knowledgebaseFolderName : Str := ".knowledgebase"

/-- The stores. -/
structure Db where
  /-- The server of the tables. -/
  engine : Engine
  kbs : Table Knowledgebase Knowledgebase.id
  documents : Table Document Document.id
  files : Table File File.id
  file2documents : Table File2Document File2Document.id
  tasks : Table Task Task.id
  directories : Table ScannedDirectory ScannedDirectory.id
  chunks : Table Chunk Chunk.key
  canceled : List Str
  queue : List Task
  nextUuid : ℕ

/-! ### Exceptions and call sites -/

/-- The exceptions the operations and the services raise. -/
inductive Err where
  /-- Raised by the surroundings: connection, storage, operating system. -/
  | failure
  /-- A primary key is already taken. -/
  | duplicateKey
  /-- A value does not fit its column. -/
  | dataError
  /-- A row or file that has to be there is not. -/
  | doesNotExist
  /-- `IndexError` on an empty list. -/
  | indexError
  /-- `RuntimeError` with its text. -/
  | runtimeError (msg : Str)
  /-- `TaskCanceledException`. -/
  | taskCanceled
deriving DecidableEq, Repr

/-- The statements of the services that can raise. -/
inductive Point where
  -- the scan as a whole
  | kbGet | dirsQuery | dirTouch | dirUuid | dirInsert | docsQuery | dirTouchByPath
  -- removing a document; the key of the site is the document
  | f2dDelete | fileDelete | tenantGet | docDelete | cancelTasks | tasksDelete | imagesDelete
  | thumbnailDelete | chunksDelete | metadataDelete | graphSearch | graphUpdate | graphMark
  | graphDelete
  -- importing a file; the key of the site is its path
  | stat | docsAt | docUuid | getsize | getmtime | docSave | docNumIncrease | kbFolder
  | fileSize | fileInsert | f2dInsert
  -- queueing the tasks of a document; the key of the site is the document
  | doneCount | fieldMap | storageAddress | readFile | taskUuid | chunkingConfig | tasksQuery
  | prevTasksDelete | prevChunksDelete | chunkNumUpdate | tasksInsert | begin2parse | kbIdGet
  | queueTask
  -- the run endpoint and the change of the parser; the key of the site is the document
  | docGet | runCancel | rerunClear | runUpdate | runTasksDelete | runChunksDelete | resetUpdate
  | docIncrement | kbIncrement
  -- executing a task; the key of the site is the task
  | hasCanceled | progressUpdate | bindModel | buildChunks | embedding | chunksInsert
  | chunkIdsUpdate | chunksDrop
deriving DecidableEq, Repr

/-- A place of the source and the document, file or task it is executed for. -/
structure Site where
  point : Point
  key : Str
deriving DecidableEq

/-! ### Operations -/

/-- The atomic operations on the stores. -/
inductive Op where
  | getKb (id : Str)
  | increaseDocNum (kbId : Str)
  | directoriesOf (kbId : Str)
  | insertDirectory (d : ScannedDirectory)
  | docsBySource (kbId sourceType : Str)
  | docsAt (kbId location : Str)
  | saveDocument (d : Document)
  | getDocument (id : Str)
  | getTenantId (docId : Str)
  | chunkingConfig (docId : Str)
  | deleteDocumentAndUpdateKbCounts (docId : Str)
  | countDone (kbId : Str)
  | updateDocument (docId : Str) (u : DocumentUpdate)
  | incrementDocument (docId : Str) (tokenNum chunkNum : ℤ)
  | incrementKb (kbId : Str) (tokenNum chunkNum : ℤ)
  | deleteFile2Document (docId : Str)
  | deleteFile (id : Str)
  | kbFolder (tenantId : Str)
  | insertFile (f : File)
  | insertFile2Document (l : File2Document)
  | storageLink (docId : Str)
  | getFile (id : Str)
  | cancelAllTaskOf (docId : Str)
  | deleteTasks (docId : Str)
  | tasksOf (docId : Str)
  | insertTasks (ts : List Task)
  | updateChunkIds (taskId : Str) (ids : List Str)
  | updateProgress (taskId : Str) (prog : Option ℚ)
  | hasCanceled (taskId : Str)
  | queueProduct (t : Task)
  | deleteChunksOf (docId index kbId : Str)
  | deleteChunks (ids : List Str) (index kbId : Str)
  | insertChunks (cs : List Chunk)
  | graphSource (index kbId : Str)
  | graphRemoveSource (docId index kbId : Str)
  | graphMarkRemoved (index kbId : Str)
  | graphDeleteOrphans (index kbId : Str)
  | uuid4
  /-- An operation on something that is not part of the state. -/
  | external
  /-- `os.stat` and its relatives, with the answer of the file system. -/
  | osStat (answer : Option (ℕ × ℚ))
  /-- A `raise` of the service itself. -/
  | raiseError (e : Err)

/-- The type of the reply. -/
abbrev Op.Ret : Op → Type
  | getKb _ => Option Knowledgebase
  | increaseDocNum _ => ℕ
  | directoriesOf _ => List ScannedDirectory
  | docsBySource _ _ => List Document
  | docsAt _ _ => List Document
  | getDocument _ => Option Document
  | getTenantId _ => Option Str
  | chunkingConfig _ => Option (Document × Knowledgebase)
  | deleteDocumentAndUpdateKbCounts _ => Bool
  | countDone _ => ℕ
  | updateDocument _ _ => ℕ
  | incrementDocument _ _ _ => ℕ
  | incrementKb _ _ _ => ℕ
  | kbFolder _ => Str
  | storageLink _ => Option File2Document
  | getFile _ => File
  | tasksOf _ => List Task
  | hasCanceled _ => Bool
  | graphSource _ _ => Option (List Str)
  | uuid4 => Str
  | osStat _ => ℕ × ℚ
  | _ => Unit

/-- An operation and where it is issued. -/
structure Call where
  site : Site
  op : Op

/-- Programs of the services. -/
abbrev Service (α : Type) := Effect.Prog Call (fun c => c.op.Ret) Err α

/-- Issue `op` at the point `p` for `key`. -/
def issue (p : Point) (key : Str) (op : Op) : Service op.Ret :=
  Effect.Prog.perform (C := Call) ⟨⟨p, key⟩, op⟩

/-! ### The effect of an operation -/

namespace Db

/-- Insert a row or raise: on a value that does not fit, or on a duplicate key. -/
def orRaise {τ : Type} (fits : Bool) (t : Option τ) (db : Db) (put : τ → Db) :
    Except Err Unit × Db :=
  match fits, t with
  | false, _ => (.error .dataError, db)
  | true, none => (.error .duplicateKey, db)
  | true, some t => (.ok (), put t)

/-- A row that has been inserted. -/
theorem orRaise_eq_ok {τ : Type} {fits : Bool} {t : Option τ} {db : Db} {put : τ → Db} {u : Unit}
    (h : (orRaise fits t db put).1 = .ok u) :
    fits = true ∧ ∃ x, t = some x ∧ (orRaise fits t db put).2 = put x := by
  unfold orRaise at h ⊢
  split at h
  · cases h
  · cases h
  · exact ⟨rfl, _, rfl, rfl⟩

/-- `get_root_folder`, `get_kb_folder` and `new_a_file_from_kb`: look a folder up, or create it. -/
def folderOrNew (uuid : ℕ → Str) (p : File → Bool) (mk : Str → File) (db : Db) :
    Except Err Str × Db :=
  match db.files.rows.find? p with
  | some f => (.ok f.id, db)
  | none =>
      let id := uuid db.nextUuid
      let db := { db with nextUuid := db.nextUuid + 1 }
      match db.files.insert? (mk id) with
      | none => (.error .duplicateKey, db)
      | some files => (.ok id, { db with files })

/-- The folder of the root of a tenant: its own parent. -/
def rootFolder (tenantId id : Str) : File :=
  { id, parentId := id, tenantId, createdBy := tenantId, name := "/", location := [],
    size := 0, type := folderType, sourceType := [] }

/-- The folder of the knowledge bases of a tenant. -/
def knowledgebaseFolder (tenantId rootId id : Str) : File :=
  { id, parentId := rootId, tenantId, createdBy := tenantId, name := knowledgebaseFolderName,
    location := [], size := 0, type := folderType, sourceType := knowledgebaseSource }

/-- `FileService.get_kb_folder`. -/
def getKbFolder (uuid : ℕ → Str) (tenantId : Str) (db : Db) : Except Err Str × Db :=
  match folderOrNew uuid (fun f => f.tenantId = tenantId && f.parentId = f.id)
      (rootFolder tenantId) db with
  | (.error e, db) => (.error e, db)
  | (.ok rootId, db) =>
      folderOrNew uuid
        (fun f => f.tenantId = tenantId && f.parentId = rootId &&
          db.engine.collation.same f.name knowledgebaseFolderName)
        (knowledgebaseFolder tenantId rootId) db

/-- `delete_document_and_update_kb_counts`: one transaction. -/
def deleteDocumentAndUpdateKbCounts (docId : Str) (db : Db) : Bool × Db :=
  match db.documents.get? docId with
  | none => (false, db)
  | some doc =>
      (true, { db with
        documents := db.documents.deleteWhere (·.id = docId)
        kbs := db.kbs.updateWhere (·.id = doc.kbId)
          (Knowledgebase.add (-1, -doc.tokenNum, -doc.chunkNum)) (fun _ => rfl) })

/-- The order of `get_tasks`: by first page, the newest first among equals. -/
def taskBefore (a b : Task) : Bool :=
  a.fromPage < b.fromPage || (a.fromPage = b.fromPage && b.createTime ≤ a.createTime)

/-- `TaskService.get_tasks`. -/
def getTasks (docId : Str) (db : Db) : List Task :=
  (db.tasks.select (·.docId = docId)).insertionSort (taskBefore · ·)

/-- `DocumentService.get_tenant_id`: the knowledge base has to be valid. -/
def getTenantId (docId : Str) (db : Db) : Option Str :=
  (db.documents.get? docId).bind (fun d =>
    ((db.kbs.get? d.kbId).filter (·.valid)).map (·.tenantId))

/-- `DocumentService.get_chunking_config`: the document joined with its knowledge base. -/
def getChunkingConfig (docId : Str) (db : Db) : Option (Document × Knowledgebase) :=
  (db.documents.get? docId).bind (fun d => (db.kbs.get? d.kbId).map (d, ·))

/-- The chunk is a row of the given index and knowledge base. -/
def inKb (index kbId : Str) (c : Chunk) : Bool := c.index = index && c.kbId = kbId

/-- The reply to an operation and the stores after it. -/
def apply (uuid : ℕ → Str) : (op : Op) → Db → Except Err op.Ret × Db
  | .getKb id, db => (.ok (db.kbs.get? id), db)
  | .increaseDocNum kbId, db =>
      (.ok (db.kbs.select (·.id = kbId)).length, { db with
        kbs := db.kbs.updateWhere (·.id = kbId) (Knowledgebase.add (1, 0, 0)) (fun _ => rfl) })
  | .directoriesOf kbId, db => (.ok (db.directories.select (·.kbId = kbId)), db)
  | .insertDirectory d, db =>
      orRaise true (db.directories.insert? d) db (fun directories => { db with directories })
  | .docsBySource kbId sourceType, db =>
      (.ok (db.documents.select (fun d => d.kbId = kbId && d.sourceType = sourceType)), db)
  | .docsAt kbId location, db =>
      (.ok (db.documents.select (fun d =>
        d.kbId = kbId && d.location.any (db.engine.collation.same location))), db)
  | .saveDocument d, db =>
      orRaise d.fits (db.documents.insert? d) db (fun documents => { db with documents })
  | .getDocument id, db => (.ok (db.documents.get? id), db)
  | .getTenantId docId, db => (.ok (db.getTenantId docId), db)
  | .chunkingConfig docId, db => (.ok (db.getChunkingConfig docId), db)
  | .deleteDocumentAndUpdateKbCounts docId, db =>
      let r := db.deleteDocumentAndUpdateKbCounts docId
      (.ok r.1, r.2)
  | .countDone kbId, db =>
      (.ok (db.documents.select (fun d => d.kbId = kbId && d.run = .done)).length, db)
  | .updateDocument docId u, db =>
      (.ok (db.documents.select (·.id = docId)).length, { db with
        documents := db.documents.updateWhere (·.id = docId) (u.apply db.engine.number)
          (fun _ => rfl) })
  | .incrementDocument docId tokenNum chunkNum, db =>
      (.ok (db.documents.select (·.id = docId)).length, { db with
        documents := db.documents.updateWhere (·.id = docId) (Document.add tokenNum chunkNum)
          (fun _ => rfl) })
  | .incrementKb kbId tokenNum chunkNum, db =>
      (.ok (db.kbs.select (·.id = kbId)).length, { db with
        kbs := db.kbs.updateWhere (·.id = kbId) (Knowledgebase.add (0, tokenNum, chunkNum))
          (fun _ => rfl) })
  | .deleteFile2Document docId, db =>
      (.ok (), { db with
        file2documents := db.file2documents.deleteWhere (·.documentId = docId) })
  | .deleteFile id, db => (.ok (), { db with files := db.files.deleteWhere (·.id = id) })
  | .kbFolder tenantId, db => getKbFolder uuid tenantId db
  | .insertFile f, db => orRaise f.fits (db.files.insert? f) db (fun files => { db with files })
  | .insertFile2Document l, db =>
      orRaise true (db.file2documents.insert? l) db
        (fun file2documents => { db with file2documents })
  | .storageLink docId, db => (.ok (db.file2documents.rows.find? (·.documentId = docId)), db)
  | .getFile id, db =>
      match db.files.get? id with
      | none => (.error .doesNotExist, db)
      | some f => (.ok f, db)
  | .cancelAllTaskOf docId, db =>
      (.ok (), { db with
        canceled := db.canceled ++ (db.tasks.select (·.docId = docId)).map (·.id) })
  | .deleteTasks docId, db => (.ok (), { db with tasks := db.tasks.deleteWhere (·.docId = docId) })
  | .tasksOf docId, db => (.ok (db.getTasks docId), db)
  | .insertTasks ts, db =>
      match ts with
      | [] => (.error .indexError, db)
      | _ => (.ok (), { db with tasks := ts.foldl Table.upsert db.tasks })
  | .updateChunkIds taskId ids, db =>
      (.ok (), { db with
        tasks := db.tasks.updateWhere (·.id = taskId) (fun t => { t with chunkIds := ids })
          (fun _ => rfl) })
  | .updateProgress taskId prog, db =>
      match db.tasks.get? taskId with
      | none => (.error .doesNotExist, db)
      | some _ => (.ok (), { db with
          tasks := db.tasks.updateWhere (·.id = taskId) (Task.setProgress db.engine.number prog)
            (fun _ => rfl) })
  | .hasCanceled taskId, db => (.ok (db.canceled.contains taskId), db)
  | .queueProduct t, db => (.ok (), { db with queue := db.queue ++ [t] })
  | .deleteChunksOf docId index kbId, db =>
      (.ok (), { db with
        chunks := db.chunks.deleteWhere (fun c => inKb index kbId c && c.docId = some docId) })
  | .deleteChunks ids index kbId, db =>
      (.ok (), { db with
        chunks := db.chunks.deleteWhere (fun c => inKb index kbId c && ids.contains c.id) })
  | .insertChunks cs, db => (.ok (), { db with chunks := cs.foldl Table.upsert db.chunks })
  | .graphSource index kbId, db =>
      (.ok ((db.chunks.rows.find? (fun c => inKb index kbId c && c.isGraph)).bind (·.sourceId)), db)
  | .graphRemoveSource docId index kbId, db =>
      (.ok (), { db with
        chunks := db.chunks.updateWhere
          (fun c => inKb index kbId c && c.sourceId.any (·.contains docId))
          (Chunk.removeSource docId) (Chunk.removeSource_key docId) })
  | .graphMarkRemoved index kbId, db =>
      (.ok (), { db with
        chunks := db.chunks.updateWhere (fun c => inKb index kbId c && c.isGraph)
          Chunk.markRemoved Chunk.markRemoved_key })
  | .graphDeleteOrphans index kbId, db =>
      (.ok (), { db with
        chunks := db.chunks.deleteWhere (fun c => inKb index kbId c && c.sourceId = some []) })
  | .uuid4, db => (.ok (uuid db.nextUuid), { db with nextUuid := db.nextUuid + 1 })
  | .external, db => (.ok (), db)
  | .osStat (some st), db => (.ok st, db)
  | .osStat none, db => (.error .doesNotExist, db)
  | .raiseError e, db => (.error e, db)

end Db

/-! ### Running a service -/

/-- The stores and the record of the sites that have raised. -/
structure World where
  db : Db
  raised : List Site

/-- The choices of the surroundings: the identifiers drawn and the sites that raise. -/
structure Surroundings where
  uuid : ℕ → Str
  raises : Site → Bool

/-- Surroundings in which nothing raises. -/
def calm (uuid : ℕ → Str) : Surroundings := ⟨uuid, fun _ => false⟩

/-- The reply to a call and the world after it. -/
def handle (su : Surroundings) (c : Call) (w : World) : Except Err c.op.Ret × World :=
  if su.raises c.site then (.error .failure, { w with raised := w.raised ++ [c.site] })
  else
    match Db.apply su.uuid c.op w.db with
    | (.ok r, db) => (.ok r, { w with db })
    | (.error e, db) => (.error e, { db, raised := w.raised ++ [c.site] })

/-- Run a service to its end. -/
def Service.exec {α : Type} (su : Surroundings) (p : Service α) (w : World) :
    Except Err α × World :=
  Effect.Prog.exec (handle su) p w

/-- The two parts of a sequence that has succeeded. -/
theorem Service.exec_bind_eq_ok {α β : Type} {su : Surroundings} {p : Service α}
    {f : α → Service β} {w w' : World} {b : β} (h : (p >>= f).exec su w = (.ok b, w')) :
    ∃ a w₁, p.exec su w = (.ok a, w₁) ∧ (f a).exec su w₁ = (.ok b, w') :=
  Effect.Prog.exec_bind_eq_ok (handle su) h

theorem Service.exec_bind_ok {α β : Type} {su : Surroundings} {p : Service α}
    {f : α → Service β} {w w' : World} {a : α} (h : p.exec su w = (.ok a, w')) :
    (p >>= f).exec su w = (f a).exec su w' :=
  Effect.Prog.exec_bind_ok (handle su) f h

/-- An operation that has succeeded: it is not made to raise, and its effect is that of `apply`. -/
theorem exec_issue_eq_ok {su : Surroundings} {p : Point} {key : Str} {op : Op} {w w' : World}
    {r : op.Ret} (h : (issue p key op).exec su w = (.ok r, w')) :
    su.raises ⟨p, key⟩ = false ∧ (Db.apply su.uuid op w.db).1 = .ok r ∧
      w' = { w with db := (Db.apply su.uuid op w.db).2 } := by
  unfold issue Service.exec at h
  rw [Effect.Prog.exec_perform] at h
  unfold handle at h
  split_ifs at h with hr
  · cases h
  · rcases ha : Db.apply su.uuid op w.db with ⟨a, db⟩
    simp only [ha] at h
    cases a with
    | ok a =>
        cases h
        exact ⟨by simpa using hr, rfl, rfl⟩
    | error e => cases h

/-- An operation that is made to raise. -/
theorem exec_issue_raises {su : Surroundings} {p : Point} {key : Str} {op : Op} {w : World}
    (h : su.raises ⟨p, key⟩ = true) :
    (issue p key op).exec su w =
      (.error .failure, { w with raised := w.raised ++ [⟨p, key⟩] }) := by
  unfold issue Service.exec
  rw [Effect.Prog.exec_perform]
  unfold handle
  rw [if_pos h]

/-- An operation that raises itself. -/
theorem exec_issue_error {su : Surroundings} {p : Point} {key : Str} {op : Op} {w : World} {db : Db}
    {e : Err} (h : su.raises ⟨p, key⟩ = false) (he : Db.apply su.uuid op w.db = (.error e, db)) :
    (issue p key op).exec su w = (.error e, { db, raised := w.raised ++ [⟨p, key⟩] }) := by
  unfold issue Service.exec
  rw [Effect.Prog.exec_perform]
  unfold handle
  rw [if_neg (by simp [h]), he]

/-- An operation that is not made to raise and does not raise itself. -/
theorem exec_issue_ok {su : Surroundings} {p : Point} {key : Str} {op : Op} {w : World} {db : Db}
    {r : op.Ret} (h : su.raises ⟨p, key⟩ = false) (hr : Db.apply su.uuid op w.db = (.ok r, db)) :
    (issue p key op).exec su w = (.ok r, { w with db }) := by
  unfold issue Service.exec
  rw [Effect.Prog.exec_perform]
  unfold handle
  rw [if_neg (by simp [h]), hr]

theorem Service.exec_bind_error {α β : Type} {su : Surroundings} {p : Service α}
    {f : α → Service β} {w w' : World} {e : Err} (h : p.exec su w = (.error e, w')) :
    (p >>= f).exec su w = (.error e, w') :=
  Effect.Prog.exec_bind_error (handle su) f h

/-! ### Contracts -/

/-- Contracts of the services. -/
abbrev Terms := Effect.Contract Call (fun c => c.op.Ret)

/-- The effect of a call on the stores alone. -/
def Call.apply (uuid : ℕ → Str) (c : Call) (db : Db) : Except Err c.op.Ret × Db :=
  Db.apply uuid c.op db

/-- What the operations keep, they keep also where some of them are made to raise. -/
theorem Terms.keeps_handle {K : Terms} (su : Surroundings) {I : Db → Prop}
    (h : K.Keeps (Call.apply su.uuid) I) : K.Keeps (handle su) (fun w => I w.db) := by
  intro c w hc hw
  obtain ⟨hI, ha⟩ := h c w.db hc hw
  unfold Call.apply at hI ha
  unfold handle
  split_ifs
  · exact ⟨hw, fun a h => by cases h⟩
  · rcases hr : Db.apply su.uuid c.op w.db with ⟨r, db⟩
    rw [hr] at hI ha
    cases r with
    | ok r => exact ⟨hI, ha⟩
    | error e => exact ⟨hI, fun a h => by cases h⟩

/-- What a contract keeps, a run of a service within the contract keeps. -/
theorem Service.exec_keeps {α : Type} {K : Terms} {su : Surroundings} {Q : α → Prop}
    {I : World → Prop} {p : Service α} {w w' : World} {r : Except Err α}
    (h : p.exec su w = (r, w')) (hp : Effect.Only K Q p) (hK : K.Keeps (handle su) I) (hw : I w) :
    I w' ∧ ∀ a, r = .ok a → Q a := by
  have hkeeps := hp.exec hK hw
  unfold Service.exec at h
  rw [h] at hkeeps
  exact hkeeps

/-- A call raises exactly when it is recorded. -/
theorem handle_cases (su : Surroundings) (c : Call) (w : World) :
    (∃ r, handle su c w = (.ok r, { w with db := (c.apply su.uuid w.db).2 }) ∧
      c.apply su.uuid w.db = (.ok r, (c.apply su.uuid w.db).2)) ∨
    ∃ e db, handle su c w = (.error e, { db, raised := w.raised ++ [c.site] }) := by
  unfold handle Call.apply
  split_ifs
  · exact Or.inr ⟨_, _, rfl⟩
  · rcases Db.apply su.uuid c.op w.db with ⟨r, db⟩
    cases r with
    | ok r => exact Or.inl ⟨r, rfl, rfl⟩
    | error e => exact Or.inr ⟨e, db, rfl⟩

/-- The record only grows. -/
theorem raised_prefix {α : Type} (su : Surroundings) (p : Service α) (w : World) :
    w.raised <+: (p.exec su w).2.raised := by
  unfold Service.exec
  induction p generalizing w with
  | ret a => exact List.prefix_rfl
  | raise e => exact List.prefix_rfl
  | call c k ih =>
      rcases handle_cases su c w with ⟨r, hr, -⟩ | ⟨e, db, hr⟩
      · rw [Effect.Prog.exec, hr]
        exact ih (.ok r) { w with db := (c.apply su.uuid w.db).2 }
      · rw [Effect.Prog.exec, hr]
        exact (List.prefix_append w.raised [c.site]).trans
          (ih (.error e) { db, raised := w.raised ++ [c.site] })

/-! ### Runs in which nothing raises -/

/-- The value and the stores after a run in which no operation raises. -/
def Service.calm {α : Type} (uuid : ℕ → Str) (p : Service α) (db : Db) : Option (α × Db) :=
  Effect.Prog.calm (Call.apply uuid) p db

/-- A run that has not recorded anything is one in which nothing raises. -/
theorem Service.calm_of_exec {α : Type} {su : Surroundings} {p : Service α} {w w' : World} {a : α}
    (h : p.exec su w = (.ok a, w')) (hraised : w'.raised = w.raised) :
    p.calm su.uuid w.db = some (a, w'.db) := by
  unfold Service.exec at h
  unfold Service.calm
  induction p generalizing w with
  | ret b => cases h; rfl
  | raise e => cases h
  | call c k ih =>
      rw [Effect.Prog.exec] at h
      rcases handle_cases su c w with ⟨r, hr, happly⟩ | ⟨e, db, hr⟩
      · rw [hr] at h
        rw [Effect.Prog.calm, happly]
        exact ih (.ok r) h hraised
      · have hp := raised_prefix su (k (.error e)) { db, raised := w.raised ++ [c.site] }
        rw [hr] at h
        unfold Service.exec at hp
        rw [h, hraised] at hp
        have hlen := hp.length_le
        rw [List.length_append, List.length_singleton] at hlen
        omega

/-- Where nothing is made to raise, a run without exceptions is the run. -/
theorem Service.exec_of_calm {α : Type} {uuid : ℕ → Str} {p : Service α} {w : World} {a : α}
    {db : Db} (h : p.calm uuid w.db = some (a, db)) :
    p.exec (RagFlow.calm uuid) w = (.ok a, { w with db }) := by
  unfold Service.calm at h
  unfold Service.exec
  induction p generalizing w with
  | ret b => cases h; rfl
  | raise e => cases h
  | call c k ih =>
      rw [Effect.Prog.calm] at h
      rw [Effect.Prog.exec]
      have hhandle : ∀ r db', c.apply uuid w.db = (.ok r, db') →
          handle (RagFlow.calm uuid) c w = (.ok r, { w with db := db' }) := by
        intro r db' hr
        unfold Call.apply at hr
        unfold handle RagFlow.calm
        rw [if_neg Bool.false_ne_true, hr]
      rcases hr : c.apply uuid w.db with ⟨r, db'⟩
      rw [hr] at h
      cases r with
      | ok r =>
          rw [hhandle r db' hr]
          exact ih (.ok r) h
      | error e => cases h

/-- One operation that does not raise. -/
theorem calm_issue {uuid : ℕ → Str} {p : Point} {key : Str} {op : Op} {db db' : Db} {r : op.Ret}
    (h : Db.apply uuid op db = (.ok r, db')) : (issue p key op).calm uuid db = some (r, db') := by
  have hc : Call.apply uuid ⟨⟨p, key⟩, op⟩ db = (.ok r, db') := h
  unfold issue Service.calm
  rw [Effect.Prog.calm_perform, hc]

theorem calm_issue_eq_some {uuid : ℕ → Str} {p : Point} {key : Str} {op : Op} {db db' : Db}
    {r : op.Ret} (h : (issue p key op).calm uuid db = some (r, db')) :
    Db.apply uuid op db = (.ok r, db') := by
  unfold issue Service.calm at h
  rw [Effect.Prog.calm_perform] at h
  show Call.apply uuid ⟨⟨p, key⟩, op⟩ db = _
  rcases ha : Call.apply uuid ⟨⟨p, key⟩, op⟩ db with ⟨a, db₁⟩
  rw [ha] at h
  cases a with
  | ok a => cases h; rfl
  | error e => cases h

theorem Service.calm_bind {α β : Type} {uuid : ℕ → Str} {p : Service α} {f : α → Service β}
    {db db₁ : Db} {a : α} (h : p.calm uuid db = some (a, db₁)) :
    (p >>= f).calm uuid db = (f a).calm uuid db₁ := by
  unfold Service.calm at h ⊢
  rw [Effect.Prog.calm_bind, h]
  rfl

theorem Service.calm_bind_eq_some {α β : Type} {uuid : ℕ → Str} {p : Service α} {f : α → Service β}
    {db db' : Db} {b : β} (h : (p >>= f).calm uuid db = some (b, db')) :
    ∃ a db₁, p.calm uuid db = some (a, db₁) ∧ (f a).calm uuid db₁ = some (b, db') := by
  unfold Service.calm at h ⊢
  rw [Effect.Prog.calm_bind, Option.bind_eq_some_iff] at h
  obtain ⟨⟨a, db₁⟩, hp, hf⟩ := h
  exact ⟨a, db₁, hp, hf⟩

theorem Service.calm_tryCatch {α : Type} {uuid : ℕ → Str} {p : Service α} {f : Err → Service α}
    {db db' : Db} {a : α} (h : p.calm uuid db = some (a, db')) :
    (tryCatch p f : Service α).calm uuid db = some (a, db') :=
  Effect.Prog.calm_tryCatch_of_eq_some (Call.apply uuid) f h

end RagFlow
