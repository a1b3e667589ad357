import RagFlow.DocumentService
import RagFlow.PosixPath
import RagFlow.MountInfo

/-! # Scanning a directory

`ScannedDirectoryService.scan_directory`.  The guards in front of the scan read the knowledge
base, the mount table and the file system (`admitted`); what follows is a program over the stores:

* `directoryRecord` finds or creates the record of the directory;
* `sweep` goes over the documents of earlier scans whose location starts with the path, removes
  those whose file is gone, and removes those whose file has another size or modification time,
  so that the import takes them up again;
* `importAll` goes over the files of the directory and imports those that no document of the
  knowledge base has as its location.

The two passes know of each other through the table of the documents only. -/

namespace RagFlow

open Py

/-- What a scan reads besides the stores: the file system does not change meanwhile. -/
structure ScanEnv extends ParseEnv where
  fs : FileSystem
  /-- The content of `/proc/self/mountinfo`. -/
  mountinfo : Str
  /-- The working directory of the process. -/
  cwd : Str
  caseTable : CaseTable

structure ScanRequest where
  kbId : Str
  path : Str
  scanInterval : ℤ
  createdBy : Option Str
  tenantId : Option Str
  priority : ℤ

/-- `MAX_SCAN_FILE_COUNT`. -/
def maxScanFileCount : ℕ := 10000

/-- The reasons for which a scan returns without having touched anything. -/
inductive Refusal where
  | kbNotFound (kbId : Str)
  | noMountedVolumes
  | pathNotAllowed (allowedPaths : List Str)
  | pathDoesNotExist (path : Str)
  | notADirectory (path : Str)
  | noCreator
  | tooManyFiles
deriving DecidableEq

/-- What the guards have found out. -/
structure ScanPlan where
  kb : Knowledgebase
  path : Str
  creator : Str
  files : List WalkEntry

/-- What the scan returns. -/
structure ScanReport where
  imported : List Str
  /-- The relative path of a file and the exception its import ended with. -/
  errors : List (Str × Err)
  scanDirId : Str
  deleted : ℕ
  skipped : ℕ
  reparsed : ℕ

/-! ### The guards -/

/-- `created_by or tenant_id`. -/
def ScanRequest.creator (req : ScanRequest) : Str :=
  match req.createdBy with
  | none | some [] => req.tenantId.getD []
  | some createdBy => createdBy

/-- The files of the directory that can be imported. -/
def filesToImport (env : ScanEnv) (path : Str) : List WalkEntry :=
  (env.fs.walk path).filter (fun f => isSupported f.name)

/-- The guards, in the order of the source. -/
def admitted (env : ScanEnv) (req : ScanRequest) (kb : Option Knowledgebase) :
    Except Refusal ScanPlan :=
  match kb with
  | none => .error (.kbNotFound req.kbId)
  | some kb =>
      let path := abspath env.cwd req.path
      let allowed := MountInfo.allowedPaths env.caseTable env.mountinfo
      if allowed.isEmpty then .error .noMountedVolumes
      else if !MountInfo.pathAllowed env.caseTable env.mountinfo path then
        .error (.pathNotAllowed allowed)
      else if !env.fs.pathExists path then .error (.pathDoesNotExist path)
      else if !env.fs.isdir path then .error (.notADirectory path)
      else if req.creator.isEmpty then .error .noCreator
      else if maxScanFileCount < (filesToImport env path).length then .error .tooManyFiles
      else .ok { kb, path, creator := req.creator, files := filesToImport env path }

/-! ### The record of the directory -/

/-- The record of the directory: found, or created. -/
def directoryRecord (req : ScanRequest) (plan : ScanPlan) : Service Str := do
  let dirs ← issue .dirsQuery req.kbId (.directoriesOf req.kbId)
  match dirs.find? (·.directoryPath = plan.path) with
  | some dir => do
      issue .dirTouch req.kbId .external
      pure dir.id
  | none => do
      let id ← issue .dirUuid req.kbId .uuid4
      issue .dirInsert req.kbId (.insertDirectory
        { id, kbId := req.kbId, directoryPath := plan.path,
          scanIntervalMinutes := req.scanInterval, createdBy := plan.creator })
      issue .dirTouch req.kbId .external
      pure id

/-! ### Deletions and re-parsing -/

/-- `str(int(mtime))`. -/
def mtimeHash (mtime : ℚ) : Str :=
  let seconds := mtime.num.tdiv mtime.den
  if seconds < 0 then '-' :: Nat.toDigits 10 seconds.natAbs else Nat.toDigits 10 seconds.natAbs

/-- The counters and lists of a scan under way. -/
structure Tally where
  imported : List Str := []
  errors : List (Str × Err) := []
  deleted : ℕ := 0
  skipped : ℕ := 0
  reparsed : ℕ := 0

/-- The removal of a document of an earlier scan. -/
def removeScanned (doc : Document) : Service Unit := do
  issue .f2dDelete doc.id (.deleteFile2Document doc.id)
  issue .fileDelete doc.id (.deleteFile doc.id)
  let tenantId ← issue .tenantGet doc.id (.getTenantId doc.id)
  removeDocument doc tenantId

/-- The document carries the size and the whole-second modification time of the file. -/
def unchanged (doc : Document) (stat : ℕ × ℚ) : Bool :=
  doc.size = stat.1 && doc.contentHash = some (mtimeHash stat.2)

/-- A document whose file has changed: removed, for the import to take it up again. -/
def reparse (doc : Document) (t : Tally) : Service Tally :=
  try
    removeScanned doc
    pure { t with reparsed := t.reparsed + 1 }
  catch _ => pure t

/-- A document whose file is still there. -/
def sweepPresent (env : ScanEnv) (doc : Document) (loc : Str) (t : Tally) : Service Tally :=
  try
    let stat ← issue .stat doc.id (.osStat (env.fs.stat loc))
    if unchanged doc stat then pure { t with skipped := t.skipped + 1 } else reparse doc t
  catch _ => pure t

/-- The location of the document starts with the path of the scan. -/
def Document.startsWith (doc : Document) (path : Str) : Bool :=
  match doc.location with
  | none => false
  | some loc => !loc.isEmpty && startswith loc path

/-- One document of an earlier scan. -/
def sweepDoc (env : ScanEnv) (plan : ScanPlan) (t : Tally) (doc : Document) : Service Tally :=
  let loc := doc.location.getD []
  if doc.startsWith plan.path then
    if (plan.files.map (·.path)).contains loc then sweepPresent env doc loc t
    else do
      quietly (removeScanned doc)
      pure { t with deleted := t.deleted + 1 }
  else pure t

def sweep (env : ScanEnv) (plan : ScanPlan) : Tally → List Document → Service Tally
  | t, [] => pure t
  | t, doc :: docs => do
      let t ← sweepDoc env plan t doc
      sweep env plan t docs

/-! ### Imports -/

/-- The row of the document for a file. -/
def newDocument (env : ScanEnv) (plan : ScanPlan) (id : Str) (f : WalkEntry) (size : ℕ)
    (contentHash : Str) : Document :=
  let name := basename f.path
  let cls := scanClass env.caseTable plan.kb.parserId name
  { id, kbId := plan.kb.id, parserId := cls.parserId, pipelineId := plan.kb.pipelineId,
    parserConfig := plan.kb.parserConfig, createdBy := plan.creator, type := cls.type, name,
    sourceType := localScan, suffix := cls.suffix, location := some f.path, size,
    contentHash := some contentHash, run := .running, progress := 0, tokenNum := 0,
    chunkNum := 0 }

/-- The row of the file manager for a file. -/
def newFile (plan : ScanPlan) (doc : Document) (parentId : Str) (f : WalkEntry) (size : ℕ) : File :=
  { id := doc.id, parentId, tenantId := plan.kb.tenantId, createdBy := plan.creator,
    name := doc.name, location := f.path, size, type := doc.type, sourceType := [] }

/-- The row of the document, up to the arguments of `DocumentService.insert`. -/
def describeFile (env : ScanEnv) (plan : ScanPlan) (id : Str) (f : WalkEntry) :
    Service Document := do
  let size ← issue .getsize f.path (.osStat (env.fs.stat f.path))
  let mtime ← issue .getmtime f.path (.osStat (env.fs.stat f.path))
  pure (newDocument env plan id f size.1 (mtimeHash mtime.2))

/-- The rows of the file manager; a link that cannot be inserted is logged. -/
def registerFile (env : ScanEnv) (plan : ScanPlan) (f : WalkEntry) (doc : Document) :
    Service Unit := do
  let parentId ← issue .kbFolder f.path (.kbFolder plan.kb.tenantId)
  let size ← issue .fileSize f.path (.osStat (env.fs.stat f.path))
  issue .fileInsert f.path (.insertFile (newFile plan doc parentId f size.1))
  quietly (issue .f2dInsert f.path
    (.insertFile2Document { id := doc.id, fileId := doc.id, documentId := doc.id }))

/-- The import after `DocumentService.insert`: the file manager, and the start of the parsing. -/
def linkFile (env : ScanEnv) (req : ScanRequest) (plan : ScanPlan) (f : WalkEntry)
    (doc : Document) : Service Unit := do
  registerFile env plan f doc
  runDocument env.toParseEnv doc [] req.priority

/-- The import of a file that no document has as its location, under the identifier `id`. -/
def importNew (env : ScanEnv) (req : ScanRequest) (plan : ScanPlan) (f : WalkEntry) (id : Str) :
    Service (Option Str) := do
  let doc ← describeFile env plan id f
  insertDocument f.path doc
  linkFile env req plan f doc
  pure (some id)

/-- The import of one file; no identifier when a document has its path already. -/
def importFile (env : ScanEnv) (req : ScanRequest) (plan : ScanPlan) (f : WalkEntry) :
    Service (Option Str) := do
  let existing ← issue .docsAt f.path (.docsAt plan.kb.id f.path)
  if existing.isEmpty then
    let id ← issue .docUuid f.path .uuid4
    importNew env req plan f id
  else pure none

/-- The import of one file, its exceptions reported. -/
def importStep (env : ScanEnv) (req : ScanRequest) (plan : ScanPlan) (t : Tally) (f : WalkEntry) :
    Service Tally :=
  try
    let id ← importFile env req plan f
    match id with
    | none => pure { t with skipped := t.skipped + 1 }
    | some id => pure { t with imported := t.imported ++ [id] }
  catch e => pure { t with errors := t.errors ++ [(f.rel, e)] }

def importAll (env : ScanEnv) (req : ScanRequest) (plan : ScanPlan) :
    Tally → List WalkEntry → Service Tally
  | t, [] => pure t
  | t, f :: files => do
      let t ← importStep env req plan t f
      importAll env req plan t files

/-! ### The scan -/

/-- The dictionary the scan returns. -/
def Tally.report (t : Tally) (scanDirId : Str) : ScanReport :=
  { imported := t.imported, errors := t.errors, scanDirId, deleted := t.deleted,
    skipped := t.skipped, reparsed := t.reparsed }

/-- The scan after the guards. -/
def runScan (env : ScanEnv) (req : ScanRequest) (plan : ScanPlan) : Service ScanReport := do
  let scanDirId ← directoryRecord req plan
  let docs ← issue .docsQuery req.kbId (.docsBySource plan.kb.id localScan)
  let t ← sweep env plan {} docs
  let t ← importAll env req plan t plan.files
  issue .dirTouchByPath req.kbId .external
  pure (t.report scanDirId)

/-- `scan_directory`. -/
def scanDirectory (env : ScanEnv) (req : ScanRequest) : Service (Except Refusal ScanReport) := do
  let kb ← getOrNone (issue .kbGet req.kbId (.getKb req.kbId))
  match admitted env req kb with
  | .error refusal => pure (.error refusal)
  | .ok plan => do
      let report ← runScan env req plan
      pure (.ok report)

/-! A knowledge base, and a volume mounted at `/mnt` with the directory `/mnt/data` in it. -/

def volumeKb : Knowledgebase :=
  { id := "kb", tenantId := "t", parserId := "naive", pipelineId := [], parserConfig := {},
    docNum := 0, tokenNum := 0, chunkNum := 0, valid := true }

def volumeDb (documents : Table Document Document.id) : Db :=
  { engine := .postgres
    kbs := ⟨[volumeKb], by simp⟩
    documents
    files := Table.empty
    file2documents := Table.empty
    tasks := Table.empty
    directories := Table.empty
    chunks := Table.empty
    canceled := []
    queue := []
    nextUuid := 0 }

def volumeEnv (fs : FileSystem) : ScanEnv :=
  { totalPageNumber := fun _ _ => none
    rowNumber := fun _ _ => 0
    digest := fun _ _ _ _ => "g"
    now := 0
    random := 0
    fs
    mountinfo := "36 35 8:1 / /mnt rw,relatime - ext3 /dev/sdb1 rw\n"
    cwd := "/"
    caseTable := .ascii }

def volumeRequest : ScanRequest :=
  { kbId := "kb", path := "/mnt/data", scanInterval := 60, createdBy := some "t", tenantId := none,
    priority := 0 }

def volumeUuid (n : ℕ) : Str := List.replicate (n + 1) 'u'

/-- A document that an earlier scan has imported. -/
def volumeDoc (id loc : Str) : Document :=
  { id, kbId := "kb", parserId := "naive", pipelineId := [], parserConfig := {}, createdBy := "t",
    type := "txt", name := basename loc, sourceType := localScan, suffix := "txt",
    location := some loc, size := 1, contentHash := some "5", run := .done, progress := 1,
    tokenNum := 0, chunkNum := 0 }

end RagFlow
