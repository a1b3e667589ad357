import RagFlow.TaskService

/-! # Documents and the counters of their knowledge base

The operations of `DocumentService` and of the endpoints over it: insertion, removal, the changes
of the counters, the reset of a document before it is parsed again, and the start of its parsing.

The counters `doc_num`, `token_num` and `chunk_num` of a knowledge base are kept beside those of
its documents, in another table and by other statements.  What the operations do to both sides is
the subject of `KbCounters`. -/

namespace RagFlow

open Py

/-! ### Insertion and removal -/

/-- `DocumentService.insert`.  No caller gives the counters, so they take their default `0`. -/
def insertDocument (key : Str) (doc : Document) : Service Unit := do
  issue .docSave key (.saveDocument { doc with tokenNum := 0, chunkNum := 0 })
  let num ← issue .docNumIncrease key (.increaseDocNum doc.kbId)
  if num = 0 then
    issue .docNumIncrease key (.raiseError (.runtimeError "Database error (Knowledgebase)!"))

/-- A body whose exceptions are logged and dropped. -/
def quietly (body : Service Unit) : Service Unit :=
  try body catch _ => pure ()

/-- The references to the document in the knowledge graph are removed. -/
def cleanupGraph (doc : Document) (index : Str) : Service Unit := do
  let source ← issue .graphSearch doc.id (.graphSource index doc.kbId)
  if source.any (·.contains doc.id) then
    issue .graphUpdate doc.id (.graphRemoveSource doc.id index doc.kbId)
    issue .graphMark doc.id (.graphMarkRemoved index doc.kbId)
    issue .graphDelete doc.id (.graphDeleteOrphans index doc.kbId)

/-- `DocumentService.remove_document`. -/
def removeDocument (doc : Document) (tenantId : Option Str) : Service Unit := do
  let deleted ← issue .docDelete doc.id (.deleteDocumentAndUpdateKbCounts doc.id)
  if deleted then
    quietly (issue .cancelTasks doc.id (.cancelAllTaskOf doc.id))
    quietly (issue .tasksDelete doc.id (.deleteTasks doc.id))
    quietly (issue .imagesDelete doc.id .external)
    quietly (issue .thumbnailDelete doc.id .external)
    quietly (issue .chunksDelete doc.id (.deleteChunksOf doc.id (indexName tenantId) doc.kbId))
    quietly (issue .metadataDelete doc.id .external)
    quietly (cleanupGraph doc (indexName tenantId))

/-! ### Counters -/

/-- `DocumentService.increment_chunk_num`: a missing document is only logged. -/
def incrementChunkNum (docId kbId : Str) (tokenNum chunkNum : ℤ) : Service ℕ := do
  let _ ← issue .docIncrement docId (.incrementDocument docId tokenNum chunkNum)
  issue .kbIncrement docId (.incrementKb kbId tokenNum chunkNum)

/-- `DocumentService.decrement_chunk_num`: a missing document raises. -/
def decrementChunkNum (docId kbId : Str) (tokenNum chunkNum : ℤ) : Service ℕ := do
  let num ← issue .docIncrement docId (.incrementDocument docId (-tokenNum) (-chunkNum))
  if num = 0 then issue .docIncrement docId (.raiseError .doesNotExist)
  issue .kbIncrement docId (.incrementKb kbId (-tokenNum) (-chunkNum))

/-- `DocumentService.clear_chunk_num_when_rerun`. -/
def clearChunkNumWhenRerun (docId : Str) : Service Unit := do
  let doc ← issue .rerunClear docId (.getDocument docId)
  match doc with
  | none => issue .rerunClear docId (.raiseError .doesNotExist)
  | some doc =>
      let _ ← issue .rerunClear docId (.incrementKb doc.kbId (-doc.tokenNum) (-doc.chunkNum))

/-! ### The run endpoint and the change of the parser -/

/-- A request to the run endpoint for one document. -/
structure RunRequest where
  docId : Str
  run : TaskStatus
  /-- `req["delete"]`, when the request has it. -/
  delete : Option Bool

namespace RunRequest

/-- `req.get("delete", False)`. -/
def deletes (req : RunRequest) : Bool := req.delete.getD false

/-- `"delete" not in req or req["delete"]`. -/
def clears (req : RunRequest) : Bool := req.delete.getD true

/-- The columns the endpoint sets before it queues the document. -/
def info (req : RunRequest) : DocumentUpdate :=
  if req.run = .running && req.deletes then
    { run := some req.run, progress := some 0, tokenNum := some 0, chunkNum := some 0 }
  else { run := some req.run, progress := some 0 }

end RunRequest

/-- `DocumentService.get_by_id` and its siblings: an exception counts as a missing row. -/
def getOrNone {ρ : Type} (body : Service (Option ρ)) : Service (Option ρ) :=
  try body catch _ => pure none

/-- The cancel branch of the run endpoint; `false` when there is nothing to cancel. -/
def cancelRun (doc : Document) : Service Bool := do
  let tasks ← issue .runCancel doc.id (.tasksOf doc.id)
  if doc.run = .running || doc.run = .cancel || tasks.any (·.progress < 1) then
    issue .runCancel doc.id (.cancelAllTaskOf doc.id)
    pure true
  else pure false

/-- Only a request to cancel can be turned down here. -/
def mayRun (req : RunRequest) (doc : Document) : Service Bool :=
  if req.run = .cancel then cancelRun doc else pure true

/-- The row of the knowledge base is cleared when a document that is done is run again. -/
def clearForRun (req : RunRequest) (doc : Document) : Service Unit :=
  if req.clears && req.run = .running && doc.run = .done then clearChunkNumWhenRerun doc.id
  else pure ()

/-- The tasks and chunks of the previous run are deleted. -/
def deleteForRun (req : RunRequest) (tenantId : Str) (doc : Document) : Service Unit :=
  if req.deletes then do
    issue .runTasksDelete doc.id (.deleteTasks req.docId)
    issue .runChunksDelete doc.id
      (.deleteChunksOf req.docId (indexName (some tenantId)) doc.kbId)
  else pure ()

/-- The run endpoint for one document, up to the point where it queues the document; the text is
that of the refusal, if there is one. -/
def rerun (req : RunRequest) : Service (Option Str) := do
  let tenantId ← issue .tenantGet req.docId (.getTenantId req.docId)
  match tenantId with
  | none | some [] => pure (some "Tenant not found!")
  | some tenantId =>
      let doc ← getOrNone (issue .docGet req.docId (.getDocument req.docId))
      match doc with
      | none => pure (some "Document not found!")
      | some doc =>
          let go ← mayRun req doc
          if go then
            clearForRun req doc
            let _ ← issue .runUpdate doc.id (.updateDocument req.docId req.info)
            deleteForRun req tenantId doc
            pure none
          else pure (some "Cannot cancel a task that is not in RUNNING status")

/-- The end of `reset_doc`: the images and the chunks of the document are deleted. -/
def resetChunks (doc : Document) : Service (Option Str) := do
  let tenantId ← issue .tenantGet doc.id (.getTenantId doc.id)
  match tenantId with
  | none | some [] => pure (some "Tenant not found!")
  | some tenantId =>
      issue .imagesDelete doc.id .external
      issue .chunksDelete doc.id (.deleteChunksOf doc.id (indexName (some tenantId)) doc.kbId)
      pure none

/-- The columns `reset_doc` sets. -/
def resetInfo (parserId pipelineId : Str) : DocumentUpdate :=
  { parserId := some parserId
    pipelineId := some pipelineId
    progress := some 0
    run := some .unstart }

/-- `reset_doc` of the change of the parser, with the row read by the endpoint. -/
def resetDoc (docId parserId pipelineId : Str) : Service (Option Str) := do
  let doc ← getOrNone (issue .docGet docId (.getDocument docId))
  match doc with
  | none => pure (some "Document not found!")
  | some doc =>
      let num ← issue .resetUpdate doc.id
        (.updateDocument doc.id (resetInfo parserId pipelineId))
      if num = 0 then pure (some "Document not found!")
      else if 0 < doc.tokenNum then
        let num ← incrementChunkNum doc.id doc.kbId (-doc.tokenNum) (-doc.chunkNum)
        if num = 0 then pure (some "Document not found!")
        else resetChunks doc
      else pure none

/-! ### Starting the parsing -/

/-- The address of a document that has no file of its own: its knowledge base and location. -/
def documentAddress (docId : Str) : Service (Str × Str) := do
  let doc ← getOrNone (issue .storageAddress docId (.getDocument docId))
  match doc with
  | some doc => pure (doc.kbId, doc.location.getD [])
  | none => do
      issue .storageAddress docId (.raiseError .doesNotExist)
      pure ([], [])

/-- `File2DocumentService.get_storage_address`. -/
def getStorageAddress (docId : Str) : Service (Str × Str) := do
  let link ← issue .storageAddress docId (.storageLink docId)
  match link with
  | none => documentAddress docId
  | some link => do
      let file ← issue .storageAddress docId (.getFile link.fileId)
      if file.sourceType.isEmpty || file.sourceType = uploaded then
        pure (file.parentId, file.location)
      else documentAddress link.documentId

/-- The end of `DocumentService.run`: the tasks of a pipeline or those of `queue_tasks`. -/
def startParsing (env : ParseEnv) (doc : Document) (priority : ℤ) : Service Unit :=
  if !doc.pipelineId.isEmpty then queueDataflow env doc
  else do
    let address ← getStorageAddress doc.id
    queueTasks env doc address.1 address.2 priority

/-- The field map of a knowledge base without a parsed document is dropped. -/
def dropFieldMap (doc : Document) : Service Unit := do
  let count ← issue .doneCount doc.id (.countDone doc.kbId)
  if count = 0 then issue .fieldMap doc.id .external else pure ()

/-- `DocumentService.run`; `counted` are the keys of `kb_table_num_map`. -/
def runDocument (env : ParseEnv) (doc : Document) (counted : List Str) (priority : ℤ) :
    Service Unit :=
  if doc.parserId = "table" then
    if doc.kbId.isEmpty then pure ()
    else if counted.contains doc.kbId then startParsing env doc priority
    else do
      dropFieldMap doc
      startParsing env doc priority
  else startParsing env doc priority

end RagFlow
