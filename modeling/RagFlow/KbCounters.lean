import Mathlib.Algebra.Group.Prod
import RagFlow.DocumentService
import RagFlow.Transition

/-! # The counters of a knowledge base

A knowledge base is `Balanced` when its row counts its documents and sums up their counters.
`Moves K db db' a b` says what an operation does to both sides: the row moves by `a`, the
documents of `K` together by `b`.  Balance is kept exactly when `a = b`
(`balanced_iff_of_moves`), so each operation of the services needs one computation.

The outcome: insertion, deletion and the change of the parser keep the balance.  The other
operations do under a condition (`KbStep.Meets`) that a run has to meet at every such step
(`kbCounters_run_iff`); `queue_tasks` for instance overwrites the counter of the document and
leaves the row of the knowledge base alone. -/

namespace RagFlow

open Py Transition

/-! ### Balance -/

/-- The documents of a knowledge base. -/
def docsOf (K : Str) (db : Db) : List Document := db.documents.select (·.kbId = K)

/-- The row of the knowledge base agrees with its documents. -/
def Balanced (K : Str) (db : Db) : Prop :=
  ∃ kb, db.kbs.get? K = some kb ∧ kb.docNum = (docsOf K db).length ∧
    kb.tokenNum = ((docsOf K db).map (·.tokenNum)).sum ∧
    kb.chunkNum = ((docsOf K db).map (·.chunkNum)).sum

/-- A knowledge base without documents and with its counters at zero. -/
def EmptyKb (K : Str) (db : Db) : Prop :=
  ∃ kb, db.kbs.get? K = some kb ∧ kb.docNum = 0 ∧ kb.tokenNum = 0 ∧ kb.chunkNum = 0 ∧
    docsOf K db = []

theorem EmptyKb.balanced {K : Str} {db : Db} (h : EmptyKb K db) : Balanced K db := by
  obtain ⟨kb, hkb, hdoc, htoken, hchunk, hnil⟩ := h
  refine ⟨kb, hkb, ?_⟩
  rw [hnil, hdoc, htoken, hchunk]
  exact ⟨rfl, rfl, rfl⟩

def Knowledgebase.counters (kb : Knowledgebase) : Counters := (kb.docNum, kb.tokenNum, kb.chunkNum)

/-- What a document contributes to the knowledge base `K`. -/
def Document.share (K : Str) (d : Document) : Counters :=
  if d.kbId = K then (1, d.tokenNum, d.chunkNum) else 0

/-- What the documents contribute to `K` together. -/
def docTotals (K : Str) (db : Db) : Counters := db.documents.sum (Document.share K)

theorem sum_share (K : Str) (l : List Document) :
    (l.map (Document.share K)).sum =
      (((l.filter (·.kbId = K)).length : ℤ), ((l.filter (·.kbId = K)).map (·.tokenNum)).sum,
        ((l.filter (·.kbId = K)).map (·.chunkNum)).sum) := by
  induction l with
  | nil => rfl
  | cons d l ih =>
      rw [List.map_cons, List.sum_cons, ih, Document.share]
      by_cases hd : d.kbId = K
      · simp [hd, add_comm]
      · simp [hd]

theorem balanced_iff {K : Str} {db : Db} :
    Balanced K db ↔ (db.kbs.get? K).map Knowledgebase.counters = some (docTotals K db) := by
  have hsum : docTotals K db = (((docsOf K db).length : ℤ),
      ((docsOf K db).map (·.tokenNum)).sum, ((docsOf K db).map (·.chunkNum)).sum) :=
    sum_share K db.documents.rows
  unfold Balanced
  rw [hsum]
  cases db.kbs.get? K with
  | none => simp
  | some kb => simp [Knowledgebase.counters, Prod.ext_iff]

/-! ### The two sides of an operation -/

/-- The row of `K` moves by `a` and its documents move by `b`. -/
structure Moves (K : Str) (db db' : Db) (a b : Counters) : Prop where
  kb : (db'.kbs.get? K).map Knowledgebase.counters =
    ((db.kbs.get? K).map Knowledgebase.counters).map (· + a)
  docs : docTotals K db' = docTotals K db + b

section moves
variable {K : Str} {db db' db'' : Db} {a a' b b' : Counters}

/-- Balance is kept exactly when both sides move alike. -/
theorem balanced_iff_of_moves (h : Balanced K db) (hm : Moves K db db' a b) :
    Balanced K db' ↔ a = b := by
  rw [balanced_iff] at h ⊢
  rw [hm.kb, hm.docs, h, Option.map_some, Option.some_inj]
  exact add_right_inj _

theorem Moves.trans (h : Moves K db db' a b) (h' : Moves K db' db'' a' b') :
    Moves K db db'' (a + a') (b + b') := by
  refine ⟨?_, ?_⟩
  · rw [h'.kb, h.kb, Option.map_map]
    congr 1
    funext x
    exact add_assoc x a a'
  · rw [h'.docs, h.docs, add_assoc]

theorem map_add_zero (x : Option Counters) : x.map (· + 0) = x := by
  cases x with
  | none => rfl
  | some x => rw [Option.map_some, add_zero]

theorem Moves.of_eq (hkbs : db'.kbs = db.kbs) (hdocs : db'.documents = db.documents) :
    Moves K db db' 0 0 := by
  refine ⟨?_, ?_⟩
  · rw [hkbs, map_add_zero]
  · unfold docTotals
    rw [hdocs, add_zero]

/-- A change of one document, the row of the knowledge base staying as it is. -/
theorem Moves.updateDocument {docId : Str} {f : Document → Document}
    (hf : ∀ d, (f d).id = d.id) (hkbs : db'.kbs = db.kbs)
    (hdocs : db'.documents = db.documents.updateWhere (·.id = docId) f hf) :
    Moves K db db' 0
      ((db.documents.get? docId).elim 0 (fun d => (f d).share K - d.share K)) := by
  refine ⟨?_, ?_⟩
  · rw [hkbs, map_add_zero]
  · unfold docTotals
    rw [hdocs]
    cases hd : db.documents.get? docId with
    | none =>
        rw [Table.updateWhere_of_get?_eq_none hd, Option.elim_none, add_zero]
    | some d =>
        have hsum : (db.documents.updateWhere (·.id = docId) f hf).sum (Document.share K) +
            d.share K = db.documents.sum (Document.share K) + (f d).share K :=
          Table.sum_updateWhere hd
        rw [Option.elim_some, ← add_sub_assoc, ← hsum, add_sub_cancel_right]

/-- A change of one row of the knowledge bases, the documents staying as they are. -/
theorem Moves.addKb {kbId : Str} {δ : Counters}
    (hkbs : db'.kbs = db.kbs.updateWhere (·.id = kbId) (Knowledgebase.add δ) (fun _ => rfl))
    (hdocs : db'.documents = db.documents) :
    Moves K db db' (if kbId = K then δ else 0) 0 := by
  have hget : (db.kbs.updateWhere (·.id = kbId) (Knowledgebase.add δ) (fun _ => rfl)).get? K =
      if K = kbId then (db.kbs.get? K).map (Knowledgebase.add δ) else db.kbs.get? K :=
    Table.get?_updateWhere
  refine ⟨?_, ?_⟩
  · rw [hkbs, hget]
    by_cases hk : kbId = K
    · rw [if_pos hk, if_pos hk.symm, Option.map_map, Option.map_map]
      rfl
    · rw [if_neg hk, if_neg (Ne.symm hk), map_add_zero]
  · unfold docTotals
    rw [hdocs, add_zero]

end moves

/-! ### The operations -/

/-- The operations of a run. -/
inductive KbOp where
  | insert (doc : Document)
  | queueTasks (doc : Document) (bucket name : Str) (priority : ℤ)
  | incrementChunkNum (docId kbId : Str) (tokenNum chunkNum : ℤ)
  | decrementChunkNum (docId kbId : Str) (tokenNum chunkNum : ℤ)
  | rerun (req : RunRequest)
  | resetDoc (docId parserId pipelineId : Str)
  | delete (docId : Str)

/-- The program of an operation, its answer left out. -/
def KbOp.program (env : ParseEnv) : KbOp → Service Unit
  | insert doc => insertDocument doc.id doc
  | queueTasks doc bucket name priority => RagFlow.queueTasks env doc bucket name priority
  | incrementChunkNum docId kbId tokenNum chunkNum => do
      let _ ← RagFlow.incrementChunkNum docId kbId tokenNum chunkNum
  | decrementChunkNum docId kbId tokenNum chunkNum => do
      let _ ← RagFlow.decrementChunkNum docId kbId tokenNum chunkNum
  | rerun req => do
      let _ ← RagFlow.rerun req
  | resetDoc docId parserId pipelineId => do
      let _ ← RagFlow.resetDoc docId parserId pipelineId
  | delete docId => do
      let _ ← issue .docDelete docId (.deleteDocumentAndUpdateKbCounts docId)

/-- A step: an operation and the identifiers drawn during it. -/
structure KbStep where
  op : KbOp
  uuid : ℕ → Str

/-- The step is taken as a whole: nothing comes between its statements and it returns. -/
def KbStep.Exec (env : ParseEnv) (w : World) (s : KbStep) (w' : World) : Prop :=
  (s.op.program env).exec (calm s.uuid) w = (.ok (), w')

/-- The document is one of the knowledge base `K`. -/
def InKb (K docId : Str) (db : Db) : Prop := ∃ d, db.documents.get? docId = some d ∧ d.kbId = K

/-- The condition under which a step keeps `K` balanced.

* `queue_tasks` sets the counter of the document to the number of chunks taken over, so this has
  to be its value already;
* the increments need the document and the row they are given to belong together;
* a rerun has to reset the document exactly when it clears the row, that is: with `delete` the
  document has to be done, and without mention of `delete` it must not be. -/
def KbStep.Meets (env : ParseEnv) (K : Str) (w : World) (s : KbStep) : Prop :=
  match s.op with
  | .insert _ | .resetDoc .. | .delete _ => True
  | .queueTasks doc bucket name priority =>
      ∀ d kb, w.db.getChunkingConfig doc.id = some (d, kb) → d.kbId = K →
        d.chunkNum = ((takenOver (builtTasks env doc bucket name priority s.uuid
          w.db.nextUuid d kb) [] (w.db.getTasks doc.id)).map (·.chunkIds.length)).sum
  | .incrementChunkNum docId kbId tokenNum chunkNum
  | .decrementChunkNum docId kbId tokenNum chunkNum =>
      (InKb K docId w.db ↔ kbId = K) ∨ (tokenNum = 0 ∧ chunkNum = 0)
  | .rerun req =>
      ∀ d, w.db.documents.get? req.docId = some d → d.kbId = K →
        (w.db.getTenantId req.docId).getD [] ≠ [] → req.run = .running →
          ((req.clears = true ∧ d.run = .done) ↔ req.deletes = true) ∨
            (d.tokenNum = 0 ∧ d.chunkNum = 0)

/-! ### What each operation does to both sides -/

section steps
variable {K : Str} {env : ParseEnv} {su : Surroundings} {w w' : World}

/-- What a change of the counters by `δ` means for `K`. -/
def inKb? (K : Str) (d : Document) (δ : Counters) : Counters := if d.kbId = K then δ else 0

theorem inKb?_eq_zero {K : Str} {d : Document} {δ : Counters} :
    inKb? K d δ = 0 ↔ (d.kbId = K → δ = 0) := by
  unfold inKb?
  by_cases hk : d.kbId = K
  · simp [hk]
  · simp [hk]

theorem moves_incrementKb (K : Str) (db : Db) (kbId : Str) (tokenNum chunkNum : ℤ)
    (uuid : ℕ → Str) :
    Moves K db (Db.apply uuid (.incrementKb kbId tokenNum chunkNum) db).2
      (if kbId = K then (0, tokenNum, chunkNum) else 0) 0 :=
  Moves.addKb rfl rfl

theorem moves_increaseDocNum (K : Str) (db : Db) (kbId : Str) (uuid : ℕ → Str) :
    Moves K db (Db.apply uuid (.increaseDocNum kbId) db).2 (if kbId = K then (1, 0, 0) else 0) 0 :=
  Moves.addKb rfl rfl

theorem moves_updateDocument (K : Str) (db : Db) {docId : Str} {d : Document}
    (hd : db.documents.get? docId = some d) (u : DocumentUpdate) (uuid : ℕ → Str) :
    Moves K db (Db.apply uuid (.updateDocument docId u) db).2 0
      (inKb? K d (0, u.tokenNum.getD d.tokenNum - d.tokenNum,
        u.chunkNum.getD d.chunkNum - d.chunkNum)) := by
  have h : Moves K db (Db.apply uuid (.updateDocument docId u) db).2 0
      ((db.documents.get? docId).elim 0
        (fun d => (u.apply db.engine.number d).share K - d.share K)) :=
    Moves.updateDocument (fun _ => rfl) rfl rfl
  rw [hd, Option.elim_some] at h
  have hshare : (u.apply db.engine.number d).share K - d.share K = inKb? K d
      (0, u.tokenNum.getD d.tokenNum - d.tokenNum, u.chunkNum.getD d.chunkNum - d.chunkNum) := by
    unfold Document.share inKb? DocumentUpdate.apply
    by_cases hk : d.kbId = K
    · simp [hk]
    · simp [hk]
  rwa [hshare] at h

theorem moves_incrementDocument (K : Str) (db : Db) (docId : Str) (tokenNum chunkNum : ℤ)
    (uuid : ℕ → Str) :
    Moves K db (Db.apply uuid (.incrementDocument docId tokenNum chunkNum) db).2 0
      ((db.documents.get? docId).elim 0 (fun d => inKb? K d (0, tokenNum, chunkNum))) := by
  have h : Moves K db (Db.apply uuid (.incrementDocument docId tokenNum chunkNum) db).2 0
      ((db.documents.get? docId).elim 0
        (fun d => (d.add tokenNum chunkNum).share K - d.share K)) :=
    Moves.updateDocument (fun _ => rfl) rfl rfl
  have hshare : ∀ d : Document, (d.add tokenNum chunkNum).share K - d.share K =
      inKb? K d (0, tokenNum, chunkNum) := by
    intro d
    unfold Document.share inKb? Document.add
    by_cases hk : d.kbId = K
    · simp [hk]
    · simp [hk]
  simpa only [hshare] using h

theorem moves_saveDocument (K : Str) (db : Db) {doc : Document} {uuid : ℕ → Str}
    (h : (Db.apply uuid (.saveDocument doc) db).1 = .ok ()) :
    Moves K db (Db.apply uuid (.saveDocument doc) db).2 0 (doc.share K) := by
  obtain ⟨-, documents, ht, hput⟩ := Db.orRaise_eq_ok h
  show Moves K db (Db.orRaise _ _ db _).2 0 (doc.share K)
  rw [hput]
  exact ⟨(map_add_zero _).symm, Table.sum_insert? ht⟩

theorem insertDocument_moves {key : Str} {doc : Document}
    (h : (insertDocument key doc).exec su w = (.ok (), w')) :
    ∃ a, Moves K w.db w'.db a a := by
  obtain ⟨_, w₁, h₁, h⟩ := Service.exec_bind_eq_ok h
  obtain ⟨-, hok, rfl⟩ := exec_issue_eq_ok h₁
  obtain ⟨num, w₂, h₂, h⟩ := Service.exec_bind_eq_ok h
  obtain ⟨-, -, rfl⟩ := exec_issue_eq_ok h₂
  have hsave := moves_saveDocument K w.db hok
  have hmoves := hsave.trans (moves_increaseDocNum K _ doc.kbId su.uuid)
  rw [zero_add, add_zero] at hmoves
  refine ⟨if doc.kbId = K then (1, 0, 0) else 0, ?_⟩
  split_ifs at h
  · obtain ⟨-, herror, -⟩ := exec_issue_eq_ok h
    cases herror
  · cases h
    exact hmoves

/-- `queue_tasks` moves the document only. -/
theorem queueTasks_moves {doc : Document} {bucket name : Str} {priority : ℤ}
    (h : (queueTasks env doc bucket name priority).exec su w = (.ok (), w')) :
    ∃ d kb, w.db.getChunkingConfig doc.id = some (d, kb) ∧
      Moves K w.db w'.db 0 (inKb? K d
        (0, 0, ((takenOver (builtTasks env doc bucket name priority su.uuid w.db.nextUuid d kb) []
          (w.db.getTasks doc.id)).map (·.chunkIds.length)).sum - d.chunkNum)) := by
  obtain ⟨d, kb, n, hconfig, h⟩ := queueTasks_eq_ok h
  obtain ⟨r, w₁, hr, -, tasks, hdb⟩ := enqueueTasks_eq_ok h
  obtain ⟨hreuse, tasks', chunks, hdb₁⟩ := reuseStep_eq_ok hr
  refine ⟨d, kb, hconfig, ?_⟩
  have hd : w.db.documents.get? doc.id = some d := by
    unfold Db.getChunkingConfig at hconfig
    obtain ⟨d', hd', hkb⟩ := Option.bind_eq_some_iff.mp hconfig
    obtain ⟨kb', -, heq⟩ := Option.map_eq_some_iff.mp hkb
    cases heq
    exact hd'
  have hkbs : w'.db.kbs = w.db.kbs := by rw [hdb, hdb₁]
  have hdocs : w'.db.documents =
      w.db.documents.updateWhere (·.id = doc.id) (queued env w₁.db.engine.number r.2)
        (fun _ => rfl) := by
    rw [hdb, hdb₁]
  have hmoves := Moves.updateDocument (K := K) _ hkbs hdocs
  rw [hd, Option.elim_some] at hmoves
  have hshare : (queued env w₁.db.engine.number r.2 d).share K - d.share K =
      inKb? K d (0, 0, r.2 - d.chunkNum) := by
    unfold Document.share inKb? queued
    by_cases hk : d.kbId = K
    · simp [hk]
    · simp [hk]
  rw [hshare, hreuse, reuseAll_count] at hmoves
  exact_mod_cast hmoves

/-- `increment_chunk_num` moves the document and the row it is given. -/
theorem incrementChunkNum_moves {docId kbId : Str} {tokenNum chunkNum : ℤ} {r : ℕ}
    (h : (incrementChunkNum docId kbId tokenNum chunkNum).exec su w = (.ok r, w')) :
    Moves K w.db w'.db (if kbId = K then (0, tokenNum, chunkNum) else 0)
      ((w.db.documents.get? docId).elim 0 (fun d => inKb? K d (0, tokenNum, chunkNum))) := by
  obtain ⟨_, w₁, h₁, h⟩ := Service.exec_bind_eq_ok h
  obtain ⟨-, -, rfl⟩ := exec_issue_eq_ok h₁
  obtain ⟨-, -, rfl⟩ := exec_issue_eq_ok h
  have hmoves := (moves_incrementDocument K w.db docId tokenNum chunkNum su.uuid).trans
    (moves_incrementKb K _ kbId tokenNum chunkNum su.uuid)
  rwa [zero_add, add_zero] at hmoves

theorem decrementChunkNum_moves {docId kbId : Str} {tokenNum chunkNum : ℤ} {r : ℕ}
    (h : (decrementChunkNum docId kbId tokenNum chunkNum).exec su w = (.ok r, w')) :
    Moves K w.db w'.db (if kbId = K then (0, -tokenNum, -chunkNum) else 0)
      ((w.db.documents.get? docId).elim 0 (fun d => inKb? K d (0, -tokenNum, -chunkNum))) := by
  obtain ⟨num, w₁, h₁, h⟩ := Service.exec_bind_eq_ok h
  obtain ⟨-, -, rfl⟩ := exec_issue_eq_ok h₁
  split_ifs at h
  · obtain ⟨_, _, herror, -⟩ := Service.exec_bind_eq_ok h
    obtain ⟨-, herror, -⟩ := exec_issue_eq_ok herror
    cases herror
  · obtain ⟨-, -, rfl⟩ := exec_issue_eq_ok h
    have hmoves := (moves_incrementDocument K w.db docId (-tokenNum) (-chunkNum) su.uuid).trans
      (moves_incrementKb K _ kbId (-tokenNum) (-chunkNum) su.uuid)
    rwa [zero_add, add_zero] at hmoves

theorem delete_moves (K : Str) (w : World) (docId : Str) :
    ∃ a, Moves K w.db (w.db.deleteDocumentAndUpdateKbCounts docId).2 a a := by
  unfold Db.deleteDocumentAndUpdateKbCounts
  cases hd : w.db.documents.get? docId with
  | none => exact ⟨0, Moves.of_eq rfl rfl⟩
  | some d =>
      refine ⟨if d.kbId = K then (-1, -d.tokenNum, -d.chunkNum) else 0, ?_, ?_⟩
      · let kbs := w.db.kbs.updateWhere (·.id = d.kbId)
          (Knowledgebase.add (-1, -d.tokenNum, -d.chunkNum)) (fun _ => rfl)
        have hkb : Moves K w.db { w.db with kbs } _ 0 := Moves.addKb rfl rfl
        exact hkb.kb
      · have hsum : (w.db.documents.deleteWhere (·.id = docId)).sum (Document.share K) +
            d.share K = w.db.documents.sum (Document.share K) := Table.sum_deleteWhere hd
        unfold docTotals
        show (w.db.documents.deleteWhere (·.id = docId)).sum (Document.share K) =
          w.db.documents.sum (Document.share K) + _
        rw [← hsum, Document.share, add_assoc]
        by_cases hk : d.kbId = K
        · simp [hk, Prod.mk_eq_zero]
        · simp [hk]

/-- Reading a document changes nothing, and finds it when nothing raises. -/
theorem getDocument_eq_ok {p : Point} {key docId : Str} {r : Option Document}
    (h : (getOrNone (issue p key (.getDocument docId))).exec su w = (.ok r, w')) :
    w'.db = w.db ∧ (su.raises ⟨p, key⟩ = false → r = w.db.documents.get? docId) := by
  unfold getOrNone Service.exec at h
  rw [Effect.Prog.exec_tryCatch] at h
  rcases hr : (issue p key (.getDocument docId)).exec su w with ⟨a, w₁⟩
  unfold Service.exec at hr
  rw [hr] at h
  cases a with
  | ok r' =>
      cases h
      obtain ⟨-, hok, rfl⟩ := exec_issue_eq_ok hr
      exact ⟨rfl, fun _ => (Except.ok.inj hok).symm⟩
  | error e =>
      cases h
      unfold issue at hr
      rw [Effect.Prog.exec_perform] at hr
      unfold handle at hr
      split_ifs at hr with hraise
      · cases hr
        exact ⟨rfl, fun hno => absurd hraise (by rw [hno]; exact Bool.false_ne_true)⟩
      · cases hr

theorem mayRun_eq_ok {req : RunRequest} {doc : Document} {go : Bool}
    (h : (mayRun req doc).exec su w = (.ok go, w')) :
    w'.db.kbs = w.db.kbs ∧ w'.db.documents = w.db.documents ∧
      (go = false → req.run = .cancel) := by
  unfold mayRun at h
  split_ifs at h with hcancel
  · unfold cancelRun at h
    obtain ⟨tasks, w₁, h₁, h⟩ := Service.exec_bind_eq_ok h
    obtain ⟨-, -, rfl⟩ := exec_issue_eq_ok h₁
    split_ifs at h
    · obtain ⟨_, w₂, h₂, h⟩ := Service.exec_bind_eq_ok h
      obtain ⟨-, -, rfl⟩ := exec_issue_eq_ok h₂
      cases h
      exact ⟨rfl, rfl, fun hgo => by cases hgo⟩
    · cases h
      exact ⟨rfl, rfl, fun _ => hcancel⟩
  · cases h
    exact ⟨rfl, rfl, fun hgo => by cases hgo⟩

theorem deleteForRun_eq_ok {req : RunRequest} {tenantId : Str} {doc : Document}
    (h : (deleteForRun req tenantId doc).exec su w = (.ok (), w')) :
    w'.db.kbs = w.db.kbs ∧ w'.db.documents = w.db.documents := by
  unfold deleteForRun at h
  split_ifs at h
  · obtain ⟨_, w₁, h₁, h⟩ := Service.exec_bind_eq_ok h
    obtain ⟨-, -, rfl⟩ := exec_issue_eq_ok h₁
    obtain ⟨-, -, rfl⟩ := exec_issue_eq_ok h
    exact ⟨rfl, rfl⟩
  · cases h
    exact ⟨rfl, rfl⟩

/-- What the document contributes, taken away. -/
def taken (K : Str) (d : Document) : Counters := inKb? K d (0, -d.tokenNum, -d.chunkNum)

theorem clearForRun_moves {req : RunRequest} {d : Document}
    (hd : w.db.documents.get? d.id = some d)
    (h : (clearForRun req d).exec su w = (.ok (), w')) :
    Moves K w.db w'.db
      (if req.clears = true ∧ req.run = .running ∧ d.run = .done then taken K d else 0) 0 ∧
      w'.db.documents = w.db.documents := by
  unfold clearForRun at h
  simp only [Bool.and_eq_true, decide_eq_true_eq, and_assoc] at h
  split_ifs at h ⊢
  · obtain ⟨doc, w₁, h₁, h⟩ := Service.exec_bind_eq_ok h
    obtain ⟨-, hdoc, rfl⟩ := exec_issue_eq_ok h₁
    obtain rfl : some d = doc := hd.symm.trans (Except.ok.inj hdoc)
    obtain ⟨_, w₂, h₂, h⟩ := Service.exec_bind_eq_ok h
    obtain ⟨-, -, rfl⟩ := exec_issue_eq_ok h₂
    cases h
    exact ⟨moves_incrementKb K w.db d.kbId _ _ su.uuid, rfl⟩
  · cases h
    exact ⟨Moves.of_eq rfl rfl, rfl⟩

/-- The columns the run endpoint sets, as a change of the counters. -/
theorem inKb?_info (req : RunRequest) (d : Document) :
    inKb? K d (0, req.info.tokenNum.getD d.tokenNum - d.tokenNum,
        req.info.chunkNum.getD d.chunkNum - d.chunkNum) =
      if req.run = .running ∧ req.deletes = true then taken K d else 0 := by
  unfold RunRequest.info taken inKb?
  by_cases hreset : req.run = .running ∧ req.deletes = true
  · simp [hreset.1, hreset.2]
  · have hcond : ¬ (decide (req.run = .running) && req.deletes) = true := by
      simpa using hreset
    rw [if_neg hcond, if_neg hreset]
    simp [Prod.mk_eq_zero]

/-- Before the queue, the run endpoint refuses and changes nothing, or it clears the row under
one condition and resets the document under another. -/
theorem rerun_moves {req : RunRequest} {r : Option Str} (hcalm : ∀ site, su.raises site = false)
    (h : (rerun req).exec su w = (.ok r, w')) :
    (Moves K w.db w'.db 0 0 ∧
      (req.run = .cancel ∨ (w.db.getTenantId req.docId).getD [] = [])) ∨
    ∃ d, w.db.documents.get? req.docId = some d ∧ (w.db.getTenantId req.docId).getD [] ≠ [] ∧
      Moves K w.db w'.db
        (if req.clears = true ∧ req.run = .running ∧ d.run = .done then taken K d else 0)
        (if req.run = .running ∧ req.deletes = true then taken K d else 0) := by
  obtain ⟨tenantId, w₁, h₁, h⟩ := Service.exec_bind_eq_ok h
  obtain ⟨-, htenant, rfl⟩ := exec_issue_eq_ok h₁
  obtain rfl : w.db.getTenantId req.docId = tenantId := Except.ok.inj htenant
  dsimp only [Db.apply] at h
  split at h
  · rename_i hnone
    cases h
    exact Or.inl ⟨Moves.of_eq rfl rfl, Or.inr (by rw [hnone]; rfl)⟩
  · rename_i hnil
    cases h
    exact Or.inl ⟨Moves.of_eq rfl rfl, Or.inr (by rw [hnil]; rfl)⟩
  · rename_i tenantId hne htenantId
    obtain ⟨d, hd⟩ : ∃ d, w.db.documents.get? req.docId = some d := by
      unfold Db.getTenantId at htenantId
      obtain ⟨d, hd, -⟩ := Option.bind_eq_some_iff.mp htenantId
      exact ⟨d, hd⟩
    obtain ⟨doc, w₂, h₂, h⟩ := Service.exec_bind_eq_ok h
    obtain ⟨hdb, hdoc⟩ := getDocument_eq_ok h₂
    obtain rfl : doc = some d := (hdoc (hcalm _)).trans hd
    obtain ⟨go, w₃, h₃, h⟩ := Service.exec_bind_eq_ok h
    obtain ⟨hkbs, hdocs, hgo⟩ := mayRun_eq_ok h₃
    rw [hdb] at hkbs hdocs
    split_ifs at h with hgo'
    · have hid : d.id = req.docId := (Table.get?_eq_some.mp hd).2
      have hd₃ : w₃.db.documents.get? d.id = some d := by rw [hdocs, hid]; exact hd
      obtain ⟨_, w₄, h₄, h⟩ := Service.exec_bind_eq_ok h
      obtain ⟨hclear, hdocs₄⟩ := clearForRun_moves (K := K) hd₃ h₄
      obtain ⟨_, w₅, h₅, h⟩ := Service.exec_bind_eq_ok h
      obtain ⟨-, -, rfl⟩ := exec_issue_eq_ok h₅
      have hd₄ : w₄.db.documents.get? req.docId = some d := by rw [hdocs₄, ← hid]; exact hd₃
      have hreset := moves_updateDocument K w₄.db hd₄ req.info su.uuid
      obtain ⟨_, w₆, h₆, h⟩ := Service.exec_bind_eq_ok h
      obtain ⟨hkbs₆, hdocs₆⟩ := deleteForRun_eq_ok h₆
      cases h
      have hmoves := (((Moves.of_eq hkbs hdocs).trans hclear).trans hreset).trans
        (Moves.of_eq hkbs₆ hdocs₆)
      rw [inKb?_info] at hmoves
      simp only [zero_add, add_zero] at hmoves
      refine Or.inr ⟨d, hd, ?_, hmoves⟩
      rw [htenantId]
      exact hne
    · cases h
      exact Or.inl ⟨Moves.of_eq hkbs hdocs, Or.inl (hgo (by simpa using hgo'))⟩

theorem resetChunks_eq_ok {doc : Document} {r : Option Str}
    (h : (resetChunks doc).exec su w = (.ok r, w')) :
    w'.db.kbs = w.db.kbs ∧ w'.db.documents = w.db.documents := by
  obtain ⟨tenantId, w₁, h₁, h⟩ := Service.exec_bind_eq_ok h
  obtain ⟨-, -, rfl⟩ := exec_issue_eq_ok h₁
  split at h
  · cases h
    exact ⟨rfl, rfl⟩
  · cases h
    exact ⟨rfl, rfl⟩
  · obtain ⟨_, w₂, h₂, h⟩ := Service.exec_bind_eq_ok h
    obtain ⟨-, -, rfl⟩ := exec_issue_eq_ok h₂
    obtain ⟨_, w₃, h₃, h⟩ := Service.exec_bind_eq_ok h
    obtain ⟨-, -, rfl⟩ := exec_issue_eq_ok h₃
    cases h
    exact ⟨rfl, rfl⟩

/-- The change of the parser takes the counters of the document away on both sides. -/
theorem resetDoc_moves {docId parserId pipelineId : Str} {r : Option Str}
    (hcalm : ∀ site, su.raises site = false)
    (h : (resetDoc docId parserId pipelineId).exec su w = (.ok r, w')) :
    ∃ a, Moves K w.db w'.db a a := by
  obtain ⟨doc, w₁, h₁, h⟩ := Service.exec_bind_eq_ok h
  obtain ⟨hdb, hdoc⟩ := getDocument_eq_ok h₁
  have hstart : Moves K w.db w₁.db 0 0 := Moves.of_eq (by rw [hdb]) (by rw [hdb])
  obtain rfl := hdoc (hcalm _)
  cases hd : w.db.documents.get? docId with
  | none =>
      rw [hd] at h
      cases h
      exact ⟨0, hstart⟩
  | some d =>
      rw [hd] at h
      have hd₁ : w₁.db.documents.get? d.id = some d := by
        rw [hdb, (Table.get?_eq_some.mp hd).2]
        exact hd
      obtain ⟨num, w₂, h₂, h⟩ := Service.exec_bind_eq_ok h
      obtain ⟨-, -, rfl⟩ := exec_issue_eq_ok h₂
      -- the update leaves the counters and the knowledge base of the document alone
      have hupdate := hstart.trans
        (moves_updateDocument K w₁.db hd₁ (resetInfo parserId pipelineId) su.uuid)
      simp only [resetInfo, Option.getD_none, sub_self, add_zero] at hupdate
      have hzero : inKb? K d (0, 0, 0) = 0 := inKb?_eq_zero.mpr (fun _ => rfl)
      rw [hzero] at hupdate
      have hd₂ : (w₁.db.documents.updateWhere (·.id = d.id)
          ((resetInfo parserId pipelineId).apply w₁.db.engine.number) (fun _ => rfl)).get? d.id =
            if d.id = d.id then (w₁.db.documents.get? d.id).map
              ((resetInfo parserId pipelineId).apply w₁.db.engine.number)
            else w₁.db.documents.get? d.id := Table.get?_updateWhere
      rw [if_pos rfl, hd₁, Option.map_some] at hd₂
      split_ifs at h
      · cases h
        exact ⟨0, hupdate⟩
      · obtain ⟨num', w₃, h₃, h⟩ := Service.exec_bind_eq_ok h
        have hmoves := hupdate.trans (incrementChunkNum_moves h₃)
        dsimp only [Db.apply] at hmoves
        rw [hd₂, Option.elim_some] at hmoves
        simp only [zero_add] at hmoves
        refine ⟨taken K d, ?_⟩
        split_ifs at h
        · cases h
          exact hmoves
        · obtain ⟨hkbs, hdocs⟩ := resetChunks_eq_ok h
          have hend := hmoves.trans (Moves.of_eq hkbs hdocs)
          rw [add_zero, add_zero] at hend
          exact hend
      · cases h
        exact ⟨0, hupdate⟩

end steps

/-! ### Steps and runs -/

section runs
variable {K : Str} {env : ParseEnv} {w w' : World}

/-- Both sides of an increment agree when the document belongs to the row, or nothing moves. -/
theorem increment_iff {docId kbId : Str} {db : Db} {tokenNum chunkNum : ℤ} :
    ((if kbId = K then (0, tokenNum, chunkNum) else 0 : Counters) =
      (db.documents.get? docId).elim 0 (fun d => inKb? K d (0, tokenNum, chunkNum))) ↔
      ((InKb K docId db ↔ kbId = K) ∨ (tokenNum = 0 ∧ chunkNum = 0)) := by
  have hdoc : (db.documents.get? docId).elim 0 (fun d => inKb? K d (0, tokenNum, chunkNum)) = 0 ∧
        ¬ InKb K docId db ∨
      (db.documents.get? docId).elim 0 (fun d => inKb? K d (0, tokenNum, chunkNum)) =
        (0, tokenNum, chunkNum) ∧ InKb K docId db := by
    unfold InKb
    cases db.documents.get? docId with
    | none => simp
    | some d =>
        by_cases hk : d.kbId = K
        · simp [inKb?, hk]
        · simp [inKb?, hk]
  rcases hdoc with ⟨heq, hin⟩ | ⟨heq, hin⟩
  · rw [heq]
    by_cases hk : kbId = K
    · simp [hk, hin, Prod.mk_eq_zero]
    · simp [hk, hin]
  · rw [heq]
    by_cases hk : kbId = K
    · simp [hk, hin]
    · simp [hk, hin, Prod.ext_iff, eq_comm]

/-- Both sides of a rerun agree when it clears the row and resets the document together, or when
there is nothing to clear. -/
theorem rerun_iff {req : RunRequest} {d : Document} :
    ((if req.clears = true ∧ req.run = .running ∧ d.run = .done then taken K d else 0 : Counters) =
      if req.run = .running ∧ req.deletes = true then taken K d else 0) ↔
      (d.kbId = K → req.run = .running →
        ((req.clears = true ∧ d.run = .done) ↔ req.deletes = true) ∨
          (d.tokenNum = 0 ∧ d.chunkNum = 0)) := by
  have htaken : taken K d = 0 ↔ (d.kbId = K → d.tokenNum = 0 ∧ d.chunkNum = 0) := by
    unfold taken
    rw [inKb?_eq_zero]
    simp [Prod.mk_eq_zero]
  by_cases hrun : req.run = .running
  · by_cases hclear : req.clears = true ∧ d.run = .done
    · by_cases hreset : req.deletes = true
      · simp [hrun, hclear, hreset]
      · simp [hrun, hclear, hreset, htaken]
    · have hclear' : ¬ (req.clears = true ∧ req.run = .running ∧ d.run = .done) :=
        fun h => hclear ⟨h.1, h.2.2⟩
      by_cases hreset : req.deletes = true
      · rw [if_neg hclear', if_pos ⟨hrun, hreset⟩, eq_comm, htaken]
        simp [hrun, hclear, hreset]
      · simp [hrun, hclear, hreset]
  · simp [hrun]

/-- A step from a balanced state keeps the balance exactly when it meets its condition. -/
theorem balanced_step_iff {s : KbStep} (hb : Balanced K w.db) (h : s.Exec env w w') :
    Balanced K w'.db ↔ s.Meets env K w := by
  obtain ⟨op, uuid⟩ := s
  unfold KbStep.Exec at h
  unfold KbStep.Meets
  cases op with
  | insert doc =>
      obtain ⟨a, hm⟩ := insertDocument_moves (K := K) h
      simp [balanced_iff_of_moves hb hm]
  | queueTasks doc bucket name priority =>
      obtain ⟨d, kb, hconfig, hm⟩ := queueTasks_moves (K := K) h
      rw [balanced_iff_of_moves hb hm, eq_comm, inKb?_eq_zero]
      simp only [hconfig, Prod.mk_eq_zero, true_and, sub_eq_zero]
      constructor
      · intro hk d' kb' heq hk'
        cases heq
        exact (hk hk').symm
      · intro hmeets hk
        exact (hmeets d kb rfl hk).symm
  | incrementChunkNum docId kbId tokenNum chunkNum =>
      obtain ⟨r, w₁, h, h'⟩ := Service.exec_bind_eq_ok h
      cases h'
      rw [balanced_iff_of_moves hb (incrementChunkNum_moves h)]
      exact increment_iff
  | decrementChunkNum docId kbId tokenNum chunkNum =>
      obtain ⟨r, w₁, h, h'⟩ := Service.exec_bind_eq_ok h
      cases h'
      rw [balanced_iff_of_moves hb (decrementChunkNum_moves h), increment_iff, neg_eq_zero,
        neg_eq_zero]
  | rerun req =>
      obtain ⟨r, w₁, h, h'⟩ := Service.exec_bind_eq_ok h
      cases h'
      rcases rerun_moves (K := K) (fun _ => rfl) h with ⟨hm, hrefused⟩ | ⟨d, hd, htenant, hm⟩
      · refine iff_of_true ((balanced_iff_of_moves hb hm).mpr rfl) ?_
        intro d hd hk htenant hrun
        rcases hrefused with hcancel | hnone
        · rw [hcancel] at hrun
          cases hrun
        · exact absurd hnone htenant
      · rw [balanced_iff_of_moves hb hm, rerun_iff]
        constructor
        · intro hmeets d' hd' hk _ hrun
          obtain rfl : d = d' := Option.some_inj.mp (hd.symm.trans hd')
          exact hmeets hk hrun
        · intro hmeets hk hrun
          exact hmeets d hd hk htenant hrun
  | resetDoc docId parserId pipelineId =>
      obtain ⟨r, w₁, h, h'⟩ := Service.exec_bind_eq_ok h
      cases h'
      obtain ⟨a, hm⟩ := resetDoc_moves (K := K) (fun _ => rfl) h
      simp [balanced_iff_of_moves hb hm]
  | delete docId =>
      obtain ⟨r, w₁, h, h'⟩ := Service.exec_bind_eq_ok h
      cases h'
      obtain ⟨-, -, rfl⟩ := exec_issue_eq_ok h
      obtain ⟨a, hm⟩ := delete_moves K w docId
      simp only [iff_true]
      exact (balanced_iff_of_moves hb hm).mpr rfl

/-- **Counters of a knowledge base.**  In a run from an empty knowledge base the row agrees with
the documents in every state exactly when every step meets its condition. -/
theorem kbCounters_run_iff (env : ParseEnv) (K : Str) (w : World) (run : List (KbStep × World))
    (hempty : EmptyKb K w.db) (hrun : IsRun (KbStep.Exec env) w run) :
    (∀ x ∈ run, Balanced K x.2.db) ↔ AllSteps (KbStep.Meets env K) w run :=
  states_iff_steps (fun w => Balanced K w.db) balanced_step_iff run hempty.balanced hrun

end runs

/-! A knowledge base with one document that is parsed into three chunks and then queued again. -/

def freshKb : Knowledgebase :=
  { id := "kb", tenantId := "t", parserId := "naive", pipelineId := [], parserConfig := {},
    docNum := 0, tokenNum := 0, chunkNum := 0, valid := true }

def freshDb : Db :=
  { engine := .postgres
    kbs := ⟨[freshKb], by simp⟩
    documents := Table.empty
    files := Table.empty
    file2documents := Table.empty
    tasks := Table.empty
    directories := Table.empty
    chunks := Table.empty
    canceled := []
    queue := []
    nextUuid := 0 }

def freshDoc : Document :=
  { id := "d", kbId := "kb", parserId := "naive", pipelineId := [], parserConfig := {},
    createdBy := "t", type := "doc", name := "a.txt", sourceType := [], suffix := "txt",
    location := some "a.txt", size := 1, contentHash := none, run := .unstart, progress := 0,
    tokenNum := 0, chunkNum := 0 }

def freshEnv : ParseEnv :=
  { totalPageNumber := fun _ _ => none
    rowNumber := fun _ _ => 0
    digest := fun _ _ _ _ => "g"
    now := 0
    random := 0 }

def freshUuid (n : ℕ) : Str := List.replicate (n + 1) 'u'

def insertStep : KbStep := ⟨.insert freshDoc, freshUuid⟩

def queueStep : KbStep := ⟨.queueTasks freshDoc "kb" "a.txt" 0, freshUuid⟩

def parsedStep : KbStep := ⟨.incrementChunkNum "d" "kb" 10 3, freshUuid⟩

/-- The world after a step. -/
def KbStep.after (s : KbStep) (w : World) : World :=
  ((s.op.program freshEnv).exec (calm s.uuid) w).2

/-- The run that takes the given steps. -/
def runOf : World → List KbStep → List (KbStep × World)
  | _, [] => []
  | w, s :: steps => (s, s.after w) :: runOf (s.after w) steps

theorem freshDb_empty : EmptyKb "kb" freshDb := ⟨_, rfl, rfl, rfl, rfl, rfl⟩

/-- Insertion, queueing and parsing keep the balance. -/
theorem kbCounters_run_parsed :
    EmptyKb "kb" freshDb ∧
      IsRun (KbStep.Exec freshEnv) ⟨freshDb, []⟩
        (runOf ⟨freshDb, []⟩ [insertStep, queueStep, parsedStep]) ∧
      ∀ x ∈ runOf ⟨freshDb, []⟩ [insertStep, queueStep, parsedStep], Balanced "kb" x.2.db := by
  have hrun : IsRun (KbStep.Exec freshEnv) ⟨freshDb, []⟩
      (runOf ⟨freshDb, []⟩ [insertStep, queueStep, parsedStep]) := ⟨rfl, rfl, rfl, trivial⟩
  refine ⟨freshDb_empty, hrun, ?_⟩
  apply (kbCounters_run_iff freshEnv "kb" ⟨freshDb, []⟩ _ freshDb_empty hrun).mpr
  refine ⟨trivial, ?_, Or.inl (iff_of_true ⟨_, rfl, rfl⟩ rfl), trivial⟩
  intro d kb hconfig _
  cases hconfig
  rfl

/-- Queueing the document again sets its counter back to `0` while the row keeps the `3`. -/
theorem kbCounters_run_queued_again :
    EmptyKb "kb" freshDb ∧
      IsRun (KbStep.Exec freshEnv) ⟨freshDb, []⟩
        (runOf ⟨freshDb, []⟩ [insertStep, queueStep, parsedStep, queueStep]) ∧
      ¬ ∀ x ∈ runOf ⟨freshDb, []⟩ [insertStep, queueStep, parsedStep, queueStep],
        Balanced "kb" x.2.db := by
  refine ⟨freshDb_empty, ⟨rfl, rfl, rfl, rfl, trivial⟩, ?_⟩
  intro hall
  obtain ⟨kb, hkb, -, -, hchunk⟩ := hall _ (List.mem_cons_of_mem _
    (List.mem_cons_of_mem _ (List.mem_cons_of_mem _ List.mem_cons_self)))
  cases hkb
  exact absurd hchunk (by decide)

end RagFlow
