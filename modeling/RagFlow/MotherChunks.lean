import RagFlow.TaskExecutor
import RagFlow.Transition

/-! # Mother chunks

A chunk that was cut out of a larger piece of text refers to that piece, its mother, by the column
`mom_id`; `retrieval_by_children` puts the mother in the place of the chunks found.
`insert_chunks` stores the mothers of its chunks before the chunks.  The identifier of a mother is
the hash of its text and of nothing else, so documents with a piece of text in common share one
row, which carries the `doc_id` of the document inserted last; and `remove_document` deletes the
rows with the `doc_id` of the document.

The system has as its requests the calls of `insert_chunks` for the documents of one knowledge
base and the calls of `remove_document`, one after the other.  Every statement of a call can raise,
and the document store may refuse some of the rows it is given: `insert` answers with a list of
errors, which `insert_chunks` reads for the chunks but not for their mothers (`StoreFate`).

`mothers_stored` says that every state of a run is intact (`Integrity`) if the store refuses no
mother that is not stored already, and if no document is removed whose row is the mother of a chunk
of another document (`Meets`). -/

namespace RagFlow.Mothers

open Py Effect

/-! ### A store that may refuse rows -/

/-- What becomes of a statement: whether it raises, and which of the rows given to the store it
keeps. -/
structure StoreFate where
  raises : Bool
  keeps : Chunk → Bool

/-- The fate in which nothing goes wrong. -/
def StoreFate.good : StoreFate := ⟨false, fun _ => true⟩

/-- The reply to an operation and its effect.  An insertion that is refused in part may raise or
not: the services learn of it by an exception where they read the list of errors. -/
def StoreFate.apply (f : StoreFate) (uuid : ℕ → Str) : (op : Op) → Db → Except Err op.Ret × Db
  | .insertChunks cs, db =>
      (if f.raises then .error .failure else .ok (),
        { db with chunks := (cs.filter f.keeps).foldl Table.upsert db.chunks })
  | op, db => if f.raises then (.error .failure, db) else Db.apply uuid op db

/-- The stores and the number of the statements so far. -/
structure Session where
  db : Db
  turn : ℕ

/-- The reply to a call, its fate being that of its turn. -/
def serve (uuid : ℕ → Str) (fates : ℕ → StoreFate) (c : Call) (s : Session) :
    Except Err c.op.Ret × Session :=
  let r := (fates s.turn).apply uuid c.op s.db
  (r.1, ⟨r.2, s.turn + 1⟩)

/-! ### Requests -/

/-- The requests on the documents of a knowledge base. -/
inductive Request (tenantId kbId : Str) where
  | insert (task : TaskContext) (cs : List BuiltChunk) (htenant : task.tenantId = tenantId)
      (hkb : task.kbId = kbId)
  | remove (doc : Document) (hkb : doc.kbId = kbId)

/-- What a request runs. -/
def Request.program {tenantId kbId : Str} (env : ExecEnv) : Request tenantId kbId → Service Unit
  | .insert task cs _ _ => do
      let _ ← insertChunks env task cs
  | .remove doc _ => removeDocument doc (some tenantId)

/-- A request and the fates of its statements. -/
structure Visit (tenantId kbId : Str) where
  request : Request tenantId kbId
  fates : ℕ → StoreFate

/-- The stores after a request. -/
def Visit.after {tenantId kbId : Str} (env : ExecEnv) (uuid : ℕ → Str) (v : Visit tenantId kbId)
    (db : Db) : Db :=
  (Prog.exec (serve uuid v.fates) (v.request.program env) ⟨db, 0⟩).2.db

/-- The steps of the system. -/
def VisitStep {tenantId kbId : Str} (env : ExecEnv) (uuid : ℕ → Str) (db : Db)
    (v : Visit tenantId kbId) (db' : Db) : Prop :=
  v.after env uuid db = db'

/-! ### Integrity -/

section integrity
variable (index kbId : Str)

/-- There is a chunk of text `m` in the knowledge base. -/
def Present (m : Str) (chunks : Table Chunk Chunk.key) : Prop :=
  ∃ c ∈ chunks, Db.inKb index kbId c = true ∧ c.id = m ∧ ∃ docId, c.docId = some docId

/-- Every chunk of the knowledge base that refers to a mother refers to a chunk that is there. -/
def Integrity (chunks : Table Chunk Chunk.key) : Prop :=
  ∀ c ∈ chunks, Db.inKb index kbId c = true → ∀ m, c.momId = some m →
    Present index kbId m chunks

/-- No chunk of another document has its mother under the document. -/
def Detached (docId : Str) (chunks : Table Chunk Chunk.key) : Prop :=
  ∀ c ∈ chunks, ∀ c' ∈ chunks, Db.inKb index kbId c = true → Db.inKb index kbId c' = true →
    c.momId = some c'.id → c'.docId = some docId → c.docId = some docId

end integrity

/-- The store keeps every mother chunk that is not there already. -/
def KeepsMothers (env : ExecEnv) (task : TaskContext) (cs : List BuiltChunk)
    (fates : ℕ → StoreFate) (chunks : Table Chunk Chunk.key) : Prop :=
  ∀ m ∈ mothersOf env.hash [] cs,
    Present (indexName (some task.tenantId)) task.kbId m.id chunks ∨
      ∀ n, (fates n).keeps (task.row env.hash m) = true

/-- The condition on a request, in the state it finds. -/
def Meets {tenantId kbId : Str} (env : ExecEnv) (db : Db) (v : Visit tenantId kbId) : Prop :=
  match v.request with
  | .insert task cs _ _ => KeepsMothers env task cs v.fates db.chunks
  | .remove doc _ => ∀ row, db.documents.get? doc.id = some row →
      Detached (indexName (some tenantId)) kbId doc.id db.chunks

/-! ### `retrieval_by_children` -/

/-- A chunk that was found, in the fields that are read. -/
structure Hit where
  chunkId : Str
  docId : Str
  kbId : Str
  momId : Option Str
  similarity : ℚ
deriving DecidableEq

/-- Exceptions of the lookup: `None` is subscripted, or a field is missing. -/
inductive LookupError where
  | typeError | keyError
deriving DecidableEq, Repr

/-- The mother a hit is put under: `mom_id` when it is a string that is not blank. -/
def Hit.mother (h : Hit) : Option Str :=
  match h.momId with
  | none => none
  | some m => if (strip m).isEmpty then none else some m

/-- `mom_chunks[ck["mom_id"]].append(ck)`. -/
def addToGroup (m : Str) (h : Hit) : List (Str × List Hit) → List (Str × List Hit)
  | [] => [(m, [h])]
  | (m', hs) :: groups =>
      if m' = m then (m', hs ++ [h]) :: groups else (m', hs) :: addToGroup m h groups

/-- `mom_chunks`: the hits that have a mother, in the order of their first. -/
def groupsOf (hits : List Hit) : List (Str × List Hit) :=
  hits.foldl (fun groups h =>
    match h.mother with
    | none => groups
    | some m => addToGroup m h groups) []

/-- `np.mean` of the similarities. -/
def meanSimilarity (hs : List Hit) : ℚ := (hs.map (·.similarity)).sum / hs.length

/-- The hit that stands for a group. -/
def motherHit (index : Str) (chunks : Table Chunk Chunk.key) (group : Str × List Hit) :
    Except LookupError Hit :=
  match chunks.get? (index, group.1) with
  | none => .error .typeError
  | some c =>
      match c.docId with
      | none => .error .keyError
      | some docId => .ok
          { chunkId := group.1, docId, kbId := c.kbId, momId := none,
            similarity := meanSimilarity group.2 }

/-- The other hits and the mothers, the most similar first; without mothers, the hits as they
are. -/
def withMothers (hits mothers : List Hit) : List Hit :=
  if mothers.isEmpty then hits
  else (hits.filter (·.mother.isNone) ++ mothers).insertionSort
    (fun a b => b.similarity ≤ a.similarity)

/-- `retrieval_by_children`: the mothers in the place of their children. -/
def retrievalByChildren (index : Str) (chunks : Table Chunk Chunk.key) (hits : List Hit) :
    Except LookupError (List Hit) := do
  let mothers ← (groupsOf hits).mapM (motherHit index chunks)
  pure (withMothers hits mothers)

/-! ### Rows written and deleted -/

section writes
variable {index kbId m : Str} {chunks : Table Chunk Chunk.key} {rs : List Chunk}

/-- The row is one of text in the knowledge base. -/
def TextRow (index kbId : Str) (r : Chunk) : Prop :=
  Db.inKb index kbId r = true ∧ ∃ docId, r.docId = some docId

theorem inKb_iff {c : Chunk} : Db.inKb index kbId c = true ↔ c.index = index ∧ c.kbId = kbId := by
  unfold Db.inKb
  rw [Bool.and_eq_true, decide_eq_true_eq, decide_eq_true_eq]

theorem present_upsert {r : Chunk} (hr : TextRow index kbId r)
    (h : Present index kbId m chunks) : Present index kbId m (chunks.upsert r) := by
  obtain ⟨c, hc, hkb, hid, hdoc⟩ := h
  by_cases hkey : c.key = r.key
  · have hrid : c.id = r.id := congrArg Prod.snd hkey
    exact ⟨r, Table.mem_upsert.mpr (Or.inr rfl), hr.1, hrid.symm.trans hid, hr.2⟩
  · exact ⟨c, Table.mem_upsert.mpr (Or.inl ⟨hc, hkey⟩), hkb, hid, hdoc⟩

theorem present_foldl_upsert (hrs : ∀ r ∈ rs, TextRow index kbId r) :
    ∀ {chunks : Table Chunk Chunk.key}, Present index kbId m chunks →
      Present index kbId m (rs.foldl Table.upsert chunks) := by
  induction rs with
  | nil => exact fun h => h
  | cons r rs ih =>
      intro chunks h
      exact ih (fun x hx => hrs x (List.mem_cons_of_mem r hx))
        (present_upsert (hrs r List.mem_cons_self) h)

/-- A row that is written is there. -/
theorem present_of_written (hrs : ∀ r ∈ rs, TextRow index kbId r) {r : Chunk} (hr : r ∈ rs) :
    ∀ chunks : Table Chunk Chunk.key, Present index kbId r.id (rs.foldl Table.upsert chunks) := by
  induction rs with
  | nil => exact absurd hr List.not_mem_nil
  | cons x rs ih =>
      intro chunks
      have hrest : ∀ r ∈ rs, TextRow index kbId r := fun y hy => hrs y (List.mem_cons_of_mem x hy)
      rcases List.mem_cons.mp hr with rfl | hr
      · refine present_foldl_upsert hrest ?_
        have hrow := hrs r List.mem_cons_self
        exact ⟨r, Table.mem_upsert.mpr (Or.inr rfl), hrow.1, rfl, hrow.2⟩
      · exact ih hrest hr (chunks.upsert x)

/-- Rows whose mothers are there may be written. -/
theorem integrity_foldl_upsert (hrs : ∀ r ∈ rs, TextRow index kbId r)
    (hmom : ∀ r ∈ rs, ∀ m, r.momId = some m → Present index kbId m chunks)
    (h : Integrity index kbId chunks) : Integrity index kbId (rs.foldl Table.upsert chunks) := by
  intro c hc hkb m hm
  apply present_foldl_upsert hrs
  rcases Table.mem_foldl_upsert hc with hc | hc
  · exact h c hc hkb m hm
  · exact hmom c hc m hm

/-- Deleting the rows of a document that is the mother of no chunk but its own. -/
theorem integrity_deleteChunksOf {docId : Str} (hdetached : Detached index kbId docId chunks)
    (h : Integrity index kbId chunks) :
    Integrity index kbId
      (chunks.deleteWhere (fun c => Db.inKb index kbId c && c.docId = some docId)) := by
  intro c hc hkb m hm
  obtain ⟨hc, hkept⟩ := Table.mem_deleteWhere.mp hc
  obtain ⟨c', hc', hkb', rfl, hdoc'⟩ := h c hc hkb m hm
  have hother : c.docId ≠ some docId := by
    intro hdoc
    simp [hkb, hdoc] at hkept
  refine ⟨c', Table.mem_deleteWhere.mpr ⟨hc', ?_⟩, hkb', rfl, hdoc'⟩
  have hmother : c'.docId ≠ some docId :=
    fun hdoc => hother (hdetached c hc c' hc' hkb hkb' hm hdoc)
  simp [hmother]

/-- A change of rows that leaves their text, their place and their mothers alone. -/
theorem integrity_updateWhere {p : Chunk → Bool} {f : Chunk → Chunk} (hf : ∀ c, (f c).key = c.key)
    (hkbId : ∀ c, (f c).kbId = c.kbId) (hmom : ∀ c, (f c).momId = c.momId)
    (hdoc : ∀ c, (f c).docId = c.docId) (h : Integrity index kbId chunks) :
    Integrity index kbId (chunks.updateWhere p f hf) := by
  have hinKb : ∀ c, Db.inKb index kbId (f c) = Db.inKb index kbId c := by
    intro c
    have hindex : (f c).index = c.index := congrArg Prod.fst (hf c)
    unfold Db.inKb
    rw [hindex, hkbId]
  have hpresent : ∀ {m}, Present index kbId m chunks →
      Present index kbId m (chunks.updateWhere p f hf) := by
    rintro m ⟨c, hc, hkb, hid, hd⟩
    cases hp : p c with
    | false => exact ⟨c, Table.mem_updateWhere.mpr (Or.inl ⟨hc, hp⟩), hkb, hid, hd⟩
    | true =>
        have hfid : (f c).id = c.id := congrArg Prod.snd (hf c)
        exact ⟨f c, Table.mem_updateWhere.mpr (Or.inr ⟨c, hc, hp, rfl⟩), (hinKb c).trans hkb,
          hfid.trans hid, (hdoc c).symm ▸ hd⟩
  intro c hc hkb m hm
  apply hpresent
  rcases Table.mem_updateWhere.mp hc with ⟨hc, -⟩ | ⟨c₀, hc₀, -, rfl⟩
  · exact h c hc hkb m hm
  · exact h c₀ hc₀ ((hinKb c₀).symm.trans hkb) m ((hmom c₀).symm.trans hm)

/-- Deleting rows of the graph. -/
theorem integrity_deleteOrphans {index' kbId' : Str} (h : Integrity index kbId chunks) :
    Integrity index kbId
      (chunks.deleteWhere (fun c => Db.inKb index' kbId' c && c.sourceId = some [])) := by
  intro c hc hkb m hm
  obtain ⟨hc, -⟩ := Table.mem_deleteWhere.mp hc
  obtain ⟨c', hc', hkb', hid, docId, hdoc⟩ := h c hc hkb m hm
  refine ⟨c', Table.mem_deleteWhere.mpr ⟨hc', ?_⟩, hkb', hid, docId, hdoc⟩
  have hsource : c'.sourceId = none := by
    unfold Chunk.docId at hdoc
    unfold Chunk.sourceId
    split at hdoc
    · rfl
    · cases hdoc
  simp [hsource]

end writes

/-! ### Statements that leave the chunks alone -/

theorem StoreFate.apply_eq {f : StoreFate} {uuid : ℕ → Str} {op : Op} {db : Db}
    (hop : ∀ cs, op ≠ .insertChunks cs) :
    f.apply uuid op db = if f.raises then (.error .failure, db) else Db.apply uuid op db := by
  unfold StoreFate.apply
  split
  · next cs => exact absurd rfl (hop cs)
  · rfl

/-- The calls that leave the chunks alone, whatever becomes of them. -/
def untouched : Terms :=
  ⟨fun c => ∀ f uuid db, (StoreFate.apply f uuid c.op db).2.chunks = db.chunks, fun _ _ => True⟩

theorem untouched_of_apply {site : Site} {op : Op} (hop : ∀ cs, op ≠ .insertChunks cs)
    (h : ∀ uuid db, (Db.apply uuid op db).2.chunks = db.chunks) : untouched.asks ⟨site, op⟩ := by
  intro f uuid db
  dsimp only
  rw [StoreFate.apply_eq hop]
  split_ifs
  · rfl
  · exact h uuid db

section session
variable {uuid : ℕ → Str} {fates : ℕ → StoreFate}

/-- A statement that does not raise by itself and inserts no chunks. -/
theorem serve_eq {site : Site} {op : Op} {s : Session} {a : op.Ret} {db : Db}
    (hop : ∀ cs, op ≠ .insertChunks cs) (hdb : Db.apply uuid op s.db = (.ok a, db)) :
    serve uuid fates ⟨site, op⟩ s =
      if (fates s.turn).raises then (.error .failure, ⟨s.db, s.turn + 1⟩)
      else (.ok a, ⟨db, s.turn + 1⟩) := by
  unfold serve
  dsimp only
  rw [StoreFate.apply_eq hop, hdb]
  split_ifs
  · rfl
  · rfl

theorem untouched_keeps (J : Table Chunk Chunk.key → Prop) :
    untouched.Keeps (serve uuid fates) (fun s => J s.db.chunks) := by
  intro c s hc hs
  refine ⟨?_, fun _ _ => trivial⟩
  show J ((fates s.turn).apply uuid c.op s.db).2.chunks
  rw [hc]
  exact hs

theorem hasCanceled_untouched (id : Str) : Only untouched (fun _ => True) (hasCanceled id) := by
  refine Only.tryCatch ?_ (fun e => Only.pure trivial)
  exact Only.perform (untouched_of_apply (fun _ h => by cases h) (fun _ _ => rfl))

theorem updateProgress_chunks (id : Str) (prog : Option ℚ) (uuid : ℕ → Str) (db : Db) :
    (Db.apply uuid (.updateProgress id prog) db).2.chunks = db.chunks := by
  simp only [Db.apply]
  split
  · rfl
  · rfl

theorem setProgress_untouched (id : Str) (prog : Option ℚ) :
    Only untouched (fun _ => True) (setProgress id prog) := by
  refine Only.bind (hasCanceled_untouched id) (fun cancel _ => Only.tryCatch ?_ ?_)
  · refine Only.bind (Only.perform (untouched_of_apply (fun _ h => by cases h)
      (updateProgress_chunks id _)))
      (fun _ _ => Only.ite (fun _ => ?_) (fun _ => Only.pure trivial))
    exact Only.perform (untouched_of_apply (fun _ h => by cases h) (fun _ _ => rfl))
  · exact fun e => Only.ite (fun _ => trivial) (fun _ => Only.pure trivial)

/-- A part that leaves the chunks alone, before going on. -/
theorem untouched_bind {α β : Type} {p : Service α} {f : α → Service β}
    {P : Table Chunk Chunk.key → Prop} {Q : β → Session → Prop} {X : Err → Session → Prop}
    (hp : Only untouched (fun _ => True) p)
    (hf : ∀ a, Triple (serve uuid fates) (fun s => P s.db.chunks) (f a) Q X)
    (hx : ∀ e s, P s.db.chunks → X e s) :
    Triple (serve uuid fates) (fun s => P s.db.chunks) (p >>= f) Q X := by
  have hkeeps : untouched.Keeps (serve uuid fates) (fun s => P s.db.chunks) := untouched_keeps P
  have hfirst := (Triple.of_only hp hkeeps).weaken (fun _ h => h) (fun _ _ h => h.2) hx
  exact Triple.bind hfirst hf

/-- One statement, by what it does to the chunks. -/
theorem issue_triple {p : Point} {key : Str} {op : Op} {P Q : Table Chunk Chunk.key → Prop}
    (h : ∀ n db, P db.chunks → Q ((fates n).apply uuid op db).2.chunks) :
    Triple (serve uuid fates) (fun s => P s.db.chunks) (issue p key op)
      (fun _ s => Q s.db.chunks) (fun _ s => Q s.db.chunks) := by
  have hafter : ∀ s s' r, P s.db.chunks → serve uuid fates ⟨⟨p, key⟩, op⟩ s = (r, s') →
      Q s'.db.chunks := by
    intro s s' r hs hr
    have hs' := congrArg Prod.snd hr
    dsimp only at hs'
    rw [← hs']
    exact h s.turn s.db hs
  exact Triple.perform (fun s a s' hs hr => hafter s s' _ hs hr)
    (fun s e s' hs hr => hafter s s' _ hs hr)

end session

/-! ### `insert_chunks` keeps the mothers of its chunks -/

section insert
variable {uuid : ℕ → Str} {fates : ℕ → StoreFate} {env : ExecEnv} {task : TaskContext}

theorem textRow_row (c : BuiltChunk) :
    TextRow (indexName (some task.tenantId)) task.kbId (task.row env.hash c) :=
  ⟨inKb_iff.mpr ⟨rfl, rfl⟩, c.docId, rfl⟩

theorem momId_row {c : BuiltChunk} {m : Str} :
    (task.row env.hash c).momId = some m ↔ c.motherText ≠ [] ∧ env.hash c.motherText = m := by
  unfold TaskContext.row
  dsimp only
  split_ifs with h
  · have htext := List.isEmpty_iff.mp h
    simp [htext]
  · have htext : c.motherText ≠ [] := fun hnil => h (List.isEmpty_iff.mpr hnil)
    simp [htext]

/-- A mother has no mother. -/
theorem motherText_mothersOf {hash : Str → Str} (cs : List BuiltChunk) : ∀ seen : List Str,
    ∀ m ∈ mothersOf hash seen cs, m.motherText = [] := by
  induction cs with
  | nil =>
      intro seen m hm
      exact absurd hm List.not_mem_nil
  | cons c cs ih =>
      intro seen m hm
      unfold mothersOf at hm
      split_ifs at hm with hempty
      · exact ih seen m hm
      · dsimp only at hm
        split_ifs at hm with hseen
        · exact ih seen m hm
        · rcases List.mem_cons.mp hm with rfl | hm
          · rfl
          · exact ih _ m hm

/-- The mothers `done` are stored, and what was stored in `chunks₀` still is. -/
structure Underway (index kbId : Str) (chunks₀ : Table Chunk Chunk.key) (done : List Str)
    (chunks : Table Chunk Chunk.key) : Prop where
  integrity : Integrity index kbId chunks
  grown : ∀ m, Present index kbId m chunks₀ → Present index kbId m chunks
  stored : ∀ m ∈ done, Present index kbId m chunks

/-- A batch of mothers. -/
theorem Underway.insert {chunks₀ chunks : Table Chunk Chunk.key} {done : List Str} {n : ℕ}
    {ms : List BuiltChunk} (hms : ∀ m ∈ ms, m.motherText = [])
    (hkept : ∀ m ∈ ms, Present (indexName (some task.tenantId)) task.kbId m.id chunks₀ ∨
      ∀ n, (fates n).keeps (task.row env.hash m) = true)
    (h : Underway (indexName (some task.tenantId)) task.kbId chunks₀ done chunks) :
    Underway (indexName (some task.tenantId)) task.kbId chunks₀ (done ++ ms.map (·.id))
      (((ms.map (task.row env.hash)).filter (fates n).keeps).foldl Table.upsert chunks) := by
  have hrows : ∀ r ∈ (ms.map (task.row env.hash)).filter (fates n).keeps,
      TextRow (indexName (some task.tenantId)) task.kbId r ∧ r.momId = none := by
    intro r hr
    obtain ⟨m, hm, rfl⟩ := List.mem_map.mp (List.mem_of_mem_filter hr)
    refine ⟨textRow_row m, ?_⟩
    unfold TaskContext.row
    rw [hms m hm]
    rfl
  have htext := fun r hr => (hrows r hr).1
  refine ⟨?_, ?_, ?_⟩
  · refine integrity_foldl_upsert htext ?_ h.integrity
    intro r hr m hm
    rw [(hrows r hr).2] at hm
    cases hm
  · intro m hm
    exact present_foldl_upsert htext (h.grown m hm)
  · intro m hm
    rcases List.mem_append.mp hm with hm | hm
    · exact present_foldl_upsert htext (h.stored m hm)
    · obtain ⟨c, hc, rfl⟩ := List.mem_map.mp hm
      rcases hkept c hc with hthere | hkeep
      · exact present_foldl_upsert htext (h.grown c.id hthere)
      · exact present_of_written htext
          (List.mem_filter.mpr ⟨List.mem_map_of_mem hc, hkeep n⟩) chunks

/-- The loop over the batches of the mothers: only when all are stored does it answer `true`. -/
theorem insertMothers_triple {chunks₀ : Table Chunk Chunk.key} {ms : List BuiltChunk}
    (hms : ∀ m ∈ ms, m.motherText = [])
    (hkept : ∀ m ∈ ms, Present (indexName (some task.tenantId)) task.kbId m.id chunks₀ ∨
      ∀ n, (fates n).keeps (task.row env.hash m) = true) (bs : List ℕ) : ∀ done : List Str,
    Triple (serve uuid fates)
      (fun s => Underway (indexName (some task.tenantId)) task.kbId chunks₀ done s.db.chunks)
      (insertMothers env task ms bs)
      (fun stored s => Integrity (indexName (some task.tenantId)) task.kbId s.db.chunks ∧
        (stored = true → Underway (indexName (some task.tenantId)) task.kbId chunks₀
          (done ++ (bs.flatMap (fun b => (ms.drop b).take env.docBulkSize)).map (·.id))
          s.db.chunks))
      (fun _ s => Integrity (indexName (some task.tenantId)) task.kbId s.db.chunks) := by
  induction bs with
  | nil =>
      intro done
      refine Triple.pure (fun s hs => ⟨hs.integrity, fun _ => ?_⟩)
      rw [List.flatMap_nil, List.map_nil, List.append_nil]
      exact hs
  | cons b bs ih =>
      intro done
      have hbatch : ∀ m ∈ (ms.drop b).take env.docBulkSize, m ∈ ms :=
        fun m hm => List.mem_of_mem_drop (List.mem_of_mem_take hm)
      have hinsert : Triple (serve uuid fates)
          (fun s => Underway (indexName (some task.tenantId)) task.kbId chunks₀ done s.db.chunks)
          (insertBatch env task ms b) _ _ :=
        issue_triple (fun n db h => h.insert (fun m hm => hms m (hbatch m hm))
          (fun m hm => hkept m (hbatch m hm)))
      refine Triple.bind (hinsert.weaken (fun _ h => h) (fun _ _ h => h)
        (fun _ _ h => h.integrity)) (fun _ => ?_)
      refine untouched_bind (hasCanceled_untouched task.id) (fun canceled => ?_)
        (fun _ _ h => h.integrity)
      refine Triple.ite (fun _ => ?_) (fun _ => ?_)
      · refine untouched_bind (setProgress_untouched task.id _) (fun _ => ?_)
          (fun _ _ h => h.integrity)
        exact Triple.pure (fun s hs => ⟨hs.integrity, fun h => by cases h⟩)
      · rw [List.flatMap_cons, List.map_append, ← List.append_assoc]
        exact ih _

/-- The mothers of the chunks are stored. -/
def Provided (env : ExecEnv) (index kbId : Str) (cs : List BuiltChunk)
    (chunks : Table Chunk Chunk.key) : Prop :=
  Integrity index kbId chunks ∧
    ∀ c ∈ cs, c.motherText ≠ [] → Present index kbId (env.hash c.motherText) chunks

/-- A batch of chunks whose mothers are stored. -/
theorem Provided.insert {chunks : Table Chunk Chunk.key} {n : ℕ} {cs batch : List BuiltChunk}
    (hbatch : ∀ c ∈ batch, c ∈ cs)
    (h : Provided env (indexName (some task.tenantId)) task.kbId cs chunks) :
    Provided env (indexName (some task.tenantId)) task.kbId cs
      (((batch.map (task.row env.hash)).filter (fates n).keeps).foldl Table.upsert chunks) := by
  have htext : ∀ r ∈ (batch.map (task.row env.hash)).filter (fates n).keeps,
      TextRow (indexName (some task.tenantId)) task.kbId r := by
    intro r hr
    obtain ⟨c, -, rfl⟩ := List.mem_map.mp (List.mem_of_mem_filter hr)
    exact textRow_row c
  refine ⟨?_, ?_⟩
  · refine integrity_foldl_upsert htext ?_ h.1
    intro r hr m hm
    obtain ⟨c, hc, rfl⟩ := List.mem_map.mp (List.mem_of_mem_filter hr)
    obtain ⟨hne, rfl⟩ := momId_row.mp hm
    exact h.2 c (hbatch c hc) hne
  · intro c hc hne
    exact present_foldl_upsert htext (h.2 c hc hne)

/-- `update_chunk_ids` is one statement and finds no row missing, so nothing is undone. -/
theorem recordChunkIds_triple (P : Table Chunk Chunk.key → Prop) (ids : List Str) :
    Triple (serve uuid fates) (fun s => P s.db.chunks) (recordChunkIds task ids)
      (fun _ s => P s.db.chunks) (fun _ s => P s.db.chunks) := by
  have hupdate : Triple (serve uuid fates) (fun s => P s.db.chunks)
      (issue .chunkIdsUpdate task.id (.updateChunkIds task.id ids))
      (fun _ s => P s.db.chunks) (fun e s => e ≠ .doesNotExist ∧ P s.db.chunks) := by
    have hserve : ∀ s, serve uuid fates
        ⟨⟨.chunkIdsUpdate, task.id⟩, .updateChunkIds task.id ids⟩ s = _ :=
      fun s => serve_eq (fun _ h => by cases h) rfl
    refine Triple.perform ?_ ?_
    · intro s a s' hs hr
      rw [hserve] at hr
      split_ifs at hr
      · cases hr
      · cases hr
        exact hs
    · intro s e s' hs hr
      rw [hserve] at hr
      split_ifs at hr
      · cases hr
        exact ⟨fun h => (by cases h), hs⟩
      · cases hr
  refine Triple.tryCatch (Triple.bind hupdate (fun _ => Triple.pure (fun _ h => h))) (fun e => ?_)
  refine Triple.ite (fun he => ?_) (fun _ => Triple.throw (fun _ h => h.2))
  intro s hs
  exact absurd he hs.1

/-- The loop over the batches of the chunks. -/
theorem insertBatches_triple (cs : List BuiltChunk) (bs : List ℕ) :
    Triple (serve uuid fates)
      (fun s => Provided env (indexName (some task.tenantId)) task.kbId cs s.db.chunks)
      (insertBatches env task cs bs)
      (fun _ s => Provided env (indexName (some task.tenantId)) task.kbId cs s.db.chunks)
      (fun _ s => Provided env (indexName (some task.tenantId)) task.kbId cs s.db.chunks) := by
  induction bs with
  | nil => exact Triple.pure (fun _ h => h)
  | cons b bs ih =>
      have hbatch : ∀ c ∈ (cs.drop b).take env.docBulkSize, c ∈ cs :=
        fun c hc => List.mem_of_mem_drop (List.mem_of_mem_take hc)
      refine Triple.bind (issue_triple (fun n db h => h.insert hbatch)) (fun _ => ?_)
      refine untouched_bind (hasCanceled_untouched task.id) (fun canceled => ?_) (fun _ _ h => h)
      refine Triple.ite (fun _ => ?_) (fun _ => ?_)
      · exact untouched_bind (setProgress_untouched task.id _)
          (fun _ => Triple.pure (fun _ h => h)) (fun _ _ h => h)
      · have hreport : Only untouched (fun _ => True) (reportBatch task cs.length b) :=
          Only.ite (fun _ => setProgress_untouched task.id _) (fun _ => Only.pure trivial)
        refine untouched_bind hreport (fun _ => ?_) (fun _ _ h => h)
        refine Triple.bind (recordChunkIds_triple
          (Provided env (indexName (some task.tenantId)) task.kbId cs) _) (fun recorded => ?_)
        exact Triple.ite (fun _ => ih) (fun _ => Triple.pure (fun _ h => h))

/-- **Insertion.**  If the store keeps the mothers, the knowledge base stays intact. -/
theorem insertChunks_triple {chunks₀ : Table Chunk Chunk.key} (cs : List BuiltChunk)
    (hkept : KeepsMothers env task cs fates chunks₀) :
    Triple (serve uuid fates)
      (fun s => Integrity (indexName (some task.tenantId)) task.kbId s.db.chunks ∧
        s.db.chunks = chunks₀)
      (insertChunks env task cs)
      (fun _ s => Integrity (indexName (some task.tenantId)) task.kbId s.db.chunks)
      (fun _ s => Integrity (indexName (some task.tenantId)) task.kbId s.db.chunks) := by
  have hmothers : Triple (serve uuid fates) _ _ _ _ :=
    insertMothers_triple (motherText_mothersOf cs []) hkept
      (batchStarts env.docBulkSize (mothersOf env.hash [] cs).length) []
  rw [flatMap_batchStarts env.bulk_pos, List.nil_append] at hmothers
  refine Triple.bind (hmothers.weaken ?_ (fun _ _ h => h) (fun _ _ h => h)) (fun stored => ?_)
  · rintro s ⟨hintegrity, rfl⟩
    exact ⟨hintegrity, fun _ h => h, fun _ h => absurd h List.not_mem_nil⟩
  · refine Triple.ite (fun hstored => ?_) (fun _ => Triple.pure (fun _ h => h.1))
    refine (insertBatches_triple cs _).weaken ?_ (fun _ _ h => h.1) (fun _ _ h => h.1)
    intro s hs
    refine ⟨hs.1, fun c hc hne => (hs.2 hstored).stored _ ?_⟩
    rw [mem_mothersOf]
    exact ⟨List.not_mem_nil, c, hc, hne, rfl⟩

end insert

/-! ### `remove_document` -/

section remove
variable {uuid : ℕ → Str} {fates : ℕ → StoreFate} {index kbId : Str}

theorem quietly_untouched {body : Service Unit} (h : Only untouched (fun _ => True) body) :
    Only untouched (fun _ => True) (quietly body) :=
  Only.tryCatch h (fun _ => Only.pure trivial)

theorem deleteDocument_spec (docId : Str) (db : Db) :
    (Db.deleteDocumentAndUpdateKbCounts docId db).2.chunks = db.chunks ∧
      ((Db.deleteDocumentAndUpdateKbCounts docId db).1 = true →
        ∃ row, db.documents.get? docId = some row) := by
  unfold Db.deleteDocumentAndUpdateKbCounts
  split
  · exact ⟨rfl, fun h => (by cases h)⟩
  · next row hrow => exact ⟨rfl, fun _ => ⟨row, hrow⟩⟩

/-- The calls that keep the knowledge base intact. -/
def harmless (index kbId : Str) : Terms :=
  ⟨fun c => ∀ f uuid db, Integrity index kbId db.chunks →
    Integrity index kbId (StoreFate.apply f uuid c.op db).2.chunks, fun _ _ => True⟩

theorem harmless_keeps :
    (harmless index kbId).Keeps (serve uuid fates) (fun s => Integrity index kbId s.db.chunks) :=
  fun _ s hc hs => ⟨hc (fates s.turn) uuid s.db hs, fun _ _ => trivial⟩

theorem harmless_of_apply {site : Site} {op : Op} (hop : ∀ cs, op ≠ .insertChunks cs)
    (h : ∀ uuid db, Integrity index kbId db.chunks →
      Integrity index kbId (Db.apply uuid op db).2.chunks) :
    (harmless index kbId).asks ⟨site, op⟩ := by
  intro f uuid db hdb
  dsimp only
  rw [StoreFate.apply_eq hop]
  split_ifs
  · exact hdb
  · exact h uuid db hdb

theorem removeSource_fields (docId : Str) (c : Chunk) :
    (c.removeSource docId).kbId = c.kbId ∧ (c.removeSource docId).momId = c.momId ∧
      (c.removeSource docId).docId = c.docId := by
  unfold Chunk.removeSource
  split
  · exact ⟨rfl, rfl, rfl⟩
  · next h => exact ⟨rfl, rfl, by simp [Chunk.docId, h]⟩

theorem markRemoved_fields (c : Chunk) :
    c.markRemoved.kbId = c.kbId ∧ c.markRemoved.momId = c.momId ∧
      c.markRemoved.docId = c.docId := by
  unfold Chunk.markRemoved
  split
  · exact ⟨rfl, rfl, rfl⟩
  · next h => exact ⟨rfl, rfl, by simp [Chunk.docId, h]⟩

theorem cleanupGraph_harmless (doc : Document) (index' : Str) :
    Only (harmless index kbId) (fun _ => True) (cleanupGraph doc index') := by
  refine Only.bind (Only.perform (harmless_of_apply (fun _ h => by cases h) (fun _ _ h => h)))
    (fun _ _ => Only.ite (fun _ => ?_) (fun _ => Only.pure trivial))
  refine Only.bind (Only.perform (harmless_of_apply (fun _ h => by cases h) ?_)) (fun _ _ => ?_)
  · exact fun _ _ h => integrity_updateWhere (Chunk.removeSource_key doc.id)
      (fun c => (removeSource_fields _ c).1) (fun c => (removeSource_fields _ c).2.1)
      (fun c => (removeSource_fields _ c).2.2) h
  refine Only.bind (Only.perform (harmless_of_apply (fun _ h => by cases h) ?_)) (fun _ _ => ?_)
  · exact fun _ _ h => integrity_updateWhere Chunk.markRemoved_key
      (fun c => (markRemoved_fields c).1) (fun c => (markRemoved_fields c).2.1)
      (fun c => (markRemoved_fields c).2.2) h
  refine Only.perform (harmless_of_apply (fun _ h => by cases h) ?_)
  exact fun _ _ h => integrity_deleteOrphans h

/-- The knowledge base is intact, and the document is the mother of no chunk but its own. -/
structure Removable (index kbId docId : Str) (chunks : Table Chunk Chunk.key) : Prop where
  integrity : Integrity index kbId chunks
  detached : Detached index kbId docId chunks

/-- The row of the document is deleted: only when it was there does the removal go on. -/
theorem docDelete_triple {doc : Document} :
    Triple (serve uuid fates)
      (fun s => Integrity index kbId s.db.chunks ∧ ∀ row,
        s.db.documents.get? doc.id = some row → Detached index kbId doc.id s.db.chunks)
      (issue .docDelete doc.id (.deleteDocumentAndUpdateKbCounts doc.id))
      (fun deleted s => Integrity index kbId s.db.chunks ∧
        (deleted = true → Removable index kbId doc.id s.db.chunks))
      (fun _ s => Integrity index kbId s.db.chunks) := by
  have hserve : ∀ s, serve uuid fates
      ⟨⟨.docDelete, doc.id⟩, .deleteDocumentAndUpdateKbCounts doc.id⟩ s = _ :=
    fun s => serve_eq (fun _ h => by cases h) rfl
  refine Triple.perform ?_ ?_
  · rintro s deleted s' ⟨hintegrity, hdetached⟩ hr
    obtain ⟨hchunks, hrow⟩ := deleteDocument_spec doc.id s.db
    rw [hserve] at hr
    split_ifs at hr
    · cases hr
    · cases hr
      rw [hchunks]
      refine ⟨hintegrity, fun hdeleted => ?_⟩
      obtain ⟨row, hrow⟩ := hrow hdeleted
      exact ⟨hintegrity, hdetached row hrow⟩
  · rintro s e s' ⟨hintegrity, -⟩ hr
    rw [hserve] at hr
    split_ifs at hr
    · cases hr
      exact hintegrity
    · cases hr

/-- **Removal.**  A document that is the mother of no chunk but its own leaves the knowledge base
intact. -/
theorem removeDocument_triple {doc : Document} {tenantId : Option Str} :
    Triple (serve uuid fates)
      (fun s => Integrity (indexName tenantId) doc.kbId s.db.chunks ∧ ∀ row,
        s.db.documents.get? doc.id = some row →
          Detached (indexName tenantId) doc.kbId doc.id s.db.chunks)
      (removeDocument doc tenantId)
      (fun _ s => Integrity (indexName tenantId) doc.kbId s.db.chunks)
      (fun _ s => Integrity (indexName tenantId) doc.kbId s.db.chunks) := by
  have hissue : ∀ {p : Point} {op : Op}, (∀ cs, op ≠ .insertChunks cs) →
      (∀ uuid db, (Db.apply uuid op db).2.chunks = db.chunks) →
      Only untouched (fun _ => True) (issue p doc.id op) :=
    fun hop h => Only.perform (untouched_of_apply hop h)
  have hdelete : Triple (serve uuid fates)
      (fun s => Removable (indexName tenantId) doc.kbId doc.id s.db.chunks)
      (issue .chunksDelete doc.id (.deleteChunksOf doc.id (indexName tenantId) doc.kbId))
      (fun _ s => Integrity (indexName tenantId) doc.kbId s.db.chunks)
      (fun _ s => Integrity (indexName tenantId) doc.kbId s.db.chunks) := by
    refine issue_triple (fun n db h => ?_)
    rw [StoreFate.apply_eq (fun _ h => by cases h)]
    split_ifs
    · exact h.integrity
    · exact integrity_deleteChunksOf h.detached h.integrity
  refine Triple.bind docDelete_triple (fun deleted => ?_)
  refine Triple.ite (fun hdeleted => ?_) (fun _ => Triple.pure (fun _ h => h.1))
  refine Triple.weaken ?_ (fun _ h => h.2 hdeleted) (fun _ _ h => h) (fun _ _ h => h)
  refine untouched_bind (quietly_untouched (hissue (fun _ h => by cases h) (fun _ _ => rfl)))
    (fun _ => ?_) (fun _ _ h => h.integrity)
  refine untouched_bind (quietly_untouched (hissue (fun _ h => by cases h) (fun _ _ => rfl)))
    (fun _ => ?_) (fun _ _ h => h.integrity)
  refine untouched_bind (quietly_untouched (hissue (fun _ h => by cases h) (fun _ _ => rfl)))
    (fun _ => ?_) (fun _ _ h => h.integrity)
  refine untouched_bind (quietly_untouched (hissue (fun _ h => by cases h) (fun _ _ => rfl)))
    (fun _ => ?_) (fun _ _ h => h.integrity)
  refine Triple.bind (Triple.tryCatch hdelete (fun _ => Triple.pure (fun _ h => h))) (fun _ => ?_)
  refine untouched_bind (quietly_untouched (hissue (fun _ h => by cases h) (fun _ _ => rfl)))
    (fun _ => ?_) (fun _ _ h => h)
  have hgraph : Only (harmless (indexName tenantId) doc.kbId) (fun _ => True)
      (quietly (cleanupGraph doc (indexName tenantId))) :=
    Only.tryCatch (cleanupGraph_harmless doc (indexName tenantId)) (fun _ => Only.pure trivial)
  exact (Triple.of_only hgraph harmless_keeps).weaken (fun _ h => h) (fun _ _ h => h.2)
    (fun _ _ h => h)

end remove

/-! ### Runs -/

/-- A request that meets the condition keeps the knowledge base intact. -/
theorem integrity_step {env : ExecEnv} {uuid : ℕ → Str} {tenantId kbId : Str} {db db' : Db}
    {v : Visit tenantId kbId} (hdb : Integrity (indexName (some tenantId)) kbId db.chunks)
    (hmeets : Meets env db v) (hstep : VisitStep env uuid db v db') :
    Integrity (indexName (some tenantId)) kbId db'.chunks := by
  subst hstep
  obtain ⟨request, fates⟩ := v
  cases request with
  | insert task cs htenant hkb =>
      cases htenant
      cases hkb
      have hinsert : Triple (serve uuid fates) _ (insertChunks env task cs) _ _ :=
        insertChunks_triple cs hmeets
      exact (Triple.bind hinsert (fun _ => Triple.pure (fun _ h => h))).exec ⟨hdb, rfl⟩
  | remove doc hkb =>
      cases hkb
      exact removeDocument_triple.exec ⟨hdb, hmeets⟩

/-! ### The children that are found have mothers -/

/-- The hits are chunks of the knowledge base. -/
def FoundIn (index kbId : Str) (chunks : Table Chunk Chunk.key) (hits : List Hit) : Prop :=
  ∀ h ∈ hits, ∃ c ∈ chunks, Db.inKb index kbId c = true ∧ c.id = h.chunkId ∧ c.momId = h.momId

theorem mem_addToGroup {m : Str} {h : Hit} {groups : List (Str × List Hit)} {g : Str × List Hit}
    (hg : g ∈ addToGroup m h groups) : g.1 = m ∨ ∃ g' ∈ groups, g'.1 = g.1 := by
  induction groups with
  | nil =>
      rw [addToGroup, List.mem_singleton] at hg
      exact Or.inl (congrArg Prod.fst hg)
  | cons x groups ih =>
      obtain ⟨m', hs⟩ := x
      unfold addToGroup at hg
      split_ifs at hg with hm
      · rcases List.mem_cons.mp hg with rfl | hg
        · exact Or.inl hm
        · exact Or.inr ⟨g, List.mem_cons_of_mem _ hg, rfl⟩
      · rcases List.mem_cons.mp hg with rfl | hg
        · exact Or.inr ⟨_, List.mem_cons_self, rfl⟩
        · rcases ih hg with h | ⟨g', hg', h⟩
          · exact Or.inl h
          · exact Or.inr ⟨g', List.mem_cons_of_mem _ hg', h⟩

/-- Every group is that of the mother of a hit. -/
theorem mem_groupsOf {hits : List Hit} {g : Str × List Hit} (hg : g ∈ groupsOf hits) :
    ∃ h ∈ hits, h.mother = some g.1 := by
  unfold groupsOf at hg
  induction hits using List.reverseRecOn generalizing g with
  | nil => exact absurd hg List.not_mem_nil
  | append_singleton hits h ih =>
      rw [List.foldl_append, List.foldl_cons, List.foldl_nil] at hg
      have hlast : h ∈ hits ++ [h] := List.mem_append_right hits List.mem_cons_self
      cases hm : h.mother with
      | none =>
          simp only [hm] at hg
          obtain ⟨x, hx, hmother⟩ := ih hg
          exact ⟨x, List.mem_append_left _ hx, hmother⟩
      | some m =>
          simp only [hm] at hg
          rcases mem_addToGroup hg with rfl | ⟨g', hg', heq⟩
          · exact ⟨h, hlast, hm⟩
          · obtain ⟨x, hx, hmother⟩ := ih hg'
            exact ⟨x, List.mem_append_left _ hx, heq ▸ hmother⟩

theorem mapM_ok {α β ε : Type} {f : α → Except ε β} {l : List α}
    (h : ∀ x ∈ l, ∃ y, f x = .ok y) : ∃ ys, l.mapM f = .ok ys := by
  induction l with
  | nil => exact ⟨[], rfl⟩
  | cons x l ih =>
      obtain ⟨y, hy⟩ := h x List.mem_cons_self
      obtain ⟨ys, hys⟩ := ih (fun z hz => h z (List.mem_cons_of_mem x hz))
      refine ⟨y :: ys, ?_⟩
      rw [List.mapM_cons, hy, hys]
      rfl

/-- In an intact knowledge base `retrieval_by_children` finds a mother for every child. -/
theorem retrievalByChildren_ok {index kbId : Str} {chunks : Table Chunk Chunk.key}
    {hits : List Hit} (h : Integrity index kbId chunks) (hhits : FoundIn index kbId chunks hits) :
    ∃ found, retrievalByChildren index chunks hits = .ok found := by
  have hgroup : ∀ g ∈ groupsOf hits, ∃ x, motherHit index chunks g = .ok x := by
    intro g hg
    obtain ⟨hit, hhit, hmother⟩ := mem_groupsOf hg
    obtain ⟨c, hc, hkb, -, hmom⟩ := hhits hit hhit
    have hm : c.momId = some g.1 := by
      rw [hmom]
      unfold Hit.mother at hmother
      split at hmother
      · cases hmother
      · next m hsome =>
          split_ifs at hmother
          rw [hsome, hmother]
    obtain ⟨c', hc', hkb', hid, docId, hdoc⟩ := h c hc hkb g.1 hm
    have hget : chunks.get? (index, g.1) = some c' := by
      refine Table.get?_eq_some.mpr ⟨hc', ?_⟩
      unfold Chunk.key
      rw [(inKb_iff.mp hkb').1, hid]
    unfold motherHit
    rw [hget]
    dsimp only
    rw [hdoc]
    exact ⟨_, rfl⟩
  obtain ⟨found, hfound⟩ := mapM_ok hgroup
  unfold retrievalByChildren
  rw [hfound]
  exact ⟨_, rfl⟩

/-- **Mother chunks.**  In every run whose requests meet the condition, every chunk that refers to
a mother refers to a chunk that is stored, and `retrieval_by_children` finds it. -/
theorem mothers_stored (env : ExecEnv) (uuid : ℕ → Str) (tenantId kbId : Str) (db : Db)
    (run : List (Visit tenantId kbId × Db))
    (hdb : Integrity (indexName (some tenantId)) kbId db.chunks)
    (hrun : Transition.IsRun (VisitStep env uuid) db run)
    (hmeets : Transition.AllSteps (Meets env) db run) :
    ∀ x ∈ run, Integrity (indexName (some tenantId)) kbId x.2.chunks ∧
      ∀ hits, FoundIn (indexName (some tenantId)) kbId x.2.chunks hits →
        ∃ found, retrievalByChildren (indexName (some tenantId)) x.2.chunks hits = .ok found := by
  intro x hx
  have hintact := Transition.states_of_steps
    (fun db => Integrity (indexName (some tenantId)) kbId db.chunks) integrity_step run hdb hrun
    hmeets x hx
  exact ⟨hintact, fun hits hfound => retrievalByChildren_ok hintact hfound⟩

/-! Two documents of a knowledge base, with one chunk each.  Nothing raises and the store refuses
nothing. -/

def pairDoc (id : Str) : Document := { halvesDoc with id }

def pairDb : Db :=
  { halvesDb [] with
    documents := ⟨[pairDoc "d", pairDoc "e"], by decide⟩
    tasks := Table.empty
    chunks := Table.empty }

/-- The insertion of the chunk `id` of a document, cut out of the text `mom`. -/
def insertChild (docId id mom : Str) : Visit "t" "kb" :=
  { request := .insert { twoChunks false with docId } [⟨id, docId, some mom, none⟩] rfl rfl
    fates := fun _ => .good }

def removal (docId : Str) : Visit "t" "kb" :=
  { request := .remove (pairDoc docId) rfl, fates := fun _ => .good }

/-- The requests with the states they lead to. -/
def visits : Db → List (Visit "t" "kb") → List (Visit "t" "kb" × Db)
  | _, [] => []
  | db, v :: vs =>
      (v, v.after twoChunksEnv halvesSu.uuid db) ::
        visits (v.after twoChunksEnv halvesSu.uuid db) vs

theorem visits_isRun (vs : List (Visit "t" "kb")) : ∀ db : Db,
    Transition.IsRun (VisitStep twoChunksEnv halvesSu.uuid) db (visits db vs) := by
  induction vs with
  | nil => exact fun _ => trivial
  | cons v vs ih => exact fun db => ⟨rfl, ih _⟩

theorem pairDb_integrity : Integrity "ragflow_t" "kb" pairDb.chunks :=
  fun _ hc => absurd hc List.not_mem_nil

/-- The row of a chunk of a document and that of its mother. -/
def pairRow (docId id : Str) (momId : Option Str) : Chunk :=
  { index := "ragflow_t", kbId := "kb", id, body := .text docId, momId }

/-- Each document has a chunk cut out of its own text. -/
def ownText : List (Visit "t" "kb") :=
  [insertChild "d" "x" "A", insertChild "e" "y" "B", removal "e"]

theorem mothers_stored_distinct_text :
    Transition.IsRun (VisitStep twoChunksEnv halvesSu.uuid) pairDb (visits pairDb ownText) ∧
      ∀ x ∈ visits pairDb ownText, Integrity "ragflow_t" "kb" x.2.chunks ∧
        ∀ hits, FoundIn "ragflow_t" "kb" x.2.chunks hits →
          ∃ found, retrievalByChildren "ragflow_t" x.2.chunks hits = .ok found := by
  have hrun := visits_isRun ownText pairDb
  refine ⟨hrun, ?_⟩
  refine mothers_stored twoChunksEnv halvesSu.uuid "t" "kb" pairDb _ pairDb_integrity hrun ?_
  refine ⟨fun _ _ => Or.inr (fun _ => rfl), fun _ _ => Or.inr (fun _ => rfl), fun _ _ => ?_,
    trivial⟩
  show ∀ c ∈ [pairRow "d" "A" none, pairRow "d" "x" (some "A"), pairRow "e" "B" none,
    pairRow "e" "y" (some "B")], ∀ c' ∈ [pairRow "d" "A" none, pairRow "d" "x" (some "A"),
    pairRow "e" "B" none, pairRow "e" "y" (some "B")], _ → _ → _ → _ → _
  decide

/-- Both documents have a chunk cut out of the same text. -/
def sharedText : List (Visit "t" "kb") :=
  [insertChild "d" "x" "A", insertChild "e" "y" "A", removal "e"]

/-- The mother of both chunks is deleted with the second document, and the chunk of the first has
lost it. -/
theorem mother_removed :
    Integrity "ragflow_t" "kb" pairDb.chunks ∧
      Transition.IsRun (VisitStep twoChunksEnv halvesSu.uuid) pairDb (visits pairDb sharedText) ∧
      ∃ x ∈ visits pairDb sharedText, ¬ Integrity "ragflow_t" "kb" x.2.chunks ∧
        retrievalByChildren "ragflow_t" x.2.chunks [⟨"x", "d", "kb", some "A", 1⟩] =
          .error .typeError := by
  refine ⟨pairDb_integrity, visits_isRun sharedText pairDb, _,
    List.mem_cons_of_mem _ (List.mem_cons_of_mem _ List.mem_cons_self), ?_, rfl⟩
  -- the row of `x` is the only one left
  intro h
  obtain ⟨c, hc, -, hid, -⟩ := h (pairRow "d" "x" (some "A")) List.mem_cons_self rfl "A" rfl
  rw [List.mem_singleton.mp hc] at hid
  exact absurd hid (by decide)

end RagFlow.Mothers
