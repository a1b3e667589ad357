import RagFlow.ScanConverge
import RagFlow.ScanFrame

/-! # Imports that fail and the scans after them

An import is a sequence of writes without a transaction, and the next scan decides by the first
of them, the row of the document.  So a file whose import has failed is imported later exactly
when the exception came before that row was saved, and the query for its path finds no other
document in the later scan (`retried_iff`).

* **The other files.**  Their imports leave the stamps at the path of the file alone (`beside`).
  When nothing is made to raise, each leaves a document that the query for its path finds, unless
  its row does not fit (`importAll_found`).
* **The file itself.**  Its import is followed step by step: it saves the row, or one of the steps
  up to that is made to raise (`importFile_stamps`).  When nothing raises it also queues a task
  (`importFile_queued`).
* **Identifiers.**  They are drawn in order, so the row that is saved is never in conflict with
  an earlier one, and its document has no tasks yet (`Ahead`).
* **Two scans.**  Each is cut at the turn of the file (`Turn`): the first leaves the path free or a
  document that is current (`failed_cases`), and this decides the second. -/

namespace RagFlow.Retry

open Py Effect

/-! ### Tasks and queue under the operations -/

/-- A task of the result was there before, with the same document, or was inserted. -/
theorem tasks_apply (uuid : ℕ → Str) (op : Op) (db : Db) {t : Task}
    (ht : t ∈ (Db.apply uuid op db).2.tasks) :
    (∃ u ∈ db.tasks, u.docId = t.docId) ∨ ∃ ts, op = .insertTasks ts ∧ t ∈ ts := by
  have hsame : t ∈ db.tasks →
      (∃ u ∈ db.tasks, u.docId = t.docId) ∨ ∃ ts, op = .insertTasks ts ∧ t ∈ ts :=
    fun h => Or.inl ⟨t, h, rfl⟩
  have hupdate : ∀ {q : Task → Bool} {f : Task → Task} (hf : ∀ u, (f u).id = u.id),
      (∀ u, (f u).docId = u.docId) → t ∈ db.tasks.updateWhere q f hf →
        (∃ u ∈ db.tasks, u.docId = t.docId) ∨ ∃ ts, op = .insertTasks ts ∧ t ∈ ts := by
    intro q f hf hdoc h
    rcases Table.mem_updateWhere.mp h with ⟨h, -⟩ | ⟨u, hu, -, rfl⟩
    · exact hsame h
    · exact Or.inl ⟨u, hu, (hdoc u).symm⟩
  cases op with
  | updateChunkIds id ids =>
      exact hupdate (f := fun t => { t with chunkIds := ids }) (fun _ => rfl) (fun _ => rfl) ht
  | insertTasks ts =>
      cases ts with
      | nil => exact hsame ht
      | cons u ts =>
          rcases Table.mem_foldl_upsert ht with ht | ht
          · exact hsame ht
          · exact Or.inr ⟨_, rfl, ht⟩
  | deleteTasks id => exact hsame (Table.mem_deleteWhere.mp ht).1
  | updateProgress id prog =>
      simp only [Db.apply] at ht
      split at ht
      · exact hsame ht
      · exact hupdate (f := Task.setProgress db.engine.number prog) (fun _ => rfl) (fun _ => rfl) ht
  | saveDocument | insertDirectory | insertFile | insertFile2Document =>
      simp only [Db.apply, Db.orRaise] at ht
      split at ht <;> exact hsame ht
  | deleteDocumentAndUpdateKbCounts id =>
      simp only [Db.apply, Db.deleteDocumentAndUpdateKbCounts] at ht
      split at ht <;> exact hsame ht
  | getFile id =>
      simp only [Db.apply] at ht
      split at ht <;> exact hsame ht
  | osStat answer => cases answer <;> exact hsame ht
  | kbFolder tenantId =>
      obtain ⟨files, n, -, hdb⟩ := getKbFolder_writes uuid tenantId db
      have htasks : (Db.getKbFolder uuid tenantId db).2.tasks = db.tasks := by rw [hdb]
      exact hsame (htasks ▸ ht)
  | _ => exact hsame ht

/-- The queue only grows. -/
theorem queue_apply (uuid : ℕ → Str) (op : Op) (db : Db) :
    db.queue <+: (Db.apply uuid op db).2.queue := by
  cases op with
  | queueProduct t => exact List.prefix_append _ _
  | insertTasks ts => cases ts <;> exact List.prefix_rfl
  | updateProgress id prog => simp only [Db.apply]; split <;> exact List.prefix_rfl
  | saveDocument | insertDirectory | insertFile | insertFile2Document =>
      simp only [Db.apply, Db.orRaise]
      split <;> exact List.prefix_rfl
  | deleteDocumentAndUpdateKbCounts id =>
      simp only [Db.apply, Db.deleteDocumentAndUpdateKbCounts]
      split <;> exact List.prefix_rfl
  | getFile id => simp only [Db.apply]; split <;> exact List.prefix_rfl
  | osStat answer => cases answer <;> exact List.prefix_rfl
  | kbFolder tenantId =>
      obtain ⟨files, n, -, hdb⟩ := getKbFolder_writes uuid tenantId db
      have hqueue : (Db.getKbFolder uuid tenantId db).2.queue = db.queue := by rw [hdb]
      exact hqueue ▸ List.prefix_rfl
  | _ => exact List.prefix_rfl

/-! ### Identifiers -/

section identifiers
variable {uuid : ℕ → Str} {db : Db} {Q : Str → Prop}

/-- The identifier has been drawn. -/
def Spent (uuid : ℕ → Str) (id : Str) (db : Db) : Prop := ∃ m < db.nextUuid, id = uuid m

/-- No document and no task belongs to an identifier that is yet to be drawn. -/
structure Ahead (uuid : ℕ → Str) (db : Db) : Prop where
  documents : ∀ n, db.nextUuid ≤ n → ∀ s ∈ db.stamps, s.id ≠ uuid n
  tasks : ∀ n, db.nextUuid ≤ n → ∀ t ∈ db.tasks, t.docId ≠ uuid n

theorem ahead_of_fresh (h : Fresh uuid db) : Ahead uuid db := by
  refine ⟨fun n hn s hs => ?_, h.tasks⟩
  obtain ⟨d, hd, rfl⟩ := mem_stamps.mp hs
  exact h.documents n hn d hd

/-- Documents and tasks are inserted for identifiers in `Q` only. -/
def Op.For (Q : Str → Prop) : Op → Prop
  | .saveDocument d => Q d.id
  | .insertTasks ts => ∀ t ∈ ts, Q t.docId
  | _ => True

def insertsFor (Q : Str → Prop) : Terms := ⟨fun c => Op.For Q c.op, fun _ _ => True⟩

theorem idle_within_insertsFor (Q : Str → Prop) : idle.Within (insertsFor Q) := by
  refine ⟨?_, fun _ _ _ => trivial⟩
  rintro ⟨site, op⟩ ⟨hop, -⟩
  cases op <;> trivial

theorem removal_within_insertsFor (Q : Str → Prop) (id : Str) :
    (removal id).Within (insertsFor Q) := by
  refine ⟨?_, fun _ _ _ => trivial⟩
  rintro ⟨site, op⟩ ⟨hop, -⟩
  cases op <;> trivial

theorem link_within_insertsFor {id : Str} (hid : Q id) : (link true id).Within (insertsFor Q) := by
  refine ⟨?_, fun c r _ => link_answers id c r⟩
  rintro ⟨site, op⟩ ⟨hop, -⟩
  cases op with
  | insertTasks ts => exact fun t ht => (hop t ht).1 ▸ hid
  | saveDocument d => exact hop.elim
  | _ => trivial

/-- What is inserted for identifiers that have been drawn is no obstacle. -/
theorem ahead_apply (hinj : Function.Injective uuid) {op : Op} (hop : Op.For Q op)
    (hQ : ∀ id, Q id → Spent uuid id db) (h : Ahead uuid db) :
    Ahead uuid (Db.apply uuid op db).2 := by
  have hspent : ∀ n id, db.nextUuid ≤ n → Q id → id ≠ uuid n := by
    intro n id hn hid heq
    obtain ⟨m, hm, hid⟩ := hQ id hid
    have hmn := hinj (hid.symm.trans heq)
    omega
  have hnext := nextUuid_apply uuid op db
  refine ⟨fun n hn s hs => ?_, fun n hn t ht => ?_⟩
  · rcases stamps_apply uuid op db with heq | ⟨d, rfl, -, heq⟩ | ⟨id, -, heq⟩
    · exact h.documents n (hnext.trans hn) s (heq ▸ hs)
    · rw [heq, List.mem_append, List.mem_singleton] at hs
      rcases hs with hs | rfl
      · exact h.documents n (hnext.trans hn) s hs
      · exact hspent n d.id (hnext.trans hn) hop
    · rw [heq] at hs
      exact h.documents n (hnext.trans hn) s (List.mem_filter.mp hs).1
  · rcases tasks_apply uuid op db ht with ⟨u, hu, hdoc⟩ | ⟨ts, rfl, hts⟩
    · exact hdoc ▸ h.tasks n (hnext.trans hn) u hu
    · exact hspent n t.docId (hnext.trans hn) (hop t hts)

/-- The identifiers in `Q` have been drawn, and nothing is ahead of them. -/
def Numbered (uuid : ℕ → Str) (Q : Str → Prop) (db : Db) : Prop :=
  Ahead uuid db ∧ ∀ id, Q id → Spent uuid id db

theorem insertsFor_keeps {su : Surroundings} (hinj : Function.Injective su.uuid)
    (Q : Str → Prop) :
    (insertsFor Q).Keeps (handle su) (fun w => Numbered su.uuid Q w.db) := by
  refine Terms.keeps_handle su (fun c db hc hdb => ⟨⟨?_, ?_⟩, fun _ _ => trivial⟩)
  · exact ahead_apply hinj hc hdb.2 hdb.1
  · intro id hid
    obtain ⟨m, hm, heq⟩ := hdb.2 id hid
    exact ⟨m, hm.trans_le (nextUuid_apply su.uuid c.op db), heq⟩

end identifiers

/-! ### The imports keep the identifiers in order -/

section order
variable {su : Surroundings} {env : ScanEnv} {req : ScanRequest} {plan : ScanPlan}

theorem handle_uuid4 (site : Site) (w : World) :
    handle su ⟨site, .uuid4⟩ w =
      if su.raises site then (.error .failure, { w with raised := w.raised ++ [site] })
      else (.ok (su.uuid w.db.nextUuid),
        { w with db := { w.db with nextUuid := w.db.nextUuid + 1 } }) := rfl

/-- Drawing an identifier. -/
theorem uuid4_ahead (p : Point) (key : Str) :
    Triple (handle su) (fun w => Ahead su.uuid w.db) (issue p key .uuid4)
      (fun id w => Numbered su.uuid (· = id) w.db) (fun _ w => Ahead su.uuid w.db) := by
  refine Triple.perform ?_ ?_
  · intro w id w' hw hr
    rw [handle_uuid4] at hr
    split_ifs at hr
    · cases hr
    · cases hr
      refine ⟨⟨fun n hn => hw.documents n (Nat.le_of_succ_le hn),
        fun n hn => hw.tasks n (Nat.le_of_succ_le hn)⟩, ?_⟩
      rintro id rfl
      exact ⟨w.db.nextUuid, Nat.lt_succ_self _, rfl⟩
  · intro w e w' hw hr
    rw [handle_uuid4] at hr
    split_ifs at hr
    · cases hr
      exact hw
    · cases hr

/-- Statements that insert nothing. -/
theorem nothing_ahead (hinj : Function.Injective su.uuid) {α : Type} {R : α → Prop}
    {p : Service α} (hp : Only (insertsFor (fun _ => False)) R p) :
    Triple (handle su) (fun w => Ahead su.uuid w.db) p (fun _ w => Ahead su.uuid w.db)
      (fun _ w => Ahead su.uuid w.db) :=
  (Triple.of_only hp (insertsFor_keeps hinj _)).weaken (fun _ h => ⟨h, fun _ h => h.elim⟩)
    (fun _ _ h => h.2.1) (fun _ _ h => h.1)

theorem importNew_ahead (hinj : Function.Injective su.uuid) (f : WalkEntry) (id : Str) :
    Triple (handle su) (fun w => Numbered su.uuid (· = id) w.db) (importNew env req plan f id)
      (fun _ w => Ahead su.uuid w.db) (fun _ w => Ahead su.uuid w.db) := by
  have himport : ImportableAs env plan (insertsFor (· = id)) f id :=
    ⟨trivial, trivial, fun _ _ => rfl, true, link_within_insertsFor rfl⟩
  exact (Triple.of_only (importNew_uses himport).only (insertsFor_keeps hinj _)).weaken
    (fun _ h => h) (fun _ _ h => h.2.1) (fun _ _ h => h.1)

theorem importFile_ahead (hinj : Function.Injective su.uuid) (f : WalkEntry) :
    Triple (handle su) (fun w => Ahead su.uuid w.db) (importFile env req plan f)
      (fun _ w => Ahead su.uuid w.db) (fun _ w => Ahead su.uuid w.db) := by
  refine Triple.bind (nothing_ahead hinj (Only.perform trivial)) (fun existing => ?_)
  refine Triple.ite (fun _ => ?_) (fun _ => Triple.pure (fun _ h => h))
  exact Triple.bind (uuid4_ahead _ _) (fun id => importNew_ahead hinj f id)

theorem importStep_ahead (hinj : Function.Injective su.uuid) (t : Tally) (f : WalkEntry) :
    Triple (handle su) (fun w => Ahead su.uuid w.db) (importStep env req plan t f)
      (fun _ w => Ahead su.uuid w.db) (fun _ w => Ahead su.uuid w.db) := by
  refine Triple.tryCatch (Triple.bind (importFile_ahead hinj f) (fun id => ?_))
    (fun _ => Triple.pure (fun _ h => h))
  cases id with
  | none => exact Triple.pure (fun _ h => h)
  | some id => exact Triple.pure (fun _ h => h)

theorem importAll_ahead (hinj : Function.Injective su.uuid) (files : List WalkEntry) : ∀ t,
    Triple (handle su) (fun w => Ahead su.uuid w.db) (importAll env req plan t files)
      (fun _ w => Ahead su.uuid w.db) (fun _ w => Ahead su.uuid w.db) := by
  induction files with
  | nil => exact fun _ => Triple.pure (fun _ h => h)
  | cons f files ih => exact fun t => Triple.bind (importStep_ahead hinj t f) ih

end order

/-! ### The imports of the other files -/

section others
variable {su : Surroundings} {env : ScanEnv} {req : ScanRequest} {plan : ScanPlan} {path : Str}

/-- The stamps at the path are those of `db₀`. -/
def SameAt (path : Str) (db₀ db : Db) : Prop :=
  ∀ s : Stamp, s.location = some path → (s ∈ db.stamps ↔ s ∈ db₀.stamps)

/-- Documents are saved at other paths and none is deleted. -/
def Op.Beside (path : Str) : Op → Prop
  | .saveDocument d => d.location ≠ some path
  | .deleteDocumentAndUpdateKbCounts _ => False
  | _ => True

def beside (path : Str) : Terms := ⟨fun c => Op.Beside path c.op, fun _ _ => True⟩

theorem link_within_beside (path id : Str) : (link true id).Within (beside path) := by
  refine ⟨?_, fun c r _ => link_answers id c r⟩
  rintro ⟨site, op⟩ ⟨hop, -⟩
  cases op <;> trivial

theorem beside_keeps (path : Str) (db₀ : Db) :
    (beside path).Keeps (handle su) (fun w => SameAt path db₀ w.db) := by
  refine Terms.keeps_handle su (fun c db hc hdb => ⟨fun s hs => ?_, fun _ _ => trivial⟩)
  obtain ⟨site, op⟩ := c
  show s ∈ (Db.apply su.uuid op db).2.stamps ↔ _
  rcases stamps_apply su.uuid op db with heq | ⟨d, rfl, -, heq⟩ | ⟨id, rfl, -⟩
  · rw [heq]
    exact hdb s hs
  · have hne : s ≠ d.stamp := by
      rintro rfl
      exact hc hs
    rw [heq, List.mem_append, List.mem_singleton, or_iff_left hne]
    exact hdb s hs
  · exact hc.elim

/-- The imports of other files. -/
theorem importAll_beside {files : List WalkEntry} (hfiles : ∀ g ∈ files, g.path ≠ path)
    (t : Tally) :
    Uses (beside path) (Imported Anything files t) (importAll env req plan t files) := by
  refine importAll_uses files (fun _ _ => trivial) (fun g hg _ => ?_) t
  refine ⟨trivial, fun _ _ => trivial, fun id _ => ⟨trivial, trivial, fun _ _ => ?_, true,
    link_within_beside path id⟩⟩
  intro hloc
  exact hfiles g hg (Option.some_inj.mp hloc)

theorem importAll_sameAt {files : List WalkEntry} (hfiles : ∀ g ∈ files, g.path ≠ path)
    {t t' : Tally} {w w' : World}
    (h : (importAll env req plan t files).exec su w = (.ok t', w')) :
    SameAt path w.db w'.db ∧ Imported Anything files t t' := by
  obtain ⟨hsame, himported⟩ := Service.exec_keeps h (importAll_beside hfiles t).only
    (beside_keeps path w.db) (fun _ _ => Iff.rfl)
  exact ⟨hsame, himported t' rfl⟩

end others

/-! ### The turn of a file -/

/-- The tally after the import of a file with the outcome `r`. -/
def Tally.after (t : Tally) (f : WalkEntry) : Except Err (Option Str) → Tally
  | .ok none => { t with skipped := t.skipped + 1 }
  | .ok (some id) => { t with imported := t.imported ++ [id] }
  | .error e => { t with errors := t.errors ++ [(f.rel, e)] }

section turn
variable {su : Surroundings} {env : ScanEnv} {req : ScanRequest} {plan : ScanPlan} {f : WalkEntry}

theorem importStep_exec (t : Tally) (f : WalkEntry) (w : World) :
    (importStep env req plan t f).exec su w =
      (.ok (Tally.after t f ((importFile env req plan f).exec su w).1),
        ((importFile env req plan f).exec su w).2) := by
  unfold importStep Service.exec
  rw [Prog.exec_tryCatch, Prog.exec_bind]
  rcases Prog.exec (handle su) (importFile env req plan f) w with ⟨r, w'⟩
  cases r with
  | error e => rfl
  | ok id =>
      cases id with
      | none => rfl
      | some id => rfl

theorem importAll_append (pre post : List WalkEntry) : ∀ t : Tally,
    importAll env req plan t (pre ++ post) =
      importAll env req plan t pre >>= fun t => importAll env req plan t post := by
  induction pre with
  | nil => exact fun _ => rfl
  | cons f pre ih =>
      intro t
      show (importStep env req plan t f >>= fun t => importAll env req plan t (pre ++ post)) = _
      simp only [ih]
      exact (Prog.bind_assoc _ _ _).symm

/-- The imports before a file, its own and those after it. -/
theorem importAll_turn {pre post : List WalkEntry} {t t' : Tally} {w w' : World}
    (h : (importAll env req plan t (pre ++ f :: post)).exec su w = (.ok t', w')) :
    ∃ t₁ w₁ r w₂, (importAll env req plan t pre).exec su w = (.ok t₁, w₁) ∧
      (importFile env req plan f).exec su w₁ = (r, w₂) ∧
      (importAll env req plan (Tally.after t₁ f r) post).exec su w₂ = (.ok t', w') := by
  rw [importAll_append] at h
  obtain ⟨t₁, w₁, hpre, h⟩ := Service.exec_bind_eq_ok h
  obtain ⟨t₂, w₂, hstep, hpost⟩ := Service.exec_bind_eq_ok h
  rw [importStep_exec] at hstep
  obtain ⟨ht, hw⟩ := Prod.mk.inj hstep
  cases ht
  exact ⟨t₁, w₁, _, w₂, hpre, Prod.ext rfl hw, hpost⟩

/-- The exception reported for a file is that of its own import. -/
theorem mem_errors_iff {pre post : List WalkEntry} {t t₁ t' : Tally} {r : Except Err (Option Str)}
    (hpre : Imported Anything pre t t₁) (hpost : Imported Anything post (Tally.after t₁ f r) t')
    (ht : t.errors = []) (hrel : ∀ g ∈ pre ++ post, g.rel ≠ f.rel) {e : Err} :
    (f.rel, e) ∈ t'.errors ↔ r = .error e := by
  have hbefore : (f.rel, e) ∉ t₁.errors := by
    intro hmem
    rcases hpre.errors _ hmem with hmem | ⟨g, hg, heq⟩
    · rw [ht] at hmem
      exact List.not_mem_nil hmem
    · exact hrel g (List.mem_append_left _ hg) heq.symm
  constructor
  · intro hmem
    rcases hpost.errors _ hmem with hmem | ⟨g, hg, heq⟩
    · cases r with
      | ok id =>
          cases id with
          | none => exact absurd hmem hbefore
          | some id => exact absurd hmem hbefore
      | error e' =>
          rcases List.mem_append.mp hmem with hmem | hmem
          · exact absurd hmem hbefore
          · cases List.mem_singleton.mp hmem
            rfl
    · exact absurd heq.symm (hrel g (List.mem_append_right _ hg))
  · rintro rfl
    exact hpost.reports.subset (List.mem_append_right _ List.mem_cons_self)

end turn

/-! ### The import of the file -/

section file
variable {su : Surroundings} {env : ScanEnv} {req : ScanRequest} {plan : ScanPlan} {f : WalkEntry}

/-- The row of the file fits the columns. -/
def Fits (env : ScanEnv) (f : WalkEntry) : Bool :=
  (env.fs.stat f.path).all (fun st =>
    st.1 < integerBound && (basename f.path).length ≤ 255 &&
      (lastDotPart (basename f.path)).length ≤ 32 && f.path.length ≤ 1024 &&
      (mtimeHash st.2).length ≤ 32)

theorem fits_newDocument {st : ℕ × ℚ} (hstat : env.fs.stat f.path = some st) (id : Str) :
    (newDocument env plan id f st.1 (mtimeHash st.2)).fits = Fits env f := by
  unfold Fits Document.fits newDocument scanClass
  rw [hstat]
  simp only [Option.all_some, Bool.and_assoc, Bool.and_self_left]

/-- One of the steps up to the saving of the row raises: it is made to, or the row does not fit. -/
def Early (su : Surroundings) (env : ScanEnv) (f : WalkEntry) : Prop :=
  (∃ p ∈ [Point.docUuid, .getsize, .getmtime, .docSave], su.raises ⟨p, f.path⟩ = true) ∨
    Fits env f = false

/-- The query for the path finds a document: the file is skipped. -/
theorem importFile_taken (hquery : su.raises ⟨.docsAt, f.path⟩ = false) {w : World}
    (htaken : ∃ s ∈ w.db.stamps, s.FoundAt w.db.engine.collation plan.kb.id f.path) :
    (importFile env req plan f).exec su w = (.ok none, w) := by
  obtain ⟨s, hs, hfound⟩ := htaken
  unfold importFile
  rw [Service.exec_bind_ok (exec_issue_ok hquery rfl), if_neg]
  · rfl
  · intro hempty
    exact docsAt_eq_nil.mp (List.isEmpty_iff.mp hempty) s hs hfound

/-- The query finds nothing: the import goes on. -/
theorem importFile_free (hquery : su.raises ⟨.docsAt, f.path⟩ = false) {w : World}
    (hfree : ∀ s ∈ w.db.stamps, ¬s.FoundAt w.db.engine.collation plan.kb.id f.path) :
    (importFile env req plan f).exec su w =
      (issue .docUuid f.path .uuid4 >>= fun id => importNew env req plan f id).exec su w := by
  unfold importFile
  rw [Service.exec_bind_ok (exec_issue_ok hquery rfl),
    if_pos (List.isEmpty_iff.mpr (docsAt_eq_nil.mpr hfree))]

/-- The rest of the import after the row is saved. -/
theorem stamps_rest {α : Type} {Q : α → Prop} {p : Service α} (hp : Only stampless Q p)
    {w w' : World} {r : Except Err α} (h : p.exec su w = (r, w')) : w'.db.stamps = w.db.stamps := by
  have hkeeps : stampless.Keeps (handle su) (fun x => x.db.stamps = w.db.stamps) :=
    Terms.keeps_handle su
      (fun _ db hc hdb => ⟨(Op.Stampless.apply hc su.uuid db).trans hdb, fun _ _ => trivial⟩)
  exact (Service.exec_keeps h hp hkeeps rfl).1

/-- The row is saved under a new identifier unless the saving is made to raise or the row does not
fit. -/
theorem insertDocument_stamps {α : Type} {Q : α → Prop} {d : Document} {rest : Unit → Service α}
    (hrest : ∀ u, Only stampless Q (rest u)) {w w' : World} {r : Except Err α}
    (hid : ∀ s ∈ w.db.stamps, s.id ≠ d.id)
    (h : (insertDocument f.path d >>= rest).exec su w = (r, w')) :
    ((su.raises ⟨.docSave, f.path⟩ = true ∨ d.fits = false) ∧ w'.db.stamps = w.db.stamps ∧
        ∃ e, r = .error e) ∨
      (su.raises ⟨.docSave, f.path⟩ = false ∧ d.fits = true ∧
        w'.db.stamps = w.db.stamps ++ [d.stamp]) := by
  unfold insertDocument at h
  rw [Prog.bind_assoc] at h
  cases hsave : su.raises ⟨.docSave, f.path⟩ with
  | true =>
      rw [Service.exec_bind_error (exec_issue_raises hsave)] at h
      cases h
      exact Or.inl ⟨Or.inl rfl, rfl, _, rfl⟩
  | false =>
      have hnew : d.id ∉ w.db.documents.rows.map (·.id) := by
        intro hmem
        obtain ⟨x, hx, hxid⟩ := List.mem_map.mp hmem
        exact hid x.stamp (mem_stamps.mpr ⟨x, hx, rfl⟩) hxid
      cases hfits : d.fits with
      | false =>
          have hrefused : Db.apply su.uuid (.saveDocument { d with tokenNum := 0, chunkNum := 0 })
              w.db = (.error .dataError, w.db) := by
            have hfits' : Document.fits { d with tokenNum := 0, chunkNum := 0 } = false := hfits
            simp only [Db.apply, hfits', Db.orRaise]
          rw [Service.exec_bind_error (exec_issue_error hsave hrefused)] at h
          cases h
          exact Or.inl ⟨Or.inr rfl, rfl, _, rfl⟩
      | true =>
          have hok : ∃ db', Db.apply su.uuid
              (.saveDocument { d with tokenNum := 0, chunkNum := 0 }) w.db = (.ok (), db') ∧
              db'.stamps = w.db.stamps ++ [d.stamp] := by
            have hfits' : Document.fits { d with tokenNum := 0, chunkNum := 0 } = true := hfits
            simp only [Db.apply, hfits', Table.insert?, dif_neg hnew, Db.orRaise]
            refine ⟨_, rfl, ?_⟩
            show (w.db.documents.rows ++ [_]).map Document.stamp = _
            rw [List.map_append]
            rfl
          obtain ⟨db', hdb, hstamps⟩ := hok
          rw [Service.exec_bind_ok (exec_issue_ok hsave hdb)] at h
          refine Or.inr ⟨rfl, rfl, ?_⟩
          rw [← hstamps]
          refine stamps_rest (Q := Q) (Only.bind (Q := Anything) ?_ (fun u _ => hrest u)) h
          refine Only.bind (Only.perform trivial)
            (fun num _ => Only.ite (fun _ => ?_) (fun _ => ?_))
          · exact Only.perform trivial
          · exact Only.pure trivial

/-- What an import under a new identifier comes to: one of its first steps raises and nothing is
saved, or the row is saved. -/
def Outcome (su : Surroundings) (env : ScanEnv) (plan : ScanPlan) (f : WalkEntry) (id : Str)
    (st : ℕ × ℚ) (w w' : World) (r : Except Err (Option Str)) : Prop :=
  (Early su env f ∧ w'.db.stamps = w.db.stamps ∧ ∃ e, r = .error e) ∨
    (¬Early su env f ∧ w'.db.stamps = w.db.stamps ++ [fileStamp plan.kb.id f id st])

theorem importNew_stamps {st : ℕ × ℚ} (hstat : env.fs.stat f.path = some st) {id : Str}
    {w w' : World} {r : Except Err (Option Str)} (hid : ∀ s ∈ w.db.stamps, s.id ≠ id)
    (hdraw : su.raises ⟨.docUuid, f.path⟩ = false)
    (h : (importNew env req plan f id).exec su w = (r, w')) :
    Outcome su env plan f id st w w' r := by
  have hos : ∀ w : World,
      Db.apply su.uuid (.osStat (env.fs.stat f.path)) w.db = (.ok st, w.db) := by
    intro w
    rw [hstat]
    rfl
  unfold importNew describeFile at h
  rw [Prog.bind_assoc] at h
  cases hsize : su.raises ⟨.getsize, f.path⟩ with
  | true =>
      rw [Service.exec_bind_error (exec_issue_raises hsize)] at h
      cases h
      exact Or.inl ⟨Or.inl ⟨.getsize, by simp, hsize⟩, rfl, _, rfl⟩
  | false =>
  rw [Service.exec_bind_ok (exec_issue_ok hsize (hos w)), Prog.bind_assoc] at h
  cases hmtime : su.raises ⟨.getmtime, f.path⟩ with
  | true =>
      rw [Service.exec_bind_error (exec_issue_raises hmtime)] at h
      cases h
      exact Or.inl ⟨Or.inl ⟨.getmtime, by simp, hmtime⟩, rfl, _, rfl⟩
  | false =>
  rw [Service.exec_bind_ok (exec_issue_ok hmtime (hos w))] at h
  have hrest : ∀ d : Document, Only stampless Anything (linkFile env req plan f d >>= fun _ =>
      (pure (some id) : Service (Option Str))) := fun d =>
    Only.bind ((linkFile_uses env req plan f d).within (link_within_stampless d.id)).only
      (fun _ _ => Only.pure trivial)
  have hnew : ∀ s ∈ w.db.stamps,
      s.id ≠ (newDocument env plan id f st.1 (mtimeHash st.2)).id := hid
  have hinsert := insertDocument_stamps (fun _ => hrest _) hnew h
  rw [fits_newDocument hstat] at hinsert
  rcases hinsert with ⟨hsave | hfits, hsame⟩ | ⟨hsave, hfits, hadd⟩
  · exact Or.inl ⟨Or.inl ⟨.docSave, by simp, hsave⟩, hsame⟩
  · exact Or.inl ⟨Or.inr hfits, hsame⟩
  · refine Or.inr ⟨?_, hadd⟩
    rintro (⟨p, hp, hraise⟩ | hunfit)
    · simp only [List.mem_cons, List.not_mem_nil, or_false] at hp
      rcases hp with rfl | rfl | rfl | rfl
      · exact absurd hraise (by simp [hdraw])
      · exact absurd hraise (by simp [hsize])
      · exact absurd hraise (by simp [hmtime])
      · exact absurd hraise (by simp [hsave])
    · exact absurd hunfit (by simp [hfits])

/-- The import of a file for whose path the query finds nothing. -/
theorem importFile_stamps {st : ℕ × ℚ} (hstat : env.fs.stat f.path = some st)
    (hquery : su.raises ⟨.docsAt, f.path⟩ = false) {w w' : World} {r : Except Err (Option Str)}
    (hfree : ∀ s ∈ w.db.stamps, ¬s.FoundAt w.db.engine.collation plan.kb.id f.path)
    (hw : Ahead su.uuid w.db) (h : (importFile env req plan f).exec su w = (r, w')) :
    Outcome su env plan f (su.uuid w.db.nextUuid) st w w' r := by
  rw [importFile_free hquery hfree] at h
  cases hdraw : su.raises ⟨.docUuid, f.path⟩ with
  | true =>
      rw [Service.exec_bind_error (exec_issue_raises hdraw)] at h
      cases h
      exact Or.inl ⟨Or.inl ⟨.docUuid, by simp, hdraw⟩, rfl, _, rfl⟩
  | false =>
      rw [Service.exec_bind_ok (exec_issue_ok hdraw rfl)] at h
      have hid : ∀ s ∈ ({ w.db with nextUuid := w.db.nextUuid + 1 } : Db).stamps,
          s.id ≠ su.uuid w.db.nextUuid := hw.documents _ (le_refl _)
      have hnew := importNew_stamps
        (w := { w with db := { w.db with nextUuid := w.db.nextUuid + 1 } }) hstat hid hdraw h
      exact hnew

/-! ### The imports when nothing is made to raise -/

theorem early_calm_iff {uuid : ℕ → Str} : Early (calm uuid) env f ↔ Fits env f = false := by
  refine ⟨fun h => h.resolve_left ?_, Or.inr⟩
  rintro ⟨p, -, hraise⟩
  cases hraise

/-- After the imports of `files` the documents are those of before and some at the paths of files
whose rows fit, and the query for the path of each of these finds one. -/
structure ImportsFound (env : ScanEnv) (c : Collation) (kbId : Str) (files : List WalkEntry)
    (old new : List Stamp) : Prop where
  kept : old ⊆ new
  added : ∀ s ∈ new, s ∈ old ∨ ∃ f ∈ files, Fits env f = true ∧ s.location = some f.path
  found : ∀ f ∈ files, Fits env f = true → ∃ s ∈ new, s.FoundAt c kbId f.path

theorem ImportsFound.cons {c : Collation} {kbId : Str} {files : List WalkEntry}
    {old mid new : List Stamp} (hfile : ImportsFound env c kbId [f] old mid)
    (hrest : ImportsFound env c kbId files mid new) :
    ImportsFound env c kbId (f :: files) old new := by
  refine ⟨fun s hs => hrest.kept (hfile.kept hs), fun s hs => ?_, fun g hg hfits => ?_⟩
  · rcases hrest.added s hs with hs | ⟨g, hg, hadded⟩
    · rcases hfile.added s hs with hs | ⟨g, hg, hadded⟩
      · exact Or.inl hs
      · exact Or.inr ⟨g, List.mem_cons.mpr (Or.inl (List.mem_singleton.mp hg)), hadded⟩
    · exact Or.inr ⟨g, List.mem_cons_of_mem f hg, hadded⟩
  · rcases List.mem_cons.mp hg with rfl | hg
    · obtain ⟨s, hs, hfound⟩ := hfile.found g List.mem_cons_self hfits
      exact ⟨s, hrest.kept hs, hfound⟩
    · exact hrest.found g hg hfits

theorem importFile_found {uuid : ℕ → Str} (hstat : (env.fs.stat f.path).isSome) {w w' : World}
    {r : Except Err (Option Str)} (hw : Ahead uuid w.db)
    (h : (importFile env req plan f).exec (calm uuid) w = (r, w')) :
    ImportsFound env w.db.engine.collation plan.kb.id [f] w.db.stamps w'.db.stamps := by
  obtain ⟨st, hst⟩ := Option.isSome_iff_exists.mp hstat
  by_cases hfree : ∀ s ∈ w.db.stamps, ¬s.FoundAt w.db.engine.collation plan.kb.id f.path
  · rcases importFile_stamps hst rfl hfree hw h with ⟨hearly, hsame, -⟩ | ⟨hlate, hadd⟩
    · rw [hsame]
      refine ⟨fun _ hs => hs, fun _ hs => Or.inl hs, fun g hg hfits => ?_⟩
      rw [List.mem_singleton.mp hg, early_calm_iff.mp hearly] at hfits
      cases hfits
    · rw [early_calm_iff, Bool.not_eq_false] at hlate
      rw [hadd]
      refine ⟨List.subset_append_left _ _, fun s hs => ?_, fun g hg _ => ?_⟩
      · rcases List.mem_append.mp hs with hs | hs
        · exact Or.inl hs
        · rw [List.mem_singleton.mp hs]
          exact Or.inr ⟨f, List.mem_singleton_self f, hlate, rfl⟩
      · rw [List.mem_singleton.mp hg]
        exact ⟨_, List.mem_append_right _ List.mem_cons_self, rfl, _, rfl, rfl⟩
  · push Not at hfree
    have htaken : (importFile env req plan f).exec (calm uuid) w = (.ok none, w) :=
      importFile_taken rfl hfree
    cases htaken.symm.trans h
    refine ⟨fun _ hs => hs, fun _ hs => Or.inl hs, fun g hg _ => ?_⟩
    rw [List.mem_singleton.mp hg]
    exact hfree

theorem importAll_found {uuid : ℕ → Str} (hinj : Function.Injective uuid)
    {files : List WalkEntry} (hstat : ∀ g ∈ files, (env.fs.stat g.path).isSome) {t t' : Tally}
    {w w' : World} (hw : Ahead uuid w.db)
    (h : (importAll env req plan t files).exec (calm uuid) w = (.ok t', w')) :
    ImportsFound env w.db.engine.collation plan.kb.id files w.db.stamps w'.db.stamps := by
  induction files generalizing t w with
  | nil =>
      cases h
      exact ⟨fun _ hs => hs, fun _ hs => Or.inl hs, fun g hg _ => absurd hg List.not_mem_nil⟩
  | cons f files ih =>
      obtain ⟨t₁, w₁, hstep, hrest⟩ := Service.exec_bind_eq_ok h
      have hahead := (@importStep_ahead (calm uuid) env req plan hinj t f w hw).1 t₁ w₁ hstep
      rw [importStep_exec] at hstep
      have himport : (importFile env req plan f).exec (calm uuid) w =
          (((importFile env req plan f).exec (calm uuid) w).1, w₁) :=
        Prod.ext rfl (Prod.mk.inj hstep).2
      have hfile := importFile_found (hstat f List.mem_cons_self) hw himport
      have hfiles := ih (fun g hg => hstat g (List.mem_cons_of_mem f hg)) hahead hrest
      rw [engine_exec himport] at hfiles
      exact hfile.cons hfiles

end file

/-! ### An import that succeeds queues a task -/

section queued
variable {uuid : ℕ → Str} {env : ScanEnv} {req : ScanRequest} {plan : ScanPlan} {f : WalkEntry}

/-- The queue has grown, also by a task of the document. -/
def Queued (id : Str) (q q' : List Task) : Prop := ∃ new, q' = q ++ new ∧ ∃ t ∈ new, t.docId = id

theorem Queued.after {id : Str} {q₀ q q' : List Task} (hq : q₀ <+: q) (h : Queued id q q') :
    Queued id q₀ q' := by
  obtain ⟨more, rfl⟩ := hq
  obtain ⟨new, rfl, t, ht, hid⟩ := h
  exact ⟨more ++ new, List.append_assoc _ _ _, t, List.mem_append_right _ ht, hid⟩

theorem Queued.before {id : Str} {q q' q₁ : List Task} (h : Queued id q q') (hq : q' <+: q₁) :
    Queued id q q₁ := by
  obtain ⟨more, rfl⟩ := hq
  obtain ⟨new, rfl, t, ht, hid⟩ := h
  exact ⟨new ++ more, List.append_assoc _ _ _, t, List.mem_append_left _ ht, hid⟩

/-- The queue after a run is that before it, and more. -/
theorem queue_exec {α : Type} {su : Surroundings} {p : Service α} {w w' : World}
    {r : Except Err α} (h : p.exec su w = (r, w')) : w.db.queue <+: w'.db.queue := by
  have hkeeps : (Contract.any : Terms).Keeps (handle su) (fun x => w.db.queue <+: x.db.queue) :=
    Terms.keeps_handle su (I := fun db => w.db.queue <+: db.queue)
      (fun c db _ hdb => ⟨hdb.trans (queue_apply su.uuid c.op db), fun _ _ => trivial⟩)
  exact (Service.exec_keeps h (Only.any p) hkeeps List.prefix_rfl).1

/-- The document has no tasks. -/
def NoTasks (id : Str) (db : Db) : Prop := ∀ t ∈ db.tasks, t.docId ≠ id

/-- No tasks are inserted. -/
def Op.Taskless : Op → Prop
  | .insertTasks _ => False
  | _ => True

def taskless : Terms := ⟨fun c => Op.Taskless c.op, fun _ _ => True⟩

theorem idle_within_taskless : idle.Within taskless := by
  refine ⟨?_, fun _ _ _ => trivial⟩
  rintro ⟨site, op⟩ ⟨hop, -⟩
  cases op <;> trivial

theorem noTasks_exec {α : Type} {Q : α → Prop} {su : Surroundings} {p : Service α} {w w' : World}
    {r : Except Err α} {id : Str} (hp : Only taskless Q p) (h : p.exec su w = (r, w'))
    (hw : NoTasks id w.db) : NoTasks id w'.db := by
  have hkeeps : taskless.Keeps (handle su) (fun x => NoTasks id x.db) := by
    refine Terms.keeps_handle su (fun c db hc hdb => ⟨fun t ht => ?_, fun _ _ => trivial⟩)
    rcases tasks_apply su.uuid c.op db ht with ⟨u, hu, hdoc⟩ | ⟨ts, hop, -⟩
    · exact hdoc ▸ hdb u hu
    · have hc : Op.Taskless c.op := hc
      rw [hop] at hc
      exact hc.elim
  exact (Service.exec_keeps h hp hkeeps hw).1

theorem builtTasks_docId {env : ParseEnv} {doc : Document} {bucket name : Str} {priority : ℤ}
    {n : ℕ} {d : Document} {kb : Knowledgebase} :
    ∀ t ∈ builtTasks env doc bucket name priority uuid n d kb, t.docId = doc.id := by
  have hnew : ∀ (rs : List (ℤ × ℤ)) n, ∀ t ∈ newTasksFrom doc uuid n rs, t.docId = doc.id := by
    intro rs
    induction rs with
    | nil => intro n t ht; exact absurd ht List.not_mem_nil
    | cons r rs ih =>
        intro n t ht
        rcases List.mem_cons.mp ht with rfl | ht
        · rfl
        · exact ih _ t ht
  intro t ht
  obtain ⟨i, hi, rfl⟩ := List.mem_mapIdx.mp ht
  show (newTasksFrom doc uuid n (taskRanges env doc bucket name))[i].docId = doc.id
  exact hnew _ n _ (List.getElem_mem hi)

theorem queueTasks_queued {su : Surroundings} {env : ParseEnv} {doc : Document} {bucket name : Str}
    {priority : ℤ} {w w' : World} (hw : NoTasks doc.id w.db)
    (h : (queueTasks env doc bucket name priority).exec su w = (.ok (), w')) :
    Queued doc.id w.db.queue w'.db.queue := by
  obtain ⟨d, kb, n, -, h⟩ := queueTasks_eq_ok h
  obtain ⟨r, w₁, hr, hne, tasks, hdb⟩ := enqueueTasks_eq_ok h
  have hprev : ({ w.db with nextUuid := n } : Db).getTasks doc.id = [] := by
    have hselect : w.db.tasks.select (·.docId = doc.id) = [] := by
      rw [List.eq_nil_iff_forall_not_mem]
      intro t ht
      rw [Table.mem_select, decide_eq_true_iff] at ht
      exact hw t ht.1 ht.2
    show (w.db.tasks.select (·.docId = doc.id)).insertionSort _ = []
    rw [hselect]
    rfl
  obtain ⟨rfl, tasks₁, chunks₁, hdb₁⟩ := reuseStep_eq_ok hr
  rw [hdb, hdb₁]
  rw [hprev, reuseAll_nil] at hne ⊢
  obtain ⟨t, ht⟩ := List.exists_mem_of_ne_nil _ hne
  refine ⟨_, rfl, t, List.mem_filter.mpr ⟨ht, ?_⟩, builtTasks_docId t ht⟩
  exact decide_eq_true (builtTasks_progress t ht)

/-- In calm surroundings the task of a pipeline is queued. -/
theorem queueDataflow_queued {env : ParseEnv} {doc : Document} {w w' : World}
    (h : (queueDataflow env doc).exec (calm uuid) w = (.ok (), w')) :
    Queued doc.id w.db.queue w'.db.queue := by
  obtain ⟨id, w₁, h₁, h⟩ := Service.exec_bind_eq_ok h
  obtain ⟨_, w₂, h₂, h⟩ := Service.exec_bind_eq_ok h
  obtain ⟨_, w₃, h₃, h⟩ := Service.exec_bind_eq_ok h
  obtain ⟨_, w₄, h₄, h⟩ := Service.exec_bind_eq_ok h
  obtain ⟨_, w₅, h₅, h⟩ := Service.exec_bind_eq_ok h
  have hprefix := (queue_exec h₁).trans ((queue_exec h₂).trans ((queue_exec h₃).trans
    ((queue_exec h₄).trans (queue_exec h₅))))
  cases h
  exact Queued.after hprefix ⟨_, rfl, _, List.mem_cons_self, rfl⟩

theorem startParsing_queued {env : ParseEnv} {doc : Document} {priority : ℤ} {w w' : World}
    (hw : NoTasks doc.id w.db)
    (h : (startParsing env doc priority).exec (calm uuid) w = (.ok (), w')) :
    Queued doc.id w.db.queue w'.db.queue := by
  unfold startParsing at h
  split_ifs at h
  · exact queueDataflow_queued h
  · obtain ⟨address, w₁, h₁, h⟩ := Service.exec_bind_eq_ok h
    have hw₁ := noTasks_exec
      ((getStorageAddress_uses doc.id).within idle_within_taskless).only h₁ hw
    exact Queued.after (queue_exec h₁) (queueTasks_queued hw₁ h)

/-- `DocumentService.run` on a document of a knowledge base. -/
theorem runDocument_queued {env : ParseEnv} {doc : Document} {counted : List Str} {priority : ℤ}
    {w w' : World} (hkb : doc.kbId ≠ []) (hw : NoTasks doc.id w.db)
    (h : (runDocument env doc counted priority).exec (calm uuid) w = (.ok (), w')) :
    Queued doc.id w.db.queue w'.db.queue := by
  unfold runDocument at h
  split_ifs at h with htable hempty hcounted
  · exact absurd (List.isEmpty_iff.mp hempty) hkb
  · exact startParsing_queued hw h
  · obtain ⟨_, w₁, h₁, h⟩ := Service.exec_bind_eq_ok h
    have hw₁ := noTasks_exec ((dropFieldMap_uses doc).within idle_within_taskless).only h₁ hw
    exact Queued.after (queue_exec h₁) (startParsing_queued hw₁ h)
  · exact startParsing_queued hw h

theorem describeFile_taskless (id : Str) :
    Only taskless Anything (describeFile env plan id f) := by
  refine Only.bind (Only.perform trivial) (fun size _ => ?_)
  refine Only.bind (Only.perform trivial) (fun mtime _ => ?_)
  exact Only.pure trivial

theorem insertDocument_taskless (key : Str) (d : Document) :
    Only taskless Anything (insertDocument key d) := by
  refine Only.bind (Only.perform trivial) (fun _ _ => ?_)
  refine Only.bind (Only.perform trivial) (fun num _ => ?_)
  exact Only.ite (fun _ => Only.perform trivial) (fun _ => Only.pure trivial)

theorem registerFile_taskless (d : Document) :
    Only taskless Anything (registerFile env plan f d) := by
  refine Only.bind (Only.perform trivial) (fun parentId _ => ?_)
  refine Only.bind (Only.perform trivial) (fun size _ => ?_)
  refine Only.bind (Only.perform trivial) (fun _ _ => ?_)
  exact Only.tryCatch (Only.perform trivial) (fun _ => Only.pure trivial)

/-- A new document that is imported without an exception has a task in the queue. -/
theorem importNew_queued {id : Str} {r : Option Str} {w w' : World} (hkb : plan.kb.id ≠ [])
    (hw : NoTasks id w.db)
    (h : (importNew env req plan f id).exec (calm uuid) w = (.ok r, w')) :
    r = some id ∧ Queued id w.db.queue w'.db.queue := by
  obtain ⟨d, w₁, h₁, h⟩ := Service.exec_bind_eq_ok h
  have hd : d.id = id ∧ d.kbId = plan.kb.id := by
    obtain ⟨size, w₂, h₂, h₃⟩ := Service.exec_bind_eq_ok h₁
    obtain ⟨mtime, w₃, h₃, h₄⟩ := Service.exec_bind_eq_ok h₃
    cases h₄
    exact ⟨rfl, rfl⟩
  obtain ⟨rfl, hdkb⟩ := hd
  obtain ⟨_, w₂, h₂, h⟩ := Service.exec_bind_eq_ok h
  obtain ⟨_, w₃, h₃, h⟩ := Service.exec_bind_eq_ok h
  cases h
  obtain ⟨_, w₄, h₄, h₅⟩ := Service.exec_bind_eq_ok h₃
  have hw₁ := noTasks_exec (describeFile_taskless d.id) h₁ hw
  have hw₂ := noTasks_exec (insertDocument_taskless f.path d) h₂ hw₁
  have hw₄ := noTasks_exec (registerFile_taskless d) h₄ hw₂
  have hprefix := (queue_exec h₁).trans ((queue_exec h₂).trans (queue_exec h₄))
  exact ⟨rfl, Queued.after hprefix (runDocument_queued (hdkb ▸ hkb) hw₄ h₅)⟩

/-- The import of a file for whose path the query finds nothing, when nothing raises. -/
theorem importFile_queued {r : Option Str} {w w' : World} (hkb : plan.kb.id ≠ [])
    (hfree : ∀ s ∈ w.db.stamps, ¬s.FoundAt w.db.engine.collation plan.kb.id f.path)
    (hw : Ahead uuid w.db)
    (h : (importFile env req plan f).exec (calm uuid) w = (.ok r, w')) :
    r = some (uuid w.db.nextUuid) ∧ Queued (uuid w.db.nextUuid) w.db.queue w'.db.queue := by
  rw [importFile_free rfl hfree, Service.exec_bind_ok (exec_issue_ok rfl rfl)] at h
  exact importNew_queued (w := { w with db := { w.db with nextUuid := w.db.nextUuid + 1 } }) hkb
    (hw.tasks _ (le_refl _)) h

end queued

/-! ### The turn of the file in a scan -/

section scan
variable {su : Surroundings} {env : ScanEnv} {req : ScanRequest} {plan : ScanPlan} {f : WalkEntry}
  {w w' : World}

/-- The files before a file. -/
def earlier (files : List WalkEntry) (f : WalkEntry) : List WalkEntry :=
  files.takeWhile (fun g => g.path ≠ f.path)

theorem earlier_of_split {pre post : List WalkEntry} (hpre : ∀ g ∈ pre, g.path ≠ f.path) :
    earlier (pre ++ f :: post) f = pre := by
  unfold earlier
  rw [List.takeWhile_append_of_pos (fun g hg => decide_eq_true (hpre g hg)),
    List.takeWhile_cons_of_neg (by simp), List.append_nil]

/-- Between the beginning `w` of the imports and their end `w'`, the file has its turn in `w₁`. -/
structure Turn (su : Surroundings) (env : ScanEnv) (req : ScanRequest) (plan : ScanPlan)
    (f : WalkEntry) (w w₁ w₂ w' : World) (r : Except Err (Option Str)) (t' : Tally) : Prop where
  ahead : Ahead su.uuid w.db → Ahead su.uuid w₁.db
  before : SameAt f.path w.db w₁.db
  reached : ∃ t t₁, (importAll env req plan t (earlier plan.files f)).exec su w = (.ok t₁, w₁)
  run : (importFile env req plan f).exec su w₁ = (r, w₂)
  after : SameAt f.path w₂.db w'.db
  queue : w.db.queue <+: w₁.db.queue ∧ w₂.db.queue <+: w'.db.queue
  errors : ∀ e, (f.rel, e) ∈ t'.errors ↔ r = .error e
  imported : ∀ id, r = .ok (some id) → id ∈ t'.imported

/-- The files before and after one of the files to import are others. -/
theorem filesToImport_split {dir : Str} (hf : f ∈ filesToImport env dir) :
    ∃ pre post, filesToImport env dir = pre ++ f :: post ∧
      ∀ g ∈ pre ++ post, g.path ≠ f.path ∧ g.rel ≠ f.rel := by
  obtain ⟨pre, post, hsplit⟩ := List.append_of_mem hf
  refine ⟨pre, post, hsplit, fun g hg => ?_⟩
  have hpaths : ((filesToImport env dir).map WalkEntry.path).Nodup :=
    (FileSystem.walk_nodup dir).sublist (List.filter_sublist.map _)
  have hperm : (pre ++ f :: post).Perm (f :: (pre ++ post)) := List.perm_middle
  rw [hsplit, (hperm.map WalkEntry.path).nodup_iff, List.map_cons, List.nodup_cons] at hpaths
  have hpath : g.path ≠ f.path := by
    intro heq
    exact hpaths.1 (heq ▸ List.mem_map_of_mem hg)
  refine ⟨hpath, fun hrel => hpath ?_⟩
  have hgmem : g ∈ filesToImport env dir :=
    hsplit ▸ hperm.mem_iff.mpr (List.mem_cons_of_mem f hg)
  rw [FileSystem.path_walk (List.mem_filter.mp hgmem).1,
    FileSystem.path_walk (List.mem_filter.mp hf).1, hrel]

theorem exists_turn (hfiles : plan.files = filesToImport env plan.path) (hf : f ∈ plan.files)
    (hinj : Function.Injective su.uuid) {t t' : Tally} (ht : t.errors = [])
    (h : (importAll env req plan t plan.files).exec su w = (.ok t', w')) :
    ∃ w₁ w₂ r, Turn su env req plan f w w₁ w₂ w' r t' := by
  rw [hfiles] at hf
  obtain ⟨pre, post, hsplit, hother⟩ := filesToImport_split hf
  rw [← hfiles] at hsplit
  rw [hsplit] at h
  have hearlier : earlier plan.files f = pre := by
    rw [hsplit]
    exact earlier_of_split (fun g hg => (hother g (List.mem_append_left _ hg)).1)
  obtain ⟨t₁, w₁, r, w₂, hpre, hrun, hpost⟩ := importAll_turn h
  obtain ⟨hsame, hpre'⟩ := importAll_sameAt
    (fun g hg => (hother g (List.mem_append_left _ hg)).1) hpre
  obtain ⟨hsame', hpost'⟩ := importAll_sameAt
    (fun g hg => (hother g (List.mem_append_right _ hg)).1) hpost
  refine ⟨w₁, w₂, r, ?_, hsame, ⟨t, t₁, hearlier ▸ hpre⟩, hrun, hsame',
    ⟨queue_exec hpre, queue_exec hpost⟩, ?_, ?_⟩
  · exact fun hw => (importAll_ahead hinj pre t w hw).1 t₁ w₁ hpre
  · exact fun e => mem_errors_iff hpre' hpost' ht (fun g hg => (hother g hg).2)
  · rintro id rfl
    exact hpost'.grows.subset (List.mem_append_right _ List.mem_cons_self)

/-- What the scan does before the imports: documents are removed at most. -/
structure Prelude (uuid : ℕ → Str) (db₀ db : Db) : Prop where
  ahead : Ahead uuid db
  stamps : db.stamps ⊆ db₀.stamps
  queue : db₀.queue <+: db.queue

theorem prelude_apply {uuid : ℕ → Str} (hinj : Function.Injective uuid) (db₀ : Db) :
    (insertsFor (fun _ => False)).Keeps (Call.apply uuid) (Prelude uuid db₀) := by
  refine fun c db hc hdb => ⟨⟨?_, ?_, ?_⟩, fun _ _ => trivial⟩
  · exact ahead_apply (Q := fun _ => False) hinj hc (fun _ h => h.elim) hdb.ahead
  · obtain ⟨site, op⟩ := c
    show (Db.apply uuid op db).2.stamps ⊆ db₀.stamps
    rcases stamps_apply uuid op db with heq | ⟨d, rfl, -⟩ | ⟨id, -, heq⟩
    · rw [heq]
      exact hdb.stamps
    · exact hc.elim
    · rw [heq]
      exact fun s hs => hdb.stamps (List.mem_filter.mp hs).1
  · exact hdb.queue.trans (queue_apply uuid c.op db)

theorem prelude_keeps (hinj : Function.Injective su.uuid) (db₀ : Db) :
    (insertsFor (fun _ => False)).Keeps (handle su) (fun x => Prelude su.uuid db₀ x.db) :=
  Terms.keeps_handle su (prelude_apply hinj db₀)

theorem ahead_prelude {db : Db} (h : Ahead su.uuid db) : Prelude su.uuid db db :=
  ⟨h, fun _ hs => hs, List.prefix_rfl⟩

/-- A scan that returns has come to its imports, and reports what they report. -/
theorem runScan_imports (hinj : Function.Injective su.uuid) (hw : Ahead su.uuid w.db)
    {report : ScanReport} (h : (runScan env req plan).exec su w = (.ok report, w')) :
    ∃ t w₁ t' w₂, Prelude su.uuid w.db w₁.db ∧ t.errors = [] ∧
      (importAll env req plan t plan.files).exec su w₁ = (.ok t', w₂) ∧ w'.db = w₂.db ∧
      report.imported = t'.imported ∧ report.errors = t'.errors := by
  obtain ⟨id, w₁, hdir, h⟩ := Service.exec_bind_eq_ok h
  obtain ⟨docs, w₂, hquery, h⟩ := Service.exec_bind_eq_ok h
  obtain ⟨t, w₃, hsweep, h⟩ := Service.exec_bind_eq_ok h
  obtain ⟨t', w₄, himport, h⟩ := Service.exec_bind_eq_ok h
  obtain ⟨_, w₅, htouch, h⟩ := Service.exec_bind_eq_ok h
  have hidle := idle_within_insertsFor (fun _ => False)
  have hkeeps := prelude_keeps hinj w.db
  have hw₁ := (Service.exec_keeps hdir ((directoryRecord_uses req plan).within hidle).only hkeeps
    (ahead_prelude hw)).1
  have hw₂ := (Service.exec_keeps hquery (Only.perform trivial) hkeeps hw₁).1
  have huses : Uses (insertsFor (fun _ => False)) (Swept true {}) (sweep env plan {} docs) :=
    sweep_uses hidle docs
      (fun d _ _ => Or.inr ⟨rfl, removal_within_insertsFor (fun _ => False) d.id⟩) {}
  obtain ⟨hw₃, hswept⟩ := Service.exec_keeps hsweep huses.only hkeeps hw₂
  obtain ⟨-, -, rfl⟩ := exec_issue_eq_ok htouch
  cases h
  exact ⟨t, w₃, t', w₄, hw₃, (hswept t rfl).errors, himport, rfl, rfl, rfl⟩

/-- The import of a file that a scan reports under its errors has left the path free, or a document
that is current. -/
theorem failed_cases {report : ScanReport} {e : Err} (hfresh : Fresh su.uuid w.db)
    (hquery : su.raises ⟨.docsAt, f.path⟩ = false)
    (hscan : (scanDirectory env req).exec su w = (.ok (.ok report), w'))
    (hf : f ∈ filesToImport env (abspath env.cwd req.path)) (herr : (f.rel, e) ∈ report.errors) :
    (Early su env f ∧ ∀ s ∈ w'.db.stamps, ¬s.At req.kbId f.path) ∨
      (¬Early su env f ∧ ∃ id st, env.fs.stat f.path = some st ∧
        fileStamp req.kbId f id st ∈ w'.db.stamps) := by
  obtain ⟨plan, hadmitted, hrun⟩ := scanDirectory_eq_ok hscan
  obtain ⟨hkb, hpath, hfiles⟩ := admitted_eq_ok hadmitted
  rw [← (Table.get?_eq_some.mp hkb).2]
  rw [← hpath, ← hfiles] at hf
  obtain ⟨st, hst⟩ := Option.isSome_iff_exists.mp (stat_filesToImport hfiles f hf)
  obtain ⟨t, w₀, t', w₃, hprelude, ht, himport, hdb, -, herrors⟩ :=
    runScan_imports hfresh.injective (ahead_of_fresh hfresh) hrun
  obtain ⟨w₁, w₂, r, hturn⟩ := exists_turn hfiles hf hfresh.injective ht himport
  have hahead := hturn.ahead hprelude.ahead
  obtain rfl := (hturn.errors e).mp (herrors ▸ herr)
  have hfree : ∀ s ∈ w₁.db.stamps, ¬s.FoundAt w₁.db.engine.collation plan.kb.id f.path := by
    intro s hs hfound
    have htaken : (importFile env req plan f).exec su w₁ = (.ok none, w₁) :=
      importFile_taken hquery ⟨s, hs, hfound⟩
    cases hturn.run.symm.trans htaken
  rw [hdb]
  rcases importFile_stamps hst hquery hfree hahead hturn.run with ⟨he, hsame, -⟩ | ⟨he, hadd⟩
  · refine Or.inl ⟨he, fun s hs hat => ?_⟩
    have hs₂ := (hturn.after s hat.2).mp hs
    exact hfree s (hsame ▸ hs₂) hat.foundAt
  · refine Or.inr ⟨he, su.uuid w₁.db.nextUuid, st, hst, (hturn.after _ rfl).mpr ?_⟩
    rw [hadd]
    exact List.mem_append_right _ List.mem_cons_self

end scan

/-! ### The later scan -/

/-- A later scan, from `w₁` on, in which nothing raises: it comes to the file, which is as it was,
and does not report it under its errors. -/
structure LaterScan (env : ScanEnv) (req : ScanRequest) (f : WalkEntry) (w₁ : World)
    (env₂ : ScanEnv) (req₂ : ScanRequest) (g : WalkEntry) (uuid₂ : ℕ → Str) (report₂ : ScanReport)
    (w₂ : World) : Prop where
  kb : req₂.kbId = req.kbId
  file : g ∈ filesToImport env₂ (abspath env₂.cwd req₂.path)
  path : g.path = f.path
  same : env₂.fs.stat f.path = env.fs.stat f.path
  fresh : Fresh uuid₂ w₁.db
  run : (scanDirectory env₂ req₂).exec (calm uuid₂) w₁ = (.ok (.ok report₂), w₂)
  clean : ∀ e, (g.rel, e) ∉ report₂.errors

/-- The later scan imports the file and queues a task of its document. -/
def Retried (kbId : Str) (f : WalkEntry) (w₁ : World) (report₂ : ScanReport) (w₂ : World) : Prop :=
  ∃ d ∈ w₂.db.documents, d.At kbId f.path ∧ d.id ∈ report₂.imported ∧
    Queued d.id w₁.db.queue w₂.db.queue

/-- The sweep of the directory removes the document. -/
def SweptAway (env : ScanEnv) (dir : Str) (d : Document) : Prop :=
  d.sourceType = localScan ∧ d.startsWith dir = true ∧
    ¬(d.location ∈ fileLocations env dir ∧ d.current env = true)

/-- When the file has its turn, the query for its path finds no other document: the sweep removes
those it would find, and no file before it whose row fits has a path that is taken for its own. -/
structure Unhindered (env : ScanEnv) (kbId dir : Str) (f : WalkEntry) (db : Db) : Prop where
  documents : ∀ d ∈ db.documents, d.location ≠ some f.path →
    d.stamp.FoundAt db.engine.collation kbId f.path → SweptAway env dir d
  files : ∀ g ∈ earlier (filesToImport env dir) f,
    db.engine.collation.key f.path = db.engine.collation.key g.path → Fits env g = false

section later
variable {env : ScanEnv} {plan : ScanPlan} {req : ScanRequest} {f : WalkEntry} {w₁ : World}

/-- Where texts are compared as they are, nothing stands in the way. -/
theorem unhindered_of_exact {kbId dir : Str} {db : Db} (h : db.engine.collation = .exact) :
    Unhindered env kbId dir f db := by
  refine ⟨fun d _ hne hfound => ?_, fun g hg hkey => ?_⟩
  · obtain ⟨-, loc, hloc, hkey⟩ := hfound
    rw [h] at hkey
    cases hkey
    exact absurd hloc hne
  · rw [h] at hkey
    have hne : g.path ≠ f.path := of_decide_eq_true (p := g.path ≠ f.path)
      (List.mem_takeWhile_imp (p := fun g : WalkEntry => g.path ≠ f.path) hg)
    exact absurd hkey.symm hne

theorem sweptAway_iff (hfiles : plan.files = filesToImport env plan.path) {d : Document} :
    SweptAway env plan.path d ↔ d.sourceType = localScan ∧ d.stale env plan = true := by
  have hlocs : fileLocations env plan.path = plan.files.map (fun f => some f.path) := by
    rw [hfiles]
    rfl
  unfold SweptAway
  rw [hlocs]
  cases hstarts : d.startsWith plan.path with
  | false => simp [Document.stale, hstarts]
  | true => rw [← not_stale_iff hstarts, Bool.not_eq_false, eq_self_iff_true, true_and]

/-- What the query finds at the turn of the file: its own document, or another. -/
theorem free_iff (hfiles : plan.files = filesToImport env plan.path) {uuid : ℕ → Str}
    (hinj : Function.Injective uuid) {t t' : Tally} {db₁ : Db}
    (hsweep : AfterSweep env plan w₁.db db₁ t) (hengine : db₁.engine = w₁.db.engine)
    (hahead : Ahead uuid db₁) {w w' w₂ : World} {r : Except Err (Option Str)}
    (hturn : Turn (calm uuid) env req plan f { w₁ with db := db₁ } w w' w₂ r t') :
    (∀ s ∈ w.db.stamps, ¬s.FoundAt w.db.engine.collation plan.kb.id f.path) ↔
      (∀ s ∈ w₁.db.stamps, s.At plan.kb.id f.path → s ∉ survivors env plan w₁.db) ∧
        Unhindered env plan.kb.id plan.path f w₁.db := by
  obtain ⟨t₀, t₁, hpre⟩ := hturn.reached
  have hstat : ∀ g ∈ earlier plan.files f, (env.fs.stat g.path).isSome := fun g hg =>
    stat_filesToImport hfiles g ((List.takeWhile_sublist _).subset hg)
  have himports := importAll_found hinj hstat hahead hpre
  have hcollation : w.db.engine = w₁.db.engine := (engine_exec hpre).trans hengine
  have hsurvive : db₁.stamps = survivors env plan w₁.db := hsweep.stamps
  rw [show ({ w₁ with db := db₁ } : World).db.engine = w₁.db.engine from hengine,
    show ({ w₁ with db := db₁ } : World).db.stamps = survivors env plan w₁.db from hsurvive]
    at himports
  rw [hcollation]
  constructor
  · intro hfree
    refine ⟨fun s _ hat hs => hfree s (himports.kept hs) hat.foundAt, fun d hd _ hfound => ?_,
      fun g hg hkey => ?_⟩
    · rw [sweptAway_iff hfiles]
      by_contra hkept
      refine hfree d.stamp (himports.kept (mem_survivors.mpr ⟨d, hd, rfl, ?_⟩)) hfound
      exact fun hstale => hkept hstale.2
    · rw [← hfiles] at hg
      by_contra hfits
      rw [Bool.not_eq_false] at hfits
      obtain ⟨s, hs, hkb, loc, hloc, hgkey⟩ := himports.found g hg hfits
      exact hfree s hs ⟨hkb, loc, hloc, hkey.trans hgkey⟩
  · rintro ⟨hown, hother⟩ s hs hfound
    rcases himports.added s hs with hs | ⟨g, hg, hfits, hloc⟩
    · obtain ⟨d, hd, rfl, hkept⟩ := mem_survivors.mp hs
      by_cases hat : d.location = some f.path
      · exact hown d.stamp (mem_stamps.mpr ⟨d, hd, rfl⟩) ⟨hfound.1, hat⟩ hs
      · exact hkept ⟨hfound.1, (sweptAway_iff hfiles).mp (hother.documents d hd hat hfound)⟩
    · obtain ⟨-, loc, hloc', hkey⟩ := hfound
      cases hloc'.symm.trans hloc
      rw [hother.files g (hfiles ▸ hg) hkey] at hfits
      cases hfits

theorem fileStamp_congr {kbId id : Str} {g : WalkEntry} {st : ℕ × ℚ} (h : g.path = f.path) :
    fileStamp kbId g id st = fileStamp kbId f id st := by
  unfold fileStamp
  rw [h]

/-- The document of a failed import survives the next sweep. -/
theorem fileStamp_survives {id : Str} {st : ℕ × ℚ}
    (hfiles : plan.files = filesToImport env plan.path) (hf : f ∈ plan.files)
    (hst : env.fs.stat f.path = some st)
    (hmem : fileStamp plan.kb.id f id st ∈ w₁.db.stamps) :
    fileStamp plan.kb.id f id st ∈ survivors env plan w₁.db := by
  obtain ⟨d, hd, hstamp⟩ := mem_stamps.mp hmem
  refine mem_survivors.mpr ⟨d, hd, hstamp, ?_⟩
  rintro ⟨-, -, hstale⟩
  have hloc : d.location = some f.path := congrArg Stamp.location hstamp
  have hin : inside plan.path d.location = true := hloc ▸ inside_of_mem_files hfiles hf
  have hcurrent := current_of_fileStamp hst hstamp
  have hat : d.location ∈ plan.files.map (fun f => some f.path) :=
    hloc ▸ List.mem_map_of_mem (f := fun f : WalkEntry => some f.path) hf
  rw [(not_stale_iff (startsWith_of_inside hin)).mpr ⟨hat, hcurrent⟩] at hstale
  cases hstale

/-- What a scan has imported it has drawn. -/
theorem not_imported_of_old {uuid : ℕ → Str} {t t' : Tally} {db₁ : Db} {w₂ : World}
    (hfresh : Fresh uuid w₁.db) (hsweep : AfterSweep env plan w₁.db db₁ t)
    (himport : (importAll env req plan t plan.files).exec (calm uuid) { w₁ with db := db₁ } =
      (.ok t', w₂)) {s : Stamp} (hs : s ∈ w₁.db.stamps) : s.id ∉ t'.imported := by
  intro himported
  have hkeeps : (drawing (Drawn uuid w₁.db)).Keeps (handle (calm uuid))
      (fun x => w₁.db.nextUuid ≤ x.db.nextUuid) :=
    Terms.keeps_handle (calm uuid) (fun c db _ hdb =>
      ⟨hdb.trans (nextUuid_apply uuid c.op db), fun r hr => drawing_answers hdb hr⟩)
  have hdrawn := (Service.exec_keeps himport
    (importAll_drawing (Drawn uuid w₁.db) plan.files t).only hkeeps hsweep.next).2 t' rfl
  rcases hdrawn.imported s.id himported with hid | hid
  · rw [hsweep.imported] at hid
    exact List.not_mem_nil hid
  · exact hfresh.not_drawn hs hid

/-- The later scan comes to the turn of the file. -/
theorem later_turn {env₂ : ScanEnv} {req₂ : ScanRequest} {g : WalkEntry} {uuid₂ : ℕ → Str}
    {report₂ : ScanReport} {w₂ : World} (h : LaterScan env req f w₁ env₂ req₂ g uuid₂ report₂ w₂) :
    ∃ plan db₁ t t' w w' r, plan.kb.id = req.kbId ∧ plan.path = abspath env₂.cwd req₂.path ∧
      plan.files = filesToImport env₂ plan.path ∧ AfterSweep env₂ plan w₁.db db₁ t ∧
      Prelude uuid₂ w₁.db db₁ ∧ db₁.engine = w₁.db.engine ∧
      (importAll env₂ req₂ plan t plan.files).exec (calm uuid₂) { w₁ with db := db₁ } =
        (.ok t', w₂) ∧
      Turn (calm uuid₂) env₂ req₂ plan g { w₁ with db := db₁ } w w' w₂ r t' ∧
      report₂.imported = t'.imported ∧ report₂.errors = t'.errors := by
  obtain ⟨plan, hadmitted, hrun⟩ := scanDirectory_eq_ok h.run
  obtain ⟨hkbs, hpath, hfiles⟩ := admitted_eq_ok hadmitted
  obtain ⟨db₁, t, t', w₂', dirId, hsweep, hswept, himport, hcalm⟩ :=
    runScan_calm h.fresh hfiles req₂
  cases hrun.symm.trans hcalm
  have hg : g ∈ plan.files := by
    rw [hfiles, hpath]
    exact h.file
  obtain ⟨w, w', r, hturn⟩ := exists_turn hfiles hg h.fresh.injective hsweep.errors himport
  have hprelude : Prelude uuid₂ w₁.db db₁ :=
    hswept.keeps (idle_within_insertsFor _) (removal_within_insertsFor _)
      (prelude_apply h.fresh.injective w₁.db)
      (@ahead_prelude (calm uuid₂) _ (ahead_of_fresh h.fresh))
  have hengine : db₁.engine = w₁.db.engine := hswept.keeps (K := Contract.any)
    ⟨fun _ _ => trivial, fun _ _ _ => trivial⟩ (fun _ => ⟨fun _ _ => trivial, fun _ _ _ => trivial⟩)
    (fun c x _ hx => ⟨(engine_apply uuid₂ c.op x).trans hx, fun _ _ => trivial⟩) rfl
  exact ⟨plan, db₁, t, t', w, w', r, (Table.get?_eq_some.mp hkbs).2.trans h.kb, hpath, hfiles,
    hsweep, hprelude, hengine, himport, hturn, rfl, rfl⟩

end later

/-! The new file of `mixedFs`, whose import is made to raise. -/

def newEntry : WalkEntry := ⟨"/mnt/data/b.txt", "b.txt", "b.txt"⟩

/-- Surroundings in which one step of the import raises. -/
def failing (p : Point) : Surroundings :=
  { uuid := volumeUuid, raises := fun site => site = ⟨p, newEntry.path⟩ }

def failedRun (p : Point) : Except Err (Except Refusal ScanReport) × World :=
  (scanDirectory (volumeEnv mixedFs) volumeRequest).exec (failing p) ⟨mixedDb, []⟩

def failedReport : ScanReport :=
  { imported := ["uuu"], errors := [("b.txt", .failure)], scanDirId := "u", deleted := 1,
    skipped := 2, reparsed := 1 }

/-- The next scan, in which nothing is made to raise. -/
def nextRun (w : World) : Except Err (Except Refusal ScanReport) × World :=
  (scanDirectory (volumeEnv mixedFs) volumeRequest).exec (calm volumeUuid) w

/-- The report of the next scan when the file is imported. -/
def retriedReport : ScanReport :=
  { imported := ["uuuuuuu"], errors := [], scanDirId := "u", deleted := 0, skipped := 4,
    reparsed := 0 }

/-- The report of the next scan when it finds nothing to do. -/
def idleReport : ScanReport :=
  { imported := [], errors := [], scanDirId := "u", deleted := 0, skipped := 6, reparsed := 0 }

/-- Identifiers that are shorter than those to come. -/
theorem fresh_of_length {db : Db} (hdocs : ∀ d ∈ db.documents.rows, d.id.length ≤ db.nextUuid)
    (htasks : ∀ t ∈ db.tasks.rows, t.docId.length ≤ db.nextUuid)
    (hdirs : ∀ d ∈ db.directories.rows, d.id.length ≤ db.nextUuid) : Fresh volumeUuid db := by
  have hnew : ∀ (id : Str) n, id.length ≤ db.nextUuid → db.nextUuid ≤ n → id ≠ volumeUuid n := by
    rintro id n hid hn rfl
    rw [volumeUuid, List.length_replicate] at hid
    omega
  refine ⟨fun m n h => ?_, fun n hn d hd => hnew d.id n (hdocs d hd) hn,
    fun n hn t ht => hnew t.docId n (htasks t ht) hn, fun n hn d hd => hnew d.id n (hdirs d hd) hn⟩
  have hlen := congrArg List.length h
  simpa [volumeUuid] using hlen

def upperEntry : WalkEntry := ⟨"/mnt/data/A.txt", "A.txt", "A.txt"⟩

/-- The row of the first of the two cannot be saved, that of the second is. -/
def upperRun : Except Err (Except Refusal ScanReport) × World :=
  (scanDirectory (volumeEnv casesFs) volumeRequest).exec
    { uuid := volumeUuid, raises := fun site => site = ⟨.docSave, upperEntry.path⟩ } ⟨casesDb, []⟩

def upperReport : ScanReport :=
  { imported := ["uuu"], errors := [("A.txt", .failure)], scanDirId := "u", deleted := 0,
    skipped := 0, reparsed := 0 }

end RagFlow.Retry
