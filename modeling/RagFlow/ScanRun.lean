import RagFlow.ScanCommands

/-! # Runs of a scan

What a scan reads of a document is its `Stamp`; `stamps_apply` says what each operation does to
the stamps: two operations change them, and the changes a parsing makes to a document do not show.

A scan goes through its sweep without an exception unless the surroundings raise one, and then the
stamps are those of the documents that are not stale (`sweep_calm`).  The imports handle their
exceptions (`importAll_total`).

`Fresh` is what is known of the identifiers that `uuid4` gives. -/

namespace RagFlow

open Py Effect

/-! ### Stamps -/

/-- What a scan reads of a document. -/
structure Stamp where
  id : Str
  kbId : Str
  sourceType : Str
  location : Option Str
  size : ℕ
  contentHash : Option Str
deriving DecidableEq

def Document.stamp (d : Document) : Stamp :=
  { id := d.id, kbId := d.kbId, sourceType := d.sourceType, location := d.location,
    size := d.size, contentHash := d.contentHash }

/-- The stamps of the documents. -/
def Db.stamps (db : Db) : List Stamp := db.documents.rows.map Document.stamp

theorem mem_stamps {db : Db} {s : Stamp} : s ∈ db.stamps ↔ ∃ d ∈ db.documents, d.stamp = s :=
  List.mem_map

theorem stamps_updateWhere {db db' : Db} {q : Document → Bool} {f : Document → Document}
    (hf : ∀ d, (f d).id = d.id) (hdocs : db'.documents = db.documents.updateWhere q f hf)
    (hstamp : ∀ d, (f d).stamp = d.stamp) : db'.stamps = db.stamps := by
  unfold Db.stamps
  rw [hdocs]
  show (db.documents.rows.map _).map _ = _
  rw [List.map_map]
  apply List.map_congr_left
  intro d _
  show Document.stamp (if q d then f d else d) = d.stamp
  split_ifs
  · exact hstamp d
  · rfl

theorem stamps_deleteWhere {db db' : Db} {id : Str}
    (hdocs : db'.documents = db.documents.deleteWhere (·.id = id)) :
    db'.stamps = db.stamps.filter (·.id ≠ id) := by
  unfold Db.stamps
  rw [hdocs]
  show (db.documents.rows.filter _).map _ = _
  rw [List.filter_map]
  congr 1
  apply List.filter_congr
  intro d _
  by_cases hd : d.id = id
  · simp [Document.stamp, hd]
  · simp [Document.stamp, hd]

theorem folderOrNew_writes (uuid : ℕ → Str) (p : File → Bool) (mk : Str → File) (db : Db) :
    ∃ files n, db.nextUuid ≤ n ∧
      (Db.folderOrNew uuid p mk db).2 = { db with files, nextUuid := n } := by
  unfold Db.folderOrNew
  split
  · exact ⟨db.files, db.nextUuid, le_refl _, rfl⟩
  · dsimp only
    split
    · exact ⟨db.files, db.nextUuid + 1, Nat.le_succ _, rfl⟩
    · exact ⟨_, db.nextUuid + 1, Nat.le_succ _, rfl⟩

/-- Looking up the folder of the knowledge bases writes files at most. -/
theorem getKbFolder_writes (uuid : ℕ → Str) (tenantId : Str) (db : Db) :
    ∃ files n, db.nextUuid ≤ n ∧
      (Db.getKbFolder uuid tenantId db).2 = { db with files, nextUuid := n } := by
  obtain ⟨files, n, hn, hroot⟩ := folderOrNew_writes uuid
    (fun f => f.tenantId = tenantId && f.parentId = f.id) (Db.rootFolder tenantId) db
  unfold Db.getKbFolder
  split
  · next heq =>
      rw [heq] at hroot
      exact ⟨files, n, hn, hroot⟩
  · next rootId db₁ heq =>
      rw [heq] at hroot
      replace hroot : db₁ = { db with files, nextUuid := n } := hroot
      subst hroot
      obtain ⟨files', n', hn', hfolder⟩ := folderOrNew_writes uuid
        (fun f => f.tenantId = tenantId && f.parentId = rootId &&
          db.engine.collation.same f.name knowledgebaseFolderName)
        (Db.knowledgebaseFolder tenantId rootId) { db with files, nextUuid := n }
      exact ⟨files', n', hn.trans hn', hfolder⟩

/-- The server stays. -/
theorem engine_apply (uuid : ℕ → Str) (op : Op) (db : Db) :
    (Db.apply uuid op db).2.engine = db.engine := by
  cases op with
  | kbFolder tenantId =>
      obtain ⟨files, n, -, hdb⟩ := getKbFolder_writes uuid tenantId db
      show (Db.getKbFolder uuid tenantId db).2.engine = db.engine
      rw [hdb]
  | deleteDocumentAndUpdateKbCounts id =>
      simp only [Db.apply, Db.deleteDocumentAndUpdateKbCounts]
      split <;> rfl
  | saveDocument | insertDirectory | insertFile | insertFile2Document =>
      simp only [Db.apply, Db.orRaise]
      split <;> rfl
  | getFile id => simp only [Db.apply]; split <;> rfl
  | insertTasks ts => cases ts <;> rfl
  | updateProgress id prog => simp only [Db.apply]; split <;> rfl
  | osStat answer => cases answer <;> rfl
  | _ => rfl

theorem engine_exec {α : Type} {su : Surroundings} {p : Service α} {w w' : World}
    {r : Except Err α} (h : p.exec su w = (r, w')) : w'.db.engine = w.db.engine := by
  have hkeeps : (Contract.any : Terms).Keeps (handle su) (fun x => x.db.engine = w.db.engine) :=
    Terms.keeps_handle su (I := fun db => db.engine = w.db.engine)
      (fun c db _ hdb => ⟨(engine_apply su.uuid c.op db).trans hdb, fun _ _ => trivial⟩)
  exact (Service.exec_keeps h (Only.any p) hkeeps rfl).1

theorem engine_calm {α : Type} {p : Service α} {uuid : ℕ → Str} {db db' : Db} {a : α}
    (h : p.calm uuid db = some (a, db')) : db'.engine = db.engine := by
  have hkeeps : (Contract.any : Terms).Keeps (Call.apply uuid) (fun x => x.engine = db.engine) :=
    fun c x _ hx => ⟨(engine_apply uuid c.op x).trans hx, fun _ _ => trivial⟩
  exact ((Only.any p).calm hkeeps h rfl).1

/-- An operation leaves the stamps alone, adds that of a document it saves, or deletes those
under one identifier. -/
theorem stamps_apply (uuid : ℕ → Str) (op : Op) (db : Db) :
    (Db.apply uuid op db).2.stamps = db.stamps ∨
      (∃ d, op = .saveDocument d ∧ d.fits = true ∧
        (Db.apply uuid op db).2.stamps = db.stamps ++ [d.stamp]) ∨
      ∃ id, op = .deleteDocumentAndUpdateKbCounts id ∧
        (Db.apply uuid op db).2.stamps = db.stamps.filter (·.id ≠ id) := by
  cases op with
  | saveDocument d =>
      simp only [Db.apply, Db.orRaise]
      split
      · exact Or.inl rfl
      · exact Or.inl rfl
      · next documents hfits hins =>
          refine Or.inr (Or.inl ⟨d, rfl, hfits, ?_⟩)
          show documents.rows.map _ = _
          rw [(Table.insert?_eq_some hins).2, List.map_append, List.map_singleton]
          rfl
  | deleteDocumentAndUpdateKbCounts id =>
      simp only [Db.apply, Db.deleteDocumentAndUpdateKbCounts]
      cases db.documents.get? id with
      | none => exact Or.inl rfl
      | some d => exact Or.inr (Or.inr ⟨id, rfl, stamps_deleteWhere rfl⟩)
  | updateDocument id u =>
      exact Or.inl
        (stamps_updateWhere (f := u.apply db.engine.number) (fun _ => rfl) rfl (fun _ => rfl))
  | incrementDocument id tokenNum chunkNum =>
      exact Or.inl (stamps_updateWhere (f := Document.add tokenNum chunkNum) (fun _ => rfl) rfl
        (fun _ => rfl))
  | kbFolder tenantId =>
      obtain ⟨files, n, -, hdb⟩ := getKbFolder_writes uuid tenantId db
      have hstamps : (Db.getKbFolder uuid tenantId db).2.stamps = db.stamps := by rw [hdb]; rfl
      exact Or.inl hstamps
  | insertDirectory d => simp only [Db.apply, Db.orRaise]; split <;> exact Or.inl rfl
  | insertFile f => simp only [Db.apply, Db.orRaise]; split <;> exact Or.inl rfl
  | insertFile2Document l => simp only [Db.apply, Db.orRaise]; split <;> exact Or.inl rfl
  | getFile id => simp only [Db.apply]; split <;> exact Or.inl rfl
  | insertTasks ts => cases ts <;> exact Or.inl rfl
  | updateProgress id prog => simp only [Db.apply]; split <;> exact Or.inl rfl
  | osStat answer => cases answer <;> exact Or.inl rfl
  | _ => exact Or.inl rfl

/-- The document is one of the knowledge base and has this location. -/
def Document.At (kbId path : Str) (d : Document) : Prop := d.kbId = kbId ∧ d.location = some path

/-- No two documents of the knowledge base share a location. -/
def UniqueLocations (kbId : Str) (db : Db) : Prop :=
  ∀ d ∈ db.documents, ∀ d' ∈ db.documents, ∀ path, d.At kbId path → d'.At kbId path → d = d'

theorem uniqueLocations_of_nodup {db : Db} (kbId : Str)
    (h : (db.documents.rows.map (·.location)).Nodup) : UniqueLocations kbId db := by
  intro d hd d' hd' path hat hat'
  exact List.inj_on_of_nodup_map h hd hd' (hat.2.trans hat'.2.symm)

/-! ### Identifiers -/

/-- The identifiers still to be drawn differ from each other and from those in the stores. -/
structure Fresh (uuid : ℕ → Str) (db : Db) : Prop where
  injective : Function.Injective uuid
  documents : ∀ n, db.nextUuid ≤ n → ∀ d ∈ db.documents, d.id ≠ uuid n
  tasks : ∀ n, db.nextUuid ≤ n → ∀ t ∈ db.tasks, t.docId ≠ uuid n
  directories : ∀ n, db.nextUuid ≤ n → ∀ d ∈ db.directories, d.id ≠ uuid n

/-- An identifier drawn after the state `db₀`. -/
def Drawn (uuid : ℕ → Str) (db₀ : Db) (id : Str) : Prop := ∃ n, db₀.nextUuid ≤ n ∧ id = uuid n

theorem Fresh.not_drawn {uuid : ℕ → Str} {db : Db} (h : Fresh uuid db) {s : Stamp}
    (hs : s ∈ db.stamps) : ¬Drawn uuid db s.id := by
  rintro ⟨n, hn, heq⟩
  obtain ⟨d, hd, rfl⟩ := mem_stamps.mp hs
  exact h.documents n hn d hd heq

/-- Longer than all strings of a list. -/
def longer (l : List Str) : ℕ := l.flatten.length + 1

theorem length_lt_longer {l : List Str} {s : Str} (h : s ∈ l) : s.length < longer l :=
  Nat.lt_succ_of_le (List.sublist_flatten_of_mem h).length_le

/-- There are always new identifiers. -/
theorem exists_fresh (db : Db) : ∃ uuid, Fresh uuid db := by
  let used := db.documents.rows.map (·.id) ++ db.tasks.rows.map (·.docId) ++
    db.directories.rows.map (·.id)
  let uuid : ℕ → Str := fun n => List.replicate (longer used + n) 'u'
  have hnew : ∀ s ∈ used, ∀ n, s ≠ uuid n := by
    intro s hs n heq
    have hlt := length_lt_longer hs
    rw [heq, List.length_replicate] at hlt
    omega
  refine ⟨uuid, ?_, ?_, ?_, ?_⟩
  · intro m n h
    have hlen := congrArg List.length h
    simp only [uuid, List.length_replicate] at hlen
    omega
  · intro n _ d hd
    exact hnew d.id (List.mem_append_left _ (List.mem_append_left _ (List.mem_map_of_mem hd))) n
  · intro n _ t ht
    exact hnew t.docId (List.mem_append_left _ (List.mem_append_right _ (List.mem_map_of_mem ht))) n
  · intro n _ d hd
    exact hnew d.id (List.mem_append_right _ (List.mem_map_of_mem hd)) n

/-- The counter of the identifiers only grows. -/
theorem nextUuid_apply (uuid : ℕ → Str) (op : Op) (db : Db) :
    db.nextUuid ≤ (Db.apply uuid op db).2.nextUuid := by
  cases op with
  | uuid4 => exact Nat.le_succ _
  | kbFolder tenantId =>
      obtain ⟨files, n, hn, hdb⟩ := getKbFolder_writes uuid tenantId db
      exact hn.trans_eq (congrArg Db.nextUuid hdb).symm
  | deleteDocumentAndUpdateKbCounts id =>
      simp only [Db.apply, Db.deleteDocumentAndUpdateKbCounts]
      split <;> exact le_refl _
  | saveDocument d => simp only [Db.apply, Db.orRaise]; split <;> exact le_refl _
  | insertDirectory d => simp only [Db.apply, Db.orRaise]; split <;> exact le_refl _
  | insertFile f => simp only [Db.apply, Db.orRaise]; split <;> exact le_refl _
  | insertFile2Document l => simp only [Db.apply, Db.orRaise]; split <;> exact le_refl _
  | getFile id => simp only [Db.apply]; split <;> exact le_refl _
  | insertTasks ts => cases ts <;> exact le_refl _
  | updateProgress id prog => simp only [Db.apply]; split <;> exact le_refl _
  | osStat answer => cases answer <;> exact le_refl _
  | _ => exact le_refl _

theorem nextUuid_calm {α : Type} {uuid : ℕ → Str} {p : Service α} {db db' : Db} {a : α}
    (h : p.calm uuid db = some (a, db')) : db.nextUuid ≤ db'.nextUuid := by
  have hkeeps : (Contract.any : Terms).Keeps (Call.apply uuid) (db.nextUuid ≤ ·.nextUuid) :=
    fun c _ _ hle => ⟨hle.trans (nextUuid_apply uuid c.op _), fun _ _ => trivial⟩
  exact ((Only.any p).calm hkeeps h (le_refl _)).1

/-! ### The sweep without exceptions -/

section calm
variable (uuid : ℕ → Str)

theorem quietly_calm {uuid : ℕ → Str} {body : Service Unit} {db db' : Db}
    (h : body.calm uuid db = some ((), db')) : (quietly body).calm uuid db = some ((), db') :=
  Service.calm_tryCatch h

theorem cleanupGraph_calm (d : Document) (index : Str) (db : Db) :
    ∃ db', (cleanupGraph d index).calm uuid db = some ((), db') ∧
      db'.documents = db.documents := by
  unfold cleanupGraph
  rw [Service.calm_bind (calm_issue rfl)]
  split_ifs
  · rw [Service.calm_bind (calm_issue rfl), Service.calm_bind (calm_issue rfl)]
    exact ⟨_, calm_issue rfl, rfl⟩
  · exact ⟨db, rfl, rfl⟩

theorem removeDocument_calm (d : Document) (tenantId : Option Str) (db : Db) :
    ∃ db', (removeDocument d tenantId).calm uuid db = some ((), db') ∧
      db'.stamps = db.stamps.filter (·.id ≠ d.id) := by
  unfold removeDocument
  rw [Service.calm_bind (calm_issue rfl)]
  have hdelete : (db.deleteDocumentAndUpdateKbCounts d.id).2.stamps =
      db.stamps.filter (·.id ≠ d.id) := by
    unfold Db.deleteDocumentAndUpdateKbCounts
    cases hd : db.documents.get? d.id with
    | some x => exact stamps_deleteWhere rfl
    | none =>
        symm
        apply List.filter_eq_self.mpr
        intro s hs
        obtain ⟨x, hx, rfl⟩ := mem_stamps.mp hs
        exact decide_eq_true (Table.get?_eq_none.mp hd x hx)
  split_ifs
  · rw [Service.calm_bind (quietly_calm (calm_issue rfl)),
      Service.calm_bind (quietly_calm (calm_issue rfl)),
      Service.calm_bind (quietly_calm (calm_issue rfl)),
      Service.calm_bind (quietly_calm (calm_issue rfl)),
      Service.calm_bind (quietly_calm (calm_issue rfl)),
      Service.calm_bind (quietly_calm (calm_issue rfl))]
    obtain ⟨db', hcalm, hdocs⟩ := cleanupGraph_calm uuid d (indexName tenantId) _
    refine ⟨db', quietly_calm hcalm, ?_⟩
    rw [← hdelete]
    exact congrArg (fun t : Table Document Document.id => t.rows.map Document.stamp) hdocs
  · exact ⟨_, rfl, hdelete⟩

theorem removeScanned_calm (d : Document) (db : Db) :
    ∃ db', (removeScanned d).calm uuid db = some ((), db') ∧
      db'.stamps = db.stamps.filter (·.id ≠ d.id) := by
  unfold removeScanned
  rw [Service.calm_bind (calm_issue rfl), Service.calm_bind (calm_issue rfl),
    Service.calm_bind (calm_issue rfl)]
  obtain ⟨db', hcalm, hstamps⟩ := removeDocument_calm uuid d _ _
  exact ⟨db', hcalm, hstamps⟩

/-- The document belongs to the scanned path, but its file is gone or has changed. -/
def Document.stale (env : ScanEnv) (plan : ScanPlan) (d : Document) : Bool :=
  d.startsWith plan.path &&
    !((plan.files.map (·.path)).contains (d.location.getD []) &&
      (env.fs.stat (d.location.getD [])).any (unchanged d))

variable {env : ScanEnv} {plan : ScanPlan}

theorem sweepPresent_calm {loc : Str} {st : ℕ × ℚ} (hst : env.fs.stat loc = some st)
    (d : Document) (t : Tally) (db : Db) :
    ∃ t' db', (sweepPresent env d loc t).calm uuid db = some (t', db') ∧
      db'.stamps = if unchanged d st then db.stamps else db.stamps.filter (·.id ≠ d.id) := by
  have hos : (issue .stat d.id (.osStat (env.fs.stat loc))).calm uuid db = some (st, db) := by
    apply calm_issue
    rw [hst]
    rfl
  unfold sweepPresent
  cases hun : unchanged d st with
  | true =>
      refine ⟨{ t with skipped := t.skipped + 1 }, db, Service.calm_tryCatch ?_, rfl⟩
      rw [Service.calm_bind hos, if_pos hun]
      rfl
  | false =>
      obtain ⟨db', hremove, hstamps⟩ := removeScanned_calm uuid d db
      refine ⟨{ t with reparsed := t.reparsed + 1 }, db', Service.calm_tryCatch ?_, hstamps⟩
      rw [Service.calm_bind hos, if_neg (by simp [hun])]
      unfold reparse
      apply Service.calm_tryCatch
      rw [Service.calm_bind hremove]
      rfl

theorem sweepDoc_calm (hstat : ∀ f ∈ plan.files, (env.fs.stat f.path).isSome) (t : Tally)
    (d : Document) (db : Db) :
    ∃ t' db', (sweepDoc env plan t d).calm uuid db = some (t', db') ∧
      db'.stamps = if d.stale env plan then db.stamps.filter (·.id ≠ d.id) else db.stamps := by
  unfold sweepDoc Document.stale
  cases hstarts : d.startsWith plan.path with
  | false => exact ⟨t, db, rfl, rfl⟩
  | true =>
      simp only [if_true, Bool.true_and]
      cases hmem : (plan.files.map (·.path)).contains (d.location.getD []) with
      | false =>
          obtain ⟨db', hremove, hstamps⟩ := removeScanned_calm uuid d db
          refine ⟨{ t with deleted := t.deleted + 1 }, db', ?_, hstamps⟩
          exact Service.calm_bind (quietly_calm hremove)
      | true =>
          obtain ⟨f, hf, hpath⟩ := List.mem_map.mp (List.contains_iff_mem.mp hmem)
          obtain ⟨st, hst⟩ := Option.isSome_iff_exists.mp (hpath ▸ hstat f hf)
          obtain ⟨t', db', hcalm, hstamps⟩ := sweepPresent_calm uuid hst d t db
          refine ⟨t', db', hcalm, ?_⟩
          rw [hstamps, hst, Option.any_some]
          cases unchanged d st with
          | true => rfl
          | false => rfl

/-- The sweep removes the stale documents and nothing else. -/
theorem sweep_calm (hstat : ∀ f ∈ plan.files, (env.fs.stat f.path).isSome)
    (docs : List Document) : ∀ (t : Tally) (db : Db),
    ∃ t' db', (sweep env plan t docs).calm uuid db = some (t', db') ∧
      db'.stamps = db.stamps.filter
        (fun s => s.id ∉ (docs.filter (·.stale env plan)).map (·.id)) := by
  induction docs with
  | nil =>
      intro t db
      refine ⟨t, db, rfl, ?_⟩
      symm
      simp
  | cons d docs ih =>
      intro t db
      obtain ⟨t₁, db₁, h₁, hstamps₁⟩ := sweepDoc_calm uuid hstat t d db
      obtain ⟨t₂, db₂, h₂, hstamps₂⟩ := ih t₁ db₁
      refine ⟨t₂, db₂, (Service.calm_bind h₁).trans h₂, ?_⟩
      rw [hstamps₂, hstamps₁]
      cases hd : d.stale env plan with
      | false => simp [hd]
      | true =>
          rw [if_pos rfl, List.filter_filter, List.filter_cons_of_pos hd, List.map_cons]
          apply List.filter_congr
          intro s _
          rw [Bool.eq_iff_iff]
          simp only [Bool.and_eq_true, decide_eq_true_eq, List.mem_cons, not_or, ne_eq, and_comm]

end calm

/-! ### The scan as a whole -/

section scan
variable {env : ScanEnv} {req : ScanRequest} {plan : ScanPlan}

/-- What the guards let through. -/
theorem admitted_eq_ok {kb : Option Knowledgebase} (h : admitted env req kb = .ok plan) :
    kb = some plan.kb ∧ plan.path = abspath env.cwd req.path ∧
      plan.files = filesToImport env plan.path := by
  cases kb with
  | none => cases h
  | some kb =>
      simp only [admitted] at h
      split_ifs at h
      cases h
      exact ⟨rfl, rfl, rfl⟩

/-- The location lies strictly inside the directory. -/
def inside (dir : Str) (loc : Option Str) : Bool :=
  match loc with
  | none => false
  | some l => startswith l (withSep dir)

theorem inside_of_mem_files (hplan : plan.files = filesToImport env plan.path) {f : WalkEntry}
    (hf : f ∈ plan.files) : inside plan.path (some f.path) = true := by
  rw [hplan] at hf
  exact startswith_iff.mpr (FileSystem.withSep_prefix_walk (List.mem_filter.mp hf).1)

theorem location_of_startsWith {d : Document} (h : d.startsWith plan.path = true) :
    d.location = some (d.location.getD []) := by
  unfold Document.startsWith at h
  cases hloc : d.location with
  | none => rw [hloc] at h; cases h
  | some loc => rfl

theorem stat_filesToImport (hfiles : plan.files = filesToImport env plan.path) :
    ∀ f ∈ plan.files, (env.fs.stat f.path).isSome := by
  intro f hf
  rw [hfiles] at hf
  exact FileSystem.stat_walk (List.mem_filter.mp hf).1

/-- A scan the guards let through. -/
theorem scanDirectory_admitted {su : Surroundings} {w : World}
    (hraise : su.raises ⟨.kbGet, req.kbId⟩ = false)
    (hadmitted : admitted env req (w.db.kbs.get? req.kbId) = .ok plan) :
    (scanDirectory env req).exec su w =
      (runScan env req plan >>= fun report => pure (.ok report)).exec su w := by
  unfold scanDirectory getOrNone Service.exec issue
  rw [Prog.exec_bind, Prog.exec_tryCatch, Prog.exec_perform]
  unfold handle
  simp only [hraise, Bool.false_eq_true, if_false, Db.apply, hadmitted]

theorem scanDirectory_state {su : Surroundings} {w : World}
    (hraise : su.raises ⟨.kbGet, req.kbId⟩ = false)
    (hadmitted : admitted env req (w.db.kbs.get? req.kbId) = .ok plan) :
    ((scanDirectory env req).exec su w).2 = ((runScan env req plan).exec su w).2 := by
  rw [scanDirectory_admitted hraise hadmitted]
  unfold Service.exec
  rw [Prog.exec_bind]
  rcases Prog.exec (handle su) (runScan env req plan) w with ⟨r, w'⟩
  cases r with
  | ok report => rfl
  | error e => rfl

/-- A scan is refused, with the stores as they were, or the guards let it through. -/
theorem scanDirectory_cases (env : ScanEnv) (req : ScanRequest) (su : Surroundings) (w : World) :
    (∃ r w', (scanDirectory env req).exec su w = (.ok (.error r), w') ∧ w'.db = w.db) ∨
      ∃ plan, su.raises ⟨.kbGet, req.kbId⟩ = false ∧
        admitted env req (w.db.kbs.get? req.kbId) = .ok plan := by
  cases hraise : su.raises ⟨.kbGet, req.kbId⟩ with
  | true =>
      left
      unfold scanDirectory getOrNone Service.exec issue
      rw [Prog.exec_bind, Prog.exec_tryCatch, Prog.exec_perform]
      unfold handle
      rw [if_pos hraise]
      exact ⟨_, _, rfl, rfl⟩
  | false =>
      cases hadmitted : admitted env req (w.db.kbs.get? req.kbId) with
      | ok plan => exact Or.inr ⟨plan, rfl, rfl⟩
      | error r =>
          left
          unfold scanDirectory getOrNone Service.exec issue
          rw [Prog.exec_bind, Prog.exec_tryCatch, Prog.exec_perform]
          unfold handle
          simp only [hraise, Bool.false_eq_true, if_false, Db.apply, hadmitted]
          exact ⟨r, w, rfl, rfl⟩

/-- A scan that succeeds is one the guards let through. -/
theorem scanDirectory_eq_ok {su : Surroundings} {w w' : World} {report : ScanReport}
    (h : (scanDirectory env req).exec su w = (.ok (.ok report), w')) :
    ∃ plan, admitted env req (w.db.kbs.get? req.kbId) = .ok plan ∧
      (runScan env req plan).exec su w = (.ok report, w') := by
  rcases scanDirectory_cases env req su w with ⟨r, w₁, hr, -⟩ | ⟨plan, hraise, hadmitted⟩
  · rw [hr] at h
    cases h
  · rw [scanDirectory_admitted hraise hadmitted] at h
    obtain ⟨report', w₁, hrun, hpure⟩ := Service.exec_bind_eq_ok h
    cases hpure
    exact ⟨plan, hadmitted, hrun⟩

theorem importStep_total (t : Tally) (f : WalkEntry) : Total (importStep env req plan t f) :=
  Total.tryCatch (fun _ => Total.pure _)

/-- The imports handle their exceptions. -/
theorem importAll_total (env : ScanEnv) (req : ScanRequest) (plan : ScanPlan)
    (files : List WalkEntry) :
    ∀ t, Total (importAll env req plan t files) := by
  induction files with
  | nil => intro t; exact Total.pure t
  | cons f files ih => intro t; exact Total.bind (importStep_total t f) ih

theorem directoryRecord_calm {uuid : ℕ → Str} {db : Db} (hfresh : Fresh uuid db)
    (req : ScanRequest) (plan : ScanPlan) :
    ∃ id db', (directoryRecord req plan).calm uuid db = some (id, db') ∧
      db'.documents = db.documents := by
  unfold directoryRecord
  rw [Service.calm_bind (calm_issue rfl)]
  split
  · exact ⟨_, db, Service.calm_bind (calm_issue rfl), rfl⟩
  · have hins : ∀ d : ScannedDirectory, d.id = uuid db.nextUuid →
        ∃ db', Db.apply uuid (.insertDirectory d) { db with nextUuid := db.nextUuid + 1 } =
          (.ok (), db') ∧ db'.documents = db.documents := by
      intro d hd
      have hnew : d.id ∉ db.directories.rows.map (·.id) := by
        intro hmem
        obtain ⟨x, hx, hxid⟩ := List.mem_map.mp hmem
        exact hfresh.directories _ (le_refl _) x hx (hxid.trans hd)
      simp only [Db.apply, Table.insert?, dif_neg hnew, Db.orRaise]
      exact ⟨_, rfl, rfl⟩
    rw [Service.calm_bind (calm_issue rfl)]
    obtain ⟨db', happly, hdocs⟩ := hins
      { id := uuid db.nextUuid, kbId := req.kbId, directoryPath := plan.path,
        scanIntervalMinutes := req.scanInterval, createdBy := plan.creator } rfl
    refine ⟨uuid db.nextUuid, db', ?_, hdocs⟩
    rw [Service.calm_bind (calm_issue happly)]
    exact Service.calm_bind (calm_issue rfl)

/-- The documents the sweep removes. -/
def staleDocs (env : ScanEnv) (plan : ScanPlan) (db : Db) : List Document :=
  (db.documents.select (fun d => d.kbId = plan.kb.id && d.sourceType = localScan)).filter
    (·.stale env plan)

theorem mem_staleDocs {db : Db} {d : Document} :
    d ∈ staleDocs env plan db ↔ d ∈ db.documents ∧ d.kbId = plan.kb.id ∧
      d.sourceType = localScan ∧ d.stale env plan = true := by
  simp [staleDocs, and_assoc]

/-- The stores after the sweep, if nothing raises. -/
structure AfterSweep (env : ScanEnv) (plan : ScanPlan) (db db' : Db) (t : Tally) : Prop where
  stamps : db'.stamps = db.stamps.filter (fun s => s.id ∉ (staleDocs env plan db).map (·.id))
  next : db.nextUuid ≤ db'.nextUuid
  imported : t.imported = []
  errors : t.errors = []

/-- The part of the scan before its imports, if nothing raises. -/
def SweepRun (uuid : ℕ → Str) (env : ScanEnv) (req : ScanRequest) (plan : ScanPlan) (db db' : Db)
    (t : Tally) : Prop :=
  ∃ id db₀, (directoryRecord req plan).calm uuid db = some (id, db₀) ∧
    (sweep env plan {} (db₀.documents.select
      (fun d => d.kbId = plan.kb.id && d.sourceType = localScan))).calm uuid db₀ = some (t, db')

/-- What its commands keep. -/
theorem SweepRun.keeps {uuid : ℕ → Str} {db db' : Db} {t : Tally} {K : Terms} {I : Db → Prop}
    (h : SweepRun uuid env req plan db db' t) (hidle : idle.Within K)
    (hremoval : ∀ id, (removal id).Within K) (hK : K.Keeps (Call.apply uuid) I) (hI : I db) :
    I db' := by
  obtain ⟨id, db₀, hdir, hsweep⟩ := h
  have hdir := (((directoryRecord_uses req plan).within hidle).only.calm hK hdir hI).1
  have huses : Uses K (Swept true {}) (sweep env plan {} (db₀.documents.select
      (fun d => d.kbId = plan.kb.id && d.sourceType = localScan))) :=
    sweep_uses hidle _ (fun d _ _ => Or.inr ⟨rfl, hremoval d.id⟩) {}
  exact (huses.only.calm hK hsweep hdir).1

/-- Where nothing is made to raise, the scan comes to its imports and returns what they return. -/
theorem runScan_calm {uuid : ℕ → Str} {w : World} (hfresh : Fresh uuid w.db)
    (hfiles : plan.files = filesToImport env plan.path) (req : ScanRequest) :
    ∃ db₁ t t' w' id, AfterSweep env plan w.db db₁ t ∧ SweepRun uuid env req plan w.db db₁ t ∧
      (importAll env req plan t plan.files).exec (calm uuid) { w with db := db₁ } = (.ok t', w') ∧
      (runScan env req plan).exec (calm uuid) w = (.ok (t'.report id), w') := by
  obtain ⟨id, db₀, hdir, hdocs⟩ := directoryRecord_calm hfresh req plan
  obtain ⟨t, db₁, hsweep, hstamps⟩ := sweep_calm uuid (stat_filesToImport hfiles)
    (db₀.documents.select (fun d => d.kbId = plan.kb.id && d.sourceType = localScan)) {} db₀
  obtain ⟨t', w', himport⟩ := (importAll_total env req plan plan.files t).exec
    (handle (calm uuid)) { w with db := db₁ }
  have himport : (importAll env req plan t plan.files).exec (calm uuid) { w with db := db₁ } =
      (.ok t', w') := himport
  have hswept : Uses Contract.any (Swept true {}) (sweep env plan {}
      (db₀.documents.select (fun d => d.kbId = plan.kb.id && d.sourceType = localScan))) := by
    refine sweep_uses ⟨fun _ _ => trivial, fun _ _ _ => trivial⟩ _ (fun d _ _ => ?_) {}
    exact Or.inr ⟨rfl, fun _ _ => trivial, fun _ _ _ => trivial⟩
  have ht : Swept true {} t := (hswept.only.calm (I := fun _ => True)
    (fun _ _ _ _ => ⟨trivial, fun _ _ => trivial⟩) hsweep trivial).2
  refine ⟨db₁, t, t', w', id, ⟨?_, ?_, ht.imported, ht.errors⟩, ⟨id, db₀, hdir, hsweep⟩, himport,
    ?_⟩
  · rw [hstamps]
    unfold staleDocs Db.stamps
    rw [hdocs]
  · exact (nextUuid_calm hdir).trans (nextUuid_calm hsweep)
  · unfold runScan
    rw [Service.exec_bind_ok (Service.exec_of_calm hdir),
      Service.exec_bind_ok (Service.exec_of_calm (calm_issue rfl)),
      Service.exec_bind_ok (Service.exec_of_calm hsweep), Service.exec_bind_ok himport,
      Service.exec_bind_ok (Service.exec_of_calm (calm_issue rfl))]
    rfl

end scan

end RagFlow
