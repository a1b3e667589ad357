import RagFlow.ScanRun

/-! # What a scan arrives at

When nothing raises, a scan leaves the knowledge base with exactly one document for each file of
the directory that can be imported, and with no other document in the directory
(`scan_converges`).

Sweep and imports are related through the stamps alone.  The sweep filters them
(`sweep_calm`); the imports append a stamp for each file at whose path there is none
(`importAll_calm`), so a file whose document has survived the sweep gets no second one.  What
survives is unchanged, and what is appended is current: a second scan finds nothing to do
(`Settled`).

The imports ask the database which documents are at a path, and it may take two paths for one.  So
the scan converges where the database tells the paths of the files apart (`ToldApart`). -/

namespace RagFlow

open Py Effect

/-! ### Commands that leave the stamps alone -/

/-- Neither saves nor deletes a document. -/
def Op.Stampless : Op → Prop
  | .saveDocument _ | .deleteDocumentAndUpdateKbCounts _ => False
  | _ => True

def stampless : Terms where
  asks c := c.op.Stampless
  answers _ _ := True

theorem link_within_stampless (id : Str) : (link true id).Within stampless := by
  refine ⟨fun c hc => ?_, fun c r _ => link_answers id c r⟩
  obtain ⟨site, op⟩ := c
  cases op with
  | saveDocument | deleteDocumentAndUpdateKbCounts => exact False.elim hc.1
  | _ => trivial

theorem Op.Stampless.apply {op : Op} (h : op.Stampless) (uuid : ℕ → Str) (db : Db) :
    (Db.apply uuid op db).2.stamps = db.stamps := by
  rcases stamps_apply uuid op db with heq | ⟨d, rfl, -⟩ | ⟨id, rfl, -⟩
  · exact heq
  · exact h.elim
  · exact h.elim

theorem stampless_calm {α : Type} {Q : α → Prop} {p : Service α} (hp : Uses stampless Q p)
    {uuid : ℕ → Str} {db db' : Db} {a : α} (h : p.calm uuid db = some (a, db')) :
    db'.stamps = db.stamps := by
  have hkeeps : stampless.Keeps (Call.apply uuid) (fun x => x.stamps = db.stamps) :=
    fun c x hc hx => ⟨(Op.Stampless.apply hc uuid x).trans hx, fun _ _ => trivial⟩
  exact (hp.only.calm hkeeps h rfl).1

/-! ### The imports without exceptions -/

section imports
variable {env : ScanEnv} {req : ScanRequest} {plan : ScanPlan} {uuid : ℕ → Str} {db db' : Db}

/-- The stamp of a document imported from the file. -/
def fileStamp (kbId : Str) (f : WalkEntry) (id : Str) (st : ℕ × ℚ) : Stamp :=
  { id, kbId, sourceType := localScan, location := some f.path, size := st.1,
    contentHash := some (mtimeHash st.2) }

/-- The stamp is that of a document of the knowledge base at the path. -/
def Stamp.At (kbId path : Str) (s : Stamp) : Prop := s.kbId = kbId ∧ s.location = some path

/-- The query for the path finds the document. -/
def Stamp.FoundAt (c : Collation) (kbId path : Str) (s : Stamp) : Prop :=
  s.kbId = kbId ∧ ∃ loc, s.location = some loc ∧ c.key path = c.key loc

theorem Stamp.At.foundAt {c : Collation} {kbId path : Str} {s : Stamp} (h : s.At kbId path) :
    s.FoundAt c kbId path := ⟨h.1, path, h.2, rfl⟩

theorem mem_docsAt {kbId path : Str} {d : Document} :
    d ∈ db.documents.select
        (fun d => d.kbId = kbId && d.location.any (db.engine.collation.same path)) ↔
      d ∈ db.documents ∧ d.stamp.FoundAt db.engine.collation kbId path := by
  rw [Table.mem_select, Bool.and_eq_true, decide_eq_true_iff, Option.any_eq_true]
  simp only [Collation.same_iff]
  rfl

/-- The query finds nothing. -/
theorem docsAt_eq_nil {kbId path : Str} :
    db.documents.select
        (fun d => d.kbId = kbId && d.location.any (db.engine.collation.same path)) = [] ↔
      ∀ s ∈ db.stamps, ¬s.FoundAt db.engine.collation kbId path := by
  rw [List.eq_nil_iff_forall_not_mem]
  constructor
  · intro h s hs hfound
    obtain ⟨d, hd, rfl⟩ := mem_stamps.mp hs
    exact h d (mem_docsAt.mpr ⟨hd, hfound⟩)
  · intro h d hd
    obtain ⟨hd, hfound⟩ := mem_docsAt.mp hd
    exact h d.stamp (mem_stamps.mpr ⟨d, hd, rfl⟩) hfound

theorem apply_osStat {answer : Option (ℕ × ℚ)} {st : ℕ × ℚ}
    (h : Db.apply uuid (.osStat answer) db = (.ok st, db')) : answer = some st ∧ db' = db := by
  cases answer with
  | none => cases h
  | some x => cases h; exact ⟨rfl, rfl⟩

theorem describeFile_calm {id : Str} {f : WalkEntry} {d : Document}
    (h : (describeFile env plan id f).calm uuid db = some (d, db')) :
    db' = db ∧ ∃ st, env.fs.stat f.path = some st ∧ d.stamp = fileStamp plan.kb.id f id st := by
  obtain ⟨size, db₁, hsize, hrest⟩ := Service.calm_bind_eq_some h
  obtain ⟨mtime, db₂, hmtime, hpure⟩ := Service.calm_bind_eq_some hrest
  obtain ⟨hst, rfl⟩ := apply_osStat (calm_issue_eq_some hsize)
  obtain ⟨hst', rfl⟩ := apply_osStat (calm_issue_eq_some hmtime)
  cases hpure
  cases hst.symm.trans hst'
  exact ⟨rfl, size, hst, rfl⟩

theorem insertDocument_calm {key : Str} {d : Document}
    (h : (insertDocument key d).calm uuid db = some ((), db')) :
    db'.stamps = db.stamps ++ [d.stamp] := by
  obtain ⟨_, db₁, hsave, h⟩ := Service.calm_bind_eq_some h
  have hcount : Uses stampless Anything (do
      let num ← issue .docNumIncrease key (.increaseDocNum d.kbId)
      if num = 0 then
        issue .docNumIncrease key
          (.raiseError (.runtimeError "Database error (Knowledgebase)!"))) :=
    uses_issue_bind trivial (fun num _ =>
      Uses.ite (fun _ => uses_issue trivial) (fun _ => Uses.pure trivial))
  have hrest : db'.stamps = db₁.stamps := stampless_calm hcount h
  have hsave := calm_issue_eq_some hsave
  simp only [Db.apply, Db.orRaise] at hsave
  split at hsave
  · cases hsave
  · cases hsave
  · next documents _ hins =>
      cases hsave
      rw [hrest]
      show documents.rows.map _ = _
      rw [(Table.insert?_eq_some hins).2, List.map_append]
      rfl

/-- An import adds the stamp of the file, or the query for its path finds a document. -/
theorem importFile_calm {f : WalkEntry} {r : Option Str}
    (h : (importFile env req plan f).calm uuid db = some (r, db')) :
    ((∃ s ∈ db.stamps, s.FoundAt db.engine.collation plan.kb.id f.path) ∧
        db'.stamps = db.stamps) ∨
      ((∀ s ∈ db.stamps, ¬s.FoundAt db.engine.collation plan.kb.id f.path) ∧
        ∃ id st, env.fs.stat f.path = some st ∧
          db'.stamps = db.stamps ++ [fileStamp plan.kb.id f id st]) := by
  obtain ⟨existing, db₁, hquery, h⟩ := Service.calm_bind_eq_some h
  cases calm_issue_eq_some hquery
  split_ifs at h with hempty
  · right
    obtain ⟨id, db₁, huuid, h⟩ := Service.calm_bind_eq_some h
    cases calm_issue_eq_some huuid
    obtain ⟨d, db₂, hdescribe, h⟩ := Service.calm_bind_eq_some h
    obtain ⟨_, db₃, hinsert, h⟩ := Service.calm_bind_eq_some h
    obtain ⟨_, db₄, hlink, h⟩ := Service.calm_bind_eq_some h
    cases h
    obtain ⟨rfl, st, hst, hd⟩ := describeFile_calm hdescribe
    have hlink := stampless_calm
      ((linkFile_uses env req plan f d).within (link_within_stampless d.id)) hlink
    refine ⟨docsAt_eq_nil.mp (List.isEmpty_iff.mp hempty), uuid db.nextUuid, st, hst, ?_⟩
    rw [hlink, insertDocument_calm hinsert, hd]
    rfl
  · left
    cases h
    refine ⟨?_, rfl⟩
    obtain ⟨x, hx⟩ := List.exists_mem_of_ne_nil _ (mt List.isEmpty_iff.mpr hempty)
    obtain ⟨hx, hfound⟩ := mem_docsAt.mp hx
    exact ⟨x.stamp, mem_stamps.mpr ⟨x, hx, rfl⟩, hfound⟩

/-- The import of a file inside a `try` statement, and what follows it there. -/
theorem importing_calm {f : WalkEntry} {k : Option Str → Service Tally}
    {handler : Err → Service Tally} {t' : Tally}
    (h : (tryCatch (importFile env req plan f >>= k) handler).calm uuid db = some (t', db'))
    (hk : ∀ r, Uses Contract.any Anything (k r)) :
    ∃ r db₁, (importFile env req plan f).calm uuid db = some (r, db₁) ∧
      (k r).calm uuid db₁ = some (t', db') := by
  have huses : Uses Contract.any Anything (importFile env req plan f >>= k) :=
    Uses.bind (importFile_uses trivial (fun _ => importable_any env plan f)) (fun r _ => hk r)
  have hbody := Prog.calm_of_tryCatch (Call.apply uuid) (fun _ _ => trivial) huses h
  exact Service.calm_bind_eq_some hbody

theorem importStep_calm {f : WalkEntry} {t t' : Tally}
    (h : (importStep env req plan t f).calm uuid db = some (t', db')) :
    ∃ r, (importFile env req plan f).calm uuid db = some (r, db') := by
  obtain ⟨r, db₁, hfile, hrest⟩ := importing_calm h (fun r => by
    cases r with
    | none => exact Uses.pure trivial
    | some id => exact Uses.pure trivial)
  refine ⟨r, ?_⟩
  cases r with
  | none => cases hrest; exact hfile
  | some id => cases hrest; exact hfile

/-- What the imports append: for each file for whose path no stamp is found, its stamp, once. -/
structure Appended (env : ScanEnv) (c : Collation) (kbId : Str) (files : List WalkEntry)
    (old new : List Stamp) : Prop where
  nodup : (new.map Stamp.location).Nodup
  current : ∀ s ∈ new, ∃ f ∈ files, (∃ id st, env.fs.stat f.path = some st ∧
    s = fileStamp kbId f id st) ∧ ∀ x ∈ old, ¬x.FoundAt c kbId f.path
  covers : ∀ f ∈ files, ∃ s ∈ old ++ new, s.FoundAt c kbId f.path

theorem Appended.skip {c : Collation} {kbId : Str} {f : WalkEntry} {files : List WalkEntry}
    {old new : List Stamp} (h : Appended env c kbId files old new)
    (hf : ∃ s ∈ old, s.FoundAt c kbId f.path) : Appended env c kbId (f :: files) old new := by
  refine ⟨h.nodup, fun s hs => ?_, fun g hg => ?_⟩
  · obtain ⟨g, hg, hcurrent⟩ := h.current s hs
    exact ⟨g, List.mem_cons_of_mem f hg, hcurrent⟩
  · rcases List.mem_cons.mp hg with rfl | hg
    · obtain ⟨s, hs, hat⟩ := hf
      exact ⟨s, List.mem_append_left new hs, hat⟩
    · exact h.covers g hg

theorem Appended.cons {c : Collation} {kbId id : Str} {f : WalkEntry} {files : List WalkEntry}
    {old new : List Stamp} {st : ℕ × ℚ} (hst : env.fs.stat f.path = some st)
    (hf : ∀ s ∈ old, ¬s.FoundAt c kbId f.path)
    (h : Appended env c kbId files (old ++ [fileStamp kbId f id st]) new) :
    Appended env c kbId (f :: files) old (fileStamp kbId f id st :: new) := by
  refine ⟨?_, fun s hs => ?_, fun g hg => ?_⟩
  · rw [List.map_cons, List.nodup_cons]
    refine ⟨?_, h.nodup⟩
    intro hmem
    obtain ⟨s, hs, hloc⟩ := List.mem_map.mp hmem
    obtain ⟨g, -, ⟨id', st', -, rfl⟩, hnone⟩ := h.current s hs
    -- the document of `f` would stand in the way of the import of `g`
    have hat : (fileStamp kbId f id st).At kbId g.path := ⟨rfl, hloc.symm⟩
    exact hnone _ (List.mem_append_right _ List.mem_cons_self) hat.foundAt
  · rcases List.mem_cons.mp hs with rfl | hs
    · exact ⟨f, List.mem_cons_self, ⟨id, st, hst, rfl⟩, hf⟩
    · obtain ⟨g, hg, hstamp, hnone⟩ := h.current s hs
      exact ⟨g, List.mem_cons_of_mem f hg, hstamp,
        fun x hx => hnone x (List.mem_append_left _ hx)⟩
  · rcases List.mem_cons.mp hg with rfl | hg
    · exact ⟨_, List.mem_append_right old List.mem_cons_self, rfl, _, rfl, rfl⟩
    · obtain ⟨s, hs, hat⟩ := h.covers g hg
      rw [List.append_assoc, List.singleton_append] at hs
      exact ⟨s, hs, hat⟩

/-- The imports, when nothing raises. -/
theorem importAll_calm (files : List WalkEntry) : ∀ {t t' : Tally} {db db' : Db},
    (importAll env req plan t files).calm uuid db = some (t', db') →
    ∃ new, db'.stamps = db.stamps ++ new ∧
      Appended env db.engine.collation plan.kb.id files db.stamps new := by
  induction files with
  | nil =>
      intro t t' db db' h
      cases h
      refine ⟨[], (List.append_nil _).symm, List.nodup_nil, ?_, ?_⟩
      · exact fun s hs => absurd hs List.not_mem_nil
      · exact fun f hf => absurd hf List.not_mem_nil
  | cons f files ih =>
      intro t t' db db' h
      obtain ⟨t₁, db₁, hstep, hrest⟩ := Service.calm_bind_eq_some h
      obtain ⟨r, hfile⟩ := importStep_calm hstep
      obtain ⟨new, hstamps, happended⟩ := ih hrest
      rw [engine_calm hfile] at happended
      rcases importFile_calm hfile with ⟨hexists, hsame⟩ | ⟨hnone, id, st, hst, hadd⟩
      · rw [hsame] at hstamps happended
        exact ⟨new, hstamps, happended.skip hexists⟩
      · rw [hadd] at hstamps happended
        rw [List.append_assoc, List.singleton_append] at hstamps
        exact ⟨_, hstamps, happended.cons hst hnone⟩

end imports

/-! ### The whole scan without exceptions -/

theorem Op.Idle.documents {op : Op} (h : op.Idle) (uuid : ℕ → Str) (db : Db) :
    (Db.apply uuid op db).2.documents = db.documents := by
  cases op with
  | insertDirectory d => simp only [Db.apply, Db.orRaise]; split <;> rfl
  | getFile id => simp only [Db.apply]; split <;> rfl
  | osStat answer => cases answer <;> rfl
  | _ => first | rfl | exact False.elim h

theorem idle_calm {α : Type} {Q : α → Prop} {p : Service α} (hp : Uses idle Q p)
    {uuid : ℕ → Str} {db db' : Db} {a : α} (h : p.calm uuid db = some (a, db')) :
    db'.documents = db.documents := by
  have hkeeps : idle.Keeps (Call.apply uuid) (fun x => x.documents = db.documents) :=
    fun c x hc hx => ⟨(hc.1.documents uuid x).trans hx, fun _ _ => trivial⟩
  exact (hp.only.calm hkeeps h rfl).1

/-- The paths of the files that can be imported, as locations. -/
def fileLocations (env : ScanEnv) (dir : Str) : List (Option Str) :=
  (filesToImport env dir).map (fun f => some f.path)

/-- The database tells the path of a file from the paths of the other files, and from the locations
of the documents that the sweep does not go over. -/
structure ToldApart (env : ScanEnv) (kbId dir : Str) (db : Db) : Prop where
  files : ∀ f ∈ filesToImport env dir, ∀ g ∈ filesToImport env dir,
    db.engine.collation.key f.path = db.engine.collation.key g.path → f.path = g.path
  documents : ∀ d ∈ db.documents, ¬(d.sourceType = localScan ∧ d.startsWith dir = true) →
    ∀ f ∈ filesToImport env dir, d.stamp.FoundAt db.engine.collation kbId f.path →
      d.location = some f.path

/-- Where texts are compared as they are, all of them are told apart. -/
theorem toldApart_of_exact {env : ScanEnv} {kbId dir : Str} {db : Db}
    (h : db.engine.collation = .exact) : ToldApart env kbId dir db := by
  refine ⟨fun f _ g _ hkey => ?_, fun d _ _ f _ hfound => ?_⟩
  · rw [h] at hkey
    exact hkey
  · obtain ⟨-, loc, hloc, hkey⟩ := hfound
    rw [h] at hkey
    cases hkey
    exact hloc

section converge
variable {env : ScanEnv} {req : ScanRequest} {plan : ScanPlan} {uuid : ℕ → Str} {db db' : Db}

/-- The stamps that survive the sweep. -/
def survivors (env : ScanEnv) (plan : ScanPlan) (db : Db) : List Stamp :=
  db.stamps.filter (fun s => s.id ∉ (staleDocs env plan db).map (·.id))

theorem runScan_stamps (hfiles : plan.files = filesToImport env plan.path) {report : ScanReport}
    (h : (runScan env req plan).calm uuid db = some (report, db')) :
    ∃ new, db'.stamps = survivors env plan db ++ new ∧
      Appended env db.engine.collation plan.kb.id plan.files (survivors env plan db) new := by
  obtain ⟨id, db₀, hdir, h⟩ := Service.calm_bind_eq_some h
  have hdocs := idle_calm (directoryRecord_uses req plan) hdir
  obtain ⟨docs, _, hquery, h⟩ := Service.calm_bind_eq_some h
  cases calm_issue_eq_some hquery
  obtain ⟨t, db₁, hsweep, h⟩ := Service.calm_bind_eq_some h
  obtain ⟨t', db₂, himport, h⟩ := Service.calm_bind_eq_some h
  obtain ⟨_, _, htouch, h⟩ := Service.calm_bind_eq_some h
  cases calm_issue_eq_some htouch
  cases h
  obtain ⟨t₁, db₁', hsweep', hstamps⟩ := sweep_calm uuid (stat_filesToImport hfiles)
    (db₀.documents.select (fun d => d.kbId = plan.kb.id && d.sourceType = localScan)) {} db₀
  cases hsweep.symm.trans hsweep'
  have hsurvive : db₁.stamps = survivors env plan db := by
    rw [hstamps]
    unfold survivors staleDocs Db.stamps
    rw [hdocs]
  obtain ⟨new, hnew, happended⟩ := importAll_calm plan.files himport
  rw [hsurvive] at hnew happended
  rw [engine_calm hsweep, engine_calm hdir] at happended
  exact ⟨new, hnew, happended⟩

theorem mem_survivors {s : Stamp} :
    s ∈ survivors env plan db ↔ ∃ d ∈ db.documents, d.stamp = s ∧
      ¬(d.kbId = plan.kb.id ∧ d.sourceType = localScan ∧ d.stale env plan = true) := by
  unfold survivors
  rw [List.mem_filter, decide_eq_true_iff, mem_stamps]
  constructor
  · rintro ⟨⟨d, hd, rfl⟩, hs⟩
    refine ⟨d, hd, rfl, fun hstale => hs ?_⟩
    exact List.mem_map_of_mem (f := Document.id) (mem_staleDocs.mpr ⟨hd, hstale⟩)
  · rintro ⟨d, hd, rfl, hstale⟩
    refine ⟨⟨d, hd, rfl⟩, fun hs => ?_⟩
    obtain ⟨x, hx, hid⟩ := List.mem_map.mp hs
    obtain ⟨hx, hxstale⟩ := mem_staleDocs.mp hx
    rw [db.documents.eq_of_key_eq hx hd hid] at hxstale
    exact hstale hxstale

/-- The document carries the size and the whole-second modification time its file has now. -/
def Document.current (env : ScanEnv) (d : Document) : Bool :=
  (env.fs.stat (d.location.getD [])).any (unchanged d)

/-- A document that is not stale is at the path of a file and current. -/
theorem not_stale_iff {d : Document} (hstarts : d.startsWith plan.path = true) :
    d.stale env plan = false ↔
      d.location ∈ plan.files.map (fun f => some f.path) ∧ d.current env = true := by
  have hloc := location_of_startsWith hstarts
  have hmem : (plan.files.map (·.path)).contains (d.location.getD []) = true ↔
      d.location ∈ plan.files.map (fun f => some f.path) := by
    rw [List.contains_iff_mem, List.mem_map, List.mem_map]
    constructor
    · rintro ⟨f, hf, hpath⟩
      exact ⟨f, hf, by rw [hloc, hpath]⟩
    · rintro ⟨f, hf, hpath⟩
      exact ⟨f, hf, by rw [← hpath]; rfl⟩
  unfold Document.stale
  rw [hstarts, Bool.true_and, Bool.not_eq_false', Bool.and_eq_true, hmem]
  rfl

theorem startsWith_of_inside {dir : Str} {d : Document} (h : inside dir d.location = true) :
    d.startsWith dir = true := by
  unfold inside at h
  unfold Document.startsWith
  cases hloc : d.location with
  | none => rw [hloc] at h; cases h
  | some loc =>
      rw [hloc, startswith_iff] at h
      obtain ⟨dir', hdir'⟩ := withSep_eq dir
      have hne : loc ≠ [] := by
        rintro rfl
        rw [hdir'] at h
        simpa using h.length_le
      simp [hne, (prefix_withSep dir).trans h]

section stamps
variable {d x : Document}

theorem startsWith_congr (h : d.stamp = x.stamp) (p : Str) : d.startsWith p = x.startsWith p := by
  have hloc : d.location = x.location := congrArg Stamp.location h
  unfold Document.startsWith
  rw [hloc]

theorem current_congr (h : d.stamp = x.stamp) : d.current env = x.current env := by
  have hloc : d.location = x.location := congrArg Stamp.location h
  have hsize : d.size = x.size := congrArg Stamp.size h
  have hhash : d.contentHash = x.contentHash := congrArg Stamp.contentHash h
  unfold Document.current unchanged
  rw [hloc, hsize, hhash]

theorem current_of_fileStamp {kbId id : Str} {f : WalkEntry} {st : ℕ × ℚ}
    (hst : env.fs.stat f.path = some st) (h : d.stamp = fileStamp kbId f id st) :
    d.current env = true := by
  have hloc : d.location = some f.path := congrArg Stamp.location h
  have hsize : d.size = st.1 := congrArg Stamp.size h
  have hhash : d.contentHash = some (mtimeHash st.2) := congrArg Stamp.contentHash h
  unfold Document.current unchanged
  simp [hloc, hst, hsize, hhash]

end stamps

section after
variable {new : List Stamp} (hstamps : db'.stamps = survivors env plan db ++ new)
  (hnew : Appended env db.engine.collation plan.kb.id plan.files (survivors env plan db) new)
include hstamps hnew

/-- What the prefix test of the next scan selects is at the path of a file, and current. -/
theorem settled_of_appended {d : Document} (hd : d ∈ db'.documents) (hkb : d.kbId = plan.kb.id)
    (hsource : d.sourceType = localScan) (hstarts : d.startsWith plan.path = true) :
    d.location ∈ plan.files.map (fun f => some f.path) ∧ d.current env = true := by
  have hs : d.stamp ∈ db'.stamps := mem_stamps.mpr ⟨d, hd, rfl⟩
  rw [hstamps] at hs
  rcases List.mem_append.mp hs with hs | hs
  · obtain ⟨x, -, hx, hstale⟩ := mem_survivors.mp hs
    rw [startsWith_congr hx.symm] at hstarts
    have hfresh : x.stale env plan = false := by
      have hxkb : x.kbId = d.kbId := congrArg Stamp.kbId hx
      have hxsource : x.sourceType = d.sourceType := congrArg Stamp.sourceType hx
      rw [Bool.eq_false_iff]
      exact fun h => hstale ⟨hxkb.trans hkb, hxsource.trans hsource, h⟩
    have hxloc : x.location = d.location := congrArg Stamp.location hx
    rw [← hxloc, ← current_congr hx]
    exact (not_stale_iff hstarts).mp hfresh
  · obtain ⟨f, hf, ⟨id, st, hst, hstamp⟩, -⟩ := hnew.current _ hs
    have hloc : d.location = some f.path := congrArg Stamp.location hstamp
    exact ⟨hloc ▸ List.mem_map_of_mem (f := fun f : WalkEntry => some f.path) hf,
      current_of_fileStamp hst hstamp⟩

theorem exists_at_of_appended (hfiles : plan.files = filesToImport env plan.path)
    (hapart : ToldApart env plan.kb.id plan.path db) {f : WalkEntry} (hf : f ∈ plan.files) :
    ∃ d ∈ db'.documents, d.At plan.kb.id f.path := by
  have htold : ∀ g ∈ plan.files, db.engine.collation.key f.path = db.engine.collation.key g.path →
      f.path = g.path := by
    rw [hfiles] at hf ⊢
    exact hapart.files f hf
  obtain ⟨s, hs, hkb, loc, hloc, hkey⟩ := hnew.covers f hf
  have hat : s.At plan.kb.id f.path := by
    refine ⟨hkb, ?_⟩
    rcases List.mem_append.mp hs with hs | hs
    · obtain ⟨x, hx, rfl, hstale⟩ := mem_survivors.mp hs
      replace hloc : x.location = some loc := hloc
      by_cases hswept : x.sourceType = localScan ∧ x.startsWith plan.path = true
      · -- what the sweep has left is at the path of a file
        have hfresh : x.stale env plan = false := by
          rw [Bool.eq_false_iff]
          exact fun h => hstale ⟨hkb, hswept.1, h⟩
        obtain ⟨g, hg, hpath⟩ := List.mem_map.mp ((not_stale_iff hswept.2).mp hfresh).1
        cases hpath.trans hloc
        rw [htold g hg hkey]
        exact hloc
      · exact hapart.documents x hx hswept f (hfiles ▸ hf) ⟨hkb, loc, hloc, hkey⟩
    · obtain ⟨g, hg, ⟨id, st, -, rfl⟩, -⟩ := hnew.current s hs
      cases hloc
      rw [htold g hg hkey]
      rfl
  rw [← hstamps] at hs
  obtain ⟨d, hd, rfl⟩ := mem_stamps.mp hs
  exact ⟨d, hd, hat⟩

theorem uniqueLocations_of_appended (hunique : UniqueLocations plan.kb.id db) :
    UniqueLocations plan.kb.id db' := by
  have hold : ∀ s ∈ survivors env plan db, ∀ s' ∈ survivors env plan db, ∀ path,
      s.At plan.kb.id path → s'.At plan.kb.id path → s = s' := by
    intro s hs s' hs' path hat hat'
    obtain ⟨x, hx, rfl, -⟩ := mem_survivors.mp hs
    obtain ⟨x', hx', rfl, -⟩ := mem_survivors.mp hs'
    rw [hunique x hx x' hx' path hat hat']
  have hmixed : ∀ s ∈ survivors env plan db, ∀ s' ∈ new, ∀ path,
      s.At plan.kb.id path → ¬s'.At plan.kb.id path := by
    intro s hs s' hs' path hat hat'
    obtain ⟨f, -, ⟨id, st, -, rfl⟩, hnone⟩ := hnew.current s' hs'
    have hfound : s.At plan.kb.id f.path := ⟨hat.1, hat.2.trans hat'.2.symm⟩
    exact hnone s hs hfound.foundAt
  intro d hd d' hd' path hat hat'
  have hs : d.stamp ∈ db'.stamps := mem_stamps.mpr ⟨d, hd, rfl⟩
  have hs' : d'.stamp ∈ db'.stamps := mem_stamps.mpr ⟨d', hd', rfl⟩
  have hstamp : d.stamp = d'.stamp := by
    rw [hstamps] at hs hs'
    rcases List.mem_append.mp hs with hs | hs
    · rcases List.mem_append.mp hs' with hs' | hs'
      · exact hold _ hs _ hs' path hat hat'
      · exact absurd hat' (hmixed _ hs _ hs' path hat)
    · rcases List.mem_append.mp hs' with hs' | hs'
      · exact absurd hat (hmixed _ hs' _ hs path hat')
      · exact List.inj_on_of_nodup_map hnew.nodup hs hs' (hat.2.trans hat'.2.symm)
  exact db'.documents.eq_of_key_eq hd hd' (congrArg Stamp.id hstamp)

/-- No document of another kind comes into the directory. -/
theorem source_of_appended
    (hforeign : ∀ d ∈ db.documents, d.kbId = plan.kb.id → inside plan.path d.location = true →
      d.sourceType = localScan) {d : Document} (hd : d ∈ db'.documents)
    (hkb : d.kbId = plan.kb.id) (hin : inside plan.path d.location = true) :
    d.sourceType = localScan := by
  have hs : d.stamp ∈ db'.stamps := mem_stamps.mpr ⟨d, hd, rfl⟩
  rw [hstamps] at hs
  rcases List.mem_append.mp hs with hs | hs
  · obtain ⟨x, hx, hstamp, -⟩ := mem_survivors.mp hs
    have hxkb : x.kbId = d.kbId := congrArg Stamp.kbId hstamp
    have hxloc : x.location = d.location := congrArg Stamp.location hstamp
    have hxsource : x.sourceType = d.sourceType := congrArg Stamp.sourceType hstamp
    rw [← hxsource]
    exact hforeign x hx (hxkb.trans hkb) (hxloc ▸ hin)
  · obtain ⟨f, -, ⟨id, st, -, hstamp⟩, -⟩ := hnew.current _ hs
    exact congrArg Stamp.sourceType hstamp

end after

/-! ### Convergence -/

/-- The documents that scans have imported from inside the directory. -/
def scannedIn (kbId dir : Str) (db : Db) : List Document :=
  db.documents.select
    (fun d => d.kbId = kbId && d.sourceType = localScan && inside dir d.location)

theorem mem_scannedIn {kbId dir : Str} {d : Document} :
    d ∈ scannedIn kbId dir db ↔ d ∈ db.documents ∧ d.kbId = kbId ∧ d.sourceType = localScan ∧
      inside dir d.location = true := by
  simp [scannedIn, and_assoc]

theorem fileLocations_nodup (env : ScanEnv) (dir : Str) : (fileLocations env dir).Nodup := by
  have hpaths : ((filesToImport env dir).map WalkEntry.path).Nodup :=
    (FileSystem.walk_nodup dir).sublist (List.filter_sublist.map _)
  have hsome : fileLocations env dir = ((filesToImport env dir).map WalkEntry.path).map some := by
    rw [List.map_map]
    rfl
  rw [hsome]
  exact hpaths.map (Option.some_injective Str)

/-- Between `db` and `db'` the scan of the directory has converged: its documents correspond one
to one to the files, carry their size and modification time, and a document that did so before is
still there. -/
structure Converged (env : ScanEnv) (kbId dir : Str) (db db' : Db) : Prop where
  locations : ((scannedIn kbId dir db').map (·.location)).Perm (fileLocations env dir)
  current : ∀ d ∈ scannedIn kbId dir db', d.current env = true
  kept : ∀ d ∈ scannedIn kbId dir db, d.location ∈ fileLocations env dir → d.current env = true →
    ∃ d' ∈ scannedIn kbId dir db', d'.id = d.id ∧ d'.location = d.location

theorem converged_of_appended (hfiles : plan.files = filesToImport env plan.path)
    (hunique : UniqueLocations plan.kb.id db)
    (hforeign : ∀ d ∈ db.documents, d.kbId = plan.kb.id → inside plan.path d.location = true →
      d.sourceType = localScan)
    (hapart : ToldApart env plan.kb.id plan.path db)
    {new : List Stamp} (hstamps : db'.stamps = survivors env plan db ++ new)
    (hnew : Appended env db.engine.collation plan.kb.id plan.files (survivors env plan db) new) :
    Converged env plan.kb.id plan.path db db' := by
  have hlocs : fileLocations env plan.path = plan.files.map (fun f => some f.path) := by
    rw [hfiles]
    rfl
  have hunique' := uniqueLocations_of_appended hstamps hnew hunique
  have hsettled : ∀ d ∈ scannedIn plan.kb.id plan.path db',
      d.location ∈ fileLocations env plan.path ∧ d.current env = true := by
    intro d hd
    obtain ⟨hd, hkb, hsource, hin⟩ := mem_scannedIn.mp hd
    rw [hlocs]
    exact settled_of_appended hstamps hnew hd hkb hsource (startsWith_of_inside hin)
  refine ⟨?_, fun d hd => (hsettled d hd).2, ?_⟩
  · refine (List.perm_ext_iff_of_nodup ?_ (fileLocations_nodup env plan.path)).mpr ?_
    · refine List.Nodup.map_on ?_ ((List.Nodup.of_map _ db'.documents.nodup).filter _)
      intro d hd d' hd' heq
      obtain ⟨hd, hkb, -, hin⟩ := mem_scannedIn.mp hd
      obtain ⟨hd', hkb', -, -⟩ := mem_scannedIn.mp hd'
      have hloc := location_of_startsWith (startsWith_of_inside hin)
      exact hunique' d hd d' hd' _ ⟨hkb, hloc⟩ ⟨hkb', heq.symm.trans hloc⟩
    · intro loc
      constructor
      · intro hmem
        obtain ⟨d, hd, rfl⟩ := List.mem_map.mp hmem
        exact (hsettled d hd).1
      · intro hmem
        rw [hlocs] at hmem
        obtain ⟨f, hf, rfl⟩ := List.mem_map.mp hmem
        obtain ⟨d, hd, hkb, hloc⟩ := exists_at_of_appended hstamps hnew hfiles hapart hf
        have hin : inside plan.path d.location = true := hloc ▸ inside_of_mem_files hfiles hf
        refine List.mem_map.mpr ⟨d, mem_scannedIn.mpr ⟨hd, hkb, ?_, hin⟩, hloc⟩
        exact source_of_appended hstamps hnew hforeign hd hkb hin
  · intro d hd hmem hcurrent
    obtain ⟨hd, hkb, hsource, hin⟩ := mem_scannedIn.mp hd
    have hsurvive : d.stamp ∈ db'.stamps := by
      rw [hstamps]
      refine List.mem_append_left new (mem_survivors.mpr ⟨d, hd, rfl, ?_⟩)
      rintro ⟨-, -, hstale⟩
      rw [hlocs] at hmem
      rw [(not_stale_iff (startsWith_of_inside hin)).mpr ⟨hmem, hcurrent⟩] at hstale
      cases hstale
    obtain ⟨d', hd', hstamp⟩ := mem_stamps.mp hsurvive
    have hloc : d'.location = d.location := congrArg Stamp.location hstamp
    refine ⟨d', mem_scannedIn.mpr ⟨hd', ?_, ?_, hloc ▸ hin⟩, congrArg Stamp.id hstamp, hloc⟩
    · exact (congrArg Stamp.kbId hstamp).trans hkb
    · exact (congrArg Stamp.sourceType hstamp).trans hsource

end converge

/-! ### The next scan -/

/-- A scan of the directory finds nothing to do. -/
structure Settled (env : ScanEnv) (kbId dir : Str) (db : Db) : Prop where
  swept : ∀ d ∈ db.documents, d.kbId = kbId → d.sourceType = localScan →
    d.startsWith dir = true → d.location ∈ fileLocations env dir ∧ d.current env = true
  imported : ∀ f ∈ filesToImport env dir, ∃ d ∈ db.documents, d.At kbId f.path

/-- The replies to a scan that finds nothing to do. -/
def Op.Found (env : ScanEnv) (kbId dir : Str) : (op : Op) → op.Ret → Prop
  | .docsBySource k source, ds => k = kbId → source = localScan → ∀ d ∈ ds,
      d.startsWith dir = true → d.location ∈ fileLocations env dir ∧ d.current env = true
  | .docsAt k path, ds => k = kbId → (∃ f ∈ filesToImport env dir, f.path = path) → ds ≠ []
  | .osStat answer, st => answer = some st
  | _, _ => True

/-- Reads alone. -/
def settled (env : ScanEnv) (kbId dir : Str) : Terms where
  asks c := c.op.Idle ∨ ∃ k path, c.op = .docsAt k path
  answers c r := c.op.Found env kbId dir r

section settled
variable {env : ScanEnv} {req : ScanRequest} {plan : ScanPlan} {kbId dir : Str} {db₀ : Db}

theorem Settled.found (h : Settled env kbId dir db₀) {db : Db} (hdb : db.documents = db₀.documents)
    {uuid : ℕ → Str} {op : Op} {r : op.Ret} (hr : (Db.apply uuid op db).1 = .ok r) :
    op.Found env kbId dir r := by
  cases op with
  | docsBySource k source =>
      cases hr
      rintro rfl rfl d hd
      rw [Table.mem_select, Bool.and_eq_true, decide_eq_true_iff, decide_eq_true_iff, hdb] at hd
      exact h.swept d hd.1 hd.2.1 hd.2.2
  | docsAt k path =>
      cases hr
      rintro rfl ⟨f, hf, rfl⟩
      obtain ⟨d, hd, hat⟩ := h.imported f hf
      have hfound : d.stamp.At k f.path := hat
      apply List.ne_nil_of_mem (a := d)
      exact mem_docsAt.mpr ⟨hdb ▸ hd, hfound.foundAt⟩
  | osStat answer =>
      cases answer with
      | none => cases hr
      | some st => cases hr; rfl
  | _ => trivial

theorem settled_keeps (h : Settled env kbId dir db₀) (uuid : ℕ → Str) :
    (settled env kbId dir).Keeps (Call.apply uuid) (fun db => db.documents = db₀.documents) := by
  rintro ⟨site, op⟩ db hc hdb
  refine ⟨?_, fun r hr => h.found hdb hr⟩
  rcases hc with hidle | ⟨k, path, rfl⟩
  · exact (hidle.documents uuid db).trans hdb
  · exact hdb

theorem runScan_settled (hfiles : plan.files = filesToImport env plan.path) :
    Uses (settled env plan.kb.id plan.path)
      (fun report => report.deleted = 0 ∧ report.reparsed = 0 ∧ report.imported = [])
      (runScan env req plan) := by
  have hidle : idle.Within (settled env plan.kb.id plan.path) :=
    ⟨fun _ hc => Or.inl hc.1, fun _ _ _ => trivial⟩
  have hlocs : fileLocations env plan.path = plan.files.map (fun f => some f.path) := by
    rw [hfiles]
    rfl
  have hdocs : ∀ docs, (settled env plan.kb.id plan.path).answers
        ⟨⟨.docsQuery, req.kbId⟩, .docsBySource plan.kb.id localScan⟩ docs →
      ∀ d ∈ docs, d.startsWith plan.path = true →
        Sweepable env plan (settled env plan.kb.id plan.path) false d := by
    intro docs hdocs d hd hstarts
    obtain ⟨hmem, hcurrent⟩ := hdocs rfl rfl d hd hstarts
    refine Or.inl ⟨?_, ?_⟩
    · rw [hlocs] at hmem
      obtain ⟨f, hf, hloc⟩ := List.mem_map.mp hmem
      exact List.mem_map.mpr ⟨f, hf, by rw [← hloc]; rfl⟩
    · intro st hst
      have hst : env.fs.stat (d.location.getD []) = some st := hst
      unfold Document.current at hcurrent
      rw [hst] at hcurrent
      exact hcurrent
  have hfind : ∀ f ∈ plan.files, (settled env plan.kb.id plan.path).answers
      ⟨⟨.docsAt, f.path⟩, .docsAt plan.kb.id f.path⟩ [] →
        Importable env plan (settled env plan.kb.id plan.path) (fun _ => False) f := by
    intro f hf hnone
    exact absurd rfl (hnone rfl ⟨f, hfiles ▸ hf, rfl⟩)
  refine (runScan_uses hidle hdocs (fun f _ => Or.inr ⟨_, _, rfl⟩) hfind).weaken ?_
  rintro report ⟨himported, hcounts⟩
  exact ⟨(hcounts rfl).1, (hcounts rfl).2, List.eq_nil_iff_forall_not_mem.mpr himported⟩

/-- The next scan leaves the documents alone, whatever raises. -/
theorem scanDirectory_settled {w : World}
    (h : Settled env req.kbId (abspath env.cwd req.path) w.db) (su : Surroundings) :
    ((scanDirectory env req).exec su w).2.db.documents = w.db.documents ∧
      ∀ report, ((scanDirectory env req).exec su w).1 = .ok (.ok report) →
        report.deleted = 0 ∧ report.reparsed = 0 ∧ report.imported = [] := by
  rcases scanDirectory_cases env req su w with ⟨r, w', hr, hdb⟩ | ⟨plan, hraise, hadmitted⟩
  · rw [hr]
    exact ⟨congrArg Db.documents hdb, fun report hreport => by cases hreport⟩
  · obtain ⟨hkb, hpath, hfiles⟩ := admitted_eq_ok hadmitted
    have hid : plan.kb.id = req.kbId := (Table.get?_eq_some.mp hkb).2
    rw [← hid, ← hpath] at h
    have huses : Uses (settled env plan.kb.id plan.path)
      (fun report => report.deleted = 0 ∧ report.reparsed = 0 ∧ report.imported = [])
      (runScan env req plan) := runScan_settled hfiles
    have hkeeps := huses.only.exec (Terms.keeps_handle su (settled_keeps h su.uuid)) (s := w) rfl
    refine ⟨?_, ?_⟩
    · rw [scanDirectory_state hraise hadmitted]
      exact hkeeps.1
    · intro report hreport
      obtain ⟨plan', hadmitted', hrun⟩ := scanDirectory_eq_ok (Prod.ext hreport rfl)
      cases hadmitted.symm.trans hadmitted'
      exact hkeeps.2 report (congrArg Prod.fst hrun)

end settled

/-! A directory with an unchanged, a new and a modified file, and the document of a file that is
gone. -/

def mixedFs : FileSystem :=
  { files := [⟨["mnt", "data", "a.txt"], 1, 5⟩, ⟨["mnt", "data", "b.txt"], 2, 7⟩,
      ⟨["mnt", "data", "c.txt"], 3, 9⟩]
    emptyDirs := []
    nodup := by simp
    names := by decide }

def mixedDb : Db :=
  volumeDb ⟨[volumeDoc "a" "/mnt/data/a.txt", volumeDoc "c" "/mnt/data/c.txt",
    volumeDoc "d" "/mnt/data/d.txt"], by decide⟩

def mixedRun : Except Err (Except Refusal ScanReport) × World :=
  (scanDirectory (volumeEnv mixedFs) volumeRequest).exec (calm volumeUuid) ⟨mixedDb, []⟩

def mixedReport : ScanReport :=
  { imported := ["uu", "uuuuuu"], errors := [], scanDirId := "u", deleted := 1, skipped := 2,
    reparsed := 1 }

/-- A document of an earlier scan is of no other source. -/
theorem volumeDb_foreign {dir : Str} {documents : Table Document Document.id}
    (h : ∀ d ∈ documents.rows, d.sourceType = localScan) :
    ∀ d ∈ (volumeDb documents).documents, d.kbId = volumeRequest.kbId →
      inside dir d.location = true → d.sourceType = localScan :=
  fun d hd _ _ => h d hd

def bareFs : FileSystem :=
  { files := [], emptyDirs := [["mnt"]], nodup := by simp, names := by decide }

def bareDb : Db := volumeDb ⟨[volumeDoc "a" "/mnt/data/a.txt"], by simp⟩

def casesFs : FileSystem :=
  { files := [⟨["mnt", "data", "A.txt"], 1, 5⟩, ⟨["mnt", "data", "a.txt"], 2, 7⟩]
    emptyDirs := []
    nodup := by simp
    names := by decide }

def casesDb : Db := { volumeDb Table.empty with engine := .mysql }

def casesReport : ScanReport :=
  { imported := ["uu"], errors := [], scanDirId := "u", deleted := 0, skipped := 1, reparsed := 0 }

end RagFlow
