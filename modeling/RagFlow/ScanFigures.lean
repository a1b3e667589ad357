import RagFlow.ScanRetry

/-! # The figures of a scan

A scan reports how many files it has imported, how many imports have failed and how many files it
has skipped.

* **The imports.**  Each file adds one to one of the three figures (`importStep_figures`), so the
  imports add the number of files (`importAll_figures`).
* **The sweep.**  It counts a document as skipped when it finds its file unchanged
  (`sweep_figures`).  The import comes to that file again, finds the document at its path and
  counts it once more.
* **The report.**  Its figures are the number of files and the number of documents found unchanged
  (`runScan_figures`), so every file is counted once exactly when there is no such document
  (`figures_account_iff`). -/

namespace RagFlow.Figures

open Py Effect Retry

/-- The files a tally accounts for. -/
def total (t : Tally) : ℕ := t.imported.length + t.errors.length + t.skipped

/-- The files a report accounts for. -/
def reported (report : ScanReport) : ℕ :=
  report.imported.length + report.errors.length + report.skipped

/-- The sweep looks at the file of the document and finds it unchanged. -/
def foundUnchanged (su : Surroundings) (env : ScanEnv) (plan : ScanPlan) (d : Document) : Bool :=
  d.startsWith plan.path && (plan.files.map (·.path)).contains (d.location.getD []) &&
    !su.raises ⟨.stat, d.id⟩ && d.current env

section figures
variable {su : Surroundings} {env : ScanEnv} {req : ScanRequest} {plan : ScanPlan}

/-! ### The imports -/

theorem total_after (t : Tally) (f : WalkEntry) (r : Except Err (Option Str)) :
    total (Retry.Tally.after t f r) = total t + 1 := by
  unfold total
  rcases r with e | _ | id
  · show t.imported.length + (t.errors ++ [(f.rel, e)]).length + t.skipped = _
    rw [List.length_append, List.length_singleton]
    omega
  · rfl
  · show (t.imported ++ [id]).length + t.errors.length + t.skipped = _
    rw [List.length_append, List.length_singleton]
    omega

/-- The import of a file counts it once. -/
theorem importStep_figures {t t' : Tally} {f : WalkEntry} {w w' : World}
    (h : (importStep env req plan t f).exec su w = (.ok t', w')) : total t' = total t + 1 := by
  rw [importStep_exec] at h
  cases h
  exact total_after t f _

theorem importAll_figures (files : List WalkEntry) : ∀ {t t' : Tally} {w w' : World},
    (importAll env req plan t files).exec su w = (.ok t', w') →
      total t' = total t + files.length := by
  induction files with
  | nil =>
      intro t t' w w' h
      cases h
      rfl
  | cons f files ih =>
      intro t t' w w' h
      obtain ⟨t₁, w₁, hstep, hrest⟩ := Service.exec_bind_eq_ok h
      rw [ih hrest, importStep_figures hstep, List.length_cons]
      omega

/-! ### The sweep -/

theorem reparse_figures {d : Document} {t t' : Tally} {w w' : World}
    (h : (reparse d t).exec su w = (.ok t', w')) : total t' = total t := by
  unfold reparse Service.exec at h
  rw [Prog.exec_tryCatch, Prog.exec_bind] at h
  rcases hrun : Prog.exec (handle su) (removeScanned d) w with ⟨r, w₁⟩
  rw [hrun] at h
  cases r with
  | error e =>
      cases h
      rfl
  | ok _ =>
      cases h
      rfl

theorem sweepPresent_figures {d : Document} {t t' : Tally} {w w' : World}
    (h : (sweepPresent env d (d.location.getD []) t).exec su w = (.ok t', w')) :
    total t' = total t + if !su.raises ⟨.stat, d.id⟩ && d.current env then 1 else 0 := by
  unfold sweepPresent Service.exec at h
  rw [Prog.exec_tryCatch, Prog.exec_bind] at h
  unfold Document.current
  rcases hrun : Prog.exec (handle su)
    (issue .stat d.id (.osStat (env.fs.stat (d.location.getD [])))) w with ⟨r, w₁⟩
  rw [hrun] at h
  cases r with
  | error e =>
      cases h
      rcases hraise : su.raises ⟨.stat, d.id⟩ with _ | _
      · cases hst : env.fs.stat (d.location.getD []) with
        | none => rfl
        | some st =>
            rw [hst] at hrun
            have happly : Db.apply su.uuid (.osStat (some st)) w.db = (.ok st, w.db) := rfl
            cases hrun.symm.trans (exec_issue_ok hraise happly)
      · rfl
  | ok st =>
      obtain ⟨hraise, hst, -⟩ := exec_issue_eq_ok hrun
      obtain ⟨hst, -⟩ := apply_osStat (Prod.ext hst rfl)
      rw [hst, hraise, Option.any_some]
      dsimp only at h
      cases hun : unchanged d st with
      | true =>
          rw [if_pos hun] at h
          cases h
          rfl
      | false =>
          rw [if_neg (by simp [hun])] at h
          rcases hrun' : Prog.exec (handle su) (reparse d t) w₁ with ⟨r, w₂⟩
          rw [hrun'] at h
          cases r with
          | error e =>
              cases h
              rfl
          | ok t₁ =>
              cases h
              exact reparse_figures hrun'

/-- The sweep counts a document whose file it finds unchanged, and no other. -/
theorem sweepDoc_figures {d : Document} {t t' : Tally} {w w' : World}
    (h : (sweepDoc env plan t d).exec su w = (.ok t', w')) :
    total t' = total t + if foundUnchanged su env plan d then 1 else 0 := by
  unfold foundUnchanged
  unfold sweepDoc at h
  cases hstarts : d.startsWith plan.path with
  | false =>
      rw [hstarts] at h
      cases h
      rfl
  | true =>
      rw [if_pos hstarts] at h
      cases hmem : (plan.files.map (·.path)).contains (d.location.getD []) with
      | false =>
          rw [if_neg (Bool.not_eq_true _ ▸ hmem)] at h
          obtain ⟨_, w₁, -, hpure⟩ := Service.exec_bind_eq_ok h
          cases hpure
          rfl
      | true =>
          rw [if_pos hmem] at h
          exact sweepPresent_figures h

theorem sweep_figures (docs : List Document) : ∀ {t t' : Tally} {w w' : World},
    (sweep env plan t docs).exec su w = (.ok t', w') →
      total t' = total t + docs.countP (foundUnchanged su env plan) := by
  induction docs with
  | nil =>
      intro t t' w w' h
      cases h
      rfl
  | cons d docs ih =>
      intro t t' w w' h
      obtain ⟨t₁, w₁, hdoc, hrest⟩ := Service.exec_bind_eq_ok h
      rw [ih hrest, sweepDoc_figures hdoc, List.countP_cons]
      omega

/-! ### The report -/

theorem idle_exec {α : Type} {Q : α → Prop} {p : Service α} (hp : Uses idle Q p)
    {w w' : World} {r : Except Err α} (h : p.exec su w = (r, w')) :
    w'.db.documents = w.db.documents := by
  have hkeeps : idle.Keeps (handle su) (fun x => x.db.documents = w.db.documents) :=
    Terms.keeps_handle su (I := fun db => db.documents = w.db.documents)
      (fun c db hc hdb => ⟨(hc.1.documents su.uuid db).trans hdb, fun _ _ => trivial⟩)
  exact (Service.exec_keeps h hp.only hkeeps rfl).1

/-- The documents that the sweep goes through. -/
def sweptDocs (plan : ScanPlan) (db : Db) : List Document :=
  db.documents.select (fun d => d.kbId = plan.kb.id && d.sourceType = localScan)

/-- A report counts every file, and the unchanged ones again. -/
theorem runScan_figures {w w' : World} {report : ScanReport}
    (h : (runScan env req plan).exec su w = (.ok report, w')) :
    reported report =
      plan.files.length + (sweptDocs plan w.db).countP (foundUnchanged su env plan) := by
  obtain ⟨id, w₁, hdir, h⟩ := Service.exec_bind_eq_ok h
  obtain ⟨docs, w₂, hquery, h⟩ := Service.exec_bind_eq_ok h
  obtain ⟨t, w₃, hsweep, h⟩ := Service.exec_bind_eq_ok h
  obtain ⟨t', w₄, himport, h⟩ := Service.exec_bind_eq_ok h
  obtain ⟨_, w₅, -, h⟩ := Service.exec_bind_eq_ok h
  cases h
  have hdocs : docs = sweptDocs plan w.db := by
    obtain ⟨-, hreply, -⟩ := exec_issue_eq_ok hquery
    cases hreply
    unfold sweptDocs
    rw [idle_exec (directoryRecord_uses req plan) hdir]
  show total t' = _
  rw [importAll_figures plan.files himport, sweep_figures docs hsweep, hdocs]
  show 0 + _ + _ = _
  omega

theorem foundUnchanged_iff (hfiles : plan.files = filesToImport env plan.path) {d : Document} :
    foundUnchanged su env plan d = true ↔ d.location ∈ fileLocations env plan.path ∧
      d.current env = true ∧ su.raises ⟨.stat, d.id⟩ = false := by
  have hlocations : fileLocations env plan.path = plan.files.map (fun f => some f.path) := by
    rw [hfiles]
    rfl
  unfold foundUnchanged
  rw [Bool.and_eq_true, Bool.and_eq_true, Bool.and_eq_true, Bool.not_eq_true',
    List.contains_iff_mem, hlocations]
  constructor
  · rintro ⟨⟨⟨hstarts, hmem⟩, hraise⟩, hcurrent⟩
    obtain ⟨f, hf, hpath⟩ := List.mem_map.mp hmem
    refine ⟨List.mem_map.mpr ⟨f, hf, ?_⟩, hcurrent, hraise⟩
    rw [hpath, ← location_of_startsWith hstarts]
  · rintro ⟨hmem, hcurrent, hraise⟩
    obtain ⟨f, hf, hloc⟩ := List.mem_map.mp hmem
    refine ⟨⟨⟨?_, ?_⟩, hraise⟩, hcurrent⟩
    · apply startsWith_of_inside
      rw [← hloc]
      exact inside_of_mem_files hfiles hf
    · rw [← hloc]
      exact List.mem_map_of_mem hf

/-- **The figures of a scan.**  A scan that succeeds accounts for each file of the directory once
exactly when it finds no file unchanged. -/
theorem figures_account_iff (env : ScanEnv) (req : ScanRequest) (su : Surroundings) (w w' : World)
    (report : ScanReport) (h : (scanDirectory env req).exec su w = (.ok (.ok report), w')) :
    report.imported.length + report.errors.length + report.skipped =
        (filesToImport env (abspath env.cwd req.path)).length ↔
      ∀ d ∈ w.db.documents, d.kbId = req.kbId → d.sourceType = localScan →
        d.location ∈ fileLocations env (abspath env.cwd req.path) → d.current env = true →
          su.raises ⟨.stat, d.id⟩ = true := by
  obtain ⟨plan, hadmitted, hrun⟩ := scanDirectory_eq_ok h
  obtain ⟨hkb, hpath, hfiles⟩ := admitted_eq_ok hadmitted
  have hid : plan.kb.id = req.kbId := (Table.get?_eq_some.mp hkb).2
  have hreport := runScan_figures hrun
  unfold reported at hreport
  rw [hreport, ← hpath, ← hid, ← hfiles, Nat.add_eq_left, List.countP_eq_zero]
  constructor
  · intro hnone d hd hdkb hsource hloc hcurrent
    have hswept : d ∈ sweptDocs plan w.db :=
      Table.mem_select.mpr ⟨hd, by simp [hdkb, hsource]⟩
    by_contra hraise
    rw [Bool.not_eq_true] at hraise
    exact hnone d hswept ((foundUnchanged_iff hfiles).mpr ⟨hloc, hcurrent, hraise⟩)
  · intro hraises d hswept hfound
    obtain ⟨hd, hof⟩ := Table.mem_select.mp hswept
    rw [Bool.and_eq_true, decide_eq_true_iff, decide_eq_true_iff] at hof
    obtain ⟨hloc, hcurrent, hraise⟩ := (foundUnchanged_iff hfiles).mp hfound
    rw [hraises d hd hof.1 hof.2 hloc hcurrent] at hraise
    cases hraise

end figures

/-! The directory with an unchanged, a new and a modified file, and the scan of it when the
document of the unchanged file is missing. -/

def newcomerDb : Db :=
  volumeDb ⟨[volumeDoc "c" "/mnt/data/c.txt", volumeDoc "d" "/mnt/data/d.txt"], by decide⟩

def newcomerRun : Except Err (Except Refusal ScanReport) × World :=
  (scanDirectory (volumeEnv mixedFs) volumeRequest).exec (calm volumeUuid) ⟨newcomerDb, []⟩

theorem figures_account_newcomers :
    (filesToImport (volumeEnv mixedFs) "/mnt/data").length = 3 ∧
      ∃ report, newcomerRun.1 = .ok (.ok report) ∧
        report.imported.length + report.errors.length + report.skipped = 3 := by
  refine ⟨rfl, _, rfl, ?_⟩
  refine (figures_account_iff (volumeEnv mixedFs) volumeRequest (calm volumeUuid) ⟨newcomerDb, []⟩
    newcomerRun.2 _ rfl).mpr ?_
  intro d hd _ _ _ hcurrent
  rcases List.mem_pair.mp hd with rfl | rfl
  · exact absurd hcurrent (by decide)
  · exact absurd hcurrent (by decide)

/-- An unchanged file is counted by the sweep and again by the imports. -/
theorem unchanged_counted_twice :
    ∃ report, mixedRun.1 = .ok (.ok report) ∧
      (filesToImport (volumeEnv mixedFs) "/mnt/data").length = 3 ∧
      report.imported.length + report.errors.length + report.skipped = 4 :=
  ⟨mixedReport, rfl, rfl, rfl⟩

end RagFlow.Figures
