import RagFlow.Migration

/-! # The counters of a migration

`_migrate_data` counts each batch as migrated (`update_progress`, saved at once) or as failed (only
in the progress object until it is saved again), from the counters of the progress it is given.
The scan does not continue where the counters do.

* **The loop.** `Tallied` relates the three places of the counters: the file, the progress object
  and `migrated`.  `migrateBatches_tallied` adds up what a whole loop counts.
* **A call.** `counted_iff_countsOnce`: when the counters of a call that goes through its loop are
  those of the index.
* **Runs.** `migrations_counted`: in every run of calls. -/

namespace RagFlow.Migration

open Py

/-! ### What a loop counts -/

/-- The documents a progress counts as migrated or failed. -/
def Progress.counted (p : Progress) : ℕ := p.migratedDocuments + p.failedDocuments

/-- The documents a result counts as migrated or failed. -/
def Result.counted (r : Result) : ℕ := r.migratedDocuments + r.failedDocuments

/-- The documents of a batch that are counted once more: it is inserted and counted as migrated, and
then the callback raises and it is counted as failed. -/
def Outcome.again (o : Outcome) (batch : List Str) : ℕ :=
  match o with
  | .callbackRaised => batch.length
  | .inserted | .insertFailed _ | .stopped _ _ => 0

/-- The failed documents that the file does not count after the batch, if it did not count `unsaved`
before. -/
def Outcome.unsavedAfter (o : Outcome) (batch : List Str) (unsaved : ℕ) : ℕ :=
  match o with
  | .inserted => 0
  | .callbackRaised => batch.length
  | .insertFailed _ => unsaved + batch.length
  | .stopped _ _ => unsaved

/-- The documents of some batches that are counted twice. -/
def countedTwice (o : ℕ → Outcome) : List (List Str) → ℕ → ℕ
  | [], _ => 0
  | batch :: batches, i => (o i).again batch + countedTwice o batches (i + 1)

/-- The failed documents that the file does not count after some batches. -/
def unsavedFailed (o : ℕ → Outcome) : List (List Str) → ℕ → ℕ → ℕ
  | [], _, unsaved => unsaved
  | batch :: batches, i, unsaved =>
      unsavedFailed o batches (i + 1) ((o i).unsavedAfter batch unsaved)

/-- The local counter is that of the progress object, and the file lacks `unsaved` failures. -/
structure Tallied (unsaved : ℕ) (l : Loop) : Prop where
  migrated : l.migrated = l.progress.migratedDocuments
  file : ∃ q, l.state.file = some q ∧ q.counted + unsaved = l.progress.counted

section loop
variable {o : Outcome} {batch : List Str} {l l' : Loop} {unsaved : ℕ}

theorem migrateBatch_tallied (hl : Tallied unsaved l) (h : migrateBatch o batch l = (l', none)) :
    Tallied (o.unsavedAfter batch unsaved) l' ∧
      l'.progress.counted = l.progress.counted + batch.length + o.again batch := by
  obtain ⟨hmigrated, q, hfile, hcount⟩ := hl
  unfold migrateBatch at h
  cases o with
  | inserted =>
      obtain ⟨rfl, -⟩ := Prod.mk.inj h
      refine ⟨⟨?_, _, rfl, rfl⟩, ?_⟩
      · show l.migrated + batch.length = l.progress.migratedDocuments + batch.length
        rw [hmigrated]
      · simp only [Progress.counted, Outcome.again, updateProgress]
        omega
  | callbackRaised =>
      obtain ⟨rfl, -⟩ := Prod.mk.inj h
      refine ⟨⟨?_, _, rfl, ?_⟩, ?_⟩
      · show l.migrated + batch.length = l.progress.migratedDocuments + batch.length
        rw [hmigrated]
      · simp only [Progress.counted, Outcome.unsavedAfter, updateProgress, countFailed]
        omega
      · simp only [Progress.counted, Outcome.again, updateProgress, countFailed]
        omega
  | insertFailed written =>
      obtain ⟨rfl, -⟩ := Prod.mk.inj h
      refine ⟨⟨hmigrated, q, hfile, ?_⟩, ?_⟩
      · simp only [Progress.counted, Outcome.unsavedAfter, countFailed] at hcount ⊢
        omega
      · simp only [Progress.counted, Outcome.again, countFailed]
        omega
  | stopped cause written => cases h

/-- A loop that is gone through to the end counts every document of its batches, and some once
more. -/
theorem migrateBatches_tallied {o : ℕ → Outcome} (batches : List (List Str)) (i : ℕ)
    (hl : Tallied unsaved l) (h : migrateBatches o batches i l = (l', none)) :
    Tallied (unsavedFailed o batches i unsaved) l' ∧
      l'.progress.counted =
        l.progress.counted + batches.flatten.length + countedTwice o batches i := by
  induction batches generalizing i l unsaved with
  | nil =>
      obtain ⟨rfl, -⟩ := Prod.mk.inj h
      exact ⟨hl, rfl⟩
  | cons batch batches ih =>
      unfold migrateBatches at h
      cases hbatch : migrateBatch (o i) batch l with
      | mk l₁ stop =>
          rw [hbatch] at h
          cases stop with
          | some cause => cases h
          | none =>
              obtain ⟨hl₁, hcount₁⟩ := migrateBatch_tallied hl hbatch
              obtain ⟨hl', hcount⟩ := ih (i + 1) hl₁ h
              refine ⟨hl', ?_⟩
              rw [hcount, hcount₁, List.flatten_cons, List.length_append, countedTwice]
              omega

end loop

/-! ### What a call counts -/

/-- The state of a call when it reaches its loop, with a progress object. -/
def loopStartWith (c : Call) (p : Progress) (s : State) : Option Loop :=
  if p.tableCreated then some ⟨s, p, p.migratedDocuments⟩
  else
    match c.tableStop with
    | some _ => none
    | none =>
        let p := { p with tableCreated := true }
        some ⟨s.createTable.save p, p, p.migratedDocuments⟩

/-- The progress a call starts with. -/
def Call.startProgress (c : Call) (index : List Str) (s : State) : Progress :=
  (c.resumed s).getD (freshProgress index.length)

/-- The state of a call when it reaches its loop; `none` if it does not. -/
def loopStart (index : List Str) (c : Call) (s : State) : Option Loop :=
  match c.checkStop with
  | some _ => none
  | none =>
      if index = [] then none
      else
        match c.resumed s with
        | some p => loopStartWith c p s
        | none =>
            if s.table.isSome then none
            else
              loopStartWith c (freshProgress index.length)
                (s.save (freshProgress index.length))

/-- The call finishes its data loop. -/
def FinishesLoop (index : List Str) (c : Call) (s : State) : Prop :=
  ∃ l l', loopStart index c s = some l ∧
    migrateBatches c.outcomes (scrollDocuments c.batchSize index) 0 l = (l', none)

/-- The counters of the saved progress and of the result, where there is one, are those of the
index. -/
def Counted (index : List Str) (out : State × Option Result) : Prop :=
  (∃ q, out.1.file = some q ∧ q.counted = index.length) ∧
    ∀ r, out.2 = some r → r.counted = index.length

/-- The documents a scan yields. -/
def Call.scanned (c : Call) (index : List Str) : ℕ := if c.batchSize = 0 then 0 else index.length

/-- What the progress counts before the loop, what the scan yields and what is counted twice add up
to the documents of the index, and to the failures that are not saved if the process ends before
the mark. -/
def CountsOnce (index : List Str) (c : Call) (s : State) : Prop :=
  (c.startProgress index s).counted + c.scanned index +
      countedTwice c.outcomes (scrollDocuments c.batchSize index) 0 =
    index.length +
      if c.markStop = some .killed then
        unsavedFailed c.outcomes (scrollDocuments c.batchSize index) 0 0
      else 0

section call
variable {index : List Str} {c : Call} {s : State} {l l' : Loop} {p : Progress}

theorem length_flatten_scrollDocuments :
    (scrollDocuments c.batchSize index).flatten.length = c.scanned index := by
  unfold Call.scanned
  by_cases hzero : c.batchSize = 0
  · rw [if_pos hzero, hzero, scrollDocuments_zero]
    rfl
  · rw [if_neg hzero, flatten_scrollDocuments (Nat.pos_of_ne_zero hzero)]

variable (index) in
/-- Up to its loop a call counts nothing, and the progress is saved. -/
theorem loopStartWith_tallied (hfile : s.file = some p) (h : loopStartWith c p s = some l) :
    Tallied 0 l ∧ l.progress.counted = p.counted ∧
      migrateWith index c p s = migrateLoop index c l.progress l.state := by
  unfold loopStartWith at h
  unfold migrateWith
  by_cases hcreated : p.tableCreated = true
  · rw [if_pos hcreated] at h ⊢
    obtain rfl := Option.some.inj h
    exact ⟨⟨rfl, p, hfile, rfl⟩, rfl, rfl⟩
  · rw [if_neg hcreated] at h ⊢
    cases hstop : c.tableStop with
    | some cause =>
        rw [hstop] at h
        cases h
    | none =>
        rw [hstop] at h
        obtain rfl := Option.some.inj h
        exact ⟨⟨rfl, _, rfl, rfl⟩, rfl, rfl⟩

/-- A call that reaches its loop starts it with the counters of its progress, which is saved. -/
theorem loopStart_tallied (h : loopStart index c s = some l) :
    Tallied 0 l ∧ l.progress.counted = (c.startProgress index s).counted ∧
      migrate index c s = migrateLoop index c l.progress l.state := by
  unfold loopStart at h
  unfold migrate Call.startProgress
  cases hcheck : c.checkStop with
  | some cause =>
      rw [hcheck] at h
      cases h
  | none =>
      simp only [hcheck] at h ⊢
      by_cases hindex : index = []
      · rw [if_pos hindex] at h
        cases h
      · rw [if_neg hindex] at h ⊢
        cases hresumed : c.resumed s with
        | some p =>
            simp only [hresumed] at h ⊢
            exact loopStartWith_tallied index (resumed_eq_some hresumed).1 h
        | none =>
            simp only [hresumed] at h ⊢
            by_cases htable : s.table.isSome = true
            · rw [if_pos htable] at h
              cases h
            · rw [if_neg htable] at h ⊢
              exact loopStartWith_tallied index rfl h

/-- A call that is killed between the loop and the mark returns nothing and saves nothing. -/
theorem finish_killed {n : ℕ} (h : c.markStop = some .killed) :
    finish c l n = (l.state, none) := by
  unfold finish
  rw [h]
  rfl

theorem handle_counted {r : Result} (cause : Stop)
    (hfile : cause = .killed → ∃ q, s.file = some q ∧ q.counted = p.counted) :
    (∃ q, (handle cause p s r).1.file = some q ∧ q.counted = p.counted) ∧
      ∀ r', (handle cause p s r).2 = some r' → r' = r := by
  cases cause with
  | keyboardInterrupt | exception =>
      exact ⟨⟨_, rfl, rfl⟩, fun r' hr' => (Option.some.inj hr').symm⟩
  | killed => exact ⟨hfile rfl, fun r' hr' => (by cases hr')⟩

/-- In every other case the counters are saved, and those of the result are the same. -/
theorem finish_counted {n : ℕ} (h : c.markStop ≠ some .killed)
    (hl : l.migrated = l.progress.migratedDocuments) :
    (∃ q, (finish c l n).1.file = some q ∧ q.counted = l.progress.counted) ∧
      ∀ r, (finish c l n).2 = some r → r.counted = l.progress.counted := by
  have hresult : ∀ b, Result.counted ⟨b, n, l.migrated, l.progress.failedDocuments⟩ =
      l.progress.counted := fun b => by rw [Result.counted, hl]; rfl
  unfold finish
  simp only
  cases hmark : c.markStop with
  | some cause =>
      have hnotKilled : cause ≠ .killed := fun hcause => h (hmark.trans (congrArg some hcause))
      obtain ⟨hfile, hsame⟩ := handle_counted (p := l.progress) (s := l.state)
        (r := ⟨false, n, l.migrated, l.progress.failedDocuments⟩) cause
        (fun hkilled => absurd hkilled hnotKilled)
      exact ⟨hfile, fun r hr => hsame r hr ▸ hresult false⟩
  | none =>
      have hsaved : ∀ (cause : Stop) (b : Bool), _ := fun cause b =>
        handle_counted (p := { l.progress with status := .completed })
          (s := l.state.save { l.progress with status := .completed })
          (r := ⟨b, n, l.migrated, l.progress.failedDocuments⟩) cause (fun _ => ⟨_, rfl, rfl⟩)
      simp only
      split
      · rename_i cause _
        obtain ⟨hfile, hsame⟩ := hsaved cause false
        exact ⟨hfile, fun r hr => hsame r hr ▸ hresult false⟩
      · split
        · rename_i cause _
          obtain ⟨hfile, hsame⟩ := hsaved cause true
          exact ⟨hfile, fun r hr => hsame r hr ▸ hresult true⟩
        · exact ⟨⟨_, rfl, rfl⟩, fun r hr => Option.some.inj hr ▸ hresult true⟩

/-- A call that finishes its loop has the counters of the index exactly if it counts every document
once. -/
theorem counted_iff_countsOnce (h : FinishesLoop index c s) :
    Counted index (migrate index c s) ↔ CountsOnce index c s := by
  obtain ⟨l, l', hstart, hbatches⟩ := h
  obtain ⟨htallied, hcount, hmigrate⟩ := loopStart_tallied hstart
  have hl : l = ⟨l.state, l.progress, l.progress.migratedDocuments⟩ := by
    rw [← htallied.migrated]
  obtain ⟨htallied', hcount'⟩ := migrateBatches_tallied _ 0 htallied hbatches
  rw [hl] at hbatches
  have hfinish : migrate index c s = finish c l' index.length := by
    rw [hmigrate, migrateLoop, hbatches]
  rw [length_flatten_scrollDocuments, hcount] at hcount'
  rw [hfinish]
  unfold CountsOnce
  rw [← hcount']
  by_cases hkilled : c.markStop = some .killed
  · rw [finish_killed hkilled, if_pos hkilled]
    obtain ⟨q, hfile, hunsaved⟩ := htallied'.file
    rw [← hunsaved]
    constructor
    · rintro ⟨⟨q', hfile', hq'⟩, -⟩
      obtain rfl := Option.some.inj (hfile.symm.trans hfile')
      rw [hq']
    · intro hsum
      exact ⟨⟨q, hfile, by omega⟩, fun r hr => (by cases hr)⟩
  · rw [if_neg hkilled, Nat.add_zero]
    obtain ⟨⟨q, hfile, hq⟩, hresult⟩ := finish_counted (n := index.length) hkilled
      htallied'.migrated
    constructor
    · rintro ⟨⟨q', hfile', hq'⟩, -⟩
      obtain rfl := Option.some.inj (hfile.symm.trans hfile')
      rw [← hq, hq']
    · intro hsum
      exact ⟨⟨q, hfile, hq.trans hsum⟩, fun r hr => (hresult r hr).trans hsum⟩

/-- Unless it is killed before the mark, a call that scans the index counts every document once
exactly if it starts with counters that are zero and no callback raises. -/
theorem countsOnce_iff_zero (hsize : c.batchSize ≠ 0) (hmark : c.markStop ≠ some .killed) :
    CountsOnce index c s ↔ (c.startProgress index s).counted = 0 ∧
      countedTwice c.outcomes (scrollDocuments c.batchSize index) 0 = 0 := by
  unfold CountsOnce Call.scanned
  rw [if_neg hsize, if_neg hmark]
  omega

end call

/-! ### Runs -/

/-- In every run of calls, fresh or resumed, the calls that finish their data loop all have the
counters of the index exactly if they all count every document once. -/
theorem migrations_counted (index : List Str) (s : State) (calls : List Call) :
    Transition.AllSteps (fun s x => FinishesLoop index x.1 s → Counted index (migrate index x.1 s))
        s (migrations index s calls) ↔
      Transition.AllSteps (fun s x => FinishesLoop index x.1 s → CountsOnce index x.1 s)
        s (migrations index s calls) :=
  Transition.allSteps_congr (fun _ _ => imp_congr_right counted_iff_countsOnce) _

/-! The second call resumes after the first document was migrated, and migrates it again. -/

/-- A resumed call that is not interrupted. -/
def sampleAll : Call := sampleCall true (fun _ => .inserted)

theorem migrations_count_again : ¬Transition.AllSteps
    (fun s x => FinishesLoop sampleIndex x.1 s → Counted sampleIndex (migrate sampleIndex x.1 s))
    ⟨none, none⟩ (migrations sampleIndex ⟨none, none⟩ [sampleInterrupted, sampleAll]) := by
  rintro ⟨-, hcounted, -⟩
  obtain ⟨-, hresult⟩ := hcounted ⟨_, _, rfl, rfl⟩
  exact absurd (hresult ⟨true, 2, 3, 0⟩ rfl) (by decide)

end RagFlow.Migration
