import Mathlib.Data.List.Nodup
import RagFlow.PyStr
import RagFlow.Transition

/-! # The migration from Elasticsearch to OceanBase

`ESToOceanBaseMigrator` of `tools/es-to-oceanbase-migration`: `migrate` scans an index in batches,
inserts each batch into a table and keeps its progress in a file, from which a later call resumes.

* **Scanning.** `scrollDocuments` cuts the documents of the index into batches; a resumed call
  scans from the beginning again.
* **A batch.** `migrateBatch` with the outcomes of its insertion.  An insertion that raises is
  counted and passed over.
* **A call.** `migrate` from the state of the progress file and the table.  What happens during
  a call (failures, interruptions, the end of the process) is data of the call.
* **Runs.** A run is a sequence of calls.  `migrations_complete`: in a run in which every
  document of a failed insertion has a row all the same, a call that reports success or leaves
  the progress completed leaves every document with a row.

A document is its id: the row of a document has the id of the document. -/

namespace RagFlow.Migration

open Py

/-! ### Scanning -/

/-- The pages of `scroll_documents`; `fuel` bounds their number. -/
def scrollFrom (batchSize : ℕ) : ℕ → List Str → List (List Str)
  | 0, _ => []
  | fuel + 1, docs =>
      let hits := docs.take batchSize
      if hits = [] then []
      else if hits.length < batchSize then [hits]
      else hits :: scrollFrom batchSize fuel (docs.drop batchSize)

/-- `scroll_documents`: the batches of an index. -/
def scrollDocuments (batchSize : ℕ) (index : List Str) : List (List Str) :=
  scrollFrom batchSize (index.length + 1) index

theorem flatten_scrollFrom {batchSize : ℕ} (h : 0 < batchSize) (fuel : ℕ) (docs : List Str)
    (hfuel : docs.length < fuel) : (scrollFrom batchSize fuel docs).flatten = docs := by
  induction fuel generalizing docs with
  | zero => omega
  | succ fuel ih =>
      unfold scrollFrom
      simp only
      split_ifs with hempty hlast
      · rcases List.take_eq_nil_iff.mp hempty with hzero | hnil
        · omega
        · exact hnil.symm
      · rw [List.length_take] at hlast
        rw [List.flatten_singleton, List.take_of_length_le (by omega)]
      · rw [List.length_take] at hlast
        rw [List.flatten_cons, ih _ (by rw [List.length_drop]; omega), List.take_append_drop]

/-- The batches are the documents of the index. -/
theorem flatten_scrollDocuments {batchSize : ℕ} (h : 0 < batchSize) (index : List Str) :
    (scrollDocuments batchSize index).flatten = index :=
  flatten_scrollFrom h _ index (Nat.lt_succ_self _)

/-- A search for zero documents finds none. -/
theorem scrollDocuments_zero (index : List Str) : scrollDocuments 0 index = [] := by
  simp [scrollDocuments, scrollFrom]

/-! ### Progress -/

/-- `MigrationProgress.status`. -/
inductive Status where
  | pending
  | running
  | completed
  | failed
  | paused
  deriving DecidableEq

/-- `MigrationProgress`, as far as it is read again or reported. -/
structure Progress where
  totalDocuments : ℕ
  migratedDocuments : ℕ
  failedDocuments : ℕ
  lastBatchIds : List Str
  status : Status
  tableCreated : Bool
  deriving DecidableEq

/-- The progress file, and the ids of the rows of the table if it exists. -/
structure State where
  file : Option Progress
  table : Option (List Str)

namespace State

/-- `save_progress`. -/
def save (s : State) (p : Progress) : State := { s with file := some p }

/-- `can_resume`. -/
def canResume (s : State) : Bool :=
  match s.file with
  | none => false
  | some p => p.status = .running || p.status = .paused || p.status = .failed

/-- Does the document have a row? -/
def HasRow (s : State) (doc : Str) : Prop := ∃ rows, s.table = some rows ∧ doc ∈ rows

/-- Every document of the index has a row. -/
def Complete (index : List Str) (s : State) : Prop := ∀ doc ∈ index, s.HasRow doc

/-- `create_ragflow_table`, unless the table exists. -/
def createTable (s : State) : State := { s with table := some (s.table.getD []) }

/-- `upsert` of the rows of some documents. -/
def insertRows (s : State) (docs : List Str) : State :=
  { s with table := s.table.map (fun rows => rows ++ docs.filter (· ∉ rows)) }

end State

/-! ### A batch -/

/-- What ends a call before its end. -/
inductive Stop where
  | keyboardInterrupt
  | exception
  | killed
  deriving DecidableEq

/-- What happens while a batch is migrated; `written` are documents whose rows are written when it
goes wrong. -/
inductive Outcome where
  | inserted
  | callbackRaised
  | insertFailed (written : List Str)
  | stopped (cause : Stop) (written : List Str)

/-- The documents of a batch whose rows are written. -/
def Outcome.writes (o : Outcome) (batch : List Str) : List Str :=
  match o with
  | .inserted | .callbackRaised => batch
  | .insertFailed written | .stopped _ written => batch.filter (· ∈ written)

/-- The state in the loop: the file and the table, `progress` and `migrated`. -/
structure Loop where
  state : State
  progress : Progress
  migrated : ℕ

/-- `update_progress` after the insertion of a batch. -/
def updateProgress (batch : List Str) (l : Loop) : Loop :=
  let progress := { l.progress with
    migratedDocuments := l.progress.migratedDocuments + batch.length
    lastBatchIds := if batch = [] then l.progress.lastBatchIds else batch }
  ⟨l.state.save progress, progress, l.migrated + batch.length⟩

/-- `progress.failed_documents += len(batch)`, which is not saved at once. -/
def countFailed (batch : List Str) (l : Loop) : Loop :=
  { l with progress :=
    { l.progress with failedDocuments := l.progress.failedDocuments + batch.length } }

/-- The loop body of `_migrate_data`; `none` means that the loop goes on. -/
def migrateBatch (o : Outcome) (batch : List Str) (l : Loop) : Loop × Option Stop :=
  let l := { l with state := l.state.insertRows (o.writes batch) }
  match o with
  | .inserted => (updateProgress batch l, none)
  | .callbackRaised => (countFailed batch (updateProgress batch l), none)
  | .insertFailed _ => (countFailed batch l, none)
  | .stopped cause _ => (l, some cause)

/-- The loop of `_migrate_data`; `o` tells what happens to each batch. -/
def migrateBatches (o : ℕ → Outcome) : List (List Str) → ℕ → Loop → Loop × Option Stop
  | [], _, l => (l, none)
  | batch :: batches, i, l =>
      match migrateBatch (o i) batch l with
      | (l, some cause) => (l, some cause)
      | (l, none) => migrateBatches o batches (i + 1) l

/-! ### A call -/

/-- The arguments of a call of `migrate`, and what happens during it. -/
structure Call where
  batchSize : ℕ
  resume : Bool
  verifyAfter : Bool
  /-- The checks before the progress is looked at are cut short. -/
  checkStop : Option Stop
  /-- The creation of the table is cut short; was it created? -/
  tableStop : Option (Stop × Bool)
  outcomes : ℕ → Outcome
  /-- Something cuts the call short between the loop and the mark. -/
  markStop : Option Stop
  /-- The verification is cut short. -/
  verifyStop : Option Stop
  /-- Something happens after the success was noted. -/
  reportStop : Option Stop

/-- The result dictionary. -/
structure Result where
  success : Bool
  totalDocuments : ℕ
  migratedDocuments : ℕ
  failedDocuments : ℕ
  deriving DecidableEq

/-- The handlers of `migrate`: `mark_paused`, `mark_failed`, or none if the process is gone. -/
def handle (cause : Stop) (p : Progress) (s : State) (r : Result) : State × Option Result :=
  match cause with
  | .keyboardInterrupt => (s.save { p with status := .paused }, some r)
  | .exception => (s.save { p with status := .failed }, some r)
  | .killed => (s, none)

/-- The steps of `migrate` after the loop. -/
def finish (c : Call) (l : Loop) (total : ℕ) : State × Option Result :=
  let r : Result := ⟨false, total, l.migrated, l.progress.failedDocuments⟩
  match c.markStop with
  | some cause => handle cause l.progress l.state r
  | none =>
      let p := { l.progress with status := .completed }
      let s := l.state.save p
      match if c.verifyAfter then c.verifyStop else none with
      | some cause => handle cause p s r
      | none =>
          let r := { r with success := true }
          match c.reportStop with
          | some cause => handle cause p s r
          | none => (s, some r)

/-- The steps of `migrate` from the loop on. -/
def migrateLoop (index : List Str) (c : Call) (p : Progress) (s : State) :
    State × Option Result :=
  match migrateBatches c.outcomes (scrollDocuments c.batchSize index) 0
      ⟨s, p, p.migratedDocuments⟩ with
  | (l, some cause) => handle cause l.progress l.state ⟨false, index.length, 0, 0⟩
  | (l, none) => finish c l index.length

/-- The steps of `migrate` with a progress object: the table is created unless it was before. -/
def migrateWith (index : List Str) (c : Call) (p : Progress) (s : State) :
    State × Option Result :=
  if p.tableCreated then migrateLoop index c p s
  else
    match c.tableStop with
    | some (cause, wasCreated) =>
        handle cause p (if wasCreated then s.createTable else s) ⟨false, index.length, 0, 0⟩
    | none =>
        let p := { p with tableCreated := true }
        migrateLoop index c p (s.createTable.save p)

/-- The progress a call resumes from. -/
def Call.resumed (c : Call) (s : State) : Option Progress :=
  if c.resume && s.canResume then s.file else none

/-- The progress of a fresh start, by `create_progress`. -/
def freshProgress (total : ℕ) : Progress := ⟨total, 0, 0, [], .running, false⟩

/-- `migrate`. -/
def migrate (index : List Str) (c : Call) (s : State) : State × Option Result :=
  match c.checkStop with
  | some .killed => (s, none)
  | some _ => (s, some ⟨false, 0, 0, 0⟩)
  | none =>
      if index = [] then (s, some ⟨true, 0, 0, 0⟩)
      else
        match c.resumed s with
        | some p => migrateWith index c p s
        | none =>
            -- the table is there already: a `RuntimeError` before there is a progress object
            if s.table.isSome then (s, some ⟨false, index.length, 0, 0⟩)
            else
              migrateWith index c (freshProgress index.length)
                (s.save (freshProgress index.length))

/-! ### The rows a loop writes -/

section rows
variable {s : State} {doc : Str}

theorem hasRow_insertRows {docs : List Str} (h : s.table.isSome) :
    (s.insertRows docs).HasRow doc ↔ s.HasRow doc ∨ doc ∈ docs := by
  obtain ⟨rows, hrows⟩ := Option.isSome_iff_exists.mp h
  simp only [State.HasRow, State.insertRows, hrows, Option.map_some, Option.some.injEq,
    exists_eq_left', List.mem_append, List.mem_filter, decide_eq_true_eq]
  constructor
  · rintro (hmem | ⟨hmem, -⟩)
    · exact .inl hmem
    · exact .inr hmem
  · rintro (hmem | hmem)
    · exact .inl hmem
    · by_cases hrow : doc ∈ rows
      · exact .inl hrow
      · exact .inr ⟨hmem, hrow⟩

theorem hasRow_createTable : s.createTable.HasRow doc ↔ s.HasRow doc := by
  cases htable : s.table with
  | none => simp [State.HasRow, State.createTable, htable]
  | some rows => simp [State.HasRow, State.createTable, htable]

theorem hasRow_congr {s' : State} (h : s'.table = s.table) : s'.HasRow doc ↔ s.HasRow doc := by
  rw [State.HasRow, State.HasRow, h]

theorem complete_congr {index : List Str} {s' : State} (h : s'.table = s.table)
    (hs : s.Complete index) : s'.Complete index :=
  fun doc hdoc => (hasRow_congr h).mpr (hs doc hdoc)

/-- A batch inserts the rows it writes; the loop goes on unless it is stopped. -/
theorem migrateBatch_table (o : Outcome) (batch : List Str) (l : Loop) :
    (migrateBatch o batch l).1.state.table = (l.state.insertRows (o.writes batch)).table := by
  cases o <;> rfl

theorem isSome_insertRows {docs : List Str} (h : s.table.isSome) :
    (s.insertRows docs).table.isSome := by
  rw [State.insertRows, Option.isSome_map]
  exact h

theorem isSome_migrateBatch (o : Outcome) (batch : List Str) {l : Loop}
    (h : l.state.table.isSome) : (migrateBatch o batch l).1.state.table.isSome := by
  rw [migrateBatch_table]
  exact isSome_insertRows h

theorem migrateBatch_eq_none {o : Outcome} {batch : List Str} {l : Loop} :
    (migrateBatch o batch l).2 = none ↔ ∀ cause written, o ≠ .stopped cause written := by
  cases o with
  | inserted | callbackRaised | insertFailed _ => simp [migrateBatch]
  | stopped cause written => simp [migrateBatch]

/-- A loop that is gone through to the end was never stopped and has written, of each batch, the
rows that its outcome writes. -/
theorem hasRow_migrateBatches {o : ℕ → Outcome} (batches : List (List Str)) (i : ℕ) {l l' : Loop}
    (htable : l.state.table.isSome) (h : migrateBatches o batches i l = (l', none)) :
    (∀ k batch, batches[k]? = some batch → ∀ cause written, o (i + k) ≠ .stopped cause written) ∧
    ∀ doc, l'.state.HasRow doc ↔ l.state.HasRow doc ∨
      ∃ k batch, batches[k]? = some batch ∧ doc ∈ (o (i + k)).writes batch := by
  induction batches generalizing i l with
  | nil =>
      obtain ⟨rfl, -⟩ := Prod.mk.inj h
      simp
  | cons batch batches ih =>
      unfold migrateBatches at h
      have hrow : ∀ doc, (migrateBatch (o i) batch l).1.state.HasRow doc ↔
          l.state.HasRow doc ∨ doc ∈ (o i).writes batch := fun doc => by
        rw [hasRow_congr (migrateBatch_table (o i) batch l), hasRow_insertRows htable]
      have hsome := isSome_migrateBatch (o i) batch htable
      cases hbatch : migrateBatch (o i) batch l with
      | mk l₁ stop =>
          cases stop with
          | some cause =>
              rw [hbatch] at h
              cases h
          | none =>
              rw [hbatch] at h hrow hsome
              obtain ⟨hnever, hrows⟩ := ih (i + 1) hsome h
              have hgoes := migrateBatch_eq_none.mp (congrArg Prod.snd hbatch)
              constructor
              · intro k b hb
                cases k with
                | zero => exact hgoes
                | succ k =>
                    rw [show i + (k + 1) = i + 1 + k by omega]
                    exact hnever k b hb
              · intro doc
                rw [hrows, hrow, or_assoc]
                apply or_congr_right
                constructor
                · rintro (hdoc | ⟨k, b, hb, hdoc⟩)
                  · exact ⟨0, batch, rfl, hdoc⟩
                  · exact ⟨k + 1, b, hb, by rwa [show i + (k + 1) = i + 1 + k by omega]⟩
                · rintro ⟨k, b, hb, hdoc⟩
                  cases k with
                  | zero =>
                      obtain rfl := Option.some.inj hb
                      exact .inl hdoc
                  | succ k =>
                      exact .inr ⟨k, b, hb, by rwa [show i + 1 + k = i + (k + 1) by omega]⟩

end rows

/-! ### When a loop leaves nothing out -/

/-- The loop of the call, from the rows of `s`, leaves no document without a row: batches are not
empty (or there is nothing to do), and each document of a batch whose insertion fails was written
before the failure or has a row already. -/
structure Covered (index : List Str) (c : Call) (s : State) : Prop where
  batchSize : c.batchSize = 0 → s.Complete index
  failed : ∀ i batch written, (scrollDocuments c.batchSize index)[i]? = some batch →
    c.outcomes i = .insertFailed written → ∀ doc ∈ batch, doc ∈ written ∨ s.HasRow doc

section covered
variable {index : List Str} {c : Call} {s : State} {l l' : Loop}

theorem mem_writes {o : Outcome} {batch : List Str} {doc : Str} (h : doc ∈ o.writes batch) :
    doc ∈ batch := by
  cases o with
  | inserted | callbackRaised => exact h
  | insertFailed written => exact (List.mem_filter.mp h).1
  | stopped cause written => exact (List.mem_filter.mp h).1

/-- Batches have no document in common. -/
theorem eq_of_mem_batches (hnodup : index.Nodup) {n i j : ℕ} {batch batch' : List Str} {doc : Str}
    (hi : (scrollDocuments n index)[i]? = some batch)
    (hj : (scrollDocuments n index)[j]? = some batch') (hdoc : doc ∈ batch) (hdoc' : doc ∈ batch') :
    i = j := by
  rcases Nat.eq_zero_or_pos n with rfl | hpos
  · rw [scrollDocuments_zero] at hi
    cases hi
  · rw [← flatten_scrollDocuments hpos index, List.nodup_flatten] at hnodup
    have hdisjoint := List.pairwise_iff_getElem.mp hnodup.2
    obtain ⟨hilt, rfl⟩ := List.getElem?_eq_some_iff.mp hi
    obtain ⟨hjlt, rfl⟩ := List.getElem?_eq_some_iff.mp hj
    rcases Nat.lt_trichotomy i j with hlt | heq | hgt
    · exact absurd hdoc' (hdisjoint i j hilt hjlt hlt hdoc)
    · exact heq
    · exact absurd hdoc (hdisjoint j i hjlt hilt hgt hdoc')

/-- A loop that is gone through to the end and leaves nothing out leaves every document with a
row. -/
theorem complete_of_covered (htable : l.state.table.isSome)
    (h : migrateBatches c.outcomes (scrollDocuments c.batchSize index) 0 l = (l', none))
    (hcovered : Covered index c l.state) : l'.state.Complete index := by
  obtain ⟨hnever, hrows⟩ := hasRow_migrateBatches _ 0 htable h
  simp only [Nat.zero_add] at hnever hrows
  intro doc hdoc
  rcases Nat.eq_zero_or_pos c.batchSize with hzero | hpos
  · exact (hrows doc).mpr (.inl (hcovered.batchSize hzero doc hdoc))
  · rw [← flatten_scrollDocuments hpos index] at hdoc
    obtain ⟨batch, hbatch, hdoc⟩ := List.mem_flatten.mp hdoc
    obtain ⟨i, hi⟩ := List.getElem?_of_mem hbatch
    have hwritten : ∀ {o}, c.outcomes i = o → doc ∈ o.writes batch → l'.state.HasRow doc :=
      fun ho hwrites => (hrows doc).mpr (.inr ⟨i, batch, hi, ho ▸ hwrites⟩)
    cases ho : c.outcomes i with
    | inserted => exact hwritten ho hdoc
    | callbackRaised => exact hwritten ho hdoc
    | insertFailed written =>
        rcases hcovered.failed i batch written hi ho doc hdoc with hmem | hrow
        · exact hwritten ho (List.mem_filter.mpr ⟨hdoc, by simpa using hmem⟩)
        · exact (hrows doc).mpr (.inl hrow)
    | stopped cause written => exact absurd ho (hnever i batch hi cause written)

/-- If it leaves something out, some document has no row: the ids of an index are distinct, so no
other batch writes it. -/
theorem covered_of_complete (hnodup : index.Nodup) (htable : l.state.table.isSome)
    (h : migrateBatches c.outcomes (scrollDocuments c.batchSize index) 0 l = (l', none))
    (hcomplete : l'.state.Complete index) : Covered index c l.state := by
  obtain ⟨-, hrows⟩ := hasRow_migrateBatches _ 0 htable h
  simp only [Nat.zero_add] at hrows
  refine ⟨fun hzero doc hdoc => ?_, fun i batch written hbatch ho doc hdoc => ?_⟩
  · rcases (hrows doc).mp (hcomplete doc hdoc) with hrow | ⟨k, batch, hbatch, -⟩
    · exact hrow
    · rw [hzero, scrollDocuments_zero] at hbatch
      cases hbatch
  · have hindex : doc ∈ index := by
      rcases Nat.eq_zero_or_pos c.batchSize with hzero | hpos
      · rw [hzero, scrollDocuments_zero] at hbatch
        cases hbatch
      · rw [← flatten_scrollDocuments hpos index]
        exact List.mem_flatten.mpr ⟨batch, List.mem_of_getElem? hbatch, hdoc⟩
    rcases (hrows doc).mp (hcomplete doc hindex) with hrow | ⟨k, batch', hbatch', hwrites⟩
    · exact .inr hrow
    · obtain rfl := eq_of_mem_batches hnodup hbatch hbatch' hdoc (mem_writes hwrites)
      rw [ho] at hwrites
      exact .inl (by simpa using (List.mem_filter.mp hwrites).2)

end covered

/-! ### What a call can do -/

section call
variable {index : List Str} {c : Call} {s s' : State} {l l' : Loop} {p : Progress} {r : Result}

/-- A saved progress with a table comes with a table. -/
def TableThere (s : State) : Prop :=
  ∀ q, s.file = some q → q.tableCreated = true → s.table.isSome

/-- Neither the progress nor the file is marked completed. -/
def Unmarked (l : Loop) : Prop :=
  l.progress.status ≠ .completed ∧ ∀ q, l.state.file = some q → q.status ≠ .completed

theorem Unmarked.migrateBatch (h : Unmarked l) (o : Outcome) (batch : List Str) :
    Unmarked (migrateBatch o batch l).1 := by
  cases o with
  | inserted | callbackRaised =>
      refine ⟨h.1, fun q hq => ?_⟩
      obtain rfl := Option.some.inj hq
      exact h.1
  | insertFailed written => exact h
  | stopped cause written => exact h

/-- What holds of the loop however it ends. -/
theorem migrateBatches_keeps {o : ℕ → Outcome} (batches : List (List Str)) (i : ℕ) {l : Loop}
    (hunmarked : Unmarked l) (htable : l.state.table.isSome) :
    Unmarked (migrateBatches o batches i l).1 ∧
      (migrateBatches o batches i l).1.state.table.isSome ∧
      ∀ doc, l.state.HasRow doc → (migrateBatches o batches i l).1.state.HasRow doc := by
  induction batches generalizing i l with
  | nil => exact ⟨hunmarked, htable, fun _ => id⟩
  | cons batch batches ih =>
      have hunmarked' := hunmarked.migrateBatch (o i) batch
      have htable' := isSome_migrateBatch (o i) batch htable
      have hrow : ∀ doc, l.state.HasRow doc →
          (migrateBatch (o i) batch l).1.state.HasRow doc := fun doc hdoc => by
        rw [hasRow_congr (migrateBatch_table (o i) batch l), hasRow_insertRows htable]
        exact .inl hdoc
      unfold migrateBatches
      cases hbatch : Migration.migrateBatch (o i) batch l with
      | mk l₁ stop =>
          rw [hbatch] at hunmarked' htable' hrow
          cases stop with
          | some cause => exact ⟨hunmarked', htable', hrow⟩
          | none =>
              obtain ⟨hu, ht, hrows⟩ := ih (i + 1) hunmarked' htable'
              exact ⟨hu, ht, fun doc hdoc => hrows doc (hrow doc hdoc)⟩

/-- A call that says nothing new about the migration and keeps the rows. -/
structure Quiet (index : List Str) (s : State) (out : State × Option Result) : Prop where
  success : ∀ r, out.2 = some r → r.success = true → index = []
  completed : ∀ q, out.1.file = some q → q.status = .completed → s.file = some q
  rows : ∀ doc, s.HasRow doc → out.1.HasRow doc

/-- A call that goes through its loop, from the rows of `s`. -/
def Finished (index : List Str) (c : Call) (s : State) (out : State × Option Result) : Prop :=
  ∃ l l' : Loop, l.state.table.isSome ∧ (∀ doc, l.state.HasRow doc ↔ s.HasRow doc) ∧
    migrateBatches c.outcomes (scrollDocuments c.batchSize index) 0 l = (l', none) ∧
    out.1.table = l'.state.table

theorem handle_table (cause : Stop) : (handle cause p s r).1.table = s.table := by
  cases cause <;> rfl

theorem handle_quiet {cause : Stop} (hr : r.success = false)
    (hfile : ∀ q, s'.file = some q → q.status = .completed → s.file = some q)
    (hrows : ∀ doc, s.HasRow doc → s'.HasRow doc) : Quiet index s (handle cause p s' r) := by
  cases cause with
  | keyboardInterrupt | exception =>
      refine ⟨fun r' hr' hsuccess => ?_, fun q hq hstatus => ?_, hrows⟩
      · rw [← Option.some.inj hr', hr] at hsuccess
        cases hsuccess
      · rw [← Option.some.inj hq] at hstatus
        cases hstatus
  | killed => exact ⟨fun _ hr' => (by cases hr'), hfile, hrows⟩

theorem handle_tableThere {cause : Stop} (hp : ¬p.tableCreated = true) (hs : TableThere s) :
    TableThere (handle cause p s r).1 := by
  cases cause with
  | keyboardInterrupt | exception =>
      intro q hq hcreated
      obtain rfl := Option.some.inj hq
      exact absurd hcreated hp
  | killed => exact hs

theorem finish_table {n : ℕ} : (finish c l n).1.table = l.state.table := by
  unfold finish
  simp only
  split
  · exact handle_table _
  · split
    · exact handle_table _
    · split
      · exact handle_table _
      · rfl

/-- From the loop on, with the rows of `s`, a call says nothing new or goes through its loop. -/
theorem migrateLoop_cases (hunmarked : Unmarked ⟨s', p, p.migratedDocuments⟩)
    (htable : s'.table.isSome) (hrows : ∀ doc, s'.HasRow doc ↔ s.HasRow doc) :
    Quiet index s (migrateLoop index c p s') ∨ Finished index c s (migrateLoop index c p s') := by
  obtain ⟨hunmarked', -, hrows'⟩ := migrateBatches_keeps (o := c.outcomes)
    (scrollDocuments c.batchSize index) 0 hunmarked htable
  unfold migrateLoop
  cases hbatches : migrateBatches c.outcomes (scrollDocuments c.batchSize index) 0
      ⟨s', p, p.migratedDocuments⟩ with
  | mk l' stop =>
      rw [hbatches] at hunmarked' hrows'
      cases stop with
      | some cause =>
          left
          exact handle_quiet rfl (fun q hq hstatus => absurd hstatus (hunmarked'.2 q hq))
            (fun doc hdoc => hrows' doc ((hrows doc).mpr hdoc))
      | none => exact .inr ⟨_, l', htable, hrows, hbatches, finish_table⟩

theorem isSome_migrateLoop (hunmarked : Unmarked ⟨s, p, p.migratedDocuments⟩)
    (htable : s.table.isSome) : (migrateLoop index c p s).1.table.isSome := by
  obtain ⟨-, hsome, -⟩ := migrateBatches_keeps (o := c.outcomes)
    (scrollDocuments c.batchSize index) 0 hunmarked htable
  unfold migrateLoop
  split
  · rename_i l cause hbatches
    rw [hbatches] at hsome
    rw [handle_table]
    exact hsome
  · rename_i l hbatches
    rw [hbatches] at hsome
    rw [finish_table]
    exact hsome

/-- With a progress object that is not completed, a call says nothing new or goes through its
loop, and a saved progress with a table still comes with a table. -/
theorem migrateWith_cases (hp : p.status ≠ .completed)
    (hfile : ∀ q, s.file = some q → q.status ≠ .completed)
    (hthere : p.tableCreated = true → s.table.isSome) (hs : TableThere s) :
    (Quiet index s (migrateWith index c p s) ∨ Finished index c s (migrateWith index c p s)) ∧
      TableThere (migrateWith index c p s).1 := by
  unfold migrateWith
  simp only
  split_ifs with htableCreated
  · have hunmarked : Unmarked ⟨s, p, p.migratedDocuments⟩ := ⟨hp, hfile⟩
    exact ⟨migrateLoop_cases hunmarked (hthere htableCreated) (fun _ => Iff.rfl),
      fun _ _ _ => isSome_migrateLoop hunmarked (hthere htableCreated)⟩
  · split
    · rename_i cause wasCreated _
      have hcompleted : ∀ q, s.file = some q → q.status = .completed → s.file = some q :=
        fun q hq _ => hq
      cases wasCreated with
      | true =>
          exact ⟨.inl (handle_quiet rfl hcompleted (fun _ => hasRow_createTable.mpr)),
            handle_tableThere htableCreated (fun _ _ _ => rfl)⟩
      | false =>
          exact ⟨.inl (handle_quiet rfl hcompleted (fun _ => id)),
            handle_tableThere htableCreated hs⟩
    · have hunmarked : Unmarked ⟨s.createTable.save { p with tableCreated := true },
          { p with tableCreated := true }, p.migratedDocuments⟩ := by
        refine ⟨hp, fun q hq => ?_⟩
        obtain rfl := Option.some.inj hq
        exact hp
      exact ⟨migrateLoop_cases hunmarked rfl (fun _ => hasRow_createTable),
        fun _ _ _ => isSome_migrateLoop hunmarked rfl⟩

/-- A progress that can be resumed is not completed. -/
theorem resumed_eq_some (h : c.resumed s = some p) : s.file = some p ∧ p.status ≠ .completed := by
  unfold Call.resumed at h
  split_ifs at h with hresume
  refine ⟨h, fun hcompleted => ?_⟩
  rw [Bool.and_eq_true, State.canResume, h] at hresume
  simp [hcompleted] at hresume

/-- A fresh start. -/
theorem migrateWith_fresh {n : ℕ} :
    (Quiet index s (migrateWith index c (freshProgress n) (s.save (freshProgress n))) ∨
      Finished index c s (migrateWith index c (freshProgress n) (s.save (freshProgress n)))) ∧
      TableThere (migrateWith index c (freshProgress n) (s.save (freshProgress n))).1 := by
  have hfile : ∀ q, (s.save (freshProgress n)).file = some q → q = freshProgress n :=
    fun q hq => (Option.some.inj hq).symm
  have hfresh : (freshProgress n).status ≠ .completed := by simp [freshProgress]
  have hnotable : TableThere (s.save (freshProgress n)) := by
    intro q hq hcreated
    rw [hfile q hq] at hcreated
    cases hcreated
  obtain ⟨hcases, hthere⟩ := migrateWith_cases hfresh (fun q hq => hfile q hq ▸ hfresh)
    (fun h => by cases h) hnotable
  refine ⟨hcases.imp (fun h => ?_) id, hthere⟩
  refine ⟨h.success, fun q hq hstatus => ?_, h.rows⟩
  rw [hfile q (h.completed q hq hstatus)] at hstatus
  cases hstatus

variable (index c) in
/-- A call says nothing new or goes through its loop. -/
theorem migrate_cases (hs : TableThere s) :
    (Quiet index s (migrate index c s) ∨ Finished index c s (migrate index c s)) ∧
      TableThere (migrate index c s).1 := by
  have hquiet : ∀ res, (∀ r, res = some r → r.success = true → index = []) →
      (Quiet index s (s, res) ∨ Finished index c s (s, res)) ∧ TableThere s :=
    fun res hres => ⟨.inl ⟨hres, fun _ hq _ => hq, fun _ => id⟩, hs⟩
  have hfailed : ∀ n, (Quiet index s (s, some ⟨false, n, 0, 0⟩) ∨
      Finished index c s (s, some ⟨false, n, 0, 0⟩)) ∧ TableThere s := by
    refine fun n => hquiet _ (fun r hr hsuccess => ?_)
    obtain rfl := Option.some.inj hr
    cases hsuccess
  unfold migrate
  split
  · exact hquiet _ (fun _ hr => (by cases hr))
  · exact hfailed 0
  · by_cases hindex : index = []
    · rw [if_pos hindex]
      exact hquiet _ (fun _ _ _ => hindex)
    · rw [if_neg hindex]
      cases hresumed : c.resumed s with
      | some p =>
          obtain ⟨hp, hstatus⟩ := resumed_eq_some hresumed
          refine migrateWith_cases hstatus (fun q hq => ?_) (hs p hp) hs
          obtain rfl := Option.some.inj (hp.symm.trans hq)
          exact hstatus
      | none =>
          by_cases htable : s.table.isSome
          · simp only [htable, if_true]
            exact hfailed index.length
          · simp only [htable]
            exact migrateWith_fresh

end call

/-! ### Runs -/

section run
variable {index : List Str} {c : Call} {s s' : State} {res : Option Result}

/-- What a call reports and what it leaves in the file is true: every document has a row if it
reports success or leaves the progress completed. -/
def Honest (index : List Str) (res : Option Result) (s : State) : Prop :=
  (∀ r, res = some r → r.success = true → s.Complete index) ∧
    ∀ q, s.file = some q → q.status = .completed → s.Complete index

/-- What holds between the calls. -/
def Good (index : List Str) (s : State) : Prop :=
  TableThere s ∧ ∀ q, s.file = some q → q.status = .completed → s.Complete index

/-- One call, with its result. -/
def step (index : List Str) (s : State) (l : Call × Option Result) (s' : State) : Prop :=
  migrate index l.1 s = (s', l.2)

/-- The calls one after another, each from the state that the one before it left. -/
def migrations (index : List Str) : State → List Call → List ((Call × Option Result) × State)
  | _, [] => []
  | s, c :: calls =>
      ((c, (migrate index c s).2), (migrate index c s).1) ::
        migrations index (migrate index c s).1 calls

theorem isRun_migrations (calls : List Call) :
    ∀ s, Transition.IsRun (step index) s (migrations index s calls) := by
  induction calls with
  | nil => exact fun _ => trivial
  | cons c calls ih => exact fun s => ⟨rfl, ih _⟩

/-- What is left out depends on the rows only. -/
theorem Covered.congr (h : Covered index c s) (hrows : ∀ doc, s'.HasRow doc ↔ s.HasRow doc) :
    Covered index c s' where
  batchSize := fun hzero doc hdoc => (hrows doc).mpr (h.batchSize hzero doc hdoc)
  failed := fun i batch written hbatch ho doc hdoc =>
    (h.failed i batch written hbatch ho doc hdoc).imp id (hrows doc).mpr

theorem migrate_honest (hgood : Good index s) (hcovered : Covered index c s)
    (h : migrate index c s = (s', res)) : Good index s' ∧ Honest index res s' := by
  obtain ⟨hcases, hthere⟩ := migrate_cases index c hgood.1
  rw [h] at hcases hthere
  rcases hcases with hquiet | ⟨l, l', htable, hrows, hbatches, htable'⟩
  · have hcompleted : ∀ q, s'.file = some q → q.status = .completed → s'.Complete index :=
      fun q hq hstatus doc hdoc =>
        hquiet.rows doc (hgood.2 q (hquiet.completed q hq hstatus) hstatus doc hdoc)
    refine ⟨⟨hthere, hcompleted⟩, fun r hr hsuccess doc hdoc => ?_, hcompleted⟩
    rw [hquiet.success r hr hsuccess] at hdoc
    cases hdoc
  · have hcomplete : s'.Complete index :=
      complete_congr htable' (complete_of_covered htable hbatches (hcovered.congr hrows))
    exact ⟨⟨hthere, fun _ _ _ => hcomplete⟩, fun _ _ _ => hcomplete, fun _ _ _ => hcomplete⟩

/-- The condition is exact: a call on an index that is not empty reports success truly exactly if it
leaves nothing out. -/
theorem complete_iff_covered (hnodup : index.Nodup) (hindex : index ≠ []) (hs : TableThere s)
    {r : Result} (h : migrate index c s = (s', some r)) (hsuccess : r.success = true) :
    s'.Complete index ↔ Covered index c s := by
  obtain ⟨hcases, -⟩ := migrate_cases index c hs
  rw [h] at hcases
  rcases hcases with hquiet | ⟨l, l', htable, hrows, hbatches, htable'⟩
  · exact absurd (hquiet.success r rfl hsuccess) hindex
  · constructor
    · intro hcomplete
      have hcomplete' : l'.state.Complete index := complete_congr htable'.symm hcomplete
      exact (covered_of_complete hnodup htable hbatches hcomplete').congr
        (fun doc => (hrows doc).symm)
    · intro hcovered
      exact complete_congr htable' (complete_of_covered htable hbatches (hcovered.congr hrows))

/-- In a run of calls, fresh or resumed, that starts without a progress file and in which every call
covers the index, a call that reports success or leaves its progress completed leaves every
document with a row. -/
theorem migrations_complete (index : List Str) {s : State} (hfile : s.file = none)
    (calls : List Call) (hcovered : Transition.AllSteps (fun s l => Covered index l.1 s) s
      (migrations index s calls)) :
    ∀ x ∈ migrations index s calls, Honest index x.1.2 x.2 := by
  have hnone : ∀ q, s.file ≠ some q := fun q hq => by cases hfile.symm.trans hq
  have hgood : Good index s :=
    ⟨fun q hq => absurd hq (hnone q), fun q hq => absurd hq (hnone q)⟩
  exact Transition.results_of_steps (Good index)
    (fun hs hc h => migrate_honest hs hc h) _ hgood (isRun_migrations calls s) hcovered

end run

/-! An index of two documents and calls on it. -/

def sampleIndex : List Str := [['1'], ['2']]

/-- A call that is not interrupted, with batches of one document. -/
def sampleCall (resume : Bool) (outcomes : ℕ → Outcome) : Call :=
  ⟨1, resume, true, none, none, outcomes, none, none, none⟩

/-- The second document is not inserted, and the call reports success. -/
theorem migration_leaves_out : ¬Honest sampleIndex
    (migrate sampleIndex (sampleCall false (fun i => if i = 1 then .insertFailed [] else .inserted))
      ⟨none, none⟩).2
    (migrate sampleIndex (sampleCall false (fun i => if i = 1 then .insertFailed [] else .inserted))
      ⟨none, none⟩).1 := by
  rintro ⟨hsuccess, -⟩
  obtain ⟨rows, hrows, hmem⟩ := hsuccess ⟨true, 2, 1, 1⟩ rfl rfl ['2'] (by decide)
  obtain rfl := Option.some.inj hrows
  revert hmem
  decide

/-- The first call is interrupted at the second document; the second call resumes, and its insertion
of the first document, which has its row already, fails. -/
def sampleInterrupted : Call :=
  sampleCall false (fun i => if i = 1 then .stopped .keyboardInterrupt [] else .inserted)

def sampleResumed : Call := sampleCall true (fun i => if i = 0 then .insertFailed [] else .inserted)

theorem sampleInterrupted_covered (s : State) : Covered sampleIndex sampleInterrupted s where
  batchSize := fun h => by cases h
  failed := fun i batch written _ ho => by
    unfold sampleInterrupted sampleCall at ho
    simp only at ho
    split_ifs at ho

theorem sampleResumed_covered {s : State} (h : s.HasRow ['1']) :
    Covered sampleIndex sampleResumed s where
  batchSize := fun h => by cases h
  failed := fun i batch written hbatch ho doc hdoc => by
    unfold sampleResumed sampleCall at ho
    simp only at ho
    split_ifs at ho with hi
    subst hi
    obtain rfl := Option.some.inj hbatch
    obtain rfl := List.mem_singleton.mp hdoc
    exact .inr h

theorem migrations_complete_resumed : Honest sampleIndex
    (migrate sampleIndex sampleResumed (migrate sampleIndex sampleInterrupted ⟨none, none⟩).1).2
    (migrate sampleIndex sampleResumed (migrate sampleIndex sampleInterrupted ⟨none, none⟩).1).1 :=
  migrations_complete sampleIndex (s := ⟨none, none⟩) rfl [sampleInterrupted, sampleResumed]
    ⟨sampleInterrupted_covered _, sampleResumed_covered ⟨[['1']], rfl, by decide⟩, trivial⟩ _
    (List.mem_cons_of_mem _ List.mem_cons_self)

end RagFlow.Migration
