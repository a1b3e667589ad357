import RagFlow.Db

/-! # Resuming a connector

`ConnectorService.resume` and `SyncLogsService.schedule` of `api/db/services/connector_service.py`.
A connector feeds the knowledge bases it is linked to; the sync logs of a link are its tasks, of
which the one updated last counts.  `resume` goes through the links.

* A task that is neither missing nor done gets the new status.
* Where the task is missing or done, `schedule` makes a new one, and `resume` returns: the links
  that come after it are left as they are.

`resume_schedules_iff`: resuming with `SCHEDULE` never raises, and it leaves all linked knowledge
bases with a scheduled log exactly if those after the first link of the second kind have one
already. -/

namespace RagFlow.Connector

open Py

/-! ### Rows -/

structure ConnectorRow where
  id : Str
  status : TaskStatus

structure Connector2Kb where
  id : Str
  connectorId : Str
  kbId : Str

structure SyncLog where
  id : Str
  connectorId : Str
  kbId : Str
  status : TaskStatus
  fromBeginning : Bool
  totalDocsIndexed : ℤ
  errorMsg : Str
  fullExceptionTrace : Option Str
  pollRangeStart : Option Str
  pollRangeEnd : Option Str
  updateTime : ℕ
deriving DecidableEq

structure ConnectorDb where
  connectors : Table ConnectorRow (·.id)
  links : Table Connector2Kb (·.id)
  logs : Table SyncLog (·.id)

/-- What is not in the database: the id that `get_uuid` gives, the time at which the logs of a
knowledge base are written, and the text of the exception if an id is taken. -/
structure Env where
  uuid : Str
  now : Str → ℕ
  error : Str

def SyncLog.isOf (connectorId kbId : Str) (log : SyncLog) : Bool :=
  log.connectorId = connectorId && log.kbId = kbId

/-- The logs of a link. -/
def logsOf (db : ConnectorDb) (connectorId kbId : Str) : List SyncLog :=
  db.logs.select (SyncLog.isOf connectorId kbId)

/-! ### The services -/

/-- The log updated last. -/
def latest (logs : List SyncLog) : Option SyncLog :=
  (logs.insertionSort (fun log log' => log'.updateTime ≤ log.updateTime)).head?

def getLatestTask (db : ConnectorDb) (connectorId kbId : Str) : Option SyncLog :=
  latest (logsOf db connectorId kbId)

/-- `ConnectorService.update_by_id` with a status. -/
def updateConnector (connectorId : Str) (status : TaskStatus) (db : ConnectorDb) : ConnectorDb :=
  { db with
    connectors := db.connectors.updateWhere (·.id = connectorId)
      (fun c => { c with status := status }) (fun _ => rfl) }

/-- The 70 logs that `schedule` removes if there are more than 100. -/
def oldLogs (logs : List SyncLog) : List Str :=
  if 100 < logs.length then
    ((logs.insertionSort (fun log log' => log.updateTime ≤ log'.updateTime)).take 70).map (·.id)
  else []

def cleanOldLogs (connectorId kbId : Str) (db : ConnectorDb) : ConnectorDb :=
  { db with
    logs := db.logs.deleteWhere (fun log =>
      (oldLogs (logsOf db connectorId kbId)).contains log.id) }

/-- The log that `schedule` saves. -/
def newLog (env : Env) (connectorId kbId : Str) (pollRangeStart : Option Str) (reindex : Bool)
    (totalDocsIndexed : ℤ) : SyncLog where
  id := env.uuid
  connectorId := connectorId
  kbId := kbId
  status := .schedule
  fromBeginning := reindex
  totalDocsIndexed := totalDocsIndexed
  errorMsg := []
  fullExceptionTrace := some []
  pollRangeStart := pollRangeStart
  pollRangeEnd := none
  updateTime := env.now kbId

/-- The update of a log where saving a new one has failed. -/
def rescheduled (env : Env) (pollRangeStart : Option Str) (log : SyncLog) : SyncLog :=
  { log with
    status := .schedule
    pollRangeStart := pollRangeStart
    errorMsg := log.errorMsg ++ env.error
    fullExceptionTrace := log.fullExceptionTrace.map (· ++ env.error)
    updateTime := env.now log.kbId }

/-- Update the log with an id. -/
def updateLog (id : Str) (f : SyncLog → SyncLog) (hf : ∀ log, (f log).id = log.id)
    (db : ConnectorDb) : ConnectorDb :=
  { db with logs := db.logs.updateWhere (·.id = id) f hf }

/-- `SyncLogsService.schedule`. -/
def schedule (env : Env) (connectorId kbId : Str) (pollRangeStart : Option Str) (reindex : Bool)
    (totalDocsIndexed : ℤ) (db : ConnectorDb) : ConnectorDb :=
  let db := cleanOldLogs connectorId kbId db
  if (logsOf db connectorId kbId).any (·.status = .schedule) then db
  else
    let db := updateConnector connectorId .schedule db
    match db.logs.insert? (newLog env connectorId kbId pollRangeStart reindex totalDocsIndexed) with
    | some logs => { db with logs }
    | none =>
        match getLatestTask db connectorId kbId with
        | some task =>
            updateConnector connectorId .schedule
              (updateLog task.id (rescheduled env pollRangeStart) (fun _ => rfl) db)
        | none => db

def SyncLog.withStatus (env : Env) (status : TaskStatus) (log : SyncLog) : SyncLog :=
  { log with status := status, updateTime := env.now log.kbId }

/-- `SyncLogsService.update_by_id` with the fields of the task and another status. -/
def setStatus (env : Env) (task : SyncLog) (status : TaskStatus) (db : ConnectorDb) : ConnectorDb :=
  updateLog task.id (SyncLog.withStatus env status) (fun _ => rfl) db

/-- The loop of `resume`; it raises where it asks a missing task for its status. -/
def resumeLinks (env : Env) (connectorId : Str) (status : TaskStatus) :
    List Str → ConnectorDb → Option ConnectorDb
  | [], db => some (updateConnector connectorId status db)
  | kbId :: kbIds, db =>
      match getLatestTask db connectorId kbId with
      | none =>
          if status = .schedule then
            some (updateConnector connectorId status
              (schedule env connectorId kbId none false 0 db))
          else none
      | some task =>
          if task.status = .done && status = .schedule then
            some (updateConnector connectorId status
              (schedule env connectorId kbId task.pollRangeEnd false task.totalDocsIndexed db))
          else resumeLinks env connectorId status kbIds (setStatus env task status db)

/-- The knowledge bases linked to a connector. -/
def linkedKbs (db : ConnectorDb) (connectorId : Str) : List Str :=
  (db.links.select (·.connectorId = connectorId)).map (·.kbId)

def resume (env : Env) (connectorId : Str) (status : TaskStatus) (db : ConnectorDb) :
    Option ConnectorDb :=
  resumeLinks env connectorId status (linkedKbs db connectorId) db

/-! ### The logs of a link -/

/-- The link has a scheduled log. -/
def Scheduled (db : ConnectorDb) (connectorId kbId : Str) : Prop :=
  ∃ log ∈ logsOf db connectorId kbId, log.status = .schedule

/-- At this link `resume` schedules a new task and returns. -/
def stopsAt (db : ConnectorDb) (connectorId kbId : Str) : Bool :=
  match getLatestTask db connectorId kbId with
  | none => true
  | some task => task.status = .done

/-- The knowledge bases after the first link at which `resume` stops. -/
def leftOut (db : ConnectorDb) (connectorId : Str) (kbIds : List Str) : List Str :=
  (kbIds.dropWhile (fun kbId => !stopsAt db connectorId kbId)).tail

theorem dropWhile_congr {p q : Str → Bool} {l : List Str} (h : ∀ x ∈ l, p x = q x) :
    l.dropWhile p = l.dropWhile q := by
  induction l with
  | nil => rfl
  | cons x l ih =>
      rw [List.dropWhile_cons, List.dropWhile_cons, h x List.mem_cons_self,
        ih (fun y hy => h y (List.mem_cons_of_mem _ hy))]

section logs
variable {db : ConnectorDb} {c kbId kbId' : Str} {env : Env}

theorem mem_logsOf {log : SyncLog} : log ∈ logsOf db c kbId ↔
    log ∈ db.logs ∧ log.connectorId = c ∧ log.kbId = kbId := by
  unfold logsOf
  rw [Table.mem_select]
  simp [SyncLog.isOf]

theorem latest_mem {logs : List SyncLog} {log : SyncLog} (h : latest logs = some log) :
    log ∈ logs :=
  (List.mem_insertionSort _).mp (List.mem_of_head? h)

theorem stopsAt_congr {db' : ConnectorDb} (h : logsOf db' c kbId = logsOf db c kbId) :
    stopsAt db' c kbId = stopsAt db c kbId := by
  rw [stopsAt, getLatestTask, h, ← getLatestTask, ← stopsAt]

/-- Writing to logs of one link leaves the others alone. -/
theorem select_updateWhere {p : SyncLog → Bool} {f : SyncLog → SyncLog}
    (hf : ∀ log, (f log).id = log.id)
    (hof : ∀ log, (f log).isOf c kbId = log.isOf c kbId)
    (hp : ∀ log ∈ db.logs, log.isOf c kbId = true → p log = false) :
    (db.logs.updateWhere p f hf).select (SyncLog.isOf c kbId) =
      db.logs.select (SyncLog.isOf c kbId) := by
  unfold Table.select Table.updateWhere
  simp only
  have hmap : ∀ rows : List SyncLog, (∀ log ∈ rows, log.isOf c kbId = true → p log = false) →
      (rows.map (fun log => if p log then f log else log)).filter (SyncLog.isOf c kbId) =
        rows.filter (SyncLog.isOf c kbId) := by
    intro rows
    induction rows with
    | nil => exact fun _ => rfl
    | cons log rows ih =>
        intro h
        have ih := ih (fun log hlog => h log (List.mem_cons_of_mem _ hlog))
        rw [List.map_cons]
        cases hlog : log.isOf c kbId with
        | true =>
            have hno := h log List.mem_cons_self hlog
            rw [hno, List.filter_cons_of_pos (by simpa using hlog),
              List.filter_cons_of_pos hlog, ih]
            rfl
        | false =>
            have hfirst : (if p log then f log else log).isOf c kbId = false := by
              split
              · rw [hof, hlog]
              · exact hlog
            rw [List.filter_cons_of_neg (by simp [hfirst]),
              List.filter_cons_of_neg (by simp [hlog]),
              ih]
  exact hmap db.logs.rows hp

theorem logsOf_updateLog {task : SyncLog} (htask : task ∈ logsOf db c kbId) (hne : kbId' ≠ kbId)
    {f : SyncLog → SyncLog} (hf : ∀ log, (f log).id = log.id)
    (hof : ∀ log, (f log).isOf c kbId' = log.isOf c kbId') :
    logsOf (updateLog task.id f hf db) c kbId' = logsOf db c kbId' := by
  refine select_updateWhere hf hof ?_
  intro log hlog hlink
  obtain ⟨hmem, -, hkb⟩ := mem_logsOf.mp htask
  refine decide_eq_false (fun hid => hne ?_)
  have heq := db.logs.eq_of_key_eq hlog hmem hid
  simp only [SyncLog.isOf, Bool.and_eq_true, decide_eq_true_eq] at hlink
  rw [← hlink.2, heq, hkb]

theorem id_of_mem_updateLog {id : Str} {f : SyncLog → SyncLog} {hf : ∀ log, (f log).id = log.id}
    {log : SyncLog} (h : log ∈ (updateLog id f hf db).logs) :
    ∃ log' ∈ db.logs, log'.id = log.id := by
  unfold updateLog at h
  rw [Table.mem_updateWhere] at h
  rcases h with ⟨hlog, -⟩ | ⟨log', hlog', -, rfl⟩
  · exact ⟨log, hlog, rfl⟩
  · exact ⟨log', hlog', (hf log').symm⟩

theorem scheduled_updateLog {task : SyncLog} (htask : task ∈ logsOf db c kbId)
    {f : SyncLog → SyncLog} (hf : ∀ log, (f log).id = log.id)
    (hof : (f task).isOf c kbId = task.isOf c kbId) (hstatus : (f task).status = .schedule) :
    Scheduled (updateLog task.id f hf db) c kbId := by
  unfold logsOf at htask
  obtain ⟨hmem, hlink⟩ := Table.mem_select.mp htask
  refine ⟨f task, Table.mem_select.mpr ⟨?_, hof.trans hlink⟩, hstatus⟩
  show f task ∈ db.logs.updateWhere (·.id = task.id) f hf
  rw [Table.mem_updateWhere]
  exact Or.inr ⟨task, hmem, decide_eq_true rfl, rfl⟩

theorem logsOf_cleanOldLogs (hne : kbId' ≠ kbId) :
    logsOf (cleanOldLogs c kbId db) c kbId' = logsOf db c kbId' := by
  unfold logsOf cleanOldLogs Table.select Table.deleteWhere
  simp only
  rw [List.filter_filter]
  refine List.filter_congr (fun log hlog => ?_)
  cases hof : log.isOf c kbId' with
  | false => rfl
  | true =>
      simp only [SyncLog.isOf, Bool.and_eq_true, decide_eq_true_eq] at hof
      rw [Bool.true_and, Bool.not_eq_true', ← Bool.not_eq_true, List.contains_iff_mem]
      intro hmem
      -- An old log is one of the other link.
      unfold oldLogs at hmem
      split at hmem
      case isTrue =>
        obtain ⟨log', hlog', hid⟩ := List.mem_map.mp hmem
        have hof' := (List.mem_insertionSort _).mp (List.mem_of_mem_take hlog')
        obtain ⟨hmem', -, hkb⟩ := mem_logsOf.mp hof'
        have heq := db.logs.eq_of_key_eq hmem' hlog hid
        exact hne (by rw [← hof.2, ← heq, hkb])
      case isFalse => cases hmem

theorem scheduled_of_any (h : (logsOf db c kbId).any (·.status = .schedule) = true) :
    Scheduled db c kbId := by
  obtain ⟨log, hlog, hstatus⟩ := List.any_eq_true.mp h
  exact ⟨log, hlog, of_decide_eq_true hstatus⟩

/-- After `schedule` the link has a scheduled log, if the id for it is new. -/
theorem scheduled_schedule (huuid : ∀ log ∈ db.logs, log.id ≠ env.uuid) (start : Option Str)
    (reindex : Bool) (total : ℤ) :
    Scheduled (schedule env c kbId start reindex total db) c kbId := by
  unfold schedule
  simp only
  split
  case isTrue hany => exact scheduled_of_any hany
  case isFalse =>
    split
    case h_1 logs hinsert =>
      refine ⟨newLog env c kbId start reindex total, ?_, rfl⟩
      rw [mem_logsOf]
      exact ⟨(Table.mem_insert? hinsert).mpr (Or.inr rfl), rfl, rfl⟩
    case h_2 hinsert =>
      obtain ⟨log, hlog⟩ := Table.insert?_eq_none.mp hinsert
      obtain ⟨hmem, hid⟩ := Table.get?_eq_some.mp hlog
      exact absurd hid (huuid log (Table.mem_deleteWhere.mp hmem).1)

/-- `schedule` leaves the other links alone. -/
theorem logsOf_schedule (hne : kbId' ≠ kbId) (start : Option Str) (reindex : Bool) (total : ℤ) :
    logsOf (schedule env c kbId start reindex total db) c kbId' = logsOf db c kbId' := by
  unfold schedule
  simp only
  split
  case isTrue => exact logsOf_cleanOldLogs hne
  case isFalse =>
    split
    case h_1 logs hinsert =>
      have hclean : logsOf (cleanOldLogs c kbId db) c kbId' = logsOf db c kbId' :=
        logsOf_cleanOldLogs hne
      rw [← hclean]
      unfold logsOf Table.select
      rw [(Table.insert?_eq_some hinsert).2, List.filter_append]
      have hother : [newLog env c kbId start reindex total].filter (SyncLog.isOf c kbId') = [] := by
        simp [SyncLog.isOf, newLog, Ne.symm hne]
      rw [hother, List.append_nil]
      rfl
    case h_2 =>
      split
      case h_1 task htask =>
        have hupdate := logsOf_updateLog (latest_mem htask) hne (f := rescheduled env start)
          (fun _ => rfl) (fun _ => rfl)
        exact hupdate.trans (logsOf_cleanOldLogs hne)
      case h_2 => exact logsOf_cleanOldLogs hne

/-- Where it stops at a link, the rest is left out. -/
theorem stop_spec {kbIds : List Str} (hnew : kbId ∉ kbIds)
    (huuid : ∀ log ∈ db.logs, log.id ≠ env.uuid) (start : Option Str) (total : ℤ)
    (hstop : stopsAt db c kbId = true) :
    (∀ kbId' ∈ kbId :: kbIds, kbId' ∉ leftOut db c (kbId :: kbIds) →
      Scheduled (updateConnector c .schedule (schedule env c kbId start false total db)) c kbId') ∧
    ∀ kbId', kbId' ∉ kbId :: kbIds ∨ kbId' ∈ leftOut db c (kbId :: kbIds) →
      logsOf (updateConnector c .schedule (schedule env c kbId start false total db)) c kbId' =
        logsOf db c kbId' := by
  have hrest : leftOut db c (kbId :: kbIds) = kbIds := by simp [leftOut, hstop]
  rw [hrest]
  refine ⟨fun kbId' hmem hout => ?_, fun kbId' hother => ?_⟩
  · rcases List.mem_cons.mp hmem with rfl | hmem
    · exact scheduled_schedule huuid start false total
    · exact absurd hmem hout
  · refine logsOf_schedule ?_ start false total
    rintro rfl
    rcases hother with hother | hother
    · exact hother List.mem_cons_self
    · exact hnew hother

/-- The loop: it does not raise, the links up to the one it stops at are scheduled afterwards, and
the others are left alone. -/
theorem resumeLinks_spec (c : Str) (env : Env) (kbIds : List Str) :
    ∀ db : ConnectorDb, kbIds.Nodup → (∀ log ∈ db.logs, log.id ≠ env.uuid) →
      ∃ db', resumeLinks env c .schedule kbIds db = some db' ∧
        (∀ kbId ∈ kbIds, kbId ∉ leftOut db c kbIds → Scheduled db' c kbId) ∧
        ∀ kbId, kbId ∉ kbIds ∨ kbId ∈ leftOut db c kbIds →
          logsOf db' c kbId = logsOf db c kbId := by
  induction kbIds with
  | nil => exact fun db _ _ => ⟨_, rfl, by simp, fun _ _ => rfl⟩
  | cons kbId kbIds ih =>
      intro db hnodup huuid
      obtain ⟨hnew, hnodup⟩ := List.nodup_cons.mp hnodup
      unfold resumeLinks
      cases htask : getLatestTask db c kbId with
      | none => exact ⟨_, rfl, stop_spec hnew huuid none 0 (by rw [stopsAt, htask])⟩
      | some task =>
          by_cases hdone : task.status = .done
          · simp only [hdone, decide_true, Bool.and_self, if_true]
            exact ⟨_, rfl, stop_spec hnew huuid _ _ (by simp [stopsAt, htask, hdone])⟩
          · simp only [hdone, decide_false, Bool.false_and, Bool.false_eq_true, if_false]
            have hmem := latest_mem htask
            have hother : ∀ kbId', kbId' ≠ kbId →
                logsOf (setStatus env task .schedule db) c kbId' = logsOf db c kbId' :=
              fun kbId' hne => logsOf_updateLog hmem hne (f := SyncLog.withStatus env .schedule)
                (fun _ => rfl) (fun _ => rfl)
            have huuid' : ∀ log ∈ (setStatus env task .schedule db).logs, log.id ≠ env.uuid := by
              intro log hlog
              obtain ⟨log', hlog', hid⟩ := id_of_mem_updateLog hlog
              rw [← hid]
              exact huuid log' hlog'
            obtain ⟨db', hresume, hscheduled, hsame⟩ := ih _ hnodup huuid'
            have hout : leftOut db c (kbId :: kbIds) =
                leftOut (setStatus env task .schedule db) c kbIds := by
              have hgo : stopsAt db c kbId = false := by simp [stopsAt, htask, hdone]
              unfold leftOut
              rw [List.dropWhile_cons_of_pos (by simp [hgo])]
              refine congrArg List.tail (dropWhile_congr (fun kbId' hkb => ?_))
              rw [stopsAt_congr (hother kbId' (fun h => hnew (h ▸ hkb)))]
            rw [hout]
            refine ⟨db', hresume, fun kbId' hkb hnot => ?_, fun kbId' hkb => ?_⟩
            · rcases List.mem_cons.mp hkb with rfl | hkb
              · obtain ⟨log, hlog, hstatus⟩ := scheduled_updateLog hmem
                  (f := SyncLog.withStatus env .schedule) (fun _ => rfl) rfl rfl
                exact ⟨log, (hsame kbId' (Or.inl hnew)).symm ▸ hlog, hstatus⟩
              · exact hscheduled kbId' hkb hnot
            · have hne : kbId' ≠ kbId := by
                rintro rfl
                rcases hkb with hkb | hkb
                · exact hkb List.mem_cons_self
                · exact hnew ((List.dropWhile_suffix _).subset (List.mem_of_mem_tail hkb))
              rw [hsame kbId' (hkb.imp_left (fun h hmem => h (List.mem_cons_of_mem _ hmem))),
                hother kbId' hne]

end logs

/-- Resuming does not raise.  It leaves all linked knowledge bases with a scheduled log exactly if
those after the first link with no task, or one that is done, have one already. -/
theorem resume_schedules_iff (env : Env) (db : ConnectorDb) (c : Str)
    (hlinks : (linkedKbs db c).Nodup) (huuid : ∀ log ∈ db.logs, log.id ≠ env.uuid) :
    ∃ db', resume env c .schedule db = some db' ∧
      ((∀ kbId ∈ linkedKbs db c, Scheduled db' c kbId) ↔
        ∀ kbId ∈ leftOut db c (linkedKbs db c), Scheduled db c kbId) := by
  obtain ⟨db', hresume, hscheduled, hsame⟩ := resumeLinks_spec c env _ db hlinks huuid
  refine ⟨db', hresume, fun hall kbId hkb => ?_, fun hall kbId hkb => ?_⟩
  · have hmem : kbId ∈ linkedKbs db c :=
      (List.dropWhile_suffix _).subset (List.mem_of_mem_tail hkb)
    obtain ⟨log, hlog, hstatus⟩ := hall kbId hmem
    exact ⟨log, hsame kbId (Or.inr hkb) ▸ hlog, hstatus⟩
  · by_cases hout : kbId ∈ leftOut db c (linkedKbs db c)
    · obtain ⟨log, hlog, hstatus⟩ := hall kbId hout
      exact ⟨log, (hsame kbId (Or.inr hout)).symm ▸ hlog, hstatus⟩
    · exact hscheduled kbId hkb hout

/-! ### Two knowledge bases -/

instance Scheduled.decidable (db : ConnectorDb) (c kbId : Str) : Decidable (Scheduled db c kbId) :=
  decidable_of_iff ((logsOf db c kbId).any (·.status = .schedule) = true) (by simp [Scheduled])

/-- A connector with two knowledge bases and these logs. -/
def twoKbs (logs : Table SyncLog (·.id)) : ConnectorDb where
  connectors := ⟨[⟨['c'], .cancel⟩], by decide⟩
  links := ⟨[⟨['1'], ['c'], ['a']⟩, ⟨['2'], ['c'], ['b']⟩], by decide⟩
  logs := logs

def exampleEnv : Env := { uuid := ['u'], now := fun _ => 5, error := [] }

def failedLog (id kbId : Str) : SyncLog where
  id := id
  connectorId := ['c']
  kbId := kbId
  status := .fail
  fromBeginning := false
  totalDocsIndexed := 0
  errorMsg := []
  fullExceptionTrace := none
  pollRangeStart := none
  pollRangeEnd := none
  updateTime := 1

def failedLogs : Table SyncLog (·.id) := ⟨[failedLog ['x'] ['a'], failedLog ['y'] ['b']], by decide⟩

/-- Two tasks that failed are both scheduled. -/
theorem resume_schedules_failed :
    ∃ db', resume exampleEnv ['c'] .schedule (twoKbs failedLogs) = some db' ∧
      ∀ kbId ∈ linkedKbs (twoKbs failedLogs) ['c'], Scheduled db' ['c'] kbId := by
  obtain ⟨db', hresume, hiff⟩ :=
    resume_schedules_iff exampleEnv (twoKbs failedLogs) ['c'] (by decide) (by
      intro log hlog
      rcases List.mem_cons.mp hlog with rfl | hlog
      · decide
      · rcases List.mem_cons.mp hlog with rfl | hlog
        · decide
        · cases hlog)
  have hnone : leftOut (twoKbs failedLogs) ['c'] (linkedKbs (twoKbs failedLogs) ['c']) = [] := by
    decide +kernel
  refine ⟨db', hresume, hiff.mpr (fun kbId hkb => ?_)⟩
  rw [hnone] at hkb
  cases hkb

/-- Two knowledge bases without logs: only the first is scheduled. -/
theorem resume_forgets_second :
    ∃ db', resume exampleEnv ['c'] .schedule (twoKbs Table.empty) = some db' ∧
      Scheduled db' ['c'] ['a'] ∧ ['b'] ∈ linkedKbs (twoKbs Table.empty) ['c'] ∧
      ¬ Scheduled db' ['c'] ['b'] := by
  refine ⟨_, rfl, ?_⟩
  decide +kernel

end RagFlow.Connector
