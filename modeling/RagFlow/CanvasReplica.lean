import RagFlow.RedisConn

/-! # Replicas of canvases

A canvas that a user runs has a replica in Redis.  `CanvasReplicaService` replaces it when the
canvas is set (`replace_for_set`) and writes the state of a run back to it (`commit_after_run`).

* **Programs.** `replaceForSet` writes the replica under a lock; `commitAfterRun` reads the replica
  and writes it without the lock, with the title it has read unless it is given one.
* **Orders.** The two calls run side by side (`Pool`).  `Traced` says for each phase of the two
  calls which accesses to the replica the trace shows, and what the replica holds.
* **Titles.** `title_kept_iff`: the replica ends with the title of the replacement, unless the
  replacement falls between the read and the write of the commit and the title read was another.

The commands are served one at a time and none fails. -/

namespace RagFlow.CanvasReplica

open Py Effect Effect.Pool
open Redis (TextCmd)

variable {D : Type}

/-! ### Payloads -/

/-- `CanvasCategory.Agent`. -/
def agentCategory : Str := "agent_canvas"

/-- `a or b`. -/
def strOr (a b : Str) : Str := if a = [] then b else a

/-- What the replica holds of a canvas, besides its key and a time. -/
structure Payload (D : Type) where
  dsl : D
  canvasCategory : Str
  title : Str

/-- `_build_payload`. -/
def buildPayload (dsl : D) (canvasCategory title : Str) : Payload D :=
  ⟨dsl, strOr canvasCategory agentCategory, title⟩

/-- The value of the key: a payload, or something that cannot be read as one. -/
inductive Blob (D : Type) where
  | payload (p : Payload D)
  | invalid

/-- `_read_payload` of what was found. -/
def readPayload : Option (Blob D) → Option (Payload D)
  | some (.payload p) => some p
  | some .invalid | none => none

/-! ### Programs -/

inductive Cmd (D : Type) where
  | lock (c : TextCmd)
  | getReplica
  | setReplica (p : Payload D)

abbrev Cmd.Ret : Cmd D → Type
  | lock c => c.Ret
  | getReplica => Option (Blob D)
  | setReplica _ => Unit

inductive Err where
  | failure

abbrev Service (D α : Type) := Prog (Cmd D) Cmd.Ret Err α

/-- `RedisDistributedLock.acquire`; of the attempts of the lock until its timeout, the last one. -/
def acquire (token : Str) : Service D Bool := do
  let _ ← Prog.perform (C := Cmd D) (.lock (.deleteIfEqual token))
  Prog.perform (C := Cmd D) (.lock (.setnx token))

/-- `_acquire_lock_with_retry`. -/
def acquireLockWithRetry (token : Str) : ℕ → Service D Bool
  | 0 => pure false
  | attempts + 1 => do
      let acquired ← acquire token
      if acquired then pure true else acquireLockWithRetry token attempts

/-- `LOCK_RETRY_ATTEMPTS`. -/
def lockRetryAttempts : ℕ := 3

/-- `lock.release()` in its `try` statement. -/
def release (token : Str) : Service D Unit :=
  tryCatch (do
    let _ ← Prog.perform (C := Cmd D) (.lock (.deleteIfEqual token))
    pure ()) (fun _ => pure ())

/-- The `try` statement of `replace_for_set` up to its `finally` clause. -/
def writeReplica (p : Payload D) : Service D Bool :=
  tryCatch (do
    Prog.perform (C := Cmd D) (.setReplica p)
    pure true) (fun _ => pure false)

/-- The arguments of a call. -/
structure Args (D : Type) where
  dsl : D
  canvasCategory : Str
  title : Str

/-- The payload of a replacement. -/
def Args.payload (a : Args D) : Payload D := buildPayload a.dsl a.canvasCategory a.title

/-- `replace_for_set`, with the token of its lock. -/
def replaceForSet (token : Str) (a : Args D) : Service D Bool := do
  let lock ← acquireLockWithRetry token lockRetryAttempts
  if lock then Prog.tryFinally (writeReplica a.payload) (release token)
  else pure false

/-- The payload that `commit_after_run` writes, with the latest payload. -/
def Args.committed (a : Args D) : Option (Payload D) → Payload D
  | none => buildPayload a.dsl a.canvasCategory a.title
  | some latest =>
      buildPayload a.dsl (strOr a.canvasCategory latest.canvasCategory) (strOr a.title latest.title)

/-- `commit_after_run`. -/
def commitAfterRun (a : Args D) : Service D Bool :=
  tryCatch (do
    let found ← Prog.perform (C := Cmd D) .getReplica
    Prog.perform (C := Cmd D) (.setReplica (a.committed (readPayload found)))
    pure true) (fun _ => pure false)

/-! ### Two calls side by side -/

/-- The values of the two keys. -/
structure Store (D : Type) where
  lock : Option Str
  replica : Option (Blob D)

/-- The title of the replica. -/
def Store.title (s : Store D) : Option Str := (readPayload s.replica).map Payload.title

/-- Commands are served one at a time, and none fails. -/
def serve : Handler Unit (Cmd D) Cmd.Ret Err (Store D) := fun _ c s =>
  match c with
  | .lock c => some (.ok (c.apply s.lock).1, { s with lock := (c.apply s.lock).2 })
  | .getReplica => some (.ok s.replica, s)
  | .setReplica p => some (.ok (), { s with replica := some (.payload p) })

inductive Writer where
  | set
  | commit
deriving DecidableEq

abbrev ReplicaPool (D : Type) := Pool Writer (Cmd D) Cmd.Ret Err (Store D) Bool

/-- One `replace_for_set` and one `commit_after_run` on the same replica. -/
def calls (token : Str) (given run : Args D) : Writer → Service D Bool
  | .set => replaceForSet token given
  | .commit => commitAfterRun run

/-- An access to the replica. -/
inductive Access (D : Type) where
  | commitRead (found : Option (Blob D))
  | commitWrite
  | replaceWrite

/-- The access of an event, if it is one. -/
def access : Writer × Event (Cmd D) Cmd.Ret Err → Option (Access D)
  | (.commit, ⟨.getReplica, .ok found⟩) => some (.commitRead found)
  | (.commit, ⟨.setReplica _, .ok _⟩) => some .commitWrite
  | (.set, ⟨.setReplica _, .ok _⟩) => some .replaceWrite
  | _ => none

/-- The accesses to the replica in the order in which they happened. -/
def accesses (t : List (Writer × Event (Cmd D) Cmd.Ret Err)) : List (Access D) :=
  t.filterMap access

/-! ### Protocols -/

/-- How far a call has come with the replica. -/
inductive Phase (D : Type) where
  | fresh
  | read (found : Option (Blob D))
  | wrote

/-- The replacement writes its payload once; the commit reads once, and writes once what it makes of
what it has read. -/
def writing (given run : Args D) : Writer → Protocol (Cmd D) Cmd.Ret Err (Phase D)
  | .set =>
      { allows := fun g c =>
          match c with
          | .lock _ => True
          | .getReplica => False
          | .setReplica p => g = .fresh ∧ p = given.payload
        next := fun g c r =>
          match c, r with
          | .setReplica _, .ok _ => .wrote
          | _, _ => g }
  | .commit =>
      { allows := fun g c =>
          match c with
          | .lock _ => False
          | .getReplica => g = .fresh
          | .setReplica p => ∃ found, g = .read found ∧ p = run.committed (readPayload found)
        next := fun g c r =>
          match c, r with
          | .getReplica, .ok found => .read found
          | .setReplica _, .ok _ => .wrote
          | _, _ => g }

/-- A call that returns `True` has written. -/
def Ended (g : Phase D) (r : Except Err Bool) : Prop := r = .ok true → g = .wrote

section follows
variable {token : Str} {given run : Args D}

theorem acquire_follows :
    Follows (writing given run .set) (fun g _ => g = .fresh) .fresh (acquire token) := by
  refine Follows.perform_bind trivial (fun _ => ?_) (fun _ => rfl)
  exact Follows.perform trivial (fun r => by cases r <;> rfl)

theorem acquireLockWithRetry_follows (attempts : ℕ) :
    Follows (writing given run .set) (fun g _ => g = .fresh) .fresh
      (acquireLockWithRetry token attempts) := by
  induction attempts with
  | zero => exact Follows.pure rfl
  | succ attempts ih =>
      refine Follows.bind acquire_follows ?_ (fun g _ h => h)
      rintro g acquired rfl
      exact Follows.ite (fun _ => Follows.pure rfl) (fun _ => ih)

theorem writeReplica_follows :
    Follows (writing given run .set) Ended .fresh (writeReplica given.payload) := by
  refine Follows.tryCatch (?_ : Follows (writing given run .set) Ended _ _) (fun g a h => h)
    (fun g e _ => ?_)
  · refine Follows.perform_bind ⟨rfl, rfl⟩ (fun _ => ?_) (fun e h => by cases h)
    exact Follows.pure (fun _ => rfl)
  · exact Follows.pure (fun h => by cases h)

theorem release_follows (g : Phase D) :
    Follows (writing given run .set) (fun g' _ => g' = g) g (release token) := by
  refine Follows.tryCatch (?_ : Follows (writing given run .set) (fun g' _ => g' = g) _ _)
    (fun g a h => h) (fun g e h => ?_)
  · exact Follows.perform_bind trivial (fun _ => Follows.pure rfl) (fun _ => rfl)
  · exact Follows.pure h

theorem replaceForSet_follows :
    Follows (writing given run .set) Ended .fresh (replaceForSet token given) := by
  refine Follows.bind (acquireLockWithRetry_follows lockRetryAttempts) ?_
    (fun g _ _ h => by cases h)
  rintro g lock rfl
  refine Follows.ite (fun _ => ?_) (fun _ => Follows.pure (fun h => by cases h))
  refine Follows.tryFinally writeReplica_follows (fun g r hr => ?_)
  refine Follows.weaken (release_follows g) ?_
  rintro _ x rfl
  exact ⟨fun _ => hr, fun _ _ h => by cases h⟩

theorem commitAfterRun_follows :
    Follows (writing given run .commit) Ended .fresh (commitAfterRun run) := by
  refine Follows.tryCatch (?_ : Follows (writing given run .commit) Ended _ _) (fun g a h => h)
    (fun g e _ => Follows.pure (fun h => by cases h))
  refine Follows.perform_bind rfl (fun found => ?_) (fun e h => by cases h)
  refine Follows.perform_bind ⟨found, rfl, rfl⟩ (fun _ => ?_) (fun e h => by cases h)
  exact Follows.pure (fun _ => rfl)

theorem calls_follow (i : Writer) :
    Follows (writing given run i) Ended .fresh (calls token given run i) := by
  cases i with
  | set => exact replaceForSet_follows
  | commit => exact commitAfterRun_follows

end follows

/-! ### The orders of the accesses -/

section orders
variable {given run : Args D}

/-- The accesses that the trace shows, and what the replica holds once it is replaced, in the phases
`g` of the replacement and `k` of the commit. -/
def Traced (given run : Args D) (s : Store D) (l : List (Access D)) (g k : Phase D) : Prop :=
  match g, k with
  | .fresh, .fresh => l = []
  | .fresh, .read found => l = [.commitRead found]
  | .fresh, .wrote => ∃ found, l = [.commitRead found, .commitWrite]
  | .wrote, .fresh => l = [.replaceWrite] ∧ s.replica = some (.payload given.payload)
  | .wrote, .read found => s.replica = some (.payload given.payload) ∧
      ((l = [.replaceWrite, .commitRead found] ∧ found = s.replica) ∨
        l = [.commitRead found, .replaceWrite])
  | .wrote, .wrote => ∃ found,
      (l = [.replaceWrite, .commitRead found, .commitWrite] ∧
        s.replica = some (.payload (run.committed (some given.payload)))) ∨
      (l = [.commitRead found, .replaceWrite, .commitWrite] ∧
        s.replica = some (.payload (run.committed (readPayload found)))) ∨
      (l = [.commitRead found, .commitWrite, .replaceWrite] ∧
        s.replica = some (.payload given.payload))
  | .read _, _ => False

theorem accesses_append (t : List (Writer × Event (Cmd D) Cmd.Ret Err))
    (e : Writer × Event (Cmd D) Cmd.Ret Err) :
    accesses (t ++ [e]) = accesses t ++ (access e).toList := by
  unfold accesses
  rw [List.filterMap_append, List.filterMap_cons]
  cases access e with
  | none => rfl
  | some a => rfl

variable {s : Store D} {l : List (Access D)} {g k : Phase D}

/-- The lock is no matter. -/
theorem Traced.congr (h : Traced given run s l g k) {s' : Store D} (hs : s'.replica = s.replica) :
    Traced given run s' l g k := by
  unfold Traced at h ⊢
  rw [hs]
  exact h

/-- The commit reads. -/
theorem Traced.read (h : Traced given run s l g .fresh) :
    Traced given run s (l ++ [.commitRead s.replica]) g (.read s.replica) := by
  cases g with
  | fresh =>
      obtain rfl : l = [] := h
      rfl
  | read _ => exact h.elim
  | wrote =>
      obtain ⟨rfl, hreplica⟩ := h
      exact ⟨hreplica, .inl ⟨rfl, rfl⟩⟩

/-- The commit writes what it makes of what it has read. -/
theorem Traced.write {found : Option (Blob D)} (h : Traced given run s l g (.read found)) :
    Traced given run
      { s with replica := some (.payload (run.committed (readPayload found))) }
      (l ++ [.commitWrite]) g .wrote := by
  cases g with
  | fresh =>
      obtain rfl : l = [.commitRead found] := h
      exact ⟨found, rfl⟩
  | read _ => exact h.elim
  | wrote =>
      obtain ⟨hreplica, ⟨rfl, hfound⟩ | rfl⟩ := h
      · refine ⟨found, .inl ⟨rfl, ?_⟩⟩
        rw [hfound, hreplica]
        rfl
      · exact ⟨found, .inr (.inl ⟨rfl, rfl⟩)⟩

/-- The replica is replaced. -/
theorem Traced.replace (h : Traced given run s l .fresh k) :
    Traced given run { s with replica := some (.payload given.payload) } (l ++ [.replaceWrite])
      .wrote k := by
  cases k with
  | fresh =>
      obtain rfl : l = [] := h
      exact ⟨rfl, rfl⟩
  | read found =>
      obtain rfl : l = [.commitRead found] := h
      exact ⟨rfl, .inr rfl⟩
  | wrote =>
      obtain ⟨found, rfl⟩ := h
      exact ⟨found, .inr (.inr ⟨rfl, rfl⟩)⟩

theorem traced_step (p : ReplicaPool D) (i : Writer) (c : Cmd D) (x : Unit)
    (r : Except Err c.Ret) (s' : Store D) (ph : Writer → Phase D)
    (h : Traced given run p.state (accesses p.trace) (ph .set) (ph .commit))
    (hallows : (writing given run i).allows (ph i) c)
    (hreply : serve x c p.state = some (r, s')) :
    Traced given run s' (accesses (p.trace ++ [(i, ⟨c, r⟩)]))
      (Function.update ph i ((writing given run i).next (ph i) c r) .set)
      (Function.update ph i ((writing given run i).next (ph i) c r) .commit) := by
  rw [accesses_append]
  cases i with
  | set =>
      rw [Function.update_self, Function.update_of_ne (by decide)]
      cases c with
      | lock c =>
          cases hreply
          rw [show access (_, _) = none from rfl, Option.toList_none, List.append_nil]
          exact h.congr rfl
      | getReplica => exact hallows.elim
      | setReplica payload =>
          obtain ⟨hfresh, rfl⟩ := hallows
          cases hreply
          rw [hfresh] at h
          exact h.replace
  | commit =>
      rw [Function.update_self, Function.update_of_ne (by decide)]
      cases c with
      | lock c => exact hallows.elim
      | getReplica =>
          cases hreply
          rw [show ph .commit = .fresh from hallows] at h
          exact h.read
      | setReplica payload =>
          obtain ⟨found, hread, rfl⟩ := hallows
          cases hreply
          rw [hread] at h
          exact h.write

end orders

/-! ### The title -/

/-- The title a commit without a title writes after it has found this. -/
def titleRead (found : Option (Blob D)) : Str := ((readPayload found).map Payload.title).getD []

theorem committed_title {a : Args D} (h : a.title = []) (found : Option (Blob D)) :
    (a.committed (readPayload found)).title = titleRead found := by
  unfold Args.committed titleRead
  cases readPayload found with
  | none => exact h
  | some latest =>
      show strOr a.title latest.title = latest.title
      rw [h]
      rfl

/-- After both calls the replica has the title of the replacement, exactly if it is not the case
that the commit read another title before the replacement and wrote it after. -/
theorem title_kept_iff (token : Str) (given run : Args D) (htitle : run.title = [])
    (s : Store D) (q : ReplicaPool D)
    (hreach : Reaches serve anyStep (start s (calls token given run)) q)
    (hset : q.threads .set = .ret true) (hcommit : q.threads .commit = .ret true) :
    q.state.title = some given.title ↔
      ∀ found, accesses q.trace = [.commitRead found, .replaceWrite, .commitWrite] →
        titleRead found = given.title := by
  obtain ⟨htraced, hfollows⟩ := hreach.keeps (P := writing given run) (Q := fun _ => Ended)
    (I := fun s t g => Traced given run s (accesses t) (g .set) (g .commit))
    (g := fun _ => .fresh) (fun i => calls_follow i) rfl
    (fun p i c x r s' h hallows _ hreply => traced_step p i c x r s' _ h hallows hreply)
  have hended : ∀ i, q.threads i = .ret true →
      phases (writing given run) (fun _ => .fresh) q.trace i = .wrote := fun i hi => by
    have hend := hfollows i
    rw [hi] at hend
    exact hend rfl
  rw [hended .set hset, hended .commit hcommit] at htraced
  obtain ⟨found, ⟨horder, hreplica⟩ | ⟨horder, hreplica⟩ | ⟨horder, hreplica⟩⟩ := htraced
  · have hsame : q.state.title = some given.title := by
      unfold Store.title
      rw [hreplica]
      exact congrArg some (committed_title htitle (some (.payload given.payload)))
    exact iff_of_true hsame (fun _ h => by rw [horder] at h; cases h)
  · have hwritten : q.state.title = some (titleRead found) := by
      unfold Store.title
      rw [hreplica]
      exact congrArg some (committed_title htitle found)
    rw [hwritten, Option.some.injEq]
    constructor
    · intro h found' horder'
      rw [horder] at horder'
      cases horder'
      exact h
    · exact fun h => h found horder
  · have hsame : q.state.title = some given.title := by
      unfold Store.title
      rw [hreplica]
      rfl
    exact iff_of_true hsame (fun _ h => by rw [horder] at h; cases h)

/-! The calls on a replica with the title `old`. -/

def sampleGiven : Args Unit := ⟨(), agentCategory, "new"⟩

def sampleRun : Args Unit := ⟨(), agentCategory, []⟩

def sampleStore : Store Unit := ⟨none, some (.payload ⟨(), agentCategory, "old"⟩)⟩

def samplePool : ReplicaPool Unit := start sampleStore (calls "t" sampleGiven sampleRun)

/-- One call after the other. -/
def inTurn : Option (ReplicaPool Unit) :=
  play serve anyStep [(.set, ()), (.set, ()), (.set, ()), (.set, ()), (.commit, ()), (.commit, ())]
    samplePool

theorem title_kept_in_turn : ∃ q, inTurn = some q ∧ q.state.title = some sampleGiven.title := by
  have hplay : ∃ q, inTurn = some q ∧ q.threads .set = .ret true ∧
      q.threads .commit = .ret true ∧ ∀ found,
        accesses q.trace = [.commitRead found, .replaceWrite, .commitWrite] →
          titleRead found = sampleGiven.title :=
    ⟨_, rfl, rfl, rfl, fun _ h => by cases h⟩
  obtain ⟨q, hplay, hset, hcommit, horder⟩ := hplay
  exact ⟨q, hplay, (title_kept_iff "t" sampleGiven sampleRun rfl sampleStore q
    (play_reaches _ hplay) hset hcommit).mpr horder⟩

/-- The commit reads, the replica is replaced, and the commit writes the old title. -/
theorem title_written_back :
    ∃ q, Reaches serve anyStep samplePool q ∧ q.threads .set = .ret true ∧
      q.threads .commit = .ret true ∧ q.state.title = some "old".toList := by
  have hplay : ∃ q, play serve anyStep [(.commit, ()), (.set, ()), (.set, ()), (.set, ()),
      (.set, ()), (.commit, ())] samplePool = some q ∧ q.threads .set = .ret true ∧
      q.threads .commit = .ret true ∧ q.state.title = some "old".toList :=
    ⟨_, rfl, rfl, rfl, rfl⟩
  obtain ⟨q, hplay, hrest⟩ := hplay
  exact ⟨q, play_reaches _ hplay, hrest⟩

end RagFlow.CanvasReplica
