import Mathlib.Algebra.GroupWithZero.Nat
import RagFlow.RedisConn

/-! # The lock around the merging of knowledge graphs

`run_graphrag_for_kb` and `run_graphrag` build graphs of documents and merge them into the graph
of the knowledge base.  Merging, entity resolution and community extraction stand between
`spin_acquire` and `release` of a lock in Redis.  The lock is a key whose value is a token of the
owner: `spin_acquire` first deletes the key if it holds the token, then sets it if it is absent;
`release` deletes it if it holds the token.

* **Exclusion.**  An execution with the token of the owner takes the lock away from it, and
  `run_graphrag_for_kb` uses the same token for every execution.  `merge_exclusive` is the
  exclusion for executions with different tokens.
* **Release.**  `release` is in a `finally` clause, but the clause does not cover the statements
  between `spin_acquire` and `try`.  `lock_released_iff` says exactly when the lock is released.

What happens inside the sections, and the building of the graphs, is left to the surroundings: the
operations are commands with any reply.  The graphs of the documents are built by concurrent tasks
that share nothing with each other that the rest reads; here they come one after the other. -/

namespace RagFlow.Graphrag

open Py Effect Effect.Pool
open Redis (TextCmd)

/-! ### Commands -/

inductive Err where
  | taskCanceled
  | timeout
  | assertionError
  /-- Any other exception. -/
  | failure
  /-- The execution is broken off while it waits for the lock. -/
  | waiting
deriving DecidableEq

/-- The places of `callback` and `has_canceled`. -/
inductive Point where
  | noDocs | noChunks | beforeDocs | afterDocs | noSubgraphs
  -- the statements for one document
  | rawChunks (docId : Str) | build (docId : Str) | skipped (docId : Str) | started (docId : Str)
  | timedOut (docId : Str) | built (docId : Str) | empty (docId : Str) | failed (docId : Str)
  -- the first section
  | mergeLock | beforeMerge | mergeFinished | mergeDone
  -- the second section
  | beforeResolution | postMergeLock | finished
  -- `run_graphrag`
  | docLock | docResolutionLock | docCommunityLock | docFinished
deriving DecidableEq

/-- The places at which the lock is used. -/
inductive LockSite where
  /-- The deletion at the start of `spin_acquire`. -/
  | clear
  | acquire
  | release
deriving DecidableEq

inductive Cmd where
  | lock (site : LockSite) (c : TextCmd)
  | hasCanceled (p : Point)
  | callback (p : Point)
  | fetchDocs
  /-- The reply is the number of chunks. -/
  | loadChunks (docId : Str)
  /-- The reply says whether the graph has nodes. -/
  | generateSubgraph (docId : Str)
  /-- The reply says whether there is a graph. -/
  | mergeSubgraph (docId : Str)
  | resolveEntities
  | extractCommunity
  | sleep

abbrev Cmd.Ret : Cmd → Type
  | lock _ c => c.Ret
  | hasCanceled _ => Bool
  | fetchDocs => List Str
  | loadChunks _ => ℕ
  | generateSubgraph _ => Bool
  | mergeSubgraph _ => Bool
  | _ => Unit

abbrev GraphProg := Prog Cmd Cmd.Ret Err

def perform (c : Cmd) : GraphProg c.Ret := Prog.perform c

/-! ### `RedisDistributedLock` -/

/-- `lock_value or str(uuid.uuid4())`. -/
def lockValue (given uuid : Str) : Str := if given.isEmpty then uuid else given

/-- The loop of `spin_acquire`, broken off after a number of attempts. -/
def poll (token : Str) : ℕ → GraphProg Unit
  | 0 => throw .waiting
  | polls + 1 => do
      let acquired ← perform (.lock .acquire (.setnx token))
      if acquired then pure ()
      else
        perform .sleep
        poll token polls

def spinAcquire (token : Str) (polls : ℕ) : GraphProg Unit := do
  let _ ← perform (.lock .clear (.deleteIfEqual token))
  poll token polls

def release (token : Str) : GraphProg Unit := do
  let _ ← perform (.lock .release (.deleteIfEqual token))

/-! ### Building the graphs of the documents -/

/-- `has_canceled`: an exception counts as no. -/
def isCanceled (p : Point) : GraphProg Bool :=
  tryCatch (perform (.hasCanceled p)) (fun _ => pure false)

/-- The check for cancellation, with its message. -/
def stopIfCanceled (p : Point) : GraphProg Unit := do
  let canceled ← isCanceled p
  if canceled then
    perform (.callback p)
    throw .taskCanceled

/-- What `build_one` leaves: whether there is a graph, and the entries of `failed_docs`. -/
structure Build where
  built : Bool := false
  failures : List Err := []

/-- The handlers of `build_one`. -/
def buildFailed (docId : Str) (b : Build) (e : Err) : GraphProg Build := do
  if e = .taskCanceled then
    perform (.callback (.failed docId))
    pure b
  else
    perform (.callback (.failed docId))
    pure { b with failures := b.failures ++ [e] }

/-- The message about an outcome, whose exceptions are handled. -/
def buildReport (docId : Str) (b : Build) (p : Point) : GraphProg Build := do
  let told ← (perform (.callback p)).attempt
  match told with
  | .ok _ => pure b
  | .error e => buildFailed docId b e

/-- `build_one`. -/
def buildOne (docId : Str) (chunks : ℕ) : GraphProg Build := do
  stopIfCanceled (.build docId)
  if chunks = 0 then
    perform (.callback (.skipped docId))
    pure {}
  else
    let told ← (perform (.callback (.started docId))).attempt
    match told with
    | .error e => buildFailed docId {} e
    | .ok _ =>
        let graph ← (perform (.generateSubgraph docId)).attempt
        match graph with
        | .ok true => buildReport docId { built := true } (.built docId)
        | .ok false => buildReport docId { failures := [.failure] } (.empty docId)
        | .error .timeout => buildReport docId { failures := [.timeout] } (.timedOut docId)
        | .error e => buildFailed docId {} e

/-- `load_doc_chunks` for each document. -/
def loadAll : List Str → GraphProg (List (Str × ℕ))
  | [] => pure []
  | docId :: docIds => do
      let chunks ← perform (.loadChunks docId)
      perform (.callback (.rawChunks docId))
      let rest ← loadAll docIds
      pure ((docId, chunks) :: rest)

/-- The tasks of the documents. -/
def buildAll : List (Str × ℕ) → GraphProg (List (Str × Build))
  | [] => pure []
  | (docId, chunks) :: docs => do
      let b ← buildOne docId chunks
      let rest ← buildAll docs
      pure ((docId, b) :: rest)

/-! ### `run_graphrag_for_kb` -/

structure KbRun where
  docIds : List Str
  withResolution : Bool
  withCommunity : Bool
  /-- The attempts at the lock, in the two sections. -/
  polls : ℕ × ℕ

structure KbResult where
  okDocs : List Str
  failedDocs : List Str
  totalDocs : ℕ
  totalChunks : ℕ

/-- The documents of the request, or all of the knowledge base. -/
def docsOf (run : KbRun) : GraphProg (List Str) :=
  if run.docIds.isEmpty then perform .fetchDocs else pure run.docIds

/-- The documents with a graph, or the result if there is nothing to merge. -/
def prepare (run : KbRun) : GraphProg (Sum KbResult KbResult) := do
  let docIds ← docsOf run
  let docIds := docIds.eraseDups
  if docIds.isEmpty then
    perform (.callback .noDocs)
    pure (.inl ⟨[], [], 0, 0⟩)
  else
    let chunks ← loadAll docIds
    let total := (chunks.map (·.2)).sum
    if total = 0 then
      perform (.callback .noChunks)
      pure (.inl ⟨[], docIds, docIds.length, 0⟩)
    else
      stopIfCanceled .beforeDocs
      let builds ← buildAll chunks
      stopIfCanceled .afterDocs
      let ok := (builds.filter (·.2.built)).map (·.1)
      let failed := builds.flatMap (fun b => b.2.failures.map (fun _ => b.1))
      let result : KbResult := ⟨ok, failed, docIds.length, total⟩
      if ok.isEmpty then
        perform (.callback .noSubgraphs)
        pure (.inl result)
      else pure (.inr result)

/-- The token of every execution. -/
def batchMerge : Str := "batch_merge"

/-- The loop over the documents; the answer says whether there is a graph. -/
def mergeAll : Bool → List Str → GraphProg Bool
  | merged, [] => pure merged
  | merged, docId :: docIds => do
      let graph ← perform (.mergeSubgraph docId)
      mergeAll (merged || graph) docIds

/-- The body of the first section. -/
def mergeBody (okDocs : List Str) : GraphProg Unit := do
  let _ ← mergeAll false okDocs
  perform (.callback .mergeFinished)

/-- A step that is taken if the option is set. -/
def optionally (option : Bool) (p : GraphProg Unit) : GraphProg Unit :=
  if option then p else pure ()

/-- The body of the second section. -/
def resolveBody (withResolution withCommunity : Bool) : GraphProg Unit := do
  optionally withResolution (perform .resolveEntities)
  optionally withCommunity (perform .extractCommunity)

/-- The section of the merging. -/
def mergeSection (okDocs : List Str) (polls : ℕ) : GraphProg Unit := do
  spinAcquire batchMerge polls
  perform (.callback .mergeLock)
  stopIfCanceled .beforeMerge
  (mergeBody okDocs).tryFinally (release batchMerge)

/-- The section of the entity resolution and the community extraction. -/
def resolveSection (run : KbRun) : GraphProg Unit := do
  spinAcquire batchMerge run.polls.2
  perform (.callback .postMergeLock)
  (resolveBody run.withResolution run.withCommunity).tryFinally (release batchMerge)

/-- `run_graphrag_for_kb`. -/
def runGraphragForKb (run : KbRun) : GraphProg KbResult := do
  let prepared ← prepare run
  match prepared with
  | .inl result => pure result
  | .inr result =>
      mergeSection result.okDocs run.polls.1
      if !run.withResolution && !run.withCommunity then
        perform (.callback .mergeDone)
        pure result
      else
        stopIfCanceled .beforeResolution
        resolveSection run
        perform (.callback .finished)
        pure result

/-! ### `run_graphrag` -/

structure DocRun where
  docId : Str
  /-- The token when the document has no identifier. -/
  uuid : Str
  withResolution : Bool
  withCommunity : Bool
  polls : ℕ × ℕ × ℕ

def DocRun.token (run : DocRun) : Str := lockValue run.docId run.uuid

/-- The lock is acquired once more for the step `c`. -/
def relocked (token : Str) (polls : ℕ) (p : Point) (c : GraphProg Unit) : GraphProg Unit := do
  spinAcquire token polls
  perform (.callback p)
  c

/-- The body of the section; the answer says whether it goes on after it. -/
def docBody (run : DocRun) : GraphProg Bool := do
  let graph ← perform (.mergeSubgraph run.docId)
  if !graph then throw .assertionError
  else if !run.withResolution && !run.withCommunity then pure false
  else
    optionally run.withResolution
      (relocked run.token run.polls.2.1 .docResolutionLock (perform .resolveEntities))
    optionally run.withCommunity
      (relocked run.token run.polls.2.2 .docCommunityLock (perform .extractCommunity))
    pure true

/-- `run_graphrag`. -/
def runGraphrag (run : DocRun) : GraphProg Unit := do
  let _ ← perform (.loadChunks run.docId)
  let graph ← perform (.generateSubgraph run.docId)
  if !graph then pure ()
  else
    spinAcquire run.token run.polls.1
    perform (.callback .docLock)
    let goOn ← (docBody run).tryFinally (release run.token)
    optionally goOn (perform (.callback .docFinished))

/-! ### What an execution does with the lock -/

/-- The merging, the entity resolution and the community extraction. -/
def Cmd.isSection : Cmd → Bool
  | mergeSubgraph _ | resolveEntities | extractCommunity => true
  | _ => false

/-- An event that leads out of a section without its `finally` clause, or past it: an exception or
a cancellation between `spin_acquire` and `try`, and an exception of `release` itself. -/
def slips : (c : Cmd) → Except Err c.Ret → Bool
  | .callback .mergeLock, .error _ => true
  | .callback .postMergeLock, .error _ => true
  | .hasCanceled .beforeMerge, .ok true => true
  | .lock .release _, .error _ => true
  | _, _ => false

/-- Whether the execution has the lock, and whether it has slipped. -/
structure Watch where
  held : Bool
  slipped : Bool
deriving DecidableEq

namespace Watch

def free : Watch := ⟨false, false⟩

def owner : Watch := ⟨true, false⟩

/-- The lock after a command; an exception of `release` leaves it. -/
def holds (g : Watch) : (c : Cmd) → Except Err c.Ret → Bool
  | .lock _ (.setnx _), .ok true => true
  | .lock .release (.deleteIfEqual _), .error _ => g.held
  | .lock _ (.deleteIfEqual _), _ => false
  | _, _ => g.held

def next (g : Watch) (c : Cmd) (r : Except Err c.Ret) : Watch :=
  ⟨g.holds c r, g.slipped || slips c r⟩

/-- The lock is used with one token, and a section is entered by its owner. -/
def allows (token : Str) (g : Watch) : Cmd → Prop
  | .lock _ (.setnx v) => v = token
  | .lock _ (.deleteIfEqual v) => v = token
  | .lock _ .get => False
  | c => c.isSection = true → g = owner

end Watch

def locking (token : Str) : Protocol Cmd Cmd.Ret Err Watch := ⟨Watch.allows token, Watch.next⟩

/-- Commands that have nothing to do with the lock; those of the sections only inside. -/
def Cmd.isQuiet (inside : Bool) : Cmd → Bool
  | lock _ _ | callback .mergeLock | callback .postMergeLock | hasCanceled .beforeMerge => false
  | mergeSubgraph _ | resolveEntities | extractCommunity => inside
  | _ => true

def quiet (inside : Bool) : Contract Cmd Cmd.Ret :=
  ⟨fun c => c.isQuiet inside = true, fun _ _ => True⟩

theorem slips_quiet {inside : Bool} {c : Cmd} (h : c.isQuiet inside = true)
    (r : Except Err c.Ret) : slips c r = false := by
  cases c with
  | lock site c => cases h
  | callback p => cases p <;> first | (cases r <;> rfl) | cases h
  | hasCanceled p => cases p <;> first | (cases r <;> rfl) | cases h
  | _ => cases r <;> rfl

theorem next_quiet {inside : Bool} {c : Cmd} (h : c.isQuiet inside = true) (g : Watch)
    (r : Except Err c.Ret) : g.next c r = g := by
  have hholds : g.holds c r = g.held := by
    cases c with
    | lock site c => cases h
    | _ => cases r <;> rfl
  unfold Watch.next
  rw [slips_quiet h r, hholds, Bool.or_false]

theorem allows_quiet {inside : Bool} {c : Cmd} (h : c.isQuiet inside = true) {g : Watch}
    {token : Str} (hg : inside = true → g = .owner) : g.allows token c := by
  cases c with
  | lock site c => cases h
  | mergeSubgraph _ | resolveEntities | extractCommunity => exact fun _ => hg h
  | _ => exact fun hsection => by cases hsection

/-- Nothing changes for the lock. -/
theorem follows_quiet {inside : Bool} {g : Watch} (hg : inside = true → g = .owner) {α : Type}
    {Q : α → Prop} {p : GraphProg α} (hp : Only (quiet inside) Q p) (token : Str) :
    Follows (locking token) (fun g' _ => g' = g) g p :=
  Follows.of_only (fun _ _ => trivial) (fun _ hc => allows_quiet hc hg)
    (fun _ r hc => next_quiet hc g r) hp

/-! ### The parts that leave the lock alone -/

section quiet
variable {inside : Bool}

/-- Any value. -/
abbrev Any {α : Type} (_ : α) : Prop := True

theorem perform_only {c : Cmd} (hc : c.isQuiet inside = true) :
    Only (quiet inside) Any (perform c) := Only.perform hc

theorem stopIfCanceled_only {p : Point} (hcheck : (Cmd.hasCanceled p).isQuiet inside = true)
    (hcallback : (Cmd.callback p).isQuiet inside = true) :
    Only (quiet inside) Any (stopIfCanceled p) := by
  have hcanceled : Only (quiet inside) Any (isCanceled p) :=
    Only.tryCatch (perform_only hcheck) (fun _ => Only.pure trivial)
  refine Only.bind hcanceled (fun canceled _ => Only.ite (fun _ => ?_) (fun _ => ?_))
  · exact Only.bind (perform_only hcallback) (fun _ _ => trivial)
  · exact Only.pure trivial

theorem buildFailed_only (docId : Str) (b : Build) (e : Err) :
    Only (quiet inside) Any (buildFailed docId b e) := by
  refine Only.ite (fun _ => ?_) (fun _ => ?_)
  · exact Only.bind (perform_only rfl) (fun _ _ => Only.pure trivial)
  · exact Only.bind (perform_only rfl) (fun _ _ => Only.pure trivial)

theorem buildReport_only (docId : Str) (b : Build) {p : Point}
    (hp : (Cmd.callback p).isQuiet inside = true) :
    Only (quiet inside) Any (buildReport docId b p) := by
  refine Only.bind (perform_only hp).attempt (fun told _ => ?_)
  cases told with
  | ok _ => exact Only.pure trivial
  | error e => exact buildFailed_only docId b e

theorem buildOne_only (docId : Str) (chunks : ℕ) :
    Only (quiet inside) Any (buildOne docId chunks) := by
  refine Only.bind (stopIfCanceled_only rfl rfl) (fun _ _ => ?_)
  refine Only.ite (fun _ => ?_) (fun _ => ?_)
  · exact Only.bind (perform_only rfl) (fun _ _ => Only.pure trivial)
  · refine Only.bind (perform_only rfl).attempt (fun told _ => ?_)
    cases told with
    | error e => exact buildFailed_only docId {} e
    | ok _ =>
        refine Only.bind (perform_only rfl).attempt (fun graph _ => ?_)
        rcases graph with e | (_ | _)
        · cases e with
          | timeout => exact buildReport_only docId _ rfl
          | _ => exact buildFailed_only docId {} _
        · exact buildReport_only docId _ rfl
        · exact buildReport_only docId _ rfl

theorem loadAll_only (docIds : List Str) : Only (quiet inside) Any (loadAll docIds) := by
  induction docIds with
  | nil => exact Only.pure trivial
  | cons docId docIds ih =>
      refine Only.bind (perform_only rfl) (fun chunks _ => ?_)
      refine Only.bind (perform_only rfl) (fun _ _ => ?_)
      exact Only.bind ih (fun _ _ => Only.pure trivial)

theorem buildAll_only (docs : List (Str × ℕ)) : Only (quiet inside) Any (buildAll docs) := by
  induction docs with
  | nil => exact Only.pure trivial
  | cons doc docs ih =>
      obtain ⟨docId, chunks⟩ := doc
      refine Only.bind (buildOne_only docId chunks) (fun b _ => ?_)
      exact Only.bind ih (fun _ _ => Only.pure trivial)

theorem prepare_only (run : KbRun) : Only (quiet inside) Any (prepare run) := by
  have hdocs : Only (quiet inside) Any (docsOf run) :=
    Only.ite (fun _ => perform_only rfl) (fun _ => Only.pure trivial)
  refine Only.bind hdocs (fun docIds _ => ?_)
  refine Only.ite (fun _ => ?_) (fun _ => ?_)
  · exact Only.bind (perform_only rfl) (fun _ _ => Only.pure trivial)
  · refine Only.bind (loadAll_only _) (fun chunks _ => ?_)
    refine Only.ite (fun _ => ?_) (fun _ => ?_)
    · exact Only.bind (perform_only rfl) (fun _ _ => Only.pure trivial)
    · refine Only.bind (stopIfCanceled_only rfl rfl) (fun _ _ => ?_)
      refine Only.bind (buildAll_only _) (fun builds _ => ?_)
      refine Only.bind (stopIfCanceled_only rfl rfl) (fun _ _ => ?_)
      refine Only.ite (fun _ => ?_) (fun _ => ?_)
      · exact Only.bind (perform_only rfl) (fun _ _ => Only.pure trivial)
      · exact Only.pure trivial

theorem mergeAll_only (okDocs : List Str) : ∀ merged,
    Only (quiet true) Any (mergeAll merged okDocs) := by
  induction okDocs with
  | nil => intro merged; exact Only.pure trivial
  | cons docId docIds ih =>
      intro merged
      exact Only.bind (perform_only rfl) (fun graph _ => ih (merged || graph))

theorem mergeBody_only (okDocs : List Str) : Only (quiet true) Any (mergeBody okDocs) :=
  Only.bind (mergeAll_only okDocs false) (fun _ _ => perform_only rfl)

theorem resolveBody_only (withResolution withCommunity : Bool) :
    Only (quiet true) Any (resolveBody withResolution withCommunity) := by
  refine Only.bind (Q := Any) ?_ (fun _ _ => ?_)
  · exact Only.ite (fun _ => perform_only rfl) (fun _ => Only.pure trivial)
  · exact Only.ite (fun _ => perform_only rfl) (fun _ => Only.pure trivial)

end quiet

/-! ### The sections -/

/-- An execution comes out of `spin_acquire` as the owner, or with an exception and without the
lock. -/
def Acquired (g : Watch) : Except Err Unit → Prop
  | .ok _ => g = .owner
  | .error _ => g = .free

/-- What an execution leaves: it has the lock exactly when it has slipped. -/
def Left {α : Type} (g : Watch) (r : Except Err α) : Prop :=
  match r with
  | .ok _ => g = .free
  | .error _ => g.held = g.slipped

section sections
variable {token : Str} {α : Type} {g : Watch}

theorem poll_follows (token : Str) (polls : ℕ) :
    Follows (locking token) Acquired .free (poll token polls) := by
  induction polls with
  | zero => exact Follows.throw rfl
  | succ polls ih =>
      refine Follows.perform_bind rfl (fun acquired => ?_) (fun _ => rfl)
      cases acquired with
      | true => exact Follows.pure rfl
      | false => exact Follows.perform_bind (fun h => by cases h) (fun _ => ih) (fun _ => rfl)

/-- From wherever it is called, unless the execution has slipped. -/
theorem spinAcquire_follows (polls : ℕ) (hg : g.slipped = false) :
    Follows (locking token) Acquired g (spinAcquire token polls) := by
  have hfree : ∀ r, g.next (.lock .clear (.deleteIfEqual token)) r = .free := by
    intro r
    obtain ⟨held, slipped⟩ := g
    cases hg
    cases r with
    | ok _ => rfl
    | error e => rfl
  refine Follows.perform_bind rfl (fun a => ?_) (fun e => hfree (.error e))
  show Follows (locking token) Acquired (g.next (.lock .clear (.deleteIfEqual token)) (.ok a)) _
  rw [hfree]
  exact poll_follows token polls

/-- A body in a section, whatever it ends with. -/
theorem section_follows {body : GraphProg α} {Q : α → Prop} (hbody : Only (quiet true) Q body) :
    Follows (locking token) Left .owner (body.tryFinally (release token)) := by
  refine Follows.tryFinally (follows_quiet (fun _ => rfl) hbody token) ?_
  rintro g r rfl
  refine Follows.perform_bind rfl (fun _ => ⟨fun _ => ?_, fun e h => by cases h⟩)
    (fun _ => ⟨fun h => (by cases h), fun _ _ => rfl⟩)
  cases r with
  | ok a => rfl
  | error e => rfl

/-- Still the owner, or out of the section with the lock. -/
def Kept {α : Type} (g : Watch) : Except Err α → Prop
  | .ok _ => g = .owner
  | .error _ => g.held = g.slipped

/-- The check for a cancellation before the merging is not covered by the clause. -/
theorem stopBeforeMerge_follows :
    Follows (locking token) Kept .owner (stopIfCanceled .beforeMerge) := by
  have hcheck : Follows (locking token)
      (fun g r => ∃ canceled, r = .ok canceled ∧ g = ⟨true, canceled⟩) .owner
      (isCanceled .beforeMerge) := by
    refine ⟨fun h => (by cases h), fun r => ?_⟩
    rcases r with e | (_ | _)
    · exact ⟨false, rfl, rfl⟩
    · exact ⟨false, rfl, rfl⟩
    · exact ⟨true, rfl, rfl⟩
  refine Follows.bind hcheck ?_ (fun _ _ h => by obtain ⟨_, h, -⟩ := h; cases h)
  rintro _ canceled ⟨_, hc, rfl⟩
  cases hc
  cases canceled with
  | false => exact Follows.pure rfl
  | true => exact Follows.perform_bind (fun h => by cases h) (fun _ => rfl) (fun _ => rfl)

theorem mergeSection_follows (okDocs : List Str) (polls : ℕ) :
    Follows (locking batchMerge) Left .free (mergeSection okDocs polls) := by
  refine Follows.bind (spinAcquire_follows polls rfl) ?_ ?_
  · rintro _ _ rfl
    refine Follows.perform_bind (fun h => by cases h) (fun _ => ?_) (fun _ => rfl)
    refine Follows.bind stopBeforeMerge_follows ?_ (fun _ _ h => h)
    rintro _ _ rfl
    exact section_follows (mergeBody_only okDocs)
  · rintro _ _ rfl
    rfl

theorem resolveSection_follows (run : KbRun) :
    Follows (locking batchMerge) Left .free (resolveSection run) := by
  refine Follows.bind (spinAcquire_follows run.polls.2 rfl) ?_ ?_
  · rintro _ _ rfl
    refine Follows.perform_bind (fun h => by cases h) (fun _ => ?_) (fun _ => rfl)
    exact section_follows (resolveBody_only _ _)
  · rintro _ _ rfl
    rfl

/-- A part outside of the sections, and what comes after it. -/
theorem follows_outside {β : Type} {p : GraphProg α} {f : α → GraphProg β} {Q : α → Prop}
    (hp : Only (quiet false) Q p) (hf : ∀ a, Follows (locking token) Left .free (f a)) :
    Follows (locking token) Left .free (p >>= f) := by
  refine Follows.bind (follows_quiet (fun h => by cases h) hp token) ?_ ?_
  · rintro _ a rfl
    exact hf a
  · rintro _ e rfl
    rfl

theorem runGraphragForKb_follows (run : KbRun) :
    Follows (locking batchMerge) Left .free (runGraphragForKb run) := by
  refine follows_outside (prepare_only run) (fun prepared => ?_)
  cases prepared with
  | inl result => exact Follows.pure rfl
  | inr result =>
      refine Follows.bind (mergeSection_follows result.okDocs run.polls.1) ?_ (fun _ _ h => h)
      rintro _ _ rfl
      refine Follows.ite (fun _ => ?_) (fun _ => ?_)
      · exact follows_outside (perform_only rfl) (fun _ => Follows.pure rfl)
      · refine follows_outside (stopIfCanceled_only rfl rfl) (fun _ => ?_)
        refine Follows.bind (resolveSection_follows run) ?_ (fun _ _ h => h)
        rintro _ _ rfl
        exact follows_outside (perform_only rfl) (fun _ => Follows.pure rfl)

end sections

/-! ### Release -/

/-- What an execution has done with the lock after the events. -/
def watched (t : List (Event Cmd Cmd.Ret Err)) : Watch := (locking batchMerge).phase .free t

/-- An execution has slipped when one of its events was a slip. -/
theorem phase_slipped (token : Str) (t : List (Event Cmd Cmd.Ret Err)) : ∀ g : Watch,
    ((locking token).phase g t).slipped = true ↔
      g.slipped = true ∨ ∃ e ∈ t, slips e.cmd e.reply = true := by
  induction t with
  | nil => intro g; simp [Protocol.phase]
  | cons e t ih =>
      intro g
      show ((locking token).phase (g.next e.cmd e.reply) t).slipped = true ↔ _
      rw [ih]
      simp [Watch.next, or_assoc]

/-- **Release of the lock.**  However `run_graphrag_for_kb` ends, it has released the lock exactly
when no exception and no cancellation has come between `spin_acquire` and the `try` statement, and
`release` itself has not raised. -/
theorem lock_released_iff (run : KbRun) (t : List (Event Cmd Cmd.Ret Err))
    (r : Except Err KbResult) (h : (runGraphragForKb run).Ends t r) :
    (watched t).held = false ↔ ∀ e ∈ t, slips e.cmd e.reply = false := by
  have hleft : Left (watched t) r := (runGraphragForKb_follows run).ends h
  have hsame : (watched t).held = (watched t).slipped := by
    cases r with
    | ok result =>
        have hfree : watched t = .free := hleft
        rw [hfree]
        rfl
    | error e => exact hleft
  have hslip := phase_slipped batchMerge t .free
  rw [hsame, ← Bool.not_eq_true]
  constructor
  · intro hnot e he
    rw [← Bool.not_eq_true]
    exact fun hslips => hnot (hslip.mpr (Or.inr ⟨e, he, hslips⟩))
  · intro hall hslipped
    rcases hslip.mp hslipped with hfree | ⟨e, he, hslips⟩
    · cases hfree
    · rw [hall e he] at hslips
      cases hslips

/-! One document, with the task cancelled while it waits for the lock, and without. -/

def oneDoc : KbRun :=
  { docIds := ["d"], withResolution := true, withCommunity := true, polls := (1, 1) }

/-- Every command succeeds; the task is found cancelled at the given point. -/
def answers (canceledAt : Option Point) : (c : Cmd) → Except Err c.Ret
  | .lock _ .get => .ok none
  | .lock _ (.setnx _) => .ok true
  | .lock _ (.deleteIfEqual _) => .ok true
  | .hasCanceled p => .ok (canceledAt = some p)
  | .callback _ => .ok ()
  | .fetchDocs => .ok []
  | .loadChunks _ => .ok 1
  | .generateSubgraph _ => .ok true
  | .mergeSubgraph _ => .ok true
  | .resolveEntities => .ok ()
  | .extractCommunity => .ok ()
  | .sleep => .ok ()

theorem lock_released_canceled_after_merge :
    ((runGraphragForKb oneDoc).answeredBy (answers (some .beforeResolution))).2 =
        .error .taskCanceled ∧
      (watched ((runGraphragForKb oneDoc).answeredBy
        (answers (some .beforeResolution))).1).held = false := by
  refine ⟨rfl, (lock_released_iff oneDoc _ _ (Prog.ends_answeredBy _ _)).mpr ?_⟩
  have hall : ((runGraphragForKb oneDoc).answeredBy (answers (some .beforeResolution))).1.all
      (fun e => !slips e.cmd e.reply) = true := rfl
  intro e he
  simpa using List.all_eq_true.mp hall e he

/-- The task is cancelled between `spin_acquire` and `try`. -/
theorem lock_not_released :
    ∃ t, (runGraphragForKb oneDoc).Ends t (.error .taskCanceled) ∧ (watched t).held = true := by
  have hends := Prog.ends_answeredBy (answers (some .beforeMerge)) (runGraphragForKb oneDoc)
  exact ⟨_, hends, rfl⟩

/-! ### Exclusion -/

/-- An execution on the knowledge base. -/
inductive Execution where
  | forKb (run : KbRun)
  | forDoc (run : DocRun)

/-- The token of the execution. -/
def Execution.token : Execution → Str
  | forKb _ => batchMerge
  | forDoc run => run.token

def Execution.program : Execution → GraphProg Unit
  | forKb run => do
      let _ ← runGraphragForKb run
  | forDoc run => runGraphrag run

/-- What the surroundings decide for a step: the fate of a command on the lock, and the replies to
the others. -/
structure Choice where
  fate : Fate
  reply : (c : Cmd) → Except Err c.Ret

/-- The lock is a key in Redis; the rest is answered by the surroundings. -/
def serve : Handler Choice Cmd Cmd.Ret Err (Option Str)
  | x, .lock _ c, s => some (x.fate.reply .failure s (.ok (c.apply s).1, (c.apply s).2))
  | x, c, s => some (x.reply c, s)

section follows

theorem optionally_follows {token : Str} {g : Watch} {Q : Watch → Except Err Unit → Prop}
    {option : Bool} {p : GraphProg Unit} (hp : Follows (locking token) Q g p) (hg : Q g (.ok ())) :
    Follows (locking token) Q g (optionally option p) :=
  Follows.ite (fun _ => hp) (fun _ => Follows.pure hg)

/-- In the body of `run_graphrag`: the owner, or an exception that is no slip. -/
def InBody {α : Type} (g : Watch) : Except Err α → Prop
  | .ok _ => g = .owner
  | .error _ => g.slipped = false

theorem relocked_follows (token : Str) (polls : ℕ) {p : Point}
    (hp : (Cmd.callback p).isQuiet true = true) {q : GraphProg Unit}
    (hq : Only (quiet true) Any q) :
    Follows (locking token) InBody .owner (relocked token polls p q) := by
  refine Follows.bind (spinAcquire_follows polls rfl) ?_ ?_
  · rintro _ _ rfl
    have hrest : Only (quiet true) Any (perform (.callback p) >>= fun _ => q) :=
      Only.bind (perform_only hp) (fun _ _ => hq)
    refine (follows_quiet (fun _ => rfl) hrest token).weaken ?_
    rintro _ r rfl
    cases r with
    | ok _ => rfl
    | error e => rfl
  · rintro _ _ rfl
    rfl

theorem docBody_follows (run : DocRun) :
    Follows (locking run.token) InBody .owner (docBody run) := by
  refine Follows.perform_bind (fun _ => rfl) (fun graph => ?_) (fun _ => rfl)
  refine Follows.ite (fun _ => Follows.throw rfl) (fun _ => ?_)
  refine Follows.ite (fun _ => Follows.pure rfl) (fun _ => ?_)
  have hresolve : Follows (locking run.token) InBody .owner
      (relocked run.token run.polls.2.1 .docResolutionLock (perform .resolveEntities)) :=
    relocked_follows _ _ rfl (perform_only rfl)
  have hcommunity : Follows (locking run.token) InBody .owner
      (relocked run.token run.polls.2.2 .docCommunityLock (perform .extractCommunity)) :=
    relocked_follows _ _ rfl (perform_only rfl)
  refine Follows.bind (optionally_follows hresolve rfl) ?_ (fun _ _ h => h)
  rintro _ _ rfl
  refine Follows.bind (optionally_follows hcommunity rfl) ?_ (fun _ _ h => h)
  rintro _ _ rfl
  exact Follows.pure rfl

/-- However it ends. -/
abbrev Anyhow {α : Type} (_ : Watch) (_ : Except Err α) : Prop := True

theorem runGraphrag_follows (run : DocRun) :
    Follows (locking run.token) Anyhow .free (runGraphrag run) := by
  refine Follows.perform_bind (fun h => by cases h) (fun _ => ?_) (fun _ => trivial)
  refine Follows.perform_bind (fun h => by cases h) (fun graph => ?_) (fun _ => trivial)
  refine Follows.ite (fun _ => Follows.pure trivial) (fun _ => ?_)
  refine Follows.bind (spinAcquire_follows run.polls.1 rfl) ?_ (fun _ _ _ => trivial)
  rintro _ _ rfl
  refine Follows.perform_bind (fun h => by cases h) (fun _ => ?_) (fun _ => trivial)
  have hsection : Follows (locking run.token) Anyhow .owner
      ((docBody run).tryFinally (release run.token)) := by
    refine Follows.tryFinally (docBody_follows run) (fun g r _ => ?_)
    exact Follows.perform_bind rfl (fun _ => ⟨fun _ => trivial, fun _ _ => trivial⟩)
      (fun _ => ⟨fun _ => trivial, fun _ _ => trivial⟩)
  refine Follows.bind hsection (fun g goOn _ => ?_) (fun _ _ _ => trivial)
  refine optionally_follows ?_ trivial
  exact Follows.perform (fun h => by cases h) (fun _ => trivial)

theorem program_follows (x : Execution) :
    Follows (locking x.token) Anyhow .free x.program := by
  cases x with
  | forKb run =>
      exact Follows.bind (runGraphragForKb_follows run) (fun _ _ _ => Follows.pure trivial)
        (fun _ _ _ => trivial)
  | forDoc run => exact runGraphrag_follows run

end follows

section exclusion
variable {ι : Type}

/-- The owner has its token in the lock. -/
def Owned (token : ι → Str) (s : Option Str) (g : ι → Watch) : Prop :=
  ∀ i, g i = .owner → s = some (token i)

/-- No command of an execution takes the lock away from another. -/
theorem Owned.apply {token : ι → Str} (htoken : Function.Injective token) {s : Option Str}
    {g : ι → Watch} (h : Owned token s g) {i j : ι} (hij : j ≠ i) (hj : g j = .owner)
    {c : TextCmd} (hc : c = .setnx (token i) ∨ c = .deleteIfEqual (token i)) :
    (c.apply s).2 = some (token j) := by
  have hs := h j hj
  subst hs
  rcases hc with rfl | rfl
  · rfl
  · have hne : ¬some (token j) = some (token i) := fun heq => hij (htoken (Option.some.inj heq))
    show (if some (token j) = some (token i) then _ else _ : Bool × Option Str).2 = _
    rw [if_neg hne]

/-- A command that leaves the lock makes no owner. -/
theorem owner_of_next {g : Watch} {c : Cmd} {r : Except Err c.Ret} (hheld : g.holds c r = g.held)
    (hnext : g.next c r = .owner) : g = .owner := by
  have hholds : g.holds c r = true := congrArg Watch.held hnext
  have hslipped : (g.slipped || slips c r) = false := congrArg Watch.slipped hnext
  obtain ⟨held, slipped⟩ := g
  rw [hheld] at hholds
  cases hholds
  have hslipped : slipped = false := (Bool.or_eq_false_iff.mp hslipped).1
  subst hslipped
  rfl

theorem not_owner_of_delete {g : Watch} {site : LockSite} {v : Str} (r : Except Err Bool) :
    g.next (.lock site (.deleteIfEqual v)) r ≠ .owner := by
  intro hnext
  have hholds := congrArg Watch.held hnext
  have hslipped := congrArg Watch.slipped hnext
  cases r with
  | ok _ => cases site <;> cases hholds
  | error e =>
      cases site with
      | release => simp [Watch.next, slips, Watch.owner] at hslipped
      | clear => cases hholds
      | acquire => cases hholds

/-- An execution that is the owner after a command has its token in the lock. -/
theorem owned_self {token : Str} {s s' : Option Str} {g : Watch}
    (hg : g = .owner → s = some token) {c : Cmd} (hallows : g.allows token c) {x : Choice}
    {r : Except Err c.Ret} (hreply : serve x c s = some (r, s')) (hnext : g.next c r = .owner) :
    s' = some token := by
  cases c with
  | lock site c =>
      cases c with
      | get => exact hallows.elim
      | deleteIfEqual v => exact absurd hnext (not_owner_of_delete r)
      | setnx v =>
          obtain rfl : v = token := hallows
          cases s with
          | none =>
              cases hfate : x.fate with
              | refused =>
                  simp only [serve, hfate, Fate.reply] at hreply
                  cases hreply
                  cases hg (owner_of_next rfl hnext)
              | served =>
                  simp only [serve, hfate, Fate.reply] at hreply
                  cases hreply
                  rfl
              | replyLost =>
                  simp only [serve, hfate, Fate.reply] at hreply
                  cases hreply
                  rfl
          | some w =>
              have hsame : s' = some w ∧ g.holds (.lock site (.setnx v)) r = g.held := by
                cases hfate : x.fate <;> simp only [serve, hfate, Fate.reply] at hreply <;>
                  cases hreply <;> exact ⟨rfl, rfl⟩
              rw [hsame.1]
              exact hg (owner_of_next hsame.2 hnext)
  | _ =>
      cases hreply
      refine hg (owner_of_next ?_ hnext)
      rfl

variable [DecidableEq ι]

theorem owned_step {token : ι → Str} (htoken : Function.Injective token) {s s' : Option Str}
    {g : ι → Watch} (h : Owned token s g) {i : ι} {c : Cmd} (hallows : (g i).allows (token i) c)
    {x : Choice} {r : Except Err c.Ret} (hreply : serve x c s = some (r, s')) :
    Owned token s' (Function.update g i ((g i).next c r)) := by
  intro j hj
  by_cases hji : j = i
  · subst hji
    rw [Function.update_self] at hj
    exact owned_self (h j) hallows hreply hj
  · rw [Function.update_of_ne hji] at hj
    cases c with
    | lock site c =>
        have hc : c = .setnx (token i) ∨ c = .deleteIfEqual (token i) := by
          cases c with
          | get => exact hallows.elim
          | setnx v => exact Or.inl (congrArg TextCmd.setnx hallows)
          | deleteIfEqual v => exact Or.inr (congrArg TextCmd.deleteIfEqual hallows)
        have happly := h.apply htoken hji hj hc
        cases hfate : x.fate <;> simp only [serve, hfate, Fate.reply] at hreply <;> cases hreply
        · exact happly
        · exact h j hj
        · exact happly
    | _ =>
        cases hreply
        exact h j hj

/-- Executions on one knowledge base; the state is the value of the lock. -/
abbrev MergePool (ι : Type) := Pool ι Cmd Cmd.Ret Err (Option Str) Unit

/-- The execution is between `spin_acquire` and `release`. -/
def Holding (q : MergePool ι) (i : ι) : Prop := watched (own i q.trace) = .owner

/-- The execution is about to merge, to resolve entities or to extract communities, or is doing
so. -/
def InSection (p : GraphProg Unit) : Prop := ∃ c k, p = .call c k ∧ c.isSection = true

/-- **Exclusion.**  In every run of any number of executions with different tokens at most one is
between `spin_acquire` and `release`, and at most one is in a section. -/
theorem merge_exclusive (runs : ι → Execution)
    (htoken : Function.Injective (fun i => (runs i).token)) (s : Option Str) (q : MergePool ι)
    (hreach : Reaches serve anyStep (start s (fun i => (runs i).program)) q) :
    (∀ i j, Holding q i → Holding q j → i = j) ∧
      ∀ i j, InSection (q.threads i) → InSection (q.threads j) → i = j := by
  have hinit : Owned (fun i => (runs i).token) s (fun _ : ι => Watch.free) :=
    fun _ h => by cases h
  obtain ⟨howned, hfollows⟩ := hreach.keeps
    (I := fun s _ g => Owned (fun i => (runs i).token) s g)
    (fun i => program_follows (runs i)) hinit
    (fun _ _ _ _ _ _ h hallows _ hreply => owned_step htoken h hallows hreply)
  have hphase : ∀ i, phases (fun i => locking (runs i).token) (fun _ => .free) q.trace i =
      watched (own i q.trace) := fun _ => rfl
  have hholding : ∀ i j, Holding q i → Holding q j → i = j := by
    intro i j hi hj
    have hs := howned i ((hphase i).trans hi)
    exact htoken (Option.some.inj (hs.symm.trans (howned j ((hphase j).trans hj))))
  have hinside : ∀ i, InSection (q.threads i) → Holding q i := by
    rintro i ⟨c, k, hthread, hsection⟩
    have hi := hfollows i
    rw [hthread] at hi
    have hallows : Watch.allows _ _ c := hi.1
    cases c with
    | mergeSubgraph docId => exact hallows hsection
    | resolveEntities => exact hallows hsection
    | extractCommunity => exact hallows hsection
    | _ => cases hsection
  exact ⟨hholding, fun i j hi hj => hholding i j (hinside i hi) (hinside j hj)⟩

/-! Two executions for the knowledge base, and one for it with one for a document. -/

/-- A step in which every command succeeds. -/
def smoothly : Choice := ⟨.served, answers none⟩

def twoForKb : Bool → Execution := fun _ => .forKb oneDoc

def kbAndDoc : Bool → Execution
  | true => .forKb oneDoc
  | false => .forDoc ⟨"d", [], true, true, (1, 1, 1)⟩

/-- `n` steps of one execution. -/
def stepsOf (i : Bool) (n : ℕ) : List (Bool × Choice) := List.replicate n (i, smoothly)

theorem merge_exclusive_kb_and_doc :
    ∃ q, play serve anyStep (stepsOf true 12 ++ stepsOf false 4)
        (start none (fun i => (kbAndDoc i).program)) = some q ∧
      Holding q true ∧ ∀ i j, InSection (q.threads i) → InSection (q.threads j) → i = j := by
  have htoken : Function.Injective (fun i => (kbAndDoc i).token) := by
    intro i j hij
    cases i <;> cases j <;> first | rfl | exact absurd hij (by decide)
  refine ⟨_, rfl, rfl, ?_⟩
  exact (merge_exclusive kbAndDoc htoken none _
    (play_reaches (stepsOf true 12 ++ stepsOf false 4) rfl)).2

/-- The second execution deletes the lock of the first, whose token it has. -/
theorem merge_not_exclusive :
    ∃ q, Reaches serve anyStep (start none (fun i => (twoForKb i).program)) q ∧
      InSection (q.threads true) ∧ InSection (q.threads false) := by
  have hplay : ∃ q, play serve anyStep (stepsOf true 12 ++ stepsOf false 12)
      (start none (fun i => (twoForKb i).program)) = some q ∧
      InSection (q.threads true) ∧ InSection (q.threads false) :=
    ⟨_, rfl, ⟨_, _, rfl, rfl⟩, ⟨_, _, rfl, rfl⟩⟩
  obtain ⟨q, hplay, htrue, hfalse⟩ := hplay
  exact ⟨q, play_reaches _ hplay, htrue, hfalse⟩

end exclusion

end RagFlow.Graphrag
