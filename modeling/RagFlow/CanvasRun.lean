import RagFlow.CanvasVars
import RagFlow.Transition

/-! # Running a canvas

The loop of `Canvas.run` in `agent/canvas.py`.  The path lists the components that are run; those
appended since the last batch are the next batch.

* **A batch.** `_run_batch` goes through its components, pops those that refer to a component which
  is not before them in the path, and makes a task of each of the others.  Tasks start in order, at
  most five at a time, and end in any order.
* **Post-processing.** When all tasks are done, each component in turn appends its successors to the
  path.  An iteration or a loop appends its item; the item appends the body, or what follows the
  iteration or loop when it has come to the end.

A state keeps the path in pieces: the paths of earlier runs, the components that have been
post-processed, the batch, and the queue of the next batch.  The step function is executable, with
the choices of the event loop as its argument; what a component does to the data is part of the
choice, except for the items of iterations and loops. -/

namespace RagFlow.Agent.Flow

open Py

/-! ### Workflows -/

abbrev CpnId := Str

/-- The names of components that `Canvas.run` asks for; `switch` is treated like `categorize`. -/
inductive Kind where
  | beginning
  | userFillUp
  | iteration
  | iterationItem
  | loop
  | loopItem
  | exitLoop
  | categorize
  | message
  | other
deriving DecidableEq

structure Cpn where
  id : CpnId
  kind : Kind
  downstream : List CpnId
  parentId : Option CpnId := none
  /-- The `_cpn_id` of the input elements. -/
  refs : List CpnId := []
  /-- The outputs with a `ref`: their name, and the component and variable it names. -/
  outputRefs : List (Str × CpnId × Str) := []

structure Workflow where
  components : Table Cpn Cpn.id

/-- `get_start`: the first item of an iteration or a loop. -/
def Workflow.getStart (w : Workflow) (cpn : Cpn) : Option CpnId :=
  let item (kind : Kind) : Option CpnId :=
    (w.components.rows.find? (fun x => x.kind = kind ∧ x.parentId = some cpn.id)).map Cpn.id
  match cpn.kind with
  | .iteration => item .iterationItem
  | .loop => item .loopItem
  | _ => none

def isItem (cpn : Cpn) : Bool := cpn.kind = .iterationItem ∨ cpn.kind = .loopItem

/-- `get_parent`. -/
def Workflow.getParent (w : Workflow) (cpn : Cpn) : Option Cpn :=
  cpn.parentId.bind w.components.get?

inductive LogicalOperator where
  | and
  | or
deriving DecidableEq

/-- `all(conditions)` or `any(conditions)`. -/
def LogicalOperator.combine : LogicalOperator → List Bool → Bool
  | .and, conditions => conditions.all id
  | .or, conditions => conditions.any id

/-- What a run takes from the components, `D` being all their data. -/
structure Env (D : Type) where
  /-- The identifier contains `userfillup`. -/
  isFillUp : CpnId → Bool
  /-- `cpn_obj.error()` is set. -/
  error : D → CpnId → Bool
  /-- The `goto` of the exception handler. -/
  goto : CpnId → List CpnId
  /-- The exception handler has a default value. -/
  hasDefault : CpnId → Bool
  /-- The data after an invocation that was cancelled or raised an exception. -/
  fail : CpnId → D → D
  /-- `output("_next")`. -/
  next : D → CpnId → List CpnId
  /-- The value of `items_ref` of an iteration, if it is an array. -/
  items : D → CpnId → Option (List Value)
  /-- `set_output("item", v)` and `set_output("index", i)`. -/
  publish : CpnId → Value → ℤ → D → D
  output : D → CpnId → Str → Value
  /-- Append a value to an output of an iteration. -/
  collect : CpnId → Str → Value → D → D
  maximumLoopCount : CpnId → ℕ
  /-- The values of the termination conditions of a loop, unless their evaluation raises. -/
  conditions : D → CpnId → Option (List Bool)
  /-- `logical_operator`, if it is valid. -/
  logicalOperator : CpnId → Option LogicalOperator

/-! ### States -/

inductive Status where
  | waiting
  | running
  | done
deriving DecidableEq

/-- What is noted of a run. -/
inductive Event where
  /-- The invocation of a component starts. -/
  | invoked (c : CpnId)
  /-- An iteration or loop schedules its item, with the array of the iteration. -/
  | entered (item : CpnId) (arr : Option (List Value))
  /-- An item of an iteration publishes an element. -/
  | published (item : CpnId) (i : ℤ) (v : Value)
  /-- An item of an iteration adds these values to the outputs of the iteration. -/
  | collated (item : CpnId) (values : List (Str × Value))
  /-- An item of a loop evaluates the termination conditions. -/
  | tested (item : CpnId) (conditions : List Bool)
  /-- An item schedules the body, which appends these components to the path. -/
  | body (item : CpnId) (cpns : List CpnId)
  /-- An item schedules what follows the iteration or loop. -/
  | left (item : CpnId)
  /-- An `ExitLoop` schedules what follows its loop. -/
  | exited (loop : CpnId)

structure Run (D : Type) where
  before : List CpnId
  past : List CpnId
  batch : List (CpnId × Status)
  queue : List CpnId
  /-- `_idx` of the items. -/
  pos : CpnId → ℤ
  data : D
  /-- `self.error` is set. -/
  failed : Bool
  stopped : Bool
  /-- The latest event first. -/
  log : List Event

/-- `self.path`. -/
def Run.path {D : Type} (r : Run D) : List CpnId :=
  r.before ++ r.past ++ r.batch.map Prod.fst ++ r.queue

/-- The component that is post-processed next. -/
def Run.next {D : Type} (w : Workflow) (r : Run D) : Option Cpn :=
  r.batch.head?.bind (fun x => w.components.get? x.1)

/-- A run that begins with the component `c`, which `Canvas.run` has found or put at the end of the
path. -/
def Run.initial {D : Type} (before : List CpnId) (c : CpnId) (pos : CpnId → ℤ) (data : D) : Run D :=
  { before, past := [], batch := [], queue := [c], pos, data, failed := false, stopped := false,
    log := [] }

/-! ### The batch -/

/-- The test that decides whether a component is popped, given the path before it. -/
def isReady (resuming : Bool) (pathBefore : List CpnId) (cpn : Cpn) : Bool :=
  match cpn.kind with
  | .beginning | .userFillUp => true
  | _ => resuming || cpn.refs.all (pathBefore.contains ·)

/-- The loop of `_run_batch` that makes the tasks; it raises on a component that does not exist. -/
def accept (w : Workflow) (resuming : Bool) : List CpnId → List CpnId → Option (List CpnId)
  | _, [] => some []
  | pathBefore, c :: cs => do
      let cpn ← w.components.get? c
      if isReady resuming pathBefore cpn then
        let rest ← accept w resuming (pathBefore ++ [c]) cs
        pure (c :: rest)
      else accept w resuming pathBefore cs

/-- The number of tasks that run at the same time. -/
def maxConcurrency : ℕ := 5

/-- A task may start: those before it have started, and there is room. -/
def canStart (batch : List (CpnId × Status)) (k : ℕ) : Bool :=
  (batch.take k).all (·.2 ≠ .waiting) && batch.countP (·.2 = .running) < maxConcurrency

/-! ### Invocations -/

/-- Where the cancellation of the task is noticed during an invocation. -/
inductive Canceled where
  | no
  | atStart
  | beforeCollation
  | beforeItem
deriving DecidableEq

/-- `xs[i]`, which raises if there is no such element. -/
def element? (xs : List Value) (i : ℤ) : Option Value :=
  if 0 ≤ i then xs[i.toNat]? else if 0 ≤ xs.length + i then xs[(xs.length + i).toNat]? else none

/-- What `output_collation` appends: for each output that refers to a component of the iteration,
the value it refers to. -/
def collation {D : Type} (w : Workflow) (env : Env D) (data : D) (parent : Cpn) :
    List (Str × Value) :=
  w.components.rows.flatMap (fun x =>
    if x.parentId = some parent.id then
      (parent.outputRefs.filter (·.2.1 = x.id)).map (fun o => (o.1, env.output data x.id o.2.2))
    else [])

/-- The data, the positions and the events of an invocation. -/
structure Outcome (D : Type) where
  data : D
  pos : CpnId → ℤ
  events : List Event

section run
variable {D : Type} (w : Workflow) (env : Env D)

/-- `output_collation`, for an item that is not at its first position. -/
def collated (r : Run D) (item parent : Cpn) : D × List Event :=
  if 0 < r.pos item.id then
    let values := collation w env r.data parent
    (values.foldl (fun d x => env.collect parent.id x.1 x.2 d) r.data, [.collated item.id values])
  else (r.data, [])

/-- `IterationItem._invoke`. -/
def invokeIterationItem (r : Run D) (item parent : Cpn) (canceled : Canceled) : Outcome D :=
  if canceled = .atStart then ⟨env.fail item.id r.data, r.pos, []⟩
  else
    match env.items r.data parent.id with
    | none => ⟨env.fail item.id r.data, Function.update r.pos item.id (-1), []⟩
    | some arr =>
        if 0 < r.pos item.id ∧ canceled = .beforeCollation then
          ⟨env.fail item.id r.data, r.pos, []⟩
        else
          let (data, events) := collated w env r item parent
          if arr.length ≤ r.pos item.id then
            ⟨data, Function.update r.pos item.id (-1), events⟩
          else if canceled = .beforeItem then ⟨env.fail item.id data, r.pos, events⟩
          else
            match element? arr (r.pos item.id) with
            | none => ⟨env.fail item.id data, r.pos, events⟩
            | some v =>
                ⟨env.publish item.id v (r.pos item.id) data,
                  Function.update r.pos item.id (r.pos item.id + 1),
                  .published item.id (r.pos item.id) v :: events⟩

/-- `LoopItem._invoke`. -/
def invokeLoopItem (r : Run D) (item parent : Cpn) (canceled : Canceled) : Outcome D :=
  if canceled = .atStart then ⟨env.fail item.id r.data, r.pos, []⟩
  else if env.maximumLoopCount parent.id ≤ r.pos item.id then
    ⟨r.data, Function.update r.pos item.id (-1), []⟩
  else if 0 < r.pos item.id ∧ canceled = .beforeCollation then
    ⟨env.fail item.id r.data, r.pos, []⟩
  else ⟨r.data, Function.update r.pos item.id (r.pos item.id + 1), []⟩

/-- `invoke`; `result` is what a component that is no item makes of the data. -/
def invoke (r : Run D) (cpn : Cpn) (result : D) (canceled : Canceled) : Outcome D :=
  if isItem cpn then
    match w.getParent cpn with
    | none => ⟨env.fail cpn.id r.data, r.pos, []⟩
    | some parent =>
        if cpn.kind = .iterationItem then invokeIterationItem w env r cpn parent canceled
        else invokeLoopItem env r cpn parent canceled
  else ⟨result, r.pos, []⟩

/-! ### Post-processing -/

/-- `end` of an item: the answer, the positions and the events. -/
def endTest (r : Run D) (cpn : Cpn) : Option (Bool × (CpnId → ℤ) × List Event) :=
  match cpn.kind with
  | .iterationItem => some (r.pos cpn.id = -1, r.pos, [])
  | .loopItem =>
      if r.pos cpn.id = -1 then some (true, r.pos, [])
      else do
        let parent ← w.getParent cpn
        let conditions ← env.conditions r.data parent.id
        let operator ← env.logicalOperator parent.id
        let shouldEnd := operator.combine conditions
        pure (shouldEnd, if shouldEnd then Function.update r.pos cpn.id (-1) else r.pos,
          [.tested cpn.id conditions])
  | _ => some (false, r.pos, [])

/-- The entries that `_extend_path` appends: one that equals the last of the path is left out. -/
def newEntries : Option CpnId → List CpnId → List CpnId
  | _, [] => []
  | last, c :: cs => if last = some c then newEntries last cs else c :: newEntries (some c) cs

/-- What follows an item is the body. -/
def bodyEvents (r : Run D) (cpn : Cpn) (cpns : List CpnId) : List Event :=
  if isItem cpn then [.body cpn.id (newEntries r.path.getLast? cpns)] else []

/-- What follows a component that is no end of an iteration or loop: its successors, or the item of
the iteration or loop if it is the last of the body. -/
def follow (r : Run D) (cpn : Cpn) : Option (List CpnId × List Event) :=
  if cpn.downstream = [] ∧ cpn.parentId.isSome then do
    let parent ← w.getParent cpn
    let start ← w.getStart parent
    pure ([start], bodyEvents r cpn [start])
  else some (cpn.downstream, bodyEvents r cpn cpn.downstream)

/-- The components that are to be appended to the path, and what this means. -/
def targets (r : Run D) (cpn : Cpn) (ended : Bool) : Option (List CpnId × List Event) :=
  if isItem cpn ∧ ended then do
    let parent ← w.getParent cpn
    pure (parent.downstream, [.left cpn.id])
  else
    match cpn.kind with
    | .categorize => some (env.next r.data cpn.id, [])
    | .iteration | .loop => do
        let start ← w.getStart cpn
        pure ([start], [.entered start (env.items r.data cpn.id)])
    | .exitLoop => do
        let parent ← w.getParent cpn
        if parent.kind = .loop then pure (parent.downstream, [.exited parent.id])
        else follow w r cpn
    | _ => follow w r cpn

/-- The data before the post-processing: a message is streamed first, which may run what its parts
are made by; `result` is the data after it. -/
def streamed (r : Run D) (cpn : Cpn) (result : D) : Run D :=
  if cpn.kind = .message then { r with data := result } else r

/-- The exception handler takes over. -/
def branchesOff (r : Run D) (c : CpnId) : Bool := env.error r.data c && !(env.goto c).isEmpty

/-- The end test and the components that are to be appended. -/
structure Aftermath where
  ended : Bool
  pos : CpnId → ℤ
  tested : List Event
  cpns : List CpnId
  events : List Event

def aftermath (r : Run D) (cpn : Cpn) : Option Aftermath := do
  let (ended, pos, tested) ← endTest w env r cpn
  let (cpns, events) ← targets w env r cpn ended
  pure { ended, pos, tested, cpns, events }

/-- The entries that are appended to the path. -/
def additions (r : Run D) (c : CpnId) (cpns : List CpnId) : List CpnId :=
  if branchesOff env r c then env.goto c else newEntries r.path.getLast? cpns

/-- The post-processing of the first component of the batch. -/
def post (r : Run D) (c : CpnId) (rest : List (CpnId × Status)) (result : D) :
    Option (Run D) := do
  let cpn ← w.components.get? c
  let r := streamed r cpn result
  let after ← aftermath w env r cpn
  let queue := r.queue ++ additions env r c after.cpns
  let failed :=
    r.failed || (env.error r.data c && !branchesOff env r c && !env.hasDefault c)
  let fillUp := queue.any (fun c => (w.components.get? c).any (·.kind = .userFillUp))
  pure { r with
    past := r.past ++ [c]
    batch := rest
    queue, failed
    pos := after.pos
    stopped := r.stopped || (rest.isEmpty && (failed || fillUp))
    log := (if branchesOff env r c then after.tested else after.events ++ after.tested) ++ r.log }

/-! ### Steps -/

/-- The run continues one that was waiting for the user. -/
def resuming (r : Run D) : Bool := (r.path.head?).any env.isFillUp

/-- The choices of the event loop. -/
inductive Choice (D : Type) where
  | schedule
  | start (k : ℕ)
  | finish (k : ℕ) (result : D) (canceled : Canceled)
  | post (result : D)

def step (r : Run D) : Choice D → Option (Run D)
  | .schedule =>
      if r.batch = [] ∧ r.queue ≠ [] ∧ r.stopped = false then do
        let accepted ← accept w (resuming env r) (r.before ++ r.past) r.queue
        pure { r with batch := accepted.map (fun c => (c, .waiting)), queue := [] }
      else none
  | .start k =>
      match r.batch[k]? with
      | some (c, .waiting) =>
          if canStart r.batch k then
            some { r with batch := r.batch.set k (c, .running), log := .invoked c :: r.log }
          else none
      | _ => none
  | .finish k result canceled =>
      match r.batch[k]? with
      | some (c, .running) => do
          let cpn ← w.components.get? c
          let outcome := invoke w env r cpn result canceled
          pure { r with
            batch := r.batch.set k (c, .done), data := outcome.data, pos := outcome.pos
            log := outcome.events ++ r.log }
      | _ => none
  | .post result =>
      match r.batch with
      | (c, .done) :: rest => if rest.all (·.2 = .done) then post w env r c rest result else none
      | _ => none

/-- The steps as a transition system. -/
def Steps (r : Run D) (choice : Choice D) (r' : Run D) : Prop := step w env r choice = some r'

/-- The run that takes these choices, if there is one. -/
def trace : Run D → List (Choice D) → Option (List (Choice D × Run D))
  | _, [] => some []
  | r, choice :: choices => do
      let r' ← step w env r choice
      let run ← trace r' choices
      pure ((choice, r') :: run)

/-! ### What a step can do -/

variable {w env} {r r' : Run D} {result : D}

theorem isRun_trace (choices : List (Choice D)) :
    ∀ {r run}, trace w env r choices = some run → Transition.IsRun (Steps w env) r run := by
  induction choices with
  | nil =>
      intro r run h
      cases h
      trivial
  | cons choice choices ih =>
      intro r run h
      obtain ⟨r', hstep, h⟩ := Option.bind_eq_some_iff.mp h
      obtain ⟨rest, hrest, h⟩ := Option.bind_eq_some_iff.mp h
      cases h
      exact ⟨hstep, ih hrest⟩

/-- A run with these choices, of which `p` can be checked. -/
theorem exists_run_of_trace (w : Workflow) (env : Env D) (r : Run D) (choices : List (Choice D))
    {p : List (Choice D × Run D) → Bool} (h : (trace w env r choices).any p) :
    ∃ run, Transition.IsRun (Steps w env) r run ∧ p run := by
  obtain ⟨run, hrun, hp⟩ := (Option.any_eq_true _ _).mp h
  exact ⟨run, isRun_trace choices hrun, hp⟩

theorem step_schedule (h : Steps w env r .schedule r') :
    r.batch = [] ∧ r.queue ≠ [] ∧ ∃ ids,
      accept w (resuming env r) (r.before ++ r.past) r.queue = some ids ∧
      r' = { r with batch := ids.map (fun c => (c, .waiting)), queue := [] } := by
  unfold Steps step at h
  by_cases hr : r.batch = [] ∧ r.queue ≠ [] ∧ r.stopped = false
  · rw [if_pos hr] at h
    obtain ⟨ids, hids, hr'⟩ := Option.bind_eq_some_iff.mp h
    exact ⟨hr.1, hr.2.1, ids, hids, (Option.some.inj hr').symm⟩
  · rw [if_neg hr] at h
    cases h

theorem step_start {k : ℕ} (h : Steps w env r (.start k) r') :
    ∃ c, r.batch[k]? = some (c, .waiting) ∧ canStart r.batch k ∧
      r' = { r with batch := r.batch.set k (c, .running), log := .invoked c :: r.log } := by
  simp only [Steps, step] at h
  split at h
  · rename_i c hc
    split at h
    · exact ⟨c, hc, ‹_›, (Option.some.inj h).symm⟩
    · cases h
  · cases h

theorem step_finish {k : ℕ} {canceled : Canceled}
    (h : Steps w env r (.finish k result canceled) r') :
    ∃ c cpn, r.batch[k]? = some (c, .running) ∧ w.components.get? c = some cpn ∧
      r' = { r with
        batch := r.batch.set k (c, .done)
        data := (invoke w env r cpn result canceled).data
        pos := (invoke w env r cpn result canceled).pos
        log := (invoke w env r cpn result canceled).events ++ r.log } := by
  simp only [Steps, step] at h
  split at h
  · rename_i c hc
    obtain ⟨cpn, hcpn, hr'⟩ := Option.bind_eq_some_iff.mp h
    exact ⟨c, cpn, hc, hcpn, (Option.some.inj hr').symm⟩
  · cases h

/-- What the post-processing of a component leads to. -/
structure Posted (w : Workflow) (env : Env D) (r : Run D) (cpn : Cpn)
    (rest : List (CpnId × Status)) (result : D) (after : Aftermath) (r' : Run D) : Prop where
  after_eq : aftermath w env (streamed r cpn result) cpn = some after
  before_eq : r'.before = r.before
  past_eq : r'.past = r.past ++ [cpn.id]
  batch_eq : r'.batch = rest
  queue_eq : r'.queue = r.queue ++ additions env (streamed r cpn result) cpn.id after.cpns
  pos_eq : r'.pos = after.pos
  log_eq : r'.log =
    (if branchesOff env (streamed r cpn result) cpn.id then after.tested
      else after.events ++ after.tested) ++ r.log

theorem streamed_frame (r : Run D) (cpn : Cpn) (result : D) :
    (streamed r cpn result).before = r.before ∧ (streamed r cpn result).past = r.past ∧
      (streamed r cpn result).batch = r.batch ∧ (streamed r cpn result).queue = r.queue ∧
      (streamed r cpn result).pos = r.pos ∧ (streamed r cpn result).log = r.log := by
  unfold streamed
  split <;> exact ⟨rfl, rfl, rfl, rfl, rfl, rfl⟩

theorem streamed_path (r : Run D) (cpn : Cpn) (result : D) :
    (streamed r cpn result).path = r.path := by
  unfold streamed
  split <;> rfl

theorem next_eq {cpn : Cpn} {s : Status} {rest : List (CpnId × Status)}
    (hbatch : r.batch = (cpn.id, s) :: rest) (hcpn : w.components.get? cpn.id = some cpn) :
    r.next w = some cpn := by
  rw [Run.next, hbatch]
  exact hcpn

theorem step_post (h : Steps w env r (.post result) r') :
    ∃ cpn rest after, r.batch = (cpn.id, .done) :: rest ∧ (∀ x ∈ rest, x.2 = .done) ∧
      w.components.get? cpn.id = some cpn ∧ Posted w env r cpn rest result after r' := by
  simp only [Steps, step] at h
  split at h
  · rename_i c rest hbatch
    split at h
    · rename_i hrest
      obtain ⟨cpn, hcpn, h⟩ := Option.bind_eq_some_iff.mp h
      obtain ⟨after, hafter, hr'⟩ := Option.bind_eq_some_iff.mp h
      have hid : cpn.id = c := (Table.get?_eq_some.mp hcpn).2
      subst hid
      obtain ⟨hbefore, hpast, -, hqueue, -, hlog⟩ := streamed_frame r cpn result
      have hr' := (Option.some.inj hr').symm
      subst hr'
      refine ⟨cpn, rest, after, hbatch, by simpa using hrest, hcpn, ?_⟩
      exact
        { after_eq := hafter
          before_eq := hbefore
          past_eq := by simp only [hpast]
          batch_eq := rfl
          queue_eq := by simp only [hqueue]
          pos_eq := rfl
          log_eq := by simp only [hlog] }
    · cases h
  · cases h

/-- A task in the middle of the batch. -/
theorem set_split {batch : List (CpnId × Status)} {k : ℕ} {x : CpnId × Status}
    (h : batch[k]? = some x) :
    ∃ pre rest, batch = pre ++ x :: rest ∧ ∀ y, batch.set k y = pre ++ y :: rest := by
  obtain ⟨hk, rfl⟩ := List.getElem?_eq_some_iff.mp h
  refine ⟨batch.take k, batch.drop (k + 1), ?_, fun y => ?_⟩
  · rw [← List.drop_eq_getElem_cons hk, List.take_append_drop]
  · exact List.set_eq_take_append_cons_drop.trans (if_pos hk)

/-! ### The events of a step -/

theorem collated_events {item parent : Cpn} {e : Event}
    (h : e ∈ (collated w env r item parent).2) : ∃ values, e = .collated item.id values := by
  unfold collated at h
  split at h
  · exact ⟨_, List.mem_singleton.mp h⟩
  · cases h

theorem invoke_events {cpn : Cpn} {canceled : Canceled} {e : Event}
    (h : e ∈ (invoke w env r cpn result canceled).events) :
    (∃ values, e = .collated cpn.id values) ∨ ∃ i v, e = .published cpn.id i v := by
  unfold invoke at h
  split at h
  · split at h
    · cases h
    · split at h
      · unfold invokeIterationItem at h
        grind [collated_events]
      · unfold invokeLoopItem at h
        grind
  · cases h

theorem invoke_pos {cpn : Cpn} {canceled : Canceled} {c : CpnId} (hc : c ≠ cpn.id) :
    (invoke w env r cpn result canceled).pos c = r.pos c := by
  have hupdate : ∀ x, Function.update r.pos cpn.id x c = r.pos c :=
    fun x => Function.update_of_ne hc x r.pos
  unfold invoke invokeIterationItem invokeLoopItem
  repeat' split
  all_goals first | rfl | exact hupdate _

theorem endTest_spec {cpn : Cpn} {ended : Bool} {pos : CpnId → ℤ} {tested : List Event}
    (h : endTest w env r cpn = some (ended, pos, tested)) :
    (∀ c, c ≠ cpn.id → pos c = r.pos c) ∧
      ∀ e ∈ tested, ∃ conditions, e = .tested cpn.id conditions := by
  unfold endTest at h
  split at h
  · cases h
    exact ⟨fun _ _ => rfl, fun e he => by cases he⟩
  · split at h
    · cases h
      exact ⟨fun _ _ => rfl, fun e he => by cases he⟩
    · obtain ⟨parent, -, h⟩ := Option.bind_eq_some_iff.mp h
      obtain ⟨conditions, -, h⟩ := Option.bind_eq_some_iff.mp h
      obtain ⟨operator, -, h⟩ := Option.bind_eq_some_iff.mp h
      cases h
      refine ⟨?_, fun e he => ⟨conditions, List.mem_singleton.mp he⟩⟩
      intro c hc
      grind [Function.update_apply]
  · cases h
    exact ⟨fun _ _ => rfl, fun e he => by cases he⟩

theorem follow_events {cpn : Cpn} {cpns : List CpnId} {events : List Event}
    (h : follow w r cpn = some (cpns, events)) : events = bodyEvents r cpn cpns := by
  unfold follow at h
  split at h
  · obtain ⟨parent, -, h⟩ := Option.bind_eq_some_iff.mp h
    obtain ⟨start, -, h⟩ := Option.bind_eq_some_iff.mp h
    cases h
    rfl
  · cases h
    rfl

theorem bodyEvents_eq {cpn : Cpn} {cpns : List CpnId} {e : Event} (h : e ∈ bodyEvents r cpn cpns) :
    e = .body cpn.id (newEntries r.path.getLast? cpns) := by
  unfold bodyEvents at h
  split at h
  · exact List.mem_singleton.mp h
  · cases h

/-- The events that tell what is appended to the path. -/
theorem targets_events {cpn : Cpn} {ended : Bool} {cpns : List CpnId} {events : List Event}
    (h : targets w env r cpn ended = some (cpns, events)) :
    ∀ e ∈ events, e = .left cpn.id ∨ (∃ cs, e = .body cpn.id cs) ∨
      (∃ start arr, w.getStart cpn = some start ∧ e = .entered start arr) ∨
      ∃ loop, cpn.kind = .exitLoop ∧ cpn.parentId = some loop ∧ e = .exited loop := by
  intro e he
  unfold targets at h
  split at h
  · obtain ⟨parent, -, h⟩ := Option.bind_eq_some_iff.mp h
    cases h
    exact Or.inl (List.mem_singleton.mp he)
  · split at h
    · cases h
      cases he
    · obtain ⟨start, hstart, h⟩ := Option.bind_eq_some_iff.mp h
      cases h
      exact Or.inr (Or.inr (Or.inl ⟨start, _, hstart, List.mem_singleton.mp he⟩))
    · obtain ⟨start, hstart, h⟩ := Option.bind_eq_some_iff.mp h
      cases h
      exact Or.inr (Or.inr (Or.inl ⟨start, _, hstart, List.mem_singleton.mp he⟩))
    · rename_i hexit
      obtain ⟨parent, hparent, h⟩ := Option.bind_eq_some_iff.mp h
      split at h
      · cases h
        obtain ⟨loop, hloop, hget⟩ := Option.bind_eq_some_iff.mp hparent
        have hid : parent.id = loop := (Table.get?_eq_some.mp hget).2
        rw [hid] at he
        exact Or.inr (Or.inr (Or.inr ⟨loop, hexit, hloop, List.mem_singleton.mp he⟩))
      · rw [follow_events h] at he
        exact Or.inr (Or.inl ⟨_, bodyEvents_eq he⟩)
    · rw [follow_events h] at he
      exact Or.inr (Or.inl ⟨_, bodyEvents_eq he⟩)

theorem aftermath_eq_some {cpn : Cpn} {after : Aftermath} (h : aftermath w env r cpn = some after) :
    endTest w env r cpn = some (after.ended, after.pos, after.tested) ∧
      targets w env r cpn after.ended = some (after.cpns, after.events) := by
  obtain ⟨⟨ended, pos, tested⟩, hend, h⟩ := Option.bind_eq_some_iff.mp h
  obtain ⟨⟨cpns, events⟩, htargets, h⟩ := Option.bind_eq_some_iff.mp h
  cases h
  exact ⟨hend, htargets⟩

end run

end RagFlow.Agent.Flow
