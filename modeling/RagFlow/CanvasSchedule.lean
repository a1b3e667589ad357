import RagFlow.CanvasRun

/-! # The order in which a canvas runs its components

* **Dependencies.** The readiness test looks for the references of a component in the path before
  it, and the path before it includes the components of its own batch, which run at the same time.
  `dependencies_done` says when every component starts after those it refers to: exactly when no
  component of a batch passes the test thanks to one before it in the same batch.
* **Single execution.** `_append_path` compares a component with the last of the path only.
  `invoked_at_most_once` says that a component is run at most once if a component that is already in
  the path is only ever appended again as its last. -/

namespace RagFlow.Agent.Flow

open Py Transition

variable {D : Type}

/-! ### Dependencies -/

/-- When the task `k` of the batch starts, those of the path before it that the inputs of its
component refer to have finished.  What is before the batch has, the path of earlier turns
included: a component that ran in an earlier turn counts as finished. -/
def DependenciesDone (w : Workflow) (batch : List (CpnId × Status)) (k : ℕ) : Prop :=
  ∀ x cpn, batch[k]? = some x → w.components.get? x.1 = some cpn →
    ∀ y ∈ batch.take k, y.1 ∈ cpn.refs → y.2 = .done

def StartsSafely (w : Workflow) (r : Run D) : Choice D → Prop
  | .start k => DependenciesDone w r.batch k
  | _ => True

/-- A task of the batch starts or finishes. -/
def isTask : Choice D → Bool
  | .start _ => true
  | .finish _ _ _ => true
  | _ => false

/-- The steps of one batch, in any order. -/
def BatchSteps (w : Workflow) (env : Env D) (r : Run D) (choice : Choice D) (r' : Run D) : Prop :=
  isTask choice ∧ Steps w env r choice r'

/-- The component would be accepted if it were alone in its batch. -/
def readyAlone (w : Workflow) (resuming : Bool) (pathBefore : List CpnId) (c : CpnId) : Bool :=
  (w.components.get? c).any (isReady resuming pathBefore)

/-- No component that is ready when those before it in the queue are counted refers to one of
them. -/
def NoInnerReference (w : Workflow) (resuming : Bool) (pathBefore queue : List CpnId) : Prop :=
  ∀ pre c post, queue = pre ++ c :: post → ∀ cpn, w.components.get? c = some cpn →
    isReady resuming (pathBefore ++ pre.filter (readyAlone w resuming pathBefore)) cpn →
    ∀ c' ∈ pre.filter (readyAlone w resuming pathBefore), c' ∉ cpn.refs

/-- The batches that are scheduled have no references within them. -/
def SchedulesSafely (w : Workflow) (env : Env D) (r : Run D) : Choice D → Prop
  | .schedule => NoInnerReference w (resuming env r) (r.before ++ r.past) r.queue
  | _ => True

/-! ### The components that are accepted -/

/-- The component `c` does not refer to `c'`. -/
def Independent (w : Workflow) (c' c : CpnId) : Prop :=
  ∀ cpn, w.components.get? c = some cpn → c' ∉ cpn.refs

section accept
variable {w : Workflow} {resuming : Bool}

theorem isReady_append {P Q : List CpnId} {cpn : Cpn} (h : isReady resuming P cpn) :
    isReady resuming (P ++ Q) cpn := by
  unfold isReady at h ⊢
  split at h
  · rfl
  · rfl
  · simp only [Bool.or_eq_true, List.all_eq_true, List.contains_iff_mem] at h ⊢
    exact h.imp_right (fun hrefs c hc => List.mem_append_left _ (hrefs c hc))

theorem isReady_of_append {P Q : List CpnId} {cpn : Cpn} (h : isReady resuming (P ++ Q) cpn)
    (hQ : ∀ c ∈ Q, c ∉ cpn.refs) : isReady resuming P cpn := by
  unfold isReady at h ⊢
  split at h
  · rfl
  · rfl
  · simp only [Bool.or_eq_true, List.all_eq_true, List.contains_iff_mem] at h ⊢
    refine h.imp_right (fun hrefs c hc => ?_)
    exact (List.mem_append.mp (hrefs c hc)).resolve_right (fun hcQ => hQ c hcQ hc)

theorem accept_sublist {cs : List CpnId} :
    ∀ {P ids}, accept w resuming P cs = some ids → List.Sublist ids cs := by
  induction cs with
  | nil =>
      intro P ids h
      cases h
      exact List.Sublist.refl _
  | cons c cs ih =>
      intro P ids h
      obtain ⟨cpn, -, h⟩ := Option.bind_eq_some_iff.mp h
      split at h
      · obtain ⟨rest, hrest, h⟩ := Option.bind_eq_some_iff.mp h
        cases h
        exact (ih hrest).cons_cons c
      · exact (ih h).cons c

theorem accept_exists {cs : List CpnId} :
    ∀ {P ids}, accept w resuming P cs = some ids →
      ∀ c ∈ ids, ∃ cpn, w.components.get? c = some cpn := by
  induction cs with
  | nil =>
      intro P ids h c hc
      cases h
      cases hc
  | cons c cs ih =>
      intro P ids h x hx
      obtain ⟨cpn, hcpn, h⟩ := Option.bind_eq_some_iff.mp h
      split at h
      · obtain ⟨rest, hrest, h⟩ := Option.bind_eq_some_iff.mp h
        cases h
        rcases List.mem_cons.mp hx with rfl | hx
        · exact ⟨cpn, hcpn⟩
        · exact ih hrest x hx
      · exact ih h x hx

/-- What holds of every place of a list holds of the first and of every place of the rest. -/
theorem forall_split_cons {α : Type} {x : α} {xs : List α} {Q : List α → α → Prop} :
    (∀ pre y post, x :: xs = pre ++ y :: post → Q pre y) ↔
      Q [] x ∧ ∀ pre y post, xs = pre ++ y :: post → Q (x :: pre) y := by
  constructor
  · intro h
    refine ⟨h [] x xs rfl, fun pre y post hxs => h (x :: pre) y post ?_⟩
    rw [hxs, List.cons_append]
  · rintro ⟨hfirst, hrest⟩ pre y post hxs
    cases pre with
    | nil =>
        cases hxs
        exact hfirst
    | cons z pre =>
        obtain ⟨rfl, htail⟩ := List.cons.inj hxs
        exact hrest pre y post htail

/-- The accepted components are independent of each other and of those accepted before them exactly
when there is no reference within the queue.  The list `acc` is what has been accepted so far. -/
theorem accept_independent_iff (P : List CpnId) (cs : List CpnId) :
    ∀ acc ids, accept w resuming (P ++ acc) cs = some ids →
      (((∀ a ∈ acc, ∀ c ∈ ids, Independent w a c) ∧ ids.Pairwise (Independent w)) ↔
        ∀ pre c post, cs = pre ++ c :: post → ∀ cpn, w.components.get? c = some cpn →
          isReady resuming (P ++ (acc ++ pre.filter (readyAlone w resuming P))) cpn →
          ∀ c' ∈ acc ++ pre.filter (readyAlone w resuming P), c' ∉ cpn.refs) := by
  induction cs with
  | nil =>
      intro acc ids h
      cases h
      refine iff_of_true ⟨?_, List.Pairwise.nil⟩ ?_
      · intro a _ c hc
        cases hc
      · intro pre c post hnil
        simp at hnil
  | cons c cs ih =>
      intro acc ids h
      obtain ⟨cpn, hcpn, h⟩ := Option.bind_eq_some_iff.mp h
      have hone : ∀ a, Independent w a c ↔ a ∉ cpn.refs := by
        intro a
        refine ⟨fun h => h cpn hcpn, fun h cpn' hcpn' => ?_⟩
        rw [hcpn] at hcpn'
        cases hcpn'
        exact h
      have halone : readyAlone w resuming P c = isReady resuming P cpn := by
        simp [readyAlone, hcpn]
      rw [forall_split_cons]
      by_cases hready : isReady resuming (P ++ acc) cpn
      · rw [if_pos hready] at h
        obtain ⟨rest, hrest, h⟩ := Option.bind_eq_some_iff.mp h
        cases h
        have hleft : ((∀ a ∈ acc, ∀ x ∈ c :: rest, Independent w a x) ∧
            (c :: rest).Pairwise (Independent w)) ↔ (∀ a ∈ acc, a ∉ cpn.refs) ∧
              (∀ a ∈ acc ++ [c], ∀ x ∈ rest, Independent w a x) ∧
              rest.Pairwise (Independent w) := by
          simp only [List.mem_append, List.mem_cons, List.pairwise_cons, ← hone]
          grind
        rw [hleft]
        refine Iff.trans (and_congr_right (fun hhead => ?_)) (and_congr_left (fun _ => ?_))
        · -- Nothing accepted so far is referred to, so `c` is ready without it.
          have hc : readyAlone w resuming P c := by
            rw [halone]
            exact isReady_of_append hready hhead
          rw [ih (acc ++ [c]) rest (by rw [← List.append_assoc]; exact hrest)]
          simp only [List.filter_cons, hc, if_true, List.append_assoc, List.singleton_append]
        · simp [hcpn, hready]
      · rw [if_neg hready] at h
        have hc : readyAlone w resuming P c = false := by
          rw [halone]
          exact Bool.eq_false_iff.mpr (fun h => hready (isReady_append h))
        rw [ih acc ids h]
        simp [hcpn, hready, hc]

theorem accept_pairwise_iff {P queue ids : List CpnId}
    (h : accept w resuming P queue = some ids) :
    ids.Pairwise (Independent w) ↔ NoInnerReference w resuming P queue := by
  have := accept_independent_iff P queue [] ids (by rw [List.append_nil]; exact h)
  simpa [NoInnerReference] using this

end accept

/-! ### Batches without references are safe -/

theorem map_fst_set {batch : List (CpnId × Status)} {k : ℕ} {c : CpnId} {s : Status}
    (h : batch[k]? = some (c, s)) (s' : Status) :
    (batch.set k (c, s')).map Prod.fst = batch.map Prod.fst := by
  obtain ⟨pre, rest, hbatch, hset⟩ := set_split h
  rw [hset, hbatch]
  simp

section runs
variable {w : Workflow} {env : Env D} {r r' : Run D}

/-- The components of the batch are independent. -/
def IndependentBatch (w : Workflow) (r : Run D) : Prop :=
  (r.batch.map Prod.fst).Pairwise (Independent w)

theorem dependenciesDone_of_independent {batch : List (CpnId × Status)}
    (h : (batch.map Prod.fst).Pairwise (Independent w)) (k : ℕ) : DependenciesDone w batch k := by
  intro x cpn hx hcpn y hy href
  rw [List.pairwise_map, List.pairwise_iff_getElem] at h
  obtain ⟨i, hi, rfl⟩ := List.mem_take_iff_getElem.mp hy
  obtain ⟨hk, rfl⟩ := List.getElem?_eq_some_iff.mp hx
  exact absurd href (h i k (by omega) hk (by omega) cpn hcpn)

/-- One step: the components of the batch stay independent, and tasks start safely. -/
theorem independentBatch_step {choice : Choice D} (h : IndependentBatch w r)
    (hsafe : SchedulesSafely w env r choice) (hstep : Steps w env r choice r') :
    IndependentBatch w r' ∧ StartsSafely w r choice := by
  cases choice with
  | schedule =>
      obtain ⟨-, -, ids, hids, rfl⟩ := step_schedule hstep
      refine ⟨?_, trivial⟩
      have hpair := (accept_pairwise_iff hids).mpr hsafe
      simpa [IndependentBatch, Function.comp_def] using hpair
  | start k =>
      obtain ⟨c, hc, -, rfl⟩ := step_start hstep
      refine ⟨?_, dependenciesDone_of_independent h k⟩
      show ((r.batch.set k (c, .running)).map Prod.fst).Pairwise (Independent w)
      rw [map_fst_set hc]
      exact h
  | finish k result canceled =>
      obtain ⟨c, cpn, hc, -, rfl⟩ := step_finish hstep
      refine ⟨?_, trivial⟩
      show ((r.batch.set k (c, .done)).map Prod.fst).Pairwise (Independent w)
      rw [map_fst_set hc]
      exact h
  | post result =>
      obtain ⟨cpn, rest, after, hbatch, -, -, hposted⟩ := step_post hstep
      refine ⟨?_, trivial⟩
      unfold IndependentBatch at h ⊢
      rw [hbatch, List.map_cons] at h
      rw [hposted.batch_eq]
      exact h.of_cons

theorem run_startsSafely {run : List (Choice D × Run D)} (h : IndependentBatch w r)
    (hrun : IsRun (Steps w env) r run) (hsafe : AllSteps (SchedulesSafely w env) r run) :
    AllSteps (StartsSafely w) r run :=
  allSteps_of_steps (IndependentBatch w) independentBatch_step run h hrun hsafe

/-! ### A run that starts a task too early -/

/-- Tasks with the same status. -/
def tasks (s : Status) (cs : List CpnId) : List (CpnId × Status) := cs.map (fun c => (c, s))

theorem tasks_status {s : Status} {cs : List CpnId} {x : CpnId × Status} (h : x ∈ tasks s cs) :
    x.2 = s := by
  obtain ⟨c, -, rfl⟩ := List.mem_map.mp h
  rfl

theorem countP_tasks {s : Status} (hs : s ≠ .running) (cs : List CpnId) :
    (tasks s cs).countP (·.2 = .running) = 0 := by
  rw [List.countP_eq_zero]
  intro x hx
  simp [tasks_status hx, hs]

variable (w env)

theorem start_task {xs : List (CpnId × Status)} {c : CpnId} {cs : List CpnId}
    (hbatch : r.batch = xs ++ tasks .waiting (c :: cs)) (hxs : ∀ x ∈ xs, x.2 ≠ .waiting)
    (hroom : xs.countP (·.2 = .running) < maxConcurrency) :
    ∃ r', BatchSteps w env r (.start xs.length) r' ∧
      r'.batch = xs ++ (c, .running) :: tasks .waiting cs := by
  refine ⟨{ r with
    batch := xs ++ (c, .running) :: tasks .waiting cs, log := .invoked c :: r.log },
    ⟨rfl, ?_⟩, rfl⟩
  have hget : r.batch[xs.length]? = some (c, .waiting) := by simp [hbatch, tasks]
  have hstart : canStart r.batch xs.length := by
    have hwaiting := countP_tasks (s := .waiting) (by decide) (c :: cs)
    simp only [canStart, hbatch, List.take_left, Bool.and_eq_true, List.all_eq_true,
      decide_eq_true_eq, List.countP_append, hwaiting]
    exact ⟨hxs, hroom⟩
  have hset : r.batch.set xs.length (c, .running) = xs ++ (c, .running) :: tasks .waiting cs := by
    simp [hbatch, tasks]
  simp only [Steps, step, hget, hstart, hset, if_true]

theorem finish_task {xs ys : List (CpnId × Status)} {c : CpnId} {cpn : Cpn}
    (hbatch : r.batch = xs ++ (c, .running) :: ys) (hcpn : w.components.get? c = some cpn) :
    ∃ r', BatchSteps w env r (.finish xs.length r.data .no) r' ∧
      r'.batch = xs ++ (c, .done) :: ys := by
  have hget : r.batch[xs.length]? = some (c, .running) := by simp [hbatch]
  have hset : r.batch.set xs.length (c, .done) = xs ++ (c, .done) :: ys := by
    simp [hbatch]
  let outcome := invoke w env r cpn r.data .no
  refine ⟨{ r with
    batch := xs ++ (c, .done) :: ys, data := outcome.data, pos := outcome.pos
    log := outcome.events ++ r.log }, ⟨rfl, ?_⟩, rfl⟩
  simp only [Steps, step, hget, hset, hcpn]
  rfl

/-- The tasks `cs` can be started and finished one after the other. -/
theorem exists_run_done (cs : List CpnId) :
    ∀ (r : Run D) (xs : List (CpnId × Status)) (ys : List CpnId),
      r.batch = xs ++ tasks .waiting (cs ++ ys) → (∀ x ∈ xs, x.2 ≠ .waiting) →
      xs.countP (·.2 = .running) < maxConcurrency →
      (∀ c ∈ cs, ∃ cpn, w.components.get? c = some cpn) →
      ∃ run, IsRun (BatchSteps w env) r run ∧
        (last r run).batch = xs ++ tasks .done cs ++ tasks .waiting ys := by
  induction cs with
  | nil =>
      intro r xs ys hbatch _ _ _
      exact ⟨[], trivial, by simpa [last, tasks] using hbatch⟩
  | cons c cs ih =>
      intro r xs ys hbatch hxs hroom hcs
      obtain ⟨cpn, hcpn⟩ := hcs c List.mem_cons_self
      obtain ⟨r₁, hstart, hbatch₁⟩ := start_task w env hbatch hxs hroom
      obtain ⟨r₂, hfinish, hbatch₂⟩ := finish_task w env hbatch₁ hcpn
      have hxs' : ∀ x ∈ xs ++ [(c, Status.done)], x.2 ≠ .waiting := by
        intro x hx
        rcases List.mem_append.mp hx with hx | hx
        · exact hxs x hx
        · simp [List.mem_singleton.mp hx]
      obtain ⟨run, hrun, hlast⟩ := ih r₂ (xs ++ [(c, .done)]) ys (by simp [hbatch₂]) hxs'
        (by simpa [List.countP_append] using hroom)
        (fun x hx => hcs x (List.mem_cons_of_mem _ hx))
      refine ⟨(_, r₁) :: (_, r₂) :: run, ⟨hstart, hfinish, hrun⟩, ?_⟩
      simpa [last, tasks] using hlast

/-- The interleaving in which `a` is still running when `b` starts. -/
theorem exists_early_start {a b : CpnId} (pre mid post : List CpnId) {cpn : Cpn}
    (hbatch : r.batch = tasks .waiting (pre ++ a :: (mid ++ b :: post)))
    (hexists : ∀ c ∈ pre ++ mid, ∃ cpn, w.components.get? c = some cpn)
    (hcpn : w.components.get? b = some cpn) (href : a ∈ cpn.refs) :
    ∃ run, IsRun (BatchSteps w env) r run ∧ ¬ AllSteps (StartsSafely w) r run := by
  obtain ⟨run₁, hrun₁, hlast₁⟩ := exists_run_done w env pre r [] (a :: (mid ++ b :: post))
    (by simpa using hbatch) (by simp) (by decide)
    (fun c hc => hexists c (List.mem_append_left _ hc))
  have hpre : ∀ x ∈ tasks .done pre, x.2 ≠ .waiting := fun x hx => by simp [tasks_status hx]
  have hpre0 := countP_tasks (s := .done) (by decide) pre
  obtain ⟨r₂, hstart, hbatch₂⟩ := start_task w env hlast₁ (by simpa using hpre)
    (by simp [hpre0, maxConcurrency])
  obtain ⟨run₃, hrun₃, hlast₃⟩ := exists_run_done w env mid r₂ (tasks .done pre ++ [(a, .running)])
    (b :: post) (by simpa using hbatch₂) (by simpa [or_imp, forall_and] using hpre)
    (by simp [List.countP_append, hpre0, maxConcurrency])
    (fun c hc => hexists c (List.mem_append_right _ hc))
  -- `b` is the next to start, and `a` is running.
  have hmid : ∀ x ∈ tasks .done pre ++ [(a, Status.running)] ++ tasks .done mid,
      x.2 ≠ .waiting := by
    intro x hx
    simp only [List.mem_append, List.mem_singleton] at hx
    rcases hx with (hx | hx) | hx
    · exact hpre x hx
    · simp [hx]
    · simp [tasks_status hx]
  have hmid0 := countP_tasks (s := .done) (by decide) mid
  obtain ⟨r₄, hstart', -⟩ := start_task w env hlast₃ hmid
    (by simp [List.countP_append, hpre0, hmid0, maxConcurrency])
  have hrun := (isRun_append run₃ [(_, _)] r₂).mpr ⟨hrun₃, hstart', trivial⟩
  refine ⟨_, (isRun_append run₁ ((_, _) :: _) r).mpr ⟨hrun₁, hstart, hrun⟩, ?_⟩
  rw [allSteps_append]
  rintro ⟨-, -, hsteps⟩
  rw [allSteps_append] at hsteps
  have hdone := hsteps.2.1 (b, .waiting) cpn (by rw [hlast₃]; simp [tasks]) hcpn (a, .running)
    (by rw [hlast₃, List.take_left]; simp) href
  cases hdone

/-- Where every interleaving of a batch is safe, its components are independent. -/
theorem independent_of_safe {ids : List CpnId} (hbatch : r.batch = tasks .waiting ids)
    (hexists : ∀ c ∈ ids, ∃ cpn, w.components.get? c = some cpn)
    (hsafe : ∀ run, IsRun (BatchSteps w env) r run → AllSteps (StartsSafely w) r run) :
    ids.Pairwise (Independent w) := by
  rw [List.pairwise_iff_forall_sublist]
  intro a b hab cpn hcpn href
  obtain ⟨front, back, rfl, ha, hb⟩ := List.cons_sublist_iff.mp hab
  obtain ⟨pre, mid₁, rfl⟩ := List.append_of_mem ha
  obtain ⟨mid₂, post, rfl⟩ := List.append_of_mem (List.singleton_sublist.mp hb)
  obtain ⟨run, hrun, hnot⟩ := exists_early_start w env pre (mid₁ ++ mid₂) post
    (by rw [hbatch]; simp) (fun c hc => hexists c (by grind)) hcpn href
  exact hnot (hsafe run hrun)

end runs

theorem safe_of_isTask {w : Workflow} {env : Env D} {r : Run D} {choice : Choice D}
    (h : isTask choice) : SchedulesSafely w env r choice := by
  cases choice with
  | schedule => cases h
  | start k => trivial
  | finish k result canceled => trivial
  | post result => trivial

/-- In a run whose batches have no references within them, a component starts after those it refers
to; and a batch is safe under every interleaving of its tasks only if it has none. -/
theorem dependencies_done (w : Workflow) (env : Env D) :
    (∀ before c pos data run, IsRun (Steps w env) (Run.initial before c pos data) run →
      AllSteps (SchedulesSafely w env) (Run.initial before c pos data) run →
      AllSteps (StartsSafely w) (Run.initial before c pos data) run) ∧
    ∀ r r₁, Steps w env r .schedule r₁ →
      ((∀ run, IsRun (BatchSteps w env) r₁ run → AllSteps (StartsSafely w) r₁ run) ↔
        NoInnerReference w (resuming env r) (r.before ++ r.past) r.queue) := by
  refine ⟨?_, ?_⟩
  · intro before c pos data run hrun hsafe
    exact run_startsSafely List.Pairwise.nil hrun hsafe
  · intro r r₁ hstep
    obtain ⟨-, -, ids, hids, rfl⟩ := step_schedule hstep
    rw [← accept_pairwise_iff hids]
    constructor
    · exact independent_of_safe w env rfl (accept_exists hids)
    · intro hpair run hrun
      obtain ⟨hrun, hsafe⟩ :=
        isRun_mono (Steps w env) (C := SchedulesSafely w env) (fun h => ⟨h.2, safe_of_isTask h.1⟩)
          run hrun
      refine run_startsSafely ?_ hrun hsafe
      simpa [IndependentBatch, Function.comp_def] using hpair

/-! ### A component that refers to another of its batch -/

/-- Components without data, of which none fails. -/
def bareEnv : Env Unit where
  isFillUp := fun _ => false
  error := fun _ _ => false
  goto := fun _ => []
  hasDefault := fun _ => false
  fail := fun _ d => d
  next := fun _ _ => []
  items := fun _ _ => none
  publish := fun _ _ _ d => d
  output := fun _ _ _ => .none
  collect := fun _ _ _ d => d
  maximumLoopCount := fun _ => 0
  conditions := fun _ _ => none
  logicalOperator := fun _ => none

/-- A retrieval and an agent that uses its result; `first` is what follows the beginning. -/
def retrieval (first : List CpnId) : Workflow where
  components := ⟨[
    { id := ['b', 'e', 'g', 'i', 'n'], kind := .beginning, downstream := first },
    { id := ['r'], kind := .other, downstream := [['a']] },
    { id := ['a'], kind := .other, downstream := [], refs := [['r']] }],
    by simp⟩

def bareStart : Run Unit := Run.initial [] ['b', 'e', 'g', 'i', 'n'] (fun _ => 0) ()

/-- The choices that bring a run to the batch after the beginning. -/
def afterBegin : List (Choice Unit) := [.schedule, .start 0, .finish 0 () .no, .post (), .schedule]

theorem noInnerReference_singleton {w : Workflow} {resuming : Bool} {P : List CpnId} {c : CpnId} :
    NoInnerReference w resuming P [c] := by
  intro pre x post h
  cases pre with
  | nil =>
      intro cpn _ _ c' hc'
      cases hc'
  | cons y pre => simp at h

theorem dependencies_done_in_order :
    AllSteps (StartsSafely (retrieval [['r']])) bareStart
      ((trace (retrieval [['r']]) bareEnv bareStart
        (afterBegin ++ [.start 0, .finish 0 () .no, .post (), .schedule, .start 0])).getD []) := by
  refine (dependencies_done (retrieval [['r']]) bareEnv).1 _ _ _ _ _
    (isRun_trace (afterBegin ++
      [.start 0, .finish 0 () .no, .post (), .schedule, .start 0]) rfl) ?_
  refine ⟨noInnerReference_singleton, trivial, trivial, trivial, noInnerReference_singleton, ?_⟩
  exact ⟨trivial, trivial, trivial, noInnerReference_singleton, trivial, trivial⟩

/-- The agent is also reached from the beginning: it starts while the retrieval is running. -/
theorem agent_starts_early :
    ¬ ∀ (w : Workflow) (env : Env Unit) before c pos data run,
      IsRun (Steps w env) (Run.initial before c pos data) run →
      AllSteps (StartsSafely w) (Run.initial before c pos data) run := by
  intro h
  obtain ⟨-, -, -, -, -, -, h, -⟩ :=
    h (retrieval [['r'], ['a']]) bareEnv [] ['b', 'e', 'g', 'i', 'n'] (fun _ => 0) ()
      _ (isRun_trace (afterBegin ++ [.start 0, .start 1]) rfl)
  have hdone := h (['a'], .waiting) _ rfl rfl (['r'], .running)
    List.mem_cons_self List.mem_cons_self
  cases hdone

/-! ### Single execution -/

def Event.invocation? : Event → Option CpnId
  | .invoked c => some c
  | _ => none

/-- The components that have been invoked. -/
def invocations (log : List Event) : List CpnId := log.filterMap Event.invocation?

/-- The workflows without iterations, loops, user input, exception branches and failures whose
edges have no cycle. -/
structure Plain (w : Workflow) (env : Env D) : Prop where
  kinds : ∀ cpn ∈ w.components, cpn.kind ∈ [.beginning, .categorize, .message, .other]
  top : ∀ cpn ∈ w.components, cpn.parentId = none
  goto : ∀ c, env.goto c = []
  error : ∀ d c, env.error d c = false
  acyclic : ∃ rank : CpnId → ℕ, ∀ cpn ∈ w.components,
    (∀ c ∈ cpn.downstream, rank cpn.id < rank c) ∧
      ∀ d, ∀ c ∈ env.next d cpn.id, rank cpn.id < rank c

/-- What a component of such a workflow appends: the branch that was chosen, or all successors. -/
def successors (env : Env D) (data : D) (cpn : Cpn) : List CpnId :=
  if cpn.kind = .categorize then env.next data cpn.id else cpn.downstream

/-- The path of this run. -/
def Run.current (r : Run D) : List CpnId := r.past ++ r.batch.map Prod.fst ++ r.queue

/-- Those of the components that are in the path already are its last when they are appended. -/
def AppendsOnce : List CpnId → List CpnId → Prop
  | _, [] => True
  | path, c :: cs =>
      (c ∈ path → path.getLast? = some c) ∧
        AppendsOnce (if path.getLast? = some c then path else path ++ [c]) cs

instance AppendsOnce.decidable : ∀ path cs, Decidable (AppendsOnce path cs)
  | _, [] => isTrue trivial
  | path, c :: cs =>
      have := AppendsOnce.decidable (if path.getLast? = some c then path else path ++ [c]) cs
      inferInstanceAs (Decidable ((c ∈ path → path.getLast? = some c) ∧
        AppendsOnce (if path.getLast? = some c then path else path ++ [c]) cs))

/-- A component that is post-processed appends only components that this run has not reached, the
last of the path apart. -/
def OnceStep (w : Workflow) (env : Env D) (r : Run D) : Choice D → Prop
  | .post _ => ∀ cpn ∈ r.next w, AppendsOnce r.current (successors env r.data cpn)
  | _ => True

instance OnceStep.decidable (w : Workflow) (env : Env D) (r : Run D) :
    ∀ choice, Decidable (OnceStep w env r choice)
  | .post _ => inferInstanceAs
      (Decidable (∀ cpn ∈ r.next w, AppendsOnce r.current (successors env r.data cpn)))
  | .schedule => isTrue trivial
  | .start _ => isTrue trivial
  | .finish _ _ _ => isTrue trivial

theorem nodup_newEntries (cs : List CpnId) :
    ∀ {path : List CpnId}, path.Nodup → AppendsOnce path cs →
      (path ++ newEntries path.getLast? cs).Nodup := by
  induction cs with
  | nil =>
      intro path hpath _
      simpa [newEntries] using hpath
  | cons c cs ih =>
      intro path hpath hcs
      obtain ⟨hc, hcs⟩ := hcs
      unfold newEntries
      by_cases hlast : path.getLast? = some c
      · rw [if_pos hlast] at hcs ⊢
        exact ih hpath hcs
      · rw [if_neg hlast] at hcs ⊢
        have hnew : c ∉ path := fun hmem => hlast (hc hmem)
        have hpath' : (path ++ [c]).Nodup := by
          rw [List.nodup_append]
          refine ⟨hpath, List.nodup_singleton c, ?_⟩
          rintro a ha b hb rfl
          exact hnew (List.mem_singleton.mp hb ▸ ha)
        have hall := ih hpath' hcs
        rw [List.getLast?_concat] at hall
        simpa using hall

/-- The tasks that have been started. -/
def started (batch : List (CpnId × Status)) : List CpnId :=
  (batch.filter (·.2 ≠ .waiting)).map Prod.fst

theorem started_append (xs ys : List (CpnId × Status)) :
    started (xs ++ ys) = started xs ++ started ys := by
  simp [started]

theorem started_cons (c : CpnId) (s : Status) (xs : List (CpnId × Status)) :
    started ((c, s) :: xs) = if s = .waiting then started xs else c :: started xs := by
  cases s <;> simp [started]

theorem started_waiting (cs : List CpnId) : started (tasks .waiting cs) = [] := by
  rw [started, List.filter_eq_nil_iff.mpr, List.map_nil]
  intro x hx
  simp [tasks_status hx]

/-- The components that have been started. -/
def Run.begun (r : Run D) : List CpnId := r.past ++ started r.batch

/-- Each component is at most once in the path, and it has been invoked if it has been started. -/
structure Once (r : Run D) : Prop where
  nodup : r.current.Nodup
  invoked : (invocations r.log).Perm r.begun

section once
variable {w : Workflow} {env : Env D} {r r' : Run D}

theorem Once.nodup_invocations (h : Once r) : (invocations r.log).Nodup := by
  have hsub : List.Sublist r.begun r.current := by
    unfold Run.begun Run.current
    rw [List.append_assoc]
    refine List.Sublist.append (List.Sublist.refl _) ?_
    exact (List.filter_sublist.map Prod.fst).trans (List.sublist_append_left _ _)
  exact h.invoked.nodup_iff.mpr (hsub.nodup h.nodup)

theorem invocations_append {events log : List Event}
    (h : ∀ e ∈ events, e.invocation? = none) : invocations (events ++ log) = invocations log := by
  unfold invocations
  rw [List.filterMap_append, List.filterMap_eq_nil_iff.mpr h, List.nil_append]

theorem Plain.targets_eq (hplain : Plain w env) {cpn : Cpn} (hcpn : cpn ∈ w.components)
    {ended : Bool} {cpns : List CpnId} {events : List Event} {result : D}
    (h : targets w env (streamed r cpn result) cpn ended = some (cpns, events)) :
    cpns = successors env r.data cpn := by
  have hkind := hplain.kinds cpn hcpn
  have hfollow : ∀ r : Run D, follow w r cpn =
      some (cpn.downstream, bodyEvents r cpn cpn.downstream) := by
    intro r
    simp [follow, hplain.top cpn hcpn]
  unfold targets at h
  unfold successors
  simp only [List.mem_cons, List.not_mem_nil, or_false] at hkind
  rcases hkind with hkind | hkind | hkind | hkind
  all_goals simp [isItem, hkind, hfollow, streamed] at h ⊢
  all_goals exact h.1.symm

theorem Plain.additions_eq (hplain : Plain w env) (r : Run D) (c : CpnId) (cpns : List CpnId) :
    additions env r c cpns = newEntries r.path.getLast? cpns := by
  simp [additions, branchesOff, hplain.error]

theorem getLast?_path (h : r.current ≠ []) : r.path.getLast? = r.current.getLast? := by
  have hpath : r.path = r.before ++ r.current := by simp [Run.path, Run.current]
  rw [hpath]
  exact List.getLast?_append_of_ne_nil _ h

theorem not_invocation_invoke {cpn : Cpn} {result : D} {canceled : Canceled} {e : Event}
    (he : e ∈ (invoke w env r cpn result canceled).events) : e.invocation? = none := by
  rcases invoke_events he with ⟨values, rfl⟩ | ⟨i, v, rfl⟩
  · rfl
  · rfl

theorem not_invocation_post {cpn : Cpn} {rest : List (CpnId × Status)} {result : D}
    {after : Aftermath} (h : Posted w env r cpn rest result after r') {e : Event}
    (he : e ∈ if branchesOff env (streamed r cpn result) cpn.id then after.tested
      else after.events ++ after.tested) : e.invocation? = none := by
  obtain ⟨hend, htargets⟩ := aftermath_eq_some h.after_eq
  have hmem : e ∈ after.events ++ after.tested := by
    split at he
    · exact List.mem_append_right _ he
    · exact he
  rcases List.mem_append.mp hmem with he | he
  · rcases targets_events htargets e he with
      rfl | ⟨cs, rfl⟩ | ⟨start, arr, -, rfl⟩ | ⟨loop, -, -, rfl⟩ <;> rfl
  · obtain ⟨conditions, rfl⟩ := (endTest_spec hend).2 e he
    rfl

/-- One step: a component is at most once in the path. -/
theorem once_step (hplain : Plain w env) {choice : Choice D} (h : Once r)
    (honce : OnceStep w env r choice) (hstep : Steps w env r choice r') : Once r' := by
  cases choice with
  | schedule =>
      obtain ⟨hbatch, -, ids, hids, rfl⟩ := step_schedule hstep
      obtain ⟨hnodup, hinvoked⟩ := h
      refine ⟨?_, ?_⟩
      · refine List.Sublist.nodup ?_ hnodup
        have hids' := accept_sublist hids
        simpa [Run.current, hbatch, Function.comp_def] using hids'
      · rw [Run.begun, hbatch] at hinvoked
        show (invocations r.log).Perm (r.past ++ started (tasks .waiting ids))
        rw [started_waiting]
        exact hinvoked
  | start k =>
      obtain ⟨c, hc, -, rfl⟩ := step_start hstep
      obtain ⟨pre, rest, hbatch, hset⟩ := set_split hc
      obtain ⟨hnodup, hinvoked⟩ := h
      refine ⟨?_, ?_⟩
      · simpa [Run.current, map_fst_set hc] using hnodup
      · show (c :: invocations r.log).Perm (r.past ++ started (r.batch.set k (c, .running)))
        rw [Run.begun, hbatch, started_append, started_cons, if_pos rfl] at hinvoked
        rw [hset, started_append, started_cons, if_neg (by decide), ← List.append_assoc]
        refine (hinvoked.cons c).trans ?_
        rw [← List.append_assoc]
        exact List.perm_middle.symm
  | finish k result canceled =>
      obtain ⟨c, cpn, hc, hcpn, rfl⟩ := step_finish hstep
      obtain ⟨pre, rest, hbatch, hset⟩ := set_split hc
      obtain ⟨hnodup, hinvoked⟩ := h
      refine ⟨?_, ?_⟩
      · simpa [Run.current, map_fst_set hc] using hnodup
      · show (invocations (_ ++ r.log)).Perm (r.past ++ started (r.batch.set k (c, .done)))
        rw [invocations_append (fun e he => not_invocation_invoke he), hset, started_append,
          started_cons, if_neg (by decide)]
        rw [Run.begun, hbatch, started_append, started_cons, if_neg (by decide)] at hinvoked
        exact hinvoked
  | post result =>
      obtain ⟨cpn, rest, after, hbatch, -, hcpn, hposted⟩ := step_post hstep
      obtain ⟨hnodup, hinvoked⟩ := h
      refine ⟨?_, ?_⟩
      · have hne : r.current ≠ [] := by simp [Run.current, hbatch]
        have hcpns := hplain.targets_eq (Table.get?_eq_some.mp hcpn).1
          (aftermath_eq_some hposted.after_eq).2
        have hall := nodup_newEntries _ hnodup (honce cpn (next_eq hbatch hcpn))
        rw [← getLast?_path hne, ← streamed_path r cpn result, ← hcpns,
          ← hplain.additions_eq _ cpn.id] at hall
        rw [Run.current, hposted.past_eq, hposted.batch_eq, hposted.queue_eq]
        rw [Run.current, hbatch] at hall
        simpa using hall
      · rw [hposted.log_eq, invocations_append (fun e he => not_invocation_post hposted he)]
        rw [Run.begun, hbatch, started_cons, if_neg (by decide)] at hinvoked
        rw [Run.begun, hposted.past_eq, hposted.batch_eq, List.append_assoc]
        exact hinvoked

end once

/-- In a run in which a component that this run has reached is only ever appended again while it is
the last of the path, every component is invoked at most once. -/
theorem invoked_at_most_once (w : Workflow) (env : Env D) (hplain : Plain w env)
    (before : List CpnId) (c : CpnId) (pos : CpnId → ℤ) (data : D)
    (run : List (Choice D × Run D))
    (hrun : IsRun (Steps w env) (Run.initial before c pos data) run)
    (hsteps : AllSteps (OnceStep w env) (Run.initial before c pos data) run) :
    ∀ x ∈ run, (invocations x.2.log).Nodup := by
  have hinitial : Once (Run.initial before c pos data) :=
    ⟨by simp [Run.current, Run.initial], List.Perm.nil⟩
  intro x hx
  have hx' : Once x.2 := states_of_steps Once (once_step hplain) run hinitial hrun hsteps x hx
  exact hx'.nodup_invocations

/-! ### Two components that join twice -/

/-- The beginning is followed by two agents, each of which is followed by `next`. -/
def twoAgents (next : List CpnId) : Workflow where
  components := ⟨[
    { id := ['b', 'e', 'g', 'i', 'n'], kind := .beginning
      downstream := [['a'], ['b']] },
    { id := ['a'], kind := .other, downstream := next },
    { id := ['b'], kind := .other, downstream := next },
    { id := ['m'], kind := .message, downstream := [] },
    { id := ['n'], kind := .message, downstream := [] }],
    by simp⟩

def twoAgentsRank (c : CpnId) : ℕ :=
  if c = ['b', 'e', 'g', 'i', 'n'] then 0 else if c = ['a'] ∨ c = ['b'] then 1 else 2

theorem mem_twoAgents {next : List CpnId} {cpn : Cpn} (h : cpn ∈ (twoAgents next).components) :
    cpn = { id := ['b', 'e', 'g', 'i', 'n'], kind := .beginning
            downstream := [['a'], ['b']] } ∨
      (∃ c, twoAgentsRank c = 1 ∧ cpn = { id := c, kind := .other, downstream := next }) ∨
      ∃ c, cpn = { id := c, kind := .message, downstream := [] } := by
  have h := Table.mem_rows.mp h
  simp only [twoAgents, List.mem_cons, List.not_mem_nil, or_false] at h
  rcases h with rfl | rfl | rfl | rfl | rfl
  · exact Or.inl rfl
  · exact Or.inr (Or.inl ⟨_, by decide, rfl⟩)
  · exact Or.inr (Or.inl ⟨_, by decide, rfl⟩)
  · exact Or.inr (Or.inr ⟨_, rfl⟩)
  · exact Or.inr (Or.inr ⟨_, rfl⟩)

theorem plain_twoAgents {next : List CpnId} (hnext : ∀ c ∈ next, twoAgentsRank c = 2) :
    Plain (twoAgents next) bareEnv where
  kinds := by
    intro cpn hcpn
    obtain rfl | ⟨c, -, rfl⟩ | ⟨c, rfl⟩ := mem_twoAgents hcpn <;> simp
  top := by
    intro cpn hcpn
    obtain rfl | ⟨c, -, rfl⟩ | ⟨c, rfl⟩ := mem_twoAgents hcpn <;> rfl
  goto := fun _ => rfl
  error := fun _ _ => rfl
  acyclic := by
    refine ⟨twoAgentsRank, ?_⟩
    intro cpn hcpn
    refine ⟨?_, fun d c hc => by cases hc⟩
    obtain rfl | ⟨c, hc, rfl⟩ | ⟨c, rfl⟩ := mem_twoAgents hcpn
    · simp [twoAgentsRank]
    · intro d hd
      rw [hnext d hd, hc]
      decide
    · intro d hd
      cases hd

/-- The choices that run the two agents. -/
def runAgents : List (Choice Unit) :=
  afterBegin ++ [.start 0, .start 1, .finish 1 () .no, .finish 0 () .no, .post (), .post (),
    .schedule]

/-- Both agents append the one message, the second while it is the last of the path. -/
theorem invoked_at_most_once_one_message :
    ∃ run, IsRun (Steps (twoAgents [['m']]) bareEnv) bareStart run ∧
      (run.any (fun x => ['m'] ∈ invocations x.2.log) = true) ∧
      ∀ x ∈ run, (invocations x.2.log).Nodup := by
  obtain ⟨run, hrun, hp⟩ := exists_run_of_trace (twoAgents [['m']]) bareEnv bareStart
    (runAgents ++ [.start 0])
    (p := fun run => decide (AllSteps (OnceStep (twoAgents [['m']]) bareEnv) bareStart run) &&
      run.any (fun x => ['m'] ∈ invocations x.2.log)) (by decide +kernel)
  rw [Bool.and_eq_true, decide_eq_true_eq] at hp
  refine ⟨run, hrun, hp.2, ?_⟩
  exact invoked_at_most_once (twoAgents [['m']]) bareEnv (plain_twoAgents (by simp [twoAgentsRank]))
    [] ['b', 'e', 'g', 'i', 'n'] (fun _ => 0) () run hrun hp.1

/-- Both agents append both messages, and the path ends with the other message when the second agent
appends them. -/
theorem messages_invoked_twice :
    ¬ ∀ (w : Workflow) (env : Env Unit), Plain w env → ∀ before c pos data run,
      IsRun (Steps w env) (Run.initial before c pos data) run →
      ∀ x ∈ run, (invocations x.2.log).Nodup := by
  intro h
  have hplain : Plain (twoAgents [['m'], ['n']]) bareEnv :=
    plain_twoAgents (by simp [twoAgentsRank])
  obtain ⟨run, hrun, hp⟩ := exists_run_of_trace (twoAgents [['m'], ['n']]) bareEnv bareStart
    (runAgents ++ [.start 0, .start 1, .start 2])
    (p := fun run => run.any (fun x => !decide (invocations x.2.log).Nodup)) (by decide +kernel)
  obtain ⟨x, hx, htwice⟩ := List.any_eq_true.mp hp
  rw [Bool.not_eq_true', decide_eq_false_iff_not] at htwice
  exact htwice (h _ bareEnv hplain [] _ (fun _ => 0) () run hrun x hx)

end RagFlow.Agent.Flow
