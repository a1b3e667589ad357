import RagFlow.CanvasSchedule

/-! # Iterations and loops of a canvas

An iteration and a loop run their item, which keeps its position in a field of its own: it is zero
at first, is advanced by every invocation, and is set to `-1` at the end.  The item schedules the
body or, at the end, what follows the iteration or loop; the last component of the body schedules
the item again.

The module follows one item through a run.  What it has done since it was last entered is compared
with what it is to do, which is a parameter: what may have happened when it is not being run
(`idle`), between an invocation and its post-processing (`done`), and after the end (`gone`).
`itemInv_run` derives this for all states of a run from what one invocation and one post-processing
of the item do (`Conduct.Lawful`), if the steps meet the conditions `ItemStep`: the item is entered
at position zero, which nothing sees to, and it is scheduled once at a time. -/

namespace RagFlow.Agent.Flow

open Py Transition

variable {D : Type}

/-! ### What is noted of an item -/

/-- The event tells what the item `a` has done. -/
def Event.about (a : CpnId) : Event → Bool
  | .invoked _ => false
  | .entered _ _ => false
  | .published item _ _ => item = a
  | .collated item _ => item = a
  | .tested item _ => item = a
  | .body item _ => item = a
  | .left item => item = a
  | .exited _ => false

def Event.isLeft : Event → Bool
  | .left _ => true
  | _ => false

def Event.isEntry (a : CpnId) : Event → Bool
  | .entered item _ => item = a
  | _ => false

/-- All that was noted since the item was last entered, the latest first. -/
def lately (a : CpnId) (log : List Event) : List Event := log.takeWhile fun e => !e.isEntry a

/-- What the item has done since it was entered, the latest first. -/
def since (a : CpnId) : List Event → List Event
  | [] => []
  | .entered item _ :: log => if item = a then [] else since a log
  | e :: log => if e.about a then e :: since a log else since a log

/-- The array with which the item was last entered. -/
def entry (a : CpnId) : List Event → Option (Option (List Value))
  | [] => none
  | .entered item arr :: log => if item = a then some arr else entry a log
  | _ :: log => entry a log

/-- The item has been entered and has not come to the end. -/
def underWay (a : CpnId) (log : List Event) : Bool :=
  (entry a log).isSome && !(since a log).any Event.isLeft

/-- The event is neither an entry of the item nor something it does. -/
def Event.Foreign (a : CpnId) (e : Event) : Prop := e.about a = false ∧ ∀ arr, e ≠ .entered a arr

theorem since_foreign {a : CpnId} {events : List Event} (log : List Event)
    (h : ∀ e ∈ events, e.Foreign a) :
    since a (events ++ log) = since a log ∧ entry a (events ++ log) = entry a log := by
  induction events with
  | nil => exact ⟨rfl, rfl⟩
  | cons e events ih =>
      obtain ⟨hsince, hentry⟩ := ih (fun e he => h e (List.mem_cons_of_mem _ he))
      obtain ⟨habout, hentered⟩ := h e List.mem_cons_self
      cases e with
      | entered item arr =>
          have hne : item ≠ a := by
            rintro rfl
            exact hentered arr rfl
          simp [since, entry, hne, hsince, hentry]
      | invoked c => simp [since, entry, Event.about, hsince, hentry]
      | _ => simp_all [since, entry, Event.about]

theorem since_about {a : CpnId} {events : List Event} (log : List Event)
    (h : ∀ e ∈ events, e.about a = true) :
    since a (events ++ log) = events ++ since a log ∧ entry a (events ++ log) = entry a log := by
  induction events with
  | nil => exact ⟨rfl, rfl⟩
  | cons e events ih =>
      obtain ⟨hsince, hentry⟩ := ih (fun e he => h e (List.mem_cons_of_mem _ he))
      have habout := h e List.mem_cons_self
      cases e with
      | entered item arr => cases habout
      | invoked c => cases habout
      | _ => simp_all [since, entry, Event.about]

/-! ### Items and their parents -/

/-- The item is the one that the iteration or loop `par` starts. -/
structure ItemOf (w : Workflow) (par item : Cpn) : Prop where
  par_get : w.components.get? par.id = some par
  item_get : w.components.get? item.id = some item
  parent : item.parentId = some par.id
  start : w.getStart par = some item.id
  kinds : (par.kind = .iteration ∧ item.kind = .iterationItem) ∨
    (par.kind = .loop ∧ item.kind = .loopItem)

theorem getStart_eq_some {w : Workflow} {cpn : Cpn} {a : CpnId} (h : w.getStart cpn = some a) :
    ∃ item, item.id = a ∧ w.components.get? a = some item ∧ item.parentId = some cpn.id ∧
      ((cpn.kind = .iteration ∧ item.kind = .iterationItem) ∨
        (cpn.kind = .loop ∧ item.kind = .loopItem)) := by
  unfold Workflow.getStart at h
  split at h
  case h_1 hkind =>
    obtain ⟨item, hitem, rfl⟩ := Option.map_eq_some_iff.mp h
    have hmem := List.mem_of_find?_eq_some hitem
    have hprop := List.find?_some hitem
    simp only [decide_eq_true_eq] at hprop
    exact ⟨item, rfl, Table.get?_eq_some.mpr ⟨hmem, rfl⟩, hprop.2, Or.inl ⟨hkind, hprop.1⟩⟩
  case h_2 hkind =>
    obtain ⟨item, hitem, rfl⟩ := Option.map_eq_some_iff.mp h
    have hmem := List.mem_of_find?_eq_some hitem
    have hprop := List.find?_some hitem
    simp only [decide_eq_true_eq] at hprop
    exact ⟨item, rfl, Table.get?_eq_some.mpr ⟨hmem, rfl⟩, hprop.2, Or.inr ⟨hkind, hprop.1⟩⟩
  case h_3 => cases h

/-- What an iteration or loop starts is an item of it. -/
theorem itemOf_of_getStart {w : Workflow} {par : Cpn} {a : CpnId}
    (hpar : w.components.get? par.id = some par) (hstart : w.getStart par = some a) :
    ∃ item, item.id = a ∧ ItemOf w par item := by
  obtain ⟨item, rfl, hitem, hparent, hkinds⟩ := getStart_eq_some hstart
  exact ⟨item, rfl, hpar, hitem, hparent, hstart, hkinds⟩

section item
variable {w : Workflow} {env : Env D} {par item : Cpn} {r r' : Run D}

theorem ItemOf.getParent (h : ItemOf w par item) : w.getParent item = some par := by
  rw [Workflow.getParent, h.parent]
  exact h.par_get

theorem ItemOf.isItem (h : ItemOf w par item) : isItem item := by
  rcases h.kinds with ⟨-, hkind⟩ | ⟨-, hkind⟩ <;> simp [Flow.isItem, hkind]

theorem ItemOf.not_isItem (h : ItemOf w par item) : Flow.isItem par = false := by
  rcases h.kinds with ⟨hkind, -⟩ | ⟨hkind, -⟩ <;> simp [Flow.isItem, hkind]

theorem ItemOf.ne (h : ItemOf w par item) : par.id ≠ item.id := by
  intro hid
  have heq := h.par_get
  rw [hid, h.item_get] at heq
  cases heq
  exact absurd h.isItem (by simp [h.not_isItem])

/-- Only its parent starts the item. -/
theorem ItemOf.eq_of_getStart (h : ItemOf w par item) {cpn : Cpn}
    (hstart : w.getStart cpn = some item.id) : cpn.id = par.id := by
  obtain ⟨item', -, hitem', hparent, -⟩ := getStart_eq_some hstart
  rw [h.item_get] at hitem'
  cases hitem'
  exact Option.some.inj (hparent.symm.trans h.parent)

theorem ItemOf.streamed_eq (h : ItemOf w par item) (r : Run D) (result : D) :
    streamed r item result = r := by
  rcases h.kinds with ⟨-, hkind⟩ | ⟨-, hkind⟩ <;> simp [streamed, hkind]

theorem ItemOf.streamed_par (h : ItemOf w par item) (r : Run D) (result : D) :
    streamed r par result = r := by
  rcases h.kinds with ⟨hkind, -⟩ | ⟨hkind, -⟩ <;> simp [streamed, hkind]

/-- The post-processing of the item: it leaves, or it schedules the body. -/
theorem ItemOf.targets_eq (h : ItemOf w par item) {ended : Bool} {cpns : List CpnId}
    {events : List Event} (htargets : targets w env r item ended = some (cpns, events)) :
    events = if ended then [.left item.id]
      else [.body item.id (newEntries r.path.getLast? cpns)] := by
  unfold targets at htargets
  cases ended with
  | true =>
      rw [if_pos ⟨h.isItem, rfl⟩, h.getParent] at htargets
      cases htargets
      rfl
  | false =>
      rw [if_neg (by simp)] at htargets
      have hfollow : follow w r item = some (cpns, events) := by
        rcases h.kinds with ⟨-, hkind⟩ | ⟨-, hkind⟩ <;> simpa [hkind] using htargets
      rw [follow_events hfollow, bodyEvents, if_pos h.isItem]
      rfl

/-- The post-processing of the parent: it enters the item. -/
theorem ItemOf.aftermath_par (h : ItemOf w par item) {after : Aftermath}
    (hafter : aftermath w env r par = some after) :
    after.cpns = [item.id] ∧ after.events = [.entered item.id (env.items r.data par.id)] ∧
      after.tested = [] ∧ after.pos = r.pos := by
  obtain ⟨hend, htargets⟩ := aftermath_eq_some hafter
  unfold endTest at hend
  unfold targets at htargets
  rw [if_neg (by simp [h.not_isItem])] at htargets
  rcases h.kinds with ⟨hkind, -⟩ | ⟨hkind, -⟩
  all_goals
    simp only [hkind, h.start] at hend htargets
    injection hend with hend
    injection htargets with htargets
    simp only [Prod.mk.injEq] at hend htargets
    exact ⟨htargets.1.symm, htargets.2.symm, hend.2.2.symm, hend.2.1.symm⟩

end item

/-! ### The conditions on the steps -/

/-- What is to be run next to the component that is post-processed. -/
def Run.others (r : Run D) : List CpnId := r.batch.tail.map Prod.fst ++ r.queue

/-- The component is the parent and schedules the item. -/
def Enters (env : Env D) (par : Cpn) (r : Run D) (cpn : Cpn) : Prop :=
  cpn.id = par.id ∧ branchesOff env r cpn.id = false

instance (env : Env D) (par : Cpn) (r : Run D) (cpn : Cpn) : Decidable (Enters env par r cpn) :=
  inferInstanceAs (Decidable (_ ∧ _))

/-- The entries that the post-processing of a component appends contain the item only if it is
entered, or once and while it is under way and not to be run already. -/
def SchedulesItem (par : Cpn) (a : CpnId) (env : Env D) (r : Run D) (cpn : Cpn)
    (after : Aftermath) : Prop :=
  a ∈ additions env r cpn.id after.cpns → ¬ Enters env par r cpn →
    underWay a r.log ∧ (cpn.id = a → after.ended = false) ∧ a ∉ r.others ∧
      (additions env r cpn.id after.cpns).count a ≤ 1

/-- The conditions on the post-processing of a component: the item is entered at position zero and
when it is not under way, it is not left by an exception, and it is scheduled once at a time. -/
def PostsItem (w : Workflow) (env : Env D) (par : Cpn) (a : CpnId) (r : Run D) (cpn : Cpn) : Prop :=
  (Enters env par r cpn → underWay a r.log = false ∧ r.pos a = 0) ∧
    (cpn.id = a → branchesOff env r a = false) ∧
    ∀ after ∈ aftermath w env r cpn, SchedulesItem par a env r cpn after

/-- The conditions on the steps of a run with respect to the item `a` of `par`. -/
def ItemStep (w : Workflow) (env : Env D) (par : Cpn) (a : CpnId) (r : Run D) : Choice D → Prop
  | .finish k _ canceled => ∀ x ∈ r.batch[k]?, x.1 = a → canceled = .no
  | .post result => ∀ cpn ∈ r.next w, PostsItem w env par a (streamed r cpn result) cpn
  | _ => True

instance (par : Cpn) (a : CpnId) (env : Env D) (r : Run D) (cpn : Cpn) (after : Aftermath) :
    Decidable (SchedulesItem par a env r cpn after) :=
  inferInstanceAs (Decidable (_ → _))

instance (w : Workflow) (env : Env D) (par : Cpn) (a : CpnId) (r : Run D) (cpn : Cpn) :
    Decidable (PostsItem w env par a r cpn) :=
  inferInstanceAs (Decidable (_ ∧ _))

instance ItemStep.decidable (w : Workflow) (env : Env D) (par : Cpn) (a : CpnId) (r : Run D) :
    ∀ choice, Decidable (ItemStep w env par a r choice)
  | .schedule => isTrue trivial
  | .start _ => isTrue trivial
  | .finish k _ canceled =>
      inferInstanceAs (Decidable (∀ x ∈ r.batch[k]?, x.1 = a → canceled = .no))
  | .post result => inferInstanceAs
      (Decidable (∀ cpn ∈ r.next w, PostsItem w env par a (streamed r cpn result) cpn))

/-! ### The invariant -/

/-- What may have happened since the item was entered with an array, and its position. -/
structure Conduct where
  idle : Option (List Value) → ℤ → List Event → Prop
  done : Option (List Value) → ℤ → List Event → Prop
  gone : Option (List Value) → List Event → Prop

/-- The item conducts itself so, given that the steps meet the condition `C`. -/
structure Conduct.Lawful (P : Conduct) (w : Workflow) (env : Env D) (par item : Cpn)
    (C : Run D → Choice D → Prop) : Prop where
  enter : ∀ arr, P.idle arr 0 []
  invoke : ∀ {r k result arr}, C r (.finish k result .no) →
    r.batch[k]? = some (item.id, .running) → entry item.id r.log = some arr →
    P.idle arr (r.pos item.id) (since item.id r.log) →
    P.done arr ((invoke w env r item result .no).pos item.id)
      ((invoke w env r item result .no).events ++ since item.id r.log)
  post : ∀ {r result arr after}, C r (.post result) → r.next w = some item →
    entry item.id r.log = some arr → aftermath w env r item = some after →
    P.done arr (r.pos item.id) (since item.id r.log) →
    if after.ended then P.gone arr (after.events ++ after.tested ++ since item.id r.log)
    else P.idle arr (after.pos item.id) (after.events ++ after.tested ++ since item.id r.log)

/-- What is to be run. -/
def Run.pending (r : Run D) : List CpnId := r.batch.map Prod.fst ++ r.queue

inductive Phase (P : Conduct) (a : CpnId) (r : Run D) : Prop
  | fresh (hentry : entry a r.log = none) (hpending : a ∉ r.pending)
  | gone (arr : Option (List Value)) (hentry : entry a r.log = some arr)
      (hway : underWay a r.log = false) (hpending : a ∉ r.pending) (h : P.gone arr (since a r.log))
  | idle (arr : Option (List Value)) (hentry : entry a r.log = some arr)
      (hway : underWay a r.log = true) (hdone : (a, .done) ∉ r.batch)
      (h : P.idle arr (r.pos a) (since a r.log))
  | done (arr : Option (List Value)) (hentry : entry a r.log = some arr)
      (hway : underWay a r.log = true) (hdone : (a, .done) ∈ r.batch)
      (h : P.done arr (r.pos a) (since a r.log))

structure ItemInv (P : Conduct) (a : CpnId) (r : Run D) : Prop where
  once : r.pending.count a ≤ 1
  phase : Phase P a r

section invariant
variable {P : Conduct} {w : Workflow} {env : Env D} {par item : Cpn} {r r' : Run D} {a : CpnId}

/-- A step in which the item takes no part. -/
theorem Phase.frame (h : Phase P a r) (hsince : since a r'.log = since a r.log)
    (hentry : entry a r'.log = entry a r.log) (hpos : r'.pos a = r.pos a)
    (hdone : (a, .done) ∈ r'.batch ↔ (a, .done) ∈ r.batch)
    (hpending : underWay a r.log = false → a ∉ r.pending → a ∉ r'.pending) : Phase P a r' := by
  have hway : underWay a r'.log = underWay a r.log := by rw [underWay, hsince, hentry, underWay]
  cases h with
  | fresh he hp =>
      refine .fresh (hentry.trans he) (hpending ?_ hp)
      simp [underWay, he]
  | gone arr he hu hp h =>
      exact .gone arr (hentry.trans he) (hway.trans hu) (hpending hu hp) (hsince ▸ h)
  | idle arr he hu hd h =>
      refine .idle arr (hentry.trans he) (hway.trans hu) (fun h => hd (hdone.mp h)) ?_
      rw [hsince, hpos]
      exact h
  | done arr he hu hd h =>
      refine .done arr (hentry.trans he) (hway.trans hu) (hdone.mpr hd) ?_
      rw [hsince, hpos]
      exact h

/-- While the item is being run it is idle or done. -/
theorem Phase.of_mem_pending (h : Phase P a r) (hmem : a ∈ r.pending) :
    ∃ arr, entry a r.log = some arr ∧ underWay a r.log = true ∧
      (((a, .done) ∉ r.batch ∧ P.idle arr (r.pos a) (since a r.log)) ∨
        ((a, .done) ∈ r.batch ∧ P.done arr (r.pos a) (since a r.log))) := by
  cases h with
  | fresh he hp => exact absurd hmem hp
  | gone arr he hu hp h => exact absurd hmem hp
  | idle arr he hu hd h => exact ⟨arr, he, hu, Or.inl ⟨hd, h⟩⟩
  | done arr he hu hd h => exact ⟨arr, he, hu, Or.inr ⟨hd, h⟩⟩

theorem itemInv_schedule (h : ItemInv P a r) (hstep : Steps w env r .schedule r') :
    ItemInv P a r' := by
  obtain ⟨hbatch, -, ids, hids, rfl⟩ := step_schedule hstep
  have hsub : List.Sublist ids r.queue := accept_sublist hids
  have hpending : ∀ r₁ : Run D, r₁.batch = tasks .waiting ids → r₁.queue = [] →
      r₁.pending = ids := by
    intro r₁ h₁ h₂
    simp [Run.pending, h₁, h₂, tasks, Function.comp_def]
  have hold : r.pending = r.queue := by simp [Run.pending, hbatch]
  obtain ⟨honce, hphase⟩ := h
  rw [hold] at honce
  refine ⟨?_, hphase.frame rfl rfl rfl ?_ ?_⟩
  · rw [hpending _ rfl rfl]
    exact (hsub.count_le a).trans honce
  · refine iff_of_false (fun hmem => ?_) (by simp [hbatch])
    have hwaiting : Status.done = .waiting := tasks_status (show _ ∈ tasks .waiting ids from hmem)
    cases hwaiting
  · intro _ hnot
    rw [hpending _ rfl rfl]
    rw [hold] at hnot
    exact fun hmem => hnot (hsub.subset hmem)

theorem pending_set {k : ℕ} {c : CpnId} {s s' : Status} (hc : r.batch[k]? = some (c, s))
    (hbatch : r'.batch = r.batch.set k (c, s')) (hqueue : r'.queue = r.queue) :
    r'.pending = r.pending := by
  rw [Run.pending, hbatch, hqueue, map_fst_set hc, Run.pending]

theorem mem_set_of_ne {batch : List (CpnId × Status)} {k : ℕ} {x y z : CpnId × Status}
    (hk : batch[k]? = some y) (hy : x ≠ y) (hz : x ≠ z) : x ∈ batch.set k z ↔ x ∈ batch := by
  obtain ⟨pre, rest, hbatch, hset⟩ := set_split hk
  rw [hset, hbatch]
  simp [hy, hz]

theorem itemInv_start {k : ℕ} (h : ItemInv P a r) (hstep : Steps w env r (.start k) r') :
    ItemInv P a r' := by
  obtain ⟨c, hc, -, hr'⟩ := step_start hstep
  have hpending : r'.pending = r.pending := by
    subst hr'
    exact pending_set hc rfl rfl
  subst hr'
  refine ⟨?_, h.phase.frame rfl rfl rfl ?_ ?_⟩
  · rw [hpending]
    exact h.once
  · exact mem_set_of_ne hc (by simp) (by simp)
  · intro _ hnot
    rw [hpending]
    exact hnot

/-- A component that is pending once and whose task is running has no task that is done. -/
theorem not_done_of_running {c : CpnId} {k : ℕ} (honce : r.pending.count c ≤ 1)
    (hk : r.batch[k]? = some (c, .running)) : (c, Status.done) ∉ r.batch := by
  obtain ⟨pre, rest, hbatch, -⟩ := set_split hk
  intro hmem
  rw [Run.pending, hbatch] at honce
  rw [hbatch] at hmem
  simp only [List.mem_append, List.mem_cons, Prod.mk.injEq, reduceCtorEq, and_false,
    false_or] at hmem
  simp only [List.map_append, List.map_cons, List.count_append, List.count_cons_self] at honce
  rcases hmem with hmem | hmem
  · have hpre : 0 < (pre.map Prod.fst).count c :=
      List.count_pos_iff.mpr (List.mem_map_of_mem hmem)
    omega
  · have hrest : 0 < (rest.map Prod.fst).count c :=
      List.count_pos_iff.mpr (List.mem_map_of_mem hmem)
    omega

/-- An invocation logs events about its component, and does not leave it. -/
theorem invoke_about (w : Workflow) (env : Env D) (r : Run D) (cpn : Cpn) (result : D)
    (canceled : Canceled) :
    (∀ e ∈ (invoke w env r cpn result canceled).events, e.about cpn.id) ∧
      (invoke w env r cpn result canceled).events.any Event.isLeft = false := by
  constructor
  · intro e he
    rcases invoke_events he with ⟨values, rfl⟩ | ⟨i, v, rfl⟩ <;> simp [Event.about]
  · rw [List.any_eq_false]
    intro e he
    rcases invoke_events he with ⟨values, rfl⟩ | ⟨i, v, rfl⟩ <;> simp [Event.isLeft]

/-- The item has been invoked. -/
theorem itemInv_finish {C : Run D → Choice D → Prop} (hitem : ItemOf w par item)
    (hlaw : P.Lawful w env par item C) {k : ℕ} {result : D} {canceled : Canceled}
    (h : ItemInv P item.id r)
    (hc : ItemStep w env par item.id r (.finish k result canceled))
    (hC : C r (.finish k result canceled))
    (hstep : Steps w env r (.finish k result canceled) r') : ItemInv P item.id r' := by
  obtain ⟨c, cpn, hk, hcpn, hr'⟩ := step_finish hstep
  obtain ⟨pre, rest, hbatch, hset⟩ := set_split hk
  have hpending : r'.pending = r.pending := by
    rw [hr']
    exact pending_set hk rfl rfl
  have honce := h.once
  refine ⟨hpending ▸ honce, ?_⟩
  by_cases hid : c = item.id
  · subst hid
    rw [hitem.item_get] at hcpn
    cases hcpn
    have hno : canceled = .no := hc _ hk rfl
    subst hno
    have hmem : item.id ∈ r.pending := by simp [Run.pending, hbatch]
    obtain ⟨arr, hentry, hway, ⟨-, hidle⟩ | ⟨hdone, -⟩⟩ := h.phase.of_mem_pending hmem
    · obtain ⟨habout, hnotleft⟩ := invoke_about w env r item result .no
      obtain ⟨hsince, hentry'⟩ := since_about r.log habout
      have hdone := hlaw.invoke hC hk hentry hidle
      rw [← hsince] at hdone
      subst hr'
      refine .done arr (hentry'.trans hentry) ?_ ?_ hdone
      · simp only [underWay, hsince, hentry', List.any_append, hnotleft, Bool.false_or]
        exact hway
      · simp [hset]
    · exact absurd hdone (not_done_of_running honce hk)
  · have hne : item.id ≠ cpn.id := by
      rw [(Table.get?_eq_some.mp hcpn).2]
      exact fun h => hid h.symm
    have hforeign : ∀ e ∈ (invoke w env r cpn result canceled).events, e.Foreign item.id := by
      intro e he
      rcases invoke_events he with ⟨values, rfl⟩ | ⟨i, v, rfl⟩
      · exact ⟨by simp [Event.about, hne.symm], by simp⟩
      · exact ⟨by simp [Event.about, hne.symm], by simp⟩
    obtain ⟨hsince, hentry⟩ := since_foreign r.log hforeign
    subst hr'
    refine h.phase.frame hsince hentry (invoke_pos hne) ?_ (fun _ hnot => hpending ▸ hnot)
    exact mem_set_of_ne hk (by simp) (by simp [Ne.symm hid])

theorem pending_posted {cpn : Cpn} {s : Status} {rest : List (CpnId × Status)} {result : D}
    {after : Aftermath} (hbatch : r.batch = (cpn.id, s) :: rest)
    (hposted : Posted w env r cpn rest result after r') :
    r.pending = cpn.id :: r.others ∧
      r'.pending = r.others ++ additions env (streamed r cpn result) cpn.id after.cpns := by
  constructor
  · simp [Run.pending, Run.others, hbatch]
  · rw [Run.pending, hposted.batch_eq, hposted.queue_eq, Run.others, hbatch]
    simp

/-- Only the components after the one that is post-processed are left in the batch. -/
theorem not_done_posted {cpn : Cpn} {s : Status} {rest : List (CpnId × Status)} {result : D}
    {after : Aftermath} {c : CpnId} (hbatch : r.batch = (cpn.id, s) :: rest)
    (hposted : Posted w env r cpn rest result after r') (hothers : c ∉ r.others) :
    (c, Status.done) ∉ r'.batch := by
  rw [hposted.batch_eq]
  intro hmem
  refine hothers (List.mem_append_left _ ?_)
  rw [hbatch]
  exact List.mem_map_of_mem hmem

/-- What the item logs when it is post-processed is about itself, and it leaves if it has come to
the end. -/
theorem ItemOf.aftermath_about (hitem : ItemOf w par item) {after : Aftermath}
    (hafter : aftermath w env r item = some after) :
    (∀ e ∈ after.events ++ after.tested, e.about item.id) ∧
      (after.events ++ after.tested).any Event.isLeft = after.ended := by
  obtain ⟨hend, htargets⟩ := aftermath_eq_some hafter
  have hevents := hitem.targets_eq htargets
  have htested := (endTest_spec hend).2
  constructor
  · intro e he
    rcases List.mem_append.mp he with he | he
    · rw [hevents] at he
      split at he <;> simp [List.mem_singleton.mp he, Event.about]
    · obtain ⟨conditions, rfl⟩ := htested e he
      simp [Event.about]
  · have htestedLeft : after.tested.any Event.isLeft = false := by
      rw [List.any_eq_false]
      intro e he
      obtain ⟨conditions, rfl⟩ := htested e he
      simp [Event.isLeft]
    rw [List.any_append, htestedLeft, Bool.or_false, hevents]
    cases after.ended <;> simp [Event.isLeft]

/-- A component other than the item that does not enter it logs nothing about the item. -/
theorem ItemOf.aftermath_foreign (hitem : ItemOf w par item) {cpn : Cpn} {after : Aftermath}
    (hne : cpn.id ≠ item.id) (hnotenters : ¬ Enters env par r cpn)
    (hafter : aftermath w env r cpn = some after) :
    ∀ e ∈ (if branchesOff env r cpn.id then after.tested else after.events ++ after.tested),
      e.Foreign item.id := by
  obtain ⟨hend, htargets⟩ := aftermath_eq_some hafter
  have htested : ∀ e ∈ after.tested, e.Foreign item.id := by
    intro e he
    obtain ⟨conditions, rfl⟩ := (endTest_spec hend).2 e he
    exact ⟨by simp [Event.about, hne], by simp⟩
  intro e he
  split at he
  case isTrue => exact htested e he
  case isFalse hbranch =>
    rcases List.mem_append.mp he with he | he
    · rcases targets_events htargets e he with
        rfl | ⟨cs, rfl⟩ | ⟨start, arr, hstart, rfl⟩ | ⟨loop, -, -, rfl⟩
      · exact ⟨by simp [Event.about, hne], by simp⟩
      · exact ⟨by simp [Event.about, hne], by simp⟩
      · refine ⟨rfl, fun arr' heq => hnotenters ⟨?_, by simpa using hbranch⟩⟩
        cases heq
        exact hitem.eq_of_getStart hstart
      · exact ⟨rfl, by simp⟩
    · exact htested e he

/-- The item is post-processed: it leaves or schedules the body. -/
theorem itemInv_post_item {C : Run D → Choice D → Prop} (hitem : ItemOf w par item)
    (hlaw : P.Lawful w env par item C) {rest : List (CpnId × Status)} {result : D}
    {after : Aftermath} (h : ItemInv P item.id r) (hbatch : r.batch = (item.id, .done) :: rest)
    (hc : PostsItem w env par item.id r item) (hC : C r (.post result))
    (hposted : Posted w env r item rest result after r') : ItemInv P item.id r' := by
  obtain ⟨hpending, hpending'⟩ := pending_posted hbatch hposted
  obtain ⟨-, hbranch, hschedule⟩ := hc
  have hafter := hposted.after_eq
  have hlog := hposted.log_eq
  rw [hitem.streamed_eq] at hafter hlog hpending'
  rw [hbranch rfl, if_neg (by simp)] at hlog
  have honce := h.once
  rw [hpending, List.count_cons_self] at honce
  have hothers : item.id ∉ r.others := fun hmem => by
    have := List.count_pos_iff.mpr hmem
    omega
  have hnotenters : ¬ Enters env par r item := fun henters => hitem.ne henters.1.symm
  have hmem : item.id ∈ r.pending := by simp [hpending]
  obtain ⟨arr, hentry, hway, ⟨hdone, -⟩ | ⟨-, hdone⟩⟩ := h.phase.of_mem_pending hmem
  · exact absurd (by simp [hbatch]) hdone
  · obtain ⟨habout, hleft⟩ := hitem.aftermath_about hafter
    obtain ⟨hsince, hentry'⟩ := since_about r.log habout
    have hnext := hlaw.post hC (next_eq hbatch hitem.item_get) hentry hafter hdone
    rw [← hsince, ← hlog] at hnext
    rw [← hlog] at hentry' hsince
    have hway' : underWay item.id r'.log = !after.ended := by
      rw [underWay, Bool.and_eq_true] at hway
      obtain ⟨hsome, hnotleft⟩ := hway
      rw [Bool.not_eq_true'] at hnotleft
      rw [underWay, hsince, hentry', hsome, List.any_append, hleft, hnotleft, Bool.or_false,
        Bool.true_and]
    cases hended : after.ended with
    | true =>
        rw [hended, if_pos rfl] at hnext
        have hnot : item.id ∉ r'.pending := by
          rw [hpending']
          intro hmem
          rcases List.mem_append.mp hmem with hmem | hmem
          · exact hothers hmem
          · have hnotended := (hschedule after hafter hmem hnotenters).2.1 rfl
            rw [hended] at hnotended
            cases hnotended
        refine ⟨?_, .gone arr (hentry'.trans hentry) (by rw [hway', hended]; rfl) hnot hnext⟩
        rw [List.count_eq_zero.mpr hnot]
        omega
    | false =>
        rw [hended, if_neg (by simp), ← hposted.pos_eq] at hnext
        have hnotbatch := not_done_posted hbatch hposted hothers
        refine ⟨?_, .idle arr (hentry'.trans hentry) (by rw [hway', hended]; rfl) hnotbatch hnext⟩
        rw [hpending', List.count_append, List.count_eq_zero.mpr hothers, Nat.zero_add]
        by_cases hmem : item.id ∈ additions env r item.id after.cpns
        · exact (hschedule after hafter hmem hnotenters).2.2.2
        · rw [List.count_eq_zero.mpr hmem]
          omega

theorem count_newEntries_le (c : CpnId) (last : Option CpnId) :
    (newEntries last [c]).count c ≤ 1 := by
  unfold newEntries
  split <;> simp [newEntries]

/-- The item is entered. -/
theorem itemInv_post_enter (hitem : ItemOf w par item) (henter : ∀ arr, P.idle arr 0 [])
    {rest : List (CpnId × Status)} {result : D} {after : Aftermath} (h : ItemInv P item.id r)
    (hbatch : r.batch = (par.id, .done) :: rest) (hc : PostsItem w env par item.id r par)
    (hbranch : branchesOff env r par.id = false)
    (hposted : Posted w env r par rest result after r') : ItemInv P item.id r' := by
  obtain ⟨hpending, hpending'⟩ := pending_posted hbatch hposted
  obtain ⟨hway, hpos⟩ := hc.1 ⟨rfl, hbranch⟩
  have hafter := hposted.after_eq
  have hlog := hposted.log_eq
  rw [hitem.streamed_par] at hafter hlog hpending'
  rw [hbranch, if_neg (by simp)] at hlog
  obtain ⟨hcpns, hevents, htested, hafterpos⟩ := hitem.aftermath_par hafter
  rw [hevents, htested] at hlog
  have hnot : item.id ∉ r.pending := by
    intro hmem
    obtain ⟨arr, -, hunder, -⟩ := h.phase.of_mem_pending hmem
    rw [hway] at hunder
    cases hunder
  have hothers : item.id ∉ r.others := by
    rw [hpending] at hnot
    exact fun hmem => hnot (List.mem_cons_of_mem _ hmem)
  refine ⟨?_, .idle (env.items r.data par.id) ?_ ?_ ?_ ?_⟩
  · rw [hpending', List.count_append, List.count_eq_zero.mpr hothers, hcpns, additions, hbranch]
    simpa using count_newEntries_le item.id r.path.getLast?
  · simp [hlog, entry]
  · simp [hlog, underWay, entry, since]
  · exact not_done_posted hbatch hposted hothers
  · rw [hposted.pos_eq, hafterpos, hpos, hlog]
    simpa [since] using henter (env.items r.data par.id)

/-- A component that is not the item is post-processed, and the item is not entered. -/
theorem itemInv_post_other (hitem : ItemOf w par item) {cpn : Cpn}
    {rest : List (CpnId × Status)} {result : D} {after : Aftermath} (h : ItemInv P item.id r)
    (hne : cpn.id ≠ item.id) (hbatch : r.batch = (cpn.id, .done) :: rest)
    (hc : PostsItem w env par item.id (streamed r cpn result) cpn)
    (hnotenters : ¬ Enters env par (streamed r cpn result) cpn)
    (hposted : Posted w env r cpn rest result after r') : ItemInv P item.id r' := by
  obtain ⟨hpending, hpending'⟩ := pending_posted hbatch hposted
  obtain ⟨-, -, hschedule⟩ := hc
  obtain ⟨-, -, hbatch₁, hqueue₁, hpos₁, hlog₁⟩ := streamed_frame r cpn result
  have hothers₁ : (streamed r cpn result).others = r.others := by
    rw [Run.others, hbatch₁, hqueue₁, Run.others]
  obtain ⟨hend, -⟩ := aftermath_eq_some hposted.after_eq
  have hforeign := hitem.aftermath_foreign hne hnotenters hposted.after_eq
  obtain ⟨hsince, hentry⟩ := since_foreign r.log hforeign
  rw [← hposted.log_eq] at hsince hentry
  have hpos : r'.pos item.id = r.pos item.id := by
    rw [hposted.pos_eq, (endTest_spec hend).1 item.id hne.symm, hpos₁]
  have hdone : (item.id, Status.done) ∈ r'.batch ↔ (item.id, Status.done) ∈ r.batch := by
    rw [hposted.batch_eq, hbatch]
    simp [hne.symm]
  have honce := h.once
  rw [hpending, List.count_cons_of_ne hne] at honce
  by_cases hmem : item.id ∈ additions env (streamed r cpn result) cpn.id after.cpns
  · obtain ⟨hway, -, hothers, hcount⟩ := hschedule after hposted.after_eq hmem hnotenters
    rw [hothers₁] at hothers
    rw [hlog₁] at hway
    refine ⟨?_, h.phase.frame hsince hentry hpos hdone ?_⟩
    · rw [hpending', List.count_append, List.count_eq_zero.mpr hothers, Nat.zero_add]
      exact hcount
    · intro hnotway
      rw [hway] at hnotway
      cases hnotway
  · refine ⟨?_, h.phase.frame hsince hentry hpos hdone ?_⟩
    · rw [hpending', List.count_append, List.count_eq_zero.mpr hmem, Nat.add_zero]
      exact honce
    · intro _ hnot
      rw [hpending] at hnot
      rw [hpending']
      intro hmem'
      rcases List.mem_append.mp hmem' with hmem' | hmem'
      · exact hnot (List.mem_cons_of_mem _ hmem')
      · exact hmem hmem'

/-- One step keeps the invariant. -/
theorem itemInv_step {C : Run D → Choice D → Prop} (hitem : ItemOf w par item)
    (hlaw : P.Lawful w env par item C) {choice : Choice D} (h : ItemInv P item.id r)
    (hc : ItemStep w env par item.id r choice ∧ C r choice)
    (hstep : Steps w env r choice r') : ItemInv P item.id r' := by
  cases choice with
  | schedule => exact itemInv_schedule h hstep
  | start k => exact itemInv_start h hstep
  | finish k result canceled => exact itemInv_finish hitem hlaw h hc.1 hc.2 hstep
  | post result =>
      obtain ⟨cpn, rest, after, hbatch, -, hcpn, hposted⟩ := step_post hstep
      have hposts := hc.1 cpn (next_eq hbatch hcpn)
      by_cases hid : cpn.id = item.id
      · rw [hid, hitem.item_get] at hcpn
        cases hcpn
        rw [hitem.streamed_eq] at hposts
        exact itemInv_post_item hitem hlaw h hbatch hposts hc.2 hposted
      · by_cases henters : Enters env par (streamed r cpn result) cpn
        · obtain ⟨hpar, hbranch⟩ := henters
          rw [hpar, hitem.par_get] at hcpn
          cases hcpn
          rw [hitem.streamed_par] at hposts hbranch
          exact itemInv_post_enter hitem hlaw.enter h hbatch hposts hbranch hposted
        · exact itemInv_post_other hitem h hid hbatch hposts henters hposted

theorem itemInv_run {C : Run D → Choice D → Prop} (hitem : ItemOf w par item)
    (hlaw : P.Lawful w env par item C) {before : List CpnId} {c : CpnId} (hc : c ≠ item.id)
    {pos : CpnId → ℤ} {data : D} {run : List (Choice D × Run D)}
    (hrun : IsRun (Steps w env) (Run.initial before c pos data) run)
    (hsteps : AllSteps (fun r choice => ItemStep w env par item.id r choice ∧ C r choice)
      (Run.initial before c pos data) run) : ∀ x ∈ run, ItemInv P item.id x.2 := by
  have hinitial : ItemInv P item.id (Run.initial before c pos data) := by
    have hnot : item.id ∉ (Run.initial before c pos data).pending := by
      simpa [Run.initial, Run.pending] using Ne.symm hc
    refine ⟨?_, .fresh rfl hnot⟩
    rw [List.count_eq_zero.mpr hnot]
    omega
  exact states_of_steps (ItemInv P item.id) (itemInv_step hitem hlaw) run hinitial hrun hsteps

end invariant

end RagFlow.Agent.Flow
