import RagFlow.CanvasIteration

/-! # Loops

A loop schedules its body until its termination conditions hold, and at most `maximum_loop_count`
times.  `loop_bounded` says so for every entry into the loop, first or repeated, if the item is
entered at position zero and scheduled once at a time; the bound is reached if no termination
condition holds, there is one, and no `ExitLoop` of the loop schedules what follows the loop.

The position of the item is `-1` when the loop has come to its end.  A loop that is entered again
counts from there, and schedules its body once more than it should (`loop_entered_twice`). -/

namespace RagFlow.Agent.Flow

open Py Transition

variable {D : Type}

def Event.isBody : Event → Bool
  | .body _ _ => true
  | _ => false

/-- How often the body was scheduled. -/
def bodies (events : List Event) : ℕ := events.countP Event.isBody

theorem bodies_cons (e : Event) (events : List Event) :
    bodies (e :: events) = bodies events + if e.isBody then 1 else 0 :=
  List.countP_cons

section loop
variable (w : Workflow) (env : Env D) (par item : Cpn)

/-- The component is an `ExitLoop` of the loop, and the exception handler does not take over. -/
def Exits (r : Run D) (cpn : Cpn) : Prop :=
  cpn.kind = .exitLoop ∧ cpn.parentId = some par.id ∧ branchesOff env r cpn.id = false

/-- Conditions of the loop that are to hold together are not none. -/
def Conditioned (r : Run D) : Prop :=
  env.conditions r.data par.id = some [] → env.logicalOperator par.id ≠ some .and

/-- The condition on the steps of a loop that is not left early. -/
def LoopStep (r : Run D) : Choice D → Prop
  | .post _ => ∀ cpn ∈ r.next w, (cpn.id = item.id → Conditioned env par r) ∧ ¬ Exits env par r cpn
  | _ => True

instance Exits.decidable (r : Run D) (cpn : Cpn) : Decidable (Exits env par r cpn) :=
  inferInstanceAs (Decidable (_ ∧ _ ∧ _))

instance Conditioned.decidable (r : Run D) : Decidable (Conditioned env par r) :=
  inferInstanceAs (Decidable (_ → _))

instance LoopStep.decidable (r : Run D) : ∀ choice, Decidable (LoopStep w env par item r choice)
  | .schedule => isTrue trivial
  | .start _ => isTrue trivial
  | .finish _ _ _ => isTrue trivial
  | .post _ => inferInstanceAs (Decidable (∀ cpn ∈ r.next w,
      (cpn.id = item.id → Conditioned env par r) ∧ ¬ Exits env par r cpn))

/-- A termination condition held. -/
def Held (events : List Event) : Prop :=
  ∃ conditions, .tested item.id conditions ∈ events ∧ true ∈ conditions

/-- What the item of a loop does; `strict` says that the steps meet `LoopStep`. -/
def loopConduct (strict : Prop) : Conduct where
  idle _ p events := ∃ k : ℕ, p = k ∧ k ≤ env.maximumLoopCount par.id ∧ bodies events = k
  done _ p events :=
    (∃ k : ℕ, p = k + 1 ∧ k < env.maximumLoopCount par.id ∧ bodies events = k) ∨
    p = -1 ∧ bodies events = env.maximumLoopCount par.id
  gone _ events :=
    bodies events ≤ env.maximumLoopCount par.id ∧
      (strict → bodies events = env.maximumLoopCount par.id ∨ Held item events)

variable {w env par item} {r r' : Run D} {strict : Prop}

/-- An invocation of the item advances the position or comes to the end. -/
theorem ItemOf.invoke_loopItem (hitem : ItemOf w par item) (hkind : item.kind = .loopItem) {k : ℕ}
    (hpos : r.pos item.id = k) (result : D) :
    (invoke w env r item result .no).pos item.id =
        (if env.maximumLoopCount par.id ≤ k then -1 else (k : ℤ) + 1) ∧
      (invoke w env r item result .no).events = [] := by
  have hinvoke : invoke w env r item result .no = invokeLoopItem env r item par .no := by
    simp [invoke, hitem.isItem, hitem.getParent, hkind]
  rw [hinvoke]
  unfold invokeLoopItem
  rw [if_neg (by simp), hpos]
  by_cases hmax : env.maximumLoopCount par.id ≤ k
  · simp [hmax]
  · simp [hmax]

theorem loop_invoke (hitem : ItemOf w par item) (hkind : item.kind = .loopItem) {result : D}
    {arr : Option (List Value)} {events : List Event}
    (h : (loopConduct env par item strict).idle arr (r.pos item.id) events) :
    (loopConduct env par item strict).done arr ((invoke w env r item result .no).pos item.id)
      ((invoke w env r item result .no).events ++ events) := by
  obtain ⟨k, hpos, hle, hbodies⟩ := h
  obtain ⟨hpos', hevents⟩ := hitem.invoke_loopItem hkind hpos result
  rw [hpos', hevents, List.nil_append]
  by_cases hmax : env.maximumLoopCount par.id ≤ k
  · rw [if_pos hmax]
    exact Or.inr ⟨rfl, by omega⟩
  · rw [if_neg hmax]
    exact Or.inl ⟨k, rfl, by omega, hbodies⟩

/-- The end test of the item: the end has been noted, or the termination conditions decide. -/
theorem ItemOf.endTest_loopItem (hitem : ItemOf w par item) (hkind : item.kind = .loopItem)
    {ended : Bool} {pos : CpnId → ℤ} {tested : List Event}
    (h : endTest w env r item = some (ended, pos, tested)) :
    (r.pos item.id = -1 ∧ ended = true ∧ tested = []) ∨
    ∃ conditions operator, r.pos item.id ≠ -1 ∧ env.conditions r.data par.id = some conditions ∧
      env.logicalOperator par.id = some operator ∧
      ended = operator.combine conditions ∧
      (ended = false → pos = r.pos) ∧ tested = [.tested item.id conditions] := by
  simp only [endTest, hkind] at h
  split at h
  · rename_i hend
    cases h
    exact Or.inl ⟨hend, rfl, rfl⟩
  · rename_i hend
    obtain ⟨parent, hparent, h⟩ := Option.bind_eq_some_iff.mp h
    rw [hitem.getParent] at hparent
    cases hparent
    obtain ⟨conditions, hconditions, h⟩ := Option.bind_eq_some_iff.mp h
    obtain ⟨operator, hoperator, h⟩ := Option.bind_eq_some_iff.mp h
    cases h
    refine Or.inr ⟨conditions, operator, hend, hconditions, hoperator, rfl, ?_, rfl⟩
    intro hfalse
    exact if_neg (by simp [hfalse])

/-- Conditions that end the loop are none that were to hold together, or one of them holds. -/
theorem true_mem_of_combine {operator : LogicalOperator} {conditions : List Bool}
    (h : operator.combine conditions = true) :
    true ∈ conditions ∨ (operator = .and ∧ conditions = []) := by
  cases operator with
  | and =>
      cases conditions with
      | nil => exact Or.inr ⟨rfl, rfl⟩
      | cons b conditions =>
          have hb : b = true := by simpa using (List.all_eq_true.mp h) b List.mem_cons_self
          rw [hb]
          exact Or.inl List.mem_cons_self
  | or =>
      obtain ⟨b, hb, htrue⟩ := List.any_eq_true.mp h
      rw [id_eq] at htrue
      rw [htrue] at hb
      exact Or.inl hb

theorem loop_post (hitem : ItemOf w par item) (hkind : item.kind = .loopItem) {result : D}
    {arr : Option (List Value)} {after : Aftermath} {events : List Event}
    (hc : strict → LoopStep w env par item r (.post result)) (hnext : r.next w = some item)
    (hafter : aftermath w env r item = some after)
    (h : (loopConduct env par item strict).done arr (r.pos item.id) events) :
    if after.ended then
      (loopConduct env par item strict).gone arr (after.events ++ after.tested ++ events)
    else (loopConduct env par item strict).idle arr (after.pos item.id)
      (after.events ++ after.tested ++ events) := by
  obtain ⟨hend, htargets⟩ := aftermath_eq_some hafter
  have hevents := hitem.targets_eq htargets
  rcases hitem.endTest_loopItem hkind hend with
    ⟨hpos, hended, htested⟩ |
    ⟨conditions, operator, hpos, hconditions, hoperator, hended, hkeep, htested⟩
  · -- The bound was reached.
    rcases h with ⟨k, hk, -, -⟩ | ⟨-, hbodies⟩
    · omega
    · rw [hended] at hevents ⊢
      rw [if_pos rfl, hevents, htested]
      have hcount : bodies (.left item.id :: events) = env.maximumLoopCount par.id :=
        (bodies_cons _ _).trans hbodies
      exact ⟨hcount.le, fun _ => Or.inl hcount⟩
  · rcases h with ⟨k, hk, hlt, hbodies⟩ | ⟨hk, -⟩
    · cases htrue : after.ended with
      | true =>
          rw [htrue] at hevents hended
          rw [if_pos rfl, hevents, htested]
          have hcount : bodies (.left item.id :: .tested item.id conditions :: events) = k := by
            rw [bodies_cons, bodies_cons, hbodies]
            rfl
          refine ⟨hcount.trans_le hlt.le, fun hstrict => Or.inr ⟨conditions, by simp, ?_⟩⟩
          refine (true_mem_of_combine hended.symm).resolve_right ?_
          rintro ⟨rfl, rfl⟩
          exact (hc hstrict item hnext).1 rfl hconditions hoperator
      | false =>
          rw [htrue] at hevents
          rw [if_neg (by simp), hevents, htested, hkeep htrue, hk]
          refine ⟨k + 1, by simp, by omega, ?_⟩
          exact (bodies_cons _ _).trans (congrArg (· + 1) ((bodies_cons _ _).trans hbodies))
    · exact absurd hk hpos

theorem loop_lawful (hitem : ItemOf w par item) (hkind : item.kind = .loopItem) :
    (loopConduct env par item strict).Lawful w env par item
      (fun r choice => strict → LoopStep w env par item r choice) where
  enter := fun _ => ⟨0, rfl, Nat.zero_le _, rfl⟩
  invoke := fun _ _ _ h => loop_invoke hitem hkind h
  post := fun hc hnext _ hafter h => loop_post hitem hkind hc hnext hafter h

/-! ### `ExitLoop` -/

/-- Only the post-processing of an `ExitLoop` notes that it has scheduled what follows the loop. -/
theorem exited_of_step {choice : Choice D} (hstep : Steps w env r choice r')
    (h : .exited par.id ∈ r'.log) :
    .exited par.id ∈ r.log ∨
      ∃ result cpn, choice = .post result ∧ r.next w = some cpn ∧ Exits env par r cpn := by
  cases choice with
  | schedule =>
      obtain ⟨-, -, ids, -, rfl⟩ := step_schedule hstep
      exact Or.inl h
  | start k =>
      obtain ⟨c, -, -, rfl⟩ := step_start hstep
      exact Or.inl (by simpa using h)
  | finish k result canceled =>
      obtain ⟨c, cpn, -, -, rfl⟩ := step_finish hstep
      rcases List.mem_append.mp h with he | he
      · rcases invoke_events he with ⟨values, heq⟩ | ⟨i, v, heq⟩ <;> cases heq
      · exact Or.inl he
  | post result =>
      obtain ⟨cpn, rest, after, hbatch, -, hcpn, hposted⟩ := step_post hstep
      obtain ⟨hend, htargets⟩ := aftermath_eq_some hposted.after_eq
      have htested : .exited par.id ∉ after.tested := by
        intro he
        obtain ⟨conditions, heq⟩ := (endTest_spec hend).2 _ he
        cases heq
      rw [hposted.log_eq] at h
      rcases List.mem_append.mp h with he | he
      · split at he
        case isTrue => exact absurd he htested
        case isFalse hbranch =>
          have he := (List.mem_append.mp he).resolve_right htested
          rcases targets_events htargets _ he with
            heq | ⟨cs, heq⟩ | ⟨start, arr, -, heq⟩ | ⟨loop, hexit, hparent, heq⟩
          · cases heq
          · cases heq
          · cases heq
          · cases heq
            -- An `ExitLoop` streams nothing.
            have hstreamed : streamed r cpn result = r := if_neg (by simp [hexit])
            rw [hstreamed] at hbranch
            exact Or.inr ⟨result, cpn, rfl, next_eq hbatch hcpn, hexit, hparent,
              by simpa using hbranch⟩
      · exact Or.inl he

/-- In a run whose steps meet the condition no `ExitLoop` of the loop schedules what follows it. -/
theorem not_exited_run {run : List (Choice D × Run D)} (hrun : IsRun (Steps w env) r run)
    (hsteps : AllSteps (LoopStep w env par item) r run) (h : .exited par.id ∉ r.log) :
    ∀ x ∈ run, .exited par.id ∉ x.2.log := by
  refine states_of_steps (fun r => .exited par.id ∉ r.log) ?_ run h hrun hsteps
  intro r choice r' hnot hc hstep hexited
  rcases exited_of_step hstep hexited with hlog | ⟨result, cpn, rfl, hnext, hexits⟩
  · exact hnot hlog
  · exact (hc cpn hnext).2 hexits

/-! ### The bound -/

/-- Since the item was last entered what follows the loop has been scheduled, by the item or by an
`ExitLoop`. -/
def Departed (par item : Cpn) (log : List Event) : Prop :=
  .left item.id ∈ since item.id log ∨ .exited par.id ∈ lately item.id log

/-- What is to hold of a loop since it was entered. -/
def Bounded (env : Env D) (par item : Cpn) (log : List Event) : Prop :=
  bodies (since item.id log) ≤ env.maximumLoopCount par.id ∧
    (Departed par item log → ¬ Held item (since item.id log) →
      bodies (since item.id log) = env.maximumLoopCount par.id)

theorem Phase.bounded (h : Phase (loopConduct env par item strict) item.id r)
    (hentry : (entry item.id r.log).isSome) :
    bodies (since item.id r.log) ≤ env.maximumLoopCount par.id ∧
      (strict → .left item.id ∈ since item.id r.log → ¬ Held item (since item.id r.log) →
        bodies (since item.id r.log) = env.maximumLoopCount par.id) := by
  have hnotleft : underWay item.id r.log = true → .left item.id ∉ since item.id r.log := by
    intro hway hleft
    rw [underWay, Bool.and_eq_true, Bool.not_eq_true', List.any_eq_false] at hway
    exact hway.2 _ hleft rfl
  cases h with
  | fresh he hp =>
      rw [he] at hentry
      cases hentry
  | gone arr he hu hp h => exact ⟨h.1, fun hstrict _ hnot => (h.2 hstrict).resolve_right hnot⟩
  | idle arr he hu hd h =>
      obtain ⟨k, -, hle, hbodies⟩ := h
      exact ⟨by omega, fun _ hleft => absurd hleft (hnotleft hu)⟩
  | done arr he hu hd h =>
      refine ⟨?_, fun _ hleft => absurd hleft (hnotleft hu)⟩
      rcases h with ⟨k, -, hlt, hbodies⟩ | ⟨-, hbodies⟩
      · omega
      · omega

end loop

/-- **Loops.** In a run in which the item is entered at position zero and is scheduled once at a
time, the body is scheduled at most `maximum_loop_count` times since the loop was last entered.  If
no `ExitLoop` takes effect and the conditions are not none, it is scheduled as often as that when
what follows the loop is scheduled without a termination condition that held. -/
theorem loop_bounded (w : Workflow) (env : Env D) (par item : Cpn) (hitem : ItemOf w par item)
    (hkind : par.kind = .loop) (before : List CpnId) (c : CpnId) (hc : c ≠ item.id)
    (pos : CpnId → ℤ) (data : D) (run : List (Choice D × Run D))
    (hrun : IsRun (Steps w env) (Run.initial before c pos data) run)
    (hsteps : AllSteps (ItemStep w env par item.id) (Run.initial before c pos data) run) :
    ∀ x ∈ run, (entry item.id x.2.log).isSome →
      bodies (since item.id x.2.log) ≤ env.maximumLoopCount par.id ∧
        (AllSteps (LoopStep w env par item) (Run.initial before c pos data) run →
          Bounded env par item x.2.log) := by
  have hkind' : item.kind = .loopItem := by
    rcases hitem.kinds with ⟨h, -⟩ | ⟨-, h⟩
    · rw [hkind] at h
      cases h
    · exact h
  let strict := AllSteps (LoopStep w env par item) (Run.initial before c pos data) run
  have hboth : AllSteps (fun r choice => ItemStep w env par item.id r choice ∧
      (strict → LoopStep w env par item r choice)) (Run.initial before c pos data) run := by
    by_cases hstrict : strict
    · rw [allSteps_and]
      exact ⟨hsteps, (allSteps_congr (fun _ _ => (imp_iff_right hstrict).symm) run).mp hstrict⟩
    · refine (allSteps_congr (fun _ _ => (and_iff_left ?_).symm) run).mp hsteps
      exact fun h => absurd h hstrict
  intro x hx hentry
  obtain ⟨hle, hleft⟩ :=
    (itemInv_run hitem (loop_lawful hitem hkind') hc hrun hboth x hx).phase.bounded hentry
  refine ⟨hle, fun hstrict => ⟨hle, fun hdeparted => hleft hstrict ?_⟩⟩
  refine hdeparted.resolve_right fun hexited => ?_
  exact not_exited_run hrun hstrict List.not_mem_nil x hx ((List.takeWhile_subset _) hexited)

/-! ### A loop within an iteration -/

theorem itemOf_nestedLoop : ItemOf (nested .loop .loopItem) (innerParent .loop)
    (innerItem .loopItem) where
  par_get := rfl
  item_get := rfl
  parent := rfl
  start := rfl
  kinds := Or.inr ⟨rfl, rfl⟩

/-- The first element of the outer iteration. -/
theorem loop_bounded_first :
    ∃ run, IsRun (Steps (nested .loop .loopItem) nestedEnv) nestedStart run ∧
      run.any (fun x => (since ['l'] x.2.log).any Event.isLeft) = true ∧
      ∀ x ∈ run, (entry ['l'] x.2.log).isSome →
        Bounded nestedEnv (innerParent .loop) (innerItem .loopItem) x.2.log := by
  obtain ⟨run, hrun, hp⟩ := exists_run_of_trace (nested .loop .loopItem) nestedEnv nestedStart
    (batches 7) (p := fun run => decide (AllSteps (fun r choice =>
      ItemStep (nested .loop .loopItem) nestedEnv (innerParent .loop) ['l'] r choice ∧
      LoopStep (nested .loop .loopItem) nestedEnv (innerParent .loop) (innerItem .loopItem) r
        choice) nestedStart run) &&
      run.any (fun x => (since ['l'] x.2.log).any Event.isLeft)) (by decide +kernel)
  rw [Bool.and_eq_true, decide_eq_true_eq, allSteps_and] at hp
  refine ⟨run, hrun, hp.2, fun x hx hentry => ?_⟩
  exact (loop_bounded _ nestedEnv _ _ itemOf_nestedLoop rfl [] ['b'] (by decide) (fun _ => 0) () run
    hrun hp.1.1 x hx hentry).2 hp.1.2

/-- With the second element of the outer iteration the loop is entered again, at the position `-1`,
and its body is scheduled twice. -/
theorem loop_entered_twice :
    ¬ ∀ (w : Workflow) (env : Env Unit) (par item : Cpn), ItemOf w par item →
      par.kind = .loop → ∀ c data run, c ≠ item.id →
      IsRun (Steps w env) (Run.initial [] c (fun _ => 0) data) run →
      AllSteps (fun _ choice => uncanceled choice = true) (Run.initial [] c (fun _ => 0) data) run →
      ∀ x ∈ run, (entry item.id x.2.log).isSome → Bounded env par item x.2.log := by
  intro h
  obtain ⟨run, hrun, hp⟩ := exists_run_of_trace (nested .loop .loopItem) nestedEnv nestedStart
    (batches 13) (p := fun run =>
      decide (AllSteps (fun _ choice => uncanceled choice = true) nestedStart run) &&
      run.any (fun x => (entry ['l'] x.2.log).isSome &&
        decide (1 < bodies (since ['l'] x.2.log)))) (by decide +kernel)
  rw [Bool.and_eq_true, decide_eq_true_eq] at hp
  obtain ⟨x, hx, htwice⟩ := List.any_eq_true.mp hp.2
  rw [Bool.and_eq_true, decide_eq_true_eq] at htwice
  have hbounded := h _ nestedEnv _ _ itemOf_nestedLoop rfl ['b'] () run (by decide) hrun hp.1 x hx
    htwice.1
  exact absurd htwice.2 (Nat.not_lt.mpr hbounded.1)

end RagFlow.Agent.Flow
