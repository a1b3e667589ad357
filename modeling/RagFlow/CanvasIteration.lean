import RagFlow.CanvasItems

/-! # Iterations

What an iteration is to do with an array: publish the elements one by one with their indices, run
the body after each, and add one entry to each of the collected outputs before the next.  `Rounds`
lists these events, and `iteration_iterates` says that what the item does follows them, whenever the
iteration is entered at position zero and the item is scheduled once at a time.

The position is not reset when the item comes to the end, and entering the iteration does not reset
it either.  An iteration that is entered again starts with the last element and the index `-1`
(`iteration_entered_twice`). -/

namespace RagFlow.Agent.Flow

open Py Transition

variable {D : Type}

/-! ### Collation -/

/-- The outputs of an iteration that refer to one of its components. -/
def collected (w : Workflow) (par : Cpn) : List (Str × CpnId × Str) :=
  par.outputRefs.filter (fun o => (w.components.get? o.2.1).any (·.parentId = some par.id))

/-- The entry of a collected output. -/
def entryOf (env : Env D) (data : D) (o : Str × CpnId × Str) : Str × Value :=
  (o.1, env.output data o.2.1 o.2.2)

/-- One entry for each collected output. -/
def OnePerOutput (w : Workflow) (env : Env D) (par : Cpn) (values : List (Str × Value)) : Prop :=
  ∃ data, values.Perm ((collected w par).map (entryOf env data))

theorem filter_or_perm {α : Type} {p q : α → Bool} {xs : List α}
    (h : ∀ x ∈ xs, p x → q x = false) :
    (xs.filter p ++ xs.filter q).Perm (xs.filter (fun x => p x || q x)) := by
  induction xs with
  | nil => exact List.Perm.nil
  | cons x xs ih =>
      have ih := ih (fun y hy => h y (List.mem_cons_of_mem _ hy))
      have hx := h x List.mem_cons_self
      cases hp : p x with
      | true => simpa [List.filter_cons, hp, hx hp] using ih
      | false =>
          cases hq : q x with
          | true => simpa [List.filter_cons, hp, hq] using List.perm_middle.trans (ih.cons x)
          | false => simpa [List.filter_cons, hp, hq] using ih

theorem collation_rows_perm (env : Env D) (data : D) (par : Cpn) (rows : List Cpn)
    (hnodup : (rows.map Cpn.id).Nodup) :
    (rows.flatMap (fun x =>
      if x.parentId = some par.id then
        (par.outputRefs.filter (·.2.1 = x.id)).map (fun o => (o.1, env.output data x.id o.2.2))
      else [])).Perm
    ((par.outputRefs.filter (fun o =>
      rows.any (fun x => x.id = o.2.1 ∧ x.parentId = some par.id))).map (entryOf env data)) := by
  induction rows with
  | nil => simp
  | cons x rows ih =>
      obtain ⟨hx, hnodup⟩ := List.nodup_cons.mp hnodup
      have ih := ih hnodup
      rw [List.flatMap_cons]
      by_cases hpar : x.parentId = some par.id
      · have hfirst : (par.outputRefs.filter (·.2.1 = x.id)).map
            (fun o => (o.1, env.output data x.id o.2.2)) =
            (par.outputRefs.filter (·.2.1 = x.id)).map (entryOf env data) := by
          refine List.map_congr_left (fun o ho => ?_)
          have href : o.2.1 = x.id := by simpa using (List.mem_filter.mp ho).2
          rw [entryOf, href]
        rw [if_pos hpar, hfirst]
        refine (ih.append_left _).trans ?_
        rw [← List.map_append]
        refine List.Perm.map _ ((filter_or_perm ?_).trans ?_)
        · intro o _ href
          simp only [decide_eq_true_eq] at href
          rw [List.any_eq_false]
          intro y hy
          simp only [decide_eq_true_eq, not_and]
          intro hid
          have hmem : y.id ∈ rows.map Cpn.id := List.mem_map_of_mem hy
          rw [hid, href] at hmem
          exact absurd hmem hx
        · refine List.Perm.of_eq (List.filter_congr (fun o _ => ?_))
          simp [hpar, eq_comm]
      · rw [if_neg hpar]
        simpa [hpar] using ih

theorem collation_onePerOutput (w : Workflow) (env : Env D) (data : D) (par : Cpn) :
    OnePerOutput w env par (collation w env data par) := by
  refine ⟨data, (collation_rows_perm env data par _ w.components.nodup).trans ?_⟩
  refine List.Perm.of_eq (congrArg _ (List.filter_congr (fun o _ => ?_)))
  cases hget : w.components.get? o.2.1 with
  | none =>
      have hnone := Table.get?_eq_none.mp hget
      simp only [Option.any_none, List.any_eq_false, decide_eq_true_eq, not_and]
      intro x hx hid
      exact absurd hid (hnone x hx)
  | some x =>
      obtain ⟨hx, hid⟩ := Table.get?_eq_some.mp hget
      rw [Bool.eq_iff_iff]
      simp only [List.any_eq_true, decide_eq_true_eq, Option.any_some]
      constructor
      · rintro ⟨y, hy, hyid, hparent⟩
        rw [← w.components.eq_of_key_eq hy hx (hyid.trans hid.symm)]
        exact hparent
      · intro hparent
        exact ⟨x, hx, hid, hparent⟩

/-! ### What an iteration is to do -/

/-- The components that an item schedules as the body. -/
def bodyOf (item : Cpn) : List CpnId :=
  if item.downstream = [] then [item.id] else item.downstream

section iteration
variable (w : Workflow) (env : Env D) (par item : Cpn)

/-- The events of `k` rounds, the latest first: an element is published, the body is scheduled, and
one entry is added to each collected output. -/
inductive Rounds (arr : List Value) : ℕ → List Event → Prop
  | zero : Rounds arr 0 []
  | succ {k : ℕ} {v : Value} {values : List (Str × Value)} {events : List Event}
      (h : Rounds arr k events) (hv : arr[k]? = some v) (hvalues : OnePerOutput w env par values) :
      Rounds arr (k + 1) (.collated item.id values :: .body item.id (bodyOf item) ::
        .published item.id k v :: events)

/-- The events of an iteration over the array, from its beginning: some rounds and perhaps a part of
the next; it is left after as many rounds as there are elements. -/
inductive Iterates (arr : List Value) : List Event → Prop
  | rounds {k : ℕ} {events : List Event} (h : Rounds w env par item arr k events) :
      Iterates arr events
  | published {k : ℕ} {v : Value} {events : List Event} (h : Rounds w env par item arr k events)
      (hv : arr[k]? = some v) : Iterates arr (.published item.id k v :: events)
  | body {k : ℕ} {v : Value} {events : List Event} (h : Rounds w env par item arr k events)
      (hv : arr[k]? = some v) :
      Iterates arr (.body item.id (bodyOf item) :: .published item.id k v :: events)
  | left {events : List Event} (h : Rounds w env par item arr arr.length events) :
      Iterates arr (.left item.id :: events)

/-- The conditions on the steps of an iteration: the array is the one with which it was entered, and
no part of the body is left out of the path because it is its last. -/
def IterationStep (r : Run D) : Choice D → Prop
  | .finish k _ _ => ∀ x ∈ r.batch[k]?, x.1 = item.id →
      (env.items r.data par.id).isSome ∧ entry item.id r.log = some (env.items r.data par.id)
  | .post _ => ∀ cpn ∈ r.next w, cpn.id = item.id → r.pos item.id ≠ -1 →
      newEntries r.path.getLast? (bodyOf item) = bodyOf item
  | _ => True

instance IterationStep.decidable (r : Run D) :
    ∀ choice, Decidable (IterationStep w env par item r choice)
  | .schedule => isTrue trivial
  | .start _ => isTrue trivial
  | .finish k _ _ => inferInstanceAs (Decidable (∀ x ∈ r.batch[k]?, x.1 = item.id →
      (env.items r.data par.id).isSome ∧ entry item.id r.log = some (env.items r.data par.id)))
  | .post _ => inferInstanceAs (Decidable (∀ cpn ∈ r.next w, cpn.id = item.id →
      r.pos item.id ≠ -1 → newEntries r.path.getLast? (bodyOf item) = bodyOf item))

/-! ### What the item does -/

/-- The item is at the position `k`: it has published `k` elements, and the last of them has not
been collated. -/
inductive Half (arr : List Value) : ℕ → List Event → Prop
  | zero : Half arr 0 []
  | succ {k : ℕ} {v : Value} {events : List Event} (h : Rounds w env par item arr k events)
      (hv : arr[k]? = some v) :
      Half arr (k + 1) (.body item.id (bodyOf item) :: .published item.id k v :: events)

def iterationConduct : Conduct where
  idle arr p events := ∃ k : ℕ, p = k ∧ Half w env par item (arr.getD []) k events
  done arr p events :=
    (∃ (k : ℕ) (v : Value) (before : List Event), p = k + 1 ∧ (arr.getD [])[k]? = some v ∧
      Rounds w env par item (arr.getD []) k before ∧
      events = .published item.id k v :: before) ∨
    p = -1 ∧ Rounds w env par item (arr.getD []) (arr.getD []).length events
  gone arr events :=
    ∃ before, events = .left item.id :: before ∧
      Rounds w env par item (arr.getD []) (arr.getD []).length before

variable {w env par item} {r : Run D}

theorem Half.le_length {arr : List Value} {k : ℕ} {events : List Event}
    (h : Half w env par item arr k events) : k ≤ arr.length := by
  cases h with
  | zero => exact Nat.zero_le _
  | succ _ hv => exact (List.getElem?_eq_some_iff.mp hv).1

theorem element?_natCast (arr : List Value) (k : ℕ) : element? arr k = arr[k]? := by
  simp [element?]

/-- What an invocation of the item does: it collates, and then publishes the next element or comes
to the end. -/
theorem ItemOf.invoke_iterationItem (hitem : ItemOf w par item) (hkind : item.kind = .iterationItem)
    {arr : List Value} (harr : env.items r.data par.id = some arr) {k : ℕ}
    (hpos : r.pos item.id = k) (hk : k ≤ arr.length) (result : D) :
    (∃ v, arr[k]? = some v ∧ (invoke w env r item result .no).pos item.id = k + 1 ∧
      (invoke w env r item result .no).events =
        .published item.id k v :: (collated w env r item par).2) ∨
    (k = arr.length ∧ (invoke w env r item result .no).pos item.id = -1 ∧
      (invoke w env r item result .no).events = (collated w env r item par).2) := by
  have hinvoke : invoke w env r item result .no = invokeIterationItem w env r item par .no := by
    simp [invoke, hitem.isItem, hitem.getParent, hkind]
  rw [hinvoke]
  unfold invokeIterationItem
  rw [if_neg (by simp), harr, hpos]
  by_cases hend : arr.length ≤ k
  · refine Or.inr ⟨by omega, ?_⟩
    simp [hend]
  · have hlt : k < arr.length := by omega
    refine Or.inl ⟨arr[k], List.getElem?_eq_getElem hlt, ?_⟩
    simp [hlt, hend, element?_natCast]

theorem iteration_invoke (hitem : ItemOf w par item) (hkind : item.kind = .iterationItem)
    {k : ℕ} {result : D} {arr : Option (List Value)}
    (hc : IterationStep w env par item r (.finish k result .no))
    (hk : r.batch[k]? = some (item.id, .running)) (hentry : entry item.id r.log = some arr)
    (h : (iterationConduct w env par item).idle arr (r.pos item.id) (since item.id r.log)) :
    (iterationConduct w env par item).done arr ((invoke w env r item result .no).pos item.id)
      ((invoke w env r item result .no).events ++ since item.id r.log) := by
  obtain ⟨hsome, hentry'⟩ := hc _ hk rfl
  obtain ⟨arr', harr⟩ := Option.isSome_iff_exists.mp hsome
  rw [hentry, harr] at hentry'
  cases hentry'
  obtain ⟨j, hpos, hhalf⟩ := h
  have hcollated : Rounds w env par item arr' j
      ((collated w env r item par).2 ++ since item.id r.log) := by
    generalize since item.id r.log = events at hhalf
    cases hhalf with
    | zero => simpa [collated, hpos] using Rounds.zero
    | succ hrounds hv =>
        simpa [collated, hpos, Int.natCast_succ_pos] using
          Rounds.succ hrounds hv (collation_onePerOutput w env r.data par)
  obtain ⟨v, hv, hpos', hevents⟩ | ⟨hj, hpos', hevents⟩ :=
    hitem.invoke_iterationItem hkind harr hpos hhalf.le_length result
  · exact Or.inl ⟨j, v, _, hpos', hv, hcollated, by rw [hevents]; rfl⟩
  · refine Or.inr ⟨hpos', ?_⟩
    rw [hevents, Option.getD_some, ← hj]
    exact hcollated

/-- The body of an item that has not come to the end. -/
theorem ItemOf.targets_body (hitem : ItemOf w par item) {cpns : List CpnId} {events : List Event}
    (h : targets w env r item false = some (cpns, events)) : cpns = bodyOf item := by
  have hfollow : follow w r item = some (cpns, events) := by
    unfold targets at h
    rcases hitem.kinds with ⟨-, hkind⟩ | ⟨-, hkind⟩ <;> simpa [hkind] using h
  unfold follow at hfollow
  unfold bodyOf
  by_cases hdown : item.downstream = []
  · rw [if_pos ⟨hdown, by simp [hitem.parent]⟩, hitem.getParent] at hfollow
    simp only [Option.bind_eq_bind, Option.bind_some, hitem.start] at hfollow
    cases hfollow
    rw [if_pos hdown]
  · rw [if_neg (fun h => hdown h.1)] at hfollow
    cases hfollow
    rw [if_neg hdown]

theorem iteration_post (hitem : ItemOf w par item) (hkind : item.kind = .iterationItem)
    {result : D} {arr : Option (List Value)} {after : Aftermath}
    (hc : IterationStep w env par item r (.post result)) (hnext : r.next w = some item)
    (hafter : aftermath w env r item = some after)
    (h : (iterationConduct w env par item).done arr (r.pos item.id) (since item.id r.log)) :
    if after.ended then (iterationConduct w env par item).gone arr
        (after.events ++ after.tested ++ since item.id r.log)
    else (iterationConduct w env par item).idle arr (after.pos item.id)
      (after.events ++ after.tested ++ since item.id r.log) := by
  obtain ⟨hend, htargets⟩ := aftermath_eq_some hafter
  simp only [endTest, hkind, Option.some.injEq, Prod.mk.injEq] at hend
  obtain ⟨hended, hpos, htested⟩ := hend
  have hevents := hitem.targets_eq htargets
  rcases h with ⟨k, v, before, hk, hv, hrounds, hsince⟩ | ⟨hk, hrounds⟩
  · have hfalse : after.ended = false := by
      rw [← hended, hk]
      simpa using (by omega : (k : ℤ) + 1 ≠ -1)
    rw [hfalse] at htargets hevents ⊢
    have hbody := hc item hnext rfl (by omega)
    rw [hitem.targets_body htargets, hbody] at hevents
    rw [if_neg (by simp), hevents, ← htested, ← hpos, hk, hsince]
    exact ⟨k + 1, by simp, Half.succ hrounds hv⟩
  · have htrue : after.ended = true := by
      rw [← hended]
      simpa using hk
    rw [htrue] at hevents ⊢
    rw [if_pos rfl, hevents, ← htested]
    exact ⟨_, rfl, hrounds⟩

theorem iteration_lawful (hitem : ItemOf w par item) (hkind : item.kind = .iterationItem) :
    (iterationConduct w env par item).Lawful w env par item (IterationStep w env par item) where
  enter := fun _ => ⟨0, rfl, Half.zero⟩
  invoke := fun hc hk hentry h => iteration_invoke hitem hkind hc hk hentry h
  post := fun hc hnext _ hafter h => iteration_post hitem hkind hc hnext hafter h

theorem Phase.iterates {a : CpnId} {arr : List Value}
    (h : Phase (iterationConduct w env par item) a r) (hentry : entry a r.log = some (some arr)) :
    Iterates w env par item arr (since a r.log) := by
  cases h with
  | fresh he hp =>
      rw [he] at hentry
      cases hentry
  | gone arr' he hu hp h =>
      obtain ⟨before, hsince, hrounds⟩ := h
      rw [he] at hentry
      cases hentry
      rw [hsince]
      exact .left hrounds
  | idle arr' he hu hd h =>
      obtain ⟨k, -, hhalf⟩ := h
      rw [he] at hentry
      cases hentry
      generalize since a r.log = events at hhalf ⊢
      cases hhalf with
      | zero => exact .rounds .zero
      | succ hrounds hv => exact .body hrounds hv
  | done arr' he hu hd h =>
      rw [he] at hentry
      cases hentry
      rcases h with ⟨k, v, before, -, hv, hrounds, hsince⟩ | ⟨-, hrounds⟩
      · rw [hsince]
        exact .published hrounds hv
      · exact .rounds hrounds

end iteration

/-- **Iterations.** In a run in which the item is entered at position zero, is scheduled once at a
time and finds the same array, what it has done since it was last entered follows the rounds of an
iteration over the array. -/
theorem iteration_iterates (w : Workflow) (env : Env D) (par item : Cpn) (hitem : ItemOf w par item)
    (hkind : par.kind = .iteration) (before : List CpnId) (c : CpnId) (hc : c ≠ item.id)
    (pos : CpnId → ℤ) (data : D) (run : List (Choice D × Run D))
    (hrun : IsRun (Steps w env) (Run.initial before c pos data) run)
    (hsteps : AllSteps (fun r choice => ItemStep w env par item.id r choice ∧
      IterationStep w env par item r choice) (Run.initial before c pos data) run) :
    ∀ x ∈ run, ∀ arr, entry item.id x.2.log = some (some arr) →
      Iterates w env par item arr (since item.id x.2.log) := by
  have hkind' : item.kind = .iterationItem := by
    rcases hitem.kinds with ⟨-, h⟩ | ⟨h, -⟩
    · exact h
    · rw [hkind] at h
      cases h
  intro x hx arr hentry
  have hinv := itemInv_run hitem (iteration_lawful hitem hkind') hc hrun hsteps x hx
  exact hinv.phase.iterates hentry

/-! ### An iteration within an iteration -/

/-- The indices of an iteration are not negative. -/
theorem Iterates.index_nonneg {w : Workflow} {env : Env D} {par item : Cpn} {arr : List Value}
    {events : List Event} (h : Iterates w env par item arr events) {a : CpnId} {i : ℤ} {v : Value}
    (hi : .published a i v ∈ events) : 0 ≤ i := by
  have hrounds : ∀ {k events}, Rounds w env par item arr k events →
      .published a i v ∈ events → 0 ≤ i := by
    intro k events h
    induction h with
    | zero => simp
    | succ h hv hvalues ih => grind
  cases h with
  | rounds h => exact hrounds h hi
  | published h hv => grind
  | body h hv => grind
  | left h => grind

def innerParent (kind : Kind) : Cpn :=
  { id := ['k'], kind, downstream := [['y']], parentId := some ['i']
    outputRefs := [(['o'], ['x'], ['v'])] }

def innerItem (kind : Kind) : Cpn :=
  { id := ['l'], kind, downstream := [['x']], parentId := some ['k'] }

/-- An iteration `i` with the item `j`, whose body is an iteration or loop `k` and a component `y`;
the item of `k` is `l`, and its body is `x`. -/
def nested (kind itemKind : Kind) : Workflow where
  components := ⟨[
    { id := ['b'], kind := .beginning, downstream := [['i']] },
    { id := ['i'], kind := .iteration, downstream := [] },
    { id := ['j'], kind := .iterationItem, downstream := [['k']], parentId := some ['i'] },
    innerParent kind,
    innerItem itemKind,
    { id := ['x'], kind := .other, downstream := [], parentId := some ['k'] },
    { id := ['y'], kind := .other, downstream := [], parentId := some ['i'] }],
    by simp [innerParent, innerItem]⟩

/-- The outer array has two elements, the inner one; the inner loop runs once. -/
def nestedEnv : Env Unit :=
  { bareEnv with
    items := fun _ c => some (if c = ['i'] then [.int 1, .int 2] else [.int 7])
    maximumLoopCount := fun _ => 1
    conditions := fun _ _ => some [false]
    logicalOperator := fun _ => some .and }

def nestedStart : Run Unit := Run.initial [] ['b'] (fun _ => 0) ()

/-- Run the next `n` batches, of one component each. -/
def batches (n : ℕ) : List (Choice Unit) :=
  (List.replicate n [.schedule, .start 0, .finish 0 () .no, .post ()]).flatten

theorem itemOf_nested : ItemOf (nested .iteration .iterationItem) (innerParent .iteration)
    (innerItem .iterationItem) where
  par_get := rfl
  item_get := rfl
  parent := rfl
  start := rfl
  kinds := Or.inl ⟨rfl, rfl⟩

/-- The first element of the outer iteration. -/
theorem iteration_iterates_first :
    ∃ run, IsRun (Steps (nested .iteration .iterationItem) nestedEnv) nestedStart run ∧
      run.any (fun x => (since ['l'] x.2.log).any Event.isLeft) = true ∧
      ∀ x ∈ run, ∀ arr, entry ['l'] x.2.log = some (some arr) →
        Iterates (nested .iteration .iterationItem) nestedEnv (innerParent .iteration)
          (innerItem .iterationItem) arr (since ['l'] x.2.log) := by
  obtain ⟨run, hrun, hp⟩ := exists_run_of_trace (nested .iteration .iterationItem) nestedEnv
    nestedStart (batches 7) (p := fun run => decide (AllSteps (fun r choice =>
      ItemStep (nested .iteration .iterationItem) nestedEnv (innerParent .iteration) ['l'] r
        choice ∧
      IterationStep (nested .iteration .iterationItem) nestedEnv (innerParent .iteration)
        (innerItem .iterationItem) r choice) nestedStart run) &&
      run.any (fun x => (since ['l'] x.2.log).any Event.isLeft)) (by decide +kernel)
  rw [Bool.and_eq_true, decide_eq_true_eq] at hp
  refine ⟨run, hrun, hp.2, ?_⟩
  exact iteration_iterates _ nestedEnv _ _ itemOf_nested rfl [] ['b'] (by decide) (fun _ => 0) ()
    run hrun hp.1

def uncanceled : Choice D → Bool
  | .finish _ _ canceled => canceled = .no
  | _ => true

/-- The event publishes an element under a negative index. -/
def Event.negative : Event → Bool
  | .published _ i _ => i < 0
  | _ => false

theorem not_iterates_of_negative {w : Workflow} {env : Env D} {par item : Cpn} {arr : List Value}
    {events : List Event} (h : events.any Event.negative) :
    ¬ Iterates w env par item arr events := by
  intro hiterates
  obtain ⟨e, he, hneg⟩ := List.any_eq_true.mp h
  cases e with
  | published a i v =>
      have hnonneg := hiterates.index_nonneg he
      simp only [Event.negative, decide_eq_true_eq] at hneg
      omega
  | _ => cases hneg

/-- With the second element of the outer iteration the inner one is entered again.  Its position is
`-1`. -/
theorem iteration_entered_twice :
    ¬ ∀ (w : Workflow) (env : Env Unit) (par item : Cpn), ItemOf w par item →
      par.kind = .iteration → ∀ c data run, c ≠ item.id →
      IsRun (Steps w env) (Run.initial [] c (fun _ => 0) data) run →
      AllSteps (fun _ choice => uncanceled choice = true) (Run.initial [] c (fun _ => 0) data) run →
      ∀ x ∈ run, ∀ arr, entry item.id x.2.log = some (some arr) →
        Iterates w env par item arr (since item.id x.2.log) := by
  intro h
  obtain ⟨run, hrun, hp⟩ := exists_run_of_trace (nested .iteration .iterationItem) nestedEnv
    nestedStart (batches 10 ++ [.schedule, .start 0, .finish 0 () .no])
    (p := fun run =>
      decide (AllSteps (fun _ choice => uncanceled choice = true) nestedStart run) &&
      run.any (fun x => (entry ['l'] x.2.log).join.isSome &&
        (since ['l'] x.2.log).any Event.negative)) (by decide +kernel)
  rw [Bool.and_eq_true, decide_eq_true_eq] at hp
  obtain ⟨x, hx, hnegative⟩ := List.any_eq_true.mp hp.2
  rw [Bool.and_eq_true] at hnegative
  obtain ⟨arr, harr⟩ := Option.isSome_iff_exists.mp hnegative.1
  exact not_iterates_of_negative hnegative.2
    (h _ nestedEnv _ _ itemOf_nested rfl ['b'] () run (by decide) hrun hp.1 x hx arr
      (Option.join_eq_some_iff.mp harr))

end RagFlow.Agent.Flow
