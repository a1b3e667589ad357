import Mathlib.Tactic.SplitIfs
import RagFlow.PyVal
import RagFlow.PyJson

/-! # The Switch component

`_invoke` of `agent/component/switch.py`: the conditions are tried in order, and the first that is
met decides where the flow goes on.

* **Items.** An item without a component is skipped.  The values of the others are gathered in
  `res`, and any mode but `and` leaves the loop at the first that is true.
* **Slip.** After the loop both modes test `all(res)`.  A condition whose items were all skipped
  passes this test, as `res` is empty.
* **Result.** `invoke_routes_iff`: the switch goes where it should (`destination`) exactly when no
  condition of this kind stands before the first that holds, or leads to the same place. -/

namespace RagFlow.Agent.Switch

open Py

variable {F : Type}

/-! ### Operators -/

/-- The comparisons of two values. -/
inductive Cmp where
  | gt
  | lt
  | ge
  | le

/-- The comparison, of a total order with `less` and `same`. -/
def Cmp.decide (less same greater : Bool) : Cmp → Bool
  | gt => greater
  | lt => less
  | ge => greater || same
  | le => less || same

/-- A comparison of two numbers: NaN is not comparable. -/
def Cmp.numbers (op : Cmp) : PyFloat ℚ → PyFloat ℚ → Bool
  | .nan, _ => false
  | _, .nan => false
  | .fin x, .fin y => op.decide (x < y) (x = y) (y < x)
  | .fin _, .inf neg => op.decide (!neg) false neg
  | .inf neg, .fin _ => op.decide neg false (!neg)
  | .inf a, .inf b => op.decide (a && !b) (a == b) (!a && b)

mutual
/-- `v < w` and the like; `none` when the comparison raises. -/
def Cmp.values [Binary64 F] (op : Cmp) : Json F → Json F → Option Bool
  | .str s, .str t => some (op.decide (PyVal.strLt s t) (s = t) (PyVal.strLt t s))
  | .list xs, .list ys => Cmp.items op xs ys
  | v, w =>
      match Json.number v, Json.number w with
      | some x, some y => some (op.numbers x y)
      | _, _ => none

/-- The first two items that differ decide, then the lengths. -/
def Cmp.items [Binary64 F] (op : Cmp) : List (Json F) → List (Json F) → Option Bool
  | [], [] => some (op.decide false true false)
  | [], _ :: _ => some (op.decide true false false)
  | _ :: _, [] => some (op.decide false false true)
  | v :: xs, w :: ys => if Json.same v w then Cmp.items op xs ys else Cmp.values op v w
end

/-- `float(v)`; `none` when it raises. -/
def float? [Binary64 F] (v : Json F) : Option (PyFloat F) := (Json.toFloat v).toOption.join

/-- `float(input) > float(value)` and the like, and `input > value` if a conversion raises. -/
def compare [Binary64 F] (op : Cmp) (input value : Json F) : Option Bool :=
  match float? input, float? value with
  | some x, some y => op.values (.float x : Json F) (.float y)
  | _, _ => op.values input value

/-- A test of `input.lower()` and `value.lower()`, which only strings have. -/
def onLower (ct : CaseTable) (test : Str → Str → Bool) : Json F → Json F → Option Bool
  | .str input, .str value => some (test (ct.lower input) (ct.lower value))
  | _, _ => none

/-- `process_operator`; `none` when it raises. -/
def processOperator [Binary64 F] (ct : CaseTable) (input : Json F) (operator : Str)
    (value : Json F) : Option Bool :=
  if operator = "contains" then onLower ct (fun s t => contains t s) input value
  else if operator = "not contains" then onLower ct (fun s t => !contains t s) input value
  else if operator = "start with" then onLower ct startswith input value
  else if operator = "end with" then onLower ct endswith input value
  else if operator = "empty" then some (!input.truthy)
  else if operator = "not empty" then some (input.truthy)
  else if operator = "=" then some (Json.eq input value)
  else if operator = "≠" then some (!Json.eq input value)
  else if operator = ">" then compare .gt input value
  else if operator = "<" then compare .lt input value
  else if operator = "≥" then compare .ge input value
  else if operator = "≤" then compare .le input value
  else none

/-! ### The component -/

structure Item (F : Type) where
  cpnId : Str
  operator : Str
  /-- `none` when the item has no such key. -/
  value : Option (Json F)

structure Condition (F : Type) where
  logicalOperator : Str
  items : List (Item F)
  toIds : List Str

structure Param (F : Type) where
  conditions : List (Condition F)
  endCpnIds : List Str

/-- What the component reads of the canvas. -/
structure Env (F : Type) where
  /-- `get_variable_value`; `none` when it raises. -/
  getVariableValue : Str → Option (Json F)
  /-- The identifiers and the names of the nodes of the graph. -/
  nodes : List (Str × Str)
  /-- What the `n`-th call of `check_if_canceled` returns. -/
  canceled : ℕ → Bool
  caseTable : CaseTable

/-- What the component writes. -/
structure State (F : Type) where
  /-- The calls of `check_if_canceled` so far. -/
  checks : ℕ
  inputs : List (Str × Json F)
  next : Option (List Str)
  nextIds : Option (List Str)
  error : Option Str

/-- A loop returns from the method or passes on what it has gathered. -/
inductive Ends (F α : Type) where
  | returned (st : State F)
  | passed (a : α) (st : State F)

variable [Binary64 F] (env : Env F)

/-- `get_component_name`. -/
def componentName (cid : Str) : Str := (env.nodes.lookup cid).getD []

/-- `check_if_canceled`. -/
def checkIfCanceled (st : State F) : Bool × State F :=
  if env.canceled st.checks then
    (true, { st with checks := st.checks + 1, error := some "Task has been canceled" })
  else (false, { st with checks := st.checks + 1 })

def setInputValue (key : Str) (v : Json F) (st : State F) : State F :=
  { st with inputs := Json.setItem key v st.inputs }

/-- The two outputs of the switch. -/
def route (ids : List Str) (st : State F) : State F :=
  { st with next := some (ids.map (componentName env)), nextIds := some ids }

/-- The value of an item next to the value `v` of its variable. -/
def operatee (v : Json F) (item : Item F) : Option (Json F) :=
  let value := item.value.getD (.str [])
  if (Json.number v).isSome then (float? value).map .float else some value

/-- The loop over the items of a condition. -/
def itemLoop (cond : Condition F) :
    List (Item F) → List Bool → State F → Option (Ends F (List Bool))
  | [], res, st => some (.passed res st)
  | item :: items, res, st =>
      let (stop, st) := checkIfCanceled env st
      if stop then some (.returned st)
      else if item.cpnId = [] then itemLoop cond items res st
      else
        (env.getVariableValue item.cpnId).bind fun v =>
          let st := setInputValue item.cpnId v st
          (operatee v item).bind fun value =>
            (processOperator env.caseTable v item.operator value).bind fun b =>
              let res := res ++ [b]
              if cond.logicalOperator ≠ "and" ∧ res.any id then
                some (.returned (route env cond.toIds st))
              else itemLoop cond items res st

/-- The loop over the conditions. -/
def conditionLoop : List (Condition F) → State F → Option (Ends F Unit)
  | [], st => some (.passed () st)
  | cond :: conds, st =>
      let (stop, st) := checkIfCanceled env st
      if stop then some (.returned st)
      else
        (itemLoop env cond cond.items [] st).bind fun
          | .returned st => some (.returned st)
          | .passed res st =>
              if res.all id then some (.returned (route env cond.toIds st))
              else conditionLoop conds st

/-- `_invoke`; `none` when it raises. -/
def invoke (param : Param F) (st : State F) : Option (State F) :=
  let (stop, st) := checkIfCanceled env st
  if stop then some st
  else
    (conditionLoop env param.conditions st).map fun
      | .returned st => st
      | .passed () st => route env param.endCpnIds st

/-! ### What it should do -/

/-- What an item evaluates to; `none` when that raises. -/
def evalItem (item : Item F) : Option Bool :=
  (env.getVariableValue item.cpnId).bind fun v =>
    (operatee v item).bind (processOperator env.caseTable v item.operator)

/-- The items with a component. -/
def Condition.counted (cond : Condition F) : List (Item F) :=
  cond.items.filter (·.cpnId ≠ [])

/-- The condition has an item with a component, and all of them are true, or at least one is. -/
def holds (cond : Condition F) : Bool :=
  !cond.counted.isEmpty &&
    (if cond.logicalOperator = "and" then
      cond.counted.all (fun item => evalItem env item = some true)
    else cond.counted.any (fun item => evalItem env item = some true))

/-- Where the switch should lead. -/
def destination (param : Param F) : List Str :=
  ((param.conditions.find? (holds env)).map Condition.toIds).getD param.endCpnIds

/-- The conditions before the first one that holds. -/
def failing (param : Param F) : List (Condition F) :=
  param.conditions.takeWhile (fun cond => !holds env cond)

/-- No item of the component raises. -/
def NoneRaises (param : Param F) : Prop :=
  ∀ cond ∈ param.conditions, ∀ item ∈ cond.counted, (evalItem env item).isSome = true

/-! ### The loops -/

section loops

variable {env : Env F}

omit [Binary64 F] in
theorem checkIfCanceled_eq (hrun : ∀ n, env.canceled n = false) (st : State F) :
    checkIfCanceled env st = (false, { st with checks := st.checks + 1 }) := by
  unfold checkIfCanceled
  rw [hrun, if_neg Bool.false_ne_true]

theorem evalItem_eq_some {item : Item F} {b : Bool} (h : evalItem env item = some b) :
    ∃ v value, env.getVariableValue item.cpnId = some v ∧ operatee v item = some value ∧
      processOperator env.caseTable v item.operator value = some b := by
  unfold evalItem at h
  obtain ⟨v, hv, h⟩ := Option.bind_eq_some_iff.mp h
  obtain ⟨value, hvalue, hb⟩ := Option.bind_eq_some_iff.mp h
  exact ⟨v, value, hv, hvalue, hb⟩

/-- What the item adds to `res`. -/
def isTrue (env : Env F) (item : Item F) : Bool := evalItem env item = some true

theorem itemLoop_skip (hrun : ∀ n, env.canceled n = false) (cond : Condition F) {item : Item F}
    (hitem : item.cpnId = []) (items : List (Item F)) (res : List Bool) (st : State F) :
    ∃ st', itemLoop env cond (item :: items) res st = itemLoop env cond items res st' := by
  refine ⟨{ st with checks := st.checks + 1 }, ?_⟩
  rw [itemLoop, checkIfCanceled_eq hrun]
  dsimp only
  rw [if_neg Bool.false_ne_true, if_pos hitem]

/-- One round on an item that counts. -/
theorem itemLoop_cons (hrun : ∀ n, env.canceled n = false) (cond : Condition F) {item : Item F}
    (hitem : item.cpnId ≠ []) (heval : (evalItem env item).isSome = true)
    (items : List (Item F)) (res : List Bool) (st : State F) :
    ∃ st', itemLoop env cond (item :: items) res st =
      if cond.logicalOperator ≠ "and" ∧ (res ++ [isTrue env item]).any id then
        some (.returned (route env cond.toIds st'))
      else itemLoop env cond items (res ++ [isTrue env item]) st' := by
  obtain ⟨b, hb⟩ := Option.isSome_iff_exists.mp heval
  have hisTrue : isTrue env item = b := by
    unfold isTrue
    rw [hb]
    cases b <;> rfl
  obtain ⟨v, value, hv, hvalue, hop⟩ := evalItem_eq_some hb
  refine ⟨setInputValue item.cpnId v { st with checks := st.checks + 1 }, ?_⟩
  rw [itemLoop, checkIfCanceled_eq hrun, hisTrue]
  dsimp only
  rw [if_neg Bool.false_ne_true, if_neg hitem, hv, Option.bind_some, hvalue, Option.bind_some,
    hop, Option.bind_some]

/-- In the mode `and` the loop comes to its end. -/
theorem itemLoop_and (hrun : ∀ n, env.canceled n = false) {cond : Condition F}
    (hand : cond.logicalOperator = "and") (items : List (Item F))
    (heval : ∀ item ∈ items.filter (·.cpnId ≠ []), (evalItem env item).isSome = true)
    (res : List Bool) (st : State F) :
    ∃ st', itemLoop env cond items res st =
      some (.passed (res ++ (items.filter (·.cpnId ≠ [])).map (isTrue env)) st') := by
  induction items generalizing res st with
  | nil => exact ⟨st, by rw [itemLoop, List.filter_nil, List.map_nil, List.append_nil]⟩
  | cons item items ih =>
      by_cases hitem : item.cpnId = []
      · obtain ⟨st₁, h₁⟩ := itemLoop_skip hrun cond hitem items res st
        rw [List.filter_cons_of_neg (by simpa using hitem)] at heval ⊢
        obtain ⟨st', h'⟩ := ih heval res st₁
        exact ⟨st', h₁.trans h'⟩
      · rw [List.filter_cons_of_pos (by simpa using hitem)] at heval ⊢
        obtain ⟨hhead, htail⟩ := List.forall_mem_cons.mp heval
        obtain ⟨st₁, h₁⟩ := itemLoop_cons hrun cond hitem hhead items res st
        rw [if_neg (fun h => h.1 hand)] at h₁
        obtain ⟨st', h'⟩ := ih htail (res ++ [isTrue env item]) st₁
        refine ⟨st', h₁.trans (h'.trans ?_)⟩
        rw [List.map_cons, List.append_assoc, List.singleton_append]

/-- In any other mode the loop returns at the first item that is true. -/
theorem itemLoop_or (hrun : ∀ n, env.canceled n = false) {cond : Condition F}
    (hor : cond.logicalOperator ≠ "and") (items : List (Item F))
    (heval : ∀ item ∈ items.filter (·.cpnId ≠ []), (evalItem env item).isSome = true)
    {res : List Bool} (hres : res.any id = false) (st : State F) :
    ∃ st', itemLoop env cond items res st =
      if (items.filter (·.cpnId ≠ [])).any (isTrue env) then
        some (.returned (route env cond.toIds st'))
      else some (.passed (res ++ (items.filter (·.cpnId ≠ [])).map (isTrue env)) st') := by
  induction items generalizing res st with
  | nil => exact ⟨st, by rw [itemLoop]; simp⟩
  | cons item items ih =>
      by_cases hitem : item.cpnId = []
      · obtain ⟨st₁, h₁⟩ := itemLoop_skip hrun cond hitem items res st
        rw [List.filter_cons_of_neg (by simpa using hitem)] at heval ⊢
        obtain ⟨st', h'⟩ := ih heval hres st₁
        exact ⟨st', h₁.trans h'⟩
      · rw [List.filter_cons_of_pos (by simpa using hitem)] at heval ⊢
        obtain ⟨hhead, htail⟩ := List.forall_mem_cons.mp heval
        obtain ⟨st₁, h₁⟩ := itemLoop_cons hrun cond hitem hhead items res st
        rw [List.any_append, hres, Bool.false_or, List.any_cons, List.any_nil, Bool.or_false,
          id_eq] at h₁
        rw [List.any_cons]
        cases htrue : isTrue env item with
        | true =>
            rw [htrue, if_pos ⟨hor, rfl⟩] at h₁
            exact ⟨st₁, h₁⟩
        | false =>
            rw [htrue, if_neg (fun h => Bool.false_ne_true h.2)] at h₁
            have hres' : (res ++ [false]).any id = false := by
              rw [List.any_append, hres]
              rfl
            obtain ⟨st', h'⟩ := ih htail hres' st₁
            refine ⟨st', h₁.trans (h'.trans ?_)⟩
            rw [Bool.false_or, List.map_cons, htrue, List.append_assoc, List.singleton_append]

/-- The test that the code makes: the condition holds, or none of its items counts. -/
def passes (env : Env F) (cond : Condition F) : Bool := cond.counted.isEmpty || holds env cond

theorem passes_and {cond : Condition F} (hand : cond.logicalOperator = "and") :
    passes env cond = (cond.counted.map (isTrue env)).all id := by
  unfold passes holds
  rw [if_pos hand, List.all_map]
  cases cond.counted with
  | nil => rfl
  | cons item items => rfl

theorem passes_or {cond : Condition F} (hor : cond.logicalOperator ≠ "and") :
    passes env cond = (cond.counted.isEmpty || cond.counted.any (isTrue env)) := by
  unfold passes holds
  rw [if_neg hor]
  cases cond.counted with
  | nil => rfl
  | cons item items => rfl

/-- One round of the loop over the conditions. -/
theorem conditionLoop_cons (hrun : ∀ n, env.canceled n = false) {cond : Condition F}
    (heval : ∀ item ∈ cond.counted, (evalItem env item).isSome = true)
    (conds : List (Condition F)) (st : State F) :
    ∃ st', conditionLoop env (cond :: conds) st =
      if passes env cond then some (.returned (route env cond.toIds st'))
      else conditionLoop env conds st' := by
  rw [conditionLoop, checkIfCanceled_eq hrun]
  dsimp only
  rw [if_neg Bool.false_ne_true]
  by_cases hand : cond.logicalOperator = "and"
  · obtain ⟨st', h'⟩ :=
      itemLoop_and hrun hand cond.items heval [] { st with checks := st.checks + 1 }
    refine ⟨st', ?_⟩
    rw [h', Option.bind_some, passes_and hand, List.nil_append]
    rfl
  · obtain ⟨st', h'⟩ :=
      @itemLoop_or _ _ env hrun cond hand cond.items heval [] rfl
        { st with checks := st.checks + 1 }
    refine ⟨st', ?_⟩
    change itemLoop env cond cond.items [] _ =
      if cond.counted.any (isTrue env) then _
      else some (.passed ([] ++ cond.counted.map (isTrue env)) st') at h'
    rw [h', passes_or hand, List.nil_append]
    by_cases hany : cond.counted.any (isTrue env) = true
    · rw [if_pos hany, hany, Bool.or_true, if_pos rfl, Option.bind_some]
    · rw [if_neg hany, Option.bind_some]
      have hfalse := Bool.eq_false_iff.mpr hany
      dsimp only
      rw [hfalse, Bool.or_false]
      -- none is true, so that `all(res)` means that `res` is empty
      have hall : (cond.counted.map (isTrue env)).all id = cond.counted.isEmpty := by
        cases hcounted : cond.counted with
        | nil => rfl
        | cons item items =>
            rw [hcounted, List.any_cons, Bool.or_eq_false_iff] at hfalse
            rw [List.map_cons, List.all_cons, hfalse.1]
            rfl
      rw [hall]

theorem conditionLoop_eq (hrun : ∀ n, env.canceled n = false) {conds : List (Condition F)}
    (heval : ∀ cond ∈ conds, ∀ item ∈ cond.counted, (evalItem env item).isSome = true)
    (st : State F) :
    ∃ st', conditionLoop env conds st =
      match conds.find? (passes env) with
      | some cond => some (.returned (route env cond.toIds st'))
      | none => some (.passed () st') := by
  induction conds generalizing st with
  | nil => exact ⟨st, rfl⟩
  | cons cond conds ih =>
      obtain ⟨hcond, hconds⟩ := List.forall_mem_cons.mp heval
      obtain ⟨st₁, h₁⟩ := conditionLoop_cons hrun hcond conds st
      by_cases hpass : passes env cond = true
      · rw [List.find?_cons_of_pos hpass]
        rw [if_pos hpass] at h₁
        exact ⟨st₁, h₁⟩
      · rw [List.find?_cons_of_neg hpass]
        rw [if_neg hpass] at h₁
        obtain ⟨st', h'⟩ := ih hconds st₁
        exact ⟨st', h₁.trans h'⟩

/-- The switch goes on at the first condition that holds or has no item that counts. -/
theorem invoke_eq (hrun : ∀ n, env.canceled n = false) {param : Param F}
    (hraise : NoneRaises env param) (st : State F) :
    ∃ st', invoke env param st = some (route env
      (((param.conditions.find? (passes env)).map Condition.toIds).getD param.endCpnIds) st') := by
  obtain ⟨st', h'⟩ := conditionLoop_eq hrun hraise { st with checks := st.checks + 1 }
  refine ⟨st', ?_⟩
  unfold invoke
  rw [checkIfCanceled_eq hrun]
  dsimp only
  rw [if_neg Bool.false_ne_true, h']
  cases param.conditions.find? (passes env) <;> rfl

/-- It is the first one that holds, unless one without an item that counts comes before it. -/
theorem find?_passes (conds : List (Condition F)) :
    conds.find? (passes env) =
      ((conds.takeWhile (fun cond => !holds env cond)).find? (·.counted.isEmpty)).or
        (conds.find? (holds env)) := by
  induction conds with
  | nil => rfl
  | cons cond conds ih =>
      cases hholds : holds env cond with
      | true =>
          have hpass : passes env cond = true := by
            unfold passes
            rw [hholds, Bool.or_true]
          rw [List.find?_cons_of_pos hpass, List.takeWhile_cons_of_neg (by rw [hholds]; simp),
            List.find?_cons_of_pos hholds]
          rfl
      | false =>
          have hpass : passes env cond = cond.counted.isEmpty := by
            unfold passes
            rw [hholds, Bool.or_false]
          rw [List.takeWhile_cons_of_pos (by rw [hholds]; rfl), List.find?_cons, hpass,
            List.find?_cons, List.find?_cons_of_neg (by rw [hholds]; exact Bool.false_ne_true), ih]
          cases cond.counted.isEmpty <;> rfl

end loops

/-! ### Where the switch leads -/

/-- In a run that is not canceled and raises nothing, the switch leads to its destination exactly
when the first condition without an item that counts, if there is one among those before the first
that holds, has the same destination. -/
theorem invoke_routes_iff (env : Env F) (param : Param F) (st : State F)
    (hrun : ∀ n, env.canceled n = false) (hraise : NoneRaises env param) :
    (∃ st', invoke env param st = some st' ∧ st'.nextIds = some (destination env param)) ↔
      ∀ cond, (failing env param).find? (·.counted.isEmpty) = some cond →
        cond.toIds = destination env param := by
  obtain ⟨st', h'⟩ := invoke_eq hrun hraise st
  rw [find?_passes] at h'
  rw [h']
  unfold failing
  cases (param.conditions.takeWhile (fun cond => !holds env cond)).find? (·.counted.isEmpty) with
  | none =>
      constructor
      · intro _ cond hcond
        cases hcond
      · intro _
        exact ⟨_, rfl, rfl⟩
  | some cond =>
      constructor
      · rintro ⟨st'', hst, hnext⟩ cond' hcond'
        cases hst
        cases hcond'
        exact Option.some.inj hnext
      · intro h
        exact ⟨_, rfl, congrArg some (h cond rfl)⟩

def hello : Str := "Message:0"

def other : Str := "Message:1"

/-- A canvas with one variable, `query`, that is a text. -/
def oneVariable (s : Str) : Env Tenths where
  getVariableValue key := if key = "query" then some (.str s) else none
  nodes := [(hello, "Hello"), (other, "Other")]
  canceled _ := false
  caseTable := CaseTable.ascii

/-- `query` contains `hi`, in the mode `or`. -/
def asksHello (cpnId : Str) : Condition Tenths :=
  ⟨"or", [⟨cpnId, "contains", some (.str "hi")⟩], [hello]⟩

def started : State Tenths := ⟨0, [], none, none, none⟩

theorem invoke_routes_iff_query :
    ∃ st', invoke (oneVariable "Hi!") ⟨[asksHello "query"], [other]⟩ started = some st' ∧
      st'.nextIds = some [hello] :=
  (invoke_routes_iff (oneVariable "Hi!") ⟨[asksHello "query"], [other]⟩ started
    (fun _ => rfl) (by
      intro cond hcond item hitem
      cases List.mem_singleton.mp hcond
      cases List.mem_singleton.mp hitem
      decide)).mpr (by
      intro cond hcond
      have hnone : (failing (oneVariable "Hi!") ⟨[asksHello "query"], [other]⟩).find?
          (·.counted.isEmpty) = none := by decide +kernel
      rw [hnone] at hcond
      cases hcond)

/-- A condition whose only item has no component is taken, although nothing holds. -/
theorem invoke_without_item :
    NoneRaises (oneVariable "Bye") ⟨[asksHello ""], [other]⟩ ∧
      (invoke (oneVariable "Bye") ⟨[asksHello ""], [other]⟩ started).bind State.nextIds =
        some [hello] ∧
      destination (oneVariable "Bye") ⟨[asksHello ""], [other]⟩ = [other] := by
  refine ⟨fun cond hcond item hitem => ?_, by decide, by decide⟩
  cases List.mem_singleton.mp hcond
  cases hitem

end RagFlow.Agent.Switch
