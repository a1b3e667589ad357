import Mathlib.Data.List.TakeWhile
import RagFlow.Dict
import RagFlow.PyVal
import RagFlow.Table

/-! # The variables of a canvas

`get_variable_value` and `set_variable_value` of `agent/canvas.py`.  An expression names a global
variable, or an output of a component followed by a dotted path into its value (`readExp`).

The getter takes the keys of the path one after another.  The setter descends along all keys, the
last one included, and then writes under the last key once more, so that the value ends up one
level too deep.  `setVariableValue_roundTrip_iff`: what was set is read again exactly if the path
has no keys. -/

namespace RagFlow.Agent

open Py

/-! ### Values -/

/-- The values of variables; a tuple is a list, a dictionary lists its entries. -/
inductive Value where
  | none
  | bool (b : Bool)
  | int (n : ℤ)
  | float (q : ℚ)
  | str (s : Str)
  | list (xs : List Value)
  | dict (entries : List (Str × Value))

namespace Value

/-- `bool(v)`. -/
def truthy : Value → Bool
  | none => false
  | bool b => b
  | int n => n != 0
  | float q => q != 0
  | str s => !s.isEmpty
  | list xs => !xs.isEmpty
  | dict entries => !entries.isEmpty

/-- `str(type(v))`. -/
def typeName : Value → Str
  | none => "<class 'NoneType'>"
  | bool _ => "<class 'bool'>"
  | int _ => "<class 'int'>"
  | float _ => "<class 'float'>"
  | str _ => "<class 'str'>"
  | list _ => "<class 'list'>"
  | dict _ => "<class 'dict'>"

/-! Equality, which cannot be derived for a type whose values contain lists of values. -/

mutual
def decEq : ∀ a b : Value, Decidable (a = b)
  | .none, b =>
      match b with
      | .none => isTrue rfl
      | .bool _ | .int _ | .float _ | .str _ | .list _ | .dict _ => isFalse (by simp)
  | .bool a, b =>
      match b with
      | .bool b => decidable_of_iff (a = b) (by simp)
      | .none | .int _ | .float _ | .str _ | .list _ | .dict _ => isFalse (by simp)
  | .int a, b =>
      match b with
      | .int b => decidable_of_iff (a = b) (by simp)
      | .none | .bool _ | .float _ | .str _ | .list _ | .dict _ => isFalse (by simp)
  | .float a, b =>
      match b with
      | .float b => decidable_of_iff (a = b) (by simp)
      | .none | .bool _ | .int _ | .str _ | .list _ | .dict _ => isFalse (by simp)
  | .str a, b =>
      match b with
      | .str b => decidable_of_iff (a = b) (by simp)
      | .none | .bool _ | .int _ | .float _ | .list _ | .dict _ => isFalse (by simp)
  | .list a, b =>
      match b with
      | .list b =>
          have := decEqs a b
          decidable_of_iff (a = b) (by simp)
      | .none | .bool _ | .int _ | .float _ | .str _ | .dict _ => isFalse (by simp)
  | .dict a, b =>
      match b with
      | .dict b =>
          have := decEqEntries a b
          decidable_of_iff (a = b) (by simp)
      | .none | .bool _ | .int _ | .float _ | .str _ | .list _ => isFalse (by simp)

def decEqs : ∀ xs ys : List Value, Decidable (xs = ys)
  | [], [] => isTrue rfl
  | [], _ :: _ => isFalse (by simp)
  | _ :: _, [] => isFalse (by simp)
  | x :: xs, y :: ys =>
      have := decEq x y
      have := decEqs xs ys
      decidable_of_iff (x = y ∧ xs = ys) (by simp)

def decEqEntries : ∀ xs ys : List (Str × Value), Decidable (xs = ys)
  | [], [] => isTrue rfl
  | [], _ :: _ => isFalse (by simp)
  | _ :: _, [] => isFalse (by simp)
  | (k, x) :: xs, (l, y) :: ys =>
      have := decEq x y
      have := decEqEntries xs ys
      decidable_of_iff ((k = l ∧ x = y) ∧ xs = ys) (by simp)
end

instance : DecidableEq Value := decEq

end Value

/-- `d[key] = v`. -/
def setEntry {α : Type} (key : Str) (v : α) : List (Str × α) → List (Str × α)
  | [] => [(key, v)]
  | e :: entries => if e.1 = key then (key, v) :: entries else e :: setEntry key v entries

theorem setEntry_eq {α : Type} (key : Str) (v : α) (d : List (Str × α)) :
    setEntry key v d = Dict.set key v d := by
  induction d with
  | nil => rfl
  | cons e d ih => rw [setEntry, Dict.set, ih]

theorem lookup_setEntry {α : Type} (key : Str) (v : α) (d : List (Str × α)) :
    (setEntry key v d).lookup key = some v := by
  rw [setEntry_eq, Dict.lookup_set, if_pos rfl]

theorem lookup_setEntry_of_ne {α : Type} {key key' : Str} (h : key' ≠ key) (v : α)
    (d : List (Str × α)) : (setEntry key v d).lookup key' = d.lookup key' := by
  rw [setEntry_eq, Dict.lookup_set, if_neg h]

theorem sizeOf_lt_of_lookup {key : Str} {v : Value} {d : List (Str × Value)}
    (h : d.lookup key = some v) : sizeOf v < sizeOf (Value.dict d) := by
  have hmem : (key, v) ∈ d := by
    induction d with
    | nil => cases h
    | cons e d ih =>
        rw [List.lookup_cons] at h
        split at h
        · next he =>
            cases h
            rw [beq_iff_eq.mp he]
            exact List.mem_cons_self
        · exact List.mem_cons_of_mem _ (ih h)
  have hlt := List.sizeOf_lt_of_mem hmem
  rw [Prod.mk.sizeOf_spec] at hlt
  rw [Value.dict.sizeOf_spec]
  omega

/-! ### Expressions -/

inductive CanvasError where
  | keyError (key : Str)
  | valueError
  | typeError
  | cantFindVariable (cpnId varNm : Str)
deriving DecidableEq

/-- `s.strip(c)`. -/
def stripChar (c : Char) (s : Str) : Str :=
  ((s.dropWhile (· == c)).reverse.dropWhile (· == c)).reverse

/-- What an expression refers to: a global variable, or a path into an output of a component. -/
inductive Ref where
  | global (key : Str)
  | output (cpnId varNm : Str)
deriving DecidableEq

/-- `root_key`. -/
def rootKey (varNm : Str) : Str := varNm.takeWhile (· ≠ '.')

/-- `rest`, what stands after the first dot. -/
def restOf (varNm : Str) : Str := varNm.drop ((rootKey varNm).length + 1)

/-- `rest.split('.')`; there are no keys if `rest` is empty. -/
def keysOf (varNm : Str) : List Str :=
  if restOf varNm = [] then [] else (restOf varNm).splitOn '.'

/-- The reading of an expression that both functions start with. -/
def readExp (exp : Str) : Except CanvasError Ref :=
  let exp := stripChar '}' (stripChar '{' (stripChar ' ' (stripChar '}' (stripChar '{' exp))))
  if '@' ∉ exp then .ok (.global exp)
  else
    match exp.splitOn '@' with
    | [cpnId, varNm] => .ok (.output cpnId varNm)
    | _ => .error .valueError

theorem rootKey_append {r : Str} (hr : '.' ∉ r) (s : Str) : rootKey (r ++ '.' :: s) = r := by
  unfold rootKey
  rw [List.takeWhile_append_of_pos (fun c hc => by simpa using ne_of_mem_of_not_mem hc hr)]
  simp

theorem rootKey_eq_self {r : Str} (hr : '.' ∉ r) : rootKey r = r := by
  unfold rootKey
  rw [List.takeWhile_eq_self_iff]
  exact fun c hc => by simpa using ne_of_mem_of_not_mem hc hr

/-- The text of a dotted path. -/
def dotted (r : Str) (ks : List Str) : Str := ['.'].intercalate (r :: ks)

theorem dotted_nil (r : Str) : dotted r [] = r := by simp [dotted, List.intercalate]

theorem dotted_cons (r k : Str) (ks : List Str) :
    dotted r (k :: ks) = r ++ '.' :: dotted k ks := by
  simp [dotted, List.intercalate]

/-- The root and the keys of a dotted path are read back; a single empty key is no key. -/
theorem readVar_dotted {r : Str} {ks : List Str} (hr : '.' ∉ r) (hks : ∀ k ∈ ks, '.' ∉ k)
    (hne : ks ≠ [[]]) : rootKey (dotted r ks) = r ∧ keysOf (dotted r ks) = ks := by
  cases ks with
  | nil =>
      rw [dotted_nil]
      refine ⟨rootKey_eq_self hr, ?_⟩
      unfold keysOf restOf
      rw [rootKey_eq_self hr, if_pos]
      simp
  | cons k ks =>
      rw [dotted_cons]
      refine ⟨rootKey_append hr _, ?_⟩
      have hrest : restOf (r ++ '.' :: dotted k ks) = dotted k ks := by
        unfold restOf
        rw [rootKey_append hr]
        simp
      unfold keysOf
      rw [hrest]
      have hsplit : (dotted k ks).splitOn '.' = k :: ks :=
        List.splitOn_intercalate '.' hks (List.cons_ne_nil k ks)
      rw [if_neg, hsplit]
      intro hnil
      rw [hnil] at hsplit
      obtain ⟨rfl, rfl⟩ := List.cons.inj (hsplit.symm.trans (by rfl : _ = [([] : Str)]))
      exact hne rfl

theorem stripChar_eq_self {c : Char} {s : Str} (h : c ∉ s) : stripChar c s = s := by
  have hself : ∀ {t : Str}, c ∉ t → t.dropWhile (· == c) = t := by
    intro t ht
    cases t with
    | nil => rfl
    | cons d t =>
        have hd : (d == c) = false :=
          beq_eq_false_iff_ne.mpr (fun hd => ht (hd ▸ List.mem_cons_self))
        rw [List.dropWhile_cons, hd]
        rfl
  unfold stripChar
  rw [hself h, hself (by simpa using h), List.reverse_reverse]

/-- The expression `c@var` is read as it is written, if the names are free of `@`, braces and
spaces. -/
theorem readExp_append {c var : Str} (hc : ∀ x ∈ c, x ∉ ['@', '{', '}', ' '])
    (hvar : ∀ x ∈ var, x ∉ ['@', '{', '}', ' ']) :
    readExp (c ++ '@' :: var) = .ok (.output c var) := by
  have hfree : ∀ x ∈ ['{', '}', ' '], x ∉ c ++ '@' :: var := by
    intro x hx hmem
    rcases List.mem_append.mp hmem with h | h
    · exact hc x h (List.mem_cons_of_mem _ hx)
    · rcases List.mem_cons.mp h with rfl | h
      · revert hx
        decide
      · exact hvar x h (List.mem_cons_of_mem _ hx)
  have hsplit : (c ++ '@' :: var).splitOn '@' = [c, var] := by
    have happ : c ++ '@' :: var = ['@'].intercalate [c, var] := by simp [List.intercalate]
    rw [happ]
    refine List.splitOn_intercalate '@' (fun s hs hat => ?_) (List.cons_ne_nil _ _)
    rcases List.mem_pair.mp hs with rfl | rfl
    · exact hc '@' hat (by decide)
    · exact hvar '@' hat (by decide)
  unfold readExp
  rw [stripChar_eq_self (hfree '{' (by decide)), stripChar_eq_self (hfree '}' (by decide)),
    stripChar_eq_self (hfree ' ' (by decide)), stripChar_eq_self (hfree '{' (by decide)),
    stripChar_eq_self (hfree '}' (by decide))]
  dsimp only
  rw [if_neg (by simp), hsplit]

/-! ### Components -/

/-- An entry of `outputs`; `value` may be missing. -/
structure Output where
  name : Str
  value : Option Value
  type : Str

structure Component where
  id : Str
  outputs : Table Output Output.name

/-- `output(var_nm)`. -/
def Component.output (cpn : Component) (varNm : Str) : Value :=
  if varNm ≠ [] then ((cpn.outputs.get? varNm).bind Output.value).getD (.str [])
  else .dict (cpn.outputs.rows.map (fun o => (o.name, o.value.getD .none)))

/-- `set_output(key, value)`. -/
def Component.setOutput (cpn : Component) (key : Str) (value : Value) : Component :=
  let type := ((cpn.outputs.get? key).map Output.type).getD value.typeName
  { cpn with outputs := cpn.outputs.put ⟨key, some value, type⟩ }

/-- The part of a canvas that the variables are in. -/
structure Vars where
  components : Table Component Component.id
  globals : Table (Str × Value) Prod.fst

/-! ### The getter -/

/-- What the interpreter provides: `json.loads`, `int` of a string, and `getattr` with the default
`None` on values that are no dictionary or list. -/
structure Runtime where
  loads : Str → Option Value
  int : Str → Option ℤ
  getattr : Value → Str → Value

/-- `xs[i]`, or `None` if there is no such element. -/
def listItem (xs : List Value) (i : ℤ) : Value :=
  if 0 ≤ i then (xs[i.toNat]?).getD .none
  else if 0 ≤ xs.length + i then (xs[(xs.length + i).toNat]?).getD .none
  else .none

/-- One key of the path, on a value that is not `None` or a string that has been parsed. -/
def item (rt : Runtime) (key : Str) : Value → Value
  | .dict entries => (entries.lookup key).getD .none
  | .list xs =>
      match rt.int key with
      | some i => listItem xs i
      | none => .none
  | v => rt.getattr v key

/-- `get_variable_param_value`. -/
def getVariableParamValue (rt : Runtime) : Value → List Str → Value
  | cur, [] => cur
  | cur, key :: keys =>
      match cur with
      | .none => .none
      | .str s =>
          match rt.loads s with
          | some v => getVariableParamValue rt (item rt key v) keys
          | none => .none
      | cur => getVariableParamValue rt (item rt key cur) keys

/-- `get_variable_value`. -/
def getVariableValue (rt : Runtime) (vars : Vars) (exp : Str) : Except CanvasError Value := do
  match ← readExp exp with
  | .global key =>
      match vars.globals.get? key with
      | some x => pure x.2
      | none => .error (.keyError key)
  | .output cpnId varNm =>
      match vars.components.get? cpnId with
      | none => .error (.cantFindVariable cpnId varNm)
      | some cpn => pure (getVariableParamValue rt (cpn.output (rootKey varNm)) (keysOf varNm))

/-! ### The setter -/

/-- The dictionary the setter descends into: a new one where there is none. -/
def innerEntries : Option Value → List (Str × Value)
  | some (.dict entries) => entries
  | _ => []

/-- The loop over the keys and the assignment after it, on the entries of a dictionary. -/
def setAlong (last : Str) (value : Value) : List Str → List (Str × Value) → List (Str × Value)
  | [], cur => setEntry last value cur
  | key :: keys, cur =>
      setEntry key (.dict (setAlong last value keys (innerEntries (cur.lookup key)))) cur

/-- `set_variable_param_value`; only a dictionary takes string keys. -/
def setVariableParamValue (obj : Value) (keys : List Str) (value : Value) :
    Except CanvasError Value :=
  match keys.getLast? with
  | none => .ok value
  | some last =>
      match obj with
      | .dict entries => .ok (.dict (setAlong last value keys entries))
      | _ => .error .typeError

/-- `set_variable_value`. -/
def setVariableValue (vars : Vars) (exp : Str) (value : Value) : Except CanvasError Vars := do
  match ← readExp exp with
  | .global key => pure { vars with globals := vars.globals.put (key, value) }
  | .output cpnId varNm =>
      match vars.components.get? cpnId with
      | none => .error (.cantFindVariable cpnId varNm)
      | some cpn =>
          if restOf varNm = [] then
            pure { vars with
              components := vars.components.put (cpn.setOutput (rootKey varNm) value) }
          else do
            let rootVal := cpn.output (rootKey varNm)
            let rootVal := if rootVal.truthy then rootVal else .dict []
            let rootVal ← setVariableParamValue rootVal (keysOf varNm) value
            pure { vars with
              components := vars.components.put (cpn.setOutput (rootKey varNm) rootVal) }

/-! ### The round trip -/

/-- The path into the component. -/
def pathOf (varNm : Str) : List Str := rootKey varNm :: keysOf varNm

/-- Neither of two references extends the other.  An output without a name stands for all outputs
of the component. -/
def Ref.Apart : Ref → Ref → Prop
  | .output c var, .output c' var' => c ≠ c' ∨
      (rootKey var' ≠ [] ∧ ¬pathOf var <+: pathOf var' ∧ ¬pathOf var' <+: pathOf var)
  | .global key, .global key' => key ≠ key'
  | _, _ => True

/-- What has been set is read again, and what is apart from it keeps its value. -/
def RoundTrips (rt : Runtime) (vars : Vars) (exp : Str) (v : Value) : Prop :=
  ∃ vars', setVariableValue vars exp v = .ok vars' ∧ getVariableValue rt vars' exp = .ok v ∧
    ∀ exp', (∀ ref ref', readExp exp = .ok ref → readExp exp' = .ok ref' → ref.Apart ref') →
      getVariableValue rt vars' exp' = getVariableValue rt vars exp'

theorem output_setOutput (cpn : Component) {key : Str} (v : Value) {varNm : Str}
    (h : varNm ≠ []) :
    (cpn.setOutput key v).output varNm = if varNm = key then v else cpn.output varNm := by
  unfold Component.output Component.setOutput
  rw [if_pos h, if_pos h, Table.get?_put]
  split_ifs
  · rfl
  · rfl

theorem keysOf_eq_nil_iff {varNm : Str} : keysOf varNm = [] ↔ restOf varNm = [] := by
  unfold keysOf
  split_ifs with h
  · simp [h]
  · simp [h, List.splitOn_ne_nil]

section roundTrip
variable {rt : Runtime} {vars vars' : Vars} {exp : Str} {v : Value} {c var : Str} {cpn : Component}

theorem getVariableValue_output (rt : Runtime) (vars : Vars)
    (hexp : readExp exp = .ok (.output c var)) (hcpn : vars.components.get? c = some cpn) :
    getVariableValue rt vars exp =
      .ok (getVariableParamValue rt (cpn.output (rootKey var)) (keysOf var)) := by
  unfold getVariableValue
  simp only [hexp, ok_bind, hcpn]
  rfl

theorem get?_put_setOutput (hcpn : vars.components.get? c = some cpn) (key : Str) (root : Value) :
    (vars.components.put (cpn.setOutput key root)).get? c = some (cpn.setOutput key root) := by
  rw [Table.get?_put]
  exact if_pos (Table.get?_eq_some.mp hcpn).2.symm

variable (rt) in
theorem getVariableParamValue_dict (d : List (Str × Value)) (key : Str) (keys : List Str) :
    getVariableParamValue rt (.dict d) (key :: keys) =
      getVariableParamValue rt ((d.lookup key).getD .none) keys := rfl

variable (rt) in
/-- The setter puts the value one level below the place where the getter looks for it. -/
theorem getVariableParamValue_setAlong (last : Str) (v : Value) (keys : List Str) : ∀ d,
    ∃ d', getVariableParamValue rt (.dict (setAlong last v keys d)) keys = .dict d' ∧
      d'.lookup last = some v := by
  induction keys with
  | nil => exact fun d => ⟨setEntry last v d, rfl, lookup_setEntry last v d⟩
  | cons key keys ih =>
      intro d
      obtain ⟨d', hget, hlast⟩ := ih (innerEntries (d.lookup key))
      refine ⟨d', ?_, hlast⟩
      show getVariableParamValue rt (.dict (setEntry key _ d)) _ = _
      rw [← hget, getVariableParamValue_dict, lookup_setEntry]
      rfl

/-- The variables after an assignment to a component that is there. -/
theorem setVariableValue_eq_ok (hexp : readExp exp = .ok (.output c var))
    (hcpn : vars.components.get? c = some cpn) (h : setVariableValue vars exp v = .ok vars') :
    ∃ root, vars' = { vars with
        components := vars.components.put (cpn.setOutput (rootKey var) root) } ∧
      if keysOf var = [] then root = v
      else ∃ last d, root = .dict (setAlong last v (keysOf var) d) := by
  unfold setVariableValue at h
  simp only [hexp, ok_bind, hcpn] at h
  by_cases hrest : restOf var = []
  · rw [if_pos hrest] at h
    cases h
    exact ⟨v, rfl, by rw [if_pos (keysOf_eq_nil_iff.mpr hrest)]⟩
  · rw [if_neg hrest] at h
    obtain ⟨root, hroot, h⟩ := bind_eq_ok h
    cases h
    refine ⟨root, rfl, ?_⟩
    have hkeys := mt keysOf_eq_nil_iff.mp hrest
    rw [if_neg hkeys]
    unfold setVariableParamValue at hroot
    rw [List.getLast?_eq_some_getLast hkeys] at hroot
    dsimp only at hroot
    split at hroot
    · next d _ =>
        cases hroot
        exact ⟨_, d, rfl⟩
    · cases hroot

/-- What is apart from an output keeps its value when the output is set. -/
theorem getVariableValue_setOutput (hexp : readExp exp = .ok (.output c var))
    (hcpn : vars.components.get? c = some cpn) (hkeys : keysOf var = []) {exp' : Str}
    (hapart : ∀ ref ref', readExp exp = .ok ref → readExp exp' = .ok ref' → ref.Apart ref') :
    getVariableValue rt { vars with
        components := vars.components.put (cpn.setOutput (rootKey var) v) } exp' =
      getVariableValue rt vars exp' := by
  have hid : cpn.id = c := (Table.get?_eq_some.mp hcpn).2
  cases hexp' : readExp exp' with
  | error e =>
      unfold getVariableValue
      rw [hexp']
      rfl
  | ok ref =>
      cases ref with
      | global key =>
          unfold getVariableValue
          rw [hexp']
          rfl
      | output c' var' =>
          have happ := hapart _ _ hexp hexp'
          by_cases hc : c' = c
          · subst hc
            obtain ⟨hroot, hprefix, -⟩ := happ.resolve_left (fun h => h rfl)
            have hne : rootKey var' ≠ rootKey var := by
              intro heq
              apply hprefix
              unfold pathOf
              rw [hkeys, heq]
              exact List.prefix_append [rootKey var] _
            rw [getVariableValue_output rt vars hexp' hcpn, getVariableValue_output rt _ hexp'
              (get?_put_setOutput hcpn (rootKey var) v), output_setOutput cpn v hroot, if_neg hne]
          · unfold getVariableValue
            rw [hexp']
            have hget : (vars.components.put (cpn.setOutput (rootKey var) v)).get? c' =
                vars.components.get? c' := by
              rw [Table.get?_put]
              exact if_neg (fun h => hc (h.trans hid))
            simp only [ok_bind, hget]

/-- The value of the expression when the output has got a new value. -/
theorem getVariableValue_after (hexp : readExp exp = .ok (.output c var)) (hroot : rootKey var ≠ [])
    (hcpn : vars.components.get? c = some cpn) (root : Value) :
    getVariableValue rt { vars with
        components := vars.components.put (cpn.setOutput (rootKey var) root) } exp =
      .ok (getVariableParamValue rt root (keysOf var)) := by
  rw [getVariableValue_output rt _ hexp (get?_put_setOutput hcpn (rootKey var) root),
    output_setOutput cpn root hroot, if_pos rfl]

/-- With keys after the name of the output, something else than the value is read. -/
theorem not_roundTrips_of_keys (hexp : readExp exp = .ok (.output c var))
    (hroot : rootKey var ≠ []) (hcpn : vars.components.get? c = some cpn)
    (hkeys : keysOf var ≠ []) : ¬RoundTrips rt vars exp v := by
  rintro ⟨vars', hset, hget, -⟩
  obtain ⟨root, rfl, hvalue⟩ := setVariableValue_eq_ok hexp hcpn hset
  rw [if_neg hkeys] at hvalue
  obtain ⟨last, d, rfl⟩ := hvalue
  rw [getVariableValue_after hexp hroot hcpn] at hget
  obtain ⟨d', hd', hlast⟩ := getVariableParamValue_setAlong rt last v (keysOf var) d
  -- the value would have itself as an entry
  have hv : v = .dict d' := by
    rw [← hd']
    exact (Except.ok.inj hget).symm
  have hlt := sizeOf_lt_of_lookup hlast
  rw [← hv] at hlt
  exact lt_irrefl _ hlt

/-- A variable that is set is read again, and the others keep their values, exactly if its path has
no keys after the name of the output. -/
theorem setVariableValue_roundTrip_iff (rt : Runtime) (vars : Vars) (v : Value)
    (hexp : readExp exp = .ok (.output c var)) (hroot : rootKey var ≠ [])
    (hcpn : vars.components.get? c = some cpn) :
    RoundTrips rt vars exp v ↔ keysOf var = [] := by
  constructor
  · intro h
    by_contra hkeys
    exact not_roundTrips_of_keys hexp hroot hcpn hkeys h
  · intro hkeys
    refine ⟨{ vars with components := vars.components.put (cpn.setOutput (rootKey var) v) }, ?_, ?_,
      fun exp' hapart => getVariableValue_setOutput hexp hcpn hkeys hapart⟩
    · unfold setVariableValue
      simp only [hexp, ok_bind, hcpn, keysOf_eq_nil_iff.mp hkeys, if_true]
      rfl
    · rw [getVariableValue_after hexp hroot hcpn, hkeys]
      rfl

end roundTrip

/-! A component without outputs: `c@r` round-trips, `c@r.k` does not. -/

/-- What the path goes through is a dictionary or missing. -/
def ObjectsAlong : Option Value → List Str → Prop
  | some (.dict d), key :: keys => ObjectsAlong (d.lookup key) keys
  | some _, _ :: _ => False
  | _, _ => True

def exampleVars : Vars := ⟨Table.empty.put ⟨"c", Table.empty⟩, Table.empty⟩

/-- No string of the example is parsed, and no value has attributes. -/
def exampleRuntime : Runtime := ⟨fun _ => none, fun _ => none, fun _ _ => .none⟩

theorem setVariableValue_roundTrip_output :
    RoundTrips exampleRuntime exampleVars "c@r" (.int 1) := by
  have hexp : readExp "c@r" = .ok (.output "c" "r") := by rfl
  exact (setVariableValue_roundTrip_iff exampleRuntime exampleVars (.int 1) hexp (by decide)
    rfl).mpr (by decide)

theorem setVariableValue_not_roundTrip :
    ¬∀ (rt : Runtime) (vars : Vars) (exp c var : Str) (cpn : Component) (v : Value),
      readExp exp = .ok (.output c var) → rootKey var ≠ [] →
      vars.components.get? c = some cpn →
      ObjectsAlong ((cpn.outputs.get? (rootKey var)).bind Output.value) (keysOf var) →
      RoundTrips rt vars exp v := by
  intro h
  have hexp : readExp "c@r.k" = .ok (.output "c" "r.k") := by rfl
  have hroot : rootKey "r.k" ≠ [] := by decide
  have htrip := h exampleRuntime exampleVars "c@r.k" "c" "r.k" _ (.int 1) hexp hroot rfl trivial
  exact not_roundTrips_of_keys hexp hroot rfl (by decide) htrip

end RagFlow.Agent
