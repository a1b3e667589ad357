import RagFlow.CanvasVars
import RagFlow.Transition

/-! # Saving and loading a canvas

`load` and `__str__` of `agent/canvas.py`.  A canvas keeps the document it was loaded from
(`self.dsl`) and works on attributes of its own.

* **Parts that are written back.** `path`, `history`, `retrieval` and `memory`: `__str__` puts them
  into the document.
* **Parts that are shared.** `globals` and `variables` are the objects of the document if it has
  them, so that what is done to them in place is done to the document.  If it has not, they are new
  objects, which `__str__` does not write back.

Values are what `json.dumps` writes of them: a tuple is a list, and the keys of dictionaries are
strings.  `canvas_reload_iff`: a canvas is loaded again as it was exactly if the document has
`globals` or the globals are still those that `load` makes up. -/

namespace RagFlow.Agent.Persist

open Py

/-! ### The canvas -/

/-- The parts that `__str__` writes into the document. -/
inductive Part where
  | path
  | history
  | retrieval
  | memory
deriving DecidableEq

def Part.key : Part → Str
  | path => "path"
  | history => "history"
  | retrieval => "retrieval"
  | memory => "memory"

/-- The entries of a document. -/
abbrev Doc := List (Str × Value)

/-- A canvas.  `dsl` is the document without its components; the objects that are marked as shared
are those of the document. -/
structure Canvas (K : Type) where
  components : K
  taskId : Str
  dsl : Doc
  part : Part → Value
  shared : Part → Bool
  globals : Doc
  globalsShared : Bool
  vars : Value
  varsShared : Bool

/-- The globals of a document without `globals`. -/
def defaultGlobals : Doc :=
  [("sys.query", .str []), ("sys.user_id", .str []), ("sys.conversation_turns", .int 0),
   ("sys.files", .list []), ("sys.history", .list [])]

/-- `globals["sys.history"] = []`, if there is no such entry. -/
def withHistory (globals : Doc) : Doc :=
  if (globals.lookup "sys.history".toList).isSome then globals
  else setEntry "sys.history" (.list []) globals

/-- How the components are loaded and saved. -/
structure ComponentStore (K : Type) where
  load : Value → Except CanvasError K
  dump : K → Value

def docEntry (doc : Doc) (key : Str) : Except CanvasError Value :=
  match doc.lookup key with
  | some v => .ok v
  | none => .error (.keyError key)

/-- `self.globals`, the document after it, and whether it is shared. -/
def loadGlobals (dsl : Doc) : Except CanvasError (Doc × Doc × Bool) :=
  match dsl.lookup "globals".toList with
  | none => .ok (defaultGlobals, dsl, false)
  | some (.dict globals) =>
      .ok (withHistory globals, setEntry "globals" (.dict (withHistory globals)) dsl, true)
  | some _ => .error .typeError

/-- The document without its components. -/
def others (doc : Doc) : Doc := doc.filter (·.1 ≠ "components".toList)

/-- `Canvas.load`, with `Graph.load`. -/
def load {K : Type} (io : ComponentStore K) (taskId : Str) (doc : Doc) :
    Except CanvasError (Canvas K) := do
  let components ← docEntry doc "components"
  let components ← io.load components
  let dsl := others doc
  let path ← docEntry dsl "path"
  let history ← docEntry dsl "history"
  let (globals, dsl, globalsShared) ← loadGlobals dsl
  let vars := dsl.lookup "variables".toList
  let retrieval ← docEntry dsl "retrieval"
  let memory := dsl.lookup "memory".toList
  pure {
    components, taskId, dsl, globals, globalsShared
    part := fun
      | .path => path
      | .history => history
      | .retrieval => retrieval
      | .memory => memory.getD (.list [])
    shared := fun
      | .memory => memory.isSome
      | _ => true
    vars := vars.getD (.dict [])
    varsShared := vars.isSome }

/-- What `__str__` assigns to the document before it is written. -/
def writeBack {K : Type} (c : Canvas K) : Doc :=
  let dsl := setEntry "history" (c.part .history) c.dsl
  let dsl := setEntry "retrieval" (c.part .retrieval) dsl
  let dsl := setEntry "memory" (c.part .memory) dsl
  let dsl := setEntry "path" (c.part .path) dsl
  setEntry "task_id" (.str c.taskId) dsl

/-- `__str__`: the document it returns. -/
def toDoc {K : Type} (io : ComponentStore K) (c : Canvas K) : Doc :=
  ("components", io.dump c.components) :: writeBack c

/-! ### What is done to a canvas -/

/-- The statements of `agent/canvas.py` that change one of the parts, each with the place where
values come from left open. -/
inductive Op (K : Type) where
  /-- Components run, or are reset. -/
  | components (k : K)
  /-- `self.path.append(v)` and the like. -/
  | append (p : Part) (v : Value)
  /-- `self.path.pop(i)`. -/
  | pop (i : ℕ)
  /-- The entries of `self.retrieval[-1]`, in `add_reference`. -/
  | setReference (v : Value)
  /-- `self.path = self.path[:idx]`, `self.history = []` and the like. -/
  | assign (p : Part) (v : Value)
  /-- `self.globals[key] = v`, in `run`, `set_variable_value` and `set_global_param`. -/
  | setGlobal (key : Str) (v : Value)
  /-- `self.globals[key].append(v)`. -/
  | appendGlobal (key : Str) (v : Value)
  /-- A round of the loop of `reset` over the globals. -/
  | resetGlobal (key : Str)
  /-- `__str__`. -/
  | save

section exec
variable {K : Type}

/-- A part is changed in place, and so is the document if it holds the same object. -/
def Canvas.write (c : Canvas K) (p : Part) (v : Value) : Canvas K :=
  { c with
    part := Function.update c.part p v
    dsl := if c.shared p then setEntry p.key v c.dsl else c.dsl }

def Canvas.writeGlobals (c : Canvas K) (globals : Doc) : Canvas K :=
  { c with
    globals
    dsl := if c.globalsShared then setEntry "globals" (.dict globals) c.dsl else c.dsl }

def Canvas.writeVars (c : Canvas K) (vars : Value) : Canvas K :=
  { c with
    vars
    dsl := if c.varsShared then setEntry "variables" vars c.dsl else c.dsl }

/-- The list in a part. -/
def asList : Value → Except CanvasError (List Value)
  | .list xs => .ok xs
  | _ => .error .typeError

/-- What `reset` makes of a value under `sys.`; a Boolean is an integer. -/
def resetSys : Value → Value
  | .str _ => .str []
  | .bool _ | .int _ | .float _ => .int 0
  | .list _ => .list []
  | .dict _ => .dict []
  | .none => .none

/-- What `reset` makes of an environment variable of a given type, and of its entry in
`variables`. -/
def resetEnv (type : Str) : Value × Option Value :=
  if type = "string" then (.str [], some (.str []))
  else if type = "number" then (.int 0, some (.int 0))
  else if type = "boolean" then (.bool false, some (.bool false))
  else if type = "object" then (.dict [], some (.dict []))
  else if startswith type "array" then (.list [], some (.list []))
  else (.str [], none)

/-- The branch for `env.` of the loop in `reset`. -/
def Canvas.resetEnvGlobal (c : Canvas K) (key : Str) : Except CanvasError (Canvas K) :=
  match c.vars with
  | .dict vars =>
      match vars.lookup (key.drop 4) with
      | none => .ok (c.writeGlobals (setEntry key (.str []) c.globals))
      | some (.dict entry) =>
          match entry.lookup "type".toList with
          | some (.str type) =>
              let c := c.writeGlobals (setEntry key (resetEnv type).1 c.globals)
              match (resetEnv type).2 with
              | none => .ok c
              | some v => .ok (c.writeVars (.dict
                  (setEntry (key.drop 4) (.dict (setEntry "value" v entry)) vars)))
          | _ => .error .typeError
      | some _ => .error .typeError
  | _ => .error .typeError

def exec (c : Canvas K) : Op K → Except CanvasError (Canvas K)
  | .components components => .ok { c with components }
  | .append p v => do
      let xs ← asList (c.part p)
      pure (c.write p (.list (xs ++ [v])))
  | .pop i => do
      let xs ← asList (c.part .path)
      if i < xs.length then pure (c.write .path (.list (xs.eraseIdx i))) else .error .valueError
  | .setReference v => do
      let xs ← asList (c.part .retrieval)
      if xs ≠ [] then pure (c.write .retrieval (.list (xs.dropLast ++ [v]))) else .error .valueError
  | .assign p v =>
      .ok { c with
        part := Function.update c.part p v
        shared := Function.update c.shared p false }
  | .setGlobal key v => .ok (c.writeGlobals (setEntry key v c.globals))
  | .appendGlobal key v => do
      let value ← docEntry c.globals key
      let xs ← asList value
      pure (c.writeGlobals (setEntry key (.list (xs ++ [v])) c.globals))
  | .resetGlobal key =>
      match c.globals.lookup key with
      | none => .error (.keyError key)
      | some v =>
          if startswith key "sys." then .ok (c.writeGlobals (setEntry key (resetSys v) c.globals))
          else if startswith key "env." then c.resetEnvGlobal key
          else .ok c
  | .save => .ok { c with dsl := writeBack c, shared := fun _ => true }

/-- `add_user_input`. -/
def addUserInput (question text : Value) : List (Op K) :=
  [.append .history (.list [.str "user", question]), .appendGlobal "sys.history" text]

/-- `reset`. -/
def reset (mem : Bool) (c : Canvas K) : List (Op K) :=
  .assign .path (.list []) ::
    (if mem then [] else [.assign .history (.list []), .assign .retrieval (.list []),
      .assign .memory (.list [])]) ++ c.globals.map (fun e => .resetGlobal e.1)

end exec

/-! ### What a canvas keeps -/

section kept
variable {K : Type} {c c' : Canvas K} {P : Prop}

/-- Where the globals and the variables are, `P` saying that the document has `globals`. -/
structure Kept (P : Prop) (c : Canvas K) : Prop where
  present : P → c.globalsShared = true ∧ c.dsl.lookup "globals".toList = some (.dict c.globals) ∧
    (c.globals.lookup "sys.history".toList).isSome
  absent : ¬P → c.globalsShared = false ∧ c.dsl.lookup "globals".toList = none
  vars : (c.varsShared = true ∧ c.dsl.lookup "variables".toList = some c.vars) ∨
    (c.varsShared = false ∧ c.dsl.lookup "variables".toList = none ∧ c.vars = .dict [])

theorem Part.key_ne (p : Part) : "globals".toList ≠ p.key ∧ "variables".toList ≠ p.key := by
  cases p <;> decide

/-- A change of the document under other keys. -/
theorem Kept.of_lookup (h : Kept P c) (hglobals : c'.globals = c.globals)
    (hgshared : c'.globalsShared = c.globalsShared) (hvars : c'.vars = c.vars)
    (hvshared : c'.varsShared = c.varsShared)
    (hdsl : ∀ key ∈ ["globals".toList, "variables".toList], c'.dsl.lookup key = c.dsl.lookup key) :
    Kept P c' := by
  have hg := hdsl _ (List.mem_cons_self)
  have hv := hdsl "variables" (by simp)
  refine ⟨fun hP => ?_, fun hP => ?_, ?_⟩
  · rw [hg, hglobals, hgshared]
    exact h.present hP
  · rw [hg, hgshared]
    exact h.absent hP
  · rw [hv, hvars, hvshared]
    exact h.vars

theorem Kept.write (h : Kept P c) (p : Part) (v : Value) : Kept P (c.write p v) := by
  refine h.of_lookup rfl rfl rfl rfl (fun key hkey => ?_)
  have hne : key ≠ p.key := by
    rcases List.mem_pair.mp hkey with rfl | rfl
    · exact p.key_ne.1
    · exact p.key_ne.2
  unfold Canvas.write
  split_ifs
  · exact lookup_setEntry_of_ne hne v c.dsl
  · rfl

theorem Kept.assign (h : Kept P c) (part : Part → Value) (shared : Part → Bool) :
    Kept P { c with part, shared } :=
  h.of_lookup rfl rfl rfl rfl (fun _ _ => rfl)

theorem Kept.writeGlobals (h : Kept P c) {globals : Doc}
    (hhistory : (c.globals.lookup "sys.history".toList).isSome →
      (globals.lookup "sys.history".toList).isSome) : Kept P (c.writeGlobals globals) := by
  have hne : "variables".toList ≠ "globals".toList := by decide
  unfold Canvas.writeGlobals
  refine ⟨fun hP => ?_, fun hP => ?_, ?_⟩
  · obtain ⟨hshared, -, hsome⟩ := h.present hP
    refine ⟨hshared, ?_, hhistory hsome⟩
    simp only [hshared, if_true]
    exact lookup_setEntry _ _ _
  · obtain ⟨hshared, hnone⟩ := h.absent hP
    refine ⟨hshared, ?_⟩
    simp only [hshared, Bool.false_eq_true, if_false]
    exact hnone
  · have hlookup : (if c.globalsShared then setEntry "globals".toList (.dict globals) c.dsl
        else c.dsl).lookup "variables".toList = c.dsl.lookup "variables".toList := by
      split_ifs
      · exact lookup_setEntry_of_ne hne _ _
      · rfl
    show (_ ∧ (if c.globalsShared then _ else _ : Doc).lookup _ = _) ∨ _ ∧ _ ∧ _
    rw [hlookup]
    exact h.vars

theorem isSome_lookup_setEntry {key key' : Str} (v : Value) {d : Doc}
    (h : (d.lookup key').isSome) : ((setEntry key v d).lookup key').isSome := by
  by_cases hkey : key' = key
  · rw [hkey, lookup_setEntry]
    rfl
  · rw [lookup_setEntry_of_ne hkey]
    exact h

theorem Kept.setGlobal (h : Kept P c) (key : Str) (v : Value) :
    Kept P (c.writeGlobals (setEntry key v c.globals)) :=
  h.writeGlobals (isSome_lookup_setEntry v)

/-- Variables that are not empty are those of the document. -/
theorem Kept.writeVars (h : Kept P c) {vars : Doc} {key : Str} {v : Value}
    (hvars : c.vars = .dict vars) (hkey : vars.lookup key = some v) (w : Value) :
    Kept P (c.writeVars w) := by
  have hne : "globals".toList ≠ "variables".toList := by decide
  obtain ⟨hshared, -⟩ | ⟨-, -, hempty⟩ := h.vars
  · have hlookup : (setEntry "variables" w c.dsl).lookup "globals".toList =
        c.dsl.lookup "globals".toList := lookup_setEntry_of_ne hne _ _
    unfold Canvas.writeVars
    rw [if_pos hshared]
    refine ⟨fun hP => ?_, fun hP => ?_, .inl ⟨hshared, lookup_setEntry _ _ _⟩⟩
    · rw [hlookup]
      exact h.present hP
    · rw [hlookup]
      exact h.absent hP
  · rw [hvars] at hempty
    cases hempty
    cases hkey

theorem Kept.resetEnvGlobal (h : Kept P c) {key : Str} (hexec : c.resetEnvGlobal key = .ok c') :
    Kept P c' := by
  unfold Canvas.resetEnvGlobal at hexec
  cases hvars : c.vars with
  | dict vars =>
      simp only [hvars] at hexec
      cases hvar : vars.lookup (key.drop 4) with
      | none =>
          simp only [hvar] at hexec
          cases hexec
          exact h.setGlobal key _
      | some v =>
          simp only [hvar] at hexec
          split at hexec
          · next hnone => cases hnone
          · next entry hentry =>
              split at hexec
              · next type _ =>
                  have hset := h.setGlobal key (resetEnv type).1
                  split at hexec
                  · cases hexec
                    exact hset
                  · cases hexec
                    exact hset.writeVars hvars hvar _
              · cases hexec
          · cases hexec
  | _ =>
      simp only [hvars] at hexec
      cases hexec

/-- The keys that `__str__` assigns. -/
theorem lookup_writeBack (c : Canvas K) {key : Str}
    (h : ∀ key' ∈ ["history".toList, "retrieval".toList, "memory".toList, "path".toList,
      "task_id".toList], key ≠ key') : (writeBack c).lookup key = c.dsl.lookup key := by
  unfold writeBack
  rw [lookup_setEntry_of_ne (h _ (by simp)), lookup_setEntry_of_ne (h _ (by simp)),
    lookup_setEntry_of_ne (h _ (by simp)), lookup_setEntry_of_ne (h _ (by simp)),
    lookup_setEntry_of_ne (h _ (by simp))]

/-- What a statement does leaves the globals and the variables where they are. -/
theorem Kept.exec (h : Kept P c) {op : Op K} (hexec : exec c op = .ok c') : Kept P c' := by
  cases op with
  | components k =>
      cases hexec
      exact h.of_lookup rfl rfl rfl rfl (fun _ _ => rfl)
  | append p v =>
      obtain ⟨xs, -, hexec⟩ := bind_eq_ok hexec
      cases hexec
      exact h.write _ _
  | pop i =>
      obtain ⟨xs, -, hexec⟩ := bind_eq_ok hexec
      split_ifs at hexec
      cases hexec
      exact h.write _ _
  | setReference v =>
      obtain ⟨xs, -, hexec⟩ := bind_eq_ok hexec
      split_ifs at hexec
      cases hexec
      exact h.write _ _
  | assign p v =>
      cases hexec
      exact h.assign _ _
  | setGlobal key v =>
      cases hexec
      exact h.setGlobal key v
  | appendGlobal key v =>
      obtain ⟨value, -, hexec⟩ := bind_eq_ok hexec
      obtain ⟨xs, -, hexec⟩ := bind_eq_ok hexec
      cases hexec
      exact h.setGlobal key _
  | resetGlobal key =>
      simp only [Persist.exec] at hexec
      split at hexec
      · cases hexec
      · split_ifs at hexec
        · cases hexec
          exact h.setGlobal key _
        · exact h.resetEnvGlobal hexec
        · cases hexec
          exact h
  | save =>
      cases hexec
      refine h.of_lookup rfl rfl rfl rfl (fun key hkey => lookup_writeBack c ?_)
      rcases List.mem_pair.mp hkey with rfl | rfl
      · decide
      · decide

end kept

/-! ### Loading -/

section reload
variable {K : Type} {io : ComponentStore K} {taskId : Str} {doc : Doc} {c : Canvas K}

theorem lookup_others (doc : Doc) (key : Str) (h : key ≠ "components") :
    (others doc).lookup key = doc.lookup key := by
  unfold others
  induction doc with
  | nil => rfl
  | cons e doc ih =>
      simp only [List.filter_cons]
      split_ifs with hkeep
      · rw [List.lookup_cons, List.lookup_cons, ih]
      · have he : e.1 = "components" := by
          by_contra hne
          exact hkeep (decide_eq_true hne)
        rw [ih, List.lookup_cons, he, beq_eq_false_iff_ne.mpr h]

theorem docEntry_eq_ok {key : Str} {v : Value} :
    docEntry doc key = .ok v ↔ doc.lookup key = some v := by
  unfold docEntry
  cases doc.lookup key with
  | none => simp
  | some w => simp

/-- A canvas that has been loaded. -/
theorem load_eq_ok (h : load io taskId doc = .ok c) :
    ∃ globals dsl shared, loadGlobals (others doc) = .ok (globals, dsl, shared) ∧
      c.globals = globals ∧ c.dsl = dsl ∧ c.globalsShared = shared ∧
      c.vars = (dsl.lookup "variables".toList).getD (.dict []) ∧
      c.varsShared = (dsl.lookup "variables".toList).isSome := by
  obtain ⟨_, -, h⟩ := bind_eq_ok h
  obtain ⟨_, -, h⟩ := bind_eq_ok h
  obtain ⟨_, -, h⟩ := bind_eq_ok h
  obtain ⟨_, -, h⟩ := bind_eq_ok h
  obtain ⟨⟨globals, dsl, shared⟩, hglobals, h⟩ := bind_eq_ok h
  obtain ⟨_, -, h⟩ := bind_eq_ok h
  cases h
  exact ⟨globals, dsl, shared, hglobals, rfl, rfl, rfl, rfl, rfl⟩

theorem isSome_lookup_withHistory (globals : Doc) :
    ((withHistory globals).lookup "sys.history".toList).isSome := by
  unfold withHistory
  split_ifs with h
  · exact h
  · rw [lookup_setEntry]
    rfl

theorem kept_of_load (h : load io taskId doc = .ok c) :
    Kept (doc.lookup "globals".toList).isSome c := by
  obtain ⟨globals, dsl, shared, hload, hglobals, hdsl, hshared, hvars, hvshared⟩ := load_eq_ok h
  have hother := lookup_others doc "globals" (by decide)
  have hkeptVars : (c.varsShared = true ∧ c.dsl.lookup "variables".toList = some c.vars) ∨
      (c.varsShared = false ∧ c.dsl.lookup "variables".toList = none ∧ c.vars = .dict []) := by
    rw [hvshared, hvars, hdsl]
    cases dsl.lookup "variables".toList with
    | none => exact .inr ⟨rfl, rfl, rfl⟩
    | some v => exact .inl ⟨rfl, rfl⟩
  unfold loadGlobals at hload
  rw [hother] at hload
  cases hlookup : doc.lookup "globals".toList with
  | none =>
      rw [hlookup] at hload hother
      cases hload
      refine ⟨fun hP => (by cases hP), fun _ => ⟨hshared, ?_⟩, hkeptVars⟩
      rw [hdsl]
      exact hother
  | some v =>
      rw [hlookup] at hload
      cases v with
      | dict d =>
          cases hload
          refine ⟨fun _ => ⟨hshared, ?_, ?_⟩, fun hP => absurd rfl hP, hkeptVars⟩
          · rw [hdsl, hglobals]
            exact lookup_setEntry _ _ _
          · rw [hglobals]
            exact isSome_lookup_withHistory d
      | _ => cases hload

theorem kept_of_run {ops : List (Op K)} {c₀ : Canvas K} (h : load io taskId doc = .ok c₀)
    (hrun : ops.foldlM exec c₀ = .ok c) : Kept (doc.lookup "globals".toList).isSome c :=
  foldlM_keeps (P := Kept _) (fun _ _ _ _ hc hexec => hc.exec hexec) (kept_of_load h) hrun

/-- The canvas is loaded again as it was. -/
def Reloads (io : ComponentStore K) (c : Canvas K) : Prop :=
  ∀ taskId, ∃ c', load io taskId (toDoc io c) = .ok c' ∧ c'.part = c.part ∧
    c'.globals = c.globals ∧ c'.vars = c.vars

theorem lookup_toDoc (io : ComponentStore K) (c : Canvas K) {key : Str} (h : key ≠ "components") :
    (others (toDoc io c)).lookup key = (writeBack c).lookup key := by
  rw [lookup_others _ key h]
  show List.lookup key ((("components".toList : Str), _) :: _) = _
  rw [List.lookup_cons, beq_eq_false_iff_ne.mpr h]

/-- A part is written back. -/
theorem lookup_writeBack_part (c : Canvas K) (p : Part) :
    (writeBack c).lookup p.key = some (c.part p) := by
  unfold writeBack
  cases p
  · rw [lookup_setEntry_of_ne (by decide)]
    exact lookup_setEntry _ _ _
  · rw [lookup_setEntry_of_ne (by decide), lookup_setEntry_of_ne (by decide),
      lookup_setEntry_of_ne (by decide), lookup_setEntry_of_ne (by decide)]
    exact lookup_setEntry _ _ _
  · rw [lookup_setEntry_of_ne (by decide), lookup_setEntry_of_ne (by decide),
      lookup_setEntry_of_ne (by decide)]
    exact lookup_setEntry _ _ _
  · rw [lookup_setEntry_of_ne (by decide), lookup_setEntry_of_ne (by decide)]
    exact lookup_setEntry _ _ _

/-- Loading a saved canvas, given what is made of its globals. -/
theorem load_toDoc {k' : K} (hk : io.load (io.dump c.components) = .ok k') {globals dsl : Doc}
    {shared : Bool} (hglobals : loadGlobals (others (toDoc io c)) = .ok (globals, dsl, shared))
    (hdsl : ∀ key ≠ "globals".toList, dsl.lookup key = (others (toDoc io c)).lookup key)
    (taskId : Str) :
    ∃ c', load io taskId (toDoc io c) = .ok c' ∧ c'.part = c.part ∧ c'.globals = globals ∧
      c'.vars = (c.dsl.lookup "variables".toList).getD (.dict []) := by
  have hpart : ∀ p : Part, (others (toDoc io c)).lookup p.key = some (c.part p) := by
    intro p
    rw [lookup_toDoc io c (by cases p <;> decide)]
    exact lookup_writeBack_part c p
  have hcomponents : docEntry (toDoc io c) "components" = .ok (io.dump c.components) := rfl
  have hpath : docEntry (others (toDoc io c)) "path" = .ok (c.part .path) :=
    docEntry_eq_ok.mpr (hpart .path)
  have hhistory : docEntry (others (toDoc io c)) "history" = .ok (c.part .history) :=
    docEntry_eq_ok.mpr (hpart .history)
  have hretrieval : docEntry dsl "retrieval" = .ok (c.part .retrieval) := by
    rw [docEntry_eq_ok, hdsl _ (by decide)]
    exact hpart .retrieval
  have hmemory : dsl.lookup "memory".toList = some (c.part .memory) := by
    rw [hdsl _ (by decide)]
    exact hpart .memory
  have hvars : dsl.lookup "variables".toList = c.dsl.lookup "variables".toList := by
    rw [hdsl _ (by decide), lookup_toDoc io c (by decide)]
    exact lookup_writeBack c (by decide)
  unfold load
  simp only [hcomponents, hk, hpath, hhistory, hglobals, hretrieval, hmemory, hvars, ok_bind]
  refine ⟨_, rfl, ?_, rfl, rfl⟩
  funext p
  cases p <;> rfl

theorem Kept.vars_eq {P : Prop} (h : Kept P c) :
    (c.dsl.lookup "variables".toList).getD (.dict []) = c.vars := by
  obtain ⟨-, hsome⟩ | ⟨-, hnone, hempty⟩ := h.vars
  · rw [hsome]
    rfl
  · rw [hnone, hempty]
    rfl

/-- With `globals` in the document, they are loaded as they are. -/
theorem loadGlobals_present {P : Prop} (h : Kept P c) (hP : P) :
    loadGlobals (others (toDoc io c)) = .ok (c.globals,
      setEntry "globals" (.dict c.globals) (others (toDoc io c)), true) := by
  obtain ⟨-, hsome, hhistory⟩ := h.present hP
  have hlookup : (others (toDoc io c)).lookup "globals".toList = some (.dict c.globals) := by
    rw [lookup_toDoc io c (by decide), lookup_writeBack c (by decide), hsome]
  have hwith : withHistory c.globals = c.globals := if_pos hhistory
  unfold loadGlobals
  simp only [hlookup, hwith]

/-- Without `globals` in the document, they are made up. -/
theorem loadGlobals_absent {P : Prop} (h : Kept P c) (hP : ¬P) :
    loadGlobals (others (toDoc io c)) = .ok (defaultGlobals, others (toDoc io c), false) := by
  have hlookup : (others (toDoc io c)).lookup "globals".toList = none := by
    rw [lookup_toDoc io c (by decide), lookup_writeBack c (by decide), (h.absent hP).2]
  unfold loadGlobals
  simp only [hlookup]

theorem reloads_of_present {P : Prop} (hio : ∀ k, ∃ k', io.load (io.dump k) = .ok k')
    (h : Kept P c) (hP : P) : Reloads io c := by
  intro taskId
  obtain ⟨k', hk⟩ := hio c.components
  obtain ⟨c', hload, hpart, hglobals, hvars⟩ := load_toDoc hk (loadGlobals_present h hP)
    (fun key hkey => lookup_setEntry_of_ne hkey _ _) taskId
  exact ⟨c', hload, hpart, hglobals, hvars.trans h.vars_eq⟩

theorem reloads_iff_of_absent {P : Prop} (hio : ∀ k, ∃ k', io.load (io.dump k) = .ok k')
    (h : Kept P c) (hP : ¬P) : Reloads io c ↔ c.globals = defaultGlobals := by
  obtain ⟨k', hk⟩ := hio c.components
  have hagain := load_toDoc hk (loadGlobals_absent h hP) (fun _ _ => rfl)
  constructor
  · intro hreloads
    obtain ⟨c', hload, -, hglobals, -⟩ := hagain []
    obtain ⟨c'', hload', -, hglobals', -⟩ := hreloads []
    cases hload.symm.trans hload'
    rw [← hglobals', hglobals]
  · intro hdefault taskId
    obtain ⟨c', hload, hpart, hglobals, hvars⟩ := hagain taskId
    exact ⟨c', hload, hpart, hglobals.trans hdefault.symm, hvars.trans h.vars_eq⟩

/-- A canvas that has been loaded and worked on is loaded again as it is exactly if the document
has `globals`, or the globals are still those that were made up for it. -/
theorem canvas_reload_iff {ops : List (Op K)} {c₀ : Canvas K}
    (hio : ∀ k, ∃ k', io.load (io.dump k) = .ok k') (hload : load io taskId doc = .ok c₀)
    (hrun : ops.foldlM exec c₀ = .ok c) :
    Reloads io c ↔ (doc.lookup "globals".toList).isSome ∨ c.globals = defaultGlobals := by
  have hkept := kept_of_run hload hrun
  by_cases hP : (doc.lookup "globals".toList).isSome
  · exact iff_of_true (reloads_of_present hio hkept hP) (.inl hP)
  · rw [reloads_iff_of_absent hio hkept hP, or_iff_right hP]

end reload

/-! A user says something on a canvas without components, once with `globals` in the document and
once without. -/

def exampleStore : ComponentStore Unit := ⟨fun _ => .ok (), fun _ => .dict []⟩

def exampleDoc : Doc :=
  [("components", .dict []), ("path", .list []), ("history", .list []), ("retrieval", .list [])]

def exampleOps : List (Op Unit) := addUserInput (.str "hi") (.str "user: hi")

theorem canvas_reload_with_globals :
    ∃ c₀ c, load exampleStore "t" (("globals", .dict []) :: exampleDoc) = .ok c₀ ∧
      exampleOps.foldlM exec c₀ = .ok c ∧ Reloads exampleStore c := by
  have hexample : ∃ c₀ c, load exampleStore "t" (("globals", .dict []) :: exampleDoc) = .ok c₀ ∧
      exampleOps.foldlM exec c₀ = .ok c := ⟨_, _, rfl, rfl⟩
  obtain ⟨c₀, c, hload, hrun⟩ := hexample
  exact ⟨c₀, c, hload, hrun,
    (canvas_reload_iff (fun _ => ⟨(), rfl⟩) hload hrun).mpr (.inl (by decide))⟩

theorem canvas_reload_loses_globals :
    ¬∀ (K : Type) (io : ComponentStore K) (taskId : Str) (doc : Doc) (c₀ c : Canvas K)
      (ops : List (Op K)), (∀ k, ∃ k', io.load (io.dump k) = .ok k') →
      load io taskId doc = .ok c₀ → ops.foldlM exec c₀ = .ok c → Reloads io c := by
  intro h
  have hexample : ∃ c₀ c, load exampleStore "t" exampleDoc = .ok c₀ ∧
      exampleOps.foldlM exec c₀ = .ok c ∧
      c.globals.lookup "sys.history".toList = some (.list [.str "user: hi"]) :=
    ⟨_, _, rfl, rfl, rfl⟩
  obtain ⟨c₀, c, hload, hrun, hhistory⟩ := hexample
  have hreloads := h Unit exampleStore "t" exampleDoc c₀ c exampleOps (fun _ => ⟨(), rfl⟩) hload
    hrun
  have hdefault := (reloads_iff_of_absent (fun _ => ⟨(), rfl⟩) (kept_of_run hload hrun)
    (by decide)).mp hreloads
  rw [hdefault] at hhistory
  cases hhistory

end RagFlow.Agent.Persist
