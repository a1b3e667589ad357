import Mathlib.Data.Finset.Basic
import Mathlib.Data.Finset.Lattice.Lemmas
import RagFlow.PyVal

/-! # Metadata filters

The metadata of a knowledge base is a map from field names to the values of the field, each
value with the list of the documents that carry it.  `filterOut` collects the documents whose
value satisfies one condition, `metaFilter` combines a list of conditions under `and` or `or`.

Two variables of the source live longer than one round of their loop.  In `filterOut` the
query value is overwritten while the values are scanned, so a round hands its value to the
next one.  In `metaFilter` the set collected so far is also the mark that no condition has
been seen: as long as it is empty the next condition replaces it.

`metaFilter_exact_iff` states when the result is the intersection (the union) of what the
conditions match: always under `or`, and under `and` unless the list starts with conditions
that match nothing and some document satisfies all the conditions after them. -/

namespace RagFlow.MetaFilter

open Py

/-- Identifiers of documents. -/
abbrev DocId := Str

/-- The operators `filter_out` distinguishes; any other text matches nothing. -/
inductive Operator where
  | contains | notContains | isIn | notIn | startWith | endWith | empty | notEmpty
  | eq | ne | gt | lt | ge | le
  | unknown
deriving DecidableEq, Repr

/-- The operator written in a filter. -/
def Operator.ofStr (s : Str) : Operator :=
  if s = "contains" then .contains
  else if s = "not contains" then .notContains
  else if s = "in" then .isIn
  else if s = "not in" then .notIn
  else if s = "start with" then .startWith
  else if s = "end with" then .endWith
  else if s = "empty" then .empty
  else if s = "not empty" then .notEmpty
  else if s = "=" then .eq
  else if s = "≠" then .ne
  else if s = ">" then .gt
  else if s = "<" then .lt
  else if s = "≥" then .ge
  else if s = "≤" then .le
  else .unknown

/-- `operator in ["=", "≠", ">", "<", "≥", "≤"]`. -/
def Operator.isComparison : Operator → Bool
  | .eq | .ne | .gt | .lt | .ge | .le => true
  | _ => false

/-- How the conditions are combined; every text but `"and"` is read as `or`. -/
inductive Logic where
  | and
  | or
deriving DecidableEq, Repr

def Logic.ofStr (s : Str) : Logic := if s = "and" then .and else .or

/-- One condition: `{"key": …, "op": …, "value": …}`. -/
structure Filter where
  key : Str
  op : Operator
  value : PyVal

/-- The values of one field with the documents carrying them. -/
abbrev ValueDocs := List (PyVal × List DocId)

/-- The metadata of a knowledge base, field by field. -/
abbrev Metas := List (Str × ValueDocs)

/-! ### One value against one condition -/

section filterOut
variable (rt : Runtime)

/-- The strict test for `YYYY-MM-DD`. -/
def isDate (s : Str) : Bool :=
  s.length == 10 && s.getD 4 ' ' == '-' && s.getD 7 ' ' == '-' && rt.isdigit (s.take 4) &&
    rt.isdigit ((s.drop 5).take 2) && rt.isdigit ((s.drop 8).take 2)

/-- The `try` block that evaluates both sides as literals.  Each assignment made before the
exception is kept: an input that evaluates stays evaluated when the value does not. -/
def evalBoth (input value : PyVal) : PyVal × PyVal :=
  let first? : Option PyVal := match input with
    | .list (x :: _) => some x
    | .list [] => none
    | _ => some input
  match first? with
  | none => (input, value)
  | some input =>
      match rt.literal_eval input with
      | none => (input, value)
      | some input =>
          match rt.literal_eval value with
          | none => (input, value)
          | some value => (input, value)

/-- Preparation of a round: the input to compare (`none` for `continue`) and the value, which
the following rounds see. -/
def prepare (op : Operator) (input value : PyVal) : Option PyVal × PyVal :=
  if op.isComparison then
    let inputStr := strip (rt.str input)
    let valueStr := strip (rt.str value)
    if isDate rt valueStr then
      if isDate rt inputStr then (some (.str inputStr), .str valueStr) else (none, value)
    else
      let (input, value) := evalBoth rt input value
      (some (rt.lowerIfStr input), rt.lowerIfStr value)
  else (some (rt.lowerIfStr input), rt.lowerIfStr value)

/-- `str(a).find(value) >= 0`; it raises unless `value` is a string. -/
def findIn (a : PyVal) : PyVal → Option Bool
  | .str v => some (Py.contains v (rt.str a))
  | _ => none

/-- `all(p(i) for i in xs)`, stopping at the first failure, raising where `p` raises. -/
def allOpt (p : PyVal → Option Bool) : List PyVal → Option Bool
  | [] => some true
  | x :: xs =>
      match p x with
      | none => none
      | some false => some false
      | some true => allOpt p xs

/-- `any(p(i) for i in xs)`. -/
def anyOpt (p : PyVal → Option Bool) (xs : List PyVal) : Option Bool :=
  (allOpt (fun x => (p x).map (! ·)) xs).map (! ·)

/-- The text the prefix and suffix tests look at. -/
def joinedLower : PyVal → Str
  | .list xs => xs.flatMap (fun i => rt.lower (rt.str i))
  | input => rt.lower (rt.str input)

/-- The comparison proper; `none` when it raises. -/
def matched? (op : Operator) (input value : PyVal) : Option Bool :=
  match op, input with
  | .contains, .list xs => anyOpt (fun i => findIn rt i value) xs
  | .contains, _ => findIn rt input value
  | .notContains, .list xs => allOpt (fun i => (findIn rt i value).map (! ·)) xs
  | .notContains, _ => (findIn rt input value).map (! ·)
  | .isIn, .list xs => allOpt (fun i => i.isIn value) xs
  | .isIn, _ => input.isIn value
  | .notIn, .list xs => allOpt (fun i => (i.isIn value).map (! ·)) xs
  | .notIn, _ => (input.isIn value).map (! ·)
  | .startWith, _ => some (startswith (joinedLower rt input) (rt.lower (rt.str value)))
  | .endWith, _ => some (endswith (joinedLower rt input) (rt.lower (rt.str value)))
  | .empty, _ => some (!input.truthy)
  | .notEmpty, _ => some input.truthy
  | .eq, _ => some (input.eq value)
  | .ne, _ => some (!input.eq value)
  | .gt, _ => value.lt input
  | .lt, _ => input.lt value
  | .ge, _ => value.le input
  | .le, _ => input.le value
  | .unknown, _ => some false

/-- `filter_out`: the documents of the values that satisfy the condition. -/
def filterOut (op : Operator) : ValueDocs → PyVal → List DocId
  | [], _ => []
  | (input, docids) :: v2docs, value =>
      match prepare rt op input value with
      | (none, value) => filterOut op v2docs value
      | (some input, value) =>
          if (matched? rt op input value).getD false then docids ++ filterOut op v2docs value
          else filterOut op v2docs value

end filterOut

/-! ### Combining the conditions -/

section combine
variable (rt : Runtime) (metas : Metas)

/-- The documents matched by one condition: none when its key is not in the metadata. -/
def matchedBy (f : Filter) : List DocId :=
  match metas.lookup f.key with
  | none => []
  | some v2docs => filterOut rt f.op v2docs f.value

/-- The loop of `meta_filter` from the set collected so far. -/
def metaFilterLoop (logic : Logic) : Finset DocId → List Filter → Finset DocId
  | docIds, [] => docIds
  | docIds, f :: fs =>
      let ids := (matchedBy rt metas f).toFinset
      if docIds = ∅ then metaFilterLoop logic ids fs
      else
        match logic with
        | .and => if docIds ∩ ids = ∅ then ∅ else metaFilterLoop logic (docIds ∩ ids) fs
        | .or => metaFilterLoop logic (docIds ∪ ids) fs

/-- `meta_filter`, its result as a set. -/
def metaFilter (filters : List Filter) (logic : Logic) : Finset DocId :=
  metaFilterLoop rt metas logic ∅ filters

/-- The condition matches no document. -/
def matchless (f : Filter) : Bool := (matchedBy rt metas f).isEmpty

/-- The result is the intersection of what the conditions match under `and`, the union
under `or`. -/
def Exact (filters : List Filter) : Logic → Prop
  | .and => filters ≠ [] → ∀ d, d ∈ metaFilter rt metas filters .and ↔
      ∀ f ∈ filters, d ∈ matchedBy rt metas f
  | .or => ∀ d, d ∈ metaFilter rt metas filters .or ↔ ∃ f ∈ filters, d ∈ matchedBy rt metas f

variable {rt metas}

theorem matchless_iff {f : Filter} :
    matchless rt metas f = true ↔ (matchedBy rt metas f).toFinset = ∅ := by
  simp [matchless, List.isEmpty_iff]

theorem mem_loop_or (d : DocId) (fs : List Filter) : ∀ docIds : Finset DocId,
    d ∈ metaFilterLoop rt metas .or docIds fs ↔
      d ∈ docIds ∨ ∃ f ∈ fs, d ∈ matchedBy rt metas f := by
  induction fs with
  | nil => intro docIds; simp [metaFilterLoop]
  | cons f fs ih =>
      intro docIds
      simp only [metaFilterLoop]
      split_ifs with h
      · rw [ih]
        simp [h]
      · rw [ih]
        simp [or_assoc]

/-- Once a condition has matched something, the loop intersects. -/
theorem mem_loop_and (d : DocId) (fs : List Filter) : ∀ docIds : Finset DocId, docIds ≠ ∅ →
    (d ∈ metaFilterLoop rt metas .and docIds fs ↔
      d ∈ docIds ∧ ∀ f ∈ fs, d ∈ matchedBy rt metas f) := by
  induction fs with
  | nil => intro docIds _; simp [metaFilterLoop]
  | cons f fs ih =>
      intro docIds hne
      simp only [metaFilterLoop, if_neg hne]
      split_ifs with h
      · have hd : ¬ (d ∈ docIds ∧ d ∈ matchedBy rt metas f) := by
          rintro ⟨h₁, h₂⟩
          have : d ∈ docIds ∩ (matchedBy rt metas f).toFinset := by simp [h₁, h₂]
          rw [h] at this
          simp at this
        simp only [Finset.notMem_empty, List.mem_cons, forall_eq_or_imp, false_iff]
        exact fun hall => hd ⟨hall.1, hall.2.1⟩
      · rw [ih _ h]
        simp [and_assoc]

/-- Under `and` the conditions before the first one that matches something leave no trace. -/
theorem mem_metaFilter_and (d : DocId) (fs : List Filter) :
    d ∈ metaFilter rt metas fs .and ↔ fs.dropWhile (matchless rt metas) ≠ [] ∧
      ∀ f ∈ fs.dropWhile (matchless rt metas), d ∈ matchedBy rt metas f := by
  unfold metaFilter
  induction fs with
  | nil => simp [metaFilterLoop]
  | cons f fs ih =>
      simp only [metaFilterLoop, if_pos]
      by_cases hf : matchless rt metas f = true
      · rw [List.dropWhile_cons_of_pos hf, matchless_iff.mp hf]
        exact ih
      · rw [List.dropWhile_cons_of_neg hf, mem_loop_and _ _ _ (fun h => hf (matchless_iff.mpr h))]
        simp

/-- **Exactness of the combination.**  Under `or` the result is always the union.  Under `and`
it is the intersection unless the list starts with a condition that matches nothing and some
document satisfies every condition from the first one that matches something on. -/
theorem metaFilter_exact_iff (rt : Runtime) (metas : Metas) (filters : List Filter)
    (logic : Logic) :
    Exact rt metas filters logic ↔
      (logic = .and → (∃ f ∈ filters.head?, matchless rt metas f = true) →
        filters.dropWhile (matchless rt metas) = [] ∨
          ¬ ∃ d, ∀ f ∈ filters.dropWhile (matchless rt metas), d ∈ matchedBy rt metas f) := by
  cases logic with
  | or => simp [Exact, metaFilter, mem_loop_or]
  | and =>
      cases filters with
      | nil => simp [Exact]
      | cons f fs =>
          simp only [Exact, mem_metaFilter_and, ne_eq, List.cons_ne_nil, not_false_eq_true,
            forall_const, List.head?_cons, Option.mem_def, Option.some.injEq, exists_eq_left']
          by_cases hf : matchless rt metas f = true
          · have hno : ∀ d, ¬ ∀ g ∈ f :: fs, d ∈ matchedBy rt metas g := by
              intro d hall
              have := hall f List.mem_cons_self
              rw [List.isEmpty_iff.mp hf] at this
              cases this
            constructor
            · intro h _
              by_contra hcon
              obtain ⟨hne, d, hd⟩ := not_or.mp hcon |>.imp_right not_not.mp
              exact hno d ((h d).mp ⟨hne, hd⟩)
            · intro h d
              refine ⟨fun ⟨hne, hd⟩ => ?_, fun hall => absurd hall (hno d)⟩
              rcases h hf with h | h
              · exact absurd h hne
              · exact absurd ⟨d, hd⟩ h
          · simp [List.dropWhile_cons_of_neg hf, hf]

/-- A first condition on a missing field is forgotten: the second one alone decides. -/
theorem metaFilter_not_exact : ¬ ∀ (rt : Runtime) (metas : Metas) (filters : List Filter)
    (logic : Logic), Exact rt metas filters logic := by
  intro h
  have hex := h .plain [("author", [(.str "alice", ["doc1"])])]
    [⟨"year", .notEmpty, .none⟩, ⟨"author", .notEmpty, .none⟩] .and
  have hin := (hex (by simp) "doc1").mp (by decide)
  exact absurd (hin _ List.mem_cons_self) (by decide)

end combine

end RagFlow.MetaFilter
