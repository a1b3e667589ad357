import Mathlib.Algebra.Order.Ring.Rat
import Mathlib.Data.List.Sort
import RagFlow.Dict
import RagFlow.JsonText

/-! # The form of a categorize node

`buildCategorizeListFromObject` and `buildCategorizeObjectFromList` of
`web/src/pages/agent/utils.ts` turn the categories of a node into the list of a form and back.

* **Objects.** An object is the list of its own properties; two objects are the same if they have
  the same properties, whatever their order.
* **Items.** A category becomes an item with its name, and the examples are wrapped; back, the name
  is dropped and the examples are unwrapped (`lookup_objectItem`).
* **Round trip.** `roundTrip`: the object comes back if no category is named by the empty text,
  which the code passes over, or `__proto__`, which is no property when it is assigned to. -/

namespace RagFlow.Categorize

open Py

/-! ### Objects -/

/-- A value of JavaScript. -/
inductive Val where
  | undefined
  | null
  | bool (b : Bool)
  | num (q : ℚ)
  | str (s : Str)
  | array (xs : List Val)
  | object (properties : List (Str × Val))

/-- The own properties of an object. -/
abbrev Obj := List (Str × Val)

/-- `o[k]`. -/
def get (o : Obj) (k : Str) : Val := (o.lookup k).getD .undefined

/-- The number of a property that is an array index. -/
def arrayIndex? (k : Str) : Option ℕ :=
  let n := Nat.ofDigitChars 10 k 0
  if natText n = k ∧ n < 2 ^ 32 - 1 then some n else none

/-- `Object.keys`: first the array indices in ascending order. -/
def objectKeys {V : Type} (o : List (Str × V)) : List Str :=
  ((o.map Prod.fst).filter (fun k => (arrayIndex? k).isSome)).insertionSort
      (fun j k => (arrayIndex? j).getD 0 ≤ (arrayIndex? k).getD 0) ++
    (o.map Prod.fst).filter (fun k => !(arrayIndex? k).isSome)

/-- `o[k] = v`; the property `__proto__` is inherited and sets the prototype. -/
def assign {V : Type} (o : List (Str × V)) (k : Str) (v : V) : List (Str × V) :=
  if k = "__proto__".toList then o else Dict.set k v o

/-! ### Examples -/

def convertToObjectArray : Val → Val
  | .array list => .array (list.map (fun x => .object [("value".toList, x)]))
  | _ => .array []

/-- `x.value`. -/
def valueOf : Val → Val
  | .object o => get o "value".toList
  | _ => .undefined

def convertToStringArray : Val → Val
  | .array list => .array (list.map valueOf)
  | _ => .array []

/-! ### The two directions -/

/-- `{ name: cur, ...entry, examples: ... }`. -/
def listItem (cur : Str) (entry : Obj) : Obj :=
  Dict.set "examples".toList (convertToObjectArray (get entry "examples".toList))
    (Dict.update [("name".toList, .str cur)] entry)

/-- The index of an item, which is a number. -/
def indexOf (item : Obj) : ℚ :=
  match get item "index".toList with
  | .num q => q
  | _ => 0

def buildCategorizeListFromObject (categorizeItem : List (Str × Obj)) : List Obj :=
  ((objectKeys categorizeItem).map (fun cur =>
    listItem cur ((categorizeItem.lookup cur).getD []))).insertionSort
      (fun a b => indexOf a ≤ indexOf b)

/-- `{ ...omit(cur, 'name', 'examples'), examples: ... }`. -/
def objectItem (cur : Obj) : Obj :=
  Dict.set "examples".toList (convertToStringArray (get cur "examples".toList))
    (Dict.erase "examples".toList (Dict.erase "name".toList cur))

/-- A step of the reduction; the name of an item is a text. -/
def addItem (pre : List (Str × Obj)) (cur : Obj) : List (Str × Obj) :=
  match get cur "name".toList with
  | .str name => if name = [] then pre else assign pre name (objectItem cur)
  | _ => pre

def buildCategorizeObjectFromList (list : List Obj) : List (Str × Obj) := list.foldl addItem []

/-! ### Categories -/

/-- A category with an index and an array of examples, and no field `name`. -/
structure Entry where
  fields : Obj
  nodup : (fields.map Prod.fst).Nodup
  no_name : fields.lookup "name".toList = none
  index : ℚ
  index_eq : fields.lookup "index".toList = some (.num index)
  examples : List Val
  examples_eq : fields.lookup "examples".toList = some (.array examples)

/-- The categories of a node. -/
structure Categories where
  entries : List (Str × Entry)
  nodup : (entries.map Prod.fst).Nodup

def Categories.object (cs : Categories) : List (Str × Obj) :=
  cs.entries.map (fun e => (e.1, e.2.fields))

def Categories.names (cs : Categories) : List Str := cs.entries.map Prod.fst

/-- The same properties with the same values. -/
def SameObject (o o' : List (Str × Obj)) : Prop :=
  ∀ name, Option.Rel (fun e e' => ∀ k, e.lookup k = e'.lookup k) (o.lookup name) (o'.lookup name)

/-! ### Items -/

section items
variable (cur : Str) (e : Entry)

theorem lookup_listItem (k : Str) : (listItem cur e.fields).lookup k =
    if k = "examples".toList then some (convertToObjectArray (.array e.examples))
    else if k = "name".toList then some (.str cur) else e.fields.lookup k := by
  unfold listItem
  rw [Dict.lookup_set, Dict.lookup_update, Dict.lookup_perm e.nodup (List.reverse_perm _).symm]
  unfold get
  rw [e.examples_eq, Option.getD_some]
  by_cases hk : k = "examples".toList
  · rw [if_pos hk, if_pos hk]
  rw [if_neg hk, if_neg hk]
  by_cases hname : k = "name".toList
  · rw [if_pos hname, hname, e.no_name, Option.none_or, List.lookup_cons_self]
  · rw [if_neg hname, Dict.lookup_cons_of_ne hname, List.lookup_nil, Option.or_none]

theorem unwrap_wrap (list : List Val) :
    convertToStringArray (convertToObjectArray (.array list)) = .array list := by
  have hid : valueOf ∘ (fun x => Val.object [("value".toList, x)]) = id := by
    funext x
    show get [("value".toList, x)] "value".toList = x
    unfold get
    rw [List.lookup_cons_self, Option.getD_some]
  show Val.array ((list.map (fun x => Val.object [("value".toList, x)])).map valueOf) = _
  rw [List.map_map, hid, List.map_id]

/-- The fields of a category come back. -/
theorem lookup_objectItem (k : Str) :
    (objectItem (listItem cur e.fields)).lookup k = e.fields.lookup k := by
  unfold objectItem get
  rw [Dict.lookup_set, Dict.lookup_erase, Dict.lookup_erase, lookup_listItem, lookup_listItem,
    if_pos rfl, Option.getD_some, unwrap_wrap]
  by_cases hk : k = "examples".toList
  · rw [if_pos hk, hk, e.examples_eq]
  rw [if_neg hk, if_neg hk, if_neg hk]
  by_cases hname : k = "name".toList
  · rw [if_pos hname, hname, e.no_name]
  · rw [if_neg hname, if_neg hname]

end items

/-! ### Keys -/

/-- Every property is a key once. -/
theorem objectKeys_perm {V : Type} (o : List (Str × V)) : (objectKeys o).Perm (o.map Prod.fst) := by
  unfold objectKeys
  refine ((List.perm_insertionSort _ _).append_right _).trans ?_
  exact List.filter_append_perm (fun k => (arrayIndex? k).isSome) _

/-! ### The list of the form -/

section form
variable {cs : Categories}

theorem lookup_object {e : Str × Entry} (he : e ∈ cs.entries) :
    cs.object.lookup e.1 = some e.2.fields := by
  have hnodup : (cs.object.map Prod.fst).Nodup := by
    unfold Categories.object
    rw [List.map_map]
    exact cs.nodup
  exact Dict.lookup_of_mem (e := (e.1, e.2.fields)) hnodup (List.mem_map.mpr ⟨e, he, rfl⟩)

/-- The list has one item for each category. -/
theorem list_perm (cs : Categories) : (buildCategorizeListFromObject cs.object).Perm
    (cs.entries.map (fun e => listItem e.1 e.2.fields)) := by
  unfold buildCategorizeListFromObject
  refine (List.perm_insertionSort _ _).trans (((objectKeys_perm cs.object).map _).trans ?_)
  unfold Categories.object
  rw [List.map_map, List.map_map]
  refine List.Perm.of_eq (List.map_congr_left (fun e he => ?_))
  have hlookup := lookup_object he
  unfold Categories.object at hlookup
  show listItem e.1 ((List.lookup e.1 _).getD []) = _
  rw [hlookup, Option.getD_some]

theorem get_name (e : Str × Entry) : get (listItem e.1 e.2.fields) "name".toList = .str e.1 := by
  unfold get
  rw [lookup_listItem, if_neg (by decide), if_pos rfl, Option.getD_some]

/-- Items with usable names become properties. -/
theorem foldl_addItem {es : List (Str × Entry)}
    (hes : ∀ e ∈ es, e.1 ≠ [] ∧ e.1 ≠ "__proto__".toList) (pre : List (Str × Obj)) :
    (es.map (fun e => listItem e.1 e.2.fields)).foldl addItem pre =
      Dict.update pre (es.map (fun e => (e.1, objectItem (listItem e.1 e.2.fields)))) := by
  induction es generalizing pre with
  | nil => rfl
  | cons e es ih =>
      obtain ⟨hne, hproto⟩ := hes e List.mem_cons_self
      have hstep : addItem pre (listItem e.1 e.2.fields) =
          Dict.set e.1 (objectItem (listItem e.1 e.2.fields)) pre := by
        unfold addItem
        rw [get_name]
        dsimp only
        rw [if_neg hne, assign, if_neg hproto]
      rw [List.map_cons, List.foldl_cons, hstep, ih (fun x hx => hes x (List.mem_cons_of_mem _ hx))]
      rfl

/-- The object of the list is read as that of the categories. -/
theorem lookup_roundTrip {es : List (Str × Entry)} (hes : es.Perm cs.entries)
    (hnames : ∀ e ∈ es, e.1 ≠ [] ∧ e.1 ≠ "__proto__".toList) (name : Str) :
    (buildCategorizeObjectFromList (es.map (fun e => listItem e.1 e.2.fields))).lookup name =
      (es.lookup name).map (fun e => objectItem (listItem name e.fields)) := by
  unfold buildCategorizeObjectFromList
  have hkeys : ((es.map (fun e => (e.1, objectItem (listItem e.1 e.2.fields)))).map
      Prod.fst).Nodup := by
    rw [List.map_map]
    exact (hes.map Prod.fst).nodup_iff.mpr cs.nodup
  have hnodup : (es.map Prod.fst).Nodup := (hes.map Prod.fst).nodup_iff.mpr cs.nodup
  rw [foldl_addItem hnames, Dict.lookup_update, List.lookup_nil, Option.or_none,
    Dict.lookup_perm hkeys (List.reverse_perm _).symm]
  cases hname : es.lookup name with
  | none =>
      rw [Dict.lookup_eq_none_iff] at hname
      rw [Option.map_none, Dict.lookup_eq_none_iff, List.map_map]
      exact hname
  | some e =>
      have hmem := Dict.mem_of_lookup hname
      exact Dict.lookup_of_mem (e := (name, objectItem (listItem name e.fields))) hkeys
        (List.mem_map.mpr ⟨(name, e), hmem, rfl⟩)

/-- **Round trip.**  The object comes back, the list is sorted by the index, and it has one item for
each category, if the categories have usable names. -/
theorem roundTrip (cs : Categories)
    (hnames : ∀ name ∈ cs.names, name ≠ [] ∧ name ≠ "__proto__".toList) :
    SameObject (buildCategorizeObjectFromList (buildCategorizeListFromObject cs.object)) cs.object ∧
      (buildCategorizeListFromObject cs.object).Pairwise (fun a b => indexOf a ≤ indexOf b) ∧
      ((buildCategorizeListFromObject cs.object).map (fun item => get item "name".toList)).Perm
        (cs.names.map Val.str) := by
  obtain ⟨es, hlist, hes⟩ : Relation.Comp
      (fun list es => list = List.map (fun e : Str × Entry => listItem e.1 e.2.fields) es)
      List.Perm (buildCategorizeListFromObject cs.object) cs.entries := by
    rw [List.eq_map_comp_perm]
    exact list_perm cs
  have hnames' : ∀ e ∈ es, e.1 ≠ [] ∧ e.1 ≠ "__proto__".toList := fun e he =>
    hnames e.1 (List.mem_map_of_mem (f := Prod.fst) (hes.mem_iff.mp he))
  refine ⟨fun name => ?_, ?_, ?_⟩
  · rw [hlist, lookup_roundTrip hes hnames', Dict.lookup_perm cs.nodup hes.symm]
    cases hname : cs.entries.lookup name with
    | none =>
        have hobject : cs.object.lookup name = none := by
          unfold Categories.object
          rw [Dict.lookup_eq_none_iff, List.map_map]
          exact Dict.lookup_eq_none_iff.mp hname
        rw [hobject]
        exact Option.Rel.none
    | some e =>
        have hobject := lookup_object (Dict.mem_of_lookup hname)
        rw [hobject]
        exact Option.Rel.some (fun k => lookup_objectItem name e k)
  · unfold buildCategorizeListFromObject
    exact List.pairwise_insertionSort (fun a b => indexOf a ≤ indexOf b) _
  · rw [hlist, List.map_map]
    unfold Categories.names
    rw [List.map_map]
    refine (hes.map _).trans (List.Perm.of_eq (List.map_congr_left (fun e _ => ?_)))
    exact get_name e

end form

/-- A category without other fields. -/
def plainEntry (index : ℚ) : Entry where
  fields := [("index".toList, .num index), ("examples".toList, .array [.str "a".toList])]
  nodup := by simp
  no_name := by rfl
  index := index
  index_eq := by rfl
  examples := [.str "a".toList]
  examples_eq := by rfl

/-- Two categories, the one with the higher index first. -/
def farewellAndGreeting : Categories where
  entries := [("farewell".toList, plainEntry 1), ("greeting".toList, plainEntry 0)]
  nodup := by decide

/-- The items are in the order of the indices, and the categories come back. -/
theorem roundTrip_greeting :
    (buildCategorizeListFromObject farewellAndGreeting.object).map indexOf = [0, 1] ∧
      SameObject (buildCategorizeObjectFromList
        (buildCategorizeListFromObject farewellAndGreeting.object)) farewellAndGreeting.object := by
  refine ⟨by decide, (roundTrip farewellAndGreeting fun name hname => ?_).1⟩
  simp only [Categories.names, farewellAndGreeting, List.map_cons, List.map_nil, List.mem_cons,
    List.not_mem_nil, or_false] at hname
  obtain rfl | rfl := hname <;> exact ⟨by decide, by decide⟩

def oneCategory (name : Str) : Categories := ⟨[(name, plainEntry 0)], List.nodup_singleton name⟩

/-- A category without a name, and one named `__proto__`, are lost. -/
theorem roundTrip_lost :
    ¬ SameObject (buildCategorizeObjectFromList
        (buildCategorizeListFromObject (oneCategory []).object)) (oneCategory []).object ∧
      ¬ SameObject (buildCategorizeObjectFromList
        (buildCategorizeListFromObject (oneCategory "__proto__".toList).object))
        (oneCategory "__proto__".toList).object := by
  constructor
  · intro h
    have hname := h []
    cases hname
  · intro h
    have hname := h "__proto__".toList
    cases hname

end RagFlow.Categorize
