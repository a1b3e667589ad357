import RagFlow.Dedup
import RagFlow.PyJson
import RagFlow.PyVal

/-! # Dropping duplicates from a list

`_drop_duplicates` of `agent/component/list_operations.py`: an element of the list is left out if
the set of the keys seen so far has its key, the value as a hashable object.

* **Keys.** Lists become tuples, and objects become tuples of their entries, sorted by key.  `True`
  is equal to `1`, as everywhere in Python.
* **Values.** `canon` gives what a JSON value is, whatever the order of the entries of its objects
  and the notation of its numbers.  `asArrays` writes objects as arrays and booleans as numbers.
* **Result.** `dropDuplicates_iff`: the elements that are kept are the first ones of each value
  exactly when no two different values of the list are the same with objects as arrays and booleans
  as numbers. -/

namespace RagFlow.Agent.ListOperations

open Py

variable {F : Type} [Binary64 F]

/-! ### Hashable objects -/

/-- The hashable objects that values are converted to. -/
inductive Key (F : Type) where
  | none
  | bool (b : Bool)
  | int (n : ℤ)
  | float (x : PyFloat F)
  | str (s : Str)
  | tuple (xs : List (Key F))

/-- `sorted` on entries with distinct keys. -/
def sortEntries {α : Type} (entries : List (Str × α)) : List (Str × α) :=
  entries.mergeSort (fun a b => !PyVal.strLt b.1 a.1)

mutual
/-- `_hashable`. -/
def hashable : Json F → Key F
  | .null => .none
  | .bool b => .bool b
  | .int n => .int n
  | .float x => .float x
  | .str s => .str s
  | .list xs => .tuple (hashables xs)
  | .dict entries =>
      .tuple ((sortEntries (hashableEntries entries)).map (fun e => .tuple [.str e.1, e.2]))

def hashables : List (Json F) → List (Key F)
  | [] => []
  | x :: xs => hashable x :: hashables xs

def hashableEntries : List (Str × Json F) → List (Str × Key F)
  | [] => []
  | (k, v) :: entries => (k, hashable v) :: hashableEntries entries
end

namespace Key

/-- The number that an object is. -/
def number : Key F → Option (PyFloat ℚ)
  | bool b => Json.number (.bool b : Json F)
  | int n => Json.number (.int n : Json F)
  | float x => Json.number (.float x)
  | _ => Option.none

mutual
/-- `k is l or k == l`. -/
def same : Key F → Key F → Bool
  | none, none => true
  | str s, str t => s = t
  | tuple xs, tuple ys => sames xs ys
  | k, l => (number k).isSome && number k = number l

def sames : List (Key F) → List (Key F) → Bool
  | [], [] => true
  | x :: xs, y :: ys => same x y && sames xs ys
  | _, _ => false
end

end Key

/-! ### The component -/

/-- The outputs of the component. -/
structure Outputs (F : Type) where
  result : List (Json F)
  first : Option (Json F)
  last : Option (Json F)

/-- `_set_outputs`. -/
def setOutputs (outputs : List (Json F)) : Outputs F := ⟨outputs, outputs.head?, outputs.getLast?⟩

/-- The loop: `seen` is the set of keys, `outs` what has been kept. -/
def dropLoop (seen : List (Key F)) (outs : List (Json F)) : List (Json F) → List (Json F)
  | [] => outs
  | item :: items =>
      let k := hashable item
      if seen.any (Key.same k) then dropLoop seen outs items
      else dropLoop (k :: seen) (outs ++ [item]) items

/-- `_drop_duplicates`. -/
def dropDuplicates (inputs : List (Json F)) : Outputs F := setOutputs (dropLoop [] [] inputs)

/-! ### Values -/

/-- What a JSON value is: a number is its value, and the entries of an object are in the order of
their keys. -/
inductive Value where
  | null
  | bool (b : Bool)
  | num (x : PyFloat ℚ)
  | str (s : Str)
  | list (xs : List Value)
  | dict (entries : List (Str × Value))

mutual
/-- What a value is. -/
def canon : Json F → Value
  | .null => .null
  | .bool b => .bool b
  | .int n => .num (.fin n)
  | .float (.fin x) => .num (.fin (Binary64.value x))
  | .float (.inf neg) => .num (.inf neg)
  | .float .nan => .num .nan
  | .str s => .str s
  | .list xs => .list (canons xs)
  | .dict entries => .dict (sortEntries (canonEntries entries))

def canons : List (Json F) → List Value
  | [] => []
  | x :: xs => canon x :: canons xs

def canonEntries : List (Str × Json F) → List (Str × Value)
  | [] => []
  | (k, v) :: entries => (k, canon v) :: canonEntries entries
end

namespace Value

mutual
/-- Objects as arrays of their entries, an entry as an array of its key and value, and booleans as
numbers. -/
def asArrays : Value → Value
  | bool b => num (.fin (if b then 1 else 0))
  | list xs => list (asArraysList xs)
  | dict entries => list (asArraysEntries entries)
  | v => v

def asArraysList : List Value → List Value
  | [] => []
  | x :: xs => asArrays x :: asArraysList xs

def asArraysEntries : List (Str × Value) → List Value
  | [] => []
  | (k, v) :: entries => list [str k, asArrays v] :: asArraysEntries entries
end

end Value

/-- `v` and `w` are the same JSON value. -/
def SameValue (v w : Json F) : Prop := canon v = canon w

/-- `v` and `w` are the same with objects as arrays and booleans as numbers. -/
def SameAsArrays (v w : Json F) : Prop := (canon v).asArrays = (canon w).asArrays

/-! ### The order of the entries -/

theorem strLt_trans {s t u : Str} (hst : PyVal.strLt s t = true) (htu : PyVal.strLt t u = true) :
    PyVal.strLt s u = true := by
  induction u generalizing s t with
  | nil => cases t <;> cases htu
  | cons e u ih =>
      cases t with
      | nil => cases s <;> cases hst
      | cons d t =>
          cases s with
          | nil => rfl
          | cons c s =>
              rw [PyVal.strLt] at hst htu ⊢
              by_cases hcd : c = d
              · subst hcd
                by_cases hce : c = e
                · rw [if_pos hce] at htu ⊢
                  rw [if_pos rfl] at hst
                  exact ih hst htu
                · rw [if_neg hce] at htu ⊢
                  exact htu
              · rw [if_neg hcd, decide_eq_true_iff] at hst
                by_cases hde : d = e
                · subst hde
                  rw [if_neg hcd, decide_eq_true_iff]
                  exact hst
                · rw [if_neg hde, decide_eq_true_iff] at htu
                  have hce : c < e := Char.lt_trans hst htu
                  rw [if_neg (Char.ne_of_lt hce), decide_eq_true_iff]
                  exact hce

theorem strLt_asymm {s t : Str} (h : PyVal.strLt s t = true) : PyVal.strLt t s = false := by
  have hirrefl : ∀ s : Str, PyVal.strLt s s = false := by
    intro s
    induction s with
    | nil => rfl
    | cons c s ih => rw [PyVal.strLt, if_pos rfl, ih]
  rw [Bool.eq_false_iff]
  intro h'
  have hself := strLt_trans h h'
  rw [hirrefl] at hself
  cases hself

theorem eq_of_not_strLt {s t : Str} (hst : PyVal.strLt s t = false)
    (hts : PyVal.strLt t s = false) : s = t := by
  induction s generalizing t with
  | nil =>
      cases t with
      | nil => rfl
      | cons d t => cases hst
  | cons c s ih =>
      cases t with
      | nil => cases hts
      | cons d t =>
          rw [PyVal.strLt] at hst hts
          by_cases hcd : c = d
          · subst hcd
            rw [if_pos rfl] at hst hts
            rw [ih hst hts]
          · rw [if_neg hcd, decide_eq_false_iff_not] at hst
            rw [if_neg (Ne.symm hcd), decide_eq_false_iff_not] at hts
            exact absurd (Char.le_antisymm (Char.not_lt.mp hts) (Char.not_lt.mp hst)) hcd

theorem pairwise_sortEntries {α : Type} (entries : List (Str × α)) :
    (sortEntries entries).Pairwise (fun a b => PyVal.strLt b.1 a.1 = false) := by
  have h := @List.pairwise_mergeSort _ (fun a b : Str × α => !PyVal.strLt b.1 a.1) ?_ ?_ entries
  · exact h.imp (fun hab => by simpa using hab)
  · intro a b c hab hbc
    rw [Bool.not_eq_true'] at hab hbc ⊢
    by_contra hca
    rw [Bool.not_eq_false] at hca
    cases hcb : PyVal.strLt b.1 c.1 with
    | true =>
        rw [strLt_trans hcb hca] at hab
        cases hab
    | false =>
        rw [eq_of_not_strLt hcb hbc, hca] at hab
        cases hab
  · intro a b
    cases hab : PyVal.strLt b.1 a.1 with
    | false => rfl
    | true => rw [strLt_asymm hab]; rfl

/-- The order in which the entries come does not matter. -/
theorem sortEntries_perm {α : Type} {d e : List (Str × α)} (hd : (d.map Prod.fst).Nodup)
    (h : d.Perm e) : sortEntries d = sortEntries e := by
  have hperm : (sortEntries d).Perm (sortEntries e) :=
    (List.mergeSort_perm d _).trans (h.trans (List.mergeSort_perm e _).symm)
  refine hperm.eq_of_pairwise ?_ (pairwise_sortEntries d) (pairwise_sortEntries e)
  intro a b ha hb hba hab
  have hmem : b ∈ d := h.mem_iff.mpr ((List.mergeSort_perm e _).mem_iff.mp hb)
  exact List.inj_on_of_nodup_map hd ((List.mergeSort_perm d _).mem_iff.mp ha) hmem
    (eq_of_not_strLt hab hba)

theorem canonEntries_eq_map (entries : List (Str × Json F)) :
    canonEntries entries = entries.map (fun e => (e.1, canon e.2)) := by
  induction entries with
  | nil => rfl
  | cons e entries ih => rw [canonEntries, ih, List.map_cons]

/-- Objects with the same entries are the same value. -/
theorem sameValue_of_perm {d e : List (Str × Json F)} (hd : (d.map Prod.fst).Nodup)
    (h : d.Perm e) : SameValue (.dict d) (.dict e) := by
  show Value.dict _ = Value.dict _
  refine congrArg Value.dict (sortEntries_perm ?_ ?_)
  · rw [canonEntries_eq_map, List.map_map]
    exact hd
  · rw [canonEntries_eq_map, canonEntries_eq_map]
    exact h.map _

/-! ### Keys and values -/

namespace Key

mutual
/-- The value of a hashable object; a tuple is an array. -/
def value : Key F → Value
  | none => .null
  | bool b => .num (.fin (if b then 1 else 0))
  | int n => .num (.fin n)
  | float (.fin x) => .num (.fin (Binary64.value x))
  | float (.inf neg) => .num (.inf neg)
  | float .nan => .num .nan
  | str s => .str s
  | tuple xs => .list (values xs)

def values : List (Key F) → List Value
  | [] => []
  | x :: xs => value x :: values xs
end

theorem value_of_number {k : Key F} {x : PyFloat ℚ} (h : number k = some x) :
    value k = .num x := by
  cases k with
  | bool b => cases h; rfl
  | int n => cases h; rfl
  | float y =>
      cases y with
      | fin y => cases h; rfl
      | inf neg => cases h; rfl
      | nan => cases h; rfl
  | none | str _ | tuple _ => cases h

theorem value_ne_num {k : Key F} (h : number k = Option.none) (x : PyFloat ℚ) :
    value k ≠ .num x := by
  cases k with
  | bool b => cases h
  | int n => cases h
  | float y => cases y <;> cases h
  | none | str _ | tuple _ => intro hvalue; cases hvalue

/-- Numbers are compared by value. -/
theorem number_eq_iff {k l : Key F} {x : PyFloat ℚ} (h : number k = some x) :
    ((number k).isSome && decide (number k = number l)) = true ↔ value k = value l := by
  rw [h, value_of_number h, Option.isSome_some, Bool.true_and, decide_eq_true_iff]
  cases hl : number l with
  | none =>
      refine iff_of_false (fun heq => by cases heq) (fun heq => ?_)
      exact value_ne_num hl x heq.symm
  | some y => rw [value_of_number hl, Option.some.injEq, Value.num.injEq]

mutual
/-- Hashable objects are equal exactly when their values are. -/
theorem same_iff : ∀ k l : Key F, same k l = true ↔ value k = value l
  | bool b, l => by
      rw [same]
      · exact number_eq_iff rfl
      all_goals intros; simp_all
  | int n, l => by
      rw [same]
      · exact number_eq_iff rfl
      all_goals intros; simp_all
  | float x, l => by
      rw [same]
      · cases x <;> exact number_eq_iff rfl
      all_goals intros; simp_all
  | none, l => by
      cases l with
      | none => simp [same]
      | float x => cases x <;> simp [same, number, value]
      | bool _ | int _ | str _ | tuple _ => simp [same, number, value]
  | str s, l => by
      cases l with
      | str t => simp [same, value]
      | float x => cases x <;> simp [same, number, value]
      | none | bool _ | int _ | tuple _ => simp [same, number, value]
  | tuple xs, l => by
      cases l with
      | tuple ys => rw [same, value, value, Value.list.injEq, sames_iff xs ys]
      | float x => cases x <;> simp [same, number, value]
      | none | bool _ | int _ | str _ => simp [same, number, value]

theorem sames_iff : ∀ xs ys : List (Key F), sames xs ys = true ↔ values xs = values ys
  | [], [] => by simp [sames, values]
  | [], _ :: _ => by simp [sames, values]
  | _ :: _, [] => by simp [sames, values]
  | x :: xs, y :: ys => by
      rw [sames, Bool.and_eq_true, same_iff x y, sames_iff xs ys, values, values, List.cons.injEq]
end

end Key

theorem map_sortEntries {α γ : Type} (f : α → γ) (entries : List (Str × α)) :
    (sortEntries entries).map (fun e => (e.1, f e.2)) =
      sortEntries (entries.map (fun e => (e.1, f e.2))) :=
  List.map_mergeSort (fun _ _ _ _ => rfl)

theorem values_eq_map (xs : List (Key F)) : Key.values xs = xs.map Key.value := by
  induction xs with
  | nil => rfl
  | cons x xs ih => rw [Key.values, ih, List.map_cons]

theorem asArraysEntries_eq_map (entries : List (Str × Value)) :
    Value.asArraysEntries entries =
      entries.map (fun e => Value.list [.str e.1, e.2.asArrays]) := by
  induction entries with
  | nil => rfl
  | cons e entries ih => rw [Value.asArraysEntries, ih, List.map_cons]

mutual
/-- The key of a value is the value with objects as arrays and booleans as numbers. -/
theorem value_hashable : ∀ v : Json F, (hashable v).value = (canon v).asArrays
  | .null => rfl
  | .bool _ => rfl
  | .int _ => rfl
  | .float (.fin _) => rfl
  | .float (.inf _) => rfl
  | .float .nan => rfl
  | .str _ => rfl
  | .list xs => by
      rw [hashable, Key.value, canon, Value.asArrays, value_hashables xs]
  | .dict entries => by
      have hitem : ∀ e : Str × Key F,
          (Key.tuple [.str e.1, e.2]).value = Value.list [.str e.1, e.2.value] := fun _ => rfl
      rw [hashable, Key.value, canon, Value.asArrays, values_eq_map, asArraysEntries_eq_map,
        List.map_map]
      refine congrArg Value.list ?_
      calc (sortEntries (hashableEntries entries)).map (Key.value ∘ fun e => .tuple [.str e.1, e.2])
          = ((sortEntries (hashableEntries entries)).map (fun e => (e.1, e.2.value))).map
              (fun e => Value.list [.str e.1, e.2]) := by
            rw [List.map_map]
            exact List.map_congr_left (fun e _ => hitem e)
        _ = ((sortEntries (canonEntries entries)).map (fun e => (e.1, e.2.asArrays))).map
              (fun e => Value.list [.str e.1, e.2]) := by
            rw [map_sortEntries, map_sortEntries, value_hashableEntries entries]
        _ = (sortEntries (canonEntries entries)).map
              (fun e => Value.list [.str e.1, e.2.asArrays]) := by
            rw [List.map_map]
            rfl

theorem value_hashables : ∀ xs : List (Json F),
    Key.values (hashables xs) = Value.asArraysList (canons xs)
  | [] => rfl
  | x :: xs => by
      rw [hashables, Key.values, canons, Value.asArraysList, value_hashable x, value_hashables xs]

theorem value_hashableEntries : ∀ entries : List (Str × Json F),
    (hashableEntries entries).map (fun e => (e.1, e.2.value)) =
      (canonEntries entries).map (fun e => (e.1, e.2.asArrays))
  | [] => rfl
  | (k, v) :: entries => by
      rw [hashableEntries, canonEntries, List.map_cons, List.map_cons, value_hashable v,
        value_hashableEntries entries]
end

theorem same_hashable_iff (v w : Json F) :
    Key.same (hashable v) (hashable w) = true ↔ SameAsArrays v w := by
  rw [Key.same_iff, value_hashable, value_hashable]
  rfl

/-! ### The loop -/

/-- The loop keeps the first elements, as arrays. -/
theorem dropLoop_eq {seen : List (Key F)} {before : List (Json F)}
    (hseen : ∀ v, seen.any (Key.same (hashable v)) = true ↔ ∃ y ∈ before, SameAsArrays y v)
    (outs items : List (Json F)) :
    dropLoop seen outs items = outs ++ Dedup.firsts SameAsArrays before items := by
  induction items generalizing seen before outs with
  | nil => rw [dropLoop, Dedup.firsts, List.append_nil]
  | cons item items ih =>
      rw [dropLoop]
      by_cases hitem : ∃ y ∈ before, SameAsArrays y item
      · rw [if_pos ((hseen item).mpr hitem), Dedup.firsts_cons_of_rel hitem]
        refine ih (fun v => (hseen v).trans ⟨?_, ?_⟩) outs
        · rintro ⟨y, hy, hyv⟩
          exact ⟨y, List.mem_append_left _ hy, hyv⟩
        · rintro ⟨y, hy, hyv⟩
          rcases List.mem_append.mp hy with hy | hy
          · exact ⟨y, hy, hyv⟩
          · cases List.mem_singleton.mp hy
            obtain ⟨z, hz, hzy⟩ := hitem
            exact ⟨z, hz, hzy.trans hyv⟩
      · rw [if_neg (fun h => hitem ((hseen item).mp h)), Dedup.firsts_cons_of_not_rel hitem]
        rw [@ih _ (before ++ [item]) (fun v => ?_) (outs ++ [item]), List.append_assoc,
          List.singleton_append]
        rw [List.any_cons, Bool.or_eq_true, same_hashable_iff, hseen]
        constructor
        · rintro (hv | ⟨y, hy, hyv⟩)
          · exact ⟨item, List.mem_append_right _ List.mem_cons_self, hv.symm⟩
          · exact ⟨y, List.mem_append_left _ hy, hyv⟩
        · rintro ⟨y, hy, hyv⟩
          rcases List.mem_append.mp hy with hy | hy
          · exact Or.inr ⟨y, hy, hyv⟩
          · cases List.mem_singleton.mp hy
            exact Or.inl hyv.symm

theorem dropDuplicates_result (inputs : List (Json F)) :
    (dropDuplicates inputs).result = Dedup.firsts SameAsArrays [] inputs :=
  dropLoop_eq (fun v => by simp) [] inputs

/-! ### The first elements of each value -/

/-- The first elements of each value are kept exactly when no two different values of the list are
the same with objects as arrays and booleans as numbers. -/
theorem dropDuplicates_iff (inputs : List (Json F)) :
    (dropDuplicates inputs).result = Dedup.firsts SameValue [] inputs ↔
      ∀ v ∈ inputs, ∀ w ∈ inputs, SameAsArrays v w → SameValue v w := by
  rw [dropDuplicates_result]
  refine Dedup.firsts_eq_iff ?_ ?_ (fun v w h => congrArg Value.asArrays h) inputs
  · exact ⟨fun _ => rfl, Eq.symm, Eq.trans⟩
  · exact ⟨fun _ => rfl, Eq.symm, Eq.trans⟩

/-- The empty object is left out after the empty array. -/
theorem dropDuplicates_empty :
    (dropDuplicates ([.list [], .dict []] : List (Json Tenths))).result = [.list []] ∧
      Dedup.firsts SameValue [] ([.list [], .dict []] : List (Json Tenths)) =
        [.list [], .dict []] := by
  constructor
  · have hsame : SameAsArrays (.list []) (.dict [] : Json Tenths) := by
      show Value.list [] = Value.list (Value.asArraysEntries (sortEntries []))
      rw [sortEntries, List.mergeSort_nil, Value.asArraysEntries]
    rw [dropDuplicates_result, Dedup.firsts_cons_of_not_rel (by simp), List.nil_append,
      Dedup.firsts_cons_of_rel ⟨_, List.mem_singleton_self _, hsame⟩, Dedup.firsts]
  · rw [Dedup.firsts_cons_of_not_rel (by simp), Dedup.firsts_cons_of_not_rel, Dedup.firsts]
    rintro ⟨y, hy, hyx⟩
    cases List.mem_singleton.mp hy
    cases hyx

end RagFlow.Agent.ListOperations
