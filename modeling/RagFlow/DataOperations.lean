import RagFlow.PyJson
import RagFlow.Renaming

/-! # Renaming keys of objects

`_rename_keys` of `agent/component/data_operations.py`: each object is copied, and the pairs of the
component are carried out on the copy one after another.

* **Names.** The two names of a pair are stripped.  A pair without one of them is skipped, and so is
  what is not a dictionary.
* **Result.** `renameKeys_simultaneous_iff`: for pairs that stand for a renaming without loss, all
  keys get their new names and nothing is lost exactly when no key of an object gets the old name of
  a later pair.  In a swap, and in a chain in the wrong order, one does. -/

namespace RagFlow.Agent.DataOperations

open Py Renaming

variable {F : Type} [Binary64 F]

/-- An object: a dictionary with its distinct keys. -/
structure Obj (F : Type) where
  entries : List (Str × Json F)
  nodup : (entries.map Prod.fst).Nodup

/-- `new_obj[new] = new_obj.pop(old)`, if `old` is in the object. -/
def Obj.rename (old new : Str) (obj : Obj F) : Obj F :=
  ⟨Renaming.rename old new obj.entries, nodup_rename obj.nodup⟩

/-! ### The pairs -/

/-- `(pair.get(key) or "").strip()`; `none` when it raises. -/
def nameOf (pair : List (Str × Json F)) (key : Str) : Option Str :=
  let v := (pair.lookup key).getD .null
  if v.truthy then
    match v with
    | .str s => some (strip s)
    | _ => none
  else some []

/-- The two names of a pair. -/
def namesOf (pair : List (Str × Json F)) : Option (Str × Str) :=
  (nameOf pair "old_key").bind fun old => (nameOf pair "new_key").map fun new => (old, new)

/-- A round of the loop over the pairs; `none` when it raises. -/
def renameStep (obj : Obj F) : Json F → Option (Obj F)
  | .dict pair =>
      (namesOf pair).map fun p =>
        if p.1 = [] ∨ p.2 = [] ∨ p.1 = p.2 then obj else obj.rename p.1 p.2
  | _ => some obj

/-- The result for one object. -/
def renameObject (pairs : List (Json F)) (obj : Obj F) : Option (Obj F) :=
  pairs.foldlM renameStep obj

/-- `_rename_keys`: the results for the objects; `none` when it raises. -/
def renameKeys (pairs : List (Json F)) (objs : List (Obj F)) : Option (List (Obj F)) :=
  objs.mapM (renameObject pairs)

/-- The names of the pairs that have both; `none` when reading them raises. -/
def renamePairs : List (Json F) → Option (List (Str × Str))
  | [] => some []
  | .dict pair :: pairs =>
      (namesOf pair).bind fun p => (renamePairs pairs).map fun ps =>
        if p.1 = [] ∨ p.2 = [] then ps else p :: ps
  | _ :: pairs => renamePairs pairs

/-! ### The loops -/

/-- The loop over the pairs carries out the renaming that they stand for. -/
theorem renameObject_eq {pairs : List (Json F)} {ps : List (Str × Str)}
    (h : renamePairs pairs = some ps) (obj : Obj F) :
    ∃ obj', renameObject pairs obj = some obj' ∧ obj'.entries = renameAll ps obj.entries := by
  unfold renameObject
  induction pairs generalizing ps obj with
  | nil =>
      cases h
      exact ⟨obj, rfl, rfl⟩
  | cons pair pairs ih =>
      rw [List.foldlM_cons]
      cases pair with
      | dict pair =>
          rw [renamePairs] at h
          obtain ⟨p, hp, h⟩ := Option.bind_eq_some_iff.mp h
          obtain ⟨rest, hrest, hps⟩ := Option.map_eq_some_iff.mp h
          rw [renameStep, hp, Option.map_some, Option.bind_eq_bind, Option.bind_some]
          by_cases hempty : p.1 = [] ∨ p.2 = []
          · rw [if_pos hempty] at hps
            rw [if_pos (hempty.elim Or.inl (fun h => Or.inr (Or.inl h))), ← hps]
            exact ih hrest obj
          · rw [if_neg hempty] at hps
            rw [not_or] at hempty
            rw [← hps]
            unfold renameAll
            rw [List.foldl_cons]
            by_cases heq : p.1 = p.2
            · rw [if_pos (Or.inr (Or.inr heq)), if_pos heq]
              exact ih hrest obj
            · rw [if_neg (by simp [hempty, heq]), if_neg heq]
              exact ih hrest (obj.rename p.1 p.2)
      | null | bool _ | int _ | float _ | str _ | list _ =>
          exact ih h obj

theorem renameKeys_eq {pairs : List (Json F)} {ps : List (Str × Str)}
    (h : renamePairs pairs = some ps) (objs : List (Obj F)) :
    ∃ objs', renameKeys pairs objs = some objs' ∧
      List.Forall₂ (fun obj obj' => obj'.entries = renameAll ps obj.entries) objs objs' := by
  unfold renameKeys
  induction objs with
  | nil => exact ⟨[], rfl, List.Forall₂.nil⟩
  | cons obj objs ih =>
      obtain ⟨obj', hobj, hentries⟩ := renameObject_eq h obj
      obtain ⟨objs', hobjs, hall⟩ := ih
      refine ⟨obj' :: objs', ?_, List.Forall₂.cons hentries hall⟩
      rw [List.mapM_cons, hobj, hobjs]
      rfl

/-! ### Simultaneous renaming -/

/-- Each object has become the one in which all keys are renamed at once. -/
def Simultaneous (ps : List (Str × Str)) (objs objs' : List (Obj F)) : Prop :=
  List.Forall₂ (fun obj obj' => obj'.entries.Perm (renamed ps obj.entries)) objs objs'

/-- For pairs that are apart on every object, the objects are renamed as if at once exactly when
no key of an object gets the old name of a later pair. -/
theorem renameKeys_simultaneous_iff (pairs : List (Json F)) (objs : List (Obj F))
    (ps : List (Str × Str)) (hps : renamePairs pairs = some ps)
    (hapart : ∀ obj ∈ objs, Apart ps obj.entries) :
    (∃ objs', renameKeys pairs objs = some objs' ∧ Simultaneous ps objs objs') ↔
      ∀ obj ∈ objs, NoChain ps obj.entries := by
  obtain ⟨objs', hobjs, hall⟩ := renameKeys_eq hps objs
  have hiff : Simultaneous ps objs objs' ↔ ∀ obj ∈ objs, NoChain ps obj.entries := by
    unfold Simultaneous
    clear hobjs
    induction hall with
    | nil => simp
    | @cons obj obj' objs objs' hentries hall ih =>
        obtain ⟨hobj, hrest⟩ := List.forall_mem_cons.mp hapart
        rw [List.forall₂_cons, List.forall_mem_cons, hentries,
          renameAll_perm_iff hobj obj.nodup, ih hrest]
  rw [hobjs, ← hiff]
  constructor
  · rintro ⟨objs'', heq, h⟩
    cases heq
    exact h
  · intro h
    exact ⟨objs', rfl, h⟩

/-- A pair of the component. -/
def pairOf (old new : Str) : Json Tenths := .dict [("old_key", .str old), ("new_key", .str new)]

/-- An object with the keys `a` and `b`. -/
def twoKeys : Obj Tenths := ⟨[("a", .int 1), ("b", .int 2)], by decide⟩

/-- A chain in the order in which it can be carried out. -/
theorem renameKeys_simultaneous_iff_chain :
    ∃ objs', renameKeys [pairOf "b" "c", pairOf " a " "b"] [twoKeys] = some objs' ∧
      Simultaneous [("b", "c"), ("a", "b")] [twoKeys] objs' := by
  refine (renameKeys_simultaneous_iff [pairOf "b" "c", pairOf " a " "b"] [twoKeys]
    [("b", "c"), ("a", "b")] rfl (fun obj hobj => ?_)).mpr (fun obj hobj => ?_)
  · cases List.mem_singleton.mp hobj
    exact ⟨by decide, by decide, by decide⟩
  · cases List.mem_singleton.mp hobj
    decide

/-- The names of two keys change places. -/
def swap : List (Str × Str) := [("a", "b"), ("b", "a")]

/-- A swap loses a value. -/
theorem renameKeys_swap :
    (∀ obj ∈ [twoKeys], Apart swap obj.entries) ∧
      renamePairs [pairOf "a" "b", pairOf "b" "a"] = some swap ∧
      ¬∃ objs', renameKeys [pairOf "a" "b", pairOf "b" "a"] [twoKeys] = some objs' ∧
        Simultaneous swap [twoKeys] objs' := by
  refine ⟨fun obj hobj => ?_, rfl, ?_⟩
  · cases List.mem_singleton.mp hobj
    exact ⟨by decide, by decide, by decide⟩
  · rintro ⟨objs', hobjs, hperm⟩
    cases hobjs
    have hlength := (List.forall₂_cons.mp hperm).1.length_eq
    revert hlength
    decide

end RagFlow.Agent.DataOperations
