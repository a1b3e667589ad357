import Mathlib.Data.Finset.Dedup
import Mathlib.Data.Finset.Card
import RagFlow.Dict

/-! # Least recently used

A bounded cache as the list of its entries, the one used last in front.

* **Calls.** A read that finds its key and a write move the entry to the front, a write drops what
  lies beyond the capacity.
* **Recency.** What a cache is for is said key by key: a key has its value and the set of the other
  keys used since its own last use, and it is kept until this set is as large as the capacity
  (`Recency.next`).
* **Agreement.** The list is an implementation: after every run of calls each key has the value and
  the set of the specification (`recency_run`), the keys are distinct and the bound holds
  (`wellFormed_run`). -/

namespace RagFlow.Lru

variable {κ β : Type}

inductive Call (κ β : Type) where
  | get (k : κ)
  | put (k : κ) (v : β)
  | remove (k : κ)
  | clear

/-- The keys in front of `k`. -/
def front [DecidableEq κ] (k : κ) (s : List (κ × β)) : List κ :=
  (s.map Prod.fst).takeWhile (· ≠ k)

/-- The value of a key and the other keys that were used since. -/
abbrev Recency (κ β : Type) := κ → Option (β × Finset κ)

variable [DecidableEq κ] [BEq κ] {capacity : ℕ} {s : List (κ × β)} {j k : κ} {v : β}

/-- `k` comes to the front if it is there. -/
def touch (k : κ) (s : List (κ × β)) : List (κ × β) :=
  match s.lookup k with
  | some v => (k, v) :: Dict.erase k s
  | none => s

def step (capacity : ℕ) (s : List (κ × β)) : Call κ β → List (κ × β)
  | .get k => touch k s
  | .put k v => ((k, v) :: Dict.erase k s).take capacity
  | .remove k => Dict.erase k s
  | .clear => []

def run (capacity : ℕ) (calls : List (Call κ β)) : List (κ × β) := calls.foldl (step capacity) []

namespace Recency

/-- `j` is used: the keys for which the set becomes too large are gone. -/
def use (capacity : ℕ) (j : κ) (w : Recency κ β) : Recency κ β := fun k =>
  (w k).bind fun r => if (insert j r.2).card < capacity then some (r.1, insert j r.2) else none

/-- One call, key by key. -/
def next (capacity : ℕ) (w : Recency κ β) : Call κ β → Recency κ β
  | .get j =>
      match w j with
      | some r => Function.update (use capacity j w) j (some (r.1, ∅))
      | none => w
  | .put j v => Function.update (use capacity j w) j (if 0 < capacity then some (v, ∅) else none)
  | .remove j => Function.update (fun k => (w k).map fun r => (r.1, r.2.erase j)) j none
  | .clear => fun _ => none

def after (capacity : ℕ) (calls : List (Call κ β)) : Recency κ β :=
  calls.foldl (next capacity) fun _ => none

/-- What a list says of each key. -/
def ofList (s : List (κ × β)) : Recency κ β := fun k =>
  (s.lookup k).map fun v => (v, (front k s).toFinset)

end Recency

/-- Distinct keys within the bound. -/
structure WellFormed (capacity : ℕ) (s : List (κ × β)) : Prop where
  nodup : (s.map Prod.fst).Nodup
  bound : s.length ≤ capacity

variable [LawfulBEq κ]

/-! ### The keys in front of a key -/

theorem front_cons_self (v : β) (s : List (κ × β)) : front k ((k, v) :: s) = [] := by
  unfold front
  rw [List.map_cons, List.takeWhile_cons_of_neg (by simp)]

theorem front_cons_of_ne (h : j ≠ k) (v : β) (s : List (κ × β)) :
    front k ((j, v) :: s) = j :: front k s := by
  unfold front
  rw [List.map_cons, List.takeWhile_cons_of_pos (by simpa using h)]

theorem front_erase (h : k ≠ j) (s : List (κ × β)) :
    front k (Dict.erase j s) = (front k s).filter (· ≠ j) := by
  induction s with
  | nil => rfl
  | cons e s ih =>
      obtain ⟨i, v⟩ := e
      unfold Dict.erase at ih ⊢
      by_cases hij : i = j
      · subst hij
        rw [List.filter_cons_of_neg (by simp), ih, front_cons_of_ne (Ne.symm h),
          List.filter_cons_of_neg (by simp)]
      · rw [List.filter_cons_of_pos (by simpa using hij)]
        by_cases hik : i = k
        · subst hik
          rw [front_cons_self, front_cons_self, List.filter_nil]
        · rw [front_cons_of_ne hik, front_cons_of_ne hik, ih,
            List.filter_cons_of_pos (by simpa using hij)]

theorem nodup_front (h : (s.map Prod.fst).Nodup) (k : κ) : (front k s).Nodup :=
  h.sublist (List.takeWhile_sublist _)

theorem card_front (h : (s.map Prod.fst).Nodup) (k : κ) :
    (front k s).toFinset.card = (front k s).length :=
  List.toFinset_card_of_nodup (nodup_front h k)

/-- The first entries still have a key when fewer keys are in front of it. -/
theorem lookup_take (k : κ) (s : List (κ × β)) (n : ℕ) :
    (s.take n).lookup k = if (front k s).length < n then s.lookup k else none := by
  induction s generalizing n with
  | nil => rw [List.take_nil, List.lookup_nil, ite_self]
  | cons e s ih =>
      obtain ⟨i, v⟩ := e
      cases n with
      | zero => rw [List.take_zero, List.lookup_nil, if_neg (Nat.not_lt_zero _)]
      | succ n =>
          rw [List.take_succ_cons]
          by_cases hik : i = k
          · subst hik
            rw [List.lookup_cons_self, List.lookup_cons_self, front_cons_self]
            exact (if_pos (Nat.succ_pos n)).symm
          · rw [Dict.lookup_cons_of_ne (Ne.symm hik), Dict.lookup_cons_of_ne (Ne.symm hik), ih,
              front_cons_of_ne hik, List.length_cons]
            simp only [Nat.add_lt_add_iff_right]

theorem front_take {n : ℕ} (h : (front k s).length < n) : front k (s.take n) = front k s := by
  induction s generalizing n with
  | nil => rw [List.take_nil]
  | cons e s ih =>
      obtain ⟨i, v⟩ := e
      obtain ⟨n, rfl⟩ := Nat.exists_eq_succ_of_ne_zero (Nat.ne_of_gt (Nat.zero_lt_of_lt h))
      rw [List.take_succ_cons]
      by_cases hik : i = k
      · subst hik
        rw [front_cons_self, front_cons_self]
      · rw [front_cons_of_ne hik, List.length_cons] at h
        rw [front_cons_of_ne hik, front_cons_of_ne hik, ih (Nat.lt_of_succ_lt_succ h)]

/-! ### The calls one by one -/

theorem touch_of_some (h : s.lookup k = some v) : touch k s = (k, v) :: Dict.erase k s := by
  unfold touch
  rw [h]

theorem touch_of_none (h : s.lookup k = none) : touch k s = s := by
  unfold touch
  rw [h]

theorem next_get_of_some {w : Recency κ β} {r : β × Finset κ} (h : w j = some r) :
    Recency.next capacity w (.get j) =
      Function.update (Recency.use capacity j w) j (some (r.1, ∅)) := by
  unfold Recency.next
  simp only [h]

theorem next_get_of_none {w : Recency κ β} (h : w j = none) :
    Recency.next capacity w (.get j) = w := by
  unfold Recency.next
  simp only [h]

/-! ### The keys stay distinct and the bound is kept -/

theorem nodup_toFront (h : (s.map Prod.fst).Nodup) (k : κ) (v : β) :
    (((k, v) :: Dict.erase k s).map Prod.fst).Nodup := by
  rw [List.map_cons, List.nodup_cons]
  refine ⟨fun hmem => ?_, Dict.nodup_erase h⟩
  obtain ⟨e, he, hek⟩ := List.mem_map.mp hmem
  exact absurd hek (by simpa using (List.mem_filter.mp he).2)

theorem length_erase_lt (h : s.lookup k = some v) : (Dict.erase k s).length < s.length := by
  refine List.length_filter_lt_length_iff_exists.mpr ⟨(k, v), Dict.mem_of_lookup h, ?_⟩
  simp

theorem WellFormed.step (h : WellFormed capacity s) (call : Call κ β) :
    WellFormed capacity (step capacity s call) := by
  cases call with
  | get k =>
      show WellFormed capacity (touch k s)
      cases hk : s.lookup k with
      | none => rwa [touch_of_none hk]
      | some v =>
          rw [touch_of_some hk]
          exact ⟨nodup_toFront h.nodup k v, (length_erase_lt hk).trans_le h.bound⟩
  | put k v =>
      show WellFormed capacity (((k, v) :: Dict.erase k s).take capacity)
      refine ⟨?_, List.length_take_le _ _⟩
      exact (nodup_toFront h.nodup k v).sublist ((List.take_sublist _ _).map _)
  | remove k => exact ⟨Dict.nodup_erase h.nodup, (List.length_filter_le _ _).trans h.bound⟩
  | clear => exact ⟨List.nodup_nil, Nat.zero_le _⟩

theorem wellFormed_run (capacity : ℕ) (calls : List (Call κ β)) :
    WellFormed capacity (run capacity calls) := by
  suffices ∀ s, WellFormed capacity s → WellFormed capacity (calls.foldl (step capacity) s) from
    this [] ⟨List.nodup_nil, Nat.zero_le _⟩
  intro s hs
  induction calls generalizing s with
  | nil => exact hs
  | cons call calls ih => exact ih _ (hs.step call)

/-! ### The list keeps what the specification says -/

open Recency

theorem ofList_erase (h : k ≠ j) (s : List (κ × β)) :
    ofList (Dict.erase j s) k = (ofList s k).map fun r => (r.1, r.2.erase j) := by
  have hfront : ((front k s).filter (· ≠ j)).toFinset = (front k s).toFinset.erase j := by
    ext i
    simp [and_comm]
  unfold ofList
  rw [Dict.lookup_erase, if_neg h, front_erase h, hfront, Option.map_map]
  rfl

/-- The entry of `j` is put in front of the others. -/
theorem ofList_toFront (hnodup : (s.map Prod.fst).Nodup) (hne : k ≠ j) (v : β) :
    ofList (((j, v) :: Dict.erase j s).take capacity) k = use capacity j (ofList s) k := by
  have hfront : (front k ((j, v) :: Dict.erase j s)).toFinset
      = insert j (front k s).toFinset := by
    rw [front_cons_of_ne (Ne.symm hne), front_erase hne, List.toFinset_cons, List.toFinset_filter]
    ext i
    by_cases hij : i = j
    · simp [hij]
    · simp [hij]
  have hcard := card_front (nodup_toFront hnodup j v) k
  have hread : ((j, v) :: Dict.erase j s).lookup k = s.lookup k := by
    rw [Dict.lookup_cons_of_ne hne, Dict.lookup_erase, if_neg hne]
  have hs : ofList s k = (s.lookup k).map fun u => (u, (front k s).toFinset) := rfl
  unfold use
  rw [hs]
  unfold ofList
  rw [lookup_take, hread, ← hcard, hfront]
  cases s.lookup k with
  | none => rw [ite_self, Option.map_none, Option.map_none, Option.bind_none]
  | some u =>
      rw [Option.map_some, Option.bind_some]
      by_cases hlt : (insert j (front k s).toFinset).card < capacity
      · rw [if_pos hlt, if_pos hlt, Option.map_some,
          front_take (by rw [← hcard, hfront]; exact hlt), hfront]
      · rw [if_neg hlt, if_neg hlt, Option.map_none]

theorem ofList_step (h : WellFormed capacity s) (call : Call κ β) :
    ofList (step capacity s call) = next capacity (ofList s) call := by
  funext k
  cases call with
  | get j =>
      show ofList (touch j s) k = _
      cases hs : s.lookup j with
      | none =>
          have hj : ofList s j = none := by rw [ofList, hs, Option.map_none]
          rw [touch_of_none hs, next_get_of_none hj]
      | some v =>
          have hj : ofList s j = some (v, (front j s).toFinset) := by
            rw [ofList, hs, Option.map_some]
          rw [touch_of_some hs, next_get_of_some hj]
          by_cases hkj : k = j
          · subst hkj
            rw [Function.update_self, ofList, List.lookup_cons_self, front_cons_self,
              Option.map_some, List.toFinset_nil]
          · have htake : ((j, v) :: Dict.erase j s).take capacity = (j, v) :: Dict.erase j s :=
              List.take_of_length_le ((length_erase_lt hs).trans_le h.bound)
            rw [Function.update_of_ne hkj, ← ofList_toFront h.nodup hkj v, htake]
  | put j v =>
      show ofList (((j, v) :: Dict.erase j s).take capacity) k
        = Function.update (use capacity j (ofList s)) j _ k
      by_cases hkj : k = j
      · subst hkj
        have hfront : front k ((k, v) :: Dict.erase k s) = [] := front_cons_self v _
        rw [Function.update_self, ofList, lookup_take, hfront, List.lookup_cons_self,
          List.length_nil]
        by_cases hpos : 0 < capacity
        · rw [if_pos hpos, if_pos hpos, Option.map_some,
            front_take (by rw [hfront]; exact hpos), hfront, List.toFinset_nil]
        · rw [if_neg hpos, if_neg hpos, Option.map_none]
      · rw [Function.update_of_ne hkj, ofList_toFront h.nodup hkj]
  | remove j =>
      show ofList (Dict.erase j s) k = Function.update (fun i => (ofList s i).map _) j none k
      by_cases hkj : k = j
      · subst hkj
        rw [Function.update_self, ofList, Dict.lookup_erase, if_pos rfl, Option.map_none]
      · rw [Function.update_of_ne hkj, ofList_erase hkj]
  | clear => rfl

/-- A run of the list says of each key what the specification says. -/
theorem recency_run (capacity : ℕ) (calls : List (Call κ β)) :
    ofList (run capacity calls) = after capacity calls := by
  suffices ∀ s, WellFormed capacity s →
      ofList (calls.foldl (step capacity) s) = calls.foldl (next capacity) (ofList s) from
    this [] ⟨List.nodup_nil, Nat.zero_le _⟩
  intro s hs
  induction calls generalizing s with
  | nil => rfl
  | cons call calls ih =>
      rw [List.foldl_cons, List.foldl_cons, ih _ (hs.step call), ofList_step hs call]

theorem lookup_run (capacity : ℕ) (calls : List (Call κ β)) (k : κ) :
    (run capacity calls).lookup k = (after capacity calls k).map Prod.fst := by
  rw [← recency_run, ofList, Option.map_map]
  exact Option.map_id'.symm

end RagFlow.Lru
