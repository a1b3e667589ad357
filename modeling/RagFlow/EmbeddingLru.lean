import Mathlib.Data.List.Nodup
import RagFlow.Lru
import RagFlow.PyStr
import RagFlow.Transition

/-! # The cache of embeddings

`EmbeddingLRU`: a map from keys to the elements of a doubly linked list, and the retrieval that
asks it before the embedding model.  A list of the package `container/list` is the list of its
elements, an element is known by its number; the vectors are copied in and out and never looked at.

* **Agreement.** `Consistent`: the map leads from a key to the one element that has it.  Every call
  keeps this, and on the entries it is a step of the list of entries used last (`entries_step`).
* **Runs.** What `Get` finds after any calls, one after the other, is the value of the specification
  `Lru.Recency` (`get_run`).
* **Keys.** The key joins the question and the model by `::`.  Two pairs share a key exactly if one
  identifier continues the other over a colon (`buildKey_eq_iff`).
* **Overlaps.** `Get` changes the list while it holds the lock for reading only.  What may become
  of the list is `Shared`, a cache that evicts any element; calls one after the other are among its
  calls (`covers_put`).
* **Retrieval.** A vector that a request is served with from this cache was the last to be stored
  for this question and this model (`served_was_encoded`). -/

namespace RagFlow.EmbeddingLru

open Py (Str)

variable {E : Type}

/-! ### The cache -/

/-- An element of the list with its entry. -/
structure Element (E : Type) where
  id : ℕ
  key : Str
  value : E

structure EmbeddingLRU (E : Type) where
  capacity : ℤ
  cache : List (Str × ℕ)
  list : List (Element E)
  /-- The number of the next element. -/
  nextId : ℕ

def newEmbeddingLRU (capacity : ℤ) : EmbeddingLRU E := ⟨capacity, [], [], 0⟩

def buildKey (question embeddingID : Str) : Str := question ++ "::".toList ++ embeddingID

/-- The element with the number `id`. -/
def elementOf (id : ℕ) (l : List (Element E)) : Option (Element E) := l.find? (·.id = id)

def removeElement (id : ℕ) (l : List (Element E)) : List (Element E) := l.filter (·.id ≠ id)

def moveToFront (id : ℕ) (l : List (Element E)) : List (Element E) :=
  (elementOf id l).toList ++ removeElement id l

namespace EmbeddingLRU

def len (lru : EmbeddingLRU E) : ℕ := lru.list.length

def get (lru : EmbeddingLRU E) (question embeddingID : Str) : Option E × EmbeddingLRU E :=
  match lru.cache.lookup (buildKey question embeddingID) with
  | some elem =>
      ((elementOf elem lru.list).map (·.value), { lru with list := moveToFront elem lru.list })
  | none => (none, lru)

def evictOldest (lru : EmbeddingLRU E) : EmbeddingLRU E :=
  match lru.list.getLast? with
  | some elem =>
      { lru with list := removeElement elem.id lru.list, cache := Dict.erase elem.key lru.cache }
  | none => lru

def put (lru : EmbeddingLRU E) (question embeddingID : Str) (embedding : E) : EmbeddingLRU E :=
  let key := buildKey question embeddingID
  match lru.cache.lookup key with
  | some elem =>
      { lru with
        list := (moveToFront elem lru.list).map fun x =>
          if x.id = elem then { x with value := embedding } else x }
  | none =>
      let added : EmbeddingLRU E :=
        { lru with
          list := ⟨lru.nextId, key, embedding⟩ :: lru.list
          cache := Dict.set key lru.nextId lru.cache
          nextId := lru.nextId + 1 }
      if (added.len : ℤ) > lru.capacity then added.evictOldest else added

def remove (lru : EmbeddingLRU E) (question embeddingID : Str) : EmbeddingLRU E :=
  match lru.cache.lookup (buildKey question embeddingID) with
  | some elem =>
      { lru with
        list := removeElement elem lru.list
        cache := Dict.erase (buildKey question embeddingID) lru.cache }
  | none => lru

def clear (lru : EmbeddingLRU E) : EmbeddingLRU E := { lru with cache := [], list := [] }

/-- The entries, the one used last in front. -/
def entries (lru : EmbeddingLRU E) : List (Str × E) := lru.list.map fun x => (x.key, x.value)

/-- The map leads from a key to the one element that has it. -/
structure Consistent (lru : EmbeddingLRU E) : Prop where
  nodup_ids : (lru.list.map (·.id)).Nodup
  nodup_keys : (lru.list.map (·.key)).Nodup
  fresh : ∀ x ∈ lru.list, x.id < lru.nextId
  cache_eq : ∀ k, lru.cache.lookup k = (lru.list.find? (·.key = k)).map (·.id)
end EmbeddingLRU

/-- A call that does not overlap with others. -/
inductive Op (E : Type) where
  | get (question embeddingID : Str)
  | put (question embeddingID : Str) (embedding : E)
  | remove (question embeddingID : Str)
  | clear

namespace Op

def call : Op E → Lru.Call Str E
  | .get q e => .get (buildKey q e)
  | .put q e v => .put (buildKey q e) v
  | .remove q e => .remove (buildKey q e)
  | .clear => .clear

end Op

open EmbeddingLRU

def step (lru : EmbeddingLRU E) : Op E → EmbeddingLRU E
  | .get q e => (lru.get q e).2
  | .put q e v => lru.put q e v
  | .remove q e => lru.remove q e
  | .clear => lru.clear

def run (capacity : ℤ) (ops : List (Op E)) : EmbeddingLRU E :=
  ops.foldl step (newEmbeddingLRU capacity)

/-! ### Elements of a list without repetitions -/

variable {l : List (Element E)} {x y : Element E} {lru : EmbeddingLRU E} {k : Str}

theorem lookup_entries (lru : EmbeddingLRU E) (k : Str) :
    lru.entries.lookup k = (lru.list.find? (·.key = k)).map (·.value) := by
  unfold entries
  induction lru.list with
  | nil => rfl
  | cons y l ih =>
      rw [List.map_cons]
      by_cases hk : y.key = k
      · subst hk
        rw [List.lookup_cons_self, List.find?_cons_of_pos (by simp), Option.map_some]
      · rw [Dict.lookup_cons_of_ne (Ne.symm hk), List.find?_cons_of_neg (by simpa using hk), ih]

theorem elementOf_of_mem (hl : (l.map (·.id)).Nodup) (hx : x ∈ l) : elementOf x.id l = some x := by
  induction l with
  | nil => cases hx
  | cons y l ih =>
      rw [List.map_cons, List.nodup_cons] at hl
      unfold elementOf at ih ⊢
      rcases List.mem_cons.mp hx with rfl | hx
      · rw [List.find?_cons_of_pos (by simp)]
      · have hne : y.id ≠ x.id := fun h => hl.1 (h ▸ List.mem_map_of_mem hx)
        rw [List.find?_cons_of_neg (by simpa using hne), ih hl.2 hx]

theorem key_inj (h : (l.map (·.key)).Nodup) (hx : x ∈ l) (hy : y ∈ l) (he : x.key = y.key) :
    x = y :=
  List.inj_on_of_nodup_map h hx hy he

theorem id_inj (h : (l.map (·.id)).Nodup) (hx : x ∈ l) (hy : y ∈ l) (he : x.id = y.id) : x = y :=
  List.inj_on_of_nodup_map h hx hy he

namespace EmbeddingLRU.Consistent

/-- The element with the number of `x` is the one with the key of `x`. -/
theorem removeElement_eq (h : lru.Consistent) (hx : x ∈ lru.list) :
    removeElement x.id lru.list = lru.list.filter (·.key ≠ x.key) := by
  refine List.filter_congr fun y hy => ?_
  have hiff : y.id = x.id ↔ y.key = x.key :=
    ⟨fun he => congrArg Element.key (id_inj h.nodup_ids hy hx he),
      fun he => congrArg Element.id (key_inj h.nodup_keys hy hx he)⟩
  simp [hiff]

theorem moveToFront_eq (h : lru.Consistent) (hx : x ∈ lru.list) :
    moveToFront x.id lru.list = x :: lru.list.filter (·.key ≠ x.key) := by
  unfold moveToFront
  rw [elementOf_of_mem h.nodup_ids hx, h.removeElement_eq hx]
  rfl

theorem lookup_some (h : lru.Consistent) {id : ℕ} (hk : lru.cache.lookup k = some id) :
    ∃ x ∈ lru.list, x.key = k ∧ x.id = id ∧ lru.entries.lookup k = some x.value := by
  rw [h.cache_eq, Option.map_eq_some_iff] at hk
  obtain ⟨x, hfind, hid⟩ := hk
  have hkey : x.key = k := by simpa using List.find?_some hfind
  exact ⟨x, List.mem_of_find?_eq_some hfind, hkey, hid, by rw [lookup_entries, hfind]; rfl⟩

theorem lookup_none (h : lru.Consistent) (hk : lru.cache.lookup k = none) :
    lru.entries.lookup k = none ∧ ∀ x ∈ lru.list, x.key ≠ k := by
  rw [h.cache_eq, Option.map_eq_none_iff] at hk
  refine ⟨by rw [lookup_entries, hk]; rfl, fun x hx he => ?_⟩
  have := List.find?_eq_none.mp hk x hx
  simp [he] at this

end EmbeddingLRU.Consistent

theorem entries_filter (l : List (Element E)) (k : Str) :
    (l.filter (·.key ≠ k)).map (fun x => (x.key, x.value))
      = Dict.erase k (l.map fun x => (x.key, x.value)) := by
  unfold Dict.erase
  rw [List.filter_map]
  rfl

/-! ### What a call leaves -/

theorem find_filter_ne (l : List (Element E)) (k k' : Str) :
    (l.filter (·.key ≠ k)).find? (·.key = k') = if k' = k then none else l.find? (·.key = k') := by
  induction l with
  | nil => rw [List.filter_nil, List.find?_nil, ite_self]
  | cons y l ih =>
      by_cases hk : y.key = k
      · rw [List.filter_cons_of_neg (by simpa using hk), ih]
        split_ifs with h
        · rfl
        · have hne : y.key ≠ k' := fun he => h (he.symm.trans hk)
          rw [List.find?_cons_of_neg (by simpa using hne)]
      · rw [List.filter_cons_of_pos (by simpa using hk)]
        by_cases hk' : y.key = k'
        · have hne : k' ≠ k := fun he => hk (hk'.trans he)
          rw [if_neg hne, List.find?_cons_of_pos (by simpa using hk'),
            List.find?_cons_of_pos (by simpa using hk')]
        · rw [List.find?_cons_of_neg (by simpa using hk'), ih,
            List.find?_cons_of_neg (by simpa using hk')]

namespace EmbeddingLRU.Consistent

/-- Without the elements of a key. -/
theorem drop (h : lru.Consistent) (k : Str) (cache : List (Str × ℕ))
    (hcache : ∀ k', cache.lookup k' = if k' = k then none else lru.cache.lookup k') :
    Consistent { lru with list := lru.list.filter (·.key ≠ k), cache := cache } where
  nodup_ids := h.nodup_ids.sublist (List.filter_sublist.map _)
  nodup_keys := h.nodup_keys.sublist (List.filter_sublist.map _)
  fresh x hx := h.fresh x (List.mem_filter.mp hx).1
  cache_eq k' := by
    rw [hcache, find_filter_ne]
    split_ifs
    · rfl
    · exact h.cache_eq k'

/-- An element comes to the front, with another value or its own. -/
theorem toFront (h : lru.Consistent) (hx : x ∈ lru.list) (hid : y.id = x.id)
    (hkey : y.key = x.key) :
    Consistent { lru with list := y :: lru.list.filter (·.key ≠ x.key) } where
  nodup_ids := by
    rw [List.map_cons, List.nodup_cons, ← h.removeElement_eq hx]
    refine ⟨fun hmem => ?_, h.nodup_ids.sublist (List.filter_sublist.map _)⟩
    obtain ⟨z, hz, hzy⟩ := List.mem_map.mp hmem
    have hne : z.id ≠ x.id := by simpa using (List.mem_filter.mp hz).2
    exact hne (hzy.trans hid)
  nodup_keys := by
    rw [List.map_cons, List.nodup_cons]
    refine ⟨fun hmem => ?_, h.nodup_keys.sublist (List.filter_sublist.map _)⟩
    obtain ⟨z, hz, hzy⟩ := List.mem_map.mp hmem
    have hne : z.key ≠ x.key := by simpa using (List.mem_filter.mp hz).2
    exact hne (hzy.trans hkey)
  fresh z hz := by
    rcases List.mem_cons.mp hz with rfl | hz
    · exact hid ▸ h.fresh x hx
    · exact h.fresh z (List.mem_filter.mp hz).1
  cache_eq k := by
    show lru.cache.lookup k = _
    rw [h.cache_eq]
    by_cases hk : x.key = k
    · subst hk
      have hfind : lru.list.find? (·.key = x.key) = some x := by
        cases hf : lru.list.find? (·.key = x.key) with
        | none => exact absurd (List.find?_eq_none.mp hf x hx) (by simp)
        | some z =>
            have hz : z.key = x.key := by simpa using List.find?_some hf
            rw [key_inj h.nodup_keys (List.mem_of_find?_eq_some hf) hx hz]
      rw [hfind, List.find?_cons_of_pos (by simpa using hkey), Option.map_some, Option.map_some,
        hid]
    · have hy : y.key ≠ k := fun he => hk (hkey.symm.trans he)
      rw [List.find?_cons_of_neg (by simpa using hy), find_filter_ne, if_neg (Ne.symm hk)]

theorem entries_toFront (y : Element E) (l : List (Element E)) (k : Str) :
    (y :: l.filter (·.key ≠ k)).map (fun x => (x.key, x.value))
      = (y.key, y.value) :: Dict.erase k (l.map fun x => (x.key, x.value)) := by
  rw [List.map_cons, entries_filter]

theorem removeElement_last (hids : ((l ++ [x]).map (·.id)).Nodup) :
    removeElement x.id (l ++ [x]) = l := by
  rw [List.map_append, List.nodup_append] at hids
  unfold removeElement
  rw [List.filter_append, List.filter_eq_self.mpr, List.filter_cons_of_neg (by simp),
    List.filter_nil, List.append_nil]
  intro y hy
  have hne := hids.2.2 y.id (List.mem_map_of_mem hy) x.id (List.mem_singleton.mpr rfl)
  simpa using hne

/-- The elements but the last, whose key leaves the map. -/
theorem evictOldest_eq (hids : (lru.list.map (·.id)).Nodup) (hlast : lru.list = l ++ [x]) :
    lru.evictOldest = { lru with list := l, cache := Dict.erase x.key lru.cache } := by
  have hback : lru.list.getLast? = some x := by rw [hlast, List.getLast?_concat]
  have hl : removeElement x.id lru.list = l := by
    rw [hlast] at hids ⊢
    exact removeElement_last hids
  unfold evictOldest
  rw [hback]
  simp only [hl]

/-- A new element in front. -/
theorem pushFront (h : lru.Consistent) (hk : ∀ x ∈ lru.list, x.key ≠ k) (v : E) :
    Consistent { lru with
      list := ⟨lru.nextId, k, v⟩ :: lru.list
      cache := Dict.set k lru.nextId lru.cache
      nextId := lru.nextId + 1 } where
  nodup_ids := by
    rw [List.map_cons, List.nodup_cons]
    refine ⟨fun hmem => ?_, h.nodup_ids⟩
    obtain ⟨z, hz, hzid⟩ := List.mem_map.mp hmem
    exact absurd hzid (Nat.ne_of_lt (h.fresh z hz))
  nodup_keys := by
    rw [List.map_cons, List.nodup_cons]
    refine ⟨fun hmem => ?_, h.nodup_keys⟩
    obtain ⟨z, hz, hzk⟩ := List.mem_map.mp hmem
    exact hk z hz hzk
  fresh z hz := by
    rcases List.mem_cons.mp hz with rfl | hz
    · exact Nat.lt_succ_self _
    · exact Nat.lt_succ_of_lt (h.fresh z hz)
  cache_eq k' := by
    rw [Dict.lookup_set]
    split_ifs with hkk
    · subst hkk
      rw [List.find?_cons_of_pos (by simp), Option.map_some]
    · rw [List.find?_cons_of_neg (by simpa using Ne.symm hkk)]
      exact h.cache_eq k'

theorem evictOldest (h : lru.Consistent) : Consistent lru.evictOldest := by
  rcases List.eq_nil_or_concat lru.list with hnil | ⟨l, x, hlast⟩
  · have hsame : lru.evictOldest = lru := by
      unfold EmbeddingLRU.evictOldest
      rw [hnil]
      rfl
    rwa [hsame]
  · rw [List.concat_eq_append] at hlast
    have hx : x ∈ lru.list := by rw [hlast]; exact List.mem_concat_self
    have hl : lru.list.filter (·.key ≠ x.key) = l := by
      have hids := h.nodup_ids
      rw [← h.removeElement_eq hx]
      rw [hlast] at hids ⊢
      exact removeElement_last hids
    rw [evictOldest_eq h.nodup_ids hlast, ← hl]
    exact h.drop x.key _ fun k' => Dict.lookup_erase _ _ _

end EmbeddingLRU.Consistent

/-! ### The calls -/

namespace EmbeddingLRU

section branches
variable {q e : Str} {id : ℕ} {v : E}

theorem get_of_none (hk : lru.cache.lookup (buildKey q e) = none) : lru.get q e = (none, lru) := by
  unfold get
  rw [hk]

theorem get_of_some (hk : lru.cache.lookup (buildKey q e) = some id) :
    lru.get q e =
      ((elementOf id lru.list).map (·.value), { lru with list := moveToFront id lru.list }) := by
  unfold get
  rw [hk]

theorem remove_of_none (hk : lru.cache.lookup (buildKey q e) = none) : lru.remove q e = lru := by
  unfold remove
  rw [hk]

theorem remove_of_some (hk : lru.cache.lookup (buildKey q e) = some id) :
    lru.remove q e = { lru with
      list := removeElement id lru.list, cache := Dict.erase (buildKey q e) lru.cache } := by
  unfold remove
  rw [hk]

theorem put_of_some (hk : lru.cache.lookup (buildKey q e) = some id) :
    lru.put q e v = { lru with
      list := (moveToFront id lru.list).map fun x =>
        if x.id = id then { x with value := v } else x } := by
  unfold put
  simp only [hk]

theorem put_of_none {added : EmbeddingLRU E} (hk : lru.cache.lookup (buildKey q e) = none)
    (hadded : added = { lru with
      list := ⟨lru.nextId, buildKey q e, v⟩ :: lru.list
      cache := Dict.set (buildKey q e) lru.nextId lru.cache
      nextId := lru.nextId + 1 }) :
    lru.put q e v = if (added.len : ℤ) > lru.capacity then added.evictOldest else added := by
  unfold put
  simp only [hk, hadded]

end branches

end EmbeddingLRU

namespace EmbeddingLRU.Consistent

theorem get (h : lru.Consistent) (q e : Str) :
    (lru.get q e).1 = lru.entries.lookup (buildKey q e) ∧ (lru.get q e).2.Consistent ∧
      (lru.get q e).2.entries = Lru.touch (buildKey q e) lru.entries := by
  cases hk : lru.cache.lookup (buildKey q e) with
  | none =>
      obtain ⟨hnone, -⟩ := h.lookup_none hk
      rw [get_of_none hk, hnone, Lru.touch_of_none hnone]
      exact ⟨rfl, h, rfl⟩
  | some id =>
      obtain ⟨x, hx, hkey, rfl, hvalue⟩ := h.lookup_some hk
      rw [get_of_some hk, elementOf_of_mem h.nodup_ids hx, h.moveToFront_eq hx, hvalue,
        Lru.touch_of_some hvalue, ← hkey]
      exact ⟨rfl, h.toFront hx rfl rfl, entries_toFront x lru.list x.key⟩

theorem remove (h : lru.Consistent) (q e : Str) :
    (lru.remove q e).Consistent ∧
      (lru.remove q e).entries = Dict.erase (buildKey q e) lru.entries := by
  cases hk : lru.cache.lookup (buildKey q e) with
  | none =>
      obtain ⟨-, hne⟩ := h.lookup_none hk
      have hall : lru.list.filter (·.key ≠ buildKey q e) = lru.list :=
        List.filter_eq_self.mpr fun x hx => by simpa using hne x hx
      rw [remove_of_none hk]
      refine ⟨h, ?_⟩
      unfold entries
      rw [← entries_filter, hall]
  | some id =>
      obtain ⟨x, hx, hkey, rfl, -⟩ := h.lookup_some hk
      rw [remove_of_some hk, ← hkey, h.removeElement_eq hx]
      exact ⟨h.drop x.key _ fun k' => Dict.lookup_erase _ _ _, entries_filter _ _⟩

/-- The value of the element that has come to the front is replaced. -/
theorem put_front (h : lru.Consistent) (hx : x ∈ lru.list) (v : E) :
    ((moveToFront x.id lru.list).map fun y => if y.id = x.id then { y with value := v } else y)
      = { x with value := v } :: lru.list.filter (·.key ≠ x.key) := by
  rw [h.moveToFront_eq hx, List.map_cons, if_pos rfl, ← h.removeElement_eq hx]
  congr 1
  refine (List.map_congr_left fun y hy => ?_).trans (List.map_id _)
  have hne : y.id ≠ x.id := by simpa using (List.mem_filter.mp hy).2
  rw [if_neg hne, id]

/-- With one element more than the capacity the last one goes. -/
theorem entries_evictOldest (h : lru.Consistent) {n : ℕ} (hlen : lru.len = n + 1) :
    lru.evictOldest.entries = lru.entries.take n := by
  rcases List.eq_nil_or_concat lru.list with hnil | ⟨l, x, hlast⟩
  · unfold len at hlen
    rw [hnil] at hlen
    cases hlen
  · rw [List.concat_eq_append] at hlast
    have hl : l.length = n := by
      unfold len at hlen
      rw [hlast, List.length_append, List.length_singleton] at hlen
      exact Nat.succ.inj hlen
    rw [evictOldest_eq h.nodup_ids hlast]
    unfold entries
    rw [hlast, List.map_append, List.take_left' (by rw [List.length_map, hl])]

theorem put (h : lru.Consistent) (hbound : lru.len ≤ lru.capacity.toNat) (q e : Str) (v : E) :
    (lru.put q e v).Consistent ∧
      (lru.put q e v).entries
        = ((buildKey q e, v) :: Dict.erase (buildKey q e) lru.entries).take
            lru.capacity.toNat := by
  have hentries : lru.entries.length = lru.len := List.length_map _
  cases hk : lru.cache.lookup (buildKey q e) with
  | some id =>
      obtain ⟨x, hx, hkey, rfl, hvalue⟩ := h.lookup_some hk
      rw [put_of_some hk, h.put_front hx]
      refine ⟨h.toFront (y := { x with value := v }) hx rfl rfl, ?_⟩
      have hlen := (Lru.length_erase_lt hvalue).trans_le (hentries.trans_le hbound)
      rw [List.take_of_length_le hlen, ← hkey]
      exact entries_toFront _ lru.list x.key
  | none =>
      obtain ⟨-, hne⟩ := h.lookup_none hk
      have hadded := h.pushFront hne v
      rw [put_of_none hk rfl]
      have herase : Dict.erase (buildKey q e) lru.entries = lru.entries := by
        refine List.filter_eq_self.mpr fun y hy => ?_
        obtain ⟨x, hx, rfl⟩ := List.mem_map.mp hy
        simpa using hne x hx
      rw [herase]
      split_ifs with hgt
      · have hlen : lru.len = lru.capacity.toNat := by
          change ((lru.len + 1 : ℕ) : ℤ) > lru.capacity at hgt
          omega
        rw [← hlen]
        exact ⟨hadded.evictOldest, hadded.entries_evictOldest rfl⟩
      · have hle : ((buildKey q e, v) :: lru.entries).length ≤ lru.capacity.toNat := by
          change ¬ ((lru.len + 1 : ℕ) : ℤ) > lru.capacity at hgt
          rw [List.length_cons, hentries]
          omega
        rw [List.take_of_length_le hle]
        exact ⟨hadded, rfl⟩

end EmbeddingLRU.Consistent

theorem capacity_step (lru : EmbeddingLRU E) (op : Op E) :
    (step lru op).capacity = lru.capacity := by
  have hevict : ∀ l : EmbeddingLRU E, l.evictOldest.capacity = l.capacity := by
    intro l
    unfold evictOldest
    split <;> rfl
  cases op with
  | get q e =>
      show (lru.get q e).2.capacity = _
      unfold EmbeddingLRU.get
      split <;> rfl
  | put q e v =>
      show (lru.put q e v).capacity = _
      cases hk : lru.cache.lookup (buildKey q e) with
      | some id => rw [put_of_some hk]
      | none =>
          rw [put_of_none hk rfl]
          split_ifs
          · rw [hevict]
          · rfl
  | remove q e =>
      show (lru.remove q e).capacity = _
      unfold EmbeddingLRU.remove
      split <;> rfl
  | clear => rfl

theorem consistent_nil (hlist : lru.list = []) (hcache : lru.cache = []) : lru.Consistent where
  nodup_ids := by rw [hlist]; exact List.nodup_nil
  nodup_keys := by rw [hlist]; exact List.nodup_nil
  fresh x hx := by rw [hlist] at hx; cases hx
  cache_eq k := by rw [hlist, hcache]; rfl

/-- What every call keeps. -/
structure EmbeddingLRU.Sound (lru : EmbeddingLRU E) : Prop where
  consistent : lru.Consistent
  bound : lru.len ≤ lru.capacity.toNat

theorem sound_new (capacity : ℤ) : (newEmbeddingLRU (E := E) capacity).Sound :=
  ⟨consistent_nil rfl rfl, Nat.zero_le _⟩

/-- A call is a step of the list of entries. -/
theorem entries_step (h : lru.Sound) (op : Op E) :
    (step lru op).Consistent ∧
      (step lru op).entries = Lru.step lru.capacity.toNat lru.entries op.call := by
  cases op with
  | get q e => exact (h.consistent.get q e).2
  | put q e v => exact h.consistent.put h.bound q e v
  | remove q e => exact h.consistent.remove q e
  | clear => exact ⟨consistent_nil rfl rfl, rfl⟩

theorem length_entries (lru : EmbeddingLRU E) : lru.entries.length = lru.len := List.length_map _

theorem EmbeddingLRU.Sound.step (h : lru.Sound) (op : Op E) : (step lru op).Sound := by
  obtain ⟨hcons, hentries⟩ := entries_step h op
  have hwell : Lru.WellFormed lru.capacity.toNat lru.entries :=
    ⟨by rw [entries, List.map_map]; exact h.consistent.nodup_keys,
      (length_entries lru).trans_le h.bound⟩
  have hbound := (hwell.step op.call).bound
  rw [← hentries, length_entries, ← capacity_step lru op] at hbound
  exact ⟨hcons, hbound⟩

/-- The cache after any calls: its list is that of the entries used last. -/
theorem entries_run (capacity : ℤ) (ops : List (Op E)) :
    (run capacity ops).Sound ∧ (run capacity ops).capacity = capacity ∧
      (run capacity ops).entries = Lru.run capacity.toNat (ops.map Op.call) := by
  induction ops using List.reverseRecOn with
  | nil => exact ⟨sound_new capacity, rfl, rfl⟩
  | append_singleton ops op ih =>
      obtain ⟨hsound, hcap, hentries⟩ := ih
      have hrun : run capacity (ops ++ [op]) = step (run capacity ops) op := by
        unfold run
        rw [List.foldl_append]
        rfl
      rw [hrun]
      refine ⟨hsound.step op, (capacity_step _ _).trans hcap, ?_⟩
      rw [(entries_step hsound op).2, hcap, hentries, List.map_append, Lru.run, Lru.run,
        List.foldl_append]
      rfl

/-- What `Get` finds, how many entries there are and what the map knows, after any calls. -/
theorem get_run (capacity : ℤ) (ops : List (Op E)) :
    (∀ q e, ((run capacity ops).get q e).1
      = (Lru.Recency.after capacity.toNat (ops.map Op.call) (buildKey q e)).map Prod.fst) ∧
      ((run capacity ops).len : ℤ) ≤ max capacity 0 ∧ (run capacity ops).Consistent := by
  obtain ⟨hsound, hcap, hentries⟩ := entries_run capacity ops
  refine ⟨fun q e => ?_, ?_, hsound.consistent⟩
  · rw [(hsound.consistent.get q e).1, hentries, Lru.lookup_run]
  · have hbound := hsound.bound
    rw [hcap] at hbound
    omega

/-! ### Keys -/

/-- The identifier `e` continues `e'` to the left, over one colon or over two. -/
def Continues (q e q' e' : Str) : Prop :=
  (q' = q ++ [':'] ∧ e = ':' :: e') ∨ ∃ w, q' = q ++ "::".toList ++ w ∧ e = w ++ "::".toList ++ e'

/-- An identifier whose pairs have keys of their own. -/
def Plain (e : Str) : Prop := ¬ [':'] <+: e ∧ ¬ "::".toList <:+: e

theorem Continues.key_eq {q e q' e' : Str} (h : Continues q e q' e') :
    buildKey q e = buildKey q' e' := by
  unfold buildKey
  rcases h with ⟨rfl, rfl⟩ | ⟨w, rfl, rfl⟩
  · simp
  · simp

theorem Continues.not_plain {q e q' e' : Str} (h : Continues q e q' e') : ¬ Plain e := by
  rintro ⟨hcolon, hcolons⟩
  rcases h with ⟨-, rfl⟩ | ⟨w, -, rfl⟩
  · exact hcolon ⟨e', rfl⟩
  · exact hcolons ⟨w, e', rfl⟩

theorem continues_of_append {q e q' e' a : Str} (hq : q' ++ "::".toList = q ++ "::".toList ++ a)
    (he : e = a ++ e') : (q = q' ∧ e = e') ∨ Continues q e q' e' := by
  rcases List.eq_nil_or_concat a with rfl | ⟨b, d, hb⟩
  · rw [List.append_nil] at hq
    exact Or.inl ⟨(List.append_cancel_right hq).symm, he⟩
  rcases List.eq_nil_or_concat b with rfl | ⟨w, c, hw⟩
  · subst hb he
    have h : (q' ++ [':']) ++ [':'] = (q ++ [':', ':']) ++ [d] := by simpa using hq
    have hd : d = ':' := (List.singleton_inj.mp (List.append_inj_right' h rfl)).symm
    have h' : q' ++ [':'] = (q ++ [':']) ++ [':'] := by simpa using List.append_inj_left' h rfl
    exact Or.inr (Or.inl ⟨List.append_cancel_right h', by rw [hd]; rfl⟩)
  · subst hw hb he
    have h : (q' ++ [':']) ++ [':'] = (q ++ [':', ':'] ++ w ++ [c]) ++ [d] := by simpa using hq
    have hd : d = ':' := (List.singleton_inj.mp (List.append_inj_right' h rfl)).symm
    have h' := List.append_inj_left' h rfl
    have hc : c = ':' := (List.singleton_inj.mp (List.append_inj_right' h' rfl)).symm
    refine Or.inr (Or.inr ⟨w, List.append_inj_left' h' rfl, ?_⟩)
    simp [hc, hd]

/-- Two pairs have one key only if they are equal or one identifier continues the other. -/
theorem buildKey_eq_iff (q e q' e' : Str) :
    buildKey q e = buildKey q' e' ↔
      (q = q' ∧ e = e') ∨ Continues q e q' e' ∨ Continues q' e' q e := by
  constructor
  · intro h
    rcases List.append_eq_append_iff.mp h with ⟨a, hq, he⟩ | ⟨a, hq, he⟩
    · rcases continues_of_append hq he with h | h
      · exact Or.inl h
      · exact Or.inr (Or.inl h)
    · rcases continues_of_append hq he with ⟨hqq, hee⟩ | h
      · exact Or.inl ⟨hqq.symm, hee.symm⟩
      · exact Or.inr (Or.inr h)
  · rintro (⟨rfl, rfl⟩ | h | h)
    · rfl
    · exact h.key_eq
    · exact h.key_eq.symm

theorem buildKey_inj {q e q' e' : Str} (he : Plain e) (he' : Plain e')
    (h : buildKey q e = buildKey q' e') : q = q' ∧ e = e' := by
  rcases (buildKey_eq_iff q e q' e').mp h with h | h | h
  · exact h
  · exact absurd he h.not_plain
  · exact absurd he' h.not_plain

/-! ### Calls that overlap -/

/-- The cache when calls of `Get` overlap.  The map, the entries and the mark of an element that it
belongs to the list are changed under the lock for writing.  The links of the list are not: nothing
is known of them.  `elements` are all that have been made, by number; `members` are those of the
list, in no order. -/
structure Shared (E : Type) where
  capacity : ℤ
  cache : List (Str × ℕ)
  elements : List (Str × E)
  members : List ℕ

namespace Shared

def new (capacity : ℤ) : Shared E := ⟨capacity, [], [], []⟩

/-- What `Get` returns. -/
def get (lru : Shared E) (question embeddingID : Str) : Option E :=
  (lru.cache.lookup (buildKey question embeddingID)).bind
    (fun elem => (lru.elements[elem]?).map Prod.snd)

/-- `evictOldest`, where `Back` is the element `back`.  The root of the list is not one. -/
def evictOldest (lru : Shared E) (back : ℕ) : Shared E :=
  match lru.elements[back]? with
  | some (key, _) =>
      { lru with members := lru.members.erase back, cache := Dict.erase key lru.cache }
  | none => lru

def put (lru : Shared E) (question embeddingID : Str) (embedding : E) (back : ℕ) : Shared E :=
  let key := buildKey question embeddingID
  match lru.cache.lookup key with
  | some elem => { lru with elements := lru.elements.set elem (key, embedding) }
  | none =>
      let added : Shared E :=
        { lru with
          elements := lru.elements ++ [(key, embedding)]
          members := lru.elements.length :: lru.members
          cache := Dict.set key lru.elements.length lru.cache }
      if (added.members.length : ℤ) > lru.capacity then added.evictOldest back else added

/-- The map leads from a key to an element that has it. -/
def Held (lru : Shared E) : Prop :=
  ∀ k id, lru.cache.lookup k = some id → ∃ v, lru.elements[id]? = some (k, v)

section shared
variable {lru : Shared E} {q e q' e' : Str} {u v : E} {back : ℕ}

theorem put_of_some {elem : ℕ} (hk : lru.cache.lookup (buildKey q e) = some elem) :
    lru.put q e v back = { lru with elements := lru.elements.set elem (buildKey q e, v) } := by
  unfold put
  simp only [hk]

theorem put_of_none {added : Shared E} (hk : lru.cache.lookup (buildKey q e) = none)
    (hadded : added = { lru with
      elements := lru.elements ++ [(buildKey q e, v)]
      members := lru.elements.length :: lru.members
      cache := Dict.set (buildKey q e) lru.elements.length lru.cache }) :
    lru.put q e v back =
      if (added.members.length : ℤ) > lru.capacity then added.evictOldest back else added := by
  unfold put
  simp only [hk, hadded]

theorem get_eq_some : lru.get q e = some v ↔
    ∃ id k, lru.cache.lookup (buildKey q e) = some id ∧ lru.elements[id]? = some (k, v) := by
  unfold get
  simp [Option.bind_eq_some_iff]

theorem held_evictOldest (h : lru.Held) : (lru.evictOldest back).Held := by
  unfold evictOldest
  split
  case h_2 => exact h
  case h_1 =>
    intro k id hk
    rw [Dict.lookup_erase] at hk
    split at hk
    · cases hk
    · exact h k id hk

theorem get_of_evictOldest (hget : (lru.evictOldest back).get q e = some v) :
    lru.get q e = some v := by
  unfold evictOldest at hget
  split at hget
  case h_2 => exact hget
  case h_1 =>
    obtain ⟨id, k, hk, helem⟩ := get_eq_some.mp hget
    rw [Dict.lookup_erase] at hk
    split at hk
    · cases hk
    · exact get_eq_some.mpr ⟨id, k, hk, helem⟩

/-- A call of `Put` stores its vector and no other. -/
theorem put_spec (h : lru.Held) (q e : Str) (v : E) (back : ℕ) : (lru.put q e v back).Held ∧
    ∀ q' e' u, (lru.put q e v back).get q' e' = some u →
      (buildKey q e = buildKey q' e' ∧ v = u) ∨
        (buildKey q e ≠ buildKey q' e' ∧ lru.get q' e' = some u) := by
  cases hkey : lru.cache.lookup (buildKey q e) with
  | some elem =>
      obtain ⟨w, hw⟩ := h _ _ hkey
      have hlt : elem < lru.elements.length := (List.getElem?_eq_some_iff.mp hw).1
      rw [put_of_some hkey]
      constructor
      · intro k id hk
        obtain ⟨x, hx⟩ := h k id hk
        by_cases hid : elem = id
        · subst hid
          rw [hw] at hx
          cases hx
          exact ⟨v, List.getElem?_set_self hlt⟩
        · exact ⟨x, by rw [List.getElem?_set_ne hid, hx]⟩
      · intro q' e' u hget
        obtain ⟨id, k, hk, helem⟩ := get_eq_some.mp hget
        obtain ⟨x, hx⟩ := h _ id hk
        by_cases hid : elem = id
        · subst hid
          rw [hw] at hx
          rw [List.getElem?_set_self hlt] at helem
          cases helem
          exact .inl ⟨congrArg Prod.fst (Option.some.inj hx), rfl⟩
        · rw [List.getElem?_set_ne hid] at helem
          refine .inr ⟨fun hsame => hid ?_, get_eq_some.mpr ⟨id, k, hk, helem⟩⟩
          rw [hsame, hk] at hkey
          exact (Option.some.inj hkey).symm
  | none =>
      generalize hadded : ({ lru with
        elements := lru.elements ++ [(buildKey q e, v)]
        members := lru.elements.length :: lru.members
        cache := Dict.set (buildKey q e) lru.elements.length lru.cache } : Shared E) = added
      rw [put_of_none hkey hadded.symm]
      have hheld : added.Held := by
        subst hadded
        intro k id hk
        rw [Dict.lookup_set] at hk
        split at hk
        case isTrue hkk =>
          cases hk
          exact ⟨v, by rw [hkk]; exact List.getElem?_concat_length⟩
        case isFalse =>
          obtain ⟨x, hx⟩ := h k id hk
          exact ⟨x, by rw [List.getElem?_append_left (List.getElem?_eq_some_iff.mp hx).1, hx]⟩
      have hstored : ∀ q' e' u, added.get q' e' = some u →
          (buildKey q e = buildKey q' e' ∧ v = u) ∨
            (buildKey q e ≠ buildKey q' e' ∧ lru.get q' e' = some u) := by
        subst hadded
        intro q' e' u hget
        obtain ⟨id, k, hk, helem⟩ := get_eq_some.mp hget
        rw [Dict.lookup_set] at hk
        split at hk
        case isTrue hkk =>
          cases hk
          rw [List.getElem?_concat_length] at helem
          cases helem
          exact .inl ⟨hkk.symm, rfl⟩
        case isFalse hkk =>
          obtain ⟨_, hx⟩ := h _ id hk
          rw [List.getElem?_append_left (List.getElem?_eq_some_iff.mp hx).1] at helem
          exact .inr ⟨fun hsame => hkk hsame.symm, get_eq_some.mpr ⟨id, k, hk, helem⟩⟩
      split
      · refine ⟨held_evictOldest hheld, fun q' e' u hget => ?_⟩
        exact hstored q' e' u (get_of_evictOldest hget)
      · exact ⟨hheld, hstored⟩

end shared

end Shared

/-- The cache is one of those that calls which overlap may lead to. -/
structure Covers (s : Shared E) (lru : EmbeddingLRU E) : Prop where
  capacity : s.capacity = lru.capacity
  cache : s.cache = lru.cache
  count : s.elements.length = lru.nextId
  elements : ∀ x ∈ lru.list, s.elements[x.id]? = some (x.key, x.value)
  members : s.members.Perm (lru.list.map (·.id))

section covers
variable {s : Shared E}

theorem covers_new (capacity : ℤ) : Covers (E := E) (.new capacity) (newEmbeddingLRU capacity) :=
  ⟨rfl, rfl, rfl, fun _ hx => (nomatch hx), .nil⟩

/-- An element and the others. -/
theorem perm_cons_filter (hl : (l.map (·.key)).Nodup) (hx : x ∈ l) :
    l.Perm (x :: l.filter (·.key ≠ x.key)) := by
  induction l with
  | nil => cases hx
  | cons y l ih =>
      rw [List.map_cons, List.nodup_cons] at hl
      rcases List.mem_cons.mp hx with rfl | hx
      · rw [List.filter_cons_of_neg (by simp), List.filter_eq_self.mpr]
        intro y hy
        have hne : y.key ≠ x.key := fun heq => hl.1 (heq ▸ List.mem_map_of_mem hy)
        simpa using hne
      · have hne : y.key ≠ x.key := fun heq => hl.1 (heq ▸ List.mem_map_of_mem hx)
        rw [List.filter_cons_of_pos (by simpa using hne)]
        exact ((ih hl.2 hx).cons y).trans (.swap x y _)

/-- A call of `Get` finds the same and changes the links only. -/
theorem covers_get (hc : lru.Consistent) (h : Covers s lru) (q e : Str) :
    s.get q e = (lru.get q e).1 ∧ Covers s (lru.get q e).2 := by
  cases hk : lru.cache.lookup (buildKey q e) with
  | none =>
      rw [get_of_none hk, Shared.get, h.cache, hk]
      exact ⟨rfl, h⟩
  | some id =>
      obtain ⟨x, hx, hkey, rfl, -⟩ := hc.lookup_some hk
      rw [get_of_some hk, Shared.get, h.cache, hk, elementOf_of_mem hc.nodup_ids hx]
      refine ⟨by rw [Option.bind_some, h.elements x hx]; rfl,
        h.capacity, h.cache, h.count, fun y hy => ?_, ?_⟩
      · refine h.elements y ?_
        rw [hc.moveToFront_eq hx] at hy
        rcases List.mem_cons.mp hy with rfl | hy
        · exact hx
        · exact (List.mem_filter.mp hy).1
      · refine h.members.trans (List.Perm.map _ ?_)
        show lru.list.Perm (moveToFront x.id lru.list)
        rw [hc.moveToFront_eq hx]
        exact perm_cons_filter hc.nodup_keys hx

/-- The element at the end of the list is one that `Back` may be. -/
theorem covers_evictOldest (hc : lru.Consistent) (h : Covers s lru) :
    ∃ back, Covers (s.evictOldest back) lru.evictOldest := by
  rcases List.eq_nil_or_concat lru.list with hnil | ⟨l, x, hlast⟩
  · refine ⟨s.elements.length, ?_⟩
    unfold Shared.evictOldest EmbeddingLRU.evictOldest
    rw [hnil, List.getElem?_eq_none (Nat.le_refl _)]
    exact h
  · rw [List.concat_eq_append] at hlast
    have hx : x ∈ lru.list := by rw [hlast]; exact List.mem_concat_self
    refine ⟨x.id, ?_⟩
    rw [EmbeddingLRU.Consistent.evictOldest_eq hc.nodup_ids hlast]
    unfold Shared.evictOldest
    rw [h.elements x hx]
    refine ⟨h.capacity, by rw [← h.cache], h.count, fun y hy => h.elements y ?_, ?_⟩
    · rw [hlast]
      exact List.mem_append_left _ hy
    · have hmembers := h.members
      rw [hlast, List.map_append] at hmembers
      have herase := (hmembers.trans List.perm_append_comm).erase x.id
      rwa [List.map_singleton, List.singleton_append, List.erase_cons_head] at herase

/-- A call of `Put` that does not overlap is one of those of the shared cache. -/
theorem covers_put (hc : lru.Consistent) (h : Covers s lru) (q e : Str) (v : E) :
    ∃ back, Covers (s.put q e v back) (lru.put q e v) := by
  cases hk : lru.cache.lookup (buildKey q e) with
  | some id =>
      obtain ⟨x, hx, hkey, rfl, -⟩ := hc.lookup_some hk
      refine ⟨0, ?_⟩
      rw [Shared.put_of_some (h.cache ▸ hk), put_of_some hk, hc.put_front hx]
      refine ⟨h.capacity, h.cache, (List.length_set).trans h.count, fun y hy => ?_, ?_⟩
      · have hlt := (List.getElem?_eq_some_iff.mp (h.elements x hx)).1
        rcases List.mem_cons.mp hy with rfl | hy
        · exact (List.getElem?_set_self hlt).trans (by rw [hkey])
        · rw [← hc.removeElement_eq hx] at hy
          obtain ⟨hmem, hne⟩ := List.mem_filter.mp hy
          rw [List.getElem?_set_ne (Ne.symm (of_decide_eq_true hne)), h.elements y hmem]
      · exact h.members.trans ((perm_cons_filter hc.nodup_keys hx).map _)
  | none =>
      obtain ⟨-, hne⟩ := hc.lookup_none hk
      have hadded := hc.pushFront hne v
      generalize hlong : ({ lru with
        list := ⟨lru.nextId, buildKey q e, v⟩ :: lru.list
        cache := Dict.set (buildKey q e) lru.nextId lru.cache
        nextId := lru.nextId + 1 } : EmbeddingLRU E) = added at hadded
      generalize hshared : ({ s with
        elements := s.elements ++ [(buildKey q e, v)]
        members := s.elements.length :: s.members
        cache := Dict.set (buildKey q e) s.elements.length s.cache } : Shared E) = added'
      have hcovers : Covers added' added := by
        subst hlong hshared
        refine ⟨h.capacity, by rw [h.cache, h.count], ?_, fun y hy => ?_, ?_⟩
        · rw [List.length_append, h.count]
          rfl
        · rcases List.mem_cons.mp hy with rfl | hy
          · rw [← h.count]
            exact List.getElem?_concat_length
          · have hlt := (List.getElem?_eq_some_iff.mp (h.elements y hy)).1
            rw [List.getElem?_append_left hlt, h.elements y hy]
        · rw [List.map_cons, h.count]
          exact h.members.cons _
      have hlen : added'.members.length = added.len :=
        hcovers.members.length_eq.trans (List.length_map _)
      rw [put_of_none hk hlong.symm]
      simp only [Shared.put_of_none (h.cache ▸ hk) hshared.symm, hlen, h.capacity]
      split
      · exact covers_evictOldest hadded hcovers
      · exact ⟨0, hcovers⟩

end covers

/-! ### Retrieval -/

/-- What happens to the requests for vectors. -/
inductive Event (E : Type) where
  /-- A request asks the cache; without an answer it calls the model. -/
  | ask (question embdID : Str) (cached : Option E)
  /-- `EncodeQuery` has returned, and the request stores the vector. -/
  | encoded (question embdID : Str) (questionVector : E)
  | failed (question embdID : Str)

/-- The cache and the requests that wait for the model. -/
structure Retrieval (E : Type) where
  embeddingCache : Shared E
  waiting : List (Str × Str)

/-- Requests in any order.  A call of `Get` reads the map and the entry while nobody writes. -/
inductive Retrieval.Step : Retrieval E → Event E → Retrieval E → Prop
  | hit {s : Retrieval E} {q e : Str} {v : E} (h : s.embeddingCache.get q e = some v) :
      Step s (.ask q e (some v)) s
  | miss {s : Retrieval E} {q e : Str} (h : s.embeddingCache.get q e = none) :
      Step s (.ask q e none) { s with waiting := (q, e) :: s.waiting }
  | encoded {s : Retrieval E} {q e : Str} (v : E) (back : ℕ) (h : (q, e) ∈ s.waiting) :
      Step s (.encoded q e v) ⟨s.embeddingCache.put q e v back, s.waiting.erase (q, e)⟩
  | failed {s : Retrieval E} {q e : Str} (h : (q, e) ∈ s.waiting) :
      Step s (.failed q e) { s with waiting := s.waiting.erase (q, e) }

/-- The identifier of the embedding model in the event. -/
def Event.embdID : Event E → Str
  | .ask _ e _ => e
  | .encoded _ e _ => e
  | .failed _ e => e

/-- The last vector that was stored for the pair. -/
def LastEncoded (q e : Str) (v : E) (events : List (Event E)) : Prop :=
  ∃ before after, events = before ++ .encoded q e v :: after ∧ ∀ u, .encoded q e u ∉ after

open Transition

theorem LastEncoded.append {q e : Str} {v : E} {events : List (Event E)}
    (h : LastEncoded q e v events) {event : Event E} (hne : ∀ u, event ≠ .encoded q e u) :
    LastEncoded q e v (events ++ [event]) := by
  obtain ⟨before, after, rfl, hlast⟩ := h
  refine ⟨before, after ++ [event], by rw [List.append_assoc, List.cons_append], fun u hu => ?_⟩
  rcases List.mem_append.mp hu with hu | hu
  · exact hlast u hu
  · exact hne u (List.mem_singleton.mp hu).symm

/-- One step: the map leads to elements with its keys, and what the cache holds is what it held or
what was stored. -/
theorem Retrieval.Step.held {s s' : Retrieval E} {event : Event E} (hstep : s.Step event s')
    (h : s.embeddingCache.Held) :
    s'.embeddingCache.Held ∧ ∀ q e v, s'.embeddingCache.get q e = some v →
      (∃ q' e', event = .encoded q' e' v ∧ buildKey q' e' = buildKey q e) ∨
        ((∀ u, event ≠ .encoded q e u) ∧ s.embeddingCache.get q e = some v) := by
  cases hstep with
  | hit _ => exact ⟨h, fun q e v hget => .inr ⟨nofun, hget⟩⟩
  | miss _ => exact ⟨h, fun q e v hget => .inr ⟨nofun, hget⟩⟩
  | failed _ => exact ⟨h, fun q e v hget => .inr ⟨nofun, hget⟩⟩
  | @encoded q' e' v' back _ =>
      obtain ⟨hheld, hstored⟩ := Shared.put_spec h q' e' v' back
      refine ⟨hheld, fun q e v hget => ?_⟩
      rcases hstored q e v hget with ⟨hkey, rfl⟩ | ⟨hne, hget⟩
      · exact .inl ⟨q', e', rfl, hkey⟩
      · refine .inr ⟨?_, hget⟩
        rintro u ⟨⟩
        exact hne rfl

/-- In a run over plain identifiers the cache holds for a pair the vector that was stored last. -/
theorem lastEncoded_of_get (capacity : ℤ) (run : List (Event E × Retrieval E))
    (hrun : IsRun Retrieval.Step ⟨.new capacity, []⟩ run)
    (hplain : ∀ x ∈ run, Plain x.1.embdID) :
    (last ⟨.new capacity, []⟩ run).embeddingCache.Held ∧
      ∀ q e v, Plain e → (last ⟨.new capacity, []⟩ run).embeddingCache.get q e = some v →
        LastEncoded q e v (run.map Prod.fst) := by
  induction run using List.reverseRecOn with
  | nil => exact ⟨fun _ _ hk => (nomatch hk), fun _ _ _ _ hget => (nomatch hget)⟩
  | append_singleton run x ih =>
      obtain ⟨event, s'⟩ := x
      obtain ⟨hrun, hstep, -⟩ := (isRun_append _ _ _).mp hrun
      obtain ⟨hheld, hlast⟩ := ih hrun fun x hx => hplain x (List.mem_append_left _ hx)
      obtain ⟨hheld', hval⟩ := hstep.held hheld
      rw [last_concat, List.map_append]
      refine ⟨hheld', fun q e v he hget => ?_⟩
      rcases hval q e v hget with ⟨q', e', rfl, hkey⟩ | ⟨hne, hget⟩
      · have he' : Plain e' := hplain _ (List.mem_append_right _ (List.mem_singleton.mpr rfl))
        obtain ⟨rfl, rfl⟩ := buildKey_inj he' he hkey
        exact ⟨run.map Prod.fst, [], rfl, fun u hu => nomatch hu⟩
      · exact (hlast q e v he hget).append hne

/-- A request that is served from the cache gets the vector that was stored last for its own
question and model. -/
theorem served_was_encoded (capacity : ℤ) (before after : List (Event E × Retrieval E))
    (q e : Str) (v : E) (s : Retrieval E)
    (hrun : IsRun Retrieval.Step ⟨.new capacity, []⟩
      (before ++ (.ask q e (some v), s) :: after))
    (hplain : ∀ x ∈ before ++ (.ask q e (some v), s) :: after, Plain x.1.embdID) :
    LastEncoded q e v (before.map Prod.fst) := by
  obtain ⟨hrun, hstep, -⟩ := (isRun_append _ _ _).mp hrun
  have hheld := (lastEncoded_of_get capacity before hrun fun x hx =>
    hplain x (List.mem_append_left _ hx)).2
  have he : Plain e := hplain _ (List.mem_append_right _ List.mem_cons_self)
  cases hstep with
  | hit hget => exact hheld q e v he hget

/-- A question is asked, encoded, stored and asked again. -/
theorem served_was_encoded_twice :
    LastEncoded ['q'] ['m'] 7 [Event.ask ['q'] ['m'] none, .encoded ['q'] ['m'] 7] := by
  have hplain : Plain ['m'] := ⟨by decide, by decide⟩
  let empty : Shared ℕ := .new 1000
  let stored : Shared ℕ := empty.put ['q'] ['m'] 7 0
  refine served_was_encoded 1000
    [(.ask ['q'] ['m'] none, ⟨empty, [(['q'], ['m'])]⟩), (.encoded ['q'] ['m'] 7, ⟨stored, []⟩)] []
    ['q'] ['m'] 7 ⟨stored, []⟩
    ⟨.miss rfl, .encoded 7 0 (List.mem_singleton.mpr rfl), .hit rfl, trivial⟩ fun x hx => ?_
  simp only [List.cons_append, List.nil_append, List.mem_cons, List.not_mem_nil, or_false] at hx
  rcases hx with rfl | rfl | rfl <;> exact hplain

end RagFlow.EmbeddingLru
