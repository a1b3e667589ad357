import Mathlib.Data.List.Nodup
import Mathlib.Data.List.Perm.Basic
import Mathlib.Tactic.SplitIfs

/-! # Dictionaries

A dictionary is the list of its entries in the order of insertion, read by `List.lookup`.

* **Operations.** `set` overwrites an entry in its place or adds one at the end, `erase` removes a
  key, `update` sets the entries of a list one after another.
* **Rules.** One lemma says what each operation does at a key (`lookup_set`, `lookup_erase`,
  `lookup_update`), one that the keys stay distinct.  The entries of a dictionary are what is read
  from it (`lookup_of_mem`, `mem_of_lookup`).
* **Batches.** The entries of a sequence of batches: the last value of a key, which is what a
  dictionary holds after all of them, and the values of the first batch that has the key. -/

namespace RagFlow.Dict

variable {κ β : Type}

section operations
variable [DecidableEq κ]

/-- `d[k] = v`. -/
def set (k : κ) (v : β) : List (κ × β) → List (κ × β)
  | [] => [(k, v)]
  | e :: d => if e.1 = k then (k, v) :: d else e :: set k v d

/-- The dictionary without the key. -/
def erase (k : κ) (d : List (κ × β)) : List (κ × β) := d.filter (·.1 ≠ k)

/-- The entries of a list are set one after another. -/
def update (d es : List (κ × β)) : List (κ × β) := es.foldl (fun d e => set e.1 e.2 d) d

theorem keys_set (k : κ) (v : β) (d : List (κ × β)) :
    (set k v d).map Prod.fst =
      if k ∈ d.map Prod.fst then d.map Prod.fst else d.map Prod.fst ++ [k] := by
  induction d with
  | nil => rfl
  | cons e d ih =>
      unfold set
      by_cases he : e.1 = k
      · rw [if_pos he, if_pos (by rw [← he]; exact List.mem_cons_self), List.map_cons,
          List.map_cons, he]
      · rw [if_neg he, List.map_cons, ih, List.map_cons]
        by_cases hk : k ∈ d.map Prod.fst
        · rw [if_pos hk, if_pos (List.mem_cons_of_mem _ hk)]
        · have hcons : k ∉ e.1 :: d.map Prod.fst := by
            rw [List.mem_cons, not_or]
            exact ⟨fun h => he h.symm, hk⟩
          rw [if_neg hk, if_neg hcons, List.cons_append]

theorem set_cons (k : κ) (v : β) (e : κ × β) (d : List (κ × β)) :
    set k v (e :: d) = if e.1 = k then (k, v) :: d else e :: set k v d := rfl

/-- The second of two values of a key counts. -/
theorem set_set (k : κ) (v w : β) (d : List (κ × β)) : set k v (set k w d) = set k v d := by
  induction d with
  | nil => simp [set]
  | cons e d ih =>
      by_cases he : e.1 = k
      · rw [set_cons, set_cons, if_pos he, if_pos he, set_cons, if_pos rfl]
      · rw [set_cons, set_cons, if_neg he, if_neg he, set_cons, if_neg he, ih]

/-- A key that is there can be set before or after another one. -/
theorem set_comm {k k' : κ} (hne : k ≠ k') (v w : β) {d : List (κ × β)}
    (hk : k ∈ d.map Prod.fst) : set k v (set k' w d) = set k' w (set k v d) := by
  induction d with
  | nil => cases hk
  | cons e d ih =>
      rw [set_cons k', set_cons k]
      by_cases he : e.1 = k
      · have hek : e.1 ≠ k' := by rwa [he]
        rw [if_neg hek, if_pos he, set_cons, if_pos he, set_cons, if_neg hne]
      · have hmem : k ∈ d.map Prod.fst := by
          rcases List.mem_cons.mp hk with h | h
          · exact absurd h.symm he
          · exact h
        by_cases hek : e.1 = k'
        · rw [if_pos hek, if_neg he, set_cons, if_neg (Ne.symm hne), set_cons, if_pos hek]
        · rw [if_neg hek, if_neg he, set_cons, if_neg he, set_cons, if_neg hek, ih hmem]

theorem nodup_set {k : κ} {v : β} {d : List (κ × β)} (hd : (d.map Prod.fst).Nodup) :
    ((set k v d).map Prod.fst).Nodup := by
  rw [keys_set]
  split_ifs with hk
  · exact hd
  · refine List.nodup_append.mpr ⟨hd, List.nodup_singleton k, ?_⟩
    intro a ha b hb hab
    rw [List.mem_singleton.mp hb] at hab
    exact hk (hab ▸ ha)

theorem mem_of_mem_set {k : κ} {v : β} {d : List (κ × β)} {e : κ × β} (h : e ∈ set k v d) :
    e = (k, v) ∨ e ∈ d := by
  induction d with
  | nil => exact Or.inl (List.mem_singleton.mp h)
  | cons x d ih =>
      unfold set at h
      split_ifs at h
      · exact (List.mem_cons.mp h).imp_right (List.mem_cons_of_mem _)
      · rcases List.mem_cons.mp h with rfl | h
        · exact Or.inr List.mem_cons_self
        · exact (ih h).imp_right (List.mem_cons_of_mem _)

theorem nodup_erase {k : κ} {d : List (κ × β)} (hd : (d.map Prod.fst).Nodup) :
    ((erase k d).map Prod.fst).Nodup :=
  List.Nodup.sublist (List.filter_sublist.map Prod.fst) hd

end operations

/-! ### Reading -/

section reading
variable [BEq κ] [LawfulBEq κ]

theorem lookup_cons_of_ne {k : κ} {e : κ × β} (h : k ≠ e.1) (d : List (κ × β)) :
    (e :: d).lookup k = d.lookup k := by
  rw [List.lookup_cons, beq_eq_false_iff_ne.mpr h]

theorem lookup_of_mem {e : κ × β} {d : List (κ × β)} (hd : (d.map Prod.fst).Nodup) (h : e ∈ d) :
    d.lookup e.1 = some e.2 := by
  induction d with
  | nil => cases h
  | cons x d ih =>
      rw [List.map_cons, List.nodup_cons] at hd
      rcases List.mem_cons.mp h with rfl | h
      · exact List.lookup_cons_self
      · have hne : e.1 ≠ x.1 := by
          intro heq
          exact hd.1 (List.mem_map.mpr ⟨e, h, heq⟩)
        rw [lookup_cons_of_ne hne]
        exact ih hd.2 h

theorem mem_of_lookup {k : κ} {v : β} {d : List (κ × β)} (h : d.lookup k = some v) :
    (k, v) ∈ d := by
  induction d with
  | nil => cases h
  | cons e d ih =>
      by_cases hk : k = e.1
      · subst hk
        rw [List.lookup_cons_self] at h
        cases h
        exact List.mem_cons_self
      · rw [lookup_cons_of_ne hk] at h
        exact List.mem_cons_of_mem _ (ih h)

theorem lookup_eq_none_iff {k : κ} {d : List (κ × β)} :
    d.lookup k = none ↔ k ∉ d.map Prod.fst := by
  induction d with
  | nil => simp
  | cons e d ih =>
      rw [List.map_cons, List.mem_cons, not_or, ← ih]
      by_cases hk : k = e.1
      · subst hk
        rw [List.lookup_cons_self]
        simp
      · rw [lookup_cons_of_ne hk]
        exact ⟨fun h => ⟨hk, h⟩, fun h => h.2⟩

/-- With distinct keys the order does not matter. -/
theorem lookup_perm {d d' : List (κ × β)} (hd : (d.map Prod.fst).Nodup) (h : d.Perm d') (k : κ) :
    d'.lookup k = d.lookup k := by
  have hd' : (d'.map Prod.fst).Nodup := (h.map Prod.fst).nodup_iff.mp hd
  cases hk : d.lookup k with
  | none =>
      rw [lookup_eq_none_iff] at hk ⊢
      rwa [← (h.map Prod.fst).mem_iff]
  | some v => exact lookup_of_mem hd' (h.mem_iff.mp (mem_of_lookup hk))

/-- Reading under renamed keys, of which no other is mapped to that of `k`. -/
theorem lookup_map {κ' : Type} [BEq κ'] [LawfulBEq κ'] {f : κ → κ'} {k : κ} {d : List (κ × β)}
    (hf : ∀ e ∈ d, f e.1 = f k → e.1 = k) :
    (d.map (fun e => (f e.1, e.2))).lookup (f k) = d.lookup k := by
  induction d with
  | nil => rfl
  | cons e d ih =>
      obtain ⟨he, hd⟩ := List.forall_mem_cons.mp hf
      rw [List.map_cons]
      by_cases hk : k = e.1
      · subst hk
        rw [List.lookup_cons_self, List.lookup_cons_self]
      · rw [lookup_cons_of_ne hk, lookup_cons_of_ne (fun h => hk (he h.symm).symm), ih hd]

theorem lookup_filter (p : κ → Bool) (k : κ) (d : List (κ × β)) :
    (d.filter (fun e => p e.1)).lookup k = if p k then d.lookup k else none := by
  induction d with
  | nil => simp
  | cons e d ih =>
      by_cases hk : k = e.1
      · subst hk
        cases hp : p e.1 with
        | true =>
            rw [List.filter_cons, if_pos hp, List.lookup_cons_self, List.lookup_cons_self,
              if_pos rfl]
        | false =>
            rw [List.filter_cons, hp, if_neg Bool.false_ne_true, ih, hp,
              if_neg Bool.false_ne_true, if_neg Bool.false_ne_true]
      · rw [lookup_cons_of_ne hk, ← ih, List.filter_cons]
        split_ifs
        · rw [lookup_cons_of_ne hk]
        · rfl

end reading

/-! ### Writing -/

section writing
variable [DecidableEq κ] [BEq κ] [LawfulBEq κ]

theorem lookup_set (k k' : κ) (v : β) (d : List (κ × β)) :
    (set k v d).lookup k' = if k' = k then some v else d.lookup k' := by
  induction d with
  | nil =>
      unfold set
      split_ifs with h
      · rw [h, List.lookup_cons_self]
      · rw [lookup_cons_of_ne h]
  | cons e d ih =>
      unfold set
      by_cases he : e.1 = k
      · rw [if_pos he]
        split_ifs with h
        · rw [h, List.lookup_cons_self]
        · rw [lookup_cons_of_ne h, lookup_cons_of_ne (he ▸ h)]
      · rw [if_neg he]
        by_cases h : k' = e.1
        · subst h
          rw [List.lookup_cons_self, List.lookup_cons_self, if_neg he]
        · rw [lookup_cons_of_ne h, lookup_cons_of_ne h, ih]

theorem lookup_erase (k k' : κ) (d : List (κ × β)) :
    (erase k d).lookup k' = if k' = k then none else d.lookup k' := by
  unfold erase
  rw [lookup_filter (fun a => decide (a ≠ k))]
  by_cases h : k' = k
  · rw [if_pos h, if_neg (by simpa using h)]
  · rw [if_neg h, if_pos (by simpa using h)]

/-- After an update a key has the last of its new values. -/
theorem lookup_update (d es : List (κ × β)) (k : κ) :
    (update d es).lookup k = (es.reverse.lookup k).or (d.lookup k) := by
  unfold update
  induction es generalizing d with
  | nil => rfl
  | cons e es ih =>
      rw [List.foldl_cons, ih, lookup_set, List.reverse_cons, List.lookup_append, Option.or_assoc]
      congr 1
      split_ifs with h
      · rw [h, List.lookup_cons_self, Option.some_or]
      · rw [lookup_cons_of_ne h, List.lookup_nil, Option.none_or]

end writing

/-! ### Batches -/

section batches
variable [DecidableEq κ] [BEq κ] [LawfulBEq κ]

/-- The value that the key is given last. -/
def lastValue (batches : List (List (κ × β))) (k : κ) : Option β :=
  batches.flatten.reverse.lookup k

/-- The values of the key in the first batch that has it. -/
def firstValues (batches : List (List (κ × β))) (k : κ) : List β :=
  (((batches.find? (fun b => b.any (·.1 = k))).getD []).filter (·.1 = k)).map Prod.snd

/-- Every key of the batches has a value of the first batch that has it. -/
def KeepsFirst (batches : List (List (κ × β))) (read : κ → Option β) : Prop :=
  ∀ e ∈ batches.flatten, ∃ v ∈ firstValues batches e.1, read e.1 = some v

/-- Each key is given a value of the first batch that has it when it is given one for the last
time. -/
def RepeatsFirst (batches : List (List (κ × β))) : Prop :=
  ∀ e ∈ batches.flatten, ∀ v, lastValue batches e.1 = some v → v ∈ firstValues batches e.1

omit [DecidableEq κ] in
theorem lastValue_isSome {batches : List (List (κ × β))} {e : κ × β} (h : e ∈ batches.flatten) :
    ∃ v, lastValue batches e.1 = some v := by
  apply Option.ne_none_iff_exists'.mp
  intro hnone
  refine lookup_eq_none_iff.mp hnone ?_
  exact List.mem_map_of_mem (List.mem_reverse.mpr h)

/-- The last values are values of the first batches only if they are given again. -/
theorem keepsFirst_iff {batches : List (List (κ × β))} {read : κ → Option β}
    (hread : ∀ e ∈ batches.flatten, read e.1 = lastValue batches e.1) :
    KeepsFirst batches read ↔ RepeatsFirst batches := by
  constructor
  · intro h e he v hv
    obtain ⟨v', hv', heq⟩ := h e he
    rw [hread e he, hv] at heq
    cases heq
    exact hv'
  · intro h e he
    obtain ⟨v, hv⟩ := lastValue_isSome he
    exact ⟨v, h e he v hv, (hread e he).trans hv⟩

end batches

end RagFlow.Dict
