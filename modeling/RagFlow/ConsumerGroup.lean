import Mathlib.Data.List.Nodup
import Mathlib.Data.List.Pairwise
import RagFlow.Requeue

/-! # A consumer group of a stream

The server's side of `XREADGROUP` and `XACK`: the group has a last delivered entry, and what was
delivered and not acknowledged is pending for the consumer it was delivered to.

* **Reading.** `next` is the entry that a consumer gets that asks for new ones, `after` the first
  one that is pending for it behind a given identifier.
* **Coverage.** `Covers`: each entry is still to be delivered, is pending, or was acknowledged.
  Every command keeps it. -/

namespace RagFlow

open Requeue

/-- The identifiers that are pending increase and are not above the last delivered one. -/
structure ConsumerGroup (C P : Type) where
  stream : Stream P
  lastDelivered : StreamId
  pending : List (StreamId × C)
  sorted : (pending.map Prod.fst).Pairwise (· < ·)
  le_delivered : ∀ e ∈ pending, e.1 ≤ lastDelivered

namespace ConsumerGroup

variable {C P : Type} {g : ConsumerGroup C P} {c : C} {id min : StreamId}

theorem sorted_nil : (([] : List (StreamId × C)).map Prod.fst).Pairwise (· < ·) :=
  List.Pairwise.nil

theorem le_delivered_nil : ∀ e ∈ ([] : List (StreamId × C)), e.1 ≤ (toLex (0, 0) : StreamId) :=
  nofun

/-- The group before anything was appended. -/
def empty : ConsumerGroup C P := ⟨Stream.empty, toLex (0, 0), [], sorted_nil, le_delivered_nil⟩

def xadd (g : ConsumerGroup C P) (now : ℕ) (fields : P) : ConsumerGroup C P :=
  { g with stream := g.stream.xadd now fields }

/-- The first entry that was not delivered. -/
def next (g : ConsumerGroup C P) : Option StreamId :=
  (g.stream.entries.find? fun e => g.lastDelivered < e.1).map Prod.fst

theorem next_eq_some (h : g.next = some id) :
    g.lastDelivered < id ∧ (∃ fields, (id, fields) ∈ g.stream.entries) ∧
      ∀ e ∈ g.stream.entries, g.lastDelivered < e.1 → id ≤ e.1 := by
  unfold next at h
  obtain ⟨e, he, rfl⟩ := Option.map_eq_some_iff.mp h
  obtain ⟨hlt, before, after, heq, hbefore⟩ := List.find?_eq_some_iff_append.mp he
  have hsorted := g.stream.sorted
  rw [heq, List.map_append, List.pairwise_append, List.map_cons, List.pairwise_cons] at hsorted
  have hmem : e ∈ g.stream.entries := List.mem_of_find?_eq_some he
  refine ⟨of_decide_eq_true hlt, ⟨e.2, hmem⟩, fun x hx hgt => ?_⟩
  rw [heq] at hx
  rcases List.mem_append.mp hx with hx | hx
  · have hnot := hbefore x hx
    exact absurd hgt (by simpa using hnot)
  · rcases List.mem_cons.mp hx with rfl | hx
    · exact le_rfl
    · exact (hsorted.2.1.1 _ (List.mem_map_of_mem hx)).le

/-- `XREADGROUP` with `>`. -/
def deliver (g : ConsumerGroup C P) (c : C) (id : StreamId) (h : g.next = some id) :
    ConsumerGroup C P where
  stream := g.stream
  lastDelivered := id
  pending := g.pending ++ [(id, c)]
  sorted := by
    rw [List.map_append, List.pairwise_append]
    refine ⟨g.sorted, List.pairwise_singleton _ _, fun a ha b hb => ?_⟩
    obtain ⟨e, he, rfl⟩ := List.mem_map.mp ha
    rw [List.mem_singleton.mp hb]
    exact (g.le_delivered e he).trans_lt (next_eq_some h).1
  le_delivered e he := by
    rcases List.mem_append.mp he with he | he
    · exact (g.le_delivered e he).trans (next_eq_some h).1.le
    · rw [List.mem_singleton.mp he]

section after
variable [DecidableEq C]

/-- What is pending for the consumer behind an identifier. -/
def history (g : ConsumerGroup C P) (c : C) (min : StreamId) : List (StreamId × C) :=
  g.pending.filter fun e => e.2 = c ∧ min < e.1

/-- `XREADGROUP` with the identifier `min`: the consumer's own history. -/
def after (g : ConsumerGroup C P) (c : C) (min : StreamId) : Option StreamId :=
  (g.history c min).head?.map Prod.fst

theorem mem_history {e : StreamId × C} :
    e ∈ g.history c min ↔ e ∈ g.pending ∧ e.2 = c ∧ min < e.1 := by
  unfold history
  rw [List.mem_filter, decide_eq_true_iff]

theorem after_eq_some (h : g.after c min = some id) :
    (id, c) ∈ g.pending ∧ min < id ∧ ∀ i, (i, c) ∈ g.pending → min < i → id ≤ i := by
  unfold after at h
  obtain ⟨e, he, rfl⟩ := Option.map_eq_some_iff.mp h
  obtain ⟨rest, hrest⟩ := List.head?_eq_some_iff.mp he
  obtain ⟨hmem, hc, hmin⟩ := mem_history.mp (List.mem_of_mem_head? he)
  have hsorted : ((g.history c min).map Prod.fst).Pairwise (· < ·) :=
    g.sorted.sublist (List.filter_sublist.map _)
  refine ⟨hc ▸ hmem, hmin, fun i hi hlt => ?_⟩
  have hi' := mem_history.mpr ⟨hi, rfl, hlt⟩
  rw [hrest] at hi' hsorted
  rw [List.map_cons, List.pairwise_cons] at hsorted
  rcases List.mem_cons.mp hi' with rfl | hi'
  · exact le_rfl
  · exact (hsorted.1 _ (List.mem_map_of_mem hi')).le

theorem after_eq_none (h : g.after c min = none) {i : StreamId} (hi : (i, c) ∈ g.pending) :
    i ≤ min := by
  unfold after at h
  rw [Option.map_eq_none_iff, List.head?_eq_none_iff] at h
  by_contra hlt
  have hmem := mem_history.mpr ⟨hi, rfl, not_le.mp hlt⟩
  rw [h] at hmem
  exact List.not_mem_nil hmem

end after

/-- `XACK`. -/
def ack (g : ConsumerGroup C P) (id : StreamId) : ConsumerGroup C P where
  stream := g.stream
  lastDelivered := g.lastDelivered
  pending := g.pending.filter fun e => e.1 ≠ id
  sorted := g.sorted.sublist (List.filter_sublist.map _)
  le_delivered e he := g.le_delivered e (List.mem_filter.mp he).1

theorem mem_ack {e : StreamId × C} : e ∈ (g.ack id).pending ↔ e ∈ g.pending ∧ e.1 ≠ id := by
  show e ∈ g.pending.filter _ ↔ _
  rw [List.mem_filter, decide_eq_true_iff]

/-- What is pending is pending for one consumer. -/
theorem owner_unique {c' : C} (h : (id, c) ∈ g.pending) (h' : (id, c') ∈ g.pending) : c = c' := by
  have hnodup : (g.pending.map Prod.fst).Nodup := g.sorted.imp ne_of_lt
  exact congrArg Prod.snd (List.inj_on_of_nodup_map hnodup h h' rfl)

/-- Each entry is still to be delivered, is pending, or was acknowledged. -/
def Covers (g : ConsumerGroup C P) (acked : StreamId → Prop) : Prop :=
  ∀ e ∈ g.stream.entries, g.lastDelivered < e.1 ∨ (∃ c, (e.1, c) ∈ g.pending) ∨ acked e.1

variable {acked acked' : StreamId → Prop}

theorem Covers.xadd (h : g.Covers acked) (hle : g.lastDelivered ≤ g.stream.lastId) (now : ℕ)
    (fields : P) : (g.xadd now fields).Covers acked := by
  intro e he
  rcases List.mem_append.mp he with he | he
  · exact h e he
  · rw [List.mem_singleton.mp he]
    exact Or.inl (hle.trans_lt (lt_nextId now _))

theorem Covers.deliver (h : g.Covers acked) (hid : g.next = some id) :
    (g.deliver c id hid).Covers acked := by
  intro e he
  rcases h e he with hlt | ⟨c', hc'⟩ | hack
  · rcases lt_or_eq_of_le ((next_eq_some hid).2.2 e he hlt) with hgt | heq
    · exact Or.inl hgt
    · exact Or.inr (Or.inl ⟨c, List.mem_append_right _ (List.mem_singleton.mpr (by rw [← heq]))⟩)
  · exact Or.inr (Or.inl ⟨c', List.mem_append_left _ hc'⟩)
  · exact Or.inr (Or.inr hack)

theorem Covers.ack (h : g.Covers acked) (hid : acked' id) (hmono : ∀ i, acked i → acked' i) :
    (g.ack id).Covers acked' := by
  intro e he
  rcases h e he with hlt | ⟨c', hc'⟩ | hack
  · exact Or.inl hlt
  · by_cases heq : e.1 = id
    · exact Or.inr (Or.inr (heq ▸ hid))
    · exact Or.inr (Or.inl ⟨c', mem_ack.mpr ⟨hc', heq⟩⟩)
  · exact Or.inr (Or.inr (hmono _ hack))

end ConsumerGroup

end RagFlow
