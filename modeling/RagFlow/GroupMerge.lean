import RagFlow.GraphIndex

/-! # Merging one group of nodes

`_merge_graph_nodes` run by itself: no other task changes the graph while it waits for a summary.

* **Runs.** `Gives x p s Q`: with the choices `x` of the surroundings the program `p` returns from
  `s`, and `Q` holds then.  `Calm` surroundings do not cancel the task and deliver every summary.
* **Graph.** The nodes of the group but the first are removed (`Merged`).  What becomes of the edge
  from the first node to a node `x` outside is told by `Joined`, one member of the group after the
  other: if there was an edge before, the members' edges to `x` are added to it, otherwise each
  replaces the one before.
* **Record.** `Recorded`: what the record of changes gains.

`quotient_iff` says when the result is the quotient graph, and `record_complete_iff` when the record
of changes is complete. -/

namespace RagFlow.Resolution

open Py Effect Graphrag

/-! ### Running alone -/

section alone

/-- The choices of the surroundings, one for each command. -/
def alone (x : ℕ → Choice) (c : Cmd) (s : Shared × ℕ) : Except Err c.Ret × (Shared × ℕ) :=
  match serve (x s.2) c s.1 with
  | some (r, s') => (r, (s', s.2 + 1))
  | none => (.error .failure, s)

/-- The task is not cancelled, and gets all summaries. -/
def Calm (x : ℕ → Choice) : Prop := ∀ k, (x k).canceled = false ∧ ∃ t, (x k).summary = .ok t

/-- The program returns, and `Q` holds then. -/
def Gives {α : Type} (x : ℕ → Choice) (p : ResolutionProg α) (s : Shared)
    (Q : α → Shared → Prop) : Prop :=
  ∀ k, ∃ a s' k', Prog.exec (alone x) p (s, k) = (.ok a, (s', k')) ∧ Q a s'

variable {x : ℕ → Choice} {α β : Type} {s : Shared} {Q : α → Shared → Prop}

theorem Gives.pure {a : α} (h : Q a s) : Gives x (Pure.pure a) s Q :=
  fun k => ⟨a, s, k, rfl, h⟩

theorem Gives.bind {p : ResolutionProg α} {f : α → ResolutionProg β} {R : β → Shared → Prop}
    (hp : Gives x p s Q) (hf : ∀ a s', Q a s' → Gives x (f a) s' R) : Gives x (p >>= f) s R := by
  intro k
  obtain ⟨a, s₁, k₁, hrun, hq⟩ := hp k
  obtain ⟨b, s₂, k₂, hrun₂, hr⟩ := hf a s₁ hq k₁
  exact ⟨b, s₂, k₂, (Prog.exec_bind_ok (alone x) f hrun).trans hrun₂, hr⟩

theorem Gives.mono {p : ResolutionProg α} {R : α → Shared → Prop} (hp : Gives x p s Q)
    (h : ∀ a s', Q a s' → R a s') : Gives x p s R := by
  intro k
  obtain ⟨a, s₁, k₁, hrun, hq⟩ := hp k
  exact ⟨a, s₁, k₁, hrun, h a s₁ hq⟩

theorem Gives.perform {c : Cmd} {Q : c.Ret → Shared → Prop}
    (h : ∀ k, ∃ r s', serve (x k) c s = some (.ok r, s') ∧ Q r s') :
    Gives x (Prog.perform c) s Q := by
  intro k
  obtain ⟨r, s', hserve, hq⟩ := h k
  refine ⟨r, s', k + 1, ?_, hq⟩
  rw [Prog.exec_perform]
  unfold alone
  rw [hserve]

/-- A command whose reply does not depend on the surroundings. -/
theorem Gives.performBind {c : Cmd} {f : c.Ret → ResolutionProg β} {R : β → Shared → Prop}
    {r : c.Ret} {t : Shared} (h : ∀ y, serve y c s = some (.ok r, t)) (hf : Gives x (f r) t R) :
    Gives x (Prog.perform c >>= f) s R := by
  refine Gives.bind (Gives.perform (Q := fun a u => a = r ∧ u = t)
    fun k => ⟨r, t, h (x k), rfl, rfl⟩) ?_
  rintro a u ⟨rfl, rfl⟩
  exact hf

theorem Gives.need {a : α} (h : Q a s) : Gives x (Resolution.need (some a)) s Q := Gives.pure h

end alone

/-! ### Summaries and attributes -/

section steps

variable {x : ℕ → Choice} (hcalm : Calm x) (env : Env) {s : Shared}
include hcalm

theorem raiseIfCanceled_gives : Gives x (raiseIfCanceled env) s (fun _ s' => s' = s) := by
  unfold raiseIfCanceled
  by_cases htask : env.taskId = []
  · rw [if_pos htask]
    exact Gives.pure rfl
  · rw [if_neg htask]
    refine Gives.bind (Gives.perform (Q := fun a s' => a = false ∧ s' = s) fun k =>
      ⟨false, s, ?_, rfl, rfl⟩) ?_
    · show some (Except.ok (x k).canceled, s) = _
      rw [(hcalm k).1]
    · rintro a s' ⟨rfl, rfl⟩
      exact Gives.pure rfl

/-- A summary changes nothing. -/
theorem summary_gives (name description : Str) :
    Gives x (handleEntityRelationSummary env name description) s (fun _ s' => s' = s) := by
  unfold handleEntityRelationSummary
  refine Gives.bind (raiseIfCanceled_gives hcalm env) ?_
  rintro _ _ rfl
  dsimp only
  by_cases hshort : (splitSep graphFieldSep (env.truncate description)).length ≤ 12
  · rw [if_pos hshort]
    exact Gives.pure rfl
  · rw [if_neg hshort]
    refine Gives.bind (raiseIfCanceled_gives hcalm env) ?_
    rintro _ _ rfl
    refine Gives.performBind (fun _ => rfl) (Gives.perform fun k => ?_)
    obtain ⟨t, ht⟩ := (hcalm k).2
    exact ⟨t, _, by show some ((x k).summary, _) = _; rw [ht], rfl⟩

end steps

/-- The edge has all entries that are read. -/
def FullEdge (b : EdgeAttr) : Prop := b.weight.isSome ∧ b.Complete

/-- The attributes of two edges together, but for the description. -/
def mergedAttrs (edge0 edge1 : EdgeAttr) (description : Str) : EdgeAttr :=
  { edge0 with
    weight := some (edge0.weight.getD 0 + edge1.weight.getD 0)
    description := some description
    keywords := some (sortedSet (edge0.keywords.getD [] ++ edge1.keywords.getD []))
    sourceId := some (sortedSet (edge0.sourceId.getD [] ++ edge1.sourceId.getD [])) }

/-- The entries of an edge replace themselves. -/
theorem update_mergedAttrs (edge0 edge1 : EdgeAttr) (d description : Str) :
    (mergedAttrs edge0 edge1 d).update (mergedAttrs edge0 edge1 description) =
      mergedAttrs edge0 edge1 description := by
  have hother : updateEntries edge0.other edge0.other = edge0.other := by
    unfold updateEntries
    rw [List.filter_eq_nil_iff.mpr, List.nil_append]
    intro x hx
    simpa using ⟨x.2, hx⟩
  unfold EdgeAttr.update mergedAttrs
  simp [hother]

theorem fullEdge_mergedAttrs (edge0 edge1 : EdgeAttr) (description : Str) :
    FullEdge (mergedAttrs edge0 edge1 description) :=
  ⟨rfl, rfl, rfl, rfl⟩

theorem mergeEdgeAttrs_eq {edge0 edge1 : EdgeAttr} (h0 : FullEdge edge0) (h1 : FullEdge edge1) :
    ∃ description, mergeEdgeAttrs edge0 edge1 =
      pure (mergedAttrs edge0 edge1 description, description) := by
  obtain ⟨hw0, hd0, hk0, hs0⟩ := h0
  obtain ⟨hw1, hd1, hk1, hs1⟩ := h1
  obtain ⟨w0, hw0⟩ := Option.isSome_iff_exists.mp hw0
  obtain ⟨d0, hd0⟩ := Option.isSome_iff_exists.mp hd0
  obtain ⟨k0, hk0⟩ := Option.isSome_iff_exists.mp hk0
  obtain ⟨s0, hs0⟩ := Option.isSome_iff_exists.mp hs0
  obtain ⟨w1, hw1⟩ := Option.isSome_iff_exists.mp hw1
  obtain ⟨d1, hd1⟩ := Option.isSome_iff_exists.mp hd1
  obtain ⟨k1, hk1⟩ := Option.isSome_iff_exists.mp hk1
  obtain ⟨s1, hs1⟩ := Option.isSome_iff_exists.mp hs1
  refine ⟨joinDescriptions d0 d1, ?_⟩
  unfold mergeEdgeAttrs mergedAttrs
  rw [hw0, hd0, hk0, hs0, hw1, hd1, hk1, hs1]
  rfl

/-! ### One edge -/

/-- The edge between two nodes is set, and nothing else. -/
structure EdgeSet (s s' : Shared) (u v : Str) (b : EdgeAttr) : Prop where
  node? : ∀ n, s'.graph.node? n = s.graph.node? n
  edge? : ∀ u' v', s'.graph.edge? u' v' = if s(u', v') = s(u, v) then some b
    else s.graph.edge? u' v'
  neighbors : ∀ n, n ≠ u → n ≠ v → s'.graph.neighbors n = s.graph.neighbors n
  removedEdges : s'.change.removedEdges = s.change.removedEdges

theorem edgeSet_addEdge {s : Shared} {u v : Str} {b : EdgeAttr} (hu : s.graph.HasNode u)
    (hv : s.graph.HasNode v) : EdgeSet s { s with graph := s.graph.addEdge u v b } u v b where
  node? n := by
    show (s.graph.addEdge u v b).node? n = _
    unfold Graph.node?
    rw [Graph.nodes_addEdge hu hv]
  edge? u' v' := Graph.edge?_addEdge u' v'
  neighbors _ hu hv := Graph.neighbors_addEdge hu hv
  removedEdges := rfl

theorem EdgeSet.trans {s s' s'' : Shared} {u v : Str} {b b' : EdgeAttr} (h : EdgeSet s s' u v b)
    (h' : EdgeSet s' s'' u v b') : EdgeSet s s'' u v b' where
  node? n := (h'.node? n).trans (h.node? n)
  edge? u' v' := by
    rw [h'.edge?, h.edge?]
    split_ifs
    · rfl
    · rfl
  neighbors n hu hv := (h'.neighbors n hu hv).trans (h.neighbors n hu hv)
  removedEdges := h'.removedEdges.trans h.removedEdges

theorem EdgeSet.hasEdge {s s' : Shared} {u v : Str} {b : EdgeAttr} (h : EdgeSet s s' u v b) :
    s'.graph.edge? u v = some b := by
  rw [h.edge?, if_pos rfl]

/-- The edge to a neighbour of both nodes. -/
theorem mergeEdges_gives {x : ℕ → Choice} (hcalm : Calm x) (env : Env) {s : Shared} {n0 v : Str}
    {e e1 : EdgeAttr} (he : s.graph.edge? n0 v = some e) (hfull : FullEdge e)
    (hfull1 : FullEdge e1) :
    Gives x (mergeEdges env n0 v e1) s fun _ s' =>
      (∃ t, EdgeSet s s' n0 v (mergedAttrs e e1 t)) ∧
        s'.change.addedUpdatedEdges = s.change.addedUpdatedEdges ∪ {getFromTo n0 v} := by
  have hedge : s.graph.HasEdge n0 v := Option.isSome_iff_exists.mpr ⟨e, he⟩
  obtain ⟨hn0, hv⟩ := hedge.hasNode
  obtain ⟨d, hattrs⟩ := mergeEdgeAttrs_eq hfull hfull1
  unfold mergeEdges
  refine Gives.performBind (fun _ => rfl) ?_
  refine Gives.performBind (r := some e) (fun _ => congrArg
    (fun o => some (Except.ok o, _)) he) ?_
  dsimp only
  rw [hattrs]
  show Gives x (Prog.perform (C := Cmd) (.setEdge n0 v (mergedAttrs e e1 d)) >>= fun _ =>
    handleEntityRelationSummary env ('(' :: n0 ++ ", ".toList ++ v ++ [')']) d >>= fun summary =>
      Prog.perform (C := Cmd) (.finishEdge n0 v (mergedAttrs e e1 d) summary)) _ _
  have hset : EdgeSet s ⟨s.graph.addEdge n0 v (mergedAttrs e e1 d), s.change⟩ n0 v
      (mergedAttrs e e1 d) := edgeSet_addEdge hn0 hv
  refine Gives.performBind (fun _ => congrArg (fun t => some (Except.ok (), t)) (if_pos hedge)) ?_
  refine Gives.bind (summary_gives hcalm env _ _) ?_
  rintro t _ rfl
  refine Gives.perform fun _ => ⟨(), _, rfl, ⟨t, ?_⟩, rfl⟩
  -- It does not matter whether the dictionary is that of the edge: the entries are the same.
  have hfinished : ∀ renewed, finishedEdge renewed ⟨s.graph.addEdge n0 v (mergedAttrs e e1 d),
      GraphChange.union s.change { addedUpdatedEdges := {getFromTo n0 v} }⟩ n0 v
      (mergedAttrs e e1 d) t = mergedAttrs e e1 t := by
    intro renewed
    unfold finishedEdge
    dsimp only
    rw [hset.hasEdge]
    dsimp only
    split
    · exact update_mergedAttrs e e1 d t
    · rfl
  have hagain : EdgeSet ⟨s.graph.addEdge n0 v (mergedAttrs e e1 d), s.change⟩
      ⟨(s.graph.addEdge n0 v (mergedAttrs e e1 d)).addEdge n0 v (mergedAttrs e e1 t), s.change⟩
      n0 v (mergedAttrs e e1 t) :=
    edgeSet_addEdge (Graph.hasNode_addEdge.mpr (Or.inl hn0))
      (Graph.hasNode_addEdge.mpr (Or.inl hv))
  have hall := hset.trans hagain
  rw [hfinished]
  exact ⟨hall.node?, hall.edge?, hall.neighbors, Finset.union_empty _⟩

/-! ### The edge to one node outside -/

/-- The edge from the first node to `x`, after the members `ms` of the group with an edge to `x`. -/
inductive Joined (g : KGraph) (n0 x : Str) : List Str → Option EdgeAttr → Prop where
  | start : Joined g n0 x [] (g.edge? n0 x)
  | added {ms : List Str} {m : Str} {e e1 : EdgeAttr} (t : Str) (h : Joined g n0 x ms (some e))
      (h0 : g.HasEdge n0 x) (h1 : g.edge? m x = some e1) :
      Joined g n0 x (ms ++ [m]) (some (mergedAttrs e e1 t))
  | replaced {ms : List Str} {m : Str} {o : Option EdgeAttr} {e1 : EdgeAttr}
      (h : Joined g n0 x ms o) (h0 : ¬g.HasEdge n0 x) (h1 : g.edge? m x = some e1) :
      Joined g n0 x (ms ++ [m]) (some ((o.getD {}).update e1))

/-- The nodes of the group are different nodes of the graph, and they and their edges have the
entries that are read. -/
structure Group (g : KGraph) (nodes : List Str) : Prop where
  nodup : nodes.Nodup
  attrs : ∀ n ∈ nodes, ∃ a, g.node? n = some a ∧ a.Complete
  edges : ∀ m ∈ nodes, ∀ x b, g.edge? m x = some b → FullEdge b

theorem Joined.isSome {g : KGraph} {n0 x : Str} {ms : List Str} {o : Option EdgeAttr}
    (h : Joined g n0 x ms o) (hedge : g.HasEdge n0 x) : o.isSome = true := by
  cases h with
  | start => exact hedge
  | added t h h0 h1 => rfl
  | replaced h h0 h1 => rfl

theorem Joined.full {g : KGraph} {n0 x : Str} {ms : List Str} {o : Option EdgeAttr}
    (h : Joined g n0 x ms o) (hedges : ∀ m x b, g.edge? m x = some b → (m = n0 ∨ m ∈ ms) →
      FullEdge b) {e : EdgeAttr} (he : o = some e) : FullEdge e := by
  cases h with
  | start => exact hedges n0 x e he (Or.inl rfl)
  | added t h h0 h1 =>
      cases he
      exact fullEdge_mergedAttrs _ _ _
  | @replaced ms m o e1 h h0 h1 =>
      cases he
      obtain ⟨hw, hd, hk, hs⟩ := hedges m x e1 h1 (Or.inr (by simp))
      unfold FullEdge EdgeAttr.update EdgeAttr.Complete
      simp [hw, hd, hk, hs]

/-! ### The loop over the neighbours -/

section progress

variable (s₀ : Shared) (n0 : Str) (nodes : List Str)

/-- The state after the members `done`; `ms x` are the members whose edge to `x` has been dealt
with, and `R` holds for the edges that are to be recorded as removed by now. -/
structure Progress (done : List Str) (ms : Str → List Str) (R : Str × Str → Prop) (s : Shared) :
    Prop where
  node? : ∀ n, n ≠ n0 → s.graph.node? n = if n ∈ done then none else s₀.graph.node? n
  first : ∃ a, s.graph.node? n0 = some a ∧ a.Complete
  away : ∀ u v, u ≠ n0 → v ≠ n0 →
    s.graph.edge? u v = if u ∈ done ∨ v ∈ done then none else s₀.graph.edge? u v
  inner : ∀ v ∈ nodes, s.graph.edge? n0 v = if v ∈ done then none else s₀.graph.edge? n0 v
  outer : ∀ x, x ∉ nodes → Joined s₀.graph n0 x (ms x) (s.graph.edge? n0 x)
  members : ∀ x, x ∉ nodes → ∀ m ∈ ms x, m ∈ nodes
  removed : ∀ p, R p → p ∈ s.change.removedEdges
  added : ∀ p, p ∈ s.change.addedUpdatedEdges ↔ p ∈ s₀.change.addedUpdatedEdges ∨
    ∃ x, x ∉ nodes ∧ s₀.graph.HasEdge n0 x ∧ ms x ≠ [] ∧ p = getFromTo n0 x

variable {s₀ n0 nodes} {done : List Str} {ms : Str → List Str} {R : Str × Str → Prop} {s : Shared}

/-- `m` has been dealt with for `v`. -/
def addMember (ms : Str → List Str) (m v : Str) : Str → List Str :=
  fun x => if x = v then ms x ++ [m] else ms x

theorem addMember_self (ms : Str → List Str) (m v : Str) : addMember ms m v v = ms v ++ [m] :=
  if_pos rfl

theorem addMember_of_ne (ms : Str → List Str) (m : Str) {v x : Str} (hx : x ≠ v) :
    addMember ms m v x = ms x :=
  if_neg hx

/-- An edge of the first node is set. -/
theorem Progress.setEdge (h : Progress s₀ n0 nodes done ms R s) (h0 : n0 ∈ nodes) {s' : Shared}
    {m v : Str} {b : EdgeAttr} (hv : v ∉ nodes) (hm : m ∈ nodes) (hset : EdgeSet s s' n0 v b)
    (hjoined : Joined s₀.graph n0 v (ms v ++ [m]) (some b))
    (hadded : ∀ p, p ∈ s'.change.addedUpdatedEdges ↔ p ∈ s.change.addedUpdatedEdges ∨
      s₀.graph.HasEdge n0 v ∧ p = getFromTo n0 v) :
    Progress s₀ n0 nodes done (addMember ms m v) R s' := by
  have hother : ∀ u w, s(u, w) ≠ s(n0, v) → s'.graph.edge? u w = s.graph.edge? u w := by
    intro u w hne
    rw [hset.edge?, if_neg hne]
  refine ⟨fun n hn => (hset.node? n).trans (h.node? n hn), ?_, fun u w hu hw => ?_,
    fun w hw => ?_, fun x hx => ?_, fun x hx k hk => ?_, fun p hp => ?_, fun p => ?_⟩
  · rw [hset.node?]
    exact h.first
  · rw [hother u w, h.away u w hu hw]
    rw [Ne, Sym2.eq_iff]
    rintro (⟨rfl, -⟩ | ⟨-, rfl⟩)
    · exact hu rfl
    · exact hw rfl
  · rw [hother n0 w, h.inner w hw]
    rw [Ne, Sym2.eq_iff]
    rintro (⟨-, rfl⟩ | ⟨rfl, -⟩)
    · exact hv hw
    · exact hv h0
  · by_cases hxv : x = v
    · subst hxv
      rw [addMember_self, hset.hasEdge]
      exact hjoined
    · rw [addMember_of_ne ms m hxv, hother n0 x]
      · exact h.outer x hx
      · rw [Ne, Sym2.eq_iff]
        rintro (⟨-, rfl⟩ | ⟨rfl, -⟩)
        · exact hxv rfl
        · exact hv h0
  · by_cases hxv : x = v
    · subst hxv
      rw [addMember_self] at hk
      rcases List.mem_append.mp hk with hk | hk
      · exact h.members x hx k hk
      · rw [List.mem_singleton.mp hk]
        exact hm
    · rw [addMember_of_ne ms m hxv] at hk
      exact h.members x hx k hk
  · rw [hset.removedEdges]
    exact h.removed p hp
  · rw [hadded, h.added]
    constructor
    · rintro ((hp | ⟨x, hx, hedge, hne, rfl⟩) | ⟨hedge, rfl⟩)
      · exact Or.inl hp
      · refine Or.inr ⟨x, hx, hedge, ?_, rfl⟩
        by_cases hxv : x = v
        · subst hxv
          rw [addMember_self]
          simp
        · rwa [addMember_of_ne ms m hxv]
      · exact Or.inr ⟨v, hv, hedge, by rw [addMember_self]; simp, rfl⟩
    · rintro (hp | ⟨x, hx, hedge, hne, rfl⟩)
      · exact Or.inl (Or.inl hp)
      · by_cases hxv : x = v
        · subst hxv
          exact Or.inr ⟨hedge, rfl⟩
        · rw [addMember_of_ne ms m hxv] at hne
          exact Or.inl (Or.inr ⟨x, hx, hedge, hne, rfl⟩)

/-- More edges are recorded as removed. -/
theorem Progress.record (h : Progress s₀ n0 nodes done ms R s) (p : Str × Str) :
    Progress s₀ n0 nodes done ms (fun q => R q ∨ q = p)
      { s with change := GraphChange.union s.change { removedEdges := {p} } } := by
  refine ⟨h.node?, h.first, h.away, h.inner, h.outer, h.members, fun q hq => ?_, fun q => ?_⟩
  · show q ∈ s.change.removedEdges ∪ {p}
    rw [Finset.mem_union, Finset.mem_singleton]
    rcases hq with hq | rfl
    · exact Or.inl (h.removed q hq)
    · exact Or.inr rfl
  · show q ∈ s.change.addedUpdatedEdges ∪ ∅ ↔ _
    rw [Finset.union_empty]
    exact h.added q

/-- After one neighbour of the member `m`. -/
def afterNeighbor (nodes : List Str) (ms : Str → List Str) (m v : Str) : Str → List Str :=
  if v ∈ nodes then ms else addMember ms m v

variable {x : ℕ → Choice} (hcalm : Calm x) (env : Env) (hgroup : Group s₀.graph nodes)
include hcalm hgroup

theorem mergeNeighbor_gives (h0 : n0 ∈ nodes) (h : Progress s₀ n0 nodes done ms R s) {m v : Str}
    (hm : m ∈ nodes) (hm0 : m ≠ n0) (hmdone : m ∉ done) (hdone : ∀ d ∈ done, d ∈ nodes)
    (hv : s.graph.HasEdge m v) :
    Gives x (mergeNeighbor env nodes (s₀.graph.neighbors n0) n0 m v) s fun _ s' =>
      Progress s₀ n0 nodes done (afterNeighbor nodes ms m v) (fun q => R q ∨ q = getFromTo m v) s' ∧
        s'.graph.neighbors m = s.graph.neighbors m := by
  unfold mergeNeighbor
  refine Gives.performBind (fun _ => rfl) ?_
  have hrecord := h.record (getFromTo m v)
  unfold afterNeighbor
  by_cases hvn : v ∈ nodes
  · rw [if_pos hvn, if_pos hvn]
    exact Gives.pure ⟨hrecord, rfl⟩
  · rw [if_neg hvn, if_neg hvn]
    obtain ⟨e1, he1⟩ := Option.isSome_iff_exists.mp hv
    have hv0 : v ≠ n0 := fun heq => hvn (heq ▸ h0)
    have hvdone : v ∉ done := fun hd => hvn (hdone v hd)
    have hfirst : s₀.graph.edge? m v = some e1 := by
      rw [h.away m v hm0 hv0, if_neg (not_or.mpr ⟨hmdone, hvdone⟩)] at he1
      exact he1
    have hmv : m ≠ v := fun heq => hvn (heq ▸ hm)
    refine Gives.performBind (r := some e1) (fun _ => congrArg
      (fun o => some (Except.ok o, _)) he1) ?_
    dsimp only
    by_cases hcommon : v ∈ s₀.graph.neighbors n0
    · rw [if_pos hcommon]
      have hedge := Graph.mem_neighbors.mp hcommon
      have hjoined := h.outer v hvn
      obtain ⟨e, he⟩ := Option.isSome_iff_exists.mp (hjoined.isSome hedge)
      rw [he] at hjoined
      have hfull : FullEdge e := hjoined.full (fun k y b hb hk => hgroup.edges k (by
        rcases hk with rfl | hk
        · exact h0
        · exact h.members v hvn k hk) y b hb) rfl
      refine Gives.mono (mergeEdges_gives hcalm env he hfull (hgroup.edges m hm v e1 hfirst)) ?_
      rintro _ s' ⟨⟨t, hset⟩, hadded⟩
      refine ⟨hrecord.setEdge h0 hvn hm hset (Joined.added t hjoined hedge hfirst) fun p => ?_,
        hset.neighbors m hm0 hmv⟩
      rw [hadded, Finset.mem_union, Finset.mem_singleton]
      simp [hedge]
    · rw [if_neg hcommon]
      have hedge : ¬s₀.graph.HasEdge n0 v := fun he => hcommon (Graph.mem_neighbors.mpr he)
      obtain ⟨a, ha, -⟩ := h.first
      have hset := edgeSet_addEdge (s := ⟨s.graph, GraphChange.union s.change
        { removedEdges := {getFromTo m v} }⟩) (u := n0) (v := v)
        (b := ((s.graph.edge? n0 v).getD {}).update e1)
        (Option.isSome_iff_exists.mpr ⟨a, ha⟩) hv.hasNode.2
      refine Gives.perform fun _ => ⟨(), _, rfl, ?_, hset.neighbors m hm0 hmv⟩
      refine hrecord.setEdge h0 hvn hm hset (Joined.replaced (h.outer v hvn) hedge hfirst)
        fun p => ?_
      simp [hedge]

theorem overNeighbors_gives (h0 : n0 ∈ nodes) {m : Str} (hm : m ∈ nodes) (hm0 : m ≠ n0)
    (hmdone : m ∉ done) (hdone : ∀ d ∈ done, d ∈ nodes) (rest : List Str) :
    ∀ (visited : List Str) (ms : Str → List Str) (R : Str × Str → Prop) (s : Shared),
      Progress s₀ n0 nodes done ms R s → s.graph.neighbors m = visited ++ rest →
      Gives x (overNeighbors (mergeNeighbor env nodes (s₀.graph.neighbors n0) n0 m) m
          (visited ++ rest) visited rest.length) s fun _ s' =>
        Progress s₀ n0 nodes done (rest.foldl (fun ms v => afterNeighbor nodes ms m v) ms)
          (fun q => R q ∨ ∃ v ∈ rest, q = getFromTo m v) s' := by
  induction rest with
  | nil =>
      intro visited ms R s h hkeys
      have hnext : ∀ y : Choice, iterNext y.iter (visited ++ []) visited (s.graph.neighbors m) =
          .ok none := by
        intro y
        unfold iterNext
        rw [if_pos hkeys, List.getElem?_eq_none (by simp)]
      unfold overNeighbors
      refine Gives.performBind (r := none) (fun y => congrArg (fun o => some (o, s)) (hnext y)) ?_
      refine Gives.pure ⟨h.node?, h.first, h.away, h.inner, h.outer, h.members, ?_, h.added⟩
      rintro p (hp | ⟨v, hv, -⟩)
      · exact h.removed p hp
      · cases hv
  | cons v rest ih =>
      intro visited ms R s h hkeys
      have hnext : ∀ y : Choice, iterNext y.iter (visited ++ v :: rest) visited
          (s.graph.neighbors m) = .ok (some v) := by
        intro y
        unfold iterNext
        rw [if_pos hkeys]
        simp
      have hedge : s.graph.HasEdge m v := by
        rw [← Graph.mem_neighbors, hkeys]
        simp
      unfold overNeighbors
      refine Gives.performBind (r := some v) (fun y => congrArg (fun o => some (o, s)) (hnext y)) ?_
      dsimp only
      refine Gives.bind (mergeNeighbor_gives hcalm env hgroup h0 h hm hm0 hmdone hdone hedge) ?_
      rintro _ s₁ ⟨hs₁, hneighbors⟩
      have hsplit : visited ++ v :: rest = (visited ++ [v]) ++ rest := by simp
      rw [hsplit] at hkeys ⊢
      refine Gives.mono (ih (visited ++ [v]) _ _ s₁ hs₁ (hneighbors.trans hkeys)) ?_
      intro _ s' hs'
      refine ⟨hs'.node?, hs'.first, hs'.away, hs'.inner, hs'.outer, hs'.members, ?_, hs'.added⟩
      rintro p (hp | ⟨w, hw, rfl⟩)
      · exact hs'.removed p (Or.inl (Or.inl hp))
      · rcases List.mem_cons.mp hw with rfl | hw
        · exact hs'.removed _ (Or.inl (Or.inr rfl))
        · exact hs'.removed _ (Or.inr ⟨w, hw, rfl⟩)

omit hcalm hgroup in
theorem foldl_afterNeighbor {m y : Str} (hy : y ∉ nodes) (rest : List Str) (hrest : rest.Nodup) :
    ∀ ms : Str → List Str, rest.foldl (fun ms v => afterNeighbor nodes ms m v) ms y =
      ms y ++ if y ∈ rest then [m] else [] := by
  induction rest with
  | nil => simp
  | cons v rest ih =>
      intro ms
      obtain ⟨hv, hrest⟩ := List.nodup_cons.mp hrest
      rw [List.foldl_cons, ih hrest]
      unfold afterNeighbor
      by_cases hvy : y = v
      · subst hvy
        rw [if_neg hy, addMember_self, if_neg hv, if_pos List.mem_cons_self, List.append_nil]
      · have hmem : y ∈ v :: rest ↔ y ∈ rest := by simp [hvy]
        simp only [hmem]
        split_ifs
        · rfl
        · rfl
        · rw [addMember_of_ne ms m hvy]
        · rw [addMember_of_ne ms m hvy]

/-! ### The loop over the members -/

omit hcalm hgroup in
/-- The attributes of the first node are set. -/
theorem Progress.setFirst (h : Progress s₀ n0 nodes done ms R s) {a : NodeAttr}
    (ha : a.Complete) :
    Progress s₀ n0 nodes done ms R { s with graph := s.graph.setNode n0 a } := by
  refine ⟨fun n hn => ?_, ⟨a, ?_, ha⟩, h.away, h.inner, h.outer, h.members, h.removed, h.added⟩
  · show (s.graph.setNode n0 a).node? n = _
    rw [Graph.node?_setNode, if_neg hn]
    exact h.node? n hn
  · show (s.graph.setNode n0 a).node? n0 = _
    rw [Graph.node?_setNode, if_pos rfl]

omit hcalm hgroup in
/-- `graph.nodes[n]`. -/
theorem serve_node {s : Shared} {n : Str} {a : NodeAttr} (ha : s.graph.node? n = some a)
    (y : Choice) : serve y (.node n) s = some (.ok a, s) := by
  have hnode : s.graph.HasNode n := Option.isSome_iff_exists.mpr ⟨a, ha⟩
  show some (atNode s n .keyError ((s.graph.node? n).getD {}), s) = _
  unfold atNode
  rw [if_pos hnode, ha]
  rfl

omit hcalm hgroup in
theorem serve_setNode {s : Shared} {n : Str} {a b : NodeAttr} (ha : s.graph.node? n = some a)
    (y : Choice) :
    serve y (.setNode n b) s = some (.ok (), { s with graph := s.graph.setNode n b }) := by
  have hnode : s.graph.HasNode n := Option.isSome_iff_exists.mpr ⟨a, ha⟩
  exact congrArg (fun t => some (Except.ok (), t)) (if_pos hnode)

omit hcalm in
theorem mergeNodeAttrs_gives (h : Progress s₀ n0 nodes done ms R s) {m : Str} (hm : m ∈ nodes)
    (hm0 : m ≠ n0) (hmdone : m ∉ done) :
    Gives x (mergeNodeAttrs n0 m) s fun _ s' =>
      Progress s₀ n0 nodes done ms R s' ∧ s'.graph.neighbors m = s.graph.neighbors m := by
  obtain ⟨a1, ha1, hd1, hs1⟩ := hgroup.attrs m hm
  obtain ⟨a0, ha0, hd0, hs0⟩ := h.first
  obtain ⟨d1, hd1⟩ := Option.isSome_iff_exists.mp hd1
  obtain ⟨s1, hs1⟩ := Option.isSome_iff_exists.mp hs1
  obtain ⟨d0, hd0⟩ := Option.isSome_iff_exists.mp hd0
  obtain ⟨t0, hs0⟩ := Option.isSome_iff_exists.mp hs0
  have hnode : s.graph.node? m = some a1 := by
    rw [h.node? m hm0, if_neg hmdone, ha1]
  unfold mergeNodeAttrs
  refine Gives.performBind (serve_node hnode) (Gives.performBind (serve_node ha0) ?_)
  rw [hd0, hd1, hs0, hs1]
  exact Gives.perform fun k => ⟨(), _, serve_setNode ha0 (x k), h.setFirst ⟨rfl, rfl⟩, rfl⟩

omit hcalm hgroup in
/-- A member is removed. -/
theorem Progress.removeNode (h : Progress s₀ n0 nodes done ms R s) {m : Str} (hm : m ∈ nodes)
    (hm0 : m ≠ n0) :
    Progress s₀ n0 nodes (done ++ [m]) ms R { s with graph := s.graph.removeNode m } := by
  have hmem : ∀ n, n ∈ done ++ [m] ↔ n ∈ done ∨ n = m := by simp
  refine ⟨fun n hn => ?_, ?_, fun u v hu hv => ?_, fun v hv => ?_, fun y hy => ?_, h.members,
    h.removed, h.added⟩
  · show (s.graph.removeNode m).node? n = _
    rw [Graph.node?_removeNode, h.node? n hn]
    simp only [hmem]
    split_ifs with h₁ h₂ h₃ h₄
    all_goals first | rfl | simp_all
  · obtain ⟨a, ha, hcomplete⟩ := h.first
    refine ⟨a, ?_, hcomplete⟩
    show (s.graph.removeNode m).node? n0 = _
    rw [Graph.node?_removeNode, if_neg (Ne.symm hm0), ha]
  · show (s.graph.removeNode m).edge? u v = _
    rw [Graph.edge?_removeNode, h.away u v hu hv]
    simp only [hmem]
    split_ifs
    all_goals first | rfl | tauto
  · show (s.graph.removeNode m).edge? n0 v = _
    rw [Graph.edge?_removeNode, h.inner v hv]
    simp only [hmem, Ne.symm hm0, false_or]
    split_ifs
    all_goals first | rfl | tauto
  · show Joined _ _ _ _ ((s.graph.removeNode m).edge? n0 y)
    have hym : y ≠ m := fun heq => hy (heq ▸ hm)
    rw [Graph.edge?_removeNode, if_neg (not_or.mpr ⟨Ne.symm hm0, hym⟩)]
    exact h.outer y hy

omit hcalm hgroup in
/-- Another description of the same progress. -/
theorem Progress.congr (h : Progress s₀ n0 nodes done ms R s) {ms' : Str → List Str}
    {R' : Str × Str → Prop} (hms : ∀ y, y ∉ nodes → ms y = ms' y) (hR : ∀ p, R' p → R p) :
    Progress s₀ n0 nodes done ms' R' s := by
  refine ⟨h.node?, h.first, h.away, h.inner, fun y hy => ?_, fun y hy => ?_,
    fun p hp => h.removed p (hR p hp), fun p => (h.added p).trans (or_congr_right ?_)⟩
  · rw [← hms y hy]
    exact h.outer y hy
  · rw [← hms y hy]
    exact h.members y hy
  · refine exists_congr fun y => and_congr_right fun hy => ?_
    rw [hms y hy]

/-- The members with an edge to `y`. -/
def adjacent (g : KGraph) (done : List Str) (y : Str) : List Str :=
  done.filter fun m => g.HasEdge m y

/-- The edge belonged to one of the members. -/
def ofMembers (g : KGraph) (done : List Str) (p : Str × Str) : Prop :=
  ∃ m ∈ done, ∃ v, g.HasEdge m v ∧ p = getFromTo m v

omit hcalm hgroup in
/-- The edges of a member that is still there: those to members removed before are gone. -/
theorem Progress.hasEdge_iff (h : Progress s₀ n0 nodes done ms R s) {m v : Str} (hm : m ∈ nodes)
    (hm0 : m ≠ n0) (hmdone : m ∉ done) :
    s.graph.HasEdge m v ↔ v ∉ done ∧ s₀.graph.HasEdge m v ∨ v = n0 ∧ s₀.graph.HasEdge m v := by
  by_cases hv : v = n0
  · subst hv
    unfold Graph.HasEdge
    rw [Graph.edge?_comm, h.inner m hm, if_neg hmdone, Graph.edge?_comm]
    tauto
  · unfold Graph.HasEdge
    rw [h.away m v hm0 hv]
    by_cases hvdone : v ∈ done
    · rw [if_pos (Or.inr hvdone)]
      simp [hvdone, hv]
    · rw [if_neg (not_or.mpr ⟨hmdone, hvdone⟩)]
      tauto

theorem mergeEach_gives (h0 : n0 ∈ nodes) (rest : List Str) :
    ∀ (done : List Str) (s : Shared), (done ++ rest).Nodup → (∀ m ∈ done ++ rest, m ∈ nodes) →
      n0 ∉ done ++ rest →
      Progress s₀ n0 nodes done (adjacent s₀.graph done) (ofMembers s₀.graph done) s →
      Gives x (mergeEach env nodes (s₀.graph.neighbors n0) n0 rest) s fun _ s' =>
        Progress s₀ n0 nodes (done ++ rest) (adjacent s₀.graph (done ++ rest))
          (ofMembers s₀.graph (done ++ rest)) s' := by
  induction rest with
  | nil =>
      intro done s _ _ _ h
      rw [List.append_nil]
      exact Gives.pure h
  | cons m rest ih =>
      intro done s hnodup hnodes hn0 h
      have hm : m ∈ nodes := hnodes m (by simp)
      have hm0 : m ≠ n0 := fun heq => hn0 (by simp [heq])
      have hmdone : m ∉ done := by
        rw [List.nodup_append] at hnodup
        exact fun hd => hnodup.2.2 m hd m (by simp) rfl
      have hdone : ∀ d ∈ done, d ∈ nodes := fun d hd => hnodes d (List.mem_append_left _ hd)
      unfold mergeEach
      refine Gives.bind (raiseIfCanceled_gives hcalm env) ?_
      rintro _ _ rfl
      refine Gives.bind (mergeNodeAttrs_gives hgroup h hm hm0 hmdone) ?_
      rintro _ s₁ ⟨hs₁, -⟩
      obtain ⟨a, ha, -⟩ := hgroup.attrs m hm
      have hnode : ∀ {ms R t}, Progress s₀ n0 nodes done ms R t → t.graph.HasNode m := by
        intro ms R t ht
        refine Option.isSome_iff_exists.mpr ⟨a, ?_⟩
        rw [ht.node? m hm0, if_neg hmdone, ha]
      refine Gives.performBind (r := s₁.graph.neighbors m)
        (fun _ => congrArg (fun o => some (o, s₁)) (if_pos (hnode hs₁))) ?_
      refine Gives.bind (overNeighbors_gives hcalm env hgroup h0 hm hm0 hmdone hdone
        (s₁.graph.neighbors m) [] _ _ s₁ hs₁ rfl) ?_
      intro _ s₂ hs₂
      refine Gives.performBind (r := ()) (t := { s₂ with graph := s₂.graph.removeNode m })
        (fun _ => congrArg (fun o => some (o, _)) (if_pos (hnode hs₂))) ?_
      have hsplit : done ++ m :: rest = (done ++ [m]) ++ rest := by simp
      rw [hsplit] at hnodup hnodes hn0 ⊢
      refine ih (done ++ [m]) _ hnodup hnodes hn0 ((hs₂.removeNode hm hm0).congr ?_ ?_)
      · -- The neighbours outside are those of the start.
        intro y hy
        have hydone : y ∉ done := fun hd => hy (hdone y hd)
        have hy0 : y ≠ n0 := fun heq => hy (heq ▸ h0)
        rw [foldl_afterNeighbor hy _ (Graph.neighbors_nodup m)]
        unfold adjacent
        rw [List.filter_append, List.filter_cons, List.filter_nil]
        simp only [Graph.mem_neighbors, hs₁.hasEdge_iff hm hm0 hmdone, hydone, hy0,
          not_false_eq_true, true_and, false_and, or_false, decide_eq_true_eq]
      · rintro p ⟨d, hd, v, hdv, rfl⟩
        rcases List.mem_append.mp hd with hd | hd
        · exact Or.inl ⟨d, hd, v, hdv, rfl⟩
        · rw [List.mem_singleton.mp hd] at hdv ⊢
          by_cases hvdone : v ∈ done
          · exact Or.inl ⟨v, hvdone, m, Graph.hasEdge_comm.mp hdv, getFromTo_comm m v⟩
          · refine Or.inr ⟨v, Graph.mem_neighbors.mpr ?_, rfl⟩
            exact (hs₁.hasEdge_iff hm hm0 hmdone).mpr (Or.inl ⟨hvdone, hdv⟩)

omit hgroup in
theorem finishNode_gives (h : Progress s₀ n0 nodes done ms R s) :
    Gives x (finishNode env n0) s fun _ s' => Progress s₀ n0 nodes done ms R s' := by
  obtain ⟨a, ha, hd, hs⟩ := h.first
  obtain ⟨d, hd⟩ := Option.isSome_iff_exists.mp hd
  unfold finishNode
  refine Gives.performBind (serve_node ha) ?_
  rw [hd]
  refine Gives.bind (Gives.need (Q := fun b t => b = d ∧ t = s) ⟨rfl, rfl⟩) ?_
  rintro _ _ ⟨rfl, rfl⟩
  refine Gives.bind (summary_gives hcalm env _ _) ?_
  rintro t _ rfl
  exact Gives.performBind (serve_node ha) (Gives.perform fun k =>
    ⟨(), _, serve_setNode ha (x k), h.setFirst ⟨rfl, hs⟩⟩)

end progress

/-- The whole run. -/
theorem mergeGraphNodes_gives {x : ℕ → Choice} (hcalm : Calm x) (env : Env) {s₀ : Shared}
    {n0 : Str} {rest : List Str} (hgroup : Group s₀.graph (n0 :: rest)) :
    Gives x (mergeGraphNodes env (n0 :: rest)) s₀ fun _ s' =>
      Progress s₀ n0 (n0 :: rest) rest (adjacent s₀.graph rest) (ofMembers s₀.graph rest) s' := by
  obtain ⟨a, ha, hcomplete⟩ := hgroup.attrs n0 List.mem_cons_self
  have hstart : Progress s₀ n0 (n0 :: rest) [] (adjacent s₀.graph []) (ofMembers s₀.graph [])
      s₀ := by
    refine ⟨fun n _ => rfl, ⟨a, ha, hcomplete⟩, fun u v _ _ => by simp, fun v _ => rfl,
      fun y _ => Joined.start, fun y _ m hm => (List.not_mem_nil hm).elim, ?_, fun p => ?_⟩
    · rintro p ⟨m, hm, -⟩
      cases hm
    · refine ⟨Or.inl, ?_⟩
      rintro (hp | ⟨y, -, -, hne, -⟩)
      · exact hp
      · exact absurd rfl hne
  unfold mergeGraphNodes
  refine Gives.performBind (fun _ => rfl) ?_
  refine Gives.bind (raiseIfCanceled_gives hcalm env) ?_
  intro _ s₁ hs₁
  rw [hs₁]
  obtain ⟨hn0, hnodup⟩ := List.nodup_cons.mp hgroup.nodup
  cases rest with
  | nil => exact Gives.pure hstart
  | cons m rest =>
      dsimp only
      refine Gives.performBind (fun _ => rfl) ?_
      have hrecord : Progress s₀ n0 (n0 :: m :: rest) [] (adjacent s₀.graph [])
          (ofMembers s₀.graph []) { s₀ with
            change := GraphChange.union s₀.change
              { addedUpdatedNodes := {n0}, removedNodes := (m :: rest).toFinset } } := by
        refine ⟨hstart.node?, hstart.first, hstart.away, hstart.inner, hstart.outer,
          hstart.members, fun p hp => ?_, fun p => ?_⟩
        · obtain ⟨d, hd, -⟩ := hp
          cases hd
        · show p ∈ s₀.change.addedUpdatedEdges ∪ ∅ ↔ _
          rw [Finset.union_empty]
          exact hstart.added p
      refine Gives.performBind (serve_node ha) ?_
      refine Gives.performBind (r := s₀.graph.neighbors n0)
        (fun _ => congrArg (fun o => some (o, _))
          (if_pos (Option.isSome_iff_exists.mpr ⟨a, ha⟩))) ?_
      refine Gives.bind (mergeEach_gives hcalm env hgroup List.mem_cons_self (m :: rest) [] _
        hnodup (fun k hk => List.mem_cons_of_mem _ hk) hn0 hrecord) ?_
      intro _ s' hs'
      exact finishNode_gives hcalm env hs'

/-- `_merge_graph_nodes` run by itself: how it ends, and the state then. -/
def mergeAlone (x : ℕ → Choice) (env : Env) (nodes : List Str) (s : Shared) :
    Except Err Unit × Shared :=
  let r := Prog.exec (alone x) (mergeGraphNodes env nodes) (s, 0)
  (r.1, r.2.1)

theorem mergeAlone_spec {x : ℕ → Choice} (hcalm : Calm x) (env : Env) {s : Shared}
    {n0 : Str} {rest : List Str} (hgroup : Group s.graph (n0 :: rest)) :
    ∃ s', mergeAlone x env (n0 :: rest) s = (.ok (), s') ∧
      Progress s n0 (n0 :: rest) rest (adjacent s.graph rest) (ofMembers s.graph rest) s' := by
  obtain ⟨a, s', k', hrun, hs'⟩ := mergeGraphNodes_gives hcalm env hgroup 0
  refine ⟨s', ?_, hs'⟩
  unfold mergeAlone
  rw [hrun]

/-! ### The quotient graph -/

section quotient

/-- The weight of the edge between two nodes, `0` without one. -/
def weightOf (g : KGraph) (m x : Str) : ℚ := ((g.edge? m x).bind EdgeAttr.weight).getD 0

/-- The sources of the edge between two nodes. -/
def sourcesOf (g : KGraph) (m x : Str) : List Str :=
  ((g.edge? m x).bind EdgeAttr.sourceId).getD []

/-- The nodes but the first are gone.  The first has an edge to a node outside if one of the group
had; its weight is the sum of their weights, and its sources are their sources. -/
structure IsQuotient (g g' : KGraph) (n0 : Str) (rest : List Str) : Prop where
  gone : ∀ m ∈ rest, ¬g'.HasNode m
  edge : ∀ x, x ∉ n0 :: rest → (g'.HasEdge n0 x ↔ ∃ m ∈ n0 :: rest, g.HasEdge m x)
  weight : ∀ x, x ∉ n0 :: rest → ∀ b, g'.edge? n0 x = some b →
    b.weight = some (((n0 :: rest).map fun m => weightOf g m x).sum)
  sources : ∀ x, x ∉ n0 :: rest → ∀ b, g'.edge? n0 x = some b → ∃ ts, b.sourceId = some ts ∧
    ∀ t, t ∈ ts ↔ ∃ m ∈ n0 :: rest, t ∈ sourcesOf g m x

/-- Of the members with an edge to a node outside that the first has no edge to, all but the last
have edges of weight `0` in total, and no source that the last does not have. -/
def LastHasAll (g : KGraph) (n0 : Str) (rest : List Str) : Prop :=
  ∀ x, x ∉ n0 :: rest → ¬g.HasEdge n0 x → ∀ ms m, adjacent g rest x = ms ++ [m] →
    (ms.map fun k => weightOf g k x).sum = 0 ∧
      ∀ k ∈ ms, ∀ t ∈ sourcesOf g k x, t ∈ sourcesOf g m x

theorem mem_sortedSet {xs : List Str} {t : Str} : t ∈ sortedSet xs ↔ t ∈ xs := by
  unfold sortedSet
  rw [(List.perm_insertionSort _ _).mem_iff, List.mem_dedup]

variable {g : KGraph} {n0 x : Str} {ms : List Str}

theorem fullEdge_values {m : Str} {b : EdgeAttr} (hb : g.edge? m x = some b) (hfull : FullEdge b) :
    b.weight = some (weightOf g m x) ∧ b.sourceId = some (sourcesOf g m x) := by
  obtain ⟨hw, -, -, hs⟩ := hfull
  obtain ⟨w, hw⟩ := Option.isSome_iff_exists.mp hw
  obtain ⟨ts, hs⟩ := Option.isSome_iff_exists.mp hs
  unfold weightOf sourcesOf
  rw [hb]
  simp [hw, hs]

theorem Joined.nil {o : Option EdgeAttr} (h : Joined g n0 x [] o) : o = g.edge? n0 x := by
  generalize hms : ([] : List Str) = ms at h
  cases h with
  | start => rfl
  | added t h h0 h1 => exact absurd hms (by simp)
  | replaced h h0 h1 => exact absurd hms (by simp)

/-- Added to an edge that was there. -/
theorem Joined.sum {o : Option EdgeAttr} (h : Joined g n0 x ms o) (h0 : g.HasEdge n0 x)
    (hfull : ∀ m, (m = n0 ∨ m ∈ ms) → ∀ b, g.edge? m x = some b → FullEdge b) {e : EdgeAttr}
    (he : o = some e) :
    e.weight = some (weightOf g n0 x + (ms.map fun m => weightOf g m x).sum) ∧
      ∃ ts, e.sourceId = some ts ∧
        ∀ t, t ∈ ts ↔ t ∈ sourcesOf g n0 x ∨ ∃ m ∈ ms, t ∈ sourcesOf g m x := by
  induction h generalizing e with
  | start =>
      obtain ⟨hw, hs⟩ := fullEdge_values he (hfull n0 (Or.inl rfl) e he)
      exact ⟨by rw [hw]; simp, _, hs, fun t => by simp⟩
  | @added ms m e₀ e1 d h _ h1 ih =>
      cases he
      obtain ⟨hw, ts, hs, hts⟩ :=
        ih (fun k hk => hfull k (hk.imp_right (List.mem_append_left _))) rfl
      obtain ⟨hw1, hs1⟩ := fullEdge_values h1 (hfull m (Or.inr (by simp)) e1 h1)
      refine ⟨?_, _, rfl, fun t => ?_⟩
      · unfold mergedAttrs
        dsimp only
        rw [hw, hw1, List.map_append, List.sum_append, List.map_singleton, List.sum_singleton,
          ← add_assoc]
        rfl
      · rw [mem_sortedSet, hs, hs1, List.mem_append]
        show t ∈ ts ∨ t ∈ sourcesOf g m x ↔ _
        rw [hts]
        simp [or_and_right, exists_or, or_assoc]
  | replaced h hno h1 ih => exact absurd h0 hno

/-- Where there was no edge it is that of the last member. -/
theorem Joined.last {m : Str} {o : Option EdgeAttr} (h : Joined g n0 x (ms ++ [m]) o)
    (h0 : ¬g.HasEdge n0 x) (hfull : ∀ b, g.edge? m x = some b → FullEdge b) :
    ∃ e, o = some e ∧ e.weight = some (weightOf g m x) ∧ e.sourceId = some (sourcesOf g m x) := by
  generalize hms : ms ++ [m] = ms' at h
  cases h with
  | start => exact absurd hms (by simp)
  | added t h hedge h1 => exact absurd hedge h0
  | @replaced ms' k o e1 h _ h1 =>
      obtain ⟨rfl, hk⟩ := List.append_inj' hms rfl
      cases hk
      obtain ⟨hw, hs⟩ := fullEdge_values h1 (hfull e1 h1)
      refine ⟨_, rfl, ?_, ?_⟩
      · unfold EdgeAttr.update
        rw [hw]
        rfl
      · unfold EdgeAttr.update
        rw [hs]
        rfl

theorem weightOf_of_not {m : Str} (h : ¬g.HasEdge m x) : weightOf g m x = 0 := by
  unfold weightOf
  rw [Option.not_isSome_iff_eq_none.mp h]
  rfl

theorem sourcesOf_of_not {m : Str} (h : ¬g.HasEdge m x) : sourcesOf g m x = [] := by
  unfold sourcesOf
  rw [Option.not_isSome_iff_eq_none.mp h]
  rfl

/-- Members without an edge contribute nothing. -/
theorem sum_adjacent (g : KGraph) (x : Str) (rest : List Str) :
    (rest.map fun m => weightOf g m x).sum =
      ((adjacent g rest x).map fun m => weightOf g m x).sum := by
  induction rest with
  | nil => rfl
  | cons m rest ih =>
      unfold adjacent at ih ⊢
      rw [List.map_cons, List.sum_cons, ih]
      by_cases hm : g.HasEdge m x
      · rw [List.filter_cons_of_pos (by simpa using hm), List.map_cons, List.sum_cons]
      · rw [List.filter_cons_of_neg (by simpa using hm), weightOf_of_not hm, zero_add]

theorem sources_adjacent (g : KGraph) (x : Str) (rest : List Str) (t : Str) :
    (∃ m ∈ rest, t ∈ sourcesOf g m x) ↔ ∃ m ∈ adjacent g rest x, t ∈ sourcesOf g m x := by
  unfold adjacent
  constructor
  · rintro ⟨m, hm, ht⟩
    refine ⟨m, List.mem_filter.mpr ⟨hm, ?_⟩, ht⟩
    by_contra hno
    rw [sourcesOf_of_not (by simpa using hno)] at ht
    cases ht
  · rintro ⟨m, hm, ht⟩
    exact ⟨m, (List.mem_filter.mp hm).1, ht⟩

theorem mem_adjacent {rest : List Str} {m : Str} :
    m ∈ adjacent g rest x ↔ m ∈ rest ∧ g.HasEdge m x := by
  unfold adjacent
  rw [List.mem_filter, decide_eq_true_eq]

/-- There is an edge from the first node if a member had one. -/
theorem Progress.hasEdge_outer {s s' : Shared} {rest : List Str}
    (hfull : ∀ m ∈ adjacent s.graph rest x, ∀ b, s.graph.edge? m x = some b → FullEdge b)
    (h : Progress s n0 (n0 :: rest) rest (adjacent s.graph rest) (ofMembers s.graph rest) s')
    (hx : x ∉ n0 :: rest) :
    s'.graph.HasEdge n0 x ↔ ∃ m ∈ n0 :: rest, s.graph.HasEdge m x := by
  have hjoined := h.outer x hx
  by_cases h0 : s.graph.HasEdge n0 x
  · exact iff_of_true (hjoined.isSome h0) ⟨n0, List.mem_cons_self, h0⟩
  · rcases List.eq_nil_or_concat (adjacent s.graph rest x) with hnil | ⟨ms, m, hms⟩
    · rw [hnil] at hjoined
      refine iff_of_false (fun hedge => h0 ?_) ?_
      · unfold Graph.HasEdge at hedge ⊢
        rwa [hjoined.nil] at hedge
      · rintro ⟨m, hm, hedge⟩
        rcases List.mem_cons.mp hm with rfl | hm
        · exact h0 hedge
        · have hmem : m ∈ adjacent s.graph rest x := mem_adjacent.mpr ⟨hm, hedge⟩
          rw [hnil] at hmem
          cases hmem
    · rw [List.concat_eq_append] at hms
      have hm : m ∈ adjacent s.graph rest x := by
        rw [hms]
        simp
      rw [hms] at hjoined
      obtain ⟨e, he, -⟩ := hjoined.last h0 (hfull m hm)
      obtain ⟨hrest, hedge⟩ := mem_adjacent.mp hm
      exact iff_of_true (Option.isSome_iff_exists.mpr ⟨e, he⟩)
        ⟨m, List.mem_cons_of_mem _ hrest, hedge⟩

/-- The graph after the run is the quotient exactly under the condition. -/
theorem Progress.isQuotient_iff {s s' : Shared} {rest : List Str}
    (hgroup : Group s.graph (n0 :: rest))
    (h : Progress s n0 (n0 :: rest) rest (adjacent s.graph rest) (ofMembers s.graph rest) s') :
    IsQuotient s.graph s'.graph n0 rest ↔ LastHasAll s.graph n0 rest := by
  have hn0 := (List.nodup_cons.mp hgroup.nodup).1
  have hfull : ∀ y m, (m = n0 ∨ m ∈ adjacent s.graph rest y) → ∀ b, s.graph.edge? m y = some b →
      FullEdge b := by
    rintro y m hm b hb
    refine hgroup.edges m ?_ y b hb
    rcases hm with rfl | hm
    · exact List.mem_cons_self
    · exact List.mem_cons_of_mem _ (mem_adjacent.mp hm).1
  constructor
  · intro hq y hy hno ms m hms
    obtain ⟨e, he, hw, hs⟩ := ((hms ▸ h.outer y hy : Joined s.graph n0 y (ms ++ [m]) _)).last hno
      (hfull y m (Or.inr (by rw [hms]; simp)))
    have hweight := hq.weight y hy e he
    obtain ⟨ts, hts, hmem⟩ := hq.sources y hy e he
    rw [hw, List.map_cons, List.sum_cons, sum_adjacent, hms, weightOf_of_not hno, zero_add,
      List.map_append, List.sum_append, List.map_singleton, List.sum_singleton] at hweight
    have hsum := Option.some.inj hweight
    refine ⟨add_eq_right.mp hsum.symm, fun k hk t ht => ?_⟩
    rw [hs] at hts
    rw [Option.some.inj hts, hmem]
    have hkm : k ∈ adjacent s.graph rest y := by
      rw [hms]
      exact List.mem_append_left _ hk
    exact ⟨k, List.mem_cons_of_mem _ (mem_adjacent.mp hkm).1, ht⟩
  · intro hlast
    have hvalues : ∀ y, y ∉ n0 :: rest → ∀ b, s'.graph.edge? n0 y = some b →
        b.weight = some (((n0 :: rest).map fun m => weightOf s.graph m y).sum) ∧
          ∃ ts, b.sourceId = some ts ∧
            ∀ t, t ∈ ts ↔ ∃ m ∈ n0 :: rest, t ∈ sourcesOf s.graph m y := by
      intro y hy b hb
      have hjoined := h.outer y hy
      have hsplit : ∀ t, (∃ m ∈ n0 :: rest, t ∈ sourcesOf s.graph m y) ↔
          t ∈ sourcesOf s.graph n0 y ∨
            ∃ m ∈ adjacent s.graph rest y, t ∈ sourcesOf s.graph m y := by
        intro t
        rw [← sources_adjacent]
        simp
      by_cases h0 : s.graph.HasEdge n0 y
      · obtain ⟨hw, ts, hs, hts⟩ := hjoined.sum h0 (hfull y) hb
        refine ⟨?_, ts, hs, fun t => (hts t).trans (hsplit t).symm⟩
        rw [hw, ← sum_adjacent, List.map_cons, List.sum_cons]
      · rcases List.eq_nil_or_concat (adjacent s.graph rest y) with hnil | ⟨ms, m, hms⟩
        · rw [hnil] at hjoined
          rw [hjoined.nil] at hb
          exact absurd (Option.isSome_iff_exists.mpr ⟨b, hb⟩) h0
        · rw [List.concat_eq_append] at hms
          rw [hms] at hjoined
          obtain ⟨e, he, hw, hs⟩ := hjoined.last h0 (hfull y m (Or.inr (by rw [hms]; simp)))
          rw [hb] at he
          cases he
          obtain ⟨hzero, hall⟩ := hlast y hy h0 ms m hms
          refine ⟨?_, _, hs, fun t => ?_⟩
          · rw [hw, List.map_cons, List.sum_cons, sum_adjacent, hms, weightOf_of_not h0, zero_add,
              List.map_append, List.sum_append, List.map_singleton, List.sum_singleton, hzero,
              zero_add]
          · rw [hsplit, sourcesOf_of_not h0, hms]
            constructor
            · exact fun ht => Or.inr ⟨m, by simp, ht⟩
            · rintro (ht | ⟨k, hk, ht⟩)
              · cases ht
              · rcases List.mem_append.mp hk with hk | hk
                · exact hall k hk t ht
                · rwa [List.mem_singleton.mp hk] at ht
    refine ⟨fun m hm hnode => ?_, fun y hy => ?_, fun y hy b hb => (hvalues y hy b hb).1,
      fun y hy b hb => (hvalues y hy b hb).2⟩
    · have hm0 : m ≠ n0 := fun heq => hn0 (heq ▸ hm)
      unfold Graph.HasNode at hnode
      rw [h.node? m hm0, if_pos hm] at hnode
      cases hnode
    · exact h.hasEdge_outer (fun m hm => hfull y m (Or.inr hm)) hy

/-- **Quotient.**  Merging a group gives the quotient graph exactly if, wherever the first node had
no edge, the last member with an edge has all there is. -/
theorem quotient_iff {x : ℕ → Choice} (hcalm : Calm x) (env : Env) (s : Shared) (n0 : Str)
    (rest : List Str) (hgroup : Group s.graph (n0 :: rest)) :
    (∃ s', mergeAlone x env (n0 :: rest) s = (.ok (), s') ∧
        IsQuotient s.graph s'.graph n0 rest) ↔ LastHasAll s.graph n0 rest := by
  obtain ⟨s', hrun, hs'⟩ := mergeAlone_spec hcalm env hgroup
  rw [← hs'.isQuotient_iff hgroup, hrun]
  constructor
  · rintro ⟨t, ht, hq⟩
    cases ht
    exact hq
  · exact fun hq => ⟨s', rfl, hq⟩

end quotient

/-! ### The record of changes -/

section record

/-- Every edge that is new or has changed is in the record, and every edge that is gone is; and for
each edge that is new or has changed `set_graph` writes a chunk. -/
structure IsRecorded (s s' : Shared) : Prop where
  updated : ∀ u v b, s'.graph.edge? u v = some b → s.graph.edge? u v ≠ some b →
    getFromTo u v ∈ s'.change.addedUpdatedEdges
  removed : ∀ u v, s.graph.HasEdge u v → ¬s'.graph.HasEdge u v →
    getFromTo u v ∈ s'.change.removedEdges
  indexed : ∀ (env : IndexEnv) (order : s'.change.Order) chunks,
    newChunks env s'.graph order = .ok chunks → ∀ u v b, s'.graph.edge? u v = some b →
      s.graph.edge? u v ≠ some b → ∃ c ∈ chunks.filterMap Graphrag.ChunkBody.relation?,
        c.pair = getFromTo u v ∧ c.contentWithWeight = b

/-- A new edge of the first node is in the record already. -/
def NewEdgesRecorded (s : Shared) (n0 : Str) (rest : List Str) : Prop :=
  ∀ x, x ∉ n0 :: rest → ¬s.graph.HasEdge n0 x → (∃ m ∈ rest, s.graph.HasEdge m x) →
    getFromTo n0 x ∈ s.change.addedUpdatedEdges

/-- The ends of the pair. -/
theorem getFromTo_ends (u v : Str) : s((getFromTo u v).1, (getFromTo u v).2) = s(u, v) := by
  unfold getFromTo
  split_ifs
  · rfl
  · exact Sym2.eq_swap

theorem getFromTo_right_inj {u v w : Str} (h : getFromTo u v = getFromTo u w) : v = w := by
  have hends := getFromTo_ends u v
  rw [h, getFromTo_ends] at hends
  exact (Sym2.congr_right.mp hends).symm

variable {n0 : Str} {rest : List Str} {s s' : Shared}

/-- An edge that is new or has changed is one of the first node to a node outside. -/
theorem Progress.changed_edge (hgroup : Group s.graph (n0 :: rest))
    (h : Progress s n0 (n0 :: rest) rest (adjacent s.graph rest) (ofMembers s.graph rest) s')
    {u v : Str} {b : EdgeAttr} (hb : s'.graph.edge? u v = some b)
    (hchanged : s.graph.edge? u v ≠ some b) :
    ∃ x, x ∉ n0 :: rest ∧ s(u, v) = s(n0, x) ∧ adjacent s.graph rest x ≠ [] ∧ FullEdge b := by
  have hfirst : ∀ {x}, s'.graph.edge? n0 x = some b → s.graph.edge? n0 x ≠ some b →
      x ∉ n0 :: rest ∧ adjacent s.graph rest x ≠ [] ∧ FullEdge b := by
    intro x hb hchanged
    have hx : x ∉ n0 :: rest := by
      intro hx
      rw [h.inner x hx] at hb
      split_ifs at hb
      exact hchanged hb
    have hjoined := h.outer x hx
    refine ⟨hx, fun hnil => ?_, hjoined.full (fun m y c hc hm => ?_) hb⟩
    · rw [hnil] at hjoined
      exact hchanged (hjoined.nil ▸ hb)
    · refine hgroup.edges m ?_ y c hc
      rcases hm with rfl | hm
      · exact List.mem_cons_self
      · exact List.mem_cons_of_mem _ (mem_adjacent.mp hm).1
  by_cases hu : u = n0
  · subst hu
    obtain ⟨hx, hne, hfull⟩ := hfirst hb hchanged
    exact ⟨v, hx, rfl, hne, hfull⟩
  by_cases hv : v = n0
  · subst hv
    rw [Graph.edge?_comm] at hb hchanged
    obtain ⟨hx, hne, hfull⟩ := hfirst hb hchanged
    exact ⟨u, hx, Sym2.eq_swap, hne, hfull⟩
  · rw [h.away u v hu hv] at hb
    split_ifs at hb
    exact absurd hb hchanged

/-- An edge that is gone was one of a member. -/
theorem Progress.gone_edge (hgroup : Group s.graph (n0 :: rest))
    (h : Progress s n0 (n0 :: rest) rest (adjacent s.graph rest) (ofMembers s.graph rest) s')
    {u v : Str} (hedge : s.graph.HasEdge u v) (hgone : ¬s'.graph.HasEdge u v) :
    ofMembers s.graph rest (getFromTo u v) := by
  by_cases hu : u ∈ rest
  · exact ⟨u, hu, v, hedge, rfl⟩
  by_cases hv : v ∈ rest
  · exact ⟨v, hv, u, Graph.hasEdge_comm.mp hedge, getFromTo_comm u v⟩
  have hfirst : ∀ {x}, x ∉ rest → s.graph.HasEdge n0 x → s'.graph.HasEdge n0 x := by
    intro x hx hedge
    by_cases hx0 : x ∈ n0 :: rest
    · unfold Graph.HasEdge
      rw [h.inner x hx0, if_neg hx]
      exact hedge
    · exact (h.outer x hx0).isSome hedge
  refine absurd ?_ hgone
  by_cases hu0 : u = n0
  · subst hu0
    exact hfirst hv hedge
  by_cases hv0 : v = n0
  · subst hv0
    exact Graph.hasEdge_comm.mp (hfirst hu (Graph.hasEdge_comm.mp hedge))
  · unfold Graph.HasEdge
    rw [h.away u v hu0 hv0, if_neg (not_or.mpr ⟨hu, hv⟩)]
    exact hedge

/-- `set_graph` writes a chunk for an edge that is listed and has its entries. -/
theorem chunk_of_listed {env : IndexEnv} {g : KGraph} {change : GraphChange}
    {order : change.Order} {chunks : List Graphrag.ChunkBody}
    (h : newChunks env g order = .ok chunks)
    {u v : Str} {b : EdgeAttr} (hb : g.edge? u v = some b) (hfull : FullEdge b)
    (hlisted : getFromTo u v ∈ change.addedUpdatedEdges) :
    ∃ c ∈ chunks.filterMap Graphrag.ChunkBody.relation?,
      c.pair = getFromTo u v ∧ c.contentWithWeight = b := by
  obtain ⟨sources, subgraphs, entities, relations, hinserted⟩ := newChunks_eq_ok h
  have hmem : edgeChunk env g (getFromTo u v) ∈ relations.map Except.ok := by
    rw [← hinserted.relations_ok]
    exact List.mem_map_of_mem ((order.mem_edges _).mpr hlisted)
  obtain ⟨o, ho, hchunk⟩ := List.mem_map.mp hmem
  have hedge : g.edge? (getFromTo u v).1 (getFromTo u v).2 = some b := by
    unfold Graph.edge?
    rw [getFromTo_ends]
    exact hb
  rcases edgeChunk_eq_ok hchunk.symm with ⟨-, hempty⟩ | ⟨b', c, rfl, hb', hc⟩
  · have hfalse := hempty b hedge
    obtain ⟨w, hw⟩ := Option.isSome_iff_exists.mp hfull.1
    unfold EdgeAttr.isEmpty at hfalse
    rw [hw] at hfalse
    cases hfalse
  · rw [hedge] at hb'
    cases hb'
    obtain ⟨hpair, hattrs, -⟩ := graphEdgeToChunk_eq_ok hc
    refine ⟨c, ?_, hpair, hattrs⟩
    rw [hinserted.relation?]
    exact List.mem_filterMap.mpr ⟨some c, ho, rfl⟩

/-- The record after the run is complete exactly under the condition. -/
theorem Progress.isRecorded_iff (hgroup : Group s.graph (n0 :: rest))
    (h : Progress s n0 (n0 :: rest) rest (adjacent s.graph rest) (ofMembers s.graph rest) s') :
    IsRecorded s s' ↔ NewEdgesRecorded s n0 rest := by
  constructor
  · rintro hrec y hy h0 ⟨m, hm, hedge⟩
    have hfull : ∀ m ∈ adjacent s.graph rest y, ∀ b, s.graph.edge? m y = some b → FullEdge b :=
      fun m hm b hb => hgroup.edges m (List.mem_cons_of_mem _ (mem_adjacent.mp hm).1) y b hb
    obtain ⟨b, hb⟩ := Option.isSome_iff_exists.mp ((h.hasEdge_outer hfull hy).mpr
      ⟨m, List.mem_cons_of_mem _ hm, hedge⟩)
    have hnew : s.graph.edge? n0 y ≠ some b :=
      fun heq => h0 (Option.isSome_iff_exists.mpr ⟨b, heq⟩)
    rcases (h.added _).mp (hrec.updated n0 y b hb hnew) with hp | ⟨z, -, hz, -, hpair⟩
    · exact hp
    · rw [getFromTo_right_inj hpair] at h0
      exact absurd hz h0
  · intro hnew
    have hupdated : ∀ u v b, s'.graph.edge? u v = some b → s.graph.edge? u v ≠ some b →
        getFromTo u v ∈ s'.change.addedUpdatedEdges := by
      intro u v b hb hchanged
      obtain ⟨y, hy, huv, hne, -⟩ := h.changed_edge hgroup hb hchanged
      have hpair : getFromTo u v = getFromTo n0 y := by
        rcases Sym2.eq_iff.mp huv with ⟨rfl, rfl⟩ | ⟨rfl, rfl⟩
        · rfl
        · exact getFromTo_comm _ _
      rw [hpair, h.added]
      by_cases h0 : s.graph.HasEdge n0 y
      · exact Or.inr ⟨y, hy, h0, hne, rfl⟩
      · obtain ⟨m, hm⟩ := List.exists_mem_of_ne_nil _ hne
        exact Or.inl (hnew y hy h0 ⟨m, mem_adjacent.mp hm⟩)
    refine ⟨hupdated, fun u v hedge hgone => h.removed _ (h.gone_edge hgroup hedge hgone),
      fun env order chunks hchunks u v b hb hchanged => ?_⟩
    obtain ⟨-, -, -, -, hfull⟩ := h.changed_edge hgroup hb hchanged
    exact chunk_of_listed hchunks hb hfull (hupdated u v b hb hchanged)

/-- **Record.**  Merging a group records all it does to the edges exactly if each new edge of the
first node was in the record before. -/
theorem record_complete_iff {x : ℕ → Choice} (hcalm : Calm x) (env : Env) (s : Shared) (n0 : Str)
    (rest : List Str) (hgroup : Group s.graph (n0 :: rest)) :
    (∃ s', mergeAlone x env (n0 :: rest) s = (.ok (), s') ∧ IsRecorded s s') ↔
      NewEdgesRecorded s n0 rest := by
  obtain ⟨s', hrun, hs'⟩ := mergeAlone_spec hcalm env hgroup
  rw [← hs'.isRecorded_iff hgroup, hrun]
  constructor
  · rintro ⟨t, ht, hq⟩
    cases ht
    exact hq
  · exact fun hq => ⟨s', rfl, hq⟩

end record

/-! ### Three nodes are merged -/

def fourNodes : KGraph :=
  (["a0", "a1", "a2", "x"] : List Str).foldl (fun g m => g.setNode m (described m)) emptyGraph

/-- The second and the third node have an edge to `x`, the first has none. -/
def threeAndOne : Shared :=
  ⟨(fourNodes.addEdge "a1" "x" (relation 1)).addEdge "a2" "x" (relation 1), {}⟩

/-- All three have an edge to `x`. -/
def threeAndAll : Shared :=
  ⟨threeAndOne.graph.addEdge "a0" "x" (relation 1), {}⟩

def calmChoice : ℕ → Choice := fun _ => {}

theorem calm_calmChoice : Calm calmChoice := fun _ => ⟨rfl, [], rfl⟩

theorem fullEdge_relation (n : ℕ) : FullEdge (relation n) := ⟨rfl, rfl, rfl, rfl⟩

theorem group_of_relations {g : KGraph} {nodes : List Str} (hnodup : nodes.Nodup)
    (hnodes : ∀ n ∈ nodes, g.node? n = some (described n))
    (hedges : ∀ e ∈ g.edges.rows, e.attr = relation 1) : Group g nodes where
  nodup := hnodup
  attrs n hn := ⟨described n, hnodes n hn, rfl, rfl⟩
  edges m _ x b hb := by
    obtain ⟨e, he, rfl⟩ := Graph.mem_of_edge?_eq_some hb
    rw [hedges e he]
    exact fullEdge_relation 1

theorem group_threeAndAll : Group threeAndAll.graph ["a0", "a1", "a2"] := by
  refine group_of_relations (by decide) (fun n hn => ?_) (fun e he => ?_)
  · simp only [List.mem_cons, List.not_mem_nil, or_false] at hn
    rcases hn with rfl | rfl | rfl
    all_goals rfl
  · have hrows : threeAndAll.graph.edges.rows =
        [⟨"a1".toList, "x".toList, relation 1⟩, ⟨"a2".toList, "x".toList, relation 1⟩,
          ⟨"a0".toList, "x".toList, relation 1⟩] := rfl
    rw [hrows] at he
    simp only [List.mem_cons, List.not_mem_nil, or_false] at he
    rcases he with rfl | rfl | rfl
    all_goals rfl

/-- The first node has an edge to every neighbour of the others outside the group. -/
theorem shared_threeAndAll {m y : Str} (hy : y ∉ (["a0", "a1", "a2"] : List Str))
    (hedge : threeAndAll.graph.HasEdge m y) : threeAndAll.graph.HasEdge "a0" y := by
  have hnode : y ∈ (["a0", "a1", "a2"] : List Str) ++ [("x" : Str)] :=
    Graph.hasNode_iff.mp hedge.hasNode.2
  obtain rfl := List.mem_singleton.mp ((List.mem_append.mp hnode).resolve_left hy)
  exact rfl

/-- Where the first node has the edges of the others, the graph is the quotient. -/
theorem quotient_iff_three :
    ∃ s', mergeAlone calmChoice plainEnv ["a0", "a1", "a2"] threeAndAll = (.ok (), s') ∧
      IsQuotient threeAndAll.graph s'.graph "a0" ["a1", "a2"] :=
  (quotient_iff calm_calmChoice plainEnv threeAndAll "a0" ["a1", "a2"] group_threeAndAll).mpr
    (fun _ hy h0 ms _ hms => absurd (shared_threeAndAll hy (mem_adjacent.mp
      (hms ▸ List.mem_append_right ms (List.mem_singleton.mpr rfl))).2) h0)

theorem weight_lost :
    ((mergeAlone calmChoice plainEnv ["a0", "a1", "a2"] threeAndOne).2.graph.edge? "a0" "x").map
        EdgeAttr.weight = some (some 1) ∧
      ¬∃ s', mergeAlone calmChoice plainEnv ["a0", "a1", "a2"] threeAndOne = (.ok (), s') ∧
        IsQuotient threeAndOne.graph s'.graph "a0" ["a1", "a2"] := by
  have hweight : ((mergeAlone calmChoice plainEnv ["a0", "a1", "a2"]
      threeAndOne).2.graph.edge? "a0" "x").map EdgeAttr.weight = some (some 1) := rfl
  refine ⟨hweight, ?_⟩
  rintro ⟨s', hrun, hq⟩
  rw [hrun] at hweight
  obtain ⟨b, hb, hone⟩ := Option.map_eq_some_iff.mp hweight
  have hsum := hq.weight "x" (by decide) b hb
  rw [hone] at hsum
  exact absurd (Option.some.inj hsum) (by decide +kernel)

/-- Where the first node has the edges of the others, the record is complete. -/
theorem record_complete_iff_three :
    ∃ s', mergeAlone calmChoice plainEnv ["a0", "a1", "a2"] threeAndAll = (.ok (), s') ∧
      IsRecorded threeAndAll s' :=
  (record_complete_iff calm_calmChoice plainEnv threeAndAll "a0" ["a1", "a2"]
    group_threeAndAll).mpr
    (fun _ hy h0 ⟨_, _, hedge⟩ => absurd (shared_threeAndAll hy hedge) h0)

theorem new_edge_unrecorded :
    (mergeAlone calmChoice plainEnv ["a0", "a1", "a2"] threeAndOne).2.change.addedUpdatedEdges =
        ∅ ∧
      ¬∃ s', mergeAlone calmChoice plainEnv ["a0", "a1", "a2"] threeAndOne = (.ok (), s') ∧
        IsRecorded threeAndOne s' := by
  have hempty : (mergeAlone calmChoice plainEnv ["a0", "a1", "a2"]
      threeAndOne).2.change.addedUpdatedEdges = ∅ := by decide +kernel
  have hedge : ((mergeAlone calmChoice plainEnv ["a0", "a1", "a2"]
      threeAndOne).2.graph.edge? "a0" "x").isSome = true := rfl
  refine ⟨hempty, ?_⟩
  rintro ⟨s', hrun, hrec⟩
  rw [hrun] at hempty hedge
  obtain ⟨b, hb⟩ := Option.isSome_iff_exists.mp hedge
  have hnew := hrec.updated "a0" "x" b hb (by
    rw [show threeAndOne.graph.edge? "a0" "x" = none from rfl]
    exact fun h => by cases h)
  rw [hempty] at hnew
  exact absurd hnew (Finset.notMem_empty _)

end RagFlow.Resolution
