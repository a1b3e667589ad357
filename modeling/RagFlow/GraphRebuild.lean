import RagFlow.GraphIndex

/-! # Rebuilding a graph without a document

`set_graph` stores one subgraph for each document of a graph, and `rebuild_graph` composes those of
the remaining documents when one of them has been removed.  A stored subgraph is induced by the
nodes of its document: the edge between two such nodes is in it whether the document is a source of
the edge or not.

`rebuildGraph_hasNode` and `rebuildGraph_hasEdge` say which nodes and edges come back, and
`rebuildGraph_iff` when these are the ones that have another source. -/

namespace RagFlow.Graphrag

open Py

/-! ### Nodes and edges of a composition -/

/-- A loop that adds to a set what each element of a list contributes. -/
theorem foldl_iff_exists {σ ρ : Type} (step : σ → ρ → σ) (P : σ → Prop) (Q : ρ → Prop)
    (hstep : ∀ s x, P (step s x) ↔ P s ∨ Q x) (l : List ρ) :
    ∀ s, P (l.foldl step s) ↔ P s ∨ ∃ x ∈ l, Q x := by
  induction l with
  | nil => simp
  | cons x l ih =>
      intro s
      rw [List.foldl_cons, ih, hstep, List.exists_mem_cons_iff, or_assoc]

section compose
variable {g h : KGraph}

theorem hasEdge_mapNodes {f : Str → NodeAttr → NodeAttr} {data : Option (List Str)} {u v : Str} :
    ({ g.mapNodes f with data } : KGraph).HasEdge u v ↔ g.HasEdge u v := Iff.rfl

theorem hasNode_mapNodes {f : Str → NodeAttr → NodeAttr} {data : Option (List Str)} {n : Str} :
    ({ g.mapNodes f with data } : KGraph).HasNode n ↔ g.HasNode n := by
  show ((g.mapNodes f).node? n).isSome ↔ _
  rw [Graph.node?_mapNodes, Option.isSome_map]
  rfl

theorem hasEdge_addEdge {e : Edge Str EdgeAttr} {b : EdgeAttr} {u v : Str} :
    (g.addEdge e.source e.target b).HasEdge u v ↔ g.HasEdge u v ∨ e.key = s(u, v) := by
  unfold Graph.HasEdge Graph.edge?
  rw [Graph.edgeAt_addEdge]
  split_ifs with hkey
  · simp [Edge.key, hkey]
  · have hkey' : ¬e.key = s(u, v) := fun h => hkey h.symm
    simp [hkey']

theorem hasNode_compose {n : Str} : (compose g h).HasNode n ↔ g.HasNode n ∨ h.HasNode n := by
  show (h.edges.rows.foldl composeEdge (h.nodes.rows.foldl composeNode g)).HasNode n ↔ _
  have hnodes := foldl_iff_exists composeNode (fun g => g.HasNode n)
    (fun row => n = row.1) (fun _ _ => Graph.hasNode_setNode) h.nodes.rows g
  have hedges := foldl_iff_exists composeEdge (fun g => g.HasNode n)
    (fun e => n = e.source ∨ n = e.target) (fun _ _ => Graph.hasNode_addEdge) h.edges.rows
    (h.nodes.rows.foldl composeNode g)
  have hmem : h.HasNode n ↔ ∃ row ∈ h.nodes.rows, n = row.1 := by
    rw [Graph.hasNode_iff, List.mem_map]
    simp only [eq_comm]
  -- the ends of the edges of `h` are nodes of `h` already
  have hends : (∃ e ∈ h.edges.rows, n = e.source ∨ n = e.target) → h.HasNode n := by
    rintro ⟨e, he, hn⟩
    exact Graph.hasNode_iff.mpr (h.ends e he n (Sym2.mem_iff.mpr hn))
  rw [hedges, hnodes, ← hmem, or_assoc, or_iff_left_of_imp hends]

theorem hasEdge_compose {u v : Str} :
    (compose g h).HasEdge u v ↔ g.HasEdge u v ∨ h.HasEdge u v := by
  show (h.edges.rows.foldl composeEdge (h.nodes.rows.foldl composeNode g)).HasEdge u v ↔ _
  have hnodes := foldl_iff_exists composeNode (fun g => g.HasEdge u v)
    (fun _ => False) (fun _ _ => (or_iff_left not_false).symm) h.nodes.rows g
  have hedges := foldl_iff_exists composeEdge (fun g => g.HasEdge u v)
    (fun e => e.key = s(u, v)) (fun _ _ => hasEdge_addEdge) h.edges.rows
    (h.nodes.rows.foldl composeNode g)
  rw [hedges, hnodes, ← Graph.hasEdge_iff]
  simp

theorem hasNode_rebuildStep {n : Str} :
    (rebuildStep g h).HasNode n ↔ g.HasNode n ∨ h.HasNode n := by
  rw [← hasNode_compose]
  exact hasNode_mapNodes

theorem hasEdge_rebuildStep {u v : Str} :
    (rebuildStep g h).HasEdge u v ↔ g.HasEdge u v ∨ h.HasEdge u v := by
  rw [← hasEdge_compose]
  exact hasEdge_mapNodes

end compose

/-! ### The stored subgraphs -/

/-- The document is a source of the node. -/
def NodeFrom (g : KGraph) (n source : Str) : Prop :=
  ∃ a sources, g.node? n = some a ∧ a.sourceId = some sources ∧ source ∈ sources

/-- The document is a source of the edge. -/
def EdgeFrom (g : KGraph) (u v source : Str) : Prop :=
  ∃ b sources, g.edge? u v = some b ∧ b.sourceId = some sources ∧ source ∈ sources

theorem any_contains_iff {g : KGraph} {n source : Str} :
    ((g.node? n).bind NodeAttr.sourceId).any (·.contains source) = true ↔ NodeFrom g n source := by
  unfold NodeFrom
  cases g.node? n with
  | none => simp
  | some a =>
      cases hsources : a.sourceId with
      | none => simp [hsources]
      | some sources => simp [hsources]

theorem NodeFrom.hasNode {g : KGraph} {n source : Str} (h : NodeFrom g n source) : g.HasNode n := by
  obtain ⟨a, _, ha, -⟩ := h
  unfold Graph.HasNode
  rw [ha]
  rfl

section documentSubgraph
variable {g h : KGraph} {source : Str} (hsub : documentSubgraph g source = .ok h)
include hsub

theorem hasNode_documentSubgraph {n : Str} : h.HasNode n ↔ NodeFrom g n source := by
  unfold documentSubgraph at hsub
  split_ifs at hsub
  cases hsub
  refine Iff.trans hasNode_mapNodes ?_
  unfold Graph.HasNode
  rw [Graph.node?_restrict]
  split_ifs with hfrom
  · exact iff_of_true (any_contains_iff.mp hfrom).hasNode (any_contains_iff.mp hfrom)
  · exact iff_of_false (by simp) (fun hn => hfrom (any_contains_iff.mpr hn))

theorem hasEdge_documentSubgraph {u v : Str} :
    h.HasEdge u v ↔ g.HasEdge u v ∧ NodeFrom g u source ∧ NodeFrom g v source := by
  unfold documentSubgraph at hsub
  split_ifs at hsub
  cases hsub
  refine Iff.trans hasEdge_mapNodes ?_
  unfold Graph.HasEdge
  rw [Graph.edge?_restrict, ← any_contains_iff, ← any_contains_iff, ← Bool.and_eq_true]
  split_ifs with hfrom
  · simp only [hfrom, and_true]
  · simp only [hfrom, and_false, Option.isSome_none, Bool.false_eq_true]

end documentSubgraph

/-! ### What comes back -/

section rebuild
variable {env : IndexEnv} {g : KGraph} {change : GraphChange} {order : change.Order}
  {idx idx' : Index env}

/-- The subgraphs in the index after `set_graph`: one for each document. -/
theorem subgraphs_setGraph (h : setGraph env g order idx = .ok idx') :
    ∃ sources, ∃ sub : Str → KGraph, g.data = some sources ∧
      (∀ s ∈ sources, documentSubgraph g s = .ok (sub s)) ∧
      idx'.subgraphs = sources.map (fun s => (sub s, [s])) := by
  obtain ⟨chunks, hchunks, rfl⟩ := setGraph_eq_ok h
  obtain ⟨sources, subgraphs, entities, relations, hins⟩ := newChunks_eq_ok hchunks
  have hold : (clearGraph change idx).bodies.filterMap ChunkBody.subgraph? = [] := by
    rw [List.filterMap_eq_nil_iff]
    intro b hb
    rw [bodies_clearGraph] at hb
    have hgraph := (List.mem_filter.mp (List.mem_filter.mp (List.mem_filter.mp hb).1).1).2
    cases b with
    | graph => rfl
    | subgraph => cases hgraph
    | entity => rfl
    | relation => rfl
  let sub (s : Str) : KGraph := (documentSubgraph g s).toOption.getD emptyGraph
  have hsub : ∀ s ∈ sources, documentSubgraph g s = .ok (sub s) := by
    intro s hs
    have hmem : documentSubgraph g s ∈ subgraphs.map Except.ok := by
      rw [← hins.subgraphs_ok]
      exact List.mem_map_of_mem hs
    obtain ⟨x, -, hx⟩ := List.mem_map.mp hmem
    show _ = Except.ok ((documentSubgraph g s).toOption.getD emptyGraph)
    rw [← hx]
    rfl
  have hlist : subgraphs = sources.map sub := by
    have hmap : (sources.map sub).map (Except.ok : KGraph → Except KeyError KGraph) =
        subgraphs.map Except.ok := by
      rw [← hins.subgraphs_ok, List.map_map]
      exact List.map_congr_left (fun s hs => (hsub s hs).symm)
    exact (List.map_injective_iff.mpr (fun _ _ h => Except.ok.inj h) hmap).symm
  refine ⟨sources, sub, hins.data, hsub, ?_⟩
  unfold Index.subgraphs
  rw [Index.bodies_insertAll, List.filterMap_append, hold, hins.subgraph?, hlist, List.nil_append,
    List.zip_eq_zipWith, List.zipWith_map_right, List.zipWith_self, List.map_map]
  rfl

/-- The rebuilt graph; there is none if no node is left. -/
def Index.rebuilt (idx : Index env) (exclude : List Str) : KGraph :=
  (rebuildGraph idx exclude).getD emptyGraph

/-- The documents whose subgraphs `rebuild_graph` composes. -/
def remaining (sources : List Str) (d : Str) : List Str :=
  (sources.take maxSubgraphs).filter (· ≠ d)

/-- The composition of the subgraphs that are not excluded. -/
def Index.composition (idx : Index env) (exclude : List Str) : KGraph :=
  (((idx.subgraphs.take maxSubgraphs).filter (fun x => !exclude.any (x.2.contains ·))).map
    Prod.fst).foldl rebuildStep emptyGraph

theorem rebuilt_eq (idx : Index env) (exclude : List Str) :
    ((idx.composition exclude).nodes.rows = [] ∧ idx.rebuilt exclude = emptyGraph) ∨
      ∃ data, idx.rebuilt exclude = { idx.composition exclude with data } := by
  have hdef : rebuildGraph idx exclude =
      if (idx.composition exclude).nodes.rows.isEmpty then none
      else some { idx.composition exclude with
        data := some (((idx.composition exclude).data.getD []).insertionSort (· ≤ ·)) } := rfl
  unfold Index.rebuilt
  rw [hdef]
  split_ifs with hempty
  · exact .inl ⟨List.isEmpty_iff.mp hempty, rfl⟩
  · exact .inr ⟨_, rfl⟩

theorem hasNode_rebuilt {exclude : List Str} {n : Str} :
    (idx.rebuilt exclude).HasNode n ↔ (idx.composition exclude).HasNode n := by
  rcases rebuilt_eq idx exclude with ⟨hempty, heq⟩ | ⟨data, heq⟩
  · rw [heq]
    refine iff_of_false (by rintro ⟨⟩) (fun hn => ?_)
    rw [Graph.hasNode_iff, hempty] at hn
    cases hn
  · rw [heq]
    exact Iff.rfl

theorem hasEdge_rebuilt {exclude : List Str} {u v : Str} :
    (idx.rebuilt exclude).HasEdge u v ↔ (idx.composition exclude).HasEdge u v := by
  rcases rebuilt_eq idx exclude with ⟨hempty, heq⟩ | ⟨data, heq⟩
  · rw [heq]
    refine iff_of_false (by rintro ⟨⟩) (fun hedge => ?_)
    have hn := hedge.hasNode.1
    rw [Graph.hasNode_iff, hempty] at hn
    cases hn
  · rw [heq]
    exact Iff.rfl

theorem composition_setGraph {d : Str} (h : setGraph env g order idx = .ok idx') :
    ∃ sources, ∃ sub : Str → KGraph, g.data = some sources ∧
      (∀ s ∈ sources, documentSubgraph g s = .ok (sub s)) ∧
      idx'.composition [d] = ((remaining sources d).map sub).foldl rebuildStep emptyGraph := by
  obtain ⟨sources, sub, hdata, hsub, hsubgraphs⟩ := subgraphs_setGraph h
  refine ⟨sources, sub, hdata, hsub, ?_⟩
  unfold Index.composition remaining
  rw [hsubgraphs, ← List.map_take, List.filter_map, List.map_map]
  have hfilter : (fun x : KGraph × List Str => !([d] : List Str).any (x.2.contains ·)) ∘
      (fun s => (sub s, [s])) = fun s => decide (s ≠ d) := by
    funext s
    simp [eq_comm]
  rw [hfilter]
  rfl

theorem mem_of_mem_remaining {sources : List Str} {s d : Str} (h : s ∈ remaining sources d) :
    s ∈ sources := List.mem_of_mem_take (List.mem_filter.mp h).1

/-- The nodes that come back: those of the remaining documents. -/
theorem rebuildGraph_hasNode (h : setGraph env g order idx = .ok idx') {sources : List Str}
    (hdata : g.data = some sources) (d n : Str) :
    (idx'.rebuilt [d]).HasNode n ↔ ∃ s ∈ remaining sources d, NodeFrom g n s := by
  obtain ⟨sources', sub, hdata', hsub, hcomp⟩ := composition_setGraph (d := d) h
  cases hdata.symm.trans hdata'
  have hfold := foldl_iff_exists (fun g s => rebuildStep g (sub s)) (fun g => g.HasNode n)
    (fun s => (sub s).HasNode n) (fun _ _ => hasNode_rebuildStep) (remaining sources d) emptyGraph
  rw [hasNode_rebuilt, hcomp, List.foldl_map, hfold]
  rw [or_iff_right (show ¬emptyGraph.HasNode n by rintro ⟨⟩)]
  refine exists_congr (fun s => and_congr_right (fun hs => ?_))
  exact hasNode_documentSubgraph (hsub s (mem_of_mem_remaining hs))

/-- The edges that come back: those between two nodes of one of the remaining documents. -/
theorem rebuildGraph_hasEdge (h : setGraph env g order idx = .ok idx') {sources : List Str}
    (hdata : g.data = some sources) (d u v : Str) :
    (idx'.rebuilt [d]).HasEdge u v ↔
      g.HasEdge u v ∧ ∃ s ∈ remaining sources d, NodeFrom g u s ∧ NodeFrom g v s := by
  obtain ⟨sources', sub, hdata', hsub, hcomp⟩ := composition_setGraph (d := d) h
  cases hdata.symm.trans hdata'
  have hfold := foldl_iff_exists (fun g s => rebuildStep g (sub s)) (fun g => g.HasEdge u v)
    (fun s => (sub s).HasEdge u v) (fun _ _ => hasEdge_rebuildStep) (remaining sources d) emptyGraph
  rw [hasEdge_rebuilt, hcomp, List.foldl_map, hfold]
  rw [or_iff_right (show ¬emptyGraph.HasEdge u v by rintro ⟨⟩)]
  have hone : ∀ s ∈ remaining sources d, ((sub s).HasEdge u v ↔
      g.HasEdge u v ∧ NodeFrom g u s ∧ NodeFrom g v s) :=
    fun s hs => hasEdge_documentSubgraph (hsub s (mem_of_mem_remaining hs))
  constructor
  · rintro ⟨s, hs, hedge⟩
    exact ⟨((hone s hs).mp hedge).1, s, hs, ((hone s hs).mp hedge).2⟩
  · rintro ⟨hedge, s, hs, hfrom⟩
    exact ⟨s, hs, (hone s hs).mpr ⟨hedge, hfrom⟩⟩

/-- The rebuilt graph has the nodes and edges that have another source than `d`, and no other. -/
structure KeepsOthers (g : KGraph) (d : Str) (rebuilt : KGraph) : Prop where
  nodes : ∀ n, rebuilt.HasNode n ↔ ∃ s ≠ d, NodeFrom g n s
  edges : ∀ u v, rebuilt.HasEdge u v ↔ ∃ s ≠ d, EdgeFrom g u v s

/-- The sources of an edge follow from those of its ends: it has one other than `d` exactly if its
ends have a remaining document in common. -/
structure SharedByEnds (g : KGraph) (sources : List Str) (d : Str) : Prop where
  nodes : ∀ n, ∀ s ≠ d, NodeFrom g n s → ∃ s' ∈ remaining sources d, NodeFrom g n s'
  edges : ∀ u v, g.HasEdge u v → ((∃ s ≠ d, EdgeFrom g u v s) ↔
    ∃ s ∈ remaining sources d, NodeFrom g u s ∧ NodeFrom g v s)

theorem EdgeFrom.hasEdge {u v source : Str} (h : EdgeFrom g u v source) : g.HasEdge u v := by
  obtain ⟨b, _, hb, -⟩ := h
  unfold Graph.HasEdge
  rw [hb]
  rfl

theorem rebuildGraph_iff (h : setGraph env g order idx = .ok idx') {sources : List Str}
    (hdata : g.data = some sources) (d : Str) :
    KeepsOthers g d (idx'.rebuilt [d]) ↔ SharedByEnds g sources d := by
  have hne : ∀ s ∈ remaining sources d, s ≠ d :=
    fun s hs => of_decide_eq_true (List.mem_filter.mp hs).2
  constructor
  · intro hkeeps
    refine ⟨fun n s hs hfrom => ?_, fun u v hedge => ?_⟩
    · rw [← rebuildGraph_hasNode h hdata]
      exact (hkeeps.nodes n).mpr ⟨s, hs, hfrom⟩
    · rw [← hkeeps.edges, rebuildGraph_hasEdge h hdata]
      exact and_iff_right hedge
  · intro hshared
    refine ⟨fun n => ?_, fun u v => ?_⟩
    · rw [rebuildGraph_hasNode h hdata]
      constructor
      · rintro ⟨s, hs, hfrom⟩
        exact ⟨s, hne s hs, hfrom⟩
      · rintro ⟨s, hs, hfrom⟩
        exact hshared.nodes n s hs hfrom
    · rw [rebuildGraph_hasEdge h hdata]
      constructor
      · rintro ⟨hedge, hends⟩
        exact (hshared.edges u v hedge).mpr hends
      · rintro ⟨s, hs, hfrom⟩
        exact ⟨hfrom.hasEdge, (hshared.edges u v hfrom.hasEdge).mp ⟨s, hs, hfrom⟩⟩

end rebuild

/-! Two documents speak of the same two entities, and the first one only of their relation. -/

/-- The merged graph. -/
def overlapGraph : KGraph :=
  let node : NodeAttr := { description := some "cat", sourceId := some ["d1", "d2"] }
  { ((emptyGraph.setNode "ada" node).setNode "bob" node).addEdge "ada" "bob"
      { weight := some 1, description := some "run", keywords := some ["run"],
        sourceId := some ["d1"] } with
    data := some ["d1", "d2"] }

theorem exists_overlap_stored (order : ({} : GraphChange).Order) :
    ∃ idx' : Index exampleEnv, setGraph exampleEnv overlapGraph order Index.empty = .ok idx' := by
  have hstorable : Storable exampleEnv ⟨overlapGraph, {}⟩ :=
    ⟨by decide, by decide, by decide, by decide⟩
  exact exists_setGraph_eq_ok hstorable order _

theorem overlap_sources {u v : Str} {b : EdgeAttr} (h : overlapGraph.edge? u v = some b) :
    b.sourceId = some ["d1".toList] := by
  obtain ⟨e, he, rfl⟩ := Graph.mem_of_edge?_eq_some h
  rw [List.mem_singleton.mp he]

theorem overlap_nodeFrom {n s : Str} : NodeFrom overlapGraph n s ↔
    overlapGraph.HasNode n ∧ (s = "d1" ∨ s = "d2") := by
  have hsources : ∀ x ∈ overlapGraph.nodes.rows,
      x.2.sourceId = some ["d1".toList, "d2".toList] := by
    decide
  constructor
  · rintro ⟨a, sources, ha, hsource, hs⟩
    have ha' := hsources _ (Graph.mem_of_node?_eq_some ha)
    cases hsource.symm.trans ha'
    refine ⟨Option.isSome_iff_exists.mpr ⟨a, ha⟩, ?_⟩
    simpa using hs
  · rintro ⟨hn, hs⟩
    obtain ⟨a, ha⟩ := Option.isSome_iff_exists.mp hn
    exact ⟨a, _, ha, hsources _ (Graph.mem_of_node?_eq_some ha), by simpa using hs⟩

theorem rebuildGraph_without_second :
    ∃ (order : ({} : GraphChange).Order) (idx' : Index exampleEnv),
    setGraph exampleEnv overlapGraph order Index.empty = .ok idx' ∧
    KeepsOthers overlapGraph "d2" (idx'.rebuilt ["d2"]) := by
  obtain ⟨order⟩ := exists_order {}
  obtain ⟨idx', h⟩ := exists_overlap_stored order
  refine ⟨order, idx', h, (rebuildGraph_iff h rfl "d2").mpr ?_⟩
  have hmem : "d1".toList ∈ remaining ["d1", "d2"] "d2" := by decide
  refine ⟨fun n s _ hfrom => ?_, fun u v hedge => ?_⟩
  · exact ⟨"d1", hmem, overlap_nodeFrom.mpr ⟨hfrom.hasNode, .inl rfl⟩⟩
  · obtain ⟨hu, hv⟩ := hedge.hasNode
    refine iff_of_true ⟨"d1", by decide, ?_⟩
      ⟨"d1", hmem, overlap_nodeFrom.mpr ⟨hu, .inl rfl⟩, overlap_nodeFrom.mpr ⟨hv, .inl rfl⟩⟩
    obtain ⟨b, hb⟩ := Option.isSome_iff_exists.mp hedge
    exact ⟨b, ["d1".toList], hb, overlap_sources hb, List.mem_singleton_self _⟩

theorem rebuildGraph_keeps_removed_edge :
    ¬∀ (env : IndexEnv) (g : KGraph) (change : GraphChange) (order : change.Order)
      (idx idx' : Index env) (sources : List Str) (d : Str),
      setGraph env g order idx = .ok idx' → g.data = some sources → d ∈ sources →
      KeepsOthers g d (idx'.rebuilt [d]) := by
  intro hall
  obtain ⟨order⟩ := exists_order {}
  obtain ⟨idx', h⟩ := exists_overlap_stored order
  have hkeeps := hall _ _ _ order _ idx' ["d1", "d2"] "d1" h rfl (by decide)
  have hmem : "d2".toList ∈ remaining ["d1", "d2"] "d1" := by decide
  have hedge : (idx'.rebuilt ["d1"]).HasEdge "ada" "bob" :=
    (rebuildGraph_hasEdge h rfl "d1" "ada" "bob").mpr ⟨by decide, "d2", hmem,
      overlap_nodeFrom.mpr ⟨by decide, .inr rfl⟩, overlap_nodeFrom.mpr ⟨by decide, .inr rfl⟩⟩
  obtain ⟨s, hs, b, sources, hb, hsources, hin⟩ := (hkeeps.edges "ada" "bob").mp hedge
  rw [overlap_sources hb] at hsources
  cases hsources
  exact hs (List.mem_singleton.mp hin)

end RagFlow.Graphrag
