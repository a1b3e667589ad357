import Mathlib.Data.Char
import Mathlib.Data.List.Lex
import RagFlow.Graph
import RagFlow.PyVal

/-! # Merging one knowledge graph into another

`graph_merge` of `rag/graphrag/utils.py`: the nodes of the second graph, then its edges, then the
ranks, and the record of what has been touched.  Attributes are dictionaries; the entries the
code reads may be missing, and then it raises `KeyError`.  The remaining entries of a node or an
edge are carried along.

`graphMerge_spec` says what the first graph is afterwards.  The two loops are instances of one
rule about loops that merge rows into a store (`foldlM_merges`). -/

namespace RagFlow.Graphrag

open Py

/-- `GRAPH_FIELD_SEP`. -/
def graphFieldSep : Str := "<SEP>"

/-- The attributes of a node. -/
structure NodeAttr where
  description : Option Str := none
  sourceId : Option (List Str) := none
  rank : Option ℕ := none
  other : List (Str × PyVal) := []

instance : Inhabited NodeAttr := ⟨{}⟩

/-- The attributes of an edge. -/
structure EdgeAttr where
  weight : Option ℚ := none
  description : Option Str := none
  keywords : Option (List Str) := none
  sourceId : Option (List Str) := none
  other : List (Str × PyVal) := []

/-- A knowledge graph; the data of the graph itself is its `source_id`. -/
abbrev KGraph := Graph Str NodeAttr EdgeAttr (Option (List Str))

structure GraphChange where
  removedNodes : Finset Str := ∅
  addedUpdatedNodes : Finset Str := ∅
  removedEdges : Finset (Str × Str) := ∅
  addedUpdatedEdges : Finset (Str × Str) := ∅

inductive KeyError where
  | missing (key : Str)
deriving DecidableEq

/-- `attrs[key]`. -/
def entry {α : Type} (key : Str) : Option α → Except KeyError α
  | some a => .ok a
  | none => .error (.missing key)

/-- `get_from_to`. -/
def getFromTo (node1 node2 : Str) : Str × Str :=
  if node1 < node2 then (node1, node2) else (node2, node1)

/-- The pair of an edge does not depend on the orientation in which it is presented. -/
theorem getFromTo_comm (u v : Str) : getFromTo u v = getFromTo v u := by
  unfold getFromTo
  rcases lt_trichotomy u v with h | rfl | h
  · rw [if_pos h, if_neg (lt_asymm h)]
  · rfl
  · rw [if_neg (lt_asymm h), if_pos h]

/-! ### `dict.update` -/

/-- `dict.update` on association lists: the entries of `b` replace those of `a`. -/
def updateEntries (a b : List (Str × PyVal)) : List (Str × PyVal) :=
  a.filter (fun x => !(b.map Prod.fst).contains x.1) ++ b

def NodeAttr.update (a b : NodeAttr) : NodeAttr where
  description := b.description <|> a.description
  sourceId := b.sourceId <|> a.sourceId
  rank := b.rank <|> a.rank
  other := updateEntries a.other b.other

def EdgeAttr.update (a b : EdgeAttr) : EdgeAttr where
  weight := b.weight <|> a.weight
  description := b.description <|> a.description
  keywords := b.keywords <|> a.keywords
  sourceId := b.sourceId <|> a.sourceId
  other := updateEntries a.other b.other

/-! ### The attributes of an element in both graphs -/

/-- `d1 + GRAPH_FIELD_SEP + d2`. -/
def joinDescriptions (d1 d2 : Str) : Str := d1 ++ graphFieldSep ++ d2

/-- What the first loop does to the attributes of a node that is in both graphs. -/
def NodeAttr.extend (node attr : NodeAttr) : Except KeyError NodeAttr := do
  let d1 ← entry "description" node.description
  let d2 ← entry "description" attr.description
  let s1 ← entry "source_id" node.sourceId
  let s2 ← entry "source_id" attr.sourceId
  pure { node with description := some (joinDescriptions d1 d2), sourceId := some (s1 ++ s2) }

/-- What the second loop does to the attributes of an edge that is in both graphs. -/
def EdgeAttr.extend (edge attr : EdgeAttr) : Except KeyError EdgeAttr := do
  let w1 ← entry "weight" edge.weight
  let d1 ← entry "description" edge.description
  let d2 ← entry "description" attr.description
  let k1 ← entry "keywords" edge.keywords
  let k2 ← entry "keywords" attr.keywords
  let s1 ← entry "source_id" edge.sourceId
  let s2 ← entry "source_id" attr.sourceId
  pure { edge with
    weight := some (w1 + attr.weight.getD 0)
    description := some (joinDescriptions d1 d2)
    keywords := some (k1 ++ k2)
    sourceId := some (s1 ++ s2) }

/-! ### `graph_merge` -/

/-- The first graph and the record, while they are changed. -/
structure Merging where
  graph : KGraph
  change : GraphChange

/-- One round of the loop over the nodes. -/
def mergeNode (m : Merging) (row : Str × NodeAttr) : Except KeyError Merging :=
  let change := { m.change with addedUpdatedNodes := insert row.1 m.change.addedUpdatedNodes }
  match m.graph.node? row.1 with
  | none => pure ⟨m.graph.setNode row.1 row.2, change⟩
  | some node => do
      let node ← node.extend row.2
      pure ⟨m.graph.setNode row.1 node, change⟩

/-- One round of the loop over the edges. -/
def mergeEdge (m : Merging) (e : Edge Str EdgeAttr) : Except KeyError Merging :=
  let change := { m.change with
    addedUpdatedEdges := insert (getFromTo e.source e.target) m.change.addedUpdatedEdges }
  match m.graph.edge? e.source e.target with
  | none => pure ⟨m.graph.addEdge e.source e.target e.attr, change⟩
  | some edge => do
      let edge ← edge.extend e.attr
      pure ⟨m.graph.addEdge e.source e.target edge, change⟩

/-- The loop over the degrees. -/
def setRanks (g : KGraph) : KGraph := g.mapNodes (fun n a => { a with rank := some (g.degree n) })

/-- `graph_merge`. -/
def graphMerge (g1 g2 : KGraph) (change : GraphChange) : Except KeyError Merging := do
  let m ← g2.nodes.rows.foldlM mergeNode ⟨g1, change⟩
  let m ← g2.edges.rows.foldlM mergeEdge m
  let g := setRanks m.graph
  pure ⟨{ g with data := some (g.data.getD [] ++ g2.data.getD []) }, m.change⟩

/-! ### What the first graph is afterwards -/

/-- The node has the entries that the merge reads. -/
def NodeAttr.Complete (a : NodeAttr) : Prop := a.description.isSome ∧ a.sourceId.isSome

/-- The edge has the entries that the merge reads in both graphs. -/
def EdgeAttr.Complete (a : EdgeAttr) : Prop :=
  a.description.isSome ∧ a.keywords.isSome ∧ a.sourceId.isSome

instance (a : NodeAttr) : Decidable a.Complete := inferInstanceAs (Decidable (_ ∧ _))

instance (a : EdgeAttr) : Decidable a.Complete := inferInstanceAs (Decidable (_ ∧ _ ∧ _))

/-- Nodes and edges that are in both graphs have the entries that are read; the weight is read in
the first graph only, and is `0` if it is missing in the second. -/
structure Mergeable (g1 g2 : KGraph) : Prop where
  nodes : ∀ n a b, g1.node? n = some a → g2.node? n = some b → a.Complete ∧ b.Complete
  edges : ∀ u v a b, g1.edge? u v = some a → g2.edge? u v = some b →
    a.Complete ∧ a.weight.isSome ∧ b.Complete

/-- Graphs all of whose nodes and edges have the entries that are read. -/
theorem mergeable_of_complete {g1 g2 : KGraph} (hn1 : ∀ x ∈ g1.nodes.rows, x.2.Complete)
    (hn2 : ∀ x ∈ g2.nodes.rows, x.2.Complete)
    (he1 : ∀ e ∈ g1.edges.rows, e.attr.Complete ∧ e.attr.weight.isSome)
    (he2 : ∀ e ∈ g2.edges.rows, e.attr.Complete) : Mergeable g1 g2 := by
  refine ⟨fun n a b ha hb => ?_, fun u v a b ha hb => ?_⟩
  · exact ⟨hn1 _ (Graph.mem_of_node?_eq_some ha), hn2 _ (Graph.mem_of_node?_eq_some hb)⟩
  · obtain ⟨e, he, rfl⟩ := Graph.mem_of_edge?_eq_some ha
    obtain ⟨e', he', rfl⟩ := Graph.mem_of_edge?_eq_some hb
    exact ⟨(he1 e he).1, (he1 e he).2, he2 e' he'⟩

/-- The graph `g` is the union of `g1` and `g2`.  An element of one of them keeps its attributes, a
node with its rank apart; those of an element in both are combined entry by entry. -/
structure IsUnion (g1 g2 g : KGraph) : Prop where
  hasNode : ∀ n, g.HasNode n ↔ g1.HasNode n ∨ g2.HasNode n
  hasEdge : ∀ u v, g.HasEdge u v ↔ g1.HasEdge u v ∨ g2.HasEdge u v
  rank : ∀ n a, g.node? n = some a → a.rank = some (g.degree n)
  node_left : ∀ n a, g1.node? n = some a → g2.node? n = none →
    g.node? n = some { a with rank := some (g.degree n) }
  node_right : ∀ n b, g1.node? n = none → g2.node? n = some b →
    g.node? n = some { b with rank := some (g.degree n) }
  node_both : ∀ n a b d1 d2 s1 s2, g1.node? n = some a → g2.node? n = some b →
    a.description = some d1 → b.description = some d2 →
    a.sourceId = some s1 → b.sourceId = some s2 →
    g.node? n = some { a with
      description := some (d1 ++ graphFieldSep ++ d2)
      sourceId := some (s1 ++ s2)
      rank := some (g.degree n) }
  edge_left : ∀ u v a, g1.edge? u v = some a → g2.edge? u v = none → g.edge? u v = some a
  edge_right : ∀ u v b, g1.edge? u v = none → g2.edge? u v = some b → g.edge? u v = some b
  edge_both : ∀ u v a b w1 d1 d2 k1 k2 s1 s2, g1.edge? u v = some a → g2.edge? u v = some b →
    a.weight = some w1 → a.description = some d1 → b.description = some d2 →
    a.keywords = some k1 → b.keywords = some k2 → a.sourceId = some s1 → b.sourceId = some s2 →
    g.edge? u v = some { a with
      weight := some (w1 + b.weight.getD 0)
      description := some (d1 ++ graphFieldSep ++ d2)
      keywords := some (k1 ++ k2)
      sourceId := some (s1 ++ s2) }
  sourceId : g.data = some (g1.data.getD [] ++ g2.data.getD [])

/-- The record gains the nodes of `g2` and the pairs of its edges, and nothing else. -/
structure Gains (g2 : KGraph) (change change' : GraphChange) : Prop where
  nodes : ∀ n, n ∈ change'.addedUpdatedNodes ↔ n ∈ change.addedUpdatedNodes ∨ g2.HasNode n
  edges : ∀ p, p ∈ change'.addedUpdatedEdges ↔
    p ∈ change.addedUpdatedEdges ∨ ∃ u v, g2.HasEdge u v ∧ p = getFromTo u v
  removedNodes : change'.removedNodes = change.removedNodes
  removedEdges : change'.removedEdges = change.removedEdges

/-- The attributes of a node in both graphs. -/
def NodeAttr.join (a b : NodeAttr) : NodeAttr :=
  { a with
    description := some (joinDescriptions (a.description.getD []) (b.description.getD []))
    sourceId := some (a.sourceId.getD [] ++ b.sourceId.getD []) }

/-- The attributes of an edge in both graphs. -/
def EdgeAttr.join (a b : EdgeAttr) : EdgeAttr :=
  { a with
    weight := some (a.weight.getD 0 + b.weight.getD 0)
    description := some (joinDescriptions (a.description.getD []) (b.description.getD []))
    keywords := some (a.keywords.getD [] ++ b.keywords.getD [])
    sourceId := some (a.sourceId.getD [] ++ b.sourceId.getD []) }

theorem NodeAttr.extend_eq_ok {a b : NodeAttr} (ha : a.Complete) (hb : b.Complete) :
    a.extend b = .ok (a.join b) := by
  obtain ⟨d1, hd1⟩ := Option.isSome_iff_exists.mp ha.1
  obtain ⟨s1, hs1⟩ := Option.isSome_iff_exists.mp ha.2
  obtain ⟨d2, hd2⟩ := Option.isSome_iff_exists.mp hb.1
  obtain ⟨s2, hs2⟩ := Option.isSome_iff_exists.mp hb.2
  simp only [extend, join, hd1, hs1, hd2, hs2, entry, Option.getD_some]
  rfl

theorem EdgeAttr.extend_eq_ok {a b : EdgeAttr} (ha : a.Complete) (hw : a.weight.isSome)
    (hb : b.Complete) : a.extend b = .ok (a.join b) := by
  obtain ⟨w1, hw1⟩ := Option.isSome_iff_exists.mp hw
  obtain ⟨d1, hd1⟩ := Option.isSome_iff_exists.mp ha.1
  obtain ⟨k1, hk1⟩ := Option.isSome_iff_exists.mp ha.2.1
  obtain ⟨s1, hs1⟩ := Option.isSome_iff_exists.mp ha.2.2
  obtain ⟨d2, hd2⟩ := Option.isSome_iff_exists.mp hb.1
  obtain ⟨k2, hk2⟩ := Option.isSome_iff_exists.mp hb.2.1
  obtain ⟨s2, hs2⟩ := Option.isSome_iff_exists.mp hb.2.2
  simp only [extend, join, hw1, hd1, hk1, hs1, hd2, hk2, hs2, entry, Option.getD_some]
  rfl

/-! ### The loops -/

theorem mergeNode_eq_ok {m m' : Merging} {row : Str × NodeAttr} (h : mergeNode m row = .ok m') :
    ∃ a, m'.graph = m.graph.setNode row.1 a ∧ m'.change = { m.change with
      addedUpdatedNodes := insert row.1 m.change.addedUpdatedNodes } := by
  unfold mergeNode at h
  simp only at h
  split at h
  · cases h
    exact ⟨_, rfl, rfl⟩
  · next node _ =>
      cases hext : node.extend row.2 with
      | error e =>
          rw [hext] at h
          cases h
      | ok a =>
          rw [hext] at h
          cases h
          exact ⟨_, rfl, rfl⟩

theorem mergeNode_look (m : Merging) (row : Str × NodeAttr)
    (h : ∀ a, m.graph.node? row.1 = some a → a.Complete ∧ row.2.Complete) :
    ∃ m', mergeNode m row = .ok m' ∧ ∀ n, m'.graph.node? n =
      if n = row.1 then (m.graph.node? n).merge NodeAttr.join (some row.2)
      else m.graph.node? n := by
  unfold mergeNode
  simp only
  cases hnode : m.graph.node? row.1 with
  | none =>
      refine ⟨_, rfl, fun n => ?_⟩
      rw [Graph.node?_setNode]
      split_ifs with hn
      · rw [hn, hnode]
        rfl
      · rfl
  | some node =>
      obtain ⟨ha, hb⟩ := h node hnode
      simp only [NodeAttr.extend_eq_ok ha hb]
      refine ⟨_, rfl, fun n => ?_⟩
      rw [Graph.node?_setNode]
      split_ifs with hn
      · rw [hn, hnode]
        rfl
      · rfl

theorem mergeEdge_eq_ok {m m' : Merging} {e : Edge Str EdgeAttr} (h : mergeEdge m e = .ok m') :
    ∃ b, m'.graph = m.graph.addEdge e.source e.target b ∧ m'.change = { m.change with
      addedUpdatedEdges := insert (getFromTo e.source e.target) m.change.addedUpdatedEdges } := by
  unfold mergeEdge at h
  simp only at h
  split at h
  · cases h
    exact ⟨_, rfl, rfl⟩
  · next edge _ =>
      cases hext : edge.extend e.attr with
      | error e =>
          rw [hext] at h
          cases h
      | ok a =>
          rw [hext] at h
          cases h
          exact ⟨_, rfl, rfl⟩

theorem mergeEdge_look (m : Merging) (e : Edge Str EdgeAttr)
    (h : ∀ a, m.graph.edgeAt e.key = some a → a.Complete ∧ a.weight.isSome ∧ e.attr.Complete) :
    ∃ m', mergeEdge m e = .ok m' ∧ ∀ k, m'.graph.edgeAt k =
      if k = e.key then (m.graph.edgeAt k).merge EdgeAttr.join (some e.attr)
      else m.graph.edgeAt k := by
  unfold mergeEdge
  simp only
  have hedge? : m.graph.edge? e.source e.target = m.graph.edgeAt e.key := rfl
  rw [hedge?]
  cases hedge : m.graph.edgeAt e.key with
  | none =>
      refine ⟨_, rfl, fun k => ?_⟩
      rw [Graph.edgeAt_addEdge]
      show (if k = e.key then _ else _) = _
      split_ifs with hk
      · rw [hk, hedge]
        rfl
      · rfl
  | some edge =>
      obtain ⟨ha, hw, hb⟩ := h edge hedge
      simp only [EdgeAttr.extend_eq_ok ha hw hb]
      refine ⟨_, rfl, fun k => ?_⟩
      rw [Graph.edgeAt_addEdge]
      show (if k = e.key then _ else _) = _
      split_ifs with hk
      · rw [hk, hedge]
        rfl
      · rfl

/-- The loop over the nodes. -/
theorem mergeNodes_spec {g1 g2 : KGraph} (h : Mergeable g1 g2) (change : GraphChange) :
    ∃ m, g2.nodes.rows.foldlM mergeNode ⟨g1, change⟩ = .ok m ∧
      (∀ n, m.graph.node? n = (g1.node? n).merge NodeAttr.join (g2.node? n)) ∧
      (m.graph.edges = g1.edges ∧ m.graph.data = g1.data) ∧ m.change = { change with
        addedUpdatedNodes :=
          change.addedUpdatedNodes ∪ (g2.nodes.rows.map Prod.fst).toFinset } := by
  have hfits : ∀ row ∈ g2.nodes.rows, ∀ a, g1.node? row.1 = some a →
      a.Complete ∧ row.2.Complete := by
    intro row hrow a ha
    exact h.nodes row.1 a row.2 ha (Graph.node?_of_mem hrow)
  obtain ⟨m, hrun, hlook⟩ := foldlM_merges (s := (⟨g1, change⟩ : Merging)) Prod.fst Prod.snd
    (fun m n => m.graph.node? n) NodeAttr.join (fun a b => a.Complete ∧ b.Complete)
    mergeNode_look g2.nodes.nodup hfits
  have hkeeps := foldlM_keeps (P := fun m => (m.graph.edges = g1.edges ∧ m.graph.data = g1.data) ∧
      m.change = { change with addedUpdatedNodes := m.change.addedUpdatedNodes })
    (fun row _ m m' hm hstep => by
      obtain ⟨a, hgraph, hchange⟩ := mergeNode_eq_ok hstep
      rw [hgraph, hchange]
      exact ⟨hm.1, by rw [hm.2]⟩) ⟨⟨rfl, rfl⟩, rfl⟩ hrun
  have hcollects := foldlM_collects (f := fun m : Merging => m.change.addedUpdatedNodes)
    (fun m row m' hstep => by
      obtain ⟨a, -, hchange⟩ := mergeNode_eq_ok hstep
      rw [hchange]) hrun
  refine ⟨m, hrun, hlook, hkeeps.1, ?_⟩
  rw [hkeeps.2, hcollects]

/-- The loop over the edges, with the nodes of the second graph already there. -/
theorem mergeEdges_spec {g1 g2 : KGraph} (h : Mergeable g1 g2) {m : Merging}
    (hedges : m.graph.edges = g1.edges)
    (hnodes : ∀ n, g2.HasNode n → m.graph.HasNode n) :
    ∃ m', g2.edges.rows.foldlM mergeEdge m = .ok m' ∧
      (∀ k, m'.graph.edgeAt k = (g1.edgeAt k).merge EdgeAttr.join (g2.edgeAt k)) ∧
      (m'.graph.nodes = m.graph.nodes ∧ m'.graph.data = m.graph.data) ∧
      m'.change = { m.change with addedUpdatedEdges := m.change.addedUpdatedEdges ∪
        (g2.edges.rows.map (fun e => getFromTo e.source e.target)).toFinset } := by
  have hat : ∀ k, m.graph.edgeAt k = g1.edgeAt k := by
    intro k
    unfold Graph.edgeAt
    rw [hedges]
  have hfits : ∀ e ∈ g2.edges.rows, ∀ a, m.graph.edgeAt e.key = some a →
      a.Complete ∧ a.weight.isSome ∧ e.attr.Complete := by
    intro e he a ha
    have ha : g1.edge? e.source e.target = some a := (hat _).symm.trans ha
    exact h.edges e.source e.target a e.attr ha (Graph.edge?_of_mem he)
  obtain ⟨m', hrun, hlook⟩ := foldlM_merges (s := m) Edge.key Edge.attr
    (fun m k => m.graph.edgeAt k) EdgeAttr.join
    (fun a b => a.Complete ∧ a.weight.isSome ∧ b.Complete) mergeEdge_look g2.edges.nodup hfits
  have hends : ∀ e ∈ g2.edges.rows, ∀ g : KGraph, g.nodes = m.graph.nodes →
      g.HasNode e.source ∧ g.HasNode e.target := by
    intro e he g hg
    have hsource := hnodes e.source (Graph.hasNode_iff.mpr (g2.ends e he _ (Sym2.mem_mk_left _ _)))
    have htarget := hnodes e.target (Graph.hasNode_iff.mpr (g2.ends e he _ (Sym2.mem_mk_right _ _)))
    rw [Graph.hasNode_iff] at hsource htarget ⊢
    rw [Graph.hasNode_iff, hg]
    exact ⟨hsource, htarget⟩
  have hkeeps := foldlM_keeps (P := fun m' => (m'.graph.nodes = m.graph.nodes ∧
      m'.graph.data = m.graph.data) ∧
      m'.change = { m.change with addedUpdatedEdges := m'.change.addedUpdatedEdges })
    (fun e he m₁ m₂ hm hstep => by
      obtain ⟨b, hgraph, hchange⟩ := mergeEdge_eq_ok hstep
      obtain ⟨hs, ht⟩ := hends e he m₁.graph hm.1.1
      rw [hgraph, hchange, Graph.nodes_addEdge hs ht, Graph.data_addEdge]
      exact ⟨hm.1, by rw [hm.2]⟩) ⟨⟨rfl, rfl⟩, rfl⟩ hrun
  have hcollects := foldlM_collects (f := fun m : Merging => m.change.addedUpdatedEdges)
    (fun m e m' hstep => by
      obtain ⟨b, -, hchange⟩ := mergeEdge_eq_ok hstep
      rw [hchange]) hrun
  refine ⟨m', hrun, fun k => ?_, hkeeps.1, ?_⟩
  · rw [hlook, hat]
    rfl
  · rw [hkeeps.2, hcollects]

/-! ### The merge as a whole -/

/-- The pairs of the edges, however they are presented. -/
theorem exists_pair_iff {g : KGraph} {p : Str × Str} :
    (∃ e ∈ g.edges.rows, getFromTo e.source e.target = p) ↔
      ∃ u v, g.HasEdge u v ∧ p = getFromTo u v := by
  constructor
  · rintro ⟨e, he, rfl⟩
    refine ⟨e.source, e.target, ?_, rfl⟩
    unfold Graph.HasEdge
    rw [Graph.edge?_of_mem he]
    rfl
  · rintro ⟨u, v, huv, rfl⟩
    obtain ⟨e, he, hkey⟩ := Graph.hasEdge_iff.mp huv
    refine ⟨e, he, ?_⟩
    rcases Sym2.eq_iff.mp hkey with ⟨hs, ht⟩ | ⟨hs, ht⟩
    · rw [hs, ht]
    · rw [hs, ht, getFromTo_comm]

theorem isSome_merge {α : Type} (f : α → α → α) (a b : Option α) :
    (a.merge f b).isSome = true ↔ a.isSome = true ∨ b.isSome = true := by
  cases a <;> cases b <;> simp

/-- The graph before the ranks are set, by its nodes and edges. -/
theorem isUnion_setRanks {g1 g2 g : KGraph} (data : Option (List Str))
    (hnodes : ∀ n, g.node? n = (g1.node? n).merge NodeAttr.join (g2.node? n))
    (hedges : ∀ k, g.edgeAt k = (g1.edgeAt k).merge EdgeAttr.join (g2.edgeAt k))
    (hdata : data = some (g1.data.getD [] ++ g2.data.getD [])) :
    IsUnion g1 g2 { setRanks g with data } := by
  have hnode : ∀ n, Graph.node? { setRanks g with data } n =
      ((g1.node? n).merge NodeAttr.join (g2.node? n)).map
        (fun a => { a with rank := some (g.degree n) }) := by
    intro n
    rw [← hnodes]
    show (setRanks g).node? n = _
    exact Graph.node?_mapNodes _ n
  have hedge : ∀ u v, Graph.edge? { setRanks g with data } u v =
      (g1.edge? u v).merge EdgeAttr.join (g2.edge? u v) := fun u v => hedges s(u, v)
  refine ⟨fun n => ?_, fun u v => ?_, fun n a ha => ?_, fun n a ha hb => ?_, fun n b ha hb => ?_,
    fun n a b d1 d2 s1 s2 ha hb hd1 hd2 hs1 hs2 => ?_, fun u v a ha hb => ?_,
    fun u v b ha hb => ?_,
    fun u v a b w1 d1 d2 k1 k2 s1 s2 ha hb hw1 hd1 hd2 hk1 hk2 hs1 hs2 => ?_, hdata⟩
  · unfold Graph.HasNode
    rw [hnode, Option.isSome_map, isSome_merge]
  · unfold Graph.HasEdge
    rw [hedge, isSome_merge]
  · rw [hnode] at ha
    obtain ⟨_, -, rfl⟩ := Option.map_eq_some_iff.mp ha
    rfl
  · rw [hnode, ha, hb]
    rfl
  · rw [hnode, ha, hb]
    rfl
  · rw [hnode, ha, hb]
    simp only [Option.merge, Option.map_some, NodeAttr.join, joinDescriptions, hd1, hd2, hs1, hs2,
      Option.getD_some]
    rfl
  · rw [hedge, ha, hb]
    rfl
  · rw [hedge, ha, hb]
    rfl
  · rw [hedge, ha, hb]
    simp only [Option.merge, EdgeAttr.join, joinDescriptions, hw1, hd1, hd2, hk1, hk2, hs1, hs2,
      Option.getD_some]

/-- `graph_merge`: the first graph becomes the union of both, and the record gains what the second
graph has. -/
theorem graphMerge_spec (g1 g2 : KGraph) (change : GraphChange) (h : Mergeable g1 g2) :
    ∃ g change', graphMerge g1 g2 change = .ok ⟨g, change'⟩ ∧ IsUnion g1 g2 g ∧
      Gains g2 change change' := by
  obtain ⟨m, hrun, hnodes, ⟨hedges, hdata⟩, hchange⟩ := mergeNodes_spec h change
  have hthere : ∀ n, g2.HasNode n → m.graph.HasNode n := by
    intro n hn
    unfold Graph.HasNode
    rw [hnodes, isSome_merge]
    exact .inr hn
  obtain ⟨m', hrun', hedges', ⟨hnodes', hdata'⟩, hchange'⟩ := mergeEdges_spec h hedges hthere
  refine ⟨{ setRanks m'.graph with data := some (m'.graph.data.getD [] ++ g2.data.getD []) },
    m'.change, ?_, isUnion_setRanks _ (fun n => ?_) hedges' ?_, ?_⟩
  · unfold graphMerge
    rw [hrun]
    show (do
      let m ← g2.edges.rows.foldlM mergeEdge m
      _) = _
    rw [hrun']
    rfl
  · rw [← hnodes]
    unfold Graph.node?
    rw [hnodes']
  · rw [hdata', hdata]
  · rw [hchange', hchange]
    refine ⟨fun n => ?_, fun p => ?_, rfl, rfl⟩
    · rw [Finset.mem_union, List.mem_toFinset, ← Graph.hasNode_iff]
    · rw [Finset.mem_union, List.mem_toFinset, List.mem_map]
      rw [exists_pair_iff]

/-! Two graphs with the same two nodes and the edge between them, presented in opposite
orientations. -/

def emptyGraph : KGraph := ⟨Table.empty, Table.empty, none, fun _ he => by cases he⟩

/-- The edge from `u` to `v`, in a graph with these two nodes. -/
def twoNodes (u v source : Str) (weight : Option ℚ) : KGraph :=
  ((emptyGraph.setNode u { description := some u, sourceId := some [source] }).setNode v
    { description := some v, sourceId := some [source] }).addEdge u v
    { weight, description := some "e", keywords := some ["k"], sourceId := some [source] }

theorem graphMerge_spec_two_nodes :
    ∃ g change', graphMerge (twoNodes "A" "B" "s1" (some 1)) (twoNodes "B" "A" "s2" none) {} =
        .ok ⟨g, change'⟩ ∧ IsUnion (twoNodes "A" "B" "s1" (some 1)) (twoNodes "B" "A" "s2" none) g ∧
      Gains (twoNodes "B" "A" "s2" none) {} change' := by
  exact graphMerge_spec _ _ {} (mergeable_of_complete (by decide) (by decide) (by decide)
    (by decide))

end RagFlow.Graphrag
