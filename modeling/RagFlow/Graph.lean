import Mathlib.Data.Sym.Sym2
import RagFlow.Table

/-! # Undirected graphs with attributes

A graph with attributes on its nodes and edges, in the manner of the graph libraries that keep a
dictionary of nodes and a dictionary of neighbours for each node.  Nodes and edges are tables;
the key of an edge is the unordered pair of its ends, so an edge is found in either orientation
and there is at most one between two nodes.  The ends of an edge are nodes; this is a field of
the structure, so `addEdge` has to create the missing ends and `removeNode` to delete the edges.

The lemmas say what `node?` and `edge?` are after each operation, and which nodes there are. -/

namespace RagFlow

/-- An edge as it is presented, from one end to the other. -/
structure Edge (ν B : Type) where
  source : ν
  target : ν
  attr : B
deriving DecidableEq

/-- The ends, in no order. -/
def Edge.key {ν B : Type} (e : Edge ν B) : Sym2 ν := s(e.source, e.target)

/-- Nodes and edges with attributes, and the attributes of the graph itself. -/
structure Graph (ν A B D : Type) where
  nodes : Table (ν × A) Prod.fst
  edges : Table (Edge ν B) Edge.key
  data : D
  ends : ∀ e ∈ edges.rows, ∀ n ∈ e.key, n ∈ nodes.rows.map Prod.fst

namespace Graph

variable {ν A B D : Type} [DecidableEq ν] (g : Graph ν A B D)

/-! ### Reading -/

/-- The attributes of a node. -/
def node? (n : ν) : Option A := (g.nodes.get? n).map Prod.snd

def HasNode (n : ν) : Prop := (g.node? n).isSome

/-- The attributes of the edge with the given ends. -/
def edgeAt (k : Sym2 ν) : Option B := (g.edges.get? k).map Edge.attr

/-- The attributes of the edge between two nodes. -/
def edge? (u v : ν) : Option B := g.edgeAt s(u, v)

def HasEdge (u v : ν) : Prop := (g.edge? u v).isSome

instance (n : ν) : Decidable (g.HasNode n) := inferInstanceAs (Decidable (_ = true))

instance (u v : ν) : Decidable (g.HasEdge u v) := inferInstanceAs (Decidable (_ = true))

/-- The other end of an edge at `n`. -/
def otherEnd (n : ν) (e : Edge ν B) : Option ν :=
  if e.source = n then some e.target else if e.target = n then some e.source else none

/-- The neighbours of a node, in the order of the edges. -/
def neighbors (n : ν) : List ν := g.edges.rows.filterMap (otherEnd n)

/-- The number of edge ends at a node: an edge from the node to itself counts twice. -/
def degree (n : ν) : ℕ :=
  (g.edges.rows.map (fun e => (if e.source = n then 1 else 0) + if e.target = n then 1 else 0)).sum

variable {g}

theorem node?_of_mem {x : ν × A} (hx : x ∈ g.nodes.rows) : g.node? x.1 = some x.2 := by
  unfold node?
  rw [Table.get?_eq_some.mpr ⟨hx, rfl⟩]
  rfl

theorem mem_of_node?_eq_some {n : ν} {a : A} (h : g.node? n = some a) :
    (n, a) ∈ g.nodes.rows := by
  obtain ⟨x, hx, rfl⟩ := Option.map_eq_some_iff.mp h
  obtain ⟨hmem, rfl⟩ := Table.get?_eq_some.mp hx
  exact hmem

theorem mem_of_edge?_eq_some {u v : ν} {b : B} (h : g.edge? u v = some b) :
    ∃ e ∈ g.edges.rows, e.attr = b := by
  obtain ⟨e, he, rfl⟩ := Option.map_eq_some_iff.mp h
  exact ⟨e, (Table.get?_eq_some.mp he).1, rfl⟩

theorem edge?_of_mem {e : Edge ν B} (he : e ∈ g.edges.rows) :
    g.edge? e.source e.target = some e.attr := by
  have hget : g.edges.get? s(e.source, e.target) = some e := Table.get?_eq_some.mpr ⟨he, rfl⟩
  unfold edge? edgeAt
  rw [hget]
  rfl

theorem hasNode_iff {n : ν} : g.HasNode n ↔ n ∈ g.nodes.rows.map Prod.fst := by
  unfold HasNode node?
  rw [Option.isSome_map, Option.isSome_iff_exists, Table.mem_keys]

theorem hasEdge_iff {u v : ν} : g.HasEdge u v ↔ ∃ e ∈ g.edges.rows, e.key = s(u, v) := by
  unfold HasEdge edge? edgeAt
  rw [Option.isSome_map, Option.isSome_iff_exists]
  exact exists_congr (fun e => Table.get?_eq_some)

/-- The ends of an edge are nodes. -/
theorem HasEdge.hasNode {u v : ν} (h : g.HasEdge u v) : g.HasNode u ∧ g.HasNode v := by
  obtain ⟨e, he, hkey⟩ := hasEdge_iff.mp h
  refine ⟨hasNode_iff.mpr (g.ends e he u ?_), hasNode_iff.mpr (g.ends e he v ?_)⟩
  · rw [hkey]
    exact Sym2.mem_mk_left u v
  · rw [hkey]
    exact Sym2.mem_mk_right u v

theorem mem_neighbors {n m : ν} : m ∈ g.neighbors n ↔ g.HasEdge n m := by
  unfold neighbors
  rw [hasEdge_iff, List.mem_filterMap]
  refine exists_congr (fun e => and_congr_right (fun _ => ?_))
  unfold otherEnd Edge.key
  rw [Sym2.eq_iff]
  split_ifs with hs ht
  · simp only [Option.some.injEq]
    refine ⟨fun h => .inl ⟨hs, h⟩, ?_⟩
    rintro (⟨-, h⟩ | ⟨h, h'⟩)
    · exact h
    · rw [h', ← hs, h]
  · simp only [Option.some.injEq]
    refine ⟨fun h => .inr ⟨h, ht⟩, ?_⟩
    rintro (⟨h, -⟩ | ⟨h, -⟩)
    · exact absurd h hs
    · exact h
  · refine ⟨fun h => (by cases h), ?_⟩
    rintro (⟨h, -⟩ | ⟨-, h⟩)
    · exact absurd h hs
    · exact absurd h ht

theorem hasNode_of_mem_neighbors {n m : ν} (h : m ∈ g.neighbors n) : g.HasNode m :=
  (mem_neighbors.mp h).hasNode.2

/-! ### Writing -/

/-- Give a node its attributes; a node that is not there is created. -/
def setNode (g : Graph ν A B D) (n : ν) (a : A) : Graph ν A B D :=
  { g with
    nodes := g.nodes.put (n, a)
    ends := by
      intro e he m hm
      obtain ⟨x, hx⟩ := Table.mem_keys.mp (g.ends e he m hm)
      rw [Table.mem_keys, Table.get?_put]
      split_ifs
      · exact ⟨_, rfl⟩
      · exact ⟨x, hx⟩ }

theorem node?_setNode {n : ν} {a : A} (m : ν) :
    (g.setNode n a).node? m = if m = n then some a else g.node? m := by
  show ((g.nodes.put (n, a)).get? m).map Prod.snd = _
  rw [Table.get?_put]
  split_ifs
  · rfl
  · rfl

theorem hasNode_setNode {n : ν} {a : A} {m : ν} :
    (g.setNode n a).HasNode m ↔ g.HasNode m ∨ m = n := by
  unfold HasNode
  rw [node?_setNode]
  by_cases hm : m = n
  · simp [hm]
  · simp [hm]

/-- A node, with empty attributes if it is not there. -/
def ensureNode [Inhabited A] (g : Graph ν A B D) (n : ν) : Graph ν A B D :=
  if g.HasNode n then g else g.setNode n default

theorem hasNode_ensureNode [Inhabited A] {n m : ν} :
    (g.ensureNode n).HasNode m ↔ g.HasNode m ∨ m = n := by
  unfold ensureNode
  split_ifs with h
  · refine ⟨.inl, fun hm => hm.elim (fun hm => hm) (fun hm => hm ▸ h)⟩
  · exact hasNode_setNode

theorem ensureNode_of_hasNode [Inhabited A] {n : ν} (h : g.HasNode n) : g.ensureNode n = g := by
  unfold ensureNode
  rw [if_pos h]

/-- Add an edge, or give it its attributes; missing ends are created. -/
def addEdge [Inhabited A] (g : Graph ν A B D) (u v : ν) (b : B) : Graph ν A B D :=
  { (g.ensureNode u).ensureNode v with
    edges := g.edges.put ⟨u, v, b⟩
    ends := by
      intro e he n hn
      rw [← hasNode_iff, hasNode_ensureNode, hasNode_ensureNode]
      have hkey := Table.get?_eq_some.mpr ⟨he, rfl⟩
      rw [Table.get?_put] at hkey
      split_ifs at hkey with heq
      · rw [heq] at hn
        rcases Sym2.mem_iff.mp hn with rfl | rfl
        · exact .inl (.inr rfl)
        · exact .inr rfl
      · have hmem := (Table.get?_eq_some.mp hkey).1
        exact .inl (.inl (hasNode_iff.mpr (g.ends e hmem n hn))) }

theorem hasNode_addEdge [Inhabited A] {u v : ν} {b : B} {n : ν} :
    (g.addEdge u v b).HasNode n ↔ g.HasNode n ∨ n = u ∨ n = v := by
  show ((g.ensureNode u).ensureNode v).HasNode n ↔ _
  rw [hasNode_ensureNode, hasNode_ensureNode, or_assoc]

theorem edgeAt_addEdge [Inhabited A] {u v : ν} {b : B} (k : Sym2 ν) :
    (g.addEdge u v b).edgeAt k = if k = s(u, v) then some b else g.edgeAt k := by
  show ((g.edges.put ⟨u, v, b⟩).get? k).map Edge.attr = _
  rw [Table.get?_put]
  show (if k = s(u, v) then _ else _ : Option _).map Edge.attr = _
  split_ifs
  · rfl
  · rfl

/-- An edge between two nodes that are there changes no node. -/
theorem nodes_addEdge [Inhabited A] {u v : ν} {b : B} (hu : g.HasNode u) (hv : g.HasNode v) :
    (g.addEdge u v b).nodes = g.nodes := by
  show ((g.ensureNode u).ensureNode v).nodes = g.nodes
  rw [ensureNode_of_hasNode hu, ensureNode_of_hasNode hv]

theorem data_addEdge [Inhabited A] {u v : ν} {b : B} : (g.addEdge u v b).data = g.data := by
  show ((g.ensureNode u).ensureNode v).data = g.data
  unfold ensureNode
  split_ifs <;> rfl

/-- Rewrite the attributes of all nodes. -/
def mapNodes (g : Graph ν A B D) (f : ν → A → A) : Graph ν A B D :=
  { g with
    nodes := g.nodes.updateWhere (fun _ => true) (fun x => (x.1, f x.1 x.2)) (fun _ => rfl)
    ends := by
      intro e he n hn
      obtain ⟨x, hx, hn⟩ := List.mem_map.mp (g.ends e he n hn)
      refine List.mem_map.mpr ⟨(x.1, f x.1 x.2), ?_, hn⟩
      exact Table.mem_updateWhere.mpr (.inr ⟨x, hx, rfl, rfl⟩) }

theorem node?_mapNodes (f : ν → A → A) (n : ν) :
    (g.mapNodes f).node? n = (g.node? n).map (f n) := by
  show ((g.nodes.updateWhere (fun _ => true) (fun x => (x.1, f x.1 x.2))
    (fun _ => rfl)).get? n).map _ = _
  rw [Table.get?_updateAll, Option.map_map]
  unfold node?
  rw [Option.map_map]
  cases hget : g.nodes.get? n with
  | none => rfl
  | some x =>
      have hn : x.1 = n := (Table.get?_eq_some.mp hget).2
      simp [hn]

/-- Delete a node and its edges. -/
def removeNode (g : Graph ν A B D) (n : ν) : Graph ν A B D :=
  { g with
    nodes := g.nodes.deleteWhere (·.1 = n)
    edges := g.edges.deleteWhere (fun e => n ∈ e.key)
    ends := by
      intro e he m hm
      obtain ⟨he, hn⟩ := Table.mem_deleteWhere.mp he
      obtain ⟨x, hx⟩ := Table.mem_keys.mp (g.ends e he m hm)
      have hmn : m ≠ n := by
        rintro rfl
        exact (decide_eq_false_iff_not.mp hn) hm
      rw [Table.mem_keys]
      refine ⟨x, ?_⟩
      rw [Table.get?_deleteWhere, if_neg hmn]
      exact hx }

theorem node?_removeNode (n m : ν) :
    (g.removeNode n).node? m = if m = n then none else g.node? m := by
  show ((g.nodes.deleteWhere (·.1 = n)).get? m).map Prod.snd = _
  rw [Table.get?_deleteWhere]
  split_ifs
  · rfl
  · rfl

theorem hasNode_removeNode {n m : ν} : (g.removeNode n).HasNode m ↔ g.HasNode m ∧ m ≠ n := by
  unfold HasNode
  rw [node?_removeNode]
  by_cases hm : m = n
  · simp [hm]
  · simp [hm]

/-! ### Neighbours and edges after writing -/

theorem otherEnd_eq_none {n : ν} {e : Edge ν B} (hn : n ∉ e.key) : otherEnd n e = none := by
  unfold otherEnd
  have hs : e.source ≠ n := fun h => hn (h ▸ Sym2.mem_mk_left _ _)
  have ht : e.target ≠ n := fun h => hn (h ▸ Sym2.mem_mk_right _ _)
  rw [if_neg hs, if_neg ht]

theorem key_of_otherEnd {n v : ν} {e : Edge ν B} (h : otherEnd n e = some v) : e.key = s(n, v) := by
  unfold otherEnd at h
  split_ifs at h with hs ht
  · cases h
    rw [← hs]
    rfl
  · cases h
    rw [← ht]
    exact Sym2.eq_swap

theorem neighbors_nodup (n : ν) : (g.neighbors n).Nodup := by
  unfold neighbors
  refine List.pairwise_filterMap.mpr ?_
  refine List.Pairwise.imp ?_ (List.pairwise_map.mp g.edges.nodup)
  intro e e' hkey v hv v' hv' heq
  rw [key_of_otherEnd hv, key_of_otherEnd hv', heq] at hkey
  exact hkey rfl

/-- An edge elsewhere does not change the neighbours of a node. -/
theorem neighbors_addEdge [Inhabited A] {n u v : ν} {b : B} (hu : n ≠ u) (hv : n ≠ v) :
    (g.addEdge u v b).neighbors n = g.neighbors n := by
  have hkey : ∀ e : Edge ν B, e.key = s(u, v) → otherEnd n e = none := by
    intro e he
    refine otherEnd_eq_none ?_
    rw [he, Sym2.mem_iff]
    exact not_or.mpr ⟨hu, hv⟩
  show (g.edges.put ⟨u, v, b⟩).rows.filterMap (otherEnd n) = g.edges.rows.filterMap (otherEnd n)
  unfold Table.put
  cases hins : g.edges.insert? ⟨u, v, b⟩ with
  | some t =>
      obtain ⟨-, hrows⟩ := Table.insert?_eq_some hins
      dsimp only
      rw [hrows, List.filterMap_append, List.filterMap_cons_none (hkey _ rfl), List.filterMap_nil,
        List.append_nil]
  | none =>
      show (g.edges.rows.map _).filterMap _ = _
      rw [List.filterMap_map]
      refine List.filterMap_congr fun e _ => ?_
      show otherEnd n (if _ then if _ then (⟨u, v, b⟩ : Edge ν B) else e else e) = _
      split_ifs with h h'
      · rw [hkey e h', hkey _ rfl]
      · rfl
      · rfl

theorem edge?_addEdge [Inhabited A] {u v : ν} {b : B} (u' v' : ν) :
    (g.addEdge u v b).edge? u' v' = if s(u', v') = s(u, v) then some b else g.edge? u' v' :=
  edgeAt_addEdge _

theorem edge?_comm (u v : ν) : g.edge? u v = g.edge? v u := by
  unfold edge?
  rw [Sym2.eq_swap]

theorem hasEdge_comm {u v : ν} : g.HasEdge u v ↔ g.HasEdge v u := by
  unfold HasEdge
  rw [edge?_comm]

theorem edge?_removeNode (n u v : ν) :
    (g.removeNode n).edge? u v = if u = n ∨ v = n then none else g.edge? u v := by
  show ((g.edges.deleteWhere (fun e => n ∈ e.key)).get? s(u, v)).map Edge.attr = _
  rw [Table.get?_deleteWhere_eq_filter]
  unfold edge? edgeAt
  cases hget : g.edges.get? s(u, v) with
  | none => simp
  | some e =>
      have hkey : e.key = s(u, v) := (Table.get?_eq_some.mp hget).2
      have hmem : n ∈ e.key ↔ u = n ∨ v = n := by
        rw [hkey, Sym2.mem_iff, eq_comm, @eq_comm _ n v]
      by_cases hn : u = n ∨ v = n
      · simp [hmem, hn]
      · simp [hmem, hn]

/-! ### Subgraphs -/

/-- The edges that satisfy `p`, with all nodes. -/
def filterEdges (g : Graph ν A B D) (p : Edge ν B → Bool) : Graph ν A B D :=
  { g with
    edges := g.edges.deleteWhere (fun e => !p e)
    ends := fun e he => g.ends e (Table.mem_deleteWhere.mp he).1 }

/-- Rewrite the attributes of all edges. -/
def mapEdges (g : Graph ν A B D) (f : B → B) : Graph ν A B D :=
  { g with
    edges := g.edges.updateWhere (fun _ => true) (fun e => { e with attr := f e.attr })
      (fun _ => rfl)
    ends := by
      intro e he
      rcases Table.mem_updateWhere.mp he with ⟨-, h⟩ | ⟨x, hx, -, rfl⟩
      · cases h
      · exact g.ends x hx }

/-- The subgraph induced by the nodes that satisfy `p`. -/
def restrict (g : Graph ν A B D) (p : ν → Bool) : Graph ν A B D :=
  { g with
    nodes := g.nodes.deleteWhere (fun x => !p x.1)
    edges := g.edges.deleteWhere (fun e => !(p e.source && p e.target))
    ends := by
      intro e he n hn
      obtain ⟨he, hp⟩ := Table.mem_deleteWhere.mp he
      rw [Bool.not_eq_false', Bool.and_eq_true] at hp
      obtain ⟨x, hx⟩ := Table.mem_keys.mp (g.ends e he n hn)
      rw [Table.mem_keys]
      obtain ⟨hmem, hkey⟩ := Table.get?_eq_some.mp hx
      refine ⟨x, Table.get?_eq_some.mpr ⟨Table.mem_deleteWhere.mpr ⟨hmem, ?_⟩, hkey⟩⟩
      have hpn : p n = true := by
        rcases Sym2.mem_iff.mp hn with rfl | rfl
        · exact hp.1
        · exact hp.2
      rw [(Table.get?_eq_some.mp hx).2, hpn]
      rfl }

theorem node?_restrict (p : ν → Bool) (n : ν) :
    (g.restrict p).node? n = if p n then g.node? n else none := by
  show ((g.nodes.deleteWhere (fun x => !p x.1)).get? n).map Prod.snd = _
  rw [Table.get?_deleteWhere_eq_filter]
  unfold node?
  cases hget : g.nodes.get? n with
  | none => simp
  | some x =>
      have hn : x.1 = n := (Table.get?_eq_some.mp hget).2
      simp only [Option.filter_some, Bool.not_not, hn]
      split_ifs
      · rfl
      · rfl

theorem edge?_restrict (p : ν → Bool) (u v : ν) :
    (g.restrict p).edge? u v = if p u && p v then g.edge? u v else none := by
  show ((g.edges.deleteWhere (fun e => !(p e.source && p e.target))).get? s(u, v)).map Edge.attr = _
  rw [Table.get?_deleteWhere_eq_filter]
  unfold edge? edgeAt
  cases hget : g.edges.get? s(u, v) with
  | none => simp
  | some e =>
      have hp : (p e.source && p e.target) = (p u && p v) := by
        rcases Sym2.eq_iff.mp (Table.get?_eq_some.mp hget).2 with ⟨hu, hv⟩ | ⟨hu, hv⟩
        · rw [hu, hv]
        · rw [hu, hv, Bool.and_comm]
      simp only [Option.filter_some, Bool.not_not, hp]
      split_ifs
      · rfl
      · rfl

end Graph

end RagFlow
