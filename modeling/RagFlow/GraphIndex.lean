import RagFlow.EntityResolution
import RagFlow.Transition

/-! # The index of a knowledge graph

`set_graph` of `rag/graphrag/utils.py` stores a graph, its subgraphs by document, and one chunk for
each node and edge that the record of changes lists as added or updated.  The graph and the
subgraphs of before are deleted; of the chunks of nodes and edges only those the record lists as
removed are.  So the chunk of a node that is updated stays beside the new one.

* **Steps.** `merge_subgraph` and `resolve_entities` compute a graph and a record and hand both to
  `set_graph` (`GraphStep`).
* **Agreement.** `Agrees`: one chunk with the present attributes for each node and edge of the
  graph, and no other.  `setGraph_agrees_iff` says exactly when a step keeps it (`Fits`), and
  `index_agrees_iff` carries this over to runs. -/

namespace RagFlow.Graphrag

open Py

/-! ### Chunks -/

/-- What the indexing takes from elsewhere: the tokenizer, `nx.pagerank` and `get_uuid`. -/
structure IndexEnv where
  tokenize : Str → Str
  fineGrainedTokenize : Str → Str
  pagerank : KGraph → Str → ℚ
  uuid : ℕ → Str
  uuid_injective : Function.Injective uuid

/-- The chunk of a node, without its identifier and its embedding. -/
structure EntityChunk where
  importantKwd : List Str
  titleTks : Str
  entityKwd : Str
  entityTypeKwd : PyVal
  contentWithWeight : NodeAttr
  contentLtks : Str
  contentSmLtks : Str
  sourceId : List Str

/-- The chunk of an edge, without its identifier and its embedding. -/
structure RelationChunk where
  fromEntityKwd : Str
  toEntityKwd : Str
  contentWithWeight : EdgeAttr
  contentLtks : Str
  contentSmLtks : Str
  importantKwd : List Str
  sourceId : List Str
  weightInt : ℤ

/-- The ends of the edge of the chunk, in no order. -/
def RelationChunk.key (c : RelationChunk) : Sym2 Str := s(c.fromEntityKwd, c.toEntityKwd)

/-- `graph_node_to_chunk`. -/
def graphNodeToChunk (env : IndexEnv) (entName : Str) (attrs : NodeAttr) :
    Except KeyError EntityChunk := do
  let entityType ← entry "entity_type" (attrs.other.lookup "entity_type".toList)
  let description ← entry "description" attrs.description
  let sourceId ← entry "source_id" attrs.sourceId
  let contentLtks := env.tokenize description
  pure { importantKwd := [entName], titleTks := env.tokenize entName, entityKwd := entName,
         entityTypeKwd := entityType, contentWithWeight := attrs, contentLtks,
         contentSmLtks := env.fineGrainedTokenize contentLtks, sourceId }

/-- `graph_edge_to_chunk`. -/
def graphEdgeToChunk (env : IndexEnv) (fromEntName toEntName : Str) (attrs : EdgeAttr) :
    Except KeyError RelationChunk := do
  let description ← entry "description" attrs.description
  let keywords ← entry "keywords" attrs.keywords
  let sourceId ← entry "source_id" attrs.sourceId
  let weight ← entry "weight" attrs.weight
  let contentLtks := env.tokenize description
  pure { fromEntityKwd := fromEntName, toEntityKwd := toEntName, contentWithWeight := attrs,
         contentLtks, contentSmLtks := env.fineGrainedTokenize contentLtks,
         importantKwd := keywords, sourceId, weightInt := weight.num.tdiv weight.den }

/-- What a chunk of the index holds, by its `knowledge_graph_kwd`; `removed` is `removed_kwd`. -/
inductive ChunkBody where
  | graph (content : KGraph) (sourceId : List Str) (removed : Bool)
  | subgraph (content : KGraph) (sourceId : List Str) (removed : Bool)
  | entity (chunk : EntityChunk)
  | relation (chunk : RelationChunk)

namespace ChunkBody

def graph? : ChunkBody → Option (KGraph × List Str × Bool)
  | graph content sourceId removed => some (content, sourceId, removed)
  | _ => none

def subgraph? : ChunkBody → Option (KGraph × List Str)
  | subgraph content sourceId _ => some (content, sourceId)
  | _ => none

def entity? : ChunkBody → Option EntityChunk
  | entity c => some c
  | _ => none

def relation? : ChunkBody → Option RelationChunk
  | relation c => some c
  | _ => none

end ChunkBody

structure IndexChunk where
  id : Str
  body : ChunkBody

/-- The chunks of one knowledge base; their identifiers have been drawn. -/
structure Index (env : IndexEnv) where
  rows : Table IndexChunk IndexChunk.id
  nextUuid : ℕ
  drawn : ∀ r ∈ rows, ∃ m < nextUuid, r.id = env.uuid m

namespace Index

variable {env : IndexEnv}

def empty : Index env := ⟨Table.empty, 0, fun _ h => absurd h List.not_mem_nil⟩

/-- What the chunks hold, in the order in which they were inserted. -/
def bodies (idx : Index env) : List ChunkBody := idx.rows.rows.map IndexChunk.body

/-- `docStoreConn.delete`. -/
def delete (idx : Index env) (p : ChunkBody → Bool) : Index env where
  rows := idx.rows.deleteWhere (fun r => p r.body)
  nextUuid := idx.nextUuid
  drawn r hr := idx.drawn r (Table.mem_deleteWhere.mp hr).1

/-- `docStoreConn.insert` of a chunk under a new identifier. -/
def insert (idx : Index env) (body : ChunkBody) : Index env where
  rows := idx.rows.upsert ⟨env.uuid idx.nextUuid, body⟩
  nextUuid := idx.nextUuid + 1
  drawn := by
    intro r hr
    rcases Table.mem_upsert.mp hr with ⟨hr, -⟩ | rfl
    · obtain ⟨m, hm, hid⟩ := idx.drawn r hr
      exact ⟨m, Nat.lt_succ_of_lt hm, hid⟩
    · exact ⟨idx.nextUuid, Nat.lt_succ_self _, rfl⟩

def insertAll (idx : Index env) (bodies : List ChunkBody) : Index env := bodies.foldl insert idx

theorem bodies_delete (idx : Index env) (p : ChunkBody → Bool) :
    (idx.delete p).bodies = idx.bodies.filter (fun b => !p b) := by
  show (idx.rows.rows.filter _).map _ = _
  unfold bodies
  rw [List.filter_map]
  rfl

/-- A new identifier replaces nothing. -/
theorem bodies_insert (idx : Index env) (b : ChunkBody) :
    (idx.insert b).bodies = idx.bodies ++ [b] := by
  have hnew : ∀ r ∈ idx.rows.rows, (!decide (r.id = env.uuid idx.nextUuid)) = true := by
    intro r hr
    obtain ⟨m, hm, hid⟩ := idx.drawn r hr
    rw [hid, Bool.not_eq_true', decide_eq_false_iff_not]
    intro heq
    have hmn := env.uuid_injective heq
    omega
  show (idx.rows.rows.filter (fun r : IndexChunk => !decide (r.id = env.uuid idx.nextUuid)) ++
    [(⟨env.uuid idx.nextUuid, b⟩ : IndexChunk)]).map _ = _
  rw [List.filter_eq_self.mpr hnew, List.map_append]
  rfl

theorem bodies_insertAll (bs : List ChunkBody) : ∀ idx : Index env,
    (idx.insertAll bs).bodies = idx.bodies ++ bs := by
  induction bs with
  | nil => exact fun idx => (List.append_nil _).symm
  | cons b bs ih =>
      intro idx
      show ((idx.insert b).insertAll bs).bodies = _
      rw [ih, bodies_insert, List.append_assoc]
      rfl

end Index

/-! ### `set_graph` -/

/-- The order in which the loops of `set_graph` go through the sets of the record. -/
structure GraphChange.Order (change : GraphChange) where
  nodes : List Str
  edges : List (Str × Str)
  nodes_nodup : nodes.Nodup
  edges_nodup : edges.Nodup
  mem_nodes : ∀ n, n ∈ nodes ↔ n ∈ change.addedUpdatedNodes
  mem_edges : ∀ p, p ∈ edges ↔ p ∈ change.addedUpdatedEdges

/-- The nodes of one document, with the edges between them. -/
def documentSubgraph (g : KGraph) (source : Str) : Except KeyError KGraph :=
  if g.nodes.rows.all (·.2.sourceId.isSome) then
    let own := g.restrict (fun n => ((g.node? n).bind NodeAttr.sourceId).any (·.contains source))
    .ok { own.mapNodes (fun _ a => { a with sourceId := some [source] }) with
      data := some [source] }
  else .error (.missing "source_id")

/-- An empty dictionary. -/
def EdgeAttr.isEmpty (b : EdgeAttr) : Bool :=
  b.weight.isNone && b.description.isNone && b.keywords.isNone && b.sourceId.isNone &&
    b.other.isEmpty

/-- The chunk of a node the record lists. -/
def nodeChunk (env : IndexEnv) (g : KGraph) (n : Str) : Except KeyError EntityChunk := do
  let attrs ← entry n (g.node? n)
  graphNodeToChunk env n attrs

/-- The chunk of an edge the record lists; there is none if the edge is missing or its attributes
are empty. -/
def edgeChunk (env : IndexEnv) (g : KGraph) (p : Str × Str) :
    Except KeyError (Option RelationChunk) :=
  match g.edge? p.1 p.2 with
  | none => .ok none
  | some attrs =>
      if attrs.isEmpty then .ok none
      else (graphEdgeToChunk env p.1 p.2 attrs).map some

def ChunkBody.isGraph : ChunkBody → Bool
  | graph .. | subgraph .. => true
  | _ => false

def ChunkBody.isEntityOf (names : Finset Str) : ChunkBody → Bool
  | entity c => c.entityKwd ∈ names
  | _ => false

/-- The ends of the edge of the chunk, in the order in which they are indexed. -/
def RelationChunk.pair (c : RelationChunk) : Str × Str := (c.fromEntityKwd, c.toEntityKwd)

def ChunkBody.isRelationOf (pairs : Finset (Str × Str)) : ChunkBody → Bool
  | relation c => c.pair ∈ pairs
  | _ => false

/-- The chunks that `set_graph` inserts. -/
def newChunks (env : IndexEnv) (g : KGraph) {change : GraphChange} (order : change.Order) :
    Except KeyError (List ChunkBody) := do
  let sources ← entry "source_id" g.data
  let subgraphs ← sources.mapM (documentSubgraph g)
  let entities ← order.nodes.mapM (nodeChunk env g)
  let relations ← order.edges.mapM (edgeChunk env g)
  pure (.graph g sources false ::
    (sources.zip subgraphs).map (fun x => .subgraph x.2 [x.1] false) ++
    entities.map .entity ++ (relations.filterMap id).map .relation)

/-- The deletions of `set_graph`. -/
def clearGraph {env : IndexEnv} (change : GraphChange) (idx : Index env) : Index env :=
  ((idx.delete ChunkBody.isGraph).delete (ChunkBody.isEntityOf change.removedNodes)).delete
    (ChunkBody.isRelationOf change.removedEdges)

/-- `set_graph`, when the store reports no error. -/
def setGraph (env : IndexEnv) (g : KGraph) {change : GraphChange} (order : change.Order)
    (idx : Index env) : Except KeyError (Index env) := do
  let chunks ← newChunks env g order
  pure ((clearGraph change idx).insertAll chunks)

/-! ### `rebuild_graph` and `get_graph` -/

/-- A node of the second graph, put into the composition. -/
def composeNode (g : KGraph) (row : Str × NodeAttr) : KGraph :=
  g.setNode row.1 (((g.node? row.1).getD {}).update row.2)

/-- An edge of the second graph, put into the composition. -/
def composeEdge (g : KGraph) (e : Edge Str EdgeAttr) : KGraph :=
  g.addEdge e.source e.target (((g.edge? e.source e.target).getD {}).update e.attr)

/-- `nx.compose`: the entries of the second graph take precedence. -/
def compose (g h : KGraph) : KGraph :=
  let merged := h.edges.rows.foldl composeEdge (h.nodes.rows.foldl composeNode g)
  { merged with data := h.data <|> g.data }

/-- One round of the inner loop of `rebuild_graph`. -/
def rebuildStep (graph next : KGraph) : KGraph :=
  let sourceOf (g : KGraph) (n : Str) : List Str := ((g.node? n).bind NodeAttr.sourceId).getD []
  let merged := (compose graph next).mapNodes (fun n a =>
    if graph.HasNode n ∧ next.HasNode n then
      { a with sourceId := some (sourceOf graph n ++ sourceOf next n) }
    else a)
  { merged with data := some (graph.data.getD [] ++ next.data.getD []) }

/-- The number of subgraphs that `rebuild_graph` reads at most: `1024` pages of `256`. -/
def maxSubgraphs : ℕ := 1024 * 256

/-- The subgraphs the index holds, with their documents. -/
def Index.subgraphs {env : IndexEnv} (idx : Index env) : List (KGraph × List Str) :=
  idx.bodies.filterMap ChunkBody.subgraph?

/-- `rebuild_graph`; `exclude` lists the documents of `exclude_rebuild`. -/
def rebuildGraph {env : IndexEnv} (idx : Index env) (exclude : List Str) : Option KGraph :=
  let kept := (idx.subgraphs.take maxSubgraphs).filter (fun x => !exclude.any (x.2.contains ·))
  let graph := (kept.map Prod.fst).foldl rebuildStep emptyGraph
  if graph.nodes.rows.isEmpty then none
  else some { graph with data := some ((graph.data.getD []).insertionSort (· ≤ ·)) }

/-- `get_graph`. -/
def getGraph {env : IndexEnv} (idx : Index env) (exclude : List Str) : Option KGraph :=
  match idx.bodies.findSome? ChunkBody.graph? with
  | none => none
  | some (content, sourceId, false) => some { content with data := content.data <|> some sourceId }
  | some (_, _, true) => rebuildGraph idx exclude

/-! ### `merge_subgraph` and `resolve_entities` -/

/-- The entries that `tidy_graph` looks for. -/
def NodeAttr.isValid (a : NodeAttr) : Bool := a.description.isSome && a.sourceId.isSome

def EdgeAttr.isValid (b : EdgeAttr) : Bool := b.description.isSome && b.sourceId.isSome

/-- `tidy_graph`, with `check_attribute`. -/
def tidyGraph (g : KGraph) : KGraph :=
  let purged := g.restrict (fun n => (g.node? n).any NodeAttr.isValid)
  (purged.filterEdges (·.attr.isValid)).mapEdges
    (fun b => { b with keywords := some (b.keywords.getD []) })

/-- The loop over the values of `nx.pagerank`. -/
def setPagerank (env : IndexEnv) (g : KGraph) : KGraph :=
  g.mapNodes (fun n a =>
    { a with other := updateEntries a.other [("pagerank", .float (env.pagerank g n))] })

/-- What `merge_subgraph` hands to `set_graph`. -/
def mergeSubgraph (env : IndexEnv) (old : Option KGraph) (subgraph : KGraph) :
    Except KeyError Merging :=
  match old with
  | some old => do
      let m ← graphMerge (tidyGraph old) subgraph {}
      pure { m with graph := setPagerank env m.graph }
  | none => pure ⟨setPagerank env subgraph, {
      addedUpdatedNodes := (subgraph.nodes.rows.map Prod.fst).toFinset
      addedUpdatedEdges := (subgraph.edges.rows.map (fun e => (e.source, e.target))).toFinset }⟩

/-- What `resolve_entities` may hand to `set_graph`: groups of nodes are merged by tasks that run at
the same time, and all of them come to their end. -/
def ResolvesTo (env : IndexEnv) (g : KGraph) (m : Merging) : Prop :=
  ∃ (count : ℕ) (groups : Fin count → List Str) (renv : Resolution.Env)
    (q : Resolution.ResolutionPool (Fin count)),
    (∀ i, (groups i).Nodup) ∧ (∀ i j, i ≠ j → (groups i).Disjoint (groups j)) ∧
    Effect.Pool.Reaches Resolution.serve Resolution.AtAwaits
      (Effect.Pool.start ⟨g, {}⟩ (fun i => Resolution.mergeGraphNodes renv (groups i))) q ∧
    (∀ i, q.threads i = .ret ()) ∧
    m = ⟨setPagerank env q.state.graph, q.state.change⟩

/-- A step on the graph of a knowledge base. -/
inductive GraphStep where
  | merge (subgraph : KGraph)
  | resolve (outcome : Merging)

/-- The graph and the record that the step hands to `set_graph`. -/
def GraphStep.Hands {env : IndexEnv} (idx : Index env) : GraphStep → Merging → Prop
  | .merge subgraph, m => ∃ sources, subgraph.data = some sources ∧
      mergeSubgraph env (getGraph idx sources) subgraph = .ok m
  | .resolve outcome, m => outcome = m ∧ ∃ g, getGraph idx [] = some g ∧ ResolvesTo env g m

def GraphStep.Exec {env : IndexEnv} (idx : Index env) (step : GraphStep) (idx' : Index env) :
    Prop :=
  ∃ m, step.Hands idx m ∧ ∃ order : m.change.Order, setGraph env m.graph order idx = .ok idx'

/-! ### Agreement -/

section agreement
variable {env : IndexEnv}

/-- The chunks of a node. -/
def Index.entitiesOf (idx : Index env) (n : Str) : List EntityChunk :=
  (idx.bodies.filterMap ChunkBody.entity?).filter (·.entityKwd = n)

/-- The chunks of an edge. -/
def Index.relationsOf (idx : Index env) (k : Sym2 Str) : List RelationChunk :=
  (idx.bodies.filterMap ChunkBody.relation?).filter (·.key = k)

/-- The graph the index holds. -/
def Index.graph (idx : Index env) : KGraph :=
  ((idx.bodies.findSome? ChunkBody.graph?).map Prod.fst).getD emptyGraph

/-- One chunk for each node and edge of the graph, made of its attributes, and no other. -/
structure Agrees (idx : Index env) (g : KGraph) : Prop where
  entities : ∀ n, (idx.entitiesOf n).map Except.ok =
    ((g.node? n).map (graphNodeToChunk env n)).toList
  relations : ∀ k b, g.edgeAt k = some b →
    ∃ u v c, s(u, v) = k ∧ graphEdgeToChunk env u v b = .ok c ∧ idx.relationsOf k = [c]
  no_relations : ∀ k, g.edgeAt k = none → idx.relationsOf k = []

/-- The deletions of the step leave no chunk of the edge. -/
def Index.Cleared (idx : Index env) (change : GraphChange) (k : Sym2 Str) : Prop :=
  ∀ c ∈ idx.relationsOf k, c.pair ∈ change.removedEdges

/-- The record lists the edge as added or updated, in one of its orientations. -/
def GraphChange.Lists (change : GraphChange) (k : Sym2 Str) : Prop :=
  ∃ p ∈ change.addedUpdatedEdges, s(p.1, p.2) = k

/-- The record fits an index to which `set_graph` only adds: what it lists has no chunk yet, or none
after the deletions of the step, and the rest is unchanged or deleted. -/
structure Fits (idx : Index env) (m : Merging) : Prop where
  node_listed : ∀ n ∈ m.change.addedUpdatedNodes, idx.graph.HasNode n → n ∈ m.change.removedNodes
  node_rest : ∀ n ∉ m.change.addedUpdatedNodes,
    m.graph.node? n = if n ∈ m.change.removedNodes then none else idx.graph.node? n
  edge_listed : ∀ k, m.change.Lists k → idx.Cleared m.change k
  edge_once : ∀ p ∈ m.change.addedUpdatedEdges, ∀ b, m.graph.edge? p.1 p.2 = some b →
    b.isEmpty = false ∧ (p.swap ∈ m.change.addedUpdatedEdges → p.swap = p)
  edge_rest : ∀ k, ¬m.change.Lists k →
    (idx.Cleared m.change k → m.graph.edgeAt k = none) ∧
    (¬idx.Cleared m.change k → m.graph.edgeAt k = idx.graph.edgeAt k)

/-! ### The chunks of a node and of an edge -/

theorem entry_eq_ok {α : Type} {key : Str} {o : Option α} {a : α} (h : entry key o = .ok a) :
    o = some a := by
  cases o with
  | none => cases h
  | some b => cases h; rfl

theorem graphNodeToChunk_eq_ok {n : Str} {a : NodeAttr} {c : EntityChunk}
    (h : graphNodeToChunk env n a = .ok c) : c.entityKwd = n ∧ c.contentWithWeight = a := by
  obtain ⟨_, -, h⟩ := bind_eq_ok h
  obtain ⟨_, -, h⟩ := bind_eq_ok h
  obtain ⟨_, -, h⟩ := bind_eq_ok h
  cases h
  exact ⟨rfl, rfl⟩

theorem graphEdgeToChunk_eq_ok {u v : Str} {b : EdgeAttr} {c : RelationChunk}
    (h : graphEdgeToChunk env u v b = .ok c) :
    c.pair = (u, v) ∧ c.contentWithWeight = b ∧ b.isEmpty = false := by
  obtain ⟨_, hd, h⟩ := bind_eq_ok h
  obtain ⟨_, -, h⟩ := bind_eq_ok h
  obtain ⟨_, -, h⟩ := bind_eq_ok h
  obtain ⟨_, -, h⟩ := bind_eq_ok h
  cases h
  refine ⟨rfl, rfl, ?_⟩
  simp [EdgeAttr.isEmpty, entry_eq_ok hd]

theorem nodeChunk_eq_ok {g : KGraph} {n : Str} {c : EntityChunk} (h : nodeChunk env g n = .ok c) :
    ∃ a, g.node? n = some a ∧ graphNodeToChunk env n a = .ok c := by
  obtain ⟨a, ha, h⟩ := bind_eq_ok h
  exact ⟨a, entry_eq_ok ha, h⟩

theorem edgeChunk_eq_ok {g : KGraph} {p : Str × Str} {o : Option RelationChunk}
    (h : edgeChunk env g p = .ok o) :
    (o = none ∧ ∀ b, g.edge? p.1 p.2 = some b → b.isEmpty = true) ∨
      ∃ b c, o = some c ∧ g.edge? p.1 p.2 = some b ∧ graphEdgeToChunk env p.1 p.2 b = .ok c := by
  unfold edgeChunk at h
  cases hb : g.edge? p.1 p.2 with
  | none =>
      rw [hb] at h
      cases h
      exact .inl ⟨rfl, fun b hb => by cases hb⟩
  | some b =>
      simp only [hb] at h
      split_ifs at h with hempty
      · cases h
        refine .inl ⟨rfl, fun b' hb' => ?_⟩
        cases hb'
        exact hempty
      · cases hc : graphEdgeToChunk env p.1 p.2 b with
        | error e => rw [hc] at h; cases h
        | ok c =>
            rw [hc] at h
            cases h
            exact .inr ⟨b, c, rfl, rfl, hc⟩

/-- What `set_graph` inserts, by kind. -/
structure Inserted (env : IndexEnv) (g : KGraph) {change : GraphChange} (order : change.Order)
    (chunks : List ChunkBody) (sources : List Str) (subgraphs : List KGraph)
    (entities : List EntityChunk) (relations : List (Option RelationChunk)) : Prop where
  data : g.data = some sources
  subgraphs_ok : sources.map (documentSubgraph g) = subgraphs.map .ok
  entities_ok : order.nodes.map (nodeChunk env g) = entities.map .ok
  relations_ok : order.edges.map (edgeChunk env g) = relations.map .ok
  graph? : chunks.findSome? ChunkBody.graph? = some (g, sources, false)
  subgraph? : chunks.filterMap ChunkBody.subgraph? =
    (sources.zip subgraphs).map (fun x => (x.2, [x.1]))
  entity? : chunks.filterMap ChunkBody.entity? = entities
  relation? : chunks.filterMap ChunkBody.relation? = relations.filterMap id

theorem filterMap_map_none {α β γ : Type} {f : α → β} {p : β → Option γ} (h : ∀ x, p (f x) = none)
    (l : List α) : (l.map f).filterMap p = [] := by
  rw [List.filterMap_map, List.filterMap_eq_nil_iff]
  exact fun x _ => h x

theorem filterMap_map_some {α β γ : Type} {f : α → β} {p : β → Option γ} {q : α → γ}
    (h : ∀ x, p (f x) = some (q x)) (l : List α) : (l.map f).filterMap p = l.map q := by
  have hsome : p ∘ f = some ∘ q := funext h
  rw [List.filterMap_map, hsome, List.filterMap_eq_map]

theorem newChunks_eq_ok {g : KGraph} {change : GraphChange} {order : change.Order}
    {chunks : List ChunkBody} (h : newChunks env g order = .ok chunks) :
    ∃ sources subgraphs entities relations,
      Inserted env g order chunks sources subgraphs entities relations := by
  obtain ⟨sources, hdata, h⟩ := bind_eq_ok h
  obtain ⟨subgraphs, hsubgraphs, h⟩ := bind_eq_ok h
  obtain ⟨entities, hentities, h⟩ := bind_eq_ok h
  obtain ⟨relations, hrelations, h⟩ := bind_eq_ok h
  cases h
  refine ⟨sources, subgraphs, entities, relations, entry_eq_ok hdata, mapM_eq_ok_iff.mp hsubgraphs,
    mapM_eq_ok_iff.mp hentities, mapM_eq_ok_iff.mp hrelations, rfl, ?_, ?_, ?_⟩
  · rw [List.cons_append, List.cons_append, List.filterMap_cons_none rfl, List.filterMap_append,
      List.filterMap_append]
    rw [filterMap_map_some (p := ChunkBody.subgraph?)
      (q := fun x : Str × KGraph => (x.2, [x.1])) (fun _ => rfl),
      filterMap_map_none (fun _ => rfl), filterMap_map_none (fun _ => rfl), List.append_nil,
      List.append_nil]
  · rw [List.cons_append, List.cons_append, List.filterMap_cons_none rfl, List.filterMap_append,
      List.filterMap_append]
    rw [filterMap_map_none (fun _ => rfl),
      filterMap_map_some (p := ChunkBody.entity?) (q := id) (fun _ => rfl),
      filterMap_map_none (fun _ => rfl), List.map_id, List.nil_append, List.append_nil]
  · rw [List.cons_append, List.cons_append, List.filterMap_cons_none rfl, List.filterMap_append,
      List.filterMap_append]
    rw [filterMap_map_none (fun _ => rfl), filterMap_map_none (fun _ => rfl),
      filterMap_map_some (p := ChunkBody.relation?) (q := id) (fun _ => rfl), List.map_id,
      List.nil_append, List.nil_append]

/-- The new chunks of a node: one if the record lists it. -/
theorem filter_entities {g : KGraph} {n : Str} (nodes : List Str) : ∀ {entities : List EntityChunk},
    nodes.Nodup → nodes.map (nodeChunk env g) = entities.map .ok →
    (entities.filter (·.entityKwd = n)).map .ok =
      if n ∈ nodes then [nodeChunk env g n] else [] := by
  induction nodes with
  | nil =>
      intro entities _ h
      rw [List.map_nil, eq_comm, List.map_eq_nil_iff] at h
      rw [h]
      rfl
  | cons x nodes ih =>
      intro entities hnodup h
      obtain ⟨hx, hnodup⟩ := List.nodup_cons.mp hnodup
      cases entities with
      | nil => cases h
      | cons c entities =>
          obtain ⟨hc, hrest⟩ := List.cons.inj h
          obtain ⟨a, -, ha⟩ := nodeChunk_eq_ok hc
          have hname : c.entityKwd = x := (graphNodeToChunk_eq_ok ha).1
          have hih := ih hnodup hrest
          by_cases hxn : x = n
          · subst hxn
            rw [if_neg hx, List.map_eq_nil_iff] at hih
            rw [List.filter_cons_of_pos (by simp [hname]), hih, if_pos List.mem_cons_self, hc]
            rfl
          · have hmem : n ∈ x :: nodes ↔ n ∈ nodes := by
              rw [List.mem_cons, or_iff_right (Ne.symm hxn)]
            rw [List.filter_cons_of_neg (by simp [hname, hxn]), hih]
            simp only [hmem]

/-- The new chunks of an edge that is not in the graph, or whose attributes are empty. -/
theorem filter_relations_nil {g : KGraph} {k : Sym2 Str}
    (hk : ∀ b, g.edgeAt k = some b → b.isEmpty = true) (edges : List (Str × Str)) :
    ∀ {relations : List (Option RelationChunk)},
    edges.map (edgeChunk env g) = relations.map .ok →
    (relations.filterMap id).filter (·.key = k) = [] := by
  intro relations h
  rw [List.filter_eq_nil_iff]
  intro c hc hkey
  rw [decide_eq_true_eq] at hkey
  obtain ⟨o, ho, rfl⟩ := List.mem_filterMap.mp hc
  have hmem : Except.ok (some c) ∈ edges.map (edgeChunk env g) := by
    rw [h]
    exact List.mem_map_of_mem ho
  obtain ⟨p, -, hp⟩ := List.mem_map.mp hmem
  rcases edgeChunk_eq_ok hp with ⟨hnone, -⟩ | ⟨b, c', hsome, hb, hc'⟩
  · cases hnone
  · cases hsome
    obtain ⟨hpair, -, hfull⟩ := graphEdgeToChunk_eq_ok hc'
    have hk' : c.key = s(p.1, p.2) := by
      show s(c.pair.1, c.pair.2) = _
      rw [hpair]
    have hempty := hk b (by rw [← hkey, hk']; exact hb)
    rw [hempty] at hfull
    cases hfull

/-- The new chunks of an edge of the graph: one for each orientation in which the record lists
it. -/
theorem filter_relations_some {g : KGraph} {k : Sym2 Str} {b : EdgeAttr} (hk : g.edgeAt k = some b)
    (hb : b.isEmpty = false) (edges : List (Str × Str)) :
    ∀ {relations : List (Option RelationChunk)},
    edges.map (edgeChunk env g) = relations.map .ok →
    ((relations.filterMap id).filter (·.key = k)).map .ok =
      (edges.filter (fun p => s(p.1, p.2) = k)).map (fun p => graphEdgeToChunk env p.1 p.2 b) := by
  induction edges with
  | nil =>
      intro relations h
      rw [List.map_nil, eq_comm, List.map_eq_nil_iff] at h
      rw [h]
      rfl
  | cons p edges ih =>
      intro relations h
      cases relations with
      | nil => cases h
      | cons o relations =>
          obtain ⟨ho, hrest⟩ := List.cons.inj h
          have hih := ih hrest
          by_cases hpk : s(p.1, p.2) = k
          · have hedge : g.edge? p.1 p.2 = some b := by
              unfold Graph.edge?
              rw [hpk]
              exact hk
            rcases edgeChunk_eq_ok ho with ⟨-, hnone⟩ | ⟨b', c, rfl, hb', hc⟩
            · rw [hnone b hedge] at hb
              cases hb
            · rw [hedge] at hb'
              cases hb'
              have hkey : c.key = k := by
                rw [← hpk]
                show s(c.pair.1, c.pair.2) = _
                rw [(graphEdgeToChunk_eq_ok hc).1]
              rw [List.filter_cons_of_pos (by simpa using hpk), List.map_cons, hc, ← hih]
              show (List.filter _ (c :: relations.filterMap id)).map _ = _
              rw [List.filter_cons_of_pos (by simpa using hkey), List.map_cons]
          · rw [List.filter_cons_of_neg (by simpa using hpk), ← hih]
            rcases edgeChunk_eq_ok ho with ⟨rfl, -⟩ | ⟨b', c, rfl, -, hc⟩
            · rfl
            · have hkey : ¬c.key = k := by
                intro hkey
                apply hpk
                rw [← hkey]
                show _ = s(c.pair.1, c.pair.2)
                rw [(graphEdgeToChunk_eq_ok hc).1]
              show (List.filter _ (c :: relations.filterMap id)).map _ = _
              rw [List.filter_cons_of_neg (by simpa using hkey)]

/-! ### The index after `set_graph` -/

theorem bodies_clearGraph (change : GraphChange) (idx : Index env) :
    (clearGraph change idx).bodies = ((idx.bodies.filter (fun b => !b.isGraph)).filter
      (fun b => !b.isEntityOf change.removedNodes)).filter
        (fun b => !b.isRelationOf change.removedEdges) := by
  unfold clearGraph
  rw [Index.bodies_delete, Index.bodies_delete, Index.bodies_delete]

/-- Of the chunks of one kind, those remain that satisfy `keep`. -/
theorem filterMap_clearGraph {α : Type} {change : GraphChange} {idx : Index env}
    {p : ChunkBody → Option α} {keep : α → Bool}
    (hp : ∀ b x, p b = some x → (!b.isGraph && !b.isEntityOf change.removedNodes &&
      !b.isRelationOf change.removedEdges) = keep x) :
    (clearGraph change idx).bodies.filterMap p = (idx.bodies.filterMap p).filter keep := by
  rw [bodies_clearGraph, List.filter_filter, List.filter_filter, List.filter_filterMap,
    List.filterMap_filter]
  refine List.filterMap_congr (fun b _ => ?_)
  cases hb : p b with
  | none => simp
  | some x =>
      rw [Option.filter_some, ← hp b x hb]
      simp only [Bool.and_comm, Bool.and_left_comm, Bool.and_assoc]

theorem setGraph_eq_ok {g : KGraph} {change : GraphChange} {order : change.Order}
    {idx idx' : Index env} (h : setGraph env g order idx = .ok idx') :
    ∃ chunks, newChunks env g order = .ok chunks ∧
      idx' = (clearGraph change idx).insertAll chunks := by
  obtain ⟨chunks, hchunks, h⟩ := bind_eq_ok h
  cases h
  exact ⟨chunks, hchunks, rfl⟩

/-- The chunks of a node after `set_graph`. -/
theorem entitiesOf_setGraph {g : KGraph} {change : GraphChange} {order : change.Order}
    {idx idx' : Index env} (h : setGraph env g order idx = .ok idx') (n : Str) :
    (idx'.entitiesOf n).map .ok =
      (if n ∈ change.removedNodes then [] else (idx.entitiesOf n).map .ok) ++
        if n ∈ change.addedUpdatedNodes then [nodeChunk env g n] else [] := by
  obtain ⟨chunks, hchunks, rfl⟩ := setGraph_eq_ok h
  obtain ⟨sources, subgraphs, entities, relations, hins⟩ := newChunks_eq_ok hchunks
  have hold : (clearGraph change idx).bodies.filterMap ChunkBody.entity? =
      (idx.bodies.filterMap ChunkBody.entity?).filter (·.entityKwd ∉ change.removedNodes) := by
    refine filterMap_clearGraph (fun b x hb => ?_)
    cases b with
    | graph => cases hb
    | subgraph => cases hb
    | entity c =>
        cases hb
        simp [ChunkBody.isGraph, ChunkBody.isEntityOf, ChunkBody.isRelationOf]
    | relation => cases hb
  have hnew := filter_entities (n := n) order.nodes order.nodes_nodup hins.entities_ok
  simp only [order.mem_nodes] at hnew
  unfold Index.entitiesOf
  rw [Index.bodies_insertAll, List.filterMap_append, List.filter_append, hold, hins.entity?,
    List.map_append, hnew, List.filter_filter]
  congr 1
  split_ifs with hn
  · rw [List.map_eq_nil_iff, List.filter_eq_nil_iff]
    intro c _ hc
    rw [Bool.and_eq_true, decide_eq_true_eq, decide_eq_true_eq] at hc
    exact hc.2 (hc.1 ▸ hn)
  · congr 1
    refine List.filter_congr (fun c _ => ?_)
    by_cases hc : c.entityKwd = n
    · simp [hc, hn]
    · simp [hc]

/-- The chunks of an edge after `set_graph`. -/
theorem relationsOf_setGraph {g : KGraph} {change : GraphChange} {order : change.Order}
    {idx idx' : Index env} (h : setGraph env g order idx = .ok idx') (k : Sym2 Str) :
    ∃ new, idx'.relationsOf k =
        (idx.relationsOf k).filter (fun c => c.pair ∉ change.removedEdges) ++ new ∧
      ((∀ b, g.edgeAt k = some b → b.isEmpty = true) → new = []) ∧
      ∀ b, g.edgeAt k = some b → b.isEmpty = false → new.map .ok =
        (order.edges.filter (fun p => s(p.1, p.2) = k)).map
          (fun p => graphEdgeToChunk env p.1 p.2 b) := by
  obtain ⟨chunks, hchunks, rfl⟩ := setGraph_eq_ok h
  obtain ⟨sources, subgraphs, entities, relations, hins⟩ := newChunks_eq_ok hchunks
  have hold : (clearGraph change idx).bodies.filterMap ChunkBody.relation? =
      (idx.bodies.filterMap ChunkBody.relation?).filter (·.pair ∉ change.removedEdges) := by
    refine filterMap_clearGraph (fun b x hb => ?_)
    cases b with
    | graph => cases hb
    | subgraph => cases hb
    | entity => cases hb
    | relation c =>
        cases hb
        simp [ChunkBody.isGraph, ChunkBody.isEntityOf, ChunkBody.isRelationOf]
  refine ⟨(relations.filterMap id).filter (·.key = k), ?_,
    fun hk => filter_relations_nil hk order.edges hins.relations_ok,
    fun b hk hb => filter_relations_some hk hb order.edges hins.relations_ok⟩
  unfold Index.relationsOf
  rw [Index.bodies_insertAll, List.filterMap_append, List.filter_append, hold, hins.relation?,
    List.filter_comm]

/-- The graph chunk after `set_graph` is the new one. -/
theorem findSome?_setGraph {g : KGraph} {change : GraphChange} {order : change.Order}
    {idx idx' : Index env} (h : setGraph env g order idx = .ok idx') :
    ∃ sources, g.data = some sources ∧
      idx'.bodies.findSome? ChunkBody.graph? = some (g, sources, false) := by
  obtain ⟨chunks, hchunks, rfl⟩ := setGraph_eq_ok h
  obtain ⟨sources, subgraphs, entities, relations, hins⟩ := newChunks_eq_ok hchunks
  have hold : (clearGraph change idx).bodies.findSome? ChunkBody.graph? = none := by
    rw [List.findSome?_eq_none_iff]
    intro b hb
    rw [bodies_clearGraph] at hb
    have hgraph := (List.mem_filter.mp (List.mem_filter.mp (List.mem_filter.mp hb).1).1).2
    cases b with
    | graph => cases hgraph
    | subgraph => rfl
    | entity => rfl
    | relation => rfl
  refine ⟨sources, hins.data, ?_⟩
  rw [Index.bodies_insertAll, List.findSome?_append, hold, Option.none_or, hins.graph?]

theorem graph_setGraph {g : KGraph} {change : GraphChange} {order : change.Order}
    {idx idx' : Index env} (h : setGraph env g order idx = .ok idx') : idx'.graph = g := by
  obtain ⟨sources, -, hgraph⟩ := findSome?_setGraph h
  unfold Index.graph
  rw [hgraph]
  rfl

/-- `get_graph` returns the graph that was stored. -/
theorem getGraph_setGraph {g : KGraph} {change : GraphChange} {order : change.Order}
    {idx idx' : Index env} (h : setGraph env g order idx = .ok idx') (exclude : List Str) :
    getGraph idx' exclude = some g := by
  obtain ⟨sources, hdata, hgraph⟩ := findSome?_setGraph h
  have hsources : (g.data <|> some sources) = g.data := by
    rw [hdata]
    rfl
  unfold getGraph
  simp only [hgraph, hsources]

/-! ### Agreement after `set_graph` -/

theorem graphNodeToChunk_inj {n : Str} {a a' : NodeAttr} {c : EntityChunk}
    (h : graphNodeToChunk env n a = .ok c) (h' : graphNodeToChunk env n a' = .ok c) : a = a' := by
  rw [← (graphNodeToChunk_eq_ok h).2, ← (graphNodeToChunk_eq_ok h').2]

section step
variable {m : Merging} {order : m.change.Order} {idx idx' : Index env}

/-- The chunks of a node agree with the new graph exactly if the record fits at the node. -/
theorem entities_iff (hidx : Agrees idx idx.graph) (h : setGraph env m.graph order idx = .ok idx')
    (n : Str) :
    (idx'.entitiesOf n).map Except.ok = ((m.graph.node? n).map (graphNodeToChunk env n)).toList ↔
      (n ∈ m.change.addedUpdatedNodes → idx.graph.HasNode n → n ∈ m.change.removedNodes) ∧
      (n ∉ m.change.addedUpdatedNodes →
        m.graph.node? n = if n ∈ m.change.removedNodes then none else idx.graph.node? n) := by
  have hold := hidx.entities n
  rw [entitiesOf_setGraph h, hold]
  by_cases hlist : n ∈ m.change.addedUpdatedNodes
  · have hnew : ((m.graph.node? n).map (graphNodeToChunk env n)).toList =
        [nodeChunk env m.graph n] := by
      have hmem : nodeChunk env m.graph n ∈ order.nodes.map (nodeChunk env m.graph) :=
        List.mem_map_of_mem ((order.mem_nodes n).mpr hlist)
      obtain ⟨chunks, hchunks, -⟩ := setGraph_eq_ok h
      obtain ⟨_, _, entities, _, hins⟩ := newChunks_eq_ok hchunks
      rw [hins.entities_ok] at hmem
      obtain ⟨c, -, hc⟩ := List.mem_map.mp hmem
      obtain ⟨a, ha, hac⟩ := nodeChunk_eq_ok hc.symm
      rw [ha, ← hc, ← hac]
      rfl
    rw [if_pos hlist, hnew]
    simp only [hlist, not_true_eq_false, false_implies, and_true, true_implies]
    rw [List.append_left_eq_self]
    by_cases hrem : n ∈ m.change.removedNodes
    · simp [hrem]
    · unfold Graph.HasNode
      cases hnode : idx.graph.node? n with
      | none => simp
      | some a => simp [hrem]
  · rw [if_neg hlist, List.append_nil]
    simp only [hlist, false_implies, not_false_eq_true, true_implies, true_and]
    by_cases hrem : n ∈ m.change.removedNodes
    · simp only [hrem, if_true]
      cases m.graph.node? n with
      | none => simp
      | some a => simp
    · simp only [hrem, if_false]
      cases hnode : idx.graph.node? n with
      | none =>
          cases m.graph.node? n with
          | none => simp
          | some a => simp
      | some a =>
          rw [hnode] at hold
          cases hnew : m.graph.node? n with
          | none => simp
          | some a' =>
              simp only [Option.map_some, Option.toList_some, List.cons.injEq, and_true,
                Option.some.injEq]
              constructor
              · intro heq
                have hmem : graphNodeToChunk env n a ∈ (idx.entitiesOf n).map Except.ok := by
                  rw [hold]
                  exact List.mem_singleton_self _
                obtain ⟨c, -, hc⟩ := List.mem_map.mp hmem
                exact graphNodeToChunk_inj (heq ▸ hc.symm) hc.symm
              · rintro rfl
                rfl

theorem filter_eq_nil_iff_cleared {change : GraphChange} {k : Sym2 Str} :
    (idx.relationsOf k).filter (fun c => c.pair ∉ change.removedEdges) = [] ↔
      idx.Cleared change k := by
  rw [List.filter_eq_nil_iff]
  simp only [decide_eq_true_eq, not_not]
  rfl

/-- A chunk that the deletions leave is the one of the edge. -/
theorem filter_of_not_cleared (hidx : Agrees idx idx.graph) {change : GraphChange} {k : Sym2 Str}
    (hk : ¬idx.Cleared change k) :
    ∃ u v b c, idx.graph.edgeAt k = some b ∧ s(u, v) = k ∧ graphEdgeToChunk env u v b = .ok c ∧
      (idx.relationsOf k).filter (fun c => c.pair ∉ change.removedEdges) = [c] := by
  cases hedge : idx.graph.edgeAt k with
  | none =>
      refine absurd ?_ hk
      intro c hc
      rw [hidx.no_relations k hedge] at hc
      cases hc
  | some b =>
      obtain ⟨u, v, c, huv, hc, hrel⟩ := hidx.relations k b hedge
      refine ⟨u, v, b, c, rfl, huv, hc, ?_⟩
      have hpair : c.pair ∉ change.removedEdges := by
        intro hpair
        refine hk (fun c' hc' => ?_)
        rw [hrel, List.mem_singleton] at hc'
        exact hc' ▸ hpair
      rw [hrel, List.filter_cons_of_pos (by simpa using hpair), List.filter_nil]

/-- The relation chunks of an edge agree with the graph. -/
def Index.AgreesAt (idx : Index env) (g : KGraph) (k : Sym2 Str) : Prop :=
  (∀ b, g.edgeAt k = some b →
    ∃ u v c, s(u, v) = k ∧ graphEdgeToChunk env u v b = .ok c ∧ idx.relationsOf k = [c]) ∧
  (g.edgeAt k = none → idx.relationsOf k = [])

/-- An edge that the record does not list gets no chunk. -/
theorem agreesAt_iff_of_not_lists (hidx : Agrees idx idx.graph)
    (h : setGraph env m.graph order idx = .ok idx') {k : Sym2 Str} (hk : ¬m.change.Lists k) :
    idx'.AgreesAt m.graph k ↔
      (idx.Cleared m.change k → m.graph.edgeAt k = none) ∧
      (¬idx.Cleared m.change k → m.graph.edgeAt k = idx.graph.edgeAt k) := by
  obtain ⟨new, hrel, hnil, hsome⟩ := relationsOf_setGraph h k
  have hnone : order.edges.filter (fun p => s(p.1, p.2) = k) = [] := by
    rw [List.filter_eq_nil_iff]
    intro p hp hpk
    exact hk ⟨p, (order.mem_edges p).mp hp, of_decide_eq_true hpk⟩
  have hnew : new = [] := by
    by_cases hempty : ∀ b, m.graph.edgeAt k = some b → b.isEmpty = true
    · exact hnil hempty
    · push Not at hempty
      obtain ⟨b, hb, hfull⟩ := hempty
      have hmap := hsome b hb (Bool.eq_false_iff.mpr hfull)
      rw [hnone, List.map_nil, List.map_eq_nil_iff] at hmap
      exact hmap
  rw [hnew, List.append_nil] at hrel
  unfold Index.AgreesAt
  by_cases hclear : idx.Cleared m.change k
  · rw [filter_eq_nil_iff_cleared.mpr hclear] at hrel
    simp only [hrel, hclear, not_true_eq_false, false_implies, and_true, true_implies]
    cases m.graph.edgeAt k with
    | none => simp
    | some b => simp
  · obtain ⟨u, v, b, c, hedge, huv, hc, hold⟩ := filter_of_not_cleared hidx hclear
    rw [hold] at hrel
    simp only [hrel, hclear, false_implies, true_and, not_false_eq_true, true_implies, hedge]
    constructor
    · rintro ⟨hagree, hno⟩
      cases hedge' : m.graph.edgeAt k with
      | none => cases hno hedge'
      | some b' =>
          obtain ⟨u', v', c', -, hc', hcc⟩ := hagree b' hedge'
          cases hcc
          rw [← (graphEdgeToChunk_eq_ok hc).2.1, ← (graphEdgeToChunk_eq_ok hc').2.1]
    · intro hedge'
      rw [hedge']
      refine ⟨fun b' hb' => ?_, fun hno => by cases hno⟩
      cases hb'
      exact ⟨u, v, c, huv, hc, rfl⟩

theorem eq_or_swap_of_key {p q : Str × Str} (h : s(p.1, p.2) = s(q.1, q.2)) :
    q = p ∨ q = p.swap := by
  rcases Sym2.eq_iff.mp h with ⟨h1, h2⟩ | ⟨h1, h2⟩
  · exact .inl (Prod.ext h1.symm h2.symm)
  · exact .inr (Prod.ext h2.symm h1.symm)

/-- The orientations in which the record lists an edge: one exactly if the other is not listed. -/
theorem length_filter_key (order : m.change.Order) {k : Sym2 Str} {p : Str × Str}
    (hp : p ∈ m.change.addedUpdatedEdges) (hpk : s(p.1, p.2) = k) :
    (order.edges.filter (fun p => s(p.1, p.2) = k)).length = 1 ↔
      (p.swap ∈ m.change.addedUpdatedEdges → p.swap = p) := by
  have hmem : p ∈ order.edges.filter (fun p => s(p.1, p.2) = k) :=
    List.mem_filter.mpr ⟨(order.mem_edges p).mpr hp, decide_eq_true hpk⟩
  have hnodup : (order.edges.filter (fun p => s(p.1, p.2) = k)).Nodup := order.edges_nodup.filter _
  rw [List.length_eq_one_iff]
  constructor
  · rintro ⟨q, hq⟩ hswap
    have hmem' : p.swap ∈ order.edges.filter (fun p => s(p.1, p.2) = k) :=
      List.mem_filter.mpr ⟨(order.mem_edges _).mpr hswap,
        decide_eq_true ((Sym2.eq_swap : s(p.2, p.1) = _).trans hpk)⟩
    rw [hq, List.mem_singleton] at hmem hmem'
    rw [hmem', hmem]
  · intro honce
    refine ⟨p, List.perm_singleton.mp ((List.perm_ext_iff_of_nodup hnodup
      (List.nodup_singleton p)).mpr (fun q => ?_))⟩
    rw [List.mem_singleton]
    constructor
    · intro hq
      obtain ⟨hq, hqk⟩ := List.mem_filter.mp hq
      rcases eq_or_swap_of_key (hpk.trans (of_decide_eq_true hqk).symm) with h | h
      · exact h
      · exact h.trans (honce (h ▸ (order.mem_edges q).mp hq))
    · rintro rfl
      exact hmem

/-- An edge that the record lists gets a chunk for each orientation in which it is listed. -/
theorem agreesAt_iff_of_lists (h : setGraph env m.graph order idx = .ok idx') {k : Sym2 Str}
    (hk : m.change.Lists k) :
    idx'.AgreesAt m.graph k ↔ idx.Cleared m.change k ∧
      ∀ p ∈ m.change.addedUpdatedEdges, s(p.1, p.2) = k → ∀ b, m.graph.edgeAt k = some b →
        b.isEmpty = false ∧ (p.swap ∈ m.change.addedUpdatedEdges → p.swap = p) := by
  obtain ⟨new, hrel, hnil, hsome⟩ := relationsOf_setGraph h k
  unfold Index.AgreesAt
  cases hedge : m.graph.edgeAt k with
  | none =>
      have hnew : new = [] := hnil (fun b hb => by rw [hedge] at hb; cases hb)
      rw [hnew, List.append_nil] at hrel
      rw [hrel, filter_eq_nil_iff_cleared]
      simp
  | some b =>
      by_cases hfull : b.isEmpty = false
      · have hmap := hsome b hedge hfull
        obtain ⟨p₀, hp₀, hp₀k⟩ := hk
        have hlen := congrArg List.length hmap
        rw [List.length_map, List.length_map] at hlen
        have hpos : 0 < new.length := by
          rw [hlen]
          exact List.length_pos_of_mem (List.mem_filter.mpr
            ⟨(order.mem_edges p₀).mpr hp₀, decide_eq_true hp₀k⟩)
        constructor
        · rintro ⟨hagree, -⟩
          obtain ⟨u, v, c, -, -, hone⟩ := hagree b rfl
          have hcount := congrArg List.length (hrel.symm.trans hone)
          rw [List.length_append, List.length_singleton] at hcount
          refine ⟨filter_eq_nil_iff_cleared.mp (List.length_eq_zero_iff.mp (by omega)), ?_⟩
          intro p hp hpk b' hb'
          cases hb'
          exact ⟨hfull, (length_filter_key order hp hpk).mp (by omega)⟩
        · rintro ⟨hclear, honce⟩
          rw [filter_eq_nil_iff_cleared.mpr hclear, List.nil_append] at hrel
          have hlen1 := (length_filter_key order hp₀ hp₀k).mpr
            (honce p₀ hp₀ hp₀k b rfl).2
          obtain ⟨p, hp⟩ := List.length_eq_one_iff.mp hlen1
          obtain ⟨c, hc⟩ := List.length_eq_one_iff.mp (hlen.trans hlen1)
          have hpk : p ∈ order.edges.filter (fun p => s(p.1, p.2) = k) := by
            rw [hp]
            exact List.mem_singleton_self p
          rw [hp, hc] at hmap
          refine ⟨fun b' hb' => ?_, fun hno => by cases hno⟩
          cases hb'
          exact ⟨p.1, p.2, c, of_decide_eq_true (List.mem_filter.mp hpk).2,
            (List.cons.inj hmap).1.symm, hrel.trans hc⟩
      · -- empty attributes have no description, so no chunk is made of them
        constructor
        · rintro ⟨hagree, -⟩
          obtain ⟨u, v, c, -, hc, -⟩ := hagree b rfl
          exact absurd (graphEdgeToChunk_eq_ok hc).2.2 hfull
        · rintro ⟨-, honce⟩
          obtain ⟨p, hp, hpk⟩ := hk
          exact absurd (honce p hp hpk b rfl).1 hfull

/-- A step keeps the agreement of the index exactly if its record fits the index. -/
theorem setGraph_agrees_iff (hidx : Agrees idx idx.graph)
    (h : setGraph env m.graph order idx = .ok idx') :
    Agrees idx' m.graph ↔ Fits idx m := by
  constructor
  · intro hagree
    have hnode := fun n => (entities_iff hidx h n).mp (hagree.entities n)
    have hat : ∀ k, idx'.AgreesAt m.graph k :=
      fun k => ⟨hagree.relations k, hagree.no_relations k⟩
    refine ⟨fun n => (hnode n).1, fun n => (hnode n).2, ?_, ?_, ?_⟩
    · intro k hk
      exact ((agreesAt_iff_of_lists h hk).mp (hat k)).1
    · intro p hp
      have hk : m.change.Lists s(p.1, p.2) := ⟨p, hp, rfl⟩
      exact ((agreesAt_iff_of_lists h hk).mp (hat _)).2 p hp rfl
    · intro k hk
      exact (agreesAt_iff_of_not_lists hidx h hk).mp (hat k)
  · intro hfits
    have hat : ∀ k, idx'.AgreesAt m.graph k := by
      intro k
      by_cases hk : m.change.Lists k
      · refine (agreesAt_iff_of_lists h hk).mpr ⟨hfits.edge_listed k hk, ?_⟩
        rintro p hp rfl b hb
        exact hfits.edge_once p hp b hb
      · exact (agreesAt_iff_of_not_lists hidx h hk).mpr (hfits.edge_rest k hk)
    refine ⟨fun n => ?_, fun k => (hat k).1, fun k => (hat k).2⟩
    exact (entities_iff hidx h n).mpr ⟨hfits.node_listed n, hfits.node_rest n⟩

end step

/-! ### When `set_graph` succeeds -/

/-- The graph and the elements that the record lists have the entries that `set_graph` reads. -/
structure Storable (env : IndexEnv) (m : Merging) : Prop where
  data : m.graph.data.isSome
  sources : m.graph.nodes.rows.all (·.2.sourceId.isSome)
  nodes : ∀ n ∈ m.change.addedUpdatedNodes, (nodeChunk env m.graph n).isOk
  edges : ∀ p ∈ m.change.addedUpdatedEdges, (edgeChunk env m.graph p).isOk

theorem exists_setGraph_eq_ok {m : Merging} (h : Storable env m) (order : m.change.Order)
    (idx : Index env) : ∃ idx', setGraph env m.graph order idx = .ok idx' := by
  obtain ⟨sources, hdata⟩ := Option.isSome_iff_exists.mp h.data
  obtain ⟨subgraphs, hsubgraphs⟩ := exists_mapM_eq_ok (f := documentSubgraph m.graph) sources
    (fun source _ => by unfold documentSubgraph; rw [if_pos h.sources]; rfl)
  obtain ⟨entities, hentities⟩ := exists_mapM_eq_ok order.nodes
    (fun n hn => h.nodes n ((order.mem_nodes n).mp hn))
  obtain ⟨relations, hrelations⟩ := exists_mapM_eq_ok order.edges
    (fun p hp => h.edges p ((order.mem_edges p).mp hp))
  have hsource : entry "source_id" m.graph.data = .ok sources := by
    rw [hdata]
    rfl
  unfold setGraph newChunks
  simp only [hsource, ok_bind, hsubgraphs, hentities, hrelations]
  exact ⟨_, rfl⟩

theorem exists_order (change : GraphChange) : Nonempty change.Order :=
  ⟨⟨change.addedUpdatedNodes.toList, change.addedUpdatedEdges.toList, Finset.nodup_toList _,
    Finset.nodup_toList _, fun _ => Finset.mem_toList, fun _ => Finset.mem_toList⟩⟩

/-! ### Runs -/

theorem agrees_empty : Agrees (Index.empty : Index env) (Index.empty : Index env).graph :=
  ⟨fun _ => rfl, fun _ _ hb => (by cases hb), fun _ _ => rfl⟩

/-- What a step hands to `set_graph` is determined by the step and the index. -/
theorem GraphStep.Hands.unique {idx : Index env} {step : GraphStep} {m m' : Merging}
    (h : step.Hands idx m) (h' : step.Hands idx m') : m = m' := by
  cases step with
  | merge subgraph =>
      obtain ⟨sources, hdata, hm⟩ := h
      obtain ⟨sources', hdata', hm'⟩ := h'
      cases hdata.symm.trans hdata'
      cases hm.symm.trans hm'
      rfl
  | resolve outcome => exact h.1.symm.trans h'.1

theorem exec_agrees_iff {idx idx' : Index env} {step : GraphStep} (hidx : Agrees idx idx.graph)
    (h : step.Exec idx idx') :
    Agrees idx' idx'.graph ↔ ∀ m, step.Hands idx m → Fits idx m := by
  obtain ⟨m, hm, order, hset⟩ := h
  rw [graph_setGraph hset, setGraph_agrees_iff hidx hset]
  refine ⟨fun hfits m' hm' => ?_, fun hall => hall m hm⟩
  rw [← hm.unique hm']
  exact hfits

/-- Along a run of merges and resolutions from the empty index, the index agrees with the graph it
holds after every step exactly if every step hands `set_graph` a record that fits. -/
theorem index_agrees_iff (run : List (GraphStep × Index env))
    (hrun : Transition.IsRun GraphStep.Exec Index.empty run) :
    (∀ x ∈ run, Agrees x.2 x.2.graph) ↔
      Transition.AllSteps (fun idx step => ∀ m, GraphStep.Hands idx step m → Fits idx m)
        Index.empty run :=
  Transition.states_iff_steps (fun idx : Index env => Agrees idx idx.graph)
    (fun hidx h => exec_agrees_iff hidx h) run agrees_empty hrun

theorem exec_merge (idx : Index env) (subgraph : KGraph) (sources : List Str) {m : Merging}
    (hdata : subgraph.data = some sources)
    (hm : mergeSubgraph env (getGraph idx sources) subgraph = .ok m) (h : Storable env m) :
    ∃ idx', (GraphStep.merge subgraph).Exec idx idx' ∧
      ∃ order : m.change.Order, setGraph env m.graph order idx = .ok idx' := by
  obtain ⟨order⟩ := exists_order m.change
  obtain ⟨idx', hset⟩ := exists_setGraph_eq_ok h order idx
  exact ⟨idx', ⟨m, ⟨sources, hdata, hm⟩, order, hset⟩, order, hset⟩

/-- A first document whose edges have attributes: its record fits the empty index. -/
theorem fits_first_merge {subgraph : KGraph} {m : Merging}
    (h : mergeSubgraph env none subgraph = .ok m)
    (hedges : ∀ e ∈ subgraph.edges.rows, e.attr.isEmpty = false) :
    Fits (Index.empty : Index env) m := by
  cases h
  have hclear : ∀ change k, (Index.empty : Index env).Cleared change k :=
    fun _ _ c hc => absurd hc List.not_mem_nil
  have hlisted : ∀ {p : Str × Str},
      p ∈ (subgraph.edges.rows.map (fun e => (e.source, e.target))).toFinset →
      ∃ e ∈ subgraph.edges.rows, (e.source, e.target) = p := by
    intro p hp
    exact List.mem_map.mp (List.mem_toFinset.mp hp)
  refine ⟨fun n _ hn => (by cases hn), fun n hn => ?_, fun k _ => hclear _ k, ?_, ?_⟩
  · rw [List.mem_toFinset, ← Graph.hasNode_iff] at hn
    show (setPagerank env subgraph).node? n = _
    unfold setPagerank
    rw [Graph.node?_mapNodes, Option.not_isSome_iff_eq_none.mp hn]
    rfl
  · intro p hp b hb
    obtain ⟨e, he, rfl⟩ := hlisted hp
    constructor
    · have hb' : subgraph.edge? e.source e.target = some b := hb
      rw [Graph.edge?_of_mem he] at hb'
      cases hb'
      exact hedges e he
    · intro hswap
      obtain ⟨e', he', heq⟩ := hlisted hswap
      have hkey : e'.key = e.key := by
        obtain ⟨hs, ht⟩ := Prod.mk.inj heq
        unfold Edge.key
        rw [hs, ht]
        exact Sym2.eq_swap
      rw [← heq, subgraph.edges.eq_of_key_eq he' he hkey]
  · intro k hk
    refine ⟨fun _ => ?_, fun hno => absurd (hclear _ k) hno⟩
    show subgraph.edgeAt k = none
    cases hedge : subgraph.edgeAt k with
    | none => rfl
    | some b =>
        obtain ⟨e, he, -⟩ := Option.map_eq_some_iff.mp hedge
        obtain ⟨hmem, hkey⟩ := Table.get?_eq_some.mp he
        exact absurd ⟨(e.source, e.target), List.mem_toFinset.mpr
          (List.mem_map.mpr ⟨e, hmem, rfl⟩), hkey⟩ hk

end agreement

/-! Documents that speak of the same two entities and their relation: the first fills the index, the
second adds a chunk of `ada` beside the one that is there. -/

/-- The words of the example are single tokens, and its graphs have the two nodes and their edge. -/
def exampleEnv : IndexEnv where
  tokenize := id
  fineGrainedTokenize := id
  pagerank _ _ := 1 / 2
  uuid m := List.replicate m 'u'
  uuid_injective := List.replicate_left_injective 'u'

/-- What a document says of an entity. -/
def exampleNode (source : Str) : NodeAttr :=
  { description := some "cat", sourceId := some [source], other := [("entity_type", .str "cat")] }

/-- The subgraph of a document. -/
def exampleSubgraph (source : Str) : KGraph :=
  { ((emptyGraph.setNode "ada" (exampleNode source)).setNode "bob" (exampleNode source)).addEdge
      "ada" "bob" { weight := some 1, description := some "run", keywords := some ["run"],
                    sourceId := some [source] } with
    data := some [source] }

theorem exists_first_merge :
    ∃ idx : Index exampleEnv,
      (GraphStep.merge (exampleSubgraph "d1")).Exec Index.empty idx ∧
      getGraph idx ["d2"] = some (setPagerank exampleEnv (exampleSubgraph "d1")) ∧
      (idx.entitiesOf "ada").length = 1 := by
  obtain ⟨idx, hexec, order, hset⟩ := exec_merge (Index.empty : Index exampleEnv)
    (exampleSubgraph "d1") ["d1"] rfl rfl ⟨by decide, by decide, by decide, by decide⟩
  refine ⟨idx, hexec, getGraph_setGraph hset _, ?_⟩
  have hlen := congrArg List.length (entitiesOf_setGraph hset "ada")
  rw [List.length_map] at hlen
  rw [hlen]
  decide

theorem index_agrees_first_merge :
    ∃ run : List (GraphStep × Index exampleEnv), run ≠ [] ∧
      Transition.IsRun GraphStep.Exec Index.empty run ∧ ∀ x ∈ run, Agrees x.2 x.2.graph := by
  obtain ⟨idx, hexec, -⟩ := exists_first_merge
  refine ⟨[(_, idx)], by simp, ⟨hexec, trivial⟩, ?_⟩
  refine (index_agrees_iff [(GraphStep.merge (exampleSubgraph "d1"), idx)]
    ⟨hexec, trivial⟩).mpr ⟨?_, trivial⟩
  rintro m ⟨sources, -, hm⟩
  exact fits_first_merge hm (by decide)

theorem index_two_chunks :
    ¬∀ (env : IndexEnv) (run : List (GraphStep × Index env)),
      Transition.IsRun GraphStep.Exec Index.empty run → ∀ x ∈ run, Agrees x.2 x.2.graph := by
  intro hall
  obtain ⟨idx, hexec, hget, hone⟩ := exists_first_merge
  have hmerge : ∃ m, mergeSubgraph exampleEnv
      (some (setPagerank exampleEnv (exampleSubgraph "d1"))) (exampleSubgraph "d2") = .ok m ∧
      Storable exampleEnv m ∧ "ada".toList ∈ m.change.addedUpdatedNodes ∧
      "ada".toList ∉ m.change.removedNodes :=
    ⟨_, rfl, ⟨by decide, by decide, by decide, by decide⟩, by decide, by decide⟩
  obtain ⟨m, hm, hstorable, hadded, hremoved⟩ := hmerge
  obtain ⟨idx', hexec', order, hset⟩ := exec_merge idx (exampleSubgraph "d2") ["d2"] rfl
    (by rw [hget]; exact hm) hstorable
  have hagree := hall exampleEnv [(_, idx), (_, idx')] ⟨hexec, hexec', trivial⟩ (_, idx')
    (List.mem_cons_of_mem _ (List.mem_singleton_self _))
  have htwo := congrArg List.length (entitiesOf_setGraph hset "ada")
  rw [if_pos hadded, if_neg hremoved, hagree.entities] at htwo
  rw [List.length_append, List.length_map, hone] at htwo
  cases hnode : idx'.graph.node? "ada" with
  | none =>
      rw [hnode] at htwo
      cases htwo
  | some a =>
      rw [hnode] at htwo
      cases htwo

end RagFlow.Graphrag
