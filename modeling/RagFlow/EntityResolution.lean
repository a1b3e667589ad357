import Mathlib.Data.List.Sort
import RagFlow.GraphMerge
import RagFlow.Interleave

/-! # Merging groups of nodes at the same time

`EntityResolution.__call__` merges each group of equivalent nodes into its first node by a task of
its own, all on one graph (`_merge_graph_nodes`).  The tasks are coroutines: control passes from
one to another only where a task starts, waits for a summary, or ends.  A summary is asked for
only if a description has more than twelve parts; without it the task goes on at once.

* **Iterators.** A task iterates over the neighbours of a node while other tasks, during a
  summary, may change this set.  As long as it is unchanged the iterator gives its elements in
  order; afterwards it may raise `RuntimeError`, stop, or give any element of the present set.
* **Dictionaries.** The attributes that a task holds are the dictionaries of the graph itself, so
  they are read again where the source uses them.
* **The defect.** After the summary of an edge the task adds the edge anew, and `add_edge` creates
  an end that has been merged away in the meantime (`merged_away_again`).  `merged_away_absent`
  says that this is the only way: no removed node comes back in a run in which each task finds the
  other end of the edge still there when it resumes. -/

namespace RagFlow.Resolution

open Py Effect Effect.Pool Graphrag

/-! ### Commands -/

/-- The graph and the record of changes, shared by all tasks. -/
structure Shared where
  graph : KGraph
  change : GraphChange

inductive Err where
  | taskCanceled
  | keyError
  | typeError
  /-- `nx.NetworkXError`: the node is not in the graph. -/
  | networkXError
  /-- A set has changed while it was iterated over. -/
  | runtimeError
  /-- The chat model fails, or the task is cancelled while it waits. -/
  | failure
deriving DecidableEq

inductive Cmd where
  /-- The task starts. -/
  | enter
  | hasCanceled
  /-- Add to the sets of `change`. -/
  | record (gain : GraphChange)
  /-- `graph.nodes[n]`. -/
  | node (n : Str)
  /-- An entry of the attributes of a node is set. -/
  | setNode (n : Str) (a : NodeAttr)
  /-- `set(graph.neighbors(n))`. -/
  | neighborSet (n : Str)
  /-- `iter(graph.neighbors(n))`, with what it is going to iterate over. -/
  | iterate (n : Str)
  /-- `next` on the iterator over the neighbours of `n`, which were `keys` when it was made and of
  which it has given `visited`. -/
  | next (n : Str) (keys visited : List Str)
  /-- `graph.get_edge_data`. -/
  | edge (u v : Str)
  /-- Entries of the attributes of an edge are set. -/
  | setEdge (u v : Str) (b : EdgeAttr)
  | addEdge (u v : Str) (b : EdgeAttr)
  /-- The description of an edge is set, and the edge is added with all its entries; these are
  `seen` if the edge has been removed. -/
  | finishEdge (u v : Str) (seen : EdgeAttr) (description : Str)
  | removeNode (n : Str)
  /-- A summary is asked for, and the task gives up control. -/
  | ask (name : Str) (descriptions : List Str)
  /-- The task goes on with the summary. -/
  | resume

abbrev Cmd.Ret : Cmd → Type
  | hasCanceled => Bool
  | node _ => NodeAttr
  | neighborSet _ | iterate _ => List Str
  | next _ _ _ => Option Str
  | edge _ _ => Option EdgeAttr
  | resume => Str
  | _ => Unit

/-- Where a task may take over from another. -/
def Cmd.rests : Cmd → Bool
  | enter | resume => true
  | _ => false

/-- What an iterator does on a set that has changed. -/
inductive IterChoice where
  | raise
  | stop
  | give (n : Str)
deriving DecidableEq

/-- What the surroundings decide: cancellation, the summary, the iterators on changed sets, and
whether an edge was removed and added anew during a summary, so that its dictionary is another. -/
structure Choice where
  canceled : Bool := false
  summary : Except Err Str := .ok []
  iter : IterChoice := .raise
  renewed : Bool := false

def GraphChange.union (c d : GraphChange) : GraphChange where
  removedNodes := c.removedNodes ∪ d.removedNodes
  addedUpdatedNodes := c.addedUpdatedNodes ∪ d.addedUpdatedNodes
  removedEdges := c.removedEdges ∪ d.removedEdges
  addedUpdatedEdges := c.addedUpdatedEdges ∪ d.addedUpdatedEdges

/-- `next` on an iterator over `current`, made when this was `keys`. -/
def iterNext (x : IterChoice) (keys visited current : List Str) : Except Err (Option Str) :=
  if current = keys then .ok keys[visited.length]?
  else
    match x with
    | .raise => .error .runtimeError
    | .stop => .ok none
    | .give n => if n ∈ current then .ok (some n) else .error .runtimeError

/-- A reply about a node that has to be there. -/
def atNode {α : Type} (s : Shared) (n : Str) (e : Err) (a : α) : Except Err α :=
  if s.graph.HasNode n then .ok a else .error e

/-- The attributes of an edge when its summary has come.  The dictionary that the task holds is that
of the edge, unless the edge was removed; then its entries are those that the task has seen, and
replace those of an edge that was added anew. -/
def finishedEdge (renewed : Bool) (s : Shared) (u v : Str) (seen : EdgeAttr) (description : Str) :
    EdgeAttr :=
  match s.graph.edge? u v with
  | none => { seen with description := some description }
  | some attrs =>
      if renewed then attrs.update { seen with description := some description }
      else { attrs with description := some description }

def serve : Handler Choice Cmd Cmd.Ret Err Shared :=
  fun x c s =>
    match c with
    | .enter => some (.ok (), s)
    | .hasCanceled => some (.ok x.canceled, s)
    | .record gain => some (.ok (), { s with change := GraphChange.union s.change gain })
    | .node n => some (atNode s n .keyError ((s.graph.node? n).getD {}), s)
    | .setNode n a =>
        some (.ok (), if s.graph.HasNode n then { s with graph := s.graph.setNode n a } else s)
    | .neighborSet n => some (atNode s n .networkXError (s.graph.neighbors n), s)
    | .iterate n => some (atNode s n .networkXError (s.graph.neighbors n), s)
    | .next n keys visited => some (iterNext x.iter keys visited (s.graph.neighbors n), s)
    | .edge u v => some (.ok (s.graph.edge? u v), s)
    | .setEdge u v b =>
        some (.ok (), if s.graph.HasEdge u v then { s with graph := s.graph.addEdge u v b } else s)
    | .addEdge u v b =>
        some (.ok (),
          { s with graph := s.graph.addEdge u v (((s.graph.edge? u v).getD {}).update b) })
    | .finishEdge u v seen description =>
        some (.ok (),
          { s with graph := s.graph.addEdge u v (finishedEdge x.renewed s u v seen description) })
    | .removeNode n =>
        some (atNode s n .networkXError (), { s with graph := s.graph.removeNode n })
    | .ask _ _ => some (.ok (), s)
    | .resume => some (x.summary, s)

abbrev ResolutionProg := Prog Cmd Cmd.Ret Err

abbrev ResolutionPool (ι : Type) := Pool ι Cmd Cmd.Ret Err Shared Unit

/-! ### `_merge_graph_nodes` -/

/-- The identifier of the task, empty if there is none, and the limit on the tokens of a text. -/
structure Env where
  taskId : Str
  truncate : Str → Str

/-- `sorted(set(xs))`. -/
def sortedSet (xs : List Str) : List Str := xs.dedup.insertionSort (· ≤ ·)

/-- `attrs[key]`. -/
def need {α : Type} : Option α → ResolutionProg α
  | some a => pure a
  | none => throw .keyError

def raiseIfCanceled (env : Env) : ResolutionProg Unit :=
  if env.taskId = [] then pure ()
  else do
    let canceled ← Prog.perform (C := Cmd) .hasCanceled
    if canceled then throw .taskCanceled else pure ()

/-- `_handle_entity_relation_summary`. -/
def handleEntityRelationSummary (env : Env) (name description : Str) : ResolutionProg Str := do
  raiseIfCanceled env
  let descriptions := splitSep graphFieldSep (env.truncate description)
  if descriptions.length ≤ 12 then pure (env.truncate description)
  else do
    raiseIfCanceled env
    Prog.perform (C := Cmd) (.ask name descriptions)
    Prog.perform (C := Cmd) .resume

/-- The attributes of the first node, with those of another one. -/
def mergeNodeAttrs (node0 node1 : Str) : ResolutionProg Unit := do
  let node1Attrs ← Prog.perform (C := Cmd) (.node node1)
  let node0Attrs ← Prog.perform (C := Cmd) (.node node0)
  let d0 ← need node0Attrs.description
  let d1 ← need node1Attrs.description
  let s0 ← need node0Attrs.sourceId
  let s1 ← need node1Attrs.sourceId
  Prog.perform (C := Cmd) (.setNode node0 { node0Attrs with
    description := some (joinDescriptions d0 d1)
    sourceId := some (sortedSet (s0 ++ s1)) })

/-- The attributes of an edge of the first node, with those of another edge. -/
def mergeEdgeAttrs (edge0 edge1 : EdgeAttr) : ResolutionProg (EdgeAttr × Str) := do
  let w0 ← need edge0.weight
  let w1 ← need edge1.weight
  let d0 ← need edge0.description
  let d1 ← need edge1.description
  let k0 ← need edge0.keywords
  let k1 ← need edge1.keywords
  let s0 ← need edge0.sourceId
  let s1 ← need edge1.sourceId
  let description := joinDescriptions d0 d1
  pure ({ edge0 with
    weight := some (w0 + w1)
    description := some description
    keywords := some (sortedSet (k0 ++ k1))
    sourceId := some (sortedSet (s0 ++ s1)) }, description)

/-- The edge to a neighbour of both nodes. -/
def mergeEdges (env : Env) (node0 neighbor : Str) (edge1 : EdgeAttr) : ResolutionProg Unit := do
  Prog.perform (C := Cmd) (.record { addedUpdatedEdges := {getFromTo node0 neighbor} })
  let edge0 ← Prog.perform (C := Cmd) (.edge node0 neighbor)
  match edge0 with
  | none => throw .typeError
  | some edge0 => do
      let (attrs, description) ← mergeEdgeAttrs edge0 edge1
      Prog.perform (C := Cmd) (.setEdge node0 neighbor attrs)
      let name := '(' :: node0 ++ ", ".toList ++ neighbor ++ [')']
      let summary ← handleEntityRelationSummary env name description
      Prog.perform (C := Cmd) (.finishEdge node0 neighbor attrs summary)

/-- The body of the loop over the neighbours of `node1`. -/
def mergeNeighbor (env : Env) (nodes node0Neighbors : List Str) (node0 node1 neighbor : Str) :
    ResolutionProg Unit := do
  Prog.perform (C := Cmd) (.record { removedEdges := {getFromTo node1 neighbor} })
  if neighbor ∈ nodes then pure ()
  else do
    let edge1 ← Prog.perform (C := Cmd) (.edge node1 neighbor)
    match edge1 with
    | none => throw .typeError
    | some edge1 =>
        if neighbor ∈ node0Neighbors then mergeEdges env node0 neighbor edge1
        else Prog.perform (C := Cmd) (.addEdge node0 neighbor edge1)

/-- The loop over the neighbours of `node1`, with `n` elements still to come. -/
def overNeighbors (body : Str → ResolutionProg Unit) (node1 : Str) (keys : List Str) :
    List Str → ℕ → ResolutionProg Unit
  | visited, 0 => do
      let given ← Prog.perform (C := Cmd) (.next node1 keys visited)
      match given with
      | none => pure ()
      | some _ => throw .runtimeError
  | visited, n + 1 => do
      let given ← Prog.perform (C := Cmd) (.next node1 keys visited)
      match given with
      | none => pure ()
      | some neighbor => do
          body neighbor
          overNeighbors body node1 keys (visited ++ [neighbor]) n

/-- The loop over the nodes that are merged into the first one. -/
def mergeEach (env : Env) (nodes node0Neighbors : List Str) (node0 : Str) :
    List Str → ResolutionProg Unit
  | [] => pure ()
  | node1 :: rest => do
      raiseIfCanceled env
      mergeNodeAttrs node0 node1
      let keys ← Prog.perform (C := Cmd) (.iterate node1)
      overNeighbors (mergeNeighbor env nodes node0Neighbors node0 node1) node1 keys [] keys.length
      Prog.perform (C := Cmd) (.removeNode node1)
      mergeEach env nodes node0Neighbors node0 rest

/-- The summary of the first node. -/
def finishNode (env : Env) (node0 : Str) : ResolutionProg Unit := do
  let attrs ← Prog.perform (C := Cmd) (.node node0)
  let description ← need attrs.description
  let summary ← handleEntityRelationSummary env node0 description
  let attrs ← Prog.perform (C := Cmd) (.node node0)
  Prog.perform (C := Cmd) (.setNode node0 { attrs with description := some summary })

/-- `_merge_graph_nodes`, as a task. -/
def mergeGraphNodes (env : Env) (nodes : List Str) : ResolutionProg Unit := do
  Prog.perform (C := Cmd) .enter
  raiseIfCanceled env
  match nodes with
  | [] => pure ()
  | [_] => pure ()
  | node0 :: rest => do
      Prog.perform (C := Cmd)
        (.record { addedUpdatedNodes := {node0}, removedNodes := rest.toFinset })
      let _ ← Prog.perform (C := Cmd) (.node node0)
      let node0Neighbors ← Prog.perform (C := Cmd) (.neighborSet node0)
      mergeEach env nodes node0Neighbors node0 rest
      finishNode env node0

/-! ### What a task does to the graph -/

/-- The neighbour a task is at: given by the iterator in this turn, or before a summary. -/
inductive Place where
  | none
  | here (neighbor : Str)
  | before (neighbor : Str)
deriving DecidableEq

/-- Where a task is, and the nodes it has removed. -/
structure Phase where
  place : Place := .none
  removed : List Str := []
deriving DecidableEq

/-- The task gives up control. -/
def Phase.leave (g : Phase) : Phase :=
  match g.place with
  | .here n => { g with place := .before n }
  | _ => g

theorem Phase.leave_place (g : Phase) (n : Str) : g.leave.place ≠ .here n := by
  unfold leave
  split
  · simp
  · next h => exact h n

theorem Phase.leave_removed (g : Phase) : g.leave.removed = g.removed := by
  unfold leave
  split <;> rfl

def Phase.next (g : Phase) : (c : Cmd) → Except Err c.Ret → Phase
  | .next .., .ok (some n) => { g with place := .here n }
  | .next .., _ => { g with place := .none }
  | .ask .., _ => g.leave
  | .removeNode n, .ok _ => { g with removed := n :: g.removed }
  | _, _ => g

/-- A task adds edges from the first node of its group to the neighbour it is at, removes other
nodes of the group, and gives up control only when it does not rely on a neighbour. -/
def Phase.allows (nodes : List Str) (g : Phase) : Cmd → Prop
  | .addEdge u v _ => nodes.head? = some u ∧ g.place = .here v
  | .finishEdge u v _ _ => nodes.head? = some u ∧ (g.place = .here v ∨ g.place = .before v)
  | .removeNode n => n ∈ nodes.tail ∧ g.place = .none
  | .enter | .resume => ∀ n, g.place ≠ .here n
  | _ => True

def merging (nodes : List Str) : Protocol Cmd Cmd.Ret Err Phase := ⟨Phase.allows nodes, Phase.next⟩

section follows
variable {nodes : List Str} {g : Phase} (env : Env)

/-- The task is where it was, and has removed what it had. -/
def Stays {α : Type} (g g' : Phase) (_ : Except Err α) : Prop := g' = g

theorem need_follows {α : Type} (o : Option α) : Follows (merging nodes) (Stays g) g (need o) := by
  unfold need
  split
  · exact Follows.pure rfl
  · exact Follows.throw rfl

theorem raiseIfCanceled_follows : Follows (merging nodes) (Stays g) g (raiseIfCanceled env) := by
  unfold raiseIfCanceled
  refine Follows.ite (fun _ => Follows.pure rfl) (fun _ => ?_)
  refine Follows.perform_bind trivial (fun canceled => ?_) (fun _ => rfl)
  exact Follows.ite (fun _ => Follows.throw rfl) (fun _ => Follows.pure rfl)

theorem bind_stays {α β : Type} {p : ResolutionProg α} {f : α → ResolutionProg β}
    {Q : Phase → Except Err β → Prop} (hp : Follows (merging nodes) (Stays g) g p)
    (hf : ∀ a, Follows (merging nodes) Q g (f a)) (he : ∀ e, Q g (.error e)) :
    Follows (merging nodes) Q g (p >>= f) := by
  refine Follows.bind hp (fun g' a hg' => ?_) (fun g' e hg' => ?_)
  · rw [show g' = g from hg']
    exact hf a
  · rw [show g' = g from hg']
    exact he e

/-- A summary may take the task away from the neighbour it is at. -/
theorem summary_follows (name description : Str) :
    Follows (merging nodes) (fun g' _ => g' = g ∨ g' = g.leave) g
      (handleEntityRelationSummary env name description) := by
  unfold handleEntityRelationSummary
  refine bind_stays (raiseIfCanceled_follows env) (fun _ => ?_) (fun _ => .inl rfl)
  refine Follows.ite (fun _ => Follows.pure (.inl rfl)) (fun _ => ?_)
  refine bind_stays (raiseIfCanceled_follows env) (fun _ => ?_) (fun _ => .inl rfl)
  refine Follows.perform_bind trivial (fun _ => ?_) (fun _ => .inr rfl)
  exact Follows.perform g.leave_place (fun _ => .inr rfl)

theorem mergeNodeAttrs_follows (node0 node1 : Str) :
    Follows (merging nodes) (Stays g) g (mergeNodeAttrs node0 node1) := by
  unfold mergeNodeAttrs
  refine Follows.perform_bind trivial (fun _ => ?_) (fun _ => rfl)
  refine Follows.perform_bind trivial (fun _ => ?_) (fun _ => rfl)
  refine bind_stays (need_follows _) (fun _ => ?_) (fun _ => rfl)
  refine bind_stays (need_follows _) (fun _ => ?_) (fun _ => rfl)
  refine bind_stays (need_follows _) (fun _ => ?_) (fun _ => rfl)
  refine bind_stays (need_follows _) (fun _ => ?_) (fun _ => rfl)
  exact Follows.perform trivial (fun _ => rfl)

theorem mergeEdgeAttrs_follows (edge0 edge1 : EdgeAttr) :
    Follows (merging nodes) (Stays g) g (mergeEdgeAttrs edge0 edge1) := by
  unfold mergeEdgeAttrs
  iterate 8 refine bind_stays (need_follows _) (fun _ => ?_) (fun _ => rfl)
  exact Follows.pure rfl

/-- The nodes that the task has removed are the same. -/
def SameRemoved (g g' : Phase) (_ : Except Err Unit) : Prop := g'.removed = g.removed

theorem mergeEdges_follows {node0 neighbor : Str} (edge1 : EdgeAttr)
    (hhead : nodes.head? = some node0) (hhere : g.place = .here neighbor) :
    Follows (merging nodes) (SameRemoved g) g (mergeEdges env node0 neighbor edge1) := by
  unfold mergeEdges
  refine Follows.perform_bind trivial (fun _ => ?_) (fun _ => rfl)
  refine Follows.perform_bind trivial (fun edge0 => ?_) (fun _ => rfl)
  cases edge0 with
  | none => exact Follows.throw rfl
  | some edge0 =>
      refine bind_stays (mergeEdgeAttrs_follows edge0 edge1) (fun a => ?_) (fun _ => rfl)
      refine Follows.perform_bind trivial (fun _ => ?_) (fun _ => rfl)
      refine Follows.bind (summary_follows env _ _) (fun g' summary hg' => ?_) (fun g' e hg' => ?_)
      · refine Follows.perform ⟨hhead, ?_⟩ (fun _ => ?_)
        · rcases hg' with rfl | rfl
          · exact .inl hhere
          · right
            unfold Phase.leave
            rw [show ((merging nodes).next _ _ _).place = g.place from rfl, hhere]
        · rcases hg' with rfl | rfl
          · rfl
          · exact Phase.leave_removed g
      · rcases hg' with rfl | rfl
        · rfl
        · exact Phase.leave_removed g

theorem mergeNeighbor_follows (node0Neighbors : List Str) {node0 : Str} (node1 : Str)
    {neighbor : Str} (hhead : nodes.head? = some node0) (hhere : g.place = .here neighbor) :
    Follows (merging nodes) (SameRemoved g) g
      (mergeNeighbor env nodes node0Neighbors node0 node1 neighbor) := by
  unfold mergeNeighbor
  refine Follows.perform_bind trivial (fun _ => ?_) (fun _ => rfl)
  refine Follows.ite (fun _ => Follows.pure rfl) (fun _ => ?_)
  refine Follows.perform_bind trivial (fun edge1 => ?_) (fun _ => rfl)
  cases edge1 with
  | none => exact Follows.throw rfl
  | some edge1 =>
      refine Follows.ite (fun _ => mergeEdges_follows env edge1 hhead hhere) (fun _ => ?_)
      exact Follows.perform ⟨hhead, hhere⟩ (fun _ => rfl)

theorem overNeighbors_follows {body : Str → ResolutionProg Unit}
    (hbody : ∀ (g : Phase) n, g.place = .here n →
      Follows (merging nodes) (SameRemoved g) g (body n))
    (node1 : Str) (keys visited : List Str) (n : ℕ) :
    Follows (merging nodes) (fun g' r => g'.removed = g.removed ∧ (r = .ok () → g'.place = .none))
      g (overNeighbors body node1 keys visited n) := by
  induction n generalizing visited g with
  | zero =>
      refine Follows.perform_bind trivial (fun given => ?_) (fun e => ⟨rfl, fun h => by cases h⟩)
      cases given with
      | none => exact Follows.pure ⟨rfl, fun _ => rfl⟩
      | some m => exact Follows.throw ⟨rfl, fun h => by cases h⟩
  | succ n ih =>
      refine Follows.perform_bind trivial (fun given => ?_) (fun e => ⟨rfl, fun h => by cases h⟩)
      cases given with
      | none => exact Follows.pure ⟨rfl, fun _ => rfl⟩
      | some m =>
          refine Follows.bind (hbody _ m rfl) (fun g' _ hg' => ?_)
            (fun g' e hg' => ⟨hg', fun h => by cases h⟩)
          have hremoved : g'.removed = g.removed := hg'
          rw [← hremoved]
          exact ih _

/-- All nodes of a list are removed, one after the other. -/
def RemovesAll (l : List Str) (g g' : Phase) (r : Except Err Unit) : Prop :=
  r = .ok () → g'.place = .none ∧ g'.removed = l.reverse ++ g.removed

theorem mergeEach_follows (node0Neighbors : List Str) {node0 : Str}
    (hhead : nodes.head? = some node0) {l : List Str} (hl : ∀ n ∈ l, n ∈ nodes.tail)
    (hplace : g.place = .none) :
    Follows (merging nodes) (RemovesAll l g) g (mergeEach env nodes node0Neighbors node0 l) := by
  induction l generalizing g with
  | nil => exact Follows.pure (fun _ => ⟨hplace, rfl⟩)
  | cons node1 l ih =>
      unfold mergeEach
      refine bind_stays (raiseIfCanceled_follows env) (fun _ => ?_) (fun _ h => by cases h)
      refine bind_stays (mergeNodeAttrs_follows node0 node1) (fun _ => ?_) (fun _ h => by cases h)
      refine Follows.perform_bind trivial (fun keys => ?_) (fun _ h => by cases h)
      refine Follows.bind (overNeighbors_follows (fun g n hhere =>
        mergeNeighbor_follows env node0Neighbors node1 hhead hhere) node1 keys [] keys.length)
        (fun g' _ hg' => ?_) (fun _ _ _ h => by cases h)
      obtain ⟨hremoved, hnone⟩ := hg'
      have hnone := hnone rfl
      refine Follows.perform_bind ⟨hl node1 List.mem_cons_self, hnone⟩ (fun _ => ?_)
        (fun _ h => by cases h)
      have hrest := ih (g := { g' with removed := node1 :: g'.removed })
        (fun n hn => hl n (List.mem_cons_of_mem _ hn)) hnone
      refine hrest.weaken (fun g'' r h hr => ?_)
      obtain ⟨hplace'', hremoved''⟩ := h hr
      refine ⟨hplace'', ?_⟩
      rw [hremoved'', List.reverse_cons, List.append_assoc]
      show l.reverse ++ (node1 :: g'.removed) = _
      rw [hremoved]
      rfl

theorem finishNode_follows (node0 : Str) (hplace : g.place = .none) :
    Follows (merging nodes) (SameRemoved g) g (finishNode env node0) := by
  unfold finishNode
  refine Follows.perform_bind trivial (fun attrs => ?_) (fun _ => rfl)
  refine bind_stays (need_follows _) (fun description => ?_) (fun _ => rfl)
  have hleave : g.leave = g := by
    unfold Phase.leave
    rw [hplace]
  refine Follows.bind (summary_follows env node0 description) (fun g' _ hg' => ?_)
    (fun g' _ hg' => ?_)
  · have hg : g' = g := hg'.elim (fun h => h) (fun h => h.trans hleave)
    subst hg
    refine Follows.perform_bind trivial (fun _ => ?_) (fun _ => rfl)
    exact Follows.perform trivial (fun _ => rfl)
  · have hg : g' = g := hg'.elim (fun h => h) (fun h => h.trans hleave)
    rw [hg]
    rfl

/-- A task that returns has removed all nodes of its group but the first. -/
def Finished (nodes : List Str) (g : Phase) (r : Except Err Unit) : Prop :=
  r = .ok () → ∀ n ∈ nodes.tail, n ∈ g.removed

theorem mergeGraphNodes_follows (nodes : List Str) :
    Follows (merging nodes) (Finished nodes) {} (mergeGraphNodes env nodes) := by
  unfold mergeGraphNodes
  refine Follows.perform_bind (fun n h => by cases h) (fun _ => ?_) (fun _ h => by cases h)
  refine bind_stays (raiseIfCanceled_follows env) (fun _ => ?_) (fun _ h => by cases h)
  match nodes with
  | [] => exact Follows.pure (fun _ n hn => by cases hn)
  | [_] => exact Follows.pure (fun _ n hn => by cases hn)
  | node0 :: node1 :: rest =>
      refine Follows.perform_bind trivial (fun _ => ?_) (fun _ h => by cases h)
      refine Follows.perform_bind trivial (fun _ => ?_) (fun _ h => by cases h)
      refine Follows.perform_bind trivial (fun node0Neighbors => ?_) (fun _ h => by cases h)
      refine Follows.bind (mergeEach_follows env node0Neighbors rfl (fun n hn => hn) rfl)
        (fun g' _ hg' => ?_) (fun _ _ _ h => by cases h)
      obtain ⟨hplace, hremoved⟩ := hg' rfl
      refine (finishNode_follows env node0 hplace).weaken (fun g'' r h _ n hn => ?_)
      rw [show g''.removed = g'.removed from h, hremoved]
      exact List.mem_append_left _ (List.mem_reverse.mpr hn)

end follows

/-! ### Nodes that have been merged away -/

section runs
variable {ι : Type} [DecidableEq ι]

/-- Control passes only where a task starts, waits for a summary or ends. -/
def AtAwaits (p : ResolutionPool ι) (i : ι) (c : Cmd) : Prop := p.cooperates Cmd.rests i c = true

instance (p : ResolutionPool ι) (i : ι) (c : Cmd) : Decidable (AtAwaits p i c) :=
  inferInstanceAs (Decidable (_ = true))

/-- The other end of the edge whose summary has come is still there. -/
def EndThere (s : Shared) : Cmd → Prop
  | .finishEdge _ v _ _ => s.graph.HasNode v
  | _ => True

instance (s : Shared) (c : Cmd) : Decidable (EndThere s c) := by
  cases c with
  | finishEdge u v seen description => exact inferInstanceAs (Decidable (s.graph.HasNode v))
  | _ => exact inferInstanceAs (Decidable True)

/-- Control passes at the awaits only, and no end of an edge is gone after one. -/
abbrev Steady (p : ResolutionPool ι) (i : ι) (c : Cmd) : Prop := AtAwaits p i c ∧ EndThere p.state c

/-- What an iterator gives is a neighbour at this time, whatever has happened to the set. -/
theorem iterNext_mem {x : IterChoice} {keys visited current : List Str} {n : Str}
    (h : iterNext x keys visited current = .ok (some n)) : n ∈ current := by
  unfold iterNext at h
  split_ifs at h with hsame
  · rw [hsame]
    exact List.mem_of_getElem? (Except.ok.inj h)
  · split at h
    · cases h
    · cases h
    · split_ifs at h with hmem
      cases h
      exact hmem

/-- A step creates no node but the first one of its group, when the neighbour it is at is there. -/
theorem hasNode_of_serve {nodes : List Str} {g : Phase} {c : Cmd} {x : Choice} {s s' : Shared}
    {r : Except Err c.Ret} (hallows : g.allows nodes c) (hend : EndThere s c)
    (hhere : c.rests = false → ∀ n, g.place = .here n → s.graph.HasNode n)
    (hserve : serve x c s = some (r, s')) {n : Str} (hn : s'.graph.HasNode n) :
    s.graph.HasNode n ∨ nodes.head? = some n := by
  cases c with
  | setNode m a =>
      cases hserve
      split_ifs at hn with hm
      · rcases Graph.hasNode_setNode.mp hn with hn | rfl
        · exact .inl hn
        · exact .inl hm
      · exact .inl hn
  | setEdge u v b =>
      cases hserve
      split_ifs at hn with huv
      · rcases Graph.hasNode_addEdge.mp hn with hn | rfl | rfl
        · exact .inl hn
        · exact .inl huv.hasNode.1
        · exact .inl huv.hasNode.2
      · exact .inl hn
  | addEdge u v b =>
      cases hserve
      rcases Graph.hasNode_addEdge.mp hn with hn | rfl | rfl
      · exact .inl hn
      · exact .inr hallows.1
      · exact .inl (hhere rfl _ hallows.2)
  | finishEdge u v seen description =>
      cases hserve
      rcases Graph.hasNode_addEdge.mp hn with hn | rfl | rfl
      · exact .inl hn
      · exact .inr hallows.1
      · exact .inl hend
  | removeNode m =>
      cases hserve
      exact .inl (Graph.hasNode_removeNode.mp hn).1
  | enter | hasCanceled | record _ | node _ | neighborSet _ | iterate _ | next _ _ _ | edge _ _
    | ask _ _ | resume =>
      cases hserve
      exact .inl hn

/-- A step removes no node but the one that its command names. -/
theorem hasNode_serve {c : Cmd} {x : Choice} {s s' : Shared} {r : Except Err c.Ret}
    (hserve : serve x c s = some (r, s')) {n : Str} (hn : s.graph.HasNode n)
    (hc : c ≠ .removeNode n) : s'.graph.HasNode n := by
  cases c with
  | setNode m a =>
      cases hserve
      split_ifs
      · exact Graph.hasNode_setNode.mpr (.inl hn)
      · exact hn
  | setEdge u v b =>
      cases hserve
      split_ifs
      · exact Graph.hasNode_addEdge.mpr (.inl hn)
      · exact hn
  | addEdge u v b =>
      cases hserve
      exact Graph.hasNode_addEdge.mpr (.inl hn)
  | finishEdge u v seen description =>
      cases hserve
      exact Graph.hasNode_addEdge.mpr (.inl hn)
  | removeNode m =>
      cases hserve
      exact Graph.hasNode_removeNode.mpr ⟨hn, fun h => hc (h ▸ rfl)⟩
  | enter | hasCanceled | record _ | node _ | neighborSet _ | iterate _ | next _ _ _ | edge _ _
    | ask _ _ | resume =>
      cases hserve
      exact hn

/-- What a task has removed: what it had, and the node of the command if it removes one. -/
theorem mem_removed_next {g : Phase} {c : Cmd} {r : Except Err c.Ret} {n : Str}
    (h : n ∈ (g.next c r).removed) : n ∈ g.removed ∨ c = .removeNode n := by
  unfold Phase.next at h
  split at h
  · exact .inl h
  · exact .inl h
  · rw [Phase.leave_removed] at h
    exact .inl h
  · rcases List.mem_cons.mp h with rfl | h
    · exact .inr rfl
    · exact .inl h
  · exact .inl h

theorem removed_next {g : Phase} {c : Cmd} {r : Except Err c.Ret} {n : Str}
    (h : n ∈ g.removed) : n ∈ (g.next c r).removed := by
  unfold Phase.next
  split
  · exact h
  · exact h
  · rw [Phase.leave_removed]
    exact h
  · exact List.mem_cons_of_mem _ h
  · exact h

/-- A task comes to a neighbour by its iterator only, and this gives one that is there. -/
theorem place_serve {g : Phase} {c : Cmd} {x : Choice} {s s' : Shared} {r : Except Err c.Ret}
    (hserve : serve x c s = some (r, s')) {n : Str} (h : (g.next c r).place = .here n) :
    g.place = .here n ∨ s'.graph.HasNode n := by
  cases c with
  | next m keys visited =>
      obtain ⟨rfl, rfl⟩ := Prod.mk.inj (Option.some.inj hserve)
      cases hgiven : iterNext x.iter keys visited (s.graph.neighbors m) with
      | error e =>
          rw [hgiven] at h
          cases h
      | ok given =>
          rw [hgiven] at h
          cases given with
          | none => cases h
          | some k =>
              cases h
              exact .inr (Graph.hasNode_of_mem_neighbors (iterNext_mem hgiven))
  | ask name descriptions => exact absurd h (g.leave_place n)
  | removeNode m =>
      left
      cases r with
      | ok _ => exact h
      | error e => exact h
  | _ => exact .inl h

variable (groups : ι → List Str)

/-- What has been removed is gone and was not the first of its group, and the task that took the
last step can rely on the neighbour it is at. -/
structure Gone (s : Shared) (t : List (ι × Event Cmd Cmd.Ret Err)) (g : ι → Phase) : Prop where
  absent : ∀ i n, n ∈ (g i).removed → ¬s.graph.HasNode n
  tails : ∀ i n, n ∈ (g i).removed → n ∈ (groups i).tail
  here : ∀ i e n, t.getLast? = some (i, e) → (g i).place = .here n → s.graph.HasNode n
  recorded : ∀ i n, (i, ⟨.removeNode n, .ok ()⟩) ∈ t → n ∈ (g i).removed

variable {groups}

/-- The first node of a group is in no tail. -/
theorem head?_ne_of_mem_tail (hnodup : ∀ i, (groups i).Nodup)
    (hdisjoint : ∀ i j, i ≠ j → (groups i).Disjoint (groups j)) {i j : ι} {n : Str}
    (hn : n ∈ (groups j).tail) : (groups i).head? ≠ some n := by
  intro hhead
  obtain ⟨l, hl⟩ := List.head?_eq_some_iff.mp hhead
  by_cases hij : j = i
  · subst hij
    rw [hl, List.tail_cons] at hn
    have hnot := hnodup j
    rw [hl, List.nodup_cons] at hnot
    exact hnot.1 hn
  · refine hdisjoint j i hij (List.mem_of_mem_tail hn) ?_
    rw [hl]
    exact List.mem_cons_self

theorem gone_step (hnodup : ∀ i, (groups i).Nodup)
    (hdisjoint : ∀ i j, i ≠ j → (groups i).Disjoint (groups j))
    {p : ResolutionPool ι} {g : ι → Phase} {i : ι} {c : Cmd} {x : Choice} {r : Except Err c.Ret}
    {s' : Shared} (h : Gone groups p.state p.trace g) (hallows : (g i).allows (groups i) c)
    (hsteady : Steady p i c) (hserve : serve x c p.state = some (r, s')) :
    Gone groups s' (p.trace ++ [(i, ⟨c, r⟩)]) (Function.update g i ((g i).next c r)) := by
  have hhere : c.rests = false → ∀ n, (g i).place = .here n → p.state.graph.HasNode n := by
    intro hc n hn
    obtain ⟨e, hlast⟩ := ran_last_of_cooperates hsteady.1 hc
    exact h.here i e n hlast hn
  have hremoved : ∀ j n, n ∈ (Function.update g i ((g i).next c r) j).removed →
      n ∈ (g j).removed ∨ (j = i ∧ c = .removeNode n) := by
    intro j n hn
    by_cases hij : j = i
    · subst hij
      rw [Function.update_self] at hn
      exact (mem_removed_next hn).imp_right (fun hc => ⟨rfl, hc⟩)
    · rw [Function.update_of_ne hij] at hn
      exact .inl hn
  refine ⟨fun j n hn hthere => ?_, fun j n hn => ?_, fun j e n hlast hn => ?_, fun j n hmem => ?_⟩
  · rcases hremoved j n hn with hn | ⟨rfl, rfl⟩
    · rcases hasNode_of_serve hallows hsteady.2 hhere hserve hthere with hthere | hhead
      · exact h.absent j n hn hthere
      · exact head?_ne_of_mem_tail hnodup hdisjoint (h.tails j n hn) hhead
    · cases hserve
      exact (Graph.hasNode_removeNode.mp hthere).2 rfl
  · rcases hremoved j n hn with hn | ⟨rfl, rfl⟩
    · exact h.tails j n hn
    · exact hallows.1
  · rw [List.getLast?_concat] at hlast
    cases hlast
    rw [Function.update_self] at hn
    rcases place_serve hserve hn with hplace | hthere
    · cases hc : c.rests with
      | false =>
          refine hasNode_serve hserve (hhere hc n hplace) ?_
          rintro rfl
          rw [hallows.2] at hplace
          cases hplace
      | true =>
          cases c with
          | enter | resume => exact absurd hplace (hallows n)
          | _ => cases hc
    · exact hthere
  · rcases List.mem_append.mp hmem with hold | hnew
    · by_cases hij : j = i
      · subst hij
        rw [Function.update_self]
        exact removed_next (h.recorded j n hold)
      · rw [Function.update_of_ne hij]
        exact h.recorded j n hold
    · cases List.mem_singleton.mp hnew
      rw [Function.update_self]
      exact List.mem_cons_self

/-- Tasks on disjoint groups, in every order at the awaits in which a task that resumes finds the
other end of its edge still there: no node that has been removed is in the graph, and a task that
has returned has left no node of its group but the first. -/
theorem merged_away_absent (env : Env) (groups : ι → List Str) (hnodup : ∀ i, (groups i).Nodup)
    (hdisjoint : ∀ i j, i ≠ j → (groups i).Disjoint (groups j)) (s : Shared)
    (q : ResolutionPool ι)
    (hreach : Reaches serve Steady (start s (fun i => mergeGraphNodes env (groups i))) q) :
    (∀ i n, (i, ⟨.removeNode n, .ok ()⟩) ∈ q.trace → ¬q.state.graph.HasNode n) ∧
      ∀ i, q.threads i = .ret () → ∀ n ∈ (groups i).tail, ¬q.state.graph.HasNode n := by
  have hinit : Gone groups s [] (fun _ : ι => ({} : Phase)) :=
    ⟨fun _ _ h => (by cases h), fun _ _ h => (by cases h), fun _ _ _ h => (by cases h),
      fun _ _ h => (by cases h)⟩
  obtain ⟨hgone, hfollows⟩ := hreach.keeps (P := fun i => merging (groups i))
    (I := fun s t g => Gone groups s t g) (fun i => mergeGraphNodes_follows env (groups i)) hinit
    (fun p i c x r s' h hallows hsteady hserve =>
      gone_step hnodup hdisjoint h hallows hsteady hserve)
  refine ⟨fun i n hmem => hgone.absent i n (hgone.recorded i n hmem), fun i hi n hn => ?_⟩
  have hend := hfollows i
  rw [hi] at hend
  exact hgone.absent i n (hend rfl n hn)

/-! Two groups: a neighbour of both nodes of the first one is merged away with the second. -/

/-- No task identifier, and no limit on texts. -/
def plainEnv : Env := ⟨[], fun s => s⟩

def twoGroups : Bool → List Str
  | true => ["a0", "a1"]
  | false => ["b0", "x"]

def described (n : Str) : NodeAttr := { description := some n, sourceId := some ["s"] }

/-- An edge whose description has `n` parts. -/
def relation (n : ℕ) : EdgeAttr :=
  { weight := some 1, description := some (graphFieldSep.intercalate (List.replicate n "r")),
    keywords := some [], sourceId := some ["s"] }

/-- The second node of the first group has had the neighbours `z`, `x`, `y1`, `y2` and `d`, of which
`z` has been removed; `x` is also a neighbour of the first node, by an edge whose description has
`n` parts. -/
def neighborhood (n : ℕ) : Shared :=
  let nodes : KGraph := (["a0", "a1", "b0", "z", "x", "y1", "y2", "d"] : List Str).foldl
    (fun g m => g.setNode m (described m)) emptyGraph
  let edges : KGraph := (["z", "x", "y1", "y2", "d"] : List Str).foldl
    (fun g m => g.addEdge "a1" m (relation 1)) nodes
  ⟨(edges.addEdge "a0" "x" (relation n)).removeNode "z", {}⟩

def neighborhoodPool (n : ℕ) : ResolutionPool Bool :=
  start (neighborhood n) (fun i => mergeGraphNodes plainEnv (twoGroups i))

/-- Steps of one task, in which iterators on changed sets do as `x` says. -/
def turns (i : Bool) (n : ℕ) (x : IterChoice) : List (Bool × Choice) :=
  List.replicate n (i, { iter := x })

theorem twoGroups_nodup (i : Bool) : (twoGroups i).Nodup := by
  cases i <;> decide

theorem twoGroups_disjoint (i j : Bool) (hij : i ≠ j) : (twoGroups i).Disjoint (twoGroups j) := by
  rw [List.disjoint_iff_ne]
  cases i <;> cases j <;> first | exact absurd rfl hij | decide

set_option maxRecDepth 4000 in
/-- Short descriptions: one task after the other. -/
theorem merged_away_absent_in_turn :
    ∃ q, play serve Steady (turns true 32 .raise ++ turns false 17 .raise) (neighborhoodPool 1) =
        some q ∧ (∀ i, q.threads i = .ret ()) ∧
      ∀ i, ∀ n ∈ (twoGroups i).tail, ¬q.state.graph.HasNode n := by
  have hplay : ∃ q, play serve Steady (turns true 32 .raise ++ turns false 17 .raise)
      (neighborhoodPool 1) = some q ∧ q.threads true = .ret () ∧ q.threads false = .ret () :=
    ⟨_, rfl, rfl, rfl⟩
  obtain ⟨q, hplay, htrue, hfalse⟩ := hplay
  have hret : ∀ i, q.threads i = .ret () := by
    intro i
    cases i with
    | true => exact htrue
    | false => exact hfalse
  exact ⟨q, hplay, hret, fun i => (merged_away_absent plainEnv twoGroups twoGroups_nodup
    twoGroups_disjoint _ q (play_reaches _ hplay)).2 i (hret i)⟩

/-- The first task waits for the summary of the edge to `x` while the second one merges `x` away.
The table of neighbours it iterates over is compacted when it gains `b0` and loses `x`, so that
`y1` is skipped and the iteration ends without an exception. -/
def tornRun : List (Bool × Choice) :=
  turns true 15 .raise ++ turns false 21 .raise ++ turns true 6 (.give "y2") ++
    turns true 4 (.give "d") ++ turns true 4 (.give "b0") ++ turns true 5 .stop

set_option maxRecDepth 4000 in
theorem merged_away_again :
    ∃ q, Reaches serve AtAwaits (neighborhoodPool 12) q ∧ (∀ i, q.threads i = .ret ()) ∧
      (false, ⟨.removeNode "x", .ok ()⟩) ∈ q.trace ∧ q.state.graph.HasNode "x" := by
  have hplay : ∃ q, play serve AtAwaits tornRun (neighborhoodPool 12) = some q ∧
      q.threads true = .ret () ∧ q.threads false = .ret () ∧
      q.trace[32]? = some (false, ⟨.removeNode "x", .ok ()⟩) ∧ q.state.graph.HasNode "x" :=
    ⟨_, rfl, rfl, rfl, rfl, rfl⟩
  obtain ⟨q, hplay, htrue, hfalse, hremoved, hthere⟩ := hplay
  refine ⟨q, play_reaches _ hplay, fun i => ?_, List.mem_of_getElem? hremoved, hthere⟩
  cases i with
  | true => exact htrue
  | false => exact hfalse

end runs

end RagFlow.Resolution
