import Mathlib.Logic.Function.Basic
import RagFlow.PyStr

/-! # The components of a canvas

The web client draws a canvas as nodes and edges, and `buildDslComponentsByGraph` of
`pages/agent/utils.ts` makes of it the components that the server runs, each with the lists of its
neighbours.

* **Components.** Notes, tools, placeholders and the agents below other agents are no components.
* **Neighbours.** `buildComponentDownstreamOrUpstream` makes both lists from the edges; some edges
  of an agent are left out of its downstream list, and of that list only.
* **Well-formedness.** `components_wellFormed` says for which edges the neighbours are components,
  and when being downstream and being upstream are the same.

The parameters of a component, besides `exception_goto`, are left out. -/

namespace RagFlow.AgentDsl

open Py

/-! ### Nodes and edges -/

/-- `Operator`. -/
inductive Operator where
  | begin | retrieval | categorize | message | rewriteQuestion | duckDuckGo | wikipedia | pubMed
  | arXiv | google | bing | googleScholar | gitHub | exeSQL | switch | wenCai | yahooFinance | note
  | crawler | invoke | email | iteration | iterationStart | code | waitingDialogue | agent | tool
  | tavilySearch | tavilyExtract | userFillUp | stringTransform | searXNG | pdfGenerator
  | placeholder | dataOperations | listOperations | variableAssigner | variableAggregator | file
  | parser | tokenizer | splitter | hierarchicalMerger | extractor | loop | loopStart | exitLoop
  | excelProcessor
deriving DecidableEq

/-- The values of the two operators that ids are compared with. -/
def toolPrefix : Str := "Tool"

def agentPrefix : Str := "Agent"

/-- `NodeHandleId`, and the other handles of nodes. -/
inductive Handle where
  | start | finish | tool | agentTop | agentBottom | agentException
  | other (id : Str)
deriving DecidableEq

/-- A node, with its `data.label`. -/
structure Node where
  id : Str
  label : Operator
  parentId : Option Str

structure Edge where
  source : Str
  target : Str
  sourceHandle : Option Handle
  targetHandle : Option Handle
deriving DecidableEq

/-- `nodes.find((x) => x.id === nodeId)`. -/
def findNode (nodes : List Node) (nodeId : Str) : Option Node :=
  nodes.find? (fun x => x.id = nodeId)

/-! ### Components -/

/-- `ExcludeOperators`. -/
def excludeOperators : List Operator := [.note, .tool, .placeholder]

/-- `isBottomSubAgent`. -/
def isBottomSubAgent (edges : List Edge) (nodeId : Str) : Bool :=
  edges.any (fun x => x.target = nodeId && x.targetHandle = some .agentTop)

/-- `buildAgentExceptionGoto`. -/
def buildAgentExceptionGoto (edges : List Edge) (nodeId : Str) : List Str :=
  (edges.filter (fun x => x.source = nodeId && x.sourceHandle = some .agentException)).map
    Edge.target

/-- The edges that the downstream list of an agent leaves out. -/
def leftOut (y : Edge) : Bool :=
  y.sourceHandle = some .agentException || startswith y.target toolPrefix ||
    (startswith y.target agentPrefix && y.targetHandle = some .agentTop)

/-- `buildComponentDownstreamOrUpstream`. -/
def buildComponentDownstreamOrUpstream (edges : List Edge) (nodeId : Str)
    (isBuildDownstream : Bool) (nodes : List Node) : List Str :=
  (edges.filter (fun y =>
    (if isBuildDownstream then y.source else y.target) = nodeId &&
      !(isBuildDownstream && (findNode nodes nodeId).any (fun x => x.label = .agent) &&
        leftOut y))).map
    (fun y => if isBuildDownstream then y.target else y.source)

structure Component where
  componentName : Operator
  exceptionGoto : Option (List Str)
  downstream : List Str
  upstream : List Str
  parentId : Option Str

/-- Does the node become a component? -/
def isComponentNode (edges : List Edge) (x : Node) : Bool :=
  !excludeOperators.contains x.label && !isBottomSubAgent edges x.id

/-- The component of a node. -/
def buildComponent (nodes : List Node) (edges : List Edge) (x : Node) : Component :=
  { componentName := x.label
    exceptionGoto :=
      if x.label = .agent then some (buildAgentExceptionGoto edges x.id) else none
    downstream := buildComponentDownstreamOrUpstream edges x.id true nodes
    upstream := buildComponentDownstreamOrUpstream edges x.id false nodes
    parentId := x.parentId }

/-- The components by their ids. -/
abbrev DslComponents := Str → Option Component

/-- `components[id] = …`. -/
def addComponent (nodes : List Node) (edges : List Edge) (components : DslComponents) (x : Node) :
    DslComponents :=
  Function.update components x.id (some (buildComponent nodes edges x))

/-- `buildDslComponentsByGraph`. -/
def buildDslComponentsByGraph (nodes : List Node) (edges : List Edge) : DslComponents :=
  (nodes.filter (isComponentNode edges)).foldl (addComponent nodes edges) (fun _ => none)

section components
variable {nodes : List Node} {edges : List Edge} {a b : Str} {c : Component}

theorem mem_downstream_iff :
    b ∈ buildComponentDownstreamOrUpstream edges a true nodes ↔
      ∃ y ∈ edges, y.source = a ∧ y.target = b ∧
        ¬((findNode nodes a).any (fun x => x.label = .agent) = true ∧ leftOut y = true) := by
  unfold buildComponentDownstreamOrUpstream
  simp only [List.mem_map, List.mem_filter, if_true, Bool.true_and, Bool.and_eq_true,
    decide_eq_true_eq, Bool.not_eq_true', Bool.and_eq_false_iff, not_and_or, Bool.not_eq_true]
  constructor
  · rintro ⟨y, ⟨hy, hsource, hkept⟩, htarget⟩
    exact ⟨y, hy, hsource, htarget, hkept⟩
  · rintro ⟨y, hy, hsource, htarget, hkept⟩
    exact ⟨y, ⟨hy, hsource, hkept⟩, htarget⟩

theorem mem_upstream_iff :
    a ∈ buildComponentDownstreamOrUpstream edges b false nodes ↔
      ∃ y ∈ edges, y.source = a ∧ y.target = b := by
  unfold buildComponentDownstreamOrUpstream
  simp only [List.mem_map, List.mem_filter, Bool.false_eq_true, if_false, Bool.false_and,
    Bool.not_false, Bool.and_true, decide_eq_true_eq]
  constructor
  · rintro ⟨y, ⟨hy, htarget⟩, hsource⟩
    exact ⟨y, hy, hsource, htarget⟩
  · rintro ⟨y, hy, hsource, htarget⟩
    exact ⟨y, ⟨hy, htarget⟩, hsource⟩

theorem foldl_addComponent_eq_some (xs : List Node) (components : DslComponents)
    (h : xs.foldl (addComponent nodes edges) components a = some c) :
    (∃ x ∈ xs, x.id = a ∧ c = buildComponent nodes edges x) ∨ components a = some c := by
  induction xs generalizing components with
  | nil => exact .inr h
  | cons x xs ih =>
      rcases ih _ h with ⟨x', hx', hid, hc⟩ | hupdate
      · exact .inl ⟨x', List.mem_cons_of_mem _ hx', hid, hc⟩
      · unfold addComponent at hupdate
        by_cases hx : a = x.id
        · subst hx
          rw [Function.update_self] at hupdate
          exact .inl ⟨x, List.mem_cons_self, rfl, (Option.some.inj hupdate).symm⟩
        · rw [Function.update_of_ne hx] at hupdate
          exact .inr hupdate

theorem isSome_foldl_addComponent (xs : List Node) (components : DslComponents)
    (h : (∃ x ∈ xs, x.id = a) ∨ (components a).isSome) :
    (xs.foldl (addComponent nodes edges) components a).isSome := by
  induction xs generalizing components with
  | nil =>
      rcases h with ⟨x, hx, -⟩ | hsome
      · cases hx
      · exact hsome
  | cons x xs ih =>
      refine ih _ ?_
      unfold addComponent
      by_cases hx : a = x.id
      · right
        rw [hx, Function.update_self]
        rfl
      · rw [Function.update_of_ne hx]
        rcases h with ⟨x', hx', hid⟩ | hsome
        · rcases List.mem_cons.mp hx' with rfl | hx'
          · exact absurd hid.symm hx
          · exact .inl ⟨x', hx', hid⟩
        · exact .inr hsome

/-- A component is that of a node with its id. -/
theorem component_eq (h : buildDslComponentsByGraph nodes edges a = some c) :
    ∃ x ∈ nodes, x.id = a ∧ isComponentNode edges x = true ∧ c = buildComponent nodes edges x := by
  rcases foldl_addComponent_eq_some _ _ h with ⟨x, hx, hid, hc⟩ | hnone
  · obtain ⟨hmem, hcomponent⟩ := List.mem_filter.mp hx
    exact ⟨x, hmem, hid, hcomponent, hc⟩
  · cases hnone

/-- Which ids are components. -/
theorem isSome_component_iff :
    (buildDslComponentsByGraph nodes edges a).isSome ↔
      ∃ x ∈ nodes, x.id = a ∧ isComponentNode edges x = true := by
  constructor
  · intro h
    obtain ⟨c, hc⟩ := Option.isSome_iff_exists.mp h
    obtain ⟨x, hx, hid, hcomponent, -⟩ := component_eq hc
    exact ⟨x, hx, hid, hcomponent⟩
  · rintro ⟨x, hx, hid, hcomponent⟩
    exact isSome_foldl_addComponent _ _ (.inl ⟨x, List.mem_filter.mpr ⟨hx, hcomponent⟩, hid⟩)

end components

/-! ### Well-formedness -/

/-- Every neighbour of a component is a component. -/
def Closed (components : DslComponents) : Prop :=
  ∀ a c, components a = some c → ∀ b, b ∈ c.downstream ∨ b ∈ c.upstream → (components b).isSome

/-- Of two components, one is downstream of the other exactly when the other is upstream of it. -/
def Symmetric (components : DslComponents) : Prop :=
  ∀ a b ca cb, components a = some ca → components b = some cb →
    (b ∈ ca.downstream ↔ a ∈ cb.upstream)

/-- The id is that of an agent, and every edge to `b` is for its exceptions or `b` is named like a
tool. -/
def OnlyAside (nodes : List Node) (edges : List Edge) (a b : Str) : Prop :=
  (findNode nodes a).any (fun x => x.label = .agent) = true ∧
    ∀ y ∈ edges, y.source = a → y.target = b →
      y.sourceHandle = some .agentException ∨ startswith b toolPrefix = true

/-- The graph has a node with this id that is no note, tool or placeholder, and no edge reaches it
as an agent below another agent. -/
def BecomesComponent (nodes : List Node) (edges : List Edge) (id : Str) : Prop :=
  ∃ x ∈ nodes, x.id = id ∧ x.label ∉ excludeOperators ∧
    ¬∃ y ∈ edges, y.target = id ∧ y.targetHandle = some .agentTop

/-- The downstream list of the node the edge comes from leaves it out. -/
def Omitted (nodes : List Node) (y : Edge) : Prop :=
  (findNode nodes y.source).any (fun x => x.label = .agent) = true ∧ leftOut y = true

/-- What holds of the lists of neighbours. -/
structure WellFormed (nodes : List Node) (edges : List Edge) (components : DslComponents) :
    Prop where
  /-- Downstream and upstream are the same, but for the edges that an agent leaves out. -/
  symmetric : ∀ a b ca cb, components a = some ca → components b = some cb →
    (b ∈ ca.downstream ↔ a ∈ cb.upstream ∧ ¬OnlyAside nodes edges a b)
  /-- What is downstream of a component are components exactly when each edge from it that is not
  left out leads to one. -/
  downstream_closed : ∀ a c, components a = some c →
    ((∀ b ∈ c.downstream, (components b).isSome) ↔
      ∀ y ∈ edges, y.source = a → ¬Omitted nodes y → BecomesComponent nodes edges y.target)
  /-- What is upstream of a component are components exactly when each edge to it comes from one. -/
  upstream_closed : ∀ b c, components b = some c →
    ((∀ a ∈ c.upstream, (components a).isSome) ↔
      ∀ y ∈ edges, y.target = b → BecomesComponent nodes edges y.source)

theorem isComponentNode_iff {edges : List Edge} {x : Node} :
    isComponentNode edges x = true ↔ x.label ∉ excludeOperators ∧
      ¬∃ y ∈ edges, y.target = x.id ∧ y.targetHandle = some .agentTop := by
  unfold isComponentNode isBottomSubAgent
  simp only [Bool.and_eq_true, Bool.not_eq_true', List.contains_eq_mem, Bool.eq_false_iff, ne_eq,
    List.any_eq_true, decide_eq_true_eq]

theorem isSome_iff_becomesComponent {nodes : List Node} {edges : List Edge} {id : Str} :
    (buildDslComponentsByGraph nodes edges id).isSome ↔ BecomesComponent nodes edges id := by
  rw [isSome_component_iff]
  refine exists_congr (fun x => and_congr_right (fun _ => and_congr_right (fun hid => ?_)))
  rw [isComponentNode_iff, hid]

/-- The edges to a component that an agent leaves out are those for exceptions and those to ids that
are named like tools. -/
theorem leftOut_iff {edges : List Edge} {x : Node} {y : Edge} (hx : isComponentNode edges x = true)
    (hy : y ∈ edges) (htarget : y.target = x.id) : leftOut y = true ↔
      y.sourceHandle = some .agentException ∨ startswith x.id toolPrefix = true := by
  have htop : y.targetHandle ≠ some .agentTop := fun h =>
    (isComponentNode_iff.mp hx).2 ⟨y, hy, htarget, h⟩
  unfold leftOut
  rw [Bool.or_eq_true, Bool.or_eq_true, Bool.and_eq_true, decide_eq_true_eq, decide_eq_true_eq,
    htarget, or_iff_left (fun h => htop h.2)]

theorem components_wellFormed (nodes : List Node) (edges : List Edge) :
    WellFormed nodes edges (buildDslComponentsByGraph nodes edges) where
  symmetric := by
    intro a b ca cb ha hb
    obtain ⟨x, -, rfl, -, rfl⟩ := component_eq ha
    obtain ⟨z, -, rfl, hz, rfl⟩ := component_eq hb
    show z.id ∈ buildComponentDownstreamOrUpstream edges x.id true nodes ↔
      x.id ∈ buildComponentDownstreamOrUpstream edges z.id false nodes ∧ _
    rw [mem_downstream_iff, mem_upstream_iff]
    constructor
    · rintro ⟨y, hy, hsource, htarget, hkept⟩
      refine ⟨⟨y, hy, hsource, htarget⟩, fun haside => hkept ⟨haside.1, ?_⟩⟩
      exact (leftOut_iff hz hy htarget).mpr (haside.2 y hy hsource htarget)
    · rintro ⟨⟨y, hy, hsource, htarget⟩, haside⟩
      by_contra hnone
      refine haside ⟨?_, fun y' hy' hsource' htarget' => ?_⟩
      · by_contra hagent
        exact hnone ⟨y, hy, hsource, htarget, fun h => hagent h.1⟩
      · by_contra hout
        rw [← leftOut_iff hz hy' htarget'] at hout
        exact hnone ⟨y', hy', hsource', htarget', fun h => hout h.2⟩
  downstream_closed := by
    intro a c ha
    obtain ⟨x, -, rfl, -, rfl⟩ := component_eq ha
    show (∀ b ∈ buildComponentDownstreamOrUpstream edges x.id true nodes, _) ↔ _
    constructor
    · intro hclosed y hy hsource hkept
      have hb : y.target ∈ buildComponentDownstreamOrUpstream edges x.id true nodes :=
        mem_downstream_iff.mpr ⟨y, hy, hsource, rfl, hsource ▸ hkept⟩
      exact isSome_iff_becomesComponent.mp (hclosed y.target hb)
    · intro hedges b hb
      obtain ⟨y, hy, hsource, rfl, hkept⟩ := mem_downstream_iff.mp hb
      rw [← hsource] at hkept
      exact isSome_iff_becomesComponent.mpr (hedges y hy hsource hkept)
  upstream_closed := by
    intro b c hb
    obtain ⟨x, -, rfl, -, rfl⟩ := component_eq hb
    show (∀ a ∈ buildComponentDownstreamOrUpstream edges x.id false nodes, _) ↔ _
    constructor
    · intro hclosed y hy htarget
      have ha : y.source ∈ buildComponentDownstreamOrUpstream edges x.id false nodes :=
        mem_upstream_iff.mpr ⟨y, hy, rfl, htarget⟩
      exact isSome_iff_becomesComponent.mp (hclosed y.source ha)
    · intro hedges a ha
      obtain ⟨y, hy, rfl, htarget⟩ := mem_upstream_iff.mp ha
      exact isSome_iff_becomesComponent.mpr (hedges y hy htarget)

/-! An agent with an edge for its exceptions, and a message with an edge to a placeholder. -/

def sampleNodes : List Node :=
  [⟨"Agent:a", .agent, none⟩, ⟨"Message:m", .message, none⟩, ⟨"Placeholder:p", .placeholder, none⟩]

def exceptionEdges : List Edge :=
  [⟨"Agent:a", "Message:m", some .agentException, some .finish⟩]

def placeholderEdges : List Edge := [⟨"Message:m", "Placeholder:p", some .start, some .finish⟩]

theorem components_not_symmetric_not_closed :
    ¬Symmetric (buildDslComponentsByGraph sampleNodes exceptionEdges) ∧
      ¬Closed (buildDslComponentsByGraph sampleNodes placeholderEdges) := by
  constructor
  · intro h
    have hiff := h "Agent:a" "Message:m" _ _ rfl rfl
    exact absurd (hiff.mpr (by decide)) (by decide)
  · intro h
    exact absurd (h "Message:m" _ rfl "Placeholder:p" (.inl (by decide))) (by decide)

end RagFlow.AgentDsl
