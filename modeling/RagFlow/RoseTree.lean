import Mathlib.Data.List.Induction
import Mathlib.Tactic.SplitIfs

/-! # Trees that grow at the right

Trees with any number of children, and changes on the path of the last children (`spine`), from the
root to the last leaf.

* **Changes.** `onSpine stop f` changes the first node of the spine that is a leaf or at which the
  search is to stop.  `attach` puts a new last child there, `relabel` changes the last leaf.
* **Lists.** The labels in preorder, the edges in the order of their ends, and the height; what the
  changes do to them is said in terms of the spine (`preorder_attach`, `edges_attach`,
  `height_attach`, `spine_attach`). -/

namespace RagFlow.RoseTree

/-- A tree with a label and any number of children at each node. -/
inductive Rose (α : Type) where
  | node (label : α) (children : List (Rose α))

namespace Rose

variable {α β : Type}

def label : Rose α → α
  | node a _ => a

def children : Rose α → List (Rose α)
  | node _ cs => cs

/-! ### Changes on the spine -/

mutual

/-- Changes the first node of the spine that is a leaf or at which `stop` holds. -/
def onSpine (stop : α → Bool) (f : Rose α → Rose α) : Rose α → Rose α
  | node a cs => if cs.isEmpty || stop a then f (node a cs) else node a (onLast stop f cs)

def onLast (stop : α → Bool) (f : Rose α → Rose α) : List (Rose α) → List (Rose α)
  | [] => []
  | [c] => [onSpine stop f c]
  | c :: d :: cs => c :: onLast stop f (d :: cs)

end

/-- A new last child, without children. -/
def push (x : α) : Rose α → Rose α
  | node a cs => node a (cs ++ [node x []])

def attach (stop : α → Bool) (x : α) (t : Rose α) : Rose α := onSpine stop (push x) t

/-- Another label. -/
def modify (f : α → α) : Rose α → Rose α
  | node a cs => node (f a) cs

/-- Another label at the last leaf. -/
def relabel (f : α → α) (t : Rose α) : Rose α := onSpine (fun _ => false) (modify f) t

/-! ### Reading -/

mutual

def spine : Rose α → List α
  | node a cs => a :: spineLast cs

def spineLast : List (Rose α) → List α
  | [] => []
  | [c] => spine c
  | _ :: d :: cs => spineLast (d :: cs)

end

mutual

def preorder : Rose α → List α
  | node a cs => a :: preorders cs

def preorders : List (Rose α) → List α
  | [] => []
  | c :: cs => preorder c ++ preorders cs

end

mutual

/-- Each node with its parent before it. -/
def edges : Rose α → List (α × α)
  | node a cs => edgesFrom a cs

def edgesFrom (a : α) : List (Rose α) → List (α × α)
  | [] => []
  | c :: cs => (a, c.label) :: edges c ++ edgesFrom a cs

end

mutual

def height : Rose α → ℕ
  | node _ cs => heights cs

def heights : List (Rose α) → ℕ
  | [] => 0
  | c :: cs => max (height c + 1) (heights cs)

end

mutual

def map (g : α → β) : Rose α → Rose β
  | node a cs => node (g a) (maps g cs)

def maps (g : α → β) : List (Rose α) → List (Rose β)
  | [] => []
  | c :: cs => map g c :: maps g cs

end

/-! ### The last child -/

theorem onLast_concat (stop : α → Bool) (f : Rose α → Rose α) (cs : List (Rose α)) (c : Rose α) :
    onLast stop f (cs ++ [c]) = cs ++ [onSpine stop f c] := by
  induction cs with
  | nil => rfl
  | cons b cs ih =>
      cases cs with
      | nil => rfl
      | cons d cs =>
          show b :: onLast stop f (d :: cs ++ [c]) = _
          rw [ih]
          rfl

@[simp] theorem onSpine_leaf (stop : α → Bool) (f : Rose α → Rose α) (a : α) :
    onSpine stop f (node a []) = f (node a []) := rfl

theorem onSpine_concat (stop : α → Bool) (f : Rose α → Rose α) (a : α) (cs : List (Rose α))
    (c : Rose α) : onSpine stop f (node a (cs ++ [c])) =
      if stop a then f (node a (cs ++ [c])) else node a (cs ++ [onSpine stop f c]) := by
  have hne : (cs ++ [c]).isEmpty = false := by simp
  rw [onSpine, hne, Bool.false_or, onLast_concat]

@[simp] theorem spine_leaf (a : α) : spine (node a []) = [a] := rfl

@[simp] theorem spine_concat (a : α) (cs : List (Rose α)) (c : Rose α) :
    spine (node a (cs ++ [c])) = a :: spine c := by
  have hlast : spineLast (cs ++ [c]) = spine c := by
    induction cs with
    | nil => rfl
    | cons b cs ih =>
        cases cs with
        | nil => rfl
        | cons d cs => exact ih
  rw [spine, hlast]

theorem preorders_append (cs ds : List (Rose α)) :
    preorders (cs ++ ds) = preorders cs ++ preorders ds := by
  induction cs with
  | nil => rfl
  | cons c cs ih => rw [List.cons_append, preorders, preorders, ih, List.append_assoc]

@[simp] theorem preorder_leaf (a : α) : preorder (node a []) = [a] := rfl

@[simp] theorem preorder_concat (a : α) (cs : List (Rose α)) (c : Rose α) :
    preorder (node a (cs ++ [c])) = a :: preorders cs ++ preorder c := by
  rw [preorder, preorders_append, preorders, preorders, List.append_nil, List.cons_append]

theorem edgesFrom_append (a : α) (cs ds : List (Rose α)) :
    edgesFrom a (cs ++ ds) = edgesFrom a cs ++ edgesFrom a ds := by
  induction cs with
  | nil => rfl
  | cons c cs ih => rw [List.cons_append, edgesFrom, edgesFrom, ih, List.append_assoc]

@[simp] theorem edges_leaf (a : α) : edges (node a []) = [] := rfl

@[simp] theorem edges_concat (a : α) (cs : List (Rose α)) (c : Rose α) :
    edges (node a (cs ++ [c])) = edgesFrom a cs ++ (a, c.label) :: edges c := by
  rw [edges, edgesFrom_append, edgesFrom, edgesFrom, List.append_nil]

theorem heights_append (cs ds : List (Rose α)) :
    heights (cs ++ ds) = max (heights cs) (heights ds) := by
  induction cs with
  | nil => rw [List.nil_append, heights, Nat.zero_max]
  | cons c cs ih => rw [List.cons_append, heights, heights, ih, Nat.max_assoc]

@[simp] theorem height_leaf (a : α) : height (node a []) = 0 := rfl

@[simp] theorem height_concat (a : α) (cs : List (Rose α)) (c : Rose α) :
    height (node a (cs ++ [c])) = max (heights cs) (height c + 1) := by
  rw [height, heights_append, heights, heights, Nat.max_zero]

theorem maps_append (g : α → β) (cs ds : List (Rose α)) :
    maps g (cs ++ ds) = maps g cs ++ maps g ds := by
  induction cs with
  | nil => rfl
  | cons c cs ih => rw [List.cons_append, maps, maps, ih, List.cons_append]

@[simp] theorem map_leaf (g : α → β) (a : α) : map g (node a []) = node (g a) [] := rfl

@[simp] theorem map_concat (g : α → β) (a : α) (cs : List (Rose α)) (c : Rose α) :
    map g (node a (cs ++ [c])) = node (g a) (maps g cs ++ [map g c]) := by
  rw [map, maps_append]
  rfl

/-- Induction along the spine. -/
theorem spine_induction {motive : Rose α → Prop} (leaf : ∀ a, motive (node a []))
    (concat : ∀ a cs c, motive c → motive (node a (cs ++ [c]))) : ∀ t, motive t
  | node a cs => by
      rcases List.eq_nil_or_concat cs with hcs | ⟨ds, c, hcs⟩
      · rw [hcs]
        exact leaf a
      · have hmem : c ∈ cs := by
          rw [hcs, List.concat_eq_append]
          exact List.mem_append_right _ List.mem_cons_self
        have hlast := spine_induction leaf concat c
        rw [hcs, List.concat_eq_append]
        exact concat a ds c hlast
termination_by t => sizeOf t
decreasing_by
  have := List.sizeOf_lt_of_mem hmem
  simp
  omega

/-! ### Attaching -/

/-- The spine up to the node at which a search stops. -/
def upTo (stop : α → Bool) : List α → List α
  | [] => []
  | a :: l => if stop a then [a] else a :: upTo stop l

variable {stop : α → Bool} {x : α}

@[simp] theorem label_attach (t : Rose α) : (attach stop x t).label = t.label := by
  unfold attach
  induction t using spine_induction with
  | leaf a => rfl
  | concat a cs c ih =>
      rw [onSpine_concat]
      split_ifs <;> rfl

theorem spine_attach (t : Rose α) : (attach stop x t).spine = upTo stop t.spine ++ [x] := by
  unfold attach
  induction t using spine_induction with
  | leaf a =>
      show [a, x] = (if stop a then [a] else [a]) ++ [x]
      split_ifs <;> rfl
  | concat a cs c ih =>
      rw [onSpine_concat, spine_concat, upTo]
      by_cases ha : stop a
      · rw [if_pos ha, if_pos ha, push, spine_concat, spine_leaf]
        rfl
      · rw [if_neg ha, if_neg ha, spine_concat, ih]
        rfl

theorem preorder_attach (t : Rose α) : (attach stop x t).preorder = t.preorder ++ [x] := by
  unfold attach
  induction t using spine_induction with
  | leaf a => rfl
  | concat a cs c ih =>
      rw [onSpine_concat]
      by_cases ha : stop a
      · rw [if_pos ha, push, preorder_concat, preorders_append, preorder_concat, preorder_leaf]
        simp [preorders]
      · rw [if_neg ha, preorder_concat, preorder_concat, ih, List.append_assoc]

theorem edges_attach (t : Rose α) : ∃ p, (upTo stop t.spine).getLast? = some p ∧
    (attach stop x t).edges = t.edges ++ [(p, x)] := by
  unfold attach
  induction t using spine_induction with
  | leaf a =>
      refine ⟨a, ?_, rfl⟩
      show (if stop a then [a] else [a]).getLast? = some a
      split_ifs <;> rfl
  | concat a cs c ih =>
      rw [onSpine_concat, spine_concat, upTo]
      by_cases ha : stop a
      · rw [if_pos ha, if_pos ha]
        refine ⟨a, rfl, ?_⟩
        rw [push, edges_concat, edges_leaf, edges, label]
      · rw [if_neg ha, if_neg ha]
        obtain ⟨p, hp, hedges⟩ := ih
        have hlabel : (onSpine stop (push x) c).label = c.label := label_attach c
        refine ⟨p, ?_, ?_⟩
        · rw [List.getLast?_cons, hp]
          rfl
        · rw [edges_concat, edges_concat, hedges, hlabel]
          simp

theorem height_attach (t : Rose α) :
    (attach stop x t).height = max t.height (upTo stop t.spine).length := by
  unfold attach
  induction t using spine_induction with
  | leaf a =>
      show max 1 0 = max 0 (if stop a then [a] else [a]).length
      split_ifs <;> rfl
  | concat a cs c ih =>
      rw [onSpine_concat, spine_concat, upTo]
      by_cases ha : stop a
      · rw [if_pos ha, if_pos ha, push, height_concat, height_leaf, height_concat, heights_append]
        simp [heights]
      · rw [if_neg ha, if_neg ha, height_concat, height_concat, ih, List.length_cons]
        omega

@[simp] theorem map_push (g : α → β) (x : α) (t : Rose α) :
    (push x t).map g = push (g x) (t.map g) := by
  obtain ⟨a, cs⟩ := t
  exact map_concat g a cs (node x [])

/-- Attaching at the root. -/
theorem attach_of_stop {t : Rose α} (h : stop t.label = true) : attach stop x t = push x t := by
  obtain ⟨a, cs⟩ := t
  unfold attach
  rw [onSpine, show stop a = true from h, Bool.or_true, if_pos rfl]

theorem map_attach {g : α → β} {stop' : β → Bool} (h : ∀ a, stop' (g a) = stop a) (t : Rose α) :
    (attach stop x t).map g = attach stop' (g x) (t.map g) := by
  unfold attach
  induction t using spine_induction with
  | leaf a => rfl
  | concat a cs c ih =>
      rw [onSpine_concat, map_concat, onSpine_concat, h]
      by_cases ha : stop a
      · rw [if_pos ha, if_pos ha, push, map_concat, push, maps_append]
        rfl
      · rw [if_neg ha, if_neg ha, map_concat, ih]

/-! ### Relabelling -/

/-- The last leaf is the last node in preorder. -/
theorem preorder_relabel (f : α → α) (t : Rose α) : ∃ l b, t.preorder = l ++ [b] ∧
    (relabel f t).preorder = l ++ [f b] := by
  unfold relabel
  induction t using spine_induction with
  | leaf a => exact ⟨[], a, rfl, rfl⟩
  | concat a cs c ih =>
      obtain ⟨l, b, ht, hr⟩ := ih
      refine ⟨a :: preorders cs ++ l, b, ?_, ?_⟩
      · rw [preorder_concat, ht, List.append_assoc]
      · rw [onSpine_concat, if_neg Bool.false_ne_true, preorder_concat, hr, List.append_assoc]

theorem map_relabel {g : α → β} {f : α → α} (h : ∀ a, g (f a) = g a) (t : Rose α) :
    (relabel f t).map g = t.map g := by
  unfold relabel
  induction t using spine_induction with
  | leaf a =>
      show node (g (f a)) [] = node (g a) []
      rw [h]
  | concat a cs c ih =>
      rw [onSpine_concat, if_neg Bool.false_ne_true, map_concat, map_concat, ih]

mutual

theorem height_map (g : α → β) : ∀ t : Rose α, (t.map g).height = t.height
  | node _ cs => heights_maps g cs

theorem heights_maps (g : α → β) : ∀ cs : List (Rose α), heights (maps g cs) = heights cs
  | [] => rfl
  | c :: cs => by rw [maps, heights, heights, height_map g c, heights_maps g cs]

end

mutual

theorem preorder_map (g : α → β) : ∀ t : Rose α, (t.map g).preorder = t.preorder.map g
  | node a cs => by rw [map, preorder, preorder, List.map_cons, preorders_maps g cs]

theorem preorders_maps (g : α → β) : ∀ cs : List (Rose α),
    preorders (maps g cs) = (preorders cs).map g
  | [] => rfl
  | c :: cs => by
      rw [maps, preorders, preorders, List.map_append, preorder_map g c, preorders_maps g cs]

end

/-! ### Where a search stops -/

theorem upTo_prefix (stop : α → Bool) (l : List α) : upTo stop l <+: l := by
  induction l with
  | nil => exact List.prefix_refl _
  | cons a l ih =>
      rw [upTo]
      split_ifs
      · exact List.prefix_append [a] l
      · exact List.cons_prefix_cons.mpr ⟨rfl, ih⟩

@[simp] theorem head?_upTo (stop : α → Bool) (l : List α) : (upTo stop l).head? = l.head? := by
  cases l with
  | nil => rfl
  | cons a l =>
      rw [upTo]
      split_ifs <;> rfl

/-- The search stops at a node with `stop` or at the end. -/
theorem getLast?_upTo (stop : α → Bool) (l : List α) {p : α}
    (hp : (upTo stop l).getLast? = some p) : stop p = true ∨ l.getLast? = some p := by
  induction l with
  | nil => cases hp
  | cons a l ih =>
      rw [upTo] at hp
      by_cases ha : stop a
      · rw [if_pos ha] at hp
        cases hp
        exact Or.inl ha
      · rw [if_neg ha, List.getLast?_cons] at hp
        rw [List.getLast?_cons]
        cases hl : (upTo stop l).getLast? with
        | none =>
            rw [hl] at hp
            cases l with
            | nil => exact Or.inr hp
            | cons b l =>
                rw [List.getLast?_eq_none_iff, upTo] at hl
                split_ifs at hl
        | some q =>
            rw [hl] at hp
            cases hp
            rcases ih hl with hstop | hlast
            · exact Or.inl hstop
            · rw [hlast]
              exact Or.inr rfl

/-- The search goes no further than to a node with `stop`. -/
theorem upTo_of_mem {stop : α → Bool} {l r : List α} {q : α} (hq : stop q = true)
    (hl : ∀ a ∈ l, stop a = false) : upTo stop (l ++ q :: r) = l ++ [q] := by
  induction l with
  | nil => rw [List.nil_append, upTo, if_pos hq, List.nil_append]
  | cons a l ih =>
      have ha : ¬ stop a = true := by
        rw [hl a List.mem_cons_self]
        exact Bool.false_ne_true
      rw [List.cons_append, upTo, if_neg ha, ih (fun b hb => hl b (List.mem_cons_of_mem _ hb)),
        List.cons_append]

theorem upTo_of_forall {stop : α → Bool} {l : List α} (hl : ∀ a ∈ l, stop a = false) :
    upTo stop l = l := by
  induction l with
  | nil => rfl
  | cons a l ih =>
      have ha : ¬ stop a = true := by
        rw [hl a List.mem_cons_self]
        exact Bool.false_ne_true
      rw [upTo, if_neg ha, ih (fun b hb => hl b (List.mem_cons_of_mem _ hb))]

end Rose

end RagFlow.RoseTree
