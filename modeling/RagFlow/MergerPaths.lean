import Mathlib.Data.List.GetD
import Mathlib.Data.List.Nodup
import RagFlow.HierarchicalMerger

/-! # The chunks of a tree of headings

`HierarchicalMerger._invoke` makes a chunk of each path of the tree.  The paths are lists of line
indices, and below the depth `hierarchy` one list is shared by a whole subtree.

* **Paths.** `dfs` works on list objects: down to the depth `hierarchy` a child gets a copy of the
  path, below it the path itself is extended.  A leaf stores its path, and at the depth `hierarchy`
  each child stores it once more.
* **Contents.** `pathsBelow` is what the stored lists are in the end (`dfs_grows`).
* **Covering.** `covers_iff`: the chunks are increasing and have every line; no two are the same
  exactly if no heading is deeper than `hierarchy`. -/

namespace RagFlow.Merger

open Py RoseTree RoseTree.Rose Outline

/-! ### The paths -/

/-- The list objects, and the places of those in `all_pathes`. -/
structure Paths where
  heap : List (List ℤ)
  all : List ℕ

namespace Paths

def get (st : Paths) (path : ℕ) : List ℤ := st.heap.getD path []

def extend (st : Paths) (path : ℕ) (xs : List ℤ) : Paths :=
  { st with heap := st.heap.modify path (· ++ xs) }

/-- The new object comes at the end. -/
def deepcopy (st : Paths) (path : ℕ) : Paths := { st with heap := st.heap ++ [st.get path] }

def append (st : Paths) (path : ℕ) : Paths := { st with all := st.all ++ [path] }

end Paths

/-- What a node adds to a path. -/
def Label.lines (b : Label) : List ℤ := b.index :: b.texts

mutual

/-- `dfs` for a node: the path is that of the node, and holds its lines. -/
def dfs (hierarchy : ℕ) : Node → ℕ → ℕ → Paths → Paths
  | .node _ cs, path, depth, st =>
      dfsChildren hierarchy cs path depth
        (if cs.isEmpty ∧ st.get path ≠ [] then st.append path else st)

/-- The loop over the children. -/
def dfsChildren (hierarchy : ℕ) : List Node → ℕ → ℕ → Paths → Paths
  | [], _, _, st => st
  | nn :: cs, path, depth, st =>
      let path' := if depth < hierarchy then st.heap.length else path
      let st := if depth < hierarchy then st.deepcopy path else st
      let st := dfs hierarchy nn path' (depth + 1) (st.extend path' nn.label.lines)
      dfsChildren hierarchy cs path depth (if depth = hierarchy then st.append path' else st)

end

/-- `all_pathes` in the end. -/
def allPathes (hierarchy : ℕ) (root : Node) : List (List ℤ) :=
  let st := dfs hierarchy root 0 0 ⟨[[]], []⟩
  (if root.label.texts ≠ [] then [root.label.texts] else []) ++ st.all.map st.get

section chunks
variable {P : Type} (search : P → Str → Bool) (levels : List (List P)) (hierarchy : ℕ)

/-- The chunks as lists of indices. -/
def chunkLines (lines : List Str) : List (List ℤ) :=
  allPathes hierarchy (buildTree levels.length (matchLevels search levels lines))

/-- The text of a chunk. -/
def chunkText (lines : List Str) (path : List ℤ) : Str :=
  path.flatMap (fun i => lines.getD i.toNat [] ++ ['\n'])

/-- The chunks of a payload of text. -/
def textChunks (payload : Str) : List Str :=
  let lines := payloadLines payload
  ((chunkLines search levels hierarchy lines).map (chunkText lines)).filter (fun c => c ≠ [])

end chunks

/-! ### The lines of a tree -/

mutual

/-- The lines of a node and all nodes below it. -/
def linesOf : Node → List ℤ
  | .node a cs => a.lines ++ linesBelow cs

def linesBelow : List Node → List ℤ
  | [] => []
  | c :: cs => linesOf c ++ linesBelow cs

end

mutual

/-- How often the path of a node at the depth `hierarchy` or below it is stored. -/
def entries (hierarchy : ℕ) : Node → ℕ → ℕ
  | .node _ cs, depth => (if cs.isEmpty then 1 else 0) + entriesBelow hierarchy cs depth

def entriesBelow (hierarchy : ℕ) : List Node → ℕ → ℕ
  | [], _ => 0
  | c :: cs, depth =>
      entries hierarchy c (depth + 1) + (if depth = hierarchy then 1 else 0) +
        entriesBelow hierarchy cs depth

end

mutual

/-- The contents of the stored paths of a node whose path is `path`. -/
def pathsBelow (hierarchy : ℕ) : Node → ℕ → List ℤ → List (List ℤ)
  | .node a cs, depth, path =>
      if depth < hierarchy then
        (if cs.isEmpty ∧ path ≠ [] then [path] else []) ++ pathsOfChildren hierarchy cs depth path
      else List.replicate (entries hierarchy (.node a cs) depth) (path ++ linesBelow cs)

def pathsOfChildren (hierarchy : ℕ) : List Node → ℕ → List ℤ → List (List ℤ)
  | [], _, _ => []
  | c :: cs, depth, path =>
      pathsBelow hierarchy c (depth + 1) (path ++ c.label.lines) ++
        pathsOfChildren hierarchy cs depth path

end

/-! ### Shared paths -/

section shared
variable {hierarchy : ℕ}

theorem get_extend {st : Paths} {path : ℕ} (h : path < st.heap.length) (xs : List ℤ) :
    (st.extend path xs).get path = st.get path ++ xs := by
  unfold Paths.get Paths.extend
  dsimp only
  rw [List.getD_eq_getElem?_getD, List.getElem?_modify_eq, List.getD_eq_getElem?_getD,
    List.getElem?_eq_getElem h]
  rfl

theorem extend_extend (st : Paths) (path : ℕ) (xs ys : List ℤ) :
    (st.extend path xs).extend path ys = st.extend path (xs ++ ys) := by
  unfold Paths.extend
  dsimp only
  rw [List.modify_modify_eq]
  congr 2
  funext zs
  exact List.append_assoc zs xs ys

/-- The path is longer by `xs`, and is stored `k` times more. -/
def Paths.share (st : Paths) (path : ℕ) (xs : List ℤ) (k : ℕ) : Paths :=
  { st.extend path xs with all := st.all ++ List.replicate k path }

theorem share_zero (st : Paths) (path : ℕ) (xs : List ℤ) :
    st.share path xs 0 = st.extend path xs := by
  unfold Paths.share
  rw [List.replicate_zero, List.append_nil]
  rfl

theorem extend_nil (st : Paths) (path : ℕ) : st.extend path [] = st := by
  unfold Paths.extend
  have hid : (fun zs : List ℤ => zs ++ []) = id := funext List.append_nil
  rw [hid, List.modify_id]

/-- The path is stored once more, or not. -/
theorem share_nil (st : Paths) (path : ℕ) (p : Prop) [Decidable p] :
    st.share path [] (if p then 1 else 0) = if p then st.append path else st := by
  unfold Paths.share
  rw [extend_nil]
  split_ifs
  · rfl
  · rw [List.replicate_zero, List.append_nil]

theorem share_share (st : Paths) (path : ℕ) (xs ys : List ℤ) (k l : ℕ) :
    (st.share path xs k).share path ys l = st.share path (xs ++ ys) (k + l) := by
  have h := extend_extend st path xs ys
  unfold Paths.extend at h
  unfold Paths.share Paths.extend
  dsimp only at h ⊢
  rw [(Paths.mk.inj h).1, List.append_assoc, List.replicate_append_replicate]

theorem length_share (st : Paths) (path : ℕ) (xs : List ℤ) (k : ℕ) :
    (st.share path xs k).heap.length = st.heap.length := List.length_modify _ _ _

theorem get_share {st : Paths} {path : ℕ} (h : path < st.heap.length) (xs : List ℤ) (k : ℕ) :
    (st.share path xs k).get path = st.get path ++ xs := get_extend h xs

mutual

/-- Below the depth `hierarchy` the path gets the lines of the whole subtree. -/
theorem dfs_shared : ∀ (n : Node) (path depth : ℕ) (st : Paths), hierarchy ≤ depth →
    path < st.heap.length → st.get path ≠ [] →
    dfs hierarchy n path depth st =
      st.share path (linesBelow n.children) (entries hierarchy n depth)
  | .node a cs, path, depth, st, hdepth, hpath, hne => by
      rw [dfs, entries]
      have hstore : (if cs.isEmpty ∧ st.get path ≠ [] then st.append path else st) =
          st.share path [] (if cs.isEmpty then 1 else 0) := by
        rw [share_nil]
        exact if_congr (and_iff_left hne) rfl rfl
      rw [hstore, dfsChildren_shared cs path depth _ hdepth (by rwa [length_share])
        (by rwa [get_share hpath, List.append_nil]), share_share, List.nil_append, children]

theorem dfsChildren_shared : ∀ (cs : List Node) (path depth : ℕ) (st : Paths),
    hierarchy ≤ depth → path < st.heap.length → st.get path ≠ [] →
    dfsChildren hierarchy cs path depth st =
      st.share path (linesBelow cs) (entriesBelow hierarchy cs depth)
  | [], path, depth, st, _, _, _ => by
      rw [dfsChildren, linesBelow, entriesBelow, share_zero, extend_nil]
  | c :: cs, path, depth, st, hdepth, hpath, hne => by
      have hne' : st.get path ++ c.label.lines ≠ [] := fun h => hne (List.append_eq_nil_iff.mp h).1
      have hnode := dfs_shared c path (depth + 1) (st.share path c.label.lines 0) (by omega)
        (by rwa [length_share]) (by rwa [get_share hpath])
      rw [dfsChildren, if_neg (Nat.not_lt.mpr hdepth), if_neg (Nat.not_lt.mpr hdepth), ← share_zero]
      rw [hnode, ← share_nil, share_share, share_share, dfsChildren_shared cs path depth _ hdepth
        (by rwa [length_share]) (by
          rw [get_share hpath]
          exact fun h => hne (List.append_eq_nil_iff.mp h).1), share_share, linesBelow,
        entriesBelow, Nat.zero_add, List.append_nil]
      obtain ⟨a, ds⟩ := c
      rw [linesOf]
      rfl

end

/-! ### Copied paths -/

/-- New objects come after the old ones, and `out` is what the newly stored paths are. -/
structure Grows (st st' : Paths) (out : List (List ℤ)) : Prop where
  heap : ∃ new, st'.heap = st.heap ++ new
  stored : ∃ refs, st'.all = st.all ++ refs ∧ (∀ r ∈ refs, r < st'.heap.length) ∧
    refs.map st'.get = out

theorem Grows.refl (st : Paths) : Grows st st [] :=
  ⟨⟨[], (List.append_nil _).symm⟩, [], (List.append_nil _).symm,
    fun _ h => absurd h List.not_mem_nil, rfl⟩

theorem Grows.length_le {st st' : Paths} {out : List (List ℤ)} (h : Grows st st' out) :
    st.heap.length ≤ st'.heap.length := by
  obtain ⟨new, hnew⟩ := h.heap
  rw [hnew, List.length_append]
  exact Nat.le_add_right _ _

theorem Grows.get {st st' : Paths} {out : List (List ℤ)} (h : Grows st st' out) {path : ℕ}
    (hpath : path < st.heap.length) : st'.get path = st.get path := by
  obtain ⟨new, hnew⟩ := h.heap
  unfold Paths.get
  rw [hnew, List.getD_append _ _ _ _ hpath]

theorem Grows.trans {st st' st'' : Paths} {out out' : List (List ℤ)} (h : Grows st st' out)
    (h' : Grows st' st'' out') : Grows st st'' (out ++ out') := by
  obtain ⟨new, hnew⟩ := h.heap
  obtain ⟨new', hnew'⟩ := h'.heap
  obtain ⟨refs, hall, hlt, hout⟩ := h.stored
  obtain ⟨refs', hall', hlt', hout'⟩ := h'.stored
  refine ⟨⟨new ++ new', ?_⟩, refs ++ refs', ?_, ?_, ?_⟩
  · rw [hnew', hnew, List.append_assoc]
  · rw [hall', hall, List.append_assoc]
  · intro r hr
    rcases List.mem_append.mp hr with hr | hr
    · exact Nat.lt_of_lt_of_le (hlt r hr) h'.length_le
    · exact hlt' r hr
  · rw [List.map_append, hout', ← hout]
    congr 1
    exact List.map_congr_left (fun r hr => h'.get (hlt r hr))

/-- An object is stored. -/
theorem Grows.append {st : Paths} {path : ℕ} (hpath : path < st.heap.length) :
    Grows st (st.append path) [st.get path] := by
  refine ⟨⟨[], (List.append_nil _).symm⟩, [path], rfl, ?_, rfl⟩
  intro r hr
  rw [List.mem_singleton.mp hr]
  exact hpath

theorem modify_length (heap : List (List ℤ)) (path : List ℤ) (f : List ℤ → List ℤ) :
    (heap ++ [path]).modify heap.length f = heap ++ [f path] := by
  induction heap with
  | nil => rfl
  | cons a heap ih =>
      rw [List.cons_append, List.length_cons, List.modify_succ_cons, ih, List.cons_append]

/-- The path of a child. -/
theorem extend_deepcopy (st : Paths) (path : ℕ) (xs : List ℤ) :
    (st.deepcopy path).extend st.heap.length xs =
      { st with heap := st.heap ++ [st.get path ++ xs] } := by
  unfold Paths.extend Paths.deepcopy
  dsimp only
  rw [modify_length]

theorem get_length (st : Paths) (path : List ℤ) :
    ({ st with heap := st.heap ++ [path] } : Paths).get st.heap.length = path := by
  unfold Paths.get
  rw [List.getD_append_right _ _ _ _ (Nat.le_refl _), Nat.sub_self]
  rfl

/-- A new object, which becomes longer and is stored `k` times. -/
theorem Grows.share (st : Paths) (path xs : List ℤ) (k : ℕ) :
    Grows st (({ st with heap := st.heap ++ [path] } : Paths).share st.heap.length xs k)
      (List.replicate k (path ++ xs)) := by
  have hlt : st.heap.length < ({ st with heap := st.heap ++ [path] } : Paths).heap.length := by
    rw [List.length_append]
    exact Nat.lt_succ_self _
  refine ⟨⟨[path ++ xs], ?_⟩, List.replicate k st.heap.length, rfl, ?_, ?_⟩
  · unfold Paths.share Paths.extend
    dsimp only
    rw [modify_length]
  · intro r hr
    rw [(List.mem_replicate.mp hr).2, length_share]
    exact hlt
  · rw [List.map_replicate, get_share hlt, get_length]

mutual

/-- Down to the depth `hierarchy` the paths are those of the leaves. -/
theorem dfs_grows : ∀ (n : Node) (path depth : ℕ) (st : Paths), depth < hierarchy →
    path < st.heap.length →
    Grows st (dfs hierarchy n path depth st) (pathsBelow hierarchy n depth (st.get path))
  | .node a cs, path, depth, st, hdepth, hpath => by
      rw [dfs, pathsBelow, if_pos hdepth]
      split_ifs
      · exact (Grows.append hpath).trans (dfsChildren_grows cs path depth _ hdepth hpath)
      · exact dfsChildren_grows cs path depth st hdepth hpath

theorem dfsChildren_grows : ∀ (cs : List Node) (path depth : ℕ) (st : Paths), depth < hierarchy →
    path < st.heap.length → Grows st (dfsChildren hierarchy cs path depth st)
      (pathsOfChildren hierarchy cs depth (st.get path))
  | [], path, depth, st, _, _ => Grows.refl st
  | c :: cs, path, depth, st, hdepth, hpath => by
      have hchild : Grows st (dfs hierarchy c st.heap.length (depth + 1)
          { st with heap := st.heap ++ [st.get path ++ c.label.lines] })
          (pathsBelow hierarchy c (depth + 1) (st.get path ++ c.label.lines)) := by
        have hlt : st.heap.length <
            (st.heap ++ [st.get path ++ c.label.lines]).length := by
          rw [List.length_append]
          exact Nat.lt_succ_self _
        have hget := get_length st (st.get path ++ c.label.lines)
        by_cases hnext : depth + 1 < hierarchy
        · have hnew : Grows st { st with heap := st.heap ++ [st.get path ++ c.label.lines] } [] :=
            ⟨⟨_, rfl⟩, [], (List.append_nil _).symm, fun _ h => absurd h List.not_mem_nil, rfl⟩
          have hnode := dfs_grows c st.heap.length (depth + 1)
            { st with heap := st.heap ++ [st.get path ++ c.label.lines] } hnext hlt
          rw [hget] at hnode
          exact hnew.trans hnode
        · obtain ⟨a, ds⟩ := c
          rw [dfs_shared _ _ _ _ (by omega) hlt (by
            rw [hget]
            exact List.append_ne_nil_of_right_ne_nil _ (List.cons_ne_nil _ _)), pathsBelow,
            if_neg hnext]
          exact Grows.share _ _ _ _
      rw [dfsChildren, if_pos hdepth, if_pos hdepth, if_neg (Nat.ne_of_lt hdepth), extend_deepcopy,
        pathsOfChildren]
      have hrest := dfsChildren_grows cs path depth _ hdepth
        (Nat.lt_of_lt_of_le hpath hchild.length_le)
      rw [hchild.get hpath] at hrest
      exact hchild.trans hrest

end

end shared

/-! ### The stored paths -/

theorem linesOf_eq (c : Node) : linesOf c = c.label.lines ++ linesBelow c.children := by
  obtain ⟨a, ds⟩ := c
  rw [linesOf]
  rfl

section contents
variable {hierarchy : ℕ}

mutual

theorem entries_pos : ∀ (n : Node) (depth : ℕ), 1 ≤ entries hierarchy n depth
  | .node _ [], depth => by
      rw [entries, List.isEmpty_nil, if_pos rfl]
      exact Nat.le_add_right 1 _
  | .node _ (c :: cs), depth => by
      have hchild := entries_pos c (depth + 1)
      rw [entries, entriesBelow]
      omega

end

/-- At the depth `hierarchy` only a leaf stores its path once. -/
theorem entries_le_one_iff (n : Node) : entries hierarchy n hierarchy ≤ 1 ↔ n.height = 0 := by
  obtain ⟨a, cs⟩ := n
  cases cs with
  | nil => exact iff_of_true (Nat.le_refl 1) rfl
  | cons c cs =>
      have hchild := @entries_pos hierarchy c (hierarchy + 1)
      rw [entries, entriesBelow, if_pos rfl, height, heights]
      omega

mutual

/-- A stored path has the path of the node and some lines below it. -/
theorem pathsBelow_sublist : ∀ (n : Node) (depth : ℕ) (path q : List ℤ),
    q ∈ pathsBelow hierarchy n depth path → path <+: q ∧ q.Sublist (path ++ linesBelow n.children)
  | .node a cs, depth, path, q, hq => by
      rw [pathsBelow] at hq
      rw [children]
      split_ifs at hq with hdepth hleaf
      · rcases List.mem_append.mp hq with hq | hq
        · rw [List.mem_singleton.mp hq]
          exact ⟨List.prefix_refl path, List.sublist_append_left path _⟩
        · exact pathsOfChildren_sublist cs depth path q hq
      · exact pathsOfChildren_sublist cs depth path q hq
      · rw [(List.mem_replicate.mp hq).2]
        exact ⟨List.prefix_append path _, List.Sublist.refl _⟩

theorem pathsOfChildren_sublist : ∀ (cs : List Node) (depth : ℕ) (path q : List ℤ),
    q ∈ pathsOfChildren hierarchy cs depth path → path <+: q ∧ q.Sublist (path ++ linesBelow cs)
  | c :: cs, depth, path, q, hq => by
      rw [pathsOfChildren] at hq
      rw [linesBelow]
      rcases List.mem_append.mp hq with hq | hq
      · obtain ⟨hpre, hsub⟩ := pathsBelow_sublist c (depth + 1) (path ++ c.label.lines) q hq
        refine ⟨(List.prefix_append path _).trans hpre, hsub.trans ?_⟩
        rw [List.append_assoc, ← linesOf_eq]
        exact (List.sublist_append_left _ (linesBelow cs)).append_left path
      · obtain ⟨hpre, hsub⟩ := pathsOfChildren_sublist cs depth path q hq
        exact ⟨hpre, hsub.trans ((List.sublist_append_right (linesOf c) _).append_left path)⟩

end

/-- The paths of a child have its line. -/
theorem index_mem {c : Node} {depth : ℕ} {path q : List ℤ}
    (hq : q ∈ pathsBelow hierarchy c depth (path ++ c.label.lines)) : c.label.index ∈ q := by
  obtain ⟨hpre, -⟩ := pathsBelow_sublist c depth (path ++ c.label.lines) q hq
  exact hpre.mem (List.mem_append_right path List.mem_cons_self)

theorem pathsOfChildren_ne_nil {cs : List Node} {depth : ℕ} {path q : List ℤ}
    (hq : q ∈ pathsOfChildren hierarchy cs depth path) : q ≠ [] := by
  induction cs with
  | nil => exact absurd hq List.not_mem_nil
  | cons c cs ih =>
      rw [pathsOfChildren] at hq
      rcases List.mem_append.mp hq with hq | hq
      · exact List.ne_nil_of_mem (index_mem hq)
      · exact ih hq

mutual

/-- Every line of the path or below the node is in a stored path. -/
theorem pathsBelow_cover : ∀ (n : Node) (depth : ℕ) (path : List ℤ), path ≠ [] →
    ∀ i ∈ path ++ linesBelow n.children, ∃ q ∈ pathsBelow hierarchy n depth path, i ∈ q
  | .node a cs, depth, path, hne, i, hi => by
      rw [pathsBelow]
      rw [children] at hi
      by_cases hdepth : depth < hierarchy
      · rw [if_pos hdepth]
        cases cs with
        | nil =>
            rw [linesBelow, List.append_nil] at hi
            refine ⟨path, List.mem_append_left _ ?_, hi⟩
            rw [if_pos ⟨rfl, hne⟩]
            exact List.mem_cons_self
        | cons c cs =>
            obtain ⟨q, hq, hiq⟩ := pathsOfChildren_cover (c :: cs) depth path i (by
              rcases List.mem_append.mp hi with hi | hi
              · exact Or.inl ⟨hi, List.cons_ne_nil c cs⟩
              · exact Or.inr hi)
            exact ⟨q, List.mem_append_right _ hq, hiq⟩
      · rw [if_neg hdepth]
        refine ⟨path ++ linesBelow cs, List.mem_replicate.mpr ⟨?_, rfl⟩, hi⟩
        have hpos := @entries_pos hierarchy (.node a cs) depth
        omega

theorem pathsOfChildren_cover : ∀ (cs : List Node) (depth : ℕ) (path : List ℤ) (i : ℤ),
    (i ∈ path ∧ cs ≠ []) ∨ i ∈ linesBelow cs →
    ∃ q ∈ pathsOfChildren hierarchy cs depth path, i ∈ q
  | [], _, _, _, hi => by
      rcases hi with hi | hi
      · exact absurd rfl hi.2
      · exact absurd hi List.not_mem_nil
  | c :: cs, depth, path, i, hi => by
      rw [pathsOfChildren]
      rw [linesBelow, linesOf_eq, List.mem_append] at hi
      have hchild := pathsBelow_cover c (depth + 1) (path ++ c.label.lines)
        (List.append_ne_nil_of_right_ne_nil _ (List.cons_ne_nil _ _)) i
      rw [List.append_assoc, List.mem_append] at hchild
      rcases hi with hi | hi | hi
      · obtain ⟨q, hq, hiq⟩ := hchild (Or.inl hi.1)
        exact ⟨q, List.mem_append_left _ hq, hiq⟩
      · obtain ⟨q, hq, hiq⟩ := hchild (Or.inr hi)
        exact ⟨q, List.mem_append_left _ hq, hiq⟩
      · obtain ⟨q, hq, hiq⟩ := pathsOfChildren_cover cs depth path i (Or.inr hi)
        exact ⟨q, List.mem_append_right _ hq, hiq⟩

end

mutual

/-- The stored paths differ exactly if no node is deeper than `hierarchy`. -/
theorem pathsBelow_nodup : ∀ (n : Node) (depth : ℕ) (path : List ℤ), depth ≤ hierarchy →
    path ≠ [] → (path ++ linesBelow n.children).Nodup →
    ((pathsBelow hierarchy n depth path).Nodup ↔ depth + n.height ≤ hierarchy)
  | .node a cs, depth, path, hdepth, hne, hlines => by
      rw [pathsBelow]
      rw [children] at hlines
      by_cases hlt : depth < hierarchy
      · rw [if_pos hlt]
        cases cs with
        | nil =>
            rw [if_pos ⟨rfl, hne⟩, pathsOfChildren, List.append_nil]
            exact iff_of_true (List.nodup_singleton path) hdepth
        | cons c cs =>
            have hstore : (c :: cs).isEmpty = false := rfl
            rw [hstore, if_neg (fun h => Bool.false_ne_true h.1), List.nil_append, height]
            exact pathsOfChildren_nodup (c :: cs) depth path hlt hlines
      · obtain rfl : depth = hierarchy := by omega
        have hiff := @entries_le_one_iff depth (.node a cs)
        rw [if_neg hlt, List.nodup_replicate, hiff]
        omega

theorem pathsOfChildren_nodup : ∀ (cs : List Node) (depth : ℕ) (path : List ℤ),
    depth < hierarchy → (path ++ linesBelow cs).Nodup →
    ((pathsOfChildren hierarchy cs depth path).Nodup ↔ depth + heights cs ≤ hierarchy)
  | [], depth, path, hdepth, _ => iff_of_true List.nodup_nil hdepth.le
  | c :: cs, depth, path, hdepth, hlines => by
      rw [linesBelow] at hlines
      have hchild := pathsBelow_nodup c (depth + 1) (path ++ c.label.lines) hdepth
        (List.append_ne_nil_of_right_ne_nil _ (List.cons_ne_nil _ _)) (by
          rw [List.append_assoc, ← linesOf_eq]
          exact hlines.sublist ((List.sublist_append_left _ _).append_left path))
      have hrest := pathsOfChildren_nodup cs depth path hdepth
        (hlines.sublist ((List.sublist_append_right _ _).append_left path))
      have hdisjoint : List.Disjoint (pathsBelow hierarchy c (depth + 1) (path ++ c.label.lines))
          (pathsOfChildren hierarchy cs depth path) := by
        intro q hq hq'
        have hmem := (pathsOfChildren_sublist cs depth path q hq').2.subset (index_mem hq)
        rw [linesOf_eq] at hlines
        have hnot : c.label.index ∉ path ++ linesBelow cs := by
          have hperm := List.perm_middle.nodup_iff.mp (show (path ++ c.label.index ::
            (c.label.texts ++ linesBelow c.children ++ linesBelow cs)).Nodup from hlines)
          intro h
          refine (List.nodup_cons.mp hperm).1 (List.mem_append.mpr ?_)
          rcases List.mem_append.mp h with h | h
          · exact Or.inl h
          · exact Or.inr (List.mem_append_right _ h)
        exact hnot hmem
      rw [pathsOfChildren, List.nodup_append', hchild, hrest, and_iff_left hdisjoint, heights]
      omega

end

end contents

/-! ### The lines of the tree -/

mutual

theorem linesOf_preorder : ∀ n : Node, linesOf n = n.preorder.flatMap Label.lines
  | .node a cs => by rw [linesOf, preorder, List.flatMap_cons, linesBelow_preorders cs]

theorem linesBelow_preorders : ∀ cs : List Node,
    linesBelow cs = (preorders cs).flatMap Label.lines
  | [] => rfl
  | c :: cs => by
      rw [linesBelow, preorders, List.flatMap_append, linesOf_preorder c, linesBelow_preorders cs]

end

/-- A line comes after all others. -/
theorem linesOf_addLine (levels : ℕ) (t : Node) (m i : ℕ) :
    linesOf (addLine levels t (m, i)) = linesOf t ++ [(i : ℤ)] := by
  have hheading : ∀ stop, linesOf (attach stop (headingLabel m i) t) = linesOf t ++ [(i : ℤ)] := by
    intro stop
    rw [linesOf_preorder, linesOf_preorder, preorder_attach, List.flatMap_append]
    rfl
  unfold addLine
  dsimp only
  split_ifs
  · have hpush : attach (fun _ => true) (headingLabel m i) t = push (headingLabel m i) t :=
      attach_of_stop rfl
    rw [← hpush, hheading]
  · obtain ⟨l, b, ht, hr⟩ := preorder_relabel (appendText i) t
    rw [linesOf_preorder, linesOf_preorder, ht, hr, List.flatMap_append, List.flatMap_append,
      List.append_assoc]
    congr 1
    simp [Label.lines, appendText]
  · exact hheading _

/-- The tree has every line once, in order, after that of the root. -/
theorem linesOf_buildTree (levels : ℕ) (ms : List ℕ) :
    linesOf (buildTree levels ms) = -1 :: (List.range ms.length).map Int.ofNat := by
  suffices h : ∀ xs : List (ℕ × ℕ), linesOf (xs.foldl (addLine levels) root) =
      -1 :: (xs.map Prod.snd).map Int.ofNat by
    have hrange := h ms.zipIdx
    rwa [List.zipIdx_map_snd, ← List.range_eq_range'] at hrange
  intro xs
  induction xs using List.reverseRecOn with
  | nil => rfl
  | append_singleton xs x ih =>
      obtain ⟨m, i⟩ := x
      rw [List.foldl_append, List.foldl_cons, List.foldl_nil, linesOf_addLine, ih, List.map_append,
        List.map_append]
      rfl

/-! ### Covering -/

theorem allPathes_eq {hierarchy : ℕ} (h : 1 ≤ hierarchy) (t : Node) :
    allPathes hierarchy t = (if t.label.texts ≠ [] then [t.label.texts] else []) ++
      pathsOfChildren hierarchy t.children 0 [] := by
  obtain ⟨refs, hall, -, hout⟩ :=
    (@dfs_grows hierarchy t 0 0 ⟨[[]], []⟩ h Nat.zero_lt_one).stored
  unfold allPathes
  dsimp only
  rw [hall, List.nil_append, hout]
  obtain ⟨a, cs⟩ := t
  have hroot : ¬ (cs.isEmpty = true ∧ (⟨[[]], []⟩ : Paths).get 0 ≠ []) := fun hne => hne.2 rfl
  rw [pathsBelow, if_pos (show 0 < hierarchy from h), if_neg hroot, List.nil_append]
  rfl

/-- The chunks are increasing and have every line, and no two are the same. -/
structure Covers (lines : ℕ) (chunks : List (List ℤ)) : Prop where
  increasing : ∀ c ∈ chunks, c.Pairwise (· < ·)
  covered : ∀ i : ℕ, i < lines → ∃ c ∈ chunks, (i : ℤ) ∈ c
  distinct : chunks.Nodup

theorem pairwise_range (n : ℕ) : ((List.range n).map Int.ofNat).Pairwise (· < ·) :=
  List.pairwise_map.mpr (List.pairwise_lt_range.imp (fun h => Int.ofNat_lt.mpr h))

theorem covers_iff_height {hierarchy n : ℕ} (h : 1 ≤ hierarchy) {t : Node}
    (hlines : t.label.texts ++ linesBelow t.children = (List.range n).map Int.ofNat) :
    Covers n (allPathes hierarchy t) ↔ t.height ≤ hierarchy := by
  obtain ⟨a, cs⟩ := t
  rw [allPathes_eq h]
  rw [label, children] at hlines
  rw [label, children, height]
  have hordered : (a.texts ++ linesBelow cs).Pairwise (· < ·) := hlines ▸ pairwise_range n
  have hbelow : (linesBelow cs).Pairwise (· < ·) :=
    hordered.sublist (List.sublist_append_right a.texts _)
  have hnodup := @pathsOfChildren_nodup hierarchy cs 0 [] h (hbelow.imp (fun hlt => hlt.ne))
  have hdisjoint : List.Disjoint (if a.texts ≠ [] then [a.texts] else [])
      (pathsOfChildren hierarchy cs 0 []) := by
    intro q hq hq'
    split_ifs at hq with hne
    · rw [List.mem_singleton.mp hq] at hq'
      obtain ⟨i, hi⟩ := List.exists_mem_of_ne_nil _ hne
      have hdisj := List.disjoint_of_nodup_append (hordered.imp (fun hlt => hlt.ne))
      exact hdisj hi ((pathsOfChildren_sublist cs 0 [] _ hq').2.subset hi)
    · exact absurd hq List.not_mem_nil
  constructor
  · intro hc
    have hdistinct := (List.nodup_append'.mp hc.distinct).2.1
    rw [hnodup, Nat.zero_add] at hdistinct
    exact hdistinct
  · intro hheight
    refine ⟨?_, ?_, ?_⟩
    · intro c hc
      rcases List.mem_append.mp hc with hc | hc
      · split_ifs at hc
        · rw [List.mem_singleton.mp hc]
          exact hordered.sublist (List.sublist_append_left _ _)
        · exact absurd hc List.not_mem_nil
      · exact hbelow.sublist (pathsOfChildren_sublist cs 0 [] c hc).2
    · intro i hi
      have hmem : (i : ℤ) ∈ a.texts ++ linesBelow cs := by
        rw [hlines]
        exact List.mem_map_of_mem (List.mem_range.mpr hi)
      rcases List.mem_append.mp hmem with hmem | hmem
      · refine ⟨a.texts, List.mem_append_left _ ?_, hmem⟩
        rw [if_pos (List.ne_nil_of_mem hmem)]
        exact List.mem_cons_self
      · obtain ⟨q, hq, hiq⟩ := @pathsOfChildren_cover hierarchy cs 0 [] i (Or.inr hmem)
        exact ⟨q, List.mem_append_right _ hq, hiq⟩
    · refine List.nodup_append'.mpr ⟨?_, hnodup.mpr (by omega), hdisjoint⟩
      split_ifs
      · exact List.nodup_singleton _
      · exact List.nodup_nil

section covering
variable {P : Type} {hierarchy : ℕ}

/-- **Covering.**  The chunks are increasing and have every line; no two are the same exactly if no
heading is deeper than `hierarchy`. -/
theorem covers_iff (h : 1 ≤ hierarchy) (search : P → Str → Bool) (levels : List (List P))
    (lines : List Str) :
    Covers lines.length (chunkLines search levels hierarchy lines) ↔
      ∀ pre, pre <+: headings levels.length (matchLevels search levels lines) →
        (openPath Heading.level rootHeading pre).length ≤ hierarchy + 1 := by
  have hlines := linesOf_buildTree levels.length (matchLevels search levels lines)
  have hlength : (matchLevels search levels lines).length = lines.length := List.length_map _
  rw [linesOf_eq, hlength] at hlines
  unfold chunkLines
  rw [covers_iff_height h (List.cons.inj hlines).2, ← height_outlineTree_le_iff, ← map_buildTree,
    height_map]

/-- The headings of two levels with a line of text each, and the hierarchy 2. -/
theorem covers_title : Covers 4 (chunkLines List.isPrefixOf [["# ".toList], ["## ".toList]] 2
    ["# A".toList, "a".toList, "## B".toList, "b".toList]) := by
  refine (covers_iff (by decide) List.isPrefixOf [["# ".toList], ["## ".toList]]
    ["# A".toList, "a".toList, "## B".toList, "b".toList]).mpr fun pre hpre => ?_
  rw [← List.mem_inits] at hpre
  revert pre
  decide

/-- A heading under a heading, and the hierarchy 1: their chunk comes twice. -/
theorem not_covers_nested : ¬ Covers 2 (chunkLines List.isPrefixOf [["# ".toList], ["## ".toList]] 1
    ["# A".toList, "## B".toList]) := by
  intro h
  exact absurd h.distinct (by decide)

/-- No chunk is empty, so that none is dropped. -/
theorem textChunks_eq (h : 1 ≤ hierarchy) (search : P → Str → Bool) (levels : List (List P))
    (payload : Str) : textChunks search levels hierarchy payload =
      (chunkLines search levels hierarchy (payloadLines payload)).map
        (chunkText (payloadLines payload)) := by
  unfold textChunks chunkLines
  dsimp only
  rw [List.filter_eq_self, List.forall_mem_map]
  intro q hq
  have hne : q ≠ [] := by
    rw [allPathes_eq h] at hq
    rcases List.mem_append.mp hq with hq | hq
    · split_ifs at hq with htexts
      · rwa [List.mem_singleton.mp hq]
      · exact absurd hq List.not_mem_nil
    · exact pathsOfChildren_ne_nil hq
  obtain ⟨i, q, rfl⟩ := List.exists_cons_of_ne_nil hne
  rw [chunkText, List.flatMap_cons]
  simp

end covering

end RagFlow.Merger
