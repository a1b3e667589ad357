import Mathlib.Data.List.Dedup
import Mathlib.Data.List.Flatten
import Mathlib.Data.List.Sort
import Mathlib.Tactic.SplitIfs
import RagFlow.Headings
import RagFlow.Outline
import RagFlow.Table

/-! # Merging sections along a tree of headings

`tree_merge` of `rag/nlp/__init__.py`, with `Node`, builds a tree from the levels of the lines and
makes a chunk for each path to a leaf.

* **The tree.** A node on the stack of `build_tree` is a `Frame`: it becomes a child of the one
  below when it leaves the stack.  So the frames that remain at the end make up the tree.
* **Chunks.** `_dfs` goes through the tree; the run of `build_tree` is followed by the walk through
  the outline of the headings, and the chunks are its paths with the lines under each heading
  (`Shows.run`, `getTree_buildTree`).
* **Result.** `treeMerge_structure`: every line is in a chunk, a chunk has the lines of a path in
  their order, and the chunks end in the order of the lines. -/

namespace RagFlow.Nlp.Headings

open Py

/-! ### `Node` -/

inductive Node where
  | mk (level : ℕ) (texts : List Str) (children : List Node)

def joinLines (texts : List Str) : Str := ['\n'].intercalate texts

mutual

/-- `_dfs` at a node; `depth` is the depth of the root. -/
def dfs (depth : ℕ) (titles : List Str) : Node → List Str
  | .mk level texts children =>
      let pathTitles := if 1 ≤ level ∧ level ≤ depth then titles ++ texts else titles
      (if level = 0 ∧ texts ≠ [] then [joinLines (titles ++ texts)] else []) ++
        ((if depth < level ∧ texts ≠ [] then [joinLines (pathTitles ++ texts)]
          else if children.isEmpty ∧ 1 ≤ level ∧ level ≤ depth then [joinLines pathTitles]
          else []) ++
        dfsChildren depth pathTitles children)

def dfsChildren (depth : ℕ) (titles : List Str) : List Node → List Str
  | [] => []
  | c :: cs => dfs depth titles c ++ dfsChildren depth titles cs

end

def getTree (depth : ℕ) (root : Node) : List Str := dfs depth [] root

/-- A node on the stack, without the child that is on the stack too. -/
structure Frame where
  level : ℕ
  texts : List Str
  children : List Node

namespace Frame

def close (f : Frame) : Node := .mk f.level f.texts f.children

def addText (f : Frame) (text : Str) : Frame := { f with texts := f.texts ++ [text] }

def addChild (f : Frame) (node : Node) : Frame := { f with children := f.children ++ [node] }

end Frame

/-- The stack of `build_tree`; the root is at the bottom. -/
structure Stack where
  top : Frame
  below : List Frame

/-- `Move up until we find the proper parent whose level is strictly smaller than current`. -/
def moveUp (level : ℕ) : Frame → List Frame → Stack
  | f, [] => ⟨f, []⟩
  | f, g :: below =>
      if level ≤ f.level then moveUp level (g.addChild f.close) below else ⟨f, g :: below⟩

/-- The tree of the frames of a stack. -/
def closeAll : Frame → List Frame → Node
  | f, [] => f.close
  | f, g :: below => closeAll (g.addChild f.close) below

/-- A line in the loop of `build_tree`; `tree_merge` gives the root a depth, so it is not -1. -/
def addLine (depth : ℕ) (stack : Stack) (line : ℕ × Str) : Stack :=
  if depth < line.1 then { stack with top := stack.top.addText line.2 }
  else
    let parents := moveUp line.1 stack.top stack.below
    ⟨⟨line.1, [line.2], []⟩, parents.top :: parents.below⟩

def buildTree (depth : ℕ) (lines : List (ℕ × Str)) : Node :=
  let stack := lines.foldl (addLine depth) ⟨⟨0, [], []⟩, []⟩
  closeAll stack.top stack.below

/-! ### `tree_merge` -/

/-- `s.strip("\n")`. -/
def stripNewlines (s : Str) : Str :=
  ((s.dropWhile (· = '\n')).reverse.dropWhile (· = '\n')).reverse

/-- The text of a section, stripped. -/
def lineText (t : Str) : Str := strip (t.map fun c => if c = '\u3000' then ' ' else c)

/-- `get_level`. -/
def getLevel (bull : ℤ) (s : Str × Str) : Except Err (ℕ × Str) := do
  let text := lineText s.1
  let patterns ← item bulletPattern bull
  return (sectionLevel patterns (strip text) text s.2 + 1, text)

/-- The lines with their levels; those without text are left out. -/
def treeLines (bull : ℤ) (sections : Sections) : Except Err (List (ℕ × Str)) := do
  let lines ← (kept sections).mapM (getLevel bull)
  return lines.filter fun line => !(stripNewlines line.2).isEmpty

/-- The level down to which the lines are headings. -/
def targetLevel (bull : ℤ) (sortedLevels : List ℕ) (depth : ℤ) : Except Err ℕ := do
  let targetLevel ← item sortedLevels (if depth ≤ sortedLevels.length then depth - 1 else -1)
  let patterns ← item bulletPattern bull
  if targetLevel = patterns.length + 2 then
    item sortedLevels (if 1 < sortedLevels.length then -2 else 0)
  else return targetLevel

/-- What `tree_merge` returns: the sections as they are, or chunks. -/
inductive Merged where
  | sections (s : Sections)
  | chunks (cs : List Str)

def sortedLevels (lines : List (ℕ × Str)) : List ℕ :=
  (lines.map Prod.fst).dedup.insertionSort (· ≤ ·)

def treeMerge (bull : ℤ) (sections : Sections) (depth : ℤ) : Except Err Merged :=
  if sections.isEmpty ∨ bull < 0 then return .sections sections
  else do
    let lines ← treeLines bull sections
    let target ← targetLevel bull (sortedLevels lines) depth
    let root := buildTree target lines
    return .chunks ((getTree target root).filter fun element => !element.isEmpty)

/-! ### The chunks of a stack -/

section stack

variable (depth : ℕ)

/-- The texts of the open nodes, without those of the root. -/
def openTitles : List Frame → List Str
  | [] => []
  | f :: below =>
      if 1 ≤ f.level ∧ f.level ≤ depth then openTitles below ++ f.texts else openTitles below

/-- The chunks of what is not on the stack any more, and that of the root. -/
def finished : List Frame → List Str
  | [] => []
  | f :: below =>
      finished below ++
        ((if f.level = 0 ∧ f.texts ≠ [] then [joinLines (openTitles depth below ++ f.texts)]
          else []) ++
        dfsChildren depth (openTitles depth (f :: below)) f.children)

variable {depth}

theorem addChild_children_ne_nil (f : Frame) (node : Node) : (f.addChild node).children ≠ [] :=
  List.append_ne_nil_of_right_ne_nil _ (List.cons_ne_nil _ _)

theorem dfsChildren_snoc (titles : List Str) (cs : List Node) (c : Node) :
    dfsChildren depth titles (cs ++ [c]) = dfsChildren depth titles cs ++ dfs depth titles c := by
  induction cs with
  | nil =>
      simp only [List.nil_append, dfsChildren, List.append_nil]
  | cons a cs ih =>
      simp only [List.cons_append, dfsChildren, ih, List.append_assoc]

/-- What an open node adds when it is closed. -/
theorem finished_addChild (f g : Frame) (below : List Frame) :
    finished depth (g.addChild f.close :: below) =
      finished depth (g :: below) ++ dfs depth (openTitles depth (g :: below)) f.close := by
  have htitles : openTitles depth (g.addChild f.close :: below) =
      openTitles depth (g :: below) := rfl
  unfold finished
  rw [htitles]
  simp only [Frame.addChild, dfsChildren_snoc, List.append_assoc]
  rfl

/-- A node with children is closed. -/
theorem dfs_close {f : Frame} {below : List Frame} (hdepth : f.level ≤ depth)
    (hchildren : f.children ≠ []) :
    finished depth below ++ dfs depth (openTitles depth below) f.close =
      finished depth (f :: below) := by
  have hempty : f.children.isEmpty = false := by rwa [List.isEmpty_eq_false_iff]
  unfold Frame.close
  rw [dfs, finished, openTitles]
  simp [hempty, not_lt.mpr hdepth]

/-- A leaf is closed. -/
theorem dfs_leaf {f : Frame} {below : List Frame} (hlevel : 1 ≤ f.level) (hdepth : f.level ≤ depth)
    (hchildren : f.children = []) :
    finished depth below ++ dfs depth (openTitles depth below) f.close =
      finished depth (f :: below) ++ [joinLines (openTitles depth (f :: below))] := by
  have hzero : f.level ≠ 0 := Nat.one_le_iff_ne_zero.mp hlevel
  unfold Frame.close
  rw [dfs, finished, openTitles]
  simp [hchildren, not_lt.mpr hdepth, hzero, hlevel, hdepth, dfsChildren]

/-- The chunks of the tree of a stack. -/
theorem dfs_closeAll (f : Frame) (below : List Frame) (hdepth : ∀ g ∈ below, g.level ≤ depth) :
    dfs depth [] (closeAll f below) =
      finished depth below ++ dfs depth (openTitles depth below) f.close := by
  induction below generalizing f with
  | nil => rfl
  | cons g below ih =>
      obtain ⟨hg, hbelow⟩ := List.forall_mem_cons.mp hdepth
      have hclose := @dfs_close depth (g.addChild f.close) below hg
        (addChild_children_ne_nil g f.close)
      rw [closeAll, ih _ hbelow, hclose, finished_addChild]

/-- The frames of a stack. -/
def Stack.frames (s : Stack) : List Frame := s.top :: s.below

/-- Nodes with children leave the stack without a trace. -/
theorem finished_moveUp_of_children (level : ℕ) (f : Frame) (below : List Frame)
    (hdepth : ∀ g ∈ f :: below, g.level ≤ depth) (hchildren : f.children ≠ []) :
    finished depth (moveUp level f below).frames = finished depth (f :: below) := by
  induction below generalizing f with
  | nil => rfl
  | cons g below ih =>
      obtain ⟨hf, hbelow⟩ := List.forall_mem_cons.mp hdepth
      rw [moveUp]
      split_ifs with hlevel
      · obtain ⟨hg, hbelow⟩ := List.forall_mem_cons.mp hbelow
        rw [ih (g.addChild f.close) (List.forall_mem_cons.mpr ⟨hg, hbelow⟩)
          (addChild_children_ne_nil g f.close), finished_addChild, dfs_close hf hchildren]
      · rfl

/-- A leaf on top of the stack adds its path when it leaves the stack. -/
theorem finished_moveUp (level : ℕ) (f g : Frame) (below : List Frame) (hf : 1 ≤ f.level)
    (hdepth : ∀ g' ∈ f :: g :: below, g'.level ≤ depth) (hchildren : f.children = []) :
    finished depth (moveUp level f (g :: below)).frames = finished depth (f :: g :: below) ++
      (if level ≤ f.level then [joinLines (openTitles depth (f :: g :: below))] else []) := by
  obtain ⟨hf', hbelow⟩ := List.forall_mem_cons.mp hdepth
  rw [moveUp]
  split_ifs with hlevel
  · obtain ⟨hg, hbelow⟩ := List.forall_mem_cons.mp hbelow
    rw [finished_moveUp_of_children level (g.addChild f.close) below
      (List.forall_mem_cons.mpr ⟨hg, hbelow⟩) (addChild_children_ne_nil g f.close),
      finished_addChild, dfs_leaf hf hf' hchildren]
  · rw [List.append_nil]
    rfl

end stack

/-! ### The run of `build_tree` -/

section run

variable (depth : ℕ) (lev : ℕ → ℕ) (txt : ℕ → Str)

/-- The heading `h` and the lines after it up to the next heading. -/
def under (is : List ℕ) (h : ℕ) : List ℕ :=
  h :: (is.filter (h < ·)).takeWhile (depth < lev ·)

/-- The lines before the first heading. -/
def preamble (is : List ℕ) : List ℕ := is.takeWhile (depth < lev ·)

def headings (is : List ℕ) : List ℕ := is.filter (lev · ≤ depth)

/-- The lines of a path, which is given from the inside out. -/
def pathLines (is path : List ℕ) : List ℕ := path.reverse.flatMap (under depth lev is)

/-- The lines of each chunk: those before the first heading, and those of each path. -/
def parts (is : List ℕ) : List (List ℕ) :=
  (if preamble depth lev is = [] then [] else [preamble depth lev is]) ++
    (Outline.walk lev (headings depth lev is)).paths.map (pathLines depth lev is)

variable {depth lev}

theorem lines_eq {is : List ℕ} (his : is.Pairwise (· < ·)) :
    preamble depth lev is ++ (headings depth lev is).flatMap (under depth lev is) = is := by
  induction is with
  | nil => rfl
  | cons x is ih =>
      obtain ⟨hx, his'⟩ := List.pairwise_cons.mp his
      have hunder : (headings depth lev is).flatMap (under depth lev (x :: is)) =
          (headings depth lev is).flatMap (under depth lev is) := by
        refine List.flatMap_congr fun h hh => ?_
        have hlt : ¬h < x := (hx h (List.mem_filter.mp hh).1).not_gt
        unfold under
        rw [List.filter_cons, if_neg (by rwa [decide_eq_true_iff])]
      have hih := ih his'
      unfold preamble headings at hih hunder ⊢
      by_cases hlev : lev x ≤ depth
      · have hself : under depth lev (x :: is) x = x :: is.takeWhile (depth < lev ·) := by
          unfold under
          rw [List.filter_cons, if_neg (by simp), List.filter_eq_self.mpr]
          intro y hy
          exact decide_eq_true (hx y hy)
        rw [List.takeWhile_cons, if_neg (by simpa using hlev), List.filter_cons,
          if_pos (decide_eq_true hlev), List.flatMap_cons, hself, hunder]
        exact congrArg (x :: ·) hih
      · rw [List.takeWhile_cons, if_pos (by simpa using hlev), List.filter_cons,
          if_neg (by simpa using hlev), hunder]
        exact congrArg (x :: ·) hih

variable (depth lev)

/-- What a frame shows: its level and its texts. -/
def Frame.data (f : Frame) : ℕ × List Str := (f.level, f.texts)

/-- What the frame of the heading `h` shows. -/
def headingData (is : List ℕ) (h : ℕ) : ℕ × List Str := (lev h, (under depth lev is h).map txt)

/-- What the frames of a path show, with that of the root. -/
def pathData (is path : List ℕ) : List (ℕ × List Str) :=
  path.map (headingData depth lev txt is) ++ [(0, (preamble depth lev is).map txt)]

/-- The chunk of the lines `part`. -/
def chunkOf (part : List ℕ) : Str := joinLines (part.map txt)

/-- The stack shows the open path of the walk, and what is finished the complete ones. -/
structure Shows (is : List ℕ) (s : Stack) (w : Outline.Walk ℕ) : Prop where
  path : s.frames.map Frame.data = pathData depth lev txt is w.path
  leaf : s.top.children = []
  levels : ∀ h ∈ w.path, 1 ≤ lev h ∧ lev h ≤ depth
  done : finished depth s.frames =
    (if preamble depth lev is = [] then [] else [chunkOf txt (preamble depth lev is)]) ++
      w.done.map fun p => chunkOf txt (pathLines depth lev is p)

variable {depth lev txt}

theorem openTitles_eq {is path : List ℕ} {frames : List Frame}
    (hpath : frames.map Frame.data = pathData depth lev txt is path)
    (hlevels : ∀ h ∈ path, 1 ≤ lev h ∧ lev h ≤ depth) :
    openTitles depth frames = (pathLines depth lev is path).map txt := by
  induction path generalizing frames with
  | nil =>
      obtain ⟨f, rfl, hf⟩ := List.map_eq_singleton_iff.mp hpath
      have hlevel : f.level = 0 := congrArg Prod.fst hf
      rw [openTitles, if_neg (by omega)]
      rfl
  | cons c path ih =>
      obtain ⟨f, below, rfl, hf, hbelow⟩ := List.map_eq_cons_iff.mp hpath
      obtain ⟨hc, hpath'⟩ := List.forall_mem_cons.mp hlevels
      have hlevel : f.level = lev c := congrArg Prod.fst hf
      have htexts : f.texts = (under depth lev is c).map txt := congrArg Prod.snd hf
      rw [openTitles, hlevel, if_pos hc, ih hbelow hpath', htexts]
      unfold pathLines
      rw [List.reverse_cons, List.flatMap_append, List.flatMap_singleton, List.map_append]

theorem level_le_of_path {is path : List ℕ} {frames : List Frame}
    (hpath : frames.map Frame.data = pathData depth lev txt is path)
    (hlevels : ∀ h ∈ path, 1 ≤ lev h ∧ lev h ≤ depth) : ∀ g ∈ frames, g.level ≤ depth := by
  intro g hg
  have hmem : g.data ∈ pathData depth lev txt is path := hpath ▸ List.mem_map_of_mem hg
  rcases List.mem_append.mp hmem with hmem | hmem
  · obtain ⟨h, hh, heq⟩ := List.mem_map.mp hmem
    have hlevel : lev h = g.level := congrArg Prod.fst heq
    exact hlevel ▸ (hlevels h hh).2
  · have hlevel : g.level = 0 := congrArg Prod.fst (List.mem_singleton.mp hmem)
    omega

theorem moveUp_frames {is path : List ℕ} {f : Frame} {below : List Frame} (level : ℕ)
    (hpath : (f :: below).map Frame.data = pathData depth lev txt is path) :
    (moveUp level f below).frames.map Frame.data =
      pathData depth lev txt is (path.dropWhile fun h => level ≤ lev h) := by
  induction below generalizing f path with
  | nil =>
      cases path with
      | nil => exact hpath
      | cons c path => simp [pathData] at hpath
  | cons g below ih =>
      cases path with
      | nil => simp [pathData] at hpath
      | cons c path =>
          obtain ⟨hf, hbelow⟩ := List.cons.inj hpath
          have hlevel : f.level = lev c := congrArg Prod.fst hf
          rw [moveUp, hlevel, List.dropWhile_cons]
          by_cases hc : level ≤ lev c
          · rw [if_pos hc, if_pos (decide_eq_true hc)]
            exact ih hbelow
          · rw [if_neg hc, if_neg (by rwa [decide_eq_true_iff])]
            exact hpath

/-- Body lines go to the node on top of the stack. -/
theorem foldl_bodies {is : List ℕ} (s : Stack) (his : ∀ i ∈ is, depth < lev i) :
    (is.map fun i => (lev i, txt i)).foldl (addLine depth) s =
      { s with top := { s.top with texts := s.top.texts ++ is.map txt } } := by
  induction is generalizing s with
  | nil => simp
  | cons i is ih =>
      obtain ⟨hi, his'⟩ := List.forall_mem_cons.mp his
      rw [List.map_cons, List.foldl_cons, ih _ his', addLine, if_pos hi]
      simp [Frame.addText]

/-- A heading with the lines under it. -/
theorem foldl_under {is : List ℕ} {h : ℕ} (s : Stack) (hh : lev h ≤ depth) :
    ((under depth lev is h).map fun i => (lev i, txt i)).foldl (addLine depth) s =
      ⟨⟨lev h, (under depth lev is h).map txt, []⟩, (moveUp (lev h) s.top s.below).frames⟩ := by
  unfold under
  rw [List.map_cons, List.foldl_cons, foldl_bodies, addLine, if_neg (not_lt.mpr hh)]
  · rfl
  · intro i hi
    have hbody := List.mem_takeWhile_imp hi
    exact of_decide_eq_true hbody

/-- A step of the run. -/
theorem Shows.heading {is : List ℕ} {s : Stack} {w : Outline.Walk ℕ}
    (hs : Shows depth lev txt is s w) {h : ℕ} (hlevel : 1 ≤ lev h) (hdepth : lev h ≤ depth) :
    Shows depth lev txt is (((under depth lev is h).map fun i => (lev i, txt i)).foldl
      (addLine depth) s) (w.enter lev h) := by
  have hzero : lev h ≠ 0 := Nat.one_le_iff_ne_zero.mp hlevel
  have hframes := moveUp_frames (lev h) hs.path
  have hle := level_le_of_path hs.path hs.levels
  rw [foldl_under s hdepth]
  refine ⟨?_, rfl, ?_, ?_⟩
  · rw [Stack.frames, List.map_cons, hframes]
    rfl
  · refine List.forall_mem_cons.mpr ⟨⟨hlevel, hdepth⟩, fun c hc => hs.levels c ?_⟩
    exact (List.dropWhile_sublist _).subset hc
  · have hnew : finished depth (Stack.frames ⟨⟨lev h, (under depth lev is h).map txt, []⟩,
        (moveUp (lev h) s.top s.below).frames⟩) =
        finished depth (moveUp (lev h) s.top s.below).frames := by
      rw [Stack.frames, finished]
      simp [hzero, dfsChildren]
    rw [hnew]
    have hpath := hs.path
    have hdone := hs.done
    unfold Outline.Walk.enter
    cases hw : w.path with
    | nil =>
        rw [hw] at hpath
        obtain ⟨f, hf, -⟩ := List.map_eq_singleton_iff.mp hpath
        obtain ⟨rfl, hbelow⟩ := List.cons.inj hf
        rw [hbelow]
        rw [Stack.frames, hbelow] at hdone
        exact hdone
    | cons c outer =>
        rw [hw] at hpath
        obtain ⟨f, below, hf, hdata, hrest⟩ := List.map_eq_cons_iff.mp hpath
        obtain ⟨rfl, rfl⟩ := List.cons.inj hf
        obtain ⟨g, below, hbelow⟩ : ∃ g below, s.below = g :: below :=
          List.exists_cons_of_ne_nil fun hnil => by simp [hnil] at hrest
        have htop : s.top.level = lev c := congrArg Prod.fst hdata
        have hc : 1 ≤ s.top.level := htop ▸ (hs.levels c (hw ▸ List.mem_cons_self)).1
        have hopen := openTitles_eq hpath (hw ▸ hs.levels)
        rw [Stack.frames, hbelow] at hdone hle hopen
        rw [hbelow, finished_moveUp (lev h) _ _ _ hc hle hs.leaf, hdone, hopen, htop]
        dsimp only
        by_cases hlt : lev h ≤ lev c
        · rw [if_pos hlt, if_pos hlt, List.map_append, List.append_assoc]
          rfl
        · rw [if_neg hlt, if_neg hlt, List.append_nil]

theorem Shows.run {is hs : List ℕ} {s : Stack} {w : Outline.Walk ℕ}
    (h : Shows depth lev txt is s w) (hhs : ∀ h ∈ hs, 1 ≤ lev h ∧ lev h ≤ depth) :
    Shows depth lev txt is (((hs.flatMap (under depth lev is)).map fun i => (lev i, txt i)).foldl
      (addLine depth) s) (hs.foldl (Outline.Walk.enter lev) w) := by
  induction hs generalizing s w with
  | nil => exact h
  | cons a hs ih =>
      obtain ⟨ha, hhs'⟩ := List.forall_mem_cons.mp hhs
      rw [List.flatMap_cons, List.map_append, List.foldl_append, List.foldl_cons]
      exact ih (h.heading ha.1 ha.2) hhs'

/-- The chunks of the tree of the stack. -/
theorem Shows.chunks {is : List ℕ} {s : Stack} {w : Outline.Walk ℕ}
    (h : Shows depth lev txt is s w) : getTree depth (closeAll s.top s.below) =
      ((if preamble depth lev is = [] then [] else [preamble depth lev is]) ++
        w.paths.map (pathLines depth lev is)).map (chunkOf txt) := by
  have hpath := h.path
  have hle := level_le_of_path hpath h.levels
  have hdone := h.done
  have hfirst : ((if preamble depth lev is = [] then [] else [preamble depth lev is]).map
      (chunkOf txt)) = if preamble depth lev is = [] then [] else
        [chunkOf txt (preamble depth lev is)] := by
    split_ifs <;> rfl
  rw [getTree, dfs_closeAll _ _ fun g hg => hle g (List.mem_cons_of_mem _ hg), List.map_append,
    hfirst, List.map_map]
  unfold Outline.Walk.paths
  rw [Stack.frames] at hpath hdone
  cases hw : w.path with
  | nil =>
      rw [hw] at hpath
      have hlevel : s.top.level = 0 := congrArg Prod.fst (List.cons.inj hpath).1
      have hroot : finished depth s.below ++ dfs depth (openTitles depth s.below) s.top.close =
          finished depth (s.top :: s.below) := by
        unfold Frame.close
        rw [dfs, finished, openTitles]
        simp [h.leaf, hlevel, dfsChildren]
      rw [hroot, hdone, if_pos rfl]
      rfl
  | cons c outer =>
      have hlevels := h.levels
      rw [hw] at hpath hlevels
      have hlevel : s.top.level = lev c := congrArg Prod.fst (List.cons.inj hpath).1
      obtain ⟨hc, hc'⟩ := hlevels c List.mem_cons_self
      have hopen := openTitles_eq hpath hlevels
      rw [dfs_leaf (hlevel ▸ hc) (hlevel ▸ hc') h.leaf, hdone, hopen,
        if_neg (List.cons_ne_nil _ _), List.map_append, List.append_assoc]
      rfl

/-- The chunks of the tree are those of the outline. -/
theorem getTree_buildTree {is : List ℕ} (his : is.Pairwise (· < ·)) (hlev : ∀ i ∈ is, 1 ≤ lev i) :
    getTree depth (buildTree depth (is.map fun i => (lev i, txt i))) =
      (parts depth lev is).map (chunkOf txt) := by
  have hbodies : ∀ i ∈ preamble depth lev is, depth < lev i := by
    intro i hi
    have hbody := List.mem_takeWhile_imp hi
    exact of_decide_eq_true hbody
  have hheadings : ∀ h ∈ headings depth lev is, 1 ≤ lev h ∧ lev h ≤ depth := by
    intro h hh
    obtain ⟨hmem, hdepth⟩ := List.mem_filter.mp hh
    exact ⟨hlev h hmem, of_decide_eq_true hdepth⟩
  have hroot : Shows depth lev txt is ⟨⟨0, (preamble depth lev is).map txt, []⟩, []⟩ ⟨[], []⟩ := by
    refine ⟨rfl, rfl, fun h hh => absurd hh List.not_mem_nil, ?_⟩
    rw [Stack.frames, finished]
    simp [finished, openTitles, dfsChildren, chunkOf]
  have hrun := hroot.run hheadings
  have hstack : ((is.map fun i => (lev i, txt i)).foldl (addLine depth) ⟨⟨0, [], []⟩, []⟩) =
      ((((headings depth lev is).flatMap (under depth lev is)).map fun i => (lev i, txt i)).foldl
        (addLine depth) ⟨⟨0, (preamble depth lev is).map txt, []⟩, []⟩) := by
    conv_lhs => rw [← @lines_eq depth lev is his]
    rw [List.map_append, List.foldl_append, foldl_bodies _ hbodies]
    rfl
  rw [← hstack] at hrun
  exact hrun.chunks

/-! ### The parts -/

theorem pathLines_cons (is : List ℕ) (c : ℕ) (outer : List ℕ) :
    pathLines depth lev is (c :: outer) =
      pathLines depth lev is outer ++ under depth lev is c := by
  unfold pathLines
  rw [List.reverse_cons, List.flatMap_append, List.flatMap_singleton]

/-- A path ends in the lines under its innermost heading. -/
theorem mem_under_of_getLast {is p : List ℕ} {x : ℕ}
    (hx : x ∈ (pathLines depth lev is p).getLast?) :
    ∃ c, p.head? = some c ∧ x ∈ under depth lev is c := by
  cases p with
  | nil => exact absurd hx (Option.not_mem_none x)
  | cons c outer =>
      have hne : under depth lev is c ≠ [] := List.cons_ne_nil _ _
      rw [pathLines_cons, List.getLast?_append_of_ne_nil _ hne] at hx
      exact ⟨c, rfl, List.mem_of_getLast? hx⟩

theorem mem_parts {is I : List ℕ} (hI : I ∈ parts depth lev is) :
    (I ≠ [] ∧ I = preamble depth lev is) ∨
      ∃ p ∈ (Outline.walk lev (headings depth lev is)).paths, I = pathLines depth lev is p := by
  rcases List.mem_append.mp hI with hI | hI
  · split_ifs at hI with hnil
    · exact absurd hI List.not_mem_nil
    · obtain rfl := List.mem_singleton.mp hI
      exact Or.inl ⟨hnil, rfl⟩
  · obtain ⟨p, hp, rfl⟩ := List.mem_map.mp hI
    exact Or.inr ⟨p, hp, rfl⟩

section ordered

variable {is : List ℕ} (his : is.Pairwise (· < ·))

include his

theorem headings_good :
    (Outline.walk lev (headings depth lev is)).Good lev (headings depth lev is) :=
  Outline.walk_good (his.filter _)

/-- Every line is in a part. -/
theorem parts_cover {i : ℕ} (hi : i ∈ is) : ∃ I ∈ parts depth lev is, i ∈ I := by
  rw [← @lines_eq depth lev is his] at hi
  unfold parts
  rcases List.mem_append.mp hi with hi | hi
  · refine ⟨_, List.mem_append_left _ ?_, hi⟩
    rw [if_neg (List.ne_nil_of_mem hi)]
    exact List.mem_cons_self
  · obtain ⟨h, hh, hih⟩ := List.mem_flatMap.mp hi
    obtain ⟨p, hp, hhp⟩ := (headings_good his).paths.covers h hh
    exact ⟨_, List.mem_append_right _ (List.mem_map_of_mem hp),
      List.mem_flatMap.mpr ⟨h, List.mem_reverse.mpr hhp, hih⟩⟩

/-- The lines of a part are lines in their order. -/
theorem parts_sublist {I : List ℕ} (hI : I ∈ parts depth lev is) : I.Sublist is := by
  rw [← @lines_eq depth lev is his]
  rcases mem_parts hI with ⟨-, rfl⟩ | ⟨p, hp, rfl⟩
  · exact List.sublist_append_left _ _
  · have hpath := (headings_good his).paths.isPath p hp
    cases p with
    | nil => exact hpath.elim
    | cons c outer => exact (hpath.1.flatMap _).trans (List.sublist_append_right _ _)

theorem parts_ne_nil {I : List ℕ} (hI : I ∈ parts depth lev is) : I ≠ [] := by
  rcases mem_parts hI with ⟨hne, -⟩ | ⟨p, hp, rfl⟩
  · exact hne
  · have hpath := (headings_good his).paths.isPath p hp
    cases p with
    | nil => exact hpath.elim
    | cons c outer =>
        rw [pathLines_cons]
        exact List.append_ne_nil_of_right_ne_nil _ (List.cons_ne_nil _ _)

/-- The parts end in the order of the lines. -/
theorem parts_inOrder : (parts depth lev is).Pairwise fun I J =>
    ∀ x ∈ I.getLast?, ∀ y ∈ J.getLast?, x < y := by
  have hlines := his
  rw [← @lines_eq depth lev is his] at hlines
  obtain ⟨-, hunder, hbefore⟩ := List.pairwise_append.mp hlines
  have horder := (@headings_good depth lev is his).paths.inOrder
  unfold parts
  refine List.pairwise_append.mpr ⟨?_, ?_, ?_⟩
  · split_ifs
    · exact List.Pairwise.nil
    · exact List.pairwise_singleton _ _
  · have hpaths := List.pairwise_filterMap.mp ((List.pairwise_flatMap.mp hunder).2.sublist horder)
    refine List.pairwise_map.mpr (hpaths.imp ?_)
    intro p q hpq x hx y hy
    obtain ⟨c, hc, hxc⟩ := mem_under_of_getLast hx
    obtain ⟨c', hc', hyc⟩ := mem_under_of_getLast hy
    exact hpq c hc c' hc' x hxc y hyc
  · intro I hI J hJ x hx y hy
    obtain ⟨q, hq, rfl⟩ := List.mem_map.mp hJ
    obtain ⟨c, hc, hyc⟩ := mem_under_of_getLast hy
    have hmem : c ∈ headings depth lev is := horder.subset (List.mem_filterMap.mpr ⟨q, hq, hc⟩)
    refine hbefore x ?_ y (List.mem_flatMap.mpr ⟨c, hmem, hyc⟩)
    split_ifs at hI with hnil
    · exact absurd hI List.not_mem_nil
    · rw [← List.mem_singleton.mp hI]
      exact List.mem_of_getLast? hx

end ordered

end run

/-! ### The lines -/

theorem exists_of_lineText {t : Str} (h : isKept t = true) :
    ∃ c ∈ lineText t, isSpace c = false := by
  obtain ⟨c, hc, hspace⟩ := exists_of_isKept h
  have hne : c ≠ '\u3000' := by
    rintro rfl
    exact absurd hspace (by decide)
  refine ⟨c, ?_, hspace⟩
  unfold lineText strip rstrip lstrip
  exact mem_strip (List.mem_map.mpr ⟨c, hc, if_neg hne⟩) hspace

theorem stripNewlines_ne_nil {s : Str} {c : Char} (hs : c ∈ s) (hc : isSpace c = false) :
    stripNewlines s ≠ [] := by
  have hne : decide (c = '\n') = false := by
    refine decide_eq_false ?_
    rintro rfl
    exact absurd hc (by decide)
  exact List.ne_nil_of_mem (mem_strip hs hne)

/-- The line of a section. -/
def lineOf (patterns : List Re) (s : Str × Str) : ℕ × Str :=
  (sectionLevel patterns (strip (lineText s.1)) (lineText s.1) s.2 + 1, lineText s.1)

/-- Every section that is kept makes a line. -/
theorem treeLines_eq {bull : ℤ} {patterns : List Re}
    (hbull : item bulletPattern bull = .ok patterns) (sections : Sections) :
    treeLines bull sections = .ok ((kept sections).map (lineOf patterns)) := by
  have hlevel : getLevel bull = fun s => pure (lineOf patterns s) := by
    funext s
    unfold getLevel
    rw [hbull]
    rfl
  unfold treeLines
  rw [hlevel, List.mapM_pure]
  refine congrArg Except.ok (List.filter_eq_self.mpr fun line hline => ?_)
  obtain ⟨s, hs, rfl⟩ := List.mem_map.mp hline
  obtain ⟨c, hc, hspace⟩ := exists_of_lineText (List.mem_filter.mp hs).2
  have hne := stripNewlines_ne_nil hc hspace
  rw [Bool.not_eq_true', List.isEmpty_eq_false_iff]
  exact hne

theorem treeLines_error {bull : ℤ} {e : Err} (hbull : item bulletPattern bull = .error e)
    {sections : Sections} (hkept : kept sections ≠ []) : treeLines bull sections = .error e := by
  obtain ⟨s, rest, hcons⟩ := List.exists_cons_of_ne_nil hkept
  unfold treeLines
  rw [hcons, List.mapM_cons, getLevel, hbull]
  rfl

theorem sortedLevels_ne_nil {lines : List (ℕ × Str)} (h : lines ≠ []) :
    sortedLevels lines ≠ [] := by
  obtain ⟨line, rest, rfl⟩ := List.exists_cons_of_ne_nil h
  refine List.ne_nil_of_mem (a := line.1) ?_
  unfold sortedLevels
  rw [List.mem_insertionSort, List.mem_dedup]
  exact List.mem_map_of_mem List.mem_cons_self

/-- There is a target level when there is a level at all. -/
theorem targetLevel_ok {bull : ℤ} {patterns : List Re}
    (hbull : item bulletPattern bull = .ok patterns) {levels : List ℕ} (hlevels : levels ≠ [])
    {depth : ℤ} (hdepth : 1 ≤ depth) :
    ∃ target, targetLevel bull levels depth = .ok target := by
  have hlength : 0 < levels.length := List.length_pos_iff.mpr hlevels
  obtain ⟨first, -, hfirst⟩ : ∃ x ∈ levels,
      item levels (if depth ≤ levels.length then depth - 1 else -1) = .ok x := by
    refine item_of_range ?_ ?_ <;> split_ifs <;> omega
  obtain ⟨second, -, hsecond⟩ : ∃ x ∈ levels,
      item levels (if 1 < levels.length then -2 else 0) = .ok x := by
    refine item_of_range ?_ ?_ <;> split_ifs <;> omega
  unfold targetLevel
  rw [hfirst, hbull, hsecond]
  by_cases hbody : first = patterns.length + 2
  · exact ⟨second, if_pos hbody⟩
  · exact ⟨first, if_neg hbody⟩

theorem targetLevel_nil (bull depth : ℤ) : targetLevel bull [] depth = .error .indexError := by
  unfold targetLevel
  rw [item_nil]
  rfl

/-! ### The structure of the chunks -/

def levelAt (lines : List (ℕ × Str)) (i : ℕ) : ℕ := (lines.getD i (0, [])).1

def textAt (lines : List (ℕ × Str)) (i : ℕ) : Str := (lines.getD i (0, [])).2

/-- `part` are the lines before the first heading, or those under the headings of a path: their
levels ascend, and each is the closest heading before the next of a lower level. -/
def Headed (depth : ℕ) (lev : ℕ → ℕ) (is part : List ℕ) : Prop :=
  (part ≠ [] ∧ part = preamble depth lev is) ∨
    ∃ path : List ℕ, path.Pairwise (lev · < lev ·) ∧
      Outline.IsPath lev (headings depth lev is) path.reverse ∧
      part = path.flatMap (under depth lev is)

/-- The chunks have the lines of the parts. -/
structure Chunked (depth : ℕ) (lines : List (ℕ × Str)) (chunks : List Str)
    (parts : List (List ℕ)) : Prop where
  chunks_eq : chunks = parts.map fun part => joinLines (part.map (textAt lines))
  covers : ∀ i < lines.length, ∃ part ∈ parts, i ∈ part
  sublist : ∀ part ∈ parts, part.Sublist (List.range lines.length)
  headed : ∀ part ∈ parts, Headed depth (levelAt lines) (List.range lines.length) part
  inOrder : parts.Pairwise fun part part' =>
    ∀ x ∈ part.getLast?, ∀ y ∈ part'.getLast?, x < y

theorem at_eq_getElem {lines : List (ℕ × Str)} {i : ℕ} (hi : i < lines.length) :
    (levelAt lines i, textAt lines i) = lines[i] := by
  unfold levelAt textAt
  rw [List.getD_eq_getElem?_getD, List.getElem?_eq_getElem hi]
  rfl

theorem mem_at {lines : List (ℕ × Str)} {i : ℕ} (hi : i < lines.length) :
    (levelAt lines i, textAt lines i) ∈ lines := by
  rw [at_eq_getElem hi]
  exact List.getElem_mem hi

theorem range_map_at (lines : List (ℕ × Str)) :
    (List.range lines.length).map (fun i => (levelAt lines i, textAt lines i)) = lines := by
  refine List.ext_getElem (by rw [List.length_map, List.length_range]) fun i hi hi' => ?_
  rw [List.getElem_map, List.getElem_range, at_eq_getElem hi']

theorem headed_of_mem_parts {depth : ℕ} {lev : ℕ → ℕ} {is part : List ℕ}
    (his : is.Pairwise (· < ·)) (hpart : part ∈ parts depth lev is) : Headed depth lev is part := by
  rcases mem_parts hpart with hpre | ⟨p, hp, rfl⟩
  · exact Or.inl hpre
  · have hpath := (@headings_good depth lev is his).paths.isPath p hp
    refine Or.inr ⟨p.reverse, ?_, by rwa [List.reverse_reverse], rfl⟩
    cases p with
    | nil => exact hpath.elim
    | cons c outer => exact List.pairwise_reverse.mpr hpath.2.pairwise

theorem chunked_parts (depth : ℕ) (lines : List (ℕ × Str)) :
    Chunked depth lines
      ((parts depth (levelAt lines) (List.range lines.length)).map (chunkOf (textAt lines)))
      (parts depth (levelAt lines) (List.range lines.length)) where
  chunks_eq := rfl
  covers _ hi := parts_cover List.pairwise_lt_range (List.mem_range.mpr hi)
  sublist _ hpart := parts_sublist List.pairwise_lt_range hpart
  headed _ hpart := headed_of_mem_parts List.pairwise_lt_range hpart
  inOrder := parts_inOrder List.pairwise_lt_range

theorem infix_joinLines {t : Str} {texts : List Str} (h : t ∈ texts) : t <:+: joinLines texts := by
  unfold joinLines
  induction texts with
  | nil => exact absurd h List.not_mem_nil
  | cons a texts ih =>
      cases texts with
      | nil =>
          rw [List.mem_singleton.mp h, List.intercalate_singleton]
      | cons b texts =>
          rw [List.intercalate_cons_cons]
          rcases List.mem_cons.mp h with rfl | h
          · rw [List.append_assoc]
            exact (List.prefix_append _ _).isInfix
          · exact (ih h).trans (List.suffix_append _ _).isInfix

/-- A line of a part is in its chunk. -/
theorem infix_chunkOf {txt : ℕ → Str} {part : List ℕ} {i : ℕ} (hi : i ∈ part) :
    txt i <:+: chunkOf txt part :=
  infix_joinLines (List.mem_map_of_mem hi)

/-- The tree of lines that have texts, and levels from one on. -/
theorem filter_getTree {depth : ℕ} {lines : List (ℕ × Str)}
    (hlines : ∀ line ∈ lines, 1 ≤ line.1 ∧ line.2 ≠ []) :
    (getTree depth (buildTree depth lines)).filter (fun element => !element.isEmpty) =
      (parts depth (levelAt lines) (List.range lines.length)).map (chunkOf (textAt lines)) := by
  have htree := @getTree_buildTree depth (levelAt lines) (textAt lines) (List.range lines.length)
    List.pairwise_lt_range fun i hi => (hlines _ (mem_at (List.mem_range.mp hi))).1
  rw [range_map_at] at htree
  rw [htree]
  refine List.filter_eq_self.mpr fun chunk hchunk => ?_
  obtain ⟨part, hpart, rfl⟩ := List.mem_map.mp hchunk
  obtain ⟨i, rest, rfl⟩ := List.exists_cons_of_ne_nil (parts_ne_nil List.pairwise_lt_range hpart)
  have hi : i < lines.length :=
    List.mem_range.mp ((parts_sublist List.pairwise_lt_range hpart).subset List.mem_cons_self)
  have hne := (hlines _ (mem_at hi)).2
  rw [Bool.not_eq_true', List.isEmpty_eq_false_iff]
  intro hnil
  have hinfix := @infix_chunkOf (textAt lines) (i :: rest) i List.mem_cons_self
  rw [hnil] at hinfix
  exact hne (List.eq_nil_of_infix_nil hinfix)

theorem isEmpty_of_kept {sections : Sections} (h : kept sections ≠ []) :
    sections.isEmpty = false := by
  cases sections with
  | texts ts =>
      cases ts with
      | nil => exact absurd rfl h
      | cons t ts => rfl
  | pairs ps =>
      cases ps with
      | nil => exact absurd rfl h
      | cons p ps => rfl

theorem treeMerge_of_bull {bull depth : ℤ} {sections : Sections}
    (hsections : sections.isEmpty = false) (hbull : 0 ≤ bull) :
    treeMerge bull sections depth = do
      let lines ← treeLines bull sections
      let target ← targetLevel bull (sortedLevels lines) depth
      let root := buildTree target lines
      return .chunks ((getTree target root).filter fun element => !element.isEmpty) :=
  if_neg (by simpa [hsections] using hbull)

/-- The run of `tree_merge` when a section is kept. -/
theorem treeMerge_eq {bull depth : ℤ} {sections : Sections} {patterns : List Re} (hbull : 0 ≤ bull)
    (hdepth : 1 ≤ depth) (hkept : kept sections ≠ [])
    (hpatterns : item bulletPattern bull = .ok patterns) :
    ∃ target lines, lines = (kept sections).map (lineOf patterns) ∧
      targetLevel bull (sortedLevels lines) depth = .ok target ∧
      treeMerge bull sections depth = .ok (.chunks
        ((parts target (levelAt lines) (List.range lines.length)).map
          (chunkOf (textAt lines)))) := by
  have hne : (kept sections).map (lineOf patterns) ≠ [] := by
    rwa [ne_eq, List.map_eq_nil_iff]
  obtain ⟨target, htarget⟩ := targetLevel_ok hpatterns (sortedLevels_ne_nil hne) hdepth
  refine ⟨target, _, rfl, htarget, ?_⟩
  have hlines : ∀ line ∈ (kept sections).map (lineOf patterns), 1 ≤ line.1 ∧ line.2 ≠ [] := by
    intro line hline
    obtain ⟨s, hs, rfl⟩ := List.mem_map.mp hline
    obtain ⟨c, hc, -⟩ := exists_of_lineText (List.mem_filter.mp hs).2
    exact ⟨Nat.le_add_left 1 _, List.ne_nil_of_mem hc⟩
  rw [treeMerge_of_bull (isEmpty_of_kept hkept) hbull, treeLines_eq hpatterns, ok_bind, htarget,
    ok_bind, ← filter_getTree hlines]
  rfl

/-- Every line is in a chunk; a chunk has the lines of a path of headings in their order; and the
chunks end in the order of the lines. -/
theorem treeMerge_structure {bull depth : ℤ} {sections : Sections} (hbull : 0 ≤ bull)
    (hdepth : 1 ≤ depth) (hkept : kept sections ≠ []) :
    (bull < bulletPattern.length → ∃ lines target chunks parts,
      treeLines bull sections = .ok lines ∧
      lines.map Prod.snd = (kept sections).map (fun s => lineText s.1) ∧
      targetLevel bull (sortedLevels lines) depth = .ok target ∧
      treeMerge bull sections depth = .ok (.chunks chunks) ∧
      (∀ line ∈ lines, ∃ chunk ∈ chunks, line.2 <:+: chunk) ∧
      Chunked target lines chunks parts) ∧
    (bulletPattern.length ≤ bull → treeMerge bull sections depth = .error .indexError) := by
  refine ⟨fun hrange => ?_, fun hrange => ?_⟩
  · obtain ⟨patterns, -, hpatterns⟩ := item_of_range (by omega) hrange
    obtain ⟨target, lines, rfl, htarget, hmerge⟩ := treeMerge_eq hbull hdepth hkept hpatterns
    have hchunked := chunked_parts target ((kept sections).map (lineOf patterns))
    refine ⟨_, target, _, _, treeLines_eq hpatterns sections, ?_, htarget, hmerge, ?_, hchunked⟩
    · rw [List.map_map]
      rfl
    · intro line hline
      obtain ⟨i, hi, rfl⟩ := List.mem_iff_getElem.mp hline
      obtain ⟨part, hpart, hmem⟩ := hchunked.covers i hi
      refine ⟨_, List.mem_map_of_mem hpart, ?_⟩
      rw [← at_eq_getElem hi]
      exact @infix_chunkOf (textAt _) part i hmem
  · have hitem := item_of_length_le hrange
    rw [treeMerge_of_bull (isEmpty_of_kept hkept) hbull, treeLines_error hitem hkept]
    rfl

/-- A preface, a chapter with a section, and a chapter without. -/
def statute : Sections :=
  .texts ["前言 甲".toList, "第一章 乙".toList, "第一节 丙".toList, "正文 丁".toList, "第二章 戊".toList]

theorem treeMerge_structure_statute :
    treeMerge 0 statute 2 = .ok (.chunks ["前言 甲".toList,
      "第一章 乙\n第一节 丙\n正文 丁".toList, "第二章 戊".toList]) ∧
    ∃ lines target chunks parts, treeLines 0 statute = .ok lines ∧
      lines.map Prod.snd = (kept statute).map (fun s => lineText s.1) ∧
      targetLevel 0 (sortedLevels lines) 2 = .ok target ∧
      treeMerge 0 statute 2 = .ok (.chunks chunks) ∧
      (∀ line ∈ lines, ∃ chunk ∈ chunks, line.2 <:+: chunk) ∧
      Chunked target lines chunks parts :=
  ⟨rfl, (treeMerge_structure (by decide) (by decide) (by decide)).1 (by decide)⟩

end RagFlow.Nlp.Headings
