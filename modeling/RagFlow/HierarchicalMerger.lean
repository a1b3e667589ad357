import Mathlib.Data.Prod.Lex
import RagFlow.OutlineTree
import RagFlow.PyStr

/-! # Merging lines under their headings

`HierarchicalMerger._invoke` of `rag/flow/hierarchical_merger/hierarchical_merger.py` finds the
level of each line by patterns, and grows a tree of headings.

* **Levels.** The level of a line is that of the first pattern found in it; a line without one is
  text (`matchLevel`).
* **Tree.** A heading of level 0 goes to the root, text to the last leaf.  For any other heading the
  search goes down the last children, to a heading one level higher or to a leaf (`addLine`).
* **Nesting.** `attached_iff`: every heading is under the closest heading before it of a lower level
  exactly if each of these is one level higher or directly before it. -/

namespace RagFlow.Merger

open Py RoseTree RoseTree.Rose Outline

/-! ### Lines -/

/-- The lines of a payload of text. -/
def payloadLines (payload : Str) : List Str := (payload.splitOn '\n').filter (fun ln => ln ≠ [])

section levels
variable {P : Type} (search : P → Str → Bool) (levels : List (List P))

/-- The first level with a pattern that is found in the line; for text, the number of levels. -/
def matchLevel (txt : Str) : ℕ := levels.findIdx (fun regs => regs.any (fun reg => search reg txt))

def matchLevels (lines : List Str) : List ℕ := lines.map (matchLevel search levels)

end levels

/-! ### The tree -/

/-- A node without its children. -/
structure Label where
  level : ℤ
  index : ℤ
  texts : List ℤ
deriving DecidableEq

abbrev Node := Rose Label

def root : Node := node ⟨-1, -1, []⟩ []

/-- The node of a heading `m` in line `i`. -/
def headingLabel (m i : ℕ) : Label := ⟨m, i, []⟩

def appendText (i : ℕ) (b : Label) : Label := { b with texts := b.texts ++ [(i : ℤ)] }

/-- The line `i` with the level `m`; there are `levels` levels. -/
def addLine (levels : ℕ) (root : Node) (x : ℕ × ℕ) : Node :=
  let (m, i) := x
  if m = 0 then push (headingLabel m i) root
  else if m = levels then relabel (appendText i) root
  else attach (fun b => decide ((m : ℤ) = b.level + 1)) (headingLabel m i) root

def buildTree (levels : ℕ) (ms : List ℕ) : Node := ms.zipIdx.foldl (addLine levels) root

/-! ### Headings -/

@[ext] structure Heading where
  index : ℤ
  level : ℤ
deriving DecidableEq

/-- Headings come in the order of their lines. -/
instance : LinearOrder Heading :=
  LinearOrder.lift' (fun h => toLex (h.index, h.level)) (fun a b h => by
    obtain ⟨hindex, hlevel⟩ := Prod.mk.inj (toLex.injective h)
    exact Heading.ext hindex hlevel)

theorem Heading.lt_of_index {a b : Heading} (h : a.index < b.index) : a < b :=
  Prod.Lex.toLex_lt_toLex.mpr (Or.inl h)

def Label.heading (b : Label) : Heading := ⟨b.index, b.level⟩

/-- The root as a heading before the first line. -/
def rootHeading : Heading := ⟨-1, -1⟩

/-- A line is text if it has the last level, and this is not 0. -/
def isHeading (levels m : ℕ) : Bool := m = 0 || m ≠ levels

def headings (levels : ℕ) (ms : List ℕ) : List Heading :=
  (ms.zipIdx.filter (fun x => isHeading levels x.1)).map (fun x => ⟨x.2, x.1⟩)

/-- The headings with their parents. -/
def parents (levels : ℕ) (ms : List ℕ) : List (Heading × Heading) :=
  ((buildTree levels ms).map Label.heading).edges

/-- Every heading is in the tree once, under the closest heading before it of a lower level. -/
structure Attached (levels : ℕ) (ms : List ℕ) : Prop where
  once : (parents levels ms).map Prod.snd = headings levels ms
  nested : ∀ e ∈ parents levels ms,
    Encloses Heading.level (rootHeading :: headings levels ms) e.1 e.2

/-! ### The tree of the headings -/

section tree
variable {levels : ℕ}

theorem map_addLine {t : Node} (ht : t.label.level = -1) (m i : ℕ) :
    (addLine levels t (m, i)).map Label.heading =
      if isHeading levels m then grow Heading.level (t.map Label.heading) ⟨i, m⟩
      else t.map Label.heading := by
  have hlabel : (t.map Label.heading).label.level = -1 := by
    obtain ⟨a, cs⟩ := t
    exact ht
  unfold addLine isHeading grow
  dsimp only
  by_cases hzero : m = 0
  · subst hzero
    have hstop : stopAt Heading.level ⟨i, (0 : ℕ)⟩ (t.map Label.heading).label = true := by
      unfold stopAt
      rw [hlabel]
      rfl
    rw [if_pos rfl, attach_of_stop hstop, map_push]
    rfl
  · rw [if_neg hzero]
    by_cases htext : m = levels
    · have hfixed : ∀ b, (appendText i b).heading = b.heading := fun _ => rfl
      rw [if_pos htext, map_relabel hfixed, if_neg (by simpa [htext] using htext ▸ hzero)]
    · have hstop : ∀ b : Label, stopAt Heading.level ⟨i, m⟩ b.heading =
          decide ((m : ℤ) = b.level + 1) := fun _ => rfl
      rw [if_neg htext, if_pos (by simp [htext])]
      exact map_attach hstop t

theorem level_addLine (t : Node) (x : ℕ × ℕ) :
    (addLine levels t x).label.level = t.label.level := by
  have hrelabel : ∀ i, (relabel (appendText i) t).label.level = t.label.level := by
    intro i
    obtain ⟨a, cs⟩ := t
    unfold relabel
    rw [onSpine]
    split_ifs <;> rfl
  unfold addLine
  dsimp only
  split_ifs
  · obtain ⟨a, cs⟩ := t
    rfl
  · exact hrelabel x.2
  · rw [label_attach]

/-- The headings of the tree are grown as an outline. -/
theorem map_buildTree (levels : ℕ) (ms : List ℕ) :
    (buildTree levels ms).map Label.heading =
      outlineTree Heading.level rootHeading (headings levels ms) := by
  suffices h : ∀ xs : List (ℕ × ℕ), (xs.foldl (addLine levels) root).label.level = -1 ∧
      (xs.foldl (addLine levels) root).map Label.heading =
        outlineTree Heading.level rootHeading
          ((xs.filter (fun x => isHeading levels x.1)).map (fun x => ⟨x.2, x.1⟩)) from
    (h ms.zipIdx).2
  intro xs
  induction xs using List.reverseRecOn with
  | nil => exact ⟨rfl, rfl⟩
  | append_singleton xs x ih =>
      obtain ⟨hlevel, htree⟩ := ih
      rw [List.foldl_append, List.foldl_cons, List.foldl_nil, level_addLine, List.filter_append,
        List.map_append]
      refine ⟨hlevel, ?_⟩
      obtain ⟨m, i⟩ := x
      rw [map_addLine hlevel, htree]
      rw [List.filter_cons, List.filter_nil]
      by_cases hm : isHeading levels m
      · rw [if_pos hm, if_pos hm, List.map_singleton, outlineTree_snoc]
      · rw [if_neg hm, if_neg hm, List.map_nil, List.append_nil]

theorem headings_pairwise (levels : ℕ) (ms : List ℕ) :
    (rootHeading :: headings levels ms).Pairwise (· < ·) := by
  have hindex : ms.zipIdx.Pairwise (fun x y => x.2 < y.2) := by
    rw [← List.pairwise_map (f := Prod.snd) (R := (· < ·)), List.zipIdx_map_snd]
    exact List.pairwise_lt_range'
  refine List.pairwise_cons.mpr ⟨fun b hb => ?_, ?_⟩
  · obtain ⟨x, -, rfl⟩ := List.mem_map.mp hb
    refine Heading.lt_of_index ?_
    show (-1 : ℤ) < (x.2 : ℤ)
    omega
  · refine List.pairwise_map.mpr ((hindex.filter _).imp (fun hlt => Heading.lt_of_index ?_))
    exact Int.ofNat_lt.mpr hlt

theorem rootHeading_lower {levels : ℕ} {ms : List ℕ} {b : Heading} (hb : b ∈ headings levels ms) :
    rootHeading.level < b.level := by
  obtain ⟨x, -, rfl⟩ := List.mem_map.mp hb
  show (-1 : ℤ) < (x.1 : ℤ)
  omega

end tree

/-! ### Nesting -/

/-- **Nesting.**  Every heading is in the tree once; each is under the closest heading before it of
a lower level exactly if each of these is one level higher or directly before it. -/
theorem attached_iff (levels : ℕ) (ms : List ℕ) :
    Attached levels ms ↔ ∀ b ∈ headings levels ms,
      Stepwise Heading.level rootHeading (headings levels ms) b := by
  have honce : (parents levels ms).map Prod.snd = headings levels ms := by
    unfold parents
    rw [map_buildTree]
    exact edges_outlineTree _ _ _
  rw [← nested_iff (headings_pairwise levels ms) (fun b hb => rootHeading_lower hb)]
  unfold Nested
  rw [← map_buildTree]
  exact ⟨fun h => h.nested, fun h => ⟨honce, h⟩⟩

/-- Two headings of one level: the second is put under the first. -/
theorem not_attached_twins : ¬ Attached 2 [1, 1] := by
  intro h
  have hmem : ((⟨0, 1⟩, ⟨1, 1⟩) : Heading × Heading) ∈ parents 2 [1, 1] := by decide
  exact absurd (h.nested _ hmem).lower (lt_irrefl _)

/-- Headings of the same level without a higher one between them are siblings. -/
theorem Attached.siblings {levels : ℕ} {ms : List ℕ} (h : Attached levels ms) {p q b c : Heading}
    (hb : (p, b) ∈ parents levels ms) (hc : (q, c) ∈ parents levels ms)
    (hlevel : b.level = c.level) (hbc : b < c)
    (hbetween : ∀ k ∈ headings levels ms, b < k → k < c → c.level ≤ k.level) : p = q := by
  have hp := h.nested _ hb
  have hroot : ∀ k ∈ rootHeading :: headings levels ms, b < k → k < c → c.level ≤ k.level := by
    intro k hk hbk hkc
    rcases List.mem_cons.mp hk with rfl | hk
    · have hmem : b ∈ headings levels ms := by
        rw [← h.once]
        exact List.mem_map_of_mem (f := Prod.snd) hb
      have hlt := (List.pairwise_cons.mp (headings_pairwise levels ms)).1 b hmem
      exact absurd (hlt.trans hbk) (lt_irrefl _)
    · exact hbetween k hk hbk hkc
  refine Encloses.unique ⟨hp.mem, hp.before.trans hbc, hlevel ▸ hp.lower, ?_⟩ (h.nested _ hc)
  intro k hk hpk hkc
  rcases lt_trichotomy k b with hlt | rfl | hlt
  · exact hlevel ▸ hp.closest k hk hpk hlt
  · exact hlevel.ge
  · exact hroot k hk hlt hkc

end RagFlow.Merger
