import Mathlib.Order.Lattice
import Mathlib.Data.List.Induction
import Mathlib.Data.List.TakeWhile
import Mathlib.Tactic.SplitIfs

/-! # Outlines

A row of headings with levels is read as an outline: a heading is under the closest heading before
it of a lower level.

* **Spec.** `Encloses` is this relation, `Around` the chain of the headings around a heading, and a
  path (`IsPath`) is such a chain from the inside out.
* **Walk.** One pass over the headings keeps the open path.  A heading closes those of its level and
  of higher levels; if the innermost one is closed, its path is complete.
* **Result.** `walk_good`: the open path and the complete ones are paths of the outline, every
  heading is on one of them, and their innermost headings come in order. -/

namespace RagFlow.Outline

variable {β L : Type} [LinearOrder β] [LinearOrder L] (level : β → L)

/-! ### The outline -/

/-- Among `bs`, `h` is the closest heading before `c` of a lower level. -/
structure Encloses (bs : List β) (h c : β) : Prop where
  mem : h ∈ bs
  before : h < c
  lower : level h < level c
  closest : ∀ k ∈ bs, h < k → k < c → level c ≤ level k

/-- The headings around `c` are `outer`, from the inside out. -/
def Around (bs : List β) : β → List β → Prop
  | c, [] => ∀ k ∈ bs, k < c → level c ≤ level k
  | c, h :: outer => Encloses level bs h c ∧ Around bs h outer

/-- A heading of `bs` and the headings around it. -/
def IsPath (bs : List β) : List β → Prop
  | [] => False
  | c :: outer => (c :: outer).reverse.Sublist bs ∧ Around level bs c outer

variable {level}

theorem Around.pairwise {bs : List β} {c : β} {outer : List β} (h : Around level bs c outer) :
    (c :: outer).Pairwise fun b a => level a < level b := by
  induction outer generalizing c with
  | nil => exact List.pairwise_singleton _ _
  | cons a outer ih =>
      obtain ⟨henc, haround⟩ := h
      have hrest := ih haround
      refine List.pairwise_cons.mpr ⟨fun x hx => ?_, hrest⟩
      rcases List.mem_cons.mp hx with rfl | hx
      · exact henc.lower
      · exact ((List.pairwise_cons.mp hrest).1 x hx).trans henc.lower

/-- A heading at the end changes nothing around the others. -/
theorem Around.snoc {bs : List β} {b c : β} {outer : List β} (h : Around level bs c outer)
    (hc : c ≤ b) : Around level (bs ++ [b]) c outer := by
  have old : ∀ {k x : β}, k ∈ bs ++ [b] → k < x → x ≤ b → k ∈ bs := by
    intro k x hk hkx hx
    rcases List.mem_append.mp hk with hk | hk
    · exact hk
    · obtain rfl := List.mem_singleton.mp hk
      exact absurd (hkx.trans_le hx) (lt_irrefl _)
  induction outer generalizing c with
  | nil => exact fun k hk hkc => h k (old hk hkc hc) hkc
  | cons a outer ih =>
      obtain ⟨henc, haround⟩ := h
      refine ⟨⟨List.mem_append_left _ henc.mem, henc.before, henc.lower, ?_⟩,
        ih haround (henc.before.le.trans hc)⟩
      exact fun k hk hak hkc => henc.closest k (old hk hkc hc) hak hkc

/-- The headings around `b` are those around `c` of a lower level, if `b` is not below `c` and what
follows `c` is not either. -/
theorem Around.close {bs : List β} {b c : β} {outer : List β} (h : Around level bs c outer)
    (hbs : ∀ k ∈ bs, k < b) (hge : ∀ k ∈ bs, c ≤ k → level b ≤ level k) (hcb : level b ≤ level c) :
    Around level bs b (outer.dropWhile fun a => level b ≤ level a) := by
  induction outer generalizing c with
  | nil =>
      intro k hk _
      rcases lt_or_ge k c with hlt | hle
      · exact hcb.trans (h k hk hlt)
      · exact hge k hk hle
  | cons a outer ih =>
      obtain ⟨henc, haround⟩ := h
      have hafter : ∀ k ∈ bs, a < k → level b ≤ level k := by
        intro k hk hak
        rcases lt_or_ge k c with hlt | hle
        · exact hcb.trans (henc.closest k hk hak hlt)
        · exact hge k hk hle
      by_cases hab : level b ≤ level a
      · rw [List.dropWhile_cons, if_pos (decide_eq_true hab)]
        refine ih haround (fun k hk hak => ?_) hab
        rcases hak.lt_or_eq with hlt | rfl
        · exact hafter k hk hlt
        · exact hab
      · rw [List.dropWhile_cons, if_neg (by rwa [decide_eq_true_iff])]
        exact ⟨⟨henc.mem, hbs a henc.mem, lt_of_not_ge hab, fun k hk hak _ => hafter k hk hak⟩,
          haround⟩

/-! ### The walk -/

variable (level)

/-- The complete paths and the open one, each from the inside out. -/
structure Walk (β : Type) where
  done : List (List β)
  path : List β

/-- A new heading `b`. -/
def Walk.enter (w : Walk β) (b : β) : Walk β where
  done := match w.path with
    | [] => w.done
    | c :: _ => if level b ≤ level c then w.done ++ [w.path] else w.done
  path := b :: w.path.dropWhile fun a => level b ≤ level a

def walk (bs : List β) : Walk β := bs.foldl (Walk.enter level) ⟨[], []⟩

/-- The complete paths and the one that is open at the end. -/
def Walk.paths (w : Walk β) : List (List β) := if w.path = [] then w.done else w.done ++ [w.path]

omit [LinearOrder β] in
theorem walk_snoc (bs : List β) (b : β) :
    walk level (bs ++ [b]) = (walk level bs).enter level b := by
  unfold walk
  rw [List.foldl_append]
  rfl

/-- The paths `ps` end in headings of `bs`, in their order, and cover `bs`. -/
structure Paths (bs : List β) (ps : List (List β)) : Prop where
  isPath : ∀ p ∈ ps, IsPath level bs p
  covers : ∀ b ∈ bs, ∃ p ∈ ps, b ∈ p
  inOrder : (ps.filterMap List.head?).Sublist bs

/-- What holds after the headings `bs`. -/
structure Walk.Good (bs : List β) (w : Walk β) : Prop where
  path_nil : w.path = [] → bs = [] ∧ w.done = []
  last : ∀ c ∈ w.path.head?, ∀ k ∈ bs, k ≤ c
  paths : Paths level bs w.paths

variable {level}

theorem IsPath.snoc {bs : List β} {b : β} {p : List β} (h : IsPath level bs p)
    (hbs : ∀ k ∈ bs, k < b) : IsPath level (bs ++ [b]) p := by
  cases p with
  | nil => exact h
  | cons c outer =>
      obtain ⟨hsub, haround⟩ := h
      have hc : c ∈ bs := hsub.subset (List.mem_reverse.mpr List.mem_cons_self)
      exact ⟨hsub.trans (List.sublist_append_left _ _), haround.snoc (hbs c hc).le⟩

/-- The open path after a new heading. -/
theorem IsPath.enter {bs : List β} {b : β} {p : List β} (h : IsPath level bs p)
    (hbs : ∀ k ∈ bs, k < b) (hlast : ∀ c ∈ p.head?, ∀ k ∈ bs, k ≤ c) :
    IsPath level (bs ++ [b]) (b :: p.dropWhile fun a => level b ≤ level a) := by
  cases p with
  | nil => exact h.elim
  | cons c outer =>
      obtain ⟨hsub, haround⟩ := h
      have hc : c ∈ bs := hsub.subset (List.mem_reverse.mpr List.mem_cons_self)
      have hk : ∀ k ∈ bs, c ≤ k → k = c := fun k hk hck => le_antisymm (hlast c rfl k hk) hck
      refine ⟨?_, Around.snoc ?_ le_rfl⟩
      · rw [List.reverse_cons]
        refine List.Sublist.append (List.Sublist.trans ?_ hsub) (List.Sublist.refl _)
        exact (List.dropWhile_sublist _).reverse
      · rw [List.dropWhile_cons]
        split_ifs with hbc
        · have hbc := of_decide_eq_true hbc
          refine haround.close hbs (fun k hk' hck => ?_) hbc
          rw [hk k hk' hck]
          exact hbc
        · rw [decide_eq_true_iff, not_le] at hbc
          refine ⟨⟨hc, hbs c hc, hbc, fun k hk' hck _ => ?_⟩, haround⟩
          exact absurd (hk k hk' hck.le) hck.ne'

/-- A new path for the heading `b`. -/
theorem Paths.complete {bs : List β} {b : β} {ps : List (List β)} {outer : List β}
    (h : Paths level bs ps) (hbs : ∀ k ∈ bs, k < b) (hnew : IsPath level (bs ++ [b]) (b :: outer)) :
    Paths level (bs ++ [b]) (ps ++ [b :: outer]) := by
  refine ⟨fun p hp => ?_, fun x hx => ?_, ?_⟩
  · rcases List.mem_append.mp hp with hp | hp
    · exact (h.isPath p hp).snoc hbs
    · rwa [List.mem_singleton.mp hp]
  · rcases List.mem_append.mp hx with hx | hx
    · obtain ⟨p, hp, hxp⟩ := h.covers x hx
      exact ⟨p, List.mem_append_left _ hp, hxp⟩
    · refine ⟨b :: outer, List.mem_append_right _ List.mem_cons_self, ?_⟩
      rw [List.mem_singleton.mp hx]
      exact List.mem_cons_self
  · rw [List.filterMap_append]
    exact h.inOrder.append (List.Sublist.refl _)

/-- The heading `b` at the end of the last path. -/
theorem Paths.extend {bs : List β} {b : β} {ps : List (List β)} {p : List β}
    (h : Paths level bs (ps ++ [p])) (hbs : ∀ k ∈ bs, k < b)
    (hnew : IsPath level (bs ++ [b]) (b :: p)) : Paths level (bs ++ [b]) (ps ++ [b :: p]) := by
  refine ⟨fun q hq => ?_, fun x hx => ?_, ?_⟩
  · rcases List.mem_append.mp hq with hq | hq
    · exact (h.isPath q (List.mem_append_left _ hq)).snoc hbs
    · rwa [List.mem_singleton.mp hq]
  · have hlast : b :: p ∈ ps ++ [b :: p] := List.mem_append_right _ List.mem_cons_self
    rcases List.mem_append.mp hx with hx | hx
    · obtain ⟨q, hq, hxq⟩ := h.covers x hx
      rcases List.mem_append.mp hq with hq | hq
      · exact ⟨q, List.mem_append_left _ hq, hxq⟩
      · rw [List.mem_singleton.mp hq] at hxq
        exact ⟨_, hlast, List.mem_cons_of_mem _ hxq⟩
    · rw [List.mem_singleton.mp hx]
      exact ⟨_, hlast, List.mem_cons_self⟩
  · have horder := h.inOrder
    rw [List.filterMap_append] at horder ⊢
    exact ((List.sublist_append_left _ _).trans horder).append (List.Sublist.refl _)

theorem Walk.Good.enter {bs : List β} {b : β} {w : Walk β} (h : w.Good level bs)
    (hbs : ∀ k ∈ bs, k < b) : (w.enter level b).Good level (bs ++ [b]) := by
  have hlast : ∀ c ∈ (w.enter level b).path.head?, ∀ k ∈ bs ++ [b], k ≤ c := by
    intro c hc k hk
    obtain rfl : b = c := Option.some.inj hc
    rcases List.mem_append.mp hk with hk | hk
    · exact (hbs k hk).le
    · exact (List.mem_singleton.mp hk).le
  have hpath := h.paths
  refine ⟨fun hnil => absurd hnil (List.cons_ne_nil _ _), hlast, ?_⟩
  cases hw : w.path with
  | nil =>
      obtain ⟨rfl, hdone⟩ := h.path_nil hw
      have hpaths : (w.enter level b).paths = w.paths ++ [[b]] := by
        unfold Walk.paths Walk.enter
        simp [hw, hdone]
      rw [hpaths]
      refine hpath.complete hbs ⟨List.Sublist.refl _, fun k hk _ => ?_⟩
      rw [List.mem_singleton.mp hk]
  | cons c outer =>
      have hopen : w.paths = w.done ++ [c :: outer] := by
        unfold Walk.paths
        rw [hw, if_neg (List.cons_ne_nil _ _)]
      rw [hopen] at hpath
      have hnew := (hpath.isPath _ (List.mem_append_right _ List.mem_cons_self)).enter hbs
        (hw ▸ h.last)
      by_cases hbc : level b ≤ level c
      · have hpaths : (w.enter level b).paths = w.done ++ [c :: outer] ++
            [b :: (c :: outer).dropWhile fun a => level b ≤ level a] := by
          unfold Walk.paths Walk.enter
          simp [hw, hbc]
        rw [hpaths]
        exact hpath.complete hbs hnew
      · have hpaths : (w.enter level b).paths = w.done ++ [b :: c :: outer] := by
          unfold Walk.paths Walk.enter
          simp [hw, hbc]
        rw [List.dropWhile_cons, if_neg (by rwa [decide_eq_true_iff])] at hnew
        rw [hpaths]
        exact hpath.extend hbs hnew

/-- The run of the walk. -/
theorem walk_good {bs : List β} (hbs : bs.Pairwise (· < ·)) : (walk level bs).Good level bs := by
  induction bs using List.reverseRecOn with
  | nil =>
      refine ⟨fun _ => ⟨rfl, rfl⟩, fun c hc => ?_, fun p hp => ?_, fun b hb => ?_, ?_⟩
      · exact absurd hc (Option.not_mem_none c)
      · exact absurd hp List.not_mem_nil
      · exact absurd hb List.not_mem_nil
      · exact List.Sublist.refl _
  | append_singleton bs b ih =>
      obtain ⟨hbs', -, hlt⟩ := List.pairwise_append.mp hbs
      rw [walk_snoc]
      exact (ih hbs').enter fun k hk => hlt k hk b List.mem_cons_self

end RagFlow.Outline
