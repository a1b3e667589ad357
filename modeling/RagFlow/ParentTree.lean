import Mathlib.Logic.Relation
import Mathlib.Tactic.Common

/-! # Trees by parent pointers

A tree is given by a function that has a parent for each of its nodes; that of the root is the root
itself.  `Chain p x y` says that `y` is `x` or above it, and `Rooted p root` that the root is above
every node.  A rooted tree has no other cycle than that of its root (`Rooted.antisymm`), and it
stays rooted when

* a node is put under another that is not below it (`Rooted.reparent`),
* a node without children is deleted (`Rooted.delete`). -/

namespace RagFlow.ParentTree

open Relation

variable {ι : Type} {p q : ι → Option ι} {root : ι}

/-- The second node is the first or above it. -/
def Chain (p : ι → Option ι) : ι → ι → Prop := ReflTransGen (fun x y => p x = some y)

theorem Chain.refl (x : ι) : Chain p x x := ReflTransGen.refl

theorem Chain.head {x y z : ι} (h : p x = some y) (hyz : Chain p y z) : Chain p x z :=
  ReflTransGen.head h hyz

theorem Chain.trans {x y z : ι} (hxy : Chain p x y) (hyz : Chain p y z) : Chain p x z :=
  ReflTransGen.trans hxy hyz

/-- A chain that is not trivial begins with the parent. -/
theorem Chain.cases_head {x z : ι} (h : Chain p x z) : x = z ∨ ∃ y, p x = some y ∧ Chain p y z :=
  ReflTransGen.cases_head h

theorem Chain.of_parent {x y z : ι} (hp : p x = some y) (h : Chain p x z) (hne : x ≠ z) :
    Chain p y z := by
  rcases h.cases_head with rfl | ⟨y', hp', hchain⟩
  · exact absurd rfl hne
  · rw [hp] at hp'
    exact Option.some.inj hp' ▸ hchain

/-- A chain is one of every function that has the same parents below its end. -/
theorem Chain.congr {x z : ι} (h : Chain p x z)
    (hq : ∀ y, Chain p x y → Chain p y z → y ≠ z → q y = p y) : Chain q x z := by
  induction h using ReflTransGen.head_induction_on with
  | refl => exact Chain.refl _
  | head hp hchain ih =>
      rename_i x y
      have hrest : Chain q y z :=
        ih (fun w hw hwz hne => hq w (Chain.head hp hw) hwz hne)
      by_cases hx : x = z
      · rw [hx]
        exact Chain.refl _
      · have hfirst := hq x (Chain.refl x) (Chain.head hp hchain) hx
        exact Chain.head (hfirst.trans hp) hrest

/-- A node on a cycle has the whole chain above it on the cycle. -/
theorem Chain.back {x y z : ι} (hxy : Chain p x y) (hyx : Chain p y x) (hne : x ≠ y)
    (hz : Chain p x z) : Chain p z x := by
  induction hz with
  | refl => exact Chain.refl x
  | tail _ hp ih =>
      rename_i z w _
      by_cases hzx : z = x
      · subst hzx
        exact Chain.trans (Chain.of_parent hp hxy hne) hyx
      · exact Chain.of_parent hp ih hzx

/-- The root is above every node. -/
structure Rooted (p : ι → Option ι) (root : ι) : Prop where
  self : p root = some root
  above : ∀ x, (p x).isSome → Chain p x root

section rooted
variable (h : Rooted p root)
include h

/-- Nothing else is above the root. -/
theorem Rooted.eq_root {x : ι} (hx : Chain p root x) : x = root := by
  induction hx with
  | refl => rfl
  | tail _ hp ih =>
      rw [ih, h.self] at hp
      exact (Option.some.inj hp).symm

theorem Rooted.antisymm {x y : ι} (hxy : Chain p x y) (hyx : Chain p y x) : x = y := by
  by_contra hne
  rcases hxy.cases_head with heq | ⟨z, hp, -⟩
  · exact hne heq
  · have hroot : Chain p root x :=
      Chain.back hxy hyx hne (h.above x (by rw [hp]; rfl))
    have hx := h.eq_root hroot
    subst hx
    exact hne (h.eq_root hxy).symm

/-- There is no other cycle than that of the root. -/
theorem Rooted.acyclic {x : ι} (hx : TransGen (fun x y => p x = some y) x x) : x = root := by
  obtain ⟨y, hp, hyx⟩ := TransGen.head'_iff.mp hx
  have heq : x = y := h.antisymm (Chain.head hp (Chain.refl y)) hyx
  rw [← heq] at hp
  have hroot : Chain p x root := h.above x (by rw [hp]; rfl)
  -- The chain to the root does not leave `x`.
  have hstay : ∀ z, Chain p x z → z = x := by
    intro z hz
    induction hz with
    | refl => rfl
    | tail _ hpw ih =>
        rw [ih, hp] at hpw
        exact (Option.some.inj hpw).symm
  exact (hstay root hroot).symm

theorem Rooted.isSome_parent {x y : ι} (hp : p x = some y) : (p y).isSome := by
  by_cases hx : x = root
  · rw [hx, h.self] at hp
    rw [← Option.some.inj hp, h.self]
    rfl
  · have hchain := Chain.of_parent hp (h.above x (by rw [hp]; rfl)) hx
    rcases hchain.cases_head with rfl | ⟨z, hpy, -⟩
    · rw [h.self]
      rfl
    · rw [hpy]
      rfl

theorem Rooted.isSome_of_chain {x y : ι} (hx : (p x).isSome) (hxy : Chain p x y) :
    (p y).isSome := by
  rcases ReflTransGen.cases_tail hxy with rfl | ⟨z, -, hp⟩
  · exact hx
  · exact h.isSome_parent hp

theorem Rooted.reparent {x d : ι} (hroot : x ≠ root) (hd : (p d).isSome) (hbelow : ¬ Chain p d x)
    (hx : q x = some d) (hq : ∀ y, y ≠ x → q y = p y) : Rooted q root := by
  have hdest : Chain q d root := by
    refine (h.above d hd).congr (fun y hy _ _ => hq y ?_)
    rintro rfl
    exact hbelow hy
  have habove : ∀ y, Chain p y root → Chain q y root := by
    intro y hy
    induction hy using ReflTransGen.head_induction_on with
    | refl => exact Chain.refl root
    | head hp _ ih =>
        rename_i y z _
        by_cases hyx : y = x
        · rw [hyx]
          exact Chain.head hx hdest
        · exact Chain.head ((hq y hyx).trans hp) ih
  refine ⟨(hq root (Ne.symm hroot)).trans h.self, fun y hy => ?_⟩
  by_cases hyx : y = x
  · rw [hyx]
    exact Chain.head hx hdest
  · rw [hq y hyx] at hy
    exact habove y (h.above y hy)

theorem Rooted.delete {x : ι} (hchild : ∀ y, p y ≠ some x) (hx : q x = none)
    (hq : ∀ y, y ≠ x → q y = p y) : Rooted q root := by
  have hroot : root ≠ x := by
    rintro rfl
    exact hchild root h.self
  refine ⟨(hq root hroot).trans h.self, fun y hy => ?_⟩
  have hyx : y ≠ x := by
    rintro rfl
    rw [hx] at hy
    cases hy
  rw [hq y hyx] at hy
  refine (h.above y hy).congr (fun z hz _ _ => hq z ?_)
  rintro rfl
  rcases ReflTransGen.cases_tail hz with heq | ⟨w, -, hw⟩
  · exact hyx heq.symm
  · exact hchild w hw

end rooted

end RagFlow.ParentTree
