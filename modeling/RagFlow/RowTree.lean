import RagFlow.Table
import Mathlib.Algebra.Order.BigOperators.Group.List
import Mathlib.Algebra.Order.Group.Nat
import Mathlib.Data.List.Perm.Basic
import Mathlib.Logic.Function.Basic

/-! # Rows that form a forest

The rows of a table name their parents by key; a root is its own parent.

* **Below.** `Below t k r`: the row `r` is reached from the key `k` by going to children.  If the
  ranks of the rows increase from the parents to the children, what is below two children of one
  parent is disjoint (`Within.eq_of_children`).
* **Search.** `descend` is the list of what is below a key in the order of a depth-first search: it
  has all of it (`mem_descend`) and has it once (`nodup_descend`), so the search sums over it
  (`sum_descend`).
* **Changes.** The ranks and the parents stay when a row is put under another one, and when rows
  are deleted with all that is below them. -/

namespace RagFlow.RowTree

variable {ρ κ : Type} {key : ρ → κ} [DecidableEq κ]

/-- The rows that have `k` as their parent. -/
def children (parent : ρ → κ) (t : Table ρ key) (k : κ) : List ρ :=
  t.select (fun r => parent r = k && key r ≠ k)

inductive Below (parent : ρ → κ) (t : Table ρ key) : κ → ρ → Prop
  | child {k r} (h : r ∈ children parent t k) : Below parent t k r
  | step {k c r} (h : c ∈ children parent t k) (hr : Below parent t (key c) r) :
      Below parent t k r

/-- `r` is `c` or below it. -/
def Within (parent : ρ → κ) (t : Table ρ key) (c r : ρ) : Prop := r = c ∨ Below parent t (key c) r

/-- The ranks increase from the parents to the children. -/
def Ranked (parent : ρ → κ) (rank : κ → ℕ) (t : Table ρ key) : Prop :=
  ∀ r ∈ t, parent r ≠ key r → rank (parent r) < rank (key r)

/-- Every parent is there and satisfies `P`. -/
def Closed (parent : ρ → κ) (P : ρ → Prop) (t : Table ρ key) : Prop :=
  ∀ r ∈ t, ∃ p ∈ t, key p = parent r ∧ P p

variable {parent : ρ → κ} {rank : κ → ℕ} {P : ρ → Prop} {t u : Table ρ key} {k : κ} {c c' r : ρ}

theorem mem_children : r ∈ children parent t k ↔ r ∈ t ∧ parent r = k ∧ key r ≠ k := by
  rw [children, Table.mem_select, Bool.and_eq_true, decide_eq_true_eq, decide_eq_true_eq]

theorem nodup_children (parent : ρ → κ) (t : Table ρ key) (k : κ) :
    (children parent t k).Nodup := (List.Nodup.of_map key t.nodup).filter _

/-! ### What is below -/

theorem Below.mem (h : Below parent t k r) : r ∈ t := by
  induction h with
  | child h => exact (mem_children.mp h).1
  | step _ _ ih => exact ih

theorem Below.parent_ne (h : Below parent t k r) : parent r ≠ key r := by
  induction h with
  | child h =>
      obtain ⟨-, rfl, hne⟩ := mem_children.mp h
      exact Ne.symm hne
  | step _ _ ih => exact ih

/-- The last step. -/
theorem Below.cases_tail (h : Below parent t k r) :
    parent r = k ∨ ∃ m, key m = parent r ∧ m ∈ t ∧ Below parent t k m := by
  induction h with
  | child h => exact .inl (mem_children.mp h).2.1
  | step hc hr ih =>
      rename_i k c r
      rcases ih with hp | ⟨m, hm, hmem, hbelow⟩
      · exact .inr ⟨c, hp.symm, (mem_children.mp hc).1, .child hc⟩
      · exact .inr ⟨m, hm, hmem, .step hc hbelow⟩

theorem Below.tail (h : Below parent t k c) (hr : r ∈ children parent t (key c)) :
    Below parent t k r := by
  induction h with
  | child h => exact .step h (.child hr)
  | step h _ ih => exact .step h (ih hr)

section ranked
variable (hrank : Ranked parent rank t)
include hrank

theorem Ranked.child_lt (h : r ∈ children parent t k) : rank k < rank (key r) := by
  obtain ⟨hr, rfl, hne⟩ := mem_children.mp h
  exact hrank r hr (Ne.symm hne)

theorem Ranked.below_lt (h : Below parent t k r) : rank k < rank (key r) := by
  induction h with
  | child h => exact hrank.child_lt h
  | step h _ ih => exact (hrank.child_lt h).trans ih

theorem Ranked.le_parent (h : Below parent t k r) : rank k ≤ rank (parent r) := by
  rcases h.cases_tail with hp | ⟨m, hm, -, hbelow⟩
  · rw [hp]
  · rw [← hm]
    exact (hrank.below_lt hbelow).le

/-- A child is not below another one. -/
theorem Ranked.not_below_sibling (hc : c ∈ children parent t k) (hc' : c' ∈ children parent t k) :
    ¬ Below parent t (key c) c' := by
  intro hbelow
  have hle := hrank.le_parent hbelow
  rw [(mem_children.mp hc').2.1] at hle
  exact absurd (hrank.child_lt hc) (Nat.not_lt.mpr hle)

theorem Within.eq_of_children (hc : c ∈ children parent t k) (hc' : c' ∈ children parent t k)
    (h : Within parent t c r) (h' : Within parent t c' r) : c = c' := by
  induction hn : rank (key r) using Nat.strong_induction_on generalizing r with
  | _ n ih =>
      rcases h with rfl | hbelow
      · rcases h' with rfl | hbelow'
        · rfl
        · exact absurd hbelow' (hrank.not_below_sibling hc' hc)
      · rcases h' with rfl | hbelow'
        · exact absurd hbelow (hrank.not_below_sibling hc hc')
        · -- Go to the parent of `r`, which is within both.
          have hparent : ∀ {d}, d ∈ children parent t k → Below parent t (key d) r →
              ∃ m, key m = parent r ∧ m ∈ t ∧ Within parent t d m := by
            intro d hd hdr
            rcases hdr.cases_tail with hp | ⟨m, hm, hmem, hdm⟩
            · exact ⟨d, hp.symm, (mem_children.mp hd).1, .inl rfl⟩
            · exact ⟨m, hm, hmem, .inr hdm⟩
          obtain ⟨m, hm, hmem, hw⟩ := hparent hc hbelow
          obtain ⟨m', hm', hmem', hw'⟩ := hparent hc' hbelow'
          have heq : m = m' := t.eq_of_key_eq hmem hmem' (hm.trans hm'.symm)
          have hlt := hrank r hbelow.mem hbelow.parent_ne
          rw [← hm] at hlt
          exact ih _ (hn ▸ hlt) hw (heq ▸ hw') rfl

end ranked

/-! ### The search -/

/-- The rows below `k` in the order of a depth-first search, down to `n` generations. -/
def descend (parent : ρ → κ) (t : Table ρ key) : ℕ → κ → List ρ
  | 0, _ => []
  | n + 1, k => (children parent t k).flatMap (fun c => c :: descend parent t n (key c))

theorem below_of_mem_descend {n : ℕ} (h : r ∈ descend parent t n k) : Below parent t k r := by
  induction n generalizing k with
  | zero => cases h
  | succ n ih =>
      obtain ⟨c, hc, hr⟩ := List.mem_flatMap.mp h
      rcases List.mem_cons.mp hr with rfl | hr
      · exact .child hc
      · exact .step hc (ih hr)

section ranked
variable (hrank : Ranked parent rank t)
include hrank

theorem mem_descend {n : ℕ} (hn : ∀ r ∈ t, rank (key r) ≤ n + rank k) :
    r ∈ descend parent t n k ↔ Below parent t k r := by
  refine ⟨below_of_mem_descend, fun h => ?_⟩
  induction n generalizing k with
  | zero =>
      have hle := hn r h.mem
      have hlt := hrank.below_lt h
      omega
  | succ n ih =>
      have hnext : ∀ {c}, c ∈ children parent t k → ∀ r ∈ t, rank (key r) ≤ n + rank (key c) := by
        intro c hc r hr
        have hlt := hrank.child_lt hc
        have hle := hn r hr
        omega
      cases h with
      | child h => exact List.mem_flatMap.mpr ⟨r, h, List.mem_cons_self⟩
      | step hc hr => exact List.mem_flatMap.mpr ⟨_, hc, List.mem_cons_of_mem _ (ih (hnext hc) hr)⟩

theorem nodup_descend (n : ℕ) (k : κ) : (descend parent t n k).Nodup := by
  induction n generalizing k with
  | zero => exact List.nodup_nil
  | succ n ih =>
      refine List.nodup_flatMap.mpr ⟨fun c _ => ?_, ?_⟩
      · refine List.nodup_cons.mpr ⟨fun hself => ?_, ih (key c)⟩
        exact Nat.lt_irrefl _ (hrank.below_lt (below_of_mem_descend hself))
      · refine List.Pairwise.imp_of_mem ?_ (nodup_children parent t k)
        intro c c' hc hc' hne r hr hr'
        have hw : ∀ {d}, r ∈ d :: descend parent t n (key d) → Within parent t d r := by
          intro d hd
          rcases List.mem_cons.mp hd with heq | hd
          · exact .inl heq
          · exact .inr (below_of_mem_descend hd)
        exact hne (Within.eq_of_children hrank hc hc' (hw hr) (hw hr'))

end ranked

/-- The sum over the rows below `k`. -/
noncomputable def total (parent : ρ → κ) (t : Table ρ key) (g : ρ → ℕ) (k : κ) : ℕ :=
  open Classical in ((t.rows.filter (fun r => Below parent t k r)).map g).sum

theorem sum_descend (hrank : Ranked parent rank t) {n : ℕ}
    (hn : ∀ r ∈ t, rank (key r) ≤ n + rank k) (g : ρ → ℕ) :
    ((descend parent t n k).map g).sum = total parent t g k := by
  classical
  have hperm : (descend parent t n k).Perm
      (t.rows.filter (fun r => decide (Below parent t k r))) := by
    refine (List.perm_ext_iff_of_nodup (nodup_descend hrank n k)
      ((List.Nodup.of_map key t.nodup).filter _)).mpr (fun r => ?_)
    rw [mem_descend hrank hn, List.mem_filter, decide_eq_true_eq]
    exact ⟨fun h => ⟨h.mem, h⟩, fun h => h.2⟩
  unfold total
  exact (hperm.map g).sum_eq

omit [DecidableEq κ] in
/-- There is a bound of the ranks. -/
theorem exists_bound (rank : κ → ℕ) (t : Table ρ key) : ∃ n, ∀ r ∈ t, rank (key r) ≤ n := by
  refine ⟨(t.rows.map (fun r => rank (key r))).sum, fun r hr => ?_⟩
  exact List.le_sum_of_mem (List.mem_map_of_mem hr)

/-! ### Rows are added and deleted -/

theorem children_eq_nil_of_closed (hclosed : Closed parent P t) (hr : r ∈ t) (hleaf : ¬ P r) :
    children parent t (key r) = [] := by
  refine List.eq_nil_iff_forall_not_mem.mpr (fun c hc => ?_)
  obtain ⟨hmem, hparent, -⟩ := mem_children.mp hc
  obtain ⟨p, hp, hkey, hP⟩ := hclosed c hmem
  rw [t.eq_of_key_eq hp hr (hkey.trans hparent)] at hP
  exact hleaf hP

theorem not_below_of_closed (hclosed : Closed parent P t) (hr : r ∈ t) (hleaf : ¬ P r) :
    ¬ Below parent t (key r) c := by
  have hnil := children_eq_nil_of_closed hclosed hr hleaf
  intro h
  cases h with
  | child h =>
      rw [hnil] at h
      cases h
  | step h _ =>
      rw [hnil] at h
      cases h

/-- A new row below a parent that is there. -/
theorem Ranked.insert? (hrank : Ranked parent rank t) (hclosed : Closed parent P t)
    (h : t.insert? r = some u) :
    Ranked parent (Function.update rank (key r) (rank (parent r) + 1)) u := by
  obtain ⟨hnew, -⟩ := Table.insert?_eq_some h
  intro x hx hne
  rcases (Table.mem_insert? h).mp hx with hx | rfl
  · obtain ⟨p, hp, hkey, -⟩ := hclosed x hx
    rw [Function.update_of_ne (hnew x hx), Function.update_of_ne (hkey ▸ hnew p hp)]
    exact hrank x hx hne
  · rw [Function.update_self, Function.update_of_ne hne]
    exact Nat.lt_succ_self _

theorem Closed.insert? (hclosed : Closed parent P t) (h : t.insert? r = some u)
    (hparent : (∃ p ∈ t, key p = parent r ∧ P p) ∨ parent r = key r ∧ P r) :
    Closed parent P u := by
  intro x hx
  rcases (Table.mem_insert? h).mp hx with hx | rfl
  · obtain ⟨p, hp, hkey⟩ := hclosed x hx
    exact ⟨p, (Table.mem_insert? h).mpr (.inl hp), hkey⟩
  · rcases hparent with ⟨p, hp, hkey⟩ | ⟨hself, hP⟩
    · exact ⟨p, (Table.mem_insert? h).mpr (.inl hp), hkey⟩
    · exact ⟨x, hx, hself.symm, hP⟩

section delete
variable {q : ρ → Bool}

omit [DecidableEq κ] in
theorem Ranked.delete (hrank : Ranked parent rank t) : Ranked parent rank (t.deleteWhere q) :=
  fun r hr => hrank r (Table.mem_deleteWhere.mp hr).1

/-- The rows that are deleted have no child that stays. -/
def Downward (parent : ρ → κ) (t : Table ρ key) (q : ρ → Bool) : Prop :=
  ∀ p ∈ t, ∀ r ∈ t, parent r = key p → q p = true → q r = true

variable (hdown : Downward parent t q)
include hdown

omit [DecidableEq κ] in
theorem Closed.delete (hclosed : Closed parent P t) : Closed parent P (t.deleteWhere q) := by
  intro r hr
  obtain ⟨hmem, hq⟩ := Table.mem_deleteWhere.mp hr
  obtain ⟨p, hp, hkey, hP⟩ := hclosed r hmem
  refine ⟨p, Table.mem_deleteWhere.mpr ⟨hp, ?_⟩, hkey, hP⟩
  refine Bool.eq_false_iff.mpr (fun hqp => ?_)
  rw [hdown p hp r hmem hkey.symm hqp] at hq
  cases hq

/-- What is below a key after the deletion. -/
theorem below_delete :
    Below parent (t.deleteWhere q) k r ↔ Below parent t k r ∧ q r = false := by
  constructor
  · intro h
    refine ⟨?_, (Table.mem_deleteWhere.mp h.mem).2⟩
    induction h with
    | child hchild =>
        obtain ⟨hr, hp⟩ := mem_children.mp hchild
        exact .child (mem_children.mpr ⟨(Table.mem_deleteWhere.mp hr).1, hp⟩)
    | step hchild _ ih =>
        obtain ⟨hc, hp⟩ := mem_children.mp hchild
        exact .step (mem_children.mpr ⟨(Table.mem_deleteWhere.mp hc).1, hp⟩) ih
  · rintro ⟨h, hq⟩
    -- The rows between `k` and `r` stay, for `r` stays.
    have hkeep : ∀ {c}, c ∈ t → Below parent t (key c) r → q c = false := by
      clear h
      intro c hc hbelow
      generalize hkc : key c = kc at hbelow
      induction hbelow generalizing c with
      | child hchild =>
          refine Bool.eq_false_iff.mpr (fun hqc => ?_)
          obtain ⟨hr, hp, -⟩ := mem_children.mp hchild
          rw [hdown c hc _ hr (hp.trans hkc.symm) hqc] at hq
          cases hq
      | step hchild _ ih =>
          refine Bool.eq_false_iff.mpr (fun hqc => ?_)
          obtain ⟨hm, hp, -⟩ := mem_children.mp hchild
          have hqm := hdown c hc _ hm (hp.trans hkc.symm) hqc
          rw [ih hq hm rfl] at hqm
          cases hqm
    induction h with
    | child hchild =>
        obtain ⟨hr, hp⟩ := mem_children.mp hchild
        exact .child (mem_children.mpr ⟨Table.mem_deleteWhere.mpr ⟨hr, hq⟩, hp⟩)
    | step hchild hbelow ih =>
        obtain ⟨hc, hp⟩ := mem_children.mp hchild
        have hqc := hkeep hc hbelow
        exact .step (mem_children.mpr ⟨Table.mem_deleteWhere.mpr ⟨hc, hqc⟩, hp⟩) (ih hq hkeep)

end delete

end RagFlow.RowTree
