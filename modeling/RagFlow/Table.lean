import Mathlib.Data.List.Nodup
import Mathlib.Data.Finset.Dedup
import Mathlib.Data.Finset.Lattice.Lemmas
import Mathlib.Algebra.BigOperators.Group.List.Basic
import Mathlib.Tactic.Abel

/-! # Tables with a primary key

A table is a list of rows whose keys are pairwise distinct; the distinctness is a field of the
structure, so a table with two rows under one key cannot be built.  The operations are those of
a relational store on one table:

* `insert?` appends a row and fails when its key is taken;
* `upsert` appends a row in place of the one that has its key, `put` writes it where that one
  stands;
* `deleteWhere p` and `updateWhere p f` act on the rows that satisfy `p`, the update leaving
  the keys alone;
* `select p` lists the rows that satisfy `p`, `get? k` is the row under the key `k`.

The lemmas describe the rows of the result, which rows are left alone (`Agree`), and for a change
of a single row the sum of a quantity over the table (`sum_insert?`, `sum_updateWhere`,
`sum_deleteWhere`). -/

namespace RagFlow

/-- Rows with pairwise distinct keys. -/
structure Table (ρ : Type) {κ : Type} (key : ρ → κ) where
  rows : List ρ
  nodup : (rows.map key).Nodup

namespace Table

variable {ρ κ : Type} {key : ρ → κ}

instance : Membership ρ (Table ρ key) := ⟨fun t r => r ∈ t.rows⟩

theorem mem_rows {t : Table ρ key} {r : ρ} : r ∈ t ↔ r ∈ t.rows := Iff.rfl

@[ext] theorem ext {t u : Table ρ key} (h : t.rows = u.rows) : t = u := by
  cases t
  cases u
  simp only at h
  subst h
  rfl

/-- The key determines the row. -/
theorem eq_of_key_eq (t : Table ρ key) {r r' : ρ} (h : r ∈ t) (h' : r' ∈ t)
    (hk : key r = key r') : r = r' :=
  List.inj_on_of_nodup_map t.nodup h h' hk

/-- The table without rows. -/
def empty : Table ρ key := ⟨[], List.nodup_nil⟩

instance : Inhabited (Table ρ key) := ⟨empty⟩

/-! ### Reading -/

/-- The rows that satisfy `p`. -/
def select (t : Table ρ key) (p : ρ → Bool) : List ρ := t.rows.filter p

/-- The row under the key `k`. -/
def get? [DecidableEq κ] (t : Table ρ key) (k : κ) : Option ρ := t.rows.find? (key · = k)

@[simp] theorem mem_select {t : Table ρ key} {p : ρ → Bool} {r : ρ} :
    r ∈ t.select p ↔ r ∈ t ∧ p r = true := by
  simp [select, mem_rows]

theorem get?_eq_some [DecidableEq κ] {t : Table ρ key} {k : κ} {r : ρ} :
    t.get? k = some r ↔ r ∈ t ∧ key r = k := by
  constructor
  · intro h
    exact ⟨List.mem_of_find?_eq_some h, by simpa using List.find?_some h⟩
  · rintro ⟨hr, hk⟩
    cases hg : t.get? k with
    | none =>
        have := List.find?_eq_none.mp hg r hr
        simp [hk] at this
    | some r' =>
        have hk' : key r' = k := by simpa using List.find?_some hg
        rw [t.eq_of_key_eq hr (List.mem_of_find?_eq_some hg) (hk.trans hk'.symm)]

theorem get?_eq_none [DecidableEq κ] {t : Table ρ key} {k : κ} :
    t.get? k = none ↔ ∀ r ∈ t, key r ≠ k := by
  simp [get?, mem_rows]

theorem mem_keys [DecidableEq κ] {t : Table ρ key} {k : κ} :
    k ∈ t.rows.map key ↔ ∃ r, t.get? k = some r := by
  rw [List.mem_map]
  exact exists_congr (fun r => get?_eq_some.symm)

/-! ### Writing -/

/-- Insert a row; `none` when its key is taken. -/
def insert? [DecidableEq κ] (t : Table ρ key) (r : ρ) : Option (Table ρ key) :=
  if h : key r ∈ t.rows.map key then none
  else some ⟨t.rows ++ [r], by
    rw [List.map_append, List.nodup_append]
    refine ⟨t.nodup, by simp, ?_⟩
    intro a ha b hb
    rw [List.map_singleton, List.mem_singleton] at hb
    subst hb
    exact fun hab => h (hab ▸ ha)⟩

/-- Delete the rows that satisfy `p`. -/
def deleteWhere (t : Table ρ key) (p : ρ → Bool) : Table ρ key :=
  ⟨t.rows.filter (fun r => !p r), t.nodup.sublist (List.filter_sublist.map key)⟩

/-- Rewrite the rows that satisfy `p`. -/
def updateWhere (t : Table ρ key) (p : ρ → Bool) (f : ρ → ρ) (hf : ∀ r, key (f r) = key r) :
    Table ρ key :=
  ⟨t.rows.map (fun r => if p r then f r else r), by
    have h : (t.rows.map (fun r => if p r then f r else r)).map key = t.rows.map key := by
      rw [List.map_map]
      apply List.map_congr_left
      intro r _
      show key (if p r then f r else r) = key r
      split_ifs
      · exact hf r
      · rfl
    rw [h]
    exact t.nodup⟩

/-- Insert a row in place of the row that has its key. -/
def upsert [DecidableEq κ] (t : Table ρ key) (r : ρ) : Table ρ key :=
  ⟨(t.deleteWhere (key · = key r)).rows ++ [r], by
    rw [List.map_append, List.nodup_append]
    refine ⟨(t.deleteWhere _).nodup, by simp, ?_⟩
    intro a ha b hb
    rw [List.map_singleton, List.mem_singleton] at hb
    subst hb
    obtain ⟨r', hr', rfl⟩ := List.mem_map.mp ha
    simpa [deleteWhere] using (List.mem_filter.mp hr').2⟩

theorem insert?_eq_some [DecidableEq κ] {t u : Table ρ key} {r : ρ} (h : t.insert? r = some u) :
    (∀ r' ∈ t, key r' ≠ key r) ∧ u.rows = t.rows ++ [r] := by
  unfold insert? at h
  split_ifs at h with hk
  cases h
  refine ⟨fun r' hr' he => hk ?_, rfl⟩
  exact he ▸ List.mem_map_of_mem hr'

theorem mem_insert? [DecidableEq κ] {t u : Table ρ key} {r x : ρ} (h : t.insert? r = some u) :
    x ∈ u ↔ x ∈ t ∨ x = r := by
  rw [mem_rows, (insert?_eq_some h).2]
  simp [mem_rows]

@[simp] theorem mem_deleteWhere {t : Table ρ key} {p : ρ → Bool} {r : ρ} :
    r ∈ t.deleteWhere p ↔ r ∈ t ∧ p r = false := by
  simp [deleteWhere, mem_rows]

theorem mem_updateWhere {t : Table ρ key} {p : ρ → Bool} {f : ρ → ρ}
    {hf : ∀ r, key (f r) = key r} {x : ρ} :
    x ∈ t.updateWhere p f hf ↔ (x ∈ t ∧ p x = false) ∨ ∃ r ∈ t, p r = true ∧ f r = x := by
  simp only [updateWhere, mem_rows, List.mem_map]
  constructor
  · rintro ⟨r, hr, rfl⟩
    cases hp : p r with
    | true => exact .inr ⟨r, hr, hp, by simp⟩
    | false => exact .inl ⟨by simpa using hr, by simpa using hp⟩
  · rintro (⟨hx, hp⟩ | ⟨r, hr, hp, rfl⟩)
    · exact ⟨x, hx, by simp [hp]⟩
    · exact ⟨r, hr, by simp [hp]⟩

theorem mem_upsert [DecidableEq κ] {t : Table ρ key} {r x : ρ} :
    x ∈ t.upsert r ↔ (x ∈ t ∧ key x ≠ key r) ∨ x = r := by
  simp only [upsert, mem_rows, List.mem_append, List.mem_singleton]
  rw [← mem_rows, mem_deleteWhere]
  simp [mem_rows]

theorem mem_foldl_upsert [DecidableEq κ] {rs : List ρ} {x : ρ} : ∀ {t : Table ρ key},
    x ∈ rs.foldl upsert t → x ∈ t ∨ x ∈ rs := by
  induction rs with
  | nil => intro t h; exact Or.inl h
  | cons r rs ih =>
      intro t h
      rcases ih h with h | h
      · rcases mem_upsert.mp h with ⟨h, -⟩ | rfl
        · exact Or.inl h
        · exact Or.inr List.mem_cons_self
      · exact Or.inr (List.mem_cons_of_mem r h)

/-! ### Frames -/

/-- The two tables have the same rows among those in `p`. -/
def Agree (p : ρ → Prop) (t u : Table ρ key) : Prop := ∀ r, p r → (r ∈ u ↔ r ∈ t)

namespace Agree

variable {p : ρ → Prop} {t u v : Table ρ key}

theorem refl : Agree p t t := fun _ _ => Iff.rfl

theorem trans (h : Agree p t u) (h' : Agree p u v) : Agree p t v :=
  fun r hr => (h' r hr).trans (h r hr)

theorem insert? [DecidableEq κ] {x : ρ} (h : t.insert? x = some u) (hx : ¬p x) :
    Agree p t u := by
  intro r hr
  rw [mem_insert? h]
  exact ⟨fun hor => hor.resolve_right (fun he => hx (he ▸ hr)), Or.inl⟩

theorem deleteWhere {q : ρ → Bool} (hq : ∀ r ∈ t, p r → q r = false) :
    Agree p t (t.deleteWhere q) := by
  intro r hr
  rw [mem_deleteWhere]
  exact ⟨And.left, fun h => ⟨h, hq r h hr⟩⟩

theorem updateWhere {q : ρ → Bool} {f : ρ → ρ} {hf : ∀ r, key (f r) = key r}
    (hq : ∀ r ∈ t, q r = true → ¬p r ∧ ¬p (f r)) : Agree p t (t.updateWhere q f hf) := by
  intro r hr
  rw [mem_updateWhere]
  constructor
  · rintro (⟨h, -⟩ | ⟨r', hr', hq', rfl⟩)
    · exact h
    · exact absurd hr (hq r' hr' hq').2
  · intro h
    refine Or.inl ⟨h, ?_⟩
    cases hqr : q r with
    | false => rfl
    | true => exact absurd hr (hq r h hqr).1

end Agree

/-! ### One row of a table -/

section key
variable [DecidableEq κ] {t : Table ρ key} {k : κ} {f : ρ → ρ} {hf : ∀ r, key (f r) = key r}

theorem updateWhere_updateWhere {g : ρ → ρ} {hg : ∀ r, key (g r) = key r} :
    (t.updateWhere (key · = k) f hf).updateWhere (key · = k) g hg =
      t.updateWhere (key · = k) (fun r => g (f r)) (fun r => (hg (f r)).trans (hf r)) := by
  apply ext
  simp only [updateWhere, List.map_map]
  apply List.map_congr_left
  intro r _
  by_cases hr : key r = k
  · simp [hr, hf r]
  · simp [hr]

theorem updateWhere_of_get?_eq_none (h : t.get? k = none) :
    t.updateWhere (key · = k) f hf = t := by
  apply ext
  have hk := get?_eq_none.mp h
  show t.rows.map _ = t.rows
  conv_rhs => rw [← List.map_id t.rows]
  apply List.map_congr_left
  intro r hr
  simp [hk r hr]

theorem get?_updateWhere {j : κ} : (t.updateWhere (key · = k) f hf).get? j =
    if j = k then (t.get? j).map f else t.get? j := by
  unfold get? updateWhere
  dsimp only
  induction t.rows with
  | nil => simp
  | cons r rows ih =>
      by_cases hr : key r = k
      · by_cases hj : j = k
        · simp [hr, hj, hf r]
        · have hrj : key r ≠ j := fun h => hj (h ▸ hr)
          simpa [hr, hj, hf r, Ne.symm hj, hrj] using ih
      · by_cases hrj : key r = j
        · have hj : j ≠ k := hrj ▸ hr
          simp [hrj, hj]
        · simpa [hr, hrj] using ih

theorem get?_updateAll (j : κ) :
    (t.updateWhere (fun _ => true) f hf).get? j = (t.get? j).map f := by
  cases hget : t.get? j with
  | none =>
      rw [Option.map_none, get?_eq_none]
      intro x hx
      rcases mem_updateWhere.mp hx with ⟨-, hx⟩ | ⟨r, hr, -, rfl⟩
      · cases hx
      · rw [hf]
        exact get?_eq_none.mp hget r hr
  | some r =>
      obtain ⟨hr, hk⟩ := get?_eq_some.mp hget
      exact get?_eq_some.mpr ⟨mem_updateWhere.mpr (.inr ⟨r, hr, rfl, rfl⟩), (hf r).trans hk⟩

end key

/-! ### Putting a row under its key -/

section put
variable [DecidableEq κ] {t : Table ρ key} {r : ρ}

/-- Insert a row, or rewrite the row that has its key where it stands. -/
def put (t : Table ρ key) (r : ρ) : Table ρ key :=
  match t.insert? r with
  | some u => u
  | none => t.updateWhere (key · = key r) (fun x => if key x = key r then r else x) (fun x => by
      split_ifs with h
      · exact h.symm
      · rfl)

theorem insert?_eq_none : t.insert? r = none ↔ ∃ x, t.get? (key r) = some x := by
  unfold insert?
  split_ifs with h
  · exact ⟨fun _ => mem_keys.mp h, fun _ => rfl⟩
  · exact ⟨fun hsome => (by cases hsome), fun hx => absurd (mem_keys.mpr hx) h⟩

theorem get?_insert? {u : Table ρ key} (h : t.insert? r = some u) (k : κ) :
    u.get? k = if k = key r then some r else t.get? k := by
  obtain ⟨hnew, hrows⟩ := insert?_eq_some h
  unfold get?
  rw [hrows, List.find?_append]
  split_ifs with hk
  · subst hk
    have hnone : t.rows.find? (key · = key r) = none :=
      List.find?_eq_none.mpr (fun x hx => by simpa using hnew x hx)
    rw [hnone]
    simp
  · have hother : [r].find? (key · = k) = none := by simp [Ne.symm hk]
    rw [hother, Option.or_none]

theorem get?_put (k : κ) : (t.put r).get? k = if k = key r then some r else t.get? k := by
  unfold put
  cases hins : t.insert? r with
  | none =>
      obtain ⟨x, hx⟩ := insert?_eq_none.mp hins
      simp only
      rw [get?_updateWhere]
      split_ifs with hk
      · subst hk
        rw [hx, Option.map_some, if_pos (get?_eq_some.mp hx).2]
      · rfl
  | some u => exact get?_insert? hins k

theorem get?_upsert (k : κ) :
    (t.upsert r).get? k = if k = key r then some r else t.get? k := by
  split_ifs with hk
  · exact get?_eq_some.mpr ⟨mem_upsert.mpr (.inr rfl), hk.symm⟩
  · cases hget : t.get? k with
    | none =>
        rw [get?_eq_none]
        intro x hx
        rcases mem_upsert.mp hx with ⟨hx, -⟩ | rfl
        · exact get?_eq_none.mp hget x hx
        · exact Ne.symm hk
    | some x =>
        obtain ⟨hx, hkey⟩ := get?_eq_some.mp hget
        exact get?_eq_some.mpr ⟨mem_upsert.mpr (.inl ⟨hx, fun h => hk (hkey.symm.trans h)⟩), hkey⟩

/-- The row under a key after a deletion. -/
theorem get?_deleteWhere_eq_filter (p : ρ → Bool) (k : κ) :
    (t.deleteWhere p).get? k = (t.get? k).filter (fun r => !p r) := by
  cases hget : t.get? k with
  | none =>
      rw [Option.filter_none, get?_eq_none]
      exact fun x hx => get?_eq_none.mp hget x (mem_deleteWhere.mp hx).1
  | some r =>
      obtain ⟨hr, hk⟩ := get?_eq_some.mp hget
      cases hp : p r with
      | true =>
          simp only [Option.filter_some, hp, Bool.not_true, Bool.false_eq_true, if_false]
          rw [get?_eq_none]
          intro x hx hxk
          obtain ⟨hx, hpx⟩ := mem_deleteWhere.mp hx
          rw [t.eq_of_key_eq hx hr (hxk.trans hk.symm), hp] at hpx
          cases hpx
      | false =>
          simp only [Option.filter_some, hp, Bool.not_false, if_true]
          exact get?_eq_some.mpr ⟨mem_deleteWhere.mpr ⟨hr, hp⟩, hk⟩

theorem get?_deleteWhere (k j : κ) :
    (t.deleteWhere (key · = k)).get? j = if j = k then none else t.get? j := by
  split_ifs with hj
  · rw [get?_eq_none]
    intro x hx hk
    have hfalse := (mem_deleteWhere.mp hx).2
    rw [hk, hj, decide_eq_false_iff_not] at hfalse
    exact hfalse rfl
  · cases hget : t.get? j with
    | none =>
        rw [get?_eq_none] at hget ⊢
        exact fun x hx => hget x (mem_deleteWhere.mp hx).1
    | some x =>
        obtain ⟨hx, hk⟩ := get?_eq_some.mp hget
        refine get?_eq_some.mpr ⟨mem_deleteWhere.mpr ⟨hx, ?_⟩, hk⟩
        rw [hk]
        exact decide_eq_false hj

end put

/-! ### Sums over a table -/

section sum
variable {M : Type} [AddCommMonoid M]

/-- The sum of `g` over the rows. -/
def sum (t : Table ρ key) (g : ρ → M) : M := (t.rows.map g).sum

variable [DecidableEq κ] {t u : Table ρ key} {g : ρ → M} {k : κ} {r : ρ}

theorem sum_insert? (h : t.insert? r = some u) : u.sum g = t.sum g + g r := by
  unfold sum
  rw [(insert?_eq_some h).2, List.map_append, List.sum_append, List.map_singleton,
    List.sum_singleton]

/-- The rows before and after the row with the key `k`; none of them has this key. -/
theorem exists_append_of_get?_eq_some (h : t.get? k = some r) :
    ∃ a b, t.rows = a ++ r :: b ∧ key r = k ∧ ∀ x ∈ a ++ b, key x ≠ k := by
  obtain ⟨hr, hk⟩ := get?_eq_some.mp h
  obtain ⟨a, b, hrows⟩ := List.append_of_mem hr
  refine ⟨a, b, hrows, hk, ?_⟩
  have hnodup := t.nodup
  rw [hrows, List.map_append, List.map_cons, List.nodup_middle, List.nodup_cons,
    ← List.map_append] at hnodup
  intro x hx hxk
  exact hnodup.1 (hk ▸ hxk ▸ List.mem_map_of_mem hx)

theorem sum_updateWhere {f : ρ → ρ} {hf : ∀ r, key (f r) = key r} (h : t.get? k = some r) :
    (t.updateWhere (key · = k) f hf).sum g + g r = t.sum g + g (f r) := by
  obtain ⟨a, b, hrows, hk, hab⟩ := exists_append_of_get?_eq_some h
  have hfix : ∀ l : List ρ, (∀ x ∈ l, key x ≠ k) →
      l.map (fun x => if decide (key x = k) = true then f x else x) = l := by
    intro l hl
    conv_rhs => rw [← List.map_id l]
    apply List.map_congr_left
    intro x hx
    simp [hl x hx]
  have ha := hfix a (fun x hx => hab x (List.mem_append_left b hx))
  have hb := hfix b (fun x hx => hab x (List.mem_append_right a hx))
  unfold sum updateWhere
  dsimp only
  rw [hrows, List.map_append, List.map_cons, ha, hb]
  simp only [hk, decide_true, if_true, List.map_append, List.map_cons, List.sum_append,
    List.sum_cons]
  abel

theorem sum_deleteWhere (h : t.get? k = some r) :
    (t.deleteWhere (key · = k)).sum g + g r = t.sum g := by
  obtain ⟨a, b, hrows, hk, hab⟩ := exists_append_of_get?_eq_some h
  have hkeep : ∀ l : List ρ, (∀ x ∈ l, key x ≠ k) →
      l.filter (fun x => !decide (key x = k)) = l := by
    intro l hl
    rw [List.filter_eq_self]
    intro x hx
    simp [hl x hx]
  have ha := hkeep a (fun x hx => hab x (List.mem_append_left b hx))
  have hb := hkeep b (fun x hx => hab x (List.mem_append_right a hx))
  unfold sum deleteWhere
  dsimp only
  rw [hrows, List.filter_append, List.filter_cons, ha, hb]
  simp only [hk, decide_true, Bool.not_true, Bool.false_eq_true, if_false, List.map_append,
    List.map_cons, List.sum_append, List.sum_cons]
  abel

end sum

end Table

/-! ### Loops over rows -/

section loops
variable {σ ρ ε : Type} {step : σ → ρ → Except ε σ} {l : List ρ} {s s' : σ}

theorem bind_eq_ok {ε α β : Type} {x : Except ε α} {f : α → Except ε β} {b : β}
    (h : (x >>= f) = .ok b) : ∃ a, x = .ok a ∧ f a = .ok b := by
  cases x with
  | error e => cases h
  | ok a => exact ⟨a, rfl, h⟩

theorem ok_bind {ε α β : Type} (a : α) (f : α → Except ε β) : (Except.ok a >>= f) = f a := rfl

theorem foldlM_cons_eq_ok {r : ρ} :
    (r :: l).foldlM step s = .ok s' ↔ ∃ s₁, step s r = .ok s₁ ∧ l.foldlM step s₁ = .ok s' := by
  rw [List.foldlM_cons]
  cases step s r with
  | error e => exact ⟨fun h => (by cases h), fun ⟨_, h, _⟩ => by cases h⟩
  | ok s₁ =>
      refine ⟨fun h => ⟨s₁, rfl, h⟩, ?_⟩
      rintro ⟨s₂, h, hrun⟩
      cases h
      exact hrun

/-- A traversal that succeeds, element by element. -/
theorem mapM_eq_ok_iff {α β : Type} {f : α → Except ε β} {l : List α} {ys : List β} :
    l.mapM f = .ok ys ↔ l.map f = ys.map Except.ok := by
  induction l generalizing ys with
  | nil =>
      cases ys with
      | nil => exact ⟨fun _ => rfl, fun _ => rfl⟩
      | cons y ys => exact ⟨fun h => (by cases h), fun h => by cases h⟩
  | cons x l ih =>
      rw [List.mapM_cons, List.map_cons]
      cases hx : f x with
      | error e =>
          refine ⟨fun h => (by cases h), fun h => ?_⟩
          cases ys with
          | nil => cases h
          | cons y ys => cases h
      | ok y =>
          show (do let zs ← l.mapM f; pure (y :: zs)) = Except.ok ys ↔ _
          cases hl : l.mapM f with
          | error e =>
              refine ⟨fun h => (by cases h), fun h => ?_⟩
              cases ys with
              | nil => cases h
              | cons z ys =>
                  rw [List.map_cons, List.cons.injEq] at h
                  rw [ih.mpr h.2] at hl
                  cases hl
          | ok zs =>
              constructor
              · intro h
                cases h
                rw [List.map_cons, ih.mp hl]
              · intro h
                cases ys with
                | nil => cases h
                | cons z ys =>
                    rw [List.map_cons, List.cons.injEq] at h
                    rw [ih.mpr h.2] at hl
                    cases h.1
                    cases hl
                    rfl

theorem exists_mapM_eq_ok {α β ε : Type} {f : α → Except ε β} (l : List α)
    (h : ∀ x ∈ l, (f x).isOk) : ∃ ys, l.mapM f = .ok ys := by
  simp only [mapM_eq_ok_iff]
  induction l with
  | nil => exact ⟨[], rfl⟩
  | cons x l ih =>
      obtain ⟨ys, hys⟩ := ih (fun y hy => h y (List.mem_cons_of_mem x hy))
      have hx := h x List.mem_cons_self
      cases hfx : f x with
      | error e =>
          rw [hfx] at hx
          cases hx
      | ok y => exact ⟨y :: ys, by rw [List.map_cons, List.map_cons, hfx, hys]⟩

/-- What every round keeps, the loop keeps. -/
theorem foldlM_keeps {P : σ → Prop} (h : ∀ r ∈ l, ∀ s s', P s → step s r = .ok s' → P s')
    (hs : P s) (hrun : l.foldlM step s = .ok s') : P s' := by
  induction l generalizing s with
  | nil =>
      cases hrun
      exact hs
  | cons r l ih =>
      obtain ⟨s₁, hstep, hrun⟩ := foldlM_cons_eq_ok.mp hrun
      exact ih (fun r hr => h r (List.mem_cons_of_mem _ hr))
        (h r List.mem_cons_self s s₁ hs hstep) hrun

/-- A loop whose rounds succeed and keep an invariant of what has been gone through. -/
theorem foldlM_spec (P : List ρ → σ → Prop)
    (h : ∀ seen r s, r ∈ l → P seen s → ∃ s', step s r = .ok s' ∧ P (seen ++ [r]) s')
    (seen : List ρ) (hs : P seen s) : ∃ s', l.foldlM step s = .ok s' ∧ P (seen ++ l) s' := by
  induction l generalizing seen s with
  | nil => exact ⟨s, rfl, by rwa [List.append_nil]⟩
  | cons r l ih =>
      obtain ⟨s₁, hstep, hs₁⟩ := h seen r s List.mem_cons_self hs
      obtain ⟨s', hrun, hs'⟩ :=
        ih (fun seen r s hr => h seen r s (List.mem_cons_of_mem _ hr)) _ hs₁
      exact ⟨s', foldlM_cons_eq_ok.mpr ⟨s₁, hstep, hrun⟩, by rwa [List.append_assoc] at hs'⟩

/-- A loop seen through `view`: where every round is a round of another loop, so is the loop. -/
theorem foldlM_map {τ ω : Type} {step' : τ → ω → Except ε τ} (view : τ → σ) (arg : ω → ρ)
    (h : ∀ t x, (step' t x).map view = step (view t) (arg x)) (l : List ω) :
    ∀ t, (l.foldlM step' t).map view = (l.map arg).foldlM step (view t) := by
  induction l with
  | nil => exact fun t => rfl
  | cons x l ih =>
      intro t
      rw [List.map_cons, List.foldlM_cons, List.foldlM_cons, ← h t x]
      cases step' t x with
      | error e => rfl
      | ok t₁ => exact ih t₁

/-- A set to which every round adds an element. -/
theorem foldlM_collects {τ : Type} [DecidableEq τ] {f : σ → Finset τ} {item : ρ → τ}
    (h : ∀ s r s', step s r = .ok s' → f s' = insert (item r) (f s))
    (hrun : l.foldlM step s = .ok s') : f s' = f s ∪ (l.map item).toFinset := by
  induction l generalizing s with
  | nil =>
      cases hrun
      simp
  | cons r l ih =>
      obtain ⟨s₁, hstep, hrun⟩ := foldlM_cons_eq_ok.mp hrun
      rw [ih hrun, h s r s₁ hstep, List.map_cons, List.toFinset_cons, Finset.insert_union,
        Finset.union_insert]

/-- A loop that merges rows with distinct keys into a store: what is under a key afterwards is
joined from what was there and what the row under this key has. -/
theorem foldlM_merges {κ τ : Type} [DecidableEq κ] (key : ρ → κ) (val : ρ → τ)
    (look : σ → κ → Option τ) (join : τ → τ → τ) (fits : τ → τ → Prop)
    (hstep : ∀ s r, (∀ a, look s (key r) = some a → fits a (val r)) →
      ∃ s', step s r = .ok s' ∧ ∀ k, look s' k =
        if k = key r then (look s k).merge join (some (val r)) else look s k)
    (hkeys : (l.map key).Nodup)
    (hfits : ∀ r ∈ l, ∀ a, look s (key r) = some a → fits a (val r)) :
    ∃ s', l.foldlM step s = .ok s' ∧
      ∀ k, look s' k = (look s k).merge join ((l.find? (key · = k)).map val) := by
  induction l generalizing s with
  | nil => exact ⟨s, rfl, fun k => by simp⟩
  | cons r l ih =>
      rw [List.map_cons, List.nodup_cons] at hkeys
      obtain ⟨s₁, hs₁, hlook₁⟩ := hstep s r (hfits r List.mem_cons_self)
      have hne : ∀ x ∈ l, key x ≠ key r := fun x hx he => hkeys.1 (he ▸ List.mem_map_of_mem hx)
      obtain ⟨s', hs', hlook⟩ := ih (s := s₁) hkeys.2 (fun x hx a ha => by
        rw [hlook₁, if_neg (hne x hx)] at ha
        exact hfits x (List.mem_cons_of_mem _ hx) a ha)
      refine ⟨s', foldlM_cons_eq_ok.mpr ⟨s₁, hs₁, hs'⟩, fun k => ?_⟩
      rw [hlook, hlook₁, List.find?_cons]
      by_cases hk : k = key r
      · subst hk
        have hnone : l.find? (key · = key r) = none :=
          List.find?_eq_none.mpr (fun x hx => by simpa using hne x hx)
        simp [hnone]
      · have hk' : decide (key r = k) = false := decide_eq_false (Ne.symm hk)
        rw [if_neg hk, hk']

end loops

end RagFlow
