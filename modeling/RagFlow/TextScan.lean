import Mathlib.Data.List.Basic
import Mathlib.Tactic.Common

/-! # Scanning and replacing

Two operations that go through a list from left to right.

* `scan`: find the matches of a pattern, which is given by a function that matches it at the
  beginning of a list.  What is between two matches is kept item by item.
* `replaceAll`: replace the occurrences of a list.

`replaceAll_flatMap` says what a replacement does to a list that is put together from pieces: if the
occurrences are found at certain pieces only, these are replaced. -/

namespace RagFlow.Text

variable {α β τ : Type}

/-! ### Matches -/

/-- An item that belongs to no match, or a match. -/
inductive Token (α β : Type) where
  | item (x : α)
  | found (y : β)
deriving DecidableEq

/-- Matching takes something away from the list. -/
def Shrinks (match? : List α → Option (β × List α)) : Prop :=
  ∀ s y rest, match? s = some (y, rest) → rest.length < s.length

/-- The matches from left to right; there are at most `fuel` tokens. -/
def scanWith (match? : List α → Option (β × List α)) : ℕ → List α → List (Token α β)
  | 0, _ => []
  | _, [] => []
  | fuel + 1, x :: s =>
      match match? (x :: s) with
      | some (y, rest) => .found y :: scanWith match? fuel rest
      | none => .item x :: scanWith match? fuel s

def scan (match? : List α → Option (β × List α)) (s : List α) : List (Token α β) :=
  scanWith match? s.length s

section scan
variable {match? : List α → Option (β × List α)}

/-- More fuel than items changes nothing. -/
theorem scanWith_of_le (hmatch : Shrinks match?) (fuel : ℕ) :
    ∀ s : List α, s.length ≤ fuel → scanWith match? fuel s = scan match? s := by
  have hboth : ∀ n, ∀ s : List α, s.length ≤ n → ∀ m, s.length ≤ m →
      scanWith match? n s = scanWith match? m s := by
    intro n
    induction n with
    | zero =>
        intro s hs m _
        cases s with
        | nil => cases m <;> rfl
        | cons x s => simp at hs
    | succ n ih =>
        intro s hs m hm
        cases s with
        | nil => cases m <;> rfl
        | cons x s =>
            cases m with
            | zero => simp at hm
            | succ m =>
                simp only [List.length_cons] at hs hm
                unfold scanWith
                cases hfirst : match? (x :: s) with
                | none => rw [ih s (by omega) m (by omega)]
                | some found =>
                    obtain ⟨y, rest⟩ := found
                    have hlt := hmatch _ _ _ hfirst
                    simp only [List.length_cons] at hlt
                    simp only
                    rw [ih rest (by omega) m (by omega)]
  intro s hs
  exact hboth fuel s hs s.length (Nat.le_refl _)

@[simp] theorem scan_nil : scan match? [] = [] := rfl

theorem scan_found (hmatch : Shrinks match?) {s rest : List α} {y : β}
    (h : match? s = some (y, rest)) : scan match? s = .found y :: scan match? rest := by
  have hlt := hmatch _ _ _ h
  cases s with
  | nil => simp at hlt
  | cons x s =>
      simp only [List.length_cons] at hlt
      rw [scan, List.length_cons, scanWith, h]
      simp only
      rw [scanWith_of_le hmatch _ _ (by omega)]

theorem scan_item {x : α} {s : List α} (h : match? (x :: s) = none) :
    scan match? (x :: s) = .item x :: scan match? s := by
  rw [scan, List.length_cons, scanWith, h]
  rfl

/-- Induction along the matches. -/
theorem scan_induction (hmatch : Shrinks match?) {motive : List α → Prop} (nil : motive [])
    (found : ∀ s y rest, match? s = some (y, rest) → motive rest → motive s)
    (item : ∀ x s, match? (x :: s) = none → motive s → motive (x :: s)) (s : List α) :
    motive s := by
  have hall : ∀ n, ∀ s : List α, s.length ≤ n → motive s := by
    intro n
    induction n with
    | zero =>
        intro s hs
        rw [List.length_eq_zero_iff.mp (Nat.le_zero.mp hs)]
        exact nil
    | succ n ih =>
        intro s hs
        cases s with
        | nil => exact nil
        | cons x s =>
            cases hfirst : match? (x :: s) with
            | none =>
                simp only [List.length_cons] at hs
                exact item x s hfirst (ih s (by omega))
            | some first =>
                obtain ⟨y, rest⟩ := first
                have hlt := hmatch _ _ _ hfirst
                exact found _ y rest hfirst (ih rest (by omega))
  exact hall s.length s (Nat.le_refl _)

/-- Where no match begins in `w`, its items are kept. -/
theorem scan_append {w rest : List α}
    (h : ∀ u v, w = u ++ v → v ≠ [] → match? (v ++ rest) = none) :
    scan match? (w ++ rest) = w.map .item ++ scan match? rest := by
  induction w with
  | nil => rfl
  | cons x w ih =>
      have hx : match? (x :: (w ++ rest)) = none := h [] (x :: w) rfl (List.cons_ne_nil _ _)
      have hw : ∀ u v, w = u ++ v → v ≠ [] → match? (v ++ rest) = none :=
        fun u v huv => h (x :: u) v (by rw [huv, List.cons_append])
      rw [List.cons_append, scan_item hx, ih hw, List.map_cons, List.cons_append]

end scan

/-! ### Replacement -/

/-- In the list that is put together from the pieces, the occurrences of `pat` are found at the
pieces with `P` only: none begins within another piece. -/
def FoundOnlyAt (pat : List α) (f : τ → List α) (P : τ → Prop) (pieces : List τ) : Prop :=
  ∀ pre t post, pieces = pre ++ t :: post → ¬ P t →
    ∀ u v, f t = u ++ v → v ≠ [] → ¬ pat <+: v ++ post.flatMap f

theorem foundOnlyAt_cons {pat : List α} {f : τ → List α} {P : τ → Prop} {t : τ} {pieces : List τ} :
    FoundOnlyAt pat f P (t :: pieces) ↔
      (¬ P t → ∀ u v, f t = u ++ v → v ≠ [] → ¬ pat <+: v ++ pieces.flatMap f) ∧
        FoundOnlyAt pat f P pieces := by
  constructor
  · intro h
    refine ⟨h [] t pieces rfl, fun pre t' post hpieces => ?_⟩
    exact h (t :: pre) t' post (by rw [hpieces, List.cons_append])
  · rintro ⟨hfirst, hrest⟩ pre t' post hpieces
    cases pre with
    | nil =>
        obtain ⟨rfl, rfl⟩ := List.cons.inj hpieces
        exact hfirst
    | cons x pre =>
        obtain ⟨-, hpieces⟩ := List.cons.inj hpieces
        exact hrest pre t' post hpieces

section replace
variable [DecidableEq α]

/-- Replace the occurrences of a non-empty list from left to right, the next `skip` items being part
of one. -/
def replaceFrom (pat rep : List α) : ℕ → List α → List α
  | _, [] => []
  | skip + 1, _ :: s => replaceFrom pat rep skip s
  | 0, x :: s =>
      if pat.isPrefixOf (x :: s) then rep ++ replaceFrom pat rep (pat.length - 1) s
      else x :: replaceFrom pat rep 0 s

def replaceAll (pat rep s : List α) : List α := replaceFrom pat rep 0 s

variable {pat rep : List α}

theorem replaceFrom_eq_drop (skip : ℕ) :
    ∀ s : List α, replaceFrom pat rep skip s = replaceAll pat rep (s.drop skip) := by
  induction skip with
  | zero => exact fun s => rfl
  | succ skip ih =>
      intro s
      cases s with
      | nil => rfl
      | cons x s => exact ih s

theorem replaceAll_found (hpat : pat ≠ []) (rest : List α) :
    replaceAll pat rep (pat ++ rest) = rep ++ replaceAll pat rep rest := by
  cases pat with
  | nil => exact absurd rfl hpat
  | cons x pat =>
      have hprefix : (x :: pat).isPrefixOf (x :: (pat ++ rest)) := by
        rw [List.isPrefixOf_iff_prefix]
        exact ⟨rest, rfl⟩
      rw [replaceAll, List.cons_append, replaceFrom, if_pos hprefix, replaceFrom_eq_drop]
      simp

/-- Where no occurrence begins in `w`, it is kept. -/
theorem replaceAll_append {w rest : List α}
    (h : ∀ u v, w = u ++ v → v ≠ [] → ¬ pat <+: v ++ rest) :
    replaceAll pat rep (w ++ rest) = w ++ replaceAll pat rep rest := by
  induction w with
  | nil => rfl
  | cons x w ih =>
      have hx : ¬ pat.isPrefixOf (x :: (w ++ rest)) := by
        rw [List.isPrefixOf_iff_prefix]
        exact h [] (x :: w) rfl (List.cons_ne_nil _ _)
      have hw : ∀ u v, w = u ++ v → v ≠ [] → ¬ pat <+: v ++ rest :=
        fun u v huv => h (x :: u) v (by rw [huv, List.cons_append])
      have ih := ih hw
      unfold replaceAll at ih ⊢
      rw [List.cons_append, replaceFrom, if_neg hx, ih, List.cons_append]

theorem replaceAll_flatMap {f : τ → List α} {P : τ → Prop} [DecidablePred P] {pieces : List τ}
    (hpat : pat ≠ []) (hP : ∀ t ∈ pieces, P t → f t = pat) (hfound : FoundOnlyAt pat f P pieces) :
    replaceAll pat rep (pieces.flatMap f) = pieces.flatMap (fun t => if P t then rep else f t) := by
  induction pieces with
  | nil => rfl
  | cons t pieces ih =>
      obtain ⟨hfirst, hrest⟩ := foundOnlyAt_cons.mp hfound
      have ih := ih (fun t ht => hP t (List.mem_cons_of_mem _ ht)) hrest
      rw [List.flatMap_cons, List.flatMap_cons]
      by_cases ht : P t
      · rw [if_pos ht, hP t List.mem_cons_self ht, replaceAll_found hpat, ih]
      · rw [if_neg ht, replaceAll_append (hfirst ht), ih]

/-- Look for an occurrence that begins in the first part. -/
def occursIn (pat rest : List α) : List α → Bool
  | [] => false
  | x :: w => pat.isPrefixOf (x :: (w ++ rest)) || occursIn pat rest w

theorem occursIn_eq_false {rest w : List α} :
    occursIn pat rest w = false ↔ ∀ u v, w = u ++ v → v ≠ [] → ¬ pat <+: v ++ rest := by
  induction w with
  | nil =>
      refine iff_of_true rfl (fun u v h hv => ?_)
      exact absurd (List.append_eq_nil_iff.mp h.symm).2 hv
  | cons x w ih =>
      rw [occursIn, Bool.or_eq_false_iff, ih, Bool.eq_false_iff, ne_eq, List.isPrefixOf_iff_prefix]
      constructor
      · rintro ⟨hx, hw⟩ u v h hv
        cases u with
        | nil =>
            rw [List.nil_append] at h
            rw [← h]
            exact hx
        | cons y u => exact hw u v (List.cons.inj h).2 hv
      · intro h
        refine ⟨h [] (x :: w) rfl (List.cons_ne_nil _ _), fun u v huv => ?_⟩
        exact h (x :: u) v (by rw [huv, List.cons_append])

instance FoundOnlyAt.decidable (pat : List α) (f : τ → List α) (P : τ → Prop) [DecidablePred P] :
    ∀ pieces, Decidable (FoundOnlyAt pat f P pieces)
  | [] => isTrue (fun pre t post h => absurd h (by simp))
  | t :: pieces =>
      have := FoundOnlyAt.decidable pat f P pieces
      decidable_of_iff ((¬ P t → occursIn pat (pieces.flatMap f) (f t) = false) ∧
        FoundOnlyAt pat f P pieces) (by rw [foundOnlyAt_cons, occursIn_eq_false])

end replace

end RagFlow.Text
