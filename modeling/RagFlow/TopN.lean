import Mathlib.Data.List.Induction
import Mathlib.Data.List.Nodup
import Mathlib.Data.List.Perm.Basic
import Mathlib.Order.Lattice
import Mathlib.Tactic.Common

/-! # The best of a sequence

A list of bounded size that is to hold the best of a sequence: the first items fill it, and each
later one that is better than the last takes its place and is inserted by binary search.

* **Binary search.** `lowerBound` is `std::lower_bound` on any list: where it stops, the item before
  satisfies the predicate and the item there does not (`lowerBound_split`).
* **Runs.** `selectBest` goes through the sequence.  What holds at the start and is kept by the
  filling, by a refusal and by a replacement holds at the end (`selectBest_induction`).
* **Order.** The items that fill the list are not put in order.  `ranked_of_inFront`: the best are
  selected in order if those among the first that are better than one before them are beaten by `n`
  items; `lt_countP_of_ranked`: they are only if at least `n` others are as good as these. -/

namespace RagFlow.TopN

variable {α S : Type}

/-! ### Binary search -/

/-- The loop of `std::lower_bound` over the `len` items from `first` on. -/
def lowerBoundFrom (p : α → Bool) (l : List α) : ℕ → ℕ → ℕ → ℕ
  | 0, first, _ => first
  | fuel + 1, first, len =>
      if len = 0 then first
      else if (l[first + len / 2]?).any p then
        lowerBoundFrom p l fuel (first + len / 2 + 1) (len - len / 2 - 1)
      else lowerBoundFrom p l fuel first (len / 2)

/-- `std::lower_bound`: the first item that does not satisfy the predicate, if those that do come
first. -/
def lowerBound (p : α → Bool) (l : List α) : ℕ := lowerBoundFrom p l l.length 0 l.length

theorem lowerBoundFrom_spec {p : α → Bool} {l : List α} (fuel : ℕ) :
    ∀ first len, len ≤ fuel → first + len ≤ l.length →
      (∀ k, first = k + 1 → (l[k]?).all p) → (l[first + len]?).all (!p ·) →
      lowerBoundFrom p l fuel first len ≤ l.length ∧
        (∀ k, lowerBoundFrom p l fuel first len = k + 1 → (l[k]?).all p) ∧
        (l[lowerBoundFrom p l fuel first len]?).all (!p ·) := by
  induction fuel with
  | zero =>
      intro first len hfuel hlen hleft hright
      have hzero : len = 0 := Nat.le_zero.mp hfuel
      rw [hzero] at hright
      exact ⟨by rw [lowerBoundFrom]; omega, hleft, hright⟩
  | succ fuel ih =>
      intro first len hfuel hlen hleft hright
      rw [lowerBoundFrom]
      by_cases hzero : len = 0
      · rw [if_pos hzero]
        rw [hzero] at hright
        exact ⟨by omega, hleft, hright⟩
      · rw [if_neg hzero]
        have hmid : first + len / 2 < l.length := by omega
        by_cases hp : (l[first + len / 2]?).any p
        · rw [if_pos hp]
          refine ih _ _ (by omega) (by omega) (fun k hk => ?_) ?_
          · have heq : k = first + len / 2 := by omega
            rw [heq, List.getElem?_eq_getElem hmid]
            rwa [List.getElem?_eq_getElem hmid] at hp
          · have heq : first + len / 2 + 1 + (len - len / 2 - 1) = first + len := by omega
            rwa [heq]
        · rw [if_neg hp]
          refine ih _ _ (by omega) (by omega) hleft ?_
          rw [List.getElem?_eq_getElem hmid] at hp ⊢
          simpa using hp

/-- Where the search stops, the item before satisfies the predicate and the item there does not. -/
theorem lowerBound_split (p : α → Bool) (l : List α) :
    ∃ u v, l = u ++ v ∧ u.length = lowerBound p l ∧ (∀ a ∈ u.getLast?, p a = true) ∧
      ∀ b ∈ v.head?, p b = false := by
  have hspec := lowerBoundFrom_spec (p := p) (l := l) l.length 0 l.length (Nat.le_refl _)
    (by omega)
    (fun k hk => by omega) (by rw [Nat.zero_add, List.getElem?_eq_none (Nat.le_refl _)]; rfl)
  obtain ⟨hle, hleft, hright⟩ := hspec
  refine ⟨l.take (lowerBound p l), l.drop (lowerBound p l), (List.take_append_drop _ l).symm,
    List.length_take_of_le hle, fun a ha => ?_, fun b hb => ?_⟩
  · cases hk : lowerBound p l with
    | zero =>
        rw [hk] at ha
        cases ha
    | succ k =>
        have hlt : k < l.length := by
          have : lowerBound p l ≤ l.length := hle
          omega
        have hpk := hleft k hk
        rw [List.getElem?_eq_getElem hlt] at hpk
        rw [hk, List.getLast?_take, if_neg k.succ_ne_zero, Nat.add_sub_cancel,
          List.getElem?_eq_getElem hlt, Option.some_or] at ha
        cases ha
        exact hpk
  · rw [List.head?_drop] at hb
    have hpb := hright
    change (l[lowerBound p l]?).all (!p ·) = true at hpb
    rw [hb] at hpb
    simpa using hpb

/-- If the items that satisfy the predicate come first, the search stops after them. -/
theorem lowerBound_append {p : α → Bool} {u v : List α} (hu : ∀ a ∈ u, p a = true)
    (hv : ∀ b ∈ v, p b = false) : lowerBound p (u ++ v) = u.length := by
  obtain ⟨u', v', heq, hlen, hlast, hhead⟩ := lowerBound_split p (u ++ v)
  rw [← hlen]
  rcases List.append_eq_append_iff.mp heq with ⟨w, rfl, hw⟩ | ⟨w, rfl, hw⟩
  · rcases List.eq_nil_or_concat w with rfl | ⟨w', a, rfl⟩
    · rw [List.append_nil]
    · have ha := hlast a (by rw [List.concat_eq_append, ← List.append_assoc]; simp)
      rw [hv a (by rw [hw]; simp)] at ha
      cases ha
  · cases w with
    | nil => rw [List.append_nil]
    | cons b w =>
        have hb := hhead b (by rw [hw]; rfl)
        rw [hu b (by simp)] at hb
        cases hb

theorem insertIdx_length (u v : List α) (x : α) :
    (u ++ v).insertIdx u.length x = u ++ x :: v := by
  induction u with
  | nil => rfl
  | cons a u ih =>
      rw [List.cons_append, List.length_cons, List.insertIdx_succ_cons, ih, List.cons_append]

/-! ### Selecting -/

section select
variable [LinearOrder S] (score : α → S) (n : ℕ)

/-- What is done with the next item. -/
def insertBest (acc : List α) (x : α) : List α :=
  if acc.length < n then acc ++ [x]
  else match acc.getLast? with
    | none => acc
    | some y =>
        if score y < score x then
          acc.dropLast.insertIdx (lowerBound (fun a => score x < score a) acc.dropLast) x
        else acc

/-- The items that are selected. -/
def selectBest (items : List α) : List α := items.foldl (insertBest score n) []

theorem selectBest_concat (items : List α) (x : α) :
    selectBest score n (items ++ [x]) = insertBest score n (selectBest score n items) x := by
  unfold selectBest
  rw [List.foldl_append, List.foldl_cons, List.foldl_nil]

/-- A run of the selection: the items so far, those that are selected, and the others. -/
theorem selectBest_induction {motive : List α → List α → List α → Prop} (nil : motive [] [] [])
    (fill : ∀ items acc rest x, motive items acc rest → acc.length < n →
      motive (items ++ [x]) (acc ++ [x]) rest)
    (refuse : ∀ items acc rest x, motive items acc rest → n ≤ acc.length →
      (∀ y ∈ acc.getLast?, score x ≤ score y) → motive (items ++ [x]) acc (x :: rest))
    (replace : ∀ items u v y rest x, motive items (u ++ v ++ [y]) rest →
      n ≤ (u ++ v ++ [y]).length → score y < score x → (∀ a ∈ u.getLast?, score x < score a) →
      (∀ b ∈ v.head?, score b ≤ score x) → motive (items ++ [x]) (u ++ x :: v) (y :: rest))
    (items : List α) : ∃ rest, motive items (selectBest score n items) rest := by
  induction items using List.reverseRecOn with
  | nil => exact ⟨[], nil⟩
  | append_singleton items x ih =>
      obtain ⟨rest, hrest⟩ := ih
      rw [selectBest_concat]
      revert hrest
      generalize selectBest score n items = acc
      intro hrest
      unfold insertBest
      by_cases hlen : acc.length < n
      · rw [if_pos hlen]
        exact ⟨rest, fill items acc rest x hrest hlen⟩
      · rw [if_neg hlen]
        have hn : n ≤ acc.length := Nat.le_of_not_lt hlen
        rcases List.eq_nil_or_concat acc with rfl | ⟨l, y, rfl⟩
        · exact ⟨_, refuse items [] rest x hrest hn (fun y hy => nomatch hy)⟩
        · rw [List.concat_eq_append] at hrest hn ⊢
          rw [List.getLast?_concat, List.dropLast_concat]
          dsimp only
          by_cases hxy : score y < score x
          · rw [if_pos hxy]
            obtain ⟨u, v, rfl, hu, hlast, hhead⟩ :=
              lowerBound_split (fun a => decide (score x < score a)) l
            rw [← hu, insertIdx_length]
            refine ⟨_, replace items u v y rest x hrest hn hxy (fun a ha => ?_) (fun b hb => ?_)⟩
            · exact of_decide_eq_true (hlast a ha)
            · exact le_of_not_gt (of_decide_eq_false (hhead b hb))
          · rw [if_neg hxy]
            refine ⟨_, refuse items (l ++ [y]) rest x hrest hn (fun z hz => ?_)⟩
            rw [List.getLast?_concat] at hz
            cases hz
            exact le_of_not_gt hxy

/-- The items are selected or not; the first `n` are all selected. -/
structure Selected (items acc rest : List α) : Prop where
  perm : (acc ++ rest).Perm items
  length : acc.length = min n items.length
  first : items.length ≤ n → acc = items

section steps
variable {n} {items acc rest : List α} {x : α}

theorem Selected.fill (h : Selected n items acc rest) (hlen : acc.length < n) :
    Selected n (items ++ [x]) (acc ++ [x]) rest := by
  have hitems : items.length < n := by
    have := h.length
    omega
  refine ⟨?_, ?_, fun _ => by rw [h.first (Nat.le_of_lt hitems)]⟩
  · rw [List.append_assoc]
    refine (List.perm_append_comm.append_left acc).trans ?_
    rw [← List.append_assoc]
    exact h.perm.append_right [x]
  · have := h.length
    rw [List.length_append, List.length_append, List.length_singleton]
    omega

theorem Selected.refuse (h : Selected n items acc rest) (hlen : n ≤ acc.length) :
    Selected n (items ++ [x]) acc (x :: rest) := by
  have hlength := h.length
  refine ⟨?_, ?_, fun hle => ?_⟩
  · exact (List.perm_middle.trans (h.perm.cons x)).trans (List.perm_append_singleton x items).symm
  · rw [List.length_append, List.length_singleton]
    omega
  · rw [List.length_append, List.length_singleton] at hle
    omega

theorem Selected.replace {u v : List α} {y : α} (h : Selected n items (u ++ v ++ [y]) rest)
    (hlen : n ≤ (u ++ v ++ [y]).length) :
    Selected n (items ++ [x]) (u ++ x :: v) (y :: rest) := by
  have hlength := h.length
  have hsame : (u ++ x :: v).length = (u ++ v ++ [y]).length := by
    simp only [List.length_append, List.length_cons, List.length_nil]
    omega
  refine ⟨?_, ?_, fun hle => ?_⟩
  · have hy : (u ++ v ++ y :: rest).Perm items := by
      have hperm := h.perm
      rwa [List.append_assoc, List.singleton_append] at hperm
    have hx : (u ++ x :: v ++ y :: rest).Perm (x :: (u ++ v ++ y :: rest)) := by
      rw [List.append_assoc, List.append_assoc]
      exact List.perm_middle
    exact (hx.trans (hy.cons x)).trans (List.perm_append_singleton x items).symm
  · have hitems : (items ++ [x]).length = items.length + 1 := by
      rw [List.length_append, List.length_singleton]
    rw [hsame, hitems]
    omega
  · rw [List.length_append, List.length_singleton] at hle
    omega

end steps

/-! ### Order -/

/-- The list is the best of the items, in order. -/
def Ranked (items acc : List α) : Prop :=
  ∃ rest, (acc ++ rest).Perm items ∧ acc.length = min n items.length ∧
    acc.Pairwise (fun a b => score b ≤ score a) ∧ ∀ a ∈ acc, ∀ b ∈ rest, score b ≤ score a

/-- Of the first `n` items each that is better than one before it is beaten by `n` items. -/
def InFront (items : List α) : Prop :=
  (items.take n).Pairwise
    (fun a b => score a < score b → n ≤ items.countP (fun c => score b < score c))

section order
variable {score n} {top : S → Prop} (htop : ∀ s t, s ≤ t → top s → top t)
include htop

/-- If the last item is not lower than a top one, no item is. -/
theorem le_of_le_last {acc : List α} {s : S}
    (hacc : acc.Pairwise (fun a b => top (score b) → score b ≤ score a))
    (hlast : ∀ y ∈ acc.getLast?, s ≤ score y) (hs : top s) : ∀ a ∈ acc, s ≤ score a := by
  intro a ha
  rcases List.eq_nil_or_concat acc with rfl | ⟨l, y, rfl⟩
  · cases ha
  · rw [List.concat_eq_append] at ha hacc hlast
    have hy := hlast y (by rw [List.getLast?_concat]; rfl)
    rcases List.mem_append.mp ha with ha | ha
    · have hya := (List.pairwise_append.mp hacc).2.2 a ha y (List.mem_singleton_self y)
      exact hy.trans (hya (htop _ _ hy hs))
    · rwa [List.mem_singleton.mp ha]

omit htop in
/-- If the first item is not higher, no top item is. -/
theorem le_of_head_le {acc : List α} {s : S}
    (hacc : acc.Pairwise (fun a b => top (score b) → score b ≤ score a))
    (hhead : ∀ y ∈ acc.head?, score y ≤ s) : ∀ b ∈ acc, top (score b) → score b ≤ s := by
  intro b hb hb'
  cases acc with
  | nil => cases hb
  | cons y acc =>
      have hy := hhead y rfl
      rcases List.mem_cons.mp hb with rfl | hb
      · exact hy
      · exact (List.rel_of_pairwise_cons hacc hb hb').trans hy

/-- The top items stay in front and in order, and none of them is left out for a lesser one. -/
theorem selectBest_top (items : List α) : ∃ rest,
    Selected n items (selectBest score n items) rest ∧
      ((items.take n).Pairwise (fun a b => top (score b) → score b ≤ score a) →
        (selectBest score n items).Pairwise (fun a b => top (score b) → score b ≤ score a) ∧
          ∀ z ∈ rest, top (score z) → ∀ a ∈ selectBest score n items, score z ≤ score a) := by
  have hsub : ∀ (items : List α) (x : α), (items.take n).Sublist ((items ++ [x]).take n) := by
    intro items x
    rw [List.take_append]
    exact List.sublist_append_left _ _
  refine selectBest_induction score n (motive := fun items acc rest => Selected n items acc rest ∧
    ((items.take n).Pairwise (fun a b => top (score b) → score b ≤ score a) →
      acc.Pairwise (fun a b => top (score b) → score b ≤ score a) ∧
        ∀ z ∈ rest, top (score z) → ∀ a ∈ acc, score z ≤ score a)) ?_ ?_ ?_ ?_ items
  · exact ⟨⟨List.Perm.nil, (Nat.min_zero n).symm, fun _ => rfl⟩,
      fun _ => ⟨List.Pairwise.nil, fun z hz => nomatch hz⟩⟩
  · rintro items acc rest x ⟨hselected, -⟩ hlen
    have hfill := hselected.fill (x := x) hlen
    have hitems : (items ++ [x]).length ≤ n := by
      have := hselected.length
      rw [List.length_append, List.length_singleton]
      omega
    refine ⟨hfill, fun hpairs => ?_⟩
    rw [List.take_of_length_le hitems, ← hfill.first hitems] at hpairs
    refine ⟨hpairs, fun z hz => ?_⟩
    have hperm := hfill.perm.length_eq
    rw [← hfill.first hitems, List.length_append] at hperm
    rw [List.length_eq_zero_iff.mp (Nat.add_eq_left.mp hperm)] at hz
    cases hz
  · rintro items acc rest x ⟨hselected, ih⟩ hlen hlast
    refine ⟨hselected.refuse hlen, fun hpairs => ?_⟩
    obtain ⟨hacc, hrest⟩ := ih (hpairs.sublist (hsub items x))
    refine ⟨hacc, fun z hz hz' a ha => ?_⟩
    rcases List.mem_cons.mp hz with rfl | hz
    · exact le_of_le_last htop hacc hlast hz' a ha
    · exact hrest z hz hz' a ha
  · rintro items u v y rest x ⟨hselected, ih⟩ hlen hyx hlast hhead
    refine ⟨hselected.replace hlen, fun hpairs => ?_⟩
    obtain ⟨hacc, hrest⟩ := ih (hpairs.sublist (hsub items x))
    obtain ⟨huv, -, hy⟩ := List.pairwise_append.mp hacc
    obtain ⟨hu, hv, hcross⟩ := List.pairwise_append.mp huv
    have hxv := le_of_head_le hv hhead
    have hux : ∀ a ∈ u, top (score x) → score x ≤ score a := fun a ha hx =>
      le_of_le_last htop hu (fun c hc => (hlast c hc).le) hx a ha
    refine ⟨?_, fun z hz hz' a ha => ?_⟩
    · refine List.pairwise_append.mpr ⟨hu, List.pairwise_cons.mpr ⟨hxv, hv⟩, fun a ha b hb => ?_⟩
      rcases List.mem_cons.mp hb with rfl | hb
      · exact hux a ha
      · exact hcross a ha b hb
    · have hzy : score z ≤ score y := by
        rcases List.mem_cons.mp hz with rfl | hz
        · exact le_rfl
        · exact hrest z hz hz' y (by simp)
      have hother : ∀ a ∈ u ++ v, score z ≤ score a := by
        intro a ha
        rcases List.mem_cons.mp hz with rfl | hz
        · exact hy a ha z (List.mem_singleton_self z) hz'
        · exact hrest z hz hz' a (List.mem_append_left _ ha)
      rcases List.mem_append.mp ha with ha | ha
      · exact hother a (List.mem_append_left v ha)
      · rcases List.mem_cons.mp ha with rfl | ha
        · exact hzy.trans hyx.le
        · exact hother a (List.mem_append_right u ha)

end order

section ranked
variable {score n}

theorem exists_best {l : List α} (h : l ≠ []) : ∃ m ∈ l, ∀ c ∈ l, score c ≤ score m := by
  induction l with
  | nil => exact absurd rfl h
  | cons a l ih =>
      by_cases hl : l = []
      · subst hl
        exact ⟨a, List.mem_cons_self, fun c hc => (List.mem_singleton.mp hc) ▸ le_rfl⟩
      · obtain ⟨m, hm, hbest⟩ := ih hl
        rcases le_total (score m) (score a) with hle | hle
        · refine ⟨a, List.mem_cons_self, fun c hc => ?_⟩
          rcases List.mem_cons.mp hc with rfl | hc
          · exact le_rfl
          · exact (hbest c hc).trans hle
        · refine ⟨m, List.mem_cons_of_mem a hm, fun c hc => ?_⟩
          rcases List.mem_cons.mp hc with rfl | hc
          · exact hle
          · exact hbest c hc

/-- If there is an item that `n` others beat, at least `n` items are not beaten so often. -/
theorem le_countP_top {items : List α} {b : α} (hb : b ∈ items)
    (hbeaten : n ≤ items.countP (fun c => score b < score c)) :
    n ≤ items.countP (fun c => items.countP (fun d => score c < score d) < n) := by
  -- the best of the items that are beaten so often
  have hne : items.filter (fun c => n ≤ items.countP (fun d => score c < score d)) ≠ [] :=
    List.ne_nil_of_mem (List.mem_filter.mpr ⟨hb, decide_eq_true hbeaten⟩)
  obtain ⟨m, hm, hbest⟩ := @exists_best α S _ score _ hne
  refine Nat.le_trans (of_decide_eq_true (List.mem_filter.mp hm).2) (List.countP_mono_left ?_)
  intro c hc hmc
  rw [decide_eq_true_iff] at hmc ⊢
  by_contra hnot
  have hc' := hbest c (List.mem_filter.mpr ⟨hc, decide_eq_true (Nat.le_of_not_lt hnot)⟩)
  exact absurd hmc hc'.not_gt

/-- **Ranking.**  If the first items are in front the best are selected in order. -/
theorem ranked_of_inFront {items : List α} (h : InFront score n items) :
    Ranked score n items (selectBest score n items) := by
  have htop : ∀ s t : S, s ≤ t → items.countP (fun c => s < score c) < n →
      items.countP (fun c => t < score c) < n := by
    intro s t hst hs
    refine Nat.lt_of_le_of_lt (List.countP_mono_left (fun c _ hc => ?_)) hs
    rw [decide_eq_true_iff] at hc ⊢
    exact hst.trans_lt hc
  obtain ⟨rest, hselected, horder⟩ := @selectBest_top α S _ score n _ htop items
  obtain ⟨hacc, hrest⟩ := horder (h.imp (fun hab hb => by
    by_contra hlt
    exact absurd (hab (lt_of_not_ge hlt)) (Nat.not_le.mpr hb)))
  -- all that are selected are top items: otherwise a top item is left out for a lesser one
  have hall : ∀ a ∈ selectBest score n items, items.countP (fun c => score a < score c) < n := by
    intro a ha
    by_contra hnot
    have hmem : a ∈ items := hselected.perm.subset (List.mem_append_left rest ha)
    have hcount := le_countP_top hmem (Nat.le_of_not_lt hnot)
    rw [← hselected.perm.countP_eq, List.countP_append] at hcount
    have hless : (selectBest score n items).countP
        (fun c => items.countP (fun d => score c < score d) < n) <
          (selectBest score n items).length := by
      refine Nat.lt_of_le_of_ne List.countP_le_length (fun heq => hnot ?_)
      exact of_decide_eq_true (List.countP_eq_length.mp heq a ha)
    have hlength := hselected.length
    have hpos : 0 < rest.countP (fun c => items.countP (fun d => score c < score d) < n) := by
      omega
    obtain ⟨z, hz, hz'⟩ := List.countP_pos_iff.mp hpos
    rw [decide_eq_true_iff] at hz'
    exact hnot (htop _ _ (hrest z hz hz' a ha) hz')
  refine ⟨rest, hselected.perm, hselected.length, ?_, fun a ha z hz => ?_⟩
  · exact List.Pairwise.imp_of_mem (fun _ hb hab => hab (hall _ hb)) hacc
  · by_contra hlt
    have hza := (lt_of_not_ge hlt).le
    exact hlt (hrest z hz (htop _ _ hza (hall a ha)) a ha)

/-- Of two of the first items either both are selected, in their order, or the second is left
out. -/
theorem selectBest_pair (a b : α) (items : List α) : ∃ rest,
    Selected n items (selectBest score n items) rest ∧ ([a, b].Sublist (items.take n) →
      [a, b].Sublist (selectBest score n items) ∨ b ∈ rest) := by
  have htake : ∀ (items acc rest : List α) (x : α), Selected n items acc rest → n ≤ acc.length →
      (items ++ [x]).take n = items.take n := by
    intro items acc rest x hselected hlen
    have := hselected.length
    exact List.take_append_of_le_length (by omega)
  refine selectBest_induction score n (motive := fun items acc rest => Selected n items acc rest ∧
    ([a, b].Sublist (items.take n) → [a, b].Sublist acc ∨ b ∈ rest)) ?_ ?_ ?_ ?_ items
  · exact ⟨⟨List.Perm.nil, (Nat.min_zero n).symm, fun _ => rfl⟩, fun h => by
      rw [List.take_nil] at h
      exact Or.inl h⟩
  · rintro items acc rest x ⟨hselected, -⟩ hlen
    have hfill := hselected.fill (x := x) hlen
    refine ⟨hfill, fun hab => Or.inl ?_⟩
    have hitems : (items ++ [x]).length ≤ n := by
      have := hselected.length
      rw [List.length_append, List.length_singleton]
      omega
    rwa [hfill.first hitems, ← List.take_of_length_le hitems]
  · rintro items acc rest x ⟨hselected, ih⟩ hlen -
    refine ⟨hselected.refuse hlen, fun hab => ?_⟩
    rw [htake items acc rest x hselected hlen] at hab
    exact (ih hab).imp_right (List.mem_cons_of_mem x)
  · rintro items u v y rest x ⟨hselected, ih⟩ hlen - - -
    refine ⟨hselected.replace hlen, fun hab => ?_⟩
    rw [htake items _ rest x hselected hlen] at hab
    rcases ih hab with hsub | hb
    · obtain ⟨l₁, l₂, heq, hl₁, hl₂⟩ := List.sublist_append_iff.mp hsub
      rcases List.sublist_singleton.mp hl₂ with rfl | rfl
      · rw [List.append_nil] at heq
        subst heq
        exact Or.inl (hl₁.trans ((List.Sublist.refl u).append (List.sublist_cons_self x v)))
      · have hlast := congrArg List.getLast? heq
        rw [List.getLast?_concat] at hlast
        cases hlast
        exact Or.inr List.mem_cons_self
    · exact Or.inr (List.mem_cons_of_mem y hb)

/-- If the best are selected in order, each of the first items that is better than one before it is
not among the best `n`, or it is as good as one that is not. -/
theorem lt_countP_of_ranked {items : List α}
    (h : Ranked score n items (selectBest score n items)) :
    (items.take n).Pairwise
      (fun a b => score a < score b → n < items.countP (fun c => score b ≤ score c)) := by
  rw [List.pairwise_iff_forall_sublist]
  intro a b hab hlt
  obtain ⟨rest', hperm, -, hsorted, hleft⟩ := h
  obtain ⟨rest, hselected, hpair⟩ := @selectBest_pair α S _ score n a b items
  rcases hpair hab with hsub | hb
  · have hle := (List.pairwise_cons.mp (hsorted.sublist hsub)).1 b (List.mem_singleton_self b)
    exact absurd hlt hle.not_gt
  · have hrest : rest.Perm rest' :=
      (List.perm_append_left_iff _).mp (hselected.perm.trans hperm.symm)
    have hacc : (selectBest score n items).countP (fun c => score b ≤ score c) =
        (selectBest score n items).length :=
      List.countP_eq_length.mpr (fun c hc => decide_eq_true (hleft c hc b (hrest.subset hb)))
    have hpos : 0 < rest.countP (fun c => score b ≤ score c) :=
      List.countP_pos_iff.mpr ⟨b, hb, decide_eq_true le_rfl⟩
    have hlength := hselected.length
    have htotal := hselected.perm.length_eq
    have hrestLength := List.length_pos_of_mem hb
    rw [List.length_append] at htotal
    rw [← hselected.perm.countP_eq, List.countP_append, hacc]
    omega

/-- Of different scores at most one is equal to a given one. -/
theorem countP_le_succ {items : List α} (h : (items.map score).Nodup) (s : S) :
    items.countP (fun c => s ≤ score c) ≤ items.countP (fun c => s < score c) + 1 := by
  have hcount : items.countP (fun c => s ≤ score c) ≤
      items.countP (fun c => s < score c) + (items.map score).count s := by
    clear h
    induction items with
    | nil => exact Nat.zero_le _
    | cons a items ih =>
        rw [List.countP_cons, List.countP_cons, List.map_cons, List.count_cons]
        by_cases hle : s ≤ score a
        · rcases hle.eq_or_lt with heq | hlt
          · simp only [heq, le_refl, lt_irrefl, decide_true, decide_false, beq_self_eq_true,
              if_true, Bool.false_eq_true, if_false] at ih ⊢
            omega
          · simp only [hle, hlt, decide_true, if_true]
            omega
        · simp only [hle, decide_false, Bool.false_eq_true, if_false]
          omega
  have hone := List.nodup_iff_count_le_one.mp h s
  omega

/-- If no two scores are equal, the best are selected in order exactly if the first items are in
front. -/
theorem ranked_iff_of_nodup {items : List α} (h : (items.map score).Nodup) :
    Ranked score n items (selectBest score n items) ↔ InFront score n items := by
  refine ⟨fun hranked => ?_, ranked_of_inFront⟩
  refine (lt_countP_of_ranked hranked).imp (fun {a b} hab hlt => ?_)
  have hcount := countP_le_succ h (score b)
  have hab := hab hlt
  omega

end ranked

end select

end RagFlow.TopN
