import Mathlib.Algebra.Order.Field.Basic
import Mathlib.Tactic.Linarith
import Mathlib.Tactic.Positivity
import Mathlib.Tactic.Ring

/-! # A token bucket

A bucket fills at a constant rate up to its capacity.  What is stored is how many tokens there were
at a time, and when the record is dropped; without a record the bucket is full.  How much it fills
is computed by a function (`fill`) that may be off by some slack (`Nearly`); without an error it is
`steady`.

* **Level.** `level now b`: the tokens at the time `now`.  Between two times the exact level grows
  by no more than the rate (`level_le`), since a record that is dropped would be full by then
  (`Sound`).
* **Runs.** The clock may go backwards.  `forward` is by how much it goes forwards in all: this
  bounds what is taken in a run (`granted_le`).  While it does not go backwards, what is not taken
  has come to the level (`le_granted`); once the bucket is full, nothing of that is lost to the
  slack. -/

namespace RagFlow.TokenBucket

variable {K : Type} [Field K] [LinearOrder K]

structure Bucket (K : Type) where
  tokens : K
  timestamp : K
  deadline : K
deriving DecidableEq

/-- The record, if it has not been dropped. -/
def live (now : K) (b : Option (Bucket K)) : Option (Bucket K) :=
  b.filter (fun b => now < b.deadline)

/-- The tokens at the time `now`, where `fill x d` is what `x` tokens have become after the time
`d`. -/
def level (capacity : K) (fill : K → K → K) (now : K) (b : Option (Bucket K)) : K :=
  match live now b with
  | none => capacity
  | some b => min capacity (fill b.tokens (max 0 (now - b.timestamp)))

/-- Filling at a rate. -/
def steady (rate tokens time : K) : K := tokens + time * rate

/-- Take `cost` tokens, if there are as many; the record is kept for the time `ttl`. -/
def take (capacity : K) (fill : K → K → K) (ttl now cost : K) (b : Option (Bucket K)) :
    Bool × Option (Bucket K) :=
  if level capacity fill now b < cost then (false, live now b)
  else (true, some ⟨level capacity fill now b - cost, now, now + ttl⟩)

/-- One after the other; what is returned is which were granted. -/
def takes (capacity : K) (fill : K → K → K) (ttl cost : K) : List K → Option (Bucket K) →
    List Bool × Option (Bucket K)
  | [], b => ([], b)
  | now :: nows, b =>
      let first := take capacity fill ttl now cost b
      let rest := takes capacity fill ttl cost nows first.2
      (first.1 :: rest.1, rest.2)

/-- By how much the clock goes forwards from `now` on. -/
def forward (now : K) : List K → K
  | [] => 0
  | t :: ts => max 0 (t - now) + forward t ts

/-- A way of filling that is off by no more than `slack`.  The numbers `ok` are those that a record
may have; none of them gets less. -/
structure Nearly (capacity rate slack cost : K) (ok : K → Prop) (fill : K → K → K) : Prop where
  bounds : ∀ {x}, ok x → 0 ≤ x ∧ x ≤ capacity
  fill_le : ∀ {x d}, ok x → 0 ≤ d → min capacity (fill x d) ≤ x + d * rate + slack
  le_fill : ∀ {x d}, ok x → 0 ≤ d → fill x d < capacity → x + d * rate ≤ fill x d + slack
  grows : ∀ {x d}, ok x → 0 ≤ d → x ≤ fill x d
  capacity_sub : cost ≤ capacity → ok (capacity - cost)
  fill_sub : ∀ {x d}, ok x → 0 ≤ d → cost ≤ fill x d → fill x d ≤ capacity → ok (fill x d - cost)

/-- A record has numbers that it may have, and it is not dropped before the bucket is full. -/
def Sound (capacity rate : K) (ok : K → Prop) (b : Option (Bucket K)) : Prop :=
  ∀ r ∈ b, ok r.tokens ∧ capacity ≤ (r.deadline - r.timestamp) * rate

section Level

variable {capacity rate slack cost now t : K} {ok : K → Prop} {fill : K → K → K}
  {b : Option (Bucket K)}

omit [Field K] in
theorem live_eq_some {r : Bucket K} : live now b = some r ↔ b = some r ∧ now < r.deadline := by
  unfold live
  rw [Option.filter_eq_some_iff, decide_eq_true_eq]

theorem level_none : level capacity fill now none = capacity := rfl

theorem level_some {r : Bucket K} (hlive : now < r.deadline) : level capacity fill now (some r) =
    min capacity (fill r.tokens (max 0 (now - r.timestamp))) := by
  unfold level
  rw [live_eq_some.mpr ⟨rfl, hlive⟩]

theorem level_dropped {r : Bucket K} (hlive : ¬ now < r.deadline) :
    level capacity fill now (some r) = capacity := by
  unfold level
  rw [show live now (some r) = none by simp only [live, Option.filter_some, hlive, decide_false,
    Bool.false_eq_true, if_false]]

theorem level_live : level capacity fill now (live now b) = level capacity fill now b := by
  unfold level
  rw [show live now (live now b) = live now b by unfold live; rw [Option.filter_filter]; simp]

theorem level_le_capacity : level capacity fill now b ≤ capacity := by
  unfold level
  split
  case h_1 => exact le_rfl
  case h_2 => exact min_le_left _ _

theorem sound_live (h : Sound capacity rate ok b) : Sound capacity rate ok (live now b) := by
  intro r hr
  exact h r (Option.mem_def.mpr (live_eq_some.mp hr).1)

variable [IsStrictOrderedRing K]

theorem level_steady_nonneg (hcapacity : 0 ≤ capacity) (hrate : 0 ≤ rate)
    (hn : Nearly capacity rate slack cost ok fill) (h : Sound capacity rate ok b) :
    0 ≤ level capacity (steady rate) now b := by
  unfold level
  split
  case h_1 => exact hcapacity
  case h_2 r hlive =>
    obtain ⟨hr, -⟩ := live_eq_some.mp hlive
    have hok := (h r (Option.mem_def.mpr hr)).1
    exact le_min hcapacity (add_nonneg (hn.bounds hok).1 (mul_nonneg (le_max_left _ _) hrate))

/-- The level is above the exact one by no more than the slack. -/
theorem level_le_steady (hslack : 0 ≤ slack) (hn : Nearly capacity rate slack cost ok fill)
    (h : Sound capacity rate ok b) :
    level capacity fill now b ≤ level capacity (steady rate) now b + slack := by
  unfold level
  split
  case h_1 => exact le_add_of_nonneg_right hslack
  case h_2 r hlive =>
    obtain ⟨hr, -⟩ := live_eq_some.mp hlive
    have hok := (h r (Option.mem_def.mpr hr)).1
    rw [← min_add_add_right]
    refine le_min ?_ (hn.fill_le hok (le_max_left _ _))
    exact (min_le_left _ _).trans (le_add_of_nonneg_right hslack)

/-- The exact level grows by no more than the rate. -/
theorem level_le (hrate : 0 ≤ rate) (hn : Nearly capacity rate slack cost ok fill)
    (h : Sound capacity rate ok b) : level capacity (steady rate) t b ≤
      level capacity (steady rate) now b + max 0 (t - now) * rate := by
  have hgrow : 0 ≤ max 0 (t - now) * rate := mul_nonneg (le_max_left _ _) hrate
  cases b with
  | none =>
      rw [level_none, level_none]
      linarith
  | some r =>
      have hle : level capacity (steady rate) t (some r) ≤ capacity := level_le_capacity
      obtain ⟨hok, hdeadline⟩ := h r rfl
      have htokens := (hn.bounds hok).1
      by_cases hnow : now < r.deadline
      · rw [level_some hnow]
        have hsum : max 0 (t - r.timestamp) * rate ≤
            max 0 (now - r.timestamp) * rate + max 0 (t - now) * rate := by
          rw [← add_mul]
          refine mul_le_mul_of_nonneg_right (max_le (by positivity) ?_) hrate
          have h₁ := le_max_right 0 (now - r.timestamp)
          have h₂ := le_max_right 0 (t - now)
          linarith
        -- The level now is the capacity, or the tokens and what has come since.
        rcases min_choice capacity (steady rate r.tokens (max 0 (now - r.timestamp))) with
          hfull | hpart
        · rw [hfull]
          linarith
        · rw [hpart]
          show _ ≤ r.tokens + max 0 (now - r.timestamp) * rate + max 0 (t - now) * rate
          by_cases ht : t < r.deadline
          · rw [level_some ht]
            refine (min_le_right _ _).trans ?_
            show r.tokens + max 0 (t - r.timestamp) * rate ≤ _
            linarith
          · have hlong : (r.deadline - r.timestamp) * rate ≤ max 0 (t - r.timestamp) * rate := by
              refine mul_le_mul_of_nonneg_right ?_ hrate
              have hmax := le_max_right 0 (t - r.timestamp)
              have hge := not_lt.mp ht
              linarith
            linarith
      · rw [level_dropped hnow]
        linarith

/-- The tokens of a record, or a full bucket. -/
def amount (capacity : K) : Option (Bucket K) → K
  | none => capacity
  | some r => r.tokens

omit [IsStrictOrderedRing K] in
theorem amount_le_capacity (hn : Nearly capacity rate slack cost ok fill)
    (h : Sound capacity rate ok b) : amount capacity b ≤ capacity := by
  cases b with
  | none => exact le_rfl
  | some r => exact (hn.bounds (h r rfl).1).2

omit [IsStrictOrderedRing K] in
theorem amount_le_level (hn : Nearly capacity rate slack cost ok fill)
    (h : Sound capacity rate ok b) : amount capacity b ≤ level capacity fill t b := by
  cases b with
  | none => exact le_rfl
  | some r =>
      have hok := (h r rfl).1
      by_cases ht : t < r.deadline
      · rw [level_some ht]
        exact le_min (hn.bounds hok).2 (hn.grows hok (le_max_left _ _))
      · rw [level_dropped ht]
        exact (hn.bounds hok).2

omit [IsStrictOrderedRing K] in
theorem amount_le_live (hn : Nearly capacity rate slack cost ok fill)
    (h : Sound capacity rate ok b) : amount capacity b ≤ amount capacity (live t b) := by
  cases hlive : live t b with
  | none => exact amount_le_capacity hn h
  | some r =>
      rw [(live_eq_some.mp hlive).1]

/-- A level below the capacity has all that came since the record, but for the slack. -/
theorem le_level (hn : Nearly capacity rate slack cost ok fill) (h : Sound capacity rate ok b)
    (hb : ∀ r ∈ b, r.timestamp ≤ now) (hless : level capacity fill now b < capacity) :
    ∃ r, b = some r ∧
      r.tokens + (now - r.timestamp) * rate ≤ level capacity fill now b + slack := by
  cases b with
  | none => exact absurd hless (lt_irrefl capacity)
  | some r =>
      refine ⟨r, rfl, ?_⟩
      by_cases hnow : now < r.deadline
      · rw [level_some hnow] at hless ⊢
        rw [max_eq_right (sub_nonneg.mpr (hb r rfl))] at hless ⊢
        have hfill := (min_lt_iff.mp hless).resolve_left (lt_irrefl capacity)
        rw [min_eq_right hfill.le]
        exact hn.le_fill (h r rfl).1 (sub_nonneg.mpr (hb r rfl)) hfill
      · rw [level_dropped hnow] at hless
        exact absurd hless (lt_irrefl capacity)

end Level

section Take

variable {capacity rate slack ttl cost now t : K} {ok : K → Prop} {fill : K → K → K}
  {b : Option (Bucket K)}

theorem take_eq_true : (take capacity fill ttl now cost b).1 = true ↔
    cost ≤ level capacity fill now b := by
  unfold take
  by_cases hless : level capacity fill now b < cost
  · rw [if_pos hless]
    exact iff_of_false Bool.false_ne_true (not_le.mpr hless)
  · rw [if_neg hless]
    exact iff_of_true rfl (not_lt.mp hless)

theorem timestamp_take (hle : t ≤ now) (hb : ∀ r ∈ b, r.timestamp ≤ now) :
    ∀ r ∈ (take capacity fill ttl t cost b).2, r.timestamp ≤ now := by
  unfold take
  split
  case isTrue =>
    intro r hr
    exact hb r (Option.mem_def.mpr (live_eq_some.mp hr).1)
  case isFalse =>
    intro r hr
    cases hr
    exact hle

theorem ok_level_sub (hn : Nearly capacity rate slack cost ok fill) (h : Sound capacity rate ok b)
    (henough : cost ≤ level capacity fill now b) : ok (level capacity fill now b - cost) := by
  unfold level at henough ⊢
  cases hlive : live now b with
  | none =>
    rw [hlive] at henough
    exact hn.capacity_sub henough
  | some r =>
    rw [hlive] at henough
    dsimp only at henough ⊢
    have hok := (h r (Option.mem_def.mpr (live_eq_some.mp hlive).1)).1
    have hdelta := le_max_left 0 (now - r.timestamp)
    rcases le_total capacity (fill r.tokens (max 0 (now - r.timestamp))) with hfull | hpart
    · rw [min_eq_left hfull] at henough ⊢
      exact hn.capacity_sub henough
    · rw [min_eq_right hpart] at henough ⊢
      exact hn.fill_sub hok hdelta henough hpart

theorem sound_take (hn : Nearly capacity rate slack cost ok fill) (httl : capacity ≤ ttl * rate)
    (h : Sound capacity rate ok b) :
    Sound capacity rate ok (take capacity fill ttl now cost b).2 := by
  unfold take
  split
  case isTrue => exact sound_live h
  case isFalse henough =>
    intro r hr
    cases hr
    refine ⟨ok_level_sub hn h (not_lt.mp henough), ?_⟩
    show capacity ≤ (now + ttl - now) * rate
    rwa [add_sub_cancel_left]

variable [IsStrictOrderedRing K]

/-- What is granted is taken from the exact level, but for the slack. -/
theorem level_take (hn : Nearly capacity rate slack cost ok fill) (hslack : 0 ≤ slack)
    (httl : 0 < ttl) (h : Sound capacity rate ok b) :
    level capacity (steady rate) now (take capacity fill ttl now cost b).2 ≤
      level capacity (steady rate) now b -
        if (take capacity fill ttl now cost b).1 then cost - slack else 0 := by
  have hnear : level capacity fill now b ≤ level capacity (steady rate) now b + slack :=
    level_le_steady hslack hn h
  unfold take
  by_cases hless : level capacity fill now b < cost
  · rw [if_pos hless, if_neg Bool.false_ne_true, sub_zero]
    exact level_live.le
  · rw [if_neg hless, if_pos rfl, level_some (lt_add_of_pos_right now httl)]
    refine (min_le_right _ _).trans ?_
    show level capacity fill now b - cost + max 0 (now - now) * rate ≤ _
    rw [sub_self, max_self, zero_mul, add_zero]
    linarith

end Take

section Takes

variable [IsStrictOrderedRing K] {capacity rate slack ttl cost now : K} {ok : K → Prop}
  {fill : K → K → K} {b : Option (Bucket K)}

/-- A number for each one that is granted. -/
def granted (cost : K) : List Bool → K
  | [] => 0
  | g :: gs => (if g then cost else 0) + granted cost gs

omit [LinearOrder K] [IsStrictOrderedRing K] in
theorem granted_eq (cost : K) (gs : List Bool) : granted cost gs = gs.count true * cost := by
  induction gs with
  | nil => simp [granted]
  | cons g gs ih =>
      unfold granted
      rw [ih, List.count_cons]
      cases g with
      | false => simp
      | true => simp; ring

omit [IsStrictOrderedRing K] in
theorem sound_takes (hn : Nearly capacity rate slack cost ok fill) (httl : capacity ≤ ttl * rate)
    {nows : List K} (h : Sound capacity rate ok b) :
    Sound capacity rate ok (takes capacity fill ttl cost nows b).2 := by
  induction nows generalizing b with
  | nil => exact h
  | cons t ts ih => exact ih (sound_take hn httl h)

omit [IsStrictOrderedRing K] in
theorem timestamp_takes {nows : List K} (hle : ∀ t ∈ nows, t ≤ now)
    (hb : ∀ r ∈ b, r.timestamp ≤ now) :
    ∀ r ∈ (takes capacity fill ttl cost nows b).2, r.timestamp ≤ now := by
  induction nows generalizing b with
  | nil => exact hb
  | cons t ts ih =>
      exact ih (fun t' ht' => hle t' (List.mem_cons_of_mem _ ht'))
        (timestamp_take (hle t (List.mem_cons_self ..)) hb)

theorem granted_le (hn : Nearly capacity rate slack cost ok fill) (hrate : 0 ≤ rate)
    (hslack : 0 ≤ slack) (httl : 0 < ttl) (hfull : capacity ≤ ttl * rate)
    {nows : List K} (h : Sound capacity rate ok b) :
    granted (cost - slack) (takes capacity fill ttl cost nows b).1 +
        level capacity (steady rate) (nows.getLastD now) (takes capacity fill ttl cost nows b).2 ≤
      level capacity (steady rate) now b + forward now nows * rate := by
  induction nows generalizing b now with
  | nil =>
      simp only [takes, granted, forward, List.getLastD_nil, zero_add, zero_mul, add_zero, le_rfl]
  | cons t ts ih =>
      have hsound : Sound capacity rate ok (take capacity fill ttl t cost b).2 :=
        sound_take hn hfull h
      have hrest : granted (cost - slack) (takes capacity fill ttl cost ts
            (take capacity fill ttl t cost b).2).1 +
          level capacity (steady rate) (ts.getLastD t) (takes capacity fill ttl cost ts
            (take capacity fill ttl t cost b).2).2 ≤
          level capacity (steady rate) t (take capacity fill ttl t cost b).2 +
            forward t ts * rate := ih hsound
      have htaken : level capacity (steady rate) t (take capacity fill ttl t cost b).2 ≤
          level capacity (steady rate) t b -
            if (take capacity fill ttl t cost b).1 then cost - slack else 0 :=
        level_take hn hslack httl h
      have hgrow : level capacity (steady rate) t b ≤
          level capacity (steady rate) now b + max 0 (t - now) * rate := level_le hrate hn h
      rw [List.getLastD_cons]
      simp only [takes, granted, forward, add_mul]
      linarith

/-- What a record has is granted or is there at the end. -/
theorem amount_le_granted (hn : Nearly capacity rate slack cost ok fill)
    (httl : capacity ≤ ttl * rate) {nows : List K} (h : Sound capacity rate ok b) :
    amount capacity b ≤ granted cost (takes capacity fill ttl cost nows b).1 +
      level capacity fill (nows.getLastD now) (takes capacity fill ttl cost nows b).2 := by
  induction nows generalizing b now with
  | nil =>
      simp only [takes, granted, List.getLastD_nil, zero_add]
      exact amount_le_level hn h
  | cons t ts ih =>
      have hrest : amount capacity (take capacity fill ttl t cost b).2 ≤
          granted cost (takes capacity fill ttl cost ts (take capacity fill ttl t cost b).2).1 +
            level capacity fill (ts.getLastD t)
              (takes capacity fill ttl cost ts (take capacity fill ttl t cost b).2).2 :=
        ih (sound_take hn httl h)
      have hnow : amount capacity b ≤ level capacity fill t b := amount_le_level hn h
      rw [List.getLastD_cons]
      simp only [takes, granted]
      unfold take at hrest ⊢
      by_cases hless : level capacity fill t b < cost
      · simp only [if_pos hless] at hrest ⊢
        rw [if_neg Bool.false_ne_true, zero_add]
        exact (amount_le_live hn h).trans hrest
      · simp only [if_neg hless, if_true] at hrest ⊢
        have hleft : level capacity fill t b - cost ≤ _ := hrest
        linarith

/-- While the clock does not go backwards: the bucket was full, and then what is not granted is
there, or a record was never full, and all that came is granted or there, but for the slack. -/
theorem le_granted (hn : Nearly capacity rate slack cost ok fill) (hcost : 0 ≤ cost)
    (httl : capacity ≤ ttl * rate) {nows : List K} (h : Sound capacity rate ok b)
    (hsorted : (now :: nows).Pairwise (· ≤ ·)) (hb : ∀ r ∈ b, r.timestamp ≤ now) :
    capacity ≤ granted cost (takes capacity fill ttl cost nows b).1 +
        level capacity fill (nows.getLastD now) (takes capacity fill ttl cost nows b).2 ∨
      ∃ r, b = some r ∧ r.tokens + (nows.getLastD now - r.timestamp) * rate ≤
        granted (cost + slack) (takes capacity fill ttl cost nows b).1 +
          level capacity fill (nows.getLastD now) (takes capacity fill ttl cost nows b).2 +
          slack := by
  induction nows generalizing b now with
  | nil =>
      simp only [takes, granted, List.getLastD_nil, zero_add]
      rcases lt_or_ge (level capacity fill now b) capacity with hless | hfull
      · exact Or.inr (le_level hn h hb hless)
      · exact Or.inl hfull
  | cons t ts ih =>
      obtain ⟨hfirst, htail⟩ := List.pairwise_cons.mp hsorted
      have ht := hfirst t (List.mem_cons_self ..)
      have hb' : ∀ r ∈ b, r.timestamp ≤ t := fun r hr => le_trans (hb r hr) ht
      have hsound : Sound capacity rate ok (take capacity fill ttl t cost b).2 :=
        sound_take hn httl h
      have hrest := ih hsound htail (timestamp_take le_rfl hb')
      have hkept : amount capacity (take capacity fill ttl t cost b).2 ≤
          granted cost (takes capacity fill ttl cost ts (take capacity fill ttl t cost b).2).1 +
            level capacity fill (ts.getLastD t)
              (takes capacity fill ttl cost ts (take capacity fill ttl t cost b).2).2 :=
        amount_le_granted hn httl hsound
      rw [List.getLastD_cons]
      simp only [takes, granted]
      unfold take at hrest hkept ⊢
      by_cases hless : level capacity fill t b < cost
      · simp only [if_pos hless] at hrest hkept ⊢
        rw [if_neg Bool.false_ne_true, if_neg Bool.false_ne_true, zero_add, zero_add]
        rcases hrest with hfull | ⟨r, hr, hpart⟩
        · exact Or.inl hfull
        · exact Or.inr ⟨r, (live_eq_some.mp hr).1, hpart⟩
      · simp only [if_neg hless, if_true] at hrest hkept ⊢
        have hleft : level capacity fill t b - cost ≤ _ := hkept
        rcases hrest with hfull | ⟨r, hr, hpart⟩
        · exact Or.inl (by linarith)
        · cases hr
          rcases lt_or_ge (level capacity fill t b) capacity with hbelow | hat
          · obtain ⟨r, hr, hlevel⟩ := le_level hn h hb' hbelow
            refine Or.inr ⟨r, hr, ?_⟩
            have hsplit : (ts.getLastD t - r.timestamp) * rate =
                (t - r.timestamp) * rate + (ts.getLastD t - t) * rate := by ring
            rw [hsplit]
            linarith
          · exact Or.inl (by linarith)

end Takes

end RagFlow.TokenBucket
