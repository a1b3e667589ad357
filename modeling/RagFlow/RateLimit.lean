import RagFlow.PyStr
import RagFlow.RateRounding

/-! # The rate limit of webhooks

`_validate_rate_limit` in front of the webhook of an agent, with `LUA_TOKEN_BUCKET_SCRIPT`, which
Redis runs for it.  Both compute in double precision.  One clock serves Redis and the server.

* **Script.** It takes from the bucket of the library (`luaTokenBucket_eq_take`), and its record is
  dropped after the bucket is full (`le_ttl`).  With a limit of at most `2 ^ 53` the bucket fills at
  the rate, but for a slack of `2 ^ (-49)` of the limit (`nearly_fill`).
* **Agents.** A request reads and writes the bucket of its own agent (`store_run`).
* **Quota.** In any part of a run, an agent is given its limit at once, and from then on no more
  than the clock goes forwards, but for the slack at each request (`accepted_le_quota`).
* **Refusals.** An agent is turned away only if it was given its limit within the last window, which
  the slack makes longer (`limit_le_accepted`). -/

namespace RagFlow.RateLimit

open Py TokenBucket Binary64

/-- `security_cfg["rate_limit"]`: the keys that are read. -/
structure Config where
  /-- `int` of it. -/
  limit : Option ℤ
  per : Option Str
  /-- Whether it has a key that is not read. -/
  others : Bool
deriving DecidableEq

/-- An empty dictionary is no limit. -/
def Config.isEmpty (rl : Config) : Bool := rl.limit.isNone && rl.per.isNone && !rl.others

/-- The seconds of a window. -/
def window (per : Str) : Option ℕ :=
  if per = "second".toList then some 1
  else if per = "minute".toList then some 60
  else if per = "hour".toList then some 3600
  else if per = "day".toList then some 86400
  else none

/-- The hash in Redis, which expires at the deadline. -/
abbrev Record := Bucket ℚ

abbrev Store := Str → Option Record

/-- `LUA_TOKEN_BUCKET_SCRIPT` on one key: what it returns and what is stored.  The capacity comes as
the digits of an integer; Redis returns integers. -/
def luaTokenBucket (capacity : ℤ) (rate now cost : ℚ) (data : Option Record) :
    (ℕ × ℤ) × Option Record :=
  let capacity := nearest capacity
  let data := live now data
  let tokens := (data.map (·.tokens)).getD capacity
  let lastTs := (data.map (·.timestamp)).getD now
  let delta := max 0 (nearest (now - lastTs))
  let tokens := min capacity (nearest (tokens + nearest (delta * rate)))
  if tokens < cost then ((0, ⌊tokens⌋), data)
  else
    let tokens := nearest (tokens - cost)
    let expire := ⌈nearest (nearest (capacity / rate) * 2)⌉
    ((1, ⌊tokens⌋), some ⟨tokens, now, now + expire⟩)

def bucketKey (agentId : Str) : Str := "rl:tb:".toList ++ agentId

def defaultLimit : ℤ := 60

/-- `_validate_rate_limit`. -/
def validateRateLimit (rateLimit : Option Config) (agentId : Str) (now : ℚ) (store : Store) :
    Except Str Unit × Store :=
  match rateLimit with
  | none => (.ok (), store)
  | some rl =>
      if rl.isEmpty then (.ok (), store)
      else
        let limit := rl.limit.getD defaultLimit
        if limit ≤ 0 then (.error "rate_limit.limit must be > 0".toList, store)
        else
          let per := rl.per.getD "minute".toList
          match window per with
          | none => (.error ("Invalid rate_limit.per: ".toList ++ per), store)
          | some window =>
              match trueDiv limit window with
              | none =>
                  (.error "integer division result too large for a float".toList, store)
              | some rate =>
                  let key := bucketKey agentId
                  let res := luaTokenBucket limit rate now 1 (store key)
                  let store := Function.update store key res.2
                  if res.1.1 ≠ 1 then
                    (.error "Rate limit error: Too many requests (rate limit exceeded)".toList,
                      store)
                  else (.ok (), store)

/-! ### Runs -/

structure Request where
  agentId : Str
  now : ℚ

/-- The requests one after the other; `security` is what the agents are configured to. -/
def run (security : Str → Option Config) : List Request → Store → Store
  | [], store => store
  | r :: rs, store =>
      run security rs (validateRateLimit (security r.agentId) r.agentId r.now store).2

/-- The times at which requests of the agent are accepted. -/
def accepted (security : Str → Option Config) (agentId : Str) : List Request → Store → List ℚ
  | [], _ => []
  | r :: rs, store =>
      let res := validateRateLimit (security r.agentId) r.agentId r.now store
      let rest := accepted security agentId rs res.2
      if r.agentId = agentId ∧ res.1 = .ok () then r.now :: rest else rest

/-- The times of the requests of the agent. -/
def times (agentId : Str) (rs : List Request) : List ℚ :=
  (rs.filter (fun r => r.agentId = agentId)).map (·.now)

/-- By how much the clock goes forwards from the first time on. -/
def elapsed : List ℚ → ℚ
  | [] => 0
  | t :: ts => forward t ts

/-- The limit and the window of a configuration that limits.  A larger limit is rounded. -/
def Config.limits (rl : Config) (limit : ℤ) (seconds : ℕ) : Prop :=
  rl.isEmpty = false ∧ rl.limit.getD defaultLimit = limit ∧ 0 < limit ∧ limit ≤ 2 ^ 53 ∧
    window (rl.per.getD "minute".toList) = some seconds

theorem window_bounds {per : Str} {seconds : ℕ} (h : window per = some seconds) :
    0 < seconds ∧ seconds ≤ 86400 := by
  unfold window at h
  split_ifs at h <;> cases h <;> decide

theorem bucketKey_inj {a b : Str} (h : bucketKey a = bucketKey b) : a = b :=
  List.append_cancel_left h

/-! ### The script -/

section Script

variable {limit : ℤ} {rate now : ℚ} {data : Option Record}

theorem max_nearest (x : ℚ) : max 0 (nearest x) = nearest (max 0 x) := by
  rw [nearest_mono.map_max, nearest_zero]

/-- A token is taken from the level without an error. -/
theorem isDouble_level (hpos : 0 < limit) (hle : limit ≤ 2 ^ 53) :
    IsDouble (level (limit : ℚ) (fill rate) now data) := by
  have hlimit : IsDouble (limit : ℚ) := by
    rw [← nearest_limit hpos hle]
    exact isDouble_nearest _
  unfold level
  cases live now data with
  | none => exact hlimit
  | some r =>
      show IsDouble (min (limit : ℚ) (fill rate r.tokens (max 0 (now - r.timestamp))))
      rcases min_choice (limit : ℚ) (fill rate r.tokens (max 0 (now - r.timestamp))) with h | h
      · rw [h]
        exact hlimit
      · rw [h]
        exact isDouble_nearest _

theorem luaTokenBucket_eq_take (hpos : 0 < limit) (hle : limit ≤ 2 ^ 53) :
    ((luaTokenBucket limit rate now 1 data).1.1 = 1 ↔
      (take (limit : ℚ) (fill rate) (expire limit rate) now 1 data).1 = true) ∧
    (luaTokenBucket limit rate now 1 data).2 =
      (take (limit : ℚ) (fill rate) (expire limit rate) now 1 data).2 := by
  have hlevel : min (limit : ℚ) (nearest ((((live now data).map (·.tokens)).getD (limit : ℚ)) +
      nearest (max 0 (nearest (now - ((live now data).map (·.timestamp)).getD now)) * rate))) =
        level (limit : ℚ) (fill rate) now data := by
    unfold level
    cases live now data with
    | none =>
        show min (limit : ℚ) (nearest (limit + nearest (max 0 (nearest (now - now)) * rate))) =
          limit
        rw [sub_self, nearest_zero, max_self, zero_mul, nearest_zero, add_zero,
          nearest_limit hpos hle, min_self]
    | some r =>
        rw [max_nearest]
        rfl
  have hlimit : (limit : ℚ) ≤ 2 ^ 53 := by exact_mod_cast hle
  unfold luaTokenBucket take
  simp only [nearest_limit hpos hle, hlevel]
  by_cases hless : level (limit : ℚ) (fill rate) now data < 1
  · simp [if_pos hless]
  · have hsub : IsDouble (level (limit : ℚ) (fill rate) now data - 1) :=
      isDouble_sub_one (isDouble_level hpos hle) (not_lt.mp hless)
        (level_le_capacity.trans hlimit)
    simp [if_neg hless, nearest_of_isDouble hsub, expire]

end Script

section Validate

variable {security : Str → Option Config} {agentId other : Str} {rl : Config} {limit : ℤ}
  {seconds : ℕ} {now : ℚ} {store : Store}

theorem Config.limits.seconds_bounds (h : rl.limits limit seconds) :
    0 < seconds ∧ seconds ≤ 86400 := window_bounds h.2.2.2.2

theorem Config.limits.nearly (h : rl.limits limit seconds) :
    Nearly (limit : ℚ) (limit / seconds) (slack limit) 1 (Tokens limit)
      (fill (rateOf limit seconds)) :=
  nearly_fill h.2.2.1 h.2.2.2.1 h.seconds_bounds.1 h.seconds_bounds.2

/-- How long a record is kept. -/
def ttl (limit : ℤ) (seconds : ℕ) : ℚ := expire limit (rateOf limit seconds)

/-- What the script does for an agent with a limit. -/
def takeOne (limit : ℤ) (seconds : ℕ) (now : ℚ) (data : Option Record) : Bool × Option Record :=
  take (limit : ℚ) (fill (rateOf limit seconds)) (ttl limit seconds) now 1 data

theorem le_ttl (h : rl.limits limit seconds) : (seconds : ℚ) ≤ ttl limit seconds :=
  le_expire h.2.2.1 h.seconds_bounds.1 h.seconds_bounds.2

theorem ttl_pos (h : rl.limits limit seconds) : 0 < ttl limit seconds := by
  have hs : (0 : ℚ) < seconds := Nat.cast_pos.mpr h.seconds_bounds.1
  exact lt_of_lt_of_le hs (le_ttl h)

theorem rate_pos (h : rl.limits limit seconds) : (0 : ℚ) < limit / seconds :=
  div_pos (Int.cast_pos.mpr h.2.2.1) (Nat.cast_pos.mpr h.seconds_bounds.1)

theorem slack_nonneg (h : rl.limits limit seconds) : 0 ≤ slack limit :=
  div_nonneg (Int.cast_nonneg h.2.2.1.le) (by norm_num)

theorem seconds_mul_rate (h : rl.limits limit seconds) :
    (seconds : ℚ) * (limit / seconds) = limit := by
  have hs : (0 : ℚ) < seconds := Nat.cast_pos.mpr h.seconds_bounds.1
  rw [mul_comm, div_mul_cancel₀ _ (ne_of_gt hs)]

theorem le_ttl_mul_rate (h : rl.limits limit seconds) :
    (limit : ℚ) ≤ ttl limit seconds * (limit / seconds) := by
  have hrate := rate_pos h
  calc (limit : ℚ) = seconds * (limit / seconds) := (seconds_mul_rate h).symm
    _ ≤ ttl limit seconds * (limit / seconds) :=
      mul_le_mul_of_nonneg_right (le_ttl h) hrate.le

theorem validate_limits (h : rl.limits limit seconds) :
    ((validateRateLimit (some rl) agentId now store).1 = .ok () ↔
      (takeOne limit seconds now (store (bucketKey agentId))).1 = true) ∧
    (validateRateLimit (some rl) agentId now store).2 = Function.update store (bucketKey agentId)
      (takeOne limit seconds now (store (bucketKey agentId))).2 := by
  have hseconds := h.seconds_bounds
  obtain ⟨hempty, hlimit, hpos, hle, hwindow⟩ := h
  have hrate : trueDiv limit seconds = some (rateOf limit seconds) := by
    have hdiv := trueDiv_eq_some (b := seconds) hpos (by exact_mod_cast hseconds.1) (by omega)
    rw [hdiv]
    rfl
  obtain ⟨hone, hdata⟩ := @luaTokenBucket_eq_take limit (rateOf limit seconds) now
    (store (bucketKey agentId)) hpos hle
  unfold validateRateLimit
  simp only [hempty, hlimit, hwindow, hrate, Bool.false_eq_true, if_false, not_le.mpr hpos]
  show _ ∧ _ = Function.update store (bucketKey agentId) (take (limit : ℚ)
    (fill (rateOf limit seconds)) (expire limit (rateOf limit seconds)) now 1
      (store (bucketKey agentId))).2
  rw [← hdata]
  by_cases hgranted : (take (limit : ℚ) (fill (rateOf limit seconds))
      (expire limit (rateOf limit seconds)) now 1 (store (bucketKey agentId))).1 = true
  · rw [if_neg (not_not.mpr (hone.mpr hgranted))]
    exact ⟨iff_of_true rfl hgranted, rfl⟩
  · rw [if_pos (fun h => hgranted (hone.mp h))]
    exact ⟨iff_of_false (by simp) hgranted, rfl⟩

/-- A request leaves the buckets of the other agents. -/
theorem store_validate (cfg : Option Config) (hne : other ≠ agentId) :
    (validateRateLimit cfg other now store).2 (bucketKey agentId) = store (bucketKey agentId) := by
  have hkey : bucketKey agentId ≠ bucketKey other := fun h => hne (bucketKey_inj h).symm
  unfold validateRateLimit
  cases cfg with
  | none => rfl
  | some rl =>
      dsimp only
      split
      · rfl
      · split
        · rfl
        · split
          · rfl
          · split
            · rfl
            · split
              · exact Function.update_of_ne hkey _ _
              · exact Function.update_of_ne hkey _ _

/-- One after the other on the bucket of the agent. -/
def takeAll (limit : ℤ) (seconds : ℕ) (ts : List ℚ) (data : Option Record) :
    List Bool × Option Record :=
  takes (limit : ℚ) (fill (rateOf limit seconds)) (ttl limit seconds) 1 ts data

theorem takeAll_cons (t : ℚ) (ts : List ℚ) (data : Option Record) :
    takeAll limit seconds (t :: ts) data =
      let first := takeOne limit seconds t data
      let rest := takeAll limit seconds ts first.2
      (first.1 :: rest.1, rest.2) := rfl

theorem store_run (hsecurity : security agentId = some rl) (h : rl.limits limit seconds)
    (rs : List Request) (store : Store) :
    ((accepted security agentId rs store).length : ℚ) =
        granted 1 (takeAll limit seconds (times agentId rs) (store (bucketKey agentId))).1 ∧
      run security rs store (bucketKey agentId) =
        (takeAll limit seconds (times agentId rs) (store (bucketKey agentId))).2 := by
  induction rs generalizing store with
  | nil => exact ⟨Nat.cast_zero, rfl⟩
  | cons r rs ih =>
      by_cases hagent : r.agentId = agentId
      · have hstep := @validate_limits agentId rl limit seconds r.now store h
        have hrest := ih (validateRateLimit (security r.agentId) r.agentId r.now store).2
        have htimes : times agentId (r :: rs) = r.now :: times agentId rs := by
          unfold times
          rw [List.filter_cons, if_pos (decide_eq_true hagent), List.map_cons]
        rw [hagent, hsecurity, hstep.2, Function.update_self] at hrest
        rw [htimes, takeAll_cons]
        unfold accepted run granted
        dsimp only
        rw [hagent, hsecurity, hstep.2, ← hrest.1]
        refine ⟨?_, hrest.2⟩
        by_cases htaken : (takeOne limit seconds r.now (store (bucketKey agentId))).1 = true
        · rw [if_pos ⟨rfl, hstep.1.mpr htaken⟩]
          rw [if_pos htaken, List.length_cons, Nat.cast_succ, add_comm]
        · rw [if_neg (fun hand => htaken (hstep.1.mp hand.2))]
          rw [if_neg htaken, zero_add]
      · have hrest := ih (validateRateLimit (security r.agentId) r.agentId r.now store).2
        have htimes : times agentId (r :: rs) = times agentId rs := by
          unfold times
          rw [List.filter_cons, if_neg (fun hand => hagent (of_decide_eq_true hand))]
        rw [store_validate _ hagent] at hrest
        rw [htimes]
        unfold accepted run
        rw [if_neg (fun hand => hagent hand.1)]
        exact hrest

theorem accepted_cons (r : Request) (rs : List Request) (store : Store) :
    accepted security agentId (r :: rs) store =
      let res := validateRateLimit (security r.agentId) r.agentId r.now store
      let rest := accepted security agentId rs res.2
      if r.agentId = agentId ∧ res.1 = .ok () then r.now :: rest else rest := rfl

theorem run_append (xs ys : List Request) (store : Store) :
    run security (xs ++ ys) store = run security ys (run security xs store) := by
  induction xs generalizing store with
  | nil => rfl
  | cons r rs ih => exact ih _

theorem accepted_append (xs ys : List Request) (store : Store) :
    accepted security agentId (xs ++ ys) store =
      accepted security agentId xs store ++
        accepted security agentId ys (run security xs store) := by
  induction xs generalizing store with
  | nil => rfl
  | cons r rs ih =>
      rw [List.cons_append, accepted_cons, accepted_cons]
      dsimp only
      rw [ih]
      split
      case isTrue => rfl
      case isFalse => rfl

theorem times_append (xs ys : List Request) :
    times agentId (xs ++ ys) = times agentId xs ++ times agentId ys := by
  unfold times
  rw [List.filter_append, List.map_append]

theorem times_singleton (agentId : Str) (now : ℚ) : times agentId [⟨agentId, now⟩] = [now] := by
  simp [times]

theorem mem_times {t : ℚ} {rs : List Request} (h : t ∈ times agentId rs) :
    ∃ r ∈ rs, r.now = t := by
  obtain ⟨r, hr, ht⟩ := List.mem_map.mp h
  exact ⟨r, List.mem_of_mem_filter hr, ht⟩

/-- What is accepted was requested. -/
theorem mem_accepted {t : ℚ} (rs : List Request) (store : Store)
    (h : t ∈ accepted security agentId rs store) : ∃ r ∈ rs, r.now = t := by
  induction rs generalizing store with
  | nil => exact absurd h List.not_mem_nil
  | cons r rs ih =>
      rw [accepted_cons] at h
      dsimp only at h
      split at h
      case isTrue =>
        rcases List.mem_cons.mp h with rfl | hrest
        · exact ⟨r, List.mem_cons_self .., rfl⟩
        · obtain ⟨r', hr', ht⟩ := ih _ hrest
          exact ⟨r', List.mem_cons_of_mem _ hr', ht⟩
      case isFalse =>
        obtain ⟨r', hr', ht⟩ := ih _ h
        exact ⟨r', List.mem_cons_of_mem _ hr', ht⟩

/-- The bucket of an agent that requests have been made of. -/
theorem sound_run (hsecurity : security agentId = some rl) (h : rl.limits limit seconds)
    (rs : List Request) : Sound (limit : ℚ) (limit / seconds) (Tokens limit)
      (run security rs (fun _ => none) (bucketKey agentId)) := by
  rw [(store_run hsecurity h rs _).2]
  refine sound_takes h.nearly (le_ttl_mul_rate h) ?_
  intro r hr
  cases hr

theorem timestamp_run (hsecurity : security agentId = some rl) (h : rl.limits limit seconds)
    {rs : List Request} (hle : ∀ r ∈ rs, r.now ≤ now) :
    ∀ b ∈ run security rs (fun _ => none) (bucketKey agentId), b.timestamp ≤ now := by
  rw [(store_run hsecurity h rs _).2]
  refine timestamp_takes ?_ (fun b hb => nomatch hb)
  intro t ht
  obtain ⟨r, hr, rfl⟩ := mem_times ht
  exact hle r hr

theorem times_sorted {rs : List Request} (hsorted : rs.Pairwise (fun r r' => r.now ≤ r'.now)) :
    (times agentId rs).Pairwise (· ≤ ·) := by
  unfold times
  rw [List.pairwise_map]
  exact hsorted.filter _

/-- While the clock does not go backwards, a time cuts a run in two. -/
theorem exists_cut {rs : List Request} (hsorted : rs.Pairwise (fun r r' => r.now ≤ r'.now))
    (t : ℚ) : ∃ before during, before ++ during = rs ∧
      (∀ r ∈ before, r.now ≤ t) ∧ ∀ r ∈ during, t < r.now := by
  induction rs with
  | nil => exact ⟨[], [], rfl, List.forall_mem_nil _, List.forall_mem_nil _⟩
  | cons r rs ih =>
      obtain ⟨hfirst, hrest⟩ := List.pairwise_cons.mp hsorted
      by_cases hle : r.now ≤ t
      · obtain ⟨before, during, rfl, hbefore, hduring⟩ := ih hrest
        exact ⟨r :: before, during, rfl, List.forall_mem_cons.mpr ⟨hle, hbefore⟩, hduring⟩
      · refine ⟨[], r :: rs, rfl, List.forall_mem_nil _, List.forall_mem_cons.mpr ⟨?_, ?_⟩⟩
        · exact not_le.mp hle
        · intro r' hr'
          exact lt_of_lt_of_le (not_le.mp hle) (hfirst r' hr')

/-! ### Quota and refusals -/

/-- One request a second. -/
def oneASecond : Str → Option Config := fun _ => some ⟨some 1, some "second".toList, false⟩

theorem oneASecond_limits : (⟨some 1, some "second".toList, false⟩ : Config).limits 1 1 :=
  ⟨rfl, rfl, Int.one_pos, by decide, rfl⟩

/-- What was not accepted of an agent since a time is in its bucket: its limit, or what has come
since, but for the slack. -/
theorem le_accepted {start : ℚ} (hsecurity : security agentId = some rl)
    (h : rl.limits limit seconds) {rs : List Request} {t : ℚ}
    (hsound : Sound (limit : ℚ) (limit / seconds) (Tokens limit) (store (bucketKey agentId)))
    (hsorted : (start :: times agentId (rs ++ [⟨agentId, t⟩])).Pairwise (· ≤ ·))
    (hstamp : ∀ b ∈ store (bucketKey agentId), b.timestamp ≤ start) :
    (limit : ℚ) ≤ (accepted security agentId (rs ++ [⟨agentId, t⟩]) store).length +
        level (limit : ℚ) (fill (rateOf limit seconds)) t
          (run security (rs ++ [⟨agentId, t⟩]) store (bucketKey agentId)) ∨
      (t - start) * (limit / seconds) ≤
        (accepted security agentId (rs ++ [⟨agentId, t⟩]) store).length * (1 + slack limit) +
          level (limit : ℚ) (fill (rateOf limit seconds)) t
            (run security (rs ++ [⟨agentId, t⟩]) store (bucketKey agentId)) + slack limit := by
  obtain ⟨hcount, hbucket⟩ := store_run hsecurity h (rs ++ [⟨agentId, t⟩]) store
  rw [hcount, hbucket]
  rw [times_append, times_singleton] at hsorted ⊢
  have hgranted := le_granted h.nearly zero_le_one (le_ttl_mul_rate h) hsound hsorted hstamp
  rw [List.getLastD_concat] at hgranted
  rcases hgranted with hfull | ⟨r, hr, hpart⟩
  · exact Or.inl hfull
  · have htokens := (h.nearly.bounds (hsound r (Option.mem_def.mpr hr)).1).1
    have hearlier := hstamp r (Option.mem_def.mpr hr)
    have htime : (t - start) * ((limit : ℚ) / seconds) ≤ (t - r.timestamp) * (limit / seconds) :=
      mul_le_mul_of_nonneg_right (by linarith) (rate_pos h).le
    rw [granted_eq] at hpart ⊢
    rw [mul_one]
    refine Or.inr ?_
    unfold takeAll
    linarith

/-- A request that is turned away finds less than one token, and leaves it. -/
theorem refused_last (hsecurity : security agentId = some rl) (h : rl.limits limit seconds)
    {rs : List Request}
    (hrefused : (validateRateLimit (some rl) agentId now (run security rs store)).1 ≠ .ok ()) :
    accepted security agentId (rs ++ [⟨agentId, now⟩]) store =
        accepted security agentId rs store ∧
      level (limit : ℚ) (fill (rateOf limit seconds)) now
        (run security (rs ++ [⟨agentId, now⟩]) store (bucketKey agentId)) < 1 := by
  have htaken :
      ¬ (takeOne limit seconds now (run security rs store (bucketKey agentId))).1 = true :=
    fun htaken => hrefused ((validate_limits h).1.mpr htaken)
  constructor
  · rw [accepted_append, accepted_cons]
    dsimp only
    rw [hsecurity, if_neg (fun hand => hrefused hand.2)]
    exact List.append_nil _
  · rw [run_append]
    show level _ _ _ ((validateRateLimit (security agentId) agentId now _).2 _) < 1
    rw [hsecurity, (validate_limits h).2, Function.update_self]
    have hless : level (limit : ℚ) (fill (rateOf limit seconds)) now
        (run security rs store (bucketKey agentId)) < 1 :=
      not_le.mp (fun hle => htaken (take_eq_true.mpr hle))
    unfold takeOne take
    rw [if_pos hless, level_live]
    exact hless

/-- The window of a refusal: what rounding adds to the limit has to come as well. -/
def longWindow (limit : ℤ) (seconds : ℕ) : ℚ := seconds * (1 + slack limit)

theorem longWindow_mul_rate (h : rl.limits limit seconds) :
    longWindow limit seconds * (limit / seconds) = limit * (1 + slack limit) := by
  have hrate := seconds_mul_rate h
  unfold longWindow
  rw [mul_right_comm, hrate]

/-- An agent is turned away only if it was given its limit within the last window. -/
theorem limit_le_accepted (hsecurity : security agentId = some rl) (h : rl.limits limit seconds)
    {rs : List Request} (hsorted : rs.Pairwise (fun r r' => r.now ≤ r'.now))
    (hlast : ∀ r ∈ rs, r.now ≤ now)
    (hrefused : (validateRateLimit (some rl) agentId now (run security rs (fun _ => none))).1 ≠
      .ok ()) :
    limit ≤ ((accepted security agentId rs (fun _ => none)).filter
      (now - longWindow limit seconds < ·)).length := by
  obtain ⟨before, during, rfl, hbefore, hduring⟩ :=
    exists_cut hsorted (now - longWindow limit seconds)
  -- What was accepted within the window is what was accepted of the second part.
  have hold : (accepted security agentId before (fun _ => none)).filter
      (now - longWindow limit seconds < ·) = [] := by
    refine List.filter_eq_nil_iff.mpr fun t ht => ?_
    obtain ⟨r, hr, rfl⟩ := mem_accepted before _ ht
    rw [decide_eq_true_eq]
    exact not_lt.mpr (hbefore r hr)
  have hnew : (accepted security agentId during (run security before (fun _ => none))).filter
      (now - longWindow limit seconds < ·) = accepted security agentId during
        (run security before (fun _ => none)) := by
    refine List.filter_eq_self.mpr fun t ht => ?_
    obtain ⟨r, hr, rfl⟩ := mem_accepted during _ ht
    exact decide_eq_true (hduring r hr)
  rw [accepted_append, List.filter_append, hold, hnew, List.nil_append]
  rw [run_append] at hrefused
  obtain ⟨hsame, hlevel⟩ := refused_last hsecurity h hrefused
  have hwindow : 0 ≤ longWindow limit seconds :=
    mul_nonneg (Nat.cast_nonneg seconds) (add_nonneg zero_le_one (slack_nonneg h))
  have hin : ((now - longWindow limit seconds) ::
      times agentId (during ++ [⟨agentId, now⟩])).Pairwise (· ≤ ·) := by
    refine List.pairwise_cons.mpr ⟨?_, times_sorted ?_⟩
    · intro t ht
      obtain ⟨r, hr, rfl⟩ := mem_times ht
      rcases List.mem_append.mp hr with hr | hr
      · exact (hduring r hr).le
      · rw [List.mem_singleton.mp hr]
        exact sub_le_self _ hwindow
    · refine List.pairwise_append.mpr ⟨(List.pairwise_append.mp hsorted).2.1,
        List.pairwise_singleton _ _, ?_⟩
      intro r hr r' hr'
      rw [List.mem_singleton.mp hr']
      exact hlast r (List.mem_append_right _ hr)
  have hgiven := le_accepted hsecurity h (sound_run hsecurity h before) hin
    (timestamp_run hsecurity h hbefore)
  rw [hsame, sub_sub_cancel, longWindow_mul_rate h] at hgiven
  by_contra hfew
  -- With fewer than the limit, all that has come in the window would have been given.
  have hfewer : ((accepted security agentId during
      (run security before (fun _ => none))).length : ℚ) ≤ limit - 1 := by
    have hint := Int.le_sub_one_of_lt (not_le.mp hfew)
    exact_mod_cast hint
  have hslack := slack_nonneg h
  rcases hgiven with hfull | hpart
  · linarith
  · nlinarith

theorem limit_le_accepted_sample : (1 : ℤ) ≤ ((accepted oneASecond ['a'] [⟨['a'], 5⟩]
    (fun _ => none)).filter ((5 : ℚ) - longWindow 1 1 < ·)).length :=
  limit_le_accepted rfl oneASecond_limits (List.pairwise_singleton _ _)
    (by intro r hr; rw [List.mem_singleton.mp hr]) (by decide +kernel)

end Validate

end RagFlow.RateLimit
