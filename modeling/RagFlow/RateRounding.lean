import RagFlow.Binary64
import RagFlow.TokenBucket

/-! # Filling a bucket in double precision

`limit` tokens come in `seconds` seconds, at a rate that is rounded.  The time is rounded, what
comes in it, and what there is then.  With a limit of at most `2 ^ 53` nothing is lost when a token
is taken (`isDouble_sub_one`), and the bucket fills at the exact rate but for `slack`
(`nearly_fill`). -/

namespace RagFlow.RateLimit

open TokenBucket Binary64

variable {u x d rate rate' capacity delta : ℚ}

/-- The rounded time at the rounded rate gives no more than the time at the rate, but for some. -/
theorem mul_le_of_near (hu : 0 ≤ u) (hsmall : u ≤ 1 / 100) (hrate : 0 ≤ rate)
    (hcapacity : rate ≤ capacity) (hd : 0 ≤ d) (hle : d * rate ≤ capacity)
    (hdelta : delta ≤ d + (u * d + u ^ 2)) (hrate' : 0 ≤ rate')
    (hnear : rate' ≤ rate + 2 * u * rate) :
    delta * rate' ≤ d * rate + 4 * u * capacity := by
  have hpos : 0 ≤ capacity := hrate.trans hcapacity
  calc delta * rate' ≤ (d + (u * d + u ^ 2)) * rate' := by gcongr
    _ ≤ (d + (u * d + u ^ 2)) * (rate + 2 * u * rate) := by gcongr
    _ = d * rate + u * (3 + 2 * u) * (d * rate) + u ^ 2 * (1 + 2 * u) * rate := by ring
    _ ≤ d * rate + u * (3 + 2 * u) * capacity + u ^ 2 * (1 + 2 * u) * capacity := by gcongr
    _ = d * rate + (3 + 3 * u + 2 * u ^ 2) * (u * capacity) := by ring
    _ ≤ d * rate + 4 * (u * capacity) := by
      have hfour : 3 + 3 * u + 2 * u ^ 2 ≤ 4 := by nlinarith
      gcongr
    _ = d * rate + 4 * u * capacity := by ring

/-- And no less, as long as that is no more than the capacity. -/
theorem le_mul_of_near (hu : 0 ≤ u) (hsmall : u ≤ 1 / 100) (hrate : 0 ≤ rate)
    (hcapacity : rate ≤ capacity) (hd : 0 ≤ d) (hdelta : d ≤ delta + (u * d + u ^ 2))
    (hup : rate' ≤ rate + 2 * u * rate) (hnear : rate ≤ rate' + 2 * u * rate)
    (hle : delta * rate' ≤ capacity) :
    d * rate ≤ delta * rate' + 5 * u * capacity := by
  have hpos : 0 ≤ capacity := hrate.trans hcapacity
  have hgain : 0 ≤ d * rate := mul_nonneg hd hrate
  have hprod : (d - u * d) * (rate - 2 * u * rate) ≤ (delta + u ^ 2) * rate' := by
    have htime : 0 ≤ d - u * d := by nlinarith
    have hslow : 0 ≤ rate - 2 * u * rate := by nlinarith
    exact mul_le_mul (by linarith) (by linarith) hslow (by linarith)
  have hsquare : u ^ 2 * rate' ≤ u ^ 2 * (2 * capacity) := by
    have htwice : rate' ≤ 2 * capacity := by nlinarith
    gcongr
  have hmost : d * rate * (1 - 3 * u) ≤ delta * rate' + 2 * u ^ 2 * capacity := by
    have hrest : 0 ≤ u ^ 2 * (d * rate) := by positivity
    nlinarith
  -- The gain itself is not much above the capacity, so a part `u` of it is one of the capacity.
  have hsmaller : u ^ 2 * capacity ≤ u * (1 / 100) * capacity := by
    have hsq : u ^ 2 ≤ u * (1 / 100) := by nlinarith
    gcongr
  have hrough : d * rate ≤ 5 / 4 * capacity := by
    have hthird : u * (d * rate) ≤ 1 / 100 * (d * rate) := by gcongr
    have hpart : u * capacity ≤ 1 / 100 * capacity := by gcongr
    linarith
  have hpart : u * (d * rate) ≤ u * (5 / 4 * capacity) := by gcongr
  have hsome : 0 ≤ u * capacity := by positivity
  linarith

/-- The part by which a number is rounded. -/
def unit : ℚ := 1 / 2 ^ 53

theorem nearest_near (hx : 0 ≤ x) :
    nearest x ≤ x + (unit * x + unit ^ 2) ∧ x ≤ nearest x + (unit * x + unit ^ 2) := by
  have herror := FloatFormat.Format.abs_nearest_sub_le_mul_abs (F := FloatFormat.double) x
  have hlast : (2 : ℚ) ^ (-1074 : ℤ) ≤ unit ^ 2 := by
    have hpow : unit ^ 2 = (2 : ℚ) ^ (-106 : ℤ) := by norm_num [unit]
    rw [hpow]
    exact zpow_le_zpow_right₀ one_le_two (by omega)
  have hbound : |nearest x - x| ≤ unit * x + unit ^ 2 := by
    have hpart : |x| / 2 ^ (FloatFormat.double.fraction + 1) = unit * x := by
      rw [abs_of_nonneg hx]
      show x / 2 ^ 53 = 1 / 2 ^ 53 * x
      ring
    rw [hpart] at herror
    exact herror.trans (add_le_add_right hlast _)
  obtain ⟨hlo, hhi⟩ := abs_le.mp hbound
  constructor
  · linarith
  · linarith

theorem unit_pos : 0 < unit := by norm_num [unit]

theorem unit_le : unit ≤ 1 / 100 := by norm_num [unit]

/-! ### The limit -/

variable {limit : ℤ} {seconds : ℕ}

theorem nearest_limit (hpos : 0 < limit) (hle : limit ≤ 2 ^ 53) : nearest (limit : ℚ) = limit := by
  refine nearest_of_isDouble (isDouble_intCast ?_)
  rwa [abs_of_pos hpos]

theorem isDouble_sub_one (hd : IsDouble d) (hone : 1 ≤ d) (hle : d ≤ 2 ^ 53) :
    IsDouble (d - 1) := by
  have hsub : FloatFormat.double.Holds (d - (1 : ℤ)) :=
    FloatFormat.Format.Holds.sub_intCast hd zero_le_one (by simpa using hone) hle
  rw [Int.cast_one] at hsub
  exact hsub

/-- What `x` tokens become after the time `d`. -/
def fill (rate x d : ℚ) : ℚ := nearest (x + nearest (nearest d * rate))

/-- The rate as a double. -/
def rateOf (limit : ℤ) (seconds : ℕ) : ℚ := nearest (limit / seconds)

theorem rate_bounds (hlimit : 0 < limit) (hseconds : 0 < seconds) (hday : seconds ≤ 86400) :
    unit ≤ (limit : ℚ) / seconds ∧ (limit : ℚ) / seconds ≤ limit := by
  have hl : (1 : ℚ) ≤ limit := by exact_mod_cast hlimit
  have hs : (1 : ℚ) ≤ seconds := by exact_mod_cast hseconds
  have hd : (seconds : ℚ) ≤ 86400 := by exact_mod_cast hday
  constructor
  · rw [le_div_iff₀ (by linarith)]
    have hunit : unit * 86400 ≤ 1 := by norm_num [unit]
    have hmul : unit * seconds ≤ unit * 86400 := mul_le_mul_of_nonneg_left hd unit_pos.le
    linarith
  · exact div_le_self (by linarith) hs

theorem rateOf_near (hlimit : 0 < limit) (hseconds : 0 < seconds) (hday : seconds ≤ 86400) :
    rateOf limit seconds ≤ limit / seconds + 2 * unit * (limit / seconds) ∧
      (limit : ℚ) / seconds ≤ rateOf limit seconds + 2 * unit * (limit / seconds) := by
  obtain ⟨hrate, -⟩ := rate_bounds hlimit hseconds hday
  obtain ⟨hup, hdown⟩ := nearest_near (unit_pos.le.trans hrate)
  have hsquare : unit ^ 2 ≤ unit * (limit / seconds) := by
    rw [sq]
    exact mul_le_mul_of_nonneg_left hrate unit_pos.le
  unfold rateOf
  constructor
  · linarith
  · linarith

theorem rateOf_nonneg (hlimit : 0 < limit) : 0 ≤ rateOf limit seconds :=
  nearest_nonneg (div_nonneg (Int.cast_nonneg hlimit.le) (Nat.cast_nonneg seconds))

/-- What a record may hold. -/
def Tokens (limit : ℤ) (x : ℚ) : Prop := IsDouble x ∧ 0 ≤ x ∧ x ≤ limit

theorem le_fill (hlimit : 0 < limit) (hx : Tokens limit x) (hd : 0 ≤ d) :
    x ≤ fill (rateOf limit seconds) x d := by
  refine le_nearest hx.1 (le_add_of_nonneg_right (nearest_nonneg ?_))
  exact mul_nonneg (nearest_nonneg hd) (rateOf_nonneg hlimit)

/-- What rounding may add to the tokens at a request. -/
def slack (limit : ℤ) : ℚ := limit / 2 ^ 49

/-- A part `unit` of the limit for each of the roundings, and more. -/
theorem slack_eq : slack limit = 16 * unit * limit := by
  unfold slack unit
  ring

theorem fill_le (hlimit : 0 < limit) (hseconds : 0 < seconds) (hday : seconds ≤ 86400)
    (hx : Tokens limit x) (hd : 0 ≤ d) :
    min (limit : ℚ) (fill (rateOf limit seconds) x d) ≤
      x + d * (limit / seconds) + slack limit := by
  obtain ⟨-, hx₀, hxle⟩ := hx
  have hone : (1 : ℚ) ≤ limit := by exact_mod_cast hlimit
  obtain ⟨hrate, hcapacity⟩ := rate_bounds hlimit hseconds hday
  have hu := unit_pos
  have hsmall := unit_le
  have hsome : 0 < unit * limit := by positivity
  rw [slack_eq]
  rcases le_total (limit : ℚ) (d * (limit / seconds)) with hfull | hpart
  · refine (min_le_left _ _).trans ?_
    linarith
  · refine (min_le_right _ _).trans ?_
    have hgain := mul_le_of_near hu.le hsmall (hu.le.trans hrate) hcapacity hd hpart
      (nearest_near hd).1 (rateOf_nonneg hlimit) (rateOf_near hlimit hseconds hday).1
    have hgain₀ : 0 ≤ nearest d * rateOf limit seconds :=
      mul_nonneg (nearest_nonneg hd) (rateOf_nonneg hlimit)
    have hsum := (nearest_near hgain₀).1
    have hsum₀ : 0 ≤ x + nearest (nearest d * rateOf limit seconds) :=
      add_nonneg hx₀ (nearest_nonneg hgain₀)
    have htotal := (nearest_near hsum₀).1
    unfold fill
    nlinarith

theorem le_fill_add (hlimit : 0 < limit) (hle : limit ≤ 2 ^ 53) (hseconds : 0 < seconds)
    (hday : seconds ≤ 86400) (hx : Tokens limit x) (hd : 0 ≤ d)
    (hless : fill (rateOf limit seconds) x d < limit) :
    x + d * (limit / seconds) ≤ fill (rateOf limit seconds) x d + slack limit := by
  obtain ⟨-, hx₀, hxle⟩ := hx
  have hone : (1 : ℚ) ≤ limit := by exact_mod_cast hlimit
  have hdouble : IsDouble (limit : ℚ) := isDouble_intCast (by rwa [abs_of_pos hlimit])
  obtain ⟨hrate, hcapacity⟩ := rate_bounds hlimit hseconds hday
  obtain ⟨hup, hdown⟩ := rateOf_near hlimit hseconds hday
  have hu := unit_pos
  have hsmall := unit_le
  have hsome : 0 < unit * limit := by positivity
  have hgain₀ : 0 ≤ nearest d * rateOf limit seconds :=
    mul_nonneg (nearest_nonneg hd) (rateOf_nonneg hlimit)
  have hsum₀ : 0 ≤ nearest (nearest d * rateOf limit seconds) := nearest_nonneg hgain₀
  -- Nothing in between has come to the limit.
  have hsum : x + nearest (nearest d * rateOf limit seconds) < limit := by
    by_contra hge
    exact absurd hless (not_lt.mpr (le_nearest hdouble (not_lt.mp hge)))
  have hgain : nearest d * rateOf limit seconds < limit := by
    by_contra hge
    have hrounded := le_nearest hdouble (not_lt.mp hge)
    linarith
  have hprod := le_mul_of_near hu.le hsmall (hu.le.trans hrate) hcapacity hd (nearest_near hd).2
    hup hdown hgain.le
  have hrounded := (nearest_near hgain₀).2
  have htotal := (nearest_near (add_nonneg hx₀ hsum₀)).2
  rw [slack_eq]
  unfold fill
  nlinarith

/-- The bucket of the script fills at the rate, but for the slack. -/
theorem nearly_fill (hlimit : 0 < limit) (hle : limit ≤ 2 ^ 53) (hseconds : 0 < seconds)
    (hday : seconds ≤ 86400) :
    Nearly (limit : ℚ) (limit / seconds) (slack limit) 1 (Tokens limit)
      (fill (rateOf limit seconds)) where
  bounds hx := hx.2
  fill_le hx hd := fill_le hlimit hseconds hday hx hd
  le_fill hx hd hless := le_fill_add hlimit hle hseconds hday hx hd hless
  grows hx hd := le_fill hlimit hx hd
  capacity_sub hcost := by
    have hdouble : IsDouble (limit : ℚ) := isDouble_intCast (by rwa [abs_of_pos hlimit])
    refine ⟨isDouble_sub_one hdouble hcost (by exact_mod_cast hle), ?_, ?_⟩
    · linarith
    · linarith
  fill_sub _ _ hcost hfull := by
    have hpow : (limit : ℚ) ≤ 2 ^ 53 := by exact_mod_cast hle
    refine ⟨isDouble_sub_one (isDouble_nearest _) hcost (hfull.trans hpow), ?_, ?_⟩
    · linarith
    · linarith

/-- The argument of `EXPIRE`. -/
def expire (limit : ℤ) (rate : ℚ) : ℤ := ⌈nearest (nearest (limit / rate) * 2)⌉

/-- The record is not dropped before the window is over. -/
theorem le_expire (hlimit : 0 < limit) (hseconds : 0 < seconds) (hday : seconds ≤ 86400) :
    (seconds : ℚ) ≤ expire limit (rateOf limit seconds) := by
  have hl : (0 : ℚ) < limit := by exact_mod_cast hlimit
  have hs : (0 : ℚ) < seconds := by exact_mod_cast hseconds
  have hrate : 0 < (limit : ℚ) / seconds := div_pos hl hs
  obtain ⟨hup, hdown⟩ := rateOf_near hlimit hseconds hday
  have hsmall : 2 * unit ≤ 1 / 3 := by norm_num [unit]
  have hpart : 2 * unit * ((limit : ℚ) / seconds) ≤ 1 / 3 * (limit / seconds) := by gcongr
  have hpos : 0 < rateOf limit seconds := by linarith
  -- Three quarters of the window are a double, and so is the window.
  have hthree : IsDouble (3 * seconds / 4 : ℚ) := by
    refine ⟨3 * seconds, -2, ?_, by omega, ?_⟩
    · rw [abs_of_nonneg (by omega)]
      omega
    · push_cast
      norm_num
      ring
  have hquot : (3 * seconds / 4 : ℚ) ≤ nearest (limit / rateOf limit seconds) := by
    refine le_nearest hthree ?_
    rw [le_div_iff₀ hpos]
    calc (3 * seconds / 4 : ℚ) * rateOf limit seconds
        ≤ 3 * seconds / 4 * (4 / 3 * (limit / seconds)) := by
          have hfast : rateOf limit seconds ≤ 4 / 3 * (limit / seconds) := by linarith
          gcongr
      _ = limit := by field_simp
  have hwhole : IsDouble (seconds : ℚ) := by
    have hcast : IsDouble ((seconds : ℤ) : ℚ) := isDouble_intCast (by
      rw [abs_of_nonneg (by omega)]
      omega)
    exact_mod_cast hcast
  have htwice : (seconds : ℚ) ≤ nearest (nearest (limit / rateOf limit seconds) * 2) :=
    le_nearest hwhole (by linarith)
  exact htwice.trans (Int.le_ceil _)

end RagFlow.RateLimit
