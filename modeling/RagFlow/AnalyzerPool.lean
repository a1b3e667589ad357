import Mathlib.Algebra.Order.BigOperators.Group.Multiset
import Mathlib.Algebra.Order.Group.Nat
import Mathlib.Data.Multiset.Range
import Mathlib.Tactic.Abel
import RagFlow.Crew

/-! # The pool of analyzers

`internal/tokenizer`: the instances that are not in use wait in a channel, a call takes one, uses
it and puts it back.  An empty pool grows up to `MaxSize`, a loop of its own closes instances that
have not been used for long, and `Close` ends the pool.  A step is one operation on the channel,
on the counter or on the flag, and the steps of any number of calls interleave.

* **Sizes.** `withDefaults` always yields `0 < MinSize ≤ MaxSize`.
* **Instances.** Every analyzer that was made is in the channel, in the hands of one call, in the
  hands of the shrink loop, closed, or lost with a call that sent it to the closed channel:
  `Ledger`.
* **The counter.** It counts the instances and the places that are reserved for one (`Sizes`), so
  a call that puts an instance back finds room.
* **The end.** `Closing` says how far `Close` has come. -/

namespace RagFlow.AnalyzerPool

/-! ### Configuration -/

/-- The sizes of `PoolConfig` and the idle timeout. -/
structure PoolConfig where
  minSize : ℤ
  maxSize : ℤ
  idleTimeout : ℤ

/-- The configuration that `Init` works with on a machine with `numCPU` processors. -/
def PoolConfig.withDefaults (cfg : PoolConfig) (numCPU : ℕ) : PoolConfig :=
  let minSize := if cfg.minSize ≤ 0 then (numCPU : ℤ) * 2 else cfg.minSize
  let maxSize := if cfg.maxSize ≤ 0 then (numCPU : ℤ) * 16 else cfg.maxSize
  { minSize := if minSize > maxSize then maxSize else minSize
    maxSize := maxSize
    idleTimeout := if cfg.idleTimeout ≤ 0 then 5 * 60 * 1000000000 else cfg.idleTimeout }

/-- Sizes as `Init` leaves them; both fit into the counter. -/
structure PoolConfig.Valid (cfg : PoolConfig) : Prop where
  min_pos : 0 < cfg.minSize
  min_le : cfg.minSize ≤ cfg.maxSize
  max_lt : cfg.maxSize < 2 ^ 31

theorem PoolConfig.valid_withDefaults (cfg : PoolConfig) {numCPU : ℕ} (hcpu : 0 < numCPU)
    (hmax : (cfg.withDefaults numCPU).maxSize < 2 ^ 31) : (cfg.withDefaults numCPU).Valid := by
  have hpos : (0 : ℤ) < numCPU := Int.natCast_pos.mpr hcpu
  refine ⟨?_, ?_, hmax⟩
  · unfold withDefaults
    dsimp only
    split_ifs <;> omega
  · unfold withDefaults
    dsimp only
    split_ifs <;> omega

/-! ### The pool -/

/-- An instance: its analyzer, known by a number, and the time of its last use. -/
structure PoolInstance where
  analyzer : ℕ
  lastUsedAt : ℤ

/-- Where the loop is that removes idle instances. -/
inductive ShrinkLoop where
  /-- It waits for the ticker or for `stopCh`. -/
  | waits
  /-- `initialized` was true. -/
  | started
  | collects (left : ℕ) (now : ℤ) (toRemove : List PoolInstance)
  | putsBack (left : ℕ) (now : ℤ) (instance' : PoolInstance) (toRemove : List PoolInstance)
  | closes (toRemove : List PoolInstance) (removed : ℕ)
  | counts (removed : ℕ)
  | returned
  | panicked (toRemove : List PoolInstance)

structure Pool where
  config : PoolConfig
  /-- `baseAnalyzer` has not been closed. -/
  hasBase : Bool
  /-- The buffer of the channel. -/
  instances : List PoolInstance
  channelClosed : Bool
  currentSize : ℤ
  initialized : Bool
  stopChClosed : Bool
  shrinkLoop : ShrinkLoop
  /-- The analyzers made so far have the numbers below this one. -/
  made : ℕ
  /-- The analyzers that were closed, and how many copies failed. -/
  closed : Multiset ℕ
  failures : ℕ

/-- Where a call is. -/
inductive Goroutine where
  | acquire
  /-- `initialized` was true. -/
  | fastPath
  | slowPath
  | compareAndSwap (current : ℤ)
  /-- It has a place in the counter. -/
  | create
  /-- `baseAnalyzer` was not nil. -/
  | copy
  | createFailed
  | wait
  | use (instance' : PoolInstance)
  | release (instance' : PoolInstance)
  | putBack (instance' : PoolInstance)
  /-- The channel was full, the instance is closed. -/
  | discard
  | close
  | closeStopCh
  | waitGroup
  | closeInstances
  | drain
  | closeBase
  /-- A nil instance, a base analyzer that is gone, or a send on a closed channel. -/
  | panicked (instance' : Option PoolInstance)

open Goroutine

/-- `acquire`. -/
inductive Acquire : Pool → Goroutine → Pool → Option Goroutine → Prop
  | notInitialized {p} (h : p.initialized = false) : Acquire p acquire p none
  | initialized {p} (h : p.initialized = true) : Acquire p acquire p (some fastPath)
  | fast {p i rest} (now : ℤ) (h : p.instances = i :: rest) :
      Acquire p fastPath { p with instances := rest } (some (use { i with lastUsedAt := now }))
  | fastNil {p} (h : p.instances = []) (hc : p.channelClosed = true) :
      Acquire p fastPath p (some (panicked none))
  | empty {p} (h : p.instances = []) (hc : p.channelClosed = false) :
      Acquire p fastPath p (some slowPath)
  | below {p} (h : p.currentSize < p.config.maxSize) :
      Acquire p slowPath p (some (compareAndSwap p.currentSize))
  | full {p} (h : ¬ p.currentSize < p.config.maxSize) : Acquire p slowPath p (some wait)
  | swapped {p} :
      Acquire p (compareAndSwap p.currentSize) { p with currentSize := p.currentSize + 1 }
        (some create)
  | notSwapped {p current} (h : p.currentSize ≠ current) :
      Acquire p (compareAndSwap current) p (some wait)
  | noBase {p} (h : p.hasBase = false) : Acquire p create p (some createFailed)
  /-- `Close` closes the base analyzer before it forgets it. -/
  | base {p} : Acquire p create p (some copy)
  /-- The base analyzer may have been closed since, and its memory still be read. -/
  | created {p} (now : ℤ) :
      Acquire p copy { p with made := p.made + 1 } (some (use ⟨p.made, now⟩))
  | notCreated {p} : Acquire p copy p (some createFailed)
  | baseClosed {p} (h : p.hasBase = false) : Acquire p copy p (some (panicked none))
  | undone {p} :
      Acquire p createFailed
        { p with currentSize := p.currentSize - 1, failures := p.failures + 1 } none
  | waited {p i rest} (now : ℤ) (h : p.instances = i :: rest) :
      Acquire p wait { p with instances := rest } (some (use { i with lastUsedAt := now }))
  | waitedNil {p} (h : p.instances = []) (hc : p.channelClosed = true) :
      Acquire p wait p (some (panicked none))
  | timeout {p} : Acquire p wait p none

/-- The function of the call returns, and `release`. -/
inductive Release : Pool → Goroutine → Pool → Option Goroutine → Prop
  | used {p i} : Release p (use i) p (some (release i))
  | notInitialized {p i} (h : p.initialized = false) :
      Release p (release i) { p with closed := i.analyzer ::ₘ p.closed } none
  | initialized {p i} (h : p.initialized = true) : Release p (release i) p (some (putBack i))
  | sendClosed {p i} (hc : p.channelClosed = true) :
      Release p (putBack i) p (some (panicked (some i)))
  | sent {p i} (hc : p.channelClosed = false) (h : (p.instances.length : ℤ) < p.config.maxSize) :
      Release p (putBack i) { p with instances := p.instances ++ [i] } none
  | full {p i} (hc : p.channelClosed = false) (h : ¬ (p.instances.length : ℤ) < p.config.maxSize) :
      Release p (putBack i) { p with closed := i.analyzer ::ₘ p.closed } (some discard)
  | counted {p} : Release p discard { p with currentSize := p.currentSize - 1 } none

/-- `Close`. -/
inductive Close : Pool → Goroutine → Pool → Option Goroutine → Prop
  | notInitialized {p} (h : p.initialized = false) : Close p close p none
  | locked {p} (h : p.initialized = true) :
      Close p close { p with initialized := false } (some closeStopCh)
  | closedTwice {p} (h : p.stopChClosed = true) : Close p closeStopCh p (some (panicked none))
  | stopped {p} (h : p.stopChClosed = false) :
      Close p closeStopCh { p with stopChClosed := true } (some waitGroup)
  | waited {p} (h : p.shrinkLoop = .returned) : Close p waitGroup p (some closeInstances)
  | channelTwice {p} (h : p.channelClosed = true) : Close p closeInstances p (some (panicked none))
  | channel {p} (h : p.channelClosed = false) :
      Close p closeInstances { p with channelClosed := true } (some drain)
  | drained {p i rest} (h : p.instances = i :: rest) :
      Close p drain { p with instances := rest, closed := i.analyzer ::ₘ p.closed } (some drain)
  | empty {p} (h : p.instances = []) : Close p drain p (some closeBase)
  | base {p} : Close p closeBase { p with hasBase := false } none

/-- `shrinkLoop` and `shrink`. -/
inductive Shrink : Pool → Pool → Prop
  | stop {p} (hs : p.shrinkLoop = .waits) (h : p.stopChClosed = true) :
      Shrink p { p with shrinkLoop := .returned }
  | tick {p} (hs : p.shrinkLoop = .waits) (h : p.initialized = true) :
      Shrink p { p with shrinkLoop := .started }
  | tickClosed {p} (hs : p.shrinkLoop = .waits) (h : p.initialized = false) : Shrink p p
  | noNeed {p} (hs : p.shrinkLoop = .started) (h : p.currentSize ≤ p.config.minSize) :
      Shrink p { p with shrinkLoop := .waits }
  | start {p} (hs : p.shrinkLoop = .started) (h : ¬ p.currentSize ≤ p.config.minSize) (now : ℤ) :
      Shrink p { p with
        shrinkLoop := .collects (p.currentSize - p.config.minSize).toNat now [] }
  | idle {p left now toRemove i rest} (hs : p.shrinkLoop = .collects (left + 1) now toRemove)
      (h : p.instances = i :: rest) (ht : now - i.lastUsedAt > p.config.idleTimeout) :
      Shrink p { p with
        instances := rest, shrinkLoop := .collects left now (toRemove ++ [i]) }
  | notIdle {p left now toRemove i rest} (hs : p.shrinkLoop = .collects (left + 1) now toRemove)
      (h : p.instances = i :: rest) (ht : ¬ now - i.lastUsedAt > p.config.idleTimeout) :
      Shrink p { p with instances := rest, shrinkLoop := .putsBack left now i toRemove }
  | nil {p left now toRemove} (hs : p.shrinkLoop = .collects (left + 1) now toRemove)
      (h : p.instances = []) (hc : p.channelClosed = true) :
      Shrink p { p with shrinkLoop := .panicked toRemove }
  | none {p left now toRemove} (hs : p.shrinkLoop = .collects (left + 1) now toRemove)
      (h : p.instances = []) (hc : p.channelClosed = false) :
      Shrink p { p with shrinkLoop := .collects left now toRemove }
  | sendClosed {p left now i toRemove} (hs : p.shrinkLoop = .putsBack left now i toRemove)
      (hc : p.channelClosed = true) :
      Shrink p { p with shrinkLoop := .panicked (toRemove ++ [i]) }
  | sent {p left now i toRemove} (hs : p.shrinkLoop = .putsBack left now i toRemove)
      (hc : p.channelClosed = false) (h : (p.instances.length : ℤ) < p.config.maxSize) :
      Shrink p { p with
        instances := p.instances ++ [i], shrinkLoop := .collects left now toRemove }
  | full {p left now i toRemove} (hs : p.shrinkLoop = .putsBack left now i toRemove)
      (hc : p.channelClosed = false) (h : ¬ (p.instances.length : ℤ) < p.config.maxSize) :
      Shrink p { p with shrinkLoop := .collects left now (toRemove ++ [i]) }
  | collected {p now toRemove} (hs : p.shrinkLoop = .collects 0 now toRemove) :
      Shrink p { p with
        shrinkLoop := if toRemove.length > 0 then .closes toRemove toRemove.length else .waits }
  | close {p i toRemove removed} (hs : p.shrinkLoop = .closes (i :: toRemove) removed) :
      Shrink p { p with
        closed := i.analyzer ::ₘ p.closed, shrinkLoop := .closes toRemove removed }
  | closed {p} {removed : ℕ} (hs : p.shrinkLoop = .closes [] removed) :
      Shrink p { p with shrinkLoop := .counts removed }
  | counted {p} {removed : ℕ} (hs : p.shrinkLoop = .counts removed) :
      Shrink p { p with currentSize := p.currentSize - removed, shrinkLoop := .waits }

/-- Calls of the package and of `Close`, and the loop that `Init` has started. -/
def rules : Crew.Rules Pool Goroutine where
  enters g := g = acquire ∨ g = close
  acts p g p' g' := Acquire p g p' g' ∨ Release p g p' g' ∨ Close p g p' g'
  moves := Shrink

/-! ### Init -/

/-- The pool with `n` instances, before the flag is set. -/
def prewarmed (cfg : PoolConfig) (now : ℤ) (n : ℕ) : Pool where
  config := cfg
  hasBase := true
  instances := (List.range n).map fun k => ⟨k, now⟩
  channelClosed := false
  currentSize := n
  initialized := false
  stopChClosed := false
  shrinkLoop := .waits
  made := n
  closed := 0
  failures := 0

/-- `Init` without an error. -/
def init (cfg : PoolConfig) (now : ℤ) : Pool :=
  { prewarmed cfg now cfg.minSize.toNat with initialized := true }

/-! ### Where the analyzers are -/

/-- The analyzer in the hands of a call. -/
def Goroutine.held : Goroutine → Multiset ℕ
  | use i => {i.analyzer}
  | release i => {i.analyzer}
  | putBack i => {i.analyzer}
  | _ => 0

/-- The analyzer of a call that panicked with it. -/
def Goroutine.lost : Goroutine → Multiset ℕ
  | panicked (some i) => {i.analyzer}
  | _ => 0

def analyzers (l : List PoolInstance) : Multiset ℕ := (l.map (·.analyzer) : List ℕ)

/-- The analyzers in the hands of the loop. -/
def ShrinkLoop.held : ShrinkLoop → Multiset ℕ
  | .collects _ _ toRemove => analyzers toRemove
  | .putsBack _ _ i toRemove => i.analyzer ::ₘ analyzers toRemove
  | .closes toRemove _ => analyzers toRemove
  | .panicked toRemove => analyzers toRemove
  | _ => 0

/-- Every analyzer that was made is in exactly one place. -/
def Ledger (p : Pool) (gs : Multiset Goroutine) : Prop :=
  analyzers p.instances + (gs.map held).sum + (gs.map lost).sum + p.shrinkLoop.held + p.closed
    = Multiset.range p.made

@[simp] theorem analyzers_nil : analyzers [] = 0 := rfl

@[simp] theorem analyzers_cons (i : PoolInstance) (l : List PoolInstance) :
    analyzers (i :: l) = {i.analyzer} + analyzers l := rfl

@[simp] theorem analyzers_concat (l : List PoolInstance) (i : PoolInstance) :
    analyzers (l ++ [i]) = {i.analyzer} + analyzers l := by
  unfold analyzers
  rw [List.map_append, ← Multiset.coe_add, add_comm]
  rfl

variable {p p' : Pool} {g : Goroutine} {g' : Option Goroutine} {gs : Multiset Goroutine}

/-- The ledger does not change if what is in one of the places changes its place. -/
theorem Ledger.of_eq (h : Ledger p (g ::ₘ gs))
    (hmoved : analyzers p'.instances + g'.elim 0 held + g'.elim 0 lost + p'.shrinkLoop.held
      + p'.closed + Multiset.range p.made
      = analyzers p.instances + held g + lost g + p.shrinkLoop.held + p.closed
        + Multiset.range p'.made) :
    Ledger p' (Crew.rejoin g' gs) := by
  unfold Ledger at h ⊢
  rw [Multiset.map_cons, Multiset.sum_cons, Multiset.map_cons, Multiset.sum_cons] at h
  rw [Crew.sum_rejoin, Crew.sum_rejoin]
  refine add_right_cancel (b := Multiset.range p.made) ?_
  calc analyzers p'.instances + (g'.elim 0 held + (gs.map held).sum)
        + (g'.elim 0 lost + (gs.map lost).sum) + p'.shrinkLoop.held + p'.closed
        + Multiset.range p.made
      = (analyzers p'.instances + g'.elim 0 held + g'.elim 0 lost + p'.shrinkLoop.held + p'.closed
        + Multiset.range p.made) + ((gs.map held).sum + (gs.map lost).sum) := by abel
    _ = Multiset.range p'.made + (analyzers p.instances + (held g + (gs.map held).sum)
        + (lost g + (gs.map lost).sum) + p.shrinkLoop.held + p.closed) := by rw [hmoved]; abel
    _ = Multiset.range p'.made + Multiset.range p.made := by rw [h]

theorem Acquire.ledger (hact : Acquire p g p' g') (h : Ledger p (g ::ₘ gs)) :
    Ledger p' (Crew.rejoin g' gs) := by
  refine h.of_eq ?_
  cases hact with
  | fast now hi => simp only [hi, analyzers_cons, held, lost, Option.elim_some]; abel
  | waited now hi => simp only [hi, analyzers_cons, held, lost, Option.elim_some]; abel
  | created now =>
      simp only [held, lost, Option.elim_some, Multiset.range_succ, ← Multiset.singleton_add]
      abel
  | _ => simp [held, lost]

theorem Release.ledger (hact : Release p g p' g') (h : Ledger p (g ::ₘ gs)) :
    Ledger p' (Crew.rejoin g' gs) := by
  refine h.of_eq ?_
  cases hact with
  | notInitialized hi =>
      simp only [held, lost, Option.elim_none, ← Multiset.singleton_add]
      abel
  | sendClosed hc => simp [held, lost]
  | sent hc hi =>
      simp only [analyzers_concat, held, lost, Option.elim_none]
      abel
  | full hc hi =>
      simp only [held, lost, Option.elim_some, ← Multiset.singleton_add]
      abel
  | _ => simp [held, lost]

theorem Close.ledger (hact : Close p g p' g') (h : Ledger p (g ::ₘ gs)) :
    Ledger p' (Crew.rejoin g' gs) := by
  refine h.of_eq ?_
  cases hact with
  | drained hi =>
      simp only [hi, analyzers_cons, held, lost, Option.elim_some, ← Multiset.singleton_add]
      abel
  | _ => simp [held, lost]

theorem Shrink.ledger (hmove : Shrink p p') (h : Ledger p gs) : Ledger p' gs := by
  have hmoved : analyzers p'.instances + p'.shrinkLoop.held + p'.closed
      = analyzers p.instances + p.shrinkLoop.held + p.closed ∧ p'.made = p.made := by
    cases hmove with
    | idle hs hi ht =>
        simp only [hs, hi, ShrinkLoop.held, analyzers_cons, analyzers_concat, and_true]
        abel
    | notIdle hs hi ht =>
        simp only [hs, hi, ShrinkLoop.held, analyzers_cons, ← Multiset.singleton_add, and_true]
        abel
    | sendClosed hs hc =>
        simp only [hs, ShrinkLoop.held, analyzers_concat, ← Multiset.singleton_add, and_true]
    | sent hs hc hi =>
        simp only [hs, ShrinkLoop.held, analyzers_concat, ← Multiset.singleton_add, and_true]
        abel
    | full hs hc hi =>
        simp only [hs, ShrinkLoop.held, analyzers_concat, ← Multiset.singleton_add, and_true]
    | @collected now toRemove hs =>
        cases toRemove with
        | nil => simp [hs, ShrinkLoop.held]
        | cons i toRemove => simp [hs, ShrinkLoop.held]
    | close hs =>
        simp only [hs, ShrinkLoop.held, analyzers_cons, ← Multiset.singleton_add, and_true]
        abel
    | _ => simp [ShrinkLoop.held, *]
  obtain ⟨hmoved, hmade⟩ := hmoved
  unfold Ledger at h ⊢
  rw [hmade, ← h]
  calc analyzers p'.instances + (gs.map held).sum + (gs.map lost).sum + p'.shrinkLoop.held
        + p'.closed
      = (analyzers p'.instances + p'.shrinkLoop.held + p'.closed)
        + ((gs.map held).sum + (gs.map lost).sum) := by abel
    _ = analyzers p.instances + (gs.map held).sum + (gs.map lost).sum + p.shrinkLoop.held
        + p.closed := by
        rw [hmoved]
        abel

/-! ### How far the pool has been closed -/

/-- The call is past the lock of `Close`. -/
def Goroutine.closing : Goroutine → ℕ
  | closeStopCh | waitGroup | closeInstances | drain | closeBase => 1
  | _ => 0

/-- What a call may rely on where it is. -/
def Goroutine.Fits (p : Pool) : Goroutine → Prop
  | compareAndSwap current => current < p.config.maxSize
  | discard => False
  | closeStopCh => p.initialized = false ∧ p.stopChClosed = false ∧ p.channelClosed = false
  | waitGroup => p.initialized = false ∧ p.channelClosed = false
  | closeInstances =>
      p.initialized = false ∧ p.channelClosed = false ∧ p.shrinkLoop = .returned
  | drain => p.channelClosed = true
  | closeBase => p.channelClosed = true ∧ p.instances = []
  | panicked _ => p.channelClosed = true
  | _ => True

/-- `Close` runs once, and what it has closed nobody sends to. -/
structure Closing (p : Pool) (gs : Multiset Goroutine) : Prop where
  fits : ∀ g ∈ gs, Fits p g
  once : (gs.map closing).sum ≤ 1
  isOpen : p.initialized = true →
    (gs.map closing).sum = 0 ∧ p.stopChClosed = false ∧ p.channelClosed = false ∧ p.hasBase = true
  returned : p.channelClosed = true → p.shrinkLoop = .returned
  loop : ∀ toRemove, p.shrinkLoop ≠ .panicked toRemove
  base : p.hasBase = false →
    (gs.map closing).sum = 0 ∧ p.channelClosed = true ∧ p.instances = []

/-- The flags of the pool are as before, and nothing is sent after the end. -/
structure Same (p p' : Pool) : Prop where
  config : p'.config = p.config
  initialized : p'.initialized = p.initialized
  stopChClosed : p'.stopChClosed = p.stopChClosed
  channelClosed : p'.channelClosed = p.channelClosed
  hasBase : p'.hasBase = p.hasBase
  returned : p.shrinkLoop = .returned → p'.shrinkLoop = .returned
  loop : (∀ r, p.shrinkLoop ≠ .panicked r) → ∀ r, p'.shrinkLoop ≠ .panicked r
  empty : p.channelClosed = true → p.instances = [] → p'.instances = []

theorem Acquire.same (hact : Acquire p g p' g') : Same p p' := by
  cases hact with
  | fast now hi => exact ⟨rfl, rfl, rfl, rfl, rfl, id, id, fun _ h => by rw [hi] at h; cases h⟩
  | waited now hi => exact ⟨rfl, rfl, rfl, rfl, rfl, id, id, fun _ h => by rw [hi] at h; cases h⟩
  | _ => exact ⟨rfl, rfl, rfl, rfl, rfl, id, id, fun _ => id⟩

theorem Release.same (hact : Release p g p' g') : Same p p' := by
  cases hact with
  | sent hc hi => exact ⟨rfl, rfl, rfl, rfl, rfl, id, id, fun h => by rw [hc] at h; cases h⟩
  | _ => exact ⟨rfl, rfl, rfl, rfl, rfl, id, id, fun _ => id⟩

/-- A step of the loop is not taken after it has returned. -/
theorem Shrink.same (hmove : Shrink p p') (hreturned : p.channelClosed = true →
    p.shrinkLoop = .returned) : Same p p' ∧ p.shrinkLoop ≠ .returned := by
  have hstay : p.shrinkLoop ≠ .returned := by
    intro h
    cases hmove with
    | _ hs => exact absurd (h.symm.trans hs) (by intro h; cases h)
  refine ⟨?_, hstay⟩
  have hopen : ∀ {q : Prop}, p.channelClosed = true → q := fun h => absurd (hreturned h) hstay
  cases hmove with
  | nil _ _ hc => exact hopen hc
  | sendClosed _ hc => exact hopen hc
  | tickClosed => exact ⟨rfl, rfl, rfl, rfl, rfl, id, id, fun _ => id⟩
  | @collected now toRemove _ =>
      refine ⟨rfl, rfl, rfl, rfl, rfl, fun h => absurd h hstay, fun _ r => ?_, fun h => hopen h⟩
      cases toRemove with
      | nil => exact fun h => (nomatch h)
      | cons i toRemove => exact fun h => (nomatch h)
  | _ =>
      exact ⟨rfl, rfl, rfl, rfl, rfl, fun h => absurd h hstay, fun _ r h => (nomatch h),
        fun h => hopen h⟩

theorem Goroutine.Fits.of_same (h : Same p p') (hg : Fits p g) : Fits p' g := by
  cases g with
  | compareAndSwap current =>
      show current < p'.config.maxSize
      rw [h.config]
      exact hg
  | closeStopCh =>
      obtain ⟨hi, hs, hc⟩ := hg
      exact ⟨h.initialized.trans hi, h.stopChClosed.trans hs, h.channelClosed.trans hc⟩
  | waitGroup => exact ⟨h.initialized.trans hg.1, h.channelClosed.trans hg.2⟩
  | closeInstances =>
      obtain ⟨hi, hc, hr⟩ := hg
      exact ⟨h.initialized.trans hi, h.channelClosed.trans hc, h.returned hr⟩
  | drain => exact h.channelClosed.trans hg
  | closeBase => exact ⟨h.channelClosed.trans hg.1, h.empty hg.1 hg.2⟩
  | panicked i => exact h.channelClosed.trans hg
  | _ => exact hg

/-- What another call relies on while `Close` goes on. -/
theorem Goroutine.Fits.of_close (hconfig : p'.config = p.config)
    (hchannel : p.channelClosed = true → p'.channelClosed = true) (hclosing : closing g = 0)
    (hg : Fits p g) : Fits p' g := by
  cases g with
  | compareAndSwap current =>
      show current < p'.config.maxSize
      rw [hconfig]
      exact hg
  | panicked i => exact hchannel hg
  | closeStopCh => cases hclosing
  | waitGroup => cases hclosing
  | closeInstances => cases hclosing
  | drain => cases hclosing
  | closeBase => cases hclosing
  | _ => exact hg

theorem closing_eq_zero (h : (gs.map closing).sum = 0) : ∀ x ∈ gs, closing x = 0 := fun x hx =>
  (Multiset.sum_eq_zero_iff (m := gs.map closing)).mp h _ (Multiset.mem_map_of_mem closing hx)

theorem Acquire.fits (hact : Acquire p g p' g') (hg : Fits p g)
    (hbase : p.hasBase = false → p.channelClosed = true) :
    (∀ x, g' = some x → Fits p' x) ∧ closing g = 0 ∧ g'.elim 0 closing = 0 := by
  refine ⟨fun x hx => ?_, ?_⟩
  · cases hact with
    | below h => cases hx; exact h
    | fastNil h hc => cases hx; exact hc
    | waitedNil h hc => cases hx; exact hc
    | baseClosed h => cases hx; exact hbase h
    | _ => cases hx <;> trivial
  · cases hact with
    | _ => exact ⟨rfl, rfl⟩

/-- A call that releases its instance, where the channel has room. -/
theorem Release.fits (hact : Release p g p' g') (hg : Fits p g)
    (hroom : ∀ i, g = putBack i → (p.instances.length : ℤ) < p.config.maxSize) :
    (∀ x, g' = some x → Fits p' x) ∧ closing g = 0 ∧ g'.elim 0 closing = 0 := by
  refine ⟨fun x hx => ?_, ?_⟩
  · cases hact with
    | sendClosed hc => cases hx; exact hc
    | full hc h => exact absurd (hroom _ rfl) h
    | _ => cases hx <;> trivial
  · cases hact with
    | _ => exact ⟨rfl, rfl⟩

namespace Closing

/-- The channel is closed after the flag has been taken back. -/
theorem not_initialized (h : Closing p gs) (hc : p.channelClosed = true) :
    p.initialized = false := by
  cases hi : p.initialized with
  | false => rfl
  | true => exact absurd ((h.isOpen hi).2.2.1.symm.trans hc) Bool.false_ne_true

theorem of_same {gs' : Multiset Goroutine} (h : Closing p gs) (hsame : Same p p')
    (hfits : ∀ x ∈ gs', Fits p' x) (hsum : (gs'.map closing).sum = (gs.map closing).sum) :
    Closing p' gs' where
  fits := hfits
  once := hsum.trans_le h.once
  isOpen hi := by
    rw [hsum, hsame.stopChClosed, hsame.channelClosed, hsame.hasBase]
    exact h.isOpen (hsame.initialized.symm.trans hi)
  returned hc := hsame.returned (h.returned (hsame.channelClosed.symm.trans hc))
  loop := hsame.loop h.loop
  base hb := by
    obtain ⟨hzero, hc, hempty⟩ := h.base (hsame.hasBase.symm.trans hb)
    exact ⟨hsum.trans hzero, hsame.channelClosed.trans hc, hsame.empty hc hempty⟩

/-- A call acts that is not a `Close`. -/
theorem act (h : Closing p (g ::ₘ gs)) (hsame : Same p p')
    (hg : (∀ x, g' = some x → Fits p' x) ∧ closing g = 0 ∧ g'.elim 0 closing = 0) :
    Closing p' (Crew.rejoin g' gs) := by
  obtain ⟨hfits, hzero, hzero'⟩ := hg
  refine h.of_same hsame (fun x hx => ?_) ?_
  · rcases Crew.mem_rejoin.mp hx with hx | hx
    · exact hfits x hx
    · exact (h.fits x (Multiset.mem_cons_of_mem hx)).of_same hsame
  · rw [Crew.sum_rejoin, Multiset.map_cons, Multiset.sum_cons, hzero, hzero']

/-- While one call is past the lock, or none was, no other one is. -/
theorem others (h : Closing p (g ::ₘ gs)) (hg : closing g = 1 ∨ p.initialized = true) :
    (gs.map closing).sum = 0 := by
  have hsum : ((g ::ₘ gs).map closing).sum = closing g + (gs.map closing).sum := by
    rw [Multiset.map_cons, Multiset.sum_cons]
  rcases hg with hg | hg
  · have := h.once
    omega
  · have := (h.isOpen hg).1
    omega

/-- `Close` takes a step. -/
theorem close_step (h : Closing p (g ::ₘ gs)) (hg : closing g = 1 ∨ p.initialized = true)
    (hconfig : p'.config = p.config) (hchannel : p.channelClosed = true → p'.channelClosed = true)
    (hinit : p'.initialized = false) (hg' : ∀ x, g' = some x → Fits p' x ∧ closing x = 1)
    (hreturned : p'.channelClosed = true → p'.shrinkLoop = .returned)
    (hloop : p'.shrinkLoop = p.shrinkLoop)
    (hbase : p'.hasBase = false → g' = none ∧ p'.channelClosed = true ∧ p'.instances = []) :
    Closing p' (Crew.rejoin g' gs) := by
  have hothers := h.others hg
  have hsum : ((Crew.rejoin g' gs).map closing).sum = g'.elim 0 closing := by
    rw [Crew.sum_rejoin, hothers, add_zero]
  refine ⟨fun x hx => ?_, ?_, fun hi => ?_, hreturned, by rw [hloop]; exact h.loop,
    fun hb => ?_⟩
  · rcases Crew.mem_rejoin.mp hx with hx | hx
    · exact (hg' x hx).1
    · exact (h.fits x (Multiset.mem_cons_of_mem hx)).of_close hconfig hchannel
        (closing_eq_zero hothers x hx)
  · rw [hsum]
    cases g' with
    | none => exact Nat.zero_le _
    | some x => exact (hg' x rfl).2.le
  · rw [hinit] at hi
    cases hi
  · obtain ⟨rfl, hc, hempty⟩ := hbase hb
    exact ⟨hsum, hc, hempty⟩

/-- The base analyzer is there while a call is past the lock. -/
theorem hasBase (h : Closing p (g ::ₘ gs)) (hg : closing g = 1) : p.hasBase ≠ false := by
  intro hb
  have hzero := (h.base hb).1
  rw [Multiset.map_cons, Multiset.sum_cons, hg] at hzero
  omega

end Closing

theorem Close.closing (hact : Close p g p' g') (h : Closing p (g ::ₘ gs)) :
    Closing p' (Crew.rejoin g' gs) := by
  have hfits : Fits p g := h.fits g (Multiset.mem_cons_self g gs)
  cases hact with
  | notInitialized hi =>
      exact h.act ⟨rfl, rfl, rfl, rfl, rfl, id, id, fun _ => id⟩
        ⟨fun x hx => (nomatch hx), rfl, rfl⟩
  | locked hi =>
      obtain ⟨-, hs, hc, hb⟩ := h.isOpen hi
      refine h.close_step (Or.inr hi) rfl id rfl (fun x hx => ?_) (fun hc' => ?_) rfl fun hb' => ?_
      · cases hx
        exact ⟨⟨rfl, hs, hc⟩, rfl⟩
      · exact absurd (hc.symm.trans hc') Bool.false_ne_true
      · exact absurd (hb'.symm.trans hb) Bool.false_ne_true
  | closedTwice hs => exact absurd (hfits.2.1.symm.trans hs) Bool.false_ne_true
  | stopped hs =>
      refine h.close_step (Or.inl rfl) rfl id hfits.1 (fun x hx => ?_) h.returned rfl
        fun hb => ?_
      · cases hx
        exact ⟨⟨hfits.1, hfits.2.2⟩, rfl⟩
      · exact absurd hb (h.hasBase rfl)
  | waited hr =>
      refine h.close_step (Or.inl rfl) rfl id hfits.1 (fun x hx => ?_) h.returned rfl
        fun hb => ?_
      · cases hx
        exact ⟨⟨hfits.1, hfits.2, hr⟩, rfl⟩
      · exact absurd hb (h.hasBase rfl)
  | channelTwice hc => exact absurd (hfits.2.1.symm.trans hc) Bool.false_ne_true
  | channel hc =>
      refine h.close_step (Or.inl rfl) rfl (fun _ => rfl) hfits.1 (fun x hx => ?_)
        (fun _ => hfits.2.2) rfl fun hb => ?_
      · cases hx
        exact ⟨rfl, rfl⟩
      · exact absurd hb (h.hasBase rfl)
  | drained hi =>
      refine h.close_step (Or.inl rfl) rfl id (h.not_initialized hfits) (fun x hx => ?_)
        h.returned rfl fun hb => ?_
      · cases hx
        exact ⟨hfits, rfl⟩
      · exact absurd hb (h.hasBase rfl)
  | empty hi =>
      refine h.close_step (Or.inl rfl) rfl id (h.not_initialized hfits) (fun x hx => ?_)
        h.returned rfl fun hb => ?_
      · cases hx
        exact ⟨⟨hfits, hi⟩, rfl⟩
      · exact absurd hb (h.hasBase rfl)
  | base =>
      exact h.close_step (Or.inl rfl) rfl id (h.not_initialized hfits.1) (fun _ hx => nomatch hx)
        h.returned rfl fun _ => ⟨rfl, hfits⟩

/-! ### What the counter counts -/

/-- The place that a call has in the counter. -/
def Goroutine.place : Goroutine → ℕ
  | create | copy | createFailed | use _ | release _ | putBack _ | discard | panicked (some _) => 1
  | _ => 0

def ShrinkLoop.places : ShrinkLoop → ℕ
  | .collects _ _ toRemove => toRemove.length
  | .putsBack _ _ _ toRemove => toRemove.length + 1
  | .closes _ removed => removed
  | .counts removed => removed
  | .panicked toRemove => toRemove.length
  | _ => 0

/-- The instances that the loop may still take away or has taken. -/
def ShrinkLoop.budget : ShrinkLoop → ℕ
  | .collects left _ toRemove => left + toRemove.length
  | .putsBack left _ _ toRemove => left + 1 + toRemove.length
  | .closes _ removed => removed
  | .counts removed => removed
  | _ => 0

def places (p : Pool) (gs : Multiset Goroutine) : ℕ :=
  p.instances.length + (gs.map place).sum + p.shrinkLoop.places

/-- The counter is right as long as the pool is open, and it stays between the sizes. -/
structure Sizes (p : Pool) (gs : Multiset Goroutine) : Prop where
  counts : p.initialized = true → p.currentSize = places p gs
  covers : (places p gs : ℤ) ≤ p.currentSize
  le_max : p.currentSize ≤ p.config.maxSize
  min_le : p.config.minSize + p.shrinkLoop.budget ≤ p.currentSize + p.failures

theorem places_cons (p : Pool) (g : Goroutine) (gs : Multiset Goroutine) :
    places p (g ::ₘ gs) = p.instances.length + (place g + (gs.map place).sum)
      + p.shrinkLoop.places := by
  unfold places
  rw [Multiset.map_cons, Multiset.sum_cons]

theorem places_rejoin (p : Pool) (g' : Option Goroutine) (gs : Multiset Goroutine) :
    places p (Crew.rejoin g' gs) = p.instances.length + (g'.elim 0 place + (gs.map place).sum)
      + p.shrinkLoop.places := by
  unfold places
  rw [Crew.sum_rejoin]

/-- A call that has an instance to put back finds room in the channel. -/
theorem Sizes.room {i : PoolInstance} (h : Sizes p (putBack i ::ₘ gs)) :
    (p.instances.length : ℤ) < p.config.maxSize := by
  have hcovers := h.covers
  have hmax := h.le_max
  rw [places_cons] at hcovers
  simp only [place] at hcovers
  omega

/-- So does the loop. -/
theorem Sizes.room_putsBack {left : ℕ} {now : ℤ} {i : PoolInstance} {toRemove : List PoolInstance}
    (h : Sizes p gs) (hs : p.shrinkLoop = .putsBack left now i toRemove) :
    (p.instances.length : ℤ) < p.config.maxSize := by
  have hcovers := h.covers
  have hmax := h.le_max
  unfold places at hcovers
  rw [hs] at hcovers
  simp only [ShrinkLoop.places] at hcovers
  omega

/-- The counter moves with the places. -/
theorem Sizes.of_eq (h : Sizes p (g ::ₘ gs)) (hloop : p'.shrinkLoop = p.shrinkLoop)
    (hconfig : p'.config = p.config) (hinit : p'.initialized = p.initialized)
    (hplaces : p'.currentSize + (p.instances.length + place g : ℕ)
      = p.currentSize + (p'.instances.length + g'.elim 0 place : ℕ))
    (hmax : p'.currentSize ≤ p.config.maxSize)
    (hfail : p.currentSize + p.failures ≤ p'.currentSize + p'.failures) :
    Sizes p' (Crew.rejoin g' gs) := by
  have hcons := places_cons p g gs
  have hrejoin := places_rejoin p' g' gs
  rw [hloop] at hrejoin
  refine ⟨fun hi => ?_, ?_, ?_, ?_⟩
  · have := h.counts (hinit.symm.trans hi)
    omega
  · have := h.covers
    omega
  · rw [hconfig]
    exact hmax
  · have := h.min_le
    rw [hconfig, hloop]
    omega

theorem Acquire.sizes (hact : Acquire p g p' g') (hg : Fits p g)
    (hbase : p.hasBase = false → p.initialized = false) (h : Sizes p (g ::ₘ gs)) :
    Sizes p' (Crew.rejoin g' gs) := by
  have hmax := h.le_max
  cases hact with
  | fast now hi =>
      exact h.of_eq rfl rfl rfl (by rw [hi, List.length_cons]; rfl) hmax le_rfl
  | waited now hi =>
      exact h.of_eq rfl rfl rfl (by rw [hi, List.length_cons]; rfl) hmax le_rfl
  | swapped =>
      refine h.of_eq rfl rfl rfl ?_ (Int.add_one_le_of_lt hg) ?_
      · show p.currentSize + 1 + (p.instances.length + 0 : ℕ) = _ + (p.instances.length + 1 : ℕ)
        omega
      · show _ ≤ p.currentSize + 1 + p.failures
        omega
  | undone =>
      refine h.of_eq rfl rfl rfl ?_ ?_ ?_
      · show p.currentSize - 1 + (p.instances.length + 1 : ℕ) = _ + (p.instances.length + 0 : ℕ)
        omega
      · show p.currentSize - 1 ≤ _
        omega
      · show _ ≤ p.currentSize - 1 + (p.failures + 1 : ℕ)
        omega
  | baseClosed hb =>
      -- The place stays in the counter.
      have hcovers := h.covers
      rw [places_cons] at hcovers
      refine ⟨fun hi => absurd ((hbase hb).symm.trans hi) Bool.false_ne_true, ?_, hmax, h.min_le⟩
      rw [places_rejoin]
      simp only [place, Option.elim_some] at hcovers ⊢
      omega
  | _ => exact h.of_eq rfl rfl rfl rfl hmax le_rfl

theorem Release.sizes (hact : Release p g p' g') (hg : Fits p g) (h : Sizes p (g ::ₘ gs)) :
    Sizes p' (Crew.rejoin g' gs) := by
  have hmax := h.le_max
  cases hact with
  | used => exact h.of_eq rfl rfl rfl rfl hmax le_rfl
  | @notInitialized i hi =>
      have hcovers := h.covers
      rw [places_cons] at hcovers
      refine ⟨fun hi' => absurd (hi.symm.trans hi') Bool.false_ne_true, ?_, hmax, h.min_le⟩
      rw [places_rejoin]
      simp only [place, Option.elim_none] at hcovers ⊢
      omega
  | initialized hi => exact h.of_eq rfl rfl rfl rfl hmax le_rfl
  | sendClosed hc => exact h.of_eq rfl rfl rfl rfl hmax le_rfl
  | sent hc hi =>
      refine h.of_eq rfl rfl rfl ?_ hmax le_rfl
      rw [List.length_append]
      rfl
  | full hc hi => exact absurd h.room hi
  | counted => exact absurd hg id

theorem Close.sizes (hact : Close p g p' g') (hinit : g = drain → p.initialized = false)
    (h : Sizes p (g ::ₘ gs)) : Sizes p' (Crew.rejoin g' gs) := by
  have hmax := h.le_max
  cases hact with
  | locked hi =>
      refine ⟨fun hi' => (nomatch hi'), ?_, hmax, h.min_le⟩
      have hcovers := h.covers
      rw [places_cons] at hcovers
      rw [places_rejoin]
      exact hcovers
  | drained hi =>
      refine ⟨fun hi' => ?_, ?_, hmax, h.min_le⟩
      · exact absurd ((hinit rfl).symm.trans hi') Bool.false_ne_true
      · have hcovers := h.covers
        rw [places_cons, hi, List.length_cons] at hcovers
        rw [places_rejoin]
        simp only [place, Option.elim_some] at hcovers ⊢
        omega
  | _ => exact h.of_eq rfl rfl rfl rfl hmax le_rfl

/-- The loop goes on: what it takes from the channel it has in its hands. -/
theorem Sizes.of_loop (h : Sizes p gs) {loop : ShrinkLoop} (hs : p.shrinkLoop = loop)
    (hconfig : p'.config = p.config) (hinit : p'.initialized = p.initialized)
    (hplaces : p'.currentSize + (p.instances.length + loop.places : ℕ)
      = p.currentSize + (p'.instances.length + p'.shrinkLoop.places : ℕ))
    (hmax : p'.currentSize ≤ p.currentSize)
    (hbudget : p.config.minSize + loop.budget ≤ p.currentSize + p.failures →
      p.config.minSize + p'.shrinkLoop.budget ≤ p'.currentSize + p'.failures) : Sizes p' gs := by
  have hp : places p gs = p.instances.length + (gs.map place).sum + loop.places := by
    rw [← hs]
    rfl
  have hp' : places p' gs = p'.instances.length + (gs.map place).sum + p'.shrinkLoop.places := rfl
  refine ⟨fun hi => ?_, ?_, ?_, ?_⟩
  · have := h.counts (hinit.symm.trans hi)
    omega
  · have := h.covers
    omega
  · rw [hconfig]
    exact hmax.trans h.le_max
  · rw [hconfig]
    exact hbudget (hs ▸ h.min_le)

theorem Shrink.sizes (hmove : Shrink p p') (h : Sizes p gs) : Sizes p' gs := by
  cases hmove with
  | stop hs _ => exact h.of_loop hs rfl rfl rfl le_rfl id
  | tick hs _ => exact h.of_loop hs rfl rfl rfl le_rfl id
  | tickClosed => exact h
  | noNeed hs _ => exact h.of_loop hs rfl rfl rfl le_rfl id
  | start hs hgt now =>
      refine h.of_loop hs rfl rfl rfl le_rfl fun _ => ?_
      simp only [ShrinkLoop.budget, List.length_nil]
      omega
  | idle hs hi _ =>
      refine h.of_loop hs rfl rfl ?_ le_rfl fun hmin => ?_
      · simp only [hi, ShrinkLoop.places, List.length_cons, List.length_append, List.length_nil]
        omega
      · simp only [ShrinkLoop.budget, List.length_append, List.length_singleton] at hmin ⊢
        omega
  | notIdle hs hi _ =>
      refine h.of_loop hs rfl rfl ?_ le_rfl id
      simp only [hi, ShrinkLoop.places, List.length_cons]
      omega
  | nil hs hi _ =>
      refine h.of_loop hs rfl rfl rfl le_rfl fun hmin => ?_
      simp only [ShrinkLoop.budget] at hmin ⊢
      omega
  | none hs hi _ =>
      refine h.of_loop hs rfl rfl rfl le_rfl fun hmin => ?_
      simp only [ShrinkLoop.budget] at hmin ⊢
      omega
  | sendClosed hs _ =>
      refine h.of_loop hs rfl rfl ?_ le_rfl fun hmin => ?_
      · simp only [ShrinkLoop.places, List.length_append, List.length_singleton]
      · simp only [ShrinkLoop.budget] at hmin ⊢
        omega
  | sent hs _ _ =>
      refine h.of_loop hs rfl rfl ?_ le_rfl fun hmin => ?_
      · simp only [ShrinkLoop.places, List.length_append, List.length_singleton]
        omega
      · simp only [ShrinkLoop.budget] at hmin ⊢
        omega
  | full hs _ hi => exact absurd (h.room_putsBack hs) hi
  | @collected now toRemove hs =>
      cases toRemove with
      | nil => exact h.of_loop hs rfl rfl rfl le_rfl id
      | cons i toRemove =>
          refine h.of_loop hs rfl rfl rfl le_rfl fun hmin => ?_
          rwa [ShrinkLoop.budget, zero_add] at hmin
  | close hs => exact h.of_loop hs rfl rfl rfl le_rfl id
  | closed hs => exact h.of_loop hs rfl rfl rfl le_rfl id
  | counted hs =>
      refine h.of_loop hs rfl rfl ?_ ?_ fun hmin => ?_
      · simp only [ShrinkLoop.places]
        omega
      · show p.currentSize - _ ≤ p.currentSize
        omega
      · simp only [ShrinkLoop.budget] at hmin ⊢
        omega

/-! ### Runs -/

/-- What holds in every state of the pool. -/
structure Inv (cfg : PoolConfig) (p : Pool) (gs : Multiset Goroutine) : Prop where
  config : p.config = cfg
  ledger : Ledger p gs
  closing : Closing p gs
  sizes : Sizes p gs

theorem Inv.enter {cfg : PoolConfig} (h : Inv cfg p gs) (hg : g = acquire ∨ g = close) :
    Inv cfg p (g ::ₘ gs) := by
  have hzero : held g = 0 ∧ lost g = 0 ∧ Goroutine.closing g = 0 ∧ place g = 0 ∧ Fits p g := by
    rcases hg with rfl | rfl
    · exact ⟨rfl, rfl, rfl, rfl, trivial⟩
    · exact ⟨rfl, rfl, rfl, rfl, trivial⟩
  obtain ⟨hheld, hlost, hclosing, hplace, hfits⟩ := hzero
  refine ⟨h.config, ?_, ?_, ?_⟩
  · have := h.ledger
    unfold Ledger at this ⊢
    rwa [Multiset.map_cons, Multiset.sum_cons, Multiset.map_cons, Multiset.sum_cons, hheld, hlost,
      zero_add, zero_add]
  · refine h.closing.of_same ⟨rfl, rfl, rfl, rfl, rfl, id, id, fun _ => id⟩ (fun x hx => ?_) ?_
    · rcases Multiset.mem_cons.mp hx with rfl | hx
      · exact hfits
      · exact h.closing.fits x hx
    · rw [Multiset.map_cons, Multiset.sum_cons, hclosing, zero_add]
  · have hp : places p (g ::ₘ gs) = places p gs := by
      rw [places_cons, hplace, zero_add]
      rfl
    exact ⟨fun hi => by rw [hp]; exact h.sizes.counts hi, by rw [hp]; exact h.sizes.covers,
      h.sizes.le_max, h.sizes.min_le⟩

theorem Inv.act {cfg : PoolConfig} (h : Inv cfg p (g ::ₘ gs))
    (hact : Acquire p g p' g' ∨ Release p g p' g' ∨ Close p g p' g') :
    Inv cfg p' (Crew.rejoin g' gs) := by
  have hfits : Fits p g := h.closing.fits g (Multiset.mem_cons_self g gs)
  rcases hact with hact | hact | hact
  · have hsame := hact.same
    have hbase : p.hasBase = false → p.channelClosed = true := fun hb => (h.closing.base hb).2.1
    refine ⟨hsame.config.trans h.config, hact.ledger h.ledger,
      h.closing.act hsame (hact.fits hfits hbase), hact.sizes hfits (fun hb => ?_) h.sizes⟩
    exact h.closing.not_initialized (hbase hb)
  · have hsame := hact.same
    refine ⟨hsame.config.trans h.config, hact.ledger h.ledger, ?_, hact.sizes hfits h.sizes⟩
    exact h.closing.act hsame (hact.fits hfits fun i hg => by subst hg; exact h.sizes.room)
  · refine ⟨?_, hact.ledger h.ledger, hact.closing h.closing, hact.sizes (fun hg => ?_) h.sizes⟩
    · cases hact with
      | _ => exact h.config
    · subst hg
      exact h.closing.not_initialized hfits

theorem Inv.move {cfg : PoolConfig} (h : Inv cfg p gs) (hmove : Shrink p p') : Inv cfg p' gs := by
  obtain ⟨hsame, -⟩ := hmove.same h.closing.returned
  exact ⟨hsame.config.trans h.config, hmove.ledger h.ledger,
    h.closing.of_same hsame (fun x hx => (h.closing.fits x hx).of_same hsame) rfl,
    hmove.sizes h.sizes⟩

theorem inv_init {cfg : PoolConfig} (hcfg : cfg.Valid) (now : ℤ) : Inv cfg (init cfg now) 0 := by
  have hpos := hcfg.min_pos
  have hle := hcfg.min_le
  have hlength : (init cfg now).instances.length = cfg.minSize.toNat := by
    show ((List.range cfg.minSize.toNat).map _).length = _
    rw [List.length_map, List.length_range]
  have hplaces : places (init cfg now) 0 = cfg.minSize.toNat := by
    unfold places
    rw [hlength]
    rfl
  refine ⟨rfl, ?_, ⟨fun x hx => absurd hx (Multiset.notMem_zero x), Nat.zero_le _,
    fun _ => ⟨rfl, rfl, rfl, rfl⟩, fun hc => (nomatch hc), fun _ h => (nomatch h),
    fun hb => (nomatch hb)⟩, ?_⟩
  · show analyzers ((List.range cfg.minSize.toNat).map _) + 0 + 0 + 0 + 0 = _
    rw [add_zero, add_zero, add_zero, add_zero]
    unfold analyzers
    rw [List.map_map]
    exact congrArg _ (List.map_id _)
  · refine ⟨fun _ => ?_, ?_, ?_, ?_⟩
    · rw [hplaces]
      rfl
    · rw [hplaces]
      exact le_rfl
    · show (cfg.minSize.toNat : ℤ) ≤ cfg.maxSize
      omega
    · show cfg.minSize + ((0 : ℕ) : ℤ) ≤ (cfg.minSize.toNat : ℤ) + ((0 : ℕ) : ℤ)
      omega

theorem inv_reachable {cfg : PoolConfig} (hcfg : cfg.Valid) (now : ℤ) {c : Crew Pool Goroutine}
    (hc : Crew.Reachable rules ⟨init cfg now, 0⟩ c) : Inv cfg c.shared c.threads :=
  hc.invariant (inv_init hcfg now) (fun _ _ _ h hg => h.enter hg)
    (fun _ _ _ _ _ h hact => h.act hact) (fun _ _ _ h hmove => h.move hmove)

/-- Only a call that has panicked has lost an analyzer. -/
theorem lost_eq_zero (h : Closing p gs) (hc : p.channelClosed = false) : (gs.map lost).sum = 0 := by
  refine Multiset.sum_eq_zero (fun x hx => ?_)
  obtain ⟨g, hg, rfl⟩ := Multiset.mem_map.mp hx
  cases g with
  | panicked i => exact absurd (hc.symm.trans (h.fits _ hg)) Bool.false_ne_true
  | _ => rfl

/-- Every analyzer is in one place: no two calls use it, and none uses it after it was closed.  One
is lost only after `Close` has closed the channel. -/
theorem analyzer_once {cfg : PoolConfig} (hcfg : cfg.Valid) (now : ℤ) {c : Crew Pool Goroutine}
    (hc : Crew.Reachable rules ⟨init cfg now, 0⟩ c) :
    Ledger c.shared c.threads ∧
      (∀ a, ((c.threads.map held).sum + (c.threads.map lost).sum + c.shared.closed).count a ≤ 1) ∧
      (c.shared.channelClosed = false → (c.threads.map lost).sum = 0) := by
  obtain ⟨-, hledger, hclosing, -⟩ := inv_reachable hcfg now hc
  refine ⟨hledger, fun a => ?_, lost_eq_zero hclosing⟩
  have hnodup := Multiset.nodup_range c.shared.made
  rw [← hledger] at hnodup
  have hone := Multiset.nodup_iff_count_le_one.mp hnodup a
  simp only [Multiset.count_add] at hone ⊢
  omega

/-- The counter is exact while the pool is open, no call finds the channel full, and the size stays
between the bounds: below `MinSize` only by the copies that failed. -/
theorem size_bounds {cfg : PoolConfig} (hcfg : cfg.Valid) (now : ℤ) {c : Crew Pool Goroutine}
    (hc : Crew.Reachable rules ⟨init cfg now, 0⟩ c) :
    (c.shared.initialized = true → c.shared.currentSize = places c.shared c.threads) ∧
      (places c.shared c.threads : ℤ) ≤ cfg.maxSize ∧ c.shared.currentSize ≤ cfg.maxSize ∧
      cfg.minSize ≤ c.shared.currentSize + c.shared.failures ∧ discard ∉ c.threads := by
  obtain ⟨hconfig, -, hclosing, hsizes⟩ := inv_reachable hcfg now hc
  have hmax := hsizes.le_max
  have hmin := hsizes.min_le
  rw [hconfig] at hmax hmin
  exact ⟨hsizes.counts, hsizes.covers.trans hmax, hmax, by omega, fun h => hclosing.fits _ h⟩

/-- One `Close` at a time is past its lock, calls panic only on the closed channel, and when
`Close` is done and no call holds an instance, every analyzer has been closed, each once, but those
that were lost with a call that panicked. -/
theorem close_once {cfg : PoolConfig} (hcfg : cfg.Valid) (now : ℤ) {c : Crew Pool Goroutine}
    (hc : Crew.Reachable rules ⟨init cfg now, 0⟩ c) :
    (c.threads.map closing).sum ≤ 1 ∧
      (∀ i, panicked i ∈ c.threads →
        c.shared.channelClosed = true ∧ c.shared.initialized = false) ∧
      (∀ toRemove, c.shared.shrinkLoop ≠ .panicked toRemove) ∧
      (c.shared.hasBase = false → (c.threads.map held).sum = 0 →
        (c.threads.map lost).sum + c.shared.closed = Multiset.range c.shared.made) := by
  obtain ⟨-, hledger, hclosing, -⟩ := inv_reachable hcfg now hc
  refine ⟨hclosing.once, fun i hi => ?_, hclosing.loop, fun hb hheld => ?_⟩
  · have hc : c.shared.channelClosed = true := hclosing.fits _ hi
    exact ⟨hc, hclosing.not_initialized hc⟩
  · obtain ⟨-, hc, hempty⟩ := hclosing.base hb
    have hreturned := hclosing.returned hc
    unfold Ledger at hledger
    rw [hempty, hheld, hreturned] at hledger
    rw [← hledger]
    show _ = 0 + 0 + (c.threads.map lost).sum + 0 + _
    rw [add_zero, add_zero, zero_add]

/-! ### Two runs of a small pool -/

section runs

/-- One instance to begin with, and room for two. -/
def small : PoolConfig := ⟨1, 2, 0⟩

theorem small_valid : small.Valid := ⟨by decide, by decide, by decide⟩

/-- A call takes the instance at the time `5`. -/
theorem reachable_use : Crew.Reachable rules ⟨init small 0, 0⟩
    ⟨{ init small 0 with instances := [] }, {use ⟨0, 5⟩}⟩ := by
  have henter : Crew.Step rules ⟨init small 0, 0⟩ ⟨init small 0, {acquire}⟩ := .enter (Or.inl rfl)
  have hflag : Crew.Step rules ⟨init small 0, {acquire}⟩ ⟨init small 0, {fastPath}⟩ :=
    .alone (Or.inl (.initialized rfl))
  have hfast : Crew.Step rules ⟨init small 0, {fastPath}⟩
      ⟨{ init small 0 with instances := [] }, {use ⟨0, 5⟩}⟩ :=
    .alone (Or.inl (@Acquire.fast (init small 0) ⟨0, 0⟩ [] 5 rfl))
  exact ((Relation.ReflTransGen.single henter).tail hflag).tail hfast

theorem analyzer_once_use :
    ((({use ⟨0, 5⟩} : Multiset Goroutine).map held).sum + 0 + 0).count 0 ≤ 1 :=
  (analyzer_once small_valid 0 reachable_use).2.1 0

theorem size_bounds_use :
    (places { init small 0 with instances := [] } {use ⟨0, 5⟩} : ℤ) ≤ 2 :=
  (size_bounds small_valid 0 reachable_use).2.1

/-- The pool is closed by one call. -/
theorem reachable_closed : Crew.Reachable rules ⟨init small 0, 0⟩
    ⟨{ init small 0 with
      initialized := false, stopChClosed := true, shrinkLoop := .returned, channelClosed := true
      instances := [], closed := {0}, hasBase := false }, 0⟩ := by
  let flagged : Pool := { init small 0 with initialized := false }
  let stopped : Pool := { flagged with stopChClosed := true }
  let returned : Pool := { stopped with shrinkLoop := .returned }
  let sealed : Pool := { returned with channelClosed := true }
  let drained : Pool := { sealed with instances := [], closed := {0} }
  have henter : Crew.Step rules ⟨init small 0, 0⟩ ⟨init small 0, {close}⟩ := .enter (Or.inr rfl)
  have hlock : Crew.Step rules ⟨init small 0, {close}⟩ ⟨flagged, {closeStopCh}⟩ :=
    .alone (Or.inr (Or.inr (.locked rfl)))
  have hstop : Crew.Step rules ⟨flagged, {closeStopCh}⟩ ⟨stopped, {waitGroup}⟩ :=
    .alone (Or.inr (Or.inr (.stopped rfl)))
  have hloop : Crew.Step rules ⟨stopped, {waitGroup}⟩ ⟨returned, {waitGroup}⟩ :=
    .move (.stop rfl rfl)
  have hwait : Crew.Step rules ⟨returned, {waitGroup}⟩ ⟨returned, {closeInstances}⟩ :=
    .alone (Or.inr (Or.inr (.waited rfl)))
  have hseal : Crew.Step rules ⟨returned, {closeInstances}⟩ ⟨sealed, {drain}⟩ :=
    .alone (Or.inr (Or.inr (.channel rfl)))
  have hdrain : Crew.Step rules ⟨sealed, {drain}⟩ ⟨drained, {drain}⟩ :=
    .alone (Or.inr (Or.inr (@Close.drained sealed ⟨0, 0⟩ [] rfl)))
  have hempty : Crew.Step rules ⟨drained, {drain}⟩ ⟨drained, {closeBase}⟩ :=
    .alone (Or.inr (Or.inr (.empty rfl)))
  have hbase : Crew.Step rules ⟨drained, {closeBase}⟩ ⟨{ drained with hasBase := false }, 0⟩ :=
    .ends (Or.inr (Or.inr .base))
  exact ((((((((Relation.ReflTransGen.single henter).tail hlock).tail hstop).tail hloop).tail
    hwait).tail hseal).tail hdrain).tail hempty).tail hbase

theorem close_once_closed : ({0} : Multiset ℕ) = Multiset.range 1 :=
  (close_once small_valid 0 reachable_closed).2.2.2 rfl rfl

end runs

end RagFlow.AnalyzerPool
