import Mathlib.Algebra.Order.Group.Int
import Mathlib.Algebra.Order.Monoid.NatCast
import RagFlow.Interleave
import RagFlow.PyStr

/-! # Redis protocols: identifiers and secret keys

`generate_auto_increment_id` and `get_or_create_secret_key` of `RedisDB`, run by any number of
clients at the same time.  Each command, and each pipeline that is executed as a transaction, is
atomic; between two commands of a client any other client may take steps.  The state is the value
of the one key that the calls share.

The secret key is created by `SETNX` alone, so all clients see the value that was there first
(`secretKey_agreement`).  The identifiers are not safe in this way: a client that finds the key
missing, too small, or just created by its own `INCRBY` corrects it by a plain `SET`, and what
other clients have done to the key in between is lost.  `ids_unique_of_unchallenged` says that
this is the only defect: identifiers are unique in every run in which each `SET` finds the key as
its client has last seen it. -/

namespace RagFlow.Redis

open Py Effect Effect.Pool

/-- The exceptions of the two functions. -/
inductive Err where
  /-- `redis.RedisError`. -/
  | redisError
  /-- `RecursionError`. -/
  | recursionError
deriving DecidableEq

/-! ### Commands on a key that holds a number -/

inductive CounterCmd where
  /-- `EXISTS` and `GET` in one transaction. -/
  | existsGet
  | set (v : ℤ)
  | incrBy (n : ℤ)

abbrev CounterCmd.Ret : CounterCmd → Type
  | existsGet => Option ℤ
  | set _ => Unit
  | incrBy _ => ℤ

/-- `INCRBY` takes a missing key as `0`. -/
def CounterCmd.apply : (c : CounterCmd) → Option ℤ → Except Err c.Ret × Option ℤ
  | existsGet, s => (.ok s, s)
  | set v, _ => (.ok (), some v)
  | incrBy n, s => (.ok (s.getD 0 + n), some (s.getD 0 + n))

abbrev CounterProg := Prog CounterCmd CounterCmd.Ret Err

/-! ### `generate_auto_increment_id` -/

/-- A call: the increment and the minimum. -/
structure IdCall where
  increment : ℤ
  ensureMinimum : Option ℤ

/-- The increment, with the correction after the first one. -/
def incrementId (increment : ℤ) : CounterProg ℤ := do
  let nextId ← Prog.perform (C := CounterCmd) (.incrBy increment)
  if nextId = increment then
    Prog.perform (C := CounterCmd) (.set (1 + increment))
    pure (1 + increment)
  else pure nextId

/-- The body of the `try` statement. -/
def nextId (call : IdCall) : CounterProg ℤ :=
  match call.ensureMinimum with
  | none => incrementId call.increment
  | some minimum => do
      let found ← Prog.perform (C := CounterCmd) .existsGet
      match found with
      | none =>
          Prog.perform (C := CounterCmd) (.set (max 1 minimum))
          pure (max 1 minimum)
      | some current =>
          if current < minimum then
            Prog.perform (C := CounterCmd) (.set minimum)
            pure minimum
          else incrementId call.increment

/-- `generate_auto_increment_id`. -/
def generateAutoIncrementId (call : IdCall) : CounterProg ℤ :=
  tryCatch (nextId call) (fun _ => pure (-1))

/-! ### What a client has seen of the key -/

/-- What the last command of a client was about. -/
inductive Phase where
  | fresh
  /-- It has read the key. -/
  | saw (v : Option ℤ)
  /-- It has written the key. -/
  | wrote (v : ℤ)
  | failed
deriving DecidableEq

/-- The value of the key as the client has last seen it. -/
def Phase.seen : Phase → Option (Option ℤ)
  | fresh | failed => none
  | saw v => some v
  | wrote v => some (some v)

/-- The phase after a command. -/
def Phase.next : (c : CounterCmd) → Except Err c.Ret → Phase
  | .existsGet, .ok v => saw v
  | .set v, .ok _ => wrote v
  | .incrBy _, .ok v => wrote v
  | _, .error _ => failed

/-- Increments are positive, and a value is set only above the one that was seen. -/
def Phase.allows (g : Phase) : CounterCmd → Prop
  | .existsGet => True
  | .incrBy n => 0 < n
  | .set v => ∃ seen, g.seen = some seen ∧ ∀ w, seen = some w → w < v

def counting : Protocol CounterCmd CounterCmd.Ret Err Phase := ⟨Phase.allows, fun _ => Phase.next⟩

/-- A client returns what it has written, unless a command has raised. -/
def Written (g : Phase) : Except Err ℤ → Prop
  | .ok id => g = .wrote id
  | .error _ => g = .failed

section follows

/-- A value that is set above the one seen, and returned. -/
theorem set_follows {g : Phase} {v : ℤ} (h : counting.allows g (.set v)) :
    Follows counting Written g (do
      Prog.perform (C := CounterCmd) (.set v)
      pure v : CounterProg ℤ) := by
  refine ⟨h, fun r => ?_⟩
  cases r with
  | ok _ => rfl
  | error e => rfl

theorem incrementId_follows {increment : ℤ} (hpos : 0 < increment) (g : Phase) :
    Follows counting Written g (incrementId increment) := by
  refine ⟨hpos, fun r => ?_⟩
  cases r with
  | error e => rfl
  | ok next =>
      show Follows counting Written (.wrote next) (if next = increment then _ else _)
      refine Follows.ite (fun hfirst => ?_) (fun _ => Follows.pure rfl)
      refine set_follows ⟨some next, rfl, fun w hw => ?_⟩
      cases hw
      rw [hfirst]
      exact lt_one_add increment

theorem generateAutoIncrementId_follows {call : IdCall} (hpos : 0 < call.increment) :
    Follows counting (fun g r => Written g r ∨ g = .failed) .fresh
      (generateAutoIncrementId call) := by
  have hbody : Follows counting Written .fresh (nextId call) := by
    unfold nextId
    cases call.ensureMinimum with
    | none => exact incrementId_follows hpos _
    | some minimum =>
        refine ⟨trivial, fun r => ?_⟩
        cases r with
        | error e => rfl
        | ok found =>
            cases found with
            | none => exact set_follows ⟨none, rfl, fun w hw => by cases hw⟩
            | some current =>
                show Follows counting Written (.saw (some current))
                  (if current < minimum then _ else _)
                refine Follows.ite (fun hlt => ?_) (fun _ => incrementId_follows hpos _)
                refine set_follows ⟨some current, rfl, fun w hw => ?_⟩
                cases hw
                exact hlt
  exact Follows.tryCatch hbody (fun _ _ h => Or.inl h) (fun _ _ h => Follows.pure (Or.inr h))

end follows

/-! ### Unique identifiers -/

section ids
variable {ι : Type} [DecidableEq ι]

/-- Commands are served one at a time, and none fails. -/
def serveCounter : Handler Unit CounterCmd CounterCmd.Ret Err (Option ℤ) :=
  fun _ c s => some (c.apply s)

/-- The calls of the clients, on a key with the value `s`. -/
abbrev IdPool (ι : Type) := Pool ι CounterCmd CounterCmd.Ret Err (Option ℤ) ℤ

/-- What the client has last seen of the key, `none` before its first command. -/
def lastSeen (p : IdPool ι) (i : ι) : Option (Option ℤ) :=
  (phases (fun _ => counting) (fun _ => .fresh) p.trace i).seen

/-- A `SET` finds the key as its client has last seen it. -/
def Unchallenged (p : IdPool ι) (i : ι) : CounterCmd → Prop
  | .set _ => lastSeen p i = some p.state
  | _ => True

instance (p : IdPool ι) (i : ι) (c : CounterCmd) : Decidable (Unchallenged p i c) := by
  cases c with
  | set v => exact inferInstanceAs (Decidable (_ = _))
  | existsGet => exact inferInstanceAs (Decidable True)
  | incrBy n => exact inferInstanceAs (Decidable True)

/-- What the clients have written is in different places below the value of the key. -/
structure Distinct (s : Option ℤ) (g : ι → Phase) : Prop where
  below : ∀ i v, g i = .wrote v → ∃ w, s = some w ∧ v ≤ w
  distinct : ∀ i j v, g i = .wrote v → g j = .wrote v → i = j
  served : ∀ i, g i ≠ .failed

/-- A value above all that has been seen is a new one. -/
theorem Distinct.write {s : Option ℤ} {g : ι → Phase} (h : Distinct s g) (i : ι) {v : ℤ}
    (hv : ∀ w, s = some w → w < v) : Distinct (some v) (Function.update g i (.wrote v)) := by
  have hlt : ∀ j u, g j = .wrote u → u < v := by
    intro j u hj
    obtain ⟨w, hw, huw⟩ := h.below j u hj
    exact lt_of_le_of_lt huw (hv w hw)
  refine ⟨fun j u hj => ?_, fun j k u hj hk => ?_, fun j => ?_⟩
  · by_cases hji : j = i
    · subst hji
      rw [Function.update_self] at hj
      cases hj
      exact ⟨v, rfl, le_refl v⟩
    · rw [Function.update_of_ne hji] at hj
      exact ⟨v, rfl, (hlt j u hj).le⟩
  · by_cases hji : j = i <;> by_cases hki : k = i
    · rw [hji, hki]
    · subst hji
      rw [Function.update_self] at hj
      rw [Function.update_of_ne hki] at hk
      cases hj
      exact absurd (hlt k v hk) (lt_irrefl v)
    · subst hki
      rw [Function.update_self] at hk
      rw [Function.update_of_ne hji] at hj
      cases hk
      exact absurd (hlt j v hj) (lt_irrefl v)
    · rw [Function.update_of_ne hji] at hj
      rw [Function.update_of_ne hki] at hk
      exact h.distinct j k u hj hk
  · by_cases hji : j = i
    · subst hji
      rw [Function.update_self]
      exact fun h => by cases h
    · rw [Function.update_of_ne hji]
      exact h.served j

/-- Another client has read the key. -/
theorem Distinct.read {s : Option ℤ} {g : ι → Phase} (h : Distinct s g) (i : ι) :
    Distinct s (Function.update g i (.saw s)) := by
  have hwrote : ∀ j u, Function.update g i (.saw s) j = .wrote u → g j = .wrote u := by
    intro j u hj
    by_cases hji : j = i
    · subst hji
      rw [Function.update_self] at hj
      cases hj
    · rwa [Function.update_of_ne hji] at hj
  refine ⟨fun j u hj => h.below j u (hwrote j u hj), fun j k u hj hk => ?_, fun j => ?_⟩
  · exact h.distinct j k u (hwrote j u hj) (hwrote k u hk)
  · by_cases hji : j = i
    · subst hji
      rw [Function.update_self]
      exact fun h => by cases h
    · rw [Function.update_of_ne hji]
      exact h.served j

theorem distinct_step (p : IdPool ι) (i : ι) (c : CounterCmd) (x : Unit) (r : Except Err c.Ret)
    (s' : Option ℤ)
    (h : Distinct p.state (phases (fun _ => counting) (fun _ => .fresh) p.trace))
    (hallows : counting.allows (phases (fun _ => counting) (fun _ => .fresh) p.trace i) c)
    (hcond : Unchallenged p i c) (hreply : serveCounter x c p.state = some (r, s')) :
    Distinct s' (Function.update (phases (fun _ => counting) (fun _ => .fresh) p.trace) i
      (Phase.next c r)) := by
  cases c with
  | existsGet =>
      cases hreply
      exact h.read i
  | incrBy n =>
      cases hreply
      refine h.write i (fun w hw => ?_)
      have hn : 0 < n := hallows
      rw [hw, Option.getD_some]
      omega
  | set v =>
      cases hreply
      refine h.write i (fun w hw => ?_)
      obtain ⟨seen, hseen, hlt⟩ := hallows
      have hcond : lastSeen p i = some p.state := hcond
      cases hseen.symm.trans hcond
      exact hlt w hw

/-- **Unique identifiers.**  In every run of any number of calls in which each `SET` finds the key
as its client has last seen it, no two calls return the same identifier. -/
theorem ids_unique_of_unchallenged (calls : ι → IdCall) (hpos : ∀ i, 0 < (calls i).increment)
    (s : Option ℤ) (q : IdPool ι)
    (hreach : Reaches serveCounter Unchallenged
      (start s (fun i => generateAutoIncrementId (calls i))) q)
    (i j : ι) (id : ℤ) (hi : q.threads i = .ret id) (hj : q.threads j = .ret id) : i = j := by
  have hinit : Distinct s (fun _ : ι => Phase.fresh) :=
    ⟨fun _ _ h => (by cases h), fun _ _ _ h => (by cases h), fun _ h => by cases h⟩
  obtain ⟨hdistinct, hfollows⟩ := hreach.keeps (I := fun s _ g => Distinct s g)
    (fun i => generateAutoIncrementId_follows (hpos i)) hinit distinct_step
  have hwrote : ∀ k, q.threads k = .ret id →
      phases (fun _ => counting) (fun _ => .fresh) q.trace k = .wrote id := by
    intro k hk
    have hend := hfollows k
    rw [hk] at hend
    rcases hend with hwrote | hfailed
    · exact hwrote
    · exact absurd hfailed (hdistinct.served k)
  exact hdistinct.distinct i j id (hwrote i hi) (hwrote j hj)

/-! Two clients that find the key missing. -/

def firstCalls (minimum : Option ℤ) (_ : Bool) : IdCall := ⟨1, minimum⟩

def firstPool (minimum : Option ℤ) : IdPool Bool :=
  start none (fun i => generateAutoIncrementId (firstCalls minimum i))

/-- One call after the other. -/
def firstInTurn : Option (IdPool Bool) :=
  play serveCounter Unchallenged [(true, ()), (true, ()), (false, ())] (firstPool none)

theorem ids_unique_in_turn :
    ∃ q, firstInTurn = some q ∧ q.threads true = .ret 2 ∧ q.threads false = .ret 3 ∧
      ∀ i j id, q.threads i = .ret id → q.threads j = .ret id → i = j := by
  refine ⟨_, rfl, rfl, rfl, ?_⟩
  exact ids_unique_of_unchallenged (firstCalls none) (fun _ => Int.one_pos) none _
    (play_reaches [(true, ()), (true, ()), (false, ())] rfl)

/-- Both have incremented the key before the first one corrects it. -/
theorem ids_not_unique :
    (∀ i, 0 < (firstCalls none i).increment) ∧
      ∃ q, Reaches serveCounter anyStep (firstPool none) q ∧
        q.threads true = .ret 2 ∧ q.threads false = .ret 2 := by
  have hplay : ∃ q, play serveCounter anyStep [(true, ()), (false, ()), (true, ())]
      (firstPool none) = some q ∧ q.threads true = .ret 2 ∧ q.threads false = .ret 2 :=
    ⟨_, rfl, rfl, rfl⟩
  obtain ⟨q, hplay, htrue, hfalse⟩ := hplay
  exact ⟨fun _ => Int.one_pos, q, play_reaches _ hplay, htrue, hfalse⟩

end ids

/-! ### Commands on a key that holds a text -/

inductive TextCmd where
  | get
  | setnx (v : Str)
  /-- The script that deletes the key if its value is the given one. -/
  | deleteIfEqual (v : Str)
deriving DecidableEq

abbrev TextCmd.Ret : TextCmd → Type
  | get => Option Str
  | setnx _ => Bool
  | deleteIfEqual _ => Bool

def TextCmd.apply : (c : TextCmd) → Option Str → c.Ret × Option Str
  | get, s => (s, s)
  | setnx v, s => if s = none then (true, some v) else (false, s)
  | deleteIfEqual v, s => if s = some v then (true, none) else (false, s)

/-- Commands are served one at a time; each may fail. -/
def serveText : Handler Fate TextCmd TextCmd.Ret Err (Option Str) :=
  fun x c s => some (x.reply .redisError s (.ok (c.apply s).1, (c.apply s).2))

abbrev TextProg := Prog TextCmd TextCmd.Ret Err

/-! ### `get_or_create_secret_key` -/

/-- `get_or_create_secret_key`, with the number of nested calls Python allows. -/
def getOrCreateSecretKey : ℕ → Str → TextProg Str
  | 0, _ => throw .recursionError
  | depth + 1, newValue => do
      let existing ← Prog.perform (C := TextCmd) .get
      match existing with
      | some value => pure value
      | none =>
          let created ← Prog.perform (C := TextCmd) (.setnx newValue)
          if created then pure newValue
          else
            let final ← Prog.perform (C := TextCmd) .get
            match final with
            | some value => pure value
            | none => getOrCreateSecretKey depth newValue

/-- What a client knows of the key. -/
inductive KeyPhase where
  | fresh
  /-- `GET` has found nothing. -/
  | missing
  /-- `SETNX` has come too late. -/
  | late
  /-- It knows the value. -/
  | knows (v : Str)
  | failed (e : Err)
  /-- The key was there and is gone. -/
  | vanished
deriving DecidableEq

/-- What a reply tells the client. -/
def KeyPhase.told (g : KeyPhase) : (c : TextCmd) → Except Err c.Ret → KeyPhase
  | .get, .ok (some v) => knows v
  | .get, .ok none => if g = late then vanished else missing
  | .get, .error e => failed e
  | .setnx v, .ok true => knows v
  | .setnx _, .ok false => late
  | .setnx _, .error e => failed e
  | .deleteIfEqual _, .ok _ => missing
  | .deleteIfEqual _, .error e => failed e

def KeyPhase.next (g : KeyPhase) (c : TextCmd) (r : Except Err c.Ret) : KeyPhase :=
  if g = vanished then vanished else g.told c r

/-- The protocol of a client that proposes `newValue`. -/
def keeping (newValue : Str) : Protocol TextCmd TextCmd.Ret Err KeyPhase where
  allows _ c := c = .get ∨ c = .setnx newValue
  next := KeyPhase.next

/-- A client returns what it knows and raises what a command has raised, and no more is said when
the key has vanished. -/
def Known (g : KeyPhase) (r : Except Err Str) : Prop :=
  g = .vanished ∨
    match r with
    | .ok v => g = .knows v
    | .error e => g = .failed e

/-- After the key has vanished. -/
theorem getOrCreateSecretKey_vanished (newValue : Str) (depth : ℕ) :
    Follows (keeping newValue) Known .vanished (getOrCreateSecretKey depth newValue) := by
  induction depth with
  | zero => exact Follows.throw (Or.inl rfl)
  | succ depth ih =>
      refine ⟨Or.inl rfl, fun r => ?_⟩
      rcases r with e | (_ | v)
      · exact Or.inl rfl
      · refine ⟨Or.inr rfl, fun r => ?_⟩
        rcases r with e | (_ | _)
        · exact Or.inl rfl
        · refine ⟨Or.inl rfl, fun r => ?_⟩
          rcases r with e | (_ | v)
          · exact Or.inl rfl
          · exact ih
          · exact Or.inl rfl
        · exact Or.inl rfl
      · exact Or.inl rfl

theorem getOrCreateSecretKey_follows (newValue : Str) (depth : ℕ) :
    Follows (keeping newValue) Known .fresh (getOrCreateSecretKey (depth + 1) newValue) := by
  refine ⟨Or.inl rfl, fun r => ?_⟩
  rcases r with e | (_ | v)
  · exact Or.inr rfl
  · refine ⟨Or.inr rfl, fun r => ?_⟩
    rcases r with e | (_ | _)
    · exact Or.inr rfl
    · refine ⟨Or.inl rfl, fun r => ?_⟩
      rcases r with e | (_ | v)
      · exact Or.inr rfl
      · exact getOrCreateSecretKey_vanished newValue depth
      · exact Or.inr rfl
    · exact Or.inr rfl
  · exact Or.inr rfl

/-! ### Agreement on the secret key -/

section agreement
variable {ι : Type} {initial s : Option Str} {newValue : ι → Str}

/-- The key has the value it had, or if it had none, one that a client has proposed; and what the
clients know of it is true. -/
structure Agreed (initial : Option Str) (newValue : ι → Str) (s : Option Str)
    (g : ι → KeyPhase) : Prop where
  kept : ∀ v, initial = some v → s = some v
  proposed : ∀ v, s = some v → initial = some v ∨ ∃ i, newValue i = v
  known : ∀ i v, g i = .knows v → s = some v
  late : ∀ i, g i = .late → s ≠ none
  failed : ∀ i e, g i = .failed e → e = .redisError
  never : ∀ i, g i ≠ .vanished

/-- The commands of a client change the key only by creating it. -/
theorem Agreed.apply {g : ι → KeyPhase} (h : Agreed initial newValue s g) (i : ι) {c : TextCmd}
    (hallows : c = .get ∨ c = .setnx (newValue i)) : Agreed initial newValue (c.apply s).2 g := by
  rcases hallows with rfl | rfl
  · exact h
  · cases s with
    | some v => exact h
    | none =>
        refine ⟨fun v hv => ?_, fun v hv => ?_, fun j v hj => ?_, fun j _ => ?_, h.failed, h.never⟩
        · cases h.kept v hv
        · exact Or.inr ⟨i, Option.some.inj hv⟩
        · cases h.known j v hj
        · exact Option.some_ne_none (newValue i)

variable [DecidableEq ι]

/-- The value stays, and a client learns something that is true. -/
theorem Agreed.learn {g : ι → KeyPhase} (h : Agreed initial newValue s g) (i : ι) {k : KeyPhase}
    (hknows : ∀ v, k = .knows v → s = some v) (hlate : k = .late → s ≠ none)
    (hfailed : ∀ e, k = .failed e → e = .redisError) (hnever : k ≠ .vanished) :
    Agreed initial newValue s (Function.update g i k) := by
  have hcases : ∀ j, Function.update g i k j = k ∨ Function.update g i k j = g j := by
    intro j
    by_cases hji : j = i
    · subst hji
      exact Or.inl (Function.update_self _ _ _)
    · exact Or.inr (Function.update_of_ne hji _ _)
  refine ⟨h.kept, h.proposed, fun j v hj => ?_, fun j hj => ?_, fun j e hj => ?_, fun j hj => ?_⟩
  · rcases hcases j with heq | heq
    · exact hknows v (heq.symm.trans hj)
    · exact h.known j v (heq.symm.trans hj)
  · rcases hcases j with heq | heq
    · exact hlate (heq.symm.trans hj)
    · exact h.late j (heq.symm.trans hj)
  · rcases hcases j with heq | heq
    · exact hfailed e (heq.symm.trans hj)
    · exact h.failed j e (heq.symm.trans hj)
  · rcases hcases j with heq | heq
    · exact hnever (heq.symm.trans hj)
    · exact h.never j (heq.symm.trans hj)

/-- What a reply tells is true. -/
theorem Agreed.told {g : ι → KeyPhase} (h : Agreed initial newValue s g) (i : ι) {c : TextCmd}
    (hallows : c = .get ∨ c = .setnx (newValue i)) :
    Agreed initial newValue (c.apply s).2
      (Function.update g i ((g i).told c (.ok (c.apply s).1))) := by
  have happly := h.apply i hallows
  rcases hallows with rfl | rfl
  · cases s with
    | some v =>
        refine happly.learn i (fun w hw => ?_) (fun hk => by cases hk) (fun e hk => by cases hk)
          (fun hk => by cases hk)
        cases hw
        rfl
    | none =>
        have hnotLate : g i ≠ .late := fun hlate => h.late i hlate rfl
        have hmissing : (g i).told .get (.ok none) = .missing := if_neg hnotLate
        show Agreed initial newValue none (Function.update g i ((g i).told .get (.ok none)))
        rw [hmissing]
        exact happly.learn i (fun _ hk => by cases hk) (fun hk => by cases hk)
          (fun _ hk => by cases hk) (fun hk => by cases hk)
  · cases s with
    | none =>
        refine happly.learn i (fun w hw => ?_) (fun hk => by cases hk) (fun e hk => by cases hk)
          (fun hk => by cases hk)
        cases hw
        rfl
    | some v =>
        exact happly.learn i (fun _ hk => by cases hk) (fun _ => Option.some_ne_none v)
          (fun _ hk => by cases hk) (fun hk => by cases hk)

/-- A failure tells nothing. -/
theorem Agreed.fail {g : ι → KeyPhase} (h : Agreed initial newValue s g) (i : ι) (c : TextCmd) :
    Agreed initial newValue s (Function.update g i ((g i).told c (.error .redisError))) := by
  have hfailed : (g i).told c (.error .redisError) = .failed .redisError := by
    cases c with
    | get => rfl
    | setnx v => rfl
    | deleteIfEqual v => rfl
  rw [hfailed]
  exact h.learn i (fun _ hk => by cases hk) (fun hk => by cases hk)
    (fun e hk => (KeyPhase.failed.inj hk).symm) (fun hk => by cases hk)

theorem agreed_step {g : ι → KeyPhase} (h : Agreed initial newValue s g) {i : ι} {c : TextCmd}
    (hallows : c = .get ∨ c = .setnx (newValue i)) {x : Fate} {r : Except Err c.Ret}
    {s' : Option Str} (hreply : serveText x c s = some (r, s')) :
    Agreed initial newValue s' (Function.update g i ((g i).next c r)) := by
  have hnext : ∀ r, (g i).next c r = (g i).told c r := fun r => if_neg (h.never i)
  rw [hnext r]
  cases x with
  | served =>
      cases hreply
      exact h.told i hallows
  | refused =>
      cases hreply
      exact h.fail i c
  | replyLost =>
      cases hreply
      exact (h.apply i hallows).fail i c

/-- The calls of the clients. -/
abbrev KeyPool (ι : Type) := Pool ι TextCmd TextCmd.Ret Err (Option Str) Str

/-- **Agreement on the secret key.**  In every run of any number of callers all that return have
the same value, the one that was there or one of those proposed, and none calls itself, however
many nested calls are allowed. -/
theorem secretKey_agreement (initial : Option Str) (newValue : ι → Str) (depth : ι → ℕ)
    (q : KeyPool ι)
    (hreach : Reaches serveText anyStep
      (start initial (fun i => getOrCreateSecretKey (depth i + 1) (newValue i))) q) :
    (∀ i j v w, q.threads i = .ret v → q.threads j = .ret w → v = w) ∧
      (∀ i v, q.threads i = .ret v → initial = some v ∨ initial = none ∧ ∃ j, newValue j = v) ∧
      ∀ i, q.threads i ≠ .raise .recursionError := by
  have hinit : Agreed initial newValue initial (fun _ : ι => KeyPhase.fresh) :=
    ⟨fun _ h => h, fun _ h => Or.inl h, fun _ _ h => (by cases h), fun _ h => (by cases h),
      fun _ _ h => (by cases h), fun _ h => by cases h⟩
  obtain ⟨hagreed, hfollows⟩ := hreach.keeps (I := fun s _ g => Agreed initial newValue s g)
    (fun i => getOrCreateSecretKey_follows (newValue i) (depth i)) hinit
    (fun _ _ _ _ _ _ h hallows _ hreply => agreed_step h hallows hreply)
  have hknows : ∀ i v, q.threads i = .ret v → q.state = some v := by
    intro i v hi
    have hend := hfollows i
    rw [hi] at hend
    rcases hend with hvanished | hknows
    · exact absurd hvanished (hagreed.never i)
    · exact hagreed.known i v hknows
  refine ⟨fun i j v w hi hj => ?_, fun i v hi => ?_, fun i hi => ?_⟩
  · exact Option.some.inj ((hknows i v hi).symm.trans (hknows j w hj))
  · cases hinitial : initial with
    | some u =>
        exact Or.inl ((hagreed.kept u hinitial).symm.trans (hknows i v hi))
    | none =>
        rcases hagreed.proposed v (hknows i v hi) with hsome | hproposed
        · rw [hinitial] at hsome
          cases hsome
        · exact Or.inr ⟨rfl, hproposed⟩
  · have hend := hfollows i
    rw [hi] at hend
    rcases hend with hvanished | hfailed
    · exact hagreed.never i hvanished
    · cases hagreed.failed i _ hfailed

/-! Two clients that both find the key missing. -/

def twoProposals : Bool → Str
  | true => "first"
  | false => "second"

def twoCallers : KeyPool Bool :=
  start none (fun i => getOrCreateSecretKey 1 (twoProposals i))

def twoCallersRun : List (Bool × Fate) :=
  [(true, .served), (false, .served), (true, .served), (false, .served), (false, .served)]

theorem secretKey_agreement_two_callers :
    ∃ q, play serveText anyStep twoCallersRun twoCallers = some q ∧
      q.threads true = .ret ("first" : Str) ∧ q.threads false = .ret ("first" : Str) ∧
      ∀ i, q.threads i ≠ .raise .recursionError := by
  refine ⟨_, rfl, rfl, rfl, ?_⟩
  exact (secretKey_agreement none twoProposals (fun _ => 0) _
    (play_reaches twoCallersRun rfl)).2.2

end agreement

end RagFlow.Redis
