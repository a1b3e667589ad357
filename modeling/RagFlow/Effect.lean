import Mathlib.Tactic.Common

/-! # Programs that issue commands

`Prog C R E α` is a program that issues commands `c : C` to its surroundings, receives for
each one a reply in `R c` or an exception in `E`, and ends with a value in `α` or with an
exception.  It is the syntax tree of the program: between two commands there is only pure
computation, so a command is an atomic step.

* **Alone.** `exec h p s` runs `p` to its end from the state `s`, the handler `h` giving the
  reply to each command and the next state.  `exec_bind` and `exec_tryCatch` describe it on
  composed programs.
* **Contracts.** A `Contract` says which commands a program may issue and which replies it may
  count on.  `Only K Q p`: as long as the replies are those of `K`, the commands of `p` are those
  of `K` and its values are in `Q`; so an invariant that the commands of `K` keep and that grants
  the replies of `K` holds after the run (`Only.exec`).  `Uses K Q p` says besides that `p` raises
  only when a command has raised.
* **Pre- and postconditions.** `Triple h P p Q X`: started in `P`, the program ends with a value in
  `Q` or with an exception in `X`; there is one rule for each way to compose programs.
* **Without exceptions.** `calm h p s` is the run in which no command raises, if there is one.

The interleaved execution of several such programs is the subject of `Interleave`. -/

namespace RagFlow.Effect

/-- Programs issuing commands `c : C` with replies in `R c` or exceptions in `E`. -/
inductive Prog (C : Type) (R : C → Type) (E : Type) (α : Type) where
  | ret (a : α)
  | raise (e : E)
  | call (c : C) (k : Except E (R c) → Prog C R E α)

variable {C : Type} {R : C → Type} {E S α β : Type}

namespace Prog

def bind : Prog C R E α → (α → Prog C R E β) → Prog C R E β
  | ret a, f => f a
  | raise e, _ => raise e
  | call c k, f => call c (fun r => (k r).bind f)

/-- `try p except e: f e`. -/
def tryCatch : Prog C R E α → (E → Prog C R E α) → Prog C R E α
  | ret a, _ => ret a
  | raise e, f => f e
  | call c k, f => call c (fun r => (k r).tryCatch f)

/-- A finished run as a program. -/
def ofExcept : Except E α → Prog C R E α
  | .ok a => ret a
  | .error e => raise e

/-- Issue one command. -/
def perform (c : C) : Prog C R E (R c) := call c ofExcept

instance : Monad (Prog C R E) where
  pure := ret
  bind := bind

instance : MonadExcept E (Prog C R E) where
  throw := raise
  tryCatch := tryCatch

/-- The outcome of the body, as a value. -/
def attempt (body : Prog C R E α) : Prog C R E (Except E α) :=
  MonadExcept.tryCatch (body >>= fun a => pure (.ok a)) (fun e => pure (.error e))

/-- `try body finally clause`. -/
def tryFinally (body : Prog C R E α) (clause : Prog C R E Unit) : Prog C R E α := do
  let r ← attempt body
  clause
  ofExcept r

theorem bind_assoc {γ : Type} (p : Prog C R E α) (f : α → Prog C R E β) (g : β → Prog C R E γ) :
    (p >>= f) >>= g = p >>= fun a => f a >>= g := by
  show (p.bind f).bind g = p.bind (fun a => (f a).bind g)
  induction p with
  | ret a => rfl
  | raise e => rfl
  | call c k ih =>
      simp only [bind]
      congr 1
      funext r
      exact ih r

/-! ### Running a program alone -/

/-- The outcome of `p` started in `s` and the state it leaves. -/
def exec (h : (c : C) → S → Except E (R c) × S) : Prog C R E α → S → Except E α × S
  | ret a, s => (.ok a, s)
  | raise e, s => (.error e, s)
  | call c k, s => exec h (k (h c s).1) (h c s).2

variable (h : (c : C) → S → Except E (R c) × S)

@[simp] theorem exec_pure (a : α) (s : S) :
    exec h (pure a : Prog C R E α) s = (.ok a, s) := rfl

@[simp] theorem exec_throw (e : E) (s : S) :
    exec h (throw e : Prog C R E α) s = (.error e, s) := rfl

@[simp] theorem exec_perform (c : C) (s : S) : exec h (perform c) s = h c s := by
  show exec h (ofExcept (h c s).1) (h c s).2 = h c s
  cases hr : (h c s).1 with
  | ok r => simp only [ofExcept, exec, ← hr]
  | error e => simp only [ofExcept, exec, ← hr]

theorem exec_bind (p : Prog C R E α) (f : α → Prog C R E β) (s : S) :
    exec h (p >>= f) s =
      match exec h p s with
      | (.ok a, s') => exec h (f a) s'
      | (.error e, s') => (.error e, s') := by
  show exec h (p.bind f) s = _
  induction p generalizing s with
  | ret a => rfl
  | raise e => rfl
  | call c k ih => exact ih _ _

theorem exec_tryCatch (p : Prog C R E α) (f : E → Prog C R E α) (s : S) :
    exec h (MonadExcept.tryCatch p f) s =
      match exec h p s with
      | (.ok a, s') => (.ok a, s')
      | (.error e, s') => exec h (f e) s' := by
  show exec h (p.tryCatch f) s = _
  induction p generalizing s with
  | ret a => rfl
  | raise e => rfl
  | call c k ih => exact ih _ _

theorem exec_bind_ok {p : Prog C R E α} {s s' : S} {a : α} (f : α → Prog C R E β)
    (hp : exec h p s = (.ok a, s')) : exec h (p >>= f) s = exec h (f a) s' := by
  rw [exec_bind, hp]

theorem exec_bind_error {p : Prog C R E α} {s s' : S} {e : E} (f : α → Prog C R E β)
    (hp : exec h p s = (.error e, s')) : exec h (p >>= f) s = (.error e, s') := by
  rw [exec_bind, hp]

theorem exec_bind_eq_ok {p : Prog C R E α} {f : α → Prog C R E β} {s s' : S} {b : β}
    (hb : exec h (p >>= f) s = (.ok b, s')) :
    ∃ a s₁, exec h p s = (.ok a, s₁) ∧ exec h (f a) s₁ = (.ok b, s') := by
  rw [exec_bind] at hb
  rcases hp : exec h p s with ⟨r, s₁⟩
  rw [hp] at hb
  cases r with
  | ok a => exact ⟨a, s₁, rfl, hb⟩
  | error e => cases hb

/-- The commands issued by the run of `p` from `s`. -/
def log : Prog C R E α → S → List C
  | ret _, _ => []
  | raise _, _ => []
  | call c k, s => c :: log (k (h c s).1) (h c s).2

theorem log_perform (c : C) (s : S) : log h (perform c) s = [c] := by
  show c :: log h (ofExcept (h c s).1) (h c s).2 = [c]
  cases (h c s).1 with
  | ok r => rfl
  | error e => rfl

theorem log_bind (p : Prog C R E α) (f : α → Prog C R E β) (s : S) :
    log h (p >>= f) s =
      log h p s ++ match exec h p s with
        | (.ok a, s') => log h (f a) s'
        | (.error _, _) => [] := by
  show log h (p.bind f) s = _
  induction p generalizing s with
  | ret a => rfl
  | raise e => rfl
  | call c k ih => exact congrArg (c :: ·) (ih _ _)

theorem log_tryCatch (p : Prog C R E α) (f : E → Prog C R E α) (s : S) :
    log h (MonadExcept.tryCatch p f) s =
      log h p s ++ match exec h p s with
        | (.ok _, _) => []
        | (.error e, s') => log h (f e) s' := by
  show log h (p.tryCatch f) s = _
  induction p generalizing s with
  | ret a => rfl
  | raise e => rfl
  | call c k ih => exact congrArg (c :: ·) (ih _ _)

end Prog

/-! ### Contracts -/

/-- The commands a program may issue, and the replies it may count on. -/
structure Contract (C : Type) (R : C → Type) where
  asks : C → Prop
  answers : (c : C) → R c → Prop

/-- What is within `K` is within `K'`: fewer commands, and no more counted on. -/
structure Contract.Within (K K' : Contract C R) : Prop where
  asks : ∀ c, K.asks c → K'.asks c
  answers : ∀ c a, K'.answers c a → K.answers c a

/-- The commands of `K`, answered by `h`, keep `I` and get the replies of `K`. -/
def Contract.Keeps (K : Contract C R) (h : (c : C) → S → Except E (R c) × S) (I : S → Prop) :
    Prop :=
  ∀ c s, K.asks c → I s → I (h c s).2 ∧ ∀ a, (h c s).1 = .ok a → K.answers c a

/-- With the replies of `K` the program issues only commands of `K` and returns only values
in `Q`. -/
def Only (K : Contract C R) (Q : α → Prop) : Prog C R E α → Prop
  | .ret a => Q a
  | .raise _ => True
  | .call c k => K.asks c ∧ (∀ a, K.answers c a → Only K Q (k (.ok a))) ∧
      ∀ e, Only K Q (k (.error e))

/-- As `Only K Q`, and the program raises only when a command has raised. -/
def Uses (K : Contract C R) (Q : α → Prop) : Prog C R E α → Prop
  | .ret a => Q a
  | .raise _ => False
  | .call c k => K.asks c ∧ (∀ a, K.answers c a → Uses K Q (k (.ok a))) ∧
      ∀ e, Only K Q (k (.error e))

variable {K K' : Contract C R} {Q Q' : α → Prop} {Q₂ : β → Prop}

namespace Only

theorem pure {a : α} (ha : Q a) : Only K Q (Pure.pure a : Prog C R E α) := ha

theorem perform {c : C} (hc : K.asks c) :
    Only K (K.answers c) (Prog.perform c : Prog C R E (R c)) :=
  ⟨hc, fun _ ha => ha, fun _ => trivial⟩

theorem bind {p : Prog C R E α} {f : α → Prog C R E β} (hp : Only K Q p)
    (hf : ∀ a, Q a → Only K Q₂ (f a)) : Only K Q₂ (p >>= f) := by
  show Only K Q₂ (p.bind f)
  induction p with
  | ret a => exact hf a hp
  | raise e => trivial
  | call c k ih =>
      exact ⟨hp.1, fun a ha => ih _ (hp.2.1 a ha), fun e => ih _ (hp.2.2 e)⟩

theorem tryCatch {p : Prog C R E α} {f : E → Prog C R E α} (hp : Only K Q p)
    (hf : ∀ e, Only K Q (f e)) : Only K Q (MonadExcept.tryCatch p f) := by
  show Only K Q (p.tryCatch f)
  induction p with
  | ret a => exact hp
  | raise e => exact hf e
  | call c k ih =>
      exact ⟨hp.1, fun a ha => ih _ (hp.2.1 a ha), fun e => ih _ (hp.2.2 e)⟩

theorem attempt {p : Prog C R E α} (hp : Only K Q p) :
    Only K (fun r => ∀ a, r = .ok a → Q a) p.attempt := by
  refine tryCatch (bind hp (fun a ha => pure ?_)) (fun e => pure (fun a h => by cases h))
  intro b hb
  cases hb
  exact ha

theorem ite {c : Prop} [Decidable c] {p q : Prog C R E α} (hp : c → Only K Q p)
    (hq : ¬c → Only K Q q) : Only K Q (if c then p else q) := by
  split_ifs with hc
  · exact hp hc
  · exact hq hc

theorem mono {p : Prog C R E α} (hp : Only K Q p) (hK : K.Within K')
    (hQ : ∀ a, Q a → Q' a) : Only K' Q' p := by
  induction p with
  | ret a => exact hQ a hp
  | raise e => trivial
  | call c k ih =>
      exact ⟨hK.asks c hp.1, fun a ha => ih _ (hp.2.1 a (hK.answers c a ha)),
        fun e => ih _ (hp.2.2 e)⟩

/-- What the commands of `K` keep, the program keeps. -/
theorem exec {h : (c : C) → S → Except E (R c) × S} {I : S → Prop} (hK : K.Keeps h I)
    {p : Prog C R E α} (hp : Only K Q p) {s : S} (hs : I s) :
    I (p.exec h s).2 ∧ ∀ a, (p.exec h s).1 = .ok a → Q a := by
  induction p generalizing s with
  | ret a =>
      refine ⟨hs, fun b hb => ?_⟩
      cases hb
      exact hp
  | raise e => exact ⟨hs, fun b hb => by cases hb⟩
  | call c k ih =>
      obtain ⟨hs', ha⟩ := hK c s hp.1 hs
      show I ((k (h c s).1).exec h (h c s).2).2 ∧ _
      cases hr : (h c s).1 with
      | ok a =>
          rw [Prog.exec, hr]
          exact ih _ (hp.2.1 a (ha a hr)) hs'
      | error e =>
          rw [Prog.exec, hr]
          exact ih _ (hp.2.2 e) hs'

end Only

namespace Uses

theorem only {p : Prog C R E α} (hp : Uses K Q p) : Only K Q p := by
  induction p with
  | ret a => exact hp
  | raise e => trivial
  | call c k ih => exact ⟨hp.1, fun a ha => ih _ (hp.2.1 a ha), hp.2.2⟩

theorem pure {a : α} (ha : Q a) : Uses K Q (Pure.pure a : Prog C R E α) := ha

theorem perform {c : C} (hc : K.asks c) :
    Uses K (K.answers c) (Prog.perform c : Prog C R E (R c)) :=
  ⟨hc, fun _ ha => ha, fun _ => trivial⟩

theorem bind {p : Prog C R E α} {f : α → Prog C R E β} (hp : Uses K Q p)
    (hf : ∀ a, Q a → Uses K Q₂ (f a)) : Uses K Q₂ (p >>= f) := by
  show Uses K Q₂ (p.bind f)
  induction p with
  | ret a => exact hf a hp
  | raise e => exact hp.elim
  | call c k ih =>
      exact ⟨hp.1, fun a ha => ih _ (hp.2.1 a ha),
        fun e => Only.bind (hp.2.2 e) (fun a ha => (hf a ha).only)⟩

theorem tryCatch {p : Prog C R E α} {f : E → Prog C R E α} (hp : Uses K Q p)
    (hf : ∀ e, Only K Q (f e)) : Uses K Q (MonadExcept.tryCatch p f) := by
  show Uses K Q (p.tryCatch f)
  induction p with
  | ret a => exact hp
  | raise e => exact hp.elim
  | call c k ih =>
      exact ⟨hp.1, fun a ha => ih _ (hp.2.1 a ha), fun e => Only.tryCatch (hp.2.2 e) hf⟩

theorem ite {c : Prop} [Decidable c] {p q : Prog C R E α} (hp : c → Uses K Q p)
    (hq : ¬c → Uses K Q q) : Uses K Q (if c then p else q) := by
  split_ifs with hc
  · exact hp hc
  · exact hq hc

theorem mono {p : Prog C R E α} (hp : Uses K Q p) (hK : K.Within K')
    (hQ : ∀ a, Q a → Q' a) : Uses K' Q' p := by
  induction p with
  | ret a => exact hQ a hp
  | raise e => exact hp
  | call c k ih =>
      exact ⟨hK.asks c hp.1, fun a ha => ih _ (hp.2.1 a (hK.answers c a ha)),
        fun e => (hp.2.2 e).mono hK hQ⟩

theorem within {p : Prog C R E α} (hp : Uses K Q p) (hK : K.Within K') : Uses K' Q p :=
  hp.mono hK (fun _ ha => ha)

theorem weaken {p : Prog C R E α} (hp : Uses K Q p) (hQ : ∀ a, Q a → Q' a) : Uses K Q' p :=
  hp.mono ⟨fun _ h => h, fun _ _ h => h⟩ hQ

end Uses

/-! ### Pre- and postconditions -/

/-- Started in `P`, the program ends with a value in `Q` or with an exception in `X`. -/
def Triple (h : (c : C) → S → Except E (R c) × S) (P : S → Prop) (p : Prog C R E α)
    (Q : α → S → Prop) (X : E → S → Prop) : Prop :=
  ∀ s, P s → (∀ a s', p.exec h s = (.ok a, s') → Q a s') ∧
    ∀ e s', p.exec h s = (.error e, s') → X e s'

namespace Triple

variable {h : (c : C) → S → Except E (R c) × S} {P P' I : S → Prop} {Q Q' : α → S → Prop}
  {X X' : E → S → Prop}

theorem pure {a : α} (hq : ∀ s, P s → Q a s) : Triple h P (Pure.pure a : Prog C R E α) Q X := by
  intro s hs
  refine ⟨?_, fun e s' he => (by cases he)⟩
  intro b s' hb
  cases hb
  exact hq s hs

theorem throw {e : E} (hx : ∀ s, P s → X e s) :
    Triple h P (MonadExcept.throw e : Prog C R E α) Q X := by
  intro s hs
  refine ⟨fun b s' hb => (by cases hb), ?_⟩
  intro e' s' he
  cases he
  exact hx s hs

theorem perform {c : C} {Q : R c → S → Prop}
    (hq : ∀ s a s', P s → h c s = (.ok a, s') → Q a s')
    (hx : ∀ s e s', P s → h c s = (.error e, s') → X e s') :
    Triple h P (Prog.perform c) Q X := by
  intro s hs
  rw [Prog.exec_perform]
  exact ⟨fun a s' ha => hq s a s' hs ha, fun e s' he => hx s e s' hs he⟩

theorem bind {p : Prog C R E α} {f : α → Prog C R E β} {Q₂ : β → S → Prop}
    (hp : Triple h P p Q X) (hf : ∀ a, Triple h (Q a) (f a) Q₂ X) :
    Triple h P (p >>= f) Q₂ X := by
  intro s hs
  obtain ⟨hok, herror⟩ := hp s hs
  rw [Prog.exec_bind]
  rcases hr : p.exec h s with ⟨r, s₁⟩
  cases r with
  | ok a => exact hf a s₁ (hok a s₁ hr)
  | error e =>
      refine ⟨fun b s' hb => (by cases hb), ?_⟩
      intro e' s' he
      cases he
      exact herror e s₁ hr

theorem tryCatch {p : Prog C R E α} {f : E → Prog C R E α} (hp : Triple h P p Q X)
    (hf : ∀ e, Triple h (X e) (f e) Q X') : Triple h P (MonadExcept.tryCatch p f) Q X' := by
  intro s hs
  obtain ⟨hok, herror⟩ := hp s hs
  rw [Prog.exec_tryCatch]
  rcases hr : p.exec h s with ⟨r, s₁⟩
  cases r with
  | ok a =>
      refine ⟨?_, fun e s' he => (by cases he)⟩
      intro b s' hb
      cases hb
      exact hok a s₁ hr
  | error e => exact hf e s₁ (herror e s₁ hr)

theorem ite {c : Prop} [Decidable c] {p q : Prog C R E α} (hp : c → Triple h P p Q X)
    (hq : ¬c → Triple h P q Q X) : Triple h P (if c then p else q) Q X := by
  split_ifs with hc
  · exact hp hc
  · exact hq hc

theorem weaken {p : Prog C R E α} (ht : Triple h P p Q X) (hP : ∀ s, P' s → P s)
    (hQ : ∀ a s, Q a s → Q' a s) (hX : ∀ e s, X e s → X' e s) : Triple h P' p Q' X' := by
  intro s hs
  obtain ⟨hok, herror⟩ := ht s (hP s hs)
  exact ⟨fun a s' ha => hQ a s' (hok a s' ha), fun e s' he => hX e s' (herror e s' he)⟩

/-- A postcondition that does not depend on the outcome. -/
theorem exec {p : Prog C R E α} {J : S → Prop} (ht : Triple h P p (fun _ => J) (fun _ => J)) {s : S}
    (hs : P s) : J (p.exec h s).2 := by
  obtain ⟨hok, herror⟩ := ht s hs
  rcases hr : p.exec h s with ⟨r, s'⟩
  cases r with
  | ok a => exact hok a s' hr
  | error e => exact herror e s' hr

/-- What the commands of a contract keep, a program within the contract keeps. -/
theorem of_only {p : Prog C R E α} {Q : α → Prop} (hp : Only K Q p) (hK : K.Keeps h I) :
    Triple h I p (fun a s => Q a ∧ I s) (fun _ s => I s) := by
  intro s hs
  obtain ⟨hI, hq⟩ := hp.exec hK hs
  refine ⟨?_, ?_⟩
  · intro a s' hr
    rw [hr] at hI hq
    exact ⟨hq a rfl, hI⟩
  · intro e s' hr
    rw [hr] at hI
    exact hI

end Triple

/-! ### Programs that do not raise -/

/-- The program never ends with an exception. -/
def Total : Prog C R E α → Prop
  | .ret _ => True
  | .raise _ => False
  | .call _ k => ∀ r, Total (k r)

namespace Total

theorem pure (a : α) : Total (Pure.pure a : Prog C R E α) := trivial

theorem bind {p : Prog C R E α} {f : α → Prog C R E β} (hp : Total p) (hf : ∀ a, Total (f a)) :
    Total (p >>= f) := by
  show Total (p.bind f)
  induction p with
  | ret a => exact hf a
  | raise e => exact hp.elim
  | call c k ih => exact fun r => ih r (hp r)

/-- A body of which every exception is handled. -/
theorem tryCatch {p : Prog C R E α} {f : E → Prog C R E α} (hf : ∀ e, Total (f e)) :
    Total (MonadExcept.tryCatch p f) := by
  show Total (p.tryCatch f)
  induction p with
  | ret a => trivial
  | raise e => exact hf e
  | call c k ih => exact fun r => ih r

theorem exec {p : Prog C R E α} (hp : Total p) (h : (c : C) → S → Except E (R c) × S) (s : S) :
    ∃ a s', p.exec h s = (.ok a, s') := by
  induction p generalizing s with
  | ret a => exact ⟨a, s, rfl⟩
  | raise e => exact hp.elim
  | call c k ih => exact ih _ (hp _) _

end Total

/-! ### Runs without exceptions -/

namespace Prog

/-- The value and the state of the run in which no command raises. -/
def calm (h : (c : C) → S → Except E (R c) × S) : Prog C R E α → S → Option (α × S)
  | ret a, s => some (a, s)
  | raise _, _ => none
  | call c k, s =>
      match (h c s).1 with
      | .ok a => calm h (k (.ok a)) (h c s).2
      | .error _ => none

variable (h : (c : C) → S → Except E (R c) × S)

@[simp] theorem calm_pure (a : α) (s : S) : calm h (pure a : Prog C R E α) s = some (a, s) := rfl

theorem calm_perform (c : C) (s : S) :
    calm h (perform c) s =
      match (h c s).1 with
      | .ok a => some (a, (h c s).2)
      | .error _ => none := by
  simp only [perform, calm]
  cases (h c s).1 with
  | ok a => rfl
  | error e => rfl

theorem calm_bind (p : Prog C R E α) (f : α → Prog C R E β) (s : S) :
    calm h (p >>= f) s = (calm h p s).bind (fun x => calm h (f x.1) x.2) := by
  show calm h (p.bind f) s = _
  induction p generalizing s with
  | ret a => rfl
  | raise e => rfl
  | call c k ih =>
      simp only [bind, calm]
      cases (h c s).1 with
      | ok a => exact ih _ _
      | error e => rfl

/-- The handler has nothing to do. -/
theorem calm_tryCatch_of_eq_some {p : Prog C R E α} {s s' : S} {a : α} (f : E → Prog C R E α)
    (hp : calm h p s = some (a, s')) : calm h (MonadExcept.tryCatch p f) s = some (a, s') := by
  show calm h (p.tryCatch f) s = _
  induction p generalizing s with
  | ret b => exact hp
  | raise e => cases hp
  | call c k ih =>
      simp only [tryCatch, calm] at hp ⊢
      cases hr : (h c s).1 with
      | ok a =>
          rw [hr] at hp
          exact ih _ hp
      | error e =>
          rw [hr] at hp
          cases hp

/-- Nor has it when the body raises only what a command has raised. -/
theorem calm_of_tryCatch {K : Contract C R} {Q : α → Prop} (hK : ∀ c a, K.answers c a)
    {p : Prog C R E α} (hp : Uses K Q p) {f : E → Prog C R E α} {s s' : S} {a : α}
    (hrun : calm h (MonadExcept.tryCatch p f) s = some (a, s')) : calm h p s = some (a, s') := by
  change calm h (p.tryCatch f) s = some (a, s') at hrun
  induction p generalizing s with
  | ret b => exact hrun
  | raise e => exact hp.elim
  | call c k ih =>
      simp only [tryCatch, calm] at hrun ⊢
      cases hr : (h c s).1 with
      | ok b =>
          rw [hr] at hrun
          exact ih _ (hp.2.1 b (hK c b)) hrun
      | error e =>
          rw [hr] at hrun
          cases hrun

end Prog

/-- What the commands of `K` keep, the run without exceptions keeps. -/
theorem Only.calm {h : (c : C) → S → Except E (R c) × S} {I : S → Prop} (hK : K.Keeps h I)
    {p : Prog C R E α} (hp : Only K Q p) {s s' : S} {a : α} (hrun : p.calm h s = some (a, s'))
    (hs : I s) : I s' ∧ Q a := by
  induction p generalizing s with
  | ret b => cases hrun; exact ⟨hs, hp⟩
  | raise e => cases hrun
  | call c k ih =>
      obtain ⟨hs', ha⟩ := hK c s hp.1 hs
      rw [Prog.calm] at hrun
      cases hr : (h c s).1 with
      | ok b =>
          rw [hr] at hrun
          exact ih _ (hp.2.1 b (ha b hr)) hrun hs'
      | error e =>
          rw [hr] at hrun
          cases hrun

/-- The contract of every program. -/
def Contract.any : Contract C R := ⟨fun _ => True, fun _ _ => True⟩

theorem Only.any (p : Prog C R E α) : Only Contract.any (fun _ => True) p := by
  induction p with
  | ret a => trivial
  | raise e => trivial
  | call c k ih => exact ⟨trivial, fun a _ => ih (.ok a), fun e => ih (.error e)⟩

end RagFlow.Effect
