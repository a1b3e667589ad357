import Mathlib.Logic.Function.Basic
import Mathlib.Logic.Relation
import RagFlow.Effect

/-! # Programs side by side

A `Protocol` is an automaton that watches the commands of one program together with their replies.
`Follows P Q g p` says that `p`, watched from the phase `g` on, keeps to the protocol whatever it
is answered, and ends with an outcome that `Q` allows in the phase reached.  Its rules follow the
constructors of programs, so that it is proved along the text of a program.

* **One program.**  `Ends p t r` is a run of `p` alone: the events `t`, with any replies at all,
  lead to the outcome `r`.  A program that follows a protocol ends as `Q` says (`Follows.ends`).
* **Several programs.**  A `Pool` is a shared state, a program for each thread and the trace of
  the events so far.  A step lets one thread issue its next command.  The handler may depend on a
  choice `x : κ`, for an exception or the reply of the surroundings, and may refuse the command
  (`none`), for a lock that is taken.  `Reaches h cond` is any number of steps that meet the
  condition `cond` where they are taken.
* **Invariants.**  `Reaches.keeps` derives an invariant of all reachable pools from one step:
  a command that the protocol of its thread allows, answered by the handler. -/

namespace RagFlow.Effect

variable {ι κ C E S G α β : Type} {R : C → Type}

/-- A command that has been answered. -/
structure Event (C : Type) (R : C → Type) (E : Type) where
  cmd : C
  reply : Except E (R cmd)

/-! ### Protocols -/

/-- The commands allowed in a phase, and the phase a reply leads to. -/
structure Protocol (C : Type) (R : C → Type) (E G : Type) where
  allows : G → C → Prop
  next : G → (c : C) → Except E (R c) → G

/-- The phase after a list of events. -/
def Protocol.phase (P : Protocol C R E G) (g : G) (t : List (Event C R E)) : G :=
  t.foldl (fun g e => P.next g e.cmd e.reply) g

/-- The protocol that allows everything. -/
def Protocol.free : Protocol C R E G := ⟨fun _ _ => True, fun g _ _ => g⟩

/-- From the phase `g` on the program keeps to the protocol and ends as `Q` says. -/
def Follows (P : Protocol C R E G) (Q : G → Except E α → Prop) : G → Prog C R E α → Prop
  | g, .ret a => Q g (.ok a)
  | g, .raise e => Q g (.error e)
  | g, .call c k => P.allows g c ∧ ∀ r, Follows P Q (P.next g c r) (k r)

namespace Follows

variable {P : Protocol C R E G} {Q Q' : G → Except E α → Prop} {Q₂ : G → Except E β → Prop} {g : G}

theorem pure {a : α} (h : Q g (.ok a)) : Follows P Q g (Pure.pure a : Prog C R E α) := h

theorem throw {e : E} (h : Q g (.error e)) : Follows P Q g (MonadExcept.throw e : Prog C R E α) := h

theorem perform {c : C} {Q : G → Except E (R c) → Prop} (hc : P.allows g c)
    (hQ : ∀ r, Q (P.next g c r) r) : Follows P Q g (Prog.perform c : Prog C R E (R c)) := by
  refine ⟨hc, fun r => ?_⟩
  cases r with
  | ok a => exact hQ (.ok a)
  | error e => exact hQ (.error e)

theorem bind {p : Prog C R E α} {f : α → Prog C R E β} (hp : Follows P Q g p)
    (hf : ∀ g a, Q g (.ok a) → Follows P Q₂ g (f a))
    (he : ∀ g e, Q g (.error e) → Q₂ g (.error e)) : Follows P Q₂ g (p >>= f) := by
  show Follows P Q₂ g (p.bind f)
  induction p generalizing g with
  | ret a => exact hf g a hp
  | raise e => exact he g e hp
  | call c k ih => exact ⟨hp.1, fun r => ih r (hp.2 r)⟩

/-- A command and what follows it. -/
theorem perform_bind {c : C} {f : R c → Prog C R E β} (hc : P.allows g c)
    (hok : ∀ a, Follows P Q₂ (P.next g c (.ok a)) (f a))
    (herror : ∀ e, Q₂ (P.next g c (.error e)) (.error e)) :
    Follows P Q₂ g (Prog.perform c >>= f) := by
  refine ⟨hc, fun r => ?_⟩
  cases r with
  | ok a => exact hok a
  | error e => exact herror e

theorem tryCatch {p : Prog C R E α} {f : E → Prog C R E α} (hp : Follows P Q' g p)
    (ha : ∀ g a, Q' g (.ok a) → Q g (.ok a))
    (hf : ∀ g e, Q' g (.error e) → Follows P Q g (f e)) :
    Follows P Q g (MonadExcept.tryCatch p f) := by
  show Follows P Q g (p.tryCatch f)
  induction p generalizing g with
  | ret a => exact ha g a hp
  | raise e => exact hf g e hp
  | call c k ih => exact ⟨hp.1, fun r => ih r (hp.2 r)⟩

theorem ite {c : Prop} [Decidable c] {p q : Prog C R E α} (hp : c → Follows P Q g p)
    (hq : ¬c → Follows P Q g q) : Follows P Q g (if c then p else q) := by
  split_ifs with hc
  · exact hp hc
  · exact hq hc

theorem weaken {p : Prog C R E α} (hp : Follows P Q g p) (hQ : ∀ g r, Q g r → Q' g r) :
    Follows P Q' g p := by
  induction p generalizing g with
  | ret a => exact hQ g _ hp
  | raise e => exact hQ g _ hp
  | call c k ih => exact ⟨hp.1, fun r => ih r (hp.2 r)⟩

theorem attempt {p : Prog C R E α} (hp : Follows P Q g p) :
    Follows P (fun g x => ∃ r, x = .ok r ∧ Q g r) g p.attempt := by
  have hbody : Follows P (fun g x =>
      match x with
      | .ok r => Q g r
      | .error e => Q g (.error e)) g (p >>= fun a => Pure.pure (Except.ok a)) :=
    bind hp (fun _ _ h => pure h) (fun _ _ h => h)
  exact tryCatch hbody (fun _ r h => ⟨r, rfl, h⟩) (fun _ e h => ⟨.error e, rfl, h⟩)

/-- The clause runs however the body ends; its own exception replaces the outcome. -/
theorem tryFinally {p : Prog C R E α} {clause : Prog C R E Unit} (hp : Follows P Q g p)
    (hclause : ∀ g r, Q g r →
      Follows P (fun g x => (x = .ok () → Q' g r) ∧ ∀ e, x = .error e → Q' g (.error e)) g clause) :
    Follows P Q' g (p.tryFinally clause) := by
  refine bind (attempt hp) ?_ (fun _ _ h => by obtain ⟨_, h, -⟩ := h; cases h)
  rintro g r ⟨_, hr, hQ⟩
  cases hr
  refine bind (hclause g r hQ) (fun g _ h => ?_) (fun g e h => h.2 e rfl)
  have hend := h.1 rfl
  cases r with
  | ok a => exact hend
  | error e => exact hend

/-- Every program follows the protocol that allows everything. -/
theorem free (p : Prog C R E α) : Follows Protocol.free (fun _ _ => True) g p := by
  induction p with
  | ret a => trivial
  | raise e => trivial
  | call c k ih => exact ⟨trivial, fun r => ih r⟩

/-- Commands that the protocol allows and that leave its phase alone. -/
theorem of_only {K : Contract C R} {Q : α → Prop} (hK : ∀ c a, K.answers c a)
    (hallows : ∀ c, K.asks c → P.allows g c) (hnext : ∀ c r, K.asks c → P.next g c r = g)
    {p : Prog C R E α} (hp : Only K Q p) : Follows P (fun g' _ => g' = g) g p := by
  induction p with
  | ret a => rfl
  | raise e => rfl
  | call c k ih =>
      refine ⟨hallows c hp.1, fun r => ?_⟩
      rw [hnext c r hp.1]
      cases r with
      | ok a => exact ih _ (hp.2.1 a (hK c a))
      | error e => exact ih _ (hp.2.2 e)

end Follows

/-! ### One program, answered in any way -/

/-- The events of a run of the program and its outcome. -/
def Prog.Ends : Prog C R E α → List (Event C R E) → Except E α → Prop
  | .ret a, t, r => t = [] ∧ r = .ok a
  | .raise e, t, r => t = [] ∧ r = .error e
  | .call c k, t, r => ∃ x t', t = ⟨c, x⟩ :: t' ∧ (k x).Ends t' r

/-- The run in which each command is answered by `f`. -/
def Prog.answeredBy (f : (c : C) → Except E (R c)) : Prog C R E α → List (Event C R E) × Except E α
  | .ret a => ([], .ok a)
  | .raise e => ([], .error e)
  | .call c k => (⟨c, f c⟩ :: ((k (f c)).answeredBy f).1, ((k (f c)).answeredBy f).2)

theorem Prog.ends_answeredBy (f : (c : C) → Except E (R c)) (p : Prog C R E α) :
    p.Ends (p.answeredBy f).1 (p.answeredBy f).2 := by
  induction p with
  | ret a => exact ⟨rfl, rfl⟩
  | raise e => exact ⟨rfl, rfl⟩
  | call c k ih => exact ⟨f c, _, rfl, ih (f c)⟩

/-- A program that follows a protocol ends in the phase of its events. -/
theorem Follows.ends {P : Protocol C R E G} {Q : G → Except E α → Prop} {g : G}
    {p : Prog C R E α} (hp : Follows P Q g p) {t : List (Event C R E)} {r : Except E α}
    (h : p.Ends t r) : Q (P.phase g t) r := by
  induction p generalizing g t with
  | ret a =>
      obtain ⟨rfl, rfl⟩ := h
      exact hp
  | raise e =>
      obtain ⟨rfl, rfl⟩ := h
      exact hp
  | call c k ih =>
      obtain ⟨x, t', rfl, h⟩ := h
      exact ih x (hp.2 x) h

/-! ### Several programs on one state -/

/-- A handler whose replies may depend on a choice, and which may refuse a command. -/
abbrev Handler (κ C : Type) (R : C → Type) (E S : Type) :=
  κ → (c : C) → S → Option (Except E (R c) × S)

/-- What becomes of a command: served, or failed before or after it took effect. -/
inductive Fate where
  | served | refused | replyLost
deriving DecidableEq

/-- The reply to a command with the effect `a` on the state `s`, when a failure raises `e`. -/
def Fate.reply {ρ : Type} (e : E) (s : S) (a : Except E ρ × S) : Fate → Except E ρ × S
  | served => a
  | refused => (.error e, s)
  | replyLost => (.error e, a.2)

/-- A command is answered and has taken effect, or it fails and may have taken effect. -/
theorem Fate.reply_cases {ρ : Type} {e : E} {s s' : S} {a : Except E ρ × S} {r : Except E ρ}
    {f : Fate} (h : f.reply e s a = (r, s')) :
    (r = a.1 ∧ s' = a.2) ∨ (r = .error e ∧ (s' = s ∨ s' = a.2)) := by
  obtain ⟨a₁, a₂⟩ := a
  cases f with
  | served =>
      cases h
      exact .inl ⟨rfl, rfl⟩
  | refused =>
      cases h
      exact .inr ⟨rfl, .inl rfl⟩
  | replyLost =>
      cases h
      exact .inr ⟨rfl, .inr rfl⟩

/-- The shared state, what is left of each program, and the events so far. -/
structure Pool (ι C : Type) (R : C → Type) (E S α : Type) where
  state : S
  threads : ι → Prog C R E α
  trace : List (ι × Event C R E)

namespace Pool

/-- The programs before their first command. -/
def start (s : S) (threads : ι → Prog C R E α) : Pool ι C R E S α := ⟨s, threads, []⟩

/-! ### Cooperative tasks -/

/-- The program has ended or waits at a command where it gives up control. -/
def atRest (rest : C → Bool) : Prog C R E α → Bool
  | .ret _ | .raise _ => true
  | .call c _ => rest c

variable [DecidableEq ι]

/-- The task that took the last step goes on, or it rests and another one goes on from where it
rests. -/
def cooperates (rest : C → Bool) (p : Pool ι C R E S α) (i : ι) (c : C) : Bool :=
  match p.trace.getLast? with
  | none => rest c
  | some (j, _) => j = i || (atRest rest (p.threads j) && rest c)

/-- A command where control is not given up is issued by the task that took the last step. -/
theorem ran_last_of_cooperates {rest : C → Bool} {p : Pool ι C R E S α} {i : ι} {c : C}
    (h : p.cooperates rest i c = true) (hc : rest c = false) :
    ∃ e, p.trace.getLast? = some (i, e) := by
  unfold cooperates at h
  rw [hc] at h
  split at h
  · cases h
  · next j e hlast =>
      rw [Bool.and_false, Bool.or_false, decide_eq_true_eq] at h
      exact ⟨e, h ▸ hlast⟩

/-! ### Steps -/

/-- The pool after the reply `r` to the command `c` of the thread `i`. -/
def answered (p : Pool ι C R E S α) (i : ι) (c : C) (k : Except E (R c) → Prog C R E α)
    (r : Except E (R c)) (s : S) : Pool ι C R E S α :=
  ⟨s, Function.update p.threads i (k r), p.trace ++ [(i, ⟨c, r⟩)]⟩

/-- One thread issues its next command, if the condition lets it. -/
inductive Step (h : Handler κ C R E S) (cond : Pool ι C R E S α → ι → C → Prop) :
    Pool ι C R E S α → Pool ι C R E S α → Prop
  | issue {p : Pool ι C R E S α} {i : ι} {c : C} {k : Except E (R c) → Prog C R E α} {x : κ}
      {r : Except E (R c)} {s : S} (hthread : p.threads i = .call c k) (hcond : cond p i c)
      (hreply : h x c p.state = some (r, s)) : Step h cond p (p.answered i c k r s)

/-- Any number of steps. -/
def Reaches (h : Handler κ C R E S) (cond : Pool ι C R E S α → ι → C → Prop) :
    Pool ι C R E S α → Pool ι C R E S α → Prop :=
  Relation.ReflTransGen (Step h cond)

/-- Every step is allowed. -/
abbrev anyStep (_ : Pool ι C R E S α) (_ : ι) (_ : C) : Prop := True

/-! ### Playing a schedule -/

section play
variable (h : Handler κ C R E S) (cond : Pool ι C R E S α → ι → C → Prop)
  [∀ p i c, Decidable (cond p i c)]

/-- The step of the thread `i` with the choice `x`, if it can be taken. -/
def step (i : ι) (x : κ) (p : Pool ι C R E S α) : Option (Pool ι C R E S α) :=
  match p.threads i with
  | .call c k =>
      if cond p i c then (h x c p.state).map (fun rs => p.answered i c k rs.1 rs.2) else none
  | _ => none

/-- The steps of a schedule, one after the other. -/
def play : List (ι × κ) → Pool ι C R E S α → Option (Pool ι C R E S α)
  | [], p => some p
  | (i, x) :: l, p => (p.step h cond i x).bind (play l)

variable {h cond}

theorem step_sound {i : ι} {x : κ} {p q : Pool ι C R E S α} (hstep : p.step h cond i x = some q) :
    Step h cond p q := by
  unfold step at hstep
  split at hstep
  · next c k hthread =>
      split_ifs at hstep with hcond
      obtain ⟨⟨r, s⟩, hreply, rfl⟩ := Option.map_eq_some_iff.mp hstep
      exact Step.issue hthread hcond hreply
  · cases hstep

/-- A schedule that can be played reaches its end. -/
theorem play_reaches (l : List (ι × κ)) : ∀ {p q : Pool ι C R E S α},
    play h cond l p = some q → Reaches h cond p q := by
  induction l with
  | nil =>
      intro p q hplay
      cases hplay
      exact Relation.ReflTransGen.refl
  | cons a l ih =>
      obtain ⟨i, x⟩ := a
      intro p q hplay
      obtain ⟨p', hstep, hrest⟩ := Option.bind_eq_some_iff.mp hplay
      exact Relation.ReflTransGen.head (step_sound hstep) (ih hrest)

end play

/-! ### Invariants -/

/-- The events of one thread. -/
def own (i : ι) (t : List (ι × Event C R E)) : List (Event C R E) :=
  t.filterMap (fun e => if e.1 = i then some e.2 else none)

theorem own_append_self (i : ι) (t : List (ι × Event C R E)) (e : Event C R E) :
    own i (t ++ [(i, e)]) = own i t ++ [e] := by
  simp [own]

theorem own_append_other {i j : ι} (hij : i ≠ j) (t : List (ι × Event C R E)) (e : Event C R E) :
    own j (t ++ [(i, e)]) = own j t := by
  simp [own, hij]

variable (P : ι → Protocol C R E G) (g : ι → G)

/-- The phases of the threads after a trace. -/
def phases (t : List (ι × Event C R E)) (i : ι) : G := (P i).phase (g i) (own i t)

variable {P g}

theorem phases_append (t : List (ι × Event C R E)) (i : ι) (e : Event C R E) :
    phases P g (t ++ [(i, e)]) =
      Function.update (phases P g t) i ((P i).next (phases P g t i) e.cmd e.reply) := by
  funext j
  by_cases hij : j = i
  · subst hij
    rw [Function.update_self]
    unfold phases
    rw [own_append_self]
    unfold Protocol.phase
    rw [List.foldl_append]
    rfl
  · rw [Function.update_of_ne hij]
    unfold phases
    rw [own_append_other (Ne.symm hij)]

/-- Threads that follow their protocols go on doing so. -/
theorem Step.follows {h : Handler κ C R E S} {cond : Pool ι C R E S α → ι → C → Prop}
    {Q : ι → G → Except E α → Prop} {p q : Pool ι C R E S α} (hstep : Step h cond p q)
    (hfollows : ∀ i, Follows (P i) (Q i) (phases P g p.trace i) (p.threads i)) :
    ∀ i, Follows (P i) (Q i) (phases P g q.trace i) (q.threads i) := by
  cases hstep with
  | @issue i c k x r s' hthread hcond hreply =>
      intro j
      show Follows (P j) (Q j) (phases P g (p.trace ++ [(i, ⟨c, r⟩)]) j)
        (Function.update p.threads i (k r) j)
      rw [phases_append]
      by_cases hij : j = i
      · subst hij
        have hj := hfollows j
        rw [hthread] at hj
        rw [Function.update_self, Function.update_self]
        exact hj.2 r
      · rw [Function.update_of_ne hij, Function.update_of_ne hij]
        exact hfollows j

/-- What each step keeps, all reachable pools keep, and their threads go on as the protocols
say. -/
theorem Reaches.keeps {h : Handler κ C R E S} {cond : Pool ι C R E S α → ι → C → Prop}
    {Q : ι → G → Except E α → Prop} {I : S → List (ι × Event C R E) → (ι → G) → Prop}
    {s : S} {threads : ι → Prog C R E α}
    (hfollows : ∀ i, Follows (P i) (Q i) (g i) (threads i)) (hinit : I s [] g)
    (hstep : ∀ (p : Pool ι C R E S α) (i : ι) (c : C) (x : κ) (r : Except E (R c)) (s' : S),
      I p.state p.trace (phases P g p.trace) → (P i).allows (phases P g p.trace i) c →
      cond p i c → h x c p.state = some (r, s') →
      I s' (p.trace ++ [(i, ⟨c, r⟩)])
        (Function.update (phases P g p.trace) i ((P i).next (phases P g p.trace i) c r)))
    {q : Pool ι C R E S α} (hreach : Reaches h cond (start s threads) q) :
    I q.state q.trace (phases P g q.trace) ∧
      ∀ i, Follows (P i) (Q i) (phases P g q.trace i) (q.threads i) := by
  induction hreach with
  | refl => exact ⟨hinit, hfollows⟩
  | @tail p q _ hlast ih =>
      obtain ⟨hI, hfollows⟩ := ih
      refine ⟨?_, hlast.follows hfollows⟩
      cases hlast with
      | @issue i c k x r s' hthread hcond hreply =>
          have hi := hfollows i
          rw [hthread] at hi
          show I s' (p.trace ++ [(i, ⟨c, r⟩)]) (phases P g (p.trace ++ [(i, ⟨c, r⟩)]))
          rw [phases_append]
          exact hstep p i c x r s' hI hi.1 hcond hreply

/-- A step out of a reachable pool issues a command that the protocol of its thread allows. -/
theorem Reaches.issued {h : Handler κ C R E S} {cond : Pool ι C R E S α → ι → C → Prop}
    {Q : ι → G → Except E α → Prop} {s : S} {threads : ι → Prog C R E α}
    (hfollows : ∀ i, Follows (P i) (Q i) (g i) (threads i)) {p q : Pool ι C R E S α}
    (hreach : Reaches h cond (start s threads) p) (hstep : Step h cond p q) :
    ∃ i c x r, (P i).allows (phases P g p.trace i) c ∧ cond p i c ∧
      h x c p.state = some (r, q.state) := by
  have hall := (hreach.keeps (I := fun _ _ _ => True) hfollows trivial
    (fun _ _ _ _ _ _ _ _ _ _ => trivial)).2
  cases hstep with
  | @issue i c k x r s' hthread hcond hreply =>
      have hi := hall i
      rw [hthread] at hi
      exact ⟨i, c, x, r, hi.1, hcond, hreply⟩

/-- The pool in which a command of the trace was issued. -/
theorem Reaches.before {h : Handler κ C R E S} {cond : Pool ι C R E S α → ι → C → Prop}
    {s : S} {threads : ι → Prog C R E α} {q : Pool ι C R E S α}
    (hreach : Reaches h cond (start s threads) q) : ∀ {t t' : List (ι × Event C R E)} {i : ι}
    {e : Event C R E}, q.trace = t ++ (i, e) :: t' →
    ∃ p k, Reaches h cond (start s threads) p ∧ p.trace = t ∧ p.threads i = .call e.cmd k := by
  induction hreach with
  | refl =>
      intro t t' i e hnil
      simp [start] at hnil
  | @tail p q hp hlast ih =>
      intro t t' i e htrace
      cases hlast with
      | @issue j c k x r s' hthread hcond hreply =>
          have htr : p.trace ++ [(j, ⟨c, r⟩)] = t ++ (i, e) :: t' := htrace
          rcases List.eq_nil_or_concat t' with rfl | ⟨t'', last, rfl⟩
          · obtain ⟨rfl, heq⟩ := List.append_inj' htr rfl
            cases heq
            exact ⟨p, k, hp, rfl, hthread⟩
          · rw [List.concat_eq_append, ← List.cons_append, ← List.append_assoc] at htr
            exact ih (List.append_inj' htr rfl).1

end Pool

end RagFlow.Effect
