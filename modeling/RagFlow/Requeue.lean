import Mathlib.Data.Prod.Lex
import RagFlow.Effect

/-! # Requeueing a message

`RedisDB.requeue_msg`: a message of a stream is read, appended again and acknowledged, in up to
three attempts.

* **Streams.** The identifiers of a stream increase, and a new one is above all before it, so a
  copy never takes the place of the message (`Stream.find_xadd`).
* **Failures.** A command may raise before or after the server has executed it (`Fate`).
* **Attempts.** The loop is not left after an attempt that succeeds.  `afterAttempt` says what
  one attempt does, `exec_attempts` what several do.
* **The defect.** Without a failure the message is appended three times.  `requeue_iff`: the call
  does what it should exactly when the message is missing or a command fails. -/

namespace RagFlow.Requeue

open Effect

variable {P : Type}

/-! ### Streams -/

/-- The milliseconds and the sequence number of an entry. -/
abbrev StreamId := ℕ ×ₗ ℕ

/-- The identifier that `XADD` gives at the time `now`. -/
def nextId (now : ℕ) (last : StreamId) : StreamId :=
  if (ofLex last).1 < now then toLex (now, 0)
  else toLex ((ofLex last).1, (ofLex last).2 + 1)

theorem lt_nextId (now : ℕ) (last : StreamId) : last < nextId now last := by
  unfold nextId
  split_ifs with h
  · exact Prod.Lex.lt_iff.mpr (Or.inl h)
  · exact Prod.Lex.lt_iff.mpr (Or.inr ⟨rfl, Nat.lt_succ_self _⟩)

/-- The entries of a stream with their fields, in the order of their identifiers. -/
structure Stream (P : Type) where
  entries : List (StreamId × P)
  lastId : StreamId
  sorted : (entries.map Prod.fst).Pairwise (· < ·)
  le_last : ∀ e ∈ entries, e.1 ≤ lastId

namespace Stream

def empty : Stream P := ⟨[], toLex (0, 0), List.Pairwise.nil, fun _ h => absurd h List.not_mem_nil⟩

/-- `XADD` with an identifier of the server's choice. -/
def xadd (s : Stream P) (now : ℕ) (fields : P) : Stream P where
  entries := s.entries ++ [(nextId now s.lastId, fields)]
  lastId := nextId now s.lastId
  sorted := by
    rw [List.map_append, List.pairwise_append]
    refine ⟨s.sorted, List.pairwise_singleton _ _, fun a ha b hb => ?_⟩
    obtain ⟨e, he, rfl⟩ := List.mem_map.mp ha
    rw [List.mem_singleton.mp hb]
    exact (s.le_last e he).trans_lt (lt_nextId now s.lastId)
  le_last := by
    intro e he
    rcases List.mem_append.mp he with he | he
    · exact (s.le_last e he).trans (lt_nextId now s.lastId).le
    · rw [List.mem_singleton.mp he]

/-- `XRANGE`. -/
def xrange (s : Stream P) (first last : StreamId) : List (StreamId × P) :=
  s.entries.filter (fun e => first ≤ e.1 && e.1 ≤ last)

/-- The fields of the message with an identifier. -/
def find (s : Stream P) (id : StreamId) : Option P := (s.xrange id id).head?.map Prod.snd

/-- A copy does not take the place of a message. -/
theorem find_xadd {s : Stream P} {id : StreamId} {p : P} (h : s.find id = some p) (now : ℕ)
    (fields : P) : (s.xadd now fields).find id = some p := by
  obtain ⟨e, he, rfl⟩ := Option.map_eq_some_iff.mp h
  unfold find xrange xadd
  rw [List.filter_append, List.head?_append, ← xrange, he]
  rfl

end Stream

/-! ### Commands -/

inductive Cmd (P : Type) where
  | xrange (first last : StreamId)
  | xadd (fields : P)
  | xack (id : StreamId)

abbrev Cmd.Ret : Cmd P → Type
  | xrange _ _ => List (StreamId × P)
  | xadd _ => StreamId
  | xack _ => ℕ

/-- The stream and what is pending in the group. -/
structure Queue (P : Type) where
  stream : Stream P
  pending : List StreamId

/-- What the server does at the time `now`. -/
def Cmd.apply (now : ℕ) : (c : Cmd P) → Queue P → c.Ret × Queue P
  | xrange first last, q => (q.stream.xrange first last, q)
  | xadd fields, q => (nextId now q.stream.lastId, { q with stream := q.stream.xadd now fields })
  | xack id, q => (q.pending.count id, { q with pending := q.pending.filter (· ≠ id) })

/-- What becomes of a command: its reply arrives, or it raises before or after the server has
executed it. -/
inductive Fate where
  | served
  | refused
  | lost
deriving DecidableEq

inductive Err where
  | failure

/-- The times and the fates of the commands of a call. -/
structure Surroundings where
  now : ℕ → ℕ
  fate : ℕ → Fate

/-- The queue and the number of the commands so far. -/
structure Session (P : Type) where
  queue : Queue P
  turn : ℕ

def serve (w : Surroundings) (c : Cmd P) (s : Session P) : Except Err c.Ret × Session P :=
  let r := c.apply (w.now s.turn) s.queue
  match w.fate s.turn with
  | .served => (.ok r.1, ⟨r.2, s.turn + 1⟩)
  | .refused => (.error .failure, ⟨s.queue, s.turn + 1⟩)
  | .lost => (.error .failure, ⟨r.2, s.turn + 1⟩)

abbrev Service (P α : Type) := Prog (Cmd P) Cmd.Ret Err α

/-! ### `requeue_msg` -/

/-- The body of the `try` statement. -/
def attempt (msgId : StreamId) : Service P Unit := do
  let messages ← Prog.perform (C := Cmd P) (.xrange msgId msgId)
  match messages with
  | [] => pure ()
  | message :: _ => do
      let _ ← Prog.perform (C := Cmd P) (.xadd message.2)
      let _ ← Prog.perform (C := Cmd P) (.xack msgId)
      pure ()

/-- The loop, with `n` rounds to go.  A new connection after an exception issues no command. -/
def attempts (msgId : StreamId) : ℕ → Service P Unit
  | 0 => pure ()
  | n + 1 => do
      tryCatch (attempt msgId) (fun _ => pure ())
      attempts msgId n

/-- `requeue_msg`. -/
def requeueMsg (msgId : StreamId) : Service P Unit := attempts msgId 3

/-! ### What the call should do -/

section run
variable (w : Surroundings) (q : Queue P) (msgId : StreamId)

/-- The session after an attempt. -/
def afterAttempt (s : Session P) : Session P := (Prog.exec (serve w) (attempt msgId) s).2

/-- How the attempts end, from a session on. -/
def outcomes : ℕ → Session P → List (Except Err Unit)
  | 0, _ => []
  | n + 1, s => (Prog.exec (serve w) (attempt msgId) s).1 :: outcomes n (afterAttempt w msgId s)

/-- The session after the call. -/
def afterCall : Session P := (Prog.exec (serve w) (requeueMsg msgId) ⟨q, 0⟩).2

/-- The fields of the entries that the call has appended. -/
def appended : List P :=
  ((afterCall w q msgId).queue.stream.entries.drop q.stream.entries.length).map Prod.snd

/-- No command of the call fails. -/
def Undisturbed : Prop := ∀ k < (afterCall w q msgId).turn, w.fate k = .served

/-- Without failures one copy of the message is appended and the message acknowledged, and nothing
is appended without a message; with failures a copy is appended unless all attempts fail. -/
def RequeuesOnce : Prop :=
  (Undisturbed w q msgId →
    match q.stream.find msgId with
    | some p => appended w q msgId = [p] ∧ msgId ∉ (afterCall w q msgId).queue.pending
    | none => appended w q msgId = []) ∧
  (¬Undisturbed w q msgId → ∀ p, q.stream.find msgId = some p →
    (∃ r ∈ outcomes w msgId 3 ⟨q, 0⟩, r = .ok ()) → p ∈ appended w q msgId)

end run

/-! ### One attempt -/

section attempt
variable {w : Surroundings} {msgId : StreamId} {p : P} {s s' s'' : Session P}

/-- Copies of the message have been appended, and it is still there. -/
structure Extends (msgId : StreamId) (p : P) (n : ℕ) (s s' : Session P) : Prop where
  entries : ∃ l, s'.queue.stream.entries = s.queue.stream.entries ++ l ∧
    l.map Prod.snd = List.replicate n p
  found : s'.queue.stream.find msgId = some p

theorem Extends.same (hfound : s.queue.stream.find msgId = some p)
    (h : s'.queue.stream = s.queue.stream) : Extends msgId p 0 s s' := by
  refine ⟨⟨[], ?_, rfl⟩, ?_⟩
  · rw [h, List.append_nil]
  · rw [h]
    exact hfound

theorem Extends.copy (hfound : s.queue.stream.find msgId = some p) (now : ℕ)
    (h : s'.queue.stream = s.queue.stream.xadd now p) : Extends msgId p 1 s s' := by
  refine ⟨⟨[(nextId now s.queue.stream.lastId, p)], ?_, rfl⟩, ?_⟩
  · rw [h]
    rfl
  · rw [h]
    exact Stream.find_xadd hfound now p

theorem Extends.trans {n m : ℕ} (h : Extends msgId p n s s') (h' : Extends msgId p m s' s'') :
    Extends msgId p (n + m) s s'' := by
  obtain ⟨l, hl, hcopies⟩ := h.entries
  obtain ⟨l', hl', hcopies'⟩ := h'.entries
  refine ⟨⟨l ++ l', ?_, ?_⟩, h'.found⟩
  · rw [hl', hl, List.append_assoc]
  · rw [List.map_append, hcopies, hcopies', List.replicate_append_replicate]

/-- The commands from one turn up to another are served. -/
def Served (w : Surroundings) (i j : ℕ) : Prop := ∀ k, i ≤ k → k < j → w.fate k = .served

/-- An attempt that succeeds: one copy, the message acknowledged, three commands. -/
structure Succeeded (w : Surroundings) (msgId : StreamId) (p : P) (s s' : Session P) : Prop where
  copied : Extends msgId p 1 s s'
  acked : msgId ∉ s'.queue.pending
  turn : s'.turn = s.turn + 3
  served : Served w s.turn (s.turn + 3)

/-- An attempt that raises: at most one copy, and a command that has failed. -/
structure Raised (w : Surroundings) (msgId : StreamId) (p : P) (s s' : Session P) : Prop where
  copied : ∃ n, Extends msgId p n s s'
  failed : ¬Served w s.turn s'.turn
  failed_within : ¬Served w s.turn (s.turn + 3)

theorem serve_served {c : Cmd P} (h : w.fate s.turn = .served) :
    serve w c s = (.ok (c.apply (w.now s.turn) s.queue).1,
      ⟨(c.apply (w.now s.turn) s.queue).2, s.turn + 1⟩) := by
  unfold serve
  rw [h]

/-- A command that fails has been executed, or it has not. -/
theorem serve_failed {c : Cmd P} (h : w.fate s.turn ≠ .served) :
    ∃ q, serve w c s = (.error .failure, ⟨q, s.turn + 1⟩) ∧
      (q = s.queue ∨ q = (c.apply (w.now s.turn) s.queue).2) := by
  unfold serve
  cases hfate : w.fate s.turn with
  | served => exact absurd hfate h
  | refused => exact ⟨_, rfl, Or.inl rfl⟩
  | lost => exact ⟨_, rfl, Or.inr rfl⟩

/-- The command at a turn of the attempt has failed. -/
theorem raised_of_failed {n i : ℕ} {q : Queue P} (hi : i < 3)
    (hcopied : Extends msgId p n s ⟨q, s.turn + (i + 1)⟩)
    (h : w.fate (s.turn + i) ≠ .served) : Raised w msgId p s ⟨q, s.turn + (i + 1)⟩ := by
  refine ⟨⟨n, hcopied⟩, fun hserved => ?_, fun hserved => ?_⟩
  · exact h (hserved _ (Nat.le_add_right _ _) (Nat.lt_succ_self _))
  · exact h (hserved _ (Nat.le_add_right _ _) (by omega))

theorem attempt_spec (hfound : s.queue.stream.find msgId = some p) :
    ((Prog.exec (serve w) (attempt msgId) s).1 = .ok () ∧
        Succeeded w msgId p s (afterAttempt w msgId s)) ∨
      ((Prog.exec (serve w) (attempt msgId) s).1 = .error .failure ∧
        Raised w msgId p s (afterAttempt w msgId s)) := by
  obtain ⟨e, he, rfl⟩ := Option.map_eq_some_iff.mp hfound
  obtain ⟨rest, hrange⟩ := List.head?_eq_some_iff.mp he
  unfold afterAttempt attempt
  by_cases h₀ : w.fate s.turn = .served
  · -- The message is read.
    rw [Prog.exec_bind_ok (serve w) _ ((Prog.exec_perform (serve w) _ s).trans (serve_served h₀))]
    dsimp only [Cmd.apply]
    rw [hrange]
    dsimp only
    by_cases h₁ : w.fate (s.turn + 1) = .served
    · -- The copy is appended.
      rw [Prog.exec_bind_ok (serve w) _ ((Prog.exec_perform (serve w) _ _).trans (serve_served h₁))]
      dsimp only [Cmd.apply]
      by_cases h₂ : w.fate (s.turn + 2) = .served
      · rw [Prog.exec_bind_ok (serve w) _
          ((Prog.exec_perform (serve w) _ _).trans (serve_served h₂))]
        refine Or.inl ⟨rfl, Extends.copy hfound _ rfl, ?_, rfl, fun k hk hlt => ?_⟩
        · simp [Cmd.apply]
        · obtain rfl | rfl | rfl : k = s.turn ∨ k = s.turn + 1 ∨ k = s.turn + 2 := by omega
          · exact h₀
          · exact h₁
          · exact h₂
      · obtain ⟨q, hserve, hq⟩ := serve_failed (c := .xack msgId)
          (s := ⟨⟨s.queue.stream.xadd (w.now (s.turn + 1)) e.2, s.queue.pending⟩, s.turn + 2⟩) h₂
        rw [Prog.exec_bind_error (serve w) _ ((Prog.exec_perform (serve w) _ _).trans hserve)]
        refine Or.inr ⟨rfl, raised_of_failed (i := 2) (by omega)
          (Extends.copy hfound (w.now (s.turn + 1)) ?_) h₂⟩
        rcases hq with rfl | rfl <;> rfl
    · obtain ⟨q, hserve, hq⟩ := serve_failed (c := .xadd e.2) (s := ⟨s.queue, s.turn + 1⟩) h₁
      rw [Prog.exec_bind_error (serve w) _ ((Prog.exec_perform (serve w) _ _).trans hserve)]
      rcases hq with rfl | rfl
      · exact Or.inr ⟨rfl,
          raised_of_failed (i := 1) (by omega) (Extends.same hfound rfl) h₁⟩
      · exact Or.inr ⟨rfl,
          raised_of_failed (i := 1) (by omega) (Extends.copy hfound _ rfl) h₁⟩
  · obtain ⟨q, hserve, hq⟩ := serve_failed (c := .xrange msgId msgId) h₀
    rw [Prog.exec_bind_error (serve w) _ ((Prog.exec_perform (serve w) _ _).trans hserve)]
    refine Or.inr ⟨rfl, raised_of_failed (i := 0) (by omega) (Extends.same hfound ?_) h₀⟩
    rcases hq with rfl | rfl <;> rfl

/-- Without the message an attempt appends nothing. -/
theorem attempt_missing (hmissing : s.queue.stream.find msgId = none) :
    (afterAttempt w msgId s).queue.stream = s.queue.stream := by
  have hrange : s.queue.stream.xrange msgId msgId = [] := by
    rw [← List.head?_eq_none_iff]
    exact Option.map_eq_none_iff.mp hmissing
  unfold afterAttempt attempt
  by_cases h₀ : w.fate s.turn = .served
  · rw [Prog.exec_bind_ok (serve w) _ ((Prog.exec_perform (serve w) _ s).trans (serve_served h₀))]
    dsimp only [Cmd.apply]
    rw [hrange]
    rfl
  · obtain ⟨q, hserve, hq⟩ := serve_failed (c := .xrange msgId msgId) h₀
    rw [Prog.exec_bind_error (serve w) _ ((Prog.exec_perform (serve w) _ _).trans hserve)]
    rcases hq with rfl | rfl <;> rfl

end attempt

/-! ### Several attempts -/

section attempts
variable {w : Surroundings} {msgId : StreamId} {p : P}

/-- The session after `n` attempts. -/
def afterAttempts (w : Surroundings) (msgId : StreamId) : ℕ → Session P → Session P
  | 0, s => s
  | n + 1, s => afterAttempts w msgId n (afterAttempt w msgId s)

theorem exec_attempts (n : ℕ) : ∀ s : Session P,
    (Prog.exec (serve w) (attempts msgId n) s).2 = afterAttempts w msgId n s := by
  induction n with
  | zero => exact fun s => rfl
  | succ n ih =>
      intro s
      have hhandled : Prog.exec (serve w) (tryCatch (attempt msgId) (fun _ => pure ())) s =
          (.ok (), afterAttempt w msgId s) := by
        rw [Prog.exec_tryCatch]
        unfold afterAttempt
        rcases Prog.exec (serve w) (attempt msgId) s with ⟨r, s'⟩
        cases r with
        | ok => rfl
        | error e => rfl
      rw [attempts, Prog.exec_bind_ok (serve w) _ hhandled]
      exact ih (afterAttempt w msgId s)

theorem attempts_missing (n : ℕ) : ∀ s : Session P, s.queue.stream.find msgId = none →
    (afterAttempts w msgId n s).queue.stream = s.queue.stream := by
  induction n with
  | zero => exact fun s _ => rfl
  | succ n ih =>
      intro s hmissing
      have hsame := attempt_missing (w := w) hmissing
      rw [afterAttempts, ih _ (by rw [hsame]; exact hmissing), hsame]

/-- Attempts append copies of the message, and at least one if one of them succeeds. -/
theorem attempts_extends (n : ℕ) : ∀ s : Session P, s.queue.stream.find msgId = some p →
    ∃ m, Extends msgId p m s (afterAttempts w msgId n s) ∧
      ((∃ r ∈ outcomes w msgId n s, r = .ok ()) → 1 ≤ m) := by
  induction n with
  | zero =>
      intro s hfound
      refine ⟨0, Extends.same hfound rfl, ?_⟩
      rintro ⟨r, hr, -⟩
      cases hr
  | succ n ih =>
      intro s hfound
      rcases attempt_spec (w := w) hfound with ⟨-, hdone⟩ | ⟨hraised, hfailed⟩
      · obtain ⟨m, hm, -⟩ := ih _ hdone.copied.found
        exact ⟨1 + m, hdone.copied.trans hm, fun _ => Nat.le_add_right 1 m⟩
      · obtain ⟨k, hk⟩ := hfailed.copied
        obtain ⟨m, hm, hsome⟩ := ih _ hk.found
        refine ⟨k + m, hk.trans hm, ?_⟩
        rintro ⟨r, hr, rfl⟩
        rcases List.mem_cons.mp hr with hr | hr
        · rw [hraised] at hr
          cases hr
        · have := hsome ⟨_, hr, rfl⟩
          omega

/-- Without failures each attempt appends a copy, and the message is acknowledged. -/
theorem attempts_served (n : ℕ) : ∀ s : Session P, s.queue.stream.find msgId = some p →
    Served w s.turn (s.turn + 3 * (n + 1)) →
    Extends msgId p (n + 1) s (afterAttempts w msgId (n + 1) s) ∧
      msgId ∉ (afterAttempts w msgId (n + 1) s).queue.pending ∧
      (afterAttempts w msgId (n + 1) s).turn = s.turn + 3 * (n + 1) := by
  induction n with
  | zero =>
      intro s hfound hserved
      rcases attempt_spec (w := w) hfound with ⟨-, hdone⟩ | ⟨-, hfailed⟩
      · exact ⟨hdone.copied, hdone.acked, hdone.turn⟩
      · exact absurd hserved hfailed.failed_within
  | succ n ih =>
      intro s hfound hserved
      rcases attempt_spec (w := w) hfound with ⟨-, hdone⟩ | ⟨-, hfailed⟩
      · have hturn := hdone.turn
        obtain ⟨hextends, hacked, hend⟩ := ih _ hdone.copied.found
          (fun k hk hlt => hserved k (by omega) (by omega))
        have hcopied := hdone.copied.trans hextends
        rw [Nat.add_comm 1] at hcopied
        refine ⟨hcopied, hacked, ?_⟩
        rw [afterAttempts, hend]
        omega
      · exact absurd (fun k hk hlt => hserved k hk (by omega)) hfailed.failed_within

theorem turn_le_afterAttempts (n : ℕ) : ∀ s : Session P, s.queue.stream.find msgId = some p →
    s.turn ≤ (afterAttempts w msgId n s).turn := by
  induction n with
  | zero => exact fun s _ => le_rfl
  | succ n ih =>
      intro s hfound
      rcases attempt_spec (w := w) hfound with ⟨-, hdone⟩ | ⟨-, hfailed⟩
      · have hle := ih _ hdone.copied.found
        have hturn := hdone.turn
        rw [afterAttempts]
        omega
      · obtain ⟨k, hk⟩ := hfailed.copied
        have hlt : s.turn < (afterAttempt w msgId s).turn := by
          by_contra hle
          exact hfailed.failed (fun k hk hlt => absurd hlt (by omega))
        exact hlt.le.trans (ih _ hk.found)

/-- If no command fails, every attempt issues all of its commands. -/
theorem served_of_undisturbed (n : ℕ) : ∀ s : Session P, s.queue.stream.find msgId = some p →
    Served w s.turn (afterAttempts w msgId n s).turn → Served w s.turn (s.turn + 3 * n) := by
  induction n with
  | zero => exact fun s _ _ k hk hlt => absurd hlt (by omega)
  | succ n ih =>
      intro s hfound hserved
      rcases attempt_spec (w := w) hfound with ⟨-, hdone⟩ | ⟨-, hfailed⟩
      · have hturn := hdone.turn
        have hrest := ih _ hdone.copied.found
          (fun k hk hlt => hserved k (by omega) hlt)
        intro k hk hlt
        by_cases hfirst : k < s.turn + 3
        · exact hdone.served k hk hfirst
        · exact hrest k (by omega) (by omega)
      · obtain ⟨k, hk⟩ := hfailed.copied
        have hle := turn_le_afterAttempts (w := w) n _ hk.found
        exact absurd (fun k hk hlt => hserved k hk (hlt.trans_le hle)) hfailed.failed

end attempts

/-! ### The call -/

section call
variable {w : Surroundings} {q : Queue P} {msgId : StreamId} {p : P}

theorem afterCall_eq : afterCall w q msgId = afterAttempts w msgId 3 ⟨q, 0⟩ :=
  exec_attempts 3 ⟨q, 0⟩

theorem Extends.appended_eq {n : ℕ} (h : Extends msgId p n ⟨q, 0⟩ (afterCall w q msgId)) :
    appended w q msgId = List.replicate n p := by
  obtain ⟨l, hl, hcopies⟩ := h.entries
  unfold appended
  rw [hl, List.drop_left, hcopies]

end call

/-- **Requeueing.**  The call does what it should exactly when there is no such message or one of
its commands fails. -/
theorem requeue_iff (w : Surroundings) (q : Queue P) (msgId : StreamId) :
    RequeuesOnce w q msgId ↔ q.stream.find msgId = none ∨ ∃ k < 9, w.fate k ≠ .served := by
  unfold RequeuesOnce
  cases hfind : q.stream.find msgId with
  | none =>
      have hsame := attempts_missing (w := w) 3 ⟨q, 0⟩ hfind
      have happended : appended w q msgId = [] := by
        unfold appended
        rw [afterCall_eq, hsame, List.drop_length]
        rfl
      refine iff_of_true ⟨fun _ => happended, fun _ p hp => by cases hp⟩ (Or.inl rfl)
  | some p =>
      obtain ⟨m, hm, hsome⟩ := attempts_extends (w := w) 3 ⟨q, 0⟩ hfind
      rw [← afterCall_eq] at hm
      have happended := hm.appended_eq
      constructor
      · rintro ⟨honce, -⟩
        by_contra hnot
        have hserved : Served w 0 9 := by
          intro k _ hlt
          by_contra hfate
          exact hnot (Or.inr ⟨k, hlt, hfate⟩)
        obtain ⟨hextends, -, hturn⟩ := attempts_served (w := w) 2 ⟨q, 0⟩ hfind hserved
        rw [← afterCall_eq] at hextends hturn
        have hundisturbed : Undisturbed w q msgId := by
          intro k hk
          rw [hturn] at hk
          exact hserved k (Nat.zero_le _) hk
        have hcopies := (honce hundisturbed).1
        rw [hextends.appended_eq] at hcopies
        cases hcopies
      · rintro (hnone | ⟨k, hlt, hfate⟩)
        · cases hnone
        · refine ⟨fun hundisturbed => ?_, fun _ p' hp' hok => ?_⟩
          · have hserved := served_of_undisturbed (w := w) 3 ⟨q, 0⟩ hfind (by
              rw [← afterCall_eq]
              exact fun k _ hlt => hundisturbed k hlt)
            exact absurd (hserved k (Nat.zero_le _) hlt) hfate
          · cases hp'
            have hpos := hsome hok
            rw [happended]
            exact List.mem_replicate.mpr ⟨by omega, rfl⟩

/-! A pending message, and a server that always answers. -/

def pendingQueue : Queue ℕ where
  stream := Stream.empty.xadd 5 7
  pending := [toLex (5, 0)]

def calmServer : Surroundings := ⟨fun _ => 6, fun _ => .served⟩

theorem requeued_three_times :
    appended calmServer pendingQueue (toLex (5, 0)) = [7, 7, 7] ∧
      ¬RequeuesOnce calmServer pendingQueue (toLex (5, 0)) := by
  have hcopies : appended calmServer pendingQueue (toLex (5, 0)) = [7, 7, 7] := by decide
  refine ⟨hcopies, fun h => ?_⟩
  have honce := (h.1 (fun _ _ => rfl)).1
  rw [hcopies] at honce
  cases honce

end RagFlow.Requeue
