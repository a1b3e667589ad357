import RagFlow.MessageService
import RagFlow.Transition

/-! # The capacity of a memory

`embed_and_save` of `api/db/joint_services/memory_message_service.py` saves messages into a memory
and forgets old ones when they do not fit.

* **The size of a memory** is kept in Redis under `memory_<id>`.  Where there is none,
  `get_memory_size_cache` computes it from the message store and sets it, for an hour.
* **Saving** reads the size of the memory with the two arguments of `get_memory_size_cache` in the
  wrong order, so that what it reads is filed under the tenant; the changes are made to the size
  under `memory_<id>`.  A message counts with its size when it is saved; when it is forgotten it
  counts with the size with which it is read back.

`memory_capacity` gives the condition under which a run of saves, between which sizes in Redis may
expire, keeps the messages within the capacity, and says by how much the size in Redis is then
wrong. -/

namespace RagFlow.Memory

open Py Transition

/-! ### Redis -/

/-- A number in Redis, and whether it expires. -/
structure Entry where
  value : ℤ
  expires : Bool
deriving DecidableEq

structure State where
  store : Store
  redis : Str → Option Entry

/-- The number under a key, which counts as `0` if there is none. -/
def State.number (s : State) (key : Str) : ℤ := ((s.redis key).map Entry.value).getD 0

def State.write (s : State) (key : Str) (e : Option Entry) : State :=
  { s with redis := fun k => if k = key then e else s.redis k }

/-- `set`, with its default expiry. -/
def State.set (s : State) (key : Str) (value : ℤ) : State := s.write key (some ⟨value, true⟩)

/-- `incrby` and `decrby`: the expiry stays as it is. -/
def State.incrby (s : State) (key : Str) (n : ℤ) : State :=
  s.write key (some ⟨s.number key + n, ((s.redis key).map Entry.expires).getD false⟩)

/-- `get_memory_size_cache`. -/
def getMemorySizeCache (memoryId uid : Str) (s : State) : ℤ × State :=
  match s.redis (memoryKey memoryId) with
  | some e => (e.value, s)
  | none =>
      let size := calculateMemorySize s.store memoryId uid
      (size, s.set (memoryKey memoryId) size)

def increaseMemorySizeCache (memoryId : Str) (size : ℤ) (s : State) : State :=
  s.incrby (memoryKey memoryId) size

def decreaseMemorySizeCache (memoryId : Str) (size : ℤ) (s : State) : State :=
  s.incrby (memoryKey memoryId) (-size)

/-! ### Saving -/

structure MemoryInfo where
  id : Str
  tenantId : Str
  memorySize : ℕ
  forgettingPolicy : Str

/-- What `embed_and_save` returns where the store does not fail. -/
inductive Reply where
  | saved
  | cannotDecide
deriving DecidableEq

def Reply.text : Reply → Bool × String
  | saved => (true, "Message saved successfully.")
  | cannotDecide => (false,
      "Failed to insert message into memory. Memory size reached limit and " ++
        "cannot decide which to delete.")

/-- The size of the messages that are saved. -/
def newMsgSize (ms : List NewMessage) : ℕ := totalSize (ms.map NewMessage.toMessage)

/-- Their size once they are stored. -/
def storedSize (ms : List NewMessage) : ℕ := totalSize (ms.map NewMessage.readBack)

/-- The index is created with the first message of a tenant. -/
def ensureIndex (mem : MemoryInfo) (s : State) : State :=
  if s.store.hasIndex (memoryKey mem.tenantId) then s
  else { s with store := createIndex mem.tenantId s.store }

/-- The size that `embed_and_save` takes for the current one: the arguments are the wrong way
round. -/
def currentMemorySize (mem : MemoryInfo) (s : State) : ℤ × State :=
  getMemorySizeCache mem.tenantId mem.id s

/-- The messages that are forgotten, if there are too many. -/
def forget (mem : MemoryInfo) (sizeToDelete : ℤ) (s : State) : Except Failure State := do
  let (ids, size) ← pickMessagesToDeleteByFifo s.store mem.id mem.tenantId sizeToDelete
  return decreaseMemorySizeCache mem.id size
    { s with store := deleteMessage ids mem.tenantId mem.id s.store }

/-- `embed_and_save`. -/
def embedAndSave (mem : MemoryInfo) (ms : List NewMessage) (s : State) :
    Except Failure (Reply × State) := do
  if ms.isEmpty then throw .noVectors
  let new : ℤ := newMsgSize ms
  let (current, s) := currentMemorySize mem (ensureIndex mem s)
  let full := mem.memorySize < new + current
  if full && mem.forgettingPolicy ≠ ['F', 'I', 'F', 'O'] then return (.cannotDecide, s)
  let s ← if full then forget mem (current + new - mem.memorySize) s else pure s
  let s := { s with store := insertMessage ms mem.tenantId mem.id s.store }
  return (.saved, increaseMemorySizeCache mem.id new s)

/-! ### The size in Redis -/

section redis
variable (s : State) (key : Str)

@[simp] theorem store_write (e : Option Entry) : (s.write key e).store = s.store := rfl

theorem number_write (e : Option Entry) (k : Str) :
    (s.write key e).number k = if k = key then (e.map Entry.value).getD 0 else s.number k := by
  unfold State.number State.write
  by_cases hk : k = key
  · simp [hk]
  · simp [hk]

theorem number_incrby (n : ℤ) : (s.incrby key n).number key = s.number key + n := by
  rw [State.incrby, number_write, if_pos rfl]
  rfl

end redis

/-- The messages of the memory. -/
def stored (mem : MemoryInfo) (s : State) : List Message := messages s.store mem.tenantId mem.id

/-- The size in Redis is by `d` more than that of the messages; without one there are none. -/
structure Counted (mem : MemoryInfo) (d : ℤ) (s : State) : Prop where
  number : s.number (memoryKey mem.id) = totalSize (stored mem s) + d
  absent : s.redis (memoryKey mem.id) = none → d = 0

theorem totalSize_search_le (ms : List Message) (r : Message → Message → Prop) [DecidableRel r]
    (limit : ℕ) : totalSize (search ms r limit) ≤ totalSize ms := by
  have hperm := totalSize_perm (List.perm_insertionSort r ms)
  have hsplit := List.take_append_drop limit (ms.insertionSort r)
  rw [← hperm, ← hsplit, totalSize_append]
  exact Nat.le_add_right _ _

section save
variable {mem : MemoryInfo} {s s' : State} {d : ℤ}

theorem stored_ensureIndex : stored mem (ensureIndex mem s) = stored mem s := by
  unfold ensureIndex
  split <;> rfl

theorem counted_ensureIndex (h : Counted mem d s) : Counted mem d (ensureIndex mem s) := by
  have hredis : (ensureIndex mem s).redis = s.redis := by
    unfold ensureIndex
    split <;> rfl
  refine ⟨?_, ?_⟩
  · rw [stored_ensureIndex, ← h.number, State.number, hredis, State.number]
  · rw [hredis]
    exact h.absent

theorem store_currentMemorySize : (currentMemorySize mem s).2.store = s.store := by
  unfold currentMemorySize getMemorySizeCache
  split <;> rfl

/-- Reading the size leaves that of the memory as it is, even if the memory and the tenant have the
same id. -/
theorem counted_currentMemorySize (h : Counted mem d s) :
    Counted mem d (currentMemorySize mem s).2 := by
  have hstored : stored mem (currentMemorySize mem s).2 = stored mem s := by
    rw [stored, store_currentMemorySize, stored]
  cases hread : s.redis (memoryKey mem.tenantId) with
  | some e =>
      have hsame : (currentMemorySize mem s).2 = s := by
        rw [currentMemorySize, getMemorySizeCache, hread]
      rw [hsame]
      exact h
  | none =>
      have hset : (currentMemorySize mem s).2 = s.set (memoryKey mem.tenantId)
          (calculateMemorySize s.store mem.tenantId mem.id) := by
        rw [currentMemorySize, getMemorySizeCache, hread]
      by_cases hkey : memoryKey mem.id = memoryKey mem.tenantId
      · -- There is no size, so that there are no messages.
        have hd : d = 0 := h.absent (by rw [hkey, hread])
        have hzero : s.number (memoryKey mem.id) = 0 := by
          rw [hkey, State.number, hread]
          rfl
        have hnumber := h.number
        rw [hzero, hd] at hnumber
        have hid : mem.id = mem.tenantId := List.append_cancel_left hkey
        have hle := totalSize_search_le (messages s.store mem.id mem.tenantId)
          (fun m m' => m'.validAt ≤ m.validAt) 2048
        have hempty : totalSize (messages s.store mem.id mem.tenantId) = 0 := by
          rw [stored, hid] at hnumber
          rw [hid]
          omega
        refine ⟨?_, fun _ => hd⟩
        rw [hstored, hset, State.set, number_write, if_pos hkey, hd, ← hnumber]
        show ((calculateMemorySize s.store mem.tenantId mem.id : ℕ) : ℤ) = 0
        rw [calculateMemorySize]
        omega
      · refine ⟨?_, ?_⟩
        · rw [hstored, hset, State.set, number_write, if_neg hkey]
          exact h.number
        · rw [hset]
          simp only [State.set, State.write, if_neg hkey]
          exact h.absent

/-- Forgetting leaves the size as right as it is; it forgets enough, or all messages that were
found. -/
theorem counted_forget (h : Counted mem d s) {sizeToDelete : ℤ}
    (hforget : forget mem sizeToDelete s = .ok s') :
    Counted mem d s' ∧ (stored mem s').Sublist (stored mem s) ∧
      (sizeToDelete + totalSize (stored mem s') ≤ totalSize (stored mem s) ∨
        totalSize (candidates s.store mem.tenantId mem.id) + totalSize (stored mem s') =
          totalSize (stored mem s)) := by
  have hanswers : Answers s.store mem.tenantId := by
    by_contra hnot
    obtain ⟨e, herror⟩ := pickMessagesToDeleteByFifo_of_not_answers hnot mem.id sizeToDelete
    rw [forget, herror] at hforget
    cases hforget
  obtain ⟨picked, hfifo, heq⟩ := exists_fifo s.store mem.id mem.tenantId sizeToDelete
  rw [forget, pickMessagesToDeleteByFifo_of_answers hanswers, heq] at hforget
  cases hforget
  have hsub : picked.Subperm (messages s.store mem.tenantId mem.id) :=
    hfifo.order.sublist.subperm.trans (candidates_subperm _ _ _)
  have htotal := totalSize_deleteMessage hsub
  have hnumber := number_incrby { s with
      store := deleteMessage (picked.map Message.messageId) mem.tenantId mem.id s.store }
    (memoryKey mem.id) (-totalSize picked)
  refine ⟨⟨?_, ?_⟩, ?_, ?_⟩
  · rw [decreaseMemorySizeCache, hnumber]
    have hbefore := h.number
    unfold stored at hbefore ⊢
    show s.number (memoryKey mem.id) + -totalSize picked = totalSize (messages
      (deleteMessage (picked.map Message.messageId) mem.tenantId mem.id s.store)
      mem.tenantId mem.id) + d
    omega
  · intro hnone
    simp [decreaseMemorySizeCache, State.incrby, State.write] at hnone
  · show (messages (deleteMessage _ mem.tenantId mem.id s.store) mem.tenantId mem.id).Sublist _
    rw [messages_deleteMessage]
    exact List.filter_sublist
  · unfold stored decreaseMemorySizeCache State.incrby
    rw [store_write]
    dsimp only
    rcases hfifo.ends with hle | hall
    · omega
    · rw [hall] at htotal ⊢
      exact Or.inr htotal

end save

/-! ### Runs -/

/-- What happens: messages are saved, or a number in Redis expires. -/
inductive Action where
  | save (ms : List NewMessage)
  | expire (key : Str)

def Step (mem : MemoryInfo) (s : State) : Action → State → Prop
  | .save ms, s' => ∃ reply, embedAndSave mem ms s = .ok (reply, s')
  | .expire key, s' => ∃ e, s.redis key = some e ∧ e.expires = true ∧ s' = s.write key none

/-- The messages fit with those that are stored; or the size that is read is not too small and all
messages can be found, so that enough of them are forgotten. -/
def Fits (mem : MemoryInfo) (s : State) (ms : List NewMessage) : Prop :=
  totalSize (stored mem s) + storedSize ms ≤ mem.memorySize ∨
    (storedSize ms ≤ mem.memorySize ∧
      totalSize (stored mem s) + storedSize ms ≤
        (currentMemorySize mem (ensureIndex mem s)).1 + newMsgSize ms ∧
      ((stored mem s).filter (·.forgetAt.isSome)).length ≤ 512 ∧
      ((stored mem s).filter (·.forgetAt.isNone)).length ≤ 512)

instance Fits.decidable (mem : MemoryInfo) (s : State) (ms : List NewMessage) :
    Decidable (Fits mem s ms) :=
  inferInstanceAs (Decidable (_ ∨ _))

/-- The condition on the steps of a run. -/
def StepFits (mem : MemoryInfo) (s : State) : Action → Prop
  | .save ms => Fresh ms (stored mem s) ∧ Fits mem s ms
  | .expire key => key = memoryKey mem.id → stored mem s = []

instance StepFits.decidable (mem : MemoryInfo) (s : State) :
    ∀ a, Decidable (StepFits mem s a)
  | .save ms => inferInstanceAs (Decidable (Fresh ms (stored mem s) ∧ Fits mem s ms))
  | .expire key => inferInstanceAs (Decidable (key = memoryKey mem.id → stored mem s = []))

/-- By how much the size in Redis is wrong: the messages that have been saved since there was none
counted with their size then, not with that of what is stored. -/
def drift (mem : MemoryInfo) (actions : List Action) : ℤ :=
  actions.foldl (fun d a => match a with
    | .save ms => d + (newMsgSize ms - storedSize ms)
    | .expire key => if key = memoryKey mem.id then 0 else d) 0

@[simp] theorem drift_nil (mem : MemoryInfo) : drift mem [] = 0 := rfl

theorem drift_save (mem : MemoryInfo) (actions : List Action) (ms : List NewMessage) :
    drift mem (actions ++ [.save ms]) =
      drift mem actions + (newMsgSize ms - storedSize ms) := by
  rw [drift, List.foldl_append]
  rfl

theorem drift_expire (mem : MemoryInfo) (actions : List Action) (key : Str) :
    drift mem (actions ++ [.expire key]) =
      if key = memoryKey mem.id then 0 else drift mem actions := by
  rw [drift, List.foldl_append]
  rfl

/-- The messages are within the capacity, and the size in Redis is theirs. -/
def WithinCapacity (mem : MemoryInfo) (s : State) : Prop :=
  totalSize (stored mem s) ≤ mem.memorySize ∧
    (s.redis (memoryKey mem.id)).map Entry.value = some (totalSize (stored mem s) : ℤ)

section run
variable {mem : MemoryInfo} {s s' : State} {d : ℤ}

/-- With at most 512 messages of a kind a search finds them all. -/
theorem totalSize_search {ms : List Message} {r : Message → Message → Prop} [DecidableRel r]
    {limit : ℕ} (h : ms.length ≤ limit) : totalSize (search ms r limit) = totalSize ms := by
  unfold search
  rw [List.take_of_length_le (by rw [List.length_insertionSort]; exact h)]
  exact totalSize_perm (List.perm_insertionSort r ms)

theorem totalSize_candidates
    (hforgotten : ((stored mem s).filter (·.forgetAt.isSome)).length ≤ 512)
    (holdest : ((stored mem s).filter (·.forgetAt.isNone)).length ≤ 512) :
    totalSize (candidates s.store mem.tenantId mem.id) = totalSize (stored mem s) := by
  unfold stored at hforgotten holdest ⊢
  rw [candidates, totalSize_append, forgottenMessages, oldestMessages,
    totalSize_search hforgotten, totalSize_search holdest, ← totalSize_append]
  refine totalSize_perm ?_
  have hsplit := List.filter_append_perm (fun m : Message => m.forgetAt.isSome)
    (messages s.store mem.tenantId mem.id)
  simpa using hsplit

/-- What is kept before the messages are saved: everything, or what is not forgotten. -/
def Kept (mem : MemoryInfo) (ms : List NewMessage) (s s₁ : State) : Prop :=
  let r := currentMemorySize mem (ensureIndex mem s)
  s₁ = r.2 ∧ newMsgSize ms + r.1 ≤ mem.memorySize ∨
    mem.memorySize < newMsgSize ms + r.1 ∧
      forget mem (r.1 + newMsgSize ms - mem.memorySize) r.2 = .ok s₁

/-- What a save does: it adds the messages to those that are kept. -/
theorem embedAndSave_eq_ok {ms : List NewMessage} {reply : Reply}
    (hfifo : mem.forgettingPolicy = ['F', 'I', 'F', 'O'])
    (h : embedAndSave mem ms s = .ok (reply, s')) :
    ∃ s₁, Kept mem ms s s₁ ∧ s' = increaseMemorySizeCache mem.id (newMsgSize ms)
      { s₁ with store := insertMessage ms mem.tenantId mem.id s₁.store } := by
  unfold embedAndSave at h
  cases hempty : ms.isEmpty with
  | true =>
      rw [hempty] at h
      cases h
  | false =>
      by_cases hfull : (mem.memorySize : ℤ) <
          newMsgSize ms + (currentMemorySize mem (ensureIndex mem s)).1
      · cases hforget : forget mem
            ((currentMemorySize mem (ensureIndex mem s)).1 + newMsgSize ms - mem.memorySize)
            (currentMemorySize mem (ensureIndex mem s)).2 with
        | error e => simp [hempty, hfifo, hfull, hforget, bind, Except.bind] at h
        | ok s₁ =>
            simp [hempty, hfifo, hfull, hforget, bind, Except.bind, pure, Except.pure] at h
            exact ⟨s₁, Or.inr ⟨hfull, hforget⟩, h.2.symm⟩
      · simp [hempty, hfifo, hfull, bind, Except.bind, pure, Except.pure] at h
        exact ⟨_, Or.inl ⟨rfl, Int.not_lt.mp hfull⟩, h.2.symm⟩

/-- What is kept is counted and leaves room for the messages. -/
theorem kept_fits {s₁ : State} {ms : List NewMessage} (hcounted : Counted mem d s)
    (hfits : Fits mem s ms) (h : Kept mem ms s s₁) :
    Counted mem d s₁ ∧ (stored mem s₁).Sublist (stored mem s) ∧
      totalSize (stored mem s₁) + storedSize ms ≤ mem.memorySize := by
  have hread := counted_currentMemorySize (counted_ensureIndex hcounted)
  have hstored : stored mem (currentMemorySize mem (ensureIndex mem s)).2 = stored mem s := by
    rw [stored, store_currentMemorySize, ← stored, stored_ensureIndex]
  rcases h with ⟨rfl, hle⟩ | ⟨hfull, hforget⟩
  · rw [hstored]
    refine ⟨hread, List.Sublist.refl _, ?_⟩
    rcases hfits with hfits | ⟨-, hsize, -, -⟩
    · exact hfits
    · omega
  · obtain ⟨hkept, hsub, hend⟩ := counted_forget hread hforget
    rw [hstored] at hsub hend
    refine ⟨hkept, hsub, ?_⟩
    rcases hfits with hfits | ⟨hnew, hsize, hforgotten, holdest⟩
    · omega
    · rw [← hstored] at hforgotten holdest
      have hall := totalSize_candidates hforgotten holdest
      rw [hstored] at hall
      omega

theorem counted_save {ms : List NewMessage} {reply : Reply}
    (hfifo : mem.forgettingPolicy = ['F', 'I', 'F', 'O']) (hcounted : Counted mem d s)
    (hfresh : Fresh ms (stored mem s)) (hfits : Fits mem s ms)
    (h : embedAndSave mem ms s = .ok (reply, s')) :
    Counted mem (d + (newMsgSize ms - storedSize ms)) s' ∧
      totalSize (stored mem s') ≤ mem.memorySize ∧
      (s'.redis (memoryKey mem.id)).isSome = true := by
  obtain ⟨s₁, hkept, rfl⟩ := embedAndSave_eq_ok hfifo h
  obtain ⟨hcounted₁, hsub, hroom⟩ := kept_fits hcounted hfits hkept
  have hfresh₁ : Fresh ms (stored mem s₁) :=
    List.Nodup.sublist ((hsub.append (List.Sublist.refl _)).map Message.messageId) hfresh
  have hinsert := messages_insertMessage ms s₁.store hfresh₁
  have hstored : ∀ n : ℤ, stored mem (increaseMemorySizeCache mem.id n
      { s₁ with store := insertMessage ms mem.tenantId mem.id s₁.store }) =
        stored mem s₁ ++ ms.map NewMessage.readBack :=
    fun n => hinsert
  have htotal : totalSize (stored mem s₁ ++ ms.map NewMessage.readBack) =
      totalSize (stored mem s₁) + storedSize ms := totalSize_append _ _
  have hnumber := hcounted₁.number
  refine ⟨⟨?_, ?_⟩, ?_, ?_⟩
  · rw [hstored, htotal, increaseMemorySizeCache, number_incrby]
    show s₁.number (memoryKey mem.id) + newMsgSize ms = _
    omega
  · intro hnone
    simp [increaseMemorySizeCache, State.incrby, State.write] at hnone
  · rw [hstored, htotal]
    exact hroom
  · simp [increaseMemorySizeCache, State.incrby, State.write]

theorem counted_expire {key : Str} (hcounted : Counted mem d s)
    (hexpire : key = memoryKey mem.id → stored mem s = []) :
    Counted mem (if key = memoryKey mem.id then 0 else d) (s.write key none) := by
  have hstored : stored mem (s.write key none) = stored mem s := rfl
  by_cases hkey : key = memoryKey mem.id
  · refine ⟨?_, fun _ => if_pos hkey⟩
    rw [number_write, if_pos hkey.symm, if_pos hkey, hstored, hexpire hkey]
    rfl
  · rw [if_neg hkey]
    refine ⟨?_, ?_⟩
    · rw [number_write, if_neg (Ne.symm hkey), hstored]
      exact hcounted.number
    · simp only [State.write, if_neg (Ne.symm hkey)]
      exact hcounted.absent

/-- One step: the size in Redis stays wrong by the drift. -/
theorem counted_step {actions : List Action} {a : Action}
    (hfifo : mem.forgettingPolicy = ['F', 'I', 'F', 'O'])
    (hcounted : Counted mem (drift mem actions) s) (hfits : StepFits mem s a)
    (h : Step mem s a s') : Counted mem (drift mem (actions ++ [a])) s' := by
  cases a with
  | save ms =>
      obtain ⟨reply, hsave⟩ := h
      rw [drift_save]
      exact (counted_save hfifo hcounted hfits.1 hfits.2 hsave).1
  | expire key =>
      obtain ⟨e, -, -, rfl⟩ := h
      rw [drift_expire]
      exact counted_expire hcounted hfits

theorem counted_run (hfifo : mem.forgettingPolicy = ['F', 'I', 'F', 'O'])
    (run : List (Action × State)) :
    ∀ (actions : List Action) {s : State}, Counted mem (drift mem actions) s →
      IsRun (Step mem) s run → AllSteps (StepFits mem) s run →
      Counted mem (drift mem (actions ++ run.map Prod.fst)) (last s run) := by
  induction run with
  | nil =>
      intro actions s hcounted _ _
      rw [List.map_nil, List.append_nil]
      exact hcounted
  | cons x run ih =>
      intro actions s hcounted hrun hsteps
      have hnext := counted_step hfifo hcounted hsteps.1 hrun.1
      have hlast := ih _ hnext hrun.2 hsteps.2
      rw [List.append_assoc] at hlast
      exact hlast

end run

/-- Where the size in Redis is right at the beginning, new messages fit, and the size does not
expire while there are messages, every save leaves the memory within its capacity; and the size in
Redis is right if and only if the messages count as much when they are saved as when they are
stored. -/
theorem memory_capacity (mem : MemoryInfo) (hfifo : mem.forgettingPolicy = ['F', 'I', 'F', 'O'])
    (s : State) (hs : Counted mem 0 s) (run : List (Action × State)) (hrun : IsRun (Step mem) s run)
    (hsteps : AllSteps (StepFits mem) s run) (before after : List (Action × State))
    (ms : List NewMessage) (s' : State) (hsplit : run = before ++ (.save ms, s') :: after) :
    totalSize (stored mem s') ≤ mem.memorySize ∧
      (WithinCapacity mem s' ↔ drift mem (before.map Prod.fst ++ [.save ms]) = 0) := by
  subst hsplit
  obtain ⟨hbefore, hsave, -⟩ := (isRun_append _ _ s).mp hrun
  obtain ⟨hfits, hfit, -⟩ := (allSteps_append _ _ s).mp hsteps
  have hcounted := counted_run hfifo before [] hs hbefore hfits
  obtain ⟨reply, hsave⟩ := hsave
  obtain ⟨hcounted', hroom, hsome⟩ := counted_save hfifo hcounted hfit.1 hfit.2 hsave
  rw [List.nil_append, ← drift_save] at hcounted'
  refine ⟨hroom, ?_⟩
  have hnumber := hcounted'.number
  obtain ⟨e, he⟩ := Option.isSome_iff_exists.mp hsome
  rw [State.number, he] at hnumber
  have hvalue : e.value =
      totalSize (stored mem s') + drift mem (before.map Prod.fst ++ [.save ms]) := hnumber
  unfold WithinCapacity
  rw [he, Option.map_some, Option.some.injEq]
  constructor
  · rintro ⟨-, hright⟩
    omega
  · intro hzero
    exact ⟨hroom, by omega⟩

/-! ### Two messages -/

def smallMemory : MemoryInfo :=
  { id := ['m'], tenantId := ['t'], memorySize := 100, forgettingPolicy := ['F', 'I', 'F', 'O'] }

def largeMemory : MemoryInfo := { smallMemory with memorySize := 200 }

def emptyState : State := { store := Store.empty .elasticsearch, redis := fun _ => none }

/-- A message that is saved with a list of floats. -/
def listMessage (id : ℕ) : NewMessage := { oneMessage id with sizes := (oneMessage id).stored }

/-- Two messages fit into a memory of the size 200.  The second counts with the array that it is
saved with. -/
theorem memory_capacity_two : ∃ s₁ s₂,
    embedAndSave largeMemory [listMessage 1] emptyState = .ok (.saved, s₁) ∧
    embedAndSave largeMemory [oneMessage 2] s₁ = .ok (.saved, s₂) ∧
    WithinCapacity largeMemory s₁ ∧
    totalSize (stored largeMemory s₂) ≤ 200 ∧ ¬WithinCapacity largeMemory s₂ := by
  refine ⟨_, _, rfl, rfl, ?_⟩
  have hall := memory_capacity largeMemory rfl emptyState ⟨rfl, fun _ => rfl⟩
    [(.save [listMessage 1], _), (.save [oneMessage 2], _)] ⟨⟨_, rfl⟩, ⟨_, rfl⟩, trivial⟩
    (by decide +kernel)
  have hfirst := hall [] _ _ _ rfl
  have hsecond := hall [_] [] _ _ rfl
  refine ⟨hfirst.2.mpr rfl, hsecond.1, fun hwithin => ?_⟩
  have hdrift : (8 : ℤ) = 0 := hsecond.2.mp hwithin
  omega

/-- Two messages are both kept in a memory that has room for one.  Where the size of a memory that
has a message is not in Redis, the next save does not count that message.  And a message that is
saved with an array counts with the size of the array. -/
theorem memory_overflows : (∃ s₁ s₂,
      embedAndSave smallMemory [oneMessage 1] emptyState = .ok (.saved, s₁) ∧
      embedAndSave smallMemory [oneMessage 2] s₁ = .ok (.saved, s₂) ∧
      smallMemory.memorySize < totalSize (stored smallMemory s₂)) ∧
    (∃ s₁ s₂, s₁ = { emptyState with
        store := insertMessage [listMessage 1] ['t'] ['m'] emptyState.store } ∧
      embedAndSave largeMemory [listMessage 2] s₁ = .ok (.saved, s₂) ∧
      (s₂.redis (memoryKey largeMemory.id)).map Entry.value = some 66 ∧
      totalSize (stored largeMemory s₂) = 132) ∧
    ∃ s₁, embedAndSave largeMemory [oneMessage 1] emptyState = .ok (.saved, s₁) ∧
      (s₁.redis (memoryKey largeMemory.id)).map Entry.value = some 74 ∧
      totalSize (stored largeMemory s₁) = 66 := by
  refine ⟨⟨_, _, rfl, rfl, by decide +kernel⟩, ⟨_, _, rfl, rfl, by decide +kernel⟩, _, rfl, ?_⟩
  decide +kernel

end RagFlow.Memory
