import RagFlow.PyStr
import RagFlow.Table
import Mathlib.Data.List.Sort

/-! # The messages of a memory

`MessageService` of `memory/services/messages.py`: the messages of the memories in the store, their
sizes, and the choice of messages that are forgotten when a memory is full.

* **The store** is the connection `settings.msgStoreConn`, of Elasticsearch, Infinity or OceanBase.
  A message that has been saved is read back with another size: its vector comes from an embedding
  model as an array and from the store as a list of floats.
* **Forgetting** (`pick_messages_to_delete_by_fifo`) takes the forgotten messages first and then the
  oldest others, of each at most 512.  The first of its two queries fails on Infinity and on
  OceanBase, the second on Elasticsearch where there is no index.

`picksFifo_iff` says on which stores the messages are picked first in, first
out. -/

namespace RagFlow.Memory

open Py

/-! ### Messages -/

/-- What `sys.getsizeof` gives for the parts of a message. -/
structure Sizes where
  content : ℕ
  /-- `sys.getsizeof(content_embed[0])` -/
  item : ℕ
deriving DecidableEq

/-- A message with its vector, which is not empty. -/
structure Message where
  messageId : ℕ
  validAt : ℕ
  forgetAt : Option ℕ
  sizes : Sizes
  /-- `len(content_embed)` -/
  dimension : ℕ
  dimension_pos : 0 < dimension
deriving DecidableEq

/-- `calculate_message_size`. -/
def calculateMessageSize (m : Message) : ℕ := m.sizes.content + m.sizes.item * m.dimension

def totalSize (ms : List Message) : ℕ := (ms.map calculateMessageSize).sum

/-- A message that is saved.  An element of its vector is a `numpy.float64` of 32 bytes; read back
it is a float of 24 bytes. -/
structure NewMessage extends Message where
  stored : Sizes
deriving DecidableEq

def NewMessage.readBack (m : NewMessage) : Message := { m.toMessage with sizes := m.stored }

/-! ### The store -/

/-- The engines that `settings.DOC_ENGINE` names. -/
inductive DocEngine where
  | elasticsearch
  | opensearch
  | infinity
  | oceanbase
deriving DecidableEq

/-- A message in the store, in the index of a tenant. -/
structure Row where
  index : Str
  memoryId : Str
  /-- the message as it is read back -/
  message : Message
deriving DecidableEq

/-- The document id is made of the ids of the memory and the message. -/
def Row.key (r : Row) : Str × Str × ℕ := (r.index, r.memoryId, r.message.messageId)

/-- The store; every message is in an index that exists. -/
structure Store where
  engine : DocEngine
  hasIndex : Str → Bool
  rows : Table Row Row.key
  indexed : ∀ r ∈ rows, hasIndex r.index = true

/-- `index_name`, which is also the key of a size in Redis. -/
def memoryKey (id : Str) : Str := ['m', 'e', 'm', 'o', 'r', 'y', '_'] ++ id

def Row.isIn (r : Row) (uid memoryId : Str) : Bool :=
  r.index = memoryKey uid && r.memoryId = memoryId

def Store.empty (engine : DocEngine) : Store :=
  { engine, hasIndex := fun _ => false, rows := Table.empty, indexed := fun r hr => by cases hr }

/-- `create_index`, if there is none. -/
def createIndex (uid : Str) (store : Store) : Store :=
  { store with
    hasIndex := fun index => index = memoryKey uid || store.hasIndex index
    indexed := fun r hr => by simp [store.indexed r hr] }

/-- `delete_message` by message ids. -/
def deleteMessage (ids : List ℕ) (uid memoryId : Str) (store : Store) : Store :=
  { store with
    rows := store.rows.deleteWhere
      (fun r => r.isIn uid memoryId && ids.contains r.message.messageId)
    indexed := fun r hr => store.indexed r (Table.mem_deleteWhere.mp hr).1 }

/-- A document is written; one with the same id is replaced. -/
def Store.put (store : Store) (r : Row) : Store :=
  { store with
    hasIndex := fun index => index = r.index || store.hasIndex index
    rows := store.rows.upsert r
    indexed := fun r' hr' => by
      rcases Table.mem_upsert.mp hr' with ⟨hr', -⟩ | rfl
      · simp [store.indexed r' hr']
      · simp }

/-- `insert_message`. -/
def insertMessage (ms : List NewMessage) (uid memoryId : Str) (store : Store) : Store :=
  ms.foldl (fun store m => store.put ⟨memoryKey uid, memoryId, m.readBack⟩) store

/-! ### Queries -/

/-- The messages of a memory in the order of the store. -/
def messages (store : Store) (uid memoryId : Str) : List Message :=
  (store.rows.rows.filter (·.isIn uid memoryId)).map (·.message)

/-- `search` with an order and a limit. -/
def search (ms : List Message) (r : Message → Message → Prop) [DecidableRel r] (limit : ℕ) :
    List Message :=
  (ms.insertionSort r).take limit

/-- `calculate_memory_size` for one memory. -/
def calculateMemorySize (store : Store) (memoryId uid : Str) : ℕ :=
  totalSize (search (messages store uid memoryId) (fun m m' => m'.validAt ≤ m.validAt) 2048)

/-- The forgotten messages, the first to be forgotten first. -/
def forgottenMessages (store : Store) (uid memoryId : Str) : List Message :=
  search ((messages store uid memoryId).filter (·.forgetAt.isSome))
    (fun m m' => m.forgetAt.getD 0 ≤ m'.forgetAt.getD 0) 512

/-- The other messages, the oldest first. -/
def oldestMessages (store : Store) (uid memoryId : Str) : List Message :=
  search ((messages store uid memoryId).filter (·.forgetAt.isNone))
    (fun m m' => m.validAt ≤ m'.validAt) 512

/-- What is raised while messages are queried or saved. -/
inductive Failure where
  /-- `settings.msgStoreConn` is `None` -/
  | noConnection
  /-- `concat_dataframes` goes through one data frame, so through the names of its columns -/
  | notDataFrames
  /-- the column `content_embed` is selected -/
  | unknownColumn
  /-- `get_fields` of `None` -/
  | noResult
  /-- `vector_list[0]` of no vectors -/
  | noVectors
deriving DecidableEq

/-- `get_forgotten_messages` of the connections; it may return `None`. -/
def getForgottenMessages (store : Store) (uid memoryId : Str) :
    Except Failure (Option (List Message)) :=
  match store.engine with
  | .opensearch => .error .noConnection
  | .infinity => .error .notDataFrames
  | .oceanbase => if store.hasIndex (memoryKey uid) then .error .unknownColumn else .ok none
  | .elasticsearch =>
      if store.hasIndex (memoryKey uid) then .ok (some (forgottenMessages store uid memoryId))
      else .ok none

/-- `search` for the oldest messages and `get_fields`.  Without an index the result of
Elasticsearch is `None`. -/
def searchOldest (store : Store) (uid memoryId : Str) : Except Failure (List Message) :=
  match store.engine with
  | .opensearch => .error .noConnection
  | .elasticsearch =>
      if store.hasIndex (memoryKey uid) then .ok (oldestMessages store uid memoryId)
      else .error .noResult
  | .infinity | .oceanbase => .ok (oldestMessages store uid memoryId)

/-! ### Picking -/

/-- One of the loops of `pick_messages_to_delete_by_fifo`. -/
def pick (sizeToDelete : ℤ) : List Message → List ℕ × ℤ → List ℕ × ℤ
  | [], acc => acc
  | m :: ms, (ids, size) =>
      if size < sizeToDelete then
        pick sizeToDelete ms (ids ++ [m.messageId], size + calculateMessageSize m)
      else (ids, size)

def pickMessagesToDeleteByFifo (store : Store) (memoryId uid : Str) (sizeToDelete : ℤ) :
    Except Failure (List ℕ × ℤ) := do
  match ← getForgottenMessages store uid memoryId with
  | some ms =>
      let forgotten := pick sizeToDelete ms ([], 0)
      if sizeToDelete ≤ forgotten.2 then return forgotten
      return pick sizeToDelete (← searchOldest store uid memoryId) forgotten
  | none => return pick sizeToDelete (← searchOldest store uid memoryId) ([], 0)

/-! ### The messages of a memory -/

section messages
variable {store : Store} {uid memoryId : Str}

/-- The message ids of a memory are distinct. -/
theorem nodup_messages (store : Store) (uid memoryId : Str) :
    ((messages store uid memoryId).map Message.messageId).Nodup := by
  have hkeys : ((store.rows.rows.filter (·.isIn uid memoryId)).map Row.key).Nodup :=
    store.rows.nodup.sublist (List.filter_sublist.map Row.key)
  unfold messages
  rw [List.map_map]
  refine List.Nodup.map_on ?_ hkeys.of_map
  intro r hr r' hr' heq
  have hin := (List.mem_filter.mp hr).2
  have hin' := (List.mem_filter.mp hr').2
  simp only [Row.isIn, Bool.and_eq_true, decide_eq_true_eq] at hin hin'
  refine List.inj_on_of_nodup_map hkeys hr hr' ?_
  rw [Row.key, Row.key, hin.1, hin'.1, hin.2, hin'.2]
  exact congrArg _ (congrArg _ heq)

theorem messages_deleteMessage (ids : List ℕ) :
    messages (deleteMessage ids uid memoryId store) uid memoryId =
      (messages store uid memoryId).filter (fun m => !ids.contains m.messageId) := by
  unfold messages deleteMessage Table.deleteWhere
  dsimp only
  rw [List.filter_map, List.filter_filter, List.filter_filter]
  congr 1
  refine List.filter_congr (fun r _ => ?_)
  cases r.isIn uid memoryId <;> simp

theorem messages_put {m : Message}
    (hm : m.messageId ∉ (messages store uid memoryId).map Message.messageId) :
    messages (store.put ⟨memoryKey uid, memoryId, m⟩) uid memoryId =
      messages store uid memoryId ++ [m] := by
  have hnone : store.rows.rows.filter
      (fun r => !decide (r.key = Row.key ⟨memoryKey uid, memoryId, m⟩)) = store.rows.rows := by
    refine List.filter_eq_self.mpr (fun r hr => ?_)
    simp only [Bool.not_eq_true', decide_eq_false_iff_not]
    intro hkey
    refine hm (List.mem_map.mpr ⟨r.message, List.mem_map.mpr ⟨r, ?_, rfl⟩, ?_⟩)
    · refine List.mem_filter.mpr ⟨hr, ?_⟩
      simp only [Row.key, Prod.mk.injEq] at hkey
      simp [Row.isIn, hkey.1, hkey.2.1]
    · simp only [Row.key, Prod.mk.injEq] at hkey
      exact hkey.2.2
  unfold messages Store.put Table.upsert Table.deleteWhere
  simp only
  rw [hnone, List.filter_append, List.map_append]
  simp [Row.isIn]

/-- The messages are new to the memory. -/
def Fresh (ms : List NewMessage) (stored : List Message) : Prop :=
  ((stored ++ ms.map NewMessage.readBack).map Message.messageId).Nodup

instance Fresh.decidable (ms : List NewMessage) (stored : List Message) :
    Decidable (Fresh ms stored) :=
  inferInstanceAs (Decidable (List.Nodup _))

theorem messages_insertMessage (ms : List NewMessage) :
    ∀ store : Store, Fresh ms (messages store uid memoryId) →
      messages (insertMessage ms uid memoryId store) uid memoryId =
        messages store uid memoryId ++ ms.map NewMessage.readBack := by
  induction ms with
  | nil => exact fun store _ => (List.append_nil _).symm
  | cons m ms ih =>
      intro store hfresh
      rw [Fresh, List.map_cons] at hfresh
      have hfirst : m.readBack.messageId ∉
          (messages store uid memoryId).map Message.messageId := by
        intro hmem
        rw [List.map_append, List.nodup_append] at hfresh
        exact hfresh.2.2 _ hmem _ List.mem_cons_self rfl
      have hput := messages_put hfirst
      have ih := ih (store.put ⟨memoryKey uid, memoryId, m.readBack⟩) (by
        rw [Fresh, hput, List.append_assoc]
        exact hfresh)
      rw [hput, List.append_assoc] at ih
      exact ih

/-- Without an index there are no messages. -/
theorem messages_eq_nil (h : store.hasIndex (memoryKey uid) = false) (memoryId : Str) :
    messages store uid memoryId = [] := by
  have hnone : store.rows.rows.filter (·.isIn uid memoryId) = [] := by
    refine List.filter_eq_nil_iff.mpr (fun r hr hin => ?_)
    have hindex := store.indexed r hr
    rw [Row.isIn, Bool.and_eq_true, decide_eq_true_eq] at hin
    rw [hin.1, h] at hindex
    cases hindex
  rw [messages, hnone, List.map_nil]

end messages

theorem totalSize_cons (m : Message) (ms : List Message) :
    totalSize (m :: ms) = calculateMessageSize m + totalSize ms := by
  rw [totalSize, List.map_cons, List.sum_cons]
  rfl

theorem totalSize_append (ms ms' : List Message) :
    totalSize (ms ++ ms') = totalSize ms + totalSize ms' := by
  rw [totalSize, List.map_append, List.sum_append]
  rfl

theorem totalSize_perm {ms ms' : List Message} (h : ms.Perm ms') : totalSize ms = totalSize ms' :=
  (h.map _).sum_eq

/-- A loop takes messages from the front, until they are enough or none is left, and none when they
are already enough. -/
theorem pick_eq (sizeToDelete : ℤ) (ms : List Message) :
    ∀ ids size, ∃ k, pick sizeToDelete ms (ids, size) =
        (ids ++ (ms.take k).map Message.messageId, size + totalSize (ms.take k)) ∧
      (sizeToDelete ≤ size + totalSize (ms.take k) ∨ ms.take k = ms) ∧
      ∀ j < k, size + totalSize (ms.take j) < sizeToDelete := by
  induction ms with
  | nil => exact fun ids size => ⟨0, by simp [pick, totalSize], Or.inr rfl, fun j hj => by omega⟩
  | cons m ms ih =>
      intro ids size
      by_cases hlt : size < sizeToDelete
      · obtain ⟨k, hpick, hend, hbefore⟩ :=
          ih (ids ++ [m.messageId]) (size + calculateMessageSize m)
        have hsize : ∀ j, size + calculateMessageSize m + totalSize (ms.take j) =
            size + totalSize (m :: ms.take j) := by
          intro j
          rw [totalSize_cons]
          omega
        rw [hsize] at hpick hend
        refine ⟨k + 1, ?_, ?_, ?_⟩
        · rw [pick, if_pos hlt, hpick, List.take_succ_cons, List.map_cons, List.append_assoc,
            List.singleton_append]
        · rw [List.take_succ_cons]
          exact hend.imp_right (fun h => by rw [h])
        · intro j hj
          cases j with
          | zero => simpa [totalSize] using hlt
          | succ j =>
              rw [List.take_succ_cons, ← hsize]
              exact hbefore j (by omega)
      · refine ⟨0, ?_, Or.inl ?_, fun j hj => by omega⟩
        · simp [pick, hlt, totalSize]
        · simpa [totalSize] using hlt

/-- A loop does nothing when there is enough. -/
theorem pick_of_le {sizeToDelete : ℤ} {acc : List ℕ × ℤ} (h : sizeToDelete ≤ acc.2)
    (ms : List Message) : pick sizeToDelete ms acc = acc := by
  cases ms with
  | nil => rfl
  | cons m ms => rw [pick, if_neg (by omega)]

theorem pick_append (sizeToDelete : ℤ) (ms ms' : List Message) (acc : List ℕ × ℤ) :
    pick sizeToDelete (ms ++ ms') acc = pick sizeToDelete ms' (pick sizeToDelete ms acc) := by
  induction ms generalizing acc with
  | nil => rfl
  | cons m ms ih =>
      obtain ⟨ids, size⟩ := acc
      rw [List.cons_append, pick, pick]
      by_cases hlt : size < sizeToDelete
      · rw [if_pos hlt, if_pos hlt, ih]
      · rw [if_neg hlt, if_neg hlt, pick_of_le (by simpa using hlt)]

/-- The messages in the order in which they are picked. -/
def candidates (store : Store) (uid memoryId : Str) : List Message :=
  forgottenMessages store uid memoryId ++ oldestMessages store uid memoryId

/-- What the two queries find are messages of the memory, each once. -/
theorem candidates_subperm (store : Store) (memoryId uid : Str) :
    (candidates store uid memoryId).Subperm (messages store uid memoryId) := by
  have hsearch : ∀ (ms : List Message) (r : Message → Message → Prop) [DecidableRel r] (n : ℕ),
      (search ms r n).Subperm ms := by
    intro ms r _ n
    exact (List.take_sublist _ _).subperm.trans (List.perm_insertionSort r ms).subperm
  have hsplit := List.filter_append_perm (fun m : Message => m.forgetAt.isSome)
    (messages store uid memoryId)
  refine (List.Subperm.append (hsearch _ _ _) ?_).trans hsplit.subperm
  have holdest := hsearch ((messages store uid memoryId).filter (·.forgetAt.isNone))
    (fun m m' => m.validAt ≤ m'.validAt) 512
  unfold oldestMessages
  simpa using holdest

/-- Forgotten messages come first, the first to be forgotten first; then the others, the oldest
first. -/
def Message.Before (m m' : Message) : Prop :=
  match m.forgetAt, m'.forgetAt with
  | some t, some t' => t ≤ t'
  | some _, none => True
  | none, some _ => False
  | none, none => m.validAt ≤ m'.validAt

/-- The messages to be deleted are picked in the right order, and no more than needed. -/
structure Fifo (store : Store) (memoryId uid : Str) (sizeToDelete : ℤ) (picked : List Message) :
    Prop where
  ofMemory : ∀ m ∈ picked, m ∈ messages store uid memoryId
  distinct : (picked.map Message.messageId).Nodup
  order : picked <+: candidates store uid memoryId
  sorted : picked.Pairwise Message.Before
  needed : ∀ front m rest, picked = front ++ m :: rest → (totalSize front : ℤ) < sizeToDelete
  ends : sizeToDelete ≤ totalSize picked ∨ picked = candidates store uid memoryId

theorem candidates_sorted (store : Store) (uid memoryId : Str) :
    (candidates store uid memoryId).Pairwise Message.Before := by
  have hforgotten : ∀ m ∈ forgottenMessages store uid memoryId, ∃ t, m.forgetAt = some t := by
    intro m hm
    have hmem := (List.mem_insertionSort _).mp (List.mem_of_mem_take hm)
    exact Option.isSome_iff_exists.mp (List.mem_filter.mp hmem).2
  have holdest : ∀ m ∈ oldestMessages store uid memoryId, m.forgetAt = none := by
    intro m hm
    have hmem := (List.mem_insertionSort _).mp (List.mem_of_mem_take hm)
    exact Option.isNone_iff_eq_none.mp (List.mem_filter.mp hmem).2
  refine List.pairwise_append.mpr ⟨?_, ?_, fun m hm m' hm' => ?_⟩
  · have hsorted := (List.pairwise_insertionSort
      (fun m m' : Message => m.forgetAt.getD 0 ≤ m'.forgetAt.getD 0)
      ((messages store uid memoryId).filter (·.forgetAt.isSome))).sublist
        (List.take_sublist 512 _)
    refine hsorted.imp_of_mem (fun hm hm' hle => ?_)
    obtain ⟨t, ht⟩ := hforgotten _ hm
    obtain ⟨t', ht'⟩ := hforgotten _ hm'
    rw [ht, ht'] at hle
    simpa [Message.Before, ht, ht'] using hle
  · have hsorted := (List.pairwise_insertionSort (fun m m' : Message => m.validAt ≤ m'.validAt)
      ((messages store uid memoryId).filter (·.forgetAt.isNone))).sublist
        (List.take_sublist 512 _)
    refine hsorted.imp_of_mem (fun hm hm' hle => ?_)
    simpa [Message.Before, holdest _ hm, holdest _ hm'] using hle
  · obtain ⟨t, ht⟩ := hforgotten m hm
    simp [Message.Before, ht, holdest m' hm']

/-- What is picked from the front of the candidates is picked first in, first out. -/
theorem exists_fifo (store : Store) (memoryId uid : Str) (sizeToDelete : ℤ) :
    ∃ picked, Fifo store memoryId uid sizeToDelete picked ∧
      pick sizeToDelete (candidates store uid memoryId) ([], 0) =
        (picked.map Message.messageId, (totalSize picked : ℤ)) := by
  obtain ⟨k, hpick, hend, hbefore⟩ := pick_eq sizeToDelete (candidates store uid memoryId) [] 0
  rw [List.nil_append, zero_add] at hpick
  rw [zero_add] at hend
  have hfound := candidates_subperm store memoryId uid
  refine ⟨_, ⟨fun m hm => ?_, ?_, List.take_prefix k _,
    (candidates_sorted store uid memoryId).sublist (List.take_sublist k _),
    fun front m rest hsplit => ?_, hend⟩, hpick⟩
  · exact hfound.subset (List.mem_of_mem_take hm)
  · obtain ⟨ms, hperm, hsub⟩ := hfound
    have hnodup := (nodup_messages store uid memoryId).sublist (hsub.map Message.messageId)
    exact ((hperm.map Message.messageId).nodup_iff.mp hnodup).sublist
      ((List.take_sublist k _).map Message.messageId)
  · have hlength := congrArg List.length hsplit
    rw [List.length_take, @List.length_append _ front, List.length_cons] at hlength
    have hfront := congrArg (List.take front.length) hsplit
    rw [List.take_take, List.take_left, min_eq_left (by omega)] at hfront
    have hlt := hbefore front.length (by omega)
    rw [zero_add, hfront] at hlt
    exact hlt

/-- The two queries have results. -/
def Answers (store : Store) (uid : Str) : Prop :=
  store.engine = .elasticsearch ∧ store.hasIndex (memoryKey uid) = true ∨
    store.engine = .oceanbase ∧ store.hasIndex (memoryKey uid) = false

instance Answers.decidable (store : Store) (uid : Str) : Decidable (Answers store uid) :=
  inferInstanceAs (Decidable (_ ∨ _))

/-- Where the queries have results the two loops are one loop over the candidates. -/
theorem pickMessagesToDeleteByFifo_of_answers {store : Store} {uid : Str}
    (h : Answers store uid) (memoryId : Str) (sizeToDelete : ℤ) :
    pickMessagesToDeleteByFifo store memoryId uid sizeToDelete =
      .ok (pick sizeToDelete (candidates store uid memoryId) ([], 0)) := by
  unfold pickMessagesToDeleteByFifo getForgottenMessages searchOldest candidates
  rw [pick_append]
  rcases h with ⟨hengine, hindex⟩ | ⟨hengine, hindex⟩
  · rw [hengine, hindex]
    by_cases hle : sizeToDelete ≤
        (pick sizeToDelete (forgottenMessages store uid memoryId) ([], 0)).2
    · rw [pick_of_le hle]
      simp [hle, bind, Except.bind, pure, Except.pure]
    · simp [hle, bind, Except.bind, pure, Except.pure]
  · rw [hengine, hindex, forgottenMessages, messages_eq_nil hindex]
    rfl

/-- Where they have none, an exception is raised. -/
theorem pickMessagesToDeleteByFifo_of_not_answers {store : Store} {uid : Str}
    (h : ¬Answers store uid) (memoryId : Str) (sizeToDelete : ℤ) :
    ∃ e, pickMessagesToDeleteByFifo store memoryId uid sizeToDelete = .error e := by
  unfold pickMessagesToDeleteByFifo getForgottenMessages searchOldest
  unfold Answers at h
  cases hengine : store.engine with
  | opensearch => exact ⟨_, rfl⟩
  | infinity => exact ⟨_, rfl⟩
  | oceanbase =>
      have hindex : store.hasIndex (memoryKey uid) = true := by simpa [hengine] using h
      rw [hindex]
      exact ⟨_, rfl⟩
  | elasticsearch =>
      have hindex : store.hasIndex (memoryKey uid) = false := by simpa [hengine] using h
      rw [hindex]
      exact ⟨_, rfl⟩

/-- Messages are picked first in, first out, and their ids are returned with their exact size. -/
def PicksFifo (store : Store) (memoryId uid : Str) (sizeToDelete : ℤ) : Prop :=
  ∃ picked : List Message, Fifo store memoryId uid sizeToDelete picked ∧
    pickMessagesToDeleteByFifo store memoryId uid sizeToDelete =
      .ok (picked.map Message.messageId, (totalSize picked : ℤ))

/-- The messages are picked first in, first out, if and only if the queries have results. -/
theorem picksFifo_iff (store : Store) (memoryId uid : Str) (sizeToDelete : ℤ) :
    PicksFifo store memoryId uid sizeToDelete ↔ Answers store uid := by
  constructor
  · rintro ⟨picked, -, heq⟩
    by_contra h
    obtain ⟨e, herror⟩ := pickMessagesToDeleteByFifo_of_not_answers h memoryId sizeToDelete
    rw [heq] at herror
    cases herror
  · intro h
    obtain ⟨picked, hfifo, hpick⟩ := exists_fifo store memoryId uid sizeToDelete
    exact ⟨picked, hfifo, by rw [pickMessagesToDeleteByFifo_of_answers h, hpick]⟩

/-- A store of an engine with a message of the memory `m` of the tenant `t`. -/
def storeOfOne (engine : DocEngine) (m : NewMessage) : Store :=
  insertMessage [m] ['t'] ['m'] (Store.empty engine)

/-- A message of one character with a vector of one number. -/
def oneMessage (id : ℕ) : NewMessage :=
  { messageId := id, validAt := id, forgetAt := none, sizes := ⟨42, 32⟩, stored := ⟨42, 24⟩,
    dimension := 1, dimension_pos := Nat.one_pos }

/-- On Infinity and on OceanBase no message is picked. -/
theorem not_picksFifo : ¬PicksFifo (storeOfOne .infinity (oneMessage 1)) ['m'] ['t'] 1 ∧
    ¬PicksFifo (storeOfOne .oceanbase (oneMessage 1)) ['m'] ['t'] 1 := by
  constructor
  · rintro ⟨picked, -, heq⟩
    cases heq
  · rintro ⟨picked, -, heq⟩
    cases heq

/-- Deleting the picked messages takes their sizes away. -/
theorem totalSize_deleteMessage {store : Store} {uid memoryId : Str} {picked : List Message}
    (h : picked.Subperm (messages store uid memoryId)) :
    totalSize picked + totalSize (messages
      (deleteMessage (picked.map Message.messageId) uid memoryId store) uid memoryId) =
      totalSize (messages store uid memoryId) := by
  have hids := nodup_messages store uid memoryId
  have hnodup : (messages store uid memoryId).Nodup := hids.of_map
  have hpicked : picked.Perm ((messages store uid memoryId).filter
      (fun m => (picked.map Message.messageId).contains m.messageId)) := by
    have hnodup' : picked.Nodup := by
      obtain ⟨ms, hperm, hsub⟩ := h
      exact hperm.nodup_iff.mp (hnodup.sublist hsub)
    refine (List.perm_ext_iff_of_nodup hnodup' (hnodup.filter _)).mpr (fun m => ?_)
    simp only [List.mem_filter, List.contains_iff_mem, List.mem_map]
    constructor
    · intro hm
      exact ⟨h.subset hm, m, hm, rfl⟩
    · rintro ⟨hm, m', hm', heq⟩
      rw [← List.inj_on_of_nodup_map hids (h.subset hm') hm heq]
      exact hm'
  rw [messages_deleteMessage, totalSize_perm hpicked, ← totalSize_append]
  refine totalSize_perm ?_
  have hsplit := List.filter_append_perm
    (fun m : Message => (picked.map Message.messageId).contains m.messageId)
    (messages store uid memoryId)
  simpa using hsplit

end RagFlow.Memory
