import Mathlib.Data.List.Infix
import RagFlow.PyStr

/-! # Encrypted storage

`EncryptedStorageWrapper` of `rag/utils/encrypted_storage.py` puts objects into a storage, encrypted
by `BaseCrypto` of `common/crypto_utils.py` while encryption is enabled.

* **Padding.** `pad` and `unpad` are PKCS7 with blocks of 16 bytes.
* **Encryption.** `encrypt` prepends a magic header and the initialization vector; `decrypt` returns
  what does not start with the header as it is.  The block cipher is a parameter, of which
  `RoundTrips` says what is used.
* **The wrapper.** A run is a list of operations.  `get_last_put_iff`: while encryption is enabled,
  an object comes back as it was put last, unless it was put without encryption and starts with
  the header itself. -/

namespace RagFlow.EncryptedStorage

open Py

abbrev Bytes := List UInt8

/-- `block_size` and `iv_length` of all algorithms. -/
def blockSize : ℕ := 16

def ivLength : ℕ := 16

/-! ### Padding -/

/-- The number of bytes of padding. -/
def padLength (data : Bytes) : ℕ := blockSize - data.length % blockSize

/-- `padding.PKCS7(block_size * 8).padder()`. -/
def pad (data : Bytes) : Bytes :=
  data ++ List.replicate (padLength data) (UInt8.ofNat (padLength data))

/-- `padding.PKCS7(block_size * 8).unpadder()`; `none` means that it raises. -/
def unpad (padded : Bytes) : Option Bytes :=
  match padded.getLast? with
  | none => none
  | some b =>
      let n := b.toNat
      if padded.length % blockSize = 0 ∧ 1 ≤ n ∧ n ≤ blockSize ∧
          padded.drop (padded.length - n) = List.replicate n b then
        some (padded.take (padded.length - n))
      else none

theorem padLength_bounds (data : Bytes) : 1 ≤ padLength data ∧ padLength data ≤ blockSize := by
  unfold padLength blockSize
  omega

theorem length_pad (data : Bytes) : (pad data).length % blockSize = 0 := by
  unfold pad padLength blockSize
  rw [List.length_append, List.length_replicate]
  omega

/-- Padding is undone. -/
theorem unpad_pad (data : Bytes) : unpad (pad data) = some data := by
  obtain ⟨hpos, hle⟩ := padLength_bounds data
  have hlast : (pad data).getLast? = some (UInt8.ofNat (padLength data)) := by
    unfold pad
    rw [List.getLast?_append, List.getLast?_replicate, if_neg (by omega)]
    rfl
  have hbyte : (UInt8.ofNat (padLength data)).toNat = padLength data := by
    rw [UInt8.toNat_ofNat']
    unfold blockSize at hle
    omega
  have hlength : (pad data).length - padLength data = data.length := by
    unfold pad
    rw [List.length_append, List.length_replicate, Nat.add_sub_cancel]
  unfold unpad
  rw [hlast]
  simp only [hbyte, hlength]
  rw [if_pos]
  · unfold pad
    rw [List.take_left]
  · refine ⟨length_pad data, hpos, hle, ?_⟩
    unfold pad
    rw [List.drop_left]

theorem length_of_unpad {padded data : Bytes} (h : unpad padded = some data) :
    data.length ≤ padded.length := by
  unfold unpad at h
  split at h
  · cases h
  · simp only at h
    split_ifs at h
    rw [← Option.some.inj h]
    exact List.length_take_le' _ _

/-! ### Encryption -/

/-- A block cipher with its key: the padded data, or the ciphertext, and the vector; `none` means
that it raises. -/
structure BlockCipher where
  encrypt : Bytes → Bytes → Bytes
  decrypt : Bytes → Bytes → Option Bytes

/-- What the cipher is known for: whole blocks are decrypted to what was encrypted with the same
vector, and decryption keeps the length. -/
structure BlockCipher.RoundTrips (c : BlockCipher) : Prop where
  decrypt_encrypt : ∀ padded iv : Bytes, padded.length % blockSize = 0 → iv.length = ivLength →
    c.decrypt (c.encrypt padded iv) iv = some padded
  length_decrypt : ∀ ciphertext iv padded : Bytes, c.decrypt ciphertext iv = some padded →
    padded.length = ciphertext.length

/-- An initialization vector. -/
def Iv := { iv : Bytes // iv.length = ivLength }

/-- `BaseCrypto`: the cipher, and the vector if it is fixed. -/
structure Crypto where
  cipher : BlockCipher
  iv : Option Iv

/-- `ENCRYPTED_MAGIC`, the bytes of `RAGF`. -/
def encryptedMagic : Bytes := [82, 65, 71, 70]

/-- `encrypt`; `random` is what `os.urandom` returns. -/
def encrypt (c : Crypto) (random : Iv) (data : Bytes) : Bytes :=
  let iv := (c.iv.getD random).val
  encryptedMagic ++ iv ++ c.cipher.encrypt (pad data) iv

/-- `decrypt`; `none` means that it raises. -/
def decrypt (c : Crypto) (data : Bytes) : Option Bytes :=
  if encryptedMagic.isPrefixOf data then
    let rest := data.drop encryptedMagic.length
    (c.cipher.decrypt (rest.drop ivLength) (rest.take ivLength)).bind unpad
  else some data

section crypto
variable {c : Crypto} {data : Bytes}

/-- What is encrypted comes back. -/
theorem decrypt_encrypt (hc : c.cipher.RoundTrips) (random : Iv) (data : Bytes) :
    decrypt c (encrypt c random data) = some data := by
  unfold decrypt encrypt
  generalize c.iv.getD random = iv
  obtain ⟨iv, hiv⟩ := iv
  simp only
  rw [if_pos (by rw [List.isPrefixOf_iff_prefix, List.append_assoc]; exact List.prefix_append _ _),
    List.append_assoc, List.drop_left, List.drop_left' hiv, List.take_left' hiv,
    hc.decrypt_encrypt _ _ (length_pad data) hiv]
  exact unpad_pad data

/-- What does not start with the header is returned as it is. -/
theorem decrypt_of_not_prefix (h : ¬encryptedMagic <+: data) : decrypt c data = some data := by
  unfold decrypt
  rw [if_neg (by rwa [List.isPrefixOf_iff_prefix])]

/-- What starts with the header is not: what is decrypted is shorter. -/
theorem decrypt_ne_of_prefix (hc : c.cipher.RoundTrips) (h : encryptedMagic <+: data) :
    decrypt c data ≠ some data := by
  intro heq
  unfold decrypt at heq
  rw [if_pos (List.isPrefixOf_iff_prefix.mpr h)] at heq
  obtain ⟨padded, hpadded, hdata⟩ := Option.bind_eq_some_iff.mp heq
  have hdecrypted := hc.length_decrypt _ _ _ hpadded
  have hunpadded := length_of_unpad hdata
  have hmagic := h.length_le
  rw [List.length_drop, List.length_drop] at hdecrypted
  have : encryptedMagic.length = 4 := rfl
  omega

end crypto

/-! ### The wrapper -/

/-- A bucket and a file name. -/
abbrev Key := Str × Str

/-- `EncryptedStorageWrapper`, with the objects of its storage. -/
structure Wrapper where
  crypto : Crypto
  encryptionEnabled : Bool
  objects : Key → Option Bytes

namespace Wrapper

/-- `put`. -/
def put (w : Wrapper) (key : Key) (binary : Bytes) (random : Iv) : Wrapper :=
  let stored := if w.encryptionEnabled then encrypt w.crypto random binary else binary
  { w with objects := Function.update w.objects key (some stored) }

/-- `get`; the outer `none` means that it raises. -/
def get (w : Wrapper) (key : Key) : Option (Option Bytes) :=
  match w.objects key with
  | none => some none
  | some binary =>
      if w.encryptionEnabled then (decrypt w.crypto binary).map some else some (some binary)

/-- `enable_encryption`. -/
def enableEncryption (w : Wrapper) : Wrapper := { w with encryptionEnabled := true }

/-- `disable_encryption`. -/
def disableEncryption (w : Wrapper) : Wrapper := { w with encryptionEnabled := false }

end Wrapper

/-- The operations; `random` is what `os.urandom` returns. -/
inductive Op where
  | put (key : Key) (binary : Bytes) (random : Iv)
  | get (key : Key)
  | enableEncryption
  | disableEncryption

def step (w : Wrapper) : Op → Wrapper
  | .put key binary random => w.put key binary random
  | .get _ => w
  | .enableEncryption => w.enableEncryption
  | .disableEncryption => w.disableEncryption

/-- The wrapper after some operations. -/
def run (w : Wrapper) (ops : List Op) : Wrapper := ops.foldl step w

/-! ### What was put -/

/-- What was put last to an object, and whether encryption was enabled then. -/
structure LastPut where
  binary : Bytes
  encrypted : Bool

/-- The switch and the last put to the object, after an operation. -/
def recordPut (key : Key) (s : Bool × Option LastPut) : Op → Bool × Option LastPut
  | .put k binary _ => (s.1, if k = key then some ⟨binary, s.1⟩ else s.2)
  | .get _ => s
  | .enableEncryption => (true, s.2)
  | .disableEncryption => (false, s.2)

/-- The last put to the object among some operations. -/
def lastPut (key : Key) (enabled : Bool) (ops : List Op) : Option LastPut :=
  (ops.foldl (recordPut key) (enabled, none)).2

/-- The object is stored as its last put says. -/
def Stored (w : Wrapper) (key : Key) (p : LastPut) : Prop :=
  ∃ random, w.objects key =
    some (if p.encrypted then encrypt w.crypto random p.binary else p.binary)

section run
variable {c : Crypto} {key : Key} {w : Wrapper} {p : LastPut}

/-- What holds between the operations: the switch is as recorded, and the object is stored as its
last put says. -/
def Recorded (c : Crypto) (key : Key) (w : Wrapper) (s : Bool × Option LastPut) : Prop :=
  w.crypto = c ∧ w.encryptionEnabled = s.1 ∧ ∀ p, s.2 = some p → Stored w key p

theorem step_recorded {s : Bool × Option LastPut} (h : Recorded c key w s) (o : Op) :
    Recorded c key (step w o) (recordPut key s o) := by
  obtain ⟨hcrypto, henabled, hstored⟩ := h
  cases o with
  | put k binary random =>
      refine ⟨hcrypto, henabled, fun p hp => ?_⟩
      unfold recordPut at hp
      unfold step Wrapper.put Stored
      simp only at hp ⊢
      by_cases hk : k = key
      · rw [if_pos hk] at hp
        obtain rfl := Option.some.inj hp
        refine ⟨random, ?_⟩
        rw [hk, Function.update_self, henabled]
      · rw [if_neg hk] at hp
        obtain ⟨random, hobject⟩ := hstored p hp
        refine ⟨random, ?_⟩
        rw [Function.update_of_ne (Ne.symm hk), hobject]
  | get k => exact ⟨hcrypto, henabled, hstored⟩
  | enableEncryption => exact ⟨hcrypto, rfl, hstored⟩
  | disableEncryption => exact ⟨hcrypto, rfl, hstored⟩

theorem run_recorded (ops : List Op) {s : Bool × Option LastPut} (h : Recorded c key w s) :
    Recorded c key (run w ops) (ops.foldl (recordPut key) s) := by
  induction ops generalizing w s with
  | nil => exact h
  | cons o ops ih => exact ih (step_recorded h o)

/-- An object that is stored as its last put says comes back as it was put exactly if it was
encrypted or does not start with the header. -/
theorem get_of_stored (hc : w.crypto.cipher.RoundTrips) (henabled : w.encryptionEnabled = true)
    (h : Stored w key p) : w.get key = some (some p.binary) ↔
      (p.encrypted = true ∨ ¬encryptedMagic <+: p.binary) := by
  obtain ⟨random, hobject⟩ := h
  have hget : w.get key = some (some p.binary) ↔ decrypt w.crypto
      (if p.encrypted then encrypt w.crypto random p.binary else p.binary) = some p.binary := by
    unfold Wrapper.get
    rw [hobject]
    simp only [henabled, if_true, Option.map_eq_some_iff, Option.some.injEq, exists_eq_right]
  rw [hget]
  cases p.encrypted with
  | true => exact ⟨fun _ => .inl rfl, fun _ => decrypt_encrypt hc random p.binary⟩
  | false =>
      constructor
      · exact fun heq => .inr (fun hprefix => decrypt_ne_of_prefix hc hprefix heq)
      · rintro (h | h)
        · cases h
        · exact decrypt_of_not_prefix h

/-- After any operations on a wrapper, while encryption is enabled, an object comes back as it was
put last exactly if it was put with encryption or does not start with the header. -/
theorem get_last_put_iff (w : Wrapper) (hc : w.crypto.cipher.RoundTrips) (ops : List Op)
    (key : Key) (p : LastPut) (hlast : lastPut key w.encryptionEnabled ops = some p)
    (henabled : (run w ops).encryptionEnabled = true) :
    (run w ops).get key = some (some p.binary) ↔
      (p.encrypted = true ∨ ¬encryptedMagic <+: p.binary) := by
  have hstart : Recorded w.crypto key w (w.encryptionEnabled, none) :=
    ⟨rfl, rfl, fun p hp => by cases hp⟩
  obtain ⟨hcrypto, -, hstored⟩ := run_recorded ops hstart
  exact get_of_stored (hcrypto ▸ hc) henabled (hstored p hlast)

end run

/-! Runs that disable encryption, put an object and enable encryption again. -/

/-- A cipher that leaves the data as they are; it raises on a vector of another length. -/
def plainCipher : BlockCipher :=
  ⟨fun padded _ => padded, fun ciphertext iv =>
    if iv.length = ivLength then some ciphertext else none⟩

theorem plainCipher_roundTrips : plainCipher.RoundTrips where
  decrypt_encrypt := fun padded iv _ hiv => if_pos hiv
  length_decrypt := fun ciphertext iv padded h => by
    unfold plainCipher at h
    simp only at h
    split_ifs at h
    rw [Option.some.inj h]

def sampleWrapper : Wrapper := ⟨⟨plainCipher, none⟩, true, fun _ => none⟩

def sampleOps (binary : Bytes) : List Op :=
  [.disableEncryption, .put ("b", "f") binary ⟨List.replicate 16 0, rfl⟩, .enableEncryption]

theorem get_last_put_sample :
    (run sampleWrapper (sampleOps [1, 2, 3])).get ("b", "f") = some (some [1, 2, 3]) :=
  (get_last_put_iff sampleWrapper plainCipher_roundTrips (sampleOps [1, 2, 3]) ("b", "f")
    ⟨[1, 2, 3], false⟩ rfl rfl).mpr (.inr (by decide))

/-- An object of the four bytes of the header, put without encryption, does not come back. -/
theorem get_magic_raises :
    lastPut ("b", "f") sampleWrapper.encryptionEnabled (sampleOps encryptedMagic) =
        some ⟨encryptedMagic, false⟩ ∧
      (run sampleWrapper (sampleOps encryptedMagic)).encryptionEnabled = true ∧
      (run sampleWrapper (sampleOps encryptedMagic)).get ("b", "f") = none :=
  ⟨rfl, rfl, rfl⟩

end RagFlow.EncryptedStorage
