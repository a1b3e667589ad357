import RagFlow.Binary64
import RagFlow.PyStr

/-! # Fitting messages into a prompt

`message_fit_in` of `rag/prompts/generator.py` drops and shortens messages until they have at most
`max_length` tokens.

* **Tokens.** `Encoder` is the tokenizer; a text that it does not encode counts as no token.
* **Keeping.** If all messages are too long, the system messages and the last one are kept
  (`keptMessages`); if these are too long as well, the first or the last of them is shortened.
* **Fitting.** `fits_iff`: the last message is shortened by its own length, not by that of the
  first, and what is between the two is not counted. -/

namespace RagFlow.Prompts

open Py

/-! ### Tokens -/

/-- A tokenizer; `encode` raises on some texts. -/
structure Encoder where
  encode : Str → Option (List ℕ)
  decode : List ℕ → Str

/-- `num_tokens_from_string`. -/
def Encoder.numTokens (enc : Encoder) (s : Str) : ℕ :=
  match enc.encode s with
  | some tokens => tokens.length
  | none => 0

/-- The text of the first tokens has no more tokens than these. -/
def Encoder.Lawful (enc : Encoder) : Prop :=
  ∀ s tokens, enc.encode s = some tokens → ∀ k,
    enc.numTokens (enc.decode (tokens.take k)) ≤ (tokens.take k).length

/-- The text of the first tokens has just as many. -/
def Encoder.Exact (enc : Encoder) : Prop :=
  ∀ s tokens, enc.encode s = some tokens → ∀ k,
    enc.numTokens (enc.decode (tokens.take k)) = (tokens.take k).length

/-! ### Messages -/

structure Message where
  role : Str
  content : Str
deriving DecidableEq

/-- `m["role"] == "system"`. -/
def isSystem (m : Message) : Bool := m.role = "system".toList

/-- The system messages and the last one, each with its place: a message may be kept twice. -/
def keptMessages (msg : List Message) : List (Message × ℕ) :=
  msg.zipIdx.filter (fun x => isSystem x.1) ++
    (if 1 < msg.length then msg.zipIdx.getLast?.toList else [])

/-- `msg[i]["content"] = content`, for the message of the place `i`. -/
def setContent (i : ℕ) (content : Str) (msg : List (Message × ℕ)) : List Message :=
  msg.map (fun x => if x.2 = i then { x.1 with content := content } else x.1)

/-- `tokens[:n]`. -/
def sliceTo (tokens : List ℕ) (n : ℤ) : List ℕ :=
  tokens.take (if n < 0 then (tokens.length + n).toNat else n.toNat)

/-- `ll / (ll + ll2) > 0.8`; `none` is ZeroDivisionError. -/
def mostlyFirst (ll ll2 : ℕ) : Option Bool :=
  (Binary64.trueDiv ll (ll + ll2)).map (fun ratio => decide (Binary64.nearest (4 / 5) < ratio))

namespace Encoder
variable (enc : Encoder)

def count (msg : List Message) : ℕ := (msg.map (fun m => enc.numTokens m.content)).sum

/-- `message_fit_in`; `none` if it raises. -/
def messageFitIn (msg : List Message) (maxLength : ℤ) : Option (ℤ × List Message) :=
  if enc.count msg < maxLength then some (enc.count msg, msg)
  else
    let kept := keptMessages msg
    let c := enc.count (kept.map Prod.fst)
    if c < maxLength then some (c, kept.map Prod.fst)
    else do
      let (first, i) ← kept.head?
      let (last, j) ← kept.getLast?
      let ll := enc.numTokens first.content
      let ll2 := enc.numTokens last.content
      if ← mostlyFirst ll ll2 then
        let m ← enc.encode first.content
        some (maxLength, setContent i (enc.decode (sliceTo m (maxLength - ll2))) kept)
      else
        let m ← enc.encode last.content
        some (maxLength, setContent j (enc.decode (sliceTo m (maxLength - ll2))) kept)

end Encoder

/-! ### The messages that are kept -/

section kept
variable {msg others : List Message} {first last : Message}

theorem zipIdx_filter (msg : List Message) :
    (msg.zipIdx.filter (fun x => isSystem x.1)).map Prod.fst = msg.filter isSystem := by
  have hmap := List.filter_map (f := Prod.fst) (p := isSystem) (l := msg.zipIdx)
  rw [List.zipIdx_map_fst] at hmap
  exact hmap.symm

/-- If the last message is none of the system, each message is kept once. -/
theorem keptMessages_eq (hsys : msg.filter isSystem = first :: others)
    (hlast : msg.getLast? = some last) (huser : isSystem last = false) :
    ∃ i j rest, keptMessages msg = (first, i) :: (rest ++ [(last, j)]) ∧
      rest.map Prod.fst = others ∧ i ≠ j ∧ ∀ x ∈ rest, x.2 ≠ i ∧ x.2 ≠ j := by
  obtain ⟨init, rfl⟩ : ∃ init, msg = init ++ [last] :=
    ⟨_, (List.dropLast_append_getLast? last hlast).symm⟩
  have hinit : init.filter isSystem = first :: others := by
    rwa [List.filter_append, List.filter_cons, huser, if_neg Bool.false_ne_true, List.filter_nil,
      List.append_nil] at hsys
  have hlength : 1 < (init ++ [last]).length := by
    have hle := List.length_filter_le isSystem init
    rw [hinit, List.length_cons] at hle
    rw [List.length_append, List.length_singleton]
    omega
  have hzip : (init ++ [last]).zipIdx = init.zipIdx ++ [(last, init.length)] := by
    rw [List.zipIdx_append, Nat.zero_add]
    rfl
  obtain ⟨x, rest, hfilter, hx, hrest⟩ := List.map_eq_cons_iff.mp ((zipIdx_filter init).trans hinit)
  obtain ⟨first', i⟩ := x
  obtain rfl : first' = first := hx
  have hnodup : (((first', i) :: rest).map Prod.snd).Nodup := by
    rw [← hfilter]
    have hrange : (init.zipIdx.map Prod.snd).Nodup := by
      rw [List.zipIdx_map_snd]
      exact List.nodup_range'
    exact hrange.sublist (List.filter_sublist.map Prod.snd)
  have hbelow : ∀ x ∈ (first', i) :: rest, x.2 < init.length := by
    intro x hx
    rw [← hfilter] at hx
    have hmem := List.mem_map_of_mem (f := Prod.snd) (List.mem_of_mem_filter hx)
    rw [List.zipIdx_map_snd, List.mem_range'_1, Nat.zero_add] at hmem
    exact hmem.2
  refine ⟨i, init.length, rest, ?_, hrest, ?_, ?_⟩
  · unfold keptMessages
    rw [if_pos hlength, hzip, List.filter_append, hfilter, List.getLast?_concat, List.filter_cons,
      huser, if_neg Bool.false_ne_true, List.filter_nil, List.append_nil]
    rfl
  · exact (hbelow _ List.mem_cons_self).ne
  · intro x hx
    refine ⟨fun heq => ?_, (hbelow x (List.mem_cons_of_mem _ hx)).ne⟩
    rw [List.map_cons, List.nodup_cons] at hnodup
    have hmem : x.2 ∈ rest.map Prod.snd := List.mem_map_of_mem hx
    rw [heq] at hmem
    exact hnodup.1 hmem

theorem setContent_first {i j : ℕ} {rest : List (Message × ℕ)} (hij : i ≠ j)
    (hrest : ∀ x ∈ rest, x.2 ≠ i ∧ x.2 ≠ j) (content : Str) :
    setContent i content ((first, i) :: (rest ++ [(last, j)])) =
      { first with content := content } :: (rest.map Prod.fst ++ [last]) := by
  unfold setContent
  rw [List.map_cons, if_pos rfl, List.map_append, List.map_singleton, if_neg hij.symm]
  congr 2
  exact List.map_congr_left (fun x hx => if_neg (hrest x hx).1)

theorem setContent_last {i j : ℕ} {rest : List (Message × ℕ)} (hij : i ≠ j)
    (hrest : ∀ x ∈ rest, x.2 ≠ i ∧ x.2 ≠ j) (content : Str) :
    setContent j content ((first, i) :: (rest ++ [(last, j)])) =
      first :: (rest.map Prod.fst ++ [{ last with content := content }]) := by
  unfold setContent
  rw [List.map_cons, if_neg hij, List.map_append, List.map_singleton, if_pos rfl]
  congr 2
  exact List.map_congr_left (fun x hx => if_neg (hrest x hx).2)

end kept

/-! ### The share of the first message -/

theorem mostlyFirst_zero : mostlyFirst 0 0 = none := rfl

theorem mostlyFirst_eq {ll ll2 : ℕ} (h : 0 < ll + ll2) : mostlyFirst ll ll2 =
    some (decide (Binary64.nearest (4 / 5) <
      Binary64.nearest (((ll : ℤ) : ℚ) / (((ll : ℤ) + (ll2 : ℤ) : ℤ) : ℚ)))) := by
  have hdiv : Binary64.trueDiv ll (ll + ll2) =
      some (Binary64.nearest (((ll : ℤ) : ℚ) / (((ll : ℤ) + (ll2 : ℤ) : ℤ) : ℚ))) := by
    rcases Nat.eq_zero_or_pos ll with rfl | hpos
    · have hne : ((0 : ℕ) : ℤ) + (ll2 : ℤ) ≠ 0 := by omega
      have hzero : |Binary64.nearest 0| < 2 ^ 1024 := by
        rw [Binary64.nearest_zero, abs_zero]
        positivity
      unfold Binary64.trueDiv
      rw [if_neg hne, Nat.cast_zero, Int.cast_zero, zero_div, if_pos hzero]
    · exact Binary64.trueDiv_eq_some (by omega) (by omega) (by omega)
  unfold mostlyFirst
  rw [hdiv]
  rfl

/-- A share of three quarters is not above 0.8. -/
theorem mostlyFirst_of_le {ll ll2 : ℕ} (h : 0 < ll + ll2) (hle : ll ≤ 3 * ll2) :
    mostlyFirst ll ll2 = some false := by
  rw [mostlyFirst_eq h]
  congr 1
  refine decide_eq_false (not_lt.mpr ?_)
  have hthree : Binary64.IsDouble (3 / 4) := ⟨3, -2, by norm_num, by norm_num, by norm_num⟩
  have hbound : (3 / 4 : ℚ) ≤ Binary64.nearest (4 / 5) :=
    Binary64.le_nearest hthree (by norm_num)
  refine le_trans ?_ hbound
  rcases Nat.eq_zero_or_pos ll with rfl | hpos
  · rw [Nat.cast_zero, Int.cast_zero, zero_div, Binary64.nearest_zero]
    norm_num
  · have hsum : (0 : ℚ) < (((ll : ℤ) + (ll2 : ℤ) : ℤ) : ℚ) := by
      exact_mod_cast h
    have hll : (0 : ℚ) < ((ll : ℤ) : ℚ) := by exact_mod_cast hpos
    refine Binary64.nearest_le hthree ?_
    rw [div_le_iff₀ hsum]
    have hle' : ((ll : ℤ) : ℚ) ≤ 3 * ((ll2 : ℤ) : ℚ) := by exact_mod_cast hle
    push_cast at hle' ⊢
    linarith

/-- Without a last message the share is 1. -/
theorem mostlyFirst_zero_right {ll : ℕ} (h : 0 < ll) : mostlyFirst ll 0 = some true := by
  rw [mostlyFirst_eq (by omega)]
  congr 1
  refine decide_eq_true ?_
  have hone : Binary64.IsDouble 1 := ⟨1, 0, by norm_num, by norm_num, by norm_num⟩
  have habove : Binary64.IsDouble (13 / 16) := ⟨13, -4, by norm_num, by norm_num, by norm_num⟩
  have hll : ((ll : ℤ) : ℚ) ≠ 0 := by exact_mod_cast h.ne'
  rw [Nat.cast_zero, add_zero, div_self hll]
  calc Binary64.nearest (4 / 5) ≤ 13 / 16 :=
        Binary64.nearest_le habove (by norm_num)
    _ < Binary64.nearest 1 := Binary64.lt_nearest hone (by norm_num) (by norm_num)

/-! ### Fitting -/

namespace Encoder
variable {enc : Encoder} {msg others : List Message} {first last : Message} {maxLength : ℤ}

theorem numTokens_of_encode {s : Str} {tokens : List ℕ} (h : enc.encode s = some tokens) :
    enc.numTokens s = tokens.length := by
  unfold numTokens
  rw [h]

theorem encode_of_pos {s : Str} (h : 0 < enc.numTokens s) :
    ∃ tokens, enc.encode s = some tokens := by
  unfold numTokens at h
  split at h
  next tokens heq => exact ⟨tokens, heq⟩
  next => exact absurd h (Nat.lt_irrefl 0)

variable (enc) in
/-- The message with its first tokens only, or as it is. -/
def Shortened (m m' : Message) : Prop :=
  m' = m ∨ ∃ tokens k, enc.encode m.content = some tokens ∧
    m' = { m with content := enc.decode (tokens.take k) }

variable (enc) in
/-- A result of at most `maxLength` tokens: all messages, or the system messages and the last one in
order, of which the first and the last may be shortened. -/
def Fits (msg others : List Message) (first last : Message) (maxLength : ℤ) : Prop :=
  ∃ c out, enc.messageFitIn msg maxLength = some (c, out) ∧ (enc.count out : ℤ) ≤ maxLength ∧
    (out = msg ∨ ∃ first' last', enc.Shortened first first' ∧ enc.Shortened last last' ∧
      out = first' :: (others ++ [last']))

/-- The number of tokens of `tokens[:n]`. -/
def sliceLength (length : ℕ) (n : ℤ) : ℕ :=
  min (if n < 0 then (length + n).toNat else n.toNat) length

variable (enc) in
/-- The tokens of the kept messages: those of the first, the last and the others. -/
def keptCount (others : List Message) (first last : Message) : ℕ :=
  enc.numTokens first.content + enc.count others + enc.numTokens last.content

theorem count_kept (first last : Message) (others : List Message) :
    enc.count (first :: (others ++ [last])) = enc.keptCount others first last := by
  unfold keptCount count
  rw [List.map_cons, List.map_append, List.sum_cons, List.sum_append, List.map_singleton,
    List.sum_singleton, Nat.add_assoc]

section run
variable (hsys : msg.filter isSystem = first :: others) (hlast : msg.getLast? = some last)
  (huser : isSystem last = false)

include hsys hlast huser

theorem messageFitIn_kept (hlong : ¬ (enc.count msg : ℤ) < maxLength)
    (hfit : (enc.keptCount others first last : ℤ) < maxLength) :
    enc.messageFitIn msg maxLength =
      some ((enc.keptCount others first last : ℤ), first :: (others ++ [last])) := by
  obtain ⟨i, j, rest, hkept, rfl, -, -⟩ := keptMessages_eq hsys hlast huser
  have hfst : (keptMessages msg).map Prod.fst = first :: (rest.map Prod.fst ++ [last]) := by
    rw [hkept, List.map_cons, List.map_append]
    rfl
  unfold messageFitIn
  rw [if_neg hlong]
  dsimp only
  rw [hfst, count_kept, if_pos hfit]

theorem messageFitIn_shorten (hlong : ¬ (enc.count msg : ℤ) < maxLength)
    (hlong' : ¬ (enc.keptCount others first last : ℤ) < maxLength) :
    enc.messageFitIn msg maxLength =
      (mostlyFirst (enc.numTokens first.content) (enc.numTokens last.content)).bind (fun long =>
        if long then (enc.encode first.content).map (fun m => (maxLength,
          { first with content := enc.decode (sliceTo m (maxLength - enc.numTokens last.content)) }
            :: (others ++ [last])))
        else (enc.encode last.content).map (fun m => (maxLength, first :: (others ++
          [{ last with
            content := enc.decode (sliceTo m (maxLength - enc.numTokens last.content)) }])))) := by
  obtain ⟨i, j, rest, hkept, rfl, hij, hrest⟩ := keptMessages_eq hsys hlast huser
  have hfst : (keptMessages msg).map Prod.fst = first :: (rest.map Prod.fst ++ [last]) := by
    rw [hkept, List.map_cons, List.map_append]
    rfl
  have hgetLast : (keptMessages msg).getLast? = some (last, j) := by
    rw [hkept, ← List.cons_append, List.getLast?_concat]
  have hhead : (keptMessages msg).head? = some (first, i) := by
    rw [hkept, List.head?_cons]
  have hset : ∀ k content, setContent k content (keptMessages msg) =
      setContent k content ((first, i) :: (rest ++ [(last, j)])) := by
    intro k content
    rw [hkept]
  unfold messageFitIn
  rw [if_neg hlong]
  dsimp only
  rw [hfst, count_kept, if_neg hlong', hhead, hgetLast]
  simp only [Option.bind_eq_bind, Option.bind_some, hset, setContent_first hij hrest,
    setContent_last hij hrest]
  cases mostlyFirst (enc.numTokens first.content) (enc.numTokens last.content) with
  | none => rfl
  | some long =>
      cases long with
      | true => cases enc.encode first.content <;> rfl
      | false => cases enc.encode last.content <;> rfl

end run

theorem numTokens_slice (h : enc.Lawful) {s : Str} {tokens : List ℕ}
    (hs : enc.encode s = some tokens) (n : ℤ) :
    enc.numTokens (enc.decode (sliceTo tokens n)) ≤ sliceLength (enc.numTokens s) n := by
  have hle := h s tokens hs (if n < 0 then (tokens.length + n).toNat else n.toNat)
  rw [List.length_take] at hle
  rw [numTokens_of_encode hs]
  exact hle

theorem numTokens_slice_exact (h : enc.Exact) {s : Str} {tokens : List ℕ}
    (hs : enc.encode s = some tokens) (n : ℤ) :
    enc.numTokens (enc.decode (sliceTo tokens n)) = sliceLength (enc.numTokens s) n := by
  have heq := h s tokens hs (if n < 0 then (tokens.length + n).toNat else n.toNat)
  rw [List.length_take] at heq
  rw [numTokens_of_encode hs]
  exact heq

variable (enc) in
/-- When the result is short enough. -/
def FitsWhen (msg others : List Message) (first last : Message) (maxLength : ℤ) : Prop :=
  let ll := enc.numTokens first.content
  let ll2 := enc.numTokens last.content
  let rest := enc.count others
  (enc.count msg : ℤ) < maxLength ∨ ((ll + rest + ll2 : ℕ) : ℤ) < maxLength ∨
    match mostlyFirst ll ll2 with
    | none => False
    | some true => rest = 0 ∨ ((ll + rest + ll2 : ℕ) : ℤ) ≤ maxLength
    | some false =>
        if (ll2 : ℤ) ≤ maxLength then ll + rest ≤ ll2 ∨ ((ll + rest + ll2 : ℕ) : ℤ) ≤ maxLength
        else ll + rest = 0

/-- What matters if all messages, and the kept ones, are too long. -/
theorem fitsWhen_iff (hlong : ¬ (enc.count msg : ℤ) < maxLength)
    (hlong' : ¬ (enc.keptCount others first last : ℤ) < maxLength) :
    enc.FitsWhen msg others first last maxLength ↔
      match mostlyFirst (enc.numTokens first.content) (enc.numTokens last.content) with
      | none => False
      | some true => enc.count others = 0 ∨ (enc.keptCount others first last : ℤ) ≤ maxLength
      | some false =>
          if (enc.numTokens last.content : ℤ) ≤ maxLength then
            enc.numTokens first.content + enc.count others ≤ enc.numTokens last.content ∨
              (enc.keptCount others first last : ℤ) ≤ maxLength
          else enc.numTokens first.content + enc.count others = 0 := by
  unfold FitsWhen
  exact (or_iff_right hlong).trans (or_iff_right hlong')

theorem fits_iff_of_run {c : ℤ} {first' last' : Message}
    (hrun : enc.messageFitIn msg maxLength = some (c, first' :: (others ++ [last'])))
    (hfirst : enc.Shortened first first') (hlast : enc.Shortened last last') :
    enc.Fits msg others first last maxLength ↔
      (enc.keptCount others first' last' : ℤ) ≤ maxLength := by
  rw [← count_kept]
  constructor
  · rintro ⟨c', out, hout, hle, -⟩
    rw [hrun] at hout
    cases hout
    exact hle
  · exact fun hle => ⟨c, _, hrun, hle, Or.inr ⟨first', last', hfirst, hlast, rfl⟩⟩

/-- The first message is shortened by the length of the last one. -/
theorem sliceLength_first {ll ll2 rest : ℕ} (hlt : (ll2 : ℤ) < maxLength)
    (hlong : ¬ ((ll + rest + ll2 : ℕ) : ℤ) < maxLength) :
    ((sliceLength ll (maxLength - ll2) + rest + ll2 : ℕ) : ℤ) ≤ maxLength ↔
      rest = 0 ∨ ((ll + rest + ll2 : ℕ) : ℤ) ≤ maxLength := by
  unfold sliceLength
  rw [if_neg (by omega)]
  omega

/-- The last message is shortened by its own length. -/
theorem sliceLength_last {ll ll2 rest : ℕ} (hshort : (ll : ℤ) < maxLength ∨ (ll2 : ℤ) < maxLength)
    (hlong : ¬ ((ll + rest + ll2 : ℕ) : ℤ) < maxLength) :
    ((ll + rest + sliceLength ll2 (maxLength - ll2) : ℕ) : ℤ) ≤ maxLength ↔
      if (ll2 : ℤ) ≤ maxLength then ll + rest ≤ ll2 ∨ ((ll + rest + ll2 : ℕ) : ℤ) ≤ maxLength
      else ll + rest = 0 := by
  unfold sliceLength
  by_cases hle : (ll2 : ℤ) ≤ maxLength
  · rw [if_neg (by omega), if_pos hle]
    omega
  · rw [if_pos (by omega), if_neg hle]
    omega

/-- **Fitting.**  If the first or the last message alone is short enough, the result is short enough
under `FitsWhen`, and only then if the tokenizer gives the text of the first tokens the same
tokens. -/
theorem fits_iff (hlawful : enc.Lawful) (hsys : msg.filter isSystem = first :: others)
    (hlast : msg.getLast? = some last) (huser : isSystem last = false)
    (hshort : (enc.numTokens first.content : ℤ) < maxLength ∨
      (enc.numTokens last.content : ℤ) < maxLength) :
    (enc.FitsWhen msg others first last maxLength →
      enc.Fits msg others first last maxLength) ∧
    (enc.Exact → enc.Fits msg others first last maxLength →
      enc.FitsWhen msg others first last maxLength) := by
  by_cases hlong : (enc.count msg : ℤ) < maxLength
  · refine ⟨fun _ => ⟨_, msg, if_pos hlong, hlong.le, Or.inl rfl⟩, fun _ _ => Or.inl hlong⟩
  by_cases hlong' : (enc.keptCount others first last : ℤ) < maxLength
  · refine ⟨fun _ => ⟨_, _, messageFitIn_kept hsys hlast huser hlong hlong', ?_,
      Or.inr ⟨first, last, Or.inl rfl, Or.inl rfl, rfl⟩⟩, fun _ _ => Or.inr (Or.inl hlong')⟩
    rw [count_kept]
    exact hlong'.le
  have hrun := messageFitIn_shorten hsys hlast huser hlong hlong'
  cases hshare : mostlyFirst (enc.numTokens first.content) (enc.numTokens last.content) with
  | none =>
      rw [hshare] at hrun
      refine ⟨fun h => ?_, fun _ h => ?_⟩
      · rw [fitsWhen_iff hlong hlong', hshare] at h
        exact h.elim
      · obtain ⟨c, out, hout, -⟩ := h
        rw [hrun] at hout
        cases hout
  | some long =>
      rw [hshare] at hrun
      rw [fitsWhen_iff hlong hlong', hshare]
      have hpos : 0 < enc.numTokens first.content + enc.numTokens last.content := by
        by_contra hzero
        rw [show enc.numTokens first.content = 0 by omega,
          show enc.numTokens last.content = 0 by omega, mostlyFirst_zero] at hshare
        cases hshare
      cases long with
      | true =>
          have hlt : enc.numTokens last.content < enc.numTokens first.content := by
            by_contra hle
            rw [mostlyFirst_of_le hpos (by omega)] at hshare
            cases hshare
          obtain ⟨m, hm⟩ := @encode_of_pos enc first.content (by omega)
          rw [Option.bind_some, if_pos rfl, hm] at hrun
          rw [fits_iff_of_run hrun (Or.inr ⟨m, _, hm, rfl⟩) (Or.inl rfl)]
          have hlast' : (enc.numTokens last.content : ℤ) < maxLength := by omega
          have hslice := sliceLength_first hlast' hlong'
          refine ⟨fun h => ?_, fun hexact h => ?_⟩
          · have hle := numTokens_slice hlawful hm (maxLength - enc.numTokens last.content)
            refine le_trans (Int.ofNat_le.mpr ?_) (hslice.mpr h)
            exact Nat.add_le_add_right (Nat.add_le_add_right hle _) _
          · have heq := numTokens_slice_exact hexact hm (maxLength - enc.numTokens last.content)
            refine hslice.mp ?_
            rw [← heq]
            exact h
      | false =>
          have hlast' : 0 < enc.numTokens last.content := by
            by_contra hzero
            rw [show enc.numTokens last.content = 0 by omega,
              mostlyFirst_zero_right (by omega)] at hshare
            cases hshare
          obtain ⟨m, hm⟩ := @encode_of_pos enc last.content hlast'
          rw [Option.bind_some, if_neg Bool.false_ne_true, hm] at hrun
          rw [fits_iff_of_run hrun (Or.inl rfl) (Or.inr ⟨m, _, hm, rfl⟩)]
          have hslice := sliceLength_last hshort hlong'
          refine ⟨fun h => ?_, fun hexact h => ?_⟩
          · have hle := numTokens_slice hlawful hm (maxLength - enc.numTokens last.content)
            refine le_trans (Int.ofNat_le.mpr ?_) (hslice.mpr h)
            exact Nat.add_le_add_left hle _
          · have heq := numTokens_slice_exact hexact hm (maxLength - enc.numTokens last.content)
            refine hslice.mp ?_
            rw [← heq]
            exact h

/-- A token for each character. -/
def characters : Encoder := ⟨fun s => some (s.map Char.toNat), fun tokens => tokens.map Char.ofNat⟩

theorem characters_exact : characters.Exact := by
  intro s tokens h k
  show ((tokens.take k).map Char.ofNat |>.map Char.toNat).length = _
  rw [List.length_map, List.length_map]

/-- A system message and a question, and room for the first of them. -/
theorem fits_hello : characters.Fits
    [⟨"system".toList, "aaaaaa".toList⟩, ⟨"user".toList, "bbbbbbbb".toList⟩] []
    ⟨"system".toList, "aaaaaa".toList⟩ ⟨"user".toList, "bbbbbbbb".toList⟩ 10 := by
  refine (fits_iff (fun s tokens h k => (characters_exact s tokens h k).le) (by decide) (by decide)
    (by decide) (Or.inl (by decide))).1 ?_
  have hshare : mostlyFirst (characters.numTokens "aaaaaa".toList)
      (characters.numTokens "bbbbbbbb".toList) = some false :=
    mostlyFirst_of_le (by decide) (by decide)
  refine Or.inr (Or.inr ?_)
  rw [hshare]
  decide

/-- The last message is not shortened enough: eleven tokens are left where ten are allowed. -/
theorem not_fits_question : ¬ characters.Fits
    [⟨"system".toList, "aaaaaa".toList⟩, ⟨"user".toList, "bbbbb".toList⟩] []
    ⟨"system".toList, "aaaaaa".toList⟩ ⟨"user".toList, "bbbbb".toList⟩ 10 := by
  have hshare : mostlyFirst (characters.numTokens "aaaaaa".toList)
      (characters.numTokens "bbbbb".toList) = some false :=
    mostlyFirst_of_le (by decide) (by decide)
  have hrun := @messageFitIn_shorten characters
    [⟨"system".toList, "aaaaaa".toList⟩, ⟨"user".toList, "bbbbb".toList⟩] []
    ⟨"system".toList, "aaaaaa".toList⟩ ⟨"user".toList, "bbbbb".toList⟩ 10 (by decide) (by decide)
    (by decide) (by decide) (by decide)
  rw [hshare, Option.bind_some, if_neg Bool.false_ne_true] at hrun
  rintro ⟨c, out, hout, hle, -⟩
  rw [hrun] at hout
  cases hout
  exact absurd hle (by decide)

end Encoder

end RagFlow.Prompts
