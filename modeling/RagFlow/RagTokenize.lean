import RagFlow.RagAnalyzer
import Mathlib.Data.List.TakeWhile

/-! # Tokens with and without positions

`TokenizeInner` and `TokenizeInnerWithPosition` of `internal/cpp/rag_analyzer.cpp`, and the two
functions that merge their tokens.  Both go through the words from the left and from the right:
where these agree they are kept, and where they do not, the best segmentation is searched.  The one
joins the tokens of each part with blanks, to be split again by `Merge`; the other splits each part
at once and gives each token its bytes in the text.

`tokenize_agree`: for a text without blanks and NULs the tokens are the same, and the positions are
those of the tokens in the text.  A NUL ends the text for `Split`, but not for the function with
positions if it is the only token of its part (`tokenize_nul`). -/

namespace RagFlow.Analyzer

open Py

/-! ### The two sides -/

section parts
variable {α : Type} (tks tks1 : List Str)

/-- How many tokens from `i` and `j` on are the same, if the first `same` are. -/
def sameRun (i j same : ℕ) : ℕ :=
  if i + same < tks1.length ∧ j + same < tks.length ∧ tks1[i + same]? = tks[j + same]? then
    sameRun i j (same + 1)
  else same
termination_by tks.length - same

/-- The main loop.  The two functions differ in what they do with a part where the sides agree
(`equal`) or do not (`differ`); the numbers are those of tokens from the left. -/
def partsLoop (differ equal : ℕ → ℕ → α → α) (i j i₀ j₀ : ℕ) (out : α) : ℕ × ℕ × α :=
  if i < tks1.length ∧ j < tks.length then
    let tk1 := join [] (slice tks1 i₀ i)
    let tk := join [] (slice tks j₀ j)
    if tk1 ≠ tk then
      if byteLen tk < byteLen tk1 then partsLoop differ equal i (j + 1) i₀ j₀ out
      else partsLoop differ equal (i + 1) j i₀ j₀ out
    else if tks1[i]? ≠ tks[j]? then partsLoop differ equal (i + 1) (j + 1) i₀ j₀ out
    else
      let same := sameRun tks tks1 i j 1
      partsLoop differ equal (i + same + 1) (j + same + 1) (i + same) (j + same)
        (equal j (j + same) (differ j₀ j out))
  else (i₀, j₀, out)
termination_by tks1.length + tks.length - (i + j)

/-- All parts. -/
def parts (differ equal : ℕ → ℕ → α → α) (out : α) : α :=
  let same := sameRun tks tks1 0 0 0
  let out := if 0 < same then equal 0 same out else out
  let (i₀, j₀, out) := partsLoop tks tks1 differ equal (same + 1) (same + 1) same same out
  if i₀ < tks1.length then differ j₀ tks.length out else out

end parts

section tokenize
variable {S : Type} (d : Dict S)

def tokenizeInner (res : List Str) (text : Str) : List Str :=
  let tks := maxForward d text
  let tks1 := maxBackward d text
  parts tks tks1
    (fun a b res => res ++ [join [' '] (bestTokens d (join [] (slice tks a b)))])
    (fun a b res => res ++ [join [' '] (slice tks a b)]) res

/-- A position, mapped to the original text if there is a mapping. -/
def mapped (posMapping : Option (List ℕ)) (p : ℕ) : ℕ :=
  match posMapping with
  | some mapping => mapping.getD p 0
  | none => p

/-- One token after the other, from `start` on. -/
def pushSplit (posMapping : Option (List ℕ)) :
    List Str → ℕ → List Str × List (ℕ × ℕ) → List Str × List (ℕ × ℕ)
  | [], _, out => out
  | t :: tokens, start, out =>
      pushSplit posMapping tokens (start + byteLen t) (out.1 ++ [t],
        out.2 ++ [(mapped posMapping start, mapped posMapping (start + byteLen t))])

/-- A part that has been joined: it is split if there is a blank in it. -/
def pushPart (posMapping : Option (List ℕ)) (text : Str) (start stop : ℕ)
    (out : List Str × List (ℕ × ℕ)) : List Str × List (ℕ × ℕ) :=
  if ' ' ∈ text then pushSplit posMapping (split text) start out
  else (out.1 ++ [text], out.2 ++ [(mapped posMapping start, mapped posMapping stop)])

/-- `CalculateTokensLength`. -/
def tokensLength (tokens : List Str) (start stop : ℕ) : ℕ :=
  ((slice tokens start stop).map byteLen).sum

def tokenizeInnerWithPosition (text : Str) (basePos : ℕ) (posMapping : Option (List ℕ))
    (out : List Str × List (ℕ × ℕ)) : List Str × List (ℕ × ℕ) :=
  let tks := maxForward d text
  let tks1 := maxBackward d text
  parts tks tks1
    (fun a b out =>
      let start := basePos + tokensLength tks 0 a
      pushPart posMapping (join [' '] (bestTokens d (join [] (slice tks a b)))) start
        (start + byteLen (join [] (slice tks a b))) out)
    (fun a b out =>
      let start := basePos + tokensLength tks 0 a
      let token := join [' '] (slice tks a b)
      pushPart posMapping token start (start + byteLen token) out) out

/-! ### Merging -/

/-- The characters of `regex_split_pattern_`; the pattern is found in a string if one of them is in
it. -/
def isSplitChar (c : Char) : Bool :=
  c ∈ [' ', ',', '.', '<', '>', '/', '?', ';', ':', '\x27', '[', ']', '\x5c', '\x60', '!', '@', '#',
    '$', '%', '^', '&', '*', '(', ')', '\x7b', '\x7d', '|', '_', '+', '=', '《', '》', '，', '。', '？',
    '、', '；', '‘', '’', '：', '“', '”', '【', '】', '~', '！', '￥', '…', '（', '）', '—', '-'] ||
    ('a' ≤ c && c ≤ 'z') || ('A' ≤ c && c ≤ 'Z') || ('0' ≤ c && c ≤ '9')

/-- Where the token that begins with the `s`th ends: at most five are put together. -/
def mergeEnd (tokens : List Str) (s : ℕ) : ℕ :=
  (List.range' (s + 2) (min (tokens.length + 1) (s + 6) - (s + 2))).foldl (fun stop e =>
    let tk := join [] (slice tokens s e)
    if tk.any isSplitChar && 0 < d.freq tk then e else stop) (s + 1)

/-- The end lies after `s`, and within the tokens. -/
theorem mergeEnd_spec (tokens : List Str) (s : ℕ) (hs : s < tokens.length) :
    s < mergeEnd d tokens s ∧ mergeEnd d tokens s ≤ tokens.length := by
  have hfold : ∀ (ends : List ℕ) (stop : ℕ), (∀ e ∈ ends, s < e ∧ e ≤ tokens.length) →
      s < stop ∧ stop ≤ tokens.length →
      s < ends.foldl (fun stop e =>
        let tk := join [] (slice tokens s e)
        if tk.any isSplitChar && 0 < d.freq tk then e else stop) stop ∧
      ends.foldl (fun stop e =>
        let tk := join [] (slice tokens s e)
        if tk.any isSplitChar && 0 < d.freq tk then e else stop) stop ≤ tokens.length := by
    intro ends
    induction ends with
    | nil => exact fun stop _ h => h
    | cons e ends ih =>
        intro stop hends h
        refine ih _ (fun e he => hends e (List.mem_cons_of_mem _ he)) ?_
        dsimp only
        split
        · exact hends e List.mem_cons_self
        · exact h
  refine hfold _ _ (fun e he => ?_) ⟨Nat.lt_succ_self s, hs⟩
  rw [List.mem_range'_1] at he
  omega

def mergeFrom (tokens : List Str) (s : ℕ) : List Str :=
  if h : s < tokens.length then
    join [] (slice tokens s (mergeEnd d tokens s)) :: mergeFrom tokens (mergeEnd d tokens s)
  else []
termination_by tokens.length - s
decreasing_by
  have hend := mergeEnd_spec d tokens s h
  omega

def merge (tksStr : Str) : Str := join [' '] (mergeFrom d (split (collapseBlanks tksStr)) 0)

def mergeFromWithPosition (tokens : List Str) (positions : List (ℕ × ℕ)) (s : ℕ) :
    List (Str × ℕ × ℕ) :=
  if h : s < tokens.length then
    (join [] (slice tokens s (mergeEnd d tokens s)), (positions.getD s (0, 0)).1,
      (positions.getD (mergeEnd d tokens s - 1) (0, 0)).2) ::
        mergeFromWithPosition tokens positions (mergeEnd d tokens s)
  else []
termination_by tokens.length - s
decreasing_by
  have hend := mergeEnd_spec d tokens s h
  omega

def mergeWithPosition (tokens : List Str) (positions : List (ℕ × ℕ)) :
    List Str × List (ℕ × ℕ) :=
  let filtered := (tokens.zip positions).filter (fun p => p.1 ≠ [] && p.1 ≠ [' '])
  (mergeFromWithPosition d (filtered.map Prod.fst) (filtered.map Prod.snd) 0).unzip

end tokenize

/-! ### Strings that are joined and split -/

/-- A token that `Split` gives back. -/
structure Clean (t : Str) : Prop where
  ne_nil : t ≠ []
  blank : ' ' ∉ t
  nul : '\x00' ∉ t

section strings
variable {tokens : List Str}

theorem join_nil (tokens : List Str) : join [] tokens = tokens.flatten := by
  unfold join List.intercalate
  induction tokens with
  | nil => rfl
  | cons t tokens ih =>
      cases tokens with
      | nil => rfl
      | cons u tokens => simpa using ih

theorem join_cons_cons (delim t u : Str) (tokens : List Str) :
    join delim (t :: u :: tokens) = t ++ delim ++ join delim (u :: tokens) := by
  simp [join, List.intercalate]

theorem join_singleton (delim t : Str) : join delim [t] = t := by
  simp [join, List.intercalate]

theorem mem_join {c : Char} (h : c ∈ join [' '] tokens) : c = ' ' ∨ ∃ t ∈ tokens, c ∈ t := by
  induction tokens with
  | nil => cases h
  | cons t tokens ih =>
      cases tokens with
      | nil =>
          rw [join_singleton] at h
          exact .inr ⟨t, List.mem_cons_self, h⟩
      | cons u tokens =>
          rw [join_cons_cons, List.append_assoc] at h
          rcases List.mem_append.mp h with h | h
          · exact .inr ⟨t, List.mem_cons_self, h⟩
          · rcases List.mem_cons.mp h with h | h
            · exact .inl h
            · rcases ih h with h | ⟨t', ht', h⟩
              · exact .inl h
              · exact .inr ⟨t', List.mem_cons_of_mem _ ht', h⟩

theorem split_join (h : ∀ t ∈ tokens, Clean t) : split (join [' '] tokens) = tokens := by
  unfold split
  have hnul : (join [' '] tokens).takeWhile (· ≠ '\x00') = join [' '] tokens := by
    refine List.takeWhile_eq_self_iff.mpr (fun c hc => ?_)
    rw [decide_eq_true_eq]
    rintro rfl
    rcases mem_join hc with hc | ⟨t, ht, hc⟩
    · exact absurd hc (by decide)
    · exact (h t ht).nul hc
  rw [hnul]
  by_cases hempty : tokens = []
  · rw [hempty]
    rfl
  · unfold join
    rw [List.splitOn_intercalate ' ' (fun t ht => (h t ht).blank) hempty]
    exact List.filter_eq_self.mpr (fun t ht => by simpa using (h t ht).ne_nil)

theorem collapseBlanks_append {t : Str} (ht : ' ' ∉ t) (s : Str) :
    collapseBlanks (t ++ s) = t ++ collapseBlanks s := by
  induction t with
  | nil => rfl
  | cons c t ih =>
      have hc : c ≠ ' ' := fun h => ht (h ▸ List.mem_cons_self)
      rw [List.cons_append, collapseBlanks, if_neg (fun h => hc h.1),
        ih (fun h => ht (List.mem_cons_of_mem _ h)), List.cons_append]

theorem collapseBlanks_join (h : ∀ t ∈ tokens, Clean t) :
    collapseBlanks (join [' '] tokens) = join [' '] tokens := by
  induction tokens with
  | nil => rfl
  | cons t tokens ih =>
      have ht := h t List.mem_cons_self
      cases tokens with
      | nil =>
          rw [join_singleton]
          have hend := collapseBlanks_append ht.blank []
          rw [List.append_nil] at hend
          exact hend.trans (List.append_nil t)
      | cons u tokens =>
          have hrest := ih (fun t ht => h t (List.mem_cons_of_mem _ ht))
          have hu := h u (List.mem_cons_of_mem _ List.mem_cons_self)
          -- After the blank there is a character of the next token.
          have hhead : (join [' '] (u :: tokens)).head? ≠ some ' ' := by
            obtain ⟨c, u', rfl⟩ := List.exists_cons_of_ne_nil hu.ne_nil
            have hc : c ≠ ' ' := fun heq => hu.blank (heq ▸ List.mem_cons_self)
            cases tokens with
            | nil =>
                rw [join_singleton]
                exact fun heq => hc (Option.some.inj heq)
            | cons v tokens =>
                rw [join_cons_cons]
                exact fun heq => hc (Option.some.inj heq)
          rw [join_cons_cons, List.append_assoc, collapseBlanks_append ht.blank]
          show t ++ collapseBlanks (' ' :: join [' '] (u :: tokens)) = _
          rw [collapseBlanks, if_neg (fun heq => hhead heq.2), hrest]
          rfl

/-- Joining what has been joined. -/
theorem join_map_join (delim : Str) (groups : List (List Str)) (h : ∀ g ∈ groups, g ≠ []) :
    join delim (groups.map (join delim)) = join delim groups.flatten := by
  have hpair : ∀ (g rest : List Str), g ≠ [] → rest ≠ [] →
      join delim (g ++ rest) = join delim g ++ delim ++ join delim rest := by
    intro g rest hg hrest
    induction g with
    | nil => exact absurd rfl hg
    | cons t g ih =>
        obtain ⟨u, rest', rfl⟩ := List.exists_cons_of_ne_nil hrest
        cases g with
        | nil => rw [List.singleton_append, join_cons_cons, join_singleton]
        | cons t' g =>
            have hih := ih (List.cons_ne_nil t' g)
            rw [List.cons_append, List.cons_append, join_cons_cons, join_cons_cons,
              ← List.cons_append, hih]
            simp only [List.append_assoc]
  induction groups with
  | nil => rfl
  | cons g groups ih =>
      have hrest := ih (fun g hg => h g (List.mem_cons_of_mem _ hg))
      cases groups with
      | nil => rw [List.map_cons, List.map_nil, join_singleton, List.flatten_singleton]
      | cons g' groups =>
          have hg' : g' ≠ [] := h g' (List.mem_cons_of_mem _ List.mem_cons_self)
          have hne : (g' :: groups).flatten ≠ [] := by
            rw [List.flatten_cons]
            exact fun heq => hg' (List.append_eq_nil_iff.mp heq).1
          rw [List.flatten_cons, hpair g _ (h g List.mem_cons_self) hne, ← hrest, List.map_cons,
            List.map_cons, join_cons_cons]

end strings

/-! ### The parts one after the other -/

section parts
variable {α β : Type} {tks tks1 : List Str}

theorem flatten_take_slice {l : List Str} {a b : ℕ} (h : a ≤ b) :
    (l.take a).flatten ++ (slice l a b).flatten = (l.take b).flatten := by
  unfold slice
  rw [← List.flatten_append, ← List.take_add, Nat.add_sub_cancel' h]

/-- The tokens of a run are the same on both sides. -/
theorem sameRun_spec (i j same : ℕ) (hi : i + same ≤ tks1.length) (hj : j + same ≤ tks.length)
    (hsame : slice tks1 i (i + same) = slice tks j (j + same)) :
    same ≤ sameRun tks tks1 i j same ∧ i + sameRun tks tks1 i j same ≤ tks1.length ∧
      j + sameRun tks tks1 i j same ≤ tks.length ∧
      slice tks1 i (i + sameRun tks tks1 i j same) =
        slice tks j (j + sameRun tks tks1 i j same) := by
  induction same using sameRun.induct tks tks1 i j with
  | case1 same h ih =>
      obtain ⟨hi', hj', heq⟩ := h
      rw [sameRun, if_pos ⟨hi', hj', heq⟩]
      have hnext : slice tks1 i (i + (same + 1)) = slice tks j (j + (same + 1)) := by
        unfold slice at hsame ⊢
        simp only [Nat.add_sub_cancel_left] at hsame ⊢
        rw [List.take_add_one, List.take_add_one, hsame, List.getElem?_drop, List.getElem?_drop,
          heq]
      obtain ⟨hle, hspec⟩ := ih (by omega) (by omega) hnext
      exact ⟨by omega, hspec⟩
  | case2 same h =>
      rw [sameRun, if_neg h]
      exact ⟨Nat.le_refl _, hi, hj, hsame⟩

section steps
variable {differ equal : ℕ → ℕ → α → α} {i j i₀ j₀ : ℕ} {x : α}

/-- The side that is shorter goes on. -/
theorem partsLoop_of_ne (hin : i < tks1.length ∧ j < tks.length)
    (hne : join [] (slice tks1 i₀ i) ≠ join [] (slice tks j₀ j)) :
    partsLoop tks tks1 differ equal i j i₀ j₀ x =
      if byteLen (join [] (slice tks j₀ j)) < byteLen (join [] (slice tks1 i₀ i)) then
        partsLoop tks tks1 differ equal i (j + 1) i₀ j₀ x
      else partsLoop tks tks1 differ equal (i + 1) j i₀ j₀ x := by
  rw [partsLoop, if_pos hin]
  exact if_pos hne

theorem partsLoop_of_eq (hin : i < tks1.length ∧ j < tks.length)
    (heq : ¬ join [] (slice tks1 i₀ i) ≠ join [] (slice tks j₀ j)) :
    partsLoop tks tks1 differ equal i j i₀ j₀ x =
      if tks1[i]? ≠ tks[j]? then partsLoop tks tks1 differ equal (i + 1) (j + 1) i₀ j₀ x
      else
        partsLoop tks tks1 differ equal (i + sameRun tks tks1 i j 1 + 1)
          (j + sameRun tks tks1 i j 1 + 1) (i + sameRun tks tks1 i j 1) (j + sameRun tks tks1 i j 1)
          (equal j (j + sameRun tks tks1 i j 1) (differ j₀ j x)) := by
  rw [partsLoop, if_pos hin]
  exact if_neg heq

theorem partsLoop_of_not (hout : ¬ (i < tks1.length ∧ j < tks.length)) :
    partsLoop tks tks1 differ equal i j i₀ j₀ x = (i₀, j₀, x) := by
  rw [partsLoop, if_neg hout]

end steps

/-- What holds of the outputs of two functions up to a token, if each part keeps it. -/
structure Keeps (tks : List Str) (P : ℕ → α → β → Prop) (differ equal : ℕ → ℕ → α → α)
    (differ' equal' : ℕ → ℕ → β → β) : Prop where
  differ : ∀ a b x y, a < b → b ≤ tks.length → P a x y → P b (differ a b x) (differ' a b y)
  equal : ∀ a b x y, a < b → b ≤ tks.length → P a x y → P b (equal a b x) (equal' a b y)

variable {P : ℕ → α → β → Prop} {differ equal : ℕ → ℕ → α → α} {differ' equal' : ℕ → ℕ → β → β}

/-- Both loops stop at the same tokens, and what lies before is the same text on both sides. -/
theorem partsLoop_keeps (h : Keeps tks P differ equal differ' equal') (i j i₀ j₀ : ℕ) (x : α) :
    ∀ y, i₀ < i → j₀ < j → i₀ ≤ tks1.length → j₀ ≤ tks.length →
      (tks1.take i₀).flatten = (tks.take j₀).flatten → P j₀ x y →
      ∃ i' j' x' y', partsLoop tks tks1 differ equal i j i₀ j₀ x = (i', j', x') ∧
        partsLoop tks tks1 differ' equal' i j i₀ j₀ y = (i', j', y') ∧ i' ≤ tks1.length ∧
        j' ≤ tks.length ∧ (tks1.take i').flatten = (tks.take j').flatten ∧ P j' x' y' := by
  induction i, j, i₀, j₀, x using partsLoop.induct tks tks1 differ equal with
  | case1 i j i₀ j₀ x hin tk1 tk hne hlt ih =>
      intro y hi hj hi₀ hj₀ hprefix hP
      rw [partsLoop_of_ne hin hne, partsLoop_of_ne hin hne, if_pos hlt, if_pos hlt]
      exact ih y hi (by omega) hi₀ hj₀ hprefix hP
  | case2 i j i₀ j₀ x hin tk1 tk hne hlt ih =>
      intro y hi hj hi₀ hj₀ hprefix hP
      rw [partsLoop_of_ne hin hne, partsLoop_of_ne hin hne, if_neg hlt, if_neg hlt]
      exact ih y (by omega) hj hi₀ hj₀ hprefix hP
  | case3 i j i₀ j₀ x hin tk1 tk heq hne ih =>
      intro y hi hj hi₀ hj₀ hprefix hP
      rw [partsLoop_of_eq hin heq, partsLoop_of_eq hin heq, if_pos hne, if_pos hne]
      exact ih y (by omega) (by omega) hi₀ hj₀ hprefix hP
  | case4 i j i₀ j₀ x hin tk1 tk heq hsame same ih =>
      intro y hi hj hi₀ hj₀ hprefix hP
      rw [partsLoop_of_eq hin heq, partsLoop_of_eq hin heq, if_neg hsame, if_neg hsame]
      have htk : (slice tks1 i₀ i).flatten = (slice tks j₀ j).flatten := by
        have htk := not_not.mp heq
        rwa [show tk1 = join [] (slice tks1 i₀ i) from rfl,
          show tk = join [] (slice tks j₀ j) from rfl, join_nil, join_nil] at htk
      have hupto : (tks1.take i).flatten = (tks.take j).flatten := by
        rw [← flatten_take_slice (Nat.le_of_lt hi), ← flatten_take_slice (Nat.le_of_lt hj), hprefix,
          htk]
      have hone : slice tks1 i (i + 1) = slice tks j (j + 1) := by
        unfold slice
        simp only [Nat.add_sub_cancel_left]
        rw [List.take_one, List.take_one, List.head?_drop, List.head?_drop, not_not.mp hsame]
      obtain ⟨hle, hi', hj', hrun⟩ := sameRun_spec i j 1 (by omega) (by omega) hone
      refine ih _ (by omega) (by omega) hi' hj' ?_ ?_
      · rw [← flatten_take_slice (Nat.le_add_right i _),
          ← flatten_take_slice (Nat.le_add_right j _),
          hupto, hrun]
      · refine h.equal _ _ _ _ (by omega) hj' ?_
        exact h.differ _ _ _ _ hj (by omega) hP
  | case5 i j i₀ j₀ x hout =>
      intro y hi hj hi₀ hj₀ hprefix hP
      rw [partsLoop_of_not hout, partsLoop_of_not hout]
      exact ⟨i₀, j₀, x, y, rfl, rfl, hi₀, hj₀, hprefix, hP⟩

/-- Tokens that are not empty end where their text ends. -/
theorem length_le_of_flatten_take {l : List Str} (hne : ∀ t ∈ l, t ≠ []) {n : ℕ}
    (h : (l.take n).flatten = l.flatten) : l.length ≤ n := by
  by_contra hlt
  have hlt : n < l.length := Nat.lt_of_not_le hlt
  have hdrop : (l.drop n).flatten = [] := by
    have hsplit : (l.take n).flatten ++ (l.drop n).flatten = l.flatten := by
      rw [← List.flatten_append, List.take_append_drop]
    rw [h] at hsplit
    exact List.append_right_eq_self.mp hsplit
  have hmem : l[n] ∈ l.drop n := by
    rw [List.drop_eq_getElem_cons hlt]
    exact List.mem_cons_self
  exact hne l[n] (List.getElem_mem hlt) (List.flatten_eq_nil_iff.mp hdrop _ hmem)

/-- The parts are the whole text. -/
theorem parts_keeps (hconcat : tks1.flatten = tks.flatten) (hne : ∀ t ∈ tks, t ≠ [])
    (hne1 : ∀ t ∈ tks1, t ≠ []) (h : Keeps tks P differ equal differ' equal') {x : α} {y : β}
    (hP : P 0 x y) :
    P tks.length (parts tks tks1 differ equal x) (parts tks tks1 differ' equal' y) := by
  have hzero : slice tks1 0 (0 + 0) = slice tks 0 (0 + 0) := rfl
  obtain ⟨-, hi, hj, hrun⟩ := sameRun_spec 0 0 0 (Nat.zero_le _) (Nat.zero_le _) hzero
  simp only [Nat.zero_add] at hi hj hrun
  unfold parts
  dsimp only
  have hprefix : (tks1.take (sameRun tks tks1 0 0 0)).flatten =
      (tks.take (sameRun tks tks1 0 0 0)).flatten := by
    unfold slice at hrun
    simpa using congrArg List.flatten hrun
  have hstart : P (sameRun tks tks1 0 0 0)
      (if 0 < sameRun tks tks1 0 0 0 then equal 0 (sameRun tks tks1 0 0 0) x else x)
      (if 0 < sameRun tks tks1 0 0 0 then equal' 0 (sameRun tks tks1 0 0 0) y else y) := by
    split
    case isTrue hpos => exact h.equal _ _ _ _ hpos hj hP
    case isFalse hpos => rwa [Nat.eq_zero_of_not_pos hpos]
  obtain ⟨i', j', x', y', hx, hy, hi', hj', hprefix', hP'⟩ :=
    partsLoop_keeps h _ _ _ _ _ _ (Nat.lt_succ_self _) (Nat.lt_succ_self _) hi hj hprefix hstart
  rw [hx, hy]
  dsimp only
  split
  case isTrue hrest =>
    -- There are tokens left on the one side, so there are on the other.
    refine h.differ _ _ _ _ (Nat.lt_of_le_of_ne hj' (fun hend => ?_)) (Nat.le_refl _) hP'
    rw [hend, List.take_length, ← hconcat] at hprefix'
    have hle := length_le_of_flatten_take hne1 hprefix'
    omega
  case isFalse hrest =>
    have hend : i' = tks1.length := by omega
    rw [hend, List.take_length, hconcat] at hprefix'
    have hle := length_le_of_flatten_take hne hprefix'.symm
    have heq : j' = tks.length := by omega
    rwa [← heq]

end parts

/-! ### Positions -/

/-- The positions of tokens that follow each other. -/
def positionsOf (posMapping : Option (List ℕ)) : ℕ → List Str → List (ℕ × ℕ)
  | _, [] => []
  | start, t :: tokens =>
      (mapped posMapping start, mapped posMapping (start + byteLen t)) ::
        positionsOf posMapping (start + byteLen t) tokens

section positions
variable {posMapping : Option (List ℕ)} {tokens : List Str}

theorem length_positionsOf (posMapping : Option (List ℕ)) (tokens : List Str) :
    ∀ start, (positionsOf posMapping start tokens).length = tokens.length := by
  induction tokens with
  | nil => exact fun start => rfl
  | cons t tokens ih => exact fun start => congrArg (· + 1) (ih (start + byteLen t))

theorem positionsOf_append (posMapping : Option (List ℕ)) (tokens tokens' : List Str) :
    ∀ start, positionsOf posMapping start (tokens ++ tokens') =
      positionsOf posMapping start tokens ++
        positionsOf posMapping (start + byteLen tokens.flatten) tokens' := by
  induction tokens with
  | nil => exact fun start => rfl
  | cons t tokens ih =>
      intro start
      rw [List.cons_append, positionsOf, positionsOf, ih, List.flatten_cons, byteLen_append,
        Nat.add_assoc, List.cons_append]

theorem pushSplit_eq (posMapping : Option (List ℕ)) (tokens : List Str) :
    ∀ start out, pushSplit posMapping tokens start out =
      (out.1 ++ tokens, out.2 ++ positionsOf posMapping start tokens) := by
  induction tokens with
  | nil =>
      intro start out
      rw [pushSplit, positionsOf, List.append_nil, List.append_nil]
  | cons t tokens ih =>
      intro start out
      rw [pushSplit, ih, positionsOf, List.append_assoc, List.append_assoc]
      rfl

/-- A part is split into its tokens. -/
theorem pushPart_join (h : ∀ t ∈ tokens, Clean t) (hne : tokens ≠ []) {start stop : ℕ}
    (hstop : ∀ t, tokens = [t] → stop = start + byteLen t) (out : List Str × List (ℕ × ℕ)) :
    pushPart posMapping (join [' '] tokens) start stop out =
      (out.1 ++ tokens, out.2 ++ positionsOf posMapping start tokens) := by
  unfold pushPart
  obtain ⟨t, tokens', rfl⟩ := List.exists_cons_of_ne_nil hne
  cases tokens' with
  | nil =>
      rw [join_singleton, if_neg (h t List.mem_cons_self).blank, hstop t rfl]
      rfl
  | cons u tokens' =>
      have hblank : ' ' ∈ join [' '] (t :: u :: tokens') := by
        rw [join_cons_cons]
        simp
      rw [if_pos hblank, split_join h, pushSplit_eq]

theorem tokensLength_eq (tks : List Str) (a : ℕ) :
    tokensLength tks 0 a = byteLen (tks.take a).flatten := by
  unfold tokensLength slice
  rw [byteLen_flatten]
  rfl

end positions

/-! ### The two functions -/

section inner
variable {S : Type} {d : Dict S} {text : Str}

/-- The outputs of both functions up to a token: the one has joined the tokens of each part. -/
def Agree (tks : List Str) (basePos : ℕ) (posMapping : Option (List ℕ)) (j : ℕ) (res : List Str)
    (out : List Str × List (ℕ × ℕ)) : Prop :=
  ∃ groups : List (List Str), res = groups.map (join [' ']) ∧
    out = (groups.flatten, positionsOf posMapping basePos groups.flatten) ∧
    (∀ g ∈ groups, g ≠ []) ∧ (∀ t ∈ groups.flatten, Clean t) ∧
    groups.flatten.flatten = (tks.take j).flatten

theorem Agree.push {tks : List Str} {basePos : ℕ} {posMapping : Option (List ℕ)} {a b : ℕ}
    {res : List Str} {out : List Str × List (ℕ × ℕ)} (h : Agree tks basePos posMapping a res out)
    (hab : a ≤ b) {g : List Str} (hg : g ≠ []) (hclean : ∀ t ∈ g, Clean t)
    (hflatten : g.flatten = (slice tks a b).flatten) {stop : ℕ}
    (hstop : ∀ t, g = [t] → stop = basePos + tokensLength tks 0 a + byteLen t) :
    Agree tks basePos posMapping b (res ++ [join [' '] g])
      (pushPart posMapping (join [' '] g) (basePos + tokensLength tks 0 a) stop out) := by
  obtain ⟨groups, rfl, rfl, hne, hcleans, hcut⟩ := h
  have hstart : basePos + tokensLength tks 0 a = basePos + byteLen groups.flatten.flatten := by
    rw [tokensLength_eq, hcut]
  refine ⟨groups ++ [g], ?_, ?_, ?_, ?_, ?_⟩
  · rw [List.map_append]
    rfl
  · rw [pushPart_join hclean hg hstop, List.flatten_append, List.flatten_singleton,
      positionsOf_append, hstart]
  · intro g' hg'
    rcases List.mem_append.mp hg' with hg' | hg'
    · exact hne g' hg'
    · rw [List.mem_singleton.mp hg']
      exact hg
  · intro t ht
    rw [List.flatten_append, List.flatten_singleton] at ht
    rcases List.mem_append.mp ht with ht | ht
    · exact hcleans t ht
    · exact hclean t ht
  · rw [List.flatten_append, List.flatten_singleton, List.flatten_append, hcut, hflatten]
    exact flatten_take_slice hab

theorem mem_of_mem_slice {α : Type} {l : List α} {a b : ℕ} {x : α} (h : x ∈ slice l a b) : x ∈ l :=
  List.mem_of_mem_drop (List.mem_of_mem_take h)

theorem slice_ne_nil {α : Type} {l : List α} {a b : ℕ} (hab : a < b) (hb : b ≤ l.length) :
    slice l a b ≠ [] := by
  refine List.length_pos_iff.mp ?_
  unfold slice
  rw [List.length_take, List.length_drop]
  omega

/-- Tokens that are not empty, of a text without blanks and NULs. -/
theorem clean_of_flatten (hblank : ' ' ∉ text) (hnul : '\x00' ∉ text) {tokens : List Str}
    (hne : ∀ t ∈ tokens, t ≠ []) (hsub : ∀ c ∈ tokens.flatten, c ∈ text) :
    ∀ t ∈ tokens, Clean t := by
  intro t ht
  refine ⟨hne t ht, fun hc => hblank (hsub _ ?_), fun hc => hnul (hsub _ ?_)⟩
  · exact List.mem_flatten.mpr ⟨t, ht, hc⟩
  · exact List.mem_flatten.mpr ⟨t, ht, hc⟩

theorem inner_agree (hblank : ' ' ∉ text) (hnul : '\x00' ∉ text) (basePos : ℕ)
    (posMapping : Option (List ℕ)) :
    Agree (maxForward d text) basePos posMapping (maxForward d text).length
      (tokenizeInner d [] text) (tokenizeInnerWithPosition d text basePos posMapping ([], [])) := by
  have hsub : ∀ {a b : ℕ} {c : Char}, c ∈ (slice (maxForward d text) a b).flatten → c ∈ text := by
    intro a b c hc
    obtain ⟨t, ht, hc⟩ := List.mem_flatten.mp hc
    rw [← flatten_maxForward d text]
    exact List.mem_flatten.mpr ⟨t, mem_of_mem_slice ht, hc⟩
  unfold tokenizeInner tokenizeInnerWithPosition
  refine parts_keeps ?_ (fun t => ne_nil_of_mem_maxForward d) (fun t => ne_nil_of_mem_maxBackward d)
    ⟨?_, ?_⟩ ⟨[], rfl, rfl, ?_, ?_, rfl⟩
  · rw [flatten_maxForward, flatten_maxBackward]
  · intro a b res out hab hb h
    dsimp only
    have hflatten : (bestTokens d (join [] (slice (maxForward d text) a b))).flatten =
        (slice (maxForward d text) a b).flatten := by
      rw [flatten_bestTokens, join_nil]
    have hclean : ∀ t ∈ bestTokens d (join [] (slice (maxForward d text) a b)), Clean t := by
      refine clean_of_flatten hblank hnul (cuts_bestTokens d _).ne_nil (fun c hc => ?_)
      rw [hflatten] at hc
      exact hsub hc
    refine h.push (Nat.le_of_lt hab) ?_ hclean hflatten (fun t ht => ?_)
    · intro hnil
      rw [hnil, List.flatten_nil] at hflatten
      obtain ⟨t, rest, hslice⟩ := List.exists_cons_of_ne_nil (slice_ne_nil hab hb)
      have hmem : t ∈ slice (maxForward d text) a b := by
        rw [hslice]
        exact List.mem_cons_self
      refine ne_nil_of_mem_maxForward d (mem_of_mem_slice hmem) ?_
      exact List.flatten_eq_nil_iff.mp hflatten.symm t hmem
    · rw [join_nil, ← hflatten, ht, List.flatten_singleton]
  · intro a b res out hab hb h
    dsimp only
    have hclean : ∀ t ∈ slice (maxForward d text) a b, Clean t :=
      clean_of_flatten hblank hnul
        (fun t ht => ne_nil_of_mem_maxForward d (mem_of_mem_slice ht)) (fun c hc => hsub hc)
    refine h.push (Nat.le_of_lt hab) (slice_ne_nil hab hb) hclean rfl (fun t ht => ?_)
    rw [ht, join_singleton]
  · exact fun g hg => absurd hg List.not_mem_nil
  · exact fun t ht => absurd ht List.not_mem_nil

/-- Without its blanks the text that is joined is that of the tokens. -/
theorem filter_join (tokens : List Str) :
    (join [' '] tokens).filter (· ≠ ' ') = tokens.flatten.filter (· ≠ ' ') := by
  induction tokens with
  | nil => rfl
  | cons t tokens ih =>
      cases tokens with
      | nil => rw [join_singleton, List.flatten_singleton]
      | cons u tokens =>
          rw [join_cons_cons, List.filter_append, List.filter_append, ih, List.flatten_cons,
            List.filter_append]
          simp

/-- What has been pushed up to a token is the text of the tokens before it, but for the blanks. -/
def Pushed (tks res₀ : List Str) (j : ℕ) (res : List Str) : Prop :=
  ∃ pushed, res = res₀ ++ pushed ∧
    pushed.flatten.filter (· ≠ ' ') = (tks.take j).flatten.filter (· ≠ ' ')

theorem Pushed.push {tks res₀ res : List Str} {a b : ℕ} (h : Pushed tks res₀ a res) (hab : a ≤ b)
    {g : List Str} (hflatten : g.flatten = (slice tks a b).flatten) :
    Pushed tks res₀ b (res ++ [join [' '] g]) := by
  obtain ⟨pushed, rfl, hpushed⟩ := h
  refine ⟨pushed ++ [join [' '] g], List.append_assoc _ _ _, ?_⟩
  rw [List.flatten_append, List.flatten_singleton, List.filter_append, hpushed, filter_join,
    hflatten, ← List.filter_append, flatten_take_slice hab]

theorem tokenizeInner_pushed (res₀ : List Str) :
    Pushed (maxForward d text) res₀ (maxForward d text).length (tokenizeInner d res₀ text) := by
  have hkeeps : Keeps (maxForward d text)
      (fun j res (_ : List Str) => Pushed (maxForward d text) res₀ j res)
      (fun a b res =>
        res ++ [join [' '] (bestTokens d (join [] (slice (maxForward d text) a b)))])
      (fun a b res => res ++ [join [' '] (slice (maxForward d text) a b)])
      (fun _ _ out => out) (fun _ _ out => out) := by
    constructor
    · intro a b res _ hab _ h
      refine h.push (Nat.le_of_lt hab) ?_
      rw [flatten_bestTokens, join_nil]
    · intro a b res _ hab _ h
      exact h.push (Nat.le_of_lt hab) rfl
  have hconcat : (maxBackward d text).flatten = (maxForward d text).flatten := by
    rw [flatten_maxForward, flatten_maxBackward]
  have hstart : Pushed (maxForward d text) res₀ 0 res₀ := ⟨[], (List.append_nil _).symm, rfl⟩
  exact parts_keeps (y := []) hconcat (fun t => ne_nil_of_mem_maxForward d)
    (fun t => ne_nil_of_mem_maxBackward d) hkeeps hstart

end inner

section merging
variable {S : Type} {d : Dict S} {tokens : List Str}

theorem flatten_mergeFrom (d : Dict S) (tokens : List Str) (s : ℕ) :
    (mergeFrom d tokens s).flatten = (tokens.drop s).flatten := by
  induction s using mergeFrom.induct d tokens with
  | case1 s h ih =>
      have hend := mergeEnd_spec d tokens s h
      rw [mergeFrom, dif_pos h, List.flatten_cons, ih, join_nil]
      unfold slice
      rw [← List.flatten_append]
      conv_rhs => rw [← List.take_append_drop (mergeEnd d tokens s - s) (tokens.drop s)]
      rw [List.drop_drop, Nat.add_sub_cancel' (Nat.le_of_lt hend.1)]
  | case2 s h =>
      rw [mergeFrom, dif_neg h, List.drop_eq_nil_of_le (Nat.le_of_not_lt h)]

theorem ne_nil_of_mem_mergeFrom (hne : ∀ t ∈ tokens, t ≠ []) (s : ℕ) :
    ∀ t ∈ mergeFrom d tokens s, t ≠ [] := by
  induction s using mergeFrom.induct d tokens with
  | case1 s h ih =>
      have hend := mergeEnd_spec d tokens s h
      rw [mergeFrom, dif_pos h]
      intro t ht
      rcases List.mem_cons.mp ht with rfl | ht
      · rw [join_nil]
        intro hnil
        obtain ⟨u, rest, hslice⟩ := List.exists_cons_of_ne_nil (slice_ne_nil hend.1 hend.2)
        have hmem : u ∈ slice tokens s (mergeEnd d tokens s) := by
          rw [hslice]
          exact List.mem_cons_self
        exact hne u (mem_of_mem_slice hmem) (List.flatten_eq_nil_iff.mp hnil u hmem)
      · exact ih t ht
  | case2 s h =>
      rw [mergeFrom, dif_neg h]
      exact fun t ht => absurd ht List.not_mem_nil

theorem map_fst_mergeFromWithPosition (d : Dict S) (tokens : List Str) (positions : List (ℕ × ℕ))
    (s : ℕ) :
    (mergeFromWithPosition d tokens positions s).map Prod.fst = mergeFrom d tokens s := by
  induction s using mergeFrom.induct d tokens with
  | case1 s h ih => rw [mergeFrom, mergeFromWithPosition, dif_pos h, dif_pos h, List.map_cons, ih]
  | case2 s h => rw [mergeFrom, mergeFromWithPosition, dif_neg h, dif_neg h, List.map_nil]

/-- The `s`th of positions that follow each other. -/
theorem getD_positionsOf (tokens : List Str) :
    ∀ start s, s < tokens.length → (positionsOf none start tokens).getD s (0, 0) =
      (start + byteLen (tokens.take s).flatten, start + byteLen (tokens.take (s + 1)).flatten) := by
  induction tokens with
  | nil => exact fun start s hs => absurd hs (Nat.not_lt_zero s)
  | cons t tokens ih =>
      intro start s hs
      cases s with
      | zero => simp [positionsOf, mapped, byteLen]
      | succ s =>
          rw [positionsOf, List.getD_cons_succ, ih _ s (Nat.lt_of_succ_lt_succ hs)]
          simp only [List.take_succ_cons, List.flatten_cons, byteLen_append, Nat.add_assoc]

/-- A merged token lies from the first to the last of its tokens. -/
theorem map_snd_mergeFromWithPosition (d : Dict S) (tokens : List Str) (start s : ℕ) :
    (mergeFromWithPosition d tokens (positionsOf none start tokens) s).map Prod.snd =
      positionsOf none (start + byteLen (tokens.take s).flatten) (mergeFrom d tokens s) := by
  induction s using mergeFrom.induct d tokens with
  | case1 s h ih =>
      obtain ⟨hlt, hle⟩ := mergeEnd_spec d tokens s h
      have hlen : start + byteLen (tokens.take s).flatten +
          byteLen (join [] (slice tokens s (mergeEnd d tokens s))) =
            start + byteLen (tokens.take (mergeEnd d tokens s)).flatten := by
        rw [join_nil, Nat.add_assoc, ← byteLen_append, flatten_take_slice (Nat.le_of_lt hlt)]
      rw [mergeFrom, mergeFromWithPosition, dif_pos h, dif_pos h, List.map_cons, ih, positionsOf,
        hlen, getD_positionsOf tokens start s h,
        getD_positionsOf tokens start (mergeEnd d tokens s - 1) (by omega),
        Nat.sub_add_cancel (Nat.one_le_of_lt hlt)]
      rfl
  | case2 s h =>
      rw [mergeFrom, mergeFromWithPosition, dif_neg h, dif_neg h]
      rfl

/-- Nothing is filtered out. -/
theorem mergeWithPosition_eq (h : ∀ t ∈ tokens, Clean t) {positions : List (ℕ × ℕ)}
    (hlen : positions.length = tokens.length) :
    mergeWithPosition d tokens positions =
      (mergeFromWithPosition d tokens positions 0).unzip := by
  have hfilter : (tokens.zip positions).filter (fun p => p.1 ≠ [] && p.1 ≠ [' ']) =
      tokens.zip positions := by
    refine List.filter_eq_self.mpr (fun p hp => ?_)
    have ht := h p.1 (List.of_mem_zip hp).1
    have hblank : p.1 ≠ [' '] := fun heq => ht.blank (heq ▸ List.mem_cons_self)
    simp [ht.ne_nil, hblank]
  unfold mergeWithPosition
  dsimp only
  rw [hfilter, List.map_fst_zip (Nat.le_of_eq hlen.symm), List.map_snd_zip (Nat.le_of_eq hlen)]

end merging

/-- The words from the left and from the right and all segmentations that are recorded make up the
text, and so does what is pushed, without the blanks that join it. -/
theorem segmentation_conserves {S : Type} (d : Dict S) (text : Str) (hblank : ' ' ∉ text) :
    (maxForward d text).flatten = text ∧ (maxBackward d text).flatten = text ∧
      (∀ maxScore, ∀ seg ∈ (search d text true maxScore).tokenList,
        (seg.map Prod.fst).flatten = text) ∧
      (∀ maxScore, (search d text false maxScore).bestTokens ≠ [] →
        (search d text false maxScore).bestTokens.flatten = text) ∧
      (bestTokens d text).flatten = text ∧
      ∀ res, ∃ pushed, tokenizeInner d res text = res ++ pushed ∧
        pushed.flatten.filter (· ≠ ' ') = text := by
  refine ⟨flatten_maxForward d text, flatten_maxBackward d text, fun maxScore seg hseg => ?_,
    fun maxScore hne => ?_, flatten_bestTokens d text, fun res => ?_⟩
  · rw [(cuts_of_mem_tokenList d text maxScore seg hseg).flatten, List.take_length]
  · rw [(cuts_of_bestTokens d text maxScore hne).flatten, List.take_length]
  · obtain ⟨pushed, hres, hpushed⟩ := @tokenizeInner_pushed _ d text res
    refine ⟨pushed, hres, ?_⟩
    rw [hpushed, List.take_length, flatten_maxForward]
    refine List.filter_eq_self.mpr (fun c hc => ?_)
    rw [decide_eq_true_iff]
    rintro rfl
    exact hblank hc

theorem segmentation_conserves_word :
    (maxForward (oneWord ['中', '国']) ['中', '国', '人']).flatten = ['中', '国', '人'] ∧
      ∃ pushed, tokenizeInner (oneWord ['中', '国']) [] ['中', '国', '人'] = [] ++ pushed ∧
        pushed.flatten.filter (· ≠ ' ') = ['中', '国', '人'] :=
  have h := segmentation_conserves (oneWord ['中', '国']) ['中', '国', '人'] (by decide)
  ⟨h.1, h.2.2.2.2.2 []⟩

/-- The tokens with and without positions are the same; the positions of the tokens, and of the
merged tokens, are those of consecutive parts of the text. -/
theorem tokenize_agree {S : Type} (d : Dict S) (text : Str) (hblank : ' ' ∉ text)
    (hnul : '\x00' ∉ text) (basePos : ℕ) (posMapping : Option (List ℕ)) :
    let out := tokenizeInnerWithPosition d text basePos posMapping ([], [])
    let merged := mergeWithPosition d out.1 out.2
    merged.1 = split (merge d (join [' '] (tokenizeInner d [] text))) ∧
      (posMapping = none →
        out.1.flatten = text ∧ out.2 = positionsOf none basePos out.1 ∧
        merged.1.flatten = text ∧ merged.2 = positionsOf none basePos merged.1) := by
  obtain ⟨groups, hres, hout, hne, hclean, hflatten⟩ := inner_agree hblank hnul basePos posMapping
  dsimp only
  rw [List.take_length, flatten_maxForward] at hflatten
  rw [hout, hres]
  dsimp only
  have hmerge : merge d (join [' '] (groups.map (join [' ']))) =
      join [' '] (mergeFrom d groups.flatten 0) := by
    unfold merge
    rw [join_map_join _ _ hne, collapseBlanks_join hclean, split_join hclean]
  have hmerged : ∀ t ∈ mergeFrom d groups.flatten 0, Clean t := by
    refine clean_of_flatten hblank hnul
      (ne_nil_of_mem_mergeFrom (fun t ht => (hclean t ht).ne_nil) 0) (fun c hc => ?_)
    rw [flatten_mergeFrom, List.drop_zero, hflatten] at hc
    exact hc
  rw [mergeWithPosition_eq hclean (length_positionsOf _ _ _), List.unzip_fst, List.unzip_snd,
    map_fst_mergeFromWithPosition, hmerge, split_join hmerged]
  refine ⟨rfl, ?_⟩
  rintro rfl
  refine ⟨hflatten, rfl, ?_, ?_⟩
  · rw [flatten_mergeFrom, List.drop_zero, hflatten]
  · rw [map_snd_mergeFromWithPosition]
    rfl

theorem tokenize_agree_word :
    let out := tokenizeInnerWithPosition (oneWord ['中', '国']) ['中', '国', '人'] 0 none ([], [])
    let merged := mergeWithPosition (oneWord ['中', '国']) out.1 out.2
    merged.1 = split (merge (oneWord ['中', '国'])
        (join [' '] (tokenizeInner (oneWord ['中', '国']) [] ['中', '国', '人']))) ∧
      ((none : Option (List ℕ)) = none →
        out.1.flatten = ['中', '国', '人'] ∧ out.2 = positionsOf none 0 out.1 ∧
        merged.1.flatten = ['中', '国', '人'] ∧ merged.2 = positionsOf none 0 merged.1) :=
  tokenize_agree (oneWord ['中', '国']) ['中', '国', '人'] (by decide) (by decide) 0 none

/-- One character is one token, if the dictionary has nothing for it. -/
theorem maxForward_singleton (c : Char) (word : Str) : maxForward (oneWord word) [c] = [[c]] := by
  have hlen : forwardLength (oneWord word) [c] = 1 := by
    unfold forwardLength
    rw [growForward, if_neg (by simp)]
    rfl
  unfold maxForward
  rw [maxForwardFrom, dif_neg (List.cons_ne_nil _ _), hlen]
  simp [maxForwardFrom, tagged]

theorem maxBackward_singleton (c : Char) (word : Str) : maxBackward (oneWord word) [c] = [[c]] := by
  have hlen : backwardLength (oneWord word) [c] = 1 := by
    unfold backwardLength
    rw [growBackward, if_neg (by simp)]
    rfl
  unfold maxBackward
  rw [maxBackwardFrom, dif_neg (List.cons_ne_nil _ _), hlen]
  simp [maxBackwardFrom, tagged]

theorem parts_singleton {α : Type} (t : Str) (differ equal : ℕ → ℕ → α → α) (out : α) :
    parts [t] [t] differ equal out = equal 0 1 out := by
  have hone : sameRun [t] [t] 0 0 0 = 1 := by
    rw [sameRun, if_pos (by simp), sameRun, if_neg (by simp)]
  unfold parts
  rw [hone]
  dsimp only
  rw [partsLoop, if_neg (by simp)]
  rfl

/-- A NUL without blanks: the function with positions gives it as a token, `Merge` does not. -/
theorem tokenize_nul :
    ' ' ∉ ['\x00'] ∧
      (mergeWithPosition (oneWord ['中', '国'])
        (tokenizeInnerWithPosition (oneWord ['中', '国']) ['\x00'] 0 none ([], [])).1
        (tokenizeInnerWithPosition (oneWord ['中', '国']) ['\x00'] 0 none ([], [])).2).1 ≠
      split (merge (oneWord ['中', '国'])
        (join [' '] (tokenizeInner (oneWord ['中', '国']) [] ['\x00']))) := by
  have hwith : tokenizeInnerWithPosition (oneWord ['中', '国']) ['\x00'] 0 none ([], []) =
      ([['\x00']], [(0, 1)]) := by
    unfold tokenizeInnerWithPosition
    rw [maxForward_singleton, maxBackward_singleton, parts_singleton]
    rfl
  have hinner : tokenizeInner (oneWord ['中', '国']) [] ['\x00'] = [['\x00']] := by
    unfold tokenizeInner
    rw [maxForward_singleton, maxBackward_singleton, parts_singleton]
    rfl
  have hmerge : merge (oneWord ['中', '国']) (join [' '] [['\x00']]) = [] := by
    unfold merge
    rw [show split (collapseBlanks (join [' '] [['\x00']])) = [] from by decide, mergeFrom,
      dif_neg (by simp)]
    rfl
  rw [hwith, hinner, hmerge]
  refine ⟨by decide, fun heq => ?_⟩
  have hfirst : (mergeWithPosition (oneWord ['中', '国']) [['\x00']] [(0, 1)]).1 =
      mergeFrom (oneWord ['中', '国']) [['\x00']] 0 := by
    unfold mergeWithPosition
    rw [List.unzip_fst, map_fst_mergeFromWithPosition]
    rfl
  have hflatten := flatten_mergeFrom (oneWord ['中', '国']) [['\x00']] 0
  rw [← hfirst, heq] at hflatten
  exact absurd hflatten (by decide)

end RagFlow.Analyzer
