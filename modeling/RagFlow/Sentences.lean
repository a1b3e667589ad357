import RagFlow.Literals
import Mathlib.Data.Rat.Defs
import Mathlib.Algebra.Order.Ring.Rat

/-! # Sentences around a boundary

The functions of `attach_media_context` in `rag/nlp/__init__.py` that take sentences from a text.

* **Sentences.** `splitSentences` puts together what `re.split` cuts; it cuts after every end of a
  sentence (`splitSentences_eq`).  The sentences make up the text, and a sentence is not cut again.
* **Contexts.** `collectContext` takes sentences before and after a boundary as long as there is
  room.  What it takes are whole sentences in their order (`collectContext_sublist`). -/

namespace RagFlow.Nlp.Media

open Py

/-! ### `split_sentences` -/

/-- The characters of the pattern. -/
def endChars : List Char := ['.', '。', '！', '？', '!', '?', '；', ';', '：', ':', '\n']

def sentenceEnds : List Str := endChars.map fun c => [c]

/-- The body of the loop over the parts; `sentences` and `buf`. -/
def splitStep (st : List Str × Str) (p : Str) : List Str × Str :=
  if p = [] then st
  else if sentenceEnds.contains p then (st.1 ++ [st.2 ++ p], [])
  else (st.1, st.2 ++ p)

/-- After the loop. -/
def withRest (st : List Str × Str) : List Str :=
  if st.2 ≠ [] then st.1 ++ [st.2] else st.1

def splitSentences (text : Str) : List Str :=
  withRest ((reSplit sentenceEnds text).foldl splitStep ([], []))

section code
variable (numTokensFromString : Str → ℕ)

/-! ### `trim_to_tokens` -/

/-- The loop over the sentences. -/
def trimLoop (remaining : ℤ) : List Str → List Str
  | [] => []
  | s :: seq =>
      if numTokensFromString s ≤ 0 then trimLoop remaining seq
      else if remaining < numTokensFromString s then [s]
      else s :: trimLoop (remaining - numTokensFromString s) seq

def trimToTokens (text : Str) (tokenBudget : ℤ) (fromTail : Bool) : Str :=
  if tokenBudget ≤ 0 ∨ text = [] then []
  else if fromTail then
    (trimLoop numTokensFromString tokenBudget (splitSentences text).reverse).reverse.flatten
  else (trimLoop numTokensFromString tokenBudget (splitSentences text)).flatten

/-! ### `find_mid_sentence_index` -/

/-- `cum`, `best_idx` and `best_diff`. -/
structure Mid where
  cum : ℕ
  bestIdx : ℕ
  bestDiff : Option ℚ

/-- The body of the loop over the sentences with their indices. -/
def midStep (target : ℚ) (m : Mid) (x : Str × ℕ) : Mid :=
  let cum := m.cum + numTokensFromString x.1
  let diff := |(cum : ℚ) - target|
  if m.bestDiff.all (diff < ·) then ⟨cum, x.2, some diff⟩ else { m with cum := cum }

def findMidSentenceIndex (sentences : List Str) : ℕ :=
  let total : ℕ := (sentences.map numTokensFromString).foldl (· + ·) 0
  if sentences = [] then 0
  else if total ≤ 0 then sentences.length / 2
  else (sentences.zipIdx.foldl (midStep numTokensFromString ((total : ℚ) / 2)) ⟨0, 0, none⟩).bestIdx

/-! ### `collect_context_from_sentences` -/

/-- The loops of both sides. -/
def collectLoop (fromTail : Bool) (remaining : ℤ) : List Str → List Str
  | [] => []
  | s :: seq =>
      if remaining ≤ 0 then []
      else if numTokensFromString s ≤ 0 then collectLoop fromTail remaining seq
      else
        let s :=
          if remaining < numTokensFromString s then
            trimToTokens numTokensFromString s remaining fromTail
          else s
        s :: collectLoop fromTail (remaining - numTokensFromString s) seq

def collectContext (sentences : List Str) (boundaryIdx : ℕ) (tokenBudget : ℤ) :
    List Str × List Str :=
  ((collectLoop numTokensFromString true tokenBudget
      (sentences.take (boundaryIdx + 1)).reverse).reverse,
    collectLoop numTokensFromString false tokenBudget (sentences.drop (boundaryIdx + 1)))

end code

/-! ### Cutting after each end -/

/-- The text is cut after each end; `cur` is the part read so far in reverse. -/
def sentencesFrom (cur : Str) : Str → List Str
  | [] => if cur = [] then [] else [cur.reverse]
  | c :: s =>
      if c ∈ endChars then (c :: cur).reverse :: sentencesFrom [] s
      else sentencesFrom (c :: cur) s

theorem find?_sentenceEnds (c : Char) (s : Str) :
    sentenceEnds.find? (startswith (c :: s)) = if c ∈ endChars then some [c] else none := by
  unfold sentenceEnds
  generalize endChars = chars
  induction chars with
  | nil => rfl
  | cons d chars ih =>
      have hstart : startswith (c :: s) [d] = decide (d = c) := Bool.and_true (d == c)
      rw [List.map_cons, List.find?_cons, hstart]
      by_cases hd : d = c
      · rw [hd]
        simp
      · rw [decide_eq_false hd, ih]
        simp [Ne.symm hd]

theorem contains_sentenceEnds_iff (p : Str) :
    sentenceEnds.contains p = true ↔ ∃ c ∈ endChars, p = [c] := by
  unfold sentenceEnds
  rw [List.contains_iff_mem, List.mem_map]
  exact ⟨fun ⟨c, hc, h⟩ => ⟨c, hc, h.symm⟩, fun ⟨c, hc, h⟩ => ⟨c, hc, h.symm⟩⟩

/-- A part without an end is put into the buffer. -/
theorem splitStep_text (acc : List Str) {p : Str} (hp : ∀ c ∈ p, c ∉ endChars) :
    splitStep (acc, []) p = (acc, p) := by
  unfold splitStep
  by_cases hnil : p = []
  · rw [if_pos hnil, hnil]
  · have hne : ¬sentenceEnds.contains p = true := by
      rw [contains_sentenceEnds_iff]
      rintro ⟨c, hc, rfl⟩
      exact hp c List.mem_cons_self hc
    rw [if_neg hnil, if_neg hne, List.nil_append]

/-- An end completes a sentence. -/
theorem splitStep_end (acc : List Str) (buf : Str) {c : Char} (hc : c ∈ endChars) :
    splitStep (acc, buf) [c] = (acc ++ [buf ++ [c]], []) := by
  unfold splitStep
  rw [if_neg (List.cons_ne_nil _ _), if_pos ((contains_sentenceEnds_iff _).mpr ⟨c, hc, rfl⟩)]

theorem foldl_splitStep (s : Str) (cur : Str) (hcur : ∀ c ∈ cur, c ∉ endChars)
    (acc : List Str) :
    withRest ((reSplitFrom sentenceEnds 0 cur s).foldl splitStep (acc, [])) =
      acc ++ sentencesFrom cur s := by
  have hrev : ∀ c ∈ cur.reverse, c ∉ endChars := fun c hc => hcur c (List.mem_reverse.mp hc)
  induction s generalizing cur acc with
  | nil =>
      rw [reSplitFrom, List.foldl_cons, List.foldl_nil, splitStep_text acc hrev, sentencesFrom,
        withRest]
      by_cases hnil : cur = []
      · rw [if_pos hnil, hnil, List.append_nil]
        rfl
      · rw [if_neg hnil, if_pos (by rwa [Ne, List.reverse_eq_nil_iff])]
  | cons c s ih =>
      rw [reSplitFrom, find?_sentenceEnds, sentencesFrom]
      by_cases hc : c ∈ endChars
      · rw [if_pos hc, if_pos hc]
        show withRest ((reSplitFrom sentenceEnds 0 [] s).foldl splitStep
          (splitStep (splitStep (acc, []) cur.reverse) [c])) = _
        rw [splitStep_text acc hrev, splitStep_end acc _ hc,
          ih [] (fun _ h => absurd h List.not_mem_nil) _ (fun _ h => absurd h List.not_mem_nil),
          List.reverse_cons, List.append_assoc, List.singleton_append]
      · rw [if_neg hc, if_neg hc]
        have hcons : ∀ d ∈ c :: cur, d ∉ endChars := by
          intro d hd
          rcases List.mem_cons.mp hd with rfl | hd
          · exact hc
          · exact hcur d hd
        exact ih (c :: cur) hcons acc (fun d hd => hcons d (List.mem_reverse.mp hd))

theorem splitSentences_eq (text : Str) : splitSentences text = sentencesFrom [] text :=
  foldl_splitStep text [] (fun _ h => absurd h List.not_mem_nil) []

theorem flatten_sentencesFrom (s cur : Str) :
    (sentencesFrom cur s).flatten = cur.reverse ++ s := by
  induction s generalizing cur with
  | nil =>
      rw [sentencesFrom]
      split_ifs with hnil
      · rw [hnil]
        rfl
      · simp
  | cons c s ih =>
      rw [sentencesFrom]
      split_ifs
      · rw [List.flatten_cons, ih]
        simp
      · rw [ih]
        simp

/-- The sentences make up the text. -/
theorem flatten_splitSentences (text : Str) : (splitSentences text).flatten = text := by
  rw [splitSentences_eq, flatten_sentencesFrom]
  rfl

/-- A sentence has no end except for its last character. -/
def IsSentence (s : Str) : Prop :=
  ∃ u rest : Str, s = u ++ rest ∧ s ≠ [] ∧ (∀ c ∈ u, c ∉ endChars) ∧
    (rest = [] ∨ ∃ c ∈ endChars, rest = [c])

theorem isSentence_of_mem (s cur : Str) (hcur : ∀ c ∈ cur, c ∉ endChars) {x : Str}
    (hx : x ∈ sentencesFrom cur s) : IsSentence x := by
  have hrev : ∀ c ∈ cur.reverse, c ∉ endChars := fun c hc => hcur c (List.mem_reverse.mp hc)
  induction s generalizing cur with
  | nil =>
      rw [sentencesFrom] at hx
      split_ifs at hx with hnil
      · exact absurd hx List.not_mem_nil
      · rw [List.mem_singleton.mp hx]
        exact ⟨cur.reverse, [], (List.append_nil _).symm, by rwa [Ne, List.reverse_eq_nil_iff],
          hrev, Or.inl rfl⟩
  | cons c s ih =>
      rw [sentencesFrom] at hx
      split_ifs at hx with hc
      · rcases List.mem_cons.mp hx with rfl | hx
        · exact ⟨cur.reverse, [c], List.reverse_cons, by simp, hrev, Or.inr ⟨c, hc, rfl⟩⟩
        · exact ih [] (fun _ h => absurd h List.not_mem_nil) hx
            (fun _ h => absurd h List.not_mem_nil)
      · have hcons : ∀ d ∈ c :: cur, d ∉ endChars := by
          intro d hd
          rcases List.mem_cons.mp hd with rfl | hd
          · exact hc
          · exact hcur d hd
        exact ih (c :: cur) hcons hx (fun d hd => hcons d (List.mem_reverse.mp hd))

theorem sentencesFrom_append (u rest cur : Str) (hu : ∀ c ∈ u, c ∉ endChars) :
    sentencesFrom cur (u ++ rest) = sentencesFrom (u.reverse ++ cur) rest := by
  induction u generalizing cur with
  | nil => rfl
  | cons c u ih =>
      rw [List.cons_append, sentencesFrom, if_neg (hu c List.mem_cons_self),
        ih (c :: cur) (fun d hd => hu d (List.mem_cons_of_mem c hd)), List.reverse_cons,
        List.append_assoc, List.singleton_append]

/-- A sentence is not cut again. -/
theorem splitSentences_of_mem {text s : Str} (h : s ∈ splitSentences text) :
    splitSentences s = [s] := by
  rw [splitSentences_eq] at h
  obtain ⟨u, rest, rfl, hne, hu, hrest⟩ :=
    isSentence_of_mem text [] (fun _ h => absurd h List.not_mem_nil) h
  rw [splitSentences_eq, sentencesFrom_append u rest [] hu, List.append_nil]
  rcases hrest with rfl | ⟨c, hc, rfl⟩
  · rw [List.append_nil] at hne ⊢
    rw [sentencesFrom, if_neg (by rwa [List.reverse_eq_nil_iff]), List.reverse_reverse]
  · rw [sentencesFrom, if_pos hc, List.reverse_cons, List.reverse_reverse]
    rfl

/-! ### What is collected -/

section collect
variable {numTokensFromString : Str → ℕ}

/-- Nothing is taken away from a sentence with tokens. -/
theorem trimToTokens_sentence {s : Str} (hs : splitSentences s = [s])
    (htks : ¬numTokensFromString s ≤ 0) {tokenBudget : ℤ} (hbudget : ¬tokenBudget ≤ 0)
    (fromTail : Bool) : trimToTokens numTokensFromString s tokenBudget fromTail = s := by
  have hne : s ≠ [] := by
    intro h
    rw [h] at hs
    cases hs
  have hloop : trimLoop numTokensFromString tokenBudget [s] = [s] := by
    rw [trimLoop, if_neg htks, trimLoop, ite_self]
  unfold trimToTokens
  rw [if_neg (not_or.mpr ⟨hbudget, hne⟩), hs, List.reverse_singleton, hloop,
    List.reverse_singleton, List.flatten_singleton, ite_self]

theorem collectLoop_sublist (fromTail : Bool) {seq : List Str}
    (hseq : ∀ s ∈ seq, splitSentences s = [s]) (remaining : ℤ) :
    (collectLoop numTokensFromString fromTail remaining seq).Sublist seq := by
  induction seq generalizing remaining with
  | nil => exact List.Sublist.refl []
  | cons s seq ih =>
      obtain ⟨hs, hseq⟩ := List.forall_mem_cons.mp hseq
      rw [collectLoop]
      by_cases hremaining : remaining ≤ 0
      · rw [if_pos hremaining]
        exact List.nil_sublist _
      · rw [if_neg hremaining]
        by_cases htks : numTokensFromString s ≤ 0
        · rw [if_pos htks]
          exact (ih hseq remaining).cons s
        · rw [if_neg htks, trimToTokens_sentence hs htks hremaining, ite_self]
          exact (ih hseq _).cons_cons s

/-- The context consists of sentences of the text in their order. -/
theorem collectContext_sublist (text : Str) (boundaryIdx : ℕ) (tokenBudget : ℤ) :
    ((collectContext numTokensFromString (splitSentences text) boundaryIdx tokenBudget).1 ++
      (collectContext numTokensFromString (splitSentences text) boundaryIdx tokenBudget).2).Sublist
        (splitSentences text) := by
  have hall : ∀ s ∈ splitSentences text, splitSentences s = [s] :=
    fun s hs => splitSentences_of_mem hs
  have hprev : (collectContext numTokensFromString (splitSentences text) boundaryIdx
      tokenBudget).1.Sublist ((splitSentences text).take (boundaryIdx + 1)) := by
    rw [← List.reverse_sublist]
    unfold collectContext
    rw [List.reverse_reverse]
    exact collectLoop_sublist true
      (fun s hs => hall s (List.mem_of_mem_take (List.mem_reverse.mp hs))) tokenBudget
  have hnext : (collectContext numTokensFromString (splitSentences text) boundaryIdx
      tokenBudget).2.Sublist ((splitSentences text).drop (boundaryIdx + 1)) :=
    collectLoop_sublist false (fun s hs => hall s (List.mem_of_mem_drop hs)) tokenBudget
  have hboth := hprev.append hnext
  rwa [List.take_append_drop (boundaryIdx + 1)] at hboth

end collect

end RagFlow.Nlp.Media
