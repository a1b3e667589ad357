import RagFlow.PyStr
import Mathlib.Algebra.Order.Ring.Int
import Mathlib.Tactic.Common

/-! # Segmentation of Chinese text

The segmenter of `internal/cpp/rag_analyzer.cpp`.  A string that is valid UTF-8 is the list of its
characters; positions count bytes.  The dictionary is a trie, which is not looked into here: what it
finds for a key, and whether it has keys with a prefix, are arbitrary, and so are the scores, which
the code computes in floating point.

* `maxForward` and `maxBackward` take the longest words from the left and from the right.
* `dfs` goes through the segmentations with words of the dictionary and keeps the best, or all.

`flatten_maxForward`, `flatten_maxBackward`, `flatten_bestTokens`: the tokens put together are the
text. -/

namespace RagFlow.Analyzer

open Py

/-! ### Strings -/

/-- The size of a string in bytes. -/
def byteLen (s : Str) : ℕ := (s.map Char.utf8Size).sum

theorem byteLen_append (s t : Str) : byteLen (s ++ t) = byteLen s + byteLen t := by
  simp [byteLen]

theorem byteLen_flatten (tokens : List Str) :
    byteLen tokens.flatten = (tokens.map byteLen).sum := by
  induction tokens with
  | nil => rfl
  | cons t tokens ih => rw [List.flatten_cons, byteLen_append, ih, List.map_cons, List.sum_cons]

/-- `Join` of the tokens from `start` to `stop`. -/
def join (delim : Str) (tokens : List Str) : Str := delim.intercalate tokens

def slice {α : Type} (l : List α) (start stop : ℕ) : List α := (l.drop start).take (stop - start)

/-- `Split` at blanks, without the empty parts.  Its text is a C string: it ends before the first
NUL. -/
def split (s : Str) : List Str :=
  ((s.takeWhile (· ≠ '\x00')).splitOn ' ').filter (· ≠ [])

/-- `Replace` of blanks by one blank. -/
def collapseBlanks : Str → Str
  | [] => []
  | c :: s => if c = ' ' ∧ s.head? = some ' ' then collapseBlanks s else c :: collapseBlanks s

/-- `Key`: in lower case. -/
def key (s : Str) : Str := s.map Char.toLower

/-- `RKey`: the characters in reverse order. -/
def rkey (s : Str) : Str := 'D' :: 'D' :: s.reverse.map Char.toLower

/-! ### The dictionary -/

/-- What the trie has for a key, `-1` for nothing; whether it has keys with a prefix; `Freq`; the
score of a segmentation, and when one score is greater than another. -/
structure Dict (S : Type) where
  get : Str → ℤ
  hasKeysWithPrefix : Str → Bool
  freq : Str → ℤ
  score : List (Str × ℤ) → S
  gt : S → S → Bool

/-- `Encode` of a negative frequency without a tag. -/
def encodeNegative (n : ℕ) : ℤ := n + 2 ^ 23

section dict
variable {S : Type} (d : Dict S)

/-! ### The longest words -/

/-- The first loop of `MaxForward`: take more characters as long as there are words that begin with
these. -/
def growForward (rest : Str) (n : ℕ) : ℕ :=
  if n < rest.length ∧ d.hasKeysWithPrefix (key (rest.take n)) then growForward rest (n + 1) else n
termination_by rest.length - n

/-- The first loop of `MaxBackward`. -/
def growBackward (front : Str) (n : ℕ) : ℕ :=
  if n < front.length ∧ d.hasKeysWithPrefix (rkey (front.drop (front.length - n))) then
    growBackward front (n + 1)
  else n
termination_by front.length - n

/-- The second loop of both: take fewer characters until they are a word. -/
def shrink (part : ℕ → Str) : ℕ → ℕ
  | 0 => 0
  | n + 1 => if 0 < n ∧ d.get (key (part (n + 1))) = -1 then shrink part n else n + 1

def forwardLength (rest : Str) : ℕ := shrink d (rest.take ·) (growForward d rest 1)

def backwardLength (front : Str) : ℕ :=
  shrink d (fun n => front.drop (front.length - n)) (growBackward d front 1)

/-- A token with what the trie has for it. -/
def tagged (t : Str) : Str × ℤ := (t, if d.get (key t) ≠ -1 then d.get (key t) else 0)

theorem le_growForward (rest : Str) (n : ℕ) : n ≤ growForward d rest n := by
  induction n using growForward.induct d rest with
  | case1 n h ih =>
      rw [growForward, if_pos h]
      omega
  | case2 n h => rw [growForward, if_neg h]

theorem le_growBackward (front : Str) (n : ℕ) : n ≤ growBackward d front n := by
  induction n using growBackward.induct d front with
  | case1 n h ih =>
      rw [growBackward, if_pos h]
      omega
  | case2 n h => rw [growBackward, if_neg h]

theorem shrink_pos (part : ℕ → Str) {n : ℕ} (h : 0 < n) : 0 < shrink d part n := by
  induction n with
  | zero => omega
  | succ n ih =>
      rw [shrink]
      split
      case isTrue hn => exact ih hn.1
      case isFalse => exact Nat.succ_pos n

theorem forwardLength_pos (rest : Str) : 0 < forwardLength d rest :=
  shrink_pos d _ (le_growForward d rest 1)

theorem backwardLength_pos (front : Str) : 0 < backwardLength d front :=
  shrink_pos d _ (le_growBackward d front 1)

/-- `MaxForward`, from the rest of the line on. -/
def maxForwardFrom (rest : Str) : List (Str × ℤ) :=
  if h : rest = [] then []
  else
    tagged d (rest.take (forwardLength d rest)) :: maxForwardFrom (rest.drop (forwardLength d rest))
termination_by rest.length
decreasing_by
  have hpos := forwardLength_pos d rest
  have hlen := List.length_pos_iff.mpr h
  rw [List.length_drop]
  omega

def maxForward (line : Str) : List Str := (maxForwardFrom d line).map Prod.fst

/-- `MaxBackward`, with the last token first. -/
def maxBackwardFrom (front : Str) : List (Str × ℤ) :=
  if h : front = [] then []
  else
    tagged d (front.drop (front.length - backwardLength d front)) ::
      maxBackwardFrom (front.take (front.length - backwardLength d front))
termination_by front.length
decreasing_by
  have hpos := backwardLength_pos d front
  have hlen := List.length_pos_iff.mpr h
  rw [List.length_take]
  omega

def maxBackward (line : Str) : List Str := (maxBackwardFrom d line).reverse.map Prod.fst

theorem flatten_maxForward (line : Str) : (maxForward d line).flatten = line := by
  unfold maxForward
  induction line using maxForwardFrom.induct d with
  | case1 => rw [maxForwardFrom, dif_pos rfl]; rfl
  | case2 rest h ih =>
      rw [maxForwardFrom, dif_neg h, List.map_cons, List.flatten_cons, ih]
      exact List.take_append_drop _ rest

theorem flatten_maxBackward (line : Str) : (maxBackward d line).flatten = line := by
  unfold maxBackward
  induction line using maxBackwardFrom.induct d with
  | case1 => rw [maxBackwardFrom, dif_pos rfl]; rfl
  | case2 front h ih =>
      rw [maxBackwardFrom, dif_neg h, List.reverse_cons, List.map_append, List.flatten_append, ih]
      simp only [List.map_cons, List.map_nil, List.flatten_cons, List.flatten_nil, List.append_nil]
      exact List.take_append_drop _ front

theorem ne_nil_of_mem_maxForward {line t : Str} (ht : t ∈ maxForward d line) : t ≠ [] := by
  unfold maxForward at ht
  induction line using maxForwardFrom.induct d with
  | case1 => rw [maxForwardFrom, dif_pos rfl] at ht; cases ht
  | case2 rest h ih =>
      rw [maxForwardFrom, dif_neg h, List.map_cons] at ht
      rcases List.mem_cons.mp ht with rfl | ht
      · have hpos := forwardLength_pos d rest
        have hlen := List.length_pos_iff.mpr h
        refine List.length_pos_iff.mp ?_
        show 0 < (rest.take (forwardLength d rest)).length
        rw [List.length_take]
        omega
      · exact ih ht

theorem ne_nil_of_mem_maxBackward {line t : Str} (ht : t ∈ maxBackward d line) : t ≠ [] := by
  unfold maxBackward at ht
  induction line using maxBackwardFrom.induct d with
  | case1 => rw [maxBackwardFrom, dif_pos rfl] at ht; cases ht
  | case2 front h ih =>
      rw [maxBackwardFrom, dif_neg h, List.reverse_cons, List.map_append] at ht
      rcases List.mem_append.mp ht with ht | ht
      · exact ih ht
      · rw [List.map_cons, List.map_nil, List.mem_singleton] at ht
        subst ht
        have hpos := backwardLength_pos d front
        have hlen := List.length_pos_iff.mpr h
        refine List.length_pos_iff.mp ?_
        show 0 < (front.drop (front.length - backwardLength d front)).length
        rw [List.length_drop]
        omega

/-! ### The best segmentation -/

/-- All segmentations that have been found, the best of them, and its score; `none` is the lowest
number. -/
structure Found (S : Type) where
  tokenList : List (List (Str × ℤ))
  bestTokens : List Str
  maxScore : Option S

/-- The end of `DFS`: a segmentation of the whole text. -/
def Found.add (memoAll : Bool) (preTokens : List (Str × ℤ)) (found : Found S) : Found S :=
  if memoAll then { found with tokenList := found.tokenList ++ [preTokens] }
  else if found.maxScore.all (d.gt (d.score preTokens)) then
    { found with bestTokens := preTokens.map Prod.fst, maxScore := some (d.score preTokens) }
  else found

/-- The last three tokens have one character each, and the last one and the next character may begin
a word. -/
def afterSingles (chars : Str) (s : ℕ) (preTokens : List (Str × ℤ)) : Bool :=
  match preTokens.reverse with
  | t₁ :: t₂ :: t₃ :: _ =>
      t₁.1.length = 1 && t₂.1.length = 1 && t₃.1.length = 1 &&
        d.hasKeysWithPrefix (key (t₁.1 ++ slice chars s (s + 1)))
  | _ => false

/-- The pruning: where the first token that is tried ends. -/
def firstEnd (chars : Str) (s : ℕ) (preTokens : List (Str × ℤ)) : ℕ :=
  if (s + 2 ≤ chars.length ∧ d.hasKeysWithPrefix (key (slice chars s (s + 1))) ∧
      ¬ d.hasKeysWithPrefix (key (slice chars s (s + 2)))) ∨ afterSingles d chars s preTokens then
    s + 2
  else s + 1

/-- The loop over the ends of the next token; `call` is `DFS` from there on. -/
def dfsLoop (chars : Str) (s : ℕ) (preTokens : List (Str × ℤ))
    (call : ℕ → List (Str × ℤ) → Found S → ℕ × Found S) :
    List ℕ → ℕ → Found S → ℕ × Found S
  | [], res, found => (res, found)
  | e :: ends, res, found =>
      let t := slice chars s e
      if s + 1 < e ∧ ¬ d.hasKeysWithPrefix (key t) then (res, found)
      else if d.get (key t) ≠ -1 then
        let (r, found) := call e (preTokens ++ [(t, d.get (key t))]) found
        dfsLoop chars s preTokens call ends (max res r) found
      else dfsLoop chars s preTokens call ends res found

/-- `DFS`, with at most `fuel` calls within each other. -/
def dfs (chars : Str) (memoAll : Bool) :
    ℕ → ℕ → List (Str × ℤ) → Found S → ℕ × Found S
  | 0, s, _, found => (s, found)
  | fuel + 1, s, preTokens, found =>
      if chars.length ≤ s then (s, found.add d memoAll preTokens)
      else
        let start := firstEnd d chars s preTokens
        let (res, found) := dfsLoop d chars s preTokens (dfs chars memoAll fuel)
          (List.range' start (chars.length + 1 - start)) s found
        if s < res then (res, found)
        else
          let t := slice chars s (s + 1)
          let v := if d.get (key t) ≠ -1 then d.get (key t) else encodeNegative 12
          dfs chars memoAll fuel (s + 1) (preTokens ++ [(t, v)]) found

/-- What `DFS` finds in a text; each call goes on by at least one character. -/
def search (chars : Str) (memoAll : Bool) (maxScore : Option S) : Found S :=
  (dfs d chars memoAll (chars.length + 1) 0 [] ⟨[], [], maxScore⟩).2

/-- The best segmentation. -/
def bestTokens (chars : Str) : List Str := (search d chars false none).bestTokens

/-- A segmentation of the first `s` characters. -/
structure Cuts (chars : Str) (s : ℕ) (tokens : List Str) : Prop where
  flatten : tokens.flatten = chars.take s
  ne_nil : ∀ t ∈ tokens, t ≠ []

section search
variable {d} {chars : Str} {s e : ℕ} {preTokens : List (Str × ℤ)} {found : Found S}

theorem Cuts.append (h : Cuts chars s (preTokens.map Prod.fst)) (hse : s < e)
    (he : e ≤ chars.length)
    (v : ℤ) : Cuts chars e ((preTokens ++ [(slice chars s e, v)]).map Prod.fst) := by
  rw [List.map_append]
  refine ⟨?_, ?_⟩
  · rw [List.flatten_append, h.flatten]
    simp only [slice, List.map_cons, List.map_nil, List.flatten_cons, List.flatten_nil,
      List.append_nil]
    rw [← List.take_add, Nat.add_sub_cancel' (Nat.le_of_lt hse)]
  · intro t ht
    rcases List.mem_append.mp ht with ht | ht
    · exact h.ne_nil t ht
    · rw [List.map_cons, List.map_nil, List.mem_singleton] at ht
      subst ht
      refine List.length_pos_iff.mp ?_
      show 0 < ((chars.drop s).take (e - s)).length
      rw [List.length_take, List.length_drop]
      omega

/-- The number that `DFS` gives to a token: what the trie has for it, or the frequency of a
character that is not there. -/
def TaggedBy (d : Dict S) (t : Str) (v : ℤ) : Prop :=
  (d.get (key t) ≠ -1 ∧ v = d.get (key t)) ∨
    (t.length = 1 ∧ d.get (key t) = -1 ∧ v = encodeNegative 12)

/-- What holds of the tokens so far is kept by each token that `DFS` adds. -/
def KeptByTokens (d : Dict S) (chars : Str) (P : ℕ → List (Str × ℤ) → Prop) : Prop :=
  ∀ s e pre v, s < e → e ≤ chars.length → P s pre → TaggedBy d (slice chars s e) v →
    P e (pre ++ [(slice chars s e, v)])

theorem keptByTokens_cuts :
    KeptByTokens d chars (fun s pre => Cuts chars s (pre.map Prod.fst)) :=
  fun _ _ _ v hse he hpre _ => hpre.append hse he v

/-- The loop keeps what each call keeps; if it has gone on, what each call brings about holds. -/
theorem dfsLoop_keeps {P : ℕ → List (Str × ℤ) → Prop} (hP : KeptByTokens d chars P)
    {Q R : Found S → Prop} {call : ℕ → List (Str × ℤ) → Found S → ℕ × Found S}
    (hpre : P s preTokens)
    (hcall : ∀ e pre found, s < e → e ≤ chars.length → P e pre → Q found →
      Q (call e pre found).2 ∧ R (call e pre found).2)
    (ends : List ℕ) (hends : ∀ e ∈ ends, s < e ∧ e ≤ chars.length) :
    ∀ res found, Q found → (s < res → R found) →
      Q (dfsLoop d chars s preTokens call ends res found).2 ∧
        (s < (dfsLoop d chars s preTokens call ends res found).1 →
          R (dfsLoop d chars s preTokens call ends res found).2) := by
  induction ends with
  | nil => exact fun res found h hres => ⟨h, hres⟩
  | cons e ends ih =>
      intro res found h hres
      have hrest := ih (fun e he => hends e (List.mem_cons_of_mem _ he))
      obtain ⟨hse, he⟩ := hends e List.mem_cons_self
      unfold dfsLoop
      dsimp only
      split
      · exact ⟨h, hres⟩
      · split
        case isTrue hget =>
          obtain ⟨hQ, hR⟩ := hcall e _ found hse he
            (hP s e preTokens _ hse he hpre (Or.inl ⟨hget, rfl⟩)) h
          exact hrest _ _ hQ (fun _ => hR)
        case isFalse => exact hrest res found h hres

theorem lt_firstEnd : s < firstEnd d chars s preTokens := by
  unfold firstEnd
  split <;> omega

/-- With a call for each character that is left, a segmentation of the whole text is added: what
this keeps is kept, and what it brings about holds. -/
theorem dfs_keeps {P : ℕ → List (Str × ℤ) → Prop} (hP : KeptByTokens d chars P)
    {memoAll : Bool} {Q R : Found S → Prop}
    (hadd : ∀ pre found, P chars.length pre → Q found →
      Q (found.add d memoAll pre) ∧ R (found.add d memoAll pre)) (fuel : ℕ) :
    ∀ s preTokens found, chars.length < s + fuel → s ≤ chars.length →
      P s preTokens → Q found →
      Q (dfs d chars memoAll fuel s preTokens found).2 ∧
        R (dfs d chars memoAll fuel s preTokens found).2 := by
  induction fuel with
  | zero =>
      intro s preTokens found hfuel hs
      omega
  | succ fuel ih =>
      intro s preTokens found hfuel hs hpre h
      unfold dfs
      by_cases hend : chars.length ≤ s
      · rw [if_pos hend]
        have heq : s = chars.length := Nat.le_antisymm hs hend
        rw [heq] at hpre
        exact hadd preTokens found hpre h
      · rw [if_neg hend]
        dsimp only
        have hends : ∀ e ∈ List.range' (firstEnd d chars s preTokens)
            (chars.length + 1 - firstEnd d chars s preTokens), s < e ∧ e ≤ chars.length := by
          intro e he
          rw [List.mem_range'_1] at he
          have hfirst : s < firstEnd d chars s preTokens := lt_firstEnd
          omega
        have hcall : ∀ e pre found, s < e → e ≤ chars.length → P e pre →
            Q found → Q (dfs d chars memoAll fuel e pre found).2 ∧
              R (dfs d chars memoAll fuel e pre found).2 :=
          fun e pre found hse he hpre h => ih e pre found (by omega) he hpre h
        have hloop := dfsLoop_keeps hP hpre hcall _ hends s found h
          (fun hlt => absurd hlt (Nat.lt_irrefl s))
        split
        case isTrue hres => exact ⟨hloop.1, hloop.2 hres⟩
        case isFalse =>
          refine ih (s + 1) _ _ (by omega) (by omega) ?_ hloop.1
          refine hP s (s + 1) preTokens _ (Nat.lt_succ_self s) (by omega) hpre ?_
          split
          case isTrue hget => exact Or.inl ⟨hget, rfl⟩
          case isFalse hget =>
            refine Or.inr ⟨?_, not_not.mp hget, rfl⟩
            show ((chars.drop s).take (s + 1 - s)).length = 1
            rw [List.length_take, List.length_drop]
            omega

theorem search_keeps (memoAll : Bool) (maxScore : Option S) {Q R : Found S → Prop}
    (hadd : ∀ pre found, Cuts chars chars.length (pre.map Prod.fst) → Q found →
      Q (found.add d memoAll pre) ∧ R (found.add d memoAll pre)) (hQ : Q ⟨[], [], maxScore⟩) :
    Q (search d chars memoAll maxScore) ∧ R (search d chars memoAll maxScore) := by
  have hempty : Cuts chars 0 (([] : List (Str × ℤ)).map Prod.fst) :=
    ⟨rfl, fun t ht => absurd ht List.not_mem_nil⟩
  exact dfs_keeps keptByTokens_cuts hadd (chars.length + 1) 0 [] _ (by omega) (Nat.zero_le _)
    hempty hQ

/-- The first segmentation is better than nothing. -/
theorem cuts_bestTokens (d : Dict S) (chars : Str) :
    Cuts chars chars.length (bestTokens d chars) := by
  have hadd : ∀ pre (found : Found S), Cuts chars chars.length (pre.map Prod.fst) →
      (found.maxScore.isSome → Cuts chars chars.length found.bestTokens) →
      ((found.add d false pre).maxScore.isSome →
        Cuts chars chars.length (found.add d false pre).bestTokens) ∧
        (found.add d false pre).maxScore.isSome := by
    intro pre found hcuts h
    unfold Found.add
    rw [if_neg Bool.false_ne_true]
    split
    · exact ⟨fun _ => hcuts, rfl⟩
    · refine ⟨h, ?_⟩
      cases hscore : found.maxScore with
      | none => simp_all
      | some score => rfl
  obtain ⟨hbest, hsome⟩ := search_keeps false none
    (Q := fun found => found.maxScore.isSome → Cuts chars chars.length found.bestTokens)
    (R := fun found => found.maxScore.isSome) hadd (fun h => nomatch h)
  exact hbest hsome

theorem cuts_of_mem_tokenList (d : Dict S) (chars : Str) (maxScore : Option S) :
    ∀ seg ∈ (search d chars true maxScore).tokenList,
      Cuts chars chars.length (seg.map Prod.fst) := by
  refine (search_keeps true maxScore
    (Q := fun found => ∀ seg ∈ found.tokenList, Cuts chars chars.length (seg.map Prod.fst))
    (R := fun _ => True) ?_ (fun seg hseg => nomatch hseg)).1
  intro pre found hcuts h
  refine ⟨fun seg hseg => ?_, trivial⟩
  rcases List.mem_append.mp hseg with hseg | hseg
  · exact h seg hseg
  · rw [List.mem_singleton.mp hseg]
    exact hcuts

/-- With a lowest score to be reached the best segmentation is one of the text, if there is one. -/
theorem cuts_of_bestTokens (d : Dict S) (chars : Str) (maxScore : Option S)
    (hne : (search d chars false maxScore).bestTokens ≠ []) :
    Cuts chars chars.length (search d chars false maxScore).bestTokens := by
  refine (search_keeps false maxScore
    (Q := fun found => found.bestTokens ≠ [] → Cuts chars chars.length found.bestTokens)
    (R := fun _ => True) ?_ (fun h => absurd rfl h)).1 hne
  intro pre found hcuts h
  refine ⟨?_, trivial⟩
  unfold Found.add
  rw [if_neg Bool.false_ne_true]
  split
  · exact fun _ => hcuts
  · exact h

theorem flatten_bestTokens (d : Dict S) (chars : Str) : (bestTokens d chars).flatten = chars := by
  rw [(cuts_bestTokens d chars).flatten, List.take_length]

end search

end dict

/-- A dictionary with one word. -/
def oneWord (word : Str) : Dict ℕ where
  get k := if k = word then 5 else -1
  hasKeysWithPrefix k := k.isPrefixOf word
  freq k := if k = word then 1 else 0
  score tokens := 30 / tokens.length
  gt a b := b < a

end RagFlow.Analyzer
