import Mathlib.Algebra.Order.Field.Rat
import Mathlib.Algebra.Order.Ring.Cast
import Mathlib.Data.Prod.Lex
import Mathlib.Tactic.Ring
import RagFlow.Dict
import RagFlow.RagAnalyzer
import RagFlow.TopN

/-! # The best segmentations by dynamic programming

`GetBestTokensTopN` of `internal/cpp/rag_analyzer.cpp`.  For each position of the text there is a
table of candidates, which are segmentations up to there, sorted by the number of tokens and the
number of tokens of at least two characters; of each such pair it keeps the best.

* **Tables.** A candidate that is added is in the table, or there is one with its pair that is not
  worse (`addCandidate_spec`).
* **The tables of a text.** `Tables` says what holds while the tokens from one position are tried:
  the candidates are segmentations, and they cover all of them up to there.  Each token keeps it
  (`addAll_spec`), so it holds for the whole text (`tables_spec`).
* **Results.** With one result, it is the best of all segmentations (`getBestTokensTopN_optimal`),
  since with equal pairs the order of the scores is that of the frequencies.  With more, they are
  selected as in `TopN`, where the first candidates are not put in order. -/

namespace RagFlow.Analyzer

open Py TopN

/-! ### The trie -/

/-- The keys of the double array with their values, which are not negative. -/
structure DartsTrie where
  entries : List (Str × ℕ)

namespace DartsTrie

/-- `Get`. -/
def get (trie : DartsTrie) (k : Str) : ℤ :=
  match trie.entries.lookup k with
  | some v => v
  | none => -1

def hasKeysWithPrefix (trie : DartsTrie) (k : Str) : Bool :=
  trie.entries.any (fun e => k.isPrefixOf e.1)

/-- `Traverse` of a whole key: its value, `-1` if it only begins keys, `-2` if it does not. -/
def traverse (trie : DartsTrie) (k : Str) : ℤ :=
  if trie.hasKeysWithPrefix k then trie.get k else -2

theorem get_nonneg {trie : DartsTrie} {k : Str} (h : trie.get k ≠ -1) : 0 ≤ trie.get k := by
  unfold get at h ⊢
  cases hl : trie.entries.lookup k with
  | none =>
      rw [hl] at h
      exact absurd rfl h
  | some v => exact Int.natCast_nonneg v

theorem hasKeysWithPrefix_of_get {trie : DartsTrie} {k k' : Str} (hk : k <+: k')
    (h : trie.get k' ≠ -1) : trie.hasKeysWithPrefix k = true := by
  unfold get at h
  cases hl : trie.entries.lookup k' with
  | none =>
      rw [hl] at h
      exact absurd rfl h
  | some v =>
      exact List.any_eq_true.mpr
        ⟨(k', v), RagFlow.Dict.mem_of_lookup hl, List.isPrefixOf_iff_prefix.mpr hk⟩

/-- A word is found with its value. -/
theorem traverse_of_get {trie : DartsTrie} {k : Str} (h : trie.get k ≠ -1) :
    trie.traverse k = trie.get k := if_pos (hasKeysWithPrefix_of_get (List.prefix_refl k) h)

end DartsTrie

/-- `DecodeFreq`. -/
def decodeFreq (value : ℤ) : ℤ :=
  let v := value % 2 ^ 24
  if 2 ^ 23 ≤ v then -(v % 2 ^ 23) else v

/-- `Score` of tokens with their numbers, in exact arithmetic. -/
def scoreOf (tokenFreqs : List (Str × ℤ)) : ℚ :=
  let F := (tokenFreqs.map (fun x => decodeFreq x.2)).sum
  let L := tokenFreqs.countP (fun x => ¬ x.1.length < 2)
  let N := tokenFreqs.length
  30 / N + L / N + F

/-- The trie as the dictionary of `DFS`. -/
def DartsTrie.dict (trie : DartsTrie) (freq : Str → ℤ) : Dict ℚ where
  get := trie.get
  hasKeysWithPrefix := trie.hasKeysWithPrefix
  freq := freq
  score := scoreOf
  gt a b := b < a

/-! ### Candidates -/

/-- A segmentation, its number of tokens, of tokens of at least two characters, and the sum of the
frequencies. -/
structure BestTokenCandidate where
  tokens : List Str
  n : ℕ
  l : ℕ
  f : ℤ
  deriving DecidableEq

namespace BestTokenCandidate

/-- What the tables are sorted by. -/
def k (c : BestTokenCandidate) : ℕ ×ₗ ℕ := toLex (c.n, c.l)

def update (c : BestTokenCandidate) (newToken : Str) (keyF : ℤ) (addL : ℕ) : BestTokenCandidate :=
  ⟨c.tokens ++ [newToken], c.n + 1, c.l + addL, c.f + keyF⟩

/-- `score`, in exact arithmetic. -/
def score (c : BestTokenCandidate) : ℚ := c.f + (30 + c.l) / c.n

end BestTokenCandidate

/-- `std::min_element` by `v`: the place of the first candidate with the least sum. -/
def minElement (cands : List BestTokenCandidate) : ℕ :=
  cands.findIdx (fun a => cands.all (fun b => a.f ≤ b.f))

/-- `AddBestTokenCandidateTopN`. -/
def addCandidate (topN : ℕ) (cands : List BestTokenCandidate) (c : BestTokenCandidate) :
    List BestTokenCandidate :=
  let b := lowerBound (fun a => a.k < c.k) cands
  let e := lowerBound (fun a => ¬ c.k < a.k) cands
  let found := (cands.take e).drop b
  if topN ≤ found.length then
    match found[minElement found]? with
    | some m => if c.f ≤ m.f then cands else cands.set (b + minElement found) c
    | none => cands
  else cands.insertIdx b c

/-! ### The loops -/

/-- `dp_f`: each candidate of the table at `i` is extended by the token and added to the table at
`target`. -/
def addAll (topN : ℕ) (dp : ℕ → List BestTokenCandidate) (i target : ℕ) (t : Str) (keyF : ℤ)
    (addL : ℕ) : ℕ → List BestTokenCandidate := fun p =>
  if p = target then
    (dp i).foldl (fun table c => addCandidate topN table (c.update t keyF addL)) (dp target)
  else dp p

/-- The inner loop: the token that starts at `i` grows by one character after another, and the one
it grows to has `j` characters. -/
def growFrom (trie : DartsTrie) (topN i : ℕ) :
    ℕ → Str → Str → (ℕ → List BestTokenCandidate) → ℕ → List BestTokenCandidate
  | _, _, [], dp => dp
  | j, grown, ch :: rest, dp =>
      let t := grown ++ [ch]
      let r := trie.traverse (key t)
      if 0 ≤ r then
        growFrom trie topN i (j + 1) t rest
          (addAll topN dp i (i + j) t (decodeFreq r) (if 2 ≤ j then 1 else 0))
      else
        let dp := if j = 1 then addAll topN dp i (i + j) t (-12) 0 else dp
        if r = -2 then dp else growFrom trie topN i (j + 1) t rest dp

/-- The tables after the outer loop has tried the tokens from the first `i` positions. -/
def tablesUpTo (trie : DartsTrie) (topN : ℕ) (chars : Str) : ℕ → ℕ → List BestTokenCandidate
  | 0 => fun p => if p = 0 then [⟨[], 0, 0, 0⟩] else []
  | i + 1 => growFrom trie topN i 1 [] (chars.drop i) (tablesUpTo trie topN chars i)

/-- `dp_vec.back().candidates` after the loops. -/
def finalCandidates (trie : DartsTrie) (topN : ℕ) (chars : Str) : List BestTokenCandidate :=
  tablesUpTo trie topN chars chars.length chars.length

/-- The final candidates with their scores. -/
def finalScores {S : Type} (score : BestTokenCandidate → S) (trie : DartsTrie) (chars : Str)
    (n : ℕ) : List (List Str × S) :=
  (finalCandidates trie n chars).map (fun c => (c.tokens, score c))

/-- `GetBestTokensTopN`; the scores are numbers of any kind. -/
def getBestTokensTopN {S : Type} [LinearOrder S] (score : BestTokenCandidate → S)
    (trie : DartsTrie) (chars : Str) (n : ℕ) : List (List Str × S) :=
  selectBest Prod.snd n (finalScores score trie chars n)

/-! ### Segmentations -/

section segmentations
variable (trie : DartsTrie)

/-- A word of the dictionary or a single character. -/
def IsToken (t : Str) : Prop := t ≠ [] ∧ (trie.get (key t) ≠ -1 ∨ t.length = 1)

/-- The tokens make up the text. -/
structure Segmentation (chars : Str) (tokens : List Str) : Prop where
  flatten : tokens.flatten = chars
  isToken : ∀ t ∈ tokens, IsToken trie t

/-- The frequency of a word, `-12` for a character that is not there. -/
def tokenFreq (t : Str) : ℤ := if trie.get (key t) ≠ -1 then decodeFreq (trie.get (key t)) else -12

/-- The candidate with given tokens. -/
def candidateOf (tokens : List Str) : BestTokenCandidate where
  tokens := tokens
  n := tokens.length
  l := tokens.countP (fun t => 2 ≤ t.length)
  f := (tokens.map (tokenFreq trie)).sum

theorem candidateOf_concat (tokens : List Str) (t : Str) :
    candidateOf trie (tokens ++ [t]) =
      (candidateOf trie tokens).update t (tokenFreq trie t) (if 2 ≤ t.length then 1 else 0) := by
  unfold candidateOf BestTokenCandidate.update
  rw [List.length_append, List.countP_append, List.map_append, List.sum_append,
    List.countP_singleton, List.length_singleton, List.map_singleton, List.sum_singleton]
  split_ifs with h <;> simp_all

end segmentations

/-! ### Tables -/

/-- The table is sorted. -/
def SortedByK (cands : List BestTokenCandidate) : Prop := cands.Pairwise (fun a b => a.k ≤ b.k)

/-- A sorted table has the candidates below a pair, those with the pair, and those above. -/
theorem exists_parts {cands : List BestTokenCandidate} (h : SortedByK cands) (q : ℕ ×ₗ ℕ) :
    ∃ u m v, cands = u ++ (m ++ v) ∧ (∀ a ∈ u, a.k < q) ∧ (∀ a ∈ m, a.k = q) ∧
      ∀ a ∈ v, q < a.k := by
  induction cands with
  | nil => exact ⟨[], [], [], rfl, fun a ha => (nomatch ha), fun a ha => (nomatch ha),
      fun a ha => (nomatch ha)⟩
  | cons c cands ih =>
      obtain ⟨hc, hcands⟩ := List.pairwise_cons.mp h
      obtain ⟨u, m, v, rfl, hu, hm, hv⟩ := ih hcands
      rcases lt_trichotomy c.k q with hlt | heq | hgt
      · exact ⟨c :: u, m, v, rfl, List.forall_mem_cons.mpr ⟨hlt, hu⟩, hm, hv⟩
      · cases u with
        | nil => exact ⟨[], c :: m, v, rfl, hu, List.forall_mem_cons.mpr ⟨heq, hm⟩, hv⟩
        | cons a u =>
            have hca := hc a List.mem_cons_self
            rw [heq] at hca
            exact absurd (hu a List.mem_cons_self) hca.not_gt
      · have hnone : ∀ a ∈ u ++ m, False := by
          intro a ha
          have hca := hc a (by rw [← List.append_assoc]; exact List.mem_append_left v ha)
          rcases List.mem_append.mp ha with ha | ha
          · exact absurd (hu a ha) (hgt.trans_le hca).not_gt
          · exact absurd (hm a ha) (hgt.trans_le hca).ne'
        obtain ⟨rfl, rfl⟩ := List.append_eq_nil_iff.mp (List.eq_nil_iff_forall_not_mem.mpr hnone)
        exact ⟨[], [], c :: v, rfl, hu, hm, List.forall_mem_cons.mpr ⟨hgt, hv⟩⟩

theorem sortedByK_parts {u m v : List BestTokenCandidate} {q : ℕ ×ₗ ℕ} (hu : SortedByK u)
    (hv : SortedByK v) (hlt : ∀ a ∈ u, a.k < q) (heq : ∀ a ∈ m, a.k = q) (hgt : ∀ a ∈ v, q < a.k) :
    SortedByK (u ++ (m ++ v)) := by
  refine List.pairwise_append.mpr ⟨hu, List.pairwise_append.mpr ⟨?_, hv, fun a ha b hb => ?_⟩,
    fun a ha b hb => ?_⟩
  · exact List.pairwise_of_forall_mem_list (fun a ha b hb => by rw [heq a ha, heq b hb])
  · rw [heq a ha]
    exact (hgt b hb).le
  · rcases List.mem_append.mp hb with hb | hb
    · rw [heq b hb]
      exact (hlt a ha).le
    · exact ((hlt a ha).trans (hgt b hb)).le

theorem minElement_split {cands : List BestTokenCandidate} (h : cands ≠ []) :
    ∃ l m r, cands = l ++ m :: r ∧ l.length = minElement cands ∧
      cands[minElement cands]? = some m := by
  obtain ⟨m, hm, hbest⟩ := @exists_best BestTokenCandidate ℤ _ (fun c => -c.f) _ h
  have hlt : minElement cands < cands.length := by
    refine List.findIdx_lt_length_of_exists ⟨m, hm, List.all_eq_true.mpr (fun c hc => ?_)⟩
    exact decide_eq_true (Int.neg_le_neg_iff.mp (hbest c hc))
  refine ⟨cands.take (minElement cands), cands[minElement cands], cands.drop (minElement cands + 1),
    ?_, List.length_take_of_le hlt.le, List.getElem?_eq_getElem hlt⟩
  rw [← List.drop_eq_getElem_cons hlt, List.take_append_drop]

/-- What becomes of a table whose candidates with the pair of `c` are `m`: `c` is put in front of
them, or, if there are enough, one of them stays or makes room for `c`. -/
theorem addCandidate_cases {topN : ℕ} (htop : 0 < topN) {u m v : List BestTokenCandidate}
    {c : BestTokenCandidate} (hu : ∀ a ∈ u, a.k < c.k) (hm : ∀ a ∈ m, a.k = c.k)
    (hv : ∀ a ∈ v, c.k < a.k) :
    addCandidate topN (u ++ (m ++ v)) c = u ++ (c :: m ++ v) ∨
      ∃ l x r, m = l ++ x :: r ∧
        (c.f ≤ x.f ∧ addCandidate topN (u ++ (m ++ v)) c = u ++ (m ++ v) ∨
          x.f < c.f ∧ addCandidate topN (u ++ (m ++ v)) c = u ++ ((l ++ c :: r) ++ v)) := by
  have hb : lowerBound (fun a => decide (a.k < c.k)) (u ++ (m ++ v)) = u.length := by
    refine lowerBound_append (fun a ha => decide_eq_true (hu a ha)) (fun a ha => ?_)
    refine decide_eq_false (not_lt.mpr ?_)
    rcases List.mem_append.mp ha with ha | ha
    · exact (hm a ha).ge
    · exact (hv a ha).le
  have he : lowerBound (fun a => decide (¬ c.k < a.k)) (u ++ (m ++ v)) = (u ++ m).length := by
    rw [← List.append_assoc]
    refine lowerBound_append (fun a ha => decide_eq_true ?_) (fun a ha => ?_)
    · rcases List.mem_append.mp ha with ha | ha
      · exact (hu a ha).not_gt
      · exact (hm a ha).le.not_gt
    · exact decide_eq_false (not_not.mpr (hv a ha))
  have hfound : ((u ++ (m ++ v)).take (u ++ m).length).drop u.length = m := by
    rw [← List.append_assoc, List.take_left, List.drop_left]
  unfold addCandidate
  dsimp only
  rw [hb, he, hfound]
  by_cases hfull : topN ≤ m.length
  · have hne : m ≠ [] := List.length_pos_iff.mp (Nat.lt_of_lt_of_le htop hfull)
    obtain ⟨l, x, r, hmx, hl, hx⟩ := minElement_split hne
    refine Or.inr ⟨l, x, r, hmx, ?_⟩
    rw [if_pos hfull, hx]
    dsimp only
    by_cases hle : c.f ≤ x.f
    · exact Or.inl ⟨hle, if_pos hle⟩
    · refine Or.inr ⟨lt_of_not_ge hle, ?_⟩
      rw [if_neg hle, List.set_append_right _ _ (Nat.le_add_right _ _), Nat.add_sub_cancel_left,
        ← hl, hmx, List.append_assoc, List.set_append_right _ _ le_rfl, Nat.sub_self,
        List.append_assoc]
      rfl
  · rw [if_neg hfull, insertIdx_length]
    exact Or.inl rfl

/-- **Adding a candidate.**  The table stays sorted, and for each candidate that was there or is
added there is one with the same pair that is not worse. -/
theorem addCandidate_spec {topN : ℕ} (htop : 0 < topN) {cands : List BestTokenCandidate}
    (h : SortedByK cands) (c : BestTokenCandidate) :
    SortedByK (addCandidate topN cands c) ∧
      (∀ x ∈ addCandidate topN cands c, x ∈ cands ∨ x = c) ∧
      ∀ x, x ∈ cands ∨ x = c → ∃ y ∈ addCandidate topN cands c, y.k = x.k ∧ x.f ≤ y.f := by
  obtain ⟨u, m, v, rfl, hu, hm, hv⟩ := exists_parts h c.k
  obtain ⟨hsu, hsmv, -⟩ := List.pairwise_append.mp h
  obtain ⟨-, hsv, -⟩ := List.pairwise_append.mp hsmv
  obtain heq | ⟨l, x, r, rfl, ⟨hle, heq⟩ | ⟨hlt, heq⟩⟩ := addCandidate_cases htop hu hm hv
  · rw [heq]
    refine ⟨sortedByK_parts hsu hsv hu (List.forall_mem_cons.mpr ⟨rfl, hm⟩) hv, fun y hy => ?_,
      fun y hy => ⟨y, ?_, rfl, le_rfl⟩⟩
    · rcases List.mem_append.mp hy with hy | hy
      · exact Or.inl (List.mem_append_left _ hy)
      · rcases List.mem_cons.mp hy with rfl | hy
        · exact Or.inr rfl
        · exact Or.inl (List.mem_append_right _ hy)
    · rcases hy with hy | rfl
      · rcases List.mem_append.mp hy with hy | hy
        · exact List.mem_append_left _ hy
        · exact List.mem_append_right _ (List.mem_cons_of_mem c hy)
      · exact List.mem_append_right _ List.mem_cons_self
  · rw [heq]
    refine ⟨h, fun y hy => Or.inl hy, fun y hy => ?_⟩
    rcases hy with hy | rfl
    · exact ⟨y, hy, rfl, le_rfl⟩
    · exact ⟨x, by simp, hm x (by simp), hle⟩
  · rw [heq]
    have hpair : ∀ y ∈ l ++ c :: r, y.k = c.k := by
      intro y hy
      rcases List.mem_append.mp hy with hy | hy
      · exact hm y (List.mem_append_left _ hy)
      · rcases List.mem_cons.mp hy with rfl | hy
        · rfl
        · exact hm y (List.mem_append_right _ (List.mem_cons_of_mem x hy))
    have hmem : ∀ y, y ∈ u ++ ((l ++ c :: r) ++ v) ↔ y = c ∨ y ∈ u ++ ((l ++ r) ++ v) := by
      intro y
      simp only [List.mem_append, List.mem_cons]
      tauto
    have hold : ∀ y, y ∈ u ++ ((l ++ x :: r) ++ v) ↔ y = x ∨ y ∈ u ++ ((l ++ r) ++ v) := by
      intro y
      simp only [List.mem_append, List.mem_cons]
      tauto
    refine ⟨sortedByK_parts hsu hsv hu hpair hv, fun y hy => ?_, fun y hy => ?_⟩
    · rcases (hmem y).mp hy with rfl | hy
      · exact Or.inr rfl
      · exact Or.inl ((hold y).mpr (Or.inr hy))
    · rcases hy with hy | rfl
      · rcases (hold y).mp hy with rfl | hy
        · exact ⟨c, (hmem c).mpr (Or.inl rfl), (hm y (by simp)).symm, hlt.le⟩
        · exact ⟨y, (hmem y).mpr (Or.inr hy), rfl, le_rfl⟩
      · exact ⟨y, (hmem y).mpr (Or.inl rfl), rfl, le_rfl⟩

/-- Adding candidates one after another. -/
theorem foldl_addCandidate {topN : ℕ} (htop : 0 < topN) (cs : List BestTokenCandidate)
    (g : BestTokenCandidate → BestTokenCandidate) :
    ∀ table : List BestTokenCandidate, SortedByK table →
      SortedByK (cs.foldl (fun table c => addCandidate topN table (g c)) table) ∧
        (∀ x ∈ cs.foldl (fun table c => addCandidate topN table (g c)) table,
          x ∈ table ∨ ∃ c ∈ cs, x = g c) ∧
        ∀ x, (x ∈ table ∨ ∃ c ∈ cs, x = g c) →
          ∃ y ∈ cs.foldl (fun table c => addCandidate topN table (g c)) table,
            y.k = x.k ∧ x.f ≤ y.f := by
  induction cs with
  | nil =>
      refine fun table h => ⟨h, fun x hx => Or.inl hx, fun x hx => ?_⟩
      rcases hx with hx | ⟨c, hc, -⟩
      · exact ⟨x, hx, rfl, le_rfl⟩
      · cases hc
  | cons c cs ih =>
      intro table h
      obtain ⟨hsorted, hmem, hcovers⟩ := addCandidate_spec htop h (g c)
      obtain ⟨hsorted', hmem', hcovers'⟩ := ih _ hsorted
      refine ⟨hsorted', fun x hx => ?_, fun x hx => ?_⟩
      · rcases hmem' x hx with hx | ⟨c', hc', rfl⟩
        · exact (hmem x hx).imp_right (fun heq => ⟨c, List.mem_cons_self, heq⟩)
        · exact Or.inr ⟨c', List.mem_cons_of_mem c hc', rfl⟩
      · have hfirst : ∀ x, x ∈ table ∨ x = g c → ∃ y ∈ (c :: cs).foldl
            (fun table c => addCandidate topN table (g c)) table, y.k = x.k ∧ x.f ≤ y.f := by
          intro x hx
          obtain ⟨y, hy, hk, hf⟩ := hcovers x hx
          obtain ⟨z, hz, hk', hf'⟩ := hcovers' y (Or.inl hy)
          exact ⟨z, hz, hk'.trans hk, hf.trans hf'⟩
        rcases hx with hx | ⟨c', hc', rfl⟩
        · exact hfirst x (Or.inl hx)
        · rcases List.mem_cons.mp hc' with rfl | hc'
          · exact hfirst _ (Or.inr rfl)
          · exact hcovers' _ (Or.inr ⟨c', hc', rfl⟩)

/-! ### The tables of a text -/

section tables
variable (trie : DartsTrie) (chars : Str)

/-- The table has a candidate that is not worse than the tokens. -/
def Covers (table : List BestTokenCandidate) (tokens : List Str) : Prop :=
  ∃ c ∈ table, c.k = (candidateOf trie tokens).k ∧ (candidateOf trie tokens).f ≤ c.f

/-- The tables when the tokens from the positions before `i`, and those from `i` with less than `j`
characters, have been tried. -/
structure Tables (i j : ℕ) (dp : ℕ → List BestTokenCandidate) : Prop where
  sorted : ∀ p, SortedByK (dp p)
  sound : ∀ p, ∀ c ∈ dp p, Segmentation trie (chars.take p) c.tokens ∧
    c = candidateOf trie c.tokens
  root : Covers trie (dp 0) []
  covers : ∀ pre t, (∀ x ∈ pre ++ [t], IsToken trie x) → pre.flatten ++ t <+: chars →
    (pre.flatten.length < i ∨ (pre.flatten.length = i ∧ t.length < j)) →
    Covers trie (dp (pre.flatten.length + t.length)) (pre ++ [t])

variable {trie chars} {i j : ℕ} {dp : ℕ → List BestTokenCandidate}

/-- All segmentations up to the current position are covered. -/
theorem Tables.complete (h : Tables trie chars i j dp) {tokens : List Str}
    (htokens : ∀ x ∈ tokens, IsToken trie x) (hstarts : tokens.flatten <+: chars)
    (hlen : tokens.flatten.length = i) : Covers trie (dp i) tokens := by
  rcases List.eq_nil_or_concat tokens with rfl | ⟨pre, t, rfl⟩
  · rw [← hlen]
    exact h.root
  · rw [List.concat_eq_append] at htokens hstarts hlen ⊢
    rw [List.flatten_append, List.flatten_singleton] at hstarts hlen
    have ht := List.length_pos_iff.mpr (htokens t (by simp)).1
    rw [List.length_append] at hlen
    rw [← hlen]
    exact h.covers pre t htokens hstarts (Or.inl (by omega))

/-- The text goes on with the token after these. -/
theorem eq_of_prefix {pre : List Str} {t t' : Str} (hstarts : pre.flatten ++ t <+: chars)
    (ht' : t' <+: chars.drop pre.flatten.length) (hlen : t.length = t'.length) : t = t' := by
  obtain ⟨rest, hrest⟩ := hstarts
  rw [← hrest, List.append_assoc, List.drop_left] at ht'
  exact List.IsPrefix.eq_of_length (List.prefix_of_prefix_length_le (List.prefix_append t rest) ht'
    hlen.le) hlen

/-- **A token.**  When a token that starts at a position has been tried, the segmentations with it
are covered. -/
theorem addAll_spec {topN : ℕ} (htop : 0 < topN) (h : Tables trie chars i j dp) {t : Str}
    (htoken : IsToken trie t) (ht : t <+: chars.drop i) (hlen : t.length = j) :
    Tables trie chars i (j + 1)
      (addAll topN dp i (i + j) t (tokenFreq trie t) (if 2 ≤ j then 1 else 0)) := by
  obtain ⟨hsorted, hmem, hcovers⟩ := foldl_addCandidate htop (dp i)
    (fun c => c.update t (tokenFreq trie t) (if 2 ≤ j then 1 else 0)) (dp (i + j)) (h.sorted _)
  have hkeeps : ∀ p tokens, Covers trie (dp p) tokens →
      Covers trie (addAll topN dp i (i + j) t (tokenFreq trie t) (if 2 ≤ j then 1 else 0) p)
        tokens := by
    rintro p tokens ⟨c, hc, hk, hf⟩
    unfold addAll
    by_cases hp : p = i + j
    · rw [if_pos hp]
      rw [hp] at hc
      obtain ⟨y, hy, hk', hf'⟩ := hcovers c (Or.inl hc)
      exact ⟨y, hy, hk'.trans hk, hf.trans hf'⟩
    · rw [if_neg hp]
      exact ⟨c, hc, hk, hf⟩
  refine ⟨fun p => ?_, fun p c hc => ?_, hkeeps 0 [] h.root, fun pre t' htokens hstarts hpos => ?_⟩
  · unfold addAll
    by_cases hp : p = i + j
    · rw [if_pos hp]
      exact hsorted
    · rw [if_neg hp]
      exact h.sorted p
  · unfold addAll at hc
    by_cases hp : p = i + j
    · rw [if_pos hp] at hc
      rcases hmem c hc with hc | ⟨c', hc', rfl⟩
      · rw [hp]
        exact h.sound _ c hc
      · obtain ⟨hseg, heq⟩ := h.sound i c' hc'
        refine ⟨⟨?_, fun x hx => ?_⟩, ?_⟩
        · have htake : t = (chars.drop i).take j := by
            rw [← hlen]
            exact List.prefix_iff_eq_take.mp ht
          show (c'.tokens ++ [t]).flatten = chars.take p
          rw [hp, List.flatten_append, List.flatten_singleton, hseg.flatten, List.take_add, ← htake]
        · rcases List.mem_append.mp hx with hx | hx
          · exact hseg.isToken x hx
          · rw [List.mem_singleton.mp hx]
            exact htoken
        · show _ = candidateOf trie (c'.tokens ++ [t])
          rw [candidateOf_concat, ← heq, hlen]
    · rw [if_neg hp] at hc
      exact h.sound p c hc
  · by_cases hnew : pre.flatten.length = i ∧ t'.length = j
    · obtain ⟨hi, hj⟩ := hnew
      have heq : t' = t := eq_of_prefix hstarts (by rwa [hi]) (hj.trans hlen.symm)
      subst heq
      obtain ⟨c, hc, hk, hf⟩ := h.complete (fun x hx => htokens x (List.mem_append_left _ hx))
        ((List.prefix_append _ _).trans hstarts) hi
      obtain ⟨y, hy, hk', hf'⟩ := hcovers _ (Or.inr ⟨c, hc, rfl⟩)
      rw [hi, hj]
      unfold addAll
      rw [if_pos rfl]
      refine ⟨y, hy, hk'.trans ?_, ?_⟩
      · have hnl := Prod.mk.inj (toLex.injective hk)
        rw [candidateOf_concat, hlen]
        show toLex (c.n + 1, c.l + _) = toLex ((candidateOf trie pre).n + 1, _ + _)
        rw [hnl.1, hnl.2]
      · refine le_trans ?_ hf'
        rw [candidateOf_concat]
        exact Int.add_le_add_right hf _
    · refine hkeeps _ _ (h.covers pre t' htokens hstarts ?_)
      omega

/-- What has `j` characters there is no token. -/
theorem Tables.skip (h : Tables trie chars i j dp) {t : Str} (htoken : ¬ IsToken trie t)
    (ht : t <+: chars.drop i) (hlen : t.length = j) : Tables trie chars i (j + 1) dp := by
  refine ⟨h.sorted, h.sound, h.root, fun pre t' htokens hstarts hpos => ?_⟩
  refine h.covers pre t' htokens hstarts ?_
  by_cases hnew : pre.flatten.length = i ∧ t'.length = j
  · have heq : t' = t := eq_of_prefix hstarts (by rwa [hnew.1]) (hnew.2.trans hlen.symm)
    rw [heq] at htokens
    exact absurd (htokens t (by simp)) htoken
  · omega

/-- No token there has `j` characters or more. -/
theorem Tables.next (h : Tables trie chars i j dp)
    (hnone : ∀ t, IsToken trie t → t <+: chars.drop i → t.length < j) :
    Tables trie chars (i + 1) 1 dp := by
  refine ⟨h.sorted, h.sound, h.root, fun pre t htokens hstarts hpos => ?_⟩
  have htoken := htokens t (by simp)
  have ht := List.length_pos_iff.mpr htoken.1
  refine h.covers pre t htokens hstarts ?_
  by_cases hi : pre.flatten.length = i
  · refine Or.inr ⟨hi, hnone t htoken ?_⟩
    obtain ⟨rest, hrest⟩ := hstarts
    rw [← hrest, List.append_assoc, ← hi, List.drop_left]
    exact List.prefix_append t rest
  · omega

/-- **A position.**  The tokens that start at a position are tried. -/
theorem growFrom_spec {topN : ℕ} (htop : 0 < topN) (rest : Str) :
    ∀ (j : ℕ) (grown : Str) (dp : ℕ → List BestTokenCandidate), chars.drop i = grown ++ rest →
      grown.length + 1 = j → Tables trie chars i j dp →
      Tables trie chars (i + 1) 1 (growFrom trie topN i j grown rest dp) := by
  induction rest with
  | nil =>
      intro j grown dp hdrop hlen h
      rw [growFrom]
      refine h.next (fun t _ ht => ?_)
      rw [hdrop, List.append_nil] at ht
      have := ht.length_le
      omega
  | cons ch rest ih =>
      intro j grown dp hdrop hlen h
      have hlen' : (grown ++ [ch]).length = j := by
        rw [List.length_append, List.length_singleton]
        exact hlen
      have hdrop' : chars.drop i = (grown ++ [ch]) ++ rest := by
        rw [hdrop, List.append_assoc]
        rfl
      have ht : grown ++ [ch] <+: chars.drop i := by
        rw [hdrop']
        exact List.prefix_append _ rest
      have hrest := fun dp => ih (j + 1) (grown ++ [ch]) dp hdrop' (by rw [hlen'])
      rw [growFrom]
      dsimp only
      by_cases hget : trie.get (key (grown ++ [ch])) = -1
      · have hneg : ¬ 0 ≤ trie.traverse (key (grown ++ [ch])) := by
          unfold DartsTrie.traverse
          rw [hget]
          split_ifs <;> decide
        rw [if_neg hneg]
        have htried : Tables trie chars i (j + 1)
            (if j = 1 then addAll topN dp i (i + j) (grown ++ [ch]) (-12) 0 else dp) := by
          by_cases hj : j = 1
          · have htoken : IsToken trie (grown ++ [ch]) :=
              ⟨List.append_ne_nil_of_right_ne_nil _ (List.cons_ne_nil ch []),
                Or.inr (hlen'.trans hj)⟩
            have hadd := addAll_spec htop h htoken ht hlen'
            rw [tokenFreq, if_neg (not_not.mpr hget), if_neg (by omega)] at hadd
            rwa [if_pos hj]
          · rw [if_neg hj]
            refine h.skip (fun htoken => ?_) ht hlen'
            rcases htoken.2 with hword | hone
            · exact hword hget
            · exact hj (hlen'.symm.trans hone)
        by_cases hstop : trie.traverse (key (grown ++ [ch])) = -2
        · rw [if_pos hstop]
          refine htried.next (fun t htoken htprefix => ?_)
          -- a longer token would be a word that begins with what no word begins with
          by_contra hlong
          rcases htoken.2 with hword | hone
          · have hsub : grown ++ [ch] <+: t :=
              List.prefix_of_prefix_length_le ht htprefix (by omega)
            have hkeys := DartsTrie.hasKeysWithPrefix_of_get (hsub.map Char.toLower) hword
            unfold DartsTrie.traverse at hstop
            change trie.hasKeysWithPrefix (key (grown ++ [ch])) = true at hkeys
            rw [hkeys, if_pos rfl, hget] at hstop
            cases hstop
          · omega
        · rw [if_neg hstop]
          exact hrest _ htried
      · have htraverse := DartsTrie.traverse_of_get hget
        rw [htraverse, if_pos (DartsTrie.get_nonneg hget)]
        have htoken : IsToken trie (grown ++ [ch]) :=
          ⟨List.append_ne_nil_of_right_ne_nil _ (List.cons_ne_nil ch []), Or.inl hget⟩
        have hadd := addAll_spec htop h htoken ht hlen'
        rw [tokenFreq, if_pos hget] at hadd
        exact hrest _ hadd

/-- **The tables.**  All tokens of the text are tried. -/
theorem tables_spec (trie : DartsTrie) (chars : Str) {topN : ℕ} (htop : 0 < topN) (i : ℕ) :
    Tables trie chars i 1 (tablesUpTo trie topN chars i) := by
  induction i with
  | zero =>
      rw [tablesUpTo]
      refine ⟨fun p => ?_, fun p c hc => ?_, ⟨_, List.mem_singleton_self _, rfl, le_rfl⟩,
        fun pre t htokens _ hpos => ?_⟩
      · by_cases hp : p = 0
        · rw [if_pos hp]
          exact List.pairwise_singleton _ _
        · rw [if_neg hp]
          exact List.Pairwise.nil
      · by_cases hp : p = 0
        · rw [if_pos hp] at hc
          rw [List.mem_singleton.mp hc, hp, List.take_zero]
          exact ⟨⟨rfl, fun t ht => nomatch ht⟩, rfl⟩
        · rw [if_neg hp] at hc
          cases hc
      · have ht := List.length_pos_iff.mpr (htokens t (by simp)).1
        omega
  | succ i ih =>
      rw [tablesUpTo]
      exact growFrom_spec htop (chars.drop i) 1 [] _ rfl rfl ih

/-- The final candidates are segmentations, and they cover all of them. -/
theorem finalCandidates_spec (trie : DartsTrie) (chars : Str) {topN : ℕ} (htop : 0 < topN) :
    (∀ c ∈ finalCandidates trie topN chars, Segmentation trie chars c.tokens ∧
      c = candidateOf trie c.tokens) ∧
      ∀ tokens, Segmentation trie chars tokens →
        Covers trie (finalCandidates trie topN chars) tokens := by
  have h := tables_spec trie chars htop chars.length
  refine ⟨fun c hc => ?_, fun tokens htokens => ?_⟩
  · have hsound := h.sound chars.length c hc
    rwa [List.take_length] at hsound
  · refine h.complete htokens.isToken ?_ ?_
    · rw [htokens.flatten]
    · rw [htokens.flatten]

end tables

/-! ### Scores -/

section scores
variable (trie : DartsTrie)

/-- `F + (30 + L) / N` of the tokens. -/
def segScore (tokens : List Str) : ℚ := (candidateOf trie tokens).score

variable {trie}

theorem score_le {c c' : BestTokenCandidate} (hk : c.k = c'.k) (hf : c.f ≤ c'.f) :
    c.score ≤ c'.score := by
  obtain ⟨hn, hl⟩ := Prod.mk.inj (toLex.injective hk)
  unfold BestTokenCandidate.score
  rw [hn, hl]
  exact add_le_add (Int.cast_le.mpr hf) le_rfl

theorem decodeFreq_taggedBy {freq : Str → ℤ} {t : Str} {v : ℤ}
    (h : TaggedBy (trie.dict freq) t v) : decodeFreq v = tokenFreq trie t := by
  unfold tokenFreq
  rcases h with ⟨hget, rfl⟩ | ⟨-, hget, rfl⟩
  · have hget : trie.get (key t) ≠ -1 := hget
    rw [if_pos hget]
    rfl
  · have hget : trie.get (key t) = -1 := hget
    rw [if_neg (not_not.mpr hget)]
    rfl

/-- The score that `DFS` computes. -/
theorem scoreOf_eq {freq : Str → ℤ} {pre : List (Str × ℤ)}
    (h : ∀ x ∈ pre, TaggedBy (trie.dict freq) x.1 x.2) :
    scoreOf pre = segScore trie (pre.map Prod.fst) := by
  have hF : (pre.map (fun x => decodeFreq x.2)).sum =
      ((pre.map Prod.fst).map (tokenFreq trie)).sum := by
    rw [List.map_map]
    refine congrArg List.sum (List.map_congr_left (fun x hx => ?_))
    exact decodeFreq_taggedBy (h x hx)
  have hL : pre.countP (fun x => decide (¬ x.1.length < 2)) =
      (pre.map Prod.fst).countP (fun t => decide (2 ≤ t.length)) := by
    rw [List.countP_map]
    refine List.countP_congr (fun x _ => ?_)
    rw [Function.comp_apply, decide_eq_true_iff, decide_eq_true_iff]
    exact Nat.not_lt
  unfold scoreOf segScore BestTokenCandidate.score candidateOf
  dsimp only
  rw [hF, hL, List.length_map, ← add_div, add_comm]

/-- The best segmentation that `DFS` finds is one, and its score is known. -/
theorem segmentation_bestTokens (trie : DartsTrie) (freq : Str → ℤ) (chars : Str) :
    Segmentation trie chars (bestTokens (trie.dict freq) chars) ∧
      (search (trie.dict freq) chars false none).maxScore =
        some (segScore trie (bestTokens (trie.dict freq) chars)) := by
  have hP : KeptByTokens (trie.dict freq) chars (fun s pre => Cuts chars s (pre.map Prod.fst) ∧
      ∀ x ∈ pre, TaggedBy (trie.dict freq) x.1 x.2) := by
    intro s e pre v hse he hpre hv
    refine ⟨hpre.1.append hse he v, fun x hx => ?_⟩
    rcases List.mem_append.mp hx with hx | hx
    · exact hpre.2 x hx
    · rw [List.mem_singleton.mp hx]
      exact hv
  have hempty : Cuts chars 0 (([] : List (Str × ℤ)).map Prod.fst) :=
    ⟨rfl, fun t ht => absurd ht List.not_mem_nil⟩
  have hadd : ∀ (pre : List (Str × ℤ)) (found : Found ℚ),
      (Cuts chars chars.length (pre.map Prod.fst) ∧
        ∀ x ∈ pre, TaggedBy (trie.dict freq) x.1 x.2) →
      (∀ s, found.maxScore = some s → Segmentation trie chars found.bestTokens ∧
        s = segScore trie found.bestTokens) →
      (∀ s, (found.add (trie.dict freq) false pre).maxScore = some s →
        Segmentation trie chars (found.add (trie.dict freq) false pre).bestTokens ∧
          s = segScore trie (found.add (trie.dict freq) false pre).bestTokens) ∧
        (found.add (trie.dict freq) false pre).maxScore.isSome := by
    rintro pre found ⟨hcuts, htagged⟩ hfound
    unfold Found.add
    rw [if_neg Bool.false_ne_true]
    split
    · refine ⟨?_, rfl⟩
      rintro s ⟨⟩
      refine ⟨⟨by rw [hcuts.flatten, List.take_length], fun t ht => ⟨hcuts.ne_nil t ht, ?_⟩⟩,
        scoreOf_eq htagged⟩
      obtain ⟨x, hx, rfl⟩ := List.mem_map.mp ht
      exact (htagged x hx).imp (fun h => h.1) (fun h => h.1)
    · refine ⟨hfound, ?_⟩
      cases hscore : found.maxScore with
      | none => simp_all
      | some score => rfl
  obtain ⟨hbest, hsome⟩ := dfs_keeps hP
    (Q := fun found => ∀ s, found.maxScore = some s →
      Segmentation trie chars found.bestTokens ∧ s = segScore trie found.bestTokens)
    (R := fun found => found.maxScore.isSome) hadd (chars.length + 1) 0 [] ⟨[], [], none⟩
    (by omega) (Nat.zero_le _) ⟨hempty, fun x hx => nomatch hx⟩ (fun s hs => nomatch hs)
  obtain ⟨s, hs⟩ := Option.isSome_iff_exists.mp hsome
  obtain ⟨hseg, heq⟩ := hbest s hs
  exact ⟨hseg, by rw [heq] at hs; exact hs⟩

/-- There is a segmentation, into single characters. -/
theorem segmentation_singletons (trie : DartsTrie) (chars : Str) :
    Segmentation trie chars (chars.map ([·])) := by
  refine ⟨?_, fun t ht => ?_⟩
  · induction chars with
    | nil => rfl
    | cons c chars ih => rw [List.map_cons, List.flatten_cons, ih]; rfl
  · obtain ⟨c, -, rfl⟩ := List.mem_map.mp ht
    exact ⟨List.cons_ne_nil c [], Or.inr rfl⟩

/-- **Optimality.**  The one result is a segmentation with the greatest score of all, and so its
score is at least that of the best that `DFS` finds. -/
theorem getBestTokensTopN_optimal (trie : DartsTrie) (freq : Str → ℤ) (chars : Str) :
    ∃ tokens, getBestTokensTopN BestTokenCandidate.score trie chars 1 =
        [(tokens, segScore trie tokens)] ∧
      Segmentation trie chars tokens ∧
      (∀ tokens', Segmentation trie chars tokens' → segScore trie tokens' ≤ segScore trie tokens) ∧
      (search (trie.dict freq) chars false none).maxScore.all (· ≤ segScore trie tokens) := by
  obtain ⟨hsound, hcovers⟩ := finalCandidates_spec trie chars Nat.one_pos
  have hfront : InFront Prod.snd 1 (finalScores BestTokenCandidate.score trie chars 1) := by
    unfold InFront
    cases finalScores BestTokenCandidate.score trie chars 1 with
    | nil => exact List.Pairwise.nil
    | cons x xs =>
        rw [List.take_succ_cons, List.take_zero]
        exact List.pairwise_singleton _ _
  obtain ⟨rest, hperm, hlength, -, hleft⟩ := ranked_of_inFront hfront
  have hmem : ∀ tokens, Segmentation trie chars tokens →
      ∃ x ∈ finalScores BestTokenCandidate.score trie chars 1, segScore trie tokens ≤ x.2 := by
    intro tokens htokens
    obtain ⟨c, hc, hk, hf⟩ := hcovers tokens htokens
    exact ⟨_, List.mem_map_of_mem hc, score_le hk.symm hf⟩
  obtain ⟨x, hx, -⟩ := hmem _ (segmentation_singletons trie chars)
  have hone : (getBestTokensTopN BestTokenCandidate.score trie chars 1).length = 1 := by
    have := List.length_pos_of_mem hx
    unfold getBestTokensTopN
    omega
  obtain ⟨best, hbest⟩ := List.length_eq_one_iff.mp hone
  have hselected : selectBest Prod.snd 1 (finalScores BestTokenCandidate.score trie chars 1) =
      [best] := hbest
  rw [hselected] at hperm hleft
  obtain ⟨c, hc, hcbest⟩ := List.mem_map.mp (hperm.subset List.mem_cons_self)
  obtain ⟨hseg, heq⟩ := hsound c hc
  have hscore : best = (c.tokens, segScore trie c.tokens) := by
    rw [← hcbest, segScore, ← heq]
  have hmax : ∀ tokens, Segmentation trie chars tokens →
      segScore trie tokens ≤ segScore trie c.tokens := by
    intro tokens htokens
    obtain ⟨y, hy, hle⟩ := hmem tokens htokens
    refine hle.trans ?_
    rw [hscore] at hperm hleft
    rcases List.mem_cons.mp (hperm.symm.subset hy) with rfl | hy
    · exact le_rfl
    · exact hleft _ List.mem_cons_self y hy
  refine ⟨c.tokens, by rw [hbest, hscore], hseg, hmax, ?_⟩
  obtain ⟨hdfs, hdfsScore⟩ := segmentation_bestTokens trie freq chars
  rw [hdfsScore]
  exact decide_eq_true (hmax _ hdfs)

end scores

/-! ### Ranking -/

/-- **Ranking.**  The results are in order and the best if those of the first `n` final candidates
that are better than one before them are beaten by `n` candidates; if no two scores are equal, only
then; and in any case only if `n` others are as good as these. -/
theorem getBestTokensTopN_ranked {S : Type} [LinearOrder S] (score : BestTokenCandidate → S)
    (trie : DartsTrie) (chars : Str) (n : ℕ) :
    (InFront Prod.snd n (finalScores score trie chars n) →
      Ranked Prod.snd n (finalScores score trie chars n) (getBestTokensTopN score trie chars n)) ∧
    (((finalScores score trie chars n).map Prod.snd).Nodup →
      (Ranked Prod.snd n (finalScores score trie chars n) (getBestTokensTopN score trie chars n) ↔
        InFront Prod.snd n (finalScores score trie chars n))) ∧
    (Ranked Prod.snd n (finalScores score trie chars n) (getBestTokensTopN score trie chars n) →
      ((finalScores score trie chars n).take n).Pairwise (fun a b => a.2 < b.2 →
        n < (finalScores score trie chars n).countP (fun c => b.2 ≤ c.2))) :=
  ⟨ranked_of_inFront, ranked_iff_of_nodup, lt_countP_of_ranked⟩

/-- A word that is less frequent than its two characters. -/
def rareWord : DartsTrie := ⟨[("ab".toList, 13 + 2 ^ 23), ("a".toList, 2), ("b".toList, 2)]⟩

theorem rareWord_not_ranked :
    ¬ Ranked Prod.snd 2 (finalScores BestTokenCandidate.score rareWord "ab".toList 2)
      (getBestTokensTopN BestTokenCandidate.score rareWord "ab".toList 2) := by
  rintro ⟨-, -, -, hsorted, -⟩
  have hbest : getBestTokensTopN BestTokenCandidate.score rareWord "ab".toList 2 =
      [(["ab".toList], 18), (["a".toList, "b".toList], 19)] := by
    decide +kernel
  rw [hbest] at hsorted
  have hle := List.rel_of_pairwise_cons hsorted (List.mem_singleton_self _)
  exact absurd hle (by decide)

end RagFlow.Analyzer
