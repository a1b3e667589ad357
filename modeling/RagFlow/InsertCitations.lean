import RagFlow.Binary64
import RagFlow.Dict
import RagFlow.JsonText
import RagFlow.Literals

/-! # Citations in an answer

`Dealer.insert_citations` of `rag/nlp/search.py` puts marks after the pieces of an answer that are
similar to the chunks it was made from.

* **Pieces.** The answer is cut at its fences; a fenced block is one piece with a line break after
  it, the text between blocks is cut at the ends of sentences (`pieces`).  The first character of
  such an end goes to the piece before it (`glue`).
* **Similarity.** Embeddings, tokens and similarities are arbitrary, scores need not be ordered.
* **Marks.** `rebuild` puts the pieces together again, with the citations of each after it.
* **Parts.** The result is made of texts, blocks and marks (`Part`); `outline` forgets the marks.
  `insertCitations_spec`: the outline is that of the answer, so that a mark never stands in a block,
  and the marks are the citations that are returned. -/

namespace RagFlow.Citations

open Py Nlp

/-! ### Pieces -/

def fence : Str := "\x60\x60\x60".toList

/-- `[；。？!！،؛؟۔\n]`. -/
def isStop (c : Char) : Bool := c ∈ ['；', '。', '？', '!', '！', '،', '؛', '؟', '۔', '\n']

/-- `[a-z\u0600-\u06FF]`. -/
def isLetter (c : Char) : Bool :=
  ('a' ≤ c && c ≤ 'z') || (0x600 ≤ c.toNat && c.toNat ≤ 0x6FF)

/-- `[.?;!،؛؟]`. -/
def isEnd (c : Char) : Bool := c ∈ ['.', '?', ';', '!', '،', '؛', '؟']

/-- The match of the sentence boundary at the start of a text. -/
def boundary : Str → Option Str
  | a :: b :: rest =>
      if a ≠ '|' ∧ isStop b then some [a, b]
      else
        match rest with
        | c :: _ =>
            if isLetter a ∧ isEnd b ∧ (c = ' ' ∨ c = '\n') then some [a, b, c] else none
        | [] => none
  | _ => none

/-- `re.split` at the sentence boundaries, from the position after `skip` characters, `cur` being
the part read so far in reverse. -/
def sentencesFrom : ℕ → Str → Str → List Str
  | _, cur, [] => [cur.reverse]
  | skip + 1, cur, _ :: s => sentencesFrom skip cur s
  | 0, cur, c :: s =>
      match boundary (c :: s) with
      | some d => cur.reverse :: d :: sentencesFrom (d.length - 1) [] s
      | none => sentencesFrom 0 (c :: cur) s

def sentences (s : Str) : List Str := sentencesFrom 0 [] s

/-- The loop over the pieces between fences; in a block, the block so far is given. -/
def fencedPieces : Option Str → List Str → List Str
  | none, [] => []
  | none, p :: ps =>
      if p = fence then fencedPieces (some p) ps else sentences p ++ fencedPieces none ps
  | some block, [] => [block ++ ['\n']]
  | some block, p :: ps =>
      if p = fence then (block ++ p ++ ['\n']) :: fencedPieces none ps
      else fencedPieces (some (block ++ p)) ps

/-- The pieces of an answer. -/
def pieces (answer : Str) : List Str :=
  let split := reSplit [fence] answer
  if 3 ≤ split.length then fencedPieces none split else sentences answer

/-- The loop that moves the first character of a boundary to the piece before it, from the piece `p`
on. -/
def glueFrom (p : Str) : List Str → List Str
  | [] => [p]
  | q :: rest =>
      if (boundary q).isSome then (p ++ q.take 1) :: glueFrom (q.drop 1) rest
      else p :: glueFrom q rest

def glue : List Str → List Str
  | [] => []
  | p :: ps => glueFrom p ps

/-! ### Similarity -/

/-- What is taken from elsewhere: the embedding model, `tokenize(rmWWW(s)).split()`,
`hybrid_similarity` with its weights, the arithmetic of scores, and the order in which a set is
listed. -/
structure Scoring (Score : Type) where
  encode : List Str → List (List Score)
  length_encode : ∀ texts, (encode texts).length = texts.length
  tokens : Str → List Str
  hybridSimilarity : List Score → List (List Score) → List Str → List (List Str) → Score → Score →
    List Score
  length_hybridSimilarity : ∀ avec bvecs atks btkss tkweight vtweight,
    (hybridSimilarity avec bvecs atks btkss tkweight vtweight).length = bvecs.length
  double : ℚ → Score
  max : List Score → Score
  mul : Score → Score → Score
  lt : Score → Score → Bool
  setOrder : List ℕ → List ℕ
  setOrder_perm : ∀ xs, (setOrder xs).Perm xs

/-- The double of a literal. -/
def literal (q : ℚ) : ℚ := Binary64.nearest q

/-- The values of `thr` in the loop: `thr *= 0.8` while `thr > 0.3`. -/
def thresholds : List ℚ :=
  (List.iterate (fun thr => Binary64.nearest (thr * literal (8 / 10))) (literal (63 / 100))
    8).takeWhile (literal (3 / 10) < ·)

example : thresholds.length = 4 := by decide +kernel

section
variable {Score : Type} (env : Scoring Score)

/-- A vector of another dimension is replaced by zeros. -/
def resized (dim : ℕ) (v : List Score) : List Score :=
  if dim ≠ v.length then List.replicate dim (env.double 0) else v

/-- The chunks whose similarity is close to the greatest, at most four. -/
def picks (n : ℕ) (sim : List Score) (mx : Score) : List ℕ :=
  (env.setOrder ((List.range n).filter (fun ii => (sim[ii]?).any (env.lt mx)))).take 4

/-- One round of the loop over thresholds: `cites` by the indices of the pieces. -/
def citesAt (chunkV : List (List Score)) (chunksTks : List (List Str)) (tkweight vtweight : Score)
    (pieces : List ((ℕ × Str) × List Score)) (thr : ℚ) : List (ℕ × List ℕ) :=
  pieces.filterMap (fun p =>
    let sim := env.hybridSimilarity p.2 chunkV (env.tokens p.1.2) chunksTks tkweight vtweight
    let mx := env.mul (env.max sim) (env.double (literal (99 / 100)))
    if env.lt mx (env.double thr) then none else some (p.1.1, picks env chunkV.length sim mx))

/-- The loop goes on while there are no citations. -/
def firstCites (round : ℚ → List (ℕ × List ℕ)) : List ℚ → List (ℕ × List ℕ)
  | [] => []
  | thr :: rest => if round thr = [] then firstCites round rest else round thr

/-! ### The result -/

/-- A citation in the result. -/
def mark (c : ℕ) : Str := " [ID:".toList ++ natText c ++ "]".toList

/-- The loop over the citations of a piece; `seted` has those that are in the result. -/
def addMarks : List ℕ → Str × List ℕ → Str × List ℕ
  | [], out => out
  | c :: cs, (res, seted) =>
      if c ∈ seted then addMarks cs (res, seted) else addMarks cs (res ++ mark c, seted ++ [c])

/-- The last loop, from the piece with index `i` on; `none` is AssertionError. -/
def rebuild (n : ℕ) (idx : List ℕ) (cites : List (ℕ × List ℕ)) :
    ℕ → List Str → Str × List ℕ → Option (Str × List ℕ)
  | _, [], out => some out
  | i, p :: ps, (res, seted) =>
      if i ∉ idx then rebuild n idx cites (i + 1) ps (res ++ p, seted)
      else
        match cites.lookup i with
        | none => rebuild n idx cites (i + 1) ps (res ++ p, seted)
        | some cs =>
            if cs.all (· < n) then rebuild n idx cites (i + 1) ps (addMarks cs (res ++ p, seted))
            else none

/-- `insert_citations`: the answer with marks, and the cited chunks; `none` is AssertionError.  The
set of the cited chunks has their indices, where the code has the decimal texts of these. -/
def insertCitations (answer : Str) (chunks : List Str) (chunkV : List (List Score))
    (tkweight vtweight : Score) : Option (Str × List ℕ) :=
  if chunks.length ≠ chunkV.length then none
  else if chunks = [] then some (answer, [])
  else
    let pieces := glue (pieces answer)
    let long := (pieces.zipIdx.map (fun p => (p.2, p.1))).filter (fun p => ¬ p.2.length < 5)
    if long = [] then some (answer, [])
    else
      let ansV := env.encode (long.map Prod.snd)
      let dim := (ansV.headD []).length
      let chunkV := chunkV.map (resized env dim)
      if dim ≠ (chunkV.headD []).length then none
      else
        let chunksTks := chunks.map env.tokens
        let cites := firstCites (citesAt env chunkV chunksTks tkweight vtweight (long.zip ansV))
          thresholds
        rebuild chunkV.length (long.map Prod.fst) cites 0 pieces ([], [])

end

/-! ### Parts of a result -/

/-- A part of the result. -/
inductive Part where
  | text (s : Str)
  | block (s : Str)
  | mark (c : ℕ)
deriving DecidableEq

/-- A part in the result; there may be a line break after a block. -/
def Part.str (lineBreak : Bool) : Part → Str
  | text s => s
  | block s => if lineBreak then s ++ ['\n'] else s
  | mark c => Citations.mark c

/-- What a part has of the answer. -/
def Part.erased : Part → Str
  | text s => s
  | block s => s
  | mark _ => []

def Part.citation? : Part → Option ℕ
  | mark c => some c
  | _ => none

/-- The result. -/
def render (lineBreak : Bool) (ps : List Part) : Str := ps.flatMap (Part.str lineBreak)

/-- The result without what was inserted. -/
def erase (ps : List Part) : Str := ps.flatMap Part.erased

/-- The citations, in their order. -/
def cited (ps : List Part) : List ℕ := ps.filterMap Part.citation?

/-- The text before the first block, and each block with the text after it. -/
def outline : List Part → Str × List (Str × Str)
  | [] => ([], [])
  | .text s :: ps => (s ++ (outline ps).1, (outline ps).2)
  | .block s :: ps => ([], (s, (outline ps).1) :: (outline ps).2)
  | .mark _ :: ps => outline ps

/-- The blocks, with the texts after them, of what stands after a fence and between fences.  A block
that is not closed goes on to the end. -/
def blocks : List Str → List (Str × Str)
  | [] => []
  | [b] => [(fence ++ b, [])]
  | b :: t :: rest => (fence ++ b ++ fence, t) :: blocks rest

/-- The text of an answer before its first fenced block, and each block with the text after it. -/
def answerOutline (answer : Str) : Str × List (Str × Str) :=
  match kept [fence] (reSplit [fence] answer) with
  | [] => ([], [])
  | t :: rest => (t, blocks rest)

/-! ### Sentences -/

theorem sentencesFrom_skip (k : ℕ) (cur s : Str) :
    sentencesFrom k cur s = sentencesFrom 0 cur (s.drop k) := by
  induction k generalizing s with
  | zero => rfl
  | succ k ih =>
      cases s with
      | nil => rfl
      | cons c s => rw [sentencesFrom, ih, List.drop_succ_cons]

/-- A boundary has at least two characters, and is there whatever follows it. -/
theorem boundary_spec {s d : Str} (h : boundary s = some d) :
    ∃ a b t rest, d = a :: b :: t ∧ s = d ++ rest := by
  unfold boundary at h
  split at h
  next a b rest =>
    split at h
    next =>
      cases h
      exact ⟨a, b, [], rest, rfl, rfl⟩
    next =>
      split at h
      next c rest =>
        split at h
        next =>
          cases h
          exact ⟨a, b, [c], rest, rfl, rfl⟩
        next => cases h
      next => cases h
  next => cases h

theorem boundary_append {s : Str} (h : (boundary s).isSome) (t : Str) :
    (boundary (s ++ t)).isSome := by
  match s with
  | [] => cases h
  | [a] => cases h
  | a :: b :: rest =>
      unfold boundary at h
      show (boundary (a :: b :: (rest ++ t))).isSome
      unfold boundary
      dsimp only at h ⊢
      by_cases hstop : a ≠ '|' ∧ isStop b
      · rw [if_pos hstop]
        rfl
      · rw [if_neg hstop] at h ⊢
        cases rest with
        | nil => cases h
        | cons c rest => exact h

theorem flatten_sentencesFrom (s : Str) : ∀ cur,
    (sentencesFrom 0 cur s).flatten = cur.reverse ++ s := by
  induction hn : s.length using Nat.strong_induction_on generalizing s with
  | _ n ih =>
      intro cur
      cases s with
      | nil =>
          rw [sentencesFrom, List.append_nil]
          exact List.append_nil _
      | cons c s =>
          rw [List.length_cons] at hn
          rw [sentencesFrom]
          cases hd : boundary (c :: s) with
          | none =>
              show (sentencesFrom 0 (c :: cur) s).flatten = _
              rw [ih s.length (by omega) s rfl, List.reverse_cons, List.append_assoc]
              rfl
          | some d =>
              obtain ⟨a, b, t, rest, rfl, hs⟩ := boundary_spec hd
              rw [List.cons_append] at hs
              obtain ⟨rfl, rfl⟩ := List.cons.inj hs
              show cur.reverse ++ ((c :: b :: t) ++
                (sentencesFrom (b :: t).length [] (b :: t ++ rest)).flatten) = _
              rw [List.length_append] at hn
              rw [sentencesFrom_skip, List.drop_left, ih rest.length (by omega) rest rfl]
              rfl

theorem flatten_sentences (s : Str) : (sentences s).flatten = s := flatten_sentencesFrom s []

theorem head_sentencesFrom (s : Str) : ∀ cur, ∃ t ts,
    sentencesFrom 0 cur s = (cur.reverse ++ t) :: ts ∧ t <+: s ∧ (t ≠ [] → boundary s = none) := by
  induction s with
  | nil =>
      intro cur
      exact ⟨[], [], by rw [sentencesFrom, List.append_nil], List.prefix_rfl, fun h => absurd rfl h⟩
  | cons c s ih =>
      intro cur
      rw [sentencesFrom]
      cases hd : boundary (c :: s) with
      | none =>
          obtain ⟨t, ts, hsplit, hpre, -⟩ := ih (c :: cur)
          refine ⟨c :: t, ts, ?_, List.cons_prefix_cons.mpr ⟨rfl, hpre⟩, fun _ => rfl⟩
          show sentencesFrom 0 (c :: cur) s = _
          rw [hsplit, List.reverse_cons, List.append_assoc]
          rfl
      | some d =>
          exact ⟨[], _, by rw [List.append_nil], List.nil_prefix, fun h => absurd rfl h⟩

/-- The first piece of a text does not start with a boundary. -/
theorem head_sentences (s : Str) : ∃ t ts, sentences s = t :: ts ∧ boundary t = none := by
  obtain ⟨t, ts, hsplit, ⟨rest, hrest⟩, hnone⟩ := head_sentencesFrom s []
  refine ⟨t, ts, hsplit, ?_⟩
  by_cases ht : t = []
  · rw [ht]
    rfl
  · rw [Option.eq_none_iff_forall_ne_some]
    intro d hd
    have hsome := boundary_append (Option.isSome_iff_exists.mpr ⟨d, hd⟩) rest
    rw [hrest, hnone ht] at hsome
    cases hsome

/-! ### The parts of the answer -/

/-- The pieces between fences as parts, as `fencedPieces` goes through them. -/
def partsOf : Option Str → List Str → List Part
  | none, [] => []
  | none, p :: ps =>
      if p = fence then partsOf (some p) ps else (sentences p).map .text ++ partsOf none ps
  | some block, [] => [.block block]
  | some block, p :: ps =>
      if p = fence then .block (block ++ p) :: partsOf none ps else partsOf (some (block ++ p)) ps

theorem map_partsOf (o : Option Str) (ps : List Str) :
    (partsOf o ps).map (Part.str true) = fencedPieces o ps := by
  have hsentences : ∀ t : Str, ((sentences t).map Part.text).map (Part.str true) = sentences t := by
    intro t
    rw [List.map_map]
    exact List.map_id _
  fun_induction fencedPieces o ps with
  | case1 => rfl
  | case2 ps ih => rw [partsOf, if_pos rfl, ih]
  | case3 p ps hp ih => rw [partsOf, if_neg hp, List.map_append, hsentences, ih]
  | case4 block => rfl
  | case5 block ps ih =>
      rw [partsOf, if_pos rfl, List.map_cons, ih]
      rfl
  | case6 block p ps hp ih => rw [partsOf, if_neg hp, ih]

/-- The pieces with a fence before each but the first. -/
def fenced (t : Str) (ks : List Str) : List Str := t :: ks.flatMap (fun k => [fence, k])

theorem fence_ne_nil : ∀ d ∈ [fence], d ≠ [] := by decide

theorem reSplit_fence (answer : Str) : ∃ t ks, reSplit [fence] answer = fenced t ks ∧
    kept [fence] (reSplit [fence] answer) = t :: ks ∧ ∀ k ∈ t :: ks, k ≠ fence := by
  induction answer using reSplit_induction fence_ne_nil with
  | rest s hstart =>
      have hs := hstart.not_mem fence_ne_nil
      refine ⟨s, [], rfl, kept_cons_of_not_mem hs [], fun k hk => ?_⟩
      rw [List.mem_singleton.mp hk]
      exact fun h => hs (List.mem_singleton.mpr h)
  | next before d after hd hfind hstart ih =>
      obtain ⟨t, ks, hsplit, hkept, hks⟩ := ih
      have hbefore := hstart.not_mem fence_ne_nil
      refine ⟨before, t :: ks, ?_, ?_, List.forall_mem_cons.mpr ⟨?_, hks⟩⟩
      · rw [hsplit, List.mem_singleton.mp hd]
        rfl
      · rw [kept_cons_of_not_mem hbefore, kept_cons_of_mem hd, hkept]
      · exact fun h => hbefore (List.mem_singleton.mpr h)

theorem answerOutline_eq {answer t : Str} {ks : List Str}
    (h : kept [fence] (reSplit [fence] answer) = t :: ks) :
    answerOutline answer = (t, blocks ks) := by
  unfold answerOutline
  rw [h]

theorem outline_texts (ts : List Str) (ps : List Part) :
    outline (ts.map .text ++ ps) = (ts.flatten ++ (outline ps).1, (outline ps).2) := by
  induction ts with
  | nil => rfl
  | cons t ts ih =>
      rw [List.map_cons, List.cons_append, outline, ih, List.flatten_cons, List.append_assoc]

theorem outline_cons_congr {ps qs : List Part} (p : Part) (h : outline qs = outline ps) :
    outline (p :: qs) = outline (p :: ps) := by
  cases p with
  | text s => rw [outline, h, outline]
  | block s => rw [outline, h, outline]
  | mark c => rw [outline, h, outline]

theorem cited_cons_congr {ps qs : List Part} (p : Part) (h : cited qs = cited ps) :
    cited (p :: qs) = cited (p :: ps) := by
  cases p with
  | text s => exact h
  | block s => exact h
  | mark c => exact congrArg (c :: ·) h

/-- A part in front that is no mark. -/
theorem uncited_cons {p : Part} {ps : List Part} (h : cited (p :: ps) = []) :
    cited ps = [] ∧ ∀ qs, cited (p :: qs) = cited qs := by
  cases p with
  | text s => exact ⟨h, fun _ => rfl⟩
  | block s => exact ⟨h, fun _ => rfl⟩
  | mark c => cases h

/-- The texts and blocks of an outline. -/
def joined (o : Str × List (Str × Str)) : Str := o.1 ++ o.2.flatMap (fun b => b.1 ++ b.2)

/-- Without the marks, a result is what its outline has. -/
theorem erase_eq_joined (ps : List Part) : erase ps = joined (outline ps) := by
  induction ps with
  | nil => rfl
  | cons p ps ih =>
      show p.erased ++ erase ps = _
      rw [ih]
      cases p with
      | text s => exact (List.append_assoc _ _ _).symm
      | block s => exact (List.append_assoc _ _ _).symm
      | mark c => rfl

theorem flatten_blocks : ∀ ks : List Str,
    (blocks ks).flatMap (fun b => b.1 ++ b.2) = (ks.flatMap (fun k => [fence, k])).flatten
  | [] => rfl
  | [b] => by
      rw [blocks, List.flatMap_singleton, List.append_nil]
      show fence ++ b = fence ++ (b ++ [])
      rw [List.append_nil]
  | b :: t :: rest => by
      rw [blocks, List.flatMap_cons, flatten_blocks rest]
      show fence ++ b ++ fence ++ t ++ (rest.flatMap (fun k => [fence, k])).flatten =
        fence ++ (b ++ (fence ++ (t ++ (rest.flatMap (fun k => [fence, k])).flatten)))
      rw [List.append_assoc, List.append_assoc, List.append_assoc]

/-- The outline of an answer has all of it. -/
theorem joined_answerOutline (answer : Str) : joined (answerOutline answer) = answer := by
  obtain ⟨t, ks, hsplit, hkept, -⟩ := reSplit_fence answer
  have hflatten := flatten_reSplit fence_ne_nil answer
  rw [hsplit] at hflatten
  rw [answerOutline_eq hkept]
  unfold joined
  rw [flatten_blocks]
  exact hflatten

/-! ### Neighbours -/

/-- Only a text goes on from the text before it. -/
def Separate (p q : Part) : Prop :=
  (boundary (q.str true)).isSome → (∃ s, p = .text s) ∧ ∃ s, q = .text s

/-- The parts of an answer, or of what follows a text. -/
def Apart (ps : List Part) : Prop :=
  ps.IsChain Separate ∧ ∀ q ∈ ps.head?, boundary (q.str true) = none

/-- A block starts with no boundary. -/
theorem boundary_block (b : Str) : boundary ((Part.block (fence ++ b)).str true) = none := by
  show boundary ('\x60' :: '\x60' :: '\x60' :: (b ++ ['\n'])) = none
  unfold boundary
  dsimp only
  rw [if_neg (by decide), if_neg (by decide)]

theorem apart_nil : Apart [] := ⟨List.IsChain.nil, fun _ h => by cases h⟩

theorem apart_block {ps : List Part} (h : Apart ps) (b : Str) :
    Apart (.block (fence ++ b) :: ps) := by
  obtain ⟨hchain, hhead⟩ := h
  refine ⟨hchain.cons (fun q hq hsome => ?_), fun q hq => ?_⟩
  · rw [hhead q hq] at hsome
    cases hsome
  · cases hq
    exact boundary_block b

theorem apart_sentences {ps : List Part} (h : Apart ps) (t : Str) :
    Apart ((sentences t).map .text ++ ps) := by
  obtain ⟨hchain, hhead⟩ := h
  obtain ⟨u, us, hsplit, hu⟩ := head_sentences t
  refine ⟨List.IsChain.append ?_ hchain (fun p _ q hq hsome => ?_), fun q hq => ?_⟩
  · rw [List.isChain_map]
    exact (List.pairwise_of_forall (fun a b _ => ⟨⟨a, rfl⟩, b, rfl⟩)).isChain
  · rw [hhead q hq] at hsome
    cases hsome
  · rw [hsplit] at hq
    cases hq
    exact hu

theorem partsOf_text {t : Str} (ht : t ≠ fence) (ps : List Str) :
    partsOf none (t :: ps) = (sentences t).map .text ++ partsOf none ps := by
  rw [partsOf, if_neg ht]

theorem partsOf_open {b : Str} (hb : b ≠ fence) (ps : List Str) :
    partsOf none (fence :: b :: ps) = partsOf (some (fence ++ b)) ps := by
  rw [partsOf, if_pos rfl, partsOf, if_neg hb]

theorem partsOf_close (block : Str) (ps : List Str) :
    partsOf (some block) (fence :: ps) = .block (block ++ fence) :: partsOf none ps := by
  rw [partsOf, if_pos rfl]

theorem cited_texts (ts : List Str) (ps : List Part) : cited (ts.map .text ++ ps) = cited ps := by
  induction ts with
  | nil => rfl
  | cons t ts ih => exact ih

/-- What is made of the pieces of an answer. -/
theorem partsOf_spec : ∀ (ks : List Str) (t : Str), (∀ k ∈ t :: ks, k ≠ fence) →
    outline (partsOf none (fenced t ks)) = (t, blocks ks) ∧ Apart (partsOf none (fenced t ks)) ∧
      cited (partsOf none (fenced t ks)) = []
  | [], t, h => by
      have hparts : partsOf none (fenced t []) = (sentences t).map .text ++ [] :=
        partsOf_text (h t List.mem_cons_self) []
      rw [hparts, outline_texts, flatten_sentences, cited_texts]
      refine ⟨?_, apart_sentences apart_nil t, rfl⟩
      rw [outline, List.append_nil]
      rfl
  | [b], t, h => by
      obtain ⟨ht, hb, -⟩ := List.forall_mem_cons.mp h |>.imp_right List.forall_mem_cons.mp
      have hparts : partsOf none (fenced t [b]) =
          (sentences t).map .text ++ [.block (fence ++ b)] := by
        show partsOf none (t :: fence :: b :: []) = _
        rw [partsOf_text ht, partsOf_open hb]
        rfl
      rw [hparts, outline_texts, flatten_sentences, cited_texts]
      refine ⟨?_, apart_sentences (apart_block apart_nil b) t, rfl⟩
      rw [outline, outline, List.append_nil]
      rfl
  | b :: u :: rest, t, h => by
      obtain ⟨ht, hb, hrest⟩ := List.forall_mem_cons.mp h |>.imp_right List.forall_mem_cons.mp
      have hparts : partsOf none (fenced t (b :: u :: rest)) = (sentences t).map .text ++
          .block (fence ++ b ++ fence) :: partsOf none (fenced u rest) := by
        show partsOf none (t :: fence :: b :: fence :: fenced u rest) = _
        rw [partsOf_text ht, partsOf_open hb, partsOf_close]
      obtain ⟨houtline, hapart, hcited⟩ := partsOf_spec rest u hrest
      rw [hparts, outline_texts, flatten_sentences, cited_texts, outline, houtline]
      refine ⟨?_, apart_sentences (by rw [List.append_assoc]; exact apart_block hapart _) t, hcited⟩
      rw [List.append_nil]
      rfl

/-! ### Moving a character -/

/-- A character that is moved from a text to the text before it leaves the outline as it is. -/
theorem glueFrom_spec (ps : List Part) : ∀ p : Part, (p :: ps).IsChain Separate →
    ∃ qs, glueFrom (p.str true) (ps.map (Part.str true)) = qs.map (Part.str true) ∧
      outline qs = outline (p :: ps) ∧ cited qs = cited (p :: ps) := by
  induction ps with
  | nil => exact fun p _ => ⟨[p], rfl, rfl, rfl⟩
  | cons q ps ih =>
      intro p hchain
      obtain ⟨hpq, hrest⟩ := List.isChain_cons_cons.mp hchain
      rw [List.map_cons, glueFrom]
      by_cases hsome : (boundary (q.str true)).isSome
      · obtain ⟨⟨a, rfl⟩, b, rfl⟩ := hpq hsome
        have hchain' : (Part.text (b.drop 1) :: ps).IsChain Separate := by
          refine hrest.tail.cons (fun r hr hsome' => ?_)
          exact ⟨⟨_, rfl⟩, (hrest.rel_head? hr hsome').2⟩
        obtain ⟨qs, hglue, houtline, hcited⟩ := ih (.text (b.drop 1)) hchain'
        refine ⟨.text (a ++ b.take 1) :: qs, ?_, ?_, hcited⟩
        · rw [if_pos hsome, List.map_cons, ← hglue]
          rfl
        · rw [outline, houtline, outline, outline, outline]
          dsimp only
          rw [← List.append_assoc, List.append_assoc a, List.take_append_drop, List.append_assoc]
      · obtain ⟨qs, hglue, houtline, hcited⟩ := ih q hrest
        refine ⟨p :: qs, ?_, outline_cons_congr p houtline, cited_cons_congr p hcited⟩
        rw [if_neg hsome, hglue]
        rfl

/-- The pieces of an answer as parts. -/
theorem glue_pieces (answer : Str) : ∃ ps, glue (pieces answer) = ps.map (Part.str true) ∧
    outline ps = answerOutline answer ∧ cited ps = [] := by
  obtain ⟨t, ks, hsplit, hkept, hks⟩ := reSplit_fence answer
  obtain ⟨houtline, ⟨hchain, -⟩, hcited⟩ := partsOf_spec ks t hks
  have hpieces : pieces answer = (partsOf none (fenced t ks)).map (Part.str true) := by
    rw [map_partsOf, ← hsplit]
    unfold pieces
    dsimp only
    by_cases hlength : 3 ≤ (reSplit [fence] answer).length
    · rw [if_pos hlength]
    · rw [if_neg hlength]
      rw [hsplit] at hlength ⊢
      cases ks with
      | nil =>
          have hflatten := flatten_reSplit fence_ne_nil answer
          rw [hsplit] at hflatten
          have ht : t = answer := (List.append_nil t).symm.trans hflatten
          rw [← ht]
          show _ = fencedPieces none [t]
          rw [fencedPieces, if_neg (hks t List.mem_cons_self), fencedPieces, List.append_nil]
      | cons k ks => exact absurd (by unfold fenced; simp) hlength
  rw [hpieces, answerOutline_eq hkept, ← houtline]
  cases hparts : partsOf none (fenced t ks) with
  | nil => exact ⟨[], rfl, rfl, rfl⟩
  | cons p ps =>
      rw [hparts] at hchain hcited
      obtain ⟨qs, hglue, hq, hcited'⟩ := glueFrom_spec ps p hchain
      exact ⟨qs, hglue, hq, hcited'.trans hcited⟩

/-! ### Marks -/

/-- The marks that are put after a piece: those of its citations that are new. -/
theorem addMarks_spec (cs : List ℕ) : ∀ (res : Str) (seted : List ℕ), seted.Nodup →
    ∃ ms, addMarks cs (res, seted) = (res ++ render true (ms.map .mark), seted ++ ms) ∧
      (seted ++ ms).Nodup ∧ ∀ c ∈ ms, c ∈ cs := by
  induction cs with
  | nil =>
      intro res seted honce
      refine ⟨[], ?_, by rwa [List.append_nil], fun c hc => hc⟩
      rw [List.append_nil]
      exact congrArg (·, seted) (List.append_nil res).symm
  | cons c cs ih =>
      intro res seted honce
      rw [addMarks]
      by_cases hc : c ∈ seted
      · obtain ⟨ms, hmarks, hnodup, hms⟩ := ih res seted honce
        exact ⟨ms, by rw [if_pos hc, hmarks], hnodup, fun d hd => List.mem_cons_of_mem _ (hms d hd)⟩
      · have honce' : (seted ++ [c]).Nodup := by
          rw [← List.concat_eq_append]
          exact honce.concat hc
        obtain ⟨ms, hmarks, hnodup, hms⟩ := ih (res ++ mark c) (seted ++ [c]) honce'
        rw [List.append_assoc] at hnodup
        refine ⟨c :: ms, ?_, hnodup, fun d hd => ?_⟩
        · rw [if_neg hc, hmarks, List.append_assoc, List.append_assoc]
          rfl
        · rcases List.mem_cons.mp hd with rfl | hd
          · exact List.mem_cons_self
          · exact List.mem_cons_of_mem _ (hms d hd)

theorem cited_marks (ms : List ℕ) (ps : List Part) :
    cited (ms.map .mark ++ ps) = ms ++ cited ps := by
  induction ms with
  | nil => rfl
  | cons c ms ih => exact congrArg (c :: ·) ih

theorem outline_marks (ms : List ℕ) (ps : List Part) :
    outline (ms.map .mark ++ ps) = outline ps := by
  induction ms with
  | nil => rfl
  | cons c ms ih => exact ih

/-- After a piece come the marks of its citations, or none. -/
theorem rebuild_cons {n : ℕ} {cites : List (ℕ × List ℕ)}
    (hcites : ∀ e ∈ cites, ∀ c ∈ e.2, c < n) (idx : List ℕ) (i : ℕ) (p : Str) (ps : List Str)
    (res : Str) (seted : List ℕ) :
    ∃ cs, (∀ c ∈ cs, c < n) ∧ rebuild n idx cites i (p :: ps) (res, seted) =
      rebuild n idx cites (i + 1) ps (addMarks cs (res ++ p, seted)) := by
  have hnone : ∀ c ∈ ([] : List ℕ), c < n := fun _ h => absurd h List.not_mem_nil
  rw [rebuild]
  by_cases hidx : i ∈ idx
  · rw [if_neg (not_not.mpr hidx)]
    cases hlookup : cites.lookup i with
    | none => exact ⟨[], hnone, rfl⟩
    | some cs =>
        have hcs : ∀ c ∈ cs, c < n := hcites _ (Dict.mem_of_lookup hlookup)
        refine ⟨cs, hcs, ?_⟩
        dsimp only
        rw [if_pos (List.all_eq_true.mpr (fun c hc => decide_eq_true (hcs c hc)))]
  · rw [if_pos hidx]
    exact ⟨[], hnone, rfl⟩

/-- The pieces are put together again, with marks between them. -/
theorem rebuild_spec {n : ℕ} {cites : List (ℕ × List ℕ)}
    (hcites : ∀ e ∈ cites, ∀ c ∈ e.2, c < n) (idx : List ℕ) (ps : List Part) :
    ∀ (i : ℕ) (res : Str) (seted : List ℕ), cited ps = [] → seted.Nodup →
    ∃ qs, rebuild n idx cites i (ps.map (Part.str true)) (res, seted) =
        some (res ++ render true qs, seted ++ cited qs) ∧ outline qs = outline ps ∧
      (seted ++ cited qs).Nodup ∧ ∀ c ∈ cited qs, c < n := by
  induction ps with
  | nil =>
      intro i res seted _ honce
      refine ⟨[], ?_, rfl, ?_, fun c hc => absurd hc List.not_mem_nil⟩
      · show some (res, seted) = some (res ++ [], seted ++ [])
        rw [List.append_nil, List.append_nil]
      · show (seted ++ []).Nodup
        rwa [List.append_nil]
  | cons p ps ih =>
      intro i res seted hnone honce
      obtain ⟨hps, hcons⟩ := uncited_cons hnone
      obtain ⟨cs, hcs, hstep⟩ := rebuild_cons hcites idx i (p.str true)
        (ps.map (Part.str true)) res seted
      obtain ⟨ms, hmarks, hnodup, hms⟩ := addMarks_spec cs (res ++ p.str true) seted honce
      obtain ⟨qs, hrest, houtline, honce', hlt⟩ := ih (i + 1)
        (res ++ p.str true ++ render true (ms.map .mark)) (seted ++ ms) hps hnodup
      have hcited : cited (p :: (ms.map .mark ++ qs)) = ms ++ cited qs := by
        rw [hcons, cited_marks]
      rw [List.append_assoc] at honce'
      refine ⟨p :: (ms.map .mark ++ qs), ?_, ?_, ?_, fun c hc => ?_⟩
      · rw [List.map_cons, hstep, hmarks, hrest, hcited, List.append_assoc, List.append_assoc,
          List.append_assoc]
        unfold render
        rw [List.flatMap_cons, List.flatMap_append]
      · exact outline_cons_congr p ((outline_marks ms qs).trans houtline)
      · rwa [hcited]
      · rw [hcited] at hc
        rcases List.mem_append.mp hc with hc | hc
        · exact hcs c (hms c hc)
        · exact hlt c hc

/-! ### Citations -/

section
variable {Score : Type} (env : Scoring Score)

theorem length_resized (dim : ℕ) (v : List Score) : (resized env dim v).length = dim := by
  unfold resized
  by_cases h : dim ≠ v.length
  · rw [if_pos h, List.length_replicate]
  · rw [if_neg h, ← not_not.mp h]

theorem lt_of_mem_picks {n c : ℕ} {sim : List Score} {mx : Score} (h : c ∈ picks env n sim mx) :
    c < n := by
  unfold picks at h
  have hmem := (env.setOrder_perm _).mem_iff.mp (List.mem_of_mem_take h)
  exact List.mem_range.mp (List.mem_filter.mp hmem).1

theorem lt_of_mem_citesAt {chunkV : List (List Score)} {chunksTks : List (List Str)}
    {tkweight vtweight : Score} {pieces : List ((ℕ × Str) × List Score)} {thr : ℚ} :
    ∀ e ∈ citesAt env chunkV chunksTks tkweight vtweight pieces thr, ∀ c ∈ e.2,
      c < chunkV.length := by
  intro e he c hc
  unfold citesAt at he
  obtain ⟨p, -, hp⟩ := List.mem_filterMap.mp he
  dsimp only at hp
  split at hp
  next => cases hp
  next =>
    cases hp
    exact lt_of_mem_picks env hc

theorem mem_firstCites {round : ℚ → List (ℕ × List ℕ)} {e : ℕ × List ℕ} : ∀ {thrs : List ℚ},
    e ∈ firstCites round thrs → ∃ thr, e ∈ round thr
  | [], h => by cases h
  | thr :: rest, h => by
      unfold firstCites at h
      by_cases hround : round thr = []
      · rw [if_pos hround] at h
        exact mem_firstCites h
      · rw [if_neg hround] at h
        exact ⟨thr, h⟩

/-- The result is the answer with marks of chunks, each once, between parts of its texts and its
fenced blocks; a line break is put after every block, or the answer is left as it is. -/
def Marked (answer : Str) (n : ℕ) (res : Str) (seted : List ℕ) : Prop :=
  ∃ lineBreak parts, res = render lineBreak parts ∧ (lineBreak = false → res = answer) ∧
    erase parts = answer ∧ outline parts = answerOutline answer ∧ cited parts = seted ∧
    seted.Nodup ∧ ∀ c ∈ seted, c < n

theorem render_false {ps : List Part} (h : cited ps = []) : render false ps = erase ps := by
  induction ps with
  | nil => rfl
  | cons p ps ih =>
      show p.str false ++ render false ps = p.erased ++ erase ps
      rw [ih (uncited_cons h).1]
      cases p with
      | text s => rfl
      | block s => rfl
      | mark c => cases h

/-- The answer itself, if there is nothing to cite. -/
theorem marked_self (answer : Str) (n : ℕ) : Marked answer n answer [] := by
  obtain ⟨ps, -, houtline, hcited⟩ := glue_pieces answer
  have herase : erase ps = answer := by
    rw [erase_eq_joined, houtline, joined_answerOutline]
  refine ⟨false, ps, ?_, fun _ => rfl, herase, houtline, hcited, List.nodup_nil,
    fun c hc => absurd hc List.not_mem_nil⟩
  rw [render_false hcited, herase]

theorem marked_rebuild {answer : Str} {n : ℕ} {idx : List ℕ} {cites : List (ℕ × List ℕ)}
    (hcites : ∀ e ∈ cites, ∀ c ∈ e.2, c < n) : ∃ res seted,
      rebuild n idx cites 0 (glue (pieces answer)) ([], []) = some (res, seted) ∧
        Marked answer n res seted := by
  obtain ⟨ps, hpieces, houtline, hcited⟩ := glue_pieces answer
  obtain ⟨qs, hrebuild, hqs, honce, hlt⟩ := rebuild_spec hcites idx ps 0 [] [] hcited
    List.nodup_nil
  refine ⟨render true qs, cited qs, by rw [hpieces]; exact hrebuild, true, qs, rfl,
    fun h => (Bool.noConfusion h), ?_, hqs.trans houtline, rfl, honce, hlt⟩
  rw [erase_eq_joined, hqs, houtline, joined_answerOutline]

/-- Citations change nothing of the answer. -/
theorem insertCitations_spec (answer : Str) {chunks : List Str} {chunkV : List (List Score)}
    (tkweight vtweight : Score) (hlength : chunks.length = chunkV.length) :
    ∃ res seted, insertCitations env answer chunks chunkV tkweight vtweight = some (res, seted) ∧
      Marked answer chunks.length res seted := by
  unfold insertCitations
  rw [if_neg (not_not.mpr hlength)]
  by_cases hchunks : chunks = []
  · rw [if_pos hchunks]
    exact ⟨answer, [], rfl, marked_self answer _⟩
  rw [if_neg hchunks]
  dsimp only
  split
  next => exact ⟨answer, [], rfl, marked_self answer _⟩
  next =>
    obtain ⟨v, vs, rfl⟩ := List.exists_cons_of_ne_nil (show chunkV ≠ [] by
      rintro rfl
      exact hchunks (List.length_eq_zero_iff.mp hlength))
    rw [List.map_cons, List.headD_cons, length_resized, if_neg (not_not.mpr rfl), hlength,
      List.length_cons, List.length_map, ← List.length_cons (a := v)]
    refine marked_rebuild (fun e he c hc => ?_)
    obtain ⟨thr, hthr⟩ := mem_firstCites he
    have hlt := lt_of_mem_citesAt env e hthr c hc
    rwa [List.length_cons, List.length_map, ← List.length_cons (a := v)] at hlt

end

/-- Every piece is similar to every chunk. -/
def similarAll : Scoring ℚ where
  encode texts := texts.map (fun _ => [])
  length_encode _ := List.length_map _
  tokens _ := []
  hybridSimilarity _ bvecs _ _ _ _ := bvecs.map (fun _ => 1)
  length_hybridSimilarity _ _ _ _ _ _ := List.length_map _
  double := id
  max sim := sim.foldl Max.max 0
  mul := (· * ·)
  lt x y := x < y
  setOrder := id
  setOrder_perm _ := List.Perm.refl _

def codeAnswer : Str := "See: \x60\x60\x60code\x60\x60\x60 Done.".toList

/-- The chunk is cited once, before the block. -/
theorem insertCitations_codeAnswer :
    insertCitations similarAll codeAnswer ["a".toList] [[]] 1 1 =
        some ("See:  [ID:0]\x60\x60\x60code\x60\x60\x60\n Done.".toList, [0]) ∧
    ∃ res seted, insertCitations similarAll codeAnswer ["a".toList] [[]] 1 1 = some (res, seted) ∧
      Marked codeAnswer 1 res seted :=
  ⟨by decide +kernel, insertCitations_spec similarAll codeAnswer 1 1 rfl⟩

end RagFlow.Citations
