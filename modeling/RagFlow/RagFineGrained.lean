import RagFlow.RagAnalyzer

/-! # Fine-grained tokens

`FineGrainedTokenize` and `FineGrainedTokenizeWithPosition` of `internal/cpp/rag_analyzer.cpp`.  In
a text that is mostly not Chinese the tokens are cut at slashes.  Otherwise a token that is neither
short nor a number nor long is replaced by its second best segmentation.

The function without positions ends with `EnglishNormalize`, which puts each token that ends with a
Latin letter into its basic form; the function with positions does not.  `fineGrained_agree_iff`:
they give the same tokens if and only if the text is mostly not Chinese, or this changes nothing. -/

namespace RagFlow.Analyzer

open Py

/-! ### Characters -/

def isLatin (c : Char) : Bool := ('a' ≤ c && c ≤ 'z') || ('A' ≤ c && c ≤ 'Z')

/-- `IsChinese` of one character: three bytes, the first from E4 to E9. -/
def isChinese (c : Char) : Bool := 0x4000 ≤ c.toNat && c.toNat ≤ 0x9fff

/-- `pattern1_`: the string ends with a Latin letter, `_` or `-`. -/
def endsLatin (t : Str) : Bool := t.getLast?.any (fun c => isLatin c || c = '_' || c = '-')

/-- `pattern4_`: the string ends with a digit, `,`, `.` or `-`. -/
def endsNumber (t : Str) : Bool :=
  t.getLast?.any (fun c => ('0' ≤ c && c ≤ '9') || c = ',' || c = '.' || c = '-')

/-- `pattern5_`: there is a Latin letter, `.` or `-` in the string. -/
def hasLatin (t : Str) : Bool := t.any (fun c => isLatin c || c = '.' || c = '-')

/-- `zh_num`. -/
def chineseCount (tks : List Str) : ℕ := (tks.map (fun t => t.countP isChinese)).sum

/-- `std::getline` until the end of the string. -/
def getlines (delim : Char) (t : Str) : List Str :=
  if (t.splitOn delim).getLast? = some [] then (t.splitOn delim).dropLast else t.splitOn delim

/-! ### The two functions -/

/-- The lemmatiser and the stemmer. -/
structure Normalizer where
  lemmatize : Str → Str
  stem : Str → Str

/-- `EnglishNormalize` of a token: the lower case is in a buffer, which is read as a C string. -/
def Normalizer.normalize (nz : Normalizer) (t : Str) : Str :=
  if endsLatin t then nz.stem ((key (nz.lemmatize t)).takeWhile (· ≠ '\x00')) else t

def englishNormalize (nz : Normalizer) (tokens : List Str) : List Str := tokens.map nz.normalize

/-- `SortTokens` sorts by falling score; which of two segmentations with the same score comes first
is not said. -/
structure Sorting {S : Type} (d : Dict S) where
  sort : List (List (Str × ℤ)) → List (List (Str × ℤ))
  perm : ∀ l, (sort l).Perm l
  sorted : ∀ l, (sort l).Pairwise (fun a b => ¬ d.gt (d.score b) (d.score a))

section fine
variable {S : Type} (d : Dict S) (sorting : Sorting d)

/-- `token_list`: all segmentations, or the token itself if it is long. -/
def segmentations (token : Str) : List (List (Str × ℤ)) :=
  if 10 < token.length then [[(token, encodeNegative 1)]] else (search d token true none).tokenList

/-- `stk`. -/
def secondBest (token : Str) : List Str :=
  ((sorting.sort (segmentations d token)).getD 1 []).map Prod.fst

/-- What becomes of one token of a Chinese text. -/
def fineToken (token : Str) : List Str :=
  if token.length < 3 || endsNumber token then [token]
  else if (segmentations d token).length < 2 then [token]
  else if (secondBest d sorting token).length = token.length then [token]
  else if hasLatin token then
    if (secondBest d sorting token).any (·.length < 3) then [token] else secondBest d sorting token
  else secondBest d sorting token

def fineGrainedTokenize (nz : Normalizer) (tokens : Str) : List Str :=
  let tks := split tokens
  -- `zh_num < tks.size() * 0.2`
  if 5 * chineseCount tks < tks.length then tks.flatMap (getlines '/')
  else englishNormalize nz (tks.flatMap (fineToken d sorting))

/-- The parts of a token between slashes that are not empty. -/
def placeLines : ℕ → List Str → List (Str × ℕ × ℕ)
  | _, [] => []
  | start, t :: parts =>
      if t = [] then placeLines start parts
      else (t, start, start + byteLen t) :: placeLines (start + byteLen t + 1) parts

/-- Tokens one after the other, with a size for each. -/
def place (size : Str → ℕ) : ℕ → List Str → List (Str × ℕ × ℕ)
  | _, [] => []
  | start, t :: tokens => (t, start, start + size t) :: place size (start + size t) tokens

/-- What becomes of one token with its position.  Pieces of a token with Latin letters are placed by
their characters, others by their bytes. -/
def fineTokenWithPosition (token : Str) (position : ℕ × ℕ) : List (Str × ℕ × ℕ) :=
  if token.length < 3 || endsNumber token then [(token, position)]
  else if (segmentations d token).length < 2 then [(token, position)]
  else if (secondBest d sorting token).length = token.length then [(token, position)]
  else if hasLatin token then
    if (secondBest d sorting token).any (·.length < 3) then [(token, position)]
    else place List.length position.1 (secondBest d sorting token)
  else place byteLen position.1 (secondBest d sorting token)

def fineGrainedTokenizeWithPosition (tokens : Str) (positions : List (ℕ × ℕ)) :
    List (Str × ℕ × ℕ) :=
  let tks := split tokens
  if 5 * chineseCount tks < tks.length then
    (tks.zip positions).flatMap (fun p => placeLines p.2.1 (getlines '/' p.1))
  else (tks.zip positions).flatMap (fun p => fineTokenWithPosition d sorting p.1 p.2)

/-! ### What they give -/

theorem map_fst_place (size : Str → ℕ) (tokens : List Str) :
    ∀ start, (place size start tokens).map Prod.fst = tokens := by
  induction tokens with
  | nil => exact fun start => rfl
  | cons t tokens ih =>
      intro start
      rw [place, List.map_cons, ih]

theorem map_fst_placeLines (parts : List Str) :
    ∀ start, (placeLines start parts).map Prod.fst = parts.filter (· ≠ []) := by
  induction parts with
  | nil => exact fun start => rfl
  | cons t parts ih =>
      intro start
      unfold placeLines
      by_cases ht : t = []
      · rw [if_pos ht, ih, ht]
        rfl
      · rw [if_neg ht, List.map_cons, ih]
        simp [ht]

theorem map_fst_fineTokenWithPosition (token : Str) (position : ℕ × ℕ) :
    (fineTokenWithPosition d sorting token position).map Prod.fst = fineToken d sorting token := by
  unfold fineTokenWithPosition fineToken
  split_ifs
  · rfl
  · rfl
  · rfl
  · rfl
  · exact map_fst_place _ _ _
  · exact map_fst_place _ _ _

/-- A flat map over tokens with positions is one over the tokens. -/
theorem map_flatMap_zip {α β γ δ : Type} {f : α × β → List γ} {g : α → List δ} {h : γ → δ}
    (hf : ∀ p, (f p).map h = g p.1) (l : List α) :
    ∀ l' : List β, l'.length = l.length → ((l.zip l').flatMap f).map h = l.flatMap g := by
  intro l' hlen
  rw [List.map_flatMap]
  simp only [hf]
  rw [← List.flatMap_map, List.map_fst_zip (Nat.le_of_eq hlen.symm)]

variable {d}

theorem ne_nil_of_mem_segmentations {token u : Str} {seg : List (Str × ℤ)} (htoken : token ≠ [])
    (hseg : seg ∈ segmentations d token) (hu : u ∈ seg.map Prod.fst) : u ≠ [] := by
  unfold segmentations at hseg
  split at hseg
  · rw [List.mem_singleton.mp hseg, List.map_cons, List.map_nil] at hu
    rwa [List.mem_singleton.mp hu]
  · exact (cuts_of_mem_tokenList d token none seg hseg).ne_nil u hu

/-- No token is cut into empty pieces. -/
theorem ne_nil_of_mem_fineToken {token u : Str} (htoken : token ≠ [])
    (hu : u ∈ fineToken d sorting token) : u ≠ [] := by
  have hbest : u ∈ secondBest d sorting token → u ≠ [] := by
    intro hu
    unfold secondBest at hu
    rw [List.getD_eq_getElem?_getD] at hu
    cases hget : (sorting.sort (segmentations d token))[1]? with
    | none =>
        rw [hget] at hu
        exact absurd hu List.not_mem_nil
    | some seg =>
        rw [hget] at hu
        have hmem := (sorting.perm _).mem_iff.mp (List.mem_of_getElem? hget)
        exact ne_nil_of_mem_segmentations htoken hmem hu
  unfold fineToken at hu
  split_ifs at hu
  · rwa [List.mem_singleton.mp hu]
  · rwa [List.mem_singleton.mp hu]
  · rwa [List.mem_singleton.mp hu]
  · rwa [List.mem_singleton.mp hu]
  · exact hbest hu
  · exact hbest hu

end fine

/-- Tokens that are not empty are the same after a change if the change leaves each as it is; one
that became empty would be missing. -/
theorem filter_map_eq_self_iff {l : List Str} (hne : ∀ t ∈ l, t ≠ []) (f : Str → Str) :
    l.filter (· ≠ []) = (l.map f).filter (· ≠ []) ↔ ∀ t ∈ l, f t = t := by
  have hself : l.filter (· ≠ []) = l :=
    List.filter_eq_self.mpr (fun t ht => decide_eq_true (hne t ht))
  constructor
  · intro h
    have hlength : ((l.map f).filter (· ≠ [])).length = (l.map f).length := by
      rw [← h, hself, List.length_map]
    have hall := List.filter_sublist.eq_of_length hlength
    rw [hself, hall] at h
    have hmap : l.map f = l.map id := by rw [← h, List.map_id]
    exact fun t ht => List.map_inj_left.mp hmap t ht
  · intro h
    rw [List.map_congr_left h, List.map_id']

theorem ne_nil_of_mem_split {tokens t : Str} (ht : t ∈ split tokens) : t ≠ [] := by
  simpa using (List.mem_filter.mp ht).2

/-- The two functions give the same tokens if and only if the text is mostly not Chinese, or the
normalisation leaves all pieces of its tokens as they are. -/
theorem fineGrained_agree_iff {S : Type} (d : Dict S) (sorting : Sorting d) (nz : Normalizer)
    (tokens : Str) (positions : List (ℕ × ℕ)) (hlen : positions.length = (split tokens).length) :
    ((fineGrainedTokenizeWithPosition d sorting tokens positions).map Prod.fst).filter (· ≠ []) =
        (fineGrainedTokenize d sorting nz tokens).filter (· ≠ []) ↔
      5 * chineseCount (split tokens) < (split tokens).length ∨
        ∀ t ∈ split tokens, ∀ u ∈ fineToken d sorting t, nz.normalize u = u := by
  unfold fineGrainedTokenizeWithPosition fineGrainedTokenize
  dsimp only
  by_cases hfew : 5 * chineseCount (split tokens) < (split tokens).length
  · rw [if_pos hfew, if_pos hfew]
    refine iff_of_true ?_ (.inl hfew)
    rw [map_flatMap_zip (g := fun t => (getlines '/' t).filter (· ≠ []))
      (fun p => map_fst_placeLines (getlines '/' p.1) p.2.1) (split tokens) positions hlen]
    simp only [List.filter_flatMap, List.filter_filter, Bool.and_self]
  · rw [if_neg hfew, if_neg hfew, or_iff_right hfew]
    rw [map_flatMap_zip (fun p => map_fst_fineTokenWithPosition d sorting p.1 p.2) (split tokens)
      positions hlen]
    have hne : ∀ u ∈ (split tokens).flatMap (fineToken d sorting), u ≠ [] := by
      intro u hu
      obtain ⟨t, ht, hu⟩ := List.mem_flatMap.mp hu
      exact ne_nil_of_mem_fineToken sorting (ne_nil_of_mem_split ht) hu
    unfold englishNormalize
    rw [filter_map_eq_self_iff hne]
    simp only [List.mem_flatMap, forall_exists_index, and_imp]
    exact ⟨fun h t ht u hu => h u t ht hu, fun h u t ht hu => h t ht u hu⟩

/-- `SortTokens` for a dictionary with one word, by a stable sort. -/
def oneWordSorting (word : Str) : Sorting (oneWord word) where
  sort l := l.mergeSort (fun a b => 30 / b.length ≤ 30 / a.length)
  perm l := List.mergeSort_perm l _
  sorted l := by
    have htrans : ∀ a b c : List (Str × ℤ), decide (30 / b.length ≤ 30 / a.length) = true →
        decide (30 / c.length ≤ 30 / b.length) = true →
        decide (30 / c.length ≤ 30 / a.length) = true := by
      intro a b c hab hbc
      exact decide_eq_true (Nat.le_trans (of_decide_eq_true hbc) (of_decide_eq_true hab))
    have htotal : ∀ a b : List (Str × ℤ), (decide (30 / b.length ≤ 30 / a.length) ||
        decide (30 / a.length ≤ 30 / b.length)) = true := by
      intro a b
      rw [Bool.or_eq_true, decide_eq_true_eq, decide_eq_true_eq]
      exact Nat.le_total _ _
    refine (List.pairwise_mergeSort htrans htotal l).imp (fun hab => ?_)
    have hle := of_decide_eq_true hab
    simp only [oneWord, decide_eq_true_eq, not_lt]
    exact hle

/-- The stem of `running`. -/
def stemRunning : Normalizer where
  lemmatize t := t
  stem t := if t = ['r', 'u', 'n', 'n', 'i', 'n', 'g'] then ['r', 'u', 'n'] else t

/-- A Chinese word is not normalised, and both give it. -/
theorem fineGrained_agree_iff_word :
    ((fineGrainedTokenizeWithPosition (oneWord ['中', '国']) (oneWordSorting ['中', '国'])
        ['中', '国'] [(0, 6)]).map Prod.fst).filter (· ≠ []) =
      (fineGrainedTokenize (oneWord ['中', '国']) (oneWordSorting ['中', '国']) stemRunning
        ['中', '国']).filter (· ≠ []) :=
  (fineGrained_agree_iff (oneWord ['中', '国']) (oneWordSorting ['中', '国']) stemRunning
    ['中', '国'] [(0, 6)] (by decide)).mpr (.inr (by decide))

/-- Two tokens, the one Chinese and the other not. -/
def mixedText : Str := ['中', '国', ' ', 'R', 'u', 'n', 'n', 'i', 'n', 'g']

/-- The token that is not Chinese is normalised by the one function only. -/
theorem fineGrained_differ :
    [(0, 6), (7, 14)].length = (split mixedText).length ∧
      ((fineGrainedTokenizeWithPosition (oneWord ['中', '国']) (oneWordSorting ['中', '国'])
          mixedText [(0, 6), (7, 14)]).map Prod.fst).filter (· ≠ []) ≠
        (fineGrainedTokenize (oneWord ['中', '国']) (oneWordSorting ['中', '国']) stemRunning
          mixedText).filter (· ≠ []) := by
  decide

/-! ### The positions of the pieces -/

/-- The pieces lie in the interval, one after the other. -/
structure Nested (position : ℕ × ℕ) (pieces : List (Str × ℕ × ℕ)) : Prop where
  within : ∀ x ∈ pieces, position.1 ≤ x.2.1 ∧ x.2.1 ≤ x.2.2 ∧ x.2.2 ≤ position.2
  disjoint : pieces.Pairwise (fun x y => x.2.2 ≤ y.2.1)

/-- Pieces in front of others: these begin where the first ends, or later. -/
theorem nested_cons {start stop stop' : ℕ} {t : Str} {pieces : List (Str × ℕ × ℕ)}
    (hstart : start ≤ stop') (hbegin : ∀ x ∈ pieces, stop' ≤ x.2.1) :
    Nested (start, stop) ((t, start, stop') :: pieces) ↔
      stop' ≤ stop ∧ Nested (stop', stop) pieces := by
  constructor
  · rintro ⟨hwithin, hdisjoint⟩
    obtain ⟨hhead, htail⟩ := List.forall_mem_cons.mp hwithin
    exact ⟨hhead.2.2, fun x hx => ⟨hbegin x hx, (htail x hx).2⟩, hdisjoint.of_cons⟩
  · rintro ⟨hstop, hwithin, hdisjoint⟩
    refine ⟨List.forall_mem_cons.mpr ⟨⟨le_rfl, hstart, hstop⟩, fun x hx => ?_⟩,
      List.pairwise_cons.mpr ⟨hbegin, hdisjoint⟩⟩
    obtain ⟨hlower, hupper⟩ := hwithin x hx
    exact ⟨hstart.trans hlower, hupper⟩

theorem nested_nil (position : ℕ × ℕ) : Nested position [] :=
  ⟨fun _ hx => absurd hx List.not_mem_nil, List.Pairwise.nil⟩

theorem le_of_mem_place {size : Str → ℕ} {tokens : List Str} {start : ℕ} {x : Str × ℕ × ℕ}
    (hx : x ∈ place size start tokens) : start ≤ x.2.1 := by
  induction tokens generalizing start with
  | nil => cases hx
  | cons t tokens ih =>
      rcases List.mem_cons.mp hx with rfl | hx
      · exact le_rfl
      · exact (Nat.le_add_right _ _).trans (ih hx)

/-- Pieces that follow each other lie in the interval if there is room for all of them. -/
theorem nested_place_iff (size : Str → ℕ) (tokens : List Str) {start stop : ℕ}
    (h : start ≤ stop) :
    Nested (start, stop) (place size start tokens) ↔ start + (tokens.map size).sum ≤ stop := by
  induction tokens generalizing start with
  | nil => exact iff_of_true (nested_nil _) h
  | cons t tokens ih =>
      rw [place, nested_cons (Nat.le_add_right _ _) (fun x hx => le_of_mem_place hx),
        List.map_cons, List.sum_cons]
      constructor
      · rintro ⟨hstop, hrest⟩
        have hsum := (ih hstop).mp hrest
        omega
      · intro hsum
        have hstop : start + size t ≤ stop := by omega
        exact ⟨hstop, (ih hstop).mpr (by omega)⟩

/-- The parts between slashes that are not empty, with one slash between each two. -/
def withSlashes (parts : List Str) : Str := join ['/'] (parts.filter (· ≠ []))

theorem le_of_mem_placeLines {parts : List Str} {start : ℕ} {x : Str × ℕ × ℕ}
    (hx : x ∈ placeLines start parts) : start ≤ x.2.1 := by
  induction parts generalizing start with
  | nil => cases hx
  | cons t parts ih =>
      unfold placeLines at hx
      split_ifs at hx with ht
      · exact ih hx
      · rcases List.mem_cons.mp hx with rfl | hx
        · exact le_rfl
        · have hle := ih hx
          omega

/-- Within an interval the next piece may begin later. -/
theorem nested_of_le {start start' stop : ℕ} {pieces : List (Str × ℕ × ℕ)}
    (hbegin : ∀ x ∈ pieces, start' ≤ x.2.1) (hle : start ≤ start') :
    Nested (start, stop) pieces ↔ Nested (start', stop) pieces := by
  constructor
  · rintro ⟨hwithin, hdisjoint⟩
    exact ⟨fun x hx => ⟨hbegin x hx, (hwithin x hx).2⟩, hdisjoint⟩
  · rintro ⟨hwithin, hdisjoint⟩
    exact ⟨fun x hx => ⟨hle.trans (hwithin x hx).1, (hwithin x hx).2⟩, hdisjoint⟩

theorem byteLen_withSlashes_cons {t : Str} (ht : t ≠ []) (parts : List Str) :
    byteLen (withSlashes (t :: parts)) =
      if parts.filter (· ≠ []) = [] then byteLen t
      else byteLen t + 1 + byteLen (withSlashes parts) := by
  unfold withSlashes
  rw [List.filter_cons_of_pos (by simpa using ht)]
  cases parts.filter (· ≠ []) with
  | nil => simp [join, List.intercalate]
  | cons u rest =>
      rw [if_neg (List.cons_ne_nil _ _)]
      simp only [join, List.intercalate, List.intersperse_cons_cons, List.flatten_cons, byteLen,
        List.map_append, List.sum_append, List.map_cons, List.map_nil, List.sum_cons, List.sum_nil]
      have hslash : Char.utf8Size '/' = 1 := by decide
      omega

/-- The parts between slashes lie in the interval if there is room for them with one slash between
each two. -/
theorem nested_placeLines_iff (parts : List Str) {start stop : ℕ} :
    Nested (start, stop) (placeLines start parts) ↔
      parts.filter (· ≠ []) = [] ∨ start + byteLen (withSlashes parts) ≤ stop := by
  induction parts generalizing start with
  | nil => exact iff_of_true (nested_nil _) (Or.inl rfl)
  | cons t parts ih =>
      unfold placeLines
      by_cases ht : t = []
      · have hfilter : (t :: parts).filter (· ≠ []) = parts.filter (· ≠ []) :=
          List.filter_cons_of_neg (by simpa using ht)
        have hslashes : withSlashes (t :: parts) = withSlashes parts := by
          unfold withSlashes
          rw [hfilter]
        rw [if_pos ht, ih, hfilter, hslashes]
      · have hfilter : (t :: parts).filter (· ≠ []) ≠ [] := by
          rw [List.filter_cons_of_pos (by simpa using ht)]
          exact List.cons_ne_nil _ _
        have hbegin : ∀ x ∈ placeLines (start + byteLen t + 1) parts, start + byteLen t ≤ x.2.1 :=
          fun x hx => (Nat.le_succ _).trans (le_of_mem_placeLines hx)
        rw [if_neg ht, nested_cons (Nat.le_add_right _ _) hbegin,
          nested_of_le (fun x hx => le_of_mem_placeLines hx) (Nat.le_succ _), ih,
          byteLen_withSlashes_cons ht, or_iff_right hfilter]
        split_ifs with hrest
        · exact and_iff_left (Or.inl hrest)
        · rw [or_iff_right hrest]
          omega

section nested
variable {S : Type} (d : Dict S) (sorting : Sorting d)

/-- The text is mostly not Chinese. -/
def isEnglish (tks : List Str) : Bool := 5 * chineseCount tks < tks.length

/-- The pieces of one token. -/
def pieces (english : Bool) (p : Str × ℕ × ℕ) : List (Str × ℕ × ℕ) :=
  if english then placeLines p.2.1 (getlines '/' p.1) else fineTokenWithPosition d sorting p.1 p.2

theorem fineGrainedTokenizeWithPosition_eq (tokens : Str) (positions : List (ℕ × ℕ)) :
    fineGrainedTokenizeWithPosition d sorting tokens positions =
      ((split tokens).zip positions).flatMap (pieces d sorting (isEnglish (split tokens))) := by
  unfold fineGrainedTokenizeWithPosition isEnglish pieces
  dsimp only
  simp only [decide_eq_true_eq]
  split_ifs <;> rfl

/-- A token of a Chinese text is replaced by its second best segmentation. -/
def isCut (token : Str) : Bool :=
  !(token.length < 3 || endsNumber token) && 2 ≤ (segmentations d token).length &&
    (secondBest d sorting token).length ≠ token.length &&
    !(hasLatin token && (secondBest d sorting token).any (·.length < 3))

/-- There is room for the pieces of a token in its interval.  The pieces of a token with Latin
letters take a place for each character, others for each byte. -/
def Fits (english : Bool) (p : Str × ℕ × ℕ) : Prop :=
  if english then
    (getlines '/' p.1).filter (· ≠ []) = [] ∨
      p.2.1 + byteLen (withSlashes (getlines '/' p.1)) ≤ p.2.2
  else
    isCut d sorting p.1 = true →
      p.2.1 + (if hasLatin p.1 then p.1.length else byteLen p.1) ≤ p.2.2

variable {d}

theorem flatten_of_mem_segmentations {token : Str} {seg : List (Str × ℤ)}
    (hseg : seg ∈ segmentations d token) : (seg.map Prod.fst).flatten = token := by
  unfold segmentations at hseg
  split at hseg
  · rw [List.mem_singleton.mp hseg, List.map_cons, List.map_nil, List.flatten_singleton]
  · rw [(cuts_of_mem_tokenList d token none seg hseg).flatten, List.take_length]

/-- The second best segmentation is one of the token. -/
theorem flatten_secondBest {token : Str} (h : 2 ≤ (segmentations d token).length) :
    (secondBest d sorting token).flatten = token := by
  have hlength : 1 < (sorting.sort (segmentations d token)).length := by
    rw [(sorting.perm _).length_eq]
    omega
  unfold secondBest
  rw [List.getD_eq_getElem?_getD, List.getElem?_eq_getElem hlength, Option.getD_some]
  exact flatten_of_mem_segmentations ((sorting.perm _).mem_iff.mp (List.getElem_mem hlength))

theorem length_flatten_map (tokens : List Str) :
    (tokens.map List.length).sum = tokens.flatten.length := by
  rw [List.length_flatten]

theorem sum_byteLen (tokens : List Str) : (tokens.map byteLen).sum = byteLen tokens.flatten := by
  induction tokens with
  | nil => rfl
  | cons t tokens ih =>
      rw [List.map_cons, List.sum_cons, ih, List.flatten_cons]
      unfold byteLen
      rw [List.map_append, List.sum_append]

/-- A token is cut, or it keeps its position. -/
theorem fineTokenWithPosition_eq (token : Str) (position : ℕ × ℕ) :
    fineTokenWithPosition d sorting token position =
      if isCut d sorting token then
        place (if hasLatin token then List.length else byteLen) position.1
          (secondBest d sorting token)
      else [(token, position)] := by
  unfold fineTokenWithPosition isCut
  by_cases hshort : (token.length < 3 || endsNumber token) = true
  · rw [if_pos hshort, hshort]
    rfl
  · rw [if_neg hshort, Bool.eq_false_iff.mpr hshort, Bool.not_false, Bool.true_and]
    by_cases hfew : (segmentations d token).length < 2
    · have hmany : decide (2 ≤ (segmentations d token).length) = false :=
        decide_eq_false (Nat.not_le.mpr hfew)
      rw [if_pos hfew, hmany, Bool.false_and, Bool.false_and, if_neg Bool.false_ne_true]
    · have hmany : decide (2 ≤ (segmentations d token).length) = true :=
        decide_eq_true (Nat.not_lt.mp hfew)
      rw [if_neg hfew, hmany, Bool.true_and]
      by_cases hsingles : (secondBest d sorting token).length = token.length
      · rw [if_pos hsingles, decide_eq_false (not_not.mpr hsingles), Bool.false_and,
          if_neg Bool.false_ne_true]
      · rw [if_neg hsingles, decide_eq_true hsingles, Bool.true_and]
        by_cases hlatin : hasLatin token = true
        · rw [if_pos hlatin, hlatin, if_pos rfl, Bool.true_and]
          cases (secondBest d sorting token).any (·.length < 3) <;> rfl
        · rw [if_neg hlatin, Bool.eq_false_iff.mpr hlatin]
          rfl

theorem nested_pieces_iff (english : Bool) (p : Str × ℕ × ℕ) (hp : p.2.1 ≤ p.2.2) :
    Nested p.2 (pieces d sorting english p) ↔ Fits d sorting english p := by
  unfold pieces Fits
  cases english with
  | true => exact nested_placeLines_iff _
  | false =>
      rw [if_neg Bool.false_ne_true, if_neg Bool.false_ne_true, fineTokenWithPosition_eq]
      by_cases hcut : isCut d sorting p.1 = true
      · have hmany : 2 ≤ (segmentations d p.1).length := by
          unfold isCut at hcut
          simp only [Bool.and_eq_true, decide_eq_true_eq] at hcut
          exact hcut.1.1.2
        have hflatten := flatten_secondBest sorting hmany
        rw [if_pos hcut]
        refine (nested_place_iff _ _ hp).trans ?_
        rw [forall_prop_of_true hcut]
        split_ifs
        · rw [length_flatten_map, hflatten]
        · rw [sum_byteLen, hflatten]
      · rw [if_neg hcut]
        refine iff_of_true ⟨?_, List.pairwise_singleton _ _⟩ (fun h => absurd h hcut)
        intro x hx
        rw [List.mem_singleton.mp hx]
        exact ⟨le_rfl, hp, le_rfl⟩

end nested

/-- The pieces of each token lie in its interval one after the other exactly when there is room for
them. -/
theorem fineGrained_nested_iff {S : Type} (d : Dict S) (sorting : Sorting d) (tokens : Str)
    (positions : List (ℕ × ℕ)) (hpositions : ∀ p ∈ positions, p.1 ≤ p.2) :
    fineGrainedTokenizeWithPosition d sorting tokens positions =
        ((split tokens).zip positions).flatMap (pieces d sorting (isEnglish (split tokens))) ∧
      ((∀ p ∈ (split tokens).zip positions,
          Nested p.2 (pieces d sorting (isEnglish (split tokens)) p)) ↔
        ∀ p ∈ (split tokens).zip positions, Fits d sorting (isEnglish (split tokens)) p) := by
  refine ⟨fineGrainedTokenizeWithPosition_eq d sorting tokens positions, ?_⟩
  refine forall₂_congr (fun p hp => ?_)
  exact nested_pieces_iff sorting _ p (hpositions p.2 (List.of_mem_zip hp).2)

/-- A character of four bytes, to which one of three bytes is converted. -/
def converted : Str := ['𨱏']

/-- The converted character takes the four bytes of its place. -/
theorem fineGrained_nested_iff_converted :
    Nested (0, 4) (pieces (oneWord ['中', '国']) (oneWordSorting ['中', '国'])
      (isEnglish (split converted)) (converted, 0, 4)) := by
  refine (fineGrained_nested_iff (oneWord ['中', '国']) (oneWordSorting ['中', '国']) converted
    [(0, 4)] (by decide)).2.mpr (fun p hp => ?_) (converted, 0, 4) (by decide)
  have hsplit : (split converted).zip [(0, 4)] = [(converted, 0, 4)] := by decide
  rw [hsplit, List.mem_singleton] at hp
  rw [hp, show isEnglish (split converted) = true by decide]
  exact .inr (by decide)

/-- A token that is longer than its place in the text. -/
theorem fineGrained_not_nested :
    fineGrainedTokenizeWithPosition (oneWord ['中', '国']) (oneWordSorting ['中', '国']) converted
        [(0, 3)] = [(converted, 0, 4)] ∧
      ¬ ∀ p ∈ (split converted).zip [(0, 3)],
        Nested p.2 (pieces (oneWord ['中', '国']) (oneWordSorting ['中', '国'])
          (isEnglish (split converted)) p) := by
  refine ⟨by decide, fun h => ?_⟩
  have hpieces : pieces (oneWord ['中', '国']) (oneWordSorting ['中', '国'])
      (isEnglish (split converted)) (converted, 0, 3) = [(converted, 0, 4)] := by decide
  have hnested := h (converted, 0, 3) (by decide)
  rw [hpieces] at hnested
  have hwithin := (hnested.within (converted, 0, 4) List.mem_cons_self).2.2
  exact absurd hwithin (by decide)

end RagFlow.Analyzer
