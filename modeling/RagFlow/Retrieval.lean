import Mathlib.Data.List.Nodup
import Mathlib.Data.List.Perm.Basic
import Mathlib.Data.Nat.Log
import Mathlib.Tactic.SplitIfs
import RagFlow.Binary64
import RagFlow.Pages
import RagFlow.PyStr

/-! # Paging of a retrieval

`Dealer.retrieval` asks the store for a batch of `RERANK_LIMIT` hits, ranks them anew, drops those
below the threshold and returns one page of the rest.

* **Batch and slice.** `rerankLimit`, `requestPage` and `pageIdx` give for a page the number of its
  batch and its slice of the ranked hits; the two ceilings are ceilings of doubles.
* **Paging.** `Paged ps P`: on the pages `1 … P` batches follow one another without gaps, the pages
  of a batch cut its ranked hits, and every hit that passes is on exactly one page.
* **Rounding.** `paged_iff`: the pages `1 … P` are in order exactly if the page size is below
  `2 ^ 1081` and `P` is at most `k * 2 ^ (53 - log2 k)`, where `k` is the number of pages of a
  batch. -/

namespace RagFlow.Retrieval

open Py Binary64 Pages

variable {Hit Score : Type}

/-! ### The retrieval -/

/-- `math.ceil(a / b)`. -/
def ceilDiv (a b : ℤ) : Option ℤ := (trueDiv a b).map Int.ceil

/-- `RERANK_LIMIT`. -/
def rerankLimit (page_size : ℤ) : Option ℤ := do
  let limit ← if page_size > 1 then (ceilDiv 64 page_size).map (· * page_size) else some 1
  return max 30 limit

/-- The page of the request: the number of the batch. -/
def requestPage (limit page_size page : ℤ) : Option ℤ := ceilDiv (page_size * page) limit

/-- The slice of the ranked hits that is the page. -/
def pageIdx (limit page_size page : ℤ) (valid_idx : List ℕ) : List ℕ :=
  let max_pages := max (limit / max page_size 1) 1
  let page_index := (page - 1) % max_pages
  let begin_ := page_index * page_size
  let end_ := begin_ + page_size
  (valid_idx.drop begin_.toNat).take (end_.toNat - begin_.toNat)

/-- A retrieval but for the page: the request, the hits the store has for it in its order, and the
scores of hits.  Comparison of scores need not be an order (it is not one on doubles). -/
structure Query (Hit Score : Type) [LE Score] [Zero Score] where
  question : Str
  doc_ids : List Str
  similarity_threshold : Score
  vector_similarity_weight : Score
  /-- The hits of the store for the question, best first. -/
  ranking : List Hit
  /-- The similarities `rerank`, `rerank_by_model` or the store give the hits of a batch. -/
  sim : List Hit → List Score
  length_sim : ∀ hits, (sim hits).length = hits.length
  /-- `np.argsort(sim_np * -1)`. -/
  argsort : List Score → List ℕ
  argsort_perm : ∀ sim, (argsort sim).Perm (List.range sim.length)
  aggs : Bool
  docName : Hit → Str
  docId : Hit → Str

/-- What `retrieval` returns: a chunk is given with its similarity, the documents of the hits with
the number of hits they have. -/
structure Ranks (Hit Score : Type) where
  total : ℕ
  chunks : List (Hit × Score)
  doc_aggs : List (Str × Str × ℕ)

/-- The window of the ranking that `Dealer.search` reads from the store. -/
def search (ranking : List Hit) (page size : ℤ) : List Hit :=
  let pg := page - 1
  let offset := pg * size
  (ranking.drop offset.toNat).take size.toNat

/-- One hit of the loop that counts the hits of each document. -/
def countDoc (aggs : List (Str × Str × ℕ)) (dnm did : Str) : List (Str × Str × ℕ) :=
  if aggs.any (fun e => e.1 = dnm) then
    aggs.map (fun e => if e.1 = dnm then (e.1, e.2.1, e.2.2 + 1) else e)
  else aggs ++ [(dnm, did, 1)]

section query

variable [LE Score] [DecidableLE Score] [Zero Score]

def Query.postThreshold (q : Query Hit Score) : Score :=
  if q.doc_ids ≠ [] then 0
  else if q.vector_similarity_weight ≤ 0 then 0
  else q.similarity_threshold

/-- The hits of a batch that pass the threshold, best first. -/
def Query.validIdx (q : Query Hit Score) (hits : List Hit) : List ℕ :=
  (q.argsort (q.sim hits)).filter fun i =>
    match (q.sim hits)[i]? with
    | some s => decide (q.postThreshold ≤ s)
    | none => false

/-- The documents of the hits, those with more hits first. -/
def Query.docAggs (q : Query Hit Score) (hits : List Hit) (valid_idx : List ℕ) :
    List (Str × Str × ℕ) :=
  let found := valid_idx.filterMap (hits[·]?)
  (found.foldl (fun aggs h => countDoc aggs (q.docName h) (q.docId h)) []).mergeSort
    fun x y => decide (y.2.2 ≤ x.2.2)

/-- What `retrieval` makes of the hits of a batch. -/
def Query.ranks (q : Query Hit Score) (limit page_size page : ℤ) (hits : List Hit) :
    Ranks Hit Score :=
  let sim := q.sim hits
  let valid_idx := q.validIdx hits
  if sim.length = 0 then ⟨0, [], []⟩
  else if valid_idx.length = 0 then ⟨0, [], []⟩
  else
    let page_idx := pageIdx limit page_size page valid_idx
    ⟨valid_idx.length, page_idx.filterMap (fun i => (hits.zip sim)[i]?),
      if q.aggs then q.docAggs hits valid_idx else []⟩

/-- `retrieval`: `none` is an exception of a division. -/
def Query.retrieval (q : Query Hit Score) (page_size page : ℤ) : Option (Ranks Hit Score) :=
  if q.question = [] then some ⟨0, [], []⟩
  else do
    let limit ← rerankLimit page_size
    let batch ← requestPage limit page_size page
    return q.ranks limit page_size page (search q.ranking batch limit)

/-! ### Paging -/

/-- The pages of a batch. -/
def pagesPerBatch (page_size : ℤ) : ℕ :=
  if page_size = 1 then 30 else ((page_size + 63) / page_size).toNat

/-- The pages `1 … P` are in order, in batches of `limit` hits and `k` pages. -/
structure PagedBy (q : Query Hit Score) (page_size P limit : ℤ) (k : ℕ) : Prop where
  /-- The batch is a number of whole pages. -/
  multiple : limit = k * page_size
  /-- `k` pages after another ask for the same batch, the next `k` pages for the next. -/
  batch : ∀ page, 1 ≤ page → page ≤ P → requestPage limit page_size page = some ((page - 1) / k + 1)
  /-- The batches are the ranking without gaps. -/
  ranking : ∀ n : ℕ, (List.range n).flatMap (fun (b : ℕ) => search q.ranking (b + 1) limit) =
    q.ranking.take (n * limit.toNat)
  /-- The slices of the pages of a batch cut the hits of the batch. -/
  slices : ∀ valid_idx : List ℕ, (valid_idx.length : ℤ) ≤ limit → ∀ b : ℕ,
    (List.range k).flatMap (fun (j : ℕ) => pageIdx limit page_size (b * k + j + 1) valid_idx) =
      valid_idx
  /-- A hit that passes in its batch is on exactly one page. -/
  once : q.question ≠ [] → q.ranking.Nodup → ∀ b : ℕ, ((b + 1) * k : ℤ) ≤ P →
    ∀ i ∈ q.validIdx (search q.ranking (b + 1) limit),
    ∀ c, (search q.ranking (b + 1) limit)[i]? = some c →
    ∃! page : ℤ, 1 ≤ page ∧ page ≤ P ∧
      ∃ ranks, q.retrieval page_size page = some ranks ∧ c ∈ ranks.chunks.map Prod.fst

/-- The pages `1 … P` are in order. -/
def Paged (q : Query Hit Score) (page_size P : ℤ) : Prop :=
  ∃ limit k, rerankLimit page_size = some limit ∧ PagedBy q page_size P limit k

end query

/-! ### The limit and the number of the batch -/

theorem pagesPerBatch_bounds {ps : ℤ} (h : 1 ≤ ps) :
    1 ≤ pagesPerBatch ps ∧ pagesPerBatch ps ≤ 32 := by
  unfold pagesPerBatch
  split_ifs with h1
  · omega
  · have h2 : 2 ≤ ps := by omega
    have hlo : 1 ≤ (ps + 63) / ps := (Int.le_ediv_iff_mul_le (by omega)).mpr (by omega)
    have hhi : (ps + 63) / ps < 33 := (Int.ediv_lt_iff_lt_mul (by omega)).mpr (by omega)
    omega

theorem log_pagesPerBatch {ps : ℤ} (h : 1 ≤ ps) : Nat.log 2 (pagesPerBatch ps) ≤ 5 := by
  have hle : Nat.log 2 (pagesPerBatch ps) ≤ Nat.log 2 32 :=
    Nat.log_mono_right (pagesPerBatch_bounds h).2
  have h32 : Nat.log 2 32 = 5 := by
    rw [show 32 = 2 ^ 5 by rfl, Nat.log_pow (by norm_num)]
  omega

/-- The ceiling in whole numbers. -/
theorem ceil_div (a : ℤ) {b : ℤ} (hb : 0 < b) : ⌈(a : ℚ) / b⌉ = (a + b - 1) / b := by
  have hb' : (0 : ℚ) < b := by exact_mod_cast hb
  rw [Int.ceil_eq_iff, lt_div_iff₀ hb', div_le_iff₀ hb']
  have hmod := Int.emod_add_mul_ediv (a + b - 1) b
  have hlo := Int.emod_nonneg (a + b - 1) hb.ne'
  have hhi := Int.emod_lt_of_pos (a + b - 1) hb
  constructor
  · have : ((a + b - 1) / b - 1) * b < a := by linarith
    exact_mod_cast this
  · have : a ≤ (a + b - 1) / b * b := by linarith
    exact_mod_cast this

theorem ceilDiv_eq {a b : ℤ} (ha : 0 < a) (hb : 0 < b) (hle : a ≤ b * 2 ^ 54) :
    ceilDiv a b = some ⌈nearest ((a : ℚ) / b)⌉ := by
  rw [ceilDiv, trueDiv_eq_some ha hb hle, Option.map_some]

theorem limit_two_pow : (2 : ℚ) ^ (-1075 : ℤ) = 64 / 2 ^ 1081 := by
  have h : (2 : ℚ) ^ 1081 = 2 ^ 6 * 2 ^ 1075 := by rw [← pow_add]
  rw [h, zpow_neg, show (1075 : ℤ) = ((1075 : ℕ) : ℤ) by rfl, zpow_natCast]
  field_simp
  norm_num

/-- `RERANK_LIMIT` is a number of whole pages, unless the page is so large that `64 / page_size` is
rounded to zero. -/
theorem ceil_nearest_64 {ps : ℤ} (h : 2 ≤ ps) (hlt : ps < 2 ^ 1081) :
    ⌈nearest ((64 : ℤ) / ps : ℚ)⌉ = (ps + 63) / ps := by
  have hps : (0 : ℚ) < ps := by exact_mod_cast (by omega : 0 < ps)
  rcases le_or_gt ps 64 with hle | hgt
  · obtain ⟨n, rfl⟩ := Int.eq_ofNat_of_zero_le (by omega : 0 ≤ ps)
    have hlog : Nat.log 2 n ≤ 6 := by
      have hn : n ≤ 2 ^ 6 := by omega
      have := Nat.log_mono_right (b := 2) hn
      rwa [Nat.log_pow (by norm_num)] at this
    have hpow : 2 ^ 47 ≤ 2 ^ (53 - Nat.log 2 n) := Nat.pow_le_pow_right (by norm_num) (by omega)
    have hle64 : 64 ≤ n * 2 ^ (53 - Nat.log 2 n) := by
      have := Nat.mul_le_mul (show 1 ≤ n by omega) hpow
      omega
    have hceil := ceil_nearest_div (a := 64) (by omega) (by omega : 0 < n) (by omega) hle64
    have hdiv := ceil_div 64 (by omega : (0 : ℤ) < n)
    push_cast at hceil hdiv ⊢
    rw [hceil, hdiv]
    congr 1
    omega
  · rw [ceil_nearest_one]
    · symm
      rw [Int.ediv_eq_iff_of_pos (by omega)]
      omega
    · rw [limit_two_pow]
      have hlt' : (ps : ℚ) < 2 ^ 1081 := by
        rw [← Int.cast_ofNat, ← Int.cast_pow]
        exact Int.cast_lt.mpr hlt
      rw [Int.cast_ofNat]
      gcongr
    · have hgt' : (64 : ℚ) < ps := by exact_mod_cast hgt
      push_cast
      rw [div_le_one hps]
      exact hgt'.le

theorem rerankLimit_eq {ps : ℤ} (h : 1 ≤ ps) (hlt : ps < 2 ^ 1081) :
    rerankLimit ps = some (pagesPerBatch ps * ps) := by
  rcases eq_or_lt_of_le h with rfl | h2
  · rfl
  · have hceil : ceilDiv 64 ps = some ((ps + 63) / ps) := by
      rw [ceilDiv_eq (by omega) (by omega) (by omega), ceil_nearest_64 (by omega) hlt]
    have hk : (pagesPerBatch ps : ℤ) = (ps + 63) / ps := by
      have := (pagesPerBatch_bounds h).1
      unfold pagesPerBatch at this ⊢
      rw [if_neg (by omega)] at this ⊢
      omega
    have hmod := Int.emod_add_mul_ediv (ps + 63) ps
    have hlast := Int.emod_lt_of_pos (ps + 63) (by omega : 0 < ps)
    have hle : 30 ≤ (ps + 63) / ps * ps := by linarith
    unfold rerankLimit
    rw [if_pos h2, hceil, hk]
    show some (max 30 ((ps + 63) / ps * ps)) = _
    rw [max_eq_right hle]

theorem rerankLimit_huge {ps : ℤ} (h : 2 ^ 1081 ≤ ps) : rerankLimit ps = some 30 := by
  have h64 : 64 ≤ ps := by
    have hpow : (2 : ℤ) ^ 6 ≤ 2 ^ 1081 := pow_le_pow_right₀ one_le_two (by omega)
    exact le_trans (by norm_num) (hpow.trans h)
  have hpos : 0 < ps := lt_of_lt_of_le (by norm_num) h64
  have hps : (0 : ℚ) < ps := by exact_mod_cast hpos
  have hsmall : ((64 : ℤ) : ℚ) / ps ≤ 2 ^ (-1075 : ℤ) := by
    have h' : (2 : ℚ) ^ 1081 ≤ ps := by
      rw [← Int.cast_ofNat, ← Int.cast_pow]
      exact Int.cast_le.mpr h
    rw [limit_two_pow, Int.cast_ofNat]
    gcongr
  have hceil : ceilDiv 64 ps = some 0 := by
    have hle : (64 : ℤ) ≤ ps * 2 ^ 54 := by linarith only [h64]
    rw [ceilDiv_eq (by norm_num) hpos hle, nearest_eq_zero (by positivity) hsmall, Int.ceil_zero]
  unfold rerankLimit
  rw [if_pos (lt_of_lt_of_le (by norm_num) h64), hceil]
  show some (max 30 (0 * ps)) = _
  rw [zero_mul]
  rfl

/-- The quotient of the request is the page over the pages of a batch. -/
theorem requestPage_eq {ps page : ℤ} {k : ℕ} (h : 1 ≤ ps) (hk : 1 ≤ k) (hpage : 1 ≤ page)
    (hle : page ≤ k * 2 ^ 54) :
    requestPage (k * ps) ps page = some ⌈nearest ((page.toNat : ℚ) / k)⌉ := by
  have hps : (ps : ℚ) ≠ 0 := by
    have : ps ≠ 0 := by omega
    exact_mod_cast this
  have hquot : ((ps * page : ℤ) : ℚ) / ((k * ps : ℤ) : ℚ) = (page.toNat : ℚ) / k := by
    have hcast : (page.toNat : ℚ) = (page : ℚ) := by
      exact_mod_cast Int.toNat_of_nonneg (by omega : 0 ≤ page)
    rw [hcast]
    push_cast
    rw [mul_comm (ps : ℚ), mul_div_mul_right _ _ hps]
  have hk' : (1 : ℤ) ≤ k := by exact_mod_cast hk
  rw [requestPage, ceilDiv_eq (by positivity) (by positivity), hquot]
  calc ps * page ≤ ps * (k * 2 ^ 54) := mul_le_mul_of_nonneg_left hle (by omega)
    _ = k * ps * 2 ^ 54 := by ring

/-- Up to `k * 2 ^ (53 - log2 k)` the pages ask for their batch. -/
theorem requestPage_exact {ps page : ℤ} {k : ℕ} (h : 1 ≤ ps) (hk : 1 ≤ k)
    (hlog : Nat.log 2 k ≤ 53) (hpage : 1 ≤ page) (hle : page ≤ k * 2 ^ (53 - Nat.log 2 k)) :
    requestPage (k * ps) ps page = some ((page - 1) / k + 1) := by
  have hpow : (2 : ℤ) ^ (53 - Nat.log 2 k) ≤ 2 ^ 54 := by
    gcongr
    · norm_num
    · omega
  have hle54 : page ≤ k * 2 ^ 54 := hle.trans (by gcongr)
  obtain ⟨n, rfl⟩ := Int.eq_ofNat_of_zero_le (by omega : 0 ≤ page)
  have hceil := ceil_nearest_div (a := n) (by omega) (by omega : 0 < k) hlog (by exact_mod_cast hle)
  have hdiv := ceil_div (n : ℤ) (by omega : (0 : ℤ) < k)
  push_cast at hdiv
  rw [requestPage_eq h hk hpage hle54, Int.toNat_natCast, hceil, hdiv]
  congr 1
  rw [show (n : ℤ) + k - 1 = n - 1 + 1 * k by ring, Int.add_mul_ediv_right _ _ (by omega)]

/-- The next page asks for the batch before its own. -/
theorem requestPage_next {ps : ℤ} {k : ℕ} (h : 1 ≤ ps) (hk : 1 ≤ k) (hlog : Nat.log 2 k ≤ 52) :
    requestPage (k * ps) ps (k * 2 ^ (53 - Nat.log 2 k) + 1) =
      some (2 ^ (53 - Nat.log 2 k)) := by
  have hnext := nearest_div_succ (by omega : 0 < k) hlog
  have hpow : (2 : ℤ) ^ (53 - Nat.log 2 k) ≤ 2 ^ 53 := by
    gcongr
    · norm_num
    · omega
  have hk' : (1 : ℤ) ≤ k := by exact_mod_cast hk
  have hle : (k * 2 ^ (53 - Nat.log 2 k) + 1 : ℤ) ≤ k * 2 ^ 54 := by
    have := mul_le_mul_of_nonneg_left hpow (by omega : (0 : ℤ) ≤ k)
    linarith
  have hpos : (1 : ℤ) ≤ k * 2 ^ (53 - Nat.log 2 k) + 1 := by
    have : (0 : ℤ) ≤ k * 2 ^ (53 - Nat.log 2 k) := by positivity
    omega
  have hnat : (k * 2 ^ (53 - Nat.log 2 k) + 1 : ℤ).toNat = k * 2 ^ (53 - Nat.log 2 k) + 1 := by
    exact_mod_cast Int.toNat_natCast (k * 2 ^ (53 - Nat.log 2 k) + 1)
  rw [requestPage_eq h hk hpos hle, hnat, hnext]
  congr 1
  exact_mod_cast Int.ceil_intCast (R := ℚ) (2 ^ (53 - Nat.log 2 k))

/-! ### The slices -/

/-- The slice of page `j` of a batch is page `j` of its ranked hits. -/
theorem pageIdx_eq {n k j : ℕ} (hn : 1 ≤ n) (hj : j < k) (b : ℕ) (valid_idx : List ℕ) :
    pageIdx (k * n) n (b * k + j + 1) valid_idx = page valid_idx n j := by
  have hmax : max ((k * n : ℤ) / max (n : ℤ) 1) 1 = k := by
    rw [max_eq_left (by omega : (1 : ℤ) ≤ n), Int.mul_ediv_cancel _ (by omega : (n : ℤ) ≠ 0)]
    omega
  have hmod : ((b * k + j + 1 : ℤ) - 1) % k = j := by
    rw [show (b * k + j + 1 : ℤ) - 1 = j + b * k by ring, Int.add_mul_emod_self_right]
    exact Int.emod_eq_of_lt (by omega) (by omega)
  have hbegin : ((j : ℤ) * n).toNat = j * n := by exact_mod_cast Int.toNat_natCast (j * n)
  have hend : ((j : ℤ) * n + n).toNat = j * n + n := by
    exact_mod_cast Int.toNat_natCast (j * n + n)
  unfold pageIdx page
  dsimp only
  rw [hmax, hmod, hbegin, hend, Nat.add_sub_cancel_left]

theorem slices_eq {n k : ℕ} (hn : 1 ≤ n) {valid_idx : List ℕ}
    (hlen : (valid_idx.length : ℤ) ≤ k * n) (b : ℕ) :
    (List.range k).flatMap (fun (j : ℕ) => pageIdx (k * n) n (b * k + j + 1) valid_idx) =
      valid_idx := by
  have hcongr : (List.range k).flatMap
      (fun (j : ℕ) => pageIdx (k * n) n (b * k + j + 1) valid_idx) =
      (List.range k).flatMap (page valid_idx n) := by
    refine List.flatMap_congr (fun j hj => ?_)
    exact pageIdx_eq hn (List.mem_range.mp hj) b valid_idx
  rw [hcongr]
  exact flatMap_page_eq (by exact_mod_cast hlen)

/-- The window of a batch is a page of the ranking. -/
theorem search_eq (ranking : List Hit) (m b : ℕ) : search ranking (b + 1) m = page ranking m b := by
  have hoffset : ((b : ℤ) * m).toNat = b * m := by exact_mod_cast Int.toNat_natCast (b * m)
  unfold search page
  dsimp only
  rw [add_sub_cancel_right, hoffset, Int.toNat_natCast]

/-! ### The hits on a page -/

section hits

variable [LE Score] [DecidableLE Score] [Zero Score] (q : Query Hit Score)

theorem nodup_validIdx (hits : List Hit) : (q.validIdx hits).Nodup :=
  ((q.argsort_perm _).nodup_iff.mpr List.nodup_range).filter _

theorem validIdx_lt {hits : List Hit} {i : ℕ} (h : i ∈ q.validIdx hits) : i < hits.length := by
  have hmem := (q.argsort_perm (q.sim hits)).mem_iff.mp (List.mem_filter.mp h).1
  rwa [List.mem_range, q.length_sim] at hmem

theorem length_validIdx_le (hits : List Hit) : (q.validIdx hits).length ≤ hits.length := by
  have h := List.length_filter_le
    (fun i => match (q.sim hits)[i]? with
      | some s => decide (q.postThreshold ≤ s)
      | none => false) (q.argsort (q.sim hits))
  rw [(q.argsort_perm _).length_eq, List.length_range, q.length_sim] at h
  exact h

/-- The hits of a page are those of its slice. -/
theorem mem_chunks_ranks (limit ps page : ℤ) (hits : List Hit) (c : Hit) :
    c ∈ (q.ranks limit ps page hits).chunks.map Prod.fst ↔
      ∃ i ∈ pageIdx limit ps page (q.validIdx hits), hits[i]? = some c := by
  have hslice : ∀ i ∈ pageIdx limit ps page (q.validIdx hits), i ∈ q.validIdx hits := by
    intro i hi
    exact List.mem_of_mem_drop (List.mem_of_mem_take hi)
  unfold Query.ranks
  dsimp only
  by_cases hsim : (q.sim hits).length = 0
  · rw [if_pos hsim]
    refine iff_of_false List.not_mem_nil ?_
    rintro ⟨i, hi, -⟩
    have := validIdx_lt q (hslice i hi)
    rw [q.length_sim] at hsim
    omega
  rw [if_neg hsim]
  by_cases hvalid : (q.validIdx hits).length = 0
  · rw [if_pos hvalid]
    refine iff_of_false List.not_mem_nil ?_
    rintro ⟨i, hi, -⟩
    have := List.length_pos_of_mem (hslice i hi)
    omega
  rw [if_neg hvalid, List.mem_map]
  constructor
  · rintro ⟨⟨c', s⟩, hmem, rfl⟩
    obtain ⟨i, hi, hget⟩ := List.mem_filterMap.mp hmem
    exact ⟨i, hi, (List.getElem?_zip_eq_some.mp hget).1⟩
  · rintro ⟨i, hi, hget⟩
    have hlt : i < (q.sim hits).length := by
      rw [q.length_sim]
      exact validIdx_lt q (hslice i hi)
    refine ⟨(c, (q.sim hits)[i]), List.mem_filterMap.mpr ⟨i, hi, ?_⟩, rfl⟩
    exact List.getElem?_zip_eq_some.mpr ⟨hget, List.getElem?_eq_getElem hlt⟩

theorem retrieval_eq (hq : q.question ≠ []) {ps page limit batch : ℤ}
    (hlimit : rerankLimit ps = some limit) (hbatch : requestPage limit ps page = some batch) :
    q.retrieval ps page = some (q.ranks limit ps page (search q.ranking batch limit)) := by
  unfold Query.retrieval
  rw [if_neg hq, hlimit]
  show (do
    let batch ← requestPage limit ps page
    return q.ranks limit ps page (search q.ranking batch limit)) = _
  rw [hbatch]
  rfl

/-- Page `b * k + j + 1` shows the hits of page `j` of batch `b`. -/
theorem on_page_iff {n k : ℕ} (hn : 1 ≤ n) {P : ℤ} (hlimit : rerankLimit n = some ((k : ℤ) * n))
    (hbatch : ∀ page : ℤ, 1 ≤ page → page ≤ P →
      requestPage (k * n) n page = some ((page - 1) / k + 1))
    (hq : q.question ≠ []) {b j : ℕ} (hj : j < k) (hP : (b * k + j + 1 : ℤ) ≤ P) (c : Hit) :
    (∃ ranks, q.retrieval n (b * k + j + 1) = some ranks ∧ c ∈ ranks.chunks.map Prod.fst) ↔
      ∃ i ∈ page (q.validIdx (page q.ranking (k * n) b)) n j,
        (page q.ranking (k * n) b)[i]? = some c := by
  have hdiv : ((b * k + j + 1 : ℤ) - 1) / k = b := by
    rw [show (b * k + j + 1 : ℤ) - 1 = j + b * k by ring, Int.add_mul_ediv_right _ _ (by omega),
      Int.ediv_eq_zero_of_lt (by omega) (by omega), zero_add]
  have hone : (1 : ℤ) ≤ b * k + j + 1 := by
    have : (0 : ℤ) ≤ b * k := by positivity
    omega
  have hb := hbatch (b * k + j + 1) hone hP
  rw [hdiv] at hb
  have hsearch : search q.ranking (b + 1) (k * n) = page q.ranking (k * n) b := by
    exact_mod_cast search_eq q.ranking (k * n) b
  rw [retrieval_eq q hq hlimit hb, hsearch]
  have hmem := mem_chunks_ranks q (k * n) n (b * k + j + 1) (page q.ranking (k * n) b) c
  rw [pageIdx_eq hn hj b] at hmem
  rw [← hmem]
  constructor
  · rintro ⟨ranks, h, hc⟩
    cases h
    exact hc
  · intro hc
    exact ⟨_, rfl, hc⟩

/-- A hit that passes in its batch is on exactly one page. -/
theorem once_of_batches {n k : ℕ} (hn : 1 ≤ n) (hk : 1 ≤ k) {P : ℤ}
    (hlimit : rerankLimit n = some ((k : ℤ) * n))
    (hbatch : ∀ page : ℤ, 1 ≤ page → page ≤ P →
      requestPage (k * n) n page = some ((page - 1) / k + 1))
    (hq : q.question ≠ []) (hnodup : q.ranking.Nodup) {b : ℕ} (hb : ((b + 1) * k : ℤ) ≤ P)
    {i : ℕ} (hi : i ∈ q.validIdx (page q.ranking (k * n) b)) {c : Hit}
    (hc : (page q.ranking (k * n) b)[i]? = some c) :
    ∃! page : ℤ, 1 ≤ page ∧ page ≤ P ∧
      ∃ ranks, q.retrieval n page = some ranks ∧ c ∈ ranks.chunks.map Prod.fst := by
  have hlen : ∀ b, (page q.ranking (k * n) b).length ≤ k * n := length_page_le _ _
  have hpos : 0 < k * n := Nat.mul_pos hk hn
  -- the place of the hit among the ranked hits of the batch gives the page
  obtain ⟨m, hm⟩ := List.mem_iff_getElem?.mp hi
  have hmlt : m < k * n := by
    obtain ⟨h, -⟩ := List.getElem?_eq_some_iff.mp hm
    exact lt_of_lt_of_le h ((length_validIdx_le q _).trans (hlen b))
  have hmdiv : m / n < k := Nat.div_lt_of_lt_mul (by rwa [Nat.mul_comm])
  have hmP : (b * k + (m / n : ℕ) + 1 : ℤ) ≤ P := by
    have : ((m / n : ℕ) : ℤ) + 1 ≤ k := by exact_mod_cast hmdiv
    linarith
  have hone : (1 : ℤ) ≤ b * k + (m / n : ℕ) + 1 := by
    have hbk : (0 : ℤ) ≤ b * k := by positivity
    have hdiv : (0 : ℤ) ≤ (m / n : ℕ) := Int.natCast_nonneg _
    linarith
  refine ⟨b * k + (m / n : ℕ) + 1, ⟨hone, hmP, ?_⟩, ?_⟩
  · rw [on_page_iff q hn hlimit hbatch hq hmdiv hmP]
    exact ⟨i, (mem_page hn).mpr ⟨m, rfl, hm⟩, hc⟩
  · rintro p ⟨hp1, hpP, hp⟩
    -- another page with the hit belongs to the same batch, and to the same slice of it
    obtain ⟨b', j', hj', rfl⟩ : ∃ b' j' : ℕ, j' < k ∧ p = b' * k + j' + 1 := by
      refine ⟨(p - 1).toNat / k, (p - 1).toNat % k, Nat.mod_lt _ hk, ?_⟩
      have hsplit := Nat.div_add_mod' (p - 1).toNat k
      have : ((((p - 1).toNat / k * k + (p - 1).toNat % k : ℕ)) : ℤ) = (p - 1).toNat := by
        exact_mod_cast hsplit
      push_cast at this ⊢
      omega
    rw [on_page_iff q hn hlimit hbatch hq hj' hpP] at hp
    obtain ⟨i', hi', hc'⟩ := hp
    obtain ⟨m', hm', hget'⟩ := (mem_page hn).mp hi'
    have hilt : i < k * n := (validIdx_lt q hi).trans_le (hlen b)
    have hilt' : i' < k * n :=
      (validIdx_lt q (List.mem_of_getElem? hget')).trans_le (hlen b')
    rw [getElem?_page hilt] at hc
    rw [getElem?_page hilt'] at hc'
    have hsame : b * (k * n) + i = b' * (k * n) + i' := by
      obtain ⟨h, heq⟩ := List.getElem?_eq_some_iff.mp hc
      obtain ⟨h', heq'⟩ := List.getElem?_eq_some_iff.mp hc'
      exact (hnodup.getElem_inj_iff).mp (heq.trans heq'.symm)
    have hbb : b = b' := by
      have h1 : (b * (k * n) + i) / (k * n) = b := by
        rw [Nat.add_comm, Nat.add_mul_div_right _ _ hpos, Nat.div_eq_of_lt hilt, Nat.zero_add]
      have h2 : (b' * (k * n) + i') / (k * n) = b' := by
        rw [Nat.add_comm, Nat.add_mul_div_right _ _ hpos, Nat.div_eq_of_lt hilt', Nat.zero_add]
      rw [← h1, ← h2, hsame]
    subst hbb
    have hii : i = i' := by omega
    subst hii
    have hmm : m = m' := by
      obtain ⟨h, heq⟩ := List.getElem?_eq_some_iff.mp hm
      obtain ⟨h', heq'⟩ := List.getElem?_eq_some_iff.mp hget'
      exact ((nodup_validIdx q _).getElem_inj_iff).mp (heq.trans heq'.symm)
    rw [← hm', ← hmm]

theorem bounds_of_paged {ps P : ℤ} (hps : 1 ≤ ps) (h : Paged q ps P) :
    ps < 2 ^ 1081 ∧ P ≤ pagesPerBatch ps * 2 ^ (53 - Nat.log 2 (pagesPerBatch ps)) := by
  have hk := (pagesPerBatch_bounds hps).1
  have hlog := log_pagesPerBatch hps
  obtain ⟨limit, k, hlimit, h⟩ := h
  rcases lt_or_ge ps (2 ^ 1081) with hlt | hge
  · refine ⟨hlt, ?_⟩
    rw [rerankLimit_eq hps hlt] at hlimit
    have hmul : (pagesPerBatch ps * ps : ℤ) = k * ps := (Option.some.inj hlimit).trans h.multiple
    have hkk : pagesPerBatch ps = k := by
      exact_mod_cast mul_right_cancel₀ (by omega : ps ≠ 0) hmul
    subst hkk
    by_contra hP
    have hnonneg : (0 : ℤ) ≤ pagesPerBatch ps * 2 ^ (53 - Nat.log 2 (pagesPerBatch ps)) := by
      positivity
    have hbatch := h.batch (pagesPerBatch ps * 2 ^ (53 - Nat.log 2 (pagesPerBatch ps)) + 1)
      (by omega) (by omega)
    rw [h.multiple, requestPage_next hps hk (by omega), add_sub_cancel_right,
      Int.mul_ediv_cancel_left _ (by omega : (pagesPerBatch ps : ℤ) ≠ 0)] at hbatch
    have := Option.some.inj hbatch
    omega
  · exfalso
    rw [rerankLimit_huge hge] at hlimit
    have hmul : (30 : ℤ) = k * ps := (Option.some.inj hlimit).trans h.multiple
    have hle := Int.le_of_dvd (by norm_num) (Dvd.intro_left (k : ℤ) hmul.symm)
    have hpow : (2 : ℤ) ^ 6 ≤ 2 ^ 1081 := pow_le_pow_right₀ one_le_two (by omega)
    have := (hpow.trans hge).trans hle
    norm_num at this

theorem paged_of_bounds {ps P : ℤ} (hps : 1 ≤ ps) (hlt : ps < 2 ^ 1081)
    (hP : P ≤ pagesPerBatch ps * 2 ^ (53 - Nat.log 2 (pagesPerBatch ps))) : Paged q ps P := by
  have hk := (pagesPerBatch_bounds hps).1
  have hlog := log_pagesPerBatch hps
  have hlimit := rerankLimit_eq hps hlt
  have hbatch : ∀ page : ℤ, 1 ≤ page → page ≤ P → requestPage (pagesPerBatch ps * ps) ps page =
      some ((page - 1) / pagesPerBatch ps + 1) := by
    intro page hpage hle
    exact requestPage_exact hps hk (by omega) hpage (hle.trans hP)
  clear hlt
  obtain ⟨n, rfl⟩ := Int.eq_ofNat_of_zero_le (by omega : 0 ≤ ps)
  generalize pagesPerBatch n = k at *
  have hsearch : ∀ b : ℕ, search q.ranking (b + 1) (k * n) = page q.ranking (k * n) b := by
    intro b
    exact_mod_cast search_eq q.ranking (k * n) b
  refine ⟨k * n, k, hlimit, ⟨rfl, hbatch, ?_, ?_, ?_⟩⟩
  · intro m
    have hnat : (k * n : ℤ).toNat = k * n := by exact_mod_cast Int.toNat_natCast (k * n)
    rw [hnat, ← flatMap_page]
    exact List.flatMap_congr (fun b _ => hsearch b)
  · intro valid_idx hlen b
    exact slices_eq (by omega) hlen b
  · intro hq hnodup b hb i hi c hc
    rw [hsearch] at hi hc
    exact once_of_batches q (by omega) hk hlimit hbatch hq hnodup hb hi hc

/-- Exactly when the pages `1 … P` are in order. -/
theorem paged_iff {ps P : ℤ} (hps : 1 ≤ ps) :
    Paged q ps P ↔
      ps < 2 ^ 1081 ∧ P ≤ pagesPerBatch ps * 2 ^ (53 - Nat.log 2 (pagesPerBatch ps)) := by
  constructor
  · intro h
    exact bounds_of_paged q hps h
  · rintro ⟨hlt, hP⟩
    exact paged_of_bounds q hps hlt hP

end hits

/-- A question with three hits, scored in the reverse order of the store. -/
def threeHits : Query ℕ ℕ where
  question := "rag".toList
  doc_ids := []
  similarity_threshold := 1
  vector_similarity_weight := 1
  ranking := [10, 11, 12]
  sim hits := hits
  length_sim _ := rfl
  argsort sim := (List.range sim.length).reverse
  argsort_perm _ := List.reverse_perm _
  aggs := false
  docName _ := []
  docId _ := []

theorem threeHits_paged : Paged threeHits 10 100 := by
  refine (paged_iff threeHits (by norm_num)).mpr ⟨?_, ?_⟩
  · have hpow : (2 : ℤ) ^ 4 ≤ 2 ^ 1081 := pow_le_pow_right₀ one_le_two (by omega)
    exact lt_of_lt_of_le (by norm_num) hpow
  · decide +kernel

/-- With 64 hits on a page the pages `2 ^ 53` and `2 ^ 53 + 1` ask for the same batch. -/
theorem threeHits_not_paged :
    requestPage 64 64 (2 ^ 53) = some (2 ^ 53) ∧ requestPage 64 64 (2 ^ 53 + 1) = some (2 ^ 53) ∧
      ¬ Paged threeHits 64 (2 ^ 53 + 1) := by
  have hlog : Nat.log 2 1 = 0 := Nat.log_one_right 2
  refine ⟨?_, ?_, ?_⟩
  · have h : requestPage ((1 : ℕ) * 64) 64 (2 ^ 53) = some ((2 ^ 53 - 1) / ((1 : ℕ) : ℤ) + 1) :=
      requestPage_exact (by norm_num) le_rfl (by omega) (by norm_num) (by rw [hlog]; norm_num)
    simpa using h
  · have h : requestPage ((1 : ℕ) * 64) 64 ((1 : ℕ) * 2 ^ (53 - Nat.log 2 1) + 1) =
        some (2 ^ (53 - Nat.log 2 1)) := requestPage_next (by norm_num) le_rfl (by omega)
    rw [hlog] at h
    simpa using h
  · intro h
    have hle := (bounds_of_paged threeHits (by norm_num) h).2
    rw [show pagesPerBatch 64 = 1 by rfl, hlog] at hle
    norm_num at hle

end RagFlow.Retrieval
