import RagFlow.Prompts

/-! # Batches of chunks for a table of contents

`split_chunks` of `rag/prompts/generator.py` packs the chunks into batches of at most `max_length`
tokens.  A chunk is not split; one with more tokens is to be a batch of its own.

* **The loop.** `Invariant` is kept by a chunk (`Invariant.add`) and by all of them
  (`invariant_foldl`): the batches are the chunks in order, and one of several chunks fits.
* **Empty batches.** A full batch is closed before the chunk is added, also if it has no chunk yet.
  `splitChunks_iff`: there is an empty batch exactly if the first chunk is too long by itself.
* **Sections.** `run_toc_from_text` passes over it (`chunkSections_spec`). -/

namespace RagFlow.TocChunks

open Py Prompts

variable (enc : Encoder) (maxLength : ℤ)

/-- `{idx: chunk}`. -/
abbrev Entry := ℕ × Str

/-- The variables of the loop. -/
structure Packing where
  result : List (List Entry)
  batch : List Entry
  batchTokens : ℕ

/-- The beginning of a round: a batch that the chunk does not fit into is closed. -/
def Packing.close (s : Packing) (t : ℕ) : Packing :=
  if maxLength < (s.batchTokens + t : ℕ) then ⟨s.result ++ [s.batch], [], 0⟩ else s

/-- A round of the loop. -/
def Packing.add (s : Packing) (x : Entry) : Packing :=
  let t := enc.numTokens x.2
  let s := s.close maxLength t
  ⟨s.result, s.batch ++ [x], s.batchTokens + t⟩

def enumerate (chunks : List Str) : List Entry := chunks.zipIdx.map Prod.swap

def splitChunks (chunks : List Str) : List (List Entry) :=
  let s := (enumerate chunks).foldl (Packing.add enc maxLength) ⟨[], [], 0⟩
  if s.batch ≠ [] then s.result ++ [s.batch] else s.result

/-- The batches that `run_toc_from_text` goes on with. -/
def chunkSections (inputBudget : ℤ) (chunks : List Str) : List (List Entry) :=
  (splitChunks enc inputBudget chunks).filter (· ≠ [])

/-! ### The specification -/

/-- The tokens of a batch. -/
def tokensOf (batch : List Entry) : ℕ := (batch.map (fun x => enc.numTokens x.2)).sum

theorem tokensOf_concat (batch : List Entry) (x : Entry) :
    tokensOf enc (batch ++ [x]) = tokensOf enc batch + enc.numTokens x.2 := by
  unfold tokensOf
  rw [List.map_append, List.sum_append, List.map_singleton, List.sum_singleton]

/-- A batch of several chunks has at most `max_length` tokens. -/
def Fits (batch : List Entry) : Prop := 1 < batch.length → (tokensOf enc batch : ℤ) ≤ maxLength

/-- What the batches of the chunks are to be. -/
structure Packs (chunks : List Str) (batches : List (List Entry)) : Prop where
  nonempty : ∀ batch ∈ batches, batch ≠ []
  flatten : batches.flatten = enumerate chunks
  fits : ∀ batch ∈ batches, Fits enc maxLength batch

/-! ### The loop -/

/-- After the chunks `done`. -/
structure Invariant (s : Packing) (done : List Entry) : Prop where
  tokens : s.batchTokens = tokensOf enc s.batch
  flatten : s.result.flatten ++ s.batch = done
  open_batch : s.batch = [] → done = []
  fits : ∀ batch ∈ s.result ++ [s.batch], Fits enc maxLength batch
  empty : [] ∈ s.result ↔ ∃ x ∈ done.head?, maxLength < enc.numTokens x.2

theorem invariant_start : Invariant enc maxLength ⟨[], [], 0⟩ [] where
  tokens := rfl
  flatten := rfl
  open_batch := fun _ => rfl
  fits := by
    intro batch hbatch hlen
    rw [List.nil_append, List.mem_singleton] at hbatch
    rw [hbatch] at hlen
    exact absurd hlen (by decide)
  empty := by
    refine iff_of_false List.not_mem_nil ?_
    rintro ⟨x, hx, -⟩
    exact nomatch hx

variable {enc maxLength}

/-- An empty batch is closed only if the first chunk does not fit into it. -/
theorem Invariant.empty_close {s : Packing} {done : List Entry}
    (h : Invariant enc maxLength s done) (x : Entry) :
    [] ∈ (s.close maxLength (enc.numTokens x.2)).result ↔
      ∃ y ∈ (done ++ [x]).head?, maxLength < enc.numTokens y.2 := by
  unfold Packing.close
  cases done with
  | nil =>
      have hbatch : s.batch = [] := (List.append_eq_nil_iff.mp h.flatten).2
      have htokens : s.batchTokens = 0 := by
        rw [h.tokens, hbatch]
        rfl
      have hresult : [] ∉ s.result := by
        intro hmem
        obtain ⟨y, hy, -⟩ := h.empty.mp hmem
        exact nomatch hy
      rw [htokens, Nat.zero_add]
      split_ifs with hlong
      · refine iff_of_true (List.mem_append_right _ ?_) ⟨x, rfl, hlong⟩
        rw [hbatch]
        exact List.mem_singleton_self _
      · refine iff_of_false hresult ?_
        rintro ⟨y, hy, hlt⟩
        obtain rfl : x = y := Option.some.inj hy
        exact hlong hlt
  | cons y done =>
      have hbatch : s.batch ≠ [] := fun hnil => nomatch h.open_batch hnil
      split_ifs with hlong
      · refine Iff.trans ?_ h.empty
        rw [List.mem_append, List.mem_singleton, or_iff_left (Ne.symm hbatch)]
      · exact h.empty

/-- A chunk. -/
theorem Invariant.add {s : Packing} {done : List Entry} (h : Invariant enc maxLength s done)
    (x : Entry) : Invariant enc maxLength (s.add enc maxLength x) (done ++ [x]) := by
  have hempty := h.empty_close x
  unfold Packing.add
  dsimp only
  unfold Packing.close at hempty ⊢
  split_ifs at hempty ⊢ with hlong
  · refine ⟨?_, ?_, (fun hnil => nomatch hnil), ?_, hempty⟩
    · exact (tokensOf_concat enc [] x).symm
    · rw [List.flatten_concat, h.flatten]
      rfl
    · intro batch hbatch hlen
      cases List.mem_append.mp hbatch with
      | inl hold => exact h.fits batch hold hlen
      | inr hnew =>
          rw [List.mem_singleton.mp hnew] at hlen
          exact absurd hlen (lt_irrefl 1)
  · refine ⟨?_, ?_, fun hnil => absurd hnil (List.concat_ne_nil _ _), ?_, hempty⟩
    · rw [tokensOf_concat, h.tokens]
    · rw [← List.append_assoc, h.flatten]
    · intro batch hbatch hlen
      cases List.mem_append.mp hbatch with
      | inl hold => exact h.fits batch (List.mem_append_left _ hold) hlen
      | inr hnew =>
          rw [List.mem_singleton.mp hnew, tokensOf_concat, ← h.tokens]
          exact not_lt.mp hlong

theorem invariant_foldl {s : Packing} {done : List Entry} (h : Invariant enc maxLength s done)
    (xs : List Entry) :
    Invariant enc maxLength (xs.foldl (Packing.add enc maxLength) s) (done ++ xs) := by
  induction xs generalizing s done with
  | nil => rwa [List.append_nil]
  | cons x xs ih =>
      rw [List.foldl_cons, List.append_cons]
      exact ih (h.add x)

/-! ### The batches -/

variable (enc maxLength)

theorem invariant_enumerate (chunks : List Str) :
    Invariant enc maxLength ((enumerate chunks).foldl (Packing.add enc maxLength) ⟨[], [], 0⟩)
      (enumerate chunks) :=
  invariant_foldl (invariant_start enc maxLength) (enumerate chunks)

theorem splitChunks_flatten (chunks : List Str) :
    (splitChunks enc maxLength chunks).flatten = enumerate chunks := by
  have h := (invariant_enumerate enc maxLength chunks).flatten
  unfold splitChunks
  dsimp only
  split_ifs with hbatch
  · rw [List.flatten_concat, h]
  · rwa [not_not.mp hbatch, List.append_nil] at h

theorem splitChunks_fits (chunks : List Str) :
    ∀ batch ∈ splitChunks enc maxLength chunks, Fits enc maxLength batch := by
  have h := (invariant_enumerate enc maxLength chunks).fits
  unfold splitChunks
  dsimp only
  split_ifs with hbatch
  · exact h
  · exact fun batch hmem => h batch (List.mem_append_left _ hmem)

theorem head?_enumerate (chunks : List Str) :
    (enumerate chunks).head? = chunks.head?.map (fun chunk => (0, chunk)) := by
  cases chunks with
  | nil => rfl
  | cons chunk chunks => rfl

theorem nil_mem_splitChunks_iff (chunks : List Str) :
    [] ∈ splitChunks enc maxLength chunks ↔
      ∃ chunk ∈ chunks.head?, maxLength < enc.numTokens chunk := by
  have h := (invariant_enumerate enc maxLength chunks).empty
  rw [head?_enumerate, Option.exists_mem_map] at h
  refine Iff.trans ?_ h
  unfold splitChunks
  dsimp only
  split_ifs with hbatch
  · rw [List.mem_append, List.mem_singleton, or_iff_left (Ne.symm hbatch)]
  · exact Iff.rfl

/-- The batches are as they are to be exactly if the first chunk has at most `max_length` tokens. -/
theorem splitChunks_iff (chunks : List Str) :
    Packs enc maxLength chunks (splitChunks enc maxLength chunks) ↔
      ∀ chunk ∈ chunks.head?, (enc.numTokens chunk : ℤ) ≤ maxLength := by
  have hnil := nil_mem_splitChunks_iff enc maxLength chunks
  constructor
  · intro h chunk hchunk
    by_contra hlong
    exact h.nonempty [] (hnil.mpr ⟨chunk, hchunk, not_le.mp hlong⟩) rfl
  · intro hfirst
    refine ⟨?_, splitChunks_flatten enc maxLength chunks, splitChunks_fits enc maxLength chunks⟩
    rintro batch hbatch rfl
    obtain ⟨chunk, hchunk, hlong⟩ := hnil.mp hbatch
    exact absurd (hfirst chunk hchunk) (not_le.mpr hlong)

/-- One chunk of three tokens, with room for two. -/
theorem splitChunks_empty_batch :
    splitChunks Encoder.characters 2 ["abc".toList] = [[], [(0, "abc".toList)]] ∧
      ¬ Packs Encoder.characters 2 ["abc".toList]
        (splitChunks Encoder.characters 2 ["abc".toList]) := by
  have hrun : splitChunks Encoder.characters 2 ["abc".toList] = [[], [(0, "abc".toList)]] := by
    decide
  refine ⟨hrun, fun h => ?_⟩
  rw [hrun] at h
  exact h.nonempty [] List.mem_cons_self rfl

theorem chunkSections_spec (inputBudget : ℤ) (chunks : List Str) :
    Packs enc inputBudget chunks (chunkSections enc inputBudget chunks) where
  nonempty := fun batch hbatch => of_decide_eq_true (List.mem_filter.mp hbatch).2
  flatten := by
    rw [chunkSections, List.flatten_filter_ne_nil, splitChunks_flatten]
  fits := fun batch hbatch =>
    splitChunks_fits enc inputBudget chunks batch (List.mem_filter.mp hbatch).1

end RagFlow.TocChunks
