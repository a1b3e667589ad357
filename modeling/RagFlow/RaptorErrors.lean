import Mathlib.Data.List.Perm.Basic
import RagFlow.Raptor

/-! # Failing summaries

RAPTOR counts the summaries that fail and goes on without them.

* **Tolerant run.** `layersFrom` are the layers if every failing summary is skipped: the summaries
  of one layer that succeed are the next layer.
* **Layers.** A layer of more than two chunks must have a summary for each cluster, by an assertion
  of the code; in a layer of two the one summary may fail (`layer_eq`).
* **Robustness.** `robust_iff`: the run gives the result of the tolerant one exactly if no chunk is
  dropped and no summary of a layer of more than two chunks fails. -/

namespace RagFlow.Raptor

open Py

variable {V : Type} (m : Models V)

/-! ### The tolerant run -/

def Reply.isFailed : Reply V → Bool
  | .failed => true
  | _ => false

def Reply.summary? : Reply V → Option (Chunk V)
  | .summary c => some c
  | _ => none

/-- The cluster of each chunk of a layer with `n` clusters. -/
def layerLabels (start size n : ℕ) : List ℕ :=
  if n = 1 then List.replicate size 0 else m.labels start

/-- The clusters of a layer, in the order in which their summaries are finished. -/
def layerCalls (start size : ℕ) : List (List ℕ) :=
  if size = 2 then [[start, start + 1]]
  else
    match getOptimalClusters m start size with
    | none => []
    | some n => m.order (clusters start n (layerLabels m start size n))

/-- The summaries that succeed. -/
def summaries (calls : List (List ℕ)) : List (Chunk V) :=
  calls.filterMap (fun ckIdx => (m.summarize ckIdx).summary?)

/-- The number of those that fail. -/
def failures (calls : List (List ℕ)) : ℕ := calls.countP (fun ckIdx => (m.summarize ckIdx).isFailed)

/-- The layers, each with its start and its size. -/
def layersFrom : ℕ → ℕ → ℕ → List (ℕ × ℕ)
  | 0, _, _ => []
  | fuel + 1, start, size =>
      if size ≤ 1 then []
      else (start, size) ::
        layersFrom fuel (start + size) (summaries m (layerCalls m start size)).length

def layers (chunks : List (Chunk V)) : List (ℕ × ℕ) :=
  layersFrom m (keep chunks).length 0 (keep chunks).length

/-- All calls of some layers. -/
def callsOf (ls : List (ℕ × ℕ)) : List (List ℕ) := ls.flatMap (fun l => layerCalls m l.1 l.2)

/-- A layer of more than two chunks has clusters, and none is empty. -/
def Clustered (l : ℕ × ℕ) : Prop :=
  2 < l.2 → ∃ n, getOptimalClusters m l.1 l.2 = some n ∧
    ∀ ckIdx ∈ clusters l.1 n (layerLabels m l.1 l.2 n), ckIdx ≠ []

/-- No summary of a layer of more than two chunks fails. -/
def Sound (l : ℕ × ℕ) : Prop := 2 < l.2 → failures m (layerCalls m l.1 l.2) = 0

instance (l : ℕ × ℕ) : Decidable (Sound m l) := inferInstanceAs (Decidable (_ → _))

/-! ### A layer -/

section layer
variable {m} {chunks : List (Chunk V)} {errors start : ℕ}

theorem summaries_cons (ckIdx : List ℕ) (calls : List (List ℕ)) :
    summaries m (ckIdx :: calls) = (m.summarize ckIdx).summary?.toList ++ summaries m calls := by
  unfold summaries
  rw [List.filterMap_cons]
  cases (m.summarize ckIdx).summary? <;> rfl

theorem failures_cons (ckIdx : List ℕ) (calls : List (List ℕ)) :
    failures m (ckIdx :: calls) =
      failures m calls + if (m.summarize ckIdx).isFailed then 1 else 0 := List.countP_cons

/-- Without too many errors the summaries that succeed are appended. -/
theorem summarizeAll_eq (hcancel : ∀ ckIdx, m.summarize ckIdx ≠ .canceled)
    (calls : List (List ℕ)) (herrors : errors + failures m calls < max 1 m.maxErrors) :
    summarizeAll m calls (chunks, errors) =
      some (chunks ++ summaries m calls, errors + failures m calls) := by
  induction calls generalizing chunks errors with
  | nil =>
      unfold summaries failures
      rw [List.filterMap_nil, List.append_nil]
      rfl
  | cons ckIdx calls ih =>
      rw [summarizeAll, summaries_cons]
      rw [failures_cons] at herrors ⊢
      cases hreply : m.summarize ckIdx with
      | summary c =>
          rw [hreply] at herrors
          dsimp only
          rw [ih herrors, List.append_assoc]
          rfl
      | failed =>
          rw [hreply] at herrors
          have herrors' : errors + (failures m calls + 1) < max 1 m.maxErrors := herrors
          dsimp only
          rw [if_neg (by omega), ih (by omega), Nat.add_assoc, Nat.add_comm 1]
          rfl
      | canceled => exact absurd hreply (hcancel ckIdx)

/-- A call succeeds or fails. -/
theorem length_summaries_add (hcancel : ∀ ckIdx, m.summarize ckIdx ≠ .canceled)
    (calls : List (List ℕ)) : (summaries m calls).length + failures m calls = calls.length := by
  induction calls with
  | nil => rfl
  | cons ckIdx calls ih =>
      rw [summaries_cons, failures_cons, List.length_append, List.length_cons, ← ih]
      cases hreply : m.summarize ckIdx with
      | summary c =>
          show 1 + _ + (_ + 0) = _
          omega
      | failed =>
          show 0 + _ + (_ + 1) = _
          omega
      | canceled => exact absurd hreply (hcancel ckIdx)

/-- A layer goes on with the summaries that succeed, but one of more than two chunks must not have
failures. -/
theorem layer_eq (hcancel : ∀ ckIdx, m.summarize ckIdx ≠ .canceled)
    (horder : ∀ cls, (m.order cls).Perm cls) {size : ℕ} (hsize : 2 ≤ size)
    (hlength : chunks.length = start + size) (hclustered : Clustered m (start, size))
    (herrors : errors + failures m (layerCalls m start size) < max 1 m.maxErrors) :
    layer m chunks start chunks.length errors =
      if Sound m (start, size) then
        some (chunks ++ summaries m (layerCalls m start size),
          errors + failures m (layerCalls m start size))
      else none := by
  have hstop : chunks.length - start = size := by omega
  unfold layer
  rw [hstop]
  by_cases htwo : size = 2
  · have hsound : Sound m (start, size) := fun h => absurd h (by omega)
    rw [if_pos htwo, if_pos hsound, ← summarizeAll_eq hcancel _ herrors]
    unfold layerCalls
    rw [if_pos htwo]
  · obtain ⟨n, hn, hfilled⟩ := hclustered (by omega)
    have hcalls : layerCalls m start size =
        m.order (clusters start n (layerLabels m start size n)) := by
      unfold layerCalls
      rw [if_neg htwo, hn]
    have hcount : (layerCalls m start size).length = n := by
      rw [hcalls, (horder _).length_eq]
      unfold clusters
      rw [List.length_map, List.length_range]
    have hrun := @summarizeAll_eq V m chunks errors hcancel _ herrors
    have hempty : ¬ (clusters start n (layerLabels m start size n)).any List.isEmpty = true := by
      rw [List.any_eq_true]
      rintro ⟨ckIdx, hmem, hnil⟩
      exact hfilled ckIdx hmem (List.isEmpty_iff.mp hnil)
    have hsound : Sound m (start, size) ↔ (summaries m (layerCalls m start size)).length = n := by
      have hadd := length_summaries_add hcancel (layerCalls m start size)
      unfold Sound
      constructor
      · intro h
        have hzero := h (show 2 < size by omega)
        dsimp only at hzero
        omega
      · intro h _
        dsimp only
        omega
    rw [hcalls] at hrun hsound ⊢
    rw [if_neg htwo, hn]
    unfold layerLabels at hempty hrun hsound ⊢
    dsimp only
    rw [if_neg hempty, hrun]
    dsimp only
    rw [List.length_append, Nat.add_sub_cancel_left]
    exact if_congr hsound.symm rfl rfl

/-! ### The run -/

theorem summaries_append (calls calls' : List (List ℕ)) :
    summaries m (calls ++ calls') = summaries m calls ++ summaries m calls' :=
  List.filterMap_append

theorem failures_append (calls calls' : List (List ℕ)) :
    failures m (calls ++ calls') = failures m calls + failures m calls' :=
  List.countP_append

/-- A layer has fewer summaries than chunks. -/
theorem length_summaries_lt (hcancel : ∀ ckIdx, m.summarize ckIdx ≠ .canceled)
    (horder : ∀ cls, (m.order cls).Perm cls) {size : ℕ} (hsize : 2 ≤ size) :
    (summaries m (layerCalls m start size)).length < size := by
  have hadd := length_summaries_add hcancel (layerCalls m start size)
  suffices hcalls : (layerCalls m start size).length < size by omega
  unfold layerCalls
  by_cases htwo : size = 2
  · rw [if_pos htwo, List.length_singleton]
    omega
  · rw [if_neg htwo]
    cases hn : getOptimalClusters m start size with
    | none => exact Nat.lt_of_lt_of_le Nat.zero_lt_two hsize
    | some n =>
        have hmem := List.argmin_mem hn
        rw [List.mem_range'_1] at hmem
        dsimp only
        rw [(horder _).length_eq]
        unfold clusters
        rw [List.length_map, List.length_range]
        omega

/-- The loop gives the result of the tolerant run if no layer raises. -/
theorem layerLoop_eq (hcancel : ∀ ckIdx, m.summarize ckIdx ≠ .canceled)
    (horder : ∀ cls, (m.order cls).Perm cls) {fuel size : ℕ} (hfuel : size ≤ fuel)
    (hlength : chunks.length = start + size)
    (hclustered : ∀ l ∈ layersFrom m fuel start size, Clustered m l)
    (herrors : errors + failures m (callsOf m (layersFrom m fuel start size)) <
      max 1 m.maxErrors) :
    layerLoop m fuel chunks start chunks.length errors =
      if ∀ l ∈ layersFrom m fuel start size, Sound m l then
        some (chunks ++ summaries m (callsOf m (layersFrom m fuel start size)))
      else none := by
  induction fuel generalizing chunks errors start size with
  | zero =>
      rw [layerLoop, layersFrom, if_pos (fun l h => absurd h List.not_mem_nil)]
      exact congrArg some (List.append_nil chunks).symm
  | succ fuel ih =>
      rw [layersFrom] at hclustered herrors ⊢
      by_cases hsmall : size ≤ 1
      · rw [if_pos hsmall, if_pos (fun l h => absurd h List.not_mem_nil), layerLoop_small]
        · exact congrArg some (List.append_nil chunks).symm
        · omega
      · rw [if_neg hsmall] at hclustered herrors ⊢
        rw [List.forall_mem_cons] at hclustered
        unfold callsOf at herrors ih ⊢
        rw [List.flatMap_cons, failures_append] at herrors
        dsimp only at herrors
        have hlayer := @layer_eq V m chunks errors start hcancel horder size (by omega) hlength
          hclustered.1 (by omega)
        have hlt := @length_summaries_lt V m start hcancel horder size (by omega)
        rw [layerLoop, if_neg (by omega), hlayer, List.flatMap_cons, summaries_append]
        by_cases hsound : Sound m (start, size)
        · have hnext := @ih (chunks ++ summaries m (layerCalls m start size))
            (errors + failures m (layerCalls m start size)) (start + size)
            (summaries m (layerCalls m start size)).length (by omega)
            (by rw [List.length_append, hlength]) hclustered.2 (by omega)
          rw [if_pos hsound]
          dsimp only
          rw [hlength, hnext, List.append_assoc]
          exact if_congr (by rw [List.forall_mem_cons, and_iff_right hsound]) rfl rfl
        · rw [if_neg hsound, if_neg (fun h => hsound (h _ List.mem_cons_self))]

end layer

/-! ### Robustness -/

section robust
variable {m} {chunks : List (Chunk V)}

/-- **Robustness.**  The run returns the chunks with all summaries that succeed exactly if every
chunk is kept and no summary of a layer of more than two chunks fails. -/
theorem robust_iff (hchunks : 2 ≤ chunks.length) (hcancel : ∀ ckIdx, m.summarize ckIdx ≠ .canceled)
    (horder : ∀ cls, (m.order cls).Perm cls)
    (hclustered : ∀ l ∈ layers m chunks, Clustered m l)
    (herrors : failures m (callsOf m (layers m chunks)) < max 1 m.maxErrors) :
    raptor m chunks = some (chunks ++ summaries m (callsOf m (layers m chunks))) ↔
      AllKept chunks ∧ ∀ l ∈ layers m chunks, Sound m l := by
  have hloop := @layerLoop_eq V m (keep chunks) 0 0 hcancel horder (keep chunks).length
    (keep chunks).length (Nat.le_refl _) (Nat.zero_add _).symm hclustered
    (by rwa [Nat.zero_add])
  unfold raptor
  rw [if_neg (by omega), hloop]
  constructor
  · intro h
    split_ifs at h with hsound
    have hkeep : keep chunks = chunks := List.append_cancel_right (Option.some.inj h)
    exact ⟨keep_eq_self_iff.mp (congrArg List.length hkeep), hsound⟩
  · rintro ⟨hkept, hsound⟩
    have hkeep : keep chunks = chunks :=
      (keep_sublist chunks).eq_of_length (keep_eq_self_iff.mpr hkept)
    unfold layers at hsound ⊢
    rw [if_pos hsound, hkeep]

end robust

/-- Models of which no summary succeeds. -/
def failingModels : Models ℕ := { sampleModels with summarize := fun _ => .failed }

def triple : List (Chunk ℕ) := [("a", [1]), ("b", [2]), ("c", [3])]

/-- Three chunks in one cluster are returned with its summary. -/
theorem robust_triple :
    raptor sampleModels triple = some (triple ++ ([("s", [7])] : List (Chunk ℕ))) := by
  have hlayers : layers sampleModels triple = [(0, 3)] := rfl
  refine (@robust_iff ℕ sampleModels triple (by decide) (fun _ h => by cases h)
    (fun _ => List.Perm.refl _) ?_ ?_).mpr ⟨?_, ?_⟩
  · rw [hlayers, List.forall_mem_singleton]
    exact fun _ => ⟨1, rfl, by decide⟩
  · rw [hlayers]
    show failures sampleModels [[0, 1, 2]] < 3
    decide
  · rw [← keep_eq_self_iff]
    decide
  · rw [hlayers, List.forall_mem_singleton]
    exact fun _ => rfl

/-- Three chunks in one cluster whose summary fails: the run raises at the first error of three. -/
theorem not_robust_triple :
    (∀ l ∈ layers failingModels triple, Clustered failingModels l) ∧
      failures failingModels (callsOf failingModels (layers failingModels triple)) <
        max 1 failingModels.maxErrors ∧
      raptor failingModels triple = none := by
  have hlayers : layers failingModels triple = [(0, 3)] := rfl
  refine ⟨?_, ?_, rfl⟩
  · rw [hlayers, List.forall_mem_singleton]
    exact fun _ => ⟨1, rfl, by decide⟩
  · rw [hlayers]
    show failures failingModels [[0, 1, 2]] < 3
    decide

end RagFlow.Raptor
