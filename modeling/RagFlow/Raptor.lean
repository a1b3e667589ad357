import Mathlib.Data.List.MinMax
import Mathlib.Data.Rat.Defs
import Mathlib.Algebra.Order.Ring.Rat
import RagFlow.PyStr

/-! # Summaries of chunks by RAPTOR

`run_raptor_for_kb` reads the chunks of documents from the store, lets RAPTOR summarize them and
makes documents of the summaries.

* **RAPTOR.** `raptor` keeps the chunks that have a text and a vector, and appends summaries of
  clusters to them, layer by layer, until a layer has one chunk.  What the models say is data of the
  call (`Models`).
* **Documents.** `generate` takes for summaries what follows the first `len(chunks)` chunks of the
  result, where `chunks` are those it was given.
* **Completeness.** `summaries_stored_iff`: all summaries are stored exactly if RAPTOR keeps all the
  chunks it is given or makes no summary. -/

namespace RagFlow.Raptor

open Py

variable {V : Type}

/-- A chunk or a summary: its text and its vector. -/
abbrev Chunk (V : Type) := Str × List V

/-! ### RAPTOR -/

/-- What becomes of a cluster. -/
inductive Reply (V : Type) where
  | summary (c : Chunk V)
  /-- An exception, which is counted. -/
  | failed
  /-- The task was cancelled. -/
  | canceled

/-- What the models and the other tasks do in one call.  The chunks of a cluster are given by their
places. -/
structure Models (V : Type) where
  maxCluster : ℕ
  maxErrors : ℕ
  /-- The criterion of a number of clusters for the layer that starts at a place. -/
  bic : ℕ → ℕ → ℚ
  /-- The cluster of each chunk of the layer. -/
  labels : ℕ → List ℕ
  summarize : List ℕ → Reply V
  /-- The order in which the summaries of the clusters are finished. -/
  order : List (List ℕ) → List (List ℕ)

variable (m : Models V)

/-- The chunks that `__call__` goes on with. -/
def keep (chunks : List (Chunk V)) : List (Chunk V) :=
  chunks.filter (fun c => !c.1.isEmpty && 0 < c.2.length)

/-- `_get_optimal_clusters` for the layer of `size` chunks that starts at `start`; `none` means that
there is no number to choose from. -/
def getOptimalClusters (start size : ℕ) : Option ℕ :=
  (List.range' 1 (min m.maxCluster size - 1)).argmin (m.bic start)

/-- `summarize` for clusters one after another, with the count of the errors; `none` means that it
raises. -/
def summarizeAll : List (List ℕ) → List (Chunk V) × ℕ → Option (List (Chunk V) × ℕ)
  | [], s => some s
  | ckIdx :: rest, (chunks, errors) =>
      match m.summarize ckIdx with
      | .summary c => summarizeAll rest (chunks ++ [c], errors)
      | .failed =>
          if max 1 m.maxErrors ≤ errors + 1 then none
          else summarizeAll rest (chunks, errors + 1)
      | .canceled => none

/-- The places of the chunks in each of `n` clusters. -/
def clusters (start n : ℕ) (lbls : List ℕ) : List (List ℕ) :=
  (List.range n).map (fun c =>
    ((List.range lbls.length).filter (fun i => lbls[i]? = some c)).map (· + start))

/-- One layer, of the chunks from `start` to `stop`: the chunks after it and the errors; `none`
means that it raises. -/
def layer (chunks : List (Chunk V)) (start stop errors : ℕ) : Option (List (Chunk V) × ℕ) :=
  if stop - start = 2 then summarizeAll m [[start, start + 1]] (chunks, errors)
  else
    match getOptimalClusters m start (stop - start) with
    | none => none
    | some n =>
        let lbls := if n = 1 then List.replicate (stop - start) 0 else m.labels start
        -- the two assertions: no cluster is empty, and each has its summary
        if (clusters start n lbls).any List.isEmpty then none
        else
          match summarizeAll m (m.order (clusters start n lbls)) (chunks, errors) with
          | none => none
          | some s => if s.1.length - stop = n then some s else none

/-- The loop over the layers; `none` means that it raises.  The layers get smaller, so as many
rounds as there are chunks are enough. -/
def layerLoop : ℕ → List (Chunk V) → ℕ → ℕ → ℕ → Option (List (Chunk V))
  | 0, chunks, _, _, _ => some chunks
  | fuel + 1, chunks, start, stop, errors =>
      if stop - start ≤ 1 then some chunks
      else
        match layer m chunks start stop errors with
        | none => none
        | some s => layerLoop fuel s.1 stop s.1.length s.2

/-- `__call__`; `none` means that it raises. -/
def raptor (chunks : List (Chunk V)) : Option (List (Chunk V)) :=
  if chunks.length ≤ 1 then some []
  else layerLoop m (keep chunks).length (keep chunks) 0 (keep chunks).length 0

/-- The summaries that a run of RAPTOR appends to the chunks it keeps. -/
def produced (chunks : List (Chunk V)) : List (Chunk V) :=
  ((raptor m chunks).getD []).drop (keep chunks).length

/-! ### What RAPTOR appends -/

section loop
variable {m} {chunks chunks' result : List (Chunk V)} {errors errors' : ℕ}

/-- Clusters get at most one summary each, appended to the chunks. -/
theorem summarizeAll_append (cls : List (List ℕ))
    (h : summarizeAll m cls (chunks, errors) = some (chunks', errors')) :
    ∃ s, chunks' = chunks ++ s ∧ s.length ≤ cls.length := by
  induction cls generalizing chunks errors with
  | nil =>
      cases h
      exact ⟨[], (List.append_nil _).symm, Nat.le_refl 0⟩
  | cons ckIdx cls ih =>
      unfold summarizeAll at h
      rw [List.length_cons]
      cases hreply : m.summarize ckIdx with
      | summary c =>
          rw [hreply] at h
          obtain ⟨s, rfl, hle⟩ := ih h
          refine ⟨c :: s, by rw [List.append_assoc, List.singleton_append], ?_⟩
          rw [List.length_cons]
          omega
      | failed =>
          simp only [hreply] at h
          split_ifs at h
          obtain ⟨s, rfl, hle⟩ := ih h
          exact ⟨s, rfl, by omega⟩
      | canceled =>
          rw [hreply] at h
          cases h

/-- The last layer gets fewer summaries than it has chunks, and at least one if it has three or
more. -/
theorem layer_append {start stop : ℕ} (hstop : stop = chunks.length) (hsize : 2 ≤ stop - start)
    (h : layer m chunks start stop errors = some (chunks', errors')) :
    ∃ s, chunks' = chunks ++ s ∧ s.length < stop - start ∧ (stop - start ≠ 2 → s ≠ []) := by
  unfold layer at h
  by_cases htwo : stop - start = 2
  · rw [if_pos htwo] at h
    obtain ⟨s, rfl, hle⟩ := summarizeAll_append _ h
    rw [List.length_singleton] at hle
    exact ⟨s, rfl, by omega, fun hne => absurd htwo hne⟩
  · rw [if_neg htwo] at h
    cases hn : getOptimalClusters m start (stop - start) with
    | none =>
        rw [hn] at h
        cases h
    | some n =>
        simp only [hn] at h
        generalize clusters start n
          (if n = 1 then List.replicate (stop - start) 0 else m.labels start) = cls at h
        split_ifs at h
        cases hs : summarizeAll m (m.order cls) (chunks, errors) with
        | none =>
            rw [hs] at h
            cases h
        | some after =>
            simp only [hs] at h
            split_ifs at h with hcount
            obtain rfl := Option.some.inj h
            obtain ⟨s, rfl, -⟩ := summarizeAll_append _ hs
            have hmem := List.argmin_mem hn
            rw [List.mem_range'_1] at hmem
            rw [List.length_append] at hcount
            refine ⟨s, rfl, by omega, fun _ hnil => ?_⟩
            rw [hnil, List.length_nil] at hcount
            omega

/-- The loop leaves a layer of one chunk or none as it is. -/
theorem layerLoop_small (fuel start : ℕ) (hsize : chunks.length - start ≤ 1) :
    layerLoop m fuel chunks start chunks.length errors = some chunks := by
  cases fuel with
  | zero => rfl
  | succ fuel =>
      unfold layerLoop
      rw [if_pos hsize]

/-- On a larger layer, it goes on after the layer. -/
theorem layerLoop_succ {fuel start : ℕ} (hsize : 2 ≤ chunks.length - start)
    (h : layerLoop m (fuel + 1) chunks start chunks.length errors = some result) :
    ∃ s errors', layer m chunks start chunks.length errors = some (chunks ++ s, errors') ∧
      (chunks.length - start ≠ 2 → s ≠ []) ∧
      layerLoop m fuel (chunks ++ s) chunks.length (chunks ++ s).length errors' = some result := by
  unfold layerLoop at h
  rw [if_neg (by omega)] at h
  cases hlayer : layer m chunks start chunks.length errors with
  | none =>
      rw [hlayer] at h
      cases h
  | some after =>
      obtain ⟨chunks₁, errors₁⟩ := after
      rw [hlayer] at h
      obtain ⟨s, rfl, -, hne⟩ := layer_append rfl hsize hlayer
      exact ⟨s, errors₁, rfl, hne, h⟩

/-- The chunks before the loop are the first ones after it. -/
theorem layerLoop_append (fuel start : ℕ)
    (h : layerLoop m fuel chunks start chunks.length errors = some result) :
    ∃ s, result = chunks ++ s := by
  induction fuel generalizing chunks start errors with
  | zero =>
      cases h
      exact ⟨[], (List.append_nil _).symm⟩
  | succ fuel ih =>
      by_cases hsize : chunks.length - start ≤ 1
      · rw [layerLoop_small _ _ hsize] at h
        obtain rfl := Option.some.inj h
        exact ⟨[], (List.append_nil _).symm⟩
      · obtain ⟨s, errors₁, -, -, hrest⟩ := layerLoop_succ (by omega) h
        obtain ⟨s', rfl⟩ := ih _ hrest
        exact ⟨s ++ s', List.append_assoc _ _ _⟩

/-- The rounds are enough: one more makes no difference. -/
theorem layerLoop_fuel (fuel start : ℕ) (hfuel : chunks.length - start ≤ fuel) :
    layerLoop m (fuel + 1) chunks start chunks.length errors =
      layerLoop m fuel chunks start chunks.length errors := by
  induction fuel generalizing chunks start errors with
  | zero =>
      unfold layerLoop
      rw [if_pos (by omega)]
  | succ fuel ih =>
      rw [layerLoop, layerLoop]
      by_cases hlast : chunks.length - start ≤ 1
      · rw [if_pos hlast, if_pos hlast]
      · rw [if_neg hlast, if_neg hlast]
        cases hlayer : layer m chunks start chunks.length errors with
        | none => rfl
        | some after =>
            obtain ⟨chunks₁, errors₁⟩ := after
            obtain ⟨s, rfl, hlt, -⟩ := layer_append rfl (by omega) hlayer
            refine ih _ ?_
            rw [List.length_append]
            omega

/-- RAPTOR makes no summary. -/
def NoSummary (m : Models V) (chunks : List (Chunk V)) : Prop :=
  (keep chunks).length ≤ 1 ∨ (keep chunks).length = 2 ∧ m.summarize [0, 1] = .failed

theorem keep_sublist (chunks : List (Chunk V)) : (keep chunks).Sublist chunks :=
  List.filter_sublist

/-- RAPTOR appends its summaries to the chunks it keeps, if it is given more than one. -/
theorem raptor_eq_some (h : raptor m chunks = some result) :
    (chunks.length ≤ 1 ∧ result = [] ∧ produced m chunks = []) ∨
      (1 < chunks.length ∧ result = keep chunks ++ produced m chunks) := by
  unfold produced
  rw [h]
  unfold raptor at h
  by_cases hone : chunks.length ≤ 1
  · rw [if_pos hone] at h
    obtain rfl := Option.some.inj h
    exact .inl ⟨hone, rfl, List.drop_nil⟩
  · rw [if_neg hone] at h
    obtain ⟨s, rfl⟩ := layerLoop_append _ _ h
    exact .inr ⟨by omega, by rw [Option.getD_some, List.drop_left]⟩

/-- Two chunks get no summary exactly if their cluster fails. -/
theorem layer_two {s : List (Chunk V)} (hsize : chunks.length = 2)
    (h : layer m chunks 0 chunks.length 0 = some (chunks ++ s, errors')) :
    s = [] ↔ m.summarize [0, 1] = .failed := by
  unfold layer at h
  rw [if_pos (by omega)] at h
  unfold summarizeAll at h
  rw [Nat.zero_add] at h
  cases hreply : m.summarize [0, 1] with
  | summary c =>
      simp only [hreply] at h
      obtain ⟨happend, -⟩ := Prod.mk.inj (Option.some.inj h)
      rw [← List.append_cancel_left happend]
      exact iff_of_false (List.cons_ne_nil _ _) (fun heq => by cases heq)
  | failed =>
      simp only [hreply] at h
      split_ifs at h
      obtain ⟨happend, -⟩ := Prod.mk.inj (Option.some.inj h)
      exact iff_of_true (List.self_eq_append_right.mp happend) rfl
  | canceled =>
      rw [hreply] at h
      cases h

/-- When RAPTOR makes no summary. -/
theorem produced_eq_nil_iff (h : raptor m chunks = some result) :
    produced m chunks = [] ↔ NoSummary m chunks := by
  have hle := (keep_sublist chunks).length_le
  rcases raptor_eq_some h with ⟨hone, -, hnil⟩ | ⟨hmore, hresult⟩
  · exact iff_of_true hnil (.inl (by omega))
  · have hloop := h
    unfold raptor at hloop
    rw [if_neg (by omega), hresult] at hloop
    unfold NoSummary
    by_cases hsmall : (keep chunks).length ≤ 1
    · rw [layerLoop_small _ _ (by omega)] at hloop
      exact iff_of_true (List.self_eq_append_right.mp (Option.some.inj hloop)) (.inl hsmall)
    · rw [or_iff_right hsmall]
      obtain ⟨fuel, hfuel⟩ : ∃ fuel, (keep chunks).length = fuel + 1 :=
        ⟨(keep chunks).length - 1, by omega⟩
      rw [show layerLoop m (keep chunks).length = layerLoop m (fuel + 1) by rw [hfuel]] at hloop
      obtain ⟨s, errors₁, hlayer, hne, hrest⟩ := layerLoop_succ (by omega) hloop
      obtain ⟨s', hs'⟩ := layerLoop_append _ _ hrest
      rw [List.append_assoc] at hs'
      have hproduced := List.append_cancel_left hs'
      by_cases htwo : (keep chunks).length = 2
      · rw [and_iff_right htwo, ← layer_two htwo hlayer, hproduced, List.append_eq_nil_iff]
        refine and_iff_left_of_imp (fun hs => ?_)
        rw [hs, List.append_nil, layerLoop_small _ _ (by omega)] at hrest
        rw [hs, List.nil_append] at hproduced
        rw [← hproduced]
        exact List.self_eq_append_right.mp (Option.some.inj hrest)
      · refine iff_of_false (fun hnil => ?_) (fun hand => htwo hand.1)
        rw [hproduced, List.append_eq_nil_iff] at hnil
        exact hne (by omega) hnil.1

end loop

/-! ### Documents of summaries -/

/-- A document of a summary; tokens, times and the page rank are left out. -/
structure SummaryDoc (V : Type) where
  id : Str
  docId : Str
  docnmKwd : Str
  contentWithWeight : Str
  vector : List V

/-- What `run_raptor_for_kb` reads. -/
structure Source (V : Type) where
  /-- The name of the task. -/
  name : Str
  /-- `doc_name_by_id`. -/
  docNameById : Str → Option Str
  /-- `chunk_list`: the text of each chunk, and its vector if it has one. -/
  chunkList : Str → List (Str × Option (List V))
  hash : Str → Str
  /-- What the models do in each call. -/
  models : ℕ → Models V

/-- `GRAPH_RAPTOR_FAKE_DOC_ID`. -/
def fakeDocId : Str := "graph_raptor_x"

variable (src : Source V)

/-- The document of a summary for a document of the knowledge base. -/
def summaryDoc (did : Str) (c : Chunk V) : SummaryDoc V :=
  { id := src.hash (c.1 ++ fakeDocId)
    docId := did
    docnmKwd := if did = fakeDocId then src.name else (src.docNameById did).getD src.name
    contentWithWeight := c.1
    vector := c.2 }

/-- `generate`: the documents it appends; `none` means that it raises. -/
def generate (m : Models V) (chunks : List (Chunk V)) (did : Str) : Option (List (SummaryDoc V)) :=
  (raptor m chunks).map (fun result => (result.drop chunks.length).map (summaryDoc src did))

/-- The chunks of a document that have the vector field. -/
def validChunks (docId : Str) : List (Chunk V) :=
  (src.chunkList docId).filterMap (fun d => d.2.map (fun v => (d.1, v)))

/-- The scope of the configuration. -/
inductive Scope where
  | file
  | dataset
deriving DecidableEq

/-- The calls of `generate`: the chunks and the document they stand for. -/
def generateCalls (scope : Scope) (docIds : List Str) : List (List (Chunk V) × Str) :=
  match scope with
  | .file => (docIds.map (fun id => (validChunks src id, id))).filter (fun call => call.1 ≠ [])
  | .dataset =>
      let chunks := docIds.flatMap (validChunks src)
      if chunks = [] then [] else [(chunks, fakeDocId)]

/-- The calls one after another, from the one with number `i` on. -/
def generateAll : List (List (Chunk V) × Str) → ℕ → Option (List (SummaryDoc V))
  | [], _ => some []
  | call :: calls, i =>
      match generate src (src.models i) call.1 call.2 with
      | none => none
      | some docs => (generateAll calls (i + 1)).map (fun rest => docs ++ rest)

/-- `run_raptor_for_kb`; `none` means that it raises. -/
def runRaptorForKb (scope : Scope) (docIds : List Str) : Option (List (SummaryDoc V)) :=
  generateAll src (generateCalls src scope docIds) 0

/-! ### Completeness -/

/-- The summary that a document is made of. -/
def SummaryDoc.summary (d : SummaryDoc V) : Chunk V := (d.contentWithWeight, d.vector)

/-- The summaries of some calls, the first of which has number `i`. -/
def producedAll : List (List (Chunk V) × Str) → ℕ → List (Chunk V)
  | [], _ => []
  | call :: calls, i => produced (src.models i) call.1 ++ producedAll calls (i + 1)

/-- No chunk is without a text or a vector. -/
def AllKept (chunks : List (Chunk V)) : Prop := ∀ c ∈ chunks, c.1 ≠ [] ∧ c.2 ≠ []

section complete
variable {src} {m : Models V} {chunks : List (Chunk V)} {did : Str} {docs : List (SummaryDoc V)}

theorem keep_eq_self_iff : (keep chunks).length = chunks.length ↔ AllKept chunks := by
  unfold keep AllKept
  rw [List.length_filter_eq_length_iff]
  refine forall₂_congr (fun c _ => ?_)
  rw [Bool.and_eq_true, decide_eq_true_eq, List.length_pos_iff, Bool.not_eq_true',
    List.isEmpty_eq_false_iff]

/-- The documents are those of the summaries that follow as many as there are chunks without text or
vector. -/
theorem generate_eq_some (h : generate src m chunks did = some docs) :
    docs.map SummaryDoc.summary =
      (produced m chunks).drop (chunks.length - (keep chunks).length) := by
  obtain ⟨result, hresult, rfl⟩ := Option.map_eq_some_iff.mp h
  have hle := (keep_sublist chunks).length_le
  have hsummary : SummaryDoc.summary ∘ summaryDoc src did = id := rfl
  rw [List.map_map, hsummary, List.map_id]
  rcases raptor_eq_some hresult with ⟨-, rfl, hnil⟩ | ⟨-, heq⟩
  · rw [hnil, List.drop_nil, List.drop_nil]
  · rw [heq, List.drop_append, List.drop_of_length_le hle, List.nil_append]

/-- A call stores no chunk it was given, and all summaries exactly if no chunk is passed over or
there is no summary. -/
theorem generate_complete_iff (h : generate src m chunks did = some docs) :
    (docs.map SummaryDoc.summary).Sublist (produced m chunks) ∧
      (docs.map SummaryDoc.summary = produced m chunks ↔
        AllKept chunks ∨ NoSummary m chunks) := by
  obtain ⟨result, hresult, -⟩ := Option.map_eq_some_iff.mp h
  have hle := (keep_sublist chunks).length_le
  rw [generate_eq_some h, ← keep_eq_self_iff, ← produced_eq_nil_iff hresult]
  refine ⟨List.drop_sublist _ _, ?_⟩
  rw [← List.length_eq_zero_iff]
  constructor
  · intro heq
    have hlength := congrArg List.length heq
    rw [List.length_drop] at hlength
    omega
  · rintro (hall | hnil)
    · rw [hall, Nat.sub_self, List.drop_zero]
    · rw [List.length_eq_zero_iff.mp hnil, List.drop_nil]

/-- Parts of two lists make up both exactly if each makes up its own. -/
theorem append_eq_append_iff_of_sublist {α : Type} {a a' b b' : List α} (ha : a'.Sublist a)
    (hb : b'.Sublist b) : a' ++ b' = a ++ b ↔ a' = a ∧ b' = b := by
  constructor
  · intro h
    have hlength := congrArg List.length h
    rw [List.length_append, List.length_append] at hlength
    have hale := ha.length_le
    have hble := hb.length_le
    exact List.append_inj h (by omega)
  · rintro ⟨rfl, rfl⟩
    rfl

theorem generateAll_complete_iff (calls : List (List (Chunk V) × Str)) (i : ℕ)
    (h : generateAll src calls i = some docs) :
    (docs.map SummaryDoc.summary).Sublist (producedAll src calls i) ∧
      (docs.map SummaryDoc.summary = producedAll src calls i ↔
        ∀ j call, calls[j]? = some call →
          AllKept call.1 ∨ NoSummary (src.models (i + j)) call.1) := by
  induction calls generalizing i docs with
  | nil =>
      cases h
      exact ⟨List.Sublist.refl _, iff_of_true rfl (fun j call hcall => by cases hcall)⟩
  | cons call calls ih =>
      unfold generateAll at h
      cases hfirst : generate src (src.models i) call.1 call.2 with
      | none =>
          rw [hfirst] at h
          cases h
      | some first =>
          rw [hfirst] at h
          obtain ⟨rest, hrest, rfl⟩ := Option.map_eq_some_iff.mp h
          obtain ⟨hsub, hiff⟩ := generate_complete_iff hfirst
          obtain ⟨hsubs, hiffs⟩ := ih (i + 1) hrest
          rw [List.map_append, producedAll]
          refine ⟨hsub.append hsubs, ?_⟩
          rw [append_eq_append_iff_of_sublist hsub hsubs, hiff, hiffs]
          constructor
          · rintro ⟨hhead, htail⟩ j call' hcall
            cases j with
            | zero =>
                obtain rfl := Option.some.inj hcall
                exact hhead
            | succ j =>
                rw [show i + (j + 1) = i + 1 + j by omega]
                exact htail j call' hcall
          · intro hall
            refine ⟨hall 0 call rfl, fun j call' hcall => ?_⟩
            rw [show i + 1 + j = i + (j + 1) by omega]
            exact hall (j + 1) call' hcall

variable (src) in
/-- The documents that `run_raptor_for_kb` appends are made of summaries that RAPTOR produced, each
of one summary; they are all of them exactly if, in each call, no chunk is without text or vector,
or RAPTOR makes no summary. -/
theorem summaries_stored_iff (scope : Scope) (docIds : List Str)
    (h : runRaptorForKb src scope docIds = some docs) :
    (docs.map SummaryDoc.summary).Sublist (producedAll src (generateCalls src scope docIds) 0) ∧
      (docs.map SummaryDoc.summary = producedAll src (generateCalls src scope docIds) 0 ↔
        ∀ i call, (generateCalls src scope docIds)[i]? = some call →
          AllKept call.1 ∨ NoSummary (src.models i) call.1) := by
  obtain ⟨hsub, hiff⟩ := generateAll_complete_iff _ 0 h
  refine ⟨hsub, ?_⟩
  rw [hiff]
  simp only [Nat.zero_add]

end complete

/-! Three chunks of one document, the first without text; the other two are summarized. -/

def sampleModels : Models ℕ :=
  { maxCluster := 64
    maxErrors := 3
    bic := fun _ n => n
    labels := fun _ => []
    summarize := fun _ => .summary ("s", [7])
    order := id }

def sampleSource (text : Str) : Source ℕ :=
  { name := "kb"
    docNameById := fun _ => none
    chunkList := fun _ => [(text, some [1]), ("b", some [2]), ("c", some [3])]
    hash := id
    models := fun _ => sampleModels }

/-- With a text in each chunk, the summary is stored. -/
theorem summaries_stored_sample :
    ∃ docs, runRaptorForKb (sampleSource "a") .file ["d"] = some docs ∧
      docs.map SummaryDoc.summary =
        producedAll (sampleSource "a") (generateCalls (sampleSource "a") .file ["d"]) 0 := by
  refine ⟨_, rfl, (summaries_stored_iff (sampleSource "a") .file ["d"] rfl).2.mpr ?_⟩
  intro i call hcall
  cases i with
  | zero =>
      obtain rfl := Option.some.inj hcall
      exact .inl (by unfold AllKept; decide)
  | succ i => cases hcall

/-- The first chunk has no text: the one summary is taken for the third chunk. -/
theorem summary_dropped :
    producedAll (sampleSource []) (generateCalls (sampleSource []) .file ["d"]) 0 =
        [(("s" : Str), [7])] ∧
      (runRaptorForKb (sampleSource []) .file ["d"]).map List.length = some 0 :=
  ⟨rfl, rfl⟩

end RagFlow.Raptor
