import Mathlib.Data.List.Sort
import RagFlow.Blocks
import RagFlow.Dict
import RagFlow.Sentences

/-! # Context for tables and images

`attach_media_context` of `rag/nlp/__init__.py` orders the chunks by their positions and puts
sentences of a text chunk around the text of each table and image.  The chunks are edited in place,
in the new order, and then moved.

* **Order.** `orderedIndices` has the chunks with a position in the order of page, top, left and
  index, and then the others (`orderedIndices_ordered`).
* **Edits.** A step edits one chunk that is not a text chunk, and changes its text and the tokens
  only (`step_edited`).  An image that is not marked as image counts as text once it has a text, so
  that a later chunk may take its context from it.

`attachMediaContext_attached`: the result has the chunks in this order, each with such an edit. -/

namespace RagFlow.Nlp.Media

open Py

/-! ### Chunks -/

/-- The value of a text field. -/
inductive Field where
  | str (s : Str)
  | other
deriving DecidableEq

/-- A chunk; a number that is missing or `None` is `none`, as is a text field that is missing. -/
structure Chunk (N : Type) where
  docTypeKwd : Option Str := none
  contentWithWeight : Option Field := none
  text : Option Field := none
  image : Bool := false
  positionInt : List (List (Option N)) := []
  pageNumInt : List (Option N) := []
  pageNumber : Option N := none
  topInt : List (Option N) := []
  top : Option N := none
  bottom : Option N := none
  x0 : Option N := none
  contentLtks : Option Str := none
  contentSmLtks : Option Str := none
deriving DecidableEq

/-- What is done with numbers: `int`, `float`, the comparison with a page, and for floats the
comparison, the middle and the distance. -/
structure Numbers (N F : Type) where
  int : N → ℤ
  float : N → F
  isPage : N → ℤ → Bool
  lt : F → F → Bool
  mid : F → F → F
  dist : F → F → F

def imageKwd : Str := "image"

def tableKwd : Str := "table"

section code
variable {N F : Type}

namespace Chunk

/-- `get_text` -/
def getText (ck : Chunk N) : Str :=
  match ck.contentWithWeight, ck.text with
  | some (.str s), _ => s
  | _, some (.str s) => s
  | _, _ => []

def isImageChunk (ck : Chunk N) : Bool :=
  ck.docTypeKwd = some imageKwd || (ck.image && strip ck.getText = [])

def isTableChunk (ck : Chunk N) : Bool := ck.docTypeKwd = some tableKwd

def isTextChunk (ck : Chunk N) : Bool := !ck.isImageChunk && !ck.isTableChunk

/-- The text of the chunk is set, and its tokens if there are any. -/
def setText (tokenize fineGrainedTokenize : Str → Str) (ck : Chunk N) (combined : Str) : Chunk N :=
  let original := if ck.contentWithWeight.isSome then ck.contentWithWeight else ck.text
  let ck' :=
    if ck.contentWithWeight.isSome then { ck with contentWithWeight := some (.str combined) }
    else if ck.text.isSome then { ck with text := some (.str combined) }
    else ck
  if original ≠ some (.str combined) then
    let ltks := ck.contentLtks.map fun _ => tokenize combined
    { ck' with
      contentLtks := ltks
      contentSmLtks := ck.contentSmLtks.map fun _ =>
        fineGrainedTokenize (ltks.getD (tokenize combined)) }
  else ck'

end Chunk

variable (nums : Numbers N F)

/-! ### Positions -/

/-- The first number of a list, or the other number if the list is empty. -/
def firstOr (l : List (Option N)) (v : Option N) : Option N := l.head?.getD v

/-- `extract_position`: page, top and left.  A position of less than two numbers is an error. -/
def extractPosition (ck : Chunk N) : Option N × Option N × Option N :=
  match ck.positionInt with
  | [] => (firstOr ck.pageNumInt ck.pageNumber, firstOr ck.topInt ck.top, ck.x0)
  | (_ :: left :: _) :: _ =>
      (firstOr ck.pageNumInt ck.pageNumber, firstOr ck.topInt ck.top, left)
  | _ => (none, none, none)

/-- A dictionary of bounds by page. -/
abbrev Bounds (F : Type) := List (ℤ × (F × F))

/-- Top and bottom in order. -/
def inOrder (top bottom : F) : F × F := if nums.lt bottom top then (bottom, top) else (top, bottom)

/-- Old bounds, made wider. -/
def widen (old new : F × F) : F × F :=
  (if nums.lt new.1 old.1 then new.1 else old.1, if nums.lt old.2 new.2 then new.2 else old.2)

/-- The body of the loop over the positions; `none` if there is an error. -/
def addBounds (bounds : Bounds F) (pos : List (Option N)) : Option (Bounds F) :=
  if pos.length < 5 then some bounds
  else
    match pos with
    | [some pn, _, _, some top, bottom] =>
        let new := inOrder nums (nums.float top) (nums.float (bottom.getD top))
        some (Dict.set (nums.int pn)
          (((bounds.lookup (nums.int pn)).map (widen nums · new)).getD new) bounds)
    | [_, _, _, _, _] => some bounds
    | _ => none

def getBoundsByPage (ck : Chunk N) : Bounds F :=
  if ck.positionInt ≠ [] then (ck.positionInt.foldlM (addBounds nums) []).getD []
  else
    match firstOr ck.pageNumInt ck.pageNumber, firstOr ck.topInt ck.top with
    | some pn, some top =>
        [(nums.int pn, inOrder nums (nums.float top) (nums.float (ck.bottom.getD top)))]
    | _, _ => []

/-! ### Order -/

/-- Page, top and left as integers, if the chunk has a position. -/
def sortKey (ck : Chunk N) : Option (ℤ × ℤ × ℤ) :=
  match extractPosition ck with
  | (some pn, some top, left) => some (nums.int pn, nums.int top, (left.map nums.int).getD 0)
  | _ => none

/-- Keys in the order of page, top, left and index. -/
def keyLe (a b : (ℤ × ℤ × ℤ) × ℕ) : Prop :=
  a.1.1 < b.1.1 ∨ a.1.1 = b.1.1 ∧ (a.1.2.1 < b.1.2.1 ∨ a.1.2.1 = b.1.2.1 ∧
    (a.1.2.2 < b.1.2.2 ∨ a.1.2.2 = b.1.2.2 ∧ a.2 ≤ b.2))

instance : DecidableRel keyLe := fun a b => by
  unfold keyLe
  infer_instance

variable (chunks : List (Chunk N))

def keyAt (i : ℕ) : Option (ℤ × ℤ × ℤ) := chunks[i]?.bind (sortKey nums)

/-- The order of two chunks with positions. -/
def comesBefore (i j : ℕ) : Prop :=
  keyLe ((keyAt nums chunks i).getD 0, i) ((keyAt nums chunks j).getD 0, j)

instance : DecidableRel (comesBefore nums chunks) := fun _ _ =>
  inferInstanceAs (Decidable (keyLe _ _))

def positionedIndices : List ℕ :=
  (List.range chunks.length).filter fun i => (keyAt nums chunks i).isSome

def unpositionedIndices : List ℕ :=
  (List.range chunks.length).filter fun i => !(keyAt nums chunks i).isSome

def orderedIndices : List ℕ :=
  if positionedIndices nums chunks ≠ [] then
    (positionedIndices nums chunks).insertionSort (comesBefore nums chunks) ++
      unpositionedIndices nums chunks
  else List.range chunks.length

/-! ### The text chunk for a context -/

/-- `text_bounds`, with the bounds one after another. -/
def textBounds : List (ℕ × ℤ × (F × F)) :=
  chunks.zipIdx.flatMap fun x =>
    if x.1.isTextChunk then (getBoundsByPage nums x.1).map fun b => (x.2, b) else []

/-- The body of the loop over the bounds of the text chunks; `best_idx` and `best_dist`. -/
def bestStep (mediaBounds : Bounds F) (best : Option (ℕ × F)) (x : ℕ × ℤ × (F × F)) :
    Option (ℕ × F) :=
  match mediaBounds.lookup x.2.1 with
  | none => best
  | some m =>
      if nums.lt m.2 x.2.2.1 || nums.lt x.2.2.2 m.1 then best
      else
        let dist := nums.dist (nums.mid m.1 m.2) (nums.mid x.2.2.1 x.2.2.2)
        if best.all fun b => nums.lt dist b.2 then some (x.1, dist) else best

/-- The first text chunk after the first of the page, or the last before the last. -/
def neighbor (order : List ℕ) (mediaPage : ℤ) (idx : ℕ) : Option ℕ :=
  let isText := fun j => (chunks[j]?.map Chunk.isTextChunk).getD false
  let pageOrder := order.filter fun j =>
    ((chunks[j]?.bind fun ck => (extractPosition ck).1).map (nums.isPage · mediaPage)).getD false
  if idx ∈ pageOrder then
    let posInPage := pageOrder.idxOf idx
    if posInPage = 0 then (pageOrder.drop 1).find? isText
    else if posInPage = pageOrder.length - 1 then (pageOrder.take posInPage).reverse.find? isText
    else none
  else none

/-- `best_idx` -/
def bestIdx (textBounds : List (ℕ × ℤ × (F × F))) (order : List ℕ) (idx : ℕ) (ck : Chunk N) :
    Option ℕ :=
  let mediaBounds := getBoundsByPage nums ck
  match textBounds.foldl (bestStep nums mediaBounds) none with
  | some best => some best.1
  | none =>
      match mediaBounds.map Prod.fst with
      | [] => none
      | page :: pages => neighbor nums chunks order (pages.foldl min page) idx

variable (numTokensFromString : Str → ℕ) (tokenize fineGrainedTokenize : Str → Str)
  (tableContextSize imageContextSize : ℤ)

def budgetOf (ck : Chunk N) : ℤ :=
  if ck.isImageChunk then imageContextSize
  else if ck.isTableChunk then tableContextSize
  else 0

/-- `prev_ctx` and `next_ctx` -/
def contextFrom (source : Option ℕ) (tokenBudget : ℤ) : List Str × List Str :=
  match source.bind (chunks[·]?) with
  | none => ([], [])
  | some ck =>
      let sentences := splitSentences ck.getText
      if sentences ≠ [] then
        collectContext numTokensFromString sentences
          (findMidSentenceIndex numTokensFromString sentences) tokenBudget
      else ([], [])

/-- The text that is set. -/
def combine (prevCtx : List Str) (selfText : Str) (nextCtx : List Str) : Str :=
  List.intercalate ['\n'] (prevCtx ++ (if selfText ≠ [] then [selfText] else []) ++ nextCtx)

/-- A round of the loop over the ordered indices. -/
def step (textBounds : List (ℕ × ℤ × (F × F))) (order : List ℕ) (chunks : List (Chunk N))
    (idx : ℕ) : List (Chunk N) :=
  match chunks[idx]? with
  | none => chunks
  | some ck =>
      let tokenBudget := budgetOf tableContextSize imageContextSize ck
      if tokenBudget ≤ 0 then chunks
      else
        let ctx := contextFrom chunks numTokensFromString
          (bestIdx nums chunks textBounds order idx ck) tokenBudget
        if ctx.1 = [] ∧ ctx.2 = [] then chunks
        else
          chunks.set idx
            (ck.setText tokenize fineGrainedTokenize (combine ctx.1 ck.getText ctx.2))

def attachMediaContext : List (Chunk N) :=
  if chunks = [] ∨ (tableContextSize ≤ 0 ∧ imageContextSize ≤ 0) then chunks
  else
    let order := orderedIndices nums chunks
    let edited := order.foldl (step nums numTokensFromString tokenize fineGrainedTokenize
      tableContextSize imageContextSize (textBounds nums chunks) order) chunks
    if positionedIndices nums chunks ≠ [] then order.filterMap (edited[·]?) else edited

end code

/-! ### The order of the chunks -/

section order
variable {N F : Type}

theorem keyLe_total (a b : (ℤ × ℤ × ℤ) × ℕ) : keyLe a b ∨ keyLe b a := by
  unfold keyLe
  omega

theorem keyLe_trans {a b c : (ℤ × ℤ × ℤ) × ℕ} (hab : keyLe a b) (hbc : keyLe b c) :
    keyLe a c := by
  unfold keyLe at *
  omega

variable (nums : Numbers N F) (chunks : List (Chunk N))

instance : Std.Total (comesBefore nums chunks) := ⟨fun _ _ => keyLe_total _ _⟩

instance : IsTrans ℕ (comesBefore nums chunks) := ⟨fun _ _ _ => keyLe_trans⟩

/-- All indices, those with positions sorted, then those without in order. -/
structure Ordered (order : List ℕ) : Prop where
  perm : order.Perm (List.range chunks.length)
  sorted : ∃ positioned unpositioned, order = positioned ++ unpositioned ∧
    (∀ i ∈ positioned, (keyAt nums chunks i).isSome = true) ∧
    (∀ i ∈ unpositioned, (keyAt nums chunks i).isSome = false) ∧
    positioned.Pairwise (comesBefore nums chunks) ∧ unpositioned.Pairwise (· < ·)
  same : (∀ i < chunks.length, (keyAt nums chunks i).isSome = false) →
    order = List.range chunks.length

theorem positionedIndices_eq_nil_iff : positionedIndices nums chunks = [] ↔
    ∀ i < chunks.length, (keyAt nums chunks i).isSome = false := by
  unfold positionedIndices
  rw [List.filter_eq_nil_iff]
  simp only [List.mem_range, Bool.not_eq_true]

theorem orderedIndices_ordered : Ordered nums chunks (orderedIndices nums chunks) := by
  have hperm := List.filter_append_perm (fun i => (keyAt nums chunks i).isSome)
    (List.range chunks.length)
  unfold orderedIndices
  by_cases hnone : positionedIndices nums chunks = []
  · rw [if_neg (not_not.mpr hnone)]
    refine ⟨List.Perm.refl _, ⟨[], _, rfl, fun i h => absurd h List.not_mem_nil, ?_,
      List.Pairwise.nil, List.pairwise_lt_range⟩, fun _ => rfl⟩
    intro i hi
    exact (positionedIndices_eq_nil_iff nums chunks).mp hnone i (List.mem_range.mp hi)
  · rw [if_pos hnone]
    refine ⟨?_, ⟨_, _, rfl, ?_, ?_, List.pairwise_insertionSort _ _, ?_⟩, ?_⟩
    · exact ((List.perm_insertionSort _ _).append_right _).trans hperm
    · intro i hi
      exact (List.mem_filter.mp ((List.perm_insertionSort _ _).mem_iff.mp hi)).2
    · intro i hi
      have := (List.mem_filter.mp hi).2
      rwa [Bool.not_eq_true'] at this
    · exact List.pairwise_lt_range.filter _
    · intro h
      exact absurd ((positionedIndices_eq_nil_iff nums chunks).mpr h) hnone

end order

/-! ### The edits of the chunks -/

section edits
variable {N : Type}

/-- An image chunk that is not marked as image. -/
def Chunk.isUnmarkedImage (ck : Chunk N) : Bool :=
  ck.isImageChunk && decide (ck.docTypeKwd ≠ some imageKwd)

/-- The pieces are pieces of the text of the chunk, in their order. -/
def PiecesOf (s : Chunk N) (pieces : List Str) : Prop :=
  ∃ cut : List Str, cut.flatten = s.getText ∧ pieces.Sublist cut

/-- A context is taken from a text chunk, or from an unmarked image as one of the edits before has
left it; `trail` has the indices that were edited, with what their chunks have become. -/
def Source (chunks : List (Chunk N)) (trail : List (ℕ × Chunk N)) (s : Chunk N) : Prop :=
  (s ∈ chunks ∧ s.isTextChunk = true) ∨
    ∃ j ck, (j, s) ∈ trail ∧ chunks[j]? = some ck ∧ ck.isUnmarkedImage = true

/-- A text chunk is as it was.  Another chunk has the same positions; its text is as it was, or has
pieces of one source around it. -/
structure Edited (source : Chunk N → Prop) (ck ck' : Chunk N) : Prop where
  text : ck.isTextChunk = true → ck' = ck
  rest : ck' = { ck with
    contentWithWeight := ck'.contentWithWeight, text := ck'.text
    contentLtks := ck'.contentLtks, contentSmLtks := ck'.contentSmLtks }
  newText : ck'.getText = ck.getText ∨ ∃ s, source s ∧ ∃ prevCtx nextCtx : List Str,
    PiecesOf s (prevCtx ++ nextCtx) ∧ ck'.getText = combine prevCtx ck.getText nextCtx

theorem Edited.refl (source : Chunk N → Prop) (ck : Chunk N) : Edited source ck ck :=
  ⟨fun _ => rfl, rfl, Or.inl rfl⟩

variable (tokenize fineGrainedTokenize : Str → Str) (ck : Chunk N) (combined : Str)

theorem setText_rest : ck.setText tokenize fineGrainedTokenize combined =
    { ck with
      contentWithWeight := (ck.setText tokenize fineGrainedTokenize combined).contentWithWeight
      text := (ck.setText tokenize fineGrainedTokenize combined).text
      contentLtks := (ck.setText tokenize fineGrainedTokenize combined).contentLtks
      contentSmLtks := (ck.setText tokenize fineGrainedTokenize combined).contentSmLtks } := by
  unfold Chunk.setText
  dsimp only
  split_ifs
  all_goals rfl

/-- A chunk that has a field for its text has the new text. -/
theorem getText_setText :
    (ck.setText tokenize fineGrainedTokenize combined).getText = combined ∨
      (ck.setText tokenize fineGrainedTokenize combined).getText = ck.getText := by
  unfold Chunk.setText
  dsimp only
  cases hweight : ck.contentWithWeight with
  | some f =>
      refine Or.inl ?_
      simp only [Option.isSome_some, if_true]
      split_ifs
      all_goals rfl
  | none =>
      cases htext : ck.text with
      | some f =>
          refine Or.inl ?_
          simp only [Option.isSome_none, Option.isSome_some, if_true, Bool.false_eq_true, if_false]
          split_ifs
          all_goals rfl
      | none =>
          refine Or.inr ?_
          simp only [Option.isSome_none, Bool.false_eq_true, if_false]
          split_ifs
          all_goals
            unfold Chunk.getText
            simp only [hweight, htext]

/-- A chunk that is taken for a text chunk was one, or was an unmarked image. -/
theorem Edited.source {source : Chunk N → Prop} {s s' : Chunk N} (h : Edited source s s')
    (htext : s.isTextChunk = true ∨ s'.isTextChunk = true) :
    s.isTextChunk = true ∧ s' = s ∨ s.isUnmarkedImage = true := by
  by_cases hs : s.isTextChunk = true
  · exact Or.inl ⟨hs, h.text hs⟩
  · have hs' := htext.resolve_left hs
    have hkwd : s'.docTypeKwd = s.docTypeKwd := by rw [h.rest]
    unfold Chunk.isTextChunk at hs hs'
    rw [Bool.and_eq_true, Bool.not_eq_true', Bool.not_eq_true'] at hs hs'
    have himage : ¬s.docTypeKwd = some imageKwd := by
      intro heq
      have := hs'.1
      rw [Chunk.isImageChunk, hkwd, heq] at this
      simp at this
    have htable : s.isTableChunk = false := by
      rw [Chunk.isTableChunk, ← hkwd]
      exact hs'.2
    refine Or.inr ?_
    rw [Chunk.isUnmarkedImage, Bool.and_eq_true, decide_eq_true_eq]
    refine ⟨?_, himage⟩
    by_contra hno
    exact hs ⟨by rwa [Bool.not_eq_true] at hno, htable⟩

end edits

/-! ### The source of a context -/

section source
variable {N F : Type} (nums : Numbers N F) {chunks state : List (Chunk N)}

theorem textBounds_source {x : ℕ × ℤ × (F × F)} (h : x ∈ textBounds nums chunks) :
    ∃ s, chunks[x.1]? = some s ∧ s.isTextChunk = true := by
  obtain ⟨y, hy, hx⟩ := List.mem_flatMap.mp h
  have hget := List.mem_zipIdx_iff_getElem?.mp hy
  by_cases htext : y.1.isTextChunk = true
  · rw [if_pos htext] at hx
    obtain ⟨b, -, rfl⟩ := List.mem_map.mp hx
    exact ⟨y.1, hget, htext⟩
  · rw [if_neg htext] at hx
    exact absurd hx List.not_mem_nil

theorem bestStep_cases (mediaBounds : Bounds F) (best : Option (ℕ × F)) (x : ℕ × ℤ × (F × F)) :
    bestStep nums mediaBounds best x = best ∨
      ∃ d, bestStep nums mediaBounds best x = some (x.1, d) := by
  unfold bestStep
  split
  · exact Or.inl rfl
  · dsimp only
    split_ifs
    · exact Or.inl rfl
    · exact Or.inr ⟨_, rfl⟩
    · exact Or.inl rfl

/-- The best bounds are among the bounds. -/
theorem foldl_bestStep_mem (mediaBounds : Bounds F) (bounds : List (ℕ × ℤ × (F × F)))
    (start : Option (ℕ × F)) {b : ℕ × F}
    (h : bounds.foldl (bestStep nums mediaBounds) start = some b) :
    start = some b ∨ ∃ x ∈ bounds, x.1 = b.1 := by
  induction bounds generalizing start with
  | nil => exact Or.inl h
  | cons x bounds ih =>
      rcases ih _ h with hstep | ⟨y, hy, hyb⟩
      · rcases bestStep_cases nums mediaBounds start x with hsame | ⟨d, hnew⟩
        · exact Or.inl (hsame ▸ hstep)
        · rw [hnew] at hstep
          exact Or.inr ⟨x, List.mem_cons_self, congrArg Prod.fst (Option.some.inj hstep)⟩
      · exact Or.inr ⟨y, List.mem_cons_of_mem x hy, hyb⟩

theorem neighbor_source {order : List ℕ} {mediaPage : ℤ} {idx j : ℕ}
    (h : neighbor nums state order mediaPage idx = some j) :
    ∃ s', state[j]? = some s' ∧ s'.isTextChunk = true := by
  have hfound : (state[j]?.map Chunk.isTextChunk).getD false = true := by
    unfold neighbor at h
    dsimp only at h
    split_ifs at h
    · exact List.find?_some (p := fun j => (state[j]?.map Chunk.isTextChunk).getD false) h
    · exact List.find?_some (p := fun j => (state[j]?.map Chunk.isTextChunk).getD false) h
  cases hget : state[j]? with
  | none =>
      rw [hget] at hfound
      cases hfound
  | some s' =>
      rw [hget] at hfound
      exact ⟨s', rfl, hfound⟩

/-- The context is taken from a chunk that was a text chunk, or is one. -/
theorem bestIdx_source {order : List ℕ} {idx j : ℕ} {ck : Chunk N}
    (h : bestIdx nums state (textBounds nums chunks) order idx ck = some j) :
    (∃ s, chunks[j]? = some s ∧ s.isTextChunk = true) ∨
      ∃ s', state[j]? = some s' ∧ s'.isTextChunk = true := by
  unfold bestIdx at h
  dsimp only at h
  split at h
  case h_1 best hbest =>
      obtain ⟨x, hx, hxb⟩ :=
        (foldl_bestStep_mem nums _ _ none hbest).resolve_left (fun h => by cases h)
      rw [← Option.some.inj h, ← hxb]
      exact Or.inl (textBounds_source nums hx)
  case h_2 =>
      split at h
      case h_1 => cases h
      case h_2 => exact Or.inr (neighbor_source nums h)

end source

/-! ### All steps -/

section run
variable {N F : Type} (nums : Numbers N F) (numTokensFromString : Str → ℕ)
  (tokenize fineGrainedTokenize : Str → Str) (tableContextSize imageContextSize : ℤ)
  (chunks : List (Chunk N))

/-- The chunks of the trail have their edits, each with what was edited before it as sources; the
others are as they were. -/
structure Progress (trail : List (ℕ × Chunk N)) (state : List (Chunk N)) : Prop where
  length : state.length = chunks.length
  now : ∀ x ∈ trail, state[x.1]? = some x.2
  edited : ∀ k x, trail[k]? = some x →
    ∃ ck, chunks[x.1]? = some ck ∧ Edited (Source chunks (trail.take k)) ck x.2
  untouched : ∀ i, i ∉ trail.map Prod.fst → state[i]? = chunks[i]?

theorem progress_start : Progress chunks [] chunks :=
  ⟨rfl, fun _ hx => absurd hx List.not_mem_nil, fun _ _ h => absurd h (by simp), fun _ _ => rfl⟩

variable {chunks} {trail : List (ℕ × Chunk N)} {order : List ℕ} {state : List (Chunk N)}

/-- What a chunk has become. -/
theorem Progress.get (h : Progress chunks trail state) {j : ℕ} {s : Chunk N}
    (hs : chunks[j]? = some s) :
    state[j]? = some s ∨ ∃ s' source, (j, s') ∈ trail ∧ state[j]? = some s' ∧
      Edited source s s' := by
  by_cases hj : j ∈ trail.map Prod.fst
  · obtain ⟨⟨_, s'⟩, hx, rfl⟩ := List.mem_map.mp hj
    obtain ⟨k, hk⟩ := List.mem_iff_getElem?.mp hx
    obtain ⟨ck, hck, hedit⟩ := h.edited k _ hk
    rw [hs] at hck
    cases hck
    exact Or.inr ⟨s', _, hx, h.now _ hx, hedit⟩
  · exact Or.inl ((h.untouched j hj).trans hs)

/-- The chunk that a context is taken from is a source. -/
theorem Progress.source (h : Progress chunks trail state) {idx j : ℕ} {ck : Chunk N}
    (hbest : bestIdx nums state (textBounds nums chunks) order idx ck = some j) :
    ∃ s', state[j]? = some s' ∧ Source chunks trail s' := by
  have hlt : j < chunks.length := by
    rcases bestIdx_source nums hbest with ⟨s, hs, -⟩ | ⟨s', hs', -⟩
    · exact (List.getElem?_eq_some_iff.mp hs).1
    · rw [← h.length]
      exact (List.getElem?_eq_some_iff.mp hs').1
  obtain ⟨s, hs⟩ : ∃ s, chunks[j]? = some s := ⟨_, List.getElem?_eq_getElem hlt⟩
  have htext : ∀ s', state[j]? = some s' → s.isTextChunk = true ∨ s'.isTextChunk = true := by
    intro s' hs'
    rcases bestIdx_source nums hbest with ⟨x, hx, htext⟩ | ⟨x, hx, htext⟩
    · rw [hs] at hx
      cases hx
      exact Or.inl htext
    · rw [hs'] at hx
      cases hx
      exact Or.inr htext
  rcases h.get hs with hsame | ⟨s', source, hmem, hs', hedit⟩
  · exact ⟨s, hsame, Or.inl ⟨List.mem_of_getElem? hs, (htext s hsame).elim id id⟩⟩
  · refine ⟨s', hs', ?_⟩
    rcases hedit.source (htext s' hs') with ⟨hstext, rfl⟩ | himage
    · exact Or.inl ⟨List.mem_of_getElem? hs, hstext⟩
    · exact Or.inr ⟨j, s, hmem, hs, himage⟩

/-- A context consists of pieces of one source. -/
theorem context_source (h : Progress chunks trail state) (idx : ℕ) (ck : Chunk N)
    (tokenBudget : ℤ) {ctx : List Str × List Str}
    (hctx : contextFrom state numTokensFromString
      (bestIdx nums state (textBounds nums chunks) order idx ck) tokenBudget = ctx)
    (hne : ¬(ctx.1 = [] ∧ ctx.2 = [])) :
    ∃ s, Source chunks trail s ∧ PiecesOf s (ctx.1 ++ ctx.2) := by
  unfold contextFrom at hctx
  cases hbest : bestIdx nums state (textBounds nums chunks) order idx ck with
  | none =>
      rw [hbest] at hctx
      exact absurd ⟨congrArg Prod.fst hctx.symm, congrArg Prod.snd hctx.symm⟩ hne
  | some j =>
      obtain ⟨s', hs', hsource⟩ := h.source nums hbest
      rw [hbest, Option.bind_some, hs'] at hctx
      refine ⟨s', hsource, splitSentences s'.getText, flatten_splitSentences _, ?_⟩
      dsimp only at hctx
      split_ifs at hctx
      · rw [← hctx]
        exact collectContext_sublist _ _ _
      · exact absurd ⟨congrArg Prod.fst hctx.symm, congrArg Prod.snd hctx.symm⟩ hne

/-- A chunk that gets a context is no text chunk. -/
theorem budgetOf_text {ck : Chunk N} (h : ck.isTextChunk = true) :
    budgetOf tableContextSize imageContextSize ck = 0 := by
  unfold Chunk.isTextChunk at h
  rw [Bool.and_eq_true, Bool.not_eq_true', Bool.not_eq_true'] at h
  rw [budgetOf, h.1, h.2]
  rfl

/-- The next chunk is edited. -/
theorem Progress.set (h : Progress chunks trail state) {idx : ℕ} {ck new : Chunk N}
    (hidx : idx ∉ trail.map Prod.fst) (hck : chunks[idx]? = some ck)
    (hnew : Edited (Source chunks trail) ck new) :
    Progress chunks (trail ++ [(idx, new)]) (state.set idx new) := by
  have hlt : idx < state.length := by
    rw [h.length]
    exact (List.getElem?_eq_some_iff.mp hck).1
  refine ⟨by rw [List.length_set, h.length], fun x hx => ?_, fun k x hx => ?_, fun i hi => ?_⟩
  · rcases List.mem_append.mp hx with hx | hx
    · have hne : idx ≠ x.1 := fun heq => hidx (heq ▸ List.mem_map_of_mem hx)
      rw [List.getElem?_set_ne hne]
      exact h.now x hx
    · rw [List.mem_singleton.mp hx]
      exact List.getElem?_set_self hlt
  · rcases Nat.lt_or_ge k trail.length with hk | hk
    · rw [List.getElem?_append_left hk] at hx
      rw [List.take_append_of_le_length hk.le]
      exact h.edited k x hx
    · rw [List.getElem?_append_right hk] at hx
      obtain ⟨hlast, rfl⟩ : k - trail.length = 0 ∧ x = (idx, new) := by
        cases hsub : k - trail.length with
        | zero =>
            rw [hsub] at hx
            exact ⟨rfl, (Option.some.inj hx).symm⟩
        | succ n =>
            rw [hsub] at hx
            cases hx
      have hkeq : k = trail.length := by omega
      rw [hkeq, List.take_left]
      exact ⟨ck, hck, hnew⟩
  · rw [List.map_append, List.mem_append, not_or] at hi
    have hne : idx ≠ i := fun heq => hi.2 (List.mem_singleton.mpr heq.symm)
    rw [List.getElem?_set_ne hne]
    exact h.untouched i hi.1

/-- The next chunk stays as it is. -/
theorem Progress.skip (h : Progress chunks trail state) {idx : ℕ} {ck : Chunk N}
    (hidx : idx ∉ trail.map Prod.fst) (hck : chunks[idx]? = some ck) :
    Progress chunks (trail ++ [(idx, ck)]) state := by
  have hset := h.set hidx hck (Edited.refl _ ck)
  obtain ⟨hlt, hget⟩ := List.getElem?_eq_some_iff.mp ((h.untouched idx hidx).trans hck)
  rwa [← hget, List.set_getElem_self hlt, hget] at hset

variable (order) in
/-- A step edits the chunk of its index. -/
theorem step_edited (h : Progress chunks trail state) {idx : ℕ}
    (hidx : idx ∉ trail.map Prod.fst) (hlt : idx < chunks.length) :
    ∃ new, Progress chunks (trail ++ [(idx, new)])
      (step nums numTokensFromString tokenize fineGrainedTokenize tableContextSize
        imageContextSize (textBounds nums chunks) order state idx) := by
  obtain ⟨ck, hck⟩ : ∃ ck, chunks[idx]? = some ck := ⟨_, List.getElem?_eq_getElem hlt⟩
  unfold step
  rw [(h.untouched idx hidx).trans hck]
  dsimp only
  split_ifs with hbudget hnone
  · exact ⟨ck, h.skip hidx hck⟩
  · exact ⟨ck, h.skip hidx hck⟩
  · obtain ⟨s, hs, hpieces⟩ := context_source nums numTokensFromString h idx ck _ rfl hnone
    refine ⟨_, h.set hidx hck ⟨fun htext => ?_, setText_rest _ _ _ _, ?_⟩⟩
    · exact absurd (le_of_eq (budgetOf_text _ _ htext)) hbudget
    · rcases getText_setText tokenize fineGrainedTokenize ck _ with htext | htext
      · exact Or.inr ⟨s, hs, _, _, hpieces, htext⟩
      · exact Or.inl htext

variable (order) in
/-- The run over all indices. -/
theorem foldl_step_progress (order' : List ℕ) (h : Progress chunks trail state)
    (hnodup : order'.Nodup) (hnew : ∀ i ∈ order', i ∉ trail.map Prod.fst)
    (hlt : ∀ i ∈ order', i < chunks.length) :
    ∃ trail', trail'.map Prod.fst = trail.map Prod.fst ++ order' ∧
      Progress chunks trail' (order'.foldl (step nums numTokensFromString tokenize
        fineGrainedTokenize tableContextSize imageContextSize (textBounds nums chunks) order)
          state) := by
  induction order' generalizing trail state with
  | nil => exact ⟨trail, (List.append_nil _).symm, h⟩
  | cons i order' ih =>
      obtain ⟨hi, hnodup⟩ := List.nodup_cons.mp hnodup
      obtain ⟨new, hstep⟩ := step_edited nums numTokensFromString tokenize fineGrainedTokenize
        tableContextSize imageContextSize order h (hnew i List.mem_cons_self)
        (hlt i List.mem_cons_self)
      have hrest : ∀ j ∈ order', j ∉ (trail ++ [(i, new)]).map Prod.fst := by
        intro j hj hmem
        rw [List.map_append, List.mem_append] at hmem
        rcases hmem with hmem | hmem
        · exact hnew j (List.mem_cons_of_mem i hj) hmem
        · rw [List.mem_singleton.mp hmem] at hj
          exact hi hj
      obtain ⟨trail', hfst, hprogress⟩ := ih hstep hnodup hrest
        (fun j hj => hlt j (List.mem_cons_of_mem i hj))
      refine ⟨trail', ?_, hprogress⟩
      rw [hfst, List.map_append, List.append_assoc, List.map_singleton, List.singleton_append]

end run

/-! ### The result -/

section result
variable {N F : Type} (nums : Numbers N F)

/-- The result has the chunks in the order of their positions, each with its edit; an unmarked image
that a context is taken from stands before the chunk that takes it. -/
def Attached (chunks result : List (Chunk N)) : Prop :=
  ∃ order, Ordered nums chunks order ∧ order.length = result.length ∧
    ∀ k i ck', (order.zip result)[k]? = some (i, ck') →
      ∃ ck, chunks[i]? = some ck ∧ Edited (Source chunks ((order.zip result).take k)) ck ck'

theorem filterMap_range {α : Type} (l : List α) :
    (List.range l.length).filterMap (l[·]?) = l := by
  have hmap := Blocks.map_range_getElem? l []
  rw [List.append_nil] at hmap
  have hread := congrArg (List.filterMap id) hmap
  rw [List.filterMap_map, List.filterMap_map] at hread
  exact hread.trans (List.filterMap_some)

/-- What the indices of the trail lead to. -/
theorem Progress.result {chunks state : List (Chunk N)} {trail : List (ℕ × Chunk N)}
    (h : Progress chunks trail state) :
    (trail.map Prod.fst).filterMap (state[·]?) = trail.map Prod.snd := by
  rw [List.filterMap_map, ← List.filterMap_eq_map]
  exact List.filterMap_congr h.now

theorem attached_of_progress {chunks state : List (Chunk N)} {trail : List (ℕ × Chunk N)}
    (horder : Ordered nums chunks (trail.map Prod.fst)) (h : Progress chunks trail state) :
    Attached nums chunks (trail.map Prod.snd) := by
  have hzip : (trail.map Prod.fst).zip (trail.map Prod.snd) = trail :=
    (List.zip_of_prod rfl rfl).symm
  refine ⟨_, horder, by rw [List.length_map, List.length_map], fun k i ck' hk => ?_⟩
  rw [hzip] at hk ⊢
  exact h.edited k (i, ck') hk

/-- With room for the context of tables or images the chunks are ordered and edited, without it
they stay as they are. -/
theorem attachMediaContext_attached (numTokensFromString : Str → ℕ)
    (tokenize fineGrainedTokenize : Str → Str) (tableContextSize imageContextSize : ℤ)
    (chunks : List (Chunk N)) :
    (0 < tableContextSize ∨ 0 < imageContextSize →
      Attached nums chunks (attachMediaContext nums chunks numTokensFromString tokenize
        fineGrainedTokenize tableContextSize imageContextSize)) ∧
    (tableContextSize ≤ 0 ∧ imageContextSize ≤ 0 →
      attachMediaContext nums chunks numTokensFromString tokenize fineGrainedTokenize
        tableContextSize imageContextSize = chunks) := by
  have hordered := orderedIndices_ordered nums chunks
  refine ⟨fun hsize => ?_, fun hsize => by rw [attachMediaContext, if_pos (Or.inr hsize)]⟩
  unfold attachMediaContext
  by_cases hnil : chunks = []
  · rw [if_pos (Or.inl hnil)]
    have horder := hordered.perm
    rw [hnil, List.length_nil, List.range_zero] at horder
    have hempty : orderedIndices nums chunks = [] := hnil ▸ horder.eq_nil
    rw [hempty] at hordered
    rw [hnil] at hordered ⊢
    exact ⟨[], hordered, rfl, fun k i ck' hk => by cases hk⟩
  · rw [if_neg (not_or.mpr ⟨hnil, by omega⟩)]
    dsimp only
    obtain ⟨trail, hfst, h⟩ := foldl_step_progress nums numTokensFromString tokenize
      fineGrainedTokenize tableContextSize imageContextSize (orderedIndices nums chunks)
      (orderedIndices nums chunks) (progress_start chunks)
      (hordered.perm.nodup_iff.mpr List.nodup_range) (fun _ _ => List.not_mem_nil)
      (fun i hi => List.mem_range.mp (hordered.perm.mem_iff.mp hi))
    generalize List.foldl _ chunks _ = edited at h ⊢
    rw [List.map_nil, List.nil_append] at hfst
    have hresult : (orderedIndices nums chunks).filterMap (edited[·]?) = trail.map Prod.snd := by
      rw [← hfst]
      exact h.result
    rw [← hfst] at hordered
    have hattached := attached_of_progress nums hordered h
    rw [← hresult] at hattached
    by_cases hnone : positionedIndices nums chunks = []
    · have hsame := hordered.same ((positionedIndices_eq_nil_iff nums chunks).mp hnone)
      rw [if_neg (not_not.mpr hnone)]
      rwa [← hfst, hsame, ← h.length, filterMap_range] at hattached
    · rw [if_pos hnone]
      exact hattached

/-- Whole numbers, with rational numbers for the floats. -/
def wholeNumbers : Numbers ℤ ℚ where
  int := id
  float := fun n => n
  isPage := fun n page => n = page
  lt := fun a b => decide (a < b)
  mid := fun a b => (a + b) / 2
  dist := fun a b => |a - b|

/-- A chunk on page 1. -/
def chunkAt (docTypeKwd : Option Str) (image : Bool) (text : Str) (top bottom : ℤ) : Chunk ℤ where
  docTypeKwd := docTypeKwd
  contentWithWeight := some (.str text)
  image := image
  positionInt := [[some 1, some 0, some 0, some top, some bottom]]
  pageNumInt := [some 1]
  topInt := [some top]

theorem attachMediaContext_attached_table :
    Attached wholeNumbers [chunkAt (some tableKwd) false ['M'] 20 30, chunkAt none false ['B'] 0 10]
      (attachMediaContext wholeNumbers
        [chunkAt (some tableKwd) false ['M'] 20 30, chunkAt none false ['B'] 0 10]
        List.length id id 5 0) :=
  (attachMediaContext_attached wholeNumbers List.length id id 5 0 _).1 (Or.inl (by decide))

/-! ### Where more does not hold -/

/-- An edit that puts pieces of a text chunk around the text, even if this is empty. -/
structure StrictlyEdited (chunks : List (Chunk N)) (ck ck' : Chunk N) : Prop where
  text : ck.isTextChunk = true → ck' = ck
  rest : ck' = { ck with
    contentWithWeight := ck'.contentWithWeight, text := ck'.text
    contentLtks := ck'.contentLtks, contentSmLtks := ck'.contentSmLtks }
  newText : ck'.getText = ck.getText ∨ ∃ s ∈ chunks, s.isTextChunk = true ∧
    ∃ prevCtx nextCtx : List Str, (∀ p ∈ prevCtx ++ nextCtx, p <:+: s.getText) ∧
      ck'.getText = List.intercalate ['\n'] (prevCtx ++ [ck.getText] ++ nextCtx)

def StrictlyAttached (chunks result : List (Chunk N)) : Prop :=
  ∃ order, Ordered nums chunks order ∧ List.Forall₂
    (fun i ck' => ∃ ck, chunks[i]? = some ck ∧ StrictlyEdited chunks ck ck') order result

variable {nums} {chunks result : List (Chunk N)}

theorem StrictlyAttached.exists_edit (h : StrictlyAttached nums chunks result) {ck' : Chunk N}
    (hmem : ck' ∈ result) : ∃ ck ∈ chunks, StrictlyEdited chunks ck ck' := by
  obtain ⟨order, -, hall⟩ := h
  induction hall with
  | nil => exact absurd hmem List.not_mem_nil
  | cons hR hrest ih =>
      rcases List.mem_cons.mp hmem with rfl | hmem
      · obtain ⟨ck, hck, hedit⟩ := hR
        exact ⟨ck, List.mem_of_getElem? hck, hedit⟩
      · exact ih hmem

theorem Ordered.pairwise {order : List ℕ} (h : Ordered nums chunks order)
    (hall : ∀ i ∈ order, (keyAt nums chunks i).isSome = true) :
    order.Pairwise (comesBefore nums chunks) := by
  obtain ⟨positioned, unpositioned, rfl, -, hnone, hsorted, -⟩ := h.sorted
  cases unpositioned with
  | nil => rwa [List.append_nil]
  | cons i unpositioned =>
      have := hall i (List.mem_append_right _ List.mem_cons_self)
      rw [hnone i List.mem_cons_self] at this
      cases this

theorem mem_intercalate {sep : Str} {c : Char} {parts : List Str}
    (h : c ∈ List.intercalate sep parts) : c ∈ sep ∨ ∃ p ∈ parts, c ∈ p := by
  induction parts with
  | nil => exact absurd h List.not_mem_nil
  | cons p parts ih =>
      cases parts with
      | nil =>
          rw [List.intercalate_singleton] at h
          exact Or.inr ⟨p, List.mem_cons_self, h⟩
      | cons q parts =>
          rw [List.intercalate_cons_cons, List.mem_append, List.mem_append] at h
          rcases h with (h | h) | h
          · exact Or.inr ⟨p, List.mem_cons_self, h⟩
          · exact Or.inl h
          · rcases ih h with h | ⟨r, hr, h⟩
            · exact Or.inl h
            · exact Or.inr ⟨r, List.mem_cons_of_mem p hr, h⟩

theorem sep_subset_intercalate (sep p : Str) {parts : List Str} (h : parts ≠ []) :
    sep ⊆ List.intercalate sep (p :: parts) := by
  intro c hc
  rw [List.intercalate_cons_of_ne_nil h]
  exact List.mem_append_left _ (List.mem_append_right _ hc)

/-- Two chunks on a page, the lower one first. -/
def lowerFirst : List (Chunk ℤ) := [chunkAt none false ['B'] 5 6, chunkAt none false ['A'] 0 1]

/-- An image without text beside a text chunk. -/
def emptyImage : List (Chunk ℤ) :=
  [chunkAt none false ['A', '.'] 0 10, chunkAt (some imageKwd) true [] 5 6]

/-- An unmarked image beside a text chunk, and a table below. -/
def unmarkedImage : List (Chunk ℤ) :=
  [chunkAt none false ['B'] 0 10, chunkAt none true [' '] 5 6,
    chunkAt (some tableKwd) false ['M'] 20 30]

/-- Without room for a context, chunks with positions are not ordered. -/
theorem lowerFirst_not_strictlyAttached :
    ¬StrictlyAttached wholeNumbers lowerFirst lowerFirst := by
  rintro ⟨order, hordered, hall⟩
  unfold lowerFirst at hall
  rcases hall with _ | ⟨⟨ck, hck, hedit⟩, _ | ⟨⟨ck₁, hck₁, hedit₁⟩, _ | _⟩⟩
  rename_i i j
  have hperm : [i, j].Perm [0, 1] := hordered.perm
  have hi : i = 0 ∨ i = 1 := by
    have := hperm.mem_iff.mp (@List.mem_cons_self _ i [j])
    simpa using this
  rcases hi with rfl | rfl
  · have hsorted := hordered.pairwise (by
      intro i hi
      have := hperm.mem_iff.mp hi
      rcases List.mem_cons.mp this with rfl | this
      · decide
      · rw [List.mem_singleton.mp this]
        decide)
    have hj : j = 1 := List.singleton_perm_singleton.mp ((List.perm_cons 0).mp hperm)
    subst hj
    exact absurd (List.rel_of_pairwise_cons hsorted List.mem_cons_self) (by decide)
  · cases hck
    exact absurd (hedit.text (by decide)) (by decide)

/-- A context is not put around an empty text. -/
theorem emptyImage_not_strictlyAttached : ¬StrictlyAttached wholeNumbers emptyImage
    [chunkAt none false ['A', '.'] 0 10, chunkAt (some imageKwd) true ['A', '.'] 5 6] := by
  intro h
  obtain ⟨ck, hck, hedit⟩ := h.exists_edit (List.mem_cons_of_mem _ List.mem_cons_self)
  unfold emptyImage at hck
  rcases List.mem_cons.mp hck with rfl | hck
  · exact absurd (hedit.text (by decide)) (by decide)
  · rw [List.mem_singleton.mp hck] at hedit
    rcases hedit.newText with h | ⟨s, -, -, prevCtx, nextCtx, -, h⟩
    · exact absurd h (by decide)
    · have hbreak : '\n' ∉ (chunkAt (some imageKwd) true ['A', '.'] 5 6).getText := by decide
      have hown : (chunkAt (some imageKwd) true [] 5 6).getText = [] := rfl
      rw [h, hown] at hbreak
      cases prevCtx with
      | nil =>
          cases nextCtx with
          | nil => exact absurd h (by decide)
          | cons q nextCtx =>
              exact hbreak (sep_subset_intercalate _ _ (List.cons_ne_nil _ _)
                List.mem_cons_self)
      | cons p prevCtx =>
          exact hbreak (sep_subset_intercalate _ _ (by simp) List.mem_cons_self)

/-- A table has context from an unmarked image. -/
theorem unmarkedImage_not_strictlyAttached : ¬StrictlyAttached wholeNumbers unmarkedImage
    [chunkAt none false ['B'] 0 10, chunkAt none true ['B', '\n', ' '] 5 6,
      chunkAt (some tableKwd) false ['B', '\n', '\n', 'M', '\n', ' '] 20 30] := by
  intro h
  obtain ⟨ck, hck, hedit⟩ := h.exists_edit
    (List.mem_cons_of_mem _ (List.mem_cons_of_mem _ List.mem_cons_self))
  unfold unmarkedImage at hck
  rcases List.mem_cons.mp hck with rfl | hck
  · exact absurd (hedit.text (by decide)) (by decide)
  · rcases List.mem_cons.mp hck with rfl | hck
    · exact absurd (congrArg Chunk.docTypeKwd hedit.rest) (by decide)
    · rw [List.mem_singleton.mp hck] at hedit
      rcases hedit.newText with h | ⟨s, hs, htext, prevCtx, nextCtx, hpieces, h⟩
      · exact absurd h (by decide)
      · have hblank : ' ' ∈ (chunkAt (some tableKwd) false
            ['B', '\n', '\n', 'M', '\n', ' '] 20 30).getText := by decide
        have hsource : s.getText = ['B'] := by
          unfold unmarkedImage at hs
          rcases List.mem_cons.mp hs with rfl | hs
          · rfl
          · rcases List.mem_cons.mp hs with rfl | hs
            · exact absurd htext (by decide)
            · rw [List.mem_singleton.mp hs] at htext
              exact absurd htext (by decide)
        have hpiece : ∀ p ∈ prevCtx ++ nextCtx, ' ' ∉ p := by
          intro p hp hmem
          have := (hpieces p hp).subset hmem
          rw [hsource] at this
          exact absurd this (by decide)
        rw [h] at hblank
        rcases mem_intercalate hblank with hsep | ⟨p, hp, hmem⟩
        · exact absurd hsep (by decide)
        · rw [List.mem_append, List.mem_append] at hp
          rcases hp with (hp | hp) | hp
          · exact hpiece p (List.mem_append_left _ hp) hmem
          · rw [List.mem_singleton.mp hp] at hmem
            exact absurd hmem (by decide)
          · exact hpiece p (List.mem_append_right _ hp) hmem

/-- Without room there is no order, an empty text is no part, and an unmarked image is taken for a
text chunk. -/
theorem attachMediaContext_not_strictly :
    ¬StrictlyAttached wholeNumbers lowerFirst
        (attachMediaContext wholeNumbers lowerFirst List.length id id 0 0) ∧
      ¬StrictlyAttached wholeNumbers emptyImage
        (attachMediaContext wholeNumbers emptyImage List.length id id 0 5) ∧
      ¬StrictlyAttached wholeNumbers unmarkedImage
        (attachMediaContext wholeNumbers unmarkedImage List.length id id 5 5) := by
  have hordered : attachMediaContext wholeNumbers lowerFirst List.length id id 0 0 =
      lowerFirst := by decide +kernel
  have hempty : attachMediaContext wholeNumbers emptyImage List.length id id 0 5 =
      [chunkAt none false ['A', '.'] 0 10, chunkAt (some imageKwd) true ['A', '.'] 5 6] := by
    decide +kernel
  have hunmarked : attachMediaContext wholeNumbers unmarkedImage List.length id id 5 5 =
      [chunkAt none false ['B'] 0 10, chunkAt none true ['B', '\n', ' '] 5 6,
        chunkAt (some tableKwd) false ['B', '\n', '\n', 'M', '\n', ' '] 20 30] := by
    decide +kernel
  rw [hordered, hempty, hunmarked]
  exact ⟨lowerFirst_not_strictlyAttached, emptyImage_not_strictlyAttached,
    unmarkedImage_not_strictlyAttached⟩

end result

end RagFlow.Nlp.Media
