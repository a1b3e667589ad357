import Mathlib.Data.List.Sort
import RagFlow.PyVal
import RagFlow.Table

/-! # Merging sections into chunks

`naive_merge` and `naive_merge_with_images` of `rag/nlp/__init__.py` cut a list of sections into
chunks of text.  Both are written out: the second has a loop of its own, with a list of images
beside the list of chunks.

* **Plain mode.** Sections are appended to the last chunk until it has more tokens than allowed; a
  new chunk starts with the end of the one before.
* **Custom mode.** If the delimiters contain back-quoted ones, the sections are split at these.

`naiveMergeWithImages_spec`: the chunks of text are the same, and there is an image (or `None`) for
each chunk.  The loop with images, seen without them, is the loop of `naive_merge`
(`foldlM_map`). -/

namespace RagFlow.Nlp

open Py

/-! ### Numbers -/

/-- A number: an integer, or a float, which is the rational number it denotes. -/
inductive Number where
  | int (n : ℤ)
  | float (q : ℚ)

/-- What is taken from elsewhere: `num_tokens_from_string`, and the rounding of floats. -/
structure MergeEnv where
  numTokensFromString : Str → ℕ
  round : ℚ → ℚ

namespace Number

variable (env : MergeEnv)

def toFloat : Number → ℚ
  | int n => env.round n
  | float q => q

def sub : Number → Number → Number
  | int m, int n => int (m - n)
  | a, b => float (env.round (a.toFloat env - b.toFloat env))

def mul : Number → Number → Number
  | int m, int n => int (m * n)
  | a, b => float (env.round (a.toFloat env * b.toFloat env))

/-- `a / b` for a float `b`. -/
def div (a : Number) (b : ℚ) : ℚ := env.round (a.toFloat env / b)

end Number

/-- `int(q)`. -/
def truncate (q : ℚ) : ℤ := q.num.tdiv q.den

/-! ### Strings -/

/-- `s[i:]`. -/
def sliceFrom (s : Str) (i : ℤ) : Str :=
  s.drop (if i < 0 then (s.length + i).toNat else i.toNat)

/-- The characters of a tag, `[\t0-9.-]`. -/
def isTagChar (c : Char) : Bool := c == '\t' || c.isDigit || c == '.' || c == '-'

/-- The length of the match of `@@[\t0-9.-]+?##` at the start of the string.  The characters of the
tag do not contain `#`, so it does not matter that the repetition is lazy. -/
def tagLength (s : Str) : Option ℕ :=
  match s with
  | '@' :: '@' :: rest =>
      let body := rest.takeWhile isTagChar
      if !body.isEmpty && startswith (rest.drop body.length) "##" then some (body.length + 4)
      else none
  | _ => none

/-- `remove_tag`, from the position after `skip` characters. -/
def removeTagFrom : ℕ → Str → Str
  | _, [] => []
  | skip + 1, _ :: s => removeTagFrom skip s
  | 0, c :: s =>
      match tagLength (c :: s) with
      | some n => removeTagFrom (n - 1) s
      | none => c :: removeTagFrom 0 s

/-- `RAGFlowPdfParser.remove_tag`. -/
def removeTag (txt : Str) : Str := removeTagFrom 0 txt

example : removeTag "a@@1-2\t3.5##b@@##" = "ab@@##".toList := by decide

/-- The matches of the group of "`([^`]+)`", from the position after `skip` characters. -/
def customDelimitersFrom : ℕ → Str → List Str
  | _, [] => []
  | skip + 1, _ :: s => customDelimitersFrom skip s
  | 0, c :: s =>
      let body := s.takeWhile (· ≠ '\x60')
      if c = '\x60' ∧ body ≠ [] ∧ body.length < s.length then
        body :: customDelimitersFrom (body.length + 1) s
      else customDelimitersFrom 0 s

def customDelimiters (delimiter : Str) : List Str := customDelimitersFrom 0 delimiter

example : customDelimiters "\n\x60##\x60\x60\x60ab\x60;" = ["##".toList, "ab".toList] := by decide

/-- `sorted(set(custom_delimiters), key=len, reverse=True)`, the alternatives of the pattern.  The
order of the set does not matter: of two alternatives of one length at most one matches. -/
def customPattern (delimiters : List Str) : List Str :=
  delimiters.dedup.insertionSort (fun a b => b.length ≤ a.length)

/-- `re.split(r"(%s)" % pattern, s)` for a pattern of literals, from the position after `skip`
characters, `cur` being the part read so far in reverse.  The flag `DOTALL` makes no difference to
literals. -/
def reSplitFrom (pattern : List Str) : ℕ → Str → Str → List Str
  | _, cur, [] => [cur.reverse]
  | skip + 1, cur, _ :: s => reSplitFrom pattern skip cur s
  | 0, cur, c :: s =>
      match pattern.find? (startswith (c :: s)) with
      | some d => cur.reverse :: d :: reSplitFrom pattern (d.length - 1) [] s
      | none => reSplitFrom pattern 0 (c :: cur) s

def reSplit (pattern : List Str) (s : Str) : List Str := reSplitFrom pattern 0 [] s

example : reSplit ["##", "#"] "a###b" = ["a".toList, "##".toList, [], "#".toList, "b".toList] := by
  decide

/-! ### Lists with a last element -/

/-- A list that has a last element. -/
structure Filled (α : Type) where
  before : List α
  last : α

namespace Filled

variable {α : Type}

def toList (l : Filled α) : List α := l.before ++ [l.last]

def append (l : Filled α) (a : α) : Filled α := ⟨l.toList, a⟩

def setLast (l : Filled α) (a : α) : Filled α := { l with last := a }

/-- The number of elements before the last. -/
def size (l : Filled α) : ℕ := l.before.length

@[simp] theorem length_toList (l : Filled α) : l.toList.length = l.size + 1 := by
  simp [toList, size]

@[simp] theorem size_append (l : Filled α) (a : α) : (l.append a).size = l.size + 1 := by
  rw [← length_toList]
  rfl

@[simp] theorem size_setLast (l : Filled α) (a : α) : (l.setLast a).size = l.size := rfl

end Filled

/-! ### `naive_merge` -/

inductive MergeError where
  | typeError
deriving DecidableEq

/-- `if host.find(pos) < 0: t += pos`. -/
def appendMissing (t host : Str) : PyVal → Except MergeError Str
  | .str p => .ok (if contains p host then t else t ++ p)
  | _ => .error .typeError

/-- `if pos and text.find(pos) < 0: text += pos`. -/
def appendPosition (text : Str) (pos : PyVal) : Except MergeError Str :=
  if pos.truthy then appendMissing text text pos else pure text

section merge
variable (env : MergeEnv)

/-- The number of tokens from which on a chunk is full. -/
def fullFrom (chunkTokenNum overlappedPercent : Number) : ℚ :=
  (chunkTokenNum.mul env ((Number.int 100).sub env overlappedPercent)).div env 100

/-- The end of a chunk that is repeated at the start of the next. -/
def overlap (ck : Str) (overlappedPercent : Number) : Str :=
  let overlapped := removeTag ck
  sliceFrom overlapped (truncate (((Number.int overlapped.length).mul env
    ((Number.int 100).sub env overlappedPercent)).div env 100))

/-- `cks` and `tk_nums`. -/
structure Chunks where
  cks : Filled Str
  tkNums : Filled ℕ

/-- `add_chunk` of `naive_merge`. -/
def addChunk (chunkTokenNum overlappedPercent : Number) (s : Chunks) (t : Str) (pos : PyVal) :
    Except MergeError Chunks := do
  let tnum := env.numTokensFromString t
  let pos := if pos.truthy then pos else .str []
  let pos := if tnum < 8 then .str [] else pos
  if s.cks.last = [] ∨ fullFrom env chunkTokenNum overlappedPercent < s.tkNums.last then
    let t := overlap env s.cks.last overlappedPercent ++ t
    let t ← appendMissing t t pos
    pure { cks := s.cks.append t, tkNums := s.tkNums.append tnum }
  else
    let t ← appendMissing t s.cks.last pos
    pure
      { cks := s.cks.setLast (s.cks.last ++ t), tkNums := s.tkNums.setLast (s.tkNums.last + tnum) }

/-- The body of the loop over the pieces of a section in custom mode; `cks` and `tk_nums` start
empty. -/
def addPiece (pattern : List Str) (pos : PyVal) (s : List Str × List ℕ) (subSec : Str) :
    Except MergeError (List Str × List ℕ) :=
  if pattern.contains subSec then pure s
  else do
    let text := '\n' :: subSec
    let localPos := if env.numTokensFromString text < 8 then .str [] else pos
    let text ← appendPosition text localPos
    pure (s.1 ++ [text], s.2 ++ [env.numTokensFromString text])

/-- A round of the loop over the sections, in plain mode. -/
def addSection (n p : Number) (s : Chunks) (x : Str × PyVal) : Except MergeError Chunks :=
  addChunk env n p s ('\n' :: x.1) x.2

/-- A round of the loop over the sections, in custom mode. -/
def addPieces (pattern : List Str) (s : List Str × List ℕ) (x : Str × PyVal) :
    Except MergeError (List Str × List ℕ) :=
  (reSplit pattern x.1).foldlM (addPiece env pattern x.2) s

/-- `naive_merge` on a list of pairs. -/
def naiveMerge (sections : List (Str × PyVal)) (chunkTokenNum : Number) (delimiter : Str)
    (overlappedPercent : Number) : Except MergeError (List Str) :=
  if sections = [] then pure []
  else
    let delimiters := customDelimiters delimiter
    if delimiters ≠ [] then do
      let s ← sections.foldlM (addPieces env (customPattern delimiters)) ([], [])
      pure s.1
    else do
      let s ← sections.foldlM (addSection env chunkTokenNum overlappedPercent)
        { cks := ⟨[], []⟩, tkNums := ⟨[], 0⟩ }
      pure s.cks.toList

/-! ### `naive_merge_with_images` -/

variable {Img : Type} (concatImg : Img → Option Img → Option Img)

/-- `cks`, `result_images` and `tk_nums`. -/
structure ImageChunks (Img : Type) where
  cks : Filled Str
  resultImages : Filled (Option Img)
  tkNums : Filled ℕ

/-- The image of a chunk to which a section is added. -/
def addImage (last image : Option Img) : Option Img :=
  match last with
  | none => image
  | some last => concatImg last image

/-- `add_chunk` of `naive_merge_with_images`. -/
def addChunkWithImage (chunkTokenNum overlappedPercent : Number) (s : ImageChunks Img) (t : Str)
    (image : Option Img) (pos : PyVal) : Except MergeError (ImageChunks Img) := do
  let tnum := env.numTokensFromString t
  let pos := if pos.truthy then pos else .str []
  let pos := if tnum < 8 then .str [] else pos
  if s.cks.last = [] ∨ fullFrom env chunkTokenNum overlappedPercent < s.tkNums.last then
    let t := overlap env s.cks.last overlappedPercent ++ t
    let t ← appendMissing t t pos
    pure { cks := s.cks.append t, resultImages := s.resultImages.append image,
           tkNums := s.tkNums.append tnum }
  else
    let t ← appendMissing t s.cks.last pos
    pure { cks := s.cks.setLast (s.cks.last ++ t)
           resultImages := s.resultImages.setLast (addImage concatImg s.resultImages.last image)
           tkNums := s.tkNums.setLast (s.tkNums.last + tnum) }

/-- The body of the loop over the pieces of a text in custom mode. -/
def addPieceWithImage (pattern : List Str) (pos : PyVal) (image : Option Img)
    (s : List Str × List (Option Img) × List ℕ) (subSec : Str) :
    Except MergeError (List Str × List (Option Img) × List ℕ) :=
  if pattern.contains subSec then pure s
  else do
    let textSeg := '\n' :: subSec
    let localPos := if env.numTokensFromString textSeg < 8 then .str [] else pos
    let textSeg ← appendPosition textSeg localPos
    pure (s.1 ++ [textSeg], s.2.1 ++ [image], s.2.2 ++ [env.numTokensFromString textSeg])

/-- A round of the loop over the texts and images, in plain mode. -/
def addText (n p : Number) (s : ImageChunks Img) (x : (Str × PyVal) × Option Img) :
    Except MergeError (ImageChunks Img) :=
  addChunkWithImage env concatImg n p s ('\n' :: x.1.1) x.2 x.1.2

/-- A round of the loop over the texts and images, in custom mode. -/
def addTextPieces (pattern : List Str) (s : List Str × List (Option Img) × List ℕ)
    (x : (Str × PyVal) × Option Img) : Except MergeError (List Str × List (Option Img) × List ℕ) :=
  (reSplit pattern x.1.1).foldlM (addPieceWithImage env pattern x.1.2 x.2) s

/-- `naive_merge_with_images` on a list of pairs. -/
def naiveMergeWithImages (texts : List (Str × PyVal)) (images : List (Option Img))
    (chunkTokenNum : Number) (delimiter : Str) (overlappedPercent : Number) :
    Except MergeError (List Str × List (Option Img)) :=
  if texts = [] ∨ texts.length ≠ images.length then pure ([], [])
  else
    let delimiters := customDelimiters delimiter
    if delimiters ≠ [] then do
      let s ← (texts.zip images).foldlM (addTextPieces env (customPattern delimiters)) ([], [], [])
      pure (s.1, s.2.1)
    else do
      let s ← (texts.zip images).foldlM (addText env concatImg chunkTokenNum overlappedPercent)
        { cks := ⟨[], []⟩, resultImages := ⟨[], none⟩, tkNums := ⟨[], 0⟩ }
      pure (s.cks.toList, s.resultImages.toList)

/-! ### The same chunks -/

/-- The chunks without their images. -/
def ImageChunks.view (s : ImageChunks Img) : Chunks := ⟨s.cks, s.tkNums⟩

theorem addChunkWithImage_view (n p : Number) (s : ImageChunks Img) (t : Str) (image : Option Img)
    (pos : PyVal) :
    (addChunkWithImage env concatImg n p s t image pos).map ImageChunks.view =
      addChunk env n p s.view t pos := by
  unfold addChunkWithImage addChunk ImageChunks.view
  dsimp only
  split_ifs
  all_goals
    cases appendMissing _ _ _ with
    | error e => rfl
    | ok t => rfl

variable {env concatImg} in
theorem addChunkWithImage_size {n p : Number} {s s' : ImageChunks Img} {t : Str}
    {image : Option Img} {pos : PyVal}
    (h : addChunkWithImage env concatImg n p s t image pos = .ok s')
    (hs : s.resultImages.size = s.cks.size) : s'.resultImages.size = s'.cks.size := by
  unfold addChunkWithImage at h
  dsimp only at h
  split_ifs at h
  all_goals
    obtain ⟨t', -, h⟩ := bind_eq_ok h
    cases h
    simp [hs]

theorem addPieceWithImage_view (pattern : List Str) (pos : PyVal) (image : Option Img)
    (s : List Str × List (Option Img) × List ℕ) (subSec : Str) :
    (addPieceWithImage env pattern pos image s subSec).map (fun s => (s.1, s.2.2)) =
      addPiece env pattern pos (s.1, s.2.2) subSec := by
  unfold addPieceWithImage addPiece
  dsimp only
  by_cases hskip : pattern.contains subSec = true
  · rw [if_pos hskip, if_pos hskip]
    rfl
  · rw [if_neg hskip, if_neg hskip]
    cases appendPosition _ _ with
    | error e => rfl
    | ok t => rfl

variable {env} in
theorem addPieceWithImage_length {pattern : List Str} {pos : PyVal} {image : Option Img}
    {s s' : List Str × List (Option Img) × List ℕ} {subSec : Str}
    (h : addPieceWithImage env pattern pos image s subSec = .ok s')
    (hs : s.2.1.length = s.1.length) : s'.2.1.length = s'.1.length := by
  unfold addPieceWithImage at h
  split_ifs at h
  · cases h
    exact hs
  · obtain ⟨t, -, h⟩ := bind_eq_ok h
    cases h
    simp [hs]

/-- The loop in plain mode, with images and without. -/
theorem foldlM_addText (n p : Number) (l : List ((Str × PyVal) × Option Img))
    (s : ImageChunks Img) (hs : s.resultImages.size = s.cks.size) :
    (l.foldlM (addText env concatImg n p) s).map ImageChunks.view =
        (l.map Prod.fst).foldlM (addSection env n p) s.view ∧
      ∀ s', l.foldlM (addText env concatImg n p) s = .ok s' →
        s'.resultImages.size = s'.cks.size := by
  refine ⟨foldlM_map _ _ (fun s x => addChunkWithImage_view env concatImg n p s _ x.2 x.1.2)
    l s, fun s' h => ?_⟩
  exact foldlM_keeps (P := fun s => s.resultImages.size = s.cks.size)
    (fun x _ s s' hs h => addChunkWithImage_size h hs) hs h

/-- The loop in custom mode, with images and without. -/
theorem foldlM_addTextPieces (pattern : List Str) (l : List ((Str × PyVal) × Option Img))
    (s : List Str × List (Option Img) × List ℕ) (hs : s.2.1.length = s.1.length) :
    (l.foldlM (addTextPieces env pattern) s).map (fun s => (s.1, s.2.2)) =
        (l.map Prod.fst).foldlM (addPieces env pattern) (s.1, s.2.2) ∧
      ∀ s', l.foldlM (addTextPieces env pattern) s = .ok s' → s'.2.1.length = s'.1.length := by
  refine ⟨foldlM_map (fun s => (s.1, s.2.2)) _ (fun s x => ?_) l s, fun s' h => ?_⟩
  · have hpieces := foldlM_map (fun s => (s.1, s.2.2)) id
      (addPieceWithImage_view env pattern x.1.2 x.2) (reSplit pattern x.1.1) s
    rw [List.map_id] at hpieces
    exact hpieces
  · refine foldlM_keeps (P := fun s => s.2.1.length = s.1.length) (fun x _ s s' hs h => ?_) hs h
    exact foldlM_keeps (P := fun s => s.2.1.length = s.1.length)
      (fun _ _ s s' hs h => addPieceWithImage_length h hs) hs h

/-- The chunks of text do not depend on the images, and each chunk has its place in the list of
images. -/
theorem naiveMergeWithImages_spec (texts : List (Str × PyVal)) (images : List (Option Img))
    (hlen : texts.length = images.length) (n : Number) (delimiter : Str) (p : Number) :
    (naiveMergeWithImages env concatImg texts images n delimiter p).map Prod.fst =
        naiveMerge env texts n delimiter p ∧
      ∀ cks resultImages, naiveMergeWithImages env concatImg texts images n delimiter p =
        .ok (cks, resultImages) → resultImages.length = cks.length := by
  have hmap : (texts.zip images).map Prod.fst = texts := List.map_fst_zip hlen.le
  unfold naiveMergeWithImages naiveMerge
  dsimp only
  by_cases hempty : texts = []
  · rw [if_pos hempty, if_pos (.inl hempty)]
    refine ⟨rfl, fun cks resultImages h => ?_⟩
    cases h
    rfl
  have hgo : ¬(texts = [] ∨ texts.length ≠ images.length) := by simp [hempty, hlen]
  rw [if_neg hempty, if_neg hgo]
  by_cases hcustom : customDelimiters delimiter ≠ []
  · rw [if_pos hcustom, if_pos hcustom]
    obtain ⟨hview, hsize⟩ := foldlM_addTextPieces env
      (customPattern (customDelimiters delimiter)) (texts.zip images) ([], [], []) rfl
    rw [hmap] at hview
    rw [← hview]
    cases hrun : (texts.zip images).foldlM
        (addTextPieces env (customPattern (customDelimiters delimiter))) ([], [], []) with
    | error e => exact ⟨rfl, fun cks resultImages h => by cases h⟩
    | ok s =>
        refine ⟨rfl, fun cks resultImages h => ?_⟩
        cases h
        exact hsize s hrun
  · rw [if_neg hcustom, if_neg hcustom]
    obtain ⟨hview, hsize⟩ := foldlM_addText env concatImg n p (texts.zip images)
      ⟨⟨[], []⟩, ⟨[], none⟩, ⟨[], 0⟩⟩ rfl
    rw [hmap] at hview
    rw [show (⟨⟨[], []⟩, ⟨[], 0⟩⟩ : Chunks) =
      ImageChunks.view (⟨⟨[], []⟩, ⟨[], none⟩, ⟨[], 0⟩⟩ : ImageChunks Img) from rfl, ← hview]
    cases hrun : (texts.zip images).foldlM (addText env concatImg n p)
        ⟨⟨[], []⟩, ⟨[], none⟩, ⟨[], 0⟩⟩ with
    | error e => exact ⟨rfl, fun cks resultImages h => by cases h⟩
    | ok s =>
        refine ⟨rfl, fun cks resultImages h => ?_⟩
        cases h
        rw [Filled.length_toList, Filled.length_toList, hsize s hrun]

end merge

/-! Two sections that stay in one chunk, with an image each. -/

/-- Words as tokens, and exact arithmetic. -/
def wordEnv : MergeEnv := ⟨fun s => (splitWs s).length, id⟩

/-- The images are lists of numbers, put after one another. -/
def mergedTwoSections : Except MergeError (List Str × List (Option (List ℕ))) :=
  naiveMergeWithImages wordEnv (fun a b => some (a ++ b.getD []))
    [("one".toList, .str []), ("two".toList, .str [])] [some [1], some [2]] (.int 128) "\n" (.int 0)

theorem naiveMergeWithImages_two_sections :
    mergedTwoSections.toOption = some ([[], "\none\ntwo".toList], [none, some [1, 2]]) ∧
      mergedTwoSections.map Prod.fst = naiveMerge wordEnv
        [("one".toList, .str []), ("two".toList, .str [])] (.int 128) "\n" (.int 0) :=
  ⟨by decide +kernel, (naiveMergeWithImages_spec _ _ _ _ rfl _ _ _).1⟩

end RagFlow.Nlp
