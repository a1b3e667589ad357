import RagFlow.Literals

/-! # Chunks of a DOCX document

`naive_merge_docx` with `_build_cks`, `_add_context` and `_merge_cks` of `rag/nlp/__init__.py`.

* **Characters.** The functions are written for characters of any type `χ` that can be read as
  characters (`ch`).  For `Char` they are the functions of the source; for characters with a mark
  they show where a character comes from, and forgetting the marks does not change the run
  (`mergeSections_map`).
* **Structure.** Without custom delimiters the output has the tables and images as they are, and the
  texts put together where they come after one another (`naiveMergeDocx_structure`). -/

namespace RagFlow.Nlp.Docx

open Py

/-! ### Sections and chunks -/

/-- A section, its text with the line break in front. -/
structure Section (χ Img : Type) where
  text : List χ
  image : Option Img
  table : List χ

inductive CkType where
  | text
  | table
  | image
deriving DecidableEq

/-- A chunk; `context` are `context_above` and `context_below`. -/
structure Ck (χ Img : Type) where
  text : List χ
  image : Option Img
  ckType : CkType
  tkNums : ℕ
  context : Option (List χ × List χ) := none

section code

variable {χ Img : Type}

/-- The section is not pure text. -/
def Section.isMedia (s : Section χ Img) : Bool := !s.table.isEmpty || s.image.isSome

def Ck.isMedia (c : Ck χ Img) : Bool := c.ckType ≠ .text

/-- The parts of a text at the places where its characters are split. -/
def partsLike : List Str → List χ → List (List χ)
  | [], _ => []
  | p :: ps, s => s.take p.length :: partsLike ps (s.drop p.length)

variable (ch : χ → Char) (numTokensFromString : Str → ℕ)

/-- `s.strip()`. -/
def stripped (s : List χ) : List χ :=
  ((s.dropWhile fun x => isSpace (ch x)).reverse.dropWhile fun x => isSpace (ch x)).reverse

/-- `re.split` for a pattern of literals. -/
def split (pattern : List Str) (s : List χ) : List (List χ) :=
  partsLike (reSplit pattern (s.map ch)) s

/-! ### `_build_cks` -/

/-- `cks`, `tables`, `images` and `seg`. -/
structure Built (χ Img : Type) where
  cks : List (Ck χ Img)
  tables : List ℕ
  images : List ℕ
  seg : List χ

def textCk (t : List χ) : Ck χ Img :=
  { text := t, image := none, ckType := .text, tkNums := numTokensFromString (t.map ch) }

/-- The chunk of a table or an image. -/
def mediaCk (s : Section χ Img) : Ck χ Img :=
  if s.table ≠ [] then
    { text := s.text ++ s.table, image := s.image, ckType := .table
      tkNums := numTokensFromString ((s.text ++ s.table).map ch) }
  else
    { text := s.text, image := s.image, ckType := .image
      tkNums := numTokensFromString (s.text.map ch) }

/-- A chunk for the text, if it is not blank. -/
def textCks (t : List χ) : List (Ck χ Img) :=
  if stripped ch t ≠ [] then [textCk ch numTokensFromString (stripped ch t)] else []

/-- The buffer becomes a chunk. -/
def flush (b : Built χ Img) : Built χ Img :=
  { b with cks := b.cks ++ textCks ch numTokensFromString b.seg, seg := [] }

/-- The body of the loop over the parts of a text. -/
def addPart (pattern : List Str) (b : Built χ Img) (subSec : List χ) : Built χ Img :=
  if stripped ch subSec = [] then flush ch numTokensFromString b
  else if pattern.contains ((stripped ch subSec).map ch) then flush ch numTokensFromString b
  else { b with seg := b.seg ++ subSec }

/-- A round of the loop over the sections; the pattern is there if there are custom delimiters. -/
def addSection (pattern : Option (List Str)) (b : Built χ Img) (s : Section χ Img) : Built χ Img :=
  if s.table ≠ [] then
    { b with cks := b.cks ++ [mediaCk ch numTokensFromString s]
             tables := b.tables ++ [b.cks.length] }
  else if s.image.isSome then
    { b with cks := b.cks ++ [mediaCk ch numTokensFromString s]
             images := b.images ++ [b.cks.length] }
  else
    match pattern with
    | some pattern =>
        (split ch pattern s.text).foldl (addPart ch numTokensFromString pattern) b
    | none => { b with cks := b.cks ++ textCks ch numTokensFromString s.text }

/-- The pattern of the custom delimiters. -/
def docxPattern (delimiter : Str) : Option (List Str) :=
  if customDelimiters delimiter ≠ [] then some (customPattern (customDelimiters delimiter))
  else none

def buildCks (sections : List (Section χ Img)) (delimiter : Str) : Built χ Img :=
  let b := sections.foldl (addSection ch numTokensFromString (docxPattern delimiter))
    ⟨[], [], [], []⟩
  if (docxPattern delimiter).isSome then flush ch numTokensFromString b else b

/-! ### `_add_context` -/

/-- The alternatives of `split_pat`. -/
def splitPat : List Str :=
  [['。'], ['!'], ['?'], ['？'], ['；'], ['！'], ['\n'], ['.', ' ']]

/-- Each part with the delimiter after it. -/
def sentences : List (List χ) → List (List χ)
  | [] => []
  | [t] => [t]
  | t :: d :: txts => (t ++ d) :: sentences txts

/-- The loop of `take_sentences_from_end`, on the sentences in reverse order. -/
def takeFromEnd (needTokens : ℤ) (acc : List χ) : List (List χ) → List χ
  | [] => acc
  | s :: sents =>
      if needTokens ≤ numTokensFromString ((s ++ acc).map ch) then s ++ acc
      else takeFromEnd needTokens (s ++ acc) sents

def takeSentencesFromEnd (cnt : List χ) (needTokens : ℤ) : List χ :=
  takeFromEnd ch numTokensFromString needTokens [] (sentences (split ch splitPat cnt)).reverse

/-- The loop of `take_sentences_from_start`. -/
def takeFromStart (needTokens : ℤ) (acc : List χ) : List (List χ) → List χ
  | [] => acc
  | s :: sents =>
      if needTokens ≤ numTokensFromString ((acc ++ s).map ch) then acc ++ s
      else takeFromStart needTokens (acc ++ s) sents

def takeSentencesFromStart (cnt : List χ) (needTokens : ℤ) : List χ :=
  takeFromStart ch numTokensFromString needTokens [] (sentences (split ch splitPat cnt))

/-- `parts_above`, for the chunks before in reverse order. -/
def partsAbove (remainAbove : ℤ) : List (Ck χ Img) → List (List χ)
  | [] => []
  | c :: before =>
      if remainAbove ≤ 0 then []
      else if c.ckType = .text then
        if remainAbove ≤ c.tkNums then
          [takeSentencesFromEnd ch numTokensFromString c.text remainAbove]
        else partsAbove (remainAbove - c.tkNums) before ++ [c.text]
      else partsAbove remainAbove before

/-- `parts_below`, for the chunks after. -/
def partsBelow (remainBelow : ℤ) : List (Ck χ Img) → List (List χ)
  | [] => []
  | c :: after =>
      if remainBelow ≤ 0 then []
      else if c.ckType = .text then
        if remainBelow ≤ c.tkNums then
          [takeSentencesFromStart ch numTokensFromString c.text remainBelow]
        else c.text :: partsBelow (remainBelow - c.tkNums) after
      else partsBelow remainBelow after

/-- `context_above` and `context_below` of a chunk between others. -/
def contextOf (contextSize : ℤ) (before after : List (Ck χ Img)) : List χ × List χ :=
  ((partsAbove ch numTokensFromString contextSize before.reverse).flatten,
    (partsBelow ch numTokensFromString contextSize after).flatten)

def addContext (contextSize : ℤ) (cks : List (Ck χ Img)) (idx : ℕ) : List (Ck χ Img) :=
  match cks[idx]? with
  | some c =>
      if c.ckType = .text then cks
      else
        cks.set idx
          { c with
            context := some (contextOf ch numTokensFromString contextSize (cks.take idx)
              (cks.drop (idx + 1))) }
  | none => cks

/-- The contexts for the indices of one kind of chunk. -/
def addContexts (contextSize : ℤ) (is : List ℕ) (cks : List (Ck χ Img)) : List (Ck χ Img) :=
  if 0 < contextSize then is.foldl (addContext ch numTokensFromString contextSize) cks else cks

/-! ### `_merge_cks` -/

/-- `merged`, `image_idxs` and `prev_text_ck`. -/
structure Merged (χ Img : Type) where
  merged : List (Ck χ Img)
  imageIdxs : List ℕ
  prevTextCk : Option ℕ

/-- A text chunk is not put to the one before. -/
def startsChunk (chunkTokenNum : ℤ) (hasCustom : Bool) (m : Merged χ Img) : Bool :=
  match m.prevTextCk with
  | none => true
  | some p => ((m.merged[p]?).any fun c => chunkTokenNum ≤ c.tkNums) || hasCustom

def mergeCk (chunkTokenNum : ℤ) (hasCustom : Bool) (m : Merged χ Img) (c : Ck χ Img) :
    Merged χ Img :=
  if c.ckType ≠ .text then
    { m with
      merged := m.merged ++ [c]
      imageIdxs := if c.ckType = .image then m.imageIdxs ++ [m.merged.length] else m.imageIdxs }
  else if startsChunk chunkTokenNum hasCustom m then
    { m with merged := m.merged ++ [c], prevTextCk := some m.merged.length }
  else
    { m with
      merged := m.merged.modify (m.prevTextCk.getD 0) fun d =>
        { d with text := d.text ++ c.text, tkNums := d.tkNums + c.tkNums } }

def mergeCks (cks : List (Ck χ Img)) (chunkTokenNum : ℤ) (hasCustom : Bool) :
    List (Ck χ Img) × List ℕ :=
  let m := cks.foldl (mergeCk chunkTokenNum hasCustom) ⟨[], [], none⟩
  (m.merged, m.imageIdxs)

/-- `naive_merge_docx`, on sections whose texts have their line breaks. -/
def mergeSections (sections : List (Section χ Img)) (chunkTokenNum : ℤ) (delimiter : Str)
    (tableContextSize imageContextSize : ℤ) : List (Ck χ Img) × List ℕ :=
  if sections.isEmpty then ([], [])
  else
    let b := buildCks ch numTokensFromString sections delimiter
    let cks := addContexts ch numTokensFromString tableContextSize b.tables b.cks
    let cks := addContexts ch numTokensFromString imageContextSize b.images cks
    mergeCks cks chunkTokenNum (docxPattern delimiter).isSome

end code

/-- The text of a section with a line break in front, if there is text. -/
def normalize {Img : Type} (s : Section Char Img) : Section Char Img :=
  { s with text := if s.text = [] then [] else '\n' :: s.text }

/-- `naive_merge_docx`. -/
def naiveMergeDocx {Img : Type} (numTokensFromString : Str → ℕ) (sections : List (Section Char Img))
    (chunkTokenNum : ℤ) (delimiter : Str) (tableContextSize imageContextSize : ℤ) :
    List (Ck Char Img) × List ℕ :=
  mergeSections id numTokensFromString (sections.map normalize) chunkTokenNum delimiter
    tableContextSize imageContextSize

/-! ### Index lists -/

section marks

variable {χ Img : Type}

/-- The indices of the chunks of one kind, in order. -/
structure Marks (q : CkType) (cks : List (Ck χ Img)) (is : List ℕ) : Prop where
  sorted : is.Pairwise (· < ·)
  mem_iff : ∀ i, i ∈ is ↔ (cks[i]?).map Ck.ckType = some q

theorem marks_nil (q : CkType) : Marks q ([] : List (Ck χ Img)) [] :=
  ⟨List.Pairwise.nil, fun i => by simp⟩

variable {q : CkType} {cks : List (Ck χ Img)} {is : List ℕ}

theorem Marks.lt (h : Marks q cks is) {i : ℕ} (hi : i ∈ is) : i < cks.length := by
  have hmap := (h.mem_iff i).mp hi
  by_contra hlt
  rw [List.getElem?_eq_none (Nat.le_of_not_lt hlt)] at hmap
  cases hmap

theorem Marks.snoc (h : Marks q cks is) {c : Ck χ Img} (hc : c.ckType = q) :
    Marks q (cks ++ [c]) (is ++ [cks.length]) where
  sorted := by
    rw [List.pairwise_append]
    refine ⟨h.sorted, List.pairwise_singleton _ _, fun i hi j hj => ?_⟩
    rw [List.mem_singleton.mp hj]
    exact h.lt hi
  mem_iff := by
    intro i
    rw [List.mem_append, List.mem_singleton, h.mem_iff]
    rcases Nat.lt_trichotomy i cks.length with hlt | rfl | hgt
    · rw [List.getElem?_append_left hlt]
      exact ⟨fun hi => hi.resolve_right hlt.ne, Or.inl⟩
    · simp [hc]
    · have hlong : (cks ++ [c]).length ≤ i := by
        rw [List.length_append, List.length_singleton]
        exact hgt
      rw [List.getElem?_eq_none hlong, List.getElem?_eq_none hgt.le]
      exact ⟨fun hi => hi.resolve_right hgt.ne', Or.inl⟩

theorem Marks.append (h : Marks q cks is) {l : List (Ck χ Img)} (hl : ∀ c ∈ l, c.ckType ≠ q) :
    Marks q (cks ++ l) is where
  sorted := h.sorted
  mem_iff := by
    intro i
    rw [h.mem_iff]
    rcases Nat.lt_or_ge i cks.length with hlt | hge
    · rw [List.getElem?_append_left hlt]
    · rw [List.getElem?_append_right hge, List.getElem?_eq_none hge]
      refine iff_of_false (by simp) fun hsome => ?_
      obtain ⟨c, hc, hq⟩ := Option.map_eq_some_iff.mp hsome
      exact hl c (List.mem_of_getElem? hc) hq

theorem Marks.congr (h : Marks q cks is) {cks' : List (Ck χ Img)}
    (hmap : cks'.map Ck.ckType = cks.map Ck.ckType) : Marks q cks' is where
  sorted := h.sorted
  mem_iff := by
    intro i
    rw [h.mem_iff, ← List.getElem?_map, ← List.getElem?_map, hmap]

end marks

/-! ### Merging -/

section merge

variable {χ Img : Type}

/-- The chunks of text. -/
def texts (cks : List (Ck χ Img)) : List (Ck χ Img) := cks.filter fun c => !c.isMedia

/-- The tables and images. -/
def media (cks : List (Ck χ Img)) : List (Ck χ Img) := cks.filter Ck.isMedia

theorem texts_append (l r : List (Ck χ Img)) : texts (l ++ r) = texts l ++ texts r :=
  List.filter_append ..

theorem media_append (l r : List (Ck χ Img)) : media (l ++ r) = media l ++ media r :=
  List.filter_append ..

/-- Where the last text chunk is. -/
inductive LastText : List (Ck χ Img) → Option ℕ → Prop where
  | none {cks : List (Ck χ Img)} (hcks : ∀ c ∈ cks, c.ckType ≠ .text) : LastText cks none
  | some {before after : List (Ck χ Img)} {c : Ck χ Img} (hc : c.ckType = .text)
      (hafter : ∀ d ∈ after, d.ckType ≠ .text) :
      LastText (before ++ c :: after) (some before.length)

theorem LastText.snoc_media {cks : List (Ck χ Img)} {prev : Option ℕ} (h : LastText cks prev)
    {c : Ck χ Img} (hc : c.ckType ≠ .text) : LastText (cks ++ [c]) prev := by
  have hsnoc : ∀ l : List (Ck χ Img), (∀ d ∈ l, d.ckType ≠ .text) →
      ∀ d ∈ l ++ [c], d.ckType ≠ .text := by
    intro l hl d hd
    rcases List.mem_append.mp hd with hd | hd
    · exact hl d hd
    · rw [List.mem_singleton.mp hd]
      exact hc
  cases h with
  | none hcks => exact LastText.none (hsnoc cks hcks)
  | some htext hafter =>
      rw [List.append_assoc, List.cons_append]
      exact LastText.some htext (hsnoc _ hafter)

/-- The chunk that two chunks of text become. -/
def Ck.join (d c : Ck χ Img) : Ck χ Img :=
  { d with text := d.text ++ c.text, tkNums := d.tkNums + c.tkNums }

theorem texts_eq_nil {l : List (Ck χ Img)} (hl : ∀ c ∈ l, c.ckType ≠ .text) : texts l = [] := by
  refine List.filter_eq_nil_iff.mpr fun c hc => ?_
  simp [Ck.isMedia, hl c hc]

theorem texts_singleton {c : Ck χ Img} (hc : c.ckType = .text) : texts [c] = [c] := by
  simp [texts, Ck.isMedia, hc]

theorem media_singleton {c : Ck χ Img} (hc : c.ckType ≠ .text) : media [c] = [c] := by
  simp [media, Ck.isMedia, hc]

theorem media_text {c : Ck χ Img} (hc : c.ckType = .text) : media [c] = [] := by
  simp [media, Ck.isMedia, hc]

theorem texts_around {before after : List (Ck χ Img)} {c : Ck χ Img} (hc : c.ckType = .text)
    (hafter : ∀ d ∈ after, d.ckType ≠ .text) :
    texts (before ++ c :: after) = texts before ++ [c] := by
  rw [texts_append, ← List.singleton_append, texts_append, texts_singleton hc, texts_eq_nil hafter,
    List.append_nil]

theorem media_around {c : Ck χ Img} (hc : c.ckType = .text) (before after : List (Ck χ Img)) :
    media (before ++ c :: after) = media before ++ media after := by
  rw [media_append, ← List.singleton_append, media_append, media_text hc, List.nil_append]

/-- A state of the loop. -/
structure Merging (m : Merged χ Img) : Prop where
  last : LastText m.merged m.prevTextCk
  images : Marks .image m.merged m.imageIdxs

theorem merging_start : Merging (⟨[], [], none⟩ : Merged χ Img) :=
  ⟨LastText.none fun _ h => (List.not_mem_nil h).elim, marks_nil _⟩

/-- What a round adds to the chunks of text. -/
inductive TextStep (n : ℤ) : List (Ck χ Img) → Ck χ Img → List (Ck χ Img) → Prop where
  | start {ts : List (Ck χ Img)} {c : Ck χ Img} (hfull : ∀ d ∈ ts.getLast?, n ≤ d.tkNums) :
      TextStep n ts c (ts ++ [c])
  | join {ts : List (Ck χ Img)} {d c : Ck χ Img} : TextStep n (ts ++ [d]) c (ts ++ [d.join c])

/-- A round with a table or an image. -/
theorem mergeCk_media {m : Merged χ Img} (h : Merging m) (n : ℤ) (hasCustom : Bool)
    {c : Ck χ Img} (hc : c.ckType ≠ .text) :
    (mergeCk n hasCustom m c).merged = m.merged ++ [c] ∧ Merging (mergeCk n hasCustom m c) := by
  unfold mergeCk
  rw [if_pos hc]
  refine ⟨rfl, ?_, ?_⟩
  · exact h.last.snoc_media hc
  · show Marks .image (m.merged ++ [c])
      (if c.ckType = .image then m.imageIdxs ++ [m.merged.length] else m.imageIdxs)
    by_cases himage : c.ckType = .image
    · rw [if_pos himage]
      exact h.images.snoc himage
    · rw [if_neg himage]
      refine h.images.append fun d hd => ?_
      rw [List.mem_singleton.mp hd]
      exact himage

/-- A round with text. -/
theorem mergeCk_text {m : Merged χ Img} (h : Merging m) (n : ℤ) (hasCustom : Bool)
    {c : Ck χ Img} (hc : c.ckType = .text) :
    media (mergeCk n hasCustom m c).merged = media m.merged ∧
      (hasCustom = false → TextStep n (texts m.merged) c (texts (mergeCk n hasCustom m c).merged)) ∧
      Merging (mergeCk n hasCustom m c) := by
  have himage : c.ckType ≠ .image := by rw [hc]; decide
  unfold mergeCk
  rw [if_neg (not_not.mpr hc)]
  by_cases hstart : startsChunk n hasCustom m = true
  · rw [if_pos hstart]
    refine ⟨?_, fun hplain => ?_, ?_, ?_⟩
    · show media (m.merged ++ [c]) = _
      rw [media_append, media_text hc, List.append_nil]
    · show TextStep n _ c (texts (m.merged ++ [c]))
      rw [texts_append, texts_singleton hc]
      refine TextStep.start fun d hd => ?_
      obtain ⟨hlast, -⟩ := h
      unfold startsChunk at hstart
      generalize hprev : m.prevTextCk = prev at hlast hstart
      generalize m.merged = merged at hlast hstart hd
      cases hlast with
      | none hcks =>
          rw [texts_eq_nil hcks] at hd
          cases hd
      | @some before after e htext hafter =>
          rw [texts_around htext hafter, List.getLast?_concat] at hd
          cases hd
          simpa [hplain] using hstart
    · exact @LastText.some _ _ _ [] _ hc fun _ h => (List.not_mem_nil h).elim
    · refine h.images.append fun d hd => ?_
      rw [List.mem_singleton.mp hd]
      exact himage
  · rw [if_neg hstart]
    obtain ⟨hlast, himages⟩ := h
    unfold startsChunk at hstart
    generalize hprev : m.prevTextCk = prev at hlast hstart
    generalize hmerged : m.merged = merged at hlast hstart himages
    cases hlast with
    | none hcks => exact absurd rfl hstart
    | @some before after e htext hafter =>
        have hmodify : (before ++ e :: after).modify before.length (fun d => d.join c) =
            before ++ e.join c :: after := by
          rw [List.modify_eq_take_cons_drop (by simp)]
          simp
        show media ((before ++ e :: after).modify before.length (fun d => d.join c)) = _ ∧
          (_ → TextStep n _ c
            (texts ((before ++ e :: after).modify before.length (fun d => d.join c)))) ∧
          Merging ⟨(before ++ e :: after).modify before.length (fun d => d.join c), m.imageIdxs,
            some before.length⟩
        rw [hmodify]
        have hjoin : (e.join c).ckType = .text := htext
        refine ⟨?_, fun _ => ?_, LastText.some hjoin hafter, himages.congr ?_⟩
        · rw [media_around hjoin, media_around htext]
        · rw [texts_around hjoin hafter, texts_around htext hafter]
          exact TextStep.join
        · rw [List.map_append, List.map_append, List.map_cons, List.map_cons]
          rfl

/-- The loop of `_merge_cks`. -/
theorem foldl_mergeCk (n : ℤ) (hasCustom : Bool) (cks : List (Ck χ Img)) (m : Merged χ Img)
    (h : Merging m) :
    Merging (cks.foldl (mergeCk n hasCustom) m) ∧
      media (cks.foldl (mergeCk n hasCustom) m).merged = media m.merged ++ media cks := by
  induction cks generalizing m with
  | nil => exact ⟨h, (List.append_nil _).symm⟩
  | cons c cks ih =>
      have hsplit : media (c :: cks) = media [c] ++ media cks := media_append [c] cks
      by_cases hc : c.ckType = .text
      · obtain ⟨hmedia, -, hnext⟩ := mergeCk_text h n hasCustom hc
        obtain ⟨hlast, hall⟩ := ih _ hnext
        refine ⟨hlast, hall.trans ?_⟩
        rw [hmedia, hsplit, media_text hc, List.nil_append]
      · obtain ⟨hmerged, hnext⟩ := mergeCk_media h n hasCustom hc
        obtain ⟨hlast, hall⟩ := ih _ hnext
        refine ⟨hlast, hall.trans ?_⟩
        rw [hmerged, media_append, hsplit, List.append_assoc]

/-- The tables and images stay, and the images are at the indices returned. -/
theorem mergeCks_media (cks : List (Ck χ Img)) (n : ℤ) (hasCustom : Bool) :
    media (mergeCks cks n hasCustom).1 = media cks ∧
      Marks .image (mergeCks cks n hasCustom).1 (mergeCks cks n hasCustom).2 := by
  obtain ⟨hlast, hmedia⟩ := foldl_mergeCk n hasCustom cks _ merging_start
  exact ⟨hmedia, hlast.images⟩

variable (ch : χ → Char) (numTokensFromString : Str → ℕ)

/-- The chunk of several pieces of text. -/
def groupCk (g : List (List χ)) : Ck χ Img where
  text := g.flatten
  image := none
  ckType := .text
  tkNums := (g.map fun t => numTokensFromString (t.map ch)).sum

/-- The pieces are put together in order, and each group but the last is full. -/
structure GroupedPieces (n : ℤ) (pieces : List (List χ)) (ts : List (Ck χ Img)) : Prop where
  groups : ∃ gs : List (List (List χ)), gs.flatten = pieces ∧
    ts = gs.map (groupCk ch numTokensFromString)
  full : ∀ c ∈ ts.dropLast, n ≤ c.tkNums

variable {ch numTokensFromString}

theorem textCk_eq_groupCk (t : List χ) :
    (textCk ch numTokensFromString t : Ck χ Img) = groupCk ch numTokensFromString [t] := by
  unfold textCk groupCk
  rw [List.flatten_singleton, List.map_singleton, List.sum_singleton]

theorem groupCk_join (g : List (List χ)) (t : List χ) :
    (groupCk ch numTokensFromString g : Ck χ Img).join (textCk ch numTokensFromString t) =
      groupCk ch numTokensFromString (g ++ [t]) := by
  unfold Ck.join textCk groupCk
  simp

theorem GroupedPieces.step {n : ℤ} {pieces : List (List χ)} {ts ts' : List (Ck χ Img)}
    {t : List χ} (h : GroupedPieces ch numTokensFromString n pieces ts)
    (hstep : TextStep n ts (textCk ch numTokensFromString t) ts') :
    GroupedPieces ch numTokensFromString n (pieces ++ [t]) ts' := by
  obtain ⟨⟨gs, rfl, hts⟩, hfull⟩ := h
  cases hstep with
  | start hlast =>
      refine ⟨⟨gs ++ [[t]], by simp, ?_⟩, fun c hc => ?_⟩
      · rw [hts, List.map_append, textCk_eq_groupCk]
        rfl
      · rw [List.dropLast_concat] at hc
        rcases List.eq_nil_or_concat ts with hnil | ⟨l, d, hl⟩
        · rw [hnil] at hc
          cases hc
        · rw [List.concat_eq_append] at hl
          rw [hl] at hc hlast hfull
          rw [List.dropLast_concat] at hfull
          rcases List.mem_append.mp hc with hc | hc
          · exact hfull c hc
          · rw [List.mem_singleton.mp hc]
            exact hlast d List.getLast?_concat
  | @join l d c =>
      rcases List.eq_nil_or_concat gs with rfl | ⟨gs', g, rfl⟩
      · exact absurd hts (by simp)
      · rw [List.concat_eq_append, List.map_append] at hts
        obtain ⟨hl, hd⟩ := List.append_inj' hts rfl
        cases hd
        refine ⟨⟨gs' ++ [g ++ [t]], by simp, ?_⟩, fun c hc => ?_⟩
        · rw [hl, List.map_append, groupCk_join]
          rfl
        · rw [List.dropLast_concat] at hc hfull
          exact hfull c hc

/-- The texts after the loop of `_merge_cks`. -/
theorem mergeCks_texts (n : ℤ) (cks : List (Ck χ Img)) (m : Merged χ Img) (h : Merging m)
    (pieces done : List (List χ)) (hpieces : texts cks = pieces.map (textCk ch numTokensFromString))
    (hdone : GroupedPieces ch numTokensFromString n done (texts m.merged)) :
    GroupedPieces ch numTokensFromString n (done ++ pieces)
      (texts (cks.foldl (mergeCk n false) m).merged) := by
  induction cks generalizing m pieces done with
  | nil =>
      rw [List.map_eq_nil_iff.mp hpieces.symm, List.append_nil]
      exact hdone
  | cons c cks ih =>
      have hsplit : texts (c :: cks) = texts [c] ++ texts cks := texts_append [c] cks
      by_cases hc : c.ckType = .text
      · obtain ⟨-, hstep, hnext⟩ := mergeCk_text h n false hc
        rw [hsplit, texts_singleton hc, List.singleton_append] at hpieces
        cases pieces with
        | nil => cases hpieces
        | cons t pieces =>
            obtain ⟨rfl, hrest⟩ := List.cons.inj hpieces
            have hgroup := ih _ hnext pieces (done ++ [t]) hrest (hdone.step (hstep rfl))
            rwa [List.append_assoc] at hgroup
      · obtain ⟨hmerged, hnext⟩ := mergeCk_media h n false hc
        have hnil : texts [c] = [] := texts_eq_nil fun d hd => by
          rw [List.mem_singleton.mp hd]
          exact hc
        refine ih _ hnext pieces done ?_ ?_
        · rwa [hsplit, hnil] at hpieces
        · rwa [hmerged, texts_append, hnil, List.append_nil]

end merge

/-! ### Contexts -/

section contexts

variable {χ Img : Type}

/-- The chunk without its contexts. -/
def Ck.bare (c : Ck χ Img) : Ck χ Img := { c with context := none }

/-- A chunk that got contexts, unless it is text. -/
structure Attached (c d : Ck χ Img) : Prop where
  bare : d.bare = c.bare
  text : c.ckType = .text → d = c

theorem Attached.rfl' (c : Ck χ Img) : Attached c c := ⟨rfl, fun _ => rfl⟩

theorem Attached.ckType {c d : Ck χ Img} (h : Attached c d) : d.ckType = c.ckType := by
  have hbare := congrArg Ck.ckType h.bare
  exact hbare

theorem Attached.isMedia {c d : Ck χ Img} (h : Attached c d) : d.isMedia = c.isMedia := by
  unfold Ck.isMedia
  rw [h.ckType]

theorem Attached.trans {c d e : Ck χ Img} (h : Attached c d) (h' : Attached d e) :
    Attached c e where
  bare := h'.bare.trans h.bare
  text hc := by
    have hd : d.ckType = .text := h.ckType.trans hc
    rw [h'.text hd, h.text hc]

theorem Attached.texts {l l' : List (Ck χ Img)} (h : List.Forall₂ Attached l l') :
    texts l' = texts l := by
  induction h with
  | nil => rfl
  | @cons c d l l' hc _ ih =>
      have hsplit : ∀ (e : Ck χ Img) m, Docx.texts (e :: m) = Docx.texts [e] ++ Docx.texts m :=
        fun e m => texts_append [e] m
      rw [hsplit, hsplit c, ih]
      by_cases htext : c.ckType = .text
      · rw [hc.text htext]
      · rw [texts_eq_nil (l := [d]), texts_eq_nil (l := [c])]
        · simpa using htext
        · simpa [hc.ckType] using htext

theorem Attached.media {l l' : List (Ck χ Img)} (h : List.Forall₂ Attached l l') :
    (media l').map Ck.bare = (media l).map Ck.bare := by
  induction h with
  | nil => rfl
  | @cons c d l l' hc _ ih =>
      unfold Docx.media at ih ⊢
      rw [List.filter_cons, List.filter_cons, hc.isMedia]
      split_ifs
      · rw [List.map_cons, List.map_cons, ih, hc.bare]
      · exact ih

theorem attached_refl (l : List (Ck χ Img)) : List.Forall₂ Attached l l :=
  List.forall₂_same.mpr fun c _ => Attached.rfl' c

theorem attached_trans {l l' l'' : List (Ck χ Img)} (h : List.Forall₂ Attached l l') :
    List.Forall₂ Attached l' l'' → List.Forall₂ Attached l l'' := by
  induction h generalizing l'' with
  | nil => exact id
  | cons hc _ ih =>
      intro h'
      obtain ⟨e, l'', hd, hl, rfl⟩ := List.forall₂_cons_left_iff.mp h'
      exact List.Forall₂.cons (hc.trans hd) (ih hl)

variable (ch : χ → Char) (numTokensFromString : Str → ℕ)

theorem partsAbove_congr {l l' : List (Ck χ Img)} (h : List.Forall₂ Attached l l')
    (remain : ℤ) : partsAbove ch numTokensFromString remain l' =
      partsAbove ch numTokensFromString remain l := by
  induction h generalizing remain with
  | nil => rfl
  | @cons c d l l' hc _ ih =>
      by_cases htext : c.ckType = .text
      · rw [hc.text htext, partsAbove, partsAbove]
        simp only [ih]
      · have htext' : d.ckType ≠ .text := by rwa [hc.ckType]
        rw [partsAbove, partsAbove, if_neg htext, if_neg htext', ih]

theorem partsBelow_congr {l l' : List (Ck χ Img)} (h : List.Forall₂ Attached l l')
    (remain : ℤ) : partsBelow ch numTokensFromString remain l' =
      partsBelow ch numTokensFromString remain l := by
  induction h generalizing remain with
  | nil => rfl
  | @cons c d l l' hc _ ih =>
      by_cases htext : c.ckType = .text
      · rw [hc.text htext, partsBelow, partsBelow]
        simp only [ih]
      · have htext' : d.ckType ≠ .text := by rwa [hc.ckType]
        rw [partsBelow, partsBelow, if_neg htext, if_neg htext', ih]

/-- Contexts that are there already do not matter. -/
theorem contextOf_congr (size : ℤ) {before before' after after' : List (Ck χ Img)}
    (hbefore : List.Forall₂ Attached before before') (hafter : List.Forall₂ Attached after after') :
    contextOf ch numTokensFromString size before' after' =
      contextOf ch numTokensFromString size before after := by
  unfold contextOf
  rw [partsAbove_congr ch numTokensFromString (List.rel_reverse hbefore) size,
    partsBelow_congr ch numTokensFromString hafter size]

theorem addContext_attached (size : ℤ) (cks : List (Ck χ Img)) (idx : ℕ) :
    List.Forall₂ Attached cks (addContext ch numTokensFromString size cks idx) := by
  unfold addContext
  cases hget : cks[idx]? with
  | none => exact attached_refl cks
  | some c =>
      dsimp only
      by_cases hc : c.ckType = .text
      · rw [if_pos hc]
        exact attached_refl cks
      · rw [if_neg hc]
        obtain ⟨hlt, hget⟩ := List.getElem?_eq_some_iff.mp hget
        rw [List.set_eq_take_append_cons_drop, if_pos hlt]
        conv =>
          arg 2
          rw [← List.take_append_drop idx cks, List.drop_eq_getElem_cons hlt, hget]
        exact List.rel_append (attached_refl _)
          (List.Forall₂.cons ⟨rfl, fun h => absurd h hc⟩ (attached_refl _))

theorem foldl_addContext_attached (size : ℤ) (is : List ℕ) (cks cks' : List (Ck χ Img))
    (h : List.Forall₂ Attached cks cks') : List.Forall₂ Attached cks
      (is.foldl (addContext ch numTokensFromString size) cks') := by
  induction is generalizing cks' with
  | nil => exact h
  | cons i is ih =>
      exact ih _ (attached_trans h
        (addContext_attached ch numTokensFromString size cks' i))

theorem addContexts_attached (size : ℤ) (is : List ℕ) (cks cks' : List (Ck χ Img))
    (h : List.Forall₂ Attached cks cks') :
    List.Forall₂ Attached cks (addContexts ch numTokensFromString size is cks') := by
  unfold addContexts
  split_ifs
  · exact foldl_addContext_attached ch numTokensFromString size is cks cks' h
  · exact h

/-- The chunks at other indices are left alone. -/
theorem addContexts_of_not_mem (size : ℤ) {p : ℕ} {is : List ℕ} (hp : p ∉ is)
    (cks : List (Ck χ Img)) :
    (addContexts ch numTokensFromString size is cks)[p]? = cks[p]? := by
  unfold addContexts
  split_ifs
  · induction is generalizing cks with
    | nil => rfl
    | cons i is ih =>
        obtain ⟨hi, his⟩ := not_or.mp (List.mem_cons.not.mp hp)
        refine (ih his _).trans ?_
        unfold addContext
        cases cks[i]? with
        | none => rfl
        | some c =>
            dsimp only
            split_ifs
            · rfl
            · exact List.getElem?_set_ne (Ne.symm hi)
  · rfl

/-- A chunk at one of the indices gets its contexts. -/
theorem addContexts_of_mem {size : ℤ} (hsize : 0 < size) {before after : List (Ck χ Img)}
    {c : Ck χ Img} (hc : c.ckType ≠ .text) {is : List ℕ} (hmem : before.length ∈ is)
    (cks : List (Ck χ Img)) (h : List.Forall₂ Attached (before ++ c :: after) cks) :
    ((addContexts ch numTokensFromString size is cks)[before.length]?).bind Ck.context =
      some (contextOf ch numTokensFromString size before after) := by
  induction is generalizing cks with
  | nil => cases hmem
  | cons i is ih =>
      have hstep : addContexts ch numTokensFromString size (i :: is) cks =
          addContexts ch numTokensFromString size is
            (addContext ch numTokensFromString size cks i) := by
        unfold addContexts
        rw [if_pos hsize, if_pos hsize]
        rfl
      rw [hstep]
      by_cases hlater : before.length ∈ is
      · exact ih hlater _ (attached_trans h
          (addContext_attached ch numTokensFromString size cks i))
      · rw [addContexts_of_not_mem ch numTokensFromString size hlater]
        have hi : i = before.length := ((List.mem_cons.mp hmem).resolve_right hlater).symm
        subst hi
        have hbefore := List.forall₂_take before.length h
        have hrest := List.forall₂_drop before.length h
        rw [List.take_left] at hbefore
        rw [List.drop_left] at hrest
        obtain ⟨d, after', hcd, hafter, hdrop⟩ := List.forall₂_cons_left_iff.mp hrest
        have hd : d.ckType ≠ .text := by rwa [hcd.ckType]
        have hlt : before.length < cks.length := by
          rw [← h.length_eq, List.length_append, List.length_cons]
          omega
        rw [List.drop_eq_getElem_cons hlt] at hdrop
        obtain ⟨hget, hdrop⟩ := List.cons.inj hdrop
        have hget? : cks[before.length]? = some d := List.getElem?_eq_some_iff.mpr ⟨hlt, hget⟩
        unfold addContext
        rw [hget?]
        dsimp only
        rw [if_neg hd, List.getElem?_set_self hlt, hdrop]
        exact congrArg some (contextOf_congr ch numTokensFromString size hbefore hafter)

end contexts

/-! ### Building -/

section build

variable {χ Img : Type} (ch : χ → Char) (numTokensFromString : Str → ℕ)

/-- Some chunks of text are added. -/
structure AddsText (b b' : Built χ Img) : Prop where
  cks : ∃ new, b'.cks = b.cks ++ new ∧ ∀ c ∈ new, c.ckType = .text
  tables : b'.tables = b.tables
  images : b'.images = b.images

theorem AddsText.refl (b : Built χ Img) : AddsText b b :=
  ⟨⟨[], (List.append_nil _).symm, fun _ h => (List.not_mem_nil h).elim⟩, rfl, rfl⟩

theorem AddsText.trans {b b' b'' : Built χ Img} (h : AddsText b b') (h' : AddsText b' b'') :
    AddsText b b'' := by
  obtain ⟨new, hnew, htext⟩ := h.cks
  obtain ⟨new', hnew', htext'⟩ := h'.cks
  refine ⟨⟨new ++ new', by rw [hnew', hnew, List.append_assoc], fun c hc => ?_⟩,
    h'.tables.trans h.tables, h'.images.trans h.images⟩
  rcases List.mem_append.mp hc with hc | hc
  · exact htext c hc
  · exact htext' c hc

theorem textCks_text (t : List χ) :
    ∀ c ∈ (textCks ch numTokensFromString t : List (Ck χ Img)), c.ckType = .text := by
  intro c hc
  unfold textCks at hc
  split_ifs at hc
  · rw [List.mem_singleton.mp hc]
    rfl
  · cases hc

theorem flush_addsText (b : Built χ Img) : AddsText b (flush ch numTokensFromString b) :=
  ⟨⟨_, rfl, textCks_text ch numTokensFromString b.seg⟩, rfl, rfl⟩

theorem addPart_addsText (pattern : List Str) (b : Built χ Img) (t : List χ) :
    AddsText b (addPart ch numTokensFromString pattern b t) := by
  unfold addPart
  split_ifs
  · exact flush_addsText ch numTokensFromString b
  · exact flush_addsText ch numTokensFromString b
  · exact ⟨(AddsText.refl b).cks, rfl, rfl⟩

theorem foldl_addPart_addsText (pattern : List Str) (parts : List (List χ)) (b : Built χ Img) :
    AddsText b (parts.foldl (addPart ch numTokensFromString pattern) b) := by
  induction parts generalizing b with
  | nil => exact AddsText.refl b
  | cons t parts ih => exact (addPart_addsText ch numTokensFromString pattern b t).trans (ih _)

theorem addSection_text (pattern : Option (List Str)) (b : Built χ Img) {s : Section χ Img}
    (hs : s.isMedia = false) : addSection ch numTokensFromString pattern b s =
      match pattern with
      | some pattern => (split ch pattern s.text).foldl (addPart ch numTokensFromString pattern) b
      | none => { b with cks := b.cks ++ textCks ch numTokensFromString s.text } := by
  unfold Section.isMedia at hs
  obtain ⟨htable, himage⟩ := Bool.or_eq_false_iff.mp hs
  have hnil : ¬s.table ≠ [] := by simpa using htable
  unfold addSection
  rw [if_neg hnil, himage, if_neg Bool.false_ne_true]

/-- Pure text adds chunks of text. -/
theorem addSection_pure (pattern : Option (List Str)) (b : Built χ Img) {s : Section χ Img}
    (hs : s.isMedia = false) : AddsText b (addSection ch numTokensFromString pattern b s) := by
  rw [addSection_text ch numTokensFromString pattern b hs]
  cases pattern with
  | some pattern => exact foldl_addPart_addsText ch numTokensFromString pattern _ b
  | none => exact ⟨⟨_, rfl, textCks_text ch numTokensFromString s.text⟩, rfl, rfl⟩

theorem image_isSome {s : Section χ Img} (hs : s.isMedia = true) (htable : ¬s.table ≠ []) :
    s.image.isSome = true := by
  rw [not_not] at htable
  unfold Section.isMedia at hs
  rwa [htable] at hs

theorem mediaCk_ckType (s : Section χ Img) : (mediaCk ch numTokensFromString s).ckType ≠ .text := by
  unfold mediaCk
  split_ifs
  · exact fun h => by cases h
  · exact fun h => by cases h

/-- A table or an image adds its chunk. -/
theorem addSection_media (pattern : Option (List Str)) (b : Built χ Img) {s : Section χ Img}
    (hs : s.isMedia = true) :
    (addSection ch numTokensFromString pattern b s).cks =
        b.cks ++ [mediaCk ch numTokensFromString s] ∧
      (addSection ch numTokensFromString pattern b s).seg = b.seg := by
  unfold addSection
  by_cases htable : s.table ≠ []
  · rw [if_pos htable]
    exact ⟨rfl, rfl⟩
  · rw [if_neg htable, if_pos (image_isSome hs htable)]
    exact ⟨rfl, rfl⟩

/-- The lists of indices are those of the tables and of the images. -/
structure Indexed (b : Built χ Img) : Prop where
  tables : Marks .table b.cks b.tables
  images : Marks .image b.cks b.images

theorem AddsText.indexed {b b' : Built χ Img} (h : AddsText b b') (hb : Indexed b) :
    Indexed b' := by
  obtain ⟨new, hnew, htext⟩ := h.cks
  constructor
  · rw [hnew, h.tables]
    exact hb.tables.append fun c hc => by rw [htext c hc]; decide
  · rw [hnew, h.images]
    exact hb.images.append fun c hc => by rw [htext c hc]; decide

theorem AddsText.media {b b' : Built χ Img} (h : AddsText b b') : media b'.cks = media b.cks := by
  obtain ⟨new, hnew, htext⟩ := h.cks
  have hnil : Docx.media new = [] :=
    List.filter_eq_nil_iff.mpr fun c hc => by simp [Ck.isMedia, htext c hc]
  rw [hnew, media_append, hnil, List.append_nil]

theorem addSection_indexed (pattern : Option (List Str)) {b : Built χ Img} (hb : Indexed b)
    (s : Section χ Img) : Indexed (addSection ch numTokensFromString pattern b s) := by
  by_cases hs : s.isMedia = true
  · unfold addSection
    by_cases htable : s.table ≠ []
    · rw [if_pos htable]
      have htype : (mediaCk ch numTokensFromString s).ckType = .table := by
        unfold mediaCk
        rw [if_pos htable]
      refine ⟨hb.tables.snoc htype, hb.images.append fun c hc => ?_⟩
      rw [List.mem_singleton.mp hc, htype]
      decide
    · have htype : (mediaCk ch numTokensFromString s).ckType = .image := by
        unfold mediaCk
        rw [if_neg htable]
      rw [if_neg htable, if_pos (image_isSome hs htable)]
      refine ⟨hb.tables.append fun c hc => ?_, hb.images.snoc htype⟩
      rw [List.mem_singleton.mp hc, htype]
      decide
  · exact (addSection_pure ch numTokensFromString pattern b (Bool.not_eq_true _ ▸ hs)).indexed hb

/-- The loop over the sections. -/
theorem foldl_addSection (pattern : Option (List Str)) (sections : List (Section χ Img))
    (b : Built χ Img) (hb : Indexed b) :
    Indexed (sections.foldl (addSection ch numTokensFromString pattern) b) ∧
      media (sections.foldl (addSection ch numTokensFromString pattern) b).cks =
        media b.cks ++ (sections.filter Section.isMedia).map (mediaCk ch numTokensFromString) := by
  induction sections generalizing b with
  | nil => exact ⟨hb, (List.append_nil _).symm⟩
  | cons s sections ih =>
      obtain ⟨hindexed, hmedia⟩ := ih _ (addSection_indexed ch numTokensFromString pattern hb s)
      refine ⟨hindexed, hmedia.trans ?_⟩
      by_cases hs : s.isMedia = true
      · rw [(addSection_media ch numTokensFromString pattern b hs).1, media_append,
          media_singleton (mediaCk_ckType ch numTokensFromString s), List.filter_cons_of_pos hs,
          List.map_cons, List.append_assoc, List.singleton_append]
      · rw [List.filter_cons_of_neg hs,
          (addSection_pure ch numTokensFromString pattern b (Bool.not_eq_true _ ▸ hs)).media]

theorem indexed_start : Indexed (⟨[], [], [], []⟩ : Built χ Img) := ⟨marks_nil _, marks_nil _⟩

theorem buildCks_spec (sections : List (Section χ Img)) (delimiter : Str) :
    Indexed (buildCks ch numTokensFromString sections delimiter) ∧
      media (buildCks ch numTokensFromString sections delimiter).cks =
        (sections.filter Section.isMedia).map (mediaCk ch numTokensFromString) := by
  obtain ⟨hindexed, hmedia⟩ := foldl_addSection ch numTokensFromString (docxPattern delimiter)
    sections _ indexed_start
  unfold buildCks
  dsimp only
  split_ifs
  · have hflush := flush_addsText ch numTokensFromString (sections.foldl
      (addSection ch numTokensFromString (docxPattern delimiter)) ⟨[], [], [], []⟩)
    exact ⟨hflush.indexed hindexed, hflush.media.trans hmedia⟩
  · exact ⟨hindexed, hmedia⟩

/-- The stripped texts of the sections of pure text that are not blank. -/
def pureTexts (sections : List (Section χ Img)) : List (List χ) :=
  ((sections.filter fun s => !s.isMedia).map fun s => stripped ch s.text).filter (· ≠ [])

theorem texts_textCks (t : List χ) : texts (textCks ch numTokensFromString t : List (Ck χ Img)) =
    textCks ch numTokensFromString t := by
  refine List.filter_eq_self.mpr fun c hc => ?_
  simp [Ck.isMedia, textCks_text ch numTokensFromString t c hc]

/-- Without custom delimiters. -/
theorem foldl_addSection_plain (sections : List (Section χ Img)) (b : Built χ Img) :
    texts (sections.foldl (addSection ch numTokensFromString none) b).cks =
      texts b.cks ++ (pureTexts ch sections).map (textCk ch numTokensFromString) := by
  induction sections generalizing b with
  | nil => exact (List.append_nil _).symm
  | cons s sections ih =>
      refine (ih _).trans ?_
      unfold pureTexts
      by_cases hs : s.isMedia = true
      · rw [(addSection_media ch numTokensFromString none b hs).1, texts_append,
          texts_eq_nil (l := [_]) (by simpa using mediaCk_ckType ch numTokensFromString s),
          List.append_nil, List.filter_cons_of_neg (by simp [hs])]
      · rw [addSection_text ch numTokensFromString none b (Bool.not_eq_true _ ▸ hs)]
        dsimp only
        rw [texts_append, texts_textCks, List.filter_cons_of_pos (by simp [hs]),
          List.map_cons, List.append_assoc]
        unfold textCks
        by_cases hblank : stripped ch s.text ≠ []
        · rw [if_pos hblank, List.filter_cons_of_pos (by simpa using hblank), List.map_cons,
            List.singleton_append]
        · rw [if_neg hblank, List.filter_cons_of_neg (by simpa using hblank), List.nil_append]

end build

/-! ### The structure of the output -/

section output

variable {Img : Type} (numTokensFromString : Str → ℕ)

theorem stripped_normalize (s : Section Char Img) :
    stripped id (normalize s).text = stripped id s.text := by
  unfold normalize
  by_cases htext : s.text = []
  · rw [if_pos htext, htext]
  · rw [if_neg htext]
    rfl

theorem pureTexts_normalize (sections : List (Section Char Img)) :
    pureTexts id (sections.map normalize) = pureTexts id sections := by
  have hmap : (fun s : Section Char Img => stripped id s.text) ∘ normalize =
      fun s => stripped id s.text := funext stripped_normalize
  have hpure : (fun s : Section Char Img => !s.isMedia) ∘ normalize = fun s => !s.isMedia := rfl
  unfold pureTexts
  rw [List.filter_map (f := normalize), List.map_map, hmap, hpure]

/-- The chunks that `_merge_cks` gets. -/
theorem mergeSections_eq {χ : Type} (ch : χ → Char) {sections : List (Section χ Img)}
    (hsections : sections ≠ []) (n : ℤ) (delimiter : Str) (tableContextSize imageContextSize : ℤ) :
    ∃ cks, mergeSections ch numTokensFromString sections n delimiter tableContextSize
        imageContextSize = mergeCks cks n (docxPattern delimiter).isSome ∧
      List.Forall₂ Attached (buildCks ch numTokensFromString sections delimiter).cks cks ∧
      (tableContextSize ≤ 0 → imageContextSize ≤ 0 →
        cks = (buildCks ch numTokensFromString sections delimiter).cks) := by
  unfold mergeSections
  rw [if_neg (by simpa using hsections)]
  refine ⟨_, rfl, ?_, fun htable himage => ?_⟩
  · exact addContexts_attached ch numTokensFromString _ _ _ _
      (addContexts_attached ch numTokensFromString _ _ _ _ (attached_refl _))
  · unfold addContexts
    rw [if_neg (not_lt.mpr htable), if_neg (not_lt.mpr himage)]

theorem text_groupCk (gs : List (List (List Char))) :
    ((gs.map fun g => (groupCk id numTokensFromString g : Ck Char Img)).map Ck.text).flatten =
      gs.flatten.flatten := by
  rw [List.map_map, List.flatten_flatten]
  rfl

/-- **Structure.**  Tables and images are as they were, apart from their contexts, the texts are put
together in order until a chunk is full, and the indices are those of the images. -/
theorem naiveMergeDocx_structure (sections : List (Section Char Img)) (chunkTokenNum : ℤ)
    (delimiter : Str) (hplain : customDelimiters delimiter = [])
    (tableContextSize imageContextSize : ℤ) (out : List (Ck Char Img) × List ℕ)
    (hout : out = naiveMergeDocx numTokensFromString sections chunkTokenNum delimiter
      tableContextSize imageContextSize) :
    (media out.1).map Ck.bare =
        ((sections.filter Section.isMedia).map normalize).map (mediaCk id numTokensFromString) ∧
      (tableContextSize ≤ 0 → imageContextSize ≤ 0 → (media out.1).map Ck.bare = media out.1) ∧
      ((texts out.1).map Ck.text).flatten = (pureTexts id sections).flatten ∧
      GroupedPieces id numTokensFromString chunkTokenNum (pureTexts id sections) (texts out.1) ∧
      Marks .image out.1 out.2 := by
  by_cases hsections : sections.map normalize = []
  · have hnil : out = ([], []) := by
      rw [hout, naiveMergeDocx, mergeSections, hsections]
      rfl
    rw [hnil, List.map_eq_nil_iff.mp hsections]
    exact ⟨rfl, fun _ _ => rfl, rfl,
      ⟨⟨[], rfl, rfl⟩, fun _ h => (List.not_mem_nil h).elim⟩, marks_nil _⟩
  have hpattern : docxPattern delimiter = none := if_neg (not_not.mpr hplain)
  obtain ⟨cks, hmerge, hattached, hzero⟩ := mergeSections_eq numTokensFromString id hsections
    chunkTokenNum delimiter tableContextSize imageContextSize
  rw [← naiveMergeDocx, ← hout, hpattern] at hmerge
  obtain ⟨-, hmedia⟩ := buildCks_spec id numTokensFromString (sections.map normalize) delimiter
  have hfilter : (sections.map normalize).filter Section.isMedia =
      (sections.filter Section.isMedia).map normalize := List.filter_map
  rw [hfilter] at hmedia
  have hbare : ∀ l : List (Section Char Img),
      (l.map (mediaCk id numTokensFromString)).map Ck.bare =
        l.map (mediaCk id numTokensFromString) := by
    intro l
    rw [List.map_map]
    refine List.map_congr_left fun s _ => ?_
    show (mediaCk id numTokensFromString s).bare = _
    unfold mediaCk
    split_ifs
    all_goals rfl
  have htexts : texts cks = (pureTexts id sections).map (textCk id numTokensFromString) := by
    rw [Attached.texts hattached]
    unfold buildCks
    rw [hpattern]
    refine (foldl_addSection_plain id numTokensFromString _ _).trans ?_
    rw [pureTexts_normalize]
    rfl
  obtain ⟨hkept, hmarks⟩ := mergeCks_media cks chunkTokenNum false
  rw [hmerge]
  refine ⟨?_, fun htable himage => ?_, ?_, ?_, hmarks⟩
  · show (media (mergeCks cks chunkTokenNum false).1).map Ck.bare = _
    rw [hkept, Attached.media hattached, hmedia, hbare]
  · show (media (mergeCks cks chunkTokenNum false).1).map Ck.bare =
      media (mergeCks cks chunkTokenNum false).1
    rw [hkept, hzero htable himage, hmedia, hbare]
  all_goals
    have hgrouped := mergeCks_texts chunkTokenNum cks _ merging_start (pureTexts id sections) []
      htexts ⟨⟨[], rfl, rfl⟩, fun _ h => (List.not_mem_nil h).elim⟩
  · obtain ⟨gs, hgs, hts⟩ := hgrouped.groups
    rw [List.nil_append] at hgs
    show ((texts (mergeCks cks chunkTokenNum false).1).map Ck.text).flatten = _
    rw [mergeCks, hts, text_groupCk, hgs]
  · exact hgrouped

end output

/-! Three letters with a table and an image between them.  The second letter goes to the first,
before the table. -/

def lettersWithMedia : List (Section Char ℕ) :=
  [⟨['a'], none, []⟩, ⟨[], none, ['t']⟩, ⟨['b'], none, []⟩, ⟨[], some 1, []⟩, ⟨['c'], none, []⟩]

theorem naiveMergeDocx_structure_letters :
    (naiveMergeDocx List.length lettersWithMedia 2 "\n" 0 0).1.map Ck.text =
        [['a', 'b'], ['t'], [], ['c']] ∧
      (naiveMergeDocx List.length lettersWithMedia 2 "\n" 0 0).2 = [2] ∧
      Marks .image (naiveMergeDocx List.length lettersWithMedia 2 "\n" 0 0).1
        (naiveMergeDocx List.length lettersWithMedia 2 "\n" 0 0).2 :=
  ⟨by decide +kernel, by decide +kernel,
    (naiveMergeDocx_structure List.length lettersWithMedia 2 "\n" (by decide) 0 0 _
      rfl).2.2.2.2⟩

end RagFlow.Nlp.Docx
