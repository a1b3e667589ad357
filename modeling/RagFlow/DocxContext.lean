import Mathlib.Data.List.TakeWhile
import RagFlow.Docx

/-! # The context of DOCX tables and images

Where the text around a table or an image comes from.

* **Marks.** Each character is marked with the index of its section.  The run on marked characters
  is the run of `naive_merge_docx` with marks (`markedRun_erase`).
* **Above.** Every chunk before a table or image is made of text from the sections before it.
* **Below.** With custom delimiters text is held back in a buffer until a delimiter comes, while
  tables and images get their chunks at once.  The text in the buffer then comes after them.

`contexts_iff`: the contexts are right exactly when the buffer is empty at each table and image. -/

namespace RagFlow.Nlp.Docx

open Py

/-! ### Forgetting marks -/

section erase

variable {χ ξ Img : Type}

def Section.map (f : χ → ξ) (s : Section χ Img) : Section ξ Img :=
  ⟨s.text.map f, s.image, s.table.map f⟩

def Ck.map (f : χ → ξ) (c : Ck χ Img) : Ck ξ Img where
  text := c.text.map f
  image := c.image
  ckType := c.ckType
  tkNums := c.tkNums
  context := c.context.map fun p => (p.1.map f, p.2.map f)

def Built.map (f : χ → ξ) (b : Built χ Img) : Built ξ Img :=
  ⟨b.cks.map (Ck.map f), b.tables, b.images, b.seg.map f⟩

def Merged.map (f : χ → ξ) (m : Merged χ Img) : Merged ξ Img :=
  ⟨m.merged.map (Ck.map f), m.imageIdxs, m.prevTextCk⟩

theorem partsLike_map (f : χ → ξ) (ps : List Str) (s : List χ) :
    partsLike ps (s.map f) = (partsLike ps s).map (List.map f) := by
  induction ps generalizing s with
  | nil => rfl
  | cons p ps ih =>
      rw [partsLike, partsLike, List.map_cons, List.map_take, ← List.map_drop, ih]

variable {ch : χ → Char} {ch' : ξ → Char} {f : χ → ξ} (hf : ∀ x, ch' (f x) = ch x)
include hf

theorem map_map_ch (s : List χ) : (s.map f).map ch' = s.map ch := by
  rw [List.map_map]
  exact List.map_congr_left fun x _ => hf x

theorem stripped_map (s : List χ) : stripped ch' (s.map f) = (stripped ch s).map f := by
  have hspace : (fun x => isSpace (ch' x)) ∘ f = fun x => isSpace (ch x) := by
    funext x
    exact congrArg isSpace (hf x)
  unfold stripped
  rw [List.dropWhile_map, hspace, ← List.map_reverse, List.dropWhile_map, hspace, List.map_reverse]

theorem stripped_map_eq_nil (s : List χ) : stripped ch' (s.map f) = [] ↔ stripped ch s = [] := by
  rw [stripped_map hf, List.map_eq_nil_iff]

theorem split_map (pattern : List Str) (s : List χ) :
    split ch' pattern (s.map f) = (split ch pattern s).map (List.map f) := by
  unfold split
  rw [map_map_ch hf, partsLike_map]

variable (numTokensFromString : Str → ℕ)

theorem textCks_map (t : List χ) :
    (textCks ch' numTokensFromString (t.map f) : List (Ck ξ Img)) =
      (textCks ch numTokensFromString t).map (Ck.map f) := by
  unfold textCks
  by_cases ht : stripped ch t ≠ []
  · rw [if_pos ht, if_pos (by rwa [Ne, stripped_map_eq_nil hf]), stripped_map hf]
    unfold textCk
    rw [map_map_ch hf]
    rfl
  · rw [if_neg ht, if_neg (by rwa [Ne, stripped_map_eq_nil hf])]
    rfl

theorem flush_map (b : Built χ Img) : flush ch' numTokensFromString (b.map f) =
    (flush ch numTokensFromString b).map f := by
  unfold flush Built.map
  dsimp only
  rw [textCks_map hf, List.map_append]
  rfl

theorem addPart_map (pattern : List Str) (b : Built χ Img) (t : List χ) :
    addPart ch' numTokensFromString pattern (b.map f) (t.map f) =
      (addPart ch numTokensFromString pattern b t).map f := by
  unfold addPart
  rw [flush_map hf]
  by_cases hblank : stripped ch t = []
  · rw [if_pos hblank, if_pos ((stripped_map_eq_nil hf t).mpr hblank)]
  · rw [if_neg hblank, if_neg ((stripped_map_eq_nil hf t).not.mpr hblank), stripped_map hf,
      map_map_ch hf]
    split_ifs
    · rfl
    · unfold Built.map
      rw [List.map_append]

theorem foldl_addPart_map (pattern : List Str) (parts : List (List χ)) (b : Built χ Img) :
    (parts.map (List.map f)).foldl (addPart ch' numTokensFromString pattern) (b.map f) =
      (parts.foldl (addPart ch numTokensFromString pattern) b).map f := by
  induction parts generalizing b with
  | nil => rfl
  | cons t parts ih =>
      rw [List.map_cons, List.foldl_cons, addPart_map hf, ih]
      rfl

theorem mediaCk_map (s : Section χ Img) : mediaCk ch' numTokensFromString (s.map f) =
    (mediaCk ch numTokensFromString s).map f := by
  unfold mediaCk Section.map Ck.map
  dsimp only
  by_cases htable : s.table ≠ []
  · rw [if_pos htable, if_pos (by rwa [Ne, List.map_eq_nil_iff])]
    rw [← List.map_append, map_map_ch hf]
    rfl
  · rw [if_neg htable, if_neg (by rwa [Ne, List.map_eq_nil_iff]), map_map_ch hf]
    rfl

theorem addSection_map (pattern : Option (List Str)) (b : Built χ Img) (s : Section χ Img) :
    addSection ch' numTokensFromString pattern (b.map f) (s.map f) =
      (addSection ch numTokensFromString pattern b s).map f := by
  have hcks : ∀ c : Ck χ Img,
      (b.map f).cks ++ [c.map f] = (b.cks ++ [c]).map (Ck.map f) := fun c => by
    rw [List.map_append]
    rfl
  have hlen : (b.map f).cks.length = b.cks.length := List.length_map _
  unfold addSection
  rw [mediaCk_map hf, hcks, hlen]
  by_cases htable : s.table ≠ []
  · rw [if_pos htable, if_pos (by
      show s.table.map f ≠ []
      rwa [Ne, List.map_eq_nil_iff])]
    rfl
  · rw [if_neg htable, if_neg (by
      show ¬s.table.map f ≠ []
      rwa [Ne, List.map_eq_nil_iff])]
    by_cases himage : s.image.isSome = true
    · rw [if_pos himage, if_pos (show (s.map f).image.isSome = true from himage)]
      rfl
    · rw [if_neg himage, if_neg (show ¬(s.map f).image.isSome = true from himage)]
      cases pattern with
      | some pattern =>
          show (split ch' pattern (s.text.map f)).foldl _ _ = _
          rw [split_map hf, foldl_addPart_map hf]
      | none =>
          show (⟨(b.map f).cks ++ textCks ch' numTokensFromString (s.text.map f), b.tables,
            b.images, b.seg.map f⟩ : Built ξ Img) = _
          rw [textCks_map hf]
          unfold Built.map
          rw [List.map_append]

theorem buildCks_map (sections : List (Section χ Img)) (delimiter : Str) :
    buildCks ch' numTokensFromString (sections.map (Section.map f)) delimiter =
      (buildCks ch numTokensFromString sections delimiter).map f := by
  have hloop : ∀ b : Built χ Img, (sections.map (Section.map f)).foldl
      (addSection ch' numTokensFromString (docxPattern delimiter)) (b.map f) =
        (sections.foldl (addSection ch numTokensFromString (docxPattern delimiter)) b).map f := by
    induction sections with
    | nil => exact fun b => rfl
    | cons s sections ih =>
        intro b
        rw [List.map_cons, List.foldl_cons, addSection_map hf, ih]
        rfl
  have hstart : (⟨[], [], [], []⟩ : Built ξ Img) = (⟨[], [], [], []⟩ : Built χ Img).map f := rfl
  unfold buildCks
  dsimp only
  rw [hstart, hloop]
  split_ifs
  · exact flush_map hf numTokensFromString _
  · rfl

omit hf in
theorem sentences_map (f : χ → ξ) (txts : List (List χ)) :
    sentences (txts.map (List.map f)) = (sentences txts).map (List.map f) := by
  induction txts using sentences.induct with
  | case1 => rfl
  | case2 t => rfl
  | case3 t d txts ih =>
      rw [List.map_cons, List.map_cons, sentences, sentences, ih, List.map_cons, List.map_append]

theorem takeFromEnd_map (needTokens : ℤ) (sents : List (List χ)) (acc : List χ) :
    takeFromEnd ch' numTokensFromString needTokens (acc.map f) (sents.map (List.map f)) =
      (takeFromEnd ch numTokensFromString needTokens acc sents).map f := by
  induction sents generalizing acc with
  | nil => rfl
  | cons s sents ih =>
      rw [List.map_cons, takeFromEnd, takeFromEnd, ← List.map_append, map_map_ch hf, ih]
      split_ifs
      all_goals rfl

theorem takeFromStart_map (needTokens : ℤ) (sents : List (List χ)) (acc : List χ) :
    takeFromStart ch' numTokensFromString needTokens (acc.map f) (sents.map (List.map f)) =
      (takeFromStart ch numTokensFromString needTokens acc sents).map f := by
  induction sents generalizing acc with
  | nil => rfl
  | cons s sents ih =>
      rw [List.map_cons, takeFromStart, takeFromStart, ← List.map_append, map_map_ch hf, ih]
      split_ifs
      all_goals rfl

theorem takeSentencesFromEnd_map (cnt : List χ) (needTokens : ℤ) :
    takeSentencesFromEnd ch' numTokensFromString (cnt.map f) needTokens =
      (takeSentencesFromEnd ch numTokensFromString cnt needTokens).map f := by
  unfold takeSentencesFromEnd
  rw [split_map hf, sentences_map, ← List.map_reverse]
  exact takeFromEnd_map hf numTokensFromString needTokens _ []

theorem takeSentencesFromStart_map (cnt : List χ) (needTokens : ℤ) :
    takeSentencesFromStart ch' numTokensFromString (cnt.map f) needTokens =
      (takeSentencesFromStart ch numTokensFromString cnt needTokens).map f := by
  unfold takeSentencesFromStart
  rw [split_map hf, sentences_map]
  exact takeFromStart_map hf numTokensFromString needTokens _ []

theorem partsAbove_map (remain : ℤ) (l : List (Ck χ Img)) :
    partsAbove ch' numTokensFromString remain (l.map (Ck.map f)) =
      (partsAbove ch numTokensFromString remain l).map (List.map f) := by
  induction l generalizing remain with
  | nil => rfl
  | cons c l ih =>
      rw [List.map_cons, partsAbove, partsAbove, ih, ih]
      show (if remain ≤ 0 then [] else if c.ckType = .text then if remain ≤ c.tkNums then
        [takeSentencesFromEnd ch' numTokensFromString (c.text.map f) remain] else _ else _) = _
      rw [takeSentencesFromEnd_map hf]
      split_ifs
      · rfl
      · rfl
      · rw [List.map_append]
        rfl
      · rfl

theorem partsBelow_map (remain : ℤ) (l : List (Ck χ Img)) :
    partsBelow ch' numTokensFromString remain (l.map (Ck.map f)) =
      (partsBelow ch numTokensFromString remain l).map (List.map f) := by
  induction l generalizing remain with
  | nil => rfl
  | cons c l ih =>
      rw [List.map_cons, partsBelow, partsBelow, ih, ih]
      show (if remain ≤ 0 then [] else if c.ckType = .text then if remain ≤ c.tkNums then
        [takeSentencesFromStart ch' numTokensFromString (c.text.map f) remain] else _ else _) = _
      rw [takeSentencesFromStart_map hf]
      split_ifs
      all_goals rfl

theorem addContext_map (size : ℤ) (cks : List (Ck χ Img)) (idx : ℕ) :
    addContext ch' numTokensFromString size (cks.map (Ck.map f)) idx =
      (addContext ch numTokensFromString size cks idx).map (Ck.map f) := by
  unfold addContext
  rw [List.getElem?_map]
  cases cks[idx]? with
  | none => rfl
  | some c =>
      show (if c.ckType = .text then _ else _) = _
      dsimp only
      by_cases hc : c.ckType = .text
      · rw [if_pos hc, if_pos hc]
      · rw [if_neg hc, if_neg hc, List.map_set]
        unfold contextOf
        rw [← List.map_take, ← List.map_drop, ← List.map_reverse, partsAbove_map hf,
          partsBelow_map hf, ← List.map_flatten, ← List.map_flatten]
        rfl

theorem addContexts_map (size : ℤ) (is : List ℕ) (cks : List (Ck χ Img)) :
    addContexts ch' numTokensFromString size is (cks.map (Ck.map f)) =
      (addContexts ch numTokensFromString size is cks).map (Ck.map f) := by
  unfold addContexts
  split_ifs
  · induction is generalizing cks with
    | nil => rfl
    | cons i is ih =>
        rw [List.foldl_cons, addContext_map hf, ih]
        rfl
  · rfl

omit hf in
theorem modify_map {α β : Type} (f : α → β) {g : α → α} {h : β → β} (hgh : ∀ a, h (f a) = f (g a))
    (l : List α) (i : ℕ) : (l.map f).modify i h = (l.modify i g).map f := by
  induction l generalizing i with
  | nil => simp
  | cons a l ih =>
      cases i with
      | zero =>
          rw [List.map_cons, List.modify_zero_cons, List.modify_zero_cons, List.map_cons, hgh]
      | succ i =>
          rw [List.map_cons, List.modify_succ_cons, List.modify_succ_cons, List.map_cons, ih]

omit hf in
theorem mergeCk_map (f : χ → ξ) (n : ℤ) (hasCustom : Bool) (m : Merged χ Img) (c : Ck χ Img) :
    mergeCk n hasCustom (m.map f) (c.map f) = (mergeCk n hasCustom m c).map f := by
  have hstarts : startsChunk n hasCustom (m.map f) = startsChunk n hasCustom m := by
    unfold startsChunk Merged.map
    cases m.prevTextCk with
    | none => rfl
    | some p =>
        dsimp only
        rw [List.getElem?_map, Option.any_map]
        rfl
  unfold mergeCk
  rw [hstarts]
  show (if c.ckType ≠ .text then _ else _) = _
  by_cases htext : c.ckType ≠ .text
  · rw [if_pos htext, if_pos htext]
    unfold Merged.map
    dsimp only
    rw [List.map_append, List.length_map]
    rfl
  · rw [if_neg htext, if_neg htext]
    by_cases hstart : startsChunk n hasCustom m = true
    · rw [if_pos hstart, if_pos hstart]
      unfold Merged.map
      dsimp only
      rw [List.map_append, List.length_map]
      rfl
    · rw [if_neg hstart, if_neg hstart]
      have hjoin : ∀ d : Ck χ Img, (d.map f).join (c.map f) = (d.join c).map f := by
        intro d
        unfold Ck.join Ck.map
        rw [List.map_append]
      exact congrArg (fun l => (⟨l, m.imageIdxs, m.prevTextCk⟩ : Merged ξ Img))
        (modify_map (Ck.map f) hjoin m.merged (m.prevTextCk.getD 0))

/-- **Naturality.**  What the characters are does not matter, as long as they are read alike. -/
theorem mergeSections_map (sections : List (Section χ Img)) (n : ℤ) (delimiter : Str)
    (tableContextSize imageContextSize : ℤ) :
    mergeSections ch' numTokensFromString (sections.map (Section.map f)) n delimiter
        tableContextSize imageContextSize =
      Prod.map (List.map (Ck.map f)) id (mergeSections ch numTokensFromString sections n delimiter
        tableContextSize imageContextSize) := by
  have hloop : ∀ (cks : List (Ck χ Img)) hasCustom (m : Merged χ Img),
      (cks.map (Ck.map f)).foldl (mergeCk n hasCustom) (m.map f) =
        (cks.foldl (mergeCk n hasCustom) m).map f := by
    intro cks hasCustom
    induction cks with
    | nil => exact fun m => rfl
    | cons c cks ih =>
        intro m
        rw [List.map_cons, List.foldl_cons, mergeCk_map, ih]
        rfl
  have hstart : (⟨[], [], none⟩ : Merged ξ Img) = (⟨[], [], none⟩ : Merged χ Img).map f := rfl
  unfold mergeSections
  rw [List.isEmpty_map]
  split_ifs
  · rfl
  · dsimp only
    rw [buildCks_map hf]
    unfold Built.map
    dsimp only
    rw [addContexts_map hf, addContexts_map hf]
    unfold mergeCks
    rw [hstart, hloop]
    rfl

end erase

/-! ### The text of a context -/

section picked

variable {χ Img : Type}

theorem mem_of_mem_partsLike {ps : List Str} {s t : List χ} {x : χ} (ht : t ∈ partsLike ps s)
    (hx : x ∈ t) : x ∈ s := by
  induction ps generalizing s with
  | nil => cases ht
  | cons p ps ih =>
      rcases List.mem_cons.mp ht with rfl | ht
      · exact List.mem_of_mem_take hx
      · exact List.mem_of_mem_drop (ih ht)

theorem mem_of_mem_sentences {txts : List (List χ)} {t : List χ} {x : χ}
    (ht : t ∈ sentences txts) (hx : x ∈ t) : ∃ u ∈ txts, x ∈ u := by
  induction txts using sentences.induct with
  | case1 => cases ht
  | case2 u => exact ⟨t, ht, hx⟩
  | case3 u d txts ih =>
      rcases List.mem_cons.mp ht with rfl | ht
      · rcases List.mem_append.mp hx with hx | hx
        · exact ⟨u, List.mem_cons_self, hx⟩
        · exact ⟨d, List.mem_cons_of_mem _ List.mem_cons_self, hx⟩
      · obtain ⟨v, hv, hxv⟩ := ih ht
        exact ⟨v, List.mem_cons_of_mem _ (List.mem_cons_of_mem _ hv), hxv⟩

variable (ch : χ → Char) (numTokensFromString : Str → ℕ)

theorem mem_of_mem_takeFromEnd {needTokens : ℤ} {sents : List (List χ)} {acc : List χ} {x : χ}
    (hx : x ∈ takeFromEnd ch numTokensFromString needTokens acc sents) :
    x ∈ acc ∨ ∃ s ∈ sents, x ∈ s := by
  induction sents generalizing acc with
  | nil => exact Or.inl hx
  | cons s sents ih =>
      have hcases : x ∈ s ++ acc ∨ ∃ s ∈ sents, x ∈ s := by
        rw [takeFromEnd] at hx
        split_ifs at hx
        · exact Or.inl hx
        · exact ih hx
      rcases hcases with hx | ⟨u, hu, hx⟩
      · rcases List.mem_append.mp hx with hx | hx
        · exact Or.inr ⟨s, List.mem_cons_self, hx⟩
        · exact Or.inl hx
      · exact Or.inr ⟨u, List.mem_cons_of_mem _ hu, hx⟩

theorem mem_of_mem_takeFromStart {needTokens : ℤ} {sents : List (List χ)} {acc : List χ} {x : χ}
    (hx : x ∈ takeFromStart ch numTokensFromString needTokens acc sents) :
    x ∈ acc ∨ ∃ s ∈ sents, x ∈ s := by
  induction sents generalizing acc with
  | nil => exact Or.inl hx
  | cons s sents ih =>
      have hcases : x ∈ acc ++ s ∨ ∃ s ∈ sents, x ∈ s := by
        rw [takeFromStart] at hx
        split_ifs at hx
        · exact Or.inl hx
        · exact ih hx
      rcases hcases with hx | ⟨u, hu, hx⟩
      · rcases List.mem_append.mp hx with hx | hx
        · exact Or.inl hx
        · exact Or.inr ⟨s, List.mem_cons_self, hx⟩
      · exact Or.inr ⟨u, List.mem_cons_of_mem _ hu, hx⟩

/-- What is taken of a text is from the text. -/
theorem mem_of_mem_sentences_split {cnt : List χ} {x : χ}
    (h : ∃ s ∈ sentences (split ch splitPat cnt), x ∈ s) : x ∈ cnt := by
  obtain ⟨s, hs, hx⟩ := h
  obtain ⟨u, hu, hxu⟩ := mem_of_mem_sentences hs hx
  exact mem_of_mem_partsLike hu hxu

theorem mem_of_mem_takeSentencesFromEnd {cnt : List χ} {needTokens : ℤ} {x : χ}
    (hx : x ∈ takeSentencesFromEnd ch numTokensFromString cnt needTokens) : x ∈ cnt := by
  rcases mem_of_mem_takeFromEnd ch numTokensFromString hx with hx | ⟨s, hs, hx⟩
  · cases hx
  · exact mem_of_mem_sentences_split ch ⟨s, List.mem_reverse.mp hs, hx⟩

theorem mem_of_mem_takeSentencesFromStart {cnt : List χ} {needTokens : ℤ} {x : χ}
    (hx : x ∈ takeSentencesFromStart ch numTokensFromString cnt needTokens) : x ∈ cnt := by
  rcases mem_of_mem_takeFromStart ch numTokensFromString hx with hx | h
  · cases hx
  · exact mem_of_mem_sentences_split ch h

/-- The text above is from chunks of text before. -/
theorem mem_of_mem_partsAbove {remain : ℤ} {l : List (Ck χ Img)} {x : χ}
    (hx : x ∈ (partsAbove ch numTokensFromString remain l).flatten) :
    ∃ c ∈ l, c.ckType = .text ∧ x ∈ c.text := by
  induction l generalizing remain with
  | nil => cases hx
  | cons c l ih =>
      have hlater : (∃ d ∈ l, d.ckType = .text ∧ x ∈ d.text) →
          ∃ d ∈ c :: l, d.ckType = .text ∧ x ∈ d.text :=
        fun ⟨d, hd, hdx⟩ => ⟨d, List.mem_cons_of_mem _ hd, hdx⟩
      rw [partsAbove] at hx
      split_ifs at hx with hremain htext hlast
      · cases hx
      · rw [List.flatten_singleton] at hx
        exact ⟨c, List.mem_cons_self, htext,
          mem_of_mem_takeSentencesFromEnd ch numTokensFromString hx⟩
      · rw [List.flatten_append, List.flatten_singleton] at hx
        rcases List.mem_append.mp hx with hx | hx
        · exact hlater (ih hx)
        · exact ⟨c, List.mem_cons_self, htext, hx⟩
      · exact hlater (ih hx)

/-- The text below is from chunks of text after. -/
theorem mem_of_mem_partsBelow {remain : ℤ} {l : List (Ck χ Img)} {x : χ}
    (hx : x ∈ (partsBelow ch numTokensFromString remain l).flatten) :
    ∃ c ∈ l, c.ckType = .text ∧ x ∈ c.text := by
  induction l generalizing remain with
  | nil => cases hx
  | cons c l ih =>
      have hlater : (∃ d ∈ l, d.ckType = .text ∧ x ∈ d.text) →
          ∃ d ∈ c :: l, d.ckType = .text ∧ x ∈ d.text :=
        fun ⟨d, hd, hdx⟩ => ⟨d, List.mem_cons_of_mem _ hd, hdx⟩
      rw [partsBelow] at hx
      split_ifs at hx with hremain htext hlast
      · cases hx
      · rw [List.flatten_singleton] at hx
        exact ⟨c, List.mem_cons_self, htext,
          mem_of_mem_takeSentencesFromStart ch numTokensFromString hx⟩
      · rw [List.flatten_cons] at hx
        rcases List.mem_append.mp hx with hx | hx
        · exact ⟨c, List.mem_cons_self, htext, hx⟩
        · exact hlater (ih hx)
      · exact hlater (ih hx)

/-! The text below starts with the start of the first chunk of text. -/

theorem splitPat_ne_nil : ∀ d ∈ splitPat, d ≠ [] := by
  intro d hd hnil
  subst hnil
  exact absurd hd (by decide)

/-- The first sentence is not empty. -/
theorem sentences_split_cons (y : χ) (r : List χ) :
    ∃ t sents, sentences (split ch splitPat (y :: r)) = (y :: t) :: sents := by
  have hcases : (∃ s : Str, reSplit splitPat ((y :: r).map ch) = [s] ∧ s ≠ []) ∨
      ∃ before d rest, reSplit splitPat ((y :: r).map ch) = before :: d :: rest ∧ d ≠ [] := by
    have hne : (y :: r).map ch ≠ [] := by
      rw [List.map_cons]
      exact List.cons_ne_nil _ _
    revert hne
    induction (y :: r).map ch using reSplit_induction splitPat_ne_nil with
    | rest s hstart => exact fun hne => Or.inl ⟨s, rfl, hne⟩
    | next before d after hd hfind hstart ih =>
        exact fun _ => Or.inr ⟨before, d, _, rfl, splitPat_ne_nil d hd⟩
  unfold split
  rcases hcases with ⟨s, hs, hne⟩ | ⟨before, d, rest, hs, hne⟩
  · rw [hs]
    obtain ⟨c, s, rfl⟩ := List.exists_cons_of_ne_nil hne
    exact ⟨r.take s.length, [], rfl⟩
  · rw [hs]
    obtain ⟨c, d, rfl⟩ := List.exists_cons_of_ne_nil hne
    have htake : (y :: r).take before.length ++
        ((y :: r).drop before.length).take (c :: d).length =
          y :: r.take (before.length + d.length) := by
      rw [← List.take_add, List.length_cons, ← Nat.add_assoc, List.take_succ_cons]
    rw [partsLike, partsLike, sentences, htake]
    exact ⟨_, _, rfl⟩

theorem prefix_takeFromStart (needTokens : ℤ) (sents : List (List χ)) (acc : List χ) :
    acc <+: takeFromStart ch numTokensFromString needTokens acc sents := by
  induction sents generalizing acc with
  | nil => exact List.prefix_rfl
  | cons s sents ih =>
      rw [takeFromStart]
      split_ifs
      · exact List.prefix_append _ _
      · exact (List.prefix_append _ _).trans (ih _)

theorem mem_takeSentencesFromStart (y : χ) (r : List χ) (needTokens : ℤ) :
    y ∈ takeSentencesFromStart ch numTokensFromString (y :: r) needTokens := by
  obtain ⟨t, sents, hsplit⟩ := sentences_split_cons ch y r
  unfold takeSentencesFromStart
  rw [hsplit, takeFromStart, List.nil_append]
  split_ifs
  · exact List.mem_cons_self
  · exact (prefix_takeFromStart ch numTokensFromString _ _ _).subset List.mem_cons_self

theorem mem_partsBelow {remain : ℤ} (hremain : 0 < remain) {before : List (Ck χ Img)}
    {c : Ck χ Img} (hbefore : ∀ d ∈ before, d.ckType ≠ .text) (hc : c.ckType = .text) {y : χ}
    {r : List χ} (hy : c.text = y :: r) (after : List (Ck χ Img)) :
    y ∈ (partsBelow ch numTokensFromString remain (before ++ c :: after)).flatten := by
  induction before with
  | nil =>
      rw [List.nil_append, partsBelow, if_neg (not_le.mpr hremain), if_pos hc, hy]
      split_ifs
      · rw [List.flatten_singleton]
        exact mem_takeSentencesFromStart ch numTokensFromString y r remain
      · rw [List.flatten_cons]
        exact List.mem_append_left _ List.mem_cons_self
  | cons d before ih =>
      rw [List.cons_append, partsBelow, if_neg (not_le.mpr hremain),
        if_neg (hbefore d List.mem_cons_self)]
      exact ih fun e he => hbefore e (List.mem_cons_of_mem _ he)

end picked

/-! ### The buffer -/

section buffer

variable {χ Img : Type} (ch : χ → Char) (numTokensFromString : Str → ℕ)

theorem mem_of_mem_stripped {t : List χ} {x : χ} (hx : x ∈ stripped ch t) : x ∈ t := by
  unfold stripped at hx
  rw [List.mem_reverse] at hx
  have hx := (List.dropWhile_suffix _).subset hx
  rw [List.mem_reverse] at hx
  exact (List.dropWhile_suffix _).subset hx

/-- All text added since `base`, and all text in the buffer, consists of certain characters. -/
structure From (P : χ → Prop) (base : List (Ck χ Img)) (b : Built χ Img) : Prop where
  cks : ∃ new, b.cks = base ++ new ∧ ∀ c ∈ new, c.ckType = .text → ∀ x ∈ c.text, P x
  seg : ∀ x ∈ b.seg, P x

variable {ch numTokensFromString} {P : χ → Prop} {base : List (Ck χ Img)}

theorem textCks_text_mem {t : List χ} {c : Ck χ Img}
    (hc : c ∈ textCks ch numTokensFromString t) {x : χ} (hx : x ∈ c.text) : x ∈ t := by
  unfold textCks at hc
  split_ifs at hc
  · rw [List.mem_singleton.mp hc] at hx
    exact mem_of_mem_stripped ch hx
  · cases hc

theorem From.append {b : Built χ Img} (h : From P base b) {t : List χ} (ht : ∀ x ∈ t, P x) :
    ∃ new, b.cks ++ textCks ch numTokensFromString t = base ++ new ∧
      ∀ c ∈ new, c.ckType = .text → ∀ x ∈ c.text, P x := by
  obtain ⟨new, hnew, htext⟩ := h.cks
  refine ⟨new ++ textCks ch numTokensFromString t, by rw [hnew, List.append_assoc],
    fun c hc hctext x hx => ?_⟩
  rcases List.mem_append.mp hc with hc | hc
  · exact htext c hc hctext x hx
  · exact ht x (textCks_text_mem hc hx)

theorem From.flush {b : Built χ Img} (h : From P base b) :
    From P base (flush ch numTokensFromString b) :=
  ⟨h.append h.seg, fun _ hx => (List.not_mem_nil hx).elim⟩

theorem From.addPart {b : Built χ Img} (h : From P base b) (pattern : List Str) {t : List χ}
    (ht : ∀ x ∈ t, P x) : From P base (addPart ch numTokensFromString pattern b t) := by
  unfold Docx.addPart
  split_ifs
  · exact h.flush
  · exact h.flush
  · refine ⟨h.cks, fun x hx => ?_⟩
    rcases List.mem_append.mp hx with hx | hx
    · exact h.seg x hx
    · exact ht x hx

theorem From.foldl_addPart {b : Built χ Img} (h : From P base b) (pattern : List Str)
    (parts : List (List χ)) (hparts : ∀ t ∈ parts, ∀ x ∈ t, P x) :
    From P base (parts.foldl (Docx.addPart ch numTokensFromString pattern) b) := by
  induction parts generalizing b with
  | nil => exact h
  | cons t parts ih =>
      exact ih (h.addPart pattern (hparts t List.mem_cons_self))
        fun u hu => hparts u (List.mem_cons_of_mem _ hu)

theorem From.addSection {b : Built χ Img} (h : From P base b) (pattern : Option (List Str))
    {s : Section χ Img} (hs : ∀ x ∈ s.text, P x) :
    From P base (addSection ch numTokensFromString pattern b s) := by
  have hmedia : ∃ new, b.cks ++ [mediaCk ch numTokensFromString s] = base ++ new ∧
      ∀ c ∈ new, c.ckType = .text → ∀ x ∈ c.text, P x := by
    obtain ⟨new, hnew, htext⟩ := h.cks
    refine ⟨new ++ [mediaCk ch numTokensFromString s], by rw [hnew, List.append_assoc],
      fun c hc hctext x hx => ?_⟩
    rcases List.mem_append.mp hc with hc | hc
    · exact htext c hc hctext x hx
    · rw [List.mem_singleton.mp hc] at hctext
      exact absurd hctext (mediaCk_ckType ch numTokensFromString s)
  unfold Docx.addSection
  split_ifs
  · exact ⟨hmedia, h.seg⟩
  · exact ⟨hmedia, h.seg⟩
  · cases pattern with
    | some pattern =>
        exact h.foldl_addPart pattern _ fun t ht x hx => hs x (mem_of_mem_partsLike ht hx)
    | none => exact ⟨h.append hs, h.seg⟩

theorem From.foldl_addSection {b : Built χ Img} (h : From P base b)
    (pattern : Option (List Str)) (sections : List (Section χ Img))
    (hsections : ∀ s ∈ sections, ∀ x ∈ s.text, P x) :
    From P base (sections.foldl (Docx.addSection ch numTokensFromString pattern) b) := by
  induction sections generalizing b with
  | nil => exact h
  | cons s sections ih =>
      exact ih (h.addSection pattern (hsections s List.mem_cons_self))
        fun u hu => hsections u (List.mem_cons_of_mem _ hu)

/-! What is in the buffer comes out at the start of the next chunk of text. -/

/-- The text `seg` in the buffer since `base` is still there, or it starts the first chunk of text
after `base`. -/
inductive Held (base : List (Ck χ Img)) (seg : List χ) : Built χ Img → Prop where
  | waiting {b : Built χ Img} {new : List (Ck χ Img)} {more : List χ} (hcks : b.cks = base ++ new)
      (hnew : ∀ c ∈ new, c.ckType ≠ .text) (hseg : b.seg = seg ++ more) : Held base seg b
  | released {b : Built χ Img} {before after : List (Ck χ Img)} {c : Ck χ Img} {y : χ} {r : List χ}
      (hcks : b.cks = base ++ (before ++ c :: after)) (hbefore : ∀ d ∈ before, d.ckType ≠ .text)
      (hc : c.ckType = .text) (htext : c.text = y :: r) (hy : y ∈ seg) : Held base seg b

theorem exists_not_isSpace {t : List χ} (ht : stripped ch t ≠ []) :
    ∃ y ∈ t, isSpace (ch y) = false := by
  by_contra hall
  push Not at hall
  refine ht ?_
  have hnil : (t.dropWhile fun x => isSpace (ch x)) = [] :=
    List.dropWhile_eq_nil_iff.mpr fun x hx => by simpa using hall x hx
  unfold stripped
  rw [hnil]
  rfl

/-- The first character of a stripped text. -/
theorem stripped_append {seg : List χ} (hseg : ∃ y ∈ seg, isSpace (ch y) = false) (more : List χ) :
    ∃ y r, stripped ch (seg ++ more) = y :: r ∧ y ∈ seg := by
  have hne : (seg.dropWhile fun x => isSpace (ch x)) ≠ [] := by
    intro hnil
    obtain ⟨y, hy, hspace⟩ := hseg
    have hall := List.dropWhile_eq_nil_iff.mp hnil y hy
    rw [hspace] at hall
    cases hall
  obtain ⟨y, r, hyr⟩ := List.exists_cons_of_ne_nil hne
  have hy : y ∈ seg := (List.dropWhile_suffix _).subset (hyr ▸ List.mem_cons_self)
  have hspace : ¬isSpace (ch y) = true := by
    have hhead := List.head_dropWhile_not (fun x => isSpace (ch x)) hne
    simpa [hyr] using hhead
  have hdrop : ((seg ++ more).dropWhile fun x => isSpace (ch x)) = y :: (r ++ more) := by
    rw [List.dropWhile_append, if_neg (by simpa using hne), hyr]
    rfl
  unfold stripped
  have hlast : ([y].dropWhile fun x => isSpace (ch x)) = [y] :=
    List.dropWhile_cons_of_neg hspace
  rw [hdrop, List.reverse_cons, List.dropWhile_append, hlast]
  split_ifs
  · exact ⟨y, [], rfl, hy⟩
  · rw [List.reverse_append]
    exact ⟨y, _, rfl, hy⟩

variable {seg : List χ}

variable (ch numTokensFromString) in
theorem Held.flush (hseg : ∃ y ∈ seg, isSpace (ch y) = false) {b : Built χ Img}
    (h : Held base seg b) : ∃ before c after y r,
      (Docx.flush ch numTokensFromString b).cks = base ++ (before ++ c :: after) ∧
      (∀ d ∈ before, d.ckType ≠ .text) ∧ c.ckType = .text ∧ c.text = y :: r ∧ y ∈ seg := by
  cases h with
  | @waiting new more hcks hnew hb =>
      obtain ⟨y, r, hyr, hy⟩ := stripped_append hseg more
      have hchunk : (textCks ch numTokensFromString b.seg : List (Ck χ Img)) =
          [textCk ch numTokensFromString (y :: r)] := by
        unfold textCks
        rw [hb, hyr, if_pos (List.cons_ne_nil _ _)]
      refine ⟨new, textCk ch numTokensFromString (y :: r), [], y, r, ?_, hnew, rfl, rfl, hy⟩
      show b.cks ++ textCks ch numTokensFromString b.seg = _
      rw [hchunk, hcks, List.append_assoc]
  | @released before after c y r hcks hbefore hc htext hy =>
      refine ⟨before, c, after ++ textCks ch numTokensFromString b.seg, y, r, ?_, hbefore, hc,
        htext, hy⟩
      show b.cks ++ _ = _
      rw [hcks, List.append_assoc, List.append_assoc, List.cons_append]

/-- Once the text is in a chunk, more chunks do not matter. -/
theorem Held.of_released {b b' : Built χ Img} {before after new : List (Ck χ Img)} {c : Ck χ Img}
    {y : χ} {r : List χ} (hcks : b.cks = base ++ (before ++ c :: after))
    (hbefore : ∀ d ∈ before, d.ckType ≠ .text) (hc : c.ckType = .text) (htext : c.text = y :: r)
    (hy : y ∈ seg) (hb' : b'.cks = b.cks ++ new) : Held base seg b' := by
  refine @Held.released _ _ base seg _ before (after ++ new) c y r ?_ hbefore hc htext hy
  rw [hb', hcks, List.append_assoc, List.append_assoc, List.cons_append]

theorem Held.addPart (hseg : ∃ y ∈ seg, isSpace (ch y) = false) {b : Built χ Img}
    (h : Held base seg b) (pattern : List Str) (t : List χ) :
    Held base seg (Docx.addPart ch numTokensFromString pattern b t) := by
  obtain ⟨before, c, after, y, r, hcks, hbefore, hc, htext, hy⟩ :=
    h.flush ch numTokensFromString hseg
  unfold Docx.addPart
  split_ifs
  · exact Held.released hcks hbefore hc htext hy
  · exact Held.released hcks hbefore hc htext hy
  · cases h with
    | @waiting new more hcks hnew hb =>
        refine @Held.waiting _ _ base seg _ new (more ++ t) hcks hnew ?_
        show b.seg ++ t = _
        rw [hb, List.append_assoc]
    | released hcks hbefore hc htext hy =>
        exact Held.of_released hcks hbefore hc htext hy (List.append_nil _).symm

theorem Held.foldl_addPart (hseg : ∃ y ∈ seg, isSpace (ch y) = false) {b : Built χ Img}
    (h : Held base seg b) (pattern : List Str) (parts : List (List χ)) :
    Held base seg (parts.foldl (Docx.addPart ch numTokensFromString pattern) b) := by
  induction parts generalizing b with
  | nil => exact h
  | cons t parts ih => exact ih (h.addPart hseg pattern t)

theorem Held.addSection (hseg : ∃ y ∈ seg, isSpace (ch y) = false) {b : Built χ Img}
    (h : Held base seg b) (pattern : List Str) (s : Section χ Img) :
    Held base seg (Docx.addSection ch numTokensFromString (some pattern) b s) := by
  by_cases hs : s.isMedia = true
  · obtain ⟨hadd, hbuffer⟩ := addSection_media ch numTokensFromString (some pattern) b hs
    cases h with
    | @waiting new more hcks hnew hb =>
        refine @Held.waiting _ _ base seg _ (new ++ [mediaCk ch numTokensFromString s]) more
          (by rw [hadd, hcks, List.append_assoc]) (fun c hc => ?_) (hbuffer.trans hb)
        rcases List.mem_append.mp hc with hc | hc
        · exact hnew c hc
        · rw [List.mem_singleton.mp hc]
          exact mediaCk_ckType ch numTokensFromString s
    | released hcks hbefore hc htext hy => exact Held.of_released hcks hbefore hc htext hy hadd
  · rw [addSection_text ch numTokensFromString (some pattern) b (Bool.not_eq_true _ ▸ hs)]
    exact h.foldl_addPart hseg pattern _

theorem Held.foldl_addSection (hseg : ∃ y ∈ seg, isSpace (ch y) = false) {b : Built χ Img}
    (h : Held base seg b) (pattern : List Str) (sections : List (Section χ Img)) :
    Held base seg
      (sections.foldl (Docx.addSection ch numTokensFromString (some pattern)) b) := by
  induction sections generalizing b with
  | nil => exact h
  | cons s sections ih => exact ih (h.addSection hseg pattern s)

end buffer

/-! ### When the buffer is empty -/

section empty

variable {χ Img : Type} (ch : χ → Char) (numTokensFromString : Str → ℕ)

theorem partsLike_append (ps qs : List Str) (s : List χ) :
    partsLike (ps ++ qs) s = partsLike ps s ++ partsLike qs (s.drop ps.flatten.length) := by
  induction ps generalizing s with
  | nil => rfl
  | cons p ps ih =>
      rw [List.cons_append, partsLike, partsLike, ih, List.drop_drop, List.flatten_cons,
        List.length_append, List.cons_append]

variable {pattern : List Str} (hne : ∀ d ∈ pattern, d ≠ [])

/-- The text after the last literal. -/
def remainder (pattern : List Str) (t : List χ) : List χ :=
  ((split ch pattern t).getLast?).getD []

include hne in
/-- No literal starts in the last part. -/
theorem split_remainder (t : List χ) : ∃ parts,
    split ch pattern t = parts ++ [remainder ch pattern t] ∧
      NoStart pattern ((remainder ch pattern t).map ch) [] := by
  obtain ⟨pieces, v, hsplit, hstart⟩ := reSplit_getLast hne (t.map ch)
  have hflat := flatten_reSplit hne (t.map ch)
  rw [hsplit, List.flatten_append, List.flatten_singleton] at hflat
  have hlast : ((t.drop pieces.flatten.length).take v.length).map ch = v := by
    rw [List.map_take, List.map_drop, ← hflat, List.drop_left, List.take_length]
  have hparts : split ch pattern t =
      partsLike pieces t ++ [(t.drop pieces.flatten.length).take v.length] := by
    rw [split, hsplit, partsLike_append]
    rfl
  have hremainder : remainder ch pattern t = (t.drop pieces.flatten.length).take v.length := by
    rw [remainder, hparts, List.getLast?_concat]
    rfl
  refine ⟨partsLike pieces t, by rw [hremainder, hparts], ?_⟩
  rw [hremainder, hlast]
  exact hstart

theorem stripped_infix (t : List χ) : stripped ch t <:+: t := by
  have hright : stripped ch t <+: t.dropWhile fun x => isSpace (ch x) := by
    unfold stripped
    rw [← List.reverse_suffix, List.reverse_reverse]
    exact List.dropWhile_suffix _
  exact hright.isInfix.trans (List.dropWhile_suffix _).isInfix

variable {ch} in
/-- A text in which no literal starts is not a literal with blanks around. -/
theorem NoStart.stripped_not_mem {t : List χ} (h : NoStart pattern (t.map ch) [])
    (ht : stripped ch t ≠ []) : (stripped ch t).map ch ∉ pattern := by
  intro hmem
  obtain ⟨a, b, hab⟩ := stripped_infix ch t
  have hne : ((stripped ch t ++ b).map ch) ≠ [] := by
    rw [Ne, List.map_eq_nil_iff, List.append_eq_nil_iff]
    exact fun hnil => ht hnil.1
  refine h (a.map ch) ((stripped ch t ++ b).map ch) ?_ hne _ hmem ?_
  · rw [← List.map_append, ← List.append_assoc, hab]
  · rw [List.append_nil, List.map_append]
    exact List.prefix_append _ _

include hne in
/-- After a section of pure text the buffer is empty if the text ends with a delimiter. -/
theorem addSection_seg (b : Built χ Img) {s : Section χ Img} (hs : s.isMedia = false) :
    (addSection ch numTokensFromString (some pattern) b s).seg = [] ↔
      stripped ch (remainder ch pattern s.text) = [] := by
  obtain ⟨parts, hparts, hstart⟩ := split_remainder ch hne s.text
  rw [addSection_text ch numTokensFromString (some pattern) b hs]
  dsimp only
  rw [hparts, List.foldl_append, List.foldl_cons, List.foldl_nil]
  generalize parts.foldl (addPart ch numTokensFromString pattern) b = b'
  unfold addPart
  by_cases hblank : stripped ch (remainder ch pattern s.text) = []
  · rw [if_pos hblank]
    exact iff_of_true rfl hblank
  · rw [if_neg hblank, if_neg (by
      rw [List.contains_iff_mem]
      exact NoStart.stripped_not_mem hstart hblank)]
    refine iff_of_false (fun hseg => hblank ?_) hblank
    rw [(List.append_eq_nil_iff.mp hseg).2]
    rfl

include hne in
/-- The buffer is empty if the last section of pure text ends with a delimiter. -/
theorem seg_eq_nil_iff (sections : List (Section χ Img)) :
    (sections.foldl (addSection ch numTokensFromString (some pattern)) ⟨[], [], [], []⟩).seg = [] ↔
      ∀ s ∈ (sections.filter fun s => !s.isMedia).getLast?,
        stripped ch (remainder ch pattern s.text) = [] := by
  induction sections using List.reverseRecOn with
  | nil => exact iff_of_true rfl fun s hs => by cases hs
  | append_singleton sections s ih =>
      rw [List.foldl_append, List.foldl_cons, List.foldl_nil, List.filter_append]
      by_cases hs : s.isMedia = true
      · rw [(addSection_media ch numTokensFromString (some pattern) _ hs).2, ih,
          List.filter_cons_of_neg (by simp [hs]), List.filter_nil, List.append_nil]
      · have hs' : s.isMedia = false := Bool.not_eq_true _ ▸ hs
        rw [addSection_seg ch numTokensFromString hne _ hs',
          List.filter_cons_of_pos (by simp [hs']), List.filter_nil, List.getLast?_concat]
        exact ⟨fun h t ht => by cases ht; exact h, fun h => h s rfl⟩

/-- What is in the buffer is not blank. -/
def Filled (b : Built χ Img) : Prop := b.seg ≠ [] → ∃ y ∈ b.seg, isSpace (ch y) = false

theorem foldl_addPart_filled (parts : List (List χ)) (b : Built χ Img) (hb : Filled ch b) :
    Filled ch (parts.foldl (addPart ch numTokensFromString pattern) b) := by
  induction parts generalizing b with
  | nil => exact hb
  | cons t parts ih =>
      refine ih _ ?_
      unfold addPart
      split_ifs with hblank hdelimiter
      · exact fun h => absurd rfl h
      · exact fun h => absurd rfl h
      · intro _
        obtain ⟨y, hy, hspace⟩ := exists_not_isSpace hblank
        exact ⟨y, List.mem_append_right _ hy, hspace⟩

theorem foldl_addSection_filled (sections : List (Section χ Img)) (b : Built χ Img)
    (hb : Filled ch b) :
    Filled ch (sections.foldl (addSection ch numTokensFromString (some pattern)) b) := by
  induction sections generalizing b with
  | nil => exact hb
  | cons s sections ih =>
      refine ih _ ?_
      by_cases hs : s.isMedia = true
      · unfold Filled
        rw [(addSection_media ch numTokensFromString (some pattern) b hs).2]
        exact hb
      · rw [addSection_text ch numTokensFromString (some pattern) b (Bool.not_eq_true _ ▸ hs)]
        exact foldl_addPart_filled ch numTokensFromString _ b hb

/-- Without custom delimiters there is no buffer. -/
theorem foldl_addSection_none_seg (sections : List (Section χ Img)) (b : Built χ Img) :
    (sections.foldl (addSection ch numTokensFromString none) b).seg = b.seg := by
  induction sections generalizing b with
  | nil => rfl
  | cons s sections ih =>
      refine (ih _).trans ?_
      unfold addSection
      split_ifs
      all_goals rfl

end empty

/-! ### Around a table or an image -/

section around

variable {χ Img : Type} (ch : χ → Char) (numTokensFromString : Str → ℕ)

/-- The state before a section. -/
def builtBefore (delimiter : Str) (before : List (Section χ Img)) : Built χ Img :=
  before.foldl (addSection ch numTokensFromString (docxPattern delimiter)) ⟨[], [], [], []⟩

theorem from_start (P : χ → Prop) : From P [] (⟨[], [], [], []⟩ : Built χ Img) :=
  ⟨⟨[], rfl, fun _ h => (List.not_mem_nil h).elim⟩, fun _ h => (List.not_mem_nil h).elim⟩

theorem docxPattern_eq_none {delimiter : Str} :
    docxPattern delimiter = none ↔ customDelimiters delimiter = [] := by
  unfold docxPattern
  split_ifs with h
  · exact iff_of_false (fun hsome => by cases hsome) h
  · exact iff_of_true rfl (not_not.mp h)

/-- The state after the sections that follow a state, with the last flush. -/
def builtAfter (delimiter : Str) (b : Built χ Img) (after : List (Section χ Img)) : Built χ Img :=
  let b := after.foldl (addSection ch numTokensFromString (docxPattern delimiter)) b
  if (docxPattern delimiter).isSome then flush ch numTokensFromString b else b

theorem buildCks_eq (delimiter : Str) (before after : List (Section χ Img)) (s : Section χ Img) :
    buildCks ch numTokensFromString (before ++ s :: after) delimiter =
      builtAfter ch numTokensFromString delimiter
        (addSection ch numTokensFromString (docxPattern delimiter)
          (builtBefore ch numTokensFromString delimiter before) s) after := by
  unfold buildCks builtAfter builtBefore
  rw [List.foldl_append, List.foldl_cons]

theorem builtBefore_from (delimiter : Str) (before : List (Section χ Img)) :
    From (fun x => ∃ u ∈ before, x ∈ u.text) []
      (builtBefore ch numTokensFromString delimiter before) :=
  (from_start _).foldl_addSection _ before fun u hu _ hx => ⟨u, hu, hx⟩

/-- A buffer with text in it is there only with custom delimiters, and it is not blank. -/
theorem builtBefore_seg {delimiter : Str} {before : List (Section χ Img)}
    (hseg : (builtBefore ch numTokensFromString delimiter before).seg ≠ []) :
    ∃ pattern, docxPattern delimiter = some pattern ∧
      ∃ y ∈ (builtBefore ch numTokensFromString delimiter before).seg, isSpace (ch y) = false := by
  unfold builtBefore at hseg ⊢
  cases hpattern : docxPattern delimiter with
  | none =>
      rw [hpattern, foldl_addSection_none_seg] at hseg
      exact absurd rfl hseg
  | some pattern =>
      rw [hpattern] at hseg
      exact ⟨pattern, rfl, foldl_addSection_filled ch numTokensFromString before _
        (fun h => absurd rfl h) hseg⟩

variable {ch numTokensFromString} in
theorem From.builtAfter {P : χ → Prop} {base : List (Ck χ Img)} {b : Built χ Img}
    (h : From P base b) (delimiter : Str) (after : List (Section χ Img))
    (hafter : ∀ u ∈ after, ∀ x ∈ u.text, P x) :
    From P base (builtAfter ch numTokensFromString delimiter b after) := by
  have hloop : From P base (after.foldl
      (Docx.addSection ch numTokensFromString (docxPattern delimiter)) b) :=
    h.foldl_addSection _ after hafter
  unfold Docx.builtAfter
  dsimp only
  split_ifs
  · exact hloop.flush
  · exact hloop

theorem Held.builtAfter {base : List (Ck χ Img)} {seg : List χ}
    (hseg : ∃ y ∈ seg, isSpace (ch y) = false) {b : Built χ Img} (h : Held base seg b)
    {delimiter : Str} {pattern : List Str} (hpattern : docxPattern delimiter = some pattern)
    (after : List (Section χ Img)) : ∃ before c after' y r,
      (builtAfter ch numTokensFromString delimiter b after).cks = base ++ (before ++ c :: after') ∧
      (∀ d ∈ before, d.ckType ≠ .text) ∧ c.ckType = .text ∧ c.text = y :: r ∧ y ∈ seg := by
  unfold Docx.builtAfter
  rw [hpattern]
  exact (h.foldl_addSection hseg pattern after).flush ch numTokensFromString hseg

/-- The chunks around that of a table or an image.  Before it is text from the sections before;
after it is text from the sections after, unless there is text in the buffer, which then comes
first. -/
structure Around (delimiter : Str) (before after : List (Section χ Img)) (s : Section χ Img)
    (B : List (Ck χ Img)) : Prop where
  cks : (buildCks ch numTokensFromString (before ++ s :: after) delimiter).cks =
    (builtBefore ch numTokensFromString delimiter before).cks ++
      mediaCk ch numTokensFromString s :: B
  above : ∀ c ∈ (builtBefore ch numTokensFromString delimiter before).cks, c.ckType = .text →
    ∀ x ∈ c.text, ∃ u ∈ before, x ∈ u.text
  below : (builtBefore ch numTokensFromString delimiter before).seg = [] →
    ∀ c ∈ B, c.ckType = .text → ∀ x ∈ c.text, ∃ u ∈ after, x ∈ u.text
  held : (builtBefore ch numTokensFromString delimiter before).seg ≠ [] →
    ∃ pre c post y r, B = pre ++ c :: post ∧ (∀ d ∈ pre, d.ckType ≠ .text) ∧ c.ckType = .text ∧
      c.text = y :: r ∧ ∃ u ∈ before, y ∈ u.text

theorem buildCks_around (delimiter : Str) (before after : List (Section χ Img))
    {s : Section χ Img} (hs : s.isMedia = true) :
    ∃ B, Around ch numTokensFromString delimiter before after s B := by
  obtain ⟨hcks, hseg⟩ := addSection_media ch numTokensFromString (docxPattern delimiter)
    (builtBefore ch numTokensFromString delimiter before) hs
  obtain ⟨⟨old, hold, habove⟩, hbuffer⟩ := builtBefore_from ch numTokensFromString delimiter before
  rw [List.nil_append] at hold
  have hstart : ∀ P : χ → Prop,
      (∀ x ∈ (builtBefore ch numTokensFromString delimiter before).seg, P x) →
      From P ((builtBefore ch numTokensFromString delimiter before).cks ++
        [mediaCk ch numTokensFromString s]) (addSection ch numTokensFromString
          (docxPattern delimiter) (builtBefore ch numTokensFromString delimiter before) s) :=
    fun P hP => ⟨⟨[], by rw [hcks, List.append_nil], fun _ h => (List.not_mem_nil h).elim⟩,
      by rwa [hseg]⟩
  obtain ⟨⟨B, hB, -⟩, -⟩ := (hstart (fun _ => True) fun _ _ => trivial).builtAfter delimiter after
    fun _ _ _ _ => trivial
  have hunique : ∀ {new}, (buildCks ch numTokensFromString (before ++ s :: after) delimiter).cks =
      (builtBefore ch numTokensFromString delimiter before).cks ++
        [mediaCk ch numTokensFromString s] ++ new → B = new := by
    intro new hnew
    rw [buildCks_eq, hB] at hnew
    exact List.append_cancel_left hnew
  refine ⟨B, ⟨?_, fun c hc => habove c (hold ▸ hc), fun hempty => ?_, fun htext => ?_⟩⟩
  · rw [buildCks_eq, hB, List.append_assoc, List.singleton_append]
  · obtain ⟨⟨new, hnew, hchars⟩, -⟩ := (hstart (fun x => ∃ u ∈ after, x ∈ u.text)
      (by rw [hempty]; exact fun _ h => (List.not_mem_nil h).elim)).builtAfter delimiter
        after fun u hu _ hx => ⟨u, hu, hx⟩
    rw [← buildCks_eq] at hnew
    rwa [hunique hnew]
  · obtain ⟨pattern, hpattern, hblank⟩ := builtBefore_seg ch numTokensFromString htext
    obtain ⟨pre, c, post, y, r, hnew, hpre, hc, hy, hmem⟩ :=
      Held.builtAfter ch numTokensFromString hblank
        (@Held.waiting _ _ _ _ _ [] [] (hcks.trans (List.append_nil _).symm)
          (fun _ h => (List.not_mem_nil h).elim) (hseg.trans (List.append_nil _).symm))
        hpattern after
    rw [← buildCks_eq] at hnew
    exact ⟨pre, c, post, y, r, hunique hnew, hpre, hc, hy, hbuffer y hmem⟩

end around

/-! ### The contexts in the output -/

section output

variable {χ Img : Type} (ch : χ → Char) (numTokensFromString : Str → ℕ)

/-- The chunk of a table or an image among the chunks that got contexts. -/
theorem media_getElem? {A B : List (Ck χ Img)} {c : Ck χ Img} (hc : c.ckType ≠ .text)
    {cks : List (Ck χ Img)} (h : List.Forall₂ Attached (A ++ c :: B) cks) :
    (media cks)[(media A).length]? = cks[A.length]? := by
  have hA := List.forall₂_take A.length h
  have hrest := List.forall₂_drop A.length h
  rw [List.take_left] at hA
  rw [List.drop_left] at hrest
  obtain ⟨d, B', hcd, -, hdrop⟩ := List.forall₂_cons_left_iff.mp hrest
  have hcks : cks = cks.take A.length ++ d :: B' := by
    rw [← hdrop, List.take_append_drop]
  have hd : d.ckType ≠ .text := by rwa [hcd.ckType]
  have hlenA : (cks.take A.length).length = A.length := hA.length_eq.symm
  have hlen : (media (cks.take A.length)).length = (media A).length := by
    have hmedia := congrArg List.length (Attached.media hA)
    rwa [List.length_map, List.length_map] at hmedia
  have hget : cks[A.length]? = some d := by
    rw [hcks, ← hlenA, List.getElem?_append_right (by simp)]
    simp
  have hgetMedia : (media cks)[(media A).length]? = some d := by
    rw [hcks, media_append, ← List.singleton_append, media_append, media_singleton hd, ← hlen,
      List.getElem?_append_right le_rfl, Nat.sub_self]
    rfl
  rw [hget, hgetMedia]

/-- The contexts of a table or an image are those of its chunk. -/
theorem context_of_around {delimiter : Str} {before after : List (Section χ Img)}
    {s : Section χ Img} {B : List (Ck χ Img)}
    (h : Around ch numTokensFromString delimiter before after s B) (n : ℤ)
    {tableContextSize imageContextSize : ℤ} (htable : 0 < tableContextSize)
    (himage : 0 < imageContextSize) : ∃ c size, 0 < size ∧
      (media (mergeSections ch numTokensFromString (before ++ s :: after) n delimiter
        tableContextSize imageContextSize).1)[(before.filter Section.isMedia).length]? = some c ∧
      c.context = some (contextOf ch numTokensFromString size
        (builtBefore ch numTokensFromString delimiter before).cks B) := by
  obtain ⟨hindexed, -⟩ := buildCks_spec ch numTokensFromString (before ++ s :: after) delimiter
  have hA : (media (builtBefore ch numTokensFromString delimiter before).cks).length =
      (before.filter Section.isMedia).length := by
    have hmedia := (foldl_addSection ch numTokensFromString (docxPattern delimiter) before _
      indexed_start).2
    unfold builtBefore
    rw [hmedia]
    exact List.length_map _
  have hcks := h.cks
  have hc := mediaCk_ckType ch numTokensFromString s
  unfold mergeSections
  rw [if_neg (by simp)]
  dsimp only
  rw [(mergeCks_media _ n _).1, ← hA]
  generalize buildCks ch numTokensFromString (before ++ s :: after) delimiter = b at *
  generalize (builtBefore ch numTokensFromString delimiter before).cks = A at *
  generalize mediaCk ch numTokensFromString s = c at *
  have hget : b.cks[A.length]? = some c := by
    rw [hcks]
    simp
  have hattached : List.Forall₂ Attached (A ++ c :: B)
      (addContexts ch numTokensFromString tableContextSize b.tables b.cks) :=
    addContexts_attached ch numTokensFromString _ _ _ _ (by rw [hcks]; exact attached_refl _)
  rw [media_getElem? hc (addContexts_attached ch numTokensFromString imageContextSize b.images _ _
    hattached)]
  by_cases hkind : c.ckType = .table
  · have hmem : A.length ∈ b.tables := by
      rw [hindexed.tables.mem_iff, hget, Option.map_some, hkind]
    have hnot : A.length ∉ b.images := by
      rw [hindexed.images.mem_iff, hget, Option.map_some, hkind]
      exact fun h => by cases h
    have hcontext := addContexts_of_mem ch numTokensFromString htable hc hmem b.cks
      (by rw [hcks]; exact attached_refl _)
    rw [addContexts_of_not_mem ch numTokensFromString imageContextSize hnot]
    obtain ⟨d, hd, hdc⟩ := Option.bind_eq_some_iff.mp hcontext
    exact ⟨d, tableContextSize, htable, hd, hdc⟩
  · have hmem : A.length ∈ b.images := by
      rw [hindexed.images.mem_iff, hget, Option.map_some]
      cases htype : c.ckType with
      | text => exact absurd htype hc
      | table => exact absurd htype hkind
      | image => rfl
    have hcontext := addContexts_of_mem ch numTokensFromString himage hc hmem _ hattached
    obtain ⟨d, hd, hdc⟩ := Option.bind_eq_some_iff.mp hcontext
    exact ⟨d, imageContextSize, himage, hd, hdc⟩

end output

/-! ### Marked characters -/

section marked

variable {Img : Type} (numTokensFromString : Str → ℕ)

/-- A section with its index at each character. -/
def Section.mark (i : ℕ) (s : Section Char Img) : Section (Char × ℕ) Img :=
  s.map fun c => (c, i)

def markFrom : ℕ → List (Section Char Img) → List (Section (Char × ℕ) Img)
  | _, [] => []
  | i, s :: sections => s.mark i :: markFrom (i + 1) sections

/-- The run of `naive_merge_docx` with the index of its section at each character. -/
def markedRun (sections : List (Section Char Img)) (chunkTokenNum : ℤ) (delimiter : Str)
    (tableContextSize imageContextSize : ℤ) : List (Ck (Char × ℕ) Img) × List ℕ :=
  mergeSections Prod.fst numTokensFromString (markFrom 0 (sections.map normalize)) chunkTokenNum
    delimiter tableContextSize imageContextSize

theorem markFrom_erase (i : ℕ) (sections : List (Section Char Img)) :
    (markFrom i sections).map (Section.map Prod.fst) = sections := by
  induction sections generalizing i with
  | nil => rfl
  | cons s sections ih =>
      have hs : (s.mark i).map Prod.fst = s := by
        unfold Section.mark Section.map
        dsimp only
        rw [List.map_map, List.map_map]
        exact congrArg₂ (fun t u => (⟨t, s.image, u⟩ : Section Char Img)) (List.map_id _)
          (List.map_id _)
      rw [markFrom, List.map_cons, ih, hs]

/-- Without the marks it is the run of `naive_merge_docx`. -/
theorem markedRun_erase (sections : List (Section Char Img)) (chunkTokenNum : ℤ) (delimiter : Str)
    (tableContextSize imageContextSize : ℤ) :
    Prod.map (List.map (Ck.map Prod.fst)) id (markedRun numTokensFromString sections chunkTokenNum
        delimiter tableContextSize imageContextSize) =
      naiveMergeDocx numTokensFromString sections chunkTokenNum delimiter tableContextSize
        imageContextSize := by
  have hread : ∀ x : Char × ℕ, id (Prod.fst x) = Prod.fst x := fun _ => rfl
  unfold markedRun naiveMergeDocx
  rw [← mergeSections_map hread, markFrom_erase]

theorem markFrom_append (i : ℕ) (l r : List (Section Char Img)) :
    markFrom i (l ++ r) = markFrom i l ++ markFrom (i + l.length) r := by
  induction l generalizing i with
  | nil => rfl
  | cons s l ih =>
      rw [List.cons_append, markFrom, markFrom, ih, List.length_cons, Nat.add_assoc,
        Nat.add_comm 1, List.cons_append]

/-- The marks of the characters. -/
theorem mark_of_mem {i : ℕ} {l : List (Section Char Img)} {u : Section (Char × ℕ) Img}
    (hu : u ∈ markFrom i l) {x : Char × ℕ} (hx : x ∈ u.text) : i ≤ x.2 ∧ x.2 < i + l.length := by
  induction l generalizing i with
  | nil => cases hu
  | cons s l ih =>
      rw [List.length_cons]
      rcases List.mem_cons.mp hu with rfl | hu
      · obtain ⟨c, -, rfl⟩ := List.mem_map.mp hx
        dsimp only
        omega
      · have hlater := ih hu
        omega

theorem isMedia_map {χ ξ : Type} (f : χ → ξ) (s : Section χ Img) :
    (s.map f).isMedia = s.isMedia := by
  unfold Section.isMedia Section.map
  rw [List.isEmpty_map]

/-- Filters that look at the kind of a section commute with the marks. -/
theorem markFrom_filter (q : Bool → Bool) (i : ℕ) (l : List (Section Char Img)) :
    ((markFrom i l).filter fun s => q s.isMedia).map (Section.map Prod.fst) =
      l.filter fun s => q s.isMedia := by
  have hfilter := congrArg (List.filter fun s : Section Char Img => q s.isMedia)
    (markFrom_erase i l)
  rw [List.filter_map] at hfilter
  rw [← hfilter]
  congr 2
  funext s
  exact congrArg q (isMedia_map Prod.fst s).symm

/-- The text after the last delimiter. -/
theorem remainder_map {χ ξ : Type} {ch : χ → Char} {ch' : ξ → Char} {f : χ → ξ}
    (hf : ∀ x, ch' (f x) = ch x) (pattern : List Str) (t : List χ) :
    remainder ch' pattern (t.map f) = (remainder ch pattern t).map f := by
  unfold remainder
  rw [split_map hf, List.getLast?_map]
  cases (split ch pattern t).getLast? with
  | none => rfl
  | some u => rfl

theorem partsLike_self (ps : List Str) : partsLike ps ps.flatten = ps := by
  induction ps with
  | nil => rfl
  | cons p ps ih =>
      rw [partsLike, List.flatten_cons, List.take_left, List.drop_left, ih]

/-- For characters `split` is `re.split`. -/
theorem split_id {pattern : List Str} (hne : ∀ d ∈ pattern, d ≠ []) (s : Str) :
    split id pattern s = reSplit pattern s := by
  have hparts := partsLike_self (reSplit pattern s)
  rw [flatten_reSplit hne] at hparts
  unfold split
  rw [List.map_id, hparts]

/-! ### The claim -/

/-- For each table and image, the context above it is text of sections before it, and the context
below it is text of sections after it. -/
def ContextsFit (sections : List (Section Char Img)) (chunkTokenNum : ℤ) (delimiter : Str)
    (tableContextSize imageContextSize : ℤ) : Prop :=
  ∀ before s after, sections = before ++ s :: after → s.isMedia = true →
    ∃ c above below,
      (media (markedRun numTokensFromString sections chunkTokenNum delimiter tableContextSize
        imageContextSize).1)[(before.filter Section.isMedia).length]? = some c ∧
      c.context = some (above, below) ∧ (∀ x ∈ above, x.2 < before.length) ∧
      ∀ x ∈ below, before.length < x.2

/-- There are no custom delimiters, or each section of text that is the last before a table or an
image has only blanks after its last delimiter. -/
def EndsDelimited (sections : List (Section Char Img)) (delimiter : Str) : Prop :=
  customDelimiters delimiter = [] ∨
    ∀ before s after, sections = before ++ s :: after → s.isMedia = true →
      ∀ t ∈ (before.filter fun s => !s.isMedia).getLast?,
        strip (((reSplit (customPattern (customDelimiters delimiter))
          (normalize t).text).getLast?).getD []) = []

theorem filter_normalize (before : List (Section Char Img)) (q : Bool → Bool) :
    (before.map normalize).filter (fun s => q s.isMedia) =
      (before.filter fun s => q s.isMedia).map normalize := by
  rw [List.filter_map]
  rfl

/-- The buffer is empty at a table or an image. -/
theorem builtBefore_seg_iff (before : List (Section Char Img)) (delimiter : Str) :
    (builtBefore Prod.fst numTokensFromString delimiter
        (markFrom 0 (before.map normalize))).seg = [] ↔
      (customDelimiters delimiter = [] ∨ ∀ t ∈ (before.filter fun s => !s.isMedia).getLast?,
        strip (((reSplit (customPattern (customDelimiters delimiter))
          (normalize t).text).getLast?).getD []) = []) := by
  unfold builtBefore
  by_cases hcustom : customDelimiters delimiter = []
  · rw [docxPattern_eq_none.mpr hcustom, foldl_addSection_none_seg]
    exact iff_of_true rfl (Or.inl hcustom)
  have hpattern : docxPattern delimiter = some (customPattern (customDelimiters delimiter)) :=
    if_pos hcustom
  have hne := ne_nil_of_mem_customPattern delimiter
  have hread : ∀ x : Char × ℕ, id (Prod.fst x) = Prod.fst x := fun _ => rfl
  rw [hpattern, seg_eq_nil_iff Prod.fst numTokensFromString hne, or_iff_right hcustom]
  have hlast := congrArg List.getLast? (markFrom_filter (!·) 0 (before.map normalize))
  rw [filter_normalize, List.getLast?_map, List.getLast?_map] at hlast
  have hblank : ∀ (u : Section (Char × ℕ) Img) (t : Section Char Img),
      u.map Prod.fst = normalize t →
      (stripped Prod.fst (remainder Prod.fst (customPattern (customDelimiters delimiter)) u.text) =
          [] ↔ strip (((reSplit (customPattern (customDelimiters delimiter))
            (normalize t).text).getLast?).getD []) = []) := by
    intro u t hut
    rw [← stripped_map_eq_nil hread, ← remainder_map hread]
    have htext : u.text.map Prod.fst = (normalize t).text := congrArg Section.text hut
    rw [htext, remainder, split_id hne]
    rfl
  generalize ((markFrom 0 (before.map normalize)).filter fun s => !s.isMedia).getLast? = u at *
  generalize (before.filter fun s => !s.isMedia).getLast? = t at *
  cases u with
  | none =>
      cases t with
      | none => exact iff_of_true (fun s hs => by cases hs) (fun s hs => by cases hs)
      | some t => cases hlast
  | some u =>
      cases t with
      | none => cases hlast
      | some t =>
          have hut : u.map Prod.fst = normalize t := Option.some.inj hlast
          constructor
          · intro h t' ht'
            cases ht'
            exact (hblank u t hut).mp (h u rfl)
          · intro h u' hu'
            cases hu'
            exact (hblank u t hut).mpr (h t rfl)

/-- The contexts of one table or image. -/
theorem context_fits_iff (before after : List (Section Char Img)) {s : Section Char Img}
    (hs : s.isMedia = true) (chunkTokenNum : ℤ) (delimiter : Str)
    {tableContextSize imageContextSize : ℤ} (htable : 0 < tableContextSize)
    (himage : 0 < imageContextSize) :
    (∃ c above below,
      (media (markedRun numTokensFromString (before ++ s :: after) chunkTokenNum delimiter
        tableContextSize imageContextSize).1)[(before.filter Section.isMedia).length]? = some c ∧
      c.context = some (above, below) ∧ (∀ x ∈ above, x.2 < before.length) ∧
      ∀ x ∈ below, before.length < x.2) ↔
    (builtBefore Prod.fst numTokensFromString delimiter
      (markFrom 0 (before.map normalize))).seg = [] := by
  have hsplit : markFrom 0 ((before ++ s :: after).map normalize) =
      markFrom 0 (before.map normalize) ++ (normalize s).mark before.length ::
        markFrom (before.length + 1) (after.map normalize) := by
    rw [List.map_append, markFrom_append, List.map_cons, markFrom, Nat.zero_add, List.length_map]
  have hmedia : ((normalize s).mark before.length).isMedia = true :=
    (isMedia_map _ (normalize s)).trans hs
  obtain ⟨B, hB⟩ := buildCks_around Prod.fst numTokensFromString delimiter
    (markFrom 0 (before.map normalize)) (markFrom (before.length + 1) (after.map normalize)) hmedia
  obtain ⟨c, size, hsize, hget, hcontext⟩ := context_of_around Prod.fst numTokensFromString hB
    chunkTokenNum htable himage
  have hcount : ((markFrom 0 (before.map normalize)).filter Section.isMedia).length =
      (before.filter Section.isMedia).length := by
    have hfilter := congrArg List.length (markFrom_filter id 0 (before.map normalize))
    rw [filter_normalize, List.length_map, List.length_map] at hfilter
    exact hfilter
  rw [← hsplit, hcount] at hget
  have hearlier : ∀ u ∈ markFrom 0 (before.map normalize), ∀ x ∈ u.text, x.2 < before.length := by
    intro u hu x hx
    have hmark := (mark_of_mem hu hx).2
    rwa [Nat.zero_add, List.length_map] at hmark
  constructor
  · rintro ⟨d, above, below, hd, hdc, -, hbelow⟩
    by_contra hseg
    obtain ⟨pre, e, post, y, r, rfl, hpre, he, hy, u, hu, hyu⟩ := hB.held hseg
    have hdc' : d = c := Option.some.inj (hd.symm.trans hget)
    rw [hdc', hcontext] at hdc
    have hmem := mem_partsBelow Prod.fst numTokensFromString hsize hpre he hy post
    have hparts : (partsBelow Prod.fst numTokensFromString size (pre ++ e :: post)).flatten =
        below := congrArg Prod.snd (Option.some.inj hdc)
    have hafter := hbelow y (hparts ▸ hmem)
    have hbefore := hearlier u hu y hyu
    omega
  · intro hseg
    refine ⟨c, _, _, hget, hcontext, fun x hx => ?_, fun x hx => ?_⟩
    · obtain ⟨e, he, htext, hxe⟩ := mem_of_mem_partsAbove Prod.fst numTokensFromString hx
      obtain ⟨u, hu, hxu⟩ := hB.above e (List.mem_reverse.mp he) htext x hxe
      exact hearlier u hu x hxu
    · obtain ⟨e, he, htext, hxe⟩ := mem_of_mem_partsBelow Prod.fst numTokensFromString hx
      obtain ⟨u, hu, hxu⟩ := hB.below hseg e he htext x hxe
      exact (mark_of_mem hu hxu).1

/-- **Contexts.**  They are right exactly when no text is held back at a table or an image. -/
theorem contexts_iff (sections : List (Section Char Img)) (chunkTokenNum : ℤ) (delimiter : Str)
    {tableContextSize imageContextSize : ℤ} (htable : 0 < tableContextSize)
    (himage : 0 < imageContextSize) :
    ContextsFit numTokensFromString sections chunkTokenNum delimiter tableContextSize
        imageContextSize ↔ EndsDelimited sections delimiter := by
  have hone : ∀ before s after, sections = before ++ s :: after → s.isMedia = true → _ :=
    fun before s after hsections hs => (context_fits_iff numTokensFromString before after hs
      chunkTokenNum delimiter htable himage).trans
        (builtBefore_seg_iff numTokensFromString before delimiter)
  unfold ContextsFit EndsDelimited
  by_cases hcustom : customDelimiters delimiter = []
  · refine iff_of_true (fun before s after hsections hs => ?_) (Or.inl hcustom)
    subst hsections
    exact (hone before s after rfl hs).mpr (Or.inl hcustom)
  · rw [or_iff_right hcustom]
    constructor
    · intro h before s after hsections hs
      have hfit := h before s after hsections hs
      subst hsections
      exact ((hone before s after rfl hs).mp hfit).resolve_left hcustom
    · intro h before s after hsections hs
      have hblank := h before s after hsections hs
      subst hsections
      exact (hone before s after rfl hs).mpr (Or.inr hblank)

/-! A letter, a table and another letter.  With a delimiter that is nowhere in the text both letters
are in one chunk, after the table. -/

def tableBetweenLetters : List (Section Char ℕ) :=
  [⟨['a'], none, []⟩, ⟨[], none, ['t']⟩, ⟨['b'], none, []⟩]

/-- The first letter with the custom delimiter behind it. -/
def tableAfterDelimiter : List (Section Char ℕ) :=
  [⟨"a##".toList, none, []⟩, ⟨[], none, ['t']⟩, ⟨['b'], none, []⟩]

/-- The letters stand around the table without a custom delimiter, and with one that is reached
before the table. -/
theorem contexts_iff_letters :
    ContextsFit List.length tableBetweenLetters 128 "\n" 5 5 ∧
      ContextsFit List.length tableAfterDelimiter 128 "\x60##\x60" 5 5 := by
  refine ⟨(contexts_iff List.length tableBetweenLetters 128 "\n" (by decide) (by decide)).mpr
    (.inl (by decide)),
    (contexts_iff List.length tableAfterDelimiter 128 "\x60##\x60" (by decide) (by decide)).mpr
      (.inr fun before s after hsections hs t ht => ?_)⟩
  match before with
  | [] =>
      cases hsections
      cases hs
  | [_] =>
      cases hsections
      cases ht
      decide
  | [_, _] =>
      cases hsections
      cases hs
  | _ :: _ :: _ :: _ => simp [tableAfterDelimiter] at hsections

theorem text_before_is_below :
    (naiveMergeDocx List.length tableBetweenLetters 128 "\x60##\x60" 5 5).1.map Ck.context =
        [some ([], "a\nb".toList), none] ∧
      ¬ContextsFit List.length tableBetweenLetters 128 "\x60##\x60" 5 5 := by
  refine ⟨by decide +kernel, fun h => ?_⟩
  obtain ⟨c, above, below, hc, hcontext, -, hbelow⟩ :=
    h [⟨['a'], none, []⟩] ⟨[], none, ['t']⟩ [⟨['b'], none, []⟩] rfl rfl
  have hrun : ((media (markedRun List.length tableBetweenLetters 128 "\x60##\x60" 5 5).1)[0]?).map
      Ck.context = some (some ([], [('a', 0), ('\n', 2), ('b', 2)])) := by decide +kernel
  have hget : (media (markedRun List.length tableBetweenLetters 128 "\x60##\x60" 5 5).1)[0]? =
      some c := hc
  rw [hget, Option.map_some, hcontext] at hrun
  cases hrun
  exact absurd (hbelow ('a', 0) List.mem_cons_self) (by decide)

end marked

end RagFlow.Nlp.Docx
