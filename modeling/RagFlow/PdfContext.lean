import RagFlow.Docx
import RagFlow.TextScan

/-! # The context of PDF tables and images

`append_context2table_image4pdf` of `rag/nlp/__init__.py` looks for the place of each table among
the blocks of text of its page, and takes text from the blocks before and after the place.  The
numbers of the positions may be of any type that is compared; `float` reads them.

* **Blocks.** `pageBucket` collects the blocks of the pages.
* **Contexts.** `upperContext` and `lowerContext` go on to the pages before and after as long as
  there is room.  There is no context exactly if all blocks they come to are empty
  (`upperContext_nil_iff`, `lowerContext_nil_iff`).
* **Pairs.** Whether the loop found a place is seen from the table's text alone.  So a table has two
  pairs of contexts if its place is among empty blocks (`step_doubled`).

`aligned_iff`: the pairs are those of the tables exactly if this is so for no table. -/

namespace RagFlow.Nlp.Pdf

open Py Docx

section code

variable {N : Type}

/-! ### Positions -/

/-- A position of a section: a page or a list of pages, and the sides. -/
structure SectionPos (N : Type) where
  page : ℤ ⊕ List ℤ
  left : N
  right : N
  top : N
  bottom : N

/-- What comes with the text of a section: positions, a string, or something else. -/
inductive Poss (N : Type) where
  | positions (l : List (SectionPos N))
  | tag (s : Str)
  | other

/-- A section: a text, or a tuple or list of these lengths. -/
inductive Section (N : Type) where
  | text (txt : Str)
  | empty
  | single (txt : Str)
  | pair (txt : Str) (poss : Poss N)
  | more (txt : Str) (poss : Poss N)

/-- `[0-9-]` -/
def isPageChar (c : Char) : Bool := c.isDigit || c == '-'

/-- `[0-9.\t]` -/
def isNumberChar (c : Char) : Bool := c.isDigit || c == '.' || c == '\t'

/-- A match of `@@[0-9-]+\t[0-9.\t]+##`, and what is between the `@@` and the `##`. -/
def tag? : Str → Option (Str × Str)
  | '@' :: '@' :: s =>
      match s.takeWhile isPageChar, s.dropWhile isPageChar with
      | c :: pn, '\t' :: s =>
          match s.takeWhile isNumberChar, s.dropWhile isNumberChar with
          | d :: numbers, '#' :: '#' :: rest => some (c :: pn ++ '\t' :: d :: numbers, rest)
          | _, _ => none
      | _, _ => none
  | _ => none

/-- `int` of a string of digits; it reads no more than 4300 of them. -/
def int (s : Str) : Option ℤ :=
  if s = [] ∨ 4300 < s.length then none
  else some (s.foldl (fun n c => n * 10 + (c.toNat - '0'.toNat : ℕ)) 0)

variable (float : Str → Option N)

/-- The position of a tag, unless a `ValueError` is raised. -/
def position (tag : Str) : Option (SectionPos N) :=
  match tag.splitOn '\t' with
  | [pn, left, right, top, bottom] => do
      let left ← float left
      let right ← float right
      let top ← float top
      let bottom ← float bottom
      let pages ← (pn.splitOn '-').mapM int
      return ⟨.inr (pages.map (· - 1)), left, right, top, bottom⟩
  | _ => none

/-- `PdfParser.extract_positions` -/
def extractPositions (txt : Str) : Option (List (SectionPos N)) :=
  ((Text.scan tag? txt).filterMap fun
    | .item _ => none
    | .found tag => some tag).mapM (position float)

/-- `re.sub` of the tags by nothing, and `strip`. -/
def withoutTags (txt : Str) : Str :=
  strip ((Text.scan tag? txt).filterMap fun
    | .item c => some c
    | .found _ => none)

/-! ### Blocks -/

structure Block (N : Type) where
  left : N
  right : N
  top : N
  bottom : N
  txt : Str
deriving DecidableEq

/-- `txt` and `poss` of a section. -/
def Section.parts : Section N → Str × Poss N
  | .text txt => (txt, .tag [])
  | .empty => ([], .tag [])
  | .single txt => (txt, .tag [])
  | .pair txt poss => (txt, poss)
  | .more txt poss => (txt, poss)

/-- The positions of a section. -/
def sectionPositions (txt : Str) : Poss N → Option (List (SectionPos N))
  | .positions l => some l
  | .tag s =>
      if !contains ['@', '@'] s && contains ['@', '@'] txt then extractPositions float txt
      else extractPositions float s
  | .other => if contains ['@', '@'] txt then extractPositions float txt else some []

def pageOf : ℤ ⊕ List ℤ → ℤ
  | .inl page => page
  | .inr pages => pages.head?.getD 0

/-- The blocks of a section with their pages. -/
def sectionBlocks (s : Section N) : Option (List (ℤ × Block N)) := do
  let poss ← sectionPositions float s.parts.1 s.parts.2
  let txt := if contains ['@', '@'] s.parts.1 then withoutTags s.parts.1 else s.parts.1
  return poss.map fun p => (pageOf p.page, ⟨p.left, p.right, p.top, p.bottom, txt⟩)

/-- `page_bucket`: the blocks of all pages in the order in which they are appended. -/
def pageBucket (sections : List (Section N)) : Option (List (ℤ × Block N)) :=
  (sections.mapM (sectionBlocks float)).map List.flatten

/-- `page_bucket[page]`; a page without blocks is not in it. -/
def blocks (bucket : List (ℤ × Block N)) (page : ℤ) : List (Block N) :=
  (bucket.filter (·.1 = page)).map (·.2)

/-! ### Contexts -/

variable (numTokensFromString : Str → ℕ) (tableContextSize : ℤ)

/-- The pieces of `upper_context`, for the parts in reverse order: a separator and what follows. -/
def upperPieces : List Str → List Str
  | [] => []
  | [t] => [t]
  | t :: d :: txts => (d ++ t) :: upperPieces txts

/-- The inner loop of `upper_context`. -/
def addAbove (txt : Str) : List Str → Str
  | [] => txt
  | p :: pieces =>
      if tableContextSize < numTokensFromString (p ++ txt) then p ++ txt
      else addAbove (p ++ txt) pieces

/-- The inner loop of `lower_context`. -/
def addBelow (txt : Str) : List Str → Str
  | [] => txt
  | p :: pieces =>
      if tableContextSize < numTokensFromString (txt ++ p) then txt ++ p
      else addBelow (txt ++ p) pieces

variable (bucket : List (ℤ × Block N))

/-- The loop of `upper_context`; `rest` are the blocks of the page to come, the last one first. -/
def upperLoop (page : ℤ) (rest : List (Block N)) (txt : Str) : Str :=
  if numTokensFromString txt < tableContextSize then
    match rest with
    | b :: rest =>
        upperLoop page rest (addAbove numTokensFromString tableContextSize txt
          (upperPieces (reSplit splitPat b.txt).reverse))
    | [] =>
        if page - 1 < 0 ∨ blocks bucket (page - 1) = [] then txt
        else upperLoop (page - 1) (blocks bucket (page - 1)).reverse txt
  else txt
termination_by (page.toNat, rest.length)

/-- `upper_context`, where a page without blocks has none to read. -/
def upperContext (page i : ℤ) : Str :=
  upperLoop numTokensFromString tableContextSize bucket page
    ((blocks bucket page).take (i + 1).toNat).reverse []

theorem pages_decrease {page : ℤ} (h : ¬blocks bucket (page + 1) = []) :
    (bucket.filter (page + 1 < ·.1)).length < (bucket.filter (page < ·.1)).length := by
  obtain ⟨b, hb⟩ := List.exists_mem_of_ne_nil _ h
  obtain ⟨x, hx, -⟩ := List.mem_map.mp hb
  obtain ⟨hmem, hpage⟩ := List.mem_filter.mp hx
  have hpage : x.1 = page + 1 := of_decide_eq_true hpage
  have hlater : bucket.filter (page + 1 < ·.1) =
      (bucket.filter (page < ·.1)).filter (page + 1 < ·.1) := by
    rw [List.filter_filter]
    refine List.filter_congr fun y _ => ?_
    rw [← Bool.decide_and, decide_eq_decide]
    omega
  rw [hlater, List.length_filter_lt_length_iff_exists]
  refine ⟨x, List.mem_filter.mpr ⟨hmem, decide_eq_true (by omega)⟩, ?_⟩
  rw [hpage, decide_eq_true_eq]
  exact lt_irrefl _

/-- The loop of `lower_context`. -/
def lowerLoop (page : ℤ) (rest : List (Block N)) (txt : Str) : Str :=
  if numTokensFromString txt < tableContextSize then
    match rest with
    | b :: rest =>
        lowerLoop page rest (addBelow numTokensFromString tableContextSize txt
          (sentences (reSplit splitPat b.txt)))
    | [] =>
        if h : blocks bucket (page + 1) = [] then txt
        else lowerLoop (page + 1) (blocks bucket (page + 1)) txt
  else txt
termination_by ((bucket.filter (page < ·.1)).length, rest.length)
decreasing_by
  · exact Prod.Lex.right _ (Nat.lt_succ_self _)
  · exact Prod.Lex.left _ _ (pages_decrease bucket h)

/-- `lower_context` -/
def lowerContext (page i : ℤ) : Str :=
  if blocks bucket page = [] then []
  else lowerLoop numTokensFromString tableContextSize bucket page
    ((blocks bucket page).drop i.toNat) []

/-! ### The place of a table -/

/-- A position of a table. -/
structure TablePos (N : Type) where
  page : ℤ
  left : N
  right : N
  top : N
  bottom : N

/-- The text of a table, or its lines. -/
inductive TableText where
  | text (tb : Str)
  | lines (tb : List Str)

/-- A table or image with its positions, of which it has at least one. -/
structure Table (Img N : Type) where
  img : Img
  tb : TableText
  poss : List (TablePos N)
  poss_ne : poss ≠ []

def TableText.str : TableText → Str
  | .text tb => tb
  | .lines tb => List.intercalate ['\n'] tb

/-- Where the loop ends: at the last block of the last page, between two blocks, or at no place. -/
inductive Place where
  | last (page : ℤ) (i : ℕ)
  | between (page : ℤ) (i : ℕ)
  | nowhere (page : ℤ)
deriving DecidableEq

variable [LT N] [DecidableLT N] {Img : Type}

/-- The loop over the blocks of the page. -/
def place (first final : TablePos N) (page : ℤ) (i : ℕ) : Place :=
  if h : i < (blocks bucket page).length then
    if h' : (blocks bucket page).length ≤ i + 1 then
      if page < final.page then place first final (page + 1) 0
      else .last page i
    else if first.top < (blocks bucket page)[i].bottom then .nowhere page
    else if (blocks bucket page)[i + 1].top < final.bottom then place first final page (i + 1)
    else .between page i
  else .nowhere page
termination_by ((final.page - page).toNat, (blocks bucket page).length - i)

def Table.place (t : Table Img N) : Place :=
  Pdf.place bucket (t.poss.head t.poss_ne) (t.poss.getLast t.poss_ne)
    (t.poss.head t.poss_ne).page 0

/-- The contexts that the loop takes. -/
def Place.contexts : Place → Option (Str × Str)
  | .last page i => some
      (upperContext numTokensFromString tableContextSize bucket page i,
        lowerContext numTokensFromString tableContextSize bucket (page + 1) 0)
  | .between page i => some
      (upperContext numTokensFromString tableContextSize bucket page i,
        lowerContext numTokensFromString tableContextSize bucket page i)
  | .nowhere _ => none

/-- The page at the end of the loop. -/
def Place.page : Place → ℤ
  | .last page _ => page
  | .between page _ => page
  | .nowhere page => page

/-! ### All tables -/

/-- `res` and `contexts`. -/
structure Out (Img N : Type) where
  res : List ((Img × Str) × List (TablePos N))
  contexts : List (Str × Str)

/-- The text with its context. -/
def surround (c : Str × Str) (tb : Str) : Str := c.1 ++ tb ++ c.2

def stripPair (c : Str × Str) : Str × Str := (strip c.1, strip c.2)

/-- A round of the loop over the tables. -/
def step (o : Out Img N) (t : Table Img N) : Out Img N :=
  let stop := t.place bucket
  let found := stop.contexts numTokensFromString tableContextSize bucket
  let tb := found.elim t.tb.str (surround · t.tb.str)
  let contexts := o.contexts ++ (found.map stripPair).toList
  let next :=
    if t.tb.str = tb then
      let c := (upperContext numTokensFromString tableContextSize bucket stop.page (-1),
        lowerContext numTokensFromString tableContextSize bucket (stop.page + 1) 0)
      (surround c tb, contexts ++ [stripPair c])
    else (tb, contexts)
  let contexts :=
    if next.2.length < o.res.length + 1 then next.2 ++ [([], [])] else next.2
  ⟨o.res ++ [((t.img, next.1), t.poss)], contexts⟩

/-- What is returned: contexts, tables, or the tables as they are given. -/
inductive Returned (Img N : Type) where
  | contexts (l : List (Str × Str))
  | tables (l : List ((Img × Str) × List (TablePos N)))
  | given (l : List (Table Img N))

def appendContext2tableImage4pdf (sections : List (Section N)) (tabls : List (Table Img N))
    (returnContext : Bool) : Option (Returned Img N) :=
  if tableContextSize ≤ 0 then some (if returnContext then .contexts [] else .given tabls)
  else do
    let bucket ← pageBucket float sections
    let o := tabls.foldl (step numTokensFromString tableContextSize bucket) ⟨[], []⟩
    return if returnContext then .contexts o.contexts else .tables o.res

end code

/-! ### Blocks without text -/

section silent

variable {N : Type}

/-- The blocks of the pages before, as far as these follow on one another, are empty. -/
def SilentBefore (bucket : List (ℤ × Block N)) (page : ℤ) : Prop :=
  ∀ q, 0 ≤ q → q < page → (∀ r, q ≤ r → r < page → blocks bucket r ≠ []) →
    ∀ b ∈ blocks bucket q, b.txt = []

/-- The blocks of the pages after, as far as these follow on one another, are empty. -/
def SilentAfter (bucket : List (ℤ × Block N)) (page : ℤ) : Prop :=
  ∀ q, page < q → (∀ r, page < r → r ≤ q → blocks bucket r ≠ []) →
    ∀ b ∈ blocks bucket q, b.txt = []

/-- The blocks of the page and of the pages around it are empty. -/
structure Silent (bucket : List (ℤ × Block N)) (page : ℤ) : Prop where
  here : ∀ b ∈ blocks bucket page, b.txt = []
  before : SilentBefore bucket page
  after : SilentAfter bucket page

variable {bucket : List (ℤ × Block N)} {page : ℤ}

theorem silentBefore_of_gap (h : page - 1 < 0 ∨ blocks bucket (page - 1) = []) :
    SilentBefore bucket page := by
  intro q hq hlt hfull b hb
  cases h with
  | inl h => omega
  | inr h => exact absurd h (hfull (page - 1) (by omega) (by omega))

theorem silentAfter_of_gap (h : blocks bucket (page + 1) = []) : SilentAfter bucket page :=
  fun _ hlt hfull => absurd h (hfull (page + 1) (by omega) (by omega))

theorem silentBefore_iff (h : ¬(page - 1 < 0 ∨ blocks bucket (page - 1) = [])) :
    SilentBefore bucket page ↔
      (∀ b ∈ blocks bucket (page - 1), b.txt = []) ∧ SilentBefore bucket (page - 1) := by
  obtain ⟨hpage, hfull⟩ := not_or.mp h
  constructor
  · intro hs
    refine ⟨hs (page - 1) (by omega) (by omega) (fun r h1 h2 => ?_), ?_⟩
    · obtain rfl : r = page - 1 := by omega
      exact hfull
    · intro q hq hlt hq'
      refine hs q hq (by omega) (fun r h1 h2 => ?_)
      by_cases hr : r = page - 1
      · rw [hr]
        exact hfull
      · exact hq' r h1 (by omega)
  · intro hs q hq hlt hq'
    by_cases heq : q = page - 1
    · rw [heq]
      exact hs.1
    · exact hs.2 q hq (by omega) (fun r h1 h2 => hq' r h1 (by omega))

theorem silentAfter_iff (h : ¬blocks bucket (page + 1) = []) :
    SilentAfter bucket page ↔
      (∀ b ∈ blocks bucket (page + 1), b.txt = []) ∧ SilentAfter bucket (page + 1) := by
  constructor
  · intro hs
    refine ⟨hs (page + 1) (by omega) (fun r h1 h2 => ?_), ?_⟩
    · obtain rfl : r = page + 1 := by omega
      exact h
    · intro q hlt hq'
      refine hs q (by omega) (fun r h1 h2 => ?_)
      by_cases hr : r = page + 1
      · rw [hr]
        exact h
      · exact hq' r (by omega) h2
  · intro hs q hlt hq'
    by_cases heq : q = page + 1
    · rw [heq]
      exact hs.1
    · exact hs.2 q (by omega) (fun r h1 h2 => hq' r (by omega) h2)

/-! ### Contexts without text -/

theorem splitPat_ne_nil : ∀ d ∈ splitPat, d ≠ [] := by
  unfold splitPat
  simp

theorem upperPieces_nil_iff (txts : List Str) :
    (∀ p ∈ upperPieces txts, p = []) ↔ ∀ t ∈ txts, t = [] := by
  induction txts using upperPieces.induct with
  | case1 => exact Iff.rfl
  | case2 t => exact Iff.rfl
  | case3 t d txts ih =>
      rw [upperPieces, List.forall_mem_cons, List.forall_mem_cons, List.forall_mem_cons, ih,
        List.append_eq_nil_iff]
      tauto

theorem sentences_nil_iff (txts : List Str) :
    (∀ p ∈ sentences txts, p = []) ↔ ∀ t ∈ txts, t = [] := by
  induction txts using sentences.induct with
  | case1 => exact Iff.rfl
  | case2 t => exact Iff.rfl
  | case3 t d txts ih =>
      rw [sentences, List.forall_mem_cons, List.forall_mem_cons, List.forall_mem_cons, ih,
        List.append_eq_nil_iff, and_assoc]

theorem reSplit_nil_iff (s : Str) : (∀ t ∈ reSplit splitPat s, t = []) ↔ s = [] := by
  rw [← List.flatten_eq_nil_iff, flatten_reSplit splitPat_ne_nil]

variable {numTokensFromString : Str → ℕ} {tableContextSize : ℤ}
  (hempty : numTokensFromString [] = 0) (hsize : 0 < tableContextSize)
include hempty hsize

/-- A text that is long enough is not empty. -/
theorem ne_nil_of_full {txt : Str} (h : tableContextSize ≤ numTokensFromString txt) :
    txt ≠ [] := by
  intro heq
  rw [heq, hempty] at h
  exact absurd hsize (not_lt.mpr h)

theorem addAbove_nil_iff (txt : Str) (pieces : List Str) :
    addAbove numTokensFromString tableContextSize txt pieces = [] ↔
      txt = [] ∧ ∀ p ∈ pieces, p = [] := by
  induction pieces generalizing txt with
  | nil => simp [addAbove]
  | cons p pieces ih =>
      rw [addAbove, List.forall_mem_cons]
      split_ifs with hfull
      · have hne := ne_nil_of_full hempty hsize (le_of_lt hfull)
        rw [Ne, List.append_eq_nil_iff] at hne
        rw [List.append_eq_nil_iff]
        tauto
      · rw [ih, List.append_eq_nil_iff]
        tauto

theorem addBelow_nil_iff (txt : Str) (pieces : List Str) :
    addBelow numTokensFromString tableContextSize txt pieces = [] ↔
      txt = [] ∧ ∀ p ∈ pieces, p = [] := by
  induction pieces generalizing txt with
  | nil => simp [addBelow]
  | cons p pieces ih =>
      rw [addBelow, List.forall_mem_cons]
      split_ifs with hfull
      · have hne := ne_nil_of_full hempty hsize (le_of_lt hfull)
        rw [Ne, List.append_eq_nil_iff] at hne
        rw [List.append_eq_nil_iff]
        tauto
      · rw [ih, List.append_eq_nil_iff, and_assoc]

theorem upperLoop_nil_iff (page : ℤ) (rest : List (Block N)) (txt : Str) :
    upperLoop numTokensFromString tableContextSize bucket page rest txt = [] ↔
      txt = [] ∧ (∀ b ∈ rest, b.txt = []) ∧ SilentBefore bucket page := by
  induction page, rest, txt using
    upperLoop.induct numTokensFromString tableContextSize bucket with
  | case1 page txt hroom b rest ih =>
      have hpieces : (∀ p ∈ upperPieces (reSplit splitPat b.txt).reverse, p = []) ↔
          b.txt = [] := by
        rw [upperPieces_nil_iff, ← reSplit_nil_iff b.txt]
        simp only [List.mem_reverse]
      rw [upperLoop, if_pos hroom]
      show upperLoop _ _ _ _ _ _ = [] ↔ _
      rw [ih, addAbove_nil_iff hempty hsize, hpieces, List.forall_mem_cons]
      tauto
  | case2 page txt hroom hgap =>
      rw [upperLoop, if_pos hroom]
      show (if _ then _ else _) = [] ↔ _
      rw [if_pos hgap]
      have := silentBefore_of_gap hgap
      simp [this]
  | case3 page txt hroom hgap ih =>
      rw [upperLoop, if_pos hroom]
      show (if _ then _ else _) = [] ↔ _
      rw [if_neg hgap, ih, silentBefore_iff hgap]
      simp
  | case4 page rest txt hroom =>
      have hne := ne_nil_of_full hempty hsize (not_lt.mp hroom)
      rw [upperLoop.eq_def, if_neg hroom]
      tauto

theorem lowerLoop_nil_iff (page : ℤ) (rest : List (Block N)) (txt : Str) :
    lowerLoop numTokensFromString tableContextSize bucket page rest txt = [] ↔
      txt = [] ∧ (∀ b ∈ rest, b.txt = []) ∧ SilentAfter bucket page := by
  induction page, rest, txt using
    lowerLoop.induct numTokensFromString tableContextSize bucket with
  | case1 page txt hroom b rest ih =>
      have hpieces : (∀ p ∈ sentences (reSplit splitPat b.txt), p = []) ↔ b.txt = [] := by
        rw [sentences_nil_iff, reSplit_nil_iff]
      rw [lowerLoop, if_pos hroom]
      show lowerLoop _ _ _ _ _ _ = [] ↔ _
      rw [ih, addBelow_nil_iff hempty hsize, hpieces, List.forall_mem_cons]
      tauto
  | case2 page txt hroom hgap =>
      rw [lowerLoop, if_pos hroom]
      show (if _ : _ then _ else _) = [] ↔ _
      rw [dif_pos hgap]
      have := silentAfter_of_gap hgap
      simp [this]
  | case3 page txt hroom hgap ih =>
      rw [lowerLoop, if_pos hroom]
      show (if _ : _ then _ else _) = [] ↔ _
      rw [dif_neg hgap, ih, silentAfter_iff hgap]
      simp
  | case4 page rest txt hroom =>
      have hne := ne_nil_of_full hempty hsize (not_lt.mp hroom)
      rw [lowerLoop.eq_def, if_neg hroom]
      tauto

/-- There is no text above exactly if the blocks up to the place and before are empty. -/
theorem upperContext_nil_iff (page i : ℤ) :
    upperContext numTokensFromString tableContextSize bucket page i = [] ↔
      (∀ b ∈ (blocks bucket page).take (i + 1).toNat, b.txt = []) ∧
        SilentBefore bucket page := by
  unfold upperContext
  rw [upperLoop_nil_iff hempty hsize]
  simp

/-- There is no text below exactly if the page is missing, or the blocks from the place on are
empty. -/
theorem lowerContext_nil_iff (page i : ℤ) :
    lowerContext numTokensFromString tableContextSize bucket page i = [] ↔
      (blocks bucket page ≠ [] →
        (∀ b ∈ (blocks bucket page).drop i.toNat, b.txt = []) ∧ SilentAfter bucket page) := by
  unfold lowerContext
  split_ifs with hgap
  · simp [hgap]
  · rw [lowerLoop_nil_iff hempty hsize]
    simp [hgap]

end silent

/-! ### The pairs -/

section pairs

variable {N : Type} [LT N] [DecidableLT N] {Img : Type} {bucket : List (ℤ × Block N)}

/-- The block of a place is there. -/
def Place.Valid (bucket : List (ℤ × Block N)) : Place → Prop
  | .last page i => i + 1 = (blocks bucket page).length
  | .between page i => i + 1 < (blocks bucket page).length
  | .nowhere _ => True

theorem place_valid (first final : TablePos N) (page : ℤ) (i : ℕ) :
    (place bucket first final page i).Valid bucket := by
  induction page, i using place.induct bucket first final with
  | case1 page i h h' hpage ih =>
      rw [place, dif_pos h, dif_pos h', if_pos hpage]
      exact ih
  | case2 page i h h' hpage =>
      rw [place, dif_pos h, dif_pos h', if_neg hpage]
      show i + 1 = _
      omega
  | case3 page i h h' hbelow =>
      rw [place, dif_pos h, dif_neg h', if_pos hbelow]
      trivial
  | case4 page i h h' hbelow hnext ih =>
      rw [place, dif_pos h, dif_neg h', if_neg hbelow, if_pos hnext]
      exact ih
  | case5 page i h h' hbelow hnext =>
      rw [place, dif_pos h, dif_neg h', if_neg hbelow, if_neg hnext]
      show i + 1 < _
      omega
  | case6 page i h =>
      rw [place, dif_neg h]
      trivial

/-- The table has a place, and it is among empty blocks. -/
def Doubled (bucket : List (ℤ × Block N)) (t : Table Img N) : Prop :=
  t.place bucket ≠ .nowhere (t.place bucket).page ∧ Silent bucket (t.place bucket).page

variable {numTokensFromString : Str → ℕ} {tableContextSize : ℤ}
  (hempty : numTokensFromString [] = 0) (hsize : 0 < tableContextSize)

theorem toNat_succ (i : ℕ) : ((i : ℤ) + 1).toNat = i + 1 := by omega

section
include hempty hsize

omit [LT N] [DecidableLT N] in
/-- After the last block of a page, the text below begins with the next page. -/
theorem lowerContext_next_nil_iff (page : ℤ) :
    lowerContext numTokensFromString tableContextSize bucket (page + 1) 0 = [] ↔
      SilentAfter bucket page := by
  rw [lowerContext_nil_iff hempty hsize]
  by_cases hgap : blocks bucket (page + 1) = []
  · exact ⟨fun _ => silentAfter_of_gap hgap, fun _ h => absurd hgap h⟩
  · rw [silentAfter_iff hgap]
    exact ⟨fun h => h hgap, fun h _ => h⟩

omit [LT N] [DecidableLT N] in
/-- The contexts of a place are empty exactly if the blocks around it are. -/
theorem contexts_nil_iff {p : Place} (hp : p.Valid bucket) {c : Str × Str}
    (hc : p.contexts numTokensFromString tableContextSize bucket = some c) :
    c = ([], []) ↔ Silent bucket p.page := by
  cases p with
  | last page i =>
      cases hc
      have hall : (blocks bucket page).take (i + 1) = blocks bucket page :=
        List.take_of_length_le (Nat.le_of_eq hp.symm)
      rw [Prod.mk.injEq, upperContext_nil_iff hempty hsize, toNat_succ, hall,
        lowerContext_next_nil_iff hempty hsize]
      exact ⟨fun h => ⟨h.1.1, h.1.2, h.2⟩, fun h => ⟨⟨h.here, h.before⟩, h.after⟩⟩
  | between page i =>
      cases hc
      have hne : blocks bucket page ≠ [] := by
        intro h
        have hlt : i + 1 < (blocks bucket page).length := hp
        rw [h] at hlt
        exact absurd hlt (Nat.not_lt_zero _)
      rw [Prod.mk.injEq, upperContext_nil_iff hempty hsize, lowerContext_nil_iff hempty hsize,
        toNat_succ, Int.toNat_natCast]
      constructor
      · intro h
        obtain ⟨hdrop, hafter⟩ := h.2 hne
        refine ⟨fun b hb => ?_, h.1.2, hafter⟩
        change b ∈ blocks bucket page at hb
        rw [← List.take_append_drop i (blocks bucket page), List.mem_append] at hb
        cases hb with
        | inl hb => exact h.1.1 b ((List.take_prefix_take_left (Nat.le_succ i)).subset hb)
        | inr hb => exact hdrop b hb
      · intro h
        exact ⟨⟨fun b hb => h.here b (List.mem_of_mem_take hb), h.before⟩,
          fun _ => ⟨fun b hb => h.here b (List.mem_of_mem_drop hb), h.after⟩⟩
  | nowhere page => cases hc

end

/-- The pair of a table: that of its place, or that of its page if it has no place. -/
def contextOf (numTokensFromString : Str → ℕ) (tableContextSize : ℤ) (bucket : List (ℤ × Block N))
    (t : Table Img N) : Str × Str :=
  ((t.place bucket).contexts numTokensFromString tableContextSize bucket).getD
    (upperContext numTokensFromString tableContextSize bucket (t.place bucket).page (-1),
      lowerContext numTokensFromString tableContextSize bucket ((t.place bucket).page + 1) 0)

theorem surround_eq_self {c : Str × Str} {tb : Str} : tb = surround c tb ↔ c = ([], []) := by
  constructor
  · intro h
    have hlen := congrArg List.length h
    simp only [surround, List.length_append] at hlen
    exact Prod.ext (List.length_eq_zero_iff.mp (by omega)) (List.length_eq_zero_iff.mp (by omega))
  · intro h
    rw [h]
    exact (List.append_nil tb).symm

section
include hempty hsize

/-- The contexts of the place are empty exactly if the table has two pairs. -/
theorem doubled_iff {t : Table Img N} {c : Str × Str}
    (hc : (t.place bucket).contexts numTokensFromString tableContextSize bucket = some c) :
    Doubled bucket t ↔ c = ([], []) := by
  rw [contexts_nil_iff hempty hsize (place_valid _ _ _ _) hc, Doubled]
  refine and_iff_right ?_
  intro h
  rw [h] at hc
  cases hc

/-- A table has one pair, if its place is not among empty blocks. -/
theorem step_single {o : Out Img N} (ho : o.res.length ≤ o.contexts.length) {t : Table Img N}
    (ht : ¬Doubled bucket t) :
    step numTokensFromString tableContextSize bucket o t =
      ⟨o.res ++ [((t.img, surround (contextOf numTokensFromString tableContextSize bucket t)
          t.tb.str), t.poss)],
        o.contexts ++ [stripPair (contextOf numTokensFromString tableContextSize bucket t)]⟩ := by
  have hlen : ∀ c : Str × Str, ¬(o.contexts ++ [c]).length < o.res.length + 1 := by
    intro c
    rw [List.length_append, List.length_singleton]
    omega
  cases hc : (t.place bucket).contexts numTokensFromString tableContextSize bucket with
  | none =>
      simp only [step, contextOf, hc, Option.elim_none, Option.map_none, Option.toList_none,
        List.append_nil, if_true, Option.getD_none, if_neg (hlen _)]
  | some c =>
      have hne : ¬t.tb.str = surround c t.tb.str := by
        rw [surround_eq_self, ← doubled_iff hempty hsize hc]
        exact ht
      simp only [step, contextOf, hc, Option.elim_some, Option.map_some, Option.toList_some,
        if_neg hne, Option.getD_some, if_neg (hlen _)]

/-- A table has two pairs, if its place is among empty blocks. -/
theorem step_doubled (o : Out Img N) {t : Table Img N} (ht : Doubled bucket t) :
    o.contexts.length + 2 ≤
      (step numTokensFromString tableContextSize bucket o t).contexts.length := by
  cases hc : (t.place bucket).contexts numTokensFromString tableContextSize bucket with
  | none =>
      have hplace := ht.1
      cases hp : t.place bucket with
      | last page i => rw [hp] at hc; cases hc
      | between page i => rw [hp] at hc; cases hc
      | nowhere page => rw [hp] at hplace; exact absurd rfl hplace
  | some c =>
      have heq : t.tb.str = surround c t.tb.str :=
        surround_eq_self.mpr ((doubled_iff hempty hsize hc).mp ht)
      simp only [step, hc, Option.elim_some, Option.map_some, Option.toList_some, if_pos heq]
      split_ifs
      all_goals
        simp only [List.length_append, List.length_singleton]
        omega

theorem length_step_contexts {o : Out Img N} (ho : o.res.length ≤ o.contexts.length)
    (t : Table Img N) : o.contexts.length + 1 ≤
      (step numTokensFromString tableContextSize bucket o t).contexts.length := by
  by_cases ht : Doubled bucket t
  · have := step_doubled hempty hsize o ht
    omega
  · rw [step_single hempty hsize ho ht, List.length_append]
    exact Nat.le_refl _

omit hempty hsize in
theorem length_step_res (o : Out Img N) (t : Table Img N) :
    (step numTokensFromString tableContextSize bucket o t).res.length = o.res.length + 1 :=
  List.length_append

/-! ### All tables -/

/-- If no table has two pairs, the pairs are those of the tables. -/
theorem foldl_step_single (tabls : List (Table Img N)) (h : ∀ t ∈ tabls, ¬Doubled bucket t)
    (o : Out Img N) (ho : o.res.length ≤ o.contexts.length) :
    tabls.foldl (step numTokensFromString tableContextSize bucket) o =
      ⟨o.res ++ tabls.map (fun t =>
          ((t.img, surround (contextOf numTokensFromString tableContextSize bucket t) t.tb.str),
            t.poss)),
        o.contexts ++ tabls.map (fun t =>
          stripPair (contextOf numTokensFromString tableContextSize bucket t))⟩ := by
  induction tabls generalizing o with
  | nil => simp
  | cons t tabls ih =>
      obtain ⟨ht, htabls⟩ := List.forall_mem_cons.mp h
      rw [List.foldl_cons, step_single hempty hsize ho ht, ih htabls]
      · simp only [List.map_cons, List.append_assoc, List.singleton_append]
      · simp only [List.length_append, List.length_singleton]
        omega

theorem length_foldl_step (tabls : List (Table Img N)) (o : Out Img N)
    (ho : o.res.length ≤ o.contexts.length) : o.contexts.length + tabls.length ≤
      (tabls.foldl (step numTokensFromString tableContextSize bucket) o).contexts.length := by
  induction tabls generalizing o with
  | nil => exact Nat.le_refl _
  | cons t tabls ih =>
      have hstep : o.contexts.length + 1 ≤
          (step numTokensFromString tableContextSize bucket o t).contexts.length :=
        length_step_contexts hempty hsize ho t
      have hrest := ih (step numTokensFromString tableContextSize bucket o t)
        (by rw [length_step_res]; omega)
      rw [List.foldl_cons, List.length_cons]
      omega

/-- If a table has two pairs, there are more pairs than tables. -/
theorem length_foldl_step_doubled {tabls : List (Table Img N)} {t : Table Img N}
    (hmem : t ∈ tabls) (ht : Doubled bucket t) (o : Out Img N)
    (ho : o.res.length ≤ o.contexts.length) : o.contexts.length + tabls.length <
      (tabls.foldl (step numTokensFromString tableContextSize bucket) o).contexts.length := by
  induction tabls generalizing o with
  | nil => exact absurd hmem List.not_mem_nil
  | cons t' tabls ih =>
      have hstep : o.contexts.length + 1 ≤
          (step numTokensFromString tableContextSize bucket o t').contexts.length :=
        length_step_contexts hempty hsize ho t'
      have hres : (step numTokensFromString tableContextSize bucket o t').res.length ≤
          (step numTokensFromString tableContextSize bucket o t').contexts.length := by
        rw [length_step_res]
        omega
      rw [List.foldl_cons, List.length_cons]
      rcases List.mem_cons.mp hmem with rfl | hmem
      · have hdouble := step_doubled hempty hsize o ht
        have hrest := @length_foldl_step _ _ _ _ bucket _ _ hempty hsize tabls _ hres
        omega
      · have hrest := ih hmem _ hres
        omega

end

/-- The pairs are those of the tables in order, and the texts have the contexts of the pairs around
them; the pairs are returned without the white space around the contexts. -/
def Aligned (float : Str → Option N) (numTokensFromString : Str → ℕ) (tableContextSize : ℤ)
    (sections : List (Section N)) (tabls : List (Table Img N)) : Prop :=
  ∃ pairs : List (Str × Str), pairs.length = tabls.length ∧
    appendContext2tableImage4pdf float numTokensFromString tableContextSize sections tabls true =
      some (.contexts (pairs.map stripPair)) ∧
    appendContext2tableImage4pdf float numTokensFromString tableContextSize sections tabls false =
      some (.tables (List.zipWith (fun t c => ((t.img, surround c t.tb.str), t.poss)) tabls pairs))

section
variable (float : Str → Option N) {sections : List (Section N)} {tabls : List (Table Img N)}

/-- With room for contexts, what is returned comes from the loop over the tables. -/
theorem append_eq (hsize : 0 < tableContextSize) (returnContext : Bool) :
    appendContext2tableImage4pdf float numTokensFromString tableContextSize sections tabls
        returnContext =
      (pageBucket float sections).map fun bucket =>
        if returnContext then .contexts
          (tabls.foldl (step numTokensFromString tableContextSize bucket) ⟨[], []⟩).contexts
        else .tables
          (tabls.foldl (step numTokensFromString tableContextSize bucket) ⟨[], []⟩).res := by
  rw [appendContext2tableImage4pdf, if_neg (not_le.mpr hsize), Option.map_eq_bind]
  rfl

include hempty hsize

theorem not_aligned {t : Table Img N} (hbucket : pageBucket float sections = some bucket)
    (hmem : t ∈ tabls) (ht : Doubled bucket t) :
    ¬Aligned float numTokensFromString tableContextSize sections tabls := by
  rintro ⟨pairs, hlen, hcontexts, -⟩
  rw [append_eq float hsize, hbucket] at hcontexts
  have hmore := length_foldl_step_doubled hempty hsize hmem ht ⟨[], []⟩ (Nat.le_refl _)
  have heq := congrArg List.length (Returned.contexts.inj (Option.some.inj hcontexts))
  rw [List.length_map, hlen] at heq
  rw [heq, List.length_nil, Nat.zero_add] at hmore
  exact lt_irrefl _ hmore

theorem aligned_of_single (hbucket : pageBucket float sections = some bucket)
    (htabls : ∀ t ∈ tabls, ¬Doubled bucket t) :
    Aligned float numTokensFromString tableContextSize sections tabls := by
  have hfold := foldl_step_single hempty hsize tabls htabls ⟨[], []⟩ (Nat.le_refl _)
  refine ⟨tabls.map (contextOf numTokensFromString tableContextSize bucket),
    List.length_map _, ?_, ?_⟩
  · rw [append_eq float hsize, hbucket, Option.map_some, hfold, List.map_map]
    rfl
  · rw [append_eq float hsize, hbucket, Option.map_some, hfold, List.zipWith_map_right,
      List.zipWith_self]
    rfl

end

/-- There is one pair for each table exactly if the tags of the sections can be read and no table
has its place among empty blocks. -/
theorem aligned_iff (float : Str → Option N) (numTokensFromString : Str → ℕ)
    (hempty : numTokensFromString [] = 0) (tableContextSize : ℤ) (hsize : 0 < tableContextSize)
    (sections : List (Section N)) (tabls : List (Table Img N)) :
    Aligned float numTokensFromString tableContextSize sections tabls ↔
      ∃ bucket, pageBucket float sections = some bucket ∧ ∀ t ∈ tabls, ¬Doubled bucket t := by
  constructor
  · intro h
    obtain ⟨pairs, -, hcontexts, -⟩ := id h
    rw [append_eq float hsize] at hcontexts
    obtain ⟨bucket, hbucket, -⟩ := Option.map_eq_some_iff.mp hcontexts
    exact ⟨bucket, hbucket, fun t hmem ht => not_aligned hempty hsize float hbucket hmem ht h⟩
  · rintro ⟨bucket, hbucket, htabls⟩
    exact aligned_of_single hempty hsize float hbucket htabls

/-- The numbers of a tag that are written with digits only. -/
def digits (s : Str) : Option ℕ := (int s).map Int.toNat

/-- Texts of one token. -/
def oneToken (s : Str) : ℕ := if s = [] then 0 else 1

def tableAt (page top bottom : ℕ) : Table Unit ℕ :=
  ⟨(), .text ['t'], [⟨page, 0, 9, top, bottom⟩], List.cons_ne_nil _ _⟩

theorem aligned_between :
    Aligned digits oneToken 3
      [.pair ['a'] (.tag "@@1\t0\t9\t0\t5##"), .pair ['b'] (.tag "@@1\t0\t9\t20\t25##")]
      [tableAt 0 8 15] := by
  have hplace : (tableAt 0 8 15).place [(0, ⟨0, 9, 0, 5, ['a']⟩), (0, ⟨0, 9, 20, 25, ['b']⟩)] =
      .between 0 0 := by
    simp [Table.place, tableAt, place, blocks]
  refine (aligned_iff digits oneToken rfl 3 (by decide) _ _).mpr
    ⟨[(0, ⟨0, 9, 0, 5, ['a']⟩), (0, ⟨0, 9, 20, 25, ['b']⟩)], by decide, ?_⟩
  intro t ht h
  rw [List.mem_singleton.mp ht] at h
  have hsilent := h.2.here ⟨0, 9, 0, 5, ['a']⟩ (by rw [hplace]; decide)
  exact absurd hsilent (by decide)

/-- A page with an empty block, and a table: there are two pairs. -/
theorem empty_block_not_aligned :
    ¬Aligned digits oneToken 3 [.pair [] (.tag "@@1\t0\t9\t0\t5##")] [tableAt 0 8 15] := by
  have hplace : (tableAt 0 8 15).place [(0, ⟨0, 9, 0, 5, []⟩)] = .last 0 0 := by
    simp [Table.place, tableAt, place, blocks]
  have hempty : ∀ page, ∀ b ∈ blocks [(0, (⟨0, 9, 0, 5, []⟩ : Block ℕ))] page, b.txt = [] := by
    intro page b hb
    obtain ⟨x, hx, rfl⟩ := List.mem_map.mp hb
    rw [List.mem_singleton.mp (List.mem_of_mem_filter hx)]
  refine @not_aligned _ _ _ _ [(0, ⟨0, 9, 0, 5, []⟩)] _ _ rfl (by decide) digits _ _ _ (by decide)
    List.mem_cons_self ?_
  rw [Doubled, hplace]
  refine ⟨?_, hempty _, fun q _ _ _ => hempty q, fun q _ _ => hempty q⟩
  rintro ⟨⟩

end pairs

end RagFlow.Nlp.Pdf
