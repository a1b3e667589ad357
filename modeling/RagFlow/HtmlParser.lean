import Mathlib.Data.List.TakeWhile
import RagFlow.Joined
import RagFlow.Pages
import RagFlow.PyStr

/-! # Texts of an HTML page

`RAGFlowHtmlParser` collects the texts and tables of a page, merges the texts of a block element and
packs the blocks into chunks.

* **Items.** `readText` goes over the tree of the page.  An item has a text and, inside a block
  element, the id of that element.
* **Blocks.** `mergeBlockText` merges the texts of a block.  `conserved_iff`: all texts are kept
  exactly if no text precedes the first block element.
* **Chunks.** `chunkBlock` packs small blocks and cuts large ones.  `chunkBlock_covers`: the chunks
  cover the blocks in order, but for empty texts at the start of a chunk. -/

namespace RagFlow.Html

open Py Pages Joined

/-! ### Items -/

/-- A node of the tree BeautifulSoup makes. -/
inductive Node where
  | text (s : Str)
  | tag (name : Str) (children : List Node)

/-- What the extraction finds: a table, or a text with the id of the block element it is in. -/
structure Item where
  content : Str
  tag_name : Str
  block_id : Option Str
  content_ne : content ≠ []

/-- BeautifulSoup and the ids of `uuid1`. -/
structure Soup where
  /-- The nodes of `BeautifulSoup(content, "html.parser")`. -/
  parse : Str → List Node
  /-- `html.unescape(str(element))`. -/
  html : Node → Str
  html_ne : ∀ n, html n ≠ []
  uuid : ℕ → Str
  lower : Str → Str

def blockTags : List Str :=
  ["h1".toList, "h2".toList, "h3".toList, "h4".toList, "h5".toList, "h6".toList, "p".toList,
    "div".toList, "article".toList, "section".toList, "aside".toList, "ul".toList, "ol".toList,
    "li".toList, "table".toList, "pre".toList, "code".toList, "blockquote".toList,
    "figure".toList, "figcaption".toList]

/-- `is_valid_html`: the text has a tag. -/
def Soup.isValidHtml (soup : Soup) (content : Str) : Bool :=
  (soup.parse content).any fun n => match n with
    | .tag _ _ => true
    | .text _ => false

/-- `read_text_recursively` to a depth of `fuel` calls: the items in the order in which they are
appended, and the number of ids used so far. -/
def Soup.readText (soup : Soup) : ℕ → Option Str → Option Str → Node → ℕ → Option (List Item × ℕ)
  | 0, _, _, _, _ => none
  | fuel + 1, parent_name, block_id, .text s, ids =>
      if h : strip s = [] then some ([], ids)
      else if soup.isValidHtml (strip s) then
        soup.readText fuel none block_id (.tag "[document]".toList (soup.parse (strip s))) ids
      else some ([⟨strip s, parent_name.getD "inner_text".toList, block_id, h⟩], ids)
  | fuel + 1, _, block_id, .tag name children, ids =>
      if soup.lower name = "table".toList then
        some ([⟨soup.html (.tag name children), "table".toList, none, soup.html_ne _⟩], ids + 1)
      else
        let isBlock := soup.lower name ∈ blockTags
        let block_id := if isBlock then some (soup.uuid ids) else block_id
        children.foldlM
          (fun st child => do
            let (items, ids) ← soup.readText fuel (some name) block_id child st.2
            return (st.1 ++ items, ids))
          ([], if isBlock then ids + 1 else ids)

/-! ### Merging the texts of a block -/

/-- `TITLE_TAGS`. -/
def titleMark (tag_name : Str) : Option Str :=
  if tag_name = "h1".toList then some "#".toList
  else if tag_name = "h2".toList then some "##".toList
  else if tag_name = "h3".toList then some "###".toList
  else if tag_name = "h4".toList then some "#####".toList
  else if tag_name = "h5".toList then some "#####".toList
  else if tag_name = "h6".toList then some "######".toList
  else none

namespace Item

variable (item : Item)

/-- `if block_id`. -/
def hasBlock : Bool :=
  match item.block_id with
  | some id => decide (id ≠ [])
  | none => false

/-- The item goes into the list of tables. -/
def isTable : Bool := !item.hasBlock && decide (item.tag_name = "table".toList)

/-- The text that the item adds to a block: a title in a block element is marked. -/
def rendered : Str :=
  if item.hasBlock then
    match titleMark item.tag_name with
    | some mark => mark ++ [' '] ++ item.content
    | none => item.content
  else item.content

end Item

structure Merging where
  block_content : List Str
  current_content : Str
  table_info_list : List Item
  last_block_id : Option Str

/-- `current_content += (" " if current_content else "") + content`. -/
def addContent (current_content content : Str) : Str :=
  current_content ++ (if current_content ≠ [] then [' '] else []) ++ content

/-- One turn of the loop of `merge_block_text`. -/
def mergeStep (st : Merging) (item : Item) : Merging :=
  if item.hasBlock then
    let content :=
      match titleMark item.tag_name with
      | some mark => mark ++ [' '] ++ item.content
      | none => item.content
    if st.last_block_id ≠ item.block_id then
      { st with
        block_content :=
          if st.last_block_id ≠ none then st.block_content ++ [st.current_content]
          else st.block_content
        current_content := content
        last_block_id := item.block_id }
    else { st with current_content := addContent st.current_content content }
  else if item.tag_name = "table".toList then
    { st with table_info_list := st.table_info_list ++ [item] }
  else { st with current_content := addContent st.current_content item.content }

/-- `merge_block_text`: the texts of the blocks and the tables. -/
def mergeBlockText (parser_result : List Item) : List Str × List Item :=
  let st := parser_result.foldl mergeStep ⟨[], [], [], none⟩
  (if st.current_content ≠ [] then st.block_content ++ [st.current_content] else st.block_content,
    st.table_info_list)

/-- The items that are no tables. -/
def texts (items : List Item) : List Item := items.filter (fun i => !i.isTable)

/-- The text of items that are put together. -/
def blockText (group : List Item) : Str := List.intercalate [' '] (group.map Item.rendered)

/-- All tables are returned in order, and the block texts consist of the texts of all other items,
in order. -/
def Conserved (items : List Item) : Prop :=
  (mergeBlockText items).2 = items.filter Item.isTable ∧
    ∃ groups : List (List Item), (∀ g ∈ groups, g ≠ []) ∧ groups.flatten = texts items ∧
      (mergeBlockText items).1 = groups.map blockText

/-- No text precedes the first block element, or there is no block element. -/
def NoLeadingText (items : List Item) : Prop :=
  (∀ i ∈ items, i.hasBlock = false) ∨ ∀ i ∈ items.takeWhile (fun i => !i.hasBlock), i.isTable

/-! ### The texts that are kept -/

theorem texts_append (items items' : List Item) :
    texts (items ++ items') = texts items ++ texts items' :=
  List.filter_append _ _

theorem rendered_ne (item : Item) : item.rendered ≠ [] := by
  unfold Item.rendered
  split_ifs
  · cases titleMark item.tag_name with
    | none => exact item.content_ne
    | some mark => simp
  · exact item.content_ne

theorem blockText_ne {group : List Item} (h : group ≠ []) : blockText group ≠ [] := by
  cases group with
  | nil => exact absurd rfl h
  | cons i group =>
      unfold blockText
      cases group with
      | nil => simpa using rendered_ne i
      | cons j group =>
          rw [List.map_cons, List.map_cons, List.intercalate_cons_cons]
          simp

/-- A text is added to the block as the last of its group. -/
theorem addContent_blockText (group : List Item) (item : Item) :
    addContent (blockText group) item.rendered = blockText (group ++ [item]) := by
  unfold addContent
  by_cases h : group = []
  · subst h
    simp [blockText]
  · rw [if_pos (blockText_ne h)]
    unfold blockText
    rw [List.map_append, List.map_singleton, intercalate_concat _ (by simpa using h)]

theorem rendered_of_hasBlock {item : Item} (h : item.hasBlock = true) :
    item.rendered = match titleMark item.tag_name with
      | some mark => mark ++ [' '] ++ item.content
      | none => item.content := by
  unfold Item.rendered
  rw [if_pos h]

theorem rendered_of_not_hasBlock {item : Item} (h : item.hasBlock = false) :
    item.rendered = item.content := by
  unfold Item.rendered
  rw [h]
  rfl

/-! ### One turn of the loop -/

/-- Outside block elements a table goes to the tables, and a text to the current block. -/
theorem mergeStep_free (st : Merging) {item : Item} (h : item.hasBlock = false) :
    mergeStep st item =
      if item.isTable then { st with table_info_list := st.table_info_list ++ [item] }
      else { st with current_content := addContent st.current_content item.rendered } := by
  have htable : item.isTable = decide (item.tag_name = "table".toList) := by
    unfold Item.isTable
    rw [h]
    rfl
  unfold mergeStep
  rw [rendered_of_not_hasBlock h, htable, h, if_neg Bool.false_ne_true]
  by_cases hname : item.tag_name = "table".toList
  · rw [if_pos hname, if_pos (decide_eq_true hname)]
  · rw [if_neg hname, if_neg (fun htrue => hname (of_decide_eq_true htrue))]

/-- A text of a block element starts a new block or goes to the current one. -/
theorem mergeStep_block (st : Merging) {item : Item} (h : item.hasBlock = true) :
    mergeStep st item =
      if st.last_block_id ≠ item.block_id then
        { st with
          block_content :=
            if st.last_block_id ≠ none then st.block_content ++ [st.current_content]
            else st.block_content
          current_content := item.rendered
          last_block_id := item.block_id }
      else { st with current_content := addContent st.current_content item.rendered } := by
  unfold mergeStep
  rw [rendered_of_hasBlock h, if_pos h]

theorem texts_cons (item : Item) (items : List Item) :
    texts (item :: items) = (if item.isTable then [] else [item]) ++ texts items := by
  unfold texts
  cases h : item.isTable <;> simp [h]

theorem tables_cons (item : Item) (items : List Item) :
    (item :: items).filter Item.isTable =
      (if item.isTable then [item] else []) ++ items.filter Item.isTable := by
  cases h : item.isTable <;> simp [h]

theorem not_isTable_of_hasBlock {item : Item} (h : item.hasBlock = true) :
    item.isTable = false := by
  unfold Item.isTable
  rw [h]
  rfl

/-- The texts ahead of the first block element come together. -/
theorem foldl_leading (items : List Item) (h : ∀ i ∈ items, i.hasBlock = false)
    (tables group : List Item) :
    items.foldl mergeStep ⟨[], blockText group, tables, none⟩ =
      ⟨[], blockText (group ++ texts items), tables ++ items.filter Item.isTable, none⟩ := by
  induction items generalizing tables group with
  | nil => simp [texts]
  | cons item items ih =>
      have hitem := h item List.mem_cons_self
      have hrest := fun i hi => h i (List.mem_cons_of_mem _ hi)
      rw [List.foldl_cons, mergeStep_free _ hitem, texts_cons, tables_cons]
      by_cases htable : item.isTable
      · rw [if_pos htable, if_pos htable, if_pos htable, ih hrest]
        simp only [List.nil_append, List.append_assoc]
      · rw [if_neg htable, if_neg htable, if_neg htable]
        dsimp only
        rw [addContent_blockText, ih hrest]
        simp only [List.nil_append, List.append_assoc]

/-- From the first block element on every text is kept, in the groups of the blocks. -/
theorem foldl_blocks (items : List Item) (groups : List (List Item)) (group tables : List Item)
    (hgroups : ∀ g ∈ groups, g ≠ []) (hgroup : group ≠ []) (id : Str) :
    ∃ (groups' : List (List Item)) (group' : List Item) (id' : Str),
      (∀ g ∈ groups', g ≠ []) ∧ group' ≠ [] ∧
      groups'.flatten ++ group' = groups.flatten ++ group ++ texts items ∧
      items.foldl mergeStep ⟨groups.map blockText, blockText group, tables, some id⟩ =
        ⟨groups'.map blockText, blockText group', tables ++ items.filter Item.isTable,
          some id'⟩ := by
  induction items generalizing groups group tables id with
  | nil => exact ⟨groups, group, id, hgroups, hgroup, by simp [texts], by simp⟩
  | cons item items ih =>
      rw [List.foldl_cons, texts_cons, tables_cons]
      cases hblock : item.hasBlock with
      | false =>
          rw [mergeStep_free _ hblock]
          by_cases htable : item.isTable
          · rw [if_pos htable, if_pos htable, if_pos htable]
            obtain ⟨gs, g, id', h1, h2, h3, h4⟩ :=
              ih groups group (tables ++ [item]) hgroups hgroup id
            exact ⟨gs, g, id', h1, h2, by simpa using h3, by simpa using h4⟩
          · rw [if_neg htable, if_neg htable, if_neg htable]
            dsimp only
            rw [addContent_blockText]
            obtain ⟨gs, g, id', h1, h2, h3, h4⟩ :=
              ih groups (group ++ [item]) tables hgroups (by simp) id
            exact ⟨gs, g, id', h1, h2, by simpa using h3, by simpa using h4⟩
      | true =>
          have htable := not_isTable_of_hasBlock hblock
          rw [mergeStep_block _ hblock, htable]
          dsimp only
          by_cases hsame : some id = item.block_id
          · rw [if_neg (not_not_intro hsame), addContent_blockText]
            obtain ⟨gs, g, id', h1, h2, h3, h4⟩ :=
              ih groups (group ++ [item]) tables hgroups (by simp) id
            exact ⟨gs, g, id', h1, h2, by simpa using h3, by simpa using h4⟩
          · -- the current block is closed
            obtain ⟨id₂, hid₂⟩ : ∃ id₂, item.block_id = some id₂ := by
              unfold Item.hasBlock at hblock
              cases hid : item.block_id with
              | none => rw [hid] at hblock; cases hblock
              | some id₂ => exact ⟨id₂, rfl⟩
            rw [if_pos hsame, if_pos (Option.some_ne_none id), hid₂]
            have hone : item.rendered = blockText [item] := by simp [blockText]
            have hmap : groups.map blockText ++ [blockText group] =
                (groups ++ [group]).map blockText := by simp
            rw [hone, hmap]
            obtain ⟨gs, g, id', h1, h2, h3, h4⟩ := ih (groups ++ [group]) [item] tables (by
              intro g hg
              rcases List.mem_append.mp hg with hg | hg
              · exact hgroups g hg
              · rw [List.mem_singleton.mp hg]
                exact hgroup) (by simp) id₂
            exact ⟨gs, g, id', h1, h2, by simpa using h3, by simpa using h4⟩

/-! ### Which texts are kept -/

/-- The texts that the blocks are made of: those from the first block element on, all if there is
none. -/
def kept (items : List Item) : List Item :=
  if items.any Item.hasBlock then texts (items.dropWhile (fun i => !i.hasBlock)) else texts items

/-- The first block element. -/
theorem exists_first_block {items : List Item} (h : items.any Item.hasBlock = true) :
    ∃ lead b rest, items = lead ++ b :: rest ∧ (∀ i ∈ lead, i.hasBlock = false) ∧
      b.hasBlock = true ∧ items.dropWhile (fun i => !i.hasBlock) = b :: rest := by
  have hsplit := List.takeWhile_append_dropWhile (p := fun i : Item => !i.hasBlock) (l := items)
  have hlead : ∀ i ∈ items.takeWhile (fun i => !i.hasBlock), i.hasBlock = false := by
    intro i hi
    simpa using List.mem_takeWhile_imp hi
  cases hrest : items.dropWhile (fun i => !i.hasBlock) with
  | nil =>
      rw [hrest, List.append_nil] at hsplit
      obtain ⟨i, hi, hblock⟩ := List.any_eq_true.mp h
      rw [← hsplit] at hi
      rw [hlead i hi] at hblock
      cases hblock
  | cons b rest =>
      have hb := List.head?_dropWhile_not (fun i : Item => !i.hasBlock) items
      rw [hrest] at hb hsplit
      exact ⟨_, b, rest, hsplit.symm, hlead, by simpa using hb, rfl⟩

theorem mergeBlockText_spec (items : List Item) :
    (mergeBlockText items).2 = items.filter Item.isTable ∧
      ∃ groups : List (List Item), (∀ g ∈ groups, g ≠ []) ∧ groups.flatten = kept items ∧
        (mergeBlockText items).1 = groups.map blockText := by
  unfold mergeBlockText kept
  dsimp only
  by_cases hany : items.any Item.hasBlock = true
  · rw [if_pos hany]
    obtain ⟨lead, b, rest, hitems, hlead, hb, hdrop⟩ := exists_first_block hany
    rw [hdrop]
    subst hitems
    obtain ⟨id, hid⟩ : ∃ id, b.block_id = some id := by
      unfold Item.hasBlock at hb
      cases hid : b.block_id with
      | none => rw [hid] at hb; cases hb
      | some id => exact ⟨id, rfl⟩
    have hone : b.rendered = blockText [b] := by simp [blockText]
    obtain ⟨gs, g, id', h1, h2, h3, h4⟩ := foldl_blocks rest [] [b]
      (lead.filter Item.isTable) (by simp) (by simp) id
    have hfold : (lead ++ b :: rest).foldl mergeStep ⟨[], [], [], none⟩ =
        ⟨gs.map blockText, blockText g,
          lead.filter Item.isTable ++ rest.filter Item.isTable, some id'⟩ := by
      have hstart := foldl_leading lead hlead [] []
      rw [show blockText [] = [] by rfl] at hstart
      rw [List.foldl_append, hstart, List.foldl_cons, mergeStep_block _ hb, hid,
        if_pos (Option.some_ne_none id).symm, hone]
      simpa using h4
    rw [hfold, if_pos (blockText_ne h2)]
    refine ⟨?_, gs ++ [g], ?_, ?_, ?_⟩
    · rw [List.filter_append, tables_cons, not_isTable_of_hasBlock hb]
      simp
    · intro g' hg'
      rcases List.mem_append.mp hg' with hg' | hg'
      · exact h1 g' hg'
      · rw [List.mem_singleton.mp hg']
        exact h2
    · rw [texts_cons, not_isTable_of_hasBlock hb]
      simpa using h3
    · simp
  · rw [if_neg hany]
    have hfree : ∀ i ∈ items, i.hasBlock = false := by
      intro i hi
      by_contra h
      exact hany (List.any_eq_true.mpr ⟨i, hi, by simpa using h⟩)
    have hfold := foldl_leading items hfree [] []
    rw [show blockText [] = [] by rfl] at hfold
    rw [hfold]
    refine ⟨by simp, ?_⟩
    rw [List.nil_append]
    by_cases htexts : texts items = []
    · exact ⟨[], by simp, by simp [htexts], by simp [htexts, blockText]⟩
    · refine ⟨[texts items], by simpa using htexts, by simp, ?_⟩
      rw [if_pos (blockText_ne htexts)]
      rfl

/-- No text is dropped exactly if none precedes the first block element. -/
theorem kept_eq_iff (items : List Item) : kept items = texts items ↔ NoLeadingText items := by
  unfold kept NoLeadingText
  have hsplit := List.takeWhile_append_dropWhile (p := fun i : Item => !i.hasBlock) (l := items)
  have hlead : texts (items.takeWhile (fun i => !i.hasBlock)) = [] ↔
      ∀ i ∈ items.takeWhile (fun i => !i.hasBlock), i.isTable := by
    unfold texts
    rw [List.filter_eq_nil_iff]
    simp
  by_cases hany : items.any Item.hasBlock = true
  · rw [if_pos hany]
    have hsome : ¬ ∀ i ∈ items, i.hasBlock = false := by
      intro h
      obtain ⟨i, hi, hblock⟩ := List.any_eq_true.mp hany
      rw [h i hi] at hblock
      cases hblock
    rw [or_iff_right hsome, ← hlead]
    have htexts : texts items = texts (items.takeWhile (fun i => !i.hasBlock)) ++
        texts (items.dropWhile (fun i => !i.hasBlock)) := by
      rw [← texts_append, hsplit]
    rw [htexts]
    constructor
    · intro h
      simpa using h
    · intro h
      rw [h, List.nil_append]
  · rw [if_neg hany]
    refine iff_of_true rfl (Or.inl ?_)
    intro i hi
    by_contra h
    exact hany (List.any_eq_true.mpr ⟨i, hi, by simpa using h⟩)

/-- The texts and one separator for each. -/
theorem width_blockTexts {groups : List (List Item)} (h : ∀ g ∈ groups, g ≠ []) :
    width [' '] (groups.map blockText) = width [' '] (groups.flatten.map Item.rendered) := by
  have hmap := @width_map_intercalate Char [' '] (groups.map (List.map Item.rendered)) (by
    intro g hg
    obtain ⟨g', hg', rfl⟩ := List.mem_map.mp hg
    simpa using h g' hg')
  rw [List.map_map, ← List.map_flatten] at hmap
  exact hmap

theorem conserved_of_noLeadingText {items : List Item} (h : NoLeadingText items) :
    Conserved items := by
  obtain ⟨htables, groups, hne, hflat, hblocks⟩ := mergeBlockText_spec items
  exact ⟨htables, groups, hne, hflat.trans ((kept_eq_iff items).mpr h), hblocks⟩

theorem noLeadingText_of_conserved {items : List Item} (h : Conserved items) :
    NoLeadingText items := by
  obtain ⟨-, groups, hne, hflat, hblocks⟩ := h
  obtain ⟨-, groups', hne', hflat', hblocks'⟩ := mergeBlockText_spec items
  -- the block texts are as long as all texts together, and as long as the kept ones
  have hwidth : width [' '] ((texts items).map Item.rendered) =
      width [' '] ((kept items).map Item.rendered) := by
    rw [← hflat, ← hflat', ← width_blockTexts hne, ← width_blockTexts hne', ← hblocks, ← hblocks']
  have hsub : (kept items).Sublist (texts items) := by
    unfold kept
    split_ifs
    · exact (List.dropWhile_sublist _).filter _
    · exact List.Sublist.refl _
  rw [← kept_eq_iff]
  by_contra hlost
  have hlen : (kept items).length < (texts items).length := by
    refine lt_of_le_of_ne hsub.length_le (fun h => hlost (hsub.eq_of_length h))
  have hlt := width_lt_of_sublist [' '] (by simp) (hsub.map Item.rendered) (by simpa using hlen)
  omega

/-- The texts are conserved exactly if no text precedes the first block element. -/
theorem conserved_iff (items : List Item) : Conserved items ↔ NoLeadingText items :=
  ⟨noLeadingText_of_conserved, conserved_of_noLeadingText⟩

/-- `hello<p>world</p>`: a text in the body ahead of a paragraph. -/
def helloWorld : Item × Item :=
  (⟨"hello".toList, "body".toList, none, by decide⟩,
    ⟨"world".toList, "p".toList, some "id".toList, by decide⟩)

/-- A page without markup in its texts. -/
def plainSoup : Soup where
  parse content := [.text content]
  html _ := "<table></table>".toList
  html_ne _ := by decide
  uuid _ := "id".toList
  lower s := s

example : (plainSoup.readText 5 none none (.tag "body".toList
    [.text "hello".toList, .tag "p".toList [.text "world".toList]]) 0).map Prod.fst =
      some [helloWorld.1, helloWorld.2] := by rfl

/-- The first text is overwritten. -/
theorem helloWorld_lost :
    mergeBlockText [helloWorld.1, helloWorld.2] = (["world".toList], []) ∧
      ¬ Conserved [helloWorld.1, helloWorld.2] := by
  refine ⟨by rfl, ?_⟩
  intro h
  rcases noLeadingText_of_conserved h with hfree | htable
  · have hblock := hfree helloWorld.2 (by simp)
    exact absurd hblock (by decide)
  · have hlead := htable helloWorld.1 (by
      rw [List.takeWhile_cons_of_pos (by decide)]
      exact List.mem_cons_self)
    exact absurd hlead (by decide)

/-! ### Chunks -/

/-- The tokens of a block. -/
def tokensOf (tokenize : Str → Str) (block : Str) : List Str :=
  if tokenize block ≠ [] then splitSep [' '] (tokenize block) else []

/-- The loop over the tokens of a large block. -/
def cutTokens (chunk_token_num : ℕ) (h : 1 ≤ chunk_token_num) (tokens : List Str) (start : ℕ) :
    List Str :=
  if start < tokens.length then
    List.intercalate [' '] ((tokens.drop start).take chunk_token_num) ::
      cutTokens chunk_token_num h tokens (start + chunk_token_num)
  else []
termination_by tokens.length - start

structure Packing where
  chunks : List Str
  current_block : Str
  current_token_count : ℕ

/-- One turn of the loop of `chunk_block`. -/
def packStep (tokenize : Str → Str) (chunk_token_num : ℕ) (h : 1 ≤ chunk_token_num) (st : Packing)
    (block : Str) : Packing :=
  let tokens := tokensOf tokenize block
  let block_token_count := tokens.length
  if block_token_count > chunk_token_num then
    { chunks :=
        (if st.current_block ≠ [] then st.chunks ++ [st.current_block] else st.chunks) ++
          cutTokens chunk_token_num h tokens 0
      current_block := []
      current_token_count := 0 }
  else if st.current_token_count + block_token_count ≤ chunk_token_num then
    { st with
      current_block := st.current_block ++ (if st.current_block ≠ [] then ['\n'] else []) ++ block
      current_token_count := st.current_token_count + block_token_count }
  else
    { chunks := st.chunks ++ [st.current_block]
      current_block := block
      current_token_count := block_token_count }

/-- `chunk_block`. -/
def chunkBlock (tokenize : Str → Str) (block_txt_list : List Str) (chunk_token_num : ℕ)
    (h : 1 ≤ chunk_token_num) : List Str :=
  let st := block_txt_list.foldl (packStep tokenize chunk_token_num h) ⟨[], [], 0⟩
  if st.current_block ≠ [] then st.chunks ++ [st.current_block] else st.chunks

/-- What chunks are made of: consecutive blocks that are packed, or a large block that is cut into
runs of tokens. -/
inductive Piece where
  | packed (blocks : List Str)
  | cut (block : Str) (runs : List (List Str))

namespace Piece

def blocks : Piece → List Str
  | packed bs => bs
  | cut b _ => [b]

/-- The chunks of a piece. -/
def chunks : Piece → List Str
  | packed bs => [List.intercalate ['\n'] bs]
  | cut _ runs => runs.map (List.intercalate [' '])

/-- The token counts of packed blocks sum to at most the limit; a block that is cut exceeds it, and
its runs have its tokens in order, none more than the limit. -/
def Valid (tokenize : Str → Str) (limit : ℕ) : Piece → Prop
  | packed bs => bs ≠ [] ∧ (bs.map (fun b => (tokensOf tokenize b).length)).sum ≤ limit
  | cut b runs => limit < (tokensOf tokenize b).length ∧ runs.flatten = tokensOf tokenize b ∧
      ∀ run ∈ runs, 1 ≤ run.length ∧ run.length ≤ limit

/-- The chunks of a piece when empty texts at its start are left out: a piece without any other text
has an empty chunk or none. -/
def Emits : Piece → List Str → Prop
  | packed bs, cs =>
      let text := List.intercalate ['\n'] (bs.dropWhile (· = []))
      cs = [text] ∨ text = [] ∧ cs = []
  | cut _ runs, cs => cs = runs.map (List.intercalate [' '])

end Piece

/-- The chunks are those of pieces that cover the blocks once and in order. -/
def Covers (tokenize : Str → Str) (limit : ℕ) (blocks chunks : List Str) : Prop :=
  ∃ pieces : List Piece, pieces.flatMap Piece.blocks = blocks ∧
    (∀ p ∈ pieces, p.Valid tokenize limit) ∧ chunks = pieces.flatMap Piece.chunks

/-- The same but for empty texts at the start of a piece. -/
def CoversUpToEmpty (tokenize : Str → Str) (limit : ℕ) (blocks chunks : List Str) : Prop :=
  ∃ pieces : List (Piece × List Str), pieces.flatMap (fun p => p.1.blocks) = blocks ∧
    (∀ p ∈ pieces, p.1.Valid tokenize limit ∧ p.1.Emits p.2) ∧ chunks = pieces.flatMap Prod.snd

/-! ### The pieces -/

section pieces

variable {tokenize : Str → Str} {limit : ℕ}

theorem cutTokens_spec (h : 1 ≤ limit) (tokens : List Str) (start : ℕ) :
    ∃ runs : List (List Str), cutTokens limit h tokens start = runs.map (List.intercalate [' ']) ∧
      runs.flatten = tokens.drop start ∧ ∀ run ∈ runs, 1 ≤ run.length ∧ run.length ≤ limit := by
  induction start using cutTokens.induct limit h tokens with
  | case1 start hlt ih =>
      obtain ⟨runs, hcut, hflat, hsize⟩ := ih
      refine ⟨(tokens.drop start).take limit :: runs, ?_, ?_, ?_⟩
      · rw [cutTokens, if_pos hlt, hcut, List.map_cons]
      · rw [List.flatten_cons, hflat, ← List.drop_drop, List.take_append_drop]
      · intro run hrun
        rcases List.mem_cons.mp hrun with rfl | hrun
        · rw [List.length_take, List.length_drop]
          omega
        · exact hsize run hrun
  | case2 start hge =>
      refine ⟨[], ?_, ?_, by simp⟩
      · rw [cutTokens, if_neg hge]
        rfl
      · rw [List.drop_of_length_le (by omega)]
        rfl

/-- The text of blocks that are packed, without the empty texts at the start. -/
def packedText (blocks : List Str) : Str := List.intercalate ['\n'] (blocks.dropWhile (· = []))

theorem packedText_of_dropWhile {blocks : List Str} {b : Str} {rest : List Str}
    (h : blocks.dropWhile (· = []) = b :: rest) : packedText blocks ≠ [] := by
  have hb : b ≠ [] := by
    have := List.head?_dropWhile_not (fun b : Str => decide (b = [])) blocks
    rw [h] at this
    simpa using this
  unfold packedText
  rw [h]
  cases rest with
  | nil => simpa using hb
  | cons c rest =>
      rw [List.intercalate_cons_cons]
      simp [hb]

/-- A small block is added to the text. -/
theorem packedText_concat (blocks : List Str) (block : Str) :
    packedText blocks ++ (if packedText blocks ≠ [] then ['\n'] else []) ++ block =
      packedText (blocks ++ [block]) := by
  cases h : blocks.dropWhile (· = []) with
  | nil =>
      have htext : packedText blocks = [] := by
        unfold packedText
        rw [h]
        rfl
      rw [htext, if_neg (by simp)]
      unfold packedText
      rw [List.dropWhile_append, h]
      by_cases hblock : block = [] <;> simp [hblock]
  | cons b rest =>
      rw [if_pos (packedText_of_dropWhile h)]
      unfold packedText
      rw [List.dropWhile_append, h, ← intercalate_concat _ (List.cons_ne_nil b rest)]
      rfl

/-- The pieces before the current block, and the blocks it is packed from. -/
structure Packed (tokenize : Str → Str) (limit : ℕ) (read : List Str) (st : Packing)
    (pieces : List (Piece × List Str)) (group : List Str) : Prop where
  blocks : pieces.flatMap (fun p => p.1.blocks) ++ group = read
  valid : ∀ p ∈ pieces, p.1.Valid tokenize limit ∧ p.1.Emits p.2
  chunks : st.chunks = pieces.flatMap Prod.snd
  text : st.current_block = packedText group
  count : st.current_token_count = (group.map (fun b => (tokensOf tokenize b).length)).sum
  small : st.current_token_count ≤ limit

theorem valid_concat {pieces : List (Piece × List Str)} {piece : Piece} {out : List Str}
    (h : ∀ p ∈ pieces, p.1.Valid tokenize limit ∧ p.1.Emits p.2)
    (hvalid : piece.Valid tokenize limit) (hout : piece.Emits out) :
    ∀ p ∈ pieces ++ [(piece, out)], p.1.Valid tokenize limit ∧ p.1.Emits p.2 := by
  intro p hp
  rcases List.mem_append.mp hp with hp | hp
  · exact h p hp
  · rw [List.mem_singleton.mp hp]
    exact ⟨hvalid, hout⟩

/-- Packed blocks are a piece. -/
theorem Packed.valid_group {read : List Str} {st : Packing} {pieces : List (Piece × List Str)}
    {group : List Str} (h : Packed tokenize limit read st pieces group) (hne : group ≠ []) :
    (Piece.packed group).Valid tokenize limit :=
  ⟨hne, by rw [← h.count]; exact h.small⟩

/-- The current blocks become a piece, with a chunk or, for empty texts, without. -/
theorem Packed.close {read : List Str} {st : Packing} {pieces : List (Piece × List Str)}
    {group : List Str} (h : Packed tokenize limit read st pieces group) :
    ∃ pieces' : List (Piece × List Str), pieces'.flatMap (fun p => p.1.blocks) = read ∧
      (∀ p ∈ pieces', p.1.Valid tokenize limit ∧ p.1.Emits p.2) ∧
      (if st.current_block ≠ [] then st.chunks ++ [st.current_block] else st.chunks) =
        pieces'.flatMap Prod.snd := by
  by_cases hgroup : group = []
  · subst hgroup
    have htext : st.current_block = [] := h.text
    refine ⟨pieces, by simpa using h.blocks, h.valid, ?_⟩
    rw [if_neg (by rw [htext]; simp)]
    exact h.chunks
  · refine ⟨pieces ++ [(.packed group, if st.current_block ≠ [] then [st.current_block] else [])],
      ?_, ?_, ?_⟩
    · rw [List.flatMap_append, ← h.blocks]
      simp [Piece.blocks]
    · refine valid_concat h.valid (h.valid_group hgroup) ?_
      by_cases htext : st.current_block = []
      · refine Or.inr ⟨?_, ?_⟩
        · rw [h.text] at htext
          exact htext
        · rw [if_neg (not_not_intro htext)]
      · refine Or.inl ?_
        rw [if_pos htext, h.text]
        rfl
    · rw [List.flatMap_append, h.chunks]
      by_cases htext : st.current_block = [] <;> simp [htext]

/-- What one block does: a large one closes the current piece and is cut, a small one is added or
starts the next piece. -/
theorem Packed.step (hlimit : 1 ≤ limit) {read : List Str} {st : Packing}
    {pieces : List (Piece × List Str)} {group : List Str}
    (h : Packed tokenize limit read st pieces group) (block : Str) :
    ∃ pieces' group', Packed tokenize limit (read ++ [block])
      (packStep tokenize limit hlimit st block) pieces' group' := by
  unfold packStep
  dsimp only
  by_cases hlarge : (tokensOf tokenize block).length > limit
  · rw [if_pos hlarge]
    obtain ⟨pieces', hblocks, hvalid, hchunks⟩ := h.close
    obtain ⟨runs, hcut, hflat, hsize⟩ := cutTokens_spec hlimit (tokensOf tokenize block) 0
    refine ⟨pieces' ++ [(.cut block runs, runs.map (List.intercalate [' ']))], [], ?_⟩
    constructor
    · rw [List.flatMap_append, hblocks]
      simp [Piece.blocks]
    · exact valid_concat hvalid ⟨hlarge, by simpa using hflat, hsize⟩ rfl
    · show _ ++ cutTokens limit hlimit (tokensOf tokenize block) 0 = _
      rw [hchunks, hcut, List.flatMap_append]
      simp
    · rfl
    · rfl
    · exact Nat.zero_le _
  rw [if_neg hlarge]
  by_cases hfits : st.current_token_count + (tokensOf tokenize block).length ≤ limit
  · rw [if_pos hfits]
    refine ⟨pieces, group ++ [block], ?_⟩
    constructor
    · rw [← List.append_assoc, h.blocks]
    · exact h.valid
    · exact h.chunks
    · show _ = packedText (group ++ [block])
      rw [← packedText_concat, h.text]
    · show st.current_token_count + (tokensOf tokenize block).length = _
      rw [h.count]
      simp
    · exact hfits
  · rw [if_neg hfits]
    have hne : group ≠ [] := by
      rintro rfl
      have hzero : st.current_token_count = 0 := h.count
      omega
    refine ⟨pieces ++ [(.packed group, [st.current_block])], [block], ?_⟩
    constructor
    · rw [List.flatMap_append, ← h.blocks]
      simp [Piece.blocks]
    · refine valid_concat h.valid (h.valid_group hne) (Or.inl ?_)
      rw [h.text]
      rfl
    · show st.chunks ++ [st.current_block] = _
      rw [h.chunks, List.flatMap_append]
      simp
    · show block = packedText [block]
      by_cases hblock : block = [] <;> simp [packedText, hblock]
    · simp
    · show (tokensOf tokenize block).length ≤ limit
      omega

theorem Packed.run (hlimit : 1 ≤ limit) (blocks : List Str) {read : List Str} {st : Packing}
    {pieces : List (Piece × List Str)} {group : List Str}
    (h : Packed tokenize limit read st pieces group) :
    ∃ pieces' group', Packed tokenize limit (read ++ blocks)
      (blocks.foldl (packStep tokenize limit hlimit) st) pieces' group' := by
  induction blocks generalizing read st pieces group with
  | nil => exact ⟨pieces, group, by simpa using h⟩
  | cons block blocks ih =>
      obtain ⟨pieces₁, group₁, h₁⟩ := h.step hlimit block
      obtain ⟨pieces₂, group₂, h₂⟩ := ih h₁
      exact ⟨pieces₂, group₂, by simpa using h₂⟩

theorem chunkBlock_coversUpToEmpty (hlimit : 1 ≤ limit) (blocks : List Str) :
    CoversUpToEmpty tokenize limit blocks (chunkBlock tokenize blocks limit hlimit) := by
  have hstart : Packed tokenize limit [] ⟨[], [], 0⟩ [] [] :=
    ⟨rfl, by simp, rfl, rfl, rfl, Nat.zero_le _⟩
  obtain ⟨pieces, group, h⟩ := hstart.run hlimit blocks
  obtain ⟨pieces', hblocks, hvalid, hchunks⟩ := h.close
  exact ⟨pieces', hblocks, hvalid, hchunks⟩

/-- Without empty texts nothing is left out. -/
theorem CoversUpToEmpty.covers {blocks chunks : List Str}
    (h : CoversUpToEmpty tokenize limit blocks chunks) (hne : ∀ b ∈ blocks, b ≠ []) :
    Covers tokenize limit blocks chunks := by
  obtain ⟨pieces, hblocks, hvalid, hchunks⟩ := h
  refine ⟨pieces.map Prod.fst, ?_, ?_, ?_⟩
  · rw [List.flatMap_map]
    exact hblocks
  · intro p hp
    obtain ⟨q, hq, rfl⟩ := List.mem_map.mp hp
    exact (hvalid q hq).1
  · rw [hchunks, List.flatMap_map]
    refine List.flatMap_congr (fun q hq => ?_)
    obtain ⟨hval, hemit⟩ := hvalid q hq
    obtain ⟨p, cs⟩ := q
    cases p with
    | packed bs =>
        -- the first of the blocks is not empty
        have hdrop : bs.dropWhile (· = []) = bs := by
          cases bs with
          | nil => rfl
          | cons b bs =>
              have hb : b ≠ [] := by
                refine hne b ?_
                rw [← hblocks, List.mem_flatMap]
                exact ⟨_, hq, by simp [Piece.blocks]⟩
              rw [List.dropWhile_cons_of_neg (by simpa using hb)]
        have htext : packedText bs ≠ [] := by
          obtain ⟨hbs, -⟩ := hval
          obtain ⟨b, rest, heq⟩ := List.exists_cons_of_ne_nil hbs
          exact packedText_of_dropWhile (hdrop.trans heq)
        rcases hemit with hcs | ⟨hnil, -⟩
        · show cs = [List.intercalate ['\n'] bs]
          rw [hdrop] at hcs
          exact hcs
        · exact absurd hnil htext
    | cut b runs => exact hemit

end pieces

/-- The chunks are the newline-joins of consecutive small blocks and the runs of tokens of the large
blocks, but for empty texts at the start of a chunk. -/
theorem chunkBlock_covers (tokenize : Str → Str) (blocks : List Str) {limit : ℕ}
    (hlimit : 1 ≤ limit) :
    CoversUpToEmpty tokenize limit blocks (chunkBlock tokenize blocks limit hlimit) ∧
      ((∀ b ∈ blocks, b ≠ []) →
        Covers tokenize limit blocks (chunkBlock tokenize blocks limit hlimit)) := by
  refine ⟨chunkBlock_coversUpToEmpty hlimit blocks, ?_⟩
  intro hne
  exact (chunkBlock_coversUpToEmpty hlimit blocks).covers hne

theorem chunkBlock_covers_three :
    1 ≤ 2 ∧ Covers id 2 ["a".toList, "b".toList, "c d e".toList]
      (chunkBlock id ["a".toList, "b".toList, "c d e".toList] 2 (by decide)) :=
  ⟨by decide, (chunkBlock_covers id ["a".toList, "b".toList, "c d e".toList] (by decide)).2
    (by decide)⟩

/-- An empty text ahead of another: the chunk is that of the other alone. -/
theorem chunkBlock_not_covers :
    chunkBlock id [[], "a".toList] 1 (by decide) = ["a".toList] ∧
      ¬ Covers id 1 [[], "a".toList] (chunkBlock id [[], "a".toList] 1 (by decide)) := by
  have hout : chunkBlock id [[], "a".toList] 1 (by decide) = ["a".toList] := by rfl
  refine ⟨hout, ?_⟩
  rw [hout]
  rintro ⟨pieces, hblocks, hvalid, hchunks⟩
  -- no block exceeds the limit, so all pieces are packed, and each has one chunk
  have hpacked : ∀ p ∈ pieces, ∃ bs, p = .packed bs := by
    intro p hp
    cases p with
    | packed bs => exact ⟨bs, rfl⟩
    | cut b runs =>
        exfalso
        have hlarge := (hvalid _ hp).1
        have hb : b ∈ [[], "a".toList] := by
          rw [← hblocks, List.mem_flatMap]
          exact ⟨_, hp, by simp [Piece.blocks]⟩
        rcases List.mem_cons.mp hb with rfl | hb
        · exact absurd hlarge (by decide)
        · rw [List.mem_singleton.mp hb] at hlarge
          exact absurd hlarge (by decide)
  cases pieces with
  | nil => cases hchunks
  | cons p pieces =>
      obtain ⟨bs, rfl⟩ := hpacked p List.mem_cons_self
      cases pieces with
      | nil =>
          have hbs : bs = [[], "a".toList] := by simpa [Piece.blocks] using hblocks
          subst hbs
          exact absurd hchunks (by decide)
      | cons p' pieces =>
          obtain ⟨bs', rfl⟩ := hpacked p' (by simp)
          have hlen := congrArg List.length hchunks
          simp [Piece.chunks] at hlen

end RagFlow.Html
