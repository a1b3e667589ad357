import Mathlib.Data.List.Nodup
import RagFlow.SinglePop
import RagFlow.TreeMerge

/-! # Merging sections under their titles

`hierarchical_merge` of `rag/nlp/__init__.py` gives a section the titles before it, level by level,
and packs the groups that result.

* **Title search.** In each level the closest section before is found by `binary_search`
  (`binarySearch_spec`).  A title that is farther than one of a higher level is dropped again, but
  only the last one is looked at; so the group is a stack with single pops (`titleSearch_eq`).
* **Order.** `groups_inOrder_iff`: the groups are in the order of the sections, with the titles that
  are not cut off, exactly when no title cuts off two at once.
* **Errors.** `merge_ok_iff`: `tree_merge` and `hierarchical_merge` return a list exactly when there
  are no bullets or a section is kept. -/

namespace RagFlow.Nlp.Headings

open Py

/-! ### `hierarchical_merge` -/

/-- The section `s` with the index `i` in the list of its level. -/
def addIndex (patterns : List Re) (levels : List (List ℕ)) (x : (Str × Str) × ℕ) : List (List ℕ) :=
  levels.modify (sectionLevel patterns (strip x.1.1) x.1.1 x.1.2) (· ++ [x.2])

/-- The indices of the sections of each level, the highest level first. -/
def headingLevels (bull : ℤ) (sections : List (Str × Str)) : Except Err (List (List ℕ)) := do
  let patterns ← item bulletPattern bull
  return sections.zipIdx.foldl (addIndex patterns) (List.replicate (patterns.length + 2) [])

/-- The loop of `binary_search`; every turn makes the interval shorter, so `e - s` turns do. -/
def binarySearchLoop (arr : List ℕ) (target : ℕ) : ℕ → ℕ → ℕ → Except Err ℤ
  | 0, s, _ => .ok s
  | turns + 1, s, e =>
      if 1 < e - s then do
        let i := (e + s) / 2
        let x ← item arr i
        if x < target then binarySearchLoop arr target turns i e
        else if target < x then binarySearchLoop arr target turns s i
        else .error .assertionError
      else .ok s

def binarySearch (arr : List ℕ) (target : ℕ) : Except Err ℤ :=
  if arr.isEmpty then .ok (-1)
  else do
    let last ← item arr (-1)
    if last < target then return arr.length - 1
    else
      let first ← item arr 0
      if target < first then return -1
      else binarySearchLoop arr target arr.length 0 arr.length

/-- The title of the level `arr` in the group `ck` of the section `j`. -/
def addTitle (j : ℕ) (ck arr : List ℕ) : Except Err (List ℕ) := do
  let jj ← binarySearch arr j
  if jj < 0 then return ck
  else
    let title ← item arr jj
    let last ← item ck (-1)
    return (if last < title then ck.dropLast else ck) ++ [title]

/-- `readed[j] = True`. -/
def setRead (readed : List Bool) (j : ℕ) : Except Err (List Bool) :=
  if j < readed.length then .ok (readed.set j true) else .error .indexError

structure Groups where
  cks : List (List ℕ)
  readed : List Bool

/-- The section `j` of the level `i`, the levels being reversed. -/
def addGroup (levels : List (List ℕ)) (st : Groups) (x : ℕ × ℕ) : Except Err Groups := do
  let (i, j) := x
  let isRead ← item st.readed j
  if isRead then return st
  else
    let readed ← setRead st.readed j
    if i + 1 = levels.length - 1 then return ⟨st.cks ++ [[j]], readed⟩
    else
      let ck ← (levels.drop (i + 1)).foldlM (addTitle j) [j]
      let readed ← ck.foldlM setRead readed
      return ⟨st.cks ++ [ck], readed⟩

/-- `xs[:d]`. -/
def upTo {α : Type} (xs : List α) (d : ℤ) : List α :=
  xs.take (if d < 0 then d + xs.length else d).toNat

/-- The levels and sections the two loops go through. -/
def visits (levels : List (List ℕ)) (depth : ℤ) : List (ℕ × ℕ) :=
  (upTo levels depth).zipIdx.flatMap fun x => x.1.map fun j => (x.2, j)

/-- The groups, each with its section first. -/
def titleGroups (levels : List (List ℕ)) (depth : ℤ) (size : ℕ) : Except Err (List (List ℕ)) := do
  let st ← (visits levels depth).foldlM (addGroup levels) ⟨[], List.replicate size false⟩
  return st.cks

/-- `re.sub(r"@@[0-9]+.*", "", s)`; after `skip` the rest of a line is left out. -/
def withoutTags (skip : Bool) : Str → Str
  | [] => []
  | c :: s =>
      if skip ∧ c ≠ '\n' then withoutTags true s
      else if (Re.seq (.lit "@@".toList) (.one digit)).isMatch (c :: s) then withoutTags true s
      else c :: withoutTags false s

/-- The list `res`, its last element apart, and the last element of `num`. -/
structure Packed where
  before : List (List Str)
  last : List Str
  num : ℕ

/-- A group in the last loop. -/
def pack (numTokensFromString : Str → ℕ) (res : Packed) (ck : List Str) : Packed :=
  match ck with
  | [text] =>
      let n := numTokensFromString (withoutTags false text)
      if n + res.num < 218 then { res with last := res.last ++ [text], num := res.num + n }
      else ⟨res.before ++ [res.last], ck, n⟩
  | _ => ⟨res.before ++ [res.last], ck, 218⟩

/-- The groups of the sections. -/
def groups (bull : ℤ) (sections : Sections) (depth : ℤ) : Except Err (List (List ℕ)) :=
  if sections.isEmpty ∨ bull < 0 then .ok []
  else do
    let levels ← headingLevels bull (kept sections)
    titleGroups levels.reverse depth (kept sections).length

def hierarchicalMerge (numTokensFromString : Str → ℕ) (bull : ℤ) (sections : Sections)
    (depth : ℤ) : Except Err (List (List Str)) := do
  let cks ← groups bull sections depth
  if cks.isEmpty then return []
  else
    let texts := (kept sections).map Prod.fst
    let cks ← cks.mapM fun ck => ck.reverse.mapM fun (j : ℕ) => item texts j
    let res := cks.foldl (pack numTokensFromString) ⟨[], [], 0⟩
    return res.before ++ [res.last]

/-! ### The title search -/

/-- The last index before `j` of the level `arr`. -/
def closestBefore (j : ℕ) (arr : List ℕ) : Option ℕ := (arr.filter (· < j)).getLast?

theorem closestBefore_eq_some {arr : List ℕ} (harr : arr.Pairwise (· < ·)) {j t : ℕ} :
    closestBefore j arr = some t ↔ t ∈ arr ∧ t < j ∧ ∀ x ∈ arr, x < j → x ≤ t := by
  have hlast : ∀ {u : ℕ}, closestBefore j arr = some u →
      u ∈ arr ∧ u < j ∧ ∀ x ∈ arr, x < j → x ≤ u := by
    intro u hu
    obtain ⟨hmem, hlt⟩ := List.mem_filter.mp (List.mem_of_getLast? hu)
    refine ⟨hmem, of_decide_eq_true hlt, fun x hx hxj => ?_⟩
    obtain ⟨before, hbefore⟩ := List.getLast?_eq_some_iff.mp hu
    have hsorted : (arr.filter (· < j)).Pairwise (· < ·) := harr.filter _
    have hx' : x ∈ arr.filter (· < j) := List.mem_filter.mpr ⟨hx, decide_eq_true hxj⟩
    rw [hbefore] at hsorted hx'
    rcases List.mem_append.mp hx' with hx' | hx'
    · exact ((List.pairwise_append.mp hsorted).2.2 x hx' u List.mem_cons_self).le
    · exact (List.mem_singleton.mp hx').le
  refine ⟨hlast, fun ⟨hmem, hlt, hmax⟩ => ?_⟩
  cases hclosest : closestBefore j arr with
  | none =>
      have hnil := List.getLast?_eq_none_iff.mp hclosest
      have hmem' : t ∈ arr.filter (· < j) := List.mem_filter.mpr ⟨hmem, decide_eq_true hlt⟩
      rw [hnil] at hmem'
      exact absurd hmem' List.not_mem_nil
  | some u =>
      obtain ⟨humem, hult, humax⟩ := hlast hclosest
      exact congrArg some (le_antisymm (hmax u humem hult) (humax t hmem hlt))

theorem closestBefore_eq_none {arr : List ℕ} {j : ℕ} (h : ∀ x ∈ arr, j < x) :
    closestBefore j arr = none := by
  unfold closestBefore
  rw [List.getLast?_eq_none_iff, List.filter_eq_nil_iff]
  intro x hx
  have hjx := h x hx
  rw [decide_eq_true_iff]
  omega

section search

variable {arr : List ℕ} {target : ℕ} (harr : arr.Pairwise (· < ·)) (htarget : target ∉ arr)

include harr htarget

/-- The loop ends at the last element below the target. -/
theorem binarySearchLoop_spec {turns s e : ℕ} (hturns : e - s ≤ turns) (he : e ≤ arr.length)
    (hs : ∃ x, arr[s]? = some x ∧ x < target)
    (hhigh : ∀ i x, e ≤ i → arr[i]? = some x → target < x) :
    ∃ k : ℕ, binarySearchLoop arr target turns s e = .ok k ∧
      (∃ x, arr[k]? = some x ∧ x < target) ∧
      ∀ i x, k < i → arr[i]? = some x → target < x := by
  induction turns generalizing s e with
  | zero => exact ⟨s, rfl, hs, fun i x hi => hhigh i x (by omega)⟩
  | succ turns ih =>
      rw [binarySearchLoop]
      by_cases hse : 1 < e - s
      · have hi : (e + s) / 2 < arr.length := by omega
        rw [if_pos hse]
        dsimp only
        rw [item_natCast hi]
        change ∃ k : ℕ, (if arr[(e + s) / 2] < target then
            binarySearchLoop arr target turns ((e + s) / 2) e
          else if target < arr[(e + s) / 2] then
            binarySearchLoop arr target turns s ((e + s) / 2)
          else .error .assertionError) = .ok k ∧ _
        rcases lt_trichotomy arr[(e + s) / 2] target with hlt | heq | hgt
        · rw [if_pos hlt]
          exact ih (by omega) he ⟨_, List.getElem?_eq_getElem hi, hlt⟩ hhigh
        · exact absurd (heq ▸ List.getElem_mem hi) htarget
        · rw [if_neg hgt.not_gt, if_pos hgt]
          refine ih (by omega) (by omega) hs fun i x hle hx => ?_
          obtain ⟨hi', rfl⟩ := List.getElem?_eq_some_iff.mp hx
          rcases hle.lt_or_eq with hlt | rfl
          · exact hgt.trans (List.pairwise_iff_getElem.mp harr _ _ hi hi' hlt)
          · exact hgt
      · rw [if_neg hse]
        exact ⟨s, rfl, hs, fun i x hi => hhigh i x (by omega)⟩

theorem binarySearch_spec :
    (binarySearch arr target = .ok (-1) ∧ ∀ x ∈ arr, target < x) ∨
      ∃ k : ℕ, binarySearch arr target = .ok k ∧ (∃ x, arr[k]? = some x ∧ x < target) ∧
        ∀ i x, k < i → arr[i]? = some x → target < x := by
  cases arr with
  | nil => exact Or.inl ⟨rfl, fun x hx => absurd hx List.not_mem_nil⟩
  | cons first rest =>
      have hfirst : target ≠ first := fun heq => htarget (heq ▸ List.mem_cons_self)
      have hne : first :: rest ≠ [] := List.cons_ne_nil _ _
      have hbelow := (List.pairwise_cons.mp harr).1
      have hsearch : binarySearch (first :: rest) target =
          if (first :: rest).getLast hne < target then .ok ((first :: rest).length - 1)
          else if target < first then .ok (-1)
          else binarySearchLoop (first :: rest) target (first :: rest).length 0
            (first :: rest).length := by
        unfold binarySearch
        rw [if_neg (by simp), item_neg_one hne]
        rfl
      rw [hsearch]
      by_cases hlast : (first :: rest).getLast hne < target
      · refine Or.inr ⟨rest.length, ?_, ⟨_, ?_, hlast⟩, fun i x hi hx => ?_⟩
        · rw [if_pos hlast, List.length_cons]
          exact congrArg Except.ok (by omega)
        · rw [← List.getLast?_eq_some_getLast hne, List.getLast?_eq_getElem?, List.length_cons]
          rfl
        · obtain ⟨hi', -⟩ := List.getElem?_eq_some_iff.mp hx
          rw [List.length_cons] at hi'
          omega
      · rw [if_neg hlast]
        by_cases hlow : target < first
        · refine Or.inl ⟨if_pos hlow, fun x hx => ?_⟩
          rcases List.mem_cons.mp hx with rfl | hx
          · exact hlow
          · exact hlow.trans (hbelow x hx)
        · rw [if_neg hlow]
          refine Or.inr (binarySearchLoop_spec harr htarget le_rfl le_rfl ⟨first, rfl, ?_⟩ ?_)
          · omega
          · intro i x hi hx
            obtain ⟨hi', -⟩ := List.getElem?_eq_some_iff.mp hx
            omega

end search

/-- The group with one more title, if there is one. -/
def withTitle (ck : List ℕ) : Option ℕ → List ℕ
  | none => ck
  | some t => (SinglePop.push ck.reverse t).reverse

theorem push_reverse {ck : List ℕ} (hck : ck ≠ []) (t : ℕ) :
    (SinglePop.push ck.reverse t).reverse =
      (if ck.getLast hck < t then ck.dropLast else ck) ++ [t] := by
  obtain ⟨before, last, rfl⟩ := (List.eq_nil_or_concat' ck).resolve_left hck
  rw [List.reverse_append, List.reverse_singleton, List.singleton_append, SinglePop.push,
    List.getLast_append_singleton, List.dropLast_concat]
  split_ifs <;> simp

theorem addTitle_eq {j : ℕ} {ck arr : List ℕ} (hck : ck ≠ []) (harr : arr.Pairwise (· < ·))
    (hj : j ∉ arr) : addTitle j ck arr = .ok (withTitle ck (closestBefore j arr)) := by
  unfold addTitle
  rcases binarySearch_spec harr hj with ⟨hsearch, hnone⟩ | ⟨k, hsearch, ⟨t, ht, htj⟩, habove⟩
  · rw [hsearch, closestBefore_eq_none hnone]
    rfl
  · obtain ⟨hk, hget⟩ := List.getElem?_eq_some_iff.mp ht
    have hclosest : closestBefore j arr = some t := by
      refine (closestBefore_eq_some harr).mpr ⟨hget ▸ List.getElem_mem hk, htj, fun x hx hxj => ?_⟩
      obtain ⟨i, hi, rfl⟩ := List.mem_iff_getElem.mp hx
      rcases lt_trichotomy i k with hlt | rfl | hgt
      · exact hget ▸ (List.pairwise_iff_getElem.mp harr i k hi hk hlt).le
      · exact hget.le
      · exact absurd hxj (habove i _ hgt (List.getElem?_eq_getElem hi)).not_gt
    rw [hsearch, hclosest, ok_bind, if_neg (by omega), item_natCast hk, ok_bind,
      item_neg_one hck, ok_bind, hget, withTitle, push_reverse hck]
    rfl

/-- The titles the search finds for the section `j` in the levels above the level `i`. -/
def titlesFor (levels : List (List ℕ)) (i j : ℕ) : List ℕ :=
  (levels.drop (i + 1)).filterMap (closestBefore j)

/-- The search keeps a stack with single pops, the last title on top. -/
theorem titleSearch_eq {j : ℕ} {higher : List (List ℕ)} {ck : List ℕ} (hck : ck ≠ [])
    (hhigher : ∀ arr ∈ higher, arr.Pairwise (· < ·) ∧ j ∉ arr) :
    higher.foldlM (addTitle j) ck = .ok
      (SinglePop.run ck.reverse (higher.filterMap (closestBefore j))).reverse := by
  induction higher generalizing ck with
  | nil =>
      rw [List.filterMap_nil, SinglePop.run, List.foldl_nil, List.reverse_reverse]
      rfl
  | cons arr higher ih =>
      obtain ⟨⟨harr, hj⟩, hhigher'⟩ := List.forall_mem_cons.mp hhigher
      rw [List.foldlM_cons, addTitle_eq hck harr hj]
      change higher.foldlM (addTitle j) (withTitle ck (closestBefore j arr)) = _
      cases hclosest : closestBefore j arr with
      | none =>
          rw [withTitle, List.filterMap_cons_none hclosest, ih hck hhigher']
      | some t =>
          have hne : (SinglePop.push ck.reverse t).reverse ≠ [] := by
            rw [push_reverse hck]
            exact List.append_ne_nil_of_right_ne_nil _ (List.cons_ne_nil _ _)
          rw [withTitle, List.filterMap_cons_some hclosest, ih hne hhigher', List.reverse_reverse]
          rfl

/-! ### The levels -/

/-- The levels have the sections of a document, each in the level of its rank. -/
def Ranked (size : ℕ) (rank : ℕ → ℕ) (levels : List (List ℕ)) : Prop :=
  ∀ i arr, levels[i]? = some arr → arr = (List.range size).filter (rank · = i)

theorem Ranked.mem {size : ℕ} {rank : ℕ → ℕ} {levels : List (List ℕ)}
    (h : Ranked size rank levels) {i j : ℕ} {arr : List ℕ} (harr : levels[i]? = some arr)
    (hj : j ∈ arr) : j < size ∧ rank j = i := by
  rw [h i arr harr] at hj
  obtain ⟨hmem, hrank⟩ := List.mem_filter.mp hj
  exact ⟨List.mem_range.mp hmem, of_decide_eq_true hrank⟩

theorem Ranked.sorted {size : ℕ} {rank : ℕ → ℕ} {levels : List (List ℕ)}
    (h : Ranked size rank levels) {arr : List ℕ} (harr : arr ∈ levels) :
    arr.Pairwise (· < ·) := by
  obtain ⟨i, hi, rfl⟩ := List.mem_iff_getElem.mp harr
  rw [h i _ (List.getElem?_eq_getElem hi)]
  exact List.pairwise_lt_range.filter _

theorem sectionLevel_lt (patterns : List Re) (bullet text layout : Str) :
    sectionLevel patterns bullet text layout < patterns.length + 2 := by
  unfold sectionLevel
  split
  · next i hi =>
      have hlt := (List.findIdx?_eq_some_iff_getElem.mp hi).1
      omega
  · split_ifs <;> omega

/-- The level of a section. -/
def levelOf (patterns : List Re) (s : Str × Str) : ℕ := sectionLevel patterns (strip s.1) s.1 s.2

theorem foldl_addIndex (patterns : List Re) (m : ℕ) (xs : List ((Str × Str) × ℕ)) :
    xs.foldl (addIndex patterns) (List.replicate m []) =
      (List.range m).map fun k => (xs.filter fun x => levelOf patterns x.1 = k).map Prod.snd := by
  induction xs using List.reverseRecOn with
  | nil =>
      refine List.ext_getElem (by simp) fun k hk hk' => ?_
      simp
  | append_singleton xs x ih =>
      have hstep : ∀ levels, addIndex patterns levels x =
          levels.modify (levelOf patterns x.1) (· ++ [x.2]) := fun _ => rfl
      rw [List.foldl_append, ih, List.foldl_cons, List.foldl_nil, hstep]
      refine List.ext_getElem (by simp) fun k hk hk' => ?_
      rw [List.getElem_modify, List.getElem_map, List.getElem_map, List.getElem_range,
        List.filter_append, List.map_append]
      split_ifs with hlevel
      · rw [List.filter_singleton, hlevel]
        simp
      · rw [List.filter_singleton]
        simp [hlevel]

/-- The levels, the lowest first. -/
theorem headingLevels_ranked {bull : ℤ} {patterns : List Re}
    (hbull : item bulletPattern bull = .ok patterns) (sections : List (Str × Str)) :
    ∃ levels rank, headingLevels bull sections = .ok levels ∧
      Ranked sections.length rank levels.reverse := by
  refine ⟨(List.range (patterns.length + 2)).map fun k =>
      (sections.zipIdx.filter fun x => levelOf patterns x.1 = k).map Prod.snd,
    fun j => patterns.length + 1 - levelOf patterns (sections.getD j ([], [])), ?_, ?_⟩
  · unfold headingLevels
    rw [hbull]
    exact congrArg Except.ok (foldl_addIndex patterns _ _)
  · intro i arr harr
    obtain ⟨hi, rfl⟩ := List.getElem?_eq_some_iff.mp harr
    rw [List.length_reverse, List.length_map, List.length_range] at hi
    have hindices : List.range sections.length = sections.zipIdx.map Prod.snd := by
      rw [List.zipIdx_map_snd, List.range_eq_range']
    rw [List.getElem_reverse, List.getElem_map, List.getElem_range, hindices, List.filter_map,
      List.length_map, List.length_range]
    refine congrArg (List.map Prod.snd) (List.filter_congr fun x hx => ?_)
    have hget : sections.getD x.2 ([], []) = x.1 := by
      rw [List.getD_eq_getElem?_getD, List.mem_zipIdx_iff_getElem?.mp hx, Option.getD_some]
    have hlt : levelOf patterns x.1 < patterns.length + 2 := sectionLevel_lt patterns _ _ _
    rw [Function.comp_apply, decide_eq_decide]
    dsimp only
    rw [hget]
    omega

/-! ### The run of the search -/

/-- The group of the section `j` of the level `i`. -/
def groupOf (levels : List (List ℕ)) (i j : ℕ) : List ℕ :=
  if i + 1 = levels.length - 1 then [j]
  else (SinglePop.run [j] (titlesFor levels i j)).reverse

theorem mem_groupOf {levels : List (List ℕ)} {i j x : ℕ} (hx : x ∈ groupOf levels i j) :
    x = j ∨ x ∈ titlesFor levels i j := by
  unfold groupOf at hx
  split_ifs at hx
  · exact Or.inl (List.mem_singleton.mp hx)
  · exact (SinglePop.mem_of_mem_run (List.mem_reverse.mp hx)).imp_left List.mem_singleton.mp

section levels

variable {size : ℕ} {rank : ℕ → ℕ} {levels : List (List ℕ)} (hlevels : Ranked size rank levels)

/-- A higher level, and its place among the levels. -/
theorem exists_of_mem_drop {arr : List ℕ} {i : ℕ} (harr : arr ∈ levels.drop (i + 1)) :
    ∃ k, i < k ∧ levels[k]? = some arr := by
  obtain ⟨k, hk, rfl⟩ := List.mem_iff_getElem.mp harr
  refine ⟨i + 1 + k, by omega, ?_⟩
  rw [List.getElem_drop]
  exact List.getElem?_eq_getElem _

include hlevels

/-- A title is a section of a higher level before `j`. -/
theorem mem_titlesFor {i j t : ℕ} (ht : t ∈ titlesFor levels i j) :
    t < j ∧ t < size ∧ i < rank t := by
  obtain ⟨arr, harr, hclosest⟩ := List.mem_filterMap.mp ht
  obtain ⟨k, hk, hget⟩ := exists_of_mem_drop harr
  obtain ⟨hmem, hlt, -⟩ :=
    (closestBefore_eq_some (hlevels.sorted (List.mem_of_mem_drop harr))).mp hclosest
  obtain ⟨hsize, hrank⟩ := hlevels.mem hget hmem
  exact ⟨hlt, hsize, hrank ▸ hk⟩

/-- A group starts with its section. -/
theorem groupOf_eq_cons (i j : ℕ) : ∃ titles, groupOf levels i j = j :: titles := by
  unfold groupOf
  split_ifs
  · exact ⟨[], rfl⟩
  · obtain ⟨tops, htops⟩ := SinglePop.run_bottom
      (fun t ht => (@mem_titlesFor _ _ _ hlevels i j t ht).1) []
    rw [List.nil_append] at htops
    exact ⟨tops.reverse, by rw [htops, List.reverse_append]; rfl⟩

theorem groupOf_lt {i j k : ℕ} (hj : j < size) (hk : k ∈ groupOf levels i j) : k < size := by
  rcases mem_groupOf hk with rfl | hk
  · exact hj
  · exact (mem_titlesFor hlevels hk).2.1

theorem titleSearch_groupOf {i j : ℕ} (hj : rank j = i) (hi : i + 1 ≠ levels.length - 1) :
    (levels.drop (i + 1)).foldlM (addTitle j) [j] = .ok (groupOf levels i j) := by
  rw [titleSearch_eq (List.cons_ne_nil _ _), groupOf, if_neg hi]
  · rfl
  · intro arr harr
    refine ⟨hlevels.sorted (List.mem_of_mem_drop harr), fun hmem => ?_⟩
    obtain ⟨k, hk, hget⟩ := exists_of_mem_drop harr
    have hrank := (hlevels.mem hget hmem).2
    omega

end levels

theorem mem_visits {levels : List (List ℕ)} {depth : ℤ} {x : ℕ × ℕ}
    (hx : x ∈ visits levels depth) : ∃ arr, levels[x.1]? = some arr ∧ x.2 ∈ arr := by
  obtain ⟨⟨arr, i⟩, hmem, hx⟩ := List.mem_flatMap.mp hx
  obtain ⟨j, hj, rfl⟩ := List.mem_map.mp hx
  have hget := List.mem_zipIdx_iff_getElem?.mp hmem
  unfold upTo at hget
  rw [List.getElem?_take] at hget
  exact ⟨arr, (Option.ite_none_right_eq_some.mp hget).2, hj⟩

/-- Marking the sections of a group. -/
theorem foldlM_setRead {size : ℕ} {ck : List ℕ} (hck : ∀ j ∈ ck, j < size) {readed : List Bool}
    (hlength : readed.length = size) :
    ∃ readed', ck.foldlM setRead readed = .ok readed' ∧ readed'.length = size ∧
      ∀ k, readed'[k]? = some true → readed[k]? = some true ∨ k ∈ ck := by
  have hstep : ∀ (seen : List ℕ) (j : ℕ) (r : List Bool), j ∈ ck →
      (r.length = size ∧ ∀ k, r[k]? = some true → readed[k]? = some true ∨ k ∈ seen) →
      ∃ r', setRead r j = .ok r' ∧ r'.length = size ∧
        ∀ k, r'[k]? = some true → readed[k]? = some true ∨ k ∈ seen ++ [j] := by
    rintro seen j r hj ⟨hr, hmarks⟩
    refine ⟨r.set j true, if_pos (by rw [hr]; exact hck j hj), by rwa [List.length_set], ?_⟩
    intro k hk
    by_cases hkj : j = k
    · exact Or.inr (List.mem_append_right _ (by rw [hkj]; exact List.mem_cons_self))
    · rw [List.getElem?_set_ne hkj] at hk
      exact (hmarks k hk).imp_right (List.mem_append_left _)
  exact foldlM_spec (fun seen r => r.length = size ∧
    ∀ k, r[k]? = some true → readed[k]? = some true ∨ k ∈ seen) hstep []
    ⟨hlength, fun k hk => Or.inl hk⟩

/-- What holds after the search for `seen`. -/
structure Searched (levels : List (List ℕ)) (size : ℕ) (seen : List (ℕ × ℕ)) (st : Groups) :
    Prop where
  length : st.readed.length = size
  groups : ∀ ck ∈ st.cks, ∃ x ∈ seen, ck = groupOf levels x.1 x.2
  covers : ∀ x ∈ seen, ∃ ck ∈ st.cks, x.2 ∈ ck
  marked : ∀ j, st.readed[j]? = some true → ∃ ck ∈ st.cks, j ∈ ck

theorem setRead_ok {size j : ℕ} {readed : List Bool} (hlength : readed.length = size)
    (hj : j < size) : setRead readed j = .ok (readed.set j true) :=
  if_pos (by rwa [hlength])

/-- The group of `j` is added, and its sections are marked. -/
theorem Searched.snoc {levels : List (List ℕ)} {size : ℕ} {seen : List (ℕ × ℕ)} {st : Groups}
    (h : Searched levels size seen st) {i j : ℕ} {readed : List Bool}
    (hlength : readed.length = size)
    (hmarks : ∀ k, readed[k]? = some true →
      (st.readed.set j true)[k]? = some true ∨ k ∈ groupOf levels i j)
    (hself : j ∈ groupOf levels i j) :
    Searched levels size (seen ++ [(i, j)]) ⟨st.cks ++ [groupOf levels i j], readed⟩ := by
  have hlast : groupOf levels i j ∈ st.cks ++ [groupOf levels i j] :=
    List.mem_append_right _ List.mem_cons_self
  refine ⟨hlength, fun ck hck => ?_, fun x hx => ?_, fun k hk => ?_⟩
  · rcases List.mem_append.mp hck with hck | hck
    · obtain ⟨x, hx, rfl⟩ := h.groups ck hck
      exact ⟨x, List.mem_append_left _ hx, rfl⟩
    · exact ⟨(i, j), List.mem_append_right _ List.mem_cons_self, List.mem_singleton.mp hck⟩
  · rcases List.mem_append.mp hx with hx | hx
    · obtain ⟨ck, hck, hmem⟩ := h.covers x hx
      exact ⟨ck, List.mem_append_left _ hck, hmem⟩
    · rw [List.mem_singleton.mp hx]
      exact ⟨_, hlast, hself⟩
  · rcases hmarks k hk with hk | hk
    · by_cases hkj : j = k
      · exact ⟨_, hlast, hkj ▸ hself⟩
      · rw [List.getElem?_set_ne hkj] at hk
        obtain ⟨ck, hck, hmem⟩ := h.marked k hk
        exact ⟨ck, List.mem_append_left _ hck, hmem⟩
    · exact ⟨_, hlast, hk⟩

/-- A section that is a title of a group. -/
theorem Searched.skip {levels : List (List ℕ)} {size : ℕ} {seen : List (ℕ × ℕ)} {st : Groups}
    (h : Searched levels size seen st) (i : ℕ) {j : ℕ} (hread : st.readed[j]? = some true) :
    Searched levels size (seen ++ [(i, j)]) st := by
  refine ⟨h.length, fun ck hck => ?_, fun x hx => ?_, h.marked⟩
  · obtain ⟨x, hx, rfl⟩ := h.groups ck hck
    exact ⟨x, List.mem_append_left _ hx, rfl⟩
  · rcases List.mem_append.mp hx with hx | hx
    · exact h.covers x hx
    · rw [List.mem_singleton.mp hx]
      exact h.marked j hread

/-- A step of the search. -/
theorem Searched.visit {size : ℕ} {rank : ℕ → ℕ} {levels : List (List ℕ)}
    (hlevels : Ranked size rank levels) {seen : List (ℕ × ℕ)} {st : Groups}
    (h : Searched levels size seen st) {i j : ℕ} (hj : j < size) (hrank : rank j = i) :
    ∃ st', addGroup levels st (i, j) = .ok st' ∧ Searched levels size (seen ++ [(i, j)]) st' := by
  have hlt : j < st.readed.length := by rwa [h.length]
  obtain ⟨titles, htitles⟩ := groupOf_eq_cons hlevels i j
  have hself : j ∈ groupOf levels i j := htitles ▸ List.mem_cons_self
  have hread : addGroup levels st (i, j) = if st.readed[j] = true then .ok st else do
      let readed ← setRead st.readed j
      if i + 1 = levels.length - 1 then return ⟨st.cks ++ [[j]], readed⟩
      else
        let ck ← (levels.drop (i + 1)).foldlM (addTitle j) [j]
        let readed ← ck.foldlM setRead readed
        return ⟨st.cks ++ [ck], readed⟩ := by
    unfold addGroup
    dsimp only
    rw [item_natCast hlt]
    rfl
  rw [hread]
  by_cases hmark : st.readed[j] = true
  · rw [if_pos hmark]
    exact ⟨st, rfl, h.skip i (by rw [List.getElem?_eq_getElem hlt, hmark])⟩
  · rw [if_neg hmark, setRead_ok h.length hj]
    have hlength : (st.readed.set j true).length = size := by rw [List.length_set, h.length]
    by_cases hi : i + 1 = levels.length - 1
    · have hgroup : groupOf levels i j = [j] := if_pos hi
      refine ⟨⟨st.cks ++ [groupOf levels i j], st.readed.set j true⟩, ?_,
        h.snoc hlength (fun k hk => Or.inl hk) hself⟩
      simp only [if_pos hi, hgroup]
      rfl
    · obtain ⟨readed', hset, hlength', hmarks⟩ :=
        foldlM_setRead (fun k hk => groupOf_lt hlevels hj hk) hlength
      refine ⟨⟨st.cks ++ [groupOf levels i j], readed'⟩, ?_, h.snoc hlength' hmarks hself⟩
      simp only [if_neg hi, titleSearch_groupOf hlevels hrank hi, ok_bind, hset]
      rfl

/-- The run of the search. -/
theorem titleGroups_spec {size : ℕ} {rank : ℕ → ℕ} {levels : List (List ℕ)}
    (hlevels : Ranked size rank levels) (depth : ℤ) :
    ∃ cks, titleGroups levels depth size = .ok cks ∧
      (∀ ck ∈ cks, ∃ x ∈ visits levels depth, ck = groupOf levels x.1 x.2) ∧
      ∀ x ∈ visits levels depth, ∃ ck ∈ cks, x.2 ∈ ck := by
  have hstart : Searched levels size [] ⟨[], List.replicate size false⟩ := by
    refine ⟨List.length_replicate, fun ck hck => ?_, fun x hx => ?_, fun j hj => ?_⟩
    · exact absurd hck List.not_mem_nil
    · exact absurd hx List.not_mem_nil
    · obtain ⟨_, hfalse⟩ := List.getElem?_eq_some_iff.mp hj
      rw [List.getElem_replicate] at hfalse
      cases hfalse
  obtain ⟨st, hrun, hst⟩ := foldlM_spec (fun seen st => Searched levels size seen st)
    (fun seen x st hx hst => by
      obtain ⟨arr, harr, hmem⟩ := mem_visits hx
      obtain ⟨hj, hrank⟩ := hlevels.mem harr hmem
      exact hst.visit hlevels hj hrank) [] hstart
  refine ⟨st.cks, ?_, hst.groups, hst.covers⟩
  unfold titleGroups
  rw [hrun]
  rfl

/-! ### The order of a group -/

/-- `t` is the closest section of its level before `j`, and no section of a higher level is
closer. -/
def IsTitle (levels : List (List ℕ)) (j t : ℕ) : Prop :=
  ∃ lower arr higher, levels = lower ++ arr :: higher ∧ closestBefore j arr = some t ∧
    ∀ arr' ∈ higher, ∀ x ∈ arr', x < j → x < t

/-- The group, which is reversed later, is in the order of the sections. -/
structure Titled (levels : List (List ℕ)) (ck : List ℕ) : Prop where
  descending : ck.Pairwise (· > ·)
  titles : ∀ j ts, ck = j :: ts → ∀ t ∈ ts, IsTitle levels j t

/-- Of the levels `higher`, one has a section before `j` that is closer than those of two lower
levels, of which the lower one is not cut off before. -/
def CutsTwo (higher : List (List ℕ)) (j : ℕ) : Prop :=
  ∃ lower arr between arr' above a c, higher = lower ++ arr :: (between ++ arr' :: above) ∧
    closestBefore j arr = some a ∧ closestBefore j arr' = some c ∧ a < c ∧
    (∃ mid ∈ between, ∃ b, closestBefore j mid = some b) ∧
    ∀ mid ∈ between, ∀ b, closestBefore j mid = some b → b < a

theorem cutsTwo_iff (higher : List (List ℕ)) (j : ℕ) :
    CutsTwo higher j ↔ SinglePop.DoubleCut (higher.filterMap (closestBefore j)) := by
  constructor
  · rintro ⟨lower, arr, between, arr', above, a, c, rfl, ha, hc, hac, ⟨mid, hmid, b, hb⟩, hlt⟩
    refine ⟨lower.filterMap (closestBefore j), a, between.filterMap (closestBefore j), c,
      above.filterMap (closestBefore j), ?_, ?_, ?_, hac⟩
    · rw [List.filterMap_append, List.filterMap_cons_some ha, List.filterMap_append,
        List.filterMap_cons_some hc]
    · exact List.ne_nil_of_mem (List.mem_filterMap.mpr ⟨mid, hmid, hb⟩)
    · intro x hx
      obtain ⟨mid', hmid', hx⟩ := List.mem_filterMap.mp hx
      exact hlt mid' hmid' x hx
  · rintro ⟨as, p, bs, t, cs, heq, hbs, hlt, hpt⟩
    obtain ⟨lower, rest, rfl, -, hrest⟩ := List.filterMap_eq_append_iff.mp heq
    obtain ⟨none₁, arr, rest₁, rfl, -, hp, hrest₁⟩ := List.filterMap_eq_cons_iff.mp hrest
    obtain ⟨between, rest₂, rfl, rfl, hrest₂⟩ := List.filterMap_eq_append_iff.mp hrest₁
    obtain ⟨none₂, arr', above, rfl, hnone, ht, -⟩ := List.filterMap_eq_cons_iff.mp hrest₂
    refine ⟨lower ++ none₁, arr, between ++ none₂, arr', above, p, t, by simp, hp, ht, hpt, ?_, ?_⟩
    · obtain ⟨b, bs', hb⟩ := List.exists_cons_of_ne_nil hbs
      have hmem : b ∈ between.filterMap (closestBefore j) := hb ▸ List.mem_cons_self
      obtain ⟨mid, hmid, hmid'⟩ := List.mem_filterMap.mp hmem
      exact ⟨mid, List.mem_append_left _ hmid, b, hmid'⟩
    · intro mid hmid b hb
      rcases List.mem_append.mp hmid with hmid | hmid
      · exact hlt b (List.mem_filterMap.mpr ⟨mid, hmid, hb⟩)
      · rw [hnone mid hmid] at hb
        cases hb

section order

variable {size : ℕ} {rank : ℕ → ℕ} {levels : List (List ℕ)} (hlevels : Ranked size rank levels)

include hlevels

theorem titlesFor_nodup (i j : ℕ) : (titlesFor levels i j).Nodup := by
  have hpair : levels.Pairwise fun arr arr' => ∀ b, closestBefore j arr = some b →
      ∀ b', closestBefore j arr' = some b' → b ≠ b' := by
    refine List.pairwise_iff_getElem.mpr fun p q hp hq hpq b hb b' hb' heq => ?_
    have hmem := (closestBefore_eq_some (hlevels.sorted (List.getElem_mem hp))).mp hb
    have hmem' := (closestBefore_eq_some (hlevels.sorted (List.getElem_mem hq))).mp hb'
    have hrank := (hlevels.mem (List.getElem?_eq_getElem hp) hmem.1).2
    have hrank' := (hlevels.mem (List.getElem?_eq_getElem hq) hmem'.1).2
    rw [heq] at hrank
    omega
  exact List.pairwise_filterMap.mpr (hpair.sublist (List.drop_sublist _ _))

/-- A title that is not cut off in the search is one of the section. -/
theorem isTitle_of_uncut {i j t : ℕ} (ht : SinglePop.Uncut (titlesFor levels i j) t) :
    IsTitle levels j t := by
  obtain ⟨as, bs, heq, hbs⟩ := ht
  obtain ⟨lower, rest, hdrop, -, hrest⟩ := List.filterMap_eq_append_iff.mp heq
  obtain ⟨none₁, arr, higher, rfl, -, hclosest, hhigher⟩ := List.filterMap_eq_cons_iff.mp hrest
  have hsplit : levels = (levels.take (i + 1) ++ (lower ++ none₁)) ++ arr :: higher := by
    conv_lhs => rw [← List.take_append_drop (i + 1) levels, hdrop]
    simp
  refine ⟨_, arr, higher, hsplit, hclosest, fun arr' harr' x hx hxj => ?_⟩
  have hmem : arr' ∈ levels := by
    rw [hsplit]
    exact List.mem_append_right _ (List.mem_cons_of_mem _ harr')
  cases hy : closestBefore j arr' with
  | none =>
      have hnil := List.filter_eq_nil_iff.mp (List.getLast?_eq_none_iff.mp hy)
      exact absurd (decide_eq_true hxj) (hnil x hx)
  | some y =>
      have hle := ((closestBefore_eq_some (hlevels.sorted hmem)).mp hy).2.2 x hx hxj
      have hyb : y ∈ bs := hhigher ▸ List.mem_filterMap.mpr ⟨arr', harr', hy⟩
      exact hle.trans_lt (hbs y hyb)

/-- A group is in order exactly when no title cuts off two. -/
theorem titled_groupOf_iff (i j : ℕ) :
    Titled levels (groupOf levels i j) ↔ ¬CutsTwo (levels.drop (i + 1)) j := by
  have hlt : ∀ t ∈ titlesFor levels i j, t < j := fun t ht => (mem_titlesFor hlevels ht).1
  have hnodup := titlesFor_nodup hlevels i j
  rw [cutsTwo_iff]
  unfold groupOf
  split_ifs with hi
  · refine ⟨fun _ hcut => ?_, fun _ => ⟨List.pairwise_singleton _ _, ?_⟩⟩
    · obtain ⟨as, p, bs, t, cs, heq, hbs, -⟩ := hcut
      have hlength := congrArg List.length heq
      have hle := List.length_filterMap_le (closestBefore j) (levels.drop (i + 1))
      rw [List.length_drop] at hle
      rw [List.length_append, List.length_cons, List.length_append, List.length_cons] at hlength
      omega
    · intro j' ts heq t ht
      rw [(List.cons.inj heq).2.symm] at ht
      exact absurd ht List.not_mem_nil
  · constructor
    · intro h hcut
      exact SinglePop.not_sorted_of_doubleCut hcut (List.pairwise_reverse.mp h.descending)
    · intro hcut
      have hsorted := (SinglePop.run_sorted_iff hlt hnodup).mpr hcut
      refine ⟨List.pairwise_reverse.mpr hsorted, fun j' ts heq t ht => ?_⟩
      obtain ⟨tops, htops⟩ := SinglePop.run_bottom hlt []
      rw [List.nil_append] at htops
      rw [htops, List.reverse_append, List.reverse_singleton, List.singleton_append] at heq
      obtain ⟨rfl, rfl⟩ := List.cons.inj heq
      have htop := List.mem_reverse.mp ht
      have hne : t ≠ j := by
        rw [htops] at hsorted
        exact ((List.pairwise_append.mp hsorted).2.2 t htop j List.mem_cons_self).ne
      have hrun : t ∈ SinglePop.run [j] (titlesFor levels i j) := by
        rw [htops]
        exact List.mem_append_left _ htop
      exact isTitle_of_uncut hlevels ((SinglePop.mem_run hlt hnodup hcut hrun).resolve_left hne)

/-- What cuts off two titles of a title of `j` cuts off two titles of `j`. -/
theorem CutsTwo.of_title {i i' j t : ℕ} (ht : IsTitle levels j t) (hrank : rank t = i')
    (hlt : i < i') (h : CutsTwo (levels.drop (i' + 1)) t) : CutsTwo (levels.drop (i + 1)) j := by
  obtain ⟨lower, arr, higher, hsplit, hclosest, hcut⟩ := ht
  have hget : levels[lower.length]? = some arr := by
    rw [hsplit, List.getElem?_append_right le_rfl, Nat.sub_self]
    rfl
  have harr : arr ∈ levels := List.mem_of_getElem? hget
  obtain ⟨hmem, htj, -⟩ := (closestBefore_eq_some (hlevels.sorted harr)).mp hclosest
  have hplace : lower.length = i' := ((hlevels.mem hget hmem).2.symm.trans hrank)
  have hhigher : levels.drop (i' + 1) = higher := by
    rw [hsplit, ← hplace, ← List.singleton_append, ← List.append_assoc]
    exact List.drop_left' (by rw [List.length_append, List.length_singleton])
  -- above the level of `t` the sections before `j` are those before `t`
  have hsame : ∀ arr' ∈ higher, closestBefore t arr' = closestBefore j arr' := by
    intro arr' harr'
    refine congrArg List.getLast? (List.filter_congr fun x hx => ?_)
    rw [decide_eq_decide]
    exact ⟨fun hxt => hxt.trans htj, fun hxj => hcut arr' harr' x hx hxj⟩
  have hsuffix : levels.drop (i + 1) = (levels.drop (i + 1)).take (i' - i) ++ higher := by
    rw [← hhigher]
    conv_lhs => rw [← List.take_append_drop (i' - i) (levels.drop (i + 1)), List.drop_drop]
    congr 2
    omega
  rw [hhigher, cutsTwo_iff, List.filterMap_congr hsame] at h
  rw [cutsTwo_iff, hsuffix, List.filterMap_append]
  obtain ⟨as, p, bs, u, cs, heq, hrest⟩ := h
  exact ⟨_ ++ as, p, bs, u, cs, by rw [heq, List.append_assoc], hrest⟩

/-- The groups are in order exactly when no title cuts off two of any section that is visited. -/
theorem titled_iff {depth : ℤ} {cks : List (List ℕ)}
    (hcks : titleGroups levels depth size = .ok cks) :
    (∀ ck ∈ cks, Titled levels ck) ↔
      ∀ x ∈ visits levels depth, ¬CutsTwo (levels.drop (x.1 + 1)) x.2 := by
  obtain ⟨cks', hrun, hgroups, hcovers⟩ := titleGroups_spec hlevels depth
  obtain rfl : cks = cks' := Except.ok.inj (hcks.symm.trans hrun)
  constructor
  · intro htitled x hx hcut
    obtain ⟨ck, hck, hmem⟩ := hcovers x hx
    obtain ⟨y, hy, rfl⟩ := hgroups ck hck
    obtain ⟨arr, harr, hxarr⟩ := mem_visits hx
    obtain ⟨arr', harr', hyarr⟩ := mem_visits hy
    have hxrank := (hlevels.mem harr hxarr).2
    have hyrank := (hlevels.mem harr' hyarr).2
    have hclean := (titled_groupOf_iff hlevels y.1 y.2).mp (htitled _ hck)
    obtain ⟨titles, hgroup⟩ := groupOf_eq_cons hlevels y.1 y.2
    have htitle := (htitled _ hck).titles y.2 titles hgroup
    rw [hgroup] at hmem
    rcases List.mem_cons.mp hmem with heq | hmem
    · have hlevel : x.1 = y.1 := by rw [← hxrank, ← hyrank, heq]
      rw [hlevel, heq] at hcut
      exact hclean hcut
    · have hne : x.2 ≠ y.2 := by
        have hdesc := (htitled _ hck).descending
        rw [hgroup] at hdesc
        exact ((List.pairwise_cons.mp hdesc).1 x.2 hmem).ne
      have hfor : x.2 ∈ titlesFor levels y.1 y.2 := by
        refine (mem_groupOf ?_).resolve_left hne
        rw [hgroup]
        exact List.mem_cons_of_mem _ hmem
      have habove := (mem_titlesFor hlevels hfor).2.2
      exact hclean (CutsTwo.of_title hlevels (htitle x.2 hmem) hxrank (hxrank ▸ habove) hcut)
  · intro hclean ck hck
    obtain ⟨x, hx, rfl⟩ := hgroups ck hck
    exact (titled_groupOf_iff hlevels x.1 x.2).mpr (hclean x hx)

end order

/-- In every group the sections are in order, with the titles that are not cut off. -/
def GroupsTitled (bull : ℤ) (sections : Sections) (depth : ℤ) : Prop :=
  ∀ levels cks, headingLevels bull (kept sections) = .ok levels →
    groups bull sections depth = .ok cks → ∀ ck ∈ cks, Titled levels.reverse ck

/-- No section has a title that cuts off two lower ones. -/
def NoneCutsTwo (bull : ℤ) (sections : Sections) (depth : ℤ) : Prop :=
  0 ≤ bull → ∀ levels, headingLevels bull (kept sections) = .ok levels →
    ∀ x ∈ visits levels.reverse depth, ¬CutsTwo (levels.reverse.drop (x.1 + 1)) x.2

theorem ranked_of_headingLevels {bull : ℤ} {sections : List (Str × Str)} {levels : List (List ℕ)}
    (h : headingLevels bull sections = .ok levels) :
    ∃ rank, Ranked sections.length rank levels.reverse := by
  cases hbull : item bulletPattern bull with
  | error e =>
      unfold headingLevels at h
      rw [hbull] at h
      cases h
  | ok patterns =>
      obtain ⟨levels', rank, hlevels, hranked⟩ := headingLevels_ranked hbull sections
      obtain rfl : levels = levels' := Except.ok.inj (h.symm.trans hlevels)
      exact ⟨rank, hranked⟩

theorem groups_of_isEmpty {bull depth : ℤ} {sections : Sections}
    (h : sections.isEmpty = true ∨ bull < 0) : groups bull sections depth = .ok [] :=
  if_pos h

theorem groups_of_headingLevels {bull depth : ℤ} {sections : Sections} {levels : List (List ℕ)}
    (h : ¬(sections.isEmpty = true ∨ bull < 0))
    (hlevels : headingLevels bull (kept sections) = .ok levels) :
    groups bull sections depth = titleGroups levels.reverse depth (kept sections).length := by
  unfold groups
  rw [if_neg h, hlevels]
  rfl

theorem kept_of_isEmpty {sections : Sections} (h : sections.isEmpty = true) :
    kept sections = [] := by
  by_contra hne
  rw [isEmpty_of_kept hne] at h
  cases h

theorem groups_inOrder_iff (bull : ℤ) (sections : Sections) (depth : ℤ) :
    GroupsTitled bull sections depth ↔ NoneCutsTwo bull sections depth := by
  by_cases hnone : sections.isEmpty = true ∨ bull < 0
  · refine ⟨fun _ hbull levels hlevels x hx => ?_, fun _ levels cks _ hcks ck hck => ?_⟩
    · have hempty := kept_of_isEmpty (hnone.resolve_right (by omega))
      obtain ⟨rank, hranked⟩ := ranked_of_headingLevels hlevels
      obtain ⟨arr, harr, hmem⟩ := mem_visits hx
      have hlt := (hranked.mem harr hmem).1
      rw [hempty] at hlt
      exact absurd hlt (Nat.not_lt_zero _)
    · rw [groups_of_isEmpty hnone] at hcks
      obtain rfl : [] = cks := Except.ok.inj hcks
      exact absurd hck List.not_mem_nil
  · have hbull : 0 ≤ bull := not_lt.mp fun hlt => hnone (Or.inr hlt)
    constructor
    · intro htitled _ levels hlevels
      obtain ⟨rank, hranked⟩ := ranked_of_headingLevels hlevels
      obtain ⟨cks, hcks, -⟩ := titleGroups_spec hranked depth
      have hgroups := @groups_of_headingLevels bull depth sections levels hnone hlevels
      exact (titled_iff hranked hcks).mp (htitled levels cks hlevels (hgroups.trans hcks))
    · intro hclean levels cks hlevels hcks
      obtain ⟨rank, hranked⟩ := ranked_of_headingLevels hlevels
      rw [groups_of_headingLevels hnone hlevels] at hcks
      exact (titled_iff hranked hcks).mpr (hclean hbull levels hlevels)

/-- A section, an article of it, a chapter, and body text. -/
def articleFirst : Sections :=
  .texts ["第一节 甲".toList, "第一条 乙".toList, "第二章 丙".toList, "正文 丁".toList]

/-- The chapter takes the place of the section, but not of the article. -/
theorem articleFirst_not_titled : groups 0 articleFirst 5 = .ok [[3, 1, 2], [0]] ∧
    ¬GroupsTitled 0 articleFirst 5 := by
  refine ⟨rfl, fun h => ?_⟩
  have htitled := h _ [[3, 1, 2], [0]] rfl rfl [3, 1, 2] List.mem_cons_self
  exact absurd htitled.descending (by decide)

/-! ### Errors -/

/-- There are groups, and they are groups of sections that are kept. -/
theorem groups_ok {bull : ℤ} (hbull : bull < bulletPattern.length) (sections : Sections)
    (depth : ℤ) : ∃ cks, groups bull sections depth = .ok cks ∧
      ∀ ck ∈ cks, ∀ j ∈ ck, j < (kept sections).length := by
  by_cases hnone : sections.isEmpty = true ∨ bull < 0
  · exact ⟨[], groups_of_isEmpty hnone, fun ck hck => absurd hck List.not_mem_nil⟩
  · have hpos : 0 ≤ bull := not_lt.mp fun hlt => hnone (Or.inr hlt)
    obtain ⟨patterns, -, hpatterns⟩ := item_of_range (by omega) hbull
    obtain ⟨levels, rank, hlevels, hranked⟩ := headingLevels_ranked hpatterns (kept sections)
    obtain ⟨cks, hcks, hgroups, -⟩ := titleGroups_spec hranked depth
    refine ⟨cks, (groups_of_headingLevels hnone hlevels).trans hcks, fun ck hck j hj => ?_⟩
    obtain ⟨x, hx, rfl⟩ := hgroups ck hck
    obtain ⟨arr, harr, hmem⟩ := mem_visits hx
    exact groupOf_lt hranked (hranked.mem harr hmem).1 hj

/-- `hierarchical_merge` returns a list. -/
theorem hierarchicalMerge_ok (numTokensFromString : Str → ℕ) {bull : ℤ}
    (hbull : bull < bulletPattern.length) (sections : Sections) (depth : ℤ) :
    ∃ res, hierarchicalMerge numTokensFromString bull sections depth = .ok res := by
  obtain ⟨cks, hcks, hsize⟩ := groups_ok hbull sections depth
  obtain ⟨cks', hcks'⟩ : ∃ cks', (cks.mapM fun ck => ck.reverse.mapM fun (j : ℕ) =>
      item ((kept sections).map Prod.fst) j) = .ok cks' := by
    refine exists_mapM_eq_ok cks fun ck hck => ?_
    have hitems : ∀ j ∈ ck.reverse, (item ((kept sections).map Prod.fst) (j : ℤ)).isOk := by
      intro j hj
      have hlt : j < ((kept sections).map Prod.fst).length := by
        rw [List.length_map]
        exact hsize ck hck j (List.mem_reverse.mp hj)
      rw [item_natCast hlt]
      rfl
    obtain ⟨texts, htexts⟩ := exists_mapM_eq_ok ck.reverse hitems
    rw [htexts]
    rfl
  unfold hierarchicalMerge
  rw [hcks]
  cases cks with
  | nil => exact ⟨[], rfl⟩
  | cons ck cks =>
      rw [ok_bind, if_neg (by simp)]
      dsimp only
      rw [hcks']
      exact ⟨_, rfl⟩

/-- `tree_merge` when no section is kept. -/
theorem treeMerge_of_kept_nil {bull depth : ℤ} {sections : Sections}
    (hsections : sections.isEmpty = false) (hbull : 0 ≤ bull) (hkept : kept sections = []) :
    treeMerge bull sections depth = .error .indexError := by
  have hlines : treeLines bull sections = .ok [] := by
    unfold treeLines
    rw [hkept]
    rfl
  have hlevels : sortedLevels [] = [] := rfl
  rw [treeMerge_of_bull hsections hbull, hlines, ok_bind, hlevels, targetLevel_nil]
  rfl

/-- On a list that is not empty neither function raises exactly when there are no bullets or a
section is kept. -/
theorem merge_ok_iff (numTokensFromString : Str → ℕ) {bull depth : ℤ} {sections : Sections}
    (hsections : sections.isEmpty = false) (hbull : bull < bulletPattern.length)
    (hdepth : 1 ≤ depth) :
    ((∃ res, treeMerge bull sections depth = .ok res) ∧
      ∃ res, hierarchicalMerge numTokensFromString bull sections depth = .ok res) ↔
      bull < 0 ∨ kept sections ≠ [] := by
  have hmerge := hierarchicalMerge_ok numTokensFromString hbull sections depth
  constructor
  · rintro ⟨⟨res, hres⟩, -⟩
    by_cases hneg : bull < 0
    · exact Or.inl hneg
    · refine Or.inr fun hkept => ?_
      rw [treeMerge_of_kept_nil hsections (not_lt.mp hneg) hkept] at hres
      cases hres
  · rintro (hneg | hkept)
    · exact ⟨⟨.sections sections, if_pos (Or.inr hneg)⟩, hmerge⟩
    · refine ⟨?_, hmerge⟩
      by_cases hneg : bull < 0
      · exact ⟨.sections sections, if_pos (Or.inr hneg)⟩
      · obtain ⟨patterns, -, hpatterns⟩ := item_of_range (by omega) hbull
        obtain ⟨target, lines, -, -, hok⟩ :=
          treeMerge_eq (not_lt.mp hneg) hdepth hkept hpatterns
        exact ⟨_, hok⟩

theorem merge_ok_iff_articleFirst :
    (∃ res, treeMerge 0 articleFirst 2 = .ok res) ∧
      ∃ res, hierarchicalMerge List.length 0 articleFirst 2 = .ok res :=
  (merge_ok_iff List.length rfl (by decide) (by decide)).mpr (.inr (by decide))

/-- Nothing but a page number. -/
theorem pageNumber_raises : (Sections.texts ["12".toList]).isEmpty = false ∧
    treeMerge 0 (.texts ["12".toList]) 1 = .error .indexError :=
  ⟨rfl, rfl⟩

end RagFlow.Nlp.Headings
