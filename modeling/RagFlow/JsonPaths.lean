import Mathlib.Data.List.Infix
import RagFlow.Dict
import RagFlow.PyJson

/-! # Paths in nested dictionaries

JSON values as trees: a dictionary is a node, everything else and the empty dictionary are leaves.

* **Placing.** `place old p v` puts the value `v` at the path `p` of a value, making the
  dictionaries on the way; `Free old p` says that nothing is at, below or on the way to the path.
* **Merging.** `deepMerge` merges dictionaries key by key.  Placing at a free path commutes with it
  (`deepMerge_place`).
* **Key paths.** `keyPaths` are the paths of the leaves.  What is placed adds its own key paths
  (`mem_keyPaths_place`).
* **Rebuilding.** Placing the entries of a dictionary one after another is placing the dictionary
  (`foldl_place`). -/

namespace RagFlow.Json

open Py

variable {F : Type}

/-- The keys from the root to a value. -/
abbrev Path := List Str

/-- The entries of a dictionary, none of any other value. -/
def entriesOf : Option (Json F) → List (Str × Json F)
  | some (dict es) => es
  | _ => []

/-- The value with `v` at the path. -/
def place : Option (Json F) → Path → Json F → Json F
  | _, [], v => v
  | old, k :: p, v =>
      dict (Dict.set k (place ((entriesOf old).lookup k) p v) (entriesOf old))

/-- Nothing is at the path, below it, or on the way to it but dictionaries. -/
def Free : Option (Json F) → Path → Prop
  | none, _ => True
  | some (dict es), k :: p => Free (es.lookup k) p
  | some _, _ => False

mutual
/-- The values of the second dictionary are merged into the first, recursively. -/
def deepMerge : Option (Json F) → Json F → Json F
  | some (dict a), dict b => dict (mergeEntries a b)
  | _, v => v

def mergeEntries : List (Str × Json F) → List (Str × Json F) → List (Str × Json F)
  | a, [] => a
  | a, (k, v) :: b => mergeEntries (Dict.set k (deepMerge (a.lookup k) v) a) b
end

/-- Merging where there may be no second value. -/
def mergeOpt (m : Option (Json F)) : Option (Json F) → Option (Json F)
  | none => m
  | some v => some (deepMerge m v)

mutual
/-- The paths of the leaves. -/
def keyPaths : Json F → List Path
  | dict es => if es.isEmpty then [[]] else entryPaths es
  | _ => [[]]

/-- The paths of the leaves below the entries. -/
def entryPaths : List (Str × Json F) → List Path
  | [] => []
  | (k, v) :: es => (keyPaths v).map (k :: ·) ++ entryPaths es
end

/-! ### Free paths -/

theorem free_none (p : Path) : Free (none : Option (Json F)) p := by
  unfold Free
  trivial

@[simp] theorem free_dict_cons (es : List (Str × Json F)) (k : Str) (p : Path) :
    Free (some (dict es)) (k :: p) ↔ Free (es.lookup k) p := by
  rw [Free]

theorem eq_none_of_free_nil {old : Option (Json F)} (h : Free old []) : old = none := by
  cases old with
  | none => rfl
  | some v => cases v <;> simp [Free] at h

/-- Below a free path there is a dictionary or nothing. -/
theorem free_entries {old : Option (Json F)} {k : Str} {p : Path} (h : Free old (k :: p)) :
    (old = none ∨ ∃ es, old = some (dict es)) ∧ Free ((entriesOf old).lookup k) p := by
  cases old with
  | none => exact ⟨Or.inl rfl, free_none p⟩
  | some v =>
      cases v with
      | dict es => exact ⟨Or.inr ⟨es, rfl⟩, (free_dict_cons es k p).mp h⟩
      | _ => simp [Free] at h

theorem free_empty {k : Str} {p : Path} :
    Free (some (dict ([] : List (Str × Json F)))) (k :: p) := by
  rw [free_dict_cons]
  exact free_none p

/-- Below a free path everything is free. -/
theorem free_append {old : Option (Json F)} {p : Path} (h : Free old p) (q : Path) :
    Free old (p ++ q) := by
  induction p generalizing old with
  | nil =>
      rw [eq_none_of_free_nil h]
      exact free_none _
  | cons k p ih =>
      obtain ⟨hold | ⟨es, hold⟩, hrest⟩ := free_entries h
      · rw [hold]
        exact free_none _
      · subst hold
        rw [List.cons_append, free_dict_cons]
        exact ih hrest

/-- Placing a value leaves the paths free that are not comparable with its own. -/
theorem free_place {old : Option (Json F)} {p q : Path} (v : Json F) (hpq : ¬ p <+: q)
    (hqp : ¬ q <+: p) (h : Free old q) : Free (some (place old p v)) q := by
  induction p generalizing old q with
  | nil => exact absurd List.nil_prefix hpq
  | cons k p ih =>
      cases q with
      | nil => exact absurd List.nil_prefix hqp
      | cons k' q =>
          obtain ⟨-, hrest⟩ := free_entries h
          rw [place, free_dict_cons, Dict.lookup_set]
          split_ifs with hk
          · subst hk
            refine ih ?_ ?_ hrest
            · exact fun hp => hpq (List.cons_prefix_cons.mpr ⟨rfl, hp⟩)
            · exact fun hq => hqp (List.cons_prefix_cons.mpr ⟨rfl, hq⟩)
          · exact hrest

/-- Placing keeps the keys of dictionaries distinct. -/
theorem place_wf {old : Option (Json F)} {p : Path} {v : Json F} (hold : ∀ w ∈ old, w.WF)
    (hv : v.WF) : (place old p v).WF := by
  induction p generalizing old with
  | nil => exact hv
  | cons k p ih =>
      have hes : (dict (entriesOf old)).WF := by
        cases old with
        | none => exact ⟨List.nodup_nil, trivial⟩
        | some w =>
            cases w with
            | dict es => exact hold _ rfl
            | _ => exact ⟨List.nodup_nil, trivial⟩
      rw [place, ← setItem_eq]
      refine setItem_wf (ih (fun w hw => ?_)) hes
      exact wfEntries_iff.mp hes.2 _ (Dict.mem_of_lookup hw)

/-! ### Merging -/

section merge

theorem mergeEntries_nil (a : List (Str × Json F)) : mergeEntries a [] = a := by
  rw [mergeEntries]

theorem mergeEntries_cons (a : List (Str × Json F)) (e : Str × Json F) (b : List (Str × Json F)) :
    mergeEntries a (e :: b) = mergeEntries (Dict.set e.1 (deepMerge (a.lookup e.1) e.2) a) b := by
  obtain ⟨k, v⟩ := e
  rw [mergeEntries]

/-- What the merged dictionary has at a key. -/
theorem lookup_mergeEntries {b : List (Str × Json F)} (hb : (b.map Prod.fst).Nodup)
    (a : List (Str × Json F)) (k : Str) :
    (mergeEntries a b).lookup k = mergeOpt (a.lookup k) (b.lookup k) := by
  induction b generalizing a with
  | nil => rw [mergeEntries_nil]; rfl
  | cons e b ih =>
      rw [List.map_cons, List.nodup_cons] at hb
      rw [mergeEntries_cons, ih hb.2, Dict.lookup_set]
      by_cases hk : k = e.1
      · subst hk
        rw [if_pos rfl, Dict.lookup_eq_none_iff.mpr hb.1, List.lookup_cons_self]
        rfl
      · rw [if_neg hk, Dict.lookup_cons_of_ne hk]

/-- An entry under another key can be set before the merge. -/
theorem set_mergeEntries {k : Str} (v : Json F) {b : List (Str × Json F)} (hb : k ∉ b.map Prod.fst)
    {a : List (Str × Json F)} (ha : k ∈ a.map Prod.fst) :
    Dict.set k v (mergeEntries a b) = mergeEntries (Dict.set k v a) b := by
  induction b generalizing a with
  | nil => rw [mergeEntries_nil, mergeEntries_nil]
  | cons e b ih =>
      rw [List.map_cons, List.mem_cons, not_or] at hb
      have hmem : k ∈ (Dict.set e.1 (deepMerge (a.lookup e.1) e.2) a).map Prod.fst := by
        rw [Dict.keys_set]
        split_ifs
        · exact ha
        · exact List.mem_append_left _ ha
      rw [mergeEntries_cons, mergeEntries_cons, ih hb.2 hmem, Dict.lookup_set,
        if_neg (Ne.symm hb.1), Dict.set_comm hb.1 _ _ ha]

/-- Setting an entry of the second dictionary sets the merged one. -/
theorem mergeEntries_set (k : Str) (v : Json F) {b : List (Str × Json F)}
    (hb : (b.map Prod.fst).Nodup) (a : List (Str × Json F)) :
    mergeEntries a (Dict.set k v b) = Dict.set k (deepMerge (a.lookup k) v) (mergeEntries a b) := by
  induction b generalizing a with
  | nil => rw [Dict.set, mergeEntries_cons, mergeEntries_nil, mergeEntries_nil]
  | cons e b ih =>
      rw [List.map_cons, List.nodup_cons] at hb
      rw [Dict.set_cons]
      by_cases he : e.1 = k
      · subst he
        have hmem : e.1 ∈ (Dict.set e.1 (deepMerge (a.lookup e.1) e.2) a).map Prod.fst := by
          rw [Dict.keys_set]
          split_ifs with h
          · exact h
          · simp
        rw [if_pos rfl, mergeEntries_cons, mergeEntries_cons, set_mergeEntries _ hb.1 hmem,
          Dict.set_set]
      · rw [if_neg he, mergeEntries_cons, mergeEntries_cons, ih hb.2, Dict.lookup_set,
          if_neg (Ne.symm he)]

/-- A path that is free in both values is free in the merged one. -/
theorem free_mergeOpt {m c : Option (Json F)} {p : Path} (hc : ∀ w ∈ c, w.WF) (hm : Free m p)
    (hfree : Free c p) : Free (mergeOpt m c) p := by
  induction p generalizing m c with
  | nil =>
      rw [eq_none_of_free_nil hfree, eq_none_of_free_nil hm]
      exact free_none _
  | cons k p ih =>
      obtain ⟨rfl | ⟨es, rfl⟩, hrest⟩ := free_entries hm
      · obtain ⟨rfl | ⟨es', rfl⟩, -⟩ := free_entries hfree
        · exact free_none _
        · rw [mergeOpt, deepMerge]
          · exact hfree
          · rintro _ _ h
            cases h
      · obtain ⟨rfl | ⟨es', rfl⟩, hrest'⟩ := free_entries hfree
        · exact hm
        · have hwf := hc _ rfl
          rw [mergeOpt, deepMerge, free_dict_cons, lookup_mergeEntries hwf.1]
          exact ih (fun w hw => wfEntries_iff.mp hwf.2 _ (Dict.mem_of_lookup hw)) hrest hrest'

/-- Placing a value at a free path of the second value places it in the merged one. -/
theorem deepMerge_place {m c : Option (Json F)} {p : Path} (v : Json F) (hc : ∀ w ∈ c, w.WF)
    (hm : Free m p) (hfree : Free c p) :
    deepMerge m (place c p v) = place (mergeOpt m c) p v := by
  induction p generalizing m c with
  | nil =>
      rw [eq_none_of_free_nil hfree, eq_none_of_free_nil hm, place, mergeOpt, place, deepMerge]
      rintro _ _ h
      cases h
  | cons k p ih =>
      obtain ⟨hcases, hrest'⟩ := free_entries hfree
      obtain ⟨rfl | ⟨es, rfl⟩, hrest⟩ := free_entries hm
      · have hnone : ∀ w : Json F, deepMerge none w = w := by
          intro w
          rw [deepMerge]
          rintro _ _ h
          cases h
        rw [hnone]
        obtain rfl | ⟨es', rfl⟩ := hcases
        · rfl
        · rw [mergeOpt, hnone]
      · have hwf : (dict (entriesOf c)).WF := by
          obtain rfl | ⟨es', rfl⟩ := hcases
          · exact ⟨List.nodup_nil, trivial⟩
          · exact hc _ rfl
        have hmerge : entriesOf (mergeOpt (some (dict es)) c) = mergeEntries es (entriesOf c) := by
          obtain rfl | ⟨es', rfl⟩ := hcases
          · exact (mergeEntries_nil es).symm
          · rw [mergeOpt, deepMerge]
            rfl
        have hrest : Free (es.lookup k) p := hrest
        rw [place, deepMerge, mergeEntries_set _ _ hwf.1, place, hmerge, lookup_mergeEntries hwf.1,
          ih (fun w hw => wfEntries_iff.mp hwf.2 _ (Dict.mem_of_lookup hw)) hrest hrest']

end merge

/-! ### Key paths -/

theorem mem_entryPaths {es : List (Str × Json F)} {q : Path} :
    q ∈ entryPaths es ↔ ∃ e ∈ es, ∃ r ∈ keyPaths e.2, q = e.1 :: r := by
  induction es with
  | nil => simp [entryPaths]
  | cons e es ih =>
      obtain ⟨k, v⟩ := e
      rw [entryPaths, List.mem_append, ih, List.mem_map]
      simp only [List.exists_mem_cons_iff, eq_comm]

theorem keyPaths_dict {es : List (Str × Json F)} (h : es ≠ []) :
    keyPaths (dict es) = entryPaths es := by
  rw [keyPaths, if_neg (by simpa using h)]

theorem entryPaths_subset (es : List (Str × Json F)) : entryPaths es ⊆ keyPaths (dict es) := by
  cases es with
  | nil => exact List.nil_subset _
  | cons e es => exact (keyPaths_dict (List.cons_ne_nil e es)).symm ▸ List.Subset.refl _

/-- A key path below a placed value is one of the value's, or it was there before. -/
theorem mem_keyPaths_place {old : Option (Json F)} {p q : Path} {v : Json F}
    (h : q ∈ keyPaths (place old p v)) :
    q ∈ entryPaths (entriesOf old) ∨ ∃ r ∈ keyPaths v, q = p ++ r := by
  induction p generalizing old q with
  | nil => exact Or.inr ⟨q, h, rfl⟩
  | cons k p ih =>
      have hne : Dict.set k (place ((entriesOf old).lookup k) p v) (entriesOf old) ≠ [] := by
        intro hnil
        have hkeys := Dict.keys_set k (place ((entriesOf old).lookup k) p v) (entriesOf old)
        rw [hnil] at hkeys
        split_ifs at hkeys with hk
        · rw [← hkeys] at hk
          cases hk
        · exact absurd hkeys.symm (by simp)
      rw [place, keyPaths_dict hne, mem_entryPaths] at h
      obtain ⟨e, he, r, hr, rfl⟩ := h
      rcases Dict.mem_of_mem_set he with rfl | he
      · rcases ih hr with hin | ⟨r', hr', rfl⟩
        · left
          cases hl : (entriesOf old).lookup k with
          | none => rw [hl] at hin; cases hin
          | some w =>
              rw [hl] at hin
              refine mem_entryPaths.mpr ⟨(k, w), Dict.mem_of_lookup hl, r, ?_, rfl⟩
              cases w with
              | dict es => exact entryPaths_subset es hin
              | _ => cases hin
        · exact Or.inr ⟨r', hr', rfl⟩
      · exact Or.inl (mem_entryPaths.mpr ⟨e, he, r, hr, rfl⟩)

/-- No key path of a value begins with a free path. -/
theorem not_prefix_of_free {es : List (Str × Json F)} {p q : Path} (hwf : (dict es).WF)
    (h : Free (some (dict es)) p) (hq : q ∈ entryPaths es) : ¬ p <+: q := by
  induction p generalizing es q with
  | nil => cases eq_none_of_free_nil h
  | cons k p ih =>
      obtain ⟨e, he, r, hr, rfl⟩ := mem_entryPaths.mp hq
      rw [List.cons_prefix_cons]
      rintro ⟨rfl, hp⟩
      rw [free_dict_cons, Dict.lookup_of_mem hwf.1 he] at h
      have he' := wfEntries_iff.mp hwf.2 e he
      cases hv : e.2 with
      | dict es' =>
          rw [hv] at h hr he'
          by_cases hes : es' = []
          · subst hes
            rw [keyPaths, if_pos List.isEmpty_nil, List.mem_singleton] at hr
            subst hr
            rw [List.prefix_nil] at hp
            subst hp
            cases eq_none_of_free_nil h
          · rw [keyPaths_dict hes] at hr
            exact ih he' h hr hp
      | _ =>
          rw [hv] at h
          cases p <;> simp [Free] at h

/-! ### Rebuilding -/

/-- The value at a path. -/
def valueAt : Option (Json F) → Path → Option (Json F)
  | old, [] => old
  | old, k :: p => valueAt ((entriesOf old).lookup k) p

theorem valueAt_of_free {old : Option (Json F)} {p : Path} (h : Free old p) :
    valueAt old p = none := by
  induction p generalizing old with
  | nil => exact eq_none_of_free_nil h
  | cons k p ih => exact ih (free_entries h).2

theorem place_append (old : Option (Json F)) (p q : Path) (v : Json F) :
    place old (p ++ q) v = place old p (place (valueAt old p) q v) := by
  induction p generalizing old with
  | nil => rfl
  | cons k p ih => rw [List.cons_append, place, ih, place, valueAt]

theorem valueAt_place (old : Option (Json F)) (p : Path) (v : Json F) :
    valueAt (some (place old p v)) p = some v := by
  induction p generalizing old with
  | nil => rfl
  | cons k p ih =>
      rw [place, valueAt, entriesOf, Dict.lookup_set, if_pos rfl]
      exact ih _

/-- The second of two values at a path counts. -/
theorem place_place (old : Option (Json F)) (p : Path) (v w : Json F) :
    place (some (place old p w)) p v = place old p v := by
  induction p generalizing old with
  | nil => rfl
  | cons k p ih =>
      rw [place, place, entriesOf, Dict.lookup_set, if_pos rfl, Dict.set_set, ih, place]

/-- Placing the entries of a dictionary one after another below a path places the dictionary. -/
theorem foldl_place {m : Json F} {p : Path} {es : List (Str × Json F)} (hne : es ≠ [])
    (hm : entriesOf (valueAt (some m) p) = []) (hes : (es.map Prod.fst).Nodup) :
    es.foldl (fun m e => place (some m) (p ++ [e.1]) e.2) m = place (some m) p (dict es) := by
  have hrest : ∀ (b a : List (Str × Json F)), ((a ++ b).map Prod.fst).Nodup →
      b.foldl (fun m e => place (some m) (p ++ [e.1]) e.2) (place (some m) p (dict a)) =
        place (some m) p (dict (a ++ b)) := by
    intro b
    induction b with
    | nil =>
        intro a _
        rw [List.append_nil]
        rfl
    | cons e b ih =>
        intro a hab
        have hnew : e.1 ∉ a.map Prod.fst := by
          rw [List.map_append, List.map_cons, List.nodup_append] at hab
          intro he
          exact hab.2.2 _ he _ List.mem_cons_self rfl
        have hset : Dict.set e.1 e.2 a = a ++ [e] := by
          rw [← setItem_eq]
          exact setItem_new hnew
        rw [List.foldl_cons, place_append, valueAt_place, place_place, place, place, entriesOf,
          hset, ih _ (by rwa [List.append_assoc]), List.append_assoc]
        rfl
  cases es with
  | nil => exact absurd rfl hne
  | cons e es =>
      have hfirst : place (some m) (p ++ [e.1]) e.2 = place (some m) p (dict [e]) := by
        rw [place_append, place, hm]
        rfl
      rw [List.foldl_cons, hfirst]
      exact hrest es [e] hes

end RagFlow.Json
