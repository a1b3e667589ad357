import Mathlib.Data.List.Sublists
import RagFlow.Dict

/-! # Renaming the keys of a dictionary

A list of pairs, an old and a new name each, stands for a simultaneous renaming (`renamed`).
Carried out one after another on the same dictionary (`renameAll`) it may do something else: a
value is renamed twice, or is overwritten before its turn.

`renameAll_perm_iff`: if the pairs are `Apart`, so that the simultaneous renaming loses nothing,
then the two agree exactly when no key of the dictionary gets a name that a later pair takes away
(`NoChain`). -/

namespace RagFlow.Renaming

open Dict

variable {κ β : Type} [DecidableEq κ] [BEq κ] [LawfulBEq κ]

/-- The value of `o`, if there is one, moves to the key `n`. -/
def rename (o n : κ) (d : List (κ × β)) : List (κ × β) :=
  match d.lookup o with
  | none => d
  | some v => set n v (erase o d)

/-- One pair after another; a pair of one name does nothing. -/
def renameAll (pairs : List (κ × κ)) (d : List (κ × β)) : List (κ × β) :=
  pairs.foldl (fun d p => if p.1 = p.2 then d else rename p.1 p.2 d) d

omit [DecidableEq κ] [LawfulBEq κ] in
/-- The name of a key after the renaming. -/
def newName (pairs : List (κ × κ)) (k : κ) : κ := (pairs.lookup k).getD k

/-- All pairs at once. -/
def renamed (pairs : List (κ × κ)) (d : List (κ × β)) : List (κ × β) :=
  d.map (fun e => (newName pairs e.1, e.2))

/-- The old names are distinct, the new names are, and a new name is not that of a key that is not
renamed. -/
structure Apart (pairs : List (κ × κ)) (d : List (κ × β)) : Prop where
  old : (pairs.map Prod.fst).Nodup
  new : (pairs.map Prod.snd).Nodup
  fresh : ∀ k ∈ d.map Prod.fst, k ∈ pairs.map Prod.snd → k ∈ pairs.map Prod.fst

/-- No key of the dictionary gets the old name of a later pair. -/
def NoChain (pairs : List (κ × κ)) (d : List (κ × β)) : Prop :=
  pairs.Pairwise (fun p q => p.1 ∈ d.map Prod.fst → p.2 ≠ q.1)

instance (pairs : List (κ × κ)) (d : List (κ × β)) : Decidable (NoChain pairs d) :=
  inferInstanceAs (Decidable (pairs.Pairwise _))

/-! ### One pair -/

theorem rename_of_not_mem {o n : κ} {d : List (κ × β)} (h : o ∉ d.map Prod.fst) :
    rename o n d = d := by
  unfold rename
  rw [lookup_eq_none_iff.mpr h]

omit [LawfulBEq κ] in
theorem nodup_rename {o n : κ} {d : List (κ × β)} (hd : (d.map Prod.fst).Nodup) :
    ((rename o n d).map Prod.fst).Nodup := by
  unfold rename
  split
  · exact hd
  · exact nodup_set (nodup_erase hd)

/-- The old name is gone. -/
theorem lookup_rename_old {o n : κ} (h : o ≠ n) (d : List (κ × β)) :
    (rename o n d).lookup o = none := by
  unfold rename
  split
  · next hnone => exact hnone
  · rw [lookup_set, if_neg h, lookup_erase, if_pos rfl]

/-- A name that is not given does not come in. -/
theorem lookup_rename_none {o n k : κ} {d : List (κ × β)} (hk : k ≠ n) (h : d.lookup k = none) :
    (rename o n d).lookup k = none := by
  unfold rename
  split
  · exact h
  · rw [lookup_set, if_neg hk, lookup_erase]
    split_ifs
    · rfl
    · exact h

omit [BEq κ] [LawfulBEq κ] in
theorem perm_cons_erase {o : κ} {v : β} {d : List (κ × β)} (hd : (d.map Prod.fst).Nodup)
    (h : (o, v) ∈ d) : d.Perm ((o, v) :: erase o d) := by
  induction d with
  | nil => cases h
  | cons e d ih =>
      obtain ⟨he, hd⟩ := List.nodup_cons.mp hd
      unfold erase
      rcases List.mem_cons.mp h with rfl | h
      · have hrest : d.filter (·.1 ≠ o) = d := by
          refine List.filter_eq_self.mpr (fun x hx => ?_)
          rw [decide_eq_true_iff]
          rintro rfl
          exact he (List.mem_map.mpr ⟨x, hx, rfl⟩)
        rw [List.filter_cons_of_neg (by simp), hrest]
      · have hne : e.1 ≠ o := by
          rintro rfl
          exact he (List.mem_map.mpr ⟨(e.1, v), h, rfl⟩)
        rw [List.filter_cons_of_pos (by simpa using hne)]
        exact ((ih hd h).cons e).trans (List.Perm.swap _ _ _)

omit [BEq κ] [LawfulBEq κ] in
theorem set_of_not_mem {n : κ} {d : List (κ × β)} (h : n ∉ d.map Prod.fst) (v : β) :
    set n v d = d ++ [(n, v)] := by
  induction d with
  | nil => rfl
  | cons e d ih =>
      rw [List.map_cons, List.mem_cons, not_or] at h
      unfold Dict.set
      rw [if_neg (fun he => h.1 he.symm), ih h.2, List.cons_append]

/-- The value moves to a key that is not there. -/
theorem rename_perm {o n : κ} {v : β} {d : List (κ × β)} (hd : (d.map Prod.fst).Nodup)
    (ho : (o, v) ∈ d) (hn : n ∉ d.map Prod.fst) :
    (rename o n d).Perm ((n, v) :: erase o d) := by
  unfold rename
  rw [lookup_of_mem hd ho]
  have herase : n ∉ (erase o d).map Prod.fst := by
    intro h
    obtain ⟨e, he, rfl⟩ := List.mem_map.mp h
    exact hn (List.mem_map_of_mem (List.mem_of_mem_filter he))
  show (Dict.set n v (erase o d)).Perm _
  rw [set_of_not_mem herase]
  exact List.perm_append_singleton _ _

/-! ### All pairs -/

theorem lookup_renameAll_none {pairs : List (κ × κ)} {k : κ} (hk : k ∉ pairs.map Prod.snd)
    {d : List (κ × β)} (h : d.lookup k = none) : (renameAll pairs d).lookup k = none := by
  unfold renameAll
  induction pairs generalizing d with
  | nil => exact h
  | cons p pairs ih =>
      rw [List.map_cons, List.mem_cons, not_or] at hk
      rw [List.foldl_cons]
      split_ifs
      · exact ih hk.2 h
      · exact ih hk.2 (lookup_rename_none hk.1 h)

omit [DecidableEq κ] in
theorem newName_cons (p : κ × κ) (pairs : List (κ × κ)) {k : κ} (h : k ≠ p.1) :
    newName (p :: pairs) k = newName pairs k := by
  unfold newName
  rw [lookup_cons_of_ne h]

omit [DecidableEq κ] in
theorem newName_of_not_mem {pairs : List (κ × κ)} {k : κ} (h : k ∉ pairs.map Prod.fst) :
    newName pairs k = k := by
  unfold newName
  rw [lookup_eq_none_iff.mpr h, Option.getD_none]

omit [DecidableEq κ] in
/-- A pair whose old name is not there, or is the new name, is not missed. -/
theorem renamed_cons_idle {p : κ × κ} {pairs : List (κ × κ)} {d : List (κ × β)}
    (hold : p.1 ∉ pairs.map Prod.fst) (h : p.1 = p.2 ∨ p.1 ∉ d.map Prod.fst) :
    renamed (p :: pairs) d = renamed pairs d := by
  refine List.map_congr_left (fun e he => ?_)
  by_cases hkey : e.1 = p.1
  · rcases h with h | h
    · rw [hkey, newName_of_not_mem hold]
      unfold newName
      rw [List.lookup_cons_self, Option.getD_some, h]
    · exact absurd (hkey ▸ List.mem_map_of_mem he) h
  · rw [newName_cons p pairs hkey]

omit [BEq κ] [LawfulBEq κ] [DecidableEq κ] in
theorem Apart.tail_idle {p : κ × κ} {pairs : List (κ × κ)} {d : List (κ × β)}
    (h : Apart (p :: pairs) d) (hp : p.1 = p.2 ∨ p.1 ∉ d.map Prod.fst) : Apart pairs d := by
  obtain ⟨hold, hnew, hfresh⟩ := h
  refine ⟨hold.of_cons, hnew.of_cons, fun k hk hsnd => ?_⟩
  rcases List.mem_cons.mp (hfresh k hk (List.mem_cons_of_mem _ hsnd)) with rfl | hmem
  · rcases hp with hp | hp
    · exact absurd (hp ▸ hsnd) (List.nodup_cons.mp hnew).1
    · exact absurd hk hp
  · exact hmem

section moved
variable {p : κ × κ} {pairs : List (κ × κ)} {d : List (κ × β)} {v : β}
  (hd : (d.map Prod.fst).Nodup) (hv : (p.1, v) ∈ d) (hfree : p.2 ∉ d.map Prod.fst)
include hd hv hfree

theorem mem_keys_rename {k : κ} (hk : k ∈ (rename p.1 p.2 d).map Prod.fst) :
    k = p.2 ∨ k ∈ d.map Prod.fst ∧ k ≠ p.1 := by
  have hperm := rename_perm hd hv hfree
  rcases List.mem_cons.mp ((hperm.map Prod.fst).mem_iff.mp hk) with hk | hk
  · exact Or.inl hk
  · obtain ⟨e, he, rfl⟩ := List.mem_map.mp hk
    obtain ⟨he, hne⟩ := List.mem_filter.mp he
    exact Or.inr ⟨List.mem_map_of_mem he, by simpa using hne⟩

theorem Apart.tail_moved (h : Apart (p :: pairs) d) : Apart pairs (rename p.1 p.2 d) := by
  refine ⟨h.old.of_cons, h.new.of_cons, fun k hk hsnd => ?_⟩
  rcases mem_keys_rename hd hv hfree hk with rfl | ⟨hk, hk'⟩
  · exact absurd hsnd (List.nodup_cons.mp h.new).1
  · exact (List.mem_cons.mp (h.fresh k hk (List.mem_cons_of_mem _ hsnd))).resolve_left hk'

theorem NoChain.tail_moved (htail : NoChain pairs d) (hlater : p.2 ∉ pairs.map Prod.fst) :
    NoChain pairs (rename p.1 p.2 d) := by
  refine List.Pairwise.imp_of_mem (fun {q r} hq _ hqr hkey => ?_) htail
  rcases mem_keys_rename hd hv hfree hkey with heq | ⟨hk, -⟩
  · exact absurd (List.mem_map.mpr ⟨q, hq, heq⟩) hlater
  · exact hqr hk

/-- After the first pair the others give what all pairs give at once. -/
theorem renamed_rename_perm (hlater : p.2 ∉ pairs.map Prod.fst) :
    (renamed pairs (rename p.1 p.2 d)).Perm (renamed (p :: pairs) d) := by
  have hfirst : newName (p :: pairs) p.1 = p.2 := by
    unfold newName
    rw [List.lookup_cons_self, Option.getD_some]
  refine ((rename_perm hd hv hfree).map _).trans ?_
  refine List.Perm.trans ?_ ((perm_cons_erase hd hv).map _).symm
  rw [List.map_cons, List.map_cons, newName_of_not_mem hlater, hfirst]
  refine List.Perm.of_eq (congrArg _ (List.map_congr_left (fun e he => ?_)))
  have hkey : e.1 ≠ p.1 := by simpa using (List.mem_filter.mp he).2
  rw [newName_cons p pairs hkey]

end moved

/-- Without a chain the pairs may be carried out one after another. -/
theorem renameAll_perm {pairs : List (κ × κ)} {d : List (κ × β)} (h : Apart pairs d)
    (hd : (d.map Prod.fst).Nodup) (hchain : NoChain pairs d) :
    (renameAll pairs d).Perm (renamed pairs d) := by
  induction pairs generalizing d with
  | nil => exact List.Perm.of_eq (List.map_id d).symm
  | cons p pairs ih =>
      obtain ⟨hhead, htail⟩ := List.pairwise_cons.mp hchain
      have hold := (List.nodup_cons.mp h.old).1
      unfold renameAll
      rw [List.foldl_cons]
      by_cases hidle : p.1 = p.2 ∨ p.1 ∉ d.map Prod.fst
      · have hstep : (if p.1 = p.2 then d else rename p.1 p.2 d) = d := by
          split_ifs with heq
          · rfl
          · exact rename_of_not_mem (hidle.resolve_left heq)
        rw [hstep, renamed_cons_idle hold hidle]
        exact ih (h.tail_idle hidle) hd htail
      · rw [not_or, not_not] at hidle
        obtain ⟨hne, hmem⟩ := hidle
        rw [if_neg hne]
        obtain ⟨⟨o, v⟩, hv, ho⟩ := List.mem_map.mp hmem
        dsimp only at ho
        subst ho
        have hlater : p.2 ∉ pairs.map Prod.fst := by
          intro hlater
          obtain ⟨q, hq, heq⟩ := List.mem_map.mp hlater
          exact hhead q hq hmem heq.symm
        -- the new name is free: a key of that name would have to be renamed later
        have hfree : p.2 ∉ d.map Prod.fst := by
          intro hk
          rcases List.mem_cons.mp (h.fresh p.2 hk List.mem_cons_self) with heq | hmem
          · exact hne heq.symm
          · exact hlater hmem
        exact (ih (h.tail_moved hd hv hfree) (nodup_rename hd)
          (NoChain.tail_moved hd hv hfree htail hlater)).trans
            (renamed_rename_perm hd hv hfree hlater)

omit [DecidableEq κ] in
theorem newName_of_mem {pairs : List (κ × κ)} (hold : (pairs.map Prod.fst).Nodup) {p : κ × κ}
    (hp : p ∈ pairs) : newName pairs p.1 = p.2 := by
  unfold newName
  rw [lookup_of_mem hold hp, Option.getD_some]

/-- A chain loses the name in the middle. -/
theorem noChain_of_perm {pairs : List (κ × κ)} {d : List (κ × β)} (h : Apart pairs d)
    (hperm : (renameAll pairs d).Perm (renamed pairs d)) : NoChain pairs d := by
  unfold NoChain
  rw [List.pairwise_iff_forall_sublist]
  intro p q hsub hkey heq
  obtain ⟨front, back, rfl, hp, hq⟩ := List.cons_sublist_iff.mp hsub
  obtain ⟨before, after, rfl⟩ := List.append_of_mem (List.singleton_sublist.mp hq)
  obtain ⟨e, he, hpe⟩ := List.mem_map.mp hkey
  have hmem : p.2 ∈ (renamed (front ++ (before ++ q :: after)) d).map Prod.fst := by
    refine List.mem_map.mpr ⟨_, List.mem_map_of_mem he, ?_⟩
    show newName _ e.1 = p.2
    rw [hpe]
    exact newName_of_mem h.old (List.mem_append_left _ hp)
  have hnew := h.new
  rw [List.map_append] at hnew
  have hapart : ∀ r ∈ before ++ q :: after, r.2 ≠ p.2 := by
    intro r hr hrp
    refine (List.nodup_append.mp hnew).2.2 p.2 (List.mem_map_of_mem hp) r.2 ?_ hrp.symm
    exact List.mem_map_of_mem hr
  have hq : q.1 ≠ q.2 := by
    rw [← heq]
    exact (hapart q (List.mem_append_right _ List.mem_cons_self)).symm
  have hafter : p.2 ∉ after.map Prod.snd := by
    intro hmem
    obtain ⟨r, hr, hrp⟩ := List.mem_map.mp hmem
    exact hapart r (List.mem_append_right _ (List.mem_cons_of_mem _ hr)) hrp
  have hnone : (renameAll (front ++ (before ++ q :: after)) d).lookup p.2 = none := by
    unfold renameAll
    rw [List.foldl_append, List.foldl_append, List.foldl_cons, if_neg hq]
    refine lookup_renameAll_none hafter ?_
    rw [heq]
    exact lookup_rename_old hq _
  exact lookup_eq_none_iff.mp hnone ((hperm.map Prod.fst).mem_iff.mpr hmem)

/-- Renaming one after another is renaming at once, exactly if there is no chain. -/
theorem renameAll_perm_iff {pairs : List (κ × κ)} {d : List (κ × β)} (h : Apart pairs d)
    (hd : (d.map Prod.fst).Nodup) :
    (renameAll pairs d).Perm (renamed pairs d) ↔ NoChain pairs d :=
  ⟨noChain_of_perm h, renameAll_perm h hd⟩

end RagFlow.Renaming
