import RagFlow.Columns
import RagFlow.FileType
import RagFlow.ParentTree
import RagFlow.Table
import Mathlib.Data.Finset.Card

/-! # Moving files and folders

The request `mv` of `api/apps/file_app.py`.  Files and folders are rows with a parent; the parent of
the root folder is the root folder.

* **A file** is moved in the storage, to a name that is free there, and gets the new parent.
* **A folder** is not moved.  `_move_entry_recursive` takes the entry of the destination that has
  its name, moves what is in the folder there, and deletes the folder.  If there is no such entry a
  new folder should be made; but the user, which is its creator, is not known in a thread of the
  pool, so that this raises.

So a folder that is moved to where it is, or whose contents come to be merged into it, is deleted
with what has just been put into it.  `move_keeps_files`: the move ends, and apart from this it
keeps all files in the tree and makes no cycle. -/

namespace RagFlow.FileMove

open Py ParentTree

/-! ### Rows and the storage -/

structure FileRow where
  id : Str
  parentId : Str
  tenantId : Str
  createdBy : Str
  name : Str
  location : Str
  size : ℕ
  type : FileType
deriving DecidableEq

/-- The rows, and the objects in the storage by bucket and name. -/
structure State where
  files : Table FileRow (·.id)
  objects : List (Str × Str)

/-- `check_file_team_permission` for the user, and how the database compares names. -/
structure Env where
  permitted : FileRow → Bool
  collation : Collation

/-! ### The request -/

/-- `new_location`: the name with underscores, as many as it needs to be free; `none` if `fuel` is
not enough for the loop to end. -/
def freeLocation (objects : List (Str × Str)) (bucket : Str) : ℕ → Str → Option Str
  | 0, _ => none
  | fuel + 1, location =>
      if (bucket, location) ∈ objects then freeLocation objects bucket fuel (location ++ ['_'])
      else some location

/-- `STORAGE_IMPL.move`: it does nothing if there is no such object. -/
def moveObject (src dest : Str × Str) (objects : List (Str × Str)) : List (Str × Str) :=
  if src ∈ objects then objects.filter (· ≠ src) ++ [dest] else objects

def setPlace (destId location : Str) (e : FileRow) : FileRow :=
  { e with parentId := destId, location := location }

/-- `_move_entry_recursive` for a file. -/
def moveFile (e : FileRow) (destId : Str) (st : State) : Option State :=
  (freeLocation st.objects destId (st.objects.length + 1) e.name).map (fun location =>
    { st with
      files := st.files.updateWhere (·.id = e.id) (setPlace destId location) (fun _ => rfl)
      objects := moveObject (e.parentId, e.location) (destId, location) st.objects })

/-- The first entry of the destination with this name, of whatever type. -/
def existingFolder (env : Env) (e : FileRow) (destId : Str) (st : State) : Option FileRow :=
  (st.files.select (fun r => env.collation.same r.name e.name && r.parentId = destId)).head?

/-- `list_all_files_by_parent_id`. -/
def subFiles (st : State) (id : Str) : List FileRow :=
  st.files.select (fun r => r.parentId = id && r.id ≠ id)

def deleteById (id : Str) (st : State) : State :=
  { st with files := st.files.deleteWhere (·.id = id) }

/-- The entries one after the other, up to the first for which an exception is raised. -/
def moveAll (move : FileRow → State → Option (Except State State)) :
    List FileRow → State → Option (Except State State)
  | [], st => some (.ok st)
  | e :: entries, st =>
      match move e st with
      | some (.ok st) => moveAll move entries st
      | r => r

/-- `_move_entry_recursive`, with at most `fuel` calls within each other; `none` if that is not
enough.  An exception leaves what has been done. -/
def moveEntry (env : Env) : ℕ → FileRow → Str → State → Option (Except State State)
  | 0, _, _, _ => none
  | fuel + 1, e, destId, st =>
      if e.type = .folder then
        match existingFolder env e destId st with
        -- `current_user.id` raises.
        | none => some (.error st)
        | some folder =>
            (moveAll (fun sub st => moveEntry env fuel sub folder.id st) (subFiles st e.id) st).map
              (·.map (deleteById e.id))
      else (moveFile e destId st).map .ok

/-- `_move_sync`: the entries that were read at the beginning. -/
def move (env : Env) (fuel : ℕ) (entries : List FileRow) (destId : Str) (st : State) :
    Option (Except State State) :=
  moveAll (fun e st => moveEntry env fuel e destId st) entries st

inductive Reply
  | dataError (message : String)
  | authenticationError (message : String)
  | serverError
  | moved
deriving DecidableEq

/-- The first of the ids that may not be moved, and why. -/
def refusal (env : Env) (files : List FileRow) : List Str → Option Reply
  | [] => none
  | id :: fileIds =>
      match files.find? (·.id = id) with
      | none => some (.dataError "File or folder not found!")
      | some file =>
          if file.tenantId = [] then some (.dataError "Tenant not found!")
          else if !env.permitted file then some (.authenticationError "No authorization.")
          else refusal env files fileIds

/-- The reply to a request that raises is a server error. -/
def answer : Except State State → Reply × State
  | .ok st => (.moved, st)
  | .error st => (.serverError, st)

/-- The request `mv`. -/
def mv (env : Env) (fuel : ℕ) (fileIds : List Str) (destParentId : Str) (st : State) :
    Option (Reply × State) :=
  match st.files.get? destParentId with
  | none => some (.dataError "Parent folder not found!", st)
  | some destFolder =>
      match st.files.select (·.id ∈ fileIds) with
      | [] => some (.dataError "Source files not found!", st)
      | file :: files =>
          match refusal env (file :: files) fileIds with
          | some reply => some (reply, st)
          | none => (move env fuel (file :: files) destFolder.id st).map answer

/-! ### The tree -/

/-- The parents of the rows. -/
def State.parent (st : State) (x : Str) : Option Str := (st.files.get? x).map (·.parentId)

/-- `x` is `e` or below it. -/
def Under (st : State) (e x : Str) : Prop := Chain st.parent x e

theorem parent_eq_some {st : State} {x y : Str} :
    st.parent x = some y ↔ ∃ r, st.files.get? x = some r ∧ r.parentId = y := by
  simp [State.parent]

theorem id_of_get? {st : State} {x : Str} {r : FileRow} (h : st.files.get? x = some r) : r.id = x :=
  (Table.get?_eq_some.mp h).2

theorem parent_of_get? {st : State} {x : Str} {r : FileRow} (h : st.files.get? x = some r) :
    st.parent x = some r.parentId :=
  parent_eq_some.mpr ⟨r, h, rfl⟩

/-- The entry with the name is in the destination. -/
theorem existingFolder_eq_some {env : Env} {e r : FileRow} {d : Str} {st : State}
    (h : existingFolder env e d st = some r) :
    st.files.get? r.id = some r ∧ r.parentId = d ∧ env.collation.same r.name e.name = true := by
  obtain ⟨hrow, hprop⟩ := Table.mem_select.mp (List.mem_of_mem_head? h)
  simp only [Bool.and_eq_true, decide_eq_true_eq] at hprop
  exact ⟨Table.get?_eq_some.mpr ⟨hrow, rfl⟩, hprop.2, hprop.1⟩

/-- The entries of a folder, and nothing else, have it as their parent. -/
theorem mem_subFiles {st : State} {id : Str} {c : FileRow} :
    c ∈ subFiles st id ↔ st.files.get? c.id = some c ∧ c.parentId = id ∧ c.id ≠ id := by
  unfold subFiles
  rw [Table.mem_select, Table.get?_eq_some]
  simp

/-- What is there has been there, with its name and type and, if it is a folder, as it is. -/
def Kept (st st' : State) : Prop := ∀ x r', st'.files.get? x = some r' →
  ∃ r, st.files.get? x = some r ∧ r.name = r'.name ∧ r.type = r'.type ∧ (r.type = .folder → r' = r)

theorem Kept.trans {st st' st'' : State} (h : Kept st st') (h' : Kept st' st'') :
    Kept st st'' := by
  intro x r'' hr''
  obtain ⟨r', hr', hname', htype', hsame'⟩ := h' x r'' hr''
  obtain ⟨r, hr, hname, htype, hsame⟩ := h x r' hr'
  refine ⟨r, hr, hname.trans hname', htype.trans htype', fun hfolder => ?_⟩
  rw [hsame' (htype.symm.trans hfolder), hsame hfolder]

/-- What the move of the entry `e` changes: only what is below it, and the files are still there. -/
structure Moved (root e : Str) (st st' : State) : Prop where
  rooted : Rooted st'.parent root
  kept : Kept st st'
  frame : ∀ {x r}, st.files.get? x = some r → ¬ Under st e x → st'.files.get? x = some r
  files : ∀ {x r}, st.files.get? x = some r → r.type ≠ .folder →
    ∃ r', st'.files.get? x = some r' ∧ r'.type ≠ .folder

section moved
variable {root e c : Str} {st st' st'' : State}

theorem Moved.refl (hrooted : Rooted st.parent root) (e : Str) : Moved root e st st :=
  ⟨hrooted, fun _ _ hr => ⟨_, hr, rfl, rfl, fun _ => rfl⟩, fun hr _ => hr,
    fun hr hfile => ⟨_, hr, hfile⟩⟩

/-- What is below an entry above `e` has been below it. -/
theorem Moved.under (h : Moved root e st st') {a x : Str} (ha : Under st a e)
    (hx : Under st' a x) : Under st a x := by
  induction hx using Relation.ReflTransGen.head_induction_on with
  | refl => exact Chain.refl _
  | head hp _ ih =>
      rename_i x y _
      by_cases hunder : Under st e x
      · exact Chain.trans hunder ha
      · obtain ⟨r', hr', rfl⟩ := parent_eq_some.mp hp
        obtain ⟨r, hr, -⟩ := h.kept _ _ hr'
        have hsame := h.frame hr hunder
        rw [hr'] at hsame
        cases hsame
        exact Chain.head (parent_of_get? hr) ih

theorem Moved.trans (h : Moved root e st st') (h' : Moved root e st' st'') :
    Moved root e st st'' where
  rooted := h'.rooted
  kept := h.kept.trans h'.kept
  frame hr hx := h'.frame (h.frame hr hx) (fun hunder => hx (h.under (Chain.refl e) hunder))
  files hr hfile := by
    obtain ⟨r', hr', hfile'⟩ := h.files hr hfile
    exact h'.files hr' hfile'

theorem Moved.mono (h : Moved root c st st') (hc : Under st e c) : Moved root e st st' where
  rooted := h.rooted
  kept := h.kept
  frame hr hx := h.frame hr (fun hunder => hx (Chain.trans hunder hc))
  files := h.files

/-- What is above an entry that is not below `e` stays above it. -/
theorem Moved.above_iff (hrooted : Rooted st.parent root) (h : Moved root e st st') {x y : Str}
    (hx : (st.parent x).isSome) (hbelow : ¬ Under st e x) : Under st' y x ↔ Under st y x := by
  have hsame : ∀ z, Under st z x → st'.parent z = st.parent z := by
    intro z hz
    obtain ⟨p, hp⟩ := Option.isSome_iff_exists.mp (hrooted.isSome_of_chain hx hz)
    obtain ⟨r, hr, -⟩ := parent_eq_some.mp hp
    rw [parent_of_get? hr, parent_of_get? (h.frame hr (fun hunder => ?_))]
    exact hbelow (Chain.trans hz hunder)
  constructor
  · intro hy
    induction hy with
    | refl => exact Chain.refl x
    | tail _ hp ih => exact ih.tail ((hsame _ ih).symm.trans hp)
  · intro hy
    exact Chain.congr hy (fun z hz _ _ => hsame z hz)

end moved

/-- What is still below `e₀` is as it was. -/
def Inside (e₀ : Str) (st st' : State) : Prop :=
  ∀ x r, st'.files.get? x = some r → Under st' e₀ x → st.files.get? x = some r

section inside
variable {e₀ : Str} {st st' st'' : State}

/-- What is below `e₀` has been below it. -/
theorem Inside.under (h : Inside e₀ st st') {x : Str} (hx : Under st' e₀ x) : Under st e₀ x := by
  refine Chain.congr hx (fun y _ hy hne => ?_)
  rcases hy.cases_head with heq | ⟨z, hp, -⟩
  · exact absurd heq hne
  · obtain ⟨r, hr, rfl⟩ := parent_eq_some.mp hp
    rw [hp]
    exact parent_of_get? (h y r hr hy)

theorem Inside.trans (h : Inside e₀ st st') (h' : Inside e₀ st' st'') : Inside e₀ st st'' :=
  fun x r hr hx => h x r (h' x r hr hx) (h'.under hx)

/-- The entry is not below `e₀` any more, if it is there. -/
def Gone (e₀ : Str) (st : State) (x : Str) : Prop := ∀ p, st.parent x = some p → ¬ Under st e₀ p

end inside

/-! ### The steps -/

section steps
variable {env : Env} {root e₀ d : Str} {e : FileRow} {st st' : State}

theorem get?_deleteById (id x : Str) :
    (deleteById id st).files.get? x = if x = id then none else st.files.get? x :=
  Table.get?_deleteWhere id x

/-- Nothing else is left than was there. -/
theorem get?_of_deleteById {id x : Str} {r : FileRow}
    (h : (deleteById id st).files.get? x = some r) : x ≠ id ∧ st.files.get? x = some r := by
  rw [get?_deleteById] at h
  split at h
  case isTrue => cases h
  case isFalse hx => exact ⟨hx, h⟩

theorem inside_deleteById (e₀ id : Str) : Inside e₀ st (deleteById id st) :=
  fun _ _ hr _ => (get?_of_deleteById hr).2

/-- Delete a folder without entries, or one that is not there. -/
theorem moved_deleteById (hrooted : Rooted st.parent root) {id : Str}
    (htype : ∀ r, st.files.get? id = some r → r.type = .folder)
    (hchild : ∀ x, st.parent x ≠ some id) : Moved root id st (deleteById id st) := by
  have hkeep : ∀ {x r}, st.files.get? x = some r → x ≠ id →
      (deleteById id st).files.get? x = some r := by
    intro x r hr hx
    rw [get?_deleteById, if_neg hx]
    exact hr
  refine ⟨hrooted.delete hchild ?_ (fun y hy => ?_), ?_, ?_, ?_⟩
  · rw [State.parent, get?_deleteById, if_pos rfl]
    rfl
  · rw [State.parent, get?_deleteById, if_neg hy]
    rfl
  · intro x r hr
    exact ⟨r, (get?_of_deleteById hr).2, rfl, rfl, fun _ => rfl⟩
  · intro x r hr hx
    refine hkeep hr ?_
    rintro rfl
    exact hx (Chain.refl _)
  · intro x r hr hfile
    refine ⟨r, hkeep hr ?_, hfile⟩
    rintro rfl
    exact hfile (htype r hr)

/-- The names that were tried without success are taken. -/
theorem freeLocation_eq_none {objects : List (Str × Str)} {bucket : Str} (n : ℕ) :
    ∀ location, freeLocation objects bucket n location = none →
      ∀ k < n, (bucket, location ++ List.replicate k '_') ∈ objects := by
  induction n with
  | zero => exact fun location _ k hk => absurd hk (Nat.not_lt_zero k)
  | succ n ih =>
      intro location h k hk
      unfold freeLocation at h
      split at h
      case isTrue htaken =>
        cases k with
        | zero => simpa using htaken
        | succ k =>
            have hnext := ih (location ++ ['_']) h k (by omega)
            rw [List.append_assoc, List.singleton_append] at hnext
            exact hnext
      case isFalse => cases h

/-- With one name more than there are objects, the loop ends. -/
theorem freeLocation_isSome (objects : List (Str × Str)) (bucket location : Str) :
    ∃ free, freeLocation objects bucket (objects.length + 1) location = some free := by
  refine Option.ne_none_iff_exists'.mp (fun hnone => ?_)
  have hall := freeLocation_eq_none _ _ hnone
  have hnodup : ((List.range (objects.length + 1)).map
      (fun k => (bucket, location ++ List.replicate k '_'))).Nodup := by
    refine List.Nodup.map (fun k k' heq => ?_) List.nodup_range
    have hlength := congrArg List.length (List.append_cancel_left (Prod.mk.inj heq).2)
    simpa using hlength
  have hsubset : ((List.range (objects.length + 1)).map
      (fun k => (bucket, location ++ List.replicate k '_'))) ⊆ objects := by
    intro x hx
    obtain ⟨k, hk, rfl⟩ := List.mem_map.mp hx
    exact hall k (List.mem_range.mp hk)
  have hle := (List.subperm_of_subset hnodup hsubset).length_le
  rw [List.length_map, List.length_range] at hle
  omega

theorem exists_moveFile (e : FileRow) (d : Str) (st : State) :
    ∃ st', moveFile e d st = some st' := by
  obtain ⟨location, hfree⟩ := freeLocation_isSome st.objects d e.name
  exact ⟨_, by rw [moveFile, hfree]; rfl⟩

section file
variable (h : moveFile e d st = some st')
include h

theorem get?_moveFile : ∃ location, ∀ x, st'.files.get? x =
    if x = e.id then (st.files.get? x).map (setPlace d location) else st.files.get? x := by
  obtain ⟨location, -, rfl⟩ := Option.map_eq_some_iff.mp h
  refine ⟨location, fun x => ?_⟩
  show (st.files.updateWhere (·.id = e.id) (setPlace d location) (fun _ => rfl)).get? x = _
  exact Table.get?_updateWhere

theorem kept_moveFile (hfile : ∀ r, st.files.get? e.id = some r → r.type ≠ .folder) :
    Kept st st' := by
  obtain ⟨location, hget⟩ := get?_moveFile h
  intro x r' hr'
  rw [hget] at hr'
  split at hr'
  case isTrue hx =>
    obtain ⟨r, hr, rfl⟩ := Option.map_eq_some_iff.mp hr'
    exact ⟨r, hr, rfl, rfl, fun hfolder => absurd hfolder (hfile r (hx ▸ hr))⟩
  case isFalse => exact ⟨r', hr', rfl, rfl, fun _ => rfl⟩

/-- A file is moved to an entry that is not below it. -/
theorem moved_moveFile (hrooted : Rooted st.parent root) (hroot : e.id ≠ root)
    (hd : (st.parent d).isSome) (hbelow : ¬ Under st e.id d)
    (hfile : ∀ r, st.files.get? e.id = some r → r.type ≠ .folder) : Moved root e.id st st' := by
  obtain ⟨location, hget⟩ := get?_moveFile h
  have hother : ∀ y, y ≠ e.id → st'.parent y = st.parent y := by
    intro y hy
    rw [State.parent, hget, if_neg hy]
    rfl
  refine ⟨?_, kept_moveFile h hfile, ?_, ?_⟩
  · -- If there is no such row, nothing changes.
    cases hrow : st.files.get? e.id with
    | none =>
        have hsame : st'.parent = st.parent := by
          funext y
          by_cases hy : y = e.id
          · rw [hy, State.parent, State.parent, hget, if_pos rfl, hrow]
            rfl
          · exact hother y hy
        rw [hsame]
        exact hrooted
    | some r =>
        refine hrooted.reparent hroot hd hbelow ?_ hother
        refine parent_eq_some.mpr ⟨setPlace d location r, ?_, rfl⟩
        rw [hget, if_pos rfl, hrow, Option.map_some]
  · intro x r hr hx
    rw [hget, if_neg]
    · exact hr
    · rintro rfl
      exact hx (Chain.refl _)
  · intro x r hr htype
    rw [hget]
    split
    case isTrue => exact ⟨setPlace d location r, by rw [hr, Option.map_some], htype⟩
    case isFalse => exact ⟨r, hr, htype⟩

/-- A file that leaves `e₀`. -/
theorem leaves_moveFile (hmoved : Moved root e.id st st') (hunder : Under st e₀ e.id)
    (hne : e.id ≠ e₀) (hd : ¬ Under st e₀ d) : Inside e₀ st st' ∧ Gone e₀ st' e.id := by
  obtain ⟨location, hget⟩ := get?_moveFile h
  have hgone : Gone e₀ st' e.id := by
    intro p hp hchain
    obtain ⟨r, hr, rfl⟩ := parent_eq_some.mp hp
    rw [hget, if_pos rfl] at hr
    obtain ⟨r', -, rfl⟩ := Option.map_eq_some_iff.mp hr
    exact hd (hmoved.under hunder hchain)
  refine ⟨fun x r hr hx => ?_, hgone⟩
  rw [hget, if_neg] at hr
  · exact hr
  · rintro rfl
    obtain ⟨p, hp, hchain⟩ := hx.cases_head.resolve_left hne
    exact hgone p hp hchain

end file

end steps

/-! ### Loops that an exception may end -/

/-- Without an exception the state meets `P`, with one it meets `Q`. -/
def Ends (P Q : State → Prop) : Except State State → Prop
  | .ok st => P st
  | .error st => Q st

section loops
variable {move : FileRow → State → Option (Except State State)} {I : List FileRow → State → Prop}
  {P Q : State → Prop}

/-- An invariant of the state and the entries that are left. -/
theorem moveAll_ends
    (hmove : ∀ c cs st out, I (c :: cs) st → move c st = some out → Ends (I cs) Q out)
    (cs : List FileRow) :
    ∀ st out, I cs st → moveAll move cs st = some out → Ends (I []) Q out := by
  induction cs with
  | nil =>
      intro st out h hall
      cases hall
      exact h
  | cons c cs ih =>
      intro st out h hall
      rw [moveAll] at hall
      cases hfirst : move c st with
      | none =>
          rw [hfirst] at hall
          cases hall
      | some out₁ =>
          have hends := hmove c cs st out₁ h hfirst
          rw [hfirst] at hall
          cases out₁ with
          | ok st₁ => exact ih st₁ out hends hall
          | error st₁ =>
              cases hall
              exact hends

/-- The loop ends if every round ends. -/
theorem exists_moveAll (cs : List FileRow)
    (hmove : ∀ c ∈ cs, ∀ st, P st → ∃ out, move c st = some out ∧ Ends P P out) :
    ∀ st, P st → ∃ out, moveAll move cs st = some out ∧ Ends P P out := by
  induction cs with
  | nil => exact fun st h => ⟨.ok st, rfl, h⟩
  | cons c cs ih =>
      intro st h
      obtain ⟨out₁, hfirst, hends⟩ := hmove c List.mem_cons_self st h
      rw [moveAll, hfirst]
      cases out₁ with
      | ok st₁ => exact ih (fun c hc => hmove c (List.mem_cons_of_mem _ hc)) st₁ hends
      | error st₁ => exact ⟨.error st₁, rfl, hends⟩

end loops

/-- A folder is moved into the entry of its name, if there is one, and deleted. -/
theorem moveEntry_folder {env : Env} {fuel : ℕ} {e : FileRow} {d : Str} {st : State}
    {out : Except State State} (htype : e.type = .folder)
    (h : moveEntry env (fuel + 1) e d st = some out) :
    existingFolder env e d st = none ∧ out = .error st ∨
      ∃ f out', existingFolder env e d st = some f ∧
        moveAll (fun sub st => moveEntry env fuel sub f.id st) (subFiles st e.id) st = some out' ∧
        out = out'.map (deleteById e.id) := by
  rw [moveEntry, if_pos htype] at h
  cases hf : existingFolder env e d st with
  | none =>
      rw [hf] at h
      cases h
      exact .inl ⟨rfl, rfl⟩
  | some f =>
      rw [hf] at h
      obtain ⟨out', hall, rfl⟩ := Option.map_eq_some_iff.mp h
      exact .inr ⟨f, out', rfl, hall, rfl⟩

/-- In the loop over the entries of the folder `e`, which began with `st`. -/
structure InFolder (root : Str) (st : State) (e : FileRow) (subs : List FileRow) (st' : State) :
    Prop where
  moved : Moved root e.id st st'
  entry : st'.files.get? e.id = some e
  rows : ∀ c ∈ subs, st'.files.get? c.id = some c ∧ c.parentId = e.id ∧ c.id ≠ e.id
  nodup : (subs.map FileRow.id).Nodup

section inFolder
variable {root a : Str} {st st' st'' : State} {e c : FileRow} {subs : List FileRow}

theorem InFolder.start (hrooted : Rooted st.parent root) (he : st.files.get? e.id = some e) :
    InFolder root st e (subFiles st e.id) st :=
  ⟨Moved.refl hrooted _, he, fun _ hc => mem_subFiles.mp hc,
    st.files.nodup.sublist (List.filter_sublist.map _)⟩

theorem InFolder.parent (h : InFolder root st e (c :: subs) st') :
    st'.parent c.id = some e.id := by
  obtain ⟨hc, hparent, -⟩ := h.rows c List.mem_cons_self
  rw [parent_of_get? hc, hparent]

theorem InFolder.child (h : InFolder root st e (c :: subs) st') : Under st' e.id c.id :=
  Chain.head h.parent (Chain.refl _)

/-- The folder is not below its entries. -/
theorem InFolder.not_under (h : InFolder root st e (c :: subs) st') : ¬ Under st' c.id e.id :=
  fun hunder => (h.rows c List.mem_cons_self).2.2 (h.moved.rooted.antisymm h.child hunder)

/-- The folder stays where it is. -/
theorem InFolder.under (h : InFolder root st e subs st') (hrooted : Rooted st.parent root)
    (he : st.files.get? e.id = some e) (hunder : Under st a e.id) : Under st' a e.id := by
  by_cases hroot : e.parentId = e.id
  · have hstay : ∀ x, Under st x e.id → x = e.id := by
      intro x hx
      induction hx with
      | refl => rfl
      | tail _ hp ih =>
          rw [ih, parent_of_get? he, hroot] at hp
          exact (Option.some.inj hp).symm
    rw [hstay a hunder]
    exact Chain.refl _
  · rcases hunder.cases_head with rfl | ⟨p, hp, hchain⟩
    · exact Chain.refl _
    · rw [parent_of_get? he] at hp
      cases hp
      refine Chain.head (parent_of_get? h.entry) ((h.moved.above_iff hrooted ?_ ?_).mpr hchain)
      · exact hrooted.isSome_parent (parent_of_get? he)
      · intro hbelow
        exact hroot (hrooted.antisymm hbelow (Chain.head (parent_of_get? he) (Chain.refl _)))

theorem InFolder.next (h : InFolder root st e (c :: subs) st') (hc : Moved root c.id st' st'') :
    InFolder root st e subs st'' where
  moved := h.moved.trans (hc.mono h.child)
  entry := hc.frame h.entry h.not_under
  rows := by
    intro c' hc'
    obtain ⟨hget, hparent, hne⟩ := h.rows c' (List.mem_cons_of_mem _ hc')
    refine ⟨hc.frame hget (fun hunder => h.not_under ?_), hparent, hne⟩
    refine Chain.of_parent (by rw [parent_of_get? hget, hparent]) hunder ?_
    intro heq
    have hnodup := h.nodup
    rw [List.map_cons, List.nodup_cons] at hnodup
    exact hnodup.1 (heq ▸ List.mem_map_of_mem hc')
  nodup := (List.nodup_cons.mp h.nodup).2

end inFolder

/-! ### A folder that is not merged into itself -/

/-- What is in the folder `e₀`, and which entries it is moved to: `e₀` is moved to `d`, and what is
in a folder `e` that is moved to `t` is moved to the entry of `t` that has the name of `e`. -/
inductive Aligned (env : Env) (st : State) (e₀ : FileRow) (d : Str) : FileRow → Str → Prop
  | top : Aligned env st e₀ d e₀ d
  | sub {e c r : FileRow} {t : Str} (h : Aligned env st e₀ d e t)
      (hc : st.files.get? c.id = some c) (hparent : c.parentId = e.id)
      (hr : st.files.get? r.id = some r) (hplace : r.parentId = t)
      (hname : env.collation.same r.name e.name = true) : Aligned env st e₀ d c r.id

/-- The destination is not in the folder, and the folder does not come to be merged with itself. -/
structure Movable (env : Env) (st : State) (e₀ : FileRow) (d : Str) : Prop where
  apart : ¬ Under st e₀.id d
  separate : ∀ c, Aligned env st e₀ d c e₀.parentId → c.type = .folder →
    env.collation.same e₀.name c.name = false

/-- The situation in which an entry of `e₀` is moved to `d`, the request having begun with `st₀`. -/
structure Call (env : Env) (root : Str) (st₀ : State) (e₀ : FileRow) (d₀ : Str) (st : State)
    (e : FileRow) (d : Str) : Prop where
  moved : Moved root e₀.id st₀ st
  inside : Inside e₀.id st₀ st
  entry : st.files.get? e.id = some e
  under : Under st e₀.id e.id
  dest : (st.parent d).isSome
  apart : ¬ Under st e₀.id d
  aligned : (st₀.parent d).isSome → ¬ Under st₀ e₀.id d → Aligned env st₀ e₀ d₀ e d

/-- What has been done when an entry has been moved. -/
structure Done (root e₀ e : Str) (st st' : State) : Prop where
  moved : Moved root e st st'
  inside : Inside e₀ st st'
  gone : Gone e₀ st' e

/-- In the loop over the entries of a folder below `e₀`: what is in it is still to be moved. -/
structure Emptying (root e₀ : Str) (st : State) (e : FileRow) (subs : List FileRow) (st' : State) :
    Prop extends InFolder root st e subs st' where
  inside : Inside e₀ st st'
  left : ∀ c, st'.files.get? c.id = some c → c.parentId = e.id → c.id ≠ e.id → c ∈ subs

section call
variable {env : Env} {root d₀ d : Str} {st₀ st st' st'' : State} {e₀ e c f : FileRow}
  {subs : List FileRow}

theorem Emptying.next (h : Emptying root e₀.id st e (c :: subs) st')
    (hunder : Under st' e₀.id e.id) (hdone : Done root e₀.id c.id st' st'') :
    Emptying root e₀.id st e subs st'' where
  toInFolder := h.toInFolder.next hdone.moved
  inside := h.inside.trans hdone.inside
  left := by
    intro c' hc' hparent hne
    have hentry := (h.toInFolder.next hdone.moved).entry
    have hp : st''.parent c'.id = some e.id := by rw [parent_of_get? hc', hparent]
    have hunder'' : Under st'' e₀.id e.id := by
      refine Chain.congr hunder (fun y hy hy₀ hney => ?_)
      obtain ⟨p, hpy, -⟩ := hy₀.cases_head.resolve_left hney
      obtain ⟨r, hr, rfl⟩ := parent_eq_some.mp hpy
      rw [hpy]
      refine parent_of_get? (hdone.moved.frame hr (fun hbelow => h.not_under ?_))
      exact Chain.trans hy hbelow
    have hc := hdone.inside _ _ hc' (Chain.head hp hunder'')
    rcases List.mem_cons.mp (h.left c' hc hparent hne) with rfl | hmem
    · exact absurd hunder'' (hdone.gone _ hp)
    · exact hmem

theorem Call.ne_root (h : Call env root st₀ e₀ d₀ st e d) : e.id ≠ root := by
  intro heq
  have hunder := h.under
  rw [heq] at hunder
  refine h.apart ?_
  rw [h.moved.rooted.eq_root hunder]
  exact h.moved.rooted.above d h.dest

/-- The entry is not merged with `e₀`. -/
theorem Call.not_self (hrooted₀ : Rooted st₀.parent root) (he₀ : st₀.files.get? e₀.id = some e₀)
    (hmovable : Movable env st₀ e₀ d₀) (h : Call env root st₀ e₀ d₀ st e d)
    (htype : e.type = .folder) (hf : existingFolder env e d st = some f) : f.id ≠ e₀.id := by
  intro heq
  obtain ⟨hget, hplace, hname⟩ := existingFolder_eq_some hf
  have hf₀ := h.inside _ _ hget (by rw [heq]; exact Chain.refl _)
  rw [heq, he₀] at hf₀
  cases hf₀
  have hp : st₀.parent e₀.id = some d := by rw [parent_of_get? he₀, hplace]
  have hapart : ¬ Under st₀ e₀.id d := by
    intro hunder
    refine h.apart ?_
    rw [hrooted₀.antisymm (Chain.head hp (Chain.refl d)) hunder]
    exact Chain.refl _
  have haligned := h.aligned (hrooted₀.isSome_parent hp) hapart
  rw [← hplace] at haligned
  rw [hmovable.separate e haligned htype] at hname
  cases hname

/-- The call for an entry of the folder. -/
theorem Emptying.call (hrooted₀ : Rooted st₀.parent root) (h : Call env root st₀ e₀ d₀ st e d)
    (hf : existingFolder env e d st = some f) (hne : f.id ≠ e₀.id)
    (hloop : Emptying root e₀.id st e (c :: subs) st') :
    Call env root st₀ e₀ d₀ st' c f.id := by
  obtain ⟨hget, hplace, hname⟩ := existingFolder_eq_some hf
  have hapart : ¬ Under st e₀.id f.id := by
    intro hunder
    refine h.apart (Chain.of_parent ?_ hunder hne)
    rw [parent_of_get? hget, hplace]
  have hunder : Under st' e₀.id c.id :=
    Chain.trans hloop.child (hloop.toInFolder.under h.moved.rooted h.entry h.under)
  refine ⟨h.moved.trans (hloop.moved.mono h.under), h.inside.trans hloop.inside,
    (hloop.rows c List.mem_cons_self).1, hunder, ?_, fun hu => hapart (hloop.inside.under hu), ?_⟩
  · have hkept := hloop.moved.frame hget (fun hu => hapart (Chain.trans hu h.under))
    rw [parent_of_get? hkept]
    rfl
  · intro hpresent hapart₀
    -- An entry that has been there all the time has been in the destination.
    obtain ⟨p, hp⟩ := Option.isSome_iff_exists.mp hpresent
    obtain ⟨r₀, hr₀, -⟩ := parent_eq_some.mp hp
    have hkeep := h.moved.frame hr₀ hapart₀
    rw [hget] at hkeep
    cases hkeep
    have hp₀ : st₀.parent f.id = some d := by rw [parent_of_get? hr₀, hplace]
    have hapart' : ¬ Under st₀ e₀.id d := fun hunder => hapart₀ (Chain.head hp₀ hunder)
    have hc := (h.inside.trans hloop.inside) _ _ (hloop.rows c List.mem_cons_self).1 hunder
    exact Aligned.sub (h.aligned (hrooted₀.isSome_parent hp₀) hapart') hc
      (hloop.rows c List.mem_cons_self).2.1 hr₀ hplace hname

/-- After the loop the folder is empty, and is deleted. -/
theorem Emptying.delete (h : Call env root st₀ e₀ d₀ st e d) (htype : e.type = .folder)
    (hloop : Emptying root e₀.id st e [] st') :
    Done root e₀.id e.id st (deleteById e.id st') := by
  have hchild : ∀ x, st'.parent x ≠ some e.id := by
    intro x hp
    obtain ⟨r, hr, hparent⟩ := parent_eq_some.mp hp
    have hid := id_of_get? hr
    subst hid
    by_cases hx : r.id = e.id
    · rw [hx] at hp
      exact h.ne_root (hloop.moved.rooted.acyclic (Relation.TransGen.single hp))
    · exact List.not_mem_nil (hloop.left r hr hparent hx)
  refine ⟨hloop.moved.trans (moved_deleteById hloop.moved.rooted (fun r hr => ?_) hchild),
    hloop.inside.trans (inside_deleteById _ _), fun p hp => ?_⟩
  · rw [hloop.entry] at hr
    cases hr
    exact htype
  · rw [State.parent, get?_deleteById, if_pos rfl] at hp
    cases hp

/-- Moving a file. -/
theorem Call.moveFile (he₀ : st₀.files.get? e₀.id = some e₀) (hfolder : e₀.type = .folder)
    (h : Call env root st₀ e₀ d₀ st e d) (htype : e.type ≠ .folder)
    (hmove : FileMove.moveFile e d st = some st') : Done root e₀.id e.id st st' := by
  have hne : e.id ≠ e₀.id := by
    intro heq
    have hrow := h.inside _ _ h.entry h.under
    rw [heq, he₀] at hrow
    cases hrow
    exact htype hfolder
  have hmoved : Moved root e.id st st' := by
    refine moved_moveFile hmove h.moved.rooted h.ne_root h.dest
      (fun hunder => h.apart (Chain.trans hunder h.under)) (fun r hr => ?_)
    rw [h.entry] at hr
    cases hr
    exact htype
  obtain ⟨hinside, hgone⟩ := leaves_moveFile hmove hmoved h.under hne h.apart
  exact ⟨hmoved, hinside, hgone⟩

/-- An entry of a folder that can be moved is moved. -/
theorem moveEntry_apart (hrooted₀ : Rooted st₀.parent root) (he₀ : st₀.files.get? e₀.id = some e₀)
    (hfolder : e₀.type = .folder) (hmovable : Movable env st₀ e₀ d₀) (fuel : ℕ) :
    ∀ e d st out, Call env root st₀ e₀ d₀ st e d → moveEntry env fuel e d st = some out →
      Ends (Done root e₀.id e.id st) (Moved root e.id st) out := by
  induction fuel with
  | zero =>
      intro e d st out _ hmove
      cases hmove
  | succ fuel ih =>
      intro e d st out h hmove
      by_cases htype : e.type = .folder
      · rcases moveEntry_folder htype hmove with ⟨-, rfl⟩ | ⟨f, out', hf, hall, rfl⟩
        · exact Moved.refl h.moved.rooted _
        · have hne := h.not_self hrooted₀ he₀ hmovable htype hf
          have hstart : Emptying root e₀.id st e (subFiles st e.id) st :=
            ⟨InFolder.start h.moved.rooted h.entry, fun _ _ hr _ => hr,
              fun c hc hparent hne => mem_subFiles.mpr ⟨hc, hparent, hne⟩⟩
          have hends := moveAll_ends (I := Emptying root e₀.id st e) (Q := Moved root e.id st)
            (fun c cs st' out hloop hc => ?_) _ st out' hstart hall
          · cases out' with
            | ok st₁ => exact hends.delete h htype
            | error st₁ => exact hends
          · have hsub := ih c f.id st' out (hloop.call hrooted₀ h hf hne) hc
            cases out with
            | ok st₁ =>
                exact hloop.next (hloop.toInFolder.under h.moved.rooted h.entry h.under) hsub
            | error st₁ => exact hloop.moved.trans (Moved.mono hsub hloop.child)
      · rw [moveEntry, if_neg htype] at hmove
        obtain ⟨st', hst', rfl⟩ := Option.map_eq_some_iff.mp hmove
        exact h.moveFile he₀ hfolder htype hst'

end call

/-! ### A folder that is moved into itself -/

/-- No file in the folder has the name of a folder there. -/
def Distinct (env : Env) (st : State) (x : Str) : Prop :=
  ∀ f g, st.files.get? f.id = some f → st.files.get? g.id = some g → Under st x f.id →
    Under st x g.id → f.type ≠ .folder → g.type = .folder →
      env.collation.same f.name g.name = false

section into
variable {env : Env} {root d r x : Str} {st st' st'' : State} {e c f : FileRow}
  {subs : List FileRow}

theorem Distinct.moved (h : Distinct env st x) (hmoved : Moved root e.id st st')
    (hx : Under st x e.id) : Distinct env st' x := by
  intro f g hf hg hfx hgx hfile hfolder
  obtain ⟨f₀, hf₀, hfname, hftype, -⟩ := hmoved.kept _ _ hf
  obtain ⟨g₀, hg₀, hgname, hgtype, -⟩ := hmoved.kept _ _ hg
  have hfid := id_of_get? hf₀
  have hgid := id_of_get? hg₀
  rw [← hfid] at hf₀ hfx
  rw [← hgid] at hg₀ hgx
  rw [← hfname, ← hgname]
  exact h f₀ g₀ hf₀ hg₀ (hmoved.under hx hfx) (hmoved.under hx hgx) (hftype ▸ hfile)
    (hgtype ▸ hfolder)

/-- Everything is moved to the destination or below it. -/
theorem Aligned.under {t : Str} (h : Aligned env st e d c t) : Under st d t := by
  induction h with
  | top => exact Chain.refl _
  | sub _ _ _ hr hplace _ ih => exact Chain.head (by rw [parent_of_get? hr, hplace]) ih

/-- An entry that is moved aside: neither it nor its parent is above or below the destination. -/
theorem moveEntry_aside (hrooted : Rooted st.parent root) (hc : st.files.get? c.id = some c)
    (hroot : c.id ≠ root) (hd : (st.parent d).isSome) (hapart : ¬ Under st c.id d)
    (hparent : ¬ Under st d c.parentId) {fuel : ℕ} {out : Except State State}
    (hmove : moveEntry env fuel c d st = some out) :
    Ends (Moved root c.id st) (Moved root c.id st) out := by
  by_cases htype : c.type = .folder
  · have hmovable : Movable env st c d := ⟨hapart, fun _ h _ => absurd h.under hparent⟩
    have hcall : Call env root st c d st c d :=
      ⟨Moved.refl hrooted _, fun _ _ hr _ => hr, hc, Chain.refl _, hd, hapart,
        fun _ _ => Aligned.top⟩
    have hends := moveEntry_apart hrooted hc htype hmovable fuel c d st out hcall hmove
    cases out with
    | ok st' => exact hends.moved
    | error st' => exact hends
  · cases fuel with
    | zero => cases hmove
    | succ fuel =>
        rw [moveEntry, if_neg htype] at hmove
        obtain ⟨st', hst', rfl⟩ := Option.map_eq_some_iff.mp hmove
        refine moved_moveFile hst' hrooted hroot hd hapart (fun r hr => ?_)
        rw [hc] at hr
        cases hr
        exact htype

/-- In the loop over the entries of a folder that is above the place `r` they are moved to: the
entry above `r` is still to be moved. -/
structure Diving (root : Str) (st : State) (e : FileRow) (r : Str) (subs : List FileRow)
    (st' : State) : Prop extends InFolder root st e subs st' where
  dest : (st'.parent r).isSome
  below : Under st' e.id r
  folders : ∀ y row, Under st' y r → st'.files.get? y = some row → row.type = .folder
  left : ∀ c, st'.files.get? c.id = some c → c.parentId = e.id → c.id ≠ e.id →
    Under st' c.id r → c ∈ subs

/-- An entry that is not above the place has been moved. -/
theorem Diving.next (h : Diving root st e r (c :: subs) st') (hc : Moved root c.id st' st'')
    (haside : ¬ Under st' c.id r) : Diving root st e r subs st'' := by
  have habove : ∀ {y}, Under st'' y r ↔ Under st' y r :=
    hc.above_iff h.moved.rooted h.dest haside
  -- What is above the place is as it was.
  have hback : ∀ {y row}, Under st' y r → st''.files.get? y = some row →
      st'.files.get? y = some row := by
    intro y row hy hrow
    obtain ⟨row₀, hrow₀, -⟩ := hc.kept _ _ hrow
    have hkept := hc.frame hrow₀ (fun hunder => haside (Chain.trans hy hunder))
    rw [hrow] at hkept
    cases hkept
    exact hrow₀
  refine ⟨h.toInFolder.next hc, ?_, habove.mpr h.below, ?_, ?_⟩
  · obtain ⟨p, hp⟩ := Option.isSome_iff_exists.mp h.dest
    obtain ⟨row, hrow, -⟩ := parent_eq_some.mp hp
    rw [parent_of_get? (hc.frame hrow haside)]
    rfl
  · intro y row hy hrow
    exact h.folders y row (habove.mp hy) (hback (habove.mp hy) hrow)
  · intro c' hc' hparent hne hy
    have hy' := habove.mp hy
    rcases List.mem_cons.mp (h.left c' (hback hy' hc') hparent hne hy') with rfl | hmem
    · exact absurd hy' haside
    · exact hmem

/-- The loop does not come to its end: one of the entries is above the place. -/
theorem Diving.not_nil (h : Diving root st e r [] st') (hself : e.parentId ≠ e.id)
    (hne : r ≠ e.id) : False := by
  rcases Relation.ReflTransGen.cases_tail h.below with heq | ⟨y, hy, hp⟩
  · exact hne heq.symm
  · obtain ⟨c, hc, hparent⟩ := parent_eq_some.mp hp
    have hid := id_of_get? hc
    subst hid
    refine List.not_mem_nil (h.left c hc hparent (fun heq => hself ?_) hy)
    have hsame : st'.files.get? c.id = some e := by rw [heq]; exact h.entry
    rw [hc] at hsame
    cases hsame
    exact hparent

/-- A folder that is moved into itself is not deleted: its contents are moved further and further
down, until there is no entry to take them and an exception is raised. -/
theorem moveEntry_into (fuel : ℕ) :
    ∀ {e d st out}, Rooted st.parent root → st.files.get? e.id = some e → e.parentId ≠ e.id →
      Under st e.id d → (st.parent d).isSome →
      (∀ y row, Under st y d → st.files.get? y = some row → row.type = .folder) →
      Distinct env st e.id → moveEntry env fuel e d st = some out →
      Ends (fun _ => False) (Moved root e.id st) out := by
  induction fuel with
  | zero =>
      intro e d st out _ _ _ _ _ _ _ hmove
      cases hmove
  | succ fuel ih =>
      intro e d st out hrooted he hself hunder hd hfolders hdistinct hmove
      have htype := hfolders e.id e hunder he
      rcases moveEntry_folder htype hmove with ⟨-, rfl⟩ | ⟨f, out', hf, hall, rfl⟩
      · exact Moved.refl hrooted _
      · obtain ⟨hget, hplace, hname⟩ := existingFolder_eq_some hf
        have hp : st.parent f.id = some d := by rw [parent_of_get? hget, hplace]
        have hbelow : Under st e.id f.id := Chain.head hp hunder
        have hne : f.id ≠ e.id := by
          intro heq
          rw [heq, he] at hget
          cases hget
          rw [hplace] at hself
          exact hself (hrooted.antisymm (Chain.head hp (Chain.refl d)) hunder).symm
        have hfolder : f.type = .folder := by
          by_contra hfile
          rw [hdistinct f e hget he hbelow (Chain.refl _) hfile htype] at hname
          cases hname
        have hstart : Diving root st e f.id (subFiles st e.id) st := by
          refine ⟨InFolder.start hrooted he, by rw [hp]; rfl, hbelow, ?_,
            fun c hc hparent hne _ => mem_subFiles.mpr ⟨hc, hparent, hne⟩⟩
          intro y row hy hrow
          rcases hy.cases_head with rfl | ⟨z, hz, hchain⟩
          · rw [hget] at hrow
            cases hrow
            exact hfolder
          · rw [hp] at hz
            cases hz
            exact hfolders y row hchain hrow
        have hends := moveAll_ends (I := Diving root st e f.id) (Q := Moved root e.id st)
          (fun c cs st' out h hc => ?_) _ st out' hstart hall
        · cases out' with
          | ok st₁ => exact (hends.not_nil hself hne).elim
          | error st₁ => exact hends
        · obtain ⟨hrow, hparent, hchild⟩ := h.rows c List.mem_cons_self
          by_cases haside : Under st' c.id f.id
          · have hsub := ih h.moved.rooted hrow (by rw [hparent]; exact hchild.symm) haside h.dest
              h.folders (fun a b ha hb hac hbc => (hdistinct.moved h.moved (Chain.refl _)) a b ha hb
                (Chain.trans hac h.child) (Chain.trans hbc h.child)) hc
            cases out with
            | ok st₁ => exact hsub.elim
            | error st₁ => exact h.moved.trans (Moved.mono hsub h.child)
          · have hup : ¬ Under st' f.id c.parentId := by
              rw [hparent]
              exact fun hu => hne (h.moved.rooted.antisymm h.below hu)
            have hroot : c.id ≠ root := by
              rintro rfl
              exact hchild (h.moved.rooted.eq_root h.child).symm
            have hsub := moveEntry_aside h.moved.rooted hrow hroot h.dest haside hup hc
            cases out with
            | ok st₁ => exact h.next hsub haside
            | error st₁ => exact h.moved.trans (Moved.mono hsub h.child)

end into

/-! ### The end of a request -/

/-- The number of rows below an entry. -/
noncomputable def size (st : State) (e : Str) : ℕ :=
  open Classical in ((st.files.rows.map FileRow.id).toFinset.filter (Under st e)).card

section size
variable {root : Str} {st : State}

theorem mem_ids {x : Str} : x ∈ st.files.rows.map FileRow.id ↔ ∃ r, st.files.get? x = some r :=
  Table.mem_keys

theorem size_pos {e : FileRow} (he : st.files.get? e.id = some e) : 0 < size st e.id := by
  classical
  refine Finset.card_pos.mpr ⟨e.id, Finset.mem_filter.mpr ⟨?_, Chain.refl _⟩⟩
  exact List.mem_toFinset.mpr (mem_ids.mpr ⟨e, he⟩)

theorem size_lt {c e : FileRow} (hrooted : Rooted st.parent root) (he : st.files.get? e.id = some e)
    (hc : st.files.get? c.id = some c) (hparent : c.parentId = e.id) (hne : c.id ≠ e.id) :
    size st c.id < size st e.id := by
  classical
  have hp : st.parent c.id = some e.id := parent_eq_some.mpr ⟨c, hc, hparent⟩
  refine Finset.card_lt_card ((Finset.ssubset_iff_of_subset ?_).mpr ⟨e.id, ?_, ?_⟩)
  · intro x hx
    obtain ⟨hmem, hunder⟩ := Finset.mem_filter.mp hx
    exact Finset.mem_filter.mpr ⟨hmem, Chain.trans hunder (Chain.head hp (Chain.refl _))⟩
  · refine Finset.mem_filter.mpr ⟨?_, Chain.refl _⟩
    exact List.mem_toFinset.mpr (mem_ids.mpr ⟨e, he⟩)
  · intro hx
    exact hne (hrooted.antisymm (Chain.head hp (Chain.refl _)) (Finset.mem_filter.mp hx).2)

theorem size_le (st : State) (x : Str) : size st x ≤ st.files.rows.length := by
  classical
  refine (Finset.card_filter_le _ _).trans ((List.toFinset_card_le _).trans ?_)
  rw [List.length_map]

end size


section ends
variable {env : Env} {root : Str} {st₀ st : State}

/-- With more calls than there are rows below the folder, its move ends. -/
theorem exists_moveEntry (hrooted₀ : Rooted st₀.parent root) (fuel : ℕ) :
    ∀ e d st, Kept st₀ st → (∃ r₀, st₀.files.get? e.id = some r₀ ∧ r₀.type = e.type ∧
      (e.type = .folder → r₀ = e ∧ size st₀ e.id < fuel)) → 0 < fuel →
      ∃ out, moveEntry env fuel e d st = some out ∧ Ends (Kept st₀) (Kept st₀) out := by
  induction fuel with
  | zero => exact fun e d st _ _ h => absurd h (Nat.lt_irrefl 0)
  | succ fuel ih =>
      rintro e d st hkept ⟨r₀, hr₀, htype₀, hfolder₀⟩ -
      rw [moveEntry]
      by_cases htype : e.type = .folder
      · obtain ⟨rfl, hsize⟩ := hfolder₀ htype
        rw [if_pos htype]
        cases existingFolder env r₀ d st with
        | none => exact ⟨.error st, rfl, hkept⟩
        | some f =>
            have hpos := size_pos hr₀
            have hsub : ∀ c ∈ subFiles st r₀.id, ∀ st', Kept st₀ st' →
                ∃ out, moveEntry env fuel c f.id st' = some out ∧
                  Ends (Kept st₀) (Kept st₀) out := by
              intro c hc st' hkept'
              obtain ⟨hget, hparent, hne⟩ := mem_subFiles.mp hc
              obtain ⟨c₀, hc₀, -, hctype, hsame⟩ := hkept _ _ hget
              refine ih c f.id st' hkept' ⟨c₀, hc₀, hctype, fun hfolder => ?_⟩ (by omega)
              have heq := hsame (hctype.trans hfolder)
              refine ⟨heq.symm, ?_⟩
              rw [← heq] at hc₀
              have hlt := size_lt hrooted₀ hr₀ hc₀ hparent hne
              omega
            obtain ⟨out, hall, hends⟩ := exists_moveAll _ hsub st hkept
            refine ⟨out.map (deleteById r₀.id), congrArg (Option.map _) hall, ?_⟩
            cases out with
            | ok st₁ =>
                exact Kept.trans hends (fun x r hr =>
                  ⟨r, (get?_of_deleteById hr).2, rfl, rfl, fun _ => rfl⟩)
            | error st₁ => exact hends
      · rw [if_neg htype]
        obtain ⟨st', hmove⟩ := exists_moveFile e d st
        refine ⟨.ok st', by rw [hmove]; rfl, hkept.trans (kept_moveFile hmove (fun r hr => ?_))⟩
        obtain ⟨r₁, hr₁, -, htype₁, -⟩ := hkept _ _ hr
        rw [hr₀] at hr₁
        cases hr₁
        rw [← htype₁, htype₀]
        exact htype

end ends

/-! ### A request -/

/-- Every entry is in a folder, and the root is above all of them. -/
structure FolderTree (st : State) (root : Str) : Prop where
  rooted : Rooted st.parent root
  folders : ∀ {x r}, st.files.get? x = some r →
    ∃ p, st.files.get? r.parentId = some p ∧ p.type = .folder

/-- The destination has no entry of the name of the folder; or it is not in the folder, and the
folder does not come to be merged with itself; or it is in the folder, and no file there has the
name of a folder there. -/
def Safe (env : Env) (st : State) (e : FileRow) (d : Str) : Prop :=
  existingFolder env e d st = none ∨ Movable env st e d ∨
    (Under st e.id d ∧ e.parentId ≠ e.id ∧ Distinct env st e.id)

/-- Each folder is safe when its turn comes, if it is still there. -/
def Allowed (env : Env) (d : Str) : List FileRow → State → Prop
  | [], _ => True
  | e :: entries, st =>
      (e.type = .folder → st.files.get? e.id = some e → Safe env st e d) ∧
        ∀ fuel st', moveEntry env fuel e d st = some (.ok st') → Allowed env d entries st'

/-- The files are all below the root, and there is no other cycle than that of the root. -/
structure Intact (root : Str) (st st' : State) : Prop where
  files : ∀ x r, st.files.get? x = some r → r.type ≠ .folder →
    ∃ r', st'.files.get? x = some r' ∧ r'.type ≠ .folder ∧ Chain st'.parent x root
  acyclic : ∀ x, Relation.TransGen (fun y z => st'.parent y = some z) x x → x = root

/-- What holds after each of the entries: what is above the destination has not changed. -/
structure Run (root : Str) (st₀ : State) (d : Str) (st : State) : Prop where
  rooted : Rooted st.parent root
  kept : Kept st₀ st
  above : ∀ {x r}, Under st₀ x d → st₀.files.get? x = some r → st.files.get? x = some r
  files : ∀ {x r}, st₀.files.get? x = some r → r.type ≠ .folder →
    ∃ r', st.files.get? x = some r' ∧ r'.type ≠ .folder

/-- What holds after an exception, too. -/
structure Saved (root : Str) (st₀ st : State) : Prop where
  rooted : Rooted st.parent root
  files : ∀ {x r}, st₀.files.get? x = some r → r.type ≠ .folder →
    ∃ r', st.files.get? x = some r' ∧ r'.type ≠ .folder

section run
variable {env : Env} {root d : Str} {st₀ st st' : State} {e dest : FileRow}

theorem Saved.intact (h : Saved root st₀ st) : Intact root st₀ st := by
  refine ⟨fun x r hr hfile => ?_, fun x hx => h.rooted.acyclic hx⟩
  obtain ⟨r', hr', hfile'⟩ := h.files hr hfile
  exact ⟨r', hr', hfile', h.rooted.above x (by rw [parent_of_get? hr']; rfl)⟩

/-- Everything above a folder is a folder. -/
theorem FolderTree.folder_above (h : FolderTree st root) (hd : st.files.get? d = some dest)
    (hdest : dest.type = .folder) {x : Str} (hx : Under st x d) :
    ∃ r, st.files.get? x = some r ∧ r.type = .folder := by
  rcases Relation.ReflTransGen.cases_tail hx with rfl | ⟨y, -, hp⟩
  · exact ⟨dest, hd, hdest⟩
  · obtain ⟨r, hr, rfl⟩ := parent_eq_some.mp hp
    exact h.folders hr

section step
variable (hd : st₀.files.get? d = some dest) (h : Run root st₀ d st)
include hd h

theorem Run.dest_isSome : (st.parent d).isSome := by
  rw [parent_of_get? (h.above (Chain.refl d) hd)]
  rfl

/-- The same entries are above the destination. -/
theorem Run.under_iff (hrooted₀ : Rooted st₀.parent root) {x : Str} :
    Under st x d ↔ Under st₀ x d := by
  have hsame : ∀ y, Under st₀ y d → st.parent y = st₀.parent y := by
    intro y hy
    obtain ⟨p, hp⟩ := Option.isSome_iff_exists.mp
      (hrooted₀.isSome_of_chain (by rw [parent_of_get? hd]; rfl) hy)
    obtain ⟨r, hr, hrp⟩ := parent_eq_some.mp hp
    rw [hp]
    exact parent_eq_some.mpr ⟨r, h.above hy hr, hrp⟩
  constructor
  · intro hx
    induction hx with
    | refl => exact Chain.refl d
    | tail _ hp ih => exact ih.tail ((hsame _ ih).symm.trans hp)
  · intro hx
    exact Chain.congr hx (fun y hy _ _ => hsame y hy)

/-- An entry that is not above the destination has been moved. -/
theorem Run.next (hrooted₀ : Rooted st₀.parent root) (hmoved : Moved root e.id st st')
    (hapart : ¬ Under st e.id d) : Run root st₀ d st' where
  rooted := hmoved.rooted
  kept := h.kept.trans hmoved.kept
  above hx hr := hmoved.frame (h.above hx hr) (fun hunder =>
    hapart (Chain.trans ((h.under_iff hd hrooted₀).mpr hx) hunder))
  files hr hfile := by
    obtain ⟨r', hr', hfile'⟩ := h.files hr hfile
    exact hmoved.files hr' hfile'

omit hd in
theorem Run.saved (hmoved : Moved root e.id st st') : Saved root st₀ st' where
  rooted := hmoved.rooted
  files hr hfile := by
    obtain ⟨r', hr', hfile'⟩ := h.files hr hfile
    exact hmoved.files hr' hfile'

/-- A folder that is there. -/
theorem Run.folder (htree : FolderTree st₀ root) (hdest : dest.type = .folder)
    (htype : e.type = .folder) (he : st.files.get? e.id = some e) (hsafe : Safe env st e d)
    {fuel : ℕ} {out : Except State State} (hmove : moveEntry env fuel e d st = some out) :
    Ends (Run root st₀ d) (Saved root st₀) out := by
  have hdsome := h.dest_isSome hd
  rcases hsafe with hnone | hmovable | ⟨hunder, hself, hdistinct⟩
  · cases fuel with
    | zero => cases hmove
    | succ fuel =>
        rw [moveEntry, if_pos htype, hnone] at hmove
        cases hmove
        exact h.saved (Moved.refl h.rooted e.id)
  · have hcall : Call env root st e d st e d :=
      ⟨Moved.refl h.rooted _, fun _ _ hr _ => hr, he, Chain.refl _, hdsome, hmovable.apart,
        fun _ _ => Aligned.top⟩
    have hends := moveEntry_apart h.rooted he htype hmovable fuel e d st out hcall hmove
    cases out with
    | ok st' => exact h.next hd htree.rooted hends.moved hmovable.apart
    | error st' => exact h.saved hends
  · have hfolders : ∀ y row, Under st y d → st.files.get? y = some row → row.type = .folder := by
      intro y row hy hrow
      have hy₀ := (h.under_iff hd htree.rooted).mp hy
      obtain ⟨r, hr, hfolder⟩ := htree.folder_above hd hdest hy₀
      rw [h.above hy₀ hr] at hrow
      cases hrow
      exact hfolder
    have hends := moveEntry_into fuel h.rooted he hself hunder hdsome hfolders hdistinct hmove
    cases out with
    | ok st' => exact hends.elim
    | error st' => exact h.saved hends

/-- A folder that has been moved with another one: there is nothing in it. -/
theorem Run.absent (htype : e.type = .folder) (he : st.files.get? e.id = none)
    (hrooted₀ : Rooted st₀.parent root) {fuel : ℕ} {out : Except State State}
    (hmove : moveEntry env fuel e d st = some out) :
    Ends (Run root st₀ d) (Saved root st₀) out := by
  have hnone : st.parent e.id = none := by
    rw [State.parent, he]
    rfl
  have hchild : ∀ x, st.parent x ≠ some e.id := by
    intro x hp
    have hsome := h.rooted.isSome_parent hp
    rw [hnone] at hsome
    cases hsome
  have hempty : subFiles st e.id = [] := by
    refine List.eq_nil_iff_forall_not_mem.mpr (fun c hc => ?_)
    obtain ⟨hget, hparent, -⟩ := mem_subFiles.mp hc
    exact hchild c.id (by rw [parent_of_get? hget, hparent])
  cases fuel with
  | zero => cases hmove
  | succ fuel =>
      rcases moveEntry_folder htype hmove with ⟨-, rfl⟩ | ⟨f, out', -, hall, rfl⟩
      · exact h.saved (Moved.refl h.rooted e.id)
      · rw [hempty] at hall
        cases hall
        refine h.next hd hrooted₀ (moved_deleteById h.rooted (fun r hr => ?_) hchild) ?_
        · rw [he] at hr
          cases hr
        · intro hunder
          have hsome := h.rooted.isSome_of_chain (h.dest_isSome hd) hunder
          rw [hnone] at hsome
          cases hsome

theorem Run.file (htree : FolderTree st₀ root) (hdest : dest.type = .folder)
    (he₀ : st₀.files.get? e.id = some e) (htype : e.type ≠ .folder) {fuel : ℕ}
    {out : Except State State} (hmove : moveEntry env fuel e d st = some out) :
    Ends (Run root st₀ d) (Saved root st₀) out := by
  have hapart : ¬ Under st e.id d := by
    intro hunder
    obtain ⟨r, hr, hfolder⟩ :=
      htree.folder_above hd hdest ((h.under_iff hd htree.rooted).mp hunder)
    rw [he₀] at hr
    cases hr
    exact htype hfolder
  have hroot : e.id ≠ root := by
    intro heq
    refine hapart ?_
    rw [heq]
    exact h.rooted.above d (h.dest_isSome hd)
  cases fuel with
  | zero => cases hmove
  | succ fuel =>
      rw [moveEntry, if_neg htype] at hmove
      obtain ⟨st', hst', rfl⟩ := Option.map_eq_some_iff.mp hmove
      refine h.next hd htree.rooted (moved_moveFile hst' h.rooted hroot (h.dest_isSome hd) hapart
        (fun r hr => ?_)) hapart
      obtain ⟨r₀, hr₀, -, hrtype, -⟩ := h.kept _ _ hr
      rw [he₀] at hr₀
      cases hr₀
      rw [← hrtype]
      exact htype

end step

/-- One entry after the other. -/
theorem Run.move (htree : FolderTree st₀ root) (hd : st₀.files.get? d = some dest)
    (hdest : dest.type = .folder) (entries : List FileRow)
    (hrows : ∀ e ∈ entries, st₀.files.get? e.id = some e) (h : Run root st₀ d st)
    (hallowed : Allowed env d entries st) {fuel : ℕ} {out : Except State State}
    (hmove : FileMove.move env fuel entries d st = some out) :
    Ends (Run root st₀ d) (Saved root st₀) out := by
  have hends := moveAll_ends (Q := Saved root st₀)
    (I := fun entries st => Run root st₀ d st ∧ Allowed env d entries st ∧
      ∀ e ∈ entries, st₀.files.get? e.id = some e)
    (fun e entries st out hI hmove => ?_) entries st out ⟨h, hallowed, hrows⟩ hmove
  · cases out with
    | ok st' => exact hends.1
    | error st' => exact hends
  · obtain ⟨h, ⟨hsafe, hrest⟩, hrows⟩ := hI
    have he₀ := hrows e List.mem_cons_self
    have hends : Ends (Run root st₀ d) (Saved root st₀) out := by
      by_cases htype : e.type = .folder
      · cases hrow : st.files.get? e.id with
        | none => exact h.absent hd htype hrow htree.rooted hmove
        | some r =>
            -- A folder that is still there is as it was.
            obtain ⟨r₀, hr₀, -, -, hsame⟩ := h.kept _ _ hrow
            rw [he₀] at hr₀
            cases hr₀
            rw [hsame htype] at hrow
            exact h.folder hd htree hdest htype hrow (hsafe htype hrow) hmove
      · exact h.file hd htree hdest he₀ htype hmove
    cases out with
    | ok st' =>
        exact ⟨hends, hrest _ _ hmove, fun e he => hrows e (List.mem_cons_of_mem _ he)⟩
    | error st' => exact hends

/-- The request ends; and if every folder is safe when its turn comes, the files are all in the
tree, and the tree has no cycle but that of its root. -/
theorem move_keeps_files (htree : FolderTree st root) (hd : st.files.get? d = some dest)
    (hdest : dest.type = .folder) (fileIds : List Str) (fuel : ℕ)
    (hfuel : st.files.rows.length < fuel) :
    ∃ reply st', mv env fuel fileIds d st = some (reply, st') ∧
      (Allowed env d (st.files.select (·.id ∈ fileIds)) st → Intact root st st') := by
  have hrun : Run root st d st :=
    ⟨htree.rooted, fun _ _ hr => ⟨_, hr, rfl, rfl, fun _ => rfl⟩, fun _ hr => hr,
      fun hr hfile => ⟨_, hr, hfile⟩⟩
  have hsaved : ∀ {st'}, Run root st d st' → Saved root st st' := fun h => ⟨h.rooted, h.files⟩
  have hrows : ∀ e ∈ st.files.select (·.id ∈ fileIds), st.files.get? e.id = some e :=
    fun e he => Table.get?_eq_some.mpr ⟨(Table.mem_select.mp he).1, rfl⟩
  have hends : ∃ out,
      FileMove.move env fuel (st.files.select (·.id ∈ fileIds)) d st = some out := by
    obtain ⟨out, hout, -⟩ := exists_moveAll (P := Kept st) (st.files.select (·.id ∈ fileIds))
      (fun e he st' hkept => @exists_moveEntry env root st htree.rooted fuel e d st' hkept
        ⟨e, hrows e he, rfl, fun _ => ⟨rfl, (size_le st e.id).trans_lt hfuel⟩⟩ (by omega)) st
      hrun.kept
    exact ⟨out, hout⟩
  unfold mv
  rw [hd]
  dsimp only
  split
  case h_1 => exact ⟨_, st, rfl, fun _ => (hsaved hrun).intact⟩
  case h_2 file files hselect =>
    rw [hselect] at hends hrows
    obtain ⟨out, hmove⟩ := hends
    cases hrefuse : refusal env (file :: files) fileIds with
    | some reply => exact ⟨reply, st, rfl, fun _ => (hsaved hrun).intact⟩
    | none =>
        refine ⟨(answer out).1, (answer out).2, ?_, fun hallowed => ?_⟩
        · dsimp only
          rw [id_of_get? hd, hmove]
          rfl
        · have hall := Run.move htree hd hdest (file :: files) hrows hrun (hselect ▸ hallowed) hmove
          cases out with
          | ok st' => exact (hsaved hall).intact
          | error st' => exact Saved.intact hall

end run

/-- A folder `a` with a file in it, and a folder that has a folder of this name in it. -/
def tree : State where
  files := ⟨[⟨['r'], ['r'], ['t'], ['u'], ['/'], [], 0, .folder⟩,
    ⟨['a'], ['r'], ['t'], ['u'], ['a'], [], 0, .folder⟩,
    ⟨['f'], ['a'], ['t'], ['u'], ['f'], ['f'], 1, .other⟩,
    ⟨['b'], ['r'], ['t'], ['u'], ['b'], [], 0, .folder⟩,
    ⟨['c'], ['b'], ['t'], ['u'], ['A'], [], 0, .folder⟩], by decide⟩
  objects := [(['a'], ['f'])]

def treeEnv : Env where
  permitted _ := true
  collation := .caseInsensitive

theorem get?_tree {x : Str} {r : FileRow} (h : tree.files.get? x = some r) :
    r.id = x ∧ r ∈ tree.files.rows := (Table.get?_eq_some.mp h).symm

theorem tree_folderTree : FolderTree tree ['r'] := by
  have hr : tree.parent ['r'] = some ['r'] := by decide
  have ha : Chain tree.parent ['a'] ['r'] := Chain.head (by decide) (Chain.refl _)
  have hb : Chain tree.parent ['b'] ['r'] := Chain.head (by decide) (Chain.refl _)
  refine ⟨⟨hr, fun x hx => ?_⟩, fun {x r} hx => ?_⟩
  · obtain ⟨p, hp⟩ := Option.isSome_iff_exists.mp hx
    obtain ⟨r, hr, -⟩ := parent_eq_some.mp hp
    obtain ⟨rfl, hmem⟩ := get?_tree hr
    simp only [tree, List.mem_cons, List.not_mem_nil, or_false] at hmem
    rcases hmem with rfl | rfl | rfl | rfl | rfl
    · exact Chain.refl _
    · exact ha
    · exact Chain.head (by decide) ha
    · exact hb
    · exact Chain.head (by decide) hb
  · obtain ⟨rfl, hmem⟩ := get?_tree hx
    simp only [tree, List.mem_cons, List.not_mem_nil, or_false] at hmem
    rcases hmem with rfl | rfl | rfl | rfl | rfl
    · exact ⟨_, rfl, rfl⟩
    · exact ⟨_, rfl, rfl⟩
    · exact ⟨_, rfl, rfl⟩
    · exact ⟨_, rfl, rfl⟩
    · exact ⟨_, rfl, rfl⟩

/-- Only the file has a place to go to within the destination. -/
theorem tree_movable :
    Movable treeEnv tree ⟨['a'], ['r'], ['t'], ['u'], ['a'], [], 0, .folder⟩ ['b'] := by
  have haligned : ∀ c t,
      Aligned treeEnv tree ⟨['a'], ['r'], ['t'], ['u'], ['a'], [], 0, .folder⟩ ['b'] c t →
      c.id = ['a'] ∧ t = ['b'] ∨ c.id = ['f'] ∧ t = ['c'] := by
    intro c t h
    induction h with
    | top => exact .inl ⟨rfl, rfl⟩
    | @sub e c r t _ hc hparent hr hplace _ ih =>
        obtain ⟨-, hc⟩ := get?_tree hc
        obtain ⟨-, hr⟩ := get?_tree hr
        simp only [tree, List.mem_cons, List.not_mem_nil, or_false] at hc hr
        rcases ih with ⟨he, rfl⟩ | ⟨he, rfl⟩
        · rw [he] at hparent
          rcases hc with rfl | rfl | rfl | rfl | rfl <;> simp at hparent
          rcases hr with rfl | rfl | rfl | rfl | rfl <;> simp at hplace
          exact .inr ⟨rfl, rfl⟩
        · rw [he] at hparent
          rcases hc with rfl | rfl | rfl | rfl | rfl <;> simp at hparent
  refine ⟨fun hunder => ?_, fun c hc => ?_⟩
  · rcases hunder.cases_head with heq | ⟨y, hp, hchain⟩
    · exact absurd heq (by decide)
    · rw [show tree.parent ['b'] = some ['r'] from by decide] at hp
      cases hp
      exact absurd (tree_folderTree.rooted.eq_root hchain) (by decide)
  · rcases haligned c _ hc with ⟨-, ht⟩ | ⟨-, ht⟩
    · exact absurd ht (by decide)
    · exact absurd ht (by decide)

/-- The folder `a` is moved to `b`, and merged with the folder `A` there. -/
theorem move_keeps_files_merged :
    ∃ st', mv treeEnv 6 [['a']] ['b'] tree = some (.moved, st') ∧
      st'.parent ['f'] = some ['c'] ∧ st'.parent ['a'] = none ∧ Intact ['r'] tree st' := by
  have hmove : ∃ st', mv treeEnv 6 [['a']] ['b'] tree = some (.moved, st') ∧
      st'.parent ['f'] = some ['c'] ∧ st'.parent ['a'] = none := ⟨_, rfl, rfl, rfl⟩
  obtain ⟨st', hmove, hf, ha⟩ := hmove
  obtain ⟨reply, st₁, hsame, hkeeps⟩ := @move_keeps_files treeEnv _ _ _ _ tree_folderTree
    (show tree.files.get? ['b'] = some ⟨['b'], ['r'], ['t'], ['u'], ['b'], [], 0, .folder⟩ from rfl)
    rfl [['a']] 6 (by decide)
  rw [hmove] at hsame
  cases hsame
  exact ⟨st', hmove, hf, ha,
    hkeeps ⟨fun _ _ => .inr (.inl tree_movable), fun _ _ _ => trivial⟩⟩

/-- The folder `a` is moved to where it is: the request ends, and the file is in a folder that is
not there any more. -/
theorem move_loses_file :
    FolderTree tree ['r'] ∧ (tree.files.get? ['f']).isSome ∧
      ∃ st', mv treeEnv 6 [['a']] ['r'] tree = some (.moved, st') ∧
        (st'.files.get? ['f']).isSome ∧ ¬ Chain st'.parent ['f'] ['r'] := by
  have hmove : ∃ st', mv treeEnv 6 [['a']] ['r'] tree = some (.moved, st') ∧
      (st'.files.get? ['f']).isSome ∧ st'.parent ['f'] = some ['a'] ∧ st'.parent ['a'] = none :=
    ⟨_, rfl, rfl, rfl, rfl⟩
  obtain ⟨st', hmove, hsome, hf, ha⟩ := hmove
  refine ⟨tree_folderTree, by decide, st', hmove, hsome, fun hchain => ?_⟩
  have hrest := Chain.of_parent hf hchain (by decide)
  rcases hrest.cases_head with heq | ⟨y, hp, -⟩
  · exact absurd heq (by decide)
  · rw [ha] at hp
    cases hp

end RagFlow.FileMove
