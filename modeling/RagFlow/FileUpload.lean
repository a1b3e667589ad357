import RagFlow.FileTree

/-! # Files are uploaded

What the requests of `FileTree` make of the state.

* **State.** `Tidy`: the rows form a forest whose inner nodes are folders, the names in a folder
  differ, and every uploaded file has an object of its own.
* **Upload.** The folders of the path are looked up one in the other, and the file is put into the
  last (`handleSingleFile_lands`).  If one is missing the upload fails.
* **Runs.** Every request keeps the state tidy, if the folder it names is one and no path leads
  through a file (`run_tidy`). -/

namespace RagFlow.FileTree

open Py FileNames RowTree

/-! ### The state between requests -/

/-- The file was uploaded, and its location is the name of an object that the storage takes.  That
of a file from a directory that was scanned is a path. -/
def Uploaded (env : Env) (r : File) : Prop :=
  r.sourceType = [] ∧ r.location ≠ [] ∧ '/' ∉ r.location ∧ env.accepts r.object = true

/-- The rows form a forest whose inner nodes are folders, the names in a folder differ, every file
that was uploaded has an object of its own, and the knowledge bases of the documents have other ids
than the rows. -/
structure Tidy (env : Env) (st : State) : Prop where
  forest : ∃ rank, Forest rank st
  names : ∀ r ∈ st.files, ∀ x ∈ st.files, x.parentId = r.parentId → x.name = r.name → x = r
  stored : ∀ r ∈ st.files, Uploaded env r → r.object ∈ st.objects
  own : ∀ r ∈ st.files, ∀ x ∈ st.files, Uploaded env r → Uploaded env x →
    x.object = r.object → x = r
  sources : ∀ r ∈ st.files, r.sourceType = [] ∨ r.sourceType = knowledgebase
  unused : ∀ k, st.next ≤ k → st.files.get? (env.uuid k) = none
  apart : ∀ d ∈ st.documents, st.files.get? d.kbId = none ∧ ∀ k, st.next ≤ k → env.uuid k ≠ d.kbId

section tidy
variable {env : Env} {st st' : State} {r c pf : File} {user : Str}

theorem mem_query {parentId name : Str} : r ∈ query env st parentId name ↔
    r ∈ st.files ∧ r.parentId = parentId ∧ env.collation.same r.name name := by
  rw [query, Table.mem_select, Bool.and_eq_true, decide_eq_true_eq]

theorem query_eq_nil {parentId name : Str} : query env st parentId name = [] ↔
    ∀ x ∈ st.files, x.parentId = parentId → ¬ env.collation.same x.name name := by
  rw [List.eq_nil_iff_forall_not_mem]
  refine forall_congr' (fun x => ?_)
  rw [mem_query]
  exact ⟨fun h hx hp hn => h ⟨hx, hp, hn⟩, fun h hx => h hx.1 hx.2.1 hx.2.2⟩

/-- A name that a query does not find is none of those that are there. -/
theorem name_ne_of_query_eq_nil {parentId name : Str} (h : query env st parentId name = [])
    (hr : r ∈ st.files) (hparent : r.parentId = parentId) : r.name ≠ name := by
  rintro rfl
  exact query_eq_nil.mp h r hr hparent (env.collation.same_self _)

/-- A parent with an id that has not been given has no children. -/
theorem Tidy.parent_ne (h : Tidy env st) {k : ℕ} (hk : st.next ≤ k) (hr : r ∈ st.files) :
    r.parentId ≠ env.uuid k := by
  intro heq
  obtain ⟨rank, hforest⟩ := h.forest
  obtain ⟨p, hp, hid, -⟩ := hforest.closed r hr
  exact Table.get?_eq_none.mp (h.unused k hk) p hp (hid.trans heq)

/-- The state `st'` is `st` with one row more, for which an id has been taken. -/
structure Inserted (r : File) (st st' : State) : Prop where
  rows : st'.files.rows = st.files.rows ++ [r]
  next : st'.next = st.next + 1
  objects : st'.objects = st.objects
  links : st'.links = st.links
  documents : st'.documents = st.documents

theorem Inserted.mem (h : Inserted r st st') {x : File} : x ∈ st'.files ↔ x ∈ st.files ∨ x = r := by
  rw [Table.mem_rows, h.rows, List.mem_append, List.mem_singleton]
  rfl

/-- A row with the next id can be inserted. -/
theorem Tidy.exists_insert? (h : Tidy env st) (hid : r.id = env.uuid st.next) :
    ∃ files, st.files.insert? r = some files := by
  cases hinsert : st.files.insert? r with
  | none =>
      obtain ⟨x, hx⟩ := Table.insert?_eq_none.mp hinsert
      rw [hid, h.unused st.next (Nat.le_refl _)] at hx
      cases hx
  | some files => exact ⟨files, rfl⟩

theorem insert_of_fits (h : Tidy env st) (hid : r.id = env.uuid st.next) (hfits : r.fits = true) :
    ∃ st', insert r st = .ok st' ∧ Inserted r st st' := by
  obtain ⟨files, hinsert⟩ := h.exists_insert? hid
  unfold insert
  rw [if_pos hfits, hinsert]
  exact ⟨_, rfl, (Table.insert?_eq_some hinsert).2, rfl, rfl, rfl, rfl⟩

theorem insert_of_not_fits (hfits : r.fits = false) : insert r st = .error st := by
  unfold insert
  rw [hfits]
  rfl

/-- A row with a new id and a name that is new in its folder. -/
structure Fresh (env : Env) (st : State) (r : File) : Prop where
  id : r.id = env.uuid st.next
  place : (∃ p ∈ st.files, p.id = r.parentId ∧ p.type = .folder) ∨
    r.parentId = r.id ∧ r.type = .folder
  name : query env st r.parentId r.name = []
  source : r.sourceType = []
  object : Uploaded env r →
    r.object ∈ st.objects ∧ ∀ x ∈ st.files, Uploaded env x → x.object ≠ r.object

theorem Tidy.inserted (h : Tidy env st) (huuid : Function.Injective env.uuid)
    (hfresh : Fresh env st r) (hins : Inserted r st st') : Tidy env st' := by
  have hinsert : st.files.insert? r = some st'.files := by
    obtain ⟨files, hinsert⟩ := h.exists_insert? hfresh.id
    rw [hinsert]
    refine congrArg some (Table.ext ?_)
    rw [(Table.insert?_eq_some hinsert).2, hins.rows]
  refine ⟨?_, ?_, ?_, ?_, ?_, ?_, ?_⟩
  · obtain ⟨rank, hforest⟩ := h.forest
    exact ⟨_, hforest.ranked.insert? hforest.closed hinsert,
      hforest.closed.insert? hinsert hfresh.place⟩
  · intro a ha b hb hparent hname
    rcases hins.mem.mp ha with ha | rfl
    · rcases hins.mem.mp hb with hb | rfl
      · exact h.names a ha b hb hparent hname
      · exact absurd hname.symm (name_ne_of_query_eq_nil hfresh.name ha hparent.symm)
    · rcases hins.mem.mp hb with hb | rfl
      · exact absurd hname (name_ne_of_query_eq_nil hfresh.name hb hparent)
      · rfl
  · intro a ha huploaded
    rw [hins.objects]
    rcases hins.mem.mp ha with ha | rfl
    · exact h.stored a ha huploaded
    · exact (hfresh.object huploaded).1
  · intro a ha b hb hua hub hobject
    rcases hins.mem.mp ha with ha | rfl
    · rcases hins.mem.mp hb with hb | rfl
      · exact h.own a ha b hb hua hub hobject
      · exact absurd hobject.symm ((hfresh.object hub).2 a ha hua)
    · rcases hins.mem.mp hb with hb | rfl
      · exact absurd hobject ((hfresh.object hua).2 b hb hub)
      · rfl
  · intro a ha
    rcases hins.mem.mp ha with ha | rfl
    · exact h.sources a ha
    · exact .inl hfresh.source
  · intro k hk
    rw [hins.next] at hk
    rw [Table.get?_insert? hinsert, if_neg, h.unused k (Nat.le_of_succ_le hk)]
    rw [hfresh.id]
    exact fun heq => absurd (huuid heq) (by omega)
  · intro d hd
    rw [hins.documents] at hd
    obtain ⟨hrow, hnew⟩ := h.apart d hd
    rw [hins.next]
    refine ⟨?_, fun k hk => hnew k (Nat.le_of_succ_le hk)⟩
    rw [Table.get?_insert? hinsert, if_neg, hrow]
    rw [hfresh.id]
    exact (hnew st.next (Nat.le_refl _)).symm

/-! ### Paths -/

/-- The rows on the path, up to the first that is missing. -/
def walk (env : Env) (st : State) (id : Str) : List Str → List File
  | [] => []
  | name :: names =>
      match getByPfIdName env st id name with
      | some file => file :: walk env st file.id names
      | none => []

/-- The id at the end of a walk. -/
def endOf : Str → List File → Str
  | id, [] => id
  | _, file :: files => endOf file.id files

/-- The id that a path leads to. -/
def resolve (env : Env) (st : State) (id : Str) : List Str → Option Str
  | [] => some id
  | name :: names =>
      (getByPfIdName env st id name).bind (fun file => resolve env st file.id names)

theorem getIdListById_eq_walk (env : Env) (st : State) (names : List Str) :
    ∀ (id : Str) (res : List Str),
      getIdListById env st id names res = res ++ (walk env st id names).map (·.id) := by
  induction names with
  | nil => exact fun id res => (List.append_nil res).symm
  | cons name names ih =>
      intro id res
      rw [getIdListById, walk]
      cases getByPfIdName env st id name with
      | none => exact (List.append_nil res).symm
      | some file =>
          dsimp only
          rw [ih, List.map_cons, List.append_assoc, List.singleton_append]

theorem mem_of_mem_walk {names : List Str} :
    ∀ {id : Str}, r ∈ walk env st id names → r ∈ st.files := by
  induction names with
  | nil => exact fun hr => (nomatch hr)
  | cons name names ih =>
      intro id hr
      rw [walk] at hr
      cases hfile : getByPfIdName env st id name with
      | none =>
          rw [hfile] at hr
          cases hr
      | some file =>
          rw [hfile] at hr
          rcases List.mem_cons.mp hr with rfl | hr
          · exact (mem_query.mp (List.mem_of_mem_head? hfile)).1
          · exact ih hr

theorem walk_take (env : Env) (st : State) (names : List Str) : ∀ (id : Str) (n : ℕ),
    walk env st id (names.take n) = (walk env st id names).take n := by
  induction names with
  | nil =>
      intro id n
      rw [List.take_nil, walk, List.take_nil]
  | cons name names ih =>
      intro id n
      cases n with
      | zero => rfl
      | succ n =>
          rw [List.take_succ_cons, walk, walk]
          cases getByPfIdName env st id name with
          | none => rfl
          | some file =>
              dsimp only
              rw [ih, List.take_succ_cons]

theorem length_walk_le (env : Env) (st : State) (names : List Str) :
    ∀ id, (walk env st id names).length ≤ names.length := by
  induction names with
  | nil => exact fun _ => Nat.le_refl _
  | cons name names ih =>
      intro id
      rw [walk]
      cases getByPfIdName env st id name with
      | none => exact Nat.zero_le _
      | some file => exact Nat.succ_le_succ (ih file.id)

/-- A path leads to the end of the walk, if the walk goes as far. -/
theorem resolve_eq (env : Env) (st : State) (names : List Str) : ∀ id, resolve env st id names =
    if (walk env st id names).length = names.length then some (endOf id (walk env st id names))
      else none := by
  induction names with
  | nil => exact fun _ => rfl
  | cons name names ih =>
      intro id
      rw [walk, resolve]
      cases getByPfIdName env st id name with
      | none => rfl
      | some file =>
          rw [Option.bind_some, ih]
          simp only [List.length_cons, Nat.add_right_cancel_iff]
          rfl

theorem endOf_mem (hpf : pf ∈ st.files) {names : List Str} :
    ∃ file ∈ st.files, file.id = endOf pf.id (walk env st pf.id names) ∧
      (file = pf ∨ file ∈ walk env st pf.id names) := by
  have hend : ∀ (w : List File) (file : File), ∃ last, last.id = endOf file.id w ∧
      (last = file ∨ last ∈ w) := by
    intro w
    induction w with
    | nil => exact fun file => ⟨file, rfl, .inl rfl⟩
    | cons c w ih =>
        intro file
        obtain ⟨last, hid, hlast⟩ := ih c
        refine ⟨last, hid, .inr ?_⟩
        rcases hlast with rfl | hlast
        · exact List.mem_cons_self
        · exact List.mem_cons_of_mem _ hlast
  obtain ⟨last, hid, hlast⟩ := hend (walk env st pf.id names) pf
  refine ⟨last, ?_, hid, hlast⟩
  rcases hlast with rfl | hlast
  · exact hpf
  · exact mem_of_mem_walk hlast

/-- Rows that are added do not change where a path leads. -/
theorem resolve_mono {rows : List File} (h : st'.files.rows = st.files.rows ++ rows)
    {names : List Str} {d : Str} : ∀ {id : Str}, resolve env st id names = some d →
      resolve env st' id names = some d := by
  induction names with
  | nil => exact fun hresolve => hresolve
  | cons name names ih =>
      intro id hresolve
      rw [resolve] at hresolve ⊢
      obtain ⟨file, hfile, hrest⟩ := Option.bind_eq_some_iff.mp hresolve
      have hfile' : getByPfIdName env st' id name = some file := by
        unfold getByPfIdName query Table.select at hfile ⊢
        rw [h, List.filter_append, List.head?_append, hfile]
        rfl
      rw [hfile']
      exact ih hrest

/-! ### A file is put into a folder -/

section put
variable (env : Env) (object : Str × Str) (st : State)

@[simp] theorem putObject_files : (putObject env object st).files = st.files := by
  unfold putObject
  split <;> rfl

@[simp] theorem putObject_links : (putObject env object st).links = st.links := by
  unfold putObject
  split <;> rfl

@[simp] theorem putObject_documents : (putObject env object st).documents = st.documents := by
  unfold putObject
  split <;> rfl

@[simp] theorem putObject_next : (putObject env object st).next = st.next := by
  unfold putObject
  split <;> rfl

theorem mem_putObject {o : Str × Str} : o ∈ (putObject env object st).objects ↔
    o ∈ st.objects ∨ o = object ∧ env.accepts object = true := by
  unfold putObject
  split
  case isTrue h => simp [h]
  case isFalse h => simp [h]

end put

/-- The storage has an object more. -/
theorem Tidy.put (h : Tidy env st) (object : Str × Str) : Tidy env (putObject env object st) where
  forest := by
    obtain ⟨rank, hforest⟩ := h.forest
    refine ⟨rank, ?_, ?_⟩
    · rw [putObject_files]
      exact hforest.ranked
    · rw [putObject_files]
      exact hforest.closed
  names := by simpa using h.names
  stored := by
    intro r hr huploaded
    rw [putObject_files] at hr
    exact (mem_putObject _ _ _).mpr (.inl (h.stored r hr huploaded))
  own := by simpa using h.own
  sources := by simpa using h.sources
  unused := by simpa using h.unused
  apart := by simpa using h.apart

theorem not_mem_of_freeLocation {objects : List (Str × Str)} {bucket location : Str} {fuel : ℕ} :
    ∀ {name : Str}, FileMove.freeLocation objects bucket fuel name = some location →
      (bucket, location) ∉ objects := by
  induction fuel with
  | zero => exact fun h => (nomatch h)
  | succ fuel ih =>
      intro name h
      rw [FileMove.freeLocation] at h
      split at h
      case isTrue => exact ih h
      case isFalse hfree =>
        cases h
        exact hfree

/-- The file has been put into the folder `d`. -/
structure Put (env : Env) (d : Str) (st : State) (file : File) (st' : State) : Prop where
  rows : st'.files.rows = st.files.rows ++ [file]
  parent : file.parentId = d
  name : query env st d file.name = []
  object : file.object ∉ st.objects
  objects : st'.objects = (putObject env file.object st).objects
  links : st'.links = st.links
  documents : st'.documents = st.documents

/-- No name that is tried for the file is free in the folder `d`, or the row does not fit the
columns; then the object is there. -/
def Unput (env : Env) (d name : Str) (st : State) (out : Except State (File × State)) : Prop :=
  (out = .error st ∧ ∃ error, env.digits.duplicateName (fun n => !(query env st d n).isEmpty)
    (some name) = .error error) ∨
  ∃ file : File, file.fits = false ∧ file.parentId = d ∧ file.object ∉ st.objects ∧
    out = .error (putObject env file.object st)

/-- The name that `duplicate_name` finds is free. -/
theorem query_of_duplicateName {d name filename : Str}
    (h : env.digits.duplicateName (fun n => !(query env st d n).isEmpty) (some name) =
      .ok filename) : query env st d filename = [] := by
  unfold DigitTable.duplicateName at h
  split at h
  case h_1 => cases h
  case h_2 =>
    split at h
    case h_1 found htry =>
      cases h
      have hnot := Orbit.not_taken_of_tryFrom htry
      simpa using hnot
    case h_2 => cases h

theorem putFile_spec (huuid : Function.Injective env.uuid) (h : Tidy env st) (user name : Str)
    (size : ℕ) :
    (∃ file st', putFile env user c name size st = .ok (file, st') ∧ Put env c.id st file st' ∧
      (c ∈ st.files → c.type = .folder → Tidy env st')) ∨
      Unput env c.id name st (putFile env user c name size st) := by
  obtain ⟨location, hlocation⟩ := FileMove.freeLocation_isSome st.objects c.id name
  have hfree : (c.id, location) ∉ st.objects := not_mem_of_freeLocation hlocation
  unfold putFile
  rw [hlocation]
  dsimp only
  cases hname : env.digits.duplicateName (fun n => !(query env st c.id n).isEmpty) (some name) with
  | error e => exact .inr (.inl ⟨rfl, e, hname⟩)
  | ok filename =>
      have hquery : query env st c.id filename = [] := query_of_duplicateName hname
      dsimp only
      rw [putObject_next]
      generalize hfile : fileRow env user c.id filename location size
        (filenameType env.case name) st.next = file
      obtain ⟨hobject, hparent, hid, hsource, hfilename⟩ : file.object = (c.id, location) ∧
          file.parentId = c.id ∧ file.id = env.uuid st.next ∧ file.sourceType = [] ∧
          file.name = filename := by
        subst hfile
        exact ⟨rfl, rfl, rfl, rfl, rfl⟩
      rw [← hobject] at hfree ⊢
      have h₁ : Tidy env (putObject env file.object st) := h.put file.object
      cases hfits : file.fits with
      | false =>
          refine .inr (.inr ⟨file, hfits, hparent, hfree, ?_⟩)
          rw [insert_of_not_fits hfits]
          rfl
      | true =>
          obtain ⟨st', hinsert, hins⟩ := insert_of_fits h₁ (by rw [hid, putObject_next]) hfits
          refine .inl ⟨file, st', by rw [hinsert]; rfl, ⟨?_, hparent, hfilename ▸ hquery, hfree,
            hins.objects, ?_, ?_⟩, fun hc htype => ?_⟩
          · rw [hins.rows, putObject_files]
          · rw [hins.links, putObject_links]
          · rw [hins.documents, putObject_documents]
          · refine h₁.inserted huuid ⟨by rw [hid, putObject_next],
              .inl ⟨c, ?_, hparent.symm, htype⟩, ?_, hsource,
              fun hup => ⟨?_, fun x hx hux heq => ?_⟩⟩ hins
            · rw [putObject_files]
              exact hc
            · unfold query
              rw [putObject_files, hparent, hfilename]
              exact hquery
            · exact (mem_putObject _ _ _).mpr (.inr ⟨rfl, hup.2.2.2⟩)
            · rw [putObject_files] at hx
              exact hfree (heq ▸ h.stored x hx hux)

/-! ### A file is uploaded -/

/-- The folders of the path of a file. -/
def directory (filename : Str) : List Str := (filename.splitOn '/').dropLast

theorem fileObjNames_eq (filename : Str) : fileObjNames filename = [] :: filename.splitOn '/' := by
  unfold fileObjNames List.splitOn
  rw [List.splitOnP_cons_eq_if_modifyHead, if_pos (by simp)]

/-- The id on a list at the end of the walk. -/
theorem getD_ids (w w' : List File) : ∀ id : Str,
    (id :: (w ++ w').map (·.id)).getD w.length [] = endOf id w := by
  induction w with
  | nil => exact fun _ => rfl
  | cons c w ih => exact fun _ => ih c.id

/-- Whether the path is found to its end or not, the folder that is looked for is the one at the
end of the walk through its folders. -/
theorem folderId_eq (env : Env) (st : State) (pfId filename : Str) :
    let names := fileObjNames filename
    let idList := getIdListById env st pfId (names.drop 1) [pfId]
    (if names.length ≠ idList.length then idList.getD (idList.length - 1) []
      else idList.getD (idList.length - 2) []) =
        endOf pfId (walk env st pfId (directory filename)) ∧
    (names.drop idList.length).dropLast =
      (directory filename).drop (walk env st pfId (directory filename)).length := by
  dsimp only
  obtain ⟨path, hpath⟩ : ∃ path, path = filename.splitOn '/' := ⟨_, rfl⟩
  have hne : path ≠ [] := hpath ▸ List.splitOnP_ne_nil _ _
  have hpos : 0 < path.length := List.length_pos_iff.mpr hne
  rw [fileObjNames_eq, directory, ← hpath, List.drop_one, List.tail_cons, getIdListById_eq_walk,
    List.dropLast_eq_take, walk_take]
  obtain ⟨w, hw⟩ : ∃ w, w = walk env st pfId path := ⟨_, rfl⟩
  have hle : w.length ≤ path.length := hw ▸ length_walk_le env st path pfId
  rw [← hw, List.length_append, List.length_map, List.length_cons, List.length_singleton,
    List.singleton_append]
  by_cases hall : w.length = path.length
  · have htake : (w.take (path.length - 1)).length = path.length - 1 := by
      rw [List.length_take]
      omega
    refine ⟨?_, ?_⟩
    · have hget := getD_ids (w.take (path.length - 1)) (w.drop (path.length - 1)) pfId
      rw [List.take_append_drop, htake] at hget
      rw [if_neg (by omega), ← hget]
      congr 1
      omega
    · rw [htake, List.drop_eq_nil_of_le, List.drop_eq_nil_of_le]
      · rfl
      · rw [List.length_take]
        omega
      · rw [List.length_cons]
        omega
  · have htake : w.take (path.length - 1) = w := List.take_of_length_le (by omega)
    refine ⟨?_, ?_⟩
    · have hget := getD_ids w [] pfId
      rw [List.append_nil] at hget
      rw [if_pos (by omega), htake, ← hget]
      congr 1
      omega
    · rw [htake, Nat.add_comm, List.drop_succ_cons, List.dropLast_eq_take, List.drop_take,
        List.length_drop]
      congr 1
      omega

/-- The state in which a computation ends, whether it raises or not. -/
def stateOf {α : Type} : Except State (α × State) → State
  | .ok (_, st) => st
  | .error st => st

/-- The state is tidy, and the rows are those of `st` and others behind them. -/
def Grows (env : Env) (st st' : State) : Prop :=
  Tidy env st' ∧ ∃ rows, st'.files.rows = st.files.rows ++ rows

theorem Grows.trans {st'' : State} (h : Grows env st st') (h' : Grows env st' st'') :
    Grows env st st'' := by
  obtain ⟨-, rows, hrows⟩ := h
  obtain ⟨htidy, rows', hrows'⟩ := h'
  exact ⟨htidy, rows ++ rows', by rw [hrows', hrows, List.append_assoc]⟩

theorem createFolder_eq (file : File) (names : List Str) (st : State) :
    createFolder file names st = if names.dropLast = [] then .ok (file, st) else .error st := by
  rcases names with _ | ⟨name, _ | ⟨next, names⟩⟩
  all_goals rfl

/-- The result of an upload, with that of the file. -/
theorem handleSingleFile_eq (hpf : pf ∈ st.files) (hquota : env.exceeded st user = false)
    (fileObj : Str × ℕ) : ∃ file ∈ st.files,
      file.id = endOf pf.id (walk env st pf.id (directory fileObj.1)) ∧
      (file = pf ∨ file ∈ walk env st pf.id (directory fileObj.1)) ∧
      handleSingleFile env user pf.id fileObj st =
        if (resolve env st pf.id (directory fileObj.1)).isSome then
          (putFile env user file ((fileObjNames fileObj.1).getLastD []) fileObj.2 st).map
            (fun x => (.ok x.1, x.2))
        else .error st := by
  obtain ⟨hfolderId, hnames⟩ := folderId_eq env st pf.id fileObj.1
  obtain ⟨file, hfile, hid, hwalk⟩ := @endOf_mem env st pf hpf (directory fileObj.1)
  refine ⟨file, hfile, hid, hwalk, ?_⟩
  have hget : st.files.get? (endOf pf.id (walk env st pf.id (directory fileObj.1))) = some file :=
    Table.get?_eq_some.mpr ⟨hfile, hid⟩
  have hle := length_walk_le env st (directory fileObj.1) pf.id
  unfold handleSingleFile
  rw [if_neg (by rw [hquota]; exact Bool.false_ne_true)]
  dsimp only
  rw [hfolderId, hget, resolve_eq]
  dsimp only
  rw [createFolder_eq, hnames]
  by_cases hall : (walk env st pf.id (directory fileObj.1)).length = (directory fileObj.1).length
  · rw [if_pos (List.drop_eq_nil_of_le hall.ge), if_pos hall]
    show (putFile _ _ _ _ _ _).bind _ = (putFile _ _ _ _ _ _).map _
    cases putFile env user file ((fileObjNames fileObj.1).getLastD []) fileObj.2 st with
    | error _ => rfl
    | ok _ => rfl
  · rw [if_neg (fun hnil => hall (hle.antisymm (List.drop_eq_nil_iff.mp hnil))), if_neg hall]
    rfl

theorem handleSingleFile_grows (huuid : Function.Injective env.uuid) (h : Tidy env st)
    (hpf : pf ∈ st.files) (hfolder : pf.type = .folder) {fileObj : Str × ℕ}
    (hclear : ∀ f ∈ walk env st pf.id (directory fileObj.1), f.type = .folder) :
    Grows env st (stateOf (handleSingleFile env user pf.id fileObj st)) := by
  have hsame : Grows env st st := ⟨h, [], (List.append_nil _).symm⟩
  cases hquota : env.exceeded st user with
  | true =>
      have hrun : handleSingleFile env user pf.id fileObj st =
          .ok (.error "Exceed the maximum file number of a free user!", st) := by
        unfold handleSingleFile
        rw [if_pos hquota]
      rw [hrun]
      exact hsame
  | false =>
      obtain ⟨c, hc, -, hwalk, hrun⟩ := handleSingleFile_eq hpf hquota fileObj
      have htype : c.type = .folder := by
        rcases hwalk with rfl | hwalk
        · exact hfolder
        · exact hclear c hwalk
      rw [hrun]
      split
      case isFalse => exact hsame
      case isTrue =>
        rcases @putFile_spec env st c huuid h user ((fileObjNames fileObj.1).getLastD []) fileObj.2
          with ⟨file, st', hput, hspec, htidy⟩ | ⟨hput, -⟩ | ⟨file, -, -, -, hput⟩
        · rw [hput]
          exact ⟨htidy hc htype, _, hspec.rows⟩
        · rw [hput]
          exact hsame
        · rw [hput]
          refine ⟨h.put file.object, [], ?_⟩
          show (putObject env file.object st).files.rows = _
          rw [putObject_files, List.append_nil]

/-- No path leads through a file when the turn of its file comes. -/
def ClearFiles (env : Env) (user pfId : Str) : List (Str × ℕ) → State → Prop
  | [], _ => True
  | fileObj :: fileObjs, st =>
      (∀ f ∈ walk env st pfId (directory fileObj.1), f.type = .folder) ∧
        ∀ res st', handleSingleFile env user pfId fileObj st = .ok (res, st') →
          ClearFiles env user pfId fileObjs st'

theorem handleFiles_grows (huuid : Function.Injective env.uuid) (hfolder : pf.type = .folder)
    (fileObjs : List (Str × ℕ)) : ∀ (st : State), Tidy env st → pf ∈ st.files →
      ClearFiles env user pf.id fileObjs st →
      Grows env st (stateOf (handleFiles env user pf.id fileObjs st)) := by
  induction fileObjs with
  | nil => exact fun st h _ _ => ⟨h, [], (List.append_nil _).symm⟩
  | cons fileObj fileObjs ih =>
      rintro st h hpf ⟨hclear, hrest⟩
      have hgrows := @handleSingleFile_grows env st pf user huuid h hpf hfolder fileObj hclear
      rw [handleFiles]
      cases hrun : handleSingleFile env user pf.id fileObj st with
      | error st₁ =>
          rw [hrun] at hgrows
          exact hgrows
      | ok x =>
          obtain ⟨res, st₁⟩ := x
          rw [hrun] at hgrows
          have hmem : pf ∈ st₁.files := by
            obtain ⟨-, rows, hrows⟩ := hgrows
            have hrows' : st₁.files.rows = st.files.rows ++ rows := hrows
            rw [Table.mem_rows, hrows']
            exact List.mem_append_left _ hpf
          have hnext := ih st₁ hgrows.1 hmem (hrest res st₁ hrun)
          refine Grows.trans hgrows ?_
          show Grows env st₁ (stateOf
            ((handleFiles env user pf.id fileObjs st₁).bind (fun y => .ok (res :: y.1, y.2))))
          cases hrest : handleFiles env user pf.id fileObjs st₁ with
          | error st₂ =>
              rw [hrest] at hnext
              exact hnext
          | ok y =>
              rw [hrest] at hnext
              exact hnext

/-! ### The requests keep the state tidy -/

/-- The folder of a request. -/
theorem parentFolder_spec (huuid : Function.Injective env.uuid) (h : Tidy env st)
    (user pfId : Str) : ∃ id st', parentFolder env user pfId st = .ok (id, st') ∧ Tidy env st' ∧
      (pfId ≠ [] → id = pfId ∧ st' = st) ∧
      (pfId = [] → ∃ root ∈ st'.files, root.id = id ∧ root.type = .folder) := by
  unfold parentFolder
  split
  case isFalse hne => exact ⟨pfId, st, rfl, h, fun _ => ⟨rfl, rfl⟩, fun heq => absurd heq hne⟩
  case isTrue hpf =>
    unfold getRootFolder
    split
    case h_1 root rest hselect =>
      have hmem : root ∈ st.files.select (fun r => r.tenantId = user && r.parentId = r.id) := by
        rw [hselect]
        exact List.mem_cons_self
      obtain ⟨hroot, hself⟩ := Table.mem_select.mp hmem
      rw [Bool.and_eq_true, decide_eq_true_eq, decide_eq_true_eq] at hself
      refine ⟨root.id, st, rfl, h, fun hne => absurd hpf hne, fun _ => ⟨root, hroot, rfl, ?_⟩⟩
      obtain ⟨rank, hforest⟩ := h.forest
      obtain ⟨p, hp, hid, htype⟩ := hforest.closed root hroot
      rw [← st.files.eq_of_key_eq hp hroot (hid.trans hself.2)]
      exact htype
    case h_2 =>
      have hfresh : Fresh env st (folderRow env user (env.uuid st.next) ['/'] st.next) :=
        ⟨rfl, .inr ⟨rfl, rfl⟩,
          query_eq_nil.mpr (fun x hx hp => absurd hp (h.parent_ne (Nat.le_refl _) hx)), rfl,
          fun huploaded => absurd rfl huploaded.2.1⟩
      obtain ⟨st', hinsert, hins⟩ := insert_of_fits h hfresh.id rfl
      refine ⟨env.uuid st.next, st', ?_, h.inserted huuid hfresh hins, fun hne => absurd hpf hne,
        fun _ => ⟨_, hins.mem.mpr (.inr rfl), rfl, rfl⟩⟩
      dsimp only
      rw [hinsert]
      rfl

theorem upload_tidy (huuid : Function.Injective env.uuid) (h : Tidy env st) {pfId : Str}
    {fileObjs : List (Str × ℕ)}
    (hfolder : pfId ≠ [] → ∀ f, st.files.get? pfId = some f → f.type = .folder)
    (hclear : ∀ id st₁, parentFolder env user pfId st = .ok (id, st₁) →
      ClearFiles env user id fileObjs st₁) :
    Tidy env (upload env user pfId fileObjs st).2 := by
  obtain ⟨id, st₁, hparent, h₁, hsame, hroot⟩ := parentFolder_spec huuid h user pfId
  unfold upload
  rw [hparent]
  dsimp only
  split
  case isTrue => exact h₁
  case isFalse =>
    split
    case isTrue => exact h₁
    case isFalse =>
      split
      case h_1 => exact h₁
      case h_2 pf hpf =>
        obtain ⟨hmem, hid⟩ := Table.get?_eq_some.mp hpf
        have htype : pf.type = .folder := by
          by_cases hempty : pfId = []
          · obtain ⟨root, hrootmem, hrootid, htype⟩ := hroot hempty
            rw [st₁.files.eq_of_key_eq hmem hrootmem (hid.trans hrootid.symm)]
            exact htype
          · obtain ⟨rfl, rfl⟩ := hsame hempty
            exact hfolder hempty pf hpf
        have hid' : pf.id = id := hid
        have hgrows := @handleFiles_grows env pf user huuid htype fileObjs st₁ h₁ hmem
          (hid'.symm ▸ hclear id st₁ hparent)
        rw [hid'] at hgrows
        have hanswer : (answer uploadReply (handleFiles env user id fileObjs st₁)).2 =
            stateOf (handleFiles env user id fileObjs st₁) := by
          cases handleFiles env user id fileObjs st₁ with
          | error st₂ => rfl
          | ok x => rfl
        rw [hanswer]
        exact hgrows.1

theorem create_tidy (huuid : Function.Injective env.uuid) (h : Tidy env st) {pfId name : Str}
    {folder : Bool}
    (hfolder : pfId ≠ [] → ∀ f, st.files.get? pfId = some f → f.type = .folder) :
    Tidy env (create env user pfId name folder st).2 := by
  obtain ⟨id, st₁, hparent, h₁, hsame, hroot⟩ := parentFolder_spec huuid h user pfId
  unfold create
  rw [hparent]
  dsimp only
  split
  case h_1 => exact h₁
  case h_2 pf hpf =>
    split
    case isTrue => exact h₁
    case isFalse hquery =>
      obtain ⟨hmem, hid⟩ := Table.get?_eq_some.mp hpf
      have htype : pf.type = .folder := by
        by_cases hempty : pfId = []
        · obtain ⟨root, hrootmem, hrootid, htype⟩ := hroot hempty
          rw [st₁.files.eq_of_key_eq hmem hrootmem (hid.trans hrootid.symm)]
          exact htype
        · obtain ⟨rfl, rfl⟩ := hsame hempty
          exact hfolder hempty pf hpf
      obtain ⟨r, hr⟩ : ∃ r, r = fileRow env user id name [] 0
        (if folder then FileType.folder else .virtual) st₁.next := ⟨_, rfl⟩
      have hfresh : Fresh env st₁ r := by
        rw [hr]
        exact ⟨rfl, .inl ⟨pf, hmem, hid, htype⟩, not_not.mp hquery, rfl,
          fun huploaded => absurd rfl huploaded.2.1⟩
      rw [← hr]
      cases hfits : r.fits with
      | true =>
          obtain ⟨st', hinsert, hins⟩ := insert_of_fits h₁ hfresh.id hfits
          rw [hinsert]
          exact h₁.inserted huuid hfresh hins
      | false =>
          rw [insert_of_not_fits hfits]
          exact h₁

/-- The state `st'` is `st` with another name for the row with this id. -/
structure Renamed (id name : Str) (st st' : State) : Prop where
  files : st'.files = st.files.updateWhere (·.id = id) (setName name) (fun _ => rfl)
  objects : st'.objects = st.objects
  next : st'.next = st.next
  documents : ∀ d ∈ st'.documents, ∃ d' ∈ st.documents, d.kbId = d'.kbId

/-- The rows agree in what does not depend on the name. -/
structure SameRow (x r : File) : Prop where
  id : x.id = r.id
  object : x.object = r.object
  type : x.type = r.type
  source : x.sourceType = r.sourceType

theorem sameRow_setName (name : Str) (r : File) : SameRow (setName name r) r :=
  ⟨rfl, rfl, rfl, rfl⟩

theorem SameRow.parentId {x : File} (h : SameRow x r) : x.parentId = r.parentId :=
  (Prod.mk.inj h.object).1

theorem SameRow.uploaded {x : File} (h : SameRow x r) (hx : Uploaded env x) : Uploaded env r := by
  have hlocation : x.location = r.location := (Prod.mk.inj h.object).2
  unfold Uploaded at hx ⊢
  rwa [← h.object, ← hlocation, ← h.source]

namespace Renamed

variable {id name : Str} {x : File} (hren : Renamed id name st st')
include hren

theorem cases (hx : x ∈ st'.files) :
    x ∈ st.files ∧ x.id ≠ id ∨ ∃ r ∈ st.files, r.id = id ∧ x = setName name r := by
  rw [hren.files] at hx
  rcases Table.mem_updateWhere.mp hx with ⟨hx, hid⟩ | ⟨r, hr, hid, rfl⟩
  · exact .inl ⟨hx, of_decide_eq_false hid⟩
  · exact .inr ⟨r, hr, of_decide_eq_true hid, rfl⟩

theorem before (hx : x ∈ st'.files) : ∃ r ∈ st.files, SameRow x r := by
  rcases hren.cases hx with ⟨hx, -⟩ | ⟨r, hr, -, rfl⟩
  · exact ⟨x, hx, rfl, rfl, rfl, rfl⟩
  · exact ⟨r, hr, sameRow_setName name r⟩

theorem after (hr : r ∈ st.files) : ∃ x ∈ st'.files, SameRow x r := by
  rw [hren.files]
  by_cases hid : r.id = id
  · exact ⟨_, Table.mem_updateWhere.mpr (.inr ⟨r, hr, decide_eq_true hid, rfl⟩),
      sameRow_setName name r⟩
  · exact ⟨r, Table.mem_updateWhere.mpr (.inl ⟨hr, decide_eq_false hid⟩), rfl, rfl, rfl, rfl⟩

theorem get?_eq_none {k : Str} (hk : st.files.get? k = none) : st'.files.get? k = none := by
  refine Table.get?_eq_none.mpr (fun x hx heq => ?_)
  obtain ⟨r, hr, hsame⟩ := hren.before hx
  exact Table.get?_eq_none.mp hk r hr (hsame.id.symm.trans heq)

theorem forest {rank : Str → ℕ} (h : Forest rank st) : Forest rank st' := by
  refine ⟨fun x hx hne => ?_, fun x hx => ?_⟩
  · obtain ⟨r, hr, hsame⟩ := hren.before hx
    dsimp only [File.parent] at hne ⊢
    rw [hsame.id, hsame.parentId] at hne ⊢
    exact h.ranked r hr hne
  · obtain ⟨r, hr, hsame⟩ := hren.before hx
    obtain ⟨p, hp, hid, htype⟩ := h.closed r hr
    obtain ⟨p', hp', hsame'⟩ := hren.after hp
    exact ⟨p', hp', hsame'.id.trans (hid.trans hsame.parentId.symm), hsame'.type.trans htype⟩

end Renamed

/-- A row gets a name that no row has. -/
theorem Tidy.renamed (h : Tidy env st) {id name : Str} (hname : ∀ r ∈ st.files, r.name ≠ name)
    (hren : Renamed id name st st') : Tidy env st' := by
  refine ⟨?_, ?_, ?_, ?_, ?_, ?_, ?_⟩
  · obtain ⟨rank, hforest⟩ := h.forest
    exact ⟨rank, hren.forest hforest⟩
  · intro a ha b hb hparent hab
    rcases hren.cases ha with ⟨ha, -⟩ | ⟨r, hr, hrid, rfl⟩
    · rcases hren.cases hb with ⟨hb, -⟩ | ⟨x, hx, -, rfl⟩
      · exact h.names a ha b hb hparent hab
      · exact absurd hab.symm (hname a ha)
    · rcases hren.cases hb with ⟨hb, -⟩ | ⟨x, hx, hxid, rfl⟩
      · exact absurd hab (hname b hb)
      · rw [st.files.eq_of_key_eq hx hr (hxid.trans hrid.symm)]
  · intro a ha hua
    obtain ⟨r, hr, hsame⟩ := hren.before ha
    rw [hren.objects, hsame.object]
    exact h.stored r hr (hsame.uploaded hua)
  · intro a ha b hb hua hub hobject
    obtain ⟨r, hr, hsame⟩ := hren.before ha
    obtain ⟨x, hx, hsame'⟩ := hren.before hb
    have heq := h.own r hr x hx (hsame.uploaded hua) (hsame'.uploaded hub)
      (hsame'.object.symm.trans (hobject.trans hsame.object))
    exact st'.files.eq_of_key_eq hb ha (hsame'.id.trans ((congrArg (·.id) heq).trans hsame.id.symm))
  · intro a ha
    obtain ⟨r, hr, hsame⟩ := hren.before ha
    rw [hsame.source]
    exact h.sources r hr
  · intro k hk
    rw [hren.next] at hk
    exact hren.get?_eq_none (h.unused k hk)
  · intro d hd
    obtain ⟨d', hd', hkb⟩ := hren.documents d hd
    rw [hkb, hren.next]
    exact ⟨hren.get?_eq_none (h.apart d' hd').1, (h.apart d' hd').2⟩

theorem rename_tidy (h : Tidy env st) {fileId name : Str} :
    Tidy env (rename env user fileId name st).2 := by
  unfold rename
  split
  case h_1 => exact h
  case h_2 file hfile =>
    split
    case isTrue => exact h
    case isFalse =>
      split
      case isTrue => exact h
      case isFalse =>
        split
        case isTrue => exact h
        case isFalse hnone =>
          have hname : ∀ r ∈ st.files, r.name ≠ name := by
            rintro r hr rfl
            refine hnone (List.any_eq_true.mpr ⟨r, Table.mem_select.mpr ⟨hr, ?_⟩, ?_⟩)
            · exact env.collation.same_self _
            · exact decide_eq_true rfl
          split
          case isTrue => exact h
          case isFalse =>
            dsimp only
            split
            case h_1 => exact h.renamed hname ⟨rfl, rfl, rfl, fun d hd => ⟨d, hd, rfl⟩⟩
            case h_2 =>
              split
              case h_1 => exact h.renamed hname ⟨rfl, rfl, rfl, fun d hd => ⟨d, hd, rfl⟩⟩
              case h_2 =>
                refine h.renamed hname ⟨rfl, rfl, rfl, fun d hd => ?_⟩
                dsimp only at hd
                rw [Table.mem_updateWhere] at hd
                rcases hd with ⟨hd, -⟩ | ⟨d', hd', -, rfl⟩
                · exact ⟨d, hd, rfl⟩
                · exact ⟨d', hd', rfl⟩

/-- What is listed is deleted, with the objects that nothing else has. -/
theorem Tidy.wiped (h : Tidy env st) {gone : List File} {ids : List Str} (hsub : Subtree st gone)
    (hgone : ∀ r, r ∈ gone ↔ Listed st ids r) : Tidy env (wipe env gone st) := by
  have hobject : ∀ g ∈ gone, g.location ≠ [] → ∀ x ∈ st.files, Uploaded env x →
      x.object = g.object → x ∈ gone := by
    intro g hg hloc x hx hux hobject
    have hparent : x.parentId = g.parentId := (Prod.mk.inj hobject).1
    have hlocation : x.location = g.location := (Prod.mk.inj hobject).2
    obtain ⟨id, hid, file, hget, hsource, hwithin⟩ := (hgone g).mp hg
    have hself : file ∈ gone := (hgone file).mpr ⟨id, hid, file, hget, hsource, .inl rfl⟩
    rcases hwithin with rfl | hbelow
    · have hsource' : g.sourceType = [] := (h.sources g (hsub.mem g hg)).resolve_right hsource
      have hug : Uploaded env g :=
        ⟨hsource', hlocation ▸ hux.2.1, hlocation ▸ hux.2.2.1, hobject ▸ hux.2.2.2⟩
      rw [h.own g (hsub.mem g hg) x hx hug hux hobject]
      exact hg
    · rcases hbelow.cases_tail with hp | ⟨m, hm, -, hbelow⟩
      · exact hsub.down file hself x hx (hparent.trans hp)
      · refine hsub.down m (hsub.within_mem hself (.inr hbelow)) x hx (hparent.trans hm.symm)
  have hnone : ∀ id, st.files.get? id = none → (wipe env gone st).files.get? id = none := by
    intro id hid
    refine Option.eq_none_iff_forall_ne_some.mpr (fun r hr => ?_)
    have hget := (hsub.get?_wipe.mp hr).1
    rw [hid] at hget
    cases hget
  refine ⟨?_, ?_, ?_, ?_, ?_, ?_, ?_⟩
  · obtain ⟨rank, hforest⟩ := h.forest
    exact ⟨rank, hsub.forest hforest⟩
  · exact fun a ha b hb => h.names a (hsub.mem_wipe.mp ha).1 b (hsub.mem_wipe.mp hb).1
  · intro a ha hua
    obtain ⟨hmem, hkeep⟩ := hsub.mem_wipe.mp ha
    refine List.mem_filter.mpr ⟨h.stored a hmem hua, ?_⟩
    rw [Bool.and_eq_true, Bool.not_eq_true', Bool.not_eq_true', List.any_eq_false,
      List.any_eq_false]
    constructor
    · intro g hg hall
      rw [Bool.and_eq_true, Bool.and_eq_true, decide_eq_true_eq, decide_eq_true_eq,
        decide_eq_true_eq] at hall
      exact hkeep (hobject g hg hall.1.2 a hmem hua hall.2.symm)
    -- What a document owns is with its knowledge base.
    · intro d hd howns
      obtain ⟨-, howns⟩ := Bool.and_eq_true_iff.mp howns
      have hbucket : a.parentId = d.kbId :=
        of_decide_eq_true (Bool.and_eq_true_iff.mp howns).1
      obtain ⟨rank, hforest⟩ := h.forest
      obtain ⟨p, hp, hid, -⟩ := hforest.closed a hmem
      exact Table.get?_eq_none.mp (h.apart d hd).1 p hp (hid.trans hbucket)
  · exact fun a ha b hb => h.own a (hsub.mem_wipe.mp ha).1 b (hsub.mem_wipe.mp hb).1
  · exact fun a ha => h.sources a (hsub.mem_wipe.mp ha).1
  · exact fun k hk => hnone _ (h.unused k hk)
  · intro d hd
    obtain ⟨hrow, hnew⟩ := h.apart d (Table.mem_deleteWhere.mp hd).1
    exact ⟨hnone _ hrow, hnew⟩

/-! ### More calls do not change the result -/

theorem foldlM_of_imp {α β : Type} {f g : β → α → Option β} (l : List α)
    (h : ∀ s a s', f s a = some s' → g s a = some s') :
    ∀ s s', l.foldlM f s = some s' → l.foldlM g s = some s' := by
  induction l with
  | nil => exact fun s s' hs => hs
  | cons a l ih =>
      intro s s' hs
      rw [List.foldlM_cons, Option.bind_eq_bind, Option.bind_eq_some_iff] at hs ⊢
      obtain ⟨s₁, hfirst, hrest⟩ := hs
      exact ⟨s₁, h s a s₁ hfirst, ih s₁ s' hrest⟩

theorem deleteFolderRecursive_succ (env : Env) (fuel : ℕ) : ∀ folder st st',
    deleteFolderRecursive env fuel folder st = some st' →
      deleteFolderRecursive env (fuel + 1) folder st = some st' := by
  induction fuel with
  | zero => exact fun _ _ _ h => (nomatch h)
  | succ fuel ih =>
      intro folder st st' h
      rw [deleteFolderRecursive, Option.bind_eq_bind, Option.bind_eq_some_iff] at h ⊢
      obtain ⟨st₁, hloop, hend⟩ := h
      refine ⟨st₁, foldlM_of_imp _ (fun st sub st' hsub => ?_) st st₁ hloop, hend⟩
      split at hsub
      case isTrue htype =>
        rw [if_pos htype]
        exact ih sub st st' hsub
      case isFalse htype =>
        rw [if_neg htype]
        exact hsub

theorem rmSync_succ (env : Env) (fuel : ℕ) (user : Str) (ids : List Str) : ∀ st out,
    rmSync env fuel user ids st = some out → rmSync env (fuel + 1) user ids st = some out := by
  induction ids with
  | nil => exact fun _ _ h => h
  | cons id ids ih =>
      intro st out h
      rw [rmSync] at h ⊢
      cases hget : st.files.get? id with
      | none =>
          rw [hget] at h
          exact h
      | some file =>
          rw [hget] at h
          dsimp only at h ⊢
          cases hrefusal : refusal env user st file with
          | some reply =>
              rw [hrefusal] at h
              exact h
          | none =>
              rw [hrefusal] at h
              dsimp only at h ⊢
              split at h
              case isTrue hsource =>
                rw [if_pos hsource]
                exact ih st out h
              case isFalse hsource =>
                rw [if_neg hsource]
                split at h
                case isTrue htype =>
                  rw [if_pos htype]
                  rw [Option.bind_eq_bind, Option.bind_eq_some_iff] at h ⊢
                  obtain ⟨st₁, hdelete, hrest⟩ := h
                  exact ⟨st₁, deleteFolderRecursive_succ env fuel file st st₁ hdelete,
                    ih st₁ out hrest⟩
                case isFalse htype =>
                  rw [if_neg htype]
                  exact ih _ out h

theorem rmSync_mono {fuel m : ℕ} (hm : fuel ≤ m) {ids : List Str} {out : Reply × State}
    (h : rmSync env fuel user ids st = some out) : rmSync env m user ids st = some out := by
  induction hm with
  | refl => exact h
  | step _ ih => exact rmSync_succ env _ user ids st out ih

theorem rm_tidy (h : Tidy env st) {fuel : ℕ} {ids : List Str} {reply : Reply}
    (hrun : rmSync env fuel user ids st = some (reply, st')) : Tidy env st' := by
  obtain ⟨rank, hforest⟩ := h.forest
  obtain ⟨bound, hbound⟩ := exists_bound rank st.files
  obtain ⟨reply', done, rest, gone, hlong, -, hsub, hgone, -⟩ :=
    @rmSync_removes env rank st hforest (max fuel (bound + 1))
      (fun x hx => Nat.lt_of_le_of_lt (hbound x hx) (by omega)) user ids
  rw [rmSync_mono (Nat.le_max_left _ _) hrun] at hlong
  cases hlong
  exact h.wiped hsub hgone

/-! ### Runs -/

/-- The folder that a request names is one, and no path leads through a file. -/
def Admissible (env : Env) (user : Str) (st : State) : Request → Prop
  | .upload pfId fileObjs =>
      (pfId ≠ [] → ∀ f, st.files.get? pfId = some f → f.type = .folder) ∧
        ∀ id st₁, parentFolder env user pfId st = .ok (id, st₁) →
          ClearFiles env user id fileObjs st₁
  | .create pfId _ _ => pfId ≠ [] → ∀ f, st.files.get? pfId = some f → f.type = .folder
  | .rename _ _ => True
  | .rm _ => True

/-- Requests of any users, one after the other. -/
inductive Run (env : Env) (st : State) : State → Prop
  | refl : Run env st st
  | step {st' st'' : State} {fuel : ℕ} {user : Str} {req : Request} {reply : Reply}
      (h : Run env st st') (hadmissible : Admissible env user st' req)
      (hrun : handle env fuel user req st' = some (reply, st'')) : Run env st st''

theorem handle_tidy (huuid : Function.Injective env.uuid) (h : Tidy env st) {fuel : ℕ}
    {req : Request} {reply : Reply} (hadmissible : Admissible env user st req)
    (hrun : handle env fuel user req st = some (reply, st')) : Tidy env st' := by
  cases req with
  | upload pfId fileObjs =>
      have hend : upload env user pfId fileObjs st = (reply, st') := Option.some.inj hrun
      have htidy := upload_tidy huuid h hadmissible.1 hadmissible.2
      rw [hend] at htidy
      exact htidy
  | create pfId name folder =>
      have hend : create env user pfId name folder st = (reply, st') := Option.some.inj hrun
      have htidy := @create_tidy env st user huuid h pfId name folder hadmissible
      rw [hend] at htidy
      exact htidy
  | rename fileId name =>
      have hend : rename env user fileId name st = (reply, st') := Option.some.inj hrun
      have htidy := @rename_tidy env st user h fileId name
      rw [hend] at htidy
      exact htidy
  | rm fileIds => exact rm_tidy h hrun

end tidy

/-! ### The folder with a file -/

instance (env : Env) (r : File) : Decidable (Uploaded env r) :=
  inferInstanceAs (Decidable (_ ∧ _ ∧ _ ∧ _))

theorem sampleEnv_injective : Function.Injective sampleEnv.uuid := by
  intro n m heq
  have hlength := congrArg List.length heq
  simp only [sampleEnv, List.length_replicate] at hlength
  omega

theorem tidy_sample : Tidy sampleEnv sample where
  forest := ⟨sampleRank, forest_sample⟩
  names := by
    show ∀ r ∈ sample.files.rows, ∀ x ∈ sample.files.rows, _
    decide
  stored := by
    show ∀ r ∈ sample.files.rows, _
    decide
  own := by
    show ∀ r ∈ sample.files.rows, ∀ x ∈ sample.files.rows, _
    decide
  sources := by
    show ∀ r ∈ sample.files.rows, _
    decide
  unused := by
    intro k _
    refine Table.get?_eq_none.mpr (fun r hr => ?_)
    have hfirst : ∀ r ∈ sample.files.rows, r.id.head? ≠ some 'u' := by decide
    intro heq
    refine hfirst r hr ?_
    rw [show r.id = sampleEnv.uuid k from heq]
    rfl
  apart := by
    have hall : ∀ d ∈ sample.documents.rows, d.kbId = ['k'] := by decide
    intro d hd
    rw [hall d hd]
    exact ⟨rfl, fun k _ heq => absurd (congrArg List.head? heq) (by
      simp [sampleEnv, List.replicate_succ])⟩

end RagFlow.FileTree
