import RagFlow.DuplicateName
import RagFlow.FileMove
import RagFlow.RowTree

/-! # Files and folders

The requests `upload`, `create`, `rename` and `rm` of `api/apps/file_app.py`, with the rows of all
users, the storage, and the documents that are linked with files.

* **Deletion.** `wipe` is what the deletion of some entries comes to.  `rm` goes down into the
  folders; it deletes what is listed and what is below, and nothing else (`rmSync_wipe`).
* **Size.** `get_folder_size` sums over what is below a folder (`getFolderSize_eq_total`).
* **Above.** `get_all_parent_folders` lists what is above an entry (`getAllParentFolders_spec`). -/

namespace RagFlow.FileTree

open Py FileNames RowTree

/-! ### Rows and the storage -/

structure File extends FileMove.FileRow where
  sourceType : Str
deriving DecidableEq

/-- The values that are not given by the program fit their columns. -/
def File.fits (file : File) : Bool :=
  file.name.length ≤ 255 && file.location.length ≤ 1024 && file.size < integerBound

/-- A document, with the ids of its chunks that the searches of the document store find. -/
structure Document where
  id : Str
  kbId : Str
  name : Str
  thumbnail : Str
  chunkIds : List Str
deriving DecidableEq

/-- `IMG_BASE64_PREFIX`. -/
def imgBase64Prefix : Str := "data:image/png;base64,".toList

/-- The object is the image of a chunk or the thumbnail. -/
def Document.owns (doc : Document) (object : Str × Str) : Bool :=
  object.1 = doc.kbId && (doc.chunkIds.contains object.2 ||
    object.2 = doc.thumbnail && doc.thumbnail ≠ [] && !imgBase64Prefix.isPrefixOf doc.thumbnail)

/-- The rows, the objects in the storage by bucket and name, the rows of `File2Document` by file and
document, the documents, and how many ids have been given. -/
@[ext] structure State where
  files : Table File (·.id)
  objects : List (Str × Str)
  links : List (Str × Str)
  documents : Table Document (·.id)
  next : ℕ

/-- The ids that `get_uuid` gives, the tables of the interpreter, how the database compares names,
whether the storage takes an object, whether `get_tenant_id` finds the tenant of a document,
`check_file_team_permission`, and whether a user has too many documents. -/
structure Env where
  uuid : ℕ → Str
  digits : DigitTable
  case : CaseTable
  collation : Collation
  accepts : Str × Str → Bool
  hasTenant : Str → Bool
  permitted : State → File → Str → Bool
  exceeded : State → Str → Bool

abbrev File.parent (file : File) : Str := file.parentId

abbrev File.object (file : File) : Str × Str := (file.parentId, file.location)

/-- `FileSource.KNOWLEDGEBASE`. -/
def knowledgebase : Str := "knowledgebase".toList

inductive Reply
  | dataError (message : String)
  | argumentError (message : String)
  | authenticationError (message : String)
  | serverError
  | created (file : File)
  | uploaded (files : List File)
  | done

/-! ### `FileService` -/

/-- The rows with this parent and name. -/
def query (env : Env) (st : State) (parentId name : Str) : List File :=
  st.files.select (fun r => r.parentId = parentId && env.collation.same r.name name)

/-- `get_by_pf_id_name`. -/
def getByPfIdName (env : Env) (st : State) (id name : Str) : Option File :=
  (query env st id name).head?

/-- `get_id_list_by_id`; the names are those from `count` on. -/
def getIdListById (env : Env) (st : State) (id : Str) : List Str → List Str → List Str
  | [], res => res
  | name :: names, res =>
      match getByPfIdName env st id name with
      | some file => getIdListById env st file.id names (res ++ [file.id])
      | none => res

/-- `FileService.insert`, which leaves the state as it is if it raises. -/
def insert (file : File) (st : State) : Except State State :=
  if file.fits then
    match st.files.insert? file with
    | some files => .ok { st with files, next := st.next + 1 }
    | none => .error st
  else .error st

def folderRow (env : Env) (user parentId name : Str) (n : ℕ) : File where
  id := env.uuid n
  parentId := parentId
  tenantId := user
  createdBy := user
  name := name
  location := []
  size := 0
  type := .folder
  sourceType := []

/-- `create_folder`; the names are those from `count` on, and the last is that of the file.  If
there are others the function asks for `current_user`, which raises in a thread of the pool. -/
def createFolder (file : File) : List Str → State → Except State (File × State)
  | _ :: _ :: _, st => .error st
  | _, st => .ok (file, st)

/-- `get_root_folder`. -/
def getRootFolder (env : Env) (user : Str) (st : State) : Except State (File × State) :=
  match st.files.select (fun r => r.tenantId = user && r.parentId = r.id) with
  | file :: _ => .ok (file, st)
  | [] => do
      let file := folderRow env user (env.uuid st.next) ['/'] st.next
      let st ← insert file st
      return (file, st)

/-- `list_all_files_by_parent_id`. -/
def listAllFilesByParentId (id : Str) (st : State) : List File := children File.parent st.files id

/-- The function `dfs` of `get_folder_size`, for the size so far, with at most `fuel` calls within
each other; `none` if that is not enough. -/
def dfs (st : State) : ℕ → Str → ℕ → Option ℕ
  | 0, _, _ => none
  | fuel + 1, parentId, size =>
      (children File.parent st.files parentId).foldlM
        (fun size f =>
          if f.type = .folder then dfs st fuel f.id (size + f.size) else some (size + f.size))
        size

/-- `get_folder_size`. -/
def getFolderSize (st : State) (fuel : ℕ) (folderId : Str) : Option ℕ := dfs st fuel folderId 0

/-- `get_all_parent_folders`; an entry is `none` if the row is not there. -/
def getAllParentFolders (st : State) : ℕ → Str → Option (List (Option File))
  | 0, _ => none
  | fuel + 1, id =>
      if id = [] then some []
      else
        match st.files.get? id with
        | some file =>
            if file.parentId ≠ file.id then
              (getAllParentFolders st fuel file.parentId).map (some file :: ·)
            else some [some file]
        | none => some [none]

/-! ### The request `upload` -/

/-- The folder of a request: the one that is named, or that of the user. -/
def parentFolder (env : Env) (user pfId : Str) (st : State) : Except State (Str × State) :=
  if pfId = [] then do
    let (root, st) ← getRootFolder env user st
    return (root.id, st)
  else .ok (pfId, st)

def fileRow (env : Env) (user parentId name location : Str) (size : ℕ) (type : FileType) (n : ℕ) :
    File where
  id := env.uuid n
  parentId := parentId
  tenantId := user
  createdBy := user
  name := name
  location := location
  size := size
  type := type
  sourceType := []

/-- `STORAGE_IMPL.put`, which does not raise if the storage does not take the object. -/
def putObject (env : Env) (object : Str × Str) (st : State) : State :=
  if env.accepts object then { st with objects := st.objects ++ [object] } else st

/-- The end of `_handle_single_file`, when the folder is known. -/
def putFile (env : Env) (user : Str) (lastFolder : File) (name : Str) (size : ℕ) (st : State) :
    Except State (File × State) :=
  match FileMove.freeLocation st.objects lastFolder.id (st.objects.length + 1) name with
  | none => .error st
  | some location =>
      match env.digits.duplicateName (fun n => !(query env st lastFolder.id n).isEmpty)
          (some name) with
      | .error _ => .error st
      | .ok filename => do
          let st := putObject env (lastFolder.id, location) st
          let file := fileRow env user lastFolder.id filename location size
            (filenameType env.case name) st.next
          let st ← insert file st
          return (file, st)

/-- `full_path.split("/")`. -/
def fileObjNames (filename : Str) : List Str := ('/' :: filename).splitOn '/'

/-- `_handle_single_file`, for a file with a name and a size. -/
def handleSingleFile (env : Env) (user pfId : Str) (fileObj : Str × ℕ) (st : State) :
    Except State (Except String File × State) :=
  if env.exceeded st user then
    .ok (.error "Exceed the maximum file number of a free user!", st)
  else
    let names := fileObjNames fileObj.1
    let idList := getIdListById env st pfId (names.drop 1) [pfId]
    let folderId :=
      if names.length ≠ idList.length then idList.getD (idList.length - 1) []
      else idList.getD (idList.length - 2) []
    match st.files.get? folderId with
    | none => .ok (.error "Folder not found!", st)
    | some file => do
        let (lastFolder, st) ← createFolder file (names.drop idList.length) st
        let (file, st) ← putFile env user lastFolder (names.getLastD []) fileObj.2 st
        return (.ok file, st)

def handleFiles (env : Env) (user pfId : Str) : List (Str × ℕ) → State →
    Except State (List (Except String File) × State)
  | [], st => .ok ([], st)
  | fileObj :: fileObjs, st => do
      let (res, st) ← handleSingleFile env user pfId fileObj st
      let (results, st) ← handleFiles env user pfId fileObjs st
      return (res :: results, st)

/-- The reply to `upload`.  The result for a file that is refused is a response, which cannot be
written as JSON. -/
def uploadReply (results : List (Except String File)) : Reply :=
  match results.mapM Except.toOption with
  | some files => .uploaded files
  | none => .serverError

/-- The reply to a request that raises is a server error. -/
def answer {α : Type} (reply : α → Reply) : Except State (α × State) → Reply × State
  | .ok (a, st) => (reply a, st)
  | .error st => (.serverError, st)

def upload (env : Env) (user pfId : Str) (fileObjs : List (Str × ℕ)) (st : State) :
    Reply × State :=
  match parentFolder env user pfId st with
  | .error st => (.serverError, st)
  | .ok (pfId, st) =>
      if fileObjs = [] then (.argumentError "No file part!", st)
      else if fileObjs.any (·.1 = []) then (.argumentError "No file selected!", st)
      else
        match st.files.get? pfId with
        | none => (.dataError "Can't find this folder!", st)
        | some _ => answer uploadReply (handleFiles env user pfId fileObjs st)

/-! ### The requests `create` and `rename` -/

/-- If there is no such parent, `is_parent_folder_exist` calls `delete_folder_by_pf_id` with an
argument too few, which raises. -/
def create (env : Env) (user pfId name : Str) (folder : Bool) (st : State) : Reply × State :=
  match parentFolder env user pfId st with
  | .error st => (.serverError, st)
  | .ok (pfId, st) =>
      match st.files.get? pfId with
      | none => (.serverError, st)
      | some _ =>
          if query env st pfId name ≠ [] then
            (.dataError "Duplicated folder name in the same folder.", st)
          else
            let type := if folder then FileType.folder else .virtual
            let file := fileRow env user pfId name [] 0 type st.next
            answer .created ((insert file st).map (fun st => (file, st)))

/-- `pathlib.Path(name.lower()).suffix`. -/
def suffix (env : Env) (name : Str) : Str := pathSuffix (pathName (env.case.lower name))

def setName (name : Str) (file : File) : File := { file with name := name }

/-- The query for the name is one for `pf_id` too, but the rows have no such field.  Of what it
finds, only a row with the same letters counts. -/
def rename (env : Env) (user fileId name : Str) (st : State) : Reply × State :=
  match st.files.get? fileId with
  | none => (.dataError "File not found!", st)
  | some file =>
      if !env.permitted st file user then (.authenticationError "No authorization.", st)
      else if file.type ≠ .folder ∧ suffix env name ≠ suffix env file.name then
        (.argumentError "The extension of file can't be changed", st)
      else if (st.files.select (fun r => env.collation.same r.name name)).any (·.name = name) then
        (.dataError "Duplicated file name in the same folder.", st)
      else if name.length > 255 then (.serverError, st)
      else
        let st := { st with
          files := st.files.updateWhere (·.id = fileId) (setName name) (fun _ => rfl) }
        match st.links.find? (·.1 = fileId) with
        | none => (.done, st)
        | some inform =>
            match st.documents.get? inform.2 with
            | none => (.dataError "Database error (Document rename)!", st)
            | some _ => (.done, { st with
                documents := st.documents.updateWhere (·.id = inform.2)
                  (fun doc => { doc with name := name }) (fun _ => rfl) })

/-! ### The request `rm` -/

def deleteRow (id : Str) (st : State) : State :=
  { st with files := st.files.deleteWhere (·.id = id) }

/-- `remove_document`, if there is the document and it has a tenant. -/
def removeDocument (env : Env) (docId : Str) (st : State) : State :=
  match st.documents.get? docId with
  | none => st
  | some doc =>
      if env.hasTenant docId then
        { st with
          documents := st.documents.deleteWhere (·.id = doc.id)
          objects := st.objects.filter (fun o => !doc.owns o) }
      else st

/-- `File2DocumentService.delete_by_file_id`. -/
def unlink (fileId : Str) (st : State) : State :=
  { st with links := st.links.filter (·.1 ≠ fileId) }

/-- `_delete_single_file`. -/
def deleteSingleFile (env : Env) (file : File) (st : State) : State :=
  let st :=
    if file.location ≠ [] then { st with objects := st.objects.filter (· ≠ file.object) } else st
  let informs := st.links.filter (·.1 = file.id)
  let st := informs.foldl (fun st inform => unlink file.id (removeDocument env inform.2 st)) st
  deleteRow file.id st

/-- `_delete_folder_recursive`, with at most `fuel` calls within each other; `none` if that is not
enough. -/
def deleteFolderRecursive (env : Env) : ℕ → File → State → Option State
  | 0, _, _ => none
  | fuel + 1, folder, st => do
      let st ← (listAllFilesByParentId folder.id st).foldlM
        (fun st sub =>
          if sub.type = .folder then deleteFolderRecursive env fuel sub st
          else some (deleteSingleFile env sub st))
        st
      return deleteRow folder.id st

/-- Why a row may not be deleted. -/
def refusal (env : Env) (user : Str) (st : State) (file : File) : Option Reply :=
  if file.tenantId = [] then some (.dataError "Tenant not found!")
  else if !env.permitted st file user then some (.authenticationError "No authorization.")
  else none

/-- `_rm_sync`. -/
def rmSync (env : Env) (fuel : ℕ) (user : Str) : List Str → State → Option (Reply × State)
  | [], st => some (.done, st)
  | id :: fileIds, st =>
      match st.files.get? id with
      | none => some (.dataError "File or Folder not found!", st)
      | some file =>
          match refusal env user st file with
          | some reply => some (reply, st)
          | none =>
              if file.sourceType = knowledgebase then rmSync env fuel user fileIds st
              else if file.type = .folder then do
                let st ← deleteFolderRecursive env fuel file st
                rmSync env fuel user fileIds st
              else rmSync env fuel user fileIds (deleteSingleFile env file st)

/-! ### The requests -/

inductive Request
  | upload (pfId : Str) (fileObjs : List (Str × ℕ))
  | create (pfId name : Str) (folder : Bool)
  | rename (fileId name : Str)
  | rm (fileIds : List Str)

def handle (env : Env) (fuel : ℕ) (user : Str) : Request → State → Option (Reply × State)
  | .upload pfId fileObjs, st => some (upload env user pfId fileObjs st)
  | .create pfId name folder, st => some (create env user pfId name folder st)
  | .rename fileId name, st => some (rename env user fileId name st)
  | .rm fileIds, st => rmSync env fuel user fileIds st

/-! ### What is deleted -/

/-- The document is linked with a file among the rows, and has a tenant. -/
def dropped (env : Env) (gone : List File) (st : State) (doc : Document) : Bool :=
  env.hasTenant doc.id && gone.any (fun g => g.type ≠ .folder && st.links.contains (g.id, doc.id))

/-- The rows are deleted, with the objects and the links of the files among them, the documents that
are linked with these, and what the documents own in the storage. -/
def wipe (env : Env) (gone : List File) (st : State) : State where
  files := st.files.deleteWhere (fun r => gone.any (fun g => g.id = r.id))
  objects := st.objects.filter (fun o =>
    !gone.any (fun g => g.type ≠ .folder && g.location ≠ [] && g.object = o) &&
      !st.documents.rows.any (fun d => dropped env gone st d && d.owns o))
  links := st.links.filter (fun l => !gone.any (fun g => g.type ≠ .folder && g.id = l.1))
  documents := st.documents.deleteWhere (dropped env gone st)
  next := st.next

section wipe
variable {env : Env} {st : State} {gone gone' : List File} {r : File}

theorem filter_eq_self_of_false {α : Type} {l : List α} {p : α → Bool} (h : ∀ x ∈ l, p x = false) :
    l.filter (fun x => !p x) = l :=
  List.filter_eq_self.mpr (fun x hx => by rw [h x hx]; rfl)

theorem dropped_eq_false (h : ∀ g ∈ gone, g.type = .folder) (d : Document) :
    dropped env gone st d = false := by
  unfold dropped
  rw [Bool.and_eq_false_iff]
  right
  simp only [List.any_eq_false, Bool.and_eq_true, decide_eq_true_eq, not_and]
  exact fun g hg htype => absurd (h g hg) htype

/-- Folders have no objects, links or documents. -/
theorem wipe_of_folders (h : ∀ g ∈ gone, g.type = .folder) : wipe env gone st =
    { st with files := st.files.deleteWhere (fun r => gone.any (fun g => g.id = r.id)) } := by
  have hfile : ∀ (p : File → Bool), gone.any (fun g => g.type ≠ .folder && p g) = false := by
    intro p
    simp only [List.any_eq_false, Bool.and_eq_true, decide_eq_true_eq, not_and]
    exact fun g hg htype => absurd (h g hg) htype
  unfold wipe
  ext1
  · rfl
  · refine List.filter_eq_self.mpr (fun o _ => ?_)
    simp only [Bool.and_assoc, hfile, dropped_eq_false h, Bool.false_and]
    simp
  · exact filter_eq_self_of_false (fun l _ => hfile _)
  · exact Table.ext (filter_eq_self_of_false (fun d _ => dropped_eq_false h d))
  · rfl

theorem wipe_nil (env : Env) (st : State) : wipe env [] st = st := by
  rw [wipe_of_folders (by simp)]
  ext1
  · exact Table.ext (filter_eq_self_of_false (fun _ _ => rfl))
  all_goals rfl

/-- The order of the rows does not matter. -/
theorem wipe_congr (h : ∀ r, r ∈ gone ↔ r ∈ gone') : wipe env gone st = wipe env gone' st := by
  have hany : ∀ p : File → Bool, gone.any p = gone'.any p := by
    intro p
    refine Bool.eq_iff_iff.mpr ?_
    simp only [List.any_eq_true, h]
  unfold wipe dropped
  simp only [hany]

theorem filter_filter_any {α : Type} (l : List α) (gone gone' : List File) (p : File → α → Bool) :
    (l.filter (fun x => !gone.any (p · x))).filter (fun x => !gone'.any (p · x)) =
      l.filter (fun x => !(gone ++ gone').any (p · x)) := by
  rw [List.filter_filter]
  refine List.filter_congr (fun x _ => ?_)
  rw [List.any_append, Bool.not_or, Bool.and_comm]

theorem mem_links_wipe {l : Str × Str} : l ∈ (wipe env gone st).links ↔
    l ∈ st.links ∧ ∀ g ∈ gone, g.type ≠ .folder → g.id ≠ l.1 := by
  unfold wipe
  simp only [List.mem_filter, Bool.not_eq_true', List.any_eq_false, Bool.and_eq_true,
    decide_eq_true_eq, not_and]

/-- A document that is linked with a file of both parts is deleted with the first. -/
theorem dropped_append (env : Env) (gone gone' : List File) (st : State) (d : Document) :
    dropped env (gone ++ gone') st d =
      (dropped env gone st d || dropped env gone' (wipe env gone st) d) := by
  refine Bool.eq_iff_iff.mpr ?_
  simp only [dropped, List.any_append, Bool.and_eq_true, Bool.or_eq_true, List.any_eq_true,
    decide_eq_true_eq, List.contains_iff_mem, mem_links_wipe]
  constructor
  · rintro ⟨htenant, ⟨g, hg, htype, hlink⟩ | ⟨g, hg, htype, hlink⟩⟩
    · exact .inl ⟨htenant, g, hg, htype, hlink⟩
    · by_cases hfirst : ∀ g' ∈ gone, g'.type ≠ .folder → g'.id ≠ g.id
      · exact .inr ⟨htenant, g, hg, htype, hlink, hfirst⟩
      · push Not at hfirst
        obtain ⟨g', hg', htype', heq⟩ := hfirst
        exact .inl ⟨htenant, g', hg', htype', heq ▸ hlink⟩
  · rintro (⟨htenant, g, hg, htype, hlink⟩ | ⟨htenant, g, hg, htype, hlink, -⟩)
    · exact ⟨htenant, .inl ⟨g, hg, htype, hlink⟩⟩
    · exact ⟨htenant, .inr ⟨g, hg, htype, hlink⟩⟩

/-- What is owned is deleted in two parts. -/
theorem any_owned (p q : Document → Bool) (documents : List Document) (o : Str × Str) :
    documents.any (fun d => (p d || q d) && d.owns o) =
      (documents.any (fun d => p d && d.owns o) ||
        (documents.filter (fun d => !p d)).any (fun d => q d && d.owns o)) := by
  induction documents with
  | nil => rfl
  | cons d documents ih =>
      rw [List.any_cons, ih, List.any_cons, List.filter_cons]
      cases hp : p d
      · cases hq : q d <;> simp [hq, Bool.or_left_comm]
      · simp [Bool.or_assoc]

theorem wipe_append (env : Env) (gone gone' : List File) (st : State) :
    wipe env (gone ++ gone') st = wipe env gone' (wipe env gone st) := by
  ext1
  · exact Table.ext (filter_filter_any st.files.rows gone gone' (fun g r => g.id = r.id)).symm
  · show st.objects.filter _ = (st.objects.filter _).filter _
    rw [List.filter_filter]
    refine List.filter_congr (fun o _ => ?_)
    simp only [dropped_append, any_owned, List.any_append, Bool.not_or]
    have hcomm : ∀ a b c d : Bool, (a && b && (c && d)) = (b && d && (a && c)) := by decide
    exact hcomm _ _ _ _
  · exact (filter_filter_any _ _ _ _).symm
  · refine Table.ext ?_
    show st.documents.rows.filter _ = (st.documents.rows.filter _).filter _
    rw [List.filter_filter]
    refine List.filter_congr (fun d _ => ?_)
    rw [dropped_append, Bool.not_or, Bool.and_comm]
  · rfl

theorem deleteRow_eq_wipe (env : Env) (st : State) (hr : r.type = .folder) :
    deleteRow r.id st = wipe env [r] st := by
  rw [wipe_of_folders (by simpa using hr)]
  ext1
  · refine Table.ext (List.filter_congr (fun x _ => ?_))
    simp [eq_comm]
  all_goals rfl

/-! ### The documents of a file -/

/-- Documents are removed, with what they own. -/
def removeDocuments (p : Document → Bool) (st : State) : State :=
  { st with
    documents := st.documents.deleteWhere p
    objects := st.objects.filter (fun o => !st.documents.rows.any (fun d => p d && d.owns o)) }

theorem removeDocuments_of_false {p : Document → Bool} (h : ∀ d ∈ st.documents, p d = false) :
    removeDocuments p st = st := by
  ext1
  · rfl
  · refine filter_eq_self_of_false (fun o _ => ?_)
    simp only [List.any_eq_false, Bool.and_eq_true, not_and]
    intro d hd hp
    rw [h d hd] at hp
    cases hp
  · rfl
  · exact Table.ext (filter_eq_self_of_false h)
  · rfl

theorem removeDocuments_congr {p q : Document → Bool} (h : ∀ d ∈ st.documents, p d = q d) :
    removeDocuments p st = removeDocuments q st := by
  ext1
  · rfl
  · refine List.filter_congr (fun o _ => ?_)
    congr 1
    refine Bool.eq_iff_iff.mpr ?_
    simp only [List.any_eq_true, Bool.and_eq_true]
    exact exists_congr (fun d => and_congr_right (fun hd => by rw [h d hd]))
  · rfl
  · exact Table.ext (List.filter_congr (fun d hd => by rw [h d hd]))
  · rfl

theorem removeDocuments_removeDocuments (p q : Document → Bool) (st : State) :
    removeDocuments q (removeDocuments p st) = removeDocuments (fun d => p d || q d) st := by
  ext1
  · rfl
  · show (st.objects.filter _).filter _ = st.objects.filter _
    rw [List.filter_filter]
    refine List.filter_congr (fun o _ => ?_)
    rw [any_owned, Bool.not_or, Bool.and_comm]
    rfl
  · rfl
  · refine Table.ext ?_
    show (st.documents.rows.filter _).filter _ = st.documents.rows.filter _
    rw [List.filter_filter]
    refine List.filter_congr (fun d _ => ?_)
    rw [Bool.not_or, Bool.and_comm]
  · rfl

theorem removeDocument_eq (env : Env) (docId : Str) (st : State) : removeDocument env docId st =
    removeDocuments (fun d => env.hasTenant d.id && docId = d.id) st := by
  unfold removeDocument
  split
  case h_1 hnone =>
    refine (removeDocuments_of_false (fun d hd => ?_)).symm
    rw [decide_eq_false (fun heq => Table.get?_eq_none.mp hnone d hd heq.symm), Bool.and_false]
  case h_2 doc hsome =>
    obtain ⟨hdoc, hid⟩ := Table.get?_eq_some.mp hsome
    split
    case isTrue htenant =>
      -- The document is the only one with the id.
      have honly : ∀ d ∈ st.documents, (env.hasTenant d.id && docId = d.id) = true ↔ d = doc := by
        intro d hd
        rw [Bool.and_eq_true, decide_eq_true_eq]
        refine ⟨fun h => st.documents.eq_of_key_eq hd hdoc (h.2.symm.trans hid.symm), ?_⟩
        rintro rfl
        exact ⟨hid ▸ htenant, hid.symm⟩
      ext1
      · rfl
      · refine List.filter_congr (fun o _ => ?_)
        congr 1
        refine Bool.eq_iff_iff.mpr ?_
        rw [List.any_eq_true]
        constructor
        · exact fun howns => ⟨doc, hdoc, Bool.and_eq_true_iff.mpr ⟨(honly doc hdoc).mpr rfl, howns⟩⟩
        · rintro ⟨d, hd, howns⟩
          obtain ⟨hthis, howns⟩ := Bool.and_eq_true_iff.mp howns
          exact (honly d hd).mp hthis ▸ howns
      · rfl
      · refine Table.ext (List.filter_congr (fun d hd => ?_))
        congr 1
        refine Bool.eq_iff_iff.mpr (Iff.trans ?_ (honly d hd).symm)
        rw [decide_eq_true_eq]
        exact ⟨fun heq => st.documents.eq_of_key_eq hd hdoc heq, fun heq => heq ▸ rfl⟩
      · rfl
    case isFalse htenant =>
      refine (removeDocuments_of_false (fun d _ => ?_)).symm
      rw [Bool.and_eq_false_iff, decide_eq_false_iff_not]
      by_cases heq : docId = d.id
      · exact .inl (heq ▸ Bool.eq_false_iff.mpr htenant)
      · exact .inr heq

/-- The loop over the documents of a file. -/
theorem foldl_informs (env : Env) (fileId : Str) (informs : List (Str × Str)) (st : State) :
    informs.foldl (fun st inform => unlink fileId (removeDocument env inform.2 st)) st =
      { removeDocuments (fun d => env.hasTenant d.id && informs.any (·.2 = d.id)) st with
        links := if informs = [] then st.links else st.links.filter (·.1 ≠ fileId) } := by
  induction informs generalizing st with
  | nil =>
      have hnone : removeDocuments (fun d => env.hasTenant d.id &&
          ([] : List (Str × Str)).any (·.2 = d.id)) st = st :=
        removeDocuments_of_false (fun d _ => Bool.and_false _)
      rw [hnone]
      rfl
  | cons inform informs ih =>
      have hall : removeDocuments (fun d => env.hasTenant d.id && (inform :: informs).any
          (·.2 = d.id)) st = removeDocuments (fun d => env.hasTenant d.id && informs.any
            (·.2 = d.id)) (removeDocument env inform.2 st) := by
        rw [removeDocument_eq, removeDocuments_removeDocuments]
        exact removeDocuments_congr (fun d _ => by rw [List.any_cons, Bool.and_or_distrib_left])
      rw [List.foldl_cons, ih, hall, if_neg (List.cons_ne_nil inform informs), removeDocument_eq]
      have hlinks : ∀ p, (unlink fileId (removeDocuments p st)).links =
          st.links.filter (·.1 ≠ fileId) := fun _ => rfl
      rw [hlinks]
      simp only [List.filter_filter, Bool.and_self, ite_self]
      rfl

/-- The first statement of `_delete_single_file` changes the objects only. -/
theorem removeObject_eq (st : State) (r : File) :
    (if r.location ≠ [] then { st with objects := st.objects.filter (· ≠ r.object) } else st) =
      { st with objects := st.objects.filter (fun o => !(r.location ≠ [] && r.object = o)) } := by
  split
  case isTrue hloc =>
    refine congrArg (fun objects => { st with objects }) (List.filter_congr (fun o _ => ?_))
    simp [hloc, eq_comm]
  case isFalse hloc =>
    have hall : st.objects.filter (fun o => !(r.location ≠ [] && r.object = o)) = st.objects :=
      filter_eq_self_of_false (fun o _ => by simp [not_not.mp hloc])
    rw [hall]

/-- The links of a file are those that are dropped with it. -/
theorem filter_links (links : List (Str × Str)) (hr : r.type ≠ .folder) :
    links.filter (·.1 ≠ r.id) =
      links.filter (fun l => !([r].any (fun g => g.type ≠ .folder && g.id = l.1))) := by
  refine List.filter_congr (fun l _ => ?_)
  by_cases heq : r.id = l.1
  · simp [hr, heq]
  · simp [heq, Ne.symm heq]

theorem dropped_single (env : Env) (st : State) (hr : r.type ≠ .folder) (d : Document) :
    (env.hasTenant d.id && (st.links.filter (·.1 = r.id)).any (·.2 = d.id)) =
      dropped env [r] st d := by
  unfold dropped
  congr 1
  refine Bool.eq_iff_iff.mpr ?_
  simp [hr]

theorem deleteSingleFile_eq_wipe (env : Env) (st : State) (hr : r.type ≠ .folder) :
    deleteSingleFile env r st = wipe env [r] st := by
  unfold deleteSingleFile deleteRow
  dsimp only
  rw [foldl_informs, removeObject_eq]
  ext1
  · refine Table.ext ?_
    show st.files.rows.filter _ = st.files.rows.filter _
    refine List.filter_congr (fun x _ => ?_)
    simp [eq_comm]
  · show (st.objects.filter _).filter _ = st.objects.filter _
    rw [List.filter_filter]
    refine List.filter_congr (fun o _ => ?_)
    simp only [dropped_single env st hr]
    simp [hr, Bool.and_comm]
  · show (if _ then st.links else st.links.filter _) = st.links.filter _
    rw [← filter_links st.links hr]
    split
    case isTrue hnone =>
      refine (List.filter_eq_self.mpr (fun l hl => ?_)).symm
      have hne := List.filter_eq_nil_iff.mp hnone l hl
      simpa using hne
    case isFalse => rfl
  · refine Table.ext ?_
    show st.documents.rows.filter _ = st.documents.rows.filter _
    refine List.filter_congr (fun d _ => ?_)
    dsimp only
    rw [dropped_single env st hr]
  · rfl

end wipe

/-! ### What is below the entries -/

/-- The rows form a forest, and a row with children is a folder. -/
structure Forest (rank : Str → ℕ) (st : State) : Prop where
  ranked : Ranked File.parent rank st.files
  closed : Closed File.parent (·.type = .folder) st.files

/-- `r` is below the entry with the id. -/
abbrev Under (st : State) (id : Str) (r : File) : Prop := Below File.parent st.files id r

/-- Rows that are there, with all that is below them. -/
structure Subtree (st : State) (gone : List File) : Prop where
  mem : ∀ g ∈ gone, g ∈ st.files
  down : ∀ g ∈ gone, ∀ x ∈ st.files, x.parentId = g.id → x ∈ gone

section subtree
variable {env : Env} {rank : Str → ℕ} {st : State} {gone gone' : List File} {r c folder : File}

theorem Forest.not_under (h : Forest rank st) (hr : r ∈ st.files) (htype : r.type ≠ .folder)
    (x : File) : ¬ Under st r.id x := not_below_of_closed h.closed hr htype

namespace Subtree

theorem any_eq (h : Subtree st gone) (hr : r ∈ st.files) :
    gone.any (fun g => g.id = r.id) = decide (r ∈ gone) := by
  refine Bool.eq_iff_iff.mpr ?_
  rw [List.any_eq_true, decide_eq_true_eq]
  constructor
  · rintro ⟨g, hg, heq⟩
    rw [← st.files.eq_of_key_eq (h.mem g hg) hr (of_decide_eq_true heq)]
    exact hg
  · exact fun hgone => ⟨r, hgone, decide_eq_true rfl⟩

theorem mem_wipe (h : Subtree st gone) :
    r ∈ (wipe env gone st).files ↔ r ∈ st.files ∧ r ∉ gone := by
  unfold wipe
  rw [Table.mem_deleteWhere]
  refine and_congr_right (fun hr => ?_)
  rw [h.any_eq hr, decide_eq_false_iff_not]

theorem downward (h : Subtree st gone) :
    Downward File.parent st.files (fun r => gone.any (fun g => g.id = r.id)) := by
  intro p hp x hx hparent hq
  dsimp only at hq ⊢
  rw [h.any_eq hp, decide_eq_true_eq] at hq
  rw [h.any_eq hx, decide_eq_true_eq]
  exact h.down p hq x hx hparent

theorem forest (h : Subtree st gone) (hforest : Forest rank st) :
    Forest rank (wipe env gone st) :=
  ⟨hforest.ranked.delete, Closed.delete h.downward hforest.closed⟩

theorem under_wipe (h : Subtree st gone) {id : Str} :
    Under (wipe env gone st) id r ↔ Under st id r ∧ r ∉ gone := by
  refine (below_delete h.downward).trans (and_congr_right (fun hr => ?_))
  rw [h.any_eq hr.mem, decide_eq_false_iff_not]

theorem nil : Subtree st [] := ⟨fun _ hg => (nomatch hg), fun _ hg => (nomatch hg)⟩

theorem get?_wipe (h : Subtree st gone) {id : Str} :
    (wipe env gone st).files.get? id = some r ↔ st.files.get? id = some r ∧ r ∉ gone := by
  rw [Table.get?_eq_some, Table.get?_eq_some, h.mem_wipe]
  exact and_right_comm

theorem within_mem (h : Subtree st gone) (hc : c ∈ gone)
    (hr : Within File.parent st.files c r) : r ∈ gone := by
  rcases hr with rfl | hbelow
  · exact hc
  · have hunder : Under st c.id r := hbelow
    generalize hid : c.id = id at hunder
    clear hbelow
    induction hunder generalizing c with
    | child hr =>
        obtain ⟨hmem, hparent, -⟩ := mem_children.mp hr
        exact h.down c hc _ hmem (hparent.trans hid.symm)
    | step hm _ ih =>
        obtain ⟨hmem, hparent, -⟩ := mem_children.mp hm
        exact ih (h.down c hc _ hmem (hparent.trans hid.symm)) rfl

theorem append (h : Subtree st gone) (h' : Subtree (wipe env gone st) gone') :
    Subtree st (gone ++ gone') where
  mem := by
    intro g hg
    rcases List.mem_append.mp hg with hg | hg
    · exact h.mem g hg
    · exact (h.mem_wipe.mp (h'.mem g hg)).1
  down := by
    intro g hg x hx hparent
    by_cases hxgone : x ∈ gone
    · exact List.mem_append_left _ hxgone
    · rcases List.mem_append.mp hg with hg | hg
      · exact List.mem_append_left _ (h.down g hg x hx hparent)
      · exact List.mem_append_right _ (h'.down g hg x (h.mem_wipe.mpr ⟨hx, hxgone⟩) hparent)

/-- An entry and what is below it. -/
theorem of_within (hc : c ∈ st.files)
    (hgone : ∀ r, r ∈ gone ↔ Within File.parent st.files c r) : Subtree st gone where
  mem := by
    intro g hg
    rcases (hgone g).mp hg with rfl | hbelow
    · exact hc
    · exact hbelow.mem
  down := by
    intro g hg x hx hparent
    by_cases hself : x.id = g.id
    · have hmem : g ∈ st.files := by
        rcases (hgone g).mp hg with rfl | hbelow
        · exact hc
        · exact hbelow.mem
      rw [st.files.eq_of_key_eq hx hmem hself]
      exact hg
    · have hchild : x ∈ children File.parent st.files g.id := mem_children.mpr ⟨hx, hparent, hself⟩
      refine (hgone x).mpr (.inr ?_)
      rcases (hgone g).mp hg with rfl | hbelow
      · exact .child hchild
      · exact hbelow.tail hchild

end Subtree

/-! ### Going down into a folder -/

/-- The loop over the entries of a folder deletes them one after the other. -/
theorem deleteEntries_spec (h : Forest rank st) {step : State → File → Option State}
    (hstep : ∀ c st', c ∈ children File.parent st.files folder.id → c ∈ st'.files →
      Forest rank st' → (∀ x ∈ st'.files, x ∈ st.files) →
      ∃ gone, step st' c = some (wipe env gone st') ∧
        ∀ r, r ∈ gone ↔ Within File.parent st'.files c r)
    (seen rest gone : List File)
    (hall : seen ++ rest = children File.parent st.files folder.id)
    (hsub : Subtree st gone)
    (hgone : ∀ r, r ∈ gone ↔ ∃ c ∈ seen, Within File.parent st.files c r) :
    ∃ gone', rest.foldlM step (wipe env gone st) = some (wipe env gone' st) ∧ Subtree st gone' ∧
      ∀ r, r ∈ gone' ↔ Under st folder.id r := by
  induction rest generalizing seen gone with
  | nil =>
      refine ⟨gone, rfl, hsub, fun r => ?_⟩
      rw [List.append_nil] at hall
      rw [hgone r, hall]
      constructor
      · rintro ⟨c, hc, rfl | hbelow⟩
        · exact .child hc
        · exact .step hc hbelow
      · intro hunder
        cases hunder with
        | child hr => exact ⟨r, hr, .inl rfl⟩
        | step hc hr => exact ⟨_, hc, .inr hr⟩
  | cons c rest ih =>
      have hc : c ∈ children File.parent st.files folder.id := by
        rw [← hall]
        exact List.mem_append_right _ List.mem_cons_self
      -- What has been deleted is below other entries.
      have hapart : ∀ {r}, Within File.parent st.files c r → r ∉ gone := by
        intro r hr hmem
        obtain ⟨c', hc', hr'⟩ := (hgone r).mp hmem
        have hc'mem : c' ∈ children File.parent st.files folder.id := by
          rw [← hall]
          exact List.mem_append_left _ hc'
        have heq := Within.eq_of_children h.ranked hc hc'mem hr hr'
        have hnodup := nodup_children File.parent st.files folder.id
        rw [← hall, List.nodup_append] at hnodup
        exact hnodup.2.2 c' hc' c List.mem_cons_self heq.symm
      have hcmem : c ∈ (wipe env gone st).files :=
        hsub.mem_wipe.mpr ⟨(mem_children.mp hc).1, hapart (.inl rfl)⟩
      obtain ⟨gone₁, hrun, hgone₁⟩ := hstep c (wipe env gone st) hc hcmem (hsub.forest h)
        (fun x hx => (hsub.mem_wipe.mp hx).1)
      have hwithin : ∀ r, r ∈ gone₁ ↔ Within File.parent st.files c r := by
        intro r
        refine (hgone₁ r).trans (or_congr_right (hsub.under_wipe.trans ?_))
        exact ⟨fun hr => hr.1, fun hr => ⟨hr, hapart (.inr hr)⟩⟩
      have hsub₁ := hsub.append (Subtree.of_within hcmem hgone₁)
      obtain ⟨gone', hrest, hsub', hgone'⟩ := ih (seen ++ [c]) (gone ++ gone₁)
        (by rw [List.append_assoc, List.singleton_append, hall]) hsub₁ (fun r => by
          rw [List.mem_append, hgone r, hwithin r]
          simp only [List.mem_append, List.mem_singleton, or_and_right, exists_or,
            exists_eq_left])
      refine ⟨gone', ?_, hsub', hgone'⟩
      rw [List.foldlM_cons, hrun]
      rw [wipe_append] at hrest
      exact hrest

/-- With as many calls as there may be generations, the folder and what is below it is deleted. -/
theorem deleteFolderRecursive_spec (h : Forest rank st) {fuel : ℕ} (hr : r ∈ st.files)
    (htype : r.type = .folder) (hfuel : ∀ x ∈ st.files, rank x.id < fuel + rank r.id) :
    ∃ gone, deleteFolderRecursive env fuel r st = some (wipe env gone st) ∧
      ∀ x, x ∈ gone ↔ Within File.parent st.files r x := by
  induction fuel generalizing r st with
  | zero => exact absurd (hfuel r hr) (by omega)
  | succ fuel ih =>
      have hstep : ∀ c st', c ∈ children File.parent st.files r.id → c ∈ st'.files →
          Forest rank st' → (∀ x ∈ st'.files, x ∈ st.files) →
          ∃ gone, (if c.type = .folder then deleteFolderRecursive env fuel c st'
            else some (deleteSingleFile env c st')) = some (wipe env gone st') ∧
            ∀ x, x ∈ gone ↔ Within File.parent st'.files c x := by
        intro c st' hc hmem hforest hsubset
        split
        case isTrue hfolder =>
          refine ih hforest hmem hfolder (fun x hx => ?_)
          have hlt := h.ranked.child_lt hc
          have hbound := hfuel x (hsubset x hx)
          omega
        case isFalse hfile =>
          refine ⟨[c], by rw [deleteSingleFile_eq_wipe env st' hfile], fun x => ?_⟩
          rw [List.mem_singleton]
          refine ⟨.inl, fun hx => hx.resolve_right (hforest.not_under hmem hfile x)⟩
      obtain ⟨gone, hrun, hsub, hgone⟩ := deleteEntries_spec h hstep []
        (children File.parent st.files r.id) [] rfl Subtree.nil (fun x => by simp)
      rw [wipe_nil] at hrun
      refine ⟨gone ++ [r], ?_, fun x => ?_⟩
      · rw [deleteFolderRecursive, listAllFilesByParentId, hrun, wipe_append,
          ← deleteRow_eq_wipe env _ htype]
        rfl
      · rw [List.mem_append, List.mem_singleton, hgone x, or_comm]
        rfl

/-! ### The size of a folder -/

/-- The search goes through what is below the entry; files have nothing below them. -/
theorem dfs_eq_descend (h : Forest rank st) {fuel : ℕ} (hr : r ∈ st.files)
    (hfuel : ∀ x ∈ st.files, rank x.id < fuel + rank r.id) (size : ℕ) :
    dfs st fuel r.id size =
      some (size + ((descend File.parent st.files fuel r.id).map (·.size)).sum) := by
  induction fuel generalizing r size with
  | zero => exact absurd (hfuel r hr) (by omega)
  | succ fuel ih =>
      have hentry : ∀ c ∈ children File.parent st.files r.id, ∀ size,
          (if c.type = .folder then dfs st fuel c.id (size + c.size) else some (size + c.size)) =
            some (size + ((c :: descend File.parent st.files fuel c.id).map (·.size)).sum) := by
        intro c hc size
        have hmem := (mem_children.mp hc).1
        rw [List.map_cons, List.sum_cons, ← Nat.add_assoc]
        split
        case isTrue =>
          refine ih hmem (fun x hx => ?_) (size + c.size)
          have hlt := h.ranked.child_lt hc
          have hbound := hfuel x hx
          omega
        case isFalse hfile =>
          have hnil : descend File.parent st.files fuel c.id = [] :=
            List.eq_nil_iff_forall_not_mem.mpr
              (fun x hx => h.not_under hmem hfile x (below_of_mem_descend hx))
          rw [hnil]
          rfl
      have hloop : ∀ (l : List File), (∀ c ∈ l, c ∈ children File.parent st.files r.id) →
          ∀ size, l.foldlM (fun size f =>
            if f.type = .folder then dfs st fuel f.id (size + f.size) else some (size + f.size))
              size = some (size + ((l.flatMap (fun c =>
                c :: descend File.parent st.files fuel c.id)).map (·.size)).sum) := by
        intro l
        induction l with
        | nil => exact fun _ size => rfl
        | cons c l ihl =>
            intro hl size
            rw [List.foldlM_cons, hentry c (hl c List.mem_cons_self), List.flatMap_cons,
              List.map_append, List.sum_append, ← Nat.add_assoc]
            exact ihl (fun x hx => hl x (List.mem_cons_of_mem c hx)) _
      exact hloop _ (fun c hc => hc) size

/-- With enough calls, the size of a folder is the sum over all that is below it. -/
theorem getFolderSize_eq_total (h : Forest rank st) (hr : r ∈ st.files) :
    ∃ fuel, ∀ m, fuel ≤ m →
      getFolderSize st m r.id = some (total File.parent st.files (·.size) r.id) := by
  obtain ⟨bound, hbound⟩ := exists_bound rank st.files
  refine ⟨bound + 1, fun m hm => ?_⟩
  rw [getFolderSize, dfs_eq_descend h hr (fun x hx => ?_) 0, Nat.zero_add,
    sum_descend h.ranked (fun x hx => ?_)]
  · have hle := hbound x hx
    omega
  · have hle := hbound x hx
    omega

/-! ### The folders above an entry -/

/-- The rows above an entry. -/
theorem under_iff_parent {p x : File} (hp : p ∈ st.files) (hid : p.id = r.parentId)
    (hr : r ∈ st.files) (hne : r.parentId ≠ r.id) (hx : x ∈ st.files) :
    Under st x.id r ↔ x = p ∨ Under st x.id p := by
  have hchild : r ∈ children File.parent st.files p.id :=
    mem_children.mpr ⟨hr, hid.symm, fun heq => hne (hid.symm.trans heq.symm)⟩
  constructor
  · intro h
    rcases h.cases_tail with hparent | ⟨m, hm, hmem, hbelow⟩
    · exact .inl (st.files.eq_of_key_eq hx hp (hparent.symm.trans hid.symm))
    · have heq : m = p := st.files.eq_of_key_eq hmem hp (hm.trans hid.symm)
      exact .inr (heq ▸ hbelow)
  · rintro (rfl | hbelow)
    · exact .child hchild
    · exact hbelow.tail hchild

theorem getAllParentFolders_of_rank (h : Forest rank st) (hids : ∀ x ∈ st.files, x.id ≠ [])
    (n : ℕ) : ∀ r ∈ st.files, rank r.id < n → ∃ path,
      getAllParentFolders st n r.id = some ((r :: path).map some) ∧
      (∀ x ∈ st.files, x ∈ path ↔ Under st x.id r) ∧ (∀ x ∈ path, x ∈ st.files) ∧
      (r :: path).IsChain (fun x y => x.parentId = y.id) ∧
      ∃ root, (r :: path).getLast? = some root ∧ root.parentId = root.id := by
  induction n with
  | zero => exact fun r _ hrank => absurd hrank (Nat.not_lt_zero _)
  | succ n ih =>
      intro r hr hrank
      have hget : st.files.get? r.id = some r := Table.get?_eq_some.mpr ⟨hr, rfl⟩
      by_cases hroot : r.parentId = r.id
      · refine ⟨[], ?_, fun x hx => ⟨fun hmem => (nomatch hmem), fun hunder => ?_⟩,
          fun x hx => (nomatch hx), .singleton r, r, rfl, hroot⟩
        · rw [getAllParentFolders, if_neg (hids r hr), hget]
          dsimp only
          rw [if_neg (not_not_intro hroot)]
          rfl
        · exact absurd hroot hunder.parent_ne
      · obtain ⟨p, hp, hid, -⟩ := h.closed r hr
        have hid' : p.id = r.parentId := hid
        have hlt : rank p.id < n := by
          have hstep := h.ranked r hr hroot
          rw [← hid] at hstep
          exact Nat.lt_of_lt_of_le hstep (Nat.lt_succ_iff.mp hrank)
        obtain ⟨path, hpath, habove, hmem, hchain, root, hlast, hself⟩ := ih p hp hlt
        refine ⟨p :: path, ?_, fun x hx => ?_, ?_, ?_, root, ?_, hself⟩
        · rw [getAllParentFolders, if_neg (hids r hr), hget]
          dsimp only
          rw [if_pos hroot, ← hid', hpath]
          rfl
        · rw [under_iff_parent hp hid' hr hroot hx, List.mem_cons, habove x hx]
        · intro x hx
          rcases List.mem_cons.mp hx with rfl | hx
          · exact hp
          · exact hmem x hx
        · exact .cons_cons hid'.symm hchain
        · rw [List.getLast?_cons_cons]
          exact hlast

/-- The folders above an entry are listed from the entry up to its root. -/
theorem getAllParentFolders_spec (h : Forest rank st) (hids : ∀ x ∈ st.files, x.id ≠ [])
    (hr : r ∈ st.files) : ∃ fuel, ∀ m, fuel ≤ m → ∃ path,
      getAllParentFolders st m r.id = some ((r :: path).map some) ∧
      (∀ x ∈ st.files, x ∈ path ↔ Under st x.id r) ∧
      (r :: path).IsChain (fun x y => x.parentId = y.id) ∧
      ∃ root, (r :: path).getLast? = some root ∧ root.parentId = root.id := by
  refine ⟨rank r.id + 1, fun m hm => ?_⟩
  obtain ⟨path, hpath, habove, -, hchain, hroot⟩ := getAllParentFolders_of_rank h hids m r hr hm
  exact ⟨path, hpath, habove, hchain, hroot⟩

/-! ### What `rm` deletes -/

/-- The request ends at this id. -/
def Refused (env : Env) (user : Str) (st : State) (id : Str) (reply : Reply) : Prop :=
  st.files.get? id = none ∧ reply = .dataError "File or Folder not found!" ∨
    ∃ file, st.files.get? id = some file ∧ refusal env user st file = some reply

/-- The row is one of those with the ids or below one, and that is not from a knowledge base. -/
def Listed (st : State) (ids : List Str) (r : File) : Prop :=
  ∃ id ∈ ids, ∃ file, st.files.get? id = some file ∧ file.sourceType ≠ knowledgebase ∧
    Within File.parent st.files file r

theorem listed_cons {id : Str} {ids : List Str} : Listed st (id :: ids) r ↔
    (∃ file, st.files.get? id = some file ∧ file.sourceType ≠ knowledgebase ∧
      Within File.parent st.files file r) ∨ Listed st ids r := by
  unfold Listed
  simp only [List.mem_cons, or_and_right, exists_or, exists_eq_left]

/-- What is below the remaining entries, when some have been deleted with what is below them. -/
theorem Subtree.listed_wipe (h : Subtree st gone) {ids : List Str} (hr : r ∉ gone) :
    Listed (wipe env gone st) ids r ↔ Listed st ids r := by
  unfold Listed
  refine exists_congr (fun id => and_congr_right (fun _ => exists_congr (fun file => ?_)))
  rw [h.get?_wipe]
  constructor
  · rintro ⟨⟨hget, -⟩, hsource, hwithin⟩
    exact ⟨hget, hsource, hwithin.imp_right (fun hbelow => (h.under_wipe.mp hbelow).1)⟩
  · rintro ⟨hget, hsource, hwithin⟩
    refine ⟨⟨hget, fun hgone => hr (h.within_mem hgone hwithin)⟩, hsource, ?_⟩
    exact hwithin.imp_right (fun hbelow => h.under_wipe.mpr ⟨hbelow, hr⟩)

/-- One entry. -/
theorem deleteEntry_spec (h : Forest rank st) {fuel : ℕ} (hfuel : ∀ x ∈ st.files, rank x.id < fuel)
    (hr : r ∈ st.files) : ∃ gone,
      (if r.type = .folder then deleteFolderRecursive env fuel r st
        else some (deleteSingleFile env r st)) = some (wipe env gone st) ∧
      ∀ x, x ∈ gone ↔ Within File.parent st.files r x := by
  split
  case isTrue htype =>
    exact deleteFolderRecursive_spec h hr htype (fun x hx => Nat.lt_add_right _ (hfuel x hx))
  case isFalse htype =>
    refine ⟨[r], by rw [deleteSingleFile_eq_wipe env st htype], fun x => ?_⟩
    rw [List.mem_singleton]
    exact ⟨.inl, fun hx => hx.resolve_right (h.not_under hr htype x)⟩

/-- What `rm` comes to on the ids: it has deleted what the first of them list, and has stopped at
the others. -/
def Removes (env : Env) (user : Str) (st : State) (ids : List Str)
    (run : Option (Reply × State)) : Prop :=
  ∃ reply done rest gone, run = some (reply, wipe env gone st) ∧
    ids = done ++ rest ∧ Subtree st gone ∧ (∀ r, r ∈ gone ↔ Listed st done r) ∧
    (rest = [] ∧ reply = .done ∨
      ∃ id rest', rest = id :: rest' ∧ Refused env user (wipe env gone st) id reply)

theorem removes_stop {user : Str} {ids : List Str} {reply : Reply}
    (hend : ids = [] ∧ reply = .done ∨
      ∃ id rest, ids = id :: rest ∧ Refused env user st id reply) :
    Removes env user st ids (some (reply, st)) := by
  refine ⟨reply, [], ids, [], by rw [wipe_nil], rfl, .nil, fun r => ?_, ?_⟩
  · exact ⟨fun hr => (nomatch hr), fun ⟨_, hid, _⟩ => (nomatch hid)⟩
  · rw [wipe_nil]
    exact hend

theorem Removes.skip {user id : Str} {ids : List Str} {run : Option (Reply × State)} {file : File}
    (hget : st.files.get? id = some file) (hsource : file.sourceType = knowledgebase)
    (h : Removes env user st ids run) : Removes env user st (id :: ids) run := by
  obtain ⟨reply, done, rest, gone, hrun, hids, hsub, hgone, hend⟩ := h
  refine ⟨reply, id :: done, rest, gone, hrun, by rw [hids, List.cons_append], hsub,
    fun r => ?_, hend⟩
  rw [hgone r, listed_cons]
  refine ⟨.inr, fun hr => hr.resolve_left ?_⟩
  rintro ⟨file', hget', hsource', -⟩
  rw [hget] at hget'
  cases hget'
  exact hsource' hsource

theorem Removes.delete {user id : Str} {ids : List Str} {run : Option (Reply × State)} {file : File}
    (hget : st.files.get? id = some file) (hsource : file.sourceType ≠ knowledgebase)
    (hsub : Subtree st gone) (hgone : ∀ r, r ∈ gone ↔ Within File.parent st.files file r)
    (h : Removes env user (wipe env gone st) ids run) : Removes env user st (id :: ids) run := by
  obtain ⟨reply, done, rest, gone', hrun, hids, hsub', hgone', hend⟩ := h
  have hfirst : ∀ r, (∃ file', st.files.get? id = some file' ∧
      file'.sourceType ≠ knowledgebase ∧ Within File.parent st.files file' r) ↔ r ∈ gone := by
    intro r
    rw [hget, hgone r]
    constructor
    · rintro ⟨file', hsome, -, hr⟩
      cases hsome
      exact hr
    · exact fun hr => ⟨file, rfl, hsource, hr⟩
  rw [← wipe_append] at hrun hend
  refine ⟨reply, id :: done, rest, gone ++ gone', hrun, by rw [hids, List.cons_append],
    hsub.append hsub', fun r => ?_, hend⟩
  rw [List.mem_append, hgone' r, listed_cons, hfirst r]
  by_cases hr : r ∈ gone
  · exact ⟨fun _ => .inl hr, fun _ => .inl hr⟩
  · rw [hsub.listed_wipe hr]

theorem rmSync_removes (h : Forest rank st) {fuel : ℕ} (hfuel : ∀ x ∈ st.files, rank x.id < fuel)
    (user : Str) (ids : List Str) : Removes env user st ids (rmSync env fuel user ids st) := by
  induction ids generalizing st with
  | nil => exact removes_stop (.inl ⟨rfl, rfl⟩)
  | cons id ids ih =>
      rw [rmSync]
      cases hget : st.files.get? id with
      | none => exact removes_stop (.inr ⟨id, ids, rfl, .inl ⟨hget, rfl⟩⟩)
      | some file =>
          have hfile : file ∈ st.files := (Table.get?_eq_some.mp hget).1
          cases hrefusal : refusal env user st file with
          | some reply =>
              simp only [hrefusal]
              exact removes_stop (.inr ⟨id, ids, rfl, .inr ⟨file, hget, hrefusal⟩⟩)
          | none =>
              simp only [hrefusal]
              by_cases hsource : file.sourceType = knowledgebase
              · rw [if_pos hsource]
                exact (ih h hfuel).skip hget hsource
              · obtain ⟨gone, hdelete, hgone⟩ := @deleteEntry_spec env _ _ _ h _ hfuel hfile
                have hsub : Subtree st gone := Subtree.of_within hfile hgone
                have hrest := @ih (wipe env gone st) (hsub.forest h)
                  (fun x hx => hfuel x (hsub.mem_wipe.mp hx).1)
                rw [if_neg hsource]
                split at hdelete
                case isTrue htype =>
                  rw [if_pos htype, hdelete]
                  exact hrest.delete hget hsource hsub hgone
                case isFalse htype =>
                  rw [if_neg htype, Option.some.inj hdelete]
                  exact hrest.delete hget hsource hsub hgone

/-- **Deletion.**  The request goes through the ids up to the first that it refuses.  It deletes
what has these ids or is below, but for what is from a knowledge base, and nothing else. -/
theorem rmSync_wipe (h : Forest rank st) (user : Str) (ids : List Str) :
    ∃ fuel, ∀ m, fuel ≤ m → ∃ reply done rest gone,
      rmSync env m user ids st = some (reply, wipe env gone st) ∧ ids = done ++ rest ∧
      (∀ r, r ∈ gone ↔ Listed st done r) ∧
      (rest = [] ∧ reply = .done ∨
        ∃ id rest', rest = id :: rest' ∧ Refused env user (wipe env gone st) id reply) := by
  obtain ⟨bound, hbound⟩ := exists_bound rank st.files
  refine ⟨bound + 1, fun m hm => ?_⟩
  obtain ⟨reply, done, rest, gone, hrun, hids, -, hgone, hend⟩ :=
    @rmSync_removes env _ _ h _ (fun x hx => Nat.lt_of_le_of_lt (hbound x hx) hm) user ids
  exact ⟨reply, done, rest, gone, hrun, hids, hgone, hend⟩

end subtree

/-! ### A folder with a file -/

def sampleRoot : File := ⟨⟨['r'], ['r'], ['t'], ['t'], ['/'], [], 0, .folder⟩, []⟩

def sampleFolder : File := ⟨⟨['f'], ['r'], ['t'], ['t'], ['a'], [], 0, .folder⟩, []⟩

def sampleFile : File :=
  ⟨⟨['x'], ['f'], ['t'], ['t'], "b.txt".toList, "b.txt".toList, 3, .doc⟩, []⟩

/-- The folder `a` of a root, with an uploaded file, and a document that was made from it; the
knowledge base has the image of its chunk and that of another one. -/
def sample : State where
  files := ⟨[sampleRoot, sampleFolder, sampleFile], by decide⟩
  objects := [(['f'], "b.txt".toList), (['k'], ['1']), (['k'], ['2'])]
  links := [(['x'], ['d'])]
  documents := ⟨[⟨['d'], ['k'], "b.txt".toList, [], [['1']]⟩], by decide⟩
  next := 0

/-- The state without the folder. -/
def sampleRest : State where
  files := ⟨[sampleRoot], by decide⟩
  objects := [(['k'], ['2'])]
  links := []
  documents := .empty
  next := 0

def sampleRank (id : Str) : ℕ := if id = ['r'] then 0 else if id = ['f'] then 1 else 2

def sampleEnv : Env where
  uuid n := List.replicate (n + 1) 'u'
  digits := .ascii
  case := .ascii
  collation := .exact
  accepts _ := true
  hasTenant _ := true
  permitted _ _ _ := true
  exceeded _ _ := false

theorem forest_sample : Forest sampleRank sample where
  ranked := by
    show ∀ r ∈ sample.files.rows, _
    decide
  closed := by
    show ∀ r ∈ sample.files.rows, ∃ p ∈ sample.files.rows, _
    decide

theorem mem_sampleRoot : sampleRoot ∈ sample.files :=
  show sampleRoot ∈ sample.files.rows from List.mem_cons_self

theorem mem_sampleFile : sampleFile ∈ sample.files := by
  show sampleFile ∈ sample.files.rows
  decide

/-- What is below an entry of the state. -/
theorem under_sample {id : Str} {r : File} :
    Under sample id r ↔ r ∈ descend File.parent sample.files 2 id := by
  refine (mem_descend forest_sample.ranked (fun x _ => ?_)).symm
  unfold sampleRank
  split
  · omega
  · split <;> omega

theorem getFolderSize_sample : ∃ fuel, ∀ m, fuel ≤ m → getFolderSize sample m ['r'] = some 3 := by
  obtain ⟨fuel, hsize⟩ := getFolderSize_eq_total forest_sample mem_sampleRoot
  refine ⟨fuel, fun m hm => (hsize m hm).trans ?_⟩
  rw [← @sum_descend _ _ _ _ File.parent _ _ _ forest_sample.ranked 2 (fun x hx => ?_) _]
  · decide
  · unfold sampleRank
    split
    · omega
    · split <;> omega

theorem getAllParentFolders_sample : ∃ fuel, ∀ m, fuel ≤ m → ∃ path,
    getAllParentFolders sample m sampleFile.id = some ((sampleFile :: path).map some) ∧
    (∀ x ∈ sample.files, x ∈ path ↔ Under sample x.id sampleFile) ∧
    (sampleFile :: path).IsChain (fun x y => x.parentId = y.id) ∧
    ∃ root, (sampleFile :: path).getLast? = some root ∧ root.parentId = root.id :=
  getAllParentFolders_spec forest_sample (show ∀ x ∈ sample.files.rows, x.id ≠ [] by decide)
    mem_sampleFile

theorem listed_sample {r : File} : Listed sample [['f']] r ↔ r ∈ [sampleFolder, sampleFile] := by
  have hget : sample.files.get? ['f'] = some sampleFolder := rfl
  have hbelow : Under sample ['f'] r ↔ r = sampleFile :=
    under_sample.trans (@List.mem_singleton _ r sampleFile)
  rw [List.mem_cons, List.mem_singleton, ← hbelow]
  constructor
  · rintro ⟨id, hid, file, hfile, -, hwithin⟩
    cases List.mem_singleton.mp hid
    rw [hget] at hfile
    cases hfile
    exact hwithin
  · exact fun hwithin => ⟨['f'], List.mem_singleton.mpr rfl, sampleFolder, hget, by decide, hwithin⟩

/-- The folder is deleted with its file, the object, the document and the image. -/
theorem rmSync_sample : ∃ fuel, ∀ m, fuel ≤ m →
    rmSync sampleEnv m ['t'] [['f']] sample = some (.done, sampleRest) := by
  obtain ⟨fuel, hrm⟩ := @rmSync_wipe sampleEnv _ _ forest_sample ['t'] [['f']]
  refine ⟨fuel, fun m hm => ?_⟩
  obtain ⟨reply, done, rest, gone, hrun, hids, hgone, hend⟩ := hrm m hm
  have hget : sample.files.get? ['f'] = some sampleFolder := rfl
  rcases done with _ | ⟨id, done⟩
  -- The folder is not refused.
  · obtain ⟨rfl, -⟩ | ⟨id, rest', rfl, hrefused⟩ := hend
    · cases hids
    · cases hids
      have hnil : gone = [] := List.eq_nil_iff_forall_not_mem.mpr (fun r hr => by
        obtain ⟨id, hid, -⟩ := (hgone r).mp hr
        cases hid)
      rw [hnil, wipe_nil] at hrefused
      obtain ⟨hnone, -⟩ | ⟨file, hfile, hrefusal⟩ := hrefused
      · rw [hget] at hnone
        cases hnone
      · rw [hget] at hfile
        cases hfile
        cases hrefusal
  · obtain ⟨rfl, htail⟩ := List.cons_eq_cons.mp hids.symm
    obtain ⟨rfl, rfl⟩ := List.append_eq_nil_iff.mp htail
    obtain ⟨-, rfl⟩ | ⟨id, rest', hrest, -⟩ := hend
    · rw [hrun, wipe_congr (fun r => (hgone r).trans listed_sample)]
      rfl
    · cases hrest

end RagFlow.FileTree
