import Mathlib.Data.Rat.Defs
import Mathlib.Data.List.Nodup
import RagFlow.PyStr

/-! # POSIX paths and a file system

Paths are strings; `components` is the list of their non-empty components, on which "lies
below" is the prefix order.  `normpath`, `abspath`, `join` and `basename` are the functions of
`posixpath`.

A file system is given by its files, each with its component list from the root, and by the
directories that hold none (`FileSystem`); two files never have the same components, and a
component is non-empty and has no `/` in it.  `walk d` lists the files below the directory `d`
as `os.walk` reaches them, with the path that `os.path.join` gives them from `d`.  Different
files get different paths (`walk_nodup`), the path leads back to the file (`stat_walk`) and
starts with `d` and a separator (`withSep_prefix_walk`). -/

namespace RagFlow.Py

/-! ### Paths -/

/-- The non-empty components of a path. -/
def components (s : Str) : List Str := (s.splitOn '/').filter (fun c => !c.isEmpty)

/-- `os.path.join(d, "")`: the path `d` with a separator at its end. -/
def withSep (d : Str) : Str := if d.getLast? = some '/' then d else d ++ ['/']

/-- `os.path.join(d, name)` for a relative `name`. -/
def join (d name : Str) : Str := withSep d ++ name

/-- `os.path.basename(s)`. -/
def basename (s : Str) : Str := (s.splitOn '/').getLastD []

/-- One component of the loop of `normpath`. -/
def normStep (rooted : Bool) (acc : List Str) (c : Str) : List Str :=
  if c = [] || c = "." then acc
  else if c ≠ ".." || (!rooted && acc.isEmpty) || acc.getLast? = some ".." then acc ++ [c]
  else acc.dropLast

/-- `os.path.normpath(s)`. -/
def normpath (s : Str) : Str :=
  let slashes : ℕ :=
    if startswith s "//" && !startswith s "///" then 2 else if startswith s "/" then 1 else 0
  let p := List.replicate slashes '/' ++
    ['/'].intercalate ((s.splitOn '/').foldl (normStep (slashes != 0)) [])
  if p = [] then "." else p

/-- `os.path.abspath(s)` in the working directory `cwd`. -/
def abspath (cwd s : Str) : Str :=
  normpath (if startswith s "/" then s else join cwd s)

theorem components_append_slash (s t : Str) :
    components (s ++ '/' :: t) = components s ++ components t := by
  unfold components
  rw [List.splitOn_append_cons_self, List.filter_append]

theorem components_nil : components [] = [] := rfl

theorem components_withSep (d : Str) : components (withSep d) = components d := by
  unfold withSep
  split_ifs with h
  · rfl
  · rw [components_append_slash, components_nil, List.append_nil]

theorem withSep_eq (d : Str) : ∃ d', withSep d = d' ++ ['/'] := by
  unfold withSep
  split_ifs with h
  · exact ⟨d.dropLast, (List.dropLast_append_getLast? '/' h).symm⟩
  · exact ⟨d, rfl⟩

theorem prefix_withSep (d : Str) : d <+: withSep d := by
  unfold withSep
  split_ifs
  · exact List.prefix_rfl
  · exact List.prefix_append d ['/']

/-- A list of file names: none is empty and none has a separator in it. -/
def IsNames (cs : List Str) : Prop := ∀ c ∈ cs, c ≠ [] ∧ '/' ∉ c

instance (cs : List Str) : Decidable (IsNames cs) :=
  inferInstanceAs (Decidable (∀ c ∈ cs, c ≠ [] ∧ '/' ∉ c))

theorem components_intercalate {cs : List Str} (h : IsNames cs) :
    components (['/'].intercalate cs) = cs := by
  unfold components
  cases cs with
  | nil => rfl
  | cons c cs =>
      rw [List.splitOn_intercalate '/' (fun l hl => (h l hl).2) (by simp)]
      apply List.filter_eq_self.mpr
      intro l hl
      simpa using (h l hl).1

theorem components_below (d : Str) {cs : List Str} (h : IsNames cs) :
    components (withSep d ++ ['/'].intercalate cs) = components d ++ cs := by
  obtain ⟨d', hd⟩ := withSep_eq d
  have hc := components_withSep d
  rw [hd, components_append_slash, components_nil, List.append_nil] at hc
  rw [hd, List.append_assoc, List.singleton_append, components_append_slash, hc,
    components_intercalate h]

/-! ### The file system -/

/-- A file: its components from the root, its size and its modification time. -/
structure FileEntry where
  comps : List Str
  size : ℕ
  mtime : ℚ

/-- The files and the directories without files. -/
structure FileSystem where
  files : List FileEntry
  emptyDirs : List (List Str)
  nodup : (files.map FileEntry.comps).Nodup
  names : ∀ f ∈ files, IsNames f.comps

/-- A file as the walk of a directory reports it. -/
structure WalkEntry where
  path : Str
  rel : Str
  name : Str
deriving DecidableEq

namespace FileSystem
variable (fs : FileSystem)

/-- The file lies strictly below the directory with components `cs`. -/
def below (cs : List Str) (f : FileEntry) : Bool := cs.isPrefixOf f.comps && f.comps ≠ cs

/-- `os.path.isdir(s)`. -/
def isdir (s : Str) : Bool :=
  components s = [] || fs.emptyDirs.contains (components s) || fs.files.any (below (components s))

/-- `os.stat(s)` of a file: its size and modification time. -/
def stat (s : Str) : Option (ℕ × ℚ) :=
  (fs.files.find? (·.comps = components s)).map (fun f => (f.size, f.mtime))

/-- `os.path.exists(s)`. -/
def pathExists (s : Str) : Bool := fs.isdir s || (fs.stat s).isSome

/-- The report of the file `f` in the walk of `d`. -/
def entry (d : Str) (f : FileEntry) : WalkEntry :=
  let rest := f.comps.drop (components d).length
  { path := join d (['/'].intercalate rest), rel := ['/'].intercalate rest,
    name := f.comps.getLastD [] }

/-- The files `os.walk(d)` reaches. -/
def walk (d : Str) : List WalkEntry :=
  (fs.files.filter (below (components d))).map (entry d)

variable {fs}

theorem path_walk {d : Str} {e : WalkEntry} (h : e ∈ fs.walk d) : e.path = join d e.rel := by
  obtain ⟨f, _, rfl⟩ := List.mem_map.mp h
  rfl

theorem withSep_prefix_walk {d : Str} {e : WalkEntry} (h : e ∈ fs.walk d) :
    withSep d <+: e.path := by
  obtain ⟨f, _, rfl⟩ := List.mem_map.mp h
  exact List.prefix_append _ _

theorem components_entry {d : Str} {f : FileEntry} (hf : f ∈ fs.files)
    (hb : below (components d) f = true) : components (entry d f).path = f.comps := by
  simp only [below, Bool.and_eq_true, List.isPrefixOf_iff_prefix] at hb
  obtain ⟨rest, hrest⟩ := hb.1
  have hn : IsNames rest := by
    intro c hc
    apply fs.names f hf
    rw [← hrest]
    exact List.mem_append_right _ hc
  have hd : f.comps.drop (components d).length = rest := by
    rw [← hrest, List.drop_left]
  simp only [entry, join, hd]
  rw [components_below d hn, hrest]

theorem stat_walk {d : Str} {e : WalkEntry} (h : e ∈ fs.walk d) : (fs.stat e.path).isSome := by
  obtain ⟨f, hf, rfl⟩ := List.mem_map.mp h
  obtain ⟨hf, hb⟩ := List.mem_filter.mp hf
  unfold stat
  rw [components_entry hf hb, Option.isSome_map, List.find?_isSome]
  exact ⟨f, hf, by simp⟩

theorem walk_nodup (d : Str) : ((fs.walk d).map WalkEntry.path).Nodup := by
  unfold walk
  rw [List.map_map]
  have hsub : ((fs.files.filter (below (components d))).map FileEntry.comps).Nodup :=
    fs.nodup.sublist (List.filter_sublist.map _)
  apply List.Nodup.of_map components
  rw [List.map_map]
  have hcongr : (fs.files.filter (below (components d))).map
      (components ∘ WalkEntry.path ∘ entry d) =
      (fs.files.filter (below (components d))).map FileEntry.comps := by
    apply List.map_congr_left
    intro f hf
    obtain ⟨hf, hb⟩ := List.mem_filter.mp hf
    exact components_entry hf hb
  rw [hcongr]
  exact hsub

end FileSystem

end RagFlow.Py
