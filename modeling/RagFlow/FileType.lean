import Mathlib.Algebra.GroupWithZero.Nat
import Mathlib.Data.List.Infix
import RagFlow.PosixPath

/-! # Classification of files by name

The type, the parser and the suffix of a new document are read off its file name, once by the
directory scan (`scanClass`) and once by the upload of a document (`uploadClass`).

The patterns are of the form `.*\.(e₁|e₂|…)$`, matched from the start of the name: no line feed
before the dot, and one is allowed at the very end, where `$` also matches (`matchExt`).  Under
`re.IGNORECASE` a letter of the pattern matches the characters of `eqIgnoreCase`.

The two classifications agree on few names: `scan_upload_class_iff`. -/

namespace RagFlow

open Py

/-! ### The patterns -/

/-- `$` also matches before a line feed at the end. -/
def beforeFinalNewline (s : Str) : Str := if s.getLast? = some '\n' then s.dropLast else s

/-- The string ends with `.e`, characters compared by `eqv`. -/
def endsWithExt (eqv : Char → Char → Bool) (s e : Str) : Bool :=
  ('.' :: e).length ≤ s.length &&
    (List.zipWith eqv (s.drop (s.length - ('.' :: e).length)) ('.' :: e)).all id

/-- `re.search(r"\.(e₁|e₂|…)$", s)`. -/
def searchExt (exts : List Str) (s : Str) : Bool :=
  exts.any (fun e => ('.' :: e).isSuffixOf (beforeFinalNewline s))

/-- `re.match(r".*\.(e₁|e₂|…)$", s)`. -/
def matchExt (exts : List Str) (s : Str) : Bool :=
  !(beforeFinalNewline s).contains '\n' && searchExt exts s

/-- Equality of a character with a lower-case letter or digit of a pattern under
`re.IGNORECASE`: besides the upper-case letter, `İ` and `ı` for `i`, `ſ` for `s` and the Kelvin
sign for `k`. -/
def eqIgnoreCase (c p : Char) : Bool :=
  c.toLower == p || (p == 'i' && (c.toNat == 0x130 || c.toNat == 0x131)) ||
    (p == 's' && c.toNat == 0x17F) || (p == 'k' && c.toNat == 0x212A)

/-- `re.match(r".*\.(e₁|e₂|…)$", s, re.IGNORECASE)`. -/
def matchExtIgnoreCase (exts : List Str) (s : Str) : Bool :=
  !(beforeFinalNewline s).contains '\n' &&
    exts.any (endsWithExt eqIgnoreCase (beforeFinalNewline s))

/-- The extensions of `SUPPORTED_EXTENSIONS`. -/
def supportedExts : List Str :=
  (["pdf", "msg", "eml", "doc", "docx", "ppt", "pptx", "yml", "xml", "htm", "json", "jsonl",
    "ldjson", "csv", "txt", "ini", "xls", "xlsx", "wps", "rtf", "hlp", "pages", "numbers", "key",
    "md", "py", "js", "java", "c", "cpp", "h", "php", "go", "ts", "sh", "cs", "kt", "html",
    "sql", "wav", "flac", "ape", "alac", "wv", "mp3", "aac", "ogg", "vorbis", "opus", "jpg",
    "jpeg", "png", "tif", "gif", "pcx", "tga", "exif", "fpx", "svg", "psd", "cdr", "pcd", "dxf",
    "ufo", "eps", "ai", "raw", "webp", "avif", "apng", "icon", "ico", "mpg", "mpeg", "avi", "rm",
    "rmvb", "mov", "wmv", "asf", "dat", "asx", "wvx", "mpe", "mpa", "mp4", "avi", "mkv"] :
    List String).map String.toList

/-- The name matches `SUPPORTED_EXTENSIONS`. -/
def isSupported (name : Str) : Bool := matchExtIgnoreCase supportedExts name

/-! ### `filename_type` -/

/-- `FileType`. -/
inductive FileType where
  | pdf | doc | visual | aural | virtual | folder | other
deriving DecidableEq, Repr

/-- The text of a file type in the database. -/
def FileType.value : FileType → Str
  | .pdf => "pdf"
  | .doc => "doc"
  | .visual => "visual"
  | .aural => "aural"
  | .virtual => "virtual"
  | .folder => "folder"
  | .other => "other"

def docExts : List Str :=
  (["msg", "eml", "doc", "docx", "ppt", "pptx", "yml", "xml", "htm", "json", "jsonl", "ldjson",
    "csv", "txt", "ini", "xls", "xlsx", "wps", "rtf", "hlp", "pages", "numbers", "key", "md",
    "mdx", "py", "js", "java", "c", "cpp", "h", "php", "go", "ts", "sh", "cs", "kt", "html",
    "sql"] : List String).map String.toList

def auralExts : List Str :=
  (["wav", "flac", "ape", "alac", "wavpack", "wv", "mp3", "aac", "ogg", "vorbis", "opus"] :
    List String).map String.toList

def visualExts : List Str :=
  (["jpg", "jpeg", "png", "tif", "gif", "pcx", "tga", "exif", "fpx", "svg", "psd", "cdr", "pcd",
    "dxf", "ufo", "eps", "ai", "raw", "WMF", "webp", "avif", "apng", "icon", "ico", "mpg", "mpeg",
    "avi", "rm", "rmvb", "mov", "wmv", "asf", "dat", "asx", "wvx", "mpe", "mpa", "mp4", "avi",
    "mkv"] : List String).map String.toList

/-- `FILE_NAME_LEN_LIMIT`. -/
def fileNameLenLimit : ℕ := 255

/-- `_normalize_filename_for_type`; `none` for a name it rejects. -/
def normalizeFilenameForType (ct : CaseTable) (filename : Str) : Option Str :=
  let base := strip (basename filename)
  if base = [] || fileNameLenLimit < base.length then none else some (ct.lower base)

/-- The tests of `filename_type` on the normalized name. -/
def typeOfNormalized (s : Str) : FileType :=
  if matchExt ["pdf"] s then .pdf
  else if matchExt docExts s then .doc
  else if matchExt auralExts s then .aural
  else if matchExt visualExts s then .visual
  else .other

/-- `filename_type`. -/
def filenameType (ct : CaseTable) (filename : Str) : FileType :=
  match normalizeFilenameForType ct filename with
  | none => .other
  | some s => typeOfNormalized s

/-! ### The two classifications -/

/-- `s.split(".")[-1] if "." in s else ""`. -/
def lastDotPart (s : Str) : Str := if '.' ∈ s then (s.splitOn '.').getLastD [] else []

/-- `Path(s).suffix` of a file name: from the last dot on, unless that dot is the first or the
last character. -/
def pathSuffix (s : Str) : Str :=
  let stem := s.take (s.length - (lastDotPart s).length - 1)
  if '.' ∈ s ∧ stem ≠ [] ∧ lastDotPart s ≠ [] then '.' :: lastDotPart s else []

/-- `FileService.get_parser`. -/
def getParser (docType : FileType) (filename default : Str) : Str :=
  if docType = .visual then "picture"
  else if docType = .aural then "audio"
  else if searchExt ["ppt", "pptx", "pages"] filename then "presentation"
  else if searchExt ["msg", "eml"] filename then "email"
  else default

/-- What decides how a document is parsed. -/
structure DocClass where
  type : Str
  parserId : Str
  suffix : Str
deriving DecidableEq

/-- The parser the directory scan gives a file. -/
def scanParser (ct : CaseTable) (kbParser filename : Str) : Str :=
  match filenameType ct filename with
  | .visual => "picture"
  | .aural => "audio"
  | _ => kbParser

/-- The classification of a file by the directory scan. -/
def scanClass (ct : CaseTable) (kbParser filename : Str) : DocClass :=
  { type := lastDotPart filename
    parserId := scanParser ct kbParser filename
    suffix := lastDotPart filename }

/-- `len(s.encode("utf-8"))`. -/
def utf8Length (s : Str) : ℕ := (s.map Char.utf8Size).sum

/-- The classification of a file by `upload_document`; `none` when the upload is rejected, for
the length of the name or for its type. -/
def uploadClass (ct : CaseTable) (kbParser filename : Str) : Option DocClass :=
  if fileNameLenLimit < utf8Length filename then none
  else
    match filenameType ct filename with
    | .other => none
    | ty => some
        { type := ty.value
          parserId := getParser ty filename kbParser
          suffix := (pathSuffix filename).dropWhile (· = '.') }

/-- How `queue_tasks` divides a document into tasks. -/
inductive TaskBranch where
  | pdfPages | tableRows | single
deriving DecidableEq, Repr

/-- The branch `queue_tasks` takes. -/
def taskBranch (type parserId : Str) : TaskBranch :=
  if type = FileType.pdf.value then .pdfPages
  else if parserId = "table" then .tableRows
  else .single

/-! ### Names of the form `stem.ext` -/

theorem exists_last_dot {s : Str} (h : '.' ∈ s) : ∃ stem e, s = stem ++ '.' :: e ∧ '.' ∉ e := by
  induction s with
  | nil => cases h
  | cons c s ih =>
      by_cases hs : '.' ∈ s
      · obtain ⟨stem, e, rfl, he⟩ := ih hs
        exact ⟨c :: stem, e, rfl, he⟩
      · rcases List.mem_cons.mp h with rfl | h
        · exact ⟨[], s, rfl, hs⟩
        · exact absurd h hs

theorem lastDotPart_append (stem : Str) {e : Str} (he : '.' ∉ e) :
    lastDotPart (stem ++ '.' :: e) = e := by
  unfold lastDotPart
  rw [if_pos (by simp), List.splitOn_append_cons_self, List.splitOn_eq_singleton he]
  simp [List.getLastD_eq_getLast?]

theorem pathSuffix_dot (stem : Str) {e : Str} (he : '.' ∉ e) :
    pathSuffix (stem ++ '.' :: e) = if stem ≠ [] ∧ e ≠ [] then '.' :: e else [] := by
  have hlen : (stem ++ '.' :: e).length - e.length - 1 = stem.length := by
    rw [List.length_append, List.length_cons]
    omega
  have hdot : '.' ∈ stem ++ '.' :: e := List.mem_append_right stem List.mem_cons_self
  unfold pathSuffix
  dsimp only
  rw [lastDotPart_append stem he, hlen, List.take_left]
  exact if_congr (and_iff_right hdot) rfl rfl

/-- The extension of a name is determined by the name. -/
theorem dot_suffix_iff (stem : Str) {e e' : Str} (he : '.' ∉ e) (he' : '.' ∉ e') :
    ('.' :: e') <:+ (stem ++ '.' :: e) ↔ e' = e := by
  constructor
  · rintro ⟨t, ht⟩
    have h₁ := lastDotPart_append t he'
    rw [ht, lastDotPart_append stem he] at h₁
    exact h₁.symm
  · rintro rfl
    exact List.suffix_append _ _

/-- An extension on which the normalisations of a name act trivially. -/
structure PlainExt (e : Str) : Prop where
  ne_nil : e ≠ []
  no_dot : '.' ∉ e
  no_space : ∀ c ∈ e, isSpace c = false
  lower : ∀ c ∈ e, isAscii c = true ∧ c.toLower = c

theorem PlainExt.no_newline {e : Str} (he : PlainExt e) : '\n' ∉ e := fun h =>
  absurd (he.no_space _ h) (by decide)

theorem beforeFinalNewline_append (s : Str) {e : Str} (he : PlainExt e) :
    beforeFinalNewline (s ++ '.' :: e) = s ++ '.' :: e := by
  unfold beforeFinalNewline
  rw [if_neg]
  intro h
  have hne : ('.' :: e) ≠ [] := List.cons_ne_nil _ _
  rw [List.getLast?_append_of_ne_nil _ hne, List.getLast?_eq_some_getLast hne,
    Option.some.injEq, List.getLast_cons he.ne_nil] at h
  exact he.no_newline (h ▸ List.getLast_mem he.ne_nil)

theorem searchExt_append {exts : List Str} (hx : ∀ x ∈ exts, '.' ∉ x) (s : Str) {e : Str}
    (he : PlainExt e) : searchExt exts (s ++ '.' :: e) = true ↔ e ∈ exts := by
  unfold searchExt
  rw [beforeFinalNewline_append s he, List.any_eq_true]
  constructor
  · rintro ⟨x, hxm, hsuf⟩
    rw [List.isSuffixOf_iff_suffix, dot_suffix_iff s he.no_dot (hx x hxm)] at hsuf
    exact hsuf ▸ hxm
  · intro hm
    refine ⟨e, hm, ?_⟩
    rw [List.isSuffixOf_iff_suffix]
    exact List.suffix_append _ _

theorem matchExt_append {exts : List Str} (hx : ∀ x ∈ exts, '.' ∉ x) (s : Str) {e : Str}
    (he : PlainExt e) :
    matchExt exts (s ++ '.' :: e) = true ↔ '\n' ∉ s ∧ e ∈ exts := by
  unfold matchExt
  rw [Bool.and_eq_true, searchExt_append hx s he, beforeFinalNewline_append s he]
  simp [he.no_newline]

theorem strip_append (s : Str) {e : Str} (he : PlainExt e) :
    strip (s ++ '.' :: e) = lstrip s ++ '.' :: e := by
  have hl : lstrip (s ++ '.' :: e) = lstrip s ++ '.' :: e := by
    unfold lstrip
    rw [List.dropWhile_append]
    split_ifs with h
    · rw [List.isEmpty_iff.mp h]
      rfl
    · rfl
  unfold strip rstrip
  rw [hl]
  have hrev : (lstrip s ++ '.' :: e).reverse = e.reverse ++ '.' :: (lstrip s).reverse := by simp
  have hlast : ∃ c t, e.reverse = c :: t ∧ isSpace c = false := by
    cases hr : e.reverse with
    | nil => exact absurd (List.reverse_eq_nil_iff.mp hr) he.ne_nil
    | cons c t =>
        refine ⟨c, t, rfl, he.no_space c ?_⟩
        rw [← List.mem_reverse, hr]
        exact List.mem_cons_self
  obtain ⟨c, t, hr, hc⟩ := hlast
  rw [hrev, hr, List.cons_append, List.dropWhile_cons_of_neg (by simp [hc]), ← List.cons_append,
    ← hr, ← hrev, List.reverse_reverse]

/-- The end of a text that is in lower case. -/
theorem CaseTable.exists_lower_append (ct : CaseTable) (s : Str) {e : Str} (he : PlainExt e) :
    ∃ t, ct.lower (s ++ '.' :: e) = t ++ '.' :: e := by
  have hfix : ∀ t : Str, (∀ c ∈ t, isAscii c = true ∧ c.toLower = c) →
      ∀ before, ct.lowerAfter before t = t := by
    intro t ht
    induction t with
    | nil => exact fun _ => rfl
    | cons c t ih =>
        intro before
        obtain ⟨h₁, h₂⟩ := ht c List.mem_cons_self
        have hsigma : c ≠ 'Σ' := by
          rintro rfl
          exact absurd h₁ (by decide)
        rw [CaseTable.lowerAfter, if_neg hsigma, ih (fun d hd => ht d (List.mem_cons_of_mem c hd))]
        simp [CaseTable.lower1, h₁, h₂]
  have hdot : ∀ c ∈ '.' :: e, isAscii c = true ∧ c.toLower = c := by
    intro c hc
    rcases List.mem_cons.mp hc with rfl | hc
    · decide
    · exact he.lower c hc
  have hall : ∀ (s before : Str), ∃ t, ct.lowerAfter before (s ++ '.' :: e) = t ++ '.' :: e := by
    intro s
    induction s with
    | nil => exact fun before => ⟨[], hfix _ hdot before⟩
    | cons c s ih =>
        intro before
        obtain ⟨t, ht⟩ := ih (c :: before)
        rw [List.cons_append, CaseTable.lowerAfter, ht, ← List.append_assoc]
        exact ⟨_, rfl⟩
  exact hall s []

theorem basename_eq {s : Str} (h : '/' ∉ s) : basename s = s := by
  unfold basename
  rw [List.splitOn_eq_singleton h]
  rfl

/-- The type given by the extension alone. -/
def typeOfExt (e : Str) : FileType :=
  if e ∈ (["pdf"] : List Str) then .pdf
  else if e ∈ docExts then .doc
  else if e ∈ auralExts then .aural
  else if e ∈ visualExts then .visual
  else .other

theorem typeOfNormalized_append (s : Str) {e : Str} (he : PlainExt e) :
    typeOfNormalized (s ++ '.' :: e) = if '\n' ∈ s then .other else typeOfExt e := by
  have hm : ∀ exts : List Str, (∀ x ∈ exts, '.' ∉ x) →
      (matchExt exts (s ++ '.' :: e) = true ↔ '\n' ∉ s ∧ e ∈ exts) :=
    fun exts hx => matchExt_append hx s he
  unfold typeOfNormalized typeOfExt
  rw [if_congr (hm _ (by decide)) rfl rfl, if_congr (hm docExts (by decide)) rfl rfl,
    if_congr (hm auralExts (by decide)) rfl rfl, if_congr (hm visualExts (by decide)) rfl rfl]
  by_cases hn : '\n' ∈ s
  · simp [hn]
  · simp [hn]

/-- A name that is accepted gets the type of its extension. -/
theorem filenameType_append (ct : CaseTable) (stem : Str) {e : Str} (he : PlainExt e)
    (hs : '/' ∉ stem ++ '.' :: e) :
    filenameType ct (stem ++ '.' :: e) = .other ∨
      filenameType ct (stem ++ '.' :: e) = typeOfExt e := by
  unfold filenameType normalizeFilenameForType
  rw [basename_eq hs, strip_append stem he]
  dsimp only
  obtain ⟨t, ht⟩ := CaseTable.exists_lower_append ct (lstrip stem) he
  rw [ht]
  split_ifs with hlen
  · exact .inl rfl
  · dsimp only
    rw [typeOfNormalized_append _ he]
    split_ifs with hn
    · exact .inl rfl
    · exact .inr rfl

/-! ### When the two classifications agree -/

theorem pathSuffix_append (stem : Str) {e : Str} (he : PlainExt e) :
    pathSuffix (stem ++ '.' :: e) = if stem = [] then [] else '.' :: e := by
  rw [pathSuffix_dot stem he.no_dot]
  by_cases h : stem = []
  · rw [if_pos h, if_neg (fun hne => hne.1 h)]
  · rw [if_neg h, if_pos ⟨h, he.ne_nil⟩]

theorem plainExt_value (ty : FileType) : PlainExt ty.value := by
  have hspace : ty.value.all (fun c => !isSpace c) = true := by
    cases ty <;> decide
  have hlower : ty.value.all (fun c => isAscii c && c.toLower = c) = true := by
    cases ty <;> decide
  refine ⟨by cases ty <;> decide, by cases ty <;> decide, fun c hc => ?_, fun c hc => ?_⟩
  · simpa using List.all_eq_true.mp hspace c hc
  · simpa using List.all_eq_true.mp hlower c hc

/-- Only two extensions are the text of the type they give. -/
theorem eq_pdf_or_doc {ty : FileType} (hne : ty ≠ .other) (h : typeOfExt ty.value = ty) :
    ty = .pdf ∨ ty = .doc := by
  revert hne h
  cases ty <;> decide

/-- What an accepted upload is. -/
theorem uploadClass_eq_some {ct : CaseTable} {kbParser filename : Str} {u : DocClass}
    (h : uploadClass ct kbParser filename = some u) :
    filenameType ct filename ≠ .other ∧
      u = { type := (filenameType ct filename).value
            parserId := getParser (filenameType ct filename) filename kbParser
            suffix := (pathSuffix filename).dropWhile (· = '.') } := by
  unfold uploadClass at h
  split_ifs at h
  generalize filenameType ct filename = ty at h ⊢
  cases ty with
  | other => cases h
  | _ => cases h; exact ⟨by decide, rfl⟩

/-- On a non-empty stem followed by the text of its own type the two classifications agree. -/
theorem class_eq_of_value {ct : CaseTable} {kbParser stem : Str} {ty : FileType} {u : DocClass}
    (hty : ty = .pdf ∨ ty = .doc) (hs : '/' ∉ stem ++ '.' :: ty.value) (hstem : stem ≠ [])
    (hu : uploadClass ct kbParser (stem ++ '.' :: ty.value) = some u) :
    scanClass ct kbParser (stem ++ '.' :: ty.value) = u := by
  have he := plainExt_value ty
  obtain ⟨hne, rfl⟩ := uploadClass_eq_some hu
  have ht : filenameType ct (stem ++ '.' :: ty.value) = ty := by
    rw [(filenameType_append ct stem he hs).resolve_left hne]
    rcases hty with rfl | rfl <;> decide
  have hs₁ : searchExt ["ppt", "pptx", "pages"] (stem ++ '.' :: ty.value) = false := by
    rw [Bool.eq_false_iff, ne_eq, searchExt_append (by decide) stem he]
    rcases hty with rfl | rfl <;> decide
  have hs₂ : searchExt ["msg", "eml"] (stem ++ '.' :: ty.value) = false := by
    rw [Bool.eq_false_iff, ne_eq, searchExt_append (by decide) stem he]
    rcases hty with rfl | rfl <;> decide
  have hdot : ('.' :: ty.value).dropWhile (· = '.') = ty.value := by
    rcases hty with rfl | rfl <;> decide
  unfold scanClass scanParser getParser
  rw [ht, lastDotPart_append stem he.no_dot, pathSuffix_append stem he, if_neg hstem, hdot,
    hs₁, hs₂]
  rcases hty with rfl | rfl <;> rfl

/-- **Agreement of the two classifications.**  A scanned file and an uploaded file of the same
name get the same type, parser and suffix exactly when the upload is refused or the name is a
non-empty stem followed by `.pdf` or `.doc` in lower case. -/
theorem scan_upload_class_iff (ct : CaseTable) (kbParser filename : Str) (hs : '/' ∉ filename) :
    (∀ u, uploadClass ct kbParser filename = some u →
      scanClass ct kbParser filename = u ∧
        taskBranch (scanClass ct kbParser filename).type (scanClass ct kbParser filename).parserId =
          taskBranch u.type u.parserId) ↔
      (fileNameLenLimit < utf8Length filename ∨ filenameType ct filename = .other ∨
        ∃ stem : Str, stem ≠ [] ∧
          (filename = stem ++ (".pdf" : Str) ∨ filename = stem ++ (".doc" : Str))) := by
  constructor
  · intro h
    by_cases hlen : fileNameLenLimit < utf8Length filename
    · exact .inl hlen
    by_cases hty : filenameType ct filename = .other
    · exact .inr (.inl hty)
    refine .inr (.inr ?_)
    obtain ⟨u, hu⟩ : ∃ u, uploadClass ct kbParser filename = some u := by
      unfold uploadClass
      rw [if_neg hlen]
      cases hc : filenameType ct filename with
      | other => exact absurd hc hty
      | _ => exact ⟨_, rfl⟩
    have heq := (h u hu).1.trans (uploadClass_eq_some hu).2
    have htype : lastDotPart filename = (filenameType ct filename).value :=
      congrArg DocClass.type heq
    have hsuf : lastDotPart filename = (pathSuffix filename).dropWhile (· = '.') :=
      congrArg DocClass.suffix heq
    have hdot : '.' ∈ filename := by
      by_contra hno
      rw [lastDotPart, if_neg hno] at htype
      exact (plainExt_value _).ne_nil htype.symm
    obtain ⟨stem, e, rfl, he⟩ := exists_last_dot hdot
    rw [lastDotPart_append stem he] at htype hsuf
    generalize hc : filenameType ct (stem ++ '.' :: e) = ty at htype hty
    subst htype
    have hp := plainExt_value ty
    have hstem : stem ≠ [] := by
      rintro rfl
      rw [pathSuffix_append [] hp, if_pos rfl] at hsuf
      exact hp.ne_nil hsuf
    have hval : typeOfExt ty.value = ty := by
      rcases filenameType_append ct stem hp hs with h' | h'
      · exact absurd (hc.symm.trans h') hty
      · exact h'.symm.trans hc
    rcases eq_pdf_or_doc hty hval with rfl | rfl
    · exact ⟨stem, hstem, .inl rfl⟩
    · exact ⟨stem, hstem, .inr rfl⟩
  · intro h u hu
    have hkey : scanClass ct kbParser filename = u := by
      rcases h with hlen | hty | ⟨stem, hstem, rfl | rfl⟩
      · rw [uploadClass, if_pos hlen] at hu
        cases hu
      · exact absurd hty (uploadClass_eq_some hu).1
      · exact class_eq_of_value (.inl rfl) hs hstem hu
      · exact class_eq_of_value (.inr rfl) hs hstem hu
    exact ⟨hkey, by rw [hkey]⟩

/-- A scanned and an uploaded `report.pdf` agree. -/
theorem scan_upload_class_report_pdf : '/' ∉ ("report.pdf" : Str) ∧
    ∀ u, uploadClass .ascii "table" "report.pdf" = some u →
      scanClass .ascii "table" "report.pdf" = u ∧
        taskBranch (scanClass .ascii "table" "report.pdf").type
          (scanClass .ascii "table" "report.pdf").parserId = taskBranch u.type u.parserId :=
  ⟨by decide, (scan_upload_class_iff .ascii "table" "report.pdf" (by decide)).mpr
    (.inr (.inr ⟨"report", by decide, .inl rfl⟩))⟩

/-- A supported name with an upper-case extension: the scan records the type `PDF`, which
`queue_tasks` does not divide into pages, the upload records `pdf`. -/
theorem scan_upload_class_differ : ¬ ∀ (ct : CaseTable) (kbParser filename : Str),
    '/' ∉ filename → isSupported filename = true →
    ∀ u, uploadClass ct kbParser filename = some u →
      scanClass ct kbParser filename = u ∧
        taskBranch (scanClass ct kbParser filename).type
          (scanClass ct kbParser filename).parserId = taskBranch u.type u.parserId := by
  intro h
  have := (h .ascii "naive" "report.PDF" (by decide) (by decide)
    ⟨"pdf", "naive", "PDF"⟩ (by decide)).1
  exact absurd this (by decide)

end RagFlow
