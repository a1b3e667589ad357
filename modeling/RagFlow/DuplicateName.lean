import RagFlow.FileType
import RagFlow.JsonText
import RagFlow.Orbit

/-! # Names of duplicates

`duplicate_name` of `api/db/services/__init__.py`: a name that is taken gets a counter before its
suffix, or a higher one.

* **Counters.** `splitNameCounter` reads a counter in parentheses off the end of a stem.
* **Candidates.** `nextName` is one retry; `candidate` is the name after some retries.
* **Stems.** On the stems a retry is `nextStem`.  A stem with a line break that has no counter
  becomes longer with every retry; for all others the counter is one higher
  (`nextStem_injective`).
* **Result.** `duplicateName_spec`: the candidates differ and keep the suffix, and the first free
  one is returned. -/

namespace RagFlow.FileNames

open Py Orbit

/-! ### Paths -/

/-- `PurePath(s).name`. -/
def pathName (s : Str) : Str :=
  ((s.splitOn '/').filter (fun c => c ≠ [] ∧ c ≠ ['.'])).getLastD []

/-- The stem of a file name: what is before its suffix. -/
def pathStem (name : Str) : Str := name.take (name.length - (pathSuffix name).length)

/-! ### Counters -/

/-- The decimal digits outside ASCII are data of the interpreter. -/
structure DigitTable where
  decimal : Char → Option ℕ

namespace DigitTable
variable (dt : DigitTable)

/-- The table without any. -/
def ascii : DigitTable := ⟨fun _ => none⟩

/-- The value of a decimal digit. -/
def digit (c : Char) : Option ℕ :=
  if isAscii c then (if c.isDigit then some (c.toNat - '0'.toNat) else none) else dt.decimal c

/-- `\d`. -/
def isDecimal (c : Char) : Bool := (dt.digit c).isSome

/-- `int(s)` of decimal digits; integers have no bound. -/
def int (s : Str) : ℕ := s.foldl (fun n c => 10 * n + (dt.digit c).getD 0) 0

/-- `(\d+)\)$` at the start of `s`. -/
def matchCounter (s : Str) : Option Str :=
  let digits := s.takeWhile dt.isDecimal
  let rest := s.drop digits.length
  if digits ≠ [] ∧ (rest = [')'] ∨ rest = [')', '\n']) then some digits else none

/-- The groups of `^(.*?)\((\d+)\)$`. -/
def matchName : Str → Option (Str × Str)
  | [] => none
  | c :: s =>
      match if c = '(' then dt.matchCounter s else none with
      | some digits => some ([], digits)
      | none => if c = '\n' then none else (matchName s).map (fun x => (c :: x.1, x.2))

/-- `_split_name_counter`. -/
def splitNameCounter (filename : Str) : Str × Option ℕ :=
  match dt.matchName filename with
  | some (main, digits) => (rstrip main, some (dt.int digits))
  | none => (filename, none)

/-! ### Retries -/

/-- The counter of the next name: `counter + 1 if counter else 1`. -/
def nextCounter : Option ℕ → ℕ
  | some n => if n ≠ 0 then n + 1 else 1
  | none => 1

/-- The name of the next retry. -/
def nextName (currentName : Str) : Str :=
  let path := pathName currentName
  let (main, counter) := dt.splitNameCounter (pathStem path)
  main ++ '(' :: natText (nextCounter counter) ++ ')' :: pathSuffix path

/-- `MAX_RETRIES`. -/
def maxRetries : ℕ := 1000

/-- What `duplicate_name` raises. -/
inductive NameError where
  | keyError (message : Str)
  | runtimeError (message : Str)
deriving DecidableEq

/-- `duplicate_name` with the keyword `name`, or without it. -/
def duplicateName (queryFunc : Str → Bool) (name : Option Str) : Except NameError Str :=
  match name with
  | none => .error (.keyError "Arguments must contain 'name' key")
  | some originalName =>
      match tryFrom dt.nextName queryFunc maxRetries originalName with
      | some currentName => .ok currentName
      | none => .error (.runtimeError ("Failed to generate unique name within ".toList ++
          natText maxRetries ++ " attempts. Original: ".toList ++ originalName))

/-- The name that is tried after `n` retries. -/
def candidate (name : Str) (n : ℕ) : Str := orbit dt.nextName name n

/-! ### Reading a counter -/

section reading
variable {dt}

theorem not_isDecimal {c : Char} (hascii : isAscii c = true) (hdigit : c.isDigit = false) :
    dt.isDecimal c = false := by
  unfold isDecimal digit
  rw [if_pos hascii, hdigit]
  rfl

theorem matchCounter_eq_some {s digits : Str} : dt.matchCounter s = some digits ↔
    digits ≠ [] ∧ (∀ c ∈ digits, dt.isDecimal c = true) ∧
      ∃ tail, (tail = [] ∨ tail = ['\n']) ∧ s = digits ++ ')' :: tail := by
  unfold matchCounter
  dsimp only
  constructor
  · intro h
    split_ifs at h with hrest
    obtain ⟨hne, hrest⟩ := hrest
    cases h
    refine ⟨hne, fun c hc => List.mem_takeWhile_imp hc, ?_⟩
    have hs := List.prefix_iff_eq_append.mp
      (List.takeWhile_prefix dt.isDecimal (l := s))
    rcases hrest with hrest | hrest
    · rw [hrest] at hs
      exact ⟨[], Or.inl rfl, hs.symm⟩
    · rw [hrest] at hs
      exact ⟨['\n'], Or.inr rfl, hs.symm⟩
  · rintro ⟨hne, hdigits, tail, htail, rfl⟩
    have hclose : ¬ dt.isDecimal ')' = true :=
      Bool.eq_false_iff.mp (not_isDecimal (by decide) (by decide))
    have htake : (digits ++ ')' :: tail).takeWhile dt.isDecimal = digits := by
      rw [List.takeWhile_append_of_pos hdigits, List.takeWhile_cons_of_neg hclose, List.append_nil]
    rw [htake, List.drop_left, if_pos]
    refine ⟨hne, ?_⟩
    rcases htail with rfl | rfl
    · exact Or.inl rfl
    · exact Or.inr rfl

theorem matchName_sound {s main digits : Str} (h : dt.matchName s = some (main, digits)) :
    '\n' ∉ main ∧ (∀ c ∈ digits, dt.isDecimal c = true) ∧
      ∃ tail, (tail = [] ∨ tail = ['\n']) ∧ s = main ++ '(' :: (digits ++ ')' :: tail) := by
  induction s generalizing main with
  | nil => cases h
  | cons c s ih =>
      rw [matchName] at h
      split at h
      next digits' hcounter =>
        cases h
        split_ifs at hcounter with hc
        obtain ⟨-, hdigits, tail, htail, rfl⟩ := matchCounter_eq_some.mp hcounter
        exact ⟨List.not_mem_nil, hdigits, tail, htail, by rw [hc]; rfl⟩
      next =>
        split_ifs at h with hc
        obtain ⟨⟨main', digits'⟩, hx, hxs⟩ := Option.map_eq_some_iff.mp h
        cases hxs
        obtain ⟨hmain, hdigits, tail, htail, rfl⟩ := ih hx
        refine ⟨?_, hdigits, tail, htail, rfl⟩
        rw [List.mem_cons, not_or]
        exact ⟨fun heq => hc heq.symm, hmain⟩

/-- A counter at the end is read, whatever is before it in the line. -/
theorem matchName_counter {main digits : Str} (hmain : '\n' ∉ main) (hne : digits ≠ [])
    (hdigits : ∀ c ∈ digits, dt.isDecimal c = true) :
    dt.matchName (main ++ '(' :: (digits ++ [')'])) = some (main, digits) := by
  have hcounter := matchCounter_eq_some.mpr
    ⟨hne, hdigits, [], Or.inl rfl, rfl⟩
  induction main with
  | nil => rw [List.nil_append, matchName, if_pos rfl, hcounter]
  | cons c main ih =>
      rw [List.mem_cons, not_or] at hmain
      -- an earlier bracket is not followed by digits to the end
      have hnone : dt.matchCounter (main ++ '(' :: (digits ++ [')'])) = none := by
        rw [Option.eq_none_iff_forall_ne_some]
        intro d hd
        obtain ⟨-, hd, tail, htail, heq⟩ := matchCounter_eq_some.mp hd
        have hmem : '(' ∈ d ++ ')' :: tail := by
          rw [← heq]
          exact List.mem_append_right _ List.mem_cons_self
        rcases List.mem_append.mp hmem with hmem | hmem
        · have hopen := @not_isDecimal dt '(' (by decide) (by decide)
          exact Bool.false_ne_true (hopen.symm.trans (hd '(' hmem))
        · rcases htail with rfl | rfl
          · exact absurd hmem (by decide)
          · exact absurd hmem (by decide)
      rw [List.cons_append, matchName, hnone, ite_self, if_neg (fun heq => hmain.1 heq.symm),
        ih hmain.2]
      rfl

/-- The main part is at the start of the name. -/
theorem splitNameCounter_start (s : Str) : (dt.splitNameCounter s).1 <+: s := by
  unfold splitNameCounter
  split
  next main digits h =>
    obtain ⟨-, -, tail, -, rfl⟩ := matchName_sound h
    exact (List.rdropWhile_prefix isSpace main).trans (List.prefix_append _ _)
  next => exact List.prefix_refl s

theorem isDecimal_of_isDigit {c : Char} (h : c.isDigit = true) :
    dt.digit c = some (c.toNat - '0'.toNat) := by
  have hascii : isAscii c = true := by
    obtain ⟨-, hle⟩ := Bool.and_eq_true_iff.mp h
    have hle' : c.toNat ≤ '9'.toNat := of_decide_eq_true hle
    exact decide_eq_true (Nat.lt_of_le_of_lt hle' (by decide))
  unfold digit
  rw [if_pos hascii, if_pos h]

theorem int_natText (n : ℕ) : dt.int (natText n) = n := by
  have hfold : ∀ (s : Str) (k : ℕ), (∀ c ∈ s, c.isDigit = true) →
      s.foldl (fun n c => 10 * n + (dt.digit c).getD 0) k = Nat.ofDigitChars 10 s k := by
    intro s
    induction s with
    | nil => exact fun k _ => Nat.ofDigitChars_nil.symm
    | cons c s ih =>
        intro k hs
        rw [List.foldl_cons, isDecimal_of_isDigit (hs c List.mem_cons_self), Option.getD_some,
          ih _ (fun d hd => hs d (List.mem_cons_of_mem _ hd)), Nat.ofDigitChars_cons]
  unfold int
  rw [hfold _ _ (Json.natText_digits n).2]
  exact Nat.ofDigitChars_ten_toDigits

/-- The counter a retry writes is read again. -/
theorem splitNameCounter_counter {main : Str} (hmain : '\n' ∉ main) (n : ℕ) :
    dt.splitNameCounter (main ++ '(' :: (natText n ++ [')'])) = (rstrip main, some n) := by
  have hdigits : ∀ c ∈ natText n, dt.isDecimal c = true := by
    intro c hc
    unfold isDecimal
    rw [isDecimal_of_isDigit ((Json.natText_digits n).2 c hc)]
    rfl
  unfold splitNameCounter
  rw [matchName_counter hmain (Json.natText_digits n).1 hdigits]
  show (rstrip main, some (dt.int (natText n))) = _
  rw [int_natText]

end reading

/-! ### Stems -/

/-- A retry on the stem. -/
def nextStem (stem : Str) : Str :=
  let (main, counter) := dt.splitNameCounter stem
  main ++ '(' :: (natText (nextCounter counter) ++ [')'])

theorem nextCounter_eq (counter : Option ℕ) : nextCounter counter = counter.getD 0 + 1 := by
  cases counter with
  | none => rfl
  | some n =>
      cases n with
      | zero => rfl
      | succ n => rfl

section stems
variable {dt}

/-- Without a line break before it the counter becomes higher. -/
theorem split_nextStem {stem : Str} (h : '\n' ∉ (dt.splitNameCounter stem).1) :
    dt.splitNameCounter (dt.nextStem stem) = (rstrip (dt.splitNameCounter stem).1,
      some (((dt.splitNameCounter stem).2).getD 0 + 1)) := by
  unfold nextStem
  dsimp only
  rw [splitNameCounter_counter h, nextCounter_eq]

/-- A stem with a line break in its main part has no counter, and neither has the next one. -/
theorem nextStem_of_newline {stem : Str} (h : '\n' ∈ (dt.splitNameCounter stem).1) :
    dt.nextStem stem = stem ++ ['(', '1', ')'] ∧
      '\n' ∈ (dt.splitNameCounter (dt.nextStem stem)).1 := by
  have hsplit : dt.splitNameCounter stem = (stem, none) := by
    unfold splitNameCounter at h ⊢
    cases hmatch : dt.matchName stem with
    | none => rfl
    | some x =>
        rw [hmatch] at h
        exact absurd ((List.rdropWhile_prefix isSpace x.1).mem h) (matchName_sound hmatch).1
  have hnext : dt.nextStem stem = stem ++ ['(', '1', ')'] := by
    unfold nextStem
    rw [hsplit]
    rfl
  rw [hsplit] at h
  refine ⟨hnext, ?_⟩
  rw [hnext]
  unfold splitNameCounter
  split
  next main digits hmatch =>
    exfalso
    obtain ⟨hmain, hdigits, tail, htail, heq⟩ := matchName_sound hmatch
    have hnewline : '\n' ∈ main ++ '(' :: (digits ++ ')' :: tail) := by
      rw [← heq]
      exact List.mem_append_left _ h
    have hlast : tail = [] := by
      rcases htail with rfl | rfl
      · rfl
      · have hlast : (stem ++ ['(', '1']) ++ [')'] =
            (main ++ '(' :: (digits ++ [')'])) ++ ['\n'] := by simpa using heq
        exact absurd (List.append_inj' hlast rfl).2 (by decide)
    rcases List.mem_append.mp hnewline with hmem | hmem
    · exact hmain hmem
    · rcases List.mem_cons.mp hmem with hmem | hmem
      · exact absurd hmem (by decide)
      · rcases List.mem_append.mp hmem with hmem | hmem
        · exact Bool.false_ne_true
            ((not_isDecimal (by decide) (by decide)).symm.trans (hdigits _ hmem))
        · rw [hlast] at hmem
          exact absurd hmem (by decide)
  next => exact List.mem_append_left _ h

/-- No stem comes twice. -/
theorem nextStem_injective (stem : Str) : Function.Injective (orbit dt.nextStem stem) := by
  by_cases h : '\n' ∈ (dt.splitNameCounter stem).1
  · refine orbit_injective (p := fun s => '\n' ∈ (dt.splitNameCounter s).1) (w := List.length)
      (fun s hs => (nextStem_of_newline hs).2) (fun s hs => ?_) h
    rw [(nextStem_of_newline hs).1, List.length_append]
    exact Nat.lt_add_of_pos_right (Nat.succ_pos 2)
  · refine orbit_injective (p := fun s => '\n' ∉ (dt.splitNameCounter s).1)
      (w := fun s => (dt.splitNameCounter s).2.getD 0) (fun s hs => ?_) (fun s hs => ?_) h
    · rw [split_nextStem hs]
      exact fun hmem => hs ((List.rdropWhile_prefix isSpace _).mem hmem)
    · rw [split_nextStem hs]
      exact Nat.lt_succ_self _

end stems

/-! ### Names -/

section names
variable {dt}

/-- A file name without a separator that does not end in a dot. -/
structure IsName (name : Str) : Prop where
  no_slash : '/' ∉ name
  no_dot : name.getLast? ≠ some '.'

theorem IsName.pathName_eq {name : Str} (h : IsName name) : pathName name = name := by
  have hdot : name ≠ ['.'] := fun heq => h.no_dot (by rw [heq]; rfl)
  unfold pathName
  rw [List.splitOn_eq_singleton h.no_slash, List.filter_cons, List.filter_nil]
  split_ifs with hne
  · rfl
  · cases name with
    | nil => rfl
    | cons c s => exact absurd (decide_eq_true ⟨List.cons_ne_nil c s, hdot⟩) hne

/-- A name is its stem and its suffix; without a suffix only its first character may be a dot. -/
theorem IsName.cases {name : Str} (h : IsName name) :
    (∃ stem e, name = stem ++ '.' :: e ∧ stem ≠ [] ∧ e ≠ [] ∧ '.' ∉ e) ∨ '.' ∉ name.tail := by
  by_cases hdot : '.' ∈ name
  · obtain ⟨stem, e, rfl, he⟩ := exists_last_dot hdot
    by_cases hstem : stem = []
    · rw [hstem]
      exact Or.inr he
    · refine Or.inl ⟨stem, e, rfl, hstem, fun hnil => h.no_dot ?_, he⟩
      rw [hnil, List.getLast?_concat]
  · exact Or.inr (fun hmem => hdot (List.mem_of_mem_tail hmem))

theorem pathStem_dot {stem e : Str} (hstem : stem ≠ []) (hne : e ≠ []) (he : '.' ∉ e) :
    pathSuffix (stem ++ '.' :: e) = '.' :: e ∧ pathStem (stem ++ '.' :: e) = stem := by
  have hsuffix := pathSuffix_dot stem he
  rw [if_pos ⟨hstem, hne⟩] at hsuffix
  refine ⟨hsuffix, ?_⟩
  unfold pathStem
  rw [hsuffix, List.length_append, Nat.add_sub_cancel, List.take_left]

theorem pathStem_tail {name : Str} (h : '.' ∉ name.tail) :
    pathSuffix name = [] ∧ pathStem name = name := by
  have hsuffix : pathSuffix name = [] := by
    by_cases hdot : '.' ∈ name
    · obtain ⟨stem, e, rfl, he⟩ := exists_last_dot hdot
      cases stem with
      | nil => rw [pathSuffix_dot [] he, if_neg (fun hne => hne.1 rfl)]
      | cons c stem => exact absurd (List.mem_append_right stem List.mem_cons_self) h
    · unfold pathSuffix
      exact if_neg (fun hne => hdot hne.1)
  refine ⟨hsuffix, ?_⟩
  unfold pathStem
  rw [hsuffix, List.length_nil, Nat.sub_zero, List.take_length]

theorem nextName_eq {name : Str} (h : IsName name) :
    dt.nextName name = dt.nextStem (pathStem name) ++ pathSuffix name := by
  unfold nextName nextStem
  rw [h.pathName_eq]
  simp

/-- What a retry puts after the main part. -/
theorem not_mem_counter {c : Char} (n : ℕ) (hc : c.isDigit = false) (hopen : c ≠ '(')
    (hclose : c ≠ ')') : c ∉ '(' :: (natText n ++ [')']) := by
  rw [List.mem_cons, List.mem_append, List.mem_singleton]
  rintro (h | h | h)
  · exact hopen h
  · exact Bool.false_ne_true (hc.symm.trans ((Json.natText_digits n).2 c h))
  · exact hclose h

/-- A retry changes the stem only. -/
theorem nextName_spec {name : Str} (h : IsName name) : IsName (dt.nextName name) ∧
    pathStem (dt.nextName name) = dt.nextStem (pathStem name) ∧
    pathSuffix (dt.nextName name) = pathSuffix name := by
  obtain ⟨n, hn⟩ : ∃ n, dt.nextStem (pathStem name) =
      (dt.splitNameCounter (pathStem name)).1 ++ '(' :: (natText n ++ [')']) := ⟨_, rfl⟩
  have hmain := @splitNameCounter_start dt (pathStem name)
  have hslash := @not_mem_counter '/' n (by decide) (by decide) (by decide)
  rw [nextName_eq h]
  rcases h.cases with ⟨stem, e, rfl, hstem, hne, he⟩ | htail
  · rw [(pathStem_dot hstem hne he).1]
    rw [(pathStem_dot hstem hne he).2] at hn hmain ⊢
    have hnext : dt.nextStem stem ≠ [] := by
      rw [hn]
      exact List.append_ne_nil_of_right_ne_nil _ (List.cons_ne_nil _ _)
    refine ⟨⟨?_, ?_⟩, (pathStem_dot hnext hne he).2, (pathStem_dot hnext hne he).1⟩
    · have hno := h.no_slash
      rw [List.mem_append, not_or] at hno ⊢
      refine ⟨?_, hno.2⟩
      rw [hn, List.mem_append, not_or]
      exact ⟨fun hmem => hno.1 (hmain.mem hmem), hslash⟩
    · have hno := h.no_dot
      rw [List.getLast?_append] at hno ⊢
      cases hlast : ('.' :: e).getLast? with
      | none => exact absurd (List.getLast?_eq_none_iff.mp hlast) (List.cons_ne_nil _ _)
      | some c =>
          rw [hlast] at hno
          exact hno
  · rw [(pathStem_tail htail).1, List.append_nil]
    rw [(pathStem_tail htail).2] at hn hmain ⊢
    have htail' : '.' ∉ (dt.nextStem name).tail := by
      have hdot := @not_mem_counter '.' n (by decide) (by decide) (by decide)
      rw [hn]
      cases hm : (dt.splitNameCounter name).1 with
      | nil => exact fun hmem => hdot (List.mem_of_mem_tail hmem)
      | cons c main =>
          rw [List.cons_append, List.tail_cons, List.mem_append, not_or]
          refine ⟨fun hmem => htail ?_, hdot⟩
          obtain ⟨rest, hrest⟩ := hmain
          rw [← hrest, hm, List.cons_append, List.tail_cons]
          exact List.mem_append_left _ hmem
    refine ⟨⟨?_, ?_⟩, (pathStem_tail htail').2, (pathStem_tail htail').1⟩
    · rw [hn, List.mem_append, not_or]
      exact ⟨fun hmem => h.no_slash (hmain.mem hmem), hslash⟩
    · rw [hn, ← List.cons_append, ← List.append_assoc, List.getLast?_concat]
      decide

theorem candidate_spec {name : Str} (h : IsName name) (n : ℕ) :
    IsName (dt.candidate name n) ∧ pathSuffix (dt.candidate name n) = pathSuffix name ∧
      pathStem (dt.candidate name n) = orbit dt.nextStem (pathStem name) n := by
  have hname : IsName (dt.candidate name n) ∧
      pathSuffix (dt.candidate name n) = pathSuffix name := by
    refine @orbit_invariant Str dt.nextName name
      (fun s => IsName s ∧ pathSuffix s = pathSuffix name) (fun s hs => ?_) ⟨h, rfl⟩ n
    obtain ⟨hnext, -, hsuffix⟩ := @nextName_spec dt s hs.1
    exact ⟨hnext, hsuffix.trans hs.2⟩
  have hstem : pathStem (dt.candidate name n) = orbit dt.nextStem (pathStem name) n :=
    @orbit_map Str dt.nextName name Str pathStem dt.nextStem IsName
      (fun s hs => (@nextName_spec dt s hs).1) (fun s hs => (@nextName_spec dt s hs).2.1) h n
  exact ⟨hname.1, hname.2, hstem⟩

/-- **Duplicates.**  The names tried are all different and have the suffix of the file; the first
free one is returned, and an error is raised if all retries are used up. -/
theorem duplicateName_spec (dt : DigitTable) {name : Str} (hslash : '/' ∉ name)
    (hdot : name.getLast? ≠ some '.') :
    Function.Injective (dt.candidate name) ∧
    (∀ n, pathSuffix (pathName (dt.candidate name n)) = pathSuffix (pathName name)) ∧
    ∀ taken : Str → Bool,
      (∀ k < maxRetries, taken (dt.candidate name k) = false →
        (∀ j < k, taken (dt.candidate name j) = true) →
        dt.duplicateName taken (some name) = .ok (dt.candidate name k)) ∧
      ((∀ j < maxRetries, taken (dt.candidate name j) = true) →
        ∃ message, dt.duplicateName taken (some name) = .error (.runtimeError message)) := by
  have h : IsName name := ⟨hslash, hdot⟩
  refine ⟨fun n m heq => ?_, fun n => ?_,
    fun taken => ⟨fun k hk hfree hbefore => ?_, fun hall => ?_⟩⟩
  · have hstem := congrArg pathStem heq
    rw [(candidate_spec h n).2.2, (candidate_spec h m).2.2] at hstem
    exact nextStem_injective _ hstem
  · obtain ⟨hname, hsuffix, -⟩ := @candidate_spec dt name h n
    rw [hname.pathName_eq, h.pathName_eq, hsuffix]
  · have hfound : tryFrom dt.nextName taken maxRetries name = some (dt.candidate name k) :=
      tryFrom_eq_some hk hfree hbefore
    rw [duplicateName, hfound]
  · have hnone : tryFrom dt.nextName taken maxRetries name = none := tryFrom_eq_none hall
    rw [duplicateName, hnone]
    exact ⟨_, rfl⟩

theorem duplicate_report : Function.Injective (ascii.candidate "a (7).tar.gz".toList) ∧
    ascii.duplicateName (fun s => s == "a (7).tar.gz".toList) (some "a (7).tar.gz".toList) =
      .ok "a (7).tar(1).gz".toList := by
  obtain ⟨hdistinct, -, hresult⟩ := duplicateName_spec ascii
    (show '/' ∉ "a (7).tar.gz".toList by decide) (by decide)
  refine ⟨hdistinct, ?_⟩
  exact (hresult (fun s => s == "a (7).tar.gz".toList)).1 1 (by decide) (by decide) (by decide)

end names

end DigitTable

end RagFlow.FileNames
