import RagFlow.CanvasVars
import RagFlow.TextScan
import Mathlib.Data.List.Chain

/-! # The text of a message

A message of a canvas is a template with references to variables, such as `{sys.query}`.  The
component `Message` in `agent/component/message.py` renders it in two ways.

* **Streaming.** `_stream` cuts the template at the matches of `variable_ref_patt` and puts the
  values in their place.  The pattern also matches the spaces and braces around a reference, so that
  these are lost.
* **Otherwise** `get_kwargs` replaces every reference by a bare name, in which `@`, `:` and `.` are
  underscores; Jinja renders the result, in which there is nothing for it to do; and `_invoke`
  replaces the bare names by the values, one after the other, with regular expressions.

`message_rendering` compares both with the template in which every reference is replaced by its
value, for templates without Jinja syntax and variables that are strings.  Streaming is right
exactly if no reference is next to a space.  The other way is right if each replacement finds its
name in the right places only and the values are no replacement templates. -/

namespace RagFlow.Agent.Message

open Py Text

/-! ### References -/

/-- The letters of the classes `[a-zA-Z]`; with `re.IGNORECASE` these are four more. -/
def isLetter (ignoreCase : Bool) (c : Char) : Bool :=
  c.isAlpha || (ignoreCase && ['\u0130', '\u0131', '\u017f', '\u212a'].contains c)

/-- The character matches the lower-case letter of the pattern. -/
def matchesLetter (ignoreCase : Bool) (letter c : Char) : Bool :=
  c = letter || (ignoreCase && (c.toLower = letter || (letter = 's' && c = '\u017f')))

/-- A non-empty list of characters with `p`. -/
def someOf (p : Char → Bool) (s : Str) : Bool := !s.isEmpty && s.all p

/-- `[a-zA-Z:0-9]+@[A-Za-z0-9_.-]+`. -/
def isOutputRef (ignoreCase : Bool) (e : Str) : Bool :=
  someOf (fun c => isLetter ignoreCase c || c = ':' || c.isDigit) (e.takeWhile (· ≠ '@')) &&
    someOf (fun c => isLetter ignoreCase c || c.isDigit || ['_', '.', '-'].contains c)
      ((e.dropWhile (· ≠ '@')).drop 1)

/-- What follows the letters, if the text begins with them. -/
def afterLetters (ignoreCase : Bool) : Str → Str → Option Str
  | [], s => some s
  | _ :: _, [] => none
  | letter :: letters, c :: s =>
      if matchesLetter ignoreCase letter c then afterLetters ignoreCase letters s else none

/-- `sys\.[A-Za-z0-9_.]+`, or the same with other letters. -/
def isNamedRef (ignoreCase : Bool) (letters e : Str) : Bool :=
  match afterLetters ignoreCase letters e with
  | some ('.' :: name) =>
      someOf (fun c => isLetter ignoreCase c || c.isDigit || ['_', '.'].contains c) name
  | _ => false

/-- The group of `variable_ref_patt`. -/
def isRef (ignoreCase : Bool) (e : Str) : Bool :=
  isOutputRef ignoreCase e || isNamedRef ignoreCase ['s', 'y', 's'] e ||
    isNamedRef ignoreCase ['e', 'n', 'v'] e

/-- Match `\{(...)\}` at the beginning: the group and what follows. -/
def bracedRef? (ref : Str → Bool) : Str → Option (Str × Str)
  | '{' :: s =>
      match s.dropWhile (· ≠ '}') with
      | _ :: rest =>
          if ref (s.takeWhile (· ≠ '}')) then some (s.takeWhile (· ≠ '}'), rest) else none
      | [] => none
  | _ => none

/-- Match `variable_ref_patt`, which is `\{* *\{(...)\} *\}*`, at the beginning.  Where spaces
follow the first braces, the reference is after them; otherwise the last brace belongs to it. -/
def variableRefPatt? (ref : Str → Bool) (s : Str) : Option (Str × Str) :=
  let afterBraces := s.dropWhile (· = '{')
  let found :=
    if afterBraces.head? = some ' ' then bracedRef? ref (afterBraces.dropWhile (· = ' '))
    else if s.head? = some '{' then bracedRef? ref ('{' :: afterBraces)
    else none
  found.map (fun x => (x.1, (x.2.dropWhile (· = ' ')).dropWhile (· = '}')))

/-! ### Streaming -/

/-- What stands in place of a token, the references being given by `f`. -/
def fill (f : Str → Str) : Token Char Str → Str
  | .item c => [c]
  | .found e => f e

/-- The template as text and references. -/
def template (text : Str) : List (Token Char Str) := scan (bracedRef? (isRef false)) text

/-- The template with every reference replaced by its value. -/
def substituted (value : Str → Str) (text : Str) : Str := (template text).flatMap (fill value)

/-- `all_content` of `_stream`. -/
def stream (value : Str → Str) (text : Str) : Str :=
  (scan (variableRefPatt? (isRef false)) text).flatMap (fill value)

/-! ### Names and replacements -/

def refs (tokens : List (Token Char Str)) : List Str :=
  tokens.filterMap (fun t =>
    match t with
    | .item _ => none
    | .found e => some e)

/-- `get_input_elements_from_text`: the references and their values. -/
def getInputElementsFromText (value : Str → Str) (text : Str) : List (Str × Str) :=
  (refs (scan (variableRefPatt? (isRef true)) text)).foldl (fun d e => setEntry e (value e) d) []

/-- `re.sub("[@:.]", "_", n)`. -/
def bareName (n : Str) : Str := n.map (fun c => if ['@', ':', '.'].contains c then '_' else c)

def braced (n : Str) : Str := '{' :: (n ++ ['}'])

/-- `get_kwargs`: the script with bare names, and their values. -/
def getKwargs (value : Str → Str) (text : Str) : Str × List (Str × Str) :=
  let kwargs := getInputElementsFromText value text
  (kwargs.foldl (fun script x => replaceAll (braced x.1) (bareName x.1) script) text,
    kwargs.foldl (fun d x => setEntry (bareName x.1) x.2 d) [])

def isOctal (c : Char) : Bool := '0' ≤ c && c ≤ '7'

def octalValue (digits : Str) : ℕ := digits.foldl (fun n d => 8 * n + (d.toNat - '0'.toNat)) 0

/-- The letters of one-character escapes, with what they stand for. -/
def escapes : List (Char × Char) :=
  [('a', '\x07'), ('b', '\x08'), ('f', '\x0c'), ('n', '\n'), ('r', '\r'), ('t', '\t'),
    ('v', '\x0b'), ('\\', '\\')]

/-- A replacement of `re.sub` for a pattern without groups, `whole` being the match; it raises on a
bad escape and on a reference to a group that does not exist. -/
def expandWith (whole : Str) : ℕ → Str → Option Str
  | 0, _ => some []
  | _, [] => some []
  | fuel + 1, '\\' :: s =>
      match s with
      | [] => none
      | 'g' :: '<' :: s =>
          let name := s.takeWhile (· ≠ '>')
          match s.dropWhile (· ≠ '>') with
          | _ :: rest =>
              if someOf (· = '0') name then (expandWith whole fuel rest).map (whole ++ ·) else none
          | [] => none
      | '0' :: s =>
          let digits := (s.takeWhile isOctal).take 2
          (expandWith whole fuel (s.drop digits.length)).map (Char.ofNat (octalValue digits) :: ·)
      | c :: s =>
          if c.isDigit then
            let digits := c :: s.take 2
            if digits.length = 3 && digits.all isOctal && octalValue digits ≤ 0o377 then
              (expandWith whole fuel (s.drop 2)).map (Char.ofNat (octalValue digits) :: ·)
            else none
          else
            match escapes.lookup c with
            | some c => (expandWith whole fuel s).map (c :: ·)
            | none => if c.isAlpha then none else (expandWith whole fuel s).map ('\\' :: c :: ·)
  | fuel + 1, c :: s => (expandWith whole fuel s).map (c :: ·)

def expand (whole v : Str) : Option Str := expandWith whole v.length v

/-- `re.sub(n, v, content)` for a name. -/
def reSub (n v content : Str) : Option Str :=
  (expand n v).map (fun rep => replaceAll n rep content)

/-! ### Rendering -/

/-- `re.search(r"\{%.*%\}", content)`. -/
def hasBlock : Str → Bool
  | [] => false
  | c :: s =>
      (['{', '%'].isPrefixOf (c :: s) && contains ['%', '}'] ((s.drop 1).takeWhile (· ≠ '\n'))) ||
        hasBlock s

/-- `_is_jinjia2`. -/
def isJinjia2 (content : Str) : Bool :=
  hasBlock content || contains ['{', '{'] content || contains ['}', '}'] content

/-- The content of a message; `render` is what Jinja makes of a template, unless it raises. -/
def content (render : Str → List (Str × Str) → Option Str) (streaming : Bool) (value : Str → Str)
    (text : Str) : Option Str :=
  if streaming && !isJinjia2 text then some (stream value text)
  else do
    let (script, kwargs) := getKwargs value text
    let content ← render script kwargs
    kwargs.foldlM (fun content x => reSub x.1 x.2 content) content

/-! ### The matches -/

/-- References are not empty and have neither braces nor spaces. -/
def Proper (ref : Str → Bool) : Prop :=
  ∀ e, ref e = true → e ≠ [] ∧ ∀ c ∈ e, c ≠ '{' ∧ c ≠ '}' ∧ c ≠ ' '

section pattern
variable {ref : Str → Bool}

theorem takeWhile_dropWhile_append {e : Str} (he : '}' ∉ e) (rest : Str) :
    (e ++ '}' :: rest).takeWhile (· ≠ '}') = e ∧
      (e ++ '}' :: rest).dropWhile (· ≠ '}') = '}' :: rest := by
  induction e with
  | nil => simp
  | cons c e ih =>
      rw [List.mem_cons, not_or] at he
      obtain ⟨hc, he⟩ := he
      obtain ⟨htake, hdrop⟩ := ih he
      simp only [ne_eq, decide_not] at htake hdrop
      simp [Ne.symm hc, htake, hdrop]

theorem bracedRef?_eq_some (hproper : Proper ref) {s e rest : Str} :
    bracedRef? ref s = some (e, rest) ↔ s = braced e ++ rest ∧ ref e = true := by
  constructor
  · intro h
    unfold bracedRef? at h
    split at h
    case h_1 t =>
      split at h
      case h_1 c rest' hdrop =>
        split at h
        case isTrue href =>
          cases h
          have hc : c = '}' := by
            have hhead := List.head?_dropWhile_not (· ≠ '}') t
            rw [hdrop] at hhead
            simpa using hhead
          refine ⟨?_, href⟩
          have hsplit := List.takeWhile_append_dropWhile (p := fun c => decide (c ≠ '}')) (l := t)
          rw [hdrop, hc] at hsplit
          rw [braced, List.cons_append, List.append_assoc]
          exact congrArg _ hsplit.symm
        case isFalse => cases h
      case h_2 => cases h
    case h_2 => cases h
  · rintro ⟨rfl, href⟩
    have he : '}' ∉ e := fun hmem => ((hproper e href).2 _ hmem).2.1 rfl
    obtain ⟨htake, hdrop⟩ := takeWhile_dropWhile_append he rest
    simp only [braced, List.cons_append, List.append_assoc, List.nil_append, bracedRef?, htake,
      hdrop, href, if_true]

theorem bracedRef?_of_ne {c : Char} {s : Str} (hc : c ≠ '{') : bracedRef? ref (c :: s) = none := by
  unfold bracedRef?
  split
  · rename_i heq
    exact absurd (List.cons.inj heq).1 hc
  · rfl

/-- Braces and spaces before a reference belong to no other. -/
theorem bracedRef?_before (hproper : Proper ref) {v s : Str}
    (hv : ∀ c ∈ v, c = '{' ∨ c = ' ') (hne : v ≠ []) : bracedRef? ref (v ++ '{' :: s) = none := by
  cases v with
  | nil => exact absurd rfl hne
  | cons c v =>
      rcases hv c List.mem_cons_self with rfl | rfl
      · cases hfound : bracedRef? ref ('{' :: v ++ '{' :: s) with
        | none => rfl
        | some x =>
            exfalso
            obtain ⟨e, rest⟩ := x
            obtain ⟨hs, href⟩ := (bracedRef?_eq_some hproper).mp hfound
            obtain ⟨hne, hchars⟩ := hproper e href
            -- The reference would begin with a brace or a space.
            obtain ⟨d, e', he⟩ := List.exists_cons_of_ne_nil hne
            have hd : d = '{' ∨ d = ' ' := by
              rw [he] at hs
              cases v with
              | nil =>
                  simp [braced] at hs
                  exact Or.inl hs.1.symm
              | cons c' v =>
                  simp [braced] at hs
                  rw [← hs.1]
                  exact hv c' (by simp)
            have hd' := hchars d (by simp [he])
            rcases hd with rfl | rfl
            · exact hd'.1 rfl
            · exact hd'.2.2 rfl
      · exact bracedRef?_of_ne (by decide)

/-- So do spaces and braces after one. -/
theorem bracedRef?_after {v s : Str} (hv : ∀ c ∈ v, c = ' ' ∨ c = '}') (hne : v ≠ []) :
    bracedRef? ref (v ++ s) = none := by
  cases v with
  | nil => exact absurd rfl hne
  | cons c v =>
      refine bracedRef?_of_ne ?_
      rcases hv c List.mem_cons_self with rfl | rfl <;> decide

theorem shrinks_bracedRef? (hproper : Proper ref) : Shrinks (bracedRef? ref) := by
  intro s e rest h
  obtain ⟨rfl, -⟩ := (bracedRef?_eq_some hproper).mp h
  simp [braced]
  omega

/-- The reference that `variable_ref_patt` matches, with what it swallows around it. -/
structure Swallows (ref : Str → Bool) (s pre e post rest : Str) : Prop where
  eq : s = pre ++ (braced e ++ (post ++ rest))
  ref : ref e = true
  pre_chars : ∀ c ∈ pre, c = '{' ∨ c = ' '
  post_chars : ∀ c ∈ post, c = ' ' ∨ c = '}'
  /-- It swallows all spaces. -/
  maximal : post = [] → rest.head? ≠ some ' '

theorem mem_takeWhile_eq {x : Char} {s : Str} {c : Char} (h : c ∈ s.takeWhile (· = x)) : c = x := by
  simpa using List.mem_takeWhile_imp h

theorem head?_dropWhile_ne (x : Char) (s : Str) : (s.dropWhile (· = x)).head? ≠ some x := by
  intro h
  have hhead := List.head?_dropWhile_not (· = x) s
  rw [h] at hhead
  simp at hhead

theorem swallows_of_found (hproper : Proper ref) {s pre u e rest : Str} (hs : s = pre ++ u)
    (hpre : ∀ c ∈ pre, c = '{' ∨ c = ' ') (hfound : bracedRef? ref u = some (e, rest)) :
    ∃ post, Swallows ref s pre e post ((rest.dropWhile (· = ' ')).dropWhile (· = '}')) := by
  obtain ⟨rfl, href⟩ := (bracedRef?_eq_some hproper).mp hfound
  refine ⟨rest.takeWhile (· = ' ') ++ (rest.dropWhile (· = ' ')).takeWhile (· = '}'), ?_⟩
  refine ⟨?_, href, hpre, ?_, ?_⟩
  · rw [hs, List.append_assoc (rest.takeWhile _), List.takeWhile_append_dropWhile,
      List.takeWhile_append_dropWhile]
  · intro c hc
    rcases List.mem_append.mp hc with hc | hc
    · exact Or.inl (mem_takeWhile_eq hc)
    · exact Or.inr (mem_takeWhile_eq hc)
  · intro hnil
    obtain ⟨-, hbraces⟩ := List.append_eq_nil_iff.mp hnil
    have hkeep : (rest.dropWhile (· = ' ')).dropWhile (· = '}') = rest.dropWhile (· = ' ') := by
      have hsplit := List.takeWhile_append_dropWhile (p := fun c => decide (c = '}'))
        (l := rest.dropWhile (· = ' '))
      rw [hbraces] at hsplit
      exact hsplit
    rw [hkeep]
    exact head?_dropWhile_ne ' ' rest

/-- What a match of `variable_ref_patt` is made of. -/
theorem swallows_of_variableRefPatt? (hproper : Proper ref) {s e rest : Str}
    (h : variableRefPatt? ref s = some (e, rest)) : ∃ pre post, Swallows ref s pre e post rest := by
  unfold variableRefPatt? at h
  obtain ⟨⟨e', rest'⟩, hfound, heq⟩ := Option.map_eq_some_iff.mp h
  cases heq
  have hs := List.takeWhile_append_dropWhile (p := fun c => decide (c = '{')) (l := s)
  split at hfound
  · refine ⟨s.takeWhile (· = '{') ++ (s.dropWhile (· = '{')).takeWhile (· = ' '), ?_⟩
    refine swallows_of_found hproper ?_ ?_ hfound
    · rw [List.append_assoc, List.takeWhile_append_dropWhile]
      exact hs.symm
    · intro c hc
      rcases List.mem_append.mp hc with hc | hc
      · exact Or.inl (mem_takeWhile_eq hc)
      · exact Or.inr (mem_takeWhile_eq hc)
  · split at hfound
    case isTrue hhead =>
      have hne : s.takeWhile (· = '{') ≠ [] := by
        cases s with
        | nil => cases hhead
        | cons c s =>
            cases hhead
            simp
      have hlast : (s.takeWhile (· = '{')).getLast hne = '{' :=
        mem_takeWhile_eq (List.getLast_mem hne)
      refine ⟨(s.takeWhile (· = '{')).dropLast, swallows_of_found hproper ?_ ?_ hfound⟩
      · have hsplit := List.dropLast_append_getLast hne
        rw [hlast] at hsplit
        rw [← List.singleton_append, ← List.append_assoc, hsplit]
        exact hs.symm
      · intro c hc
        exact Or.inl (mem_takeWhile_eq (List.mem_of_mem_dropLast hc))
    case isFalse => cases hfound

theorem shrinks_variableRefPatt? (hproper : Proper ref) : Shrinks (variableRefPatt? ref) := by
  intro s e rest h
  obtain ⟨pre, post, hsw⟩ := swallows_of_variableRefPatt? hproper h
  rw [hsw.eq]
  simp [braced]
  omega

theorem dropWhile_of_head? {x : Char} {s : Str} (h : s.head? ≠ some x) :
    s.dropWhile (· = x) = s := by
  cases s with
  | nil => rfl
  | cons c s =>
      have hc : c ≠ x := fun heq => h (by rw [heq]; rfl)
      simp [hc]

/-- Where a reference begins, perhaps after a space, the pattern matches. -/
theorem variableRefPatt?_braced (hproper : Proper ref) {e rest : Str} (href : ref e = true) :
    variableRefPatt? ref (braced e ++ rest) ≠ none ∧
      variableRefPatt? ref (' ' :: (braced e ++ rest)) ≠ none := by
  obtain ⟨hne, hchars⟩ := hproper e href
  obtain ⟨d, e', he⟩ := List.exists_cons_of_ne_nil hne
  have hd := hchars d (by simp [he])
  have hfound := (bracedRef?_eq_some hproper (s := braced e ++ rest)).mpr ⟨rfl, href⟩
  have hcons : braced e ++ rest = '{' :: (e ++ '}' :: rest) := by simp [braced]
  constructor
  · have hdrop : (braced e ++ rest).dropWhile (· = '{') = e ++ '}' :: rest := by
      rw [hcons, List.dropWhile_cons, if_pos (by simp)]
      refine dropWhile_of_head? ?_
      simp [he, hd.1]
    dsimp only [variableRefPatt?]
    rw [hdrop, if_neg (by simp [he, hd.2.2]), if_pos (by simp [hcons]), ← hcons, hfound]
    simp
  · have hdrop : (' ' :: (braced e ++ rest)).dropWhile (· = '{') = ' ' :: (braced e ++ rest) := by
      simp
    have hdrop' : (' ' :: (braced e ++ rest)).dropWhile (· = ' ') = braced e ++ rest := by
      rw [List.dropWhile_cons, if_pos (by simp)]
      refine dropWhile_of_head? ?_
      simp [hcons]
    dsimp only [variableRefPatt?]
    rw [hdrop, if_pos (by simp), hdrop', hfound]
    simp

/-- The tokens of the template around a match. -/
theorem Swallows.scan_eq (hproper : Proper ref) {s pre e post rest : Str}
    (h : Swallows ref s pre e post rest) :
    scan (bracedRef? ref) s =
      pre.map .item ++ .found e :: (post.map .item ++ scan (bracedRef? ref) rest) := by
  rw [h.eq, scan_append, scan_found (shrinks_bracedRef? hproper)
    ((bracedRef?_eq_some hproper).mpr ⟨rfl, h.ref⟩), scan_append]
  · intro u v huv hne
    refine bracedRef?_after (fun c hc => h.post_chars c ?_) hne
    rw [huv]
    exact List.mem_append_right _ hc
  · intro u v huv hne
    rw [braced, List.cons_append]
    refine bracedRef?_before hproper (fun c hc => h.pre_chars c ?_) hne
    rw [huv]
    exact List.mem_append_right _ hc

/-- Where the pattern does not match, no reference begins. -/
theorem bracedRef?_eq_none (hproper : Proper ref) {s : Str} (h : variableRefPatt? ref s = none) :
    bracedRef? ref s = none := by
  cases hfound : bracedRef? ref s with
  | none => rfl
  | some x =>
      obtain ⟨e, rest⟩ := x
      obtain ⟨hs, href⟩ := (bracedRef?_eq_some hproper).mp hfound
      rw [hs] at h
      exact absurd h (variableRefPatt?_braced hproper href).1

/-- Induction along the two scans: either the pattern swallows a reference, or both keep a
character. -/
theorem patt_induction (hproper : Proper ref) {motive : Str → Prop} (nil : motive [])
    (swallow : ∀ s pre e post rest, Swallows ref s pre e post rest →
      scan (variableRefPatt? ref) s = .found e :: scan (variableRefPatt? ref) rest →
      motive rest → motive s)
    (keep : ∀ c s, variableRefPatt? ref (c :: s) = none →
      scan (variableRefPatt? ref) (c :: s) = .item c :: scan (variableRefPatt? ref) s →
      scan (bracedRef? ref) (c :: s) = .item c :: scan (bracedRef? ref) s →
      motive s → motive (c :: s)) (s : Str) : motive s := by
  refine scan_induction (shrinks_variableRefPatt? hproper) nil ?_ ?_ s
  · intro s e rest hmatch ih
    obtain ⟨pre, post, hsw⟩ := swallows_of_variableRefPatt? hproper hmatch
    exact swallow s pre e post rest hsw (scan_found (shrinks_variableRefPatt? hproper) hmatch) ih
  · intro c s hmatch ih
    exact keep c s hmatch (scan_item hmatch) (scan_item (bracedRef?_eq_none hproper hmatch)) ih

theorem refs_append (xs ys : List (Token Char Str)) : refs (xs ++ ys) = refs xs ++ refs ys :=
  List.filterMap_append

theorem refs_items (s : Str) : refs (s.map .item) = [] := by
  rw [refs, List.filterMap_eq_nil_iff]
  intro t ht
  obtain ⟨c, -, rfl⟩ := List.mem_map.mp ht
  rfl

/-- Both scans find the same references. -/
theorem refs_scan_eq (hproper : Proper ref) (s : Str) :
    refs (scan (variableRefPatt? ref) s) = refs (scan (bracedRef? ref) s) := by
  induction s using patt_induction hproper with
  | nil => rfl
  | swallow s pre e post rest hsw hpatt ih =>
      rw [hpatt, hsw.scan_eq hproper, refs_append, refs_items, List.nil_append]
      show e :: refs _ = e :: refs (post.map .item ++ _)
      rw [refs_append, refs_items, List.nil_append, ih]
  | keep c s hnone hpatt hbraced ih =>
      rw [hpatt, hbraced]
      exact ih

/-! ### References next to spaces -/

/-- No reference is next to a space. -/
def Isolated (ref : Str → Bool) (s : Str) : Prop :=
  ∀ pre e post, s = pre ++ (braced e ++ post) → ref e = true →
    pre.getLast? ≠ some ' ' ∧ post.head? ≠ some ' '

theorem Isolated.of_append {u s : Str} (h : Isolated ref (u ++ s)) : Isolated ref s := by
  intro pre e post hs href
  obtain ⟨hpre, hpost⟩ := h (u ++ pre) e post (by rw [hs, List.append_assoc]) href
  refine ⟨fun hlast => hpre ?_, hpost⟩
  rw [List.getLast?_append_of_ne_nil _ (by rintro rfl; cases hlast)]
  exact hlast

/-- A text that begins with a reference: another reference is after it. -/
theorem braced_split (hproper : Proper ref) {e e' rest pre post : Str} (href : ref e = true)
    (href' : ref e' = true) (h : braced e ++ rest = pre ++ (braced e' ++ post)) :
    (pre = [] ∧ post = rest) ∨ ∃ q, pre = braced e ++ q ∧ rest = q ++ (braced e' ++ post) := by
  have hchars := (hproper e href).2
  cases pre with
  | nil =>
      refine Or.inl ⟨rfl, ?_⟩
      have hfirst := (bracedRef?_eq_some hproper (s := braced e ++ rest)).mpr ⟨rfl, href⟩
      have hsecond := (bracedRef?_eq_some hproper (s := braced e ++ rest)).mpr ⟨h, href'⟩
      rw [hfirst] at hsecond
      exact (Prod.mk.inj (Option.some.inj hsecond)).2.symm
  | cons c pre =>
      refine Or.inr ?_
      simp only [braced, List.cons_append, List.append_assoc, List.nil_append,
        List.cons.injEq] at h
      obtain ⟨rfl, h⟩ := h
      rcases List.append_eq_append_iff.mp h with ⟨w, hpre, hw⟩ | ⟨w, he, hw⟩
      · cases w with
        | nil => simp at hw
        | cons d q =>
            obtain ⟨rfl, hrest⟩ := List.cons.inj hw
            refine ⟨q, by simp [braced, hpre], ?_⟩
            rw [hrest]
            simp [braced]
      · cases w with
        | nil => simp at hw
        | cons d w =>
            obtain ⟨rfl, -⟩ := List.cons.inj hw
            exact absurd rfl (hchars '{' (by simp [he])).1

theorem getLast?_braced (e : Str) : (braced e).getLast? = some '}' := by
  rw [braced, ← List.cons_append, List.getLast?_concat]

/-- A reference that is isolated leaves the rest isolated. -/
theorem isolated_braced (hproper : Proper ref) {e rest : Str} (href : ref e = true)
    (hrest : Isolated ref rest) (hspace : rest.head? ≠ some ' ') :
    Isolated ref (braced e ++ rest) := by
  intro pre e' post hs href'
  rcases braced_split hproper href href' hs with ⟨rfl, rfl⟩ | ⟨q, rfl, hq⟩
  · exact ⟨by simp, hspace⟩
  · obtain ⟨hpre, hpost⟩ := hrest q e' post hq href'
    refine ⟨fun hlast => ?_, hpost⟩
    cases q with
    | nil =>
        rw [List.append_nil, getLast?_braced] at hlast
        cases hlast
    | cons c q =>
        rw [List.getLast?_append_of_ne_nil _ (List.cons_ne_nil _ _)] at hlast
        exact hpre hlast

theorem flatMap_items (f : Str → Str) (s : Str) : (s.map .item).flatMap (fill f) = s := by
  induction s with
  | nil => rfl
  | cons c s ih => simpa [fill] using ih

/-- A character before which the pattern does not match keeps the references isolated. -/
theorem isolated_cons (hproper : Proper ref) {c : Char} {s : Str}
    (hnone : variableRefPatt? ref (c :: s) = none) (h : Isolated ref s) :
    Isolated ref (c :: s) := by
  intro pre e post hs href
  cases pre with
  | nil =>
      rw [hs] at hnone
      exact absurd hnone (variableRefPatt?_braced hproper href).1
  | cons d pre =>
      obtain ⟨rfl, htail⟩ := List.cons.inj hs
      obtain ⟨hpre, hpost⟩ := h pre e post htail href
      refine ⟨fun hlast => ?_, hpost⟩
      cases pre with
      | nil =>
          cases hlast
          rw [htail] at hnone
          exact absurd hnone (variableRefPatt?_braced hproper href).2
      | cons d' pre =>
          rw [List.getLast?_cons_cons] at hlast
          exact hpre hlast

/-- Streaming loses what is swallowed: its text is as long as the template with the values only if
no reference is next to a space. -/
theorem length_scan (hproper : Proper ref) (value : Str → Str) (s : Str) :
    ((scan (variableRefPatt? ref) s).flatMap (fill value)).length ≤
        ((scan (bracedRef? ref) s).flatMap (fill value)).length ∧
      (((scan (variableRefPatt? ref) s).flatMap (fill value)).length =
        ((scan (bracedRef? ref) s).flatMap (fill value)).length → Isolated ref s) := by
  induction s using patt_induction hproper with
  | nil =>
      refine ⟨Nat.le_refl _, fun _ pre e post h => ?_⟩
      simp [braced] at h
  | swallow s pre e post rest hsw hpatt ih =>
      obtain ⟨hle, hiso⟩ := ih
      rw [hpatt, hsw.scan_eq hproper]
      simp only [List.flatMap_append, List.flatMap_cons, flatMap_items, List.length_append]
      refine ⟨by omega, fun heq => ?_⟩
      have hpre : pre = [] := List.length_eq_zero_iff.mp (by omega)
      have hpost : post = [] := List.length_eq_zero_iff.mp (by omega)
      rw [hsw.eq, hpre, hpost]
      exact isolated_braced hproper hsw.ref (hiso (by omega)) (hsw.maximal hpost)
  | keep c s hnone hpatt hbraced ih =>
      obtain ⟨hle, hiso⟩ := ih
      rw [hpatt, hbraced]
      simp only [List.flatMap_cons, List.length_append]
      exact ⟨by omega, fun heq => isolated_cons hproper hnone (hiso (by omega))⟩

/-- What the pattern swallows around a reference that is next to no space are braces, of which
there are then two in a row. -/
theorem Swallows.eq_nil {s pre e post rest : Str} (h : Swallows ref s pre e post rest)
    (hiso : Isolated ref s) (hopen : ¬ ['{', '{'] <:+: s) (hclose : ¬ ['}', '}'] <:+: s) :
    pre = [] ∧ post = [] := by
  obtain ⟨hlast, hhead⟩ := hiso pre e (post ++ rest) h.eq h.ref
  constructor
  · rcases List.eq_nil_or_concat pre with hnil | ⟨pre', d, hd⟩
    · exact hnil
    · rcases h.pre_chars d (by simp [hd]) with rfl | rfl
      · refine absurd ?_ hopen
        rw [h.eq, hd]
        exact ⟨pre', e ++ ('}' :: (post ++ rest)), by simp [braced]⟩
      · exact absurd (by simp [hd]) hlast
  · cases post with
    | nil => rfl
    | cons d post =>
        rcases h.post_chars d List.mem_cons_self with rfl | rfl
        · exact absurd rfl hhead
        · refine absurd ?_ hclose
          rw [h.eq]
          exact ⟨pre ++ '{' :: e, post ++ rest, by simp [braced]⟩

/-- Where no reference is next to a space or a brace, the pattern matches the references only. -/
theorem scan_eq_of_isolated (hproper : Proper ref) (s : Str) :
    Isolated ref s → ¬ ['{', '{'] <:+: s → ¬ ['}', '}'] <:+: s →
      scan (variableRefPatt? ref) s = scan (bracedRef? ref) s := by
  induction s using patt_induction hproper with
  | nil => exact fun _ _ _ => rfl
  | swallow s pre e post rest hsw hpatt ih =>
      intro hiso hopen hclose
      obtain ⟨rfl, rfl⟩ := hsw.eq_nil hiso hopen hclose
      have hs : s = braced e ++ rest := hsw.eq
      have hsub : rest <:+: s := ⟨braced e, [], by rw [hs, List.append_nil]⟩
      have ih := ih (Isolated.of_append (u := braced e) (hs ▸ hiso))
        (fun h => hopen (h.trans hsub)) (fun h => hclose (h.trans hsub))
      rw [hpatt, hsw.scan_eq hproper, ih]
      rfl
  | keep c s hnone hpatt hbraced ih =>
      intro hiso hopen hclose
      have hsub : s <:+: c :: s := ⟨[c], [], by simp⟩
      rw [hpatt, hbraced, ih (Isolated.of_append (u := [c]) hiso)
        (fun h => hopen (h.trans hsub)) (fun h => hclose (h.trans hsub))]

end pattern

/-! ### The characters of references -/

/-- The characters that occur in references. -/
def refChar (c : Char) : Bool :=
  isLetter true c || c.isDigit || [':', '@', '_', '.', '-'].contains c

theorem someOf_iff {p : Char → Bool} {s : Str} :
    someOf p s = true ↔ s ≠ [] ∧ ∀ c ∈ s, p c = true := by
  simp [someOf]

theorem isLetter_ignoreCase {ignoreCase : Bool} {c : Char} (h : isLetter ignoreCase c = true) :
    isLetter true c = true := by
  unfold isLetter at h ⊢
  simp only [Bool.or_eq_true, Bool.and_eq_true] at h ⊢
  exact h.imp_right (fun h => ⟨trivial, h.2⟩)

theorem isLetter_of_matchesLetter {ignoreCase : Bool} {letter c : Char} (hletter : letter.isAlpha)
    (h : matchesLetter ignoreCase letter c = true) : isLetter true c = true := by
  have halpha : c.toLower = letter → c.isAlpha = true := by
    intro hlower
    by_cases hupper : c.isUpper = true
    · show (c.isUpper || c.isLower) = true
      rw [hupper, Bool.true_or]
    · have hsame : c.toLower = c := dif_neg (fun hrange => hupper (decide_eq_true hrange))
      rw [← hsame, hlower]
      exact hletter
  simp only [matchesLetter, Bool.or_eq_true, Bool.and_eq_true, decide_eq_true_eq] at h
  simp only [isLetter, Bool.or_eq_true, Bool.and_eq_true]
  rcases h with rfl | ⟨-, hlower | ⟨-, rfl⟩⟩
  · exact Or.inl hletter
  · exact Or.inl (halpha hlower)
  · exact Or.inr ⟨trivial, by decide⟩

theorem afterLetters_eq_some {ignoreCase : Bool} {letters : Str}
    (hletters : ∀ l ∈ letters, l.isAlpha = true) :
    ∀ {s rest : Str}, afterLetters ignoreCase letters s = some rest →
      ∃ first, s = first ++ rest ∧ ∀ c ∈ first, isLetter true c = true := by
  induction letters with
  | nil =>
      intro s rest h
      cases h
      exact ⟨[], rfl, by simp⟩
  | cons letter letters ih =>
      intro s rest h
      cases s with
      | nil => cases h
      | cons c s =>
          unfold afterLetters at h
          split at h
          case isTrue hc =>
            obtain ⟨first, rfl, hfirst⟩ := ih (fun l hl => hletters l (List.mem_cons_of_mem _ hl)) h
            refine ⟨c :: first, rfl, ?_⟩
            intro d hd
            rcases List.mem_cons.mp hd with rfl | hd
            · exact isLetter_of_matchesLetter (hletters letter List.mem_cons_self) hc
            · exact hfirst d hd
          case isFalse => cases h

theorem isNamedRef_chars {ignoreCase : Bool} {letters e : Str}
    (hletters : ∀ l ∈ letters, l.isAlpha = true) (h : isNamedRef ignoreCase letters e = true) :
    e ≠ [] ∧ ∀ c ∈ e, refChar c = true := by
  unfold isNamedRef at h
  split at h
  case h_1 name hafter =>
    obtain ⟨first, rfl, hfirst⟩ := afterLetters_eq_some hletters hafter
    refine ⟨by simp, ?_⟩
    intro c hc
    rcases List.mem_append.mp hc with hc | hc
    · simp [refChar, hfirst c hc]
    · rcases List.mem_cons.mp hc with rfl | hc
      · rfl
      · have hname := (someOf_iff.mp h).2 c hc
        simp only [Bool.or_eq_true] at hname
        rcases hname with (hletter | hdigit) | hother
        · simp [refChar, isLetter_ignoreCase hletter]
        · simp [refChar, hdigit]
        · simp at hother
          rcases hother with rfl | rfl <;> rfl
  case h_2 => cases h

theorem isOutputRef_chars {ignoreCase : Bool} {e : Str} (h : isOutputRef ignoreCase e = true) :
    e ≠ [] ∧ ∀ c ∈ e, refChar c = true := by
  unfold isOutputRef at h
  rw [Bool.and_eq_true, someOf_iff, someOf_iff] at h
  obtain ⟨⟨-, hcpn⟩, hne, hvar⟩ := h
  have hsplit := List.takeWhile_append_dropWhile (p := fun c => decide (c ≠ '@')) (l := e)
  cases hdrop : e.dropWhile (· ≠ '@') with
  | nil =>
      rw [hdrop] at hne
      exact absurd rfl hne
  | cons d var =>
      have hd : d = '@' := by
        have hhead := List.head?_dropWhile_not (· ≠ '@') e
        rw [hdrop] at hhead
        simpa using hhead
      rw [hdrop] at hsplit hvar
      refine ⟨by rintro rfl; simp at hdrop, ?_⟩
      intro c hc
      rw [← hsplit] at hc
      rcases List.mem_append.mp hc with hc | hc
      · have hc := hcpn c hc
        simp only [Bool.or_eq_true, decide_eq_true_eq] at hc
        rcases hc with (hletter | rfl) | hdigit
        · simp [refChar, isLetter_ignoreCase hletter]
        · rfl
        · simp [refChar, hdigit]
      · rcases List.mem_cons.mp hc with rfl | hc
        · rw [hd]
          rfl
        · have hc := hvar c (by simpa using hc)
          simp only [Bool.or_eq_true] at hc
          rcases hc with (hletter | hdigit) | hother
          · simp [refChar, isLetter_ignoreCase hletter]
          · simp [refChar, hdigit]
          · simp at hother
            rcases hother with rfl | rfl | rfl <;> rfl

theorem isRef_chars {ignoreCase : Bool} {e : Str} (h : isRef ignoreCase e = true) :
    e ≠ [] ∧ ∀ c ∈ e, refChar c = true := by
  simp only [isRef, Bool.or_eq_true] at h
  rcases h with (h | h) | h
  · exact isOutputRef_chars h
  · exact isNamedRef_chars (by simp) h
  · exact isNamedRef_chars (by simp) h

theorem ne_of_refChar {c d : Char} (hc : refChar c = true) (hd : refChar d = false) : c ≠ d := by
  rintro rfl
  rw [hc] at hd
  cases hd

theorem proper_isRef (ignoreCase : Bool) : Proper (isRef ignoreCase) := by
  intro e he
  obtain ⟨hne, hchars⟩ := isRef_chars he
  refine ⟨hne, fun c hc => ?_⟩
  exact ⟨ne_of_refChar (hchars c hc) (by decide), ne_of_refChar (hchars c hc) (by decide),
    ne_of_refChar (hchars c hc) (by decide)⟩

/-! ### The template and its references -/

theorem fill_braced (text : Str) : (template text).flatMap (fill braced) = text := by
  have hshrinks := shrinks_bracedRef? (proper_isRef false)
  unfold template
  induction text using scan_induction hshrinks with
  | nil => rfl
  | found s e rest hmatch ih =>
      rw [scan_found hshrinks hmatch, List.flatMap_cons, ih, fill]
      exact ((bracedRef?_eq_some (proper_isRef false)).mp hmatch).1.symm
  | item c s hmatch ih => rw [scan_item hmatch, List.flatMap_cons, ih, fill, List.singleton_append]

/-- Keep the first of equal references. -/
def addOnce (es : List Str) (e : Str) : List Str := if e ∈ es then es else es ++ [e]

/-- The references of a template in the order of their first occurrences. -/
def names (text : Str) : List Str := (refs (template text)).foldl addOnce []

theorem setEntry_of_not_mem {k v : Str} {d : List (Str × Str)} (h : k ∉ d.map Prod.fst) :
    setEntry k v d = d ++ [(k, v)] := by
  induction d with
  | nil => rfl
  | cons x d ih =>
      rw [List.map_cons, List.mem_cons, not_or] at h
      unfold setEntry
      rw [if_neg (Ne.symm h.1), ih h.2, List.cons_append]

theorem setEntry_map {value : Str → Str} {e : Str} (es : List Str) :
    setEntry e (value e) (es.map (fun e => (e, value e))) =
      (addOnce es e).map (fun e => (e, value e)) := by
  unfold addOnce
  by_cases he : e ∈ es
  · rw [if_pos he]
    induction es with
    | nil => cases he
    | cons x es ih =>
        rw [List.map_cons, setEntry]
        by_cases hx : x = e
        · rw [if_pos hx, hx]
        · have hmem : e ∈ es := (List.mem_cons.mp he).resolve_left (Ne.symm hx)
          rw [if_neg hx, ih hmem]
  · rw [if_neg he, setEntry_of_not_mem (by simpa using he), List.map_append]
    rfl

theorem foldl_setEntry (value : Str → Str) (xs : List Str) :
    ∀ es : List Str, xs.foldl (fun d e => setEntry e (value e) d) (es.map (fun e => (e, value e))) =
      (xs.foldl addOnce es).map (fun e => (e, value e)) := by
  induction xs with
  | nil => exact fun es => rfl
  | cons x xs ih =>
      intro es
      rw [List.foldl_cons, setEntry_map, ih, List.foldl_cons]

theorem foldl_addOnce (xs : List Str) :
    ∀ es : List Str, es.Nodup → (xs.foldl addOnce es).Nodup ∧
      ∀ e, e ∈ xs.foldl addOnce es ↔ e ∈ es ∨ e ∈ xs := by
  induction xs with
  | nil => exact fun es hes => ⟨hes, by simp⟩
  | cons x xs ih =>
      intro es hes
      rw [List.foldl_cons]
      by_cases hx : x ∈ es
      · rw [addOnce, if_pos hx]
        obtain ⟨hnodup, hmem⟩ := ih es hes
        refine ⟨hnodup, fun e => ?_⟩
        rw [hmem, List.mem_cons]
        grind
      · rw [addOnce, if_neg hx]
        obtain ⟨hnodup, hmem⟩ := ih (es ++ [x]) (by
          rw [List.nodup_append]
          refine ⟨hes, List.nodup_singleton x, ?_⟩
          rintro a ha b hb rfl
          exact hx (List.mem_singleton.mp hb ▸ ha))
        refine ⟨hnodup, fun e => ?_⟩
        rw [hmem, List.mem_append, List.mem_singleton, List.mem_cons, or_assoc]

theorem nodup_names (text : Str) : (names text).Nodup := (foldl_addOnce _ [] List.nodup_nil).1

theorem mem_refs {tokens : List (Token Char Str)} {e : Str} :
    e ∈ refs tokens ↔ .found e ∈ tokens := by
  unfold refs
  rw [List.mem_filterMap]
  constructor
  · rintro ⟨t, ht, he⟩
    cases t with
    | item c => cases he
    | found e' =>
        cases he
        exact ht
  · intro h
    exact ⟨_, h, rfl⟩

theorem mem_names {text e : Str} : e ∈ names text ↔ .found e ∈ template text := by
  rw [names, (foldl_addOnce _ [] List.nodup_nil).2, mem_refs]
  simp

/-! ### One replacement after the other -/

/-- The references in `done` have been replaced. -/
def swapped (old new : Str → Str) (done : List Str) (e : Str) : Str :=
  if e ∈ done then new e else old e

/-- Each replacement finds what it looks for at the references it is for only, when those before it
have been made. -/
def Separated (old new : Str → Str) (text : Str) : Prop :=
  ∀ done e rest, names text = done ++ e :: rest →
    FoundOnlyAt (old e) (fill (swapped old new done)) (· = .found e) (template text)

theorem separated_iff {old new : Str → Str} {text : Str} : Separated old new text ↔
    ∀ i (h : i < (names text).length), FoundOnlyAt (old (names text)[i])
      (fill (swapped old new ((names text).take i))) (· = .found (names text)[i])
      (template text) := by
  constructor
  · intro h i hi
    refine h _ _ ((names text).drop (i + 1)) ?_
    rw [List.getElem_cons_drop, List.take_append_drop]
  · intro h done e rest hnames
    have hat := h done.length (by simp [hnames])
    simpa [hnames] using hat

instance Separated.decidable (old new : Str → Str) (text : Str) :
    Decidable (Separated old new text) :=
  decidable_of_iff _ separated_iff.symm

section replacements
variable {old new : Str → Str} {text : Str}

theorem replaceAll_swapped {done : List Str} {e : Str} (hold : old e ≠ []) (he : e ∉ done)
    (hfound : FoundOnlyAt (old e) (fill (swapped old new done)) (· = .found e) (template text)) :
    replaceAll (old e) (new e) ((template text).flatMap (fill (swapped old new done))) =
      (template text).flatMap (fill (swapped old new (done ++ [e]))) := by
  rw [replaceAll_flatMap hold ?_ hfound]
  · congr 1
    funext t
    cases t with
    | item c => simp [fill]
    | found e' =>
        by_cases heq : e' = e
        · simp [fill, swapped, heq]
        · simp [fill, swapped, heq]
  · rintro t - rfl
    simp [fill, swapped, he]

theorem foldl_replaceAll (hold : ∀ e ∈ names text, old e ≠ []) (hsep : Separated old new text)
    (rest : List Str) :
    ∀ done, names text = done ++ rest →
      rest.foldl (fun s e => replaceAll (old e) (new e) s)
        ((template text).flatMap (fill (swapped old new done))) =
        (template text).flatMap (fill (swapped old new (names text))) := by
  induction rest with
  | nil =>
      intro done hnames
      rw [hnames, List.append_nil]
      rfl
  | cons e rest ih =>
      intro done hnames
      have hnodup := nodup_names text
      rw [hnames, List.nodup_append] at hnodup
      have he : e ∉ done := fun hmem => hnodup.2.2 e hmem e List.mem_cons_self rfl
      have hne : old e ≠ [] := hold e (by simp [hnames])
      rw [List.foldl_cons, replaceAll_swapped hne he (hsep done e rest hnames)]
      exact ih (done ++ [e]) (by rw [hnames, List.append_assoc, List.singleton_append])

/-- At the end all references have been replaced. -/
theorem fill_swapped_names :
    (template text).flatMap (fill (swapped old new (names text))) =
      (template text).flatMap (fill new) := by
  rw [List.flatMap_def, List.flatMap_def]
  refine congrArg List.flatten (List.map_congr_left (fun t ht => ?_))
  cases t with
  | item c => rfl
  | found e => simp [fill, swapped, mem_names.mpr ht]

theorem swapped_nil : swapped old new [] = old := by
  funext e
  simp [swapped]

/-- All replacements together. -/
theorem foldl_replaceAll_names (hold : ∀ e ∈ names text, old e ≠ [])
    (hsep : Separated old new text) :
    (names text).foldl (fun s e => replaceAll (old e) (new e) s)
      ((template text).flatMap (fill old)) = (template text).flatMap (fill new) := by
  have hall := foldl_replaceAll hold hsep (names text) [] rfl
  rw [swapped_nil, fill_swapped_names] at hall
  exact hall

theorem pairwise_of_split {l : List Str} {R : Str → Str → Prop}
    (h : ∀ done e rest, l = done ++ e :: rest → ∀ e' ∈ rest, R e e') : l.Pairwise R := by
  induction l with
  | nil => exact List.Pairwise.nil
  | cons x l ih =>
      refine List.Pairwise.cons (fun e' he' => h [] x l rfl e' he') (ih ?_)
      intro done e rest hl
      exact h (x :: done) e rest (by rw [hl, List.cons_append])

/-- What is looked for is different for different references. -/
theorem nodup_map_old (hold : ∀ e ∈ names text, old e ≠ []) (hsep : Separated old new text) :
    ((names text).map old).Nodup := by
  rw [List.Nodup, List.pairwise_map]
  refine pairwise_of_split (fun done e rest hnames e' he' heq => ?_)
  have hnodup := nodup_names text
  rw [hnames, List.nodup_append, List.nodup_cons] at hnodup
  have hdone : e' ∉ done :=
    fun hmem => hnodup.2.2 e' hmem e' (List.mem_cons_of_mem _ he') rfl
  have hne : e' ≠ e := fun h => hnodup.2.1.1 (h ▸ he')
  have hmem : e' ∈ names text := by simp [hnames, he']
  obtain ⟨pre, post, htokens⟩ := List.append_of_mem (mem_names.mp hmem)
  refine hsep done e rest hnames pre (.found e') post htokens (by simpa using hne) [] (old e') ?_
    (hold e' hmem) ?_
  · simp [fill, swapped, hdone]
  · rw [heq]
    exact List.prefix_append _ _

end replacements

/-! ### The bare names -/

theorem bareName_chars {e : Str} (he : ∀ c ∈ e, refChar c = true) :
    ∀ c ∈ bareName e, refChar c = true := by
  intro c hc
  obtain ⟨d, hd, rfl⟩ := List.mem_map.mp hc
  split
  · rfl
  · exact he d hd

theorem isRef_of_found {text e : Str} (h : .found e ∈ template text) : isRef false e = true := by
  have hshrinks := shrinks_bracedRef? (proper_isRef false)
  unfold template at h
  induction text using scan_induction hshrinks with
  | nil => cases h
  | found s e' rest hmatch ih =>
      rw [scan_found hshrinks hmatch, List.mem_cons] at h
      rcases h with h | h
      · cases h
        exact ((bracedRef?_eq_some (proper_isRef false)).mp hmatch).2
      · exact ih h
  | item c s hmatch ih =>
      rw [scan_item hmatch, List.mem_cons] at h
      exact ih (h.resolve_left (by simp))

/-- The references of a template are not empty, and neither are their bare names. -/
theorem bareName_found {text e : Str} (h : .found e ∈ template text) :
    bareName e ≠ [] ∧ ∀ c ∈ bareName e, refChar c = true := by
  obtain ⟨hne, hchars⟩ := isRef_chars (isRef_of_found h)
  exact ⟨by simpa [bareName] using hne, bareName_chars hchars⟩

/-! ### Jinja -/

/-- No delimiter of Jinja begins in the text. -/
def NoDelimiter (s : Str) : Prop :=
  ¬ ['{', '{'] <:+: s ∧ ¬ ['{', '%'] <:+: s ∧ ¬ ['{', '#'] <:+: s

/-- A text without Jinja syntax. -/
def NoJinja (s : Str) : Prop := NoDelimiter s ∧ ¬ ['}', '}'] <:+: s

theorem noJinja_iff {s : Str} : NoJinja s ↔
    contains ['{', '{'] s = false ∧ contains ['{', '%'] s = false ∧ contains ['{', '#'] s = false ∧
      contains ['}', '}'] s = false := by
  simp only [NoJinja, NoDelimiter, Bool.eq_false_iff, ne_eq, contains_iff, and_assoc]

instance NoJinja.decidable (s : Str) : Decidable (NoJinja s) := decidable_of_iff _ noJinja_iff.symm

def stripNewline (s : Str) : Str := if s.getLast? = some '\n' then s.dropLast else s

/-- What Jinja makes of a text without delimiters: line ends become newlines, and one newline at the
end is dropped. -/
def RendersPlainText (render : Str → List (Str × Str) → Option Str) : Prop :=
  ∀ s kwargs, NoDelimiter s → render s kwargs = some (stripNewline (universalNewlines s))

theorem universalNewlines_eq {s : Str} (h : '\r' ∉ s) : universalNewlines s = s := by
  induction s with
  | nil => rfl
  | cons c s ih =>
      rw [List.mem_cons, not_or] at h
      have hs := ih h.2
      unfold universalNewlines
      split
      · rename_i heq
        exact absurd (List.cons.inj heq).1.symm h.1
      · rename_i heq
        exact absurd (List.cons.inj heq).1.symm h.1
      · rename_i heq
        obtain ⟨rfl, rfl⟩ := List.cons.inj heq
        rw [hs]
      · rename_i heq
        cases heq

theorem not_infix_pair_iff {x y : Char} {s : Str} :
    ¬ [x, y] <:+: s ↔ s.IsChain (fun a b => ¬ (a = x ∧ b = y)) := by
  constructor
  · intro h
    induction s with
    | nil => exact List.IsChain.nil
    | cons c s ih =>
        have hs : s <:+: c :: s := ⟨[c], [], by simp⟩
        rw [List.isChain_cons]
        refine ⟨?_, ih (fun hpair => h (hpair.trans hs))⟩
        rintro d hd ⟨rfl, rfl⟩
        cases s with
        | nil => cases hd
        | cons d' s =>
            cases hd
            exact h ⟨[], s, rfl⟩
  · intro h hsub
    have hpair := List.IsChain.infix h hsub
    rw [List.isChain_cons_cons] at hpair
    exact hpair.1 ⟨rfl, rfl⟩

/-- Two characters that do not occur in references are next to each other in the script only if they
are in the template. -/
theorem not_infix_bareName {x y : Char} (hx : refChar x = false) (hy : refChar y = false)
    (tokens : List (Token Char Str))
    (htokens : ∀ e, .found e ∈ tokens → bareName e ≠ [] ∧ ∀ c ∈ bareName e, refChar c = true)
    (h : ¬ [x, y] <:+: tokens.flatMap (fill braced)) :
    ¬ [x, y] <:+: tokens.flatMap (fill bareName) := by
  rw [not_infix_pair_iff] at h ⊢
  induction tokens with
  | nil => exact List.IsChain.nil
  | cons t tokens ih =>
      rw [List.flatMap_cons, List.isChain_append] at h ⊢
      have ih := ih (fun e he => htokens e (List.mem_cons_of_mem _ he)) h.2.1
      cases t with
      | found e =>
          obtain ⟨-, hchars⟩ := htokens e List.mem_cons_self
          refine ⟨?_, ih, ?_⟩
          · refine not_infix_pair_iff.mp (fun hpair => ?_)
            have hmem : x ∈ bareName e := hpair.subset (by simp)
            exact ne_of_refChar (hchars x hmem) hx rfl
          · rintro a ha b - ⟨rfl, -⟩
            exact ne_of_refChar (hchars a (List.mem_of_getLast? ha)) hx rfl
      | item c =>
          refine ⟨List.isChain_singleton c, ih, ?_⟩
          rintro a ha b hb ⟨rfl, rfl⟩
          cases tokens with
          | nil => cases hb
          | cons t' tokens =>
              cases t' with
              | item d =>
                  cases ha
                  cases hb
                  exact h.2.2 _ rfl _ rfl ⟨rfl, rfl⟩
              | found e =>
                  obtain ⟨hne, hchars⟩ := htokens e (by simp)
                  obtain ⟨d, bare, hbare⟩ := List.exists_cons_of_ne_nil hne
                  rw [List.flatMap_cons, fill, hbare] at hb
                  cases hb
                  exact ne_of_refChar (hchars b (by simp [hbare])) hy rfl

section script
variable {text : Str}

theorem noDelimiter_script (h : NoDelimiter text) :
    NoDelimiter ((template text).flatMap (fill bareName)) := by
  have hkeep : ∀ {x y : Char}, refChar x = false → refChar y = false → ¬ [x, y] <:+: text →
      ¬ [x, y] <:+: (template text).flatMap (fill bareName) := by
    intro x y hx hy hnot
    refine not_infix_bareName hx hy _ (fun e he => bareName_found he) ?_
    rw [fill_braced]
    exact hnot
  exact ⟨hkeep (by decide) (by decide) h.1, hkeep (by decide) (by decide) h.2.1,
    hkeep (by decide) (by decide) h.2.2⟩

/-- Characters that do not occur in references are in the script only if they are in the
template. -/
theorem mem_script {c : Char} (hc : refChar c = false)
    (h : c ∈ (template text).flatMap (fill bareName)) : c ∈ text := by
  obtain ⟨t, ht, hmem⟩ := List.mem_flatMap.mp h
  cases t with
  | item d =>
      rw [← fill_braced text]
      exact List.mem_flatMap.mpr ⟨_, ht, hmem⟩
  | found e => exact absurd rfl (ne_of_refChar ((bareName_found ht).2 c hmem) hc)

theorem getLast?_script {c : Char} (hc : refChar c = false)
    (h : ((template text).flatMap (fill bareName)).getLast? = some c) : text.getLast? = some c := by
  rcases List.eq_nil_or_concat (template text) with hnil | ⟨init, t, hinit⟩
  · rw [hnil] at h
    cases h
  · have htext := fill_braced text
    rw [hinit, List.concat_eq_append, List.flatMap_append, List.flatMap_singleton] at h htext
    have ht : t ∈ template text := by simp [hinit]
    cases t with
    | item d =>
        rw [← htext]
        simpa [fill] using h
    | found e =>
        obtain ⟨hne, hchars⟩ := bareName_found ht
        rw [fill, List.getLast?_append_of_ne_nil _ hne] at h
        exact absurd rfl (ne_of_refChar (hchars c (List.mem_of_getLast? h)) hc)

end script

/-! ### The content -/

/-- What the replacements one after the other need.

* There are no more references when case is ignored.
* The references are replaced by their bare names, and the bare names by the values, and each of
  these replacements finds the references it is for and nothing else.
* The values stand for themselves when they are read as replacement templates.
* Jinja has no line ends to change. -/
structure Substitutable (value : Str → Str) (text : Str) : Prop where
  sameCase : refs (scan (bracedRef? (isRef true)) text) = refs (template text)
  marks : Separated braced bareName text
  fills : Separated bareName value text
  literal : ∀ e ∈ names text, expand (bareName e) (value e) = some (value e)
  newlines : '\r' ∉ text ∧ text.getLast? ≠ some '\n'

theorem substitutable_iff {value : Str → Str} {text : Str} : Substitutable value text ↔
    refs (scan (bracedRef? (isRef true)) text) = refs (template text) ∧
      Separated braced bareName text ∧ Separated bareName value text ∧
      (names text).all (fun e => expand (bareName e) (value e) = some (value e)) = true ∧
      text.contains '\r' = false ∧ text.getLast? ≠ some '\n' := by
  constructor
  · intro h
    exact ⟨h.sameCase, h.marks, h.fills, by simpa using h.literal, by simpa using h.newlines.1,
      h.newlines.2⟩
  · rintro ⟨hcase, hmarks, hfills, hliteral, hreturn, hlast⟩
    exact ⟨hcase, hmarks, hfills, by simpa using hliteral, by simpa using hreturn, hlast⟩

instance Substitutable.decidable (value : Str → Str) (text : Str) :
    Decidable (Substitutable value text) :=
  decidable_of_iff _ substitutable_iff.symm

section content
variable {value : Str → Str} {text : Str}

theorem getInputElementsFromText_eq (h : Substitutable value text) :
    getInputElementsFromText value text = (names text).map (fun e => (e, value e)) := by
  rw [getInputElementsFromText, refs_scan_eq (proper_isRef true), h.sameCase]
  exact foldl_setEntry value _ []

/-- Entries with different keys are added one after the other. -/
theorem foldl_setEntry_of_nodup (key value : Str → Str) (es : List Str) :
    ∀ d : List (Str × Str), (d.map Prod.fst ++ es.map key).Nodup →
      es.foldl (fun d e => setEntry (key e) (value e) d) d =
        d ++ es.map (fun e => (key e, value e)) := by
  induction es with
  | nil => simp
  | cons e es ih =>
      intro d hnodup
      have hkey : key e ∉ d.map Prod.fst := by
        intro hmem
        rw [List.nodup_append] at hnodup
        exact hnodup.2.2 _ hmem _ List.mem_cons_self rfl
      rw [List.foldl_cons, setEntry_of_not_mem hkey, ih]
      · rw [List.map_cons, List.append_assoc, List.singleton_append]
      · rw [List.map_append, List.append_assoc]
        exact hnodup

theorem bareName_ne_nil {e : Str} (he : e ∈ names text) : bareName e ≠ [] :=
  (bareName_found (mem_names.mp he)).1

theorem getKwargs_eq (h : Substitutable value text) :
    getKwargs value text = ((template text).flatMap (fill bareName),
      (names text).map (fun e => (bareName e, value e))) := by
  have hbraced : ∀ e ∈ names text, braced e ≠ [] := fun e _ => List.cons_ne_nil _ _
  have hscript := foldl_replaceAll_names hbraced h.marks
  rw [fill_braced] at hscript
  have hkeys := nodup_map_old (fun e he => bareName_ne_nil he) h.fills
  have hkwargs := foldl_setEntry_of_nodup bareName value (names text) [] hkeys
  unfold getKwargs
  rw [getInputElementsFromText_eq h]
  simp only [List.foldl_map]
  rw [hscript, hkwargs, List.nil_append]

/-- Values that stand for themselves are put in as they are. -/
theorem foldlM_reSub (es : List Str)
    (hliteral : ∀ e ∈ es, expand (bareName e) (value e) = some (value e)) :
    ∀ s : Str, (es.map (fun e => (bareName e, value e))).foldlM (fun s x => reSub x.1 x.2 s) s =
      some (es.foldl (fun s e => replaceAll (bareName e) (value e) s) s) := by
  induction es with
  | nil => exact fun s => rfl
  | cons e es ih =>
      intro s
      rw [List.map_cons, List.foldlM_cons, reSub, hliteral e List.mem_cons_self]
      exact ih (fun e he => hliteral e (List.mem_cons_of_mem _ he)) _

/-- Jinja leaves the script as it is. -/
theorem render_script {render : Str → List (Str × Str) → Option Str}
    (hrender : RendersPlainText render) (hT : NoDelimiter text) (h : Substitutable value text)
    (kwargs : List (Str × Str)) :
    render ((template text).flatMap (fill bareName)) kwargs =
      some ((template text).flatMap (fill bareName)) := by
  have hreturn : '\r' ∉ (template text).flatMap (fill bareName) :=
    fun hmem => h.newlines.1 (mem_script (by decide) hmem)
  have hlast : ((template text).flatMap (fill bareName)).getLast? ≠ some '\n' :=
    fun hlast => h.newlines.2 (getLast?_script (by decide) hlast)
  rw [hrender _ _ (noDelimiter_script hT), universalNewlines_eq hreturn, stripNewline, if_neg hlast]

theorem content_eq_substituted {render : Str → List (Str × Str) → Option Str}
    (hrender : RendersPlainText render) (hT : NoDelimiter text) (h : Substitutable value text) :
    content render false value text = some (substituted value text) := by
  unfold content
  rw [if_neg (by simp), getKwargs_eq h]
  simp only [render_script hrender hT h, Option.bind_eq_bind, Option.bind_some]
  rw [foldlM_reSub _ h.literal, foldl_replaceAll_names (fun e he => bareName_ne_nil he) h.fills]
  rfl

end content

/-! ### Streaming or not -/

theorem infix_of_hasBlock {s : Str} (h : hasBlock s = true) : ['{', '%'] <:+: s := by
  induction s with
  | nil => cases h
  | cons c s ih =>
      rw [hasBlock, Bool.or_eq_true, Bool.and_eq_true, List.isPrefixOf_iff_prefix] at h
      rw [List.infix_cons_iff]
      exact h.imp (fun hblock => hblock.1) ih

/-- A text without Jinja syntax is streamed. -/
theorem isJinjia2_eq_false {text : Str} (hT : NoJinja text) : isJinjia2 text = false := by
  obtain ⟨⟨hopen, hblock, -⟩, hclose⟩ := hT
  rw [isJinjia2, Bool.or_eq_false_iff, Bool.or_eq_false_iff]
  refine ⟨⟨?_, ?_⟩, ?_⟩
  · exact Bool.eq_false_iff.mpr (fun h => hblock (infix_of_hasBlock h))
  · exact Bool.eq_false_iff.mpr (fun h => hopen (contains_iff.mp h))
  · exact Bool.eq_false_iff.mpr (fun h => hclose (contains_iff.mp h))

theorem stream_eq_substituted_iff (value : Str → Str) {text : Str} (hT : NoJinja text) :
    stream value text = substituted value text ↔ Isolated (isRef false) text := by
  have hproper := proper_isRef false
  constructor
  · intro h
    exact (length_scan hproper value text).2 (congrArg List.length h)
  · intro h
    rw [stream, scan_eq_of_isolated hproper text h hT.1.1 hT.2]
    rfl

/-- Streaming gives the template with the values exactly if no reference is next to a space.  Where
this is so and the replacements one after the other do what they are for, both ways give it. -/
theorem message_rendering (render : Str → List (Str × Str) → Option Str)
    (hrender : RendersPlainText render) (value : Str → Str) (text : Str) (hT : NoJinja text) :
    (content render true value text = some (substituted value text) ↔
      Isolated (isRef false) text) ∧
    (Isolated (isRef false) text → Substitutable value text →
      content render false value text = some (substituted value text) ∧
      content render true value text = content render false value text) := by
  have hstream : content render true value text = some (stream value text) := by
    rw [content, isJinjia2_eq_false hT]
    rfl
  have hiff := stream_eq_substituted_iff value hT
  rw [hstream, Option.some_inj]
  refine ⟨hiff, fun hiso hsub => ?_⟩
  have hcontent := content_eq_substituted hrender hT.1 hsub
  exact ⟨hcontent, by rw [hcontent, hiff.mpr hiso]⟩

/-! ### Two messages -/

/-- What Jinja does, for texts without delimiters. -/
def renderPlainText (s : Str) (_ : List (Str × Str)) : Option Str :=
  some (stripNewline (universalNewlines s))

theorem rendersPlainText : RendersPlainText renderPlainText := fun _ _ _ => rfl

/-- The value of `sys.query` is `Bob`, and that of `A@x` is `1`. -/
def nameAndNumber (e : Str) : Str :=
  if e = ['s', 'y', 's', '.', 'q', 'u', 'e', 'r', 'y'] then ['B', 'o', 'b']
  else if e = ['A', '@', 'x'] then ['1'] else []

/-- `{sys.query}:{A@x}` is rendered as `Bob:1` in both ways. -/
theorem message_rendering_two_refs :
    content renderPlainText false nameAndNumber
      ['{', 's', 'y', 's', '.', 'q', 'u', 'e', 'r', 'y', '}', ':', '{', 'A', '@', 'x', '}'] =
        some ['B', 'o', 'b', ':', '1'] ∧
    content renderPlainText true nameAndNumber
      ['{', 's', 'y', 's', '.', 'q', 'u', 'e', 'r', 'y', '}', ':', '{', 'A', '@', 'x', '}'] =
        some ['B', 'o', 'b', ':', '1'] := by
  obtain ⟨hiff, hboth⟩ := message_rendering renderPlainText rendersPlainText nameAndNumber
    ['{', 's', 'y', 's', '.', 'q', 'u', 'e', 'r', 'y', '}', ':', '{', 'A', '@', 'x', '}']
    (by decide +kernel)
  have hiso := hiff.mp (by decide +kernel)
  obtain ⟨hcontent, heq⟩ := hboth hiso (by decide +kernel)
  have hvalue : substituted nameAndNumber
      ['{', 's', 'y', 's', '.', 'q', 'u', 'e', 'r', 'y', '}', ':', '{', 'A', '@', 'x', '}'] =
        ['B', 'o', 'b', ':', '1'] := by decide +kernel
  rw [heq, hcontent, hvalue]
  exact ⟨rfl, rfl⟩

/-- `Hi {sys.query}` is streamed without its space.  And where the text of `A_x={A@x}` is not
streamed, the name on the left is replaced as well. -/
theorem message_loses_space :
    (NoJinja ['H', 'i', ' ', '{', 's', 'y', 's', '.', 'q', 'u', 'e', 'r', 'y', '}'] ∧
      content renderPlainText false nameAndNumber
        ['H', 'i', ' ', '{', 's', 'y', 's', '.', 'q', 'u', 'e', 'r', 'y', '}'] =
          some ['H', 'i', ' ', 'B', 'o', 'b'] ∧
      content renderPlainText true nameAndNumber
        ['H', 'i', ' ', '{', 's', 'y', 's', '.', 'q', 'u', 'e', 'r', 'y', '}'] =
          some ['H', 'i', 'B', 'o', 'b']) ∧
    (NoJinja ['A', '_', 'x', '=', '{', 'A', '@', 'x', '}'] ∧
      content renderPlainText false nameAndNumber ['A', '_', 'x', '=', '{', 'A', '@', 'x', '}'] =
        some ['1', '=', '1'] ∧
      content renderPlainText true nameAndNumber ['A', '_', 'x', '=', '{', 'A', '@', 'x', '}'] =
        some ['A', '_', 'x', '=', '1']) := by
  decide +kernel

end RagFlow.Agent.Message
