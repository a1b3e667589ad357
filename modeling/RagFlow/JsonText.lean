import Mathlib.Data.List.Basic
import Mathlib.Data.Nat.Notation
import RagFlow.PyStr

/-! # JSON texts

The values of Python's `json` module and their texts, for the development of programs that write
values with `dumps` and read them back with `loads`.

* **Values.** `Json F` over a type `F` of finite floats.  Of floats only their texts matter here
  (`FloatText`): the text of a finite float is a number with a fraction or an exponent, and reading
  it gives the float back.
* **Writing.** `dumps` is `json.dumps(v, ensure_ascii=False)`: strings are quoted with the escapes
  of the module (`quote`), items and entries are separated by a comma and a blank.
* **Reading.** `loads` follows the scanner of the module: `scanOnce` reads a value at the start of
  a text.  A `\u` escape that is half of a surrogate pair has no character of its own here; it is
  read as the replacement character.
* **Fuel.** The readers leave shorter texts (`scan_length`), so no text needs more fuel than `loads`
  has: `loads_fuel`.
* **Round trip.** `loads_dumps`: every value whose dictionaries have distinct keys is read back
  from its text. -/

namespace RagFlow

open Py

/-! ### Numbers -/

/-- Decimal digits, at least one. -/
def IsDigits (s : Str) : Prop := s ≠ [] ∧ ∀ c ∈ s, c.isDigit = true

/-- The part of a number from the decimal point on. -/
def IsFrac (s : Str) : Prop := ∃ ds, s = '.' :: ds ∧ IsDigits ds

/-- The exponent of a number. -/
def IsExp (s : Str) : Prop :=
  ∃ e sign ds, s = e :: (sign ++ ds) ∧ (e = 'e' ∨ e = 'E') ∧
    (sign = [] ∨ sign = ['+'] ∨ sign = ['-']) ∧ IsDigits ds

/-- The sign of a number. -/
def signText (neg : Bool) : Str := if neg then ['-'] else []

/-- The text of a natural number. -/
def natText (n : ℕ) : Str := Nat.toDigits 10 n

/-- `str(n)`. -/
def intText (n : ℤ) : Str := signText (n < 0) ++ natText n.natAbs

/-- A number with a fraction or an exponent. -/
def IsReal (s : Str) : Prop :=
  ∃ neg n frac exp, s = signText neg ++ natText n ++ frac ++ exp ∧ (frac = [] ∨ IsFrac frac) ∧
    (exp = [] ∨ IsExp exp) ∧ (frac ≠ [] ∨ exp ≠ [])

/-- A float: finite, infinite or not a number. -/
inductive PyFloat (F : Type) where
  | fin (x : F)
  | inf (neg : Bool)
  | nan
  deriving DecidableEq

/-- The texts of finite floats. -/
class FloatText (F : Type) where
  /-- `repr(x)`. -/
  repr : F → Str
  /-- The float that a number with a fraction or an exponent stands for. -/
  ofLiteral : Str → PyFloat F
  repr_real : ∀ x, IsReal (repr x)
  ofLiteral_repr : ∀ x, ofLiteral (repr x) = .fin x

/-! ### Values -/

/-- A JSON value; a dictionary lists its entries. -/
inductive Json (F : Type) where
  | null
  | bool (b : Bool)
  | int (n : ℤ)
  | float (x : PyFloat F)
  | str (s : Str)
  | list (xs : List (Json F))
  | dict (entries : List (Str × Json F))

namespace Json

variable {F : Type}

mutual
/-- The dictionaries of the value have distinct keys. -/
def WF : Json F → Prop
  | null | bool _ | int _ | float _ | str _ => True
  | list xs => WFItems xs
  | dict entries => (entries.map Prod.fst).Nodup ∧ WFEntries entries

def WFItems : List (Json F) → Prop
  | [] => True
  | x :: xs => x.WF ∧ WFItems xs

def WFEntries : List (Str × Json F) → Prop
  | [] => True
  | (_, v) :: entries => v.WF ∧ WFEntries entries
end

theorem wfItems_iff {xs : List (Json F)} : WFItems xs ↔ ∀ x ∈ xs, x.WF := by
  induction xs with
  | nil => simp [WFItems]
  | cons x xs ih => simp [WFItems, ih]

theorem wfEntries_iff {entries : List (Str × Json F)} :
    WFEntries entries ↔ ∀ e ∈ entries, e.2.WF := by
  induction entries with
  | nil => simp [WFEntries]
  | cons e entries ih => simp [WFEntries, ih]

/-! ### Writing -/

/-- A character within a quoted string. -/
def quoteChar (c : Char) : Str :=
  if c = '"' then ['\\', '"']
  else if c = '\\' then ['\\', '\\']
  else if c = '\n' then ['\\', 'n']
  else if c = '\r' then ['\\', 'r']
  else if c = '\t' then ['\\', 't']
  else if c.toNat = 12 then ['\\', 'f']
  else if c.toNat = 8 then ['\\', 'b']
  else if c.toNat < 32 then
    ['\\', 'u', '0', '0', (c.toNat / 16).digitChar, (c.toNat % 16).digitChar]
  else [c]

def quoteBody (s : Str) : Str := s.flatMap quoteChar

/-- The quoted string. -/
def quote (s : Str) : Str := '"' :: (quoteBody s ++ ['"'])

variable [FloatText F]

def floatText : PyFloat F → Str
  | .fin x => FloatText.repr x
  | .inf false => "Infinity"
  | .inf true => "-Infinity"
  | .nan => "NaN"

mutual
/-- `json.dumps(v, ensure_ascii=False)`. -/
def dumps : Json F → Str
  | null => "null"
  | bool true => "true"
  | bool false => "false"
  | int n => intText n
  | float x => floatText x
  | str s => quote s
  | list xs => '[' :: dumpItems xs
  | dict entries => '{' :: dumpEntries entries

/-- The items of a list and its closing bracket. -/
def dumpItems : List (Json F) → Str
  | [] => [']']
  | x :: xs => x.dumps ++ if xs.isEmpty then [']'] else ',' :: ' ' :: dumpItems xs

/-- The entries of a dictionary and its closing brace. -/
def dumpEntries : List (Str × Json F) → Str
  | [] => ['}']
  | (k, v) :: entries =>
      quote k ++ ':' :: ' ' ::
        (v.dumps ++ if entries.isEmpty then ['}'] else ',' :: ' ' :: dumpEntries entries)
end

/-! ### Reading numbers -/

/-- The leading digits of a text, and the rest. -/
def scanDigits (s : Str) : Str × Str := (s.takeWhile (·.isDigit), s.dropWhile (·.isDigit))

/-- The digits before the decimal point: without leading zeros. -/
def scanWhole : Str → Option (Str × Str)
  | [] => none
  | c :: s =>
      if c = '0' then some (['0'], s)
      else if c.isDigit then some (scanDigits (c :: s))
      else none

/-- The fraction at the start of a text, if there is one. -/
def scanFrac : Str → Str × Str
  | [] => ([], [])
  | c :: s =>
      if c = '.' ∧ (scanDigits s).1 ≠ [] then ('.' :: (scanDigits s).1, (scanDigits s).2)
      else ([], c :: s)

def scanSign : Str → Str × Str
  | [] => ([], [])
  | c :: s => if c = '+' ∨ c = '-' then ([c], s) else ([], c :: s)

/-- The exponent at the start of a text, if there is one. -/
def scanExp : Str → Str × Str
  | [] => ([], [])
  | c :: s =>
      let (sign, digits) := scanSign s
      if (c = 'e' ∨ c = 'E') ∧ (scanDigits digits).1 ≠ [] then
        (c :: (sign ++ (scanDigits digits).1), (scanDigits digits).2)
      else ([], c :: s)

/-- The minus sign at the start of a text, if there is one. -/
def scanMinus : Str → Bool × Str
  | [] => (false, [])
  | c :: s => if c = '-' then (true, s) else (false, c :: s)

/-- The number at the start of a text: an integer, or a float if it has a fraction or an
exponent. -/
def scanNumber (s : Str) : Option (Json F × Str) :=
  let (neg, s) := scanMinus s
  match scanWhole s with
  | none => none
  | some (whole, s) =>
      let (frac, s) := scanFrac s
      let (exp, s) := scanExp s
      if frac = [] ∧ exp = [] then
        let n : ℤ := Nat.ofDigitChars 10 whole 0
        some (int (if neg then -n else n), s)
      else some (float (FloatText.ofLiteral (signText neg ++ whole ++ frac ++ exp)), s)

/-! ### Reading strings -/

def hexValue (c : Char) : Option ℕ :=
  let n := c.toNat
  if 48 ≤ n ∧ n ≤ 57 then some (n - 48)
  else if 97 ≤ n ∧ n ≤ 102 then some (n - 87)
  else if 65 ≤ n ∧ n ≤ 70 then some (n - 55)
  else none

/-- The code point of a `\u` escape. -/
def hex4 (a b c d : Char) : Option ℕ := do
  let a ← hexValue a
  let b ← hexValue b
  let c ← hexValue c
  let d ← hexValue d
  pure (((a * 16 + b) * 16 + c) * 16 + d)

/-- The code point of a one-character escape. -/
def unescape (c : Char) : Option ℕ :=
  if c = '"' ∨ c = '\\' ∨ c = '/' then some c.toNat
  else if c = 'n' then some 10
  else if c = 'r' then some 13
  else if c = 't' then some 9
  else if c = 'f' then some 12
  else if c = 'b' then some 8
  else none

/-- The code points of a string up to its closing quote, and the rest of the text. -/
def scanCodes : Str → Option (List ℕ × Str)
  | [] => none
  | c :: s =>
      if c = '"' then some ([], s)
      else if c = '\\' then
        match s with
        | [] => none
        | e :: s =>
            if e = 'u' then
              match s with
              | a :: b :: x :: y :: s =>
                  match hex4 a b x y with
                  | none => none
                  | some n => (scanCodes s).map (fun r => (n :: r.1, r.2))
              | _ => none
            else
              match unescape e with
              | none => none
              | some n => (scanCodes s).map (fun r => (n :: r.1, r.2))
      else if c.toNat < 32 then none
      else (scanCodes s).map (fun r => (c.toNat :: r.1, r.2))

def isHigh (n : ℕ) : Bool := 0xD800 ≤ n && n ≤ 0xDBFF

def isLow (n : ℕ) : Bool := 0xDC00 ≤ n && n ≤ 0xDFFF

/-- The character of a code point. -/
def codeChar (n : ℕ) : Char := if isHigh n || isLow n then Char.ofNat 0xFFFD else Char.ofNat n

/-- The string of code points, with the surrogate pairs joined. -/
def joinCodes : List ℕ → Str
  | [] => []
  | [n] => [codeChar n]
  | n :: m :: codes =>
      if isHigh n && isLow m then
        Char.ofNat (0x10000 + (n - 0xD800) * 0x400 + (m - 0xDC00)) :: joinCodes codes
      else codeChar n :: joinCodes (m :: codes)

/-- The string up to its closing quote, and the rest of the text. -/
def scanString (s : Str) : Option (Str × Str) :=
  (scanCodes s).map (fun r => (joinCodes r.1, r.2))

/-! ### Reading values -/

def isWs (c : Char) : Bool := c = ' ' || c = '\t' || c = '\n' || c = '\r'

def skipWs (s : Str) : Str := s.dropWhile isWs

/-- The value of a constant at the start of a text. -/
def scanWord (w : Str) (v : Json F) (s : Str) : Option (Json F × Str) :=
  if w.isPrefixOf s then some (v, s.drop w.length) else none

/-- A constant or a number at the start of a text. -/
def scanAtom (s : Str) : Option (Json F × Str) :=
  scanWord "null" null s <|> scanWord "true" (bool true) s <|> scanWord "false" (bool false) s <|>
    scanNumber s <|> scanWord "NaN" (float .nan) s <|>
    scanWord "Infinity" (float (.inf false)) s <|> scanWord "-Infinity" (float (.inf true)) s

/-- `d[k] = v` on the entries of a dictionary. -/
def setItem (k : Str) (v : Json F) : List (Str × Json F) → List (Str × Json F)
  | [] => [(k, v)]
  | e :: entries => if e.1 = k then (k, v) :: entries else e :: setItem k v entries

/-- The dictionary of a list of pairs: of the pairs with one key the last counts. -/
def ofPairs (pairs : List (Str × Json F)) : List (Str × Json F) :=
  pairs.foldl (fun d e => setItem e.1 e.2 d) []

mutual
/-- The value at the start of a text, and the rest of the text; `fuel` bounds the recursion. -/
def scanOnce : ℕ → Str → Option (Json F × Str)
  | 0, _ => none
  | _ + 1, [] => none
  | fuel + 1, c :: s =>
      if c = '"' then (scanString s).map (fun r => (str r.1, r.2))
      else if c = '{' then
        match skipWs s with
        | [] => none
        | d :: t =>
            if d = '}' then some (dict [], t)
            else if d = '"' then (scanEntries fuel t).map (fun r => (dict (ofPairs r.1), r.2))
            else none
      else if c = '[' then
        match skipWs s with
        | [] => none
        | d :: t =>
            if d = ']' then some (list [], t)
            else (scanItems fuel (d :: t)).map (fun r => (list r.1, r.2))
      else scanAtom (c :: s)

/-- The items up to the closing bracket. -/
def scanItems : ℕ → Str → Option (List (Json F) × Str)
  | 0, _ => none
  | fuel + 1, s =>
      match scanOnce fuel s with
      | none => none
      | some (v, s) =>
          match skipWs s with
          | [] => none
          | d :: t =>
              if d = ']' then some ([v], t)
              else if d = ',' then (scanItems fuel (skipWs t)).map (fun r => (v :: r.1, r.2))
              else none

/-- The entries up to the closing brace, from after the opening quote of the first key on. -/
def scanEntries : ℕ → Str → Option (List (Str × Json F) × Str)
  | 0, _ => none
  | fuel + 1, s =>
      match scanString s with
      | none => none
      | some (k, s) =>
          match skipWs s with
          | [] => none
          | d :: t =>
              if d = ':' then
                match scanOnce fuel (skipWs t) with
                | none => none
                | some (v, s) =>
                    match skipWs s with
                    | [] => none
                    | d :: t =>
                        if d = '}' then some ([(k, v)], t)
                        else if d = ',' then
                          match skipWs t with
                          | [] => none
                          | d :: t =>
                              if d = '"' then
                                (scanEntries fuel t).map (fun r => ((k, v) :: r.1, r.2))
                              else none
                        else none
              else none
end

/-- `json.loads(s)`; `none` when it raises. -/
def loads (s : Str) : Option (Json F) :=
  match scanOnce (2 * s.length + 1) (skipWs s) with
  | none => none
  | some (v, s) => if skipWs s = [] then some v else none

/-! ### The ways of reading -/

section scans
variable {s : Str}

/-- The ways of reading a value. -/
inductive ScansOnce (fuel : ℕ) : Str → Json F × Str → Prop
  | string {t x} : scanString t = some x → ScansOnce fuel ('"' :: t) (str x.1, x.2)
  | emptyDict {t t'} : skipWs t = '}' :: t' → ScansOnce fuel ('{' :: t) (dict [], t')
  | entries {t t' x} : skipWs t = '"' :: t' → scanEntries fuel t' = some x →
      ScansOnce fuel ('{' :: t) (dict (ofPairs x.1), x.2)
  | emptyList {t t'} : skipWs t = ']' :: t' → ScansOnce fuel ('[' :: t) (list [], t')
  | items {t x} : scanItems fuel (skipWs t) = some x → ScansOnce fuel ('[' :: t) (list x.1, x.2)
  | atom {s r} : scanAtom s = some r → ScansOnce fuel s r

/-- The ways of reading items. -/
inductive ScansItems (fuel : ℕ) (s : Str) : List (Json F) × Str → Prop
  | last {v t t'} : scanOnce fuel s = some (v, t) → skipWs t = ']' :: t' →
      ScansItems fuel s ([v], t')
  | more {v t t' x} : scanOnce fuel s = some (v, t) → skipWs t = ',' :: t' →
      scanItems fuel (skipWs t') = some x → ScansItems fuel s (v :: x.1, x.2)

/-- The ways of reading entries. -/
inductive ScansEntries (fuel : ℕ) (s : Str) : List (Str × Json F) × Str → Prop
  | last {k v t₁ t₂ t₃ t₄} : scanString s = some (k, t₁) → skipWs t₁ = ':' :: t₂ →
      scanOnce fuel (skipWs t₂) = some (v, t₃) → skipWs t₃ = '}' :: t₄ →
      ScansEntries fuel s ([(k, v)], t₄)
  | more {k v t₁ t₂ t₃ t₄ t₅ x} : scanString s = some (k, t₁) → skipWs t₁ = ':' :: t₂ →
      scanOnce fuel (skipWs t₂) = some (v, t₃) → skipWs t₃ = ',' :: t₄ → skipWs t₄ = '"' :: t₅ →
      scanEntries fuel t₅ = some x → ScansEntries fuel s ((k, v) :: x.1, x.2)

theorem scansOnce {fuel : ℕ} {r : Json F × Str} (h : scanOnce (fuel + 1) s = some r) :
    ScansOnce fuel s r := by
  cases s with
  | nil =>
      rw [scanOnce] at h
      cases h
  | cons c s =>
      rw [scanOnce] at h
      split_ifs at h with hquote hbrace hbracket
      · obtain ⟨x, hx, rfl⟩ := Option.map_eq_some_iff.mp h
        rw [hquote]
        exact .string hx
      · rw [hbrace]
        split at h
        · cases h
        · next d t ht =>
            split_ifs at h with hend hkey
            · cases h
              exact .emptyDict (hend ▸ ht)
            · obtain ⟨x, hx, rfl⟩ := Option.map_eq_some_iff.mp h
              exact .entries (hkey ▸ ht) hx
      · rw [hbracket]
        split at h
        · cases h
        · next d t ht =>
            split_ifs at h with hend
            · cases h
              exact .emptyList (hend ▸ ht)
            · obtain ⟨x, hx, rfl⟩ := Option.map_eq_some_iff.mp h
              exact .items (ht ▸ hx)
      · exact .atom h

theorem scansItems {fuel : ℕ} {r : List (Json F) × Str} (h : scanItems (fuel + 1) s = some r) :
    ScansItems fuel s r := by
  rw [scanItems] at h
  split at h
  · cases h
  · next v t hv =>
      split at h
      · cases h
      · next d t' ht =>
          split_ifs at h with hend hcomma
          · cases h
            exact .last hv (hend ▸ ht)
          · obtain ⟨x, hx, rfl⟩ := Option.map_eq_some_iff.mp h
            exact .more hv (hcomma ▸ ht) hx

theorem scansEntries {fuel : ℕ} {r : List (Str × Json F) × Str}
    (h : scanEntries (fuel + 1) s = some r) : ScansEntries fuel s r := by
  rw [scanEntries] at h
  split at h
  · cases h
  · next k t₁ hk =>
      split at h
      · cases h
      · next d t₂ hcolon =>
          split_ifs at h with hd
          split at h
          · cases h
          · next v t₃ hv =>
              split at h
              · cases h
              · next d' t₄ hnext =>
                  split_ifs at h with hend hcomma
                  · cases h
                    exact .last hk (hd ▸ hcolon) hv (hend ▸ hnext)
                  · split at h
                    · cases h
                    · next d'' t₅ hquote =>
                        split_ifs at h with hkey
                        obtain ⟨x, hx, rfl⟩ := Option.map_eq_some_iff.mp h
                        exact .more hk (hd ▸ hcolon) hv (hcomma ▸ hnext) (hkey ▸ hquote) hx

end scans

/-! ### Enough fuel -/

section fuel
variable {s : Str}

theorem scanDigits_length (s : Str) : (scanDigits s).2.length ≤ s.length :=
  (List.dropWhile_sublist _).length_le

theorem skipWs_length (s : Str) : (skipWs s).length ≤ s.length :=
  (List.dropWhile_sublist _).length_le

theorem scanWhole_length {r : Str × Str} (h : scanWhole s = some r) : r.2.length < s.length := by
  cases s with
  | nil => cases h
  | cons c s =>
      rw [scanWhole] at h
      split_ifs at h with hzero hdigit
      · cases h
        exact Nat.lt_succ_self _
      · cases h
        rw [scanDigits, List.dropWhile_cons_of_pos hdigit]
        exact Nat.lt_succ_of_le (scanDigits_length s)

theorem scanFrac_length (s : Str) : (scanFrac s).2.length ≤ s.length := by
  cases s with
  | nil => exact le_rfl
  | cons c s =>
      rw [scanFrac]
      split
      · exact (scanDigits_length s).trans (Nat.le_succ _)
      · exact le_rfl

theorem scanSign_length (s : Str) : (scanSign s).2.length ≤ s.length := by
  cases s with
  | nil => exact le_rfl
  | cons c s =>
      rw [scanSign]
      split
      · exact Nat.le_succ _
      · exact le_rfl

theorem scanExp_length (s : Str) : (scanExp s).2.length ≤ s.length := by
  cases s with
  | nil => exact le_rfl
  | cons c s =>
      rw [scanExp.eq_2]
      dsimp only
      split
      · exact ((scanDigits_length _).trans (scanSign_length s)).trans (Nat.le_succ _)
      · exact le_rfl

theorem scanMinus_length (s : Str) : (scanMinus s).2.length ≤ s.length := by
  cases s with
  | nil => exact le_rfl
  | cons c s =>
      rw [scanMinus]
      split
      · exact Nat.le_succ _
      · exact le_rfl

theorem scanNumber_length {r : Json F × Str} (h : scanNumber s = some r) :
    r.2.length < s.length := by
  have hminus := scanMinus_length s
  unfold scanNumber at h
  dsimp only at h
  split at h
  · cases h
  · next whole t hwhole =>
      have hrest : (scanExp (scanFrac t).2).2.length < s.length :=
        calc (scanExp (scanFrac t).2).2.length ≤ (scanFrac t).2.length := scanExp_length _
          _ ≤ t.length := scanFrac_length t
          _ < (scanMinus s).2.length := scanWhole_length hwhole
          _ ≤ s.length := hminus
      split at h
      · cases h
        exact hrest
      · cases h
        exact hrest

omit [FloatText F] in
theorem scanWord_length {w : Str} {v : Json F} {r : Json F × Str} (h : scanWord w v s = some r)
    (hw : w ≠ []) : r.2.length < s.length := by
  unfold scanWord at h
  split_ifs at h with hprefix
  cases h
  have hle := (List.isPrefixOf_iff_prefix.mp hprefix).length_le
  have hpos := List.length_pos_iff.mpr hw
  rw [List.length_drop]
  omega

theorem scanAtom_length {r : Json F × Str} (h : scanAtom s = some r) : r.2.length < s.length := by
  unfold scanAtom at h
  simp only [Option.orElse_eq_orElse, Option.orElse_eq_or, Option.or_eq_some_iff] at h
  rcases h with h | ⟨-, h | ⟨-, h | ⟨-, h | ⟨-, h | ⟨-, h | ⟨-, h⟩⟩⟩⟩⟩⟩
  · exact scanWord_length h (by decide)
  · exact scanWord_length h (by decide)
  · exact scanWord_length h (by decide)
  · exact scanNumber_length h
  · exact scanWord_length h (by decide)
  · exact scanWord_length h (by decide)
  · exact scanWord_length h (by decide)

theorem scanCodes_length (s : Str) : ∀ r, scanCodes s = some r → r.2.length < s.length := by
  have hcons : ∀ {t : Str} {n k : ℕ} {r : List ℕ × Str}, (∀ r, scanCodes t = some r →
      r.2.length < t.length) → t.length ≤ k →
      (scanCodes t).map (fun r => (n :: r.1, r.2)) = some r → r.2.length < k := by
    intro t n k r ih hk h
    obtain ⟨x, hx, rfl⟩ := Option.map_eq_some_iff.mp h
    exact (ih x hx).trans_le hk
  fun_induction scanCodes s with
  | case1 | case3 | case4 | case6 | case7 | case9 =>
      intro r h
      cases h
  | case2 s =>
      intro r h
      cases h
      exact Nat.lt_succ_self _
  | case5 _ _ _ _ _ _ _ _ ih | case8 _ _ _ _ _ _ ih | case10 _ _ _ _ _ ih =>
      exact fun r h => hcons ih (by simp only [List.length_cons]; omega) h

theorem scanString_length {r : Str × Str} (h : scanString s = some r) :
    r.2.length < s.length := by
  obtain ⟨x, hx, rfl⟩ := Option.map_eq_some_iff.mp h
  exact scanCodes_length s x hx

/-- What is left of a text after blanks and a character. -/
theorem skipWs_cons_length {c : Char} {t : Str} (h : skipWs s = c :: t) :
    t.length + 1 ≤ s.length := by
  have hle := skipWs_length s
  rw [h] at hle
  exact hle

/-- What is left of a text after a value is shorter. -/
theorem scan_length (fuel : ℕ) :
    (∀ s r, (scanOnce fuel s : Option (Json F × Str)) = some r → r.2.length < s.length) ∧
      (∀ s r, (scanItems fuel s : Option (List (Json F) × Str)) = some r →
        r.2.length < s.length) ∧
      ∀ s r, (scanEntries fuel s : Option (List (Str × Json F) × Str)) = some r →
        r.2.length < s.length := by
  induction fuel with
  | zero =>
      refine ⟨fun s r h => ?_, fun s r h => ?_, fun s r h => ?_⟩
      · rw [scanOnce] at h
        cases h
      · rw [scanItems] at h
        cases h
      · rw [scanEntries] at h
        cases h
  | succ fuel ih =>
      obtain ⟨ihOnce, ihItems, ihEntries⟩ := ih
      refine ⟨fun s r h => ?_, fun s r h => ?_, fun s r h => ?_⟩
      · cases scansOnce h with
        | string hx =>
            exact (scanString_length hx).trans (Nat.lt_succ_self _)
        | emptyDict ht | emptyList ht =>
            have hlength := skipWs_cons_length ht
            simp only [List.length_cons]
            omega
        | entries ht hx =>
            have hlength := skipWs_cons_length ht
            have hentries := ihEntries _ _ hx
            simp only [List.length_cons]
            omega
        | items hx =>
            exact ((ihItems _ _ hx).trans_le (skipWs_length _)).trans (Nat.lt_succ_self _)
        | atom h => exact scanAtom_length h
      · cases scansItems h with
        | last hv ht =>
            have honce := ihOnce _ _ hv
            have hlength := skipWs_cons_length ht
            dsimp only at honce ⊢
            omega
        | @more v t t' x hv ht hx =>
            have honce := ihOnce _ _ hv
            have hlength := skipWs_cons_length ht
            have hitems := (ihItems _ _ hx).trans_le (skipWs_length t')
            dsimp only at honce ⊢
            omega
      · cases scansEntries h with
        | @last k v t₁ t₂ t₃ t₄ hk hcolon hv hend =>
            have hkey := scanString_length hk
            have hcolon := skipWs_cons_length hcolon
            have honce := (ihOnce _ _ hv).trans_le (skipWs_length t₂)
            have hlength := skipWs_cons_length hend
            dsimp only at hkey honce ⊢
            omega
        | @more k v t₁ t₂ t₃ t₄ t₅ x hk hcolon hv hcomma hquote hx =>
            have hkey := scanString_length hk
            have hcolon := skipWs_cons_length hcolon
            have honce := (ihOnce _ _ hv).trans_le (skipWs_length t₂)
            have hcomma := skipWs_cons_length hcomma
            have hquote := skipWs_cons_length hquote
            have hentries := ihEntries _ _ hx
            dsimp only at hkey honce ⊢
            omega

/-- Twice the length of the text is enough fuel. -/
theorem scan_fuel (n : ℕ) : ∀ m,
    (∀ s, 2 * s.length + 1 ≤ n → 2 * s.length + 1 ≤ m →
      (scanOnce n s : Option (Json F × Str)) = scanOnce m s) ∧
    (∀ s, 2 * s.length + 2 ≤ n → 2 * s.length + 2 ≤ m →
      (scanItems n s : Option (List (Json F) × Str)) = scanItems m s) ∧
    ∀ s, 2 * s.length + 2 ≤ n → 2 * s.length + 2 ≤ m →
      (scanEntries n s : Option (List (Str × Json F) × Str)) = scanEntries m s := by
  induction n with
  | zero => exact fun m => ⟨fun s hn => by omega, fun s hn => by omega, fun s hn => by omega⟩
  | succ n ih =>
      intro m
      cases m with
      | zero =>
          exact ⟨fun s _ hm => by omega, fun s _ hm => by omega, fun s _ hm => by omega⟩
      | succ m =>
          obtain ⟨ihOnce, ihItems, ihEntries⟩ := ih m
          refine ⟨fun s hn hm => ?_, fun s hn hm => ?_, fun s hn hm => ?_⟩
          · cases s with
            | nil => rw [scanOnce, scanOnce]
            | cons c s =>
                rw [List.length_cons] at hn hm
                rw [scanOnce, scanOnce]
                cases ht : skipWs s with
                | nil => rfl
                | cons d t =>
                    have hlength := skipWs_cons_length ht
                    have hitems := ihItems (d :: t) (by rw [List.length_cons]; omega)
                      (by rw [List.length_cons]; omega)
                    dsimp only
                    rw [ihEntries t (by omega) (by omega), hitems]
          · rw [scanItems, scanItems, ihOnce s (by omega) (by omega)]
            cases hv : (scanOnce m s : Option (Json F × Str)) with
            | none => rfl
            | some r =>
                have honce := (scan_length m).1 _ _ hv
                cases ht : skipWs r.2 with
                | nil => simp only [ht]
                | cons d t =>
                    have hlength := skipWs_cons_length ht
                    have hskip := skipWs_length t
                    simp only [ht]
                    rw [ihItems (skipWs t) (by omega) (by omega)]
          · rw [scanEntries, scanEntries]
            cases hk : scanString s with
            | none => rfl
            | some k =>
                have hkey := scanString_length hk
                cases hcolon : skipWs k.2 with
                | nil => simp only [hcolon]
                | cons d t =>
                    have hlength := skipWs_cons_length hcolon
                    have hskip := skipWs_length t
                    simp only [hcolon]
                    rw [ihOnce (skipWs t) (by omega) (by omega)]
                    cases hv : (scanOnce m (skipWs t) : Option (Json F × Str)) with
                    | none => rfl
                    | some r =>
                        have honce := (scan_length m).1 _ _ hv
                        cases hnext : skipWs r.2 with
                        | nil => simp only [hnext]
                        | cons d' t' =>
                            have hlength' := skipWs_cons_length hnext
                            simp only [hnext]
                            cases hquote : skipWs t' with
                            | nil => rfl
                            | cons d'' t'' =>
                                have hlength'' := skipWs_cons_length hquote
                                dsimp only
                                rw [ihEntries t'' (by omega) (by omega)]

/-- No text needs more fuel than `loads` has. -/
theorem loads_fuel (s : Str) {fuel : ℕ} (h : 2 * s.length + 1 ≤ fuel) :
    (loads s : Option (Json F)) = match scanOnce fuel (skipWs s) with
      | none => none
      | some (v, s) => if skipWs s = [] then some v else none := by
  have hskip := skipWs_length s
  unfold loads
  rw [(scan_fuel (2 * s.length + 1) fuel).1 (skipWs s) (by omega) (by omega)]

end fuel

/-! ### Numbers are read back -/

/-- A text that a number before it does not go on in. -/
def Stops (s : Str) : Prop :=
  ∀ c t, s = c :: t → c.isDigit = false ∧ c ≠ '.' ∧ c ≠ 'e' ∧ c ≠ 'E'

theorem stops_nil : Stops [] := fun c t h => by cases h

theorem stops_cons {c : Char} (h : c.isDigit = false ∧ c ≠ '.' ∧ c ≠ 'e' ∧ c ≠ 'E') (s : Str) :
    Stops (c :: s) := by
  intro d t hd
  cases hd
  exact h

theorem natText_digits (n : ℕ) : IsDigits (natText n) :=
  ⟨Nat.toDigits_ne_nil, fun _ hc => Nat.isDigit_of_mem_toDigits (by decide) (by decide) hc⟩

/-- A number starts with a digit, which is a zero for zero only. -/
theorem natText_cons (n : ℕ) :
    ∃ c t, natText n = c :: t ∧ c.isDigit = true ∧ (c = '0' → t = []) := by
  induction n using Nat.strongRecOn with
  | ind n ih =>
      unfold natText
      by_cases hn : n < 10
      · rw [Nat.toDigits_of_lt_base hn]
        have hdigit := (natText_digits n).2
        unfold natText at hdigit
        rw [Nat.toDigits_of_lt_base hn] at hdigit
        exact ⟨_, [], rfl, hdigit _ List.mem_cons_self, fun _ => rfl⟩
      · obtain ⟨c, t, hc, hdigit, hzero⟩ := ih (n / 10) (by omega)
        unfold natText at hc
        rw [Nat.toDigits_of_base_le (by decide) (by omega), hc]
        refine ⟨c, _, rfl, hdigit, fun h0 => ?_⟩
        exfalso
        have hvalue : Nat.ofDigitChars 10 (Nat.toDigits 10 (n / 10)) 0 = n / 10 :=
          Nat.ofDigitChars_ten_toDigits
        rw [hc, h0, hzero h0] at hvalue
        have : Nat.ofDigitChars 10 ['0'] 0 = 0 := rfl
        omega

theorem scanDigits_append {ds : Str} (hds : ∀ c ∈ ds, c.isDigit = true) {rest : Str}
    (hrest : ∀ c t, rest = c :: t → c.isDigit = false) :
    scanDigits (ds ++ rest) = (ds, rest) := by
  unfold scanDigits
  rw [List.takeWhile_append_of_pos hds, List.dropWhile_append_of_pos hds]
  cases rest with
  | nil => simp
  | cons c t => simp [hrest c t rfl]

theorem scanWhole_natText (n : ℕ) {rest : Str}
    (hrest : ∀ c t, rest = c :: t → c.isDigit = false) :
    scanWhole (natText n ++ rest) = some (natText n, rest) := by
  obtain ⟨c, t, hc, hdigit, hzero⟩ := natText_cons n
  have hscan := scanDigits_append (natText_digits n).2 hrest
  rw [hc] at hscan ⊢
  rw [List.cons_append] at hscan ⊢
  rw [scanWhole]
  by_cases h0 : c = '0'
  · rw [if_pos h0, hzero h0, h0]
    rfl
  · rw [if_neg h0, if_pos hdigit, hscan]

theorem scanFrac_stops {rest : Str} (h : ∀ c t, rest = c :: t → c ≠ '.') :
    scanFrac rest = ([], rest) := by
  cases rest with
  | nil => rfl
  | cons c t =>
      rw [scanFrac]
      rw [if_neg]
      rintro ⟨hc, -⟩
      exact h c t rfl hc

theorem scanFrac_append {frac : Str} (hfrac : IsFrac frac) {rest : Str}
    (hrest : ∀ c t, rest = c :: t → c.isDigit = false) :
    scanFrac (frac ++ rest) = (frac, rest) := by
  obtain ⟨ds, rfl, hds⟩ := hfrac
  rw [List.cons_append]
  rw [scanFrac]
  rw [scanDigits_append hds.2 hrest, if_pos ⟨rfl, hds.1⟩]

theorem scanExp_stops {rest : Str} (h : ∀ c t, rest = c :: t → c ≠ 'e' ∧ c ≠ 'E') :
    scanExp rest = ([], rest) := by
  cases rest with
  | nil => rfl
  | cons c t =>
      rw [scanExp]
      dsimp only
      rw [if_neg]
      rintro ⟨hc | hc, -⟩
      · exact (h c t rfl).1 hc
      · exact (h c t rfl).2 hc

theorem scanSign_append {sign ds : Str} (hsign : sign = [] ∨ sign = ['+'] ∨ sign = ['-'])
    (hds : IsDigits ds) (rest : Str) :
    scanSign (sign ++ (ds ++ rest)) = (sign, ds ++ rest) := by
  rcases hsign with rfl | rfl | rfl
  · obtain ⟨hne, hdigits⟩ := hds
    cases ds with
    | nil => exact absurd rfl hne
    | cons d ds =>
        have hd := hdigits d List.mem_cons_self
        show scanSign (d :: (ds ++ rest)) = _
        rw [scanSign]
        rw [if_neg]
        · rfl
        · rintro (rfl | rfl)
          · cases hd
          · cases hd
  · rfl
  · rfl

theorem scanExp_append {exp : Str} (hexp : IsExp exp) {rest : Str}
    (hrest : ∀ c t, rest = c :: t → c.isDigit = false) :
    scanExp (exp ++ rest) = (exp, rest) := by
  obtain ⟨e, sign, ds, rfl, he, hsign, hds⟩ := hexp
  rw [List.cons_append, List.append_assoc]
  rw [scanExp]
  simp only [scanSign_append hsign hds rest, scanDigits_append hds.2 hrest]
  rw [if_pos ⟨he, hds.1⟩]

theorem scanMinus_append (neg : Bool) (n : ℕ) (rest : Str) :
    scanMinus (signText neg ++ (natText n ++ rest)) = (neg, natText n ++ rest) := by
  cases neg with
  | true => rfl
  | false =>
      obtain ⟨c, t, hc, hdigit, -⟩ := natText_cons n
      rw [hc]
      show scanMinus (c :: (t ++ rest)) = _
      rw [scanMinus]
      rw [if_neg]
      · rfl
      · rintro rfl
        cases hdigit

/-- An integer is read back from its text. -/
theorem scanNumber_intText (n : ℤ) {rest : Str} (hrest : Stops rest) :
    scanNumber (F := F) (intText n ++ rest) = some (int n, rest) := by
  have hdigit : ∀ c t, rest = c :: t → c.isDigit = false := fun c t h => (hrest c t h).1
  unfold scanNumber intText
  rw [List.append_assoc, scanMinus_append]
  simp only [scanWhole_natText _ hdigit, scanFrac_stops (fun c t h => (hrest c t h).2.1),
    scanExp_stops (fun c t h => (hrest c t h).2.2), and_self, if_true]
  unfold natText
  rw [Nat.ofDigitChars_ten_toDigits]
  by_cases hn : n < 0
  · simp only [hn, decide_true, if_true]
    rw [show -(n.natAbs : ℤ) = n by omega]
  · simp only [hn, decide_false, Bool.false_eq_true, if_false]
    rw [show (n.natAbs : ℤ) = n by omega]

/-- A number with a fraction or an exponent is read as a float. -/
theorem scanNumber_real {s : Str} (hs : IsReal s) {rest : Str} (hrest : Stops rest) :
    scanNumber (F := F) (s ++ rest) = some (float (FloatText.ofLiteral s), rest) := by
  obtain ⟨neg, n, frac, exp, rfl, hfrac, hexp, hne⟩ := hs
  have hdigit : ∀ c t, rest = c :: t → c.isDigit = false := fun c t h => (hrest c t h).1
  have hstop : ∀ c t, exp ++ rest = c :: t → c.isDigit = false ∧ c ≠ '.' := by
    intro c t h
    rcases hexp with rfl | ⟨e, sign, ds, rfl, he, -, -⟩
    · exact ⟨(hrest c t h).1, (hrest c t h).2.1⟩
    · cases h
      rcases he with rfl | rfl
      · exact ⟨rfl, by decide⟩
      · exact ⟨rfl, by decide⟩
  have hstop' : ∀ c t, frac ++ (exp ++ rest) = c :: t → c.isDigit = false := by
    intro c t h
    rcases hfrac with rfl | ⟨ds, rfl, -⟩
    · exact (hstop c t h).1
    · cases h
      rfl
  have hscanFrac : scanFrac (frac ++ (exp ++ rest)) = (frac, exp ++ rest) := by
    rcases hfrac with rfl | hfrac
    · exact scanFrac_stops (fun c t h => (hstop c t h).2)
    · exact scanFrac_append hfrac (fun c t h => (hstop c t h).1)
  have hscanExp : scanExp (exp ++ rest) = (exp, rest) := by
    rcases hexp with rfl | hexp
    · exact scanExp_stops (fun c t h => (hrest c t h).2.2)
    · exact scanExp_append hexp hdigit
  unfold scanNumber
  rw [List.append_assoc, List.append_assoc, List.append_assoc, scanMinus_append]
  simp only [scanWhole_natText n hstop', hscanFrac, hscanExp]
  rw [if_neg]
  rintro ⟨hf, he⟩
  rcases hne with hne | hne
  · exact hne hf
  · exact hne he

/-! ### Strings are read back -/

omit [FloatText F] in
theorem hexValue_digitChar : ∀ n < 16, hexValue n.digitChar = some n := by decide

theorem scanCodes_escape {e : Char} {n : ℕ} (he : e ≠ 'u') (h : unescape e = some n) (t : Str) :
    scanCodes ('\\' :: e :: t) = (scanCodes t).map (fun r => (n :: r.1, r.2)) := by
  rw [scanCodes.eq_def]
  dsimp only
  rw [if_neg (by decide), if_pos rfl, if_neg he, h]

theorem scanCodes_hex (c : Char) (h : c.toNat < 32) (t : Str) :
    scanCodes ('\\' :: 'u' :: '0' :: '0' :: (c.toNat / 16).digitChar ::
        (c.toNat % 16).digitChar :: t) =
      (scanCodes t).map (fun r => (c.toNat :: r.1, r.2)) := by
  have hhex : hex4 '0' '0' (c.toNat / 16).digitChar (c.toNat % 16).digitChar = some c.toNat := by
    unfold hex4
    rw [hexValue_digitChar _ (by omega), hexValue_digitChar _ (by omega)]
    show some (((0 * 16 + 0) * 16 + c.toNat / 16) * 16 + c.toNat % 16) = _
    congr 1
    omega
  rw [scanCodes.eq_def]
  dsimp only
  rw [if_neg (by decide), if_pos rfl, if_pos rfl, hhex]

/-- A quoted character is read as its code point. -/
theorem scanCodes_quoteChar (c : Char) (t : Str) :
    scanCodes (quoteChar c ++ t) = (scanCodes t).map (fun r => (c.toNat :: r.1, r.2)) := by
  unfold quoteChar
  split_ifs with hquote hback hn hr ht hf hb hcontrol
  · exact scanCodes_escape (by decide) (by rw [hquote]; rfl) t
  · exact scanCodes_escape (by decide) (by rw [hback]; rfl) t
  · exact scanCodes_escape (by decide) (by rw [hn]; rfl) t
  · exact scanCodes_escape (by decide) (by rw [hr]; rfl) t
  · exact scanCodes_escape (by decide) (by rw [ht]; rfl) t
  · exact scanCodes_escape (by decide) (by rw [hf]; rfl) t
  · exact scanCodes_escape (by decide) (by rw [hb]; rfl) t
  · exact scanCodes_hex c hcontrol t
  · show scanCodes (c :: t) = _
    rw [scanCodes.eq_def]
    dsimp only
    rw [if_neg hquote, if_neg hback, if_neg hcontrol]

theorem scanCodes_quoteBody (s t : Str) :
    scanCodes (quoteBody s ++ '"' :: t) = some (s.map Char.toNat, t) := by
  induction s with
  | nil =>
      show scanCodes ('"' :: t) = _
      rw [scanCodes.eq_def]
      rfl
  | cons c s ih =>
      unfold quoteBody at ih ⊢
      rw [List.flatMap_cons, List.append_assoc, scanCodes_quoteChar, ih]
      rfl

/-- No character is half of a surrogate pair. -/
theorem not_surrogate (c : Char) : isHigh c.toNat = false ∧ isLow c.toNat = false := by
  unfold isHigh isLow
  have hvalid := c.valid
  unfold UInt32.isValidChar Nat.isValidChar at hvalid
  have hvalue : c.toNat = c.val.toNat := rfl
  rw [← hvalue] at hvalid
  constructor
  · rw [Bool.and_eq_false_iff, decide_eq_false_iff_not, decide_eq_false_iff_not]
    omega
  · rw [Bool.and_eq_false_iff, decide_eq_false_iff_not, decide_eq_false_iff_not]
    omega

theorem joinCodes_map (s : Str) : joinCodes (s.map Char.toNat) = s := by
  have hchar : ∀ c : Char, codeChar c.toNat = c := by
    intro c
    unfold codeChar
    rw [(not_surrogate c).1, (not_surrogate c).2, if_neg (by simp), Char.ofNat_toNat]
  induction s with
  | nil => rfl
  | cons c s ih =>
      cases s with
      | nil =>
          show [codeChar c.toNat] = [c]
          rw [hchar]
      | cons d s =>
          rw [List.map_cons] at ih ⊢
          rw [List.map_cons, joinCodes, (not_surrogate c).1, Bool.false_and,
            if_neg Bool.false_ne_true, hchar, ih]

theorem scanString_quoteBody (s t : Str) : scanString (quoteBody s ++ '"' :: t) = some (s, t) := by
  unfold scanString
  rw [scanCodes_quoteBody, Option.map_some, joinCodes_map]

/-! ### Values are read back -/

/-- A character that numbers start with. -/
def IsNumberHead (c : Char) : Prop := c = '-' ∨ c.isDigit = true

theorem number_head (neg : Bool) (n : ℕ) (s : Str) :
    ∃ c t, signText neg ++ (natText n ++ s) = c :: t ∧ IsNumberHead c := by
  cases neg with
  | true => exact ⟨'-', _, rfl, Or.inl rfl⟩
  | false =>
      obtain ⟨c, t, hc, hdigit, -⟩ := natText_cons n
      rw [hc]
      exact ⟨c, t ++ s, rfl, Or.inr hdigit⟩

theorem intText_head (n : ℤ) : ∃ c t, intText n = c :: t ∧ IsNumberHead c := by
  have hhead := number_head (n < 0) n.natAbs []
  rw [List.append_nil] at hhead
  exact hhead

theorem real_head {s : Str} (h : IsReal s) : ∃ c t, s = c :: t ∧ IsNumberHead c := by
  obtain ⟨neg, n, frac, exp, rfl, -⟩ := h
  rw [List.append_assoc, List.append_assoc]
  exact number_head neg n _

theorem IsNumberHead.ne {c d : Char} (h : IsNumberHead c) (hd : d ≠ '-' ∧ d.isDigit = false) :
    c ≠ d := by
  rintro rfl
  rcases h with h | h
  · exact hd.1 h
  · rw [hd.2] at h
    cases h

/-- The text of a value starts with a character that is neither white space nor a closing
bracket. -/
theorem dumps_head (v : Json F) :
    ∃ c t, v.dumps = c :: t ∧ isWs c = false ∧ c ≠ ']' := by
  have hnumber : ∀ {s : Str}, (∃ c t, s = c :: t ∧ IsNumberHead c) →
      ∃ c t, s = c :: t ∧ isWs c = false ∧ c ≠ ']' := by
    rintro s ⟨c, t, rfl, hc⟩
    refine ⟨c, t, rfl, ?_, hc.ne (by decide)⟩
    unfold isWs
    simp [hc.ne (d := ' ') (by decide), hc.ne (d := '\t') (by decide),
      hc.ne (d := '\n') (by decide), hc.ne (d := '\r') (by decide)]
  cases v with
  | null => exact ⟨'n', _, rfl, rfl, by decide⟩
  | bool b =>
      cases b with
      | true => exact ⟨'t', _, rfl, rfl, by decide⟩
      | false => exact ⟨'f', _, rfl, rfl, by decide⟩
  | int n => exact hnumber (intText_head n)
  | float x =>
      cases x with
      | fin x => exact hnumber (real_head (FloatText.repr_real x))
      | inf neg =>
          cases neg with
          | true => exact ⟨'-', _, rfl, rfl, by decide⟩
          | false => exact ⟨'I', _, rfl, rfl, by decide⟩
      | nan => exact ⟨'N', _, rfl, rfl, by decide⟩
  | str s => exact ⟨'"', _, rfl, rfl, by decide⟩
  | list xs => exact ⟨'[', _, rfl, rfl, by decide⟩
  | dict entries => exact ⟨'{', _, rfl, rfl, by decide⟩

omit [FloatText F] in
theorem scanWord_ne {c d : Char} (h : c ≠ d) (w : Str) (v : Json F) (s : Str) :
    scanWord (d :: w) v (c :: s) = none := by
  unfold scanWord
  rw [if_neg]
  rw [List.isPrefixOf_iff_prefix, List.cons_prefix_cons]
  rintro ⟨hd, -⟩
  exact h hd.symm

/-- A text that starts like a number is read as a number. -/
theorem scanOnce_number {fuel : ℕ} {s : Str} {r : Json F × Str}
    (hs : ∃ c t, s = c :: t ∧ IsNumberHead c) (h : scanNumber s = some r) :
    scanOnce (fuel + 1) s = some r := by
  obtain ⟨c, t, rfl, hc⟩ := hs
  rw [scanOnce, if_neg (hc.ne (by decide)), if_neg (hc.ne (by decide)),
    if_neg (hc.ne (by decide))]
  have hnull : scanWord "null" null (c :: t) = (none : Option (Json F × Str)) :=
    scanWord_ne (hc.ne (d := 'n') (by decide)) _ _ _
  have htrue : scanWord "true" (bool true) (c :: t) = (none : Option (Json F × Str)) :=
    scanWord_ne (hc.ne (d := 't') (by decide)) _ _ _
  have hfalse : scanWord "false" (bool false) (c :: t) = (none : Option (Json F × Str)) :=
    scanWord_ne (hc.ne (d := 'f') (by decide)) _ _ _
  unfold scanAtom
  rw [hnull, htrue, hfalse, h]
  rfl

theorem skipWs_cons {c : Char} (h : isWs c = false) (s : Str) : skipWs (c :: s) = c :: s := by
  unfold skipWs
  rw [List.dropWhile_cons_of_neg (by simp [h])]

theorem skipWs_blank (s : Str) : skipWs (' ' :: s) = skipWs s := rfl

theorem skipWs_dumps (v : Json F) (s : Str) : skipWs (v.dumps ++ s) = v.dumps ++ s := by
  obtain ⟨c, t, hc, hws, -⟩ := dumps_head v
  rw [hc]
  exact skipWs_cons hws _

omit [FloatText F] in
theorem setItem_new {k : Str} {v : Json F} {entries : List (Str × Json F)}
    (h : k ∉ entries.map Prod.fst) : setItem k v entries = entries ++ [(k, v)] := by
  induction entries with
  | nil => rfl
  | cons e entries ih =>
      rw [List.map_cons, List.mem_cons, not_or] at h
      rw [setItem, if_neg (Ne.symm h.1), ih h.2]
      rfl

omit [FloatText F] in
/-- A list of pairs with distinct keys is a dictionary. -/
theorem ofPairs_eq_self {pairs : List (Str × Json F)} (h : (pairs.map Prod.fst).Nodup) :
    ofPairs pairs = pairs := by
  have hfold : ∀ d : List (Str × Json F), ((d ++ pairs).map Prod.fst).Nodup →
      pairs.foldl (fun d e => setItem e.1 e.2 d) d = d ++ pairs := by
    clear h
    induction pairs with
    | nil => intro d _; exact (List.append_nil d).symm
    | cons e pairs ih =>
        intro d hd
        have hnew : e.1 ∉ d.map Prod.fst := by
          rw [List.map_append, List.nodup_append] at hd
          exact fun hmem => hd.2.2 _ hmem _ List.mem_cons_self rfl
        rw [List.foldl_cons, setItem_new hnew, ih _ (by rw [List.append_assoc]; exact hd),
          List.append_assoc]
        rfl
  exact hfold [] h

mutual
/-- A value is read back from its text. -/
theorem scanOnce_dumps : ∀ (v : Json F) (fuel : ℕ) (rest : Str), v.WF →
    2 * v.dumps.length ≤ fuel → Stops rest → scanOnce fuel (v.dumps ++ rest) = some (v, rest)
  | v, 0, rest, _, hfuel, _ => by
      obtain ⟨c, t, hc, -, -⟩ := dumps_head v
      rw [hc, List.length_cons] at hfuel
      omega
  | null, fuel + 1, rest, _, _, _ => rfl
  | bool true, fuel + 1, rest, _, _, _ => rfl
  | bool false, fuel + 1, rest, _, _, _ => rfl
  | int n, fuel + 1, rest, _, _, hrest => by
      obtain ⟨c, t, hc, hhead⟩ := intText_head n
      have hscan := scanNumber_intText (F := F) n hrest
      exact scanOnce_number ⟨c, t ++ rest, congrArg (· ++ rest) hc, hhead⟩ hscan
  | float (.fin x), fuel + 1, rest, _, _, hrest => by
      obtain ⟨c, t, hc, hhead⟩ := real_head (FloatText.repr_real x)
      have hscan := scanNumber_real (F := F) (FloatText.repr_real x) hrest
      rw [FloatText.ofLiteral_repr] at hscan
      exact scanOnce_number ⟨c, t ++ rest, congrArg (· ++ rest) hc, hhead⟩ hscan
  | float (.inf true), fuel + 1, rest, _, _, _ => rfl
  | float (.inf false), fuel + 1, rest, _, _, _ => rfl
  | float .nan, fuel + 1, rest, _, _, _ => rfl
  | str s, fuel + 1, rest, _, _, _ => by
      have htext : (str s : Json F).dumps ++ rest = '"' :: (quoteBody s ++ '"' :: rest) := by
        show '"' :: (quoteBody s ++ ['"']) ++ rest = _
        simp
      rw [htext, scanOnce, if_pos rfl, scanString_quoteBody]
      rfl
  | list [], fuel + 1, rest, _, _, _ => rfl
  | list (x :: xs), fuel + 1, rest, hwf, hfuel, _ => by
      have hlength : (list (x :: xs)).dumps.length = (dumpItems (x :: xs)).length + 1 := rfl
      have hitems := scanItems_dumps (x :: xs) fuel rest (List.cons_ne_nil _ _) hwf (by omega)
      obtain ⟨c, t, hc, hws, hclose⟩ := dumps_head x
      have htext : dumpItems (x :: xs) ++ rest = c :: (t ++ ((if xs.isEmpty then [']'] else
          ',' :: ' ' :: dumpItems xs) ++ rest)) := by
        rw [dumpItems, hc, List.append_assoc]
        rfl
      show scanOnce (fuel + 1) ('[' :: (dumpItems (x :: xs) ++ rest)) = _
      rw [scanOnce, if_neg (by decide), if_neg (by decide), if_pos rfl]
      rw [htext] at hitems ⊢
      rw [skipWs_cons hws]
      dsimp only
      rw [if_neg hclose, hitems]
      rfl
  | dict [], fuel + 1, rest, _, _, _ => rfl
  | dict (e :: entries), fuel + 1, rest, hwf, hfuel, _ => by
      have hlength : (dict (e :: entries)).dumps.length = (dumpEntries (e :: entries)).length + 1 :=
        rfl
      have hentries := scanEntries_dumps (e :: entries) fuel rest (List.cons_ne_nil _ _) hwf.2
        (by omega)
      obtain ⟨s, hs⟩ : ∃ s, dumpEntries (e :: entries) = '"' :: s := ⟨_, rfl⟩
      show scanOnce (fuel + 1) ('{' :: (dumpEntries (e :: entries) ++ rest)) = _
      rw [hs, List.tail_cons] at hentries
      rw [hs, scanOnce, if_neg (by decide), if_pos rfl, List.cons_append,
        skipWs_cons (by decide)]
      dsimp only
      rw [if_neg (by decide), if_pos rfl, hentries, Option.map_some, ofPairs_eq_self hwf.1]

/-- The items of a list are read back up to its end. -/
theorem scanItems_dumps : ∀ (xs : List (Json F)) (fuel : ℕ) (rest : Str), xs ≠ [] → WFItems xs →
    2 * (dumpItems xs).length + 1 ≤ fuel →
      scanItems fuel (dumpItems xs ++ rest) = some (xs, rest)
  | [], _, _, hne, _, _ => absurd rfl hne
  | _ :: _, 0, _, _, _, hfuel => by omega
  | [x], fuel + 1, rest, _, hwf, hfuel => by
      have htext : dumpItems [x] ++ rest = x.dumps ++ ']' :: rest := by
        simp [dumpItems]
      have hlength : (dumpItems [x]).length = x.dumps.length + 1 := by
        simp [dumpItems]
      have hx := scanOnce_dumps x fuel (']' :: rest) hwf.1 (by omega) (stops_cons (by decide) _)
      rw [htext, scanItems, hx]
      rfl
  | x :: y :: xs, fuel + 1, rest, _, hwf, hfuel => by
      have htext : dumpItems (x :: y :: xs) ++ rest =
          x.dumps ++ ',' :: ' ' :: (dumpItems (y :: xs) ++ rest) := by
        rw [dumpItems]
        simp
      have hlength : (dumpItems (x :: y :: xs)).length =
          x.dumps.length + (dumpItems (y :: xs)).length + 2 := by
        rw [dumpItems]
        simp
        omega
      have hx := scanOnce_dumps x fuel (',' :: ' ' :: (dumpItems (y :: xs) ++ rest)) hwf.1
        (by omega) (stops_cons (by decide) _)
      have hxs := scanItems_dumps (y :: xs) fuel rest (List.cons_ne_nil _ _) hwf.2 (by omega)
      have hskip : skipWs (' ' :: (dumpItems (y :: xs) ++ rest)) = dumpItems (y :: xs) ++ rest := by
        rw [skipWs_blank, dumpItems, List.append_assoc, skipWs_dumps]
      rw [htext, scanItems, hx]
      dsimp only
      rw [skipWs_cons (by decide)]
      dsimp only
      rw [if_neg (by decide), if_pos rfl, hskip, hxs]
      rfl

/-- The entries of a dictionary are read back up to its end, from after the first quote on. -/
theorem scanEntries_dumps : ∀ (entries : List (Str × Json F)) (fuel : ℕ) (rest : Str),
    entries ≠ [] → WFEntries entries → 2 * (dumpEntries entries).length ≤ fuel →
      scanEntries fuel ((dumpEntries entries).tail ++ rest) = some (entries, rest)
  | [], _, _, hne, _, _ => absurd rfl hne
  | (k, v) :: entries, 0, _, _, _, hfuel => by
      rw [dumpEntries, quote, List.cons_append, List.length_cons] at hfuel
      omega
  | [(k, v)], fuel + 1, rest, _, hwf, hfuel => by
      have htext : (dumpEntries [(k, v)]).tail ++ rest =
          quoteBody k ++ '"' :: ':' :: ' ' :: (v.dumps ++ '}' :: rest) := by
        simp [dumpEntries, quote]
      have hlength : v.dumps.length + 4 ≤ (dumpEntries [(k, v)]).length := by
        simp [dumpEntries, quote]
        omega
      have hv := scanOnce_dumps v fuel ('}' :: rest) hwf.1 (by omega) (stops_cons (by decide) _)
      rw [htext, scanEntries, scanString_quoteBody]
      dsimp only
      rw [skipWs_cons (by decide)]
      dsimp only
      rw [if_pos rfl, skipWs_blank, skipWs_dumps, hv]
      rfl
  | (k, v) :: e :: entries, fuel + 1, rest, _, hwf, hfuel => by
      obtain ⟨s, hs⟩ : ∃ s, dumpEntries (e :: entries) = '"' :: s := ⟨_, rfl⟩
      have hcons : dumpEntries ((k, v) :: e :: entries) =
          quote k ++ ':' :: ' ' :: (v.dumps ++ ',' :: ' ' :: dumpEntries (e :: entries)) := rfl
      have htext : (dumpEntries ((k, v) :: e :: entries)).tail ++ rest =
          quoteBody k ++ '"' :: ':' :: ' ' ::
            (v.dumps ++ ',' :: ' ' :: (dumpEntries (e :: entries) ++ rest)) := by
        rw [hcons]
        simp [quote]
      have hlength : v.dumps.length + (dumpEntries (e :: entries)).length + 6 ≤
          (dumpEntries ((k, v) :: e :: entries)).length := by
        rw [hcons]
        simp [quote]
        omega
      have hv := scanOnce_dumps v fuel (',' :: ' ' :: (dumpEntries (e :: entries) ++ rest)) hwf.1
        (by omega) (stops_cons (by decide) _)
      have hentries := scanEntries_dumps (e :: entries) fuel rest (List.cons_ne_nil _ _) hwf.2
        (by omega)
      rw [hs, List.tail_cons] at hentries
      rw [htext, scanEntries, scanString_quoteBody]
      dsimp only
      rw [skipWs_cons (by decide)]
      dsimp only
      rw [if_pos rfl, skipWs_blank, skipWs_dumps, hv]
      dsimp only
      rw [skipWs_cons (by decide)]
      dsimp only
      rw [if_neg (by decide), if_pos rfl, skipWs_blank, hs, List.cons_append,
        skipWs_cons (by decide)]
      dsimp only
      rw [if_pos rfl, hentries]
      rfl
end

/-- **Round trip.**  A value whose dictionaries have distinct keys is read back from its text. -/
theorem loads_dumps {v : Json F} (h : v.WF) : loads v.dumps = some v := by
  have hscan := scanOnce_dumps v (2 * v.dumps.length + 1) [] h (by omega) stops_nil
  rw [List.append_nil] at hscan
  have hskip := skipWs_dumps v []
  rw [List.append_nil] at hskip
  unfold loads
  rw [hskip, hscan]
  rfl

end Json

end RagFlow
