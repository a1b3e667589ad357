import Mathlib.Data.List.GetD
import Mathlib.Tactic.SplitIfs
import RagFlow.CliParser
import RagFlow.Dict

/-! # The lexer of the command line

The lexer of `internal/cli/lexer.go` works on bytes.  It holds a position, the position to read next
and the byte at the position, which is 0 at the end of the input.

* **State.** `Lexer.Ok` relates the three fields.  Every read keeps it as long as the byte is not 0
  (`Lexer.Ok.readChar`), so a slice up to the position is in range.
* **Loops.** All loops of the lexer read while the byte is in a class that 0 is not in
  (`Lexer.readWhile`); `Lexer.Ok.readWhile` says what they do.
* **Tokens.** `nextToken_spec`: a call returns, moves forward for every token but `TokenEOF`, and
  after `TokenEOF` all calls return it.  A byte 0 in the input is taken for the end.
* **Parser.** The parser holds two tokens and the lexer.  `LexerParser.rest` bounds the tokens that
  are left, and each turn of a token loop takes one. -/

namespace RagFlow.Cli

/-! ### State -/

/-- What ends a call without a result. -/
inductive Fault
  /-- The panic of a slice whose bounds are out of range. -/
  | outOfRange
  /-- An error that is returned. -/
  | error (message : String)
deriving DecidableEq

structure Lexer where
  input : List UInt8
  pos : ℕ
  readPos : ℕ
  ch : UInt8

/-- A Go string, as a text with one character for each byte. -/
def goString (bytes : List UInt8) : String :=
  String.ofList (bytes.map (fun b => Char.ofNat b.toNat))

namespace Lexer

def readChar (l : Lexer) : Lexer where
  input := l.input
  pos := l.readPos
  readPos := l.readPos + 1
  ch := if h : l.readPos < l.input.length then l.input[l.readPos] else 0

end Lexer

def newLexer (input : List UInt8) : Lexer := (Lexer.mk input 0 0 0).readChar

/-! ### Classes of bytes -/

def isSpace (ch : UInt8) : Bool := ch == 32 || ch == 9 || ch == 10 || ch == 13

/-- `unicode.IsLetter` of a byte: the letters of Latin-1. -/
def isLetter (ch : UInt8) : Bool :=
  (65 ≤ ch && ch ≤ 90) || (97 ≤ ch && ch ≤ 122) || ch == 0xAA || ch == 0xB5 || ch == 0xBA ||
    (0xC0 ≤ ch && ch != 0xD7 && ch != 0xF7)

def isDigit (ch : UInt8) : Bool := 48 ≤ ch && ch ≤ 57

/-- The bytes of the name of a meta command: letters and `?`. -/
def isMetaPart (ch : UInt8) : Bool := isLetter ch || ch == 63

/-- The bytes of an identifier: letters, digits, `_`, `-` and `.`. -/
def isIdentPart (ch : UInt8) : Bool :=
  isLetter ch || isDigit ch || ch == 95 || ch == 45 || ch == 46

/-- The bytes of a string in quotes. -/
def isQuotedPart (quote ch : UInt8) : Bool := ch != quote && ch != 0

/-! ### Reading -/

namespace Lexer

/-- Reads while the byte is in a class.  The byte 0 is in none, so the reading ends. -/
def readWhile (p : UInt8 → Bool) (hp : p 0 = false) (l : Lexer) : Lexer :=
  if hin : p l.ch then readWhile p hp l.readChar else l
termination_by l.input.length - l.readPos + (if l.ch = 0 then 0 else 1)
decreasing_by
  have hne : l.ch ≠ 0 := by
    intro hzero
    rw [hzero, hp] at hin
    cases hin
  rw [if_neg hne]
  show l.input.length - (l.readPos + 1) + (if l.readChar.ch = 0 then 0 else 1) < _
  by_cases hlt : l.readPos < l.input.length
  · split_ifs <;> omega
  · have hend : l.readChar.ch = 0 := dif_neg hlt
    rw [if_pos hend]
    omega

/-- `l.input[start:l.pos]`. -/
def slice (l : Lexer) (start : ℕ) : Except Fault (List UInt8) :=
  if start ≤ l.pos ∧ l.pos ≤ l.input.length then .ok ((l.input.take l.pos).drop start)
  else .error .outOfRange

/-- Reads while the byte is in a class, and takes the slice from `start` on. -/
def readRun (p : UInt8 → Bool) (hp : p 0 = false) (l : Lexer) (start : ℕ) :
    Except Fault (List UInt8 × Lexer) := do
  let l := l.readWhile p hp
  let str ← l.slice start
  return (str, l)

def skipWhitespace (l : Lexer) : Lexer := l.readWhile isSpace rfl

/-- The backslash is read first. -/
def readMetaCommand (l : Lexer) : Except Fault (List UInt8 × Lexer) :=
  l.readChar.readRun isMetaPart rfl l.pos

def readIdentifier (l : Lexer) : Except Fault (List UInt8 × Lexer) :=
  l.readRun isIdentPart rfl l.pos

def readNumber (l : Lexer) : Except Fault (List UInt8 × Lexer) := l.readRun isDigit rfl l.pos

theorem isQuotedPart_zero (quote : UInt8) : isQuotedPart quote 0 = false := Bool.and_false _

/-- The quotes are not in the slice, and the closing one may be missing. -/
def readQuotedString (l : Lexer) (quote : UInt8) : Except Fault (List UInt8 × Lexer) := do
  let l := l.readChar
  let (str, l) ← l.readRun (isQuotedPart quote) (isQuotedPart_zero quote) l.pos
  return (str, if l.ch = quote then l.readChar else l)

end Lexer

/-! ### Tokens -/

/-- `string(ch)`: the UTF-8 encoding of the code point. -/
def charString (ch : UInt8) : List UInt8 :=
  if ch < 0x80 then [ch] else [(0xC0 : UInt8) ||| (ch >>> 6), (0x80 : UInt8) ||| (ch &&& 0x3F)]

def newToken (tokenType : TokenType) (ch : UInt8) : Token := ⟨tokenType, goString (charString ch)⟩

def keywords : List (String × TokenType) :=
  [("LOGIN", .tokenLogin), ("REGISTER", .tokenRegister), ("LIST", .tokenList),
   ("SERVICES", .tokenServices), ("SHOW", .tokenShow), ("CREATE", .tokenCreate),
   ("SERVICE", .tokenService), ("SHUTDOWN", .tokenShutdown), ("STARTUP", .tokenStartup),
   ("RESTART", .tokenRestart), ("USERS", .tokenUsers), ("DROP", .tokenDrop), ("USER", .tokenUser),
   ("ALTER", .tokenAlter), ("ACTIVE", .tokenActive), ("ADMIN", .tokenAdmin),
   ("PASSWORD", .tokenPassword), ("DATASET", .tokenDataset), ("DATASETS", .tokenDatasets),
   ("OF", .tokenOf), ("AGENTS", .tokenAgents), ("ROLE", .tokenRole), ("ROLES", .tokenRoles),
   ("DESCRIPTION", .tokenDescription), ("GRANT", .tokenGrant), ("REVOKE", .tokenRevoke),
   ("ALL", .tokenAll), ("PERMISSION", .tokenPermission), ("TO", .tokenTo), ("FROM", .tokenFrom),
   ("FOR", .tokenFor), ("RESOURCES", .tokenResources), ("ON", .tokenOn), ("SET", .tokenSet),
   ("RESET", .tokenReset), ("VERSION", .tokenVersion), ("VAR", .tokenVar), ("VARS", .tokenVars),
   ("CONFIGS", .tokenConfigs), ("ENVS", .tokenEnvs), ("KEY", .tokenKey), ("KEYS", .tokenKeys),
   ("GENERATE", .tokenGenerate), ("MODEL", .tokenModel), ("MODELS", .tokenModels),
   ("PROVIDER", .tokenProvider), ("PROVIDERS", .tokenProviders), ("DEFAULT", .tokenDefault),
   ("CHATS", .tokenChats), ("CHAT", .tokenChat), ("FILES", .tokenFiles), ("AS", .tokenAs),
   ("PARSE", .tokenParse), ("IMPORT", .tokenImport), ("INTO", .tokenInto), ("WITH", .tokenWith),
   ("PARSER", .tokenParser), ("PIPELINE", .tokenPipeline), ("SEARCH", .tokenSearch),
   ("CURRENT", .tokenCurrent), ("LLM", .tokenLLM), ("VLM", .tokenVLM),
   ("EMBEDDING", .tokenEmbedding), ("RERANKER", .tokenReranker), ("ASR", .tokenASR),
   ("TTS", .tokenTTS), ("ASYNC", .tokenAsync), ("SYNC", .tokenSync),
   ("BENCHMARK", .tokenBenchmark), ("PING", .tokenPing)]

/-- `strings.ToUpper`, with bytes outside ASCII as they are: with one of them no keyword results. -/
def toUpper (ident : List UInt8) : List UInt8 :=
  ident.map (fun b => if 97 ≤ b ∧ b ≤ 122 then b - 32 else b)

def lookupIdent (ident : List UInt8) : Token :=
  ⟨(keywords.lookup (goString (toUpper ident))).getD .tokenIdentifier, goString ident⟩

/-- A token whose value is what was read. -/
def giving (tokenType : TokenType) (r : List UInt8 × Lexer) : Token × Lexer :=
  (⟨tokenType, goString r.1⟩, r.2)

/-- `NextToken`: the token and the lexer after it. -/
def Lexer.nextToken (l : Lexer) : Except Fault (Token × Lexer) :=
  let l := l.skipWhitespace
  if l.ch = 59 then .ok (newToken .tokenSemicolon l.ch, l.readChar)
  else if l.ch = 44 then .ok (newToken .tokenComma l.ch, l.readChar)
  else if l.ch = 39 then (l.readQuotedString 39).map (giving .tokenQuotedString)
  else if l.ch = 34 then (l.readQuotedString 34).map (giving .tokenQuotedString)
  else if l.ch = 92 then l.readMetaCommand.map (giving .tokenIdentifier)
  else if l.ch = 0 then .ok (eof, l)
  else if isLetter l.ch then l.readIdentifier.map (fun r => (lookupIdent r.1, r.2))
  else if isDigit l.ch then l.readNumber.map (giving .tokenNumber)
  else .ok (newToken .tokenIllegal l.ch, l.readChar)

/-- Some calls of `NextToken`, one after another. -/
def Lexer.calls : ℕ → Lexer → Except Fault (List Token × Lexer)
  | 0, l => .ok ([], l)
  | n + 1, l => do
      let (token, l) ← l.nextToken
      let (tokens, l) ← calls n l
      return (token :: tokens, l)

/-- The calls up to the first `TokenEOF`; `none` if there is none in the first `fuel` calls. -/
def Lexer.tokens : ℕ → Lexer → Except Fault (Option (List Token))
  | 0, _ => .ok none
  | fuel + 1, l => do
      let (token, l) ← l.nextToken
      if token.type = .tokenEOF then return some []
      let rest ← tokens fuel l
      return rest.map (token :: ·)

/-! ### The parser on the lexer -/

/-- The parser as the source has it. -/
structure LexerParser where
  lexer : Lexer
  curToken : Token
  peekToken : Token

namespace LexerParser

def nextToken (p : LexerParser) : Except Fault LexerParser := do
  let (token, l) ← p.lexer.nextToken
  return ⟨l, p.peekToken, token⟩

/-- Some calls of `nextToken`, one after another. -/
def advance : ℕ → LexerParser → Except Fault LexerParser
  | 0, p => .ok p
  | n + 1, p => p.nextToken >>= advance n

/-- The loop of `parseMetaCommand`; `none` if it has not ended after `fuel` turns. -/
def metaArgs : ℕ → LexerParser → List String → Except Fault (Option (List String × LexerParser))
  | 0, _, _ => .ok none
  | fuel + 1, p, args =>
      if p.curToken.type ≠ .tokenEOF then do
        let p' ← p.nextToken
        metaArgs fuel p' (args ++ [p.curToken.value])
      else .ok (some (args, p))

def parseIdentifier (p : LexerParser) : Except Fault String :=
  if p.curToken.type ≠ .tokenIdentifier then
    .error (.error ("expected identifier, got " ++ p.curToken.value))
  else .ok p.curToken.value

/-- The loop of `parseIdentifierList`; `none` if it has not ended after `fuel` turns. -/
def identifiers : ℕ → LexerParser → List String → Except Fault (Option (List String × LexerParser))
  | 0, _, _ => .ok none
  | fuel + 1, p, list =>
      if p.curToken.type = .tokenComma then do
        let p ← p.nextToken
        let ident ← p.parseIdentifier
        let p ← p.nextToken
        identifiers fuel p (list ++ [ident])
      else .ok (some (list, p))

def parseIdentifierList (fuel : ℕ) (p : LexerParser) :
    Except Fault (Option (List String × LexerParser)) := do
  let ident ← p.parseIdentifier
  let p ← p.nextToken
  identifiers fuel p [ident]

end LexerParser

/-- `NewParser`: two calls of `nextToken`, on a parser whose tokens are not set yet. -/
def newLexerParser (input : List UInt8) : Except Fault LexerParser :=
  LexerParser.advance 2 ⟨newLexer input, ⟨.tokenLogin, ""⟩, ⟨.tokenLogin, ""⟩⟩

/-! ### The state of the lexer -/

/-- The position is in the input or at its end, and the other fields go with it. -/
structure Lexer.Ok (l : Lexer) : Prop where
  pos_le : l.pos ≤ l.input.length
  readPos_eq : l.readPos = l.pos + 1
  ch_eq : l.ch = l.input.getD l.pos 0

/-- The second lexer is the first one after some bytes. -/
structure Lexer.Follows (l l' : Lexer) : Prop where
  ok : l'.Ok
  input : l'.input = l.input
  pos : l.pos ≤ l'.pos

namespace Lexer

variable {l l' l'' : Lexer}

theorem readChar_ch_eq (l : Lexer) : l.readChar.ch = l.input.getD l.readPos 0 := by
  unfold readChar
  dsimp only
  split_ifs with h
  · rw [List.getD_eq_getElem _ _ h]
  · rw [List.getD_eq_default _ _ (by omega)]

theorem newLexer_ok (input : List UInt8) : (newLexer input).Ok :=
  ⟨Nat.zero_le _, rfl, readChar_ch_eq _⟩

theorem Follows.refl (h : l.Ok) : l.Follows l := ⟨h, rfl, Nat.le_refl _⟩

theorem Follows.trans (h : l.Follows l') (h' : l'.Follows l'') : l.Follows l'' :=
  ⟨h'.ok, h'.input.trans h.input, Nat.le_trans h.pos h'.pos⟩

/-- A byte that is not 0 is a byte of the input. -/
theorem Ok.pos_lt (h : l.Ok) (hne : l.ch ≠ 0) : l.pos < l.input.length := by
  refine Nat.lt_of_not_le (fun hle => hne ?_)
  rw [h.ch_eq, List.getD_eq_default _ _ hle]

/-- Reading on from a byte that is not 0 moves one byte forward. -/
theorem Ok.readChar (h : l.Ok) (hne : l.ch ≠ 0) :
    l.Follows l.readChar ∧ l.readChar.pos = l.pos + 1 := by
  have hlt := h.pos_lt hne
  have hpos : l.readChar.pos = l.pos + 1 := h.readPos_eq
  have hread : l.readChar.readPos = l.readPos + 1 := rfl
  refine ⟨⟨⟨?_, ?_, readChar_ch_eq l⟩, rfl, ?_⟩, hpos⟩
  · rw [hpos]
    exact hlt
  · rw [hread, hpos, h.readPos_eq]
  · rw [hpos]
    omega

theorem readWhile_of_not {p : UInt8 → Bool} (hp : p 0 = false) (hout : p l.ch = false) :
    l.readWhile p hp = l := by
  rw [Lexer.readWhile, dif_neg (by rw [hout]; exact Bool.false_ne_true)]

/-- A loop moves forward to a byte that is not in its class; by at least one byte if it turns. -/
theorem Ok.readWhile {p : UInt8 → Bool} (hp : p 0 = false) (h : l.Ok) :
    l.Follows (l.readWhile p hp) ∧ p (l.readWhile p hp).ch = false ∧
      (p l.ch = true → l.pos < (l.readWhile p hp).pos) := by
  induction l using readWhile.induct p hp with
  | case1 l hin ih =>
      have hne : l.ch ≠ 0 := by
        intro hzero
        rw [hzero, hp] at hin
        cases hin
      obtain ⟨hfollows, hpos⟩ := h.readChar hne
      obtain ⟨hrest, hout, -⟩ := ih hfollows.ok
      rw [Lexer.readWhile, dif_pos hin]
      have hle := hrest.pos
      exact ⟨hfollows.trans hrest, hout, fun _ => by omega⟩
  | case2 l hin =>
      rw [readWhile_of_not hp (Bool.eq_false_iff.mpr hin)]
      exact ⟨.refl h, Bool.eq_false_iff.mpr hin, fun hin' => absurd hin' hin⟩

theorem Ok.slice (h : l.Ok) {start : ℕ} (hstart : start ≤ l.pos) : ∃ str, l.slice start = .ok str :=
  ⟨_, if_pos ⟨hstart, h.pos_le⟩⟩

theorem Ok.readRun {p : UInt8 → Bool} (hp : p 0 = false) (h : l.Ok) {start : ℕ}
    (hstart : start ≤ l.pos) : ∃ str, l.readRun p hp start = .ok (str, l.readWhile p hp) := by
  obtain ⟨hfollows, -, -⟩ := h.readWhile hp
  obtain ⟨str, hstr⟩ := hfollows.ok.slice (Nat.le_trans hstart hfollows.pos)
  refine ⟨str, ?_⟩
  unfold Lexer.readRun
  dsimp only
  rw [hstr]
  rfl

/-! ### The tokens of the lexer -/

/-- The reading gives a result and moves forward. -/
def Moves {α : Type} (l : Lexer) (r : Except Fault (α × Lexer)) : Prop :=
  ∃ a l', r = .ok (a, l') ∧ l.Follows l' ∧ l.pos < l'.pos

theorem Ok.readRun_moves {p : UInt8 → Bool} (hp : p 0 = false) (h : l.Ok) (hin : p l.ch = true) :
    l.Moves (l.readRun p hp l.pos) := by
  obtain ⟨str, hread⟩ := h.readRun hp (Nat.le_refl _)
  obtain ⟨hfollows, -, hlt⟩ := h.readWhile hp
  exact ⟨str, _, hread, hfollows, hlt hin⟩

theorem Ok.readIdentifier (h : l.Ok) (hletter : isLetter l.ch = true) :
    l.Moves l.readIdentifier := by
  refine h.readRun_moves rfl ?_
  unfold isIdentPart
  rw [hletter]
  rfl

theorem Ok.readNumber (h : l.Ok) (hdigit : isDigit l.ch = true) : l.Moves l.readNumber :=
  h.readRun_moves rfl hdigit

theorem Ok.readMetaCommand (h : l.Ok) (hne : l.ch ≠ 0) : l.Moves l.readMetaCommand := by
  obtain ⟨hread, hpos⟩ := h.readChar hne
  obtain ⟨str, hrun⟩ := hread.ok.readRun (p := isMetaPart) rfl hread.pos
  obtain ⟨hfollows, -, -⟩ := hread.ok.readWhile (p := isMetaPart) rfl
  have hle := hfollows.pos
  exact ⟨str, _, hrun, hread.trans hfollows, by omega⟩

theorem Ok.readQuotedString (h : l.Ok) (hne : l.ch ≠ 0) {quote : UInt8} (hquote : quote ≠ 0) :
    l.Moves (l.readQuotedString quote) := by
  obtain ⟨hread, hpos⟩ := h.readChar hne
  obtain ⟨str, hrun⟩ := hread.ok.readRun (isQuotedPart_zero quote) (Nat.le_refl _)
  obtain ⟨hfollows, -, -⟩ := hread.ok.readWhile (isQuotedPart_zero quote)
  have hboth := hread.trans hfollows
  have hle := hfollows.pos
  unfold Lexer.readQuotedString
  dsimp only
  rw [hrun]
  refine ⟨str, _, rfl, ?_, ?_⟩
  · dsimp only
    split_ifs with hclose
    · exact hboth.trans (hboth.ok.readChar (by rw [hclose]; exact hquote)).1
    · exact hboth
  · dsimp only
    split_ifs with hclose
    · have hclosed := (hboth.ok.readChar (by rw [hclose]; exact hquote)).2
      omega
    · omega

/-- The call gives a token other than the end, and moves forward. -/
def Gives (l : Lexer) (r : Except Fault (Token × Lexer)) : Prop :=
  ∃ token l', r = .ok (token, l') ∧ token.type ≠ .tokenEOF ∧ l.Follows l' ∧ l.pos < l'.pos

theorem Moves.gives {r : Except Fault (List UInt8 × Lexer)} (h : l.Moves r) {t : TokenType}
    (ht : t ≠ .tokenEOF) : l.Gives (r.map (giving t)) := by
  obtain ⟨str, l', rfl, hfollows, hlt⟩ := h
  exact ⟨_, l', rfl, ht, hfollows, hlt⟩

theorem Ok.newToken (h : l.Ok) (hne : l.ch ≠ 0) {t : TokenType} (ht : t ≠ .tokenEOF) :
    l.Gives (.ok (newToken t l.ch, l.readChar)) := by
  obtain ⟨hfollows, hpos⟩ := h.readChar hne
  exact ⟨_, _, rfl, ht, hfollows, by omega⟩

theorem lookupIdent_ne_eof (ident : List UInt8) : (lookupIdent ident).type ≠ .tokenEOF := by
  have hkeywords : keywords.all (fun e => e.2 != .tokenEOF) = true := by decide
  unfold lookupIdent
  dsimp only
  cases hlookup : keywords.lookup (goString (toUpper ident)) with
  | none => exact TokenType.noConfusion
  | some t =>
      have ht := List.all_eq_true.mp hkeywords _ (Dict.mem_of_lookup hlookup)
      exact bne_iff_ne.mp ht

/-- A byte 0 is the end, and stays it. -/
theorem nextToken_of_zero (h : l.ch = 0) : l.nextToken = .ok (eof, l) := by
  have hskip : l.skipWhitespace = l := readWhile_of_not _ (by rw [h]; rfl)
  unfold nextToken
  rw [hskip]
  dsimp only
  rw [h]
  rfl

/-- A call of `NextToken` returns, with a token and moved forward or at a byte 0. -/
theorem Ok.nextToken (h : l.Ok) :
    l.Gives l.nextToken ∨ ∃ l', l.nextToken = .ok (eof, l') ∧ l.Follows l' ∧ l'.ch = 0 := by
  obtain ⟨hskip, -, -⟩ := h.readWhile (p := isSpace) rfl
  have hgives : ∀ r, (l.readWhile isSpace rfl).Gives r → l.Gives r := by
    rintro r ⟨token, l', hr, ht, hfollows, hlt⟩
    have hle := hskip.pos
    exact ⟨token, l', hr, ht, hskip.trans hfollows, by omega⟩
  unfold Lexer.nextToken skipWhitespace
  dsimp only
  generalize l.readWhile isSpace rfl = m at hskip hgives ⊢
  have hok := hskip.ok
  have hne : ∀ b : UInt8, b ≠ 0 → m.ch = b → m.ch ≠ 0 := fun b hb hch hzero =>
    hb (hch.symm.trans hzero)
  by_cases h59 : m.ch = 59
  · rw [if_pos h59]
    exact Or.inl (hgives _ (hok.newToken (hne _ (by decide) h59) (by decide)))
  rw [if_neg h59]
  by_cases h44 : m.ch = 44
  · rw [if_pos h44]
    exact Or.inl (hgives _ (hok.newToken (hne _ (by decide) h44) (by decide)))
  rw [if_neg h44]
  by_cases h39 : m.ch = 39
  · rw [if_pos h39]
    have hmoves : m.Moves (m.readQuotedString 39) :=
      hok.readQuotedString (hne _ (by decide) h39) (by decide)
    exact Or.inl (hgives _ (hmoves.gives (by decide)))
  rw [if_neg h39]
  by_cases h34 : m.ch = 34
  · rw [if_pos h34]
    have hmoves : m.Moves (m.readQuotedString 34) :=
      hok.readQuotedString (hne _ (by decide) h34) (by decide)
    exact Or.inl (hgives _ (hmoves.gives (by decide)))
  rw [if_neg h34]
  by_cases h92 : m.ch = 92
  · rw [if_pos h92]
    exact Or.inl (hgives _ ((hok.readMetaCommand (hne _ (by decide) h92)).gives (by decide)))
  rw [if_neg h92]
  by_cases h0 : m.ch = 0
  · rw [if_pos h0]
    exact Or.inr ⟨m, rfl, hskip, h0⟩
  rw [if_neg h0]
  by_cases hletter : isLetter m.ch
  · rw [if_pos hletter]
    obtain ⟨str, l', hread, hfollows, hlt⟩ := hok.readIdentifier hletter
    rw [hread]
    exact Or.inl (hgives _ ⟨_, l', rfl, lookupIdent_ne_eof str, hfollows, hlt⟩)
  rw [if_neg hletter]
  by_cases hdigit : isDigit m.ch
  · rw [if_pos hdigit]
    exact Or.inl (hgives _ ((hok.readNumber hdigit).gives (by decide)))
  · rw [if_neg hdigit]
    exact Or.inl (hgives _ (hok.newToken h0 (by decide)))

/-! ### Runs of the lexer -/

theorem calls_succ {token : Token} (h : l.nextToken = .ok (token, l')) {n : ℕ} {tokens : List Token}
    (hrest : l'.calls n = .ok (tokens, l'')) : l.calls (n + 1) = .ok (token :: tokens, l'') := by
  unfold calls
  rw [h]
  show l'.calls n >>= _ = _
  rw [hrest]
  rfl

/-- Any number of calls returns. -/
theorem Ok.calls (h : l.Ok) (n : ℕ) : ∃ tokens l', l.calls n = .ok (tokens, l') ∧ l.Follows l' := by
  induction n generalizing l with
  | zero => exact ⟨[], l, rfl, .refl h⟩
  | succ n ih =>
      have hcall : ∃ token l', l.nextToken = .ok (token, l') ∧ l.Follows l' := by
        rcases h.nextToken with ⟨token, l', hnext, -, hfollows, -⟩ | ⟨l', hnext, hfollows, -⟩
        · exact ⟨token, l', hnext, hfollows⟩
        · exact ⟨eof, l', hnext, hfollows⟩
      obtain ⟨token, l', hnext, hfollows⟩ := hcall
      obtain ⟨tokens, l'', hrest, hfollows'⟩ := ih hfollows.ok
      exact ⟨token :: tokens, l'', calls_succ hnext hrest, hfollows.trans hfollows'⟩

theorem calls_of_zero (h : l.ch = 0) (n : ℕ) : l.calls n = .ok (List.replicate n eof, l) := by
  induction n with
  | zero => rfl
  | succ n ih => exact calls_succ (nextToken_of_zero h) ih

theorem tokens_of_zero (h : l.ch = 0) (n : ℕ) : l.tokens (n + 1) = .ok (some []) := by
  unfold tokens
  rw [nextToken_of_zero h]
  rfl

theorem tokens_succ {token : Token} (h : l.nextToken = .ok (token, l'))
    (htoken : token.type ≠ .tokenEOF) (n : ℕ) :
    l.tokens (n + 1) = (l'.tokens n).map (Option.map (token :: ·)) := by
  rw [tokens, h]
  show (if token.type = .tokenEOF then _ else _) = _
  rw [if_neg htoken]
  cases l'.tokens n <;> rfl

/-- There are at most as many tokens before the end as there are bytes. -/
theorem Ok.tokens (h : l.Ok) {fuel : ℕ} (hfuel : l.input.length - l.pos < fuel) :
    ∃ tokens, l.tokens fuel = .ok (some tokens) ∧
      tokens.length ≤ l.input.length - l.pos ∧ ∀ t ∈ tokens, t.type ≠ .tokenEOF := by
  induction fuel generalizing l with
  | zero => omega
  | succ fuel ih =>
      rcases h.nextToken with ⟨token, l', hnext, htoken, hfollows, hlt⟩ | ⟨l', hnext, -, -⟩
      · have hinput := congrArg List.length hfollows.input
        have hle := hfollows.ok.pos_le
        obtain ⟨tokens, htokens, hlen, hall⟩ := ih hfollows.ok (by omega)
        refine ⟨token :: tokens, ?_, ?_, ?_⟩
        · rw [tokens_succ hnext htoken, htokens]
          rfl
        · rw [List.length_cons]
          omega
        · rintro t ht
          rcases List.mem_cons.mp ht with rfl | ht
          · exact htoken
          · exact hall t ht
      · refine ⟨[], ?_, Nat.zero_le _, fun t ht => absurd ht List.not_mem_nil⟩
        unfold Lexer.tokens
        rw [hnext]
        rfl

end Lexer

/-! ### Runs of the parser -/

/-- What a token counts in the bound of the tokens that are left. -/
def Token.weight (t : Token) : ℕ := if t.type = .tokenEOF then 0 else 1

theorem Token.weight_of_ne {t : Token} (h : t.type ≠ .tokenEOF) : t.weight = 1 := if_neg h

namespace LexerParser

variable {p p' : LexerParser}

/-- A bound of the tokens that are left. -/
def rest (p : LexerParser) : ℕ :=
  p.lexer.input.length - p.lexer.pos + p.curToken.weight + p.peekToken.weight

/-- One token is taken. -/
theorem nextToken_ok (h : p.lexer.Ok) : ∃ p', p.nextToken = .ok p' ∧ p'.lexer.Ok ∧
    p'.lexer.input = p.lexer.input ∧ p'.rest + p.curToken.weight ≤ p.rest := by
  unfold nextToken
  rcases h.nextToken with ⟨token, l, hnext, htoken, hfollows, hlt⟩ | ⟨l, hnext, hfollows, -⟩
  · rw [hnext]
    refine ⟨_, rfl, hfollows.ok, hfollows.input, ?_⟩
    unfold rest
    dsimp only
    have hle := hfollows.ok.pos_le
    rw [hfollows.input] at hle ⊢
    rw [Token.weight_of_ne htoken]
    omega
  · rw [hnext]
    refine ⟨_, rfl, hfollows.ok, hfollows.input, ?_⟩
    unfold rest
    dsimp only
    have hle := hfollows.pos
    have heof : eof.weight = 0 := rfl
    rw [hfollows.input, heof]
    omega

theorem advance_ok (h : p.lexer.Ok) (n : ℕ) : ∃ p', p.advance n = .ok p' ∧ p'.lexer.Ok ∧
    p'.lexer.input = p.lexer.input := by
  induction n generalizing p with
  | zero => exact ⟨p, rfl, h, rfl⟩
  | succ n ih =>
      obtain ⟨p₁, hnext, hok, hinput, -⟩ := nextToken_ok h
      obtain ⟨p₂, hrest, hok', hinput'⟩ := ih hok
      refine ⟨p₂, ?_, hok', hinput'.trans hinput⟩
      unfold advance
      rw [hnext]
      exact hrest

theorem rest_le (p : LexerParser) : p.rest ≤ p.lexer.input.length + 2 := by
  have hweight : ∀ t : Token, t.weight ≤ 1 := by
    intro t
    unfold Token.weight
    split_ifs <;> omega
  have hcur := hweight p.curToken
  have hpeek := hweight p.peekToken
  unfold rest
  omega

theorem metaArgs_ok (h : p.lexer.Ok) {fuel : ℕ} (hfuel : p.rest < fuel) (args : List String) :
    ∃ r, p.metaArgs fuel args = .ok (some r) := by
  induction fuel generalizing p args with
  | zero => omega
  | succ fuel ih =>
      unfold metaArgs
      by_cases heof : p.curToken.type ≠ .tokenEOF
      · rw [if_pos heof]
        obtain ⟨p', hnext, hok, -, hrest⟩ := nextToken_ok h
        rw [Token.weight_of_ne heof] at hrest
        rw [hnext]
        exact ih hok (by omega) _
      · rw [if_neg heof]
        exact ⟨_, rfl⟩

/-- The call ends with a result or with an error that is returned. -/
def Returns {α : Type} (r : Except Fault (Option α)) : Prop :=
  (∃ a, r = .ok (some a)) ∨ ∃ message, r = .error (.error message)

theorem parseIdentifier_cases (p : LexerParser) :
    p.parseIdentifier = .ok p.curToken.value ∧ p.curToken.weight = 1 ∨
      ∃ message, p.parseIdentifier = .error (.error message) := by
  unfold parseIdentifier
  by_cases hident : p.curToken.type ≠ .tokenIdentifier
  · rw [if_pos hident]
    exact Or.inr ⟨_, rfl⟩
  · rw [if_neg hident]
    refine Or.inl ⟨rfl, Token.weight_of_ne (fun heof => hident ?_)⟩
    rw [heof]
    decide

theorem identifiers_returns (h : p.lexer.Ok) {fuel : ℕ} (hfuel : p.rest < fuel)
    (list : List String) : Returns (p.identifiers fuel list) := by
  induction fuel generalizing p list with
  | zero => omega
  | succ fuel ih =>
      unfold identifiers
      by_cases hcomma : p.curToken.type = .tokenComma
      · rw [if_pos hcomma]
        obtain ⟨p₁, hnext, hok, -, hrest⟩ := nextToken_ok h
        rw [Token.weight_of_ne (by rw [hcomma]; decide)] at hrest
        rw [hnext]
        show Returns (p₁.parseIdentifier >>= _)
        rcases parseIdentifier_cases p₁ with ⟨hident, -⟩ | ⟨message, hident⟩
        · rw [hident]
          obtain ⟨p₂, hnext₂, hok₂, -, hrest₂⟩ := nextToken_ok hok
          show Returns (p₁.nextToken >>= _)
          rw [hnext₂]
          exact ih hok₂ (by omega) _
        · rw [hident]
          exact Or.inr ⟨message, rfl⟩
      · rw [if_neg hcomma]
        exact Or.inl ⟨_, rfl⟩

theorem parseIdentifierList_returns (h : p.lexer.Ok) {fuel : ℕ} (hfuel : p.rest < fuel) :
    Returns (p.parseIdentifierList fuel) := by
  unfold parseIdentifierList
  rcases parseIdentifier_cases p with ⟨hident, -⟩ | ⟨message, hident⟩
  · rw [hident]
    obtain ⟨p', hnext, hok, -, hrest⟩ := nextToken_ok h
    show Returns (p.nextToken >>= _)
    rw [hnext]
    exact identifiers_returns hok (by omega) _
  · rw [hident]
    exact Or.inr ⟨message, rfl⟩

/-! ### The parser on a list of tokens -/

/-- A parser on a list of tokens has the same tokens, and in the list those the lexer has yet to
give. -/
structure Simulates (p : LexerParser) (q : Parser) : Prop where
  ok : p.lexer.Ok
  curToken : q.curToken = p.curToken
  peekToken : q.peekToken = p.peekToken
  lexer : ∃ fuel, p.lexer.tokens fuel = .ok (some q.lexer)

/-- Both parsers take the same token. -/
theorem Simulates.nextToken {q : Parser} (h : p.Simulates q) (hnext : p.nextToken = .ok p') :
    p'.Simulates q.nextToken := by
  obtain ⟨fuel, htokens⟩ := h.lexer
  cases fuel with
  | zero => cases htokens
  | succ fuel =>
      unfold LexerParser.nextToken at hnext
      rcases h.ok.nextToken with ⟨token, l, hl, htoken, hfollows, -⟩ | ⟨l, hl, hfollows, hzero⟩
      · rw [hl] at hnext
        cases hnext
        rw [Lexer.tokens_succ hl htoken] at htokens
        cases hrest : l.tokens fuel with
        | error e =>
            rw [hrest] at htokens
            cases htokens
        | ok r =>
            rw [hrest] at htokens
            obtain ⟨rest, rfl, hlist⟩ := Option.map_eq_some_iff.mp (Except.ok.inj htokens)
            refine ⟨hfollows.ok, h.peekToken, ?_, fuel, ?_⟩
            · show q.lexer.headD eof = token
              rw [← hlist]
              rfl
            · show l.tokens fuel = .ok (some q.lexer.tail)
              rw [hrest, ← hlist]
              rfl
      · rw [hl] at hnext
        cases hnext
        have hnil : q.lexer = [] := by
          unfold Lexer.tokens at htokens
          rw [hl] at htokens
          exact (Option.some.inj (Except.ok.inj htokens)).symm
        refine ⟨hfollows.ok, h.peekToken, ?_, 1, ?_⟩
        · show q.lexer.headD eof = eof
          rw [hnil]
          rfl
        · show l.tokens 1 = .ok (some q.lexer.tail)
          rw [Lexer.tokens_of_zero hzero, hnil]
          rfl

end LexerParser

/-- The parser of the source is the parser on the list of all tokens. -/
theorem newLexerParser_simulates {input : List UInt8} {p : LexerParser}
    (hp : newLexerParser input = .ok p) {fuel : ℕ} {tokens : List Token}
    (htokens : (newLexer input).tokens fuel = .ok (some tokens)) :
    p.Simulates (newParser tokens) := by
  have hstart : LexerParser.Simulates ⟨newLexer input, ⟨.tokenLogin, ""⟩, ⟨.tokenLogin, ""⟩⟩
      ⟨⟨.tokenLogin, ""⟩, ⟨.tokenLogin, ""⟩, tokens⟩ :=
    ⟨Lexer.newLexer_ok input, rfl, rfl, fuel, htokens⟩
  obtain ⟨p₁, hnext₁, hok, -⟩ := LexerParser.nextToken_ok hstart.ok
  obtain ⟨p₂, hnext₂, -, -⟩ := LexerParser.nextToken_ok hok
  have hp₂ : p₂ = p := by
    unfold newLexerParser LexerParser.advance at hp
    rw [hnext₁] at hp
    change (p₁.nextToken >>= LexerParser.advance 0) = .ok p at hp
    rw [hnext₂] at hp
    exact Except.ok.inj hp
  rw [← hp₂]
  exact (hstart.nextToken hnext₁).nextToken hnext₂

/-- **Safety and progress.**  For every input, any number of calls of `NextToken` returns: no slice
is out of range.  The next call moves forward or is at the end, and then all further calls are.  All
tokens are found in at most one call more than there are bytes, and wherever the parser is, each of
its token loops ends in at most two turns more. -/
theorem lexer_safe (input : List UInt8) :
    (∀ n, ∃ tokens l, (newLexer input).calls n = .ok (tokens, l) ∧
      ∃ token l', l.nextToken = .ok (token, l') ∧ l'.pos ≤ input.length ∧
        (token.type ≠ .tokenEOF → l.pos + 1 ≤ l'.pos) ∧
        (token.type = .tokenEOF → ∀ m, l'.calls m = .ok (List.replicate m token, l'))) ∧
    (∃ tokens, (newLexer input).tokens (input.length + 1) = .ok (some tokens)) ∧
    ∀ n, ∃ p, newLexerParser input >>= LexerParser.advance n = .ok p ∧
      (∃ r, p.metaArgs (input.length + 3) [] = .ok (some r)) ∧
      LexerParser.Returns (p.parseIdentifierList (input.length + 3)) := by
  refine ⟨fun n => ?_, ?_, fun n => ?_⟩
  · obtain ⟨tokens, l, hcalls, hfollows⟩ := (Lexer.newLexer_ok input).calls n
    refine ⟨tokens, l, hcalls, ?_⟩
    have hinput : l.input = input := hfollows.input
    rcases hfollows.ok.nextToken with ⟨token, l', hnext, htoken, hl', hlt⟩ | ⟨l', hnext, hl', hzero⟩
    · have hle := hl'.ok.pos_le
      rw [hl'.input, hinput] at hle
      exact ⟨token, l', hnext, hle, fun _ => hlt, fun heof => absurd heof htoken⟩
    · have hle := hl'.ok.pos_le
      rw [hl'.input, hinput] at hle
      exact ⟨eof, l', hnext, hle, fun hne => absurd rfl hne, fun _ => Lexer.calls_of_zero hzero⟩
  · have hfuel : (newLexer input).input.length - (newLexer input).pos < input.length + 1 :=
      Nat.lt_succ_of_le (Nat.sub_le _ _)
    obtain ⟨tokens, htokens, -, -⟩ := (Lexer.newLexer_ok input).tokens hfuel
    exact ⟨tokens, htokens⟩
  · obtain ⟨p₀, hnew, hok, hinput⟩ := LexerParser.advance_ok
      (p := ⟨newLexer input, ⟨.tokenLogin, ""⟩, ⟨.tokenLogin, ""⟩⟩) (Lexer.newLexer_ok input) 2
    obtain ⟨p, hp, hok', hinput'⟩ := LexerParser.advance_ok hok n
    have hle := p.rest_le
    rw [hinput', hinput] at hle
    refine ⟨p, ?_, LexerParser.metaArgs_ok hok' (Nat.lt_succ_of_le hle) _,
      LexerParser.parseIdentifierList_returns hok' (Nat.lt_succ_of_le hle)⟩
    unfold newLexerParser
    rw [hnew]
    exact hp

end RagFlow.Cli
