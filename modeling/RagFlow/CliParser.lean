import Mathlib.Data.List.Nodup
import Mathlib.Tactic.Common

/-! # The parser of the command line

The recursive-descent parser of `internal/cli/parser.go`, for the commands `LOGIN`, `PING`,
`REGISTER` and `LIST`; the parse functions of the other commands are a parameter.  The parser holds
the current token and the next one, and the lexer gives `TokenEOF` for ever when it is at the end.

`grammar` is the list of the commands as the documentation has them.  Two things are not as it says:

* `expectSemicolon` is called after `nextToken`, and looks at the current token and at the next: one
  token before the semicolon is skipped, whatever it is;
* `parseRegisterCommand` calls `nextToken` before `expectPeek`: a token between `REGISTER` and
  `USER` is skipped, and without one the command is rejected.

`parse_iff_grammar`: on all other sequences of tokens the parser accepts what the grammar says. -/

namespace RagFlow.Cli

/-! ### Tokens -/

/-- The types of tokens, in the order of their numbers. -/
inductive TokenType
  | tokenLogin | tokenRegister | tokenList | tokenServices | tokenShow | tokenCreate | tokenService
  | tokenShutdown | tokenStartup | tokenRestart | tokenUsers | tokenDrop | tokenUser | tokenAlter
  | tokenActive | tokenAdmin | tokenPassword | tokenDataset | tokenDatasets | tokenOf | tokenAgents
  | tokenRole | tokenRoles | tokenDescription | tokenGrant | tokenRevoke | tokenAll
  | tokenPermission | tokenTo | tokenFrom | tokenFor | tokenResources | tokenOn | tokenSet
  | tokenReset | tokenVersion | tokenVar | tokenVars | tokenConfigs | tokenEnvs | tokenKey
  | tokenKeys | tokenGenerate | tokenModel | tokenModels | tokenProvider | tokenProviders
  | tokenDefault | tokenChats | tokenChat | tokenFiles | tokenAs | tokenParse | tokenImport
  | tokenInto | tokenWith | tokenParser | tokenPipeline | tokenSearch | tokenCurrent | tokenLLM
  | tokenVLM | tokenEmbedding | tokenReranker | tokenASR | tokenTTS | tokenAsync | tokenSync
  | tokenBenchmark | tokenPing | tokenIdentifier | tokenQuotedString | tokenNumber | tokenSemicolon
  | tokenComma | tokenEOF | tokenIllegal
deriving DecidableEq

structure Token where
  type : TokenType
  value : String
deriving DecidableEq

def isKeyword (t : TokenType) : Bool :=
  TokenType.tokenLogin.ctorIdx ≤ t.ctorIdx && t.ctorIdx ≤ TokenType.tokenPing.ctorIdx

def tokenTypeToString (t : TokenType) : String := "token(" ++ toString t.ctorIdx ++ ")"

/-- A value of a parameter of a command. -/
inductive Param
  | text (value : String)
  | texts (values : List String)
deriving DecidableEq

structure Command where
  type : String
  params : List (String × Param)
deriving DecidableEq

/-! ### The parser -/

/-- The current token, the next one, and what the lexer has yet to give. -/
structure Parser where
  curToken : Token
  peekToken : Token
  lexer : List Token

def eof : Token := ⟨.tokenEOF, ""⟩

def Parser.nextToken (p : Parser) : Parser where
  curToken := p.peekToken
  peekToken := p.lexer.headD eof
  lexer := p.lexer.tail

def newParser (tokens : List Token) : Parser :=
  (Parser.mk eof eof tokens).nextToken.nextToken

def Parser.expectPeek (p : Parser) (t : TokenType) : Except String Parser :=
  if p.peekToken.type ≠ t then
    .error ("expected " ++ tokenTypeToString t ++ ", got " ++ p.peekToken.value)
  else .ok p.nextToken

/-- The check of the current token that the parse functions write out, each with its message. -/
def Parser.expectCur (p : Parser) (t : TokenType) (message : String) : Except String Unit :=
  if p.curToken.type ≠ t then .error message else .ok ()

def Parser.expectSemicolon (p : Parser) : Except String Parser :=
  if p.curToken.type = .tokenSemicolon then .ok p
  else if p.peekToken.type = .tokenSemicolon then .ok p.nextToken
  else .error "expected semicolon"

def Parser.parseQuotedString (p : Parser) : Except String String :=
  if p.curToken.type ≠ .tokenQuotedString then
    .error ("expected quoted string, got " ++ p.curToken.value)
  else .ok p.curToken.value

def parseLoginUser (p : Parser) : Except String Command := do
  let p := p.nextToken
  p.expectCur .tokenUser "expected USER after LOGIN"
  let p := p.nextToken
  let email ← p.parseQuotedString
  let p := p.nextToken
  let _ ← p.expectSemicolon
  return ⟨"login_user", [("email", .text email)]⟩

/-- A command without more tokens, as `parsePingServer` and the cases of `parseListCommand` have
them. -/
def parseEnd (p : Parser) (type : String) : Except String Command := do
  let p := p.nextToken
  let _ ← p.expectSemicolon
  return ⟨type, []⟩

def parsePingServer (p : Parser) : Except String Command := parseEnd p "ping_server"

def parseRegisterCommand (p : Parser) : Except String Command := do
  let p := p.nextToken
  let p ← p.expectPeek .tokenUser
  let p := p.nextToken
  let userName ← p.parseQuotedString
  let p := p.nextToken
  p.expectCur .tokenAs "expected AS"
  let p := p.nextToken
  let nickname ← p.parseQuotedString
  let p := p.nextToken
  p.expectCur .tokenPassword "expected PASSWORD"
  let p := p.nextToken
  let password ← p.parseQuotedString
  let p := p.nextToken
  let _ ← p.expectSemicolon
  return ⟨"register_user",
    [("user_name", .text userName), ("nickname", .text nickname), ("password", .text password)]⟩

/-- A quoted string as the only parameter, which ends the command. -/
def parseLastString (p : Parser) (type param : String) : Except String Command := do
  let value ← p.parseQuotedString
  let p := p.nextToken
  let _ ← p.expectSemicolon
  return ⟨type, [(param, .text value)]⟩

def parseListDatasets (p : Parser) : Except String Command :=
  let p := p.nextToken
  if p.curToken.type = .tokenSemicolon then .ok ⟨"list_user_datasets", []⟩
  else if p.curToken.type = .tokenOf then parseLastString p.nextToken "list_datasets" "user_name"
  else do
    let _ ← p.expectSemicolon
    return ⟨"list_user_datasets", []⟩

def parseListAgents (p : Parser) : Except String Command :=
  let p := p.nextToken
  if p.curToken.type = .tokenSemicolon then .ok ⟨"list_user_agents", []⟩
  else do
    p.expectCur .tokenOf "expected OF"
    parseLastString p.nextToken "list_agents" "user_name"

def parseListKeys (p : Parser) : Except String Command := do
  let p := p.nextToken
  p.expectCur .tokenOf "expected OF"
  parseLastString p.nextToken "list_keys" "user_name"

def parseListModelProviders (p : Parser) : Except String Command := do
  let p := p.nextToken
  p.expectCur .tokenProviders "expected PROVIDERS"
  parseEnd p "list_user_model_providers"

def parseListDefaultModels (p : Parser) : Except String Command := do
  let p := p.nextToken
  p.expectCur .tokenModels "expected MODELS"
  parseEnd p "list_user_default_models"

def parseListFiles (p : Parser) : Except String Command := do
  let p := p.nextToken
  p.expectCur .tokenOf "expected OF"
  let p := p.nextToken
  p.expectCur .tokenDataset "expected DATASET"
  parseLastString p.nextToken "list_user_dataset_files" "dataset_name"

def parseListCommand (p : Parser) : Except String Command :=
  let p := p.nextToken
  match p.curToken.type with
  | .tokenServices => parseEnd p "list_services"
  | .tokenUsers => parseEnd p "list_users"
  | .tokenRoles => parseEnd p "list_roles"
  | .tokenVars => parseEnd p "list_variables"
  | .tokenConfigs => parseEnd p "list_configs"
  | .tokenEnvs => parseEnd p "list_environments"
  | .tokenDatasets => parseListDatasets p
  | .tokenAgents => parseListAgents p
  | .tokenKeys => parseListKeys p
  | .tokenModel => parseListModelProviders p
  | .tokenDefault => parseListDefaultModels p
  | .tokenChats => parseEnd p "list_user_chats"
  | .tokenFiles => parseListFiles p
  | _ => .error ("unknown LIST target: " ++ p.curToken.value)

/-- The parse functions of the other commands, by their first token, and that of the commands with a
backslash. -/
structure Others where
  command : TokenType → Parser → Except String Command
  parseMetaCommand : Parser → Except String Command

def parseSQLCommand (others : Others) (p : Parser) : Except String Command :=
  if p.curToken.type ≠ .tokenIdentifier ∧ ¬ isKeyword p.curToken.type then
    .error ("expected command, got " ++ p.curToken.value)
  else
    match p.curToken.type with
    | .tokenLogin => parseLoginUser p
    | .tokenPing => parsePingServer p
    | .tokenList => parseListCommand p
    | .tokenRegister => parseRegisterCommand p
    | .tokenShow | .tokenCreate | .tokenDrop | .tokenAlter | .tokenGrant | .tokenRevoke | .tokenSet
    | .tokenReset | .tokenGenerate | .tokenImport | .tokenSearch | .tokenParse | .tokenBenchmark
    | .tokenStartup | .tokenShutdown | .tokenRestart => others.command p.curToken.type p
    | _ => .error ("unknown command: " ++ p.curToken.value)

/-- `Parse`: `none` if there is no token. -/
def parse (others : Others) (p : Parser) : Except String (Option Command) :=
  if p.curToken.type = .tokenEOF then .ok none
  else if p.curToken.type = .tokenIdentifier ∧ p.curToken.value.startsWith "\\" then
    (others.parseMetaCommand p).map some
  else (parseSQLCommand others p).map some

/-! ### The grammar -/

inductive Sym
  | keyword (t : TokenType)
  | quoted
deriving DecidableEq

/-- A command of the grammar: its type, its tokens before the semicolon, and the names of its
parameters, one for each quoted string. -/
structure Production where
  type : String
  symbols : List Sym
  params : List String

def Production.command (r : Production) (literals : List String) : Command :=
  ⟨r.type, r.params.zip (literals.map Param.text)⟩

def registerUser : Production where
  type := "register_user"
  symbols := [.keyword .tokenRegister, .keyword .tokenUser, .quoted, .keyword .tokenAs, .quoted,
    .keyword .tokenPassword, .quoted]
  params := ["user_name", "nickname", "password"]

/-- A command that begins with `LIST`. -/
def listOf (type : String) (symbols : List Sym) (params : List String) : Production :=
  ⟨type, .keyword .tokenList :: symbols, params⟩

def listUserDatasets : Production := listOf "list_user_datasets" [.keyword .tokenDatasets] []

def listUserAgents : Production := listOf "list_user_agents" [.keyword .tokenAgents] []

/-- The commands that begin with `LOGIN`, `PING` or `LIST`. -/
def plain : List Production :=
  [⟨"login_user", [.keyword .tokenLogin, .keyword .tokenUser, .quoted], ["email"]⟩,
    ⟨"ping_server", [.keyword .tokenPing], []⟩,
    listOf "list_services" [.keyword .tokenServices] [],
    listOf "list_users" [.keyword .tokenUsers] [],
    listOf "list_roles" [.keyword .tokenRoles] [],
    listOf "list_variables" [.keyword .tokenVars] [],
    listOf "list_configs" [.keyword .tokenConfigs] [],
    listOf "list_environments" [.keyword .tokenEnvs] [],
    listUserDatasets,
    listOf "list_datasets" [.keyword .tokenDatasets, .keyword .tokenOf, .quoted] ["user_name"],
    listUserAgents,
    listOf "list_agents" [.keyword .tokenAgents, .keyword .tokenOf, .quoted] ["user_name"],
    listOf "list_keys" [.keyword .tokenKeys, .keyword .tokenOf, .quoted] ["user_name"],
    listOf "list_user_model_providers" [.keyword .tokenModel, .keyword .tokenProviders] [],
    listOf "list_user_default_models" [.keyword .tokenDefault, .keyword .tokenModels] [],
    listOf "list_user_chats" [.keyword .tokenChats] [],
    listOf "list_user_dataset_files"
      [.keyword .tokenFiles, .keyword .tokenOf, .keyword .tokenDataset, .quoted] ["dataset_name"]]

def grammar : List Production := registerUser :: plain

/-- The tokens up to and including the first semicolon. -/
def statement : List Token → List Token
  | [] => []
  | t :: tokens => if t.type = .tokenSemicolon then [t] else t :: statement tokens

/-- The quoted strings of the tokens, if these are as the symbols say. -/
def literals : List Sym → List Token → Option (List String)
  | [], [] => some []
  | .keyword t :: symbols, token :: tokens =>
      if token.type = t then literals symbols tokens else none
  | .quoted :: symbols, token :: tokens =>
      if token.type = .tokenQuotedString then (literals symbols tokens).map (token.value :: ·)
      else none
  | _, _ => none

/-- The tokens up to the first semicolon are a command of the grammar. -/
def InGrammar (tokens : List Token) (cmd : Command) : Prop :=
  ∃ r ∈ grammar, ∃ values, literals (r.symbols ++ [.keyword .tokenSemicolon]) (statement tokens) =
    some values ∧ cmd = r.command values

/-! ### Tokens by their number -/

def tokenAt (tokens : List Token) (n : ℕ) : Token := tokens.getD n eof

/-- From the `n`th on, the tokens are as the symbols say. -/
def Fits (tokens : List Token) : ℕ → List Sym → List String → Prop
  | _, [], values => values = []
  | n, .keyword t :: symbols, values =>
      (tokenAt tokens n).type = t ∧ Fits tokens (n + 1) symbols values
  | n, .quoted :: symbols, values =>
      (tokenAt tokens n).type = .tokenQuotedString ∧
        ∃ rest, values = (tokenAt tokens n).value :: rest ∧ Fits tokens (n + 1) symbols rest

/-- The parser that has gone on `n` times. -/
def parserAt (tokens : List Token) (n : ℕ) : Parser :=
  ⟨tokenAt tokens n, tokenAt tokens (n + 1), tokens.drop (n + 2)⟩

section lemmas
variable {tokens : List Token} {n : ℕ} {t : TokenType}

theorem tokenAt_cons_succ (token : Token) : tokenAt (token :: tokens) (n + 1) = tokenAt tokens n :=
  rfl

theorem newParser_eq (tokens : List Token) : newParser tokens = parserAt tokens 0 := by
  rcases tokens with _ | ⟨a, _ | ⟨b, tokens⟩⟩ <;> rfl

theorem nextToken_parserAt (tokens : List Token) (n : ℕ) :
    (parserAt tokens n).nextToken = parserAt tokens (n + 1) := by
  unfold parserAt Parser.nextToken tokenAt
  simp [List.headD_eq_head?_getD, List.getD_eq_getElem?_getD, Nat.add_assoc]

theorem curToken_parserAt (tokens : List Token) (n : ℕ) :
    (parserAt tokens n).curToken = tokenAt tokens n := rfl

theorem fits_keyword {symbols : List Sym} {values : List String} :
    Fits tokens n (.keyword t :: symbols) values ↔
      (tokenAt tokens n).type = t ∧ Fits tokens (n + 1) symbols values := Iff.rfl

theorem fits_quoted {symbols : List Sym} {values : List String} :
    Fits tokens n (.quoted :: symbols) values ↔ (tokenAt tokens n).type = .tokenQuotedString ∧
      ∃ rest, values = (tokenAt tokens n).value :: rest ∧ Fits tokens (n + 1) symbols rest :=
  Iff.rfl

theorem fits_cons_succ (token : Token) (symbols : List Sym) :
    ∀ n values, Fits (token :: tokens) (n + 1) symbols values ↔ Fits tokens n symbols values := by
  induction symbols with
  | nil => exact fun n values => Iff.rfl
  | cons symbol symbols ih =>
      intro n values
      cases symbol with
      | keyword t =>
          rw [fits_keyword, fits_keyword, tokenAt_cons_succ, ih]
      | quoted =>
          rw [fits_quoted, fits_quoted, tokenAt_cons_succ]
          simp only [ih]

/-- A sequence of tokens without a semicolon and with one after it. -/
theorem literals_statement (symbols : List Sym)
    (hkeyword : ∀ t, Sym.keyword t ∈ symbols → t ≠ .tokenSemicolon ∧ t ≠ .tokenEOF) :
    ∀ tokens values, literals (symbols ++ [.keyword .tokenSemicolon]) (statement tokens) =
      some values ↔
        Fits tokens 0 symbols values ∧ (tokenAt tokens symbols.length).type = .tokenSemicolon := by
  induction symbols with
  | nil =>
      intro tokens values
      cases tokens with
      | nil => simp [literals, statement, tokenAt, eof]
      | cons token tokens =>
          by_cases hsemi : token.type = .tokenSemicolon
          · simp [literals, statement, tokenAt, hsemi, Fits, eq_comm]
          · simp [literals, statement, tokenAt, hsemi]
  | cons symbol symbols ih =>
      have ih := ih (fun t ht => hkeyword t (List.mem_cons_of_mem _ ht))
      intro tokens values
      cases tokens with
      | nil =>
          cases symbol with
          | keyword t =>
              have hne := hkeyword t List.mem_cons_self
              simp [literals, statement, tokenAt, eof, Fits, hne.2.symm]
          | quoted => simp [literals, statement, tokenAt, eof, Fits]
      | cons token tokens =>
          rw [List.length_cons, tokenAt_cons_succ, List.cons_append, statement]
          cases symbol with
          | keyword t =>
              have hne := hkeyword t List.mem_cons_self
              by_cases ht : token.type = t
              · have hsemi : token.type ≠ .tokenSemicolon := ht ▸ hne.1
                rw [if_neg hsemi, literals, if_pos ht, ih, fits_keyword, fits_cons_succ, and_assoc]
                exact ⟨fun h => ⟨ht, h⟩, fun h => h.2⟩
              · have hfits : ¬ Fits (token :: tokens) 0 (.keyword t :: symbols) values :=
                  fun h => ht h.1
                split <;> simp [literals, ht, hfits]
          | quoted =>
              by_cases ht : token.type = .tokenQuotedString
              · have hsemi : token.type ≠ .tokenSemicolon := by rw [ht]; decide
                rw [if_neg hsemi, literals, if_pos ht, Option.map_eq_some_iff, fits_quoted]
                simp only [fits_cons_succ, ih]
                constructor
                · rintro ⟨rest, ⟨hfits, hend⟩, rfl⟩
                  exact ⟨⟨ht, rest, rfl, hfits⟩, hend⟩
                · rintro ⟨⟨-, rest, rfl, hfits⟩, hend⟩
                  exact ⟨rest, ⟨hfits, hend⟩, rfl⟩
              · have hfits : ¬ Fits (token :: tokens) 0 (.quoted :: symbols) values :=
                  fun h => ht h.1
                split <;> simp [literals, ht, hfits]

/-! ### What the parse functions accept -/

theorem bind_eq_ok {α β : Type} {x : Except String α} {f : α → Except String β} {b : β} :
    (x >>= f) = .ok b ↔ ∃ a, x = .ok a ∧ f a = .ok b := by
  cases x with
  | error e => exact ⟨fun h => (nomatch h), fun ⟨_, h, _⟩ => (nomatch h)⟩
  | ok a =>
      constructor
      · exact fun h => ⟨a, rfl, h⟩
      · rintro ⟨a', ha, h⟩
        cases ha
        exact h

theorem expectCur_eq_ok {message : String} {u : Unit} :
    (parserAt tokens n).expectCur t message = .ok u ↔ (tokenAt tokens n).type = t := by
  unfold Parser.expectCur parserAt
  split <;> simp_all

theorem expectPeek_eq_ok {p : Parser} : (parserAt tokens n).expectPeek t = .ok p ↔
    (tokenAt tokens (n + 1)).type = t ∧ p = parserAt tokens (n + 1) := by
  unfold Parser.expectPeek
  rw [nextToken_parserAt]
  unfold parserAt
  split <;> simp_all [eq_comm]

theorem parseQuotedString_eq_ok {value : String} :
    (parserAt tokens n).parseQuotedString = .ok value ↔
      (tokenAt tokens n).type = .tokenQuotedString ∧ value = (tokenAt tokens n).value := by
  unfold Parser.parseQuotedString parserAt
  split <;> simp_all [eq_comm]

/-- A semicolon is here, or one token ahead. -/
def SemicolonAt (tokens : List Token) (n : ℕ) : Prop :=
  (tokenAt tokens n).type = .tokenSemicolon ∨ (tokenAt tokens (n + 1)).type = .tokenSemicolon

theorem expectSemicolon_eq_ok :
    (∃ p, (parserAt tokens n).expectSemicolon = .ok p) ↔ SemicolonAt tokens n := by
  unfold Parser.expectSemicolon SemicolonAt parserAt
  split
  · simp_all
  · split <;> simp_all

theorem pure_eq_ok {α : Type} {a b : α} : (pure a : Except String α) = .ok b ↔ b = a :=
  ⟨fun h => (Except.ok.inj h).symm, fun h => congrArg Except.ok h.symm⟩

/-- The end of every parse function. -/
theorem semicolon_eq_ok {c cmd : Command} :
    ((parserAt tokens n).expectSemicolon >>= fun _ => pure c) = .ok cmd ↔
      SemicolonAt tokens n ∧ cmd = c := by
  rw [bind_eq_ok, ← expectSemicolon_eq_ok]
  simp only [pure_eq_ok, exists_and_right]

theorem parseEnd_eq_ok {type : String} {cmd : Command} :
    parseEnd (parserAt tokens n) type = .ok cmd ↔
      SemicolonAt tokens (n + 1) ∧ cmd = ⟨type, []⟩ := by
  unfold parseEnd
  dsimp only
  rw [nextToken_parserAt, semicolon_eq_ok]

theorem parseLastString_eq_ok {type param : String} {cmd : Command} :
    parseLastString (parserAt tokens n) type param = .ok cmd ↔
      (tokenAt tokens n).type = .tokenQuotedString ∧ SemicolonAt tokens (n + 1) ∧
        cmd = ⟨type, [(param, .text (tokenAt tokens n).value)]⟩ := by
  unfold parseLastString
  dsimp only
  rw [bind_eq_ok]
  simp only [nextToken_parserAt, semicolon_eq_ok, parseQuotedString_eq_ok]
  constructor
  · rintro ⟨value, ⟨htype, rfl⟩, hend⟩
    exact ⟨htype, hend⟩
  · rintro ⟨htype, hend⟩
    exact ⟨_, ⟨htype, rfl⟩, hend⟩

theorem parseListDatasets_eq_ok {cmd : Command} :
    parseListDatasets (parserAt tokens n) = .ok cmd ↔
      (SemicolonAt tokens (n + 1) ∧ (tokenAt tokens (n + 1)).type ≠ .tokenOf ∧
        cmd = ⟨"list_user_datasets", []⟩) ∨
      ((tokenAt tokens (n + 1)).type = .tokenOf ∧
        (tokenAt tokens (n + 2)).type = .tokenQuotedString ∧ SemicolonAt tokens (n + 3) ∧
        cmd = ⟨"list_datasets", [("user_name", .text (tokenAt tokens (n + 2)).value)]⟩) := by
  unfold parseListDatasets
  dsimp only
  rw [nextToken_parserAt, nextToken_parserAt]
  split
  case isTrue hsemi =>
    have hsemi : (tokenAt tokens (n + 1)).type = .tokenSemicolon := hsemi
    simp [SemicolonAt, hsemi, eq_comm]
  case isFalse =>
    split
    case isTrue hof =>
      have hof : (tokenAt tokens (n + 1)).type = .tokenOf := hof
      rw [parseLastString_eq_ok]
      simp [hof]
    case isFalse hof =>
      have hof : (tokenAt tokens (n + 1)).type ≠ .tokenOf := hof
      rw [semicolon_eq_ok]
      simp [hof]

theorem parseListAgents_eq_ok {cmd : Command} :
    parseListAgents (parserAt tokens n) = .ok cmd ↔
      ((tokenAt tokens (n + 1)).type = .tokenSemicolon ∧ cmd = ⟨"list_user_agents", []⟩) ∨
      ((tokenAt tokens (n + 1)).type = .tokenOf ∧
        (tokenAt tokens (n + 2)).type = .tokenQuotedString ∧ SemicolonAt tokens (n + 3) ∧
        cmd = ⟨"list_agents", [("user_name", .text (tokenAt tokens (n + 2)).value)]⟩) := by
  unfold parseListAgents
  dsimp only
  rw [nextToken_parserAt, nextToken_parserAt]
  split
  case isTrue hsemi =>
    have hsemi : (tokenAt tokens (n + 1)).type = .tokenSemicolon := hsemi
    simp [hsemi, eq_comm]
  case isFalse hsemi =>
    have hsemi : (tokenAt tokens (n + 1)).type ≠ .tokenSemicolon := hsemi
    simp [bind_eq_ok, expectCur_eq_ok, parseLastString_eq_ok, hsemi]

end lemmas

/-! ### Commands with one token more -/

/-- The token after those of the command is not a semicolon, but is skipped. -/
structure Skips (r : Production) (tokens : List Token) : Prop where
  stray : (tokenAt tokens r.symbols.length).type ≠ .tokenSemicolon
  semicolon : (tokenAt tokens (r.symbols.length + 1)).type = .tokenSemicolon
  agents : r.type ≠ "list_user_agents"
  datasets : r.type = "list_user_datasets" → (tokenAt tokens r.symbols.length).type ≠ .tokenOf

/-- The tokens are those of the command, and then there is a semicolon, or a token is skipped. -/
def Accepts (r : Production) (tokens : List Token) (cmd : Command) : Prop :=
  ∃ values, Fits tokens 0 r.symbols values ∧
    ((tokenAt tokens r.symbols.length).type = .tokenSemicolon ∨ Skips r tokens) ∧
      cmd = r.command values

section accepts
variable {tokens : List Token} {cmd : Command}

theorem ends_iff {r : Production} (hagents : r.type ≠ "list_user_agents")
    (hdatasets : r.type ≠ "list_user_datasets") :
    ((tokenAt tokens r.symbols.length).type = .tokenSemicolon ∨ Skips r tokens) ↔
      SemicolonAt tokens r.symbols.length := by
  constructor
  · rintro (hsemi | hskips)
    · exact .inl hsemi
    · exact .inr hskips.semicolon
  · rintro (hsemi | hsemi)
    · exact .inl hsemi
    · by_cases hstray : (tokenAt tokens r.symbols.length).type = .tokenSemicolon
      · exact .inl hstray
      · exact .inr ⟨hstray, hsemi, hagents, fun h => absurd h hdatasets⟩

theorem accepts_iff {r : Production} (hagents : r.type ≠ "list_user_agents")
    (hdatasets : r.type ≠ "list_user_datasets") :
    Accepts r tokens cmd ↔ ∃ values, Fits tokens 0 r.symbols values ∧
      SemicolonAt tokens r.symbols.length ∧ cmd = r.command values := by
  unfold Accepts
  rw [ends_iff hagents hdatasets]

theorem accepts_listUserAgents : Accepts listUserAgents tokens cmd ↔
    (tokenAt tokens 0).type = .tokenList ∧ (tokenAt tokens 1).type = .tokenAgents ∧
      (tokenAt tokens 2).type = .tokenSemicolon ∧ cmd = ⟨"list_user_agents", []⟩ := by
  constructor
  · rintro ⟨values, ⟨h₀, h₁, rfl⟩, hsemi | hskips, rfl⟩
    · exact ⟨h₀, h₁, hsemi, rfl⟩
    · exact absurd rfl hskips.agents
  · rintro ⟨h₀, h₁, hsemi, rfl⟩
    exact ⟨[], ⟨h₀, h₁, rfl⟩, .inl hsemi, rfl⟩

theorem accepts_listUserDatasets : Accepts listUserDatasets tokens cmd ↔
    (tokenAt tokens 0).type = .tokenList ∧ (tokenAt tokens 1).type = .tokenDatasets ∧
      SemicolonAt tokens 2 ∧ (tokenAt tokens 2).type ≠ .tokenOf ∧
        cmd = ⟨"list_user_datasets", []⟩ := by
  constructor
  · rintro ⟨values, ⟨h₀, h₁, rfl⟩, hsemi | hskips, rfl⟩
    · have hsemi : (tokenAt tokens 2).type = .tokenSemicolon := hsemi
      exact ⟨h₀, h₁, .inl hsemi, by rw [hsemi]; decide, rfl⟩
    · exact ⟨h₀, h₁, .inr hskips.semicolon, hskips.datasets rfl, rfl⟩
  · rintro ⟨h₀, h₁, hsemi, hof, rfl⟩
    refine ⟨[], ⟨h₀, h₁, rfl⟩, ?_, rfl⟩
    by_cases hstray : (tokenAt tokens 2).type = .tokenSemicolon
    · exact .inl hstray
    · exact .inr ⟨hstray, hsemi.resolve_left hstray, by decide, fun _ => hof⟩

theorem parseListKeys_eq_ok {n : ℕ} : parseListKeys (parserAt tokens n) = .ok cmd ↔
    (tokenAt tokens (n + 1)).type = .tokenOf ∧
      (tokenAt tokens (n + 2)).type = .tokenQuotedString ∧ SemicolonAt tokens (n + 3) ∧
      cmd = ⟨"list_keys", [("user_name", .text (tokenAt tokens (n + 2)).value)]⟩ := by
  simp [parseListKeys, nextToken_parserAt, bind_eq_ok, expectCur_eq_ok, parseLastString_eq_ok]

theorem parseListModelProviders_eq_ok {n : ℕ} :
    parseListModelProviders (parserAt tokens n) = .ok cmd ↔
      (tokenAt tokens (n + 1)).type = .tokenProviders ∧ SemicolonAt tokens (n + 2) ∧
        cmd = ⟨"list_user_model_providers", []⟩ := by
  simp [parseListModelProviders, nextToken_parserAt, bind_eq_ok, expectCur_eq_ok, parseEnd_eq_ok]

theorem parseListDefaultModels_eq_ok {n : ℕ} :
    parseListDefaultModels (parserAt tokens n) = .ok cmd ↔
      (tokenAt tokens (n + 1)).type = .tokenModels ∧ SemicolonAt tokens (n + 2) ∧
        cmd = ⟨"list_user_default_models", []⟩ := by
  simp [parseListDefaultModels, nextToken_parserAt, bind_eq_ok, expectCur_eq_ok, parseEnd_eq_ok]

theorem parseListFiles_eq_ok {n : ℕ} : parseListFiles (parserAt tokens n) = .ok cmd ↔
    (tokenAt tokens (n + 1)).type = .tokenOf ∧ (tokenAt tokens (n + 2)).type = .tokenDataset ∧
      (tokenAt tokens (n + 3)).type = .tokenQuotedString ∧ SemicolonAt tokens (n + 4) ∧
      cmd = ⟨"list_user_dataset_files",
        [("dataset_name", .text (tokenAt tokens (n + 3)).value)]⟩ := by
  simp [parseListFiles, nextToken_parserAt, bind_eq_ok, expectCur_eq_ok, parseLastString_eq_ok]

theorem parseListCommand_eq_ok (h₀ : (tokenAt tokens 0).type = .tokenList) :
    parseListCommand (parserAt tokens 0) = .ok cmd ↔ ∃ r ∈ plain, Accepts r tokens cmd := by
  -- The commands that are accepted, as conditions on the tokens.
  unfold plain
  simp only [List.mem_cons, List.not_mem_nil, or_false, exists_eq_or_imp, exists_eq_left,
    accepts_listUserAgents, accepts_listUserDatasets]
  simp (disch := decide) only [accepts_iff]
  simp only [listOf, Fits, Production.command, h₀, reduceCtorEq, false_and, exists_false, true_and,
    false_or, List.length_cons, List.length_nil, Nat.zero_add, Nat.reduceAdd]
  unfold parseListCommand
  simp only [nextToken_parserAt, curToken_parserAt, Nat.zero_add]
  generalize (tokenAt tokens 1).type = t
  split <;> simp_all [parseEnd_eq_ok, parseListDatasets_eq_ok, parseListAgents_eq_ok,
    parseListKeys_eq_ok, parseListModelProviders_eq_ok, parseListDefaultModels_eq_ok,
    parseListFiles_eq_ok, and_assoc]

theorem parseLoginUser_eq_ok (h₀ : (tokenAt tokens 0).type = .tokenLogin) :
    parseLoginUser (parserAt tokens 0) = .ok cmd ↔ ∃ r ∈ plain, Accepts r tokens cmd := by
  unfold plain
  simp only [List.mem_cons, List.not_mem_nil, or_false, exists_eq_or_imp, exists_eq_left,
    accepts_listUserAgents, accepts_listUserDatasets]
  simp (disch := decide) only [accepts_iff]
  simp [-bind_pure_comp, listOf, Fits, h₀, Production.command, parseLoginUser, nextToken_parserAt,
    bind_eq_ok, expectCur_eq_ok, parseQuotedString_eq_ok, expectSemicolon_eq_ok, pure_eq_ok,
    and_assoc]

theorem parsePingServer_eq_ok (h₀ : (tokenAt tokens 0).type = .tokenPing) :
    parsePingServer (parserAt tokens 0) = .ok cmd ↔ ∃ r ∈ plain, Accepts r tokens cmd := by
  unfold plain
  simp only [List.mem_cons, List.not_mem_nil, or_false, exists_eq_or_imp, exists_eq_left,
    accepts_listUserAgents, accepts_listUserDatasets]
  simp (disch := decide) only [accepts_iff]
  simp [listOf, Fits, h₀, Production.command, parsePingServer, parseEnd_eq_ok]

theorem parseRegisterCommand_eq_ok : parseRegisterCommand (parserAt tokens 0) = .ok cmd ↔
    ∃ values, Fits tokens 2 registerUser.symbols.tail values ∧ SemicolonAt tokens 8 ∧
      cmd = registerUser.command values := by
  simp [-bind_pure_comp, registerUser, Fits, Production.command, parseRegisterCommand,
    nextToken_parserAt, bind_eq_ok, expectPeek_eq_ok, expectCur_eq_ok, parseQuotedString_eq_ok,
    expectSemicolon_eq_ok, pure_eq_ok, and_assoc]

end accepts

/-! ### The parser and the grammar -/

/-- A command that begins with `LOGIN`, `PING` or `LIST`, with a token before the semicolon that is
skipped. -/
def Stray (tokens : List Token) : Prop :=
  ∃ r ∈ plain, (∃ values, Fits tokens 0 r.symbols values) ∧ Skips r tokens

/-- A command that begins with `REGISTER` and is right, or has a token before `USER` and perhaps one
before the semicolon. -/
def RegisterMissed (tokens : List Token) : Prop :=
  (tokenAt tokens 0).type = .tokenRegister ∧
    ((∃ values, Fits tokens 0 registerUser.symbols values) ∧
        (tokenAt tokens 7).type = .tokenSemicolon ∨
      (∃ values, Fits tokens 2 registerUser.symbols.tail values) ∧ SemicolonAt tokens 8)

section grammar
variable {others : Others} {tokens : List Token} {cmd : Command}

theorem parse_eq_ok {f : Parser → Except String Command} {t : TokenType}
    (h₀ : (tokenAt tokens 0).type = t) (hkeyword : isKeyword t) (hident : t ≠ .tokenIdentifier)
    (hparse : parseSQLCommand others (parserAt tokens 0) = f (parserAt tokens 0)) :
    parse others (newParser tokens) = .ok (some cmd) ↔ f (parserAt tokens 0) = .ok cmd := by
  have heof : t ≠ .tokenEOF := by
    rintro rfl
    exact absurd hkeyword (by decide)
  unfold parse
  rw [newParser_eq, curToken_parserAt, h₀, if_neg heof, if_neg (fun h => hident h.1), hparse]
  cases f (parserAt tokens 0) <;> simp [Except.map]

/-- The commands with `LOGIN`, `PING` or `LIST`. -/
theorem parse_eq_ok_of_plain
    (h₀ : (tokenAt tokens 0).type = .tokenLogin ∨ (tokenAt tokens 0).type = .tokenPing ∨
      (tokenAt tokens 0).type = .tokenList) :
    parse others (newParser tokens) = .ok (some cmd) ↔ ∃ r ∈ plain, Accepts r tokens cmd := by
  rcases h₀ with h₀ | h₀ | h₀
  · rw [parse_eq_ok h₀ (by decide) (by decide), parseLoginUser_eq_ok h₀]
    rw [parseSQLCommand, curToken_parserAt, h₀]
    rfl
  · rw [parse_eq_ok h₀ (by decide) (by decide), parsePingServer_eq_ok h₀]
    rw [parseSQLCommand, curToken_parserAt, h₀]
    rfl
  · rw [parse_eq_ok h₀ (by decide) (by decide), parseListCommand_eq_ok h₀]
    rw [parseSQLCommand, curToken_parserAt, h₀]
    rfl

theorem parse_eq_ok_of_register (h₀ : (tokenAt tokens 0).type = .tokenRegister) :
    parse others (newParser tokens) = .ok (some cmd) ↔
      ∃ values, Fits tokens 2 registerUser.symbols.tail values ∧ SemicolonAt tokens 8 ∧
        cmd = registerUser.command values := by
  rw [parse_eq_ok h₀ (by decide) (by decide), parseRegisterCommand_eq_ok]
  rw [parseSQLCommand, curToken_parserAt, h₀]
  rfl

theorem inGrammar_iff : InGrammar tokens cmd ↔ ∃ r ∈ grammar, ∃ values,
    Fits tokens 0 r.symbols values ∧
      (tokenAt tokens r.symbols.length).type = .tokenSemicolon ∧ cmd = r.command values := by
  have hsymbols : grammar.all (fun r => r.symbols.all (fun symbol =>
      symbol ≠ .keyword .tokenSemicolon && symbol ≠ .keyword .tokenEOF)) = true := by decide
  unfold InGrammar
  refine exists_congr (fun r => and_congr_right (fun hr => exists_congr (fun values => ?_)))
  rw [literals_statement, and_assoc]
  intro t ht
  have hall := List.all_eq_true.mp (List.all_eq_true.mp hsymbols r hr) _ ht
  simpa using hall

/-- A command that begins with `REGISTER` is not one of the others. -/
theorem ne_register_of_fits {r : Production} {values : List String} (hr : r ∈ plain)
    (hfits : Fits tokens 0 r.symbols values) : (tokenAt tokens 0).type ≠ .tokenRegister := by
  have hfirst : plain.all (fun r =>
      r.symbols.head? ≠ some (.keyword .tokenRegister) && r.symbols.head? ≠ some .quoted &&
        r.symbols.head? ≠ none) = true := by decide
  have hall := List.all_eq_true.mp hfirst r hr
  intro h₀
  cases hsymbols : r.symbols with
  | nil => simp [hsymbols] at hall
  | cons symbol symbols =>
      rw [hsymbols] at hfits hall
      cases symbol with
      | quoted => simp at hall
      | keyword t =>
          have ht : TokenType.tokenRegister = t := h₀.symm.trans hfits.1
          rw [← ht] at hall
          simp at hall

theorem inGrammar_register_iff (h₀ : (tokenAt tokens 0).type = .tokenRegister) :
    InGrammar tokens cmd ↔ ∃ values, Fits tokens 0 registerUser.symbols values ∧
      (tokenAt tokens 7).type = .tokenSemicolon ∧ cmd = registerUser.command values := by
  rw [inGrammar_iff]
  constructor
  · rintro ⟨r, hr, values, hfits, hsemi, hcmd⟩
    rcases List.mem_cons.mp hr with rfl | hr
    · exact ⟨values, hfits, hsemi, hcmd⟩
    · exact absurd h₀ (ne_register_of_fits hr hfits)
  · rintro ⟨values, hfits, hsemi, hcmd⟩
    exact ⟨registerUser, List.mem_cons_self, values, hfits, hsemi, hcmd⟩

/-- The type of a command tells which it is. -/
theorem grammar_type_inj {r r' : Production} (hr : r ∈ grammar) (hr' : r' ∈ grammar)
    (h : r.type = r'.type) : r = r' := by
  have hnodup : (grammar.map (·.type)).Nodup := by decide
  exact List.inj_on_of_nodup_map hnodup hr hr' h

theorem correct_iff_of_plain
    (h₀ : (tokenAt tokens 0).type = .tokenLogin ∨ (tokenAt tokens 0).type = .tokenPing ∨
      (tokenAt tokens 0).type = .tokenList) :
    (∀ cmd, parse others (newParser tokens) = .ok (some cmd) ↔ InGrammar tokens cmd) ↔
      ¬ Stray tokens := by
  simp only [parse_eq_ok_of_plain h₀, inGrammar_iff]
  constructor
  · rintro hcorrect ⟨r, hr, ⟨values, hfits⟩, hskips⟩
    obtain ⟨r', hr', values', -, hsemi, hcmd⟩ :=
      (hcorrect (r.command values)).mp ⟨r, hr, values, hfits, .inr hskips, rfl⟩
    have heq : r = r' :=
      grammar_type_inj (List.mem_cons_of_mem _ hr) hr' (congrArg Command.type hcmd)
    rw [← heq] at hsemi
    exact hskips.stray hsemi
  · intro hstray cmd
    constructor
    · rintro ⟨r, hr, values, hfits, hsemi | hskips, hcmd⟩
      · exact ⟨r, List.mem_cons_of_mem _ hr, values, hfits, hsemi, hcmd⟩
      · exact absurd ⟨r, hr, ⟨values, hfits⟩, hskips⟩ hstray
    · rintro ⟨r, hr, values, hfits, hsemi, hcmd⟩
      rcases List.mem_cons.mp hr with rfl | hr
      · have hregister : (tokenAt tokens 0).type = .tokenRegister := hfits.1
        rw [hregister] at h₀
        rcases h₀ with h₀ | h₀ | h₀ <;> cases h₀
      · exact ⟨r, hr, values, hfits, .inl hsemi, hcmd⟩

theorem correct_iff_of_register (h₀ : (tokenAt tokens 0).type = .tokenRegister) :
    (∀ cmd, parse others (newParser tokens) = .ok (some cmd) ↔ InGrammar tokens cmd) ↔
      ¬ RegisterMissed tokens := by
  simp only [parse_eq_ok_of_register h₀, inGrammar_register_iff h₀]
  -- The third token cannot be `USER` and a string.
  have hapart : ∀ {values values'}, Fits tokens 0 registerUser.symbols values →
      ¬ Fits tokens 2 registerUser.symbols.tail values' := by
    rintro values values' ⟨-, -, hquoted, -⟩ ⟨huser, -⟩
    rw [hquoted] at huser
    cases huser
  constructor
  · rintro hcorrect ⟨-, ⟨⟨values, hfits⟩, hsemi⟩ | ⟨⟨values, hfits⟩, hsemi⟩⟩
    · obtain ⟨values', hfits', -, -⟩ :=
        (hcorrect (registerUser.command values)).mpr ⟨values, hfits, hsemi, rfl⟩
      exact hapart hfits hfits'
    · obtain ⟨values', hfits', -, -⟩ :=
        (hcorrect (registerUser.command values)).mp ⟨values, hfits, hsemi, rfl⟩
      exact hapart hfits' hfits
  · intro hmissed cmd
    constructor
    · rintro ⟨values, hfits, hsemi, -⟩
      exact absurd ⟨h₀, .inr ⟨⟨values, hfits⟩, hsemi⟩⟩ hmissed
    · rintro ⟨values, hfits, hsemi, -⟩
      exact absurd ⟨h₀, .inl ⟨⟨values, hfits⟩, hsemi⟩⟩ hmissed

/-- The parser accepts what the grammar says, if no token is skipped and the command is not one with
`REGISTER` that it misses. -/
theorem parse_iff_grammar (others : Others) (tokens : List Token)
    (h₀ : (tokenAt tokens 0).type = .tokenLogin ∨ (tokenAt tokens 0).type = .tokenPing ∨
      (tokenAt tokens 0).type = .tokenRegister ∨ (tokenAt tokens 0).type = .tokenList) :
    (∀ cmd, parse others (newParser tokens) = .ok (some cmd) ↔ InGrammar tokens cmd) ↔
      ¬ Stray tokens ∧ ¬ RegisterMissed tokens := by
  by_cases hregister : (tokenAt tokens 0).type = .tokenRegister
  · have hstray : ¬ Stray tokens := by
      rintro ⟨r, hr, ⟨values, hfits⟩, -⟩
      exact ne_register_of_fits hr hfits hregister
    rw [correct_iff_of_register hregister]
    exact (and_iff_right hstray).symm
  · have hmissed : ¬ RegisterMissed tokens := fun h => hregister h.1
    have hplain : (tokenAt tokens 0).type = .tokenLogin ∨ (tokenAt tokens 0).type = .tokenPing ∨
        (tokenAt tokens 0).type = .tokenList := by
      rcases h₀ with h₀ | h₀ | h₀ | h₀
      · exact .inl h₀
      · exact .inr (.inl h₀)
      · exact absurd h₀ hregister
      · exact .inr (.inr h₀)
    rw [correct_iff_of_plain hplain]
    exact (and_iff_left hmissed).symm

end grammar

def noOthers : Others := ⟨fun _ _ => .error "", fun _ => .error ""⟩

/-- `LIST USERS;`. -/
def listUsersTokens : List Token :=
  [⟨.tokenList, "LIST"⟩, ⟨.tokenUsers, "USERS"⟩, ⟨.tokenSemicolon, ";"⟩]

theorem tokenAt_listUsers_semicolon :
    ∀ n, (tokenAt listUsersTokens n).type = .tokenSemicolon → n = 2
  | 0, h | 1, h | _ + 3, h => by cases h
  | 2, _ => rfl

/-- Only `PING` has one token before a stray one. -/
theorem not_stray_listUsers : ¬ Stray listUsersTokens := by
  rintro ⟨r, hr, ⟨values, hfits⟩, hskips⟩
  have hlength : r.symbols.length = 1 :=
    Nat.succ.inj (tokenAt_listUsers_semicolon _ hskips.semicolon)
  have hping : ∀ r ∈ plain, r.symbols.length = 1 → r.symbols = [.keyword .tokenPing] := by decide
  rw [hping r hr hlength, fits_keyword] at hfits
  cases hfits.1

/-- `LIST USERS;` is parsed as its command and as nothing else. -/
theorem parse_iff_grammar_users :
    parse noOthers (newParser listUsersTokens) = .ok (some ⟨"list_users", []⟩) ∧
      ∀ cmd, parse noOthers (newParser listUsersTokens) = .ok (some cmd) ↔
        InGrammar listUsersTokens cmd :=
  ⟨rfl, (parse_iff_grammar noOthers listUsersTokens (.inr (.inr (.inr rfl)))).mpr
    ⟨not_stray_listUsers, fun h => nomatch h.1⟩⟩

/-- `REGISTER USER 'john' AS 'John Doe' PASSWORD 'secret';`. -/
def registerTokens : List Token :=
  [⟨.tokenRegister, "REGISTER"⟩, ⟨.tokenUser, "USER"⟩, ⟨.tokenQuotedString, "john"⟩,
    ⟨.tokenAs, "AS"⟩, ⟨.tokenQuotedString, "John Doe"⟩, ⟨.tokenPassword, "PASSWORD"⟩,
    ⟨.tokenQuotedString, "secret"⟩, ⟨.tokenSemicolon, ";"⟩]

/-- The command of the documentation is in the grammar and is rejected, and `PING PING;` is not and
is accepted. -/
theorem parse_rejects_register :
    (InGrammar registerTokens (registerUser.command ["john", "John Doe", "secret"]) ∧
      ∀ cmd, parse noOthers (newParser registerTokens) ≠ .ok (some cmd)) ∧
    ∃ cmd, parse noOthers (newParser [⟨.tokenPing, "PING"⟩, ⟨.tokenPing, "PING"⟩,
      ⟨.tokenSemicolon, ";"⟩]) = .ok (some cmd) ∧
      ¬ InGrammar [⟨.tokenPing, "PING"⟩, ⟨.tokenPing, "PING"⟩, ⟨.tokenSemicolon, ";"⟩] cmd := by
  refine ⟨⟨⟨registerUser, List.mem_cons_self, _, rfl, rfl⟩, fun cmd h => ?_⟩,
    ⟨"ping_server", []⟩, rfl,
    ?_⟩
  · cases h
  · rintro ⟨r, hr, values, hliterals, hcmd⟩
    have htype : r = ⟨"ping_server", [.keyword .tokenPing], []⟩ :=
      grammar_type_inj hr (List.mem_cons_of_mem _ (List.mem_cons_of_mem _ List.mem_cons_self))
        (congrArg Command.type hcmd).symm
    rw [htype] at hliterals
    cases hliterals

end RagFlow.Cli
