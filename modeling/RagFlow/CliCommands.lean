import Mathlib.Data.Int.Notation
import Mathlib.Data.List.GetD
import RagFlow.CliParser
import RagFlow.Dict

/-! # All commands of the command line

The parse functions of `internal/cli/parser.go` for every command.  Most of them are a sequence of
tokens that are expected, each with its message, and of tokens that are read into parameters
(`statement`); the others look at one token and go on with a sequence.

* **Grammar.** `userCommands` and `adminCommands` list the words of each command and what is read.
* **Functions.** Each function returns what a part of the grammar says (`statement_eq_ok` and the
  lemmas `…_eq_ok`); a list of identifiers is read up to the first token that is no comma.
* **Parser.** `parseSQLCommand_iff`: the parser returns the commands of the grammar and no others.
  As in `CliParser`, one token before the semicolon may be skipped, and one after `REGISTER` is. -/

namespace RagFlow.CliCommands

open Cli

/-- A value of a parameter. -/
inductive Value
  | text (value : String)
  | texts (values : List String)
  | number (value : ℤ)
  | command (type : String) (params : List (String × Value))

abbrev Params := List (String × Value)

structure Command where
  type : String
  params : Params

/-! ### Numbers and identifiers -/

/-- `2 ^ 63`. -/
def intBound : ℤ := 9223372036854775808

/-- `strconv.Atoi`, where `int` has 64 bits. -/
def atoi (s : String) : Except String ℤ :=
  let digits := match s.toList with
    | '-' :: digits => digits
    | '+' :: digits => digits
    | digits => digits
  if digits = [] ∨ ¬ digits.all Char.isDigit then
    .error ("strconv.Atoi: parsing \"" ++ s ++ "\": invalid syntax")
  else
    let n : ℤ := digits.foldl (fun n c => 10 * n + (c.toNat - 48)) 0
    let n := if s.toList.head? = some '-' then -n else n
    if n < -intBound ∨ intBound ≤ n then
      .error ("strconv.Atoi: parsing \"" ++ s ++ "\": value out of range")
    else .ok n

def parseIdentifier (p : Parser) : Except String String :=
  if p.curToken.type ≠ .tokenIdentifier then
    .error ("expected identifier, got " ++ p.curToken.value)
  else .ok p.curToken.value

def parseNumber (p : Parser) : Except String ℤ :=
  if p.curToken.type ≠ .tokenNumber then .error ("expected number, got " ++ p.curToken.value)
  else atoi p.curToken.value

/-- The loop of `parseIdentifierList`, of at most as many turns as there are tokens. -/
def moreIdentifiers : ℕ → Parser → List String → Except String (List String × Parser)
  | 0, p, list => .ok (list, p)
  | turns + 1, p, list =>
      if p.curToken.type = .tokenComma then do
        let p := p.nextToken
        let ident ← parseIdentifier p
        moreIdentifiers turns p.nextToken (list ++ [ident])
      else .ok (list, p)

def parseIdentifierList (p : Parser) : Except String (List String × Parser) := do
  let ident ← parseIdentifier p
  let p := p.nextToken
  moreIdentifiers (p.lexer.length + 2) p [ident]

/-! ### Sequences of tokens -/

/-- What is read into a parameter. -/
inductive Slot
  | quoted (param : String)
  | identifier (param : String)
  | number (param : String)
  | identifiers (param : String)
  /-- Nothing is read. -/
  | given (param value : String)
deriving DecidableEq

def Slot.read : Slot → Parser → Except String (Params × Parser)
  | .quoted param, p => do
      let value ← p.parseQuotedString
      return ([(param, .text value)], p.nextToken)
  | .identifier param, p => do
      let value ← parseIdentifier p
      return ([(param, .text value)], p.nextToken)
  | .number param, p => do
      let value ← parseNumber p
      return ([(param, .number value)], p.nextToken)
  | .identifiers param, p => do
      let r ← parseIdentifierList p
      return ([(param, .texts r.1)], r.2)
  | .given param value, p => return ([(param, .text value)], p)

/-- What a parse function does with the current token. -/
inductive Step
  | expect (t : TokenType) (message : String)
  | slot (s : Slot)
deriving DecidableEq

def read : List Step → Parser → Except String (Params × Parser)
  | [], p => .ok ([], p)
  | .expect t message :: steps, p => do
      p.expectCur t message
      read steps p.nextToken
  | .slot s :: steps, p => do
      let r ← s.read p
      let rest ← read steps r.2
      return (r.1 ++ rest.1, rest.2)

/-- The steps from the current token on, and the semicolon. -/
def statement (type : String) (params : Params) (steps : List Step) (p : Parser) :
    Except String Command := do
  let r ← read steps p
  let _ ← r.2.expectSemicolon
  return ⟨type, params ++ r.1⟩

def quoted (param : String) : Step := .slot (.quoted param)

def identifier (param : String) : Step := .slot (.identifier param)

def number (param : String) : Step := .slot (.number param)

def identifiers (param : String) : Step := .slot (.identifiers param)

def given (param value : String) : Step := .slot (.given param value)

/-! ### `SHOW` -/

def parseShowUser (p : Parser) : Except String Command :=
  let p := p.nextToken
  if p.curToken.type = .tokenPermission then
    statement "show_user_permission" [] [quoted "user_name"] p.nextToken
  else statement "show_user" [] [quoted "user_name"] p

def parseShowRole (p : Parser) : Except String Command :=
  statement "show_role" [] [identifier "role_name"] p.nextToken

def parseShowVariable (p : Parser) : Except String Command :=
  statement "show_variable" [] [identifier "var_name"] p.nextToken

def parseShowService (p : Parser) : Except String Command :=
  statement "show_service" [] [number "number"] p.nextToken

def parseShowCommand (p : Parser) : Except String Command :=
  let p := p.nextToken
  match p.curToken.type with
  | .tokenVersion => statement "show_version" [] [] p.nextToken
  | .tokenCurrent =>
      statement "show_current_user" [] [.expect .tokenUser "expected USER after CURRENT"]
        p.nextToken
  | .tokenUser => parseShowUser p
  | .tokenRole => parseShowRole p
  | .tokenVar => parseShowVariable p
  | .tokenService => parseShowService p
  | _ => .error ("unknown SHOW target: " ++ p.curToken.value)

/-! ### `CREATE` and `DROP` -/

def parseCreateUser (p : Parser) : Except String Command :=
  statement "create_user" [] [quoted "user_name", quoted "password", given "role" "user"]
    p.nextToken

def parseCreateRole (p : Parser) : Except String Command := do
  let r ← read [identifier "role_name"] p.nextToken
  if r.2.curToken.type = .tokenDescription then
    statement "create_role" r.1 [quoted "description"] r.2.nextToken
  else statement "create_role" r.1 [] r.2

def parseCreateModelProvider (p : Parser) : Except String Command :=
  statement "create_model_provider" []
    [.expect .tokenProvider "expected PROVIDER", quoted "provider_name", quoted "provider_key"]
    p.nextToken

def parseCreateDataset (p : Parser) : Except String Command := do
  let r ← read [quoted "dataset_name", .expect .tokenWith "expected WITH",
    .expect .tokenEmbedding "expected EMBEDDING", quoted "embedding"] p.nextToken
  if r.2.curToken.type = .tokenParser then
    statement "create_user_dataset" r.1 [quoted "parser_type"] r.2.nextToken
  else if r.2.curToken.type = .tokenPipeline then
    statement "create_user_dataset" r.1 [quoted "pipeline"] r.2.nextToken
  else .error "expected PARSER or PIPELINE"

def parseCreateChat (p : Parser) : Except String Command :=
  statement "create_user_chat" [] [quoted "chat_name"] p.nextToken

def parseCreateCommand (p : Parser) : Except String Command :=
  let p := p.nextToken
  match p.curToken.type with
  | .tokenUser => parseCreateUser p
  | .tokenRole => parseCreateRole p
  | .tokenModel => parseCreateModelProvider p
  | .tokenDataset => parseCreateDataset p
  | .tokenChat => parseCreateChat p
  | _ => .error ("unknown CREATE target: " ++ p.curToken.value)

def parseDropUser (p : Parser) : Except String Command :=
  statement "drop_user" [] [quoted "user_name"] p.nextToken

def parseDropRole (p : Parser) : Except String Command :=
  statement "drop_role" [] [identifier "role_name"] p.nextToken

def parseDropModelProvider (p : Parser) : Except String Command :=
  statement "drop_model_provider" []
    [.expect .tokenProvider "expected PROVIDER", quoted "provider_name"] p.nextToken

def parseDropDataset (p : Parser) : Except String Command :=
  statement "drop_user_dataset" [] [quoted "dataset_name"] p.nextToken

def parseDropChat (p : Parser) : Except String Command :=
  statement "drop_user_chat" [] [quoted "chat_name"] p.nextToken

def parseDropKey (p : Parser) : Except String Command :=
  statement "drop_key" [] [quoted "key", .expect .tokenOf "expected OF", quoted "user_name"]
    p.nextToken

def parseDropCommand (p : Parser) : Except String Command :=
  let p := p.nextToken
  match p.curToken.type with
  | .tokenUser => parseDropUser p
  | .tokenRole => parseDropRole p
  | .tokenModel => parseDropModelProvider p
  | .tokenDataset => parseDropDataset p
  | .tokenChat => parseDropChat p
  | .tokenKey => parseDropKey p
  | _ => .error ("unknown DROP target: " ++ p.curToken.value)

/-! ### `ALTER`, `GRANT` and `REVOKE` -/

def parseActivateUser (p : Parser) : Except String Command :=
  statement "activate_user" [] [quoted "user_name", identifier "activate_status"] p.nextToken

def parseAlterUser (p : Parser) : Except String Command :=
  let p := p.nextToken
  if p.curToken.type = .tokenActive then parseActivateUser p
  else if p.curToken.type = .tokenPassword then
    statement "alter_user" [] [quoted "user_name", quoted "password"] p.nextToken
  else
    statement "alter_user_role" [] [quoted "user_name", .expect .tokenSet "expected SET",
      .expect .tokenRole "expected ROLE", identifier "role_name"] p

def parseAlterRole (p : Parser) : Except String Command :=
  statement "alter_role" [] [identifier "role_name", .expect .tokenSet "expected SET",
    .expect .tokenDescription "expected DESCRIPTION", quoted "description"] p.nextToken

def parseAlterCommand (p : Parser) : Except String Command :=
  let p := p.nextToken
  match p.curToken.type with
  | .tokenUser => parseAlterUser p
  | .tokenRole => parseAlterRole p
  | _ => .error ("unknown ALTER target: " ++ p.curToken.value)

def parseGrantAdmin (p : Parser) : Except String Command :=
  statement "grant_admin" [] [quoted "user_name"] p.nextToken

def parseGrantPermission (p : Parser) : Except String Command :=
  statement "grant_permission" [] [identifiers "actions", .expect .tokenOn "expected ON",
    identifier "resource", .expect .tokenTo "expected TO", .expect .tokenRole "expected ROLE",
    identifier "role_name"] p

def parseGrantCommand (p : Parser) : Except String Command :=
  let p := p.nextToken
  if p.curToken.type = .tokenAdmin then parseGrantAdmin p else parseGrantPermission p

def parseRevokeAdmin (p : Parser) : Except String Command :=
  statement "revoke_admin" [] [quoted "user_name"] p.nextToken

def parseRevokePermission (p : Parser) : Except String Command :=
  statement "revoke_permission" [] [identifiers "actions", .expect .tokenOn "expected ON",
    identifier "resource", .expect .tokenFrom "expected FROM", .expect .tokenRole "expected ROLE",
    identifier "role_name"] p

def parseRevokeCommand (p : Parser) : Except String Command :=
  let p := p.nextToken
  if p.curToken.type = .tokenAdmin then parseRevokeAdmin p else parseRevokePermission p

/-! ### `SET` and `RESET` -/

def parseSetVariable (p : Parser) : Except String Command :=
  statement "set_variable" [] [identifier "var_name", identifier "var_value"] p.nextToken

def modelTypes : List (TokenType × String) :=
  [(.tokenLLM, "llm_id"), (.tokenVLM, "img2txt_id"), (.tokenEmbedding, "embd_id"),
   (.tokenReranker, "reranker_id"), (.tokenASR, "asr_id"), (.tokenTTS, "tts_id")]

/-- The `switch` on the type of a model. -/
def parseModelType (p : Parser) : Except String String :=
  match modelTypes.lookup p.curToken.type with
  | none => .error ("unknown model type: " ++ p.curToken.value)
  | some modelType => .ok modelType

def parseSetDefault (p : Parser) : Except String Command := do
  let p := p.nextToken
  let modelType ← parseModelType p
  statement "set_default_model" [("model_type", .text modelType)] [quoted "model_id"] p.nextToken

def parseSetCommand (p : Parser) : Except String Command :=
  let p := p.nextToken
  if p.curToken.type = .tokenVar then parseSetVariable p
  else if p.curToken.type = .tokenDefault then parseSetDefault p
  else .error ("unknown SET target: " ++ p.curToken.value)

def parseResetCommand (p : Parser) : Except String Command := do
  let p := p.nextToken
  p.expectCur .tokenDefault "expected DEFAULT"
  let p := p.nextToken
  let modelType ← parseModelType p
  statement "reset_default_model" [("model_type", .text modelType)] [] p.nextToken

/-! ### Data sets -/

def parseGenerateCommand (p : Parser) : Except String Command :=
  statement "generate_key" [] [.expect .tokenKey "expected KEY", .expect .tokenFor "expected FOR",
    .expect .tokenUser "expected USER", quoted "user_name"] p.nextToken

def parseImportCommand (p : Parser) : Except String Command :=
  statement "import_docs_into_dataset" [] [quoted "document_paths",
    .expect .tokenInto "expected INTO", .expect .tokenDataset "expected DATASET",
    quoted "dataset_name"] p.nextToken

def parseSearchCommand (p : Parser) : Except String Command :=
  statement "search_on_datasets" [] [quoted "question", .expect .tokenOn "expected ON",
    .expect .tokenDatasets "expected DATASETS", quoted "datasets"] p.nextToken

def parseParseDataset (p : Parser) : Except String Command := do
  let r ← read [quoted "dataset_name"] p.nextToken
  if r.2.curToken.type = .tokenSync then
    statement "parse_dataset" r.1 [given "method" "sync"] r.2.nextToken
  else if r.2.curToken.type = .tokenAsync then
    statement "parse_dataset" r.1 [given "method" "async"] r.2.nextToken
  else .error "expected SYNC or ASYNC"

def parseParseDocs (p : Parser) : Except String Command :=
  statement "parse_dataset_docs" [] [quoted "document_names", .expect .tokenOf "expected OF",
    .expect .tokenDataset "expected DATASET", quoted "dataset_name"] p

def parseParseCommand (p : Parser) : Except String Command :=
  let p := p.nextToken
  if p.curToken.type = .tokenDataset then parseParseDataset p else parseParseDocs p

/-! ### Services -/

/-- `parseStartupCommand`, `parseShutdownCommand` and `parseRestartCommand`. -/
def parseServiceCommand (type : String) (p : Parser) : Except String Command :=
  statement type [] [.expect .tokenService "expected SERVICE", number "number"] p.nextToken

def parseStartupCommand : Parser → Except String Command := parseServiceCommand "startup_service"

def parseShutdownCommand : Parser → Except String Command := parseServiceCommand "shutdown_service"

def parseRestartCommand : Parser → Except String Command := parseServiceCommand "restart_service"

/-! ### The first token -/

def ofParam : Param → Value
  | .text value => .text value
  | .texts values => .texts values

/-- A command of the functions for `LOGIN`, `PING`, `REGISTER` and `LIST`. -/
def ofCommand (c : Cli.Command) : Command := ⟨c.type, c.params.map (fun q => (q.1, ofParam q.2))⟩

def parseUserStatement (p : Parser) : Except String Command :=
  match p.curToken.type with
  | .tokenPing => (parsePingServer p).map ofCommand
  | .tokenShow => parseShowCommand p
  | .tokenCreate => parseCreateCommand p
  | .tokenDrop => parseDropCommand p
  | .tokenSet => parseSetCommand p
  | .tokenReset => parseResetCommand p
  | .tokenList => (parseListCommand p).map ofCommand
  | .tokenParse => parseParseCommand p
  | .tokenImport => parseImportCommand p
  | .tokenSearch => parseSearchCommand p
  | _ => .error ("invalid user statement: " ++ p.curToken.value)

/-- It has no semicolon of its own. -/
def parseBenchmarkCommand (p : Parser) : Except String Command := do
  let r ← read [number "concurrency", number "iterations"] p.nextToken
  let nestedCmd ← parseUserStatement r.2
  return ⟨"benchmark", r.1 ++ [("command", .command nestedCmd.type nestedCmd.params)]⟩

def parseSQLCommand (p : Parser) : Except String Command :=
  if p.curToken.type ≠ .tokenIdentifier ∧ ¬ isKeyword p.curToken.type then
    .error ("expected command, got " ++ p.curToken.value)
  else
    match p.curToken.type with
    | .tokenLogin => (parseLoginUser p).map ofCommand
    | .tokenPing => (parsePingServer p).map ofCommand
    | .tokenList => (parseListCommand p).map ofCommand
    | .tokenShow => parseShowCommand p
    | .tokenCreate => parseCreateCommand p
    | .tokenDrop => parseDropCommand p
    | .tokenAlter => parseAlterCommand p
    | .tokenGrant => parseGrantCommand p
    | .tokenRevoke => parseRevokeCommand p
    | .tokenSet => parseSetCommand p
    | .tokenReset => parseResetCommand p
    | .tokenGenerate => parseGenerateCommand p
    | .tokenImport => parseImportCommand p
    | .tokenSearch => parseSearchCommand p
    | .tokenParse => parseParseCommand p
    | .tokenBenchmark => parseBenchmarkCommand p
    | .tokenRegister => (parseRegisterCommand p).map ofCommand
    | .tokenStartup => parseStartupCommand p
    | .tokenShutdown => parseShutdownCommand p
    | .tokenRestart => parseRestartCommand p
    | _ => .error ("unknown command: " ++ p.curToken.value)

/-! ### The grammar -/

/-- A word of a command, what is read there, or a token that is not there. -/
inductive Symbol
  | word (t : TokenType)
  | slot (s : Slot)
  | absent (t : TokenType)
deriving DecidableEq

/-- A command of the grammar: its type and what comes before the semicolon. -/
structure Production where
  type : String
  symbols : List Symbol

/-- The productions, after a word. -/
def after (t : TokenType) (rs : List Production) : List Production :=
  rs.map (fun r => ⟨r.type, .word t :: r.symbols⟩)

def text (param : String) : Symbol := .slot (.quoted param)

def name (param : String) : Symbol := .slot (.identifier param)

def names (param : String) : Symbol := .slot (.identifiers param)

def const (param value : String) : Symbol := .slot (.given param value)

def serviceNumber : Symbol := .slot (.number "number")

def shown : List Production :=
  [⟨"show_version", [.word .tokenVersion]⟩,
   ⟨"show_current_user", [.word .tokenCurrent, .word .tokenUser]⟩,
   ⟨"show_user_permission", [.word .tokenUser, .word .tokenPermission, text "user_name"]⟩,
   ⟨"show_user", [.word .tokenUser, text "user_name"]⟩,
   ⟨"show_role", [.word .tokenRole, name "role_name"]⟩,
   ⟨"show_variable", [.word .tokenVar, name "var_name"]⟩,
   ⟨"show_service", [.word .tokenService, serviceNumber]⟩]

/-- A role without a description: the description would be read. -/
def created : List Production :=
  [⟨"create_user", [.word .tokenUser, text "user_name", text "password", const "role" "user"]⟩,
   ⟨"create_role", [.word .tokenRole, name "role_name", .word .tokenDescription,
     text "description"]⟩,
   ⟨"create_role", [.word .tokenRole, name "role_name", .absent .tokenDescription]⟩,
   ⟨"create_model_provider", [.word .tokenModel, .word .tokenProvider, text "provider_name",
     text "provider_key"]⟩,
   ⟨"create_user_dataset", [.word .tokenDataset, text "dataset_name", .word .tokenWith,
     .word .tokenEmbedding, text "embedding", .word .tokenParser, text "parser_type"]⟩,
   ⟨"create_user_dataset", [.word .tokenDataset, text "dataset_name", .word .tokenWith,
     .word .tokenEmbedding, text "embedding", .word .tokenPipeline, text "pipeline"]⟩,
   ⟨"create_user_chat", [.word .tokenChat, text "chat_name"]⟩]

def dropped : List Production :=
  [⟨"drop_user", [.word .tokenUser, text "user_name"]⟩,
   ⟨"drop_role", [.word .tokenRole, name "role_name"]⟩,
   ⟨"drop_model_provider", [.word .tokenModel, .word .tokenProvider, text "provider_name"]⟩,
   ⟨"drop_user_dataset", [.word .tokenDataset, text "dataset_name"]⟩,
   ⟨"drop_user_chat", [.word .tokenChat, text "chat_name"]⟩,
   ⟨"drop_key", [.word .tokenKey, text "key", .word .tokenOf, text "user_name"]⟩]

def altered : List Production :=
  [⟨"activate_user", [.word .tokenUser, .word .tokenActive, text "user_name",
     name "activate_status"]⟩,
   ⟨"alter_user", [.word .tokenUser, .word .tokenPassword, text "user_name", text "password"]⟩,
   ⟨"alter_user_role", [.word .tokenUser, text "user_name", .word .tokenSet, .word .tokenRole,
     name "role_name"]⟩,
   ⟨"alter_role", [.word .tokenRole, name "role_name", .word .tokenSet, .word .tokenDescription,
     text "description"]⟩]

def granted : List Production :=
  [⟨"grant_admin", [.word .tokenAdmin, text "user_name"]⟩,
   ⟨"grant_permission", [names "actions", .word .tokenOn, name "resource", .word .tokenTo,
     .word .tokenRole, name "role_name"]⟩]

def revoked : List Production :=
  [⟨"revoke_admin", [.word .tokenAdmin, text "user_name"]⟩,
   ⟨"revoke_permission", [names "actions", .word .tokenOn, name "resource", .word .tokenFrom,
     .word .tokenRole, name "role_name"]⟩]

def assigned : List Production :=
  ⟨"set_variable", [.word .tokenVar, name "var_name", name "var_value"]⟩ ::
    modelTypes.map (fun m => ⟨"set_default_model",
      [.word .tokenDefault, .word m.1, const "model_type" m.2, text "model_id"]⟩)

def unassigned : List Production :=
  modelTypes.map (fun m => ⟨"reset_default_model",
    [.word .tokenDefault, .word m.1, const "model_type" m.2]⟩)

def parsed : List Production :=
  [⟨"parse_dataset", [.word .tokenDataset, text "dataset_name", .word .tokenSync,
     const "method" "sync"]⟩,
   ⟨"parse_dataset", [.word .tokenDataset, text "dataset_name", .word .tokenAsync,
     const "method" "async"]⟩,
   ⟨"parse_dataset_docs", [text "document_names", .word .tokenOf, .word .tokenDataset,
     text "dataset_name"]⟩]

/-- The commands that can be measured, but for those with `PING` and `LIST`. -/
def userCommands : List Production :=
  after .tokenShow shown ++ after .tokenCreate created ++ after .tokenDrop dropped ++
    after .tokenSet assigned ++ after .tokenReset unassigned ++ after .tokenParse parsed ++
    [⟨"import_docs_into_dataset", [.word .tokenImport, text "document_paths", .word .tokenInto,
       .word .tokenDataset, text "dataset_name"]⟩,
     ⟨"search_on_datasets", [.word .tokenSearch, text "question", .word .tokenOn,
       .word .tokenDatasets, text "datasets"]⟩]

/-- The commands that cannot. -/
def adminCommands : List Production :=
  after .tokenAlter altered ++ after .tokenGrant granted ++ after .tokenRevoke revoked ++
    [⟨"generate_key", [.word .tokenGenerate, .word .tokenKey, .word .tokenFor, .word .tokenUser,
       text "user_name"]⟩,
     ⟨"startup_service", [.word .tokenStartup, .word .tokenService, serviceNumber]⟩,
     ⟨"shutdown_service", [.word .tokenShutdown, .word .tokenService, serviceNumber]⟩,
     ⟨"restart_service", [.word .tokenRestart, .word .tokenService, serviceNumber]⟩]

/-! ### What the grammar says of the tokens -/

def first (ts : List Token) : Token := tokenAt ts 0

/-- Identifiers with a comma before each, and no further comma. -/
def Names : List Token → List String → List Token → Prop
  | ts, [], rest => (first ts).type ≠ .tokenComma ∧ rest = ts
  | ts, n :: ns, rest => (first ts).type = .tokenComma ∧
      (first ts.tail).type = .tokenIdentifier ∧ (first ts.tail).value = n ∧
      Names ts.tail.tail ns rest

/-- The parameters that are read from the front of the tokens, and the tokens left. -/
def Slot.Reads : Slot → List Token → Params → List Token → Prop
  | .quoted param, ts, params, rest => (first ts).type = .tokenQuotedString ∧
      params = [(param, .text (first ts).value)] ∧ rest = ts.tail
  | .identifier param, ts, params, rest => (first ts).type = .tokenIdentifier ∧
      params = [(param, .text (first ts).value)] ∧ rest = ts.tail
  | .number param, ts, params, rest => (first ts).type = .tokenNumber ∧
      ∃ n, atoi (first ts).value = .ok n ∧ params = [(param, .number n)] ∧ rest = ts.tail
  | .identifiers param, ts, params, rest => (first ts).type = .tokenIdentifier ∧
      ∃ ns, Names ts.tail ns rest ∧ params = [(param, .texts ((first ts).value :: ns))]
  | .given param value, ts, params, rest => params = [(param, .text value)] ∧ rest = ts

def Reads : List Symbol → List Token → Params → List Token → Prop
  | [], ts, params, rest => params = [] ∧ rest = ts
  | .word t :: symbols, ts, params, rest =>
      (first ts).type = t ∧ Reads symbols ts.tail params rest
  | .slot s :: symbols, ts, params, rest => ∃ here later mid, s.Reads ts here mid ∧
      Reads symbols mid later rest ∧ params = here ++ later
  | .absent t :: symbols, ts, params, rest => (first ts).type ≠ t ∧ Reads symbols ts params rest

/-- The tokens are those of the command, and a semicolon comes next or after one token more. -/
def Form (type : String) (params : Params) (symbols : List Symbol) (ts : List Token)
    (cmd : Command) : Prop :=
  ∃ more rest, Reads symbols ts more rest ∧ SemicolonAt rest 0 ∧ cmd = ⟨type, params ++ more⟩

/-- The tokens are those of one of the commands. -/
def OneOf (rs : List Production) (ts : List Token) (cmd : Command) : Prop :=
  ∃ r ∈ rs, Form r.type [] r.symbols ts cmd

/-- A command that can be measured. -/
def UserStatement (ts : List Token) (cmd : Command) : Prop :=
  OneOf userCommands ts cmd ∨
    ((first ts).type = .tokenPing ∨ (first ts).type = .tokenList) ∧
      ∃ c, (∃ r ∈ plain, Accepts r ts c) ∧ cmd = ofCommand c

/-- `BENCHMARK`, two numbers and the command that is measured. -/
def Measured (ts : List Token) (cmd : Command) : Prop :=
  (first ts).type = .tokenBenchmark ∧ ∃ numbers mid nested,
    Reads [.slot (.number "concurrency"), .slot (.number "iterations")] ts.tail numbers mid ∧
      UserStatement mid nested ∧ cmd = ⟨"benchmark",
        numbers ++ [("command", .command nested.type nested.params)]⟩

/-- `REGISTER`, a token that is skipped, and the rest of the command from `USER` on. -/
def Registers (ts : List Token) (cmd : Command) : Prop :=
  (first ts).type = .tokenRegister ∧ ∃ values, Fits ts 2 registerUser.symbols.tail values ∧
    SemicolonAt ts 8 ∧ cmd = ofCommand (registerUser.command values)

/-- What the parser accepts. -/
def Sentence (ts : List Token) (cmd : Command) : Prop :=
  UserStatement ts cmd ∨ OneOf adminCommands ts cmd ∨ Measured ts cmd ∨ Registers ts cmd ∨
    (first ts).type = .tokenLogin ∧ ∃ c, (∃ r ∈ plain, Accepts r ts c) ∧ cmd = ofCommand c

/-! ### Steps -/

section steps
variable {ts : List Token} {params : Params} {p : Parser}

theorem nextToken_start (ts : List Token) : (parserAt ts 0).nextToken = parserAt ts.tail 0 := by
  rw [nextToken_parserAt]
  cases ts with
  | nil => rfl
  | cons t ts => rfl

theorem curToken_start (ts : List Token) : (parserAt ts 0).curToken = first ts := rfl

theorem parseIdentifier_eq_ok {value : String} : parseIdentifier (parserAt ts 0) = .ok value ↔
    (first ts).type = .tokenIdentifier ∧ (first ts).value = value := by
  unfold parseIdentifier
  rw [curToken_start]
  split <;> simp_all

theorem parseNumber_eq_ok {n : ℤ} : parseNumber (parserAt ts 0) = .ok n ↔
    (first ts).type = .tokenNumber ∧ atoi (first ts).value = .ok n := by
  unfold parseNumber
  rw [curToken_start]
  split <;> simp_all

theorem names_of_ne_comma (h : (first ts).type ≠ .tokenComma) {ns : List String}
    {rest : List Token} : Names ts ns rest ↔ ns = [] ∧ rest = ts := by
  cases ns with
  | nil => exact ⟨fun hnames => ⟨rfl, hnames.2⟩, fun hnames => ⟨h, hnames.2⟩⟩
  | cons n ns => exact ⟨fun hnames => absurd hnames.1 h, fun hnames => nomatch hnames.1⟩

theorem names_of_comma (h : (first ts).type = .tokenComma) {ns : List String}
    {rest : List Token} : Names ts ns rest ↔ ∃ n later, ns = n :: later ∧
      ((first ts.tail).type = .tokenIdentifier ∧ (first ts.tail).value = n) ∧
      Names ts.tail.tail later rest := by
  cases ns with
  | nil => exact ⟨fun hnames => absurd h hnames.1, fun ⟨_, _, heq, _⟩ => nomatch heq⟩
  | cons n ns =>
      constructor
      · rintro ⟨-, htype, hvalue, hlater⟩
        exact ⟨n, ns, rfl, ⟨htype, hvalue⟩, hlater⟩
      · rintro ⟨n', later, heq, ⟨htype, hvalue⟩, hlater⟩
        cases heq
        exact ⟨h, htype, hvalue, hlater⟩

theorem moreIdentifiers_eq_ok {turns : ℕ} (hturns : ts.length ≤ turns) {list : List String}
    {r : List String × Parser} : moreIdentifiers turns (parserAt ts 0) list = .ok r ↔
      ∃ ns rest, Names ts ns rest ∧ r = (list ++ ns, parserAt rest 0) := by
  -- Without a comma the list has ended.
  have hdone : ∀ {ts : List Token} {list : List String} {r : List String × Parser},
      (first ts).type ≠ .tokenComma →
        ((Except.ok (list, parserAt ts 0) : Except String (List String × Parser)) = .ok r ↔
          ∃ ns rest, Names ts ns rest ∧ r = (list ++ ns, parserAt rest 0)) := by
    intro ts list r hcomma
    simp only [names_of_ne_comma hcomma]
    constructor
    · rintro ⟨⟩
      exact ⟨[], ts, ⟨rfl, rfl⟩, by rw [List.append_nil]⟩
    · rintro ⟨ns, rest, ⟨rfl, rfl⟩, rfl⟩
      rw [List.append_nil]
  induction turns generalizing ts list r with
  | zero =>
      rw [List.eq_nil_of_length_eq_zero (Nat.le_zero.mp hturns)]
      exact hdone (by decide)
  | succ turns ih =>
      unfold moreIdentifiers
      rw [curToken_start]
      by_cases hcomma : (first ts).type = .tokenComma
      · have hshort : ts.tail.tail.length ≤ turns := by
          rw [List.length_tail, List.length_tail]
          omega
        rw [if_pos hcomma, bind_eq_ok]
        simp only [names_of_comma hcomma, nextToken_start, parseIdentifier_eq_ok]
        constructor
        · rintro ⟨n, hn, hrest⟩
          obtain ⟨ns, rest, hnames, rfl⟩ := (ih hshort).mp hrest
          refine ⟨n :: ns, rest, ⟨n, ns, rfl, hn, hnames⟩, ?_⟩
          rw [List.append_assoc, List.singleton_append]
        · rintro ⟨ns, rest, ⟨n, later, rfl, hn, hnames⟩, rfl⟩
          refine ⟨n, hn, (ih hshort).mpr ⟨later, rest, hnames, ?_⟩⟩
          rw [List.append_assoc, List.singleton_append]
      · rw [if_neg hcomma]
        exact hdone hcomma

theorem parseIdentifierList_eq_ok {r : List String × Parser} :
    parseIdentifierList (parserAt ts 0) = .ok r ↔ (first ts).type = .tokenIdentifier ∧
      ∃ ns rest, Names ts.tail ns rest ∧ r = ((first ts).value :: ns, parserAt rest 0) := by
  have hturns : ts.tail.length ≤ (parserAt ts.tail 0).lexer.length + 2 := by
    show ts.tail.length ≤ (ts.tail.drop 2).length + 2
    rw [List.length_drop]
    omega
  unfold parseIdentifierList
  rw [bind_eq_ok]
  simp only [nextToken_start, parseIdentifier_eq_ok, moreIdentifiers_eq_ok hturns]
  constructor
  · rintro ⟨n, ⟨htype, rfl⟩, hrest⟩
    exact ⟨htype, hrest⟩
  · rintro ⟨htype, hrest⟩
    exact ⟨_, ⟨htype, rfl⟩, hrest⟩

theorem slot_read_eq_ok {s : Slot} {r : Params × Parser} : s.read (parserAt ts 0) = .ok r ↔
    ∃ params rest, s.Reads ts params rest ∧ r = (params, parserAt rest 0) := by
  cases s with
  | quoted param =>
      unfold Slot.read Slot.Reads
      rw [bind_eq_ok]
      simp only [pure_eq_ok, nextToken_start, parseQuotedString_eq_ok]
      constructor
      · rintro ⟨value, ⟨htype, rfl⟩, rfl⟩
        exact ⟨_, _, ⟨htype, rfl, rfl⟩, rfl⟩
      · rintro ⟨params, rest, ⟨htype, rfl, rfl⟩, rfl⟩
        exact ⟨_, ⟨htype, rfl⟩, rfl⟩
  | identifier param =>
      unfold Slot.read Slot.Reads
      rw [bind_eq_ok]
      simp only [pure_eq_ok, nextToken_start, parseIdentifier_eq_ok]
      constructor
      · rintro ⟨value, ⟨htype, rfl⟩, rfl⟩
        exact ⟨_, _, ⟨htype, rfl, rfl⟩, rfl⟩
      · rintro ⟨params, rest, ⟨htype, rfl, rfl⟩, rfl⟩
        exact ⟨_, ⟨htype, rfl⟩, rfl⟩
  | number param =>
      unfold Slot.read Slot.Reads
      rw [bind_eq_ok]
      simp only [pure_eq_ok, nextToken_start, parseNumber_eq_ok]
      constructor
      · rintro ⟨n, ⟨htype, hn⟩, rfl⟩
        exact ⟨_, _, ⟨htype, n, hn, rfl, rfl⟩, rfl⟩
      · rintro ⟨params, rest, ⟨htype, n, hn, rfl, rfl⟩, rfl⟩
        exact ⟨n, ⟨htype, hn⟩, rfl⟩
  | identifiers param =>
      unfold Slot.read Slot.Reads
      rw [bind_eq_ok]
      simp only [pure_eq_ok, parseIdentifierList_eq_ok]
      constructor
      · rintro ⟨r', ⟨htype, ns, rest, hnames, rfl⟩, rfl⟩
        exact ⟨_, rest, ⟨htype, ns, hnames, rfl⟩, rfl⟩
      · rintro ⟨params, rest, ⟨htype, ns, hnames, rfl⟩, rfl⟩
        exact ⟨_, ⟨htype, ns, rest, hnames, rfl⟩, rfl⟩
  | given param value =>
      unfold Slot.read Slot.Reads
      rw [pure_eq_ok]
      constructor
      · rintro rfl
        exact ⟨_, _, ⟨rfl, rfl⟩, rfl⟩
      · rintro ⟨params, rest, ⟨rfl, rfl⟩, rfl⟩
        rfl

/-- What the grammar says of a step. -/
def Step.symbol : Step → Symbol
  | .expect t _ => .word t
  | .slot s => .slot s

theorem symbol_expect {t : TokenType} {message : String} :
    (Step.expect t message).symbol = .word t := rfl

theorem symbol_quoted {param : String} : (quoted param).symbol = text param := rfl

theorem symbol_identifier {param : String} : (identifier param).symbol = name param := rfl

theorem symbol_identifiers {param : String} : (identifiers param).symbol = names param := rfl

theorem symbol_given {param value : String} : (given param value).symbol = const param value := rfl

theorem symbol_number : (number "number").symbol = serviceNumber := rfl

theorem read_eq_ok {steps : List Step} {r : Params × Parser} :
    read steps (parserAt ts 0) = .ok r ↔ ∃ params rest,
      Reads (steps.map Step.symbol) ts params rest ∧ r = (params, parserAt rest 0) := by
  induction steps generalizing ts r with
  | nil =>
      constructor
      · rintro ⟨⟩
        exact ⟨[], ts, ⟨rfl, rfl⟩, rfl⟩
      · rintro ⟨params, rest, ⟨rfl, rfl⟩, rfl⟩
        rfl
  | cons step steps ih =>
      cases step with
      | expect t message =>
          unfold read
          rw [bind_eq_ok]
          simp only [expectCur_eq_ok, nextToken_start, ih]
          constructor
          · rintro ⟨-, htype, params, rest, hrest, rfl⟩
            exact ⟨params, rest, ⟨htype, hrest⟩, rfl⟩
          · rintro ⟨params, rest, ⟨htype, hrest⟩, rfl⟩
            exact ⟨(), htype, params, rest, hrest, rfl⟩
      | slot s =>
          unfold read
          rw [bind_eq_ok]
          simp only [bind_eq_ok, pure_eq_ok, slot_read_eq_ok]
          constructor
          · rintro ⟨r₁, ⟨here, mid, hhere, rfl⟩, r₂, hlater, rfl⟩
            have hread : read steps (parserAt mid 0) = .ok r₂ := hlater
            obtain ⟨later, rest, hreads, rfl⟩ := ih.mp hread
            exact ⟨here ++ later, rest, ⟨here, later, mid, hhere, hreads, rfl⟩, rfl⟩
          · rintro ⟨params, rest, ⟨here, later, mid, hhere, hlater, rfl⟩, rfl⟩
            have hread : read steps (parserAt mid 0) = .ok (later, parserAt rest 0) :=
              ih.mpr ⟨later, rest, hlater, rfl⟩
            exact ⟨_, ⟨here, mid, hhere, rfl⟩, _, hread, rfl⟩

theorem statement_eq_ok {type : String} {steps : List Step} {cmd : Command} :
    statement type params steps (parserAt ts 0) = .ok cmd ↔
      Form type params (steps.map Step.symbol) ts cmd := by
  unfold statement Form
  rw [bind_eq_ok]
  simp only [bind_eq_ok, pure_eq_ok, read_eq_ok, exists_and_right]
  constructor
  · rintro ⟨r, ⟨more, rest, hmore, rfl⟩, hsemi, rfl⟩
    exact ⟨more, rest, hmore, expectSemicolon_eq_ok.mp hsemi, rfl⟩
  · rintro ⟨more, rest, hmore, hsemi, rfl⟩
    exact ⟨_, ⟨more, rest, hmore, rfl⟩, expectSemicolon_eq_ok.mpr hsemi, rfl⟩

end steps

/-! ### Forms -/

section forms
variable {ts : List Token} {type : String} {params : Params} {symbols : List Symbol}
  {cmd : Command} {t : TokenType}

theorem form_word : Form type params (.word t :: symbols) ts cmd ↔
    (first ts).type = t ∧ Form type params symbols ts.tail cmd := by
  constructor
  · rintro ⟨more, rest, ⟨htype, hmore⟩, hend⟩
    exact ⟨htype, more, rest, hmore, hend⟩
  · rintro ⟨htype, more, rest, hmore, hend⟩
    exact ⟨more, rest, ⟨htype, hmore⟩, hend⟩

theorem form_absent : Form type params (.absent t :: symbols) ts cmd ↔
    (first ts).type ≠ t ∧ Form type params symbols ts cmd := by
  constructor
  · rintro ⟨more, rest, ⟨htype, hmore⟩, hend⟩
    exact ⟨htype, more, rest, hmore, hend⟩
  · rintro ⟨htype, more, rest, hmore, hend⟩
    exact ⟨more, rest, ⟨htype, hmore⟩, hend⟩

theorem form_slot {s : Slot} : Form type params (.slot s :: symbols) ts cmd ↔
    ∃ here mid, s.Reads ts here mid ∧ Form type (params ++ here) symbols mid cmd := by
  constructor
  · rintro ⟨more, rest, ⟨here, later, mid, hhere, hlater, rfl⟩, hsemi, rfl⟩
    refine ⟨here, mid, hhere, later, rest, hlater, hsemi, ?_⟩
    rw [List.append_assoc]
  · rintro ⟨here, mid, hhere, later, rest, hlater, hsemi, rfl⟩
    refine ⟨here ++ later, rest, ⟨here, later, mid, hhere, hlater, rfl⟩, hsemi, ?_⟩
    rw [List.append_assoc]

theorem reads_append {symbols' : List Symbol} {rest : List Token} :
    Reads (symbols ++ symbols') ts params rest ↔ ∃ here later mid, Reads symbols ts here mid ∧
      Reads symbols' mid later rest ∧ params = here ++ later := by
  induction symbols generalizing ts params with
  | nil =>
      constructor
      · intro h
        exact ⟨[], params, ts, ⟨rfl, rfl⟩, h, rfl⟩
      · rintro ⟨here, later, mid, ⟨rfl, rfl⟩, h, rfl⟩
        exact h
  | cons symbol symbols ih =>
      cases symbol with
      | word t =>
          constructor
          · rintro ⟨htype, h⟩
            obtain ⟨here, later, mid, hhere, hlater, rfl⟩ := ih.mp h
            exact ⟨here, later, mid, ⟨htype, hhere⟩, hlater, rfl⟩
          · rintro ⟨here, later, mid, ⟨htype, hhere⟩, hlater, rfl⟩
            exact ⟨htype, ih.mpr ⟨here, later, mid, hhere, hlater, rfl⟩⟩
      | slot s =>
          constructor
          · rintro ⟨here₁, later₁, mid₁, hread, h, rfl⟩
            obtain ⟨here, later, mid, hhere, hlater, rfl⟩ := ih.mp h
            exact ⟨here₁ ++ here, later, mid, ⟨here₁, here, mid₁, hread, hhere, rfl⟩, hlater,
              (List.append_assoc ..).symm⟩
          · rintro ⟨_, later, mid, ⟨here₁, here, mid₁, hread, hhere, rfl⟩, hlater, rfl⟩
            exact ⟨here₁, here ++ later, mid₁, hread,
              ih.mpr ⟨here, later, mid, hhere, hlater, rfl⟩, List.append_assoc ..⟩
      | absent t =>
          constructor
          · rintro ⟨htype, h⟩
            obtain ⟨here, later, mid, hhere, hlater, rfl⟩ := ih.mp h
            exact ⟨here, later, mid, ⟨htype, hhere⟩, hlater, rfl⟩
          · rintro ⟨here, later, mid, ⟨htype, hhere⟩, hlater, rfl⟩
            exact ⟨htype, ih.mpr ⟨here, later, mid, hhere, hlater, rfl⟩⟩

theorem form_append {symbols' : List Symbol} : Form type [] (symbols ++ symbols') ts cmd ↔
    ∃ here mid, Reads symbols ts here mid ∧ Form type here symbols' mid cmd := by
  unfold Form
  simp only [reads_append]
  constructor
  · rintro ⟨more, rest, ⟨here, later, mid, hhere, hlater, rfl⟩, hend⟩
    exact ⟨here, mid, hhere, later, rest, hlater, hend⟩
  · rintro ⟨here, mid, hhere, later, rest, hlater, hend⟩
    exact ⟨here ++ later, rest, ⟨here, later, mid, hhere, hlater, rfl⟩, hend⟩

/-- Some steps, and then what depends on the token after them. -/
theorem read_bind_eq_ok {steps : List Step} {f : Params × Parser → Except String Command} :
    (read steps (parserAt ts 0) >>= f) = .ok cmd ↔ ∃ here mid,
      Reads (steps.map Step.symbol) ts here mid ∧ f (here, parserAt mid 0) = .ok cmd := by
  rw [bind_eq_ok]
  simp only [read_eq_ok]
  constructor
  · rintro ⟨r, ⟨here, mid, hhere, rfl⟩, hf⟩
    exact ⟨here, mid, hhere, hf⟩
  · rintro ⟨here, mid, hhere, hf⟩
    exact ⟨_, ⟨here, mid, hhere, rfl⟩, hf⟩

theorem form_const {param value : String} : Form type params (const param value :: symbols) ts cmd ↔
    Form type (params ++ [(param, .text value)]) symbols ts cmd := by
  unfold const
  rw [form_slot]
  constructor
  · rintro ⟨here, mid, ⟨rfl, rfl⟩, hform⟩
    exact hform
  · intro hform
    exact ⟨_, _, ⟨rfl, rfl⟩, hform⟩

/-- A string where there is another token. -/
theorem form_text {param : String} : Form type params (text param :: symbols) ts cmd ↔
    (first ts).type = .tokenQuotedString ∧
      Form type (params ++ [(param, .text (first ts).value)]) symbols ts.tail cmd := by
  unfold text
  rw [form_slot]
  constructor
  · rintro ⟨here, mid, ⟨htype, rfl, rfl⟩, hform⟩
    exact ⟨htype, hform⟩
  · rintro ⟨htype, hform⟩
    exact ⟨_, _, ⟨htype, rfl, rfl⟩, hform⟩

theorem oneOf_nil : OneOf [] ts cmd ↔ False :=
  ⟨fun ⟨_, hr, _⟩ => absurd hr List.not_mem_nil, False.elim⟩

theorem oneOf_cons {r : Production} {rs : List Production} : OneOf (r :: rs) ts cmd ↔
    Form r.type [] r.symbols ts cmd ∨ OneOf rs ts cmd := by
  unfold OneOf
  simp only [List.mem_cons, exists_eq_or_imp]

theorem oneOf_append {rs rs' : List Production} : OneOf (rs ++ rs') ts cmd ↔
    OneOf rs ts cmd ∨ OneOf rs' ts cmd := by
  unfold OneOf
  simp only [List.mem_append, or_and_right, exists_or]

theorem oneOf_after {rs : List Production} : OneOf (after t rs) ts cmd ↔
    (first ts).type = t ∧ OneOf rs ts.tail cmd := by
  unfold OneOf after
  simp only [List.mem_map, exists_exists_and_eq_and, form_word]
  constructor
  · rintro ⟨r, hr, htype, hform⟩
    exact ⟨htype, r, hr, hform⟩
  · rintro ⟨htype, r, hr, hform⟩
    exact ⟨r, hr, htype, hform⟩

end forms

/-! ### The functions -/

section functions
variable {ts : List Token} {cmd : Command}

theorem parseShowUser_eq_ok : parseShowUser (parserAt ts 0) = .ok cmd ↔
    ((first ts.tail).type = .tokenPermission ∧
      Form "show_user_permission" [] [text "user_name"] ts.tail.tail cmd) ∨
    Form "show_user" [] [text "user_name"] ts.tail cmd := by
  unfold parseShowUser
  simp only [nextToken_start, curToken_start]
  split
  case isTrue hpermission =>
    simp [statement_eq_ok, symbol_quoted, form_text, hpermission]
  case isFalse hpermission =>
    simp [statement_eq_ok, symbol_quoted, hpermission]

theorem parseShowCommand_eq_ok : parseShowCommand (parserAt ts 0) = .ok cmd ↔
    OneOf shown ts.tail cmd := by
  unfold parseShowCommand parseShowRole parseShowVariable parseShowService shown
  simp only [nextToken_start, curToken_start, oneOf_cons, oneOf_nil, form_word, or_false]
  generalize (first ts.tail).type = t
  split <;> simp_all [statement_eq_ok, parseShowUser_eq_ok, symbol_expect, symbol_identifier,
    symbol_number, form_word]

theorem parseCreateRole_eq_ok : parseCreateRole (parserAt ts 0) = .ok cmd ↔
    Form "create_role" [] [name "role_name", .word .tokenDescription, text "description"]
      ts.tail cmd ∨
    Form "create_role" [] [name "role_name", .absent .tokenDescription] ts.tail cmd := by
  rw [show [name "role_name", .word .tokenDescription, text "description"] =
    [name "role_name"] ++ [.word .tokenDescription, text "description"] from rfl,
    show [name "role_name", .absent .tokenDescription] =
      [name "role_name"] ++ [.absent .tokenDescription] from rfl, form_append, form_append]
  unfold parseCreateRole
  simp only [nextToken_start, read_bind_eq_ok, curToken_start, ← exists_or, ← and_or_left,
    form_word, form_absent]
  refine exists_congr fun here => exists_congr fun mid => and_congr_right fun _ => ?_
  split
  case isTrue hdescription => simp [statement_eq_ok, symbol_quoted, hdescription]
  case isFalse hdescription => simp [statement_eq_ok, hdescription]

/-- Some steps, and then one of two words with what comes after it. -/
theorem either_eq_ok {type message : String} {t t' : TokenType} (hne : t ≠ t')
    {steps steps₁ steps₂ : List Step} :
    (read steps (parserAt ts 0) >>= fun r =>
      if r.2.curToken.type = t then statement type r.1 steps₁ r.2.nextToken
      else if r.2.curToken.type = t' then statement type r.1 steps₂ r.2.nextToken
      else .error message) = .ok cmd ↔
    Form type [] (steps.map Step.symbol ++ .word t :: steps₁.map Step.symbol) ts cmd ∨
      Form type [] (steps.map Step.symbol ++ .word t' :: steps₂.map Step.symbol) ts cmd := by
  simp only [read_bind_eq_ok, form_append, form_word, ← exists_or, ← and_or_left]
  refine exists_congr fun here => exists_congr fun mid => and_congr_right fun _ => ?_
  rw [curToken_start, nextToken_start]
  by_cases ht : (first mid).type = t
  · simp [statement_eq_ok, ht, hne]
  · rw [if_neg ht]
    by_cases ht' : (first mid).type = t'
    · simp [statement_eq_ok, ht', hne.symm]
    · simp [ht, ht']

theorem parseCreateDataset_eq_ok : parseCreateDataset (parserAt ts 0) = .ok cmd ↔
    Form "create_user_dataset" [] [text "dataset_name", .word .tokenWith, .word .tokenEmbedding,
      text "embedding", .word .tokenParser, text "parser_type"] ts.tail cmd ∨
    Form "create_user_dataset" [] [text "dataset_name", .word .tokenWith, .word .tokenEmbedding,
      text "embedding", .word .tokenPipeline, text "pipeline"] ts.tail cmd := by
  unfold parseCreateDataset
  rw [nextToken_start]
  exact either_eq_ok (by decide)

theorem parseCreateCommand_eq_ok : parseCreateCommand (parserAt ts 0) = .ok cmd ↔
    OneOf created ts.tail cmd := by
  unfold parseCreateCommand parseCreateUser parseCreateModelProvider parseCreateChat created
  simp only [nextToken_start, curToken_start, oneOf_cons, oneOf_nil, form_word, or_false]
  generalize (first ts.tail).type = t
  split <;> simp_all [statement_eq_ok, parseCreateRole_eq_ok, parseCreateDataset_eq_ok,
    symbol_expect, symbol_quoted, symbol_given, form_word]

theorem parseDropCommand_eq_ok : parseDropCommand (parserAt ts 0) = .ok cmd ↔
    OneOf dropped ts.tail cmd := by
  unfold parseDropCommand parseDropUser parseDropRole parseDropModelProvider parseDropDataset
    parseDropChat parseDropKey dropped
  simp only [nextToken_start, curToken_start, oneOf_cons, oneOf_nil, form_word, or_false]
  generalize (first ts.tail).type = t
  split <;> simp_all [statement_eq_ok, symbol_expect, symbol_quoted, symbol_identifier, form_word]

theorem parseAlterUser_eq_ok : parseAlterUser (parserAt ts 0) = .ok cmd ↔
    ((first ts.tail).type = .tokenActive ∧
      Form "activate_user" [] [text "user_name", name "activate_status"] ts.tail.tail cmd) ∨
    ((first ts.tail).type = .tokenPassword ∧
      Form "alter_user" [] [text "user_name", text "password"] ts.tail.tail cmd) ∨
    Form "alter_user_role" [] [text "user_name", .word .tokenSet, .word .tokenRole,
      name "role_name"] ts.tail cmd := by
  unfold parseAlterUser parseActivateUser
  simp only [nextToken_start, curToken_start]
  split
  case isTrue hactive =>
    simp [statement_eq_ok, symbol_quoted, symbol_identifier, form_text, hactive]
  case isFalse hactive =>
    split
    case isTrue hpassword => simp [statement_eq_ok, symbol_quoted, form_text, hpassword]
    case isFalse hpassword =>
      simp [statement_eq_ok, symbol_expect, symbol_quoted, symbol_identifier, hactive, hpassword]

theorem parseAlterCommand_eq_ok : parseAlterCommand (parserAt ts 0) = .ok cmd ↔
    OneOf altered ts.tail cmd := by
  unfold parseAlterCommand parseAlterRole altered
  simp only [nextToken_start, curToken_start, oneOf_cons, oneOf_nil, form_word, or_false]
  generalize (first ts.tail).type = t
  split <;> simp_all [statement_eq_ok, parseAlterUser_eq_ok, symbol_expect, symbol_quoted,
    symbol_identifier]

/-- A list of identifiers where there is another token. -/
theorem form_names {type param : String} {params : Params} {symbols : List Symbol}
    (h : (first ts).type ≠ .tokenIdentifier) :
    ¬ Form type params (names param :: symbols) ts cmd := by
  unfold names
  rw [form_slot]
  rintro ⟨here, mid, ⟨htype, -⟩, -⟩
  exact h htype

/-- `ADMIN` and a user, or the permissions of a role. -/
theorem adminOr_eq_ok {type type' : String} {steps : List Step} :
    (if (first ts).type = .tokenAdmin then
        statement type [] [quoted "user_name"] (parserAt ts 0).nextToken
      else statement type' [] (identifiers "actions" :: steps) (parserAt ts 0)) = .ok cmd ↔
    ((first ts).type = .tokenAdmin ∧ Form type [] [text "user_name"] ts.tail cmd) ∨
      Form type' [] (names "actions" :: steps.map Step.symbol) ts cmd := by
  rw [nextToken_start]
  split
  case isTrue hadmin =>
    have hnames : (first ts).type ≠ .tokenIdentifier := by rw [hadmin]; decide
    simp [statement_eq_ok, symbol_quoted, hadmin, form_names hnames]
  case isFalse hadmin => simp [statement_eq_ok, symbol_identifiers, hadmin]

theorem parseGrantCommand_eq_ok : parseGrantCommand (parserAt ts 0) = .ok cmd ↔
    OneOf granted ts.tail cmd := by
  unfold parseGrantCommand granted
  simp only [nextToken_start, curToken_start, oneOf_cons, oneOf_nil, form_word, or_false]
  exact adminOr_eq_ok

theorem parseRevokeCommand_eq_ok : parseRevokeCommand (parserAt ts 0) = .ok cmd ↔
    OneOf revoked ts.tail cmd := by
  unfold parseRevokeCommand revoked
  simp only [nextToken_start, curToken_start, oneOf_cons, oneOf_nil, form_word, or_false]
  exact adminOr_eq_ok

theorem parseModelType_eq_ok {v : String} : parseModelType (parserAt ts 0) = .ok v ↔
    ((first ts).type, v) ∈ modelTypes := by
  have hnodup : (modelTypes.map Prod.fst).Nodup := by decide
  have hlookup : modelTypes.lookup (first ts).type = some v ↔ ((first ts).type, v) ∈ modelTypes :=
    ⟨Dict.mem_of_lookup, fun h => Dict.lookup_of_mem hnodup h⟩
  rw [← hlookup]
  unfold parseModelType
  rw [curToken_start]
  cases modelTypes.lookup (first ts).type <;> simp

/-- A type of a model, and then the rest of the command. -/
theorem modelType_bind_eq_ok {f : String → Except String Command} :
    (parseModelType (parserAt ts 0) >>= f) = .ok cmd ↔
      ∃ m ∈ modelTypes, (first ts).type = m.1 ∧ f m.2 = .ok cmd := by
  rw [bind_eq_ok]
  simp only [parseModelType_eq_ok]
  constructor
  · rintro ⟨v, hm, hv⟩
    exact ⟨_, hm, rfl, hv⟩
  · rintro ⟨m, hm, htype, hv⟩
    rw [htype]
    exact ⟨m.2, hm, hv⟩

theorem parseSetDefault_eq_ok : parseSetDefault (parserAt ts 0) = .ok cmd ↔
    ∃ m ∈ modelTypes, (first ts.tail).type = m.1 ∧ Form "set_default_model" []
      [const "model_type" m.2, text "model_id"] ts.tail.tail cmd := by
  unfold parseSetDefault
  simp only [nextToken_start, modelType_bind_eq_ok, statement_eq_ok, form_const]
  rfl

theorem oneOf_map {α : Type} {f : α → Production} {l : List α} : OneOf (l.map f) ts cmd ↔
    ∃ a ∈ l, Form (f a).type [] (f a).symbols ts cmd := by
  unfold OneOf
  simp only [List.mem_map, exists_exists_and_eq_and]

theorem parseSetCommand_eq_ok : parseSetCommand (parserAt ts 0) = .ok cmd ↔
    OneOf assigned ts.tail cmd := by
  unfold parseSetCommand parseSetVariable assigned
  simp only [nextToken_start, curToken_start, oneOf_cons, oneOf_map, form_word]
  split
  case isTrue hvar => simp [statement_eq_ok, symbol_identifier, hvar]
  case isFalse hvar =>
    split
    case isTrue hdefault => simp [parseSetDefault_eq_ok, hdefault]
    case isFalse hdefault => simp [hvar, hdefault]

theorem parseResetCommand_eq_ok : parseResetCommand (parserAt ts 0) = .ok cmd ↔
    OneOf unassigned ts.tail cmd := by
  unfold parseResetCommand unassigned
  rw [bind_eq_ok]
  simp only [nextToken_start, oneOf_map, form_word, expectCur_eq_ok, modelType_bind_eq_ok,
    statement_eq_ok, form_const]
  constructor
  · rintro ⟨-, hdefault, m, hm, hform⟩
    exact ⟨m, hm, hdefault, hform⟩
  · rintro ⟨m, hm, hdefault, hform⟩
    exact ⟨(), hdefault, m, hm, hform⟩

theorem parseParseDataset_eq_ok : parseParseDataset (parserAt ts 0) = .ok cmd ↔
    Form "parse_dataset" [] [text "dataset_name", .word .tokenSync, const "method" "sync"]
      ts.tail cmd ∨
    Form "parse_dataset" [] [text "dataset_name", .word .tokenAsync, const "method" "async"]
      ts.tail cmd := by
  unfold parseParseDataset
  rw [nextToken_start]
  exact either_eq_ok (by decide)

theorem parseParseCommand_eq_ok : parseParseCommand (parserAt ts 0) = .ok cmd ↔
    OneOf parsed ts.tail cmd := by
  unfold parseParseCommand parseParseDocs parsed
  simp only [nextToken_start, curToken_start, oneOf_cons, oneOf_nil, form_word, or_false]
  split
  case isTrue hdataset =>
    simp [parseParseDataset_eq_ok, form_text, form_word, hdataset]
  case isFalse hdataset =>
    simp [statement_eq_ok, symbol_quoted, symbol_expect, hdataset]

theorem parseServiceCommand_eq_ok {type : String} : parseServiceCommand type (parserAt ts 0) =
    .ok cmd ↔ Form type [] [.word .tokenService, serviceNumber] ts.tail cmd := by
  unfold parseServiceCommand
  rw [nextToken_start, statement_eq_ok]
  rfl

theorem parseGenerateCommand_eq_ok : parseGenerateCommand (parserAt ts 0) = .ok cmd ↔
    Form "generate_key" [] [.word .tokenKey, .word .tokenFor, .word .tokenUser, text "user_name"]
      ts.tail cmd := by
  unfold parseGenerateCommand
  rw [nextToken_start, statement_eq_ok]
  rfl

theorem parseImportCommand_eq_ok : parseImportCommand (parserAt ts 0) = .ok cmd ↔
    Form "import_docs_into_dataset" [] [text "document_paths", .word .tokenInto,
      .word .tokenDataset, text "dataset_name"] ts.tail cmd := by
  unfold parseImportCommand
  rw [nextToken_start, statement_eq_ok]
  rfl

theorem parseSearchCommand_eq_ok : parseSearchCommand (parserAt ts 0) = .ok cmd ↔
    Form "search_on_datasets" [] [text "question", .word .tokenOn, .word .tokenDatasets,
      text "datasets"] ts.tail cmd := by
  unfold parseSearchCommand
  rw [nextToken_start, statement_eq_ok]
  rfl

/-! ### The parser -/

theorem map_eq_ok {x : Except String Cli.Command} :
    x.map ofCommand = .ok cmd ↔ ∃ c, x = .ok c ∧ cmd = ofCommand c := by
  cases x with
  | error message => exact ⟨(fun h => nomatch h), fun ⟨_, h, _⟩ => nomatch h⟩
  | ok c =>
      constructor
      · rintro ⟨⟩
        exact ⟨c, rfl, rfl⟩
      · rintro ⟨_, ⟨⟩, rfl⟩
        rfl

theorem ping_eq_ok (h : (first ts).type = .tokenPing) {c : Cli.Command} :
    parsePingServer (parserAt ts 0) = .ok c ↔ ∃ r ∈ plain, Accepts r ts c :=
  parsePingServer_eq_ok h

theorem list_eq_ok (h : (first ts).type = .tokenList) {c : Cli.Command} :
    parseListCommand (parserAt ts 0) = .ok c ↔ ∃ r ∈ plain, Accepts r ts c :=
  parseListCommand_eq_ok h

theorem login_eq_ok (h : (first ts).type = .tokenLogin) {c : Cli.Command} :
    parseLoginUser (parserAt ts 0) = .ok c ↔ ∃ r ∈ plain, Accepts r ts c :=
  parseLoginUser_eq_ok h

/-- The commands that can be measured, by their first token. -/
theorem oneOf_userCommands : OneOf userCommands ts cmd ↔
    (first ts).type = .tokenShow ∧ OneOf shown ts.tail cmd ∨
    (first ts).type = .tokenCreate ∧ OneOf created ts.tail cmd ∨
    (first ts).type = .tokenDrop ∧ OneOf dropped ts.tail cmd ∨
    (first ts).type = .tokenSet ∧ OneOf assigned ts.tail cmd ∨
    (first ts).type = .tokenReset ∧ OneOf unassigned ts.tail cmd ∨
    (first ts).type = .tokenParse ∧ OneOf parsed ts.tail cmd ∨
    (first ts).type = .tokenImport ∧ parseImportCommand (parserAt ts 0) = .ok cmd ∨
    (first ts).type = .tokenSearch ∧ parseSearchCommand (parserAt ts 0) = .ok cmd := by
  unfold userCommands
  simp only [oneOf_append, oneOf_after, oneOf_cons, oneOf_nil, form_word, or_false, or_assoc,
    parseImportCommand_eq_ok, parseSearchCommand_eq_ok]

theorem oneOf_adminCommands : OneOf adminCommands ts cmd ↔
    (first ts).type = .tokenAlter ∧ OneOf altered ts.tail cmd ∨
    (first ts).type = .tokenGrant ∧ OneOf granted ts.tail cmd ∨
    (first ts).type = .tokenRevoke ∧ OneOf revoked ts.tail cmd ∨
    (first ts).type = .tokenGenerate ∧ parseGenerateCommand (parserAt ts 0) = .ok cmd ∨
    (first ts).type = .tokenStartup ∧ parseStartupCommand (parserAt ts 0) = .ok cmd ∨
    (first ts).type = .tokenShutdown ∧ parseShutdownCommand (parserAt ts 0) = .ok cmd ∨
    (first ts).type = .tokenRestart ∧ parseRestartCommand (parserAt ts 0) = .ok cmd := by
  unfold adminCommands parseStartupCommand parseShutdownCommand parseRestartCommand
  simp only [oneOf_append, oneOf_after, oneOf_cons, oneOf_nil, form_word, or_false, or_assoc,
    parseGenerateCommand_eq_ok, parseServiceCommand_eq_ok]

theorem parseUserStatement_eq_ok : parseUserStatement (parserAt ts 0) = .ok cmd ↔
    UserStatement ts cmd := by
  unfold parseUserStatement UserStatement
  rw [oneOf_userCommands, curToken_start]
  split <;> simp_all [map_eq_ok, ping_eq_ok, list_eq_ok, parseShowCommand_eq_ok,
    parseCreateCommand_eq_ok, parseDropCommand_eq_ok, parseSetCommand_eq_ok,
    parseResetCommand_eq_ok, parseParseCommand_eq_ok]

theorem parseBenchmarkCommand_eq_ok (h : (first ts).type = .tokenBenchmark) :
    parseBenchmarkCommand (parserAt ts 0) = .ok cmd ↔ Measured ts cmd := by
  unfold parseBenchmarkCommand Measured
  rw [nextToken_start, read_bind_eq_ok]
  simp only [bind_eq_ok, parseUserStatement_eq_ok, pure_eq_ok]
  constructor
  · rintro ⟨numbers, mid, hnumbers, nested, hnested, rfl⟩
    exact ⟨h, numbers, mid, nested, hnumbers, hnested, rfl⟩
  · rintro ⟨-, numbers, mid, nested, hnumbers, hnested, rfl⟩
    exact ⟨numbers, mid, hnumbers, nested, hnested, rfl⟩

theorem register_eq_ok : (∃ c, parseRegisterCommand (parserAt ts 0) = .ok c ∧ cmd = ofCommand c) ↔
    ∃ values, Fits ts 2 registerUser.symbols.tail values ∧ SemicolonAt ts 8 ∧
      cmd = ofCommand (registerUser.command values) := by
  simp only [parseRegisterCommand_eq_ok]
  constructor
  · rintro ⟨c, ⟨values, hfits, hsemi, rfl⟩, rfl⟩
    exact ⟨values, hfits, hsemi, rfl⟩
  · rintro ⟨values, hfits, hsemi, rfl⟩
    exact ⟨_, ⟨values, hfits, hsemi, rfl⟩, rfl⟩

theorem isKeyword_of_userStatement (h : UserStatement ts cmd) :
    isKeyword (first ts).type = true := by
  unfold UserStatement at h
  rw [oneOf_userCommands] at h
  rcases h with (⟨ht, -⟩ | ⟨ht, -⟩ | ⟨ht, -⟩ | ⟨ht, -⟩ | ⟨ht, -⟩ | ⟨ht, -⟩ | ⟨ht, -⟩ | ⟨ht, -⟩) |
    ⟨ht | ht, -⟩
  all_goals
    rw [ht]
    rfl

/-- No command begins with a token that is not a keyword. -/
theorem isKeyword_of_sentence (h : Sentence ts cmd) : isKeyword (first ts).type = true := by
  unfold Sentence at h
  rw [oneOf_adminCommands] at h
  rcases h with huser | (⟨ht, -⟩ | ⟨ht, -⟩ | ⟨ht, -⟩ | ⟨ht, -⟩ | ⟨ht, -⟩ | ⟨ht, -⟩ | ⟨ht, -⟩) |
    ⟨ht, -⟩ | ⟨ht, -⟩ | ⟨ht, -⟩
  case inl => exact isKeyword_of_userStatement huser
  all_goals
    rw [ht]
    rfl

/-- **The language of the command line.**  On every sequence of tokens the parser returns the
commands of the grammar, and no others. -/
theorem parseSQLCommand_iff (tokens : List Token) (cmd : Command) :
    parseSQLCommand (Cli.newParser tokens) = .ok cmd ↔ Sentence tokens cmd := by
  rw [newParser_eq]
  unfold parseSQLCommand
  rw [curToken_start]
  split
  case isTrue hno =>
    constructor
    · exact fun h => nomatch h
    · exact fun h => absurd (isKeyword_of_sentence h) hno.2
  case isFalse =>
    unfold Sentence UserStatement
    rw [oneOf_userCommands, oneOf_adminCommands]
    split <;> simp_all [map_eq_ok, ping_eq_ok, list_eq_ok, login_eq_ok, register_eq_ok,
      parseShowCommand_eq_ok, parseCreateCommand_eq_ok, parseDropCommand_eq_ok,
      parseSetCommand_eq_ok, parseResetCommand_eq_ok, parseParseCommand_eq_ok,
      parseAlterCommand_eq_ok, parseGrantCommand_eq_ok, parseRevokeCommand_eq_ok,
      parseBenchmarkCommand_eq_ok, Measured, Registers]

end functions

end RagFlow.CliCommands
