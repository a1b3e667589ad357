import RagFlow.CliLexer

/-! # The text of a command

What a text of the command line is made of: words, white space before them, and what is behind the
last one.  White space is needed only where a word would go on otherwise, as between two
identifiers.

* **Words.** The lexer gives the token of a word and stops behind it (`nextToken_word`), and every
  text that does not end begins with a word (`exists_word`).
* **Texts.** `tokens_iff`: the tokens of a text are those of its words.
* **Parser.** The parser on a text is the parser on the tokens of its words
  (`newLexerParser_render`). -/

namespace RagFlow.CliText

open Cli

/-- A word as it is written. -/
inductive Word
  /-- A keyword in any case, or an identifier. -/
  | ident (c : UInt8) (text : List UInt8)
  | number (c : UInt8) (text : List UInt8)
  | quoted (quote : UInt8) (text : List UInt8)
  /-- A string without its closing quote. -/
  | unclosed (quote : UInt8) (text : List UInt8)
  | metaCommand (text : List UInt8)
  | comma
  | semicolon
  | illegal (c : UInt8)
deriving DecidableEq

/-- White space, the bytes with a case of their own, and the end. -/
def specials : List UInt8 := [32, 9, 10, 13, 59, 44, 39, 34, 92, 0]

namespace Word

def bytes : Word → List UInt8
  | ident c text => c :: text
  | number c text => c :: text
  | quoted quote text => quote :: (text ++ [quote])
  | unclosed quote text => quote :: text
  | metaCommand text => 92 :: text
  | comma => [44]
  | semicolon => [59]
  | illegal c => [c]

def token : Word → Token
  | ident c text => lookupIdent (c :: text)
  | number c text => ⟨.tokenNumber, goString (c :: text)⟩
  | quoted _ text => ⟨.tokenQuotedString, goString text⟩
  | unclosed _ text => ⟨.tokenQuotedString, goString text⟩
  | metaCommand text => ⟨.tokenIdentifier, goString (92 :: text)⟩
  | comma => newToken .tokenComma 44
  | semicolon => newToken .tokenSemicolon 59
  | illegal c => newToken .tokenIllegal c

def Valid : Word → Prop
  | ident c text => isLetter c = true ∧ ∀ b ∈ text, isIdentPart b = true
  | number c text => isDigit c = true ∧ ∀ b ∈ text, isDigit b = true
  | quoted quote text | unclosed quote text =>
      (quote = 39 ∨ quote = 34) ∧ ∀ b ∈ text, isQuotedPart quote b = true
  | metaCommand text => ∀ b ∈ text, isMetaPart b = true
  | comma | semicolon => True
  | illegal c => c ∉ specials ∧ isLetter c = false ∧ isDigit c = false

/-- The word does not go on with what follows. -/
def Stops : Word → List UInt8 → Prop
  | ident _ _, rest => isIdentPart (rest.headD 0) = false
  | number _ _, rest => isDigit (rest.headD 0) = false
  | unclosed _ _, rest => rest.headD 0 = 0
  | metaCommand _, rest => isMetaPart (rest.headD 0) = false
  | quoted _ _, _ | comma, _ | semicolon, _ | illegal _, _ => True

theorem token_ne_eof (w : Word) : w.token.type ≠ .tokenEOF := by
  cases w with
  | ident c text => exact Lexer.lookupIdent_ne_eof _
  | number c text => exact TokenType.noConfusion
  | quoted quote text => exact TokenType.noConfusion
  | unclosed quote text => exact TokenType.noConfusion
  | metaCommand text => exact TokenType.noConfusion
  | comma => exact TokenType.noConfusion
  | semicolon => exact TokenType.noConfusion
  | illegal c => exact TokenType.noConfusion

end Word

/-- A text: words with what is before each, and what is behind them. -/
def render : List (List UInt8 × Word) → List UInt8 → List UInt8
  | [], tail => tail
  | (space, w) :: ws, tail => space ++ (w.bytes ++ render ws tail)

/-- There is only white space before the words and behind the last one, up to the end or a byte 0,
and no word goes on with the next. -/
def Spaced : List (List UInt8 × Word) → List UInt8 → Prop
  | [], tail => ∃ space rest, tail = space ++ rest ∧ (∀ b ∈ space, isSpace b = true) ∧
      rest.headD 0 = 0
  | (space, w) :: ws, tail => (∀ b ∈ space, isSpace b = true) ∧ w.Valid ∧
      w.Stops (render ws tail) ∧ Spaced ws tail

def tokensOf (ws : List (List UInt8 × Word)) : List Token := ws.map (fun w => w.2.token)

/-! ### Bytes -/

section bytes
variable {c : UInt8} {p : UInt8 → Bool}

theorem ne_of_plain (h : c ∉ specials) {d : UInt8} (hd : d ∈ specials) : c ≠ d := by
  rintro rfl
  exact h hd

theorem isSpace_of_plain (h : c ∉ specials) : isSpace c = false := by
  unfold isSpace
  simp only [Bool.or_eq_false_iff, beq_eq_false_iff_ne]
  exact ⟨⟨⟨ne_of_plain h (by decide), ne_of_plain h (by decide)⟩, ne_of_plain h (by decide)⟩,
    ne_of_plain h (by decide)⟩

theorem plain_of_all (hp : specials.all (fun d => !p d) = true) (h : p c = true) :
    c ∉ specials := by
  intro hc
  have hnot := List.all_eq_true.mp hp c hc
  rw [h] at hnot
  cases hnot

theorem plain_of_isLetter (h : isLetter c = true) : c ∉ specials := plain_of_all (by decide) h

theorem plain_of_isDigit (h : isDigit c = true) : c ∉ specials := plain_of_all (by decide) h

theorem not_isLetter_of_isDigit (h : isDigit c = true) : ¬ isLetter c = true := by
  unfold isDigit at h
  unfold isLetter
  grind

theorem isIdentPart_of_isLetter (h : isLetter c = true) : isIdentPart c = true := by
  unfold isIdentPart
  rw [h]
  rfl

/-- What a loop reads, and what is left. -/
theorem exists_run (hp : p 0 = false) (bytes : List UInt8) :
    ∃ text rest, bytes = text ++ rest ∧ (∀ b ∈ text, p b = true) ∧ p (rest.headD 0) = false := by
  induction bytes with
  | nil => exact ⟨[], [], rfl, fun b hb => absurd hb List.not_mem_nil, hp⟩
  | cons c bytes ih =>
      cases hc : p c with
      | false => exact ⟨[], c :: bytes, rfl, fun b hb => absurd hb List.not_mem_nil, hc⟩
      | true =>
          obtain ⟨text, rest, rfl, htext, hrest⟩ := ih
          exact ⟨c :: text, rest, rfl, List.forall_mem_cons.mpr ⟨hc, htext⟩, hrest⟩

end bytes

/-! ### The lexer in a text -/

/-- The lexer behind some bytes and before others. -/
def lexerAt (before rest : List UInt8) : Lexer where
  input := before ++ rest
  pos := before.length
  readPos := before.length + 1
  ch := rest.headD 0

section reading
variable {before rest text space : List UInt8} {c : UInt8} {p : UInt8 → Bool}

theorem newLexer_eq (input : List UInt8) : newLexer input = lexerAt [] input := by
  cases input with
  | nil => rfl
  | cons c rest => rfl

theorem readChar_at : (lexerAt before (c :: rest)).readChar = lexerAt (before ++ [c]) rest := by
  have hch : (lexerAt before (c :: rest)).readChar.ch = rest.headD 0 := by
    rw [Lexer.readChar_ch_eq]
    show (before ++ c :: rest).getD (before.length + 1) 0 = rest.headD 0
    rw [List.getD_append_right _ _ _ _ (Nat.le_add_right _ 1), Nat.add_sub_cancel_left]
    cases rest with
    | nil => rfl
    | cons d rest => rfl
  have hinput : before ++ c :: rest = before ++ [c] ++ rest := List.append_cons ..
  have hlength : before.length + 1 = (before ++ [c]).length := by
    rw [List.length_append]
    rfl
  show Lexer.mk (before ++ c :: rest) (before.length + 1) (before.length + 1 + 1)
    (lexerAt before (c :: rest)).readChar.ch = _
  rw [hch, hinput, hlength]
  rfl

/-- A loop reads the bytes of its class. -/
theorem readWhile_at (hp : p 0 = false) (htext : ∀ b ∈ text, p b = true)
    (hstop : p (rest.headD 0) = false) :
    (lexerAt before (text ++ rest)).readWhile p hp = lexerAt (before ++ text) rest := by
  induction text generalizing before with
  | nil =>
      rw [List.append_nil]
      exact Lexer.readWhile_of_not hp hstop
  | cons c text ih =>
      obtain ⟨hc, htext⟩ := List.forall_mem_cons.mp htext
      have hin : p (lexerAt before (c :: text ++ rest)).ch = true := hc
      rw [Lexer.readWhile, dif_pos hin, List.cons_append, readChar_at, ih htext,
        List.append_cons before c text]

theorem slice_at : (lexerAt (before ++ text) rest).slice before.length = .ok text := by
  have hle : before.length ≤ (before ++ text).length := (List.prefix_append before text).length_le
  have hend : (before ++ text).length ≤ (before ++ text ++ rest).length :=
    (List.prefix_append (before ++ text) rest).length_le
  unfold Lexer.slice
  refine (if_pos ⟨hle, hend⟩).trans ?_
  show Except.ok (((before ++ text ++ rest).take (before ++ text).length).drop before.length) = _
  rw [List.take_left, List.drop_left]

/-- The slice begins with the bytes that were read before the loop. -/
theorem readRun_behind (before first : List UInt8) (hp : p 0 = false)
    (hstop : p (rest.headD 0) = false) (htext : ∀ b ∈ text, p b = true) :
    (lexerAt (before ++ first) (text ++ rest)).readRun p hp before.length =
      .ok (first ++ text, lexerAt (before ++ (first ++ text)) rest) := by
  unfold Lexer.readRun
  dsimp only
  rw [readWhile_at hp htext hstop, List.append_assoc, slice_at]
  rfl

theorem readRun_at (before : List UInt8) (hp : p 0 = false) (hstop : p (rest.headD 0) = false)
    (htext : ∀ b ∈ text, p b = true) :
    (lexerAt before (text ++ rest)).readRun p hp before.length =
      .ok (text, lexerAt (before ++ text) rest) := by
  have hrun := readRun_behind before [] hp hstop htext
  rwa [List.append_nil, List.nil_append] at hrun

/-- White space is skipped. -/
theorem nextToken_space (hspace : ∀ b ∈ space, isSpace b = true)
    (hrest : isSpace (rest.headD 0) = false) :
    (lexerAt before (space ++ rest)).nextToken = (lexerAt (before ++ space) rest).nextToken := by
  have hskip : (lexerAt before (space ++ rest)).skipWhitespace = lexerAt (before ++ space) rest :=
    readWhile_at rfl hspace hrest
  have hstay : (lexerAt (before ++ space) rest).skipWhitespace = lexerAt (before ++ space) rest :=
    Lexer.readWhile_of_not rfl hrest
  unfold Lexer.nextToken
  rw [hskip, hstay]

/-- The token of an identifier, a number or an illegal byte. -/
theorem nextToken_plain {l : Lexer} (h : l.ch ∉ specials) : l.nextToken =
    if isLetter l.ch then l.readIdentifier.map (fun r => (lookupIdent r.1, r.2))
    else if isDigit l.ch then l.readNumber.map (giving .tokenNumber)
    else .ok (newToken .tokenIllegal l.ch, l.readChar) := by
  have hskip : l.skipWhitespace = l := Lexer.readWhile_of_not rfl (isSpace_of_plain h)
  unfold Lexer.nextToken
  rw [hskip]
  dsimp only
  rw [if_neg (ne_of_plain h (by decide)), if_neg (ne_of_plain h (by decide)),
    if_neg (ne_of_plain h (by decide)), if_neg (ne_of_plain h (by decide)),
    if_neg (ne_of_plain h (by decide)), if_neg (ne_of_plain h (by decide))]

/-- The string in quotes, up to where it ends. -/
theorem readQuotedString_run (before : List UInt8) {quote : UInt8}
    (htext : ∀ b ∈ text, isQuotedPart quote b = true)
    (hstop : isQuotedPart quote (rest.headD 0) = false) :
    (lexerAt before (quote :: (text ++ rest))).readQuotedString quote = .ok (text,
      if rest.headD 0 = quote then (lexerAt (before ++ quote :: text) rest).readChar
      else lexerAt (before ++ quote :: text) rest) := by
  unfold Lexer.readQuotedString
  dsimp only
  rw [readChar_at]
  show (lexerAt (before ++ [quote]) (text ++ rest)).readRun (isQuotedPart quote)
    (Lexer.isQuotedPart_zero quote) (before ++ [quote]).length >>= _ = _
  rw [readRun_at (before ++ [quote]) _ hstop htext, List.append_assoc]
  rfl

theorem readQuotedString_closed (before rest : List UInt8) {quote : UInt8}
    (htext : ∀ b ∈ text, isQuotedPart quote b = true) :
    (lexerAt before (quote :: (text ++ quote :: rest))).readQuotedString quote =
      .ok (text, lexerAt (before ++ quote :: (text ++ [quote])) rest) := by
  have hhead : (quote :: rest).headD 0 = quote := rfl
  have hstop : isQuotedPart quote ((quote :: rest).headD 0) = false := by
    show (quote != quote && quote != 0) = false
    rw [bne_self_eq_false, Bool.false_and]
  rw [readQuotedString_run before htext hstop, if_pos hhead, readChar_at, List.append_assoc]
  rfl

theorem readQuotedString_unclosed (before : List UInt8) {quote : UInt8} (hquote : quote ≠ 0)
    (htext : ∀ b ∈ text, isQuotedPart quote b = true) (hrest : rest.headD 0 = 0) :
    (lexerAt before (quote :: (text ++ rest))).readQuotedString quote =
      .ok (text, lexerAt (before ++ quote :: text) rest) := by
  have hhead : rest.headD 0 ≠ quote := by
    rw [hrest]
    exact hquote.symm
  have hstop : isQuotedPart quote (rest.headD 0) = false := by
    rw [hrest]
    exact Lexer.isQuotedPart_zero quote
  rw [readQuotedString_run before htext hstop, if_neg hhead]

end reading

/-! ### Words -/

section words
variable {before rest : List UInt8} {w : Word}

theorem isSpace_bytes (hvalid : w.Valid) : isSpace ((w.bytes ++ rest).headD 0) = false := by
  cases w with
  | ident c text => exact isSpace_of_plain (plain_of_isLetter hvalid.1)
  | number c text => exact isSpace_of_plain (plain_of_isDigit hvalid.1)
  | quoted quote text =>
      obtain ⟨rfl | rfl, -⟩ := hvalid
      · rfl
      · rfl
  | unclosed quote text =>
      obtain ⟨rfl | rfl, -⟩ := hvalid
      · rfl
      · rfl
  | metaCommand text => rfl
  | comma => rfl
  | semicolon => rfl
  | illegal c => exact isSpace_of_plain hvalid.1

/-- The lexer gives the token of a word, and is behind it then. -/
theorem nextToken_word (hvalid : w.Valid) (hstops : w.Stops rest) :
    (lexerAt before (w.bytes ++ rest)).nextToken =
      .ok (w.token, lexerAt (before ++ w.bytes) rest) := by
  have hskip : (lexerAt before (w.bytes ++ rest)).skipWhitespace =
      lexerAt before (w.bytes ++ rest) := Lexer.readWhile_of_not rfl (isSpace_bytes hvalid)
  cases w with
  | ident c text =>
      obtain ⟨hc, htext⟩ := hvalid
      have hbytes : ∀ b ∈ c :: text, isIdentPart b = true :=
        List.forall_mem_cons.mpr ⟨isIdentPart_of_isLetter hc, htext⟩
      have hrun := readRun_at before (p := isIdentPart) rfl hstops hbytes
      refine (nextToken_plain (plain_of_isLetter hc)).trans ((if_pos hc).trans ?_)
      unfold Lexer.readIdentifier
      exact congrArg (Except.map _) hrun
  | number c text =>
      obtain ⟨hc, htext⟩ := hvalid
      have hletter : ¬ isLetter c = true := not_isLetter_of_isDigit hc
      have hbytes : ∀ b ∈ c :: text, isDigit b = true := List.forall_mem_cons.mpr ⟨hc, htext⟩
      have hrun := readRun_at before (p := isDigit) rfl hstops hbytes
      refine (nextToken_plain (plain_of_isDigit hc)).trans
        ((if_neg hletter).trans ((if_pos hc).trans ?_))
      unfold Lexer.readNumber
      exact congrArg (Except.map _) hrun
  | quoted quote text =>
      obtain ⟨hquote, htext⟩ := hvalid
      have hread := readQuotedString_closed before rest htext
      have hbytes : (Word.quoted quote text).bytes ++ rest = quote :: (text ++ quote :: rest) := by
        show quote :: (text ++ [quote] ++ rest) = _
        rw [List.append_assoc]
        rfl
      rw [hbytes] at hskip ⊢
      unfold Lexer.nextToken
      rw [hskip]
      rcases hquote with rfl | rfl
      · exact congrArg (Except.map _) hread
      · exact congrArg (Except.map _) hread
  | unclosed quote text =>
      obtain ⟨hquote, htext⟩ := hvalid
      have hne : quote ≠ 0 := by
        rcases hquote with rfl | rfl
        · decide
        · decide
      have hread := readQuotedString_unclosed before hne htext hstops
      unfold Lexer.nextToken
      rw [hskip]
      rcases hquote with rfl | rfl
      · exact congrArg (Except.map _) hread
      · exact congrArg (Except.map _) hread
  | metaCommand text =>
      have hrun := readRun_behind before [92] (p := isMetaPart) rfl hstops hvalid
      unfold Lexer.nextToken
      rw [hskip]
      show Except.map (giving .tokenIdentifier)
        ((lexerAt before (92 :: (text ++ rest))).readChar.readRun isMetaPart rfl before.length) = _
      rw [readChar_at, hrun]
      rfl
  | comma =>
      unfold Lexer.nextToken
      rw [hskip]
      show Except.ok (newToken .tokenComma 44, (lexerAt before (44 :: rest)).readChar) = _
      rw [readChar_at]
      rfl
  | semicolon =>
      unfold Lexer.nextToken
      rw [hskip]
      show Except.ok (newToken .tokenSemicolon 59, (lexerAt before (59 :: rest)).readChar) = _
      rw [readChar_at]
      rfl
  | illegal c =>
      obtain ⟨hc, hletter, hdigit⟩ := hvalid
      refine (nextToken_plain hc).trans ((if_neg (Bool.eq_false_iff.mp hletter)).trans
        ((if_neg (Bool.eq_false_iff.mp hdigit)).trans ?_))
      show Except.ok (newToken .tokenIllegal c, (lexerAt before (c :: rest)).readChar) = _
      rw [readChar_at]
      rfl

/-- There is a word wherever the text does not end and has no white space. -/
theorem exists_word (hspace : isSpace (rest.headD 0) = false) (hend : rest.headD 0 ≠ 0) :
    ∃ w later, rest = Word.bytes w ++ later ∧ w.Valid ∧ w.Stops later := by
  cases rest with
  | nil => exact absurd rfl hend
  | cons c rest =>
      by_cases hplain : c ∈ specials
      · -- Only the quotes, the backslash, the comma and the semicolon are left.
        have hcases : c = 59 ∨ c = 44 ∨ c = 92 ∨ c = 39 ∨ c = 34 := by
          have hzero : c ≠ 0 := hend
          have hskip : isSpace c = false := hspace
          unfold isSpace at hskip
          simp only [specials, List.mem_cons, List.not_mem_nil, or_false] at hplain
          grind
        rcases hcases with rfl | rfl | rfl | hquote
        · exact ⟨.semicolon, rest, rfl, trivial, trivial⟩
        · exact ⟨.comma, rest, rfl, trivial, trivial⟩
        · obtain ⟨text, later, rfl, htext, hlater⟩ := exists_run (p := isMetaPart) rfl rest
          exact ⟨.metaCommand text, later, rfl, htext, hlater⟩
        · obtain ⟨text, later, rfl, htext, hlater⟩ :=
            exists_run (Lexer.isQuotedPart_zero c) rest
          by_cases hzero : later.headD 0 = 0
          · exact ⟨.unclosed c text, later, rfl, ⟨hquote, htext⟩, hzero⟩
          · cases later with
            | nil => exact absurd rfl hzero
            | cons d later =>
                have hd : d = c := by
                  have hdne : d ≠ 0 := hzero
                  have hquoted : (d != c && d != 0) = false := hlater
                  grind
                refine ⟨.quoted c text, later, ?_, ⟨hquote, htext⟩, trivial⟩
                show c :: (text ++ d :: later) = c :: (text ++ [c] ++ later)
                rw [hd, List.append_assoc]
                rfl
      · cases hletter : isLetter c with
        | true =>
            obtain ⟨text, later, rfl, htext, hlater⟩ := exists_run (p := isIdentPart) rfl rest
            exact ⟨.ident c text, later, rfl, ⟨hletter, htext⟩, hlater⟩
        | false =>
            cases hdigit : isDigit c with
            | true =>
                obtain ⟨text, later, rfl, htext, hlater⟩ := exists_run (p := isDigit) rfl rest
                exact ⟨.number c text, later, rfl, ⟨hdigit, htext⟩, hlater⟩
            | false => exact ⟨.illegal c, rest, rfl, ⟨hplain, hletter, hdigit⟩, trivial⟩

end words

/-! ### Texts -/

section texts
variable {before : List UInt8}

/-- Behind the words the text has ended. -/
theorem nextToken_end {space rest : List UInt8} (hspace : ∀ b ∈ space, isSpace b = true)
    (hrest : rest.headD 0 = 0) :
    (lexerAt before (space ++ rest)).nextToken = .ok (eof, lexerAt (before ++ space) rest) := by
  rw [nextToken_space hspace (by rw [hrest]; rfl)]
  exact Lexer.nextToken_of_zero hrest

theorem tokens_end {l l' : Lexer} (h : l.nextToken = .ok (eof, l')) (n : ℕ) :
    l.tokens (n + 1) = .ok (some []) := by
  unfold Lexer.tokens
  rw [h]
  rfl

/-- The lexer gives the tokens of the words. -/
theorem tokens_render {ws : List (List UInt8 × Word)} {tail : List UInt8} (h : Spaced ws tail) :
    ∃ fuel, (lexerAt before (render ws tail)).tokens fuel = .ok (some (tokensOf ws)) := by
  induction ws generalizing before with
  | nil =>
      obtain ⟨space, rest, rfl, hspace, hrest⟩ := h
      exact ⟨1, tokens_end (nextToken_end hspace hrest) 0⟩
  | cons entry ws ih =>
      obtain ⟨space, w⟩ := entry
      obtain ⟨hspace, hvalid, hstops, hlater⟩ := h
      obtain ⟨fuel, htokens⟩ : ∃ fuel, (lexerAt (before ++ space ++ w.bytes)
          (render ws tail)).tokens fuel = .ok (some (tokensOf ws)) := ih hlater
      have hnext : (lexerAt before (render ((space, w) :: ws) tail)).nextToken = .ok (w.token, _) :=
        (nextToken_space hspace (isSpace_bytes hvalid)).trans (nextToken_word hvalid hstops)
      refine ⟨fuel + 1, ?_⟩
      rw [Lexer.tokens_succ hnext w.token_ne_eof, htokens]
      rfl

/-- Whatever the lexer gives are the tokens of words. -/
theorem exists_render {fuel : ℕ} {input : List UInt8} {tokens : List Token}
    (h : (lexerAt before input).tokens fuel = .ok (some tokens)) :
    ∃ ws tail, render ws tail = input ∧ Spaced ws tail ∧ tokensOf ws = tokens := by
  induction fuel generalizing before input tokens with
  | zero => cases h
  | succ fuel ih =>
      obtain ⟨space, rest, rfl, hspace, hrest⟩ := exists_run (p := isSpace) rfl input
      by_cases hend : rest.headD 0 = 0
      · rw [tokens_end (nextToken_end hspace hend)] at h
        cases h
        exact ⟨[], space ++ rest, rfl, ⟨space, rest, rfl, hspace, hend⟩, rfl⟩
      · obtain ⟨w, later, rfl, hvalid, hstops⟩ := exists_word hrest hend
        have hnext : (lexerAt before (space ++ (w.bytes ++ later))).nextToken =
            .ok (w.token, lexerAt (before ++ space ++ w.bytes) later) :=
          (nextToken_space hspace hrest).trans (nextToken_word hvalid hstops)
        rw [Lexer.tokens_succ hnext w.token_ne_eof] at h
        cases htokens : (lexerAt (before ++ space ++ w.bytes) later).tokens fuel with
        | error e =>
            rw [htokens] at h
            cases h
        | ok r =>
            rw [htokens] at h
            obtain ⟨tokens, rfl, rfl⟩ := Option.map_eq_some_iff.mp (Except.ok.inj h)
            obtain ⟨ws, tail, rfl, hspaced, rfl⟩ := ih htokens
            exact ⟨(space, w) :: ws, tail, rfl, ⟨hspace, hvalid, hstops, hspaced⟩, rfl⟩

end texts

/-- On a text the parser of the source is the parser on the tokens of the words. -/
theorem newLexerParser_render {ws : List (List UInt8 × Word)} {tail : List UInt8}
    (h : Spaced ws tail) : ∃ p, newLexerParser (render ws tail) = .ok p ∧
      p.Simulates (newParser (tokensOf ws)) := by
  obtain ⟨p, hp, -, -⟩ := LexerParser.advance_ok
    (p := ⟨newLexer (render ws tail), ⟨.tokenLogin, ""⟩, ⟨.tokenLogin, ""⟩⟩)
    (Lexer.newLexer_ok _) 2
  obtain ⟨fuel, htokens⟩ : ∃ fuel, (lexerAt [] (render ws tail)).tokens fuel =
      .ok (some (tokensOf ws)) := tokens_render h
  rw [← newLexer_eq] at htokens
  exact ⟨p, hp, newLexerParser_simulates hp htokens⟩

/-- **The tokens of a text.**  On every input they are those of the words it is made of, up to the
end or a byte 0. -/
theorem tokens_iff (input : List UInt8) (tokens : List Token) :
    (∃ fuel, (newLexer input).tokens fuel = .ok (some tokens)) ↔
      ∃ ws tail, render ws tail = input ∧ Spaced ws tail ∧ tokensOf ws = tokens := by
  rw [newLexer_eq]
  constructor
  · rintro ⟨fuel, h⟩
    exact exists_render h
  · rintro ⟨ws, tail, rfl, hspaced, rfl⟩
    exact tokens_render hspaced

/-- Every input is made of words. -/
theorem exists_words (input : List UInt8) :
    ∃ ws tail, render ws tail = input ∧ Spaced ws tail := by
  have hfuel : (newLexer input).input.length - (newLexer input).pos < input.length + 1 :=
    Nat.lt_succ_of_le (Nat.sub_le _ _)
  obtain ⟨tokens, htokens, -, -⟩ := (Lexer.newLexer_ok input).tokens hfuel
  rw [newLexer_eq] at htokens
  obtain ⟨ws, tail, hrender, hspaced, -⟩ := exists_render htokens
  exact ⟨ws, tail, hrender, hspaced⟩

end RagFlow.CliText
