import PageQuery.Script.Literal
import PageQuery.Text.Blank

/-!
The tokens of a script, one after the other.

A cursor holds what is left of the text and what the tokens so far decide about the next one: within
a template its text is cut into runs, elsewhere blanks and comments are skipped.  `Cursor.next` is
one step and `Cursor.lexemesUpTo` many of them.
-/

namespace PageQuery.Script

/-! ### Blanks and comments -/

/-- the part of the text that a scan over blanks is in -/
inductive Gap where
  | code
  | lineComment
  | blockComment

/-- what follows the blanks and comments -/
structure GapEnd where
  chars : List Char
  offset : Nat
  /-- a line ended in between -/
  newline : Bool
  /-- no block comment is left open -/
  closed : Bool
  /-- where the first comment of the form `<!--` or `-->` begins -/
  mark : Option Nat

/-- skips blanks and comments; an arrow `-->` opens a comment at the start of a line only -/
def skipGap : Gap → List Char → Nat → Bool → Option Nat → GapEnd
  | .blockComment, [], o, newline, mark => ⟨[], o, newline, false, mark⟩
  | _, [], o, newline, mark => ⟨[], o, newline, true, mark⟩
  | .blockComment, '*' :: '/' :: cs, o, newline, mark => skipGap .code cs (o + 2) newline mark
  | .blockComment, c :: cs, o, newline, mark =>
    skipGap .blockComment cs (o + c.utf8Size) (newline || isLineEnd c) mark
  | .lineComment, c :: cs, o, newline, mark =>
    if isLineEnd c then skipGap .code cs (o + c.utf8Size) true mark
    else skipGap .lineComment cs (o + c.utf8Size) newline mark
  | .code, '/' :: '/' :: cs, o, newline, mark => skipGap .lineComment cs (o + 2) newline mark
  | .code, '/' :: '*' :: cs, o, newline, mark => skipGap .blockComment cs (o + 2) newline mark
  | .code, '<' :: '!' :: '-' :: '-' :: cs, o, newline, mark =>
    skipGap .lineComment cs (o + 4) newline (mark.or (some o))
  | .code, '-' :: '-' :: '>' :: cs, o, newline, mark =>
    if newline then skipGap .lineComment cs (o + 3) newline (mark.or (some o))
    else ⟨'-' :: '-' :: '>' :: cs, o, newline, true, mark⟩
  | .code, c :: cs, o, newline, mark =>
    if isLineEnd c then skipGap .code cs (o + c.utf8Size) true mark
    else if Text.isBlank c || c == '\ufeff' then skipGap .code cs (o + c.utf8Size) newline mark
    else ⟨c :: cs, o, newline, true, mark⟩

section

variable {c : Char} {cs : List Char} (o : Nat) (newline : Bool) (mark : Option Nat)

theorem skipGap_blockEnd :
    skipGap .blockComment ('*' :: '/' :: cs) o newline mark = skipGap .code cs (o + 2) newline mark :=
  rfl

theorem skipGap_block (hend : ∀ ds, c = '*' → cs ≠ '/' :: ds) :
    skipGap .blockComment (c :: cs) o newline mark =
      skipGap .blockComment cs (o + c.utf8Size) (newline || isLineEnd c) mark := by
  rw [skipGap]
  exact hend

theorem skipGap_line :
    skipGap .lineComment (c :: cs) o newline mark =
      if isLineEnd c then skipGap .code cs (o + c.utf8Size) true mark
      else skipGap .lineComment cs (o + c.utf8Size) newline mark :=
  rfl

theorem skipGap_lineStart :
    skipGap .code ('/' :: '/' :: cs) o newline mark = skipGap .lineComment cs (o + 2) newline mark :=
  rfl

theorem skipGap_blockStart :
    skipGap .code ('/' :: '*' :: cs) o newline mark = skipGap .blockComment cs (o + 2) newline mark :=
  rfl

theorem skipGap_markup (cs : List Char) :
    skipGap .code ('<' :: '!' :: '-' :: '-' :: cs) o newline mark =
      skipGap .lineComment cs (o + 4) newline (mark.or (some o)) :=
  rfl

theorem skipGap_arrow (cs : List Char) :
    skipGap .code ('-' :: '-' :: '>' :: cs) o newline mark =
      if newline then skipGap .lineComment cs (o + 3) newline (mark.or (some o))
      else ⟨'-' :: '-' :: '>' :: cs, o, newline, true, mark⟩ :=
  rfl

/-- outside of a comment, in front of none -/
theorem skipGap_code (hline : ∀ ds, c = '/' → cs ≠ '/' :: ds)
    (hblock : ∀ ds, c = '/' → cs ≠ '*' :: ds)
    (hmarkup : ∀ ds, c = '<' → cs ≠ '!' :: '-' :: '-' :: ds)
    (harrow : ∀ ds, c = '-' → cs ≠ '-' :: '>' :: ds) :
    skipGap .code (c :: cs) o newline mark =
      if isLineEnd c then skipGap .code cs (o + c.utf8Size) true mark
      else if Text.isBlank c || c == '\ufeff' then skipGap .code cs (o + c.utf8Size) newline mark
      else ⟨c :: cs, o, newline, true, mark⟩ := by
  rw [skipGap]
  · exact hline
  · exact hblock
  · exact hmarkup
  · exact harrow

end

/-! ### What surrounds a token -/

/-- the open construct that the next token stands in -/
inductive Surround where
  | block
  | braces
  | statementParens
  | parens
  | substitution
  | template
  | function
  | classBody
deriving DecidableEq

/-- a construct after which an operator follows -/
def Surround.isExpression : Surround → Bool
  | .block => false
  | .statementParens => false
  | _ => true

/-- what the tokens so far decide about the next one -/
structure Surroundings where
  /-- innermost first, down to the script itself -/
  stack : List Surround := [.block]
  previous : Option Token := none
  /-- an expression may begin here -/
  expression : Bool := true

/-- an expression follows the token -/
def Token.opensExpression : Token → Bool
  | .arrow => true
  | .ellipsis => true
  | .bang => true
  | .leftParen => true
  | .leftBrace => true
  | .leftBracket => true
  | .semicolon => true
  | .comma => true
  | .colon => true
  | .substitution => true
  | .question => true
  | .tilde => true
  | .assign _ => true
  | .binary _ => true
  | .word w =>
    ["await", "case", "default", "delete", "do", "else", "extends", "in", "instanceof", "new",
      "return", "throw", "typeof", "void", "yield"].contains w
  | _ => false

/-- a left brace opens a block here -/
def Surroundings.braceOpensBlock (s : Surroundings) (newline : Bool) : Bool :=
  match s.previous, s.stack.head? with
  | some .colon, some .block => true
  | some .colon, some .braces => false
  | some (.word "return"), _ => newline
  | some (.word "yield"), _ => newline
  | some (.word "else"), _ => true
  | some .semicolon, _ => true
  | none, _ => true
  | some .rightParen, _ => true
  | some .leftBrace, top => top == some .block
  | some (.binary .less), _ => true
  | some (.binary .greater), _ => true
  | some .arrow, _ => true
  | _, _ => !s.expression

/-- the surroundings after a closing parenthesis or brace -/
def Surroundings.close (s : Surroundings) : List Surround × Bool :=
  match s.stack with
  | top :: rest =>
    if rest.isEmpty then (s.stack, true)
    else match top, rest with
      | .block, .function :: outer => (outer, false)
      | .block, .classBody :: outer => (outer, false)
      | .substitution, below => (rest, below.head? != some .template)
      | _, _ => (rest, !top.isExpression)
  | [] => ([], true)

/-- the surroundings after a token -/
def Surroundings.after (s : Surroundings) (t : Token) (newline : Bool) : Surroundings :=
  let push := fun c => c :: s.stack
  let (stack, expression) : List Surround × Bool :=
    match t with
    | .word w =>
      if isKeyword w && s.previous == some .dot then (s.stack, false)
      else if w == "function" || w == "class" then
        if s.expression && !s.braceOpensBlock newline then
          (push (if w == "function" then .function else .classBody), false)
        else (s.stack, false)
      else (s.stack, t.opensExpression)
    | .rightParen => s.close
    | .rightBrace => s.close
    | .colon =>
      match s.stack with
      | .function :: rest => (rest, true)
      | .classBody :: rest => (rest, true)
      | _ => (s.stack, true)
    | .leftBrace => (push (if s.braceOpensBlock newline then .block else .braces), true)
    | .substitution => (push .substitution, true)
    | .leftParen =>
      let statement := match s.previous with
        | some (.word w) => ["for", "if", "while", "with"].contains w
        | _ => false
      (push (if statement then .statementParens else .parens), true)
    | .increment => (s.stack, s.expression)
    | .decrement => (s.stack, s.expression)
    | .backquote =>
      if s.stack.head? == some .template then (s.stack.tail, false) else (push .template, false)
    | _ => (s.stack, t.opensExpression)
  ⟨stack, some t, expression⟩

/-! ### Steps -/

/-- a token and where it stands in the text -/
structure Lexeme where
  token : Token
  start : Nat
  stop : Nat
  /-- a line ended before it -/
  newline : Bool
deriving DecidableEq

structure Cursor where
  chars : List Char
  offset : Nat := 0
  surroundings : Surroundings := {}
  /-- nothing was read so far -/
  fresh : Bool := true

/-- the number of bytes of a text -/
def byteLength (cs : List Char) : Nat := cs.foldr (fun c n => c.utf8Size + n) 0

/-- the token at the head of a text that begins with no blank and no comment, and what follows it -/
def readToken : List Char → Option (Token × List Char)
  | [] => none
  | '"' :: cs => some (readString '"' cs)
  | '\'' :: cs => some (readString '\'' cs)
  | '\x60' :: cs => some (.backquote, cs)
  | c :: cs =>
    if c.isDigit || c == '.' && cs.head?.any Char.isDigit then some (readNumber (c :: cs))
    else if Text.isIdentifierStart c || c == '\\' then some (readWord (c :: cs))
    else match Token.punctuators.find? fun p => p.1.isPrefixOf (c :: cs) with
      | some p => some (p.2, (c :: cs).drop p.1.length)
      | none => some (.invalid, cs)

/-- a token that neither a quote nor a backquote begins -/
theorem readToken_cons {c : Char} (hdouble : c ≠ '"') (hsingle : c ≠ '\'') (hquote : c ≠ '\x60')
    (cs : List Char) :
    readToken (c :: cs) =
      if c.isDigit || c == '.' && cs.head?.any Char.isDigit then some (readNumber (c :: cs))
      else if Text.isIdentifierStart c || c == '\\' then some (readWord (c :: cs))
      else match Token.punctuators.find? fun p => p.1.isPrefixOf (c :: cs) with
        | some p => some (p.2, (c :: cs).drop p.1.length)
        | none => some (.invalid, cs) := by
  rw [readToken]
  · exact hdouble
  · exact hsingle
  · exact hquote

/-- the token at the head of a template's text -/
def readTemplateToken (previous : Option Token) (cs : List Char) : Token × List Char :=
  match previous, cs with
  | some (.chunk _), '\x60' :: rest => (.backquote, rest)
  | some (.chunk _), '$' :: '\x7b' :: rest => (.substitution, rest)
  | _, _ => readChunk cs

section

variable {text : Option String} {previous : Option Token} {cs : List Char}

theorem readTemplateToken_chunk_backquote :
    readTemplateToken (some (.chunk text)) ('\x60' :: cs) = (.backquote, cs) :=
  rfl

theorem readTemplateToken_chunk_substitution :
    readTemplateToken (some (.chunk text)) ('$' :: '\x7b' :: cs) = (.substitution, cs) :=
  rfl

theorem readTemplateToken_text
    (hquote : ∀ text rest, previous = some (.chunk text) → cs ≠ '\x60' :: rest)
    (hopening : ∀ text rest, previous = some (.chunk text) → cs ≠ '$' :: '\x7b' :: rest) :
    readTemplateToken previous cs = readChunk cs := by
  rw [readTemplateToken]
  · exact hquote
  · exact hopening

end

namespace Cursor

/-- the cursor behind a token that ends where `rest` begins -/
def accept (c : Cursor) (t : Token) (start tokenStart : Nat) (newline : Bool)
    (chars rest : List Char) : Lexeme × Cursor :=
  let stop := tokenStart + byteLength (chars.take (chars.length - rest.length))
  (⟨t, start, stop, newline⟩,
    { chars := rest, offset := stop, surroundings := c.surroundings.after t newline,
      fresh := false })

/-- the next token, and the cursor behind it.  There is none at the end of the text, nor at a null
character, which is passed over. -/
def next (c : Cursor) : Option Lexeme × Cursor :=
  if c.fresh && ['#', '!'].isPrefixOf c.chars then
    let rest := c.chars.dropWhile fun x => !isLineEnd x
    let r := c.accept .shebang c.offset c.offset true c.chars rest
    (some r.1, { r.2 with fresh := true })
  else if c.surroundings.stack.head? == some .template then
    if c.chars.isEmpty then (none, c)
    else
      let (t, rest) := readTemplateToken c.surroundings.previous c.chars
      let r := c.accept t c.offset c.offset false c.chars rest
      (some r.1, r.2)
  else
    let gap := skipGap .code c.chars c.offset c.fresh none
    if !gap.closed then
      let r := c.accept .invalid c.offset gap.offset gap.newline [] []
      (some r.1, r.2)
    else match gap.chars with
      | [] => (none, { c with chars := [], offset := gap.offset, fresh := false })
      | '\x00' :: rest => (none, { c with chars := rest, offset := gap.offset + 1, fresh := false })
      | chars =>
        match readToken chars with
        | none => (none, { c with chars := [], offset := gap.offset, fresh := false })
        | some (t, rest) =>
          let r := c.accept t (gap.mark.getD gap.offset) gap.offset gap.newline chars rest
          (some r.1, r.2)

/-- at most `fuel` tokens, up to the first place where there is none -/
def lexemesUpTo : Nat → Cursor → List Lexeme
  | 0, _ => []
  | fuel + 1, c =>
    match c.next with
    | (none, _) => []
    | (some l, c) => l :: lexemesUpTo fuel c

/-- a cursor at the start of a text; a byte order mark there is no part of it -/
def ofText (cs : List Char) : Cursor :=
  match cs with
  | '\ufeff' :: rest => { chars := rest }
  | _ => { chars := cs }

end Cursor

end PageQuery.Script
