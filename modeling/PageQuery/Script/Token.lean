import PageQuery.Number.Binary64

/-!
Tokens of a script.

An optional access `?.` is no token of its own but a question mark and a point, and a regular
expression is a token only where the grammar asks for one.
-/

namespace PageQuery.Script

inductive BinaryOp where
  | equal | notEqual | strictEqual | strictNotEqual
  | less | lessEqual | greater | greaterEqual
  | shiftLeft | shiftRight | shiftRightUnsigned
  | plus | minus | times | divide | remainder | power
  | bitOr | bitXor | bitAnd
  | or | and | nullish
  | inOp | instanceOf
deriving DecidableEq

namespace BinaryOp

/-- the operator as it is written -/
def symbol : BinaryOp → String
  | equal => "==" | notEqual => "!=" | strictEqual => "===" | strictNotEqual => "!=="
  | less => "<" | lessEqual => "<=" | greater => ">" | greaterEqual => ">="
  | shiftLeft => "<<" | shiftRight => ">>" | shiftRightUnsigned => ">>>"
  | plus => "+" | minus => "-" | times => "*" | divide => "/" | remainder => "%" | power => "**"
  | bitOr => "|" | bitXor => "^" | bitAnd => "&"
  | or => "||" | and => "&&" | nullish => "??"
  | inOp => "in" | instanceOf => "instanceof"

/-- how tightly the operator binds -/
def binding : BinaryOp → Nat
  | nullish => 1 | or => 1 | and => 2 | bitOr => 3 | bitXor => 4 | bitAnd => 5
  | equal => 6 | notEqual => 6 | strictEqual => 6 | strictNotEqual => 6
  | less => 7 | lessEqual => 7 | greater => 7 | greaterEqual => 7 | inOp => 7 | instanceOf => 7
  | shiftLeft => 8 | shiftRight => 8 | shiftRightUnsigned => 8
  | plus => 9 | minus => 9 | times => 10 | divide => 10 | remainder => 10 | power => 11

end BinaryOp

inductive Token where
  | leftParen | rightParen | leftBracket | rightBracket | leftBrace | rightBrace
  /-- a dollar sign and a brace inside a template -/
  | substitution
  | backquote
  /-- a run of a template's text; none if an escape in it is malformed -/
  | chunk (text : Option String)
  | dot | ellipsis | comma | semicolon | colon | question | arrow | hash | atSign
  | bang | tilde | increment | decrement
  | binary (op : BinaryOp)
  /-- an assignment operator, the plain one or one joined with a binary operator -/
  | assign (plain : Bool)
  | word (name : String)
  | string (value : String)
  | number (value : Binary64)
  | bigint
  | regex
  | shebang
  /-- what is no token of the language -/
  | invalid
deriving DecidableEq

/-- the words that are always tokens of their own kind, also as names of members -/
def keywords : List String := [
  "await", "break", "case", "catch", "class", "const", "continue", "debugger", "default", "delete",
  "do", "else", "export", "extends", "finally", "for", "function", "if", "import", "in",
  "instanceof", "let", "new", "return", "super", "switch", "this", "throw", "try", "typeof", "var",
  "void", "while", "with", "yield"]

/-- the keywords that can also name a variable -/
def contextualKeywords : List String := ["await", "let", "yield"]

/-- the words that are no keywords but cannot name a variable either -/
def reservedNames : List String := ["enum", "false", "null", "true"]

/-- the words that cannot name a variable in strict code -/
def strictNames : List String := [
  "implements", "interface", "let", "package", "private", "protected", "public", "static", "yield"]

def isKeyword (w : String) : Bool := keywords.contains w

/-- the word can never name a variable -/
def isReserved (w : String) : Bool :=
  reservedNames.contains w || (isKeyword w && !contextualKeywords.contains w)

namespace Token

/-- the characters that always make up the same token, longer ones first -/
def punctuators : List (List Char × Token) :=
  [(">>>=", assign false),
   ("...", ellipsis), ("===", binary .strictEqual), ("!==", binary .strictNotEqual),
   ("**=", assign false), ("<<=", assign false), (">>=", assign false),
   (">>>", binary .shiftRightUnsigned), ("&&=", assign false), ("||=", assign false),
   ("??=", assign false),
   ("=>", arrow), ("==", binary .equal), ("!=", binary .notEqual), ("<=", binary .lessEqual),
   (">=", binary .greaterEqual), ("&&", binary .and), ("||", binary .or), ("??", binary .nullish),
   ("++", increment), ("--", decrement), ("+=", assign false), ("-=", assign false),
   ("*=", assign false), ("/=", assign false), ("%=", assign false), ("&=", assign false),
   ("|=", assign false), ("^=", assign false), ("<<", binary .shiftLeft),
   (">>", binary .shiftRight), ("**", binary .power),
   ("(", leftParen), (")", rightParen), ("[", leftBracket), ("]", rightBracket),
   ("\x7b", leftBrace), ("\x7d", rightBrace), (".", dot), (",", comma), (";", semicolon),
   (":", colon), ("?", question), ("=", assign true), ("!", bang), ("~", tilde),
   ("+", binary .plus), ("-", binary .minus), ("*", binary .times), ("/", binary .divide),
   ("%", binary .remainder), ("<", binary .less), (">", binary .greater), ("&", binary .bitAnd),
   ("|", binary .bitOr), ("^", binary .bitXor), ("#", hash), ("@", atSign)].map
    fun p => (p.1.toList, p.2)

end Token

end PageQuery.Script
