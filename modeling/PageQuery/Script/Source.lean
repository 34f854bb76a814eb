import PageQuery.Script.Statement
import PageQuery.Script.Nesting

/-!
A text read as a script that is one expression.
-/

namespace PageQuery.Script

open Grammar Reader

/-- the grammar with so many levels -/
def grammar : Nat → Grammar
  | 0 => Grammar.empty
  | n + 1 => {
    fuel := n + 1
    assignment := fun scope => assignmentExpression (grammar n) scope
    unary := fun scope => unaryExpression (grammar n) scope
    member := fun calls scope => memberExpression (grammar n) calls scope
    pattern := fun scope => bindingPattern (grammar n) scope
    statement := fun place scope => anyStatement (grammar n) place scope }

/-- the statements up to the end of the script; strings at the front are directives -/
def scriptStatements (g : Grammar) (directives : Bool) (scope : Scope) :
    Nat → Reader (List Statement)
  | 0 => fail
  | n + 1 => do
    if (← peek).isNone then pure []
    else
      let s ← g.statement .list scope
      let strict := scope.strict || directives && isStrictDirective s
      let rest ← scriptStatements g (directives && isDirective s) { scope with strict := strict } n
      pure (s :: rest)

/-- a whole script -/
def script (fuel : Nat) : Reader (List Statement) := do
  let _ ← eat .shebang
  scriptStatements (grammar fuel) true {} fuel

/-- levels for every token twice, once as a statement and once as an expression -/
def enoughLevels (cs : List Char) : Nat := 2 * cs.length + 4

/-- the statements of a script and the tokens it was read from, or the offset of a token that the
grammar has no place for -/
def readStatements (cs : List Char) : Except Nat (List Statement × List Lexeme) :=
  let c := Cursor.ofText cs
  ((script (enoughLevels c.chars)).run (ReaderState.load c 0 [])).map fun r =>
    (r.1, r.2.taken.reverse)

/-- why a text is no script of one expression -/
inductive Fault where
  /-- a token that the grammar has no place for -/
  | ungrammatical (offset : Nat)
  | tooLong (offset : Nat)
  | tooDeep (offset : Nat)
  /-- there is no statement at all -/
  | empty (offset : Nat)
  /-- there is a statement that is no expression, or more than one -/
  | notSingle
deriving DecidableEq

/-- an expression with the text and the tokens it was read from -/
structure Source where
  text : String
  expr : Expr
  tokens : List Lexeme

/-- the text read as a script of one expression -/
def readSource (text : String) : Except Fault Source :=
  let cs := text.toList
  match checkNesting (boundedLexemes (Cursor.ofText cs)) with
  | .error (o, .tooLong) => .error (.tooLong o)
  | .error (o, .tooDeep) => .error (.tooDeep o)
  | .ok () =>
    match readStatements cs with
    | .error o => .error (.ungrammatical o)
    | .ok ([.expression e], tokens) => .ok ⟨text, e, tokens⟩
    | .ok ([], _) => .error (.empty (byteLength cs))
    | .ok _ => .error .notSingle

/-- the first `n` bytes; none if they end within a character or beyond the text -/
def takeBytes? : Nat → List Char → Option (List Char)
  | 0, _ => some []
  | _ + 1, [] => none
  | n + 1, c :: cs =>
    if c.utf8Size ≤ n + 1 then (takeBytes? (n + 1 - c.utf8Size) cs).map (c :: ·) else none

/-- the characters from a byte offset on; none if it is within a character or beyond the text -/
def dropBytes? : Nat → List Char → Option (List Char)
  | 0, cs => some cs
  | _ + 1, [] => none
  | n + 1, c :: cs =>
    if c.utf8Size ≤ n + 1 then dropBytes? (n + 1 - c.utf8Size) cs else none

/-- the text at an extent; empty if there is none -/
def Source.slice (s : Source) (e : Extent) : String :=
  let cut := (dropBytes? e.start s.text.toList).bind (takeBytes? (e.stop - e.start))
  String.ofList (cut.getD [])

end PageQuery.Script
