import PageQuery.Script.Lexer

/-!
Bounds on a script, checked on its tokens before it is read: how many they are, and how deep they
nest.

A closing bracket of any kind restores the depth that the last open bracket was met at.  Other tokens
behind which the grammar can descend add to the depth and never take it back on their own.
-/

namespace PageQuery.Script

/-- the greatest number of tokens -/
def maxTokens : Nat := 2048

/-- the greatest depth -/
def maxDepth : Nat := 64

namespace Token

def isOpening : Token → Bool
  | leftParen => true
  | leftBracket => true
  | leftBrace => true
  | substitution => true
  | _ => false

def isClosing : Token → Bool
  | rightParen => true
  | rightBracket => true
  | rightBrace => true
  | _ => false

/-- the token adds to the depth without being a bracket -/
def isDeepening : Token → Bool
  | bang => true
  | tilde => true
  | arrow => true
  | question => true
  | increment => true
  | decrement => true
  | assign _ => true
  | binary .plus => true
  | binary .minus => true
  | binary .power => true
  | word w => isKeyword w
  | _ => false

end Token

/-- the depth, and the depths that the open brackets were met at, innermost first -/
structure Nesting where
  depth : Nat := 0
  opened : List Nat := []
deriving DecidableEq

/-- the nesting after one more token -/
def Nesting.step (n : Nesting) (t : Token) : Nesting :=
  if t.isOpening then ⟨n.depth + 1, n.depth :: n.opened⟩
  else if t.isClosing then
    match n.opened with
    | d :: rest => ⟨d, rest⟩
    | [] => ⟨0, []⟩
  else if t.isDeepening then { n with depth := n.depth + 1 }
  else n

/-- which bound a token exceeds -/
inductive Excess where
  | tooLong
  | tooDeep
deriving DecidableEq

/-- the first token at which a bound is exceeded, `index` tokens into the script -/
def checkNestingFrom (index : Nat) (n : Nesting) : List Lexeme → Except (Nat × Excess) Unit
  | [] => .ok ()
  | l :: ls =>
    if maxTokens ≤ index then .error (l.start, .tooLong)
    else
      let n := n.step l.token
      if maxDepth < n.depth then .error (l.start, .tooDeep)
      else checkNestingFrom (index + 1) n ls

/-- the tokens keep both bounds -/
def checkNesting (ls : List Lexeme) : Except (Nat × Excess) Unit := checkNestingFrom 0 {} ls

/-- the tokens of a script as far as the bounds depend on them: no token counts behind the first one
that is too many -/
def boundedLexemes (c : Cursor) : List Lexeme := c.lexemesUpTo (maxTokens + 1)

end PageQuery.Script
