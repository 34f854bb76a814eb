import PageQuery.Script.Expression

/-!
Statements.
-/

namespace PageQuery.Script.Grammar

open Reader

variable (g : Grammar)

/-! ### Declarations -/

/-- a declared variable or pattern, and whether it has a value; a pattern has one, a single one in
the head of a loop apart -/
def declarator (inLoopHead : Bool) (scope : Scope) : Reader Bool := do
  let isPattern := match ← peek with
    | some (.word _) => false
    | _ => true
  g.pattern scope
  let hasValue ← g.initializer { scope with arrowStart := none }
  if !hasValue && isPattern then
    match inLoopHead, ← peek with
    | true, some (.word "in") => pure ()
    | true, some (.word "of") => pure ()
    | _, _ => fail
  pure hasValue

/-- declared variables with commas between them, each by whether it has a value -/
def declarators (inLoopHead : Bool) (scope : Scope) : Nat → Reader (List Bool)
  | 0 => fail
  | n + 1 => do
    let hasValue ← g.declarator inLoopHead scope
    if ← eat .comma then pure (hasValue :: (← declarators inLoopHead scope n)) else pure [hasValue]

/-- a token that the first variable behind `let` begins with -/
def opensLet : Token → Bool
  | .leftBracket => true
  | .leftBrace => true
  | .word w => !isReserved w
  | _ => false

/-- a declaration of variables is ahead -/
def declarationAhead : Reader Bool := do
  match ← peek with
  | some (.word "var") => pure true
  | some (.word "const") => pure true
  | some (.word "let") => pure ((← peekSecond).any fun l => opensLet l.token)
  | _ => pure false

/-! ### Parts -/

/-- an expression in parentheses -/
def condition (scope : Scope) : Reader Unit := do
  expect .leftParen
  let _ ← g.expression scope.enclosed
  expect .rightParen

/-- a block of statements -/
def block (scope : Scope) : Reader Unit := do
  expect .leftBrace
  let _ ← g.statements false scope g.fuel

/-- the body of a loop -/
def loopBody (scope : Scope) : Reader Unit := do
  let _ ← g.statement .body { scope with breakable := true, continuable := true }

/-- what a loop runs over, behind `in` or `of` -/
def loopRange (scope : Scope) : Reader Unit := do
  if ← eat (.word "of") then
    let _ ← g.value scope
  else
    expect (.word "in")
    let _ ← g.expression scope

/-- a loop over a range is ahead -/
def rangeAhead : Reader Bool := do
  pure ((← isAhead (.word "of")) || (← isAhead (.word "in")))

/-- an expression that may be left out before a closing token -/
def optionalExpression (close : Token) (scope : Scope) : Reader Unit := do
  if ← isAhead close then pure ()
  else
    let _ ← g.expression scope
  expect close

/-- the rest of a loop's head behind its first part -/
def loopTail (scope : Scope) : Reader Unit := do
  expect .semicolon
  g.optionalExpression .semicolon scope
  g.optionalExpression .rightParen scope

/-- the head of a counting loop or a loop over a range -/
def loopHead (scope : Scope) : Reader Unit := do
  let first := { scope with inAllowed := false }
  expect .leftParen
  if ← isAhead .semicolon then g.loopTail scope
  else if ← declarationAhead then
    advance
    let start ← position
    let valued ← g.declarators true first g.fuel
    if valued.length == 1 && (← rangeAhead) then
      if valued.any id && (scope.strict || (← isAhead (.word "of"))) then failAt start
      g.loopRange scope
      expect .rightParen
    else g.loopTail scope
  else
    let p ← g.openExpression first
    if ← rangeAhead then
      if p.role == .target || p.role == .pattern then
        g.loopRange scope
        expect .rightParen
      else failAt p.extent.start
    else
      let _ ← p.settle
      g.loopTail scope

/-- the statements of a case up to the next one or the end -/
def caseStatements (scope : Scope) : Nat → Reader Unit
  | 0 => fail
  | n + 1 => do
    match ← peek with
    | some .rightBrace => pure ()
    | some (.word "case") => pure ()
    | some (.word "default") => pure ()
    | _ =>
      let _ ← g.statement .list scope
      caseStatements scope n

/-- the cases of a switch up to its right brace, one default at most -/
def switchCases (scope : Scope) (mayDefault : Bool) : Nat → Reader Unit
  | 0 => fail
  | n + 1 => do
    if ← eat .rightBrace then pure ()
    else
      let isDefault ← eat (.word "default")
      if isDefault && !mayDefault then fail
      if !isDefault then
        expect (.word "case")
        let _ ← g.expression scope
      expect .colon
      g.caseStatements scope g.fuel
      switchCases scope (mayDefault && !isDefault) n

/-- a handler and a final block, one of them at least -/
def tryRest (scope : Scope) : Reader Unit := do
  g.block scope
  let handled ← eat (.word "catch")
  if handled then
    if ← eat .leftParen then
      g.pattern scope
      expect .rightParen
    g.block scope
  if ← eat (.word "finally") then g.block scope
  else if !handled then fail

/-- a break or continue: a label in sight, or a construct to leave -/
def jump (allowed : Bool) (scope : Scope) : Reader Unit := do
  let start ← position
  advance
  match ← peek with
  | some (.word w) =>
    if (← newlineAhead) || !scope.canName w then
      semicolon
      if !allowed then failAt start
    else
      advance
      semicolon
      if !scope.labels.contains w then failAt start
  | _ =>
    semicolon
    if !allowed then failAt start

/-! ### Statements -/

/-- an expression as a statement, or a labelled statement -/
def expressionStatement (place : Place) (scope : Scope) : Reader Statement := do
  let second : Option Token := (← peekSecond).map (·.token)
  match ← peek, second with
  | some (.word w), some .colon =>
    let _ ← variableName scope
    advance
    let inner := if place == .list then Place.branch else place
    let _ ← g.statement inner { scope with labels := w :: scope.labels }
    pure .other
  | _, _ =>
    let p ← g.expression scope
    semicolon
    pure (.expression p.expr)

/-- a statement that its first word tells; none if the word tells nothing -/
def keywordStatement (w : String) (place : Place) (scope : Scope) : Reader (Option Statement) := do
  let done : Reader (Option Statement) := pure (some .other)
  match w with
  | "var" =>
    advance
    let _ ← g.declarators false scope g.fuel
    semicolon
    done
  | "if" =>
    advance
    g.condition scope
    let _ ← g.statement .branch scope
    if ← eat (.word "else") then
      let _ ← g.statement .branch scope
    done
  | "for" =>
    advance
    if scope.isAsync then
      let _ ← eat (.word "await")
    g.loopHead scope
    g.loopBody scope
    done
  | "while" =>
    advance
    g.condition scope
    g.loopBody scope
    done
  | "do" =>
    advance
    g.loopBody scope
    expect (.word "while")
    g.condition scope
    let _ ← eat .semicolon
    done
  | "continue" =>
    jump scope.continuable scope
    done
  | "break" =>
    jump scope.breakable scope
    done
  | "return" =>
    let start ← position
    advance
    let bare := match ← peek with
      | none => true
      | some .semicolon => true
      | some .rightBrace => true
      | _ => false
    let result ←
      if bare || (← newlineAhead) then pure none
      else pure (some (← g.expression scope).expr)
    semicolon
    if scope.inFunction then pure (some (.returning result)) else failAt start
  | "with" =>
    if scope.strict then fail
    advance
    g.condition scope
    let _ ← g.statement .body scope
    done
  | "switch" =>
    advance
    g.condition scope
    expect .leftBrace
    g.switchCases { scope with breakable := true } true g.fuel
    done
  | "throw" =>
    advance
    if ← newlineAhead then fail
    let _ ← g.expression scope
    semicolon
    done
  | "try" =>
    advance
    g.tryRest scope
    done
  | "debugger" =>
    advance
    semicolon
    done
  | "import" =>
    if (← peekSecond).any fun l => l.token == .leftParen || l.token == .dot then
      let p ← g.expression scope
      let _ ← eat .semicolon
      pure (some (.expression p.expr))
    else fail
  | "function" =>
    if place == .body then fail
    advance
    g.functionBehindKeyword true false scope
    done
  | "class" =>
    if place != .list then fail
    advance
    g.classBehindKeyword true scope
    done
  | _ => pure none

/-- a declaration behind `const`, `let` or `async`, if there is one -/
def declaration (place : Place) (scope : Scope) : Reader Bool := do
  if ← declarationAhead then
    if place != .list then fail
    advance
    let _ ← g.declarators false scope g.fuel
    semicolon
    pure true
  else if (← isAhead (.word "async")) &&
      (← peekSecond).any fun l => l.token == .word "function" && !l.newline then
    if place != .list then fail
    advance
    advance
    g.functionBehindKeyword true true scope
    pure true
  else pure false

/-- one statement -/
def anyStatement (place : Place) (outer : Scope) : Reader Statement := do
  let scope := outer.enclosed
  match ← peek with
  | some .leftBrace =>
    g.block scope
    pure .other
  | some .semicolon =>
    advance
    pure .other
  | some (.word w) =>
    match ← g.keywordStatement w place scope with
    | some s => pure s
    | none => if ← g.declaration place scope then pure .other else g.expressionStatement place scope
  | _ => g.expressionStatement place scope

end PageQuery.Script.Grammar
