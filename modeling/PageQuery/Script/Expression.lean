import PageQuery.Script.Function

/-!
Expressions, from literals up to assignments.
-/

namespace PageQuery.Script.Grammar

open Reader

variable (g : Grammar)

/-! ### Sequences -/

/-- a phrase that ends where the last token did -/
def phraseFrom (start : Nat) (e : Expr) (role : Role) : Reader Phrase := do
  pure { expr := e, extent := ⟨start, ← lastStop⟩, role := role }

/-- further expressions behind commas -/
def sequenceTail (scope : Scope) : Nat → Reader (List Phrase)
  | 0 => fail
  | n + 1 => do
    if ← eat .comma then
      let p ← g.value scope
      pure (p :: (← sequenceTail scope n))
    else pure []

/-- an expression with commas, which may still read as a pattern if there is no comma -/
def openExpression (scope : Scope) : Reader Phrase := do
  let first ← g.assignment scope
  if ← isAhead .comma then
    let first ← first.settle
    let rest ← g.sequenceTail scope g.fuel
    phraseFrom first.extent.start (.other (first.expr :: rest.map (·.expr))) .other
  else pure first

/-- an expression with commas -/
def expression (scope : Scope) : Reader Phrase := do (← g.openExpression scope).settle

/-! ### Arguments and elements -/

/-- an argument of a call -/
def callArgument (scope : Scope) : Reader (Argument Expr) := do
  let spread ← eat .ellipsis
  pure ((← g.value scope.enclosed).argument spread)

/-- the arguments of a call behind its left parenthesis -/
def callArguments (scope : Scope) : Reader (List (Argument Expr)) := do
  pure (← listUpTo .rightParen (g.callArgument scope) g.fuel).1

/-- an element of an array literal, none if it is left out -/
def arrayElement (scope : Scope) : Reader (Option (Bool × Phrase)) := do
  if ← isAhead .comma then pure none
  else
    let spread ← eat .ellipsis
    pure (some (spread, ← g.assignment scope.enclosed))

/-- the phrase takes the rest of an array pattern -/
def takesRest (p : Phrase) : Bool := p.role == .target || p.role == .pattern

/-- the first place among the phrases where something stands that only a pattern may hold -/
def firstUnsettled (ps : List Phrase) : Option Nat := ps.findSome? (·.unsettled)

/-- the elements read as those of a pattern, each of them by `single` and the rest by `rest` -/
def elementsRead (single rest : Phrase → Bool) (trailing : Bool) :
    List (Option (Bool × Phrase)) → Bool
  | [] => true
  | none :: es => elementsRead single rest trailing es
  | some (false, p) :: es => single p && elementsRead single rest trailing es
  | some (true, p) :: es => rest p && es.isEmpty && !trailing

/-- an array literal behind its left bracket -/
def arrayLiteral (start : Nat) (scope : Scope) : Reader Phrase := do
  let (es, trailing) ← listUpTo .rightBracket (g.arrayElement scope) g.fuel
  let inPattern := elementsRead Phrase.inPattern takesRest trailing es
  let p ← phraseFrom start
    (.array (es.map fun e => e.map fun e => e.2.argument e.1))
    (if inPattern then .pattern else .other)
  pure { p with
    binding := elementsRead Phrase.binding (fun p => p.binding && takesRest p) trailing es
    unsettled := firstUnsettled (es.filterMap fun e => e.map (·.2)) }

/-! ### Object literals -/

/-- a member of an object literal, as far as patterns go -/
structure ObjectMember where
  inPattern : Bool := false
  binding : Bool := false
  unsettled : Option Nat := none
  isRest : Bool := false

def objectMember (scope : Scope) : Reader ObjectMember := do
  if ← eat .ellipsis then
    let p ← g.assignment scope.enclosed
    pure {
      inPattern := p.role == .target, binding := p.binding && p.role == .target,
      unsettled := p.unsettled, isRest := true }
  else
    let m ← modifiers
    let start ← position
    let word : Option String := match ← peek with
      | some (.word w) => if m.isEmpty then some w else none
      | _ => none
    match ← g.key scope with
    | .secret _ => fail
    | _ =>
      if ← isAhead .leftParen then
        g.method m scope
        pure {}
      else if !m.isEmpty then fail
      else if ← eat .colon then
        let p ← g.assignment scope.enclosed
        pure { inPattern := p.inPattern, binding := p.binding, unsettled := p.unsettled }
      else if word.any scope.canName then
        let place ← position
        if ← g.initializer scope.enclosed then
          pure { inPattern := true, binding := true, unsettled := some place }
        else pure { inPattern := true, binding := true }
      else if word.isSome && ((← isAhead .comma) || (← isAhead .rightBrace)) then failAt start
      else fail

/-- an object literal behind its left brace -/
def objectLiteral (start : Nat) (scope : Scope) : Reader Phrase := do
  let (ms, trailing) ← listUpTo .rightBrace (g.objectMember scope) g.fuel
  let restOk := !ms.dropLast.any (·.isRest) && !(trailing && (ms.getLast?.any (·.isRest)))
  let p ← phraseFrom start .object
    (if restOk && ms.all (·.inPattern) then .pattern else .other)
  pure { p with
    binding := restOk && ms.all (·.binding)
    unsettled := ms.findSome? (·.unsettled) }

/-! ### Templates -/

/-- the runs and substitutions of a template behind its backquote -/
def templateParts (scope : Scope) : Nat → Reader (List (Option String) × List Expr)
  | 0 => fail
  | n + 1 => do
    match ← peek with
    | some (.chunk t) =>
      advance
      if ← eat .backquote then pure ([t], [])
      else
        expect .substitution
        let e ← g.expression scope.enclosed
        expect .rightBrace
        let (ts, es) ← templateParts scope n
        pure (t :: ts, e.expr :: es)
    | _ => fail

/-- a template literal behind its backquote; all its escapes are well formed -/
def templateLiteral (start : Nat) (scope : Scope) : Reader Phrase := do
  let (ts, es) ← g.templateParts scope g.fuel
  match ts.mapM id with
  | some ts => phraseFrom start (.template ts es) .other
  | none => failAt start

/-! ### Arrow functions -/

/-- an arrow is ahead on the same line -/
def arrowAhead : Reader Bool := do
  if ← isAhead .arrow then pure (!(← newlineAhead)) else pure false

/-- the one result that a function with these statements has -/
def resultOf : List Statement → Option Expr
  | [.returning (some e)] => some e
  | _ => none

/-- an arrow function from its arrow on -/
def arrowFunction (start : Nat) (isAsync : Bool) (parameters : List (Option String))
    (scope : Scope) : Reader Phrase := do
  expect .arrow
  let inner := scope.arrowBody isAsync
  let result ←
    if ← isAhead .leftBrace then
      pure (resultOf (← g.functionBody { inner with inAllowed := true }))
    else pure (some (← g.value inner).expr)
  let p ← phraseFrom start (.arrow isAsync parameters result) .other
  pure { p with isArrow := true }

/-- the name of a parameter, none for a pattern or a default -/
def parameterName (p : Phrase) : Option String :=
  match p.expr with
  | .identifier w => some w
  | _ => none

/-- a name, or an arrow function with this one parameter -/
def nameOrArrow (start : Nat) (isAsync : Bool) (scope : Scope) : Reader Phrase := do
  let w ← variableName scope
  if scope.arrowStart == some start && (← arrowAhead) then
    g.arrowFunction start isAsync [some w] scope
  else if isAsync then fail
  else
    let p ← phraseFrom start (.identifier w) .target
    pure { p with binding := true }

/-- what stands in parentheses, each with whether it is spread -/
def parenthesizedItem (scope : Scope) : Reader (Bool × Phrase) := do
  let spread ← eat .ellipsis
  pure (spread, ← g.assignment scope.enclosed)

/-- the items read as the parameters of an arrow function -/
def parametersRead (items : List (Bool × Phrase)) (trailing : Bool) : Bool :=
  elementsRead Phrase.binding (fun p => p.binding && takesRest p) trailing (items.map some)

/-- the first item that reads as no parameter -/
def misplacedParameter (items : List (Bool × Phrase)) : Option Nat :=
  (items.find? fun i => !i.2.binding).map (·.2.extent.start)

/-- the parameters of an arrow function -/
def parameterNames (items : List (Bool × Phrase)) : List (Option String) :=
  items.map fun i => if i.1 then none else parameterName i.2

/-- an arrow function from its arrow on, of what was read as a list in parentheses -/
def arrowOf (start : Nat) (isAsync : Bool) (items : List (Bool × Phrase)) (trailing : Bool)
    (scope : Scope) : Reader Phrase := do
  let p ← g.arrowFunction start isAsync (parameterNames items) scope
  if parametersRead items trailing then pure p
  else failAt ((misplacedParameter items).getD start)

/-- an expression in parentheses, or an arrow function -/
def parenthesized (start : Nat) (scope : Scope) : Reader Phrase := do
  expect .leftParen
  let (items, trailing) ← listUpTo .rightParen (g.parenthesizedItem scope) g.fuel
  if scope.arrowStart == some start && (← arrowAhead) then
    g.arrowOf start false items trailing scope
  else if trailing || items.any (·.1) then failAt start
  else
    match ← items.mapM fun i => i.2.settle with
    | [] => failAt start
    | [p] =>
      let whole ← phraseFrom start (.paren p.expr) (if p.role == .target then .target else .other)
      pure { whole with core := p.core }
    | first :: rest =>
      let last := rest.getLast?.getD first
      let whole ← phraseFrom start
        (.paren (.other ((first :: rest).map (·.expr)))) .other
      pure { whole with core := ⟨first.extent.start, last.extent.stop⟩ }

/-- a call of something named `async`, or an asynchronous arrow function -/
def asyncParenthesized (start : Nat) (scope : Scope) : Reader Phrase := do
  expect .leftParen
  let (items, trailing) ← listUpTo .rightParen (g.parenthesizedItem scope) g.fuel
  if ← arrowAhead then g.arrowOf start true items trailing scope
  else
    let args ← items.mapM fun i => do
      pure ((← i.2.settle).argument i.1)
    phraseFrom start (.call start (some (.identifier "async")) args) .other

/-! ### Primary expressions -/

/-- what the word `async` begins -/
def asyncPhrase (start : Nat) (scope : Scope) : Reader Phrase := do
  let mayBeArrow := scope.arrowStart == some start
  match ← peekSecond with
  | none => g.nameOrArrow start false scope
  | some second =>
    if second.newline then g.nameOrArrow start false scope
    else match second.token with
      | .word "function" =>
        advance
        advance
        g.functionBehindKeyword false true scope
        phraseFrom start .function .other
      | .leftParen =>
        if mayBeArrow then
          advance
          g.asyncParenthesized start scope
        else g.nameOrArrow start false scope
      | .word w =>
        if mayBeArrow && scope.canName w then
          advance
          g.nameOrArrow start true scope
        else g.nameOrArrow start false scope
      | _ => g.nameOrArrow start false scope

/-- a literal, a name, a function, a class or an expression in brackets -/
def primary (scope : Scope) : Reader Phrase := do
  let start ← position
  let literal := fun e : Expr => do
    advance
    phraseFrom start e .other
  match ← peek with
  | some (.string s) => literal (.string s)
  | some (.number x) => literal (.number x)
  | some .bigint => literal .bigint
  | some (.word "null") => literal .null
  | some (.word "true") => literal (.bool true)
  | some (.word "false") => literal (.bool false)
  | some (.word "this") => literal (.other [])
  | some (.word "function") =>
    advance
    g.functionBehindKeyword false false scope
    phraseFrom start .function .other
  | some (.word "class") =>
    advance
    g.classBehindKeyword false scope
    phraseFrom start (.other []) .other
  | some (.word "async") => g.asyncPhrase start scope
  | some (.word _) => g.nameOrArrow start false scope
  | some .leftBracket =>
    advance
    g.arrayLiteral start scope
  | some .leftBrace =>
    advance
    g.objectLiteral start scope
  | some .leftParen => g.parenthesized start scope
  | some .backquote =>
    advance
    g.templateLiteral start scope
  | some (.binary .divide) =>
    regex
    phraseFrom start .regex .other
  | some (.assign false) =>
    regex
    phraseFrom start .regex .other
  | some .hash =>
    let _ ← privateName
    phraseFrom start (.other []) .other
  | _ => fail

/-! ### Accesses and calls -/

/-- a chain is going on: the expression is one of its links -/
def inChain : Expr → Bool
  | .optional _ => true
  | _ => false

/-- an access or a call applied to a phrase, marked if its chain is optional -/
def link (base : Phrase) (opening : Bool) (e : Expr) (isCall : Bool) : Reader Phrase := do
  if opening || inChain base.expr then
    phraseFrom base.extent.start (.optional e) .other
  else phraseFrom base.extent.start e (if isCall then .other else .target)

/-- the member behind a point -/
def memberName (base : Phrase) (opening : Bool) : Reader Phrase := do
  if ← isAhead .hash then
    let _ ← privateName
    link base opening (.privateField base.expr) false
  else
    let w ← anyWord
    link base opening (.field base.expr w) false

/-- the member behind a left bracket -/
def memberIndex (base : Phrase) (opening : Bool) (scope : Scope) : Reader Phrase := do
  let k ← g.expression scope.enclosed
  expect .rightBracket
  link base opening (.index base.expr k.expr) false

/-- the call behind a left parenthesis -/
def callOf (base : Phrase) (opening : Bool) (scope : Scope) : Reader Phrase := do
  let args ← g.callArguments scope
  link base opening (.call base.extent.start (some base.expr) args) true

/-- the access or call behind a question mark and a point -/
def optionalLink (base : Phrase) (scope : Scope) : Reader Phrase := do
  if ← eat .leftBracket then g.memberIndex base true scope
  else if ← eat .leftParen then g.callOf base true scope
  else memberName base true

/-- the accesses, calls and templates that follow a phrase -/
def suffixes (calls : Bool) (scope : Scope) : Nat → Phrase → Reader Phrase
  | 0, _ => fail
  | n + 1, p => do
    match ← peek with
    | some .dot =>
      let p ← p.settle
      advance
      suffixes calls scope n (← memberName p false)
    | some .leftBracket =>
      let p ← p.settle
      advance
      suffixes calls scope n (← g.memberIndex p false scope)
    | some .leftParen =>
      if calls then
        let p ← p.settle
        advance
        suffixes calls scope n (← g.callOf p false scope)
      else pure p
    | some .backquote =>
      let p ← p.settle
      if inChain p.expr then fail
      else
        advance
        let (_, es) ← g.templateParts scope g.fuel
        suffixes calls scope n (← phraseFrom p.extent.start (.other (p.expr :: es)) .other)
    | some .question =>
      if (← peekSecond).any fun l => l.token == .dot then
        let p ← p.settle
        if !calls then fail
        else
          advance
          advance
          suffixes calls scope n (← g.optionalLink p scope)
      else pure p
    | _ => pure p

/-- what `new` is applied to, and its arguments -/
def newExpression (scope : Scope) : Reader Phrase := do
  let start ← position
  advance
  if ← eat .dot then
    expect (.word "target")
    if scope.newTarget then phraseFrom start (.other []) .other else failAt start
  else if ← isAhead (.word "import") then fail
  else
    let callee ← (← g.member false { scope with arrowStart := none }).settle
    let args ← if ← eat .leftParen then g.callArguments scope else pure []
    phraseFrom start (.other (callee.expr :: args.map (·.value))) .other

/-- what follows the word `super` -/
def superExpression (scope : Scope) : Reader Phrase := do
  let start ← position
  advance
  if ← eat .leftParen then
    let args ← g.callArguments scope
    phraseFrom start (.call start none args) .other
  else
    let keys ←
      if ← eat .dot then
        let _ ← anyWord
        pure []
      else
        expect .leftBracket
        let k ← g.expression scope.enclosed
        expect .rightBracket
        pure [k.expr]
    if scope.superField then phraseFrom start (.other keys) .target else fail

/-- a call of `import`; no comma follows its arguments -/
def importCall (scope : Scope) : Reader Phrase := do
  let start ← position
  advance
  if ← eat .dot then
    let w ← anyWord
    if w == "meta" then failAt start else fail
  else
    let opening ← position
    expect .leftParen
    let (args, trailing) ← listUpTo .rightParen (g.callArgument scope) g.fuel
    if trailing then failAt opening else phraseFrom start (.call start none args) .other

/-- a primary expression with accesses and, if they may stand, calls -/
def memberExpression (calls : Bool) (scope : Scope) : Reader Phrase := do
  let base ← match ← peek with
    | some (.word "new") => g.newExpression scope
    | some (.word "super") => g.superExpression scope
    | some (.word "import") => g.importCall scope
    | _ => g.primary scope
  if base.isArrow then pure base else g.suffixes calls scope g.fuel base

/-! ### Operators -/

/-- an expression with an increment or decrement behind it -/
def postfixed (scope : Scope) : Reader Phrase := do
  let p ← g.memberExpression true scope
  if p.isArrow || (← newlineAhead) then pure p
  else if (← isAhead .increment) || (← isAhead .decrement) then
    if p.role == .target then
      advance
      phraseFrom p.extent.start (.other [p.expr]) .other
    else failAt p.extent.start
  else pure p

/-- the operator of one operand that a token is -/
def unaryOp? : Token → Option UnaryOp
  | .binary .plus => some .plus
  | .binary .minus => some .minus
  | .bang => some .not
  | .tilde => some .complement
  | .word "typeof" => some .typeOf
  | .word "void" => some .void
  | .word "delete" => some .delete
  | _ => none

/-- a token before which `await` is a name: nothing that it could apply to stands there -/
def endsAwait : Option Lexeme → Bool
  | none => true
  | some l =>
    l.newline || [.rightParen, .rightBracket, .rightBrace, .semicolon, .comma].contains l.token

/-- the expression is a variable -/
def isVariable : Expr → Bool
  | .identifier _ => true
  | _ => false

/-- an operand with what stands before it -/
def unaryExpression (scope : Scope) : Reader Phrase := do
  let start ← position
  let inner := { scope with arrowStart := none }
  match ← peek with
  | some .increment =>
    advance
    let p ← g.unary inner
    if p.role == .target then phraseFrom start (.other [p.expr]) .other else failAt p.extent.start
  | some .decrement =>
    advance
    let p ← g.unary inner
    if p.role == .target then phraseFrom start (.other [p.expr]) .other else failAt p.extent.start
  | some (.word "await") =>
    if scope.isAsync then
      advance
      let p ← (← g.unary inner).settle
      let whole ← phraseFrom start (.other [p.expr]) .other
      pure { whole with isUnary := true }
    else if endsAwait (← peekSecond) then
      advance
      let p ← phraseFrom start (.identifier "await") .target
      pure { p with binding := true }
    else
      advance
      let _ ← g.unary inner
      failAt start
  | some t =>
    match unaryOp? t with
    | some op =>
      advance
      let p ← (← g.unary inner).settle
      if scope.strict && op == .delete && isVariable p.expr then failAt p.extent.start
      let whole ← phraseFrom start (.unary op p.expr) .other
      pure { whole with isUnary := true }
    | none => g.postfixed scope
  | none => fail

/-- the operator of two operands that a token is -/
def binaryOp? (scope : Scope) : Token → Option BinaryOp
  | .binary op => some op
  | .word "in" => if scope.inAllowed then some .inOp else none
  | .word "instanceof" => some .instanceOf
  | _ => none

/-- the operator of an expression that is no operand in parentheses -/
def operator? : Expr → Option BinaryOp
  | .binary op _ _ => some op
  | _ => none

/-- the two operators do not stand next to each other without parentheses -/
def clash (a : BinaryOp) (b : Option BinaryOp) : Bool :=
  (a == .nullish && (b == some .or || b == some .and)) ||
    ((a == .or || a == .and) && b == some .nullish)

/-- the two operands joined -/
def joined (op : BinaryOp) (l r : Phrase) : Reader Phrase := do
  if clash op (operator? l.expr) || clash op (operator? r.expr) then failAt l.extent.start
  else phraseFrom l.extent.start (.binary op l.expr r.expr) .other

/-- the operators that bind tighter than `least`, behind a first operand -/
def binaryTail (scope : Scope) : Nat → Nat → Phrase → Reader Phrase
  | 0, _, _ => fail
  | n + 1, least, left => do
    match (← peek).bind (binaryOp? scope) with
    | none => pure left
    | some op =>
      if op.binding ≤ least then pure left
      else
        let left ← left.settle
        advance
        if op == .power && left.isUnary then fail
        let first ← g.unaryExpression { scope with arrowStart := none }
        let right ← binaryTail scope n (if op == .power then op.binding - 1 else op.binding) first
        binaryTail scope n least (← joined op left (← right.settle))

/-- a condition with its two results, or an expression of operators -/
def conditional (scope : Scope) : Reader Phrase := do
  let first ← g.unaryExpression scope
  if first.isArrow then pure first
  else
    let test ← g.binaryTail scope g.fuel 0 first
    if ← isAhead .question then
      let test ← test.settle
      advance
      let a ← g.value scope.enclosed
      expect .colon
      let b ← g.value { scope with arrowStart := none }
      phraseFrom test.extent.start (.other [test.expr, a.expr, b.expr]) .other
    else pure test

/-- the tokens behind which `yield` has no operand -/
def endsYield : Option Token → Bool
  | none => true
  | some .rightParen => true
  | some .rightBracket => true
  | some .rightBrace => true
  | some .comma => true
  | some .semicolon => true
  | some .colon => true
  | some (.word "in") => true
  | some (.word "of") => true
  | _ => false

/-- the word `yield` of a generator and its operand -/
def yieldExpression (scope : Scope) : Reader Phrase := do
  let start ← position
  advance
  if (← newlineAhead) || endsYield (← peek) then phraseFrom start (.other []) .other
  else
    let _ ← eat (.binary .times)
    let p ← g.value scope
    phraseFrom start (.other [p.expr]) .other

/-- an expression without commas -/
def assignmentExpression (outer : Scope) : Reader Phrase := do
  let start ← position
  let scope := { outer with arrowStart := some start }
  if scope.isGenerator && (← isAhead (.word "yield")) then g.yieldExpression scope
  else
    let left ← g.conditional scope
    if left.isArrow then pure left
    else
      match ← peek with
      | some (.assign plain) =>
        if left.role == .target || plain && left.role == .pattern then
          advance
          let right ← g.value { outer with arrowStart := none }
          let p ← phraseFrom start (.other [left.expr, right.expr])
            (if plain then .defaulted else .other)
          pure { p with binding := plain && left.binding }
        else failAt left.extent.start
      | _ => pure left

end PageQuery.Script.Grammar
