import PageQuery.Script.Reader

/-!
Patterns, functions and classes.
-/

namespace PageQuery.Script.Grammar

open Reader

variable (g : Grammar)

/-! ### Parts -/

/-- the next expression up to a comma, which holds no part of a pattern -/
def value (scope : Scope) : Reader Phrase := do (← g.assignment scope).settle

/-- a value, if there is an equals sign -/
def initializer (scope : Scope) : Reader Bool := do
  if ← eat (.assign true) then
    let _ ← g.value scope
    pure true
  else pure false

/-- a name that a variable can have -/
def variableName (scope : Scope) : Reader String := do
  match ← peek with
  | some (.word w) =>
    if scope.canName w then
      advance
      pure w
    else fail
  | _ => fail

/-- the key of a member -/
inductive Key where
  /-- a word or a string -/
  | name (w : String)
  /-- a number or an expression -/
  | computed
  /-- a private name -/
  | secret (w : String)

/-- a token that a key of an object or class begins with -/
def opensKey : Token → Bool
  | .word _ => true
  | .string _ => true
  | .number _ => true
  | .bigint => true
  | .leftBracket => true
  | .hash => true
  | _ => false

/-- reads the key of a member -/
def key (scope : Scope) : Reader Key := do
  match ← peek with
  | some (.word w) =>
    advance
    pure (.name w)
  | some (.string w) =>
    advance
    pure (.name w)
  | some (.number _) =>
    advance
    pure .computed
  | some .bigint =>
    advance
    pure .computed
  | some .leftBracket =>
    advance
    let _ ← g.value scope.enclosed
    expect .rightBracket
    pure .computed
  | some .hash =>
    pure (.secret (← privateName))
  | _ => fail

/-! ### Patterns -/

/-- a variable or a pattern, with or without a default -/
def patternElement (scope : Scope) : Reader Unit := do
  g.pattern scope
  let _ ← g.initializer scope.enclosed

/-- an element of an array pattern; whether it takes the rest -/
def arrayPatternElement (scope : Scope) : Reader Bool := do
  if ← isAhead .comma then pure false
  else if ← eat .ellipsis then
    g.pattern scope
    pure true
  else
    g.patternElement scope
    pure false

/-- a member of an object pattern; whether it takes the rest -/
def objectPatternMember (scope : Scope) : Reader Bool := do
  if ← eat .ellipsis then
    let _ ← variableName scope
    pure true
  else
    let short := match ← peek with
      | some (.word w) => scope.canName w
      | _ => false
    match ← g.key scope with
    | .secret _ => fail
    | _ =>
      if ← eat .colon then g.patternElement scope
      else if short then
        let _ ← g.initializer scope.enclosed
      else fail
      pure false

/-- at most the last of a list takes the rest, and no comma follows it -/
def restLast (rests : List Bool) (trailing : Bool) : Reader Unit :=
  if rests.dropLast.any id || trailing && rests.getLast? == some true then fail else pure ()

/-- a variable or a pattern in a declaration -/
def bindingPattern (scope : Scope) : Reader Unit := do
  match ← peek with
  | some .leftBracket =>
    advance
    let (rests, trailing) ← listUpTo .rightBracket (g.arrayPatternElement scope) g.fuel
    restLast rests trailing
  | some .leftBrace =>
    advance
    let (rests, trailing) ← listUpTo .rightBrace (g.objectPatternMember scope) g.fuel
    restLast rests trailing
  | _ =>
    let _ ← variableName scope

/-! ### Functions -/

/-- a parameter; whether it takes the rest -/
def parameter (scope : Scope) : Reader Bool := do
  if ← eat .ellipsis then
    g.pattern scope
    pure true
  else
    g.patternElement scope
    pure false

/-- the parameters in their parentheses, and how many they are -/
def parameters (scope : Scope) : Reader Nat := do
  expect .leftParen
  let (rests, trailing) ← listUpTo .rightParen (g.parameter scope) g.fuel
  restLast rests trailing
  pure rests.length

/-- the statement is a string on its own -/
def isDirective : Statement → Bool
  | .expression (.string _) => true
  | _ => false

def isStrictDirective : Statement → Bool
  | .expression (.string s) => s == "use strict"
  | _ => false

/-- the statements up to a right brace; strings at the front are directives -/
def statements (directives : Bool) (scope : Scope) : Nat → Reader (List Statement)
  | 0 => fail
  | n + 1 => do
    if ← eat .rightBrace then pure []
    else
      let s ← g.statement .list scope
      let strict := scope.strict || directives && isStrictDirective s
      let rest ← statements (directives && isDirective s) { scope with strict := strict } n
      pure (s :: rest)

/-- the body of a function -/
def functionBody (scope : Scope) : Reader (List Statement) := do
  expect .leftBrace
  g.statements true scope g.fuel

/-- the parameters and the body of a function, and how many parameters there are -/
def functionRest (scope : Scope) : Reader Nat := do
  let n ← g.parameters scope
  let _ ← g.functionBody scope
  pure n

/-- a function behind its keyword; a declaration has a name -/
def functionBehindKeyword (declared isAsync : Bool) (scope : Scope) : Reader Unit := do
  let isGenerator ← eat (.binary .times)
  let inner := scope.function isAsync isGenerator false
  if ← isAhead .leftParen then
    if declared then fail
  else
    let _ ← variableName (if declared then scope else inner)
  let _ ← g.functionRest inner

/-! ### Methods -/

inductive Accessor where
  | getter
  | setter
deriving DecidableEq

/-- the words before the key of a method -/
structure Modifiers where
  isAsync : Bool := false
  isGenerator : Bool := false
  accessor : Option Accessor := none

def Modifiers.isEmpty (m : Modifiers) : Bool :=
  !m.isAsync && !m.isGenerator && m.accessor.isNone

def modifiers : Reader Modifiers := do
  let second ← peekSecond
  let keyed := second.any fun l => opensKey l.token
  match ← peek with
  | some (.word "get") =>
    if keyed then
      advance
      pure { accessor := some .getter }
    else pure {}
  | some (.word "set") =>
    if keyed then
      advance
      pure { accessor := some .setter }
    else pure {}
  | some (.word "async") =>
    if second.any fun l => !l.newline && (opensKey l.token || l.token == .binary .times) then
      advance
      pure { isAsync := true, isGenerator := ← eat (.binary .times) }
    else pure {}
  | some (.binary .times) =>
    advance
    pure { isGenerator := true }
  | _ => pure {}

/-- the parameters and the body of a method; a getter has no parameter and a setter one -/
def method (m : Modifiers) (scope : Scope) : Reader Unit := do
  let n ← g.functionRest (scope.function m.isAsync m.isGenerator true)
  match m.accessor with
  | some .getter => if n != 0 then fail
  | some .setter => if n != 1 then fail
  | none => pure ()

/-! ### Classes -/

/-- what a member of a class is, as far as its name decides whether it may stand there -/
inductive MemberKind where
  | plainMethod
  | specialMethod
  | field
deriving DecidableEq

/-- a member of this name may stand in a class.  The constructor is a plain method, it has no private
name, and no static member is the prototype. -/
def mayStand (isStatic : Bool) (kind : MemberKind) : Key → Bool
  | .name "constructor" => kind == .plainMethod || (isStatic && kind == .specialMethod)
  | .name "prototype" => !isStatic
  | .secret "constructor" => false
  | _ => true

/-- the member is the constructor of the class -/
def isConstructor (isStatic : Bool) (kind : MemberKind) : Key → Bool
  | .name "constructor" => !isStatic && kind == .plainMethod
  | _ => false

/-- a member of a class behind the word `static`, if it was there; whether it is the constructor -/
def classMember (isStatic : Bool) (scope : Scope) : Reader Bool := do
  let inner := { scope.function false false true with inFunction := false }
  if isStatic && (← isAhead .leftBrace) then
    advance
    let _ ← g.statements false inner g.fuel
    pure false
  else
    let m ← modifiers
    let start ← position
    let k ← g.key scope
    let kind ←
      if ← isAhead .leftParen then
        g.method m scope
        pure (if m.isEmpty then MemberKind.plainMethod else .specialMethod)
      else if !m.isEmpty then fail
      else
        let _ ← g.initializer inner
        semicolon
        pure .field
    if mayStand isStatic kind k then pure (isConstructor isStatic kind k) else failAt start

/-- the members of a class up to its right brace, one constructor at most -/
def classMembers (scope : Scope) (mayConstruct : Bool) : Nat → Reader Unit
  | 0 => fail
  | n + 1 => do
    if ← eat .rightBrace then pure ()
    else if ← eat .semicolon then classMembers scope mayConstruct n
    else
      let start ← position
      let second ← peekSecond
      let named := [some Token.leftParen, some (.assign true), some .semicolon, some .rightBrace]
      let isStatic := (← isAhead (.word "static")) && !named.contains (second.map (·.token))
      if isStatic then advance
      let constructs ← g.classMember isStatic scope
      if constructs && !mayConstruct then failAt start
      classMembers scope (mayConstruct && !constructs) n

/-- a class behind its keyword; a declaration has a name -/
def classBehindKeyword (declared : Bool) (scope : Scope) : Reader Unit := do
  let scope := { scope with strict := true }
  match ← peek with
  | some (.word "extends") => if declared then fail
  | some (.word _) =>
    let _ ← variableName scope
  | _ => if declared then fail
  if ← eat (.word "extends") then
    let _ ← (← g.member true scope.enclosed).settle
  expect .leftBrace
  g.classMembers scope true g.fuel

end PageQuery.Script.Grammar
