import PageQuery.Query.Chain
import PageQuery.Text.Quoted

/-!
Conditions on a page, their text in a query, and the callbacks they are lowered from.

In a query AND and OR bind equally, so a group of one stands in parentheses within the other.
-/

namespace PageQuery

open Script

inductive Literal where
  | text (value : String)
  | number (value : Binary64)
  | bool (value : Bool)
  | null

inductive Operand where
  /-- a field of the page by its path -/
  | field (path : List String)
  | literal (value : Literal)

inductive Comparison where
  | equal | notEqual | less | lessEqual | greater | greaterEqual
deriving DecidableEq

inductive Condition where
  | all (terms : List Condition)
  | any (terms : List Condition)
  | not (inner : Condition)
  | compare (left : Operand) (op : Comparison) (right : Operand)
  | contains (haystack needle : Operand)
  | truthy (operand : Operand)

/-! ### Text -/

def Literal.render : Literal → String
  | .text s => Text.quote s
  | .number x => Number.queryText x
  | .bool b => if b then "true" else "false"
  | .null => "null"

def Operand.render : Operand → String
  | .field path => String.intercalate "." path
  | .literal l => l.render

def Comparison.symbol : Comparison → String
  | equal => "="
  | notEqual => "!="
  | less => "<"
  | lessEqual => "<="
  | greater => ">"
  | greaterEqual => ">="

namespace Condition

/-- the condition is a group of alternatives -/
def isAny : Condition → Bool
  | any _ => true
  | _ => false

/-- the condition is a group of requirements -/
def isAll : Condition → Bool
  | all _ => true
  | _ => false

/-- the text of the condition stands behind a negation as it is -/
def isAtomic : Condition → Bool
  | contains _ _ => true
  | truthy _ => true
  | _ => false

/-- the text in parentheses, if it needs them -/
def parens (needed : Bool) (s : String) : String := if needed then "(" ++ s ++ ")" else s

mutual
/-- the text of a condition -/
def render : Condition → String
  | all terms => String.intercalate " AND " (renderAll terms)
  | any terms => String.intercalate " OR " (renderAny terms)
  | not inner => "!" ++ parens (!inner.isAtomic) (render inner)
  | compare l op r => l.render ++ " " ++ op.symbol ++ " " ++ r.render
  | contains h n => "contains(" ++ h.render ++ ", " ++ n.render ++ ")"
  | truthy o => o.render
/-- the texts of the terms of a group of requirements -/
def renderAll : List Condition → List String
  | [] => []
  | c :: cs => parens c.isAny (render c) :: renderAll cs
/-- the texts of the terms of a group of alternatives -/
def renderAny : List Condition → List String
  | [] => []
  | c :: cs => parens c.isAll (render c) :: renderAny cs
end

/-- the text of a condition that can be joined to others with AND -/
def fragment (c : Condition) : String := parens c.isAny c.render

/-! ### Groups -/

/-- the terms a condition has as one of several requirements -/
def asRequirements : Condition → List Condition
  | all terms => terms
  | c => [c]

/-- the terms a condition has as one of several alternatives -/
def asAlternatives : Condition → List Condition
  | any terms => terms
  | c => [c]

/-- the requirements of all the conditions as one group -/
def allOf (cs : List Condition) : Condition := .all (cs.flatMap asRequirements)

/-- the alternatives of all the conditions as one group -/
def anyOf (cs : List Condition) : Condition := .any (cs.flatMap asAlternatives)

/-- the page has the tag -/
def hasTag (tag : String) : Condition :=
  .contains (.field ["file", "tags"]) (.literal (.text tag))

end Condition

/-! ### Callbacks -/

namespace Condition

/-- the comparison that an operator of a script is -/
def comparison? : BinaryOp → Option Comparison
  | .strictEqual => some .equal
  | .equal => some .equal
  | .strictNotEqual => some .notEqual
  | .notEqual => some .notEqual
  | .less => some .less
  | .lessEqual => some .lessEqual
  | .greater => some .greater
  | .greaterEqual => some .greaterEqual
  | _ => none

/-- a field of the parameter or a literal -/
def operandOf (p : String) : Expr → Except QueryError Operand
  | .paren e => operandOf p e
  | .string s => .ok (.literal (.text s))
  | .template [s] [] => .ok (.literal (.text s))
  | .number x => .ok (.literal (.number x))
  | .unary .minus e =>
    match e.unparen with
    | .number x => .ok (.literal (.number x.neg))
    | _ => .error .negatedNonLiteral
  | .bool b => .ok (.literal (.bool b))
  | .null => .ok (.literal .null)
  | .identifier w =>
    if w == "undefined" then .ok (.literal .null)
    else .error (.notAnOperand (Expr.identifier w).describe)
  | .field o n => fieldOf p (.field o n)
  | .index o k => fieldOf p (.index o k)
  | .privateField o => fieldOf p (.privateField o)
  | e => .error (.notAnOperand e.describe)
where
  /-- a field of the parameter -/
  fieldOf (p : String) (e : Expr) : Except QueryError Operand :=
    match e.path? p with
    | some path => .ok (.field path)
    | none => .error (.notAField p)

/-- an argument that is not spread -/
def plainArgument? : List (Argument Expr) → Option Expr
  | [a] => if a.spread then none else some a.value
  | _ => none

/-- the tags of an array of strings, one at least -/
def tagList? : Expr → Option (List String)
  | .array [] => none
  | .array elements => elements.mapM fun e =>
    match e with
    | some a => if a.spread then none else a.value.stringValue?
    | none => none
  | _ => none

/-- the callback looks its parameter up in something -/
def looksUp (callback : Expr) : Bool :=
  match callback.lambda? with
  | some (v, .call _ (some callee) args) =>
    match callee.member?, plainArgument? args with
    | some (_, "includes"), some needle => needle.variableName? == some v
    | _, _ => false
  | _ => false

/-- a call that asks whether all or some tags of a list are in something -/
def tagMembership? (callee : Option Expr) (args : List (Argument Expr)) : Option Condition := do
  let (receiver, quantifier) ← (← callee).member?
  if quantifier != "every" && quantifier != "some" then none
  let tags ← tagList? receiver
  let callback ← plainArgument? args
  if looksUp callback then
    pure (if quantifier == "every" then .all (tags.map hasTag) else .any (tags.map hasTag))
  else none

/-- a call that asks whether something is contained in something -/
def containsCall (p : String) (callee : Option Expr) (args : List (Argument Expr)) :
    Except QueryError Condition :=
  match callee.bind Expr.member? with
  | none => .error .callWithoutMethod
  | some (haystack, method) =>
    match method, plainArgument? args with
    | "includes", some needle => do
      pure (.contains (← operandOf p haystack) (← operandOf p needle))
    | _, _ => .error (.methodInPredicate method args.length)

/-- the condition on the parameter that an expression states -/
def ofExpr (p : String) : Expr → Except QueryError Condition
  | .paren e => ofExpr p e
  | .binary .and l r => do pure (allOf [← ofExpr p l, ← ofExpr p r])
  | .binary .or l r => do pure (anyOf [← ofExpr p l, ← ofExpr p r])
  | .binary op l r =>
    match comparison? op with
    | some c => do pure (.compare (← operandOf p l) c (← operandOf p r))
    | none => .error (.notAComparison op)
  | .unary .not e => do pure (.not (← ofExpr p e))
  | .call _ callee args =>
    match tagMembership? callee args with
    | some c => .ok c
    | none => containsCall p callee args
  | .field o n => do pure (.truthy (← operandOf p (.field o n)))
  | .index o k => do pure (.truthy (← operandOf p (.index o k)))
  | .privateField o => do pure (.truthy (← operandOf p (.privateField o)))
  | .bool b => .ok (.truthy (.literal (.bool b)))
  | e => .error (.notACondition e.describe)

/-- the condition that a callback states -/
def ofArg (a : Arg) : Except QueryError Condition := do
  match (← a.expr).lambda? with
  | some (p, body) => ofExpr p body
  | none => .error (.notAPredicate a.text)

end Condition

/-- the condition of an expression that asks for tags and for nothing else -/
def Condition.ofTagExpr? : Expr → Option Condition
  | .paren e => ofTagExpr? e
  | .call _ callee args => tagMembership? callee args
  | _ => none

end PageQuery
