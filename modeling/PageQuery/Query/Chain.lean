import PageQuery.Query.Error
import PageQuery.Query.Shape
import PageQuery.Number.Layout

/-!
Chains of method calls, the pages they start from apart, first call first.
-/

namespace PageQuery

open Script

/-- the two conventions that a page query can vary in -/
structure Dialect where
  /-- the method that opens a chain and names its pages -/
  root : String := "pages"
  /-- the character that a tag begins with -/
  sigil : Char := '#'
deriving DecidableEq

/-- an argument of a call: the value of a string, the text of a number, or the source of anything
else, and the expression if it was read before -/
structure Arg where
  text : String
  node : Option Expr := none

structure MethodCall where
  method : String
  args : List Arg

structure Chain where
  /-- the first argument of the root method; empty means all pages -/
  source : String
  calls : List MethodCall

namespace Chain

/-- the text that an argument gives; a template with substitutions gives none -/
def argOf (s : Source) (a : Argument Expr) : Except QueryError Arg :=
  let e := a.value.unparen
  match e with
  | .string t => .ok ⟨t, e⟩
  | .number x => .ok ⟨Number.scriptText x, e⟩
  | .template [t] [] => .ok ⟨t, e⟩
  | .template _ _ => .error .templateArgument
  | _ => .ok ⟨s.slice a.extent, e⟩

/-- one call on the way from the outermost call inwards -/
structure Link where
  start : Nat
  /-- none if the call is not one of a method -/
  method : Option String
  args : List (Argument Expr)

mutual
/-- the calls from the outermost one inwards, each made on the object that the one before it is a
method of -/
def links : Expr → List Link
  | .paren e => links e
  | .call start (some callee) args =>
    ⟨start, callee.member?.map (·.2), args⟩ :: objectLinks callee
  | .call start none args => [⟨start, none, args⟩]
  | _ => []
/-- the calls that make the object of a method -/
def objectLinks : Expr → List Link
  | .paren e => objectLinks e
  | .field o _ => links o
  | .index o k => if k.stringValue?.isSome then links o else []
  | _ => []
end

/-- the chain whose outermost calls are given, and which goes on with `after` -/
def ofLinks (s : Source) (d : Dialect) (after : List MethodCall) : List Link → Except QueryError Chain
  | [] => .ok ⟨"", after⟩
  | l :: ls =>
    match l.method with
    | none => .error (.notAMethodCall l.start)
    | some method => do
      let args ← l.args.mapM (argOf s)
      if method == d.root then
        if ls.isEmpty then .ok ⟨(args.head?.map (·.text)).getD "", after⟩
        else .error (.rootNotFirst method)
      else ofLinks s d (⟨method, args⟩ :: after) ls

/-- the chain that an expression is -/
def ofSource (s : Source) (d : Dialect) : Except QueryError Chain :=
  match links s.expr with
  | [] => .error (.notAChain s.expr.unparen.describe)
  | ls => ofLinks s d [] ls

end Chain

/-- the script of one expression that a text holds -/
def readExpression (text : String) : Except QueryError Source :=
  match readSource text with
  | .ok s => .ok s
  | .error f => .error (.unreadable f)

/-- the chain that a text holds -/
def Chain.read (text : String) (d : Dialect) : Except QueryError Chain := do
  Chain.ofSource (← readExpression text) d

/-- the expression of an argument, read from its text if it was not read before -/
def Arg.expr (a : Arg) : Except QueryError Expr :=
  match a.node with
  | some e => .ok e
  | none => (readExpression a.text).map (·.expr)

end PageQuery
