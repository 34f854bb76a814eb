import PageQuery.Script.Token

/-!
Expressions of a script.

The tree keeps what a page query is made of: literals, names, accesses, calls, operators and arrow
functions with a single result.  Of other functions, classes, object literals and patterns it keeps
only that they stand there, and of every other form only its operands.
-/

namespace PageQuery.Script

/-- a stretch of the text, in bytes -/
structure Extent where
  start : Nat
  stop : Nat
deriving DecidableEq

/-- an argument of a call or an element of an array, and where it stands, parentheses around it
aside -/
structure Argument (α : Type) where
  /-- its items are passed one by one -/
  spread : Bool
  extent : Extent
  value : α

inductive UnaryOp where
  | plus | minus | not | complement | typeOf | void | delete
deriving DecidableEq

inductive Expr where
  | identifier (name : String)
  | string (value : String)
  | number (value : Binary64)
  | bool (value : Bool)
  | null
  | bigint
  | regex
  /-- one run of text more than substitutions -/
  | template (chunks : List String) (substitutions : List Expr)
  /-- none for an element that is left out -/
  | array (elements : List (Option (Argument Expr)))
  | object
  | function
  /-- each parameter by its name, none for a pattern or a default; the result is the body, or what
  the only statement of the body returns, and none for any other body -/
  | arrow (isAsync : Bool) (parameters : List (Option String)) (result : Option Expr)
  /-- access by a name -/
  | field (object : Expr) (name : String)
  /-- access by the value of an expression -/
  | index (object : Expr) (key : Expr)
  /-- access by a private name -/
  | privateField (object : Expr)
  /-- none is called for `super` and `import`; `start` is where the call begins -/
  | call (start : Nat) (callee : Option Expr) (arguments : List (Argument Expr))
  /-- an access or a call in an optional chain -/
  | optional (link : Expr)
  | unary (op : UnaryOp) (operand : Expr)
  | binary (op : BinaryOp) (left right : Expr)
  | paren (inner : Expr)
  | other (operands : List Expr)

namespace Expr

/-- the expression without the parentheses around it -/
def unparen : Expr → Expr
  | .paren e => unparen e
  | e => e

/-- what kind of expression it is, for messages -/
def describe : Expr → String
  | .identifier _ => "identifier"
  | .string _ => "string literal"
  | .template _ _ => "string literal"
  | .number _ => "number literal"
  | .bool _ => "literal"
  | .null => "literal"
  | .bigint => "literal"
  | .regex => "literal"
  | .array _ => "array literal"
  | .object => "object literal"
  | .field _ _ => "member access"
  | .index _ _ => "member access"
  | .privateField _ => "member access"
  | .call _ _ _ => "call"
  | .arrow _ _ _ => "function"
  | .function => "function"
  | .unary _ _ => "unary expression"
  | .binary _ _ _ => "binary expression"
  | .paren _ => "parenthesized expression"
  | .optional _ => "expression"
  | .other _ => "expression"

end Expr

end PageQuery.Script
