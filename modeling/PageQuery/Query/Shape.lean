import PageQuery.Script.Tree
import PageQuery.Text.Alphanumeric

/-!
The shapes of expressions that page queries are made of.  Parentheses never matter.
-/

namespace PageQuery.Script.Expr

/-- the value of a string, or of a template without substitutions -/
def stringValue? : Expr → Option String
  | .paren e => e.stringValue?
  | .string s => some s
  | .template [s] [] => some s
  | _ => none

/-- a member with a fixed name: the object and the name -/
def member? : Expr → Option (Expr × String)
  | .paren e => e.member?
  | .field o n => some (o.unparen, n)
  | .index o k => k.stringValue?.map fun n => (o.unparen, n)
  | _ => none

/-- the variable that the expression is -/
def variableName? : Expr → Option String
  | .paren e => e.variableName?
  | .identifier w => some w
  | _ => none

/-- an arrow function of one named parameter with a single result: the parameter and the result -/
def lambda? : Expr → Option (String × Expr)
  | .paren e => e.lambda?
  | .arrow false [some p] (some r) => some (p, r.unparen)
  | _ => none

/-- the name can be part of a path: it is a word of letters, digits and underscores -/
def isPathName (n : String) : Bool :=
  !n.isEmpty && n.toList.all fun c => Text.isAlphanumeric c || c == '_'

/-- the names of the members accessed one after the other, from a variable on -/
def accesses? (p : String) : Expr → Option (List String)
  | .paren e => e.accesses? p
  | .identifier w => if w == p then some [] else none
  | .field o n => if isPathName n then (o.accesses? p).map (· ++ [n]) else none
  | .index o k =>
    match k.stringValue? with
    | some n => if isPathName n then (o.accesses? p).map (· ++ [n]) else none
    | none => none
  | _ => none

/-- the path of a field of a variable, which has at least one name -/
def path? (p : String) (e : Expr) : Option (List String) :=
  match e.accesses? p with
  | some (n :: ns) => some (n :: ns)
  | _ => none

end PageQuery.Script.Expr
