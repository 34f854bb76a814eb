import PageQuery.Query.Chain

/-!
Callbacks that select a field of the page.
-/

namespace PageQuery.Selector

open Script

/-- the path that a callback selects -/
def pathOfExpr? (e : Expr) : Option (List String) :=
  e.lambda?.bind fun l => l.2.path? l.1

/-- the path that an argument selects -/
def pathOf (a : Arg) : Except QueryError (List String) := do
  match pathOfExpr? (← a.expr) with
  | some path => .ok path
  | none => .error (.notASelector a.text)

/-- the text of a path -/
def pathText (path : List String) : String := String.intercalate "." path

/-- the key that an argument selects -/
def key (a : Arg) : Except QueryError String := do pure (pathText (← pathOf a))

/-- the single field that an argument selects -/
def singleField (a : Arg) : Except QueryError String := do
  match ← pathOf a with
  | [n] => .ok n
  | path => .error (.notASingleField (pathText path))

end PageQuery.Selector
