import PageQuery.Script.Source

/-!
Why a text is no page query that can be lowered.
-/

namespace PageQuery

inductive QueryError where
  | unreadable (fault : Script.Fault)
  | notAChain (found : String)
  | notAMethodCall (offset : Nat)
  | templateArgument
  /-- the root method is not the first one called -/
  | rootNotFirst (method : String)
  | unknownMethod (method : String)
  | argumentCount (method : String) (count : Nat)
  | notAPredicate (text : String)
  | notAComparison (op : Script.BinaryOp)
  | callWithoutMethod
  | methodInPredicate (method : String) (count : Nat)
  | notACondition (found : String)
  | notAField (parameter : String)
  | negatedNonLiteral
  | notAnOperand (found : String)
  | notASelector (text : String)
  | notASingleField (path : String)
  | sortDirection (text : String)
  | sortArguments (count : Nat)
deriving DecidableEq

namespace QueryError

/-- the three kinds of errors -/
inductive Kind where
  | grammar
  | shape
  | method
deriving DecidableEq

def kind : QueryError → Kind
  | unreadable .notSingle => .shape
  | unreadable _ => .grammar
  | rootNotFirst _ => .method
  | unknownMethod _ => .method
  | _ => .shape

/-- what is wrong with a text that is no script of one expression; nothing is said about grammar -/
def faultText? : Script.Fault → Option String
  | .ungrammatical _ => none
  | .tooLong o => some s!"syntax error at offset {o}: expression is longer than 2048 tokens"
  | .tooDeep o => some s!"syntax error at offset {o}: expression nests deeper than 64 levels"
  | .empty o => some s!"syntax error at offset {o}: expected an expression"
  | .notSingle => some "unsupported shape: expected a single expression"

/-- the part of a message behind its kind -/
def reason : QueryError → String
  | unreadable _ => ""
  | notAChain found => s!"expected a method call chain, found {found}"
  | notAMethodCall offset => s!"call at offset {offset} is not a method call"
  | templateArgument => "template substitutions are not supported"
  | rootNotFirst method => s!"'{method}' may only open the chain"
  | unknownMethod method => method
  | argumentCount method count => s!"'{method}' takes exactly one argument, found {count}"
  | notAPredicate text => s!"predicate must be a single-parameter arrow function: {text}"
  | notAComparison op => s!"operator '\"{op.symbol}\"' is not a comparison"
  | callWithoutMethod => "only method calls are supported"
  | methodInPredicate method count => s!"method '{method}' with {count} argument(s) in predicate"
  | notACondition found => s!"{found} is not a condition"
  | notAField parameter => s!"member access is not a field of '{parameter}'"
  | negatedNonLiteral => "negation of a non-literal"
  | notAnOperand found => s!"{found} is not a field or literal"
  | notASelector text => s!"expected a field selector like `p => p.field`, found `{text}`"
  | notASingleField path => s!"flatMap selector must name a single field, found '{path}'"
  | sortDirection text => s!"sort direction must be \"asc\" or \"desc\", found '{text}'"
  | sortArguments count =>
    s!"'sort' takes a key selector and an optional direction, found {count} arguments"

/-- the whole message; none where the grammar has no place for a token -/
def message? : QueryError → Option String
  | unreadable fault => faultText? fault
  | e =>
    match e.kind with
    | .method => some ("unsupported method: " ++ e.reason)
    | _ => some ("unsupported shape: " ++ e.reason)

end QueryError

end PageQuery
