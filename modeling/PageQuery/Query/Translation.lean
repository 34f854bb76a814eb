import PageQuery.Query.Condition
import PageQuery.Query.Selector
import PageQuery.Query.Clauses
import PageQuery.Number.Numeral

/-!
Chains lowered to queries.

Every call is lowered on its own, and all of them or none; the clauses of one kind are collected in
the order of the calls, and of what there is only one, the last one stays.
-/

namespace PageQuery

/-- what a call adds to a query -/
inductive Clause where
  | condition (text : String)
  | listed (path : String)
  | flatten (field : String)
  | sort (key : SortKey)
  | limit (count : Nat)
  /-- a limit that is no number, by the text of its argument -/
  | ignoredLimit (text : String)
deriving DecidableEq

namespace Clause

/-- the only argument of a call -/
def soleArgument (c : MethodCall) : Except QueryError Arg :=
  match c.args with
  | [a] => .ok a
  | args => .error (.argumentCount c.method args.length)

def directionOf (text : String) : Except QueryError Direction :=
  match text with
  | "asc" => .ok .ascending
  | "desc" => .ok .descending
  | other => .error (.sortDirection other)

/-- the key and the direction of a sorting call -/
def sortKeyOf (args : List Arg) : Except QueryError SortKey :=
  match args with
  | [k] => do pure ⟨← Selector.key k, .ascending⟩
  | [k, d] => do
    let direction ← directionOf d.text
    pure ⟨← Selector.key k, direction⟩
  | args => .error (.sortArguments args.length)

def conditionOf (c : MethodCall) : Except QueryError Clause := do
  pure (.condition (← Condition.ofArg (← soleArgument c)).fragment)

def limitOf (args : List Arg) : Clause :=
  let text := (args.head?.map (·.text)).getD ""
  match args.head?.bind fun a => Number.limitOfText? a.text with
  | some n => .limit n
  | none => .ignoredLimit text

/-- what a call adds to a query -/
def ofCall (c : MethodCall) : Except QueryError Clause :=
  match c.method with
  | "where" => conditionOf c
  | "filter" => conditionOf c
  | "map" => do pure (.listed (← Selector.key (← soleArgument c)))
  | "flatMap" => do pure (.flatten (← Selector.singleField (← soleArgument c)))
  | "sort" => do pure (.sort (← sortKeyOf c.args))
  | "sortDesc" => do pure (.sort ⟨← Selector.key (← soleArgument c), .descending⟩)
  | "limit" => .ok (limitOf c.args)
  | other => .error (.unknownMethod other)

def condition? : Clause → Option String
  | condition t => some t
  | _ => none

def listed? : Clause → Option String
  | listed p => some p
  | _ => none

def flatten? : Clause → Option String
  | flatten f => some f
  | _ => none

def sort? : Clause → Option SortKey
  | sort k => some k
  | _ => none

def limit? : Clause → Option Nat
  | limit n => some n
  | _ => none

/-- the warning that a clause gives rise to -/
def warning? : Clause → Option String
  | ignoredLimit text =>
    some s!"limit argument '{text}' is not a finite number; no LIMIT emitted"
  | _ => none

end Clause

/-- the pages a chain starts from: all pages with a tag, or a source of pages -/
def Clauses.ofRoot (d : Dialect) (source : String) : Clauses :=
  let root := Text.trim source
  match root.toList with
  | [] => {}
  | c :: _ => if c == d.sigil then { conditions := [(Condition.hasTag root).fragment] }
    else { pages := root }

/-- the clauses of a query, those of the root first -/
def Clauses.collect (root : Clauses) (cs : List Clause) : Clauses where
  pages := root.pages
  listed := (cs.filterMap Clause.listed?).getLast?
  conditions := root.conditions ++ cs.filterMap Clause.condition?
  sorts := cs.filterMap Clause.sort?
  flattens := cs.filterMap Clause.flatten?
  limit := (cs.filterMap Clause.limit?).getLast?

structure Translation where
  query : String
  clauses : Clauses
  chain : Chain
  warnings : List String

namespace Translation

/-- the query that a chain is lowered to -/
def ofChain (chain : Chain) (d : Dialect) : Except QueryError Translation := do
  let cs ← chain.calls.mapM Clause.ofCall
  let clauses := Clauses.collect (Clauses.ofRoot d chain.source) cs
  pure ⟨clauses.render, clauses, chain, cs.filterMap Clause.warning?⟩

/-- the query that the text of a page query is lowered to -/
def ofText (text : String) (d : Dialect) : Except QueryError Translation := do
  ofChain (← Chain.read text d) d

/-- the text of the query, none if there is an error -/
def query? (text : String) (d : Dialect) : Option String :=
  match ofText text d with
  | .ok t => some t.query
  | .error _ => none

end Translation

/-! ### Documents -/

namespace Chain

def argOf? (d : Document) : Option Arg := do
  let r ← Record.ofDocument? ["text"] d
  pure { text := ← (← r.field? 0).text? }

def callOf? (d : Document) : Option MethodCall := do
  let r ← Record.ofDocument? ["method", "args"] d
  pure ⟨← (← r.field? 0).text?, ← (← r.field? 1).list? argOf?⟩

/-- the chain that a document lists; its arguments are read again from their texts -/
def ofDocument? (d : Document) : Option Chain := do
  let r ← Record.ofDocument? ["source", "methods"] d
  pure ⟨← (← r.field? 0).text?, ← (← r.field? 1).list? callOf?⟩

end Chain

/-- the dialect that a document sets, what it leaves out as usual -/
def Dialect.ofDocument? (d : Document) : Option Dialect := do
  let r ← Record.ofDocument? ["rootAccessor", "tagSigil"] d
  let root ← match r.field? 0 with
    | none => some ({} : Dialect).root
    | some v => v.text?
  let sigil ← match r.field? 1 with
    | none => some ({} : Dialect).sigil
    | some v => v.text?.bind fun s =>
      match s.toList with
      | [c] => some c
      | _ => none
  pure ⟨root, sigil⟩

end PageQuery
