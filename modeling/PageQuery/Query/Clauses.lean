import PageQuery.Json.Record

/-!
The clauses of a query and its text.
-/

namespace PageQuery

inductive Direction where
  | ascending
  | descending
deriving DecidableEq

def Direction.render : Direction → String
  | ascending => "asc"
  | descending => "desc"

structure SortKey where
  field : String
  direction : Direction
deriving DecidableEq

structure Clauses where
  /-- the source of the pages; empty means all pages -/
  pages : String := ""
  /-- what is listed instead of the page -/
  listed : Option String := none
  conditions : List String := []
  sorts : List SortKey := []
  groups : List String := []
  flattens : List String := []
  limit : Option Nat := none
deriving DecidableEq

namespace Clauses

def renderSort (k : SortKey) : String := k.field ++ " " ++ k.direction.render

/-- the texts of the clauses that are there, in the one order they are written in -/
def renderEach (c : Clauses) : List String :=
  [match c.listed with
    | some field => "LIST " ++ field
    | none => "LIST"] ++
  (if c.pages.isEmpty then [] else ["FROM " ++ c.pages]) ++
  c.flattens.map ("FLATTEN " ++ ·) ++
  (if c.conditions.isEmpty then []
    else ["WHERE " ++ String.intercalate " AND " c.conditions]) ++
  (if c.sorts.isEmpty then []
    else ["SORT " ++ String.intercalate ", " (c.sorts.map renderSort)]) ++
  (if c.groups.isEmpty then [] else ["GROUP BY " ++ String.intercalate ", " c.groups]) ++
  match c.limit with
    | some n => ["LIMIT " ++ String.ofList (Number.digitChars n)]
    | none => []

/-- the text of the query -/
def render (c : Clauses) : String := String.intercalate " " c.renderEach

/-! ### Documents -/

def directionOf? (d : Document) : Option Direction :=
  match d.choice? with
  | some "asc" => some .ascending
  | some "desc" => some .descending
  | _ => none

def sortKeyOf? (d : Document) : Option SortKey := do
  let r ← Record.ofDocument? ["field", "direction"] d
  pure ⟨← (← r.field? 0).text?, ← directionOf? (← r.field? 1)⟩

/-- what an optional field holds: null if it was left out by name -/
def optional? {α : Type} (r : Record) (i : Nat) (item : Document → Option α) : Option (Option α) :=
  match r.field? i with
  | none => if r.positional then none else some none
  | some .null => some none
  | some d => (item d).map some

/-- a whole number of 64 bits without a sign -/
def limitOf? : Document → Option Nat
  | .number (some (.integer n)) => if 0 ≤ n then some n.toNat else none
  | _ => none

/-- the clauses that a document lists -/
def ofDocument? (d : Document) : Option Clauses := do
  let r ← Record.ofDocument?
    ["from", "select", "wheres", "sorts", "groups", "flattens", "limit"] d
  pure {
    pages := ← (← r.field? 0).text?
    listed := ← optional? r 1 Document.text?
    conditions := ← (← r.field? 2).list? Document.text?
    sorts := ← (← r.field? 3).list? sortKeyOf?
    groups := ← (← r.field? 4).list? Document.text?
    flattens := ← (← r.field? 5).list? Document.text?
    limit := ← optional? r 6 limitOf? }

end Clauses

end PageQuery
