import PageQuery.Json.Document

/-!
Records in documents: an object whose keys are the names of the fields, or an array that holds the
fields in their order.  An object may hold other keys beside them, but no field twice.
-/

namespace PageQuery

/-- the fields of a record in their order, each if it is there -/
structure Record where
  /-- the record was an array, where a field can only be left out with all that follow it -/
  positional : Bool
  fields : List (Option Document)

namespace Record

/-- the only member with the key; none if there are several -/
def uniqueMember (key : String) (members : List (Option String × Document)) :
    Option (Option Document) :=
  match members.filter fun m => m.1 == some key with
  | [] => some none
  | [m] => some (some m.2)
  | _ => none

/-- the record with these fields that a document writes -/
def ofDocument? (names : List String) : Document → Option Record
  | .array items =>
    if items.length ≤ names.length then
      some ⟨true, items.map some ++ List.replicate (names.length - items.length) none⟩
    else none
  | .object members =>
    if members.all fun m => m.1.isSome then
      (names.mapM fun n => uniqueMember n members).map fun fs => ⟨false, fs⟩
    else none
  | _ => none

/-- the field at a place -/
def field? (r : Record) (i : Nat) : Option Document := (r.fields[i]?).join

end Record

namespace Document

def text? : Document → Option String
  | .string s => s
  | _ => none

/-- the name of a choice without contents: a string, or an object with this one key and the value
null -/
def choice? : Document → Option String
  | .string s => s
  | .object [(key, .null)] => key
  | _ => none

/-- a list of what the items write -/
def list? {α : Type} (item : Document → Option α) : Document → Option (List α)
  | .array items => items.mapM item
  | _ => none

end Document

end PageQuery
