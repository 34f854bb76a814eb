import PageQuery.Json.Value

/-!
The values of an object in the order of a script: members with an array index for a key come first,
by ascending index, and then all others in their order.
-/

namespace PageQuery.ValuesList

/-- the array index that a key is: a whole number below `2 ^ 32 - 1` without a sign or a leading zero -/
def arrayIndex? (key : String) : Option Nat :=
  let cs := key.toList
  if cs.isEmpty || !cs.all Char.isDigit then none
  else if 1 < cs.length && cs.head? == some '0' then none
  else
    let n := cs.foldl (fun n c => n * 10 + (c.toNat - '0'.toNat)) 0
    if n < Nat.pow 2 32 - 1 then some n else none

/-- a value as a candidate: a string as it is, anything else as its JSON text -/
def candidate : Json → String
  | .string s => s
  | v => v.compact

/-- the members with an array index for a key, by ascending index -/
def indexed (members : List (String × Json)) : List (Nat × Json) :=
  (members.filterMap fun m => (arrayIndex? m.1).map fun i => (i, m.2)).mergeSort
    fun a b => a.1 ≤ b.1

/-- the members with any other key -/
def named (members : List (String × Json)) : List Json :=
  members.filterMap fun m => if (arrayIndex? m.1).isSome then none else some m.2

/-- the candidates that an object lists -/
def candidates (members : List (String × Json)) : List String :=
  ((indexed members).map (·.2) ++ named members).map candidate

end PageQuery.ValuesList
