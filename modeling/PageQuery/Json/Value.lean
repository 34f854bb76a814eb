import PageQuery.Number.Layout

/-!
JSON values and their compact text.

The members of an object keep their order and have different keys.  A number is a whole number of
64 bits, with or without a sign, or else a double.
-/

namespace PageQuery

inductive JsonNumber where
  | integer (value : Int)
  | double (value : Binary64)
deriving DecidableEq

/-- the double nearest to the number -/
def JsonNumber.toDouble : JsonNumber → Binary64
  | .integer n => Binary64.ofRatio (decide (n < 0)) (n.natAbs * Binary64.unitsPerOne) 1
  | .double x => x

/-- the text of the number -/
def JsonNumber.chars : JsonNumber → List Char
  | .integer n =>
    if n < 0 then '-' :: Number.digitChars n.natAbs else Number.digitChars n.natAbs
  | .double x => (Number.documentText x).toList

inductive Json where
  | null
  | bool (value : Bool)
  | number (value : JsonNumber)
  | string (value : String)
  | array (items : List Json)
  | object (members : List (String × Json))

namespace Json

/-- the lower case hexadecimal digit of a number below sixteen -/
def hexDigit (n : Nat) : Char :=
  if n < 10 then Char.ofNat ('0'.toNat + n) else Char.ofNat ('a'.toNat + n - 10)

/-- a character as it stands inside a string: a quote, a backslash and the control characters are
escaped -/
def escapeChar (c : Char) : List Char :=
  if c == '"' then ['\\', '"']
  else if c == '\\' then ['\\', '\\']
  else if c == '\n' then ['\\', 'n']
  else if c == '\r' then ['\\', 'r']
  else if c == '\t' then ['\\', 't']
  else if c == '\x08' then ['\\', 'b']
  else if c == '\x0c' then ['\\', 'f']
  else if c.toNat < 0x20 then ['\\', 'u', '0', '0', hexDigit (c.toNat / 16), hexDigit (c.toNat % 16)]
  else [c]

/-- a text as a string of a document -/
def stringChars (s : String) : List Char :=
  '"' :: s.toList.flatMap escapeChar ++ ['"']

/-- the truth value's name -/
def boolChars (b : Bool) : List Char :=
  if b then "true".toList else "false".toList

mutual
/-- the text of a value, without blanks -/
def chars : Json → List Char
  | .null => "null".toList
  | .bool b => boolChars b
  | .number n => n.chars
  | .string s => stringChars s
  | .array items => '[' :: itemsChars true items ++ [']']
  | .object members => '\x7b' :: membersChars true members ++ ['\x7d']
/-- the items, each but the first behind a comma -/
def itemsChars (first : Bool) : List Json → List Char
  | [] => []
  | v :: vs => (if first then [] else [',']) ++ chars v ++ itemsChars false vs
/-- the members, each but the first behind a comma -/
def membersChars (first : Bool) : List (String × Json) → List Char
  | [] => []
  | (k, v) :: ms =>
    (if first then [] else [',']) ++ stringChars k ++ ':' :: chars v ++ membersChars false ms
end

/-- the text of a value, without blanks -/
def compact (v : Json) : String := String.ofList v.chars

/-- the value of a key of an object -/
def get? (key : String) : Json → Option Json
  | .object members => members.lookup key
  | _ => none

def string? : Json → Option String
  | .string s => some s
  | _ => none

def object? : Json → Option (List (String × Json))
  | .object members => some members
  | _ => none

def number? : Json → Option JsonNumber
  | .number n => some n
  | _ => none

/-- an object's members after one more: a key that is there keeps its place and takes the value -/
def setMember (key : String) (value : Json) : List (String × Json) → List (String × Json)
  | [] => [(key, value)]
  | (k, v) :: ms => if k == key then (k, value) :: ms else (k, v) :: setMember key value ms

end Json

end PageQuery
