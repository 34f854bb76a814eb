import PageQuery.Json.Value

/-!
JSON documents as they are written: every member of an object in its place, also one whose key was
there before, and strings and numbers that hold no value marked as such.

`Document.read` accepts a text that holds exactly one document; `Document.value?` is the value of a
document, if all its parts have one.
-/

namespace PageQuery

inductive Document where
  | null
  | bool (value : Bool)
  /-- none if the number exceeds the doubles -/
  | number (value : Option JsonNumber)
  /-- none if a surrogate stands without its partner -/
  | string (value : Option String)
  | array (items : List Document)
  | object (members : List (Option String × Document))

namespace Document

/-! ### Values -/

mutual
/-- the value of a document: of a repeated key the first place and the last value -/
def value? : Document → Option Json
  | .null => some .null
  | .bool b => some (.bool b)
  | .number n => n.map .number
  | .string s => s.map .string
  | .array items => (itemValues? items).map .array
  | .object members => (memberValues? [] members).map .object
def itemValues? : List Document → Option (List Json)
  | [] => some []
  | d :: ds => do
    let v ← value? d
    let vs ← itemValues? ds
    pure (v :: vs)
def memberValues? (before : List (String × Json)) :
    List (Option String × Document) → Option (List (String × Json))
  | [] => some before
  | (k, d) :: ms => do
    let key ← k
    let v ← value? d
    memberValues? (Json.setMember key v before) ms
end

mutual
/-- how many arrays and objects lie within one another -/
def depth : Document → Nat
  | .array items => 1 + itemsDepth items
  | .object members => 1 + membersDepth members
  | _ => 0
def itemsDepth : List Document → Nat
  | [] => 0
  | d :: ds => max (depth d) (itemsDepth ds)
def membersDepth : List (Option String × Document) → Nat
  | [] => 0
  | (_, d) :: ms => max (depth d) (membersDepth ms)
end

mutual
/-- the document that writes a value -/
def ofJson : Json → Document
  | .null => .null
  | .bool b => .bool b
  | .number n => .number (some n)
  | .string s => .string (some s)
  | .array items => .array (ofItems items)
  | .object members => .object (ofMembers members)
def ofItems : List Json → List Document
  | [] => []
  | v :: vs => ofJson v :: ofItems vs
def ofMembers : List (String × Json) → List (Option String × Document)
  | [] => []
  | (k, v) :: ms => (some k, ofJson v) :: ofMembers ms
end

/-! ### Numbers

A number keeps the leading digits that fit 64 bits, and takes its power of ten in one rounded
product or quotient.
-/

/-- takes digits while the number stays below `2 ^ 64`: the number and the digits left over -/
def takeDigits (n : Nat) : List Char → Nat × List Char
  | [] => (n, [])
  | c :: cs =>
    let next := n * 10 + (c.toNat - '0'.toNat)
    if next < Nat.pow 2 64 then takeDigits next cs else (n, c :: cs)

/-- `± n · 10 ^ e`, none if it exceeds the doubles -/
def scaleNumber (negative : Bool) (n : Nat) (e : Int) : Option Binary64 :=
  let x := Binary64.ofNat n
  let power := fun k : Nat => Binary64.ofDecimal false 1 k
  let magnitude : Option Binary64 :=
    if n == 0 then some .zero
    else if 308 < e then none
    else if 0 ≤ e then
      let y := x.mul (power e.toNat)
      if y.isInfinite then none else some y
    else if -308 ≤ e then some (x.div (power (-e).toNat))
    else if -616 ≤ e then some ((x.div (power 308)).div (power (-e - 308).toNat))
    else some .zero
  magnitude.map fun y => if negative then y.neg else y

/-- the number with these digits before and after the point and this exponent -/
def numberValue (negative : Bool) (whole : List Char) (fraction : Option (List Char))
    (exponent : Option Int) : Option JsonNumber :=
  let (n, left) := takeDigits 0 whole
  match fraction, exponent with
  | none, none =>
    if !left.isEmpty then (scaleNumber negative n left.length).map .double
    else if !negative then some (.integer n)
    else if 0 < n && n ≤ Nat.pow 2 63 then some (.integer (-n))
    else some (.double (Binary64.ofNat n).neg)
  | _, _ =>
    let digits := fraction.getD []
    let (m, unused) := takeDigits n digits
    let places : Int := digits.length - unused.length
    (scaleNumber negative m (left.length - places + exponent.getD 0)).map .double

/-- one digit or more, and what follows them -/
def readDigits (cs : List Char) : Option (List Char × List Char) :=
  let digits := cs.takeWhile Char.isDigit
  if digits.isEmpty then none else some (digits, cs.dropWhile Char.isDigit)

/-- a fraction, if there is a point -/
def readFraction : List Char → Option (Option (List Char) × List Char)
  | '.' :: cs => (readDigits cs).map fun r => (some r.1, r.2)
  | cs => some (none, cs)

/-- the digits of an exponent behind its sign -/
def readExponentDigits (negative : Bool) (cs : List Char) : Option (Option Int × List Char) :=
  (readDigits cs).map fun r =>
    let n : Int := r.1.foldl (fun n c => n * 10 + (c.toNat - '0'.toNat)) 0
    (some (if negative then -n else n), r.2)

/-- an exponent, if there is its letter -/
def readExponent : List Char → Option (Option Int × List Char)
  | c :: cs =>
    if c == 'e' || c == 'E' then
      match cs with
      | '-' :: rest => readExponentDigits true rest
      | '+' :: rest => readExponentDigits false rest
      | _ => readExponentDigits false cs
    else some (none, c :: cs)
  | [] => some (none, [])

/-- a number behind its sign: no zero stands before another digit -/
def readNumber (negative : Bool) (cs : List Char) : Option (Document × List Char) := do
  let (whole, rest) ← readDigits cs
  if whole.head? == some '0' && whole.length != 1 then none
  let (fraction, rest) ← readFraction rest
  let (exponent, rest) ← readExponent rest
  pure (.number (numberValue negative whole fraction exponent), rest)

/-! ### Strings -/

/-- a part of a string: a character, or a code unit written in hexadecimal -/
inductive StringPart where
  | char (c : Char)
  | unit (n : Nat)

/-- the value of a hexadecimal digit -/
def hexValue? (c : Char) : Option Nat :=
  if c.isDigit then some (c.toNat - '0'.toNat)
  else if 'a' ≤ c && c ≤ 'f' then some (c.toNat - 'a'.toNat + 10)
  else if 'A' ≤ c && c ≤ 'F' then some (c.toNat - 'A'.toNat + 10)
  else none

/-- the parts of a string behind its opening quote, and what follows the closing one -/
def readString : List Char → Option (List StringPart × List Char)
  | [] => none
  | '"' :: cs => some ([], cs)
  | '\\' :: 'u' :: a :: b :: c :: d :: cs => do
    let n := (← hexValue? a) * 4096 + (← hexValue? b) * 256 + (← hexValue? c) * 16 + (← hexValue? d)
    (readString cs).map fun r => (.unit n :: r.1, r.2)
  | '\\' :: c :: cs => do
    let e ← match c with
      | '"' => some '"'
      | '\\' => some '\\'
      | '/' => some '/'
      | 'b' => some '\x08'
      | 'f' => some '\x0c'
      | 'n' => some '\n'
      | 'r' => some '\r'
      | 't' => some '\t'
      | _ => none
    (readString cs).map fun r => (.char e :: r.1, r.2)
  | c :: cs =>
    if c.toNat < 0x20 || c == '\\' then none
    else (readString cs).map fun r => (.char c :: r.1, r.2)

/-- the text of the parts: a high surrogate needs a low one behind it, and a low one a high one
before it -/
def textOfParts : List StringPart → Option (List Char)
  | [] => some []
  | .char c :: ps => (textOfParts ps).map (c :: ·)
  | .unit n :: ps =>
    if 0xD800 ≤ n && n < 0xDC00 then
      match ps with
      | .unit m :: rest =>
        if 0xDC00 ≤ m && m < 0xE000 then
          (textOfParts rest).map
            (Char.ofNat (0x10000 + (n - 0xD800) * 0x400 + (m - 0xDC00)) :: ·)
        else none
      | _ => none
    else if 0xDC00 ≤ n && n < 0xE000 then none
    else (textOfParts ps).map (Char.ofNat n :: ·)

/-- the text of a string behind its opening quote -/
def readText (cs : List Char) : Option (Option String × List Char) :=
  (readString cs).map fun r => ((textOfParts r.1).map String.ofList, r.2)

/-! ### Documents -/

/-- a blank of a document -/
def isSpace (c : Char) : Bool := c == ' ' || c == '\n' || c == '\r' || c == '\t'

def skipSpace (cs : List Char) : List Char := cs.dropWhile isSpace

/-- what follows the word, if the text begins with it -/
def readWord : List Char → List Char → Option (List Char)
  | [], cs => some cs
  | w :: ws, c :: cs => if w == c then readWord ws cs else none
  | _ :: _, [] => none

mutual
/-- one document at the head of the text, blanks before it aside; no more than `fuel` deep -/
def readValue : Nat → List Char → Option (Document × List Char)
  | 0, _ => none
  | fuel + 1, cs =>
    match skipSpace cs with
    | '"' :: rest => (readText rest).map fun r => (.string r.1, r.2)
    | '-' :: rest => readNumber true rest
    | '[' :: rest =>
      match skipSpace rest with
      | ']' :: after => some (.array [], after)
      | _ => (readItems fuel rest).map fun r => (.array r.1, r.2)
    | '\x7b' :: rest =>
      match skipSpace rest with
      | '\x7d' :: after => some (.object [], after)
      | _ => (readMembers fuel rest).map fun r => (.object r.1, r.2)
    | 'n' :: rest => (readWord "ull".toList rest).map fun r => (.null, r)
    | 't' :: rest => (readWord "rue".toList rest).map fun r => (.bool true, r)
    | 'f' :: rest => (readWord "alse".toList rest).map fun r => (.bool false, r)
    | rest => readNumber false rest
/-- the items of an array up to its closing bracket -/
def readItems : Nat → List Char → Option (List Document × List Char)
  | 0, _ => none
  | fuel + 1, cs => do
    let (d, rest) ← readValue fuel cs
    match skipSpace rest with
    | ',' :: rest => (readItems fuel rest).map fun r => (d :: r.1, r.2)
    | ']' :: rest => some ([d], rest)
    | _ => none
/-- the members of an object up to its closing brace -/
def readMembers : Nat → List Char → Option (List (Option String × Document) × List Char)
  | 0, _ => none
  | fuel + 1, cs =>
    match skipSpace cs with
    | '"' :: rest => do
      let (key, rest) ← readText rest
      match skipSpace rest with
      | ':' :: rest =>
        let (d, rest) ← readValue fuel rest
        match skipSpace rest with
        | ',' :: rest => (readMembers fuel rest).map fun r => ((key, d) :: r.1, r.2)
        | '\x7d' :: rest => some ([(key, d)], rest)
        | _ => none
      | _ => none
    | _ => none
end

/-- the document that the text holds, with nothing but blanks around it -/
def read (s : String) : Option Document :=
  let cs := s.toList
  match readValue (2 * cs.length + 1) cs with
  | some (d, rest) => if (skipSpace rest).isEmpty then some d else none
  | none => none

end Document

end PageQuery
