import PageQuery.Number.Decimal

/-!
How a double is written: its shortest decimal, with the point among the digits or with an exponent.
-/

namespace PageQuery.Number

open Binary64

/-- the digits of a whole number, without leading zeros -/
def digitChars (n : Nat) : List Char := Nat.toDigits 10 n

/-- `n` zeros -/
def zeros (n : Nat) : List Char := List.replicate n '0'

/-- the digits with the decimal point after the first `point` of them -/
def positional (digits : List Char) (point : Int) : List Char :=
  if (digits.length : Int) ≤ point then digits ++ zeros (point - digits.length).toNat
  else if 0 < point then digits.take point.toNat ++ '.' :: digits.drop point.toNat
  else '0' :: '.' :: zeros (-point).toNat ++ digits

/-- the first digit, the others behind a point, and a power of ten -/
def scientific (digits : List Char) (point : Int) (plus : List Char) : List Char :=
  let mantissa := match digits with
    | first :: rest => if rest.isEmpty then [first] else first :: '.' :: rest
    | [] => []
  let e := point - 1
  mantissa ++ 'e' :: (if e < 0 then ['-'] else plus) ++ digitChars e.natAbs

/-- the shortest digits of a rank above zero, and how many of them stand before the point -/
def shortestDigits (tie : Decimal.Tie) (r : Nat) : List Char × Int :=
  let d := Decimal.shortest tie r
  let digits := digitChars d.digits
  (digits, d.exponent + digits.length)

/-- the sign in front of the text of a magnitude -/
def signed (negative : Bool) (cs : List Char) : String :=
  String.ofList (if negative then '-' :: cs else cs)

/-- the text of a number in a script: positional from `10 ^ (-6)` to below `10 ^ 21`, otherwise with a
signed exponent; both zeros are `0` -/
def scriptText (x : Binary64) : String :=
  if x.isNaN then "NaN"
  else if x.isInfinite then signed x.negative "Infinity".toList
  else if x.isZero then "0"
  else
    let (digits, point) := shortestDigits .upper x.rank
    signed x.negative <|
      if -6 < point && point ≤ 21 then positional digits point else scientific digits point ['+']

/-- the text of a number in a query: always positional -/
def queryText (x : Binary64) : String :=
  if !x.isFinite || x.isZero then scriptText x
  else
    let (digits, point) := shortestDigits .upper x.rank
    signed x.negative (positional digits point)

/-- the text of a double in a JSON document: positional from `10 ^ (-5)` to below `10 ^ 16` and then with
at least one digit after the point, otherwise with an exponent -/
def documentText (x : Binary64) : String :=
  if !x.isFinite then "null"
  else if x.isZero then signed x.negative "0.0".toList
  else
    let (digits, point) := shortestDigits .even x.rank
    signed x.negative <|
      if -5 < point && point ≤ 16 then
        if (digits.length : Int) ≤ point then positional digits point ++ ['.', '0']
        else positional digits point
      else scientific digits point []

end PageQuery.Number
