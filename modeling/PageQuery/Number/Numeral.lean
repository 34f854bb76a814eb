import PageQuery.Number.Binary64
import PageQuery.Text.Blank

/-!
Numerals in the text of an argument: decimal ones with an optional sign, point and exponent, and
whole ones in hexadecimal, octal or binary.
-/

namespace PageQuery.Number

open PageQuery.Text

/-- the value of a digit of any radix up to sixteen -/
def digitValue (c : Char) : Nat :=
  if c.isDigit then c.toNat - '0'.toNat
  else if 'a' ≤ c && c ≤ 'f' then c.toNat - 'a'.toNat + 10
  else if 'A' ≤ c && c ≤ 'F' then c.toNat - 'A'.toNat + 10
  else 16

/-- the number that the digits write in a radix -/
def digitsValue (radix : Nat) (cs : List Char) : Nat :=
  cs.foldl (fun n c => n * radix + digitValue c) 0

/-- a whole number of 64 bits in digits of a radix, after an optional plus sign -/
def radixValue (radix : Nat) (cs : List Char) : Option Nat :=
  let digits := match cs with
    | '+' :: rest => rest
    | _ => cs
  if digits.isEmpty || !digits.all (digitValue · < radix) then none
  else
    let n := digitsValue radix digits
    if n < Nat.pow 2 64 then some n else none

/-- cuts off a sign: whether it is a minus, and what follows -/
def splitSign : List Char → Bool × List Char
  | '-' :: cs => (true, cs)
  | '+' :: cs => (false, cs)
  | cs => (false, cs)

theorem splitSign_unsigned {cs : List Char} (hminus : ∀ ds, cs ≠ '-' :: ds)
    (hplus : ∀ ds, cs ≠ '+' :: ds) : splitSign cs = (false, cs) := by
  rw [splitSign]
  · exact hminus
  · exact hplus

/-- a decimal numeral as its sign, its digits taken as one whole number, and the power of ten -/
structure DecimalNumeral where
  negative : Bool
  digits : Nat
  exponent : Int

/-- the exponent after the letter `e`, or none written -/
def exponentValue : List Char → Option Int
  | [] => some 0
  | c :: cs =>
    if c == 'e' || c == 'E' then
      let (negative, digits) := splitSign cs
      if digits.isEmpty || !digits.all Char.isDigit then none
      else
        let n : Int := digitsValue 10 digits
        some (if negative then -n else n)
    else none

/-- a decimal numeral: at least one digit, a point anywhere among the digits, an exponent -/
def decimalNumeral? (cs : List Char) : Option DecimalNumeral :=
  let (negative, unsigned) := splitSign cs
  let whole := unsigned.takeWhile Char.isDigit
  let afterWhole := unsigned.dropWhile Char.isDigit
  let (fraction, rest) := match afterWhole with
    | '.' :: cs => (cs.takeWhile Char.isDigit, cs.dropWhile Char.isDigit)
    | _ => ([], afterWhole)
  if whole.isEmpty && fraction.isEmpty then none
  else (exponentValue rest).map fun e =>
    ⟨negative, digitsValue 10 (whole ++ fraction), e - fraction.length⟩

/-- the double nearest to a decimal numeral -/
def DecimalNumeral.toDouble (n : DecimalNumeral) : Binary64 :=
  Binary64.ofDecimal n.negative n.digits n.exponent

/-- the finite number that a text holds, blanks around it aside -/
def ofText? (s : String) : Option Binary64 :=
  match trimBlanks s.toList with
  | '0' :: 'x' :: cs => (radixValue 16 cs).map Binary64.ofNat
  | '0' :: 'X' :: cs => (radixValue 16 cs).map Binary64.ofNat
  | '0' :: 'o' :: cs => (radixValue 8 cs).map Binary64.ofNat
  | '0' :: 'O' :: cs => (radixValue 8 cs).map Binary64.ofNat
  | '0' :: 'b' :: cs => (radixValue 2 cs).map Binary64.ofNat
  | '0' :: 'B' :: cs => (radixValue 2 cs).map Binary64.ofNat
  | cs => (decimalNumeral? cs).bind fun n =>
    let x := n.toDouble
    if x.isFinite then some x else none

/-- the greatest number a limit can hold -/
def maxLimit : Nat := Nat.pow 2 64 - 1

/-- the limit that a text asks for: a number not below zero, without its fraction -/
def limitOfText? (s : String) : Option Nat :=
  (ofText? s).bind fun x =>
    if Binary64.le .zero x then some (min x.wholePart maxLimit) else none

end PageQuery.Number
