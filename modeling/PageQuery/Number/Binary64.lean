/-!
Doubles of 64 bits with exact arithmetic.

A double is its sign and its rank among the non-negative doubles: zero has rank 0, the least
positive double rank 1, and infinity follows the greatest finite one.  Every finite double is a
whole number of units, the unit being the least positive double `2 ^ (-1074)`, so an operation is
one on whole numbers followed by `rankOfRatio`, which rounds a quotient to the nearest double and a
tie to the even rank.
-/

namespace PageQuery

/-- a double: its sign and its place among the non-negative doubles -/
structure Binary64 where
  negative : Bool
  rank : Nat
deriving DecidableEq

namespace Binary64

/-- the rank of infinity; greater ranks are not numbers -/
def infinityRank : Nat := 2047 * Nat.pow 2 52

/-- how many units make up one -/
def unitsPerOne : Nat := Nat.pow 2 1074

/-- the value of a rank in units -/
def unitsOfRank (r : Nat) : Nat :=
  if r < Nat.pow 2 52 then r
  else (Nat.pow 2 52 + r % Nat.pow 2 52) * Nat.pow 2 (r / Nat.pow 2 52 - 1)

/-- the whole number nearest to `n / d`, the even one of two -/
def divNearestEven (n d : Nat) : Nat :=
  let q := n / d
  let r := n % d
  if 2 * r < d then q else if d < 2 * r then q + 1 else q + q % 2

/-- the rank of the double nearest to `n / d` units -/
def rankOfRatio (n d : Nat) : Nat :=
  let k := (n / d).log2 - 52
  min infinityRank (k * Nat.pow 2 52 + divNearestEven n (d * Nat.pow 2 k))

def zero : Binary64 := ⟨false, 0⟩
def infinity : Binary64 := ⟨false, infinityRank⟩
def nan : Binary64 := ⟨false, infinityRank + Nat.pow 2 51⟩

def isNaN (x : Binary64) : Bool := infinityRank < x.rank
def isInfinite (x : Binary64) : Bool := x.rank == infinityRank
def isFinite (x : Binary64) : Bool := x.rank < infinityRank
def isZero (x : Binary64) : Bool := x.rank == 0

/-- the double with these 64 bits -/
def ofBits (b : Nat) : Binary64 := ⟨b / Nat.pow 2 63 % 2 == 1, b % Nat.pow 2 63⟩

/-- the 64 bits of a double -/
def toBits (x : Binary64) : Nat := (if x.negative then Nat.pow 2 63 else 0) + x.rank

/-- the magnitude of a finite double in units -/
def units (x : Binary64) : Nat := unitsOfRank x.rank

/-- the value of a finite double in units -/
def scaled (x : Binary64) : Int := if x.negative then -(x.units : Int) else x.units

/-- the double nearest to `n / d` units -/
def ofRatio (negative : Bool) (n d : Nat) : Binary64 := ⟨negative, rankOfRatio n d⟩

/-- the double nearest to a whole number -/
def ofNat (n : Nat) : Binary64 := ofRatio false (n * unitsPerOne) 1

/-- the double nearest to `± d · 10 ^ e`.  Beyond the finite doubles, and below half the least
one, the power of ten is not written out. -/
def ofDecimal (negative : Bool) (d : Nat) (e : Int) : Binary64 :=
  if d == 0 then ⟨negative, 0⟩
  else if 400 < e then ⟨negative, infinityRank⟩
  else if e + d.log2 < -400 then ⟨negative, 0⟩
  else if 0 ≤ e then ofRatio negative (d * Nat.pow 10 e.toNat * unitsPerOne) 1
  else ofRatio negative (d * unitsPerOne) (Nat.pow 10 (-e).toNat)

/-- the double with the other sign -/
def neg (x : Binary64) : Binary64 := ⟨!x.negative, x.rank⟩

/-- the rounded sum -/
def add (x y : Binary64) : Binary64 :=
  if x.isNaN || y.isNaN then nan
  else if x.isInfinite then
    if y.isInfinite && x.negative != y.negative then nan else x
  else if y.isInfinite then y
  else
    let s := x.scaled + y.scaled
    if s == 0 then ⟨x.negative && y.negative, 0⟩ else ofRatio (decide (s < 0)) s.natAbs 1

/-- the rounded difference -/
def sub (x y : Binary64) : Binary64 := add x y.neg

/-- the rounded product -/
def mul (x y : Binary64) : Binary64 :=
  let s := x.negative != y.negative
  if x.isNaN || y.isNaN then nan
  else if x.isInfinite || y.isInfinite then
    if x.isZero || y.isZero then nan else ⟨s, infinityRank⟩
  else ofRatio s (x.units * y.units) unitsPerOne

/-- the rounded quotient -/
def div (x y : Binary64) : Binary64 :=
  let s := x.negative != y.negative
  if x.isNaN || y.isNaN then nan
  else if x.isInfinite then
    if y.isInfinite then nan else ⟨s, infinityRank⟩
  else if y.isInfinite then ⟨s, 0⟩
  else if y.isZero then
    if x.isZero then nan else ⟨s, infinityRank⟩
  else ofRatio s (x.units * unitsPerOne) y.units

/-- the place of a number in the order of all numbers, the two zeros at the same place -/
def place (x : Binary64) : Int := if x.negative then -(x.rank : Int) else x.rank

/-- the order of numbers; it does not hold when an operand is not a number -/
def lt (x y : Binary64) : Bool := !x.isNaN && !y.isNaN && x.place < y.place

/-- the order of numbers or their equality -/
def le (x y : Binary64) : Bool := !x.isNaN && !y.isNaN && x.place ≤ y.place

/-- the magnitude of a finite double without its fraction -/
def wholePart (x : Binary64) : Nat := x.units / unitsPerOne

end Binary64

end PageQuery
