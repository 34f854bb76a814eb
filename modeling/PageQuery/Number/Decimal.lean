import PageQuery.Number.Binary64

/-!
The shortest decimal of a double: of the decimals that round to it, one on the coarsest power of
ten, and of two such the nearer.

A unit is `5 ^ 1074` steps of `10 ^ (-1074)`, so all decimals in question are whole numbers of such
steps and the search runs over the grids `10 ^ q` of steps, coarsest first.
-/

namespace PageQuery

/-- the decimal `digits · 10 ^ exponent` -/
structure Decimal where
  digits : Nat
  exponent : Int
deriving DecidableEq

namespace Decimal

/-- which of two equally near decimals is taken -/
inductive Tie where
  | upper
  | even
deriving DecidableEq

/-- what rounds to one double: its value and the ends of the interval, all in half steps, and
whether the ends belong to it -/
structure Interval where
  low : Nat
  value : Nat
  high : Nat
  closed : Bool

/-- a step of `10 ^ (-1074)` is this part of a unit -/
def stepsPerUnit : Nat := Nat.pow 5 1074

/-- the decimals that round to the double of this rank -/
def Interval.ofRank (r : Nat) : Interval where
  low := (Binary64.unitsOfRank (r - 1) + Binary64.unitsOfRank r) * stepsPerUnit
  value := 2 * Binary64.unitsOfRank r * stepsPerUnit
  high := (Binary64.unitsOfRank r + Binary64.unitsOfRank (r + 1)) * stepsPerUnit
  closed := r % 2 == 0

/-- the number of half steps lies in the interval -/
def Interval.contains (i : Interval) (x : Nat) : Bool :=
  if i.closed then i.low ≤ x && x ≤ i.high else i.low < x && x < i.high

/-- the multiple of the grid that stands for the value, if one lies in the interval -/
def Interval.pick (tie : Tie) (i : Interval) (grid : Nat) : Option Nat :=
  let a := i.value / (2 * grid)
  match i.contains (2 * grid * a), i.contains (2 * grid * (a + 1)) with
  | false, false => none
  | true, false => some a
  | false, true => some (a + 1)
  | true, true =>
    let below := i.value - 2 * grid * a
    let above := 2 * grid * (a + 1) - i.value
    if below < above then some a
    else if above < below then some (a + 1)
    else match tie with
      | .upper => some (a + 1)
      | .even => some (a + a % 2)

/-- the first pick on the grids `10 ^ q`, `10 ^ (q - 1)`, …; on the grid of single steps the value
itself is one -/
def Interval.search (tie : Tie) (i : Interval) : Nat → Decimal
  | 0 => ⟨i.value / 2, -1074⟩
  | q + 1 =>
    match i.pick tie (Nat.pow 10 (q + 1)) with
    | some d => ⟨d, (q : Int) + 1 - 1074⟩
    | none => i.search tie q

/-- a grid `10 ^ q` of steps above the value of a rank -/
def coarsestGrid (r : Nat) : Nat :=
  let b := (Binary64.unitsOfRank r).log2 + 1
  if 1074 ≤ b then (b - 1074) / 3 + 1 + 1074 else 1074 - 3 * ((1074 - b) / 10)

/-- the shortest decimal that rounds to the double of a rank above zero -/
def shortest (tie : Tie) (r : Nat) : Decimal :=
  (Interval.ofRank r).search tie (coarsestGrid r)

end Decimal

end PageQuery
