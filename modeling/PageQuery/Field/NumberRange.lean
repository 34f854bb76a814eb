import PageQuery.Number.Layout

/-!
The numbers from a least one to a greatest one in steps, as doubles: every number is the rounded sum
of the one before it and the step.
-/

namespace PageQuery.NumberRange

/-- how many numbers a range may have -/
def maxCount : Nat := 10000

inductive Fault where
  | notNumbers
  | stepNotPositive
  | minAboveMax
  | tooMany
deriving DecidableEq

def Fault.message : Fault → String
  | notNumbers => "min, max and step must all be numbers"
  | stepNotPositive => "step must be positive"
  | minAboveMax => "min is greater than max"
  | tooMany => "range produces too many values"

/-- the number and those that follow it in steps -/
def steps (step : Binary64) : Nat → Binary64 → List Binary64
  | 0, _ => []
  | n + 1, x => x :: steps step n (x.add step)

/-- how many steps fit between the ends, none if they are beyond all bounds -/
def stepCount? (min max step : Binary64) : Option Nat :=
  let q := (max.sub min).div step
  if q.isFinite then some q.wholePart else none

/-- the numbers of a range -/
def numbers (min max step : Binary64) : Except Fault (List Binary64) :=
  if Binary64.le step .zero then .error .stepNotPositive
  else if Binary64.lt max min then .error .minAboveMax
  else match stepCount? min max step with
    | none => .error .tooMany
    | some n => if maxCount < n + 1 then .error .tooMany else .ok (steps step (n + 1) min)

/-- the texts of the numbers of a range -/
def texts (min max step : Option Binary64) : Except Fault (List String) :=
  match min, max, step with
  | some min, some max, some step => (numbers min max step).map (·.map Number.scriptText)
  | _, _, _ => .error .notNumbers

end PageQuery.NumberRange
