/-
  Capability.Condition.Number — the numbers conditions compute with are doubles; a whole
  one below 9 · 10^15 is shown as an integer, and only finite ones are values.
-/

import Capability.Json.Value
import Capability.Decimal.Layout

namespace Capability.Condition

/-- A whole number small enough to be kept as an integer. -/
def wholeNumber? (x : Float) : Option Int := do
  let n ← (← Decimal.Dyadic.ofFloat x).toInt?
  if n.natAbs < 9 * 10 ^ 15 then some n else none

/-- The value of a computed number, unless it is infinite or no number. -/
def numberValue (x : Float) : Option Json :=
  match wholeNumber? x with
  | some n => some (.int n)
  | none => if x.isFinite then some (.float x) else none

/-- The message for a number that is no value. -/
def nonFiniteMessage (x : Float) : String :=
  "arithmetic produced a non-finite number ("
    ++ (if x.isNaN then "NaN" else if x < 0.0 then "-inf" else "inf") ++ ")"

end Capability.Condition
