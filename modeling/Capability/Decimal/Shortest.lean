/-
  Capability.Decimal.Shortest — the fewest decimal digits that read back as the same
  double, and of those the nearest to it.

  A double m · 2^q is what every real in its rounding interval reads back as; the ends
  belong to the interval when m is even. For one digit, two digits and so on, the two
  points of the decimal grid beside the value are tried: if any point of a grid lies in
  the interval, one of these two does. Seventeen digits always suffice.
-/

import Capability.Decimal.Binary

namespace Capability.Decimal

/-- Which of two equally near grid points is taken. -/
inductive Tie where
  | toEven
  | up
  deriving DecidableEq, Repr

/-- The number `digits` · 10^`power`. -/
structure Digits where
  digits : Nat
  power : Int
  deriving DecidableEq, Repr

/-- Moves an estimate of the decimal point of num / den to the `e` with
    10^(e-1) ≤ num / den < 10^e. -/
def settlePoint (num den : Nat) : Nat → Int → Int
  | 0, e => e
  | tries + 1, e =>
    if num * 10 ^ (-e).toNat ≥ den * 10 ^ e.toNat then settlePoint num den tries (e + 1)
    else if num * 10 ^ (1 - e).toNat < den * 10 ^ (e - 1).toNat then settlePoint num den tries (e - 1)
    else e

/-- The `e` with 10^(e-1) ≤ num / den < 10^e, for positive numbers. -/
def decimalPoint (num den : Nat) : Int :=
  settlePoint num den 4 (((num.log2 : Int) - (den.log2 : Int)) * 30103 / 100000 + 1)

/-- The point of the grid 10^`power` that reads back as m · 2^q, the nearer one if both
    neighbours do. -/
def onGrid (tie : Tie) (m : Nat) (q power : Int) : Option Nat :=
  let unit := 2 ^ q.toNat * 10 ^ (-power).toNat
  let den := 2 ^ (-q).toNat * 10 ^ power.toNat
  let below := m * unit / den
  let rest := m * unit % den
  let gap := if m = 2 ^ 52 ∧ q > -1074 then 1 else 2
  let inside (c : Nat) : Bool :=
    if m % 2 = 0 then (4 * m - gap) * unit ≤ 4 * den * c && 4 * den * c ≤ (4 * m + 2) * unit
    else (4 * m - gap) * unit < 4 * den * c && 4 * den * c < (4 * m + 2) * unit
  match inside below, inside (below + 1) with
  | true, true =>
    if 2 * rest < den then some below
    else if den < 2 * rest then some (below + 1)
    else match tie with
      | .up => some (below + 1)
      | .toEven => some (if below % 2 = 0 then below else below + 1)
  | true, false => some below
  | false, true => some (below + 1)
  | false, false => none

/-- Tries grids of `count`, `count + 1`, … digits. -/
def firstGrid (tie : Tie) (m : Nat) (q point : Int) : Nat → Int → Digits
  | 0, count => ⟨m * 2 ^ q.toNat, point - count⟩
  | tries + 1, count =>
    match onGrid tie m q (point - count) with
    | some c => ⟨c, point - count⟩
    | none => firstGrid tie m q point tries (count + 1)

/-- The same number without zeros at the end of its digits. -/
def dropZeros : Nat → Digits → Digits
  | 0, d => d
  | tries + 1, d =>
    if d.digits ≠ 0 ∧ d.digits % 10 = 0 then dropZeros tries ⟨d.digits / 10, d.power + 1⟩ else d

/-- The fewest digits that read back as m · 2^q, for a positive m. -/
def shortest (tie : Tie) (m : Nat) (q : Int) : Digits :=
  let point := decimalPoint (m * 2 ^ q.toNat) (2 ^ (-q).toNat)
  dropZeros 17 (firstGrid tie m q point 17 1)

end Capability.Decimal
