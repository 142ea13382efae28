/-
  Capability.Decimal.Layout — how a double is written: shortest digits in positional or
  exponent form as a `FloatFormat` says, or a fixed number of decimal places.
-/

import Capability.Decimal.Shortest

namespace Capability.Decimal

/-- The choices of one written form of doubles. -/
structure FloatFormat where
  /-- Numbers d.ddd · 10^e are positional for `positionalFrom` ≤ e < `positionalBelow`. -/
  positionalFrom : Int
  positionalBelow : Int
  /-- A positive exponent carries a sign. -/
  signedExponent : Bool
  tie : Tie
  deriving DecidableEq, Repr

/-- The digits with a point after the first `point` of them, padded with zeros on either
    side; there is always a digit after the point. -/
def positional (digits : List Char) (point : Int) : List Char :=
  if point ≤ 0 then '0' :: '.' :: List.replicate (-point).toNat '0' ++ digits
  else
    let whole := digits.take point.toNat ++ List.replicate (point.toNat - digits.length) '0'
    let fraction := digits.drop point.toNat
    whole ++ '.' :: (if fraction.isEmpty then ['0'] else fraction)

/-- The digits as d.ddd followed by the exponent. -/
def scientific (signed : Bool) (digits : List Char) (exponent : Int) : List Char :=
  let head := digits.take 1
  let fraction := digits.drop 1
  let sign := if exponent < 0 then ['-'] else if signed then ['+'] else []
  head ++ (if fraction.isEmpty then [] else '.' :: fraction)
    ++ 'e' :: sign ++ Nat.toDigits 10 exponent.natAbs

/-- The text of a double. -/
def FloatFormat.write (format : FloatFormat) (x : Float) : String :=
  match Dyadic.ofFloat x with
  | none => if x.isNaN then "NaN" else if x < 0.0 then "-inf" else "inf"
  | some d =>
    let sign := if d.negative then ['-'] else []
    if d.mantissa = 0 then String.ofList (sign ++ ['0', '.', '0'])
    else
      let short := shortest format.tie d.mantissa d.exponent
      let digits := Nat.toDigits 10 short.digits
      let exponent := (digits.length : Int) + short.power - 1
      let body :=
        if format.positionalFrom ≤ exponent ∧ exponent < format.positionalBelow then
          positional digits (exponent + 1)
        else scientific format.signedExponent digits exponent
      String.ofList (sign ++ body)

/-- The quotient rounded to the nearest whole number, a half to the even one. -/
def roundDiv (num den : Nat) : Nat :=
  let below := num / den
  let twice := 2 * (num % den)
  if twice < den then below
  else if den < twice then below + 1
  else if below % 2 = 0 then below else below + 1

/-- The text of a double with a fixed number of places after the point. -/
def fixed (places : Nat) (x : Float) : String :=
  match Dyadic.ofFloat x with
  | none => if x.isNaN then "NaN" else if x < 0.0 then "-inf" else "inf"
  | some d =>
    let scaled :=
      roundDiv (d.mantissa * 2 ^ d.exponent.toNat * 10 ^ places) (2 ^ (-d.exponent).toNat)
    let digits := Nat.toDigits 10 scaled
    let padded := List.replicate (places + 1 - digits.length) '0' ++ digits
    let whole := padded.take (padded.length - places)
    let fraction := padded.drop (padded.length - places)
    let sign := if d.negative then ['-'] else []
    String.ofList (sign ++ whole ++ (if places = 0 then [] else '.' :: fraction))

end Capability.Decimal
