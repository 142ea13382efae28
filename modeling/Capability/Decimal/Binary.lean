/-
  Capability.Decimal.Binary — the exact value of a finite double, m · 2^q with a sign,
  and the operations that need it: the remainder of a division, the double of an exactly
  representable value and the whole number a double is.
-/

namespace Capability

/-- Powers of numbers, the same whatever other powers are known. -/
@[default_instance high]
instance (priority := high) powOfNumber {α : Type} [NatPow α] : Pow α Nat := instPowNat

namespace Decimal

/-- The number (-1)^negative · mantissa · 2^exponent. -/
structure Dyadic where
  negative : Bool
  mantissa : Nat
  exponent : Int
  deriving DecidableEq, Repr

namespace Dyadic

/-- The value of a double, unless it is infinite or no number. -/
def ofFloat (x : Float) : Option Dyadic :=
  let bits : Nat := x.toBits.toNat
  let scale : Nat := bits / 2 ^ 52 % 2 ^ 11
  let fraction : Nat := bits % 2 ^ 52
  let negative := 2 ^ 63 ≤ bits
  if scale = 2047 then none
  else if scale = 0 then some ⟨negative, fraction, -1074⟩
  else some ⟨negative, 2 ^ 52 + fraction, (scale : Int) - 1075⟩

/-- The double with this value, if one has it; digits below its last place are dropped. -/
def toFloat (d : Dyadic) : Float :=
  let sign : Nat := if d.negative then 2 ^ 63 else 0
  if d.mantissa = 0 then Float.ofBits sign.toUInt64
  else
    let place := max (d.exponent + (d.mantissa.log2 : Int) - 52) (-1074)
    let m :=
      if place ≤ d.exponent then d.mantissa * 2 ^ (d.exponent - place).toNat
      else d.mantissa / 2 ^ (place - d.exponent).toNat
    let magnitude := if m < 2 ^ 52 then m else ((place + 1074).toNat + 1) * 2 ^ 52 + (m - 2 ^ 52)
    Float.ofBits (sign + magnitude).toUInt64

/-- The whole number with this value, if there is one. -/
def toInt? (d : Dyadic) : Option Int :=
  let sign : Int := if d.negative then -1 else 1
  let unit : Nat := 2 ^ d.exponent.natAbs
  if 0 ≤ d.exponent then some (sign * (d.mantissa * unit : Nat))
  else if unit ∣ d.mantissa then some (sign * (d.mantissa / unit : Nat))
  else none

/-- What is left of `a` after taking off `b` a whole number of times towards zero; it has
    the sign of `a`. -/
def rem (a b : Dyadic) : Dyadic :=
  let place := min a.exponent b.exponent
  let widen (d : Dyadic) : Nat := d.mantissa * 2 ^ (d.exponent - place).toNat
  ⟨a.negative, widen a % widen b, place⟩

end Dyadic

/-- The exact remainder of two doubles, not a number where the quotient is none. -/
def floatRem (a b : Float) : Float :=
  match Dyadic.ofFloat a, Dyadic.ofFloat b with
  | some x, some y => if y.mantissa = 0 then 0.0 / 0.0 else (x.rem y).toFloat
  | some _, none => if b.isNaN then b else a
  | none, _ => 0.0 / 0.0

/-- The double nearest to `digits` · 10^`power`, infinite beyond the largest one. Powers
    that decide the answer by themselves are not computed. -/
def nearest (digits : Nat) (power : Int) : Float :=
  let magnitude := (Nat.toDigits 10 digits).length + power
  if digits = 0 || magnitude < -400 then 0.0
  else if magnitude > 400 then 1.0 / 0.0
  else if 0 ≤ power then Float.ofScientific digits false power.toNat
  else Float.ofScientific digits true (-power).toNat

end Decimal

end Capability
