/-
  Capability.Duration — lengths of time in whole nanoseconds, up to a longest one of
  2^64 - 1 seconds and 999999999 nanoseconds. Arithmetic stops at the longest.
-/

import Capability.Json.Decode
import Capability.Decimal.Layout

namespace Capability

/-- A length of time. -/
structure Duration where
  nanos : Nat
  le_longest : nanos ≤ (2 ^ 64 - 1) * 10 ^ 9 + 999999999 := by decide
  deriving DecidableEq, Repr

namespace Duration

/-- The longest duration in nanoseconds. -/
def longest : Nat := (2 ^ 64 - 1) * 10 ^ 9 + 999999999

/-- So many nanoseconds, or the longest duration if that is less. -/
def ofNanos (n : Nat) : Duration := ⟨min n longest, Nat.min_le_right n longest⟩

def zero : Duration := ofNanos 0

instance : Inhabited Duration := ⟨zero⟩

def ofMillis (n : Nat) : Duration := ofNanos (n * 10 ^ 6)

/-- So many times the duration, the longest one at most. -/
def scale (d : Duration) (factor : Nat) : Duration := ofNanos (d.nanos * factor)

/-- The shorter of two durations. -/
def atMost (d bound : Duration) : Duration := if bound.nanos < d.nanos then bound else d

/-- Whole milliseconds, as a number of 64 bits. -/
def millis (d : Duration) : Nat := d.nanos / 10 ^ 6 % 2 ^ 64

/-- Thirty years in milliseconds. -/
def farFuture : Nat := 30 * 365 * 24 * 60 * 60 * 1000

/-- The length, in nanoseconds, from which on a timer would be due past the last second of a
    clock: its seconds are counted up to 2^63, and it has been running for a while. -/
def unreachable : Nat := (2 ^ 63 - 2 ^ 16) * 10 ^ 9

/-- When a timer of this length is due, in milliseconds, a started one counted in full. What
    a clock cannot reach counts as thirty years. -/
def ticks (d : Duration) : Nat :=
  if unreachable ≤ d.nanos then farFuture else (d.nanos + (10 ^ 6 - 1)) / 10 ^ 6

/-- A number of seconds rounded to the nearest nanosecond, a half to the even one; none if
    it is negative, not a number or beyond the longest duration. -/
def ofSeconds? (x : Float) : Option Duration :=
  match Decimal.Dyadic.ofFloat x with
  | none => none
  | some d =>
    if d.negative ∧ d.mantissa ≠ 0 then none
    else
      let nanos :=
        Decimal.roundDiv (d.mantissa * 2 ^ d.exponent.toNat * 10 ^ 9) (2 ^ (-d.exponent).toNat)
      if nanos ≤ longest then some (ofNanos nanos) else none

/-- The seconds as a double. -/
def toSeconds (d : Duration) : Float :=
  Float.ofNat (d.nanos / 10 ^ 9) + Float.ofNat (d.nanos % 10 ^ 9) / 1000000000.0

/-- Seconds and nanoseconds as an object. -/
def toJson (d : Duration) : Json :=
  .obj [("secs", .ofNat (d.nanos / 10 ^ 9)), ("nanos", .ofNat (d.nanos % 10 ^ 9))]

/-- Reads seconds and nanoseconds; a full second of nanoseconds carries, and a sum beyond
    the longest duration is refused. -/
def decoder : Json.Decoder Duration := fun draft => do
  let (secs, nanos) ← Json.Decode.recordWith .refused
    [Json.Decode.required ["secs"] Json.Decode.nat (fun s p => (s, p.2)),
     Json.Decode.required ["nanos"] (Json.Decode.intBetween 0 (2 ^ 32 - 1)) (fun n p => (p.1, n.toNat))]
    (0, 0) draft
  if secs * 10 ^ 9 + nanos ≤ longest then .ok (ofNanos (secs * 10 ^ 9 + nanos)) else .error .mismatch

end Duration

end Capability
