/-
  Capability.Backoff — how long to wait between attempts.
-/

import Capability.Duration

namespace Capability

open Json Json.Decode

/-- A waiting policy. -/
inductive Backoff where
  | none
  /-- The same wait before every retry. -/
  | fixed (delay : Duration)
  /-- The wait doubles with every retry, up to a longest one. -/
  | exponential (base max : Duration)
  deriving DecidableEq, Repr

namespace Backoff

/-- Half a second, one second, two seconds and so on, thirty seconds at most. -/
def default : Backoff := .exponential (.ofMillis 500) (.ofMillis 30000)

instance : Inhabited Backoff := ⟨default⟩

/-- Doublings after this many do not lengthen a wait any more. -/
def mostDoublings : Nat := 31

/-- The wait after a failed attempt, counted from zero. -/
def delay : Backoff → Nat → Duration
  | .none, _ => .zero
  | .fixed delay, _ => delay
  | .exponential base max, attempt => (base.scale (2 ^ min attempt mostDoublings)).atMost max

def toJson : Backoff → Json
  | .none => .str "none"
  | .fixed delay => .obj [("fixed", delay.toJson)]
  | .exponential base max =>
    .obj [("exponential", .obj [("base", base.toJson), ("max", max.toJson)])]

def decoder : Decoder Backoff :=
  variant
    (fun name => if name = "none" then .ok .none else .error .mismatch)
    (fun name d => match name with
      | "none" => match d with
        | .null => .ok .none
        | d => .error (unexpected d)
      | "fixed" => .fixed <$> Duration.decoder d
      | "exponential" => do
        let (base, max) ← record
          [required ["base"] Duration.decoder (fun v p => (v, p.2)),
           required ["max"] Duration.decoder (fun v p => (p.1, v))] (.zero, .zero) d
        .ok (.exponential base max)
      | _ => .error .mismatch)

end Backoff

end Capability
