/-
  Capability.Json.Value — JSON values. A number is an integer or a double and stays what
  it was written as; the fields of an object are kept in the order of their keys.
-/

import Capability.Keyed

namespace Capability

/-- A JSON value. -/
inductive Json where
  | null
  | bool (b : Bool)
  | int (n : Int)
  | float (x : Float)
  | str (s : String)
  | arr (items : List Json)
  | obj (fields : List (String × Json))
  deriving Inhabited

namespace Json

/-- The number as a double, the nearest one for an integer; other values have none. -/
def toFloat? : Json → Option Float
  | .int n => some (Float.ofInt n)
  | .float x => some x
  | _ => none

/-- The name of a value's type in messages. -/
def typeName : Json → String
  | .null => "null"
  | .bool _ => "boolean"
  | .int _ | .float _ => "number"
  | .str _ => "string"
  | .arr _ => "array"
  | .obj _ => "object"

mutual

/-- Equality of values as written: `1` and `1.0` differ, and doubles compare as numbers. -/
def same : Json → Json → Bool
  | .null, .null => true
  | .bool a, .bool b => a == b
  | .int a, .int b => a == b
  | .float a, .float b => a == b
  | .str a, .str b => a == b
  | .arr a, .arr b => sameItems a b
  | .obj a, .obj b => sameFields a b
  | _, _ => false

def sameItems : List Json → List Json → Bool
  | [], [] => true
  | a :: as, b :: bs => same a b && sameItems as bs
  | _, _ => false

def sameFields : List (String × Json) → List (String × Json) → Bool
  | [], [] => true
  | (k, a) :: as, (l, b) :: bs => k == l && same a b && sameFields as bs
  | _, _ => false

end

theorem same_str {v : Json} {t : String} : same v (.str t) = true ↔ v = .str t := by
  cases v <;> simp [same]

/-- An object with the given fields, whatever their order. -/
def ofFields (fields : List (String × Json)) : Json := .obj (Keyed.ofPairs fields)

/-- The value, or null. -/
def ofOption : Option Json → Json
  | some v => v
  | none => .null

/-- An optional text, null when absent. -/
def ofText? : Option String → Json
  | some s => .str s
  | none => .null

def ofNat (n : Nat) : Json := .int n

def ofTexts (texts : List String) : Json := .arr (texts.map .str)

/-- A field, listed only if it has a value. -/
def field? (key : String) : Option Json → List (String × Json)
  | some v => [(key, v)]
  | none => []

end Json

end Capability
