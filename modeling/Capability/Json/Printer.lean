/-
  Capability.Json.Printer — values as JSON text, compact or indented by two spaces.

  Doubles are written with the shortest digits that read back, always with a point or an
  exponent, so that they are not mistaken for integers. A text is quoted with the short
  escapes where JSON has one and four hexadecimal digits for the other controls.
-/

import Capability.Json.Value
import Capability.Decimal.Layout

namespace Capability.Json

/-- JSON doubles are positional from 0.00001 up to 10^16, and a positive exponent has a
    sign. -/
def floatFormat : Decimal.FloatFormat := ⟨-5, 16, true, .toEven⟩

def hexDigits : List Char := "0123456789abcdef".toList

/-- The last `places` hexadecimal digits of a number. -/
def hex (places n : Nat) : List Char :=
  (List.range places).reverse.map fun i => hexDigits.getD (n / 16 ^ i % 16) '0'

/-- One character inside quotes. -/
def escapeChar (c : Char) : List Char :=
  if c = '"' then ['\\', '"']
  else if c = '\\' then ['\\', '\\']
  else if c = '\n' then ['\\', 'n']
  else if c = '\r' then ['\\', 'r']
  else if c = '\t' then ['\\', 't']
  else if c = '\x08' then ['\\', 'b']
  else if c = '\x0c' then ['\\', 'f']
  else if c.toNat < 0x20 then '\\' :: 'u' :: hex 4 c.toNat
  else [c]

/-- A text in quotes. -/
def quote (s : String) : String :=
  String.ofList ('"' :: s.toList.flatMap escapeChar ++ ['"'])

mutual

/-- The compact text of a value. -/
def compact : Json → String
  | .null => "null"
  | .bool b => if b then "true" else "false"
  | .int n => toString n
  | .float x => if x.isFinite then floatFormat.write x else "null"
  | .str s => quote s
  | .arr items => "[" ++ ",".intercalate (compactItems items) ++ "]"
  | .obj fields => "\x7b" ++ ",".intercalate (compactFields fields) ++ "\x7d"

def compactItems : List Json → List String
  | [] => []
  | v :: rest => compact v :: compactItems rest

def compactFields : List (String × Json) → List String
  | [] => []
  | (k, v) :: rest => (quote k ++ ":" ++ compact v) :: compactFields rest

end

/-- The line break and blanks before an entry `depth` levels deep. -/
def newline (depth : Nat) : String := "\n" ++ String.ofList (List.replicate (2 * depth) ' ')

mutual

/-- The indented text of a value that stands `depth` levels deep. -/
def prettyAt (depth : Nat) : Json → String
  | .arr [] => "[]"
  | .arr (v :: rest) =>
    "[" ++ ",".intercalate (prettyItems (depth + 1) (v :: rest)) ++ newline depth ++ "]"
  | .obj [] => "\x7b\x7d"
  | .obj (f :: rest) =>
    "\x7b" ++ ",".intercalate (prettyFields (depth + 1) (f :: rest)) ++ newline depth ++ "\x7d"
  | v => compact v

def prettyItems (depth : Nat) : List Json → List String
  | [] => []
  | v :: rest => (newline depth ++ prettyAt depth v) :: prettyItems depth rest

def prettyFields (depth : Nat) : List (String × Json) → List String
  | [] => []
  | (k, v) :: rest => (newline depth ++ quote k ++ ": " ++ prettyAt depth v) :: prettyFields depth rest

end

/-- The indented text of a value. -/
def pretty (v : Json) : String := prettyAt 0 v

end Capability.Json
