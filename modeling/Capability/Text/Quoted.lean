/-
  Capability.Text.Quoted — a text as a quoted literal for messages: quotes, backslashes
  and characters without a visible form are escaped.
-/

import Capability.Text.Printable

namespace Capability.Text

/-- A code point in hexadecimal between braces. -/
def escapePoint (c : Char) : List Char :=
  '\\' :: 'u' :: '\x7b' :: Nat.toDigits 16 c.toNat ++ ['\x7d']

/-- One character of a quoted literal. -/
def escape (c : Char) : List Char :=
  if c = '"' then ['\\', '"']
  else if c = '\\' then ['\\', '\\']
  else if c = '\n' then ['\\', 'n']
  else if c = '\r' then ['\\', 'r']
  else if c = '\t' then ['\\', 't']
  else if c = '\x00' then ['\\', '0']
  else if isJoiningMark c then escapePoint c
  else if isPrintable c then [c]
  else escapePoint c

/-- A text as a quoted literal. -/
def quoted (s : String) : String :=
  String.ofList ('"' :: s.toList.flatMap escape ++ ['"'])

end Capability.Text
