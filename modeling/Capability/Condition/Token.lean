/-
  Capability.Condition.Token — the tokens of the condition language and how messages show
  them.
-/

import Capability.Text.Quoted
import Capability.Decimal.Layout

namespace Capability.Condition

/-- A token of a condition. -/
inductive Token where
  | number (x : Float)
  | str (s : String)
  | path (segments : List String)
  | yes
  | no
  | null
  | and
  | or
  | not
  | isIn
  | eq
  | notEq
  | lt
  | le
  | gt
  | ge
  | plus
  | minus
  | star
  | slash
  | percent
  | openParen
  | closeParen
  | openBracket
  | closeBracket
  | comma
  deriving DecidableEq

/-- Numbers in messages are positional from 0.0001 up to 10^16. -/
def floatFormat : Decimal.FloatFormat := ⟨-4, 16, false, .up⟩

/-- A token as messages show it. -/
def Token.show : Token → String
  | .number x => "Number(" ++ floatFormat.write x ++ ")"
  | .str s => "Str(" ++ Text.quoted s ++ ")"
  | .path segments => "Path([" ++ ", ".intercalate (segments.map Text.quoted) ++ "])"
  | .yes => "True"
  | .no => "False"
  | .null => "Null"
  | .and => "And"
  | .or => "Or"
  | .not => "Not"
  | .isIn => "In"
  | .eq => "Eq"
  | .notEq => "NotEq"
  | .lt => "Lt"
  | .le => "Le"
  | .gt => "Gt"
  | .ge => "Ge"
  | .plus => "Plus"
  | .minus => "Minus"
  | .star => "Star"
  | .slash => "Slash"
  | .percent => "Percent"
  | .openParen => "LParen"
  | .closeParen => "RParen"
  | .openBracket => "LBracket"
  | .closeBracket => "RBracket"
  | .comma => "Comma"

end Capability.Condition
