/-
  Capability.Condition.Expr — conditions as trees.
-/

import Capability.Json.Value

namespace Capability.Condition

/-- A comparison, membership or arithmetic operator. -/
inductive BinaryOp where
  | eq
  | notEq
  | lt
  | le
  | gt
  | ge
  | isIn
  | notIn
  | add
  | sub
  | mul
  | div
  | rem
  deriving DecidableEq, Repr

def BinaryOp.name : BinaryOp → String
  | .eq => "Eq"
  | .notEq => "NotEq"
  | .lt => "Lt"
  | .le => "Le"
  | .gt => "Gt"
  | .ge => "Ge"
  | .isIn => "In"
  | .notIn => "NotIn"
  | .add => "Add"
  | .sub => "Sub"
  | .mul => "Mul"
  | .div => "Div"
  | .rem => "Rem"

/-- A condition. -/
inductive Expr where
  | literal (v : Json)
  /-- A variable, and the keys and positions that lead into its value. -/
  | path (segments : List String)
  | list (items : List Expr)
  | not (e : Expr)
  | neg (e : Expr)
  | and (l r : Expr)
  | or (l r : Expr)
  | binary (op : BinaryOp) (l r : Expr)
  deriving Inhabited

end Capability.Condition
