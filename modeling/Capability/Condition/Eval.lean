/-
  Capability.Condition.Eval — the value of a condition under the variables of a run.

  Every value counts as true or false: null, false, zero and whatever is empty count as
  false. Numbers are compared as doubles, also inside arrays; inside objects a number must
  be written the same way. `and` and `or` look at their right side only if the left one
  does not decide. What cannot be evaluated has an error, and a condition that only steers
  a run then counts as false.
-/

import Capability.Condition.Lexer
import Capability.Condition.Parser

namespace Capability.Condition

/-- Why a condition has no value. -/
inductive EvalError where
  | undefined (name : String)
  | negation (type : String)
  | operator (op : BinaryOp) (left right : String)
  | membership (needle haystack : String)
  | unordered
  | divisionByZero
  | nonFinite (x : Float)
  deriving DecidableEq

def EvalError.message : EvalError → String
  | .undefined name => "undefined variable '" ++ name ++ "'"
  | .negation type => "cannot negate " ++ type
  | .operator op left right =>
    "operator " ++ op.name ++ " is not defined for " ++ left ++ " and " ++ right
  | .membership needle haystack =>
    "membership test of " ++ needle ++ " in " ++ haystack ++ " is not supported"
  | .unordered => "cannot compare NaN"
  | .divisionByZero => "division by zero"
  | .nonFinite x => nonFiniteMessage x

/-- Whether a value counts as true. -/
def isTruthy : Json → Bool
  | .null => false
  | .bool b => b
  | .int n => n != 0
  | .float x => x != 0.0
  | .str s => !s.isEmpty
  | .arr items => !items.isEmpty
  | .obj fields => !fields.isEmpty

mutual

/-- Equality of conditions: numbers by their value as doubles, arrays item by item. -/
def looseEq : Json → Json → Bool
  | .int a, .int b => Float.ofInt a == Float.ofInt b
  | .int a, .float b => Float.ofInt a == b
  | .float a, .int b => a == Float.ofInt b
  | .float a, .float b => a == b
  | .arr a, .arr b => looseEqItems a b
  | a, b => a.same b

def looseEqItems : List Json → List Json → Bool
  | [], [] => true
  | a :: as, b :: bs => looseEq a b && looseEqItems as bs
  | _, _ => false

end

/-- The position a path segment of digits names. -/
def position? (segment : String) : Option Nat :=
  let digits := segment.toList
  if !digits.isEmpty && digits.all Char.isDigit then
    some (digits.foldl (fun n c => n * 10 + (c.toNat - 48)) 0)
  else none

/-- What a path segment leads to inside a value. -/
def child (v : Json) (segment : String) : Option Json :=
  match v with
  | .obj fields => Keyed.lookup segment fields
  | .arr items => do items[← position? segment]?
  | _ => none

/-- The value a path leads to; the whole path is at fault if a step leads nowhere, its
    head alone if no variable has that name. -/
def resolve (segments : List String) (vars : Keyed Json) : Except EvalError Json :=
  match segments with
  | [] => .error (.undefined "")
  | head :: rest =>
    match vars.lookup head with
    | none => .error (.undefined head)
    | some v =>
      match rest.foldlM child v with
      | some v => .ok v
      | none => .error (.undefined (".".intercalate segments))

/-- Both operands as numbers. -/
def numbers (op : BinaryOp) (l r : Json) : Except EvalError (Float × Float) :=
  match l.toFloat?, r.toFloat? with
  | some a, some b => .ok (a, b)
  | _, _ => .error (.operator op l.typeName r.typeName)

/-- A computed number as a value. -/
def computed (x : Float) : Except EvalError Json :=
  match numberValue x with
  | some v => .ok v
  | none => .error (.nonFinite x)

/-- How two values are ordered: texts by code points, numbers by value. -/
def ordering (op : BinaryOp) (l r : Json) : Except EvalError Ordering :=
  match l, r with
  | .str a, .str b => .ok (if a < b then .lt else if a = b then .eq else .gt)
  | _, _ => do
    let (a, b) ← numbers op l r
    if a < b then .ok .lt else if a == b then .ok .eq else if b < a then .ok .gt
    else .error .unordered

/-- Whether a text occurs in another one. -/
def occursIn (needle : List Char) : List Char → Bool
  | [] => needle.isEmpty
  | c :: cs => needle.isPrefixOf (c :: cs) || occursIn needle cs

/-- Whether a value is an item of an array, a part of a text or a key of an object. -/
def memberOf (needle haystack : Json) : Except EvalError Bool :=
  match needle, haystack with
  | _, .arr items => .ok (items.any (looseEq · needle))
  | .str n, .str h => .ok (occursIn n.toList h.toList)
  | .str key, .obj fields => .ok (Keyed.contains key fields)
  | _, _ => .error (.membership needle.typeName haystack.typeName)

/-- Applies an operator to the values of its operands. -/
def apply (op : BinaryOp) (l r : Json) : Except EvalError Json :=
  match op with
  | .eq => .ok (.bool (looseEq l r))
  | .notEq => .ok (.bool !looseEq l r)
  | .lt => do .ok (.bool ((← ordering op l r) == .lt))
  | .le => do .ok (.bool ((← ordering op l r) != .gt))
  | .gt => do .ok (.bool ((← ordering op l r) == .gt))
  | .ge => do .ok (.bool ((← ordering op l r) != .lt))
  | .isIn => do .ok (.bool (← memberOf l r))
  | .notIn => do .ok (.bool !(← memberOf l r))
  | .add =>
    match l, r with
    | .str a, .str b => .ok (.str (a ++ b))
    | _, _ => do
      let (a, b) ← numbers op l r
      computed (a + b)
  | .sub => do
    let (a, b) ← numbers op l r
    computed (a - b)
  | .mul => do
    let (a, b) ← numbers op l r
    computed (a * b)
  | .div => do
    let (a, b) ← numbers op l r
    if b == 0.0 then .error .divisionByZero else computed (a / b)
  | .rem => do
    let (a, b) ← numbers op l r
    if b == 0.0 then .error .divisionByZero else computed (Decimal.floatRem a b)

mutual

/-- The value of a condition. -/
def Expr.eval (vars : Keyed Json) : Expr → Except EvalError Json
  | .literal v => .ok v
  | .path segments => resolve segments vars
  | .list items => do .ok (.arr (← Expr.evalItems vars items))
  | .not e => do .ok (.bool !isTruthy (← Expr.eval vars e))
  | .neg e => do
    let v ← Expr.eval vars e
    match v.toFloat? with
    | some x => computed (-x)
    | none => .error (.negation v.typeName)
  | .and l r => do
    if isTruthy (← Expr.eval vars l) then .ok (.bool (isTruthy (← Expr.eval vars r)))
    else .ok (.bool false)
  | .or l r => do
    if isTruthy (← Expr.eval vars l) then .ok (.bool true)
    else .ok (.bool (isTruthy (← Expr.eval vars r)))
  | .binary op l r => do
    let a ← Expr.eval vars l
    let b ← Expr.eval vars r
    apply op a b

def Expr.evalItems (vars : Keyed Json) : List Expr → Except EvalError (List Json)
  | [] => .ok []
  | e :: rest => do
    let v ← Expr.eval vars e
    let vs ← Expr.evalItems vars rest
    .ok (v :: vs)

end

/-- Why the text of a condition cannot be decided. -/
inductive Error where
  | lex (e : LexError)
  | parse (e : ParseError)
  | eval (e : EvalError)
  deriving DecidableEq

def Error.message : Error → String
  | .lex e => e.message
  | .parse e => e.message
  | .eval e => e.message

/-- The tree of the text of a condition. -/
def parse (text : String) : Except Error Expr := do
  let ts ← (tokenize text).mapError .lex
  (parseTokens ts).mapError .parse

/-- The value of the text of a condition. -/
def value (text : String) (vars : Keyed Json) : Except Error Json := do
  let e ← parse text
  (e.eval vars).mapError .eval

/-- Whether the text of a condition holds. -/
def holds (text : String) (vars : Keyed Json) : Except Error Bool :=
  isTruthy <$> value text vars

end Capability.Condition
