/-
  Capability.Condition.Parser — from tokens to the tree of a condition.

  The grammar, loosest binding first:

    or    = and { "or" and }
    and   = not { "and" not }
    not   = "not" not | cmp
    cmp   = sum [ comparison sum ]
    sum   = term { ("+" | "-") term }
    term  = unary { ("*" | "/" | "%") unary }
    unary = "-" unary | atom
    atom  = number | string | true | false | null | path
          | "(" or ")" | "[" [ or { "," or } ] "]"

  Nesting is bounded: every pair of brackets, every negation and every link of a chain
  leaves one level less for what is inside or after it. `room` is the number of levels
  left. Brackets are the only way back to `or`, and they take a level, so the parsers are
  stacked on a parser of what is inside brackets that works with less room.
-/

import Capability.Condition.Expr
import Capability.Condition.Number
import Capability.Condition.Token

namespace Capability.Condition

/-- Why tokens are no condition. -/
inductive ParseError where
  | empty
  | tooDeep
  | unexpected (t : Token)
  | unexpectedEnd
  | unclosedParen
  | unclosedList
  | trailing (t : Token)
  | nonFinite (x : Float)
  deriving DecidableEq

def ParseError.message : ParseError → String
  | .empty => "empty expression"
  | .tooDeep => "expression nested too deeply"
  | .unexpected t => "unexpected token " ++ t.show
  | .unexpectedEnd => "unexpected end of expression"
  | .unclosedParen => "expected ')'"
  | .unclosedList => "expected ']' or ','"
  | .trailing t => "unexpected trailing token " ++ t.show
  | .nonFinite x => nonFiniteMessage x

/-- How deep a condition may be nested. -/
def maxNesting : Nat := 256

/-- A parser of the condition in front, with so many levels of nesting left: its tree and
    the tokens after it. -/
abbrev Parser := Nat → List Token → Except ParseError (Expr × List Token)

/-- The links after the first operand of a chain. Each takes a level. -/
def links (op : Token → Option (Expr → Expr → Expr)) (operand : Parser) :
    Nat → Expr → List Token → Except ParseError (Expr × List Token)
  | _, l, [] => .ok (l, [])
  | 0, l, t :: ts =>
    match op t with
    | none => .ok (l, t :: ts)
    | some _ => .error .tooDeep
  | room + 1, l, t :: ts =>
    match op t with
    | none => .ok (l, t :: ts)
    | some mk => do
      let (r, rest) ← operand room ts
      links op operand room (mk l r) rest

/-- Operands joined by operators, grouped to the left. -/
def chain (op : Token → Option (Expr → Expr → Expr)) (operand : Parser) : Parser :=
  fun room ts => do
    let (l, rest) ← operand room ts
    links op operand room l rest

/-- An operand after any number of one prefixed operator. Each takes a level. -/
def prefixed (op : Token) (mk : Expr → Expr) (operand : Parser) : Parser
  | room, [] => operand room []
  | 0, t :: ts => if t = op then .error .tooDeep else operand 0 (t :: ts)
  | room + 1, t :: ts =>
    if t = op then do
      let (e, rest) ← prefixed op mk operand room ts
      .ok (mk e, rest)
    else operand (room + 1) (t :: ts)

/-- The comparison in front: its operator and the tokens after it. -/
def comparison : List Token → Option (BinaryOp × List Token)
  | .eq :: ts => some (.eq, ts)
  | .notEq :: ts => some (.notEq, ts)
  | .lt :: ts => some (.lt, ts)
  | .le :: ts => some (.le, ts)
  | .gt :: ts => some (.gt, ts)
  | .ge :: ts => some (.ge, ts)
  | .isIn :: ts => some (.isIn, ts)
  | .not :: .isIn :: ts => some (.notIn, ts)
  | _ => none

/-- An operand, or two of them compared. -/
def compared (operand : Parser) : Parser := fun room ts => do
  let (l, rest) ← operand room ts
  match comparison rest with
  | none => .ok (l, rest)
  | some (op, ts) => do
    let (r, rest) ← operand room ts
    .ok (.binary op l r, rest)

/-- Items up to the closing bracket. There are no more of them than tokens. -/
def listItems (item : List Token → Except ParseError (Expr × List Token)) :
    Nat → List Token → Except ParseError (List Expr × List Token)
  | 0, _ => .error .unexpectedEnd
  | count + 1, ts => do
    let (e, rest) ← item ts
    match rest with
    | .comma :: more => do
      let (es, rest) ← listItems item count more
      .ok (e :: es, rest)
    | .closeBracket :: rest => .ok ([e], rest)
    | _ => .error .unclosedList

/-- A literal, a path, or brackets around `inner`. -/
def atom (inner : Parser) : Parser
  | _, [] => .error .unexpectedEnd
  | room, t :: ts =>
    match t with
    | .number x =>
      match numberValue x with
      | some v => .ok (.literal v, ts)
      | none => .error (.nonFinite x)
    | .str s => .ok (.literal (.str s), ts)
    | .yes => .ok (.literal (.bool true), ts)
    | .no => .ok (.literal (.bool false), ts)
    | .null => .ok (.literal .null, ts)
    | .path segments => .ok (.path segments, ts)
    | .openParen =>
      match room with
      | 0 => .error .tooDeep
      | room + 1 => do
        let (e, rest) ← inner room ts
        match rest with
        | .closeParen :: rest => .ok (e, rest)
        | _ => .error .unclosedParen
    | .openBracket =>
      match room with
      | 0 => .error .tooDeep
      | room + 1 =>
        match ts with
        | .closeBracket :: rest => .ok (.list [], rest)
        | _ => do
          let (es, rest) ← listItems (inner room) ts.length ts
          .ok (.list es, rest)
    | t => .error (.unexpected t)

def orOp : Token → Option (Expr → Expr → Expr)
  | .or => some .or
  | _ => none

def andOp : Token → Option (Expr → Expr → Expr)
  | .and => some .and
  | _ => none

def sumOp : Token → Option (Expr → Expr → Expr)
  | .plus => some (.binary .add)
  | .minus => some (.binary .sub)
  | _ => none

def termOp : Token → Option (Expr → Expr → Expr)
  | .star => some (.binary .mul)
  | .slash => some (.binary .div)
  | .percent => some (.binary .rem)
  | _ => none

/-- The grammar over a parser of what is inside brackets. -/
def grammar (inner : Parser) : Parser :=
  let unary := prefixed .minus .neg (atom inner)
  let sum := chain sumOp (chain termOp unary)
  chain orOp (chain andOp (prefixed .not .not (compared sum)))

/-- The parser of conditions where less than `bound` levels are left. -/
def below : Nat → Parser
  | 0 => fun _ _ => .error .tooDeep
  | bound + 1 => grammar (below bound)

/-- The tree of a sequence of tokens. -/
def parseTokens (ts : List Token) : Except ParseError Expr :=
  if ts.isEmpty then .error .empty
  else do
    let (e, rest) ← below (maxNesting + 1) maxNesting ts
    match rest with
    | [] => .ok e
    | t :: _ => .error (.trailing t)

end Capability.Condition
