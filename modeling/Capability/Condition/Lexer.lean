/-
  Capability.Condition.Lexer — from the characters of a condition to its tokens, one
  character at a time.

  A character either extends the text of the token that is pending, or it ends that token
  and starts afresh. White space ends a token everywhere but inside quotes, and stands for
  nothing else. A word is a dotted path of identifiers, of which some single ones are
  keywords; a number is a run of digits and points.
-/

import Capability.Condition.Token
import Capability.Text.Alphabetic
import Capability.Text.Numeric
import Capability.Text.Blank

namespace Capability.Condition

/-- Why a text has no tokens. -/
inductive LexError where
  | unterminated
  | badNumber (literal : String)
  | danglingDot
  | unexpected (c : Char)
  deriving DecidableEq, Repr

def LexError.message : LexError → String
  | .unterminated => "unterminated string literal"
  | .badNumber literal => "invalid number '" ++ literal ++ "'"
  | .danglingDot => "expected identifier after '.'"
  | .unexpected c => "unexpected character '" ++ String.singleton c ++ "'"

/-- Whether an identifier may start with the character. -/
def startsWord (c : Char) : Bool := Text.isAlphabetic c || c = '_'

/-- Whether an identifier may contain the character. -/
def inWord (c : Char) : Bool := Text.isAlphabetic c || Text.isNumeric c || c = '_'

/-- The token that is being read; what was read of it is kept last first. -/
inductive Pending where
  | nothing
  /-- A character that may be half of a two-character operator. -/
  | sign (c : Char)
  /-- A point that may start a number. -/
  | point
  | number (done : List Char)
  /-- A dotted path: the finished segments and the one that is being read. -/
  | word (segments : List String) (done : List Char)
  | quoted (quote : Char) (done : List Char)
  /-- Inside quotes, after a backslash. -/
  | escape (quote : Char) (done : List Char)
  deriving DecidableEq

/-- What a character does to the pending token. -/
inductive Reach where
  | extends (p : Pending)
  | completes (t : Token)
  | outside
  deriving DecidableEq

/-- The operator of two characters, if they form one. -/
def twoCharacter : Char → Char → Option Token
  | '=', '=' => some .eq
  | '!', '=' => some .notEq
  | '<', '=' => some .le
  | '>', '=' => some .ge
  | '&', '&' => some .and
  | '|', '|' => some .or
  | _, _ => none

/-- The token of one character that begins no other one. -/
def oneCharacter : Char → Option Token
  | '+' => some .plus
  | '-' => some .minus
  | '*' => some .star
  | '/' => some .slash
  | '%' => some .percent
  | '(' => some .openParen
  | ')' => some .closeParen
  | '[' => some .openBracket
  | ']' => some .closeBracket
  | ',' => some .comma
  | _ => none

/-- The character an escaped one stands for. -/
def unescape : Char → Char
  | 'n' => '\n'
  | 't' => '\t'
  | c => c

def Pending.reach : Pending → Char → Reach
  | .nothing, _ => .outside
  | .sign s, c =>
    match twoCharacter s c with
    | some t => .completes t
    | none => .outside
  | .point, c => if c.isDigit then .extends (.number [c, '.']) else .outside
  | .number done, c => if c.isDigit || c = '.' then .extends (.number (c :: done)) else .outside
  | .word segments done, c =>
    if inWord c then .extends (.word segments (c :: done))
    else if c = '.' && !done.isEmpty then
      .extends (.word (String.ofList done.reverse :: segments) [])
    else .outside
  | .quoted quote done, c =>
    if c = '\\' then .extends (.escape quote done)
    else if c = quote then .completes (.str (String.ofList done.reverse))
    else .extends (.quoted quote (c :: done))
  | .escape quote done, c => .extends (.quoted quote (unescape c :: done))

/-- The token of a dotted path. -/
def wordToken : List String → Token
  | ["and"] => .and
  | ["or"] => .or
  | ["not"] => .not
  | ["in"] => .isIn
  | ["true"] => .yes
  | ["false"] => .no
  | ["null"] => .null
  | segments => .path segments

/-- The number a literal of digits and at most one point stands for. -/
def numberToken (literal : List Char) : Except LexError Token :=
  let whole := literal.takeWhile (· ≠ '.')
  let fraction := (literal.dropWhile (· ≠ '.')).drop 1
  if fraction.contains '.' then .error (.badNumber (String.ofList literal))
  else
    let digits := (whole ++ fraction).foldl (fun n c => n * 10 + (c.toNat - 48)) 0
    .ok (.number (Decimal.nearest digits (-(fraction.length : Int))))

/-- The tokens of pending text that nothing extends. -/
def Pending.close : Pending → Except LexError (List Token)
  | .nothing => .ok []
  | .sign '=' => .ok [.eq]
  | .sign '!' => .ok [.not]
  | .sign '<' => .ok [.lt]
  | .sign '>' => .ok [.gt]
  | .sign c => .error (.unexpected c)
  | .point => .error (.unexpected '.')
  | .number done => do .ok [← numberToken done.reverse]
  | .word segments done =>
    if done.isEmpty then .error .danglingDot
    else .ok [wordToken (String.ofList done.reverse :: segments).reverse]
  | .quoted _ _ | .escape _ _ => .error .unterminated

/-- What a character starts: tokens of its own, or a pending one. -/
def opening (c : Char) : Except LexError (List Token × Pending) :=
  if Text.isBlank c then .ok ([], .nothing)
  else match oneCharacter c with
    | some t => .ok ([t], .nothing)
    | none =>
      if c = '=' || c = '!' || c = '<' || c = '>' || c = '&' || c = '|' then .ok ([], .sign c)
      else if c = '"' || c = '\'' then .ok ([], .quoted c [])
      else if c.isDigit then .ok ([], .number [c])
      else if c = '.' then .ok ([], .point)
      else if startsWord c then .ok ([], .word [] [c])
      else .error (.unexpected c)

/-- The tokens of the pending text followed by the given one. -/
def scan : Pending → List Char → Except LexError (List Token)
  | p, [] => p.close
  | p, c :: cs =>
    match p.reach c with
    | .extends p' => scan p' cs
    | .completes t => do .ok (t :: (← scan .nothing cs))
    | .outside => do
      let before ← p.close
      let (own, p') ← opening c
      let after ← scan p' cs
      .ok (before ++ own ++ after)

/-- The tokens of a condition. -/
def tokenize (text : String) : Except LexError (List Token) := scan .nothing text.toList

end Capability.Condition
