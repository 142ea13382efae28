/-
  Capability.Json.Reader — reading JSON text into a draft.

  White space is blank, tab, line feed and carriage return. A number without point and
  exponent is an integer while it fits into 64 bits, with or without a sign; every other
  number is the nearest double, and `-0` is the double of that sign.
-/

import Capability.Json.Draft
import Capability.Decimal.Binary

namespace Capability.Json

/-- What was read of a value, and the text after it unless reading stopped in it. -/
abbrev Reading (α : Type) := α × Option (List Char)

/-- Stops in a value. -/
def stop (opening : Opening) (wanted skipped : Flaw) : Reading Draft :=
  (.broken opening ⟨wanted, some skipped⟩, none)

/-- Stops where there is no value. -/
def stopBefore (f : Flaw) : Reading Draft := stop .absent f f

def skipBlanks (cs : List Char) : List Char :=
  cs.dropWhile fun c => c = ' ' || c = '\n' || c = '\t' || c = '\r'

/-- Reads the rest of one of the words null, true and false. -/
def readWord (opening : Opening) (result : Draft) : List Char → List Char → Reading Draft
  | [], cs => (result, some cs)
  | _ :: _, [] => stop opening .truncated .truncated
  | w :: word, c :: cs =>
    if c = w then readWord opening result word cs else stop opening .malformed .malformed

def hexValue (c : Char) : Option Nat :=
  if '0' ≤ c ∧ c ≤ '9' then some (c.toNat - 48)
  else if 'a' ≤ c ∧ c ≤ 'f' then some (c.toNat - 87)
  else if 'A' ≤ c ∧ c ≤ 'F' then some (c.toNat - 55)
  else none

/-- The value of four hexadecimal digits. -/
def hexUnit (a b c d : Char) : Option Nat := do
  let a ← hexValue a
  let b ← hexValue b
  let c ← hexValue c
  let d ← hexValue d
  some (((a * 16 + b) * 16 + c) * 16 + d)

/-- Whether fewer than four bytes of text are left. -/
def nearEnd (cs : List Char) : Bool := ((cs.take 4).map Char.utf8Size).foldl (· + ·) 0 < 4

/-- The character a backslash stands for with this letter after it. -/
def escaped : Char → Option Char
  | '"' => some '"'
  | '\\' => some '\\'
  | '/' => some '/'
  | 'b' => some '\x08'
  | 'f' => some '\x0c'
  | 'n' => some '\n'
  | 'r' => some '\r'
  | 't' => some '\t'
  | _ => none

/-- Reads a text after its opening quote. `half` is a leading surrogate that waits for its
    partner in the very next escape. `sound` tells whether every surrogate so far had one;
    where one had none, a reader who wants the text stops. -/
def readText (sound : Bool) (half : Option Nat) (done : List Char) : List Char → Reading (Except Breach String)
  | [] => flawed sound .truncated
  | '"' :: cs => (if sound && half.isNone then .ok (String.ofList done.reverse) else .error .void, some cs)
  | '\\' :: 'u' :: a :: b :: c :: d :: cs =>
    match hexUnit a b c d, half with
    | none, _ => flawed sound .malformed
    | some unit, some high =>
      if isTrailing unit then readText sound none (joined high unit :: done) cs
      else readText false none done cs
    | some unit, none =>
      if isTrailing unit then readText false none done cs
      else if isLeading unit then readText sound (some unit) done cs
      else readText sound none (Char.ofNat unit :: done) cs
  | ['\\'] => flawed sound .truncated
  | '\\' :: 'u' :: cs => flawed sound (if nearEnd cs then .truncated else .malformed)
  | '\\' :: c :: cs =>
    match escaped c with
    | some e => readText (sound && half.isNone) none (e :: done) cs
    | none => flawed (sound && half.isNone) .malformed
  | c :: cs =>
    if c.toNat < 0x20 then flawed (sound && half.isNone) .malformed
    else readText (sound && half.isNone) none (c :: done) cs
where
  flawed (sound : Bool) (f : Flaw) : Reading (Except Breach String) :=
    (.error ⟨if sound then f else .malformed, some f⟩, none)
  isLeading (unit : Nat) : Bool := 0xD800 ≤ unit && unit ≤ 0xDBFF
  isTrailing (unit : Nat) : Bool := 0xDC00 ≤ unit && unit ≤ 0xDFFF
  joined (high low : Nat) : Char := Char.ofNat (0x10000 + (high - 0xD800) * 0x400 + (low - 0xDC00))

/-- A text as a value. -/
def quotedDraft : Except Breach String → Draft
  | .ok s => .text s
  | .error b => .broken .quote b

def digitsValue (digits : List Char) : Nat :=
  digits.foldl (fun n c => n * 10 + (c.toNat - 48)) 0

/-- The double of a sign and an absolute value, which may be too large. -/
def finite (negative : Bool) (x : Float) : Draft :=
  if x.isFinite then .float (if negative then -x else x) else .broken .other .void

/-- A number without point and exponent. -/
def wholeNumber (negative : Bool) (digits : List Char) : Draft :=
  let n := digitsValue digits
  if !negative ∧ n < 2 ^ 64 then .int n
  else if negative ∧ 0 < n ∧ n ≤ 2 ^ 63 then .int (-n)
  else
    let x := Decimal.nearest n 0
    finite negative x

/-- A number from its digits before and after the point and its exponent. -/
def realNumber (negative : Bool) (whole fraction : List Char) (exponent : Int) : Draft :=
  let x := Decimal.nearest (digitsValue (whole ++ fraction)) (exponent - fraction.length)
  finite negative x

/-- Reads the exponent after its letter. -/
def readExponent (negative : Bool) (whole fraction : List Char) (cs : List Char) : Reading Draft :=
  let (down, cs) := match cs with
    | '+' :: rest => (false, rest)
    | '-' :: rest => (true, rest)
    | _ => (false, cs)
  let digits := cs.takeWhile Char.isDigit
  let rest := cs.dropWhile Char.isDigit
  if digits.isEmpty then stop .other (if rest.isEmpty then .truncated else .malformed) .malformed
  else
    let n : Int := digitsValue digits
    (realNumber negative whole fraction (if down then -n else n), some rest)

/-- Reads what follows the digits before the point. -/
def readFraction (negative : Bool) (whole : List Char) : List Char → Reading Draft
  | '.' :: cs =>
    let digits := cs.takeWhile Char.isDigit
    let rest := cs.dropWhile Char.isDigit
    if digits.isEmpty then stop .other (if rest.isEmpty then .truncated else .malformed) .malformed
    else match rest with
      | 'e' :: after | 'E' :: after => readExponent negative whole digits after
      | _ => (realNumber negative whole digits 0, some rest)
  | 'e' :: cs | 'E' :: cs => readExponent negative whole [] cs
  | cs => (wholeNumber negative whole, some cs)

/-- Reads a number after its sign. -/
def readNumber (negative : Bool) : List Char → Reading Draft
  | [] => stop .other .truncated .malformed
  | '0' :: cs =>
    if (cs.head?.map Char.isDigit).getD false then stop .other .malformed .malformed
    else readFraction negative ['0'] cs
  | c :: cs =>
    if c.isDigit then
      readFraction negative (c :: cs.takeWhile Char.isDigit) (cs.dropWhile Char.isDigit)
    else stop .other .malformed .malformed

/-- Stops behind a key that no value follows. -/
def stopAfter (key : Key) (f : Flaw) : Reading (List (Key × Draft) × Option Flaw) :=
  (([(key, (stopBefore f).1)], none), none)

/-- Stops where there is no key. -/
def stopAtKey (f : Flaw) : Reading (List (Key × Draft) × Option Flaw) := stopAfter (.error (.final f)) f

mutual

/-- Reads a value. Every step takes a character or goes from a bracket to what is inside,
    so twice the length of the text is enough fuel. -/
def readValue : Nat → List Char → Reading Draft
  | 0, _ => stopBefore .truncated
  | fuel + 1, cs =>
    match skipBlanks cs with
    | [] => stopBefore .truncated
    | 'n' :: rest => readWord .null .null ['u', 'l', 'l'] rest
    | 't' :: rest => readWord .other (.bool true) ['r', 'u', 'e'] rest
    | 'f' :: rest => readWord .other (.bool false) ['a', 'l', 's', 'e'] rest
    | '"' :: rest =>
      let (text, after) := readText true none [] rest
      (quotedDraft text, after)
    | '[' :: rest =>
      match skipBlanks rest with
      | ']' :: after => (.arr [] none, some after)
      | [] => (.arr [] (some .truncated), none)
      | inside =>
        let ((items, ending), after) := readItems fuel inside
        (.arr items ending, after)
    | '\x7b' :: rest =>
      match skipBlanks rest with
      | '\x7d' :: after => (.obj [] none, some after)
      | [] => (.obj [] (some .truncated), none)
      | inside =>
        let ((fields, ending), after) := readFields fuel inside
        (.obj fields ending, after)
    | '-' :: rest => readNumber true rest
    | c :: rest => if c.isDigit then readNumber false (c :: rest) else stop .other .malformed .malformed

/-- Reads items up to the closing bracket. -/
def readItems : Nat → List Char → Reading (List Draft × Option Flaw)
  | 0, _ => (([], some .truncated), none)
  | fuel + 1, cs =>
    match readValue fuel cs with
    | (item, none) => (([item], none), none)
    | (item, some rest) =>
      match skipBlanks rest with
      | [] => (([item], some .truncated), none)
      | ']' :: after => (([item], none), some after)
      | ',' :: more =>
        let ((items, ending), after) := readItems fuel more
        ((item :: items, ending), after)
      | _ => (([item], some .malformed), none)

/-- Reads fields up to the closing brace. -/
def readFields : Nat → List Char → Reading (List (Key × Draft) × Option Flaw)
  | 0, _ => stopAtKey .truncated
  | fuel + 1, cs =>
    match skipBlanks cs with
    | [] => stopAtKey .truncated
    | '"' :: rest =>
      match readText true none [] rest with
      | (key, none) => stopAfter key .truncated
      | (key, some rest) =>
        match skipBlanks rest with
        | [] => stopAfter key .truncated
        | ':' :: rest =>
          match readValue fuel rest with
          | (value, none) => (([(key, value)], none), none)
          | (value, some rest) =>
            match skipBlanks rest with
            | [] => (([(key, value)], some .truncated), none)
            | '\x7d' :: after => (([(key, value)], none), some after)
            | ',' :: more =>
              let ((fields, ending), after) := readFields fuel more
              (((key, value) :: fields, ending), after)
            | _ => (([(key, value)], some .malformed), none)
        | _ => stopAfter key .malformed
    | _ => stopAtKey .malformed

end

/-- A text read as one value, and what is wrong after it. -/
structure Page where
  draft : Draft
  trailing : Option Flaw

/-- Reads a whole text. -/
def readPage (text : String) : Page :=
  let cs := text.toList
  let (draft, rest) := readValue (2 * cs.length + 2) cs
  let trailing := match rest with
    | some rest => if (skipBlanks rest).isEmpty then none else some .malformed
    | none => none
  ⟨draft, trailing⟩

/-- Decodes a whole text: what is wrong after the value is met last. -/
def Page.decode {α : Type} (page : Page) (decoder : Draft → Except Problem α) : Except Problem α := do
  let a ← decoder page.draft
  Flaw.report page.trailing
  .ok a

/-- The value of a text. -/
def parse (text : String) : Except Problem Json := (readPage text).decode (Draft.toJson deepest)

end Capability.Json
