/-
  Capability.Timestamp — points in time as documents write them: a date, a time of day and
  an offset from UTC. Only their form is checked, and that they lie in the span of the
  calendar; nothing else is computed with them.
-/

import Capability.Text.Blank

namespace Capability.Timestamp

/-- A part of a text that was read, and what may follow it. -/
abbrev Part (α : Type) := List Char → Option (α × List Char)

/-- One of some characters. -/
def literal (allowed : List Char) : Part Unit
  | c :: cs => if allowed.contains c then some ((), cs) else none
  | [] => none

/-- A character, perhaps after blanks. -/
def separator (c : Char) : Part Unit := fun cs => literal [c] (cs.dropWhile Text.isBlank)

def valueOf (digits : List Char) : Nat := digits.foldl (fun n c => n * 10 + (c.toNat - 48)) 0

/-- A number of one to `width` digits. -/
def digits (width : Nat) : Part Nat := fun cs =>
  let ds := (cs.take width).takeWhile Char.isDigit
  if ds.isEmpty then none else some (valueOf ds, cs.drop ds.length)

/-- A number of one or two digits between two bounds, perhaps after blanks. -/
def number (least greatest : Nat) : Part Nat := fun cs => do
  let (n, cs) ← digits 2 (cs.dropWhile Text.isBlank)
  if least ≤ n && n ≤ greatest then some (n, cs) else none

/-- The first and the last year of the calendar. -/
def firstYear : Int := -262143

def lastYear : Int := 262142

/-- A year, perhaps after blanks: up to four digits, or any number of them after a sign. -/
def year : Part Int := fun cs => do
  let (y, cs) ← match cs.dropWhile Text.isBlank with
    | '-' :: cs => (digits cs.length cs).map fun r => (-(r.1 : Int), r.2)
    | '+' :: cs => (digits cs.length cs).map fun r => ((r.1 : Int), r.2)
    | cs => (digits 4 cs).map fun r => ((r.1 : Int), r.2)
  if firstYear ≤ y && y ≤ lastYear then some (y, cs) else none

def isLeapYear (y : Int) : Bool := y % 4 = 0 && (y % 100 ≠ 0 || y % 400 = 0)

def daysOf (year : Int) (month : Nat) : Nat :=
  match month with
  | 2 => if isLeapYear year then 29 else 28
  | 4 | 6 | 9 | 11 => 30
  | _ => 31

structure Date where
  year : Int
  month : Nat
  day : Nat
deriving DecidableEq

def date : Part Date := fun cs => do
  let (y, cs) ← year cs
  let ((), cs) ← separator '-' cs
  let (m, cs) ← number 1 12 cs
  let ((), cs) ← separator '-' cs
  let (d, cs) ← number 1 (daysOf y m) cs
  some (⟨y, m, d⟩, cs)

/-- A time of day, perhaps with a fraction of its second, as whole seconds after midnight.
    A leap second counts as the second before it. -/
def time : Part Nat := fun cs => do
  let (hour, cs) ← number 0 23 cs
  let ((), cs) ← separator ':' cs
  let (minute, cs) ← number 0 59 cs
  let ((), cs) ← separator ':' cs
  let (second, cs) ← number 0 60 cs
  let seconds := (hour * 60 + minute) * 60 + min second 59
  match cs with
  | '.' :: rest => (digits rest.length rest).map fun r => (seconds, r.2)
  | _ => some (seconds, cs)

/-- A number of exactly two digits up to a bound. -/
def twoDigits (greatest : Nat) : Part Nat
  | a :: b :: cs =>
    if a.isDigit && b.isDigit && valueOf [a, b] ≤ greatest then some (valueOf [a, b], cs) else none
  | _ => none

/-- Hours and minutes, in seconds: less than a day. -/
def distance : Part Nat := fun cs => do
  let (hours, cs) ← twoDigits 23 cs
  let (minutes, cs) ← twoDigits 59 (cs.dropWhile fun c => c = ':' || Text.isBlank c)
  some ((hours * 60 + minutes) * 60, cs)

/-- An offset from UTC in seconds. A minus may be a hyphen or the sign proper. -/
def offset : Part Int
  | [] => none
  | s :: cs =>
    if s = 'Z' || s = 'z' then some (0, cs)
    else if s = '+' then (distance cs).map fun r => ((r.1 : Int), r.2)
    else if s = '-' || s = '−' then (distance cs).map fun r => (-(r.1 : Int), r.2)
    else if (String.ofList ((s :: cs).take 3)).toLower = "utc" then some (0, cs.drop 2)
    else none

/-- Whether the moment `seconds` after the midnight that begins a date, less an offset, lies
    in the span of the calendar. -/
def isInSpan (d : Date) (seconds : Nat) (offset : Int) : Bool :=
  if (seconds : Int) < offset then d ≠ ⟨firstYear, 1, 1⟩
  else if 86400 ≤ (seconds : Int) - offset then d ≠ ⟨lastYear, 12, 31⟩
  else true

/-- Whether a text is a point in time. -/
def isValid (text : String) : Bool :=
  let parts := do
    let (day, cs) ← date text.toList
    let ((), cs) ← literal ['t', 'T', ' '] cs
    let (seconds, cs) ← time cs
    let (away, cs) ← offset (cs.dropWhile Text.isBlank)
    some (isInSpan day seconds away && cs.all Text.isBlank)
  parts = some true

end Capability.Timestamp
