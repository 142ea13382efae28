/-
  Capability.Json.Draft — JSON text as far as it could be read.

  A document is decoded from left to right and the first problem on the way decides the
  answer, so a text that goes wrong somewhere still has to be decoded up to that point: a
  field of the wrong type before it is reported first. A draft is the tree of what was
  read; where the text goes wrong, the tree ends with a breach. Some breaches matter only
  to a reader who wants the value: an unknown field whose number is too large, or whose
  text holds half a surrogate pair, is skipped without complaint.
-/

import Capability.Json.Value

namespace Capability.Json

/-- How a text fails to be JSON. -/
inductive Flaw where
  /-- A character that cannot stand where it stands, or an unusable literal. -/
  | malformed
  /-- The text ends too early. -/
  | truncated
  deriving DecidableEq, Repr

/-- Why a document cannot be decoded. -/
inductive Problem where
  | flaw (f : Flaw)
  /-- Well formed, but not what was asked for. -/
  | mismatch
  deriving DecidableEq, Repr

/-- Why a key or a value cannot be used: the flaw met by who wants it, and the one met by
    who skips it, none if reading goes on behind it. -/
structure Breach where
  wanted : Flaw
  skipped : Option Flaw
  deriving DecidableEq, Repr

/-- A flaw that nobody gets past. -/
def Breach.final (f : Flaw) : Breach := ⟨f, some f⟩

/-- The breach of a literal that is complete and stands for nothing: a number beyond the
    largest double, or a text with half a surrogate pair. -/
def Breach.void : Breach := ⟨.malformed, none⟩

/-- How a value begins that cannot be used. -/
inductive Opening where
  /-- There is no value. -/
  | absent
  | quote
  /-- Like the word null. -/
  | null
  /-- Like another word or a number, or like no value at all. -/
  | other
  deriving DecidableEq, Repr

abbrev Key := Except Breach String

/-- What was read of a JSON text. -/
inductive Draft where
  | null
  | bool (b : Bool)
  | int (n : Int)
  | float (x : Float)
  | text (s : String)
  /-- The items read and what went wrong before the closing bracket. -/
  | arr (items : List Draft) (ending : Option Flaw)
  /-- The fields read and what went wrong before the closing brace. A key that could not be
      read to its end comes with no value. -/
  | obj (fields : List (Key × Draft)) (ending : Option Flaw)
  | broken (opening : Opening) (b : Breach)
  deriving Inhabited

namespace Draft

mutual

/-- The draft of a value that was never text: nothing is wrong with it. -/
def ofJson : Json → Draft
  | .null => .null
  | .bool b => .bool b
  | .int n => .int n
  | .float x => .float x
  | .str s => .text s
  | .arr items => .arr (ofItems items) none
  | .obj fields => .obj (ofFields fields) none

def ofItems : List Json → List Draft
  | [] => []
  | v :: rest => ofJson v :: ofItems rest

def ofFields : List (String × Json) → List (Key × Draft)
  | [] => []
  | (k, v) :: rest => (.ok k, ofJson v) :: ofFields rest

end

/-- The flaw met when a key is skipped. -/
def skipKey : Key → Option Flaw
  | .ok _ => none
  | .error b => b.skipped

mutual

/-- The flaw met when a value is skipped. -/
def skipFlaw : Draft → Option Flaw
  | .arr items ending => skipItems items ending
  | .obj fields ending => skipFields fields ending
  | .broken _ b => b.skipped
  | _ => none

def skipItems : List Draft → Option Flaw → Option Flaw
  | [], ending => ending
  | d :: rest, ending => (skipFlaw d).or (skipItems rest ending)

def skipFields : List (Key × Draft) → Option Flaw → Option Flaw
  | [], ending => ending
  | (key, d) :: rest, ending => ((skipKey key).or (skipFlaw d)).or (skipFields rest ending)

end

end Draft

/-- Reports a flaw, if there is one. -/
def Flaw.report : Option Flaw → Except Problem Unit
  | none => .ok ()
  | some f => .error (.flaw f)

/-- Arrays and objects may be nested this deep. -/
def deepest : Nat := 127

mutual

/-- The value of a draft, if arrays and objects may nest `room` levels deep. -/
def Draft.toJson (room : Nat) : Draft → Except Problem Json
  | .null => .ok .null
  | .bool b => .ok (.bool b)
  | .int n => .ok (.int n)
  | .float x => .ok (.float x)
  | .text s => .ok (.str s)
  | .arr items ending =>
    match room with
    | 0 => .error (.flaw .malformed)
    | room + 1 => do
      let values ← Draft.toItems room items
      Flaw.report ending
      .ok (.arr values)
  | .obj fields ending =>
    match room with
    | 0 => .error (.flaw .malformed)
    | room + 1 => do
      let values ← Draft.toFields room fields
      Flaw.report ending
      .ok (.ofFields values)
  | .broken _ b => .error (.flaw b.wanted)

def Draft.toItems (room : Nat) : List Draft → Except Problem (List Json)
  | [] => .ok []
  | d :: rest => do
    let v ← Draft.toJson room d
    let values ← Draft.toItems room rest
    .ok (v :: values)

def Draft.toFields (room : Nat) : List (Key × Draft) → Except Problem (List (String × Json))
  | [] => .ok []
  | (.error b, _) :: _ => .error (.flaw b.wanted)
  | (.ok k, d) :: rest => do
    let v ← Draft.toJson room d
    let values ← Draft.toFields room rest
    .ok ((k, v) :: values)

end

end Capability.Json
