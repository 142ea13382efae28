/-
  Capability.Json.Decode — decoders from drafts to typed data.

  A decoder meets the parts of a draft in the order of the text and stops at the first
  problem. Records are written as objects, with their fields in any order, each at most
  once under any of its names and with unknown fields skipped, or as arrays of their
  fields in declaration order.
-/

import Capability.Json.Draft
import Capability.Decimal.Binary

namespace Capability.Json

abbrev Decoder (α : Type) := Draft → Except Problem α

/-- The problem with a draft that is not of the type asked for. A literal is read before
    its type is judged. -/
def unexpected : Draft → Problem
  | .broken _ b => .flaw b.wanted
  | _ => .mismatch

namespace Decode

def text : Decoder String
  | .text s => .ok s
  | d => .error (unexpected d)

def bool : Decoder Bool
  | .bool b => .ok b
  | d => .error (unexpected d)

/-- An integer with least and greatest values. -/
def intBetween (least greatest : Int) : Decoder Int
  | .int n => if least ≤ n ∧ n ≤ greatest then .ok n else .error .mismatch
  | d => .error (unexpected d)

/-- A natural number below 2^64. -/
def nat : Decoder Nat := fun d => (·.toNat) <$> intBetween 0 (2 ^ 64 - 1) d

/-- An integer of 64 bits. -/
def int : Decoder Int := intBetween (-(2 ^ 63)) (2 ^ 63 - 1)

/-- A double, also when written as an integer. -/
def float : Decoder Float
  | .int n => .ok (Float.ofInt n)
  | .float x => .ok x
  | d => .error (unexpected d)

/-- A value, absent when null. What begins like null is taken for nothing else. -/
def option {α : Type} (decoder : Decoder α) : Decoder (Option α)
  | .null => .ok none
  | .broken .null b => .error (.flaw b.wanted)
  | d => some <$> decoder d

def items {α : Type} (decoder : Decoder α) : List Draft → Except Problem (List α)
  | [] => .ok []
  | d :: rest => do
    let a ← decoder d
    let as ← items decoder rest
    .ok (a :: as)

def list {α : Type} (decoder : Decoder α) : Decoder (List α)
  | .arr drafts ending => do
    let as ← items decoder drafts
    Flaw.report ending
    .ok as
  | d => .error (unexpected d)

/-- Any value, nested `room` levels deep at most. -/
def value (room : Nat) : Decoder Json := Draft.toJson room

/-- An object with any fields; of two with one key the later counts. -/
def keyed (room : Nat) : Decoder (Keyed Json)
  | .obj fields ending => do
    let pairs ← Draft.toFields room fields
    Flaw.report ending
    .ok (Keyed.ofPairs pairs)
  | d => .error (unexpected d)

/-- One of several alternatives, written as its name or as an object whose only key is the
    name. `bare` decides on a name alone, `full` on a name with content. What begins neither
    like a text nor like an object is refused without a closer look. -/
def variant {α : Type} (bare : String → Except Problem α)
    (full : String → Draft → Except Problem α) : Decoder α
  | .text name => bare name
  | .broken .absent b | .broken .quote b => .error (.flaw b.wanted)
  | .obj ((.error b, _) :: _) _ => .error (.flaw b.wanted)
  | .obj ((.ok name, d) :: rest) ending => do
    let a ← full name d
    match rest with
    | [] => Flaw.report ending
    | _ :: _ => .error (.flaw .malformed)
    .ok a
  | .obj [] (some f) => .error (.flaw f)
  | _ => .error (.flaw .malformed)

/-- One of several named constants. -/
def constant {α : Type} (named : String → Option α) : Decoder α :=
  variant
    (fun name => match named name with
      | some a => .ok a
      | none => .error .mismatch)
    (fun name d => match named name, d with
      | some a, .null => .ok a
      | some _, d => .error (unexpected d)
      | none, _ => .error .mismatch)

/-- A field of a record: its names, whether it must be given, and how it is put into the
    record. -/
structure Slot (α : Type) where
  names : List String
  required : Bool
  put : Draft → α → Except Problem α

/-- A field that must be given. -/
def required {α β : Type} (names : List String) (decoder : Decoder β) (set : β → α → α) : Slot α :=
  ⟨names, true, fun d a => do .ok (set (← decoder d) a)⟩

/-- A field that keeps the value of the blank record when it is not given. -/
def optional {α β : Type} (names : List String) (decoder : Decoder β) (set : β → α → α) : Slot α :=
  ⟨names, false, fun d a => do .ok (set (← decoder d) a)⟩

/-- What becomes of a field that no slot names. -/
inductive Unknown where
  | skipped
  | refused

/-- Puts the fields of an object into the record one by one; `seen` holds the names of the
    slots filled so far. -/
def fill {α : Type} (unknown : Unknown) (slots : List (Slot α)) :
    List String → α → List (Key × Draft) → Except Problem (List String × α)
  | seen, a, [] => .ok (seen, a)
  | _, _, (.error b, _) :: _ => .error (.flaw b.wanted)
  | seen, a, (.ok key, d) :: rest =>
    match slots.find? (·.names.contains key) with
    | none =>
      match unknown with
      | .refused => .error .mismatch
      | .skipped => do
        Flaw.report d.skipFlaw
        fill unknown slots seen a rest
    | some slot =>
      if slot.names.any seen.contains then .error .mismatch
      else do
        let a ← slot.put d a
        fill unknown slots (slot.names ++ seen) a rest

/-- Puts the items of an array into the record in the order of its slots. -/
def fillInOrder {α : Type} (ending : Option Flaw) : List (Slot α) → α → List Draft → Except Problem α
  | [], a, [] => do
    Flaw.report ending
    .ok a
  | [], _, _ :: _ => .error (.flaw .malformed)
  | slot :: slots, a, [] => do
    Flaw.report ending
    if slot.required then .error .mismatch else fillInOrder ending slots a []
  | slot :: slots, a, d :: rest => do
    let a ← slot.put d a
    fillInOrder ending slots a rest

/-- A record, starting from one whose fields hold their defaults. -/
def recordWith {α : Type} (unknown : Unknown) (slots : List (Slot α)) (blank : α) : Decoder α
  | .obj fields ending => do
    let (seen, a) ← fill unknown slots [] blank fields
    Flaw.report ending
    if slots.all fun slot => !slot.required || slot.names.any seen.contains then .ok a
    else .error .mismatch
  | .arr drafts ending => fillInOrder ending slots blank drafts
  | d => .error (unexpected d)

/-- A record that may have unknown fields besides its own. -/
def record {α : Type} (slots : List (Slot α)) (blank : α) : Decoder α :=
  recordWith .skipped slots blank

end Decode

/-- Decodes a value that was never text: whatever is wrong with it is a mismatch. -/
def decodeValue {α : Type} (decoder : Decoder α) (v : Json) : Except Problem α :=
  (decoder (.ofJson v)).mapError fun _ => .mismatch

end Capability.Json
