/-
  Capability.Interaction — questions put to somebody outside the run, and the answers that
  need nobody.
-/

import Capability.Graph.Node
import Capability.Condition.Eval

namespace Capability

open Json Json.Decode

/-- What kind of answer is asked for. -/
inductive InteractionKind where
  | confirm
  | select
  | input
  deriving DecidableEq, Repr, Inhabited

namespace InteractionKind

def name : InteractionKind → String
  | .confirm => "confirm"
  | .select => "select"
  | .input => "input"

def ofName? (name : String) : Option InteractionKind :=
  [confirm, select, input].find? (·.name = name)

def decoder : Decoder InteractionKind := constant ofName?

/-- The kind of question a node asks, if it asks one. -/
def ofNode? : NodeKind → Option InteractionKind
  | .confirm => some .confirm
  | .select => some .select
  | .input => some .input
  | _ => none

end InteractionKind

/-- A question. -/
structure Question where
  node : String
  kind : InteractionKind
  prompt : String
  /-- What can be selected. -/
  options : List String := []
  /-- The answer suggested for an input. -/
  suggestion : Option String := none
  deriving DecidableEq, Repr, Inhabited

namespace Question

def toJson (q : Question) : Json :=
  .obj [("node_id", .str q.node), ("kind", .str q.kind.name), ("prompt", .str q.prompt),
    ("options", ofTexts q.options), ("default", ofText? q.suggestion)]

def slots : List (Slot Question) := [
  required ["node_id"] text fun v q => { q with node := v },
  required ["kind"] InteractionKind.decoder fun v q => { q with kind := v },
  required ["prompt"] text fun v q => { q with prompt := v },
  required ["options"] (list text) fun v q => { q with options := v },
  optional ["default"] (option text) fun v q => { q with suggestion := v }]

def decoder : Decoder Question := record slots { node := "", kind := .confirm, prompt := "" }

/-- The answer of somebody who agrees to everything: yes, the first option, or the input
    that is suggested. -/
def defaultAnswer (q : Question) : Json :=
  match q.kind with
  | .confirm => .bool true
  | .select => ofText? q.options.head?
  | .input => .str (q.suggestion.getD "")

end Question

end Capability
