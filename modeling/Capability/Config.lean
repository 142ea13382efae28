/-
  Capability.Config — the settings of an executor.
-/

import Capability.Backoff

namespace Capability

open Json Json.Decode

/-- Settings that hold for every graph an executor runs. -/
structure Config where
  /-- The wait between attempts; a delay of the graph overrides it. -/
  backoff : Backoff := .default
  /-- The limit of an attempt at a skill whose node has none. -/
  defaultTimeLimit : Option Duration := none
  /-- How many nodes a run may dispatch. -/
  maxVisits : Nat := 1000
  /-- The variable that holds the number of the present loop pass. -/
  iterationVariable : String := "iteration"
  deriving DecidableEq, Repr, Inhabited

namespace Config

def toJson (c : Config) : Json :=
  .obj [("backoff", c.backoff.toJson), ("default_node_timeout", ofOption (c.defaultTimeLimit.map Duration.toJson)),
    ("max_node_visits", ofNat c.maxVisits), ("iteration_variable", .str c.iterationVariable)]

def slots : List (Slot Config) := [
  optional ["backoff"] Backoff.decoder fun v c => { c with backoff := v },
  optional ["default_node_timeout"] (option Duration.decoder) fun v c => { c with defaultTimeLimit := v },
  optional ["max_node_visits"] nat fun v c => { c with maxVisits := v },
  optional ["iteration_variable"] text fun v c => { c with iterationVariable := v }]

def decoder : Decoder Config := record slots {}

end Config

end Capability
