/-
  Capability.Context.Document — contexts as JSON documents. What was written since the
  last fork is not part of the document, and neither are the points in time of the steps,
  which are checked when a document is read.
-/

import Capability.Context
import Capability.Timestamp

namespace Capability

open Json Json.Decode

/-- A text that is a point in time. -/
def timestamp : Decoder Unit := fun d => do
  if Timestamp.isValid (← text d) then .ok () else .error .mismatch

def Step.slots (room : Nat) : List (Slot Step) := [
  required ["node_id"] text fun v s => { s with node := v },
  required ["timestamp"] timestamp fun _ s => s,
  required ["status"] StepStatus.decoder fun v s => { s with status := v },
  optional ["result"] (option (value room)) fun v s => { s with result := v },
  optional ["error"] (option text) fun v s => { s with error := v },
  required ["fallback_used"] bool fun v s => { s with fallbackUsed := v },
  required ["retry_count"] nat fun v s => { s with retryCount := v },
  required ["duration_ms"] nat fun v s => { s with durationMs := v }]

def Step.decoder (room : Nat) : Decoder Step := record (slots room) { node := "" }

def Context.slots : List (Slot Context) := [
  required ["user_intent"] text fun v c => { c with intent := v },
  optional ["available_time"] (option Duration.decoder) fun v c => { c with availableTime := v },
  optional ["preferred_depth"] PreferredDepth.decoder fun v c => { c with depth := v },
  optional ["variables"] (keyed (deepest - 2)) fun v c => { c with vars := v },
  optional ["history"] (list (Step.decoder (deepest - 3))) fun v c => { c with history := v }]

def Context.decoder : Decoder Context := record slots {}

def Context.toJson (c : Context) : Json :=
  .obj [("user_intent", .str c.intent), ("available_time", ofOption (c.availableTime.map Duration.toJson)),
    ("preferred_depth", .str c.depth.name), ("variables", .obj c.vars),
    ("history", .arr (c.history.map Step.toJson))]

end Capability
