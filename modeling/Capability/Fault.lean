/-
  Capability.Fault — what can go wrong while a capability is executed, told apart by cause.
-/

namespace Capability

/-- A cause of failure. -/
inductive Fault where
  /-- The graph is not valid. -/
  | invalid (errors : List String)
  /-- A node failed for a reason of its own, which may pass. -/
  | failed (node message : String)
  | skillNotFound (node skill : String)
  /-- A node took longer than its limit in milliseconds. -/
  | timedOut (node : String) (millis : Nat)
  | interaction (node message : String)
  | condition (expression message : String)
  | cancelled
  /-- More nodes would have been dispatched than the run may visit. -/
  | visitLimit (limit : Nat)
  | io (message : String)
  | json (message : String)
  | other (message : String)
  deriving DecidableEq, Repr, Inhabited

namespace Fault

def message : Fault → String
  | .invalid errors => "Graph validation failed: " ++ "; ".intercalate errors
  | .failed node message => "Node '" ++ node ++ "' failed: " ++ message
  | .skillNotFound node skill =>
    "Skill '" ++ skill ++ "' referenced by node '" ++ node ++ "' was not found"
  | .timedOut node millis => "Node '" ++ node ++ "' timed out after " ++ toString millis ++ "ms"
  | .interaction node message => "Interaction on node '" ++ node ++ "' failed: " ++ message
  | .condition expression message =>
    "Cannot evaluate condition '" ++ expression ++ "': " ++ message
  | .cancelled => "Execution cancelled"
  | .visitLimit limit => "Step limit of " ++ toString limit ++ " node visits exceeded"
  | .io message => "IO error: " ++ message
  | .json message => "JSON error: " ++ message
  | .other message => message

/-- The kind of a fault, which triggers of fallback edges can ask for. -/
def kind : Fault → String
  | .invalid _ => "validation"
  | .failed .. => "node_execution"
  | .skillNotFound .. => "skill_not_found"
  | .timedOut .. => "timeout"
  | .interaction .. => "interaction"
  | .condition .. => "condition_evaluation"
  | .cancelled => "cancelled"
  | .visitLimit _ => "step_limit_exceeded"
  | .io _ => "io"
  | .json _ => "json"
  | .other _ => "other"

/-- Whether the same attempt may succeed later. -/
def isRetryable : Fault → Bool
  | .failed .. | .timedOut .. => true
  | _ => false

/-- Whether neither a retry nor an alternative is worth trying. -/
def isTerminal : Fault → Bool
  | .invalid _ | .cancelled | .visitLimit _ => true
  | _ => false

/-- The node a fault is laid to, if it names one. -/
def node? : Fault → Option String
  | .failed node _ | .skillNotFound node _ | .timedOut node _ | .interaction node _ => some node
  | _ => none

end Fault

end Capability
