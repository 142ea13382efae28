/-
  Capability.Event — what a run tells others while it goes on.
-/

import Capability.Graph.Node
import Capability.Trace

namespace Capability

open Json

/-- A report for whoever subscribed to the run. -/
inductive Event where
  | runStarted (graph : String) (nodeCount : Nat)
  | nodeStarted (node : String) (kind : NodeKind)
  | nodeCompleted (node : String) (status : StepStatus)
  | nodeRetrying (node : String) (attempt : Nat) (delay : Duration)
  /-- An alternative implementation is tried, or a fallback edge is taken. -/
  | fallbackUsed (node target : String)
  | conditionFailed (failure : ConditionFailure)
  | questionAsked (node prompt : String)
  | runFinished (status : RunStatus)
  deriving DecidableEq, Repr

def Event.toJson : Event → Json
  | .runStarted graph count =>
    .obj [("event", .str "execution_started"), ("graph_id", .str graph), ("node_count", ofNat count)]
  | .nodeStarted node kind =>
    .obj [("event", .str "node_started"), ("node_id", .str node), ("node_type", .str kind.name)]
  | .nodeCompleted node status =>
    .obj [("event", .str "node_completed"), ("node_id", .str node), ("status", .str status.name)]
  | .nodeRetrying node attempt delay =>
    .obj [("event", .str "node_retrying"), ("node_id", .str node), ("attempt", ofNat attempt),
      ("delay_ms", ofNat delay.millis)]
  | .fallbackUsed node target =>
    .obj [("event", .str "fallback_used"), ("node_id", .str node), ("target", .str target)]
  | .conditionFailed f =>
    .obj [("event", .str "condition_failed"), ("node_id", .str f.node),
      ("expression", .str f.expression), ("message", .str f.message)]
  | .questionAsked node prompt =>
    .obj [("event", .str "interaction_requested"), ("node_id", .str node), ("prompt", .str prompt)]
  | .runFinished status =>
    .obj [("event", .str "execution_finished"), ("status", .str status.name)]

/-- What is passed on while a run goes on: to the subscribers, or to whoever answers its
    questions and is told of its progress. -/
inductive Notice where
  | event (e : Event)
  | started (node : String) (kind : NodeKind)
  | completed (node : String) (status : StepStatus)
  deriving DecidableEq, Repr

end Capability
