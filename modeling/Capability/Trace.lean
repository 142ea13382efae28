/-
  Capability.Trace — what a run leaves behind: the path it took, its counters, the steps in
  the history of its context, and the conditions it could not evaluate.

  A scope is a context together with its trace. Every branch of a run records into a scope
  of its own, which is folded back into the scope it was forked from. A step that is begun
  stands in the history from then on; finishing it puts its node on the path, cancelling
  it does not.
-/

import Capability.Context

namespace Capability

open Json

/-- How a run ended. -/
inductive RunStatus where
  | completed
  | failed
  | cancelled
  deriving DecidableEq, Repr, Inhabited

namespace RunStatus

def name : RunStatus → String
  | .completed => "completed"
  | .failed => "failed"
  | .cancelled => "cancelled"

/-- The name of a status in overviews. -/
def title : RunStatus → String
  | .completed => "Completed"
  | .failed => "Failed"
  | .cancelled => "Cancelled"

def ofName? (name : String) : Option RunStatus :=
  [completed, failed, cancelled].find? (·.name = name)

def decoder : Decoder RunStatus := Decode.constant ofName?

end RunStatus

/-- What is counted along a run. -/
structure Counters where
  executed : Nat := 0
  failed : Nat := 0
  skipped : Nat := 0
  retries : Nat := 0
  iterations : Nat := 0
  deriving DecidableEq, Repr, Inhabited

namespace Counters

instance : Add Counters where
  add a b := ⟨a.executed + b.executed, a.failed + b.failed, a.skipped + b.skipped,
    a.retries + b.retries, a.iterations + b.iterations⟩

/-- The counters of one finished step. -/
def ofStep : StepStatus → Nat → Counters
  | .completed, retries => { executed := 1, retries }
  | .failed, retries => { failed := 1, retries }
  | .skipped, retries => { skipped := 1, retries }
  | _, retries => { retries }

end Counters

/-- A condition that could not be evaluated and counted as false. -/
structure ConditionFailure where
  node : String
  expression : String
  message : String
  deriving DecidableEq, Repr, Inhabited

/-- The recording of one scope, besides its steps. -/
structure Trace where
  path : List String := []
  counters : Counters := {}
  conditionFailures : List ConditionFailure := []
  deriving DecidableEq, Repr, Inhabited

/-- Appends the trace of a branch. -/
def Trace.absorb (t branch : Trace) : Trace where
  path := t.path ++ branch.path
  counters := t.counters + branch.counters
  conditionFailures := t.conditionFailures ++ branch.conditionFailures

/-- What is known of a step when it is finished. -/
structure StepReport where
  result : Option Json := none
  error : Option String := none
  fallbackUsed : Bool := false
  retryCount : Nat := 0
  deriving Inhabited

/-- A step that was begun: its position in the history and its node. -/
structure OpenStep where
  index : Nat
  node : String
  deriving DecidableEq, Repr, Inhabited

/-- Variables and recording of one strand of a run. -/
structure Scope where
  context : Context := {}
  trace : Trace := {}
  deriving Inhabited

namespace Scope

/-- The step that would be begun next for a node. -/
def nextStep (s : Scope) (node : String) : OpenStep := ⟨s.context.history.length, node⟩

/-- Begins a step; it is running. -/
def beginStep (s : Scope) (node : String) : Scope :=
  { s with context := s.context.push { node, status := .running } }

/-- Marks a step as waiting for an answer from outside. -/
def awaitStep (s : Scope) (step : OpenStep) : Scope :=
  { s with context := s.context.modifyStep step.index fun e => { e with status := .waiting } }

/-- Writes a report into a step and gives it its status. -/
def closeStep (s : Scope) (step : OpenStep) (status : StepStatus) (report : StepReport)
    (interrupted : Bool := false) : Scope :=
  { s with context := s.context.modifyStep step.index fun e =>
      { e with status, result := report.result, error := report.error,
               fallbackUsed := report.fallbackUsed, retryCount := report.retryCount, interrupted } }

/-- Finishes a step and puts its node on the path. -/
def finishStep (s : Scope) (step : OpenStep) (status : StepStatus) (report : StepReport) : Scope :=
  let s := s.closeStep step status report
  { s with trace.path := s.trace.path ++ [step.node],
           trace.counters := s.trace.counters + .ofStep status report.retryCount }

/-- Closes a step that a cancellation interrupted. -/
def cancelStep (s : Scope) (step : OpenStep) : Scope :=
  let s := s.closeStep step .skipped { error := some "cancelled" } true
  { s with trace.counters := s.trace.counters + .ofStep .skipped 0 }

/-- Counts a pass of a loop. -/
def countPass (s : Scope) : Scope :=
  { s with trace.counters := s.trace.counters + { iterations := 1 } }

/-- Records a condition that could not be evaluated. -/
def recordFailure (s : Scope) (f : ConditionFailure) : Scope :=
  { s with trace.conditionFailures := s.trace.conditionFailures ++ [f] }

/-- Writes a variable. -/
def set (s : Scope) (key : String) (value : Json) : Scope :=
  { s with context := s.context.set key value }

/-- The scope of a branch that starts here. -/
def fork (s : Scope) : Scope := { context := s.context.fork }

/-- Folds a branch back with what it wrote. -/
def merge (s branch : Scope) : Scope :=
  { context := s.context.merge branch.context, trace := s.trace.absorb branch.trace }

/-- Folds a branch back without what it wrote. -/
def absorb (s branch : Scope) : Scope :=
  { context := s.context.absorb branch.context, trace := s.trace.absorb branch.trace }

end Scope

/-- The node a run failed at, and the error. -/
structure NodeFailure where
  node : String
  error : String
  deriving DecidableEq, Repr, Inhabited

/-- The result of a run. -/
structure RunResult where
  graph : String
  status : RunStatus
  path : List String
  steps : List Step
  outputs : Keyed Json
  counters : Counters
  failure : Option NodeFailure
  conditionFailures : List ConditionFailure
  elapsedMs : Nat
  deriving Inhabited

namespace RunResult

def succeeded (r : RunResult) : Bool := r.status = .completed

/-- The result of a run whose outermost scope is left as `s`. -/
def ofScope (graph : String) (s : Scope) (status : RunStatus) (failure : Option NodeFailure)
    (elapsedMs : Nat) : RunResult where
  graph
  status
  path := s.trace.path
  steps := s.context.history
  outputs := s.context.vars
  counters := s.trace.counters
  failure
  conditionFailures := s.trace.conditionFailures
  elapsedMs

end RunResult

/-! ## Documents -/

def ConditionFailure.toJson (f : ConditionFailure) : Json :=
  .obj [("node_id", .str f.node), ("expression", .str f.expression), ("message", .str f.message)]

def NodeFailure.toJson (f : NodeFailure) : Json :=
  .obj [("node_id", .str f.node), ("error", .str f.error)]

/-- A failure as a document. -/
def NodeFailure.decoder : Decoder NodeFailure :=
  Decode.record
    [Decode.required ["node_id"] Decode.text fun v f => { f with node := v },
     Decode.required ["error"] Decode.text fun v f => { f with error := v }] ⟨"", ""⟩

def RunResult.toJson (r : RunResult) : Json :=
  .obj [("graph_id", .str r.graph), ("status", .str r.status.name), ("success", .bool r.succeeded),
    ("path", ofTexts r.path), ("steps", .arr (r.steps.map Step.toJson)), ("outputs", .obj r.outputs),
    ("metrics", .obj [("nodes_executed", ofNat r.counters.executed), ("nodes_failed", ofNat r.counters.failed),
      ("nodes_skipped", ofNat r.counters.skipped), ("retries", ofNat r.counters.retries),
      ("iterations", ofNat r.counters.iterations), ("total_duration_ms", ofNat r.elapsedMs)]),
    ("failure", ofOption (r.failure.map NodeFailure.toJson)),
    ("condition_failures", .arr (r.conditionFailures.map ConditionFailure.toJson))]

end Capability
