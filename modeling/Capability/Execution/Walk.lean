/-
  Capability.Execution.Walk — the moves of one strand of a run: telling others, keeping the
  steps of its scope, deciding conditions and choosing where to go on.

  A walk works on a scope of its own and may be broken off. A condition that cannot be
  evaluated is reported, recorded and counts as false.
-/

import Capability.Config
import Capability.Execution.Process
import Capability.Graph.Pairing
import Capability.Condition.Eval

namespace Capability.Execution

open Json

/-- What a run goes by from beginning to end. -/
structure Setting where
  graph : Graph
  config : Config := {}
  deriving Inhabited

abbrev Walk := ExceptT Halt (StateT Scope Process)

namespace Walk

/-- Makes a request. -/
def request (q : Request) : Walk q.Reply := ExceptT.lift (StateT.lift (Process.request q))

def notify (n : Notice) : Walk Unit := request (.notify n)

def emit (e : Event) : Walk Unit := notify (.event e)

/-- Whether the run is cancelled. -/
def isStopped : Walk Bool := request .stopped

/-- Counts a dispatch; whether it may be made. -/
def mayVisit : Walk Bool := request .visit

/-- Breaks off if the run is cancelled. -/
def checkpoint : Walk Unit := do
  if ← isStopped then throw .cancelled

/-- The walk from a scope as a process. -/
def strand (w : Walk Flow) (s : Scope) : Process Outcome := do
  let (ending, scope) ← StateT.run (ExceptT.run w) s
  pure ⟨ending, scope⟩

/-- Splits into walks from scopes of their own. -/
def split (joining : Joining) (branches : List (Walk Flow)) (s : Scope) : Walk Gathered :=
  ExceptT.lift (StateT.lift
    (.split joining branches.length (fun i => (branches[i]).strand s) .done))

/-! ## Steps -/

/-- Begins the step of a node. -/
def beginStep (n : Node) : Walk OpenStep := do
  notify (.started n.id n.kind)
  emit (.nodeStarted n.id n.kind)
  let step := (← get).nextStep n.id
  modify (·.beginStep n.id)
  pure step

/-- Tells that the step of a node is over. -/
def announceEnd (n : Node) (status : StepStatus) : Walk Unit := do
  notify (.completed n.id status)
  emit (.nodeCompleted n.id status)

def finishStep (n : Node) (step : OpenStep) (status : StepStatus) (report : StepReport) : Walk Unit := do
  modify (·.finishStep step status report)
  announceEnd n status

/-- Closes a step that a cancellation interrupted and breaks off. -/
def cancelStep {α : Type} (n : Node) (step : OpenStep) : Walk α := do
  modify (·.cancelStep step)
  announceEnd n .skipped
  throw .cancelled

/-- Finishes a step as failed and breaks off. -/
def failStep {α : Type} (n : Node) (step : OpenStep) (report : StepReport) (fault : Fault) : Walk α := do
  finishStep n step .failed { report with error := some fault.message }
  throw (.failed n.id fault)

/-- A step that is over as soon as it is begun. -/
def passThrough (n : Node) : Walk Unit := do
  let step ← beginStep n
  finishStep n step .completed {}

/-! ## Conditions -/

/-- Reports and records a condition that could not be evaluated. -/
def noteFailure (f : ConditionFailure) : Walk Unit := do
  emit (.conditionFailed f)
  modify (·.recordFailure f)

/-- Whether a condition that is looked at from a node holds under some variables. -/
def holdsUnder (vars : Keyed Json) (node expression : String) : Walk Bool :=
  match Condition.holds expression vars with
  | .ok b => pure b
  | .error e => do
    noteFailure ⟨node, expression, e.message⟩
    pure false

/-- Whether a condition that is looked at from a node holds under the variables of the
    scope. -/
def holds (node expression : String) : Walk Bool := do
  holdsUnder (← get).context.vars node expression

/-- Whether all conditions hold; those behind the first that does not are not looked at. -/
def allHold (test : String → Walk Bool) : List String → Walk Bool
  | [] => pure true
  | c :: rest => do if ← test c then allHold test rest else pure false

/-- The first item that passes a test; those behind it are not looked at. -/
def firstWhere {α : Type} (test : α → Walk Bool) : List α → Walk (Option α)
  | [] => pure none
  | a :: rest => do if ← test a then pure (some a) else firstWhere test rest

/-- The items that pass a test. -/
def keepWhere {α : Type} (test : α → Walk Bool) : List α → Walk (List α)
  | [] => pure []
  | a :: rest => do
    let kept ← test a
    let others ← keepWhere test rest
    pure (if kept then a :: others else others)

end Walk

/-! ## Choosing where to go on -/

/-- The edge to take out of a node: the first whose condition holds, otherwise the first
    without a condition. Edges behind the first that holds are not looked at. -/
def chooseEdge (node : String) : List Edge → Option Edge → Walk (Option Edge)
  | [], unconditional => pure unconditional
  | e :: rest, unconditional =>
    match e.guard? with
    | none => chooseEdge node rest (unconditional.or (some e))
    | some c => do if ← Walk.holds node c then pure (some e) else chooseEdge node rest unconditional

/-- The node to go on with after a node. -/
def successor (s : Setting) (node : String) : Walk (Option String) := do
  pure ((← chooseEdge node (s.graph.flow node) none).map (·.target))

/-- Where a strand goes after a node. -/
inductive Next where
  | node (id : String)
  | stop (flow : Flow)
  deriving DecidableEq, Repr, Inhabited

/-- Goes on with the successor of a node, or stops if there is none. -/
def advance (s : Setting) (node : String) : Walk Next := do
  match ← successor s node with
  | some id => pure (.node id)
  | none => pure (.stop .deadEnd)

end Capability.Execution
