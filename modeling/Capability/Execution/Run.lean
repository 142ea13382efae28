/-
  Capability.Execution.Run — the run of a graph from its start node.

  A segment dispatches node after node. It stops in front of a boundary, which belongs to
  whoever set it, and is broken off by a cancellation or by the visit limit. The limit is
  counted over the whole run; `budget` starts at the limit as well and falls with every
  dispatch along a segment and the segments inside it, so it is never used up before the
  limit is.
-/

import Capability.Execution.Visit

namespace Capability.Execution

/-- The break-off at a node that may not be dispatched any more. -/
def overLimit (s : Setting) (id : String) : Halt := .failed id (.visitLimit s.config.maxVisits)

/-- Walks from a node until an end, a dead end or one of the boundaries. -/
def segment (s : Setting) : (budget : Nat) → Inner
  | 0, boundaries, id => do
    if boundaries.contains id then pure (.boundary id)
    else
      Walk.checkpoint
      let _ ← Walk.mayVisit
      throw (overLimit s id)
  | budget + 1, boundaries, id => do
    if boundaries.contains id then pure (.boundary id)
    else
      Walk.checkpoint
      if ← Walk.mayVisit then
        match s.graph.node? id with
        | none => throw (.failed id (.failed id "node does not exist"))
        | some n =>
          match ← visit s (segment s budget) n with
          | .node next => segment s budget boundaries next
          | .stop flow => pure flow
      else throw (overLimit s id)

/-- How a run ended whose outermost strand ended so. -/
def statusOf : Except Halt Flow → RunStatus
  | .ok _ => .completed
  | .error .cancelled => .cancelled
  | .error (.failed ..) => .failed

/-- The failure of a run whose outermost strand ended so. -/
def failureOf : Except Halt Flow → Option NodeFailure
  | .error (.failed node fault) => some ⟨node, fault.message⟩
  | _ => none

/-- The run from a start node. -/
def runFrom (s : Setting) (start : String) (c : Context) : Process Outcome := do
  let _ ← Process.request (.notify (.event (.runStarted s.graph.id s.graph.nodes.length)))
  let o ← Walk.strand (segment s s.config.maxVisits [] start) { context := c }
  let _ ← Process.request (.notify (.event (.runFinished (statusOf o.ending))))
  pure o

/-- The run of a graph, unless the graph is not valid. -/
def run (s : Setting) (c : Context) : Except Fault (Process Outcome) :=
  let report := s.graph.validate
  if report.isValid then
    match s.graph.start? with
    | some n => .ok (runFrom s n.id c)
    | none => .error (.other "graph has no start node")
  else .error (.invalid report.errors)

/-- The result of a run that ended with an outcome. -/
def Outcome.result (o : Outcome) (g : Graph) (elapsedMs : Nat) : RunResult :=
  .ofScope g.id o.scope (statusOf o.ending) (failureOf o.ending) elapsedMs

end Capability.Execution
