/-
  Capability.Execution.Recovery — getting a value out of a skill node, and what becomes of
  a node that fails for good.

  A skill is attempted with retries. When they are used up, the alternative implementations
  of the node are tried, each skill at most once: those whose conditions hold, by priority,
  and in front of them the fallbacks of an implementation that has just failed. A node that
  still fails is left over its first fallback edge whose trigger holds; without one, the
  strategy of the graph decides between skipping the node and breaking off.
-/

import Capability.Execution.Walk
import Capability.Lint
import Capability.Retry
import Capability.Json.Printer

namespace Capability.Execution

open Json

/-! ## Attempts -/

/-- How a call that is over counts for a node with a time limit. -/
def Answer.outcome (a : Answer) (node : String) (limit : Option Duration) : Except Fault Json :=
  match a with
  | .given outcome => outcome
  | .timedOut => .error (.timedOut node (limit.getD .zero).millis)
  | .cancelled => .error .cancelled

/-- Makes a call on behalf of a node. -/
def call (node : String) (c : Call) (limit : Option Duration) : Walk (Except Fault Json) := do
  pure ((← Walk.request (.call c limit)).outcome node limit)

/-- The waits between the attempts at a skill. -/
def Setting.backoff (s : Setting) : Backoff :=
  match s.graph.retryDelay with
  | some delay => .fixed delay
  | none => s.config.backoff

/-- The time an attempt at a skill node may take. -/
def Setting.skillLimit (s : Setting) (n : Node) : Option Duration :=
  n.timeLimit.or s.config.defaultTimeLimit

/-- Attempts a skill with retries. Every attempt sees the variables as they are now. -/
def attemptSkill (s : Setting) (n : Node) (skill : String) (implementation : Option String) :
    Walk (Retried Json) := do
  let c := (← get).context
  let attempts : Attempts Walk Json :=
    { attempt := fun attempt =>
        call n.id (.skill { node := n.id, skill, implementation, attempt, vars := c.vars,
                            intent := c.intent, depth := c.depth }) (s.skillLimit n)
      announce := fun attempt delay => Walk.emit (.nodeRetrying n.id attempt delay)
      pause := fun delay => Walk.request (.pause delay) }
  attempts.run s.backoff s.graph.maxRetries 0

/-! ## Alternatives -/

/-- What came of a visit of a skill node: the value and the implementation that gave it,
    none for the skill of the node itself, or the last fault; and the retries made. -/
structure Recovered where
  outcome : Except Fault (Json × Option String)
  retries : Nat

/-- Whether a condition of an implementation holds; the word `default` always does. -/
def implementationHolds (n : Node) (condition : String) : Walk Bool :=
  if Lint.isDefault condition then pure true else Walk.holds n.id condition

/-- The implementations whose conditions all hold, by priority. -/
def rankedImplementations (n : Node) : Walk (List Implementation) := do
  let applicable ← Walk.keepWhere (fun i => Walk.allHold (implementationHolds n) i.conditions) n.implementations
  pure (applicable.mergeSort fun a b => a.priority ≤ b.priority)

/-- The implementations named as fallbacks of one, each the first of its id. -/
def fallbacksOf (n : Node) (i : Implementation) : List Implementation :=
  i.fallbacks.filterMap fun id => n.implementations.find? (·.id = id)

/-- Tries the queued implementations one after another, passing over skills that were
    attempted before; at most `room` of them. -/
def tryAlternatives (s : Setting) (n : Node) :
    Nat → List String → List Implementation → Nat → Fault → Walk Recovered
  | room, attempted, queue, retries, last =>
    match queue.dropWhile fun i => attempted.contains i.skillId with
    | [] => pure ⟨.error last, retries⟩
    | i :: rest =>
      match room with
      | 0 => pure ⟨.error last, retries⟩
      | room + 1 => do
        Walk.emit (.fallbackUsed n.id i.id)
        let r ← attemptSkill s n i.skillId (some i.id)
        match r.outcome with
        | .ok v => pure ⟨.ok (v, some i.id), retries + r.retries⟩
        | .error fault =>
          if fault.isTerminal then pure ⟨.error fault, retries + r.retries⟩
          else
            tryAlternatives s n room (i.skillId :: attempted) (fallbacksOf n i ++ rest)
              (retries + r.retries) fault

/-- Gets a value out of a skill node. Every alternative that is tried has a skill of its own
    among the implementations, so there are no more tries than implementations. -/
def recover (s : Setting) (n : Node) (skill : String) : Walk Recovered := do
  let r ← attemptSkill s n skill none
  match r.outcome with
  | .ok v => pure ⟨.ok (v, none), r.retries⟩
  | .error fault =>
    if fault.isTerminal then pure ⟨.error fault, r.retries⟩
    else tryAlternatives s n n.implementations.length [skill] (← rankedImplementations n) r.retries fault

/-! ## Failure -/

/-- The variables a trigger is looked at under: those of the scope, and what is known of the
    failure. -/
def triggerVariables (vars : Keyed Json) (n : Node) (fault : Fault) : Keyed Json :=
  ((vars.insert "error" (.str fault.message)).insert "error_kind" (.str fault.kind)).insert
    "failed_node" (.str n.id)

/-- Whether a fallback edge is taken after a failure; one without a trigger always is. -/
def triggers (vars : Keyed Json) (n : Node) (e : Edge) : Walk Bool :=
  match e.trigger with
  | none => pure true
  | some t => Walk.holdsUnder vars n.id t

/-- The question put when the strategy of the graph leaves it to somebody outside. -/
def skipQuestion (n : Node) (fault : Fault) : Question where
  node := n.id
  kind := .confirm
  prompt := "Node '" ++ n.id ++ "' failed: " ++ fault.message ++ ". Skip it and continue?"

/-- Whether a failed node is skipped by the strategy of the graph. -/
def skips (s : Setting) (n : Node) (step : OpenStep) (fault : Fault) : Walk Bool :=
  match s.graph.strategy with
  | .skip => pure true
  | .abort | .firstSuccess => pure false
  | .retryThenAsk => do
    modify (·.awaitStep step)
    let q := skipQuestion n fault
    Walk.emit (.questionAsked n.id q.prompt)
    match ← call n.id (.question q) none with
    | .ok v => pure (Condition.isTruthy v)
    | .error .cancelled => Walk.cancelStep n step
    | .error _ => pure false

/-- What becomes of a node that failed for good. -/
def handleFailure (s : Setting) (n : Node) (step : OpenStep) (fault : Fault) (retries : Nat) : Walk Next := do
  let vars := triggerVariables (← get).context.vars n fault
  let report : StepReport := { error := some fault.message, retryCount := retries }
  match ← Walk.firstWhere (triggers vars n) ((s.graph.outgoing n.id).filter (·.kind = .fallback)) with
  | some e =>
    Walk.emit (.fallbackUsed n.id e.target)
    Walk.finishStep n step .failed { report with fallbackUsed := true }
    pure (.node e.target)
  | none =>
    if ← skips s n step fault then
      Walk.finishStep n step .skipped report
      advance s n.id
    else Walk.failStep n step report fault

end Capability.Execution
