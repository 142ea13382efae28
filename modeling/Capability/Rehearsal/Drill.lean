/-
  Capability.Rehearsal.Drill — repeated attempts alone, without a graph: every attempt has a
  scripted reply, and what is announced may lead to a cancellation.
-/

import Capability.Rehearsal.Script

namespace Capability.Rehearsal

open Json Execution

/-- How a drill goes. -/
structure Drill where
  maxRetries : Nat
  backoff : Backoff
  /-- The reply to each attempt; past the end, attempts succeed. -/
  replies : List Reply
  /-- The attempt whose announcement leads to a cancellation. -/
  cancelOn : Option Nat := none

/-- The value of an attempt without a scripted reply. -/
def Drill.unscripted : Json := .str "default"

/-- The attempts made and announced, in order. -/
structure DrillLog where
  attempts : List (Nat × Nat) := []
  announced : List (Nat × Duration) := []
  deriving Inhabited

/-- Collaborators that reply to attempts by their number. -/
def Drill.collaborators (d : Drill) : Collaborators DrillLog where
  respond call now log :=
    match call with
    | .skill i =>
      let log := { log with attempts := log.attempts ++ [(i.attempt, now)] }
      match d.replies[i.attempt]? with
      | some r => (r.response (r.content.toSkill i), log)
      | none => ({ outcome := some (.ok unscripted) }, log)
    | .question _ => ({ outcome := none }, log)
  told n _ log :=
    match n with
    | .event (.nodeRetrying _ attempt delay) =>
      (d.cancelOn = some attempt, { log with announced := log.announced ++ [(attempt, delay)] })
    | _ => (false, log)

/-- The attempts of a drill as a process, made for a node and a skill. -/
def Drill.process (d : Drill) (node skill : String) : Process (Retried Json) :=
  let attempts : Attempts Process Json :=
    { attempt := fun attempt => do
        let i : Invocation := { node, skill, implementation := none, attempt, vars := [],
                                intent := "", depth := .balanced }
        pure (Answer.outcome (← Process.request (.call (.skill i) none)) node none)
      announce := fun attempt delay => Process.request (.notify (.event (.nodeRetrying node attempt delay)))
      pause := fun delay => Process.request (.pause delay) }
  attempts.run d.backoff d.maxRetries 0

/-- Carries a drill out: what came of it, the log, and how long it took; none if it is never
    over. Every attempt can begin two waits. -/
def Drill.run (d : Drill) (node skill : String) : Option (Retried Json × DrillLog × Nat) :=
  ((d.process node skill).play d.collaborators 0 {} (2 * (d.maxRetries + 1)) {}).map
    fun (r, st) => (r, st.memory, st.now)

end Capability.Rehearsal
