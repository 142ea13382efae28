/-
  Capability.Execution.Clock — a run on a clock of its own, which jumps to the next moment at
  which something happens whenever nothing can move any more.

  At such a moment the answers that are due are taken first; then whoever started the run
  may cancel it, or its time may be used up. Each jump ends a wait, ends the hope for an
  answer that never comes, or cancels the run, so a bound on the waits bounds the jumps.
-/

import Capability.Execution.Progress

namespace Capability.Execution

/-- When a run is cancelled at the latest, in milliseconds since its beginning. -/
structure Deadlines where
  /-- Whoever started the run cancels it then. -/
  withdrawal : Option Nat := none
  /-- Its time is used up then. -/
  expiry : Option Nat := none
  deriving DecidableEq, Repr, Inhabited

/-- The earliest of some times. -/
def earliest (times : List Nat) : Option Nat := times.min?

variable {σ : Type} (c : Collaborators σ) (maxVisits : Nat) (d : Deadlines)

/-- What the deadlines do to the stage at the present time. -/
def Deadlines.strike (st : Stage σ) : Stage σ :=
  { st with withdrawn := st.withdrawn || isOver st.now d.withdrawal
            expired := st.expired || isOver st.now d.expiry }

/-- Plays an activity to its end in at most `jumps` jumps of the clock; none if it never
    ends. -/
def play {α : Type} : (jumps : Nat) → Activity α → Stage σ → Option (α × Stage σ)
  | _, .done a, st => some (a, st)
  | 0, _, _ => none
  | jumps + 1, a, st =>
    let st := d.strike st
    if st.cancelled then some (a.unwind c maxVisits st)
    else
      match earliest (a.timers ++ d.withdrawal.toList ++ d.expiry.toList) with
      | none => none
      | some now =>
        let (a, st) := a.wake c maxVisits false { st with now }
        play jumps a st

/-- Plays a process that begins at most `waits` waits. A withdrawal at time zero comes
    before the process. -/
def Process.play {α : Type} (waits : Nat) (p : Process α) (memory : σ) : Option (α × Stage σ) :=
  let st : Stage σ := { memory, withdrawn := d.withdrawal = some 0 }
  let (a, st) := p.perform c maxVisits false st
  Execution.play c maxVisits d (2 * waits + 3) a st

/-- How many waits a visit of a node can begin: for every attempt at each of its skills the
    call and a pause, for a failure a question. -/
def waitsPerVisit (g : Graph) (n : Node) : Nat := 2 * (g.maxRetries + 1) * (n.implementations.length + 1) + 1

/-- How many waits a run can begin. -/
def Setting.waits (s : Setting) : Nat :=
  s.config.maxVisits * ((s.graph.nodes.map (waitsPerVisit s.graph)).foldl max 0)

end Capability.Execution
