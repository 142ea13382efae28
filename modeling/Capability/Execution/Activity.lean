/-
  Capability.Execution.Activity — processes under way, and what surrounds them.

  The collaborators decide how a call is answered and when. An activity is a tree: its leaves
  wait for an answer or for the end of a pause, and a process that has split is a group of
  branches. The waits of a run are counted in the order in which they begin.
-/

import Capability.Execution.Run

namespace Capability.Execution

/-- How a call is going to be answered. -/
structure Response where
  /-- Milliseconds until the answer. -/
  delay : Nat := 0
  /-- Whether the run is cancelled just before the answer. -/
  cancels : Bool := false
  /-- The answer; none if there never is one. -/
  outcome : Option (Except Fault Json)

/-- Who answers the calls of a run and is told of its progress, with a memory. -/
structure Collaborators (σ : Type) where
  respond : Call → (now : Nat) → σ → Response × σ
  /-- Takes note of a notice; whether the run is to be cancelled because of it. -/
  told : Notice → (now : Nat) → σ → Bool × σ

/-- What all strands of a run share. -/
structure Stage (σ : Type) where
  /-- Milliseconds since the beginning. -/
  now : Nat := 0
  visits : Nat := 0
  /-- Whether whoever started the run has cancelled it. -/
  withdrawn : Bool := false
  /-- Whether its time is used up. -/
  expired : Bool := false
  /-- How many waits were begun. -/
  waits : Nat := 0
  memory : σ

def Stage.cancelled {σ : Type} (st : Stage σ) : Bool := st.withdrawn || st.expired

/-- A round of moves among the branches of a split. -/
structure Round where
  /-- The time at which it takes place. -/
  now : Nat
  /-- The places of the branches that have split themselves, by their seats. -/
  seats : List Nat := []
  /-- The branch that has won. -/
  winner : Option Nat := none
  /-- Whether the others were called off by that, and not by a cancellation before it. -/
  callsOff : Bool := false
  /-- How many branches moved since the last one ended. -/
  moves : Nat := 0
  /-- The places of the branches that ask to be looked at once more. -/
  again : List Nat := []

/-- A process under way that ends with an `α`. -/
inductive Activity : Type → Type 1 where
  | done {α : Type} (a : α) : Activity α
  /-- Waits for the answer to a call, due at some time unless it never comes, until the
      expiry of a limit. `since` counts the waits begun before, in the whole run. -/
  | calling {α : Type} (since : Nat) (due expiry : Option Nat) (response : Response)
      (next : Answer → Process α) : Activity α
  | pausing {α : Type} (since due : Nat) (next : Bool → Process α) : Activity α
  /-- Branches of which some are under way, after their last round. -/
  | group {α : Type} (since : Nat) (joining : Joining) (last : Round) (branches : List (Activity Outcome))
      (next : Gathered → Process α) : Activity α

instance {α : Type} [Inhabited α] : Inhabited (Activity α) := ⟨.done default⟩

/-- Whether an activity is over. -/
def Activity.isDone {α : Type} : Activity α → Bool
  | .done _ => true
  | _ => false

/-- The split whose branches an activity waits for, counted like `since`. -/
def Activity.split? {α : Type} : Activity α → Option Nat
  | .group since .. => some since
  | _ => none

/-- What an activity has ended with. -/
def Activity.outcome? {α : Type} : Activity α → Option α
  | .done a => some a
  | _ => none

/-- The outcomes of the branches that are over. -/
def outcomesOf (branches : List (Activity Outcome)) : List Outcome := branches.filterMap Activity.outcome?

/-! ## Waits -/

/-- Whether a time has come. -/
def isOver (now : Nat) (time : Option Nat) : Bool := time.any (· ≤ now)

/-- Looks at a call under way: its answer, if there is one now, and when it is due otherwise.
    An answer that is due comes before the expiry of the limit. -/
def Response.take {σ : Type} (r : Response) (due expiry : Option Nat) (st : Stage σ) :
    Option Answer × Option Nat × Stage σ :=
  let late := if isOver st.now expiry then some Answer.timedOut else none
  if isOver st.now due then
    let st := { st with withdrawn := st.withdrawn || r.cancels }
    match r.outcome with
    | some outcome => (some (.given outcome), none, st)
    | none => (late, none, st)
  else (late, due, st)

/-- The times at which something happens in an activity of its own accord. -/
def Activity.timers {α : Type} : Activity α → List Nat
  | .done _ => []
  | .calling _ due expiry .. => due.toList ++ expiry.toList
  | .pausing _ due _ => [due]
  | .group _ _ _ branches _ => timersAll branches
where
  timersAll : List (Activity Outcome) → List Nat
  | [] => []
  | b :: bs => b.timers ++ timersAll bs

/-- The waits of an activity that are over, each counted like `since`. -/
def Activity.waitsOver {α : Type} (now : Nat) : Activity α → List Nat
  | .done _ => []
  | .calling since due expiry .. => if isOver now due || isOver now expiry then [since] else []
  | .pausing since due _ => if due ≤ now then [since] else []
  | .group _ _ _ branches _ => waitsOverAll now branches
where
  waitsOverAll (now : Nat) : List (Activity Outcome) → List Nat
  | [] => []
  | b :: bs => b.waitsOver now ++ waitsOverAll now bs

end Capability.Execution
