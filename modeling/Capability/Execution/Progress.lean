/-
  Capability.Execution.Progress — activities moving on.

  Time stands still while a process computes: it moves until it has to wait for an answer or
  for the end of a pause. A leaf that is looked at again is cancelled before anything else,
  then takes its answer, then runs into its time limit. Cancelled processes never wait, so a
  cancelled activity can be unwound to its end at once.
-/

import Capability.Execution.Round

namespace Capability.Execution

variable {σ : Type} (c : Collaborators σ) (maxVisits : Nat)

/-- Passes a notice on. -/
def Stage.tell (st : Stage σ) (n : Notice) : Stage σ :=
  let (cancels, memory) := c.told n st.now st.memory
  { st with memory, withdrawn := st.withdrawn || cancels }

/-- Counts a dispatch. -/
def Stage.visit (st : Stage σ) : Bool × Stage σ :=
  (st.visits < maxVisits, { st with visits := st.visits + 1 })

/-! ## Cancelled activities -/

/-- Runs a cancelled process to its end. -/
def Process.unwind {α : Type} : Process α → Stage σ → α × Stage σ
  | .done a, st => (a, st)
  | .ask .visit next, st =>
    let (allowed, st) := st.visit maxVisits
    unwind (next allowed) st
  | .ask .stopped next, st => unwind (next true) st
  | .ask (.notify n) next, st => unwind (next ()) (st.tell c n)
  | .ask (.call _ _) next, st => unwind (next .cancelled) st
  | .ask (.pause _) next, st => unwind (next true) st
  | .split joining _ branch next, st =>
    let (outcomes, winner, st) := (List.finRange _).foldl
      (fun (acc : List Outcome × Option Nat × Stage σ) i =>
        let (outcomes, winner, st) := acc
        let (o, st) := unwind (branch i) st
        (outcomes ++ [o], elect joining winner i o, st)) ([], none, st)
    unwind (next ⟨outcomes, winner⟩) st

/-- How a branch moves that is unwound. -/
def toEnd (unwinder : Stage σ → Outcome × Stage σ) : Bool → Stage σ → Activity Outcome × Stage σ := fun _ st =>
  let (o, st) := unwinder st
  (.done o, st)

mutual

/-- Runs a cancelled activity to its end. -/
def Activity.unwind {α : Type} : Activity α → Stage σ → α × Stage σ
  | .done a, st => (a, st)
  | .calling _ _ _ _ next, st => (next .cancelled).unwind c maxVisits st
  | .pausing _ _ next, st => (next true).unwind c maxVisits st
  | .group _ joining last branches next, st =>
    let order := unwindingOrder false joining st.waits (last.queue joining branches st.now) last.seats branches
    let (branches, round, st) :=
      moveInOrder true joining ((Activity.unwinders branches).map toEnd) order branches { now := st.now } st
    (next ⟨outcomesOf branches, round.winner⟩).unwind c maxVisits st

/-- How each of some branches is unwound. -/
def Activity.unwinders : List (Activity Outcome) → List (Stage σ → Outcome × Stage σ)
  | [] => []
  | b :: bs => Activity.unwind b :: Activity.unwinders bs

end

/-- Branches that do not take turns are unwound at the end of a round in which one of them has
    won or the run is cancelled. -/
def Round.settle (r : Round) (stopped : Bool) (joining : Joining) (branches : List (Activity Outcome))
    (st : Stage σ) : List (Activity Outcome) × Round × Stage σ :=
  if !takesTurns joining branches.length && (stopped || st.cancelled || r.winner.isSome) then
    let order := unwindingOrder r.callsOff joining st.waits r.again r.seats branches
    moveInOrder stopped joining ((Activity.unwinders c maxVisits branches).map toEnd) order branches r st
  else (branches, r, st)

/-- What becomes of a split after a round of its branches: it goes on if all of them are over,
    and waits otherwise. -/
def Round.close {α : Type} (r : Round) (stopped : Bool) (since : Nat) (joining : Joining)
    (branches : List (Activity Outcome)) (next : Gathered → Process α)
    (goOn : Gathered → Stage σ → Activity α × Stage σ) (st : Stage σ) : Activity α × Stage σ :=
  let (branches, r, st) := r.settle c maxVisits stopped joining branches st
  if branches.all Activity.isDone then goOn ⟨outcomesOf branches, r.winner⟩ st
  else (.group since joining r branches next, st)

/-! ## Moving on -/

/-- Lets a process move until it has to wait. -/
def Process.perform {α : Type} (stopped : Bool) : Process α → Stage σ → Activity α × Stage σ
  | .done a, st => (.done a, st)
  | .ask .visit next, st =>
    let (allowed, st) := st.visit maxVisits
    perform stopped (next allowed) st
  | .ask .stopped next, st => perform stopped (next (stopped || st.cancelled)) st
  | .ask (.notify n) next, st => perform stopped (next ()) (st.tell c n)
  | .ask (.call k limit) next, st =>
    if stopped || st.cancelled then perform stopped (next .cancelled) st
    else
      let since := st.waits
      let (r, memory) := c.respond k st.now st.memory
      let st := { st with memory, waits := st.waits + 1 }
      let expiry := limit.map fun d => st.now + d.ticks
      match r.take (some (st.now + r.delay)) expiry st with
      | (some answer, _, st) => perform stopped (next answer) st
      | (none, due, st) => (.calling since due expiry r next, st)
  | .ask (.pause d) next, st =>
    if stopped || st.cancelled then perform stopped (next true) st
    else if d.ticks = 0 then perform stopped (next false) st
    else (.pausing st.waits (st.now + d.ticks) next, { st with waits := st.waits + 1 })
  | .split joining _ branch next, st =>
    let since := st.waits
    let (branches, round, st) := (List.finRange _).foldl
      (fun (acc : List (Activity Outcome) × Round × Stage σ) i =>
        let (branches, round, st) := acc
        let (b, st) := perform (stopped || round.winner.isSome) (branch i) st
        (branches ++ [b], round.after joining (stopped || st.cancelled) i none b, st))
      ([], { now := st.now }, st)
    round.close c maxVisits stopped since joining branches next (fun g st => perform stopped (next g) st) st

mutual

/-- Lets an activity move at the present time until it has to wait again. -/
def Activity.wake {α : Type} (stopped : Bool) : Activity α → Stage σ → Activity α × Stage σ
  | .done a, st => (.done a, st)
  | .calling since due expiry r next, st =>
    if stopped || st.cancelled then (next .cancelled).perform c maxVisits stopped st
    else
      match r.take due expiry st with
      | (some answer, _, st) => (next answer).perform c maxVisits stopped st
      | (none, due, st) => (.calling since due expiry r next, st)
  | .pausing since due next, st =>
    if stopped || st.cancelled then (next true).perform c maxVisits stopped st
    else if due ≤ st.now then (next false).perform c maxVisits stopped st
    else (.pausing since due next, st)
  | .group since joining last branches next, st =>
    let (branches, round, st) :=
      moveInOrder stopped joining (Activity.movers branches) (movingOrder joining st.now branches)
        branches { now := st.now, seats := last.seats } st
    round.close c maxVisits stopped since joining branches next
      (fun g st => (next g).perform c maxVisits stopped st) st

/-- How each of some branches moves, given whether it is cancelled. -/
def Activity.movers : List (Activity Outcome) → List (Bool → Stage σ → Activity Outcome × Stage σ)
  | [] => []
  | b :: bs => (fun stopped st => Activity.wake stopped b st) :: Activity.movers bs

end

end Capability.Execution
