/-
  Capability.Execution.Round — the order in which the branches of a split move.

  Branches that are all waited for take turns in the order of their declaration. Those that
  race, and crowds, stand in a queue: they move as they are woken, when their waits end in the
  order in which these began, and when they are cancelled in the order in which the
  cancellation reaches them. A branch whose own branches have all been looked at in vain asks
  to be looked at once more, and stands in the queue from then on.

  Among the branches of a split, those that have split themselves have seats: a new split sits
  down behind the others, and when one is over, the last takes its seat. A cancellation that
  begins with a split, because a branch has won, reaches the splits inside first, the last seat
  first, then the waits in the order in which they began. One from outside reaches the splits
  without splits inside, the last seat first, then the waits, then the other splits, the first
  seat first.
-/

import Capability.Execution.Activity

namespace Capability.Execution

/-- The largest number of branches that take turns. -/
def mostInTurn : Nat := 30

/-- Whether branches take turns: each of them is looked at whenever one of them moves. -/
def takesTurns (joining : Joining) (count : Nat) : Bool := joining = .all && count ≤ mostInTurn

/-- The winner after a branch has ended: the first that is not broken off, if branches race. -/
def elect (joining : Joining) (winner : Option Nat) (i : Nat) (o : Outcome) : Option Nat :=
  match joining, winner, o.ending with
  | .first, none, .ok _ => some i
  | _, _, _ => winner

/-! ## Seats -/

/-- The seats after one of them is given up. -/
def vacate (i : Nat) (seats : List Nat) : List Nat :=
  match seats.getLast? with
  | none => []
  | some last => seats.dropLast.map fun j => if j = i then last else j

/-- The seats after the branch at a place has moved, given the splits it waited for before and
    waits for afterwards. -/
def reseat (i : Nat) (before after : Option Nat) (seats : List Nat) : List Nat :=
  if before = after then seats
  else
    let seats := if before.isSome then vacate i seats else seats
    if after.isSome then seats ++ [i] else seats

/-! ## Rounds -/

/-- How many branches are under way. -/
def underWay (branches : List (Activity Outcome)) : Nat := (branches.filter (!·.isDone)).length

/-- Whether branches are restless after a round: one of them is, if they take turns; otherwise
    all of them were looked at since the last one ended. -/
def Round.isRestless (r : Round) (joining : Joining) (branches : List (Activity Outcome)) : Bool :=
  if takesTurns joining branches.length then !r.again.isEmpty
  else underWay branches ≤ r.moves + r.again.length

/-- Whether an activity asks to be looked at once more. -/
def Activity.isRestless {α : Type} : Activity α → Bool
  | .group _ joining last branches _ => last.isRestless joining branches
  | _ => false

/-- The places of the branches that stand in the queue when the round has just taken place:
    none if all that asked for it were looked at once more. -/
def Round.queue (r : Round) (joining : Joining) (branches : List (Activity Outcome)) (now : Nat) :
    List Nat :=
  if r.now = now && r.isRestless joining branches then r.again.drop (underWay branches - r.moves) else []

/-- The round after the branch at a place has moved. A cancellation finds everybody in the
    seats they had. -/
def Round.after (r : Round) (joining : Joining) (cancelled : Bool) (i : Nat) (before : Option Nat)
    (b : Activity Outcome) : Round :=
  let seats := if cancelled || r.winner.isSome then r.seats else reseat i before b.split? r.seats
  match b with
  | .done o =>
    let winner := elect joining r.winner i o
    let callsOff := r.callsOff || (r.winner.isNone && winner.isSome && !cancelled)
    { r with seats, winner, callsOff, moves := 0 }
  | _ => { r with seats, moves := r.moves + 1, again := if b.isRestless then r.again ++ [i] else r.again }

/-! ## Orders -/

/-- Inserts an item in front of the first whose key is not less than its own. -/
def insertBy {α : Type} (key : α → Int) (a : α) : List α → List α
  | [] => [a]
  | b :: rest => if key a ≤ key b then a :: b :: rest else b :: insertBy key a rest

/-- Sorts items by a key; those with the same key stay in their order. -/
def sortBy {α : Type} (key : α → Int) (items : List α) : List α := items.foldr (insertBy key) []

/-- The places of the branches that move at a time, in order: all of them if they take turns,
    otherwise those whose waits are over. -/
def movingOrder (joining : Joining) (now : Nat) (branches : List (Activity Outcome)) : List Nat :=
  if takesTurns joining branches.length then List.range branches.length
  else
    let moving := branches.zipIdx.filterMap fun p => (p.1.waitsOver now).min?.map fun since => (since, p.2)
    (sortBy (·.1) moving).map (·.2)

/-- When a cancellation reaches a branch that is under way, compared with its siblings: the
    less, the earlier. `fromWithin` tells whether the cancellation begins with their split, and
    `waits` is more than any count of a wait. -/
def Activity.turn (fromWithin : Bool) (waits : Nat) (seats : List Nat) (i : Nat) :
    Activity Outcome → Int
  | .done _ => 0
  | .calling since .. => since
  | .pausing since .. => since
  | .group _ _ last .. =>
    if fromWithin || last.seats.isEmpty then -1 - seats.idxOf i else waits + seats.idxOf i

/-- The places of cancelled branches in the order in which they move: first those in the queue
    already. -/
def unwindingOrder (fromWithin : Bool) (joining : Joining) (waits : Nat) (queue seats : List Nat)
    (branches : List (Activity Outcome)) : List Nat :=
  if takesTurns joining branches.length then List.range branches.length
  else
    let others := branches.zipIdx.filter fun p => !queue.contains p.2
    let keyed := others.map fun p => (p.1.turn fromWithin waits seats p.2, p.2)
    queue ++ (sortBy (·.1) keyed).map (·.2)

/-- Lets the branches at some places move one after another. Once one has won, the others are
    cancelled. -/
def moveInOrder {σ : Type} (stopped : Bool) (joining : Joining)
    (movers : List (Bool → Stage σ → Activity Outcome × Stage σ)) :
    (order : List Nat) → List (Activity Outcome) → Round → Stage σ →
      List (Activity Outcome) × Round × Stage σ
  | [], branches, round, st => (branches, round, st)
  | i :: order, branches, round, st =>
    match branches[i]?, movers[i]? with
    | some before, some move =>
      let (b, st) := move (stopped || round.winner.isSome) st
      let round := round.after joining (stopped || st.cancelled) i before.split? b
      moveInOrder stopped joining movers order (branches.set i b) round st
    | _, _ => moveInOrder stopped joining movers order branches round st

end Capability.Execution
