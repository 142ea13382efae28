/-
  Capability.Graph.Reach — what can be reached from an id, breadth first.
-/

import Capability.Graph.Basic

namespace Capability.Graph

/-- Adds the ids not seen yet, in order. -/
def addFresh (seen : List String) : List String → List String
  | [] => []
  | id :: rest => if seen.contains id then addFresh seen rest else id :: addFresh (id :: seen) rest

/-- Takes ids from the queue one by one and queues what they lead to, each id once. -/
def explore (next : String → List String) : Nat → List String → List String → List String
  | 0, seen, _ => seen
  | _, seen, [] => seen
  | fuel + 1, seen, id :: queue =>
    let fresh := addFresh seen (next id)
    explore next fuel (seen ++ fresh) (queue ++ fresh)

/-- The ids reachable from an id, itself included, where `next` never leads to more than
    `bound` different ids. -/
def closure (next : String → List String) (bound : Nat) (id : String) : List String :=
  explore next (bound + 1) [id] [id]

/-- The ids reachable from an id over edges that are accepted. -/
def reachable (g : Graph) (accept : Edge → Bool) (id : String) : List String :=
  closure (fun id => ((g.outgoing id).filter accept).map (·.target)) g.edges.length id

end Capability.Graph
