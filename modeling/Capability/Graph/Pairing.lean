/-
  Capability.Graph.Pairing — which loop end closes a loop, and which join a split waits
  for.

  A loop start is paired through the first iteration edge back to it that leaves a loop
  end reachable from it. A split is paired with the first join, breadth first along flow
  edges, that is not the join of another split opened on the way: `depth` counts the splits
  opened and not yet joined. A way with more open splits than the graph has nodes is given
  up: no join is found first on such a way.
-/

import Capability.Graph.Reach

namespace Capability.Graph

/-- Whether some node of this id and kind is declared. -/
def declares (g : Graph) (kind : NodeKind) (id : String) : Bool :=
  g.nodes.any fun n => n.id = id && n.kind = kind

/-- The iteration edge that closes the loop started by an id. -/
def iterationEdge? (g : Graph) (id : String) : Option Edge :=
  if g.declares .loopStart id then
    let within := g.reachable (·.kind != .iteration) id
    (g.incoming id).find? fun e =>
      e.kind = .iteration && within.contains e.source && g.kind? e.source = some .loopEnd
  else none

/-- The loop end paired with a loop start. -/
def loopEnd? (g : Graph) (id : String) : Option String := (g.iterationEdge? id).map (·.source)

/-- The splits open after passing a node, if the way is not given up there. -/
def depthAfter (g : Graph) (kind : NodeKind) (depth : Nat) : Option Nat :=
  match kind with
  | .join => some (depth - 1)
  | .split => if depth < g.nodes.length then some (depth + 1) else none
  | _ => some depth

/-- Looks for the join among the queued ids, each with the number of splits open there. -/
def searchJoin (g : Graph) : Nat → List (String × Nat) → List (String × Nat) → Option String
  | 0, _, _ => none
  | _, _, [] => none
  | fuel + 1, seen, (id, depth) :: queue =>
    if seen.contains (id, depth) then searchJoin g fuel seen queue
    else match g.kind? id with
      | none => searchJoin g fuel ((id, depth) :: seen) queue
      | some kind =>
        if kind = .join ∧ depth = 0 then some id
        else match g.depthAfter kind depth with
          | none => searchJoin g fuel ((id, depth) :: seen) queue
          | some after =>
            searchJoin g fuel ((id, depth) :: seen) (queue ++ (g.flow id).map (·.target, after))

/-- The join of a split, looked for along its flow edges. Every edge is queued at most
    once per depth and once at the split itself. -/
def findJoin (g : Graph) (id : String) : Option String :=
  searchJoin g (g.edges.length * (g.nodes.length + 2) + 1) [] ((g.flow id).map (·.target, 0))

/-- The join paired with a split. -/
def join? (g : Graph) (id : String) : Option String :=
  if g.declares .split id then g.findJoin id else none

theorem node?_id {g : Graph} {id : String} {n : Node} (h : g.node? id = some n) : n.id = id := by
  simpa using List.find?_some h

theorem searchJoin_isJoin {g : Graph} {fuel : Nat} {seen queue : List (String × Nat)} {id : String}
    (h : g.searchJoin fuel seen queue = some id) : g.kind? id = some .join := by
  fun_induction searchJoin g fuel seen queue with
  | case1 | case2 => cases h
  | case3 | case4 | case5 | case6 | case7 => simp_all

/-- The join of a split is a join that is declared. -/
theorem join?_isJoin {g : Graph} {id j : String} (h : g.join? id = some j) :
    ∃ n, g.node? j = some n ∧ n.id = j ∧ n.kind = .join := by
  unfold join? at h
  split at h
  · obtain ⟨n, hn, hk⟩ := Option.map_eq_some_iff.mp (searchJoin_isJoin h)
    exact ⟨n, hn, node?_id hn, hk⟩
  · cases h

end Capability.Graph
