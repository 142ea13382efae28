/-
  Capability.Execution.Visit — what a node does when it is dispatched.

  Loops and splits walk through other nodes; how that is done is a parameter, so that
  every visit is a plain function of its node.
-/

import Capability.Execution.Recovery

namespace Capability.Execution

open Json

/-- How to walk from a node until an end, a dead end or one of some boundaries. -/
abbrev Inner := (boundaries : List String) → (start : String) → Walk Flow

/-! ## Branches -/

def visitBranch (n : Node) : Walk Next := do
  let step ← Walk.beginStep n
  match n.conditions with
  | [] => Walk.failStep n step {} (.failed n.id "branch node has no conditions")
  | first :: _ =>
    let matched ← Walk.firstWhere (fun c => Walk.holds n.id c.expression) n.conditions
    let chosen := matched.getD first
    Walk.finishStep n step .completed
      { result := some (.obj [("condition", .str chosen.name), ("target", .str chosen.target),
                              ("defaulted", .bool matched.isNone)]) }
    pure (.node chosen.target)

/-! ## Loops -/

/-- The passes a loop may make. -/
def passBound (n : Node) (e : Edge) : Nat :=
  match e.maxCount with
  | some cap => min cap n.iterationBound
  | none => n.iterationBound

/-- Whether a loop is over after a pass that came to its end. -/
def exits (loopEnd : String) (e : Edge) : Walk Bool :=
  match e.exitCondition with
  | some c => Walk.holds loopEnd c
  | none => pure true

/-- Writes the number of a pass into its variables and counts the pass. -/
def numberPass (s : Setting) (n : Node) (i : Nat) : Walk Unit :=
  modify fun scope =>
    ((scope.set s.config.iterationVariable (.ofNat i)).set (n.id ++ "_iteration") (.ofNat i)).countPass

/-- Passes through the node with an id, if it is declared. -/
def passNode (s : Setting) (id : String) : Walk Unit :=
  match s.graph.node? id with
  | some n => Walk.passThrough n
  | none => pure ()

/-- A pass that came to the end of its loop; whether the loop is over. -/
def closePass (s : Setting) (e : Edge) : Walk Bool := do
  Walk.checkpoint
  passNode s e.source
  exits e.source e

/-- Makes the pass of number `i` and the `left - 1` that may follow; whether an end node was
    completed on the way. -/
def passes (s : Setting) (inner : Inner) (n : Node) (e : Edge) : (left i : Nat) → Walk Bool
  | 0, _ => pure false
  | left + 1, i => do
    Walk.checkpoint
    numberPass s n i
    match ← successor s n.id with
    | none => pure false
    | some body =>
      match ← inner [e.source, n.id] body with
      | .ended => pure true
      | .deadEnd => passes s inner n e left (i + 1)
      | .boundary id =>
        if id = e.source then
          if ← closePass s e then pure false else passes s inner n e left (i + 1)
        else passes s inner n e left (i + 1)

/-- A loop: passes between its start and the loop end that the iteration edge leaves. -/
def visitLoop (s : Setting) (inner : Inner) (n : Node) : Walk Next := do
  let step ← Walk.beginStep n
  match s.graph.iterationEdge? n.id with
  | none => Walk.failStep n step {} (.failed n.id "loop start has no paired loop end")
  | some e =>
    let bound := passBound n e
    Walk.finishStep n step .completed
      { result := some (.obj [("max_iterations", .ofNat bound), ("loop_end", .str e.source)]) }
    if ← passes s inner n e bound 0 then pure (.stop .ended) else advance s e.source

/-! ## Splits -/

/-- Whether a branch is opened along an edge of a split. -/
def opensBranch (n : Node) (e : Edge) : Walk Bool :=
  match e.guard? with
  | some c => Walk.holds n.id c
  | none => pure true

/-- Folds a branch back into the scope it was forked from. -/
def foldBranch (joining : Joining) (winner : Option Nat) (scope : Scope) (o : Outcome) (i : Nat) : Scope :=
  if joining = .all ∨ winner = some i then scope.merge o.scope else scope.absorb o.scope

/-- Folds the branches back in the order of their declaration. -/
def foldBranches (joining : Joining) (g : Gathered) (scope : Scope) : Scope :=
  g.outcomes.zipIdx.foldl (fun scope p => foldBranch joining g.winner scope p.1 p.2) scope

/-- Whether a branch was cancelled. -/
def Outcome.isCancelled (o : Outcome) : Bool := o.ending matches .error .cancelled

/-- The node at which a branch failed, and the fault. -/
def Outcome.failure? (o : Outcome) : Option (String × Fault) :=
  match o.ending with
  | .error (.failed node fault) => some (node, fault)
  | _ => none

/-- Whether an end node was completed in a branch. -/
def Outcome.hasEnded (o : Outcome) : Bool := o.ending matches .ok .ended

/-- What the branches come to together. -/
inductive Verdict where
  | cancelled
  | failed (node : String) (fault : Fault)
  /-- Nothing was broken off; whether an end node was completed. -/
  | passed (ended : Bool)
  deriving DecidableEq, Repr, Inhabited

/-- The verdict on branches that were all waited for: a cancellation weighs most, then the
    first failure. -/
def verdictOnAll (outcomes : List Outcome) : Verdict :=
  if outcomes.any Outcome.isCancelled then .cancelled
  else match outcomes.findSome? Outcome.failure? with
    | some (node, fault) => .failed node fault
    | none => .passed (outcomes.any Outcome.hasEnded)

/-- The verdict on branches; what the others did does not matter once one has won. -/
def verdict (g : Gathered) : Verdict :=
  match g.winner with
  | some i => .passed (g.outcomes[i]?.any Outcome.hasEnded)
  | none => verdictOnAll g.outcomes

/-- Whether branches race for the first success. -/
def Setting.joining (s : Setting) : Joining := if s.graph.strategy = .firstSuccess then .first else .all

/-- Opens a split; the nodes at which its branches start. -/
def openSplit (s : Setting) (n : Node) : Walk (List String) := do
  let step ← Walk.beginStep n
  let edges ← Walk.keepWhere (opensBranch n) (s.graph.flow n.id)
  let starts := edges.map (·.target)
  Walk.finishStep n step .completed
    { result := some (.obj [("branches", ofTexts starts), ("join", ofText? (s.graph.join? n.id))]) }
  pure starts

/-- Passes the join of a split, if it has one, and goes on behind it. -/
def passJoin (s : Setting) (join : Option String) (ended : Bool) : Walk Next :=
  match join with
  | some id => do
    passNode s id
    advance s id
  | none => pure (.stop (if ended then .ended else .deadEnd))

/-- Folds the branches of a split back and goes on with what they come to together. -/
def closeSplit (s : Setting) (n : Node) (g : Gathered) : Walk Next := do
  modify (foldBranches s.joining g)
  match verdict g with
  | .cancelled => throw .cancelled
  | .failed node fault => do
    Walk.checkpoint
    throw (.failed node fault)
  | .passed ended => do
    Walk.checkpoint
    passJoin s (s.graph.join? n.id) ended

/-- Branches up to the join, which is then passed. -/
def visitSplit (s : Setting) (inner : Inner) (n : Node) : Walk Next := do
  let starts ← openSplit s n
  let g ← Walk.split s.joining (starts.map (inner (s.graph.join? n.id).toList)) (← get).fork
  closeSplit s n g

/-! ## Skills and questions -/

/-- What an output of a node is bound to: the field of its name, or the whole value. -/
def outputOf (value : Json) (name : String) : Json :=
  match value with
  | .obj fields => (Keyed.lookup name fields).getD value
  | _ => value

/-- The variable that holds what a node gave. -/
def resultVariable (n : Node) : String := n.id ++ "_result"

/-- Binds the value of a skill node to its variables. -/
def bindOutputs (n : Node) (value : Json) (scope : Scope) : Scope :=
  n.outputs.foldl (fun scope name => scope.set name (outputOf value name))
    (scope.set (resultVariable n) value)

def visitSkill (s : Setting) (n : Node) : Walk Next := do
  let step ← Walk.beginStep n
  match n.skillId with
  | none => Walk.failStep n step {} (.failed n.id "skill node has no skillId")
  | some skill =>
    let r ← recover s n skill
    match r.outcome with
    | .ok (value, implementation) =>
      modify (bindOutputs n value)
      Walk.finishStep n step .completed
        { result := some value, fallbackUsed := implementation.isSome, retryCount := r.retries }
      advance s n.id
    | .error .cancelled => Walk.cancelStep n step
    | .error fault => handleFailure s n step fault r.retries

/-- An option of a selection as a text. -/
def optionText : Json → String
  | .str s => s
  | v => compact v

/-- What can be selected at a node: its own options, or the items of a variable. -/
def optionsOf (n : Node) (vars : Keyed Json) : List String :=
  if !n.options.isEmpty then n.options
  else match n.optionsFrom.bind (Keyed.lookup · vars) with
    | some (.arr items) => items.map optionText
    | _ => []

/-- The question a node asks. -/
def questionOf (n : Node) (kind : InteractionKind) (vars : Keyed Json) : Question where
  node := n.id
  kind
  prompt := n.prompt.getD ("Input required for " ++ n.id)
  options := optionsOf n vars
  suggestion := n.suggestion

def visitQuestion (s : Setting) (n : Node) : Walk Next := do
  let step ← Walk.beginStep n
  match InteractionKind.ofNode? n.kind with
  | none => Walk.failStep n step {} (.interaction n.id (n.kind.name ++ " is not an interaction node"))
  | some kind =>
    modify (·.awaitStep step)
    let q := questionOf n kind (← get).context.vars
    Walk.emit (.questionAsked n.id q.prompt)
    match ← call n.id (.question q) n.timeLimit with
    | .ok value =>
      modify (·.set (resultVariable n) value)
      Walk.finishStep n step .completed { result := some value }
      advance s n.id
    | .error .cancelled => Walk.cancelStep n step
    | .error fault => handleFailure s n step fault 0

/-! ## All nodes -/

/-- A node that only marks a place. -/
def visitMarker (s : Setting) (n : Node) : Walk Next := do
  Walk.passThrough n
  advance s n.id

/-- Dispatches a node. -/
def visit (s : Setting) (inner : Inner) (n : Node) : Walk Next :=
  match n.kind with
  | .finish => do
    Walk.passThrough n
    pure (.stop .ended)
  | .start | .merge | .loopEnd | .join => visitMarker s n
  | .branch => visitBranch n
  | .loopStart => visitLoop s inner n
  | .split => visitSplit s inner n
  | .skill => visitSkill s n
  | .confirm | .select | .input => visitQuestion s n

end Capability.Execution
