/-
  Capability.Graph.Node — the parts of a capability graph: nodes, edges and what hangs on
  them.
-/

import Capability.Duration
import Capability.Text.Blank

namespace Capability

/-- What a node does when it is reached. -/
inductive NodeKind where
  | skill
  | start
  | finish
  | branch
  | merge
  | loopStart
  | loopEnd
  | split
  | join
  | confirm
  | select
  | input
  deriving DecidableEq, Repr, Inhabited

namespace NodeKind

def all : List NodeKind :=
  [.skill, .start, .finish, .branch, .merge, .loopStart, .loopEnd, .split, .join, .confirm, .select,
   .input]

/-- The name of a kind in documents and events. -/
def name : NodeKind → String
  | .skill => "skill"
  | .start => "control.start"
  | .finish => "control.end"
  | .branch => "control.branch"
  | .merge => "control.merge"
  | .loopStart => "control.loop_start"
  | .loopEnd => "control.loop_end"
  | .split => "control.parallel_split"
  | .join => "control.parallel_join"
  | .confirm => "interaction.confirm"
  | .select => "interaction.select"
  | .input => "interaction.input"

def ofName? (name : String) : Option NodeKind := all.find? (·.name = name)

/-- Whether nodes of the kind ask somebody outside. -/
def isInteraction : NodeKind → Bool
  | .confirm | .select | .input => true
  | _ => false

/-- Whether nodes of the kind only steer the run. -/
def isControl (kind : NodeKind) : Bool := kind != .skill && !kind.isInteraction

end NodeKind

/-- How a node asks to be executed; kept for its readers, it steers nothing. -/
inductive ExecutionMode where
  | single
  | iterative
  | parallel
  deriving DecidableEq, Repr, Inhabited

namespace ExecutionMode

def name : ExecutionMode → String
  | .single => "single"
  | .iterative => "iterative"
  | .parallel => "parallel"

def ofName? (name : String) : Option ExecutionMode :=
  [single, iterative, parallel].find? (·.name = name)

end ExecutionMode

/-- What an edge is for. -/
inductive EdgeKind where
  | sequence
  | conditional
  | iteration
  | parallel
  | fallback
  deriving DecidableEq, Repr, Inhabited

namespace EdgeKind

def name : EdgeKind → String
  | .sequence => "sequence"
  | .conditional => "conditional"
  | .iteration => "iteration"
  | .parallel => "parallel"
  | .fallback => "fallback"

def ofName? (name : String) : Option EdgeKind :=
  [sequence, conditional, iteration, parallel, fallback].find? (·.name = name)

end EdgeKind

/-- What becomes of a node whose retries and alternatives are exhausted. -/
inductive Strategy where
  | retryThenAsk
  | skip
  | abort
  | firstSuccess
  deriving DecidableEq, Repr, Inhabited

namespace Strategy

def name : Strategy → String
  | .retryThenAsk => "retry_then_ask"
  | .skip => "skip"
  | .abort => "abort"
  | .firstSuccess => "first_success"

def ofName? (name : String) : Option Strategy :=
  [retryThenAsk, skip, abort, firstSuccess].find? (·.name = name)

/-- The name of a strategy in overviews. -/
def title : Strategy → String
  | .retryThenAsk => "RetryThenAsk"
  | .skip => "Skip"
  | .abort => "Abort"
  | .firstSuccess => "FirstSuccess"

end Strategy

/-- One way out of a branch node. -/
structure BranchCondition where
  name : String := ""
  expression : String
  target : String
  deriving DecidableEq, Repr, Inhabited

/-- A ranked alternative way of satisfying a skill node. It may be tried when all its
    conditions hold; when it fails, the implementations named in `fallbacks` are next. -/
structure Implementation where
  id : String
  skillId : String
  priority : Int := 0
  conditions : List String := []
  fallbacks : List String := []
  deriving DecidableEq, Repr, Inhabited

/-- A node of a graph. -/
structure Node where
  id : String
  kind : NodeKind
  skillId : Option String := none
  executionMode : ExecutionMode := .single
  maxIterations : Option Nat := none
  /-- Seconds. -/
  timeout : Option Float := none
  conditions : List BranchCondition := []
  prompt : Option String := none
  /-- The variable that holds the options of a selection. -/
  optionsFrom : Option String := none
  options : List String := []
  /-- The answer suggested for an input. -/
  suggestion : Option String := none
  outputs : List String := []
  implementations : List Implementation := []
  deriving DecidableEq, Inhabited

namespace Node

/-- Passes of a loop that does not say how many it may make. -/
def defaultMaxIterations : Nat := 10

/-- How many passes a loop that starts here may make. -/
def iterationBound (n : Node) : Nat := n.maxIterations.getD defaultMaxIterations

/-- The time an attempt at the node may take; a timeout that is no duration is none. -/
def timeLimit (n : Node) : Option Duration := n.timeout.bind Duration.ofSeconds?

/-- A skill node. -/
def skill (id skillId : String) : Node := { id, kind := .skill, skillId := some skillId }

end Node

/-- An edge of a graph. -/
structure Edge where
  source : String
  target : String
  kind : EdgeKind := .sequence
  weight : Option Float := none
  condition : Option String := none
  maxCount : Option Nat := none
  exitCondition : Option String := none
  trigger : Option String := none
  deriving DecidableEq, Inhabited

/-- Whether ordinary successor selection follows the edge. -/
def Edge.isFlow (e : Edge) : Bool := e.kind != .iteration && e.kind != .fallback

/-- The condition of an edge, if it has one that says anything. -/
def Edge.guard? (e : Edge) : Option String := (e.condition.map Text.trim).filter (· ≠ "")

/-- What the author of a graph says about it. -/
structure Metadata where
  estimatedComplexity : Option String := none
  typicalIterations : Option Nat := none
  humanInteractions : Option Nat := none
  parallelBranches : Option Nat := none
  deriving DecidableEq, Repr, Inhabited

end Capability
