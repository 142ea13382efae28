/-
  Capability.Lint — the rules a graph is checked against.

  Each rule looks at the whole graph and reports diagnostics; the rules run in a fixed
  order. Errors make a graph invalid and it is never executed; warnings do not. A second
  check resolves the skills of a graph in a catalog.
-/

import Capability.Condition.Eval
import Capability.Graph.Pairing
import Capability.Skill

namespace Capability

inductive Severity where
  | error
  | warning
  deriving DecidableEq, Repr

/-- One finding. -/
structure Diagnostic where
  rule : String
  severity : Severity
  message : String
  node : Option String := none
  edge : Option (String × String) := none
  fix : Option String := none
  deriving DecidableEq, Repr

/-- The findings about a graph. -/
structure Report where
  diagnostics : List Diagnostic
  deriving DecidableEq, Repr

namespace Report

def errors (r : Report) : List String :=
  (r.diagnostics.filter (·.severity = .error)).map (·.message)

def warnings (r : Report) : List String :=
  (r.diagnostics.filter (·.severity = .warning)).map (·.message)

/-- Whether nothing found is an error. -/
def isValid (r : Report) : Bool := r.errors.isEmpty

end Report

namespace Lint

/-! ## Errors -/

def startNode (g : Graph) : List Diagnostic :=
  match (g.nodes.filter (·.kind = .start)).map (·.id) with
  | [] => [{ rule := "start_node", severity := .error, message := "Graph must have a start node",
             fix := some "Add a node with type \"control.start\"" }]
  | [_] => []
  | starts => [{ rule := "start_node", severity := .error,
                 message := "Graph must have exactly one start node: " ++ ", ".intercalate starts,
                 fix := some "Remove extra start nodes so only one remains" }]

def endNode (g : Graph) : List Diagnostic :=
  if g.finishes.isEmpty then
    [{ rule := "end_node", severity := .error, message := "Graph must have at least one end node",
       fix := some "Add a node with type \"control.end\"" }]
  else []

def edgeEndpoints (g : Graph) : List Diagnostic :=
  g.edges.flatMap fun e =>
    ([e.source, e.target].filter fun id => !g.isDeclared id).map fun id =>
      { rule := "edge_endpoints", severity := .error,
        message := "Edge references non-existent node: " ++ id,
        edge := some (e.source, e.target),
        fix := some ("Add node '" ++ id ++ "' or fix the edge") }

def branchConditions (g : Graph) : List Diagnostic :=
  (g.nodes.filter fun n => n.kind = .branch && n.conditions.isEmpty).map fun n =>
    { rule := "branch_conditions", severity := .error,
      message := "Branch node " ++ n.id ++ " must have conditions", node := some n.id }

/-- Whether a node names a skill that is more than white space. -/
def namesSkill (n : Node) : Bool :=
  match n.skillId with
  | some s => !(Text.trim s).isEmpty
  | none => false

def skillId (g : Graph) : List Diagnostic :=
  (g.nodes.filter fun n => n.kind = .skill && !namesSkill n).map fun n =>
    { rule := "skill_id", severity := .error,
      message := "Skill node " ++ n.id ++ " must have skillId", node := some n.id }

/-- The ids in the order in which they occur for the second time. -/
def repeated : List String → List String → List String
  | _, [] => []
  | seen, id :: rest =>
    if seen.count id = 1 then id :: repeated (id :: seen) rest else repeated (id :: seen) rest

def duplicateId (g : Graph) : List Diagnostic :=
  (repeated [] (g.nodes.map (·.id))).map fun id =>
    { rule := "duplicate_id", severity := .error, message := "Duplicate node id: " ++ id,
      node := some id }

def branchTarget (g : Graph) : List Diagnostic :=
  (g.nodes.filter (·.kind = .branch)).flatMap fun n =>
    (n.conditions.filter fun c => !g.isDeclared c.target).map fun c =>
      { rule := "branch_target", severity := .error,
        message := "Branch node " ++ n.id ++ " condition '" ++ c.name
          ++ "' targets non-existent node: " ++ c.target,
        node := some n.id }

/-- Where a run could go from an id: along its edges and to the targets of its conditions,
    as far as these are declared. -/
def leadsTo (g : Graph) (id : String) : List String :=
  (g.successors id ++ ((g.node? id).map (·.conditions.map (·.target))).getD []).filter g.isDeclared

/-- The ids reachable from an id; each is an id of a node. -/
def withinReach (g : Graph) (id : String) : List String :=
  Graph.closure (leadsTo g) g.nodes.length id

def reachability (g : Graph) : List Diagnostic :=
  match g.start? with
  | none => []
  | some start =>
    let within := withinReach g start.id
    (Graph.addFresh within (g.nodes.map (·.id))).map fun id =>
      { rule := "reachability", severity := .error,
        message := "Node '" ++ id ++ "' is not reachable from the start node",
        node := some id,
        fix := some ("Add an edge leading to '" ++ id ++ "' or remove it") }

def loopPairing (g : Graph) : List Diagnostic :=
  (g.nodes.filter fun n => n.kind = .loopStart && (g.loopEnd? n.id).isNone).map fun n =>
    { rule := "loop_pairing", severity := .error,
      message := "Loop node " ++ n.id ++ " has no reachable loop_end with an iteration edge back to it",
      node := some n.id,
      fix := some ("Add a control.loop_end after '" ++ n.id
        ++ "' and an iteration edge from it back to '" ++ n.id ++ "'") }

/-! ## Warnings -/

/-- The finding about a condition that does not parse. -/
def malformed (expression : String) : Option Diagnostic :=
  match Condition.parse expression with
  | .ok _ => none
  | .error e =>
    some { rule := "condition_syntax", severity := .warning,
           message := (Fault.condition expression e.message).message }

/-- Whether a condition of an implementation is the word that always holds. -/
def isDefault (condition : String) : Bool := Text.trim condition == "default"

/-- The conditions written at a node. -/
def nodeConditions (n : Node) : List String :=
  n.conditions.map (·.expression)
    ++ n.implementations.flatMap fun i => i.conditions.filter fun c => !isDefault c

/-- The conditions written at an edge. -/
def edgeConditions (e : Edge) : List String :=
  e.condition.toList ++ e.exitCondition.toList ++ e.trigger.toList

def conditionSyntax (g : Graph) : List Diagnostic :=
  (g.nodes.flatMap fun n => (nodeConditions n).filterMap fun c =>
    (malformed c).map fun d => { d with node := some n.id })
  ++ g.edges.flatMap fun e => (edgeConditions e).filterMap fun c =>
    (malformed c).map fun d => { d with edge := some (e.source, e.target) }

def parallelJoin (g : Graph) : List Diagnostic :=
  (g.nodes.filter fun n => n.kind = .split && (g.join? n.id).isNone).map fun n =>
    { rule := "parallel_join", severity := .warning,
      message := "Parallel split " ++ n.id
        ++ " has no matching parallel_join; branches will not be merged",
      node := some n.id }

/-- Loops that may make more passes than this get a warning. -/
def reasonableIterations : Nat := 100

def loopBound (g : Graph) : List Diagnostic :=
  (g.nodes.filter (·.kind = .loopStart)).filterMap fun n =>
    match n.maxIterations with
    | none =>
      some { rule := "loop_bound", severity := .warning,
             message := "Loop node " ++ n.id ++ " has no maxIterations; defaulting to "
               ++ toString n.iterationBound,
             node := some n.id }
    | some bound =>
      if reasonableIterations < bound then
        some { rule := "loop_bound", severity := .warning,
               message := "Loop node " ++ n.id ++ " allows " ++ toString bound ++ " iterations; more than "
                 ++ toString reasonableIterations ++ " may run for a long time",
               node := some n.id }
      else none

def selectOptions (g : Graph) : List Diagnostic :=
  (g.nodes.filter fun n => n.kind = .select && n.options.isEmpty && n.optionsFrom.isNone).map fun n =>
    { rule := "select_options", severity := .warning,
      message := "Select node " ++ n.id ++ " has neither options nor optionsFrom", node := some n.id }

/-- Every rule, in the order in which they report. -/
def rules : List (Graph → List Diagnostic) := [
  startNode, endNode, edgeEndpoints, branchConditions, skillId, duplicateId, branchTarget,
  reachability, loopPairing, conditionSyntax, parallelJoin, loopBound, selectOptions]

/-! ## Skills -/

/-- The skills a node may call, its own first. -/
def skillsOf (n : Node) : List String := n.skillId.toList ++ n.implementations.map (·.skillId)

/-- Skills that the catalog does not know. -/
def skillExists (g : Graph) (catalog : Catalog) : List Diagnostic :=
  (g.nodes.filter (·.kind = .skill)).flatMap fun n =>
    ((skillsOf n).filter fun s => (catalog.info? s).isNone).map fun s =>
      { rule := "skill_exists", severity := .error, message := (Fault.skillNotFound n.id s).message,
        node := some n.id }

/-- What the catalog says of the first skill of a skill node, for the last such node of an
    id whose first skill it knows. -/
def ioOf (g : Graph) (catalog : Catalog) (id : String) : Option SkillInfo :=
  ((g.nodes.filter fun n => n.kind = .skill && n.id = id).filterMap fun n =>
    (skillsOf n).head?.bind catalog.info?).getLast?

/-- Sequence edges between skills of which the second cannot use what the first gives. -/
def ioCompatibility (g : Graph) (catalog : Catalog) : List Diagnostic :=
  (g.edges.filter (·.kind = .sequence)).filterMap fun e =>
    match (ioOf g catalog e.source).bind (·.outputType), (ioOf g catalog e.target).bind (·.inputType) with
    | some output, some input =>
      if output.feeds input then none
      else some { rule := "io_compatibility", severity := .warning,
                  message := "Output type " ++ output.title ++ " of '" ++ e.source
                    ++ "' is not compatible with input type " ++ input.title ++ " of '" ++ e.target ++ "'",
                  edge := some (e.source, e.target) }
    | _, _ => none

end Lint

namespace Graph

/-- Checks a graph against every rule. -/
def validate (g : Graph) : Report := ⟨Lint.rules.flatMap (· g)⟩

/-- Resolves the skills of a graph in a catalog. -/
def validateSkills (g : Graph) (catalog : Catalog) : Report :=
  ⟨Lint.skillExists g catalog ++ Lint.ioCompatibility g catalog⟩

end Graph

end Capability
