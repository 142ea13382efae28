/-
  Capability.CommandLine.Command — what the subcommands print, and with which status they end:
  zero for success, one for a failure, two for a misuse of the command line.
-/

import Capability.CommandLine.Console
import Capability.Complexity
import Capability.Context.Document
import Capability.Diagram

namespace Capability.CommandLine

open Json Execution

/-- What a command leaves behind. -/
structure Printout where
  lines : List String
  status : Nat
  /-- What is said on the side about a failure. -/
  complaint : Option String := none
  /-- Whether another line has to be typed before the command can go on. -/
  awaits : Bool := false
  deriving Repr

/-- The contents of the files that can be read, and the lines that are typed. -/
structure Surroundings where
  file? : String → Option String
  typed : List String := []
  /-- Whether nothing more is going to be typed. -/
  ended : Bool := true

def succeeds (lines : List String) : Printout := { lines, status := 0 }

def fails (complaint : String) (lines : List String) : Printout :=
  { lines, status := 1, complaint := some complaint }

def loadGraph (w : Surroundings) (path : String) : Except String Graph :=
  match w.file? path with
  | none => .error ("failed to load graph " ++ path)
  | some text => (Graph.parse text).mapError fun _ => "failed to load graph " ++ path

def loadCatalog (w : Surroundings) (path : String) : Except String Catalog :=
  match w.file? path with
  | none => .error ("failed to read skill catalog " ++ path)
  | some text =>
    match (readPage text).decode CatalogEntry.listDecoder with
    | .ok entries => .ok (.fixed entries)
    | .error _ => .error ("malformed skill catalog " ++ path)

/-- The catalog at a path, if a path is given. -/
def loadCatalog? (w : Surroundings) (g : Given) : Except String (Option Catalog) :=
  match g.value? "skills" with
  | none => .ok none
  | some path => some <$> loadCatalog w path

/-! ## Checking and describing graphs -/

def diagnosticLines (d : Diagnostic) : List String :=
  let severity := match d.severity with
    | .error => "ERROR"
    | .warning => "WARN"
  ("[" ++ severity ++ "] " ++ d.rule ++ ": " ++ d.message)
    :: (d.fix.map fun fix => "        fix: " ++ fix).toList

def validate (w : Surroundings) (i : Command) : Except String Printout := do
  let graph ← loadGraph w i.graph
  let catalog ← loadCatalog? w i.given
  let ofSkills := match catalog with
    | some c => (graph.validateSkills c).diagnostics
    | none => []
  let report : Report := ⟨graph.validate.diagnostics ++ ofSkills⟩
  let lines := report.diagnostics.flatMap diagnosticLines
  .ok (if report.isValid then succeeds (lines ++ ["Graph is valid"]) else { lines, status := 1 })

/-- A line that is printed only if there is something to say. -/
def lineUnlessEmpty (label text : String) : List String := if text = "" then [] else [label ++ text]

def info (w : Surroundings) (i : Command) : Except String Printout := do
  let g ← loadGraph w i.graph
  let ways := g.ways
  .ok (succeeds (["Graph: " ++ g.id ++ " (v" ++ g.version ++ ")"]
    ++ lineUnlessEmpty "Name: " g.name
    ++ lineUnlessEmpty "Description: " g.description
    ++ ["Nodes: " ++ toString g.nodes.length, "Edges: " ++ toString g.edges.length,
        "Fallback strategy: " ++ g.strategy.title, "Max retries: " ++ toString g.maxRetries]
    ++ (g.start?.map fun n => "Start: " ++ n.id).toList
    ++ ["End: " ++ ", ".intercalate (g.finishes.map (·.id)), "\nNodes:"]
    ++ (g.nodes.map fun n => "  " ++ n.id ++ " [" ++ n.kind.name ++ "]"
          ++ ((n.skillId.map fun s => " skill=" ++ s).getD ""))
    ++ ["\nPaths (" ++ toString ways.length ++ "):"]
    ++ ways.map fun way => "  " ++ " -> ".intercalate way))

def metrics (w : Surroundings) (i : Command) : Except String Printout := do
  let c := Complexity.ofGraph (← loadGraph w i.graph)
  if i.given.has "json" then .ok (succeeds [pretty c.toJson])
  else
    .ok (succeeds ["Nodes: " ++ toString c.nodeCount, "Edges: " ++ toString c.edgeCount,
      "Cyclomatic complexity: " ++ toString c.cyclomatic, "Max depth: " ++ toString c.maxDepth,
      "Branch factor: " ++ Decimal.fixed 2 c.branchFactor, "Max iterations: " ++ toString c.maxIterations,
      "Interactions: " ++ toString c.interactionCount,
      "Parallel branches: " ++ toString c.parallelBranches,
      "Complexity: " ++ toString c.score ++ " (" ++ c.level.title ++ ")"])

def diagram (w : Surroundings) (i : Command) : Except String Printout := do
  .ok (succeeds [Diagram.render (← loadGraph w i.graph)])

/-! ## Running graphs -/

def resultLines (r : RunResult) : List String :=
  ["\nStatus: " ++ r.status.title, "Path: " ++ " -> ".intercalate r.path,
    "Executed: " ++ toString r.counters.executed ++ "  Failed: " ++ toString r.counters.failed
      ++ "  Skipped: " ++ toString r.counters.skipped ++ "  Retries: " ++ toString r.counters.retries
      ++ "  Iterations: " ++ toString r.counters.iterations,
    "Duration: " ++ toString r.elapsedMs ++ "ms"]
    ++ (r.failure.map fun f => "Failed at " ++ f.node ++ ": " ++ f.error).toList
    ++ r.conditionFailures.map fun f =>
      "Condition '" ++ f.expression ++ "' on " ++ f.node ++ " evaluated to false: " ++ f.message

/-- The context that the options of a run describe. -/
def readContext (g : Given) : Except String Context := do
  let vars ← match g.value? "vars" with
    | none => .ok []
    | some text =>
      ((readPage text).decode (Decode.keyed (deepest - 1))).mapError fun _ => "--vars must be a JSON object"
  let name := g.value "depth" "balanced"
  match PreferredDepth.ofName? name with
  | none => .error ("unknown depth '" ++ name ++ "'")
  | some depth => .ok { intent := g.value "intent" "", depth, vars }

/-- How many nodes a run may dispatch. -/
def maxVisits (g : Given) : Nat := ((g.value? "max-node-visits").bind number?).getD 1000

def run (w : Surroundings) (i : Command) : Except String Printout := do
  let graph ← loadGraph w i.graph
  let context ← readContext i.given
  let catalog ← loadCatalog? w i.given
  let asJson := i.given.has "json"
  let heading := if asJson then [] else ["Running graph: " ++ graph.id]
  let setting : Setting := ⟨graph, { maxVisits := maxVisits i.given }⟩
  .ok (match Execution.run setting context with
    | .error f => fails f.message heading
    | .ok p =>
      let partners := collaborators (catalog.getD (.simulated [])) (i.given.has "auto-approve")
      let console : Console := { typed := w.typed, ended := w.ended }
      match p.play partners setting.config.maxVisits {} setting.waits console with
      | none => fails "the run never ends" heading
      | some (o, st) =>
        let r := o.result graph st.now
        let console := st.memory.flush
        let status := if r.succeeded then 0 else 1
        match console.shown with
        | some lines => { lines := heading ++ lines, status, awaits := true }
        | none =>
          { lines := heading ++ console.printed ++ (if asJson then [pretty r.toJson] else resultLines r),
            status })

/-! ## All commands -/

def usageLines : List String :=
  ["Usage: capgraph [--verbose] <COMMAND> <GRAPH> [OPTIONS]", "", "Commands:"]
    ++ usages.map fun u => "  " ++ u.name
      ++ String.join (u.options.map fun o => " [--" ++ o.1 ++ " <VALUE>]")
      ++ String.join (u.flags.map fun f => " [--" ++ f ++ "]")

def dispatch (w : Surroundings) (i : Command) : Except String Printout :=
  match i.usage.name with
  | "validate" => validate w i
  | "info" => info w i
  | "metrics" => metrics w i
  | "diagram" => diagram w i
  | _ => run w i

/-- Carries out a command line. -/
def execute (args : List String) (w : Surroundings) : Printout :=
  match readArguments args {} with
  | .error .help => succeeds usageLines
  | .error .version => succeeds ["capgraph 0.1.0"]
  | .error .misuse => { lines := [], status := 2, complaint := some ("\n".intercalate usageLines) }
  | .ok i =>
    match dispatch w i with
    | .ok p => p
    | .error complaint => fails complaint []

/-- The paths of the files that a command line may read. -/
def pathsRead (args : List String) : List String :=
  match readArguments args {} with
  | .ok i => i.graph :: (i.given.value? "skills").toList
  | .error _ => []

end Capability.CommandLine
