/-
  Capability.Diagram — a graph as a Mermaid flowchart: a heading, a line for every node,
  a line for every edge, and an arrow for every branch condition whose target no edge of
  the branch leads to.

  Nodes are drawn under keys by position, so that no id is taken for a word of the
  flowchart language; of two nodes with one id the later gives the key. Inside labels,
  quotes and bars are written as entities.
-/

import Capability.Graph.Basic

namespace Capability.Diagram

/-- The brackets around the label of a node. -/
def brackets : NodeKind → String × String
  | .start | .finish => ("((", "))")
  | .branch => ("\x7b", "\x7d")
  | .merge | .join => ("[[", "]]")
  | .confirm | .select | .input => ("[/", "/]")
  | _ => ("[", "]")

def arrow : EdgeKind → String
  | .sequence | .parallel => "-->"
  | .conditional => "-.->"
  | .iteration => "==>"
  | .fallback => "-. fallback .->"

/-- One character of a label. -/
def escapeChar (c : Char) : List Char :=
  if c = '"' then "#quot;".toList else if c = '|' then "#124;".toList else [c]

/-- A text inside a label. -/
def escape (s : String) : String := String.ofList (s.toList.flatMap escapeChar)

/-- The position of the last node of an id, counted from `position`. -/
def lastPosition (id : String) : List Node → Nat → Option Nat
  | [], _ => none
  | n :: rest, position =>
    (lastPosition id rest (position + 1)).or (if n.id = id then some position else none)

/-- An id with everything but ASCII letters and digits replaced by underscores. -/
def sanitize (id : String) : String :=
  String.ofList (id.toList.map fun c => if c.isAlphanum then c else '_')

/-- The key under which an id is drawn. -/
def key (g : Graph) (id : String) : String :=
  match lastPosition id g.nodes 0 with
  | some position => "n" ++ toString position
  | none => "missing_" ++ sanitize id

def nodeLine (g : Graph) (n : Node) : String :=
  let label := match n.skillId with
    | some skill => n.id ++ ": " ++ skill
    | none => n.id
  let (left, right) := brackets n.kind
  "    " ++ key g n.id ++ left ++ "\"" ++ escape label ++ "\"" ++ right

def edgeLine (g : Graph) (e : Edge) : String :=
  let label := match e.condition with
    | some c => if e.kind = .fallback then "" else "|" ++ escape c ++ "|"
    | none => ""
  "    " ++ key g e.source ++ " " ++ arrow e.kind ++ label ++ " " ++ key g e.target

def conditionLine (g : Graph) (n : Node) (c : BranchCondition) : String :=
  "    " ++ key g n.id ++ " -.->|" ++ escape c.expression ++ "| " ++ key g c.target

/-- The conditions of a branch that no edge of it draws. -/
def undrawn (g : Graph) (n : Node) : List BranchCondition :=
  n.conditions.filter fun c => !(g.successors n.id).contains c.target

def lines (g : Graph) : List String :=
  "graph TD" :: g.nodes.map (nodeLine g) ++ g.edges.map (edgeLine g)
    ++ (g.nodes.filter (·.kind = .branch)).flatMap fun n => (undrawn g n).map (conditionLine g n)

/-- The flowchart of a graph. -/
def render (g : Graph) : String := "\n".intercalate (lines g)

end Capability.Diagram
