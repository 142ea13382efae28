/-
  Capability.Complexity — how complex a graph is, in numbers.
-/

import Capability.Graph.Paths

namespace Capability

/-- A verdict on a complexity score. -/
inductive ComplexityLevel where
  | trivial
  | simple
  | moderate
  | complex
  | veryComplex
  deriving DecidableEq, Repr

namespace ComplexityLevel

/-- The level of a score; a boundary belongs to the lower level. -/
def ofScore (score : Int) : ComplexityLevel :=
  if score ≤ 20 then .trivial
  else if score ≤ 40 then .simple
  else if score ≤ 60 then .moderate
  else if score ≤ 80 then .complex
  else .veryComplex

def name : ComplexityLevel → String
  | .trivial => "trivial"
  | .simple => "simple"
  | .moderate => "moderate"
  | .complex => "complex"
  | .veryComplex => "very_complex"

/-- The name of a level in overviews. -/
def title : ComplexityLevel → String
  | .trivial => "Trivial"
  | .simple => "Simple"
  | .moderate => "Moderate"
  | .complex => "Complex"
  | .veryComplex => "VeryComplex"

end ComplexityLevel

/-- The measures of a graph. -/
structure Complexity where
  nodeCount : Nat
  edgeCount : Nat
  cyclomatic : Int
  maxDepth : Nat
  branchFactor : Float
  maxIterations : Nat
  interactionCount : Nat
  parallelBranches : Nat
  score : Int
  deriving Repr

namespace Complexity

def level (c : Complexity) : ComplexityLevel := .ofScore c.score

/-- Conditions per branch node. -/
def averageConditions (g : Graph) : Float :=
  let branches := g.nodes.filter (·.kind = .branch)
  if branches.isEmpty then 0.0
  else Float.ofNat ((branches.map (·.conditions.length)).foldl (· + ·) 0) / Float.ofNat branches.length

/-- Measures a graph. In the score, an iteration bound of 2^63 or more counts as the
    negative number with the same 64 bits. -/
def ofGraph (g : Graph) : Complexity :=
  let cyclomatic := (g.edges.length : Int) - g.nodes.length + 2
  let maxIterations := ((g.nodes.filter (·.kind = .loopStart)).map (·.iterationBound)).foldl max 0
  let interactions := g.nodes.countP (·.kind.isInteraction)
  let splits := g.nodes.countP (·.kind = .split)
  let depth := g.maxDepth
  { nodeCount := g.nodes.length
    edgeCount := g.edges.length
    cyclomatic
    maxDepth := depth
    branchFactor := averageConditions g
    maxIterations
    interactionCount := interactions
    parallelBranches := splits
    score := 10 * cyclomatic + 15 * (maxIterations : Int).bmod (2 ^ 64) + 20 * interactions
      + 5 * splits + 3 * depth }

def toJson (c : Complexity) : Json :=
  .obj [("nodeCount", .ofNat c.nodeCount), ("edgeCount", .ofNat c.edgeCount),
    ("cyclomaticComplexity", .int c.cyclomatic), ("maxDepth", .ofNat c.maxDepth),
    ("branchFactor", .float c.branchFactor), ("maxIterations", .ofNat c.maxIterations),
    ("interactionCount", .ofNat c.interactionCount), ("parallelBranches", .ofNat c.parallelBranches),
    ("complexityScore", .int c.score), ("complexityLevel", .str c.level.name)]

end Complexity

end Capability
