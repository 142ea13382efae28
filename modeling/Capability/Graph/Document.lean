/-
  Capability.Graph.Document — capability graphs as JSON documents.

  Fields of several words are written in camel case inside nodes, edges, implementations
  and metadata, in snake case at the top; either spelling is read. Absent options and empty
  lists of a node are not written.
-/

import Capability.Graph.Node

namespace Capability

open Json Json.Decode

/-- The written form of a graph. -/
structure Document where
  id : String := ""
  version : String := "1.0"
  name : String := ""
  description : String := ""
  nodes : List Node := []
  edges : List Edge := []
  metadata : Option Metadata := none
  strategy : Strategy := .retryThenAsk
  maxRetries : Nat := 3
  /-- Seconds between retries. -/
  retryDelay : Option Float := none
  deriving DecidableEq, Inhabited

/-- A field for a list, left out when the list is empty. -/
def Json.listField (key : String) (items : List Json) : List (String × Json) :=
  if items.isEmpty then [] else [(key, .arr items)]

/-! ## Writing -/

def BranchCondition.toJson (c : BranchCondition) : Json :=
  .obj [("name", .str c.name), ("expression", .str c.expression), ("target", .str c.target)]

def Implementation.toJson (i : Implementation) : Json :=
  .obj [("id", .str i.id), ("skillId", .str i.skillId), ("priority", .int i.priority),
    ("conditions", ofTexts i.conditions), ("fallbacks", ofTexts i.fallbacks)]

def Node.toJson (n : Node) : Json :=
  .obj ([("id", .str n.id), ("type", .str n.kind.name)]
    ++ field? "skillId" (n.skillId.map .str)
    ++ [("executionMode", .str n.executionMode.name)]
    ++ field? "maxIterations" (n.maxIterations.map ofNat)
    ++ field? "timeout" (n.timeout.map .float)
    ++ listField "conditions" (n.conditions.map BranchCondition.toJson)
    ++ field? "prompt" (n.prompt.map .str)
    ++ field? "optionsFrom" (n.optionsFrom.map .str)
    ++ listField "options" (n.options.map .str)
    ++ field? "default" (n.suggestion.map .str)
    ++ listField "outputs" (n.outputs.map .str)
    ++ listField "implementations" (n.implementations.map Implementation.toJson))

def Edge.toJson (e : Edge) : Json :=
  .obj ([("from", .str e.source), ("to", .str e.target), ("type", .str e.kind.name)]
    ++ field? "weight" (e.weight.map .float)
    ++ field? "condition" (e.condition.map .str)
    ++ field? "maxCount" (e.maxCount.map ofNat)
    ++ field? "exitCondition" (e.exitCondition.map .str)
    ++ field? "trigger" (e.trigger.map .str))

def Metadata.toJson (m : Metadata) : Json :=
  .obj (field? "estimatedComplexity" (m.estimatedComplexity.map .str)
    ++ field? "typicalIterations" (m.typicalIterations.map ofNat)
    ++ field? "humanInteractions" (m.humanInteractions.map ofNat)
    ++ field? "parallelBranches" (m.parallelBranches.map ofNat))

def Document.toJson (d : Document) : Json :=
  .obj ([("id", .str d.id), ("version", .str d.version), ("name", .str d.name),
      ("description", .str d.description), ("nodes", .arr (d.nodes.map Node.toJson)),
      ("edges", .arr (d.edges.map Edge.toJson))]
    ++ field? "metadata" (d.metadata.map Metadata.toJson)
    ++ [("fallback_strategy", .str d.strategy.name), ("max_retries", ofNat d.maxRetries)]
    ++ field? "retry_delay" (d.retryDelay.map .float))

/-! ## Reading -/

def NodeKind.decoder : Decoder NodeKind := constant NodeKind.ofName?

def ExecutionMode.decoder : Decoder ExecutionMode := constant ExecutionMode.ofName?

def EdgeKind.decoder : Decoder EdgeKind := constant EdgeKind.ofName?

def Strategy.decoder : Decoder Strategy := constant Strategy.ofName?

def BranchCondition.slots : List (Slot BranchCondition) := [
  optional ["name"] text fun v c => { c with name := v },
  required ["expression"] text fun v c => { c with expression := v },
  required ["target"] text fun v c => { c with target := v }]

def BranchCondition.decoder : Decoder BranchCondition := record slots ⟨"", "", ""⟩

def Implementation.slots : List (Slot Implementation) := [
  required ["id"] text fun v i => { i with id := v },
  required ["skillId", "skill_id"] text fun v i => { i with skillId := v },
  optional ["priority"] int fun v i => { i with priority := v },
  optional ["conditions"] (list text) fun v i => { i with conditions := v },
  optional ["fallbacks"] (list text) fun v i => { i with fallbacks := v }]

def Implementation.decoder : Decoder Implementation := record slots { id := "", skillId := "" }

def Node.slots : List (Slot Node) := [
  required ["id"] text fun v n => { n with id := v },
  required ["type"] NodeKind.decoder fun v n => { n with kind := v },
  optional ["skillId", "skill_id"] (option text) fun v n => { n with skillId := v },
  optional ["executionMode", "execution_mode"] ExecutionMode.decoder
    fun v n => { n with executionMode := v },
  optional ["maxIterations", "max_iterations"] (option nat) fun v n => { n with maxIterations := v },
  optional ["timeout"] (option float) fun v n => { n with timeout := v },
  optional ["conditions"] (list BranchCondition.decoder) fun v n => { n with conditions := v },
  optional ["prompt"] (option text) fun v n => { n with prompt := v },
  optional ["optionsFrom", "options_from"] (option text) fun v n => { n with optionsFrom := v },
  optional ["options"] (list text) fun v n => { n with options := v },
  optional ["default"] (option text) fun v n => { n with suggestion := v },
  optional ["outputs"] (list text) fun v n => { n with outputs := v },
  optional ["implementations"] (list Implementation.decoder)
    fun v n => { n with implementations := v }]

def Node.decoder : Decoder Node := record slots { id := "", kind := .skill }

def Edge.slots : List (Slot Edge) := [
  required ["from"] text fun v e => { e with source := v },
  required ["to"] text fun v e => { e with target := v },
  optional ["type"] EdgeKind.decoder fun v e => { e with kind := v },
  optional ["weight"] (option float) fun v e => { e with weight := v },
  optional ["condition"] (option text) fun v e => { e with condition := v },
  optional ["maxCount", "max_count"] (option nat) fun v e => { e with maxCount := v },
  optional ["exitCondition", "exit_condition"] (option text) fun v e => { e with exitCondition := v },
  optional ["trigger"] (option text) fun v e => { e with trigger := v }]

def Edge.decoder : Decoder Edge := record slots { source := "", target := "" }

def Metadata.slots : List (Slot Metadata) := [
  optional ["estimatedComplexity", "estimated_complexity"] (option text)
    fun v m => { m with estimatedComplexity := v },
  optional ["typicalIterations", "typical_iterations"] (option nat)
    fun v m => { m with typicalIterations := v },
  optional ["humanInteractions", "human_interactions"] (option nat)
    fun v m => { m with humanInteractions := v },
  optional ["parallelBranches", "parallel_branches"] (option nat)
    fun v m => { m with parallelBranches := v }]

def Metadata.decoder : Decoder Metadata := record slots {}

def Document.slots : List (Slot Document) := [
  required ["id"] text fun v d => { d with id := v },
  optional ["version"] text fun v d => { d with version := v },
  optional ["name"] text fun v d => { d with name := v },
  optional ["description"] text fun v d => { d with description := v },
  optional ["nodes"] (list Node.decoder) fun v d => { d with nodes := v },
  optional ["edges"] (list Edge.decoder) fun v d => { d with edges := v },
  optional ["metadata"] (option Metadata.decoder) fun v d => { d with metadata := v },
  optional ["fallback_strategy", "fallbackStrategy"] Strategy.decoder fun v d => { d with strategy := v },
  optional ["max_retries", "maxRetries"] nat fun v d => { d with maxRetries := v },
  optional ["retry_delay", "retryDelay"] (option float) fun v d => { d with retryDelay := v }]

def Document.decoder : Decoder Document := record slots {}

end Capability
