/-
  Capability.Skill — skills as the executor sees them: what is known of a skill, what a
  call of it carries, and catalogs that answer calls.
-/

import Capability.Context
import Capability.Fault

namespace Capability

open Json Json.Decode

/-- The kind of data a skill takes or gives. -/
inductive IoType where
  | text
  | markdown
  | json
  | pmids
  | files
  | pdf
  | code
  | any
  deriving DecidableEq, Repr

namespace IoType

def name : IoType → String
  | .text => "text"
  | .markdown => "markdown"
  | .json => "json"
  | .pmids => "pmids"
  | .files => "files"
  | .pdf => "pdf"
  | .code => "code"
  | .any => "any"

/-- The name of a kind of data in messages. -/
def title : IoType → String
  | .text => "Text"
  | .markdown => "Markdown"
  | .json => "Json"
  | .pmids => "Pmids"
  | .files => "Files"
  | .pdf => "Pdf"
  | .code => "Code"
  | .any => "Any"

def ofName? (name : String) : Option IoType :=
  [text, markdown, json, pmids, files, pdf, code, any].find? (·.name = name)

def decoder : Decoder IoType := constant ofName?

/-- Whether what gives `output` can feed what takes `input`. -/
def feeds (output input : IoType) : Bool :=
  output = input || output = .any || input = .any
    || [(text, markdown), (markdown, text), (pmids, text), (pmids, json), (pdf, files),
        (code, text)].contains (output, input)

end IoType

/-- What is known of a skill. -/
structure SkillInfo where
  id : String
  inputType : Option IoType := none
  outputType : Option IoType := none
  capabilities : List String := []
  deriving DecidableEq, Repr, Inhabited

def SkillInfo.toJson (s : SkillInfo) : Json :=
  .obj [("id", .str s.id), ("input_type", ofText? (s.inputType.map IoType.name)),
    ("output_type", ofText? (s.outputType.map IoType.name)), ("capabilities", ofTexts s.capabilities)]

/-- One attempt at a skill. -/
structure Invocation where
  node : String
  skill : String
  /-- The alternative implementation that is tried, if it is not the skill of the node. -/
  implementation : Option String
  /-- Which attempt at this skill it is, counted from zero. -/
  attempt : Nat
  vars : Keyed Json
  intent : String
  depth : PreferredDepth
  deriving Inhabited

def Invocation.toJson (i : Invocation) : Json :=
  .obj [("node_id", .str i.node), ("skill_id", .str i.skill),
    ("implementation_id", ofText? i.implementation), ("attempt", ofNat i.attempt),
    ("variables", .obj i.vars), ("user_intent", .str i.intent),
    ("preferred_depth", .str i.depth.name)]

/-- An entry of a catalog: a skill and its answer to every call. -/
structure CatalogEntry where
  info : SkillInfo
  response : Json := .null
  deriving Inhabited

def CatalogEntry.slots (room : Nat) : List (Slot CatalogEntry) := [
  required ["id"] text fun v e => { e with info.id := v },
  optional ["input_type"] (option IoType.decoder) fun v e => { e with info.inputType := v },
  optional ["output_type"] (option IoType.decoder) fun v e => { e with info.outputType := v },
  optional ["capabilities"] (list text) fun v e => { e with info.capabilities := v },
  optional ["response"] (value room) fun v e => { e with response := v }]

/-- Reads a list of catalog entries. -/
def CatalogEntry.listDecoder : Decoder (List CatalogEntry) :=
  list (record (slots (deepest - 2)) ⟨{ id := "" }, .null⟩)

/-- Skills that answer without any work. A fixed catalog knows its entries only; a
    simulated one knows every skill and answers with a text that names it. -/
inductive Catalog where
  | fixed (entries : List CatalogEntry)
  | simulated (entries : List CatalogEntry)
  deriving Inhabited

namespace Catalog

/-- The last entry of an id. -/
def lastEntry (entries : List CatalogEntry) (id : String) : Option CatalogEntry :=
  entries.reverse.find? (·.info.id = id)

/-- What a catalog knows of a skill. -/
def info? : Catalog → String → Option SkillInfo
  | .fixed entries, id => (lastEntry entries id).map (·.info)
  | .simulated entries, id => some (((lastEntry entries id).map (·.info)).getD { id })

/-- How a catalog answers a call. -/
def invoke (catalog : Catalog) (node skill : String) : Except Fault Json :=
  match catalog with
  | .fixed entries =>
    match lastEntry entries skill with
    | some e => .ok e.response
    | none => .error (.skillNotFound node skill)
  | .simulated _ => .ok (.str ("result_of_" ++ skill))

end Catalog

end Capability
