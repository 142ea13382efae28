/-
  Capability.Graph.Basic — capability graphs and the look-ups into them.

  A graph may hold anything a document can say: two nodes of one id, of which the first
  is the node with that id, and edges whose ends are no nodes. Edges keep the order in
  which they are declared.
-/

import Capability.Graph.Document
import Capability.Json.Reader

namespace Capability

/-- A capability graph. -/
structure Graph where
  id : String
  version : String
  name : String
  description : String
  metadata : Option Metadata
  strategy : Strategy
  maxRetries : Nat
  retryDelay : Option Duration
  nodes : List Node
  edges : List Edge
  deriving Inhabited

namespace Graph

/-- The graph a document describes; a retry delay that is no duration is none. -/
def ofDocument (d : Document) : Graph where
  id := d.id
  version := d.version
  name := d.name
  description := d.description
  metadata := d.metadata
  strategy := d.strategy
  maxRetries := d.maxRetries
  retryDelay := d.retryDelay.bind Duration.ofSeconds?
  nodes := d.nodes
  edges := d.edges

def toDocument (g : Graph) : Document where
  id := g.id
  version := g.version
  name := g.name
  description := g.description
  metadata := g.metadata
  strategy := g.strategy
  maxRetries := g.maxRetries
  retryDelay := g.retryDelay.map Duration.toSeconds
  nodes := g.nodes
  edges := g.edges

/-- The graph written in a JSON text. -/
def parse (text : String) : Except Json.Problem Graph :=
  ofDocument <$> (Json.readPage text).decode Document.decoder

/-- The node with an id: the first one declared. -/
def node? (g : Graph) (id : String) : Option Node := g.nodes.find? (·.id = id)

def kind? (g : Graph) (id : String) : Option NodeKind := (g.node? id).map (·.kind)

def isDeclared (g : Graph) (id : String) : Bool := (g.node? id).isSome

/-- The edges that leave an id. -/
def outgoing (g : Graph) (id : String) : List Edge := g.edges.filter (·.source = id)

/-- The edges that lead to an id. -/
def incoming (g : Graph) (id : String) : List Edge := g.edges.filter (·.target = id)

/-- The edges out of an id that ordinary successor selection follows. -/
def flow (g : Graph) (id : String) : List Edge := (g.outgoing id).filter Edge.isFlow

def successors (g : Graph) (id : String) : List String := (g.outgoing id).map (·.target)

def predecessors (g : Graph) (id : String) : List String := (g.incoming id).map (·.source)

/-- Where a run begins: the first start node. -/
def start? (g : Graph) : Option Node := g.nodes.find? (·.kind = .start)

/-- Where a run may end. -/
def finishes (g : Graph) : List Node := g.nodes.filter (·.kind = .finish)

end Graph

end Capability
