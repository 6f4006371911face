/-! # Flow graphs

A small directed graph of labelled boxes and its text in the DOT language. Node ids and edges are
kept once each, in the order of arrival. -/

namespace DesignAtlas

/-- How a node is drawn. -/
inductive NodeShape where
  | box
  | plaintext
  deriving DecidableEq, Repr

/-- The name of a shape. -/
def NodeShape.word : NodeShape → String
  | .box => "box"
  | .plaintext => "plaintext"

/-- A node of a graph. -/
structure GraphNode where
  id : String
  label : String
  shape : NodeShape
  /-- What the node links to. -/
  url : Option String
  deriving DecidableEq, Repr

/-- An edge between two nodes, by their ids. -/
structure GraphEdge where
  source : String
  target : String
  deriving DecidableEq, Repr

/-- A directed graph. -/
structure Graph where
  nodes : List GraphNode
  edges : List GraphEdge
  deriving DecidableEq, Repr

namespace Graph

/-- The graph without nodes. -/
def empty : Graph := ⟨[], []⟩

/-- The node with an id. -/
def node? (g : Graph) (id : String) : Option GraphNode := g.nodes.find? fun n => n.id == id

/-- Adds a node unless its id is taken. -/
def addNode (g : Graph) (n : GraphNode) : Graph :=
  if (g.nodes.map GraphNode.id).contains n.id then g else { g with nodes := g.nodes ++ [n] }

/-- Adds an edge unless it is there. -/
def addEdge (g : Graph) (e : GraphEdge) : Graph :=
  if g.edges.contains e then g else { g with edges := g.edges ++ [e] }

/-! ### DOT -/

/-- A character inside a quoted text: quotes and backslashes follow a backslash. -/
def quoteChar (c : Char) : List Char :=
  if c = '\x22' ∨ c = '\x5c' then ['\x5c', c] else [c]

/-- A text in quotes. -/
def quote (s : String) : String := "\"" ++ String.ofList (s.toList.flatMap quoteChar) ++ "\""

/-- The line of a node. -/
def nodeLine (n : GraphNode) : String :=
  "  " ++ quote n.id ++ " [label=" ++ quote n.label ++ ", shape=" ++ n.shape.word ++
    (match n.url with
      | some url => ", URL=" ++ quote url
      | none => "") ++ "];\n"

/-- The line of an edge. -/
def edgeLine (e : GraphEdge) : String :=
  "  " ++ quote e.source ++ " -> " ++ quote e.target ++ ";\n"

/-- The graph in DOT, drawn from left to right. -/
def toDot (g : Graph) : String :=
  "digraph G \x7b\n  rankdir=LR;\n" ++ String.join (g.nodes.map nodeLine) ++
    String.join (g.edges.map edgeLine) ++ "\x7d\n"

end Graph

/-- A way to draw graphs: the bytes of an image, or nothing when it fails. -/
abbrev Renderer := Graph → Option ByteArray

end DesignAtlas
