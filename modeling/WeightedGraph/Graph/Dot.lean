import WeightedGraph.Graph.Text

/-!
A graph in the DOT language for drawing.

* `Dot.escape`: a text as it stands between the quotes of a label; a backslash, a quote and a line
  break are written as a backslash and one character, a carriage return is left out.
* `Graph.toDot`: the drawing, with a title above it if there is one.
-/

namespace WeightedGraph

namespace Dot

/-- The characters that stand for one character inside quotes. -/
def escapeChar : Char → List Char
  | '\\' => ['\\', '\\']
  | '"' => ['\\', '"']
  | '\n' => ['\\', 'n']
  | '\r' => []
  | c => [c]

/-- A text as it stands inside quotes. -/
def escape (s : String) : String :=
  String.ofList (s.toList.flatMap escapeChar)

/-- The two lines that put a title above the drawing. -/
def titleLines (title : String) : List String :=
  ["    label=\"" ++ escape title ++ "\";", "    labelloc=t;"]

/-- How vertices and edges are drawn. -/
def styleLines : List String :=
  ["    node [shape=circle, fontname=\"Courier\", fontsize=10];",
    "    edge [fontname=\"Courier\", fontsize=9];"]

/-- The line of a vertex. -/
def vertexLine (v : Vertex) : String :=
  "    " ++ v.label ++ ";"

/-- The line of an edge, with its weight as label. -/
def edgeLine {W : Type} [Weight W] (e : Edge W) : String :=
  "    " ++ e.source.label ++ " -> " ++ e.target.label ++ " [label=\"" ++
    escape (Weight.text e.weight) ++ "\"];"

end Dot

namespace Graph

variable {W : Type} [Weight W]

/-- The lines of the drawing: the title, the style, the vertices and the edges. -/
def dotLines (g : Graph W) (title : Option String) : List String :=
  ["digraph G \x7b"] ++ title.elim [] Dot.titleLines ++ Dot.styleLines ++ [""] ++
    g.vertices.map Dot.vertexLine ++ [""] ++ g.edges.map Dot.edgeLine ++ ["\x7d"]

/-- The drawing of the graph, with the given title. -/
def toDot (g : Graph W) (title : Option String) : String :=
  unlines (g.dotLines title)

end Graph

end WeightedGraph
