import WeightedGraph.Graph.Basic

/-!
A graph as lines of text, one for each vertex.

* `unlines`: lines as one text, each with its line break.
* `Graph.text`: the lists of the graph, `0 -> (1, 5) (2, 3)` for vertex `0`.
-/

namespace WeightedGraph

/-- The lines of a list as one text; every line is closed by a line break. -/
def unlines (lines : List String) : String :=
  String.join (lines.map (· ++ "\n"))

namespace Graph

variable {W : Type} [Weight W]

/-- An entry with a blank before it: the index of the neighbour and the weight in parentheses. -/
def entryText (e : Entry W) : String :=
  " (" ++ Nat.repr e.target ++ ", " ++ Weight.text e.weight ++ ")"

/-- The line of a vertex: its index, an arrow and its entries. -/
def rowText (g : Graph W) (v : Vertex) : String :=
  Nat.repr v ++ " ->" ++ String.join ((g.adjacency.row v).map entryText)

/-- The lines of all vertices. -/
def text (g : Graph W) : String :=
  unlines (g.vertices.map g.rowText)

end Graph

end WeightedGraph
