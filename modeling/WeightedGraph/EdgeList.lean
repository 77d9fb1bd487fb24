import WeightedGraph.Edge
import WeightedGraph.Error

/-!
What is demanded of a list of edges that is given without a graph.

* `checkEdge`: the endpoints of an edge are vertices and its weight is valid; the source is checked
  first and the weight last.
* `checkEdges`: there is a vertex, and every edge passes; the first that does not is named.
-/

namespace WeightedGraph

variable {W : Type} [Weight W]

/-- Refuses an edge that does not fit a number of vertices. -/
def checkEdge (vertexCount : Nat) (e : Edge W) : Except GraphError Unit :=
  if vertexCount ≤ e.source then .error (.invalidVertex e.source vertexCount)
  else if vertexCount ≤ e.target then .error (.invalidVertex e.target vertexCount)
  else if Weight.isValid e.weight then .ok ()
  else .error (.invalidWeight e.source e.target)

/-- Refuses a list of edges that does not fit a number of vertices, and no vertices at all. -/
def checkEdges (vertexCount : Nat) (edges : List (Edge W)) : Except GraphError Unit :=
  if vertexCount = 0 then .error .emptyGraph else edges.forM (checkEdge vertexCount)

end WeightedGraph
