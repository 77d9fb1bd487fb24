import WeightedGraph.Vertex

/-!
The causes for which an operation has no answer, and their wording.

* `GraphError`: one constructor for each cause, with what its message names.
* `GraphError.message`: the text of a cause.
-/

namespace WeightedGraph

/-- A cause for which an operation has no answer. -/
inductive GraphError where
  /-- A vertex is not below the number of vertices. -/
  | invalidVertex (vertex : Vertex) (vertexCount : Nat)
  /-- The operation needs a vertex and the graph has none. -/
  | emptyGraph
  /-- An edge has a negative weight where only distances are meant. -/
  | negativeWeight (source target : Vertex)
  /-- An edge has a weight that is no number or not finite. -/
  | invalidWeight (source target : Vertex)
  /-- A recursive search came deeper than its limit. -/
  | recursionLimit (limit : Nat)
  /-- A text is not the name of any choice. -/
  | unknownName
  /-- An index lies outside the table it is meant for. -/
  | indexOutOfBounds
  deriving DecidableEq

/-- The wording of a cause. -/
def GraphError.message : GraphError → String
  | invalidVertex v n =>
      "Vertex " ++ v.label ++ " is out of range for a graph with " ++ Nat.repr n ++ " vertices"
  | emptyGraph => "Operation requires a graph with at least one vertex"
  | negativeWeight u v => "Edge " ++ u.label ++ " -> " ++ v.label ++ " has a negative weight"
  | invalidWeight u v => "Edge " ++ u.label ++ " -> " ++ v.label ++ " has a non-finite weight"
  | recursionLimit limit => "Reached the maximum recursion level allowed - " ++ Nat.repr limit
  | unknownName => "Matching variant not found"
  | indexOutOfBounds => "index out of bounds"

end WeightedGraph
