/-!
Vertices of a graph and the two ways in which they are written.

* `Vertex`: the index of a vertex; a graph with `n` vertices has the indices below `n`.
* `Vertex.label`: the name of a vertex in edges, messages and drawings, `v3`.
* `Vertex.inspect`: the index inside its tag, `VertexId(3)`.
-/

namespace WeightedGraph

/-- The index of a vertex. -/
abbrev Vertex := Nat

namespace Vertex

/-- The name of a vertex: the letter `v` and its index. -/
def label (v : Vertex) : String :=
  "v" ++ Nat.repr v

/-- The index inside its tag, for inspection. -/
def inspect (v : Vertex) : String :=
  "VertexId(" ++ Nat.repr v ++ ")"

end Vertex

end WeightedGraph
