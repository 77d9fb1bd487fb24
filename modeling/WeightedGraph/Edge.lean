import WeightedGraph.Vertex
import WeightedGraph.Weight.Basic

/-!
Edges as values of their own, apart from any graph.

* `Edge`: two endpoints and a weight.
* `Edge.isLoop`, `Edge.flip`, `Edge.same`: the edge from a vertex to itself, the edge the other way
  round, and equality with the weights compared as numbers.
* `Edge.text`: an edge in one line, `v0 -- v3 == 7`.
-/

namespace WeightedGraph

/-- An edge with a weight. -/
structure Edge (W : Type) where
  /-- The vertex that the edge leaves. -/
  source : Vertex
  /-- The vertex that the edge enters. -/
  target : Vertex
  /-- The weight of the edge. -/
  weight : W
  deriving DecidableEq

namespace Edge

variable {W : Type}

/-- Whether the edge joins a vertex to itself. -/
def isLoop (e : Edge W) : Bool :=
  e.source == e.target

/-- The edge the other way round. -/
def flip (e : Edge W) : Edge W where
  source := e.target
  target := e.source
  weight := e.weight

variable [Weight W]

/-- Whether two edges have the same endpoints and numerically equal weights; an edge whose weight is
no number is not the same as itself. -/
def same (e e' : Edge W) : Bool :=
  e.source == e'.source && e.target == e'.target && Weight.same e.weight e'.weight

/-- The edge in one line: both endpoints, then the weight. -/
def text (e : Edge W) : String :=
  e.source.label ++ " -- " ++ e.target.label ++ " == " ++ Weight.text e.weight

end Edge

end WeightedGraph
