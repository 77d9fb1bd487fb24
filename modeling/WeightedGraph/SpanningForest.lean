import WeightedGraph.EdgeList
import WeightedGraph.UnionFind

/-!
Minimum spanning forests of lists of edges.

* `SpanningForest`: the edges of a forest in the order in which they were accepted, with their total
  weight, their number and the number of trees.
* `acceptEdges`: the edges of a list that join two sets when their turn comes, until the given number
  of edges is reached.
* `minimumSpanningForestBy`: the edges accepted in the order in which a sorting function puts them.
* `sortByWeight`, `minimumSpanningForest`: the edges accepted in the order of their weights. Of edges
  of the same weight the one that comes first in the list has its turn first.
-/

namespace WeightedGraph

/-- A forest that connects what the edges of a list connect. -/
structure SpanningForest (W : Type) where
  /-- The number of vertices. -/
  vertexCount : Nat
  /-- The edges of the forest in the order in which they were accepted. -/
  accepted : List (Edge W)
  deriving DecidableEq

namespace SpanningForest

variable {W : Type}

/-- The number of edges. -/
def edgeCount (f : SpanningForest W) : Nat :=
  f.accepted.length

/-- Whether the forest is a single tree. -/
def isTree (f : SpanningForest W) : Bool :=
  f.edgeCount + 1 == f.vertexCount

/-- The number of trees. -/
def treeCount (f : SpanningForest W) : Nat :=
  f.vertexCount - f.edgeCount

/-- The sum of the weights, added one after another to zero. -/
def total [Weight W] (f : SpanningForest W) : W :=
  f.accepted.foldl (fun total e => total + e.weight) 0

end SpanningForest

/-- The edges that join two sets when their turn comes, at most `missing` of them. -/
def acceptEdges {W : Type} (sets : UnionFind) :
    Nat → List (Edge W) → Except GraphError (List (Edge W))
  | 0, _ => .ok []
  | _ + 1, [] => .ok []
  | missing + 1, e :: es => do
      let (joined, sets) ← sets.union e.source e.target
      if joined then return e :: (← acceptEdges sets missing es)
      else acceptEdges sets (missing + 1) es

variable {W : Type} [Weight W]

/-- The forest that connects what the edges connect, where the edges have their turns as `sort` puts
them. -/
def minimumSpanningForestBy (sort : List (Edge W) → List (Edge W)) (vertexCount : Nat)
    (edges : List (Edge W)) : Except GraphError (SpanningForest W) := do
  checkEdges vertexCount edges
  let accepted ← acceptEdges (UnionFind.singletons vertexCount) (vertexCount - 1) (sort edges)
  return ⟨vertexCount, accepted⟩

/-- The edges of a list in the total order of their weights, equal ones in their given order. -/
def sortByWeight (edges : List (Edge W)) : List (Edge W) :=
  edges.mergeSort fun e e' => (Weight.order e.weight e'.weight).isLE

/-- The forest of least weight that connects what the edges connect. -/
def minimumSpanningForest (vertexCount : Nat) (edges : List (Edge W)) :
    Except GraphError (SpanningForest W) :=
  minimumSpanningForestBy sortByWeight vertexCount edges

end WeightedGraph
