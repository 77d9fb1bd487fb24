import WeightedGraph.EdgeList
import WeightedGraph.UnionFind

/-!
Minimum cuts of lists of edges by random contraction.

* `Contraction`: vertices merged into sets, and the edges that may still be picked.
* `Contraction.pick`: picks an edge. One between two sets merges them and stays; one inside a set is
  removed, the last edge taking its place.
* `Contraction.isOver`: two sets are left, or no edge.
* `Contraction.run`: picks edges as a chooser says until it is over.
* `crossing`: the number of edges between different sets.
* `minCut`, `minCutOfTrials`: the cut of one contraction, and the least cut of several that share a
  chooser, up to one without any edge across.

A chooser gives for a bound `n` an index below `n` and its own next state.
-/

namespace WeightedGraph

/-- The state of a contraction. -/
structure Contraction (W : Type) where
  /-- The sets of vertices that were merged. -/
  sets : UnionFind
  /-- The edges that may be picked. -/
  candidates : Array (Edge W)

/-- The elements of an array without the one at `i`, whose place the last one takes. -/
def replaceByLast {α : Type} (xs : Array α) (i : Nat) : Array α :=
  (xs.swapIfInBounds i (xs.size - 1)).pop

/-- The number of edges between different sets. -/
def crossing {W : Type} (sets : UnionFind) (edges : List (Edge W)) : Nat :=
  edges.countP fun e => sets.rootOf e.source != sets.rootOf e.target

namespace Contraction

variable {W : Type}

/-- The state in which every vertex is a set of its own and every edge between two vertices may be
picked. -/
def start (vertexCount : Nat) (edges : List (Edge W)) : Contraction W where
  sets := UnionFind.singletons vertexCount
  candidates := (edges.filter fun e => !e.isLoop).toArray

/-- Whether no pick is left to make. -/
def isOver (c : Contraction W) : Bool :=
  decide (c.sets.sets ≤ 2) || c.candidates.isEmpty

/-- Picks the candidate at `i`. -/
def pick (c : Contraction W) (i : Nat) : Except GraphError (Contraction W) :=
  match c.candidates[i]? with
  | none => .error .indexOutOfBounds
  | some e => do
      let (joined, sets) ← c.sets.union e.source e.target
      return if joined then { c with sets := sets }
        else ⟨sets, replaceByLast c.candidates i⟩

/-- Picks candidates until it is over, at most `fuel` of them. -/
def run {σ : Type} (below : Nat → σ → Nat × σ) :
    Nat → Contraction W → σ → Except GraphError (Contraction W × σ)
  | 0, c, s => .ok (c, s)
  | fuel + 1, c, s =>
      if c.isOver then .ok (c, s)
      else do
        let (i, s) := below c.candidates.size s
        run below fuel (← c.pick i) s

end Contraction

variable {W : Type} {σ : Type}

/-- One contraction and the edges it leaves between its sets. A pick merges two sets, which happens
at most twice less than there are vertices, or removes a candidate. -/
def randomCut (vertexCount : Nat) (edges : List (Edge W)) (below : Nat → σ → Nat × σ) (s : σ) :
    Except GraphError (Nat × σ) := do
  let c := Contraction.start vertexCount edges
  let (c, s) ← c.run below (vertexCount - 2 + c.candidates.size) s
  return (crossing c.sets edges, s)

/-- The least of `best` and the cuts of at most `trials` contractions; none follows a cut without
edges. -/
def leastCut (vertexCount : Nat) (edges : List (Edge W)) (below : Nat → σ → Nat × σ) :
    Nat → Nat → σ → Except GraphError (Nat × σ)
  | 0, best, s => .ok (best, s)
  | trials + 1, best, s =>
      if best = 0 then .ok (best, s)
      else do
        let (cut, s) ← randomCut vertexCount edges below s
        leastCut vertexCount edges below trials (min best cut) s

variable [Weight W]

/-- The cut that one contraction finds. -/
def minCut (vertexCount : Nat) (edges : List (Edge W)) (below : Nat → σ → Nat × σ) (s : σ) :
    Except GraphError (Nat × σ) := do
  checkEdges vertexCount edges
  randomCut vertexCount edges below s

/-- The least cut that a number of contractions find, of which there is at least one. -/
def minCutOfTrials (vertexCount : Nat) (edges : List (Edge W)) (trials : Nat)
    (below : Nat → σ → Nat × σ) (s : σ) : Except GraphError (Nat × σ) := do
  checkEdges vertexCount edges
  let (cut, s) ← randomCut vertexCount edges below s
  leastCut vertexCount edges below (trials - 1) cut s

end WeightedGraph
