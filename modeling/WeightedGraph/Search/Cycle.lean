import WeightedGraph.Adjacency

/-!
Search for a cycle.

* `Mark`: whether a vertex has not been seen, lies on the path that is being followed, or is done.
* `Frame`, `CycleState`: a vertex of the path with the entries that are still to follow, and the
  state of the search.
* `Adjacency.cycleStep`: follows one entry, or steps back from a vertex without entries left. An
  entry to a vertex on the path closes a cycle.
* `Adjacency.cycle?`: the first cycle found from the vertices in increasing order, as the vertices
  on it with the first one repeated at the end.
* `Adjacency.isCyclic`: whether there is one.
-/

namespace WeightedGraph

/-- How far the search has come with a vertex. -/
inductive Mark where
  /-- Not met yet. -/
  | unseen
  /-- On the path that is being followed. -/
  | onPath
  /-- Left again, with all that can be reached from it. -/
  | done
  deriving DecidableEq

/-- A vertex on the path. -/
structure Frame (W : Type) where
  /-- The vertex. -/
  vertex : Vertex
  /-- The entries that have not been followed. -/
  remaining : List (Entry W)

/-- The state of the search for a cycle. -/
structure CycleState (W : Type) where
  /-- How far the search has come with each vertex. -/
  marks : Array Mark
  /-- The path that is being followed, its last vertex first. -/
  path : List (Frame W)

/-- What a step of the search gives. -/
inductive CycleStep (W : Type) where
  /-- A cycle was closed. -/
  | found (cycle : List Vertex)
  /-- The search goes on. -/
  | searching (state : CycleState W)

namespace Adjacency

variable {W : Type}

/-- The state with `v` as the new last vertex of the path. -/
def enterPath (g : Adjacency W) (s : CycleState W) (v : Vertex) : CycleState W where
  marks := s.marks.setIfInBounds v .onPath
  path := ⟨v, g.row v⟩ :: s.path

/-- The part of the path from `v` on, closed by `v`. -/
def closeCycle (path : List (Frame W)) (v : Vertex) : List Vertex :=
  (path.reverse.map Frame.vertex).dropWhile (· != v) ++ [v]

/-- Follows the next entry of the last vertex of the path, or leaves that vertex. -/
def cycleStep (g : Adjacency W) (s : CycleState W) : Except GraphError (CycleStep W) :=
  match s.path with
  | [] => .ok (.searching s)
  | ⟨v, []⟩ :: rest => .ok (.searching ⟨s.marks.setIfInBounds v .done, rest⟩)
  | ⟨v, e :: remaining⟩ :: rest =>
      let path := ⟨v, remaining⟩ :: rest
      match s.marks[e.target]? with
      | some .unseen => .ok (.searching (g.enterPath ⟨s.marks, path⟩ e.target))
      | some .onPath => .ok (.found (closeCycle path e.target))
      | some .done => .ok (.searching ⟨s.marks, path⟩)
      | none => .error .indexOutOfBounds

/-- Steps until a cycle is found or the path is empty. -/
def followPath (g : Adjacency W) : Nat → CycleState W → Except GraphError (CycleStep W)
  | 0, s => .ok (.searching s)
  | fuel + 1, s =>
      if s.path.isEmpty then .ok (.searching s)
      else do
        match ← g.cycleStep s with
        | .found cycle => return .found cycle
        | .searching s' => g.followPath fuel s'

/-- The first cycle found from those of the given roots that are not seen before their turn. Every
step follows an entry or leaves a vertex, each of which happens once, so their number is fuel enough
for one root. -/
def cycleFrom (g : Adjacency W) (fuel : Nat) :
    List Vertex → Array Mark → Except GraphError (Option (List Vertex))
  | [], _ => .ok none
  | root :: roots, marks =>
      if marks.getD root .done = .unseen then do
        match ← g.followPath fuel (g.enterPath ⟨marks, []⟩ root) with
        | .found cycle => return some cycle
        | .searching s => g.cycleFrom fuel roots s.marks
      else
        g.cycleFrom fuel roots marks

/-- A cycle, if there is one. -/
def cycle? (g : Adjacency W) : Except GraphError (Option (List Vertex)) :=
  g.cycleFrom (g.edges.length + g.size) (List.range g.size) (Array.replicate g.size .unseen)

/-- Whether there is a cycle. -/
def isCyclic (g : Adjacency W) : Except GraphError Bool := do
  return (← g.cycle?).isSome

end Adjacency

end WeightedGraph
