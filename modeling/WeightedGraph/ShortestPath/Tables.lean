import WeightedGraph.Adjacency
import WeightedGraph.IndexSet
import WeightedGraph.Search.Predecessors

/-!
The tables of a shortest-path search and how a vertex is settled in them.

* `Distance`: a weight, or `none` where no way leads; `Distance.text` is its text.
* `Candidate`: a vertex with a distance at which it can be reached.
* `Tables`: the distances found so far, the predecessors on the paths found and the settled vertices.
* `Tables.relax`: tries each entry of a vertex and keeps the distances that are shorter, with the
  candidates this gives.
* `Tables.settle`: marks a vertex as settled and relaxes its entries; the distances of settled
  vertices stay as they are.
-/

namespace WeightedGraph

/-- A distance, `none` where no way leads. -/
abbrev Distance (W : Type) := Option W

/-- The text of a distance. -/
def Distance.text {W : Type} [Weight W] : Distance W → String
  | some w => Weight.text w
  | none => "INFINITY"

/-- A vertex that can be reached at a distance. -/
structure Candidate (W : Type) where
  /-- The distance. -/
  distance : W
  /-- The vertex. -/
  vertex : Vertex
  deriving DecidableEq

/-- The tables of a shortest-path search. -/
structure Tables (W : Type) where
  /-- The least distance of each vertex found so far. -/
  distance : Array (Distance W)
  /-- The vertex before each vertex on the way of that distance. -/
  predecessor : Predecessors
  /-- The vertices whose distance is final. -/
  settled : IndexSet

namespace Tables

variable {W : Type}

/-- The distance of a vertex found so far. -/
def distanceOf (t : Tables W) (v : Vertex) : Distance W :=
  t.distance.getD v none

/-- The tables with the way to `v` by `u` at distance `d`. -/
def record (t : Tables W) (u v : Vertex) (d : W) : Tables W :=
  { t with
    distance := t.distance.setIfInBounds v (some d)
    predecessor := t.predecessor.set v u }

variable [Weight W]

/-- The tables in which only the source is reached, at distance zero. -/
def start (size : Nat) (source : Vertex) : Tables W where
  distance := (Array.replicate size none).setIfInBounds source (some 0)
  predecessor := Predecessors.none size
  settled := IndexSet.empty size

/-- Whether a distance is numerically shorter than what was found so far. -/
def shorter (d : W) : Distance W → Bool
  | some found => Weight.lt d found
  | none => true

/-- Tries the entries of `u`, whose distance is `base`, in turn: an entry to a vertex that is not
settled is kept if it gives that vertex a shorter distance. -/
def relax (u : Vertex) (base : W) : List (Entry W) → Tables W → Tables W × List (Candidate W)
  | [], t => (t, [])
  | e :: es, t =>
      if t.settled.contains e.target then relax u base es t
      else
        let d := base + e.weight
        if shorter d (t.distanceOf e.target) then
          let (t', improved) := relax u base es (t.record u e.target d)
          (t', ⟨d, e.target⟩ :: improved)
        else relax u base es t

/-- Settles a vertex and relaxes its entries. -/
def settle (g : Adjacency W) (t : Tables W) (u : Vertex) :
    Except GraphError (Tables W × List (Candidate W)) := do
  let entries ← g.expand u
  let t := { t with settled := t.settled.insert u }
  match t.distanceOf u with
  | some base => return relax u base entries t
  | none => return (t, [])

end Tables

end WeightedGraph
