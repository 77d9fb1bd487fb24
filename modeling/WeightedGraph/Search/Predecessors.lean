import WeightedGraph.Vertex

/-!
Tables that name for each vertex the vertex before it on a path.

* `Predecessors`: such a table; `Predecessors.get` reads it, `Predecessors.set` writes it.
* `Predecessors.pathTo`: the path that ends in a vertex, followed back as far as it goes.
-/

namespace WeightedGraph

/-- The vertex before each vertex, if there is one. -/
abbrev Predecessors := Array (Option Vertex)

namespace Predecessors

/-- The table of `n` vertices in which no vertex has one before it. -/
def none (n : Nat) : Predecessors :=
  Array.replicate n Option.none

/-- The vertex before `v`. -/
def get (t : Predecessors) (v : Vertex) : Option Vertex :=
  Array.getD t v Option.none

/-- The table with `u` before `v`. -/
def set (t : Predecessors) (v u : Vertex) : Predecessors :=
  t.setIfInBounds v (some u)

theorem get_none (n : Nat) (v : Vertex) : (none n).get v = Option.none := by
  simp only [get, none, Array.getD_eq_getD_getElem?, Array.getElem?_replicate]
  split <;> rfl

/-- Writing one place of the table leaves the others as they are. -/
theorem get_set (t : Predecessors) (v u w : Vertex) :
    (t.set v u).get w = if v = w ∧ v < t.size then some u else t.get w := by
  by_cases hw : w < t.size
  · by_cases hvw : v = w
    · simp [get, set, hw, hvw]
    · simp [get, set, hw, hvw]
  · have hno : ¬ (v = w ∧ v < t.size) := fun h => hw (h.1 ▸ h.2)
    simp [get, set, hw, hno]

/-- The path to `v` followed by `rest`, at most `fuel` steps back. -/
def pathBefore (t : Predecessors) : Nat → Vertex → List Vertex → List Vertex
  | 0, v, rest => v :: rest
  | fuel + 1, v, rest =>
      match t.get v with
      | some u => pathBefore t fuel u (v :: rest)
      | Option.none => v :: rest

/-- The path to `v` from the first vertex that has none before it. A table without cycles has paths
of fewer steps than it has vertices. -/
def pathTo (t : Predecessors) (v : Vertex) : List Vertex :=
  t.pathBefore t.size v []

end Predecessors

end WeightedGraph
