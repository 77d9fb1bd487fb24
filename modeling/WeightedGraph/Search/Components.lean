import WeightedGraph.Search.Breadth

/-!
Connected components by flooding.

* `Adjacency.components`: the vertices grouped by a breadth-first search from the least vertex that no
  group holds, again and again; the vertices of earlier groups count as found.
* `Adjacency.componentCount`: how many searches this takes.

Where every entry has one in the other direction the groups are the connected components.
-/

namespace WeightedGraph

namespace Adjacency

variable {W : Type}

/-- The search from a root that was not found before. -/
def flood (g : Adjacency W) (found : IndexSet) (root : Vertex) :
    Except GraphError (List Visit × BreadthState) :=
  g.breadthVisits ⟨found.insert root, [root]⟩

/-- The groups that begin at those of the given roots that are not found before. -/
def componentsFrom (g : Adjacency W) (found : IndexSet) :
    List Vertex → Except GraphError (List (List Vertex))
  | [] => .ok []
  | root :: roots =>
      if found.contains root then g.componentsFrom found roots
      else do
        let (visits, s) ← g.flood found root
        return visits.map Visit.vertex :: (← g.componentsFrom s.found roots)

/-- The vertices in groups. -/
def components (g : Adjacency W) : Except GraphError (List (List Vertex)) :=
  g.componentsFrom (IndexSet.empty g.size) (List.range g.size)

/-- The number of the given roots that are not found before their turn. -/
def componentCountFrom (g : Adjacency W) (found : IndexSet) :
    List Vertex → Except GraphError Nat
  | [] => .ok 0
  | root :: roots =>
      if found.contains root then g.componentCountFrom found roots
      else do
        let (_, s) ← g.flood found root
        return (← g.componentCountFrom s.found roots) + 1

/-- The number of groups. -/
def componentCount (g : Adjacency W) : Except GraphError Nat :=
  g.componentCountFrom (IndexSet.empty g.size) (List.range g.size)

end Adjacency

end WeightedGraph
