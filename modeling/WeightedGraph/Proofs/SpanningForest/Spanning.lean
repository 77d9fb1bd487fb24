import Mathlib
import WeightedGraph.Proofs.SpanningForest.Greedy
import WeightedGraph.Proofs.Weight.Order

/-!
The result of the algorithm is a spanning forest of the edges it is given.

* `SpanningForest.Spans`: the forest consists of edges of a list, closes no cycle and connects what
  the list connects; its numbers of edges and of trees are those of such a forest. Every result
  spans its input, however the sorting function arranges edges of equal weight.
-/

namespace WeightedGraph

open EdgeList

variable {W : Type} [Weight W]

/-- The forest spans the vertices below `n` as the edges of a list do. -/
structure SpanningForest.Spans (f : SpanningForest W) (n : Nat) (es : List (Edge W)) : Prop where
  /-- Its edges are edges of the list, none more often than it occurs there. -/
  subperm : f.accepted.Subperm es
  /-- Their weights do not decrease. -/
  sorted : f.accepted.Pairwise fun e e' => (Weight.order e.weight e'.weight).isLE
  /-- None of them joins a vertex to itself. -/
  isLoop_eq_false : ∀ e ∈ f.accepted, e.isLoop = false
  /-- They close no cycle. -/
  acyclic : Acyclic f.accepted
  /-- They connect just what the list connects. -/
  joined_iff : ∀ u v, Joined f.accepted u v ↔ Joined es u v
  /-- There are fewer edges than vertices. -/
  edgeCount_lt : f.edgeCount < n
  /-- The number of trees is a difference that is not cut off at zero. -/
  treeCount_add_edgeCount : f.treeCount + f.edgeCount = n
  /-- There are as many trees as connected components. -/
  treeCount_eq : f.treeCount = componentCount n es
  /-- The forest is a tree if there is one component. -/
  isTree_iff : f.isTree = true ↔ componentCount n es = 1

/-- Every result is a spanning forest of exactly the input. -/
theorem spans_minimumSpanningForestBy {sort : List (Edge W) → List (Edge W)} {n : Nat}
    {es : List (Edge W)} {f : SpanningForest W} (hsort : SortsByWeight sort)
    (h : minimumSpanningForestBy sort n es = .ok f) : f.Spans n es := by
  obtain ⟨hn, hes, hcount, hgreedy⟩ := greedy_of_eq_ok hsort h
  have hperm := hsort.perm es
  have hsub : f.accepted.Subperm es := hgreedy.sublist.subperm.trans hperm.subperm
  have hacyclic : Acyclic f.accepted := hgreedy.acyclic_accepted
  have hjoined : ∀ u v, Joined f.accepted u v ↔ Joined es u v := fun u v =>
    (hgreedy.joined_accepted_iff u v).trans (joined_perm hperm u v)
  -- edges and components of a forest make up its vertices, and there is at least one component
  have hsum : f.edgeCount + componentCount n es = n := by
    rw [← componentCount_congr hjoined]
    exact length_add_componentCount (hes.subset hsub.subset) hacyclic
  have hpos : 0 < componentCount n es := componentCount_pos hn es
  have htree : f.treeCount = n - f.edgeCount := congrArg (· - f.edgeCount) hcount
  exact
    { subperm := hsub
      sorted := (hsort.pairwise es).sublist hgreedy.sublist
      isLoop_eq_false := fun e he => hacyclic.isLoop_eq_false he
      acyclic := hacyclic
      joined_iff := hjoined
      edgeCount_lt := by omega
      treeCount_add_edgeCount := by omega
      treeCount_eq := by omega
      isTree_iff := by
        rw [SpanningForest.isTree, hcount, beq_iff_eq]
        omega }

/-- A loop, two parallel edges and an edge apart from them on five vertices: one of the parallel
edges and the edge of negative weight are accepted. -/
theorem spans_parallel_and_loop :
    let edge (u v : Vertex) (w : Int) : Edge (Saturating (IntRange.signed 32)) :=
      ⟨u, v, Saturating.clamp _ w⟩
    let es := [edge 0 0 1, edge 0 1 7, edge 1 0 2, edge 3 4 (-3)]
    let f : SpanningForest (Saturating (IntRange.signed 32)) := ⟨5, [edge 3 4 (-3), edge 1 0 2]⟩
    minimumSpanningForest 5 es = .ok f ∧ f.Spans 5 es := by
  intro edge es f
  have h : minimumSpanningForest 5 es = .ok f := by cbv
  exact ⟨h, spans_minimumSpanningForestBy sortsByWeight_sortByWeight h⟩

end WeightedGraph
