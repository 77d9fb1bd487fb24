import Mathlib
import WeightedGraph.Proofs.Graph.Edges
import WeightedGraph.Proofs.ShortestPath.Frontiers
import WeightedGraph.Proofs.Weight.Proper

/-!
Shortest paths with floating-point weights.

The scan compares distances as numbers and the queue by the total order, which is not the same on a
NaN and on the two zeros. A graph takes finite weights only, the negative zero among them, and every
distance is a sum that begins with the positive zero. So neither a NaN nor the negative zero ever
becomes a distance, although sums may be rounded to an infinity.

* `Adjacency.of_distance?`: what holds of zero and survives each entry of the lists holds of all
  distances that a search gives.
* `Graph.comparable_filled`: the proper numbers are such distances in a filled graph.
* `Graph.exists_shortestPathTree_filled`: hence both frontiers give the same paths, and distances
  that are proper numbers.
-/

namespace WeightedGraph

namespace Adjacency

variable {W : Type} [Weight W] {g : Adjacency W} {t : Tables W} {P : W → Prop} {source v : Vertex}
  {frontier : Frontier} {p : ShortestPathTree W} {d : W}

lemma Admits.iterate (h : g.WellFormed) (hP : g.Comparable P) (ht : g.Admits P t) (k : Nat) :
    g.Admits P (g.settleNearest^[k] t) := by
  induction k with
  | zero => exact ht
  | succ k ih =>
      rw [Function.iterate_succ_apply']
      exact ih.settleNearest h hP

/-- What holds of zero and survives each entry of the lists holds of every distance that a search
gives. -/
theorem of_distance? [Std.TransCmp (Weight.order (W := W))]
    [Std.LawfulEqCmp (Weight.order (W := W))] (h : g.WellFormed) (hP : g.Comparable P)
    (hp : g.shortestPathTree source frontier = .ok p) (hd : p.distance? v = some (some d)) :
    P d := by
  by_cases hs : source < g.size
  · obtain ⟨t, k, ht, -, hdist, -⟩ := exists_finalTables h hP hs frontier
    rw [shortestPathTree_of_lt hs ht] at hp
    obtain rfl := Except.ok.inj hp
    rw [ShortestPathTree.distance?, hdist] at hd
    refine ((Admits.start hP hs).iterate h hP k).holds v d ?_
    rw [Tables.distanceOf, Array.getD_eq_getD_getElem?, hd]
    rfl
  · rw [shortestPathTree_of_not_lt hs] at hp
    obtain rfl := Except.ok.inj hp
    rw [ShortestPathTree.distance?, Tables.start, Array.setIfInBounds_eq_of_size_le
      (by simpa using hs), Array.getElem?_replicate] at hd
    split at hd <;> simp at hd

end Adjacency

namespace Graph

variable {f : BinaryFormat}

/-- In a filled graph the proper numbers contain zero and survive each entry, and the comparisons of
the two frontiers agree on them. -/
lemma comparable_filled (n : Nat) (is : List (Insertion (Binary f))) :
    (filled n is).adjacency.Comparable Binary.Proper where
  zero := .zero
  add v e he d hd := by
    have hv : v < (filled n is).size := (Adjacency.leads_of_mem he).lt_size
    have hfits : Edge.Fits n ⟨v, e.target, e.weight⟩ :=
      fits_of_mem_edges_filled (Adjacency.mem_edges.2 ⟨hv, he⟩)
    exact hd.add hfits.2.2
  compare?_eq _ _ ha hb := ha.compare?_eq hb

/-- Whatever floating-point edges a graph was filled with, both frontiers give the same distances,
bit for bit, and the same predecessors. No distance is a NaN or the negative zero. -/
theorem exists_shortestPathTree_filled (f : BinaryFormat) (n : Nat)
    (is : List (Insertion (Binary f))) (source : Vertex) :
    ∃ p, (filled n is).adjacency.shortestPathTree source .scan = .ok p ∧
      (filled n is).adjacency.shortestPathTree source .queue = .ok p ∧
      ∀ v d, p.distance? v = some (some d) → d.Proper := by
  have hg := wellFormed_filled n is
  have hP := comparable_filled n is
  obtain ⟨p, hscan, hqueue⟩ := Adjacency.exists_shortestPathTree_of_comparable hg hP source
  exact ⟨p, hscan, hqueue, fun v d hd => Adjacency.of_distance? hg hP hscan hd⟩

/-- Twice the greatest finite number is an infinity, and negative zeros lead to the positive one. -/
example :
    let insertion (u v : Vertex) (bits : Nat) : Insertion (Binary .single) :=
      ⟨⟨u, v, .ofBits .single bits⟩, true⟩
    let g := filled 5 [insertion 0 1 0x7f7fffff, insertion 1 2 0x7f7fffff, insertion 0 3 0x80000000,
      insertion 3 4 0x80000000]
    (g.adjacency.shortestPathTree 0 .scan).toOption.map
      (fun p => p.distance.toList.map (Option.map Binary.bits)) =
      some [some 0, some 0x7f7fffff, some 0x7f800000, some 0, some 0] := by
  decide +kernel

end Graph

end WeightedGraph
