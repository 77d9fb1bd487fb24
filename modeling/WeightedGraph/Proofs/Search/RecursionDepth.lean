import Mathlib
import WeightedGraph.Proofs.Search.Levels
import WeightedGraph.Proofs.Search.WhitePaths

/-!
How deep a recursive search goes.

* `Visits.le_length`: no more visits are under way at one time than are made.
* `Visits.exists_walk`: the visits that are under way are those of a walk, so to a vertex that is
  visited leads a walk of fewer entries than visits are under way at most.
* `Adjacency.exists_recursionDepth`: hence the least limit with which the search from a vertex
  succeeds lies between the number of levels that can be reached and the number of vertices.
-/

namespace WeightedGraph

namespace Adjacency

variable {W : Type} {g : Adjacency W} {s s' : IndexSet} {us out : List Vertex} {start v : Vertex}
  {k : Nat}

namespace Visits

lemma le_length (h : g.Visits s us out s' k) : k ≤ out.length := by
  induction h with
  | nil => exact le_rfl
  | skip _ _ ih => exact ih
  | visit _ _ _ _ ih ih' =>
      rw [List.length_cons, List.length_append]
      omega

/-- The search follows a walk to each vertex, and all vertices of it are under way then. -/
lemma exists_walk (h : g.Visits s us out s' k) (hv : v ∈ out) :
    ∃ u ∈ us, ∃ es, g.Walk u es v ∧ es.length < k := by
  induction h with
  | nil => exact absurd hv List.not_mem_nil
  | @skip s s' x k us out _ _ ih =>
      obtain ⟨u, hu, hwalk⟩ := ih hv
      exact ⟨u, List.mem_cons_of_mem x hu, hwalk⟩
  | @visit s s₁ s₂ x j k us below out _ _ _ _ ih ih' =>
      rcases List.mem_cons.1 hv with rfl | hv
      · exact ⟨v, List.mem_cons_self, [], .nil v, by rw [List.length_nil]; omega⟩
      · rcases List.mem_append.1 hv with hv | hv
        · obtain ⟨u, hu, es, hes, hlen⟩ := ih hv
          obtain ⟨e, he, rfl⟩ := List.mem_map.1 hu
          exact ⟨x, List.mem_cons_self, e :: es, .cons he hes, by rw [List.length_cons]; omega⟩
        · obtain ⟨u, hu, es, hes, hlen⟩ := ih' hv
          exact ⟨u, List.mem_cons_of_mem x hu, es, hes, by omega⟩

end Visits

/-- From a vertex the recursive search succeeds with every limit from some depth on, and fails with
every lower one. This depth is greater than the number of entries on the way to the farthest vertex
that can be reached, and no greater than the number of these vertices. -/
theorem exists_recursionDepth (hg : g.WellFormed) (hs : start < g.size) :
    ∃ far depth order, IsGreatest {k | ∃ v, g.IsHopCount start v k} far ∧ 1 + far ≤ depth ∧
      depth ≤ {v | g.Reachable start v}.ncard ∧ g.depthOrder start = .ok order ∧
      ∀ maxDepth, g.recursiveDepthOrder start maxDepth =
        if depth ≤ maxDepth then .ok order else .error (.recursionLimit maxDepth) := by
  obtain ⟨order, s', depth, hvisits, -, hlen, hyields⟩ := exists_visits_start hg hs
  have hmem : ∀ v, v ∈ order ↔ g.Reachable start v := by
    intro v
    rw [hvisits.mem_iff]
    simp [reachableOff_iff_reachable, IndexSet.contains_empty]
  have hreachable : {v | g.Reachable start v} = (order.toFinset : Set Vertex) := by
    ext v
    rw [Finset.mem_coe, List.mem_toFinset, hmem, Set.mem_ofPred_eq]
  have hfar : ∀ k, (∃ v, g.IsHopCount start v k) → k < depth := by
    rintro k ⟨v, hk⟩
    obtain ⟨u, hu, es, hes, hshort⟩ := hvisits.exists_walk ((hmem v).2 hk.reachable)
    obtain rfl := List.mem_singleton.1 hu
    exact (hk.le_length hes).trans_lt hshort
  have hbounded : BddAbove {k | ∃ v, g.IsHopCount start v k} := ⟨depth, fun k hk => (hfar k hk).le⟩
  have hnonempty : {k | ∃ v, g.IsHopCount start v k}.Nonempty :=
    ⟨0, start, isHopCount_self g start⟩
  have hgreatest := Nat.sSup_mem hnonempty hbounded
  refine ⟨_, depth, order, ⟨hgreatest, fun k hk => le_csSup hbounded hk⟩, ?_, ?_,
    depthOrder_eq_of_yields hyields hlen, hvisits.recursiveDepthOrder_eq hs⟩
  · have hlt := hfar _ hgreatest
    omega
  · rw [hreachable, Set.ncard_coe_finset, List.toFinset_card_of_nodup hvisits.nodup]
    exact hvisits.le_length

/-- Every vertex is a neighbour of `0`, or cannot be reached. The search finds `2` from `1` first, so it
goes deeper than one entry, and it leaves both before it visits `3`. -/
theorem exists_recursionDepth_shortcut :
    let entry (v : Vertex) : Entry (Saturating (IntRange.signed 32)) := ⟨v, 0⟩
    let g : Adjacency (Saturating (IntRange.signed 32)) :=
      ⟨#[[entry 1, entry 2, entry 3], [entry 2, entry 1], [entry 0], [entry 2], [entry 0]]⟩
    g.WellFormed ∧ 0 < g.size ∧ g.recursiveDepthOrder 0 2 = .error (.recursionLimit 2) ∧
      g.recursiveDepthOrder 0 3 = .ok [0, 1, 2, 3] ∧
      ∃ far depth order, IsGreatest {k | ∃ v, g.IsHopCount 0 v k} far ∧ 1 + far ≤ depth ∧
        depth ≤ {v | g.Reachable 0 v}.ncard ∧ g.depthOrder 0 = .ok order ∧
        ∀ maxDepth, g.recursiveDepthOrder 0 maxDepth =
          if depth ≤ maxDepth then .ok order else .error (.recursionLimit maxDepth) := by
  intro entry g
  have hg : g.WellFormed := by decide
  have hs : 0 < g.size := by decide
  exact ⟨hg, hs, by cbv, by cbv, exists_recursionDepth hg hs⟩

end Adjacency

end WeightedGraph
