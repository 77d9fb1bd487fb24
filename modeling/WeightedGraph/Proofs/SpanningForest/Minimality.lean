import Mathlib
import WeightedGraph.Proofs.SpanningForest.Greedy
import WeightedGraph.Proofs.Weight.Order

/-!
The spanning forest has the least weight of all.

* `Greedy.length_filter_le`: below every bound on the weight, no forest has more edges of a sorted
  list than those accepted of it. This holds because the light edges are accepted as if they were
  alone, and then span all that light edges connect.
* `sum_le_sum_of_countP_le`: of two lists of the same length the one that has, below every bound, at
  least as many elements has the lesser sum.
* `weightSum`: the weights added as integers, without a bound. The accepted edges weigh no more than
  any other forest that connects the same vertices.
-/

namespace WeightedGraph

open EdgeList

variable {W : Type} {n : Nat}

/-- No forest of edges of a sorted list has more light edges than the accepted ones. -/
theorem Greedy.length_filter_le {es acc other : List (Edge W)} {p : Edge W → Bool}
    (h : Greedy [] es acc) (hs : es.Pairwise fun e f => p f = true → p e = true)
    (hes : Within n es) (hsub : other ⊆ es) (hother : Acyclic other) :
    (other.filter p).length ≤ (acc.filter p).length := by
  have hlight : Greedy [] (es.filter p) (acc.filter p) := h.filter hs
  have hjoined : ∀ u v, Joined (other.filter p) u v → Joined (acc.filter p) u v := fun u v huv =>
    (hlight.joined_accepted_iff u v).2 (huv.mono (List.filter_subset p hsub))
  refine length_le_of_joined (n := n) ?_ ?_ ?_ hlight.acyclic_accepted hjoined
  · exact hes.subset fun e he => hsub (List.mem_of_mem_filter he)
  · exact hes.subset fun e he => h.sublist.subset (List.mem_of_mem_filter he)
  · exact hother.subperm List.filter_sublist.subperm

/-! ### Comparing sums -/

/-- A list with no fewer elements below any bound has the lesser sum. Its least element is no
greater than that of the other list, and the same holds of what remains. -/
theorem sum_le_sum_of_countP_le {xs ys : List Int} (hx : xs.Pairwise (· ≤ ·))
    (hy : ys.Pairwise (· ≤ ·)) (hlen : xs.length = ys.length)
    (h : ∀ w, ys.countP (· ≤ w) ≤ xs.countP (· ≤ w)) : xs.sum ≤ ys.sum := by
  induction xs generalizing ys with
  | nil =>
      rw [List.length_eq_zero_iff.1 hlen.symm]
  | cons x xs ih =>
      cases ys with
      | nil => simp at hlen
      | cons y ys =>
          obtain ⟨hx₁, hx₂⟩ := List.pairwise_cons.1 hx
          obtain ⟨hy₁, hy₂⟩ := List.pairwise_cons.1 hy
          have hxy : x ≤ y := by
            have hpos : 0 < (x :: xs).countP (· ≤ y) :=
              lt_of_lt_of_le (List.countP_pos_iff.2 ⟨y, List.mem_cons_self, by simp⟩) (h y)
            obtain ⟨z, hz, hzy⟩ := List.countP_pos_iff.1 hpos
            have hzy' : z ≤ y := of_decide_eq_true hzy
            rcases List.mem_cons.1 hz with rfl | hz
            · exact hzy'
            · exact (hx₁ z hz).trans hzy'
          have hrest : ∀ w, ys.countP (· ≤ w) ≤ xs.countP (· ≤ w) := by
            intro w
            by_cases hyw : y ≤ w
            · have hw := h w
              rw [List.countP_cons_of_pos (by simpa using hyw),
                List.countP_cons_of_pos (by simpa using hxy.trans hyw)] at hw
              omega
            · -- every element of `ys` is at least `y`, so none is below the bound
              have hzero : ys.countP (· ≤ w) = 0 := by
                refine List.countP_eq_zero.2 fun z hz hzw => hyw ?_
                exact (hy₁ z hz).trans (of_decide_eq_true hzw)
              omega
          have hsum := ih hx₂ hy₂ (by simpa using hlen) hrest
          rw [List.sum_cons, List.sum_cons]
          omega

/-! ### Weights -/

variable {r : IntRange}

/-- The sum of the weights as integers. -/
def weightSum (es : List (Edge (Saturating r))) : Int :=
  (es.map fun e => e.weight.val).sum

/-- The accepted edges weigh no more than any forest of the edges that connects what these
connect. -/
theorem weightSum_accepted_le {sort : List (Edge (Saturating r)) → List (Edge (Saturating r))}
    {es other : List (Edge (Saturating r))} {f : SpanningForest (Saturating r)}
    (hsort : SortsByWeight sort) (h : minimumSpanningForestBy sort n es = .ok f)
    (hsub : other.Subperm es) (hother : Acyclic other)
    (hj : ∀ u v, Joined other u v ↔ Joined es u v) :
    weightSum f.accepted ≤ weightSum other := by
  obtain ⟨-, hes, -, hgreedy⟩ := greedy_of_eq_ok hsort h
  have hperm := hsort.perm es
  have hsorted : Within n (sort es) := hes.subset hperm.subset
  have hsub' : other ⊆ sort es := List.Subset.trans hsub.subset hperm.symm.subset
  have hle : (sort es).Pairwise fun e e' => e.weight.val ≤ e'.weight.val :=
    (hsort.pairwise es).imp Saturating.order_isLE_iff.1
  have hcount : ∀ w : Int, (other.map fun e => e.weight.val).countP (· ≤ w) ≤
      (f.accepted.map fun e => e.weight.val).countP (· ≤ w) := by
    intro w
    rw [List.countP_map, List.countP_map, List.countP_eq_length_filter,
      List.countP_eq_length_filter]
    refine hgreedy.length_filter_le (hle.imp fun hab hb => ?_) hsorted hsub' hother
    exact decide_eq_true (hab.trans (of_decide_eq_true hb))
  have hlen : f.accepted.length = other.length := by
    refine length_eq_of_joined (hsorted.subset hgreedy.sublist.subset) (hes.subset hsub.subset)
      hgreedy.acyclic_accepted hother fun u v => ?_
    rw [hgreedy.joined_accepted_iff, joined_perm hperm, hj]
  have hsort' := (other.map fun e => e.weight.val).mergeSort_perm (· ≤ ·)
  calc weightSum f.accepted
      ≤ ((other.map fun e => e.weight.val).mergeSort (· ≤ ·)).sum := by
        refine sum_le_sum_of_countP_le ?_ ?_ ?_ fun w => ?_
        · exact List.pairwise_map.2 (hle.sublist hgreedy.sublist)
        · exact List.pairwise_mergeSort' (· ≤ ·) _
        · rw [List.length_mergeSort, List.length_map, List.length_map, hlen]
        · rw [hsort'.countP_eq]
          exact hcount w
    _ = weightSum other := hsort'.sum_eq

/-- Of two parallel edges, one of them of negative weight, and a loop: the forest that takes the
other parallel edge weighs more. -/
theorem weightSum_accepted_le_parallel :
    let edge (u v : Vertex) (w : Int) : Edge (Saturating (IntRange.signed 32)) :=
      ⟨u, v, Saturating.clamp _ w⟩
    let es := [edge 0 1 5, edge 1 0 (-2), edge 0 0 1]
    let f : SpanningForest (Saturating (IntRange.signed 32)) := ⟨2, [edge 1 0 (-2)]⟩
    minimumSpanningForest 2 es = .ok f ∧ [edge 0 1 5].Subperm es ∧ Acyclic [edge 0 1 5] ∧
      (∀ u v, Joined [edge 0 1 5] u v ↔ Joined es u v) ∧
      weightSum f.accepted ≤ weightSum [edge 0 1 5] := by
  intro edge es f
  have h : minimumSpanningForest 2 es = .ok f := by cbv
  have hsub : [edge 0 1 5].Subperm es := List.singleton_subperm_iff.2 List.mem_cons_self
  have hacyclic : Acyclic [edge 0 1 5] :=
    acyclic_cons_iff.2 ⟨fun hj => by simpa [edge] using joined_nil.1 hj, acyclic_nil⟩
  have hj : ∀ u v, Joined [edge 0 1 5] u v ↔ Joined es u v := by
    intro u v
    simp only [es, edge, joined_cons_iff, joined_nil]
    grind
  exact ⟨h, hsub, hacyclic, hj,
    weightSum_accepted_le sortsByWeight_sortByWeight h hsub hacyclic hj⟩

end WeightedGraph
