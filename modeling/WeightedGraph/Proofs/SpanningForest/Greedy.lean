import Mathlib
import WeightedGraph.Proofs.EdgeList.Check
import WeightedGraph.SpanningForest

/-!
Which edges of a list are accepted, said without the union-find forest.

* `Greedy`: of the edges of a list in turn, those are accepted whose endpoints are not connected by
  what was accepted before.
* `acceptEdges_greedy`: the edges that the algorithm accepts are these. Once it stops early
  everything is connected, so that no edge would be accepted any more.
* `Greedy.joined_iff`, `Greedy.acyclic`: the accepted edges connect what the list connects, and
  close no cycle.
* `Greedy.filter`: in a sorted list the light edges are accepted as if they were alone.
* `SortsByWeight`: what the algorithm needs of a sorting function. Edges of equal weight may come in
  any order; `sortsByWeight_sortByWeight` is the stable case.
-/

namespace WeightedGraph

open EdgeList

variable {W : Type} {e : Edge W} {es acc prior : List (Edge W)} {n : Nat}

/-- `Greedy prior es acc` says that of the edges `es` in turn just those of `acc` connect what was
not connected, by the edges `prior` and by those accepted before. -/
inductive Greedy : List (Edge W) → List (Edge W) → List (Edge W) → Prop
  | nil (prior : List (Edge W)) : Greedy prior [] []
  | take {prior es acc : List (Edge W)} {e : Edge W} : ¬ Joined prior e.source e.target →
      Greedy (e :: prior) es acc → Greedy prior (e :: es) (e :: acc)
  | skip {prior es acc : List (Edge W)} {e : Edge W} : Joined prior e.source e.target →
      Greedy prior es acc → Greedy prior (e :: es) acc

namespace Greedy

lemma of_joined (h : ∀ e ∈ es, Joined prior e.source e.target) : Greedy prior es [] := by
  induction es with
  | nil => exact .nil prior
  | cons e es ih =>
      exact .skip (h e List.mem_cons_self) (ih fun f hf => h f (List.mem_cons_of_mem e hf))

lemma sublist (h : Greedy prior es acc) : acc.Sublist es := by
  induction h with
  | nil => exact .slnil
  | take _ _ ih => exact ih.cons_cons _
  | skip _ _ ih => exact ih.cons _

/-- The accepted edges connect what the whole list connects. -/
theorem joined_iff (h : Greedy prior es acc) (u v : Vertex) :
    Joined (acc ++ prior) u v ↔ Joined (es ++ prior) u v := by
  refine ⟨Joined.mono (h.sublist.append_right prior).subset, ?_⟩
  refine Joined.of_forall fun f hf => ?_
  induction h with
  | nil => exact joined_of_mem hf
  | @take prior es acc e _ _ ih =>
      have hperm : (acc ++ e :: prior).Perm (e :: acc ++ prior) := List.perm_middle
      exact (ih (List.perm_middle.symm.subset hf)).mono hperm.subset
  | @skip prior es acc e he _ ih =>
      rcases List.mem_cons.1 hf with rfl | hf
      · exact he.mono (List.subset_append_right acc prior)
      · exact ih hf

/-- Accepted edges close no cycle. -/
theorem acyclic (h : Greedy prior es acc) (hp : Acyclic prior) : Acyclic (acc ++ prior) := by
  induction h with
  | nil => exact hp
  | take he _ ih =>
      exact (ih (acyclic_cons_iff.2 ⟨he, hp⟩)).subperm List.perm_middle.symm.subperm
  | skip _ _ ih => exact ih hp

lemma joined_accepted_iff (h : Greedy [] es acc) (u v : Vertex) :
    Joined acc u v ↔ Joined es u v := by
  simpa using h.joined_iff u v

lemma acyclic_accepted (h : Greedy [] es acc) : Acyclic acc := by
  simpa using h.acyclic acyclic_nil

/-- What is accepted of the front part of a list does not depend on the rest of it. -/
lemma filter {p : Edge W → Bool} (h : Greedy prior es acc)
    (hs : es.Pairwise fun e f => p f = true → p e = true) :
    Greedy prior (es.filter p) (acc.filter p) := by
  induction h with
  | nil => exact .nil _
  | @take prior es acc e he hrest ih =>
      obtain ⟨hhead, htail⟩ := List.pairwise_cons.1 hs
      by_cases hpe : p e = true
      · rw [List.filter_cons_of_pos hpe, List.filter_cons_of_pos hpe]
        exact .take he (ih htail)
      · -- no later edge passes the test either
        have hes : (e :: es).filter p = [] := by
          refine List.filter_eq_nil_iff.2 fun f hf => ?_
          rcases List.mem_cons.1 hf with rfl | hf
          · exact hpe
          · exact fun hpf => hpe (hhead f hf hpf)
        have hacc : (e :: acc).filter p = [] :=
          List.sublist_nil.1 (hes ▸ (hrest.sublist.cons_cons e).filter p)
        rw [hes, hacc]
        exact .nil prior
  | @skip prior es acc e he hrest ih =>
      obtain ⟨hhead, htail⟩ := List.pairwise_cons.1 hs
      by_cases hpe : p e = true
      · rw [List.filter_cons_of_pos hpe]
        exact .skip he (ih htail)
      · rw [List.filter_cons_of_neg hpe]
        exact ih htail

end Greedy

/-! ### The algorithm -/

lemma acceptEdges_cons {s : UnionFind} {r : Bool × UnionFind} {missing : Nat}
    (h : s.union e.source e.target = .ok r) :
    acceptEdges s (missing + 1) (e :: es) =
      if r.1 then (e :: ·) <$> acceptEdges r.2 missing es
      else acceptEdges r.2 (missing + 1) es := by
  simp only [acceptEdges, h]
  rfl

/-- The edges that the algorithm accepts. The induction carries that one set more is left than edges
are missing: where none is missing all vertices are connected, and the rest would be passed over. -/
theorem acceptEdges_greedy {s : UnionFind} {missing : Nat} (hs : s.Represents n prior)
    (hsets : s.sets = missing + 1) (hes : Within n es) :
    ∃ acc, acceptEdges s missing es = .ok acc ∧ Greedy prior es acc := by
  induction es generalizing s missing prior with
  | nil =>
      refine ⟨[], ?_, .nil prior⟩
      cases missing <;> rfl
  | cons e es ih =>
      cases missing with
      | zero =>
          refine ⟨[], rfl, .of_joined fun f hf => ?_⟩
          exact hs.joined_of_sets_eq_one hsets (hes f hf).1 (hes f hf).2
      | succ missing =>
          obtain ⟨hsrc, htgt⟩ := hes e List.mem_cons_self
          have hsrc' : e.source < s.size := hs.size_eq ▸ hsrc
          have htgt' : e.target < s.size := hs.size_eq ▸ htgt
          have hjoin := UnionFind.join_spec hs.wellFormed hsrc' htgt'
          have hcount := hjoin.sets_eq
          have hnext := hs.join ⟨hsrc, htgt⟩
          rw [acceptEdges_cons (UnionFind.union_eq_join hsrc' htgt')]
          cases hb : (s.join e.source e.target).1 with
          | true =>
              have he : ¬ Joined prior e.source e.target := fun hj =>
                hjoin.joined_iff.1 hb ((hs.rootOf_eq_iff _ _).2 hj)
              rw [hb, Bool.toNat_true, hsets] at hcount
              obtain ⟨acc, hacc, hgreedy⟩ := ih hnext (Nat.succ.inj hcount) hes.of_cons
              exact ⟨e :: acc, by rw [if_pos rfl, hacc]; rfl, .take he hgreedy⟩
          | false =>
              have he : Joined prior e.source e.target :=
                (hs.rootOf_eq_iff _ _).1 (hb ▸ hjoin).rootOf_eq
              rw [hb, Bool.toNat_false, hsets] at hcount
              have hsame := (UnionFind.Represents.cons_iff he).1 hnext
              obtain ⟨acc, hacc, hgreedy⟩ := ih hsame hcount hes.of_cons
              exact ⟨acc, by rw [if_neg Bool.false_ne_true, hacc], .skip he hgreedy⟩

variable [Weight W]

/-- The function rearranges the edges of a list so that their weights do not decrease. -/
structure SortsByWeight (sort : List (Edge W) → List (Edge W)) : Prop where
  perm : ∀ es, (sort es).Perm es
  pairwise : ∀ es, (sort es).Pairwise fun e f => (Weight.order e.weight f.weight).isLE

lemma sortsByWeight_sortByWeight [Std.TransCmp (Weight.order (W := W))] :
    SortsByWeight (sortByWeight (W := W)) where
  perm es := List.mergeSort_perm es _
  pairwise es := by
    refine List.pairwise_mergeSort (fun e f g h h' => ?_) (fun e f => ?_) es
    · exact Std.TransCmp.isLE_trans h h'
    · rw [Bool.or_eq_true, or_iff_not_imp_left]
      intro h
      rw [Std.OrientedCmp.lt_of_not_isLE h]
      rfl

/-! ### The whole algorithm -/

/-- The result where the edges pass the check: what is accepted of the rearranged list. -/
theorem exists_minimumSpanningForestBy_of_perm {sort : List (Edge W) → List (Edge W)}
    (hsort : (sort es).Perm es) (h : checkEdges n es = .ok ()) :
    ∃ acc, minimumSpanningForestBy sort n es = .ok ⟨n, acc⟩ ∧ Greedy [] (sort es) acc := by
  obtain ⟨hn, hes⟩ := checkEdges_eq_ok h
  have hsets : (UnionFind.singletons n).sets = n - 1 + 1 := (Nat.sub_add_cancel hn).symm
  obtain ⟨acc, hacc, hgreedy⟩ := acceptEdges_greedy (UnionFind.represents_singletons W n) hsets
    (hes.subset hsort.subset)
  refine ⟨acc, ?_, hgreedy⟩
  simp only [minimumSpanningForestBy, h, hacc]
  rfl

/-- The result where the edges pass the check: what is accepted of the sorted list. -/
theorem exists_minimumSpanningForestBy {sort : List (Edge W) → List (Edge W)}
    (hsort : SortsByWeight sort) (h : checkEdges n es = .ok ()) :
    ∃ acc, minimumSpanningForestBy sort n es = .ok ⟨n, acc⟩ ∧ Greedy [] (sort es) acc :=
  exists_minimumSpanningForestBy_of_perm (hsort.perm es) h

/-- What a result says: there is a vertex, the edges are edges between vertices, and the forest is
what is accepted of the sorted list. -/
theorem greedy_of_eq_ok {sort : List (Edge W) → List (Edge W)} {f : SpanningForest W}
    (hsort : SortsByWeight sort) (h : minimumSpanningForestBy sort n es = .ok f) :
    1 ≤ n ∧ Within n es ∧ f.vertexCount = n ∧ Greedy [] (sort es) f.accepted := by
  cases hc : checkEdges n es with
  | error _ =>
      simp only [minimumSpanningForestBy, hc] at h
      cases h
  | ok _ =>
      obtain ⟨hn, hes⟩ := checkEdges_eq_ok hc
      obtain ⟨acc, hacc, hgreedy⟩ := exists_minimumSpanningForestBy hsort hc
      obtain rfl : ⟨n, acc⟩ = f := Except.ok.inj (hacc.symm.trans h)
      exact ⟨hn, hes, rfl, hgreedy⟩

end WeightedGraph
