import Mathlib
import WeightedGraph.Graph.Query
import WeightedGraph.Proofs.Graph.Edges
import WeightedGraph.Proofs.SpanningForest.Greedy
import WeightedGraph.Proofs.Weight.Order

/-!
The weights of a minimum spanning forest are determined by the set of undirected edges.

* `undirectedEdges`: the edges between different vertices, without direction and multiplicity.
* `Greedy.length_filter_eq`: of two sorted lists of the same undirected edges equally many light
  edges are accepted, since the accepted light edges span in both cases what the light edges connect.
* `eq_of_countP_isLE_eq`: an increasing list is determined by how many elements lie below each
  bound. So the accepted weights are the same one by one, although the accepted edges may differ.
* `Graph.spanningForestBy`: the forest of a graph for any sorting function. A graph lists each
  undirected edge in both directions, which changes nothing about the weights.
-/

namespace WeightedGraph

open EdgeList

variable {W : Type} {n : Nat} {es fs acc acc' : List (Edge W)}

/-- An edge without its direction: the endpoints in no order, and the weight. -/
def Edge.undirected (e : Edge W) : Sym2 Vertex × W :=
  (s(e.source, e.target), e.weight)

lemma Edge.undirected_flip (e : Edge W) : e.flip.undirected = e.undirected :=
  Prod.ext Sym2.eq_swap rfl

lemma Edge.isLoop_flip (e : Edge W) : e.flip.isLoop = e.isLoop := by
  rw [Bool.eq_iff_iff, Edge.isLoop, Edge.isLoop, beq_iff_eq, beq_iff_eq]
  exact eq_comm

/-- The edges of a list between different vertices, without direction and multiplicity. -/
def undirectedEdges (es : List (Edge W)) : Set (Sym2 Vertex × W) :=
  {t | ∃ e ∈ es, e.isLoop = false ∧ e.undirected = t}

/-! ### Light edges -/

/-- What the edges of some weights connect depends on the undirected edges only; a loop connects
nothing. -/
lemma joined_filter_of_subset (h : undirectedEdges es ⊆ undirectedEdges fs) (p : W → Bool)
    {u v : Vertex} (hj : Joined (es.filter (p ·.weight)) u v) :
    Joined (fs.filter (p ·.weight)) u v := by
  refine hj.of_forall fun e he => ?_
  obtain ⟨he, hp⟩ := List.mem_filter.1 he
  cases hl : e.isLoop with
  | true =>
      rw [Edge.isLoop, beq_iff_eq] at hl
      exact hl ▸ joined_refl _ _
  | false =>
      obtain ⟨f, hf, -, hfe⟩ := h ⟨e, he, hl, rfl⟩
      obtain ⟨hends, hw⟩ := Prod.ext_iff.1 hfe
      have hmem : f ∈ fs.filter (p ·.weight) :=
        List.mem_filter.2 ⟨hf, (congrArg p hw).trans hp⟩
      rcases Sym2.eq_iff.1 hends with ⟨hs, ht⟩ | ⟨hs, ht⟩
      · exact hs ▸ ht ▸ joined_of_mem hmem
      · exact hs ▸ ht ▸ (joined_of_mem hmem).symm

/-- Of two lists of the same undirected edges equally many light edges are accepted. -/
theorem Greedy.length_filter_eq {p : W → Bool} (h : Greedy [] es acc) (h' : Greedy [] fs acc')
    (hs : es.Pairwise fun e f => p f.weight = true → p e.weight = true)
    (hs' : fs.Pairwise fun e f => p f.weight = true → p e.weight = true)
    (hes : Within n es) (hfs : Within n fs) (hu : undirectedEdges es = undirectedEdges fs) :
    (acc.filter (p ·.weight)).length = (acc'.filter (p ·.weight)).length := by
  have hlight := h.filter (p := (p ·.weight)) hs
  have hlight' := h'.filter (p := (p ·.weight)) hs'
  refine length_eq_of_joined (n := n) ?_ ?_ hlight.acyclic_accepted hlight'.acyclic_accepted
    fun u v => ?_
  · exact hes.subset fun e he => h.sublist.subset (List.mem_of_mem_filter he)
  · exact hfs.subset fun e he => h'.sublist.subset (List.mem_of_mem_filter he)
  · rw [hlight.joined_accepted_iff, hlight'.joined_accepted_iff]
    exact ⟨joined_filter_of_subset hu.subset p, joined_filter_of_subset hu.symm.subset p⟩

lemma undirectedEdges_perm (h : es.Perm fs) : undirectedEdges es = undirectedEdges fs := by
  ext t
  simp only [undirectedEdges, Set.mem_ofPred_eq, h.mem_iff]

/-! ### Increasing lists -/

section Order

variable {α : Type} (cmp : α → α → Ordering) [Std.LawfulEqCmp cmp]

/-- An element that is not above a bound is below it or is the bound. -/
lemma countP_isLE_eq [DecidableEq α] (xs : List α) (b : α) :
    xs.countP (fun a => (cmp a b).isLE) = xs.countP (fun a => (cmp a b).isLT) + xs.count b := by
  induction xs with
  | nil => rfl
  | cons a xs ih =>
      simp only [List.countP_cons, List.count_cons, ih, beq_iff_eq]
      have heq : cmp a b = .eq ↔ a = b := Std.LawfulEqCmp.compare_eq_iff_eq
      cases hab : cmp a b with
      | lt =>
          have hne : a ≠ b := fun e => by simp [heq.2 e] at hab
          simp [hne]
          omega
      | eq => simp [heq.1 hab]; omega
      | gt =>
          have hne : a ≠ b := fun e => by simp [heq.2 e] at hab
          simp [hne]

/-- Increasing lists with equally many elements below every bound are the same. -/
theorem eq_of_countP_isLE_eq [Std.TransCmp cmp] {xs ys : List α}
    (hx : xs.Pairwise fun a b => (cmp a b).isLE)
    (hy : ys.Pairwise fun a b => (cmp a b).isLE)
    (hle : ∀ b, xs.countP (fun a => (cmp a b).isLE) = ys.countP (fun a => (cmp a b).isLE))
    (hlt : ∀ b, xs.countP (fun a => (cmp a b).isLT) = ys.countP (fun a => (cmp a b).isLT)) :
    xs = ys := by
  classical
  have hperm : xs.Perm ys := by
    refine List.perm_iff_count.2 fun b => ?_
    have hxb := countP_isLE_eq cmp xs b
    have hyb := countP_isLE_eq cmp ys b
    have hleb := hle b
    have hltb := hlt b
    omega
  refine hperm.eq_of_pairwise (fun a b _ _ hab hba => ?_) hx hy
  exact Std.LawfulEqCmp.eq_of_compare (Std.OrientedCmp.isLE_antisymm hab hba)

end Order

/-! ### The weights of a forest -/

section Forest

/-- The weights of the edges in the order in which they were accepted. -/
def SpanningForest.weights (f : SpanningForest W) : List W :=
  f.accepted.map Edge.weight

lemma SpanningForest.edgeCount_eq_length_weights (f : SpanningForest W) :
    f.edgeCount = f.weights.length :=
  (List.length_map _).symm

variable [Weight W] {f f' : SpanningForest W}

lemma SpanningForest.total_eq_foldl_weights (f : SpanningForest W) :
    f.total = f.weights.foldl (· + ·) 0 :=
  List.foldl_map.symm

/-- The accepted edges of two forests have the same weights one by one, hence the same number and the
same total. -/
structure SpanningForest.SameWeights (f f' : SpanningForest W) : Prop where
  weights_eq : f.weights = f'.weights
  edgeCount_eq : f.edgeCount = f'.edgeCount
  total_eq : f.total = f'.total

lemma SpanningForest.sameWeights_of_weights_eq (h : f.weights = f'.weights) :
    f.SameWeights f' where
  weights_eq := h
  edgeCount_eq := by rw [edgeCount_eq_length_weights, edgeCount_eq_length_weights, h]
  total_eq := by rw [total_eq_foldl_weights, total_eq_foldl_weights, h]

/-! ### The edges of a graph -/

/-- A graph lists the undirected edges that were inserted, some of them twice. -/
lemma undirectedEdges_filled (n : Nat) (is : List (Insertion W)) :
    undirectedEdges (Graph.filled n is).edges = undirectedEdges (insertedEdges n is) := by
  ext t
  constructor
  · rintro ⟨f, hf, hl, rfl⟩
    obtain ⟨i, hi, hfits, hfi⟩ := Graph.mem_edges_filled.1 hf
    have hmem : i.edge ∈ insertedEdges n is := mem_insertedEdges.2 ⟨hfits, i, hi, rfl⟩
    rcases Insertion.eq_or_eq_flip_of_mem_edges hfi with rfl | rfl
    · exact ⟨i.edge, hmem, hl, rfl⟩
    · exact ⟨i.edge, hmem, i.edge.isLoop_flip ▸ hl, i.edge.undirected_flip.symm⟩
  · rintro ⟨f, hf, hl, rfl⟩
    obtain ⟨hfits, i, hi, rfl⟩ := mem_insertedEdges.1 hf
    exact ⟨i.edge, Graph.mem_edges_filled.2 ⟨i, hi, hfits, i.edge_mem_edges⟩, hl, rfl⟩

lemma Graph.spanningForestBy_sortByWeight (g : Graph W) :
    g.spanningForestBy sortByWeight = g.spanningForest :=
  rfl

/-! ### Two runs -/

variable [Std.TransCmp (Weight.order (W := W))] [Std.LawfulEqCmp (Weight.order (W := W))]
  {sort sort' : List (Edge W) → List (Edge W)}

/-- The accepted weights depend on the undirected edges only. -/
theorem weights_eq_of_undirectedEdges (hsort : SortsByWeight sort) (hsort' : SortsByWeight sort')
    (h : minimumSpanningForestBy sort n es = .ok f)
    (h' : minimumSpanningForestBy sort' n fs = .ok f')
    (hu : undirectedEdges es = undirectedEdges fs) : f.weights = f'.weights := by
  obtain ⟨-, hes, -, hgreedy⟩ := greedy_of_eq_ok hsort h
  obtain ⟨-, hfs, -, hgreedy'⟩ := greedy_of_eq_ok hsort' h'
  have hperm := hsort.perm es
  have hperm' := hsort'.perm fs
  have hsame : undirectedEdges (sort es) = undirectedEdges (sort' fs) := by
    rw [undirectedEdges_perm hperm, undirectedEdges_perm hperm', hu]
  -- the weights below a bound, strictly or not, stand at the front of a sorted list
  have hcount : ∀ p : W → Bool, (∀ a b, (Weight.order a b).isLE → p b = true → p a = true) →
      f.weights.countP p = f'.weights.countP p := by
    intro p hp
    have hlen := hgreedy.length_filter_eq hgreedy' ((hsort.pairwise es).imp fun hab => hp _ _ hab)
      ((hsort'.pairwise fs).imp fun hab => hp _ _ hab) (hes.subset hperm.subset)
      (hfs.subset hperm'.subset) hsame
    rw [SpanningForest.weights, SpanningForest.weights, List.countP_map, List.countP_map,
      List.countP_eq_length_filter, List.countP_eq_length_filter]
    exact hlen
  refine eq_of_countP_isLE_eq Weight.order ?_ ?_ (fun b => ?_) (fun b => ?_)
  · exact List.pairwise_map.2 ((hsort.pairwise es).sublist hgreedy.sublist)
  · exact List.pairwise_map.2 ((hsort'.pairwise fs).sublist hgreedy'.sublist)
  · exact hcount _ fun _ _ hab hb => Std.TransCmp.isLE_trans hab hb
  · refine hcount _ fun _ _ hab hb => ?_
    rw [Ordering.isLT_iff_eq_lt] at hb ⊢
    exact Std.TransCmp.lt_of_isLE_of_lt hab hb

/-- Forests of the same undirected edges have the same weights, whatever the order, the direction
and the number of the edges, and whichever of several equal ones is taken first. So the forest of a
graph has the weights of the forest of the edges that were inserted. -/
theorem sameWeights_of_undirectedEdges_eq (hsort : SortsByWeight sort)
    (hsort' : SortsByWeight sort') :
    (∀ n es fs (f f' : SpanningForest W), minimumSpanningForestBy sort n es = .ok f →
        minimumSpanningForestBy sort' n fs = .ok f' →
        undirectedEdges es = undirectedEdges fs → f.SameWeights f') ∧
      ∀ n (is : List (Insertion W)),
        (n = 0 → (Graph.filled n is).spanningForestBy sort = .error .emptyGraph ∧
          minimumSpanningForestBy sort' n (insertedEdges n is) = .error .emptyGraph) ∧
        (1 ≤ n → ∃ f f', (Graph.filled n is).spanningForestBy sort = .ok f ∧
          minimumSpanningForestBy sort' n (insertedEdges n is) = .ok f' ∧ f.SameWeights f') := by
  refine ⟨fun n es fs f f' h h' hu => ?_, fun n is => ⟨?_, fun hn => ?_⟩⟩
  · exact SpanningForest.sameWeights_of_weights_eq
      (weights_eq_of_undirectedEdges hsort hsort' h h' hu)
  · rintro rfl
    rw [Graph.spanningForestBy, Graph.size_filled]
    exact ⟨rfl, rfl⟩
  · have hcheck : checkEdges n (Graph.filled n is).edges = .ok () :=
      checkEdges_eq_ok_iff.2 ⟨hn, fun f hf => Graph.fits_of_mem_edges_filled hf⟩
    have hcheck' : checkEdges n (insertedEdges n is) = .ok () :=
      checkEdges_eq_ok_iff.2 ⟨hn, fun f hf => (mem_insertedEdges.1 hf).1⟩
    obtain ⟨acc, hacc, -⟩ := exists_minimumSpanningForestBy hsort hcheck
    obtain ⟨acc', hacc', -⟩ := exists_minimumSpanningForestBy hsort' hcheck'
    refine ⟨⟨n, acc⟩, ⟨n, acc'⟩, ?_, hacc', ?_⟩
    · rw [Graph.spanningForestBy, Graph.size_filled]
      exact hacc
    · exact SpanningForest.sameWeights_of_weights_eq
        (weights_eq_of_undirectedEdges hsort hsort' hacc hacc' (undirectedEdges_filled n is))

/-- A triangle of equal weights with a loop, and the same edges turned round, in another order and
one of them twice: other edges are accepted, with the same weights. A graph with these edges, the
last of them directed, has the same weights again. -/
theorem sameWeights_of_undirectedEdges_eq_triangle :
    let edge (u v : Vertex) : Edge (Saturating (IntRange.signed 32)) :=
      ⟨u, v, Saturating.clamp _ 5⟩
    let es := [edge 0 1, edge 1 2, edge 2 0, edge 1 1]
    let fs := [edge 0 2, edge 2 1, edge 1 0, edge 0 2]
    let is : List (Insertion (Saturating (IntRange.signed 32))) :=
      [⟨edge 0 1, false⟩, ⟨edge 3 0, false⟩, ⟨edge 1 2, false⟩, ⟨edge 2 0, true⟩]
    let f : SpanningForest (Saturating (IntRange.signed 32)) := ⟨3, [edge 0 1, edge 1 2]⟩
    let f' : SpanningForest (Saturating (IntRange.signed 32)) := ⟨3, [edge 0 2, edge 2 1]⟩
    minimumSpanningForest 3 es = .ok f ∧ minimumSpanningForest 3 fs = .ok f' ∧
      undirectedEdges es = undirectedEdges fs ∧ f.SameWeights f' ∧
      ∃ g g', (Graph.filled 3 is).spanningForest = .ok g ∧
        minimumSpanningForest 3 (insertedEdges 3 is) = .ok g' ∧ g.SameWeights g' := by
  intro edge es fs is f f'
  have h : minimumSpanningForest 3 es = .ok f := by cbv
  have h' : minimumSpanningForest 3 fs = .ok f' := by cbv
  have hu : undirectedEdges es = undirectedEdges fs := by
    ext t
    simp only [undirectedEdges, Edge.undirected, Edge.isLoop, Set.mem_ofPred_eq, es, fs, edge]
    simp
    grind [Sym2.eq_swap]
  have hboth := sameWeights_of_undirectedEdges_eq
    (sortsByWeight_sortByWeight (W := Saturating (IntRange.signed 32))) sortsByWeight_sortByWeight
  obtain ⟨g, g', hg, hg', hgg⟩ := (hboth.2 3 is).2 (by decide)
  rw [Graph.spanningForestBy_sortByWeight] at hg
  exact ⟨h, h', hu, hboth.1 3 es fs f f' h h' hu, g, g', hg, hg', hgg⟩

end Forest

end WeightedGraph
