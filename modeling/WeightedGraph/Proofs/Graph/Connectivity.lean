import Mathlib
import WeightedGraph.Graph.Query
import WeightedGraph.Proofs.Graph.Edges
import WeightedGraph.Proofs.Search.Components
import WeightedGraph.Proofs.SpanningForest.Greedy
import WeightedGraph.Weight.Saturating

/-!
Floods, union-find and spanning forests find the same connected components.

* `Adjacency.reachable_iff_joined`: walks reach what the edges connect if every entry has one back.
* `Adjacency.Grouped.componentCount_le`, `Adjacency.Grouped.componentCount_eq`: floods make no fewer
  groups than there are components, and just as many if every entry has one back.
* `UnionFind.unionEdges`: the sets that the endpoints of edges make, united edge by edge.
* `Graph.isSymmetric_filled`: every entry of a filled graph has one back unless a directed edge was
  inserted.
* `Graph.exists_components_sets`: the three of them compared on the same filled graph.
-/

namespace WeightedGraph

open EdgeList

variable {W : Type} {n : Nat} {u v : Vertex} {es fs : List (Edge W)}

/-! ### Floods -/

namespace Adjacency

variable {g : Adjacency W} {groups : List (List Vertex)}

lemma Leads.joined (h : g.Leads u v) : Joined g.edges u v := by
  obtain ⟨f, hf, rfl, rfl⟩ := leads_iff.1 h
  exact joined_of_mem hf

lemma Reachable.joined (h : g.Reachable u v) : Joined g.edges u v := by
  obtain ⟨es, hes⟩ := h
  exact hes.of_closed (p := Joined g.edges u) (joined_refl _ u)
    fun x hx e he => hx.trans (leads_of_mem he).joined

/-- Walks reach what the edges connect, whichever way round, if every entry has one back. -/
theorem reachable_iff_joined (hg : g.IsSymmetric) : g.Reachable u v ↔ Joined g.edges u v := by
  refine ⟨Reachable.joined, Joined.least (r := g.Reachable) ?_ fun f hf => ?_⟩
  · exact ⟨reachable_refl g, hg.reachable_symm, Reachable.trans⟩
  · exact (leads_iff.2 ⟨f, hf, rfl, rfl⟩).reachable

namespace Grouped

variable (h : g.Grouped (IndexSet.empty g.size) (List.range g.size) groups) (hg : g.WellFormed)

include h hg

lemma exists_mem_range (hv : v < g.size) : ∃ c ∈ groups, v ∈ c :=
  (h.exists_mem hg (closed_empty g) (List.mem_range.2 hv)).resolve_left
    (Bool.eq_false_iff.1 (IndexSet.contains_empty g.size v))

/-- All that a flood visits is connected, but it may miss what only leads to it. -/
theorem componentCount_le : EdgeList.componentCount g.size g.edges ≤ groups.length := by
  refine componentCount_le_length (fun v hv => h.exists_mem_range hg hv) fun c hc u hu v hv => ?_
  obtain ⟨_, -, root, -, -, hmem⟩ := h.exists_root hg (closed_empty g) hc
  exact ((hmem u).1 hu).2.joined.symm.trans ((hmem v).1 hv).2.joined

/-- Where every entry has one back two vertices are in one group if the edges connect them. -/
theorem exists_mem_iff_joined (hsymm : g.IsSymmetric) (hu : u < g.size) :
    (∃ c ∈ groups, u ∈ c ∧ v ∈ c) ↔ Joined g.edges u v := by
  rw [← reachable_iff_joined hsymm]
  constructor
  · rintro ⟨c, hc, huc, hvc⟩
    exact (h.mem_iff_reachable hg (closed_empty g) hsymm hc huc).1 hvc
  · intro huv
    obtain ⟨c, hc, huc⟩ := h.exists_mem_range hg hu
    exact ⟨c, hc, huc, (h.mem_iff_reachable hg (closed_empty g) hsymm hc huc).2 huv⟩

/-- Where every entry has one back the groups are the connected components. -/
theorem componentCount_eq (hsymm : g.IsSymmetric) :
    EdgeList.componentCount g.size g.edges = groups.length := by
  refine le_antisymm (h.componentCount_le hg) (length_le_componentCount (fun c hc => ?_) ?_)
  · obtain ⟨_, -, root, hroot, hlt, -⟩ := h.exists_root hg (closed_empty g) hc
    exact ⟨root, hroot, hlt⟩
  · refine (h.pairwise_disjoint hg (closed_empty g)).imp_of_mem
      fun {c d} hc _ hcd u hu v hv huv => ?_
    rw [← reachable_iff_joined hsymm] at huv
    exact hcd ((h.mem_iff_reachable hg (closed_empty g) hsymm hc hu).2 huv) hv

end Grouped

end Adjacency

/-! ### Union-find -/

namespace UnionFind

variable {s : UnionFind}

/-- Unites the endpoints of every edge, one edge after another. -/
def unionEdges (s : UnionFind) (es : List (Edge W)) : Except GraphError UnionFind :=
  es.foldlM (fun s e => return (← s.union e.source e.target).2) s

namespace Represents

/-- Uniting the endpoints of edges adds these edges. -/
theorem exists_unionEdges (h : s.Represents n fs) (hes : Within n es) :
    ∃ t, s.unionEdges es = .ok t ∧ t.Represents n (es ++ fs) := by
  induction es generalizing s fs with
  | nil => exact ⟨s, rfl, h⟩
  | cons e es ih =>
      have he := hes e List.mem_cons_self
      obtain ⟨t, ht, hrep⟩ := ih (h.join he) hes.of_cons
      refine ⟨t, ?_, hrep.congr (joined_perm List.perm_middle)⟩
      rw [unionEdges, List.foldlM_cons,
        union_eq_join (h.size_eq.symm ▸ he.1) (h.size_eq.symm ▸ he.2)]
      exact ht

/-- Two elements are in the same set if the edges connect them. -/
lemma exists_same (h : s.Represents n es) (hu : u < n) (hv : v < n) :
    ∃ b t, s.same u v = .ok (b, t) ∧ (b = true ↔ Joined es u v) := by
  obtain rfl := h.size_eq
  obtain ⟨t, ht, -⟩ := UnionFind.exists_same h.wellFormed hu hv
  exact ⟨_, t, ht, by rw [beq_iff_eq, h.rootOf_eq_iff]⟩

end Represents

end UnionFind

/-! ### Filled graphs -/

section Weighted

variable [Weight W]

/-- Whatever order its edges are taken in, a forest has as many trees as the edges have components.
-/
lemma exists_treeCount_eq {sort : List (Edge W) → List (Edge W)} (hsort : (sort es).Perm es)
    (h : checkEdges n es = .ok ()) :
    ∃ f, minimumSpanningForestBy sort n es = .ok f ∧ f.treeCount = componentCount n es := by
  obtain ⟨acc, hacc, hgreedy⟩ := exists_minimumSpanningForestBy_of_perm hsort h
  refine ⟨⟨n, acc⟩, hacc, ?_⟩
  have hes : Within n acc := (checkEdges_eq_ok h).2.subset
    (hgreedy.sublist.subperm.trans hsort.subperm).subset
  have hsum := length_add_componentCount hes hgreedy.acyclic_accepted
  have hcount : componentCount n acc = componentCount n es := componentCount_congr fun u v =>
    (hgreedy.joined_accepted_iff u v).trans (joined_perm hsort u v)
  have htrees : (⟨n, acc⟩ : SpanningForest W).treeCount = n - acc.length := rfl
  omega

namespace Graph

/-- Every entry has one back if all insertions that succeeded were undirected. -/
lemma isSymmetric_filled {is : List (Insertion W)}
    (h : ∀ i ∈ fitting n is, i.directed = false) :
    (filled n is).adjacency.IsSymmetric := by
  intro u v huv
  obtain ⟨f, hf, rfl, rfl⟩ := Adjacency.leads_iff.1 huv
  obtain ⟨i, hi, hfits, hf⟩ := mem_edges_filled.1 hf
  refine Adjacency.leads_iff.2 ⟨f.flip, mem_edges_filled.2 ⟨i, hi, hfits, ?_⟩, rfl, rfl⟩
  rw [Insertion.edges, if_neg (by simp [h i (mem_fitting.2 ⟨hi, hfits⟩)])] at hf ⊢
  rcases List.mem_pair.1 hf with rfl | rfl
  · exact List.mem_cons_of_mem _ List.mem_cons_self
  · exact List.mem_cons_self

/-- On a filled graph with a vertex the spanning forest is found, in whatever order the edges are
taken, and has as many trees as uniting the endpoints of all listed edges leaves sets. Floods make
no fewer groups; they make as many, and the same ones, if all insertions that succeeded were
undirected. -/
theorem exists_components_sets (hn : 1 ≤ n) (is : List (Insertion W)) :
    ∃ f s groups,
      (filled n is).spanningForest = .ok f ∧
      (UnionFind.singletons n).unionEdges (filled n is).edges = .ok s ∧
      (filled n is).components = .ok groups ∧ (filled n is).componentCount = .ok groups.length ∧
      f.treeCount = s.sets ∧ s.sets ≤ groups.length ∧
      (∀ sort, (∀ es, (sort es).Perm es) →
        ∃ f', (filled n is).spanningForestBy sort = .ok f' ∧ f'.treeCount = s.sets) ∧
      ((∀ i ∈ fitting n is, i.directed = false) → s.sets = groups.length ∧
        ∀ u < n, ∀ v < n, ∃ b t, s.same u v = .ok (b, t) ∧
          (b = true ↔ ∃ c ∈ groups, u ∈ c ∧ v ∈ c)) := by
  have hg := wellFormed_filled n is
  have hsize : (filled n is).adjacency.size = n := size_filled n is
  have hfits : ∀ f ∈ (filled n is).edges, f.Fits n := fun f => fits_of_mem_edges_filled
  have hcheck : checkEdges n (filled n is).edges = .ok () := checkEdges_eq_ok_iff.2 ⟨hn, hfits⟩
  obtain ⟨s, hs, hrep⟩ := (UnionFind.represents_singletons W n).exists_unionEdges
    (checkEdges_eq_ok hcheck).2
  rw [List.append_nil] at hrep
  have hsets : EdgeList.componentCount (filled n is).adjacency.size (filled n is).adjacency.edges =
      s.sets := by
    rw [hsize]
    exact hrep.componentCount_eq
  have hforest : ∀ sort, (∀ es : List (Edge W), (sort es).Perm es) →
      ∃ f, (filled n is).spanningForestBy sort = .ok f ∧ f.treeCount = s.sets := by
    intro sort hsort
    rw [spanningForestBy, size_filled, ← hrep.componentCount_eq]
    exact exists_treeCount_eq (hsort _) hcheck
  obtain ⟨f, hf, htrees⟩ := hforest sortByWeight fun es => List.mergeSort_perm es _
  obtain ⟨groups, hgroups, hcomp, hcount⟩ := Adjacency.exists_components hg
  refine ⟨f, s, groups, hf, hs, hcomp, hcount, htrees, ?_, hforest, fun hundirected => ?_⟩
  · rw [← hsets]
    exact hgroups.componentCount_le hg
  · have hsymm := isSymmetric_filled hundirected
    refine ⟨?_, fun u hu v hv => ?_⟩
    · rw [← hsets]
      exact hgroups.componentCount_eq hg hsymm
    · obtain ⟨b, t, ht, hb⟩ := hrep.exists_same hu hv
      refine ⟨b, t, ht, hb.trans ?_⟩
      exact (hgroups.exists_mem_iff_joined hg hsymm (hsize.symm ▸ hu)).symm

/-- With an entry from `1` to `0` and none back the floods from `0` and `1` make two groups of one
component; without it they make the sets that are united. -/
theorem exists_components_sets_one_way :
    let edge (u v : Vertex) : Edge (Saturating (IntRange.signed 32)) := ⟨u, v, 0⟩
    let is : List (Insertion (Saturating (IntRange.signed 32))) :=
      [⟨edge 1 0, true⟩, ⟨edge 2 3, false⟩, ⟨edge 3 7, false⟩]
    let js : List (Insertion (Saturating (IntRange.signed 32))) :=
      [⟨edge 0 2, false⟩, ⟨edge 2 0, false⟩, ⟨edge 1 1, false⟩, ⟨edge 4 0, true⟩]
    1 ≤ 4 ∧ (filled 4 is).components = .ok [[0], [1], [2, 3]] ∧
      (∃ f f' s, (filled 4 is).spanningForest = .ok f ∧
        (filled 4 is).spanningForestBy List.reverse = .ok f' ∧
        (UnionFind.singletons 4).unionEdges (filled 4 is).edges = .ok s ∧
        f.treeCount = s.sets ∧ f'.treeCount = s.sets ∧ s.sets = 2) ∧
      (∀ j ∈ fitting 4 js, j.directed = false) ∧
      (filled 4 js).components = .ok [[0, 2], [1], [3]] ∧
      ∃ s, (UnionFind.singletons 4).unionEdges (filled 4 js).edges = .ok s ∧ s.sets = 3 ∧
        ∃ t, s.same 0 2 = .ok (true, t) := by
  intro edge is js
  have hone : 1 ≤ 4 := by decide
  have hdirected : (filled 4 is).components = .ok [[0], [1], [2, 3]] := by decide
  have hunited : UnionFind.sets <$> (UnionFind.singletons 4).unionEdges (filled 4 is).edges =
      .ok 2 := by decide
  have hundirected : ∀ j ∈ fitting 4 js, j.directed = false := by decide
  have hboth : (filled 4 js).components = .ok [[0, 2], [1], [3]] := by decide
  obtain ⟨f, s, _, hf, hs, _, _, htrees, _, hsorts, _⟩ := exists_components_sets hone is
  obtain ⟨f', hf', htrees'⟩ := hsorts List.reverse fun es => List.reverse_perm es
  obtain ⟨_, s', groups, _, hs', hgroups, _, _, _, _, hequal⟩ := exists_components_sets hone js
  rw [hs] at hunited
  obtain rfl : groups = [[0, 2], [1], [3]] := Except.ok.inj (hgroups.symm.trans hboth)
  obtain ⟨hsets, hsame⟩ := hequal hundirected
  obtain ⟨b, t, ht, hb⟩ := hsame 0 (by decide) 2 (by decide)
  obtain rfl : b = true := hb.2 ⟨[0, 2], by decide, by decide, by decide⟩
  exact ⟨hone, hdirected, ⟨f, f', s, hf, hf', hs, htrees, htrees', Except.ok.inj hunited⟩,
    hundirected, hboth, s', hs', hsets, t, ht⟩

end Graph

end Weighted

end WeightedGraph
