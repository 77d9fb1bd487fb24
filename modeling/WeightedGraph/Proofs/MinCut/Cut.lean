import Mathlib
import WeightedGraph.MinCut
import WeightedGraph.Proofs.EdgeList.Components

/-!
Cuts of a list of edges, and the sets of a union-find forest as sides of a cut.

* `cutSize`: the number of edges between a set of vertices and the rest; `cutSizes` are those of all
  the sets that are neither empty nor everything. Some cut has no edge across it just when something is
  not connected: `exists_not_joined_of_cutSize_eq_zero`, `exists_side_of_not_joined`.
* `UnionFind.Respects`: no set of the forest lies on both sides of a cut. Then every edge across the
  cut is one between different sets, and where only two sets are left there are no others.
* `UnionFind.sets_mul_le_two_mul_crossing`: each set of a forest is a side of a cut, and an edge
  between two sets crosses two of these cuts. So with `k` edges across every cut, there are at least
  half of `k` times as many edges between the sets as there are sets.
-/

namespace WeightedGraph

open EdgeList

variable {W : Type} {n k : Nat} {e : Edge W} {es : List (Edge W)} {S : Finset Vertex}
  {s t : UnionFind}

/-! ### Cuts -/

/-- Whether one endpoint of an edge lies in a set of vertices and the other one outside. -/
def Edge.leaves (S : Finset Vertex) (e : Edge W) : Bool :=
  decide (e.source ∈ S) != decide (e.target ∈ S)

lemma Edge.leaves_iff : e.leaves S = true ↔ ¬ (e.source ∈ S ↔ e.target ∈ S) := by
  rw [leaves, bne_iff_ne, ne_eq, decide_eq_decide]

/-- The number of edges between a set of vertices and the rest. -/
def cutSize (S : Finset Vertex) (es : List (Edge W)) : Nat :=
  es.countP (Edge.leaves S)

/-- The numbers of edges across the cuts of the vertices below `n`: between a nonempty proper part of
these vertices and the rest. -/
def cutSizes (n : Nat) (es : List (Edge W)) : Set Nat :=
  {k | ∃ S : Finset Vertex, S.Nonempty ∧ S ⊂ Finset.range n ∧ cutSize S es = k}

lemma two_le_of_ssubset_range (hne : S.Nonempty) (hS : S ⊂ Finset.range n) : 2 ≤ n := by
  have hcard := Finset.card_lt_card hS
  have hpos := Finset.card_pos.2 hne
  rw [Finset.card_range] at hcard
  omega

/-- From two vertices on there is a least cut. -/
lemma exists_isLeast_cutSizes (hn : 2 ≤ n) (es : List (Edge W)) :
    ∃ k, IsLeast (cutSizes n es) k := by
  have hside : ({0} : Finset Vertex) ⊂ Finset.range n := by
    refine (Finset.ssubset_iff_of_subset ?_).2 ⟨1, Finset.mem_range.2 hn, by simp⟩
    exact Finset.singleton_subset_iff.2 (Finset.mem_range.2 (by omega))
  have hne : (cutSizes n es).Nonempty := ⟨_, {0}, Finset.singleton_nonempty 0, hside, rfl⟩
  exact ⟨sInf (cutSizes n es), Nat.sInf_mem hne, fun _ hk => Nat.sInf_le hk⟩

/-- A cut without edges across it leaves something unconnected. -/
lemma exists_not_joined_of_cutSize_eq_zero (hne : S.Nonempty) (hS : S ⊂ Finset.range n)
    (h : cutSize S es = 0) : ∃ u < n, ∃ v < n, ¬ Joined es u v := by
  obtain ⟨u, hu⟩ := hne
  obtain ⟨v, hv, hvS⟩ := Finset.exists_of_ssubset hS
  refine ⟨u, Finset.mem_range.1 (hS.subset hu), v, Finset.mem_range.1 hv, fun hj => hvS ?_⟩
  refine (hj.least (r := fun a b => a ∈ S ↔ b ∈ S) ⟨fun _ => Iff.rfl, Iff.symm, Iff.trans⟩ ?_).1 hu
  intro e he
  have hleaves := List.countP_eq_zero.1 h e he
  rwa [Edge.leaves_iff, not_not] at hleaves

/-- The vertices connected with `u` are a side of a cut if something else is not. -/
lemma exists_side_of_not_joined {u v : Vertex} (hu : u < n) (hv : v < n) (huv : ¬ Joined es u v) :
    ∃ S : Finset Vertex, S.Nonempty ∧ S ⊂ Finset.range n ∧
      ∀ a < n, ∀ b < n, Joined es a b → (a ∈ S ↔ b ∈ S) := by
  classical
  let S := (Finset.range n).filter (Joined es u)
  have hmem : ∀ w, w ∈ S ↔ w < n ∧ Joined es u w := fun w => by
    rw [Finset.mem_filter, Finset.mem_range]
  refine ⟨S, ⟨u, (hmem u).2 ⟨hu, joined_refl es u⟩⟩, ?_, ?_⟩
  · refine (Finset.ssubset_iff_of_subset (Finset.filter_subset _ _)).2
      ⟨v, Finset.mem_range.2 hv, fun hvS => huv ((hmem v).1 hvS).2⟩
  · intro a ha b hb hab
    rw [hmem, hmem]
    exact ⟨fun haS => ⟨hb, haS.2.trans hab⟩, fun hbS => ⟨ha, hbS.2.trans hab.symm⟩⟩

/-! ### The sets of a forest -/

/-- Whether an edge joins different sets of a forest. -/
def Edge.crosses (s : UnionFind) (e : Edge W) : Bool :=
  s.rootOf e.source != s.rootOf e.target

lemma Edge.crosses_iff : e.crosses s = true ↔ s.rootOf e.source ≠ s.rootOf e.target := by
  rw [crosses, bne_iff_ne]

lemma crossing_eq_countP (s : UnionFind) (es : List (Edge W)) :
    crossing s es = es.countP (Edge.crosses s) :=
  rfl

namespace UnionFind

/-- Vertices of the same set are on the same side of the cut. -/
def Respects (s : UnionFind) (n : Nat) (S : Finset Vertex) : Prop :=
  ∀ u < n, ∀ v < n, s.rootOf u = s.rootOf v → (u ∈ S ↔ v ∈ S)

/-- Two sets on the same side may be merged. -/
lemma Respects.merges {x y : Vertex} (h : s.Respects n S) (hx : x < n) (hy : y < n)
    (hxy : x ∈ S ↔ y ∈ S) (hm : s.Merges x y t) : t.Respects n S := by
  intro u hu v hv huv
  rcases (hm u v).1 huv with huv | ⟨hux, hyv⟩ | ⟨huy, hxv⟩
  · exact h u hu v hv huv
  · exact ((h u hu x hx hux).trans hxy).trans (h y hy v hv hyv)
  · exact ((h u hu y hy huy).trans hxy.symm).trans (h x hx v hv hxv)

lemma Respects.crosses_of_leaves (h : s.Respects n S) (he : e.source < n ∧ e.target < n)
    (hl : e.leaves S = true) : e.crosses s = true :=
  Edge.crosses_iff.2 fun hroot => Edge.leaves_iff.1 hl (h _ he.1 _ he.2 hroot)

/-- Where two sets are left they are the sides of the cut. -/
lemma Respects.leaves_of_crosses (h : s.Respects n S) (hs : s.WellFormed) (hsize : s.size = n)
    (hsets : s.sets = 2) (hne : S.Nonempty) (hS : S ⊂ Finset.range n)
    (he : e.source < n ∧ e.target < n) (hc : e.crosses s = true) : e.leaves S = true := by
  obtain ⟨a, ha⟩ := hne
  obtain ⟨b, hb, hbS⟩ := Finset.exists_of_ssubset hS
  have han : a < n := Finset.mem_range.1 (hS.subset ha)
  have hbn : b < n := Finset.mem_range.1 hb
  have hmem : ∀ v < n, s.rootOf v ∈ s.roots := fun v hv => hs.rootOf_mem_roots (hsize.symm ▸ hv)
  have hab : s.rootOf a ≠ s.rootOf b := fun hroot => hbS ((h a han b hbn hroot).1 ha)
  have hroots : {s.rootOf a, s.rootOf b} = s.roots := by
    refine Finset.eq_of_subset_of_card_le ?_ ?_
    · simp [Finset.insert_subset_iff, hmem a han, hmem b hbn]
    · rw [Finset.card_pair hab, ← hs.sets_eq, hsets]
  have hone : ∀ v < n, s.rootOf v = s.rootOf a ∨ s.rootOf v = s.rootOf b := by
    intro v hv
    have hv' := hmem v hv
    rwa [← hroots, Finset.mem_insert, Finset.mem_singleton] at hv'
  rw [Edge.crosses_iff] at hc
  rw [Edge.leaves_iff]
  rcases hone _ he.1 with hsrc | hsrc <;> rcases hone _ he.2 with htgt | htgt
  · exact absurd (hsrc.trans htgt.symm) hc
  · have hs' := (h _ he.1 a han hsrc).2 ha
    exact fun hst => hbS ((h _ he.2 b hbn htgt).1 (hst.1 hs'))
  · have ht' := (h _ he.2 a han htgt).2 ha
    exact fun hst => hbS ((h _ he.1 b hbn hsrc).1 (hst.2 ht'))
  · exact absurd (hsrc.trans htgt.symm) hc

/-! ### The sets as sides -/

/-- The elements of the set of a root. -/
def side (s : UnionFind) (r : Nat) : Finset Vertex :=
  (Finset.range s.size).filter fun v => s.rootOf v = r

lemma mem_side {r v : Nat} : v ∈ s.side r ↔ v < s.size ∧ s.rootOf v = r := by
  rw [side, Finset.mem_filter, Finset.mem_range]

lemma respects_side (s : UnionFind) (r : Nat) : s.Respects s.size (s.side r) := by
  intro u hu v hv huv
  rw [mem_side, mem_side, huv]
  exact and_congr_left fun _ => iff_of_true hu hv

lemma side_nonempty (hs : s.WellFormed) {r : Nat} (hr : r ∈ s.roots) : (s.side r).Nonempty := by
  obtain ⟨hlt, hroot⟩ := mem_roots.1 hr
  exact ⟨r, mem_side.2 ⟨hlt, rootOf_of_isRoot hs hroot⟩⟩

/-- One of several sets is not everything. -/
lemma side_ssubset (hs : s.WellFormed) (h2 : 2 ≤ s.sets) (r : Nat) :
    s.side r ⊂ Finset.range s.size := by
  obtain ⟨r', hr', hne⟩ := Finset.exists_mem_ne (hs.sets_eq ▸ h2) r
  obtain ⟨hlt, hroot⟩ := mem_roots.1 hr'
  refine (Finset.ssubset_iff_of_subset (Finset.filter_subset _ _)).2
    ⟨r', Finset.mem_range.2 hlt, fun hmem => hne ?_⟩
  exact (rootOf_of_isRoot hs hroot).symm.trans (mem_side.1 hmem).2

/-- An edge between two sets leaves these two, and any other edge leaves none. -/
lemma card_filter_leaves_side (hs : s.WellFormed) (he : e.source < s.size ∧ e.target < s.size) :
    (s.roots.filter fun r => e.leaves (s.side r) = true).card =
      if e.crosses s = true then 2 else 0 := by
  have hleaves : ∀ r, e.leaves (s.side r) = true ↔
      ¬ (s.rootOf e.source = r ↔ s.rootOf e.target = r) := by
    intro r
    simp only [Edge.leaves_iff, mem_side, he.1, he.2, true_and]
  simp only [hleaves, Edge.crosses_iff]
  by_cases hc : s.rootOf e.source = s.rootOf e.target
  · simp [hc]
  · have hfilter : (s.roots.filter fun r =>
        ¬ (s.rootOf e.source = r ↔ s.rootOf e.target = r)) =
          {s.rootOf e.source, s.rootOf e.target} := by
      ext r
      rw [Finset.mem_filter, Finset.mem_insert, Finset.mem_singleton]
      constructor
      · rintro ⟨-, hr⟩
        grind
      · rintro (rfl | rfl)
        · exact ⟨hs.rootOf_mem_roots he.1, by simp [Ne.symm hc]⟩
        · exact ⟨hs.rootOf_mem_roots he.2, by simp [hc]⟩
    rw [hfilter, Finset.card_pair hc, if_pos hc]

/-- Over all sets, the edges that leave them are twice the edges between them. -/
lemma sum_cutSize_side (hs : s.WellFormed) (hes : Within s.size es) :
    ∑ r ∈ s.roots, cutSize (s.side r) es = 2 * crossing s es := by
  induction es with
  | nil => simp [cutSize, crossing]
  | cons e es ih =>
      have he := card_filter_leaves_side hs (hes e List.mem_cons_self)
      rw [Finset.card_filter] at he
      simp only [cutSize, crossing_eq_countP, List.countP_cons, Finset.sum_add_distrib, he] at ih ⊢
      rw [ih hes.of_cons]
      split <;> omega

/-- Where every cut has at least `k` edges across it, so has that of each set. -/
theorem sets_mul_le_two_mul_crossing (hs : s.WellFormed) (h2 : 2 ≤ s.sets)
    (hes : Within s.size es) (hk : ∀ j ∈ cutSizes s.size es, k ≤ j) :
    s.sets * k ≤ 2 * crossing s es := by
  rw [← sum_cutSize_side hs hes, hs.sets_eq, ← smul_eq_mul]
  refine Finset.card_nsmul_le_sum s.roots _ k fun r hr => hk _ ?_
  exact ⟨s.side r, side_nonempty hs hr, side_ssubset hs h2 r, rfl⟩

end UnionFind

end WeightedGraph
