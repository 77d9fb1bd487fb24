import Mathlib
import WeightedGraph.Proofs.MinCut.Cut
import WeightedGraph.Proofs.UnionFind.Forest

/-!
Ranks stay small because sets grow.

* `UnionFind.Heavy`: the set of each root has at least as many elements as two to the power of its
  rank.
* `heavy_singletons`, `Shortens.heavy`, `heavy_link`, `heavy_join`: forests begin so and stay so. A
  rank grows only where two sets of the same rank are merged.
* `Heavy.rankAt_lt`: so the rank of a root is below any number whose power of two exceeds the number
  of elements.
-/

namespace WeightedGraph

namespace UnionFind

variable {s t : UnionFind} {c w x y r : Nat}

/-- Each root stands for at least as many elements as two to the power of its rank. -/
def Heavy (s : UnionFind) : Prop :=
  ∀ r ∈ s.roots, 2 ^ s.rankAt r ≤ (s.side r).card

lemma heavy_singletons (n : Nat) : (singletons n).Heavy := by
  intro r hr
  have hrank : (singletons n).rankAt r = 0 := by
    rw [rankAt, singletons, Array.getD_eq_getD_getElem?, Array.getElem?_replicate]
    split <;> rfl
  rw [hrank, pow_zero, Nat.one_le_iff_ne_zero, ← Nat.pos_iff_ne_zero]
  exact Finset.card_pos.2 (side_nonempty (wellFormed_singletons n) hr)

lemma Shortens.heavy (hs : s.WellFormed) (h : s.Shortens t) (hheavy : s.Heavy) : t.Heavy := by
  intro r hr
  have hside : t.side r = s.side r := by
    ext v
    rw [mem_side, mem_side, h.size_eq, h.rootOf_eq hs]
  rw [mem_roots, h.size_eq, h.isRoot_iff hs] at hr
  rw [hside, rankAt, h.rank_eq]
  exact hheavy r (mem_roots.2 hr)

lemma rankAt_link (hs : s.WellFormed) (hx : x < s.size) (z : Nat) :
    (s.link x y).rankAt z =
      if z = x ∧ s.rankAt x = s.rankAt y then s.rankAt x + 1 else s.rankAt z := by
  rw [rankAt, rank_link]
  by_cases heq : s.rankAt x = s.rankAt y
  · rw [if_pos heq]
    simp only [heq, and_true]
    exact rankAt_setIfInBounds s hs hx s.parent s.sets (s.rankAt y + 1) z
  · rw [if_neg heq, if_neg fun h => heq h.2]
    rfl

namespace Attaches

/-- The root that is left stands for the elements of both sets. -/
lemma side_eq_union (hs : s.WellFormed) (hcw : c ≠ w) (hc : c ∈ s.roots) (hw : w ∈ s.roots)
    (h : s.Attaches c w t) : t.side w = s.side c ∪ s.side w := by
  ext v
  rw [Finset.mem_union, mem_side, mem_side, mem_side, h.size_eq, h.rootOf_eq hs hcw hc hw]
  split
  · next hv => simp [hv, hcw]
  · next hv => simp [hv]

/-- Every other root stands for what it stood for. -/
lemma side_eq (hs : s.WellFormed) (hcw : c ≠ w) (hc : c ∈ s.roots) (hw : w ∈ s.roots)
    (h : s.Attaches c w t) (hrc : r ≠ c) (hrw : r ≠ w) : t.side r = s.side r := by
  ext v
  rw [mem_side, mem_side, h.size_eq, h.rootOf_eq hs hcw hc hw]
  split
  · next hv => simp [hv, hrc.symm, hrw.symm]
  · rfl

/-- A forest stays heavy if the rank of the root that is left grows only where the ranks were equal,
and then by one. -/
lemma heavy (hs : s.WellFormed) (hcw : c ≠ w) (hc : c ∈ s.roots) (hw : w ∈ s.roots)
    (h : s.Attaches c w t) (hheavy : s.Heavy)
    (hrank : t.rankAt w = s.rankAt w ∨
      s.rankAt c = s.rankAt w ∧ t.rankAt w = s.rankAt w + 1) : t.Heavy := by
  intro r hr
  rw [h.roots_eq hcw, Finset.mem_erase] at hr
  by_cases hrw : r = w
  · subst hrw
    have hdisjoint : Disjoint (s.side c) (s.side r) := by
      rw [Finset.disjoint_left]
      intro v hv hv'
      exact hcw ((mem_side.1 hv).2.symm.trans (mem_side.1 hv').2)
    have hweightc := hheavy c hc
    have hweightw := hheavy r hw
    rw [h.side_eq_union hs hcw hc hw, Finset.card_union_of_disjoint hdisjoint]
    rcases hrank with hrank | ⟨heq, hrank⟩
    · rw [hrank]
      omega
    · rw [heq] at hweightc
      rw [hrank, pow_succ]
      omega
  · rw [h.side_eq hs hcw hc hw hr.1 hrw, h.rankAt_eq r hrw]
    exact hheavy r hr.2

end Attaches

theorem heavy_link (hs : s.WellFormed) (hxy : x ≠ y) (hx : x ∈ s.roots) (hy : y ∈ s.roots)
    (hheavy : s.Heavy) : (s.link x y).Heavy := by
  have hrank := rankAt_link (y := y) hs (mem_roots.1 hx).1
  rcases attaches_link hs hx hy with h | h
  · refine h.heavy hs hxy hx hy hheavy (Or.inl ?_)
    rw [hrank, if_neg fun h => hxy h.1.symm]
  · refine h.heavy hs hxy.symm hy hx hheavy ?_
    rw [hrank]
    split
    · next heq => exact Or.inr ⟨heq.2.symm, rfl⟩
    · exact Or.inl rfl

theorem heavy_join (hs : s.WellFormed) (hx : x < s.size) (hy : y < s.size) (hheavy : s.Heavy) :
    (s.join x y).2.Heavy := by
  obtain ⟨t, ht, hjoin⟩ := exists_join_eq hs hx hy
  rw [hjoin]
  split
  · exact ht.heavy hs hheavy
  · next hxy =>
      exact heavy_link (ht.wellFormed hs) hxy (ht.rootOf_mem_roots hs hx)
        (ht.rootOf_mem_roots hs hy) (ht.heavy hs hheavy)

/-- The rank of a root is at most the logarithm of the number of elements. -/
theorem Heavy.rankAt_lt (hheavy : s.Heavy) (hr : r ∈ s.roots) {k : Nat} (hk : s.size < 2 ^ k) :
    s.rankAt r < k := by
  have hcard : (s.side r).card ≤ s.size := by
    have h := Finset.card_filter_le (Finset.range s.size) fun v => s.rootOf v = r
    rwa [Finset.card_range] at h
  exact (Nat.pow_lt_pow_iff_right Nat.one_lt_two).1 (((hheavy r hr).trans hcard).trans_lt hk)

end UnionFind

end WeightedGraph
