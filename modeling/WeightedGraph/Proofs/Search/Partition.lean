import Mathlib
import WeightedGraph.Proofs.Search.Components

/-!
The groups that the floods make, as a partition of the vertices in a fixed order.

* `Floods.eq_filter`: a search for which closed vertices were found before visits what a search
  that has not found them visits, in the same order, less those vertices.
* `Flooded.exists_breadthOrder`: so each group is read off the order of the search from its first
  vertex.
* `Adjacency.IsPartition`: the groups hold each vertex once, they begin with the least vertices
  that are left, and they are read off the orders of the searches from these. Where every entry has
  one back, nothing is left out of these orders and the groups are the connected components.
  `Adjacency.exists_components_isPartition` says it of every list of groups.
-/

namespace WeightedGraph

namespace Adjacency

variable {W : Type} {g : Adjacency W} {found found' prior joined joined' : IndexSet}
  {queue out c order : List Vertex} {groups earlier later : List (List Vertex)}
  {root u v : Vertex}

/-- Two searches side by side. One has found closed vertices beside what the other has found, and
they do not wait in it. It then visits what the other visits, in its order, less these vertices.
The induction is on the visits of the other search. The visit of a closed vertex finds closed
vertices only, which leaves the one search where it is. Any other visit is made by both. -/
theorem Floods.eq_filter (h : g.Floods found queue out found') (hprior : g.Closed prior)
    (hjoined : found.IsUnion prior joined)
    (h' : g.Floods joined (queue.filter fun v => !prior.contains v) c joined') :
    c = out.filter fun v => !prior.contains v := by
  induction h generalizing joined c with
  | done =>
      cases h'
      rfl
  | @visit found found' v rest out _ ih =>
      obtain ⟨hunion, hnew⟩ := hjoined.insertNew (g.targets v)
      cases hv : prior.contains v with
      | true =>
          have htargets : ∀ u ∈ g.targets v, joined.contains u = true := fun u hu => by
            rw [hjoined.contains_eq, hprior.contains_of_leads v u (mem_targets.1 hu) hv,
              Bool.or_true]
          rw [IndexSet.insertNew_of_forall_contains htargets] at hunion hnew
          rw [List.filter_cons_of_neg (by simp [hv])] at h' ⊢
          refine ih hunion ?_
          rwa [List.filter_append, ← hnew, List.append_nil]
      | false =>
          rw [List.filter_cons_of_pos (by simp [hv])] at h' ⊢
          cases h' with
          | visit hrest =>
              rw [hnew, ← List.filter_append] at hrest
              rw [ih hunion hrest]

/-- The order of the search from a vertex is that of its visits until nothing waits. -/
lemma exists_breadthOrder_floods (hg : g.WellFormed) (hs : root < g.size) :
    ∃ order found', g.breadthOrder root = .ok order ∧
      g.Floods ((IndexSet.empty g.size).insert root) [root] order found' := by
  have hcapacity : ((IndexSet.empty g.size).insert root).capacity = g.size :=
    IndexSet.capacity_insert _ _
  obtain ⟨order, found', h⟩ := exists_floods hg hcapacity [root]
  obtain ⟨visits, rfl, hvisits⟩ :=
    h.flood_eq_ok hg (closed_empty g) hs (IndexSet.contains_empty g.size root)
  refine ⟨_, found', ?_, h⟩
  rw [flood] at hvisits
  rw [breadthOrder, BreadthState.start, if_pos hs, hvisits]
  rfl

namespace Flooded

lemma head?_eq (h : g.Flooded prior root c) : c.head? = some root := by
  obtain ⟨_, hfloods⟩ := h.exists_floods
  rw [hfloods.eq_insertNew.1]
  rfl

lemma nodup (h : g.Flooded prior root c) (hg : g.WellFormed) : c.Nodup := by
  obtain ⟨_, hfloods⟩ := h.exists_floods
  exact hfloods.nodup_root hg h.closed h.lt_size

lemma lt_size_of_mem (h : g.Flooded prior root c) (hg : g.WellFormed) (hv : v ∈ c) :
    v < g.size :=
  ((h.mem_iff hg).1 hv).2.lt_size hg h.lt_size

/-- The group is the order of the search from its first vertex, less what was found before. -/
theorem exists_breadthOrder (h : g.Flooded prior root c) (hg : g.WellFormed) :
    ∃ order, g.breadthOrder root = .ok order ∧ (∀ v ∈ order, g.Reachable root v) ∧
      c = order.filter fun v => !prior.contains v := by
  obtain ⟨order, _, horder, hfresh⟩ := exists_breadthOrder_floods hg h.lt_size
  obtain ⟨_, hfloods⟩ := h.exists_floods
  have hcapacity : ((IndexSet.empty g.size).insert root).capacity = g.size :=
    IndexSet.capacity_insert _ _
  refine ⟨order, horder, fun v hv => ?_, ?_⟩
  · obtain ⟨u, hu, huv⟩ := hfresh.exists_reachable hg hcapacity hv
    rwa [← List.mem_singleton.1 hu]
  · have hunion := (IndexSet.IsUnion.empty_left prior).insert root
    rw [h.closed.capacity_eq] at hunion
    have hqueue : ([root].filter fun v => !prior.contains v) = [root] := by
      rw [List.filter_cons_of_pos (by simp [h.contains_root]), List.filter_nil]
    rw [← hqueue] at hfloods
    exact hfresh.eq_filter h.closed hunion hfloods

end Flooded

/-- The groups of the vertices from the least one on, read off searches one after the other. -/
structure IsPartition (g : Adjacency W) (groups : List (List Vertex)) : Prop where
  /-- Every vertex is in one group, and there in one place. -/
  perm_range : groups.flatten.Perm (List.range g.size)
  /-- A group begins with the least vertex that is in none of the groups before it, and this is the
  least vertex of the group. The group is the order of the search from this vertex, less the
  vertices of the groups before it. -/
  exists_order : ∀ earlier c later, groups = earlier ++ c :: later →
    ∃ root order, c.head? = some root ∧
      IsLeast {v | v < g.size ∧ v ∉ earlier.flatten} root ∧ IsLeast {v | v ∈ c} root ∧
      g.breadthOrder root = .ok order ∧ c = order.filter fun v => v ∉ earlier.flatten
  /-- Where every entry has one back, a group is the whole order of the search. -/
  breadthOrder_eq : g.IsSymmetric → ∀ c ∈ groups, ∃ root,
    c.head? = some root ∧ g.breadthOrder root = .ok c
  /-- Then two vertices are in one group exactly if a walk leads from the one to the other. -/
  reachable_iff : g.IsSymmetric → ∀ u < g.size, ∀ v < g.size,
    (∃ c ∈ groups, u ∈ c ∧ v ∈ c) ↔ g.Reachable u v

namespace Grouped

variable (h : g.Grouped (IndexSet.empty g.size) (List.range g.size) groups) (hg : g.WellFormed)

include h hg

/-- Each group is that of a search from the least vertex that is in none of the groups before it. -/
lemma exists_flooded_range (hsplit : groups = earlier ++ c :: later) :
    ∃ prior root, g.Flooded prior root c ∧
      (∀ v, prior.contains v = true ↔ v ∈ earlier.flatten) ∧
      ∀ v < g.size, v ∉ earlier.flatten → root ≤ v := by
  obtain ⟨prior, root, before, after, hflooded, hroots, hbefore, hprior⟩ :=
    h.exists_flooded hg (closed_empty g) hsplit
  have hfound (v : Vertex) : prior.contains v = true ↔ v ∈ earlier.flatten := by
    rw [hprior, IndexSet.contains_empty, or_iff_right Bool.false_ne_true]
  refine ⟨prior, root, hflooded, hfound, fun v hv hnew => ?_⟩
  have hsorted := List.pairwise_lt_range (n := g.size)
  have hmem := List.mem_range.2 hv
  rw [hroots] at hsorted hmem
  rcases List.mem_append.1 hmem with hv | hv
  · exact absurd ((hfound v).1 (hbefore v hv)) hnew
  · rcases List.mem_cons.1 hv with rfl | hv
    · exact le_rfl
    · exact ((List.pairwise_cons.1 (List.pairwise_append.1 hsorted).2.1).1 v hv).le

lemma perm_range : groups.flatten.Perm (List.range g.size) := by
  have hf := closed_empty g
  have hnodup : groups.flatten.Nodup := by
    refine List.nodup_flatten.2 ⟨fun c hc => ?_, h.pairwise_disjoint hg hf⟩
    obtain ⟨prior, root, hflooded⟩ := h.exists_flooded_of_mem hg hf hc
    exact hflooded.nodup hg
  refine (List.perm_ext_iff_of_nodup hnodup List.nodup_range).2 fun v => ?_
  rw [List.mem_flatten, List.mem_range]
  constructor
  · rintro ⟨c, hc, hv⟩
    obtain ⟨prior, root, hflooded⟩ := h.exists_flooded_of_mem hg hf hc
    exact hflooded.lt_size_of_mem hg hv
  · intro hv
    refine (h.exists_mem hg hf (List.mem_range.2 hv)).resolve_left ?_
    rw [IndexSet.contains_empty]
    exact Bool.false_ne_true

lemma isPartition : g.IsPartition groups where
  perm_range := h.perm_range hg
  exists_order earlier c later hsplit := by
    obtain ⟨prior, root, hflooded, hprior, hleast⟩ := h.exists_flooded_range hg hsplit
    obtain ⟨order, horder, -, hc⟩ := hflooded.exists_breadthOrder hg
    have hnew (v : Vertex) : v ∉ earlier.flatten ↔ prior.contains v = false := by
      rw [← hprior, Bool.not_eq_true]
    refine ⟨root, order, hflooded.head?_eq,
      ⟨⟨hflooded.lt_size, (hnew root).2 hflooded.contains_root⟩, fun v hv => hleast v hv.1 hv.2⟩,
      ⟨hflooded.mem_root hg, fun v hv => ?_⟩, horder, ?_⟩
    · exact hleast v (hflooded.lt_size_of_mem hg hv) ((hnew v).2 ((hflooded.mem_iff hg).1 hv).1)
    · rw [hc]
      refine List.filter_congr fun v _ => ?_
      rw [Bool.eq_iff_iff, Bool.not_eq_true', decide_eq_true_iff, hnew]
  breadthOrder_eq hsymm c hc := by
    obtain ⟨prior, root, hflooded⟩ := h.exists_flooded_of_mem hg (closed_empty g) hc
    obtain ⟨order, horder, hreach, rfl⟩ := hflooded.exists_breadthOrder hg
    refine ⟨root, hflooded.head?_eq, ?_⟩
    -- what was found before would lead back to the root, which was not
    rw [horder, List.filter_eq_self.2 fun v hv => ?_]
    rw [Bool.not_eq_true', Bool.eq_false_iff]
    intro hfound
    have hroot := hflooded.closed.contains_of_reachable (hsymm.reachable_symm (hreach v hv)) hfound
    exact Bool.false_ne_true (hflooded.contains_root.symm.trans hroot)
  reachable_iff hsymm u hu v _ := by
    constructor
    · rintro ⟨c, hc, huc, hvc⟩
      exact (h.mem_iff_reachable hg (closed_empty g) hsymm hc huc).1 hvc
    · intro huv
      have hmem := (h.perm_range hg).mem_iff.2 (List.mem_range.2 hu)
      obtain ⟨c, hc, huc⟩ := List.mem_flatten.1 hmem
      exact ⟨c, hc, huc, (h.mem_iff_reachable hg (closed_empty g) hsymm hc huc).2 huv⟩

end Grouped

/-- The components and their number are always found, and the components are this partition. -/
theorem exists_components_isPartition (hg : g.WellFormed) :
    ∃ groups, g.components = .ok groups ∧ g.componentCount = .ok groups.length ∧
      g.IsPartition groups := by
  obtain ⟨groups, h, hcomponents, hcount⟩ := exists_components hg
  exact ⟨groups, hcomponents, hcount, h.isPartition hg⟩

/-- The search from the root of the second group walks through the first group, between vertices of
its own. In the second graph every entry has one back. -/
theorem exists_components_isPartition_through :
    let entry (v : Vertex) : Entry (Saturating (IntRange.signed 32)) := ⟨v, 0⟩
    let g : Adjacency (Saturating (IntRange.signed 32)) :=
      ⟨#[[entry 1], [entry 0, entry 1], [entry 4, entry 0, entry 3], [entry 1, entry 2],
        [entry 3, entry 3]]⟩
    let k : Adjacency (Saturating (IntRange.signed 32)) :=
      ⟨#[[entry 2], [entry 3], [entry 0, entry 2], [entry 1], []]⟩
    g.WellFormed ∧ g.components = .ok [[0, 1], [2, 4, 3]] ∧
      g.breadthOrder 2 = .ok [2, 4, 0, 3, 1] ∧
      (∃ groups, g.components = .ok groups ∧ g.componentCount = .ok groups.length ∧
        g.IsPartition groups) ∧
      k.WellFormed ∧ k.IsSymmetric ∧ k.components = .ok [[0, 2], [1, 3], [4]] ∧
      ∃ groups, k.components = .ok groups ∧ k.componentCount = .ok groups.length ∧
        k.IsPartition groups := by
  intro entry g k
  have hg : g.WellFormed := by decide
  have hk : k.WellFormed := by decide
  exact ⟨hg, by cbv, by cbv, exists_components_isPartition hg, hk, by decide, by cbv,
    exists_components_isPartition hk⟩

end Adjacency

end WeightedGraph
