import Mathlib
import WeightedGraph.Proofs.Search.BreadthFirst

/-!
A breadth-first search visits the vertices level by level.

* `Adjacency.IsHopCount`: the least number of entries on a walk. Along an entry it grows by one at
  most (`IsHopCount.le_succ`), and every vertex but the first has a neighbour before it on a level
  one lower (`IsHopCount.exists_leads`).
* `Adjacency.Layered`: the vertices that wait are first some of one level, then some of the next
  one; all lower levels are found, and of the next level all that is not found is a neighbour of a
  vertex that waits. `Layered.visit` and `Layered.turn` are the moves of the search.
* `Floods.pairwise_le`: so the levels do not decrease in the order of the visits.
* `Adjacency.IsLevelOrder`: all that is to say of the order of a search: the vertices in it, their
  levels, and the neighbour lists that it is read off.
  `Adjacency.exists_breadthOrder_isLevelOrder` says it of every search from a vertex.
-/

namespace WeightedGraph

namespace Adjacency

variable {W : Type} {g : Adjacency W} {found found' : IndexSet} {near far queue out : List Vertex}
  {root u v x : Vertex} {j k : Nat}

/-! ### Levels -/

/-- The least number of entries on a walk from a vertex to another. -/
def IsHopCount (g : Adjacency W) (u v : Vertex) (k : Nat) : Prop :=
  IsLeast {k | ∃ es, g.Walk u es v ∧ es.length = k} k

namespace IsHopCount

lemma unique (h : g.IsHopCount u v j) (h' : g.IsHopCount u v k) : j = k :=
  IsLeast.unique h h'

lemma reachable (h : g.IsHopCount u v k) : g.Reachable u v := by
  obtain ⟨es, hes, -⟩ := h.1
  exact ⟨es, hes⟩

lemma le_length {es : List (Entry W)} (h : g.IsHopCount u v k) (hes : g.Walk u es v) :
    k ≤ es.length :=
  h.2 ⟨es, hes, rfl⟩

end IsHopCount

/-- A vertex to which a walk leads lies on some level. -/
lemma Reachable.exists_isHopCount (h : g.Reachable u v) : ∃ k, g.IsHopCount u v k := by
  classical
  obtain ⟨es, hes⟩ := h
  have hex : ∃ k, ∃ es, g.Walk u es v ∧ es.length = k := ⟨es.length, es, hes, rfl⟩
  exact ⟨Nat.find hex, Nat.find_spec hex, fun _ hk => Nat.find_min' hex hk⟩

lemma isHopCount_self (g : Adjacency W) (v : Vertex) : g.IsHopCount v v 0 :=
  ⟨⟨[], .nil v, rfl⟩, fun _ _ => Nat.zero_le _⟩

lemma isHopCount_zero_iff : g.IsHopCount u v 0 ↔ u = v := by
  constructor
  · rintro ⟨⟨es, hes, hlen⟩, -⟩
    obtain rfl := List.eq_nil_of_length_eq_zero hlen
    cases hes
    rfl
  · rintro rfl
    exact isHopCount_self g u

namespace IsHopCount

/-- An entry leads one level further at most. -/
lemma le_succ (h : g.IsHopCount root u j) (hx : g.Leads u x) (h' : g.IsHopCount root x k) :
    k ≤ j + 1 := by
  obtain ⟨es, hes, hlen⟩ := h.1
  obtain ⟨e, he, rfl⟩ := hx
  have hle := h'.le_length (hes.snoc he)
  rwa [List.length_append, List.length_singleton, hlen] at hle

/-- A vertex beyond the first level is a neighbour of one on the level before. -/
lemma exists_leads (h : g.IsHopCount root v (k + 1)) :
    ∃ u, g.IsHopCount root u k ∧ g.Leads u v := by
  obtain ⟨es, hes, hlen⟩ := h.1
  obtain ⟨u, fs, hfs, hfslen, hu⟩ := hes.exists_snoc hlen
  obtain ⟨j, hj⟩ := Reachable.exists_isHopCount ⟨fs, hfs⟩
  have hle := hj.le_length hfs
  have hge := hj.le_succ hu h
  obtain rfl : j = k := by omega
  exact ⟨u, hj, hu⟩

end IsHopCount

/-! ### The vertices that wait -/

/-- The vertices `near` of level `k` wait, and after them the vertices `far` of the next level. -/
structure Layered (g : Adjacency W) (root : Vertex) (k : Nat) (found : IndexSet)
    (near far : List Vertex) : Prop where
  isHopCount_near : ∀ v ∈ near, g.IsHopCount root v k
  isHopCount_far : ∀ v ∈ far, g.IsHopCount root v (k + 1)
  /-- What is found lies on no later level than `k`, or waits on the next one. -/
  contains_iff : ∀ v, found.contains v = true ↔ (∃ j ≤ k, g.IsHopCount root v j) ∨ v ∈ far
  /-- What is not found on the next level is going to be found from a vertex of level `k`. -/
  mem_far_or_leads : ∀ v, g.IsHopCount root v (k + 1) → v ∈ far ∨ ∃ u ∈ near, g.Leads u v

namespace Layered

/-- In the beginning the root waits, which is the only vertex on the first level. -/
lemma start (hs : root < g.size) :
    g.Layered root 0 ((IndexSet.empty g.size).insert root) [root] [] where
  isHopCount_near v hv := List.mem_singleton.1 hv ▸ isHopCount_self g root
  isHopCount_far v hv := absurd hv List.not_mem_nil
  contains_iff v := by
    have hzero : (∃ j ≤ 0, g.IsHopCount root v j) ↔ root = v := by
      simp only [Nat.le_zero, exists_eq_left, isHopCount_zero_iff]
    rw [IndexSet.contains_insert_iff hs, IndexSet.contains_empty, hzero]
    simp [eq_comm]
  mem_far_or_leads v hv := by
    obtain ⟨u, hu, huv⟩ := hv.exists_leads
    exact Or.inr ⟨u, List.mem_singleton.2 (isHopCount_zero_iff.1 hu).symm, huv⟩

/-- The vertices that a visit finds wait on the next level. -/
lemma visit (h : g.Layered root k found (v :: near) far) (hg : g.WellFormed)
    (hf : found.capacity = g.size) :
    g.Layered root k (found.insertNew (g.targets v)).1 near
      (far ++ (found.insertNew (g.targets v)).2) where
  isHopCount_near u hu := h.isHopCount_near u (List.mem_cons_of_mem v hu)
  isHopCount_far u hu := by
    rcases List.mem_append.1 hu with hu | hu
    · exact h.isHopCount_far u hu
    · -- a neighbour that was not found lies beyond level `k`, and no more than one level
      obtain ⟨hvu, hnot⟩ := (IndexSet.mem_insertNew (hf ▸ lt_of_mem_targets hg)).1 hu
      have hv := h.isHopCount_near v List.mem_cons_self
      have hleads := mem_targets.1 hvu
      obtain ⟨j, hj⟩ := (hv.reachable.trans hleads.reachable).exists_isHopCount
      have hle := hv.le_succ hleads hj
      have hlt : ¬ j ≤ k := fun hjk =>
        Bool.eq_false_iff.1 hnot ((h.contains_iff u).2 (Or.inl ⟨j, hjk, hj⟩))
      obtain rfl : j = k + 1 := by omega
      exact hj
  contains_iff u := by
    have hnew := IndexSet.mem_insertNew (s := found) (j := u)
      (hf ▸ lt_of_mem_targets hg (u := v))
    rw [IndexSet.contains_insertNew (hf ▸ lt_of_mem_targets hg), h.contains_iff, List.mem_append,
      hnew, ← Bool.not_eq_true, h.contains_iff]
    generalize (∃ j ≤ k, g.IsHopCount root u j) = lower
    tauto
  mem_far_or_leads u hu := by
    rw [List.mem_append, IndexSet.mem_insertNew (hf ▸ lt_of_mem_targets hg), mem_targets]
    rcases h.mem_far_or_leads u hu with hfar | ⟨w, hw, hwu⟩
    · exact Or.inl (Or.inl hfar)
    · rcases List.mem_cons.1 hw with rfl | hw
      · cases hc : found.contains u with
        | false => exact Or.inl (Or.inr ⟨hwu, rfl⟩)
        | true =>
            refine Or.inl (Or.inl (((h.contains_iff u).1 hc).resolve_left ?_))
            rintro ⟨j, hj, hju⟩
            have hjk := hju.unique hu
            omega
      · exact Or.inr ⟨w, hw, hwu⟩

/-- When no vertex of a level waits any more, the next level has its turn. -/
lemma turn (h : g.Layered root k found [] far) : g.Layered root (k + 1) found far [] where
  isHopCount_near := h.isHopCount_far
  isHopCount_far v hv := absurd hv List.not_mem_nil
  contains_iff v := by
    rw [h.contains_iff]
    constructor
    · rintro (⟨j, hj, hv⟩ | hv)
      · exact Or.inl ⟨j, hj.trans (Nat.le_succ k), hv⟩
      · exact Or.inl ⟨k + 1, le_rfl, h.isHopCount_far v hv⟩
    · rintro (⟨j, hj, hv⟩ | hv)
      · rcases Nat.le_succ_iff.1 hj with hjk | rfl
        · exact Or.inl ⟨j, hjk, hv⟩
        · exact Or.inr ((h.mem_far_or_leads v hv).resolve_right (by simp))
      · exact absurd hv List.not_mem_nil
  mem_far_or_leads v hv := by
    obtain ⟨u, hu, huv⟩ := hv.exists_leads
    exact Or.inr ⟨u, (h.mem_far_or_leads u hu).resolve_right (by simp), huv⟩

/-- The first vertex that waits is one of the nearer level, if need be after a turn. -/
lemma exists_cons {rest : List Vertex} (h : g.Layered root k found near far)
    (hq : v :: rest = near ++ far) :
    ∃ k' near' far', k ≤ k' ∧ rest = near' ++ far' ∧ g.Layered root k' found (v :: near') far' := by
  cases near with
  | cons u near =>
      obtain ⟨rfl, rfl⟩ := List.cons.inj hq
      exact ⟨k, near, far, le_rfl, rfl, h⟩
  | nil =>
      obtain rfl : v :: rest = far := hq
      exact ⟨k + 1, rest, [], Nat.le_succ k, (List.append_nil rest).symm, h.turn⟩

end Layered

/-- The vertices are visited level by level. The induction is on the run of the search, and what it
carries is how the vertices that wait are layered. -/
theorem Floods.pairwise_le (h : g.Floods found queue out found') (hg : g.WellFormed)
    (hf : found.capacity = g.size) (hl : g.Layered root k found near far)
    (hq : queue = near ++ far) :
    (∀ v ∈ out, ∃ j, k ≤ j ∧ g.IsHopCount root v j) ∧
      out.Pairwise fun u v => ∀ i j, g.IsHopCount root u i → g.IsHopCount root v j → i ≤ j := by
  induction h generalizing k near far with
  | done => exact ⟨by simp, .nil⟩
  | @visit found found' v rest out _ ih =>
      obtain ⟨k', near', far', hk, hrest, hl'⟩ := hl.exists_cons hq
      have hv := hl'.isHopCount_near v List.mem_cons_self
      obtain ⟨hlevels, hpairs⟩ := ih ((IndexSet.capacity_insertNew _ _).trans hf)
        (hl'.visit hg hf) (by rw [hrest, List.append_assoc])
      refine ⟨?_, List.pairwise_cons.2 ⟨fun u hu i j hi hj => ?_, hpairs⟩⟩
      · rintro u (_ | ⟨_, hu⟩)
        · exact ⟨k', hk, hv⟩
        · obtain ⟨j, hj, huj⟩ := hlevels u hu
          exact ⟨j, hk.trans hj, huj⟩
      · obtain ⟨l, hl, hul⟩ := hlevels u hu
        rw [hi.unique hv, hj.unique hul]
        exact hl

/-! ### The order of a search -/

/-- The vertices that walks reach from `root`, level by level and in the order which the lists of
entries fix. -/
structure IsLevelOrder (g : Adjacency W) (root : Vertex) (order : List Vertex) : Prop where
  nodup : order.Nodup
  mem_iff : ∀ v, v ∈ order ↔ g.Reachable root v
  /-- The least numbers of entries on walks to the vertices do not decrease. -/
  levels : ∃ level : Vertex → Nat, (∀ v ∈ order, g.IsHopCount root v (level v)) ∧
    order.Pairwise fun u v => level u ≤ level v
  /-- The root, then the neighbours of the vertices in their order, each where it first occurs. -/
  eq_eraseDups : order = (root :: order.flatMap g.targets).eraseDups

lemma Floods.isLevelOrder
    (h : g.Floods ((IndexSet.empty g.size).insert root) [root] out found') (hg : g.WellFormed)
    (hs : root < g.size) : g.IsLevelOrder root out where
  nodup := h.nodup_root hg (closed_empty g) hs
  mem_iff v := by
    rw [h.mem_iff_reachable hg (closed_empty g) hs (IndexSet.contains_empty _ _),
      and_iff_right (IndexSet.contains_empty _ _)]
  levels := by
    have hreach : ∀ v ∈ out, ∃ k, g.IsHopCount root v k := fun v hv =>
      ((h.mem_iff_reachable hg (closed_empty g) hs (IndexSet.contains_empty _ _)).1
        hv).2.exists_isHopCount
    choose! level hlevel using hreach
    have hpairs := (h.pairwise_le hg (IndexSet.capacity_insert _ _) (.start hs) rfl).2
    exact ⟨level, hlevel, hpairs.imp_of_mem fun hu hv huv =>
      huv _ _ (hlevel _ hu) (hlevel _ hv)⟩
  eq_eraseDups := by
    have hroot : root < (IndexSet.empty g.size).capacity := hs
    have hlist := IndexSet.insertNew_snd_eq_eraseDups (s := IndexSet.empty g.size)
      (List.forall_mem_cons.2 ⟨hroot, lt_capacity hg rfl out⟩)
    rw [IndexSet.insertNew_cons_of_not_contains (IndexSet.contains_empty g.size root),
      List.filter_eq_self.2 fun v _ => by simp [IndexSet.contains_empty]] at hlist
    rw [← hlist, ← List.singleton_append]
    exact h.eq_insertNew.1

/-- The search from a vertex ends, and visits what can be reached in level order. -/
theorem exists_breadthOrder_isLevelOrder (hg : g.WellFormed) (hs : root < g.size) :
    ∃ visits, Yields g.breadthNext (BreadthState.start g.size root) visits ∧
      g.breadthOrder root = .ok (visits.map Visit.vertex) ∧
      g.IsLevelOrder root (visits.map Visit.vertex) := by
  have hcapacity : ((IndexSet.empty g.size).insert root).capacity = g.size :=
    IndexSet.capacity_insert _ _
  obtain ⟨out, found', h⟩ := exists_floods hg hcapacity [root]
  have horder := h.isLevelOrder hg hs
  obtain ⟨visits, rfl, hyields⟩ := h.yields hg
  have hlen : visits.length ≤ g.size := by
    have hcount := h.length_add_card_absent hg hcapacity
    have habsent := IndexSet.card_absent_insert (s := IndexSet.empty g.size) hs
      (IndexSet.contains_empty _ _)
    rw [IndexSet.card_absent_empty] at habsent
    rw [List.length_map, List.length_singleton] at hcount
    omega
  refine ⟨visits, by rwa [BreadthState.start, if_pos hs], ?_, horder⟩
  obtain ⟨s', hs'⟩ := hyields.takeSteps g.size
  rw [breadthOrder, breadthVisits, BreadthState.start, if_pos hs, hs', List.take_of_length_le hlen]
  rfl

/-- Parallel entries, loops, entries back and a vertex that cannot be reached. The vertex `1` is a
neighbour of two vertices and comes where the first of them lists it. -/
theorem exists_breadthOrder_isLevelOrder_cycle :
    let entry (v : Vertex) : Entry (Saturating (IntRange.signed 32)) := ⟨v, 0⟩
    let g : Adjacency (Saturating (IntRange.signed 32)) :=
      ⟨#[[entry 2, entry 0, entry 2, entry 4], [entry 3], [entry 1, entry 3, entry 0], [entry 3],
        [entry 1], [entry 0]]⟩
    g.WellFormed ∧ 0 < g.size ∧ g.breadthOrder 0 = .ok [0, 2, 4, 1, 3] ∧
      ∃ visits, Yields g.breadthNext (BreadthState.start g.size 0) visits ∧
        g.breadthOrder 0 = .ok (visits.map Visit.vertex) ∧
        g.IsLevelOrder 0 (visits.map Visit.vertex) := by
  intro entry g
  have hg : g.WellFormed := by decide
  have hs : 0 < g.size := by decide
  exact ⟨hg, hs, by cbv, exists_breadthOrder_isLevelOrder hg hs⟩

end Adjacency

end WeightedGraph
