import Mathlib
import WeightedGraph.Proofs.Search.Levels
import WeightedGraph.Proofs.Search.Tables

/-!
The levels that a breadth-first search writes down are the least numbers of entries on walks.

* `Adjacency.Advances`: what a visit does, seen from the levels. It finds vertices of the next level
  that were not found before, and the visited vertex leads to them.
* `Adjacency.Sweeps`: a run of such visits. `exists_sweeps` says that a search from a vertex is one,
  and that it finds in the end what walks reach.
* `Adjacency.Marks`: the places with a level are the vertices found so far.
  `exists_takeSteps_isSome_eq_contains` says that this is so at every moment of a search, which may
  therefore use its table as the set of found vertices.
* `Adjacency.Graded`: the table has the right level for every vertex found and none for the others,
  so it is the set of found vertices as well. A visit preserves this (`Graded.recordLevel`), hence a
  run does (`Sweeps.graded`), although a level is written once and never improved.
* `Adjacency.exists_hopCounts_isHopCount`: the table in the end is exact.
-/

namespace WeightedGraph

namespace Adjacency

variable {W : Type} {g : Adjacency W} {found found' : IndexSet} {near far queue out : List Vertex}
  {visit : Visit} {visits : List Visit} {levels : Array (Option Nat)} {root u v : Vertex} {k : Nat}
  {s : BreadthState} {rest : List Vertex}

/-! ### Runs of a search -/

/-- A visit of a vertex on level `k` that finds vertices of the next level. -/
structure Advances (g : Adjacency W) (root : Vertex) (k : Nat) (found : IndexSet) (visit : Visit)
    (found' : IndexSet) : Prop where
  vertex_found : found.contains visit.vertex = true
  isHopCount : g.IsHopCount root visit.vertex k
  /-- What the visit finds lies on the next level. -/
  isHopCount_succ : ∀ v ∈ visit.found, g.IsHopCount root v (k + 1)
  leads : ∀ v ∈ visit.found, g.Leads visit.vertex v
  lt_size : ∀ v ∈ visit.found, v < g.size
  contains_eq_false : ∀ v ∈ visit.found, found.contains v = false
  contains_iff : ∀ v, found'.contains v = true ↔ found.contains v = true ∨ v ∈ visit.found

/-- `g.Sweeps root found visits found'` says that a search from `root` which has found the vertices
of `found` makes these visits, level by level, and has found those of `found'` after them. -/
inductive Sweeps (g : Adjacency W) (root : Vertex) : IndexSet → List Visit → IndexSet → Prop
  | nil (found : IndexSet) : Sweeps g root found [] found
  | cons {found found₁ found' : IndexSet} {visit : Visit} {visits : List Visit} {k : Nat} :
      g.Advances root k found visit found₁ → Sweeps g root found₁ visits found' →
      Sweeps g root found (visit :: visits) found'

/-- The next visit of a search advances, whatever its level. -/
lemma Layered.advances (h : g.Layered root k found (v :: near) far) (hg : g.WellFormed)
    (hf : found.capacity = g.size) :
    g.Advances root k found ⟨v, (found.insertNew (g.targets v)).2⟩
      (found.insertNew (g.targets v)).1 := by
  have hlt : ∀ u ∈ g.targets v, u < found.capacity := hf ▸ lt_of_mem_targets hg
  have hnew : ∀ u ∈ (found.insertNew (g.targets v)).2,
      u ∈ g.targets v ∧ found.contains u = false := fun u => (IndexSet.mem_insertNew hlt).1
  have hv := h.isHopCount_near v List.mem_cons_self
  refine ⟨(h.contains_iff v).2 (Or.inl ⟨k, le_rfl, hv⟩), hv, fun u hu => ?_, fun u hu => ?_,
    fun u hu => ?_, fun u hu => (hnew u hu).2, fun u => ?_⟩
  · exact (h.visit hg hf).isHopCount_far u (List.mem_append_right far hu)
  · exact mem_targets.1 (hnew u hu).1
  · exact lt_of_mem_targets hg u (hnew u hu).1
  · rw [IndexSet.contains_insertNew hlt, IndexSet.mem_insertNew hlt]
    by_cases hu : found.contains u = true <;> simp [hu]

/-- A search whose waiting vertices are layered makes its visits level by level. The induction is on
the run of the search. -/
lemma Floods.exists_sweeps (h : g.Floods found queue out found') (hg : g.WellFormed)
    (hf : found.capacity = g.size) (hl : g.Layered root k found near far)
    (hq : queue = near ++ far) :
    ∃ visits, visits.map Visit.vertex = out ∧ Yields g.breadthNext ⟨found, queue⟩ visits ∧
      g.Sweeps root found visits found' := by
  induction h generalizing k near far with
  | done found => exact ⟨[], rfl, .done rfl, .nil found⟩
  | @visit found found' v rest out _ ih =>
      obtain ⟨k', near', far', -, hrest, hl'⟩ := hl.exists_cons hq
      obtain ⟨visits, hvisits, hyields, hsweeps⟩ := ih ((IndexSet.capacity_insertNew _ _).trans hf)
        (hl'.visit hg hf) (by rw [hrest, List.append_assoc])
      refine ⟨⟨v, (found.insertNew (g.targets v)).2⟩ :: visits, ?_,
        .step (breadthNext_cons hg found v rest) hyields, .cons (hl'.advances hg hf) hsweeps⟩
      rw [List.map_cons, hvisits]

/-- A search from a vertex ends. It makes no more visits than there are vertices, level by level,
and in the end it has visited and found what walks reach. -/
theorem exists_sweeps (hg : g.WellFormed) (hs : root < g.size) :
    ∃ visits found', Yields g.breadthNext (BreadthState.start g.size root) visits ∧
      g.Sweeps root ((IndexSet.empty g.size).insert root) visits found' ∧
      visits.length ≤ g.size ∧ (∀ v, v ∈ visits.map Visit.vertex ↔ g.Reachable root v) ∧
      ∀ v, found'.contains v = true ↔ g.Reachable root v := by
  have hcapacity : ((IndexSet.empty g.size).insert root).capacity = g.size :=
    IndexSet.capacity_insert _ _
  obtain ⟨out, found', h⟩ := exists_floods hg hcapacity [root]
  have hmem : ∀ v, v ∈ out ↔ g.Reachable root v := fun v => by
    rw [h.mem_iff_reachable hg (closed_empty g) hs (IndexSet.contains_empty _ _),
      and_iff_right (IndexSet.contains_empty _ _)]
  have hfound : ∀ v, found'.contains v = true ↔ g.Reachable root v := fun v => by
    rw [h.contains_root_iff hg (closed_empty g) hs, IndexSet.contains_empty, hmem]
    simp
  have hlen := h.length_le_size hg (closed_empty g) hs (IndexSet.contains_empty _ _)
  obtain ⟨visits, rfl, hyields, hsweeps⟩ := h.exists_sweeps hg hcapacity (.start hs) rfl
  rw [List.length_map] at hlen
  refine ⟨visits, found', ?_, hsweeps, hlen, hmem, hfound⟩
  rwa [BreadthState.start, if_pos hs]

/-! ### The table as the set of found vertices -/

/-- In the table with which a search begins the root has the only level. -/
lemma getD_setIfInBounds_zero {n : Nat} (hs : root < n) (v : Vertex) :
    ((Array.replicate n none).setIfInBounds root (some 0)).getD v none =
      if v = root then some 0 else none := by
  have hget := getD_foldl_setIfInBounds [root] (Array.replicate n none) (some 0) none v
  rw [List.foldl_cons, List.foldl_nil, Array.size_replicate, getD_replicate] at hget
  rw [hget]
  by_cases hv : v = root
  · rw [if_pos ⟨List.mem_singleton.2 hv, hv ▸ hs⟩, if_pos hv]
  · rw [if_neg fun hc => hv (List.mem_singleton.1 hc.1), if_neg hv]

/-- The places of the table that have a level are the vertices which the search has found so far. -/
structure Marks (g : Adjacency W) (s : BreadthState) (levels : Array (Option Nat)) : Prop where
  size_eq : levels.size = g.size
  capacity_eq : s.found.capacity = g.size
  isSome_eq : ∀ v, (levels.getD v none).isSome = s.found.contains v
  contains_of_mem : ∀ v ∈ s.queue, s.found.contains v = true

namespace Marks

/-- In the beginning the root is found and has its level. -/
lemma start (hs : root < g.size) : g.Marks ⟨(IndexSet.empty g.size).insert root, [root]⟩
    ((Array.replicate g.size none).setIfInBounds root (some 0)) where
  size_eq := by simp
  capacity_eq := IndexSet.capacity_insert _ _
  isSome_eq v := by
    rw [getD_setIfInBounds_zero hs, Bool.eq_iff_iff, IndexSet.contains_insert_iff hs,
      IndexSet.contains_empty]
    split
    · next hv => simp [hv]
    · next hv => simp [hv]
  contains_of_mem v hv := by
    rw [List.mem_singleton.1 hv]
    exact IndexSet.contains_insert_self hs

/-- A visit writes a level just for the vertices that it finds. The visited one has a level, so the
next one is none that is missing. -/
lemma breadthNext (hg : g.WellFormed) (h : g.Marks ⟨found, v :: rest⟩ levels) :
    g.Marks ⟨(found.insertNew (g.targets v)).1, rest ++ (found.insertNew (g.targets v)).2⟩
      (WeightedGraph.recordLevel levels ⟨v, (found.insertNew (g.targets v)).2⟩) where
  size_eq := (size_recordLevel _ _).trans h.size_eq
  capacity_eq := (IndexSet.capacity_insertNew _ _).trans h.capacity_eq
  isSome_eq u := by
    have hlt : ∀ u ∈ g.targets v, u < found.capacity := h.capacity_eq ▸ lt_of_mem_targets hg
    have hv : (levels.getD v none).isSome = true :=
      (h.isSome_eq v).trans (h.contains_of_mem v List.mem_cons_self)
    have hnew := IndexSet.mem_insertNew hlt (j := u)
    rw [Bool.eq_iff_iff, getD_recordLevel, IndexSet.contains_insertNew hlt, h.size_eq]
    by_cases hu : u ∈ (found.insertNew (g.targets v)).2
    · have htarget : u ∈ g.targets v := (hnew.1 hu).1
      rw [if_pos ⟨hu, lt_of_mem_targets hg u htarget⟩, Option.isSome_map, hv]
      simp [htarget]
    · -- a target that is not new was found before
      have hfound : u ∈ g.targets v → found.contains u = true := fun htarget => by
        by_contra hnot
        exact hu (hnew.2 ⟨htarget, Bool.eq_false_iff.2 hnot⟩)
      rw [if_neg fun hc => hu hc.1, h.isSome_eq, or_iff_left_of_imp hfound]
  contains_of_mem u hu := by
    have hlt : ∀ u ∈ g.targets v, u < found.capacity := h.capacity_eq ▸ lt_of_mem_targets hg
    rw [IndexSet.contains_insertNew hlt]
    rcases List.mem_append.1 hu with hu | hu
    · exact Or.inl (h.contains_of_mem u (List.mem_cons_of_mem v hu))
    · exact Or.inr ((IndexSet.mem_insertNew hlt).1 hu).1

end Marks

/-- Whatever number of visits is made, the table marks what was found. -/
lemma exists_takeSteps_marks (hg : g.WellFormed) (h : g.Marks s levels) (count : Nat) :
    ∃ visits s', takeSteps g.breadthNext count s = .ok (visits, s') ∧
      g.Marks s' (visits.foldl recordLevel levels) := by
  induction count generalizing s levels with
  | zero => exact ⟨[], s, rfl, h⟩
  | succ count ih =>
      obtain ⟨found, queue⟩ := s
      cases queue with
      | nil => exact ⟨[], _, takeSteps_of_none rfl (count + 1), h⟩
      | cons v rest =>
          obtain ⟨visits, s', hrest, hmarks⟩ := ih (h.breadthNext hg)
          exact ⟨_ :: visits, s', takeSteps_of_some (breadthNext_cons hg found v rest) hrest,
            hmarks⟩

/-- At every moment of a search the places with a level are the vertices found by then. So a search
may tell by its table whether a vertex was found, and needs no set beside it. -/
theorem exists_takeSteps_isSome_eq_contains (hg : g.WellFormed) (hs : root < g.size) (count : Nat) :
    ∃ visits s, takeSteps g.breadthNext count (BreadthState.start g.size root) = .ok (visits, s) ∧
      ∀ v, ((visits.foldl recordLevel
        ((Array.replicate g.size none).setIfInBounds root (some 0))).getD v none).isSome =
          s.found.contains v := by
  obtain ⟨visits, s, hsteps, hmarks⟩ := exists_takeSteps_marks hg (.start hs) count
  refine ⟨visits, s, ?_, hmarks.isSome_eq⟩
  rwa [BreadthState.start, if_pos hs]

/-! ### The table of levels -/

/-- The vertices that are found have their levels in the table, and the others have none. -/
structure Graded (g : Adjacency W) (root : Vertex) (found : IndexSet)
    (levels : Array (Option Nat)) : Prop where
  size_eq : levels.size = g.size
  getD_eq_some_iff : ∀ v k, levels.getD v none = some k ↔
    found.contains v = true ∧ g.IsHopCount root v k

namespace Graded

/-- In the beginning the root has its level. -/
lemma start (hs : root < g.size) : g.Graded root ((IndexSet.empty g.size).insert root)
    ((Array.replicate g.size none).setIfInBounds root (some 0)) where
  size_eq := by simp
  getD_eq_some_iff v k := by
    rw [getD_setIfInBounds_zero hs, IndexSet.contains_insert_iff hs, IndexSet.contains_empty]
    split
    · next hv =>
        subst hv
        have hzero : g.IsHopCount v v k ↔ 0 = k :=
          ⟨(isHopCount_self g v).unique, fun hk => hk ▸ isHopCount_self g v⟩
        simp [hzero]
    · next hv => simp [hv]

/-- A visit writes down the right levels for what it finds. -/
lemma recordLevel (h : g.Graded root found levels) (ha : g.Advances root k found visit found') :
    g.Graded root found' (WeightedGraph.recordLevel levels visit) where
  size_eq := (size_recordLevel levels visit).trans h.size_eq
  getD_eq_some_iff v j := by
    have hlevel := (h.getD_eq_some_iff visit.vertex k).2 ⟨ha.vertex_found, ha.isHopCount⟩
    rw [getD_recordLevel, hlevel, Option.map_some, h.size_eq, ha.contains_iff]
    by_cases hv : v ∈ visit.found
    · have hsucc := ha.isHopCount_succ v hv
      have hj : g.IsHopCount root v j ↔ k + 1 = j := ⟨hsucc.unique, fun hj => hj ▸ hsucc⟩
      simp [hv, ha.lt_size v hv, hj]
    · rw [if_neg fun hmem => hv hmem.1, h.getD_eq_some_iff, or_iff_left hv]

end Graded

/-- Along a run the levels stay right. -/
lemma Sweeps.graded (h : g.Sweeps root found visits found') (hl : g.Graded root found levels) :
    g.Graded root found' (visits.foldl recordLevel levels) := by
  induction h generalizing levels with
  | nil => exact hl
  | cons ha _ ih => exact ih (hl.recordLevel ha)

/-- A search from a vertex ends, and has written down the levels of all vertices. -/
lemma exists_hopCounts (hg : g.WellFormed) (hs : root < g.size) :
    ∃ visits levels, Yields g.breadthNext (BreadthState.start g.size root) visits ∧
      g.hopCounts root = .ok levels ∧ levels.size = g.size ∧
      ∀ v k, levels.getD v none = some k ↔ g.IsHopCount root v k := by
  obtain ⟨visits, found', hyields, hsweeps, hlen, -, hfound⟩ := exists_sweeps hg hs
  have hgraded := hsweeps.graded (.start hs)
  refine ⟨visits, _, hyields, ?_, hgraded.size_eq, fun v k => ?_⟩
  · obtain ⟨s', hs'⟩ := hyields.takeSteps g.size
    rw [hopCounts, breadthVisits, hs', List.take_of_length_le hlen]
    rfl
  · rw [hgraded.getD_eq_some_iff, hfound]
    exact and_iff_right_of_imp IsHopCount.reachable

/-- A search from a vertex ends, and its table has for each vertex the least number of entries on a
walk there, or nothing if no walk leads there. -/
theorem exists_hopCounts_isHopCount (hg : g.WellFormed) (hs : root < g.size) :
    ∃ visits levels, Yields g.breadthNext (BreadthState.start g.size root) visits ∧
      g.hopCounts root = .ok levels ∧ levels.size = g.size ∧
      ∀ v < g.size, (∀ k, levels[v]? = some (some k) ↔ g.IsHopCount root v k) ∧
        (levels[v]? = some none ↔ ¬ g.Reachable root v) := by
  obtain ⟨visits, levels, hyields, hlevels, hsize, hcount⟩ := exists_hopCounts hg hs
  refine ⟨visits, levels, hyields, hlevels, hsize, fun v hv => ?_⟩
  have hget : levels[v]? = some (levels.getD v none) := by
    simp [hsize.symm ▸ hv]
  have hsome : ∀ k, levels[v]? = some (some k) ↔ g.IsHopCount root v k := fun k => by
    rw [hget, Option.some_inj, hcount]
  refine ⟨hsome, fun hnone hreach => ?_, fun hreach => ?_⟩
  · obtain ⟨k, hk⟩ := hreach.exists_isHopCount
    rw [(hsome k).2 hk] at hnone
    cases hnone
  · rw [hget]
    cases hlevel : levels.getD v none with
    | none => rfl
    | some k => exact absurd ((hcount v k).1 hlevel).reachable hreach

/-- Parallel entries, a loop, entries back and a vertex that cannot be reached. The vertex `4` has a
walk with four entries as well as one with two. -/
theorem exists_hopCounts_isHopCount_shortcut :
    let entry (v : Vertex) : Entry (Saturating (IntRange.signed 32)) := ⟨v, 0⟩
    let g : Adjacency (Saturating (IntRange.signed 32)) :=
      ⟨#[[entry 1, entry 0, entry 3, entry 1], [entry 2, entry 0], [entry 3], [entry 4, entry 1],
        [entry 2], [entry 0]]⟩
    g.WellFormed ∧ 0 < g.size ∧
      g.hopCounts 0 = .ok #[some 0, some 1, some 2, some 1, some 2, none] ∧
      ∃ visits levels, Yields g.breadthNext (BreadthState.start g.size 0) visits ∧
        g.hopCounts 0 = .ok levels ∧ levels.size = g.size ∧
        ∀ v < g.size, (∀ k, levels[v]? = some (some k) ↔ g.IsHopCount 0 v k) ∧
          (levels[v]? = some none ↔ ¬ g.Reachable 0 v) := by
  intro entry g
  have hg : g.WellFormed := by decide
  have hs : 0 < g.size := by decide
  exact ⟨hg, hs, by cbv, exists_hopCounts_isHopCount hg hs⟩

end Adjacency

end WeightedGraph
