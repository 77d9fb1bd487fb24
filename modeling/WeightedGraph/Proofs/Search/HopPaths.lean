import Mathlib
import WeightedGraph.Proofs.Search.HopCounts
import WeightedGraph.Proofs.Search.Traces

/-!
The paths that a breadth-first search writes down have the fewest entries and agree with each other.

* `Adjacency.Ascends`: every vertex found has a vertex found before it, on the level before its own.
  A visit preserves this (`Ascends.recordPredecessor`), hence a run does (`Sweeps.ascends`).
* `Ascends.exists_traces`: so the predecessors lead back to the root, by way of every level.
* `exists_before`: the search that ends before it visits its goal makes the same visits as the
  search without a goal, as far as it goes.
* `Sweeps.get_eq`: what stands before a vertex that is found never changes. So all goals have their
  paths in one table, that of the search without a goal (`exists_hopPaths`).
* `Adjacency.IsHopPath`: all that is to say of the path to a goal.
  `Adjacency.exists_hopPath?_isHopPath` says it of every search.
-/

namespace WeightedGraph

namespace Adjacency

variable {W : Type} {g : Adjacency W} {found found' : IndexSet} {visit : Visit}
  {visits : List Visit} {t : Predecessors} {path : List Vertex} {s : BreadthState}
  {root goal u v x : Vertex} {k : Nat}

/-! ### The table of predecessors -/

/-- The root is found and has no vertex before it. Before every other vertex that is found stands
one that leads to it, on the level before. -/
structure Ascends (g : Adjacency W) (root : Vertex) (found : IndexSet) (t : Predecessors) :
    Prop where
  size_eq : t.size = g.size
  root_found : found.contains root = true
  get_root : t.get root = none
  exists_get : ∀ v, found.contains v = true → v ≠ root → ∃ u k, t.get v = some u ∧
    found.contains u = true ∧ g.Leads u v ∧ g.IsHopCount root u k ∧ g.IsHopCount root v (k + 1)

namespace Ascends

/-- In the beginning only the root is found. -/
lemma start (hs : root < g.size) :
    g.Ascends root ((IndexSet.empty g.size).insert root) (Predecessors.none g.size) where
  size_eq := Array.size_replicate
  root_found := IndexSet.contains_insert_self hs
  get_root := Predecessors.get_none g.size root
  exists_get v hv hne := by
    rw [IndexSet.contains_insert_iff hs, IndexSet.contains_empty] at hv
    exact absurd (hv.resolve_left Bool.false_ne_true) hne

/-- A visit writes the visited vertex before what it finds. -/
lemma recordPredecessor (h : g.Ascends root found t) (ha : g.Advances root k found visit found') :
    g.Ascends root found' (WeightedGraph.recordPredecessor t visit) where
  size_eq := (size_recordPredecessor t visit).trans h.size_eq
  root_found := (ha.contains_iff root).2 (Or.inl h.root_found)
  get_root := by
    have hroot : root ∉ visit.found := fun hmem =>
      Bool.false_ne_true ((ha.contains_eq_false root hmem).symm.trans h.root_found)
    rw [get_recordPredecessor, if_neg fun hmem => hroot hmem.1, h.get_root]
  exists_get v hv hne := by
    rw [get_recordPredecessor, h.size_eq]
    by_cases hmem : v ∈ visit.found
    · refine ⟨visit.vertex, k, if_pos ⟨hmem, ha.lt_size v hmem⟩, ?_, ha.leads v hmem,
        ha.isHopCount, ha.isHopCount_succ v hmem⟩
      exact (ha.contains_iff _).2 (Or.inl ha.vertex_found)
    · obtain ⟨u, j, hget, hu, huv, hj, hj'⟩ :=
        h.exists_get v (((ha.contains_iff v).1 hv).resolve_right hmem) hne
      refine ⟨u, j, ?_, (ha.contains_iff u).2 (Or.inl hu), huv, hj, hj'⟩
      rw [if_neg fun h => hmem h.1, hget]

end Ascends

/-- Along a run every vertex found stays one level behind another. -/
lemma Sweeps.ascends (h : g.Sweeps root found visits found') (ht : g.Ascends root found t) :
    g.Ascends root found' (visits.foldl recordPredecessor t) := by
  induction h generalizing t with
  | nil => exact ht
  | cons ha _ ih => exact ih (ht.recordPredecessor ha)

/-- What stands before a vertex that is found does not change any more. -/
lemma Sweeps.get_eq (h : g.Sweeps root found visits found') (hx : found.contains x = true) :
    (visits.foldl recordPredecessor t).get x = t.get x := by
  induction h generalizing t with
  | nil => rfl
  | @cons found found₁ found' visit visits k ha _ ih =>
      have hnew : x ∉ visit.found := fun hmem =>
        Bool.false_ne_true ((ha.contains_eq_false x hmem).symm.trans hx)
      rw [List.foldl_cons, ih ((ha.contains_iff x).2 (Or.inl hx)), get_recordPredecessor,
        if_neg fun h => hnew h.1]

/-! ### The way back -/

/-- A way from the root to a vertex that goes one level further with each entry, through vertices
that are found. -/
structure Climbs (g : Adjacency W) (root : Vertex) (found : IndexSet) (v : Vertex)
    (path : List Vertex) : Prop where
  head?_eq : path.head? = some root
  getLast?_eq : path.getLast? = some v
  isChain : path.IsChain g.Leads
  nodup : path.Nodup
  isHopCount : g.IsHopCount root v (path.length - 1)
  contains : ∀ x ∈ path, found.contains x = true
  isHopCount_le : ∀ x ∈ path, ∃ j ≤ path.length - 1, g.IsHopCount root x j

/-- One entry more leads to the next level. -/
lemma Climbs.snoc (h : g.Climbs root found u path) (huv : g.Leads u v)
    (hv : found.contains v = true) (hk : g.IsHopCount root v path.length) :
    g.Climbs root found v (path ++ [v]) := by
  have hnil : path ≠ [] := by
    rintro rfl
    exact nomatch h.head?_eq
  have hnot : v ∉ path := fun hmem => by
    obtain ⟨j, hj, hvj⟩ := h.isHopCount_le v hmem
    have hpos := List.length_pos_of_ne_nil hnil
    have heq := hvj.unique hk
    omega
  have hlen : (path ++ [v]).length - 1 = path.length := by simp
  refine ⟨?_, List.getLast?_concat, ?_, ?_, hlen ▸ hk, fun x hx => ?_, fun x hx => ?_⟩
  · rw [List.head?_append_of_ne_nil _ hnil, h.head?_eq]
  · refine List.isChain_append.2 ⟨h.isChain, List.isChain_singleton v, ?_⟩
    intro x hx y hy
    rw [h.getLast?_eq] at hx
    obtain rfl := Option.some.inj hx
    obtain rfl := Option.some.inj hy
    exact huv
  · exact List.nodup_append_comm.2 (List.nodup_cons.2 ⟨hnot, h.nodup⟩)
  · rcases List.mem_append.1 hx with hx | hx
    · exact h.contains x hx
    · exact List.mem_singleton.1 hx ▸ hv
  · rw [hlen]
    rcases List.mem_append.1 hx with hx | hx
    · obtain ⟨j, hj, hxj⟩ := h.isHopCount_le x hx
      exact ⟨j, by omega, hxj⟩
    · exact ⟨_, le_rfl, List.mem_singleton.1 hx ▸ hk⟩

/-- From a vertex that is found the predecessors lead back to the root, level by level. The induction
is on the level. -/
lemma Ascends.exists_traces (h : g.Ascends root found t) (hv : found.contains v = true)
    (hk : g.IsHopCount root v k) :
    ∃ path, t.Traces v path ∧ g.Climbs root found v path ∧ path.length = k + 1 := by
  induction k generalizing v with
  | zero =>
      obtain rfl := isHopCount_zero_iff.1 hk
      refine ⟨[root], .stop h.get_root, ⟨rfl, rfl, List.isChain_singleton root,
        List.nodup_singleton root, hk, fun x hx => ?_, fun x hx => ⟨0, le_rfl, ?_⟩⟩, rfl⟩
      · exact List.mem_singleton.1 hx ▸ hv
      · exact List.mem_singleton.1 hx ▸ hk
  | succ k ih =>
      have hne : v ≠ root := by
        rintro rfl
        exact absurd (hk.unique (isHopCount_self g v)) (Nat.succ_ne_zero k)
      obtain ⟨u, j, hget, hu, huv, hj, hj'⟩ := h.exists_get v hv hne
      obtain rfl : j = k := Nat.succ.inj (hj'.unique hk)
      obtain ⟨path, htrace, hclimbs, hlen⟩ := ih hu hj
      refine ⟨path ++ [v], .step hget htrace, hclimbs.snoc huv hv (hlen ▸ hk), ?_⟩
      rw [List.length_append, hlen, List.length_singleton]

/-! ### Searches that end before their goal -/

/-- The vertex that a step visits is the first that waits, and without one there is no step. -/
lemma head?_queue_eq {step : Option (Visit × BreadthState)} (h : g.breadthNext s = .ok step) :
    s.queue.head? = step.map fun result => result.1.vertex := by
  rw [breadthNext] at h
  cases hq : s.queue with
  | nil =>
      rw [hq] at h
      cases h
      rfl
  | cons v rest =>
      rw [hq] at h
      dsimp only at h
      cases hn : g.neighbours v with
      | error e =>
          rw [hn] at h
          cases h
      | ok us =>
          rw [hn] at h
          cases h
          rfl

/-- Until it comes to its goal the search makes the visits of the search without a goal. Either it
never comes there, or the goal is the next to visit when it ends. -/
lemma exists_before (h : Yields g.breadthNext s visits) (goal : Vertex) :
    ∃ before s', Yields (g.breadthNextBefore goal) s before ∧
      (∀ count, before.length ≤ count →
        takeSteps (g.breadthNextBefore goal) count s = .ok (before, s')) ∧
      (before = visits ∧ goal ∉ visits.map Visit.vertex ∧ s'.queue.head? ≠ some goal ∨
        ∃ visit after, visits = before ++ visit :: after ∧ visit.vertex = goal ∧
          s'.queue.head? = some goal) := by
  induction h with
  | @done s hs =>
      have hqueue : s.queue.head? ≠ some goal := by
        rw [head?_queue_eq hs]
        exact Option.some_ne_none goal ∘ Eq.symm
      have hnone : g.breadthNextBefore goal s = .ok none := (if_neg hqueue).trans hs
      exact ⟨[], s, .done hnone, fun count _ => takeSteps_of_none hnone count,
        Or.inl ⟨rfl, List.not_mem_nil, hqueue⟩⟩
  | @step s s₁ visit visits hs _ ih =>
      have hqueue : s.queue.head? = some visit.vertex := head?_queue_eq hs
      by_cases hgoal : visit.vertex = goal
      · have hqueue' : s.queue.head? = some goal := hqueue.trans (congrArg some hgoal)
        have hnone : g.breadthNextBefore goal s = .ok none := if_pos hqueue'
        exact ⟨[], s, .done hnone, fun count _ => takeSteps_of_none hnone count,
          Or.inr ⟨visit, visits, rfl, hgoal, hqueue'⟩⟩
      · have hsome : g.breadthNextBefore goal s = .ok (some (visit, s₁)) := by
          rw [breadthNextBefore, hqueue, if_neg fun h => hgoal (Option.some.inj h), hs]
        obtain ⟨before, s', hyields, hsteps, hend⟩ := ih
        refine ⟨visit :: before, s', .step hsome hyields, fun count hcount => ?_, ?_⟩
        · obtain ⟨count, rfl⟩ : ∃ c, count = c + 1 := ⟨count - 1, by
            rw [List.length_cons] at hcount
            omega⟩
          exact takeSteps_of_some hsome (hsteps count (Nat.le_of_succ_le_succ hcount))
        · rcases hend with ⟨rfl, hnot, hqueue'⟩ | ⟨visit', after, rfl, hgoal', hqueue'⟩
          · refine Or.inl ⟨rfl, fun hmem => ?_, hqueue'⟩
            rcases List.mem_cons.1 hmem with heq | hmem
            · exact hgoal heq.symm
            · exact hnot hmem
          · exact Or.inr ⟨visit', after, rfl, hgoal', hqueue'⟩

/-- Where a run of visits is cut in two, each part is a run. -/
lemma Sweeps.exists_of_append {before after : List Visit}
    (h : g.Sweeps root found (before ++ after) found') :
    ∃ found₁, g.Sweeps root found before found₁ ∧ g.Sweeps root found₁ after found' := by
  induction before generalizing found with
  | nil => exact ⟨found, .nil found, h⟩
  | cons visit before ih =>
      cases h with
      | cons ha hrest =>
          obtain ⟨found₁, hbefore, hafter⟩ := ih hrest
          exact ⟨found₁, .cons ha hbefore, hafter⟩

/-- All goals have their paths in one table. Each search writes a part of it, and ends, and finds a
path if and only if a walk leads to its goal. -/
lemma exists_hopPaths (hg : g.WellFormed) (hs : root < g.size) :
    ∃ t : Predecessors, ∀ goal < g.size, ∃ visits,
      Yields (g.breadthNextBefore goal) (BreadthState.start g.size root) visits ∧
      (¬ g.Reachable root goal ∧ g.hopPath? root goal = .ok none ∨
        ∃ found path, g.hopPath? root goal = .ok (some path) ∧ g.Climbs root found goal path ∧
          (visits.foldl recordPredecessor (Predecessors.none g.size)).Traces goal path ∧
          t.Traces goal path) := by
  obtain ⟨visits, found', hyields, hsweeps, hlen, hvisited, -⟩ := exists_sweeps hg hs
  refine ⟨visits.foldl recordPredecessor (Predecessors.none g.size), fun goal hgoal => ?_⟩
  obtain ⟨before, s', hbefore, hsteps, hend⟩ := exists_before hyields goal
  refine ⟨before, hbefore, ?_⟩
  rcases hend with ⟨rfl, hnot, hqueue⟩ | ⟨visit, after, rfl, rfl, hqueue⟩
  · refine Or.inl ⟨fun hreach => hnot ((hvisited goal).2 hreach), ?_⟩
    rw [hopPath?, if_pos hgoal, hsteps g.size hlen]
    exact congrArg Except.ok (if_neg hqueue)
  · -- the goal is found when the search ends, so its trace is there and stays
    obtain ⟨found₁, hsweeps₁, hrest⟩ := hsweeps.exists_of_append
    have hascends := hsweeps₁.ascends (.start hs)
    obtain ⟨hgoal', k, hk⟩ : found₁.contains visit.vertex = true ∧
        ∃ k, g.IsHopCount root visit.vertex k := by
      cases hrest with
      | cons ha _ => exact ⟨ha.vertex_found, _, ha.isHopCount⟩
    obtain ⟨path, htrace, hclimbs, -⟩ := hascends.exists_traces hgoal' hk
    refine Or.inr ⟨found₁, path, ?_, hclimbs, htrace, ?_⟩
    · have hlt : ∀ x ∈ path, x < (before.foldl recordPredecessor (Predecessors.none g.size)).size :=
        fun x hx => by
          obtain ⟨j, -, hj⟩ := hclimbs.isHopCount_le x hx
          exact hascends.size_eq.symm ▸ hj.reachable.lt_size hg hs
      have hpath := htrace.pathTo_eq hclimbs.nodup hlt
      rw [List.length_append] at hlen
      rw [hopPath?, if_pos hgoal, hsteps g.size (by omega), ← hpath]
      exact congrArg Except.ok (if_pos hqueue)
    · rw [List.foldl_append]
      exact htrace.congr fun x hx => hrest.get_eq (hclimbs.contains x hx)

/-! ### The path to a goal -/

/-- A path with the fewest entries from `root` to `goal`, of which every beginning is the path to the
vertex where it ends. -/
structure IsHopPath (g : Adjacency W) (root goal : Vertex) (path : List Vertex) : Prop where
  head?_eq : path.head? = some root
  getLast?_eq : path.getLast? = some goal
  isChain : path.IsChain g.Leads
  isHopCount : g.IsHopCount root goal (path.length - 1)
  /-- The number of entries on the path is the one in the table of all distances. -/
  hopCounts : ∃ levels, g.hopCounts root = .ok levels ∧
    levels[goal]? = some (some (path.length - 1))
  hopPath?_of_prefix : ∀ before x, before ++ [x] <+: path →
    g.hopPath? root x = .ok (some (before ++ [x]))

/-- The search for a path to a vertex ends, and so does the way back that it reads the path off. It
finds a path if and only if a walk leads there. -/
theorem exists_hopPath?_isHopPath (hg : g.WellFormed) (hs : root < g.size)
    (hgoal : goal < g.size) :
    ∃ visits answer, Yields (g.breadthNextBefore goal) (BreadthState.start g.size root) visits ∧
      g.hopPath? root goal = .ok answer ∧ (answer = none ↔ ¬ g.Reachable root goal) ∧
      ∀ path, answer = some path →
        (visits.foldl recordPredecessor (Predecessors.none g.size)).Traces goal path ∧
          g.IsHopPath root goal path := by
  obtain ⟨t, hpaths⟩ := exists_hopPaths hg hs
  obtain ⟨-, levels, -, hlevels, hsize, hcount⟩ := exists_hopCounts hg hs
  obtain ⟨visits, hyields, ⟨hreach, hnone⟩ | ⟨found, path, hsome, hclimbs, htrace, htable⟩⟩ :=
    hpaths goal hgoal
  · exact ⟨visits, none, hyields, hnone, by simp [hreach], by simp⟩
  · refine ⟨visits, some path, hyields, hsome, by simp [hclimbs.isHopCount.reachable], ?_⟩
    rintro _ ⟨⟩
    have hlevel : levels[goal]? = some (some (path.length - 1)) := by
      rw [← (hcount goal _).2 hclimbs.isHopCount]
      simp [hsize.symm ▸ hgoal]
    refine ⟨htrace, hclimbs.head?_eq, hclimbs.getLast?_eq, hclimbs.isChain, hclimbs.isHopCount,
      ⟨levels, hlevels, hlevel⟩, fun before x hx => ?_⟩
    -- both paths are traces of the same table
    have hmem : x ∈ path := hx.subset (List.mem_append_right before (List.mem_singleton_self x))
    obtain ⟨j, -, hj⟩ := hclimbs.isHopCount_le x hmem
    obtain ⟨-, -, ⟨hnot, -⟩ | ⟨-, path', hsome', -, -, htable'⟩⟩ :=
      hpaths x (hj.reachable.lt_size hg hs)
    · exact absurd hj.reachable hnot
    · rw [hsome', (htable.of_prefix hx).unique htable']

/-- Two ways with as few entries lead to the vertex `4`, and a longer one to `3`. The search for `1`
ends before it finds `4`. -/
theorem exists_hopPath?_isHopPath_diamond :
    let entry (v : Vertex) : Entry (Saturating (IntRange.signed 32)) := ⟨v, 0⟩
    let g : Adjacency (Saturating (IntRange.signed 32)) :=
      ⟨#[[entry 1, entry 2, entry 1], [entry 4, entry 0], [entry 4, entry 2], [entry 1],
        [entry 3], [entry 0]]⟩
    g.WellFormed ∧ 0 < g.size ∧ 3 < g.size ∧ g.hopPath? 0 3 = .ok (some [0, 1, 4, 3]) ∧
      g.hopPath? 0 1 = .ok (some [0, 1]) ∧ g.hopPath? 0 5 = .ok none ∧
      ∃ visits answer, Yields (g.breadthNextBefore 3) (BreadthState.start g.size 0) visits ∧
        g.hopPath? 0 3 = .ok answer ∧ (answer = none ↔ ¬ g.Reachable 0 3) ∧
        ∀ path, answer = some path →
          (visits.foldl recordPredecessor (Predecessors.none g.size)).Traces 3 path ∧
            g.IsHopPath 0 3 path := by
  intro entry g
  have hg : g.WellFormed := by decide
  have hs : 0 < g.size := by decide
  have hgoal : 3 < g.size := by decide
  exact ⟨hg, hs, hgoal, by cbv, by cbv, by cbv, exists_hopPath?_isHopPath hg hs hgoal⟩

end Adjacency

end WeightedGraph
