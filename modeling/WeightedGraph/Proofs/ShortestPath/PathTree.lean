import Mathlib
import WeightedGraph.Proofs.IndexSet.Insertion
import WeightedGraph.Proofs.Search.Traces
import WeightedGraph.Proofs.ShortestPath.Settling
import WeightedGraph.Weight.Binary

/-!
The predecessors form a tree, whatever the weights.

Distances say nothing about the order in which vertices are settled when weights may be negative or
no numbers. What orders them is that a predecessor is settled when it is written down, and that
nothing is written down for a settled vertex.

* `Adjacency.Branch`: the path that the predecessors give, from the source to a vertex. All vertices
  before the last one are settled, so no later shorter distance changes it (`Branch.record`), and it
  can be extended by a vertex that is not settled (`Branch.extend`).
* `Tables.Rooted`: every vertex that is reached has a branch, and whatever a settled vertex leads to
  is reached. `Rooted.settleCandidate` is one step of the search.
* `ShortestPathTree.IsPathTree`: what a reader of the result may rely on.
* `Adjacency.exists_shortestPathTree_isPathTree`: every search gives such a tree.
-/

namespace WeightedGraph

variable {W : Type} [Weight W] {g : Adjacency W} {t t' : Tables W} {source u v x : Vertex}
  {path : List Vertex} {c : Candidate W} {e : Entry W} {d base : W} {n : Nat}

namespace Adjacency

/-- `g.Branch source t v path` says that the predecessors lead from `v` back to the source, along
entries each of which gives the distance of the vertex after it by that of the one before. The
vertices before `v` are settled, and none is passed twice. -/
inductive Branch (g : Adjacency W) (source : Vertex) (t : Tables W) : Vertex → List Vertex → Prop
  | root : t.distanceOf source = some 0 → t.predecessor.get source = none →
      Branch g source t source [source]
  | step {u : Vertex} {e : Entry W} {d : W} {path : List Vertex} : Branch g source t u path →
      t.settled.contains u = true → e ∈ g.row u → t.distanceOf u = some d →
      t.distanceOf e.target = some (d + e.weight) → t.predecessor.get e.target = some u →
      e.target ∉ path → Branch g source t e.target (path ++ [e.target])

namespace Branch

lemma mem_self (h : g.Branch source t v path) : v ∈ path := by
  cases h with
  | root => exact List.mem_singleton_self _
  | step => exact List.mem_append_right _ (List.mem_singleton_self _)

lemma nodup (h : g.Branch source t v path) : path.Nodup := by
  induction h with
  | root => exact List.nodup_singleton _
  | step _ _ _ _ _ _ hnot ih => exact List.nodup_append.2 ⟨ih, List.nodup_singleton _, by
      rintro u hu _ (_ | ⟨_, ⟨⟩⟩) rfl
      exact hnot hu⟩

lemma traces (h : g.Branch source t v path) : t.predecessor.Traces v path := by
  induction h with
  | root _ hpred => exact .stop hpred
  | step _ _ _ _ _ hpred _ ih => exact .step hpred ih

lemma settled (h : g.Branch source t v path) (hu : u ∈ path) (hne : u ≠ v) :
    t.settled.contains u = true := by
  induction h with
  | root => exact absurd (List.mem_singleton.1 hu) hne
  | @step x e d path _ hx _ _ _ _ _ ih =>
      rcases List.mem_append.1 hu with hu | hu
      · by_cases hux : u = x
        · exact hux ▸ hx
        · exact ih hu hux
      · exact absurd (List.mem_singleton.1 hu) hne

/-- The path follows a walk, and the distance of its last vertex is the sum of the weights on that
walk, added from left to right. -/
lemma exists_walk (h : g.Branch source t v path) :
    ∃ es, g.Walk source es v ∧ path = source :: es.map Entry.target ∧
      t.distanceOf v = some (es.foldl (fun d e => d + e.weight) 0) := by
  induction h with
  | root hd _ => exact ⟨[], .nil _, rfl, hd⟩
  | @step u e d path _ _ he hd hd' _ _ ih =>
      obtain ⟨es, hes, hpath, hsum⟩ := ih
      obtain rfl : d = _ := Option.some.inj (hd.symm.trans hsum)
      refine ⟨es ++ [e], hes.snoc he, ?_, ?_⟩
      · rw [hpath, List.map_append]
        rfl
      · rw [hd', List.foldl_append]
        rfl

lemma source_eq (h : g.Branch source t v path) :
    t.distanceOf source = some 0 ∧ t.predecessor.get source = none := by
  induction h with
  | root hd hpred => exact ⟨hd, hpred⟩
  | step _ _ _ _ _ _ _ ih => exact ih

lemma mark (h : g.Branch source t v path) (hn : t.Fits n) (hu : u < n) :
    g.Branch source (t.mark u) v path := by
  induction h with
  | root hd hpred => exact .root hd hpred
  | step _ hx he hd hd' hpred hnot ih =>
      refine .step ih ?_ he hd hd' hpred hnot
      rw [Tables.contains_mark hn hu, hx, Bool.true_or]

/-- A distance written down for a vertex off the path leaves the path as it is. -/
lemma record (h : g.Branch source t x path) (hv : v < t.distance.size) (hnot : v ∉ path)
    (u : Vertex) (d : W) : g.Branch source (t.record u v d) x path := by
  induction h with
  | root hd hpred =>
      have hne : source ≠ v := fun h => hnot (List.mem_singleton.2 h.symm)
      refine .root ?_ ?_
      · rw [Tables.distanceOf_record hv, if_neg hne, hd]
      · rw [Tables.record, Predecessors.get_set, if_neg fun h => hne h.1.symm, hpred]
  | @step y e d' path hbranch hy he hd hd' hpred hfresh ih =>
      rw [List.mem_append, List.mem_singleton, not_or] at hnot
      have hne : e.target ≠ v := Ne.symm hnot.2
      have hyne : y ≠ v := fun h => hnot.1 (h ▸ hbranch.mem_self)
      refine .step (d := d') (ih hnot.1) hy he ?_ ?_ ?_ hfresh
      · rw [Tables.distanceOf_record hv, if_neg hyne, hd]
      · rw [Tables.distanceOf_record hv, if_neg hne, hd']
      · rw [Tables.record, Predecessors.get_set, if_neg fun h => hnot.2 h.1, hpred]

/-- The path of a settled vertex, extended by an entry of it. -/
lemma extend (h : g.Branch source t u path) (ht : t.Fits n) (hu : t.settled.contains u = true)
    (he : e ∈ g.row u) (hd : t.distanceOf u = some d) (hlt : e.target < n)
    (hs : t.settled.contains e.target = false) :
    g.Branch source (t.record u e.target (d + e.weight)) e.target (path ++ [e.target]) := by
  have hsize : e.target < t.distance.size := ht.distance_size.symm ▸ hlt
  have hne : u ≠ e.target := fun h => Bool.false_ne_true (hs.symm.trans (h ▸ hu))
  have hnot : e.target ∉ path := fun hmem =>
    Bool.false_ne_true (hs.symm.trans (h.settled hmem hne.symm))
  refine .step (d := d) (h.record hsize hnot u _) hu he ?_ ?_ ?_ hnot
  · rw [Tables.distanceOf_record hsize, if_neg hne, hd]
  · rw [Tables.distanceOf_record hsize, if_pos rfl]
  · rw [Tables.record, Predecessors.get_set, if_pos ⟨rfl, ht.predecessor_size.symm ▸ hlt⟩]

end Branch

end Adjacency

/-! ### What is reached -/

namespace Tables

/-- Some distance of the vertex is in the tables. -/
def Reached (t : Tables W) (v : Vertex) : Prop :=
  ∃ d, t.distanceOf v = some d

omit [Weight W] in
lemma Reached.record (h : t.Reached x) (hv : v < t.distance.size) (u : Vertex) (d : W) :
    (t.record u v d).Reached x := by
  rw [Reached, distanceOf_record hv]
  by_cases hx : x = v
  · exact ⟨d, if_pos hx⟩
  · rwa [if_neg hx]

lemma Reached.relax {es : List (Entry W)} (h : t.Reached x) (hn : t.Fits n)
    (hes : ∀ e ∈ es, e.target < n) : (relax u base es t).1.Reached x := by
  refine (relax_induction' (P := fun t => t.Fits n ∧ t.Reached x) ⟨hn, h⟩ ?_).2
  rintro t e he ⟨hn', h'⟩ -
  exact ⟨hn'.record .., h'.record (hn'.distance_size.symm ▸ hes e he) ..⟩

/-- After the entries of a vertex were tried, each of them leads to a vertex that is reached, if it
leads to one that is not settled. -/
lemma reached_relax {es : List (Entry W)} (hn : t.Fits n) (hes : ∀ e ∈ es, e.target < n)
    (he : e ∈ es) (hs : t.settled.contains e.target = false) :
    (relax u base es t).1.Reached e.target := by
  induction es generalizing t with
  | nil => exact absurd he List.not_mem_nil
  | cons f es ih =>
      have hrest : ∀ e ∈ es, e.target < n := fun e he => hes e (List.mem_cons_of_mem f he)
      have hf : f.target < t.distance.size :=
        hn.distance_size.symm ▸ hes f List.mem_cons_self
      by_cases himp : t.Improves base f
      · rw [relax_cons_of_improves himp]
        rcases List.mem_cons.1 he with rfl | he
        · have hnew : (t.record u e.target (base + e.weight)).Reached e.target :=
            ⟨base + e.weight, by rw [distanceOf_record hf, if_pos rfl]⟩
          exact hnew.relax (hn.record ..) hrest
        · exact ih (hn.record ..) hrest he hs
      · rw [relax_cons_of_not_improves himp]
        rcases List.mem_cons.1 he with rfl | he
        · -- an entry that does not improve a distance leads where there is one
          cases hd : t.distanceOf e.target with
          | none => exact absurd ⟨hs, by rw [hd]; rfl⟩ himp
          | some d => exact Reached.relax ⟨d, hd⟩ hn hrest
        · exact ih hn hrest he hs

/-- Every vertex that is reached has a branch, and no other has a predecessor. -/
structure Rooted (g : Adjacency W) (source : Vertex) (t : Tables W) : Prop where
  fits : t.Fits g.size
  source_reached : t.Reached source
  branch : ∀ v, t.Reached v → ∃ path, g.Branch source t v path
  get_eq_none : ∀ v, ¬ t.Reached v → t.predecessor.get v = none

namespace Rooted

lemma start (hs : source < g.size) : Rooted g source (start g.size source : Tables W) where
  fits := fits_start g.size source
  source_reached := ⟨0, by rw [distanceOf_start hs, if_pos rfl]⟩
  branch v hv := by
    obtain ⟨d, hd⟩ := hv
    rw [distanceOf_start hs] at hd
    obtain rfl : v = source := by
      by_contra hne
      rw [if_neg hne] at hd
      cases hd
    exact ⟨[v], .root (by rw [distanceOf_start hs, if_pos rfl]) (Predecessors.get_none g.size v)⟩
  get_eq_none v _ := Predecessors.get_none g.size v

lemma mark (h : Rooted g source t) (hu : u < g.size) : Rooted g source (t.mark u) where
  fits := h.fits.mark u
  source_reached := h.source_reached
  branch v hv := by
    obtain ⟨path, hpath⟩ := h.branch v hv
    exact ⟨path, hpath.mark h.fits hu⟩
  get_eq_none := h.get_eq_none

/-- A distance by an entry of a settled vertex gives a branch to the vertex it is written down for,
and leaves those of the others, on which that vertex does not lie. -/
lemma record (h : Rooted g source t) (hu : t.settled.contains u = true)
    (hd : t.distanceOf u = some d) (he : e ∈ g.row u) (hlt : e.target < g.size)
    (hs : t.settled.contains e.target = false) :
    Rooted g source (t.record u e.target (d + e.weight)) := by
  have hsize : e.target < t.distance.size := h.fits.distance_size.symm ▸ hlt
  refine ⟨h.fits.record .., h.source_reached.record hsize .., fun v hv => ?_, fun v hv => ?_⟩
  · by_cases hve : v = e.target
    · subst hve
      obtain ⟨path, hpath⟩ := h.branch u ⟨d, hd⟩
      exact ⟨_, hpath.extend h.fits hu he hd hlt hs⟩
    · rw [Reached, distanceOf_record hsize, if_neg hve] at hv
      obtain ⟨path, hpath⟩ := h.branch v hv
      refine ⟨path, hpath.record hsize (fun hmem => ?_) u _⟩
      exact Bool.false_ne_true (hs.symm.trans (hpath.settled hmem (Ne.symm hve)))
  · rw [Reached, distanceOf_record hsize] at hv
    have hve : v ≠ e.target := fun h => hv ⟨_, if_pos h⟩
    rw [if_neg hve] at hv
    rw [Tables.record, Predecessors.get_set, if_neg fun h => hve h.1.symm]
    exact h.get_eq_none v hv

lemma settleCandidate (h : Rooted g source t) (hg : g.WellFormed) (hc : t.Awaits c) :
    Rooted g source (g.settleCandidate t c).1 := by
  have hlt : c.vertex < g.size := h.fits.lt hc.2
  have hmark : (t.mark c.vertex).settled.contains c.vertex = true := by
    rw [contains_mark h.fits hlt, decide_eq_true rfl, Bool.or_true]
  refine (Adjacency.settleCandidate_induction (P := fun t => Rooted g source t ∧
    t.settled.contains c.vertex = true ∧ t.distanceOf c.vertex = some c.distance)
    ⟨h.mark hlt, hmark, hc.2⟩ ?_).1
  rintro t e he ⟨h', hu, hd⟩ ⟨hs, -⟩
  have hne : c.vertex ≠ e.target := fun h => Bool.false_ne_true (hs.symm.trans (h ▸ hu))
  have hsize : e.target < t.distance.size := h'.fits.distance_size.symm ▸ hg _ e he
  exact ⟨h'.record hu hd he (hg _ e he) hs, hu, by rw [distanceOf_record hsize, if_neg hne, hd]⟩

/-- Whatever lies on a branch is a vertex. -/
lemma lt_of_mem (h : Rooted g source t) (hpath : g.Branch source t v path) (hu : u ∈ path) :
    u < g.size := by
  by_cases huv : u = v
  · obtain ⟨es, -, -, hd⟩ := hpath.exists_walk
    exact h.fits.lt (huv ▸ hd)
  · exact h.fits.settled_capacity ▸ IndexSet.lt_capacity_of_contains (hpath.settled hu huv)

end Rooted

/-- Settled vertices are reached, and so are their neighbours. -/
structure Spread (g : Adjacency W) (t : Tables W) : Prop where
  reached : ∀ v, t.settled.contains v = true → t.Reached v
  leads_reached : ∀ u v, t.settled.contains u = true → g.Leads u v → t.Reached v

namespace Spread

lemma start : Spread g (start g.size source : Tables W) where
  reached v hv := absurd hv (Bool.eq_false_iff.1 (contains_start source v))
  leads_reached u _ hu := absurd hu (Bool.eq_false_iff.1 (contains_start source u))

lemma settleCandidate (h : Spread g t) (hg : g.WellFormed) (ht : t.Fits g.size)
    (hc : t.Awaits c) : Spread g (g.settleCandidate t c).1 := by
  have hkeep : ∀ v, t.Reached v → (g.settleCandidate t c).1.Reached v := fun v hv =>
    Reached.relax (t := t.mark c.vertex) hv (ht.mark _) (hg _)
  have hreached : ∀ v, (g.settleCandidate t c).1.settled.contains v = true →
      (g.settleCandidate t c).1.Reached v := by
    intro v hv
    rcases (Adjacency.contains_settleCandidate ht hc).1 hv with hv | rfl
    · exact hkeep v (h.reached v hv)
    · exact hkeep _ ⟨c.distance, hc.2⟩
  refine ⟨hreached, fun u v hu huv => ?_⟩
  rcases (Adjacency.contains_settleCandidate ht hc).1 hu with hu | rfl
  · exact hkeep v (h.leads_reached u v hu huv)
  · obtain ⟨e, he, rfl⟩ := huv
    cases hs : (t.mark c.vertex).settled.contains e.target with
    | false => exact reached_relax (ht.mark _) (hg _) he hs
    | true =>
        refine hreached _ ?_
        rw [Adjacency.settleCandidate, settled_relax]
        exact hs

end Spread

/-- When no vertex awaits any more, what is reached is what walks from the source lead to. -/
lemma reached_iff (h : Rooted g source t) (hspread : Spread g t) (hend : ∀ c, ¬ t.Awaits c) :
    t.Reached v ↔ g.Reachable source v := by
  constructor
  · intro hv
    obtain ⟨path, hpath⟩ := h.branch v hv
    obtain ⟨es, hes, -, -⟩ := hpath.exists_walk
    exact ⟨es, hes⟩
  · rintro ⟨es, hes⟩
    refine hes.of_closed h.source_reached fun x hx e he => ?_
    obtain ⟨d, hd⟩ := hx
    have hsettled : t.settled.contains x = true := by
      by_contra hs
      exact hend ⟨d, x⟩ ⟨eq_false_of_ne_true hs, hd⟩
    exact hspread.leads_reached x _ hsettled (Adjacency.leads_of_mem he)

end Tables

/-! ### The result of a search -/

/-- The distances and predecessors are those of a tree of paths from the source. -/
structure ShortestPathTree.IsPathTree (p : ShortestPathTree W) (g : Adjacency W) : Prop where
  /-- A vertex has a distance if and only if a walk leads to it. -/
  exists_distance_iff : ∀ v, (∃ d, p.distance? v = some (some d)) ↔ g.Reachable p.source v
  /-- From a vertex with a distance the steps back come to an end. They pass no vertex twice, and
  they pass, from the source on, the vertices of a walk whose weights add up to the distance. -/
  exists_path : ∀ v, g.Reachable p.source v → ∃ path, p.predecessor.Traces v path ∧
    p.pathTo? v = some path ∧ path.Nodup ∧ ∃ es, g.Walk p.source es v ∧
      path = p.source :: es.map Entry.target ∧
      p.distance? v = some (some (es.foldl (fun d e => d + e.weight) 0))
  pathTo?_eq_none : ∀ v, ¬ g.Reachable p.source v → p.pathTo? v = none
  /-- The source alone among the vertices with a distance has no predecessor. -/
  predecessor?_eq_none_iff :
    ∀ v, p.predecessor? v = none ↔ v = p.source ∨ ¬ g.Reachable p.source v
  /-- The distance of a vertex is that of its predecessor and one entry more. -/
  exists_entry : ∀ u v, p.predecessor? v = some u → ∃ e ∈ g.row u, e.target = v ∧
    ∃ d, p.distance? u = some (some d) ∧ p.distance? v = some (some (d + e.weight))

namespace Tables

/-- What a branch says of the predecessor of its last vertex. -/
lemma exists_entry_of_branch (h : g.Branch source t v path) (hu : t.predecessor.get v = some u) :
    ∃ e ∈ g.row u, e.target = v ∧ ∃ d, t.distanceOf u = some d ∧
      t.distanceOf v = some (d + e.weight) := by
  cases h with
  | root _ hpred => exact absurd (hpred.symm.trans hu) (by simp)
  | @step x e d path _ _ he hd hd' hpred _ =>
      obtain rfl : x = u := Option.some.inj (hpred.symm.trans hu)
      exact ⟨e, he, rfl, d, hd, hd'⟩

theorem isPathTree_of_rooted (h : Rooted g source t) (hspread : Spread g t)
    (hend : ∀ c, ¬ t.Awaits c) :
    (⟨source, t.distance, t.predecessor⟩ : ShortestPathTree W).IsPathTree g := by
  set p : ShortestPathTree W := ⟨source, t.distance, t.predecessor⟩ with hp
  have hread : ∀ v d, p.distance? v = some (some d) ↔ t.distanceOf v = some d := by
    intro v d
    rw [ShortestPathTree.distance?, distanceOf, Array.getD_eq_getD_getElem?]
    show t.distance[v]? = some (some d) ↔ t.distance[v]?.getD none = some d
    cases t.distance[v]? <;> simp
  have hiff : ∀ v, (∃ d, p.distance? v = some (some d)) ↔ g.Reachable source v := fun v =>
    (exists_congr fun d => hread v d).trans (reached_iff h hspread hend)
  have hisReachable : ∀ v, p.isReachable v = true ↔ g.Reachable source v := by
    intro v
    rw [← reached_iff h hspread hend, Reached, ← Option.isSome_iff_exists]
    rfl
  refine ⟨hiff, fun v hv => ?_, fun v hv => ?_, fun v => ?_, fun u v hu => ?_⟩
  · obtain ⟨path, hpath⟩ := h.branch v ((reached_iff h hspread hend).2 hv)
    obtain ⟨es, hes, heq, hsum⟩ := hpath.exists_walk
    refine ⟨path, hpath.traces, ?_, hpath.nodup, es, hes, heq, (hread v _).2 hsum⟩
    rw [ShortestPathTree.pathTo?, if_pos ((hisReachable v).2 hv)]
    refine congrArg some (hpath.traces.pathTo_eq hpath.nodup fun u hu => ?_)
    exact h.fits.predecessor_size.symm ▸ h.lt_of_mem hpath hu
  · rw [ShortestPathTree.pathTo?, if_neg fun hr => hv ((hisReachable v).1 hr)]
  · constructor
    · intro hnone
      by_contra hno
      obtain ⟨hne, hv⟩ := not_or.1 hno
      obtain ⟨path, hpath⟩ := h.branch v ((reached_iff h hspread hend).2 (not_not.1 hv))
      cases hpath with
      | root => exact hne rfl
      | step _ _ _ _ _ hpred _ => exact absurd (hpred.symm.trans hnone) (by simp)
    · rintro (rfl | hv)
      · obtain ⟨path, hpath⟩ := h.branch _ h.source_reached
        exact hpath.source_eq.2
      · exact h.get_eq_none v fun hr => hv ((reached_iff h hspread hend).1 hr)
  · have hreached : t.Reached v := by
      by_contra hr
      exact absurd ((h.get_eq_none v hr).symm.trans hu) (by simp)
    obtain ⟨path, hpath⟩ := h.branch v hreached
    obtain ⟨e, he, hev, d, hd, hd'⟩ := exists_entry_of_branch hpath hu
    exact ⟨e, he, hev, d, (hread u d).2 hd, (hread v _).2 hd'⟩

end Tables

namespace Adjacency

/-- The tables at the end of a search are those of a tree, whatever the weights and the frontier. -/
lemma exists_finalTables_rooted (hg : g.WellFormed) (hs : source < g.size) (frontier : Frontier) :
    ∃ t t', g.finalTables source frontier = .ok t ∧ Tables.Rooted g source t' ∧
      Tables.Spread g t' ∧ (∀ c, ¬ t'.Awaits c) ∧ t.distance = t'.distance ∧
      t.predecessor = t'.predecessor := by
  obtain ⟨t, t', ht, hsettles, hend, hdist, hpred⟩ := exists_finalTables_settles hg hs frontier
  obtain ⟨hrooted, hspread⟩ := hsettles.induction
    (P := fun t => Tables.Rooted g source t ∧ Tables.Spread g t) ⟨.start hs, .start⟩
    fun t c ht hc => ⟨ht.1.settleCandidate hg hc, ht.2.settleCandidate hg ht.1.fits hc⟩
  exact ⟨t, t', ht, hrooted, hspread, hend, hdist, hpred⟩

/-- Whatever the weights and the frontier, the search gives a tree of paths from its source. -/
theorem exists_shortestPathTree_isPathTree (hg : g.WellFormed) (hs : source < g.size)
    (frontier : Frontier) :
    ∃ p, g.shortestPathTree source frontier = .ok p ∧ p.source = source ∧ p.IsPathTree g := by
  obtain ⟨t, t', ht, hrooted, hspread, hend, hdist, hpred⟩ :=
    exists_finalTables_rooted hg hs frontier
  refine ⟨_, shortestPathTree_of_lt hs ht, rfl, ?_⟩
  rw [hdist, hpred]
  exact Tables.isPathTree_of_rooted hrooted hspread hend

/-- A NaN, both infinities and a negative weight, on parallel entries, a loop and a cycle, and two
vertices that cannot be reached. The NaN is the distance of the vertex `1`, since nothing is shorter
than it, and the negative cycle through `2` and `3` ends at the source. -/
theorem exists_shortestPathTree_isPathTree_nan :
    let entry (v : Vertex) (bits : Nat) : Entry (Binary .single) := ⟨v, .ofBits .single bits⟩
    let one := 0x3f800000
    let minusOne := 0xbf800000
    let infinite := 0x7f800000
    let minusInfinite := 0xff800000
    let nan := 0x7fc00000
    let g : Adjacency (Binary .single) :=
      ⟨#[[entry 1 nan, entry 1 one, entry 2 minusOne, entry 2 infinite], [entry 3 one],
        [entry 2 minusOne, entry 3 minusInfinite], [entry 0 minusOne, entry 2 minusOne],
        [entry 0 nan, entry 5 one], []]⟩
    g.WellFormed ∧ 0 < g.size ∧ ∃ p, g.shortestPathTree 0 .queue = .ok p ∧ p.source = 0 ∧
      p.IsPathTree g := by
  intro entry one minusOne infinite minusInfinite nan g
  have hg : g.WellFormed := by decide
  have hs : 0 < g.size := by decide
  exact ⟨hg, hs, exists_shortestPathTree_isPathTree hg hs _⟩

end Adjacency

end WeightedGraph
