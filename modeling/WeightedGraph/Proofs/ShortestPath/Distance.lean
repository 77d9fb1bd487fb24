import Mathlib
import WeightedGraph.Graph.Query
import WeightedGraph.Proofs.Adjacency.Walk
import WeightedGraph.Proofs.Graph.Filled
import WeightedGraph.Proofs.ShortestPath.Frontiers

/-!
The distances that the search finds are those of shortest walks.

* `Tables.AtMost`: a vertex is reached at no more than a given length. Trying entries keeps it and
  brings it about for each of them.
* `Tables.Attained`: every distance in the tables is the length of a walk, cut off at the greatest
  weight.
* `Tables.Closed`: no entry of a settled vertex leads anywhere on a shorter way, and the settled
  vertices are those nearest to the source. `Closed.settleNearest` is one step of the search.
* `Closed.atMost_walk`: when no vertex is left, no walk is shorter than the distance in the tables.
* `Adjacency.exists_shortestPathTree_distance`: without negative weights, the search finds all
  distances, and so it does in every filled graph.
-/

namespace WeightedGraph

namespace Tables

variable {r : IntRange} {g : Adjacency (Saturating r)} {t : Tables (Saturating r)} {n : Nat}
  {source u v x : Vertex} {base d : Saturating r} {es : List (Entry (Saturating r))}
  {e : Entry (Saturating r)} {c c' : Candidate (Saturating r)} {z z' : Int}

/-! ### Upper bounds -/

lemma shorter_iff {o : Distance (Saturating r)} :
    shorter d o = true ↔ ∀ d', o = some d' → d.val < d'.val := by
  cases o with
  | none => simp [shorter]
  | some d' => simp [shorter, Saturating.lt_iff]

/-- The vertex is reached at a distance of at most `z`. -/
def AtMost (t : Tables (Saturating r)) (v : Vertex) (z : Int) : Prop :=
  ∃ d, t.distanceOf v = some d ∧ d.val ≤ z

lemma AtMost.mono (h : t.AtMost v z) (hz : z ≤ z') : t.AtMost v z' := by
  obtain ⟨d, hd, hdz⟩ := h
  exact ⟨d, hd, hdz.trans hz⟩

lemma AtMost.record (h : t.AtMost x z) (hv : v < t.distance.size)
    (hd : shorter d (t.distanceOf v) = true) : (t.record u v d).AtMost x z := by
  obtain ⟨d', hd', hz⟩ := h
  by_cases hx : x = v
  · subst hx
    exact ⟨d, by rw [distanceOf_record hv, if_pos rfl],
      (shorter_iff.1 hd d' hd').le.trans hz⟩
  · exact ⟨d', by rw [distanceOf_record hv, if_neg hx, hd'], hz⟩

lemma atMost_record (hv : v < t.distance.size) : (t.record u v d).AtMost v d.val :=
  ⟨d, by rw [distanceOf_record hv, if_pos rfl], le_rfl⟩

lemma AtMost.relax (h : t.AtMost x z) (hn : t.Fits n) (hes : ∀ e ∈ es, e.target < n) :
    (relax u base es t).1.AtMost x z := by
  refine (relax_induction' (P := fun t => t.Fits n ∧ t.AtMost x z) ⟨hn, h⟩ ?_).2
  rintro t e he ⟨hn', h'⟩ himp
  exact ⟨hn'.record .., h'.record (hn'.distance_size.symm ▸ hes e he) himp.2⟩

/-- After the entries of a vertex were tried, none of them gives a shorter distance. -/
lemma atMost_relax (hn : t.Fits n) (hes : ∀ e ∈ es, e.target < n) (he : e ∈ es)
    (hs : t.settled.contains e.target = false) :
    (relax u base es t).1.AtMost e.target (base + e.weight).val := by
  induction es generalizing t with
  | nil => exact absurd he List.not_mem_nil
  | cons f es ih =>
      have hrest : ∀ e ∈ es, e.target < n := fun e he => hes e (List.mem_cons_of_mem f he)
      have hf : f.target < t.distance.size :=
        hn.distance_size.symm ▸ hes f List.mem_cons_self
      by_cases himp : t.Improves base f
      · rw [relax_cons_of_improves himp]
        rcases List.mem_cons.1 he with rfl | he
        · exact (atMost_record hf).relax (hn.record ..) hrest
        · exact ih (hn.record ..) hrest he hs
      · rw [relax_cons_of_not_improves himp]
        rcases List.mem_cons.1 he with rfl | he
        · have hreached : t.AtMost e.target (base + e.weight).val := by
            simpa [Improves, hs, shorter_iff, AtMost] using himp
          exact hreached.relax hn hrest
        · exact ih hn hrest he hs

/-! ### The distances are lengths of walks -/

/-- Every distance is the length of a walk from the source, cut off at the greatest weight; that of
the source is zero. -/
structure Attained (g : Adjacency (Saturating r)) (source : Vertex) (t : Tables (Saturating r)) :
    Prop where
  fits : t.Fits g.size
  source_eq : t.distanceOf source = some 0
  walk : ∀ v d, t.distanceOf v = some d →
    ∃ es, g.Walk source es v ∧ d.val = min (walkLength es) r.hi

namespace Attained

lemma start (hs : source < g.size) : Attained g source (start g.size source) where
  fits := fits_start g.size source
  source_eq := by rw [distanceOf_start hs, if_pos rfl]
  walk := by
    intro v d hd
    rw [distanceOf_start hs] at hd
    split at hd
    · obtain rfl : v = source := ‹_›
      obtain rfl : 0 = d := Option.some.inj hd
      exact ⟨[], .nil v, (min_eq_left r.hi_nonneg).symm⟩
    · exact absurd hd (by simp)

lemma nonneg (h : Attained g source t) (hg : g.NonNegative) (hd : t.distanceOf v = some d) :
    0 ≤ d.val := by
  obtain ⟨es, hes, hval⟩ := h.walk v d hd
  rw [hval]
  exact le_min (hes.length_nonneg hg) r.hi_nonneg

/-- A distance that an entry makes shorter is again the length of a walk. -/
lemma record (h : Attained g source t) (hg : g.NonNegative) (hbase : 0 ≤ base.val)
    (hes : g.Walk source es u) (hval : base.val = min (walkLength es) r.hi) (he : e ∈ g.row u)
    (hlt : e.target < g.size)
    (hd : shorter (base + e.weight) (t.distanceOf e.target) = true) :
    Attained g source (t.record u e.target (base + e.weight)) := by
  have hw : 0 ≤ e.weight.val := hg u e he
  have hsum : (base + e.weight).val = min (base.val + e.weight.val) r.hi :=
    Saturating.val_add_of_nonneg hbase hw
  have hsize : e.target < t.distance.size := h.fits.distance_size.symm ▸ hlt
  refine ⟨h.fits.record .., ?_, fun v d hvd => ?_⟩
  -- no sum is below the distance of the source
  · have hne : source ≠ e.target := by
      rintro heq
      have hneg := shorter_iff.1 hd 0 (heq ▸ h.source_eq)
      rw [Saturating.val_zero, hsum] at hneg
      exact absurd hneg (not_lt.2 (le_min (add_nonneg hbase hw) r.hi_nonneg))
    rw [distanceOf_record hsize, if_neg hne, h.source_eq]
  · rw [distanceOf_record hsize] at hvd
    split at hvd
    · obtain rfl : v = e.target := ‹_›
      obtain rfl : base + e.weight = d := Option.some.inj hvd
      refine ⟨es ++ [e], hes.snoc he, ?_⟩
      rw [hsum, hval, walkLength_snoc]
      omega
    · exact h.walk v d hvd

lemma settleNearest (h : Attained g source t) (hwf : g.WellFormed) (hg : g.NonNegative) :
    Attained g source (g.settleNearest t) := by
  refine Adjacency.settleNearest_induction h
    (fun c _ => ⟨h.fits.mark c.vertex, h.source_eq, h.walk⟩) ?_
  intro c hc t' e he ht' himp
  have hdc := (awaits_of_nearest? hc).2
  obtain ⟨es, hes, hval⟩ := h.walk _ _ hdc
  exact ht'.record hg (h.nonneg hg hdc) hes hval he (hwf _ e he) himp.2

end Attained

/-! ### No way is shorter -/

lemma distance_le_of_nearest? (ht : t.nearest? = some c) (hc' : t.Awaits c') :
    c.distance.val ≤ c'.distance.val := by
  have hP := (Adjacency.edgeless 0 : Adjacency (Saturating r)).comparable_saturating
  have hbefore := ((nearest?_eq_some_iff hP fun _ _ _ => trivial).1 ht).2 c' hc'
  exact Saturating.order_isLE_iff.1 (Candidate.before_iff.1 hbefore).1

lemma val_le_add (hbase : 0 ≤ base.val) (hw : 0 ≤ e.weight.val) :
    base.val ≤ (base + e.weight).val ∧ (base + e.weight).val ≤ base.val + e.weight.val := by
  rw [Saturating.val_add_of_nonneg hbase hw]
  exact ⟨le_min (le_add_of_nonneg_right hw) base.le_hi, min_le_left _ _⟩

/-- The entries of the settled vertices give no shorter distance, and no settled vertex is farther
away than one that awaits. -/
structure Closed (g : Adjacency (Saturating r)) (t : Tables (Saturating r)) : Prop where
  reached : ∀ u, t.settled.contains u = true → ∃ d, t.distanceOf u = some d
  entries : ∀ u d, t.settled.contains u = true → t.distanceOf u = some d →
    ∀ e ∈ g.row u, t.AtMost e.target (d.val + e.weight.val)
  ordered : ∀ u d c, t.settled.contains u = true → t.distanceOf u = some d → t.Awaits c →
    d.val ≤ c.distance.val

namespace Closed

lemma start (n : Nat) (source : Vertex) : Closed g (start n source) := by
  have hnone : ∀ u, (Tables.start n source : Tables (Saturating r)).settled.contains u ≠ true :=
    fun u => by rw [contains_start]; exact Bool.false_ne_true
  exact ⟨fun u hu => absurd hu (hnone u), fun u _ hu => absurd hu (hnone u),
    fun u _ _ hu => absurd hu (hnone u)⟩

section Step

variable (h : Closed g t) (ha : Attained g source t) (hwf : g.WellFormed) (hg : g.NonNegative)
  (hc : t.nearest? = some c)
include h ha hc

/-- What is settled with the nearest vertex is reached, and no farther away than that vertex. -/
lemma exists_distance_le (hu : (g.settleCandidate t c).1.settled.contains u = true) :
    ∃ d, t.distanceOf u = some d ∧ d.val ≤ c.distance.val := by
  have hawaits := awaits_of_nearest? hc
  rcases (Adjacency.contains_settleCandidate ha.fits hawaits).1 hu with hu | rfl
  · obtain ⟨d, hd⟩ := h.reached u hu
    exact ⟨d, hd, h.ordered u d c hu hd hawaits⟩
  · exact ⟨_, hawaits.2, le_rfl⟩

include hwf hg

omit h in
/-- Without negative weights, what awaits after the nearest vertex was settled is no nearer. -/
lemma distance_le_of_awaits (hc' : (g.settleCandidate t c).1.Awaits c') :
    c.distance.val ≤ c'.distance.val := by
  have hawaits := awaits_of_nearest? hc
  have hbase : 0 ≤ c.distance.val := ha.nonneg hg hawaits.2
  refine (Adjacency.settleCandidate_induction (P := fun t => t.Fits g.size ∧
    ∀ b, t.Awaits b → c.distance.val ≤ b.distance.val) ⟨ha.fits.mark c.vertex, ?_⟩ ?_).2 c' hc'
  · intro b hb
    exact distance_le_of_nearest? hc ((awaits_mark ha.fits (ha.fits.lt hawaits.2)).1 hb).1
  · rintro t e he ⟨ht, hnear⟩ himp
    have hlt : e.target < t.distance.size := ht.distance_size.symm ▸ hwf _ e he
    refine ⟨ht.record .., fun b hb => ?_⟩
    rcases (awaits_record hlt himp.1).1 hb with rfl | ⟨-, hb⟩
    · exact (val_le_add hbase (hg _ e he)).1
    · exact hnear b hb

/-- The entries of the nearest vertex give no shorter distance once it is settled. -/
lemma atMost_of_mem_row (he : e ∈ g.row c.vertex) :
    (g.settleCandidate t c).1.AtMost e.target (c.distance.val + e.weight.val) := by
  have hadd := val_le_add (ha.nonneg hg (awaits_of_nearest? hc).2) (hg _ e he)
  cases hs : (t.mark c.vertex).settled.contains e.target with
  | false => exact (atMost_relax (ha.fits.mark c.vertex) (hwf _) he hs).mono hadd.2
  | true =>
      -- the entry leads back to a settled vertex, which is at least as near
      have hset : (g.settleCandidate t c).1.settled.contains e.target = true := by
        rw [Adjacency.settleCandidate, settled_relax, hs]
      obtain ⟨d, hd, hle⟩ := exists_distance_le h ha hc hset
      exact ⟨d, (Adjacency.distanceOf_settleCandidate hwf ha.fits hset).trans hd,
        hle.trans (hadd.1.trans hadd.2)⟩

omit hc

/-- Settling the nearest vertex leaves no shorter way by any settled vertex. -/
theorem settleNearest : Closed g (g.settleNearest t) := by
  cases hc : t.nearest? with
  | none => rwa [Adjacency.settleNearest_of_none hc]
  | some c =>
      have hawaits := awaits_of_nearest? hc
      rw [Adjacency.settleNearest_of_some hc]
      refine ⟨fun u hu => ?reached, fun u d hu hd e he => ?entries,
        fun u d c' hu hd hc' => ?ordered⟩
      case reached =>
        obtain ⟨d, hd, -⟩ := exists_distance_le h ha hc hu
        exact ⟨d, (Adjacency.distanceOf_settleCandidate hwf ha.fits hu).trans hd⟩
      case entries =>
        rw [Adjacency.distanceOf_settleCandidate hwf ha.fits hu] at hd
        rcases (Adjacency.contains_settleCandidate ha.fits hawaits).1 hu with hu | rfl
        · have hmark : (t.mark c.vertex).AtMost e.target (d.val + e.weight.val) :=
            h.entries u d hu hd e he
          exact hmark.relax (ha.fits.mark c.vertex) (hwf _)
        · obtain rfl : c.distance = d := Option.some.inj (hawaits.2.symm.trans hd)
          exact atMost_of_mem_row h ha hwf hg hc he
      case ordered =>
        rw [Adjacency.distanceOf_settleCandidate hwf ha.fits hu] at hd
        obtain ⟨d', hd', hle⟩ := exists_distance_le h ha hc hu
        obtain rfl : d' = d := Option.some.inj (hd'.symm.trans hd)
        exact hle.trans (distance_le_of_awaits ha hwf hg hc hc')

end Step

/-- When no vertex is left, no walk from a reached vertex leads to a shorter distance. -/
theorem atMost_walk (h : Closed g t) (hend : t.nearest? = none) (hw : g.Walk u es v)
    (hu : t.AtMost u z) : t.AtMost v (z + walkLength es) := by
  induction hw generalizing z with
  | nil v => exact hu.mono (le_of_eq (add_zero z).symm)
  | @cons u v e es he _ ih =>
      obtain ⟨d, hd, hdz⟩ := hu
      have hs : t.settled.contains u = true := by
        by_contra hs
        exact nearest?_eq_none_iff.1 hend ⟨d, u⟩ ⟨eq_false_of_ne_true hs, hd⟩
      have htarget := (h.entries u d hs hd e he).mono (add_le_add_left hdz e.weight.val)
      rw [walkLength_cons, ← add_assoc]
      exact ih htarget

end Closed

/-! ### The end of the search -/

section End

variable (ha : Attained g source t) (h : Closed g t) (hend : t.nearest? = none)
include ha h hend

lemma atMost_walkLength (hw : g.Walk source es v) : t.AtMost v (walkLength es) := by
  have hsource : t.AtMost source 0 := ⟨0, ha.source_eq, le_rfl⟩
  simpa using h.atMost_walk hend hw hsource

/-- The search ends with a distance for exactly those vertices to which a walk leads. -/
theorem distanceOf_eq_none_iff : t.distanceOf v = none ↔ ¬ ∃ es, g.Walk source es v := by
  constructor
  · rintro hnone ⟨es, hes⟩
    obtain ⟨d, hd, -⟩ := atMost_walkLength ha h hend hes
    exact Option.some_ne_none d (hd.symm.trans hnone)
  · intro hno
    cases hd : t.distanceOf v with
    | none => rfl
    | some d =>
        obtain ⟨es, hes, -⟩ := ha.walk v d hd
        exact absurd ⟨es, hes⟩ hno

/-- The distance at the end is the least length of a walk, cut off at the greatest weight. -/
theorem exists_distanceOf_eq (hm : g.IsDistance source v z) :
    ∃ d, t.distanceOf v = some d ∧ d.val = min z r.hi := by
  obtain ⟨⟨es, hes, rfl⟩, hleast⟩ := hm
  obtain ⟨d, hd, hle⟩ := atMost_walkLength ha h hend hes
  obtain ⟨fs, hfs, hval⟩ := ha.walk v d hd
  refine ⟨d, hd, le_antisymm (le_min hle d.le_hi) ?_⟩
  rw [hval]
  exact min_le_min_right r.hi (hleast ⟨fs, hfs, rfl⟩)

end End

end Tables

namespace Adjacency

variable {r : IntRange} {g : Adjacency (Saturating r)} {source : Vertex}

/-- Every round keeps the distances the lengths of walks and leaves no shorter way by a settled
vertex. -/
lemma iterate_attained_closed (h : g.WellFormed) (hg : g.NonNegative) (hs : source < g.size)
    (k : Nat) :
    Tables.Attained g source (g.settleNearest^[k] (Tables.start g.size source)) ∧
      Tables.Closed g (g.settleNearest^[k] (Tables.start g.size source)) := by
  induction k with
  | zero => exact ⟨.start hs, .start g.size source⟩
  | succ k ih =>
      rw [Function.iterate_succ_apply']
      exact ⟨ih.1.settleNearest h hg, ih.2.settleNearest ih.1 h hg⟩

/-- Without negative weights, the search finds the distance of every vertex. -/
theorem exists_shortestPathTree_distance (h : g.WellFormed) (hg : g.NonNegative)
    (hs : source < g.size) (frontier : Frontier) :
    ∃ p, g.shortestPathTree source frontier = .ok p ∧ ∀ v < g.size,
      (p.distance? v = some none ↔ ¬ ∃ es, g.Walk source es v) ∧
      ∀ m, g.IsDistance source v m →
        ∃ d : Saturating r, p.distance? v = some (some d) ∧ d.val = min m r.hi := by
  obtain ⟨t, k, ht, hend, hdist, -⟩ := exists_finalTables h g.comparable_saturating hs frontier
  obtain ⟨ha, hc⟩ := iterate_attained_closed h hg hs k
  refine ⟨_, shortestPathTree_of_lt hs ht, fun v hv => ?_⟩
  have hread : ∀ d, t.distance[v]? = some d ↔
      (g.settleNearest^[k] (Tables.start g.size source)).distanceOf v = d := by
    intro d
    have hsize : v < t.distance.size := by
      rw [hdist, ha.fits.distance_size]
      exact hv
    rw [Tables.distanceOf, ← hdist, Array.getElem?_eq_getElem hsize]
    simp [Array.getD, hsize]
  refine ⟨(hread none).trans (Tables.distanceOf_eq_none_iff ha hc hend), fun m hm => ?_⟩
  obtain ⟨d, hd, hval⟩ := Tables.exists_distanceOf_eq ha hc hend hm
  exact ⟨d, (hread (some d)).2 hd, hval⟩

end Adjacency

/-! ### Filled graphs -/

namespace Graph

variable {r : IntRange}

lemma shortestPathTreeWith_eq {g : Graph (Saturating r)} (hg : g.adjacency.NonNegative)
    {source : Vertex} (hs : source < g.size) (settings : Settings) :
    g.shortestPathTreeWith settings source =
      g.adjacency.shortestPathTree source settings.frontier := by
  simp only [shortestPathTreeWith, requireStart_eq_ok_iff.2 hs, hg.negativeEdge?_eq_none]
  rfl

/-- From every vertex of a graph that was filled without negative weights, and with either frontier,
the search succeeds. It leaves without a distance exactly those vertices to which no walk leads, and
gives every other one the least length of a walk, cut off at the greatest weight. -/
theorem exists_shortestPathTreeWith_distance (n : Nat) (is : List (Insertion (Saturating r)))
    (hg : (filled n is).adjacency.NonNegative) (settings : Settings) {source : Vertex}
    (hs : source < n) :
    ∃ p, (filled n is).shortestPathTreeWith settings source = .ok p ∧ ∀ v < n,
      (p.distance? v = some none ↔ ¬ ∃ es, (filled n is).adjacency.Walk source es v) ∧
      ∀ es, (filled n is).adjacency.Walk source es v → ∃ m d,
        (filled n is).adjacency.IsDistance source v m ∧ p.distance? v = some (some d) ∧
          d.val = min m r.hi := by
  have hsize : (filled n is).adjacency.size = n := size_filled n is
  have hs' : source < (filled n is).adjacency.size := hsize.symm ▸ hs
  obtain ⟨p, hp, hdist⟩ :=
    Adjacency.exists_shortestPathTree_distance (wellFormed_filled n is) hg hs' settings.frontier
  refine ⟨p, (shortestPathTreeWith_eq hg hs' settings).trans hp, fun v hv => ?_⟩
  obtain ⟨hnone, hsome⟩ := hdist v (hsize.symm ▸ hv)
  refine ⟨hnone, fun es hes => ?_⟩
  obtain ⟨m, hm⟩ := hes.exists_isDistance hg
  obtain ⟨d, hd, hval⟩ := hsome m hm
  exact ⟨m, d, hm, hd, hval⟩

/-- Two weights whose sum lies above the greatest one, a loop, parallel entries and a vertex to
which no walk leads. -/
theorem exists_shortestPathTreeWith_distance_saturated :
    let edge (u v : Vertex) (w : Int) : Edge (Saturating (IntRange.signed 32)) :=
      ⟨u, v, Saturating.clamp _ w⟩
    let is : List (Insertion (Saturating (IntRange.signed 32))) :=
      [⟨edge 0 1 2147483647, false⟩, ⟨edge 1 2 5, true⟩, ⟨edge 1 1 0, false⟩,
        ⟨edge 1 2 7, true⟩, ⟨edge 3 9 1, true⟩, ⟨edge 3 0 0, true⟩]
    (filled 4 is).adjacency.NonNegative ∧ 0 < 4 ∧
      ∃ p, (filled 4 is).shortestPathTreeWith Settings.standard 0 = .ok p ∧ ∀ v < 4,
        (p.distance? v = some none ↔ ¬ ∃ es, (filled 4 is).adjacency.Walk 0 es v) ∧
        ∀ es, (filled 4 is).adjacency.Walk 0 es v → ∃ m d,
          (filled 4 is).adjacency.IsDistance 0 v m ∧ p.distance? v = some (some d) ∧
            d.val = min m 2147483647 := by
  intro edge is
  have hg : (filled 4 is).adjacency.NonNegative := by decide
  exact ⟨hg, by decide, exists_shortestPathTreeWith_distance 4 is hg Settings.standard (by decide)⟩

end Graph

end WeightedGraph
