import Mathlib
import WeightedGraph.Proofs.Adjacency.Walk
import WeightedGraph.Proofs.ShortestPath.Nearest
import WeightedGraph.Proofs.Weight.Order

/-!
The two frontiers of the search for shortest paths are interchangeable.

* `Tables.Queued`: what the queue knows about the tables. It holds every awaiting vertex at its
  distance; what else it holds is settled already or comes after the same vertex at its distance.
* `Tables.Queued.nearest?_eq`: the first candidate in the queue, if it is not settled, is the one
  that a scan finds.
* `Adjacency.settleNearest_of_card_le_one`: the last vertex changes neither a distance nor a
  predecessor, so that the scan may leave it out.
* `Adjacency.queueRounds_eq`: the rounds of the queue settle the nearest vertex until none is left.
* `Adjacency.exists_shortestPathTree_of_comparable`: both frontiers give the same paths wherever the
  comparisons of the distances agree, and so for bounded integers of either sign.
-/

namespace WeightedGraph

variable {W : Type} [Weight W]

/-! ### The queue -/

section Queue

variable {q : List (Candidate W)} {c : Candidate W}

lemma insertCandidate_eq (q : List (Candidate W)) (c : Candidate W) :
    insertCandidate q c = q.orderedInsert (fun a b => a.before b = true) c := by
  induction q with
  | nil => rfl
  | cons d q ih => rw [insertCandidate, List.orderedInsert_cons, ih]

lemma mem_insertCandidate {a : Candidate W} : a ∈ insertCandidate q c ↔ a = c ∨ a ∈ q := by
  rw [insertCandidate_eq, List.mem_orderedInsert]

lemma length_insertCandidate (q : List (Candidate W)) (c : Candidate W) :
    (insertCandidate q c).length = q.length + 1 := by
  rw [insertCandidate_eq, List.orderedInsert_length]

lemma length_foldl_insertCandidate (q cs : List (Candidate W)) :
    (cs.foldl insertCandidate q).length = q.length + cs.length := by
  induction cs generalizing q with
  | nil => rfl
  | cons c cs ih =>
      rw [List.foldl_cons, ih, length_insertCandidate, List.length_cons]
      omega

lemma pairwise_insertCandidate [Std.TransCmp (Weight.order (W := W))]
    (hq : q.Pairwise fun a b => a.before b = true) (c : Candidate W) :
    (insertCandidate q c).Pairwise fun a b => a.before b = true := by
  have : Std.Total fun a b : Candidate W => a.before b = true := ⟨Candidate.before_total⟩
  have : IsTrans (Candidate W) fun a b => a.before b = true :=
    ⟨fun _ _ _ => Candidate.before_trans⟩
  rw [insertCandidate_eq]
  exact hq.orderedInsert c q

end Queue

namespace Tables

variable {t : Tables W} {q : List (Candidate W)} {c : Candidate W} {n : Nat} {u v : Vertex} {d : W}

/-- The queue knows the awaiting vertices: it is sorted, holds each of them at its distance, and
every other candidate in it is settled or comes after the same vertex at its distance. -/
structure Queued (t : Tables W) (q : List (Candidate W)) : Prop where
  sorted : q.Pairwise fun a b => a.before b = true
  awaiting : ∀ c, t.Awaits c → c ∈ q
  stale : ∀ c ∈ q, t.settled.contains c.vertex = false →
    ∃ b, t.Awaits b ∧ b.vertex = c.vertex ∧ b.before c = true

namespace Queued

lemma nearest?_eq_none (hq : t.Queued []) : t.nearest? = none :=
  nearest?_eq_none_iff.2 fun c hc => List.not_mem_nil (hq.awaiting c hc)

/-- A settled vertex that comes out of the queue is forgotten. -/
lemma tail (hq : t.Queued (c :: q)) (hc : t.settled.contains c.vertex = true) : t.Queued q where
  sorted := hq.sorted.of_cons
  awaiting := by
    intro b hb
    refine (List.mem_cons.1 (hq.awaiting b hb)).resolve_left ?_
    rintro rfl
    exact absurd hb.1 (by simp [hc])
  stale b hb := hq.stale b (List.mem_cons_of_mem c hb)

/-- Marking a vertex that comes out of the queue leaves the rest of the queue. -/
lemma mark (hq : t.Queued (c :: q)) (hn : t.Fits n) (hc : t.Awaits c) :
    (t.mark c.vertex).Queued q := by
  have hcn : c.vertex < n := hn.lt hc.2
  refine ⟨hq.sorted.of_cons, fun b hb => ?_, fun b hb hs => ?_⟩
  · obtain ⟨hb, hne⟩ := (awaits_mark hn hcn).1 hb
    exact (List.mem_cons.1 (hq.awaiting b hb)).resolve_left fun h => hne (congrArg _ h.symm)
  · rw [contains_mark hn hcn, Bool.or_eq_false_iff, decide_eq_false_iff_not] at hs
    obtain ⟨a, ha, hab, hbefore⟩ := hq.stale b (List.mem_cons_of_mem c hb) hs.1
    exact ⟨a, (awaits_mark hn hcn).2 ⟨ha, hab ▸ hs.2⟩, hab, hbefore⟩

variable [Std.TransCmp (Weight.order (W := W))] {g : Adjacency W} {P : W → Prop}

/-- A vertex that comes out of the queue and is not settled is the nearest one. -/
lemma nearest?_eq [Std.LawfulEqCmp (Weight.order (W := W))] (hP : g.Comparable P) (ht : t.Holds P)
    (hq : t.Queued (c :: q)) (hs : t.settled.contains c.vertex = false) :
    t.nearest? = some c := by
  have hfirst : ∀ b, t.Awaits b → c.before b = true := by
    intro b hb
    rcases List.mem_cons.1 (hq.awaiting b hb) with rfl | hbq
    · exact b.before_refl
    · exact List.rel_of_pairwise_cons hq.sorted hbq
  obtain ⟨b, hb, hbc, hbefore⟩ := hq.stale c List.mem_cons_self hs
  obtain rfl : b = c := Candidate.before_antisymm hbefore (hfirst b hb)
  exact (nearest?_eq_some_iff hP ht).2 ⟨hb, hfirst⟩

/-- A shorter distance goes into the tables and into the queue. -/
lemma record (hq : t.Queued q) (hv : v < t.distance.size) (hs : t.settled.contains v = false)
    (hd : ∀ e, t.distanceOf v = some e → Weight.order d e = .lt) :
    (t.record u v d).Queued (insertCandidate q ⟨d, v⟩) := by
  refine ⟨pairwise_insertCandidate hq.sorted _, fun c hc => ?_, fun c hc hcs => ?_⟩
  · rcases (awaits_record hv hs).1 hc with rfl | ⟨-, hc⟩
    · exact mem_insertCandidate.2 (.inl rfl)
    · exact mem_insertCandidate.2 (.inr (hq.awaiting c hc))
  · rcases mem_insertCandidate.1 hc with rfl | hc
    · exact ⟨⟨d, v⟩, (awaits_record hv hs).2 (.inl rfl), rfl, Candidate.before_refl _⟩
    · obtain ⟨b, hb, hbc, hbefore⟩ := hq.stale c hc hcs
      by_cases hbv : b.vertex = v
      -- the distance just found comes before the one that stood in the tables
      · have hdb : Candidate.before ⟨d, v⟩ b = true :=
          Candidate.before_of_lt (hd b.distance (hbv ▸ hb.2))
        exact ⟨⟨d, v⟩, (awaits_record hv hs).2 (.inl rfl), hbv ▸ hbc,
          Candidate.before_trans hdb hbefore⟩
      · exact ⟨b, (awaits_record hv hs).2 (.inr ⟨hbv, hb⟩), hbc, hbefore⟩

end Queued

lemma queued_start {source : Vertex} (hs : source < n) [Std.TransCmp (Weight.order (W := W))] :
    (start n source : Tables W).Queued [⟨0, source⟩] where
  sorted := List.pairwise_singleton _ _
  awaiting _ hc := List.mem_singleton.2 ((awaits_start hs).1 hc)
  stale c hc _ := ⟨c, (awaits_start hs).2 (List.mem_singleton.1 hc), rfl, c.before_refl⟩

end Tables

namespace Adjacency

variable {g : Adjacency W} {t : Tables W} {q : List (Candidate W)} {c : Candidate W} {P : W → Prop}

/-! ### Reading the tables at the end -/

lemma shortestPathTree_of_lt {source : Vertex} {frontier : Frontier} (hs : source < g.size)
    (ht : g.finalTables source frontier = .ok t) :
    g.shortestPathTree source frontier = .ok ⟨source, t.distance, t.predecessor⟩ := by
  simp only [shortestPathTree, if_pos hs, ht]
  rfl

lemma shortestPathTree_of_not_lt {source : Vertex} (hs : ¬ source < g.size) (frontier : Frontier) :
    g.shortestPathTree source frontier =
      let t : Tables W := Tables.start g.size source
      .ok ⟨source, t.distance, t.predecessor⟩ := by
  simp only [shortestPathTree, if_neg hs]
  rfl

/-! ### The rounds of the scan -/

lemma card_unsettled_settleNearest (ht : t.Fits g.size) (hc : t.nearest? = some c) :
    ((g.settleNearest t).unsettled g.size).card + 1 = (t.unsettled g.size).card := by
  have hawaits := Tables.awaits_of_nearest? hc
  rw [settleNearest_of_some hc, unsettled_settleCandidate ht hawaits]
  exact Finset.card_erase_add_one (hawaits.mem_unsettled ht)

lemma fits_settleNearest (ht : t.Fits g.size) : (g.settleNearest t).Fits g.size := by
  cases hc : t.nearest? with
  | none => rwa [settleNearest_of_none hc]
  | some c => exact settleNearest_of_some hc ▸ fits_settleCandidate ht

lemma fits_iterate (ht : t.Fits g.size) (k : Nat) : (g.settleNearest^[k] t).Fits g.size := by
  induction k with
  | zero => exact ht
  | succ k ih =>
      rw [Function.iterate_succ_apply']
      exact fits_settleNearest ih

/-- As long as a vertex is left, each round has settled one. -/
lemma card_unsettled_iterate (ht : t.Fits g.size) {k : Nat}
    (hk : (g.settleNearest^[k] t).nearest? ≠ none) :
    ((g.settleNearest^[k] t).unsettled g.size).card + k = (t.unsettled g.size).card := by
  induction k with
  | zero => rfl
  | succ k ih =>
      rw [Function.iterate_succ_apply'] at hk ⊢
      obtain ⟨c, hc⟩ : ∃ c, (g.settleNearest^[k] t).nearest? = some c := by
        refine Option.ne_none_iff_exists'.1 fun hnone => hk ?_
        rw [settleNearest_of_none hnone, hnone]
      rw [← ih (hc ▸ Option.some_ne_none c),
        ← card_unsettled_settleNearest (fits_iterate ht k) hc]
      omega

/-- Settling the last vertex changes neither a distance nor a predecessor, and none is left. -/
theorem settleNearest_of_card_le_one (h : g.WellFormed) (ht : t.Fits g.size)
    (hcard : (t.unsettled g.size).card ≤ 1) :
    (g.settleNearest t).nearest? = none ∧ (g.settleNearest t).distance = t.distance ∧
      (g.settleNearest t).predecessor = t.predecessor := by
  cases hc : t.nearest? with
  | none =>
      rw [settleNearest_of_none hc]
      exact ⟨hc, rfl, rfl⟩
  | some c =>
      have hawaits := Tables.awaits_of_nearest? hc
      have hempty : (t.mark c.vertex).unsettled g.size = ∅ := by
        rw [Tables.unsettled_mark ht (ht.lt hawaits.2), ← Finset.card_eq_zero,
          Finset.card_erase_of_mem (hawaits.mem_unsettled ht)]
        omega
      have hsettled : ∀ e ∈ g.row c.vertex,
          (t.mark c.vertex).settled.contains e.target = true := by
        intro e he
        by_contra hs
        have hmem := Tables.mem_unsettled.2 ⟨h _ e he, eq_false_of_ne_true hs⟩
        exact Finset.notMem_empty _ (hempty ▸ hmem)
      rw [settleNearest_of_some hc, settleCandidate, Tables.relax_of_settled hsettled]
      refine ⟨Tables.nearest?_eq_none_iff.2 fun b hb => ?_, rfl, rfl⟩
      exact Finset.notMem_empty _ (hempty ▸ hb.mem_unsettled (ht.mark c.vertex))

/-- Where no vertex is left, more rounds change nothing. -/
lemma iterate_eq_of_nearest?_eq_none {k m : Nat} (hk : (g.settleNearest^[k] t).nearest? = none)
    (hm : (g.settleNearest^[m] t).nearest? = none) :
    g.settleNearest^[k] t = g.settleNearest^[m] t := by
  wlog hkm : k ≤ m generalizing k m
  · exact (this hm hk (Nat.le_of_not_le hkm)).symm
  · obtain ⟨j, rfl⟩ := Nat.exists_eq_add_of_le' hkm
    rw [Function.iterate_add_apply, Function.iterate_fixed (settleNearest_of_none hk)]

/-! ### The rounds of the queue -/

omit [Weight W] in
/-- The candidates that can still come out of the queue: those in it, and one for each entry of a
vertex that is not settled. -/
def upcoming (g : Adjacency W) (q : List (Candidate W)) (t : Tables W) : Nat :=
  q.length + ∑ v ∈ t.unsettled g.size, (g.row v).length

lemma upcoming_start {source : Vertex} :
    g.upcoming [⟨0, source⟩] (Tables.start g.size source) = g.edges.length + 1 := by
  rw [upcoming, Tables.unsettled_start, length_edges, List.length_singleton, Nat.add_comm]

/-- Settling a vertex uses up its entries. -/
lemma upcoming_settleCandidate (ht : t.Fits g.size) (hc : t.Awaits c) :
    g.upcoming ((g.settleCandidate t c).2.foldl insertCandidate q) (g.settleCandidate t c).1 <
      g.upcoming (c :: q) t := by
  have hlen : (g.settleCandidate t c).2.length ≤ (g.row c.vertex).length :=
    Tables.length_relax_le ..
  have hsum := Finset.add_sum_erase (t.unsettled g.size) (fun v => (g.row v).length)
    (hc.mem_unsettled ht)
  rw [upcoming, upcoming, length_foldl_insertCandidate, unsettled_settleCandidate ht hc,
    List.length_cons]
  omega

variable [Std.TransCmp (Weight.order (W := W))]

/-- Settling the vertex that comes out of the queue keeps what the queue knows about the tables. -/
lemma queued_settleCandidate (h : g.WellFormed) (hP : g.Comparable P) (ht : g.Admits P t)
    (hq : t.Queued (c :: q)) (hc : t.Awaits c) :
    (g.settleCandidate t c).1.Queued ((g.settleCandidate t c).2.foldl insertCandidate q) := by
  refine (Tables.relax_induction insertCandidate (P := fun t q => g.Admits P t ∧ t.Queued q)
    ⟨ht.mark c.vertex, hq.mark ht.fits hc⟩ ?_).2
  rintro t q e he ⟨ht', hq'⟩ ⟨hs, hshort⟩
  have hlt : e.target < g.size := h _ e he
  have hdist : P (c.distance + e.weight) := hP.add _ e he _ (ht.holds _ _ hc.2)
  refine ⟨ht'.record hlt hdist, hq'.record (ht'.fits.distance_size.symm ▸ hlt) hs fun d hd => ?_⟩
  rw [hd] at hshort
  exact (hP.lt_iff hdist (ht'.holds _ _ hd)).1 hshort

/-- The rounds of the queue settle the nearest vertex until none is left. -/
theorem queueRounds_eq [Std.LawfulEqCmp (Weight.order (W := W))] (h : g.WellFormed)
    (hP : g.Comparable P) {fuel : Nat} (ht : g.Admits P t) (hq : t.Queued q)
    (hfuel : g.upcoming q t ≤ fuel) :
    ∃ k, g.queueRounds fuel q t = .ok (g.settleNearest^[k] t) ∧
      (g.settleNearest^[k] t).nearest? = none := by
  -- each candidate that comes out of the queue makes one less that still can
  induction fuel generalizing q t with
  | zero =>
      have hnil : q = [] := List.eq_nil_of_length_eq_zero (by rw [upcoming] at hfuel; omega)
      subst hnil
      exact ⟨0, rfl, hq.nearest?_eq_none⟩
  | succ fuel ih =>
      cases q with
      | nil => exact ⟨0, rfl, hq.nearest?_eq_none⟩
      | cons c q =>
          by_cases hs : t.settled.contains c.vertex = true
          · rw [queueRounds, if_pos hs]
            refine ih ht (hq.tail hs) (Nat.le_of_succ_le_succ (le_trans ?_ hfuel))
            rw [upcoming, upcoming, List.length_cons]
            omega
          · have hc := hq.nearest?_eq hP ht.holds (eq_false_of_ne_true hs)
            have hawaits := Tables.awaits_of_nearest? hc
            have hnext := settleNearest_of_some (g := g) hc
            have hless := upcoming_settleCandidate (q := q) ht.fits hawaits
            obtain ⟨k, hrun, hnone⟩ := ih (ht.settleNearest h hP)
              (hnext ▸ queued_settleCandidate h hP ht hq hawaits)
              (Nat.le_of_lt_succ (lt_of_lt_of_le (hnext ▸ hless) hfuel))
            refine ⟨k + 1, ?_, hnone⟩
            rw [Function.iterate_succ_apply, ← hrun, queueRounds, if_neg hs, hnext,
              settle_eq h hawaits]
            rfl

/-! ### Both frontiers -/

/-- Whatever the frontier, the search ends with the distances and the predecessors that settling the
nearest vertex gives when no vertex is left. -/
theorem exists_finalTables [Std.LawfulEqCmp (Weight.order (W := W))] (h : g.WellFormed)
    (hP : g.Comparable P) {source : Vertex} (hs : source < g.size) (frontier : Frontier) :
    ∃ t k, g.finalTables source frontier = .ok t ∧
      (g.settleNearest^[k] (Tables.start g.size source)).nearest? = none ∧
      t.distance = (g.settleNearest^[k] (Tables.start g.size source)).distance ∧
      t.predecessor = (g.settleNearest^[k] (Tables.start g.size source)).predecessor := by
  have hstart : g.Admits P (Tables.start g.size source) := .start hP hs
  cases frontier with
  | scan =>
      by_cases hnone :
          (g.settleNearest^[g.size - 1] (Tables.start g.size source)).nearest? = none
      · exact ⟨_, _, scanRounds_eq h _ _, hnone, rfl, rfl⟩
      · have hcard := card_unsettled_iterate hstart.fits hnone
        rw [Tables.unsettled_start, Finset.card_range] at hcard
        obtain ⟨hlast, hdist, hpred⟩ := settleNearest_of_card_le_one h
          (fits_iterate hstart.fits (g.size - 1)) (by omega)
        refine ⟨_, g.size - 1 + 1, scanRounds_eq h _ _, ?_⟩
        rw [Function.iterate_succ_apply']
        exact ⟨hlast, hdist.symm, hpred.symm⟩
  | queue =>
      obtain ⟨k, hrun, hnone⟩ :=
        queueRounds_eq h hP hstart (Tables.queued_start hs) upcoming_start.le
      exact ⟨_, k, hrun, hnone, rfl, rfl⟩

/-- Both frontiers give the same distances and the same predecessors wherever the comparisons of the
distances agree. -/
theorem exists_shortestPathTree_of_comparable [Std.LawfulEqCmp (Weight.order (W := W))]
    (h : g.WellFormed) (hP : g.Comparable P) (source : Vertex) :
    ∃ p, g.shortestPathTree source .scan = .ok p ∧ g.shortestPathTree source .queue = .ok p := by
  by_cases hs : source < g.size
  · obtain ⟨t, k, ht, hk, htd, htp⟩ := exists_finalTables h hP hs .scan
    obtain ⟨t', m, ht', hm, htd', htp'⟩ := exists_finalTables h hP hs .queue
    have heq := iterate_eq_of_nearest?_eq_none hk hm
    have hqueue := shortestPathTree_of_lt hs ht'
    rw [htd', htp', ← heq, ← htd, ← htp] at hqueue
    exact ⟨_, shortestPathTree_of_lt hs ht, hqueue⟩
  · exact ⟨_, shortestPathTree_of_not_lt hs .scan, shortestPathTree_of_not_lt hs .queue⟩

end Adjacency

/-! ### Bounded integers -/

namespace Adjacency

variable {r : IntRange}

/-- Every distance among bounded integers is comparable with every other. -/
lemma comparable_saturating (g : Adjacency (Saturating r)) : g.Comparable fun _ => True :=
  ⟨trivial, fun _ _ _ _ _ => trivial, fun a b _ _ => Saturating.compare?_eq a b⟩

/-- From every vertex and with every weight, negative ones included, both frontiers give the same
paths. -/
theorem exists_shortestPathTree_scan_queue (g : Adjacency (Saturating r)) (h : g.WellFormed)
    (source : Vertex) :
    ∃ p, g.shortestPathTree source .scan = .ok p ∧ g.shortestPathTree source .queue = .ok p :=
  exists_shortestPathTree_of_comparable h g.comparable_saturating source

/-- Two ways of one length to the last vertex, one of them by an entry with a negative weight. -/
theorem exists_shortestPathTree_scan_queue_tie :
    let entry (v : Vertex) (w : Int) : Entry (Saturating (IntRange.signed 32)) :=
      ⟨v, Saturating.clamp _ w⟩
    let g : Adjacency (Saturating (IntRange.signed 32)) :=
      ⟨#[[entry 1 1, entry 2 4], [entry 3 2], [entry 3 (-1), entry 0 (-7)], [entry 3 0]]⟩
    g.WellFormed ∧
      ∃ p, g.shortestPathTree 0 .scan = .ok p ∧ g.shortestPathTree 0 .queue = .ok p := by
  intro entry g
  have h : g.WellFormed := by decide
  exact ⟨h, exists_shortestPathTree_scan_queue g h 0⟩

end Adjacency

end WeightedGraph
