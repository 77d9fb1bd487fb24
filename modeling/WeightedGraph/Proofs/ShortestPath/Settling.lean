import Mathlib
import WeightedGraph.Proofs.ShortestPath.Frontiers

/-!
What both frontiers do, whatever the weights.

Where comparisons of distances make no sense, as with values that are no numbers, the two frontiers
may settle the vertices in different orders. Either of them settles awaiting vertices until none is
left.

* `Adjacency.Settles`: awaiting vertices are settled one after another.
* `Tables.Covered`: every awaiting vertex is in the queue, at whatever distance.
* `Adjacency.exists_queueRounds_settles`: the rounds of the queue settle awaiting vertices until
  none is left.
* `Adjacency.exists_finalTables_settles`: so does the search with either frontier, but for the last
  vertex of the scan, which changes nothing.
-/

namespace WeightedGraph

variable {W : Type} [Weight W] {g : Adjacency W} {t t' : Tables W} {q : List (Candidate W)}
  {c : Candidate W} {n : Nat} {u v : Vertex} {d : W}

namespace Adjacency

/-- Awaiting vertices, each of them any that awaits when its turn comes, are settled one after
another. -/
inductive Settles (g : Adjacency W) : Tables W → Tables W → Prop
  | refl (t : Tables W) : Settles g t t
  | step {t t' : Tables W} {c : Candidate W} : t.Awaits c →
      Settles g (g.settleCandidate t c).1 t' → Settles g t t'

/-- What settling one awaiting vertex preserves, settling many preserves. -/
theorem Settles.induction {P : Tables W → Prop} (h : g.Settles t t') (ht : P t)
    (hstep : ∀ t c, P t → t.Awaits c → P (g.settleCandidate t c).1) : P t' := by
  induction h with
  | refl => exact ht
  | @step t t' c hc _ ih => exact ih (hstep t c ht hc)

lemma settles_iterate (k : Nat) (t : Tables W) : g.Settles t (g.settleNearest^[k] t) := by
  induction k generalizing t with
  | zero => exact .refl t
  | succ k ih =>
      rw [Function.iterate_succ_apply]
      cases hc : t.nearest? with
      | none =>
          rw [settleNearest_of_none hc]
          exact ih t
      | some c =>
          rw [settleNearest_of_some hc]
          exact .step (Tables.awaits_of_nearest? hc) (ih _)

end Adjacency

/-! ### The queue -/

namespace Tables

/-- Every awaiting vertex is in the queue, and every vertex in the queue is reached. -/
structure Covered (t : Tables W) (q : List (Candidate W)) : Prop where
  awaiting : ∀ c, t.Awaits c → ∃ b ∈ q, b.vertex = c.vertex
  reached : ∀ b ∈ q, ∃ d, t.distanceOf b.vertex = some d

namespace Covered

lemma start {source : Vertex} (hs : source < n) :
    (start n source : Tables W).Covered [⟨0, source⟩] where
  awaiting c hc := ⟨⟨0, source⟩, List.mem_singleton_self _, by rw [(awaits_start hs).1 hc]⟩
  reached b hb := by
    obtain rfl := List.mem_singleton.1 hb
    exact ⟨0, by rw [distanceOf_start hs, if_pos rfl]⟩

omit [Weight W] in
/-- A settled vertex that comes out of the queue is forgotten. -/
lemma tail (hq : t.Covered (c :: q)) (hc : t.settled.contains c.vertex = true) : t.Covered q where
  awaiting b hb := by
    obtain ⟨a, ha, hab⟩ := hq.awaiting b hb
    rcases List.mem_cons.1 ha with rfl | ha
    · exact absurd (hab ▸ hc) (Bool.eq_false_iff.1 hb.1)
    · exact ⟨a, ha, hab⟩
  reached b hb := hq.reached b (List.mem_cons_of_mem c hb)

omit [Weight W] in
/-- Marking a vertex that comes out of the queue leaves the rest of the queue. -/
lemma mark (hq : t.Covered (c :: q)) (hn : t.Fits n) (hc : c.vertex < n) :
    (t.mark c.vertex).Covered q where
  awaiting b hb := by
    obtain ⟨hb, hne⟩ := (awaits_mark hn hc).1 hb
    obtain ⟨a, ha, hab⟩ := hq.awaiting b hb
    rcases List.mem_cons.1 ha with rfl | ha
    · exact absurd hab hne
    · exact ⟨a, ha, hab⟩
  reached b hb := hq.reached b (List.mem_cons_of_mem c hb)

/-- A shorter distance goes into the tables and into the queue. -/
lemma record (hq : t.Covered q) (hv : v < t.distance.size)
    (hs : t.settled.contains v = false) (u : Vertex) (d : W) :
    (t.record u v d).Covered (insertCandidate q ⟨d, v⟩) where
  awaiting b hb := by
    rcases (awaits_record hv hs).1 hb with rfl | ⟨-, hb⟩
    · exact ⟨⟨d, v⟩, mem_insertCandidate.2 (Or.inl rfl), rfl⟩
    · obtain ⟨a, ha, hab⟩ := hq.awaiting b hb
      exact ⟨a, mem_insertCandidate.2 (Or.inr ha), hab⟩
  reached b hb := by
    rw [distanceOf_record hv]
    by_cases hbv : b.vertex = v
    · exact ⟨d, if_pos hbv⟩
    · rw [if_neg hbv]
      rcases mem_insertCandidate.1 hb with rfl | hb
      · exact absurd rfl hbv
      · exact hq.reached b hb

end Covered

end Tables

namespace Adjacency

lemma covered_settleCandidate (h : g.WellFormed) (ht : t.Fits g.size) (hq : t.Covered (c :: q))
    (hd : t.distanceOf c.vertex = some d) :
    (g.settleCandidate t ⟨d, c.vertex⟩).1.Covered
      ((g.settleCandidate t ⟨d, c.vertex⟩).2.foldl insertCandidate q) := by
  refine (Tables.relax_induction insertCandidate (P := fun t q => t.Fits g.size ∧ t.Covered q)
    ⟨ht.mark c.vertex, hq.mark ht (ht.lt hd)⟩ ?_).2
  rintro t q e he ⟨ht', hq'⟩ ⟨hs, -⟩
  exact ⟨ht'.record .., hq'.record (ht'.distance_size.symm ▸ h _ e he) hs ..⟩

/-- The rounds of the queue settle awaiting vertices until none is left. A vertex is settled at its
distance in the tables, which need not be the one at which it comes out of the queue. -/
theorem exists_queueRounds_settles (h : g.WellFormed) {fuel : Nat} (ht : t.Fits g.size)
    (hq : t.Covered q) (hfuel : g.upcoming q t ≤ fuel) :
    ∃ t', g.queueRounds fuel q t = .ok t' ∧ g.Settles t t' ∧ ∀ c, ¬ t'.Awaits c := by
  -- each candidate that comes out of the queue makes one less that still can
  have hnone : ∀ {t : Tables W}, t.Covered [] → ∀ c, ¬ t.Awaits c := by
    intro t hq c hc
    obtain ⟨b, hb, -⟩ := hq.awaiting c hc
    exact List.not_mem_nil hb
  induction fuel generalizing q t with
  | zero =>
      obtain rfl : q = [] := List.eq_nil_of_length_eq_zero (by rw [upcoming] at hfuel; omega)
      exact ⟨t, rfl, .refl t, hnone hq⟩
  | succ fuel ih =>
      cases q with
      | nil => exact ⟨t, rfl, .refl t, hnone hq⟩
      | cons c q =>
          by_cases hs : t.settled.contains c.vertex = true
          · rw [queueRounds, if_pos hs]
            refine ih ht (hq.tail hs) (Nat.le_of_succ_le_succ (le_trans ?_ hfuel))
            rw [upcoming, upcoming, List.length_cons]
            omega
          · obtain ⟨d, hd⟩ := hq.reached c List.mem_cons_self
            have hawaits : t.Awaits ⟨d, c.vertex⟩ := ⟨eq_false_of_ne_true hs, hd⟩
            have hless := upcoming_settleCandidate (q := q) ht hawaits
            obtain ⟨t', hrun, hsettles, hend⟩ := ih (fits_settleCandidate ht)
              (covered_settleCandidate h ht hq hd) (Nat.le_of_lt_succ (hless.trans_le hfuel))
            refine ⟨t', ?_, .step hawaits hsettles, hend⟩
            rw [← hrun, queueRounds, if_neg hs]
            have hsettle := settle_eq h hawaits
            simp only at hsettle
            rw [hsettle]
            rfl

/-! ### Both frontiers -/

/-- Whatever the frontier, the distances and the predecessors at the end are those that settling
awaiting vertices gives when none is left. -/
theorem exists_finalTables_settles (h : g.WellFormed) {source : Vertex} (hs : source < g.size)
    (frontier : Frontier) :
    ∃ t t', g.finalTables source frontier = .ok t ∧
      g.Settles (Tables.start g.size source) t' ∧ (∀ c, ¬ t'.Awaits c) ∧
      t.distance = t'.distance ∧ t.predecessor = t'.predecessor := by
  have hstart : (Tables.start g.size source : Tables W).Fits g.size := Tables.fits_start _ _
  cases frontier with
  | scan =>
      have hrun := scanRounds_eq h (g.size - 1) (Tables.start g.size source)
      by_cases hnone :
          (g.settleNearest^[g.size - 1] (Tables.start g.size source)).nearest? = none
      · exact ⟨_, _, hrun, settles_iterate _ _, Tables.nearest?_eq_none_iff.1 hnone, rfl, rfl⟩
      · -- one vertex is left, and settling it as well changes neither table
        have hcard := card_unsettled_iterate hstart hnone
        rw [Tables.unsettled_start, Finset.card_range] at hcard
        obtain ⟨hlast, hdist, hpred⟩ := settleNearest_of_card_le_one h
          (fits_iterate hstart (g.size - 1)) (by omega)
        refine ⟨_, g.settleNearest^[g.size - 1 + 1] (Tables.start g.size source), hrun,
          settles_iterate _ _, ?_⟩
        rw [Function.iterate_succ_apply']
        exact ⟨Tables.nearest?_eq_none_iff.1 hlast, hdist.symm, hpred.symm⟩
  | queue =>
      obtain ⟨t', hrun, hsettles, hend⟩ :=
        exists_queueRounds_settles h hstart (.start hs) upcoming_start.le
      exact ⟨t', t', hrun, hsettles, hend, rfl, rfl⟩

end Adjacency

end WeightedGraph
