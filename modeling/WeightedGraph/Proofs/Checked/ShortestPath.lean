import Mathlib
import WeightedGraph.Proofs.Checked.Run
import WeightedGraph.Proofs.ShortestPath.PathTree

/-!
Shortest-path searches with every access checked.

* `Checked.relax`, `Checked.settle`: what is read and written when a vertex is settled.
* `Checked.nearest?`, `Checked.scanRounds`: the search that scans all vertices.
* `Checked.queueRounds`: the search with a queue, which has to be empty within its bound. That every
  candidate is reached (`Tables.Covered`) is what keeps the queue within the tables.
* `Checked.shortestPathTree`, `Checked.pathTo?`: the result, and the path back to the source from
  any vertex of it.
* `Checked.agreesWith_shortestPathTree`: neither the search nor a reading of its result comes to a
  fault, whatever the weights.
-/

namespace WeightedGraph

variable {W : Type} [Weight W] {g : Adjacency W} {t : Tables W} {q : List (Candidate W)}
  {c : Candidate W} {n : Nat} {u v source : Vertex} {base : W} {es : List (Entry W)}

namespace Checked

/-! ### Settling a vertex -/

omit [Weight W] in
/-- The tables with the way to `v` by `u` at distance `d`. -/
def record (t : Tables W) (u v : Vertex) (d : W) : Checked (Tables W) := do
  let distance ← write t.distance v (some d)
  let predecessor ← write t.predecessor v (some u)
  return { t with distance := distance, predecessor := predecessor }

/-- Tries the entries of `u`, whose distance is `base`, in turn. -/
def relax (u : Vertex) (base : W) :
    List (Entry W) → Tables W → Checked (Tables W × List (Candidate W))
  | [], t => return (t, [])
  | e :: es, t => do
      if ← contains t.settled e.target then relax u base es t
      else
        let d := base + e.weight
        if Tables.shorter d (← read t.distance e.target) then
          let (t', improved) ← relax u base es (← record t u e.target d)
          return (t', ⟨d, e.target⟩ :: improved)
        else relax u base es t

/-- Settles a vertex and relaxes its entries. -/
def settle (g : Adjacency W) (t : Tables W) (u : Vertex) :
    Checked (Tables W × List (Candidate W)) := do
  let entries ← read g.rows u
  let t := { t with settled := ← insert t.settled u }
  match ← read t.distance u with
  | some base => relax u base entries t
  | none => return (t, [])

omit [Weight W] in
lemma read_distance (ht : t.Fits n) (hv : v < n) : read t.distance v = .ok (t.distanceOf v) :=
  read_eq (ht.distance_size.symm ▸ hv) none

omit [Weight W] in
lemma contains_settled (ht : t.Fits n) (hv : v < n) :
    contains t.settled v = .ok (t.settled.contains v) :=
  contains_eq (ht.settled_capacity.symm ▸ hv)

omit [Weight W] in
lemma record_eq (ht : t.Fits n) (hv : v < n) (u : Vertex) (d : W) :
    record t u v d = .ok (t.record u v d) := by
  rw [record, write_eq (ht.distance_size.symm ▸ hv), ok_bind,
    write_eq (ht.predecessor_size.symm ▸ hv)]
  rfl

lemma relax_eq (ht : t.Fits n) (hes : ∀ e ∈ es, e.target < n) :
    relax u base es t = .ok (Tables.relax u base es t) := by
  induction es generalizing t with
  | nil => rfl
  | cons e es ih =>
      obtain ⟨he, hes⟩ := List.forall_mem_cons.1 hes
      rw [relax, contains_settled ht he, ok_bind, Tables.relax]
      split
      · exact ih ht hes
      · dsimp only
        rw [read_distance ht he, ok_bind]
        split
        · rw [record_eq ht he, ok_bind, ih (ht.record ..) hes]
          rfl
        · exact ih ht hes

/-- An awaiting vertex is settled without a fault. -/
lemma settle_eq (hg : g.WellFormed) (ht : t.Fits g.size) (hc : t.Awaits c) :
    settle g t c.vertex = .ok (g.settleCandidate t c) := by
  have hlt : c.vertex < g.size := ht.lt hc.2
  rw [settle, read_row hlt, ok_bind, insert_eq (ht.settled_capacity.symm ▸ hlt), ok_bind]
  dsimp only
  rw [← Tables.mark, read_distance ht hlt, hc.2, ok_bind]
  exact relax_eq (ht.mark c.vertex) (hg c.vertex)

/-! ### The scan -/

/-- The nearer one of a candidate and a vertex that is reached and not settled. -/
def nearer (t : Tables W) (best : Option (Candidate W)) (v : Vertex) :
    Checked (Option (Candidate W)) := do
  if ← contains t.settled v then return best
  else
    match ← read t.distance v, best with
    | none, _ => return best
    | some d, none => return some ⟨d, v⟩
    | some d, some b => return if Weight.le b.distance d then best else some ⟨d, v⟩

/-- The nearest of the vertices that are reached and not settled. -/
def nearest? (t : Tables W) : Checked (Option (Candidate W)) :=
  (List.range t.distance.size).foldlM (nearer t) none

/-- Settles the nearest vertex, `rounds` times or until no vertex is left. -/
def scanRounds (g : Adjacency W) : Nat → Tables W → Checked (Tables W)
  | 0, t => return t
  | rounds + 1, t => do
      match ← nearest? t with
      | none => return t
      | some c =>
          let (t, _) ← settle g t c.vertex
          scanRounds g rounds t

lemma nearer_eq (ht : t.Fits n) (hv : v < n) (best : Option (Candidate W)) :
    nearer t best v = .ok (t.nearer best v) := by
  rw [nearer, contains_settled ht hv, ok_bind]
  unfold Tables.nearer
  cases t.settled.contains v with
  | true => rfl
  | false =>
      rw [if_neg Bool.false_ne_true, if_neg Bool.false_ne_true, read_distance ht hv, ok_bind]
      cases t.distanceOf v with
      | none => rfl
      | some d => cases best <;> rfl

lemma nearest?_eq (ht : t.Fits n) : nearest? t = .ok t.nearest? :=
  (foldlM_eq (R := fun _ => True) trivial fun _ hv best _ =>
    ⟨nearer_eq ht (ht.distance_size ▸ List.mem_range.1 hv) best, trivial⟩).1

theorem agrees_scanRounds (hg : g.WellFormed) (rounds : Nat) (ht : t.Fits g.size) :
    Agrees (scanRounds g rounds t) (g.scanRounds rounds t) := by
  induction rounds generalizing t with
  | zero => exact agrees_ok t
  | succ rounds ih =>
      rw [scanRounds, Adjacency.scanRounds, nearest?_eq ht, ok_bind]
      cases hc : t.nearest? with
      | none => exact agrees_ok t
      | some c =>
          have hawaits := Tables.awaits_of_nearest? hc
          dsimp only
          rw [settle_eq hg ht hawaits, Adjacency.settle_eq hg hawaits]
          exact ih (Adjacency.fits_settleCandidate ht)

/-! ### The queue -/

/-- Settles the vertices that come out of the queue, which has to be empty when no fuel is left. -/
def queueRounds (g : Adjacency W) : Nat → List (Candidate W) → Tables W → Checked (Tables W)
  | _, [], t => return t
  | 0, _ :: _, _ => throw .unfinished
  | fuel + 1, c :: queue, t => do
      if ← contains t.settled c.vertex then queueRounds g fuel queue t
      else
        let (t, improved) ← settle g t c.vertex
        queueRounds g fuel (improved.foldl insertCandidate queue) t

theorem agrees_queueRounds (hg : g.WellFormed) {fuel : Nat} (ht : t.Fits g.size)
    (hq : t.Covered q) (hfuel : g.upcoming q t ≤ fuel) :
    Agrees (queueRounds g fuel q t) (g.queueRounds fuel q t) := by
  induction fuel generalizing q t with
  | zero =>
      obtain rfl : q = [] :=
        List.eq_nil_of_length_eq_zero (by rw [Adjacency.upcoming] at hfuel; omega)
      exact agrees_ok t
  | succ fuel ih =>
      cases q with
      | nil => exact agrees_ok t
      | cons c q =>
          obtain ⟨d, hd⟩ := hq.reached c List.mem_cons_self
          rw [queueRounds, Adjacency.queueRounds, contains_settled ht (ht.lt hd), ok_bind]
          cases hs : t.settled.contains c.vertex with
          | true =>
              refine ih ht (hq.tail hs) (Nat.le_of_succ_le_succ (le_trans ?_ hfuel))
              rw [Adjacency.upcoming, Adjacency.upcoming, List.length_cons]
              omega
          | false =>
              have hawaits : t.Awaits ⟨d, c.vertex⟩ := ⟨hs, hd⟩
              have hless := Adjacency.upcoming_settleCandidate (q := q) ht hawaits
              have hsettle := settle_eq hg ht hawaits
              have hsettle' := Adjacency.settle_eq hg hawaits
              dsimp only at hsettle hsettle'
              rw [if_neg Bool.false_ne_true, if_neg Bool.false_ne_true, hsettle, hsettle']
              exact ih (Adjacency.fits_settleCandidate ht)
                (Adjacency.covered_settleCandidate hg ht hq hd)
                (Nat.le_of_lt_succ (hless.trans_le hfuel))

/-! ### Results -/

/-- The tables at the end of a search from `source`. -/
def finalTables (g : Adjacency W) (source : Vertex) (frontier : Frontier) : Checked (Tables W) := do
  let distance ← write (Array.replicate g.size none) source (some 0)
  let t := ⟨distance, Predecessors.none g.size, IndexSet.empty g.size⟩
  match frontier with
  | .scan => scanRounds g (g.size - 1) t
  | .queue => queueRounds g (g.edges.length + 1) [⟨0, source⟩] t

/-- The shortest paths from `source`; from what is no vertex no path leads anywhere. -/
def shortestPathTree (g : Adjacency W) (source : Vertex) (frontier : Frontier) :
    Checked (ShortestPathTree W) := do
  if source < g.size then
    let t ← finalTables g source frontier
    return ⟨source, t.distance, t.predecessor⟩
  else
    return ⟨source, Array.replicate g.size none, Predecessors.none g.size⟩

omit [Weight W] in
/-- The path to a vertex. -/
def pathTo? (p : ShortestPathTree W) (v : Vertex) : Checked (Option (List Vertex)) := do
  if p.isReachable v then return some (← pathTo p.predecessor v) else return none

lemma agrees_finalTables (hg : g.WellFormed) (hs : source < g.size) (frontier : Frontier) :
    Agrees (finalTables g source frontier) (g.finalTables source frontier) := by
  have hfits : (Tables.start g.size source : Tables W).Fits g.size := Tables.fits_start ..
  have hsize : (Array.replicate g.size (none : Distance W)).size = g.size := Array.size_replicate
  rw [finalTables, write_eq (hsize.symm ▸ hs), ok_bind]
  cases frontier with
  | scan => exact agrees_scanRounds hg _ hfits
  | queue => exact agrees_queueRounds hg hfits (.start hs) Adjacency.upcoming_start.le

/-- What the tables of a tree of paths lead back to is found without a fault. -/
lemma pathTo?_eq (h : Tables.Rooted g source t) (v : Vertex) :
    pathTo? ⟨source, t.distance, t.predecessor⟩ v =
      .ok ((⟨source, t.distance, t.predecessor⟩ : ShortestPathTree W).pathTo? v) := by
  rw [pathTo?, ShortestPathTree.pathTo?]
  split
  · next hv =>
      obtain ⟨path, hpath⟩ := h.branch v (Option.isSome_iff_exists.1 hv)
      have hpathTo := pathTo_eq hpath.traces hpath.nodup fun u hu =>
        h.fits.predecessor_size.symm ▸ h.lt_of_mem hpath hu
      dsimp only
      rw [hpathTo]
      rfl
  · rfl

/-- Whatever the weights, the search comes to no fault from any source and with either frontier, and
no path of its result does. -/
theorem agreesWith_shortestPathTree (hg : g.WellFormed) (source : Vertex) (frontier : Frontier) :
    AgreesWith (fun p => ∀ v, pathTo? p v = .ok (p.pathTo? v)) (shortestPathTree g source frontier)
      (g.shortestPathTree source frontier) := by
  rw [shortestPathTree]
  split
  · next hs =>
      obtain ⟨t, t', ht, hrooted, -, -, hdist, hpred⟩ :=
        Adjacency.exists_finalTables_rooted hg hs frontier
      have hrun := agrees_finalTables hg hs frontier
      rw [ht] at hrun
      rw [hrun.eq_ok.1, Adjacency.shortestPathTree_of_lt hs ht, ok_bind]
      refine .value fun v => ?_
      rw [hdist, hpred]
      exact pathTo?_eq hrooted v
  · next hs =>
      have hnone : (Array.replicate g.size (none : Distance W)).setIfInBounds source (some 0) =
          Array.replicate g.size none :=
        Array.setIfInBounds_eq_of_size_le (Array.size_replicate.le.trans (Nat.le_of_not_lt hs))
      rw [Adjacency.shortestPathTree_of_not_lt hs]
      dsimp only [Tables.start]
      rw [hnone]
      refine .value fun v => ?_
      rw [pathTo?, ShortestPathTree.pathTo?, ShortestPathTree.isReachable]
      dsimp only
      rw [getD_replicate]
      rfl

end Checked

end WeightedGraph
