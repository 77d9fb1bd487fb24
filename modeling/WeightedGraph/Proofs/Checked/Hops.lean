import Mathlib
import WeightedGraph.Proofs.Checked.Breadth

/-!
Distances and paths by the number of entries, with every access checked.

* `Checked.hopCounts`: the levels that the visits of a search give. `Checked.Leveled` bounds them by
  the visits that are still to be recorded, so they fit where the number of vertices does.
* `Checked.hopPath?`: the search that ends before it visits its goal, and the way back from there.
* `Checked.agrees_hopCounts`, `Checked.agrees_hopPath?`: both come to no fault in well-formed lists.
-/

namespace WeightedGraph

variable {W : Type} {g : Adjacency W} {s : BreadthState} {visits : List Visit} {v : Vertex}

namespace Checked

/-! ### Distances by the number of entries -/

/-- The level behind another one. -/
def nextLevel : Option Nat → Checked (Option Nat)
  | some level => return some (← increment 64 level)
  | none => return none

/-- The table in which every vertex that a visit found lies one entry behind the visited one. -/
def recordLevel (levels : Array (Option Nat)) (visit : Visit) : Checked (Array (Option Nat)) := do
  let next ← nextLevel (← read levels visit.vertex)
  visit.found.foldlM (fun levels v => write levels v next) levels

/-- The least number of entries from `start` to each vertex. -/
def hopCounts (g : Adjacency W) (start : Vertex) : Checked (Array (Option Nat)) := do
  let levels := Array.replicate g.size none
  if start < g.size then
    let (visits, _) ← breadthVisits g (← breadthStart g.size start)
    visits.foldlM recordLevel (← write levels start (some 0))
  else return levels

/-- The table has a place for each of `n` vertices, and `visits` further visits keep its levels
below `n`. -/
structure Leveled (n visits : Nat) (levels : Array (Option Nat)) : Prop where
  size_eq : levels.size = n
  add_visits_le : ∀ v level, levels.getD v none = some level → level + visits ≤ n

lemma Leveled.setIfInBounds {n visits : Nat} {levels : Array (Option Nat)}
    (h : Leveled n visits levels) {level : Option Nat} (hlevel : ∀ k ∈ level, k + visits ≤ n) :
    Leveled n visits (levels.setIfInBounds v level) := by
  refine ⟨Array.size_setIfInBounds.trans h.size_eq, fun u k hk => ?_⟩
  rw [Array.getD_eq_getD_getElem?, Array.getElem?_setIfInBounds] at hk
  split at hk
  · split at hk
    · exact hlevel k hk
    · exact nomatch hk
  · exact h.add_visits_le u k (by rw [Array.getD_eq_getD_getElem?, hk])

lemma recordLevel_eq {levels : Array (Option Nat)} {visit : Visit} {n visits : Nat}
    (h : Leveled n (visits + 1) levels) (hn : n < 2 ^ 64) (hvertex : visit.vertex < n)
    (hfound : ∀ v ∈ visit.found, v < n) :
    recordLevel levels visit = .ok (WeightedGraph.recordLevel levels visit) ∧
      Leveled n visits (WeightedGraph.recordLevel levels visit) := by
  have hnext : nextLevel (levels.getD visit.vertex none) =
      .ok ((levels.getD visit.vertex none).map (· + 1)) := by
    cases hlevel : levels.getD visit.vertex none with
    | none => rfl
    | some level =>
        have hle := h.add_visits_le _ _ hlevel
        rw [nextLevel, increment_eq (by omega)]
        rfl
  rw [recordLevel, read_eq (h.size_eq.symm ▸ hvertex) none, ok_bind, hnext, ok_bind]
  refine foldlM_eq (R := Leveled n visits) ⟨h.size_eq, fun v level hlevel => ?_⟩
    fun v hv levels hlevels => ⟨?_, ?_⟩
  · have hle := h.add_visits_le v level hlevel
    omega
  · exact write_eq (hlevels.size_eq.symm ▸ hfound v hv) _
  · refine hlevels.setIfInBounds fun k hk => ?_
    obtain ⟨level, hlevel, rfl⟩ := Option.map_eq_some_iff.1 hk
    have hle := h.add_visits_le _ _ hlevel
    omega

/-- The visits of a search are recorded without a fault if the levels leave room for them. -/
lemma foldlM_recordLevel_eq {levels : Array (Option Nat)} {n : Nat} (hn : n < 2 ^ 64)
    (h : Leveled n visits.length levels)
    (hvisits : ∀ visit ∈ visits, visit.vertex < n ∧ ∀ v ∈ visit.found, v < n) :
    visits.foldlM recordLevel levels = .ok (visits.foldl WeightedGraph.recordLevel levels) := by
  induction visits generalizing levels with
  | nil => rfl
  | cons visit visits ih =>
      obtain ⟨⟨hvertex, hfound⟩, hvisits⟩ := List.forall_mem_cons.1 hvisits
      obtain ⟨heq, h'⟩ := recordLevel_eq h hn hvertex hfound
      rw [List.foldlM_cons, heq, ok_bind, ih h' hvisits]
      rfl

lemma breadthVisits_nil (found : IndexSet) :
    g.breadthVisits ⟨found, []⟩ = .ok ([], ⟨found, []⟩) := by
  rw [Adjacency.breadthVisits]
  cases g.size <;> rfl

theorem agrees_hopCounts (hg : g.WellFormed) (hsize : g.size < 2 ^ 64) (start : Vertex) :
    Agrees (hopCounts g start) (g.hopCounts start) := by
  have hnone : (Array.replicate g.size (none : Option Nat)).size = g.size := Array.size_replicate
  rw [hopCounts, Adjacency.hopCounts]
  by_cases hs : start < g.size
  · obtain ⟨htracked, hleft⟩ := tracked_start g start
    obtain ⟨visits, s', hrun, hrun', hend, hlen⟩ := exists_breadthVisits_eq hg htracked hleft
    have hblank : Leveled g.size visits.length (Array.replicate g.size none) := by
      refine ⟨hnone, fun v level hlevel => ?_⟩
      exact nomatch (getD_replicate g.size none v).symm.trans hlevel
    have hstart : Leveled g.size visits.length
        ((Array.replicate g.size none).setIfInBounds start (some 0)) :=
      hblank.setIfInBounds fun k hk => by
        obtain rfl := Option.some.inj hk
        rwa [Nat.zero_add]
    rw [if_pos hs, breadthStart_eq, ok_bind, hrun, ok_bind, write_eq (hnone.symm ▸ hs), hrun']
    dsimp only
    rw [ok_bind, foldlM_recordLevel_eq hsize hstart fun visit hvisit => by
      obtain ⟨hvertex, hfound⟩ := hend.visits_found visit hvisit
      exact ⟨hend.lt_size hvertex, fun v hv => hend.lt_size (hfound v hv)⟩]
    exact agrees_ok _
  · have hset : (Array.replicate g.size (none : Option Nat)).setIfInBounds start (some 0) =
        Array.replicate g.size none :=
      Array.setIfInBounds_eq_of_size_le (hnone.le.trans (Nat.le_of_not_lt hs))
    rw [if_neg hs, BreadthState.start, if_neg hs, breadthVisits_nil, hset]
    exact agrees_ok _

/-! ### Paths by the number of entries -/

/-- A step of the search that ends before it visits `goal`. -/
def breadthNextBefore (g : Adjacency W) (goal : Vertex) (s : BreadthState) :
    Checked (Option (Visit × BreadthState)) :=
  if s.queue.head? = some goal then return none else breadthNext g s

/-- The table in which the visited vertex is before every vertex that the visit found. -/
def recordPredecessor (t : Predecessors) (visit : Visit) : Checked Predecessors :=
  visit.found.foldlM (fun t v => write t v (some visit.vertex)) t

/-- The path to a vertex that the visits of a search lead back along. -/
def tracePath (g : Adjacency W) (visits : List Visit) (v : Vertex) : Checked (List Vertex) := do
  pathTo (← visits.foldlM recordPredecessor (Predecessors.none g.size)) v

/-- A path with the fewest entries from `start` to `goal`, if a way leads there. -/
def hopPath? (g : Adjacency W) (start goal : Vertex) : Checked (Option (List Vertex)) := do
  if goal < g.size then
    let (visits, s) ← takeAll (breadthNextBefore g goal) g.size (← breadthStart g.size start)
    if s.queue.head? = some goal then
      return some (← tracePath g visits goal)
    else return none
  else return none

lemma recordPredecessor_eq {t : Predecessors} {visit : Visit} {n : Nat} (hsize : t.size = n)
    (hfound : ∀ v ∈ visit.found, v < n) :
    recordPredecessor t visit = .ok (WeightedGraph.recordPredecessor t visit) ∧
      (WeightedGraph.recordPredecessor t visit).size = n := by
  refine foldlM_eq (R := fun t : Predecessors => t.size = n) hsize fun v hv t ht => ⟨?_, ?_⟩
  · exact write_eq (ht.symm ▸ hfound v hv) _
  · exact Array.size_setIfInBounds.trans ht

/-- The visits of a search are recorded without a fault, and a path to what waits is read. -/
lemma tracePath_eq (h : g.Tracked s visits) {goal : Vertex} (hgoal : goal ∈ s.queue) :
    tracePath g visits goal =
      .ok ((visits.foldl WeightedGraph.recordPredecessor (Predecessors.none g.size)).pathTo
        goal) := by
  have hrecord : visits.foldlM recordPredecessor (Predecessors.none g.size) =
      .ok (visits.foldl WeightedGraph.recordPredecessor (Predecessors.none g.size)) :=
    (foldlM_eq (R := fun t => t.size = g.size) Array.size_replicate fun visit hvisit t ht =>
      recordPredecessor_eq ht fun v hv => h.lt_size ((h.visits_found visit hvisit).2 v hv)).1
  obtain ⟨path, htrace, hnodup, hpath⟩ := h.traced goal (h.queue_found goal hgoal)
  rw [tracePath, hrecord, ok_bind]
  refine pathTo_eq htrace hnodup fun u hu => ?_
  rw [h.table_size]
  exact h.lt_size (hpath u hu)

theorem agrees_hopPath? (hg : g.WellFormed) (start goal : Vertex) :
    Agrees (hopPath? g start goal) (g.hopPath? start goal) := by
  have hstep : ∀ s visits, g.Tracked s visits →
      (breadthNextBefore g goal s = .ok none ∧ g.breadthNextBefore goal s = .ok none) ∨
        ∃ visit s', breadthNextBefore g goal s = .ok (some (visit, s')) ∧
          g.breadthNextBefore goal s = .ok (some (visit, s')) ∧
          g.Tracked s' (visits ++ [visit]) ∧ breadthLeft s' < breadthLeft s := by
    intro s visits h
    by_cases hgoal : s.queue.head? = some goal
    · exact Or.inl ⟨if_pos hgoal, if_pos hgoal⟩
    · rw [breadthNextBefore, Adjacency.breadthNextBefore, if_neg hgoal, if_neg hgoal]
      exact breadthNext_step hg h
  rw [hopPath?, Adjacency.hopPath?]
  by_cases hlt : goal < g.size
  · obtain ⟨htracked, hleft⟩ := tracked_start g start
    obtain ⟨visits, s', hrun, hrun', hend⟩ := exists_takeAll_eq hstep htracked hleft
    rw [if_pos hlt, if_pos hlt, breadthStart_eq, ok_bind, hrun, hrun']
    rw [ok_bind, ok_bind]
    dsimp only
    by_cases hgoal : s'.queue.head? = some goal
    · rw [if_pos hgoal, if_pos hgoal, tracePath_eq hend (List.mem_of_mem_head? hgoal)]
      exact agrees_ok _
    · rw [if_neg hgoal, if_neg hgoal]
      exact agrees_ok _
  · rw [if_neg hlt, if_neg hlt]
    exact agrees_ok _

end Checked

end WeightedGraph
