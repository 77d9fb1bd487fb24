import Mathlib
import WeightedGraph.Proofs.Checked.Run
import WeightedGraph.Proofs.Search.BreadthFirst
import WeightedGraph.Search.Depth

/-!
Depth-first searches with every access checked.

* `Checked.depthNext`, `Checked.depthOrder`: the search with a stack. Each visit takes one vertex
  from those that are absent, so `DepthState.Tracked` and their number bound the search.
* `Checked.descend`, `Checked.recursiveDepthOrder`: the search by recursion, with its depth as a
  counter. What it may go deep bounds it, and meeting that bound is no fault but what a caller is
  told.
* `Checked.agrees_depthOrder`, `Checked.agrees_recursiveDepthOrder`: neither search of well-formed
  lists comes to a fault.
-/

namespace WeightedGraph

variable {W : Type} {g : Adjacency W} {s : IndexSet} {us : List Vertex} {v : Vertex}

/-- Whatever was visited or waits is a vertex. -/
structure DepthState.Tracked (g : Adjacency W) (s : DepthState) : Prop where
  capacity_eq : s.visited.capacity = g.size
  stack_lt : ∀ v ∈ s.stack, v < g.size

namespace Checked

/-! ### With a stack -/

/-- The waiting vertices from the first one on that has not been visited. -/
def popVisited (s : IndexSet) : List Vertex → Checked (List Vertex)
  | [] => return []
  | v :: us => do
      if ← contains s v then popVisited s us else return v :: us

/-- The vertices of a list that have not been visited. -/
def unvisited (s : IndexSet) : List Vertex → Checked (List Vertex)
  | [] => return []
  | v :: us => do
      if ← contains s v then unvisited s us else return v :: (← unvisited s us)

/-- Visits the first vertex of the stack that has not been visited, and lets its neighbours wait
that have not either, in the order of its entries. -/
def depthNext (g : Adjacency W) (s : DepthState) : Checked (Option (Vertex × DepthState)) := do
  match ← popVisited s.visited s.stack with
  | [] => return none
  | v :: rest =>
      let visited ← insert s.visited v
      let entries ← read g.rows v
      return some (v, ⟨visited, (← unvisited visited (entries.map Entry.target)) ++ rest⟩)

/-- The vertices reached from `start` in the order of their visits. -/
def depthOrder (g : Adjacency W) (start : Vertex) : Checked (List Vertex) := do
  let (order, _) ← takeAll (depthNext g) g.size (DepthState.start g.size start)
  return order

lemma popVisited_eq (h : ∀ v ∈ us, v < s.capacity) :
    popVisited s us = .ok (us.dropWhile s.contains) := by
  induction us with
  | nil => rfl
  | cons v us ih =>
      obtain ⟨hv, hus⟩ := List.forall_mem_cons.1 h
      rw [popVisited, contains_eq hv, ok_bind, List.dropWhile_cons]
      split
      · exact ih hus
      · rfl

lemma unvisited_eq (h : ∀ v ∈ us, v < s.capacity) :
    unvisited s us = .ok (us.filter fun v => !s.contains v) := by
  induction us with
  | nil => rfl
  | cons v us ih =>
      obtain ⟨hv, hus⟩ := List.forall_mem_cons.1 h
      rw [unvisited, contains_eq hv, ok_bind, List.filter_cons]
      cases s.contains v with
      | true => exact ih hus
      | false =>
          rw [if_neg Bool.false_ne_true, ih hus]
          rfl

/-- A step comes to no fault, and one vertex less is absent. -/
theorem depthNext_step (hg : g.WellFormed) {s : DepthState} (h : s.Tracked g) :
    (depthNext g s = .ok none ∧ g.depthNext s = .ok none) ∨
      ∃ v s', depthNext g s = .ok (some (v, s')) ∧ g.depthNext s = .ok (some (v, s')) ∧
        s'.Tracked g ∧ s'.visited.absent.card < s.visited.absent.card := by
  have hpop : popVisited s.visited s.stack = .ok (s.stack.dropWhile s.visited.contains) :=
    popVisited_eq (h.capacity_eq.symm ▸ h.stack_lt)
  cases hwait : s.stack.dropWhile s.visited.contains with
  | nil =>
      left
      constructor
      · rw [depthNext, hpop, hwait]
        rfl
      · simp only [Adjacency.depthNext, hwait]
  | cons v rest =>
      have hsub : v :: rest <:+ s.stack := hwait ▸ List.dropWhile_suffix _
      have hv : v < g.size := h.stack_lt v (hsub.mem List.mem_cons_self)
      have hcap : v < s.visited.capacity := h.capacity_eq.symm ▸ hv
      have hnot : s.visited.contains v = false := by
        have hhead := List.head?_dropWhile_not s.visited.contains s.stack
        rw [hwait] at hhead
        simpa using hhead
      have hcapacity : (s.visited.insert v).capacity = g.size :=
        (IndexSet.capacity_insert _ _).trans h.capacity_eq
      have htargets : ∀ u ∈ g.targets v, u < g.size := Adjacency.lt_of_mem_targets hg
      refine Or.inr ⟨v, ⟨s.visited.insert v,
        (g.targets v).filter (fun u => !(s.visited.insert v).contains u) ++ rest⟩, ?_, ?_, ?_, ?_⟩
      · rw [depthNext, hpop, hwait, ok_bind]
        dsimp only
        rw [insert_eq hcap, ok_bind, read_row hv, ok_bind, ← Adjacency.targets,
          unvisited_eq (hcapacity.symm ▸ htargets)]
        rfl
      · simp only [Adjacency.depthNext, hwait, Adjacency.neighbours_of_wellFormed hg]
        rfl
      · refine ⟨hcapacity, fun u hu => ?_⟩
        rcases List.mem_append.1 hu with hu | hu
        · exact htargets u (List.mem_of_mem_filter hu)
        · exact h.stack_lt u (hsub.mem (List.mem_cons_of_mem v hu))
      · have hcard := IndexSet.card_absent_insert hcap hnot
        dsimp only
        omega

theorem agrees_depthOrder (hg : g.WellFormed) (start : Vertex) :
    Agrees (depthOrder g start) (g.depthOrder start) := by
  have htracked : (DepthState.start g.size start).Tracked g := by
    refine ⟨rfl, fun v hv => ?_⟩
    rw [DepthState.start] at hv
    split at hv
    · next hs => exact List.mem_singleton.1 hv ▸ hs
    · exact absurd hv List.not_mem_nil
  obtain ⟨order, s', hrun, hrun', -⟩ :=
    exists_takeAll_eq (I := fun (s : DepthState) _ => s.Tracked g)
      (fun s _ => depthNext_step hg) htracked (IndexSet.card_absent_empty g.size).le
  rw [depthOrder, Adjacency.depthOrder, hrun, hrun']
  exact agrees_ok _

/-! ### By recursion -/

/-- Visits `v`, which is `depth` deep, and from each of its neighbours in turn, unless it has been
visited by then, what can be reached; is refused with `limit` where no depth is left. -/
def descend (g : Adjacency W) (limit : Nat) :
    Nat → Nat → Vertex → DepthRecord → Checked DepthRecord
  | 0, _, _, _ => throw (.refused (.recursionLimit limit))
  | left + 1, depth, v, s => do
      let visited ← insert s.visited v
      let entries ← read g.rows v
      entries.foldlM
        (fun s e => do
          if ← contains s.visited e.target then return s
          else descend g limit left (← increment 64 depth) e.target s)
        ⟨visited, v :: s.order⟩

/-- The vertices reached from `start` in the order of the recursive search, which may go `maxDepth`
deep. -/
def recursiveDepthOrder (g : Adjacency W) (start : Vertex) (maxDepth : Nat) :
    Checked (List Vertex) := do
  if start < g.size then
    let s ← descend g maxDepth maxDepth 1 start ⟨IndexSet.empty g.size, []⟩
    return s.order.reverse
  else
    return []

/-- What a call of the recursion leaves: no more vertices are absent than before. -/
structure Narrows (g : Adjacency W) (s s' : DepthRecord) : Prop where
  capacity_eq : s'.visited.capacity = g.size
  card_absent_le : s'.visited.absent.card ≤ s.visited.absent.card

/-- The recursion comes to no fault below any vertex that has not been visited, whatever depth is
left. As every call on the way down has visited another vertex, the depth is bounded by the number
of vertices, and so it can be counted. -/
theorem agreesWith_descend (hg : g.WellFormed) (hsize : g.size < 2 ^ 64) (limit left : Nat)
    {depth : Nat} {s : DepthRecord} (hv : v < g.size) (hs : s.visited.capacity = g.size)
    (hnew : s.visited.contains v = false) (hdepth : depth + s.visited.absent.card ≤ g.size + 1) :
    AgreesWith (Narrows g s) (descend g limit left depth v s) (g.descend limit left v s) := by
  induction left generalizing depth v s with
  | zero => exact .refusal (by simp)
  | succ left ih =>
      have hv' : v < s.visited.capacity := hs.symm ▸ hv
      have hcard : (s.mark v).visited.absent.card + 1 = s.visited.absent.card :=
        IndexSet.card_absent_insert hv' hnew
      have hmark : Narrows g (s.mark v) (s.mark v) :=
        ⟨(IndexSet.capacity_insert _ _).trans hs, le_rfl⟩
      rw [descend, Adjacency.descend, insert_eq hv', ok_bind, read_row hv, ok_bind]
      refine (AgreesWith.foldlM (R := Narrows g (s.mark v)) hmark fun e he s' hs' => ?_).mono
        fun s' hs' => ⟨hs'.capacity_eq, by have := hs'.card_absent_le; omega⟩
      have hlt : e.target < s'.visited.capacity := hs'.capacity_eq.symm ▸ hg v e he
      rw [contains_eq hlt, IndexSet.tryContains, if_pos hlt, ok_bind, ok_bind]
      split
      · exact .value hs'
      · next hnot =>
          have hfresh : s'.visited.contains e.target = false := Bool.eq_false_iff.2 hnot
          have hpos : 0 < s'.visited.absent.card :=
            Finset.card_pos.2 ⟨e.target, IndexSet.mem_absent.2 ⟨hlt, hfresh⟩⟩
          have hle := hs'.card_absent_le
          rw [increment_eq (by omega), ok_bind]
          exact (ih (hg v e he) hs'.capacity_eq hfresh (by omega)).mono fun s'' hs'' =>
            ⟨hs''.capacity_eq, hs''.card_absent_le.trans hle⟩

theorem agrees_recursiveDepthOrder (hg : g.WellFormed) (hsize : g.size < 2 ^ 64) (start : Vertex)
    (maxDepth : Nat) :
    Agrees (recursiveDepthOrder g start maxDepth) (g.recursiveDepthOrder start maxDepth) := by
  rw [recursiveDepthOrder, Adjacency.recursiveDepthOrder]
  split
  · next hs =>
      have hdepth : 1 + (IndexSet.empty g.size).absent.card ≤ g.size + 1 := by
        rw [IndexSet.card_absent_empty]
        omega
      have hdescend := agreesWith_descend hg hsize maxDepth maxDepth
        (s := ⟨IndexSet.empty g.size, []⟩) hs rfl (IndexSet.contains_empty _ _) hdepth
      exact hdescend.bind fun _ _ => agrees_ok _
  · exact agrees_ok _

end Checked

end WeightedGraph
