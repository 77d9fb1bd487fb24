import Mathlib
import WeightedGraph.Graph.Query
import WeightedGraph.Proofs.Graph.Filled
import WeightedGraph.Proofs.IndexSet.Insertion
import WeightedGraph.Proofs.Search.Steps
import WeightedGraph.Weight.Saturating

/-!
The two depth-first searches give the same order.

* `Adjacency.Visits`: what a depth-first search does with a list of vertices that wait. It says
  neither whether a stack or a recursion keeps them, nor how deep the recursion may go, but it
  counts how deep it goes.
* `Visits.foldlM_enter_eq_ok`, `Visits.foldlM_enter_eq_error`: the recursion does this if its depth
  suffices, and fails otherwise.
* `Visits.yields`: the search with a stack does this. On the stack stand the waiting lists of all
  vertices that the recursion has not left, without the entries that were visited when their vertex
  was.
* `Adjacency.exists_visits`: this is defined for every list of vertices, and goes no deeper than
  there are vertices to visit.
-/

namespace WeightedGraph

namespace Adjacency

variable {W : Type} {g : Adjacency W} {s s' : IndexSet} {us out : List Vertex} {k v : Nat}

/-- `g.Visits s us out s' k` says that the vertices `us` have their turns after those of `s` were
visited: `out` are the vertices visited on the way, in order, `s'` are those visited in the end, and
`k` is how many visits are under way at one time at most. -/
inductive Visits (g : Adjacency W) :
    IndexSet → List Vertex → List Vertex → IndexSet → Nat → Prop
  | nil (s : IndexSet) : Visits g s [] [] s 0
  | skip {s s' : IndexSet} {v k : Nat} {us out : List Vertex} : s.contains v = true →
      Visits g s us out s' k → Visits g s (v :: us) out s' k
  | visit {s s₁ s₂ : IndexSet} {v j k : Nat} {us below out : List Vertex} : v < s.capacity →
      s.contains v = false → Visits g (s.insert v) ((g.row v).map Entry.target) below s₁ j →
      Visits g s₁ us out s₂ k → Visits g s (v :: us) (v :: (below ++ out)) s₂ (max (j + 1) k)

namespace Visits

lemma capacity_eq (h : g.Visits s us out s' k) : s'.capacity = s.capacity := by
  induction h with
  | nil => rfl
  | skip _ _ ih => exact ih
  | visit _ _ _ _ ih ih' => exact ih'.trans (ih.trans (IndexSet.capacity_insert _ _))

/-- What is visited in the end was visited before or is in the order. -/
lemma contains_iff {x : Vertex} (h : g.Visits s us out s' k) :
    s'.contains x = true ↔ s.contains x = true ∨ x ∈ out := by
  induction h with
  | nil => simp
  | skip _ _ ih => exact ih
  | visit hv _ _ _ ih ih' =>
      rw [ih', ih, IndexSet.contains_insert_iff hv, List.mem_cons, List.mem_append, or_assoc,
        or_assoc]

/-- What was visited stays visited. -/
lemma contains (h : g.Visits s us out s' k) (hv : s.contains v = true) :
    s'.contains v = true :=
  h.contains_iff.2 (Or.inl hv)

/-- What has its turn is visited in the end. -/
lemma contains_of_mem {u : Vertex} (h : g.Visits s us out s' k) (hu : u ∈ us) :
    s'.contains u = true := by
  induction h with
  | nil => exact absurd hu List.not_mem_nil
  | skip hc hrest ih =>
      rcases List.mem_cons.1 hu with rfl | hu
      · exact hrest.contains hc
      · exact ih hu
  | visit hv _ hbelow hrest _ ih' =>
      rcases List.mem_cons.1 hu with rfl | hu
      · exact hrest.contains (hbelow.contains (IndexSet.contains_insert_self hv))
      · exact ih' hu

/-- Each vertex of the order was absent before. -/
lemma length_add_card_absent (h : g.Visits s us out s' k) :
    out.length + s'.absent.card = s.absent.card := by
  induction h with
  | nil => exact Nat.zero_add _
  | skip _ _ ih => exact ih
  | visit hv hs _ _ ih ih' =>
      have hcard := IndexSet.card_absent_insert hv hs
      rw [List.length_cons, List.length_append]
      omega

end Visits

/-- Every list of vertices can have its turns, and no more visits are under way at one time than
vertices are absent. The induction is on the number of absent vertices: a visit leaves fewer of them
for what is below it and for what comes after it. -/
theorem exists_visits (hg : g.WellFormed) (hs : s.capacity = g.size) (hus : ∀ u ∈ us, u < g.size) :
    ∃ out s' k, g.Visits s us out s' k ∧ k ≤ s.absent.card := by
  induction hn : s.absent.card using Nat.strong_induction_on generalizing s us with
  | _ n ih =>
      induction us with
      | nil => exact ⟨[], s, 0, .nil s, Nat.zero_le n⟩
      | cons v us ihus =>
          obtain ⟨hv, hus⟩ := List.forall_mem_cons.1 hus
          cases hc : s.contains v with
          | true =>
              obtain ⟨out, s', k, hvisits, hk⟩ := ihus hus
              exact ⟨out, s', k, .skip hc hvisits, hk⟩
          | false =>
              have hvs : v < s.capacity := hs.symm ▸ hv
              have hcard := IndexSet.card_absent_insert hvs hc
              have hs₁ := (IndexSet.capacity_insert s v).trans hs
              have hrow : ∀ u ∈ (g.row v).map Entry.target, u < g.size := by
                intro u hu
                obtain ⟨e, he, rfl⟩ := List.mem_map.1 hu
                exact hg v e he
              obtain ⟨below, s₁, j, hbelow, hj⟩ := ih _ (by omega) hs₁ hrow rfl
              have hcard₁ := hbelow.length_add_card_absent
              obtain ⟨out, s₂, k, hrest, hk⟩ :=
                ih s₁.absent.card (by omega) (hbelow.capacity_eq.trans hs₁) hus rfl
              exact ⟨_, s₂, _, .visit hvs hc hbelow hrest, by omega⟩

/-! ### The recursion -/

/-- Visits a vertex by recursion unless it has been visited. -/
def enter (g : Adjacency W) (limit depth : Nat) (s : DepthRecord) (v : Vertex) :
    Except GraphError DepthRecord := do
  if ← s.visited.tryContains v then return s else g.descend limit depth v s

lemma descend_succ (limit depth : Nat) (v : Vertex) (s : DepthRecord) :
    g.descend limit (depth + 1) v s =
      ((g.row v).map Entry.target).foldlM (g.enter limit depth) (s.mark v) := by
  rw [List.foldlM_map]
  rfl

lemma enter_of_contains {r : DepthRecord} (h : r.visited.contains v = true) (limit depth : Nat) :
    g.enter limit depth r v = .ok r := by
  rw [enter, IndexSet.tryContains, if_pos (IndexSet.lt_capacity_of_contains h), h]
  rfl

lemma enter_of_not_contains {r : DepthRecord} (hv : v < r.visited.capacity)
    (h : r.visited.contains v = false) (limit depth : Nat) :
    g.enter limit depth r v = g.descend limit depth v r := by
  rw [enter, IndexSet.tryContains, if_pos hv, h]
  rfl

namespace Visits

/-- The recursion makes these visits if it may go deep enough. -/
theorem foldlM_enter_eq_ok (h : g.Visits s us out s' k) (limit : Nat) {depth : Nat}
    (hk : k ≤ depth) (order : List Vertex) :
    us.foldlM (g.enter limit depth) ⟨s, order⟩ = .ok ⟨s', out.reverse ++ order⟩ := by
  induction h generalizing depth order with
  | nil => rfl
  | @skip s s' v k us out hc _ ih =>
      rw [List.foldlM_cons, enter_of_contains hc]
      exact ih hk order
  | @visit s s₁ s₂ v j k us below out hv hc _ _ ih ih' =>
      obtain ⟨depth, rfl⟩ : ∃ d, depth = d + 1 := ⟨depth - 1, by omega⟩
      have hbelow := ih (show j ≤ depth by omega) (v :: order)
      have hrest := ih' (show k ≤ depth + 1 by omega) (below.reverse ++ v :: order)
      rw [List.foldlM_cons, enter_of_not_contains hv hc, descend_succ, DepthRecord.mark, hbelow]
      refine hrest.trans ?_
      simp

/-- The recursion fails if it may not. -/
theorem foldlM_enter_eq_error (h : g.Visits s us out s' k) (limit : Nat) {depth : Nat}
    (hk : depth < k) (order : List Vertex) :
    us.foldlM (g.enter limit depth) ⟨s, order⟩ = .error (.recursionLimit limit) := by
  induction h generalizing depth order with
  | nil => exact absurd hk (Nat.not_lt_zero depth)
  | @skip s s' v k us out hc _ ih =>
      rw [List.foldlM_cons, enter_of_contains hc]
      exact ih hk order
  | @visit s s₁ s₂ v j k us below out hv hc hbelow _ ih ih' =>
      rw [List.foldlM_cons, enter_of_not_contains hv hc]
      cases depth with
      | zero => rfl
      | succ depth =>
          rw [descend_succ, DepthRecord.mark]
          by_cases hj : j ≤ depth
          · rw [hbelow.foldlM_enter_eq_ok limit hj]
            exact ih' (by omega) _
          · rw [ih (by omega)]
            rfl

end Visits

/-! ### The stack -/

lemma depthNext_nil (s : IndexSet) : g.depthNext ⟨s, []⟩ = .ok none :=
  rfl

lemma depthNext_cons_of_contains (h : s.contains v = true) (stack : List Vertex) :
    g.depthNext ⟨s, v :: stack⟩ = g.depthNext ⟨s, stack⟩ := by
  simp only [depthNext, List.dropWhile_cons_of_pos h]

lemma depthNext_cons_of_not_contains (hg : g.WellFormed) (h : s.contains v = false)
    (stack : List Vertex) :
    g.depthNext ⟨s, v :: stack⟩ = .ok (some (v, ⟨s.insert v,
      ((g.row v).map Entry.target).filter (fun u => !(s.insert v).contains u) ++ stack⟩)) := by
  have hdrop : (v :: stack).dropWhile s.contains = v :: stack :=
    List.dropWhile_cons_of_neg (by rw [h]; exact Bool.false_ne_true)
  simp only [depthNext, hdrop, neighbours, expand_of_wellFormed hg]
  rfl

/-- The search with a stack makes these visits before it comes to what stood below. From the waiting
vertices those may be missing that have been visited: the search does not put them on the stack,
and it passes over those that were visited since. -/
theorem Visits.yields (hg : g.WellFormed) (h : g.Visits s us out s' k) {p : Vertex → Bool}
    (hp : ∀ u ∈ us, p u = false → s.contains u = true) {rest outs : List Vertex}
    (hrest : Yields g.depthNext ⟨s', rest⟩ outs) :
    Yields g.depthNext ⟨s, us.filter p ++ rest⟩ (out ++ outs) := by
  induction h generalizing p rest outs with
  | nil => exact hrest
  | @skip s s' v k us out hc _ ih =>
      have hus := ih (fun u hu => hp u (List.mem_cons_of_mem v hu)) hrest
      cases hpv : p v with
      | true =>
          rw [List.filter_cons_of_pos hpv]
          exact hus.congr (depthNext_cons_of_contains hc _)
      | false =>
          rw [List.filter_cons_of_neg (by rw [hpv]; exact Bool.false_ne_true)]
          exact hus
  | @visit s s₁ s₂ v j k us below out hv hc hbelow _ ih ih' =>
      have hpv : p v = true := by
        by_contra hpv
        rw [Bool.not_eq_true] at hpv
        exact absurd (hp v List.mem_cons_self hpv) (by rw [hc]; exact Bool.false_ne_true)
      have hkept : ∀ u ∈ us, p u = false → s₁.contains u = true := by
        intro u hu hpu
        refine hbelow.contains ?_
        rw [IndexSet.contains_insert, hp u (List.mem_cons_of_mem v hu) hpu, Bool.true_or]
      have htail := ih (p := fun u => !(s.insert v).contains u)
        (fun u _ hu => by simpa using hu) (ih' hkept hrest)
      rw [List.filter_cons_of_pos hpv, List.cons_append, List.cons_append, List.append_assoc]
      exact .step (depthNext_cons_of_not_contains hg hc _) htail

/-! ### Both searches from a vertex -/

/-- From a vertex the search with a stack makes the visits of that vertex alone, and ends. -/
lemma exists_visits_start {start : Vertex} (hg : g.WellFormed) (hs : start < g.size) :
    ∃ order s' k, g.Visits (IndexSet.empty g.size) [start] order s' k ∧ k ≤ g.size ∧
      order.length ≤ g.size ∧ Yields g.depthNext (DepthState.start g.size start) order := by
  obtain ⟨order, s', k, hvisits, hk⟩ :=
    exists_visits (s := IndexSet.empty g.size) hg rfl
      (show ∀ u ∈ [start], u < g.size by simpa using hs)
  have hlength := hvisits.length_add_card_absent
  rw [IndexSet.card_absent_empty] at hk hlength
  have hyields := hvisits.yields hg (p := fun _ => true) (by simp) (.done (depthNext_nil s'))
  refine ⟨order, s', k, hvisits, hk, by omega, ?_⟩
  rw [DepthState.start, if_pos hs]
  simpa using hyields

/-- The recursion from a vertex makes the same visits if it may go deep enough, and fails otherwise. -/
lemma Visits.recursiveDepthOrder_eq {start : Vertex} (hs : start < g.size)
    (h : g.Visits (IndexSet.empty g.size) [start] out s' k) (maxDepth : Nat) :
    g.recursiveDepthOrder start maxDepth =
      if k ≤ maxDepth then .ok out else .error (.recursionLimit maxDepth) := by
  have hcap : start < (IndexSet.empty g.size).capacity := hs
  have hsingle : [start].foldlM (g.enter maxDepth maxDepth) ⟨IndexSet.empty g.size, []⟩ =
      g.descend maxDepth maxDepth start ⟨IndexSet.empty g.size, []⟩ := by
    rw [List.foldlM_cons, enter_of_not_contains hcap (IndexSet.contains_empty g.size start)]
    exact bind_pure _
  rw [recursiveDepthOrder, if_pos hs, ← hsingle]
  split
  · next hkd =>
      rw [h.foldlM_enter_eq_ok maxDepth hkd, List.append_nil]
      exact congrArg Except.ok (List.reverse_reverse out)
  · next hkd =>
      rw [h.foldlM_enter_eq_error maxDepth (Nat.not_le.1 hkd)]
      rfl

/-- Some order is the order of both searches, the recursive one failing just below some depth. -/
theorem exists_depthFirst (hg : g.WellFormed) (start : Vertex) :
    ∃ order k, order.length ≤ g.size ∧ k ≤ g.size ∧
      Yields g.depthNext (DepthState.start g.size start) order ∧
      ∀ maxDepth, g.recursiveDepthOrder start maxDepth =
        if k ≤ maxDepth then .ok order else .error (.recursionLimit maxDepth) := by
  by_cases hstart : start < g.size
  · obtain ⟨order, s', k, hvisits, hk, hlength, hyields⟩ := exists_visits_start hg hstart
    exact ⟨order, k, hlength, hk, hyields, hvisits.recursiveDepthOrder_eq hstart⟩
  · refine ⟨[], 0, Nat.zero_le _, Nat.zero_le _, ?_, fun maxDepth => ?_⟩
    · rw [DepthState.start, if_neg hstart]
      exact .done (depthNext_nil _)
    · rw [recursiveDepthOrder, if_neg hstart, if_pos (Nat.zero_le maxDepth)]
      rfl

/-- The order that the search with a stack yields is the one that is collected, since there are no
more visits than vertices. -/
lemma depthOrder_eq_of_yields {start : Vertex} {order : List Vertex}
    (h : Yields g.depthNext (DepthState.start g.size start) order) (hlen : order.length ≤ g.size) :
    g.depthOrder start = .ok order := by
  obtain ⟨s', hs'⟩ := h.takeSteps g.size
  rw [depthOrder, hs', List.take_of_length_le hlen]
  rfl

end Adjacency

/-! ### Graphs -/

namespace Graph

variable {W : Type} {g : Graph W} {start : Vertex} {order : List Vertex}

lemma depthOrder_eq (h : start < g.size) : g.depthOrder start = g.adjacency.depthOrder start := by
  rw [depthOrder, requireStart_eq_ok_iff.2 h]
  rfl

/-- What it takes for the recursive search of a graph to succeed. -/
lemma depthOrderWith_eq_ok {settings : Settings} (hs : settings.depth = .recursive)
    (h : g.depthOrderWith settings start = .ok order) :
    start < g.size ∧ g.adjacency.recursiveDepthOrder start settings.recursionLimit = .ok order := by
  simp only [depthOrderWith, hs] at h
  cases hr : g.requireStart start with
  | error e =>
      rw [hr] at h
      cases h
  | ok _ =>
      rw [hr] at h
      exact ⟨requireStart_eq_ok_iff.1 hr, h⟩

/-- Wherever the recursive search succeeds, its order is the one that the search with a stack
yields, and it succeeds if its depth may come up to the number of vertices. So a graph has one
depth-first order, in whichever way it is searched. -/
theorem depthOrder_eq_of_recursive [Weight W] :
    (∀ g : Adjacency W, g.WellFormed → ∀ start maxDepth,
      (∀ order, g.recursiveDepthOrder start maxDepth = .ok order →
        Yields g.depthNext (DepthState.start g.size start) order ∧
          g.depthOrder start = .ok order) ∧
      (g.size ≤ maxDepth → ∃ order, g.recursiveDepthOrder start maxDepth = .ok order)) ∧
    ∀ n (is : List (Insertion W)) (settings : Settings) start order,
      settings.depth = .recursive → (filled n is).depthOrderWith settings start = .ok order →
        (filled n is).depthOrder start = .ok order := by
  have hagree : ∀ g : Adjacency W, g.WellFormed → ∀ start maxDepth order,
      g.recursiveDepthOrder start maxDepth = .ok order →
        Yields g.depthNext (DepthState.start g.size start) order ∧
          g.depthOrder start = .ok order := by
    intro g hg start maxDepth order h
    obtain ⟨order', k, hlen, -, hyields, hrec⟩ := Adjacency.exists_depthFirst hg start
    rw [hrec] at h
    split at h
    · obtain rfl : order' = order := Except.ok.inj h
      exact ⟨hyields, Adjacency.depthOrder_eq_of_yields hyields hlen⟩
    · cases h
  refine ⟨fun g hg start maxDepth => ⟨hagree g hg start maxDepth, fun hsize => ?_⟩, ?_⟩
  · obtain ⟨order, k, -, hk, -, hrec⟩ := Adjacency.exists_depthFirst hg start
    exact ⟨order, by rw [hrec, if_pos (hk.trans hsize)]⟩
  · intro n is settings start order hs h
    obtain ⟨hstart, hrec⟩ := depthOrderWith_eq_ok hs h
    rw [depthOrder_eq hstart]
    exact (hagree _ (wellFormed_filled n is) start _ order hrec).2

/-- Parallel entries, a loop, an entry back and one across: the vertex `3` waits twice on the stack.
The recursion needs depth `4`, one less than there are vertices. -/
theorem depthOrder_eq_of_recursive_crossing :
    let entry (v : Vertex) : Entry (Saturating (IntRange.signed 32)) := ⟨v, 0⟩
    let g : Adjacency (Saturating (IntRange.signed 32)) :=
      ⟨#[[entry 1, entry 3, entry 2, entry 1], [entry 1, entry 3, entry 0], [entry 3], [entry 4], []]⟩
    let edge (u v : Vertex) : Edge (Saturating (IntRange.signed 32)) := ⟨u, v, 0⟩
    let is : List (Insertion (Saturating (IntRange.signed 32))) :=
      [⟨edge 0 2, false⟩, ⟨edge 0 1, true⟩, ⟨edge 2 1, false⟩, ⟨edge 5 0, true⟩]
    let settings : Settings := ⟨.scan, .recursive, 3⟩
    g.WellFormed ∧ g.recursiveDepthOrder 0 4 = .ok [0, 1, 3, 4, 2] ∧
      g.recursiveDepthOrder 0 3 = .error (.recursionLimit 3) ∧
      Yields g.depthNext (DepthState.start 5 0) [0, 1, 3, 4, 2] ∧
      g.depthOrder 0 = .ok [0, 1, 3, 4, 2] ∧ (∃ order, g.recursiveDepthOrder 0 5 = .ok order) ∧
      (filled 3 is).depthOrderWith settings 0 = .ok [0, 2, 1] ∧
      (filled 3 is).depthOrder 0 = .ok [0, 2, 1] := by
  intro entry g edge is settings
  have hg : g.WellFormed := by decide
  have hrec : g.recursiveDepthOrder 0 4 = .ok [0, 1, 3, 4, 2] := by cbv
  have herror : g.recursiveDepthOrder 0 3 = .error (.recursionLimit 3) := by cbv
  have hfilled : (filled 3 is).depthOrderWith settings 0 = .ok [0, 2, 1] := by cbv
  have hall := depthOrder_eq_of_recursive (W := Saturating (IntRange.signed 32))
  obtain ⟨hyields, horder⟩ := (hall.1 g hg 0 4).1 _ hrec
  exact ⟨hg, hrec, herror, hyields, horder, (hall.1 g hg 0 5).2 (by decide), hfilled,
    hall.2 3 is settings 0 _ rfl hfilled⟩

end Graph

end WeightedGraph
