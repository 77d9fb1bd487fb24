import Mathlib
import WeightedGraph.Proofs.Checked.Run
import WeightedGraph.Proofs.Search.BreadthFirst
import WeightedGraph.Proofs.Search.Tables
import WeightedGraph.Proofs.Search.Traces
import WeightedGraph.Search.Components

/-!
Breadth-first searches with every access checked.

* `Checked.breadthNext`, `Checked.breadthVisits` and what is read off them: the order of a search
  and the components.
* `Adjacency.Tracked`: the invariant of a search. What waits and what was visited is found, so it is
  a vertex, and the predecessors lead from everything found back through what is found.
* `Checked.breadthNext_step`: a step reads and writes vertices only, and preserves this.
* `Checked.exists_breadthVisits_eq`: so a search comes to its end, after no more visits than there
  are vertices.
* `Checked.agrees_breadthOrder`, `Checked.agrees_components`, `Checked.agrees_componentCount`: the
  searches of well-formed lists come to no fault.
-/

namespace WeightedGraph

variable {W : Type} {g : Adjacency W} {s : BreadthState} {found : IndexSet} {visits : List Visit}
  {u v root : Vertex} {is : List Nat}

/-! ### Steps -/

namespace Checked

/-- Inserts the numbers of a list in turn, with those that were new. -/
def insertNew (s : IndexSet) : List Nat → Checked (IndexSet × List Nat)
  | [] => return (s, [])
  | i :: is => do
      if ← contains s i then insertNew s is
      else
        let s ← insert s i
        let (s, new) ← insertNew s is
        return (s, i :: new)

lemma insertNew_eq {s : IndexSet} (h : ∀ i ∈ is, i < s.capacity) :
    insertNew s is = .ok (s.insertNew is) := by
  induction is generalizing s with
  | nil => rfl
  | cons i is ih =>
      obtain ⟨hi, his⟩ := List.forall_mem_cons.1 h
      rw [insertNew, contains_eq hi, ok_bind]
      cases hc : s.contains i with
      | true =>
          rw [IndexSet.insertNew_cons_of_contains hc]
          exact ih his
      | false =>
          rw [IndexSet.insertNew_cons_of_not_contains hc, if_neg Bool.false_ne_true, insert_eq hi,
            ok_bind, ih (by rwa [IndexSet.capacity_insert])]
          rfl

/-- The state in which a search begins. -/
def breadthStart (size : Nat) (start : Vertex) : Checked BreadthState := do
  if start < size then return ⟨← insert (IndexSet.empty size) start, [start]⟩
  else return ⟨IndexSet.empty size, []⟩

/-- Visits the first vertex of the queue and lets the neighbours that it finds wait. -/
def breadthNext (g : Adjacency W) (s : BreadthState) :
    Checked (Option (Visit × BreadthState)) :=
  match s.queue with
  | [] => return none
  | v :: rest => do
      let entries ← read g.rows v
      let (found, new) ← insertNew s.found (entries.map Entry.target)
      return some (⟨v, new⟩, ⟨found, rest ++ new⟩)

/-- The visits from a state until nothing waits. -/
def breadthVisits (g : Adjacency W) (s : BreadthState) : Checked (List Visit × BreadthState) :=
  takeAll (breadthNext g) g.size s

end Checked

/-- What is known of a search with the given visits behind it. -/
structure Adjacency.Tracked (g : Adjacency W) (s : BreadthState) (visits : List Visit) : Prop where
  capacity_eq : s.found.capacity = g.size
  /-- What waits is found. -/
  queue_found : ∀ v ∈ s.queue, s.found.contains v = true
  /-- What a visit visited or found is found. -/
  visits_found : ∀ visit ∈ visits,
    s.found.contains visit.vertex = true ∧ ∀ v ∈ visit.found, s.found.contains v = true
  table_size : (visits.foldl recordPredecessor (Predecessors.none g.size)).size = g.size
  /-- The predecessors lead from what is found back through what is found. -/
  traced : (visits.foldl recordPredecessor (Predecessors.none g.size)).Traced s.found

namespace Adjacency.Tracked

/-- Where a search begins whatever waits has to be found. -/
lemma start (hf : found.capacity = g.size) {queue : List Vertex}
    (hq : ∀ v ∈ queue, found.contains v = true) : g.Tracked ⟨found, queue⟩ [] where
  capacity_eq := hf
  queue_found := hq
  visits_found _ hmem := absurd hmem List.not_mem_nil
  table_size := Array.size_replicate
  traced := Predecessors.traced_none g.size found

lemma lt_size (h : g.Tracked s visits) (hv : s.found.contains v = true) : v < g.size :=
  h.capacity_eq ▸ IndexSet.lt_capacity_of_contains hv

/-- A visit makes what it finds wait and keeps what was found. -/
lemma visit (hg : g.WellFormed) {rest : List Vertex} (h : g.Tracked ⟨found, v :: rest⟩ visits) :
    g.Tracked ⟨(found.insertNew (g.targets v)).1, rest ++ (found.insertNew (g.targets v)).2⟩
      (visits ++ [⟨v, (found.insertNew (g.targets v)).2⟩]) := by
  have hlt : ∀ u ∈ g.targets v, u < found.capacity := h.capacity_eq ▸ Adjacency.lt_of_mem_targets hg
  have hkept : ∀ u, found.contains u = true → (found.insertNew (g.targets v)).1.contains u = true :=
    fun u hu => (IndexSet.contains_insertNew hlt).2 (Or.inl hu)
  have hnew : ∀ u ∈ (found.insertNew (g.targets v)).2,
      (found.insertNew (g.targets v)).1.contains u = true := fun u hu =>
    (IndexSet.contains_insertNew hlt).2 (Or.inr ((IndexSet.mem_insertNew hlt).1 hu).1)
  have hv : found.contains v = true := h.queue_found v List.mem_cons_self
  refine ⟨?_, fun u hu => ?_, fun visit hvisit => ?_, ?_, ?_⟩
  · exact (IndexSet.capacity_insertNew _ _).trans h.capacity_eq
  · rcases List.mem_append.1 hu with hu | hu
    · exact hkept u (h.queue_found u (List.mem_cons_of_mem v hu))
    · exact hnew u hu
  · rcases List.mem_append.1 hvisit with hvisit | hvisit
    · obtain ⟨hvertex, hfound⟩ := h.visits_found visit hvisit
      exact ⟨hkept _ hvertex, fun u hu => hkept u (hfound u hu)⟩
    · obtain rfl := List.mem_singleton.1 hvisit
      exact ⟨hkept v hv, hnew⟩
  · rw [List.foldl_append, List.foldl_cons, List.foldl_nil, size_recordPredecessor]
    exact h.table_size
  · rw [List.foldl_append, List.foldl_cons, List.foldl_nil]
    exact h.traced.insertNew (h.table_size.trans h.capacity_eq.symm) hv hlt

end Adjacency.Tracked

namespace Checked

lemma breadthStart_eq (size : Nat) (start : Vertex) :
    breadthStart size start = .ok (BreadthState.start size start) := by
  rw [breadthStart, BreadthState.start]
  split
  · next hs => rw [insert_eq (s := IndexSet.empty size) hs]; rfl
  · rfl

/-- The vertices that wait or are absent. A visit makes one less of them. -/
def breadthLeft (s : BreadthState) : Nat :=
  s.found.absent.card + s.queue.length

/-- A step comes to no fault, and one step less is left. -/
theorem breadthNext_step (hg : g.WellFormed) (h : g.Tracked s visits) :
    (breadthNext g s = .ok none ∧ g.breadthNext s = .ok none) ∨
      ∃ visit s', breadthNext g s = .ok (some (visit, s')) ∧
        g.breadthNext s = .ok (some (visit, s')) ∧ g.Tracked s' (visits ++ [visit]) ∧
        breadthLeft s' < breadthLeft s := by
  obtain ⟨found, queue⟩ := s
  cases queue with
  | nil => exact Or.inl ⟨rfl, rfl⟩
  | cons v rest =>
      have hv : v < g.size := h.lt_size (h.queue_found v List.mem_cons_self)
      have hlt : ∀ u ∈ g.targets v, u < found.capacity :=
        h.capacity_eq ▸ Adjacency.lt_of_mem_targets hg
      refine Or.inr ⟨_, _, ?_, Adjacency.breadthNext_cons hg found v rest, h.visit hg, ?_⟩
      · rw [breadthNext]
        simp only [read_row hv, ok_bind]
        rw [← Adjacency.targets, insertNew_eq hlt]
        rfl
      · have hcard := IndexSet.card_absent_insertNew hlt
        rw [breadthLeft, breadthLeft, List.length_append, List.length_cons]
        dsimp only
        omega

theorem exists_breadthVisits_eq (hg : g.WellFormed) (h : g.Tracked s [])
    (hleft : breadthLeft s ≤ g.size) :
    ∃ visits s', breadthVisits g s = .ok (visits, s') ∧ g.breadthVisits s = .ok (visits, s') ∧
      g.Tracked s' visits ∧ visits.length ≤ g.size := by
  obtain ⟨visits, s', hrun, hrun', hend, hlen⟩ := exists_takeAll_eq
    (I := fun s visits => g.Tracked s visits ∧ breadthLeft s + visits.length ≤ g.size)
    (fun s visits hs => by
      rcases breadthNext_step hg hs.1 with hdone | ⟨visit, s', hnext, hnext', hs', hlt⟩
      · exact Or.inl hdone
      · refine Or.inr ⟨visit, s', hnext, hnext', ⟨hs', ?_⟩, hlt⟩
        have hle := hs.2
        rw [List.length_append, List.length_singleton]
        omega)
    ⟨h, hleft⟩ hleft
  exact ⟨visits, s', hrun, hrun', hend, (Nat.le_add_left _ _).trans hlen⟩

/-! ### From a vertex -/

lemma tracked_start (g : Adjacency W) (start : Vertex) :
    g.Tracked (BreadthState.start g.size start) [] ∧
      breadthLeft (BreadthState.start g.size start) ≤ g.size := by
  rw [BreadthState.start]
  split
  · next hs =>
      have hcap : start < (IndexSet.empty g.size).capacity := hs
      have hcard := IndexSet.card_absent_insert hcap (IndexSet.contains_empty g.size start)
      rw [IndexSet.card_absent_empty] at hcard
      refine ⟨.start (IndexSet.capacity_insert _ _) fun v hv => ?_, hcard.le⟩
      rw [List.mem_singleton.1 hv]
      exact IndexSet.contains_insert_self hcap
  · exact ⟨.start rfl fun v hv => absurd hv List.not_mem_nil,
      (IndexSet.card_absent_empty g.size).le⟩

/-- The vertices reached from `start` in the order of their visits. -/
def breadthOrder (g : Adjacency W) (start : Vertex) : Checked (List Vertex) := do
  let (visits, _) ← breadthVisits g (← breadthStart g.size start)
  return visits.map Visit.vertex

theorem agrees_breadthOrder (hg : g.WellFormed) (start : Vertex) :
    Agrees (breadthOrder g start) (g.breadthOrder start) := by
  obtain ⟨htracked, hleft⟩ := tracked_start g start
  obtain ⟨visits, s', hrun, hrun', -, -⟩ := exists_breadthVisits_eq hg htracked hleft
  rw [breadthOrder, Adjacency.breadthOrder, breadthStart_eq, ok_bind, hrun, hrun']
  exact agrees_ok _

/-! ### Components -/

/-- The search from a root that was not found before. -/
def flood (g : Adjacency W) (found : IndexSet) (root : Vertex) :
    Checked (List Visit × BreadthState) := do
  breadthVisits g ⟨← insert found root, [root]⟩

/-- What the searches give, joined, that begin at those of the given roots that are not found before
their turn. -/
def searchesFrom {β : Type} (g : Adjacency W) (join : List Visit → β → Checked β) (last : β)
    (found : IndexSet) : List Vertex → Checked β
  | [] => return last
  | root :: roots => do
      if ← contains found root then searchesFrom g join last found roots
      else
        let (visits, s) ← flood g found root
        join visits (← searchesFrom g join last s.found roots)

/-- The vertices in groups. -/
def components (g : Adjacency W) : Checked (List (List Vertex)) :=
  searchesFrom g (fun visits groups => return visits.map Visit.vertex :: groups) []
    (IndexSet.empty g.size) (List.range g.size)

/-- The number of groups. -/
def componentCount (g : Adjacency W) : Checked Nat :=
  searchesFrom g (fun _ count => increment 64 count) 0 (IndexSet.empty g.size) (List.range g.size)

lemma exists_flood_eq (hg : g.WellFormed) (hf : found.capacity = g.size) (hroot : root < g.size)
    (hc : found.contains root = false) :
    ∃ visits s', flood g found root = .ok (visits, s') ∧ g.flood found root = .ok (visits, s') ∧
      s'.found.capacity = g.size := by
  have hcap : root < found.capacity := hf.symm ▸ hroot
  have hcard := IndexSet.card_absent_insert hcap hc
  have htracked : g.Tracked ⟨found.insert root, [root]⟩ [] := by
    refine .start ((IndexSet.capacity_insert _ _).trans hf) fun v hv => ?_
    rw [List.mem_singleton.1 hv]
    exact IndexSet.contains_insert_self hcap
  have hleft : breadthLeft ⟨found.insert root, [root]⟩ ≤ g.size := by
    rw [breadthLeft, List.length_singleton, hcard, ← hf]
    exact IndexSet.card_absent_le found
  obtain ⟨visits, s', hrun, hrun', hend, -⟩ := exists_breadthVisits_eq hg htracked hleft
  refine ⟨visits, s', ?_, hrun', hend.capacity_eq⟩
  rw [flood, insert_eq hcap, ok_bind, hrun]

/-- The checked searches agree with whatever makes the same searches in the library, if one search
more can be joined to what those from `k` roots give. -/
lemma agreesWith_searchesFrom {β : Type} {P : Nat → β → Prop} (hg : g.WellFormed)
    {join : List Visit → β → Checked β} {join' : List Visit → β → β} {last : β}
    {y : IndexSet → List Vertex → Except GraphError β} (hnil : ∀ found, y found [] = .ok last)
    (hcons : ∀ found root roots, y found (root :: roots) =
      if found.contains root then y found roots
      else do
        let (visits, s) ← g.flood found root
        return join' visits (← y s.found roots))
    (hlast : P 0 last) (hskip : ∀ k b, P k b → P (k + 1) b)
    (hjoin : ∀ visits k b, k < g.size → P k b →
      join visits b = .ok (join' visits b) ∧ P (k + 1) (join' visits b))
    (hf : found.capacity = g.size) {roots : List Vertex} (hlen : roots.length ≤ g.size)
    (hroots : ∀ root ∈ roots, root < g.size) :
    AgreesWith (P roots.length) (searchesFrom g join last found roots) (y found roots) := by
  induction roots generalizing found with
  | nil =>
      rw [hnil]
      exact .value hlast
  | cons root roots ih =>
      obtain ⟨hroot, hroots⟩ := List.forall_mem_cons.1 hroots
      rw [List.length_cons] at hlen
      rw [searchesFrom, hcons, contains_eq (hf.symm ▸ hroot), ok_bind]
      cases hc : found.contains root with
      | true => exact (ih hf (Nat.le_of_succ_le hlen) hroots).mono fun b hb => hskip _ b hb
      | false =>
          obtain ⟨visits, s', hrun, hrun', hf'⟩ := exists_flood_eq hg hf hroot hc
          rw [if_neg Bool.false_ne_true, if_neg Bool.false_ne_true, hrun, hrun']
          refine (ih hf' (Nat.le_of_succ_le hlen) hroots).bind fun b hb => ?_
          obtain ⟨heq, hnext⟩ := hjoin visits roots.length b hlen hb
          rw [heq]
          exact .value hnext

theorem agrees_components (hg : g.WellFormed) : Agrees (components g) g.components :=
  agreesWith_searchesFrom (P := fun _ _ => True) (y := g.componentsFrom) hg (fun _ => rfl)
    (fun _ _ _ => rfl) trivial (fun _ _ _ => trivial) (fun _ _ _ _ _ => ⟨rfl, trivial⟩) rfl
    List.length_range.le fun _ => List.mem_range.1

/-- There are no more groups than vertices, so their number fits where that of the vertices does. -/
theorem agrees_componentCount (hg : g.WellFormed) (hsize : g.size < 2 ^ 64) :
    Agrees (componentCount g) g.componentCount :=
  (agreesWith_searchesFrom (P := fun k count => count ≤ k) (y := g.componentCountFrom) hg
    (fun _ => rfl) (fun _ _ _ => rfl) le_rfl (fun _ _ => Nat.le_succ_of_le)
    (fun _ k count hk hcount => ⟨increment_eq (by omega), Nat.succ_le_succ hcount⟩) rfl
    List.length_range.le fun _ => List.mem_range.1).agrees

end Checked

end WeightedGraph
