import Mathlib
import WeightedGraph.Proofs.Adjacency.Walk
import WeightedGraph.Proofs.IndexSet.Insertion
import WeightedGraph.Proofs.Search.Steps
import WeightedGraph.Search.Breadth

/-!
What a breadth-first search visits and finds.

* `Adjacency.Floods`: the visits of a breadth-first search until nothing waits.
* `Floods.eq_insertNew`: the vertices are visited in the order in which they are found, and they are
  found in the lists of the vertices visited, in the order of their visits.
* `exists_floods`, `Floods.takeSteps`, `Floods.yields`: every search ends, and gives these visits.
* `Floods.mem_iff_reachable`, `Floods.nodup_root`: from a root the search visits what walks reach
  from it and was not found before, each vertex once, if what was found before is closed under
  neighbours. So it makes no more visits than there are vertices (`Floods.length_le_size`).
-/

namespace WeightedGraph

namespace Adjacency

variable {W : Type} {g : Adjacency W} {found found' : IndexSet} {queue out : List Vertex}
  {root u v : Vertex}

/-- The vertices that the entries of a vertex lead to, in the order of the entries. -/
def targets (g : Adjacency W) (v : Vertex) : List Vertex :=
  (g.row v).map Entry.target

lemma mem_targets : v ∈ g.targets u ↔ g.Leads u v :=
  List.mem_map

lemma neighbours_of_wellFormed (hg : g.WellFormed) (v : Vertex) :
    g.neighbours v = .ok (g.targets v) := by
  rw [neighbours, expand_of_wellFormed hg]
  rfl

lemma lt_of_mem_targets (hg : g.WellFormed) : ∀ v ∈ g.targets u, v < g.size := by
  intro v hv
  obtain ⟨e, he, rfl⟩ := List.mem_map.1 hv
  exact hg u e he

/-- The visit of a vertex finds those of its neighbours that were not found before. -/
lemma breadthNext_cons (hg : g.WellFormed) (found : IndexSet) (v : Vertex) (rest : List Vertex) :
    g.breadthNext ⟨found, v :: rest⟩ =
      .ok (some (⟨v, (found.insertNew (g.targets v)).2⟩,
        ⟨(found.insertNew (g.targets v)).1, rest ++ (found.insertNew (g.targets v)).2⟩)) := by
  simp only [breadthNext, neighbours_of_wellFormed hg]
  rfl

/-- `g.Floods found queue out found'` says that a search for which the vertices of `found` are found
and those of `queue` wait visits the vertices `out`, in order, and has found those of `found'` when
no vertex waits any more. -/
inductive Floods (g : Adjacency W) :
    IndexSet → List Vertex → List Vertex → IndexSet → Prop
  | done (found : IndexSet) : Floods g found [] [] found
  | visit {found found' : IndexSet} {v : Vertex} {rest out : List Vertex} :
      Floods g (found.insertNew (g.targets v)).1 (rest ++ (found.insertNew (g.targets v)).2) out
        found' →
      Floods g found (v :: rest) (v :: out) found'

namespace Floods

/-- What waits is visited first. Whatever else is visited was new in the lists of the vertices
visited, read in the order of their visits, and is visited in that order. -/
theorem eq_insertNew (h : g.Floods found queue out found') :
    out = queue ++ (found.insertNew (out.flatMap g.targets)).2 ∧
      found' = (found.insertNew (out.flatMap g.targets)).1 := by
  induction h with
  | done => exact ⟨rfl, rfl⟩
  | @visit found found' v rest out _ ih =>
      obtain ⟨hout, hfound⟩ := ih
      rw [List.flatMap_cons, IndexSet.insertNew_append]
      refine ⟨?_, hfound⟩
      rw [List.cons_append, ← List.append_assoc, ← hout]

/-- The search makes these visits if it may take enough steps. -/
theorem takeSteps (h : g.Floods found queue out found') (hg : g.WellFormed) :
    ∃ visits, visits.map Visit.vertex = out ∧ ∀ count, out.length ≤ count →
      takeSteps g.breadthNext count ⟨found, queue⟩ = .ok (visits, ⟨found', []⟩) := by
  induction h with
  | done found =>
      exact ⟨[], rfl, fun count _ => takeSteps_of_none rfl count⟩
  | @visit found found' v rest out _ ih =>
      obtain ⟨visits, hvisits, hsteps⟩ := ih
      refine ⟨⟨v, (found.insertNew (g.targets v)).2⟩ :: visits, ?_, fun count hcount => ?_⟩
      · rw [List.map_cons, hvisits]
      · obtain ⟨count, rfl⟩ : ∃ c, count = c + 1 := ⟨count - 1, by
          rw [List.length_cons] at hcount
          omega⟩
        exact takeSteps_of_some (breadthNext_cons hg found v rest)
          (hsteps count (Nat.le_of_succ_le_succ hcount))

/-- One visit after another, until nothing waits, the search makes these visits. -/
theorem yields (h : g.Floods found queue out found') (hg : g.WellFormed) :
    ∃ visits, visits.map Visit.vertex = out ∧ Yields g.breadthNext ⟨found, queue⟩ visits := by
  induction h with
  | done found => exact ⟨[], rfl, .done rfl⟩
  | @visit found found' v rest out _ ih =>
      obtain ⟨visits, hvisits, hyields⟩ := ih
      refine ⟨⟨v, (found.insertNew (g.targets v)).2⟩ :: visits, ?_,
        .step (breadthNext_cons hg found v rest) hyields⟩
      rw [List.map_cons, hvisits]

end Floods

/-- Every search ends. Each visit leaves fewer vertices that wait or are absent. -/
theorem exists_floods (hg : g.WellFormed) (hf : found.capacity = g.size) (queue : List Vertex) :
    ∃ out found', g.Floods found queue out found' := by
  induction hn : found.absent.card + queue.length using Nat.strong_induction_on
    generalizing found queue with
  | _ n ih =>
      cases queue with
      | nil => exact ⟨[], found, .done found⟩
      | cons v rest =>
          have hcard := IndexSet.card_absent_insertNew (s := found)
            (hf ▸ lt_of_mem_targets hg (u := v))
          have hf' := (IndexSet.capacity_insertNew found (g.targets v)).trans hf
          have hlen : (rest ++ (found.insertNew (g.targets v)).2).length =
              rest.length + (found.insertNew (g.targets v)).2.length := List.length_append
          rw [List.length_cons] at hn
          obtain ⟨out, found', h⟩ := ih _ (by omega) hf'
            (rest ++ (found.insertNew (g.targets v)).2) rfl
          exact ⟨v :: out, found', .visit h⟩

namespace Floods

lemma lt_capacity (hg : g.WellFormed) (hf : found.capacity = g.size) (out : List Vertex) :
    ∀ v ∈ out.flatMap g.targets, v < found.capacity := by
  intro v hv
  obtain ⟨u, -, hv⟩ := List.mem_flatMap.1 hv
  exact hf ▸ lt_of_mem_targets hg v hv

lemma capacity_eq (h : g.Floods found queue out found') : found'.capacity = found.capacity := by
  rw [h.eq_insertNew.2, IndexSet.capacity_insertNew]

/-- What is found in the end was found before or is a neighbour of a vertex that is visited. -/
lemma contains_iff (h : g.Floods found queue out found') (hg : g.WellFormed)
    (hf : found.capacity = g.size) :
    found'.contains v = true ↔ found.contains v = true ∨ ∃ u ∈ out, g.Leads u v := by
  rw [h.eq_insertNew.2, IndexSet.contains_insertNew (lt_capacity hg hf out), List.mem_flatMap]
  simp only [mem_targets]

/-- What is visited waited before or is a neighbour of a vertex that is visited. -/
lemma mem_iff (h : g.Floods found queue out found') (hg : g.WellFormed)
    (hf : found.capacity = g.size) :
    v ∈ out ↔ v ∈ queue ∨ (∃ u ∈ out, g.Leads u v) ∧ found.contains v = false := by
  have hmem := congrArg (v ∈ ·) h.eq_insertNew.1
  rw [hmem, List.mem_append, IndexSet.mem_insertNew (lt_capacity hg hf out), List.mem_flatMap]
  simp only [mem_targets]

/-- Each visit finds its vertices among those that were absent. -/
lemma length_add_card_absent (h : g.Floods found queue out found') (hg : g.WellFormed)
    (hf : found.capacity = g.size) :
    out.length + found'.absent.card = queue.length + found.absent.card := by
  have hlen := congrArg List.length h.eq_insertNew.1
  have hcard := IndexSet.card_absent_insertNew (s := found) (lt_capacity hg hf out)
  rw [List.length_append] at hlen
  rw [h.eq_insertNew.2]
  omega

/-- Some walk leads to each visited vertex from one that waited. -/
lemma exists_reachable (h : g.Floods found queue out found') (hg : g.WellFormed)
    (hf : found.capacity = g.size) (hv : v ∈ out) : ∃ u ∈ queue, g.Reachable u v := by
  induction h with
  | done => exact absurd hv List.not_mem_nil
  | @visit found found' x rest out _ ih =>
      rcases List.mem_cons.1 hv with rfl | hv
      · exact ⟨v, List.mem_cons_self, reachable_refl g v⟩
      · obtain ⟨u, hu, huv⟩ := ih ((IndexSet.capacity_insertNew _ _).trans hf) hv
        rcases List.mem_append.1 hu with hu | hu
        · exact ⟨u, List.mem_cons_of_mem x hu, huv⟩
        · have hxu : u ∈ g.targets x :=
            ((IndexSet.mem_insertNew (hf ▸ lt_of_mem_targets hg)).1 hu).1
          exact ⟨x, List.mem_cons_self, (mem_targets.1 hxu).reachable.trans huv⟩

end Floods

/-! ### From a root -/

/-- The vertices found, together with whatever they lead to. -/
structure Closed (g : Adjacency W) (found : IndexSet) : Prop where
  capacity_eq : found.capacity = g.size
  contains_of_leads : ∀ u v, g.Leads u v → found.contains u = true → found.contains v = true

lemma closed_empty (g : Adjacency W) : g.Closed (IndexSet.empty g.size) where
  capacity_eq := rfl
  contains_of_leads u _ _ hu := absurd hu (Bool.eq_false_iff.1 (IndexSet.contains_empty g.size u))

lemma Closed.contains_of_reachable (h : g.Closed found) (huv : g.Reachable u v)
    (hu : found.contains u = true) : found.contains v = true := by
  obtain ⟨es, hes⟩ := huv
  exact hes.of_closed (p := fun x => found.contains x = true) hu
    fun x hx e he => h.contains_of_leads x _ (leads_of_mem he) hx

namespace Floods

variable (h : g.Floods (found.insert root) [root] out found') (hg : g.WellFormed)
  (hf : g.Closed found) (hroot : root < g.size)

include h hg hf hroot

/-- Only the root and what was not found before are visited. -/
lemma mem_root_iff : v ∈ out ↔
    v = root ∨ (∃ u ∈ out, g.Leads u v) ∧ found.contains v = false ∧ v ≠ root := by
  have hins := IndexSet.contains_insert_iff (s := found) (j := v) (hf.capacity_eq.symm ▸ hroot)
  rw [h.mem_iff hg ((IndexSet.capacity_insert _ _).trans hf.capacity_eq), List.mem_singleton,
    ← Bool.not_eq_true, hins, not_or, Bool.not_eq_true]

/-- No vertex is visited twice. -/
theorem nodup_root : out.Nodup := by
  have hf' := (IndexSet.capacity_insert found root).trans hf.capacity_eq
  rw [h.eq_insertNew.1, List.singleton_append, List.nodup_cons,
    IndexSet.mem_insertNew (lt_capacity hg hf' out),
    IndexSet.contains_insert_self (hf.capacity_eq.symm ▸ hroot)]
  exact ⟨fun hmem => Bool.false_ne_true hmem.2.symm,
    IndexSet.nodup_insertNew (lt_capacity hg hf' out)⟩

/-- What is found in the end was found before or is visited. -/
lemma contains_root_iff : found'.contains v = true ↔ found.contains v = true ∨ v ∈ out := by
  have hins := IndexSet.contains_insert_iff (s := found) (j := v) (hf.capacity_eq.symm ▸ hroot)
  rw [h.contains_iff hg ((IndexSet.capacity_insert _ _).trans hf.capacity_eq), hins,
    h.mem_root_iff hg hf hroot, ← Bool.not_eq_true]
  tauto

lemma closed : g.Closed found' where
  capacity_eq := (h.capacity_eq.trans (IndexSet.capacity_insert _ _)).trans hf.capacity_eq
  contains_of_leads u v huv hu := by
    have hf' := (IndexSet.capacity_insert found root).trans hf.capacity_eq
    rcases (h.contains_root_iff hg hf hroot).1 hu with hu | hu
    · exact (h.contains_root_iff hg hf hroot).2 (Or.inl (hf.contains_of_leads u v huv hu))
    · exact (h.contains_iff hg hf').2 (Or.inr ⟨u, hu, huv⟩)

/-- Every vertex is found once at most, and each visit needs another one. -/
lemma length_le_size (hc : found.contains root = false) : out.length ≤ g.size := by
  have hroot' : root < found.capacity := hf.capacity_eq.symm ▸ hroot
  have hlen := h.length_add_card_absent hg ((IndexSet.capacity_insert _ _).trans hf.capacity_eq)
  have hinsert := IndexSet.card_absent_insert hroot' hc
  have hle := IndexSet.card_absent_le found
  rw [List.length_singleton] at hlen
  rw [hf.capacity_eq] at hle
  omega

/-- The search from a root visits what walks reach from it and was not found before. -/
theorem mem_iff_reachable (hc : found.contains root = false) :
    v ∈ out ↔ found.contains v = false ∧ g.Reachable root v := by
  constructor
  · intro hv
    obtain ⟨u, hu, huv⟩ :=
      h.exists_reachable hg ((IndexSet.capacity_insert _ _).trans hf.capacity_eq) hv
    refine ⟨?_, List.mem_singleton.1 hu ▸ huv⟩
    rcases (h.mem_root_iff hg hf hroot).1 hv with rfl | ⟨-, hv, -⟩
    · exact hc
    · exact hv
  · rintro ⟨hv, hreach⟩
    have hmem : root ∈ out := (h.mem_root_iff hg hf hroot).2 (Or.inl rfl)
    have hend : found'.contains v = true :=
      (h.closed hg hf hroot).contains_of_reachable hreach
        ((h.contains_root_iff hg hf hroot).2 (Or.inr hmem))
    exact ((h.contains_root_iff hg hf hroot).1 hend).resolve_left (Bool.eq_false_iff.1 hv)

end Floods

end Adjacency

end WeightedGraph
