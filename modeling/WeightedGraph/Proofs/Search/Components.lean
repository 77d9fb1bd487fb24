import Mathlib
import WeightedGraph.Proofs.Search.BreadthFirst
import WeightedGraph.Search.Components

/-!
The groups that floods from one root after another make.

* `Adjacency.Grouped`: the groups of the roots that were not found before their turn.
* `exists_components`: the groups and their number are always found, and are these.
* `Adjacency.Flooded`: what one search visits for which closed vertices were found before.
* `Grouped.exists_flooded`: each group is that of a search from one of the roots, before which the
  groups before it were found.
* `Grouped.exists_mem`, `Grouped.pairwise_disjoint`, `Grouped.exists_root`: every root is in a
  group, no vertex is in two, and each group is reached from one of its vertices.
* `Grouped.mem_iff_reachable`: where every entry has one back a group is all that walks reach from
  any of its vertices.
-/

namespace WeightedGraph

namespace Adjacency

variable {W : Type} {g : Adjacency W} {found found' : IndexSet} {roots c : List Vertex}
  {groups : List (List Vertex)} {root u v : Vertex}

/-- `g.Grouped found roots groups` says that the roots which have their turns after the vertices of
`found` were found make these groups. -/
inductive Grouped (g : Adjacency W) : IndexSet → List Vertex → List (List Vertex) → Prop
  | nil (found : IndexSet) : Grouped g found [] []
  | skip {found : IndexSet} {root : Vertex} {roots : List Vertex} {groups : List (List Vertex)} :
      found.contains root = true → Grouped g found roots groups →
      Grouped g found (root :: roots) groups
  | flood {found found' : IndexSet} {root : Vertex} {roots c : List Vertex}
      {groups : List (List Vertex)} : root < g.size → found.contains root = false →
      g.Floods (found.insert root) [root] c found' → Grouped g found' roots groups →
      Grouped g found (root :: roots) (c :: groups)

/-- A flood makes no more visits than there are vertices, so it comes to its end. -/
lemma Floods.flood_eq_ok (h : g.Floods (found.insert root) [root] c found') (hg : g.WellFormed)
    (hf : g.Closed found) (hroot : root < g.size) (hc : found.contains root = false) :
    ∃ visits, visits.map Visit.vertex = c ∧ g.flood found root = .ok (visits, ⟨found', []⟩) := by
  obtain ⟨visits, hvisits, hsteps⟩ := h.takeSteps hg
  exact ⟨visits, hvisits, hsteps g.size (h.length_le_size hg hf hroot hc)⟩

/-- `g.Flooded prior root c` says that `c` is what the search from `root` visits after the vertices
of `prior`, and with them all to which they lead, were found. -/
structure Flooded (g : Adjacency W) (prior : IndexSet) (root : Vertex) (c : List Vertex) :
    Prop where
  closed : g.Closed prior
  lt_size : root < g.size
  contains_root : prior.contains root = false
  exists_floods : ∃ found, g.Floods (prior.insert root) [root] c found

namespace Flooded

variable {prior : IndexSet}

lemma mem_iff (h : g.Flooded prior root c) (hg : g.WellFormed) :
    v ∈ c ↔ prior.contains v = false ∧ g.Reachable root v := by
  obtain ⟨_, hfloods⟩ := h.exists_floods
  exact hfloods.mem_iff_reachable hg h.closed h.lt_size h.contains_root

lemma mem_root (h : g.Flooded prior root c) (hg : g.WellFormed) : root ∈ c :=
  (h.mem_iff hg).2 ⟨h.contains_root, reachable_refl g root⟩

end Flooded

/-- Whatever was found before, both computations come to their end with some groups. -/
theorem exists_grouped (hg : g.WellFormed) (hf : g.Closed found)
    (hroots : ∀ r ∈ roots, r < g.size) :
    ∃ groups, g.Grouped found roots groups ∧ g.componentsFrom found roots = .ok groups ∧
      g.componentCountFrom found roots = .ok groups.length := by
  induction roots generalizing found with
  | nil => exact ⟨[], .nil found, rfl, rfl⟩
  | cons root roots ih =>
      obtain ⟨hroot, hroots⟩ := List.forall_mem_cons.1 hroots
      cases hc : found.contains root with
      | true =>
          obtain ⟨groups, hgroups, hcomp, hcount⟩ := ih hf hroots
          refine ⟨groups, .skip hc hgroups, ?_, ?_⟩
          · rw [componentsFrom, if_pos hc, hcomp]
          · rw [componentCountFrom, if_pos hc, hcount]
      | false =>
          have hf' := (IndexSet.capacity_insert found root).trans hf.capacity_eq
          obtain ⟨c, found', hfloods⟩ := exists_floods hg hf' [root]
          obtain ⟨visits, rfl, hflood⟩ := hfloods.flood_eq_ok hg hf hroot hc
          obtain ⟨groups, hgroups, hcomp, hcount⟩ := ih (hfloods.closed hg hf hroot) hroots
          refine ⟨_, .flood hroot hc hfloods hgroups, ?_, ?_⟩
          · rw [componentsFrom, if_neg (Bool.eq_false_iff.1 hc), hflood]
            simp only [bind, Except.bind, hcomp]
            rfl
          · rw [componentCountFrom, if_neg (Bool.eq_false_iff.1 hc), hflood]
            simp only [bind, Except.bind, hcount]
            rfl

/-- The components and their number are always found. -/
theorem exists_components (hg : g.WellFormed) :
    ∃ groups, g.Grouped (IndexSet.empty g.size) (List.range g.size) groups ∧
      g.components = .ok groups ∧ g.componentCount = .ok groups.length :=
  exists_grouped hg (closed_empty g) fun _ hv => List.mem_range.1 hv

namespace Grouped

/-- Every root was found before or is in a group. -/
theorem exists_mem (h : g.Grouped found roots groups) (hg : g.WellFormed) (hf : g.Closed found)
    (hv : v ∈ roots) : found.contains v = true ∨ ∃ c ∈ groups, v ∈ c := by
  induction h with
  | nil => exact absurd hv List.not_mem_nil
  | skip hc _ ih =>
      rcases List.mem_cons.1 hv with rfl | hv
      · exact Or.inl hc
      · exact ih hf hv
  | flood hroot hc hfloods _ ih =>
      rw [List.exists_mem_cons_iff, ← or_assoc, ← hfloods.contains_root_iff hg hf hroot]
      rcases List.mem_cons.1 hv with rfl | hv
      · refine Or.inl ((hfloods.contains_root_iff hg hf hroot).2 (Or.inr ?_))
        exact (hfloods.mem_iff_reachable hg hf hroot hc).2 ⟨hc, reachable_refl g v⟩
      · exact ih (hfloods.closed hg hf hroot) hv

/-- No group has a vertex that was found before. -/
lemma contains_eq_false (h : g.Grouped found roots groups) (hg : g.WellFormed)
    (hf : g.Closed found) (hc : c ∈ groups) (hv : v ∈ c) : found.contains v = false := by
  induction h with
  | nil => exact absurd hc List.not_mem_nil
  | skip _ _ ih => exact ih hf hc
  | flood hroot hnew hfloods _ ih =>
      rcases List.mem_cons.1 hc with rfl | hc
      · exact ((hfloods.mem_iff_reachable hg hf hroot hnew).1 hv).1
      · refine Bool.eq_false_iff.2 fun hv' => ?_
        have hfound := (hfloods.contains_root_iff hg hf hroot).2 (Or.inl hv')
        rw [ih (hfloods.closed hg hf hroot) hc] at hfound
        exact Bool.false_ne_true hfound

/-- No vertex is in two groups. -/
theorem pairwise_disjoint (h : g.Grouped found roots groups) (hg : g.WellFormed)
    (hf : g.Closed found) : groups.Pairwise List.Disjoint := by
  induction h with
  | nil => exact .nil
  | skip _ _ ih => exact ih hf
  | flood hroot hnew hfloods hrest ih =>
      have hf' := hfloods.closed hg hf hroot
      refine .cons (fun d hd v hv hv' => ?_) (ih hf')
      have hfound := (hfloods.contains_root_iff hg hf hroot).2 (Or.inr hv)
      rw [hrest.contains_eq_false hg hf' hd hv'] at hfound
      exact Bool.false_ne_true hfound

/-- Each group was found in a search from one of the roots. Before this search were found all roots
whose turns were earlier and, beside what was found in the beginning, the groups before. -/
theorem exists_flooded {earlier later : List (List Vertex)} (h : g.Grouped found roots groups)
    (hg : g.WellFormed) (hf : g.Closed found) (hsplit : groups = earlier ++ c :: later) :
    ∃ prior root before after, g.Flooded prior root c ∧ roots = before ++ root :: after ∧
      (∀ v ∈ before, prior.contains v = true) ∧
      ∀ v, prior.contains v = true ↔ found.contains v = true ∨ v ∈ earlier.flatten := by
  induction h generalizing earlier with
  | nil => simp at hsplit
  | @skip found r roots groups hc _ ih =>
      obtain ⟨prior, root, before, after, hflooded, rfl, hbefore, hprior⟩ := ih hf hsplit
      have hr := (hprior r).2 (Or.inl hc)
      exact ⟨prior, root, r :: before, after, hflooded, rfl, List.forall_mem_cons.2 ⟨hr, hbefore⟩,
        hprior⟩
  | @flood found found' r roots d groups hr hnew hfloods _ ih =>
      cases earlier with
      | nil =>
          obtain ⟨rfl, rfl⟩ := List.cons.inj hsplit
          exact ⟨found, r, [], roots, ⟨hf, hr, hnew, found', hfloods⟩, rfl, by simp, by simp⟩
      | cons e earlier =>
          obtain ⟨rfl, rfl⟩ := List.cons.inj hsplit
          have hfound (v : Vertex) := hfloods.contains_root_iff (v := v) hg hf hr
          obtain ⟨prior, root, before, after, hflooded, rfl, hbefore, hprior⟩ :=
            ih (hfloods.closed hg hf hr) rfl
          have hroot : prior.contains r = true :=
            (hprior r).2 (Or.inl ((hfound r).2 (Or.inr ((hfloods.mem_root_iff hg hf hr).2
              (Or.inl rfl)))))
          refine ⟨prior, root, r :: before, after, hflooded, rfl,
            List.forall_mem_cons.2 ⟨hroot, hbefore⟩, fun v => ?_⟩
          rw [hprior, hfound, List.flatten_cons, List.mem_append, or_assoc]

lemma exists_flooded_of_mem (h : g.Grouped found roots groups) (hg : g.WellFormed)
    (hf : g.Closed found) (hc : c ∈ groups) : ∃ prior root, g.Flooded prior root c := by
  obtain ⟨earlier, later, hsplit⟩ := List.append_of_mem hc
  obtain ⟨prior, root, -, -, hflooded, -⟩ := h.exists_flooded hg hf hsplit
  exact ⟨prior, root, hflooded⟩

/-- Each group is what walks reach from one of its vertices, less some vertices that were found
before and lead to no others. -/
theorem exists_root (h : g.Grouped found roots groups) (hg : g.WellFormed) (hf : g.Closed found)
    (hc : c ∈ groups) : ∃ prior, g.Closed prior ∧ ∃ root ∈ c, root < g.size ∧
      ∀ v, v ∈ c ↔ prior.contains v = false ∧ g.Reachable root v := by
  obtain ⟨prior, root, hflooded⟩ := h.exists_flooded_of_mem hg hf hc
  exact ⟨prior, hflooded.closed, root, hflooded.mem_root hg, hflooded.lt_size,
    fun _ => hflooded.mem_iff hg⟩

/-- Where every entry has one back a group is all that walks reach from any of its vertices. -/
theorem mem_iff_reachable (h : g.Grouped found roots groups) (hg : g.WellFormed)
    (hf : g.Closed found) (hsymm : g.IsSymmetric) (hc : c ∈ groups) (hu : u ∈ c) :
    v ∈ c ↔ g.Reachable u v := by
  obtain ⟨prior, hprior, root, -, -, hmem⟩ := h.exists_root hg hf hc
  obtain ⟨hnew, hroot⟩ := (hmem u).1 hu
  rw [hmem]
  constructor
  · rintro ⟨-, hv⟩
    exact (hsymm.reachable_symm hroot).trans hv
  · intro huv
    refine ⟨Bool.eq_false_iff.2 fun hv => ?_, hroot.trans huv⟩
    rw [hprior.contains_of_reachable (hsymm.reachable_symm huv) hv] at hnew
    exact Bool.false_ne_true hnew.symm

end Grouped

end Adjacency

end WeightedGraph
