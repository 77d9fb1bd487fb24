import Mathlib
import WeightedGraph.Proofs.IndexSet.Insertion
import WeightedGraph.Search.Predecessors

/-!
Following a table of predecessors back.

* `Predecessors.Traces`: the steps back from a vertex come to an end, with the vertices passed. No
  bound on their number is part of it.
* `Traces.unique`, `Traces.of_prefix`: a vertex has one trace, and its beginnings are the traces of
  the vertices where they end.
* `Traces.congr`: only the places that a trace passes matter to it. So writing any other place
  leaves it (`Traces.set_of_notMem`), or extends it to the vertex written (`Traces.set`).
* `Traces.pathTo_eq`: a trace without repetitions is the path that is followed back.
* `Predecessors.Traced`: the members of a set have traces that stay in the set. A search keeps this
  when it writes down how it found new members: `Traced.insertNew`.
-/

namespace WeightedGraph

namespace Predecessors

variable {t : Predecessors} {u v x : Vertex} {path : List Vertex}

/-- From `v` one predecessor after another leads back to a vertex that has none, and the vertices
passed are, in the order of a way to `v`, those of the list. -/
inductive Traces (t : Predecessors) : Vertex → List Vertex → Prop
  | stop {v : Vertex} : t.get v = Option.none → Traces t v [v]
  | step {u v : Vertex} {path : List Vertex} : t.get v = some u → Traces t u path →
      Traces t v (path ++ [v])

/-- A path without repetitions has no more vertices than a table has places. -/
lemma length_le_size (hnodup : path.Nodup) (hlt : ∀ u ∈ path, u < t.size) :
    path.length ≤ t.size := by
  have hsub : path ⊆ List.range t.size := fun u hu => List.mem_range.2 (hlt u hu)
  have hle := (hnodup.subperm hsub).length_le
  rwa [List.length_range] at hle

namespace Traces

lemma mem_self (h : t.Traces v path) : v ∈ path := by
  cases h with
  | stop => exact List.mem_singleton_self v
  | step => exact List.mem_append_right _ (List.mem_singleton_self v)

/-- What is before the path stays there, and enough steps follow it to its beginning. -/
lemma pathBefore_eq (h : t.Traces v path) {fuel : Nat} (hf : path.length ≤ fuel + 1)
    (rest : List Vertex) : t.pathBefore fuel v rest = path ++ rest := by
  induction h generalizing fuel rest with
  | @stop v hv =>
      cases fuel with
      | zero => rfl
      | succ fuel => rw [pathBefore, hv]; rfl
  | @step u v path hv _ ih =>
      rw [List.length_append, List.length_singleton] at hf
      cases fuel with
      | zero =>
          have hpos : 0 < path.length := List.length_pos_of_mem (mem_self ‹_›)
          omega
      | succ fuel =>
          rw [pathBefore, hv]
          show t.pathBefore fuel u (v :: rest) = path ++ [v] ++ rest
          rw [ih (by omega), List.append_assoc, List.singleton_append]

lemma pathTo_eq (h : t.Traces v path) (hnodup : path.Nodup) (hlt : ∀ u ∈ path, u < t.size) :
    t.pathTo v = path := by
  have hlen := length_le_size hnodup hlt
  rw [pathTo, h.pathBefore_eq (Nat.le_succ_of_le hlen), List.append_nil]

/-- Where a table names the same vertices before those of the path it has the same trace. -/
lemma congr {t' : Predecessors} (h : t.Traces v path) (ht : ∀ x ∈ path, t'.get x = t.get x) :
    t'.Traces v path := by
  induction h with
  | @stop v hv => exact .stop ((ht v (List.mem_singleton_self v)).trans hv)
  | @step u v path hv _ ih =>
      have hlast : v ∈ path ++ [v] := List.mem_append_right _ (List.mem_singleton_self v)
      exact .step ((ht v hlast).trans hv) (ih fun x hx => ht x (List.mem_append_left _ hx))

lemma set_of_notMem (h : t.Traces x path) (hv : v ∉ path) (u : Vertex) :
    (t.set v u).Traces x path := by
  refine h.congr fun w hw => ?_
  have hne : ¬ (v = w ∧ v < t.size) := fun hvw => hv (hvw.1 ▸ hw)
  rw [get_set, if_neg hne]

/-- A vertex has one trace. -/
lemma unique {path' : List Vertex} (h : t.Traces v path) (h' : t.Traces v path') :
    path' = path := by
  induction h generalizing path' with
  | stop hv =>
      cases h' with
      | stop => rfl
      | step hu _ => exact nomatch hv.symm.trans hu
  | step hu _ ih =>
      cases h' with
      | stop hv => exact nomatch hv.symm.trans hu
      | step hu' h' =>
          obtain rfl := Option.some.inj (hu.symm.trans hu')
          rw [ih h']

/-- The beginning of a trace, up to some vertex, is the trace of that vertex. -/
lemma of_prefix {before : List Vertex} (h : t.Traces v path) (hx : before ++ [x] <+: path) :
    t.Traces x (before ++ [x]) := by
  induction h with
  | @stop v hv =>
      rcases List.prefix_concat_iff.1 (show before ++ [x] <+: [] ++ [v] from hx) with heq | hx
      · obtain ⟨rfl, hxv⟩ := List.append_inj' heq rfl
        obtain rfl := List.singleton_inj.1 hxv
        exact .stop hv
      · exact absurd (List.prefix_nil.1 hx) (by simp)
  | @step u v path hv htrace ih =>
      rcases List.prefix_concat_iff.1 hx with heq | hx
      · obtain ⟨rfl, hxv⟩ := List.append_inj' heq rfl
        obtain rfl := List.singleton_inj.1 hxv
        exact .step hv htrace
      · exact ih hx

lemma set (h : t.Traces u path) (hv : v ∉ path) (hlt : v < t.size) :
    (t.set v u).Traces v (path ++ [v]) :=
  .step (by rw [get_set, if_pos ⟨rfl, hlt⟩]) (h.set_of_notMem hv u)

end Traces

/-! ### What a search has found -/

variable {s : IndexSet} {n : Nat}

/-- Every member has a trace that passes members only, and none of them twice. -/
def Traced (t : Predecessors) (s : IndexSet) : Prop :=
  ∀ x, s.contains x = true →
    ∃ path, t.Traces x path ∧ path.Nodup ∧ ∀ w ∈ path, s.contains w = true

lemma traced_none (n : Nat) (s : IndexSet) : (none n).Traced s := fun x hx =>
  ⟨[x], .stop (get_none n x), List.nodup_singleton x, fun _ hw => List.mem_singleton.1 hw ▸ hx⟩

namespace Traced

/-- A new member is written down with a member before it. -/
lemma insert (h : t.Traced s) (hsize : t.size = s.capacity) (hu : s.contains u = true)
    (hlt : v < s.capacity) (hv : s.contains v = false) : (t.set v u).Traced (s.insert v) := by
  have hnot : ∀ path : List Vertex, (∀ w ∈ path, s.contains w = true) → v ∉ path :=
    fun _ hpath hmem => Bool.false_ne_true (hv.symm.trans (hpath v hmem))
  have hkept : ∀ w, s.contains w = true → (s.insert v).contains w = true :=
    fun w hw => (IndexSet.contains_insert_iff hlt).2 (Or.inl hw)
  intro x hx
  rcases (IndexSet.contains_insert_iff hlt).1 hx with hx | rfl
  · obtain ⟨path, htrace, hnodup, hpath⟩ := h x hx
    exact ⟨path, htrace.set_of_notMem (hnot path hpath) u, hnodup, fun w hw => hkept w (hpath w hw)⟩
  · obtain ⟨path, htrace, hnodup, hpath⟩ := h u hu
    refine ⟨path ++ [x], htrace.set (hnot path hpath) (hsize ▸ hlt), ?_, fun w hw => ?_⟩
    · exact List.nodup_append_comm.2 (List.nodup_cons.2 ⟨hnot path hpath, hnodup⟩)
    · rcases List.mem_append.1 hw with hw | hw
      · exact hkept w (hpath w hw)
      · rw [List.mem_singleton.1 hw]
        exact IndexSet.contains_insert_self hlt

/-- All new members of a list are written down with the same member before them. -/
theorem insertNew {is : List Nat} (h : t.Traced s) (hsize : t.size = s.capacity)
    (hu : s.contains u = true) (hlt : ∀ i ∈ is, i < s.capacity) :
    ((s.insertNew is).2.foldl (fun t v => t.set v u) t).Traced (s.insertNew is).1 := by
  induction is generalizing s t with
  | nil => exact h
  | cons i is ih =>
      obtain ⟨hi, his⟩ := List.forall_mem_cons.1 hlt
      cases hc : s.contains i with
      | true =>
          rw [IndexSet.insertNew_cons_of_contains hc]
          exact ih h hsize hu his
      | false =>
          rw [IndexSet.insertNew_cons_of_not_contains hc, List.foldl_cons]
          have hcap := IndexSet.capacity_insert s i
          refine ih (h.insert hsize hu hi hc) ?_ ?_ (hcap.symm ▸ his)
          · rw [hcap, ← hsize]
            exact Array.size_setIfInBounds
          · exact (IndexSet.contains_insert_iff hi).2 (Or.inl hu)

end Traced

end Predecessors

end WeightedGraph
