import Mathlib
import WeightedGraph.Proofs.Adjacency.Walk
import WeightedGraph.Proofs.Search.DepthFirst

/-!
What stands together in a depth-first order.

* `Adjacency.ReachableOff`: a walk leads from one vertex to another and passes none of some vertices.
* `Visits.mem_iff`: the vertices that have their turns visit what can be reached from them off the
  vertices that were visited before.
* `Visits.blocks`: the same holds at each place of the order. What can be reached from the vertex
  there, off those before it, is visited before anything else. `Blocks.exists_take` says this in
  the numbers of the places.
* `Adjacency.IsDepthOrder`: all that is to say of the order of a search.
  `Adjacency.exists_depthOrder_isDepthOrder` says it of every search from a vertex.
-/

namespace WeightedGraph

namespace Adjacency

variable {W : Type} {g : Adjacency W} {p q r : Vertex → Prop} {s s' : IndexSet}
  {us out : List Vertex} {root u v x : Vertex} {k : Nat}

/-! ### Walks off some vertices -/

/-- Some walk leads from one vertex to the other and passes no vertex of `p`, at its ends neither. -/
def ReachableOff (g : Adjacency W) (p : Vertex → Prop) (u v : Vertex) : Prop :=
  ∃ es, g.Walk u es v ∧ ¬ p u ∧ ∀ e ∈ es, ¬ p e.target

namespace ReachableOff

lemma refl (hu : ¬ p u) : g.ReachableOff p u u :=
  ⟨[], .nil u, hu, by simp⟩

lemma head (hu : ¬ p u) (hux : g.Leads u x) (h : g.ReachableOff p x v) : g.ReachableOff p u v := by
  obtain ⟨e, he, rfl⟩ := hux
  obtain ⟨es, hes, hx, hoff⟩ := h
  exact ⟨e :: es, .cons he hes, hu, List.forall_mem_cons.2 ⟨hx, hoff⟩⟩

lemma mono (h : g.ReachableOff p u v) (hqp : ∀ x, q x → p x) : g.ReachableOff q u v := by
  obtain ⟨es, hes, hu, hoff⟩ := h
  exact ⟨es, hes, fun hq => hu (hqp u hq), fun e he hq => hoff e he (hqp _ hq)⟩

/-- Such a walk does not leave a set that is closed under the neighbours outside `p`. -/
lemma of_closed (h : g.ReachableOff p u v) (hu : r u)
    (hr : ∀ x y, r x → g.Leads x y → ¬ p y → r y) : r v := by
  obtain ⟨es, hes, -, hoff⟩ := h
  induction hes with
  | nil => exact hu
  | @cons u v e es he _ ih =>
      obtain ⟨he', hoff⟩ := List.forall_mem_cons.1 hoff
      exact ih (hr u _ hu (leads_of_mem he) he') hoff

lemma not_right (h : g.ReachableOff p u v) : ¬ p v :=
  h.of_closed (r := fun x => ¬ p x) h.choose_spec.2.1 fun _ _ _ _ hy => hy

end ReachableOff

lemma reachableOff_iff_reachable (h : ∀ x, ¬ p x) :
    g.ReachableOff p u v ↔ g.Reachable u v :=
  ⟨fun ⟨es, hes, _⟩ => ⟨es, hes⟩, fun ⟨es, hes⟩ => ⟨es, hes, h u, fun e _ => h e.target⟩⟩

/-! ### Turns -/

namespace Visits

/-- What a visited vertex leads to is visited in the end. -/
lemma contains_of_leads (h : g.Visits s us out s' k) (hu : u ∈ out) (huv : g.Leads u v) :
    s'.contains v = true := by
  induction h with
  | nil => exact absurd hu List.not_mem_nil
  | skip _ _ ih => exact ih hu
  | visit _ _ hbelow hrest ih ih' =>
      rcases List.mem_cons.1 hu with rfl | hu
      · exact hrest.contains (hbelow.contains_of_mem (List.mem_map.2 huv))
      · rcases List.mem_append.1 hu with hu | hu
        · exact hrest.contains (ih hu)
        · exact ih' hu

/-- A walk off what was visited before leads to each vertex of the order, from one that had its
turn. -/
lemma exists_reachableOff (h : g.Visits s us out s' k) (hv : v ∈ out) :
    ∃ u ∈ us, g.ReachableOff (fun x => s.contains x = true) u v := by
  induction h with
  | nil => exact absurd hv List.not_mem_nil
  | @skip s s' x k us out _ _ ih =>
      obtain ⟨u, hu, huv⟩ := ih hv
      exact ⟨u, List.mem_cons_of_mem x hu, huv⟩
  | @visit s s₁ s₂ x j k us below out hx hnew hbelow hrest ih ih' =>
      have hoff : ¬ s.contains x = true := Bool.eq_false_iff.1 hnew
      have hmore : ∀ y, s.contains y = true → (s.insert x).contains y = true :=
        fun y hy => (IndexSet.contains_insert_iff hx).2 (Or.inl hy)
      rcases List.mem_cons.1 hv with rfl | hv
      · exact ⟨v, List.mem_cons_self, .refl hoff⟩
      · rcases List.mem_append.1 hv with hv | hv
        · obtain ⟨u, hu, huv⟩ := ih hv
          exact ⟨x, List.mem_cons_self, .head hoff (List.mem_map.1 hu) (huv.mono hmore)⟩
        · obtain ⟨u, hu, huv⟩ := ih' hv
          exact ⟨u, List.mem_cons_of_mem x hu, huv.mono fun y hy => hbelow.contains (hmore y hy)⟩

/-- What the vertices that have their turns visit is what can be reached from them off the vertices
that were visited before. -/
theorem mem_iff (h : g.Visits s us out s' k) :
    v ∈ out ↔ ∃ u ∈ us, g.ReachableOff (fun x => s.contains x = true) u v := by
  refine ⟨h.exists_reachableOff, ?_⟩
  rintro ⟨u, hu, huv⟩
  have hu' : u ∈ out :=
    (h.contains_iff.1 (h.contains_of_mem hu)).resolve_left huv.choose_spec.2.1
  exact huv.of_closed (r := fun x => x ∈ out) hu' fun x y hx hxy hy =>
    (h.contains_iff.1 (h.contains_of_leads hx hxy)).resolve_left hy

/-- No vertex of the order was visited before. -/
lemma contains_eq_false (h : g.Visits s us out s' k) (hv : v ∈ out) : s.contains v = false := by
  obtain ⟨u, -, huv⟩ := h.exists_reachableOff hv
  exact Bool.eq_false_iff.2 huv.not_right

/-- No vertex is visited twice. -/
lemma nodup (h : g.Visits s us out s' k) : out.Nodup := by
  induction h with
  | nil => exact List.nodup_nil
  | skip _ _ ih => exact ih
  | @visit s s₁ s₂ x j k us below out hx _ hbelow hrest ih ih' =>
      have hx' : (s.insert x).contains x = true := IndexSet.contains_insert_self hx
      refine List.nodup_cons.2 ⟨fun hmem => ?_, List.nodup_append'.2 ⟨ih, ih', fun y hy hy' => ?_⟩⟩
      · rcases List.mem_append.1 hmem with hmem | hmem
        · exact Bool.false_ne_true ((hbelow.contains_eq_false hmem).symm.trans hx')
        · exact Bool.false_ne_true
            ((hrest.contains_eq_false hmem).symm.trans (hbelow.contains hx'))
      · exact Bool.false_ne_true
          ((hrest.contains_eq_false hy').symm.trans (hbelow.contains_iff.2 (Or.inr hy)))

end Visits

/-! ### Places -/

/-- From each place of a list on, first comes what can be reached from the vertex there off the
vertices of `p` and off those that stand before it. -/
def Blocks (g : Adjacency W) : (Vertex → Prop) → List Vertex → Prop
  | _, [] => True
  | p, v :: after =>
      (∃ block rest, after = block ++ rest ∧ ∀ x, x ∈ v :: block ↔ g.ReachableOff p v x) ∧
        g.Blocks (fun x => p x ∨ x = v) after

namespace Blocks

lemma congr (h : g.Blocks p us) (hpq : ∀ x, p x ↔ q x) : g.Blocks q us := by
  obtain rfl : p = q := funext fun x => propext (hpq x)
  exact h

/-- The blocks of a second list, off the vertices of the first one, do not reach into the first. -/
lemma append (h : g.Blocks p us) (h' : g.Blocks (fun x => p x ∨ x ∈ us) out) :
    g.Blocks p (us ++ out) := by
  induction us generalizing p with
  | nil => exact h'.congr (by simp)
  | cons v us ih =>
      obtain ⟨⟨block, rest, rfl, hmem⟩, hrest⟩ := h
      refine ⟨⟨block, rest ++ out, List.append_assoc .., hmem⟩, ih hrest (h'.congr fun x => ?_)⟩
      rw [List.mem_cons, or_assoc]

/-- The block at a place, with the number of the vertices in it. -/
lemma exists_take (h : g.Blocks p us) (i : Nat) (hi : i < us.length) :
    ∃ k, i + k < us.length ∧ ∀ x, x ∈ (us.drop i).take (k + 1) ↔
      g.ReachableOff (fun y => p y ∨ y ∈ us.take i) us[i] x := by
  induction us generalizing p i with
  | nil => exact absurd hi (Nat.not_lt_zero i)
  | cons v us ih =>
      obtain ⟨⟨block, rest, hblock, hmem⟩, hrest⟩ := h
      cases i with
      | zero =>
          refine ⟨block.length, ?_, fun x => ?_⟩
          · rw [hblock, List.length_cons, List.length_append]
            omega
          · simpa [hblock] using hmem x
      | succ i =>
          obtain ⟨k, hk, hmem'⟩ := ih hrest i (Nat.lt_of_succ_lt_succ hi)
          refine ⟨k, ?_, fun x => ?_⟩
          · rw [List.length_cons]
            omega
          · simpa [or_assoc] using hmem' x

end Blocks

/-- At each place of the order the vertex there is followed by what can be reached from it off the
vertices that were visited before. The induction is on the visits: what a vertex visits is its own
block, and the places in it are those of what is below it. -/
theorem Visits.blocks (h : g.Visits s us out s' k) :
    g.Blocks (fun x => s.contains x = true) out := by
  induction h with
  | nil => trivial
  | skip _ _ ih => exact ih
  | @visit s s₁ s₂ v j k us below out hv hnew hbelow _ ih ih' =>
      have hinsert : ∀ x, (s.insert v).contains x = true ↔ s.contains x = true ∨ x = v :=
        fun x => IndexSet.contains_insert_iff hv
      have hturn : ∀ x, x ∈ v :: below ↔ g.ReachableOff (fun y => s.contains y = true) v x := by
        intro x
        have hmem := (Visits.visit hv hnew hbelow (.nil s₁)).mem_iff (v := x)
        simpa using hmem
      refine ⟨⟨below, out, rfl, hturn⟩, (ih.congr hinsert).append (ih'.congr fun x => ?_)⟩
      rw [hbelow.contains_iff, hinsert]

/-! ### The order of a search -/

/-- The vertices that walks reach from `root`, in an order in which each is followed at once by all
that it leads to without passing a vertex before it. -/
structure IsDepthOrder (g : Adjacency W) (root : Vertex) (order : List Vertex) : Prop where
  nodup : order.Nodup
  head?_eq : order.head? = some root
  mem_iff : ∀ v, v ∈ order ↔ g.Reachable root v
  /-- What walks reach from the vertex at a place off those before it fills the places from there up
  to some other one. -/
  exists_block : ∀ i, ∀ hi : i < order.length, ∃ k, i + k < order.length ∧
    ∀ v, v ∈ (order.drop i).take (k + 1) ↔
      g.ReachableOff (fun x => x ∈ order.take i) order[i] v

/-- The search with a stack from a vertex ends, and visits what can be reached in depth-first order. -/
theorem exists_depthOrder_isDepthOrder (hg : g.WellFormed) (hs : root < g.size) :
    ∃ order, Yields g.depthNext (DepthState.start g.size root) order ∧
      g.depthOrder root = .ok order ∧ g.IsDepthOrder root order := by
  obtain ⟨order, s', k, hvisits, -, hlen, hyields⟩ := exists_visits_start hg hs
  have hempty : ∀ x, ¬ (IndexSet.empty g.size).contains x = true := fun x =>
    Bool.eq_false_iff.1 (IndexSet.contains_empty g.size x)
  have hblocks := hvisits.blocks
  refine ⟨order, hyields, depthOrder_eq_of_yields hyields hlen, hvisits.nodup, ?_, fun v => ?_,
    fun i hi => ?_⟩
  · cases hvisits with
    | skip hc _ => exact absurd hc (hempty root)
    | visit => rfl
  · rw [hvisits.mem_iff]
    simp [reachableOff_iff_reachable hempty]
  · obtain ⟨k, hk, hmem⟩ := hblocks.exists_take i hi
    exact ⟨k, hk, by simpa [hempty] using hmem⟩

/-- Parallel entries, a loop, entries back and across. The vertex `2` is a neighbour of `0` before `1`
finds it, but it waits: first comes all that `3` leads to. -/
theorem exists_depthOrder_isDepthOrder_crossing :
    let entry (v : Vertex) : Entry (Saturating (IntRange.signed 32)) := ⟨v, 0⟩
    let g : Adjacency (Saturating (IntRange.signed 32)) :=
      ⟨#[[entry 3, entry 0, entry 1, entry 3], [entry 2, entry 4], [entry 1], [entry 2, entry 0],
        [entry 3], [entry 0]]⟩
    g.WellFormed ∧ 0 < g.size ∧ g.depthOrder 0 = .ok [0, 3, 2, 1, 4] ∧
      ∃ order, Yields g.depthNext (DepthState.start g.size 0) order ∧
        g.depthOrder 0 = .ok order ∧ g.IsDepthOrder 0 order := by
  intro entry g
  have hg : g.WellFormed := by decide
  have hs : 0 < g.size := by decide
  exact ⟨hg, hs, by cbv, exists_depthOrder_isDepthOrder hg hs⟩

end Adjacency

end WeightedGraph
