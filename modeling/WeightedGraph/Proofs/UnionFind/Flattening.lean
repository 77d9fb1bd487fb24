import Mathlib
import WeightedGraph.Proofs.UnionFind.History

/-!
Finding a root flattens a chain of parents, by whichever of the two ways.

* `UnionFind.chain`: an element, its parent, the parent of that, and so on up to a root.
* `PointsAt`: a table that differs from another one only where it points at one number, in a set of
  places. Such a table is determined by the other one (`PointsAt.unique`).
* `UnionFind.Path.pointsAt_compress`, `UnionFind.Path.pointsAt_climb`: the second pass along a path
  and the recursion both point the chain at its root and change nothing else.
* `UnionFind.Flattens`: what this means for the forest, which it determines (`Flattens.unique`). So
  both ways leave the same forest (`flattens_root`, `findRecursive_eq_root`), and taking them once
  more changes nothing (`root_root`). `exists_flattens_run_singletons` says this of the forests that
  come about by calls.
-/

namespace WeightedGraph

/-! ### Tables that point at a number -/

/-- The second table has `r` at the places of a set, and what the first one has at all others. A place
outside a table reads as its own number. -/
structure PointsAt (S : Set Nat) (r : Nat) (p q : Array Nat) : Prop where
  size_eq : q.size = p.size
  getD_of_mem : ∀ z ∈ S, q.getD z z = r
  getD_of_notMem : ∀ z ∉ S, q.getD z z = p.getD z z

namespace PointsAt

variable {S : Set Nat} {r x : Nat} {p q q' : Array Nat}

/-- A table that has `r` there already. -/
lemma of_forall (h : ∀ z ∈ S, p.getD z z = r) : PointsAt S r p p :=
  ⟨rfl, h, fun _ _ => rfl⟩

/-- There is only one such table. -/
theorem unique (h : PointsAt S r p q) (h' : PointsAt S r p q') : q = q' := by
  refine Array.ext (h.size_eq.trans h'.size_eq.symm) fun z hz hz' => ?_
  have hget : q.getD z z = q'.getD z z := by
    by_cases hzS : z ∈ S
    · rw [h.getD_of_mem z hzS, h'.getD_of_mem z hzS]
    · rw [h.getD_of_notMem z hzS, h'.getD_of_notMem z hzS]
  simpa [hz, hz'] using hget

/-- One more place, written after the others. -/
lemma write_after (h : PointsAt S r p q) (hx : x < p.size) :
    PointsAt (insert x S) r p (q.setIfInBounds x r) := by
  have hget := fun z => getD_setIfInBounds (h.size_eq.symm ▸ hx) r z z
  refine ⟨by rw [Array.size_setIfInBounds, h.size_eq], fun z hz => ?_, fun z hz => ?_⟩
  · rw [hget]
    split
    · rfl
    · next hzx => exact h.getD_of_mem z (Set.mem_of_mem_insert_of_ne hz hzx)
  · rw [hget, if_neg fun hzx => hz (Or.inl hzx)]
    exact h.getD_of_notMem z fun hzS => hz (Or.inr hzS)

/-- One more place, written before the others, of which it is none. -/
lemma write_before (h : PointsAt S r (p.setIfInBounds x r) q) (hx : x < p.size) (hxS : x ∉ S) :
    PointsAt (insert x S) r p q := by
  have hget := fun z => getD_setIfInBounds hx r z z
  refine ⟨by rw [h.size_eq, Array.size_setIfInBounds], fun z hz => ?_, fun z hz => ?_⟩
  · rcases hz with rfl | hzS
    · rw [h.getD_of_notMem z hxS, hget, if_pos rfl]
    · exact h.getD_of_mem z hzS
  · rw [h.getD_of_notMem z fun hzS => hz (Or.inr hzS), hget, if_neg fun hzx => hz (Or.inl hzx)]

end PointsAt

namespace UnionFind

variable {s t u : UnionFind} {k r x z : Nat}

/-! ### The chain of parents -/

/-- The elements that are met from `x` upwards, `x` itself and the root included. -/
def chain (s : UnionFind) (x : Nat) : Set Nat :=
  {z | ∃ i, s.parentOf^[i] x = z}

lemma chain_eq_insert (s : UnionFind) (x : Nat) : s.chain x = insert x (s.chain (s.parentOf x)) := by
  ext z
  constructor
  · rintro ⟨i, rfl⟩
    cases i with
    | zero => exact Or.inl rfl
    | succ i => exact Or.inr ⟨i, rfl⟩
  · rintro (rfl | ⟨i, rfl⟩)
    · exact ⟨0, rfl⟩
    · exact ⟨i + 1, rfl⟩

lemma chain_of_isRoot (hx : s.IsRoot x) : s.chain x = {x} := by
  have hfix : ∀ i, s.parentOf^[i] x = x := fun i => Function.iterate_fixed hx i
  ext z
  simp [chain, hfix, eq_comm]

/-- Ranks do not decrease along the chain. -/
lemma rankAt_le_of_mem_chain (hs : s.WellFormed) (hz : z ∈ s.chain x) : s.rankAt x ≤ s.rankAt z := by
  obtain ⟨i, rfl⟩ := hz
  induction i generalizing x with
  | zero => exact le_rfl
  | succ i ih =>
      refine le_trans ?_ (ih (x := s.parentOf x))
      by_cases hx : s.IsRoot x
      · rw [hx]
      · exact (hs.rankAt_lt x hx).le

/-- The chain does not come back to where it began. -/
lemma notMem_chain_parentOf (hs : s.WellFormed) (hx : ¬ s.IsRoot x) :
    x ∉ s.chain (s.parentOf x) := fun hmem =>
  absurd (rankAt_le_of_mem_chain hs hmem) (Nat.not_le.2 (hs.rankAt_lt x hx))

namespace Path

lemma mem_chain (h : s.Path k x r) : r ∈ s.chain x := by
  induction h with
  | root _ => exact ⟨0, rfl⟩
  | @step k x r _ _ ih =>
      rw [chain_eq_insert]
      exact Or.inr ih

/-! ### The two ways to flatten it -/

/-- The second pass points the chain at its root. The induction is on the path, and what it carries is
that nothing has been written to the rest of the chain, since the chain does not come back to an
element. -/
theorem pointsAt_compress (hs : s.WellFormed) (h : s.Path k x r) (hx : x < s.size) {p : Array Nat}
    (hsize : p.size = s.size) (hp : ∀ z ∈ s.chain x, p.getD z z = s.parentOf z) {fuel : Nat}
    (hk : k ≤ fuel) : PointsAt (s.chain x) r p (compress r fuel p x) := by
  induction h generalizing p fuel with
  | @root x hroot =>
      have hself : p.getD x x = x := (hp x ⟨0, rfl⟩).trans hroot
      have hkeep : compress x fuel p x = p := by
        cases fuel with
        | zero => rfl
        | succ fuel => simp only [compress, hself, if_true]
      rw [hkeep, chain_of_isRoot hroot]
      exact .of_forall fun z hz => (Set.mem_singleton_iff.1 hz).symm ▸ hself
  | @step k x r hroot hpath ih =>
      obtain ⟨fuel, rfl⟩ : ∃ f, fuel = f + 1 := ⟨fuel - 1, by omega⟩
      have hself : p.getD x x = s.parentOf x := hp x ⟨0, rfl⟩
      have hrest : ∀ z ∈ s.chain (s.parentOf x), p.getD z z = s.parentOf z := fun z hz =>
        hp z (chain_eq_insert s x ▸ Or.inr hz)
      have hx' : x < p.size := hsize.symm ▸ hx
      simp only [compress, hself]
      split
      · next hr =>
          -- The parent is the root already, so that the chain has no other elements.
          have hlast : s.chain (s.parentOf x) = {r} := by
            rw [hr, chain_of_isRoot hpath.isRoot]
          rw [chain_eq_insert, hlast]
          refine .of_forall fun z hz => ?_
          rcases hz with rfl | rfl
          · rw [hself, hr]
          · exact (hrest z (hlast ▸ rfl)).trans hpath.isRoot
      · rw [chain_eq_insert]
        have hnot := notMem_chain_parentOf hs hroot
        refine (ih (hs.parentOf_lt x hx) ?_ (fun z hz => ?_) (by omega)).write_before hx' hnot
        · rw [Array.size_setIfInBounds, hsize]
        · have hzx : z ≠ x := fun hzx => hnot (hzx ▸ hz)
          rw [getD_setIfInBounds hx', if_neg hzx]
          exact hrest z hz

/-- The recursion finds the root and points the chain at it. -/
theorem pointsAt_climb (h : s.Path k x r) {fuel : Nat} (hk : k ≤ fuel) :
    ∃ q, climb fuel s.parent x = (r, q) ∧ PointsAt (s.chain x) r s.parent q := by
  induction h generalizing fuel with
  | @root x hroot =>
      refine ⟨s.parent, climb_of_isRoot hroot fuel, ?_⟩
      rw [chain_of_isRoot hroot]
      exact .of_forall fun z hz => (Set.mem_singleton_iff.1 hz).symm ▸ hroot
  | @step k x r hroot _ ih =>
      obtain ⟨fuel, rfl⟩ : ∃ f, fuel = f + 1 := ⟨fuel - 1, by omega⟩
      obtain ⟨q, hclimb, hq⟩ := ih (show k ≤ fuel by omega)
      refine ⟨q.setIfInBounds x r, climb_succ hroot hclimb, ?_⟩
      rw [chain_eq_insert]
      exact hq.write_after (lt_size_of_not_isRoot hroot)

end Path

/-! ### The flattened forest -/

/-- The second forest is the first one with the chain above `x` pointed at its root `r`. -/
structure Flattens (s : UnionFind) (x r : Nat) (t : UnionFind) : Prop where
  isRoot : s.IsRoot r
  mem_chain : r ∈ s.chain x
  rank_eq : t.rank = s.rank
  sets_eq : t.sets = s.sets
  size_eq : t.size = s.size
  /-- Every element of the chain points directly at the root. -/
  parentOf_of_mem : ∀ z ∈ s.chain x, t.parentOf z = r
  /-- Every other element points where it did. -/
  parentOf_of_notMem : ∀ z ∉ s.chain x, t.parentOf z = s.parentOf z

namespace Flattens

lemma pointsAt (h : s.Flattens x r t) : PointsAt (s.chain x) r s.parent t.parent :=
  ⟨h.size_eq, h.parentOf_of_mem, h.parentOf_of_notMem⟩

/-- There is only one such forest. -/
theorem unique (h : s.Flattens x r t) (h' : s.Flattens x r u) : t = u := by
  have hparent := h.pointsAt.unique h'.pointsAt
  have hrank := h.rank_eq.trans h'.rank_eq.symm
  have hsets := h.sets_eq.trans h'.sets_eq.symm
  cases t
  cases u
  simp_all

/-- A flattened chain is flat: it has no elements but the first one and the root. -/
lemma self (h : s.Flattens x r t) : t.Flattens x r t := by
  have hx : t.parentOf x = r := h.parentOf_of_mem x ⟨0, rfl⟩
  have hr : t.IsRoot r := h.parentOf_of_mem r h.mem_chain
  have hmem : ∀ z ∈ t.chain x, t.parentOf z = r := by
    intro z hz
    rw [chain_eq_insert, hx, chain_of_isRoot hr] at hz
    rcases hz with rfl | rfl
    · exact hx
    · exact hr
  exact ⟨hr, ⟨1, hx⟩, rfl, rfl, rfl, hmem, fun _ _ => rfl⟩

end Flattens

/-- Finding the root above an element flattens the chain. -/
theorem flattens_root (hs : s.WellFormed) (hx : x < s.size) :
    s.Flattens x (s.rootOf x) (s.root x).2 := by
  obtain ⟨k, hk, hpath⟩ := hs.path_rootOf x
  have hpoints := hpath.pointsAt_compress hs hx rfl (fun _ _ => rfl) hk
  exact ⟨hpath.isRoot, hpath.mem_chain, rfl, rfl, hpoints.size_eq, hpoints.getD_of_mem,
    hpoints.getD_of_notMem⟩

/-- Finding it once more changes nothing. -/
theorem root_root (hs : s.WellFormed) (hx : x < s.size) : (s.root x).2.root x = s.root x := by
  have hshort := shortens_root hs hx
  have hflat := flattens_root hs hx
  have hagain := flattens_root (hshort.wellFormed hs) (hshort.size_eq.symm ▸ hx)
  rw [hshort.rootOf_eq hs] at hagain
  exact Prod.ext (hshort.rootOf_eq hs x) (hagain.unique hflat.self)

lemma find_eq_root (hx : x < s.size) : s.find x = .ok (s.root x) := by
  rw [find_eq, requireElement_of_lt hx]
  rfl

/-- The recursion finds the same root and leaves the same forest. -/
theorem findRecursive_eq_root (hs : s.WellFormed) (hx : x < s.size) :
    s.findRecursive x = .ok (s.root x) := by
  obtain ⟨k, hk, hpath⟩ := hs.path_rootOf x
  have hpoints := hpath.pointsAt_compress hs hx rfl (fun _ _ => rfl) hk
  obtain ⟨q, hclimb, hq⟩ := hpath.pointsAt_climb hk
  obtain rfl := hpoints.unique hq
  rw [findRecursive_eq, requireElement_of_lt hx, hclimb]
  rfl

/-- After any calls the two ways of finding the root above an element find the same one and leave the
same forest: the elements that were met point directly at the root, and everything else is as it was.
Finding it again, by either way, leaves this forest as it is. -/
theorem exists_flattens_run_singletons {n : Nat} (cs : List Call) (hx : x < n) :
    let s := ((singletons n).run cs).2
    ∃ r t, s.find x = .ok (r, t) ∧ s.findRecursive x = .ok (r, t) ∧ s.Flattens x r t ∧
      t.find x = .ok (r, t) ∧ t.findRecursive x = .ok (r, t) := by
  intro s
  have hrep := (represents_singletons Unit n).run cs
  have hs : s.WellFormed := hrep.wellFormed
  have hxs : x < s.size := hrep.size_eq.symm ▸ hx
  have hshort := shortens_root hs hxs
  have hxt : x < (s.root x).2.size := hshort.size_eq.symm ▸ hxs
  refine ⟨s.rootOf x, (s.root x).2, find_eq_root hxs, findRecursive_eq_root hs hxs,
    flattens_root hs hxs, ?_, ?_⟩
  · rw [find_eq_root hxt, root_root hs hxs]
    rfl
  · rw [findRecursive_eq_root (hshort.wellFormed hs) hxt, root_root hs hxs]
    rfl

/-- Eight elements whose sets are united two by two. The chain above `7` has four elements, of which
`4` points at the root already; `5` is not met and stays below `4`. -/
theorem exists_flattens_run_singletons_eight :
    let cs : List Call := [.union 0 1, .union 2 3, .union 4 5, .union 6 7, .union 0 2, .union 4 6,
      .union 0 4]
    let s := ((singletons 8).run cs).2
    7 < 8 ∧ s.parent = #[0, 0, 0, 2, 0, 4, 4, 6] ∧ (s.root 7).2.parent = #[0, 0, 0, 2, 0, 4, 0, 0] ∧
      ∃ r t, s.find 7 = .ok (r, t) ∧ s.findRecursive 7 = .ok (r, t) ∧ s.Flattens 7 r t ∧
        t.find 7 = .ok (r, t) ∧ t.findRecursive 7 = .ok (r, t) := by
  intro cs s
  exact ⟨by decide, by decide, by decide, exists_flattens_run_singletons cs (by decide)⟩

end UnionFind

end WeightedGraph
