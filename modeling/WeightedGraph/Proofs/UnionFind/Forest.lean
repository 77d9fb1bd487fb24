import Mathlib
import WeightedGraph.UnionFind

/-!
The forest below a partition: its roots, the paths to them, and what compression and linking do.

* `UnionFind.parentOf`, `UnionFind.rankAt`, `UnionFind.IsRoot`, `UnionFind.roots`: the forest read
  element by element.
* `UnionFind.Path`: `s.Path k x r` says that `k` steps to the parent lead from `x` to the root `r`.
* `UnionFind.WellFormed`: parents are elements, ranks grow along every path, and the number of sets
  is the number of roots. The growing ranks are what ends a path: `WellFormed.exists_path`.
* `UnionFind.Shortens`: a forest in which some elements point at their roots instead. It has the
  same roots above the same elements (`Shortens.rootOf_eq`); both ways to compress a path give one
  (`shortens_root`, `exists_climb`).
* `UnionFind.Attaches`: a forest in which a root points at another one. It merges their sets and no
  others (`Attaches.rootOf_eq`); linking gives one (`attaches_link`).
* `UnionFind.join_spec`: joining two elements merges their sets, and keeps the forest well formed.
  `UnionFind.exists_union` says that a union of elements succeeds and does this,
  `UnionFind.exists_same` that the question whether two elements are in the same set is answered.
-/

namespace WeightedGraph

/-- Writing to a place of a table leaves the other places as they are. -/
lemma getD_setIfInBounds {α : Type} {xs : Array α} {i : Nat} (hi : i < xs.size) (a : α) (j : Nat)
    (d : α) : (xs.setIfInBounds i a).getD j d = if j = i then a else xs.getD j d := by
  rcases eq_or_ne j i with rfl | hji
  · simp [hi]
  · simp [hji, hji.symm]

namespace UnionFind

variable {s t : UnionFind} {k x y r : Nat}

/-! ### The forest read element by element -/

/-- The parent of an element. -/
def parentOf (s : UnionFind) (x : Nat) : Nat :=
  s.parent.getD x x

/-- The rank of an element, `0` for what is no element. -/
def rankAt (s : UnionFind) (x : Nat) : Nat :=
  s.rank.getD x 0

/-- A root is its own parent. -/
def IsRoot (s : UnionFind) (x : Nat) : Prop :=
  s.parentOf x = x

instance (s : UnionFind) : DecidablePred s.IsRoot :=
  fun x => inferInstanceAs (Decidable (s.parentOf x = x))

/-- The roots among the elements. -/
def roots (s : UnionFind) : Finset Nat :=
  (Finset.range s.size).filter s.IsRoot

lemma mem_roots : x ∈ s.roots ↔ x < s.size ∧ s.IsRoot x := by
  rw [roots, Finset.mem_filter, Finset.mem_range]

lemma isRoot_of_size_le (h : s.size ≤ x) : s.IsRoot x := by
  have hx : ¬ x < s.parent.size := Nat.not_lt.2 h
  simp [IsRoot, parentOf, Array.getD, hx]

lemma lt_size_of_not_isRoot (h : ¬ s.IsRoot x) : x < s.size := by
  by_contra hx
  exact h (isRoot_of_size_le (Nat.not_lt.1 hx))

/-! ### Paths to the root -/

/-- `k` steps to the parent lead from one element to another that is a root, each from an element
that is none. -/
inductive Path (s : UnionFind) : Nat → Nat → Nat → Prop
  | root {x : Nat} : s.IsRoot x → Path s 0 x x
  | step {k x r : Nat} : ¬ s.IsRoot x → Path s k (s.parentOf x) r → Path s (k + 1) x r

lemma Path.isRoot (h : s.Path k x r) : s.IsRoot r := by
  induction h with
  | root hx => exact hx
  | step _ _ ih => exact ih

/-- A walk whose fuel is enough for the path ends in the root. -/
lemma Path.walk_eq (h : s.Path k x r) : ∀ fuel, k ≤ fuel → walk s.parent fuel x = r := by
  induction h with
  | @root x hx =>
      intro fuel _
      cases fuel with
      | zero => rfl
      | succ fuel => exact if_pos hx
  | @step k x r hx _ ih =>
      intro fuel hk
      cases fuel with
      | zero => omega
      | succ fuel =>
          have hstep : walk s.parent (fuel + 1) x = walk s.parent fuel (s.parentOf x) := if_neg hx
          rw [hstep]
          exact ih fuel (by omega)

/-- A walk with less fuel stops below the root. -/
lemma Path.not_isRoot_walk (h : s.Path k x r) : ∀ fuel < k, ¬ s.IsRoot (walk s.parent fuel x) := by
  induction h with
  | root _ => exact fun fuel hf => absurd hf (Nat.not_lt_zero fuel)
  | @step k x r hx _ ih =>
      intro fuel hf
      cases fuel with
      | zero => exact hx
      | succ fuel =>
          have hstep : walk s.parent (fuel + 1) x = walk s.parent fuel (s.parentOf x) := if_neg hx
          rw [hstep]
          exact ih fuel (by omega)

/-- The length of the path is the fuel that a walk needs. -/
lemma Path.walk_eq_iff (h : s.Path k x r) (fuel : Nat) : walk s.parent fuel x = r ↔ k ≤ fuel := by
  refine ⟨fun hw => ?_, h.walk_eq fuel⟩
  by_contra hf
  exact h.not_isRoot_walk fuel (Nat.not_le.1 hf) (hw ▸ h.isRoot)

/-- Parents are elements, ranks grow strictly from an element to its parent, and the roots are
counted. -/
structure WellFormed (s : UnionFind) : Prop where
  rank_size : s.rank.size = s.size
  parentOf_lt : ∀ x < s.size, s.parentOf x < s.size
  rankAt_lt : ∀ x, ¬ s.IsRoot x → s.rankAt x < s.rankAt (s.parentOf x)
  sets_eq : s.sets = s.roots.card

/-- The elements of greater rank. A step to the parent leaves fewer of them. -/
def above (s : UnionFind) (x : Nat) : Finset Nat :=
  (Finset.range s.size).filter (s.rankAt x < s.rankAt ·)

lemma card_above_parentOf_lt (h : s.WellFormed) (hx : ¬ s.IsRoot x) :
    (s.above (s.parentOf x)).card < (s.above x).card := by
  have hlt := h.rankAt_lt x hx
  refine Finset.card_lt_card ((Finset.ssubset_iff_of_subset ?_).2 ⟨s.parentOf x, ?_, ?_⟩)
  · intro z hz
    rw [above, Finset.mem_filter] at hz ⊢
    exact ⟨hz.1, hlt.trans hz.2⟩
  · rw [above, Finset.mem_filter, Finset.mem_range]
    exact ⟨h.parentOf_lt x (lt_size_of_not_isRoot hx), hlt⟩
  · simp [above]

/-- Every element has a path to a root, of no more steps than there are elements above it. -/
lemma WellFormed.exists_path (h : s.WellFormed) (x : Nat) :
    ∃ k r, k ≤ (s.above x).card ∧ s.Path k x r := by
  induction hn : (s.above x).card using Nat.strong_induction_on generalizing x with
  | _ n ih =>
      by_cases hx : s.IsRoot x
      · exact ⟨0, x, Nat.zero_le _, .root hx⟩
      · have hlt := card_above_parentOf_lt h hx
        obtain ⟨k, r, hk, hp⟩ := ih _ (hn ▸ hlt) (s.parentOf x) rfl
        exact ⟨k + 1, r, by omega, .step hx hp⟩

lemma card_above_le (s : UnionFind) (x : Nat) : (s.above x).card ≤ s.size := by
  have h := Finset.card_filter_le (Finset.range s.size) (s.rankAt x < s.rankAt ·)
  rwa [Finset.card_range] at h

/-- The root above an element is where its path ends. -/
lemma WellFormed.path_rootOf (h : s.WellFormed) (x : Nat) :
    ∃ k, k ≤ s.size ∧ s.Path k x (s.rootOf x) := by
  obtain ⟨k, r, hk, hp⟩ := h.exists_path x
  have hks : k ≤ s.size := hk.trans (card_above_le s x)
  have hr : s.rootOf x = r := hp.walk_eq s.size hks
  exact ⟨k, hks, hr ▸ hp⟩

lemma Path.unique {k' r' : Nat} (h : s.Path k x r) (h' : s.Path k' x r') : r = r' :=
  (h.walk_eq (max k k') (le_max_left k k')).symm.trans (h'.walk_eq (max k k') (le_max_right k k'))

lemma Path.rootOf_eq (hs : s.WellFormed) (h : s.Path k x r) : s.rootOf x = r := by
  obtain ⟨_, -, hp⟩ := hs.path_rootOf x
  exact hp.unique h

lemma WellFormed.isRoot_rootOf (h : s.WellFormed) (x : Nat) : s.IsRoot (s.rootOf x) := by
  obtain ⟨_, -, hp⟩ := h.path_rootOf x
  exact hp.isRoot

lemma rootOf_of_isRoot (h : s.WellFormed) (hx : s.IsRoot x) : s.rootOf x = x :=
  Path.rootOf_eq h (.root hx)

lemma WellFormed.isRoot_iff_rootOf_eq (h : s.WellFormed) (x : Nat) :
    s.IsRoot x ↔ s.rootOf x = x :=
  ⟨rootOf_of_isRoot h, fun hx => hx ▸ h.isRoot_rootOf x⟩

lemma rootOf_parentOf (h : s.WellFormed) (x : Nat) : s.rootOf (s.parentOf x) = s.rootOf x := by
  by_cases hx : s.IsRoot x
  · rw [hx]
  · obtain ⟨_, -, hp⟩ := h.path_rootOf (s.parentOf x)
    exact (Path.rootOf_eq h (.step hx hp)).symm

lemma rootOf_rootOf (h : s.WellFormed) (x : Nat) : s.rootOf (s.rootOf x) = s.rootOf x :=
  rootOf_of_isRoot h (h.isRoot_rootOf x)

lemma Path.lt_size (hs : s.WellFormed) (h : s.Path k x r) (hx : x < s.size) : r < s.size := by
  induction h with
  | root _ => exact hx
  | @step k x r _ _ ih => exact ih (hs.parentOf_lt x hx)

lemma WellFormed.rootOf_lt (h : s.WellFormed) (hx : x < s.size) : s.rootOf x < s.size := by
  obtain ⟨_, -, hp⟩ := h.path_rootOf x
  exact hp.lt_size h hx

lemma WellFormed.rootOf_mem_roots (h : s.WellFormed) (hx : x < s.size) : s.rootOf x ∈ s.roots :=
  mem_roots.2 ⟨h.rootOf_lt hx, h.isRoot_rootOf x⟩

/-- Every step leads to a greater rank. -/
lemma Path.rankAt_add_le (hs : s.WellFormed) (h : s.Path k x r) : s.rankAt x + k ≤ s.rankAt r := by
  induction h with
  | root _ => exact le_rfl
  | @step k x r hx _ ih =>
      have hlt := hs.rankAt_lt x hx
      omega

/-- The root has a greater rank than every other element below it. -/
lemma WellFormed.rankAt_lt_rootOf (h : s.WellFormed) (hx : ¬ s.IsRoot x) :
    s.rankAt x < s.rankAt (s.rootOf x) := by
  obtain ⟨k, -, hp⟩ := h.path_rootOf (s.parentOf x)
  rw [rootOf_parentOf h] at hp
  have hlt := h.rankAt_lt x hx
  have hle := hp.rankAt_add_le h
  omega

/-! ### Compression -/

/-- The second forest is the first one with some elements pointed at their roots. -/
structure Shortens (s t : UnionFind) : Prop where
  rank_eq : t.rank = s.rank
  sets_eq : t.sets = s.sets
  size_eq : t.size = s.size
  parentOf_eq : ∀ x, t.parentOf x = s.parentOf x ∨ t.parentOf x = s.rootOf x

namespace Shortens

lemma refl (s : UnionFind) : s.Shortens s :=
  ⟨rfl, rfl, rfl, fun _ => Or.inl rfl⟩

lemma isRoot_iff (hs : s.WellFormed) (h : s.Shortens t) (x : Nat) : t.IsRoot x ↔ s.IsRoot x := by
  have hp := h.parentOf_eq x
  constructor
  · intro hx
    rw [IsRoot] at hx
    rcases hp with hp | hp
    · exact hp.symm.trans hx
    · exact (hp.symm.trans hx) ▸ hs.isRoot_rootOf x
  · intro hx
    rw [rootOf_of_isRoot hs hx] at hp
    rcases hp with hp | hp
    · exact hp.trans hx
    · exact hp

lemma wellFormed (hs : s.WellFormed) (h : s.Shortens t) : t.WellFormed where
  rank_size := by rw [h.rank_eq, h.size_eq, hs.rank_size]
  parentOf_lt := by
    intro x hx
    rw [h.size_eq] at hx ⊢
    rcases h.parentOf_eq x with hp | hp <;> rw [hp]
    · exact hs.parentOf_lt x hx
    · exact hs.rootOf_lt hx
  rankAt_lt := by
    intro x hx
    rw [h.isRoot_iff hs] at hx
    simp only [rankAt, h.rank_eq]
    rcases h.parentOf_eq x with hp | hp <;> rw [hp]
    · exact hs.rankAt_lt x hx
    · exact hs.rankAt_lt_rootOf hx
  sets_eq := by
    have hr : t.roots = s.roots := by
      ext x
      rw [mem_roots, mem_roots, h.size_eq, h.isRoot_iff hs]
    rw [h.sets_eq, hs.sets_eq, hr]

/-- Compression is invisible from above. -/
theorem rootOf_eq (hs : s.WellFormed) (h : s.Shortens t) (x : Nat) : t.rootOf x = s.rootOf x := by
  obtain ⟨_, -, hp⟩ := (h.wellFormed hs).path_rootOf x
  generalize t.rootOf x = r at hp
  induction hp with
  | root hx => exact (rootOf_of_isRoot hs ((h.isRoot_iff hs _).1 hx)).symm
  | @step k x r _ _ ih =>
      rw [ih]
      rcases h.parentOf_eq x with hp | hp <;> rw [hp]
      · exact rootOf_parentOf hs x
      · exact rootOf_rootOf hs x

/-- The root above an element is still one. -/
lemma rootOf_mem_roots (hs : s.WellFormed) (h : s.Shortens t) (hx : x < s.size) :
    s.rootOf x ∈ t.roots :=
  h.rootOf_eq hs x ▸ (h.wellFormed hs).rootOf_mem_roots (h.size_eq.symm ▸ hx)

lemma trans {u : UnionFind} (hs : s.WellFormed) (h : s.Shortens t) (h' : t.Shortens u) :
    s.Shortens u where
  rank_eq := h'.rank_eq.trans h.rank_eq
  sets_eq := h'.sets_eq.trans h.sets_eq
  size_eq := h'.size_eq.trans h.size_eq
  parentOf_eq x := by
    rcases h'.parentOf_eq x with hp | hp
    · rw [hp]
      exact h.parentOf_eq x
    · rw [hp, h.rootOf_eq hs]
      exact Or.inr rfl

end Shortens

lemma parentOf_setIfInBounds (s : UnionFind) (hx : x < s.size) (p z : Nat) :
    ({ s with parent := s.parent.setIfInBounds x p } : UnionFind).parentOf z =
      if z = x then p else s.parentOf z :=
  getD_setIfInBounds hx p z z

/-- Pointing one more element at its root shortens no less. -/
lemma Shortens.point {parent : Array Nat} (h : s.Shortens { s with parent := parent })
    (hx : x < s.size) :
    s.Shortens { s with parent := parent.setIfInBounds x (s.rootOf x) } := by
  have hx' : x < ({ s with parent := parent } : UnionFind).size := h.size_eq.symm ▸ hx
  refine ⟨rfl, rfl, ?_, fun z => ?_⟩
  · simpa [size] using h.size_eq
  · have hz := parentOf_setIfInBounds { s with parent := parent } hx' (s.rootOf x) z
    by_cases hzx : z = x
    · rw [if_pos hzx] at hz
      exact Or.inr (hzx ▸ hz)
    · rw [if_neg hzx] at hz
      exact hz.symm ▸ h.parentOf_eq z

/-- Pointing the elements of a path at its root, from `x` upwards. The induction is on the fuel, and
what it carries is that the forest so far shortens the one at the beginning. -/
lemma shortens_compress (hs : s.WellFormed) (fuel : Nat) (parent : Array Nat) (x : Nat)
    (hx : x < s.size) (h : s.Shortens { s with parent := parent }) :
    s.Shortens { s with parent := compress (s.rootOf x) fuel parent x } := by
  induction fuel generalizing parent x with
  | zero => exact h
  | succ fuel ih =>
      set p := parent.getD x x with hp
      by_cases hr : p = s.rootOf x
      · simpa only [compress, ← hp, hr, if_true] using h
      · have hpx : s.parentOf x = p := by
          rcases h.parentOf_eq x with hpx | hpx
          · exact hpx.symm
          · exact absurd hpx hr
        have hrp : s.rootOf p = s.rootOf x := hpx ▸ rootOf_parentOf hs x
        have hgo := ih (parent.setIfInBounds x (s.rootOf x)) p (hpx ▸ hs.parentOf_lt x hx)
          (h.point hx)
        rw [hrp] at hgo
        simpa only [compress, ← hp, hr, if_false] using hgo

/-- Finding a root points some elements at their roots and does nothing else. -/
theorem shortens_root (hs : s.WellFormed) (hx : x < s.size) : s.Shortens (s.root x).2 :=
  shortens_compress hs s.size s.parent x hx (.refl s)

lemma climb_of_isRoot (hx : s.IsRoot x) (fuel : Nat) :
    climb fuel s.parent x = (x, s.parent) := by
  cases fuel with
  | zero => rfl
  | succ fuel => exact if_pos hx

lemma climb_succ {fuel : Nat} {parent : Array Nat} (hx : ¬ s.IsRoot x)
    (h : climb fuel s.parent (s.parentOf x) = (r, parent)) :
    climb (fuel + 1) s.parent x = (r, parent.setIfInBounds x r) := by
  have hp : s.parent.getD x x ≠ x := hx
  simp only [climb, if_neg hp]
  rw [show s.parent.getD x x = s.parentOf x from rfl, h]

/-- The recursion finds the root at the end of the path, and points the elements of the path at it
on its way back. -/
lemma Path.climb_eq (hs : s.WellFormed) (h : s.Path k x r) {fuel : Nat} (hk : k ≤ fuel) :
    ∃ parent, climb fuel s.parent x = (r, parent) ∧ s.Shortens { s with parent := parent } := by
  induction h generalizing fuel with
  | @root x hx => exact ⟨s.parent, climb_of_isRoot hx fuel, .refl s⟩
  | @step k x r hx hpath ih =>
      obtain ⟨fuel, rfl⟩ : ∃ f, fuel = f + 1 := ⟨fuel - 1, by omega⟩
      obtain ⟨parent, hclimb, hshort⟩ := ih (show k ≤ fuel by omega)
      have hr : s.rootOf x = r := (Path.step hx hpath).rootOf_eq hs
      exact ⟨parent.setIfInBounds x r, climb_succ hx hclimb,
        hr ▸ hshort.point (lt_size_of_not_isRoot hx)⟩

/-- The recursion finds the same root as the walk and shortens the forest as well. -/
theorem exists_climb (hs : s.WellFormed) (x : Nat) :
    ∃ parent, climb s.size s.parent x = (s.rootOf x, parent) ∧
      s.Shortens { s with parent := parent } := by
  obtain ⟨k, hk, hp⟩ := hs.path_rootOf x
  exact hp.climb_eq hs hk

/-! ### Linking -/

/-- The second forest is the first one with the root `c` pointed at the root `w`, whose rank is then
above that of `c`. -/
structure Attaches (s : UnionFind) (c w : Nat) (t : UnionFind) : Prop where
  size_eq : t.size = s.size
  rank_size_eq : t.rank.size = s.rank.size
  sets_eq : t.sets = s.sets - 1
  parentOf_eq : ∀ z, t.parentOf z = if z = c then w else s.parentOf z
  rankAt_eq : ∀ z, z ≠ w → t.rankAt z = s.rankAt z
  rankAt_le : s.rankAt w ≤ t.rankAt w
  rankAt_lt : s.rankAt c < t.rankAt w

namespace Attaches

variable {c w : Nat}

lemma isRoot_iff (hcw : c ≠ w) (h : s.Attaches c w t) (z : Nat) :
    t.IsRoot z ↔ z ≠ c ∧ s.IsRoot z := by
  rw [IsRoot, h.parentOf_eq]
  by_cases hz : z = c
  · simp [hz, hcw.symm]
  · simp [hz, IsRoot]

lemma roots_eq (hcw : c ≠ w) (h : s.Attaches c w t) : t.roots = s.roots.erase c := by
  ext z
  rw [Finset.mem_erase, mem_roots, mem_roots, h.size_eq, h.isRoot_iff hcw]
  tauto

lemma wellFormed (hs : s.WellFormed) (hcw : c ≠ w) (hc : c ∈ s.roots) (hw : w ∈ s.roots)
    (h : s.Attaches c w t) : t.WellFormed where
  rank_size := by rw [h.rank_size_eq, h.size_eq, hs.rank_size]
  parentOf_lt := by
    intro x hx
    rw [h.size_eq] at hx ⊢
    rw [h.parentOf_eq]
    split
    · exact (mem_roots.1 hw).1
    · exact hs.parentOf_lt x hx
  rankAt_lt := by
    intro x hx
    rw [h.isRoot_iff hcw, not_and_or, not_not] at hx
    rw [h.parentOf_eq]
    by_cases hxc : x = c
    · rw [if_pos hxc, hxc, h.rankAt_eq c hcw]
      exact h.rankAt_lt
    · have hxr : ¬ s.IsRoot x := hx.resolve_left hxc
      have hxw : x ≠ w := fun e => hxr (e ▸ (mem_roots.1 hw).2)
      have hlt := hs.rankAt_lt x hxr
      rw [if_neg hxc, h.rankAt_eq x hxw]
      by_cases hp : s.parentOf x = w
      · rw [hp] at hlt ⊢
        exact hlt.trans_le h.rankAt_le
      · rwa [h.rankAt_eq _ hp]
  sets_eq := by rw [h.sets_eq, h.roots_eq hcw, Finset.card_erase_of_mem hc, hs.sets_eq]

/-- A path to `c` goes one step further now, and every other path is what it was. -/
lemma exists_path (hcw : c ≠ w) (hc : s.IsRoot c) (hw : s.IsRoot w) (h : s.Attaches c w t)
    (hp : s.Path k x r) : ∃ k', t.Path k' x (if r = c then w else r) := by
  induction hp with
  | @root x hx =>
      by_cases hxc : x = c
      · have hwr : t.IsRoot w := (h.isRoot_iff hcw w).2 ⟨hcw.symm, hw⟩
        have hxr : ¬ t.IsRoot x := fun hr => ((h.isRoot_iff hcw x).1 hr).1 hxc
        have hpx : t.parentOf x = w := by rw [h.parentOf_eq, if_pos hxc]
        rw [if_pos hxc]
        exact ⟨1, .step hxr (hpx.symm ▸ .root hwr)⟩
      · rw [if_neg hxc]
        exact ⟨0, .root ((h.isRoot_iff hcw x).2 ⟨hxc, hx⟩)⟩
  | @step k x r hx _ ih =>
      obtain ⟨k', hk'⟩ := ih
      have hxr : ¬ t.IsRoot x := fun hr => hx ((h.isRoot_iff hcw x).1 hr).2
      have hpx : t.parentOf x = s.parentOf x := by
        rw [h.parentOf_eq, if_neg fun e : x = c => hx (e ▸ hc)]
      exact ⟨k' + 1, .step hxr (hpx.symm ▸ hk')⟩

/-- The elements below `c` are below `w` now, and the others are where they were. -/
theorem rootOf_eq (hs : s.WellFormed) (hcw : c ≠ w) (hc : c ∈ s.roots) (hw : w ∈ s.roots)
    (h : s.Attaches c w t) (x : Nat) :
    t.rootOf x = if s.rootOf x = c then w else s.rootOf x := by
  obtain ⟨_, -, hp⟩ := hs.path_rootOf x
  obtain ⟨_, hp'⟩ := h.exists_path hcw (mem_roots.1 hc).2 (mem_roots.1 hw).2 hp
  exact hp'.rootOf_eq (h.wellFormed hs hcw hc hw)

end Attaches

lemma rankAt_setIfInBounds (s : UnionFind) (hs : s.WellFormed) (hx : x < s.size)
    (parent : Array Nat) (sets n z : Nat) :
    (⟨parent, s.rank.setIfInBounds x n, sets⟩ : UnionFind).rankAt z =
      if z = x then n else s.rankAt z :=
  getD_setIfInBounds (hs.rank_size.symm ▸ hx) n z 0

lemma link_of_lt (h : s.rankAt x < s.rankAt y) : s.link x y =
    { s with parent := s.parent.setIfInBounds x y, sets := s.sets - 1 } :=
  if_pos h

lemma link_of_gt (h : s.rankAt y < s.rankAt x) : s.link x y =
    { s with parent := s.parent.setIfInBounds y x, sets := s.sets - 1 } :=
  (if_neg h.not_gt).trans (if_pos h)

lemma link_of_eq (h : s.rankAt x = s.rankAt y) : s.link x y =
    ⟨s.parent.setIfInBounds y x, s.rank.setIfInBounds x (s.rankAt x + 1), s.sets - 1⟩ :=
  (if_neg h.not_lt).trans (if_neg h.not_gt)

/-- Linking two roots points the one of lower rank at the other one. -/
lemma attaches_link_of_lt (hx : x ∈ s.roots) (h : s.rankAt x < s.rankAt y) :
    s.Attaches x y (s.link x y) := by
  rw [link_of_lt h]
  exact
    { size_eq := Array.size_setIfInBounds
      rank_size_eq := rfl
      sets_eq := rfl
      parentOf_eq := parentOf_setIfInBounds s (mem_roots.1 hx).1 y
      rankAt_eq := fun _ _ => rfl
      rankAt_le := le_rfl
      rankAt_lt := h }

/-- It points the second at the first where the ranks are equal. -/
lemma attaches_link_of_le (hs : s.WellFormed) (hx : x ∈ s.roots) (hy : y ∈ s.roots)
    (h : s.rankAt y ≤ s.rankAt x) : s.Attaches y x (s.link x y) := by
  have hys : y < s.size := (mem_roots.1 hy).1
  rcases h.lt_or_eq with hgt | heq
  · rw [link_of_gt hgt]
    exact
      { size_eq := Array.size_setIfInBounds
        rank_size_eq := rfl
        sets_eq := rfl
        parentOf_eq := parentOf_setIfInBounds s hys x
        rankAt_eq := fun _ _ => rfl
        rankAt_le := le_rfl
        rankAt_lt := hgt }
  · have hrank := rankAt_setIfInBounds s hs (mem_roots.1 hx).1 (s.parent.setIfInBounds y x)
      (s.sets - 1) (s.rankAt x + 1)
    rw [link_of_eq heq.symm]
    exact
      { size_eq := Array.size_setIfInBounds
        rank_size_eq := Array.size_setIfInBounds
        sets_eq := rfl
        parentOf_eq := parentOf_setIfInBounds s hys x
        rankAt_eq := fun z hz => by rw [hrank, if_neg hz]
        rankAt_le := by rw [hrank, if_pos rfl]; omega
        rankAt_lt := by rw [hrank, if_pos rfl]; omega }

theorem attaches_link (hs : s.WellFormed) (hx : x ∈ s.roots) (hy : y ∈ s.roots) :
    s.Attaches x y (s.link x y) ∨ s.Attaches y x (s.link x y) := by
  rcases lt_or_ge (s.rankAt x) (s.rankAt y) with h | h
  · exact Or.inl (attaches_link_of_lt hx h)
  · exact Or.inr (attaches_link_of_le hs hx hy h)

/-- The root above an element after two roots were linked. -/
lemma rootOf_link (hs : s.WellFormed) (hxy : x ≠ y) (hx : x ∈ s.roots) (hy : y ∈ s.roots)
    (z : Nat) : (s.link x y).rootOf z =
      if s.rankAt x < s.rankAt y then if s.rootOf z = x then y else s.rootOf z
      else if s.rootOf z = y then x else s.rootOf z := by
  split
  · next h => exact (attaches_link_of_lt hx h).rootOf_eq hs hxy hx hy z
  · next h => exact (attaches_link_of_le hs hx hy (not_lt.1 h)).rootOf_eq hs hxy.symm hy hx z

/-- Linking raises the rank of the first root where the ranks are equal, and no other rank. -/
lemma rank_link (s : UnionFind) (x y : Nat) : (s.link x y).rank =
    if s.rankAt x = s.rankAt y then s.rank.setIfInBounds x (s.rankAt x + 1) else s.rank := by
  rcases lt_trichotomy (s.rankAt x) (s.rankAt y) with h | h | h
  · rw [link_of_lt h, if_neg h.ne]
  · rw [link_of_eq h, if_pos h]
  · rw [link_of_gt h, if_neg h.ne']

/-! ### Joining two elements -/

/-- The second forest has the sets of the first one with those of `x` and `y` merged. -/
def Merges (s : UnionFind) (x y : Nat) (t : UnionFind) : Prop :=
  ∀ a b, t.rootOf a = t.rootOf b ↔
    s.rootOf a = s.rootOf b ∨ (s.rootOf a = s.rootOf x ∧ s.rootOf y = s.rootOf b) ∨
      (s.rootOf a = s.rootOf y ∧ s.rootOf x = s.rootOf b)

lemma Merges.symm (h : s.Merges x y t) : s.Merges y x t := by
  intro a b
  rw [h a b]
  tauto

/-- Merging a set with itself changes nothing. -/
lemma Merges.rootOf_eq_iff (h : s.Merges x y t) (hxy : s.rootOf x = s.rootOf y) (a b : Nat) :
    t.rootOf a = t.rootOf b ↔ s.rootOf a = s.rootOf b := by
  rw [h a b]
  grind

lemma Attaches.merges {c w : Nat} (hs : s.WellFormed) (hcw : c ≠ w) (hc : c ∈ s.roots)
    (hw : w ∈ s.roots) (h : s.Attaches c w t) : s.Merges c w t := by
  intro a b
  rw [h.rootOf_eq hs hcw hc hw, h.rootOf_eq hs hcw hc hw, rootOf_of_isRoot hs (mem_roots.1 hc).2,
    rootOf_of_isRoot hs (mem_roots.1 hw).2]
  grind

/-- Linking two different roots merges their sets and loses one root. -/
lemma link_spec (hs : s.WellFormed) (hxy : x ≠ y) (hx : x ∈ s.roots) (hy : y ∈ s.roots) :
    (s.link x y).WellFormed ∧ (s.link x y).size = s.size ∧ s.Merges x y (s.link x y) ∧
      (s.link x y).sets + 1 = s.sets := by
  have hpos : 0 < s.sets := hs.sets_eq ▸ Finset.card_pos.2 ⟨x, hx⟩
  rcases attaches_link hs hx hy with h | h
  · exact ⟨h.wellFormed hs hxy hx hy, h.size_eq, h.merges hs hxy hx hy, by rw [h.sets_eq]; omega⟩
  · exact ⟨h.wellFormed hs hxy.symm hy hx, h.size_eq, (h.merges hs hxy.symm hy hx).symm,
      by rw [h.sets_eq]; omega⟩

/-- What joining two elements does. The answer is whether they were in different sets; if they were,
one root is lost. -/
structure JoinSpec (s : UnionFind) (x y : Nat) (joined : Bool) (t : UnionFind) : Prop where
  wellFormed : t.WellFormed
  size_eq : t.size = s.size
  joined_iff : joined = true ↔ s.rootOf x ≠ s.rootOf y
  merges : s.Merges x y t
  sets_eq : t.sets + joined.toNat = s.sets

lemma JoinSpec.rootOf_eq (h : s.JoinSpec x y false t) : s.rootOf x = s.rootOf y := by
  by_contra hne
  exact Bool.false_ne_true (h.joined_iff.2 hne)

/-- Finding the roots of two elements, one after the other, shortens the forest. -/
lemma exists_roots (hs : s.WellFormed) (hx : x < s.size) (hy : y < s.size) :
    ∃ t₁ t, s.root x = (s.rootOf x, t₁) ∧ t₁.root y = (s.rootOf y, t) ∧ s.Shortens t := by
  have h : s.Shortens (s.root x).2 := shortens_root hs hx
  have hy' : y < (s.root x).2.size := h.size_eq.symm ▸ hy
  refine ⟨_, ((s.root x).2.root y).2, rfl, ?_, h.trans hs (shortens_root (h.wellFormed hs) hy')⟩
  rw [← h.rootOf_eq hs y]
  rfl

/-- Joining links the roots if they differ. -/
lemma exists_join_eq (hs : s.WellFormed) (hx : x < s.size) (hy : y < s.size) :
    ∃ t, s.Shortens t ∧ s.join x y =
      if s.rootOf x = s.rootOf y then (false, t) else (true, t.link (s.rootOf x) (s.rootOf y)) := by
  obtain ⟨t₁, t, hroot₁, hroot, ht⟩ := exists_roots hs hx hy
  exact ⟨t, ht, by simp only [join, hroot₁, hroot]⟩

/-- Joining two elements of one set only shortens the forest. -/
lemma shortens_join (hs : s.WellFormed) (hx : x < s.size) (hy : y < s.size)
    (hxy : s.rootOf x = s.rootOf y) : s.Shortens (s.join x y).2 := by
  obtain ⟨t, ht, hjoin⟩ := exists_join_eq hs hx hy
  rwa [hjoin, if_pos hxy]

theorem join_spec (hs : s.WellFormed) (hx : x < s.size) (hy : y < s.size) :
    s.JoinSpec x y (s.join x y).1 (s.join x y).2 := by
  obtain ⟨t, ht, hjoin⟩ := exists_join_eq hs hx hy
  have hw : t.WellFormed := ht.wellFormed hs
  have hroot : ∀ z, t.rootOf z = s.rootOf z := ht.rootOf_eq hs
  rw [hjoin]
  by_cases hxy : s.rootOf x = s.rootOf y
  · rw [if_pos hxy]
    refine ⟨hw, ht.size_eq, by simp [hxy], fun a b => ?_, by simp [ht.sets_eq]⟩
    rw [hroot, hroot]
    grind
  · obtain ⟨hlink, hsize, hm, hsets⟩ :=
      link_spec hw hxy (ht.rootOf_mem_roots hs hx) (ht.rootOf_mem_roots hs hy)
    rw [if_neg hxy]
    refine ⟨hlink, hsize.trans ht.size_eq, by simp [hxy], fun a b => ?_, hsets.trans ht.sets_eq⟩
    rw [hm a b]
    simp only [hroot, rootOf_rootOf hs]

lemma union_eq_join (hx : x < s.size) (hy : y < s.size) : s.union x y = .ok (s.join x y) := by
  simp only [union_eq, requireElement, if_pos hx, if_pos hy]
  rfl

/-- The union of two elements succeeds and joins them. -/
theorem exists_union (hs : s.WellFormed) (hx : x < s.size) (hy : y < s.size) :
    ∃ joined t, s.union x y = .ok (joined, t) ∧ s.JoinSpec x y joined t :=
  ⟨_, _, union_eq_join hx hy, join_spec hs hx hy⟩

/-- The question after two elements is answered by their roots. -/
theorem exists_same (hs : s.WellFormed) (hx : x < s.size) (hy : y < s.size) :
    ∃ t, s.same x y = .ok (s.rootOf x == s.rootOf y, t) ∧ s.Shortens t := by
  obtain ⟨t₁, t, hroot₁, hroot, ht⟩ := exists_roots hs hx hy
  refine ⟨t, ?_, ht⟩
  simp only [same_eq, requireElement, if_pos hx, if_pos hy, hroot₁, hroot]
  rfl

/-! ### The beginning -/

lemma size_singletons (n : Nat) : (singletons n).size = n :=
  Array.size_range

lemma isRoot_singletons (n x : Nat) : (singletons n).IsRoot x := by
  by_cases hx : x < n
  · simp [IsRoot, parentOf, singletons, hx]
  · exact isRoot_of_size_le (by rw [size_singletons]; omega)

lemma wellFormed_singletons (n : Nat) : (singletons n).WellFormed where
  rank_size := by simp [singletons, size]
  parentOf_lt x hx := by rwa [isRoot_singletons n x]
  rankAt_lt x hx := absurd (isRoot_singletons n x) hx
  sets_eq := by
    have hr : (singletons n).roots = Finset.range n := by
      ext x
      simp [mem_roots, isRoot_singletons, size_singletons]
    rw [hr, Finset.card_range]
    rfl

lemma rootOf_singletons (n x : Nat) : (singletons n).rootOf x = x :=
  rootOf_of_isRoot (wellFormed_singletons n) (isRoot_singletons n x)

end UnionFind

end WeightedGraph
