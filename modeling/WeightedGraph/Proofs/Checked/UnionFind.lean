import Mathlib
import WeightedGraph.Proofs.Checked.Run
import WeightedGraph.Proofs.UnionFind.Ranks

/-!
Forests of sets with every access checked.

* `Checked.walk`, `Checked.compress`, `Checked.root`: the way to the root and back along it. A path
  has fewer steps than there are elements, so both loops end.
* `Checked.link`, `Checked.join`: the number of sets may not become negative, no root may be linked
  with itself, and a rank has to fit in one byte. The last is what heavy forests are for.
* `Checked.root_eq`, `Checked.join_eq`: on a well-formed forest these come to no fault.
-/

namespace WeightedGraph

open UnionFind

variable {s : UnionFind} {k x y r : Nat}

namespace Checked

/-- The root above `x`, which has to be met within `fuel` steps. -/
def walk (parent : Array Nat) : Nat → Nat → Checked Nat
  | 0, _ => throw .unfinished
  | fuel + 1, x => do
      let p ← read parent x
      if p = x then return x else walk parent fuel p

/-- Points the elements from `x` upwards at `root`, until one points there already, which one has to
do within `fuel` steps. -/
def compress (root : Nat) : Nat → Array Nat → Nat → Checked (Array Nat)
  | 0, _, _ => throw .unfinished
  | fuel + 1, parent, x => do
      let p ← read parent x
      if p = root then return parent else compress root fuel (← write parent x root) p

/-- The root above an element and the forest with its path compressed in a second pass. -/
def root (s : UnionFind) (x : Nat) : Checked (Nat × UnionFind) := do
  let r ← walk s.parent (s.size + 1) x
  return (r, { s with parent := ← compress r (s.size + 1) s.parent x })

/-- Makes one set of the sets of two different roots. -/
def link (s : UnionFind) (x y : Nat) : Checked UnionFind :=
  if x = y then throw .sameSet
  else do
    let sets ← sub s.sets 1
    let rx ← read s.rank x
    let ry ← read s.rank y
    if rx < ry then return { s with parent := ← write s.parent x y, sets := sets }
    else if ry < rx then return { s with parent := ← write s.parent y x, sets := sets }
    else return ⟨← write s.parent y x, ← write s.rank x (← increment 8 rx), sets⟩

/-- Compresses the paths of two elements, the first one first, and links their roots if they
differ. -/
def join (s : UnionFind) (x y : Nat) : Checked (Bool × UnionFind) := do
  let (rx, s) ← root s x
  let (ry, s) ← root s y
  if rx = ry then return (false, s) else return (true, ← link s rx ry)

/-! ### The root above an element -/

lemma read_parent (hx : x < s.size) : read s.parent x = .ok (s.parentOf x) :=
  read_eq hx x

lemma walk_eq (hs : s.WellFormed) (h : s.Path k x r) (hx : x < s.size) {fuel : Nat}
    (hk : k < fuel) : walk s.parent fuel x = .ok r := by
  induction h generalizing fuel with
  | @root x hroot =>
      obtain ⟨fuel, rfl⟩ : ∃ f, fuel = f + 1 := ⟨fuel - 1, by omega⟩
      have hp : s.parentOf x = x := hroot
      rw [walk, read_parent hx, ok_bind, if_pos hp]
      rfl
  | @step k x r hroot _ ih =>
      obtain ⟨fuel, rfl⟩ : ∃ f, fuel = f + 1 := ⟨fuel - 1, by omega⟩
      have hp : ¬ s.parentOf x = x := hroot
      rw [walk, read_parent hx, ok_bind, if_neg hp]
      exact ih (hs.parentOf_lt x hx) (by omega)

/-- The second pass ends where the path does. The induction is on the path in the forest at the
beginning, of which the forest so far is a shortening. -/
lemma compress_eq (hs : s.WellFormed) (h : s.Path k x r) (hx : x < s.size) {parent : Array Nat}
    (hshort : s.Shortens { s with parent := parent }) {fuel fuel' : Nat} (hk : k < fuel)
    (hk' : k ≤ fuel') : compress r fuel parent x = .ok (UnionFind.compress r fuel' parent x) := by
  have hsize : ∀ {parent : Array Nat}, s.Shortens { s with parent := parent } →
      parent.size = s.size := fun hshort => hshort.size_eq
  induction h generalizing parent fuel fuel' with
  | @root x hroot =>
      have hp : parent.getD x x = x := (hshort.isRoot_iff hs x).2 hroot
      obtain ⟨fuel, rfl⟩ : ∃ f, fuel = f + 1 := ⟨fuel - 1, by omega⟩
      rw [compress, read_eq (hsize hshort ▸ hx) x, ok_bind, if_pos hp]
      cases fuel' with
      | zero => rfl
      | succ fuel' => simp only [UnionFind.compress, hp, if_true]; rfl
  | @step k x r hroot hpath ih =>
      obtain ⟨fuel, rfl⟩ : ∃ f, fuel = f + 1 := ⟨fuel - 1, by omega⟩
      obtain ⟨fuel', rfl⟩ : ∃ f, fuel' = f + 1 := ⟨fuel' - 1, by omega⟩
      have hr : s.rootOf x = r := (Path.step hroot hpath).rootOf_eq hs
      rw [compress, read_eq (hsize hshort ▸ hx) x, ok_bind, UnionFind.compress]
      split
      · rfl
      · next hne =>
          have hp : parent.getD x x = s.parentOf x :=
            (hshort.parentOf_eq x).resolve_right fun h => hne (h.trans hr)
          rw [write_eq (hsize hshort ▸ hx), ok_bind, hp]
          exact ih (hs.parentOf_lt x hx) (hr ▸ hshort.point hx) (by omega) (by omega)

/-- The root above an element is found without a fault. -/
theorem root_eq (hs : s.WellFormed) (hx : x < s.size) : root s x = .ok (s.root x) := by
  obtain ⟨k, hk, hpath⟩ := hs.path_rootOf x
  rw [root, walk_eq hs hpath hx (Nat.lt_succ_of_le hk), ok_bind,
    compress_eq hs hpath hx (.refl s) (Nat.lt_succ_of_le hk) hk]
  rfl

/-- The roots above two elements are looked up one after the other without a fault. -/
lemma exists_roots_eq (hs : s.WellFormed) (hx : x < s.size) (hy : y < s.size) :
    ∃ t₁ t, s.root x = (s.rootOf x, t₁) ∧ t₁.root y = (s.rootOf y, t) ∧
      root s x = .ok (s.rootOf x, t₁) ∧ root t₁ y = .ok (s.rootOf y, t) ∧ s.Shortens t := by
  obtain ⟨t₁, t, hrootx, hrooty, ht⟩ := exists_roots hs hx hy
  have ht₁ : s.Shortens t₁ := by simpa only [hrootx] using shortens_root hs hx
  refine ⟨t₁, t, hrootx, hrooty, ?_, ?_, ht⟩
  · rw [root_eq hs hx, hrootx]
  · rw [root_eq (ht₁.wellFormed hs) (ht₁.size_eq.symm ▸ hy), hrooty]

/-! ### Joining two elements -/

lemma link_eq (hs : s.WellFormed) (hxy : x ≠ y) (hx : x ∈ s.roots) (hy : y ∈ s.roots)
    (hrank : s.rankAt x < 255) : link s x y = .ok (s.link x y) := by
  have hxs : x < s.size := (mem_roots.1 hx).1
  have hys : y < s.size := (mem_roots.1 hy).1
  have hsets : 1 ≤ s.sets := hs.sets_eq ▸ Finset.card_pos.2 ⟨x, hx⟩
  have hreadx : read s.rank x = .ok (s.rankAt x) := read_eq (hs.rank_size.symm ▸ hxs) 0
  have hready : read s.rank y = .ok (s.rankAt y) := read_eq (hs.rank_size.symm ▸ hys) 0
  have hinc : increment 8 (s.rankAt x) = .ok (s.rankAt x + 1) := increment_eq (by omega)
  have hwritex : write s.parent x y = .ok (s.parent.setIfInBounds x y) := write_eq hxs y
  have hwritey : write s.parent y x = .ok (s.parent.setIfInBounds y x) := write_eq hys x
  rw [link, if_neg hxy, sub_eq hsets, ok_bind, hreadx, ok_bind, hready, ok_bind, hwritex, hwritey]
  rcases lt_trichotomy (s.rankAt x) (s.rankAt y) with h | h | h
  · rw [if_pos h, link_of_lt h]
    rfl
  · rw [if_neg h.not_lt, if_neg h.not_gt, hinc, ok_bind, ok_bind,
      write_eq (hs.rank_size.symm ▸ hxs), link_of_eq h]
    rfl
  · rw [if_neg h.not_gt, if_pos h, link_of_gt h]
    rfl

/-- Two elements are joined without a fault, if the forest is heavy and counts its elements in a
word. -/
theorem join_eq (hs : s.WellFormed) (hheavy : s.Heavy) (hsize : s.size < 2 ^ 64) (hx : x < s.size)
    (hy : y < s.size) : join s x y = .ok (s.join x y) := by
  obtain ⟨t₁, t, hrootx, hrooty, hcheckx, hchecky, ht⟩ := exists_roots_eq hs hx hy
  have hmem : ∀ z < s.size, s.rootOf z ∈ t.roots := fun _ => ht.rootOf_mem_roots hs
  have hjoin : s.join x y =
      if s.rootOf x = s.rootOf y then (false, t) else (true, t.link (s.rootOf x) (s.rootOf y)) := by
    simp only [UnionFind.join, hrootx, hrooty]
  rw [join, hcheckx, ok_bind]
  dsimp only
  rw [hchecky, ok_bind, hjoin]
  dsimp only
  split
  · rfl
  · next hxy =>
      have hrank : t.rankAt (s.rootOf x) < 64 :=
        (ht.heavy hs hheavy).rankAt_lt (hmem x hx) (ht.size_eq.symm ▸ hsize)
      rw [link_eq (ht.wellFormed hs) hxy (hmem x hx) (hmem y hy) (by omega)]
      rfl

end Checked

end WeightedGraph
