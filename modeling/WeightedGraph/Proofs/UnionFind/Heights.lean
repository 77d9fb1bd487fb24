import Mathlib
import WeightedGraph.Proofs.Checked.UnionFind
import WeightedGraph.Proofs.UnionFind.Compression

/-!
Trees are no higher than the logarithms of their sizes.

* `climb_eq_iff`, `Path.compress_eq`: the recursion and the second pass along a path take as many steps
  as the walk does.
* `Heavy.run`: every forest that comes about by calls is heavy.
* `Heavy.length_le_log`: so a path, along which ranks grow, has no more steps than the logarithm of the
  size of the set.
* `UnionFind.Shallow`: all that follows for a forest whose elements are counted in a word. Any calls
  lead to such forests, as `shallow_run_singletons` says.
-/

namespace WeightedGraph

namespace UnionFind

variable {s t : UnionFind} {k x r : Nat}

/-! ### Steps -/

/-- The recursion comes as far as the walk. -/
lemma climb_fst (fuel : Nat) (parent : Array Nat) (x : Nat) :
    (climb fuel parent x).1 = walk parent fuel x := by
  induction fuel generalizing x with
  | zero => rfl
  | succ fuel ih =>
      simp only [climb, walk]
      split
      · rfl
      · exact ih _

namespace Path

/-- Fuel beyond the length of the path changes nothing for the recursion. -/
lemma climb_congr (h : s.Path k x r) {fuel fuel' : Nat} (hf : k ≤ fuel) (hf' : k ≤ fuel') :
    climb fuel s.parent x = climb fuel' s.parent x := by
  induction h generalizing fuel fuel' with
  | @root x hx => rw [climb_of_isRoot hx, climb_of_isRoot hx]
  | @step k x r hx _ ih =>
      obtain ⟨fuel, rfl⟩ : ∃ f, fuel = f + 1 := ⟨fuel - 1, by omega⟩
      obtain ⟨fuel', rfl⟩ : ∃ f, fuel' = f + 1 := ⟨fuel' - 1, by omega⟩
      have hrest := ih (show k ≤ fuel by omega) (show k ≤ fuel' by omega)
      rw [climb_succ hx rfl, climb_succ hx rfl, hrest]

/-- The length of the path is the fuel that the recursion needs. -/
lemma climb_eq_iff (h : s.Path k x r) (hk : k ≤ s.size) (fuel : Nat) :
    climb fuel s.parent x = climb s.size s.parent x ↔ k ≤ fuel := by
  refine ⟨fun hclimb => ?_, fun hf => h.climb_congr hf hk⟩
  have hwalk := congrArg Prod.fst hclimb
  rwa [climb_fst, climb_fst, h.walk_eq s.size hk, h.walk_eq_iff] at hwalk

/-- It is enough for the second pass. -/
lemma compress_eq (hs : s.WellFormed) (h : s.Path k x r) (hx : x < s.size) (hk : k ≤ s.size)
    {fuel : Nat} (hf : k ≤ fuel) :
    compress r fuel s.parent x = compress r s.size s.parent x := by
  have hchecked := Checked.compress_eq hs h hx (.refl s) (Nat.lt_succ_self k) hf
  rw [Checked.compress_eq hs h hx (.refl s) (Nat.lt_succ_self k) hk] at hchecked
  exact (Except.ok.inj hchecked).symm

end Path

/-! ### Sizes -/

lemma Heavy.call (hs : s.WellFormed) (hheavy : s.Heavy) (c : Call) : (s.call c).2.Heavy := by
  obtain ⟨t, ht, hcall⟩ := exists_call_eq_plainCall hs c
  have hw := ht.wellFormed hs
  have hheavy' := ht.heavy hs hheavy
  rw [hcall]
  exact plainCall_induction hw c hheavy' fun x hx y hy hxy => heavy_link hw hxy hx hy hheavy'

/-- A heavy forest stays heavy, whatever is called. -/
theorem Heavy.run (hs : s.WellFormed) (hheavy : s.Heavy) (cs : List Call) :
    (s.run cs).2.Heavy := by
  induction cs generalizing s with
  | nil => exact hheavy
  | cons c cs ih => exact ih (hs.mirrors.call c).2.wellFormed_right (hheavy.call hs c)

/-- The ranks along a path are different, so it has no more steps than the rank of its root, which
is at most the logarithm of the size of the set. -/
lemma Heavy.length_le_log (hs : s.WellFormed) (hheavy : s.Heavy) (h : s.Path k x r)
    (hx : x < s.size) : k ≤ Nat.log 2 (s.side r).card := by
  have hr : r ∈ s.roots := mem_roots.2 ⟨h.lt_size hs hx, h.isRoot⟩
  calc k ≤ s.rankAt x + k := Nat.le_add_left _ _
    _ ≤ s.rankAt r := h.rankAt_add_le hs
    _ ≤ Nat.log 2 (s.side r).card := Nat.le_log_of_pow_le Nat.one_lt_two (hheavy r hr)

/-- The trees of the forest are no higher than the logarithms of their sizes, in ranks and in steps. -/
structure Shallow (s : UnionFind) : Prop where
  /-- Ranks grow from each element to its parent. -/
  rankAt_lt : ∀ x, ¬ s.IsRoot x → s.rankAt x < s.rankAt (s.parentOf x)
  /-- The set of a root has at least as many elements as two to the power of its rank. -/
  pow_le_card : ∀ r ∈ s.roots, 2 ^ s.rankAt r ≤ (s.side r).card
  rankAt_le : ∀ x < s.size, s.rankAt x ≤ 63
  /-- Two elements are joined as with a counter of one byte for each rank, which is checked for
  overflow. -/
  join_eq : ∀ x < s.size, ∀ y < s.size, Checked.join s x y = .ok (s.join x y)
  /-- The path above an element is no longer than the logarithm of the size of its set. So many steps,
  and no fewer, take the walk and the recursion to the root, and more lead nowhere else. They are
  enough for the second pass. -/
  exists_path : ∀ x < s.size, ∃ k ≤ Nat.log 2 (s.side (s.rootOf x)).card,
    s.Path k x (s.rootOf x) ∧ ∀ fuel, (walk s.parent fuel x = s.rootOf x ↔ k ≤ fuel) ∧
      (climb fuel s.parent x = climb s.size s.parent x ↔ k ≤ fuel) ∧
      (k ≤ fuel →
        compress (s.rootOf x) fuel s.parent x = compress (s.rootOf x) s.size s.parent x)

/-- A heavy forest is shallow if its elements can be counted in a word. -/
theorem Heavy.shallow (hs : s.WellFormed) (hheavy : s.Heavy) (hsize : s.size < 2 ^ 64) :
    s.Shallow where
  rankAt_lt := hs.rankAt_lt
  pow_le_card := hheavy
  rankAt_le x hx := by
    obtain ⟨k, -, hpath⟩ := hs.path_rootOf x
    have hroot : s.rankAt (s.rootOf x) < 64 := hheavy.rankAt_lt (hs.rootOf_mem_roots hx) hsize
    have hle := hpath.rankAt_add_le hs
    omega
  join_eq x hx y hy := Checked.join_eq hs hheavy hsize hx hy
  exists_path x hx := by
    obtain ⟨k, hk, hpath⟩ := hs.path_rootOf x
    exact ⟨k, hheavy.length_le_log hs hpath hx, hpath, fun fuel =>
      ⟨hpath.walk_eq_iff fuel, hpath.climb_eq_iff hk fuel, hpath.compress_eq hs hx hk⟩⟩

/-- Any calls on fewer than `2 ^ 64` single elements leave the trees shallow. -/
theorem shallow_run_singletons {n : Nat} (hn : n < 2 ^ 64) (cs : List Call) :
    ((singletons n).run cs).2.Shallow := by
  have hrun := (represents_singletons Unit n).run cs
  exact ((heavy_singletons n).run (wellFormed_singletons n) cs).shallow hrun.wellFormed
    (hrun.size_eq.symm ▸ hn)

/-- Eight elements whose sets are united two by two make a tree of the greatest height that they can
have: the walk from `7` takes three steps. -/
theorem shallow_run_singletons_eight :
    let s := ((singletons 8).run [.union 0 1, .union 2 3, .union 4 5, .union 6 7, .union 0 2,
      .union 4 6, .union 0 4]).2
    8 < 2 ^ 64 ∧ s.rankAt 0 = 3 ∧ walk s.parent 2 7 = 4 ∧ walk s.parent 3 7 = 0 ∧ s.Shallow :=
  ⟨by decide, by decide, by decide, by decide, shallow_run_singletons (by decide) _⟩

end UnionFind

end WeightedGraph
