import WeightedGraph.InPlace

/-!
A partition of the numbers below a bound into sets, kept as a forest of parent pointers.

* `UnionFind`: the parents, the ranks and the number of sets; `UnionFind.singletons` is the finest
  partition.
* `UnionFind.rootOf`: the root above an element, which stands for its set.
* `UnionFind.compress`, `UnionFind.climb`: two ways to point the elements below a root at it, by a
  second pass along the path and on the way back from the root.
* `UnionFind.link`: two roots become one set, the one of lower rank below the other.
* `UnionFind.findInPlace`, `UnionFind.findRecursiveInPlace`, `UnionFind.unionInPlace`,
  `UnionFind.sameInPlace`, `UnionFind.rankOf`: the operations on elements, which refuse an element
  that is not below the bound; all but the last point the elements they pass at their root.
  `UnionFind.atomic_unionInPlace` and its like: where they refuse, they have changed nothing.
* `UnionFind.find`, `UnionFind.findRecursive`, `UnionFind.union`, `UnionFind.same`: the same with
  the forest as a result.

An element outside the arrays is read as its own parent, so reading is total. A path has fewer steps
than there are elements, so the number of elements is fuel enough to walk it.
-/

namespace WeightedGraph

/-- A forest of parent pointers over the numbers below a bound. -/
structure UnionFind where
  /-- The parent of each element; a root is its own parent. -/
  parent : Array Nat
  /-- The rank of each element, a bound on the height of the tree below it. -/
  rank : Array Nat
  /-- The number of sets. -/
  sets : Nat
  deriving DecidableEq

namespace UnionFind

/-- The partition of the numbers below `n` into sets of one element. -/
def singletons (n : Nat) : UnionFind where
  parent := Array.range n
  rank := Array.replicate n 0
  sets := n

/-- The number of elements. -/
def size (s : UnionFind) : Nat :=
  s.parent.size

/-! ### Paths to the root -/

/-- The element reached from `x` by at most `fuel` steps to the parent, fewer if a root is met. -/
def walk (parent : Array Nat) : Nat → Nat → Nat
  | 0, x => x
  | fuel + 1, x =>
      let p := parent.getD x x
      if p = x then x else walk parent fuel p

/-- The root above an element. -/
def rootOf (s : UnionFind) (x : Nat) : Nat :=
  walk s.parent s.size x

/-- Points the elements from `x` upwards at `root`, until one points there already. -/
def compress (root : Nat) : Nat → Array Nat → Nat → Array Nat
  | 0, parent, _ => parent
  | fuel + 1, parent, x =>
      let p := parent.getD x x
      if p = root then parent else compress root fuel (parent.setIfInBounds x root) p

/-- The root above `x`, with every element on the way pointed at it on the way back. -/
def climb : Nat → Array Nat → Nat → Nat × Array Nat
  | 0, parent, x => (x, parent)
  | fuel + 1, parent, x =>
      let p := parent.getD x x
      if p = x then (x, parent)
      else
        let (root, parent) := climb fuel parent p
        (root, parent.setIfInBounds x root)

/-- The root above an element and the forest with its path compressed in a second pass. -/
def root (s : UnionFind) (x : Nat) : Nat × UnionFind :=
  let r := s.rootOf x
  (r, { s with parent := compress r s.size s.parent x })

/-! ### Linking -/

/-- Makes one set of the sets of two different roots. The root of lower rank goes below the other
one; of two equal ranks the second goes below the first, whose rank grows by one. -/
def link (s : UnionFind) (x y : Nat) : UnionFind :=
  let rx := s.rank.getD x 0
  let ry := s.rank.getD y 0
  if rx < ry then
    { s with parent := s.parent.setIfInBounds x y, sets := s.sets - 1 }
  else if ry < rx then
    { s with parent := s.parent.setIfInBounds y x, sets := s.sets - 1 }
  else
    { parent := s.parent.setIfInBounds y x, rank := s.rank.setIfInBounds x (rx + 1),
      sets := s.sets - 1 }

/-- Compresses the paths of two elements, the first one first, and links their roots if they differ.
The answer says whether they did. -/
def join (s : UnionFind) (x y : Nat) : Bool × UnionFind :=
  let (rx, s) := s.root x
  let (ry, s) := s.root y
  if rx = ry then (false, s) else (true, s.link rx ry)

/-! ### Operations on elements -/

/-- Refuses a number that is no element. -/
def requireElement (s : UnionFind) (x : Nat) : Except GraphError Unit :=
  if x < s.size then .ok () else .error (.invalidVertex x s.size)

/-- The root of the set of an element. -/
def findInPlace (x : Nat) : InPlace UnionFind Nat := do
  InPlace.ask (·.requireElement x)
  modifyGet (·.root x)

/-- The root of the set of an element, found by recursion. -/
def findRecursiveInPlace (x : Nat) : InPlace UnionFind Nat := do
  InPlace.ask (·.requireElement x)
  modifyGet fun s =>
    let (r, parent) := climb s.size s.parent x
    (r, { s with parent := parent })

/-- Makes one set of the sets of two elements; the answer says whether they were different. -/
def unionInPlace (x y : Nat) : InPlace UnionFind Bool := do
  InPlace.ask (·.requireElement x)
  InPlace.ask (·.requireElement y)
  modifyGet (·.join x y)

/-- Whether two elements are in the same set. -/
def sameInPlace (x y : Nat) : InPlace UnionFind Bool := do
  InPlace.ask (·.requireElement x)
  InPlace.ask (·.requireElement y)
  let rx ← modifyGet (·.root x)
  let ry ← modifyGet (·.root y)
  return rx == ry

/-- The rank of an element. -/
def rankOf (s : UnionFind) (x : Nat) : Except GraphError Nat := do
  s.requireElement x
  return s.rank.getD x 0

/-! The operations with the forest as a result. -/

/-- The root of the set of an element, with the forest after finding it. -/
def find (s : UnionFind) (x : Nat) : Except GraphError (Nat × UnionFind) :=
  InPlace.forget ((findInPlace x).run s)

/-- The same for the recursion. -/
def findRecursive (s : UnionFind) (x : Nat) : Except GraphError (Nat × UnionFind) :=
  InPlace.forget ((findRecursiveInPlace x).run s)

/-- Whether the sets of two elements were different, with the forest in which they are one. -/
def union (s : UnionFind) (x y : Nat) : Except GraphError (Bool × UnionFind) :=
  InPlace.forget ((unionInPlace x y).run s)

/-- Whether two elements are in the same set, with the forest after finding their roots. -/
def same (s : UnionFind) (x y : Nat) : Except GraphError (Bool × UnionFind) :=
  InPlace.forget ((sameInPlace x y).run s)

theorem find_eq (s : UnionFind) (x : Nat) :
    s.find x = s.requireElement x >>= fun _ => .ok (s.root x) := by
  rw [find, findInPlace, InPlace.forget_ask_bind]
  rfl

theorem findRecursive_eq (s : UnionFind) (x : Nat) :
    s.findRecursive x = s.requireElement x >>= fun _ =>
      .ok ((climb s.size s.parent x).1, { s with parent := (climb s.size s.parent x).2 }) := by
  rw [findRecursive, findRecursiveInPlace, InPlace.forget_ask_bind]
  rfl

theorem union_eq (s : UnionFind) (x y : Nat) :
    s.union x y = s.requireElement x >>= fun _ => s.requireElement y >>= fun _ =>
      .ok (s.join x y) := by
  simp only [union, unionInPlace, InPlace.forget_ask_bind]
  rfl

theorem same_eq (s : UnionFind) (x y : Nat) :
    s.same x y = s.requireElement x >>= fun _ => s.requireElement y >>= fun _ =>
      .ok ((s.root x).1 == ((s.root x).2.root y).1, ((s.root x).2.root y).2) := by
  simp only [same, sameInPlace, InPlace.forget_ask_bind]
  rfl

/-! The elements are checked before anything is written, so a refusal leaves the forest as it was. -/

theorem atomic_findInPlace (x : Nat) : (findInPlace x).Atomic :=
  .ask_bind _ fun _ => .modifyGet _

theorem atomic_findRecursiveInPlace (x : Nat) : (findRecursiveInPlace x).Atomic :=
  .ask_bind _ fun _ => .modifyGet _

theorem atomic_unionInPlace (x y : Nat) : (unionInPlace x y).Atomic :=
  .ask_bind _ fun _ => .ask_bind _ fun _ => .modifyGet _

theorem atomic_sameInPlace (x y : Nat) : (sameInPlace x y).Atomic := by
  refine .ask_bind _ fun _ => .ask_bind _ fun _ => InPlace.Succeeds.atomic ?_
  exact .bind (.modifyGet _) fun _ => .bind (.modifyGet _) fun _ => .pure _

/-! ### Text -/

/-- The numbers of a list in brackets. -/
def bracketed (xs : List Nat) : String :=
  "[" ++ ", ".intercalate (xs.map Nat.repr) ++ "]"

/-- The three fields of the forest, for inspection. -/
def inspect (s : UnionFind) : String :=
  "DisjointSet \x7b parent: " ++ bracketed s.parent.toList ++ ", rank: " ++ bracketed s.rank.toList ++
    ", sets: " ++ Nat.repr s.sets ++ " \x7d"

end UnionFind

end WeightedGraph
