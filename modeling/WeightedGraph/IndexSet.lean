import WeightedGraph.InPlace

/-!
Sets of numbers below a capacity, packed 64 to a word.

* `IndexSet`: the words and the capacity; `IndexSet.empty` is the empty set of a capacity.
* `IndexSet.contains`, `IndexSet.insert`: membership and insertion; a number that is not below the
  capacity is never a member and its insertion changes nothing. `IndexSet.contains_insert` says that
  an insertion makes one number a member and leaves the others as they are, `IndexSet.bitAt_insert`
  the same of the bits, those at or above the capacity included.
* `IndexSet.insertNew`: inserts the numbers of a list one after another and collects those that were
  not members before.
* `IndexSet.tryContains`, `IndexSet.insertInPlace`, `IndexSet.tryInsert`: the same with a number
  outside the capacity as a fault, the insertion in place and with the set as a result. A fault
  leaves the set as it was: `IndexSet.atomic_insertInPlace`.
* `IndexSet.elements`, `IndexSet.count`, `IndexSet.isEmpty`: the members in increasing order, their
  number, counted word by word, and whether there are none.

Two sets are equal when they have the same capacity and the same words. Insertion never sets a bit at
or above the capacity, so sets built from the empty one are equal if their members are.
-/

namespace WeightedGraph

/-- A set of numbers below a capacity. -/
structure IndexSet where
  /-- The members, 64 numbers to a word, the lowest bit first. -/
  words : Array UInt64
  /-- The bound of the numbers. -/
  capacity : Nat
  size_words : words.size = (capacity + 63) / 64
  deriving DecidableEq

namespace IndexSet

/-! ### Words -/

/-- The word in which `i` has the only bit, at its place within a word. -/
def mask (i : Nat) : UInt64 :=
  1 <<< UInt64.ofNat (i % 64)

/-- Whether the bit of `i` is set in a word. -/
def hasBit (word : UInt64) (i : Nat) : Bool :=
  word &&& mask i != 0

/-- The number of bits that are set in a word. -/
def bitCount (word : UInt64) : Nat :=
  (List.range 64).countP (hasBit word)

theorem toNat_mask (i : Nat) : (mask i).toNat = 1 <<< (i % 64) := by
  have h : i % 64 < 64 := Nat.mod_lt _ (by decide)
  have hp : 1 <<< (i % 64) < 2 ^ 64 := by
    rw [Nat.one_shiftLeft]
    exact Nat.pow_lt_pow_right (by decide) h
  have hm : i % 64 % 2 ^ 64 % 64 = i % 64 := by omega
  rw [mask, UInt64.toNat_shiftLeft, UInt64.toNat_ofNat', hm, UInt64.toNat_one,
    Nat.mod_eq_of_lt hp]

private theorem and_one_shiftLeft_eq_zero_iff (n k : Nat) :
    n &&& 1 <<< k = 0 ↔ n.testBit k = false := by
  rw [Nat.one_shiftLeft]
  constructor
  · intro h
    simpa [Nat.testBit_and, Nat.testBit_two_pow] using congrArg (fun m => Nat.testBit m k) h
  · intro h
    refine Nat.eq_of_testBit_eq fun j => ?_
    by_cases hj : k = j
    · simp [Nat.testBit_and, ← hj, h]
    · simp [Nat.testBit_and, hj]

/-- The bit of `i` is the bit of the word at the place of `i`. -/
theorem hasBit_eq_testBit (word : UInt64) (i : Nat) :
    hasBit word i = word.toNat.testBit (i % 64) := by
  rw [hasBit, bne, Bool.eq_iff_iff]
  simp [← UInt64.toNat_inj, UInt64.toNat_and, toNat_mask, and_one_shiftLeft_eq_zero_iff]

theorem hasBit_zero (i : Nat) : hasBit 0 i = false := by
  simp [hasBit_eq_testBit]

/-- Setting the bit of `i` sets the bits of the numbers at its place and no other. -/
theorem hasBit_or_mask (word : UInt64) (i j : Nat) :
    hasBit (word ||| mask i) j = (hasBit word j || decide (i % 64 = j % 64)) := by
  simp [hasBit_eq_testBit, UInt64.toNat_or, toNat_mask, Nat.one_shiftLeft, Nat.testBit_or,
    Nat.testBit_two_pow]

/-! ### Members -/

/-- The empty set of a capacity. -/
def empty (capacity : Nat) : IndexSet where
  words := Array.replicate ((capacity + 63) / 64) 0
  capacity := capacity
  size_words := Array.size_replicate

/-- Whether `i` is a member. -/
def contains (s : IndexSet) (i : Nat) : Bool :=
  decide (i < s.capacity) && hasBit (s.words.getD (i / 64) 0) i

/-- Whether the bit of `i` is set, be `i` below the capacity or not. -/
def bitAt (s : IndexSet) (i : Nat) : Bool :=
  hasBit (s.words.getD (i / 64) 0) i

/-- The set with the bit of `i` set, be `i` below the capacity or not, if there is a word for it. -/
def setBit (s : IndexSet) (i : Nat) : IndexSet where
  words := s.words.modify (i / 64) (· ||| mask i)
  capacity := s.capacity
  size_words := by rw [Array.size_modify, s.size_words]

/-- The set with `i` as a member, if `i` is below the capacity. -/
def insert (s : IndexSet) (i : Nat) : IndexSet :=
  if i < s.capacity then s.setBit i else s

theorem contains_eq (s : IndexSet) (i : Nat) :
    s.contains i = (decide (i < s.capacity) && s.bitAt i) :=
  rfl

theorem bitAt_empty (capacity i : Nat) : (empty capacity).bitAt i = false := by
  have h : ((empty capacity).words.getD (i / 64) 0) = 0 := by
    simp only [empty, Array.getD_eq_getD_getElem?, Array.getElem?_replicate]
    split <;> rfl
  rw [bitAt, h, hasBit_zero]

theorem contains_empty (capacity i : Nat) : (empty capacity).contains i = false := by
  rw [contains_eq, bitAt_empty, Bool.and_false]

theorem capacity_insert (s : IndexSet) (i : Nat) : (s.insert i).capacity = s.capacity := by
  rw [insert]
  split <;> rfl

/-- An insertion sets one bit, if its number is below the capacity, and no other. -/
theorem bitAt_insert (s : IndexSet) (i j : Nat) :
    (s.insert i).bitAt j = (s.bitAt j || decide (i = j ∧ i < s.capacity)) := by
  by_cases hi : i < s.capacity
  · by_cases hq : i / 64 = j / 64
    · have hw : j / 64 < s.words.size := by rw [s.size_words]; omega
      have hm : (i % 64 = j % 64) = (i = j) := by rw [eq_iff_iff]; omega
      simp [insert, setBit, bitAt, hi, hw, hq, Array.getElem_modify, hasBit_or_mask, hm]
    · have hne : i ≠ j := fun h => hq (congrArg (· / 64) h)
      simp [insert, setBit, bitAt, hi, hq, hne, Array.getElem?_modify]
  · simp [insert, hi]

/-- A number below the capacity becomes a member by its insertion, and no other number does. -/
theorem contains_insert (s : IndexSet) (i j : Nat) :
    (s.insert i).contains j = (s.contains j || decide (i = j ∧ i < s.capacity)) := by
  rw [contains_eq, contains_eq, capacity_insert, bitAt_insert, Bool.and_or_distrib_left]
  by_cases hij : i = j
  · simp [hij]
  · simp [hij]

/-- Inserts the numbers of a list in turn, with those that were new, in their order. -/
def insertNew (s : IndexSet) : List Nat → IndexSet × List Nat
  | [] => (s, [])
  | i :: is =>
      if s.contains i then s.insertNew is
      else
        let (s', new) := (s.insert i).insertNew is
        (s', i :: new)

/-! ### With faults -/

/-- Refuses a number that is not below the capacity. -/
def requireIndex (s : IndexSet) (i : Nat) : Except GraphError Unit :=
  if i < s.capacity then .ok () else .error .indexOutOfBounds

/-- Whether `i` is a member, where `i` has to be below the capacity. -/
def tryContains (s : IndexSet) (i : Nat) : Except GraphError Bool :=
  if i < s.capacity then .ok (s.contains i) else .error .indexOutOfBounds

/-- Inserts `i`, which has to be below the capacity, by setting its bit; the answer says whether the
bit was not set before. -/
def insertInPlace (i : Nat) : InPlace IndexSet Bool := do
  InPlace.ask (·.requireIndex i)
  modifyGet fun s => (!s.bitAt i, s.setBit i)

/-- The same with the set as a result. -/
def tryInsert (s : IndexSet) (i : Nat) : Except GraphError (Bool × IndexSet) :=
  InPlace.forget ((insertInPlace i).run s)

/-- An insertion that fails has set no bit, since the number is checked before. -/
theorem atomic_insertInPlace (i : Nat) : (insertInPlace i).Atomic :=
  .ask_bind _ fun _ => .modifyGet _

theorem tryInsert_eq (s : IndexSet) (i : Nat) : s.tryInsert i =
    if i < s.capacity then .ok (!s.contains i, s.insert i) else .error .indexOutOfBounds := by
  rw [tryInsert, insertInPlace, InPlace.forget_ask_bind, requireIndex]
  split
  · next hi =>
      rw [contains_eq, decide_eq_true hi, Bool.true_and, insert, if_pos hi]
      rfl
  · rfl

/-! ### Members at once -/

/-- The members in increasing order. -/
def elements (s : IndexSet) : List Nat :=
  (List.range s.capacity).filter s.contains

/-- The number of members. -/
def count (s : IndexSet) : Nat :=
  s.words.foldl (fun n word => n + bitCount word) 0

/-- Whether no bit is set. -/
def isEmpty (s : IndexSet) : Bool :=
  s.words.all (· == 0)

/-- The members in braces, for inspection. -/
def inspect (s : IndexSet) : String :=
  "\x7b" ++ ", ".intercalate (s.elements.map Nat.repr) ++ "\x7d"

end IndexSet

end WeightedGraph
