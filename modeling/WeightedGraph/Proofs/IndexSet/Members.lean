import Mathlib
import WeightedGraph.Proofs.IndexSet.Insertion

/-!
Packed sets of numbers as finite sets.

* `IndexSet.Tidy`: no bit is set at or above the capacity. Then the bits are the members, so that two
  sets with the same members are equal (`Tidy.eq_of_contains_eq`) and the bits that are set in the
  words are as many as the members (`Tidy.count_eq`).
* `IndexSet.Call`, `IndexSet.call`, `IndexSet.run`: insertions and questions after members, with any
  numbers, one after another, each in the set that the one before has left. A number outside the
  capacity is a fault, which leaves the set as it was (`run_inPlace_of_le`); what a call does to the
  members is `contains_call_iff`, and what calls do is `contains_run_iff`.
* `IndexSet.Holds`: a packed set answers every call as a finite set does, and is counted and written
  as that set is. After any calls it holds the numbers that were inserted.
-/

namespace WeightedGraph

namespace IndexSet

variable {s t : IndexSet} {n i j : Nat}

/-! ### Bits outside the capacity -/

/-- No bit is set at or above the capacity. -/
def Tidy (s : IndexSet) : Prop :=
  ∀ i, s.bitAt i = true → i < s.capacity

lemma tidy_empty (n : Nat) : (empty n).Tidy := by
  intro i hi
  rw [bitAt_empty] at hi
  exact absurd hi Bool.false_ne_true

namespace Tidy

lemma insert (hs : s.Tidy) (i : Nat) : (s.insert i).Tidy := by
  intro j hj
  rw [bitAt_insert, Bool.or_eq_true, decide_eq_true_iff] at hj
  rw [capacity_insert]
  rcases hj with hj | ⟨rfl, hi⟩
  · exact hs j hj
  · exact hi

lemma bitAt_eq (hs : s.Tidy) (i : Nat) : s.bitAt i = s.contains i := by
  rw [contains_eq]
  cases hi : s.bitAt i with
  | false => rw [Bool.and_false]
  | true => rw [Bool.and_true, decide_eq_true (hs i hi)]

end Tidy

/-! ### Equality -/

/-- A word is given by its bits. -/
lemma word_ext {w w' : UInt64} (h : ∀ k < 64, hasBit w k = hasBit w' k) : w = w' := by
  refine UInt64.toNat_inj.1 (Nat.eq_of_testBit_eq fun k => ?_)
  by_cases hk : k < 64
  · have hbit := h k hk
    rwa [hasBit_eq_testBit, hasBit_eq_testBit, Nat.mod_eq_of_lt hk] at hbit
  · have hout : ∀ w : UInt64, w.toNat.testBit k = false := fun w =>
      Nat.testBit_lt_two_pow (w.toNat_lt.trans_le
        (Nat.pow_le_pow_right Nat.zero_lt_two (Nat.not_lt.1 hk)))
    rw [hout, hout]

lemma hasBit_mod (w : UInt64) (i : Nat) : hasBit w (i % 64) = hasBit w i := by
  rw [hasBit_eq_testBit, hasBit_eq_testBit, Nat.mod_mod]

/-- The bits of a word are those of 64 numbers in a row. -/
lemma hasBit_getD_eq (s : IndexSet) (q : Nat) {k : Nat} (hk : k < 64) :
    hasBit (s.words.getD q 0) k = s.bitAt (64 * q + k) := by
  have hdiv : (64 * q + k) / 64 = q := by omega
  have hmod : (64 * q + k) % 64 = k := by omega
  rw [bitAt, hdiv, ← hasBit_mod _ (64 * q + k), hmod]

/-- A set is given by its capacity and its bits. -/
lemma eq_of_bitAt_eq (hcap : s.capacity = t.capacity) (h : ∀ i, s.bitAt i = t.bitAt i) : s = t := by
  have hsize : s.words.size = t.words.size := by rw [s.size_words, t.size_words, hcap]
  have hwords : s.words = t.words := by
    refine Array.ext hsize fun q hq hq' => word_ext fun k hk => ?_
    have hbit := (s.hasBit_getD_eq q hk).trans ((h _).trans (t.hasBit_getD_eq q hk).symm)
    simpa [hq, hq'] using hbit
  obtain ⟨words, capacity, _⟩ := s
  cases hwords
  cases hcap
  rfl

/-- Sets with the same members are equal if no bit is set outside their capacity. -/
theorem Tidy.eq_of_contains_eq (hs : s.Tidy) (ht : t.Tidy) (hcap : s.capacity = t.capacity)
    (h : ∀ i, s.contains i = t.contains i) : s = t :=
  eq_of_bitAt_eq hcap fun i => by rw [hs.bitAt_eq, ht.bitAt_eq, h]

/-! ### Counting -/

/-- The bits that are set in some words, counted word by word and place by place. -/
lemma foldl_bitCount_eq (ws : List UInt64) (n : Nat) :
    ws.foldl (fun n word => n + bitCount word) n =
      n + (List.range (64 * ws.length)).countP fun i => hasBit (ws.getD (i / 64) 0) i := by
  induction ws generalizing n with
  | nil => simp
  | cons w ws ih =>
      have hlen : 64 * (w :: ws).length = 64 + 64 * ws.length := by
        rw [List.length_cons]
        omega
      -- The numbers below 64 have their bits in the first word, and the others theirs 64 places on.
      have hfirst : (List.range 64).countP (fun i => hasBit ((w :: ws).getD (i / 64) 0) i) =
          bitCount w := by
        refine List.countP_congr fun i hi => ?_
        rw [Nat.div_eq_of_lt (List.mem_range.1 hi), List.getD_cons_zero]
      have hrest : ∀ i, hasBit ((w :: ws).getD ((64 + i) / 64) 0) (64 + i) =
          hasBit (ws.getD (i / 64) 0) i := by
        intro i
        rw [Nat.add_div_left i (by decide), List.getD_cons_succ, ← hasBit_mod,
          Nat.add_mod_left, hasBit_mod]
      rw [List.foldl_cons, ih, hlen, List.range_add, List.countP_append, hfirst, List.countP_map,
        Nat.add_assoc]
      simp only [Function.comp_def, hrest]

lemma count_eq_countP (s : IndexSet) :
    s.count = (List.range (64 * s.words.size)).countP s.bitAt := by
  have hget : ∀ q, s.words.toList.getD q 0 = s.words.getD q 0 := by
    intro q
    simp
  rw [count, ← Array.foldl_toList, foldl_bitCount_eq, Nat.zero_add, Array.length_toList]
  simp only [hget]
  rfl

/-- The bits that are set are as many as the members. -/
theorem Tidy.count_eq (hs : s.Tidy) : s.count = s.elements.length := by
  obtain ⟨k, hk⟩ : ∃ k, 64 * s.words.size = s.capacity + k :=
    ⟨64 * s.words.size - s.capacity, by rw [s.size_words]; omega⟩
  have hout : ((List.range k).map (s.capacity + ·)).countP s.bitAt = 0 := by
    rw [List.countP_eq_zero]
    intro i hi hbit
    obtain ⟨j, -, rfl⟩ := List.mem_map.1 hi
    exact absurd (hs _ hbit) (by omega)
  rw [count_eq_countP, hk, List.range_add, List.countP_append, hout, Nat.add_zero, elements,
    ← List.countP_eq_length_filter]
  exact congrArg (fun p => List.countP p _) (funext hs.bitAt_eq)

lemma isEmpty_eq_true_iff (s : IndexSet) : s.isEmpty = true ↔ ∀ i, s.bitAt i = false := by
  rw [isEmpty, Array.all_eq_true]
  constructor
  · intro h i
    have hword : s.words.getD (i / 64) 0 = 0 := by
      by_cases hi : i / 64 < s.words.size
      · simpa [hi] using h (i / 64) hi
      · simp [hi]
    rw [bitAt, hword, hasBit_zero]
  · intro h q hq
    refine beq_iff_eq.2 (word_ext fun k hk => ?_)
    have hbit := (s.hasBit_getD_eq q hk).trans (h _)
    rw [hasBit_zero]
    simpa [hq] using hbit

/-- A packed set whose members are those of a finite set lists them in increasing order. -/
lemma elements_eq_sort {m : Finset Nat} (h : ∀ i, s.contains i = true ↔ i ∈ m) :
    s.elements = m.sort := by
  have hnodup : s.elements.Nodup := List.nodup_range.filter _
  have hsorted : s.elements.Pairwise (· ≤ ·) := List.pairwise_le_range.filter _
  have hmem : s.elements.toFinset = m := by
    ext i
    rw [List.mem_toFinset, elements, List.mem_filter, List.mem_range, h]
    exact and_iff_right_of_imp fun hi => lt_capacity_of_contains ((h i).2 hi)
  rw [← hmem]
  exact ((List.toFinset_sort _ hnodup).2 hsorted).symm

/-! ### Calls -/

/-- A call of an operation. -/
inductive Call where
  /-- Insert a number. -/
  | insert (i : Nat)
  /-- Ask whether a number is a member. -/
  | contains (i : Nat)
  deriving DecidableEq

/-- The number that a call names. -/
def Call.index : Call → Nat
  | insert i | contains i => i

/-- What a call does to the set. -/
def Call.inPlace : Call → InPlace IndexSet Bool
  | insert i => insertInPlace i
  | contains i => InPlace.ask (·.tryContains i)

/-- The answer to a call, or its fault, and the set that the call leaves. -/
def call (s : IndexSet) (c : Call) : Except GraphError Bool × IndexSet :=
  InPlace.outcome (c.inPlace.run s)

/-- The set after calls in turn, those at fault included. -/
def run (s : IndexSet) (cs : List Call) : IndexSet :=
  cs.foldl (fun s c => (s.call c).2) s

lemma Call.atomic_inPlace (c : Call) : c.inPlace.Atomic := by
  cases c with
  | insert i => exact atomic_insertInPlace i
  | contains i => exact (InPlace.Reads.ask _).atomic

/-- A number outside the capacity is a fault, and changes nothing. -/
theorem run_inPlace_of_le {c : Call} (h : s.capacity ≤ c.index) :
    c.inPlace.run s = .error .indexOutOfBounds s := by
  refine c.atomic_inPlace.run_eq_error ?_
  cases c with
  | insert i =>
      have hi : ¬ i < s.capacity := Nat.not_lt.2 h
      exact (s.tryInsert_eq i).trans (if_neg hi)
  | contains i =>
      have hi : ¬ i < s.capacity := Nat.not_lt.2 h
      rw [Call.inPlace, InPlace.run_ask, InPlace.forget_lift, tryContains, if_neg hi]
      rfl

lemma call_of_le {c : Call} (h : s.capacity ≤ c.index) :
    s.call c = (.error .indexOutOfBounds, s) := by
  rw [call, run_inPlace_of_le h]
  rfl

lemma call_insert (hi : i < s.capacity) :
    s.call (.insert i) = (.ok (!s.contains i), s.insert i) := by
  have hrun : (insertInPlace i).run s = .ok (!s.contains i) (s.insert i) :=
    InPlace.run_eq_ok ((s.tryInsert_eq i).trans (if_pos hi))
  rw [call, Call.inPlace, hrun]
  rfl

lemma call_contains (hi : i < s.capacity) : s.call (.contains i) = (.ok (s.contains i), s) := by
  rw [call, Call.inPlace, InPlace.run_ask, tryContains, if_pos hi]
  rfl

lemma snd_call_contains (s : IndexSet) (i : Nat) : (s.call (.contains i)).2 = s :=
  InPlace.Reads.ask (fun s : IndexSet => s.tryContains i) s

/-- A call inserts its number, or changes nothing. -/
lemma call_snd_eq (s : IndexSet) (c : Call) :
    (s.call c).2 = s ∧ (∀ i < s.capacity, c ≠ .insert i) ∨
      ∃ i < s.capacity, c = .insert i ∧ (s.call c).2 = s.insert i := by
  cases c with
  | insert i =>
      by_cases hi : i < s.capacity
      · exact .inr ⟨i, hi, rfl, by rw [call_insert hi]⟩
      · have hout : s.capacity ≤ (Call.insert i).index := Nat.not_lt.1 hi
        refine .inl ⟨by rw [call_of_le hout], ?_⟩
        rintro j hj ⟨⟩
        exact hi hj
  | contains i => exact .inl ⟨snd_call_contains s i, by simp⟩

lemma Tidy.call (hs : s.Tidy) (c : Call) : (s.call c).2.Tidy := by
  rcases s.call_snd_eq c with ⟨hcall, -⟩ | ⟨i, -, -, hcall⟩
  · rw [hcall]
    exact hs
  · rw [hcall]
    exact hs.insert i

lemma capacity_call (s : IndexSet) (c : Call) : (s.call c).2.capacity = s.capacity := by
  rcases s.call_snd_eq c with ⟨hcall, -⟩ | ⟨i, -, -, hcall⟩
  · rw [hcall]
  · rw [hcall, capacity_insert]

/-- Only an insertion makes a member, and only of its number. -/
lemma contains_call_iff (s : IndexSet) (c : Call) (i : Nat) :
    (s.call c).2.contains i = true ↔ s.contains i = true ∨ i < s.capacity ∧ c = .insert i := by
  rcases s.call_snd_eq c with ⟨hcall, hc⟩ | ⟨j, hj, rfl, hcall⟩
  · rw [hcall]
    exact ⟨Or.inl, fun h => h.resolve_right fun hi => hc i hi.1 hi.2⟩
  · rw [hcall, contains_insert_iff hj, Call.insert.injEq]
    exact or_congr_right ⟨fun hi => ⟨hi ▸ hj, hi.symm⟩, fun hi => hi.2.symm⟩

lemma run_cons (s : IndexSet) (c : Call) (cs : List Call) :
    s.run (c :: cs) = (s.call c).2.run cs :=
  rfl

lemma Tidy.run (hs : s.Tidy) (cs : List Call) : (s.run cs).Tidy := by
  induction cs generalizing s with
  | nil => exact hs
  | cons c cs ih => exact ih (hs.call c)

lemma capacity_run (s : IndexSet) (cs : List Call) : (s.run cs).capacity = s.capacity := by
  induction cs generalizing s with
  | nil => rfl
  | cons c cs ih => rw [run_cons, ih, capacity_call]

/-- The members after calls are those before them and the numbers that were inserted. -/
lemma contains_run_iff (s : IndexSet) (cs : List Call) (i : Nat) :
    (s.run cs).contains i = true ↔ s.contains i = true ∨ i < s.capacity ∧ .insert i ∈ cs := by
  induction cs generalizing s with
  | nil => simp [run]
  | cons c cs ih =>
      rw [run_cons, ih, contains_call_iff, capacity_call, List.mem_cons, or_assoc, ← and_or_left,
        @eq_comm _ c]

/-! ### The set that a packed set holds -/

/-- The packed set behaves as the set `m` of numbers below `n`. -/
structure Holds (s : IndexSet) (n : Nat) (m : Finset Nat) : Prop where
  capacity_eq : s.capacity = n
  /-- A number that is not below `n` is a fault, and the call leaves the set as it was. -/
  fault : ∀ c : Call, n ≤ c.index → c.inPlace.run s = .error .indexOutOfBounds s
  /-- The question after a number is answered, and changes nothing. -/
  contains : ∀ i < n, s.call (.contains i) = (.ok (decide (i ∈ m)), s)
  /-- An insertion tells whether the number is new. -/
  insert : ∀ i < n, (s.call (.insert i)).1 = .ok (decide (i ∉ m))
  /-- It makes this number a member, and changes no other. -/
  contains_insert : ∀ i < n, ∀ j < n,
    ((s.call (.insert i)).2.call (.contains j)).1 = .ok (decide (j ∈ m ∨ j = i))
  count_eq : s.count = m.card
  isEmpty_iff : s.isEmpty = true ↔ m = ∅
  /-- The members are written in increasing order. -/
  inspect_eq : s.inspect = "\x7b" ++ ", ".intercalate (m.sort.map Nat.repr) ++ "\x7d"

/-- A tidy set holds its members. -/
theorem Tidy.holds {m : Finset Nat} (hs : s.Tidy) (hcap : s.capacity = n)
    (h : ∀ i, s.contains i = true ↔ i ∈ m) : s.Holds n m := by
  obtain rfl := hcap
  have hdecide : ∀ i, s.contains i = decide (i ∈ m) := fun i => by
    rw [Bool.eq_iff_iff, decide_eq_true_iff, h]
  refine
    { capacity_eq := rfl
      fault := fun c hc => run_inPlace_of_le hc
      contains := fun i hi => by rw [call_contains hi, hdecide]
      insert := fun i hi => by rw [call_insert hi, hdecide, decide_not]
      contains_insert := fun i hi j hj => ?_
      count_eq := by rw [hs.count_eq, elements_eq_sort h, Finset.length_sort]
      isEmpty_iff := ?_
      inspect_eq := by rw [inspect, elements_eq_sort h] }
  · rw [call_insert hi, call_contains ((capacity_insert s i).symm ▸ hj)]
    refine congrArg Except.ok ?_
    rw [Bool.eq_iff_iff, contains_insert_iff hi, h, decide_eq_true_iff]
  · simp only [isEmpty_eq_true_iff, hs.bitAt_eq, hdecide, decide_eq_false_iff_not,
      Finset.eq_empty_iff_forall_notMem]

/-- The numbers below `n` that the calls insert. -/
def inserted (n : Nat) (cs : List Call) : Finset Nat :=
  (Finset.range n).filter fun i => .insert i ∈ cs

/-- What is left of the empty set by any calls holds the numbers that they inserted. What two such runs
leave is equal just when the capacities and these numbers are. -/
theorem holds_run_empty (n : Nat) (cs : List Call) :
    ((empty n).run cs).Holds n (inserted n cs) ∧
      ∀ n' cs', (empty n).run cs = (empty n').run cs' ↔ n = n' ∧ inserted n cs = inserted n' cs' := by
  have htidy : ∀ n cs, ((empty n).run cs).Tidy := fun n cs => (tidy_empty n).run cs
  have hcap : ∀ n cs, ((empty n).run cs).capacity = n := fun n cs => capacity_run (empty n) cs
  have hmem : ∀ n cs i, ((empty n).run cs).contains i = true ↔ i ∈ inserted n cs := by
    intro n cs i
    rw [contains_run_iff, contains_empty, inserted, Finset.mem_filter, Finset.mem_range]
    simp [empty]
  refine ⟨(htidy n cs).holds (hcap n cs) (hmem n cs), fun n' cs' => ?_⟩
  constructor
  · intro heq
    refine ⟨(hcap n cs).symm.trans ((congrArg capacity heq).trans (hcap n' cs')),
      Finset.ext fun i => ?_⟩
    rw [← hmem, ← hmem, heq]
  · rintro ⟨rfl, hins⟩
    refine (htidy n cs).eq_of_contains_eq (htidy n cs') ((hcap n cs).trans (hcap n cs').symm)
      fun i => ?_
    rw [Bool.eq_iff_iff, hmem, hmem, hins]

/-- Numbers on both sides of a boundary between words, and the capacity itself. -/
example : ((empty 130).run [.insert 129, .insert 64, .insert 130, .insert 63, .contains 65]).elements =
    [63, 64, 129] := by
  decide

end IndexSet

end WeightedGraph
