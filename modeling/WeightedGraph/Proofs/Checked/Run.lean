import Mathlib
import WeightedGraph.Adjacency
import WeightedGraph.Proofs.Search.Tables
import WeightedGraph.Proofs.Search.Traces
import WeightedGraph.Search.Steps

/-!
Runs in which every access is checked.

The searches read tables by functions that are defined everywhere: a place outside a table reads as
a default, writing there changes nothing, and a difference below zero is zero. Their loops have
bounds, and a loop that meets its bound ends like any other. A checked run is the same computation
without these conventions: whatever they would cover up stops it.

* `Stop`, `Checked`: why a checked run stops, and the runs.
* `AgreesWith`, `Agrees`: a checked run ends as a run of the library does, in the same value or
  refused for the same cause, and in no fault. `AgreesWith.bind` and `AgreesWith.foldlM` are what
  this is proved by.
* `Checked.read`, `Checked.write`, `Checked.contains`, `Checked.insert`, `Checked.sub`,
  `Checked.increment`: the accesses and the counters.
* `Checked.pathTo`: the path that a table of predecessors gives; `Checked.pathTo_eq`: where it ends.
* `Checked.takeAll`: the results of a loop, which has to be over within its bound.
  `Checked.exists_takeAll_eq` proves this by an invariant and a number that each step lowers.
-/

namespace WeightedGraph

/-- Why a checked run stops before it has a value. -/
inductive Stop where
  /-- What was asked for is refused for a cause that the library names. -/
  | refused (cause : GraphError)
  /-- A place outside a table was read or written. -/
  | outOfBounds
  /-- A number was subtracted from a smaller one. -/
  | underflow
  /-- A counter was to grow beyond the number of its bits. -/
  | overflow
  /-- An element was to be chosen where there is none. -/
  | noChoice
  /-- A set was to be merged with itself. -/
  | sameSet
  /-- A loop was not over when it met its bound. -/
  | unfinished
  deriving DecidableEq

/-- A run that stops wherever an access is at fault. -/
abbrev Checked (α : Type) :=
  Except Stop α

variable {α β σ : Type} {P Q : α → Prop} {a b : α} {x : Checked α} {y : Except GraphError α}

/-! ### Agreement -/

/-- The checked run ends as the other one does: in the same value, of which `P` holds, or refused
for the same cause, which is none but those that a caller is told. -/
inductive AgreesWith (P : α → Prop) : Checked α → Except GraphError α → Prop
  | value {a : α} : P a → AgreesWith P (.ok a) (.ok a)
  | refusal {e : GraphError} : e ≠ .indexOutOfBounds → AgreesWith P (.error (.refused e)) (.error e)

/-- The checked run ends as the other one does, in whatever value. -/
def Agrees (x : Checked α) (y : Except GraphError α) : Prop :=
  AgreesWith (fun _ => True) x y

namespace AgreesWith

lemma mono (h : AgreesWith P x y) (hPQ : ∀ a, P a → Q a) : AgreesWith Q x y := by
  cases h with
  | value ha => exact .value (hPQ _ ha)
  | refusal he => exact .refusal he

lemma agrees (h : AgreesWith P x y) : Agrees x y :=
  h.mono fun _ _ => trivial

/-- Where the library has a value, the checked run has it. -/
lemma eq_ok (h : AgreesWith P x (.ok a)) : x = .ok a ∧ P a := by
  cases h with
  | value ha => exact ⟨rfl, ha⟩

/-- Runs that agree, each continued, agree if their continuations do on every value. -/
theorem bind {R : β → Prop} {f : α → Checked β} {f' : α → Except GraphError β}
    (h : AgreesWith P x y) (hf : ∀ a, P a → AgreesWith R (f a) (f' a)) :
    AgreesWith R (x >>= f) (y >>= f') := by
  cases h with
  | value ha => exact hf _ ha
  | refusal he => exact .refusal he

/-- The same for a loop over a list, along which `R` holds. -/
theorem foldlM {R : β → Prop} {f : β → α → Checked β} {f' : β → α → Except GraphError β}
    {as : List α} {b : β} (hb : R b)
    (hf : ∀ a ∈ as, ∀ b, R b → AgreesWith R (f b a) (f' b a)) :
    AgreesWith R (as.foldlM f b) (as.foldlM f' b) := by
  induction as generalizing b with
  | nil => exact .value hb
  | cons a as ih =>
      rw [List.foldlM_cons, List.foldlM_cons]
      exact (hf a List.mem_cons_self b hb).bind fun b' hb' =>
        ih hb' fun a ha => hf a (List.mem_cons_of_mem _ ha)

end AgreesWith

lemma agrees_ok (a : α) : Agrees (.ok a) (.ok a) :=
  .value trivial

namespace Checked

lemma ok_bind {ε : Type} (a : α) (f : α → Except ε β) : (Except.ok a : Except ε α) >>= f = f a :=
  rfl

/-- A loop over a list whose steps have values. -/
theorem foldlM_eq {R : β → Prop} {f : β → α → Checked β} {f' : β → α → β} {as : List α} {b : β}
    (hb : R b) (hf : ∀ a ∈ as, ∀ b, R b → f b a = .ok (f' b a) ∧ R (f' b a)) :
    as.foldlM f b = .ok (as.foldl f' b) ∧ R (as.foldl f' b) := by
  induction as generalizing b with
  | nil => exact ⟨rfl, hb⟩
  | cons a as ih =>
      obtain ⟨hfa, hb'⟩ := hf a List.mem_cons_self b hb
      rw [List.foldlM_cons, hfa]
      exact ih hb' fun a ha => hf a (List.mem_cons_of_mem _ ha)

/-- A list of runs that have values. -/
lemma mapM_eq {f : α → Checked β} {f' : α → β} {as : List α}
    (h : ∀ a ∈ as, f a = .ok (f' a)) : as.mapM f = .ok (as.map f') := by
  induction as with
  | nil => rfl
  | cons a as ih =>
      obtain ⟨ha, has⟩ := List.forall_mem_cons.1 h
      rw [List.mapM_cons, ha, ok_bind, ih has]
      rfl

/-- A demand on the arguments, which reads no table. -/
def require (y : Except GraphError α) : Checked α :=
  y.mapError .refused

lemma agreesWith_require (h : y ≠ .error .indexOutOfBounds) :
    AgreesWith (fun a => y = .ok a) (require y) y := by
  cases y with
  | error e => exact .refusal fun he => h (congrArg _ he)
  | ok a => exact .value rfl

/-! ### Accesses -/

/-- Reads a place of a table. -/
def read (xs : Array α) (i : Nat) : Checked α :=
  match xs[i]? with
  | some a => .ok a
  | none => .error .outOfBounds

/-- Writes a place of a table. -/
def write (xs : Array α) (i : Nat) (a : α) : Checked (Array α) :=
  if i < xs.size then .ok (xs.setIfInBounds i a) else .error .outOfBounds

/-- Looks for a member, which has to be below the capacity, in its word. -/
def contains (s : IndexSet) (i : Nat) : Checked Bool := do
  if i < s.capacity then return IndexSet.hasBit (← read s.words (i / 64)) i
  else throw .outOfBounds

/-- Inserts a member, which has to be below the capacity, into its word. -/
def insert (s : IndexSet) (i : Nat) : Checked IndexSet := do
  if i < s.capacity then
    let _ ← read s.words (i / 64)
    return s.insert i
  else throw .outOfBounds

/-- The difference of two numbers, the first of which has to be the greater one. -/
def sub (m n : Nat) : Checked Nat :=
  if n ≤ m then .ok (m - n) else .error .underflow

/-- The next value of a counter of `width` bits. -/
def increment (width n : Nat) : Checked Nat :=
  if n + 1 < 2 ^ width then .ok (n + 1) else .error .overflow

variable {xs : Array α} {i m n width : Nat} {s : IndexSet}

lemma read_eq (h : i < xs.size) (d : α) : read xs i = .ok (xs.getD i d) := by
  simp [read, h]

lemma read_of_getElem? (h : xs[i]? = some a) : read xs i = .ok a := by
  rw [read, h]

lemma write_eq (h : i < xs.size) (a : α) : write xs i a = .ok (xs.setIfInBounds i a) :=
  if_pos h

/-- Whatever is below the capacity has a word. -/
lemma read_word (h : i < s.capacity) : read s.words (i / 64) = .ok (s.words.getD (i / 64) 0) := by
  refine read_eq ?_ 0
  rw [s.size_words]
  omega

lemma contains_eq (h : i < s.capacity) : contains s i = .ok (s.contains i) := by
  rw [contains, if_pos h, read_word h, IndexSet.contains, decide_eq_true h, Bool.true_and]
  rfl

lemma insert_eq (h : i < s.capacity) : insert s i = .ok (s.insert i) := by
  rw [insert, if_pos h, read_word h]
  rfl

lemma sub_eq (h : n ≤ m) : sub m n = .ok (m - n) :=
  if_pos h

lemma increment_eq (h : n + 1 < 2 ^ width) : increment width n = .ok (n + 1) :=
  if_pos h

lemma read_row {W : Type} {g : Adjacency W} {v : Vertex} (h : v < g.size) :
    read g.rows v = .ok (g.row v) :=
  read_eq h []

/-! ### Tables of predecessors -/

/-- The path to `v` followed by `rest`, which has to begin within `fuel` steps. -/
def pathBefore (t : Predecessors) : Nat → Vertex → List Vertex → Checked (List Vertex)
  | 0, _, _ => .error .unfinished
  | fuel + 1, v, rest => do
      match ← read t v with
      | some u => pathBefore t fuel u (v :: rest)
      | none => return v :: rest

/-- The path to `v`, of no more vertices than the table has places. -/
def pathTo (t : Predecessors) (v : Vertex) : Checked (List Vertex) :=
  pathBefore t t.size v []

variable {t : Predecessors} {v : Vertex} {path : List Vertex}

lemma read_predecessor (h : v < t.size) : read t v = .ok (t.get v) :=
  read_eq h none

/-- Enough steps follow a trace to its beginning without a fault. -/
lemma pathBefore_eq (h : t.Traces v path)
    (hlt : ∀ u ∈ path, u < t.size) {fuel : Nat} (hf : path.length ≤ fuel) (rest : List Vertex) :
    pathBefore t fuel v rest = .ok (path ++ rest) := by
  induction h generalizing fuel rest with
  | @stop v hv =>
      rw [List.length_singleton] at hf
      obtain ⟨fuel, rfl⟩ : ∃ k, fuel = k + 1 := ⟨fuel - 1, by omega⟩
      rw [pathBefore, read_predecessor (hlt v (List.mem_singleton_self v)), hv]
      rfl
  | @step u v path hv _ ih =>
      rw [List.length_append, List.length_singleton] at hf
      obtain ⟨fuel, rfl⟩ : ∃ k, fuel = k + 1 := ⟨fuel - 1, by omega⟩
      have hvlt : v < t.size := hlt v (List.mem_append_right _ (List.mem_singleton_self v))
      have hrest := ih (fun w hw => hlt w (List.mem_append_left _ hw)) (Nat.le_of_succ_le_succ hf)
        (v :: rest)
      rw [pathBefore, read_predecessor hvlt, hv, ok_bind]
      dsimp only
      rw [hrest, List.append_assoc, List.singleton_append]

/-- A trace without repetitions is found in the table without a fault. -/
lemma pathTo_eq (h : t.Traces v path)
    (hnodup : path.Nodup) (hlt : ∀ u ∈ path, u < t.size) : pathTo t v = .ok (t.pathTo v) := by
  rw [pathTo, pathBefore_eq h hlt (Predecessors.length_le_size hnodup hlt), h.pathTo_eq hnodup hlt,
    List.append_nil]

/-! ### Loops -/

/-- The results of a search up to its end, which it has to reach within `bound` steps. -/
def takeAll (next : σ → Checked (Option (α × σ))) : Nat → σ → Checked (List α × σ)
  | 0, s => do
      match ← next s with
      | none => return ([], s)
      | some _ => .error .unfinished
  | bound + 1, s => do
      match ← next s with
      | none => return ([], s)
      | some (a, s') =>
          let (as, s'') ← takeAll next bound s'
          return (a :: as, s'')

/-- A search comes to its end within the bound, checked or not, if an invariant of the state and of
the results so far makes every step agree, and each step lowers a number that the bound is not
below. -/
theorem exists_takeAll_eq {next : σ → Checked (Option (α × σ))}
    {next' : σ → Except GraphError (Option (α × σ))} {I : σ → List α → Prop} {left : σ → Nat}
    (hstep : ∀ s as, I s as → (next s = .ok none ∧ next' s = .ok none) ∨
      ∃ a s', next s = .ok (some (a, s')) ∧ next' s = .ok (some (a, s')) ∧ I s' (as ++ [a]) ∧
        left s' < left s)
    {s : σ} (hs : I s []) {bound : Nat} (hb : left s ≤ bound) :
    ∃ as s', takeAll next bound s = .ok (as, s') ∧ takeSteps next' bound s = .ok (as, s') ∧
      I s' as := by
  -- the results of the steps behind the state stand before those that are still to come
  suffices h : ∀ before, I s before → ∃ as s', takeAll next bound s = .ok (as, s') ∧
      takeSteps next' bound s = .ok (as, s') ∧ I s' (before ++ as) by
    simpa only [List.nil_append] using h [] hs
  clear hs
  intro before hs
  induction bound generalizing s before with
  | zero =>
      rcases hstep s before hs with ⟨hnext, -⟩ | ⟨_, _, -, -, -, hlt⟩
      · refine ⟨[], s, ?_, rfl, by rwa [List.append_nil]⟩
        rw [takeAll, hnext]
        rfl
      · omega
  | succ bound ih =>
      rcases hstep s before hs with ⟨hnext, hnext'⟩ | ⟨a, s', hnext, hnext', hs', hlt⟩
      · refine ⟨[], s, ?_, ?_, by rwa [List.append_nil]⟩
        · rw [takeAll, hnext]
          rfl
        · rw [takeSteps, hnext']
          rfl
      · obtain ⟨as, s'', has, has', hend⟩ := ih (by omega) (before ++ [a]) hs'
        refine ⟨a :: as, s'', ?_, ?_, by rwa [List.append_assoc, List.singleton_append] at hend⟩
        · simp only [takeAll, hnext, ok_bind, has]
          rfl
        · simp only [takeSteps, hnext', ok_bind, has']
          rfl

end Checked

end WeightedGraph
