import Mathlib
import WeightedGraph.Proofs.Checked.Run
import WeightedGraph.Proofs.Search.Cycle

/-!
The search for a cycle with every access checked.

* `Checked.cycleStep`, `Checked.followPath`, `Checked.cycleFrom`, `Checked.cycle?`,
  `Checked.isCyclic`.
* `Checked.cycleStep_eq`: where a search has explored its graph as it should, a step reads and
  writes vertices only. The steps that are left are counted by `Adjacency.pending`.
* `Checked.agrees_cycle?`, `Checked.agrees_isCyclic`: the search of well-formed lists comes to no
  fault.
-/

namespace WeightedGraph

variable {W : Type} {g : Adjacency W} {s : CycleState W} {marks : Array Mark} {v : Vertex}

namespace Checked

/-- The state with `v` as the new last vertex of the path. -/
def enterPath (g : Adjacency W) (s : CycleState W) (v : Vertex) : Checked (CycleState W) := do
  let marks ← write s.marks v .onPath
  let entries ← read g.rows v
  return ⟨marks, ⟨v, entries⟩ :: s.path⟩

/-- Follows the next entry of the last vertex of the path, or leaves that vertex. -/
def cycleStep (g : Adjacency W) (s : CycleState W) : Checked (CycleStep W) :=
  match s.path with
  | [] => return .searching s
  | ⟨v, []⟩ :: rest => do return .searching ⟨← write s.marks v .done, rest⟩
  | ⟨v, e :: remaining⟩ :: rest => do
      let path := ⟨v, remaining⟩ :: rest
      match ← read s.marks e.target with
      | .unseen => return .searching (← enterPath g ⟨s.marks, path⟩ e.target)
      | .onPath => return .found (Adjacency.closeCycle path e.target)
      | .done => return .searching ⟨s.marks, path⟩

/-- Steps until a cycle is found or the path is empty. -/
def followPath (g : Adjacency W) : Nat → CycleState W → Checked (CycleStep W)
  | 0, s => if s.path.isEmpty then return .searching s else throw .unfinished
  | fuel + 1, s =>
      if s.path.isEmpty then return .searching s
      else do
        match ← cycleStep g s with
        | .found cycle => return .found cycle
        | .searching s' => followPath g fuel s'

/-- The first cycle found from those of the given roots that are not seen before their turn. -/
def cycleFrom (g : Adjacency W) (fuel : Nat) :
    List Vertex → Array Mark → Checked (Option (List Vertex))
  | [], _ => return none
  | root :: roots, marks => do
      if (← read marks root) = .unseen then
        match ← followPath g fuel (← enterPath g ⟨marks, []⟩ root) with
        | .found cycle => return some cycle
        | .searching s => cycleFrom g fuel roots s.marks
      else
        cycleFrom g fuel roots marks

/-- A cycle, if there is one. -/
def cycle? (g : Adjacency W) : Checked (Option (List Vertex)) :=
  cycleFrom g (g.edges.length + g.size) (List.range g.size) (Array.replicate g.size .unseen)

/-- Whether there is a cycle. -/
def isCyclic (g : Adjacency W) : Checked Bool := do
  return (← cycle? g).isSome

lemma enterPath_eq (hsize : s.marks.size = g.size) (hv : v < g.size) :
    enterPath g s v = .ok (g.enterPath s v) := by
  rw [enterPath, write_eq (hsize.symm ▸ hv), ok_bind, read_row hv]
  rfl

/-- A step from a state that has explored its graph as it should comes to no fault. -/
theorem cycleStep_eq (hg : g.WellFormed) (h : s.Explored g none) {r : CycleStep W}
    (hr : g.cycleStep s = .ok r) : cycleStep g s = .ok r := by
  obtain ⟨marks, path⟩ := s
  match path with
  | [] =>
      cases hr
      rfl
  | ⟨v, []⟩ :: rest =>
      have hv : marks[v]? = some .onPath := (h.onPath_iff v).2 List.mem_cons_self
      have hlt : v < marks.size := (Array.getElem?_eq_some_iff.1 hv).1
      cases hr
      rw [cycleStep]
      dsimp only
      rw [write_eq hlt]
      rfl
  | ⟨v, e :: remaining⟩ :: rest =>
      have he : e ∈ g.row v := by
        cases h.trail with
        | cons hrem _ _ _ => exact hrem List.mem_cons_self
      have hlt : e.target < g.size := hg v e he
      cases hm : marks[e.target]? with
      | none =>
          have hle := Array.getElem?_eq_none_iff.1 hm
          exact absurd (h.size_marks.symm ▸ hlt) (Nat.not_lt.2 hle)
      | some m =>
          rw [cycleStep]
          dsimp only
          rw [read_of_getElem? hm, ok_bind]
          cases m with
          | unseen =>
              obtain rfl := Except.ok.inj ((Adjacency.cycleStep_of_unseen hm).symm.trans hr)
              dsimp only
              rw [enterPath_eq (s := ⟨marks, ⟨v, remaining⟩ :: rest⟩) h.size_marks hlt]
              rfl
          | onPath =>
              obtain rfl := Except.ok.inj ((Adjacency.cycleStep_of_onPath hm).symm.trans hr)
              rfl
          | done =>
              obtain rfl := Except.ok.inj ((Adjacency.cycleStep_of_done hm).symm.trans hr)
              rfl

/-- The search from one root comes to no fault, and to its end within the bound. -/
theorem agreesWith_followPath (hg : g.WellFormed) (h : s.Explored g none) {fuel : Nat}
    (hfuel : g.pending s ≤ fuel) :
    AgreesWith (fun r => ∀ s', r = .searching s' → s'.Explored g none ∧ s'.path = [])
      (followPath g fuel s) (g.followPath fuel s) := by
  induction fuel generalizing s with
  | zero =>
      obtain ⟨marks, path⟩ := s
      cases path with
      | nil =>
          refine .value fun s' hs' => ?_
          obtain rfl := CycleStep.searching.inj hs'
          exact ⟨h, rfl⟩
      | cons f rest =>
          rw [Adjacency.pending_cons] at hfuel
          omega
  | succ fuel ih =>
      rw [followPath, Adjacency.followPath]
      split
      · next hempty =>
          refine .value fun s' hs' => ?_
          obtain rfl := CycleStep.searching.inj hs'
          exact ⟨h, List.isEmpty_iff.1 hempty⟩
      · next hempty =>
          obtain ⟨r, hr, hleaves⟩ := h.step hg (by simpa using hempty)
          rw [cycleStep_eq hg h hr, hr, ok_bind, ok_bind]
          cases r with
          | found c => exact .value fun s' hs' => by cases hs'
          | searching s' =>
              obtain ⟨h', hpending, -⟩ := hleaves
              exact ih h' (by omega)

/-- The search from all roots comes to no fault. -/
theorem agrees_cycleFrom (hg : g.WellFormed) (h : CycleState.Explored g none ⟨marks, []⟩)
    {fuel : Nat} (hfuel : g.edges.length + g.size ≤ fuel) {roots : List Vertex}
    (hroots : ∀ root ∈ roots, root < g.size) :
    Agrees (cycleFrom g fuel roots marks) (g.cycleFrom fuel roots marks) := by
  induction roots generalizing marks with
  | nil => exact agrees_ok none
  | cons root roots ih =>
      obtain ⟨hroot, hroots⟩ := List.forall_mem_cons.1 hroots
      have hlt : root < marks.size := h.size_marks.symm ▸ hroot
      rw [cycleFrom, Adjacency.cycleFrom, read_eq hlt .done, ok_bind]
      by_cases hunseen : marks.getD root .done = .unseen
      · have hmark : marks[root]? = some .unseen := by
          rw [← hunseen, Array.getD_eq_getD_getElem?, Array.getElem?_eq_getElem hlt]
          rfl
        have hmem : root ∈ g.unseen marks := (Adjacency.mem_unseen h.size_marks).2 hmark
        have hstart : CycleState.Explored g (some root) ⟨marks, []⟩ := { h with trail := .nil _ }
        have hpending : g.pending (g.enterPath ⟨marks, []⟩ root) ≤ fuel := by
          rw [Adjacency.pending_enterPath hmem]
          exact (Adjacency.pending_nil_le g marks).trans hfuel
        rw [if_pos hunseen, if_pos hunseen, enterPath_eq (s := ⟨marks, []⟩) h.size_marks hroot,
          ok_bind]
        refine (agreesWith_followPath hg (hstart.enter hmark) hpending).bind fun r hr => ?_
        cases r with
        | found c => exact agrees_ok (some c)
        | searching s =>
            obtain ⟨marks', path⟩ := s
            obtain ⟨h', hpath⟩ := hr _ rfl
            obtain rfl : path = [] := hpath
            exact ih h' hroots
      · rw [if_neg hunseen, if_neg hunseen]
        exact ih h hroots

theorem agrees_cycle? (hg : g.WellFormed) : Agrees (cycle? g) g.cycle? :=
  agrees_cycleFrom hg (CycleState.Explored.start g) le_rfl fun _ => List.mem_range.1

theorem agrees_isCyclic (hg : g.WellFormed) : Agrees (isCyclic g) g.isCyclic :=
  (agrees_cycle? hg).bind fun _ _ => agrees_ok _

end Checked

end WeightedGraph
