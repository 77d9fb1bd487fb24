import WeightedGraph.Error

/-!
The choices that a caller may make, and their names.

* `Frontier`: how the next vertex of a shortest-path search is found.
* `DepthStrategy`: how a depth-first search keeps the way back.
* `Frontier.parse`, `DepthStrategy.parse`: the choice of a name, which has to match letter for letter.
* `Settings`: both choices and a limit on recursion; `Settings.standard` is used where none are given.
-/

namespace WeightedGraph

/-- How the next vertex of a shortest-path search is found. -/
inductive Frontier where
  /-- All vertices are scanned for the least distance. -/
  | scan
  /-- A priority queue gives the least distance. -/
  | queue
  deriving DecidableEq

/-- How a depth-first search keeps the way back. -/
inductive DepthStrategy where
  /-- On a stack of its own, without a limit. -/
  | iterative
  /-- By recursion up to a limit. -/
  | recursive
  deriving DecidableEq

/-- The choice of a list with the given name. -/
def chooseByName {α : Type} (name : α → String) (choices : List α) (text : String) :
    Except GraphError α :=
  match choices.find? (name · == text) with
  | some choice => .ok choice
  | none => .error .unknownName

namespace Frontier

/-- The name of a choice. -/
def name : Frontier → String
  | scan => "linear-scan"
  | queue => "binary-heap"

/-- Every choice, the standard one first. -/
def all : List Frontier :=
  [scan, queue]

/-- The choice of a name. -/
def parse (text : String) : Except GraphError Frontier :=
  chooseByName name all text

end Frontier

namespace DepthStrategy

/-- The name of a choice. -/
def name : DepthStrategy → String
  | iterative => "iterative"
  | recursive => "recursive"

/-- Every choice, the standard one first. -/
def all : List DepthStrategy :=
  [iterative, recursive]

/-- The choice of a name. -/
def parse (text : String) : Except GraphError DepthStrategy :=
  chooseByName name all text

end DepthStrategy

/-- What a caller may choose. -/
structure Settings where
  /-- How the next vertex of a shortest-path search is found. -/
  frontier : Frontier
  /-- How a depth-first search keeps the way back. -/
  depth : DepthStrategy
  /-- The greatest depth of a recursive search. -/
  recursionLimit : Nat
  deriving DecidableEq

namespace Settings

/-- The choices that hold where none are given. -/
def standard : Settings where
  frontier := .scan
  depth := .iterative
  recursionLimit := 4096

/-- The standard choices with those replaced that are given, both names being read first, the one of
the frontier before the other. -/
def ofNames (frontier depth : Option String) (recursionLimit : Option Nat) :
    Except GraphError Settings := do
  let frontier ← frontier.mapM Frontier.parse
  let depth ← depth.mapM DepthStrategy.parse
  return {
    frontier := frontier.getD standard.frontier
    depth := depth.getD standard.depth
    recursionLimit := recursionLimit.getD standard.recursionLimit }

end Settings

end WeightedGraph
