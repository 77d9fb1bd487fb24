import Mathlib
import WeightedGraph.Graph.Dot
import WeightedGraph.Graph.Query
import WeightedGraph.Proofs.Checked.Cycle
import WeightedGraph.Proofs.Checked.Depth
import WeightedGraph.Proofs.Checked.EdgeList
import WeightedGraph.Proofs.Checked.Hops
import WeightedGraph.Proofs.Checked.ShortestPath
import WeightedGraph.Proofs.Graph.Filled
import WeightedGraph.Random.Below

/-!
Graphs with every access checked.

* `Checked.mapRows`: something made of every list in turn; the edges, the text and the drawing are
  made in this way.
* `Checked.Graph.insert`, `Checked.Graph.neighbours` and the queries: what a graph demands of the
  arguments, and then the checked search of its lists.
* `Graph.Faultless`, `EdgeList.Faultless`: with every argument, all of these end as the library
  says.
* `faultless_filled_and_edgeList`: so they do for every graph that is filled edge by edge, however
  it was, and for every list of edges.

The entries of a graph are held in memory, which bounds their number; no width bounds it here.
-/

namespace WeightedGraph

variable {W : Type} {n : Nat}

namespace Checked

/-! ### Reading all lists -/

section Rows

variable {β : Type} {a : Adjacency W}

/-- What `f` makes of the list of each vertex. -/
def mapRows (a : Adjacency W) (f : Vertex → List (Entry W) → β) : Checked (List β) :=
  (List.range a.size).mapM fun v => do return f v (← read a.rows v)

/-- Every entry as an edge. -/
def edges (a : Adjacency W) : Checked (List (Edge W)) := do
  return (← mapRows a fun v es => es.map fun e => ⟨v, e.target, e.weight⟩).flatten

/-- The endpoints of the first edge with a negative weight. -/
def negativeEdge? [Weight W] (a : Adjacency W) : Checked (Option (Vertex × Vertex)) := do
  return ((← edges a).find? fun e => Weight.isNegative e.weight).map fun e => (e.source, e.target)

lemma mapRows_eq (a : Adjacency W) (f : Vertex → List (Entry W) → β) :
    mapRows a f = .ok ((List.range a.size).map fun v => f v (a.row v)) := by
  refine mapM_eq fun v hv => ?_
  rw [read_row (List.mem_range.1 hv)]
  rfl

lemma edges_eq (a : Adjacency W) : edges a = .ok a.edges := by
  rw [edges, mapRows_eq, ok_bind, Adjacency.edges, List.flatMap_def]
  rfl

lemma negativeEdge?_eq [Weight W] (a : Adjacency W) : negativeEdge? a = .ok a.negativeEdge? := by
  rw [negativeEdge?, edges_eq]
  rfl

end Rows

/-! ### Queries of a graph -/

namespace Graph

/-- The graph with one entry more. -/
def addEntry (g : Graph W) (v : Vertex) (e : Entry W) : Checked (Graph W) := do
  let row ← read g.adjacency.rows v
  return ⟨⟨← write g.adjacency.rows v (row ++ [e])⟩, g.entryCount + 1⟩

/-- The entries of a vertex. -/
def neighbours (g : Graph W) (v : Vertex) : Checked (List (Entry W)) := do
  require (g.requireVertex v)
  read g.adjacency.rows v

/-- The number of entries of a vertex. -/
def degree (g : Graph W) (v : Vertex) : Checked Nat := do
  return (← neighbours g v).length

/-- The vertices reached from `start`, breadth first. -/
def breadthOrder (g : Graph W) (start : Vertex) : Checked (List Vertex) := do
  require (g.requireStart start)
  Checked.breadthOrder g.adjacency start

/-- The vertices reached from `start`, depth first. -/
def depthOrder (g : Graph W) (start : Vertex) : Checked (List Vertex) := do
  require (g.requireStart start)
  Checked.depthOrder g.adjacency start

/-- The vertices reached from `start`, depth first in the way the settings say. -/
def depthOrderWith (g : Graph W) (settings : Settings) (start : Vertex) :
    Checked (List Vertex) := do
  match settings.depth with
  | .iterative => depthOrder g start
  | .recursive =>
      require (g.requireStart start)
      Checked.recursiveDepthOrder g.adjacency start settings.recursionLimit

/-- The vertices reached from `start`, depth first by recursion up to the standard limit. -/
def recursiveDepthOrder (g : Graph W) (start : Vertex) : Checked (List Vertex) :=
  depthOrderWith g { Settings.standard with depth := .recursive } start

/-- The least number of entries from `start` to each vertex. -/
def hopCounts (g : Graph W) (start : Vertex) : Checked (Array (Option Nat)) := do
  require (g.requireStart start)
  Checked.hopCounts g.adjacency start

/-- A path with the fewest entries between two vertices. -/
def hopPath? (g : Graph W) (start goal : Vertex) : Checked (Option (List Vertex)) := do
  require (g.requireStart start)
  require (g.requireVertex goal)
  Checked.hopPath? g.adjacency start goal

variable [Weight W]

/-- The graph with an edge more. -/
def insert (g : Graph W) (i : Insertion W) : Checked (Graph W) := do
  let ⟨u, v, w⟩ := i.edge
  require (g.requireVertex u)
  require (g.requireVertex v)
  if Weight.isValid w then
    let forth ← addEntry g u ⟨v, w⟩
    if i.directed then return forth else addEntry forth v ⟨u, w⟩
  else
    throw (.refused (.invalidWeight u v))

/-- The shortest paths from `source`, with the frontier that the settings say. -/
def shortestPathTreeWith (g : Graph W) (settings : Settings) (source : Vertex) :
    Checked (ShortestPathTree W) := do
  require (g.requireStart source)
  match ← negativeEdge? g.adjacency with
  | some (u, v) => throw (.refused (.negativeWeight u v))
  | none => Checked.shortestPathTree g.adjacency source settings.frontier

/-- The shortest paths from `source`. -/
def shortestPathTree (g : Graph W) (source : Vertex) : Checked (ShortestPathTree W) :=
  shortestPathTreeWith g Settings.standard source

/-- The forest of least weight in the graph. -/
def spanningForestBy (sort : List (Edge W) → List (Edge W)) (g : Graph W) :
    Checked (SpanningForest W) := do
  minimumSpanningForestBy sort g.size (← edges g.adjacency)

/-- The lists of the graph as lines of text. -/
def text (g : Graph W) : Checked String := do
  return unlines (← mapRows g.adjacency fun v es =>
    Nat.repr v ++ " ->" ++ String.join (es.map WeightedGraph.Graph.entryText))

/-- The drawing of the graph, with the given title. -/
def toDot (g : Graph W) (title : Option String) : Checked String := do
  let arrows := (← edges g.adjacency).map Dot.edgeLine
  return unlines (["digraph G \x7b"] ++ title.elim [] Dot.titleLines ++ Dot.styleLines ++ [""] ++
    g.vertices.map Dot.vertexLine ++ [""] ++ arrows ++ ["\x7d"])

end Graph

end Checked

/-! ### What all of them have in common -/

/-- Whatever is asked of the graph, with whatever arguments, comes to the same end with every access
checked, and so does an insertion. -/
structure Graph.Faultless [Weight W] (g : Graph W) : Prop where
  insert : ∀ i, Agrees (Checked.Graph.insert g i) (g.insert i)
  neighbours : ∀ v, Agrees (Checked.Graph.neighbours g v) (g.neighbours v)
  degree : ∀ v, Agrees (Checked.Graph.degree g v) (g.degree v)
  edges : Checked.edges g.adjacency = .ok g.edges
  text : Checked.Graph.text g = .ok g.text
  toDot : ∀ title, Checked.Graph.toDot g title = .ok (g.toDot title)
  breadthOrder : ∀ start, Agrees (Checked.Graph.breadthOrder g start) (g.breadthOrder start)
  depthOrder : ∀ start, Agrees (Checked.Graph.depthOrder g start) (g.depthOrder start)
  depthOrderWith : ∀ settings start,
    Agrees (Checked.Graph.depthOrderWith g settings start) (g.depthOrderWith settings start)
  recursiveDepthOrder : ∀ start,
    Agrees (Checked.Graph.recursiveDepthOrder g start) (g.recursiveDepthOrder start)
  hopCounts : ∀ start, Agrees (Checked.Graph.hopCounts g start) (g.hopCounts start)
  hopPath? : ∀ start goal, Agrees (Checked.Graph.hopPath? g start goal) (g.hopPath? start goal)
  componentCount : Agrees (Checked.componentCount g.adjacency) g.componentCount
  components : Agrees (Checked.components g.adjacency) g.components
  cycle? : Agrees (Checked.cycle? g.adjacency) g.cycle?
  isCyclic : Agrees (Checked.isCyclic g.adjacency) g.isCyclic
  /-- The paths of the result are read without a fault too. -/
  shortestPathTreeWith : ∀ settings source,
    AgreesWith (fun p => ∀ v, Checked.pathTo? p v = .ok (p.pathTo? v))
      (Checked.Graph.shortestPathTreeWith g settings source)
      (g.shortestPathTreeWith settings source)
  shortestPathTree : ∀ source,
    AgreesWith (fun p => ∀ v, Checked.pathTo? p v = .ok (p.pathTo? v))
      (Checked.Graph.shortestPathTree g source) (g.shortestPathTree source)
  /-- Sorting may be done in any way. -/
  spanningForestBy : ∀ sort : List (Edge W) → List (Edge W), (∀ es, (sort es).Perm es) →
    AgreesWith Checked.Readable (Checked.Graph.spanningForestBy sort g) (g.spanningForestBy sort)

/-- Whatever is asked of a list of edges, with whatever arguments, comes to the same end with every
access checked. -/
structure EdgeList.Faultless [Weight W] (n : Nat) (es : List (Edge W)) : Prop where
  minimumSpanningForestBy : ∀ sort : List (Edge W) → List (Edge W), (∀ es, (sort es).Perm es) →
    AgreesWith Checked.Readable (Checked.minimumSpanningForestBy sort n es)
      (WeightedGraph.minimumSpanningForestBy sort n es)
  /-- A chooser gives an index below any bound but zero. -/
  minCut : ∀ {σ : Type} (below : Nat → σ → Nat × σ), (∀ b s, 0 < b → (below b s).1 < b) →
    ∀ s, Agrees (Checked.minCut n es below s) (WeightedGraph.minCut n es below s)
  minCutOfTrials : ∀ {σ : Type} (below : Nat → σ → Nat × σ), (∀ b s, 0 < b → (below b s).1 < b) →
    ∀ trials s, Agrees (Checked.minCutOfTrials n es trials below s)
      (WeightedGraph.minCutOfTrials n es trials below s)

namespace Checked

namespace Graph

variable {g : Graph W} {v : Vertex}

/-! ### Demands -/

lemma requireVertex_ne_error (g : Graph W) (v : Vertex) :
    g.requireVertex v ≠ .error .indexOutOfBounds := by
  rw [WeightedGraph.Graph.requireVertex]
  split <;> simp

lemma requireStart_ne_error (g : Graph W) (v : Vertex) :
    g.requireStart v ≠ .error .indexOutOfBounds := by
  rw [WeightedGraph.Graph.requireStart]
  split
  · simp
  · exact requireVertex_ne_error g v

lemma lt_size_of_requireVertex (h : g.requireVertex v = .ok ()) : v < g.size := by
  by_contra hv
  rw [WeightedGraph.Graph.requireVertex, if_neg hv] at h
  cases h

/-- What is asked of a vertex, once it is known to be one. -/
lemma agreesWith_requireVertex {β : Type} {P : β → Prop} {f : Checked β} {f' : Except GraphError β}
    (h : v < g.size → AgreesWith P f f') :
    AgreesWith P (require (g.requireVertex v) >>= fun _ => f) (g.requireVertex v >>= fun _ => f') :=
  (agreesWith_require (requireVertex_ne_error g v)).bind fun _ hv =>
    h (lt_size_of_requireVertex hv)

/-- What is asked of a search, where there is a vertex to start in. -/
lemma agreesWith_requireStart {β : Type} {P : β → Prop} {f : Checked β} {f' : Except GraphError β}
    (h : AgreesWith P f f') :
    AgreesWith P (require (g.requireStart v) >>= fun _ => f) (g.requireStart v >>= fun _ => f') :=
  (agreesWith_require (requireStart_ne_error g v)).bind fun _ _ => h

/-! ### Entries -/

lemma addEntry_eq (hv : v < g.size) (e : Entry W) : addEntry g v e = .ok (g.addEntry v e) := by
  have hset : g.adjacency.rows.setIfInBounds v (g.adjacency.row v ++ [e]) =
      g.adjacency.rows.modify v (· ++ [e]) := by
    refine Array.ext (by simp) fun i hi _ => ?_
    rw [Array.getElem_modify, Array.getElem_setIfInBounds]
    split
    · next hvi =>
        subst hvi
        rw [Adjacency.row, Array.getD_eq_getD_getElem?, Array.getElem?_eq_getElem]
        rfl
    · rfl
  rw [addEntry, read_row hv, ok_bind, write_eq hv, hset]
  rfl

lemma agrees_neighbours (g : Graph W) (v : Vertex) : Agrees (neighbours g v) (g.neighbours v) :=
  agreesWith_requireVertex fun hv => by
    rw [read_row hv]
    exact agrees_ok _

/-! ### Searches -/

lemma agrees_depthOrder (hg : g.adjacency.WellFormed) (start : Vertex) :
    Agrees (depthOrder g start) (g.depthOrder start) :=
  agreesWith_requireStart (Checked.agrees_depthOrder hg start)

lemma agrees_depthOrderWith (hg : g.adjacency.WellFormed) (hsize : g.size < 2 ^ 64)
    (settings : Settings) (start : Vertex) :
    Agrees (depthOrderWith g settings start) (g.depthOrderWith settings start) := by
  rw [depthOrderWith, WeightedGraph.Graph.depthOrderWith]
  cases settings.depth with
  | iterative => exact agrees_depthOrder hg start
  | recursive => exact agreesWith_requireStart (agrees_recursiveDepthOrder hg hsize start _)

lemma agrees_hopPath? (hg : g.adjacency.WellFormed) (start goal : Vertex) :
    Agrees (hopPath? g start goal) (g.hopPath? start goal) :=
  agreesWith_requireStart (agreesWith_requireVertex fun _ => Checked.agrees_hopPath? hg start goal)

/-! ### With weights -/

variable [Weight W]

lemma agrees_insert (g : Graph W) (i : Insertion W) : Agrees (insert g i) (g.insert i) := by
  obtain ⟨⟨u, v, w⟩, directed⟩ := i
  rw [WeightedGraph.Graph.insert_eq]
  refine agreesWith_requireVertex fun hu => agreesWith_requireVertex fun hv => ?_
  split
  · have hv' : v < (g.addEntry u ⟨v, w⟩).size := Adjacency.lt_size_push hv
    rw [addEntry_eq hu, ok_bind]
    cases directed with
    | true => exact agrees_ok _
    | false =>
        rw [if_neg Bool.false_ne_true, addEntry_eq hv']
        exact agrees_ok _
  · exact .refusal (by simp)

lemma text_eq (g : Graph W) : text g = .ok g.text := by
  rw [text, mapRows_eq]
  rfl

lemma toDot_eq (g : Graph W) (title : Option String) : toDot g title = .ok (g.toDot title) := by
  rw [toDot, edges_eq]
  rfl

lemma agreesWith_shortestPathTreeWith (hg : g.adjacency.WellFormed) (settings : Settings)
    (source : Vertex) :
    AgreesWith (fun p => ∀ v, pathTo? p v = .ok (p.pathTo? v))
      (shortestPathTreeWith g settings source) (g.shortestPathTreeWith settings source) := by
  refine agreesWith_requireStart ?_
  rw [negativeEdge?_eq, ok_bind]
  cases g.adjacency.negativeEdge? with
  | some e => exact .refusal (by simp)
  | none => exact agreesWith_shortestPathTree hg source settings.frontier

/-- A graph of well-formed lists answers whatever it is asked, or refuses it. -/
theorem faultless (hg : g.adjacency.WellFormed) (hsize : g.size < 2 ^ 64) : g.Faultless where
  insert := agrees_insert g
  neighbours := agrees_neighbours g
  degree v := (agrees_neighbours g v).bind fun _ _ => agrees_ok _
  edges := edges_eq g.adjacency
  text := text_eq g
  toDot := toDot_eq g
  breadthOrder start := agreesWith_requireStart (agrees_breadthOrder hg start)
  depthOrder := agrees_depthOrder hg
  depthOrderWith := agrees_depthOrderWith hg hsize
  recursiveDepthOrder := agrees_depthOrderWith hg hsize _
  hopCounts start := agreesWith_requireStart (agrees_hopCounts hg hsize start)
  hopPath? := agrees_hopPath? hg
  componentCount := agrees_componentCount hg hsize
  components := agrees_components hg
  cycle? := agrees_cycle? hg
  isCyclic := agrees_isCyclic hg
  shortestPathTreeWith := agreesWith_shortestPathTreeWith hg
  shortestPathTree := agreesWith_shortestPathTreeWith hg _
  spanningForestBy sort hsort := by
    rw [spanningForestBy, edges_eq, ok_bind]
    exact agreesWith_minimumSpanningForestBy hsort hsize _

end Graph

/-- A list of edges of any kind comes to no fault. -/
theorem faultless_edgeList [Weight W] (hn : n < 2 ^ 64) (es : List (Edge W)) :
    EdgeList.Faultless n es where
  minimumSpanningForestBy _ hsort := agreesWith_minimumSpanningForestBy hsort hn es
  minCut _ hbelow := agrees_minCut hbelow hn es
  minCutOfTrials _ hbelow := agrees_minCutOfTrials hbelow hn es

end Checked

/-- Nothing that is asked of a graph, however it was filled, or of a list of edges, whatever it
holds, comes to a fault: it is answered, or refused for a cause that the caller is told. -/
theorem faultless_filled_and_edgeList [Weight W] (hn : n < 2 ^ 64) :
    (∀ is : List (Insertion W), (Graph.filled n is).Faultless) ∧
      ∀ es : List (Edge W), EdgeList.Faultless n es :=
  ⟨fun is => Checked.Graph.faultless (Graph.wellFormed_filled n is)
      ((Graph.size_filled n is).symm ▸ hn),
    Checked.faultless_edgeList hn⟩

/-- Four vertices with a loop, parallel entries and a vertex apart; of the insertions one has an
endpoint that is no vertex, and one the weight NaN. A path is found, sorting by weight keeps all
edges, and a source of random words chooses. -/
theorem faultless_filled_and_edgeList_mixed :
    let insertion (u v : Vertex) (bits : Nat) (directed : Bool) : Insertion (Binary .single) :=
      ⟨⟨u, v, .ofBits .single bits⟩, directed⟩
    let one := 0x3f800000
    let minusOne := 0xbf800000
    let nan := 0x7fc00000
    let is := [insertion 0 1 one false, insertion 1 1 minusOne false, insertion 4 0 one true,
      insertion 0 1 minusOne true, insertion 1 2 nan true, insertion 1 2 one true]
    let g := Graph.filled 4 is
    let s : WordSource := ⟨[0, 0x4000000000000000], 7, 0⟩
    4 < 2 ^ 64 ∧ g.Faultless ∧ Checked.Graph.hopPath? g 0 2 = .ok (some [0, 1, 2]) ∧
      AgreesWith Checked.Readable (Checked.minimumSpanningForestBy sortByWeight 4 g.edges)
        (minimumSpanningForest 4 g.edges) ∧
      Agrees (Checked.minCut 4 g.edges (fun b s => s.below b) s)
        (minCut 4 g.edges (fun b s => s.below b) s) := by
  intro insertion one minusOne nan is g s
  have hn : 4 < 2 ^ 64 := by decide
  obtain ⟨hgraphs, hlists⟩ := faultless_filled_and_edgeList (W := Binary .single) hn
  have hg : g.Faultless := hgraphs is
  have hes : EdgeList.Faultless 4 g.edges := hlists g.edges
  have hpath : g.hopPath? 0 2 = .ok (some [0, 1, 2]) := by decide
  refine ⟨hn, hg, ?_, ?_, ?_⟩
  · exact (hpath ▸ hg.hopPath? 0 2).eq_ok.1
  · exact hes.minimumSpanningForestBy sortByWeight fun es => List.mergeSort_perm es _
  · exact hes.minCut _ (fun b s hb => WordSource.below_lt hb s) s

end WeightedGraph
