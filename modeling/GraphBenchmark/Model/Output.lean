import GraphBenchmark.Model.Config
import GraphBenchmark.Foundations.Lines

/-! # `write_to_file` (`src/loader.cpp`)

The text it writes, and the integers in it as a reader of the format finds them. -/
namespace GraphBenchmark
open Lines
set_option autoImplicit false

def title : List Char := "AdjacencyGraph".toList

/-- `write_to_file`, on a stream that takes everything. -/
def Graph.writeToFile (g : Graph) : List Char :=
  title ++ ['\n'] ++ line g.nbNodes ++ line g.nbEdges ++
    ((List.range g.nbNodes).flatMap fun i => line (g.outEdgeOffsets i).toNat) ++
    ((List.range g.nbEdges).flatMap fun i => line (g.outEdges i).toNat)

/-- The integers of a written graph. -/
structure WrittenGraph where
  nbNodes : ℕ
  nbEdges : ℕ
  offsets : List ℕ
  edges : List ℕ
deriving DecidableEq

/-- The two counts say where the sections of the text end. -/
def WrittenGraph.ofNumbers : List ℕ → Option WrittenGraph
  | n :: m :: ns => some ⟨n, m, ns.take n, (ns.drop n).take m⟩
  | _ => none

/-- The text after its title, read back. -/
def readGraph (text : List Char) : Option WrittenGraph :=
  WrittenGraph.ofNumbers (readNumbers (text.drop (title.length + 1)))

/-- The edges from the `i`-th offset to the next one, to the edge count for the last vertex, if the list of edges has
such a slice. -/
def WrittenGraph.slice (w : WrittenGraph) (i : ℕ) : Option (List ℕ) := do
  let beg ← w.offsets[i]?
  let fin := w.offsets.getD (i + 1) w.nbEdges
  if beg ≤ fin ∧ fin ≤ w.edges.length then some ((w.edges.drop beg).take (fin - beg)) else none

/-- The edges of a written graph, vertex by vertex. -/
def WrittenGraph.edgeList (w : WrittenGraph) : List (ℕ × ℕ) :=
  (List.range w.nbNodes).flatMap fun i => ((w.slice i).getD []).map fun d => (i, d)

end GraphBenchmark
