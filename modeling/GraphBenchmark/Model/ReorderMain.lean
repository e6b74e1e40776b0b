import GraphBenchmark.Model.Benchmark
import GraphBenchmark.Model.Reorder

/-! # The reordering program (`src/reorder.cpp`)

The read loop, `sort_by_degree` on what it left in memory, and the bytes of the relabelled edges in the output file. -/
namespace GraphBenchmark
open Bytes Interleaving
set_option autoImplicit false

/-! ## The command line -/

/-- What `getopt` returns, with what `atol` makes of its argument. -/
inductive ReorderOption
  | i (path : String)
  | o (path : String)
  | v (n : Int64)
  | a
  | d
  | m
  | unknown
deriving DecidableEq, Repr

structure ReorderArgs where
  input : String
  output : String
  nbNodes : UInt64
  ascending : Bool
  maintain : Bool
  debug : Bool
deriving DecidableEq, Repr

/-- Before the options: `input` and `output` are not initialised. -/
def ReorderArgs.init (input output : String) : ReorderArgs := ⟨input, output, 0, false, false, false⟩

/-- One option; `none` is the usage text. -/
def ReorderArgs.read (a : ReorderArgs) : ReorderOption → Option ReorderArgs
  | .i path => some { a with input := path }
  | .o path => some { a with output := path }
  | .v n => some { a with nbNodes := n.toUInt64 }
  | .a => some { a with ascending := true }
  | .d => some { a with debug := true }
  | .m => some { a with maintain := true }
  | .unknown => none

/-- Behind the options; `none` is the failed assertion. -/
def ReorderArgs.settle (a : ReorderArgs) : Option ReorderArgs :=
  let a := if a.debug then
      { a with input := "/home/lsw/graph_data/small_directed_graph_binary", output := "output", nbNodes := 16 }
    else a
  if a.nbNodes = 0 then none else some a

def reorderArgs (input output : String) (opts : List ReorderOption) : Option ReorderArgs :=
  (opts.foldlM ReorderArgs.read (ReorderArgs.init input output)).bind ReorderArgs.settle

/-! ## The output file -/

/-- `edge_t` in memory. -/
def Edge.bytes (byteorder : ByteOrder) (e : Edge) : List UInt8 :=
  toBytes byteorder 4 e.src.toNat ++ toBytes byteorder 4 e.dst.toNat

theorem Edge.length_bytes (byteorder : ByteOrder) (e : Edge) : (e.bytes byteorder).length = 8 := by
  rw [Edge.bytes, List.length_append, length_toBytes, length_toBytes]

theorem Edge.length_flatMap_bytes (byteorder : ByteOrder) (edges : List Edge) :
    (edges.flatMap (Edge.bytes byteorder)).length = edges.length * 8 := by
  induction edges with
  | nil => rfl
  | cons e edges ih =>
    rw [List.flatMap_cons, List.length_append, ih, Edge.length_bytes, List.length_cons]
    omega

/-- `ofs.write((const char*)edges, NB_EDGES*sizeof(edge_t))` into an empty file. -/
def EdgeFile.toFile (records : EdgeFile) (byteorder : ByteOrder) : InputFile where
  bytes := records.edges.flatMap (Edge.bytes byteorder)
  size_lt := by
    rw [Edge.length_flatMap_bytes]
    exact records.size_lt

/-! ## `main` -/

/-- What the blocks hold that the program allocates, and the byte order. -/
structure ReorderMachine where
  byteorder : ByteOrder
  edges : ℕ → UInt8
  outEdgeOffsets : ℕ → UInt32
  ordered : ℕ → UInt32
  mapping : ℕ → UInt32

abbrev ReorderState := ReadState ⊕ (EdgeFile × SortState)

abbrev ReorderAct := SeqAct ReadResult SortAct

section Main
variable (a : ReorderArgs) (m : ReorderMachine) (file : InputFile)

def enterSort (s : ReadState) : Option (EdgeFile × SortState) :=
  if s.pc = .done then
    let records := s.records file m.byteorder
    some (records, SortState.init records m.outEdgeOffsets m.ordered m.mapping)
  else none

def reorder : ReorderState → ReorderAct → Option ReorderState :=
  andThen (readLoop file) (enterSort m file)
    (indexed fun records => sortByDegree a.nbNodes.toNat records.nbEdges a.ascending a.maintain)

/-- `read` has failed. -/
def ReorderState.died : ReorderState → Bool
  | .inl s => decide (s.pc = .died)
  | .inr _ => false

/-- The output file, once it is written. -/
def ReorderState.written : ReorderState → Option InputFile
  | .inl _ => none
  | .inr (records, s) => if s.pc = .done then some ((s.output records).toFile m.byteorder) else none

/-- Where `main` enters the read loop; `none` is a failed `open`. -/
def reorderStart (files : String → Option InputFile) : Option (InputFile × ReorderState) :=
  (files a.input).map fun file => (file, .inl (sortByDegreeRead file m.edges))

end Main

end GraphBenchmark
