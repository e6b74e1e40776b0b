import GraphBenchmark.Model.Hub
import GraphBenchmark.Model.Output
import GraphBenchmark.Model.Reading

/-! # The benchmark program (`src/main.cpp`, `create_graph` of `src/loader.cpp`)

The program is its stages one after the other: the read loop, `count_degree`, `create_edges` and `bfs_hub`, each on
what the one before it left in memory. A stage that fails an assertion, and a read that fails, are where it stops.
Left out are the stages that use none of this memory: the pinning observer, `cache_event_setup`, and the sampling thread
that `bfs_hub` launches and joins (`Model.Collect`). They can end the process, so what is said of `benchmark` is said of
loading and traversing. -/
namespace GraphBenchmark
open Bytes Interleaving
set_option autoImplicit false

/-! ## The command line -/

/-- What `getopt` returns, with what `atoi` and `atol` make of its argument. -/
inductive BenchOption
  | t (n : Int32)
  | v (n : Int64)
  | f (path : String)
  | m (n : Int32)
  | i (n : Int32)
  | o (path : String)
  | d
  | s
  | unknown
deriving DecidableEq, Repr

/-- The variables the options set. -/
structure BenchArgs where
  threads : Int32
  nbNodes : UInt64
  symmetric : Bool
  debug : Bool
  binary : String
  mode : Int32
  output : Option String
deriving DecidableEq, Repr

/-- Before the options: `binary` and `mode` are not initialised. -/
def BenchArgs.init (binary : String) (mode : Int32) : BenchArgs := ⟨0, 0, false, false, binary, mode, none⟩

/-- One option; `none` is the usage text. The argument of `-i` is for `pr_hub`, which is not called. -/
def BenchArgs.read (a : BenchArgs) : BenchOption → Option BenchArgs
  | .t n => some { a with threads := n }
  | .v n => some { a with nbNodes := n.toUInt64 }
  | .f path => some { a with binary := path }
  | .m n => some { a with mode := n }
  | .i _ => some a
  | .o path => some { a with output := some path }
  | .d => some { a with debug := true }
  | .s => some { a with symmetric := true }
  | .unknown => none

/-- What is done to the variables behind the options. -/
def BenchArgs.settle (a : BenchArgs) : Option BenchArgs :=
  if a.debug then
    some { a with
      threads := 4
      nbNodes := 65536
      binary := "/home/lsw/graph_data/equal_rmat_binary_32"
      symmetric := true }
  else if a.nbNodes = 0 then none
  else some { a with threads := if a.threads = 0 then 1 else a.threads }

def benchArgs (binary : String) (mode : Int32) (opts : List BenchOption) : Option BenchArgs :=
  (opts.foldlM BenchArgs.read (BenchArgs.init binary mode)).bind BenchArgs.settle

/-! ## `create_graph` -/

/-- What the blocks hold that the program allocates, and the byte order. -/
structure Machine where
  byteorder : ByteOrder
  edges : ℕ → UInt8
  offsets : Offsets
  outEdges : ℕ → UInt32
  inEdges : ℕ → UInt32
  hub : HubMem

theorem InputFile.size_records_lt (file : InputFile) (f : ℕ → Edge) :
    ((List.range (file.bytes.length / 8)).map f).length * 8 < 2 ^ 63 := by
  rw [List.length_map, List.length_range]
  exact (Nat.div_mul_le_self _ _).trans_lt file.size_lt

/-- The records in memory behind the read loop. -/
def ReadState.records (file : InputFile) (byteorder : ByteOrder) (s : ReadState) : EdgeFile where
  edges := (List.range (file.bytes.length / 8)).map (edgeAt byteorder s.mem)
  size_lt := file.size_records_lt _

abbrev LoadState := ReadState ⊕ (EdgeFile × CountState) ⊕ ((EdgeFile × Offsets) × CreateState)

abbrev LoadAct := SeqAct ReadResult (SeqAct CountAct CreateAct)

section Load
variable (file : InputFile) (symmetric : Bool) (nbNodes : ℕ) (m : Machine)

/-- `count_degree(graph, edges, 1)`. -/
def enterCount (s : ReadState) : Option (EdgeFile × CountState) :=
  if s.pc = .done then some (s.records file m.byteorder, CountState.init m.offsets) else none

/-- `create_edges(graph, edges)`. -/
def enterCreate (p : EdgeFile × CountState) : Option ((EdgeFile × Offsets) × CreateState) :=
  if p.2.pc = .done then some ((p.1, p.2.offsets), CreateState.init m.outEdges m.inEdges) else none

def createGraph : LoadState → LoadAct → Option LoadState :=
  andThen (readLoop file) (fun s => (enterCount file m s).map .inl)
    (andThen (indexed fun records => countDegree records symmetric nbNodes) (enterCreate m)
      (indexed fun p => createEdges p.1 symmetric p.2))

/-- The graph `create_graph` returns, once it does. -/
def LoadState.graph : LoadState → Option Graph
  | .inr (.inr ((records, offsets), s)) =>
    if s.pc = .done then some (s.graph records symmetric nbNodes offsets) else none
  | _ => none

/-- `read` has failed. -/
def LoadState.died : LoadState → Bool
  | .inl s => decide (s.pc = .died)
  | _ => false

/-- An assertion of `sum_degree` has failed. -/
def LoadState.aborted : LoadState → Bool
  | .inr (.inl (_, s)) => decide (s.pc = .aborted)
  | _ => false

end Load

/-! ## `main` -/

abbrev BenchState := LoadState ⊕ (Graph × HubState)

abbrev BenchAct := SeqAct LoadAct HubAct

section Main
variable (a : BenchArgs) (m : Machine) (file : InputFile)

/-- `bfs_hub(graph, 0, mode)`, unless the graph is written. -/
def enterHub (s : LoadState) : Option (Graph × HubState) :=
  if a.output = none then
    (s.graph a.symmetric a.nbNodes.toNat).bind fun g => (HubState.init g m.hub 0 a.mode.toInt).map fun h => (g, h)
  else none

/-- `create_graph` and then the traversal that `bfs_hub` selects, or nothing where the graph is written. -/
def benchmark : BenchState → BenchAct → Option BenchState :=
  andThen (createGraph file a.symmetric a.nbNodes.toNat m) (enterHub a m)
    (indexed fun g => bfsHub g a.threads.toInt.toNat .split m.hub)

/-- Where `main` enters the read loop; `none` is a failed `open`, or the failed assertion on the size of the file. -/
def benchmarkStart (files : String → Option InputFile) : Option (InputFile × BenchState) :=
  (files a.binary).bind fun file => (createGraphRead file m.edges).map fun s => (file, .inl (.inl s))

/-- The text of `write_to_file`, once it is written. -/
def BenchState.written : BenchState → Option (List Char)
  | .inl s => if a.output = none then none else (s.graph a.symmetric a.nbNodes.toNat).map Graph.writeToFile
  | .inr _ => none

end Main

/-- The traversal has returned. -/
def HubState.finished : HubState → Prop
  | .push s => ∃ v, s.pc = .done v
  | .pull s => s.pc = .done
  | .pushpull (.inr (.inr s)) => s.pc = .done
  | .pushpull _ => False

def HubState.visited : HubState → ℕ → UInt8
  | .push s => s.shared.visited
  | .pull s => s.shared.visited
  | .pushpull (.inl s) => s.shared.visited
  | .pushpull (.inr (.inl s)) => s.visited
  | .pushpull (.inr (.inr s)) => s.shared.visited

/-- The number in `visited: %lu`, which only `bfs_push` prints. -/
def HubState.printed : HubState → Option ℕ
  | .push s =>
    match s.pc with
    | .done v => some v
    | _ => none
  | _ => none

end GraphBenchmark
