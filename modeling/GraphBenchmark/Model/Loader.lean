import GraphBenchmark.Model.Config
import GraphBenchmark.Foundations.Pool

/-! # Building the graph (`src/loader.cpp`)

`count_degree` and `create_edges` as systems: the main thread launches a `parallel_for` (the action
`launch` carries the split the scheduler chose), its tasks take their atomic steps in any order (`work`),
and the main thread goes on when all of them are through (`join`). -/
namespace GraphBenchmark
open Interleaving
set_option autoImplicit false

/-- The records of the input file. Its size in bytes is an `off_t`. -/
structure EdgeFile where
  edges : List Edge
  size_lt : edges.length * 8 < 2 ^ 63

/-- `NB_EDGES`. -/
def EdgeFile.nbEdges (file : EdgeFile) : ℕ := file.edges.length

/-- `edges[i]`. -/
def EdgeFile.edge (file : EdgeFile) (i : ℕ) : Edge := file.edges.getD i ⟨0, 0⟩

/-! ## `count_degree` -/

inductive CountStage
  | outEdge
  | inEdge
deriving DecidableEq

/-- A task of `count_degree_1_atomic`: the edges it has still to count, and which of the two atomic
increments for the first of them comes next. -/
structure CountTask where
  todo : List ℕ
  stage : CountStage
deriving DecidableEq

/-- The two offset arrays. -/
structure Offsets where
  outEdgeOffsets : ℕ → UInt64
  inEdgeOffsets : ℕ → UInt64

/-- `__sync_fetch_and_add(&cells[i], 1)` on a `size_t` array. -/
def bump (cells : ℕ → UInt64) (i : ℕ) : ℕ → UInt64 := Function.update cells i (cells i + 1)

/-- The loop body of `count_degree_0_sequential`. -/
def countEdge (file : EdgeFile) (symmetric : Bool) (s : Offsets) (i : ℕ) : Offsets where
  outEdgeOffsets := bump s.outEdgeOffsets (file.edge i).src.toNat
  inEdgeOffsets := if symmetric then bump s.inEdgeOffsets (file.edge i).dst.toNat else s.inEdgeOffsets

/-- `count_degree_0_sequential`. -/
def countDegree0Sequential (file : EdgeFile) (symmetric : Bool) (s : Offsets) : Offsets :=
  (List.range file.nbEdges).foldl (countEdge file symmetric) s

/-- The loop body of `count_degree_1_atomic`. -/
def countDegree1Atomic (file : EdgeFile) (symmetric : Bool) (s : Offsets) (t : CountTask) :
    Option (Offsets × CountTask) :=
  match t.todo, t.stage with
  | [], _ => none
  | i :: rest, .outEdge =>
    some ({ s with outEdgeOffsets := bump s.outEdgeOffsets (file.edge i).src.toNat },
      if symmetric then ⟨i :: rest, .inEdge⟩ else ⟨rest, .outEdge⟩)
  | i :: rest, .inEdge =>
    some ({ s with inEdgeOffsets := bump s.inEdgeOffsets (file.edge i).dst.toNat }, ⟨rest, .outEdge⟩)

/-- The loop of `sum_degree` after its first `n` iterations: the array and `prev`. -/
def prefixSums (offsets : ℕ → UInt64) : ℕ → (ℕ → UInt64) × UInt64
  | 0 => (offsets, 0)
  | i + 1 =>
    let (a, prev) := prefixSums offsets i
    let tmp := a i
    (Function.update a i prev, prev + tmp)

/-- One block of `sum_degree`; `none` is the failed `assert(prev == NB_EDGES)`. -/
def sumDegreeBlock (nbNodes nbEdges : ℕ) (offsets : ℕ → UInt64) : Option (ℕ → UInt64) :=
  let (a, prev) := prefixSums offsets nbNodes
  if prev = UInt64.ofNat nbEdges then some (Function.update a nbNodes prev) else none

/-- `sum_degree`. -/
def sumDegree (symmetric : Bool) (nbNodes nbEdges : ℕ) (s : Offsets) : Option Offsets := do
  let outEdgeOffsets ← sumDegreeBlock nbNodes nbEdges s.outEdgeOffsets
  if symmetric then
    let inEdgeOffsets ← sumDegreeBlock nbNodes nbEdges s.inEdgeOffsets
    some { outEdgeOffsets, inEdgeOffsets }
  else some { s with outEdgeOffsets }

inductive CountPc
  | start
  | counting
  | done
  | aborted
deriving DecidableEq

structure CountState where
  offsets : Offsets
  tasks : List CountTask
  pc : CountPc

inductive CountAct
  | launch (rs : List BlockedRange)
  | work (i : ℕ)
  | join

/-- `count_degree(graph, edges, 1)` with the two arrays as `graph_malloc` returned them. -/
def CountState.init (mem : Offsets) : CountState := ⟨mem, [], .start⟩

def countDegree (file : EdgeFile) (symmetric : Bool) (nbNodes : ℕ) (s : CountState) : CountAct → Option CountState
  | .launch rs =>
    if s.pc = .start ∧ Split file.nbEdges rs then
      some { s with tasks := rs.map fun r => ⟨r.indices, .outEdge⟩, pc := .counting }
    else none
  | .work i =>
    if s.pc = .counting then
      (work (countDegree1Atomic file symmetric) s.offsets s.tasks i).map fun p =>
        { s with offsets := p.1, tasks := p.2 }
    else none
  | .join =>
    if s.pc = .counting ∧ ∀ t ∈ s.tasks, t.todo = [] then
      match sumDegree symmetric nbNodes file.nbEdges s.offsets with
      | some o => some { s with offsets := o, tasks := [], pc := .done }
      | none => some { s with pc := .aborted }
    else none

/-- `count_degree_1_atomic` by itself: `count_degree` up to the end of the counting. -/
def countDegreeAtomic (file : EdgeFile) (symmetric : Bool) (nbNodes : ℕ) : CountState → CountAct → Option CountState :=
  provided (fun _ a => match a with
    | .join => false
    | _ => true) (countDegree file symmetric nbNodes)

/-! ## `create_edges` -/

inductive CreateStage
  | fetchOut
  | storeOut (o : UInt32)
  | fetchIn
  | storeIn (o : UInt32)
deriving DecidableEq

/-- A task of `create_edges`: the edges it has still to place, and its point in the loop body for the
first of them, with the local variable `o`. -/
structure CreateTask where
  todo : List ℕ
  stage : CreateStage
deriving DecidableEq

/-- One direction of the graph under construction: the cursors, the edge array, and the stores made to
it (edge and slot, last one first). Of a store outside the edges the record is kept, not what it hits. -/
structure EdgeArray where
  cursors : ℕ → UInt32
  edges : ℕ → UInt32
  stores : List (ℕ × ℕ)

/-- `__atomic_fetch_add(&cursors[v], 1)`: the old value and the array after it. -/
def EdgeArray.fetchAdd (a : EdgeArray) (v : ℕ) : UInt32 × EdgeArray :=
  (a.cursors v, { a with cursors := Function.update a.cursors v (a.cursors v + 1) })

/-- `edges[slot] = x`, made for edge `i`. -/
def EdgeArray.store (a : EdgeArray) (i slot : ℕ) (x : UInt32) : EdgeArray :=
  { a with edges := Function.update a.edges slot x, stores := (i, slot) :: a.stores }

structure EdgeArrays where
  outArray : EdgeArray
  inArray : EdgeArray

/-- The loop body of `create_edges`. -/
def createEdgesBody (file : EdgeFile) (symmetric : Bool) (offsets : Offsets) (s : EdgeArrays) (t : CreateTask) :
    Option (EdgeArrays × CreateTask) :=
  match t.todo, t.stage with
  | [], _ => none
  | i :: rest, .fetchOut =>
    let (o, a) := s.outArray.fetchAdd (file.edge i).src.toNat
    some ({ s with outArray := a }, ⟨i :: rest, .storeOut o⟩)
  | i :: rest, .storeOut o =>
    let slot := (offsets.outEdgeOffsets (file.edge i).src.toNat + o.toUInt64).toNat
    some ({ s with outArray := s.outArray.store i slot (file.edge i).dst },
      if symmetric then ⟨i :: rest, .fetchIn⟩ else ⟨rest, .fetchOut⟩)
  | i :: rest, .fetchIn =>
    let (o, a) := s.inArray.fetchAdd (file.edge i).dst.toNat
    some ({ s with inArray := a }, ⟨i :: rest, .storeIn o⟩)
  | i :: rest, .storeIn o =>
    let slot := (offsets.inEdgeOffsets (file.edge i).dst.toNat + o.toUInt64).toNat
    some ({ s with inArray := s.inArray.store i slot (file.edge i).src }, ⟨rest, .fetchOut⟩)

inductive CreatePc
  | start
  | building
  | done
deriving DecidableEq

structure CreateState where
  arrays : EdgeArrays
  tasks : List CreateTask
  pc : CreatePc

inductive CreateAct
  | launch (rs : List BlockedRange)
  | work (i : ℕ)
  | join

/-- `create_edges` after its allocations: the cursors are cleared, the edge arrays hold what
`graph_malloc` returned. -/
def CreateState.init (outMem inMem : ℕ → UInt32) : CreateState :=
  ⟨⟨⟨fun _ => 0, outMem, []⟩, ⟨fun _ => 0, inMem, []⟩⟩, [], .start⟩

def createEdges (file : EdgeFile) (symmetric : Bool) (offsets : Offsets) (s : CreateState) :
    CreateAct → Option CreateState
  | .launch rs =>
    if s.pc = .start ∧ Split file.nbEdges rs then
      some { s with tasks := rs.map fun r => ⟨r.indices, .fetchOut⟩, pc := .building }
    else none
  | .work i =>
    if s.pc = .building then
      (work (createEdgesBody file symmetric offsets) s.arrays s.tasks i).map fun p =>
        { s with arrays := p.1, tasks := p.2 }
    else none
  | .join =>
    if s.pc = .building ∧ ∀ t ∈ s.tasks, t.todo = [] then some { s with tasks := [], pc := .done }
    else none

/-- The graph `create_graph` returns. -/
def CreateState.graph (s : CreateState) (file : EdgeFile) (symmetric : Bool) (nbNodes : ℕ) (offsets : Offsets) :
    Graph where
  symmetric := symmetric
  nbNodes := nbNodes
  nbEdges := file.nbEdges
  outEdges := s.arrays.outArray.edges
  outEdgeOffsets := offsets.outEdgeOffsets
  inEdges := s.arrays.inArray.edges
  inEdgeOffsets := offsets.inEdgeOffsets

end GraphBenchmark
