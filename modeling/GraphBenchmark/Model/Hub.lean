import GraphBenchmark.Model.Loader
import GraphBenchmark.Model.Push
import GraphBenchmark.Model.PushPull

/-! # `bfs_hub` (`src/bfs.cpp`)

The traversals behind one dispatch, and which of their steps read the in-CSR. The loader allocates and fills the
in-CSR under `if(graph->symmetric)`; the traversals do not look at that flag. -/
namespace GraphBenchmark
open Interleaving
set_option autoImplicit false

inductive HubState
  | push (s : PushState)
  | pull (s : PullState)
  | pushpull (s : PushPullState)

inductive HubAct
  | push (a : PushAct)
  | pull (a : PullAct)
  | pushpull (a : PushPullAct)

/-- What the blocks hold that the traversals allocate. -/
structure HubMem where
  frontier : ℕ → UInt32
  buffers : ℕ → ℕ → UInt32
  inFrontier : ℕ → Bool
  inFrontierNext : ℕ → Bool

/-- `switch(opt)`; `none` is `die`. -/
def HubState.init (g : Graph) (mem : HubMem) (start : UInt32) (opt : ℤ) : Option HubState :=
  if opt = 0 then some (.push (PushState.init g start mem.frontier mem.buffers))
  else if opt = 1 then some (.pull (PullState.init start mem.inFrontier mem.inFrontierNext))
  else if opt = 2 then some (.pushpull (.inl (HybridState.init start)))
  else none

def bfsHub (g : Graph) (threads : ℕ) (grain : Grain) (mem : HubMem) : HubState → HubAct → Option HubState
  | .push s, .push a => (bfsPush g threads grain s a).map .push
  | .pull s, .pull a => (pullLoop g s a).map .pull
  | .pushpull s, .pushpull a => (bfsPushpull g false mem.inFrontier mem.inFrontierNext s a).map .pushpull
  | _, _ => none

/-! ## Reads of the in-CSR -/

/-- The next step of the task reads `in_edge_offsets[dst]` and `in_edge_offsets[dst+1]`, or `in_edges[beg]`. -/
def PullTask.readsIn (visited : ℕ → UInt8) (t : PullTask) : Bool :=
  match t.stage, t.indices with
  | .check, i :: _ => decide (visited (UInt32.ofNat i).toNat = 0)
  | .scan _ (_ :: _), _ => true
  | _, _ => false

def PullState.readsIn (s : PullState) : PullAct → Bool
  | .work i =>
    match s.tasks[i]? with
    | some t => t.readsIn s.shared.visited
    | none => false
  | _ => false

def HubState.readsIn : HubState → HubAct → Bool
  | .pull s, .pull a => s.readsIn a
  | .pushpull (.inr (.inr s)), .pushpull (.second (.second a)) => s.readsIn a
  | _, _ => false

/-! ## The in-CSR of a loaded graph -/

/-- A complete run of `count_degree` and `create_edges` on a file, with any contents of the allocated blocks. -/
structure Loads (file : EdgeFile) (symmetric : Bool) (nbNodes : ℕ) (mem : Offsets) (outMem inMem : ℕ → UInt32)
    (s : CountState) (t : CreateState) : Prop where
  count : Reach (countDegree file symmetric nbNodes) (CountState.init mem) s
  counted : s.pc = .done
  create : Reach (createEdges file symmetric s.offsets) (CreateState.init outMem inMem) t
  created : t.pc = .done

/-- The run has allocated and filled the in-CSR: `sum_degree` has gone over its offsets, and every record has been
stored in its edge array. -/
structure InBuilt (file : EdgeFile) (symmetric : Bool) (nbNodes : ℕ) (s : CountState) (t : CreateState) : Prop where
  allocated : symmetric = true
  offsets : ∃ counts, sumDegreeBlock nbNodes file.nbEdges counts = some s.offsets.inEdgeOffsets
  edges : ∀ i < file.nbEdges, ∃ slot, (i, slot) ∈ t.arrays.inArray.stores

end GraphBenchmark
