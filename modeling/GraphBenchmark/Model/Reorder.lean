import GraphBenchmark.Model.Loader

/-! # `sort_by_degree` (`src/reorder.cpp`)

Three `parallel_for` regions with the main thread's `std::sort` and numbering loop between the second and the
third. The action `sort` carries the order `std::sort` returned, any one that is sorted under the comparator. -/
namespace GraphBenchmark
open Interleaving
set_option autoImplicit false

/-- `__sync_fetch_and_add(&(out_edge_offsets[edges[i].src]),1)`; a task is the list of its remaining edges. -/
def countSources (edges : ℕ → Edge) (cells : ℕ → UInt32) (t : List ℕ) : Option ((ℕ → UInt32) × List ℕ) :=
  match t with
  | [] => none
  | i :: rest => some (Function.update cells (edges i).src.toNat (cells (edges i).src.toNat + 1), rest)

/-- `ordered[i] = i`. -/
def orderStmts : List (ℕ → UInt32 → UInt32) := [fun i _ => UInt32.ofNat i]

/-- The comparator of `std::sort`. -/
def comesBefore (ascending : Bool) (outEdgeOffsets : ℕ → UInt32) (a b : UInt32) : Bool :=
  if ascending then decide (outEdgeOffsets a.toNat < outEdgeOffsets b.toNat)
  else decide (outEdgeOffsets a.toNat > outEdgeOffsets b.toNat)

/-- An order of the given entries that is sorted under the comparator. -/
def Sorted (ascending : Bool) (outEdgeOffsets : ℕ → UInt32) (entries l : List UInt32) : Prop :=
  l.Perm entries ∧ l.Pairwise fun a b => comesBefore ascending outEdgeOffsets b a = false

instance (ascending : Bool) (outEdgeOffsets : ℕ → UInt32) (entries l : List UInt32) :
    Decidable (Sorted ascending outEdgeOffsets entries l) := inferInstanceAs (Decidable (_ ∧ _))

/-- The numbering loop after its first `n` iterations: `mapping` and `count`. -/
def numberIds (maintain : Bool) (ordered mapping : ℕ → UInt32) : ℕ → (ℕ → UInt32) × ℕ
  | 0 => (mapping, if maintain then 1 else 0)
  | i + 1 =>
    let (mapping, count) := numberIds maintain ordered mapping i
    if maintain ∧ ordered i = 0 then (Function.update mapping 0 0, count)
    else (Function.update mapping (ordered i).toNat (UInt32.ofNat count), count + 1)

/-- `edges[i].src = mapping[edges[i].src]` and `edges[i].dst = mapping[edges[i].dst]`. -/
def rewriteStmts (mapping : ℕ → UInt32) : List (ℕ → Edge → Edge) :=
  [fun _ e => { e with src := mapping e.src.toNat }, fun _ e => { e with dst := mapping e.dst.toNat }]

inductive SortPc
  | count
  | counting
  | order
  | ordering
  | sort
  | rewrite
  | rewriting
  | done
deriving DecidableEq

structure SortState where
  edges : ℕ → Edge
  outEdgeOffsets : ℕ → UInt32
  ordered : ℕ → UInt32
  mapping : ℕ → UInt32
  counters : List (List ℕ)
  sweeps : List Sweep.Task
  pc : SortPc

inductive SortAct
  | launch (rs : List BlockedRange)
  | work (i : ℕ)
  | join
  | sort (l : List UInt32)

/-- After the edges have been read; the three arrays hold what `malloc` returned. -/
def SortState.init (file : EdgeFile) (outEdgeOffsets ordered mapping : ℕ → UInt32) : SortState :=
  ⟨file.edge, outEdgeOffsets, ordered, mapping, [], [], .count⟩

def sortByDegree (nbNodes nbEdges : ℕ) (ascending maintain : Bool) (s : SortState) : SortAct → Option SortState
  | .launch rs =>
    match s.pc with
    | .count => if Split nbEdges rs then some { s with counters := rs.map BlockedRange.indices, pc := .counting } else none
    | .order => if Split nbNodes rs then some { s with sweeps := sweepTasks rs, pc := .ordering } else none
    | .rewrite => if Split nbEdges rs then some { s with sweeps := sweepTasks rs, pc := .rewriting } else none
    | _ => none
  | .work i =>
    match s.pc with
    | .counting =>
      (work (countSources s.edges) s.outEdgeOffsets s.counters i).map fun p =>
        { s with outEdgeOffsets := p.1, counters := p.2 }
    | .ordering =>
      (work (Sweep.body orderStmts) s.ordered s.sweeps i).map fun p => { s with ordered := p.1, sweeps := p.2 }
    | .rewriting =>
      (work (Sweep.body (rewriteStmts s.mapping)) s.edges s.sweeps i).map fun p => { s with edges := p.1, sweeps := p.2 }
    | _ => none
  | .join =>
    match s.pc with
    | .counting => if ∀ t ∈ s.counters, t = [] then some { s with counters := [], pc := .order } else none
    | .ordering => if ∀ t ∈ s.sweeps, t.indices = [] then some { s with sweeps := [], pc := .sort } else none
    | .rewriting => if ∀ t ∈ s.sweeps, t.indices = [] then some { s with sweeps := [], pc := .done } else none
    | _ => none
  | .sort l =>
    if s.pc = .sort ∧ Sorted ascending s.outEdgeOffsets ((List.range nbNodes).map s.ordered) l then
      some { s with
        ordered := fun i => l.getD i (s.ordered i)
        mapping := (numberIds maintain (fun i => l.getD i (s.ordered i)) s.mapping nbNodes).1
        pc := .rewrite }
    else none

/-- The file written at the end. -/
def SortState.output (s : SortState) (file : EdgeFile) : EdgeFile where
  edges := (List.range file.nbEdges).map s.edges
  size_lt := by rw [List.length_map, List.length_range]; exact file.size_lt

end GraphBenchmark
