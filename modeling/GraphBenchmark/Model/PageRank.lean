import GraphBenchmark.Model.Config

/-! # `pr_push` (`src/pagerank.cpp`, `atomicAdd` of `include/util.h`)

Each iteration is two regions, one after the other. In the first the tasks add to the ranks with `atomicAdd`,
a load and a compare-and-swap that are two steps and are repeated when the swap fails; in the second each index
has its own cell. -/
namespace GraphBenchmark
open Interleaving
set_option autoImplicit false

structure RankCell where
  rank : UInt32
  prev : UInt32
deriving DecidableEq

structure Ranks where
  rank : ℕ → UInt32
  prev : ℕ → UInt32

/-- The sources a task has still to look at, the rest of the out-edges of the current one, its `delta`, and the
`old_val` of `atomicAdd` when it has been loaded. -/
structure AddTask where
  indices : List ℕ
  edges : List UInt32
  delta : UInt32
  old : Option UInt32
deriving DecidableEq

def AddTask.ofRange (r : BlockedRange) : AddTask := ⟨r.indices, [], 0, none⟩

def AddTask.through (t : AddTask) : Bool := t.indices.isEmpty && t.edges.isEmpty

/-- The vertex whose cell of `rank` the next step of the body loads or swaps. -/
def AddTask.access (t : AddTask) : Option UInt32 := t.edges.head?

/-- The body of the first `parallel_for`; its index is a `size_t`. -/
def addBody (g : Graph) (s : Ranks) (t : AddTask) : Option (Ranks × AddTask) :=
  match t.edges, t.indices with
  | dst :: edges, _ =>
    match t.old with
    | none => some (s, { t with old := some (s.rank dst.toNat) })
    | some old =>
      if s.rank dst.toNat = old then
        some ({ s with rank := Function.update s.rank dst.toNat (old + t.delta) }, { t with edges, old := none })
      else some (s, { t with old := none })
  | [], i :: indices => some (s, { t with indices, edges := g.outSlice i, delta := s.prev i / 2, old := none })
  | [], [] => none

/-- The body of the second `parallel_for`: `prev[i] = rank[i]/2` and `rank[i] = 0`. -/
def halveStmts : List (ℕ → RankCell → RankCell) :=
  [fun _ c => { c with prev := c.rank / 2 }, fun _ c => { c with rank := 0 }]

inductive PrPc
  | head
  | adding
  | added
  | halving
  | done
deriving DecidableEq

/-- `it` counts the iterations begun. -/
structure PrState where
  ranks : Ranks
  it : ℕ
  adders : List AddTask
  halvers : List Sweep.Task
  pc : PrPc

inductive PrAct
  | launch (rs : List BlockedRange)
  | work (i : ℕ)
  | join
  | exit

/-- What `pr_hub` hands over: `rank` is cleared and every `prev[i]` is `4`. -/
def PrState.init : PrState := ⟨⟨fun _ => 0, fun _ => 4⟩, 0, [], [], .head⟩

def Ranks.cells (s : Ranks) (i : ℕ) : RankCell := ⟨s.rank i, s.prev i⟩

def Ranks.ofCells (cells : ℕ → RankCell) : Ranks := ⟨fun i => (cells i).rank, fun i => (cells i).prev⟩

def prPush (g : Graph) (iteration : ℕ) (s : PrState) : PrAct → Option PrState
  | .launch rs =>
    if s.pc = .head ∧ s.it < iteration ∧ Split g.nbNodes rs then
      some { s with it := s.it + 1, adders := rs.map AddTask.ofRange, pc := .adding }
    else if s.pc = .added ∧ Split g.nbNodes rs then some { s with halvers := sweepTasks rs, pc := .halving }
    else none
  | .work i =>
    if s.pc = .adding then
      (work (addBody g) s.ranks s.adders i).map fun p => { s with ranks := p.1, adders := p.2 }
    else if s.pc = .halving then
      (work (Sweep.body halveStmts) s.ranks.cells s.halvers i).map fun p =>
        { s with ranks := Ranks.ofCells p.1, halvers := p.2 }
    else none
  | .join =>
    if s.pc = .adding ∧ ∀ t ∈ s.adders, t.through = true then some { s with adders := [], pc := .added }
    else if s.pc = .halving ∧ ∀ t ∈ s.halvers, t.indices = [] then some { s with halvers := [], pc := .head }
    else none
  | .exit => if s.pc = .head ∧ ¬ s.it < iteration then some { s with pc := .done } else none

end GraphBenchmark
