import GraphBenchmark.Model.Benchmark
import GraphBenchmark.Model.PageRank

/-! # `pr_hub` (`src/pagerank.cpp`)

Both blocks are cleared, a `parallel_for` fills `prev`, and `switch(opt)` selects `pr_push` or `pr_pull`, whose body is
empty. The call of `main` that is commented out runs it on what `create_graph` returns. -/
namespace GraphBenchmark
open Interleaving
set_option autoImplicit false

/-! ## The loop before the iterations -/

/-- The body of the `parallel_for`: `prev[i] = 4`. -/
def fillStmts : List (ℕ → RankCell → RankCell) := [fun _ c => { c with prev := 4 }]

inductive FillPc
  | head
  | filling
  | done
deriving DecidableEq

structure FillState where
  cells : ℕ → RankCell
  tasks : List Sweep.Task
  pc : FillPc

inductive FillAct
  | launch (rs : List BlockedRange)
  | work (i : ℕ)
  | join

def prFill (n : ℕ) (s : FillState) : FillAct → Option FillState
  | .launch rs => if s.pc = .head ∧ Split n rs then some { s with tasks := sweepTasks rs, pc := .filling } else none
  | .work i =>
    if s.pc = .filling then
      (work (Sweep.body fillStmts) s.cells s.tasks i).map fun p => { s with cells := p.1, tasks := p.2 }
    else none
  | .join =>
    if s.pc = .filling ∧ ∀ t ∈ s.tasks, t.indices = [] then some { s with tasks := [], pc := .done } else none

/-- Behind both `memset`s; the cells from `n` on are not in the blocks. -/
def FillState.init (n : ℕ) (mem : ℕ → RankCell) : FillState := ⟨fun i => if i < n then ⟨0, 0⟩ else mem i, [], .head⟩

/-! ## `switch(opt)` -/

inductive PrRun
  | push (s : PrState)
  | pull (ranks : Ranks)
  | died (ranks : Ranks)

def PrRun.init (opt : Int32) (ranks : Ranks) : PrRun :=
  if opt = 0 then .push ⟨ranks, 0, [], [], .head⟩ else if opt = 1 then .pull ranks else .died ranks

/-- `pr_push(graph, iteration)`; a negative `int` makes no iteration. -/
def prRun (g : Graph) (iteration : Int32) : PrRun → PrAct → Option PrRun
  | .push s, a => (prPush g iteration.toInt.toNat s a).map .push
  | .pull _, _ | .died _, _ => none

abbrev PrHubState := FillState ⊕ PrRun

abbrev PrHubAct := SeqAct FillAct PrAct

def enterRun (opt : Int32) (s : FillState) : Option PrRun :=
  if s.pc = .done then some (PrRun.init opt (Ranks.ofCells s.cells)) else none

def prHub (g : Graph) (iteration opt : Int32) : PrHubState → PrHubAct → Option PrHubState :=
  andThen (prFill g.nbNodes) (enterRun opt) (prRun g iteration)

/-- The entry of `pr_hub`; `none` is `assert(iteration != 0)`. -/
def prHubStart (g : Graph) (iteration : Int32) (mem : ℕ → RankCell) : Option PrHubState :=
  if iteration = 0 then none else some (.inl (FillState.init g.nbNodes mem))

/-- The arrays. -/
def PrRun.ranks : PrRun → Ranks
  | .push s => s.ranks
  | .pull r | .died r => r

/-! ## Behind `create_graph` -/

section Main
variable (file : InputFile) (symmetric : Bool) (nbNodes : ℕ) (m : Machine) (mem : ℕ → RankCell) (iteration opt : Int32)

def enterPrHub (s : LoadState) : Option (Graph × PrHubState) :=
  (s.graph symmetric nbNodes).bind fun g => (prHubStart g iteration mem).map fun h => (g, h)

/-- `create_graph` and `pr_hub(graph, iterations, mode)`. -/
def pagerank : LoadState ⊕ (Graph × PrHubState) → SeqAct LoadAct PrHubAct → Option (LoadState ⊕ (Graph × PrHubState)) :=
  andThen (createGraph file symmetric nbNodes m) (enterPrHub symmetric nbNodes mem iteration)
    (indexed fun g => prHub g iteration opt)

end Main

end GraphBenchmark
