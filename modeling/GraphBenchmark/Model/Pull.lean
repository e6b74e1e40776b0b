import GraphBenchmark.Model.Config
import GraphBenchmark.Foundations.Pool

/-! # `bfs_pull` (`src/bfs.cpp`)

The `do`-`while` loop, which `bfs_pushpull` ends with too: in each round a `parallel_for` runs over the
vertices (`launch`, `work`), and after it the main thread clears `in_frontier`, swaps the two maps and tests
`cont` (`join`). -/
namespace GraphBenchmark
open Interleaving
set_option autoImplicit false

/-- Where a thread stands in the loop body. -/
inductive PullStage
  | check
  | scan (dst : UInt32) (srcs : List UInt32)
  | found (dst : UInt32)
  | mark (dst : UInt32)
  | through
deriving DecidableEq

/-- The indices a task has still to look at, its point in the body, and its variable `local_cont`. -/
structure PullTask where
  indices : List ℕ
  stage : PullStage
  localCont : Bool
deriving DecidableEq

def PullTask.ofRange (r : BlockedRange) : PullTask := ⟨r.indices, .check, false⟩

/-- What the tasks of a round write. -/
structure PullShared where
  visited : ℕ → UInt8
  inFrontierNext : ℕ → Bool
  cont : Bool

/-- The body of the `parallel_for`; `uint32_t dst = i` truncates. -/
def pullBody (g : Graph) (inFrontier : ℕ → Bool) (s : PullShared) (t : PullTask) : Option (PullShared × PullTask) :=
  match t.stage with
  | .check =>
    match t.indices with
    | i :: indices =>
      let dst := UInt32.ofNat i
      some (s, { t with indices, stage := if s.visited dst.toNat = 0 then .scan dst (g.inScan dst) else .check })
    | [] => some ({ s with cont := if t.localCont then t.localCont else s.cont }, { t with stage := .through })
  | .scan _ [] => some (s, { t with stage := .check })
  | .scan dst (src :: srcs) =>
    if inFrontier src.toNat then some (s, { t with stage := .found dst, localCont := true })
    else some (s, { t with stage := .scan dst srcs })
  | .found dst => some ({ s with visited := Function.update s.visited dst.toNat 1 }, { t with stage := .mark dst })
  | .mark dst =>
    some ({ s with inFrontierNext := Function.update s.inFrontierNext dst.toNat true }, { t with stage := .check })
  | .through => none

inductive PullPc
  | head
  | round
  | done
deriving DecidableEq

structure PullState where
  shared : PullShared
  inFrontier : ℕ → Bool
  iterations : ℕ
  tasks : List PullTask
  pc : PullPc

inductive PullAct
  | launch (rs : List BlockedRange)
  | work (i : ℕ)
  | join

/-- The state before the first round. -/
def PullState.enter (visited : ℕ → UInt8) (inFrontier inFrontierNext : ℕ → Bool) : PullState :=
  ⟨⟨visited, inFrontierNext, false⟩, inFrontier, 0, [], .head⟩

/-- `memset(map, false, n)`. -/
def clearMap (map : ℕ → Bool) (n : ℕ) (i : ℕ) : Bool := if i < n then false else map i

def pullLoop (g : Graph) (s : PullState) : PullAct → Option PullState
  | .launch rs =>
    if s.pc = .head ∧ Split g.nbNodes rs then
      some { s with
        shared := { s.shared with cont := false }
        iterations := s.iterations + 1
        tasks := rs.map PullTask.ofRange
        pc := .round }
    else none
  | .work i =>
    if s.pc = .round then
      (work (pullBody g s.inFrontier) s.shared s.tasks i).map fun p => { s with shared := p.1, tasks := p.2 }
    else none
  | .join =>
    if s.pc = .round ∧ ∀ t ∈ s.tasks, t.stage = .through then
      some { s with
        shared := { s.shared with inFrontierNext := clearMap s.inFrontier g.nbNodes }
        inFrontier := s.shared.inFrontierNext
        tasks := []
        pc := if s.shared.cont then .head else .done }
    else none

/-- `bfs_pull` after its allocations: the two maps hold what `malloc` returned, but for the start vertex. -/
def PullState.init (start : UInt32) (mem memNext : ℕ → Bool) : PullState :=
  PullState.enter (Function.update (fun _ => 0) start.toNat 1) (Function.update mem start.toNat true) memNext

end GraphBenchmark
