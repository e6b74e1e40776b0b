import GraphBenchmark.Model.Config
import GraphBenchmark.Foundations.Pool

/-! # `bfs_push` (`src/bfs.cpp`)

The main thread tests the frontier, splits it into tasks (`launch`), and when all tasks are through it
moves the thread buffers into the next frontier (`join`); on an empty frontier it counts the visited
vertices (`exit`). In between, threads of the arena begin tasks (`begin`) and execute their bodies step by
step (`work`). A thread executes one task at a time and the arena admits `THREADS` of them. -/
namespace GraphBenchmark
open Interleaving
set_option autoImplicit false

/-- Whether `thread_buffer::push` is one step or the three steps it is made of: read `next`, store the id
there, store `next + 1`. -/
inductive Grain
  | whole
  | split
deriving DecidableEq

/-- Where a thread stands in the loop body. -/
inductive PushStage
  | scan
  | cas (dst : UInt32)
  | push (dst : UInt32)
  | store (dst : UInt32) (next : ℕ)
  | bump (dst : UInt32) (next : ℕ)
deriving DecidableEq

/-- A range of frontier positions, the thread executing it once one has begun it, and what is left of the
two loops: the positions and the out-edges of the current vertex. -/
structure PushTask where
  thread : Option ℕ
  indices : List ℕ
  edges : List UInt32
  stage : PushStage
deriving DecidableEq

def PushTask.ofRange (r : BlockedRange) : PushTask := ⟨none, r.indices, [], .scan⟩

def PushTask.Finished (t : PushTask) : Prop := t.indices = [] ∧ t.edges = [] ∧ t.stage = .scan

instance (t : PushTask) : Decidable t.Finished := inferInstanceAs (Decidable (_ ∧ _))

/-- The thread inside the body of a task, if one is. -/
def PushTask.running (t : PushTask) : Option ℕ := if t.Finished then none else t.thread

/-- The vertex whose byte of `visited` the next step of the body tests or swaps. -/
def PushTask.access (t : PushTask) : Option UInt32 :=
  match t.stage, t.edges with
  | .scan, dst :: _ => some dst
  | .cas dst, _ => some dst
  | _, _ => none

/-- What the tasks write. `claimed` records the successful compare-and-swaps of the pass. -/
structure PushShared where
  visited : ℕ → UInt8
  buffers : ℕ → ThreadBuffer
  claimed : List UInt32

/-- `buffer[n] = id`. -/
def ThreadBuffer.store (b : ThreadBuffer) (n : ℕ) (id : UInt32) : ThreadBuffer :=
  { b with buffer := Function.update b.buffer n id }

/-- A change to the buffer `buffers[gettid()%THREADS]`. -/
def PushShared.onBuffer (s : PushShared) (threads tid : ℕ) (f : ThreadBuffer → ThreadBuffer) : PushShared :=
  { s with buffers := Function.update s.buffers (tid % threads) (f (s.buffers (tid % threads))) }

/-- The body of the `parallel_for`. -/
def pushBody (g : Graph) (threads : ℕ) (grain : Grain) (frontier : ThreadBuffer) (s : PushShared) (t : PushTask) :
    Option (PushShared × PushTask) :=
  match t.thread with
  | none => none
  | some tid =>
    match t.stage with
    | .scan =>
      match t.edges, t.indices with
      | dst :: edges, _ => some (s, { t with edges, stage := if s.visited dst.toNat = 0 then .cas dst else .scan })
      | [], i :: indices => some (s, { t with indices, edges := g.outScan (frontier.buffer i) })
      | [], [] => none
    | .cas dst =>
      if s.visited dst.toNat = 0 then
        some ({ s with visited := Function.update s.visited dst.toNat 1, claimed := dst :: s.claimed },
          { t with stage := .push dst })
      else some (s, { t with stage := .scan })
    | .push dst =>
      match grain with
      | .whole => some (s.onBuffer threads tid (·.push dst), { t with stage := .scan })
      | .split => some (s, { t with stage := .store dst (s.buffers (tid % threads)).next })
    | .store dst n => some (s.onBuffer threads tid (·.store n dst), { t with stage := .bump dst n })
    | .bump _ n => some (s.onBuffer threads tid fun b => { b with next := n + 1 }, { t with stage := .scan })

/-- `for(size_t i = 0; i < n; i++) buffers[i].transfer(dst)`. -/
def transfers (buffers : ℕ → ThreadBuffer) (dst : ThreadBuffer) : ℕ → (ℕ → ThreadBuffer) × ThreadBuffer
  | 0 => (buffers, dst)
  | i + 1 =>
    let (bs, d) := transfers buffers dst i
    let (b, d) := (bs i).transfer d
    (Function.update bs i b, d)

/-- `v` after the counting loop. -/
def countVisited (visited : ℕ → UInt8) (n : ℕ) : ℕ := ((List.range n).map fun i => (visited i).toNat).sum

inductive PushPc
  | head
  | pass
  | done (v : ℕ)
deriving DecidableEq

structure PushState where
  shared : PushShared
  frontier : ThreadBuffer
  iterations : ℕ
  tasks : List PushTask
  pc : PushPc

inductive PushAct
  | launch (rs : List BlockedRange)
  | begin (i tid : ℕ)
  | work (i : ℕ)
  | join
  | exit

/-- The state before the first test of the loop, with `visited` as `bfs_hub` cleared it and the buffers in
blocks that hold anything. -/
def PushState.init (g : Graph) (start : UInt32) (mem : ℕ → UInt32) (bufferMem : ℕ → ℕ → UInt32) : PushState where
  shared :=
    { visited := Function.update (fun _ => 0) start.toNat 1
      buffers := fun i => ThreadBuffer.init (bufferMem i) g.nbNodes
      claimed := [] }
  frontier := (ThreadBuffer.init mem g.nbNodes).push start
  iterations := 0
  tasks := []
  pc := .head

def bfsPush (g : Graph) (threads : ℕ) (grain : Grain) (s : PushState) : PushAct → Option PushState
  | .launch rs =>
    if s.pc = .head ∧ s.frontier.next ≠ 0 ∧ Split s.frontier.next rs then
      some { s with
        shared := { s.shared with claimed := [] }
        iterations := s.iterations + 1
        tasks := rs.map PushTask.ofRange
        pc := .pass }
    else none
  | .begin i tid =>
    match s.tasks[i]? with
    | none => none
    | some t =>
      if s.pc = .pass ∧ t.thread = none ∧ (s.tasks.filterMap PushTask.running).length < threads ∧
          tid ∉ s.tasks.filterMap PushTask.running then
        some { s with tasks := s.tasks.set i { t with thread := some tid } }
      else none
  | .work i =>
    if s.pc = .pass then
      (work (pushBody g threads grain s.frontier) s.shared s.tasks i).map fun p =>
        { s with shared := p.1, tasks := p.2 }
    else none
  | .join =>
    if s.pc = .pass ∧ ∀ t ∈ s.tasks, t.Finished then
      let (buffers, frontier) := transfers s.shared.buffers s.frontier.clear threads
      some { s with shared := { s.shared with buffers }, frontier, tasks := [], pc := .head }
    else none
  | .exit =>
    if s.pc = .head ∧ s.frontier.next = 0 then
      some { s with pc := .done (countVisited s.shared.visited g.nbNodes) }
    else none

end GraphBenchmark
