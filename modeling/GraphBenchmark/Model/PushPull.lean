import GraphBenchmark.Model.Pull

/-! # `bfs_pushpull` (`src/bfs.cpp`)

Three systems one after the other: the push phase on the concurrent vectors, which ends on an empty
frontier or with the jump to `PULL`, the loop that enters the frontier into `in_frontier`, and the loop of
`bfs_pull`. A `push_back` on a concurrent vector is one step, and the thread-local counters of
`edges_in_frontier` are kept as their sum. -/
namespace GraphBenchmark
open Interleaving
set_option autoImplicit false

/-! ## The push phase -/

/-- `end-beg`, which wraps where `src+1` does. -/
def Graph.span (g : Graph) (src : UInt32) : UInt64 := g.outEdgeOffsets (src + 1).toNat - g.outEdgeOffsets src.toNat

inductive HybridStage
  | scan
  | pushBack (dst : UInt32)
  | addExplored
  | through
deriving DecidableEq

structure HybridTask where
  indices : List ℕ
  edges : List UInt32
  stage : HybridStage
  localExplored : UInt64
  localEdgesInFrontier : UInt64
deriving DecidableEq

def HybridTask.ofRange (r : BlockedRange) : HybridTask := ⟨r.indices, [], .scan, 0, 0⟩

structure HybridShared where
  visited : ℕ → UInt8
  frontierNext : List UInt32
  edgesInFrontier : UInt64
  explored : UInt64

/-- The body of the `parallel_for`. -/
def hybridBody (g : Graph) (frontier : List UInt32) (s : HybridShared) (t : HybridTask) :
    Option (HybridShared × HybridTask) :=
  match t.stage with
  | .scan =>
    match t.edges, t.indices with
    | dst :: edges, _ =>
      if s.visited dst.toNat = 0 then
        some ({ s with visited := Function.update s.visited dst.toNat 1 }, { t with edges, stage := .pushBack dst })
      else some (s, { t with edges })
    | [], i :: indices =>
      let src := frontier.getD i 0
      some (s, { t with indices, edges := g.outScan src, localExplored := t.localExplored + g.span src })
    | [], [] =>
      some ({ s with edgesInFrontier := s.edgesInFrontier + t.localEdgesInFrontier }, { t with stage := .addExplored })
  | .pushBack dst =>
    some ({ s with frontierNext := s.frontierNext ++ [dst] },
      { t with stage := .scan, localEdgesInFrontier := t.localEdgesInFrontier + g.span dst })
  | .addExplored => some ({ s with explored := s.explored + t.localExplored }, { t with stage := .through })
  | .through => none

inductive HybridPc
  | head
  | ready
  | pass
  | pull
deriving DecidableEq

/-- `level` counts the iterations. -/
structure HybridState where
  shared : HybridShared
  frontier : List UInt32
  level : ℕ
  tasks : List HybridTask
  pc : HybridPc

inductive HybridAct
  | test (b : Bool)
  | fall
  | launch (rs : List BlockedRange)
  | work (i : ℕ)
  | join

/-- The outcome of `edges_in_frontier.combine(+) > NB_EDGES - explored`. -/
def HybridState.switch (g : Graph) (s : HybridState) : Bool :=
  decide (s.shared.edgesInFrontier > UInt64.ofNat g.nbEdges - s.shared.explored)

def HybridState.init (start : UInt32) : HybridState :=
  ⟨⟨Function.update (fun _ => 0) start.toNat 1, [], 0, 0⟩, [start], 0, [], .head⟩

/-- The push phase. With `free` the outcome of the switch test is arbitrary. -/
def hybridPush (g : Graph) (free : Bool) (s : HybridState) : HybridAct → Option HybridState
  | .test b =>
    if s.pc = .head ∧ s.frontier ≠ [] ∧ (free = true ∨ b = s.switch g) then
      some (if b then { s with pc := .pull }
        else { s with shared := { s.shared with edgesInFrontier := 0 }, pc := .ready })
    else none
  | .fall => if s.pc = .head ∧ s.frontier = [] then some { s with pc := .pull } else none
  | .launch rs =>
    if s.pc = .ready ∧ Split s.frontier.length rs then
      some { s with level := s.level + 1, tasks := rs.map HybridTask.ofRange, pc := .pass }
    else none
  | .work i =>
    if s.pc = .pass then
      (work (hybridBody g s.frontier) s.shared s.tasks i).map fun p => { s with shared := p.1, tasks := p.2 }
    else none
  | .join =>
    if s.pc = .pass ∧ ∀ t ∈ s.tasks, t.stage = .through then
      some { s with
        shared := { s.shared with frontierNext := [] }
        frontier := s.shared.frontierNext
        tasks := []
        pc := .head }
    else none

/-! ## The hand-over -/

inductive MarkPc
  | start
  | marking
  | done
deriving DecidableEq

/-- A task is the list of its remaining positions. -/
structure MarkState where
  visited : ℕ → UInt8
  frontier : List UInt32
  inFrontier : ℕ → Bool
  inFrontierNext : ℕ → Bool
  tasks : List (List ℕ)
  pc : MarkPc

inductive MarkAct
  | launch (rs : List BlockedRange)
  | work (i : ℕ)
  | join

/-- `in_frontier[frontier[i]] = true`. -/
def markBody (frontier : List UInt32) (map : ℕ → Bool) (t : List ℕ) : Option ((ℕ → Bool) × List ℕ) :=
  match t with
  | [] => none
  | i :: rest => some (Function.update map (frontier.getD i 0).toNat true, rest)

def markFrontier (s : MarkState) : MarkAct → Option MarkState
  | .launch rs =>
    if s.pc = .start ∧ Split s.frontier.length rs then
      some { s with tasks := rs.map BlockedRange.indices, pc := .marking }
    else none
  | .work i =>
    if s.pc = .marking then
      (work (markBody s.frontier) s.inFrontier s.tasks i).map fun p => { s with inFrontier := p.1, tasks := p.2 }
    else none
  | .join => if s.pc = .marking ∧ ∀ t ∈ s.tasks, t = [] then some { s with tasks := [], pc := .done } else none

/-- At `PULL`: the two maps hold what `malloc` returned. -/
def HybridState.enterMark (mem memNext : ℕ → Bool) (s : HybridState) : Option MarkState :=
  if s.pc = .pull then some ⟨s.shared.visited, s.frontier, mem, memNext, [], .start⟩ else none

def MarkState.enterPull (s : MarkState) : Option PullState :=
  if s.pc = .done then some (PullState.enter s.visited s.inFrontier s.inFrontierNext) else none

abbrev PushPullState := HybridState ⊕ MarkState ⊕ PullState

abbrev PushPullAct := SeqAct HybridAct (SeqAct MarkAct PullAct)

def bfsPushpull (g : Graph) (free : Bool) (mem memNext : ℕ → Bool) : PushPullState → PushPullAct → Option PushPullState :=
  andThen (hybridPush g free) (fun s => (s.enterMark mem memNext).map .inl)
    (andThen markFrontier MarkState.enterPull (pullLoop g))

end GraphBenchmark
