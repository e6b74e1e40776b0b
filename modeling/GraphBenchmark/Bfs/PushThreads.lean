import GraphBenchmark.Bfs.Push

/-! # The thread buffers of `bfs_push`

A push is a read of `next`, a store and a write of `next`, on the buffer `gettid()%THREADS`. As long as
the threads that are inside a task body select different buffers, no claimed vertex is lost
(`bfsPush_claimed`); thread ids that agree modulo `THREADS` lose one (`lossyRun`). -/
namespace GraphBenchmark
open Interleaving
set_option autoImplicit false

/-- The threads inside a task body select different buffers. -/
def PushState.distinctBuffers (threads : ℕ) (s : PushState) : Bool := decide (slotsInUse threads s.tasks).Nodup

variable {g : Graph} {start : UInt32} {threads : ℕ} {s : PushState} {mem : ℕ → UInt32} {bufferMem : ℕ → ℕ → UInt32}

/-- In a run in which running threads never share a buffer, what a pass claimed is in the frontier after
its transfers, each vertex once. -/
theorem bfsPush_claimed (hT : 0 < threads)
    (h : Reach (within (PushState.distinctBuffers threads) (bfsPush g threads .split))
      (PushState.init g start mem bufferMem) s) (hp : s.pc = .head) :
    ∀ v ∈ s.shared.claimed, s.frontier.contents.count v = 1 := by
  have hinv : PushInv g start threads .split s ∧ s.distinctBuffers threads = true := by
    refine h.invariant (P := fun s => PushInv g start threads .split s ∧ s.distinctBuffers threads = true)
      ⟨pushInv_init, rfl⟩ fun u a v ⟨hu, hok⟩ ha => ?_
    obtain ⟨hstep, hok'⟩ := within_eq_some.mp ha
    exact ⟨pushInv_step hT (fun _ => of_decide_eq_true hok) hu hstep, hok'⟩
  obtain ⟨hlevel, hclaimed⟩ := hinv.1.head hp
  intro v hv
  exact List.count_eq_one_of_mem hlevel.nodup (hclaimed v hv)

/-- Two vertices in the second level, with one successor each. -/
def forkGraph : Graph where
  symmetric := false
  nbNodes := 5
  nbEdges := 4
  outEdges x := [1, 2, 3, 4].getD x 0
  outEdgeOffsets i := [0, 2, 3, 4, 4, 4].getD i 0
  inEdges _ := 0
  inEdgeOffsets _ := 0

/-- Two passes: thread `100` executes the first, threads `100` and `tid` share the second, taking their
pushes in turn. -/
def forkRun (tid : ℕ) : List PushAct :=
  [.launch [⟨0, 1⟩], .begin 0 100] ++ List.replicate 11 (.work 0) ++ [.join] ++
    [.launch [⟨0, 1⟩, ⟨1, 2⟩], .begin 0 100, .begin 1 tid] ++ (List.replicate 6 [.work 0, .work 1]).flatten ++ [.join]

/-- The state after the run, in the system whose steps keep `ok`. -/
def forkState (ok : PushState → Bool) (tid : ℕ) : Option PushState :=
  (forkRun tid).foldlM (within ok (bfsPush forkGraph 2 .split)) (PushState.init forkGraph 0 (fun _ => 0) fun _ _ => 0)

theorem bfsPush_claimed_fork :
    ∃ s ∈ forkState (PushState.distinctBuffers 2) 101, 3 ∈ s.shared.claimed ∧ s.frontier.contents.count 3 = 1 := by
  have hrun : (forkState (PushState.distinctBuffers 2) 101).any
      (fun s => decide (s.pc = .head ∧ 3 ∈ s.shared.claimed)) = true := by decide
  obtain ⟨s, hs, hp⟩ := (Option.any_eq_true _ _).mp hrun
  obtain ⟨hhead, hmem⟩ := of_decide_eq_true hp
  exact ⟨s, hs, hmem, bfsPush_claimed (by decide) (Reach.of_foldlM hs) hhead 3 hmem⟩

/-- With ids `100` and `102` they share one, and both store their vertex in its first cell. -/
theorem bfsPush_loses_fork :
    ¬ ∀ (g : Graph) (start : UInt32) (threads : ℕ) (mem : ℕ → UInt32) (bufferMem : ℕ → ℕ → UInt32) (s : PushState),
      0 < threads → Reach (bfsPush g threads .split) (PushState.init g start mem bufferMem) s → s.pc = .head →
      ∀ v ∈ s.shared.claimed, s.frontier.contents.count v = 1 := by
  intro h
  have hrun : (forkState (fun _ => true) 102).any
      (fun s => decide (s.pc = .head ∧ 3 ∈ s.shared.claimed ∧ s.frontier.contents.count 3 = 0)) = true := by decide
  obtain ⟨s, hs, hp⟩ := (Option.any_eq_true _ _).mp hrun
  obtain ⟨hhead, hmem, hcount⟩ := of_decide_eq_true hp
  have := h forkGraph 0 2 _ _ s (by decide) (Reach.of_foldlM hs).of_within hhead 3 hmem
  omega

end GraphBenchmark
