import GraphBenchmark.Pebs.Collecting

/-! # The end of the sampling thread

Once `should_terminate` is set the thread goes through the rings it has still before it and ends, however much the
kernel sides publish meanwhile; so `pthread_join` comes back. This is about runs in which each sample taken up lies in
one piece: the address of one that goes round the end of its ring is read behind the mapping, where the thread can
fault. -/
namespace GraphBenchmark
open Interleaving Tagged
set_option autoImplicit false

def SamplerAct.isCollect : SamplerAct → Bool
  | .collect => true
  | _ => false

/-- The steps of the body from here on, at most. -/
def CollectPc.ahead : CollectPc → ℕ
  | .poll => 7
  | .type _ => 6
  | .addr _ => 5
  | .ip _ _ => 4
  | .push _ _ => 3
  | .size _ => 2
  | .advance _ => 1
  | .test | .done => 0

/-- Whether the body may still append an address. -/
def CollectPc.mayPush : CollectPc → ℕ
  | .poll | .type _ | .addr _ | .ip _ _ | .push _ _ => 1
  | _ => 0

namespace SamplerPc
variable (ncores : ℕ)

/-- The steps the thread has before it once `should_terminate` is set, at most. -/
def ahead : SamplerPc → ℕ
  | .test => 1
  | .ring i pc => pc.ahead + 7 * (ncores - 1 - i) + 1
  | .done => 0

/-- The addresses it may still append. -/
def mayPush : SamplerPc → ℕ
  | .ring i pc => pc.mayPush + (ncores - 1 - i)
  | _ => 0

end SamplerPc

section Body
variable {p q : PerfState}

/-- One step of the body. -/
theorem collectNext_ahead (hp : p.collect ≠ .test) (h : p.collectNext = some q) :
    q.collect.ahead < p.collect.ahead ∧
      q.sampledAddress.length + q.collect.mayPush ≤ p.sampledAddress.length + p.collect.mayPush := by
  unfold PerfState.collectNext at h
  cases hpc : p.collect with
  | test => exact absurd hpc hp
  | done => simp [hpc] at h
  | poll =>
    simp only [hpc, Option.some.injEq] at h
    subst h
    dsimp only
    split <;> simp [CollectPc.ahead, CollectPc.mayPush]
  | type off =>
    simp only [hpc, Option.some.injEq] at h
    subst h
    dsimp only
    split <;> simp [CollectPc.ahead, CollectPc.mayPush]
  | _ =>
    simp only [hpc, Option.some.injEq] at h
    subst h
    simp [CollectPc.ahead, CollectPc.mayPush]

theorem collectNext_isSome (p : PerfState) (hp : p.collect ≠ .done) : ∃ q, p.collectNext = some q := by
  unfold PerfState.collectNext
  cases hpc : p.collect with
  | done => exact absurd hpc hp
  | _ => exact ⟨_, rfl⟩

end Body

section Sampler
variable {ncores : ℕ} {s s' : SamplerState}

/-- Behind a step of the body. -/
theorem behind_ahead (ncores i : ℕ) (c : CollectPc) :
    (SamplerPc.behind ncores i c).ahead ncores ≤ c.ahead + 7 * (ncores - 1 - i) + 1 ∧
      (SamplerPc.behind ncores i c).mayPush ncores ≤ c.mayPush + (ncores - 1 - i) := by
  cases c with
  | test =>
    simp only [SamplerPc.behind]
    split
    · simp only [SamplerPc.ahead, SamplerPc.mayPush, CollectPc.ahead, CollectPc.mayPush]
      omega
    · simp [SamplerPc.ahead, SamplerPc.mayPush]
  | _ => simp [SamplerPc.behind, SamplerPc.ahead, SamplerPc.mayPush]

theorem sampler_step {a : SamplerAct} (hplaced : s.pc.Placed ncores) (hterm : s.shouldTerminate = true)
    (hs : cacheCollectSample ncores s a = some s') :
    s'.shouldTerminate = true ∧ s'.pc.ahead ncores + a.isCollect.toNat ≤ s.pc.ahead ncores ∧
      s'.sampled.length + s'.pc.mayPush ncores ≤ s.sampled.length + s.pc.mayPush ncores := by
  cases a with
  | output j r | store j =>
    simp only [cacheCollectSample] at hs
    split at hs
    · obtain ⟨p, -, rfl⟩ := Option.map_eq_some_iff.mp hs
      exact ⟨hterm, le_rfl, le_rfl⟩
    · cases hs
  | terminate =>
    obtain rfl := Option.some.inj hs
    exact ⟨rfl, le_rfl, le_rfl⟩
  | collect =>
    simp only [cacheCollectSample, SamplerState.collectNext] at hs
    cases hpc : s.pc with
    | test =>
      rw [hpc] at hs
      obtain rfl := Option.some.inj hs
      simp [hterm, SamplerPc.ahead, SamplerPc.mayPush, SamplerAct.isCollect]
    | ring j pc =>
      rw [hpc] at hs
      obtain ⟨p, hp, rfl⟩ := Option.map_eq_some_iff.mp hs
      obtain ⟨hj, htest, -⟩ := hplaced j pc hpc
      obtain ⟨hahead, hpush⟩ := collectNext_ahead (p := s.body j pc) htest hp
      obtain ⟨hbehind, hbehind'⟩ := behind_ahead ncores j p.collect
      have hbody : (s.body j pc).sampledAddress.length = 0 := rfl
      have hcollect : (s.body j pc).collect = pc := rfl
      rw [hbody, hcollect] at hpush
      rw [hcollect] at hahead
      refine ⟨hterm, ?_, ?_⟩
      · show (SamplerPc.behind ncores j p.collect).ahead ncores + 1 ≤ pc.ahead + 7 * (ncores - 1 - j) + 1
        omega
      · show (s.sampled ++ p.sampledAddress.map (Prod.mk j)).length + (SamplerPc.behind ncores j p.collect).mayPush ncores ≤
          s.sampled.length + (pc.mayPush + (ncores - 1 - j))
        rw [List.length_append, List.length_map]
        omega
    | done =>
      rw [hpc] at hs
      cases hs

theorem sampler_run {as : List SamplerAct} (hplaced : s.pc.Placed ncores) (hterm : s.shouldTerminate = true)
    (hrun : as.foldlM (provided ringInOnePiece (cacheCollectSample ncores)) s = some s') :
    s'.pc.Placed ncores ∧ s'.pc.ahead ncores + as.countP SamplerAct.isCollect ≤ s.pc.ahead ncores ∧
      s'.sampled.length + s'.pc.mayPush ncores ≤ s.sampled.length + s.pc.mayPush ncores := by
  induction as generalizing s with
  | nil =>
    obtain rfl : s = s' := by simpa using hrun
    exact ⟨hplaced, le_rfl, le_rfl⟩
  | cons a as ih =>
    rw [List.foldlM_cons] at hrun
    obtain ⟨u, hu, hrun⟩ := Option.bind_eq_some_iff.mp hrun
    have hstep := (provided_eq_some.mp hu).2
    obtain ⟨hterm', hahead, hpush⟩ := sampler_step hplaced hterm hstep
    obtain ⟨hend, hahead', hpush'⟩ := ih (placed_step hplaced hstep) hterm' hrun
    have hcount : (a :: as).countP SamplerAct.isCollect = as.countP SamplerAct.isCollect + a.isCollect.toNat := by
      rw [List.countP_cons]
      cases a.isCollect <;> rfl
    exact ⟨hend, by omega, by omega⟩

theorem sampler_bounds {pc : SamplerPc} (hplaced : pc.Placed ncores) :
    pc.ahead ncores ≤ 7 * ncores + 1 ∧ pc.mayPush ncores ≤ ncores := by
  cases pc with
  | test => simp [SamplerPc.ahead, SamplerPc.mayPush]
  | done => simp [SamplerPc.ahead, SamplerPc.mayPush]
  | ring i c =>
    obtain ⟨hi, -, -⟩ := hplaced i c rfl
    have hahead : c.ahead ≤ 7 := by cases c <;> simp [CollectPc.ahead]
    have hpush : c.mayPush ≤ 1 := by cases c <;> simp [CollectPc.mayPush]
    simp only [SamplerPc.ahead, SamplerPc.mayPush]
    omega

theorem loads_mem_perfEvents {p : PerfState} {e : PerfEvent} (h : e ∈ loads p.collect) :
    e ∈ perfEvents p .collect := by
  unfold perfEvents
  cases hpc : p.collect with
  | type off =>
    rw [hpc] at h
    exact List.mem_append_left _ h
  | push off vaddr =>
    rw [hpc] at h
    exact absurd h List.not_mem_nil
  | _ =>
    rw [hpc] at h
    exact h

/-- The bytes that the next step reads lie in the data area of their ring. -/
def SamplerState.ReadsInside (s : SamplerState) : Prop :=
  ∀ i pc, s.pc = .ring i pc → pc.access.1 + pc.access.2 ≤ dataSize

/-- What the step reads is in its record, and there are only offsets of the data area there. -/
theorem readsInside_of_step {cells : ℕ → ℕ → UInt8} {t : SamplerState}
    (h : Reach (provided ringInOnePiece (cacheCollectSample ncores)) (SamplerState.init cells) s)
    (hok : ringInOnePiece s .collect = true) (ht : cacheCollectSample ncores s .collect = some t) : s.ReadsInside := by
  intro i pc hpc
  obtain ⟨log, hlog⟩ := h.logged samplerEvents []
  have hnext : Reach (logged samplerEvents (provided ringInOnePiece (cacheCollectSample ncores)))
      (SamplerState.init cells, []) (t, log ++ samplerEvents s .collect) :=
    hlog.tail (a := .collect) (logged_eq_some.mpr ⟨provided_eq_some.mpr ⟨hok, ht⟩, rfl⟩)
  have hinside := (perfInv_of_reach ((ringRun_reach hnext).2 i)).inOrder.inside
  rcases Nat.eq_zero_or_pos pc.access.2 with hzero | hpos
  · cases pc <;> first | exact Nat.zero_le _ | exact absurd hzero nofun
  · have hload : PerfEvent.load (pc.access.1 + (pc.access.2 - 1)) ∈ loads (s.body i pc).collect :=
      mem_loads.mpr ⟨Nat.le_add_right _ _, by show _ < pc.access.1 + pc.access.2; omega⟩
    have hevent : samplerEvents s .collect = (perfEvents (s.body i pc) .collect).map (Prod.mk i) := by
      simp [samplerEvents, hpc]
    have hlt := hinside _ (by
      rw [hevent, ofSource_append_own]
      exact List.mem_append_right _ (loads_mem_perfEvents hload))
    omega

/-- Whatever the kernel sides do once `should_terminate` is set, as long as each sample taken up lies in one piece: the
thread makes at most `7 * NCORES + 1` more steps and appends at most `NCORES` more addresses, and until it ends it can
always make its next step, which reads inside its ring. -/
theorem cacheCollectSample_stops {cells : ℕ → ℕ → UInt8} (as : List SamplerAct)
    (h : Reach (provided ringInOnePiece (cacheCollectSample ncores)) (SamplerState.init cells) s)
    (hterm : s.shouldTerminate = true)
    (hrun : as.foldlM (provided ringInOnePiece (cacheCollectSample ncores)) s = some s') :
    as.countP SamplerAct.isCollect ≤ 7 * ncores + 1 ∧ s'.sampledAddress.length ≤ s.sampledAddress.length + ncores ∧
      (s'.pc ≠ .done → ringInOnePiece s' .collect = true →
        s'.ReadsInside ∧ ∃ t, cacheCollectSample ncores s' .collect = some t) := by
  have hplaced : s.pc.Placed ncores :=
    h.of_provided.invariant (P := fun s => s.pc.Placed ncores) nofun fun _ _ _ hu ha => placed_step hu ha
  obtain ⟨hend, hahead, hpush⟩ := sampler_run hplaced hterm hrun
  obtain ⟨hbound, hbound'⟩ := sampler_bounds hplaced
  refine ⟨by omega, ?_, fun hne hok => ?_⟩
  · simp only [SamplerState.sampledAddress, List.length_map]
    omega
  · have hstep : ∃ t, cacheCollectSample ncores s' .collect = some t := by
      cases hpc : s'.pc with
      | test => exact ⟨_, by simp [cacheCollectSample, SamplerState.collectNext, hpc]; rfl⟩
      | done => exact absurd hpc hne
      | ring i c =>
        obtain ⟨-, -, hdone⟩ := hend i c hpc
        obtain ⟨q, hq⟩ := collectNext_isSome (s'.body i c) hdone
        exact ⟨_, by simp [cacheCollectSample, SamplerState.collectNext, hpc, hq]; rfl⟩
    obtain ⟨t, ht⟩ := hstep
    exact ⟨readsInside_of_step (h.trans (Reach.of_foldlM hrun)) hok ht, t, ht⟩

/-- The flag is set while the thread is at the first of three rings, where a record waits for it. -/
theorem cacheCollectSample_stops_three : ∃ s s' : SamplerState,
    Reach (provided ringInOnePiece (cacheCollectSample 3)) (SamplerState.init fun _ _ => 0) s ∧
    (List.replicate 10 .collect).foldlM (provided ringInOnePiece (cacheCollectSample 3)) s = some s' ∧
      s'.pc = .done ∧ s'.sampledAddress.length ≤ s.sampledAddress.length + 3 := by
  have hrun : ([.output 0 (.sample 0 5 7)] ++ List.replicate 25 (.store 0) ++ [.collect, .terminate] :
      List SamplerAct).foldlM (provided ringInOnePiece (cacheCollectSample 3)) (SamplerState.init fun _ _ => 0) =
        some _ := rfl
  have hreach := Reach.of_foldlM hrun
  exact ⟨_, _, hreach, rfl, rfl, (cacheCollectSample_stops (List.replicate 10 .collect) hreach rfl rfl).2.1⟩

end Sampler

end GraphBenchmark
