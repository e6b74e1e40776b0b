import GraphBenchmark.Model.Collect
import GraphBenchmark.Pebs.InOrder

/-! # The rings of all cores

What the thread does at one ring is, seen from there, a run of the reader of a single ring: so what holds of the single
ring in every run holds of each of them. -/
namespace GraphBenchmark
open Interleaving Tagged
set_option autoImplicit false

/-! ## The body at one ring -/

section Body
variable {p q : PerfState}

theorem collectNext_frame (p : PerfState) (hp : p.collect ≠ .test) (l : List UInt64) (b : Bool) :
    PerfState.collectNext { p with sampledAddress := l ++ p.sampledAddress, shouldTerminate := b } =
      p.collectNext.map fun q => { q with sampledAddress := l ++ q.sampledAddress, shouldTerminate := b } := by
  unfold PerfState.collectNext
  cases hpc : p.collect with
  | test => exact absurd hpc hp
  | push off vaddr => simp [List.append_assoc]
  | _ => rfl

/-- The kernel side takes no part in what the thread does. -/
theorem kernel_frame (p : PerfState) {a : PerfAct} (ha : a ≠ .collect) (hterm : a ≠ .terminate) (c : CollectPc)
    (l : List UInt64) (b : Bool) :
    perf { p with collect := c, sampledAddress := l, shouldTerminate := b } a =
      (perf p a).map fun q => { q with collect := c, sampledAddress := l, shouldTerminate := b } := by
  cases a with
  | output r =>
    simp only [perf]
    cases p.kernel with
    | idle =>
      dsimp only
      split <;> rfl
    | storing r' k => rfl
  | store =>
    simp only [perf, PerfState.storeNext]
    cases p.kernel with
    | idle => rfl
    | storing r k =>
      dsimp only
      split <;> rfl
  | collect => exact absurd rfl ha
  | terminate => exact absurd rfl hterm

theorem collectNext_ne_done (hp : p.collect ≠ .test) (h : p.collectNext = some q) : q.collect ≠ .done := by
  unfold PerfState.collectNext at h
  cases hpc : p.collect with
  | test => exact absurd hpc hp
  | done => simp [hpc] at h
  | _ =>
    simp only [hpc, Option.some.injEq] at h
    subst h
    dsimp only
    try split
    all_goals exact nofun

end Body

/-! ## Where the thread is -/

/-- The thread is at a ring there is, and inside the body. -/
def SamplerPc.Placed (ncores : ℕ) (pc : SamplerPc) : Prop :=
  ∀ i c, pc = .ring i c → i < ncores ∧ c ≠ .test ∧ c ≠ .done

theorem behind_placed {ncores i : ℕ} {c : CollectPc} (hi : i < ncores) (hc : c ≠ .done) :
    (SamplerPc.behind ncores i c).Placed ncores := by
  intro j d hd
  cases c with
  | test =>
    simp only [SamplerPc.behind] at hd
    split at hd
    · rename_i hlt
      obtain ⟨rfl, rfl⟩ := SamplerPc.ring.inj hd
      exact ⟨hlt, nofun, nofun⟩
    · cases hd
  | done => exact absurd rfl hc
  | _ =>
    obtain ⟨rfl, rfl⟩ := SamplerPc.ring.inj hd
    exact ⟨hi, nofun, nofun⟩

/-- Behind a step of the body at ring `i`, ring `i` sees where the body is, and another ring at most its next test. -/
theorem behind_seenAt_self (ncores i : ℕ) (c : CollectPc) (hc : c ≠ .done) :
    (SamplerPc.behind ncores i c).seenAt i = c := by
  cases c with
  | test =>
    simp only [SamplerPc.behind]
    split
    · simp [SamplerPc.seenAt]
    · rfl
  | done => exact absurd rfl hc
  | _ => simp [SamplerPc.behind, SamplerPc.seenAt]

theorem behind_seenAt_other {ncores i j : ℕ} (c : CollectPc) (hji : j ≠ i) :
    (SamplerPc.behind ncores i c).seenAt j = .test ∨ (SamplerPc.behind ncores i c).seenAt j = .poll := by
  cases c with
  | test =>
    simp only [SamplerPc.behind]
    split
    · simp only [SamplerPc.seenAt]
      split
      · exact Or.inr rfl
      · exact Or.inl rfl
    · exact Or.inl rfl
  | _ => exact Or.inl (if_neg hji.symm)

/-! ## The record of a run -/

/-- What happens in a step, with the core where it happens. -/
def samplerEvents (s : SamplerState) : SamplerAct → List (ℕ × PerfEvent)
  | .store i => (perfEvents (s.body i .test) .store).map (Prod.mk i)
  | .collect =>
    match s.pc with
    | .ring i pc => (perfEvents (s.body i pc) .collect).map (Prod.mk i)
    | _ => []
  | _ => []

/-- The sample whose address is read does not go round the end of its ring. -/
def ringInOnePiece (s : SamplerState) : SamplerAct → Bool
  | .collect =>
    match s.pc with
    | .ring i pc => inOnePiece (s.body i pc) .collect
    | _ => true
  | _ => true

/-! ## One ring of many -/

section View
variable {ncores i j : ℕ} {s s' : SamplerState} {l : List PerfEvent}

/-- The runs that the reader of a single ring can make. -/
abbrev RingRun : PerfState × List PerfEvent → PerfState × List PerfEvent → Prop :=
  Reach (logged perfEvents (provided inOnePiece perf))

theorem RingRun.one {a : PerfAct} {p q : PerfState} (hs : perf p a = some q) (hok : inOnePiece p a = true) :
    RingRun (p, l) (q, l ++ perfEvents p a) :=
  (Reach.refl _ _).tail (a := a) (logged_eq_some.mpr ⟨provided_eq_some.mpr ⟨hok, hs⟩, rfl⟩)

theorem RingRun.same {p q : PerfState} (h : q = p) : RingRun (p, l) (q, l ++ []) := by
  rw [h, List.append_nil]
  exact Reach.refl _ _

/-- A ring where nothing happens, but that the thread may have come to it. -/
theorem RingRun.arrive (hrings : s'.rings i = s.rings i) (hsampled : ofSource i s'.sampled = ofSource i s.sampled)
    (hpc : s.pc.seenAt i = .test) (hpc' : s'.pc.seenAt i = .test ∨ s'.pc.seenAt i = .poll) :
    RingRun (s.view i, l) (s'.view i, l ++ []) := by
  rcases hpc' with hpc' | hpc'
  · refine RingRun.same ?_
    simp only [SamplerState.view, hrings, hsampled, hpc, hpc']
  · have hstep : perf (s.view i) .collect = some (s'.view i) := by
      simp [perf, PerfState.collectNext, SamplerState.view, hrings, hsampled, hpc, hpc']
    have hevents : perfEvents (s.view i) .collect = [] := by
      simp [perfEvents, SamplerState.view, hpc, loads, CollectPc.access]
    rw [← hevents]
    exact RingRun.one hstep (by simp [inOnePiece, SamplerState.view, hpc])

/-- A step of the kernel side of ring `j`. -/
theorem ringRun_kernel {a : PerfAct} {p : PerfState} (hp : perf (s.body j .test) a = some p) (ha : a ≠ .collect)
    (hterm : a ≠ .terminate) (i : ℕ) :
    RingRun (s.view i, l) ((s.setRing j p).view i, l ++ ofSource i ((perfEvents (s.body j .test) a).map (Prod.mk j))) := by
  by_cases hij : i = j
  · subst hij
    rw [ofSource_own]
    have hstep := kernel_frame (s.body i .test) ha hterm (s.pc.seenAt i) (ofSource i s.sampled) false
    rw [hp, Option.map_some] at hstep
    have hview : (s.setRing i p).view i =
        { p with collect := s.pc.seenAt i, sampledAddress := ofSource i s.sampled, shouldTerminate := false } := by
      simp [SamplerState.view, SamplerState.setRing]
    have hok : inOnePiece (s.view i) a = true := by
      cases a with
      | collect => exact absurd rfl ha
      | _ => rfl
    have hevents : perfEvents (s.body i .test) a = perfEvents (s.view i) a := by
      cases a with
      | collect => exact absurd rfl ha
      | _ => rfl
    rw [hevents, hview]
    exact RingRun.one hstep hok
  · rw [ofSource_other hij]
    refine RingRun.same ?_
    simp [SamplerState.view, SamplerState.setRing, Function.update_of_ne hij]

/-- A step of the body at ring `j`. -/
theorem ringRun_body {pc : CollectPc} {p : PerfState} (hpc : s.pc = .ring j pc) (hbody : pc ≠ .test)
    (hok : inOnePiece (s.body j pc) .collect = true) (hp : (s.body j pc).collectNext = some p) (i : ℕ) :
    RingRun (s.view i, l)
      (SamplerState.view
        { s.setRing j p with
          pc := SamplerPc.behind ncores j p.collect
          sampled := s.sampled ++ p.sampledAddress.map (Prod.mk j) } i,
        l ++ ofSource i ((perfEvents (s.body j pc) .collect).map (Prod.mk j))) := by
  have hdone := collectNext_ne_done hbody hp
  by_cases hij : i = j
  · subst hij
    rw [ofSource_own]
    have hview : s.view i =
        { s.body i pc with sampledAddress := ofSource i s.sampled ++ [], shouldTerminate := false } := by
      simp [SamplerState.view, SamplerState.body, hpc, SamplerPc.seenAt]
    have hstep := collectNext_frame (s.body i pc) hbody (ofSource i s.sampled) false
    rw [hp, Option.map_some] at hstep
    have hevents : perfEvents (s.body i pc) .collect = perfEvents (s.view i) .collect := by
      rw [hview]
      rfl
    rw [hevents]
    refine RingRun.one ?_ ?_
    · rw [hview]
      refine hstep.trans (congrArg some ?_)
      simp [SamplerState.view, SamplerState.setRing, behind_seenAt_self ncores i p.collect hdone, ofSource_append_own]
    · rw [hview]
      exact hok
  · rw [ofSource_other hij]
    refine RingRun.arrive ?_ ?_ ?_ (behind_seenAt_other p.collect hij)
    · exact Function.update_of_ne hij _ _
    · exact ofSource_append_other hij _ _
    · rw [hpc]
      exact if_neg (Ne.symm hij)

theorem placed_step {a : SamplerAct} (hplaced : s.pc.Placed ncores) (hs : cacheCollectSample ncores s a = some s') :
    s'.pc.Placed ncores := by
  cases a with
  | output j r | store j =>
    simp only [cacheCollectSample] at hs
    split at hs
    · obtain ⟨p, -, rfl⟩ := Option.map_eq_some_iff.mp hs
      exact hplaced
    · cases hs
  | terminate =>
    obtain rfl := Option.some.inj hs
    exact hplaced
  | collect =>
    simp only [cacheCollectSample, SamplerState.collectNext] at hs
    cases hpc : s.pc with
    | test =>
      rw [hpc] at hs
      obtain rfl := Option.some.inj hs
      intro k c hk
      dsimp only at hk
      split at hk
      · cases hk
      · split at hk
        · rename_i hpos
          obtain ⟨rfl, rfl⟩ := SamplerPc.ring.inj hk
          exact ⟨hpos, nofun, nofun⟩
        · cases hk
    | ring j pc =>
      rw [hpc] at hs
      obtain ⟨p, hp, rfl⟩ := Option.map_eq_some_iff.mp hs
      obtain ⟨hj, htest, -⟩ := hplaced j pc hpc
      exact behind_placed hj (collectNext_ne_done htest hp)
    | done =>
      rw [hpc] at hs
      cases hs

/-- Every step is, seen at each ring, a step of the reader of that ring or none. -/
theorem ringRun_step {a : SamplerAct} (hplaced : s.pc.Placed ncores) (hok : ringInOnePiece s a = true)
    (hs : cacheCollectSample ncores s a = some s') (i : ℕ) :
    RingRun (s.view i, l) (s'.view i, l ++ ofSource i (samplerEvents s a)) := by
  cases a with
  | output j r | store j =>
    simp only [cacheCollectSample] at hs
    split at hs
    · obtain ⟨p, hp, rfl⟩ := Option.map_eq_some_iff.mp hs
      exact ringRun_kernel hp nofun nofun i
    · cases hs
  | terminate =>
    obtain rfl := Option.some.inj hs
    exact RingRun.same rfl
  | collect =>
    simp only [cacheCollectSample, SamplerState.collectNext] at hs
    cases hpc : s.pc with
    | test =>
      rw [hpc] at hs
      obtain rfl := Option.some.inj hs
      have hevents : samplerEvents s .collect = [] := by simp [samplerEvents, hpc]
      rw [hevents]
      refine RingRun.arrive rfl rfl (by rw [hpc]; rfl) ?_
      dsimp only
      split
      · exact Or.inl rfl
      · split
        · simp only [SamplerPc.seenAt]
          split
          · exact Or.inr rfl
          · exact Or.inl rfl
        · exact Or.inl rfl
    | ring j pc =>
      rw [hpc] at hs
      obtain ⟨p, hp, rfl⟩ := Option.map_eq_some_iff.mp hs
      have hbody : inOnePiece (s.body j pc) .collect = true := by simpa [ringInOnePiece, hpc] using hok
      have hevents : samplerEvents s .collect = (perfEvents (s.body j pc) .collect).map (Prod.mk j) := by
        simp [samplerEvents, hpc]
      rw [hevents]
      exact ringRun_body hpc (hplaced j pc hpc).2.1 hbody hp i
    | done =>
      rw [hpc] at hs
      cases hs

end View

/-! ## The runs -/

section Runs
variable {ncores : ℕ} {cells : ℕ → ℕ → UInt8} {s s' : SamplerState} {log : List (ℕ × PerfEvent)}

theorem ringRun_reach
    (h : Reach (logged samplerEvents (provided ringInOnePiece (cacheCollectSample ncores))) (SamplerState.init cells, [])
      (s, log)) :
    s.pc.Placed ncores ∧ ∀ i, RingRun (PerfState.init (cells i), []) (s.view i, ofSource i log) := by
  refine h.invariant
    (P := fun p => p.1.pc.Placed ncores ∧ ∀ i, RingRun (PerfState.init (cells i), []) (p.1.view i, ofSource i p.2))
    ⟨nofun, fun i => Reach.refl _ _⟩ fun u a v ⟨hplaced, hu⟩ hv => ?_
  obtain ⟨hstep, hlog⟩ := logged_eq_some.mp hv
  obtain ⟨hok, hs⟩ := provided_eq_some.mp hstep
  refine ⟨placed_step hplaced hs, fun i => ?_⟩
  rw [hlog, ofSource_append]
  exact (hu i).trans (ringRun_step hplaced hok hs i)

/-- An address is appended at the ring where the thread is. -/
theorem sampled_step {a : SamplerAct} (hplaced : s.pc.Placed ncores) (hs : cacheCollectSample ncores s a = some s')
    (h : ∀ p ∈ s.sampled, p.1 < ncores) : ∀ p ∈ s'.sampled, p.1 < ncores := by
  cases a with
  | output j r | store j =>
    simp only [cacheCollectSample] at hs
    split at hs
    · obtain ⟨q, -, rfl⟩ := Option.map_eq_some_iff.mp hs
      exact h
    · cases hs
  | terminate =>
    obtain rfl := Option.some.inj hs
    exact h
  | collect =>
    simp only [cacheCollectSample, SamplerState.collectNext] at hs
    cases hpc : s.pc with
    | test =>
      rw [hpc] at hs
      obtain rfl := Option.some.inj hs
      exact h
    | ring j pc =>
      rw [hpc] at hs
      obtain ⟨q, -, rfl⟩ := Option.map_eq_some_iff.mp hs
      intro p hp
      rcases List.mem_append.mp hp with hp | hp
      · exact h p hp
      · obtain ⟨x, -, rfl⟩ := List.mem_map.mp hp
        exact (hplaced j pc hpc).1
    | done =>
      rw [hpc] at hs
      cases hs

/-- For any number of cores and in every interleaving of their kernel sides with the thread: as long as each sample that
is taken up lies in one piece, the addresses from each core are those of its records taken up, in their order, and
`sampled_address` is an interleaving of these. -/
theorem cacheCollectSample_inOrder
    (h : Reach (logged samplerEvents (provided ringInOnePiece (cacheCollectSample ncores))) (SamplerState.init cells, [])
      (s, log)) :
    (∀ p ∈ s.sampled, p.1 < ncores) ∧ ∀ i, InOrder (s.view i) (ofSource i log) := by
  refine ⟨?_, fun i => (perfInv_of_reach ((ringRun_reach h).2 i)).inOrder⟩
  have hinv : s.pc.Placed ncores ∧ ∀ p ∈ s.sampled, p.1 < ncores := by
    refine h.invariant (P := fun p => p.1.pc.Placed ncores ∧ ∀ q ∈ p.1.sampled, q.1 < ncores)
      ⟨nofun, nofun⟩ fun u a v ⟨hplaced, hu⟩ hv => ?_
    obtain ⟨hstep, -⟩ := logged_eq_some.mp hv
    obtain ⟨-, hs⟩ := provided_eq_some.mp hstep
    exact ⟨placed_step hplaced hs, sampled_step hplaced hs hu⟩
  exact hinv.2

/-- Two cores; the second one publishes a sample, and the thread goes through both rings. -/
theorem cacheCollectSample_inOrder_two : ∃ s log,
    Reach (logged samplerEvents (provided ringInOnePiece (cacheCollectSample 2))) (SamplerState.init fun _ _ => 0, [])
      (s, log) ∧ s.sampledAddress = [7] ∧ InOrder (s.view 1) (ofSource 1 log) := by
  have hrun : ([.output 1 (.sample 0 5 7)] ++ List.replicate 25 (.store 1) ++ List.replicate 9 .collect :
      List SamplerAct).foldlM (logged samplerEvents (provided ringInOnePiece (cacheCollectSample 2)))
      (SamplerState.init fun _ _ => 0, []) = some _ := rfl
  have hreach := Reach.of_foldlM hrun
  exact ⟨_, _, hreach, rfl, (cacheCollectSample_inOrder hreach).2 1⟩

end Runs

end GraphBenchmark
