import GraphBenchmark.Bandwidth.Launch

/-! # The generators of the workers

`create_thread_info` seeds the generator of the main thread `threads` times. A worker starts with a generator of its
own, which is `0` and stays `0`. -/
namespace GraphBenchmark
open Interleaving
set_option autoImplicit false

variable {o : BwOptions} {libs : BwLibs} {hub : Hub}

/-! ## Stuck at zero -/

theorem lehmer64_zero : lehmer64 0 = (0, 0) := by decide

theorem slotOf_zero (srmode : SRMode) (accessCount i : UInt64) : (slotOf srmode accessCount i 0).2 = 0 := by
  cases srmode with
  | seq => rfl
  | random => exact congrArg Prod.snd lehmer64_zero

theorem drawsOf_zero {srmode : SRMode} {v : UInt64} (h : v ∈ drawsOf srmode 0) : v = 0 := by
  cases srmode with
  | seq => cases h
  | random => exact (List.mem_singleton.mp h).trans (congrArg Prod.fst lehmer64_zero)

/-- No worker has another generator than `0`, or has drawn another number than `0`. -/
def Stuck (s : BwState) : Prop := ∀ t, s.lehmer t = 0 ∧ ∀ v ∈ s.draws t, v = 0

theorem workerStep_generator {s s' : BwState} {t : ℕ} (h : workerStep o hub s t = some s') :
    (s'.lehmer = s.lehmer ∧ s'.draws = s.draws) ∨
      ∃ i, s'.lehmer = Function.update s.lehmer t (slotOf o.srmode s.accessCount i (s.lehmer t)).2 ∧
        s'.draws = Function.update s.draws t (s.draws t ++ drawsOf o.srmode (s.lehmer t)) := by
  cases workerStep_move h with
  | access hpc hi hinfo => exact Or.inr ⟨_, rfl, rfl⟩
  | _ => exact Or.inl ⟨rfl, rfl⟩

theorem stuck_step {s s' : BwState} {a : BwAct} (h : Stuck s) (hstep : bwMain o libs hub s a = some s') : Stuck s' := by
  intro u
  cases a with
  | main =>
    obtain ⟨-, -, hdraws, ⟨-, hlehmer⟩ | ⟨i, -, -, hlehmer⟩⟩ := mainStep_cases hstep
    · rw [hlehmer, hdraws]
      exact h u
    · rw [hlehmer, hdraws]
      refine ⟨?_, (h u).2⟩
      by_cases hui : u = i
      · rw [hui, Function.update_self]
      · rw [Function.update_of_ne hui]
        exact (h u).1
  | worker t =>
    rcases workerStep_generator hstep with ⟨hlehmer, hdraws⟩ | ⟨i, hlehmer, hdraws⟩
    · rw [hlehmer, hdraws]
      exact h u
    · rw [hlehmer, hdraws]
      by_cases hut : u = t
      · subst hut
        rw [Function.update_self, Function.update_self, (h u).1]
        refine ⟨slotOf_zero _ _ _, fun v hv => ?_⟩
        rcases List.mem_append.mp hv with hv | hv
        · exact (h u).2 v hv
        · exact drawsOf_zero hv
      · rw [Function.update_of_ne hut, Function.update_of_ne hut]
        exact h u
  | wake t =>
    obtain ⟨b, -, rfl⟩ := Option.map_eq_some_iff.mp hstep
    exact h u

/-- Whatever the seeds are, the workers draw nothing but zeros. -/
theorem stuck_reach {s : BwState} (h : Reach (bwMain o libs hub) BwState.init s) : Stuck s :=
  h.invariant (fun _ => ⟨rfl, fun _ hv => absurd hv List.not_mem_nil⟩) fun _ _ _ hu ha => stuck_step hu ha

/-! ## Generators of their own -/

/-- In every run, each worker with a seed other than `0` keeps its generator off `0`, and its `n`-th number is made of
the high bits of the seed times the `n`-th power of the multiplier. -/
def OwnGenerators (o : BwOptions) (libs : BwLibs) (hub : Hub) : Prop :=
  ∀ s, Reach (bwMain o libs hub) BwState.init s → ∀ t < o.threads,
    libs.rand (UInt32.ofNat t) ≠ 0 →
      (s.pc t ≠ .absent → s.lehmer t ≠ 0) ∧
        ∀ n, 1 ≤ n → ∀ v, (s.draws t)[n - 1]? = some v →
          v.toNat = (initSeed libs.rand (UInt32.ofNat t)).toNat * 0xda942042e4dd58b5 ^ n % 2 ^ 128 / 2 ^ 64

/-- The workers have generators of their own only when there is none whose seed is not `0`, or the program dies before
it launches them. -/
theorem ownGenerators_iff :
    OwnGenerators o libs hub ↔
      (∀ t < o.threads, libs.rand (UInt32.ofNat t) = 0) ∨
        createBufferSize o.size / UInt64.ofNat o.threads / o.accessSize = 0 := by
  constructor
  · intro h
    by_contra hnot
    obtain ⟨hseed, hcount⟩ := not_or.mp hnot
    obtain ⟨t, ht⟩ := not_forall.mp hseed
    obtain ⟨hlt, hne⟩ := Classical.not_imp.mp ht
    have hsome : createdInfo o libs ≠ none := fun hnone => hcount (createThreadInfo_eq_none_iff.mp hnone)
    obtain ⟨setup, hsetup⟩ := Option.ne_none_iff_exists'.mp hsome
    -- the worker has just been created
    have hs := (reach_launched hub hsetup (show t + 1 ≤ o.threads from hlt)).of_provided
    have hpc : (launched setup (t + 1)).pc t = .entry := if_pos (Nat.lt_succ_self t)
    exact (h _ hs t hlt hne).1 (by rw [hpc]; simp) (stuck_reach hs t).1
  · rintro (hseed | hcount) s hs t ht hne
    · exact absurd (hseed t ht) hne
    · obtain ⟨habsent, hnodraws⟩ := absent_of_died (createThreadInfo_eq_none_iff.mpr hcount) hs t
      refine ⟨fun hpc => absurd habsent hpc, fun n _ v hv => ?_⟩
      rw [hnodraws] at hv
      cases hv

/-- One worker with the seed `1`. -/
theorem not_ownGenerators_single :
    ¬ OwnGenerators ⟨4096, 1, .random, .grouped, 64, 8⟩ ⟨0x10000, fun _ => 0x1000, fun _ => 1⟩ .read := by
  intro h
  have hrun : (List.replicate 2 .main : List BwAct).foldlM
      (bwMain ⟨4096, 1, .random, .grouped, 64, 8⟩ ⟨0x10000, fun _ => 0x1000, fun _ => 1⟩ .read) BwState.init = some _ := rfl
  exact (h _ (Reach.of_foldlM hrun) 0 (by decide) (by decide)).1 (by decide) rfl

end GraphBenchmark
