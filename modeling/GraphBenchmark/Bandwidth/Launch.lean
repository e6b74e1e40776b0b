import GraphBenchmark.Model.BwMain
import GraphBenchmark.Bandwidth.Barrier
import GraphBenchmark.Bandwidth.Slots

/-! # The workers of the bandwidth program

Nobody calls `barrier_init`, so the global barrier keeps the count `0` it starts with and the first worker to cross
it goes through alone. -/
namespace GraphBenchmark
open Interleaving
set_option autoImplicit false

variable {o : BwOptions} {libs : BwLibs} {hub : Hub}

/-! ## Steps -/

/-- What a step of the main thread can do. -/
inductive MainMove (o : BwOptions) (libs : BwLibs) (s : BwState) : BwState → Prop
  | die (hmain : s.main = .create) (hnone : createdInfo o libs = none) : MainMove o libs s { s with main := .died }
  | create {setup : Setup} (hmain : s.main = .create) (hsetup : createdInfo o libs = some setup) :
    MainMove o libs s
      { s with
        main := .launch 0, accessCount := setup.accessCount, infos := setup.infos, mainLehmer := setup.lehmer }
  | launch {i : ℕ} (hmain : s.main = .launch i) (hi : i < o.threads) :
    MainMove o libs s
      { s with main := .launch (i + 1), pc := Function.update s.pc i .entry, lehmer := Function.update s.lehmer i 0 }
  | launched {i : ℕ} (hmain : s.main = .launch i) (hi : ¬ i < o.threads) : MainMove o libs s { s with main := .join 0 }
  | join {i : ℕ} (hmain : s.main = .join i) (hi : i < o.threads) (hdone : s.pc i = .done) :
    MainMove o libs s { s with main := .join (i + 1) }
  | finish {i : ℕ} (hmain : s.main = .join i) (hi : ¬ i < o.threads) : MainMove o libs s { s with main := .finished }

theorem mainStep_move {s s' : BwState} (h : mainStep o libs s = some s') : MainMove o libs s s' := by
  unfold mainStep at h
  split at h
  · rename_i hmain
    split at h
    · rename_i hnone
      exact Option.some.inj h ▸ .die hmain hnone
    · rename_i hsetup
      exact Option.some.inj h ▸ .create hmain hsetup
  · rename_i hmain
    split at h
    · rename_i hi
      exact Option.some.inj h ▸ .launch hmain hi
    · rename_i hi
      exact Option.some.inj h ▸ .launched hmain hi
  · rename_i hmain
    split at h
    · rename_i hi
      split at h
      · rename_i hdone
        exact Option.some.inj h ▸ .join hmain hi hdone
      · cases h
    · rename_i hi
      exact Option.some.inj h ▸ .finish hmain hi
  · cases h
  · cases h

/-- What a step of worker `t` can do. -/
inductive WorkerMove (o : BwOptions) (hub : Hub) (s : BwState) (t : ℕ) : BwState → Prop
  | enter {b : BarrierState} (hpc : s.pc t = .entry) (hb : s.barrier.start t = some b) :
    WorkerMove o hub s t { s with barrier := b, pc := Function.update s.pc t .cross }
  | leave (hpc : s.pc t = .cross) (hout : s.barrier.pc t = .outside) :
    WorkerMove o hub s t { s with pc := Function.update s.pc t .start }
  | cross {b : BarrierState} (hpc : s.pc t = .cross) (hb : s.barrier.cross t = some b) :
    WorkerMove o hub s t { s with barrier := b }
  | start (hpc : s.pc t = .start) : WorkerMove o hub s t { s with pc := Function.update s.pc t (.access 0) }
  | access {i : ℕ} {info : ThreadInfo} (hpc : s.pc t = .access i) (hi : i < o.nbAccesses.toNat)
      (hinfo : s.infos[t]? = some info) :
    WorkerMove o hub s t
      { s with
        pc := Function.update s.pc t (.access (i + 1))
        lehmer := Function.update s.lehmer t (slotOf o.srmode s.accessCount (UInt64.ofNat i) (s.lehmer t)).2
        copies := Function.update s.copies t (s.copies t ++
          [copyOf hub o.accessSize info (slotOf o.srmode s.accessCount (UInt64.ofNat i) (s.lehmer t)).1])
        draws := Function.update s.draws t (s.draws t ++ drawsOf o.srmode (s.lehmer t)) }
  | done {i : ℕ} (hpc : s.pc t = .access i) (hi : ¬ i < o.nbAccesses.toNat) :
    WorkerMove o hub s t { s with pc := Function.update s.pc t .done }

theorem workerStep_move {s s' : BwState} {t : ℕ} (h : workerStep o hub s t = some s') : WorkerMove o hub s t s' := by
  unfold workerStep at h
  split at h
  · cases h
  · cases h
  · rename_i hpc
    obtain ⟨b, hb, rfl⟩ := Option.map_eq_some_iff.mp h
    exact .enter hpc hb
  · rename_i hpc
    split at h
    · rename_i hout
      exact Option.some.inj h ▸ .leave hpc hout
    · obtain ⟨b, hb, rfl⟩ := Option.map_eq_some_iff.mp h
      exact .cross hpc hb
  · rename_i hpc
    exact Option.some.inj h ▸ .start hpc
  · rename_i i hpc
    split at h
    · rename_i hi
      split at h
      · cases h
      · rename_i info hinfo
        exact Option.some.inj h ▸ .access hpc hi hinfo
    · rename_i hi
      exact Option.some.inj h ▸ .done hpc hi

theorem WorkerMove.ne_absent {s s' : BwState} {t : ℕ} (h : WorkerMove o hub s t s') : s.pc t ≠ .absent := by
  cases h <;> simp [*]

/-- What a step of the main thread does to the workers. -/
theorem mainStep_cases {s s' : BwState} (h : mainStep o libs s = some s') :
    s'.barrier = s.barrier ∧ s'.copies = s.copies ∧ s'.draws = s.draws ∧
      ((s'.pc = s.pc ∧ s'.lehmer = s.lehmer) ∨
        ∃ i, s.main = .launch i ∧ s'.pc = Function.update s.pc i .entry ∧ s'.lehmer = Function.update s.lehmer i 0) := by
  cases mainStep_move h with
  | launch hmain hi => exact ⟨rfl, rfl, rfl, Or.inr ⟨_, hmain, rfl, rfl⟩⟩
  | _ => exact ⟨rfl, rfl, rfl, Or.inl ⟨rfl, rfl⟩⟩

/-- What a step of worker `t` does to the barrier and to the place of the worker. -/
theorem workerStep_cases {s s' : BwState} {t : ℕ} (h : workerStep o hub s t = some s') :
    (s.pc t = .entry ∧ s.barrier.start t = some s'.barrier ∧ s'.pc = Function.update s.pc t .cross) ∨
      (s.pc t = .cross ∧ s.barrier.cross t = some s'.barrier ∧ s'.pc = s.pc) ∨
      (s.pc t ≠ .absent ∧ s.pc t ≠ .entry ∧ s'.barrier = s.barrier ∧
        ∃ p, p ≠ .absent ∧ p ≠ .entry ∧ s'.pc = Function.update s.pc t p) := by
  cases workerStep_move h with
  | enter hpc hb => exact Or.inl ⟨hpc, hb, rfl⟩
  | cross hpc hb => exact Or.inr (Or.inl ⟨hpc, hb, rfl⟩)
  | leave hpc _ => exact Or.inr (Or.inr ⟨by simp [hpc], by simp [hpc], rfl, _, by simp, by simp, rfl⟩)
  | start hpc => exact Or.inr (Or.inr ⟨by simp [hpc], by simp [hpc], rfl, _, by simp, by simp, rfl⟩)
  | access hpc _ _ => exact Or.inr (Or.inr ⟨by simp [hpc], by simp [hpc], rfl, _, by simp, by simp, rfl⟩)
  | done hpc _ => exact Or.inr (Or.inr ⟨by simp [hpc], by simp [hpc], rfl, _, by simp, by simp, rfl⟩)

theorem cross_started {s s' : BarrierState} {t : ℕ} (h : s.cross t = some s') : s'.started = s.started := by
  cases cross_move h <;> rfl

theorem wake_started {s s' : BarrierState} {t : ℕ} (h : s.wake t = some s') : s'.started = s.started := by
  unfold BarrierState.wake at h
  split at h
  · exact Option.some.inj h ▸ rfl
  · cases h

/-! ## Entering the barrier -/

/-- Who has passed the call of `barrier_cross` has made it. -/
def HasEntered (s : BwState) : Prop := ∀ t, s.pc t ≠ .absent → s.pc t ≠ .entry → 1 ≤ s.barrier.started t

theorem hasEntered_step {s s' : BwState} {a : BwAct} (h : HasEntered s) (hstep : bwMain o libs hub s a = some s') :
    HasEntered s' := by
  intro u habsent hentry
  cases a with
  | main =>
    obtain ⟨hbarrier, -, -, ⟨hpc, -⟩ | ⟨i, -, hpc, -⟩⟩ := mainStep_cases hstep
    · rw [hpc] at habsent hentry
      rw [hbarrier]
      exact h u habsent hentry
    · by_cases hui : u = i
      · rw [hpc, hui, Function.update_self] at hentry
        exact absurd rfl hentry
      · rw [hpc, Function.update_of_ne hui] at habsent hentry
        rw [hbarrier]
        exact h u habsent hentry
  | worker t =>
    obtain ⟨-, hstart, hpc⟩ | ⟨-, hcross, hpc⟩ | ⟨hwas, hwas', hbarrier, p, -, -, hpc⟩ := workerStep_cases hstep
    · obtain ⟨-, hb⟩ := start_eq_some hstart
      rw [hb]
      show 1 ≤ Function.update s.barrier.started t (s.barrier.started t + 1) u
      by_cases hut : u = t
      · rw [hut, Function.update_self]
        omega
      · rw [hpc, Function.update_of_ne hut] at habsent hentry
        rw [Function.update_of_ne hut]
        exact h u habsent hentry
    · rw [hpc] at habsent hentry
      rw [cross_started hcross]
      exact h u habsent hentry
    · rw [hbarrier]
      by_cases hut : u = t
      · rw [hut]
        exact h t hwas hwas'
      · rw [hpc, Function.update_of_ne hut] at habsent hentry
        exact h u habsent hentry
  | wake t =>
    obtain ⟨b, hb, rfl⟩ := Option.map_eq_some_iff.mp hstep
    show 1 ≤ b.started u
    rw [wake_started hb]
    exact h u habsent hentry

theorem hasEntered_reach {s : BwState} (h : Reach (bwMain o libs hub) BwState.init s) : HasEntered s :=
  h.invariant (fun _ habsent _ => absurd rfl habsent) fun _ _ _ hu ha => hasEntered_step hu ha

/-- A program that dies in `create_thread_info` has no workers. -/
theorem absent_of_died {s : BwState} (hdie : createdInfo o libs = none)
    (h : Reach (bwMain o libs hub) BwState.init s) (t : ℕ) : s.pc t = .absent ∧ s.draws t = [] := by
  have hinv : (s.main = .create ∨ s.main = .died) ∧ ∀ t, s.pc t = .absent ∧ s.draws t = [] := by
    refine h.invariant (P := fun s => (s.main = .create ∨ s.main = .died) ∧ ∀ t, s.pc t = .absent ∧ s.draws t = [])
      ⟨Or.inl rfl, fun _ => ⟨rfl, rfl⟩⟩ fun u a v hu ha => ?_
    obtain ⟨hmain, hpc⟩ := hu
    cases a with
    | main =>
      cases mainStep_move ha with
      | die hcreate hnone => exact ⟨Or.inr rfl, hpc⟩
      | create hcreate hsetup => rw [hdie] at hsetup; cases hsetup
      | _ hnow => rw [hnow] at hmain; simp at hmain
    | worker t =>
      exact absurd (hpc t).1 (workerStep_move ha).ne_absent
    | wake t =>
      obtain ⟨b, -, rfl⟩ := Option.map_eq_some_iff.mp ha
      exact ⟨hmain, hpc⟩
  exact hinv.2 t

/-! ## The launch loop -/

/-- `k` workers launched, none of which has moved. -/
def launched (setup : Setup) (k : ℕ) : BwState :=
  { BwState.init with
    main := .launch k
    accessCount := setup.accessCount
    infos := setup.infos
    mainLehmer := setup.lehmer
    pc := fun t => if t < k then .entry else .absent }

theorem reach_launched (hub : Hub) {setup : Setup} (hsetup : createdInfo o libs = some setup) {k : ℕ}
    (hk : k ≤ o.threads) :
    Reach (provided (fun _ a => BwAct.calm a) (bwMain o libs hub)) BwState.init (launched setup k) := by
  induction k with
  | zero =>
    refine (Reach.refl _ _).tail (a := .main) (provided_eq_some.mpr ⟨rfl, ?_⟩)
    simp only [bwMain, mainStep, BwState.init, hsetup, launched, Nat.not_lt_zero, if_false]
  | succ k ih =>
    refine (ih (by omega)).tail (a := .main) (provided_eq_some.mpr ⟨rfl, ?_⟩)
    have hpc : Function.update (fun t => if t < k then WorkerPc.entry else .absent) k .entry =
        fun t => if t < k + 1 then WorkerPc.entry else .absent := by
      funext t
      by_cases htk : t = k
      · rw [htk, Function.update_self, if_pos (by omega)]
      · rw [Function.update_of_ne htk]
        simp only [show t < k + 1 ↔ t < k by omega]
    have hlehmer : Function.update (fun _ => (0 : BitVec 128)) k 0 = fun _ => 0 := Function.update_eq_self _ _
    simp only [bwMain, mainStep, launched, BwState.init, if_pos (show k < o.threads by omega), hpc, hlehmer]

/-! ## The first time stamp -/

/-- No worker of the program stores `start_cycle` before all of them have entered `barrier_cross`, in any run without
spurious wake-ups. -/
def StartsTogether (o : BwOptions) (libs : BwLibs) (hub : Hub) : Prop :=
  ∀ s, Reach (provided (fun _ a => BwAct.calm a) (bwMain o libs hub)) BwState.init s →
    ∀ t < o.threads, ∀ u < o.threads, (s.pc t).timed = true → 1 ≤ s.barrier.started u

/-- A single worker launched runs through the barrier by itself. -/
theorem reach_timed (hub : Hub) {setup : Setup} (hsetup : createdInfo o libs = some setup) (hthreads : 1 ≤ o.threads) :
    ∃ s, Reach (provided (fun _ a => BwAct.calm a) (bwMain o libs hub)) BwState.init s ∧ (s.pc 0).timed = true ∧
      s.barrier.started 1 = 0 := by
  have hrun : (List.replicate 9 (.worker 0) : List BwAct).foldlM
      (provided (fun _ a => BwAct.calm a) (bwMain o libs hub)) (launched setup 1) = some _ := rfl
  exact ⟨_, (reach_launched hub hsetup hthreads).trans (Reach.of_foldlM hrun), rfl, rfl⟩

/-- The program starts its workers together only when it has one worker, or none because it dies. -/
theorem startsTogether_iff (hthreads : 1 ≤ o.threads) :
    StartsTogether o libs hub ↔
      o.threads = 1 ∨ createBufferSize o.size / UInt64.ofNat o.threads / o.accessSize = 0 := by
  constructor
  · intro h
    by_contra hnot
    obtain ⟨hne, hcount⟩ := not_or.mp hnot
    have hsome : createdInfo o libs ≠ none := fun hnone => hcount (createThreadInfo_eq_none_iff.mp hnone)
    obtain ⟨setup, hsetup⟩ := Option.ne_none_iff_exists'.mp hsome
    obtain ⟨s, hs, htimed, hstarted⟩ := reach_timed hub hsetup hthreads
    have := h s hs 0 (by omega) 1 (by omega) htimed
    omega
  · rintro (hone | hcount) s hs t ht u hu htimed
    · obtain rfl : u = t := by omega
      refine hasEntered_reach hs.of_provided u ?_ ?_ <;> intro hpc <;> rw [hpc] at htimed <;> cases htimed
    · have hpc := (absent_of_died (createThreadInfo_eq_none_iff.mpr hcount) hs.of_provided t).1
      rw [hpc] at htimed
      cases htimed

theorem startsTogether_single :
    StartsTogether ⟨4096, 1, .seq, .grouped, 64, 8⟩ ⟨0x10000, fun _ => 0x1000, fun _ => 1⟩ .read :=
  (startsTogether_iff (by decide)).mpr (Or.inl rfl)

/-- With two workers the first is alone when it stores its time stamp. -/
theorem not_startsTogether_two :
    ¬ StartsTogether ⟨4096, 2, .seq, .grouped, 64, 8⟩ ⟨0x10000, fun _ => 0x1000, fun _ => 1⟩ .read := by
  intro h
  have hsetup : createdInfo ⟨4096, 2, .seq, .grouped, 64, 8⟩ ⟨0x10000, fun _ => 0x1000, fun _ => 1⟩ = some _ := rfl
  obtain ⟨s, hs, htimed, hstarted⟩ := reach_timed .read hsetup (by decide)
  have := h s hs 0 (by decide) 1 (by decide) htimed
  omega

end GraphBenchmark
