import GraphBenchmark.Bandwidth.Random
import GraphBenchmark.Bandwidth.Wakeups

/-! # The end of the bandwidth program

The count of the global barrier is `0`, so nobody waits in it: each worker gets through, makes its accesses and is
joined. -/
namespace GraphBenchmark
open Interleaving
set_option autoImplicit false

/-! ## The barrier nobody has initialised -/

/-- The thread has given the mutex back, or is about to, to wait. -/
def CrossPc.waits : CrossPc → Bool
  | .wait | .blocked | .woken => true
  | _ => false

/-- The barrier with the count `0`. -/
structure Unattended (b : BarrierState) : Prop where
  count : b.count = 0
  crossed : 0 ≤ b.crossed
  awake : ∀ t, (b.pc t).waits = false
  holder : ∀ t, b.holder = some t ↔ (b.pc t).holds = true

section Barrier
variable {b b' : BarrierState} {t : ℕ}

theorem Unattended.start (h : Unattended b) (hb : b.start t = some b') : Unattended b' := by
  obtain ⟨hpc, rfl⟩ := start_eq_some hb
  refine ⟨h.count, h.crossed, fun u => ?_, fun u => ?_⟩
  · by_cases hut : u = t
    · simp [hut, CrossPc.waits]
    · simp [Function.update_of_ne hut, h.awake u]
  · by_cases hut : u = t
    · have hnot := h.holder t
      simp [hpc, CrossPc.holds] at hnot
      simp [hut, CrossPc.holds, hnot]
    · simp [Function.update_of_ne hut, h.holder u]

/-- Where a thread of this barrier may go. -/
theorem Unattended.move {p : CrossPc} {holder : Option ℕ} (h : Unattended b) (hwaits : p.waits = false)
    (hcount : b'.count = b.count) (hcrossed : 0 ≤ b'.crossed) (hpc : b'.pc = Function.update b.pc t p)
    (hholder : b'.holder = holder) (hown : holder = some t ↔ p.holds = true)
    (hother : ∀ u, u ≠ t → (holder = some u ↔ b.holder = some u)) : Unattended b' := by
  refine ⟨hcount.trans h.count, hcrossed, fun u => ?_, fun u => ?_⟩
  · rw [hpc]
    by_cases hut : u = t
    · simp [hut, hwaits]
    · simp [Function.update_of_ne hut, h.awake u]
  · rw [hpc, hholder]
    by_cases hut : u = t
    · simp [hut, hown]
    · rw [Function.update_of_ne hut, hother u hut]
      exact h.holder u

theorem Unattended.cross (h : Unattended b) (hb : b.cross t = some b') : Unattended b' := by
  have hmine : (b.pc t).holds = true → b.holder = some t := (h.holder t).mpr
  have hkeep : ∀ u, u ≠ t → ((b.pc t).holds = true → (none = some u ↔ b.holder = some u)) := by
    intro u hut hholds
    rw [hmine hholds]
    simp [Ne.symm hut]
  cases cross_move hb with
  | lock hpc hfree =>
    refine h.move (t := t) (p := .inc) rfl rfl h.crossed rfl rfl (by simp [CrossPc.holds]) fun u hut => ?_
    simp [hfree, Ne.symm hut]
  | inc hpc =>
    have hcrossed := h.crossed
    refine h.move (t := t) (p := .test) rfl rfl (by simp; omega) rfl rfl ?_ fun u hut => Iff.rfl
    simp [hmine (by simp [hpc, CrossPc.holds]), CrossPc.holds]
  | few hpc hlt =>
    rw [h.count] at hlt
    exact absurd h.crossed (not_le.mpr hlt)
  | all hpc hge =>
    refine h.move (t := t) (p := .broadcast) rfl rfl h.crossed rfl rfl ?_ fun u hut => Iff.rfl
    simp [hmine (by simp [hpc, CrossPc.holds]), CrossPc.holds]
  | wait hpc =>
    have hwaits := h.awake t
    rw [hpc] at hwaits
    cases hwaits
  | woken hpc hfree =>
    have hwaits := h.awake t
    rw [hpc] at hwaits
    cases hwaits
  | broadcast hpc =>
    have hnobody : (fun u => if b.pc u = .blocked then CrossPc.woken else b.pc u) = b.pc := by
      funext u
      refine if_neg fun hu => ?_
      have hwaits := h.awake u
      rw [hu] at hwaits
      cases hwaits
    refine h.move (t := t) (p := .reset) rfl rfl h.crossed ?_ rfl ?_ fun u hut => Iff.rfl
    · simp only [hnobody]
    · simp [hmine (by simp [hpc, CrossPc.holds]), CrossPc.holds]
  | reset hpc =>
    refine h.move (t := t) (p := .unlock) rfl rfl (le_refl 0) rfl rfl ?_ fun u hut => Iff.rfl
    simp [hmine (by simp [hpc, CrossPc.holds]), CrossPc.holds]
  | unlock hpc =>
    refine h.move (t := t) (p := .outside) rfl rfl h.crossed rfl rfl (by simp [CrossPc.holds]) fun u hut => ?_
    exact hkeep u hut (by simp [hpc, CrossPc.holds])

theorem Unattended.wake_eq_none (h : Unattended b) (t : ℕ) : b.wake t = none := by
  refine if_neg fun hpc => ?_
  have hwaits := h.awake t
  rw [hpc] at hwaits
  cases hwaits

/-- A thread in the barrier goes on, or another one that goes on has the mutex. -/
theorem Unattended.exists_cross (h : Unattended b) (ht : b.pc t ≠ .outside) :
    ∃ u, b.pc u ≠ .outside ∧ b.cross u ≠ none := by
  cases hholder : b.holder with
  | none =>
    refine ⟨t, ht, ?_⟩
    have hwaits := h.awake t
    unfold BarrierState.cross
    cases hpc : b.pc t <;> simp_all [CrossPc.waits]
  | some u =>
    have hholds := (h.holder u).mp hholder
    refine ⟨u, fun hu => ?_, cross_isSome_of_holds hholds⟩
    rw [hu] at hholds
    cases hholds

end Barrier

/-! ## The program -/

namespace MainPc

/-- The workers launched. -/
def launched (threads : ℕ) : MainPc → ℕ
  | .create | .died => 0
  | .launch i => i
  | .join _ | .finished => threads

/-- The workers joined. -/
def joined (threads : ℕ) : MainPc → ℕ
  | .join i => i
  | .finished => threads
  | _ => 0

/-- More than the steps the main thread takes until it ends. -/
def ahead (threads : ℕ) : MainPc → ℕ
  | .create => 2 * threads + 4
  | .launch i => threads - i + threads + 3
  | .join i => threads - i + 1
  | .finished | .died => 0

end MainPc

/-- What holds in every state of the program. -/
structure Proceeds (o : BwOptions) (libs : BwLibs) (s : BwState) : Prop where
  barrier : Unattended s.barrier
  outside : ∀ t, s.pc t ≠ .cross → s.barrier.pc t = .outside
  launched : s.main.launched o.threads ≤ o.threads
  absent : ∀ t, s.pc t = .absent ↔ s.main.launched o.threads ≤ t
  joined : ∀ t < s.main.joined o.threads, s.pc t = .done
  died : s.main = .died → createdInfo o libs = none
  infos : s.main ≠ .create → s.main ≠ .died →
    ∃ setup, createdInfo o libs = some setup ∧ s.infos = setup.infos ∧ s.accessCount = setup.accessCount

section Program
variable {o : BwOptions} {libs : BwLibs} {hub : Hub} {s s' : BwState} {t : ℕ}

theorem proceeds_init : Proceeds o libs BwState.init where
  barrier := ⟨rfl, le_refl 0, fun _ => rfl, fun _ => by simp [BwState.init, CrossPc.holds]⟩
  outside := fun _ _ => rfl
  launched := Nat.zero_le _
  absent := fun t => iff_of_true rfl (Nat.zero_le t)
  joined := fun _ ht => absurd ht (Nat.not_lt_zero _)
  died := nofun
  infos := fun h => absurd rfl h

theorem Proceeds.main (h : Proceeds o libs s) (hs : mainStep o libs s = some s') : Proceeds o libs s' := by
  cases mainStep_move hs with
  | die hmain hnone =>
    have habsent := h.absent
    rw [hmain] at habsent
    exact ⟨h.barrier, h.outside, Nat.zero_le _, habsent, nofun, fun _ => hnone, fun _ hdied => absurd rfl hdied⟩
  | create hmain hsetup =>
    have habsent := h.absent
    rw [hmain] at habsent
    exact ⟨h.barrier, h.outside, Nat.zero_le _, habsent, nofun, nofun, fun _ _ => ⟨_, hsetup, rfl, rfl⟩⟩
  | @launch i hmain hi =>
    have habsent := h.absent
    rw [hmain] at habsent
    refine ⟨h.barrier, fun u hu => ?_, hi, fun u => ?_, nofun, nofun, fun _ _ => ?_⟩
    · by_cases hui : u = i
      · have hpc := (habsent u).mpr (le_of_eq hui.symm)
        exact h.outside u (by simp [hpc])
      · exact h.outside u (by simpa [Function.update_of_ne hui] using hu)
    · show Function.update s.pc i .entry u = .absent ↔ i + 1 ≤ u
      by_cases hui : u = i
      · simp [hui]
      · rw [Function.update_of_ne hui, habsent u, MainPc.launched]
        omega
    · exact h.infos (by simp [hmain]) (by simp [hmain])
  | @launched i hmain hi =>
    have habsent := h.absent
    have hle := h.launched
    rw [hmain] at habsent hle
    obtain rfl : i = o.threads := le_antisymm hle (Nat.le_of_not_lt hi)
    exact ⟨h.barrier, h.outside, le_rfl, habsent, nofun, nofun, fun _ _ => h.infos (by simp [hmain]) (by simp [hmain])⟩
  | @join i hmain hi hdone =>
    have habsent := h.absent
    have hjoined := h.joined
    rw [hmain] at habsent hjoined
    refine ⟨h.barrier, h.outside, le_rfl, habsent, fun u hu => ?_, nofun, fun _ _ => ?_⟩
    · rcases Nat.lt_succ_iff_lt_or_eq.mp hu with hlt | rfl
      · exact hjoined u hlt
      · exact hdone
    · exact h.infos (by simp [hmain]) (by simp [hmain])
  | @finish i hmain hi =>
    have habsent := h.absent
    have hjoined := h.joined
    rw [hmain] at habsent hjoined
    refine ⟨h.barrier, h.outside, le_rfl, habsent, fun u hu => ?_, nofun, fun _ _ => ?_⟩
    · exact hjoined u (lt_of_lt_of_le hu (Nat.le_of_not_lt hi))
    · exact h.infos (by simp [hmain]) (by simp [hmain])

/-- A step of a worker that goes to `p`. -/
theorem Proceeds.work (h : Proceeds o libs s) {p : WorkerPc} (hnow : s.pc t ≠ .absent) (hdone : s.pc t ≠ .done)
    (hp : p ≠ .absent) (hmain : s'.main = s.main) (hinfos : s'.infos = s.infos) (hcount : s'.accessCount = s.accessCount)
    (hpc : s'.pc = Function.update s.pc t p) (hbarrier : Unattended s'.barrier)
    (hother : ∀ u, u ≠ t → s'.barrier.pc u = s.barrier.pc u)
    (hown : p ≠ .cross → s'.barrier.pc t = .outside) : Proceeds o libs s' := by
  refine ⟨hbarrier, fun u hu => ?_, hmain ▸ h.launched, fun u => ?_, fun u hu => ?_, fun hd => h.died (hmain ▸ hd),
    fun hc hd => ?_⟩
  · rw [hpc] at hu
    by_cases hut : u = t
    · subst hut
      rw [Function.update_self] at hu
      exact hown hu
    · rw [Function.update_of_ne hut] at hu
      rw [hother u hut]
      exact h.outside u hu
  · rw [hpc, hmain]
    by_cases hut : u = t
    · subst hut
      rw [Function.update_self, ← h.absent u]
      exact iff_of_false hp hnow
    · rw [Function.update_of_ne hut]
      exact h.absent u
  · rw [hmain] at hu
    have hj := h.joined u hu
    by_cases hut : u = t
    · exact absurd (hut ▸ hj) hdone
    · rw [hpc, Function.update_of_ne hut, hj]
  · rw [hinfos, hcount]
    exact h.infos (hmain ▸ hc) (hmain ▸ hd)

/-- A step in the barrier leaves the other threads where they are, as nobody is blocked there. -/
theorem Unattended.cross_other {b b' : BarrierState} (h : Unattended b) (hb : b.cross t = some b') :
    ∀ u, u ≠ t → b'.pc u = b.pc u := by
  intro u hut
  cases cross_move hb with
  | broadcast hpc =>
    have hwaits := h.awake u
    simp only [Function.update_of_ne hut]
    refine if_neg fun hu => ?_
    rw [hu] at hwaits
    cases hwaits
  | _ => simp [Function.update_of_ne hut]

theorem Proceeds.worker (h : Proceeds o libs s) (hs : workerStep o hub s t = some s') : Proceeds o libs s' := by
  have houtside := h.outside t
  cases workerStep_move hs with
  | enter hpc hb =>
    refine h.work (t := t) (p := .cross) (by simp [hpc]) (by simp [hpc]) nofun rfl rfl rfl rfl (h.barrier.start hb) ?_
      (by simp)
    obtain ⟨-, rfl⟩ := start_eq_some hb
    exact fun u hut => by simp [Function.update_of_ne hut]
  | leave hpc hout =>
    exact h.work (p := .start) (by simp [hpc]) (by simp [hpc]) nofun rfl rfl rfl rfl h.barrier (fun _ _ => rfl)
      fun _ => hout
  | cross hpc hb =>
    refine h.work (t := t) (p := .cross) (by simp [hpc]) (by simp [hpc]) nofun rfl rfl rfl ?_ (h.barrier.cross hb)
      (h.barrier.cross_other hb) (by simp)
    exact (Function.update_eq_self_iff.mpr hpc.symm).symm
  | start hpc =>
    exact h.work (p := .access 0) (by simp [hpc]) (by simp [hpc]) nofun rfl rfl rfl rfl h.barrier (fun _ _ => rfl)
      fun _ => houtside (by simp [hpc])
  | @access i info hpc hi hinfo =>
    exact h.work (p := .access (i + 1)) (by simp [hpc]) (by simp [hpc]) nofun rfl rfl rfl rfl h.barrier (fun _ _ => rfl)
      fun _ => houtside (by simp [hpc])
  | done hpc hi =>
    exact h.work (p := .done) (by simp [hpc]) (by simp [hpc]) nofun rfl rfl rfl rfl h.barrier (fun _ _ => rfl)
      fun _ => houtside (by simp [hpc])

theorem proceeds_step {a : BwAct} (h : Proceeds o libs s) (hs : bwMain o libs hub s a = some s') :
    Proceeds o libs s' := by
  cases a with
  | main => exact h.main hs
  | worker t => exact h.worker hs
  | wake t =>
    rw [bwMain, h.barrier.wake_eq_none t] at hs
    cases hs

/-! ## Every run comes to its end -/

/-- More than the steps a worker takes until it is done, from its place in the program and in the barrier. -/
def WorkerPc.ahead (n : ℕ) (c : CrossPc) : WorkerPc → ℕ
  | .absent => n + 14
  | .entry => n + 13
  | .cross => n + 3 + c.ahead
  | .start => n + 2
  | .access i => n - i + 1
  | .done => 0

/-- The steps left, at most. -/
def BwState.stepsLeft (o : BwOptions) (s : BwState) : ℕ :=
  s.main.ahead o.threads + ∑ t ∈ Finset.range o.threads, (s.pc t).ahead o.nbAccesses.toNat (s.barrier.pc t)

theorem stepsLeft_worker (hmain : s'.main = s.main) (ht : t < o.threads)
    (hother : ∀ u, u ≠ t → s'.pc u = s.pc u ∧ s'.barrier.pc u = s.barrier.pc u)
    (hown : (s'.pc t).ahead o.nbAccesses.toNat (s'.barrier.pc t) < (s.pc t).ahead o.nbAccesses.toNat (s.barrier.pc t)) :
    s'.stepsLeft o < s.stepsLeft o := by
  unfold BwState.stepsLeft
  rw [hmain]
  refine Nat.add_lt_add_left (Finset.sum_lt_sum (fun u _ => ?_) ⟨t, Finset.mem_range.mpr ht, hown⟩) _
  by_cases hut : u = t
  · rw [hut]
    exact hown.le
  · obtain ⟨hpc, hbarrier⟩ := hother u hut
    rw [hpc, hbarrier]

theorem Proceeds.stepsLeft_main (h : Proceeds o libs s) (hs : mainStep o libs s = some s') :
    s'.stepsLeft o < s.stepsLeft o := by
  unfold BwState.stepsLeft
  cases mainStep_move hs with
  | @launch i hmain hi =>
    have hfall : ∑ t ∈ Finset.range o.threads,
        (Function.update s.pc i .entry t).ahead o.nbAccesses.toNat (s.barrier.pc t) ≤
          ∑ t ∈ Finset.range o.threads, (s.pc t).ahead o.nbAccesses.toNat (s.barrier.pc t) := by
      refine Finset.sum_le_sum fun u _ => ?_
      by_cases hui : u = i
      · have hpc := (h.absent u).mpr (by rw [hmain]; exact le_of_eq hui.symm)
        rw [hpc, hui, Function.update_self]
        simp [WorkerPc.ahead]
      · rw [Function.update_of_ne hui]
    simp only [hmain, MainPc.ahead]
    omega
  | die hmain _ | create hmain _ | launched hmain _ | join hmain _ _ | finish hmain _ =>
    simp only [hmain, MainPc.ahead]
    omega

theorem Proceeds.stepsLeft_worker (h : Proceeds o libs s) (hs : workerStep o hub s t = some s') :
    s'.stepsLeft o < s.stepsLeft o := by
  have ht : t < o.threads := by
    have hne := (workerStep_move hs).ne_absent
    rw [Ne, h.absent t] at hne
    have hle := h.launched
    omega
  have hupdate : ∀ p u, u ≠ t → Function.update s.pc t p u = s.pc u := fun p u hut => Function.update_of_ne hut p s.pc
  cases workerStep_move hs with
  | enter hpc hb =>
    obtain ⟨hout, rfl⟩ := start_eq_some hb
    refine GraphBenchmark.stepsLeft_worker rfl ht (fun u hut => ⟨hupdate _ u hut, ?_⟩) ?_
    · simp [Function.update_of_ne hut]
    · simp [hpc, WorkerPc.ahead, CrossPc.ahead]
  | cross hpc hb =>
    obtain ⟨-, hown, -⟩ := cross_ahead hb
    refine GraphBenchmark.stepsLeft_worker rfl ht (fun u hut => ⟨rfl, h.barrier.cross_other hb u hut⟩) ?_
    simp only [hpc, WorkerPc.ahead]
    omega
  | leave hpc _ | start hpc | done hpc _ =>
    refine GraphBenchmark.stepsLeft_worker rfl ht (fun u hut => ⟨hupdate _ u hut, rfl⟩) ?_
    simp only [hpc, WorkerPc.ahead, Function.update_self]
    omega
  | @access i info hpc hi hinfo =>
    refine GraphBenchmark.stepsLeft_worker rfl ht (fun u hut => ⟨hupdate _ u hut, rfl⟩) ?_
    simp only [hpc, WorkerPc.ahead, Function.update_self]
    omega

/-- A worker that is launched goes on, or another one does, unless it is done. -/
theorem Proceeds.exists_workerStep (h : Proceeds o libs s) (hub : Hub) {i : ℕ} (hmain : s.main = .join i)
    (ht : t < o.threads) (hdone : s.pc t ≠ .done) : ∃ u, workerStep o hub s u ≠ none := by
  have habsent : s.pc t ≠ .absent := by
    rw [Ne, h.absent t, hmain]
    exact not_le.mpr ht
  cases hpc : s.pc t with
  | absent => exact absurd hpc habsent
  | done => exact absurd hpc hdone
  | entry =>
    refine ⟨t, ?_⟩
    have hout := h.outside t (by simp [hpc])
    simp [workerStep, hpc, BarrierState.start, hout]
  | cross =>
    by_cases hout : s.barrier.pc t = .outside
    · exact ⟨t, by simp [workerStep, hpc, hout]⟩
    · obtain ⟨u, hu, hcross⟩ := h.barrier.exists_cross hout
      have hpcu : s.pc u = .cross := by
        by_contra hne
        exact hu (h.outside u hne)
      exact ⟨u, by simp [workerStep, hpcu, hu, hcross]⟩
  | start => exact ⟨t, by simp [workerStep, hpc]⟩
  | access i =>
    refine ⟨t, ?_⟩
    obtain ⟨setup, hsetup, hinfos, -⟩ := h.infos (by simp [hmain]) (by simp [hmain])
    have hinfo : s.infos[t]? ≠ none := by
      rw [hinfos, (createThreadInfo_eq_some hsetup).2.2.1]
      simp [ht]
    obtain ⟨info, hinfo⟩ := Option.ne_none_iff_exists'.mp hinfo
    by_cases hi : i < o.nbAccesses.toNat
    · simp [workerStep, hpc, hi, hinfo]
    · simp [workerStep, hpc, hi]

/-- Where the program stops. -/
inductive Stopped (o : BwOptions) (libs : BwLibs) (s : BwState) : Prop
  | died (hmain : s.main = .died) (hnone : createdInfo o libs = none)
  | finished {setup : Setup} (hmain : s.main = .finished) (hsetup : createdInfo o libs = some setup)
      (hinfos : s.infos = setup.infos) (hcount : s.accessCount = setup.accessCount)
      (hdone : ∀ t < o.threads, s.pc t = .done)

theorem Proceeds.stopped (h : Proceeds o libs s) (hstuck : ∀ a, bwMain o libs hub s a = none) : Stopped o libs s := by
  have hmain : mainStep o libs s = none := hstuck .main
  cases hpc : s.main with
  | create =>
    unfold mainStep at hmain
    rw [hpc] at hmain
    cases hsetup : createdInfo o libs <;> simp [hsetup] at hmain
  | launch i =>
    unfold mainStep at hmain
    rw [hpc] at hmain
    by_cases hi : i < o.threads <;> simp [hi] at hmain
  | join i =>
    unfold mainStep at hmain
    rw [hpc] at hmain
    by_cases hi : i < o.threads
    · by_cases hdone : s.pc i = .done
      · simp [hi, hdone] at hmain
      · obtain ⟨u, hu⟩ := h.exists_workerStep hub hpc hi hdone
        exact absurd (hstuck (.worker u)) hu
    · simp [hi] at hmain
  | finished =>
    obtain ⟨setup, hsetup, hinfos, hcount⟩ := h.infos (by simp [hpc]) (by simp [hpc])
    refine .finished hpc hsetup hinfos hcount fun t ht => h.joined t ?_
    rw [hpc]
    exact ht
  | died => exact .died hpc (h.died hpc)

/-- Every schedule of the program is finite, and it stops behind its last join or where it dies. -/
theorem bwMain_stops (o : BwOptions) (libs : BwLibs) (hub : Hub) :
    Ends (bwMain o libs hub) BwState.init (Stopped o libs) := by
  refine ends_of_invariant (P := Proceeds o libs) Nat.lt_wfRel.wf (fun s => s.stepsLeft o)
    (fun _ _ _ hu ha => proceeds_step hu ha) (fun s a s' hs ha => ?_) (fun _ hs hn => hs.stopped hn) proceeds_init
  cases a with
  | main => exact hs.stepsLeft_main ha
  | worker t => exact hs.stepsLeft_worker ha
  | wake t =>
    rw [bwMain, hs.barrier.wake_eq_none t] at ha
    cases ha

end Program

end GraphBenchmark
