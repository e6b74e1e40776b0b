import GraphBenchmark.Model.BwTimes
import GraphBenchmark.Bandwidth.Memory

/-! # What the bandwidth program measures

The interval from the smallest of the first time stamps to the largest of the second ones holds every copy of every
worker, and the bytes that are divided by it are those of the copies. -/
namespace GraphBenchmark
open Interleaving
set_option autoImplicit false

/-! ## The bounds of the interval -/

section Bounds
variable (f : ℕ → UInt64) (n : ℕ)

theorem findStart_succ :
    findStart f (n + 1) = if (f n).toNat < (findStart f n).toNat then f n else findStart f n := by
  rw [findStart, List.range_succ, List.foldl_append]
  rfl

theorem findStop_succ : findStop f (n + 1) = if (findStop f n).toNat < (f n).toNat then f n else findStop f n := by
  rw [findStop, List.range_succ, List.foldl_append]
  rfl

theorem findStart_le : ∀ t < n, findStart f n ≤ f t := by
  induction n with
  | zero => exact fun t ht => absurd ht (Nat.not_lt_zero t)
  | succ n ih =>
    intro t ht
    have hle : t < n → (findStart f n).toNat ≤ (f t).toNat := fun hlt => UInt64.le_iff_toNat_le.mp (ih t hlt)
    rw [findStart_succ, UInt64.le_iff_toNat_le]
    rcases Nat.lt_succ_iff_lt_or_eq.mp ht with hlt | rfl
    · have := hle hlt
      split <;> omega
    · split <;> omega

theorem le_findStop : ∀ t < n, f t ≤ findStop f n := by
  induction n with
  | zero => exact fun t ht => absurd ht (Nat.not_lt_zero t)
  | succ n ih =>
    intro t ht
    have hle : t < n → (f t).toNat ≤ (findStop f n).toNat := fun hlt => UInt64.le_iff_toNat_le.mp (ih t hlt)
    rw [findStop_succ, UInt64.le_iff_toNat_le]
    rcases Nat.lt_succ_iff_lt_or_eq.mp ht with hlt | rfl
    · have := hle hlt
      split <;> omega
    · split <;> omega

theorem exists_findStart (hn : 0 < n) : ∃ t < n, findStart f n = f t := by
  induction n with
  | zero => exact absurd hn (Nat.lt_irrefl 0)
  | succ n ih =>
    rw [findStart_succ]
    split
    · exact ⟨n, Nat.lt_succ_self n, rfl⟩
    · rename_i hge
      rcases Nat.eq_zero_or_pos n with rfl | hpos
      · -- nothing lies above the initial value
        have hlt := (f 0).toNat_lt
        have hmax : (findStart f 0).toNat = 2 ^ 64 - 1 := rfl
        refine ⟨0, Nat.lt_succ_self 0, UInt64.toNat_inj.mp ?_⟩
        omega
      · obtain ⟨t, ht, heq⟩ := ih hpos
        exact ⟨t, Nat.lt_succ_of_lt ht, heq⟩

theorem exists_findStop (hn : 0 < n) : ∃ t < n, findStop f n = f t := by
  induction n with
  | zero => exact absurd hn (Nat.lt_irrefl 0)
  | succ n ih =>
    rw [findStop_succ]
    split
    · exact ⟨n, Nat.lt_succ_self n, rfl⟩
    · rename_i hge
      rcases Nat.eq_zero_or_pos n with rfl | hpos
      · have hmin : (findStop f 0).toNat = 0 := rfl
        refine ⟨0, Nat.lt_succ_self 0, UInt64.toNat_inj.mp ?_⟩
        omega
      · obtain ⟨t, ht, heq⟩ := ih hpos
        exact ⟨t, Nat.lt_succ_of_lt ht, heq⟩

end Bounds

/-! ## Steps -/

section Steps
variable {o : BwOptions} {libs : BwLibs} {hub : Hub} {s s' : TimedState} {t : ℕ} {c : UInt64}

theorem timedMain_eq_some {a : BwAct} (h : timedMain o libs hub s (a, c) = some s') :
    s.now ≤ c ∧ bwMain o libs hub s.run a = some s'.run ∧ s'.now = c ∧
      ((∃ t, a = .worker t ∧ s' = { s.stamp o t c with run := s'.run, now := c }) ∨
        (∀ t, a ≠ .worker t) ∧ s' = { s with run := s'.run, now := c }) := by
  unfold timedMain at h
  split at h
  · rename_i hnow
    have hle : s.now ≤ c := UInt64.le_iff_toNat_le.mpr hnow
    obtain ⟨r, hr, rfl⟩ := Option.map_eq_some_iff.mp h
    cases a with
    | worker t => exact ⟨hle, hr, rfl, Or.inl ⟨t, rfl, rfl⟩⟩
    | _ => exact ⟨hle, hr, rfl, Or.inr ⟨nofun, rfl⟩⟩
  · cases h

theorem timedMain_isSome {r : BwState} {a : BwAct} (h : bwMain o libs hub s.run a = some r) :
    ∃ b y, timedMain o libs hub s b = some y := by
  refine ⟨(a, s.now), ?_⟩
  simp only [timedMain, h, le_refl, if_true, Option.map_some]
  exact ⟨_, rfl⟩

/-- What the counter says of a worker. -/
structure WorkerTiming (s : TimedState) (t : ℕ) : Prop where
  idle : (s.run.pc t).timed = false → s.times t = []
  begun : (s.run.pc t).timed = true → s.startCycle t ≤ s.now ∧ ∀ c ∈ s.times t, s.startCycle t ≤ c ∧ c ≤ s.now
  ended : s.run.pc t = .done → s.startCycle t ≤ s.stopCycle t ∧ ∀ c ∈ s.times t, c ≤ s.stopCycle t
  length : (s.times t).length = (s.run.copies t).length

theorem WorkerTiming.congr (h : WorkerTiming s t) (hnow : s.now ≤ s'.now)
    (htimed : (s'.run.pc t).timed = (s.run.pc t).timed) (hdone : s'.run.pc t = .done → s.run.pc t = .done)
    (hcopies : s'.run.copies t = s.run.copies t) (hstart : s'.startCycle t = s.startCycle t)
    (hstop : s'.stopCycle t = s.stopCycle t) (htimes : s'.times t = s.times t) : WorkerTiming s' t := by
  refine ⟨fun hidle => ?_, fun hbegun => ?_, fun hended => ?_, ?_⟩
  · rw [htimes]
    exact h.idle (htimed ▸ hidle)
  · obtain ⟨hle, hall⟩ := h.begun (htimed ▸ hbegun)
    rw [hstart, htimes]
    exact ⟨UInt64.le_trans hle hnow, fun c hc => ⟨(hall c hc).1, UInt64.le_trans (hall c hc).2 hnow⟩⟩
  · rw [hstart, hstop, htimes]
    exact h.ended (hdone hended)
  · rw [htimes, hcopies]
    exact h.length

theorem timing_main (h : ∀ t, WorkerTiming s t) (hnow : s.now ≤ c) {r : BwState} (hr : mainStep o libs s.run = some r)
    (hloop : LoopInv o hub s.run) : ∀ t, WorkerTiming { s with run := r, now := c } t := by
  intro t
  obtain ⟨-, hcopies, -, ⟨hpc, -⟩ | ⟨i, hmain, hpc, -⟩⟩ := mainStep_cases hr
  · exact (h t).congr hnow (by rw [hpc]) (fun hd => by rwa [hpc] at hd) (by rw [hcopies]) rfl rfl rfl
  · by_cases hti : t = i
    · subst hti
      have habsent := hloop.launch t hmain t le_rfl
      refine (h t).congr hnow ?_ (fun hd => ?_) (by rw [hcopies]) rfl rfl rfl
      · simp [hpc, habsent, WorkerPc.timed]
      · simp [hpc] at hd
    · refine (h t).congr hnow ?_ (fun hd => ?_) (by rw [hcopies]) rfl rfl rfl
      · simp [hpc, Function.update_of_ne hti]
      · simpa [hpc, Function.update_of_ne hti] using hd

/-- A step of worker `t` leaves the timing of the others. -/
theorem timing_other {u : ℕ} (h : WorkerTiming s u) (hnow : s.now ≤ c) {r : BwState} (hut : u ≠ t)
    (hr : workerStep o hub s.run t = some r) : WorkerTiming { s.stamp o t c with run := r, now := c } u := by
  have hpc : r.pc u = s.run.pc u := by
    cases workerStep_move hr <;> simp [Function.update_of_ne hut]
  have hcopies : r.copies u = s.run.copies u := by
    cases workerStep_move hr <;> simp [Function.update_of_ne hut]
  have hstamp : (s.stamp o t c).startCycle u = s.startCycle u ∧ (s.stamp o t c).stopCycle u = s.stopCycle u ∧
      (s.stamp o t c).times u = s.times u := by
    unfold TimedState.stamp
    split
    · simp [Function.update_of_ne hut]
    · split
      · simp [Function.update_of_ne hut]
      · simp [Function.update_of_ne hut]
    · exact ⟨rfl, rfl, rfl⟩
  exact h.congr hnow (by rw [hpc]) (fun hd => by rwa [hpc] at hd) hcopies hstamp.1 hstamp.2.1 hstamp.2.2

theorem timing_worker (h : WorkerTiming s t) (hnow : s.now ≤ c) {r : BwState} (hr : workerStep o hub s.run t = some r) :
    WorkerTiming { s.stamp o t c with run := r, now := c } t := by
  cases workerStep_move hr with
  | enter hpc _ | leave hpc _ =>
    rw [TimedState.stamp, hpc]
    exact h.congr hnow (by simp [hpc, WorkerPc.timed]) (by simp) rfl rfl rfl rfl
  | cross hpc _ =>
    rw [TimedState.stamp, hpc]
    exact h.congr hnow rfl (fun hd => hd) rfl rfl rfl rfl
  | start hpc =>
    have hidle := h.idle (by simp [hpc, WorkerPc.timed])
    have hlength := h.length
    rw [TimedState.stamp, hpc]
    refine ⟨by simp [WorkerPc.timed], fun _ => ?_, by simp, hlength⟩
    simp [hidle]
  | @access i info hpc hi hinfo =>
    obtain ⟨hle, hall⟩ := h.begun (by simp [hpc, WorkerPc.timed])
    have hlength := h.length
    rw [TimedState.stamp, hpc]
    simp only [hi, if_true]
    refine ⟨by simp [WorkerPc.timed], fun _ => ⟨UInt64.le_trans hle hnow, ?_⟩, by simp, ?_⟩
    · intro d hd
      simp only [Function.update_self, List.mem_append, List.mem_singleton] at hd
      rcases hd with hd | rfl
      · exact ⟨(hall d hd).1, UInt64.le_trans (hall d hd).2 hnow⟩
      · exact ⟨UInt64.le_trans hle hnow, UInt64.le_refl d⟩
    · simp [hlength]
  | done hpc hi =>
    obtain ⟨hle, hall⟩ := h.begun (by simp [hpc, WorkerPc.timed])
    have hlength := h.length
    rw [TimedState.stamp, hpc]
    simp only [hi, if_false]
    refine ⟨by simp [WorkerPc.timed], fun _ => ⟨UInt64.le_trans hle hnow, fun d hd => ?_⟩, fun _ => ?_, hlength⟩
    · exact ⟨(hall d hd).1, UInt64.le_trans (hall d hd).2 hnow⟩
    · simp only [Function.update_self]
      exact ⟨UInt64.le_trans hle hnow, fun d hd => UInt64.le_trans (hall d hd).2 hnow⟩

theorem timedMain_project (x : TimedState) (b : BwAct × UInt64) (y : TimedState)
    (h : timedMain o libs hub x b = some y) : ∃ a, bwMain o libs hub x.run a = some y.run :=
  ⟨b.1, (timedMain_eq_some h).2.1⟩

theorem timing_reach {now : UInt64} (h : Reach (timedMain o libs hub) (TimedState.init now) s) :
    ∀ t, WorkerTiming s t := by
  have hinv : Reach (bwMain o libs hub) BwState.init s.run ∧ ∀ t, WorkerTiming s t := by
    refine h.invariant (P := fun s => Reach (bwMain o libs hub) BwState.init s.run ∧ ∀ t, WorkerTiming s t)
      ⟨Reach.refl _ _, fun t => ⟨fun _ => rfl, nofun, nofun, rfl⟩⟩ fun u a v ⟨hreach, hu⟩ hv => ?_
    obtain ⟨a, c⟩ := a
    obtain ⟨hnow, hr, -, ⟨t, rfl, heq⟩ | ⟨hne, heq⟩⟩ := timedMain_eq_some hv
    · refine ⟨hreach.tail hr, fun w => ?_⟩
      rw [heq]
      by_cases hwt : w = t
      · subst hwt
        exact timing_worker (hu w) hnow hr
      · exact timing_other (hu w) hnow hwt hr
    · refine ⟨hreach.tail hr, ?_⟩
      rw [heq]
      cases a with
      | main => exact timing_main hu hnow hr (loopInv_reach hreach)
      | worker t => exact absurd rfl (hne t)
      | wake t =>
        obtain ⟨b, -, hb⟩ := Option.map_eq_some_iff.mp hr
        rw [← hb]
        exact fun w => (hu w).congr hnow rfl (fun hd => hd) rfl rfl rfl rfl
  exact hinv.2

end Steps

/-! ## The bytes -/

section Bytes
variable {slot : UInt64 → BitVec 128 → UInt64 × BitVec 128} {size : ℕ} {g : BitVec 128}

theorem sum_accessLoop (copy : UInt64 → Memcpy) (hcopy : ∀ loc, (copy loc).n.toNat = size) (n : ℕ) :
    ((accessLoop slot copy g n).1.map fun c => c.n.toNat).sum = n * size := by
  induction n with
  | zero => simp [accessLoop]
  | succ n ih =>
    simp only [accessLoop, List.map_append, List.sum_append, List.map_cons, List.map_nil, List.sum_cons, List.sum_nil]
    rw [ih, hcopy, Nat.succ_mul]
    rfl

theorem sum_accesses (o : BwOptions) (accessCount : UInt64) (info : ThreadInfo) :
    ((accesses o .read accessCount info).1.map fun c => c.n.toNat).sum = o.nbAccesses.toNat * o.accessSize.toNat := by
  unfold accesses
  cases o.srmode with
  | seq => exact sum_accessLoop (copyIn o.accessSize info) (fun _ => rfl) o.nbAccesses.toNat
  | random => exact sum_accessLoop (copyIn o.accessSize info) (fun _ => rfl) o.nbAccesses.toNat

theorem totalBytes_eq (o : BwOptions) :
    totalBytes o = UInt64.ofNat (o.threads * (o.nbAccesses.toNat * o.accessSize.toNat)) / 1024 / 1024 := by
  rw [totalBytes, UInt64.ofNat_mul, UInt64.ofNat_mul, UInt64.ofNat_toNat, UInt64.ofNat_toNat, UInt64.mul_assoc]

end Bytes

/-! ## The program -/

/-- What `main` prints of a run that comes to its end is about all copies of all workers. -/
structure Measured (o : BwOptions) (s : TimedState) (setup : Setup) : Prop where
  finished : s.run.main = .finished
  copies : ∀ t info, setup.infos[t]? = some info → s.run.copies t = (accesses o .read setup.accessCount info).1
  recorded : ∀ t, (s.times t).length = (s.run.copies t).length
  within : ∀ t < o.threads, ∀ c ∈ s.times t, findStart s.startCycle o.threads ≤ c ∧ c ≤ findStop s.stopCycle o.threads
  first : ∃ t < o.threads, findStart s.startCycle o.threads = s.startCycle t
  last : ∃ t < o.threads, findStop s.stopCycle o.threads = s.stopCycle t
  unwrapped : findStart s.startCycle o.threads ≤ findStop s.stopCycle o.threads
  bytes : totalBytes o =
    UInt64.ofNat (∑ t ∈ Finset.range o.threads, ((s.run.copies t).map fun c => c.n.toNat).sum) / 1024 / 1024

section Program
variable {o : BwOptions} {libs : BwLibs} {s : TimedState} {setup : Setup} {now : UInt64}

theorem createdInfo_threads (h : createdInfo o libs = some setup) : 0 < o.threads := by
  refine Nat.pos_of_ne_zero fun hzero => (createThreadInfo_eq_some h).2.1 ?_
  rw [(createThreadInfo_eq_some h).1, hzero, ← UInt64.toNat_inj, UInt64.toNat_div, UInt64.toNat_div]
  simp

theorem createdInfo_infos (h : createdInfo o libs = some setup) {t : ℕ} (ht : t < o.threads) :
    ∃ info, setup.infos[t]? = some info := by
  rw [(createThreadInfo_eq_some h).2.2.1]
  simp [ht]

theorem measured_of_done (h : Reach (timedMain o libs .read) (TimedState.init now) s) (hmain : s.run.main = .finished)
    (hsetup : createdInfo o libs = some setup) (hinfos : s.run.infos = setup.infos)
    (hcount : s.run.accessCount = setup.accessCount) (hdone : ∀ t < o.threads, s.run.pc t = .done) :
    Measured o s setup := by
  have hreach : Reach (bwMain o libs .read) BwState.init s.run := h.project timedMain_project
  have htiming := timing_reach h
  have hpos := createdInfo_threads hsetup
  have hinfo : ∀ t info, setup.infos[t]? = some info → t < o.threads := by
    intro t info ht
    by_contra hge
    rw [(createThreadInfo_eq_some hsetup).2.2.1] at ht
    simp [hge] at ht
  have hcopies : ∀ t info, setup.infos[t]? = some info →
      s.run.copies t = (accesses o .read setup.accessCount info).1 := by
    intro t info ht
    have hloop := worker_done hreach (hdone t (hinfo t info ht)) (hinfos ▸ ht)
    rw [hcount] at hloop
    exact congrArg Prod.fst hloop
  have hstart : ∀ t < o.threads, findStart s.startCycle o.threads ≤ s.startCycle t := findStart_le _ _
  have hstop : ∀ t < o.threads, s.stopCycle t ≤ findStop s.stopCycle o.threads := le_findStop _ _
  refine ⟨hmain, hcopies, fun t => (htiming t).length, fun t ht c hc => ?_, exists_findStart _ _ hpos,
    exists_findStop _ _ hpos, ?_, ?_⟩
  · have hbegun := (htiming t).begun (by simp [hdone t ht, WorkerPc.timed])
    have hended := (htiming t).ended (hdone t ht)
    exact ⟨UInt64.le_trans (hstart t ht) (hbegun.2 c hc).1, UInt64.le_trans (hended.2 c hc) (hstop t ht)⟩
  · have hended := (htiming 0).ended (hdone 0 hpos)
    exact UInt64.le_trans (hstart 0 hpos) (UInt64.le_trans hended.1 (hstop 0 hpos))
  · have hsum : ∑ t ∈ Finset.range o.threads, ((s.run.copies t).map fun c => c.n.toNat).sum =
        ∑ t ∈ Finset.range o.threads, o.nbAccesses.toNat * o.accessSize.toNat := by
      refine Finset.sum_congr rfl fun t ht => ?_
      obtain ⟨info, hget⟩ := createdInfo_infos hsetup (Finset.mem_range.mp ht)
      rw [hcopies t info hget, sum_accesses]
    rw [hsum, totalBytes_eq, Finset.sum_const, Finset.card_range]
    rfl

/-- No copy goes off the mapping, and every run is finite. It dies when a worker would have no slot, and else what it
prints is about all copies of all workers: they are those of the selected loop, the interval holds them, and the bytes
are theirs. -/
theorem bwMain_measures (hlayout : BwLayout o libs) (now : UInt64) :
    (∀ s, Reach (timedMain o libs .read) (TimedState.init now) s →
      Confined (fun _ => .read) libs.addr (createBufferSize o.size) s.run.infos fun t _ => s.run.copies t) ∧
    Ends (timedMain o libs .read) (TimedState.init now) fun s =>
      (s.run.main = .died ∧ createdInfo o libs = none) ∨ ∃ setup, createdInfo o libs = some setup ∧ Measured o s setup := by
  have hends := (bwMain_stops o libs .read).lift (f := TimedState.run) (x := TimedState.init now) timedMain_project
    fun _ _ _ hr => timedMain_isSome hr
  refine ⟨fun s hs => hlayout.confined (hs.project timedMain_project), hends.mono fun s hs hstopped => ?_⟩
  cases hstopped with
  | died hmain hnone => exact Or.inl ⟨hmain, hnone⟩
  | finished hmain hsetup hinfos hcount hdone =>
    exact Or.inr ⟨_, hsetup, measured_of_done hs hmain hsetup hinfos hcount hdone⟩

/-- `-s 4096 -t 2 -r 0 -i 0 -a 64 -n 32`: each of the two workers has 32 slots and makes 32 accesses. -/
theorem bwMain_measures_sequential : ∃ s, Reach (timedMain ⟨4096, 2, .seq, .grouped, 64, 32⟩
    ⟨0x10000, fun t => UInt64.ofNat (0x1000 * (t + 1)), fun _ => 1⟩ .read) (TimedState.init 5) s ∧
      s.run.main = .finished ∧ (s.times 1).length = (s.run.copies 1).length := by
  have hlayout : BwLayout ⟨4096, 2, .seq, .grouped, 64, 32⟩
      ⟨0x10000, fun t => UInt64.ofNat (0x1000 * (t + 1)), fun _ => 1⟩ := by
    refine ⟨by decide, by decide, fun t ht x hx hx' => ?_, fun _ => by decide⟩
    have hle : 0x10000 ≤ x := hx.1
    have htwo : t < 2 := ht
    obtain rfl | rfl : t = 0 ∨ t = 1 := by omega
    · have hlt : x < 0x1000 + 64 := hx'.2
      omega
    · have hlt : x < 0x2000 + 64 := hx'.2
      omega
  obtain ⟨s, hs, ⟨-, hnone⟩ | ⟨setup, -, hmeasured⟩⟩ := (bwMain_measures hlayout 5).2.exists
  · cases hnone
  · exact ⟨s, hs, hmeasured.finished, hmeasured.recorded 1⟩

end Program

end GraphBenchmark
