import GraphBenchmark.Bandwidth.Generator

/-! # The loops of the workers

In every run of the program, what a worker has copied is what its loop copies in as many iterations, from the generator
`0`. So the results on `read_seq` and its siblings are about what the workers do. -/
namespace GraphBenchmark
open Interleaving
set_option autoImplicit false

variable {o : BwOptions} {libs : BwLibs} {hub : Hub} {s s' : BwState} {t : ℕ}

/-- The iterations a worker has finished, of `n`. -/
def WorkerPc.iterations (n : ℕ) : WorkerPc → ℕ
  | .access i => i
  | .done => n
  | _ => 0

/-- What worker `t` has done is what its loop does in as many iterations. -/
def RunsLoop (o : BwOptions) (hub : Hub) (s : BwState) (t : ℕ) : Prop :=
  ∀ info, s.infos[t]? = some info → (s.pc t).iterations o.nbAccesses.toNat ≤ o.nbAccesses.toNat ∧
    accessLoop (slotOf o.srmode s.accessCount) (copyOf hub o.accessSize info) 0
      ((s.pc t).iterations o.nbAccesses.toNat) = (s.copies t, s.lehmer t)

structure LoopInv (o : BwOptions) (hub : Hub) (s : BwState) : Prop where
  create : s.main = .create → ∀ t, s.pc t = .absent
  launch : ∀ i, s.main = .launch i → ∀ t, i ≤ t → s.pc t = .absent
  absent : ∀ t, s.pc t = .absent → s.copies t = [] ∧ s.lehmer t = 0
  runs : ∀ t, RunsLoop o hub s t

theorem RunsLoop.of_begin (h : (s.pc t).iterations o.nbAccesses.toNat = 0) (hcopies : s.copies t = [])
    (hlehmer : s.lehmer t = 0) : RunsLoop o hub s t := by
  intro info _
  rw [h, hcopies, hlehmer]
  exact ⟨Nat.zero_le _, rfl⟩

theorem RunsLoop.congr (h : RunsLoop o hub s t) (hinfos : s'.infos = s.infos) (hcount : s'.accessCount = s.accessCount)
    (hpc : (s'.pc t).iterations o.nbAccesses.toNat = (s.pc t).iterations o.nbAccesses.toNat)
    (hcopies : s'.copies t = s.copies t) (hlehmer : s'.lehmer t = s.lehmer t) : RunsLoop o hub s' t := by
  unfold RunsLoop
  rw [hinfos, hcount, hpc, hcopies, hlehmer]
  exact h

/-- A step that changes nothing but where worker `t` is and what it has done. -/
theorem LoopInv.update (h : LoopInv o hub s) {p : WorkerPc} (hp : p ≠ .absent) (hpc : s'.pc = Function.update s.pc t p)
    (hinfos : s'.infos = s.infos) (hcount : s'.accessCount = s.accessCount)
    (hcopies : ∀ u ≠ t, s'.copies u = s.copies u) (hlehmer : ∀ u ≠ t, s'.lehmer u = s.lehmer u) (hcreate : s'.main ≠ .create)
    (hlaunch : ∀ i, s'.main = .launch i → ∀ u, i ≤ u → s'.pc u = .absent) (hruns : RunsLoop o hub s' t) :
    LoopInv o hub s' := by
  refine ⟨fun hmain => absurd hmain hcreate, hlaunch, fun u hu => ?_, fun u => ?_⟩
  · rw [hpc] at hu
    by_cases hut : u = t
    · rw [hut, Function.update_self] at hu
      exact absurd hu hp
    · rw [Function.update_of_ne hut] at hu
      rw [hcopies u hut, hlehmer u hut]
      exact h.absent u hu
  · by_cases hut : u = t
    · rw [hut]
      exact hruns
    · refine (h.runs u).congr hinfos hcount ?_ (hcopies u hut) (hlehmer u hut)
      rw [hpc, Function.update_of_ne hut]

theorem loopInv_main (h : LoopInv o hub s) (hs : mainStep o libs s = some s') : LoopInv o hub s' := by
  cases mainStep_move hs with
  | die hmain _ => exact ⟨fun _ => h.create hmain, fun _ _ t _ => h.create hmain t, h.absent, h.runs⟩
  | create hmain _ =>
    have hall := h.create hmain
    refine ⟨fun _ => hall, fun _ _ t _ => hall t, h.absent, fun t => ?_⟩
    obtain ⟨hcopies, hlehmer⟩ := h.absent t (hall t)
    exact RunsLoop.of_begin (congrArg (WorkerPc.iterations _) (hall t)) hcopies hlehmer
  | @launch i hmain hi =>
    have hcopies := (h.absent i (h.launch i hmain i le_rfl)).1
    refine h.update (t := i) (p := .entry) (by simp) rfl rfl rfl (fun _ _ => rfl)
      (fun u hu => Function.update_of_ne hu _ _) (by simp) (fun j hj u hu => ?_) ?_
    · obtain rfl := MainPc.launch.inj hj
      exact (Function.update_of_ne (by omega) _ _).trans (h.launch i hmain u (by omega))
    · refine RunsLoop.of_begin ?_ hcopies (Function.update_self _ _ _)
      show (Function.update s.pc i .entry i).iterations _ = 0
      rw [Function.update_self]
      rfl
  | launched hmain _ => exact ⟨nofun, nofun, h.absent, h.runs⟩
  | join hmain _ _ => exact ⟨nofun, nofun, h.absent, h.runs⟩
  | finish hmain _ => exact ⟨nofun, nofun, h.absent, h.runs⟩

theorem LoopInv.work (h : LoopInv o hub s) (hne : s.pc t ≠ .absent) {p : WorkerPc} (hp : p ≠ .absent)
    (hmain : s'.main = s.main) (hpc : s'.pc = Function.update s.pc t p) (hinfos : s'.infos = s.infos)
    (hcount : s'.accessCount = s.accessCount) (hcopies : ∀ u ≠ t, s'.copies u = s.copies u)
    (hlehmer : ∀ u ≠ t, s'.lehmer u = s.lehmer u) (hruns : RunsLoop o hub s' t) : LoopInv o hub s' := by
  refine h.update hp hpc hinfos hcount hcopies hlehmer (fun hm => ?_) (fun i hm u hu => ?_) hruns
  · exact hne (h.create (hmain ▸ hm) t)
  · have habsent := h.launch i (hmain ▸ hm) u hu
    have hut : u ≠ t := fun hut => hne (hut ▸ habsent)
    rw [hpc, Function.update_of_ne hut]
    exact habsent

theorem LoopInv.move (h : LoopInv o hub s) (hne : s.pc t ≠ .absent) {p : WorkerPc} (hp : p ≠ .absent)
    (hiterations : p.iterations o.nbAccesses.toNat = (s.pc t).iterations o.nbAccesses.toNat) (b : BarrierState) :
    LoopInv o hub { s with barrier := b, pc := Function.update s.pc t p } := by
  refine h.work hne hp rfl rfl rfl rfl (fun _ _ => rfl) (fun _ _ => rfl) ((h.runs t).congr rfl rfl ?_ rfl rfl)
  show (Function.update s.pc t p t).iterations _ = _
  rw [Function.update_self, hiterations]

theorem loopInv_worker (h : LoopInv o hub s) (hs : workerStep o hub s t = some s') : LoopInv o hub s' := by
  have hruns := h.runs t
  unfold RunsLoop at hruns
  cases workerStep_move hs with
  | @enter b hpc _ => exact h.move (by simp [hpc]) (by simp) (by rw [hpc]; rfl) b
  | leave hpc _ => exact h.move (by simp [hpc]) (by simp) (by rw [hpc]; rfl) s.barrier
  | cross hpc _ => exact ⟨h.create, h.launch, h.absent, h.runs⟩
  | start hpc => exact h.move (by simp [hpc]) (by simp) (by rw [hpc]; rfl) s.barrier
  | @access i info hpc hi hinfo =>
    rw [hpc] at hruns
    refine h.work (by simp [hpc]) (p := .access (i + 1)) (by simp) rfl rfl rfl rfl
      (fun u hu => Function.update_of_ne hu _ _) (fun u hu => Function.update_of_ne hu _ _) fun info' hinfo' => ?_
    obtain rfl : info = info' := Option.some.inj (hinfo.symm.trans hinfo')
    obtain ⟨-, hloop⟩ := hruns info hinfo
    simp only [Function.update_self, WorkerPc.iterations] at hloop ⊢
    refine ⟨hi, ?_⟩
    rw [accessLoop, hloop]
  | @done i hpc hi =>
    rw [hpc] at hruns
    refine h.work (by simp [hpc]) (p := .done) (by simp) rfl rfl rfl rfl (fun _ _ => rfl) (fun _ _ => rfl)
      fun info hinfo => ?_
    obtain ⟨hle, hloop⟩ := hruns info hinfo
    have heq : i = o.nbAccesses.toNat := le_antisymm hle (Nat.le_of_not_lt hi)
    simp only [Function.update_self, WorkerPc.iterations] at hloop ⊢
    exact ⟨le_rfl, heq ▸ hloop⟩

theorem loopInv_reach (h : Reach (bwMain o libs hub) BwState.init s) : LoopInv o hub s := by
  have hinit : LoopInv o hub BwState.init :=
    ⟨fun _ _ => rfl, nofun, fun _ _ => ⟨rfl, rfl⟩, fun _ _ hinfo => by cases hinfo⟩
  refine h.invariant hinit fun u a v hu ha => ?_
  cases a with
  | main => exact loopInv_main hu ha
  | worker t => exact loopInv_worker hu ha
  | wake t =>
    obtain ⟨b, -, rfl⟩ := Option.map_eq_some_iff.mp ha
    exact ⟨hu.create, hu.launch, hu.absent, hu.runs⟩

/-- The function the two modes select. -/
def accesses (o : BwOptions) (hub : Hub) (accessCount : UInt64) (info : ThreadInfo) : List Memcpy × BitVec 128 :=
  match hub, o.srmode with
  | .read, .seq => readSeq o.accessSize accessCount info o.nbAccesses 0
  | .read, .random => readRandom o.accessSize accessCount info o.nbAccesses 0
  | .write, .seq => writeSeq o.accessSize accessCount info o.nbAccesses 0
  | .write, .random => writeRandom o.accessSize accessCount info o.nbAccesses 0

/-- A worker that is done has made the copies of the selected function. -/
theorem worker_done {info : ThreadInfo} (h : Reach (bwMain o libs hub) BwState.init s) (hdone : s.pc t = .done)
    (hinfo : s.infos[t]? = some info) : (s.copies t, s.lehmer t) = accesses o hub s.accessCount info := by
  obtain ⟨-, hloop⟩ := (loopInv_reach h).runs t info hinfo
  rw [hdone] at hloop
  rw [← hloop]
  unfold accesses
  cases hub <;> cases o.srmode <;> rfl

end GraphBenchmark
