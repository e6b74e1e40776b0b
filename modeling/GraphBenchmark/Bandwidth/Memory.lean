import GraphBenchmark.Model.BwMemory
import GraphBenchmark.Bandwidth.Joined
import GraphBenchmark.Bandwidth.Random

/-! # What the bandwidth program stores

The mapping holds zeros and the private buffers hold `42` when the workers start, so every copy of a run moves the same
byte, and what the memory holds at the end does not depend on the schedule. -/
namespace GraphBenchmark
open Interleaving Blocks
set_option autoImplicit false

/-- The byte all copies of a hub move. -/
def Hub.byte : Hub → UInt8
  | .read => 0
  | .write => 42

/-- The addresses that copies have gone to. -/
def BwState.Touched (s : BwState) (x : ℕ) : Prop := ∃ t, ∃ c ∈ s.copies t, Within c.dst.toNat c.n.toNat x

/-- The private buffers lie off the mapping, and a sequential run stops before it passes the slots. -/
structure BwLayout (o : BwOptions) (libs : BwLibs) : Prop where
  int : o.threads < 2 ^ 31
  mapped : libs.addr.toNat + (createBufferSize o.size).toNat ≤ 2 ^ 64
  apart : ∀ t < o.threads, ∀ x, Within libs.addr.toNat (createBufferSize o.size).toNat x →
    ¬ Within (libs.alignedAlloc t).toNat o.accessSize.toNat x
  slots : o.srmode = .seq → o.nbAccesses.toNat ≤ (createBufferSize o.size).toNat / o.threads / o.accessSize.toNat

section Layout
variable {o : BwOptions} {libs : BwLibs} {hub : Hub} {setup : Setup} {mem : ℕ → UInt8} {i t x : ℕ} {info : ThreadInfo}

theorem createdMem_mapping (h : BwLayout o libs) (hx : Within libs.addr.toNat (createBufferSize o.size).toNat x) :
    createdMem o libs mem x = 0 := by
  rw [createdMem, fillAll_of_not_within fun t ht => h.apart t ht x hx]
  exact fill_of_within hx

theorem createdMem_buffer (ht : t < o.threads) (hx : Within (libs.alignedAlloc t).toNat o.accessSize.toNat x) :
    createdMem o libs mem x = 42 := fillAll_of_within ht hx

theorem createdMem_other (hx : ¬ Within libs.addr.toNat (createBufferSize o.size).toNat x)
    (hbuffers : ∀ t < o.threads, ¬ Within (libs.alignedAlloc t).toNat o.accessSize.toNat x) :
    createdMem o libs mem x = mem x := by
  rw [createdMem, fillAll_of_not_within hbuffers]
  exact fill_of_not_within hx

theorem BwLayout.created (h : BwLayout o libs) (hsetup : createdInfo o libs = some setup) :
    InfosCreated o.accessSize libs.alignedAlloc libs.rand libs.addr (createBufferSize o.size) o.threads o.accessmode
      setup := ⟨h.int, hsetup, h.mapped⟩

theorem BwLayout.slot_lt (h : BwLayout o libs) (hsetup : createdInfo o libs = some setup) (hi : i < o.nbAccesses.toNat)
    (g : BitVec 128) :
    (slotOf o.srmode setup.accessCount (UInt64.ofNat i) g).1.toNat < setup.accessCount.toNat := by
  have hcreated := h.created hsetup
  cases hmode : o.srmode with
  | seq =>
    have hslots := h.slots hmode
    rw [← hcreated.toNat_accessCount] at hslots
    have hle : i &&& setup.accessCount.toNat ≤ i := Nat.and_le_left
    show (UInt64.ofNat i &&& setup.accessCount).toNat < _
    rw [UInt64.toNat_and, UInt64.toNat_ofNat_of_lt' (hi.trans o.nbAccesses.toNat_lt)]
    omega
  | random => exact hcreated.mod_lt_accessCount _

/-- The slots of an access lie in the mapping. -/
theorem BwLayout.slot_within (h : BwLayout o libs) (hsetup : createdInfo o libs = some setup) (hi : i < o.nbAccesses.toNat)
    (g : BitVec 128) (hinfo : setup.infos[t]? = some info)
    (hx : Within (info.slot (slotOf o.srmode setup.accessCount (UInt64.ofNat i) g).1).toNat o.accessSize.toNat x) :
    Within libs.addr.toNat (createBufferSize o.size).toNat x := by
  obtain ⟨ht, rfl⟩ := (h.created hsetup).getElem?_infos hinfo
  have hfits := (h.created hsetup).slot_fits ht (h.slot_lt hsetup hi g)
  unfold Within at hx ⊢
  omega

theorem InfosCreated.buffer (h : InfosCreated o.accessSize libs.alignedAlloc libs.rand libs.addr (createBufferSize o.size)
    o.threads o.accessmode setup) (hinfo : setup.infos[t]? = some info) : info.buffer = libs.alignedAlloc t := by
  obtain ⟨-, rfl⟩ := h.getElem?_infos hinfo
  unfold threadInfo
  cases o.accessmode <;> rfl

/-- Every copy finds the byte of the hub at its source. -/
theorem BwLayout.source (h : BwLayout o libs) (hsetup : createdInfo o libs = some setup) (hi : i < o.nbAccesses.toNat)
    (g : BitVec 128) (hinfo : setup.infos[t]? = some info)
    (hx : Within (copyOf hub o.accessSize info (slotOf o.srmode setup.accessCount (UInt64.ofNat i) g).1).src.toNat
      o.accessSize.toNat x) : createdMem o libs mem x = hub.byte := by
  cases hub with
  | read => exact createdMem_mapping h (h.slot_within hsetup hi g hinfo hx)
  | write =>
    rw [copyOf, copyOut, (h.created hsetup).buffer hinfo] at hx
    exact createdMem_buffer ((h.created hsetup).getElem?_infos hinfo).1 hx

/-- The copies of the workers stay in the mapping and off each other, at every point of a run. -/
theorem BwLayout.confined (h : BwLayout o libs) {s : BwState} (hs : Reach (bwMain o libs hub) BwState.init s) :
    Confined (fun _ => hub) libs.addr (createBufferSize o.size) s.infos fun t _ => s.copies t := by
  have hruns := (loopInv_reach hs).runs
  obtain hnone | ⟨setup, hsetup, hinfos, hcount⟩ := bwMain_setup hs
  · rw [hnone]
    exact ⟨fun _ _ ht => absurd ht (by simp), fun _ _ _ _ hT => absurd hT (by simp)⟩
  · rw [hinfos]
    refine (h.created hsetup).confined fun t info ht c hc => ?_
    obtain ⟨hle, hloop⟩ := hruns t info (hinfos ▸ ht)
    rw [hcount] at hloop
    have hcopies : s.copies t = (accessLoop (slotOf o.srmode setup.accessCount) (copyOf hub o.accessSize info) 0
        ((s.pc t).iterations o.nbAccesses.toNat)).1 := by rw [hloop]
    rw [hcopies] at hc
    obtain ⟨i, hi, g, rfl⟩ := mem_accessLoop hc
    exact ⟨_, h.slot_lt hsetup (hi.trans_le hle) g, rfl⟩

end Layout

/-! ## Runs -/

/-- What the memory is in each state. -/
structure StoreInv (o : BwOptions) (libs : BwLibs) (hub : Hub) (mem : ℕ → UInt8) (s : StoredState) : Prop where
  create : s.run.main = .create → s.mem = mem
  died : s.run.main = .died → s.mem = clearedMem o libs mem
  created : s.run.main ≠ .create → s.run.main ≠ .died →
    Spread (createdMem o libs mem) hub.byte s.run.Touched s.mem

section Run
variable {o : BwOptions} {libs : BwLibs} {hub : Hub} {s s' : StoredState} {mem : ℕ → UInt8} {t : ℕ}

theorem proceeds_reach {r : BwState} (h : Reach (bwMain o libs hub) BwState.init r) : Proceeds o libs r :=
  h.invariant (P := Proceeds o libs) proceeds_init fun _ _ _ hu ha => proceeds_step hu ha

theorem storedMain_eq_some {a : BwAct} (h : storedMain o libs hub s a = some s') :
    bwMain o libs hub s.run a = some s'.run ∧ s'.mem =
      match a with
      | .main => mainStore o libs s
      | .worker t => workerStore o hub s t
      | .wake _ => s.mem := by
  obtain ⟨r, hr, rfl⟩ := Option.map_eq_some_iff.mp h
  cases a <;> exact ⟨hr, rfl⟩

theorem touched_append {r r' : BwState} {c : Memcpy}
    (h : r'.copies = Function.update r.copies t (r.copies t ++ [c])) (x : ℕ) :
    r'.Touched x ↔ r.Touched x ∨ Within c.dst.toNat c.n.toNat x := by
  unfold BwState.Touched
  rw [h]
  constructor
  · rintro ⟨u, d, hd, hx⟩
    by_cases hut : u = t
    · subst hut
      rw [Function.update_self] at hd
      rcases List.mem_append.mp hd with hd | hd
      · exact Or.inl ⟨u, d, hd, hx⟩
      · exact Or.inr (List.mem_singleton.mp hd ▸ hx)
    · rw [Function.update_of_ne hut] at hd
      exact Or.inl ⟨u, d, hd, hx⟩
  · rintro (⟨u, d, hd, hx⟩ | hx)
    · by_cases hut : u = t
      · subst hut
        exact ⟨u, d, by simp [hd], hx⟩
      · exact ⟨u, d, by rwa [Function.update_of_ne hut], hx⟩
    · exact ⟨t, c, by simp, hx⟩

theorem StoreInv.main (h : StoreInv o libs hub mem s) (hloop : LoopInv o hub s.run)
    (hs : mainStep o libs s.run = some s'.run) (hmem : s'.mem = mainStore o libs s) : StoreInv o libs hub mem s' := by
  obtain ⟨r, mem'⟩ := s'
  obtain rfl : mem' = mainStore o libs s := hmem
  unfold mainStore
  cases mainStep_move hs with
  | die hmain hnone =>
    rw [hmain, hnone]
    exact ⟨nofun, fun _ => congrArg (clearedMem o libs) (h.create hmain), fun _ hne => absurd rfl hne⟩
  | create hmain hsetup =>
    rw [hmain, hsetup]
    refine ⟨nofun, nofun, fun _ _ => ?_⟩
    dsimp only
    rw [h.create hmain]
    refine Spread.refl _ _ fun x ⟨u, c, hc, _⟩ => ?_
    have hnil : s.run.copies u = [] := (hloop.absent u (hloop.create hmain u)).1
    rw [hnil] at hc
    cases hc
  | launch hmain _ | launched hmain _ | join hmain _ _ | finish hmain _ =>
    rw [hmain]
    exact ⟨nofun, nofun, fun _ _ => h.created (by simp [hmain]) (by simp [hmain])⟩

/-- The copy of access `i` of a worker. -/
def accessCopy (o : BwOptions) (hub : Hub) (accessCount : UInt64) (g : BitVec 128) (info : ThreadInfo) (i : ℕ) : Memcpy :=
  copyOf hub o.accessSize info (slotOf o.srmode accessCount (UInt64.ofNat i) g).1

/-- A step of a worker makes an access, or it stores nothing. -/
theorem workerStore_cases {r : BwState} (hs : workerStep o hub s.run t = some r) :
    (r.copies = s.run.copies ∧ workerStore o hub s t = s.mem) ∨
      ∃ i info, i < o.nbAccesses.toNat ∧ s.run.infos[t]? = some info ∧
        r.copies = Function.update s.run.copies t
          (s.run.copies t ++ [accessCopy o hub s.run.accessCount (s.run.lehmer t) info i]) ∧
        workerStore o hub s t = (accessCopy o hub s.run.accessCount (s.run.lehmer t) info i).apply s.mem := by
  unfold workerStore
  cases workerStep_move hs with
  | enter hpc _ | leave hpc _ | cross hpc _ | start hpc =>
    rw [hpc]
    exact Or.inl ⟨rfl, rfl⟩
  | done hpc hi =>
    rw [hpc]
    cases s.run.infos[t]? with
    | none => exact Or.inl ⟨rfl, rfl⟩
    | some info => exact Or.inl ⟨rfl, if_neg hi⟩
  | access hpc hi hinfo =>
    rw [hpc, hinfo]
    exact Or.inr ⟨_, _, hi, rfl, rfl, if_pos hi⟩

theorem StoreInv.worker (hlayout : BwLayout o libs) (h : StoreInv o libs hub mem s) (hproceeds : Proceeds o libs s.run)
    (hsetup : s.run.infos = [] ∨ ∃ setup, createdInfo o libs = some setup ∧ s.run.infos = setup.infos ∧
      s.run.accessCount = setup.accessCount)
    (hs : workerStep o hub s.run t = some s'.run) (hmem : s'.mem = workerStore o hub s t) :
    StoreInv o libs hub mem s' := by
  have hpresent := (workerStep_move hs).ne_absent
  have hidle : s.run.main.launched o.threads ≠ 0 := fun hzero => by
    rw [Ne, hproceeds.absent t, hzero] at hpresent
    exact hpresent (Nat.zero_le t)
  have hcreate : s.run.main ≠ .create := fun hmain => hidle (by rw [hmain]; rfl)
  have hdied : s.run.main ≠ .died := fun hmain => hidle (by rw [hmain]; rfl)
  have hspread := h.created hcreate hdied
  have hmain : s'.run.main = s.run.main := by
    generalize s'.run = r at hs
    cases workerStep_move hs <;> rfl
  refine ⟨fun hc => absurd (hmain ▸ hc) hcreate, fun hd => absurd (hmain ▸ hd) hdied, fun _ _ => ?_⟩
  rw [hmem]
  rcases workerStore_cases hs with ⟨hcopies, hstore⟩ | ⟨i, info, hi, hinfo, hcopies, hstore⟩
  · rw [hstore]
    refine hspread.congr fun x => ?_
    simp only [BwState.Touched, hcopies]
  · rw [hstore]
    obtain hnil | ⟨setup, hsome, hinfos, hcount⟩ := hsetup
    · simp [hnil] at hinfo
    · refine (hspread.copy fun x hx => ?_).congr (touched_append hcopies)
      rw [accessCopy, n_copyOf, hcount] at hx
      exact hlayout.source hsome hi (s.run.lehmer t) (hinfos ▸ hinfo) hx

theorem storeInv_reach (hlayout : BwLayout o libs) (h : Reach (storedMain o libs hub) (StoredState.init mem) s) :
    Reach (bwMain o libs hub) BwState.init s.run ∧ StoreInv o libs hub mem s := by
  refine h.invariant (P := fun s => Reach (bwMain o libs hub) BwState.init s.run ∧ StoreInv o libs hub mem s)
    ⟨Reach.refl _ _, fun _ => rfl, nofun, fun hne => absurd rfl hne⟩ fun u a v ⟨hreach, hu⟩ hv => ?_
  obtain ⟨hr, hmem⟩ := storedMain_eq_some hv
  have hproceeds := proceeds_reach hreach
  refine ⟨hreach.tail hr, ?_⟩
  cases a with
  | main => exact hu.main (loopInv_reach hreach) hr hmem
  | worker t => exact hu.worker hlayout hproceeds (bwMain_setup hreach) hr hmem
  | wake t =>
    rw [bwMain, hproceeds.barrier.wake_eq_none t] at hr
    cases hr

end Run

/-! ## What a run leaves -/

/-- The slot of access `i`, from the generator of a new thread. -/
def accessAt (o : BwOptions) (accessCount : UInt64) (i : ℕ) : UInt64 := (slotOf o.srmode accessCount (UInt64.ofNat i) 0).1

/-- The address lies in a slot that thread `t` copies from or to. -/
def InSlots (o : BwOptions) (accessCount : UInt64) (info : ThreadInfo) (x : ℕ) : Prop :=
  ∃ i < o.nbAccesses.toNat, Within (info.slot (accessAt o accessCount i)).toNat o.accessSize.toNat x

/-- The bytes at the end of a run, of the mapping, of the private buffers, and the others. -/
structure Stored (o : BwOptions) (libs : BwLibs) (hub : Hub) (setup : Setup) (mem final : ℕ → UInt8) : Prop where
  slots : ∀ (x t : ℕ) (info : ThreadInfo), setup.infos[t]? = some info → InSlots o setup.accessCount info x →
    final x = hub.byte
  mapping : ∀ x, Within libs.addr.toNat (createBufferSize o.size).toNat x →
    (∀ (t : ℕ) (info : ThreadInfo), setup.infos[t]? = some info → ¬ InSlots o setup.accessCount info x) → final x = 0
  buffers : ∀ x, ∀ t < o.threads, Within (libs.alignedAlloc t).toNat o.accessSize.toNat x →
    final x = if o.nbAccesses = 0 then 42 else hub.byte
  others : ∀ x, ¬ Within libs.addr.toNat (createBufferSize o.size).toNat x →
    (∀ t < o.threads, ¬ Within (libs.alignedAlloc t).toNat o.accessSize.toNat x) → final x = mem x

section Program
variable {o : BwOptions} {libs : BwLibs} {hub : Hub} {setup : Setup} {r : BwState} {mem : ℕ → UInt8} {t x : ℕ}
  {info : ThreadInfo}

/-- A loop whose generator stays `0`. -/
theorem accessLoop_zero {slot : UInt64 → BitVec 128 → UInt64 × BitVec 128} (hslot : ∀ i, (slot i 0).2 = 0)
    (copy : UInt64 → Memcpy) (n : ℕ) :
    accessLoop slot copy 0 n = ((List.range n).map fun i => copy (slot (UInt64.ofNat i) 0).1, 0) := by
  induction n with
  | zero => rfl
  | succ n ih =>
    rw [accessLoop, ih, List.range_succ, List.map_append]
    simp only [List.map_cons, List.map_nil, hslot]

theorem copies_of_done (h : Reach (bwMain o libs hub) BwState.init r) (hinfos : r.infos = setup.infos)
    (hcount : r.accessCount = setup.accessCount) (hdone : r.pc t = .done) (hinfo : setup.infos[t]? = some info) :
    r.copies t = (List.range o.nbAccesses.toNat).map fun i =>
      copyOf hub o.accessSize info (accessAt o setup.accessCount i) := by
  obtain ⟨-, hloop⟩ := (loopInv_reach h).runs t info (hinfos ▸ hinfo)
  rw [hdone, hcount, accessLoop_zero (slotOf_zero o.srmode setup.accessCount)] at hloop
  exact (congrArg Prod.fst hloop).symm

theorem touched_iff (h : Reach (bwMain o libs hub) BwState.init r) (hcreated : InfosCreated o.accessSize libs.alignedAlloc
    libs.rand libs.addr (createBufferSize o.size) o.threads o.accessmode setup) (hmain : r.main = .finished)
    (hinfos : r.infos = setup.infos) (hcount : r.accessCount = setup.accessCount)
    (hdone : ∀ t < o.threads, r.pc t = .done)
    (x : ℕ) : r.Touched x ↔ ∃ (t : ℕ) (info : ThreadInfo), setup.infos[t]? = some info ∧ ∃ i < o.nbAccesses.toNat,
      Within (copyOf hub o.accessSize info (accessAt o setup.accessCount i)).dst.toNat o.accessSize.toNat x := by
  constructor
  · rintro ⟨t, c, hc, hx⟩
    by_cases ht : t < o.threads
    · have hinfo : setup.infos[t]? = some (threadInfo o.accessSize libs.alignedAlloc libs.addr (createBufferSize o.size)
          o.threads o.accessmode t) := by
        rw [(createThreadInfo_eq_some hcreated.returned).2.2.1]
        simp [ht]
      rw [copies_of_done h hinfos hcount (hdone t ht) hinfo] at hc
      obtain ⟨i, hi, rfl⟩ := List.mem_map.mp hc
      rw [n_copyOf] at hx
      exact ⟨t, _, hinfo, i, List.mem_range.mp hi, hx⟩
    · -- no other worker was launched
      have habsent := (proceeds_reach h).absent t
      rw [hmain] at habsent
      rw [((loopInv_reach h).absent t (habsent.mpr (not_lt.mp ht))).1] at hc
      cases hc
  · rintro ⟨t, info, hinfo, i, hi, hx⟩
    have ht := (hcreated.getElem?_infos hinfo).1
    refine ⟨t, _, ?_, by rwa [n_copyOf]⟩
    rw [copies_of_done h hinfos hcount (hdone t ht) hinfo]
    exact List.mem_map_of_mem (List.mem_range.mpr hi)

theorem stored_of_spread (hlayout : BwLayout o libs) (hsetup : createdInfo o libs = some setup) {final : ℕ → UInt8}
    (h : Spread (createdMem o libs mem) hub.byte (fun x => ∃ (t : ℕ) (info : ThreadInfo), setup.infos[t]? = some info ∧
      ∃ i < o.nbAccesses.toNat, Within (copyOf hub o.accessSize info (accessAt o setup.accessCount i)).dst.toNat
        o.accessSize.toNat x) final) : Stored o libs hub setup mem final := by
  have hcreated := hlayout.created hsetup
  have hmapping : ∀ {x t info}, setup.infos[t]? = some info → InSlots o setup.accessCount info x →
      Within libs.addr.toNat (createBufferSize o.size).toNat x := fun hinfo ⟨i, hi, hx⟩ =>
    hlayout.slot_within hsetup hi 0 hinfo hx
  cases hub with
  | read =>
    have hzero : ∀ x, Within libs.addr.toNat (createBufferSize o.size).toNat x → final x = 0 := fun x hx =>
      h.eq_of_eq (createdMem_mapping hlayout hx)
    refine ⟨fun x t info hinfo hx => hzero x (hmapping hinfo hx), fun x hx _ => hzero x hx, fun x t ht hx => ?_,
      fun x hx hbuffers => ?_⟩
    · split
      · rename_i hnone
        rw [h.eq_of_not x, createdMem_buffer ht hx]
        rintro ⟨-, -, -, i, hi, -⟩
        rw [hnone] at hi
        exact Nat.not_lt_zero i hi
      · rename_i hsome
        have hpos : 0 < o.nbAccesses.toNat := Nat.pos_of_ne_zero fun hz => hsome (UInt64.toNat_inj.mp hz)
        have hinfo : setup.infos[t]? = some (threadInfo o.accessSize libs.alignedAlloc libs.addr (createBufferSize o.size)
            o.threads o.accessmode t) := by
          rw [(createThreadInfo_eq_some hsetup).2.2.1]
          simp [ht]
        refine h.at_of x ⟨t, _, hinfo, 0, hpos, ?_⟩
        rwa [copyOf, copyIn, hcreated.buffer hinfo]
    · rw [h.eq_of_not x, createdMem_other hx hbuffers]
      rintro ⟨t, info, hinfo, i, -, hx'⟩
      rw [copyOf, copyIn, hcreated.buffer hinfo] at hx'
      exact hbuffers t (hcreated.getElem?_infos hinfo).1 hx'
  | write =>
    refine ⟨fun x t info hinfo ⟨i, hi, hx⟩ => h.at_of x ⟨t, info, hinfo, i, hi, hx⟩, fun x hx hslots => ?_,
      fun x t ht hx => ?_, fun x hx hbuffers => ?_⟩
    · rw [h.eq_of_not x, createdMem_mapping hlayout hx]
      rintro ⟨t, info, hinfo, i, hi, hx'⟩
      exact hslots t info hinfo ⟨i, hi, hx'⟩
    · rw [h.eq_of_eq (createdMem_buffer ht hx)]
      exact (ite_self _).symm
    · rw [h.eq_of_not x, createdMem_other hx hbuffers]
      rintro ⟨t, info, hinfo, i, hi, hx'⟩
      exact hx (hmapping hinfo ⟨i, hi, hx'⟩)

/-- Every schedule of the program with either hub ends, and the memory it leaves is the same in all of them. -/
theorem bwMain_stores (hlayout : BwLayout o libs) (hub : Hub) (mem : ℕ → UInt8) :
    Ends (storedMain o libs hub) (StoredState.init mem) fun s =>
      (s.run.main = .died ∧ createdInfo o libs = none ∧ s.mem = clearedMem o libs mem) ∨
        ∃ setup, createdInfo o libs = some setup ∧ s.run.main = .finished ∧ Stored o libs hub setup mem s.mem := by
  have hends := (bwMain_stops o libs hub).lift (f := StoredState.run) (x := StoredState.init mem)
    (fun _ _ _ h => ⟨_, (storedMain_eq_some h).1⟩) fun s a r hr => ⟨a, _, by rw [storedMain, hr]; rfl⟩
  refine hends.mono fun s hs hstopped => ?_
  obtain ⟨hreach, hinv⟩ := storeInv_reach hlayout hs
  cases hstopped with
  | died hmain hnone => exact Or.inl ⟨hmain, hnone, hinv.died hmain⟩
  | finished hmain hsetup hinfos hcount hdone =>
    refine Or.inr ⟨_, hsetup, hmain, stored_of_spread hlayout hsetup ?_⟩
    have hspread := hinv.created (by simp [hmain]) (by simp [hmain])
    exact hspread.congr fun x =>
      (touched_iff hreach (hlayout.created hsetup) hmain hinfos hcount hdone x).symm

/-- `-s 4096 -t 1 -r 1 -a 64 -n 8`, with the loop of `write_random`: all accesses go to the first slot. -/
theorem bwMain_stores_random : ∃ s, Reach (storedMain ⟨4096, 1, .random, .grouped, 64, 8⟩
    ⟨0x10000, fun _ => 0x1000, fun _ => 1⟩ .write) (StoredState.init fun _ => 7) s ∧ s.mem 0x1003F = 42 ∧
      s.mem 0x10040 = 0 ∧ s.mem 0x11000 = 7 := by
  have hlayout : BwLayout ⟨4096, 1, .random, .grouped, 64, 8⟩ ⟨0x10000, fun _ => 0x1000, fun _ => 1⟩ := by
    refine ⟨by decide, by decide, fun t _ x hx hx' => ?_, nofun⟩
    have hle : 0x10000 ≤ x := hx.1
    have hlt : x < 0x1000 + 64 := hx'.2
    omega
  obtain ⟨s, hs, ⟨-, hnone, -⟩ | ⟨setup, hsetup, -, hstored⟩⟩ := (bwMain_stores hlayout .write fun _ => 7).exists
  · cases hnone
  · obtain rfl := Option.some.inj hsetup
    refine ⟨s, hs, hstored.slots _ 0 _ rfl ⟨0, by decide, by decide⟩, hstored.mapping _ (by decide) ?_,
      hstored.others _ (by decide) (by decide)⟩
    intro t info hinfo ⟨i, hi, hx⟩
    obtain ⟨ht, rfl⟩ := (hlayout.created rfl).getElem?_infos hinfo
    obtain rfl : t = 0 := Nat.lt_one_iff.mp ht
    have hnone : ∀ i < 8, ¬ Within ((threadInfo 64 (fun _ => 0x1000) 0x10000 4096 1 .grouped 0).slot
        (accessAt ⟨4096, 1, .random, .grouped, 64, 8⟩ 64 i)).toNat 64 0x10040 := by decide
    exact hnone i hi hx

end Program

end GraphBenchmark
