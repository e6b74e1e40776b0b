import GraphBenchmark.Bandwidth.Slots
import GraphBenchmark.Bandwidth.Loops

/-! # Where the random loops go

`read_random` and `write_random` take slot `lehmer64()%access_count`. Whatever the generator returns, that is a slot of
the thread, so an access stays in the mapping and off the slots of the other threads. -/
namespace GraphBenchmark
open Interleaving Words
set_option autoImplicit false

/-- The address in the mapping that a copy of a read or of a write goes to. -/
def Memcpy.memaddr (hub : Hub) (c : Memcpy) : UInt64 :=
  match hub with
  | .read => c.src
  | .write => c.dst

/-- The copies `run t info` of thread `t` stay in the mapping, and those of two threads do not overlap. -/
structure Confined (hub : ℕ → Hub) (buffer sz : UInt64) (infos : List ThreadInfo)
    (run : ℕ → ThreadInfo → List Memcpy) : Prop where
  inside : ∀ t info, infos[t]? = some info → ∀ c ∈ run t info,
    buffer.toNat ≤ (c.memaddr (hub t)).toNat ∧
      (c.memaddr (hub t)).toNat + c.n.toNat ≤ buffer.toNat + sz.toNat
  apart : ∀ t u infoT infoU, infos[t]? = some infoT → infos[u]? = some infoU → t ≠ u →
    ∀ c ∈ run t infoT, ∀ d ∈ run u infoU,
      (c.memaddr (hub t)).toNat + c.n.toNat ≤ (d.memaddr (hub u)).toNat ∨
        (d.memaddr (hub u)).toNat + d.n.toNat ≤ (c.memaddr (hub t)).toNat

/-- `randomSlot` with a generator that returns `outputs`. -/
def drawnSlot (accessCount : UInt64) (outputs : ℕ → UInt64) (i : UInt64) (g : BitVec 128) : UInt64 × BitVec 128 :=
  (outputs i.toNat % accessCount, g)

/-- The copies of `read_random` and `write_random` where `lehmer64` returns `outputs`. -/
def drawnRun (hub : Hub) (accessSize accessCount nbAccesses : UInt64) (outputs : ℕ → UInt64) (info : ThreadInfo) :
    List Memcpy :=
  (accessLoop (drawnSlot accessCount outputs) (copyOf hub accessSize info) 0 nbAccesses.toNat).1

/-- The random loops are confined with every sequence of outputs, those of `lehmer64` among them. -/
structure RandomConfined (accessSize nbAccesses buffer sz : UInt64) (setup : Setup) : Prop where
  drawn : ∀ (hub : ℕ → Hub) (outputs : ℕ → ℕ → UInt64), Confined hub buffer sz setup.infos fun t =>
    drawnRun (hub t) accessSize setup.accessCount nbAccesses (outputs t)
  read : ∀ g : ℕ → BitVec 128, Confined (fun _ => .read) buffer sz setup.infos fun t info =>
    (readRandom accessSize setup.accessCount info nbAccesses (g t)).1
  write : ∀ g : ℕ → BitVec 128, Confined (fun _ => .write) buffer sz setup.infos fun t info =>
    (writeRandom accessSize setup.accessCount info nbAccesses (g t)).1

/-! ## The copies of a loop -/

theorem mem_accessLoop {slot : UInt64 → BitVec 128 → UInt64 × BitVec 128} {copy : UInt64 → Memcpy} {g : BitVec 128}
    {n : ℕ} {c : Memcpy} (h : c ∈ (accessLoop slot copy g n).1) :
    ∃ i < n, ∃ g', c = copy (slot (UInt64.ofNat i) g').1 := by
  induction n with
  | zero => exact absurd h List.not_mem_nil
  | succ n ih =>
    rw [accessLoop] at h
    rcases List.mem_append.mp h with h | h
    · obtain ⟨i, hi, hc⟩ := ih h
      exact ⟨i, Nat.lt_succ_of_lt hi, hc⟩
    · exact ⟨n, Nat.lt_succ_self n, _, List.mem_singleton.mp h⟩

@[simp] theorem memaddr_copyOf (hub : Hub) (accessSize : UInt64) (info : ThreadInfo) (loc : UInt64) :
    (copyOf hub accessSize info loc).memaddr hub = info.slot loc := by
  cases hub <;> rfl

@[simp] theorem n_copyOf (hub : Hub) (accessSize : UInt64) (info : ThreadInfo) (loc : UInt64) :
    (copyOf hub accessSize info loc).n = accessSize := by
  cases hub <;> rfl

section Created
variable {accessSize nbAccesses buffer sz : UInt64} {alignedAlloc : ℕ → UInt64} {rand : UInt32 → Int32} {threads : ℕ}
  {m : AccessMode} {setup : Setup}

namespace InfosCreated
variable (h : InfosCreated accessSize alignedAlloc rand buffer sz threads m setup)
include h

theorem mod_lt_accessCount (v : UInt64) : (v % setup.accessCount).toNat < setup.accessCount.toNat := by
  rw [UInt64.toNat_mod]
  exact Nat.mod_lt _ h.accessCount_pos

/-- Copies of slots below `access_count` are confined. -/
theorem confined {hub : ℕ → Hub} {run : ℕ → ThreadInfo → List Memcpy}
    (hrun : ∀ t info, setup.infos[t]? = some info → ∀ c ∈ run t info, ∃ loc : UInt64,
      loc.toNat < setup.accessCount.toNat ∧ c = copyOf (hub t) accessSize info loc) :
    Confined hub buffer sz setup.infos run := by
  refine ⟨fun t info ht c hc => ?_, fun t u infoT infoU hT hU htu c hc d hd => ?_⟩
  · obtain ⟨loc, hloc, rfl⟩ := hrun t info ht c hc
    obtain ⟨hlt, rfl⟩ := h.getElem?_infos ht
    simpa only [memaddr_copyOf, n_copyOf] using h.slot_fits hlt hloc
  · obtain ⟨loc, hloc, rfl⟩ := hrun t infoT hT c hc
    obtain ⟨loc', hloc', rfl⟩ := hrun u infoU hU d hd
    obtain ⟨ht, rfl⟩ := h.getElem?_infos hT
    obtain ⟨hu, rfl⟩ := h.getElem?_infos hU
    simpa only [memaddr_copyOf, n_copyOf] using h.slot_apart ht hu hloc hloc' (Or.inl htu)

/-- So is a loop whose slots are remainders modulo `access_count`. -/
theorem accessLoop_confined {hub : ℕ → Hub} {slot : ℕ → UInt64 → BitVec 128 → UInt64 × BitVec 128}
    (hslot : ∀ t i g, ∃ v, (slot t i g).1 = v % setup.accessCount) (g : ℕ → BitVec 128) (n : ℕ) :
    Confined hub buffer sz setup.infos fun t info => (accessLoop (slot t) (copyOf (hub t) accessSize info) (g t) n).1 := by
  refine h.confined fun t info _ c hc => ?_
  obtain ⟨i, -, g', rfl⟩ := mem_accessLoop hc
  obtain ⟨v, hv⟩ := hslot t _ g'
  exact ⟨_, hv ▸ h.mod_lt_accessCount v, rfl⟩

theorem randomConfined (nbAccesses : UInt64) : RandomConfined accessSize nbAccesses buffer sz setup := by
  refine ⟨fun hub outputs => ?_, fun g => ?_, fun g => ?_⟩
  · exact h.accessLoop_confined (fun t i _ => ⟨outputs t i.toNat, rfl⟩) (fun _ => 0) _
  · exact h.accessLoop_confined (fun _ _ g => ⟨(lehmer64 g).1, rfl⟩) g _
  · exact h.accessLoop_confined (fun _ _ g => ⟨(lehmer64 g).1, rfl⟩) g _

end InfosCreated

/-- On a mapping of any size `create_buffer` makes, with a slot or more for each thread, all accesses of the random
loops stay in the mapping and off those of the other threads. -/
theorem randomConfined_of_accessCount (accessSize nbAccesses buffer sz : UInt64) (alignedAlloc : ℕ → UInt64)
    (rand : UInt32 → Int32) (threads : ℕ) (m : AccessMode) (hthreads : threads < 2 ^ 31)
    (hmapped : buffer.toNat + (createBufferSize sz).toNat ≤ 2 ^ 64)
    (hcount : 1 ≤ (createBufferSize sz).toNat / threads / accessSize.toNat) :
    ∃ setup, createThreadInfo accessSize alignedAlloc rand buffer (createBufferSize sz) threads m = some setup ∧
      setup.accessCount.toNat = (createBufferSize sz).toNat / threads / accessSize.toNat ∧
      RandomConfined accessSize nbAccesses buffer (createBufferSize sz) setup := by
  have hsome : createThreadInfo accessSize alignedAlloc rand buffer (createBufferSize sz) threads m ≠ none := by
    intro hnone
    have hzero := congrArg UInt64.toNat (createThreadInfo_eq_none_iff.mp hnone)
    rw [UInt64.toNat_div, UInt64.toNat_div, toNat_ofNat64 (by omega)] at hzero
    change _ = 0 at hzero
    omega
  obtain ⟨setup, hsetup⟩ := Option.ne_none_iff_exists'.mp hsome
  have hcreated : InfosCreated accessSize alignedAlloc rand buffer (createBufferSize sz) threads m setup :=
    ⟨hthreads, hsetup, hmapped⟩
  exact ⟨setup, hsetup, hcreated.toNat_accessCount, hcreated.randomConfined nbAccesses⟩

end Created

/-- Three threads share two pages in accesses of 100 bytes; neither division goes without a remainder. -/
theorem randomConfined_remainders : ∃ setup,
    createThreadInfo 100 (fun _ => 0x1000) (fun _ => 1) 0x10000 (createBufferSize 5000) 3 .interleaved = some setup ∧
      setup.accessCount.toNat = (createBufferSize 5000).toNat / 3 / 100 ∧
      RandomConfined 100 64 0x10000 (createBufferSize 5000) setup :=
  randomConfined_of_accessCount 100 64 0x10000 5000 (fun _ => 0x1000) (fun _ => 1) 3 .interleaved (by decide) (by decide)
    (by decide)

/-! ## In the program -/

section Program
variable {o : BwOptions} {libs : BwLibs} {hub : Hub} {s : BwState}

/-- The records and `access_count` are those of `create_thread_info`, from its call on. -/
theorem bwMain_setup (h : Reach (bwMain o libs hub) BwState.init s) :
    s.infos = [] ∨ ∃ setup, createdInfo o libs = some setup ∧ s.infos = setup.infos ∧ s.accessCount = setup.accessCount := by
  refine h.invariant (P := fun s => s.infos = [] ∨
    ∃ setup, createdInfo o libs = some setup ∧ s.infos = setup.infos ∧ s.accessCount = setup.accessCount)
    (Or.inl rfl) fun u a v hu ha => ?_
  cases a with
  | main =>
    cases mainStep_move ha with
    | create hmain hsetup => exact Or.inr ⟨_, hsetup, rfl, rfl⟩
    | _ => exact hu
  | worker t => cases workerStep_move ha <;> exact hu
  | wake t =>
    obtain ⟨b, -, rfl⟩ := Option.map_eq_some_iff.mp ha
    exact hu

end Program

end GraphBenchmark
