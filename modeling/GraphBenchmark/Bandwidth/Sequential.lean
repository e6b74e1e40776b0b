import GraphBenchmark.Bandwidth.Slots
import GraphBenchmark.Foundations.Masks
import Mathlib.Order.Interval.Finset.Nat

/-! # Where the sequential loops go

`read_seq` and `write_seq` take slot `i&access_count`. That is slot `i mod access_count` for all accesses of a run
only when the run stops before the slots come round and `access_count` has every bit set that occurs below its
length. -/
namespace GraphBenchmark
open Masks
set_option autoImplicit false

/-- The accesses at `addrs` walk over the slots of the threads, round after round. -/
structure Walks (accessSize nbAccesses buffer sz : UInt64) (setup : Setup) (addrs : ThreadInfo → List UInt64) :
    Prop where
  length : ∀ info ∈ setup.infos, (addrs info).length = nbAccesses.toNat
  slot : ∀ info ∈ setup.infos, ∀ i < nbAccesses.toNat,
    (addrs info)[i]? = some (info.slot (UInt64.ofNat (i % setup.accessCount.toNat)))
  rounds : ∀ info ∈ setup.infos, ∀ i, i + setup.accessCount.toNat ≤ nbAccesses.toNat →
    ∀ j < setup.accessCount.toNat,
      (((addrs info).drop i).take setup.accessCount.toNat).count (info.slot (UInt64.ofNat j)) = 1
  inside : ∀ info ∈ setup.infos, ∀ a ∈ addrs info,
    buffer.toNat ≤ a.toNat ∧ a.toNat + accessSize.toNat ≤ buffer.toNat + sz.toNat
  apart : ∀ (t u : ℕ) (infoT infoU : ThreadInfo), setup.infos[t]? = some infoT → setup.infos[u]? = some infoU → t ≠ u →
    ∀ a ∈ addrs infoT, ∀ b ∈ addrs infoU,
      a.toNat + accessSize.toNat ≤ b.toNat ∨ b.toNat + accessSize.toNat ≤ a.toNat

theorem Walks.congr {accessSize nbAccesses buffer sz : UInt64} {setup : Setup} {addrs addrs' : ThreadInfo → List UInt64}
    (h : Walks accessSize nbAccesses buffer sz setup addrs) (heq : ∀ info ∈ setup.infos, addrs' info = addrs info) :
    Walks accessSize nbAccesses buffer sz setup addrs' := by
  refine ⟨fun info hinfo => ?_, fun info hinfo => ?_, fun info hinfo => ?_, fun info hinfo => ?_,
    fun t u infoT infoU hT hU => ?_⟩
  · rw [heq info hinfo]
    exact h.length info hinfo
  · rw [heq info hinfo]
    exact h.slot info hinfo
  · rw [heq info hinfo]
    exact h.rounds info hinfo
  · rw [heq info hinfo]
    exact h.inside info hinfo
  · rw [heq infoT (List.mem_of_getElem? hT), heq infoU (List.mem_of_getElem? hU)]
    exact h.apart t u infoT infoU hT hU

/-- Both sequential loops walk over the slots, wherever the generators of the workers stand. -/
def SequentialWalks (accessSize nbAccesses buffer sz : UInt64) (setup : Setup) : Prop :=
  ∀ g : BitVec 128,
    (Walks accessSize nbAccesses buffer sz setup fun info =>
      (readSeq accessSize setup.accessCount info nbAccesses g).1.map Memcpy.src) ∧
    Walks accessSize nbAccesses buffer sz setup fun info =>
      (writeSeq accessSize setup.accessCount info nbAccesses g).1.map Memcpy.dst

/-! ## The loops -/

section Loops
variable {accessSize accessCount : UInt64} {info : ThreadInfo}

theorem accessLoop_seq (copy : UInt64 → Memcpy) (g : BitVec 128) (n : ℕ) :
    accessLoop (seqSlot accessCount) copy g n =
      ((List.range n).map fun i => copy (UInt64.ofNat i &&& accessCount), g) := by
  induction n with
  | zero => rfl
  | succ n ih =>
    rw [accessLoop, ih, List.range_succ, List.map_append]
    rfl

/-- The addresses of a sequential run of `n` accesses. -/
def seqAddrs (accessCount : UInt64) (n : ℕ) (info : ThreadInfo) : List UInt64 :=
  (List.range n).map fun i => info.slot (UInt64.ofNat i &&& accessCount)

theorem readSeq_addrs (nbAccesses : UInt64) (g : BitVec 128) :
    (readSeq accessSize accessCount info nbAccesses g).1.map Memcpy.src = seqAddrs accessCount nbAccesses.toNat info := by
  rw [readSeq, accessLoop_seq, List.map_map]
  rfl

theorem writeSeq_addrs (nbAccesses : UInt64) (g : BitVec 128) :
    (writeSeq accessSize accessCount info nbAccesses g).1.map Memcpy.dst = seqAddrs accessCount nbAccesses.toNat info := by
  rw [writeSeq, accessLoop_seq, List.map_map]
  rfl

theorem seqAddrs_getElem? {n i : ℕ} (hi : i < n) :
    (seqAddrs accessCount n info)[i]? = some (info.slot (UInt64.ofNat i &&& accessCount)) := by
  rw [seqAddrs, List.getElem?_map, List.getElem?_range hi]
  rfl

end Loops

theorem sequentialWalks_iff_walks {accessSize nbAccesses buffer sz : UInt64} {setup : Setup} :
    SequentialWalks accessSize nbAccesses buffer sz setup ↔
      Walks accessSize nbAccesses buffer sz setup (seqAddrs setup.accessCount nbAccesses.toNat) := by
  simp only [SequentialWalks, readSeq_addrs, writeSeq_addrs, and_self, forall_const]

/-! ## Slots and addresses -/

section Slots
variable {accessSize nbAccesses buffer sz : UInt64} {alignedAlloc : ℕ → UInt64} {rand : UInt32 → Int32} {threads : ℕ}
  {m : AccessMode} {setup : Setup}

namespace InfosCreated
variable (h : InfosCreated accessSize alignedAlloc rand buffer sz threads m setup)
include h

theorem stride_pos : 0 < slotOffset m threads (sz.toNat / threads) accessSize.toNat 0 1 := by
  have hsize := h.accessSize_pos
  have hthreads := h.threads_pos
  cases m with
  | grouped => simpa only [slotOffset, Nat.zero_mul, Nat.zero_add, Nat.one_mul] using hsize
  | interleaved => simpa only [slotOffset, Nat.zero_add, Nat.one_mul] using Nat.mul_pos hthreads hsize

/-- Up to `access_count` itself, different slots have different addresses. -/
theorem slot_inj {info : ThreadInfo} (hinfo : info ∈ setup.infos) {a b : UInt64}
    (ha : a.toNat ≤ setup.accessCount.toNat) (hb : b.toNat ≤ setup.accessCount.toNat)
    (heq : info.slot a = info.slot b) : a = b := by
  obtain ⟨t, -, rfl⟩ := h.mem_infos.mp hinfo
  have hsz := sz.toNat_lt
  have hproduct : ∀ c : UInt64, c.toNat ≤ setup.accessCount.toNat →
      (c * (threadInfo accessSize alignedAlloc buffer sz threads m t).stride).toNat =
        c.toNat * slotOffset m threads (sz.toNat / threads) accessSize.toNat 0 1 := by
    intro c hc
    have hle := (Nat.mul_le_mul_right _ hc).trans h.strides_le
    rw [UInt64.toNat_mul, h.toNat_stride, Nat.mod_eq_of_lt (by omega)]
  have hmul := congrArg UInt64.toNat ((UInt64.add_right_inj _).mp heq)
  rw [hproduct a ha, hproduct b hb] at hmul
  exact UInt64.toNat_inj.mp (Nat.eq_of_mul_eq_mul_right h.stride_pos hmul)

theorem toNat_ofNat_mod (i : ℕ) :
    (UInt64.ofNat (i % setup.accessCount.toNat)).toNat = i % setup.accessCount.toNat :=
  UInt64.toNat_ofNat_of_lt' ((Nat.mod_lt _ h.accessCount_pos).trans setup.accessCount.toNat_lt)

theorem slot_and_eq_iff {info : ThreadInfo} (hinfo : info ∈ setup.infos) {i : ℕ} (hi : i < 2 ^ 64) :
    info.slot (UInt64.ofNat i &&& setup.accessCount) = info.slot (UInt64.ofNat (i % setup.accessCount.toNat)) ↔
      i &&& setup.accessCount.toNat = i % setup.accessCount.toNat := by
  have hand : (UInt64.ofNat i &&& setup.accessCount).toNat = i &&& setup.accessCount.toNat := by
    rw [UInt64.toNat_and, UInt64.toNat_ofNat_of_lt' hi]
  have hmod := h.toNat_ofNat_mod i
  constructor
  · intro heq
    have hloc := h.slot_inj hinfo (by rw [hand]; exact Nat.and_le_right)
      (by rw [hmod]; exact (Nat.mod_lt _ h.accessCount_pos).le) heq
    rw [← hand, ← hmod, hloc]
  · intro heq
    refine congrArg info.slot (UInt64.toNat_inj.mp ?_)
    rw [hand, hmod, heq]

end InfosCreated

/-! ## Walking -/

/-- A run of consecutive numbers of length `n` has each remainder modulo `n` once. -/
theorem range'_map_mod_perm (i n : ℕ) : ((List.range' i n).map (· % n)).Perm (List.range n) := by
  have hmod := Nat.multiset_Ico_map_mod i n
  have hIco : Multiset.Ico i (i + n) = (List.range' i n : Multiset ℕ) := by
    show (List.range' i (i + n - i) : Multiset ℕ) = _
    rw [Nat.add_sub_cancel_left]
  rw [hIco, Multiset.map_coe] at hmod
  exact Multiset.coe_eq_coe.mp hmod

/-- Accesses to slot `i mod access_count` walk over the slots. -/
theorem walks_of_slots (h : InfosCreated accessSize alignedAlloc rand buffer sz threads m setup) :
    Walks accessSize nbAccesses buffer sz setup fun info =>
      (List.range nbAccesses.toNat).map fun i => info.slot (UInt64.ofNat (i % setup.accessCount.toNat)) := by
  have hlt : ∀ i : ℕ, (UInt64.ofNat (i % setup.accessCount.toNat)).toNat < setup.accessCount.toNat := fun i => by
    rw [h.toNat_ofNat_mod]
    exact Nat.mod_lt _ h.accessCount_pos
  refine ⟨fun info _ => by simp, fun info _ i hi => ?_, fun info hinfo i hi j hj => ?_, fun info hinfo a ha => ?_,
    fun t u infoT infoU hT hU htu a ha b hb => ?_⟩
  · rw [List.getElem?_map, List.getElem?_range hi]
    rfl
  · have hwindow : (((List.range nbAccesses.toNat).map fun i =>
        info.slot (UInt64.ofNat (i % setup.accessCount.toNat))).drop i).take setup.accessCount.toNat =
        ((List.range' i setup.accessCount.toNat).map (· % setup.accessCount.toNat)).map fun j =>
          info.slot (UInt64.ofNat j) := by
      rw [← List.map_drop, ← List.map_take, List.range_eq_range', List.drop_range',
        List.take_range'_of_length_ge (by omega), List.map_map, Nat.zero_add, Nat.mul_one]
      rfl
    rw [hwindow, ((range'_map_mod_perm i _).map _).count_eq]
    refine List.count_eq_one_of_mem (List.Nodup.map_on (fun a ha b hb heq => ?_) List.nodup_range)
      (List.mem_map_of_mem (List.mem_range.mpr hj))
    have hac := setup.accessCount.toNat_lt
    have ha' := UInt64.toNat_ofNat_of_lt' ((List.mem_range.mp ha).trans hac)
    have hb' := UInt64.toNat_ofNat_of_lt' ((List.mem_range.mp hb).trans hac)
    have hslot := h.slot_inj hinfo (by rw [ha']; exact (List.mem_range.mp ha).le)
      (by rw [hb']; exact (List.mem_range.mp hb).le) heq
    rw [← ha', ← hb', hslot]
  · obtain ⟨i, -, rfl⟩ := List.mem_map.mp ha
    obtain ⟨t, ht, rfl⟩ := h.mem_infos.mp hinfo
    exact h.slot_fits ht (hlt i)
  · obtain ⟨i, -, rfl⟩ := List.mem_map.mp ha
    obtain ⟨j, -, rfl⟩ := List.mem_map.mp hb
    obtain ⟨ht, rfl⟩ := h.getElem?_infos hT
    obtain ⟨hu, rfl⟩ := h.getElem?_infos hU
    exact h.slot_apart ht hu (hlt i) (hlt j) (Or.inl htu)

/-- The sequential loops walk over the slots for exactly these numbers of accesses. -/
theorem sequentialWalks_iff (h : InfosCreated accessSize alignedAlloc rand buffer sz threads m setup) :
    SequentialWalks accessSize nbAccesses buffer sz setup ↔
      nbAccesses.toNat ≤ sz.toNat / threads / accessSize.toNat ∧
        ∃ k, nbAccesses.toNat ≤ 2 ^ k ∧ sz.toNat / threads / accessSize.toNat % 2 ^ k = 2 ^ k - 1 := by
  rw [sequentialWalks_iff_walks, ← h.toNat_accessCount, ← forall_and_eq_mod_iff h.accessCount_pos]
  constructor
  · intro hwalks i hi
    have hinfo := h.mem_infos.mpr ⟨0, h.threads_pos, rfl⟩
    have hslot := hwalks.slot _ hinfo i hi
    rw [seqAddrs_getElem? hi] at hslot
    exact (h.slot_and_eq_iff hinfo (hi.trans nbAccesses.toNat_lt)).mp (Option.some.inj hslot)
  · intro hslots
    have heq : ∀ info ∈ setup.infos, seqAddrs setup.accessCount nbAccesses.toNat info =
        (List.range nbAccesses.toNat).map fun i => info.slot (UInt64.ofNat (i % setup.accessCount.toNat)) := by
      intro info hinfo
      refine List.map_congr_left fun i hi => ?_
      have hlt := List.mem_range.mp hi
      exact (h.slot_and_eq_iff hinfo (hlt.trans nbAccesses.toNat_lt)).mpr (hslots i hlt)
    exact (walks_of_slots h).congr heq

end Slots

theorem sequentialWalks_all_bits_set : ∃ setup,
    createThreadInfo 65 (fun _ => 0x1000) (fun _ => 1) 0x10000 4096 1 .interleaved = some setup ∧
      SequentialWalks 65 63 0x10000 4096 setup := by
  have hcreated : InfosCreated 65 (fun _ => 0x1000) (fun _ => 1) 0x10000 4096 1 .interleaved _ := ⟨by decide, rfl, by decide⟩
  exact ⟨_, rfl, (sequentialWalks_iff hcreated).mpr ⟨by decide, 6, by decide, by decide⟩⟩

/-- One page, one thread, accesses of 64 bytes: there are 64 slots, and the second access goes to the first of them
again. -/
theorem not_sequentialWalks_page : ∃ setup,
    createThreadInfo 64 (fun _ => 0x1000) (fun _ => 1) 0x10000 4096 1 .grouped = some setup ∧
      ¬ SequentialWalks 64 2 0x10000 4096 setup := by
  refine ⟨_, rfl, fun h => ?_⟩
  have hslot := (h 0).1.slot _ (List.mem_singleton.mpr rfl) 1 (by decide)
  rw [readSeq_addrs, seqAddrs_getElem? (by decide)] at hslot
  exact absurd (Option.some.inj hslot) (by decide)

end GraphBenchmark
