import GraphBenchmark.Model.Bandwidth
import GraphBenchmark.Foundations.Words
import Mathlib.Tactic.Ring

/-! # Where the slots of the threads lie

Thread `t` has `access_count` slots of `access_size` bytes. In both layouts they lie inside the buffer, and no two
slots of any threads overlap. -/
namespace GraphBenchmark
open Words
set_option autoImplicit false

/-- The address of slot `j` of a thread. -/
def ThreadInfo.slot (info : ThreadInfo) (j : UInt64) : UInt64 := info.start + j * info.stride

/-- How far slot `j` of thread `t` lies from the start of the buffer. -/
def slotOffset (m : AccessMode) (threads partition accessSize t j : ℕ) : ℕ :=
  match m with
  | .grouped => t * partition + j * accessSize
  | .interleaved => (t + j * threads) * accessSize

/-! ## Offsets -/

section Offsets
variable {m : AccessMode} {threads partition accessSize ac sz t u j k : ℕ}

theorem slotOffset_eq (m : AccessMode) (threads partition accessSize t j : ℕ) :
    slotOffset m threads partition accessSize t j =
      slotOffset m threads partition accessSize t 0 + j * slotOffset m threads partition accessSize 0 1 := by
  cases m <;> simp only [slotOffset] <;> ring

theorem slotOffset_fits (hpart : threads * partition ≤ sz) (hac : ac * accessSize ≤ partition) (ht : t < threads)
    (hj : j < ac) : slotOffset m threads partition accessSize t j + accessSize ≤ sz := by
  cases m with
  | grouped =>
    have hslot : (j + 1) * accessSize ≤ ac * accessSize := Nat.mul_le_mul_right _ hj
    have hthread : (t + 1) * partition ≤ threads * partition := Nat.mul_le_mul_right _ ht
    simp only [Nat.add_mul, Nat.one_mul] at hslot hthread
    simp only [slotOffset]
    omega
  | interleaved =>
    have hslot : (j + 1) * threads ≤ ac * threads := Nat.mul_le_mul_right _ hj
    simp only [Nat.add_mul, Nat.one_mul] at hslot
    simp only [slotOffset]
    calc (t + j * threads) * accessSize + accessSize = (t + j * threads + 1) * accessSize := by ring
      _ ≤ ac * threads * accessSize := Nat.mul_le_mul_right _ (by omega)
      _ = threads * (ac * accessSize) := by ring
      _ ≤ threads * partition := Nat.mul_le_mul_left _ hac
      _ ≤ sz := hpart

theorem slotOffset_apart (hac : ac * accessSize ≤ partition) (ht : t < threads) (hu : u < threads) (hj : j < ac)
    (hk : k < ac) (hne : t ≠ u ∨ j ≠ k) :
    slotOffset m threads partition accessSize t j + accessSize ≤ slotOffset m threads partition accessSize u k ∨
      slotOffset m threads partition accessSize u k + accessSize ≤ slotOffset m threads partition accessSize t j := by
  cases m with
  | grouped =>
    have hstep : ∀ a b, a < b → (a + 1) * accessSize ≤ b * accessSize := fun a b h => Nat.mul_le_mul_right _ h
    have hthread : ∀ a b, a < b → (a + 1) * partition ≤ b * partition := fun a b h => Nat.mul_le_mul_right _ h
    have hj' := hstep j ac hj
    have hk' := hstep k ac hk
    simp only [Nat.add_mul, Nat.one_mul] at hstep hthread hj' hk'
    simp only [slotOffset]
    rcases Nat.lt_trichotomy t u with htu | rfl | htu
    · have := hthread t u htu
      omega
    · rcases Nat.lt_trichotomy j k with hjk | rfl | hjk
      · have := hstep j k hjk
        omega
      · exact absurd rfl (hne.resolve_left (· rfl))
      · have := hstep k j hjk
        omega
    · have := hthread u t htu
      omega
  | interleaved =>
    have hstep : ∀ a b, a < b → a * accessSize + accessSize ≤ b * accessSize := fun a b h => by
      have := Nat.mul_le_mul_right accessSize (Nat.succ_le_of_lt h)
      simpa only [Nat.succ_eq_add_one, Nat.add_mul, Nat.one_mul] using this
    -- a slot number determines the thread and the slot
    have hnum : t + j * threads ≠ u + k * threads := by
      intro heq
      have hmod := congrArg (· % threads) heq
      simp only [Nat.add_mul_mod_self_right, Nat.mod_eq_of_lt ht, Nat.mod_eq_of_lt hu] at hmod
      subst hmod
      have hjk : j = k := Nat.eq_of_mul_eq_mul_right (by omega) (Nat.add_left_cancel heq)
      exact hne.elim (· rfl) (· hjk)
    simp only [slotOffset]
    rcases Nat.lt_or_gt_of_ne hnum with h | h
    · exact Or.inl (hstep _ _ h)
    · exact Or.inr (hstep _ _ h)

end Offsets

/-! ## Addresses -/

/-- The arguments of a call of `create_thread_info` that returned `setup`. -/
structure InfosCreated (accessSize : UInt64) (alignedAlloc : ℕ → UInt64) (rand : UInt32 → Int32) (buffer sz : UInt64)
    (threads : ℕ) (m : AccessMode) (setup : Setup) : Prop where
  int : threads < 2 ^ 31
  returned : createThreadInfo accessSize alignedAlloc rand buffer sz threads m = some setup
  mapped : buffer.toNat + sz.toNat ≤ 2 ^ 64

section Addresses
variable {accessSize buffer sz : UInt64} {alignedAlloc : ℕ → UInt64} {rand : UInt32 → Int32} {threads : ℕ}
  {m : AccessMode} {setup : Setup}

theorem createThreadInfo_eq_some
    (h : createThreadInfo accessSize alignedAlloc rand buffer sz threads m = some setup) :
    setup.accessCount = sz / UInt64.ofNat threads / accessSize ∧ setup.accessCount ≠ 0 ∧
      setup.infos = (List.range threads).map (threadInfo accessSize alignedAlloc buffer sz threads m) ∧
      setup.lehmer = (List.range threads).foldl (fun _ i => initSeed rand (UInt32.ofNat i)) 0 := by
  dsimp only [createThreadInfo] at h
  split at h
  · cases h
  · rename_i hne
    obtain rfl := Option.some.inj h
    exact ⟨rfl, hne, rfl, rfl⟩

theorem createThreadInfo_eq_none_iff :
    createThreadInfo accessSize alignedAlloc rand buffer sz threads m = none ↔
      sz / UInt64.ofNat threads / accessSize = 0 := by
  dsimp only [createThreadInfo]
  split
  · rename_i h
    exact iff_of_true rfl h
  · rename_i h
    exact iff_of_false (Option.some_ne_none _) h

namespace InfosCreated
variable (h : InfosCreated accessSize alignedAlloc rand buffer sz threads m setup)
include h

theorem toNat_threads : (UInt64.ofNat threads).toNat = threads := by
  have := h.int
  exact toNat_ofNat64 (by omega)

theorem toNat_accessCount : setup.accessCount.toNat = sz.toNat / threads / accessSize.toNat := by
  rw [(createThreadInfo_eq_some h.returned).1, UInt64.toNat_div, UInt64.toNat_div, h.toNat_threads]

theorem accessCount_pos : 0 < setup.accessCount.toNat := by
  have hne := (createThreadInfo_eq_some h.returned).2.1
  refine Nat.pos_of_ne_zero fun hz => hne (UInt64.toNat_inj.mp ?_)
  rw [hz]
  rfl

theorem accessSize_pos : 0 < accessSize.toNat := by
  refine Nat.pos_of_ne_zero fun hz => ?_
  have hpos := h.accessCount_pos
  rw [h.toNat_accessCount, hz, Nat.div_zero] at hpos
  omega

theorem threads_pos : 0 < threads := by
  refine Nat.pos_of_ne_zero fun hz => ?_
  have hpos := h.accessCount_pos
  rw [h.toNat_accessCount, hz, Nat.div_zero, Nat.zero_div] at hpos
  omega

theorem slots_le : setup.accessCount.toNat * accessSize.toNat ≤ sz.toNat / threads := by
  rw [h.toNat_accessCount]
  exact Nat.div_mul_le_self _ _

theorem mem_infos {info : ThreadInfo} :
    info ∈ setup.infos ↔ ∃ t < threads, threadInfo accessSize alignedAlloc buffer sz threads m t = info := by
  rw [(createThreadInfo_eq_some h.returned).2.2.1, List.mem_map]
  simp only [List.mem_range]

theorem getElem?_infos {t : ℕ} {info : ThreadInfo} (ht : setup.infos[t]? = some info) :
    t < threads ∧ info = threadInfo accessSize alignedAlloc buffer sz threads m t := by
  rw [(createThreadInfo_eq_some h.returned).2.2.1, List.getElem?_map] at ht
  obtain ⟨t', ht', rfl⟩ := Option.map_eq_some_iff.mp ht
  obtain ⟨hlt, rfl⟩ := List.getElem?_eq_some_iff.mp ht'
  rw [List.length_range] at hlt
  exact ⟨hlt, by rw [List.getElem_range]⟩

theorem toNat_start {t : ℕ} (ht : t < threads) :
    (threadInfo accessSize alignedAlloc buffer sz threads m t).start.toNat =
      buffer.toNat + slotOffset m threads (sz.toNat / threads) accessSize.toNat t 0 := by
  have hfits := slotOffset_fits (m := m) (Nat.mul_div_le _ _) h.slots_le ht h.accessCount_pos
  have hmapped := h.mapped
  have hpos := h.accessSize_pos
  have hint := h.int
  have ht' : (UInt64.ofNat t).toNat = t := toNat_ofNat64 (by omega)
  cases m with
  | grouped =>
    simp only [slotOffset, Nat.zero_mul, Nat.add_zero] at hfits
    simp only [threadInfo, slotOffset, UInt64.toNat_add, UInt64.toNat_mul, UInt64.toNat_div, ht', h.toNat_threads,
      Nat.zero_mul, Nat.add_zero]
    rw [Nat.mod_eq_of_lt (a := t * _) (by omega), Nat.mod_eq_of_lt (by omega)]
  | interleaved =>
    simp only [slotOffset, Nat.zero_mul, Nat.add_zero] at hfits
    simp only [threadInfo, slotOffset, UInt64.toNat_add, UInt64.toNat_mul, ht', Nat.zero_mul, Nat.add_zero]
    rw [Nat.mod_eq_of_lt (a := t * _) (by omega), Nat.mod_eq_of_lt (by omega)]

theorem toNat_stride (t : ℕ) :
    (threadInfo accessSize alignedAlloc buffer sz threads m t).stride.toNat =
      slotOffset m threads (sz.toNat / threads) accessSize.toNat 0 1 := by
  cases m with
  | grouped => simp only [threadInfo, slotOffset, Nat.zero_mul, Nat.zero_add, Nat.one_mul]
  | interleaved =>
    have hfits := slotOffset_fits (m := .interleaved) (Nat.mul_div_le _ _) h.slots_le
      (Nat.sub_lt h.threads_pos Nat.one_pos) h.accessCount_pos
    have hsz := sz.toNat_lt
    have hnum : threads * accessSize.toNat =
        (threads - 1 + 0 * threads) * accessSize.toNat + accessSize.toNat := by
      obtain ⟨n, rfl⟩ := Nat.exists_eq_succ_of_ne_zero (Nat.pos_iff_ne_zero.mp h.threads_pos)
      simp only [Nat.succ_eq_add_one, Nat.add_sub_cancel]
      ring
    simp only [threadInfo, slotOffset, UInt64.toNat_mul, h.toNat_threads, Nat.zero_add, Nat.one_mul]
    rw [Nat.mod_eq_of_lt]
    rw [hnum]
    exact hfits.trans_lt hsz

/-- All strides of a thread together fit in the buffer, so the offset of a slot does not wrap. -/
theorem strides_le :
    setup.accessCount.toNat * slotOffset m threads (sz.toNat / threads) accessSize.toNat 0 1 ≤ sz.toNat := by
  have hslots := h.slots_le
  cases m with
  | grouped =>
    simp only [slotOffset, Nat.zero_mul, Nat.zero_add, Nat.one_mul]
    exact hslots.trans (Nat.div_le_self _ _)
  | interleaved =>
    simp only [slotOffset, Nat.zero_add, Nat.one_mul]
    calc setup.accessCount.toNat * (threads * accessSize.toNat)
        = threads * (setup.accessCount.toNat * accessSize.toNat) := by ring
      _ ≤ threads * (sz.toNat / threads) := Nat.mul_le_mul_left _ hslots
      _ ≤ sz.toNat := Nat.mul_div_le _ _

theorem toNat_slot {t : ℕ} (ht : t < threads) {j : UInt64} (hj : j.toNat < setup.accessCount.toNat) :
    ((threadInfo accessSize alignedAlloc buffer sz threads m t).slot j).toNat =
      buffer.toNat + slotOffset m threads (sz.toNat / threads) accessSize.toNat t j.toNat := by
  have hfits := slotOffset_fits (m := m) (Nat.mul_div_le _ _) h.slots_le ht hj
  have heq := slotOffset_eq m threads (sz.toNat / threads) accessSize.toNat t j.toNat
  have hmapped := h.mapped
  have hpos := h.accessSize_pos
  rw [ThreadInfo.slot, UInt64.toNat_add, UInt64.toNat_mul, h.toNat_start ht, h.toNat_stride]
  rw [Nat.mod_eq_of_lt (a := j.toNat * _) (by omega), Nat.mod_eq_of_lt (by omega)]
  omega

theorem slot_fits {t : ℕ} (ht : t < threads) {j : UInt64} (hj : j.toNat < setup.accessCount.toNat) :
    buffer.toNat ≤ ((threadInfo accessSize alignedAlloc buffer sz threads m t).slot j).toNat ∧
      ((threadInfo accessSize alignedAlloc buffer sz threads m t).slot j).toNat + accessSize.toNat ≤
        buffer.toNat + sz.toNat := by
  have hfits := slotOffset_fits (m := m) (Nat.mul_div_le _ _) h.slots_le ht hj
  rw [h.toNat_slot ht hj]
  omega

theorem slot_apart {t u : ℕ} (ht : t < threads) (hu : u < threads) {j k : UInt64}
    (hj : j.toNat < setup.accessCount.toNat) (hk : k.toNat < setup.accessCount.toNat)
    (hne : t ≠ u ∨ j.toNat ≠ k.toNat) :
    ((threadInfo accessSize alignedAlloc buffer sz threads m t).slot j).toNat + accessSize.toNat ≤
        ((threadInfo accessSize alignedAlloc buffer sz threads m u).slot k).toNat ∨
      ((threadInfo accessSize alignedAlloc buffer sz threads m u).slot k).toNat + accessSize.toNat ≤
        ((threadInfo accessSize alignedAlloc buffer sz threads m t).slot j).toNat := by
  have hapart := slotOffset_apart (m := m) h.slots_le ht hu hj hk hne
  rw [h.toNat_slot ht hj, h.toNat_slot hu hk]
  omega

end InfosCreated

end Addresses

end GraphBenchmark
