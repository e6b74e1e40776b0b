import GraphBenchmark.Model.Chase
import GraphBenchmark.Foundations.Cycle

/-! # The chain is one cycle

However the indices are shuffled, the linked entries form a single cycle through all of them, so a chase of any
length stays in the buffer and passes all entries equally often. -/
namespace GraphBenchmark
open Rotation
set_option autoImplicit false

/-- The entry behind entry `j` in the order `l`. -/
def nextIndex (l : List ℕ) (j : ℕ) : ℕ := l.getD ((l.idxOf j + 1) % l.length) 0

section Link
variable {P buffer : ℕ} {indices : ℕ → ℕ} {l : List ℕ} {mem : ℕ → ℕ} {i j n : ℕ}

theorem entrySize_pos (P : ℕ) : 0 < entrySize P := by
  unfold entrySize
  omega

theorem entryAt_inj (h : entryAt P buffer i = entryAt P buffer j) : i = j :=
  Nat.eq_of_mul_eq_mul_right (entrySize_pos P) (Nat.add_left_cancel h)

/-- No later iteration touches an entry linked before. -/
theorem linkEntries_of_lt (hinj : ∀ i j, i ≤ n → j ≤ n → indices i = indices j → i = j) (hi : i < n) :
    linkEntries P buffer indices mem n (entryAt P buffer (indices i)) = entryAt P buffer (indices (i + 1)) := by
  induction n with
  | zero => exact absurd hi (Nat.not_lt_zero i)
  | succ n ih =>
    rw [linkEntries]
    by_cases hin : i = n
    · rw [hin, Function.update_self]
    · have hne : entryAt P buffer (indices i) ≠ entryAt P buffer (indices n) := fun h =>
        hin (hinj i n (by omega) (by omega) (entryAt_inj h))
      rw [Function.update_of_ne hne]
      exact ih (fun i j hi hj => hinj i j (by omega) (by omega)) (by omega)

theorem getD_inj (hl : l.Nodup) (hi : i < l.length) (hj : j < l.length) (h : l.getD i 0 = l.getD j 0) : i = j := by
  rw [List.getD_eq_getElem _ _ hi, List.getD_eq_getElem _ _ hj] at h
  exact (List.Nodup.getElem_inj_iff hl).mp h

/-- The linked memory goes round the entries in the order of the indices. -/
theorem rotates_link (hl : l.Nodup) (hpos : 0 < l.length) :
    Rotates (Function.update (linkEntries P buffer (fun i => l.getD i 0) mem (l.length - 1))
      (entryAt P buffer (l.getD (l.length - 1) 0)) (entryAt P buffer (l.getD 0 0))) (l.map (entryAt P buffer)) := by
  intro i x hi
  have hlt := lt_of_getElem? hi
  rw [List.length_map] at hlt
  have hx : x = entryAt P buffer (l.getD i 0) := by
    rw [List.getElem?_map, List.getElem?_eq_getElem hlt] at hi
    rw [List.getD_eq_getElem _ _ hlt]
    exact (Option.some.inj hi).symm
  have hat : ∀ k < l.length, (l.map (entryAt P buffer))[k]? = some (entryAt P buffer (l.getD k 0)) := by
    intro k hk
    rw [List.getElem?_map, List.getElem?_eq_getElem hk, List.getD_eq_getElem _ _ hk]
    rfl
  rw [List.length_map, hx]
  by_cases hlast : i = l.length - 1
  · rw [hlast, Function.update_self, show l.length - 1 + 1 = l.length by omega, Nat.mod_self]
    exact hat 0 hpos
  · have hne : entryAt P buffer (l.getD i 0) ≠ entryAt P buffer (l.getD (l.length - 1) 0) := fun h =>
      hlast (getD_inj hl hlt (by omega) (entryAt_inj h))
    rw [Function.update_of_ne hne, linkEntries_of_lt (fun i j hi hj => getD_inj hl (by omega) (by omega)) (by omega),
      Nat.mod_eq_of_lt (by omega)]
    exact hat (i + 1) (by omega)

end Link

/-! ## The buffer -/

section Size
variable {P : ℕ} {bufferSz : UInt64}

theorem toNat_roundUp {sz : UInt64} (hsz : 0 < sz.toNat) (hwrap : bufferSz.toNat + sz.toNat ≤ 2 ^ 64) :
    ((bufferSz + sz - 1) / sz * sz).toNat = (bufferSz.toNat + sz.toNat - 1) / sz.toNat * sz.toNat := by
  have hsum : (bufferSz + sz - 1).toNat = bufferSz.toNat + sz.toNat - 1 := by
    rw [UInt64.toNat_sub, UInt64.toNat_add, UInt64.toNat_one]
    omega
  have hle := Nat.div_mul_le_self (bufferSz.toNat + sz.toNat - 1) sz.toNat
  rw [UInt64.toNat_mul, UInt64.toNat_div, hsum, Nat.mod_eq_of_lt (by omega)]

theorem toNat_entrySize (h : entrySize P < 2 ^ 64) : (UInt64.ofNat (entrySize P)).toNat = entrySize P :=
  UInt64.toNat_ofNat_of_lt' h

theorem toNat_sub_one {len : UInt64} (hpos : 0 < len.toNat) : (len - 1).toNat = len.toNat - 1 := by
  have hlt := len.toNat_lt
  rw [UInt64.toNat_sub, UInt64.toNat_one]
  omega

theorem createRandom_bufferSz (hpos : 0 < bufferSz.toNat) (hwrap : bufferSz.toNat + entrySize P ≤ 2 ^ 64)
    (shuffle : Bool) (randomShuffle : List ℕ → List ℕ) (buffer : ℕ) (mem : ℕ → ℕ) :
    (createRandom P bufferSz shuffle randomShuffle buffer mem).bufferSz.toNat =
      (bufferSz.toNat + entrySize P - 1) / entrySize P * entrySize P := by
  have hsz : (UInt64.ofNat (entrySize P)).toNat = entrySize P := toNat_entrySize (by omega)
  have hround := @toNat_roundUp bufferSz (UInt64.ofNat (entrySize P)) (by rw [hsz]; exact entrySize_pos P)
    (by rw [hsz]; exact hwrap)
  rwa [hsz] at hround

theorem createRandom_size (hpos : 0 < bufferSz.toNat) (hwrap : bufferSz.toNat + entrySize P ≤ 2 ^ 64) (shuffle : Bool)
    (randomShuffle : List ℕ → List ℕ) (buffer : ℕ) (mem : ℕ → ℕ) :
    (createRandom P bufferSz shuffle randomShuffle buffer mem).len.toNat * entrySize P =
        (createRandom P bufferSz shuffle randomShuffle buffer mem).bufferSz.toNat ∧
      0 < (createRandom P bufferSz shuffle randomShuffle buffer mem).len.toNat := by
  have hsz : (UInt64.ofNat (entrySize P)).toNat = entrySize P := toNat_entrySize (by omega)
  have hround := createRandom_bufferSz hpos hwrap shuffle randomShuffle buffer mem
  have hlen : (createRandom P bufferSz shuffle randomShuffle buffer mem).len.toNat =
      (bufferSz.toNat + entrySize P - 1) / entrySize P := by
    show ((createRandom P bufferSz shuffle randomShuffle buffer mem).bufferSz / UInt64.ofNat (entrySize P)).toNat = _
    rw [UInt64.toNat_div, hround, hsz, Nat.mul_div_cancel _ (entrySize_pos P)]
  constructor
  · rw [hlen, hround]
  · rw [hlen]
    have := entrySize_pos P
    exact Nat.div_pos (by omega) this

/-- The chain lies in the block at `buffer`, in the request rounded up to whole entries, and fills it. -/
structure Requested (P : ℕ) (bufferSz : UInt64) (buffer : ℕ) (c : Chain) : Prop where
  buffer_eq : c.buffer = buffer
  bufferSz_eq : c.bufferSz.toNat = (bufferSz.toNat + entrySize P - 1) / entrySize P * entrySize P
  len_mul : c.len.toNat * entrySize P = c.bufferSz.toNat
  len_pos : 0 < c.len.toNat

theorem createRandom_requested (hpos : 0 < bufferSz.toNat) (hwrap : bufferSz.toNat + entrySize P ≤ 2 ^ 64)
    (shuffle : Bool) (randomShuffle : List ℕ → List ℕ) (buffer : ℕ) (mem : ℕ → ℕ) :
    Requested P bufferSz buffer (createRandom P bufferSz shuffle randomShuffle buffer mem) := by
  obtain ⟨hlen, hlen₀⟩ := createRandom_size hpos hwrap shuffle randomShuffle buffer mem
  exact ⟨rfl, createRandom_bufferSz hpos hwrap shuffle randomShuffle buffer mem, hlen, hlen₀⟩

end Size

/-! ## The cycle -/

/-- The `next` pointers of the buffer form one cycle through its entries, in the order `succ` gives. -/
structure SingleCycle (P : ℕ) (c : Chain) (succ : ℕ → ℕ) : Prop where
  fits : ∀ j < c.len.toNat, entryAt P c.buffer j + entrySize P ≤ c.buffer + c.bufferSz.toNat
  succ_lt : ∀ j < c.len.toNat, succ j < c.len.toNat
  next : ∀ j < c.len.toNat, c.mem (entryAt P c.buffer j) = entryAt P c.buffer (succ j)
  returns : ∀ j < c.len.toNat, c.mem^[c.len.toNat] (entryAt P c.buffer j) = entryAt P c.buffer j
  not_before : ∀ j < c.len.toNat, ∀ k, 0 < k → k < c.len.toNat →
    c.mem^[k] (entryAt P c.buffer j) ≠ entryAt P c.buffer j
  visits : ∀ i < c.len.toNat, ∀ j < c.len.toNat, ∃ k < c.len.toNat,
    c.mem^[k] (entryAt P c.buffer i) = entryAt P c.buffer j

/-- A chase of `count` steps only meets entries of the buffer, and each of them equally often. -/
structure EvenChase (P : ℕ) (c : Chain) (count : ℕ) : Prop where
  inside : ∀ p ∈ (readChase c.mem c.buffer count).2 :: (readChase c.mem c.buffer count).1,
    ∃ j < c.len.toNat, p = entryAt P c.buffer j
  even : ∀ j < c.len.toNat,
    (readChase c.mem c.buffer count).1.count (entryAt P c.buffer j) = count / c.len.toNat ∨
    (readChase c.mem c.buffer count).1.count (entryAt P c.buffer j) = (count + c.len.toNat - 1) / c.len.toNat

section Cycle
variable {P : ℕ} {c : Chain} {l : List ℕ}

theorem readChase_eq (mem : ℕ → ℕ) (p count : ℕ) :
    readChase mem p count = ((List.range count).map fun k => mem^[k] p, mem^[count] p) := by
  induction count generalizing p with
  | zero => rfl
  | succ count ih =>
    rw [readChase, ih, List.range_succ_eq_map, List.map_cons, List.map_map]
    rfl

theorem entry_mem_iff (hl : l.Perm (List.range c.len.toNat)) {p : ℕ} :
    p ∈ l.map (entryAt P c.buffer) ↔ ∃ j < c.len.toNat, p = entryAt P c.buffer j := by
  simp only [List.mem_map, hl.mem_iff, List.mem_range, eq_comm]

theorem singleCycle_of_rotates (hl : l.Perm (List.range c.len.toNat))
    (hsize : c.len.toNat * entrySize P = c.bufferSz.toNat) (h : Rotates c.mem (l.map (entryAt P c.buffer))) :
    SingleCycle P c (nextIndex l) := by
  have hnodup : l.Nodup := hl.nodup_iff.mpr List.nodup_range
  have hentries : (l.map (entryAt P c.buffer)).Nodup := hnodup.map fun _ _ => entryAt_inj
  have hlen : l.length = c.len.toNat := by rw [hl.length_eq, List.length_range]
  have hlen' : (l.map (entryAt P c.buffer)).length = c.len.toNat := by rw [List.length_map, hlen]
  have hmem : ∀ j < c.len.toNat, entryAt P c.buffer j ∈ l.map (entryAt P c.buffer) := fun j hj =>
    (entry_mem_iff hl).mpr ⟨j, hj, rfl⟩
  refine ⟨fun j hj => ?_, fun j hj => ?_, fun j hj => ?_, fun j hj => ?_, fun j hj k hk hlt => ?_, fun i hi j hj => ?_⟩
  · have hle : (j + 1) * entrySize P ≤ c.len.toNat * entrySize P := Nat.mul_le_mul_right _ hj
    rw [Nat.add_mul, Nat.one_mul] at hle
    unfold entryAt
    omega
  · have hlt : (l.idxOf j + 1) % l.length < l.length := Nat.mod_lt _ (by omega)
    rw [nextIndex, List.getD_eq_getElem _ _ hlt]
    exact List.mem_range.mp (hl.mem_iff.mp (List.getElem_mem hlt))
  · have hj' : j ∈ l := hl.mem_iff.mpr (List.mem_range.mpr hj)
    have hat : (l.map (entryAt P c.buffer))[l.idxOf j]? = some (entryAt P c.buffer j) := by
      rw [List.getElem?_map, List.getElem?_idxOf hj']
      rfl
    have hlt : (l.idxOf j + 1) % l.length < l.length := Nat.mod_lt _ (by omega)
    have hnext := h _ _ hat
    rw [List.length_map, List.getElem?_map, List.getElem?_eq_getElem hlt] at hnext
    rw [nextIndex, List.getD_eq_getElem _ _ hlt]
    exact (Option.some.inj hnext).symm
  · exact (h.iterate_eq_self_iff hentries (hmem j hj)).mpr (by rw [hlen'])
  · intro heq
    have hdvd := (h.iterate_eq_self_iff hentries (hmem j hj)).mp heq
    rw [hlen'] at hdvd
    exact absurd (Nat.le_of_dvd hk hdvd) (by omega)
  · obtain ⟨k, hk, heq⟩ := h.exists_iterate hentries (hmem i hi) (hmem j hj)
    exact ⟨k, hlen' ▸ hk, heq⟩

theorem evenChase_of_rotates (hl : l.Perm (List.range c.len.toNat)) (hpos : 0 < c.len.toNat)
    (h : Rotates c.mem (l.map (entryAt P c.buffer))) (count : ℕ) : EvenChase P c count := by
  have hentries : (l.map (entryAt P c.buffer)).Nodup :=
    (hl.nodup_iff.mpr List.nodup_range).map fun _ _ => entryAt_inj
  have hlen : (l.map (entryAt P c.buffer)).length = c.len.toNat := by
    rw [List.length_map, hl.length_eq, List.length_range]
  have hstart : c.buffer ∈ l.map (entryAt P c.buffer) := (entry_mem_iff hl).mpr ⟨0, hpos, by simp [entryAt]⟩
  refine ⟨fun p hp => (entry_mem_iff hl).mp ?_, fun j hj => ?_⟩
  · rw [readChase_eq] at hp
    rcases List.mem_cons.mp hp with rfl | hp
    · exact h.mem hstart count
    · obtain ⟨k, -, rfl⟩ := List.mem_map.mp hp
      exact h.mem hstart k
  · rw [readChase_eq, ← hlen]
    exact h.count hentries hstart ((entry_mem_iff hl).mpr ⟨j, hj, rfl⟩) count

end Cycle

theorem shuffledIndices_perm (shuffle : Bool) {randomShuffle : List ℕ → List ℕ}
    (hshuffle : ∀ l, (randomShuffle l).Perm l) (len : ℕ) :
    (shuffledIndices shuffle randomShuffle len).Perm (List.range len) := by
  unfold shuffledIndices
  split
  · exact hshuffle _
  · exact List.Perm.refl _

theorem createRandom_mem (P : ℕ) (bufferSz : UInt64) (shuffle : Bool) (randomShuffle : List ℕ → List ℕ) (buffer : ℕ)
    (mem : ℕ → ℕ) :
    let c := createRandom P bufferSz shuffle randomShuffle buffer mem
    let l := shuffledIndices shuffle randomShuffle c.len.toNat
    c.mem = Function.update (linkEntries P buffer (fun i => l.getD i 0) mem (c.len.toNat - 1))
      (entryAt P buffer (l.getD (c.len - 1).toNat 0)) (entryAt P buffer (l.getD 0 0)) := rfl

theorem createRandom_rotates (P : ℕ) (bufferSz : UInt64) (shuffle : Bool) {randomShuffle : List ℕ → List ℕ} (buffer : ℕ)
    (mem : ℕ → ℕ) (hshuffle : ∀ l, (randomShuffle l).Perm l)
    (hpos : 0 < (createRandom P bufferSz shuffle randomShuffle buffer mem).len.toNat) :
    Rotates (createRandom P bufferSz shuffle randomShuffle buffer mem).mem ((shuffledIndices shuffle randomShuffle
      (createRandom P bufferSz shuffle randomShuffle buffer mem).len.toNat).map (entryAt P buffer)) := by
  have hperm := shuffledIndices_perm shuffle hshuffle
    (createRandom P bufferSz shuffle randomShuffle buffer mem).len.toNat
  have hlength := hperm.length_eq
  rw [List.length_range] at hlength
  have hlast := toNat_sub_one hpos
  have hrot := @rotates_link P buffer _ mem (hperm.nodup_iff.mpr List.nodup_range)
    (by rw [hlength]; exact hpos)
  rw [hlength] at hrot
  rw [createRandom_mem, hlast]
  exact hrot

/-- `create_random` builds one cycle through all entries of the rounded request, in an order that does not depend on what
the block held, and every chase through it is even. -/
theorem createRandom_cycle (P : ℕ) (bufferSz : UInt64) (shuffle : Bool) (randomShuffle : List ℕ → List ℕ) (buffer : ℕ)
    (hwrap : bufferSz.toNat + entrySize P ≤ 2 ^ 64) (hpos : 0 < bufferSz.toNat)
    (hshuffle : ∀ l, (randomShuffle l).Perm l) :
    ∃ succ : ℕ → ℕ, ∀ mem : ℕ → ℕ,
      Requested P bufferSz buffer (createRandom P bufferSz shuffle randomShuffle buffer mem) ∧
      SingleCycle P (createRandom P bufferSz shuffle randomShuffle buffer mem) succ ∧
      ∀ count : UInt64, EvenChase P (createRandom P bufferSz shuffle randomShuffle buffer mem) count.toNat := by
  have hrun := fun mem => createRandom_requested hpos hwrap shuffle randomShuffle buffer mem
  -- neither `len` nor the order depends on the memory
  obtain ⟨len, hlen⟩ : ∃ len : UInt64, ∀ mem, (createRandom P bufferSz shuffle randomShuffle buffer mem).len = len :=
    ⟨_, fun _ => rfl⟩
  refine ⟨nextIndex (shuffledIndices shuffle randomShuffle len.toNat), fun mem => ?_⟩
  have hlen₀ := (hrun mem).len_pos
  have hperm := shuffledIndices_perm shuffle hshuffle len.toNat
  have hrot := createRandom_rotates P bufferSz shuffle buffer mem hshuffle hlen₀
  rw [hlen mem] at hrot
  rw [← hlen mem] at hperm hrot ⊢
  exact ⟨hrun mem, singleCycle_of_rotates hperm (hrun mem).len_mul hrot,
    fun count => evenChase_of_rotates hperm hlen₀ hrot count.toNat⟩

/-- A request of 33 bytes for entries of 16: three entries. -/
theorem createRandom_cycle_reversed : ∃ succ : ℕ → ℕ, ∀ mem : ℕ → ℕ,
    (createRandom 5 33 true List.reverse 4096 mem).len.toNat * 16 = 48 ∧
      SingleCycle 5 (createRandom 5 33 true List.reverse 4096 mem) succ ∧
      EvenChase 5 (createRandom 5 33 true List.reverse 4096 mem) 7 := by
  obtain ⟨succ, h⟩ := createRandom_cycle 5 33 true List.reverse 4096 (by decide) (by decide) List.reverse_perm
  refine ⟨succ, fun mem => ?_⟩
  obtain ⟨hrequested, hcycle, heven⟩ := h mem
  exact ⟨hrequested.len_mul.trans hrequested.bufferSz_eq, hcycle, heven 7⟩

end GraphBenchmark
