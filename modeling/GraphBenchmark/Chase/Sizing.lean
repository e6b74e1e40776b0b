import GraphBenchmark.Chase.Single
import Mathlib.Algebra.Order.Floor.Div
import Mathlib.Order.Bounds.Basic

/-! # The size `create_random` settles on

Rounding up by adding and dividing is right until the sum wraps, and the closing link is inside the buffer unless
there is no entry at all. -/
namespace GraphBenchmark
set_option autoImplicit false

section RoundUp
variable {b sz : ℕ}

theorem isLeast_roundUp (hsz : 0 < sz) : IsLeast {m | sz ∣ m ∧ b ≤ m} ((b + sz - 1) / sz * sz) := by
  rw [← Nat.ceilDiv_eq_add_pred_div, Nat.mul_comm]
  refine ⟨⟨Nat.dvd_mul_right sz _, le_smul_ceilDiv hsz⟩, ?_⟩
  rintro m ⟨⟨k, rfl⟩, hle⟩
  exact Nat.mul_le_mul_left sz ((ceilDiv_le_iff_le_mul hsz).mpr hle)

/-- Where the sum wraps, the rounded size is below the request. -/
theorem roundUp_lt_of_wrap {bufferSz sz : UInt64} (hwrap : 2 ^ 64 < bufferSz.toNat + sz.toNat) :
    ((bufferSz + sz - 1) / sz * sz).toNat < bufferSz.toNat := by
  have hb := bufferSz.toNat_lt
  have hs := sz.toNat_lt
  have hsum : (bufferSz + sz - 1).toNat = bufferSz.toNat + sz.toNat - 1 - 2 ^ 64 := by
    rw [UInt64.toNat_sub, UInt64.toNat_add, UInt64.toNat_one]
    omega
  have hle := Nat.div_mul_le_self (bufferSz + sz - 1).toNat sz.toNat
  rw [UInt64.toNat_mul, UInt64.toNat_div, Nat.mod_eq_of_lt (by omega)]
  omega

end RoundUp

/-- `create_random` has sized the chain right for the request `bufferSz`: by the least multiple of the entry size that
is enough, in `len` entries, with every index it used below `len`. -/
structure Sized (P : ℕ) (bufferSz : UInt64) (indices : ℕ → ℕ) (c : Chain) : Prop where
  least : IsLeast {m | entrySize P ∣ m ∧ bufferSz.toNat ≤ m} c.bufferSz.toNat
  covers : c.len.toNat * entrySize P = c.bufferSz.toNat
  indices_lt : ∀ i ∈ indicesUsed c.len, i < c.len.toNat
  buffer_lt : ∀ j ∈ bufferUsed indices c.len, j < c.len.toNat

/-- The links, in their order: where `indices` is read for the entry that gets one, and where for the entry it leads to. -/
def links (len : UInt64) : List (ℕ × ℕ) :=
  (List.range (len.toNat - 1)).map (fun n => (n, n + 1)) ++ [((len - 1).toNat, 0)]

/-- `buffer[indices[at]].next = &buffer[indices[to]]`. -/
def linkStep (P buffer : ℕ) (indices : ℕ → ℕ) (mem : ℕ → ℕ) (l : ℕ × ℕ) : ℕ → ℕ :=
  Function.update mem (entryAt P buffer (indices l.1)) (entryAt P buffer (indices l.2))

section Used
variable {len : UInt64} {i : ℕ}

theorem linkReads_eq_links (len : UInt64) : linkReads len = (links len).flatMap fun l => [l.1, l.2] := by
  rw [linkReads, links, List.flatMap_append, List.flatMap_map]
  rfl

theorem linkEntries_eq_foldl (P buffer : ℕ) (indices : ℕ → ℕ) (mem : ℕ → ℕ) (n : ℕ) :
    linkEntries P buffer indices mem n =
      ((List.range n).map fun n => (n, n + 1)).foldl (linkStep P buffer indices) mem := by
  induction n with
  | zero => rfl
  | succ n ih =>
    rw [linkEntries, ih, List.range_succ, List.map_append, List.foldl_append]
    rfl

/-- What `create_random` stores are the links, each read from `indices` at the two positions that `linkReads` lists. -/
theorem createRandom_mem_eq_foldl (P : ℕ) (bufferSz : UInt64) (shuffle : Bool) (randomShuffle : List ℕ → List ℕ)
    (buffer : ℕ) (mem : ℕ → ℕ) :
    let c := createRandom P bufferSz shuffle randomShuffle buffer mem
    c.mem = (links c.len).foldl
      (linkStep P buffer fun i => (shuffledIndices shuffle randomShuffle c.len.toNat).getD i 0) mem := by
  intro c
  rw [links, List.foldl_append, ← linkEntries_eq_foldl]
  rfl

theorem zero_mem_indicesUsed (len : UInt64) : 0 ∈ indicesUsed len := by simp [indicesUsed, linkReads]

theorem links_lt (hpos : 0 < len.toNat) {l : ℕ × ℕ} (hl : l ∈ links len) : l.1 < len.toNat ∧ l.2 < len.toNat := by
  rw [links, toNat_sub_one hpos, List.mem_append] at hl
  rcases hl with hl | hl
  · obtain ⟨n, hn, rfl⟩ := List.mem_map.mp hl
    have hlt := List.mem_range.mp hn
    dsimp only
    omega
  · obtain rfl := List.mem_singleton.mp hl
    dsimp only
    omega

theorem linkReads_lt (hpos : 0 < len.toNat) (hi : i ∈ linkReads len) : i < len.toNat := by
  rw [linkReads_eq_links, List.mem_flatMap] at hi
  obtain ⟨l, hl, hi⟩ := hi
  obtain ⟨hfst, hsnd⟩ := links_lt hpos hl
  simp only [List.mem_cons, List.not_mem_nil, or_false] at hi
  rcases hi with rfl | rfl
  · exact hfst
  · exact hsnd

theorem indicesUsed_lt (hpos : 0 < len.toNat) (hi : i ∈ indicesUsed len) : i < len.toNat := by
  rcases List.mem_append.mp hi with hi | hi
  · exact List.mem_range.mp hi
  · exact linkReads_lt hpos hi

theorem bufferUsed_lt {l : List ℕ} (hl : l.Perm (List.range len.toNat)) (hpos : 0 < len.toNat)
    (hi : i ∈ bufferUsed (fun i => l.getD i 0) len) : i < len.toNat := by
  obtain ⟨k, hk, rfl⟩ := List.mem_map.mp hi
  have hlt : k < l.length := by
    rw [hl.length_eq, List.length_range]
    exact linkReads_lt hpos hk
  rw [List.getD_eq_getElem _ _ hlt]
  exact List.mem_range.mp (hl.mem_iff.mp (List.getElem_mem hlt))

end Used

section Sizing
variable {P : ℕ} {bufferSz : UInt64} {indices : ℕ → ℕ} {c : Chain}

/-- A chain with no entry cannot be closed. -/
theorem Sized.pos (h : Sized P bufferSz indices c) : 0 < bufferSz.toNat := by
  by_contra hzero
  have hleast : c.bufferSz.toNat ≤ 0 := h.least.2 ⟨Nat.dvd_zero _, by omega⟩
  have hlen := h.indices_lt 0 (zero_mem_indicesUsed c.len)
  have hcovers := h.covers
  have := Nat.mul_pos hlen (entrySize_pos P)
  omega

theorem Sized.noWrap (h : Sized P bufferSz indices c)
    (hc : c.bufferSz = (bufferSz + UInt64.ofNat (entrySize P) - 1) / UInt64.ofNat (entrySize P) *
      UInt64.ofNat (entrySize P)) : bufferSz.toNat + entrySize P ≤ 2 ^ 64 := by
  by_contra hwrap
  obtain ⟨⟨hdvd, hle⟩, -⟩ := h.least
  have hpos := h.pos
  rcases Nat.lt_or_ge (entrySize P) (2 ^ 64) with hsz | hsz
  · have hsz' := toNat_entrySize hsz
    have hlt := @roundUp_lt_of_wrap bufferSz (UInt64.ofNat (entrySize P)) (by omega)
    rw [← hc] at hlt
    omega
  · -- no size_t but 0 is a multiple of such an entry
    have hlt := c.bufferSz.toNat_lt
    have := Nat.eq_zero_of_dvd_of_lt hdvd (by omega)
    omega

/-- The sizing is right exactly for the requests of at least one byte that do not wrap when they are rounded up. -/
theorem createRandom_sized_iff (P : ℕ) (bufferSz : UInt64) (shuffle : Bool) (randomShuffle : List ℕ → List ℕ)
    (buffer : ℕ) (mem : ℕ → ℕ) (hshuffle : ∀ l, (randomShuffle l).Perm l) :
    let c := createRandom P bufferSz shuffle randomShuffle buffer mem
    Sized P bufferSz (fun i => (shuffledIndices shuffle randomShuffle c.len.toNat).getD i 0) c ↔
      0 < bufferSz.toNat ∧ bufferSz.toNat + entrySize P ≤ 2 ^ 64 := by
  intro c
  constructor
  · exact fun h => ⟨h.pos, h.noWrap rfl⟩
  · rintro ⟨hpos, hwrap⟩
    obtain ⟨hcovers, hlen⟩ := createRandom_size hpos hwrap shuffle randomShuffle buffer mem
    refine ⟨?_, hcovers, fun i hi => indicesUsed_lt hlen hi, fun j hj => ?_⟩
    · rw [createRandom_bufferSz hpos hwrap shuffle randomShuffle buffer mem]
      exact isLeast_roundUp (entrySize_pos P)
    · exact bufferUsed_lt (shuffledIndices_perm shuffle hshuffle c.len.toNat) hlen hj

theorem createRandom_sized_reversed :
    let c := createRandom 5 33 true List.reverse 4096 fun _ => 0
    Sized 5 33 (fun i => (shuffledIndices true List.reverse c.len.toNat).getD i 0) c :=
  (createRandom_sized_iff 5 33 true List.reverse 4096 (fun _ => 0) List.reverse_perm).mpr (by decide)

end Sizing

/-- `main` can ask for nothing, which leaves no entry to close the chain with, and for `-1` bytes, which wrap. -/
theorem not_createRandom_sized :
    (¬ let c := createRandom 0 0 true List.reverse 4096 fun _ => 0
      Sized 0 0 (fun i => (shuffledIndices true List.reverse c.len.toNat).getD i 0) c) ∧
    ¬ let c := createRandom 0 (-1) true List.reverse 4096 fun _ => 0
      Sized 0 (-1) (fun i => (shuffledIndices true List.reverse c.len.toNat).getD i 0) c := by
  constructor
  · intro h
    exact absurd h.pos (by decide)
  · intro h
    exact absurd (h.noWrap rfl) (by decide)

end GraphBenchmark
