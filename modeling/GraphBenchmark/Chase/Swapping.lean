import GraphBenchmark.Chase.Single

/-! # The chase of failing swaps

`cas_chase_fail` would put the address 1 into an entry whose `next` is null, and lose the chain there. No entry's
`next` is: it is the address of an entry, in a block that does not lie at 0. -/
namespace GraphBenchmark
open Rotation
set_option autoImplicit false

variable {P : ℕ} {mem : ℕ → ℕ} {p oldV : ℕ} {entries : List ℕ}

theorem syncValCompareAndSwap_of_ne (h : mem p ≠ oldV) (newV : ℕ) :
    syncValCompareAndSwap mem p oldV newV = (mem p, mem) := by
  rw [syncValCompareAndSwap, if_neg h]

/-- Where every entry leads to an entry and none of them is null, each step only reads. -/
theorem casChaseFail_of_closed (hne : ∀ p ∈ entries, p ≠ 0) (hclosed : ∀ p ∈ entries, mem p ∈ entries)
    (hp : p ∈ entries) (count : ℕ) :
    casChaseFail mem p count = ⟨(readChase mem p count).1, [], (readChase mem p count).2, mem⟩ := by
  induction count generalizing p with
  | zero => rfl
  | succ count ih =>
    have hnext := hclosed p hp
    have hfail := hne _ hnext
    rw [casChaseFail, readChase, syncValCompareAndSwap_of_ne hfail]
    simp only [ih hnext, if_neg hfail]

theorem entryAt_ne_zero {buffer : ℕ} (h : buffer ≠ 0) (i : ℕ) : entryAt P buffer i ≠ 0 := by
  unfold entryAt
  omega

theorem createRandom_closed (P : ℕ) (bufferSz : UInt64) (shuffle : Bool) {randomShuffle : List ℕ → List ℕ} {buffer : ℕ}
    (mem : ℕ → ℕ) (hshuffle : ∀ l, (randomShuffle l).Perm l) (hbuffer : buffer ≠ 0)
    (hpos : 0 < (createRandom P bufferSz shuffle randomShuffle buffer mem).len.toNat) :
    ∃ entries : List ℕ, buffer ∈ entries ∧ (∀ p ∈ entries, p ≠ 0) ∧
      ∀ p ∈ entries, (createRandom P bufferSz shuffle randomShuffle buffer mem).mem p ∈ entries := by
  have hrot := createRandom_rotates P bufferSz shuffle buffer mem hshuffle hpos
  have hperm := shuffledIndices_perm shuffle hshuffle
    (createRandom P bufferSz shuffle randomShuffle buffer mem).len.toNat
  refine ⟨_, (entry_mem_iff hperm).mpr ⟨0, hpos, ?_⟩, fun p hp => ?_, fun p hp => hrot.mem hp 1⟩
  · simp [createRandom, entryAt]
  · obtain ⟨i, -, rfl⟩ := List.mem_map.mp hp
    exact entryAt_ne_zero hbuffer i

/-- On a chain of `create_random` the chase of failing swaps visits what the reading one visits and ends where that
ends; no swap succeeds, and the memory stays as it is. -/
theorem casChaseFail_eq_readChase (P : ℕ) (bufferSz : UInt64) (shuffle : Bool) (randomShuffle : List ℕ → List ℕ)
    (buffer : ℕ) (mem : ℕ → ℕ) (count : UInt64) (hshuffle : ∀ l, (randomShuffle l).Perm l) (hbuffer : buffer ≠ 0)
    (hpos : 0 < (createRandom P bufferSz shuffle randomShuffle buffer mem).len.toNat) :
    let c := createRandom P bufferSz shuffle randomShuffle buffer mem
    (casChaseFail c.mem c.buffer count.toNat).visited = (readChase c.mem c.buffer count.toNat).1 ∧
      (casChaseFail c.mem c.buffer count.toNat).p = (readChase c.mem c.buffer count.toNat).2 ∧
      (casChaseFail c.mem c.buffer count.toNat).swapped = [] ∧
      (casChaseFail c.mem c.buffer count.toNat).mem = c.mem := by
  intro c
  obtain ⟨entries, hstart, hne, hclosed⟩ := createRandom_closed P bufferSz shuffle mem hshuffle hbuffer hpos
  have hchase := casChaseFail_of_closed hne hclosed (p := c.buffer) hstart count.toNat
  change casChaseFail c.mem c.buffer count.toNat = _ at hchase
  rw [hchase]
  exact ⟨rfl, rfl, rfl, rfl⟩

theorem casChaseFail_eq_readChase_reversed :
    let c := createRandom 5 33 true List.reverse 4096 fun _ => 0
    (casChaseFail c.mem c.buffer 7).swapped = [] ∧ (casChaseFail c.mem c.buffer 7).mem = c.mem :=
  (casChaseFail_eq_readChase 5 33 true List.reverse 4096 (fun _ => 0) 7 List.reverse_perm (by decide) (by decide)).2.2

end GraphBenchmark
