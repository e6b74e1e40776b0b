import GraphBenchmark.Chase.Single

/-! # The chase of the program

`main` follows the chain for at least `2^30` steps. However the entries are shuffled, it goes through the buffer round
after round: it comes to no entry again before it has been at all of them. -/
namespace GraphBenchmark
open Rotation
set_option autoImplicit false

/-- The addresses are those of the entries, and any `len` in a row are all of them. -/
structure ChasingRun.Rounds (run : ChasingRun) : Prop where
  length : run.visited.length = run.count.toNat
  inside : ∀ p ∈ run.visited, ∃ j < run.chain.len.toNat, p = entryAt padSize run.chain.buffer j
  round : ∀ i, i + run.chain.len.toNat ≤ run.count.toNat → ((run.visited.drop i).take run.chain.len.toNat).Perm
    ((List.range run.chain.len.toNat).map (entryAt padSize run.chain.buffer))

section Chase
variable {mem : ℕ → ℕ} {p i n count : ℕ}

theorem readChase_length (mem : ℕ → ℕ) (p count : ℕ) : (readChase mem p count).1.length = count := by
  rw [readChase_eq, List.length_map, List.length_range]

/-- A stretch of the chase. -/
theorem readChase_stretch (h : i + n ≤ count) :
    ((readChase mem p count).1.drop i).take n = (List.range' i n).map fun k => mem^[k] p := by
  rw [readChase_eq, ← List.map_drop, ← List.map_take, List.range_eq_range', List.drop_range',
    List.take_range'_of_length_ge (by omega), Nat.zero_add, Nat.mul_one]

theorem le_clampCount (count : UInt64) : 2 ^ 30 ≤ (clampCount count).toNat := by
  unfold clampCount
  split
  · omega
  · exact le_rfl

end Chase

section Main
variable {bufferSz : UInt64} {randomShuffle : List ℕ → List ℕ}

theorem rounds_of_rotates {run : ChasingRun} {l : List ℕ} (hl : l.Perm (List.range run.chain.len.toNat))
    (hpos : 0 < run.chain.len.toNat) (h : Rotates run.chain.mem (l.map (entryAt padSize run.chain.buffer)))
    (hvisited : run.visited = (readChase run.chain.mem run.chain.buffer run.count.toNat).1) : run.Rounds := by
  have hentries : (l.map (entryAt padSize run.chain.buffer)).Nodup :=
    (hl.nodup_iff.mpr List.nodup_range).map fun _ _ => entryAt_inj
  have hlen : (l.map (entryAt padSize run.chain.buffer)).length = run.chain.len.toNat := by
    rw [List.length_map, hl.length_eq, List.length_range]
  have hstart : run.chain.buffer ∈ l.map (entryAt padSize run.chain.buffer) :=
    (entry_mem_iff hl).mpr ⟨0, hpos, by simp [entryAt]⟩
  refine ⟨?_, fun p hp => ?_, fun i hi => ?_⟩
  · rw [hvisited, readChase_length]
  · rw [hvisited, readChase_eq] at hp
    obtain ⟨k, -, rfl⟩ := List.mem_map.mp hp
    exact (entry_mem_iff hl).mp (h.mem hstart k)
  · rw [hvisited, readChase_stretch hi]
    have hround := h.round_perm hentries hstart i
    rw [hlen] at hround
    exact hround.trans (hl.map _)

/-- For every shuffle, every run of the program goes round the buffer, which is the request rounded up to whole entries;
and of at most `2^33` bytes it leaves no entry out. -/
theorem chasingMain_rounds (bufferSz count : UInt64) (buffer : ℕ) (mem : ℕ → ℕ) (hpos : 0 < bufferSz.toNat)
    (hwrap : bufferSz.toNat + entrySize padSize ≤ 2 ^ 64) (hshuffle : ∀ l, (randomShuffle l).Perm l) :
    Requested padSize bufferSz buffer (chasingMain bufferSz count randomShuffle buffer mem).chain ∧
      (chasingMain bufferSz count randomShuffle buffer mem).Rounds ∧
      (bufferSz.toNat ≤ 2 ^ 33 → ∀ j < (chasingMain bufferSz count randomShuffle buffer mem).chain.len.toNat,
        entryAt padSize buffer j ∈ (chasingMain bufferSz count randomShuffle buffer mem).visited) := by
  have hrequested := createRandom_requested hpos hwrap true randomShuffle buffer mem
  have hrounds : (chasingMain bufferSz count randomShuffle buffer mem).Rounds :=
    rounds_of_rotates (shuffledIndices_perm true hshuffle _) hrequested.len_pos
      (createRandom_rotates padSize bufferSz true buffer mem hshuffle hrequested.len_pos) rfl
  refine ⟨hrequested, hrounds, fun hle j hj => ?_⟩
  have hcount : (chasingMain bufferSz count randomShuffle buffer mem).chain.len.toNat ≤
      (chasingMain bufferSz count randomShuffle buffer mem).count.toNat := by
    have hclamp := le_clampCount count
    have hlen : (chasingMain bufferSz count randomShuffle buffer mem).chain.len.toNat * 8 =
      (bufferSz.toNat + 8 - 1) / 8 * 8 := hrequested.len_mul.trans hrequested.bufferSz_eq
    have hcount' : 2 ^ 30 ≤ (chasingMain bufferSz count randomShuffle buffer mem).count.toNat := hclamp
    omega
  have hall := (hrounds.round 0 (by omega)).mem_iff.mpr (List.mem_map_of_mem (List.mem_range.mpr hj))
  exact List.mem_of_mem_drop (List.mem_of_mem_take hall)

/-- `./chasing 33 0`: five entries. -/
theorem chasingMain_rounds_reversed : (chasingMain 33 0 List.reverse 4096 fun _ => 0).chain.bufferSz.toNat = 40 ∧
    (chasingMain 33 0 List.reverse 4096 fun _ => 0).Rounds ∧
    ∀ j < 5, entryAt padSize 4096 j ∈ (chasingMain 33 0 List.reverse 4096 fun _ => 0).visited := by
  obtain ⟨hrequested, hrounds, hall⟩ :=
    @chasingMain_rounds List.reverse 33 0 4096 (fun _ => 0) (by decide) (by decide) List.reverse_perm
  exact ⟨hrequested.bufferSz_eq, hrounds, hall (by decide)⟩

end Main

end GraphBenchmark
