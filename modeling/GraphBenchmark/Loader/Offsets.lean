import GraphBenchmark.Loader.Count

/-! # The offset arrays and the memory `graph_malloc` returned

`count_degree` counts on top of what the arrays held. With cells that start at zero the result is the
degree prefix sums (`sumDegree_counted`); with other contents the assertions of `sum_degree` and the
offsets depend on them, and `countIndependent_iff` says exactly when they do not. -/
namespace GraphBenchmark
open Interleaving Words
set_option autoImplicit false

variable {file : EdgeFile} {symmetric : Bool} {n m : ℕ} {a b : ℕ → UInt64} {mem mem₁ mem₂ : Offsets}

/-- The cells of a vertex array of length `n` are zero. -/
def Offsets.Zeroed (mem : Offsets) (n : ℕ) : Prop := ∀ i < n, mem.outEdgeOffsets i = 0 ∧ mem.inEdgeOffsets i = 0

/-- The exclusive prefix sums of the cells `a i + d i`. -/
def offsetsOver (n : ℕ) (a : ℕ → UInt64) (d : ℕ → ℕ) (i : ℕ) : UInt64 :=
  if i ≤ n then ∑ j ∈ Finset.range i, a j + UInt64.ofNat (Slices.start d i) else a i + UInt64.ofNat (d i)

theorem sum_add_ofNat (a : ℕ → UInt64) (d : ℕ → ℕ) (i : ℕ) :
    ∑ j ∈ Finset.range i, (a j + UInt64.ofNat (d j)) = ∑ j ∈ Finset.range i, a j + UInt64.ofNat (Slices.start d i) := by
  rw [Finset.sum_add_distrib, sum_ofNat64]
  rfl

/-- On cells `a i + d i` whose exact counts `d` sum up to the edge count, the assertion passes when the
old contents sum up to zero. -/
theorem sumDegreeBlock_add {d : ℕ → ℕ} (hd : Slices.start d n = m) :
    sumDegreeBlock n m (fun i => a i + UInt64.ofNat (d i)) =
      if ∑ j ∈ Finset.range n, a j = 0 then some (offsetsOver n a d) else none := by
  rw [sumDegreeBlock_eq, sum_add_ofNat, hd]
  by_cases h : ∑ j ∈ Finset.range n, a j = 0
  · rw [if_pos h, if_pos (by rw [h, zero_add])]
    congr 1
    funext i
    simp only [offsetsOver, sum_add_ofNat]
  · rw [if_neg h, if_neg fun heq => h (add_eq_right.mp heq)]

theorem sumDegree_counted_eq (hfile : file.EndpointsBelow n) :
    sumDegree symmetric n file.nbEdges (counted file symmetric mem) =
      if ∑ j ∈ Finset.range n, mem.outEdgeOffsets j = 0 ∧
          (symmetric = true → ∑ j ∈ Finset.range n, mem.inEdgeOffsets j = 0) then
        some ⟨offsetsOver n mem.outEdgeOffsets file.outDegree,
          if symmetric then offsetsOver n mem.inEdgeOffsets file.inDegree else mem.inEdgeOffsets⟩
      else none := by
  have hout := sumDegreeBlock_add (a := mem.outEdgeOffsets) (file.start_outDegree hfile)
  have hin := sumDegreeBlock_add (a := mem.inEdgeOffsets) (file.start_inDegree hfile)
  unfold sumDegree
  change (sumDegreeBlock n file.nbEdges (fun i => mem.outEdgeOffsets i + UInt64.ofNat (file.outDegree i))).bind _ = _
  rw [hout]
  by_cases h : ∑ j ∈ Finset.range n, mem.outEdgeOffsets j = 0
  · rw [if_pos h, Option.bind_some]
    cases symmetric with
    | false => simp [h, counted]
    | true =>
      change (sumDegreeBlock n file.nbEdges (fun i => mem.inEdgeOffsets i + UInt64.ofNat (file.inDegree i))).bind _ = _
      rw [hin]
      by_cases h' : ∑ j ∈ Finset.range n, mem.inEdgeOffsets j = 0
      · rw [if_pos h', Option.bind_some, if_pos ⟨h, fun _ => h'⟩]
        rfl
      · rw [if_neg h', Option.bind_none, if_neg fun hc => h' (hc.2 rfl)]
  · rw [if_neg h, Option.bind_none, if_neg fun hc => h hc.1]

theorem countDegree_done {s : CountState} (h : Reach (countDegree file symmetric n) (CountState.init mem) s)
    (hp : s.pc = .done) : sumDegree symmetric n file.nbEdges (counted file symmetric mem) = some s.offsets :=
  (h.invariant (P := CountInv file symmetric n mem) countInv_init fun _ _ _ hu ha => countInv_step hu ha).done hp

/-! ## Arrays that start at zero -/

theorem offsetsOver_zero {d : ℕ → ℕ} (ha : ∀ i < n, a i = 0) {i : ℕ} (hi : i ≤ n) :
    offsetsOver n a d i = UInt64.ofNat (Slices.start d i) := by
  rw [offsetsOver, if_pos hi, Finset.sum_eq_zero fun j hj => ha j ((Finset.mem_range.mp hj).trans_le hi), zero_add]

theorem countDegree_zeroed (symmetric : Bool) (hfile : file.EndpointsBelow n) (hmem : mem.Zeroed n) :
    Ends (countDegree file symmetric n) (CountState.init mem) fun s => s.pc = .done ∧
      ∀ i ≤ n, s.offsets.outEdgeOffsets i = UInt64.ofNat (Slices.start file.outDegree i) ∧
        (symmetric = true → s.offsets.inEdgeOffsets i = UInt64.ofNat (Slices.start file.inDegree i)) := by
  have hsum : sumDegree symmetric n file.nbEdges (counted file symmetric mem) =
      some ⟨offsetsOver n mem.outEdgeOffsets file.outDegree,
        if symmetric then offsetsOver n mem.inEdgeOffsets file.inDegree else mem.inEdgeOffsets⟩ := by
    rw [sumDegree_counted_eq hfile, if_pos]
    exact ⟨Finset.sum_eq_zero fun j hj => (hmem j (Finset.mem_range.mp hj)).1,
      fun _ => Finset.sum_eq_zero fun j hj => (hmem j (Finset.mem_range.mp hj)).2⟩
  refine (countDegree_ends file symmetric n mem).mono fun s _ hs => ?_
  rw [hsum] at hs
  rcases hs with ⟨hp, ho⟩ | ⟨-, hn⟩
  · refine ⟨hp, fun i hi => ?_⟩
    rw [← Option.some.inj ho]
    refine ⟨offsetsOver_zero (fun j hj => (hmem j hj).1) hi, fun hsym => ?_⟩
    rw [if_pos hsym]
    exact offsetsOver_zero (fun j hj => (hmem j hj).2) hi
  · cases hn

/-! ## Arrays that start with anything -/

/-- The offset arrays agree, cell by cell, over their whole length. -/
def SameOffsets (symmetric : Bool) (n : ℕ) (o₁ o₂ : Offsets) : Prop :=
  (∀ i ≤ n, o₁.outEdgeOffsets i = o₂.outEdgeOffsets i) ∧
    (symmetric = true → ∀ i ≤ n, o₁.inEdgeOffsets i = o₂.inEdgeOffsets i)

/-- `count_degree` does not see which of two contents the arrays started with: it completes from both,
and every run from the one leaves the offsets of every run from the other. -/
def CountIndependent (file : EdgeFile) (symmetric : Bool) (n : ℕ) (mem₁ mem₂ : Offsets) : Prop :=
  Ends (countDegree file symmetric n) (CountState.init mem₁) (fun s => s.pc = .done) ∧
  Ends (countDegree file symmetric n) (CountState.init mem₂) (fun s => s.pc = .done) ∧
  ∀ s₁ s₂, Reach (countDegree file symmetric n) (CountState.init mem₁) s₁ →
    Reach (countDegree file symmetric n) (CountState.init mem₂) s₂ → s₁.pc = .done → s₂.pc = .done →
    SameOffsets symmetric n s₁.offsets s₂.offsets

/-- Two contents of a vertex array that counting cannot tell apart: equal cells, summing up to zero. -/
def Neutral (n : ℕ) (a b : ℕ → UInt64) : Prop := (∀ i < n, a i = b i) ∧ ∑ i ∈ Finset.range n, a i = 0

theorem Neutral.sum_right (h : Neutral n a b) : ∑ i ∈ Finset.range n, b i = 0 := by
  rw [← h.2]
  exact Finset.sum_congr rfl fun i hi => (h.1 i (Finset.mem_range.mp hi)).symm

theorem offsetsOver_inj {d : ℕ → ℕ} : (∀ i ≤ n, offsetsOver n a d i = offsetsOver n b d i) ↔ ∀ i < n, a i = b i := by
  have hsum : ∀ i ≤ n, offsetsOver n a d i = offsetsOver n b d i ↔
      ∑ j ∈ Finset.range i, a j = ∑ j ∈ Finset.range i, b j := by
    intro i hi
    simp only [offsetsOver, if_pos hi, add_left_inj]
  constructor
  · intro h i hi
    have h₀ := (hsum i hi.le).mp (h i hi.le)
    have h₁ := (hsum (i + 1) hi).mp (h (i + 1) hi)
    rw [Finset.sum_range_succ, Finset.sum_range_succ, h₀] at h₁
    exact add_left_cancel h₁
  · intro h i hi
    exact (hsum i hi).mpr (Finset.sum_congr rfl fun j hj => h j ((Finset.mem_range.mp hj).trans_le hi))

/-- It completes exactly when its assertions pass. -/
theorem countDegree_ends_iff : Ends (countDegree file symmetric n) (CountState.init mem) (fun s => s.pc = .done) ↔
    ∃ o, sumDegree symmetric n file.nbEdges (counted file symmetric mem) = some o := by
  constructor
  · intro h
    obtain ⟨s, hs, hp⟩ := h.exists
    exact ⟨s.offsets, countDegree_done hs hp⟩
  · rintro ⟨o, ho⟩
    refine (countDegree_ends file symmetric n mem).mono fun s _ hs => ?_
    rcases hs with ⟨hp, -⟩ | ⟨-, hn⟩
    · exact hp
    · rw [ho] at hn
      cases hn

/-- The contents `graph_malloc` returned do not matter exactly when the cells of the vertices agree and sum
up to zero. Zeroed arrays are such contents, a block with a stray word in it is not. -/
theorem countIndependent_iff (hfile : file.EndpointsBelow n) :
    CountIndependent file symmetric n mem₁ mem₂ ↔
      Neutral n mem₁.outEdgeOffsets mem₂.outEdgeOffsets ∧
        (symmetric = true → Neutral n mem₁.inEdgeOffsets mem₂.inEdgeOffsets) := by
  unfold CountIndependent
  rw [countDegree_ends_iff, countDegree_ends_iff]
  constructor
  · rintro ⟨⟨o₁, h₁⟩, ⟨o₂, h₂⟩, hsame⟩
    -- both runs exist, so their offsets can be compared
    obtain ⟨s₁, hs₁, hp₁⟩ := (countDegree_ends_iff.mpr ⟨o₁, h₁⟩).exists
    obtain ⟨s₂, hs₂, hp₂⟩ := (countDegree_ends_iff.mpr ⟨o₂, h₂⟩).exists
    obtain ⟨hout, hin⟩ := hsame s₁ s₂ hs₁ hs₂ hp₁ hp₂
    have hd₁ := countDegree_done hs₁ hp₁
    have hd₂ := countDegree_done hs₂ hp₂
    rw [sumDegree_counted_eq hfile] at hd₁ hd₂
    split at hd₁
    · split at hd₂
      · rename_i hz _
        rw [← Option.some.inj hd₁, ← Option.some.inj hd₂] at hout hin
        refine ⟨⟨offsetsOver_inj.mp hout, hz.1⟩, fun hsym => ⟨?_, hz.2 hsym⟩⟩
        have := hin hsym
        simp only [hsym, if_true] at this
        exact offsetsOver_inj.mp this
      · cases hd₂
    · cases hd₁
  · rintro ⟨hout, hin⟩
    have h₁ : sumDegree symmetric n file.nbEdges (counted file symmetric mem₁) = _ := sumDegree_counted_eq hfile
    have h₂ : sumDegree symmetric n file.nbEdges (counted file symmetric mem₂) = _ := sumDegree_counted_eq hfile
    rw [if_pos ⟨hout.2, fun hsym => (hin hsym).2⟩] at h₁
    rw [if_pos ⟨hout.sum_right, fun hsym => (hin hsym).sum_right⟩] at h₂
    refine ⟨⟨_, h₁⟩, ⟨_, h₂⟩, fun s₁ s₂ hs₁ hs₂ hp₁ hp₂ => ?_⟩
    have ho₁ := Option.some.inj (h₁.symm.trans (countDegree_done hs₁ hp₁))
    have ho₂ := Option.some.inj (h₂.symm.trans (countDegree_done hs₂ hp₂))
    rw [← ho₁, ← ho₂]
    refine ⟨offsetsOver_inj.mpr hout.1, fun hsym => ?_⟩
    simp only [hsym, if_true]
    exact offsetsOver_inj.mpr (hin hsym).1

def loopFile : EdgeFile := ⟨[⟨0, 0⟩], by decide⟩

theorem loopFile_endpointsBelow : loopFile.EndpointsBelow 1 := by decide

theorem neutral_zero : Neutral 1 (fun _ => 0) (fun _ => 0) := ⟨fun _ _ => rfl, rfl⟩

theorem countIndependent_loop :
    CountIndependent loopFile true 1 ⟨fun _ => 0, fun _ => 0⟩ ⟨fun _ => 0, fun _ => 0⟩ :=
  (countIndependent_iff loopFile_endpointsBelow).mpr ⟨neutral_zero, fun _ => neutral_zero⟩

/-- A recycled block with one nonzero word: the assertion of `sum_degree` fails on it. -/
theorem not_countIndependent_recycled :
    ¬ ∀ (file : EdgeFile) (symmetric : Bool) (n : ℕ) (mem₁ mem₂ : Offsets), file.EndpointsBelow n →
      CountIndependent file symmetric n mem₁ mem₂ := by
  intro h
  obtain ⟨-, hends, -⟩ := h loopFile false 1 ⟨fun _ => 0, fun _ => 0⟩ ⟨fun _ => 1, fun _ => 0⟩ loopFile_endpointsBelow
  obtain ⟨o, ho⟩ := countDegree_ends_iff.mp hends
  rw [sumDegree_counted_eq loopFile_endpointsBelow, if_neg] at ho
  · cases ho
  · rintro ⟨hsum, -⟩
    rw [Finset.sum_range_one] at hsum
    exact absurd hsum (by decide)

end GraphBenchmark
