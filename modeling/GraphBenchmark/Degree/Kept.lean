import GraphBenchmark.Degree.Relabel

/-! # Vertex `0` under `-m`

The first loop gives vertex `0` its own id, the second does not look for it. So `-m` keeps vertex `0` when the edges are
held under it, and otherwise numbers it like the others, from `1`. -/
namespace GraphBenchmark
open Bytes Positions
set_option autoImplicit false

/-- The mapping fixes `0`, and it hands out the ids below the number of distinct endpoints. -/
structure KeepsZero (edges : List (ℕ × ℕ)) (mapping : ℕ → Option ℕ) : Prop where
  zero : mapping 0 = some 0
  only : ∀ v, mapping v = some 0 → v = 0
  ids : ∀ i, (∃ v, mapping v = some i) ↔ i < (endpoints edges).dedup.length

section Kept
variable {args : DegreeArgs} {edges : List (ℕ × ℕ)} {keep : Bool} {l : List ℕ} {s : DegreeState} {v : ℕ}

namespace Final

theorem mapping_of_ne (h : Final args edges keep l s) (hv : v ≠ 0) : s.mapping v = numbered (firstId args) l v := by
  rw [h.issued.mapping v, if_neg fun hc => hv hc.2]

theorem keepsZero (h : Final args edges true l s) : KeepsZero edges s.mapping := by
  have hfirst := h.firstId_pos rfl
  have hlength : (endpoints edges).dedup.length = l.length + 1 := h.length_dedup
  have hzero : s.mapping 0 = some 0 := by rw [h.issued.mapping 0, if_pos ⟨rfl, rfl⟩]
  refine ⟨hzero, fun v hv => ?_, fun i => ⟨?_, fun hi => ?_⟩⟩
  · by_contra hne
    rw [h.mapping_of_ne hne] at hv
    have hle := (numbered_lt hv).1
    omega
  · rw [hlength]
    rintro ⟨v, hv⟩
    by_cases hne : v = 0
    · rw [hne, hzero] at hv
      obtain rfl := Option.some.inj hv
      omega
    · rw [h.mapping_of_ne hne] at hv
      have hlt := (numbered_lt hv).2
      omega
  · rw [hlength] at hi
    by_cases hi0 : i = 0
    · exact ⟨0, hi0 ▸ hzero⟩
    · obtain ⟨v, hv, hid⟩ := exists_numbered (c := firstId args) (i := i) h.issued.nodup (by omega) (by omega)
      have hne : v ≠ 0 := fun hv0 => h.issued.zero rfl (hv0 ▸ hv)
      exact ⟨v, (h.mapping_of_ne hne).trans hid⟩

/-- Numbered like the others, `0` has an id behind the reserved one. -/
theorem zero_of_not_keep (h : Final args edges false l s) (hm : args.maintain = true) : s.mapping 0 ≠ some 0 := by
  intro hzero
  have hfirst : firstId args = 1 := if_pos hm
  rw [h.issued.mapping 0, if_neg (by simp)] at hzero
  have hle := (numbered_lt hzero).1
  omega

end Final

theorem exists_final (hk : keep = true ↔ args.maintain = true ∧ 0 ∈ edges.map (keyOf args)) :
    ∃ l, Final args edges keep l (numberEdges args edges) := by
  obtain ⟨l', hfinal⟩ := numberEdges_final args edges
  rw [Bool.eq_iff_iff.mpr (hk.trans hfinal.keep_iff.symm)]
  exact ⟨_, hfinal⟩

/-- An id `0` for vertex `0` under `-m` comes from the first loop. -/
theorem keyed_of_zero (hm : args.maintain = true) (hzero : (numberEdges args edges).mapping 0 = some 0) :
    0 ∈ edges.map (keyOf args) := by
  by_contra hkey
  obtain ⟨l, hfinal⟩ : ∃ l, Final args edges false l (numberEdges args edges) := exists_final (by simp [hkey])
  exact hfinal.zero_of_not_keep hm hzero

end Kept

/-- With `-m`, `degree.py` keeps vertex `0` exactly when it is a source, or a destination with `-i`. -/
theorem keepsZero_iff (byteorder : ByteOrder) (args : DegreeArgs) (file : List UInt8) (hm : args.maintain = true) :
    KeepsZero (readRecords byteorder file) (numberEdges args (readRecords byteorder file)).mapping ↔
      0 ∈ (readRecords byteorder file).map (keyOf args) := by
  constructor
  · exact fun h => keyed_of_zero hm h.zero
  · intro hkey
    obtain ⟨l, hfinal⟩ := exists_final (iff_of_true rfl ⟨hm, hkey⟩)
    exact hfinal.keepsZero

/-- The edge from `0` to `5`. -/
theorem keepsZero_edge :
    KeepsZero (readRecords .little [0, 0, 0, 0, 5, 0, 0, 0])
      (numberEdges ⟨true, false, false⟩ (readRecords .little [0, 0, 0, 0, 5, 0, 0, 0])).mapping :=
  (keepsZero_iff _ _ _ rfl).mpr (by decide)

/-- The edge from `5` to `0`: the ids are `1` and `2`. -/
theorem not_keepsZero_edge :
    ¬ ∀ (byteorder : ByteOrder) (args : DegreeArgs) (file : List UInt8), file.length % 8 = 0 → args.maintain = true →
      0 ∈ endpoints (readRecords byteorder file) →
      KeepsZero (readRecords byteorder file) (numberEdges args (readRecords byteorder file)).mapping := by
  intro h
  have hkeeps := h .little ⟨true, false, false⟩ [5, 0, 0, 0, 0, 0, 0, 0] (by decide) rfl (by decide)
  have hkeyed := keyed_of_zero rfl hkeeps.zero
  revert hkeyed
  decide

end GraphBenchmark
