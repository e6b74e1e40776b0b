import Mathlib.Data.Int.CardIntervalMod
import Mathlib.Data.List.Nodup
import Mathlib.Logic.Function.Iterate

/-! # Walking round a list

A map that leads from each entry of a list to the next one, and from the last one to the first, goes round the
list for ever. A walk of `n` steps passes each entry `n / length` times, or once more. -/
namespace GraphBenchmark.Rotation
set_option autoImplicit false

variable {α : Type*} {f : α → α} {l : List α} {i j k n : ℕ} {x y : α}

def Rotates (f : α → α) (l : List α) : Prop := ∀ i x, l[i]? = some x → l[(i + 1) % l.length]? = some (f x)

theorem lt_of_getElem? (h : l[i]? = some x) : i < l.length := (List.getElem?_eq_some_iff.mp h).1

theorem Rotates.iterate (h : Rotates f l) (hi : l[i]? = some x) (k : ℕ) : l[(i + k) % l.length]? = some (f^[k] x) := by
  induction k with
  | zero => rwa [Nat.add_zero, Nat.mod_eq_of_lt (lt_of_getElem? hi)]
  | succ k ih =>
    have hnext := h _ _ ih
    rwa [Nat.mod_add_mod, Nat.add_assoc, ← Function.iterate_succ_apply' f k x] at hnext

theorem Rotates.mem (h : Rotates f l) (hx : x ∈ l) (k : ℕ) : f^[k] x ∈ l := by
  obtain ⟨i, hi⟩ := List.getElem?_of_mem hx
  exact List.mem_of_getElem? (h.iterate hi k)

theorem Rotates.iterate_eq_iff (h : Rotates f l) (hl : l.Nodup) (hi : l[i]? = some x) (hj : l[j]? = some y) :
    f^[k] x = y ↔ (i + k) % l.length = j := by
  have hk := h.iterate hi k
  constructor
  · intro heq
    rw [heq] at hk
    exact (List.getElem?_inj (lt_of_getElem? hk) hl).mp (hk.trans hj.symm)
  · intro heq
    rw [heq] at hk
    exact Option.some.inj (hk.symm.trans hj)

/-- The walk is back at its start after whole rounds only. -/
theorem Rotates.iterate_eq_self_iff (h : Rotates f l) (hl : l.Nodup) (hx : x ∈ l) : f^[k] x = x ↔ l.length ∣ k := by
  obtain ⟨i, hi⟩ := List.getElem?_of_mem hx
  have hlt := lt_of_getElem? hi
  rw [h.iterate_eq_iff hl hi hi, ← Nat.modEq_zero_iff_dvd]
  constructor
  · intro heq
    have hmod : i + k ≡ i + 0 [MOD l.length] := heq.trans (Nat.mod_eq_of_lt hlt).symm
    exact Nat.ModEq.add_left_cancel' i hmod
  · intro hk
    have hmod : (i + k) % l.length = i % l.length := hk.add_left i
    exact hmod.trans (Nat.mod_eq_of_lt hlt)

theorem Rotates.exists_iterate (h : Rotates f l) (hl : l.Nodup) (hx : x ∈ l) (hy : y ∈ l) :
    ∃ k < l.length, f^[k] x = y := by
  obtain ⟨i, hi⟩ := List.getElem?_of_mem hx
  obtain ⟨j, hj⟩ := List.getElem?_of_mem hy
  have hlt := lt_of_getElem? hi
  have hlt' := lt_of_getElem? hj
  refine ⟨(j + (l.length - i)) % l.length, Nat.mod_lt _ (by omega), (h.iterate_eq_iff hl hi hj).mpr ?_⟩
  rw [Nat.add_mod_mod, show i + (j + (l.length - i)) = j + l.length by omega, Nat.add_mod_right,
    Nat.mod_eq_of_lt hlt']

/-- Within a round no entry comes up twice. -/
theorem Rotates.iterate_inj (h : Rotates f l) (hl : l.Nodup) (hx : x ∈ l) (heq : f^[i] x = f^[j] x) :
    i ≡ j [MOD l.length] := by
  obtain ⟨k, hk⟩ := List.getElem?_of_mem hx
  have hj := h.iterate hk j
  have hmod := (h.iterate_eq_iff hl hk hj).mp heq
  exact Nat.ModEq.add_left_cancel' k hmod

/-- So a round, wherever it begins, passes each entry once. -/
theorem Rotates.round_perm (h : Rotates f l) (hl : l.Nodup) (hx : x ∈ l) (i : ℕ) :
    ((List.range' i l.length).map fun k => f^[k] x).Perm l := by
  have hnodup : ((List.range' i l.length).map fun k => f^[k] x).Nodup := by
    refine List.Nodup.map_on (fun a ha b hb heq => ?_) List.nodup_range'
    rw [List.mem_range'_1] at ha hb
    have hmod : (a - i) ≡ (b - i) [MOD l.length] := by
      refine Nat.ModEq.add_left_cancel' i ?_
      rw [Nat.add_sub_cancel' ha.1, Nat.add_sub_cancel' hb.1]
      exact h.iterate_inj hl hx heq
    have heq' := hmod.eq_of_lt_of_lt (show a - i < l.length by omega) (show b - i < l.length by omega)
    omega
  refine (List.subperm_of_subset hnodup fun y hy => ?_).perm_of_length_le ?_
  · obtain ⟨k, -, rfl⟩ := List.mem_map.mp hy
    exact h.mem hx k
  · rw [List.length_map, List.length_range']

/-- In a walk of `n` steps each entry comes up `n / length` times, rounded down or up. -/
theorem Rotates.count [DecidableEq α] (h : Rotates f l) (hl : l.Nodup) (hx : x ∈ l) (hy : y ∈ l) (n : ℕ) :
    ((List.range n).map fun k => f^[k] x).count y = n / l.length ∨
      ((List.range n).map fun k => f^[k] x).count y = (n + l.length - 1) / l.length := by
  obtain ⟨i, hi⟩ := List.getElem?_of_mem hx
  obtain ⟨j, hj⟩ := List.getElem?_of_mem hy
  have hlt := lt_of_getElem? hi
  have hlt' := lt_of_getElem? hj
  have hpos : 0 < l.length := by omega
  have hmeet : ∀ k, f^[k] x = y ↔ k ≡ j + (l.length - i) [MOD l.length] := by
    intro k
    rw [h.iterate_eq_iff hl hi hj]
    have hback : i + (j + (l.length - i)) ≡ j [MOD l.length] := by
      rw [show i + (j + (l.length - i)) = j + l.length by omega]
      exact Nat.add_mod_right j _
    constructor
    · intro hk
      have hk' : i + k ≡ j [MOD l.length] := hk.trans (Nat.mod_eq_of_lt hlt').symm
      exact Nat.ModEq.add_left_cancel' i (hk'.trans hback.symm)
    · intro hk
      have hmod : (i + k) % l.length = j % l.length := (hk.add_left i).trans hback
      exact hmod.trans (Nat.mod_eq_of_lt hlt')
  have hcount : ((List.range n).map fun k => f^[k] x).count y =
      n.count (· ≡ j + (l.length - i) [MOD l.length]) := by
    rw [List.count, List.countP_map, Nat.count]
    refine List.countP_congr fun k _ => ?_
    rw [Function.comp_apply, beq_iff_eq, decide_eq_true_iff]
    exact hmeet k
  rw [hcount, Nat.count_modEq_card n hpos]
  split
  · right
    rename_i hrest
    have hdiv := Nat.div_add_mod n l.length
    have hmod := Nat.mod_lt n hpos
    symm
    refine Nat.div_eq_of_lt_le ?_ ?_
    · rw [Nat.add_mul, Nat.one_mul, Nat.mul_comm]
      omega
    · rw [Nat.add_mul, Nat.add_mul, Nat.one_mul, Nat.mul_comm]
      omega
  · exact Or.inl rfl

end GraphBenchmark.Rotation
