import Mathlib.Algebra.BigOperators.Group.Finset.Basic
import Mathlib.Algebra.Order.BigOperators.Group.Finset
import Mathlib.Data.Multiset.Range

/-! # Consecutive slices of an array

Slice `v` has `d v` slots and begins where slice `v - 1` ends, so it begins at the sum of the lengths
before it. The slices tile an initial segment of the array: a slot determines its slice and its place
in the slice (`start_add_inj`), and every slot below the total lies in one (`exists_slot`). -/
namespace GraphBenchmark.Slices
set_option autoImplicit false

variable (d : ℕ → ℕ) {u v i j n x : ℕ}

def start (v : ℕ) : ℕ := ∑ i ∈ Finset.range v, d i

theorem start_succ (v : ℕ) : start d (v + 1) = start d v + d v := Finset.sum_range_succ d v

theorem start_mono : Monotone (start d) := by
  refine monotone_nat_of_le_succ fun v => ?_
  rw [start_succ]
  exact Nat.le_add_right _ _

variable {d}

theorem start_add_lt (huv : u < v) (hi : i < d u) : start d u + i < start d v := by
  have h := start_mono d huv
  rw [Nat.succ_eq_add_one, start_succ] at h
  omega

theorem start_add_inj (hi : i < d u) (hj : j < d v) (h : start d u + i = start d v + j) : u = v ∧ i = j := by
  rcases Nat.lt_trichotomy u v with huv | rfl | huv
  · have := start_add_lt huv hi
    omega
  · exact ⟨rfl, by omega⟩
  · have := start_add_lt huv hj
    omega

theorem exists_slot (hx : x < start d n) : ∃ v < n, ∃ i < d v, x = start d v + i := by
  induction n with
  | zero => exact absurd hx (Nat.not_lt_zero x)
  | succ n ih =>
    rw [start_succ] at hx
    rcases Nat.lt_or_ge x (start d n) with h | h
    · obtain ⟨v, hv, i, hi, rfl⟩ := ih h
      exact ⟨v, by omega, i, hi, rfl⟩
    · exact ⟨n, Nat.lt_succ_self n, x - start d n, by omega, by omega⟩

/-! ## The slices of a list -/

/-- The entries of a list by their keys, key after key. -/
theorem perm_flatMap_filter {α β : Type*} [DecidableEq β] {key : α → β} {l : List α} {is : List β} (his : is.Nodup) :
    (is.flatMap fun i => l.filter fun a => key a = i).Perm (l.filter fun a => key a ∈ is) := by
  induction is with
  | nil => simp
  | cons i is ih =>
    obtain ⟨hi, his⟩ := List.nodup_cons.mp his
    have hown : (l.filter fun a => key a ∈ i :: is).filter (fun a => key a = i) = l.filter fun a => key a = i := by
      rw [List.filter_filter]
      refine List.filter_congr fun a _ => ?_
      by_cases ha : key a = i
      · simp [ha]
      · simp [ha]
    have hother : (l.filter fun a => key a ∈ i :: is).filter (fun a => !decide (key a = i)) =
        l.filter fun a => key a ∈ is := by
      rw [List.filter_filter]
      refine List.filter_congr fun a _ => ?_
      by_cases ha : key a = i
      · simp [ha, hi]
      · simp [ha]
    have hsplit := List.filter_append_perm (fun a => decide (key a = i)) (l.filter fun a => key a ∈ i :: is)
    rw [hown, hother] at hsplit
    rw [List.flatMap_cons]
    exact ((ih his).append_left _).trans hsplit

end GraphBenchmark.Slices
