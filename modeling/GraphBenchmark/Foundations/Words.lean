import Mathlib.Data.UInt
import Mathlib.Algebra.BigOperators.Group.Finset.Basic
import Mathlib.Algebra.BigOperators.Group.List.Basic

/-! # Sums of machine words

`ofNat` from the natural numbers to the words of a width is additive, so a wrapping sum of words is the
word of the exact sum. -/
namespace GraphBenchmark.Words
set_option autoImplicit false

def ofNat64 : ℕ →+ UInt64 where
  toFun := UInt64.ofNat
  map_zero' := rfl
  map_add' := UInt64.ofNat_add

def ofNat32 : ℕ →+ UInt32 where
  toFun := UInt32.ofNat
  map_zero' := rfl
  map_add' := UInt32.ofNat_add

theorem sum_ofNat64 {ι : Type*} (s : Finset ι) (f : ι → ℕ) :
    ∑ i ∈ s, UInt64.ofNat (f i) = UInt64.ofNat (∑ i ∈ s, f i) := (map_sum ofNat64 f s).symm

theorem list_sum_ofNat64 {ι : Type*} (l : List ι) (f : ι → ℕ) :
    (l.map fun i => UInt64.ofNat (f i)).sum = UInt64.ofNat (l.map f).sum := by
  have h := map_list_sum ofNat64 (l.map f)
  rw [List.map_map] at h
  exact h.symm

theorem list_sum_ofNat32 {ι : Type*} (l : List ι) (f : ι → ℕ) :
    (l.map fun i => UInt32.ofNat (f i)).sum = UInt32.ofNat (l.map f).sum := by
  have h := map_list_sum ofNat32 (l.map f)
  rw [List.map_map] at h
  exact h.symm

theorem toNat_ofNat64 {n : ℕ} (h : n < 2 ^ 64) : (UInt64.ofNat n).toNat = n := UInt64.toNat_ofNat_of_lt' h

theorem toNat_ofNat32 {n : ℕ} (h : n < 2 ^ 32) : (UInt32.ofNat n).toNat = n := UInt32.toNat_ofNat_of_lt' h

end GraphBenchmark.Words
