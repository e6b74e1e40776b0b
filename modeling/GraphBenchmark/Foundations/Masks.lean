import Mathlib.Data.Nat.Bitwise
import Mathlib.Data.Nat.Log

/-! # Masking and remainders

`i &&& c` against `i % c` for the numbers below a bound. The two agree on all of `[0, n)` only when `c` does not
lie in that range and has all the bits set that occur there. -/
namespace GraphBenchmark.Masks
set_option autoImplicit false

variable {c i k n : ℕ}

theorem testBit_of_mod (hc : c % 2 ^ k = 2 ^ k - 1) {j : ℕ} (hj : j < k) : c.testBit j = true := by
  have hbit : (c % 2 ^ k).testBit j = true := by
    rw [hc, Nat.testBit_two_pow_sub_one]
    exact decide_eq_true hj
  rw [Nat.testBit_mod_two_pow] at hbit
  exact (Bool.and_eq_true_iff.mp hbit).2

/-- A mask with its `k` low bits set leaves the numbers below `2^k` alone. -/
theorem and_eq_self_of_mod (hc : c % 2 ^ k = 2 ^ k - 1) (hi : i < 2 ^ k) : i &&& c = i := by
  apply Nat.eq_of_testBit_eq
  intro j
  rw [Nat.testBit_and]
  by_cases hj : j < k
  · rw [testBit_of_mod hc hj, Bool.and_true]
  · have hlt : i < 2 ^ j := hi.trans_le (Nat.pow_le_pow_right (by omega) (by omega))
    rw [Nat.testBit_lt_two_pow hlt, Bool.false_and]

theorem mod_of_testBit (h : ∀ j < k, c.testBit j = true) : c % 2 ^ k = 2 ^ k - 1 := by
  apply Nat.eq_of_testBit_eq
  intro j
  rw [Nat.testBit_mod_two_pow, Nat.testBit_two_pow_sub_one]
  by_cases hj : j < k
  · rw [h j hj, Bool.and_true]
  · simp [hj]

theorem forall_and_eq_self_iff : (∀ i < n, i &&& c = i) ↔ ∃ k, n ≤ 2 ^ k ∧ c % 2 ^ k = 2 ^ k - 1 := by
  constructor
  · intro h
    refine ⟨Nat.clog 2 n, Nat.le_pow_clog (by omega) n, mod_of_testBit fun j hj => ?_⟩
    -- the powers of two below `n` are the bits that occur below `n`
    have hlt : 2 ^ j < n := (Nat.lt_clog_iff_pow_lt (by omega)).mp hj
    have hbit := congrArg (Nat.testBit · j) (h (2 ^ j) hlt)
    simpa [Nat.testBit_and, Nat.testBit_two_pow_self] using hbit
  · rintro ⟨k, hk, hc⟩ i hi
    exact and_eq_self_of_mod hc (hi.trans_le hk)

theorem forall_and_eq_mod_iff (hc : 0 < c) :
    (∀ i < n, i &&& c = i % c) ↔ n ≤ c ∧ ∃ k, n ≤ 2 ^ k ∧ c % 2 ^ k = 2 ^ k - 1 := by
  constructor
  · intro h
    have hle : n ≤ c := by
      by_contra hlt
      have hself := h c (by omega)
      rw [Nat.and_self, Nat.mod_self] at hself
      omega
    refine ⟨hle, forall_and_eq_self_iff.mp fun i hi => ?_⟩
    rw [h i hi, Nat.mod_eq_of_lt (hi.trans_le hle)]
  · intro ⟨hle, hbits⟩ i hi
    rw [forall_and_eq_self_iff.mpr hbits i hi, Nat.mod_eq_of_lt (hi.trans_le hle)]

end GraphBenchmark.Masks
