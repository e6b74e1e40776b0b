import Mathlib.Data.Nat.Digits.Lemmas

/-! # Numbers in bytes

Numbers of a fixed width in memory, in either byte order. -/
namespace GraphBenchmark.Bytes
set_option autoImplicit false

inductive ByteOrder
  | little
  | big
deriving DecidableEq, Repr

/-- The number in `bs`, the low byte first. -/
def fromLow (bs : List UInt8) : ℕ := Nat.ofDigits 256 (bs.map UInt8.toNat)

/-- `n` in `k` bytes, the low byte first. -/
def toLow : ℕ → ℕ → List UInt8
  | 0, _ => []
  | k + 1, n => UInt8.ofNat n :: toLow k (n / 256)

def fromBytes (o : ByteOrder) (bs : List UInt8) : ℕ :=
  match o with
  | .little => fromLow bs
  | .big => fromLow bs.reverse

def toBytes (o : ByteOrder) (k n : ℕ) : List UInt8 :=
  match o with
  | .little => toLow k n
  | .big => (toLow k n).reverse

variable {o : ByteOrder} {k n : ℕ}

theorem length_toLow (k n : ℕ) : (toLow k n).length = k := by
  induction k generalizing n with
  | zero => rfl
  | succ k ih => rw [toLow, List.length_cons, ih]

theorem fromLow_toLow (h : n < 256 ^ k) : fromLow (toLow k n) = n := by
  induction k generalizing n with
  | zero =>
    obtain rfl : n = 0 := by simpa using h
    rfl
  | succ k ih =>
    have hdiv : n / 256 < 256 ^ k := by
      rw [Nat.div_lt_iff_lt_mul (by decide), ← Nat.pow_succ]
      exact h
    have hlow : (UInt8.ofNat n).toNat = n % 256 := UInt8.toNat_ofNat'
    have htail := ih hdiv
    unfold fromLow at htail
    rw [toLow, fromLow, List.map_cons, Nat.ofDigits_cons, htail, hlow]
    exact Nat.mod_add_div n 256

theorem fromLow_lt (bs : List UInt8) : fromLow bs < 256 ^ bs.length := by
  have hlt := Nat.ofDigits_lt_base_pow_length (b := 256) (by decide) (l := bs.map UInt8.toNat) fun x hx => by
    obtain ⟨b, -, rfl⟩ := List.mem_map.mp hx
    exact b.toNat_lt
  rwa [List.length_map] at hlt

@[simp] theorem length_toBytes (o : ByteOrder) (k n : ℕ) : (toBytes o k n).length = k := by
  cases o with
  | little => exact length_toLow k n
  | big => exact (List.length_reverse).trans (length_toLow k n)

theorem fromBytes_toBytes (h : n < 256 ^ k) : fromBytes o (toBytes o k n) = n := by
  cases o with
  | little => exact fromLow_toLow h
  | big =>
    show fromLow (toLow k n).reverse.reverse = n
    rw [List.reverse_reverse, fromLow_toLow h]

theorem fromBytes_lt (o : ByteOrder) (bs : List UInt8) : fromBytes o bs < 256 ^ bs.length := by
  cases o with
  | little => exact fromLow_lt bs
  | big =>
    have hlt := fromLow_lt bs.reverse
    rwa [List.length_reverse] at hlt

end GraphBenchmark.Bytes
