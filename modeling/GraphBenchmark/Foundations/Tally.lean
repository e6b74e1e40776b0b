import Mathlib.Data.Finset.Card
import Mathlib.Data.Finset.Range
import Mathlib.Logic.Function.Basic

/-! # Tallies

How many of the first `n` parties are in a state that satisfies `p`, and how the number changes when one party
moves. -/
namespace GraphBenchmark.Tally
set_option autoImplicit false

variable {α : Type*} {n t : ℕ} {p : α → Bool} {f : ℕ → α} {x : α}

def tally (n : ℕ) (p : α → Bool) (f : ℕ → α) : ℕ := ((Finset.range n).filter fun u => p (f u) = true).card

theorem tally_congr {β : Type*} {q : β → Bool} {g : ℕ → β} (h : ∀ u < n, p (f u) = q (g u)) :
    tally n p f = tally n q g := by
  unfold tally
  congr 1
  refine Finset.filter_congr fun u hu => ?_
  rw [h u (Finset.mem_range.mp hu)]

theorem tally_le : tally n p f ≤ n := by
  have hle := Finset.card_filter_le (Finset.range n) fun u => p (f u) = true
  rwa [Finset.card_range] at hle

theorem tally_eq_zero_iff : tally n p f = 0 ↔ ∀ u < n, p (f u) = false := by
  simp only [tally, Finset.card_eq_zero, Finset.filter_eq_empty_iff, Finset.mem_range, Bool.not_eq_true]

theorem tally_eq_iff : tally n p f = n ↔ ∀ u < n, p (f u) = true := by
  have hfull := Finset.card_filter_eq_iff (s := Finset.range n) (p := fun u => p (f u) = true)
  rw [Finset.card_range] at hfull
  simp only [tally, hfull, Finset.mem_range]

theorem tally_update_same (h : p x = p (f t)) : tally n p (Function.update f t x) = tally n p f := by
  refine tally_congr fun u _ => ?_
  by_cases hut : u = t
  · rw [hut, Function.update_self, h]
  · rw [Function.update_of_ne hut]

theorem tally_update_gain (ht : t < n) (hx : p x = true) (hf : p (f t) = false) :
    tally n p (Function.update f t x) = tally n p f + 1 := by
  have hinsert : (Finset.range n).filter (fun u => p (Function.update f t x u) = true) =
      insert t ((Finset.range n).filter fun u => p (f u) = true) := by
    ext u
    by_cases hut : u = t
    · simp [hut, ht, hx]
    · simp [hut]
  rw [tally, tally, hinsert, Finset.card_insert_of_notMem (by simp [hf])]

end GraphBenchmark.Tally
