import Mathlib.Data.List.Basic
import Mathlib.Data.Nat.ModEq
import Mathlib.Logic.Function.Basic

/-! # Cells in a ring

Positions grow without bound and are taken modulo the number of cells. -/
namespace GraphBenchmark.Circular
set_option autoImplicit false

variable {β : Type*} {N p q : ℕ} {cells : ℕ → β} {l l' : List β}

/-- The ring holds `l` from position `p` on. -/
def Holds (N : ℕ) (cells : ℕ → β) (p : ℕ) (l : List β) : Prop := ∀ k (hk : k < l.length), cells ((p + k) % N) = l[k]

theorem Holds.nil (N : ℕ) (cells : ℕ → β) (p : ℕ) : Holds N cells p [] := fun _ hk => absurd hk (Nat.not_lt_zero _)

theorem holds_append : Holds N cells p (l ++ l') ↔ Holds N cells p l ∧ Holds N cells (p + l.length) l' := by
  constructor
  · intro h
    refine ⟨fun k hk => ?_, fun k hk => ?_⟩
    · rw [h k (by rw [List.length_append]; omega), List.getElem_append_left hk]
    · rw [Nat.add_assoc, h (l.length + k) (by rw [List.length_append]; omega),
        List.getElem_append_right (Nat.le_add_right _ _)]
      simp
  · intro ⟨h, h'⟩ k hk
    rw [List.length_append] at hk
    by_cases hkl : k < l.length
    · rw [List.getElem_append_left hkl, h k hkl]
    · obtain ⟨j, rfl⟩ := Nat.exists_eq_add_of_le (Nat.le_of_not_lt hkl)
      rw [List.getElem_append_right (Nat.le_add_right _ _), ← Nat.add_assoc, h' j (by omega)]
      simp

/-- Positions less than a turn apart are different cells. -/
theorem mod_ne (hpq : p < q) (hturn : q < p + N) : p % N ≠ q % N := by
  intro heq
  obtain ⟨c, hc⟩ := (Nat.modEq_iff_dvd' hpq.le).mp heq
  cases c with
  | zero => omega
  | succ c =>
    have hle : N ≤ q - p := by rw [hc]; exact Nat.le_mul_of_pos_right N (Nat.succ_pos c)
    omega

/-- A store behind what the ring holds, and less than a turn from where that starts. -/
theorem Holds.update (h : Holds N cells p l) (hq : p + l.length ≤ q) (hturn : q < p + N) (b : β) :
    Holds N (Function.update cells (q % N) b) p l := by
  intro k hk
  rw [Function.update_of_ne (mod_ne (by omega) (by omega)), h k hk]

theorem Holds.snoc (h : Holds N cells p l) (hl : l.length < N) (b : β) :
    Holds N (Function.update cells ((p + l.length) % N) b) p (l ++ [b]) := by
  refine holds_append.mpr ⟨h.update le_rfl (by omega) b, fun k hk => ?_⟩
  obtain rfl : k = 0 := by simpa using hk
  exact Function.update_self _ _ _

/-- A part that does not go round the end is read in one piece. -/
theorem Holds.slice (h : Holds N cells p l) {d k : ℕ} (hend : p % N + d + k ≤ N) (hl : d + k ≤ l.length) :
    ((List.range k).map fun i => cells (p % N + d + i)) = (l.drop d).take k := by
  refine List.ext_getElem (by simp; omega) fun i h₁ _ => ?_
  rw [List.length_map, List.length_range] at h₁
  have hmod : (p + (d + i)) % N = p % N + d + i := by
    rw [← Nat.mod_add_mod, Nat.mod_eq_of_lt (by omega), Nat.add_assoc]
  rw [List.getElem_map, List.getElem_range, List.getElem_take, List.getElem_drop, ← hmod]
  exact h (d + i) (by omega)

end GraphBenchmark.Circular
