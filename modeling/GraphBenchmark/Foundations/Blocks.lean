import Mathlib.Order.Basic

/-! # Blocks of a memory

A memory is a function of addresses. Where all sources of a run of copies hold one value, the copies spread that value
over their destinations, in whatever order they are made and however often. -/
namespace GraphBenchmark.Blocks
set_option autoImplicit false

variable {β : Type*} {mem mem₀ mem' : ℕ → β} {a b n x : ℕ} {v : β} {P Q : ℕ → Prop}

/-- `x` is one of the `n` addresses from `a` on. -/
def Within (a n x : ℕ) : Prop := a ≤ x ∧ x < a + n

instance (a n x : ℕ) : Decidable (Within a n x) := inferInstanceAs (Decidable (_ ∧ _))

/-- `memset`. -/
def fill (mem : ℕ → β) (a : ℕ) (v : β) (n : ℕ) (x : ℕ) : β := if Within a n x then v else mem x

/-- `memcpy`. -/
def copy (mem : ℕ → β) (dst src n : ℕ) (x : ℕ) : β := if Within dst n x then mem (src + (x - dst)) else mem x

@[simp] theorem fill_of_within (h : Within a n x) : fill mem a v n x = v := if_pos h

@[simp] theorem fill_of_not_within (h : ¬ Within a n x) : fill mem a v n x = mem x := if_neg h

@[simp] theorem copy_of_within (h : Within a n x) : copy mem a b n x = mem (b + (x - a)) := if_pos h

@[simp] theorem copy_of_not_within (h : ¬ Within a n x) : copy mem a b n x = mem x := if_neg h

/-- Several blocks filled with one value. -/
def fillAll (mem : ℕ → β) (addr : ℕ → ℕ) (v : β) (n k : ℕ) : ℕ → β :=
  (List.range k).foldl (fun mem i => fill mem (addr i) v n) mem

theorem fillAll_succ (mem : ℕ → β) (addr : ℕ → ℕ) (v : β) (n k : ℕ) :
    fillAll mem addr v n (k + 1) = fill (fillAll mem addr v n k) (addr k) v n := by
  rw [fillAll, List.range_succ, List.foldl_append]
  rfl

theorem fillAll_of_within {addr : ℕ → ℕ} {i k : ℕ} (hi : i < k) (h : Within (addr i) n x) :
    fillAll mem addr v n k x = v := by
  induction k with
  | zero => exact absurd hi (Nat.not_lt_zero i)
  | succ k ih =>
    rw [fillAll_succ]
    by_cases hk : Within (addr k) n x
    · exact fill_of_within hk
    · rw [fill_of_not_within hk]
      refine ih (Nat.lt_of_le_of_ne (Nat.lt_succ_iff.mp hi) fun hik => ?_)
      exact hk (hik ▸ h)

theorem fillAll_of_not_within {addr : ℕ → ℕ} {k : ℕ} (h : ∀ i < k, ¬ Within (addr i) n x) :
    fillAll mem addr v n k x = mem x := by
  induction k with
  | zero => rfl
  | succ k ih =>
    rw [fillAll_succ, fill_of_not_within (h k (Nat.lt_succ_self k))]
    exact ih fun i hi => h i (Nat.lt_succ_of_lt hi)

/-- `mem` is `mem₀` with the value `v` at the addresses in `P`. -/
structure Spread (mem₀ : ℕ → β) (v : β) (P : ℕ → Prop) (mem : ℕ → β) : Prop where
  at_of : ∀ x, P x → mem x = v
  eq_of_not : ∀ x, ¬ P x → mem x = mem₀ x

theorem Spread.refl (mem : ℕ → β) (v : β) (h : ∀ x, ¬ P x) : Spread mem v P mem :=
  ⟨fun x hx => absurd hx (h x), fun _ _ => rfl⟩

theorem Spread.congr (h : Spread mem₀ v P mem) (hiff : ∀ x, Q x ↔ P x) : Spread mem₀ v Q mem :=
  ⟨fun x hx => h.at_of x ((hiff x).mp hx), fun x hx => h.eq_of_not x fun hp => hx ((hiff x).mpr hp)⟩

/-- A cell that held `v` before holds it still. -/
theorem Spread.eq_of_eq (h : Spread mem₀ v P mem) (hx : mem₀ x = v) : mem x = v := by
  by_cases hp : P x
  · exact h.at_of x hp
  · rw [h.eq_of_not x hp, hx]

/-- A copy of a block that held `v` before. -/
theorem Spread.copy (h : Spread mem₀ v P mem) (hsrc : ∀ x, Within b n x → mem₀ x = v) :
    Spread mem₀ v (fun x => P x ∨ Within a n x) (Blocks.copy mem a b n) := by
  constructor
  · intro x hx
    by_cases hin : Within a n x
    · rw [copy_of_within hin]
      refine h.eq_of_eq (hsrc _ ?_)
      unfold Within at hin ⊢
      omega
    · rw [copy_of_not_within hin]
      exact h.at_of x (hx.resolve_right hin)
  · intro x hx
    rw [copy_of_not_within fun hin => hx (Or.inr hin)]
    exact h.eq_of_not x fun hp => hx (Or.inl hp)

end GraphBenchmark.Blocks
