import Mathlib.Data.Set.Card
import Mathlib.Order.Interval.Set.Nat

/-! # Weights in descending order

A sequence lists items by weight when it falls, comes to zero, and has the weight of each item at the item's place and
nothing elsewhere. How ties are broken does not show: a sequence that lists the items is determined by their weights. -/
namespace GraphBenchmark.Ranking
set_option autoImplicit false

variable {α β : Type*} {w : α → ℕ} {f g : ℕ → ℕ} {d : ℕ}

/-- Items of weight `0` need no place. -/
structure Lists (w : α → ℕ) (f : ℕ → ℕ) (place : α → ℕ) : Prop where
  antitone : Antitone f
  bounded : ∃ N, ∀ i, N ≤ i → f i = 0
  injOn : Set.InjOn place {v | 0 < w v}
  weight : ∀ v, 0 < w v → f (place v) = w v
  placed : ∀ i, 0 < f i → ∃ v, 0 < w v ∧ place v = i

/-- The entries that reach `d` are the first ones. -/
theorem setOf_le_eq (hf : Antitone f) (hbounded : ∃ N, ∀ i, N ≤ i → f i = 0) (hd : 0 < d) :
    {i | d ≤ f i} = Set.Iio {i | d ≤ f i}.ncard := by
  obtain ⟨N, hN⟩ := hbounded
  have hfin : {i | d ≤ f i}.Finite := by
    refine (Set.finite_Iio N).subset fun i hi => ?_
    by_contra hge
    have hzero := hN i (not_lt.mp hge)
    have hle : d ≤ f i := hi
    omega
  have hmem : ∀ i, d ≤ f i ↔ i < {i | d ≤ f i}.ncard := by
    intro i
    constructor
    · intro hi
      have hsub : Set.Iio (i + 1) ⊆ {i | d ≤ f i} := fun j hj => hi.trans (hf (Nat.lt_succ_iff.mp hj))
      have hcard := Set.ncard_le_ncard hsub hfin
      rw [Set.ncard_Iio_nat] at hcard
      exact hcard
    · intro hi
      by_contra hlt
      have hsub : {i | d ≤ f i} ⊆ Set.Iio i := by
        intro j hj
        by_contra hge
        exact hlt (le_trans hj (hf (not_lt.mp hge)))
      have hcard := Set.ncard_le_ncard hsub (Set.finite_Iio i)
      rw [Set.ncard_Iio_nat] at hcard
      omega
  ext i
  exact hmem i

/-- As many entries as items reach `d`. -/
theorem Lists.ncard_eq {place : α → ℕ} (h : Lists w f place) (hd : 0 < d) : {i | d ≤ f i}.ncard = {v | d ≤ w v}.ncard := by
  have himage : {i | d ≤ f i} = place '' {v | d ≤ w v} := by
    ext i
    constructor
    · intro hi
      have hle : d ≤ f i := hi
      obtain ⟨v, hv, rfl⟩ := h.placed i (hd.trans_le hle)
      exact ⟨v, hle.trans_eq (h.weight v hv), rfl⟩
    · rintro ⟨v, hv, rfl⟩
      have hle : d ≤ w v := hv
      exact hle.trans_eq (h.weight v (hd.trans_le hle)).symm
  rw [himage]
  exact (h.injOn.mono fun v (hv : d ≤ w v) => hd.trans_le hv).ncard_image

theorem Lists.unique {place place' : α → ℕ} (h : Lists w f place) (h' : Lists w g place') : f = g := by
  have hle : ∀ {f g : ℕ → ℕ} {place place' : α → ℕ}, Lists w f place → Lists w g place' → ∀ i, f i ≤ g i := by
    intro f g place place' h h' i
    rcases Nat.eq_zero_or_pos (f i) with hzero | hpos
    · rw [hzero]
      exact Nat.zero_le _
    · have hsame : {j | f i ≤ f j} = {j | f i ≤ g j} := by
        rw [setOf_le_eq h.antitone h.bounded hpos, setOf_le_eq h'.antitone h'.bounded hpos, h.ncard_eq hpos,
          h'.ncard_eq hpos]
      have hi : f i ≤ f i ↔ f i ≤ g i := Set.ext_iff.mp hsame i
      exact hi.mp le_rfl
  funext i
  exact le_antisymm (hle h h' i) (hle h' h i)

/-- The items under other names. -/
theorem Lists.comp {w' : β → ℕ} {place : β → ℕ} (h : Lists w' f place) {π : α → β} (hπ : Set.InjOn π {v | 0 < w v})
    (hw : ∀ v, 0 < w v → w' (π v) = w v) (honto : ∀ u, 0 < w' u → ∃ v, 0 < w v ∧ π v = u) :
    Lists w f (place ∘ π) := by
  refine ⟨h.antitone, h.bounded, fun u hu v hv heq => ?_, fun v hv => ?_, fun i hi => ?_⟩
  · have hpos : ∀ x, 0 < w x → 0 < w' (π x) := fun x hx => (hw x hx).symm ▸ hx
    exact hπ hu hv (h.injOn (hpos u hu) (hpos v hv) heq)
  · have hpos : 0 < w' (π v) := (hw v hv).symm ▸ hv
    exact (h.weight _ hpos).trans (hw v hv)
  · obtain ⟨u, hu, rfl⟩ := h.placed i hi
    obtain ⟨v, hv, rfl⟩ := honto u hu
    exact ⟨v, hv, rfl⟩

end GraphBenchmark.Ranking
