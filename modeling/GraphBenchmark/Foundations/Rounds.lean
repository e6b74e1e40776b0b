import GraphBenchmark.Foundations.Distance
import Mathlib.Data.Set.Card

/-! # Rounds of a search with two maps

The sets a round-based search works on: the visited vertices, the frontier it reads, and the next map it
writes, which need not be empty at the start. A round visits the fresh vertices, those that are not visited
and have an edge from the frontier; then the next map, with the fresh vertices in it, becomes the frontier.

Started on a level the rounds run through the levels after it (`rounds_level`). Started on anything, they
end with what the frontier and the next map lead to outside the visited set (`rounds_vis_iff`). -/
namespace GraphBenchmark.Levels
set_option autoImplicit false

variable {V : Type*}

structure Cfg (V : Type*) where
  vis : V → Prop
  front : V → Prop
  next : V → Prop

namespace Cfg

def fresh (R : V → V → Prop) (c : Cfg V) (v : V) : Prop := ¬ c.vis v ∧ ∃ u, c.front u ∧ R u v

def advance (R : V → V → Prop) (c : Cfg V) : Cfg V where
  vis v := c.vis v ∨ c.fresh R v
  front v := c.next v ∨ c.fresh R v
  next _ := False

/-- The sets after `k` rounds. -/
def rounds (R : V → V → Prop) (c : Cfg V) : ℕ → Cfg V
  | 0 => c
  | k + 1 => (rounds R c k).advance R

/-- The fresh vertices, seen from the initial sets: reached from the frontier or the next map without
entering the visited set. -/
def Led (R : V → V → Prop) (c : Cfg V) (v : V) : Prop :=
  (∃ w, c.fresh R w) ∧ ∃ u, (c.front u ∨ c.next u) ∧ Relation.TransGen (fun u v => R u v ∧ ¬ c.vis v) u v

variable {R : V → V → Prop} {c : Cfg V} {k : ℕ} {u v s : V}

theorem ext_iff' {c d : Cfg V} : c = d ↔ (∀ v, c.vis v ↔ d.vis v) ∧ (∀ v, c.front v ↔ d.front v) ∧ ∀ v, c.next v ↔ d.next v := by
  obtain ⟨a₁, a₂, a₃⟩ := c
  obtain ⟨b₁, b₂, b₃⟩ := d
  simp only [mk.injEq, funext_iff, eq_iff_iff]

/-- The sets of a level: everything visited up to it, the level in the frontier, the next map empty. -/
def level (E : V → V → Prop) (s : V) (k : ℕ) : Cfg V := ⟨Within E s k, DistIs E s k, fun _ => False⟩

theorem fresh_level : (level R s k).fresh R v ↔ DistIs R s (k + 1) v := distIs_succ_iff.symm

theorem advance_level : (level R s k).advance R = level R s (k + 1) := by
  refine ext_iff'.mpr ⟨fun v => ?_, fun v => ?_, fun v => Iff.rfl⟩
  · show Within R s k v ∨ (level R s k).fresh R v ↔ Within R s (k + 1) v
    rw [fresh_level, within_succ_iff']
  · show False ∨ (level R s k).fresh R v ↔ DistIs R s (k + 1) v
    rw [fresh_level, false_or]

theorem rounds_level (R : V → V → Prop) (s : V) (j k : ℕ) : (level R s j).rounds R k = level R s (j + k) := by
  induction k with
  | zero => rfl
  | succ k ih => rw [rounds, ih, advance_level, Nat.add_assoc]

theorem vis_rounds (hv : c.vis v) (k : ℕ) : (c.rounds R k).vis v := by
  induction k with
  | zero => exact hv
  | succ k ih => exact Or.inl ih

theorem rounds_sound (k : ℕ) :
    (∀ v, (c.rounds R k).vis v → c.vis v ∨
      ∃ u, (c.front u ∨ c.next u) ∧ Relation.TransGen (fun u v => R u v ∧ ¬ c.vis v) u v) ∧
    (∀ v, (c.rounds R k).front v → (c.front v ∨ c.next v) ∨
      ∃ u, (c.front u ∨ c.next u) ∧ Relation.TransGen (fun u v => R u v ∧ ¬ c.vis v) u v) ∧
    ∀ v, (c.rounds R k).next v → c.next v := by
  induction k with
  | zero => exact ⟨fun v => Or.inl, fun v hv => Or.inl (Or.inl hv), fun v => id⟩
  | succ k ih =>
    obtain ⟨hvis, hfront, hnext⟩ := ih
    have hfresh : ∀ v, (c.rounds R k).fresh R v →
        ∃ u, (c.front u ∨ c.next u) ∧ Relation.TransGen (fun u v => R u v ∧ ¬ c.vis v) u v := by
      intro v ⟨hnot, u, hu, he⟩
      have hedge : R u v ∧ ¬ c.vis v := ⟨he, fun hv => hnot (vis_rounds hv k)⟩
      rcases hfront u hu with hu | ⟨w, hw, hwu⟩
      · exact ⟨u, hu, Relation.TransGen.single hedge⟩
      · exact ⟨w, hw, hwu.tail hedge⟩
    refine ⟨fun v hv => ?_, fun v hv => ?_, fun v hv => hv.elim⟩
    · exact hv.elim (hvis v) fun hv => Or.inr (hfresh v hv)
    · exact hv.elim (fun hv => Or.inl (Or.inr (hnext v hv))) fun hv => Or.inr (hfresh v hv)

/-- After the first round, an edge out of the initial sets or of a found vertex leads to a visited vertex
or starts in the frontier. -/
theorem rounds_closed (k : ℕ) (hu : (c.front u ∨ c.next u) ∨ ((c.rounds R (k + 1)).vis u ∧ ¬ c.vis u)) (he : R u v) :
    (c.rounds R (k + 1)).vis v ∨ (c.rounds R (k + 1)).front u := by
  have hstep : ∀ d : Cfg V, d.front u → (d.advance R).vis v := by
    intro d hfront
    by_cases hv : d.vis v
    · exact Or.inl hv
    · exact Or.inr ⟨hv, u, hfront, he⟩
  induction k with
  | zero =>
    rcases hu with (hu | hu) | ⟨hu | hu, hnot⟩
    · exact Or.inl (hstep c hu)
    · exact Or.inr (Or.inl hu)
    · exact absurd hu hnot
    · exact Or.inr (Or.inr hu)
  | succ k ih =>
    rcases hu with hu | ⟨hu | hu, hnot⟩
    · exact (ih (Or.inl hu)).elim (fun hv => Or.inl (Or.inl hv)) fun hf => Or.inl (hstep _ hf)
    · exact (ih (Or.inr ⟨hu, hnot⟩)).elim (fun hv => Or.inl (Or.inl hv)) fun hf => Or.inl (hstep _ hf)
    · exact Or.inr (Or.inr hu)

/-- The visited set when the rounds come to an end. -/
theorem rounds_vis_iff (hlast : ∀ v, ¬ (c.rounds R k).fresh R v) (hpos : ∀ j < k, ∃ v, (c.rounds R j).fresh R v) :
    (c.rounds R k).vis v ↔ c.vis v ∨ c.Led R v := by
  cases k with
  | zero => exact ⟨Or.inl, fun hv => hv.elim id fun hv => absurd hv.1.choose_spec (hlast _)⟩
  | succ k =>
    constructor
    · intro hv
      exact ((rounds_sound (k + 1)).1 v hv).imp_right fun h => ⟨hpos 0 (Nat.succ_pos k), h⟩
    · rintro (hv | ⟨-, u, hu, huv⟩)
      · exact vis_rounds hv _
      · have hclosed : ∀ x y, ((c.front x ∨ c.next x) ∨ ((c.rounds R (k + 1)).vis x ∧ ¬ c.vis x)) → R x y →
            (c.rounds R (k + 1)).vis y := by
          intro x y hx he
          rcases rounds_closed k hx he with hy | hfront
          · exact hy
          · by_contra hy
            exact hlast y ⟨hy, x, hfront, he⟩
        have hnew : (c.rounds R (k + 1)).vis v ∧ ¬ c.vis v := by
          induction huv with
          | single he => exact ⟨hclosed _ _ (Or.inl hu) he.1, he.2⟩
          | tail _ he ih => exact ⟨hclosed _ _ (Or.inr ih) he.1, he.2⟩
        exact hnew.1

/-- Each round but the last visits something, so there are no more rounds than vertices. -/
theorem le_ncard_rounds [Finite V] (hpos : ∀ j < k, ∃ v, (c.rounds R j).fresh R v) :
    k ≤ {v | (c.rounds R k).vis v}.ncard := by
  induction k with
  | zero => exact Nat.zero_le _
  | succ k ih =>
    have hk := ih fun j hj => hpos j (by omega)
    obtain ⟨v, hv⟩ := hpos k (Nat.lt_succ_self k)
    have hssub : {v | (c.rounds R k).vis v} ⊂ {v | (c.rounds R (k + 1)).vis v} :=
      ⟨fun w hw => Or.inl hw, fun hsub => hv.1 (hsub (Or.inr hv : (c.rounds R (k + 1)).vis v))⟩
    have hlt := Set.ncard_lt_ncard hssub
    omega

end Cfg

end GraphBenchmark.Levels
