import Mathlib.Logic.Relation
import Mathlib.Data.Finset.Card
import Mathlib.Data.Nat.Find
import Mathlib.Order.Bounds.Basic

/-! # Directed distance from a source

`Walk E s k v` is a walk of exactly `k` edges from `s` to `v`; `DistIs E s k v` says that `k` is the
length of a shortest one; `Within E s k v` that the distance is at most `k`. A breadth-first search is
a way to compute the sets `DistIs E s 0, DistIs E s 1, …` one from the other: `distIs_succ_iff` and
`within_succ_iff` are the two recurrences, `reach_iff_within` the reason it may stop at the first
empty level. -/
namespace GraphBenchmark.Levels
set_option autoImplicit false

variable {V : Type*} {E E' : V → V → Prop} {s u v : V} {j k : ℕ}

inductive Walk (E : V → V → Prop) (s : V) : ℕ → V → Prop
  | nil : Walk E s 0 s
  | snoc {k : ℕ} {u v : V} : Walk E s k u → E u v → Walk E s (k + 1) v

/-- The directed distance from `s` to `v` is `k`. -/
def DistIs (E : V → V → Prop) (s : V) (k : ℕ) (v : V) : Prop := Walk E s k v ∧ ∀ j < k, ¬ Walk E s j v

/-- The directed distance from `s` to `v` is at most `k`. -/
def Within (E : V → V → Prop) (s : V) (k : ℕ) (v : V) : Prop := ∃ j ≤ k, Walk E s j v

/-- The eccentricity of `s`: the largest distance of a vertex reachable from it. -/
def IsEcc (E : V → V → Prop) (s : V) (e : ℕ) : Prop := IsGreatest {k | ∃ v, DistIs E s k v} e

/-! ## Walks -/

theorem walk_zero_iff : Walk E s 0 v ↔ v = s := by
  constructor
  · rintro ⟨⟩
    rfl
  · rintro rfl
    exact Walk.nil

theorem walk_succ_iff : Walk E s (k + 1) v ↔ ∃ u, Walk E s k u ∧ E u v := by
  constructor
  · intro h
    cases h with
    | snoc hu he => exact ⟨_, hu, he⟩
  · rintro ⟨u, hu, he⟩
    exact hu.snoc he

theorem reach_iff_walk : Relation.ReflTransGen E s v ↔ ∃ k, Walk E s k v := by
  constructor
  · intro h
    induction h with
    | refl => exact ⟨0, Walk.nil⟩
    | tail _ he ih =>
      obtain ⟨k, hk⟩ := ih
      exact ⟨k + 1, hk.snoc he⟩
  · rintro ⟨k, hk⟩
    induction hk with
    | nil => exact Relation.ReflTransGen.refl
    | snoc _ he ih => exact ih.tail he

theorem walk_congr (h : ∀ u v, Relation.ReflTransGen E s u → (E u v ↔ E' u v)) : Walk E s k v ↔ Walk E' s k v := by
  induction k generalizing v with
  | zero => rw [walk_zero_iff, walk_zero_iff]
  | succ k ih =>
    rw [walk_succ_iff, walk_succ_iff]
    constructor
    · rintro ⟨u, hu, he⟩
      exact ⟨u, ih.mp hu, (h u v (reach_iff_walk.mpr ⟨k, hu⟩)).mp he⟩
    · rintro ⟨u, hu, he⟩
      exact ⟨u, ih.mpr hu, (h u v (reach_iff_walk.mpr ⟨k, ih.mpr hu⟩)).mpr he⟩

/-! ## Distances -/

theorem DistIs.unique (hj : DistIs E s j v) (hk : DistIs E s k v) : j = k := by
  rcases Nat.lt_trichotomy j k with h | h | h
  · exact absurd hj.1 (hk.2 j h)
  · exact h
  · exact absurd hk.1 (hj.2 k h)

theorem exists_distIs_of_walk (h : Walk E s k v) : ∃ j ≤ k, DistIs E s j v := by
  classical
  have hex : ∃ j, Walk E s j v := ⟨k, h⟩
  exact ⟨Nat.find hex, Nat.find_min' hex h, Nat.find_spec hex, fun j hj => Nat.find_min hex hj⟩

theorem within_iff : Within E s k v ↔ ∃ j ≤ k, DistIs E s j v := by
  constructor
  · rintro ⟨i, hi, hw⟩
    obtain ⟨j, hj, hd⟩ := exists_distIs_of_walk hw
    exact ⟨j, hj.trans hi, hd⟩
  · rintro ⟨j, hj, hd⟩
    exact ⟨j, hj, hd.1⟩

theorem reach_iff_distIs : Relation.ReflTransGen E s v ↔ ∃ k, DistIs E s k v := by
  rw [reach_iff_walk]
  constructor
  · rintro ⟨k, hk⟩
    obtain ⟨j, -, hj⟩ := exists_distIs_of_walk hk
    exact ⟨j, hj⟩
  · rintro ⟨k, hk⟩
    exact ⟨k, hk.1⟩

theorem DistIs.reach (h : DistIs E s k v) : Relation.ReflTransGen E s v := reach_iff_distIs.mpr ⟨k, h⟩

theorem Within.reach (h : Within E s k v) : Relation.ReflTransGen E s v := by
  obtain ⟨j, -, hj⟩ := h
  exact reach_iff_walk.mpr ⟨j, hj⟩

theorem Within.mono (h : Within E s j v) (hjk : j ≤ k) : Within E s k v := by
  obtain ⟨i, hi, hw⟩ := h
  exact ⟨i, hi.trans hjk, hw⟩

theorem distIs_zero_iff : DistIs E s 0 v ↔ v = s := by
  simp only [DistIs, walk_zero_iff, Nat.not_lt_zero, IsEmpty.forall_iff, implies_true, and_true]

theorem within_zero_iff : Within E s 0 v ↔ v = s := by
  simp only [Within, Nat.le_zero, exists_eq_left, walk_zero_iff]

theorem distIs_succ_iff : DistIs E s (k + 1) v ↔ ¬ Within E s k v ∧ ∃ u, DistIs E s k u ∧ E u v := by
  constructor
  · rintro ⟨hw, hmin⟩
    obtain ⟨u, hu, he⟩ := walk_succ_iff.mp hw
    refine ⟨fun ⟨j, hj, hwj⟩ => hmin j (by omega) hwj, u, ⟨hu, fun j hj hwj => ?_⟩, he⟩
    exact hmin (j + 1) (by omega) (hwj.snoc he)
  · rintro ⟨hn, u, hu, he⟩
    exact ⟨hu.1.snoc he, fun j hj hwj => hn ⟨j, by omega, hwj⟩⟩

theorem within_succ_iff' : Within E s (k + 1) v ↔ Within E s k v ∨ DistIs E s (k + 1) v := by
  simp only [within_iff]
  constructor
  · rintro ⟨j, hj, hd⟩
    rcases Nat.lt_or_ge k j with h | h
    · obtain rfl : j = k + 1 := by omega
      exact Or.inr hd
    · exact Or.inl ⟨j, h, hd⟩
  · rintro (⟨j, hj, hd⟩ | hd)
    · exact ⟨j, by omega, hd⟩
    · exact ⟨k + 1, le_rfl, hd⟩

theorem within_succ_iff : Within E s (k + 1) v ↔ Within E s k v ∨ ∃ u, DistIs E s k u ∧ E u v := by
  rw [within_succ_iff', distIs_succ_iff]
  by_cases h : Within E s k v <;> simp [h]

theorem DistIs.within (h : DistIs E s k v) : Within E s k v := ⟨k, le_rfl, h.1⟩

/-! ## The last level -/

theorem DistIs.exists_of_le (h : DistIs E s k v) (hjk : j ≤ k) : ∃ u, DistIs E s j u := by
  induction k generalizing v with
  | zero =>
    obtain rfl : j = 0 := by omega
    exact ⟨v, h⟩
  | succ k ih =>
    rcases Nat.lt_or_ge k j with hj | hj
    · obtain rfl : j = k + 1 := by omega
      exact ⟨v, h⟩
    · obtain ⟨-, u, hu, -⟩ := distIs_succ_iff.mp h
      exact ih hu hj

/-- Everything reachable lies below the first empty level. -/
theorem reach_iff_within (h : ∀ v, ¬ DistIs E s (k + 1) v) : Relation.ReflTransGen E s v ↔ Within E s k v := by
  constructor
  · intro hr
    obtain ⟨j, hj⟩ := reach_iff_distIs.mp hr
    rw [within_iff]
    refine ⟨j, ?_, hj⟩
    by_contra hlt
    obtain ⟨u, hu⟩ := hj.exists_of_le (j := k + 1) (by omega)
    exact h u hu
  · exact Within.reach

theorem isEcc_of_empty (hk : DistIs E s k u) (h : ∀ v, ¬ DistIs E s (k + 1) v) : IsEcc E s k := by
  refine ⟨⟨u, hk⟩, fun j ⟨w, hw⟩ => ?_⟩
  by_contra hlt
  obtain ⟨x, hx⟩ := hw.exists_of_le (j := k + 1) (by omega)
  exact h x hx

theorem DistIs.lt_card {S : Finset V} (hS : ∀ w, Relation.ReflTransGen E s w → w ∈ S) (h : DistIs E s k v) :
    k < S.card := by
  choose f hf using fun (j : ℕ) (hj : j ≤ k) => h.exists_of_le hj
  have hcard : (Finset.range (k + 1)).card ≤ S.card := by
    refine Finset.card_le_card_of_injOn (fun j => if hj : j ≤ k then f j hj else v) ?_ ?_
    · intro j hj
      have hj' : j ≤ k := by simpa [Nat.lt_succ_iff] using hj
      simpa [hj'] using hS _ (hf j hj').reach
    · intro i hi j hj hij
      have hi' : i ≤ k := by simpa [Nat.lt_succ_iff] using hi
      have hj' : j ≤ k := by simpa [Nat.lt_succ_iff] using hj
      simp only [hi', hj', dif_pos] at hij
      exact (hf i hi').unique (hij ▸ hf j hj')
  rwa [Finset.card_range] at hcard

/-! ## Leaving edges out -/

theorem distIs_congr (h : ∀ u v, Relation.ReflTransGen E s u → (E u v ↔ E' u v)) :
    DistIs E s k v ↔ DistIs E' s k v := by
  simp only [DistIs, walk_congr h]

theorem within_congr (h : ∀ k v, DistIs E s k v ↔ DistIs E' s k v) : Within E s k v ↔ Within E' s k v := by
  simp only [within_iff, h]

theorem reach_congr (h : ∀ k v, DistIs E s k v ↔ DistIs E' s k v) :
    Relation.ReflTransGen E s v ↔ Relation.ReflTransGen E' s v := by
  simp only [reach_iff_distIs, h]

/-- Some of the edges are enough for all distances when each vertex of a level can still be found from
the level before. -/
theorem distIs_iff_of_sub (hsub : ∀ u v, E' u v → E u v)
    (hfind : ∀ k u v, DistIs E s k u → E u v → DistIs E s (k + 1) v → ∃ w, DistIs E s k w ∧ E' w v) :
    ∀ k v, DistIs E s k v ↔ DistIs E' s k v := by
  have hlevels : ∀ k, (∀ v, DistIs E s k v ↔ DistIs E' s k v) ∧ ∀ v, Within E s k v ↔ Within E' s k v := by
    intro k
    induction k with
    | zero => exact ⟨fun v => by rw [distIs_zero_iff, distIs_zero_iff], fun v => by rw [within_zero_iff, within_zero_iff]⟩
    | succ k ih =>
      have hdist : ∀ v, DistIs E s (k + 1) v ↔ DistIs E' s (k + 1) v := by
        intro v
        rw [distIs_succ_iff (E := E'), ← ih.2]
        constructor
        · intro hv
          obtain ⟨hnot, u, hu, he⟩ := distIs_succ_iff.mp hv
          obtain ⟨w, hw, hwv⟩ := hfind k u v hu he hv
          exact ⟨hnot, w, (ih.1 w).mp hw, hwv⟩
        · intro ⟨hnot, u, hu, he⟩
          exact distIs_succ_iff.mpr ⟨hnot, u, (ih.1 u).mpr hu, hsub u v he⟩
      exact ⟨hdist, fun v => by rw [within_succ_iff', within_succ_iff', ih.2, hdist]⟩
  exact fun k => (hlevels k).1

/-- The edges that do not start at `x`. -/
def CutOut (E : V → V → Prop) (x u v : V) : Prop := E u v ∧ u ≠ x

/-- The edges that do not end at `x`. -/
def CutIn (E : V → V → Prop) (x u v : V) : Prop := E u v ∧ v ≠ x

variable {x : V}

/-- Every vertex found from `x` is found from another vertex of the level of `x` as well. -/
def Bypassed (E : V → V → Prop) (s x : V) : Prop :=
  ∀ k v, DistIs E s k x → E x v → DistIs E s (k + 1) v → ∃ u, DistIs E s k u ∧ E u v ∧ u ≠ x

/-- The edges out of `x` can be left out without changing a distance exactly when `x` is bypassed. -/
theorem distIs_cutOut_iff : (∀ k v, DistIs E s k v ↔ DistIs (CutOut E x) s k v) ↔ Bypassed E s x := by
  constructor
  · intro h k v _ _ hv
    obtain ⟨-, u, hu, he⟩ := distIs_succ_iff.mp ((h (k + 1) v).mp hv)
    exact ⟨u, (h k u).mpr hu, he⟩
  · intro h
    refine distIs_iff_of_sub (fun u v he => he.1) fun k u v hu he hv => ?_
    by_cases hux : u = x
    · subst hux
      exact h k v hu he hv
    · exact ⟨u, hu, he, hux⟩

theorem reach_cutIn_self (h : Relation.ReflTransGen (CutIn E x) s x) : s = x := by
  rcases Relation.ReflTransGen.cases_tail h with h | ⟨u, -, he⟩
  · exact h.symm
  · exact absurd rfl he.2

theorem reach_cutOut_self (h : Relation.ReflTransGen (CutOut E s) s v) : v = s := by
  rcases Relation.ReflTransGen.cases_head h with h | ⟨u, he, -⟩
  · exact h.symm
  · exact absurd rfl he.2

/-- A path to `x` need not leave `x` on the way. -/
theorem reach_cutOut_target (h : Relation.ReflTransGen E s x) : Relation.ReflTransGen (CutOut E x) s x := by
  induction h using Relation.ReflTransGen.head_induction_on with
  | refl => exact Relation.ReflTransGen.refl
  | @head u w he _ ih =>
    by_cases hux : u = x
    · rw [hux]
    · exact ih.head ⟨he, hux⟩

theorem distIs_cutIn_of_not_reach (h : ¬ Relation.ReflTransGen E s x) (k : ℕ) (v : V) :
    DistIs E s k v ↔ DistIs (CutIn E x) s k v :=
  distIs_congr fun _ _ hu => ⟨fun he => ⟨he, fun hv => h (hv ▸ hu.tail he)⟩, fun he => he.1⟩

theorem distIs_cutOut_of_not_reach (h : ¬ Relation.ReflTransGen E s x) (k : ℕ) (v : V) :
    DistIs E s k v ↔ DistIs (CutOut E x) s k v :=
  distIs_congr fun _ _ hu => ⟨fun he => ⟨he, fun hux => h (hux ▸ hu)⟩, fun he => he.1⟩

theorem distIs_cutIn_source (k : ℕ) (v : V) : DistIs E s k v ↔ DistIs (CutIn E s) s k v := by
  refine distIs_iff_of_sub (fun u v he => he.1) (fun k u v hu he hv => ⟨u, hu, he, ?_⟩) k v
  rintro rfl
  have := hv.unique (distIs_zero_iff.mpr rfl)
  omega

theorem bypassed_of_idle (h : ∀ w, E x w → w = x) : Bypassed E s x := by
  intro k v hx he hv
  obtain rfl := h v he
  have := hx.unique hv
  omega

/-- Leaving out the edges of one vertex or those of another makes no difference to any distance exactly when
they are the same vertex or neither has an edge to another one. -/
theorem distIs_cutOut_eq_iff {y : V} : (∀ s k v, DistIs (CutOut E x) s k v ↔ DistIs (CutOut E y) s k v) ↔
    x = y ∨ (∀ w, E x w → w = x) ∧ ∀ w, E y w → w = y := by
  have hself : ∀ x y : V, x ≠ y → (∀ k v, DistIs (CutOut E x) x k v ↔ DistIs (CutOut E y) x k v) →
      ∀ w, E x w → w = x := by
    intro x y hxy h w he
    exact reach_cutOut_self ((reach_congr h).mpr (Relation.ReflTransGen.single ⟨he, hxy⟩))
  constructor
  · intro h
    by_cases hxy : x = y
    · exact Or.inl hxy
    · exact Or.inr ⟨hself x y hxy (h x), hself y x (Ne.symm hxy) fun k v => (h y k v).symm⟩
  · rintro (rfl | ⟨hx, hy⟩) s k v
    · exact Iff.rfl
    · exact (distIs_cutOut_iff.mpr (bypassed_of_idle hx) k v).symm.trans (distIs_cutOut_iff.mpr (bypassed_of_idle hy) k v)

/-! ## Isomorphic images -/

/-- Distances are carried over by a map that is injective on what is reached and whose image is closed under the
edges. -/
theorem distIs_map_iff {W : Type*} {F : W → W → Prop} {π : V → W}
    (hinj : ∀ u v, Relation.ReflTransGen E s u → Relation.ReflTransGen E s v → π u = π v → u = v)
    (hmap : ∀ u w, Relation.ReflTransGen E s u → (F (π u) w ↔ ∃ v, w = π v ∧ E u v)) {w : W} :
    DistIs F (π s) k w ↔ ∃ v, w = π v ∧ DistIs E s k v := by
  have hwalk : ∀ k w, Walk F (π s) k w ↔ ∃ v, w = π v ∧ Walk E s k v := by
    intro k
    induction k with
    | zero => intro w; simp only [walk_zero_iff, exists_eq_right]
    | succ k ih =>
      intro w
      simp only [walk_succ_iff, ih]
      constructor
      · rintro ⟨_, ⟨u, rfl, hu⟩, he⟩
        obtain ⟨v, rfl, huv⟩ := (hmap u w (reach_iff_walk.mpr ⟨k, hu⟩)).mp he
        exact ⟨v, rfl, u, hu, huv⟩
      · rintro ⟨v, rfl, u, hu, huv⟩
        exact ⟨π u, ⟨u, rfl, hu⟩, (hmap u (π v) (reach_iff_walk.mpr ⟨k, hu⟩)).mpr ⟨v, rfl, huv⟩⟩
  simp only [DistIs, hwalk]
  constructor
  · rintro ⟨⟨v, rfl, hv⟩, hmin⟩
    exact ⟨v, rfl, hv, fun j hj hw => hmin j hj ⟨v, rfl, hw⟩⟩
  · rintro ⟨v, rfl, hv, hmin⟩
    refine ⟨⟨v, rfl, hv⟩, fun j hj ⟨v', hv', hw⟩ => hmin j hj ?_⟩
    rwa [hinj v v' (reach_iff_walk.mpr ⟨k, hv⟩) (reach_iff_walk.mpr ⟨j, hw⟩) hv']

end GraphBenchmark.Levels
