import Mathlib.Data.List.Pairwise
import Mathlib.Data.List.Perm.Basic
import Mathlib.Tactic.ByContra

/-! # Sorting functions

A sorting function in the style of `std::sort`: it is not stable, so where entries tie it may return any order, but
it is a function of what the comparator says about the entries. Two comparators that differ on the entries may be
answered by any two sorted orders (`exists_stdSort`), and two ties next to each other may be swapped
(`SortedBy.swap`). -/
namespace GraphBenchmark.Sorting
set_option autoImplicit false

variable {α : Type*} {lt lt' : α → α → Bool} {l l' : List α} {a b c v w : α}

/-! ## Comparators -/

/-- `Compare`: a strict weak order. -/
structure StrictWeak (lt : α → α → Bool) : Prop where
  asymm : ∀ a b, lt a b = true → lt b a = false
  negTrans : ∀ a b c, lt a b = false → lt b c = false → lt a c = false

theorem StrictWeak.irrefl (h : StrictWeak lt) (a : α) : lt a a = false := by
  cases haa : lt a a with
  | false => rfl
  | true => exact haa ▸ h.asymm a a haa

/-- No entry comes before an earlier one. -/
def SortedBy (lt : α → α → Bool) (l : List α) : Prop := l.Pairwise fun a b => lt b a = false

def AgreeOn (l : List α) (lt lt' : α → α → Bool) : Prop := ∀ a ∈ l, ∀ b ∈ l, lt a b = lt' a b

theorem AgreeOn.refl (l : List α) (lt : α → α → Bool) : AgreeOn l lt lt := fun _ _ _ _ => rfl

theorem AgreeOn.symm (h : AgreeOn l lt lt') : AgreeOn l lt' lt := fun a ha b hb => (h a ha b hb).symm

theorem AgreeOn.trans {lt'' : α → α → Bool} (h : AgreeOn l lt lt') (h' : AgreeOn l lt' lt'') : AgreeOn l lt lt'' :=
  fun a ha b hb => (h a ha b hb).trans (h' a ha b hb)

theorem AgreeOn.sortedBy_iff (h : AgreeOn l lt lt') {k : List α} (hk : k.Perm l) : SortedBy lt k ↔ SortedBy lt' k := by
  unfold SortedBy
  refine List.Pairwise.iff_of_mem fun {a b} ha hb => ?_
  rw [h b (hk.mem_iff.mp hb) a (hk.mem_iff.mp ha)]

theorem exists_sortedBy (h : StrictWeak lt) (l : List α) : ∃ k : List α, k.Perm l ∧ SortedBy lt k := by
  refine ⟨l.mergeSort fun a b => !lt b a, List.mergeSort_perm _ _, ?_⟩
  have hsorted : (l.mergeSort fun a b => !lt b a).Pairwise fun a b => (!lt b a) = true := by
    refine List.pairwise_mergeSort (fun a b c hab hbc => ?_) (fun a b => ?_) l
    · have htrans := h.negTrans c b a (by simpa using hbc) (by simpa using hab)
      simp [htrans]
    · cases hab : lt a b with
      | false => simp
      | true => simp [h.asymm a b hab]
  exact hsorted.imp fun hab => by simpa using hab

/-! ## Ties -/

theorem SortedBy.swap {pre post : List α} (h : SortedBy lt (pre ++ v :: w :: post)) (htie : lt v w = false) :
    SortedBy lt (pre ++ w :: v :: post) := by
  unfold SortedBy at h ⊢
  simp only [List.pairwise_append, List.pairwise_cons, List.mem_cons, forall_eq_or_imp] at h ⊢
  obtain ⟨hpre, ⟨⟨-, hv⟩, hw, hpost⟩, hmix⟩ := h
  exact ⟨hpre, ⟨⟨htie, hw⟩, hv, hpost⟩, fun a ha => ⟨(hmix a ha).2.1, (hmix a ha).1, (hmix a ha).2.2⟩⟩

theorem exists_last_split [DecidableEq α] (h : v ∈ l) : ∃ pre post, l = pre ++ v :: post ∧ v ∉ post := by
  obtain ⟨pre, post, hl, hpre⟩ := List.eq_append_cons_of_mem (List.mem_reverse.mpr h)
  refine ⟨post.reverse, pre.reverse, ?_, fun hv => hpre (List.mem_reverse.mp hv)⟩
  have hrev := congrArg List.reverse hl
  rw [List.reverse_reverse] at hrev
  simpa using hrev

/-- The order `lt`, with ties broken by `rank`. -/
def tieBreak (lt : α → α → Bool) (rank : α → ℕ) (a b : α) : Bool := lt a b || (!lt b a && decide (rank a < rank b))

theorem tieBreak_strictWeak (h : StrictWeak lt) (rank : α → ℕ) : StrictWeak (tieBreak lt rank) := by
  constructor
  · intro a b hab
    simp only [tieBreak, Bool.or_eq_true, Bool.and_eq_true, Bool.not_eq_true', decide_eq_true_eq, Bool.or_eq_false_iff,
      Bool.and_eq_false_iff, Bool.not_eq_false', decide_eq_false_iff_not] at hab ⊢
    rcases hab with hab | ⟨hba, hrank⟩
    · exact ⟨h.asymm a b hab, Or.inl hab⟩
    · exact ⟨hba, Or.inr (by omega)⟩
  · intro a b c hab hbc
    simp only [tieBreak, Bool.or_eq_false_iff, Bool.and_eq_false_iff, Bool.not_eq_false', decide_eq_false_iff_not]
      at hab hbc ⊢
    obtain ⟨hab, hab'⟩ := hab
    obtain ⟨hbc, hbc'⟩ := hbc
    refine ⟨h.negTrans a b c hab hbc, ?_⟩
    by_contra hnot
    obtain ⟨hca, hrank⟩ := not_or.mp hnot
    rw [Bool.not_eq_true] at hca
    -- then `a`, `b` and `c` tie
    have hba := h.negTrans b c a hbc hca
    have hcb := h.negTrans c a b hca hab
    rcases hab' with hab' | hab'
    · rw [hba] at hab'
      cases hab'
    · rcases hbc' with hbc' | hbc'
      · rw [hcb] at hbc'
        cases hbc'
      · omega

theorem tieBreak_sortedBy {rank : α → ℕ} (h : SortedBy (tieBreak lt rank) l) : SortedBy lt l :=
  h.imp fun hab => (Bool.or_eq_false_iff.mp hab).1

/-- Two entries that tie can stand next to each other in either order, with no `v` behind them. -/
theorem exists_tied_split [DecidableEq α] (h : StrictWeak lt) (hv : v ∈ l) (hw : w ∈ l) (hvw : v ≠ w)
    (htie : lt v w = false) (htie' : lt w v = false) :
    ∃ pre post, v ∉ post ∧ (pre ++ v :: w :: post).Perm l ∧ SortedBy lt (pre ++ v :: w :: post) := by
  let rank (a : α) : ℕ := if a = w then 2 else if a = v then 1 else 0
  obtain ⟨k, hk, hsorted⟩ := exists_sortedBy (tieBreak_strictWeak h rank) l
  obtain ⟨pre, post, rfl, hpost⟩ := exists_last_split (hk.mem_iff.mpr hv)
  have hsplit := hsorted
  unfold SortedBy at hsplit
  rw [List.pairwise_append, List.pairwise_cons] at hsplit
  obtain ⟨-, ⟨hafter, htail⟩, hmix⟩ := hsplit
  have hrank : tieBreak lt rank v w = true := by
    simp [tieBreak, htie', rank, hvw]
  have hwpost : w ∈ post := by
    rcases List.mem_append.mp (hk.mem_iff.mpr hw) with hwpre | hwrest
    · have hfalse := hmix w hwpre v List.mem_cons_self
      rw [hrank] at hfalse
      cases hfalse
    · exact (List.mem_cons.mp hwrest).resolve_left (Ne.symm hvw)
  cases post with
  | nil => cases hwpost
  | cons x rest =>
    by_cases hxw : x = w
    · subst hxw
      exact ⟨pre, rest, fun hmem => hpost (List.mem_cons_of_mem x hmem), hk, tieBreak_sortedBy hsorted⟩
    · -- what stands between `v` and `w` would tie with them and rank below `v`
      have hxv : x ≠ v := fun heq => hpost (heq ▸ List.mem_cons_self)
      have hwrest := (List.mem_cons.mp hwpost).resolve_left (Ne.symm hxw)
      have hvx := hafter x List.mem_cons_self
      have hxw' := (List.pairwise_cons.mp htail).1 w hwrest
      simp only [tieBreak, Bool.or_eq_false_iff] at hvx hxw'
      have hback := h.negTrans v w x htie hxw'.1
      have hless := hvx.2
      rw [hback] at hless
      simp [rank, hxw, hxv, hvw] at hless

/-! ## Sorting functions -/

structure StdSort (α : Type*) where
  apply : (α → α → Bool) → List α → List α
  perm : ∀ lt l, StrictWeak lt → (apply lt l).Perm l
  sorted : ∀ lt l, StrictWeak lt → SortedBy lt (apply lt l)
  congr : ∀ lt lt' l, AgreeOn l lt lt' → apply lt l = apply lt' l

open Classical in
/-- Some sorted order, chosen by what the comparator says about the entries. -/
noncomputable def anySorted (lt : α → α → Bool) (l : List α) : List α :=
  epsilon fun k => k.Perm l ∧ SortedBy lt k

theorem anySorted_spec (h : StrictWeak lt) (l : List α) : (anySorted lt l).Perm l ∧ SortedBy lt (anySorted lt l) :=
  Classical.epsilon_spec (exists_sortedBy h l)

theorem anySorted_congr (h : AgreeOn l lt lt') : anySorted lt l = anySorted lt' l := by
  unfold anySorted
  congr 1
  funext k
  exact propext (and_congr_right fun hk => h.sortedBy_iff hk)

/-- Where two comparators differ on the entries, the results for them are independent. -/
theorem exists_stdSort {lt₁ lt₂ : α → α → Bool} {k₁ k₂ : List α} (hne : ¬ AgreeOn l lt₁ lt₂) (hk₁ : k₁.Perm l)
    (hs₁ : SortedBy lt₁ k₁) (hk₂ : k₂.Perm l) (hs₂ : SortedBy lt₂ k₂) :
    ∃ stdSort : StdSort α, stdSort.apply lt₁ l = k₁ ∧ stdSort.apply lt₂ l = k₂ := by
  classical
  let pick (lt : α → α → Bool) (k : List α) : List α :=
    if k = l ∧ AgreeOn l lt lt₁ then k₁ else if k = l ∧ AgreeOn l lt lt₂ then k₂ else anySorted lt k
  have hpick : ∀ lt k, StrictWeak lt → (pick lt k).Perm k ∧ SortedBy lt (pick lt k) := by
    intro lt k h
    by_cases h₁ : k = l ∧ AgreeOn l lt lt₁
    · simp only [pick, if_pos h₁]
      exact ⟨h₁.1.symm ▸ hk₁, (h₁.2.sortedBy_iff hk₁).mpr hs₁⟩
    · by_cases h₂ : k = l ∧ AgreeOn l lt lt₂
      · simp only [pick, if_neg h₁, if_pos h₂]
        exact ⟨h₂.1.symm ▸ hk₂, (h₂.2.sortedBy_iff hk₂).mpr hs₂⟩
      · simp only [pick, if_neg h₁, if_neg h₂]
        exact anySorted_spec h k
  have hcongr : ∀ lt lt' k, AgreeOn k lt lt' → pick lt k = pick lt' k := by
    intro lt lt' k h
    have hiff : ∀ lt₀, k = l ∧ AgreeOn l lt lt₀ ↔ k = l ∧ AgreeOn l lt' lt₀ := fun lt₀ =>
      and_congr_right fun heq => ⟨fun hl => (heq ▸ h).symm.trans hl, fun hl => (heq ▸ h).trans hl⟩
    simp only [pick, hiff, anySorted_congr h]
  refine ⟨⟨pick, fun lt k h => (hpick lt k h).1, fun lt k h => (hpick lt k h).2, hcongr⟩, ?_, ?_⟩
  · exact if_pos ⟨rfl, AgreeOn.refl l lt₁⟩
  · have hother : ¬ (l = l ∧ AgreeOn l lt₂ lt₁) := fun h => hne h.2.symm
    exact (if_neg hother).trans (if_pos ⟨rfl, AgreeOn.refl l lt₂⟩)

end GraphBenchmark.Sorting
