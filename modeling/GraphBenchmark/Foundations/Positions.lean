import Mathlib.Data.List.Basic
import Mathlib.Data.List.Nodup
import Mathlib.Logic.Function.Basic

/-! # Numbering by position

Numbers handed out one after the other, from `c` on, to the entries of a list without repetitions. -/
namespace GraphBenchmark.Positions
set_option autoImplicit false

variable {α : Type*} [DecidableEq α] {c i : ℕ} {l : List α} {u v : α}

def numbered (c : ℕ) (l : List α) (v : α) : Option ℕ := if v ∈ l then some (c + l.idxOf v) else none

theorem numbered_of_mem (h : v ∈ l) : numbered c l v = some (c + l.idxOf v) := if_pos h

theorem numbered_eq_none_iff : numbered c l v = none ↔ v ∉ l := by
  unfold numbered
  split
  · rename_i h
    simp [h]
  · rename_i h
    simp [h]

theorem numbered_nil (c : ℕ) : numbered c ([] : List α) = fun _ => none := by
  funext v
  exact numbered_eq_none_iff.mpr List.not_mem_nil

theorem numbered_append_new (h : v ∉ l) :
    numbered c (l ++ [v]) = Function.update (numbered c l) v (some (c + l.length)) := by
  funext u
  by_cases huv : u = v
  · rw [huv, Function.update_self, numbered_of_mem (by simp), List.idxOf_append_of_notMem h]
    simp
  · rw [Function.update_of_ne huv]
    by_cases hu : u ∈ l
    · rw [numbered_of_mem hu, numbered_of_mem (List.mem_append_left _ hu), List.idxOf_append_of_mem hu]
    · rw [numbered_eq_none_iff.mpr hu]
      exact numbered_eq_none_iff.mpr (by simp [hu, huv])

theorem numbered_inj (hu : u ∈ l) (heq : numbered c l u = numbered c l v) : u = v := by
  by_cases hv : v ∈ l
  · rw [numbered_of_mem hu, numbered_of_mem hv] at heq
    exact (List.idxOf_inj hu).mp (Nat.add_left_cancel (Option.some.inj heq))
  · rw [numbered_of_mem hu, numbered_eq_none_iff.mpr hv] at heq
    cases heq

theorem numbered_lt (heq : numbered c l v = some i) : c ≤ i ∧ i < c + l.length := by
  by_cases hv : v ∈ l
  · rw [numbered_of_mem hv] at heq
    have hlt := List.idxOf_lt_length_of_mem hv
    have := Option.some.inj heq
    omega
  · rw [numbered_eq_none_iff.mpr hv] at heq
    cases heq

theorem exists_numbered (hl : l.Nodup) (hc : c ≤ i) (hi : i < c + l.length) : ∃ v ∈ l, numbered c l v = some i := by
  have hlt : i - c < l.length := by omega
  refine ⟨l[i - c], List.getElem_mem hlt, ?_⟩
  rw [numbered_of_mem (List.getElem_mem hlt), hl.idxOf_getElem]
  congr 1
  omega

/-- In an ordered list an entry that may not stand behind another stands before it. -/
theorem idxOf_lt_of_pairwise {R : α → α → Prop} (h : l.Pairwise R) (hu : u ∈ l) (hv : v ∈ l) (hne : u ≠ v)
    (hR : ¬ R v u) : l.idxOf u < l.idxOf v := by
  rcases Nat.lt_trichotomy (l.idxOf u) (l.idxOf v) with hlt | heq | hlt
  · exact hlt
  · exact absurd ((List.idxOf_inj hu).mp heq) hne
  · have hpair := List.pairwise_iff_getElem.mp h _ _ (List.idxOf_lt_length_of_mem hv) (List.idxOf_lt_length_of_mem hu) hlt
    rw [List.getElem_idxOf, List.getElem_idxOf] at hpair
    exact absurd hpair hR

end GraphBenchmark.Positions
