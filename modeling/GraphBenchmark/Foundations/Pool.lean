import GraphBenchmark.Foundations.Run
import Mathlib.Algebra.BigOperators.Group.List.Basic
import Mathlib.Tactic.Abel

/-! # Pools of tasks over a shared store

A parallel region is a list of tasks, each with a local state, over one shared store. A scheduler
picks a task by its position and lets it take its next atomic step. The tasks may stand at any
points of their programs, so the runs of a pool are all the interleavings of the tasks.

`work_eq_some` is the only fact about `work` the rest of the development uses: a step of the pool
is a step of one task, with the tasks before and after it untouched. -/
namespace GraphBenchmark.Interleaving
set_option autoImplicit false

variable {σ τ : Type*}

/-- Task number `i` takes its next atomic step; `none` when there is no such step. -/
def work (tstep : σ → τ → Option (σ × τ)) (s : σ) (ts : List τ) (i : ℕ) : Option (σ × List τ) :=
  match ts[i]? with
  | none => none
  | some t => (tstep s t).map fun p => (p.1, ts.set i p.2)

theorem exists_middle {ts : List τ} {i : ℕ} {t : τ} (ht : ts[i]? = some t) :
    ∃ pre post, ts = pre ++ t :: post ∧ ∀ t', ts.set i t' = pre ++ t' :: post := by
  obtain ⟨hi, rfl⟩ := List.getElem?_eq_some_iff.mp ht
  refine ⟨ts.take i, ts.drop (i + 1), ?_, fun t' => List.set_eq_take_append_cons_drop.trans (if_pos hi)⟩
  rw [List.cons_getElem_drop_succ, List.take_append_drop]

theorem work_eq_some_at {tstep : σ → τ → Option (σ × τ)} {s s' : σ} {ts ts' : List τ} {i : ℕ}
    (h : work tstep s ts i = some (s', ts')) :
    ∃ pre t post t', ts[i]? = some t ∧ ts = pre ++ t :: post ∧ tstep s t = some (s', t') ∧ ts' = pre ++ t' :: post := by
  unfold work at h
  split at h
  · cases h
  · rename_i t ht
    obtain ⟨pre, post, hts, hset⟩ := exists_middle ht
    obtain ⟨⟨s₁, t'⟩, hstep, heq⟩ := Option.map_eq_some_iff.mp h
    obtain ⟨rfl, rfl⟩ := Prod.mk.inj heq
    exact ⟨pre, t, post, t', ht, hts, hstep, hset t'⟩

theorem work_eq_some {tstep : σ → τ → Option (σ × τ)} {s s' : σ} {ts ts' : List τ} {i : ℕ}
    (h : work tstep s ts i = some (s', ts')) :
    ∃ pre t post t', ts = pre ++ t :: post ∧ tstep s t = some (s', t') ∧ ts' = pre ++ t' :: post := by
  obtain ⟨pre, t, post, t', -, hts, hstep, hset⟩ := work_eq_some_at h
  exact ⟨pre, t, post, t', hts, hstep, hset⟩

theorem work_of_mem {tstep : σ → τ → Option (σ × τ)} {s : σ} {ts : List τ} {t : τ} (ht : t ∈ ts)
    (hstep : tstep s t ≠ none) : ∃ i, work tstep s ts i ≠ none := by
  obtain ⟨i, hi, rfl⟩ := List.mem_iff_getElem.mp ht
  refine ⟨i, fun h => hstep ?_⟩
  rw [work, List.getElem?_eq_getElem hi] at h
  exact Option.map_eq_none_iff.mp h

theorem through_of_stuck {P : τ → Prop} {β : Type*} {tstep : σ → τ → Option (σ × τ)} {s : σ} {ts : List τ}
    {f : σ × List τ → β} (hstep : ∀ t, ¬ P t → tstep s t ≠ none)
    (hstuck : ∀ i, (work tstep s ts i).map f = none) : ∀ t ∈ ts, P t := by
  intro t ht
  by_contra hP
  obtain ⟨i, hi⟩ := work_of_mem ht (hstep t hP)
  exact hi (Option.map_eq_none_iff.mp (hstuck i))

/-! ## Rules -/

theorem exists_mem_middle {α : Type*} {pre post : List α} {x : α} {Q : α → Prop} :
    (∃ y ∈ pre ++ x :: post, Q y) ↔ Q x ∨ ∃ y ∈ pre ++ post, Q y := by
  simp only [List.mem_append, List.mem_cons]
  grind

theorem forall_mem_middle {α : Type*} {pre post : List α} {x : α} {Q : α → Prop} :
    (∀ y ∈ pre ++ x :: post, Q y) ↔ Q x ∧ ∀ y ∈ pre ++ post, Q y := by
  simp only [List.mem_append, List.mem_cons]
  grind

/-- A property of every task that a step keeps for the stepping task and, through the change of the
store, for the others is kept by the pool. -/
theorem work_forall {tstep : σ → τ → Option (σ × τ)} {P : σ → τ → Prop} {s s' : σ} {ts ts' : List τ} {i : ℕ}
    (h : work tstep s ts i = some (s', ts')) (hts : ∀ t ∈ ts, P s t)
    (own : ∀ t t', t ∈ ts → P s t → tstep s t = some (s', t') → P s' t')
    (other : ∀ t t' u, t ∈ ts → tstep s t = some (s', t') → P s u → P s' u) : ∀ t ∈ ts', P s' t := by
  obtain ⟨pre, t, post, t', rfl, hstep, rfl⟩ := work_eq_some h
  have ht : t ∈ pre ++ t :: post := by simp
  obtain ⟨hown, hothers⟩ := forall_mem_middle.mp hts
  exact forall_mem_middle.mpr ⟨own t t' ht hown hstep, fun u hu => other t t' u ht hstep (hothers u hu)⟩

/-- What the tasks still owe and what the store holds add up to the same total before and after. -/
theorem work_conserved {A : Type*} [AddCommMonoid A] {tstep : σ → τ → Option (σ × τ)} {g : σ → A} {f : τ → A}
    {s s' : σ} {ts ts' : List τ} {i : ℕ} (h : work tstep s ts i = some (s', ts'))
    (hstep : ∀ t t', t ∈ ts → tstep s t = some (s', t') → g s' + f t' = g s + f t) :
    g s' + (ts'.map f).sum = g s + (ts.map f).sum := by
  obtain ⟨pre, t, post, t', rfl, ht, rfl⟩ := work_eq_some h
  have key := hstep t t' (by simp) ht
  simp only [List.map_append, List.map_cons, List.sum_append, List.sum_cons]
  calc g s' + ((pre.map f).sum + (f t' + (post.map f).sum))
      = (g s' + f t') + ((pre.map f).sum + (post.map f).sum) := by abel
    _ = (g s + f t) + ((pre.map f).sum + (post.map f).sum) := by rw [key]
    _ = g s + ((pre.map f).sum + (f t + (post.map f).sum)) := by abel

theorem work_weight_lt {tstep : σ → τ → Option (σ × τ)} {w : τ → ℕ} {s s' : σ} {ts ts' : List τ} {i : ℕ}
    (h : work tstep s ts i = some (s', ts')) (hstep : ∀ t t', tstep s t = some (s', t') → w t' < w t) :
    (ts'.map w).sum < (ts.map w).sum := by
  obtain ⟨pre, t, post, t', rfl, ht, rfl⟩ := work_eq_some h
  have key := hstep t t' ht
  simp only [List.map_append, List.map_cons, List.sum_append, List.sum_cons]
  omega

/-- A step either lowers the weight `w` of the task, or it changes neither the store nor `w` and lowers `m`,
which may look at the store. Retry loops are of this kind. -/
theorem work_lex_lt {tstep : σ → τ → Option (σ × τ)} {w : τ → ℕ} {m : σ → τ → ℕ} {s s' : σ} {ts ts' : List τ} {i : ℕ}
    (h : work tstep s ts i = some (s', ts'))
    (hstep : ∀ t t', tstep s t = some (s', t') → w t' < w t ∨ s' = s ∧ w t' = w t ∧ m s t' < m s t) :
    Prod.Lex (· < ·) (· < ·) ((ts'.map w).sum, (ts'.map (m s')).sum) ((ts.map w).sum, (ts.map (m s)).sum) := by
  obtain ⟨pre, t, post, t', rfl, ht, rfl⟩ := work_eq_some h
  rcases hstep t t' ht with hw | ⟨rfl, hw, hm⟩
  · apply Prod.Lex.left
    simp only [List.map_append, List.map_cons, List.sum_append, List.sum_cons]
    omega
  · have heq : ((pre ++ t' :: post).map w).sum = ((pre ++ t :: post).map w).sum := by
      simp only [List.map_append, List.map_cons, List.sum_append, List.sum_cons, hw]
    rw [heq]
    apply Prod.Lex.right
    simp only [List.map_append, List.map_cons, List.sum_append, List.sum_cons]
    omega

end GraphBenchmark.Interleaving
