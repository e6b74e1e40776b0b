import GraphBenchmark.Foundations.Pool
import Mathlib.Data.List.Flatten
import Mathlib.Data.List.Nodup
import Mathlib.Logic.Function.Basic

/-! # Loops that work on the cell of their own index

The body of such a loop is a list of statements, each an atomic update of the cell of the current index. No
index belongs to two tasks, so however the tasks interleave every cell goes through all statements in
order (`Inv.finish`). -/
namespace GraphBenchmark.Sweep
open Interleaving
set_option autoImplicit false

variable {β : Type*}

/-- The indices a task has still to treat, and the number of statements done for the first of them. -/
structure Task where
  indices : List ℕ
  stage : ℕ
deriving DecidableEq

/-- The next statement of the task, or the step to its next index. -/
def body (stmts : List (ℕ → β → β)) (cells : ℕ → β) (t : Task) : Option ((ℕ → β) × Task) :=
  match t.indices with
  | [] => none
  | i :: rest =>
    match stmts[t.stage]? with
    | some f => some (Function.update cells i (f i (cells i)), { t with stage := t.stage + 1 })
    | none => some (cells, ⟨rest, 0⟩)

def runStmts (stmts : List (ℕ → β → β)) (i : ℕ) (c : β) : β := stmts.foldl (fun c f => f i c) c

/-- The cell of index `i` as the task has left it so far. -/
def Task.cell (stmts : List (ℕ → β → β)) (cells₀ : ℕ → β) (t : Task) (i : ℕ) : β :=
  if t.indices.head? = some i then runStmts (stmts.take t.stage) i (cells₀ i) else cells₀ i

/-- During a loop over the indices below `n`. -/
structure Inv (stmts : List (ℕ → β → β)) (n : ℕ) (cells₀ cells : ℕ → β) (ts : List Task) : Prop where
  nodup : (ts.flatMap Task.indices).Nodup
  lt : ∀ t ∈ ts, ∀ i ∈ t.indices, i < n
  todo : ∀ t ∈ ts, ∀ i ∈ t.indices, cells i = t.cell stmts cells₀ i
  treated : ∀ i, (∀ t ∈ ts, i ∉ t.indices) → cells i = if i < n then runStmts stmts i (cells₀ i) else cells₀ i

section Sweep
variable {stmts : List (ℕ → β → β)} {n : ℕ} {cells₀ cells cells' : ℕ → β} {ts ts' : List Task} {t t' : Task} {k : ℕ}

theorem runStmts_take_succ {f : ℕ → β → β} (h : stmts[k]? = some f) (i : ℕ) (c : β) :
    runStmts (stmts.take (k + 1)) i c = f i (runStmts (stmts.take k) i c) := by
  rw [List.take_add_one, h, runStmts, List.foldl_append]
  rfl

theorem cell_head (i : ℕ) (rest : List ℕ) :
    (⟨i :: rest, k⟩ : Task).cell stmts cells₀ i = runStmts (stmts.take k) i (cells₀ i) := if_pos rfl

theorem cell_tail {i j : ℕ} (h : j ≠ i) (rest : List ℕ) : (⟨i :: rest, k⟩ : Task).cell stmts cells₀ j = cells₀ j :=
  if_neg fun heq => h (Option.some.inj heq).symm

theorem cell_zero (is : List ℕ) (j : ℕ) : (⟨is, 0⟩ : Task).cell stmts cells₀ j = cells₀ j := ite_self _

theorem body_isSome (h : t.indices ≠ []) : body stmts cells t ≠ none := by
  obtain ⟨is, stage⟩ := t
  cases is with
  | nil => exact absurd rfl h
  | cons i is =>
    simp only [body]
    split <;> exact Option.some_ne_none _

/-- A step leaves the cells of all other indices, and the task takes no new ones. -/
theorem body_frame (h : body stmts cells t = some (cells', t')) :
    (∀ i ∈ t'.indices, i ∈ t.indices) ∧ ∀ j ∉ t.indices, cells' j = cells j := by
  obtain ⟨is, stage⟩ := t
  cases is with
  | nil => cases h
  | cons i is =>
    simp only [body] at h
    split at h
    · obtain ⟨rfl, rfl⟩ := Prod.mk.inj (Option.some.inj h)
      refine ⟨fun _ hj => hj, fun j hj => Function.update_of_ne ?_ _ _⟩
      rintro rfl
      exact hj List.mem_cons_self
    · obtain ⟨rfl, rfl⟩ := Prod.mk.inj (Option.some.inj h)
      exact ⟨fun j hj => List.mem_cons_of_mem i hj, fun _ _ => rfl⟩

def Task.weight (stmts : List (ℕ → β → β)) (t : Task) : ℕ :=
  t.indices.length * (stmts.length + 1) - min t.stage stmts.length

theorem body_weight_lt (h : body stmts cells t = some (cells', t')) : t'.weight stmts < t.weight stmts := by
  obtain ⟨is, stage⟩ := t
  cases is with
  | nil => cases h
  | cons i is =>
    simp only [body] at h
    split at h
    · rename_i f hf
      obtain ⟨hlt, -⟩ := List.getElem?_eq_some_iff.mp hf
      obtain ⟨-, rfl⟩ := Prod.mk.inj (Option.some.inj h)
      simp only [Task.weight, List.length_cons, Nat.add_mul, Nat.one_mul]
      omega
    · rename_i hf
      have hle := List.getElem?_eq_none_iff.mp hf
      obtain ⟨-, rfl⟩ := Prod.mk.inj (Option.some.inj h)
      simp only [Task.weight, List.length_cons, Nat.add_mul, Nat.one_mul]
      omega

theorem Inv.start (hnodup : (ts.flatMap Task.indices).Nodup) (hmem : ∀ i, (∃ t ∈ ts, i ∈ t.indices) ↔ i < n)
    (hstage : ∀ t ∈ ts, t.stage = 0) : Inv stmts n cells cells ts := by
  refine ⟨hnodup, fun t ht i hi => (hmem i).mp ⟨t, ht, hi⟩, fun t ht i hi => ?_, fun i hi => ?_⟩
  · obtain ⟨is, stage⟩ := t
    obtain rfl : stage = 0 := hstage _ ht
    exact (cell_zero is i).symm
  · rw [if_neg fun hlt => ?_]
    obtain ⟨t, ht, hit⟩ := (hmem i).mpr hlt
    exact hi t ht hit

/-- Only the index in hand of the stepping task changes its cell, and no other task holds that index. -/
theorem Inv.step (h : Inv stmts n cells₀ cells ts) (hw : work (body stmts) cells ts k = some (cells', ts')) :
    Inv stmts n cells₀ cells' ts' := by
  obtain ⟨pre, ⟨is, stage⟩, post, t', rfl, hbody, rfl⟩ := work_eq_some hw
  obtain ⟨hnodup, hlt, htodo, htreated⟩ := h
  cases is with
  | nil => cases hbody
  | cons i rest =>
    rw [forall_mem_middle] at hlt htodo
    simp only [List.flatMap_append, List.flatMap_cons] at hnodup
    have hother : ∀ u ∈ pre ++ post, i ∉ u.indices := by
      intro u hu hi
      rcases List.mem_append.mp hu with hu | hu
      · exact (List.disjoint_of_nodup_append hnodup) (List.mem_flatMap.mpr ⟨u, hu, hi⟩) (by simp)
      · have htail := (List.nodup_append.mp hnodup).2.1
        exact (List.disjoint_of_nodup_append htail) (by simp) (List.mem_flatMap.mpr ⟨u, hu, hi⟩)
    have hrest : i ∉ rest := by
      have htail := (List.nodup_append.mp (List.nodup_append.mp hnodup).2.1).1
      exact (List.nodup_cons.mp htail).1
    simp only [body] at hbody
    split at hbody
    · rename_i f hf
      obtain ⟨rfl, rfl⟩ := Prod.mk.inj (Option.some.inj hbody)
      have hcell : ∀ j, j ≠ i → Function.update cells i (f i (cells i)) j = cells j := fun j hj =>
        Function.update_of_ne hj _ _
      refine ⟨?_, ?_, ?_, fun j hj => ?_⟩
      · simpa only [List.flatMap_append, List.flatMap_cons] using hnodup
      · rw [forall_mem_middle]
        exact hlt
      · rw [forall_mem_middle]
        refine ⟨fun j hj => ?_, fun u hu j hj => ?_⟩
        · by_cases hji : j = i
          · rw [hji, Function.update_self, cell_head, htodo.1 i (List.mem_cons_self ..), cell_head, runStmts_take_succ hf]
          · rw [hcell j hji, cell_tail hji, htodo.1 j hj, cell_tail hji]
        · rw [hcell j fun hji => hother u hu (hji ▸ hj), htodo.2 u hu j hj]
      · rw [forall_mem_middle] at hj
        rw [hcell j fun hji => hj.1 (hji ▸ List.mem_cons_self ..)]
        exact htreated j (forall_mem_middle.mpr hj)
    · -- the statements of `i` are through
      rename_i hf
      obtain ⟨rfl, rfl⟩ := Prod.mk.inj (Option.some.inj hbody)
      refine ⟨?_, ?_, ?_, fun j hj => ?_⟩
      · simp only [List.flatMap_append, List.flatMap_cons]
        exact hnodup.sublist (List.Sublist.append_left (List.Sublist.append_right (List.sublist_cons_self i rest) _) _)
      · rw [forall_mem_middle]
        exact ⟨fun j hj => hlt.1 j (List.mem_cons_of_mem i hj), hlt.2⟩
      · rw [forall_mem_middle]
        refine ⟨fun j hj => ?_, htodo.2⟩
        have hji : j ≠ i := fun hji => hrest (hji ▸ hj)
        rw [cell_zero, htodo.1 j (List.mem_cons_of_mem i hj), cell_tail hji]
      · rw [forall_mem_middle] at hj
        by_cases hji : j = i
        · rw [hji, htodo.1 i (List.mem_cons_self ..), cell_head, if_pos (hlt.1 i (List.mem_cons_self ..)),
            List.take_of_length_le (List.getElem?_eq_none_iff.mp hf)]
        · refine htreated j (forall_mem_middle.mpr ⟨fun hmem => ?_, hj.2⟩)
          exact (List.mem_cons.mp hmem).elim hji hj.1

theorem Inv.finish (h : Inv stmts n cells₀ cells ts) (hdone : ∀ t ∈ ts, t.indices = []) (i : ℕ) :
    cells i = if i < n then runStmts stmts i (cells₀ i) else cells₀ i :=
  h.treated i fun t ht hi => by rw [hdone t ht] at hi; cases hi

end Sweep

end GraphBenchmark.Sweep
