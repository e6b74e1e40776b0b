import GraphBenchmark.Model.PageRank
import GraphBenchmark.Foundations.Words
import Mathlib.Algebra.Order.BigOperators.Group.List

/-! # The additions of `pr_push`

Whatever the interleaving of loads and swaps, the rank of a vertex together with what the tasks still owe it
stays the same (`addWork_conserved`): a swap adds one `delta` and strikes one edge off its task, and a failed swap
does neither. A swap fails only after one that succeeded, which bounds the retries (`addWork_lex`). -/
namespace GraphBenchmark
open Interleaving Words
set_option autoImplicit false

/-- What `addBody` can do, case by case. -/
inductive AddStep (g : Graph) (s : Ranks) : AddTask → Ranks → AddTask → Prop
  | load {is : List ℕ} {d : UInt32} {ds : List UInt32} {x : UInt32} :
      AddStep g s ⟨is, d :: ds, x, none⟩ s ⟨is, d :: ds, x, some (s.rank d.toNat)⟩
  | swap {is : List ℕ} {d : UInt32} {ds : List UInt32} {x : UInt32} :
      AddStep g s ⟨is, d :: ds, x, some (s.rank d.toNat)⟩
        { s with rank := Function.update s.rank d.toNat (s.rank d.toNat + x) } ⟨is, ds, x, none⟩
  | retry {is : List ℕ} {d : UInt32} {ds : List UInt32} {x old : UInt32} (h : s.rank d.toNat ≠ old) :
      AddStep g s ⟨is, d :: ds, x, some old⟩ s ⟨is, d :: ds, x, none⟩
  | next {i : ℕ} {is : List ℕ} {x : UInt32} {old : Option UInt32} :
      AddStep g s ⟨i :: is, [], x, old⟩ s ⟨is, g.outSlice i, s.prev i / 2, none⟩

/-- What a list of out-edges that each carry `x` adds to the rank of `v`. -/
def share (v : ℕ) (x : UInt32) (edges : List UInt32) : UInt32 :=
  (edges.map fun d => if d.toNat = v then x else 0).sum

/-- What a task has still to add to the rank of `v`. -/
def AddTask.owed (g : Graph) (prev : ℕ → UInt32) (v : ℕ) (t : AddTask) : UInt32 :=
  share v t.delta t.edges + (t.indices.map fun i => share v (prev i / 2) (g.outSlice i)).sum

def AddTask.weight (g : Graph) (t : AddTask) : ℕ :=
  t.edges.length + (t.indices.map fun i => 1 + (g.outSlice i).length).sum

/-- How far a task is from its next successful swap. -/
def AddTask.attempt (s : Ranks) (t : AddTask) : ℕ :=
  match t.edges.head?, t.old with
  | some d, some old => if s.rank d.toNat = old then 1 else 3
  | _, _ => 2

section Step
variable {g : Graph} {s s' : Ranks} {t t' : AddTask} {ts ts' : List AddTask} {rs : List BlockedRange} {i v : ℕ}

theorem addBody_step (h : addBody g s t = some (s', t')) : AddStep g s t s' t' := by
  obtain ⟨is, edges, x, old⟩ := t
  cases edges with
  | nil =>
    cases is with
    | nil => cases h
    | cons i is =>
      obtain ⟨rfl, rfl⟩ := Prod.mk.inj (Option.some.inj h)
      exact .next
  | cons d ds =>
    cases old with
    | none =>
      obtain ⟨rfl, rfl⟩ := Prod.mk.inj (Option.some.inj h)
      exact .load
    | some old =>
      simp only [addBody] at h
      split at h
      · rename_i hold
        subst hold
        obtain ⟨rfl, rfl⟩ := Prod.mk.inj (Option.some.inj h)
        exact .swap
      · rename_i hold
        obtain ⟨rfl, rfl⟩ := Prod.mk.inj (Option.some.inj h)
        exact .retry hold

theorem addBody_isSome (h : t.through = false) : addBody g s t ≠ none := by
  obtain ⟨is, edges, x, old⟩ := t
  cases edges with
  | nil =>
    cases is with
    | nil => cases h
    | cons i is => exact Option.some_ne_none _
  | cons d ds =>
    cases old with
    | none => exact Option.some_ne_none _
    | some old =>
      simp only [addBody]
      split <;> exact Option.some_ne_none _

theorem share_cons (x d : UInt32) (ds : List UInt32) :
    share v x (d :: ds) = (if d.toNat = v then x else 0) + share v x ds := by
  rw [share, List.map_cons, List.sum_cons]
  rfl

theorem share_eq (x : UInt32) (ds : List UInt32) :
    share v x ds = UInt32.ofNat ((ds.map UInt32.toNat).count v * x.toNat) := by
  induction ds with
  | nil => rw [List.map_nil, List.count_nil, Nat.zero_mul]; rfl
  | cons d ds ih =>
    rw [share_cons, ih, List.map_cons, List.count_cons]
    by_cases hd : d.toNat = v
    · rw [if_pos hd, if_pos (beq_iff_eq.mpr hd), Nat.add_mul, Nat.one_mul, UInt32.ofNat_add, UInt32.ofNat_toNat,
        add_comm]
    · rw [if_neg hd, if_neg (by simpa using hd), zero_add, Nat.add_zero]

theorem AddStep.prev_eq (h : AddStep g s t s' t') : s'.prev = s.prev := by
  cases h <;> rfl

/-- No step loses an addition or makes one twice. -/
theorem AddStep.conserved (h : AddStep g s t s' t') :
    s'.rank v + t'.owed g s.prev v = s.rank v + t.owed g s.prev v := by
  cases h with
  | load => rfl
  | @swap is d ds x =>
    simp only [AddTask.owed, share_cons, Function.update_apply]
    by_cases hv : v = d.toNat
    · subst hv
      rw [if_pos rfl, if_pos rfl]
      abel
    · rw [if_neg hv, if_neg (Ne.symm hv), zero_add]
  | retry => rfl
  | next =>
    simp only [AddTask.owed, List.map_cons, List.sum_cons]
    rw [show share v _ [] = 0 from rfl, zero_add]

theorem AddStep.weight (h : AddStep g s t s' t') :
    t'.weight g < t.weight g ∨ s' = s ∧ t'.weight g = t.weight g ∧ t'.attempt s < t.attempt s := by
  cases h with
  | load => exact Or.inr ⟨rfl, rfl, by simp [AddTask.attempt]⟩
  | swap => exact Or.inl (by simp only [AddTask.weight, List.length_cons]; omega)
  | retry h => exact Or.inr ⟨rfl, rfl, by simp [AddTask.attempt, h]⟩
  | next => exact Or.inl (by simp only [AddTask.weight, List.map_cons, List.sum_cons, List.length_nil]; omega)

end Step

/-! ## The region -/

/-- What the edges carry to `v` in an iteration. -/
def Graph.carried (g : Graph) (prev : ℕ → UInt32) (v : ℕ) : UInt32 :=
  ((List.range g.nbNodes).map fun u => share v (prev u / 2) (g.outSlice u)).sum

section Region
variable {g : Graph} {s s' : Ranks} {ts ts' : List AddTask} {rs : List BlockedRange} {i v : ℕ} {prev : ℕ → UInt32}

theorem owed_launch (hrs : Split g.nbNodes rs) :
    ((rs.map AddTask.ofRange).map (AddTask.owed g prev v)).sum = g.carried prev v := by
  rw [List.map_map, Graph.carried, ← hrs.sum_map]
  refine congrArg List.sum (List.map_congr_left fun r _ => ?_)
  exact zero_add _

theorem addWork_prev (hw : work (addBody g) s ts i = some (s', ts')) : s'.prev = s.prev := by
  obtain ⟨pre, t, post, t', rfl, hbody, rfl⟩ := work_eq_some hw
  exact (addBody_step hbody).prev_eq

theorem addWork_conserved (hw : work (addBody g) s ts i = some (s', ts')) (v : ℕ) :
    s'.rank v + (ts'.map (AddTask.owed g s.prev v)).sum = s.rank v + (ts.map (AddTask.owed g s.prev v)).sum :=
  work_conserved (g := fun s : Ranks => s.rank v) hw fun _ _ _ hbody => (addBody_step hbody).conserved

theorem addWork_lex (hw : work (addBody g) s ts i = some (s', ts')) :
    Prod.Lex (· < ·) (· < ·) ((ts'.map (AddTask.weight g)).sum, (ts'.map (AddTask.attempt s')).sum)
      ((ts.map (AddTask.weight g)).sum, (ts.map (AddTask.attempt s)).sum) :=
  work_lex_lt hw fun _ _ hbody => (addBody_step hbody).weight

theorem owed_through (hdone : ∀ t ∈ ts, t.through = true) : (ts.map (AddTask.owed g prev v)).sum = 0 := by
  refine List.sum_eq_zero fun x hx => ?_
  obtain ⟨⟨is, edges, d, old⟩, ht, rfl⟩ := List.mem_map.mp hx
  have hthrough := hdone _ ht
  simp only [AddTask.through, Bool.and_eq_true, List.isEmpty_iff] at hthrough
  obtain ⟨rfl, rfl⟩ := hthrough
  rfl

end Region

end GraphBenchmark
