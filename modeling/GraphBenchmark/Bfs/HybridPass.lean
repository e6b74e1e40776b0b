import GraphBenchmark.Model.PushPull
import GraphBenchmark.Bfs.Adjacency
import GraphBenchmark.Foundations.Claiming
import Mathlib.Data.UInt
import Mathlib.Algebra.BigOperators.Group.List.Basic

/-! # One pass of the push phase of `bfs_pushpull`

As in `bfs_push` the tasks claim the unvisited out-neighbours of the frontier and hand them over, here with
a `push_back`. Beside that they add up the spans of the vertices they read and of those they claim. -/
namespace GraphBenchmark
open Interleaving Claiming
set_option autoImplicit false

/-- What `hybridBody` can do, case by case. -/
inductive HybridStep (g : Graph) (frontier : List UInt32) (s : HybridShared) :
    HybridTask → HybridShared → HybridTask → Prop
  | seen {is : List ℕ} {d : UInt32} {es : List UInt32} {x e : UInt64} (h : s.visited d.toNat ≠ 0) :
      HybridStep g frontier s ⟨is, d :: es, .scan, x, e⟩ s ⟨is, es, .scan, x, e⟩
  | claim {is : List ℕ} {d : UInt32} {es : List UInt32} {x e : UInt64} (h : s.visited d.toNat = 0) :
      HybridStep g frontier s ⟨is, d :: es, .scan, x, e⟩ { s with visited := Function.update s.visited d.toNat 1 }
        ⟨is, es, .pushBack d, x, e⟩
  | next {i : ℕ} {is : List ℕ} {x e : UInt64} : HybridStep g frontier s ⟨i :: is, [], .scan, x, e⟩ s
      ⟨is, g.outScan (frontier.getD i 0), .scan, x + g.span (frontier.getD i 0), e⟩
  | flush {x e : UInt64} : HybridStep g frontier s ⟨[], [], .scan, x, e⟩
      { s with edgesInFrontier := s.edgesInFrontier + e } ⟨[], [], .addExplored, x, e⟩
  | put {is : List ℕ} {d : UInt32} {es : List UInt32} {x e : UInt64} :
      HybridStep g frontier s ⟨is, es, .pushBack d, x, e⟩ { s with frontierNext := s.frontierNext ++ [d] }
        ⟨is, es, .scan, x, e + g.span d⟩
  | add {is : List ℕ} {es : List UInt32} {x e : UInt64} : HybridStep g frontier s ⟨is, es, .addExplored, x, e⟩
      { s with explored := s.explored + x } ⟨is, es, .through, x, e⟩

section Step
variable {g : Graph} {frontier : List UInt32} {s s' : HybridShared} {t t' : HybridTask}

theorem hybridBody_step (h : hybridBody g frontier s t = some (s', t')) : HybridStep g frontier s t s' t' := by
  obtain ⟨is, es, stage, x, e⟩ := t
  cases stage with
  | scan =>
    cases es with
    | nil =>
      cases is with
      | nil =>
        obtain ⟨rfl, rfl⟩ := Prod.mk.inj (Option.some.inj h)
        exact .flush
      | cons i is =>
        obtain ⟨rfl, rfl⟩ := Prod.mk.inj (Option.some.inj h)
        exact .next
    | cons d es =>
      simp only [hybridBody] at h
      split at h <;> obtain ⟨rfl, rfl⟩ := Prod.mk.inj (Option.some.inj h)
      · exact .claim ‹_›
      · exact .seen ‹_›
  | pushBack d =>
    obtain ⟨rfl, rfl⟩ := Prod.mk.inj (Option.some.inj h)
    exact .put
  | addExplored =>
    obtain ⟨rfl, rfl⟩ := Prod.mk.inj (Option.some.inj h)
    exact .add
  | through => cases h

theorem hybridBody_isSome (ht : t.stage ≠ .through) : hybridBody g frontier s t ≠ none := by
  obtain ⟨is, es, stage, x, e⟩ := t
  cases stage with
  | scan =>
    cases es with
    | nil => cases is <;> exact Option.some_ne_none _
    | cons d es =>
      simp only [hybridBody]
      split <;> exact Option.some_ne_none _
  | pushBack d => exact Option.some_ne_none _
  | addExplored => exact Option.some_ne_none _
  | through => exact absurd rfl ht

def HybridTask.weight (g : Graph) (frontier : List UInt32) (t : HybridTask) : ℕ :=
  (t.indices.map fun i => 1 + 2 * (g.outScan (frontier.getD i 0)).length).sum + 2 * t.edges.length +
    match t.stage with
    | .scan => 2
    | .pushBack _ => 3
    | .addExplored => 1
    | .through => 0

theorem HybridStep.weight_lt (h : HybridStep g frontier s t s' t') : t'.weight g frontier < t.weight g frontier := by
  cases h <;> simp only [HybridTask.weight, List.map_cons, List.sum_cons, List.length_cons, List.length_nil] <;> omega

def HybridTask.claimer (g : Graph) (frontier : List UInt32) (t : HybridTask) : Claimer UInt32 where
  todo := t.edges ++ t.indices.flatMap fun i => g.outScan (frontier.getD i 0)
  held := match t.stage with
    | .pushBack d => some d
    | _ => none

/-- After its loops a task has nothing left to read. -/
def HybridTask.Aligned (t : HybridTask) : Prop :=
  match t.stage with
  | .addExplored => t.indices = [] ∧ t.edges = []
  | .through => t.indices = [] ∧ t.edges = []
  | _ => True

/-- What a task has still to add to `explored`. -/
def HybridTask.owedExplored (g : Graph) (frontier : List UInt32) (t : HybridTask) : UInt64 :=
  (match t.stage with
    | .through => 0
    | _ => t.localExplored) + (t.indices.map fun i => g.span (frontier.getD i 0)).sum

/-- What a task has still to add to `edges_in_frontier` for the vertices it has claimed. -/
def HybridTask.owedEdges (t : HybridTask) : UInt64 :=
  match t.stage with
  | .scan => t.localEdgesInFrontier
  | .pushBack _ => t.localEdgesInFrontier
  | _ => 0

theorem HybridStep.aligned (h : HybridStep g frontier s t s' t') (ht : t.Aligned) : t'.Aligned := by
  cases h with
  | flush => exact ⟨rfl, rfl⟩
  | add => exact ht
  | _ => trivial

theorem HybridStep.move (h : HybridStep g frontier s t s' t') :
    Move (fun v => s.visited v.toNat ≠ 0) (s.frontierNext : Multiset UInt32) (t.claimer g frontier)
      (fun v => s'.visited v.toNat ≠ 0) (s'.frontierNext : Multiset UInt32) (t'.claimer g frontier) := by
  cases h with
  | seen h => exact .skip h
  | claim h => exact .claim (not_not.mpr h) fun v => update_vertex_iff (P := (· ≠ 0)) (by decide)
  | next => exact .stay _
  | flush => exact .stay _
  | @put is d es x e =>
    have hput : ((s.frontierNext ++ [d] : List UInt32) : Multiset UInt32) = d ::ₘ (s.frontierNext : Multiset UInt32) := by
      rw [← Multiset.coe_add, Multiset.coe_singleton, add_comm, Multiset.singleton_add]
    show Move _ _ _ _ ((s.frontierNext ++ [d] : List UInt32) : Multiset UInt32) _
    rw [hput]
    exact .put
  | add => exact .stay _

theorem HybridStep.bytes (h : HybridStep g frontier s t s' t') (hs : Bytes s.visited) : Bytes s'.visited := by
  cases h with
  | claim h => exact hs.mark _
  | _ => exact hs

theorem HybridStep.explored (h : HybridStep g frontier s t s' t') :
    s'.explored + t'.owedExplored g frontier = s.explored + t.owedExplored g frontier := by
  cases h with
  | next =>
    simp only [HybridTask.owedExplored, List.map_cons, List.sum_cons]
    abel
  | add =>
    simp only [HybridTask.owedExplored]
    abel
  | _ => rfl

theorem HybridStep.edgesInFrontier (h : HybridStep g frontier s t s' t') :
    s'.edgesInFrontier - (s'.frontierNext.map g.span).sum + t'.owedEdges =
      s.edgesInFrontier - (s.frontierNext.map g.span).sum + t.owedEdges := by
  cases h with
  | flush =>
    simp only [HybridTask.owedEdges]
    abel
  | put =>
    simp only [HybridTask.owedEdges, List.map_append, List.map_cons, List.map_nil, List.sum_append, List.sum_cons,
      List.sum_nil]
    abel
  | _ => rfl

end Step

/-! ## The pass -/

def Graph.NextOfList (g : Graph) (frontier : List UInt32) (v : UInt32) : Prop := ∃ u ∈ frontier, v ∈ g.outScan u

/-- What holds during a pass that began with the visited set `V₀` and the counter `x₀`. -/
structure HybridPassInv (g : Graph) (frontier : List UInt32) (V₀ : UInt32 → Prop) (x₀ : UInt64) (s : HybridShared)
    (ts : List HybridTask) : Prop where
  claims : Claiming.Inv V₀ (g.NextOfList frontier) (fun v => s.visited v.toNat ≠ 0) (s.frontierNext : Multiset UInt32)
    (ts.map (HybridTask.claimer g frontier))
  aligned : ∀ t ∈ ts, t.Aligned
  explored : s.explored + (ts.map (HybridTask.owedExplored g frontier)).sum = x₀ + (frontier.map g.span).sum
  edgesInFrontier : s.edgesInFrontier - (s.frontierNext.map g.span).sum + (ts.map HybridTask.owedEdges).sum = 0
  bytes : Bytes s.visited

section Pass
variable {g : Graph} {frontier : List UInt32} {V₀ : UInt32 → Prop} {x₀ : UInt64} {s s' : HybridShared}
  {ts ts' : List HybridTask} {rs : List BlockedRange} {i : ℕ}

theorem sum_map_split {M : Type*} [AddCommMonoid M] (hrs : Split frontier.length rs) (f : UInt32 → M) :
    (rs.map fun r => (r.indices.map fun i => f (frontier.getD i 0)).sum).sum = (frontier.map f).sum := by
  have hlist : frontier = (List.range frontier.length).map fun i => frontier.getD i 0 := by
    refine List.ext_getElem (by simp) fun i h₁ h₂ => ?_
    simp only [List.getElem_map, List.getElem_range]
    rw [List.getD_eq_getElem _ _ h₁]
  rw [hrs.sum_map fun i => f (frontier.getD i 0)]
  conv_rhs => rw [hlist, List.map_map]
  rfl

theorem hybridPass_launch (hrs : Split frontier.length rs) (hnext : s.frontierNext = []) (hedges : s.edgesInFrontier = 0)
    (hbytes : Bytes s.visited) :
    HybridPassInv g frontier (fun v => s.visited v.toNat ≠ 0) s.explored s (rs.map HybridTask.ofRange) := by
  have hnone : ∀ c ∈ (rs.map HybridTask.ofRange).map (HybridTask.claimer g frontier), c.held = none := by
    intro c hc
    obtain ⟨t, ht, rfl⟩ := List.mem_map.mp hc
    obtain ⟨r, -, rfl⟩ := List.mem_map.mp ht
    rfl
  have hlists : ∀ v, g.NextOfList frontier v ↔
      ∃ c ∈ (rs.map HybridTask.ofRange).map (HybridTask.claimer g frontier), v ∈ c.todo := by
    intro v
    unfold Graph.NextOfList
    simp only [← hrs.exists_getD_iff (d := 0), List.mem_map, exists_exists_and_eq_and]
    exact exists_congr fun r => and_congr_right fun _ => List.mem_flatMap.symm
  refine ⟨?_, ?_, ?_, ?_, hbytes⟩
  · rw [hnext]
    exact Inv.start hlists hnone
  · intro t ht
    obtain ⟨r, -, rfl⟩ := List.mem_map.mp ht
    trivial
  · rw [List.map_map, ← sum_map_split hrs]
    simp only [Function.comp_def, HybridTask.owedExplored, HybridTask.ofRange, zero_add]
  · rw [hnext, hedges, List.map_map]
    simp [Function.comp_def, HybridTask.owedEdges, HybridTask.ofRange]

theorem hybridPass_work (h : HybridPassInv g frontier V₀ x₀ s ts)
    (hw : work (hybridBody g frontier) s ts i = some (s', ts')) : HybridPassInv g frontier V₀ x₀ s' ts' := by
  refine ⟨?_, ?_, ?_, ?_, ?_⟩
  · obtain ⟨pre, t, post, t', rfl, hbody, rfl⟩ := work_eq_some hw
    have hclaims := h.claims
    rw [List.map_append, List.map_cons] at hclaims ⊢
    exact hclaims.move (hybridBody_step hbody).move
  · exact work_forall (P := fun _ t => t.Aligned) hw h.aligned
      (fun t t' _ ht hbody => (hybridBody_step hbody).aligned ht) fun _ _ _ _ _ hu => hu
  · rw [← h.explored]
    exact work_conserved (g := fun s : HybridShared => s.explored) hw
      fun t t' _ hbody => (hybridBody_step hbody).explored
  · rw [← h.edgesInFrontier]
    exact work_conserved (g := fun s : HybridShared => s.edgesInFrontier - (s.frontierNext.map g.span).sum) hw
      fun t t' _ hbody => (hybridBody_step hbody).edgesInFrontier
  · obtain ⟨pre, t, post, t', rfl, hbody, rfl⟩ := work_eq_some hw
    exact (hybridBody_step hbody).bytes h.bytes

theorem hybridPass_finish (h : HybridPassInv g frontier V₀ x₀ s ts) (hdone : ∀ t ∈ ts, t.stage = .through) :
    (∀ v : UInt32, s.visited v.toNat ≠ 0 ↔ V₀ v ∨ g.NextOfList frontier v) ∧ s.frontierNext.Nodup ∧
      (∀ v, v ∈ s.frontierNext ↔ g.NextOfList frontier v ∧ ¬ V₀ v) ∧
      s.explored = x₀ + (frontier.map g.span).sum ∧ s.edgesInFrontier = (s.frontierNext.map g.span).sum := by
  have hnil : ∀ t ∈ ts, t.indices = [] ∧ t.edges = [] := by
    intro t ht
    have hal := h.aligned t ht
    unfold HybridTask.Aligned at hal
    rw [hdone t ht] at hal
    exact hal
  obtain ⟨hvis, hnodup, hmem⟩ := h.claims.finish fun c hc => by
    obtain ⟨t, ht, rfl⟩ := List.mem_map.mp hc
    unfold HybridTask.claimer
    rw [(hnil t ht).1, (hnil t ht).2, hdone t ht]
    exact ⟨rfl, rfl⟩
  refine ⟨hvis, Multiset.coe_nodup.mp hnodup, hmem, ?_, ?_⟩
  · rw [← h.explored, List.sum_eq_zero, add_zero]
    intro x hx
    obtain ⟨t, ht, rfl⟩ := List.mem_map.mp hx
    unfold HybridTask.owedExplored
    rw [(hnil t ht).1, hdone t ht]
    rfl
  · have howed : (ts.map HybridTask.owedEdges).sum = 0 := by
      refine List.sum_eq_zero fun x hx => ?_
      obtain ⟨t, ht, rfl⟩ := List.mem_map.mp hx
      unfold HybridTask.owedEdges
      rw [hdone t ht]
    have hedges := h.edgesInFrontier
    rw [howed, add_zero] at hedges
    exact sub_eq_zero.mp hedges

end Pass

end GraphBenchmark
