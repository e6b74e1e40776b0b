import GraphBenchmark.Foundations.Pool
import Mathlib.Data.Multiset.AddSub
import Mathlib.Algebra.BigOperators.Group.Multiset.Basic

/-! # Claiming vertices

Workers walk through lists of vertices. A vertex that is not visited yet is claimed by the worker that
marks it (one atomic step), and the worker hands it over to a common collection later (another step);
a visited vertex is skipped. Whatever the interleaving, a vertex is handed over at most once, and in
the end exactly the vertices of the lists that were not visited before are in the collection.

`Move` is one step of one worker. `Inv` is the invariant that carries the argument: what is handed
over or still held is, without repetition, what has been visited since the start. -/
namespace GraphBenchmark.Claiming
open Interleaving
set_option autoImplicit false

variable {V : Type*}

/-- What a worker has still to look at, and the vertex it has claimed and not handed over yet. -/
structure Claimer (V : Type*) where
  todo : List V
  held : Option V

def held (cs : List (Claimer V)) : Multiset V := (cs.map fun c => (c.held.toList : Multiset V)).sum

inductive Move (vis : V → Prop) (out : Multiset V) : Claimer V → (V → Prop) → Multiset V → Claimer V → Prop
  | stay (c : Claimer V) : Move vis out c vis out c
  | skip {d : V} {rest : List V} (h : vis d) : Move vis out ⟨d :: rest, none⟩ vis out ⟨rest, none⟩
  | claim {d : V} {rest : List V} {vis' : V → Prop} (h : ¬ vis d) (hvis : ∀ v, vis' v ↔ vis v ∨ v = d) :
      Move vis out ⟨d :: rest, none⟩ vis' out ⟨rest, some d⟩
  | put {d : V} {rest : List V} : Move vis out ⟨rest, some d⟩ vis (d ::ₘ out) ⟨rest, none⟩

/-- `V₀` are the vertices visited at the start, `N` those in the workers' lists. -/
structure Inv (V₀ N vis : V → Prop) (out : Multiset V) (cs : List (Claimer V)) : Prop where
  base : ∀ v, V₀ v → vis v
  sound : ∀ v, vis v → V₀ v ∨ N v
  todo : ∀ c ∈ cs, ∀ v ∈ c.todo, N v
  complete : ∀ v, N v → vis v ∨ ∃ c ∈ cs, v ∈ c.todo
  nodup : (out + held cs).Nodup
  mem : ∀ v, v ∈ out + held cs ↔ vis v ∧ ¬ V₀ v

variable {V₀ N vis vis' : V → Prop} {out out' : Multiset V} {cs pre post : List (Claimer V)} {c c' : Claimer V}

theorem held_split : held (pre ++ c :: post) = (c.held.toList : Multiset V) + held (pre ++ post) := by
  simp only [held, List.map_append, List.map_cons, List.sum_append, List.sum_cons]
  exact add_left_comm _ _ _

theorem held_eq_zero (h : ∀ c ∈ cs, c.held = none) : held cs = 0 := by
  refine List.sum_eq_zero fun m hm => ?_
  obtain ⟨c, hc, rfl⟩ := List.mem_map.mp hm
  rw [h c hc]
  rfl

theorem Inv.start (hN : ∀ v, N v ↔ ∃ c ∈ cs, v ∈ c.todo) (hheld : ∀ c ∈ cs, c.held = none) :
    Inv V₀ N V₀ 0 cs := by
  have hzero : held cs = 0 := held_eq_zero hheld
  refine ⟨fun _ => id, fun _ => Or.inl, fun c hc v hv => (hN v).mpr ⟨c, hc, hv⟩,
    fun v hv => Or.inr ((hN v).mp hv), ?_, fun v => ?_⟩
  · rw [hzero]
    exact Multiset.nodup_zero
  · rw [hzero]
    simp

theorem todo_replace (h : ∀ x ∈ pre ++ c :: post, ∀ v ∈ x.todo, N v) (hsub : ∀ v ∈ c'.todo, v ∈ c.todo) :
    ∀ x ∈ pre ++ c' :: post, ∀ v ∈ x.todo, N v := by
  obtain ⟨hc, hrest⟩ := forall_mem_middle.mp h
  exact forall_mem_middle.mpr ⟨fun v hv => hc v (hsub v hv), hrest⟩

theorem complete_replace (h : ∀ v, N v → vis v ∨ ∃ x ∈ pre ++ c :: post, v ∈ x.todo)
    (hvis : ∀ v, vis v → vis' v) (hc : ∀ v ∈ c.todo, vis' v ∨ v ∈ c'.todo) :
    ∀ v, N v → vis' v ∨ ∃ x ∈ pre ++ c' :: post, v ∈ x.todo := by
  intro v hN
  rw [exists_mem_middle]
  rcases h v hN with hv | hv
  · exact Or.inl (hvis v hv)
  · rcases exists_mem_middle.mp hv with hv | hv
    · exact (hc v hv).imp_right Or.inl
    · exact Or.inr (Or.inr hv)

theorem Inv.move (h : Inv V₀ N vis out (pre ++ c :: post)) (hm : Move vis out c vis' out' c') :
    Inv V₀ N vis' out' (pre ++ c' :: post) := by
  cases hm with
  | stay => exact h
  | @skip d rest hd =>
    refine ⟨h.base, h.sound, todo_replace h.todo fun v hv => List.mem_cons_of_mem d hv,
      complete_replace h.complete (fun _ => id) ?_, ?_, ?_⟩
    · intro v hv
      rcases List.mem_cons.mp hv with rfl | hv
      · exact Or.inl hd
      · exact Or.inr hv
    · simpa only [held_split] using h.nodup
    · simpa only [held_split] using h.mem
  | @claim d rest _ hd hvis =>
    have hheld : out + held (pre ++ (⟨rest, some d⟩ : Claimer V) :: post) =
        d ::ₘ (out + held (pre ++ (⟨d :: rest, none⟩ : Claimer V) :: post)) := by
      simp only [held_split, Option.toList_some, Option.toList_none, Multiset.coe_nil, zero_add,
        Multiset.coe_singleton, Multiset.singleton_add, Multiset.add_cons]
    refine ⟨fun v hv => (hvis v).mpr (Or.inl (h.base v hv)), ?_,
      todo_replace h.todo fun v hv => List.mem_cons_of_mem d hv,
      complete_replace h.complete (fun v hv => (hvis v).mpr (Or.inl hv)) ?_, ?_, ?_⟩
    · intro v hv
      rcases (hvis v).mp hv with hv | rfl
      · exact h.sound v hv
      · exact Or.inr (h.todo ⟨v :: rest, none⟩ (by simp) v (by simp))
    · intro v hv
      rcases List.mem_cons.mp hv with rfl | hv
      · exact Or.inl ((hvis v).mpr (Or.inr rfl))
      · exact Or.inr hv
    · -- the claimed vertex was not visited, so it is neither handed over nor held
      rw [hheld]
      exact Multiset.nodup_cons.mpr ⟨fun hmem => hd ((h.mem d).mp hmem).1, h.nodup⟩
    · intro v
      rw [hheld, Multiset.mem_cons, h.mem, hvis]
      constructor
      · rintro (rfl | ⟨hv, hv₀⟩)
        · exact ⟨Or.inr rfl, fun hv₀ => hd (h.base v hv₀)⟩
        · exact ⟨Or.inl hv, hv₀⟩
      · rintro ⟨hv | rfl, hv₀⟩
        · exact Or.inr ⟨hv, hv₀⟩
        · exact Or.inl rfl
  | @put d rest =>
    have hheld : d ::ₘ out + held (pre ++ (⟨rest, none⟩ : Claimer V) :: post) =
        out + held (pre ++ (⟨rest, some d⟩ : Claimer V) :: post) := by
      simp only [held_split, Option.toList_some, Option.toList_none, Multiset.coe_nil, zero_add,
        Multiset.coe_singleton, Multiset.singleton_add, Multiset.add_cons, Multiset.cons_add]
    exact ⟨h.base, h.sound, todo_replace h.todo fun _ => id,
      complete_replace h.complete (fun _ => id) fun _ => Or.inr, hheld ▸ h.nodup, hheld ▸ h.mem⟩

/-- When every worker is through, exactly the new vertices have been handed over, each once. -/
theorem Inv.finish (h : Inv V₀ N vis out cs) (hdone : ∀ c ∈ cs, c.todo = [] ∧ c.held = none) :
    (∀ v, vis v ↔ V₀ v ∨ N v) ∧ out.Nodup ∧ ∀ v, v ∈ out ↔ N v ∧ ¬ V₀ v := by
  have hzero : held cs = 0 := held_eq_zero fun c hc => (hdone c hc).2
  have hvis : ∀ v, vis v ↔ V₀ v ∨ N v := by
    refine fun v => ⟨h.sound v, fun hv => hv.elim (h.base v) fun hv => ?_⟩
    rcases h.complete v hv with hv | ⟨c, hc, hvc⟩
    · exact hv
    · rw [(hdone c hc).1] at hvc
      cases hvc
  have hnodup := h.nodup
  have hmem := h.mem
  rw [hzero, add_zero] at hnodup hmem
  refine ⟨hvis, hnodup, fun v => ?_⟩
  rw [hmem, hvis]
  constructor
  · rintro ⟨hv | hv, hv₀⟩
    · exact absurd hv hv₀
    · exact ⟨hv, hv₀⟩
  · rintro ⟨hv, hv₀⟩
    exact ⟨Or.inr hv, hv₀⟩

end GraphBenchmark.Claiming
