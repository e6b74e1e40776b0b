import GraphBenchmark.Foundations.Pool

/-! # Marking vertices in a map

Workers walk through lists of vertices. For a vertex that satisfies `P` and is not visited a worker raises
its flag (`find`), marks the vertex as visited (`claim`) and enters it in the next map (`put`); a worker
that is through adds its flag to a common one (`stop`). The steps only ever set marks, so two workers may
even hold the same vertex. In the end exactly the vertices with `P` have been marked and entered, and the
common flag tells whether there were any. -/
namespace GraphBenchmark.Marking
open Interleaving
set_option autoImplicit false

variable {V : Type*}

/-- What a worker has still to look at, the vertex it has marked and not entered yet, its flag, and
whether it is through. -/
structure Marker (V : Type*) where
  todo : List V
  held : Option V
  found : Bool
  through : Bool

/-- What the workers share: the visited vertices, the next map, the common flag. -/
structure Shared (V : Type*) where
  vis : V → Prop
  next : V → Prop
  cont : Bool

/-- One step of one worker; `V₀` are the vertices visited at the start. -/
inductive Move (V₀ P : V → Prop) (s : Shared V) : Marker V → Shared V → Marker V → Prop
  | stay (m : Marker V) : Move V₀ P s m s m
  | skip {d : V} {rest : List V} {f : Bool} (h : s.vis d ∨ ¬ P d) :
      Move V₀ P s ⟨d :: rest, none, f, false⟩ s ⟨rest, none, f, false⟩
  | find {d : V} {rest : List V} {f : Bool} (hP : P d) (h₀ : ¬ V₀ d) :
      Move V₀ P s ⟨d :: rest, none, f, false⟩ s ⟨d :: rest, none, true, false⟩
  | claim {d : V} {rest : List V} {vis' : V → Prop} (hP : P d) (h₀ : ¬ V₀ d) (hvis : ∀ v, vis' v ↔ s.vis v ∨ v = d) :
      Move V₀ P s ⟨d :: rest, none, true, false⟩ { s with vis := vis' } ⟨rest, some d, true, false⟩
  | put {d : V} {rest : List V} {f : Bool} {next' : V → Prop} (hnext : ∀ v, next' v ↔ s.next v ∨ v = d) :
      Move V₀ P s ⟨rest, some d, f, false⟩ { s with next := next' } ⟨rest, none, f, false⟩
  | stop {f : Bool} : Move V₀ P s ⟨[], none, f, false⟩ { s with cont := f || s.cont } ⟨[], none, f, true⟩

/-- `A` are the vertices in the workers' lists, `H` those in the next map at the start. -/
structure Inv (V₀ H A P : V → Prop) (s : Shared V) (ms : List (Marker V)) : Prop where
  base : ∀ v, V₀ v → s.vis v
  sound : ∀ v, s.vis v → V₀ v ∨ (A v ∧ P v)
  todo : ∀ m ∈ ms, ∀ v ∈ m.todo, A v
  complete : ∀ v, A v → P v → s.vis v ∨ ∃ m ∈ ms, v ∈ m.todo
  nextBase : ∀ v, H v → s.next v
  nextSound : ∀ v, s.next v → H v ∨ (s.vis v ∧ ¬ V₀ v)
  nextComplete : ∀ v, s.vis v → V₀ v ∨ s.next v ∨ ∃ m ∈ ms, m.held = some v
  held : ∀ m ∈ ms, ∀ v, m.held = some v → s.vis v ∧ ¬ V₀ v
  found : ∀ m ∈ ms, m.found = true → ∃ v, A v ∧ P v ∧ ¬ V₀ v
  cont : s.cont = true → ∃ v, A v ∧ P v ∧ ¬ V₀ v
  raised : ∀ v, s.vis v → V₀ v ∨ s.cont = true ∨ ∃ m ∈ ms, m.found = true ∧ m.through = false
  through : ∀ m ∈ ms, m.through = true → m.todo = [] ∧ m.held = none

variable {V₀ H A P : V → Prop} {s s' : Shared V} {ms pre post : List (Marker V)} {m m' : Marker V}

theorem Inv.start (hA : ∀ v, A v ↔ ∃ m ∈ ms, v ∈ m.todo) (hms : ∀ m ∈ ms, m.held = none ∧ m.found = false ∧ m.through = false) :
    Inv V₀ H A P ⟨V₀, H, false⟩ ms where
  base _ := id
  sound _ := Or.inl
  todo m hm v hv := (hA v).mpr ⟨m, hm, hv⟩
  complete v hv _ := Or.inr ((hA v).mp hv)
  nextBase _ := id
  nextSound _ := Or.inl
  nextComplete _ := Or.inl
  held m hm v hv := by
    rw [(hms m hm).1] at hv
    cases hv
  found m hm hf := by
    rw [(hms m hm).2.1] at hf
    cases hf
  cont := nofun
  raised _ := Or.inl
  through m hm ht := by
    rw [(hms m hm).2.2] at ht
    cases ht

/-! ## What one step can do -/

section Move
variable {v : V}

theorem Move.vis_mono (hm : Move V₀ P s m s' m') (hv : s.vis v) : s'.vis v := by
  cases hm with
  | claim _ _ hvis => exact (hvis v).mpr (Or.inl hv)
  | _ => exact hv

theorem Move.next_mono (hm : Move V₀ P s m s' m') (hv : s.next v) : s'.next v := by
  cases hm with
  | put hnext => exact (hnext v).mpr (Or.inl hv)
  | _ => exact hv

theorem Move.cont_mono (hm : Move V₀ P s m s' m') (hc : s.cont = true) : s'.cont = true := by
  cases hm with
  | stop => exact Bool.or_eq_true_iff.mpr (Or.inr hc)
  | _ => exact hc

theorem Move.vis_new (hm : Move V₀ P s m s' m') (hv : s'.vis v) :
    s.vis v ∨ (v ∈ m.todo ∧ P v ∧ ¬ V₀ v) ∧ m'.held = some v ∧ m'.found = true ∧ m'.through = false := by
  cases hm with
  | claim hP h₀ hvis =>
    rcases (hvis v).mp hv with hv | rfl
    · exact Or.inl hv
    · exact Or.inr ⟨⟨List.mem_cons_self .., hP, h₀⟩, rfl, rfl, rfl⟩
  | _ => exact Or.inl hv

theorem Move.next_new (hm : Move V₀ P s m s' m') (hv : s'.next v) : s.next v ∨ m.held = some v := by
  cases hm with
  | put hnext => exact ((hnext v).mp hv).imp_right fun h => congrArg some h.symm
  | _ => exact Or.inl hv

theorem Move.cont_new (hm : Move V₀ P s m s' m') (hc : s'.cont = true) : s.cont = true ∨ m.found = true := by
  cases hm with
  | stop => exact (Bool.or_eq_true_iff.mp hc).symm
  | _ => exact Or.inl hc

theorem Move.todo_sub (hm : Move V₀ P s m s' m') (hv : v ∈ m'.todo) : v ∈ m.todo := by
  cases hm with
  | skip _ => exact List.mem_cons_of_mem _ hv
  | claim _ _ _ => exact List.mem_cons_of_mem _ hv
  | _ => exact hv

theorem Move.todo_keep (hm : Move V₀ P s m s' m') (hv : v ∈ m.todo) (hP : P v) : s'.vis v ∨ v ∈ m'.todo := by
  cases hm with
  | skip h =>
    rcases List.mem_cons.mp hv with rfl | hv
    · exact Or.inl (h.resolve_right fun hn => hn hP)
    · exact Or.inr hv
  | claim _ _ hvis => exact (List.mem_cons.mp hv).imp_left fun h => (hvis v).mpr (Or.inr h)
  | _ => exact Or.inr hv

theorem Move.held_keep (hm : Move V₀ P s m s' m') (hv : m.held = some v) : s'.next v ∨ m'.held = some v := by
  cases hm with
  | put hnext => exact Or.inl ((hnext v).mpr (Or.inr (Option.some.inj hv).symm))
  | stay => exact Or.inr hv
  | _ => cases hv

theorem Move.held_new (hm : Move V₀ P s m s' m') (hv : m'.held = some v) :
    m.held = some v ∨ s'.vis v ∧ ¬ V₀ v := by
  cases hm with
  | claim _ h₀ hvis =>
    cases hv
    exact Or.inr ⟨(hvis _).mpr (Or.inr rfl), h₀⟩
  | stay => exact Or.inl hv
  | _ => cases hv

theorem Move.found_keep (hm : Move V₀ P s m s' m') (hf : m.found = true ∧ m.through = false) :
    s'.cont = true ∨ m'.found = true ∧ m'.through = false := by
  cases hm with
  | stop => exact Or.inl (Bool.or_eq_true_iff.mpr (Or.inl hf.1))
  | find _ _ => exact Or.inr ⟨rfl, rfl⟩
  | _ => exact Or.inr hf

theorem Move.found_new (hm : Move V₀ P s m s' m') (hf : m'.found = true) :
    m.found = true ∨ ∃ v ∈ m.todo, P v ∧ ¬ V₀ v := by
  cases hm with
  | find hP h₀ => exact Or.inr ⟨_, List.mem_cons_self .., hP, h₀⟩
  | _ => exact Or.inl hf

theorem Move.through_new (hm : Move V₀ P s m s' m') (ht : m'.through = true) :
    m'.todo = [] ∧ m'.held = none ∨ m' = m := by
  cases hm with
  | stop => exact Or.inl ⟨rfl, rfl⟩
  | stay => exact Or.inr rfl
  | _ => cases ht

end Move

/-- Every step keeps the invariant: marks are only set, and the worker that moves accounts for what it drops. -/
theorem Inv.move (h : Inv V₀ H A P s (pre ++ m :: post)) (hm : Move V₀ P s m s' m') :
    Inv V₀ H A P s' (pre ++ m' :: post) := by
  obtain ⟨htodo, htodos⟩ := forall_mem_middle.mp h.todo
  obtain ⟨hheld, hhelds⟩ := forall_mem_middle.mp h.held
  obtain ⟨hfound, hfounds⟩ := forall_mem_middle.mp h.found
  obtain ⟨hthrough, hthroughs⟩ := forall_mem_middle.mp h.through
  refine ⟨fun v hv => hm.vis_mono (h.base v hv), fun v hv => ?_, ?_, fun v hA hP => ?_,
    fun v hv => hm.next_mono (h.nextBase v hv), fun v hv => ?_, fun v hv => ?_, ?_, ?_, fun hc => ?_, fun v hv => ?_, ?_⟩
  · rcases hm.vis_new hv with hv | ⟨⟨hd, hP, -⟩, -⟩
    · exact h.sound v hv
    · exact Or.inr ⟨htodo v hd, hP⟩
  · exact forall_mem_middle.mpr ⟨fun v hv => htodo v (hm.todo_sub hv), htodos⟩
  · rw [exists_mem_middle]
    rcases h.complete v hA hP with hv | hv
    · exact Or.inl (hm.vis_mono hv)
    · rcases exists_mem_middle.mp hv with hv | hv
      · exact (hm.todo_keep hv hP).imp_right Or.inl
      · exact Or.inr (Or.inr hv)
  · rcases hm.next_new hv with hv | hv
    · exact (h.nextSound v hv).imp_right fun ⟨hv, h₀⟩ => ⟨hm.vis_mono hv, h₀⟩
    · exact Or.inr ⟨hm.vis_mono (hheld v hv).1, (hheld v hv).2⟩
  · rw [exists_mem_middle]
    rcases hm.vis_new hv with hv | ⟨-, hd, -⟩
    · rcases h.nextComplete v hv with h₀ | hv | hv
      · exact Or.inl h₀
      · exact Or.inr (Or.inl (hm.next_mono hv))
      · rcases exists_mem_middle.mp hv with hv | hv
        · exact Or.inr ((hm.held_keep hv).imp_right Or.inl)
        · exact Or.inr (Or.inr (Or.inr hv))
    · exact Or.inr (Or.inr (Or.inl hd))
  · refine forall_mem_middle.mpr ⟨fun v hv => ?_, fun x hx v hv => ⟨hm.vis_mono (hhelds x hx v hv).1, (hhelds x hx v hv).2⟩⟩
    rcases hm.held_new hv with hv | hv
    · exact ⟨hm.vis_mono (hheld v hv).1, (hheld v hv).2⟩
    · exact hv
  · refine forall_mem_middle.mpr ⟨fun hf => ?_, hfounds⟩
    rcases hm.found_new hf with hf | ⟨v, hv, hnew⟩
    · exact hfound hf
    · exact ⟨v, htodo v hv, hnew⟩
  · exact (hm.cont_new hc).elim h.cont hfound
  · rw [exists_mem_middle]
    rcases hm.vis_new hv with hv | ⟨-, -, hup⟩
    · rcases h.raised v hv with h₀ | hc | hup
      · exact Or.inl h₀
      · exact Or.inr (Or.inl (hm.cont_mono hc))
      · rcases exists_mem_middle.mp hup with hup | hup
        · exact Or.inr ((hm.found_keep hup).imp_right Or.inl)
        · exact Or.inr (Or.inr (Or.inr hup))
    · exact Or.inr (Or.inr (Or.inl hup))
  · refine forall_mem_middle.mpr ⟨fun ht => ?_, hthroughs⟩
    rcases hm.through_new ht with hend | rfl
    · exact hend
    · exact hthrough ht

/-- When every worker is through, exactly the vertices with `P` have been marked and entered, and the
common flag tells whether there are new ones. -/
theorem Inv.finish (h : Inv V₀ H A P s ms) (hdone : ∀ m ∈ ms, m.through = true) :
    (∀ v, s.vis v ↔ V₀ v ∨ (A v ∧ P v)) ∧ (∀ v, s.next v ↔ H v ∨ (¬ V₀ v ∧ A v ∧ P v)) ∧
      (s.cont = true ↔ ∃ v, A v ∧ P v ∧ ¬ V₀ v) := by
  have htodo : ∀ m ∈ ms, m.todo = [] ∧ m.held = none := fun m hm => h.through m hm (hdone m hm)
  have hvis : ∀ v, s.vis v ↔ V₀ v ∨ (A v ∧ P v) := by
    refine fun v => ⟨h.sound v, fun hv => hv.elim (h.base v) fun hv => ?_⟩
    rcases h.complete v hv.1 hv.2 with hv | ⟨m, hm, hvm⟩
    · exact hv
    · rw [(htodo m hm).1] at hvm
      cases hvm
  refine ⟨hvis, fun v => ⟨fun hv => ?_, fun hv => ?_⟩, h.cont, fun ⟨v, hA, hP, h₀⟩ => ?_⟩
  · rcases h.nextSound v hv with hv | ⟨hv, h₀⟩
    · exact Or.inl hv
    · exact Or.inr ⟨h₀, ((hvis v).mp hv).resolve_left h₀⟩
  · rcases hv with hv | ⟨h₀, hv⟩
    · exact h.nextBase v hv
    · rcases h.nextComplete v ((hvis v).mpr (Or.inr hv)) with hv | hv | ⟨m, hm, hvm⟩
      · exact absurd hv h₀
      · exact hv
      · rw [(htodo m hm).2] at hvm
        cases hvm
  · rcases h.raised v ((hvis v).mpr (Or.inr ⟨hA, hP⟩)) with hv | hv | ⟨m, hm, -, hthrough⟩
    · exact absurd hv h₀
    · exact hv
    · rw [hdone m hm] at hthrough
      cases hthrough

end GraphBenchmark.Marking
