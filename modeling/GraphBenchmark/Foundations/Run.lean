import Mathlib.Logic.Relation
import Mathlib.Order.WellFounded

/-! # Runs of a partial step function

A system is a step function `step : σ → α → Option σ`: the action `a` is enabled in `s` when
`step s a` is a state. Nothing here mentions what the states are.

* `Reach step s t`: some finite schedule of actions leads from `s` to `t`.
* `Ends step s Q`: every schedule from `s` is finite, and every state in which no action is enabled
  satisfies `Q`. This is total correctness under every schedule.
* `within ok step`: the same system with every action that would leave `ok` disabled.
* `provided ok step`: the same system with every action disabled that does not meet `ok` where it is taken.
* `logged obs step`: the same system with a record of what `obs` sees of each step.
* `indexed step`: a family of systems as one, with the index in the state. -/
namespace GraphBenchmark.Interleaving
set_option autoImplicit false

variable {σ α : Type*}

/-! ## Reachable states -/

def Step (step : σ → α → Option σ) (s t : σ) : Prop := ∃ a, step s a = some t

def Reach (step : σ → α → Option σ) : σ → σ → Prop := Relation.ReflTransGen (Step step)

theorem Reach.refl (step : σ → α → Option σ) (s : σ) : Reach step s s := Relation.ReflTransGen.refl

theorem Reach.trans {step : σ → α → Option σ} {s t u : σ} (h₁ : Reach step s t) (h₂ : Reach step t u) :
    Reach step s u := Relation.ReflTransGen.trans h₁ h₂

theorem Reach.tail {step : σ → α → Option σ} {s t u : σ} {a : α} (h : Reach step s t)
    (ha : step t a = some u) : Reach step s u := Relation.ReflTransGen.tail h ⟨a, ha⟩

theorem Reach.head {step : σ → α → Option σ} {s t u : σ} {a : α} (ha : step s a = some t)
    (h : Reach step t u) : Reach step s u := Relation.ReflTransGen.head ⟨a, ha⟩ h

theorem Reach.of_foldlM {step : σ → α → Option σ} {as : List α} {s t : σ}
    (h : as.foldlM step s = some t) : Reach step s t := by
  induction as generalizing s with
  | nil =>
    obtain rfl : s = t := by simpa using h
    exact Reach.refl step s
  | cons a as ih =>
    rw [List.foldlM_cons] at h
    obtain ⟨u, hu, ht⟩ := Option.bind_eq_some_iff.mp h
    exact Reach.head hu (ih ht)

/-- What holds at the start and is kept by every action holds in every reachable state. -/
theorem Reach.invariant {step : σ → α → Option σ} {P : σ → Prop} {s t : σ} (h : Reach step s t) (h0 : P s)
    (hstep : ∀ u a v, P u → step u a = some v → P v) : P t := by
  induction h with
  | refl => exact h0
  | tail _ hs ih =>
    obtain ⟨a, ha⟩ := hs
    exact hstep _ a _ ih ha

/-! ## Total correctness -/

def Terminates (step : σ → α → Option σ) (s : σ) : Prop := Acc (fun t u => Step step u t) s

/-- Every schedule from `s` is finite and can only get stuck in `Q`. -/
def Ends (step : σ → α → Option σ) (s : σ) (Q : σ → Prop) : Prop :=
  Terminates step s ∧ ∀ t, Reach step s t → (∀ a, step t a = none) → Q t

theorem terminates_of_measure {β : Type*} {r : β → β → Prop} (wf : WellFounded r) {step : σ → α → Option σ}
    {P : σ → Prop} (μ : σ → β) (hstep : ∀ u a v, P u → step u a = some v → P v)
    (hμ : ∀ u a v, P u → step u a = some v → r (μ v) (μ u)) {s : σ} (h0 : P s) : Terminates step s := by
  generalize hb : μ s = b
  induction b using wf.induction generalizing s with
  | _ b ih =>
    subst hb
    refine Acc.intro s fun t ht => ?_
    obtain ⟨a, ha⟩ := ht
    exact ih (μ t) (hμ s a t h0 ha) (hstep s a t h0 ha) rfl

/-- Total correctness from an invariant, a measure, and what a stuck invariant state satisfies. -/
theorem ends_of_invariant {β : Type*} {r : β → β → Prop} (wf : WellFounded r) {step : σ → α → Option σ}
    {P Q : σ → Prop} (μ : σ → β) (hstep : ∀ u a v, P u → step u a = some v → P v)
    (hμ : ∀ u a v, P u → step u a = some v → r (μ v) (μ u))
    (hstuck : ∀ u, P u → (∀ a, step u a = none) → Q u) {s : σ} (h0 : P s) : Ends step s Q :=
  ⟨terminates_of_measure wf μ hstep hμ h0, fun t ht hn => hstuck t (ht.invariant h0 hstep) hn⟩

theorem Ends.mono {step : σ → α → Option σ} {s : σ} {Q R : σ → Prop} (h : Ends step s Q)
    (hQR : ∀ t, Reach step s t → Q t → R t) : Ends step s R :=
  ⟨h.1, fun t ht hn => hQR t ht (h.2 t ht hn)⟩

/-- A state without any action. -/
theorem Ends.of_stuck {step : σ → α → Option σ} {s : σ} {Q : σ → Prop} (hn : ∀ a, step s a = none) (hQ : Q s) :
    Ends step s Q := by
  have hnone : ∀ t, ¬ Step step s t := fun t ⟨a, ha⟩ => by
    rw [hn a] at ha
    cases ha
  refine ⟨Acc.intro s fun t ht => absurd ht (hnone t), fun t ht _ => ?_⟩
  rcases Relation.ReflTransGen.cases_head ht with rfl | ⟨u, hu, -⟩
  · exact hQ
  · exact absurd hu (hnone u)

theorem Terminates.exists_stuck {step : σ → α → Option σ} {s : σ} (h : Terminates step s) :
    ∃ t, Reach step s t ∧ ∀ a, step t a = none := by
  induction h with
  | intro s _ ih =>
    by_cases hs : ∀ a, step s a = none
    · exact ⟨s, Reach.refl step s, hs⟩
    · obtain ⟨a, ha⟩ := not_forall.mp hs
      obtain ⟨t, ht⟩ := Option.ne_none_iff_exists'.mp ha
      obtain ⟨u, hu, hn⟩ := ih t ⟨a, ht⟩
      exact ⟨u, Reach.head ht hu, hn⟩

theorem Ends.exists {step : σ → α → Option σ} {s : σ} {Q : σ → Prop} (h : Ends step s Q) :
    ∃ t, Reach step s t ∧ Q t := by
  obtain ⟨t, ht, hn⟩ := h.1.exists_stuck
  exact ⟨t, ht, h.2 t ht hn⟩

/-- Two totally correct runs have a result in common exactly when their results are equal. -/
theorem exists_common_iff {β : Type*} {step₁ step₂ : σ → α → Option σ} {s₁ s₂ : σ} {P : β → σ → Prop} {x y : β}
    (hP : ∀ x y t, P x t → P y t → x = y) (h₁ : Ends step₁ s₁ (P x)) (h₂ : Ends step₂ s₂ (P y)) :
    (∃ z, Ends step₁ s₁ (P z) ∧ Ends step₂ s₂ (P z)) ↔ x = y := by
  constructor
  · intro ⟨z, hz₁, hz₂⟩
    obtain ⟨t, ht, hn⟩ := h₁.1.exists_stuck
    obtain ⟨u, hu, hm⟩ := h₂.1.exists_stuck
    exact (hP x z t (h₁.2 t ht hn) (hz₁.2 t ht hn)).trans (hP z y u (hz₂.2 u hu hm) (h₂.2 u hu hm))
  · intro hxy
    subst hxy
    exact ⟨x, h₁, h₂⟩

theorem Ends.of_reach {step : σ → α → Option σ} {s t : σ} {Q : σ → Prop} (h : Ends step s Q)
    (ht : Reach step s t) : Ends step t Q := by
  refine ⟨?_, fun u hu hn => h.2 u (ht.trans hu) hn⟩
  induction ht with
  | refl => exact h.1
  | tail _ hs ih => exact ih.inv hs

/-! ## Systems inside systems -/

/-- The runs of a system that goes on inside another one as it would by itself. -/
theorem reach_embed_iff {τ β : Type*} {step₁ : σ → α → Option σ} {step₂ : τ → β → Option τ} (f : σ → τ)
    (hinto : ∀ s a s', step₁ s a = some s' → ∃ b, step₂ (f s) b = some (f s'))
    (honto : ∀ s b y, step₂ (f s) b = some y → ∃ a s', y = f s' ∧ step₁ s a = some s') {s : σ} {y : τ} :
    Reach step₂ (f s) y ↔ ∃ s', y = f s' ∧ Reach step₁ s s' := by
  constructor
  · intro h
    refine h.invariant (P := fun y => ∃ s', y = f s' ∧ Reach step₁ s s') ⟨s, rfl, Reach.refl _ _⟩ fun u b v hu hb => ?_
    obtain ⟨s', rfl, hr⟩ := hu
    obtain ⟨a, s'', rfl, ha⟩ := honto s' b v hb
    exact ⟨s'', rfl, hr.tail ha⟩
  · rintro ⟨s', rfl, hr⟩
    refine hr.invariant (P := fun s' => Reach step₂ (f s) (f s')) (Reach.refl _ _) fun u a v hu ha => ?_
    obtain ⟨b, hb⟩ := hinto u a v ha
    exact hu.tail hb

theorem Ends.embed {τ β : Type*} {step₁ : σ → α → Option σ} {step₂ : τ → β → Option τ} (f : σ → τ)
    (hinto : ∀ s a s', step₁ s a = some s' → ∃ b, step₂ (f s) b = some (f s'))
    (honto : ∀ s b y, step₂ (f s) b = some y → ∃ a s', y = f s' ∧ step₁ s a = some s') {s : σ} {Q : σ → Prop}
    (h : Ends step₁ s Q) : Ends step₂ (f s) fun y => ∃ s', y = f s' ∧ Reach step₁ s s' ∧ Q s' := by
  have hterm : ∀ s, Terminates step₁ s → Terminates step₂ (f s) := by
    intro s hs
    induction hs with
    | intro s _ ih =>
      refine Acc.intro _ fun y hy => ?_
      obtain ⟨b, hb⟩ := hy
      obtain ⟨a, s', rfl, ha⟩ := honto s b y hb
      exact ih s' ⟨a, ha⟩
  refine ⟨hterm s h.1, fun y hy hn => ?_⟩
  obtain ⟨s', rfl, hr⟩ := (reach_embed_iff f hinto honto).mp hy
  refine ⟨s', rfl, hr, h.2 s' hr fun a => ?_⟩
  rw [Option.eq_none_iff_forall_ne_some]
  intro s'' ha
  obtain ⟨b, hb⟩ := hinto s' a s'' ha
  rw [hn] at hb
  cases hb

/-! ## Systems with more in the state -/

section Project
variable {τ β : Type*} {step₁ : σ → α → Option σ} {step₂ : τ → β → Option τ} {f : τ → σ} {x y : τ}

/-- What a run of the larger system leaves of its state is a run of the smaller one. -/
theorem Reach.project (hproj : ∀ x b y, step₂ x b = some y → ∃ a, step₁ (f x) a = some (f y)) (h : Reach step₂ x y) :
    Reach step₁ (f x) (f y) := by
  refine h.invariant (P := fun y => Reach step₁ (f x) (f y)) (Reach.refl _ _) fun u b v hu hb => ?_
  obtain ⟨a, ha⟩ := hproj u b v hb
  exact hu.tail ha

/-- Total correctness of the smaller system is that of the larger one, when it is stuck no sooner. -/
theorem Ends.lift (hproj : ∀ x b y, step₂ x b = some y → ∃ a, step₁ (f x) a = some (f y))
    (hlift : ∀ x a s, step₁ (f x) a = some s → ∃ b y, step₂ x b = some y) {Q : σ → Prop} (h : Ends step₁ (f x) Q) :
    Ends step₂ x fun y => Q (f y) := by
  have hterm : ∀ s, Terminates step₁ s → ∀ x, f x = s → Terminates step₂ x := by
    intro s hs
    induction hs with
    | intro s _ ih =>
      intro x hx
      subst hx
      refine Acc.intro _ fun y hy => ?_
      obtain ⟨b, hb⟩ := hy
      exact ih (f y) (hproj x b y hb) y rfl
  refine ⟨hterm (f x) h.1 x rfl, fun y hy hn => h.2 (f y) (hy.project hproj) fun a => ?_⟩
  rw [Option.eq_none_iff_forall_ne_some]
  intro s hs
  obtain ⟨b, z, hz⟩ := hlift y a s hs
  rw [hn] at hz
  cases hz

end Project

/-! ## One system after another -/

inductive SeqAct (α β : Type*)
  | first (a : α)
  | enter
  | second (b : β)

section Seq
variable {τ β : Type*}

/-- The first system, and after it the second, begun where `enter` says. -/
def andThen (step₁ : σ → α → Option σ) (enter : σ → Option τ) (step₂ : τ → β → Option τ) :
    σ ⊕ τ → SeqAct α β → Option (σ ⊕ τ)
  | .inl s, .first a => (step₁ s a).map .inl
  | .inl s, .enter => (enter s).map .inr
  | .inr t, .second b => (step₂ t b).map .inr
  | _, _ => none

variable {step₁ : σ → α → Option σ} {enter : σ → Option τ} {step₂ : τ → β → Option τ} {s : σ} {t : τ}

theorem step_inl {x : σ ⊕ τ} (h : Step (andThen step₁ enter step₂) (.inl s) x) :
    (∃ s', x = .inl s' ∧ Step step₁ s s') ∨ ∃ t, x = .inr t ∧ enter s = some t := by
  obtain ⟨a, ha⟩ := h
  cases a with
  | first a =>
    obtain ⟨s', hs', rfl⟩ := Option.map_eq_some_iff.mp ha
    exact Or.inl ⟨s', rfl, a, hs'⟩
  | enter =>
    obtain ⟨t, ht, rfl⟩ := Option.map_eq_some_iff.mp ha
    exact Or.inr ⟨t, rfl, ht⟩
  | second b => cases ha

theorem step_inr {x : σ ⊕ τ} (h : Step (andThen step₁ enter step₂) (.inr t) x) :
    ∃ t', x = .inr t' ∧ Step step₂ t t' := by
  obtain ⟨a, ha⟩ := h
  cases a with
  | first a => cases ha
  | enter => cases ha
  | second b =>
    obtain ⟨t', ht', rfl⟩ := Option.map_eq_some_iff.mp ha
    exact ⟨t', rfl, b, ht'⟩

theorem reach_andThen {x : σ ⊕ τ} (h : Reach (andThen step₁ enter step₂) (.inl s) x) :
    (∃ s', x = .inl s' ∧ Reach step₁ s s') ∨
      ∃ s' t t', x = .inr t' ∧ Reach step₁ s s' ∧ enter s' = some t ∧ Reach step₂ t t' := by
  induction h with
  | refl => exact Or.inl ⟨s, rfl, Reach.refl step₁ s⟩
  | tail _ hx ih =>
    rcases ih with ⟨s', rfl, hs'⟩ | ⟨s', t, t', rfl, hs', ht, ht'⟩
    · rcases step_inl hx with ⟨s'', rfl, hstep⟩ | ⟨t, rfl, ht⟩
      · exact Or.inl ⟨s'', rfl, Relation.ReflTransGen.tail hs' hstep⟩
      · exact Or.inr ⟨s', t, t, rfl, hs', ht, Reach.refl step₂ t⟩
    · obtain ⟨t'', rfl, hstep⟩ := step_inr hx
      exact Or.inr ⟨s', t, t'', rfl, hs', ht, Relation.ReflTransGen.tail ht' hstep⟩

theorem Reach.inl {s' : σ} (h : Reach step₁ s s') : Reach (andThen step₁ enter step₂) (.inl s) (.inl s') := by
  induction h with
  | refl => exact Reach.refl _ _
  | tail _ hs ih =>
    obtain ⟨a, ha⟩ := hs
    exact ih.tail (a := .first a) (Option.map_eq_some_iff.mpr ⟨_, ha, rfl⟩)

theorem Reach.inr {t' : τ} (h : Reach step₂ t t') : Reach (andThen step₁ enter step₂) (.inr t) (.inr t') := by
  induction h with
  | refl => exact Reach.refl _ _
  | tail _ hs ih =>
    obtain ⟨b, hb⟩ := hs
    exact ih.tail (a := .second b) (Option.map_eq_some_iff.mpr ⟨_, hb, rfl⟩)

/-- A run of the first system, and after it one of the second. -/
theorem Reach.andThen {s' : σ} {t' : τ} (h : Reach step₁ s s') (ht : enter s' = some t) (h' : Reach step₂ t t') :
    Reach (Interleaving.andThen step₁ enter step₂) (.inl s) (.inr t') := by
  have henter : Interleaving.andThen step₁ enter step₂ (.inl s') .enter = some (.inr t) :=
    Option.map_eq_some_iff.mpr ⟨t, ht, rfl⟩
  exact (h.inl.tail henter).trans h'.inr

theorem Terminates.inr (h : Terminates step₂ t) : Terminates (andThen step₁ enter step₂) (.inr t) := by
  induction h with
  | intro t _ ih =>
    refine Acc.intro _ fun x hx => ?_
    obtain ⟨t', rfl, hstep⟩ := step_inr hx
    exact ih t' hstep

theorem Terminates.andThen (h : Terminates step₁ s)
    (hsecond : ∀ s' t, Reach step₁ s s' → enter s' = some t → Terminates step₂ t) :
    Terminates (Interleaving.andThen step₁ enter step₂) (.inl s) := by
  have hterm : ∀ s', Terminates step₁ s' → Reach step₁ s s' →
      Terminates (Interleaving.andThen step₁ enter step₂) (.inl s') := by
    intro s' hs'
    induction hs' with
    | intro s' _ ih =>
      intro hr
      refine Acc.intro _ fun x hx => ?_
      rcases step_inl hx with ⟨s'', rfl, hstep⟩ | ⟨t, rfl, ht⟩
      · exact ih s'' hstep (Relation.ReflTransGen.tail hr hstep)
      · exact (hsecond s' t hr ht).inr
  exact hterm s h (Reach.refl step₁ s)

/-- The two, where the first may also stop for good. -/
theorem Ends.andThen_or {Q : σ → Prop} {R : σ → τ → Prop} (h : Ends step₁ s Q)
    (hsecond : ∀ s' t, Reach step₁ s s' → enter s' = some t → Ends step₂ t (R s')) :
    Ends (Interleaving.andThen step₁ enter step₂) (.inl s) fun x =>
      (∃ s', x = .inl s' ∧ Reach step₁ s s' ∧ Q s' ∧ enter s' = none) ∨
        ∃ s' t₀ t, x = .inr t ∧ Reach step₁ s s' ∧ enter s' = some t₀ ∧ Reach step₂ t₀ t ∧ R s' t := by
  refine ⟨h.1.andThen fun s' t hr ht => (hsecond s' t hr ht).1, fun x hx hn => ?_⟩
  rcases reach_andThen hx with ⟨s', rfl, hs'⟩ | ⟨s', t, t', rfl, hs', ht, ht'⟩
  · have hstuck : ∀ a, step₁ s' a = none := fun a => Option.map_eq_none_iff.mp (hn (.first a))
    exact Or.inl ⟨s', rfl, hs', h.2 s' hs' hstuck, Option.map_eq_none_iff.mp (hn .enter)⟩
  · have hstuck : ∀ b, step₂ t' b = none := fun b => Option.map_eq_none_iff.mp (hn (.second b))
    exact Or.inr ⟨s', t, t', rfl, hs', ht, ht', (hsecond s' t hs' ht).2 t' ht' hstuck⟩

/-- Total correctness of the two, from that of the first and that of the second wherever it may begin. -/
theorem Ends.andThen {Q : σ → Prop} {R : σ → τ → Prop} (h : Ends step₁ s Q)
    (henter : ∀ s', Reach step₁ s s' → Q s' → enter s' ≠ none)
    (hsecond : ∀ s' t, Reach step₁ s s' → enter s' = some t → Ends step₂ t (R s')) :
    Ends (Interleaving.andThen step₁ enter step₂) (.inl s) fun x =>
      ∃ s' t, x = .inr t ∧ Reach step₁ s s' ∧ enter s' ≠ none ∧ R s' t := by
  refine (h.andThen_or hsecond).mono fun x _ hx => ?_
  rcases hx with ⟨s', -, hs', hQ, hnone⟩ | ⟨s', t₀, t, rfl, hs', ht, -, hR⟩
  · exact absurd hnone (henter s' hs' hQ)
  · exact ⟨s', t, rfl, hs', by rw [ht]; exact Option.some_ne_none t₀, hR⟩

end Seq

/-! ## A family of systems -/

section Indexed
variable {ι : Type*} {step : ι → σ → α → Option σ} {i : ι} {s : σ}

/-- A family of systems as one system, whose states carry the index they belong to. -/
def indexed (step : ι → σ → α → Option σ) (p : ι × σ) (a : α) : Option (ι × σ) :=
  (step p.1 p.2 a).map fun s => (p.1, s)

theorem indexed_into (s : σ) (a : α) (s' : σ) (h : step i s a = some s') : ∃ b, indexed step (i, s) b = some (i, s') :=
  ⟨a, Option.map_eq_some_iff.mpr ⟨s', h, rfl⟩⟩

theorem indexed_onto (s : σ) (b : α) (y : ι × σ) (h : indexed step (i, s) b = some y) :
    ∃ a s', y = (i, s') ∧ step i s a = some s' := by
  obtain ⟨s', hs', rfl⟩ := Option.map_eq_some_iff.mp h
  exact ⟨b, s', rfl, hs'⟩

theorem reach_indexed_iff {y : ι × σ} : Reach (indexed step) (i, s) y ↔ ∃ s', y = (i, s') ∧ Reach (step i) s s' :=
  reach_embed_iff (Prod.mk i) indexed_into indexed_onto

theorem Ends.indexed (step : ι → σ → α → Option σ) (i : ι) {Q : σ → Prop} (h : Ends (step i) s Q) :
    Ends (Interleaving.indexed step) (i, s) fun y => y.1 = i ∧ Q y.2 := by
  refine (h.embed (Prod.mk i) indexed_into indexed_onto).mono fun y _ hy => ?_
  obtain ⟨s', rfl, -, hQ⟩ := hy
  exact ⟨rfl, hQ⟩

end Indexed

/-! ## Runs that stay inside a condition -/

/-- The system without the actions that would leave `ok`. -/
def within (ok : σ → Bool) (step : σ → α → Option σ) (s : σ) (a : α) : Option σ := (step s a).filter ok

theorem within_eq_some {ok : σ → Bool} {step : σ → α → Option σ} {s t : σ} {a : α} :
    within ok step s a = some t ↔ step s a = some t ∧ ok t = true := by
  simp only [within, Option.filter_eq_some_iff]

theorem Reach.of_within {ok : σ → Bool} {step : σ → α → Option σ} {s t : σ}
    (h : Reach (within ok step) s t) : Reach step s t :=
  h.invariant (Reach.refl step s) fun _ _ _ hu ha => hu.tail (within_eq_some.mp ha).1

/-- A condition on the second of two systems, which the second meets where it begins. -/
theorem within_andThen {τ β : Type*} {step₁ : σ → α → Option σ} {enter : σ → Option τ} {step₂ : τ → β → Option τ}
    {ok : σ ⊕ τ → Bool} {ok₂ : τ → Bool} (hfirst : ∀ s, ok (.inl s) = true) (hsecond : ∀ t, ok (.inr t) = ok₂ t)
    (henter : ∀ s t, enter s = some t → ok₂ t = true) :
    within ok (andThen step₁ enter step₂) = andThen step₁ enter (within ok₂ step₂) := by
  funext x a
  cases x with
  | inl s =>
    cases a with
    | first a => cases h : step₁ s a <;> simp [within, andThen, h, hfirst]
    | enter =>
      cases h : enter s with
      | none => simp [within, andThen, h]
      | some t => simp [within, andThen, h, hsecond, henter s t h]
    | second b => rfl
  | inr t =>
    cases a with
    | first a => rfl
    | enter => rfl
    | second b =>
      cases h : step₂ t b with
      | none => simp [within, andThen, h]
      | some t' => cases hok : ok₂ t' <;> simp [within, andThen, h, hsecond, hok, Option.filter]

theorem within_indexed {ι : Type*} {step : ι → σ → α → Option σ} (ok : σ → Bool) :
    within (fun y : ι × σ => ok y.2) (indexed step) = indexed fun i => within ok (step i) := by
  funext x a
  cases h : step x.1 x.2 a with
  | none => simp [within, indexed, h]
  | some s => cases hok : ok s <;> simp [within, indexed, h, hok, Option.filter]

/-- The system without the actions that do not meet `ok` where they are taken. -/
def provided (ok : σ → α → Bool) (step : σ → α → Option σ) (s : σ) (a : α) : Option σ :=
  if ok s a then step s a else none

theorem provided_eq_some {ok : σ → α → Bool} {step : σ → α → Option σ} {s t : σ} {a : α} :
    provided ok step s a = some t ↔ ok s a = true ∧ step s a = some t := by
  unfold provided
  split
  · rename_i h
    simp only [h, true_and]
  · rename_i h
    simp only [h, reduceCtorEq, false_and]

theorem Reach.of_provided {ok : σ → α → Bool} {step : σ → α → Option σ} {s t : σ}
    (h : Reach (provided ok step) s t) : Reach step s t :=
  h.invariant (Reach.refl step s) fun _ _ _ hu ha => hu.tail (provided_eq_some.mp ha).2

/-! ## Runs with a record -/

section Logged
variable {β : Type*} {obs : σ → α → List β} {step : σ → α → Option σ}

/-- The system that also records what `obs` sees of each step. -/
def logged (obs : σ → α → List β) (step : σ → α → Option σ) (p : σ × List β) (a : α) : Option (σ × List β) :=
  (step p.1 a).map fun t => (t, p.2 ++ obs p.1 a)

theorem logged_eq_some {p q : σ × List β} {a : α} :
    logged obs step p a = some q ↔ step p.1 a = some q.1 ∧ q.2 = p.2 ++ obs p.1 a := by
  obtain ⟨t, l⟩ := q
  simp only [logged, Option.map_eq_some_iff, Prod.mk.injEq]
  constructor
  · rintro ⟨t, ht, rfl, rfl⟩
    exact ⟨ht, rfl⟩
  · rintro ⟨ht, rfl⟩
    exact ⟨t, ht, rfl, rfl⟩

theorem Reach.logged {s t : σ} (h : Reach step s t) (obs : σ → α → List β) (l : List β) :
    ∃ l', Reach (Interleaving.logged obs step) (s, l) (t, l') := by
  induction h with
  | refl => exact ⟨l, Reach.refl _ _⟩
  | @tail u v _ hs ih =>
    obtain ⟨a, ha⟩ := hs
    obtain ⟨l', hl'⟩ := ih
    exact ⟨l' ++ obs u a, hl'.tail (a := a) (logged_eq_some.mpr ⟨ha, rfl⟩)⟩

end Logged

end GraphBenchmark.Interleaving
