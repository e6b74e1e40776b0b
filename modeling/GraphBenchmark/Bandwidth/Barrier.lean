import GraphBenchmark.Model.Barrier
import GraphBenchmark.Foundations.Tally

/-! # The barrier without spurious wake-ups

The calls come in rounds. In round `R` every thread has returned `R` times or is on its way out of its last call of
round `R - 1`; a round ends at the broadcast, when all threads are pending. -/
namespace GraphBenchmark
open Interleaving Tally
set_option autoImplicit false

namespace CrossPc

def inCall : CrossPc → Bool
  | .outside => false
  | _ => true

/-- The thread owns the mutex. -/
def holds : CrossPc → Bool
  | .inc | .test | .wait | .broadcast | .reset | .unlock => true
  | _ => false

/-- The thread has counted itself and its round has not ended. -/
def pending : CrossPc → Bool
  | .test | .wait | .blocked | .broadcast => true
  | _ => false

/-- The round has ended and the thread has not returned. -/
def passed : CrossPc → Bool
  | .woken | .reset | .unlock => true
  | _ => false

end CrossPc

section Goto
variable (s : BarrierState) (t : ℕ) (p : CrossPc)

@[simp] theorem goto_pc : (s.goto t p).pc = Function.update s.pc t p := rfl
@[simp] theorem goto_count : (s.goto t p).count = s.count := rfl
@[simp] theorem goto_crossed : (s.goto t p).crossed = s.crossed := rfl
@[simp] theorem goto_holder : (s.goto t p).holder = s.holder := rfl
@[simp] theorem goto_started : (s.goto t p).started = s.started := rfl
@[simp] theorem goto_returned : (s.goto t p).returned = s.returned := rfl

end Goto

/-! ## Moves -/

/-- What a step of thread `t` inside `barrier_cross` can do. -/
inductive CrossMove (s : BarrierState) (t : ℕ) : BarrierState → Prop
  | lock (hpc : s.pc t = .lock) (hfree : s.holder = none) : CrossMove s t { s.goto t .inc with holder := some t }
  | inc (hpc : s.pc t = .inc) : CrossMove s t { s.goto t .test with crossed := s.crossed + 1 }
  | few (hpc : s.pc t = .test) (hlt : s.crossed < s.count) : CrossMove s t (s.goto t .wait)
  | all (hpc : s.pc t = .test) (hge : s.count ≤ s.crossed) : CrossMove s t (s.goto t .broadcast)
  | wait (hpc : s.pc t = .wait) : CrossMove s t { s.goto t .blocked with holder := none }
  | woken (hpc : s.pc t = .woken) (hfree : s.holder = none) :
    CrossMove s t { s.goto t .unlock with holder := some t }
  | broadcast (hpc : s.pc t = .broadcast) :
    CrossMove s t
      { s with pc := Function.update (fun u => if s.pc u = .blocked then .woken else s.pc u) t .reset }
  | reset (hpc : s.pc t = .reset) : CrossMove s t { s.goto t .unlock with crossed := 0 }
  | unlock (hpc : s.pc t = .unlock) :
    CrossMove s t
      { s.goto t .outside with holder := none, returned := Function.update s.returned t (s.returned t + 1) }

section Moves
variable {s s' : BarrierState} {t : ℕ}

theorem cross_move (h : s.cross t = some s') : CrossMove s t s' := by
  unfold BarrierState.cross at h
  split at h
  · cases h
  · rename_i hpc
    split at h
    · rename_i hfree
      exact Option.some.inj h ▸ .lock hpc hfree
    · cases h
  · rename_i hpc
    exact Option.some.inj h ▸ .inc hpc
  · rename_i hpc
    split at h
    · rename_i hlt
      exact Option.some.inj h ▸ .few hpc hlt
    · rename_i hge
      exact Option.some.inj h ▸ .all hpc (not_lt.mp hge)
  · rename_i hpc
    exact Option.some.inj h ▸ .wait hpc
  · cases h
  · rename_i hpc
    split at h
    · rename_i hfree
      exact Option.some.inj h ▸ .woken hpc hfree
    · cases h
  · rename_i hpc
    exact Option.some.inj h ▸ .broadcast hpc
  · rename_i hpc
    exact Option.some.inj h ▸ .reset hpc
  · rename_i hpc
    exact Option.some.inj h ▸ .unlock hpc

theorem start_eq_some (h : s.start t = some s') :
    s.pc t = .outside ∧
      s' = { s.goto t .lock with started := Function.update s.started t (s.started t + 1) } := by
  unfold BarrierState.start at h
  split at h
  · rename_i hpc
    exact ⟨hpc, (Option.some.inj h).symm⟩
  · cases h

end Moves

/-! ## The rounds -/

/-- The barrier in round `R` of `n` threads. -/
structure InRound (n R : ℕ) (s : BarrierState) : Prop where
  count : s.count = n
  idle : ∀ t, n ≤ t → s.pc t = .outside
  holder : ∀ t, s.holder = some t ↔ (s.pc t).holds = true
  started : ∀ t < n, s.started t = s.returned t + (s.pc t).inCall.toNat
  returned : ∀ t < n, s.returned t + (s.pc t).passed.toNat = R
  crossed : (∀ t, s.pc t ≠ .reset) → s.crossed = tally n CrossPc.pending s.pc
  broadcast : ∀ t, s.pc t = .broadcast → tally n CrossPc.pending s.pc = n
  reset : ∀ t, s.pc t = .reset → tally n CrossPc.pending s.pc = 0

theorem inRound_init (n : ℕ) : InRound n 0 (barrierInit n) where
  count := rfl
  idle := fun _ _ => rfl
  holder := fun _ => by simp [barrierInit, CrossPc.holds]
  started := fun _ _ => rfl
  returned := fun _ _ => rfl
  crossed := fun _ => (Int.natCast_eq_zero.mpr (tally_eq_zero_iff.mpr fun _ _ => rfl)).symm
  broadcast := fun _ h => by cases h
  reset := fun _ h => by cases h

section Rounds
variable {n R : ℕ} {s s' : BarrierState} {t : ℕ}

theorem InRound.lt (h : InRound n R s) (ht : s.pc t ≠ .outside) : t < n := by
  by_contra hge
  exact ht (h.idle t (not_lt.mp hge))

theorem InRound.unique (h : InRound n R s) {u : ℕ} (ht : (s.pc t).holds = true) (hu : (s.pc u).holds = true) :
    t = u := by
  have heq := (h.holder t).mpr ht
  rw [(h.holder u).mpr hu] at heq
  exact (Option.some.inj heq).symm

theorem ne_of_update {pc : ℕ → CrossPc} {p q : CrossPc} (hpc : pc t ≠ q)
    (h : ∀ u, Function.update pc t p u ≠ q) (u : ℕ) : pc u ≠ q := by
  by_cases hut : u = t
  · rwa [hut]
  · have hu := h u
    rwa [Function.update_of_ne hut] at hu

theorem InRound.start (h : InRound n R s) (ht : t < n) (hstart : s.start t = some s') : InRound n R s' := by
  obtain ⟨hpc, rfl⟩ := start_eq_some hstart
  have hsame : tally n CrossPc.pending (Function.update s.pc t .lock) = tally n CrossPc.pending s.pc :=
    tally_update_same (by rw [hpc]; rfl)
  constructor <;> simp only [BarrierState.goto, hsame]
  · exact h.count
  · grind [h.idle]
  · have := h.holder
    grind [CrossPc.holds]
  · have := h.started
    grind [CrossPc.inCall]
  · have := h.returned
    grind [CrossPc.passed]
  · exact fun hne => h.crossed (ne_of_update (by rw [hpc]; simp) hne)
  · have := h.broadcast
    grind
  · have := h.reset
    grind

/-- A step that only moves one thread keeps the round, if what the thread has done and owns afterwards fits its place
and the counter still fits the tally. -/
theorem InRound.move {p : CrossPc} (h : InRound n R s) (hpc : s'.pc = Function.update s.pc t p)
    (hstep : s.pc t ≠ .outside) (hcount : s'.count = s.count) (hstarted : s'.started = s.started)
    (hreturned : ∀ u, u ≠ t → s'.returned u = s.returned u)
    (hown : s'.holder = some t ↔ p.holds = true)
    (hother : ∀ u, u ≠ t → (s'.holder = some u ↔ s.holder = some u))
    (hcall : s'.returned t + p.inCall.toNat = s.returned t + (s.pc t).inCall.toNat)
    (hpassed : s'.returned t + p.passed.toNat = s.returned t + (s.pc t).passed.toNat)
    (hcrossed : (∀ u, s'.pc u ≠ .reset) → s'.crossed = tally n CrossPc.pending s'.pc)
    (hbroadcast : ∀ u, s'.pc u = .broadcast → tally n CrossPc.pending s'.pc = n)
    (hreset : ∀ u, s'.pc u = .reset → tally n CrossPc.pending s'.pc = 0) : InRound n R s' := by
  have hlt := h.lt hstep
  refine ⟨hcount.trans h.count, fun u hu => ?_, fun u => ?_, fun u hu => ?_, fun u hu => ?_, hcrossed, hbroadcast,
    hreset⟩
  · rw [hpc, Function.update_of_ne (by omega)]
    exact h.idle u hu
  · by_cases hut : u = t
    · rw [hut, hpc, Function.update_self, hown]
    · rw [hpc, Function.update_of_ne hut, hother u hut, h.holder u]
  · have hs := h.started u hu
    by_cases hut : u = t
    · subst hut
      rw [hstarted, hpc, Function.update_self, hs, hcall]
    · rw [hstarted, hpc, Function.update_of_ne hut, hs, hreturned u hut]
  · have hr := h.returned u hu
    by_cases hut : u = t
    · subst hut
      rw [hpc, Function.update_self, hpassed, hr]
    · rw [hpc, Function.update_of_ne hut, hreturned u hut, hr]

theorem InRound.quiet {p : CrossPc} (h : InRound n R s) (hpc : s'.pc = Function.update s.pc t p)
    (hstep : s.pc t ≠ .outside) (hnot : s.pc t ≠ .reset) (hbroad : p ≠ .broadcast) (hres : p ≠ .reset)
    (hpending : p.pending = (s.pc t).pending) (hcount : s'.count = s.count) (hcrossed : s'.crossed = s.crossed)
    (hstarted : s'.started = s.started) (hreturned : ∀ u, u ≠ t → s'.returned u = s.returned u)
    (hown : s'.holder = some t ↔ p.holds = true)
    (hother : ∀ u, u ≠ t → (s'.holder = some u ↔ s.holder = some u))
    (hcall : s'.returned t + p.inCall.toNat = s.returned t + (s.pc t).inCall.toNat)
    (hpassed : s'.returned t + p.passed.toNat = s.returned t + (s.pc t).passed.toNat) : InRound n R s' := by
  have hsame : tally n CrossPc.pending s'.pc = tally n CrossPc.pending s.pc := by
    rw [hpc, tally_update_same hpending]
  have hback : ∀ u q, p ≠ q → s'.pc u = q → s.pc u = q := by
    intro u q hp hu
    by_cases hut : u = t
    · rw [hpc, hut, Function.update_self] at hu
      exact absurd hu hp
    · rwa [hpc, Function.update_of_ne hut] at hu
  refine h.move hpc hstep hcount hstarted hreturned hown hother hcall hpassed ?_ ?_ ?_ <;> rw [hsame]
  · intro hne
    rw [hcrossed]
    exact h.crossed (ne_of_update hnot (hpc ▸ hne))
  · exact fun u hu => h.broadcast u (hback u _ hbroad hu)
  · exact fun u hu => h.reset u (hback u _ hres hu)

/-- The thread that owns the mutex sees the counter as the tally, unless it stands before `crossed = 0`. -/
theorem InRound.crossed_of_holds (h : InRound n R s) (ht : (s.pc t).holds = true) (hne : s.pc t ≠ .reset) :
    s.crossed = tally n CrossPc.pending s.pc := by
  refine h.crossed fun u hu => hne ?_
  rw [h.unique ht (by rw [hu]; rfl), hu]

/-- At the broadcast all threads are pending, and only one of them owns the mutex. -/
theorem InRound.blocked_of_broadcast (h : InRound n R s) (hpc : s.pc t = .broadcast) {u : ℕ} (hu : u < n)
    (hut : u ≠ t) : s.pc u = .blocked := by
  have hpend := tally_eq_iff.mp (h.broadcast t hpc) u hu
  have hnot : (s.pc u).holds ≠ true := fun hu' => hut (h.unique hu' (by rw [hpc]; rfl))
  cases hq : s.pc u <;> rw [hq] at hpend hnot <;> first | rfl | exact absurd rfl hnot | cases hpend

theorem InRound.broadcast_next (h : InRound n R s) (hpc : s.pc t = .broadcast)
    (hs' : s' =
      { s with pc := Function.update (fun u => if s.pc u = .blocked then .woken else s.pc u) t .reset }) :
    InRound n (R + 1) s' := by
  have hholds : (s.pc t).holds = true := by rw [hpc]; rfl
  have hholder : s'.holder = s.holder := by rw [hs']
  have hstarted : s'.started = s.started := by rw [hs']
  have hreturned : s'.returned = s.returned := by rw [hs']
  have hblocked : ∀ u < n, u ≠ t → s.pc u = .blocked := fun u hu hut => h.blocked_of_broadcast hpc hu hut
  have hpc' : s'.pc = Function.update (fun u => if s.pc u = .blocked then .woken else s.pc u) t .reset := by rw [hs']
  have htop : s'.pc t = .reset := by rw [hpc', Function.update_self]
  have hwoken : ∀ u < n, u ≠ t → s'.pc u = .woken := by
    intro u hu hut
    rw [hpc', Function.update_of_ne hut, if_pos (hblocked u hu hut)]
  have hidle : ∀ u, n ≤ u → s'.pc u = .outside := by
    intro u hu
    have hlt := h.lt (t := t) (by rw [hpc]; simp)
    rw [hpc', Function.update_of_ne (by omega), h.idle u hu, if_neg (by simp)]
  have hcases : ∀ u, u = t ∨ (u < n ∧ s'.pc u = .woken) ∨ s'.pc u = .outside := by
    intro u
    by_cases hut : u = t
    · exact Or.inl hut
    · rcases Nat.lt_or_ge u n with hu | hu
      · exact Or.inr (Or.inl ⟨hu, hwoken u hu hut⟩)
      · exact Or.inr (Or.inr (hidle u hu))
  have hnone : tally n CrossPc.pending s'.pc = 0 := by
    refine tally_eq_zero_iff.mpr fun u _ => ?_
    rcases hcases u with rfl | ⟨-, hu⟩ | hu
    · rw [htop]; rfl
    · rw [hu]; rfl
    · rw [hu]; rfl
  refine ⟨by rw [hs']; exact h.count, hidle, fun u => ?_, fun u hu => ?_, fun u hu => ?_, fun hne => absurd htop (hne t),
    fun u hu => ?_, fun _ _ => hnone⟩
  · by_cases hut : u = t
    · rw [hut, htop, hholder]
      exact iff_of_true ((h.holder t).mpr hholds) rfl
    · have hother : s'.holder ≠ some u := by
        rw [hholder]
        exact fun hu => hut (h.unique ((h.holder u).mp hu) hholds)
      refine iff_of_false hother ?_
      rcases hcases u with heq | ⟨-, hu⟩ | hu
      · exact absurd heq hut
      · rw [hu]; simp [CrossPc.holds]
      · rw [hu]; simp [CrossPc.holds]
  · have hs := h.started u hu
    rw [hstarted, hreturned, hs]
    by_cases hut : u = t
    · rw [hut, htop, hpc]; rfl
    · rw [hwoken u hu hut, hblocked u hu hut]; rfl
  · have hr := h.returned u hu
    rw [hreturned, ← hr]
    by_cases hut : u = t
    · rw [hut, htop, hpc]; rfl
    · rw [hwoken u hu hut, hblocked u hu hut]; rfl
  · rcases hcases u with rfl | ⟨-, hu'⟩ | hu'
    · rw [htop] at hu; cases hu
    · rw [hu'] at hu; cases hu
    · rw [hu'] at hu; cases hu

/-- When the owner of the mutex moves to `p`, no thread stands at another place that takes the mutex. -/
theorem InRound.update_ne (h : InRound n R s) (ht : (s.pc t).holds = true) {p q : CrossPc} (hq : q.holds = true)
    (hpq : p ≠ q) (u : ℕ) : Function.update s.pc t p u ≠ q := by
  by_cases hut : u = t
  · rwa [hut, Function.update_self]
  · rw [Function.update_of_ne hut]
    intro hu
    exact hut (h.unique ht (by rw [hu]; exact hq)).symm

theorem InRound.cross_inc (h : InRound n R s) (hpc : s.pc t = .inc) :
    InRound n R { s.goto t .test with crossed := s.crossed + 1 } := by
  have hholds : (s.pc t).holds = true := by rw [hpc]; rfl
  have hgain : tally n CrossPc.pending (Function.update s.pc t .test) = tally n CrossPc.pending s.pc + 1 :=
    tally_update_gain (h.lt (by rw [hpc]; simp)) rfl (by rw [hpc]; rfl)
  apply h.move (t := t) (p := .test) rfl
  · simp [hpc]
  · rfl
  · rfl
  · exact fun _ _ => rfl
  · simp [(h.holder t).mpr hholds, CrossPc.holds]
  · exact fun _ _ => Iff.rfl
  · rw [hpc]; rfl
  · rw [hpc]; rfl
  · intro _
    show s.crossed + 1 = (tally n CrossPc.pending (Function.update s.pc t .test) : ℤ)
    rw [hgain, h.crossed_of_holds hholds (by rw [hpc]; simp), Int.natCast_add]
    rfl
  · exact fun u hu => absurd hu (h.update_ne hholds rfl (by simp) u)
  · exact fun u hu => absurd hu (h.update_ne hholds rfl (by simp) u)

/-- Only the last thread to count itself goes on to the broadcast. -/
theorem InRound.cross_all (h : InRound n R s) (hpc : s.pc t = .test) (hge : s.count ≤ s.crossed) :
    InRound n R (s.goto t .broadcast) := by
  have hholds : (s.pc t).holds = true := by rw [hpc]; rfl
  have hcrossed := h.crossed_of_holds hholds (by rw [hpc]; simp)
  have hsame : tally n CrossPc.pending (Function.update s.pc t .broadcast) = tally n CrossPc.pending s.pc :=
    tally_update_same (by rw [hpc]; rfl)
  have hfull : tally n CrossPc.pending s.pc = n := by
    have hle : tally n CrossPc.pending s.pc ≤ n := tally_le
    have hcount := h.count
    omega
  apply h.move (t := t) (p := .broadcast) rfl
  · simp [hpc]
  · rfl
  · rfl
  · exact fun _ _ => rfl
  · simp [(h.holder t).mpr hholds, CrossPc.holds]
  · exact fun _ _ => Iff.rfl
  · rw [hpc]; rfl
  · rw [hpc]; rfl
  · intro _
    show s.crossed = (tally n CrossPc.pending (Function.update s.pc t .broadcast) : ℤ)
    rw [hsame, hcrossed]
  · exact fun _ _ => hsame.trans hfull
  · exact fun u hu => absurd hu (h.update_ne hholds rfl (by simp) u)

theorem InRound.cross_reset (h : InRound n R s) (hpc : s.pc t = .reset) :
    InRound n R { s.goto t .unlock with crossed := 0 } := by
  have hholds : (s.pc t).holds = true := by rw [hpc]; rfl
  have hsame : tally n CrossPc.pending (Function.update s.pc t .unlock) = 0 :=
    (tally_update_same (by rw [hpc]; rfl)).trans (h.reset t hpc)
  apply h.move (t := t) (p := .unlock) rfl
  · simp [hpc]
  · rfl
  · rfl
  · exact fun _ _ => rfl
  · simp [(h.holder t).mpr hholds, CrossPc.holds]
  · exact fun _ _ => Iff.rfl
  · rw [hpc]; rfl
  · rw [hpc]; rfl
  · intro _
    show (0 : ℤ) = (tally n CrossPc.pending (Function.update s.pc t .unlock) : ℤ)
    rw [hsame]
    rfl
  · exact fun u hu => absurd hu (h.update_ne hholds rfl (by simp) u)
  · exact fun _ _ => hsame

theorem InRound.cross (h : InRound n R s) (hcross : s.cross t = some s') : InRound n R s' ∨ InRound n (R + 1) s' := by
  rcases cross_move hcross with ⟨hpc, hfree⟩ | hpc | ⟨hpc, hlt⟩ | ⟨hpc, hge⟩ | hpc | ⟨hpc, hfree⟩ | hpc | hpc | hpc
  · left
    apply h.quiet (t := t) (p := .inc) rfl <;>
      simp [hpc, hfree, CrossPc.pending, CrossPc.holds, CrossPc.inCall, CrossPc.passed, eq_comm]
  · exact Or.inl (h.cross_inc hpc)
  · left
    have hmine : s.holder = some t := (h.holder t).mpr (by rw [hpc]; rfl)
    apply h.quiet (t := t) (p := .wait) rfl <;>
      simp [hpc, hmine, CrossPc.pending, CrossPc.holds, CrossPc.inCall, CrossPc.passed]
  · exact Or.inl (h.cross_all hpc hge)
  · left
    have hmine : s.holder = some t := (h.holder t).mpr (by rw [hpc]; rfl)
    apply h.quiet (t := t) (p := .blocked) rfl <;>
      simp [hpc, hmine, CrossPc.pending, CrossPc.holds, CrossPc.inCall, CrossPc.passed, eq_comm]
  · left
    apply h.quiet (t := t) (p := .unlock) rfl <;>
      simp [hpc, hfree, CrossPc.pending, CrossPc.holds, CrossPc.inCall, CrossPc.passed, eq_comm]
  · exact Or.inr (h.broadcast_next hpc rfl)
  · exact Or.inl (h.cross_reset hpc)
  · left
    have hmine : s.holder = some t := (h.holder t).mpr (by rw [hpc]; rfl)
    apply h.quiet (t := t) (p := .outside) rfl <;>
      simp +contextual [hpc, hmine, CrossPc.pending, CrossPc.holds, CrossPc.inCall, CrossPc.passed, @eq_comm _ t]

/-- No thread has returned more often than another one has called. -/
theorem InRound.returned_le (h : InRound n R s) {u : ℕ} (ht : t < n) (hu : u < n) : s.returned t ≤ s.started u := by
  have hreturned := h.returned t ht
  have hpassed := h.returned u hu
  have hstarted := h.started u hu
  have hle : (s.pc u).passed.toNat ≤ (s.pc u).inCall.toNat := by cases s.pc u <;> decide
  omega

end Rounds

/-! ## Runs -/

/-- The step is not a spurious wake-up. -/
def BarrierAct.calm : BarrierAct → Bool
  | .wake _ => false
  | _ => true

theorem inRound_step {n : ℕ} {s s' : BarrierState} {a : BarrierAct} (h : ∃ R, InRound n R s) (ha : a.calm = true)
    (hstep : barrierCross n s a = some s') : ∃ R, InRound n R s' := by
  obtain ⟨R, h⟩ := h
  cases a with
  | start t =>
    simp only [barrierCross] at hstep
    split at hstep
    · rename_i ht
      exact ⟨R, h.start ht hstep⟩
    · cases hstep
  | cross t =>
    rcases h.cross hstep with hsame | hnext
    · exact ⟨R, hsame⟩
    · exact ⟨R + 1, hnext⟩
  | wake t => cases ha

theorem inRound_reach {n : ℕ} {s : BarrierState}
    (h : Reach (provided (fun _ a => BarrierAct.calm a) (barrierCross n)) (barrierInit n) s) : ∃ R, InRound n R s :=
  h.invariant ⟨0, inRound_init n⟩ fun _ _ _ hu ha =>
    let ⟨hcalm, hstep⟩ := provided_eq_some.mp ha
    inRound_step hu hcalm hstep

/-- Without spurious wake-ups a thread returns from its `k`-th call only after all threads have started theirs. -/
theorem barrier_separates (n : ℕ) (s : BarrierState)
    (h : Reach (provided (fun _ a => BarrierAct.calm a) (barrierCross n)) (barrierInit n) s) (t u k : ℕ) (ht : t < n)
    (hu : u < n) (hk : k ≤ s.returned t) : k ≤ s.started u := by
  obtain ⟨R, hR⟩ := inRound_reach h
  exact hk.trans (hR.returned_le ht hu)

/-- Two threads meet: the second to come releases both. -/
theorem barrier_separates_pair : ∃ s,
    Reach (provided (fun _ a => BarrierAct.calm a) (barrierCross 2)) (barrierInit 2) s ∧ 1 ≤ s.returned 1 ∧
      1 ≤ s.started 0 := by
  have hrun : ([.start 0, .start 1] ++ List.replicate 4 (.cross 0) ++ List.replicate 6 (.cross 1) : List BarrierAct).foldlM
      (provided (fun _ a => BarrierAct.calm a) (barrierCross 2)) (barrierInit 2) = some _ := rfl
  have hreach := Reach.of_foldlM hrun
  exact ⟨_, hreach, by decide, barrier_separates 2 _ hreach 1 0 1 (by decide) (by decide) (by decide)⟩

/-- One spurious wake-up lets a thread through alone: the wait is not repeated. -/
theorem not_barrier_separates_spurious : ¬ ∀ (n : ℕ) (s : BarrierState),
    Reach (barrierCross n) (barrierInit n) s → ∀ t u k, t < n → u < n → k ≤ s.returned t → k ≤ s.started u := by
  intro h
  have hrun : ([.start 0] ++ List.replicate 4 (.cross 0) ++ [.wake 0] ++ List.replicate 2 (.cross 0) : List BarrierAct).foldlM
      (barrierCross 2) (barrierInit 2) = some _ := rfl
  exact absurd (h 2 _ (Reach.of_foldlM hrun) 0 1 1 (by decide) (by decide) (by decide)) (by decide)

end GraphBenchmark
