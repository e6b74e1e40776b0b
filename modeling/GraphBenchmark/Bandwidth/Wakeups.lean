import GraphBenchmark.Bandwidth.Barrier
import Mathlib.Algebra.Order.BigOperators.Group.Finset

/-! # The barrier loses no wake-up

A thread goes to sleep only when it has seen that another one is still to come. So all threads are pending only while
one of them, the last to count itself, owns the mutex and has not broadcast yet. And as every step brings some thread
nearer to its last return, every run ends with all of them through. -/
namespace GraphBenchmark
open Interleaving Tally
set_option autoImplicit false

/-- The step of a program in which every thread calls `barrier_cross` `rounds` times, and not a spurious wake-up. -/
def BarrierAct.inProgram (rounds : ℕ) (s : BarrierState) : BarrierAct → Bool
  | .start t => decide (s.started t < rounds)
  | .cross _ => true
  | .wake _ => false

/-- `n` threads that call `barrier_cross` `rounds` times each. -/
def barrierRounds (n rounds : ℕ) : BarrierState → BarrierAct → Option BarrierState :=
  provided (BarrierAct.inProgram rounds) (barrierCross n)

/-- How many threads are blocked on the condition. -/
def BarrierState.blockedThreads (s : BarrierState) (n : ℕ) : ℕ := tally n (fun p => decide (p = CrossPc.blocked)) s.pc

/-- Not all threads wait, or the last of them is about to find out. -/
def Attended (n : ℕ) (s : BarrierState) : Prop :=
  tally n CrossPc.pending s.pc = n → ∃ t, s.pc t = .test ∨ s.pc t = .broadcast

variable {n rounds R t : ℕ} {s s' : BarrierState}

/-! ## Steps -/

theorem Attended.init (hn : 0 < n) : Attended n (barrierInit n) := by
  intro hfull
  have hnone : tally n CrossPc.pending (barrierInit n).pc = 0 := tally_eq_zero_iff.mpr fun _ _ => rfl
  omega

/-- A thread that neither counts itself nor leaves the place where it finds out changes nothing. -/
theorem Attended.quiet {p : CrossPc} (h : Attended n s) (hpc : s'.pc = Function.update s.pc t p)
    (hpending : p.pending = (s.pc t).pending) (htest : s.pc t ≠ .test) (hbroadcast : s.pc t ≠ .broadcast) :
    Attended n s' := by
  intro hfull
  rw [hpc, tally_update_same hpending] at hfull
  obtain ⟨u, hu⟩ := h hfull
  have hut : u ≠ t := by
    intro hut
    rw [hut] at hu
    exact hu.elim htest hbroadcast
  refine ⟨u, ?_⟩
  rwa [hpc, Function.update_of_ne hut]

theorem Attended.start (h : Attended n s) (hstart : s.start t = some s') : Attended n s' := by
  obtain ⟨hpc, rfl⟩ := start_eq_some hstart
  apply h.quiet (t := t) (p := .lock) rfl <;> simp [hpc, CrossPc.pending]

theorem Attended.cross (h : Attended n s) (hs : InRound n R s) (hn : 0 < n) (hcross : s.cross t = some s') :
    Attended n s' := by
  cases cross_move hcross with
  | lock hpc hfree => apply h.quiet (t := t) (p := .inc) rfl <;> simp [hpc, CrossPc.pending]
  | inc hpc => exact fun _ => ⟨t, Or.inl (by simp)⟩
  | few hpc hlt =>
    -- the thread has seen that the counter, and with it the tally, is below `n`
    intro hfull
    have hsame : tally n CrossPc.pending (Function.update s.pc t .wait) = tally n CrossPc.pending s.pc :=
      tally_update_same (by rw [hpc]; rfl)
    have hcrossed := hs.crossed_of_holds (t := t) (by rw [hpc]; rfl) (by rw [hpc]; simp)
    have hcount := hs.count
    rw [goto_pc, hsame] at hfull
    omega
  | all hpc hge => exact fun _ => ⟨t, Or.inr (by simp)⟩
  | wait hpc => apply h.quiet (t := t) (p := .blocked) rfl <;> simp [hpc, CrossPc.pending]
  | woken hpc hfree => apply h.quiet (t := t) (p := .unlock) rfl <;> simp [hpc, CrossPc.pending]
  | broadcast hpc =>
    intro hfull
    have hnone := (hs.broadcast_next hpc rfl).reset t (by simp)
    omega
  | reset hpc => apply h.quiet (t := t) (p := .unlock) rfl <;> simp [hpc, CrossPc.pending]
  | unlock hpc => apply h.quiet (t := t) (p := .outside) rfl <;> simp [hpc, CrossPc.pending]

/-! ## Runs -/

/-- A step of the program is a call of a thread that has one left, or a step inside `barrier_cross`. -/
theorem barrierRounds_move {a : BarrierAct} (h : barrierRounds n rounds s a = some s') :
    (∃ t < n, s.started t < rounds ∧ s.start t = some s') ∨ ∃ t, s.cross t = some s' := by
  obtain ⟨hok, hstep⟩ := provided_eq_some.mp h
  cases a with
  | start t =>
    simp only [barrierCross] at hstep
    split at hstep
    · rename_i ht
      exact Or.inl ⟨t, ht, of_decide_eq_true hok, hstep⟩
    · cases hstep
  | cross t => exact Or.inr ⟨t, hstep⟩
  | wake t => cases hok

theorem attended_step (hn : 0 < n) (h : ∃ R, InRound n R s ∧ Attended n s) {a : BarrierAct}
    (ha : barrierRounds n rounds s a = some s') : ∃ R, InRound n R s' ∧ Attended n s' := by
  obtain ⟨R, hs, h⟩ := h
  rcases barrierRounds_move ha with ⟨t, ht, -, hstart⟩ | ⟨t, hcross⟩
  · exact ⟨R, hs.start ht hstart, h.start hstart⟩
  · have hattended := h.cross hs hn hcross
    rcases hs.cross hcross with hsame | hnext
    · exact ⟨R, hsame, hattended⟩
    · exact ⟨R + 1, hnext, hattended⟩

theorem attended_reach (hn : 0 < n) (h : Reach (barrierRounds n rounds) (barrierInit n) s) :
    ∃ R, InRound n R s ∧ Attended n s :=
  h.invariant ⟨0, inRound_init n, .init hn⟩ fun _ _ _ hu ha => attended_step hn hu ha

/-! ## The mutex is free -/

theorem InRound.holds_eq_false (h : InRound n R s) (hfree : s.holder = none) (t : ℕ) : (s.pc t).holds = false := by
  by_contra hholds
  have ht := (h.holder t).mpr (by simpa using hholds)
  rw [hfree] at ht
  cases ht

theorem InRound.tally_pending (h : InRound n R s) (hfree : s.holder = none) :
    tally n CrossPc.pending s.pc = s.blockedThreads n := by
  refine tally_congr fun t _ => ?_
  have hholds := h.holds_eq_false hfree t
  cases hpc : s.pc t <;> rw [hpc] at hholds <;> first | rfl | cases hholds

theorem InRound.crossed_eq (h : InRound n R s) (hfree : s.holder = none) : s.crossed = s.blockedThreads n := by
  rw [← h.tally_pending hfree]
  refine h.crossed fun t ht => ?_
  have hholds := h.holds_eq_false hfree t
  rw [ht] at hholds
  cases hholds

theorem Attended.blockedThreads_lt (h : Attended n s) (hs : InRound n R s) (hfree : s.holder = none) :
    s.blockedThreads n < n := by
  have hle : s.blockedThreads n ≤ n := tally_le
  refine lt_of_le_of_ne hle fun hfull => ?_
  obtain ⟨t, ht⟩ := h ((hs.tally_pending hfree).trans hfull)
  have hholds := hs.holds_eq_false hfree t
  rcases ht with ht | ht <;> rw [ht] at hholds <;> cases hholds

/-- If some thread has calls left, one that has is not blocked: a thread that is through has left the round behind in
which the blocked ones wait, so all would wait in it. -/
theorem Attended.exists_not_blocked (h : Attended n s) (hs : InRound n R s) (hleft : ∃ t < n, s.returned t < rounds) :
    ∃ t < n, s.returned t < rounds ∧ s.pc t ≠ .blocked := by
  by_contra hnone
  have hall : ∀ t < n, s.returned t < rounds → s.pc t = .blocked := by
    intro t ht hlt
    by_contra hpc
    exact hnone ⟨t, ht, hlt, hpc⟩
  obtain ⟨t, ht, hlt⟩ := hleft
  have hround : R < rounds := by
    have hreturned := hs.returned t ht
    rw [hall t ht hlt] at hreturned
    exact hreturned ▸ hlt
  have hblocked : ∀ u < n, s.pc u = .blocked := by
    intro u hu
    have hreturned := hs.returned u hu
    exact hall u hu (by omega)
  have hfull : tally n CrossPc.pending s.pc = n := tally_eq_iff.mpr fun u hu => by rw [hblocked u hu]; rfl
  obtain ⟨u, hu⟩ := h hfull
  have hlt : u < n := hs.lt (by rcases hu with hu | hu <;> rw [hu] <;> simp)
  rw [hblocked u hlt] at hu
  simp at hu

/-- Whenever the mutex is free, `crossed` counts the blocked threads and they are not all; so there is never one with
calls left but all such threads are blocked. -/
theorem barrier_loses_no_wakeup (n rounds : ℕ) (s : BarrierState) (hn : 1 ≤ n)
    (h : Reach (barrierRounds n rounds) (barrierInit n) s) :
    (s.holder = none → s.crossed = s.blockedThreads n ∧ 0 ≤ s.crossed ∧ s.crossed < s.count) ∧
      ((∃ t < n, s.returned t < rounds) → ∃ t < n, s.returned t < rounds ∧ s.pc t ≠ .blocked) := by
  obtain ⟨R, hs, hattended⟩ := attended_reach hn h
  refine ⟨fun hfree => ?_, fun hleft => hattended.exists_not_blocked hs hleft⟩
  have hcrossed := hs.crossed_eq hfree
  have hlt := hattended.blockedThreads_lt hs hfree
  have hcount := hs.count
  omega

/-- Two threads with three calls each, the first of them asleep. -/
theorem barrier_loses_no_wakeup_pair : ∃ s, Reach (barrierRounds 2 3) (barrierInit 2) s ∧ s.pc 0 = .blocked ∧
    s.crossed = s.blockedThreads 2 ∧ ∃ t < 2, s.returned t < 3 ∧ s.pc t ≠ .blocked := by
  have hrun : ([.start 0, .start 1] ++ List.replicate 4 (.cross 0) : List BarrierAct).foldlM (barrierRounds 2 3)
      (barrierInit 2) = some _ := rfl
  have hreach := Reach.of_foldlM hrun
  have hwake := barrier_loses_no_wakeup 2 3 _ (by decide) hreach
  exact ⟨_, hreach, by decide, (hwake.1 (by decide)).1, hwake.2 ⟨0, by decide, by decide⟩⟩

/-! ## Every run comes to its end -/

/-- More than the steps a thread at this place takes until it returns. -/
def CrossPc.ahead : CrossPc → ℕ
  | .outside => 0
  | .lock => 8
  | .inc => 7
  | .test => 6
  | .wait => 5
  | .blocked => 4
  | .woken => 3
  | .broadcast => 5
  | .reset => 2
  | .unlock => 1

/-- The steps the threads have left, at most. -/
def BarrierState.stepsLeft (s : BarrierState) (n rounds : ℕ) : ℕ :=
  ∑ t ∈ Finset.range n, ((rounds - s.started t) * 9 + (s.pc t).ahead)

theorem cross_ahead (h : s.cross t = some s') :
    s'.started = s.started ∧ (s'.pc t).ahead < (s.pc t).ahead ∧ ∀ u, u ≠ t → (s'.pc u).ahead ≤ (s.pc u).ahead := by
  cases cross_move h with
  | broadcast hpc =>
    refine ⟨rfl, by simp [hpc, CrossPc.ahead], fun u hu => ?_⟩
    simp only [Function.update_of_ne hu]
    split
    · rename_i hblocked
      simp [hblocked, CrossPc.ahead]
    · exact le_rfl
  | _ hpc =>
    refine ⟨rfl, by simp [hpc, CrossPc.ahead], fun u hu => ?_⟩
    simp [Function.update_of_ne hu]

theorem stepsLeft_lt (ht : t < n) (hother : ∀ u, u ≠ t → s'.started u = s.started u ∧ (s'.pc u).ahead ≤ (s.pc u).ahead)
    (hown : (rounds - s'.started t) * 9 + (s'.pc t).ahead < (rounds - s.started t) * 9 + (s.pc t).ahead) :
    s'.stepsLeft n rounds < s.stepsLeft n rounds := by
  refine Finset.sum_lt_sum (fun u _ => ?_) ⟨t, Finset.mem_range.mpr ht, hown⟩
  by_cases hut : u = t
  · rw [hut]
    exact hown.le
  · obtain ⟨hstarted, hahead⟩ := hother u hut
    rw [hstarted]
    omega

theorem barrierRounds_stepsLeft (hs : InRound n R s) {a : BarrierAct} (ha : barrierRounds n rounds s a = some s') :
    s'.stepsLeft n rounds < s.stepsLeft n rounds := by
  rcases barrierRounds_move ha with ⟨t, ht, hlt, hstart⟩ | ⟨t, hcross⟩
  · obtain ⟨hpc, rfl⟩ := start_eq_some hstart
    apply stepsLeft_lt ht
    · intro u hu
      simp [Function.update_of_ne hu]
    · simp [hpc, CrossPc.ahead]
      omega
  · obtain ⟨hstarted, hown, hother⟩ := cross_ahead hcross
    have hpc : s.pc t ≠ .outside := by
      intro hpc
      rw [hpc] at hown
      exact absurd hown (Nat.not_lt_zero _)
    apply stepsLeft_lt (hs.lt hpc)
    · exact fun u hu => ⟨by rw [hstarted], hother u hu⟩
    · rw [hstarted]
      omega

theorem barrierRounds_started (h : ∀ t, s.started t ≤ rounds) {a : BarrierAct}
    (ha : barrierRounds n rounds s a = some s') : ∀ t, s'.started t ≤ rounds := by
  rcases barrierRounds_move ha with ⟨t, -, hlt, hstart⟩ | ⟨t, hcross⟩
  · obtain ⟨-, rfl⟩ := start_eq_some hstart
    intro u
    by_cases hut : u = t
    · subst hut
      simp only [Function.update_self]
      omega
    · simp only [Function.update_of_ne hut]
      exact h u
  · rw [(cross_ahead hcross).1]
    exact h

theorem cross_isSome_of_holds (h : (s.pc t).holds = true) : s.cross t ≠ none := by
  unfold BarrierState.cross
  cases hpc : s.pc t <;> rw [hpc] at h <;> first | exact Option.some_ne_none _ | cases h

/-- Where nothing can go on, every thread is through. -/
theorem returned_of_stuck (h : Attended n s) (hs : InRound n R s) (hn : ∀ a, barrierRounds n rounds s a = none) :
    ∀ t < n, rounds ≤ s.returned t := by
  have hcross : ∀ t, s.cross t = none := fun t => hn (.cross t)
  have hfree : s.holder = none := by
    cases hholder : s.holder with
    | none => rfl
    | some u => exact absurd (hcross u) (cross_isSome_of_holds ((hs.holder u).mp hholder))
  intro t ht
  by_contra hlt
  obtain ⟨u, hu, hleft, hpc⟩ := h.exists_not_blocked hs ⟨t, ht, Nat.lt_of_not_le hlt⟩
  have hstarted := hs.started u hu
  have hstart := hn (.start u)
  have hnext := hcross u
  cases hq : s.pc u with
  | outside =>
    rw [hq] at hstarted
    have hok : BarrierAct.inProgram rounds s (.start u) = true := decide_eq_true (by
      rw [hstarted]
      exact hleft)
    simp [barrierRounds, provided, hok, barrierCross, hu, BarrierState.start, hq] at hstart
  | blocked => exact hpc hq
  | _ => simp [BarrierState.cross, hq, hfree] at hnext

/-- Every schedule of the threads is finite, and it can only end when all of them have returned from all their calls. -/
theorem barrierRounds_ends (n rounds : ℕ) (hn : 0 < n) :
    Ends (barrierRounds n rounds) (barrierInit n) fun s => ∀ t < n, s.returned t = rounds := by
  refine ends_of_invariant (P := fun s => (∃ R, InRound n R s ∧ Attended n s) ∧ ∀ t, s.started t ≤ rounds)
    Nat.lt_wfRel.wf (fun s => s.stepsLeft n rounds) ?_ ?_ ?_ ⟨⟨0, inRound_init n, .init hn⟩, fun _ => Nat.zero_le _⟩
  · exact fun u a v hu ha => ⟨attended_step hn hu.1 ha, barrierRounds_started hu.2 ha⟩
  · intro u a v ⟨⟨R, hs, _⟩, _⟩ ha
    exact barrierRounds_stepsLeft hs ha
  · intro s ⟨⟨R, hs, hattended⟩, hstarted⟩ hstuck t ht
    have hle := returned_of_stuck hattended hs hstuck t ht
    have hge := (hs.returned_le ht ht).trans (hstarted t)
    exact le_antisymm hge hle

theorem barrierRounds_ends_pair : Ends (barrierRounds 2 3) (barrierInit 2) fun s => ∀ t < 2, s.returned t = 3 :=
  barrierRounds_ends 2 3 (by decide)

end GraphBenchmark
