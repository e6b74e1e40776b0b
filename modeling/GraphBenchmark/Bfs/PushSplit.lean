import GraphBenchmark.Bfs.PushThreads

/-! # Runs of `bfs_push` with pushes in three steps

As long as the running threads select different thread buffers every schedule is finite and ends at an empty level, just
as with pushes in one step. The condition stops no run: where a task is left and fewer than `THREADS` threads run, some
thread buffer is free (`pushSplit_stuck`). -/
namespace GraphBenchmark
open Interleaving Levels
set_option autoImplicit false

section Slots
variable {g : Graph} {start : UInt32} {threads tid i : ℕ} {grain : Grain} {frontier : ThreadBuffer} {r r' : PushShared}
  {t t' : PushTask} {s s' : PushState} {ts ts' pre post : List PushTask} {rs : List BlockedRange}

theorem exists_free {used : List ℕ} (h : used.length < threads) : ∃ j < threads, j ∉ used := by
  by_contra hall
  push Not at hall
  have hsub : List.range threads ⊆ used := fun j hj => hall j (List.mem_range.mp hj)
  have hle := (List.subperm_of_subset List.nodup_range hsub).length_le
  rw [List.length_range] at hle
  omega

theorem slotsInUse_middle (t : PushTask) :
    (slotsInUse threads (pre ++ t :: post)).Perm
      (t.running.toList.map (· % threads) ++ slotsInUse threads (pre ++ post)) := by
  unfold slotsInUse
  rw [← List.map_append, List.filterMap_append, List.filterMap_append]
  refine List.Perm.map _ ?_
  cases hrun : t.running with
  | none => rw [List.filterMap_cons_none hrun, Option.toList_none, List.nil_append]
  | some tid =>
    rw [List.filterMap_cons_some hrun, Option.toList_some, List.singleton_append]
    exact List.perm_middle

theorem slotsInUse_ofRange : slotsInUse threads (rs.map PushTask.ofRange) = [] := by
  have hnil : (rs.map PushTask.ofRange).filterMap PushTask.running = [] := by
    refine List.filterMap_eq_nil_iff.mpr fun t ht => ?_
    obtain ⟨r, -, rfl⟩ := List.mem_map.mp ht
    exact ite_self none
  rw [slotsInUse, hnil]
  rfl

theorem PushStep.running_after (h : PushStep g threads grain frontier r tid t r' t') :
    t'.running = none ∨ t'.running = some tid := by
  have hthread : t'.thread = some tid := by cases h <;> rfl
  unfold PushTask.running
  split
  · exact Or.inl rfl
  · exact Or.inr hthread

/-- A step of a body occupies no other buffer. -/
theorem slotsInUse_work (h : (slotsInUse threads ts).Nodup)
    (hw : work (pushBody g threads grain frontier) r ts i = some (r', ts')) : (slotsInUse threads ts').Nodup := by
  obtain ⟨pre, t, post, t', rfl, hbody, rfl⟩ := work_eq_some hw
  obtain ⟨tid, hstep⟩ := pushBody_step hbody
  rw [(slotsInUse_middle t).nodup_iff, hstep.running] at h
  rw [(slotsInUse_middle t').nodup_iff]
  rcases hstep.running_after with hrun | hrun
  · rw [hrun]
    exact (List.nodup_append.mp h).2.1
  · rw [hrun]
    exact h

/-- A thread that begins a task occupies one more. -/
theorem slotsInUse_begin (h : (slotsInUse threads ts).Nodup) (ht : ts[i]? = some t) (hthread : t.thread = none)
    (hfree : tid % threads ∉ slotsInUse threads ts) :
    (slotsInUse threads (ts.set i { t with thread := some tid })).Nodup := by
  obtain ⟨pre, post, rfl, hset⟩ := exists_middle ht
  have hbefore : t.running = none := by
    rw [PushTask.running, hthread]
    exact ite_self none
  have hperm := @slotsInUse_middle threads pre post t
  rw [hbefore, Option.toList_none, List.map_nil, List.nil_append] at hperm
  rw [hperm.nodup_iff] at h
  rw [hperm.mem_iff] at hfree
  rw [hset, (slotsInUse_middle _).nodup_iff, PushTask.running]
  split
  · exact h
  · exact List.nodup_cons.mpr ⟨hfree, h⟩

/-- A step leaves the condition only where a thread begins a task. -/
theorem distinctBuffers_step (h : s.distinctBuffers threads = true) {a : PushAct}
    (ha : bfsPush g threads grain s a = some s')
    (hbegin : ∀ i tid, a = .begin i tid → tid % threads ∉ slotsInUse threads s.tasks) :
    s'.distinctBuffers threads = true := by
  have hnodup : (slotsInUse threads s.tasks).Nodup := of_decide_eq_true h
  refine decide_eq_true ?_
  cases a with
  | launch rs =>
    simp only [bfsPush] at ha
    split at ha
    · cases ha
      rw [slotsInUse_ofRange]
      exact List.nodup_nil
    · cases ha
  | begin i tid =>
    simp only [bfsPush] at ha
    split at ha
    · cases ha
    · rename_i t ht
      split at ha
      · rename_i hc
        cases ha
        exact slotsInUse_begin hnodup ht hc.2.1 (hbegin i tid rfl)
      · cases ha
  | work i =>
    simp only [bfsPush] at ha
    split at ha
    · obtain ⟨⟨o, ts⟩, hw, rfl⟩ := Option.map_eq_some_iff.mp ha
      exact slotsInUse_work hnodup hw
    · cases ha
  | join =>
    simp only [bfsPush] at ha
    split at ha
    · cases ha
      exact List.nodup_nil
    · cases ha
  | exit =>
    simp only [bfsPush] at ha
    split at ha
    · cases ha
      exact hnodup
    · cases ha

/-- A thread that cannot begin can be replaced by one whose buffer is free. -/
theorem pushSplit_stuck (hT : 0 < threads) (hs : s.distinctBuffers threads = true)
    (hn : ∀ a, within (PushState.distinctBuffers threads) (bfsPush g threads grain) s a = none) :
    ∃ v, s.pc = .done v := by
  have hbroken : ∀ a s', bfsPush g threads grain s a = some s' → s'.distinctBuffers threads ≠ true := by
    intro a s' ha hs'
    have hwithin := within_eq_some.mpr ⟨ha, hs'⟩
    rw [hn a] at hwithin
    cases hwithin
  suffices hstuck : ∀ a, bfsPush g threads grain s a = none from bfsPush_stuck hT hstuck
  intro a
  rw [Option.eq_none_iff_forall_ne_some]
  intro s' ha
  refine hbroken a s' ha (distinctBuffers_step hs ha fun i tid hbegin => ?_)
  subst hbegin
  -- some buffer is free for another thread, with which the task could begin
  simp only [bfsPush] at ha
  split at ha
  · cases ha
  · rename_i t ht
    split at ha
    · rename_i hc
      have hlen : (slotsInUse threads s.tasks).length < threads := by
        rw [slotsInUse, List.length_map]
        exact hc.2.2.1
      obtain ⟨j, hj, hfree⟩ := exists_free hlen
      have hmod : j % threads = j := Nat.mod_eq_of_lt hj
      have hnot : j ∉ s.tasks.filterMap PushTask.running := fun hmem =>
        hfree (List.mem_map.mpr ⟨j, hmem, hmod⟩)
      have hstep : bfsPush g threads grain s (.begin i j) =
          some { s with tasks := s.tasks.set i { t with thread := some j } } := by
        simp only [bfsPush, ht]
        rw [if_pos ⟨hc.1, hc.2.1, hc.2.2.1, hnot⟩]
      refine absurd (distinctBuffers_step hs hstep fun i' j' heq => ?_) (hbroken _ _ hstep)
      obtain ⟨rfl, rfl⟩ := PushAct.begin.inj heq
      rw [hmod]
      exact hfree
    · cases ha

end Slots

section Run
variable {g : Graph} {start : UInt32} {threads : ℕ} {s s' : PushState} {mem : ℕ → UInt32} {bufferMem : ℕ → ℕ → UInt32}

/-- `PushInv` of a run within the condition. -/
def SplitInv (g : Graph) (start : UInt32) (threads : ℕ) (s : PushState) : Prop :=
  PushInv g start threads .split s ∧ s.distinctBuffers threads = true

theorem splitInv_step (hT : 0 < threads) (h : SplitInv g start threads s) {a : PushAct}
    (ha : within (PushState.distinctBuffers threads) (bfsPush g threads .split) s a = some s') :
    SplitInv g start threads s' := by
  obtain ⟨hstep, hok⟩ := within_eq_some.mp ha
  exact ⟨pushInv_step hT (fun _ => of_decide_eq_true h.2) h.1 hstep, hok⟩

theorem splitInv_init : SplitInv g start threads (PushState.init g start mem bufferMem) := ⟨pushInv_init, rfl⟩

/-- While running threads select different buffers, every schedule is finite and ends at an empty level. -/
theorem pushSplit_ends (hT : 0 < threads) (mem : ℕ → UInt32) (bufferMem : ℕ → ℕ → UInt32) :
    Ends (within (PushState.distinctBuffers threads) (bfsPush g threads .split)) (PushState.init g start mem bufferMem)
      fun s => PushInv g start threads .split s ∧ ∃ v, s.pc = .done v :=
  ends_of_invariant (P := SplitInv g start threads) (Prod.lex Nat.lt_wfRel Nat.lt_wfRel).wf
    (PushState.measure g) (fun _ _ _ hu ha => splitInv_step hT hu ha)
    (fun _ _ _ hu ha => bfsPush_measure hu.1 (within_eq_some.mp ha).1)
    (fun _ hu hn => ⟨hu.1, pushSplit_stuck hT hu.2 hn⟩) splitInv_init

/-- At the end the invariant says the same of both kinds of push. -/
theorem PushInv.of_done {grain : Grain} (h : PushInv g start threads grain s) {c : ℕ} (hp : s.pc = .done c) :
    PushInv g start threads .whole s :=
  ⟨fun hp' => absurd (hp'.symm.trans hp) nofun, fun hp' => absurd (hp'.symm.trans hp) nofun, h.done, h.below⟩

end Run

end GraphBenchmark
