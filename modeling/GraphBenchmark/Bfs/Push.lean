import GraphBenchmark.Bfs.PushPass
import GraphBenchmark.Bfs.Adjacency
import Mathlib.Order.WellFounded

/-! # Runs of `bfs_push`

`PushInv` says where a run stands: at the head of the loop the frontier is the level of the current
iteration, along the edges as `bfs_push` reads them. Every step keeps it (`pushInv_step`), every schedule
is finite (`bfsPush_ends`), and what is claimed during a pass is in the next frontier. -/
namespace GraphBenchmark
open Interleaving Levels
set_option autoImplicit false

/-! ## The steps -/

inductive BfsPushStep (g : Graph) (threads : ℕ) (grain : Grain) (s : PushState) : PushState → Prop
  | launch {rs : List BlockedRange} (hp : s.pc = .head) (hnext : s.frontier.next ≠ 0) (hrs : Split s.frontier.next rs) :
      BfsPushStep g threads grain s { s with
        shared := { s.shared with claimed := [] }
        iterations := s.iterations + 1
        tasks := rs.map PushTask.ofRange
        pc := .pass }
  | begin {i tid : ℕ} {t : PushTask} (hp : s.pc = .pass) (ht : s.tasks[i]? = some t) (hthread : t.thread = none) :
      BfsPushStep g threads grain s { s with tasks := s.tasks.set i { t with thread := some tid } }
  | work {i : ℕ} {o : PushShared} {ts : List PushTask} (hp : s.pc = .pass)
      (hw : work (pushBody g threads grain s.frontier) s.shared s.tasks i = some (o, ts)) :
      BfsPushStep g threads grain s { s with shared := o, tasks := ts }
  | join (hp : s.pc = .pass) (hdone : ∀ t ∈ s.tasks, t.Finished) :
      BfsPushStep g threads grain s { s with
        shared := { s.shared with buffers := (transfers s.shared.buffers s.frontier.clear threads).1 }
        frontier := (transfers s.shared.buffers s.frontier.clear threads).2
        tasks := []
        pc := .head }
  | exit (hp : s.pc = .head) (hz : s.frontier.next = 0) :
      BfsPushStep g threads grain s { s with pc := .done (countVisited s.shared.visited g.nbNodes) }

theorem bfsPush_step {g : Graph} {threads : ℕ} {grain : Grain} {s s' : PushState} {a : PushAct}
    (h : bfsPush g threads grain s a = some s') : BfsPushStep g threads grain s s' := by
  cases a with
  | launch rs =>
    simp only [bfsPush] at h
    split at h
    · rename_i hc
      cases h
      exact .launch hc.1 hc.2.1 hc.2.2
    · cases h
  | begin i tid =>
    simp only [bfsPush] at h
    split at h
    · cases h
    · rename_i t ht
      split at h
      · rename_i hc
        cases h
        exact .begin hc.1 ht hc.2.1
      · cases h
  | work i =>
    simp only [bfsPush] at h
    split at h
    · rename_i hp
      obtain ⟨⟨o, ts⟩, hw, rfl⟩ := Option.map_eq_some_iff.mp h
      exact .work hp hw
    · cases h
  | join =>
    simp only [bfsPush] at h
    split at h
    · rename_i hc
      cases h
      exact .join hc.1 hc.2
    · cases h
  | exit =>
    simp only [bfsPush] at h
    split at h
    · rename_i hc
      cases h
      exact .exit hc.1 hc.2
    · cases h

/-! ## The invariant -/

/-- At the head of the loop in iteration `k`. -/
structure AtLevel (E : UInt32 → UInt32 → Prop) (start : UInt32) (threads k : ℕ) (s : PushState) : Prop where
  nodup : s.frontier.contents.Nodup
  mem : ∀ v, v ∈ s.frontier.contents ↔ DistIs E start k v
  buffers : ∀ i < threads, (s.shared.buffers i).next = 0
  visited : ∀ v : UInt32, s.shared.visited v.toNat = 1 ↔ Within E start k v
  bytes : Bytes s.shared.visited

/-- What holds in every state of a run from `start`. -/
structure PushInv (g : Graph) (start : UInt32) (threads : ℕ) (grain : Grain) (s : PushState) : Prop where
  head : s.pc = .head → AtLevel g.OutRead start threads s.iterations s ∧ ∀ v ∈ s.shared.claimed, v ∈ s.frontier.contents
  pass : s.pc = .pass → ∃ k, s.iterations = k + 1 ∧ (∀ v, v ∈ s.frontier.contents ↔ DistIs g.OutRead start k v) ∧
    PassInv g threads grain s.frontier (Within g.OutRead start k) s.shared s.tasks
  done : ∀ v, s.pc = .done v → AtLevel g.OutRead start threads s.iterations s ∧ s.frontier.next = 0 ∧
    v = countVisited s.shared.visited g.nbNodes
  below : ∀ j < s.iterations, ∃ v, DistIs g.OutRead start j v

section Run
variable {g : Graph} {start : UInt32} {threads : ℕ} {grain : Grain} {s s' : PushState} {mem : ℕ → UInt32}
  {bufferMem : ℕ → ℕ → UInt32}

theorem pushInv_init : PushInv g start threads grain (PushState.init g start mem bufferMem) := by
  refine ⟨fun _ => ⟨⟨?_, fun v => ?_, fun _ _ => rfl, fun v => ?_, Bytes.zero.mark start⟩, nofun⟩, nofun, nofun,
    fun j hj => absurd hj (Nat.not_lt_zero j)⟩
  · rw [PushState.init, ThreadBuffer.contents_push]
    exact List.nodup_singleton start
  · rw [PushState.init, ThreadBuffer.contents_push, ThreadBuffer.contents_init, List.nil_append,
      List.mem_singleton, distIs_zero_iff]
  · show Function.update (fun _ => (0 : UInt8)) start.toNat 1 v.toNat = 1 ↔ Within g.OutRead start 0 v
    rw [within_zero_iff, update_vertex_iff (P := (· = 1)) rfl]
    simp

/-- Every step keeps the invariant; where a push is three steps, the running threads have to use different
buffers. -/
theorem pushInv_step (hT : 0 < threads) (hexcl : grain = .split → (slotsInUse threads s.tasks).Nodup)
    (h : PushInv g start threads grain s) {a : PushAct} (ha : bfsPush g threads grain s a = some s') :
    PushInv g start threads grain s' := by
  cases bfsPush_step ha with
  | @launch rs hp hnext hrs =>
    obtain ⟨hlevel, -⟩ := h.head hp
    have hV : (fun v : UInt32 => s.shared.visited v.toNat ≠ 0) = Within g.OutRead start s.iterations := by
      funext v
      exact propext ((hlevel.bytes.ne_zero_iff v.toNat).trans (hlevel.visited v))
    refine ⟨nofun, fun _ => ⟨s.iterations, rfl, hlevel.mem, ?_⟩, nofun, fun j hj => ?_⟩
    · rw [← hV]
      exact passInv_launch (s := { s.shared with claimed := [] }) hrs hlevel.buffers rfl hlevel.bytes
    · rcases Nat.lt_or_ge j s.iterations with hlt | hge
      · exact h.below j hlt
      · obtain rfl : j = s.iterations := by
          have : j < s.iterations + 1 := hj
          omega
        exact ⟨s.frontier.buffer 0, (hlevel.mem _).mp (List.mem_map_of_mem (List.mem_range.mpr (by omega)))⟩
  | begin hp ht hthread =>
    obtain ⟨k, hk, hmem, hpass⟩ := h.pass hp
    exact ⟨fun hp' => absurd (hp'.symm.trans hp) nofun, fun _ => ⟨k, hk, hmem, passInv_begin hpass ht hthread⟩,
      fun _ hp' => absurd (hp'.symm.trans hp) nofun, h.below⟩
  | work hp hw =>
    obtain ⟨k, hk, hmem, hpass⟩ := h.pass hp
    exact ⟨fun hp' => absurd (hp'.symm.trans hp) nofun, fun _ => ⟨k, hk, hmem, passInv_work hT hexcl hpass hw⟩,
      fun _ hp' => absurd (hp'.symm.trans hp) nofun, h.below⟩
  | join hp hdone =>
    obtain ⟨k, hk, hmem, hpass⟩ := h.pass hp
    obtain ⟨hvis, hnodup, hnew, hclaimed⟩ := passInv_finish hpass hdone
    have hcontents : ((transfers s.shared.buffers s.frontier.clear threads).2.contents : Multiset UInt32) =
        handed threads s.shared.buffers := by
      rw [contents_transfers, ThreadBuffer.contents_clear]
      exact zero_add _
    have hnext : ∀ v, g.NextOf s.frontier v ↔ ∃ u, DistIs g.OutRead start k u ∧ g.OutRead u v := fun v =>
      exists_congr fun u => and_congr_left' (hmem u)
    refine ⟨fun _ => ⟨⟨?_, fun v => ?_, fun i hi => next_transfers hi, fun v => ?_, hpass.bytes⟩, fun v hv => ?_⟩,
      nofun, nofun, h.below⟩
    · rw [← Multiset.coe_nodup, hcontents]
      exact hnodup
    · rw [← Multiset.mem_coe, hcontents, hnew, hnext, hk, distIs_succ_iff, and_comm]
    · rw [← hpass.bytes.ne_zero_iff, hvis, hnext, hk, within_succ_iff]
    · rw [← Multiset.mem_coe, hcontents, ← hclaimed]
      exact hv
  | exit hp hz =>
    obtain ⟨hlevel, -⟩ := h.head hp
    refine ⟨nofun, nofun, fun v hv => ⟨⟨hlevel.nodup, hlevel.mem, hlevel.buffers, hlevel.visited, hlevel.bytes⟩,
      hz, ?_⟩, h.below⟩
    exact (PushPc.done.inj hv).symm

/-! ## Termination -/

def PushState.measure (g : Graph) (s : PushState) : ℕ × ℕ :=
  (2 ^ 32 - s.iterations, match s.pc with
    | .head => 1
    | .pass => (s.tasks.map (PushTask.weight g s.frontier)).sum + 2
    | .done _ => 0)

theorem bfsPush_measure (h : PushInv g start threads grain s) {a : PushAct}
    (ha : bfsPush g threads grain s a = some s') :
    Prod.Lex (· < ·) (· < ·) (s'.measure g) (s.measure g) := by
  cases bfsPush_step ha with
  | launch hp hnext hrs =>
    obtain ⟨hlevel, -⟩ := h.head hp
    have hlt := level_lt ((hlevel.mem (s.frontier.buffer 0)).mp
      (List.mem_map_of_mem (List.mem_range.mpr (Nat.pos_of_ne_zero hnext))))
    apply Prod.Lex.left
    show 2 ^ 32 - (s.iterations + 1) < 2 ^ 32 - s.iterations
    omega
  | @begin _ tid t hp ht hthread =>
    obtain ⟨pre, post, hts, hset⟩ := exists_middle ht
    have hlt : ({ t with thread := some tid } : PushTask).weight g s.frontier < t.weight g s.frontier := by
      simp only [PushTask.weight, hthread, if_true, reduceCtorEq, if_false]
      omega
    apply Prod.Lex.right
    simp only [hp, hset]
    rw [hts]
    simp only [List.map_append, List.map_cons, List.sum_append, List.sum_cons]
    omega
  | work hp hw =>
    have hlt := work_weight_lt hw fun t t' ht => (pushBody_step ht).elim fun _ hstep => hstep.weight_lt
    apply Prod.Lex.right
    simp only [hp]
    omega
  | join hp hdone =>
    apply Prod.Lex.right
    simp only [hp]
    omega
  | exit hp hz =>
    apply Prod.Lex.right
    simp only [hp]
    omega

theorem bfsPush_stuck (hT : 0 < threads) (hn : ∀ a, bfsPush g threads grain s a = none) : ∃ v, s.pc = .done v := by
  cases hpc : s.pc with
  | head =>
    by_cases hz : s.frontier.next = 0
    · have h := hn .exit
      simp only [bfsPush] at h
      rw [if_pos ⟨hpc, hz⟩] at h
      cases h
    · obtain ⟨rs, hrs⟩ := exists_split s.frontier.next
      have h := hn (.launch rs)
      simp only [bfsPush] at h
      rw [if_pos ⟨hpc, hz, hrs⟩] at h
      cases h
  | pass =>
    by_cases hall : ∀ t ∈ s.tasks, t.Finished
    · have h := hn .join
      simp only [bfsPush] at h
      rw [if_pos ⟨hpc, hall⟩] at h
      cases h
    · by_cases hrun : s.tasks.filterMap PushTask.running = []
      · -- nobody is inside a body, so a task that is left can be begun
        obtain ⟨t, ht⟩ := not_forall.mp hall
        obtain ⟨hmem, hfin⟩ := Classical.not_imp.mp ht
        obtain ⟨i, hi, rfl⟩ := List.mem_iff_getElem.mp hmem
        have hthread : s.tasks[i].thread = none := by
          have hnone := List.filterMap_eq_nil_iff.mp hrun _ hmem
          unfold PushTask.running at hnone
          rwa [if_neg hfin] at hnone
        have h := hn (.begin i 0)
        simp only [bfsPush] at h
        rw [List.getElem?_eq_getElem hi] at h
        simp only [hrun] at h
        rw [if_pos ⟨hpc, hthread, hT, List.not_mem_nil⟩] at h
        cases h
      · obtain ⟨tid, htid⟩ := List.exists_mem_of_ne_nil _ hrun
        obtain ⟨t, hmem, ht⟩ := List.mem_filterMap.mp htid
        have hfin : ¬ t.Finished := by
          intro hf
          rw [PushTask.running, if_pos hf] at ht
          cases ht
        have hthread : t.thread ≠ none := by
          rw [PushTask.running, if_neg hfin] at ht
          rw [ht]
          exact Option.some_ne_none tid
        obtain ⟨i, hi⟩ : ∃ i, work (pushBody g threads grain s.frontier) s.shared s.tasks i ≠ none :=
          work_of_mem hmem (pushBody_isSome hfin hthread)
        have h := hn (.work i)
        simp only [bfsPush] at h
        rw [if_pos hpc] at h
        exact absurd (Option.map_eq_none_iff.mp h) hi
  | done v => exact ⟨v, rfl⟩

theorem pushInv_of_reach (hT : 0 < threads)
    (h : Reach (bfsPush g threads .whole) (PushState.init g start mem bufferMem) s) : PushInv g start threads .whole s :=
  h.invariant pushInv_init fun _ _ _ hu ha => pushInv_step hT nofun hu ha

/-- With pushes in one step, every schedule of `bfs_push` is finite and ends at an empty level. -/
theorem bfsPush_ends (g : Graph) (start : UInt32) (hT : 0 < threads) (mem : ℕ → UInt32) (bufferMem : ℕ → ℕ → UInt32) :
    Ends (bfsPush g threads .whole) (PushState.init g start mem bufferMem) fun s =>
      PushInv g start threads .whole s ∧ ∃ v, s.pc = .done v :=
  ends_of_invariant (P := PushInv g start threads .whole) (Prod.lex Nat.lt_wfRel Nat.lt_wfRel).wf
    (PushState.measure g) (fun _ _ _ hu ha => pushInv_step hT nofun hu ha) (fun _ _ _ hu ha => bfsPush_measure hu ha)
    (fun _ hu hn => ⟨hu, bfsPush_stuck hT hn⟩) pushInv_init

end Run

end GraphBenchmark
