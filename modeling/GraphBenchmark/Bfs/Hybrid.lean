import GraphBenchmark.Bfs.HybridPass
import Mathlib.Algebra.BigOperators.Finprod

/-! # Runs of the push phase of `bfs_pushpull`

At each switch test the vector holds the level of the iteration, `explored` the spans of the levels before
it and `edges_in_frontier` those of the level (`HybridInv`). So the level at which the phase goes over to
the pull block is the same in every run of the real test (`EntersPull.unique`). -/
namespace GraphBenchmark
open Interleaving Levels
set_option autoImplicit false

/-! ## The switch test -/

/-- The spans of the vertices of a level, added up as the code does. -/
noncomputable def Graph.levelSpan (g : Graph) (start : UInt32) (k : ℕ) : UInt64 :=
  ∑ᶠ (v) (_ : DistIs g.OutRead start k v), g.span v

/-- `explored` at the test of iteration `k`. -/
noncomputable def Graph.exploredAt (g : Graph) (start : UInt32) (k : ℕ) : UInt64 :=
  ∑ j ∈ Finset.range k, g.levelSpan start j

/-- The combined `edges_in_frontier` at the test of iteration `k`. -/
noncomputable def Graph.edgesAt (g : Graph) (start : UInt32) (k : ℕ) : UInt64 :=
  if k = 0 then 0 else g.levelSpan start k

/-- The switch test of iteration `k` succeeds. -/
def Graph.Switches (g : Graph) (start : UInt32) (k : ℕ) : Prop :=
  g.edgesAt start k > UInt64.ofNat g.nbEdges - g.exploredAt start k

/-- With the real test the push phase ends in iteration `k`: it is the first one with an empty level or a
test that succeeds. -/
def Graph.EntersPull (g : Graph) (start : UInt32) (k : ℕ) : Prop :=
  (∀ j < k, (∃ v, DistIs g.OutRead start j v) ∧ ¬ g.Switches start j) ∧
    ((∀ v, ¬ DistIs g.OutRead start k v) ∨ g.Switches start k)

theorem Graph.EntersPull.unique {g : Graph} {start : UInt32} {j k : ℕ} (hj : g.EntersPull start j)
    (hk : g.EntersPull start k) : j = k := by
  have hle : ∀ {j k : ℕ}, g.EntersPull start j → g.EntersPull start k → j ≤ k := by
    intro j k hj hk
    by_contra hlt
    obtain ⟨⟨v, hv⟩, hns⟩ := hj.1 k (by omega)
    exact hk.2.elim (fun h => h v hv) hns
  exact Nat.le_antisymm (hle hj hk) (hle hk hj)

theorem sum_map_eq_finsum {V M : Type*} [DecidableEq V] [AddCommMonoid M] {l : List V} {P : V → Prop} (f : V → M)
    (hl : l.Nodup) (hP : ∀ v, v ∈ l ↔ P v) : (l.map f).sum = ∑ᶠ (v) (_ : P v), f v := by
  rw [← List.sum_toFinset f hl, ← finsum_mem_coe_finset]
  simp only [List.coe_toFinset, Set.mem_ofPred_eq, hP]

/-! ## The run -/

inductive HybridPushStep (g : Graph) (free : Bool) (s : HybridState) : HybridState → Prop
  | switch (hp : s.pc = .head) (hne : s.frontier ≠ []) (hb : free = true ∨ s.switch g = true) :
      HybridPushStep g free s { s with pc := .pull }
  | stay (hp : s.pc = .head) (hne : s.frontier ≠ []) (hb : free = true ∨ s.switch g = false) :
      HybridPushStep g free s { s with shared := { s.shared with edgesInFrontier := 0 }, pc := .ready }
  | fall (hp : s.pc = .head) (hnil : s.frontier = []) : HybridPushStep g free s { s with pc := .pull }
  | launch {rs : List BlockedRange} (hp : s.pc = .ready) (hrs : Split s.frontier.length rs) :
      HybridPushStep g free s { s with level := s.level + 1, tasks := rs.map HybridTask.ofRange, pc := .pass }
  | work {i : ℕ} {o : HybridShared} {ts : List HybridTask} (hp : s.pc = .pass)
      (hw : work (hybridBody g s.frontier) s.shared s.tasks i = some (o, ts)) :
      HybridPushStep g free s { s with shared := o, tasks := ts }
  | join (hp : s.pc = .pass) (hdone : ∀ t ∈ s.tasks, t.stage = .through) :
      HybridPushStep g free s { s with
        shared := { s.shared with frontierNext := [] }
        frontier := s.shared.frontierNext
        tasks := []
        pc := .head }

theorem hybridPush_step {g : Graph} {free : Bool} {s s' : HybridState} {a : HybridAct}
    (h : hybridPush g free s a = some s') : HybridPushStep g free s s' := by
  cases a with
  | test b =>
    simp only [hybridPush] at h
    split at h
    · rename_i hc
      obtain ⟨hp, hne, hb⟩ := hc
      cases b with
      | true =>
        cases h
        exact .switch hp hne (hb.imp_right Eq.symm)
      | false =>
        cases h
        exact .stay hp hne (hb.imp_right Eq.symm)
    · cases h
  | fall =>
    simp only [hybridPush] at h
    split at h
    · rename_i hc
      cases h
      exact .fall hc.1 hc.2
    · cases h
  | launch rs =>
    simp only [hybridPush] at h
    split at h
    · rename_i hc
      cases h
      exact .launch hc.1 hc.2
    · cases h
  | work i =>
    simp only [hybridPush] at h
    split at h
    · rename_i hp
      obtain ⟨⟨o, ts⟩, hw, rfl⟩ := Option.map_eq_some_iff.mp h
      exact .work hp hw
    · cases h
  | join =>
    simp only [hybridPush] at h
    split at h
    · rename_i hc
      cases h
      exact .join hc.1 hc.2
    · cases h

structure AtTest (g : Graph) (start : UInt32) (s : HybridState) : Prop where
  nodup : s.frontier.Nodup
  mem : ∀ v, v ∈ s.frontier ↔ DistIs g.OutRead start s.level v
  next : s.shared.frontierNext = []
  visited : ∀ v : UInt32, s.shared.visited v.toNat ≠ 0 ↔ Within g.OutRead start s.level v
  explored : s.shared.explored = g.exploredAt start s.level
  bytes : Bytes s.shared.visited

/-- Iteration `k` did not end the phase. -/
def Passed (g : Graph) (start : UInt32) (free : Bool) (k : ℕ) : Prop :=
  (∃ v, DistIs g.OutRead start k v) ∧ (free = false → ¬ g.Switches start k)

structure HybridInv (g : Graph) (start : UInt32) (free : Bool) (s : HybridState) : Prop where
  head : s.pc = .head → AtTest g start s ∧ s.shared.edgesInFrontier = g.edgesAt start s.level ∧
    ∀ j < s.level, Passed g start free j
  ready : s.pc = .ready → AtTest g start s ∧ s.shared.edgesInFrontier = 0 ∧ ∀ j < s.level + 1, Passed g start free j
  pass : s.pc = .pass → ∃ k, s.level = k + 1 ∧ s.frontier.Nodup ∧ (∀ v, v ∈ s.frontier ↔ DistIs g.OutRead start k v) ∧
    (∀ j < k + 1, Passed g start free j) ∧
    HybridPassInv g s.frontier (Within g.OutRead start k) (g.exploredAt start k) s.shared s.tasks
  pull : s.pc = .pull → AtTest g start s ∧ (∀ j < s.level, Passed g start free j) ∧
    (free = false → (∀ v, ¬ DistIs g.OutRead start s.level v) ∨ g.Switches start s.level)

section Run
variable {g : Graph} {start : UInt32} {free : Bool} {s s' : HybridState}

theorem hybridInv_init : HybridInv g start free (HybridState.init start) := by
  refine ⟨fun _ => ⟨⟨List.nodup_singleton start, fun v => ?_, rfl, fun v => ?_, rfl, Bytes.zero.mark start⟩, rfl,
    fun j hj => absurd hj (Nat.not_lt_zero j)⟩, nofun, nofun, nofun⟩
  · show v ∈ [start] ↔ DistIs g.OutRead start 0 v
    rw [List.mem_singleton, distIs_zero_iff]
  · show Function.update (fun _ => (0 : UInt8)) start.toNat 1 v.toNat ≠ 0 ↔ Within g.OutRead start 0 v
    rw [within_zero_iff, visited_init]

theorem AtTest.switch_iff (h : AtTest g start s) (hedges : s.shared.edgesInFrontier = g.edgesAt start s.level) :
    s.switch g = true ↔ g.Switches start s.level := by
  unfold HybridState.switch Graph.Switches
  rw [decide_eq_true_iff, hedges, h.explored]

theorem hybridInv_step (h : HybridInv g start free s) {a : HybridAct} (ha : hybridPush g free s a = some s') :
    HybridInv g start free s' := by
  cases hybridPush_step ha with
  | switch hp hne hb =>
    obtain ⟨hat, hedges, hpassed⟩ := h.head hp
    refine ⟨nofun, nofun, nofun, fun _ => ⟨⟨hat.nodup, hat.mem, hat.next, hat.visited, hat.explored, hat.bytes⟩,
      hpassed, fun hfree => Or.inr ((hat.switch_iff hedges).mp (hb.resolve_left ?_))⟩⟩
    rw [hfree]
    exact Bool.false_ne_true
  | stay hp hne hb =>
    obtain ⟨hat, hedges, hpassed⟩ := h.head hp
    refine ⟨nofun, fun _ => ⟨⟨hat.nodup, hat.mem, hat.next, hat.visited, hat.explored, hat.bytes⟩, rfl,
      fun j hj => ?_⟩, nofun, nofun⟩
    rcases Nat.lt_or_ge j s.level with hlt | hge
    · exact hpassed j hlt
    · obtain rfl : j = s.level := by
        have hj' : j < s.level + 1 := hj
        omega
      obtain ⟨v, hv⟩ := List.exists_mem_of_ne_nil _ hne
      refine ⟨⟨v, (hat.mem v).mp hv⟩, fun hfree hsw => ?_⟩
      rcases hb with hb | hb
      · exact Bool.false_ne_true (hfree.symm.trans hb)
      · exact Bool.false_ne_true (hb.symm.trans ((hat.switch_iff hedges).mpr hsw))
  | fall hp hnil =>
    obtain ⟨hat, -, hpassed⟩ := h.head hp
    refine ⟨nofun, nofun, nofun, fun _ => ⟨⟨hat.nodup, hat.mem, hat.next, hat.visited, hat.explored, hat.bytes⟩,
      hpassed, fun _ => Or.inl fun v hv => ?_⟩⟩
    have hmem := (hat.mem v).mpr hv
    rw [hnil] at hmem
    cases hmem
  | launch hp hrs =>
    obtain ⟨hat, hedges, hpassed⟩ := h.ready hp
    refine ⟨nofun, nofun, fun _ => ⟨s.level, rfl, hat.nodup, hat.mem, hpassed, ?_⟩, nofun⟩
    have hV : (fun v : UInt32 => s.shared.visited v.toNat ≠ 0) = Within g.OutRead start s.level := by
      funext v
      exact propext (hat.visited v)
    rw [← hV, ← hat.explored]
    exact hybridPass_launch hrs hat.next hedges hat.bytes
  | work hp hw =>
    obtain ⟨k, hk, hnodup, hmem, hpassed, hpass⟩ := h.pass hp
    exact ⟨fun hp' => absurd (hp'.symm.trans hp) nofun, fun hp' => absurd (hp'.symm.trans hp) nofun,
      fun _ => ⟨k, hk, hnodup, hmem, hpassed, hybridPass_work hpass hw⟩, fun hp' => absurd (hp'.symm.trans hp) nofun⟩
  | join hp hdone =>
    obtain ⟨k, hk, hnodup, hmem, hpassed, hpass⟩ := h.pass hp
    obtain ⟨hvis, hnodup', hnew, hexplored, hedges⟩ := hybridPass_finish hpass hdone
    have hnext : ∀ v, g.NextOfList s.frontier v ↔ ∃ u, DistIs g.OutRead start k u ∧ g.OutRead u v := fun v =>
      exists_congr fun u => and_congr_left' (hmem u)
    have hlevel : ∀ v, v ∈ s.shared.frontierNext ↔ DistIs g.OutRead start (k + 1) v := fun v => by
      rw [hnew, hnext, distIs_succ_iff, and_comm]
    refine ⟨fun _ => ⟨⟨hnodup', fun v => ?_, rfl, fun v => ?_, ?_, hpass.bytes⟩, ?_, ?_⟩, nofun, nofun, nofun⟩
    · rw [hlevel, hk]
    · rw [hvis, hnext, hk, within_succ_iff]
    · show s.shared.explored = g.exploredAt start s.level
      rw [hexplored, hk, Graph.exploredAt, Graph.exploredAt, Finset.sum_range_succ, Graph.levelSpan,
        sum_map_eq_finsum g.span hnodup hmem]
    · show s.shared.edgesInFrontier = g.edgesAt start s.level
      rw [hedges, hk, Graph.edgesAt, if_neg (Nat.succ_ne_zero k), Graph.levelSpan,
        sum_map_eq_finsum g.span hnodup' hlevel]
    · show ∀ j < s.level, Passed g start free j
      rw [hk]
      exact hpassed

def HybridState.measure (g : Graph) (s : HybridState) : ℕ × ℕ :=
  (2 ^ 32 - s.level, match s.pc with
    | .head => 2
    | .ready => 1
    | .pass => (s.tasks.map (HybridTask.weight g s.frontier)).sum + 3
    | .pull => 0)

theorem hybridPush_measure (h : HybridInv g start free s) {a : HybridAct} (ha : hybridPush g free s a = some s') :
    Prod.Lex (· < ·) (· < ·) (s'.measure g) (s.measure g) := by
  cases hybridPush_step ha with
  | launch hp hrs =>
    obtain ⟨-, -, hpassed⟩ := h.ready hp
    obtain ⟨⟨v, hv⟩, -⟩ := hpassed s.level (Nat.lt_succ_self _)
    have hlt := level_lt hv
    apply Prod.Lex.left
    show 2 ^ 32 - (s.level + 1) < 2 ^ 32 - s.level
    omega
  | work hp hw =>
    have hlt := work_weight_lt hw fun t t' ht => (hybridBody_step ht).weight_lt
    apply Prod.Lex.right
    simp only [hp]
    omega
  | switch hp _ _ | stay hp _ _ | fall hp _ | join hp _ =>
    apply Prod.Lex.right
    simp only [hp]
    omega

theorem hybridPush_stuck (hn : ∀ a, hybridPush g free s a = none) : s.pc = .pull := by
  cases hpc : s.pc with
  | head =>
    by_cases hne : s.frontier = []
    · have h := hn .fall
      simp only [hybridPush] at h
      rw [if_pos ⟨hpc, hne⟩] at h
      cases h
    · have h := hn (.test (s.switch g))
      simp only [hybridPush] at h
      rw [if_pos ⟨hpc, hne, Or.inr trivial⟩] at h
      cases h
  | ready =>
    obtain ⟨rs, hrs⟩ := exists_split s.frontier.length
    have h := hn (.launch rs)
    simp only [hybridPush] at h
    rw [if_pos ⟨hpc, hrs⟩] at h
    cases h
  | pass =>
    have hwork := fun i => hn (.work i)
    simp only [hybridPush, hpc, if_true] at hwork
    have hall := through_of_stuck (P := fun t => t.stage = .through) (fun _ hstage => hybridBody_isSome hstage) hwork
    have h := hn .join
    simp only [hybridPush] at h
    rw [if_pos ⟨hpc, hall⟩] at h
    cases h
  | pull => rfl

/-- Every schedule of the push phase is finite and comes to the pull block. -/
theorem hybridPush_ends (g : Graph) (free : Bool) (h : HybridInv g start free s) :
    Ends (hybridPush g free) s fun t => t.pc = .pull :=
  ends_of_invariant (Prod.lex Nat.lt_wfRel Nat.lt_wfRel).wf (HybridState.measure g)
    (fun _ _ _ hu ha => hybridInv_step hu ha) (fun _ _ _ hu ha => hybridPush_measure hu ha)
    (fun _ _ hn => hybridPush_stuck hn) h

theorem HybridInv.of_reach (h : HybridInv g start free s) (hr : Reach (hybridPush g free) s s') :
    HybridInv g start free s' := hr.invariant h fun _ _ _ hu ha => hybridInv_step hu ha

/-- With the real test the phase ends where `EntersPull` says. -/
theorem HybridInv.entersPull (h : HybridInv g start false s) (hp : s.pc = .pull) : g.EntersPull start s.level := by
  obtain ⟨-, hpassed, hlast⟩ := h.pull hp
  exact ⟨fun j hj => ⟨(hpassed j hj).1, (hpassed j hj).2 rfl⟩, hlast rfl⟩

end Run

end GraphBenchmark
