import GraphBenchmark.Bfs.PullRound
import GraphBenchmark.Foundations.Rounds
import Mathlib.Data.FinEnum

/-! # Runs of the pull loop

Whatever the arrays hold at the start, the loop goes through the rounds (`Cfg.rounds`) of the search along
the in-edges it reads: `PullInv` is kept by every step of every schedule, and `pullLoop_ends` says that the
loop stops after the first round without a fresh vertex. -/
namespace GraphBenchmark
open Interleaving Levels
set_option autoImplicit false

/-! ## The steps -/

inductive PullLoopStep (g : Graph) (s : PullState) : PullState → Prop
  | launch {rs : List BlockedRange} (hp : s.pc = .head) (hrs : Split g.nbNodes rs) :
      PullLoopStep g s { s with
        shared := { s.shared with cont := false }
        iterations := s.iterations + 1
        tasks := rs.map PullTask.ofRange
        pc := .round }
  | work {i : ℕ} {o : PullShared} {ts : List PullTask} (hp : s.pc = .round)
      (hw : work (pullBody g s.inFrontier) s.shared s.tasks i = some (o, ts)) :
      PullLoopStep g s { s with shared := o, tasks := ts }
  | join (hp : s.pc = .round) (hdone : ∀ t ∈ s.tasks, t.stage = .through) :
      PullLoopStep g s { s with
        shared := { s.shared with inFrontierNext := clearMap s.inFrontier g.nbNodes }
        inFrontier := s.shared.inFrontierNext
        tasks := []
        pc := if s.shared.cont then .head else .done }

theorem pullLoop_step {g : Graph} {s s' : PullState} {a : PullAct} (h : pullLoop g s a = some s') :
    PullLoopStep g s s' := by
  cases a with
  | launch rs =>
    simp only [pullLoop] at h
    split at h
    · rename_i hc
      cases h
      exact .launch hc.1 hc.2
    · cases h
  | work i =>
    simp only [pullLoop] at h
    split at h
    · rename_i hp
      obtain ⟨⟨o, ts⟩, hw, rfl⟩ := Option.map_eq_some_iff.mp h
      exact .work hp hw
    · cases h
  | join =>
    simp only [pullLoop] at h
    split at h
    · rename_i hc
      cases h
      exact .join hc.1 hc.2
    · cases h

/-! ## The invariant -/

theorem card_id_le : Nat.card UInt32 ≤ 2 ^ 32 := by
  have h := Nat.card_le_card_of_injective UInt32.toFin fun _ _ h => UInt32.toFin_inj.mp h
  rwa [Nat.card_fin] at h

/-- The sets the arrays stand for. -/
def Graph.cfg (g : Graph) (visited : ℕ → UInt8) (inFrontier inFrontierNext : ℕ → Bool) : Cfg UInt32 where
  vis v := visited v.toNat ≠ 0
  front v := v.toNat < g.nbNodes ∧ inFrontier v.toNat = true
  next v := v.toNat < g.nbNodes ∧ inFrontierNext v.toNat = true

def PullState.cfg (g : Graph) (s : PullState) : Cfg UInt32 :=
  g.cfg s.shared.visited s.inFrontier s.shared.inFrontierNext

/-- The sets of level `k` of the edges `bfs_push` reads, with the set bytes of the two maps added. -/
def Graph.entry (g : Graph) (start : UInt32) (k : ℕ) (mem memNext : ℕ → Bool) : Cfg UInt32 where
  vis := Within g.OutRead start k
  front v := v.toNat < g.nbNodes ∧ (mem v.toNat = true ∨ DistIs g.OutRead start k v)
  next v := v.toNat < g.nbNodes ∧ memNext v.toNat = true

def Blank (n : ℕ) (mem : ℕ → Bool) : Prop := ∀ i < n, mem i = false

/-- What holds in every state of a run that began with the sets `c`. -/
structure PullInv (g : Graph) (c : Cfg UInt32) (s : PullState) : Prop where
  head : s.pc = .head → s.cfg g = c.rounds g.Pulls s.iterations ∧
    ∀ j < s.iterations, ∃ v, (c.rounds g.Pulls j).fresh g.Pulls v
  round : s.pc = .round → ∃ k H, s.iterations = k + 1 ∧ (∀ j < k, ∃ v, (c.rounds g.Pulls j).fresh g.Pulls v) ∧
    (∀ v, (c.rounds g.Pulls k).front v ↔ v.toNat < g.nbNodes ∧ s.inFrontier v.toNat = true) ∧
    (∀ v, (c.rounds g.Pulls k).next v ↔ v.toNat < g.nbNodes ∧ H v) ∧
    RoundInv g s.inFrontier (c.rounds g.Pulls k).vis H s.shared s.tasks
  done : s.pc = .done → ∃ k, s.iterations = k + 1 ∧ s.cfg g = c.rounds g.Pulls (k + 1) ∧
    (∀ j < k, ∃ v, (c.rounds g.Pulls j).fresh g.Pulls v) ∧ ∀ v, ¬ (c.rounds g.Pulls k).fresh g.Pulls v
  bytes : Bytes s.shared.visited

section Run
variable {g : Graph} {c : Cfg UInt32} {s s' : PullState} {visited : ℕ → UInt8} {inFrontier inFrontierNext : ℕ → Bool}

theorem pullInv_enter (hbytes : Bytes visited) :
    PullInv g (g.cfg visited inFrontier inFrontierNext) (PullState.enter visited inFrontier inFrontierNext) :=
  ⟨fun _ => ⟨rfl, fun j hj => absurd hj (Nat.not_lt_zero j)⟩, nofun, nofun, hbytes⟩

theorem cfg_init {start : UInt32} {mem memNext : ℕ → Bool} :
    (PullState.init start mem memNext).cfg g = g.entry start 0 mem memNext := by
  refine Cfg.ext_iff'.mpr ⟨fun v => ?_, fun v => ?_, fun v => Iff.rfl⟩
  · show Function.update (fun _ => (0 : UInt8)) start.toNat 1 v.toNat ≠ 0 ↔ Within g.OutRead start 0 v
    rw [within_zero_iff, visited_init]
  · show v.toNat < g.nbNodes ∧ Function.update mem start.toNat true v.toNat = true ↔
      v.toNat < g.nbNodes ∧ (mem v.toNat = true ∨ DistIs g.OutRead start 0 v)
    rw [distIs_zero_iff, update_vertex_iff (P := (· = true)) rfl]

theorem entry_blank {start : UInt32} {k : ℕ} {mem memNext : ℕ → Bool} (hmem : Blank g.nbNodes mem)
    (hnext : Blank g.nbNodes memNext) (hlt : ∀ v, DistIs g.OutRead start k v → v.toNat < g.nbNodes) :
    g.entry start k mem memNext = Cfg.level g.OutRead start k := by
  refine Cfg.ext_iff'.mpr ⟨fun v => Iff.rfl, fun v => ?_, fun v => ?_⟩
  · constructor
    · intro ⟨hv, h⟩
      rcases h with h | h
      · rw [hmem _ hv] at h
        cases h
      · exact h
    · exact fun h => ⟨hlt v h, Or.inr h⟩
  · refine ⟨fun ⟨hv, h⟩ => ?_, False.elim⟩
    rw [hnext _ hv] at h
    cases h

theorem fresh_iff_fed (hin : g.InWellFormed) {map : ℕ → Bool} {v : UInt32}
    (hfront : ∀ u, c.front u ↔ u.toNat < g.nbNodes ∧ map u.toNat = true) :
    c.fresh g.Pulls v ↔ ¬ c.vis v ∧ v.toNat < g.nbNodes ∧ g.Fed map v := by
  unfold Cfg.fresh Graph.Pulls Graph.Fed
  refine and_congr_right fun _ => ⟨?_, ?_⟩
  · intro ⟨u, hu, hv, he⟩
    exact ⟨hv, u, he, ((hfront u).mp hu).2⟩
  · intro ⟨hv, u, he, hu⟩
    exact ⟨u, (hfront u).mpr ⟨inRead_lt hin hv he, hu⟩, hv, he⟩

theorem pullInv_step (hin : g.InWellFormed) (h : PullInv g c s) {a : PullAct} (ha : pullLoop g s a = some s') :
    PullInv g c s' := by
  cases pullLoop_step ha with
  | launch hp hrs =>
    obtain ⟨hcfg, hpos⟩ := h.head hp
    refine ⟨nofun, fun _ => ⟨s.iterations, fun v => s.shared.inFrontierNext v.toNat = true, rfl, hpos, fun v => ?_,
      fun v => ?_, ?_⟩, nofun, h.bytes⟩
    · rw [← hcfg]
      exact Iff.rfl
    · rw [← hcfg]
      exact Iff.rfl
    · rw [← hcfg]
      exact roundInv_launch (s := { s.shared with cont := false }) hrs rfl h.bytes
  | work hp hw =>
    obtain ⟨k, H, hk, hpos, hfront, hnext, hround⟩ := h.round hp
    have hround' := roundInv_work hround hw
    exact ⟨fun hp' => absurd (hp'.symm.trans hp) nofun, fun _ => ⟨k, H, hk, hpos, hfront, hnext, hround'⟩,
      fun hp' => absurd (hp'.symm.trans hp) nofun, hround'.bytes⟩
  | join hp hdone =>
    obtain ⟨k, H, hk, hpos, hfront, hnext, hround⟩ := h.round hp
    obtain ⟨hvis, hnew, hcont⟩ := roundInv_finish hround hdone
    have hfresh : ∀ v, (c.rounds g.Pulls k).fresh g.Pulls v ↔
        ¬ (c.rounds g.Pulls k).vis v ∧ v.toNat < g.nbNodes ∧ g.Fed s.inFrontier v := fun v => fresh_iff_fed hin hfront
    have hcfg : g.cfg s.shared.visited s.shared.inFrontierNext (clearMap s.inFrontier g.nbNodes) =
        c.rounds g.Pulls (k + 1) := by
      refine Cfg.ext_iff'.mpr ⟨fun v => ?_, fun v => ?_, fun v => ?_⟩
      · show s.shared.visited v.toNat ≠ 0 ↔ (c.rounds g.Pulls k).vis v ∨ (c.rounds g.Pulls k).fresh g.Pulls v
        rw [hvis, hfresh]
        tauto
      · show v.toNat < g.nbNodes ∧ s.shared.inFrontierNext v.toNat = true ↔
          (c.rounds g.Pulls k).next v ∨ (c.rounds g.Pulls k).fresh g.Pulls v
        rw [hnew, hfresh, hnext]
        tauto
      · show v.toNat < g.nbNodes ∧ clearMap s.inFrontier g.nbNodes v.toNat = true ↔ False
        unfold clearMap
        by_cases hv : v.toNat < g.nbNodes <;> simp [hv]
    have hany : s.shared.cont = true ↔ ∃ v, (c.rounds g.Pulls k).fresh g.Pulls v := by
      rw [hcont]
      exact exists_congr fun v => by rw [hfresh]; tauto
    refine ⟨fun hp' => ⟨?_, fun j hj => ?_⟩, fun hp' => ?_, fun hp' => ?_, hround.bytes⟩
    · show g.cfg s.shared.visited s.shared.inFrontierNext (clearMap s.inFrontier g.nbNodes) = _
      rw [hcfg, hk]
    · have hcont' : s.shared.cont = true := by
        by_contra hne
        rw [if_neg hne] at hp'
        cases hp'
      have hj' : j < k + 1 := hk ▸ hj
      rcases Nat.lt_or_ge j k with hlt | hge
      · exact hpos j hlt
      · obtain rfl : j = k := by omega
        exact hany.mp hcont'
    · revert hp'
      cases s.shared.cont <;> intro hp' <;> cases hp'
    · have hcont' : ¬ s.shared.cont = true := by
        intro heq
        rw [if_pos heq] at hp'
        cases hp'
      exact ⟨k, hk, hcfg, hpos, fun v hv => hcont' (hany.mpr ⟨v, hv⟩)⟩

/-! ## Termination -/

def PullState.measure (g : Graph) (s : PullState) : ℕ × ℕ :=
  (2 ^ 32 + 1 - s.iterations, match s.pc with
    | .head => 1
    | .round => (s.tasks.map (PullTask.weight g)).sum + 2
    | .done => 0)

theorem pullLoop_measure (h : PullInv g c s) {a : PullAct} (ha : pullLoop g s a = some s') :
    Prod.Lex (· < ·) (· < ·) (s'.measure g) (s.measure g) := by
  cases pullLoop_step ha with
  | launch hp hrs =>
    obtain ⟨-, hpos⟩ := h.head hp
    have hle := ((Cfg.le_ncard_rounds hpos).trans (Set.ncard_le_card _)).trans card_id_le
    apply Prod.Lex.left
    show 2 ^ 32 + 1 - (s.iterations + 1) < 2 ^ 32 + 1 - s.iterations
    omega
  | work hp hw =>
    have hlt := work_weight_lt hw fun t t' ht => (pullBody_step ht).weight_lt
    apply Prod.Lex.right
    simp only [hp]
    omega
  | join hp hdone =>
    apply Prod.Lex.right
    simp only [hp]
    cases s.shared.cont <;> simp

theorem pullLoop_stuck (hn : ∀ a, pullLoop g s a = none) : s.pc = .done := by
  cases hpc : s.pc with
  | head =>
    obtain ⟨rs, hrs⟩ := exists_split g.nbNodes
    have h := hn (.launch rs)
    simp only [pullLoop] at h
    rw [if_pos ⟨hpc, hrs⟩] at h
    cases h
  | round =>
    have hwork := fun i => hn (.work i)
    simp only [pullLoop, hpc, if_true] at hwork
    have hall := through_of_stuck (P := fun t => t.stage = .through) (fun _ hstage => pullBody_isSome hstage) hwork
    have h := hn .join
    simp only [pullLoop] at h
    rw [if_pos ⟨hpc, hall⟩] at h
    cases h
  | done => rfl

theorem pullLoop_ends (hin : g.InWellFormed) (hbytes : Bytes visited) :
    Ends (pullLoop g) (PullState.enter visited inFrontier inFrontierNext) fun s =>
      PullInv g (g.cfg visited inFrontier inFrontierNext) s ∧ s.pc = .done :=
  ends_of_invariant (Prod.lex Nat.lt_wfRel Nat.lt_wfRel).wf (PullState.measure g)
    (fun _ _ _ hu ha => pullInv_step hin hu ha) (fun _ _ _ hu ha => pullLoop_measure hu ha)
    (fun _ hs hn => ⟨hs, pullLoop_stuck hn⟩) (pullInv_enter hbytes)

/-- The loop ends with what the frontier and the next map lead to. -/
theorem PullInv.led (h : PullInv g c s) (hp : s.pc = .done) (v : UInt32) :
    s.shared.visited v.toNat ≠ 0 ↔ c.vis v ∨ c.Led g.Pulls v := by
  obtain ⟨k, -, hcfg, hpos, hlast⟩ := h.done hp
  have hvis : s.shared.visited v.toNat ≠ 0 ↔ (c.rounds g.Pulls (k + 1)).vis v := by
    rw [← hcfg]
    exact Iff.rfl
  -- the last round finds nothing, so the visited set is the one before it
  exact hvis.trans ((or_iff_left (hlast v)).trans (Cfg.rounds_vis_iff hlast hpos))

theorem PullInv.reach {start : UInt32} {j : ℕ} (h : PullInv g (Cfg.level g.Pulls start j) s) (hp : s.pc = .done)
    (v : UInt32) : s.shared.visited v.toNat = 1 ↔ Relation.ReflTransGen g.Pulls start v := by
  obtain ⟨k, -, hcfg, -, hlast⟩ := h.done hp
  have hvis : s.shared.visited v.toNat ≠ 0 ↔ ((Cfg.level g.Pulls start j).rounds g.Pulls (k + 1)).vis v := by
    rw [← hcfg]
    exact Iff.rfl
  rw [Cfg.rounds_level] at hvis
  simp only [Cfg.rounds_level, Cfg.fresh_level] at hlast
  rw [← h.bytes.ne_zero_iff, hvis]
  constructor
  · exact Within.reach
  · intro hr
    exact ((reach_iff_within hlast).mp hr).mono (by omega)

end Run

end GraphBenchmark
