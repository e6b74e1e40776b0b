import GraphBenchmark.PageRank.Adding

/-! # Runs of `pr_push`

`rankStep` is one iteration on exact numbers. At the top of iteration `j` the array `prev` holds its `j`-fold
iterate and `rank` is clear (`PrInv`), whatever the schedule, and every schedule ends (`prPush_ends`). -/
namespace GraphBenchmark
open Interleaving Words
set_option autoImplicit false

/-- Every vertex sends half its value along each of its out-edges; the sums are taken modulo `2^32` and halved. -/
def Graph.rankStep (g : Graph) (p : ℕ → ℕ) (v : ℕ) : ℕ :=
  ((∑ u ∈ Finset.range g.nbNodes, ((g.outSlice u).map UInt32.toNat).count v * (p u / 2)) % 2 ^ 32) / 2

/-- The values after `j` iterations. -/
def Graph.ranksAt (g : Graph) (j : ℕ) : ℕ → ℕ := g.rankStep^[j] fun _ => 4

section Step
variable {g : Graph} {p : ℕ → ℕ} {prev : ℕ → UInt32}

theorem carried_eq (prev : ℕ → UInt32) (v : ℕ) : g.carried prev v = UInt32.ofNat
    (∑ u ∈ Finset.range g.nbNodes, ((g.outSlice u).map UInt32.toNat).count v * ((prev u).toNat / 2)) := by
  rw [show ∑ u ∈ Finset.range g.nbNodes, ((g.outSlice u).map UInt32.toNat).count v * ((prev u).toNat / 2) =
    ((List.range g.nbNodes).map fun u => ((g.outSlice u).map UInt32.toNat).count v * ((prev u).toNat / 2)).sum from rfl,
    ← list_sum_ofNat32, Graph.carried]
  refine congrArg List.sum (List.map_congr_left fun u _ => ?_)
  rw [share_eq, UInt32.toNat_div]
  rfl

theorem halved_carried (hprev : ∀ u < g.nbNodes, (prev u).toNat = p u) (v : ℕ) :
    (g.carried prev v / 2).toNat = g.rankStep p v := by
  rw [UInt32.toNat_div, carried_eq, UInt32.toNat_ofNat',
    Finset.sum_congr rfl fun u hu => by rw [hprev u (Finset.mem_range.mp hu)]]
  rfl

theorem ranksAt_succ (j : ℕ) : g.ranksAt (j + 1) = g.rankStep (g.ranksAt j) := Function.iterate_succ_apply' _ _ _

end Step

structure AtIter (g : Graph) (j : ℕ) (s : Ranks) : Prop where
  prev : ∀ v < g.nbNodes, (s.prev v).toNat = g.ranksAt j v
  rank : ∀ v < g.nbNodes, s.rank v = 0

/-- The ranks that iteration `j` leaves to the second region. -/
def Summed (g : Graph) (j : ℕ) (rank : ℕ → UInt32) : Prop := ∀ v < g.nbNodes, (rank v / 2).toNat = g.ranksAt j v

/-! ## The steps -/

inductive PrStep (g : Graph) (iteration : ℕ) (s : PrState) : PrState → Prop
  | launchAdd {rs : List BlockedRange} (hp : s.pc = .head) (hlt : s.it < iteration) (hrs : Split g.nbNodes rs) :
      PrStep g iteration s { s with it := s.it + 1, adders := rs.map AddTask.ofRange, pc := .adding }
  | launchHalve {rs : List BlockedRange} (hp : s.pc = .added) (hrs : Split g.nbNodes rs) :
      PrStep g iteration s { s with halvers := sweepTasks rs, pc := .halving }
  | add {i : ℕ} {r : Ranks} {ts : List AddTask} (hp : s.pc = .adding)
      (hw : work (addBody g) s.ranks s.adders i = some (r, ts)) :
      PrStep g iteration s { s with ranks := r, adders := ts }
  | halve {i : ℕ} {cells : ℕ → RankCell} {ts : List Sweep.Task} (hp : s.pc = .halving)
      (hw : work (Sweep.body halveStmts) s.ranks.cells s.halvers i = some (cells, ts)) :
      PrStep g iteration s { s with ranks := .ofCells cells, halvers := ts }
  | joinAdd (hp : s.pc = .adding) (hdone : ∀ t ∈ s.adders, t.through = true) :
      PrStep g iteration s { s with adders := [], pc := .added }
  | joinHalve (hp : s.pc = .halving) (hdone : ∀ t ∈ s.halvers, t.indices = []) :
      PrStep g iteration s { s with halvers := [], pc := .head }
  | exit (hp : s.pc = .head) (hge : iteration ≤ s.it) : PrStep g iteration s { s with pc := .done }

theorem prPush_step {g : Graph} {iteration : ℕ} {s s' : PrState} {a : PrAct} (h : prPush g iteration s a = some s') :
    PrStep g iteration s s' := by
  cases a with
  | launch rs =>
    simp only [prPush] at h
    split at h
    · rename_i hc
      cases h
      exact .launchAdd hc.1 hc.2.1 hc.2.2
    · split at h
      · rename_i hc
        cases h
        exact .launchHalve hc.1 hc.2
      · cases h
  | work i =>
    simp only [prPush] at h
    split at h
    · rename_i hp
      obtain ⟨⟨r, ts⟩, hw, rfl⟩ := Option.map_eq_some_iff.mp h
      exact .add hp hw
    · split at h
      · rename_i hp
        obtain ⟨⟨cells, ts⟩, hw, rfl⟩ := Option.map_eq_some_iff.mp h
        exact .halve hp hw
      · cases h
  | join =>
    simp only [prPush] at h
    split at h
    · rename_i hc
      cases h
      exact .joinAdd hc.1 hc.2
    · split at h
      · rename_i hc
        cases h
        exact .joinHalve hc.1 hc.2
      · cases h
  | exit =>
    simp only [prPush] at h
    split at h
    · rename_i hc
      cases h
      exact .exit hc.1 (Nat.le_of_not_lt hc.2)
    · cases h

/-! ## The invariant -/

structure PrInv (g : Graph) (iteration : ℕ) (s : PrState) : Prop where
  it_le : s.it ≤ iteration
  head : s.pc = .head → AtIter g s.it s.ranks
  adding : s.pc = .adding → ∃ j, s.it = j + 1 ∧ (∀ v < g.nbNodes, (s.ranks.prev v).toNat = g.ranksAt j v) ∧
    ∀ v < g.nbNodes, s.ranks.rank v + (s.adders.map (AddTask.owed g s.ranks.prev v)).sum = g.carried s.ranks.prev v
  added : s.pc = .added → Summed g s.it s.ranks.rank
  halving : s.pc = .halving → ∃ cells, Summed g s.it (fun v => (cells v).rank) ∧
    Sweep.Inv halveStmts g.nbNodes cells s.ranks.cells s.halvers
  done : s.pc = .done → s.it = iteration ∧ AtIter g s.it s.ranks

section Run
variable {g : Graph} {iteration : ℕ} {s s' : PrState}

theorem prInv_init : PrInv g iteration PrState.init :=
  ⟨Nat.zero_le _, fun _ => ⟨fun _ _ => rfl, fun _ _ => rfl⟩, nofun, nofun, nofun, nofun⟩

theorem prInv_step (h : PrInv g iteration s) {a : PrAct} (ha : prPush g iteration s a = some s') :
    PrInv g iteration s' := by
  cases prPush_step ha with
  | launchAdd hp hlt hrs =>
    obtain ⟨hprev, hrank⟩ := h.head hp
    refine ⟨hlt, nofun, fun _ => ⟨s.it, rfl, hprev, fun v hv => ?_⟩, nofun, nofun, nofun⟩
    rw [hrank v hv, owed_launch hrs, zero_add]
  | launchHalve hp hrs =>
    exact ⟨h.it_le, nofun, nofun, nofun, fun _ => ⟨s.ranks.cells, h.added hp, hrs.sweep_start⟩, nofun⟩
  | @add _ r ts hp hw =>
    obtain ⟨j, hj, hprev, hsum⟩ := h.adding hp
    have hframe : r.prev = s.ranks.prev := addWork_prev hw
    refine ⟨h.it_le, fun hp' => absurd (hp'.symm.trans hp) nofun, fun _ => ⟨j, hj, ?_, fun v hv => ?_⟩,
      fun hp' => absurd (hp'.symm.trans hp) nofun, fun hp' => absurd (hp'.symm.trans hp) nofun,
      fun hp' => absurd (hp'.symm.trans hp) nofun⟩
    · exact hframe ▸ hprev
    · show r.rank v + (ts.map (AddTask.owed g r.prev v)).sum = g.carried r.prev v
      rw [hframe, addWork_conserved hw, hsum v hv]
  | halve hp hw =>
    obtain ⟨cells, hsummed, hsweep⟩ := h.halving hp
    exact ⟨h.it_le, fun hp' => absurd (hp'.symm.trans hp) nofun, fun hp' => absurd (hp'.symm.trans hp) nofun,
      fun hp' => absurd (hp'.symm.trans hp) nofun, fun _ => ⟨cells, hsummed, hsweep.step hw⟩,
      fun hp' => absurd (hp'.symm.trans hp) nofun⟩
  | joinAdd hp hdone =>
    obtain ⟨j, hj, hprev, hsum⟩ := h.adding hp
    refine ⟨h.it_le, nofun, nofun, fun _ v hv => ?_, nofun, nofun⟩
    have hrank := hsum v hv
    rw [owed_through hdone, add_zero] at hrank
    show (s.ranks.rank v / 2).toNat = g.ranksAt s.it v
    rw [hrank, halved_carried hprev, hj, ranksAt_succ]
  | joinHalve hp hdone =>
    obtain ⟨cells, hsummed, hsweep⟩ := h.halving hp
    have hcell : ∀ v < g.nbNodes, s.ranks.cells v = ⟨0, (cells v).rank / 2⟩ := by
      intro v hv
      rw [hsweep.finish hdone, if_pos hv]
      rfl
    refine ⟨h.it_le, fun _ => ⟨fun v hv => ?_, fun v hv => ?_⟩, nofun, nofun, nofun, nofun⟩
    · show (s.ranks.cells v).prev.toNat = _
      rw [hcell v hv]
      exact hsummed v hv
    · show (s.ranks.cells v).rank = 0
      rw [hcell v hv]
  | exit hp hge => exact ⟨h.it_le, nofun, nofun, nofun, nofun, fun _ => ⟨Nat.le_antisymm h.it_le hge, h.head hp⟩⟩

def PrState.measure (g : Graph) (iteration : ℕ) (s : PrState) : ℕ × ℕ × ℕ × ℕ :=
  (iteration - s.it, match s.pc with
    | .adding => (4, (s.adders.map (AddTask.weight g)).sum, (s.adders.map (AddTask.attempt s.ranks)).sum)
    | .added => (3, 0, 0)
    | .halving => (2, (s.halvers.map (Sweep.Task.weight halveStmts)).sum, 0)
    | .head => (1, 0, 0)
    | .done => (0, 0, 0))

theorem prPush_measure {a : PrAct} (ha : prPush g iteration s a = some s') :
    Prod.Lex (· < ·) (Prod.Lex (· < ·) (Prod.Lex (· < ·) (· < ·))) (s'.measure g iteration) (s.measure g iteration) := by
  cases prPush_step ha with
  | launchAdd hp hlt hrs =>
    apply Prod.Lex.left
    show iteration - (s.it + 1) < iteration - s.it
    omega
  | add hp hw =>
    apply Prod.Lex.right
    simp only [hp]
    exact Prod.Lex.right _ (addWork_lex hw)
  | halve hp hw =>
    apply Prod.Lex.right
    simp only [hp]
    exact Prod.Lex.right _ (Prod.Lex.left _ _ (work_weight_lt hw fun _ _ hbody => Sweep.body_weight_lt hbody))
  | launchHalve hp _ | joinAdd hp _ | joinHalve hp _ | exit hp _ =>
    apply Prod.Lex.right
    simp only [hp]
    exact Prod.Lex.left _ _ (by decide)

theorem prPush_stuck (hn : ∀ a, prPush g iteration s a = none) : s.pc = .done := by
  obtain ⟨rs, hrs⟩ := exists_split g.nbNodes
  have hlaunch := hn (.launch rs)
  have hjoin := hn .join
  cases hpc : s.pc with
  | head =>
    by_cases hlt : s.it < iteration
    · simp only [prPush] at hlaunch
      rw [if_pos ⟨hpc, hlt, hrs⟩] at hlaunch
      cases hlaunch
    · have hexit := hn .exit
      simp only [prPush] at hexit
      rw [if_pos ⟨hpc, hlt⟩] at hexit
      cases hexit
  | adding =>
    have hwork := fun i => hn (.work i)
    simp only [prPush, hpc, if_true] at hwork
    have hall := through_of_stuck (P := fun t => t.through = true)
      (fun _ hthrough => addBody_isSome (Bool.eq_false_of_not_eq_true hthrough)) hwork
    simp only [prPush] at hjoin
    rw [if_pos ⟨hpc, hall⟩] at hjoin
    cases hjoin
  | added =>
    simp only [prPush] at hlaunch
    rw [if_neg fun hc => absurd (hc.1.symm.trans hpc) nofun, if_pos ⟨hpc, hrs⟩] at hlaunch
    cases hlaunch
  | halving =>
    have hwork := fun i => hn (.work i)
    simp only [prPush, hpc, reduceCtorEq, if_false, if_true] at hwork
    have hall := through_of_stuck (P := fun t => t.indices = []) (fun _ hne => Sweep.body_isSome hne) hwork
    simp only [prPush] at hjoin
    rw [if_neg fun hc => absurd (hc.1.symm.trans hpc) nofun, if_pos ⟨hpc, hall⟩] at hjoin
    cases hjoin
  | done => rfl

theorem prInv_of_reach (h : Reach (prPush g iteration) PrState.init s) : PrInv g iteration s :=
  h.invariant prInv_init fun _ _ _ hu ha => prInv_step hu ha

theorem PrInv.ends (h : PrInv g iteration s) : Ends (prPush g iteration) s fun s => s.pc = .done ∧
    ∀ v < g.nbNodes, (s.ranks.prev v).toNat = g.ranksAt iteration v ∧ s.ranks.rank v = 0 := by
  refine ends_of_invariant (P := PrInv g iteration) (WellFounded.prod_lex Nat.lt_wfRel.wf
    (WellFounded.prod_lex Nat.lt_wfRel.wf (WellFounded.prod_lex Nat.lt_wfRel.wf Nat.lt_wfRel.wf)))
    (PrState.measure g iteration) (fun _ _ _ hu ha => prInv_step hu ha) (fun _ _ _ _ ha => prPush_measure ha)
    (fun t ht hn => ?_) h
  have hp := prPush_stuck hn
  obtain ⟨hit, hat⟩ := ht.done hp
  rw [hit] at hat
  exact ⟨hp, fun v hv => ⟨hat.prev v hv, hat.rank v hv⟩⟩

end Run

/-- Every schedule of `pr_push` ends, with the iterate of `rankStep` in `prev` and a clear `rank`. -/
theorem prPush_ends (g : Graph) (iteration : ℕ) :
    Ends (prPush g iteration) PrState.init fun s => s.pc = .done ∧ ∀ v < g.nbNodes,
      (s.ranks.prev v).toNat = g.rankStep^[iteration] (fun _ => 4) v ∧ s.ranks.rank v = 0 := prInv_init.ends

end GraphBenchmark
