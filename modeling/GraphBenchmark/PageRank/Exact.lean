import GraphBenchmark.PageRank.Push
import Mathlib.Tactic.Ring

/-! # `pr_push` and exact numbers

The recurrence on unbounded numbers is `exactStep`. A rank always holds the sum of the additions made to it in
the iteration, modulo `2^32`; none of these sums wraps, and the run computes the recurrence, exactly when the
complete sums of the recurrence stay below `2^32` (`unwrapped_iff`). -/
namespace GraphBenchmark
open Interleaving Words
set_option autoImplicit false

/-! ## The recurrence -/

/-- What the edges carry to `v`, exactly. -/
def Graph.exactSum (g : Graph) (p : ℕ → ℕ) (v : ℕ) : ℕ :=
  ∑ u ∈ Finset.range g.nbNodes, ((g.outSlice u).map UInt32.toNat).count v * (p u / 2)

/-- `rankStep` without the wrap. -/
def Graph.exactStep (g : Graph) (p : ℕ → ℕ) (v : ℕ) : ℕ := g.exactSum p v / 2

def Graph.exactAt (g : Graph) (j : ℕ) : ℕ → ℕ := g.exactStep^[j] fun _ => 4

section Recurrence
variable {g : Graph} {p q : ℕ → ℕ} {j v : ℕ}

theorem exactSum_congr (h : ∀ u < g.nbNodes, p u = q u) (v : ℕ) : g.exactSum p v = g.exactSum q v :=
  Finset.sum_congr rfl fun u hu => by rw [h u (Finset.mem_range.mp hu)]

theorem exactAt_succ (j : ℕ) : g.exactAt (j + 1) = g.exactStep (g.exactAt j) := Function.iterate_succ_apply' _ _ _

theorem rankStep_eq (p : ℕ → ℕ) (v : ℕ) : g.rankStep p v = g.exactSum p v % 2 ^ 32 / 2 := rfl

/-- As long as no sum has wrapped the values are those of the recurrence. -/
theorem ranksAt_eq (h : ∀ i < j, ∀ v < g.nbNodes, g.exactSum (g.exactAt i) v < 2 ^ 32) :
    ∀ v < g.nbNodes, g.ranksAt j v = g.exactAt j v := by
  induction j with
  | zero => exact fun _ _ => rfl
  | succ j ih =>
    have hprev := ih fun i hi => h i (by omega)
    intro v hv
    rw [ranksAt_succ, exactAt_succ, rankStep_eq, exactSum_congr hprev, Nat.mod_eq_of_lt (h j (by omega) v hv)]
    rfl

end Recurrence

/-! ## The additions of a run -/

/-- A swap of `atomicAdd` that succeeded: the iteration, the vertex, and what it added to its rank. -/
structure Addition where
  it : ℕ
  dst : UInt32
  delta : UInt32

/-- The addition the next step of a task makes. -/
def AddTask.addition (s : Ranks) (t : AddTask) : Option (UInt32 × UInt32) :=
  match t.edges, t.old with
  | dst :: _, some old => if s.rank dst.toNat = old then some (dst, t.delta) else none
  | _, _ => none

/-- What the record of a run keeps of a step. -/
def additions (s : PrState) : PrAct → List Addition
  | .work i =>
    if s.pc = .adding then (s.adders[i]?.bind (AddTask.addition s.ranks)).toList.map fun p => ⟨s.it, p.1, p.2⟩ else []
  | _ => []

/-- The exact sum of the additions of iteration `it` to the rank of `v`. -/
def addedTo (log : List Addition) (it v : ℕ) : ℕ :=
  ((log.filter fun e => e.it = it ∧ e.dst.toNat = v).map fun e => e.delta.toNat).sum

/-- In every state every rank is the exact sum of what has been added to it, and the result is the value of the
recurrence. -/
structure Unwrapped (g : Graph) (iteration : ℕ) : Prop where
  sum : ∀ s log, Reach (logged additions (prPush g iteration)) (PrState.init, []) (s, log) →
    (s.pc = .adding ∨ s.pc = .added) → ∀ v < g.nbNodes, (s.ranks.rank v).toNat = addedTo log s.it v
  result : ∀ s, Reach (prPush g iteration) PrState.init s → s.pc = .done →
    ∀ v < g.nbNodes, (s.ranks.prev v).toNat = g.exactAt iteration v

/-- What a task has still to add to the rank of `v`, exactly. -/
def AddTask.due (g : Graph) (prev : ℕ → UInt32) (v : ℕ) (t : AddTask) : ℕ :=
  (t.edges.map UInt32.toNat).count v * t.delta.toNat +
    (t.indices.map fun u => ((g.outSlice u).map UInt32.toNat).count v * ((prev u).toNat / 2)).sum

/-- What an addition is for the vertex `v`. -/
def gain (v : ℕ) (p : UInt32 × UInt32) : ℕ := if p.1.toNat = v then p.2.toNat else 0

section Additions
variable {g : Graph} {s s' : Ranks} {t t' : AddTask} {ts ts' : List AddTask} {rs : List BlockedRange} {i v it : ℕ}
  {prev : ℕ → UInt32} {log : List Addition}

theorem owed_eq (t : AddTask) : t.owed g prev v = UInt32.ofNat (t.due g prev v) := by
  rw [AddTask.owed, AddTask.due, UInt32.ofNat_add, share_eq, ← list_sum_ofNat32]
  congr 2
  refine List.map_congr_left fun u _ => ?_
  rw [share_eq, UInt32.toNat_div]
  rfl

/-- A step makes the addition it records and owes that much less. -/
theorem AddStep.due (h : AddStep g s t s' t') :
    ((t.addition s).toList.map (gain v)).sum + t'.due g s.prev v = t.due g s.prev v := by
  cases h with
  | load => exact zero_add _
  | @swap is d ds x =>
    simp only [AddTask.addition, if_true, Option.toList_some, List.map_cons, List.map_nil, List.sum_cons, List.sum_nil,
      gain, AddTask.due, List.count_cons, beq_iff_eq]
    split <;> ring
  | retry h =>
    simp only [AddTask.addition, if_neg h]
    exact zero_add _
  | next =>
    simp only [AddTask.addition, AddTask.due, Option.toList_none, List.map_nil, List.sum_nil, List.count_nil,
      List.map_cons, List.sum_cons, UInt32.toNat_div, Nat.zero_mul, zero_add]
    rfl

theorem addedTo_append (log log' : List Addition) (it v : ℕ) :
    addedTo (log ++ log') it v = addedTo log it v + addedTo log' it v := by
  simp only [addedTo, List.filter_append, List.map_append, List.sum_append]

theorem addedTo_records (ps : List (UInt32 × UInt32)) :
    addedTo (ps.map fun p => ⟨it, p.1, p.2⟩) it v = (ps.map (gain v)).sum := by
  induction ps with
  | nil => rfl
  | cons p ps ih =>
    rw [List.map_cons, List.map_cons, List.sum_cons, ← ih, ← List.singleton_append, addedTo_append]
    congr 1
    unfold addedTo gain
    by_cases hp : p.1.toNat = v <;> simp [hp]

theorem addedTo_fresh (h : ∀ e ∈ log, e.it < it) : addedTo log it v = 0 := by
  have hnil : (log.filter fun e => e.it = it ∧ e.dst.toNat = v) = [] := by
    refine List.filter_eq_nil_iff.mpr fun e he => ?_
    have := h e he
    simp only [decide_eq_true_eq]
    omega
  rw [addedTo, hnil]
  rfl

theorem due_launch (hrs : Split g.nbNodes rs) :
    ((rs.map AddTask.ofRange).map (AddTask.due g prev v)).sum = g.exactSum (fun u => (prev u).toNat) v := by
  have hsum : g.exactSum (fun u => (prev u).toNat) v =
      ((List.range g.nbNodes).map fun u => ((g.outSlice u).map UInt32.toNat).count v * ((prev u).toNat / 2)).sum := rfl
  rw [List.map_map, hsum, ← hrs.sum_map]
  refine congrArg List.sum (List.map_congr_left fun r _ => ?_)
  show 0 * 0 + _ = _
  rw [Nat.zero_mul, zero_add]
  rfl

theorem due_through (hdone : ∀ t ∈ ts, t.through = true) : (ts.map (AddTask.due g prev v)).sum = 0 := by
  refine List.sum_eq_zero fun x hx => ?_
  obtain ⟨⟨is, edges, d, old⟩, ht, rfl⟩ := List.mem_map.mp hx
  have hthrough := hdone _ ht
  simp only [AddTask.through, Bool.and_eq_true, List.isEmpty_iff] at hthrough
  obtain ⟨rfl, rfl⟩ := hthrough
  simp [AddTask.due]

end Additions

/-! ## Runs -/

/-- What the record says in each state: it holds nothing of later iterations, and together with what is due it makes
up what the edges carry. -/
structure SumInv (g : Graph) (iteration : ℕ) (s : PrState) (log : List Addition) : Prop where
  pr : PrInv g iteration s
  fresh : ∀ e ∈ log, e.it ≤ s.it
  adding : s.pc = .adding → ∀ v,
    addedTo log s.it v + (s.adders.map (AddTask.due g s.ranks.prev v)).sum = g.exactSum (fun u => (s.ranks.prev u).toNat) v
  added : s.pc = .added → ∃ j, s.it = j + 1 ∧ ∀ v < g.nbNodes,
    addedTo log s.it v = g.exactSum (g.ranksAt j) v ∧ s.ranks.rank v = UInt32.ofNat (addedTo log s.it v)

section Run
variable {g : Graph} {iteration j v : ℕ} {s s' : PrState} {log : List Addition}

theorem sumInv_init : SumInv g iteration PrState.init [] :=
  ⟨prInv_init, fun _ he => absurd he List.not_mem_nil, nofun, nofun⟩

/-- During the additions every rank is, modulo `2^32`, the exact sum of those made. -/
theorem SumInv.rank_eq (h : SumInv g iteration s log) (hp : s.pc = .adding) (hv : v < g.nbNodes) :
    s.ranks.rank v = UInt32.ofNat (addedTo log s.it v) := by
  obtain ⟨-, -, -, hrank⟩ := h.pr.adding hp
  have hexact := congrArg UInt32.ofNat (h.adding hp v)
  have howed : (s.adders.map (AddTask.owed g s.ranks.prev v)).sum =
      UInt32.ofNat (s.adders.map (AddTask.due g s.ranks.prev v)).sum := by
    rw [← list_sum_ofNat32]
    exact congrArg List.sum (List.map_congr_left fun t _ => owed_eq t)
  have hsum := hrank v hv
  rw [UInt32.ofNat_add] at hexact
  rw [carried_eq, howed] at hsum
  exact add_right_cancel (hsum.trans hexact.symm)

/-- A step is one of a task in the first region, or it makes no addition. -/
theorem prPush_additions {a : PrAct} (ha : prPush g iteration s a = some s') :
    (∃ i r ts, s.pc = .adding ∧ work (addBody g) s.ranks s.adders i = some (r, ts) ∧
      s' = { s with ranks := r, adders := ts } ∧
      additions s a = (s.adders[i]?.bind (AddTask.addition s.ranks)).toList.map fun p => ⟨s.it, p.1, p.2⟩) ∨
    (additions s a = [] ∧ (s'.pc ≠ .adding ∨ s.pc = .head)) := by
  cases a with
  | launch rs =>
    refine Or.inr ⟨rfl, ?_⟩
    simp only [prPush] at ha
    split at ha
    · rename_i hc
      exact Or.inr hc.1
    · split at ha
      · cases ha
        exact Or.inl (by simp)
      · cases ha
  | work i =>
    simp only [prPush] at ha
    split at ha
    · rename_i hp
      obtain ⟨⟨r, ts⟩, hw, rfl⟩ := Option.map_eq_some_iff.mp ha
      exact Or.inl ⟨i, r, ts, hp, hw, rfl, if_pos hp⟩
    · rename_i hp
      refine Or.inr ⟨if_neg hp, Or.inl ?_⟩
      split at ha
      · rename_i hp'
        obtain ⟨p, -, rfl⟩ := Option.map_eq_some_iff.mp ha
        simp [hp']
      · cases ha
  | join =>
    refine Or.inr ⟨rfl, Or.inl ?_⟩
    simp only [prPush] at ha
    split at ha
    · cases ha
      simp
    · split at ha
      · cases ha
        simp
      · cases ha
  | exit =>
    refine Or.inr ⟨rfl, Or.inl ?_⟩
    simp only [prPush] at ha
    split at ha
    · cases ha
      simp
    · cases ha

theorem sumInv_step (h : SumInv g iteration s log) {a : PrAct} (ha : prPush g iteration s a = some s') :
    SumInv g iteration s' (log ++ additions s a) := by
  have hpr := prInv_step h.pr ha
  rcases prPush_additions ha with ⟨i, r, ts, hp, hw, rfl, hrec⟩ | ⟨hnil, hpc⟩
  · refine ⟨hpr, fun e he => ?_, fun _ v => ?_, fun hp' => absurd (hp'.symm.trans hp) nofun⟩
    · rcases List.mem_append.mp he with he | he
      · exact h.fresh e he
      · rw [hrec] at he
        obtain ⟨p, -, rfl⟩ := List.mem_map.mp he
        exact le_rfl
    · obtain ⟨pre, t, post, t', hget, hts, hbody, rfl⟩ := work_eq_some_at hw
      have hstep := addBody_step hbody
      have hdue := hstep.due (v := v)
      have hsum := h.adding hp v
      rw [hts, List.map_append, List.map_cons, List.sum_append, List.sum_cons] at hsum
      show addedTo (log ++ additions s a) s.it v + ((pre ++ t' :: post).map (AddTask.due g r.prev v)).sum =
        g.exactSum (fun u => (r.prev u).toNat) v
      rw [hstep.prev_eq, addedTo_append, hrec, hget, Option.bind_some, addedTo_records, List.map_append, List.map_cons,
        List.sum_append, List.sum_cons]
      omega
  · rw [hnil, List.append_nil]
    cases prPush_step ha with
    | launchAdd hp hlt hrs =>
      refine ⟨hpr, fun e he => (h.fresh e he).trans (Nat.le_succ _), fun _ v => ?_, nofun⟩
      rw [addedTo_fresh fun e he => Nat.lt_succ_of_le (h.fresh e he), due_launch hrs, zero_add]
    | add hp hw => exact absurd hp (hpc.elim (fun hne => hne) fun hh => hh.trans_ne nofun)
    | joinAdd hp hdone =>
      obtain ⟨j, hj, hprev, -⟩ := h.pr.adding hp
      refine ⟨hpr, h.fresh, nofun, fun _ => ⟨j, hj, fun v hv => ⟨?_, h.rank_eq hp hv⟩⟩⟩
      rw [← exactSum_congr hprev, ← h.adding hp v, due_through hdone, add_zero]
    | halve hp hw =>
      exact ⟨hpr, h.fresh, fun hp' => absurd (hp'.symm.trans hp) nofun, fun hp' => absurd (hp'.symm.trans hp) nofun⟩
    | launchHalve hp hrs | joinHalve hp hdone | exit hp hge => exact ⟨hpr, h.fresh, nofun, nofun⟩

theorem sumInv_of_reach (h : Reach (logged additions (prPush g iteration)) (PrState.init, []) (s, log)) :
    SumInv g iteration s log := by
  refine h.invariant (P := fun x => SumInv g iteration x.1 x.2) sumInv_init fun u a v hu ha => ?_
  obtain ⟨hstep, hrec⟩ := logged_eq_some.mp ha
  rw [hrec]
  exact sumInv_step hu hstep

/-- Every iteration begun has come to the end of its additions, but for one still in them. -/
theorem prPush_added_of_lt (h : Reach (prPush g iteration) PrState.init s) : ∀ j < s.it,
    (s.it = j + 1 ∧ s.pc = .adding) ∨ ∃ t, Reach (prPush g iteration) PrState.init t ∧ t.pc = .added ∧ t.it = j + 1 := by
  refine (h.invariant (P := fun s => Reach (prPush g iteration) PrState.init s ∧ ∀ j < s.it,
    (s.it = j + 1 ∧ s.pc = .adding) ∨ ∃ t, Reach (prPush g iteration) PrState.init t ∧ t.pc = .added ∧ t.it = j + 1)
    ⟨Reach.refl _ _, fun j hj => absurd hj (Nat.not_lt_zero j)⟩ fun u a v ⟨hu, hbelow⟩ ha => ⟨hu.tail ha, ?_⟩).2
  have hleft : u.pc ≠ .adding → ∀ j < u.it,
      ∃ t, Reach (prPush g iteration) PrState.init t ∧ t.pc = .added ∧ t.it = j + 1 :=
    fun hne j hj => (hbelow j hj).resolve_left fun hadding => hne hadding.2
  cases prPush_step ha with
  | launchAdd hp hlt hrs =>
    intro j hj
    rcases Nat.lt_or_ge j u.it with hlt' | hge
    · exact Or.inr (hleft (hp.trans_ne nofun) j hlt')
    · have hlast : j < u.it + 1 := hj
      exact Or.inl ⟨by show u.it + 1 = j + 1; omega, rfl⟩
  | add hp hw => exact hbelow
  | joinAdd hp hdone =>
    intro j hj
    rcases hbelow j hj with ⟨hit, -⟩ | hex
    · exact Or.inr ⟨_, hu.tail ha, rfl, hit⟩
    · exact Or.inr hex
  | launchHalve hp hrs | halve hp hw | joinHalve hp hdone | exit hp hge =>
    exact fun j hj => Or.inr (hleft (hp.trans_ne nofun) j hj)

theorem exists_added (hj : j < iteration) :
    ∃ t, Reach (prPush g iteration) PrState.init t ∧ t.pc = .added ∧ t.it = j + 1 := by
  obtain ⟨s, hs, hp, -⟩ := prInv_init.ends.exists
  obtain ⟨hit, -⟩ := (prInv_of_reach hs).done hp
  exact (prPush_added_of_lt hs j (by omega)).resolve_left fun hadding => absurd (hadding.2.symm.trans hp) nofun

end Run

/-! ## When nothing wraps -/

theorem Unwrapped.sum_lt {g : Graph} {iteration : ℕ} (h : Unwrapped g iteration) :
    ∀ j < iteration, ∀ v < g.nbNodes, g.exactSum (g.exactAt j) v < 2 ^ 32 := by
  intro j
  induction j using Nat.strong_induction_on with
  | _ j ih =>
    intro hj v hv
    -- at the end of the additions of this iteration the rank holds the whole sum
    obtain ⟨t, ht, hp, hit⟩ := exists_added (g := g) hj
    obtain ⟨log, hlog⟩ := ht.logged additions []
    obtain ⟨i, hi, hsum⟩ := (sumInv_of_reach hlog).added hp
    obtain rfl : i = j := by omega
    have hexact := h.sum t log hlog (Or.inr hp) v hv
    have hvalues := ranksAt_eq fun k hk => ih k hk (by omega)
    rw [(hsum v hv).1, exactSum_congr hvalues] at hexact
    rw [← hexact]
    exact UInt32.toNat_lt _

theorem Unwrapped.of_sum_lt {g : Graph} {iteration : ℕ}
    (h : ∀ j < iteration, ∀ v < g.nbNodes, g.exactSum (g.exactAt j) v < 2 ^ 32) : Unwrapped g iteration := by
  have hvalues : ∀ j ≤ iteration, ∀ v < g.nbNodes, g.ranksAt j v = g.exactAt j v := fun j hj =>
    ranksAt_eq fun i hi => h i (by omega)
  refine ⟨fun s log hr hp v hv => ?_, fun s hr hp v hv => ?_⟩
  · have hinv := sumInv_of_reach hr
    rcases hp with hp | hp
    · -- what has been added is part of the whole sum
      obtain ⟨j, hj, hprev, -⟩ := hinv.pr.adding hp
      have hlt := h j (by have := hinv.pr.it_le; omega) v hv
      rw [← exactSum_congr (hvalues j (by have := hinv.pr.it_le; omega)), ← exactSum_congr hprev, ← hinv.adding hp v] at hlt
      rw [hinv.rank_eq hp hv, toNat_ofNat32 (by omega)]
    · obtain ⟨j, hj, hsum⟩ := hinv.added hp
      obtain ⟨hadded, hrank⟩ := hsum v hv
      have hlt := h j (by have := hinv.pr.it_le; omega) v hv
      rw [← exactSum_congr (hvalues j (by have := hinv.pr.it_le; omega)), ← hadded] at hlt
      rw [hrank, toNat_ofNat32 hlt]
  · obtain ⟨hit, hat⟩ := (prInv_of_reach hr).done hp
    rw [hat.prev v hv, hit]
    exact hvalues iteration le_rfl v hv

/-- A run of `pr_push` computes on exact numbers, in every interleaving and up to every partial sum, exactly when no
sum of the recurrence reaches `2^32` in its iterations. -/
theorem unwrapped_iff (g : Graph) (iteration : ℕ) :
    Unwrapped g iteration ↔ ∀ j < iteration, ∀ v < g.nbNodes, g.exactSum (g.exactAt j) v < 2 ^ 32 :=
  ⟨Unwrapped.sum_lt, Unwrapped.of_sum_lt⟩

/-- One vertex with eight loops: its value doubles in every iteration. -/
def loopsGraph : Graph where
  symmetric := false
  nbNodes := 1
  nbEdges := 8
  outEdges _ := 0
  outEdgeOffsets i := if i = 0 then 0 else 8
  inEdges _ := 0
  inEdgeOffsets _ := 0

theorem loopsGraph_outWellFormed : loopsGraph.OutWellFormed := by
  refine ⟨rfl, ?_, rfl, ?_⟩ <;> decide

theorem loopsGraph_exactSum (p : ℕ → ℕ) : loopsGraph.exactSum p 0 = 8 * (p 0 / 2) := Finset.sum_range_one _

theorem loopsGraph_exactAt (j : ℕ) : loopsGraph.exactAt j 0 = 4 * 2 ^ j := by
  induction j with
  | zero => rfl
  | succ j ih =>
    rw [exactAt_succ, Graph.exactStep, loopsGraph_exactSum, ih]
    omega

theorem not_unwrapped_loops :
    ¬ ∀ (g : Graph) (iteration : ℕ), g.OutWellFormed → Unwrapped g iteration := by
  intro h
  have hlt := (h loopsGraph 29 loopsGraph_outWellFormed).sum_lt 28 (by decide) 0 (by decide)
  rw [loopsGraph_exactSum, loopsGraph_exactAt] at hlt
  exact absurd hlt (by decide)

end GraphBenchmark
