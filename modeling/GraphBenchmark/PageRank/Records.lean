import GraphBenchmark.PageRank.Exact
import GraphBenchmark.Reorder.Graphs
import Mathlib.Algebra.Group.Action.Defs

/-! # `pr_push` and the records of the file

On a loaded graph the sums of `pr_push` are sums over the records with the vertex as destination. So the largest and
the smallest in-degree bound the values between two recurrences on single numbers, and decide whether sums wrap. -/
namespace GraphBenchmark
open Interleaving Words
set_option autoImplicit false

/-- What the records bring to `v` when each carries the value of `p` at its source. -/
def EdgeFile.arriving (records : EdgeFile) (p : ℕ → ℕ) (v : ℕ) : ℕ :=
  ((records.edges.filter fun e => e.dst.toNat = v).map fun e => p e.src.toNat).sum

/-- One iteration, over the records. -/
def EdgeFile.rankStep (records : EdgeFile) (p : ℕ → ℕ) (v : ℕ) : ℕ := records.arriving (fun u => p u / 2) v % 2 ^ 32 / 2

/-- The value of a vertex when all vertices have in-degree `d`. -/
def regularAt (d j : ℕ) : ℕ := (fun x => d * (x / 2) / 2)^[j] 4

section Sums
variable {g : Graph} {records : EdgeFile} {n v : ℕ} {p : ℕ → ℕ}

theorem Graph.OutOf.count_toNat (h : g.OutOf records n) {u : ℕ} (hu : u < n) (v : ℕ) :
    ((g.outSlice u).map UInt32.toNat).count v = records.edges.countP fun e => e.src.toNat = u ∧ e.dst.toNat = v := by
  rw [((h.row u hu).map UInt32.toNat).count_eq, EdgeFile.neighbours, List.map_map, List.count, List.countP_map,
    List.countP_filter]
  refine List.countP_congr fun e _ => ?_
  simp [and_comm]

theorem sum_countP_mul (edges : List Edge) (hedges : ∀ e ∈ edges, e.src.toNat < n) (f : ℕ → ℕ) (v : ℕ) :
    ∑ u ∈ Finset.range n, (edges.countP fun e => e.src.toNat = u ∧ e.dst.toNat = v) * f u =
      ((edges.filter fun e => e.dst.toNat = v).map fun e => f e.src.toNat).sum := by
  induction edges with
  | nil => simp
  | cons e edges ih =>
    have hsrc := Finset.mem_range.mpr (hedges e List.mem_cons_self)
    have hrest := ih fun e' he' => hedges e' (List.mem_cons_of_mem e he')
    have hone : ∑ u ∈ Finset.range n, (if e.src.toNat = u ∧ e.dst.toNat = v then 1 else 0) * f u =
        if e.dst.toNat = v then f e.src.toNat else 0 := by
      rw [Finset.sum_eq_single_of_mem _ hsrc fun u _ hu => by simp [Ne.symm hu]]
      simp
    simp only [List.countP_cons, Nat.add_mul, Finset.sum_add_distrib, hrest, decide_eq_true_iff, hone]
    by_cases hdst : e.dst.toNat = v <;> simp [hdst, Nat.add_comm]

/-- The sums of an iteration, over the records. -/
theorem Graph.OutOf.exactSum_eq (h : g.OutOf records n) (hsrc : ∀ e ∈ records.edges, e.src.toNat < n) (p : ℕ → ℕ)
    (v : ℕ) : g.exactSum p v = records.arriving (fun u => p u / 2) v := by
  rw [EdgeFile.arriving, ← sum_countP_mul records.edges hsrc (fun u => p u / 2) v, Graph.exactSum, h.nbNodes]
  exact Finset.sum_congr rfl fun u hu => by rw [h.count_toNat (Finset.mem_range.mp hu)]

theorem Graph.OutOf.rankStep_eq (h : g.OutOf records n) (hsrc : ∀ e ∈ records.edges, e.src.toNat < n) :
    g.rankStep = records.rankStep := by
  funext p v
  rw [GraphBenchmark.rankStep_eq, h.exactSum_eq hsrc]
  rfl

theorem length_arriving (records : EdgeFile) (p : ℕ → ℕ) (v : ℕ) :
    ((records.edges.filter fun e => e.dst.toNat = v).map fun e => p e.src.toNat).length = records.inDegree v := by
  rw [List.length_map, ← List.countP_eq_length_filter]
  rfl

theorem arriving_le (hsrc : ∀ e ∈ records.edges, e.src.toNat < n) {b : ℕ} (hp : ∀ u < n, p u ≤ b) (v : ℕ) :
    records.arriving p v ≤ records.inDegree v * b := by
  rw [← length_arriving records p v, ← smul_eq_mul]
  refine List.sum_le_card_nsmul _ _ fun x hx => ?_
  obtain ⟨e, he, rfl⟩ := List.mem_map.mp hx
  exact hp _ (hsrc e (List.mem_of_mem_filter he))

theorem le_arriving (hsrc : ∀ e ∈ records.edges, e.src.toNat < n) {b : ℕ} (hp : ∀ u < n, b ≤ p u) (v : ℕ) :
    records.inDegree v * b ≤ records.arriving p v := by
  rw [← length_arriving records p v, ← smul_eq_mul]
  refine List.card_nsmul_le_sum _ _ fun x hx => ?_
  obtain ⟨e, he, rfl⟩ := List.mem_map.mp hx
  exact hp _ (hsrc e (List.mem_of_mem_filter he))

end Sums

/-! ## The iterations that are over -/

section Past
variable {g : Graph} {iteration : ℕ} {s s' : PrState} {log : List Addition}

/-- The iterations whose additions are all made. -/
def PrState.Added (s : PrState) (j : ℕ) : Prop := j + 1 < s.it ∨ j + 1 = s.it ∧ s.pc ≠ .adding

/-- What the record holds of an iteration, once it is over, stays. -/
def PastInv (g : Graph) (s : PrState) (log : List Addition) : Prop :=
  ∀ j, s.Added j → ∀ v < g.nbNodes, addedTo log (j + 1) v = g.exactSum (g.ranksAt j) v

theorem addedTo_of_forall_ne {it v : ℕ} (h : ∀ e ∈ log, e.it ≠ it) : addedTo log it v = 0 := by
  have hnil : (log.filter fun e => e.it = it ∧ e.dst.toNat = v) = [] := by
    refine List.filter_eq_nil_iff.mpr fun e he => ?_
    simp [h e he]
  rw [addedTo, hnil]
  rfl

theorem additions_it {a : PrAct} {e : Addition} (he : e ∈ additions s a) : s.pc = .adding ∧ e.it = s.it := by
  cases a with
  | work i =>
    simp only [additions] at he
    split at he
    · rename_i hp
      obtain ⟨p, -, rfl⟩ := List.mem_map.mp he
      exact ⟨hp, rfl⟩
    · cases he
  | _ => cases he

theorem pastInv_step (hsum : SumInv g iteration s log) (h : PastInv g s log) {a : PrAct}
    (ha : prPush g iteration s a = some s') : PastInv g s' (log ++ additions s a) := by
  have hsum' := sumInv_step hsum ha
  intro j hj v hv
  by_cases hbefore : s.Added j
  · -- the step adds to no iteration that is over
    rw [addedTo_append, h j hbefore v hv, addedTo_of_forall_ne fun e he => ?_, add_zero]
    obtain ⟨hp, hit⟩ := additions_it he
    rw [hit]
    rcases hbefore with hlt | ⟨-, hne⟩
    · exact (Nat.ne_of_lt hlt).symm
    · exact absurd hp hne
  · have hadded : s'.pc = .added ∧ s'.it = j + 1 := by
      unfold PrState.Added at hbefore hj
      cases prPush_step ha with
      | launchAdd hp hlt hrs =>
        simp [hp] at hj hbefore
        omega
      | add hp hw =>
        simp [hp] at hj hbefore
        omega
      | joinAdd hp hdone =>
        simp [hp] at hj hbefore
        exact ⟨rfl, by show s.it = j + 1; omega⟩
      | launchHalve hp hrs | halve hp hw | joinHalve hp hdone | exit hp hge =>
        simp [hp] at hj hbefore
        omega
    obtain ⟨i, hi, hall⟩ := hsum'.added hadded.1
    obtain rfl : i = j := by omega
    rw [← hadded.2]
    exact (hall v hv).1

theorem pastInv_of_reach (h : Reach (logged additions (prPush g iteration)) (PrState.init, []) (s, log)) :
    PastInv g s log := by
  refine (h.invariant (P := fun x => SumInv g iteration x.1 x.2 ∧ PastInv g x.1 x.2) ⟨sumInv_init, fun j hj => ?_⟩
    fun u a v ⟨hsum, hpast⟩ ha => ?_).2
  · rcases hj with hj | ⟨hj, -⟩ <;> cases hj
  · obtain ⟨hstep, hrec⟩ := logged_eq_some.mp ha
    rw [hrec]
    exact ⟨sumInv_step hsum hstep, pastInv_step hsum hpast hstep⟩

end Past

/-! ## Bounds by the in-degrees -/

section Regular
variable {d d' j : ℕ}

theorem regularAt_succ (d j : ℕ) : regularAt d (j + 1) = d * (regularAt d j / 2) / 2 := Function.iterate_succ_apply' _ _ _

theorem regularAt_mono (h : d ≤ d') (j : ℕ) : regularAt d j ≤ regularAt d' j := by
  induction j with
  | zero => exact le_rfl
  | succ j ih =>
    rw [regularAt_succ, regularAt_succ]
    exact Nat.div_le_div_right (Nat.mul_le_mul h (Nat.div_le_div_right ih))

/-- With in-degree `5` the value `5` is not exceeded. -/
theorem regularAt_le_five (h : d ≤ 5) (j : ℕ) : regularAt d j ≤ 5 := by
  induction j with
  | zero => exact Nat.le_succ 4
  | succ j ih =>
    have hmul : d * (regularAt d j / 2) ≤ 5 * 2 := Nat.mul_le_mul h (by omega)
    rw [regularAt_succ]
    omega

/-- With in-degree `3` the values are `4`, `3`, `1` and `0`. -/
theorem regularAt_eq_zero (h : d ≤ 3) (hj : 3 ≤ j) : regularAt d j = 0 := by
  induction j, hj using Nat.le_induction with
  | base => exact Nat.eq_zero_of_le_zero ((regularAt_mono h 3).trans (by decide))
  | succ j _ ih => rw [regularAt_succ, ih, Nat.zero_div, Nat.mul_zero, Nat.zero_div]

end Regular

section Bounds
variable {g : Graph} {records : EdgeFile} {n d j v : ℕ} (hg : g.OutOf records n)
  (hsrc : ∀ e ∈ records.edges, e.src.toNat < n)
include hg hsrc

theorem exactSum_le (hin : ∀ v < n, records.inDegree v ≤ d) {p : ℕ → ℕ} {b : ℕ} (hp : ∀ u < n, p u ≤ b) (hv : v < n) :
    g.exactSum p v ≤ d * (b / 2) := by
  rw [hg.exactSum_eq hsrc]
  have harriving := arriving_le hsrc (p := fun u => p u / 2) (fun u hu => Nat.div_le_div_right (hp u hu)) v
  exact harriving.trans (Nat.mul_le_mul_right _ (hin v hv))

theorem le_exactSum (hin : ∀ v < n, d ≤ records.inDegree v) {p : ℕ → ℕ} {b : ℕ} (hp : ∀ u < n, b ≤ p u) (hv : v < n) :
    d * (b / 2) ≤ g.exactSum p v := by
  rw [hg.exactSum_eq hsrc]
  have harriving := le_arriving hsrc (p := fun u => p u / 2) (fun u hu => Nat.div_le_div_right (hp u hu)) v
  exact (Nat.mul_le_mul_right _ (hin v hv)).trans harriving

theorem exactAt_le (hin : ∀ v < n, records.inDegree v ≤ d) (j : ℕ) : ∀ v < n, g.exactAt j v ≤ regularAt d j := by
  induction j with
  | zero => exact fun _ _ => le_rfl
  | succ j ih =>
    intro v hv
    rw [exactAt_succ, regularAt_succ]
    exact Nat.div_le_div_right (exactSum_le hg hsrc hin ih hv)

theorem le_exactAt (hin : ∀ v < n, d ≤ records.inDegree v) (j : ℕ) : ∀ v < n, regularAt d j ≤ g.exactAt j v := by
  induction j with
  | zero => exact fun _ _ => le_rfl
  | succ j ih =>
    intro v hv
    rw [exactAt_succ, regularAt_succ]
    exact Nat.div_le_div_right (le_exactSum hg hsrc hin ih hv)

theorem Unwrapped.of_inDegree_le_five (hin : ∀ v < n, records.inDegree v ≤ 5) (iteration : ℕ) : Unwrapped g iteration := by
  refine Unwrapped.of_sum_lt fun j _ v hv => ?_
  have hle := exactSum_le hg hsrc hin (exactAt_le hg hsrc hin j) (hg.nbNodes ▸ hv)
  have hfive := regularAt_le_five (le_refl 5) j
  omega

theorem prPush_ends_exact (hin : ∀ v < n, records.inDegree v ≤ 5) (iteration : ℕ) :
    Ends (prPush g iteration) PrState.init fun s => s.pc = .done ∧
      ∀ v < n, (s.ranks.prev v).toNat = g.exactAt iteration v := by
  have hunwrapped := Unwrapped.of_inDegree_le_five hg hsrc hin iteration
  refine prInv_init.ends.mono fun s hs ⟨hp, _⟩ => ⟨hp, fun v hv => ?_⟩
  exact hunwrapped.result s hs hp v (hg.nbNodes.symm ▸ hv)

/-- No in-degree above `5`: in every schedule all sums are exact, however many iterations are made, and no entry of
`prev` exceeds `5`. -/
theorem prPush_settles (hin : ∀ v < n, records.inDegree v ≤ 5) (iteration : ℕ) :
    Unwrapped g iteration ∧ Ends (prPush g iteration) PrState.init fun s => s.pc = .done ∧
      ∀ v < n, (s.ranks.prev v).toNat = g.exactAt iteration v ∧ (s.ranks.prev v).toNat ≤ 5 := by
  refine ⟨Unwrapped.of_inDegree_le_five hg hsrc hin iteration, ?_⟩
  refine (prPush_ends_exact hg hsrc hin iteration).mono fun s _ ⟨hp, hprev⟩ => ⟨hp, fun v hv => ⟨hprev v hv, ?_⟩⟩
  rw [hprev v hv]
  exact (exactAt_le hg hsrc hin iteration v hv).trans (regularAt_le_five le_rfl iteration)

/-- No in-degree above `3`: from the third iteration on nothing is left. -/
theorem prPush_fades (hin : ∀ v < n, records.inDegree v ≤ 3) {iteration : ℕ} (hit : 3 ≤ iteration) :
    Ends (prPush g iteration) PrState.init fun s => s.pc = .done ∧ ∀ v < n, s.ranks.prev v = 0 := by
  have hfive : ∀ v < n, records.inDegree v ≤ 5 := fun v hv => (hin v hv).trans (by decide)
  refine (prPush_ends_exact hg hsrc hfive iteration).mono fun s _ ⟨hp, hprev⟩ => ⟨hp, fun v hv => ?_⟩
  have hle := exactAt_le hg hsrc hin iteration v hv
  rw [← hprev v hv, regularAt_eq_zero le_rfl hit] at hle
  exact UInt32.toNat_inj.mp (Nat.eq_zero_of_le_zero hle)

/-- All in-degrees `6` or more: every run of `51` iterations or more adds `2^32` or more to some rank in one of the
first `51`. -/
theorem prPush_overflows (hn : 0 < n) (hin : ∀ v < n, 6 ≤ records.inDegree v) {iteration : ℕ} (hit : 51 ≤ iteration)
    {s : PrState} {log : List Addition} (h : Reach (logged additions (prPush g iteration)) (PrState.init, []) (s, log))
    (hp : s.pc = .done) : ∃ it ≤ 51, ∃ v < n, 2 ^ 32 ≤ addedTo log it v := by
  by_contra hnone
  push Not at hnone
  have hpast := pastInv_of_reach h
  have hdone := ((sumInv_of_reach h).pr.done hp).1
  -- then the run computes on exact numbers that far
  have hbelow : ∀ j < 51, ∀ v < g.nbNodes, g.exactSum (g.exactAt j) v < 2 ^ 32 := by
    intro j
    induction j using Nat.strong_induction_on with
    | _ j ih =>
      intro hj v hv
      have hadded : s.Added j := by
        rw [PrState.Added, hp]
        simp only [ne_eq, reduceCtorEq, not_false_eq_true, and_true]
        omega
      have hlt := hnone (j + 1) hj v (hg.nbNodes ▸ hv)
      rwa [hpast j hadded v hv, exactSum_congr (ranksAt_eq fun i hi => ih i hi (by omega))] at hlt
  have hlt := hbelow 50 (by omega) 0 (hg.nbNodes.symm ▸ hn)
  have hle := le_exactSum hg hsrc hin (le_exactAt hg hsrc hin 50) hn
  have hbig : 2 ^ 32 ≤ 6 * (regularAt 6 50 / 2) := by decide +kernel
  omega

end Bounds

theorem parallelFile_created : ∃ g : Graph, g.OutOf parallelFile 2 := by
  have hdegree : ∀ key : Edge → UInt32, ∀ v, parallelFile.degree key v ≤ 2 ^ 32 := fun key v =>
    List.countP_le_length.trans (by decide)
  obtain ⟨g, hg⟩ := @exists_created parallelFile true 2 (by decide) (hdegree Edge.src) fun _ => hdegree Edge.dst
  exact ⟨g, created_outOf (by decide) (hdegree Edge.src) (fun _ => hdegree Edge.dst) hg⟩

theorem prPush_settles_parallel : ∃ g : Graph, Unwrapped g 1000 ∧ Ends (prPush g 1000) PrState.init fun s =>
    s.pc = .done ∧ ∀ v < 2, (s.ranks.prev v).toNat = g.exactAt 1000 v ∧ (s.ranks.prev v).toNat ≤ 5 := by
  obtain ⟨g, hg⟩ := parallelFile_created
  exact ⟨g, prPush_settles hg (by decide) (by decide) 1000⟩

theorem prPush_fades_parallel : ∃ g : Graph, Ends (prPush g 3) PrState.init fun s =>
    s.pc = .done ∧ ∀ v < 2, s.ranks.prev v = 0 := by
  obtain ⟨g, hg⟩ := parallelFile_created
  exact ⟨g, prPush_fades hg (by decide) (by decide) le_rfl⟩

/-- Six loops at the only vertex. -/
def sixLoopsFile : EdgeFile := ⟨List.replicate 6 ⟨0, 0⟩, by decide⟩

theorem prPush_overflows_loops : ∃ (g : Graph) (s : PrState) (log : List Addition),
    Reach (logged additions (prPush g 51)) (PrState.init, []) (s, log) ∧ s.pc = .done ∧
      ∃ it ≤ 51, ∃ v < 1, 2 ^ 32 ≤ addedTo log it v := by
  have hdegree : ∀ key : Edge → UInt32, ∀ v, sixLoopsFile.degree key v ≤ 2 ^ 32 := fun key v =>
    List.countP_le_length.trans (by decide)
  obtain ⟨g, hg⟩ := @exists_created sixLoopsFile true 1 (by decide) (hdegree Edge.src) fun _ => hdegree Edge.dst
  have hout := created_outOf (by decide) (hdegree Edge.src) (fun _ => hdegree Edge.dst) hg
  obtain ⟨s, hs, hp, -⟩ := (@prInv_init g 51).ends.exists
  obtain ⟨log, hlog⟩ := hs.logged additions []
  exact ⟨g, s, log, hlog, hp, prPush_overflows hout (by decide) (by decide) (by decide) le_rfl hlog hp⟩

end GraphBenchmark
