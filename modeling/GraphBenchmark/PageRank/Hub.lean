import GraphBenchmark.Model.PrHub
import GraphBenchmark.Benchmark.Loading
import GraphBenchmark.PageRank.Records

/-! # `create_graph` and `pr_hub`

From the bytes of the file to the two arrays: in every schedule `pr_push` leaves the iterates of a function of the
records, whatever the blocks held before, and nothing is written outside of them. -/
namespace GraphBenchmark
open Interleaving
set_option autoImplicit false

/-! ## The loop before the iterations -/

structure FillInv (n : ℕ) (mem : ℕ → RankCell) (s : FillState) : Prop where
  head : s.pc = .head → s.cells = (FillState.init n mem).cells
  filling : s.pc = .filling → Sweep.Inv fillStmts n (FillState.init n mem).cells s.cells s.tasks
  done : s.pc = .done → ∀ i, s.cells i = if i < n then ⟨0, 4⟩ else mem i

def FillState.measure (s : FillState) : ℕ × ℕ :=
  match s.pc with
  | .head => (2, 0)
  | .filling => (1, (s.tasks.map (Sweep.Task.weight fillStmts)).sum)
  | .done => (0, 0)

section Fill
variable {n : ℕ} {mem : ℕ → RankCell} {s s' : FillState} {a : FillAct}

inductive FillStep (n : ℕ) (s : FillState) : FillState → Prop
  | launch {rs : List BlockedRange} (hp : s.pc = .head) (hrs : Split n rs) :
      FillStep n s { s with tasks := sweepTasks rs, pc := .filling }
  | fill {i : ℕ} {cells : ℕ → RankCell} {ts : List Sweep.Task} (hp : s.pc = .filling)
      (hw : work (Sweep.body fillStmts) s.cells s.tasks i = some (cells, ts)) :
      FillStep n s { s with cells := cells, tasks := ts }
  | join (hp : s.pc = .filling) (hdone : ∀ t ∈ s.tasks, t.indices = []) : FillStep n s { s with tasks := [], pc := .done }

theorem prFill_step (ha : prFill n s a = some s') : FillStep n s s' := by
  cases a with
  | launch rs =>
    simp only [prFill] at ha
    split at ha
    · rename_i hc
      cases ha
      exact .launch hc.1 hc.2
    · cases ha
  | work i =>
    simp only [prFill] at ha
    split at ha
    · rename_i hp
      obtain ⟨⟨cells, ts⟩, hw, rfl⟩ := Option.map_eq_some_iff.mp ha
      exact .fill hp hw
    · cases ha
  | join =>
    simp only [prFill] at ha
    split at ha
    · rename_i hc
      cases ha
      exact .join hc.1 hc.2
    · cases ha

theorem fillInv_step (h : FillInv n mem s) (ha : prFill n s a = some s') : FillInv n mem s' := by
  cases prFill_step ha with
  | launch hp hrs =>
    refine ⟨nofun, fun _ => ?_, nofun⟩
    rw [← h.head hp]
    exact hrs.sweep_start
  | fill hp hw =>
    exact ⟨fun hp' => absurd (hp.symm.trans hp') nofun, fun _ => (h.filling hp).step hw,
      fun hp' => absurd (hp.symm.trans hp') nofun⟩
  | join hp hdone =>
    refine ⟨nofun, nofun, fun _ i => ((h.filling hp).finish hdone i).trans ?_⟩
    simp only [FillState.init]
    split <;> rfl

theorem prFill_measure (ha : prFill n s a = some s') : Prod.Lex (· < ·) (· < ·) s'.measure s.measure := by
  cases prFill_step ha with
  | fill hp hw =>
    simp only [FillState.measure, hp]
    exact Prod.Lex.right _ (work_weight_lt hw fun _ _ hbody => Sweep.body_weight_lt hbody)
  | launch hp _ | join hp _ =>
    simp only [FillState.measure, hp]
    exact Prod.Lex.left _ _ (by decide)

theorem prFill_stuck (hn : ∀ a, prFill n s a = none) : s.pc = .done := by
  obtain ⟨rs, hrs⟩ := exists_split n
  have hlaunch := hn (.launch rs)
  have hjoin := hn .join
  cases hp : s.pc with
  | head =>
    simp only [prFill] at hlaunch
    rw [if_pos ⟨hp, hrs⟩] at hlaunch
    cases hlaunch
  | filling =>
    have hwork := fun i => hn (.work i)
    simp only [prFill, hp, if_true] at hwork
    have hall := through_of_stuck (P := fun t => t.indices = []) (fun _ hne => Sweep.body_isSome hne) hwork
    simp only [prFill] at hjoin
    rw [if_pos ⟨hp, hall⟩] at hjoin
    cases hjoin
  | done => rfl

theorem prFill_ends (n : ℕ) (mem : ℕ → RankCell) : Ends (prFill n) (FillState.init n mem) fun s =>
    s.pc = .done ∧ ∀ i, s.cells i = if i < n then ⟨0, 4⟩ else mem i := by
  refine ends_of_invariant (P := FillInv n mem) (WellFounded.prod_lex Nat.lt_wfRel.wf Nat.lt_wfRel.wf) FillState.measure
    (fun _ _ _ hu ha => fillInv_step hu ha) (fun _ _ _ _ ha => prFill_measure ha)
    (fun s hs hn => ⟨prFill_stuck hn, hs.done (prFill_stuck hn)⟩) ⟨fun _ => rfl, nofun, nofun⟩

end Fill

/-! ## Nothing outside the blocks -/

/-- The tasks have only vertices before them, and the cells from `nbNodes` on are those of `r`. -/
structure InBlocks (g : Graph) (r : Ranks) (s : PrState) : Prop where
  adders : ∀ t ∈ s.adders, t.Below g.nbNodes g.nbNodes
  halvers : ∀ t ∈ s.halvers, ∀ i ∈ t.indices, i < g.nbNodes
  outside : ∀ v, g.nbNodes ≤ v → s.ranks.cells v = r.cells v

section Frame
variable {g : Graph} {r : Ranks} {s s' : PrState} {iteration : ℕ} {a : PrAct}

theorem AddStep.outside {s s' : Ranks} {t t' : AddTask} {n v : ℕ} (h : AddStep g s t s' t') (ht : t.Below g.nbNodes n)
    (hv : n ≤ v) : s'.cells v = s.cells v := by
  cases h with
  | @swap is d ds x =>
    have hlt := ht.2 d List.mem_cons_self
    have hne : v ≠ d.toNat := by omega
    simp only [Ranks.cells, Function.update_of_ne hne]
  | _ => rfl

theorem inBlocks_step (hg : g.OutWellFormed) (h : InBlocks g r s) (ha : prPush g iteration s a = some s') :
    InBlocks g r s' := by
  cases prPush_step ha with
  | launchAdd hp hlt hrs =>
    refine ⟨fun t ht => ?_, h.halvers, h.outside⟩
    obtain ⟨range, hr, rfl⟩ := List.mem_map.mp ht
    exact ⟨fun i hi => hrs.mem_iff.mp ⟨range, hr, hi⟩, fun d hd => absurd hd List.not_mem_nil⟩
  | launchHalve hp hrs =>
    refine ⟨h.adders, fun t ht i hi => ?_, h.outside⟩
    obtain ⟨range, hr, rfl⟩ := List.mem_map.mp ht
    exact hrs.mem_iff.mp ⟨range, hr, hi⟩
  | @add i ranks ts hp hw =>
    obtain ⟨pre, t, post, t', hts, hbody, rfl⟩ := work_eq_some hw
    have hbelow := h.adders
    rw [hts] at hbelow
    obtain ⟨hown, hothers⟩ := forall_mem_middle.mp hbelow
    have hstep := addBody_step hbody
    refine ⟨forall_mem_middle.mpr ⟨hstep.below (fun u hu d hd => hg.entry_of_mem hu hd) hown, hothers⟩, h.halvers,
      fun v hv => ?_⟩
    exact (hstep.outside hown hv).trans (h.outside v hv)
  | @halve i cells ts hp hw =>
    obtain ⟨pre, t, post, t', hts, hbody, rfl⟩ := work_eq_some hw
    have hlt := h.halvers
    rw [hts] at hlt
    obtain ⟨hown, hothers⟩ := forall_mem_middle.mp hlt
    obtain ⟨hsub, hframe⟩ := Sweep.body_frame hbody
    refine ⟨h.adders, forall_mem_middle.mpr ⟨fun j hj => hown j (hsub j hj), hothers⟩, fun v hv => ?_⟩
    exact (hframe v fun hmem => absurd (hown v hmem) (not_lt.mpr hv)).trans (h.outside v hv)
  | joinAdd hp hdone => exact ⟨fun t ht => absurd ht List.not_mem_nil, h.halvers, h.outside⟩
  | joinHalve hp hdone => exact ⟨h.adders, fun t ht => absurd ht List.not_mem_nil, h.outside⟩
  | exit hp hge => exact ⟨h.adders, h.halvers, h.outside⟩

theorem prPush_outside (hg : g.OutWellFormed) (h : Reach (prPush g iteration) ⟨r, 0, [], [], .head⟩ s) {v : ℕ}
    (hv : g.nbNodes ≤ v) : s.ranks.cells v = r.cells v := by
  have hinit : InBlocks g r ⟨r, 0, [], [], .head⟩ := ⟨nofun, nofun, fun _ _ => rfl⟩
  exact (h.invariant (P := InBlocks g r) hinit fun _ _ _ hu ha => inBlocks_step hg hu ha).outside v hv

end Frame

/-! ## The program -/

/-- What `pr_hub` leaves in and around its blocks, of `mem` before it. -/
structure PrRun.Leaves (r : PrRun) (records : EdgeFile) (n : ℕ) (mem : ℕ → RankCell) (iteration opt : Int32) : Prop where
  rank : ∀ v < n, r.ranks.rank v = 0
  push : opt = 0 → ∀ v < n, (r.ranks.prev v).toNat = records.rankStep^[iteration.toInt.toNat] (fun _ => 4) v
  pull : opt ≠ 0 → ∀ v < n, r.ranks.prev v = 4
  outside : ∀ v, n ≤ v → r.ranks.cells v = mem v
  died : (∃ ranks, r = .died ranks) ↔ opt ≠ 0 ∧ opt ≠ 1

section Hub
variable {g : Graph} {records : EdgeFile} {n : ℕ} {mem : ℕ → RankCell} {iteration opt : Int32} {s : FillState}

theorem prRun_push {s : PrState} {Q : PrState → Prop} (h : Ends (prPush g iteration.toInt.toNat) s Q) :
    Ends (prRun g iteration) (.push s) fun r => ∃ t, r = .push t ∧ Reach (prPush g iteration.toInt.toNat) s t ∧ Q t := by
  refine h.embed PrRun.push (fun s a t ha => ⟨a, Option.map_eq_some_iff.mpr ⟨t, ha, rfl⟩⟩) fun s b y hb => ?_
  obtain ⟨t, ht, rfl⟩ := Option.map_eq_some_iff.mp hb
  exact ⟨b, t, rfl, ht⟩

/-- What `switch(opt)` selects, on the filled arrays. -/
theorem prRun_leaves (hg : g.OutOf records n) (hsrc : ∀ e ∈ records.edges, e.src.toNat < n)
    (hcells : ∀ i, s.cells i = if i < n then ⟨0, 4⟩ else mem i) :
    Ends (prRun g iteration) (PrRun.init opt (Ranks.ofCells s.cells)) fun r => r.Leaves records n mem iteration opt := by
  have hrank : ∀ v < n, (Ranks.ofCells s.cells).rank v = 0 := fun v hv => by
    show (s.cells v).rank = 0
    rw [hcells v, if_pos hv]
  have hprev : ∀ v < n, (Ranks.ofCells s.cells).prev v = 4 := fun v hv => by
    show (s.cells v).prev = 4
    rw [hcells v, if_pos hv]
  have houtside : ∀ v, n ≤ v → (Ranks.ofCells s.cells).cells v = mem v := fun v hv => by
    show s.cells v = mem v
    rw [hcells v, if_neg (not_lt.mpr hv)]
  unfold PrRun.init
  by_cases hpush : opt = 0
  · rw [if_pos hpush]
    have hinit : PrInv g iteration.toInt.toNat ⟨Ranks.ofCells s.cells, 0, [], [], .head⟩ := by
      refine ⟨Nat.zero_le _, fun _ => ⟨fun v hv => ?_, fun v hv => ?_⟩, nofun, nofun, nofun, nofun⟩
      · rw [hprev v (hg.nbNodes ▸ hv)]
        rfl
      · exact hrank v (hg.nbNodes ▸ hv)
    refine (prRun_push hinit.ends).mono fun r _ hr => ?_
    obtain ⟨t, rfl, ht, -, hat⟩ := hr
    rw [hg.nbNodes] at hat
    refine ⟨fun v hv => (hat v hv).2, fun _ v hv => ?_, fun hne => absurd hpush hne, fun v hv => ?_, ?_⟩
    · rw [← hg.rankStep_eq hsrc]
      exact (hat v hv).1
    · exact (prPush_outside hg.csr ht (hg.nbNodes.symm ▸ hv)).trans (houtside v hv)
    · exact iff_of_false (fun ⟨_, h⟩ => nomatch h) fun hne => hne.1 hpush
  · rw [if_neg hpush]
    by_cases hpull : opt = 1
    · rw [if_pos hpull]
      refine Ends.of_stuck (fun _ => rfl) ⟨hrank, fun h => absurd h hpush, fun _ => hprev, houtside, ?_⟩
      exact iff_of_false (fun ⟨_, h⟩ => nomatch h) fun hne => hne.2 hpull
    · rw [if_neg hpull]
      refine Ends.of_stuck (fun _ => rfl) ⟨hrank, fun h => absurd h hpush, fun _ => hprev, houtside, ?_⟩
      exact iff_of_true ⟨_, rfl⟩ ⟨hpush, hpull⟩

theorem prHub_ends (hg : g.OutOf records n) (hsrc : ∀ e ∈ records.edges, e.src.toNat < n) (mem : ℕ → RankCell)
    (iteration opt : Int32) : Ends (prHub g iteration opt) (.inl (FillState.init g.nbNodes mem)) fun x =>
      ∃ r, x = .inr r ∧ r.Leaves records n mem iteration opt := by
  have hfill := prFill_ends g.nbNodes mem
  have hrun : ∀ s r, Reach (prFill g.nbNodes) (FillState.init g.nbNodes mem) s → enterRun opt s = some r →
      Ends (prRun g iteration) r fun r => r.Leaves records n mem iteration opt := by
    intro s r hs hr
    unfold enterRun at hr
    split at hr
    · rename_i hp
      obtain rfl := Option.some.inj hr
      have hinv : FillInv g.nbNodes mem s :=
        hs.invariant (P := FillInv g.nbNodes mem) ⟨fun _ => rfl, nofun, nofun⟩ fun _ _ _ hu ha => fillInv_step hu ha
      have hcells := hinv.done hp
      rw [hg.nbNodes] at hcells
      exact prRun_leaves hg hsrc hcells
    · cases hr
  have henter : ∀ s, Reach (prFill g.nbNodes) (FillState.init g.nbNodes mem) s →
      (s.pc = .done ∧ ∀ i, s.cells i = if i < g.nbNodes then ⟨0, 4⟩ else mem i) → enterRun opt s ≠ none := by
    intro s _ hs
    rw [enterRun, if_pos hs.1]
    exact Option.some_ne_none _
  refine (hfill.andThen henter hrun).mono fun x _ hx => ?_
  obtain ⟨_, r, rfl, -, -, hr⟩ := hx
  exact ⟨r, rfl, hr⟩

end Hub

/-- How the two end, one after the other. -/
inductive Ranked (records : EdgeFile) (symmetric : Bool) (n : ℕ) (mem : ℕ → RankCell) (iteration opt : Int32)
    (x : LoadState ⊕ (Graph × PrHubState)) : Prop
  | died (s : LoadState) (hx : x = .inl s) (h : s.died = true)
  | aborted (s : LoadState) (hx : x = .inl s) (h : s.aborted = true) (hadm : ¬ records.Admitted symmetric n)
  | ranked (g : Graph) (r : PrRun) (hx : x = .inr (g, .inr r)) (hadm : records.Admitted symmetric n)
      (hr : r.Leaves records n mem iteration opt)

section Main
variable {file : InputFile} {symmetric : Bool} {n : ℕ} {m : Machine} {mem : ℕ → RankCell} {iteration opt : Int32}

/-- The ways `create_graph` and `pr_hub` end, one after the other. -/
theorem pagerank_ends {Q : LoadState ⊕ (Graph × PrHubState) → Prop} (hm : m.offsets.Zeroed n)
    (hfits : (file.edgeFile m.byteorder).Fits symmetric n) (hit : iteration ≠ 0)
    (hdied : ∀ s : LoadState, s.died = true → Q (.inl s))
    (haborted : ∀ s : LoadState, s.aborted = true → ¬ (file.edgeFile m.byteorder).Admitted symmetric n → Q (.inl s))
    (hranked : ∀ (g : Graph) (r : PrRun), (file.edgeFile m.byteorder).Admitted symmetric n →
      r.Leaves (file.edgeFile m.byteorder) n mem iteration opt → Q (.inr (g, .inr r))) :
    Ends (pagerank file symmetric n m mem iteration opt) (.inl (.inl (ReadState.init file m.edges))) Q := by
  have hload := createGraph_ends hm hfits
  have hrank : ∀ s p, Reach (createGraph file symmetric n m) (.inl (ReadState.init file m.edges)) s →
      enterPrHub symmetric n mem iteration s = some p →
      Ends (indexed fun g => prHub g iteration opt) p fun y => Q (.inr y) := by
    intro s p hs hp
    obtain ⟨g, hg, hp⟩ := Option.bind_eq_some_iff.mp hp
    rw [prHubStart, if_neg hit] at hp
    obtain rfl := Option.some.inj hp
    obtain ⟨hadm, hholds⟩ := createGraph_holds hm hfits hs hg
    have hends := prHub_ends hholds.out (fun e he => (hadm.1 e he)) mem iteration opt
    refine (hends.indexed (fun g => prHub g iteration opt) g).mono fun y _ ⟨_, r, hy, hr⟩ => ?_
    obtain ⟨y₁, y₂⟩ := y
    obtain rfl : y₂ = .inr r := hy
    exact hranked y₁ r hadm hr
  refine (hload.andThen_or hrank).mono fun x _ hx => ?_
  rcases hx with ⟨s, rfl, -, hloaded, hnone⟩ | ⟨s, p, y, rfl, -, -, -, hy⟩
  · cases hloaded with
    | died h => exact hdied s h
    | aborted h hadm => exact haborted s h hadm
    | graph g h hadm hg =>
      rw [enterPrHub, h, Option.bind_some, prHubStart, if_neg hit] at hnone
      cases hnone
  · exact hy

end Main

end GraphBenchmark
