import GraphBenchmark.Reorder.Numbering
import GraphBenchmark.Loader.Count

/-! # Runs of `sort_by_degree`

`SortStep` lists the ten kinds of steps. They keep `SortInv`, which says for each point of the program what the
arrays hold there, and every schedule ends (`sortByDegree_ends`). -/
namespace GraphBenchmark
open Interleaving Words
set_option autoImplicit false

/-! ## The steps -/

inductive SortStep (n m : ℕ) (ascending maintain : Bool) (s : SortState) : SortState → Prop
  | launchCount {rs : List BlockedRange} (hp : s.pc = .count) (hrs : Split m rs) :
      SortStep n m ascending maintain s { s with counters := rs.map BlockedRange.indices, pc := .counting }
  | launchOrder {rs : List BlockedRange} (hp : s.pc = .order) (hrs : Split n rs) :
      SortStep n m ascending maintain s { s with sweeps := sweepTasks rs, pc := .ordering }
  | launchRewrite {rs : List BlockedRange} (hp : s.pc = .rewrite) (hrs : Split m rs) :
      SortStep n m ascending maintain s { s with sweeps := sweepTasks rs, pc := .rewriting }
  | count {i : ℕ} {cells : ℕ → UInt32} {ts : List (List ℕ)} (hp : s.pc = .counting)
      (hw : work (countSources s.edges) s.outEdgeOffsets s.counters i = some (cells, ts)) :
      SortStep n m ascending maintain s { s with outEdgeOffsets := cells, counters := ts }
  | order {i : ℕ} {cells : ℕ → UInt32} {ts : List Sweep.Task} (hp : s.pc = .ordering)
      (hw : work (Sweep.body orderStmts) s.ordered s.sweeps i = some (cells, ts)) :
      SortStep n m ascending maintain s { s with ordered := cells, sweeps := ts }
  | rewrite {i : ℕ} {cells : ℕ → Edge} {ts : List Sweep.Task} (hp : s.pc = .rewriting)
      (hw : work (Sweep.body (rewriteStmts s.mapping)) s.edges s.sweeps i = some (cells, ts)) :
      SortStep n m ascending maintain s { s with edges := cells, sweeps := ts }
  | joinCount (hp : s.pc = .counting) (hdone : ∀ t ∈ s.counters, t = []) :
      SortStep n m ascending maintain s { s with counters := [], pc := .order }
  | joinOrder (hp : s.pc = .ordering) (hdone : ∀ t ∈ s.sweeps, t.indices = []) :
      SortStep n m ascending maintain s { s with sweeps := [], pc := .sort }
  | joinRewrite (hp : s.pc = .rewriting) (hdone : ∀ t ∈ s.sweeps, t.indices = []) :
      SortStep n m ascending maintain s { s with sweeps := [], pc := .done }
  | sort {l : List UInt32} (hp : s.pc = .sort)
      (hl : Sorted ascending s.outEdgeOffsets ((List.range n).map s.ordered) l) :
      SortStep n m ascending maintain s { s with
        ordered := fun i => l.getD i (s.ordered i)
        mapping := (numberIds maintain (fun i => l.getD i (s.ordered i)) s.mapping n).1
        pc := .rewrite }

theorem sortByDegree_step {n m : ℕ} {ascending maintain : Bool} {s s' : SortState} {a : SortAct}
    (h : sortByDegree n m ascending maintain s a = some s') : SortStep n m ascending maintain s s' := by
  cases a with
  | launch rs =>
    simp only [sortByDegree] at h
    split at h
    · split at h
      · cases h
        exact .launchCount ‹_› ‹_›
      · cases h
    · split at h
      · cases h
        exact .launchOrder ‹_› ‹_›
      · cases h
    · split at h
      · cases h
        exact .launchRewrite ‹_› ‹_›
      · cases h
    · cases h
  | work i =>
    simp only [sortByDegree] at h
    split at h
    · obtain ⟨⟨cells, ts⟩, hw, rfl⟩ := Option.map_eq_some_iff.mp h
      exact .count ‹_› hw
    · obtain ⟨⟨cells, ts⟩, hw, rfl⟩ := Option.map_eq_some_iff.mp h
      exact .order ‹_› hw
    · obtain ⟨⟨cells, ts⟩, hw, rfl⟩ := Option.map_eq_some_iff.mp h
      exact .rewrite ‹_› hw
    · cases h
  | join =>
    simp only [sortByDegree] at h
    split at h
    · split at h
      · cases h
        exact .joinCount ‹_› ‹_›
      · cases h
    · split at h
      · cases h
        exact .joinOrder ‹_› ‹_›
      · cases h
    · split at h
      · cases h
        exact .joinRewrite ‹_› ‹_›
      · cases h
    · cases h
  | sort l =>
    simp only [sortByDegree] at h
    split at h
    · rename_i hc
      cases h
      exact .sort hc.1 hc.2
    · cases h

/-! ## The invariant -/

/-- The counters after the first region. -/
def EdgeFile.counters (file : EdgeFile) (mem : ℕ → UInt32) (v : ℕ) : UInt32 := mem v + UInt32.ofNat (file.outDegree v)

def pendingSources (edges : ℕ → Edge) (v : ℕ) (t : List ℕ) : UInt32 :=
  (t.map fun i => if (edges i).src.toNat = v then 1 else 0).sum

/-- `mapping` numbers the vertices in an order that is sorted by the counters. -/
def Relabels (file : EdgeFile) (n : ℕ) (ascending maintain : Bool) (mem mapping : ℕ → UInt32) : Prop :=
  ∃ l, Sorted ascending (file.counters mem) (ids n) l ∧ Numbers n (newOrder maintain l) mapping

def Edge.relabel (mapping : ℕ → UInt32) (e : Edge) : Edge := ⟨mapping e.src.toNat, mapping e.dst.toNat⟩

/-- What the arrays hold at each point, with any condition `R` on the mapping from the sort on. -/
def SortAt (file : EdgeFile) (n : ℕ) (mem : ℕ → UInt32) (R : (ℕ → UInt32) → Prop) (s : SortState) : Prop :=
  match s.pc with
  | .count => s.edges = file.edge ∧ s.outEdgeOffsets = mem
  | .counting => s.edges = file.edge ∧
    ∀ v, s.outEdgeOffsets v + (s.counters.map (pendingSources file.edge v)).sum = file.counters mem v
  | .order => s.edges = file.edge ∧ s.outEdgeOffsets = file.counters mem
  | .ordering => s.edges = file.edge ∧ s.outEdgeOffsets = file.counters mem ∧
    ∃ cells, Sweep.Inv orderStmts n cells s.ordered s.sweeps
  | .sort => s.edges = file.edge ∧ s.outEdgeOffsets = file.counters mem ∧ (List.range n).map s.ordered = ids n
  | .rewrite => s.edges = file.edge ∧ R s.mapping
  | .rewriting => R s.mapping ∧ Sweep.Inv (rewriteStmts s.mapping) file.nbEdges file.edge s.edges s.sweeps
  | .done => R s.mapping ∧ ∀ i < file.nbEdges, s.edges i = (file.edge i).relabel s.mapping

def SortInv (file : EdgeFile) (n : ℕ) (ascending maintain : Bool) (mem : ℕ → UInt32) (s : SortState) : Prop :=
  SortAt file n mem (Relabels file n ascending maintain mem) s

section Run
variable {file : EdgeFile} {n : ℕ} {ascending maintain : Bool} {mem : ℕ → UInt32} {s s' : SortState}

theorem sum_ite_eq_countP {α : Type*} (p : α → Prop) [DecidablePred p] (l : List α) :
    (l.map fun x => if p x then (1 : UInt32) else 0).sum = UInt32.ofNat (l.countP fun x => p x) := by
  induction l with
  | nil => rfl
  | cons x xs ih =>
    rw [List.map_cons, List.sum_cons, ih, List.countP_cons, UInt32.ofNat_add, add_comm]
    by_cases hx : p x
    · rw [if_pos hx, if_pos (decide_eq_true hx)]
      rfl
    · rw [if_neg hx, if_neg (by simpa using hx)]
      rfl

theorem pendingSources_launch {rs : List BlockedRange} (hrs : Split file.nbEdges rs) (v : ℕ) :
    ((rs.map BlockedRange.indices).map (pendingSources file.edge v)).sum = UInt32.ofNat (file.outDegree v) := by
  have hsum := hrs.sum_map fun i => if (file.edge i).src.toNat = v then (1 : UInt32) else 0
  rw [List.map_map]
  refine hsum.trans ?_
  rw [sum_ite_eq_countP fun i => (file.edge i).src.toNat = v, EdgeFile.outDegree, file.edges_eq_map, List.countP_map]
  rfl

theorem map_getD_eq {l : List UInt32} (ordered : ℕ → UInt32) (hl : l.length = n) :
    ((List.range n).map fun i => l.getD i (ordered i)) = l := by
  refine List.ext_getElem (by rw [List.length_map, List.length_range, hl]) fun i h₁ h₂ => ?_
  simp only [List.getElem_map, List.getElem_range]
  rw [List.getD_eq_getElem _ _ h₂]

theorem countSources_conserved {i : ℕ} {cells cells' : ℕ → UInt32} {ts ts' : List (List ℕ)} {edges : ℕ → Edge}
    (hw : work (countSources edges) cells ts i = some (cells', ts')) (v : ℕ) :
    cells' v + (ts'.map (pendingSources edges v)).sum = cells v + (ts.map (pendingSources edges v)).sum := by
  refine work_conserved (g := fun cells : ℕ → UInt32 => cells v) hw fun t t' _ hbody => ?_
  cases t with
  | nil => cases hbody
  | cons i rest =>
    obtain ⟨rfl, rfl⟩ := Prod.mk.inj (Option.some.inj hbody)
    rw [pendingSources, pendingSources, List.map_cons, List.sum_cons, Function.update_apply]
    by_cases hv : v = (edges i).src.toNat
    · rw [if_pos hv, if_pos hv.symm, hv]
      abel
    · rw [if_neg hv, if_neg (Ne.symm hv), zero_add]

/-- Only the sort has to establish the condition on the mapping. -/
theorem sortAt_step {R : (ℕ → UInt32) → Prop} (h : SortAt file n mem R s)
    (hs : SortStep n file.nbEdges ascending maintain s s') (hR : s.pc = .sort → R s'.mapping) :
    SortAt file n mem R s' := by
  cases hs with
  | launchCount hp hrs =>
    simp only [SortAt, hp] at h ⊢
    refine ⟨h.1, fun v => ?_⟩
    rw [h.2, pendingSources_launch hrs]
    rfl
  | launchOrder hp hrs =>
    simp only [SortAt, hp] at h ⊢
    exact ⟨h.1, h.2, s.ordered, hrs.sweep_start⟩
  | launchRewrite hp hrs =>
    simp only [SortAt, hp] at h ⊢
    exact ⟨h.2, h.1 ▸ hrs.sweep_start⟩
  | count hp hw =>
    simp only [SortAt, hp] at h ⊢
    rw [h.1] at hw
    exact ⟨h.1, fun v => (countSources_conserved hw v).trans (h.2 v)⟩
  | order hp hw =>
    simp only [SortAt, hp] at h ⊢
    obtain ⟨hedges, hcount, cells, hsweep⟩ := h
    exact ⟨hedges, hcount, cells, hsweep.step hw⟩
  | rewrite hp hw =>
    simp only [SortAt, hp] at h ⊢
    exact ⟨h.1, h.2.step hw⟩
  | joinCount hp hdone =>
    simp only [SortAt, hp] at h ⊢
    refine ⟨h.1, funext fun v => ?_⟩
    have hpending : (s.counters.map (pendingSources file.edge v)).sum = 0 := by
      refine List.sum_eq_zero fun x hx => ?_
      obtain ⟨t, ht, rfl⟩ := List.mem_map.mp hx
      rw [hdone t ht]
      rfl
    rw [← h.2 v, hpending, add_zero]
  | joinOrder hp hdone =>
    simp only [SortAt, hp] at h ⊢
    obtain ⟨hedges, hcount, cells, hsweep⟩ := h
    refine ⟨hedges, hcount, List.map_congr_left fun i hi => ?_⟩
    rw [hsweep.finish hdone, if_pos (List.mem_range.mp hi)]
    rfl
  | joinRewrite hp hdone =>
    simp only [SortAt, hp] at h ⊢
    refine ⟨h.1, fun i hi => ?_⟩
    rw [h.2.finish hdone, if_pos hi]
    rfl
  | sort hp hl =>
    simp only [SortAt, hp] at h ⊢
    exact ⟨h.1, hR hp⟩

theorem sortInv_step (hn₀ : 0 < n) (hn : n ≤ 2 ^ 32) (h : SortInv file n ascending maintain mem s)
    (hs : SortStep n file.nbEdges ascending maintain s s') : SortInv file n ascending maintain mem s' := by
  refine sortAt_step h hs fun hp => ?_
  simp only [SortInv, SortAt, hp] at h
  obtain ⟨-, hcount, hordered⟩ := h
  cases hs with
  | @sort l _ hl =>
    rw [hcount, hordered] at hl
    have hlen : l.length = n := by rw [hl.1.length_eq, ids, List.length_map, List.length_range]
    exact ⟨l, hl, numbers_numberIds hn₀ hn hl.1 (map_getD_eq _ hlen)⟩
  | _ => simp only [hp, reduceCtorEq] at *

def SortState.measure (s : SortState) : ℕ × ℕ :=
  match s.pc with
  | .count => (7, 0)
  | .counting => (6, (s.counters.map List.length).sum)
  | .order => (5, 0)
  | .ordering => (4, (s.sweeps.map (Sweep.Task.weight orderStmts)).sum)
  | .sort => (3, 0)
  | .rewrite => (2, 0)
  | .rewriting => (1, (s.sweeps.map (Sweep.Task.weight (rewriteStmts s.mapping))).sum)
  | .done => (0, 0)

theorem SortStep.measure_lt {m : ℕ} (hs : SortStep n m ascending maintain s s') :
    Prod.Lex (· < ·) (· < ·) s'.measure s.measure := by
  cases hs with
  | count hp hw =>
    simp only [SortState.measure, hp]
    refine Prod.Lex.right _ (work_weight_lt hw fun t t' hbody => ?_)
    cases t with
    | nil => cases hbody
    | cons i rest =>
      obtain ⟨-, rfl⟩ := Prod.mk.inj (Option.some.inj hbody)
      exact Nat.lt_succ_self _
  | order hp hw =>
    simp only [SortState.measure, hp]
    exact Prod.Lex.right _ (work_weight_lt hw fun _ _ hbody => Sweep.body_weight_lt hbody)
  | rewrite hp hw =>
    simp only [SortState.measure, hp]
    exact Prod.Lex.right _ (work_weight_lt hw fun _ _ hbody => Sweep.body_weight_lt hbody)
  | _ =>
    simp only [SortState.measure, *]
    exact Prod.Lex.left _ _ (by decide)

/-- The comparator compares keys. -/
def sortKey (ascending : Bool) (cells : ℕ → UInt32) (v : UInt32) : ℕ :=
  if ascending then (cells v.toNat).toNat else 2 ^ 32 - (cells v.toNat).toNat

theorem comesBefore_iff {cells : ℕ → UInt32} {a b : UInt32} :
    comesBefore ascending cells a b = true ↔ sortKey ascending cells a < sortKey ascending cells b := by
  have ha := (cells a.toNat).toNat_lt
  have hb := (cells b.toNat).toNat_lt
  cases ascending with
  | false =>
    rw [comesBefore, if_neg Bool.false_ne_true, decide_eq_true_iff, gt_iff_lt, UInt32.lt_iff_toNat_lt, sortKey, sortKey,
      if_neg Bool.false_ne_true, if_neg Bool.false_ne_true]
    omega
  | true => rw [comesBefore, if_pos rfl, decide_eq_true_iff, UInt32.lt_iff_toNat_lt]; rfl

/-- Among the orders `std::sort` may return is one with the vertex `w` behind all it ties with. -/
theorem exists_sorted (ascending : Bool) (cells : ℕ → UInt32) (entries : List UInt32) (w : UInt32) :
    ∃ l, Sorted ascending cells entries l ∧
      l.Pairwise fun a b => sortKey ascending cells a < sortKey ascending cells b ∨ (a = w → b = w) := by
  let key (v : UInt32) : ℕ := 2 * sortKey ascending cells v + if v = w then 1 else 0
  have hsorted : (entries.mergeSort fun a b => decide (key a ≤ key b)).Pairwise fun a b => key a ≤ key b := by
    refine (List.pairwise_mergeSort (fun a b c hab hbc => ?_) (fun a b => ?_) entries).imp fun h => of_decide_eq_true h
    · exact decide_eq_true ((of_decide_eq_true hab).trans (of_decide_eq_true hbc))
    · rcases Nat.le_total (key a) (key b) with h | h <;> simp [h]
  refine ⟨_, ⟨List.mergeSort_perm _ _, hsorted.imp fun {a b} h => ?_⟩, hsorted.imp fun {a b} h => ?_⟩
  · rw [← Bool.not_eq_true, comesBefore_iff]
    simp only [key] at h
    split at h <;> split at h <;> omega
  · simp only [key] at h
    by_cases ha : a = w
    · by_cases hb : b = w
      · exact Or.inr fun _ => hb
      · rw [if_pos ha, if_neg hb] at h
        exact Or.inl (by omega)
    · exact Or.inr fun h => absurd h ha

theorem sortByDegree_stuck {m : ℕ} (hn : ∀ a, sortByDegree n m ascending maintain s a = none) : s.pc = .done := by
  obtain ⟨rs, hrs⟩ := exists_split m
  obtain ⟨rs', hrs'⟩ := exists_split n
  have hjoin := hn .join
  simp only [sortByDegree] at hjoin
  cases hpc : s.pc with
  | count =>
    have h := hn (.launch rs)
    simp only [sortByDegree, hpc] at h
    rw [if_pos hrs] at h
    cases h
  | counting =>
    rw [hpc] at hjoin
    have hbody : ∀ t, ¬ t = [] → countSources s.edges s.outEdgeOffsets t ≠ none := by
      intro t ht
      cases t with
      | nil => exact absurd rfl ht
      | cons i rest => exact Option.some_ne_none _
    have hwork := fun i => hn (.work i)
    simp only [sortByDegree, hpc] at hwork
    simp only [if_pos (through_of_stuck hbody hwork)] at hjoin
    cases hjoin
  | order =>
    have h := hn (.launch rs')
    simp only [sortByDegree, hpc] at h
    rw [if_pos hrs'] at h
    cases h
  | ordering =>
    rw [hpc] at hjoin
    have hwork := fun i => hn (.work i)
    simp only [sortByDegree, hpc] at hwork
    have hall := through_of_stuck (P := fun t => t.indices = []) (fun _ hne => Sweep.body_isSome hne) hwork
    simp only [if_pos hall] at hjoin
    cases hjoin
  | sort =>
    obtain ⟨l, hl, -⟩ := exists_sorted ascending s.outEdgeOffsets ((List.range n).map s.ordered) 0
    have h := hn (.sort l)
    simp only [sortByDegree] at h
    rw [if_pos ⟨hpc, hl⟩] at h
    cases h
  | rewrite =>
    have h := hn (.launch rs)
    simp only [sortByDegree, hpc] at h
    rw [if_pos hrs] at h
    cases h
  | rewriting =>
    rw [hpc] at hjoin
    have hwork := fun i => hn (.work i)
    simp only [sortByDegree, hpc] at hwork
    have hall := through_of_stuck (P := fun t => t.indices = []) (fun _ hne => Sweep.body_isSome hne) hwork
    simp only [if_pos hall] at hjoin
    cases hjoin
  | done => rfl

theorem sortInv_init (ordered mapping : ℕ → UInt32) :
    SortInv file n ascending maintain mem (SortState.init file mem ordered mapping) := ⟨rfl, rfl⟩

theorem sortInv_of_reach (hn₀ : 0 < n) (hn : n ≤ 2 ^ 32) {ordered mapping : ℕ → UInt32}
    (h : Reach (sortByDegree n file.nbEdges ascending maintain) (SortState.init file mem ordered mapping) s) :
    SortInv file n ascending maintain mem s :=
  h.invariant (sortInv_init ordered mapping) fun _ _ _ hu ha => sortInv_step hn₀ hn hu (sortByDegree_step ha)

theorem SortAt.done {R : (ℕ → UInt32) → Prop} (h : SortAt file n mem R s) (hp : s.pc = .done) :
    R s.mapping ∧ (s.output file).edges = file.edges.map (Edge.relabel s.mapping) := by
  simp only [SortAt, hp] at h
  refine ⟨h.1, ?_⟩
  rw [SortState.output, file.edges_eq_map, List.map_map]
  exact List.map_congr_left fun i hi => h.2 i (List.mem_range.mp hi)

theorem SortInv.done (h : SortInv file n ascending maintain mem s) (hp : s.pc = .done) :
    Relabels file n ascending maintain mem s.mapping ∧ (s.output file).edges = file.edges.map (Edge.relabel s.mapping) :=
  SortAt.done h hp

theorem sortByDegree_ends (hn₀ : 0 < n) (hn : n ≤ 2 ^ 32) (ordered mapping : ℕ → UInt32) :
    Ends (sortByDegree n file.nbEdges ascending maintain) (SortState.init file mem ordered mapping) fun s =>
      SortInv file n ascending maintain mem s ∧ s.pc = .done :=
  ends_of_invariant (Prod.lex Nat.lt_wfRel Nat.lt_wfRel).wf SortState.measure
    (fun _ _ _ hu ha => sortInv_step hn₀ hn hu (sortByDegree_step ha)) (fun _ _ _ _ ha => (sortByDegree_step ha).measure_lt)
    (fun _ hs hstuck => ⟨hs, sortByDegree_stuck hstuck⟩) (sortInv_init ordered mapping)

/-! ## A run with a given order -/

def SortPc.Numbered (p : SortPc) : Prop := p = .rewrite ∨ p = .rewriting ∨ p = .done

theorem SortStep.numbered {m : ℕ} (hs : SortStep n m ascending maintain s s') :
    (s.pc.Numbered → s'.pc.Numbered ∧ s'.mapping = s.mapping) ∧ (s'.pc.Numbered → s.pc.Numbered ∨ s.pc = .sort) := by
  unfold SortPc.Numbered
  cases hs <;> simp [*]

theorem exists_run (maintain : Bool) (hn₀ : 0 < n) (hn : n ≤ 2 ^ 32) (ordered mapping : ℕ → UInt32) {l : List UInt32}
    (hl : Sorted ascending (file.counters mem) (ids n) l) :
    ∃ s, Reach (sortByDegree n file.nbEdges ascending maintain) (SortState.init file mem ordered mapping) s ∧
      s.pc = .done ∧ Numbers n (newOrder maintain l) s.mapping := by
  have hends := @sortByDegree_ends file n ascending maintain mem hn₀ hn ordered mapping
  -- every complete run comes to the sort
  obtain ⟨t, ht, -, htp⟩ := hends.exists
  obtain ⟨u, hu, hup⟩ : ∃ u, Reach (sortByDegree n file.nbEdges ascending maintain)
      (SortState.init file mem ordered mapping) u ∧ u.pc = .sort := by
    have hinv := ht.invariant (P := fun t => Reach (sortByDegree n file.nbEdges ascending maintain)
        (SortState.init file mem ordered mapping) t ∧ (t.pc.Numbered → ∃ u, Reach
          (sortByDegree n file.nbEdges ascending maintain) (SortState.init file mem ordered mapping) u ∧ u.pc = .sort))
      ⟨Reach.refl _ _, fun hp => by rcases hp with hp | hp | hp <;> cases hp⟩
      fun u a v ⟨hu, hsort⟩ ha => ⟨hu.tail ha, fun hv =>
        ((sortByDegree_step ha).numbered.2 hv).elim hsort fun hp => ⟨u, hu, hp⟩⟩
    exact hinv.2 (Or.inr (Or.inr htp))
  have hinv := sortInv_of_reach hn₀ hn hu
  simp only [SortInv, SortAt, hup] at hinv
  obtain ⟨-, hcount, hordered⟩ := hinv
  have ha : sortByDegree n file.nbEdges ascending maintain u (.sort l) = some { u with
      ordered := fun i => l.getD i (u.ordered i)
      mapping := (numberIds maintain (fun i => l.getD i (u.ordered i)) u.mapping n).1
      pc := .rewrite } := if_pos ⟨hup, by rw [hcount, hordered]; exact hl⟩
  obtain ⟨w, hw, -, hwp⟩ := (hends.of_reach (hu.tail ha)).exists
  have hkept := hw.invariant (P := fun x => x.pc.Numbered ∧
      x.mapping = (numberIds maintain (fun i => l.getD i (u.ordered i)) u.mapping n).1) ⟨Or.inl rfl, rfl⟩
    fun x a y ⟨hx, hm⟩ ha =>
      have hy := (sortByDegree_step ha).numbered.1 hx
      ⟨hy.1, hy.2.trans hm⟩
  have hlen : l.length = n := by rw [hl.1.length_eq, ids, List.length_map, List.length_range]
  exact ⟨w, (hu.tail ha).trans hw, hwp, hkept.2 ▸ numbers_numberIds hn₀ hn hl.1 (map_getD_eq _ hlen)⟩

end Run

end GraphBenchmark
