import GraphBenchmark.Model.Loader
import GraphBenchmark.Foundations.Words
import GraphBenchmark.Foundations.Slices
import Mathlib.Algebra.BigOperators.Group.Finset.Piecewise
import Mathlib.Algebra.BigOperators.Ring.List
import Mathlib.Tactic.Abel

/-! # What `count_degree` leaves in the offset arrays

Every interleaving of the atomic increments adds to each cell the degree of its vertex
(`counting_total`), so `sum_degree` always runs on the same two arrays, `counted`. Its loop turns an array
into its exclusive prefix sums and asserts that the total is the number of edges (`sumDegreeBlock_eq`). -/
namespace GraphBenchmark
open Interleaving Words
set_option autoImplicit false

def EdgeFile.outDegree (file : EdgeFile) (v : ℕ) : ℕ := file.edges.countP fun e => e.src.toNat = v

def EdgeFile.inDegree (file : EdgeFile) (v : ℕ) : ℕ := file.edges.countP fun e => e.dst.toNat = v

def EdgeFile.EndpointsBelow (file : EdgeFile) (n : ℕ) : Prop := ∀ e ∈ file.edges, e.src.toNat < n ∧ e.dst.toNat < n

instance (file : EdgeFile) (n : ℕ) : Decidable (file.EndpointsBelow n) :=
  inferInstanceAs (Decidable (∀ e ∈ file.edges, _))

theorem EdgeFile.edges_eq_map (file : EdgeFile) : file.edges = (List.range file.nbEdges).map file.edge := by
  refine List.ext_getElem (by simp [nbEdges]) fun i h₁ h₂ => ?_
  simp only [List.getElem_map, List.getElem_range, edge]
  rw [List.getD_eq_getElem?_getD, List.getElem?_eq_getElem h₁, Option.getD_some]

theorem EdgeFile.edge_mem (file : EdgeFile) {i : ℕ} (hi : i < file.nbEdges) : file.edge i ∈ file.edges := by
  rw [file.edges_eq_map]
  exact List.mem_map.mpr ⟨i, List.mem_range.mpr hi, rfl⟩

theorem EdgeFile.countP_edges (file : EdgeFile) (p : Edge → Prop) [DecidablePred p] :
    file.edges.countP (fun e => p e) = (Multiset.range file.nbEdges).countP fun i => p (file.edge i) := by
  conv_lhs => rw [file.edges_eq_map, List.countP_map]
  rfl

theorem EdgeFile.nbEdges_lt (file : EdgeFile) : file.nbEdges < 2 ^ 64 := by
  have h := file.size_lt
  unfold nbEdges
  omega

/-- The degrees of the vertices below `n` sum up to the number of edges whose key is one of them. -/
theorem start_countP (edges : List Edge) (key : Edge → ℕ) (n : ℕ) :
    Slices.start (fun v => edges.countP fun e => key e = v) n = edges.countP fun e => key e < n := by
  induction edges with
  | nil => exact Finset.sum_eq_zero fun v _ => rfl
  | cons e es ih =>
    unfold Slices.start at ih ⊢
    simp only [List.countP_cons, Finset.sum_add_distrib, ih, decide_eq_true_eq, Finset.sum_ite_eq, Finset.mem_range]

theorem start_countP_key (edges : List Edge) (key : Edge → ℕ) (n : ℕ) (h : ∀ e ∈ edges, key e < n) :
    Slices.start (fun v => edges.countP fun e => key e = v) n = edges.length := by
  rw [start_countP, List.countP_eq_length]
  exact fun e he => decide_eq_true (h e he)

theorem EdgeFile.start_outDegree (file : EdgeFile) {n : ℕ} (h : file.EndpointsBelow n) :
    Slices.start file.outDegree n = file.nbEdges :=
  start_countP_key file.edges (fun e => e.src.toNat) n fun e he => (h e he).1

theorem EdgeFile.start_inDegree (file : EdgeFile) {n : ℕ} (h : file.EndpointsBelow n) :
    Slices.start file.inDegree n = file.nbEdges :=
  start_countP_key file.edges (fun e => e.dst.toNat) n fun e he => (h e he).2

/-! ## The counting pass -/

namespace CountTask

def outPending (file : EdgeFile) (v : ℕ) (t : CountTask) : ℕ :=
  (match t.stage with
    | .outEdge => t.todo
    | .inEdge => t.todo.tail).countP fun i => (file.edge i).src.toNat = v

def inPending (file : EdgeFile) (v : ℕ) (t : CountTask) : ℕ := t.todo.countP fun i => (file.edge i).dst.toNat = v

def weight (t : CountTask) : ℕ :=
  match t.stage with
  | .outEdge => 2 * t.todo.length
  | .inEdge => 2 * t.todo.length - 1

end CountTask

theorem bump_apply (cells : ℕ → UInt64) (i v : ℕ) : bump cells i v = cells v + UInt64.ofNat (if i = v then 1 else 0) := by
  unfold bump
  by_cases h : i = v
  · subst h
    rw [Function.update_self, if_pos rfl]
    rfl
  · rw [Function.update_of_ne (Ne.symm h), if_neg h]
    exact (add_zero _).symm

section Body
variable {file : EdgeFile} {symmetric : Bool} {s s' : Offsets} {t t' : CountTask}

theorem countDegree1Atomic_cases (h : countDegree1Atomic file symmetric s t = some (s', t')) :
    ∃ i rest,
      (t = ⟨i :: rest, .outEdge⟩ ∧ s' = { s with outEdgeOffsets := bump s.outEdgeOffsets (file.edge i).src.toNat } ∧
        t' = if symmetric then ⟨i :: rest, .inEdge⟩ else ⟨rest, .outEdge⟩) ∨
      (t = ⟨i :: rest, .inEdge⟩ ∧ s' = { s with inEdgeOffsets := bump s.inEdgeOffsets (file.edge i).dst.toNat } ∧
        t' = ⟨rest, .outEdge⟩) := by
  obtain ⟨todo, stage⟩ := t
  cases todo with
  | nil => cases h
  | cons i rest =>
    refine ⟨i, rest, ?_⟩
    cases stage <;> obtain ⟨rfl, rfl⟩ := Prod.mk.inj (Option.some.inj h)
    · exact Or.inl ⟨rfl, rfl, rfl⟩
    · exact Or.inr ⟨rfl, rfl, rfl⟩

theorem countDegree1Atomic_isSome (ht : t.todo ≠ []) : countDegree1Atomic file symmetric s t ≠ none := by
  obtain ⟨todo, stage⟩ := t
  cases todo with
  | nil => exact absurd rfl ht
  | cons i rest => cases stage <;> exact Option.some_ne_none _

/-- Each step moves one increment from what a task owes to a cell. -/
theorem countDegree1Atomic_out (h : countDegree1Atomic file symmetric s t = some (s', t')) (v : ℕ) :
    s'.outEdgeOffsets v + UInt64.ofNat (t'.outPending file v) =
      s.outEdgeOffsets v + UInt64.ofNat (t.outPending file v) := by
  obtain ⟨i, rest, ⟨rfl, rfl, rfl⟩ | ⟨rfl, rfl, rfl⟩⟩ := countDegree1Atomic_cases h
  · have hpend : (if symmetric = true then (⟨i :: rest, .inEdge⟩ : CountTask) else ⟨rest, .outEdge⟩).outPending file v =
        rest.countP fun i => (file.edge i).src.toNat = v := by
      cases symmetric <;> rfl
    rw [hpend]
    simp only [bump_apply, CountTask.outPending, List.countP_cons, decide_eq_true_eq, UInt64.ofNat_add]
    abel
  · rfl

theorem countDegree1Atomic_in (h : countDegree1Atomic file true s t = some (s', t')) (v : ℕ) :
    s'.inEdgeOffsets v + UInt64.ofNat (t'.inPending file v) =
      s.inEdgeOffsets v + UInt64.ofNat (t.inPending file v) := by
  obtain ⟨i, rest, ⟨rfl, rfl, rfl⟩ | ⟨rfl, rfl, rfl⟩⟩ := countDegree1Atomic_cases h
  · rfl
  · simp only [bump_apply, CountTask.inPending, List.countP_cons, decide_eq_true_eq, UInt64.ofNat_add]
    abel

theorem countDegree1Atomic_asymmetric (h : countDegree1Atomic file false s t = some (s', t'))
    (ht : t.stage = .outEdge) : s'.inEdgeOffsets = s.inEdgeOffsets ∧ t'.stage = .outEdge := by
  obtain ⟨i, rest, ⟨rfl, rfl, rfl⟩ | ⟨rfl, rfl, rfl⟩⟩ := countDegree1Atomic_cases h
  · exact ⟨rfl, rfl⟩
  · cases ht

theorem countDegree1Atomic_weight (h : countDegree1Atomic file symmetric s t = some (s', t')) :
    t'.weight < t.weight := by
  obtain ⟨i, rest, ⟨rfl, rfl, rfl⟩ | ⟨rfl, rfl, rfl⟩⟩ := countDegree1Atomic_cases h
  · cases symmetric <;> simp only [CountTask.weight, List.length_cons, if_true, Bool.false_eq_true, if_false] <;> omega
  · simp only [CountTask.weight, List.length_cons]
    omega

end Body

/-- The arrays after the counting pass, whatever the interleaving. -/
def counted (file : EdgeFile) (symmetric : Bool) (mem : Offsets) : Offsets where
  outEdgeOffsets v := mem.outEdgeOffsets v + UInt64.ofNat (file.outDegree v)
  inEdgeOffsets v := if symmetric then mem.inEdgeOffsets v + UInt64.ofNat (file.inDegree v) else mem.inEdgeOffsets v

/-! ## Runs of `count_degree` -/

inductive CountStep (file : EdgeFile) (symmetric : Bool) (nbNodes : ℕ) (s : CountState) : CountState → Prop
  | launch {rs : List BlockedRange} (hp : s.pc = .start) (hrs : Split file.nbEdges rs) :
      CountStep file symmetric nbNodes s { s with tasks := rs.map fun r => ⟨r.indices, .outEdge⟩, pc := .counting }
  | work {i : ℕ} {o : Offsets} {ts : List CountTask} (hp : s.pc = .counting)
      (hw : work (countDegree1Atomic file symmetric) s.offsets s.tasks i = some (o, ts)) :
      CountStep file symmetric nbNodes s { s with offsets := o, tasks := ts }
  | join {o : Offsets} (hp : s.pc = .counting) (hdone : ∀ t ∈ s.tasks, t.todo = [])
      (hsum : sumDegree symmetric nbNodes file.nbEdges s.offsets = some o) :
      CountStep file symmetric nbNodes s { s with offsets := o, tasks := [], pc := .done }
  | abort (hp : s.pc = .counting) (hdone : ∀ t ∈ s.tasks, t.todo = [])
      (hsum : sumDegree symmetric nbNodes file.nbEdges s.offsets = none) :
      CountStep file symmetric nbNodes s { s with pc := .aborted }

theorem countDegree_step {file : EdgeFile} {symmetric : Bool} {nbNodes : ℕ} {s s' : CountState} {a : CountAct}
    (h : countDegree file symmetric nbNodes s a = some s') : CountStep file symmetric nbNodes s s' := by
  cases a with
  | launch rs =>
    simp only [countDegree] at h
    split at h
    · rename_i hc
      cases h
      exact .launch hc.1 hc.2
    · cases h
  | work i =>
    simp only [countDegree] at h
    split at h
    · rename_i hp
      obtain ⟨⟨o, ts⟩, hw, rfl⟩ := Option.map_eq_some_iff.mp h
      exact .work hp hw
    · cases h
  | join =>
    simp only [countDegree] at h
    split at h
    · rename_i hc
      split at h
      · rename_i o hsum
        cases h
        exact .join hc.1 hc.2 hsum
      · rename_i hsum
        cases h
        exact .abort hc.1 hc.2 hsum
    · cases h

/-- What holds at each point of `count_degree`. -/
structure CountInv (file : EdgeFile) (symmetric : Bool) (nbNodes : ℕ) (mem : Offsets) (s : CountState) : Prop where
  start : s.pc = .start → s.offsets = mem
  outTotal : s.pc = .counting → ∀ v, s.offsets.outEdgeOffsets v +
    (s.tasks.map fun t => UInt64.ofNat (t.outPending file v)).sum = (counted file symmetric mem).outEdgeOffsets v
  inTotal : s.pc = .counting → symmetric = true → ∀ v, s.offsets.inEdgeOffsets v +
    (s.tasks.map fun t => UInt64.ofNat (t.inPending file v)).sum = (counted file symmetric mem).inEdgeOffsets v
  inUnused : s.pc = .counting → symmetric = false →
    s.offsets.inEdgeOffsets = mem.inEdgeOffsets ∧ ∀ t ∈ s.tasks, t.stage = .outEdge
  done : s.pc = .done → sumDegree symmetric nbNodes file.nbEdges (counted file symmetric mem) = some s.offsets
  aborted : s.pc = .aborted → sumDegree symmetric nbNodes file.nbEdges (counted file symmetric mem) = none

variable {file : EdgeFile} {symmetric : Bool} {nbNodes : ℕ} {mem : Offsets} {s s' : CountState}

theorem countInv_init : CountInv file symmetric nbNodes mem (CountState.init mem) := by
  refine ⟨fun _ => rfl, ?_, ?_, ?_, ?_, ?_⟩ <;> intro h <;> cases h

theorem sum_countP_split {rs : List BlockedRange} (h : Split file.nbEdges rs) (p : Edge → Prop) [DecidablePred p] :
    (rs.map fun r => r.indices.countP fun i => p (file.edge i)).sum = file.edges.countP fun e => p e := by
  rw [file.countP_edges, ← h.sum_indices]
  clear h
  induction rs with
  | nil => rfl
  | cons r rs ih => rw [List.map_cons, List.sum_cons, List.map_cons, List.sum_cons, Multiset.countP_add, ih]; rfl

theorem counted_of_todo_nil {o : Offsets} {ts : List CountTask} (hnil : ∀ t ∈ ts, t.todo = [])
    (hout : ∀ v, o.outEdgeOffsets v + (ts.map fun t => UInt64.ofNat (t.outPending file v)).sum =
      (counted file symmetric mem).outEdgeOffsets v)
    (hin : symmetric = true → ∀ v, o.inEdgeOffsets v + (ts.map fun t => UInt64.ofNat (t.inPending file v)).sum =
      (counted file symmetric mem).inEdgeOffsets v)
    (hunused : symmetric = false → o.inEdgeOffsets = mem.inEdgeOffsets) : o = counted file symmetric mem := by
  have hzero : ∀ f : CountTask → ℕ, (∀ t ∈ ts, f t = 0) → (ts.map fun t => UInt64.ofNat (f t)).sum = 0 := by
    intro f hf
    refine List.sum_eq_zero fun x hx => ?_
    obtain ⟨t, ht, rfl⟩ := List.mem_map.mp hx
    rw [hf t ht]
    rfl
  have hout' : o.outEdgeOffsets = (counted file symmetric mem).outEdgeOffsets := by
    funext v
    rw [← hout v, hzero, add_zero]
    rintro ⟨todo, stage⟩ ht
    obtain rfl : todo = [] := hnil _ ht
    cases stage <;> rfl
  have hin' : o.inEdgeOffsets = (counted file symmetric mem).inEdgeOffsets := by
    funext v
    cases symmetric with
    | false => rw [hunused rfl]; rfl
    | true =>
      rw [← hin rfl v, hzero, add_zero]
      intro t ht
      rw [CountTask.inPending, hnil t ht]
      rfl
  cases o
  exact congrArg₂ Offsets.mk hout' hin'

theorem countInv_step (h : CountInv file symmetric nbNodes mem s) {a : CountAct}
    (ha : countDegree file symmetric nbNodes s a = some s') : CountInv file symmetric nbNodes mem s' := by
  cases countDegree_step ha with
  | launch hp hrs =>
    refine ⟨nofun, fun _ v => ?_, fun _ hsym v => ?_, fun _ _ => ⟨?_, ?_⟩, nofun, nofun⟩
    · rw [h.start hp, List.map_map]
      simp only [Function.comp_def, list_sum_ofNat64, CountTask.outPending]
      rw [sum_countP_split hrs fun e => e.src.toNat = v]
      rfl
    · rw [h.start hp, List.map_map]
      simp only [Function.comp_def, list_sum_ofNat64, CountTask.inPending]
      rw [sum_countP_split hrs fun e => e.dst.toNat = v]
      simp only [counted, hsym, if_true]
      rfl
    · rw [h.start hp]
    · intro t ht
      obtain ⟨r, -, rfl⟩ := List.mem_map.mp ht
      rfl
  | work hp hw =>
    refine ⟨fun hp' => absurd (hp'.symm.trans hp) nofun, fun _ v => ?_, fun _ hsym v => ?_, fun _ hsym => ?_,
      fun hp' => absurd (hp'.symm.trans hp) nofun, fun hp' => absurd (hp'.symm.trans hp) nofun⟩
    · rw [← h.outTotal hp v]
      exact work_conserved (g := fun o : Offsets => o.outEdgeOffsets v) hw fun t t' _ ht => countDegree1Atomic_out ht v
    · subst hsym
      rw [← h.inTotal hp rfl v]
      exact work_conserved (g := fun o : Offsets => o.inEdgeOffsets v) hw fun t t' _ ht => countDegree1Atomic_in ht v
    · subst hsym
      obtain ⟨hmem, hstage⟩ := h.inUnused hp rfl
      obtain ⟨pre, t, post, t', hts, hstep, rfl⟩ := work_eq_some hw
      rw [hts, forall_mem_middle] at hstage
      obtain ⟨hin, ht'⟩ := countDegree1Atomic_asymmetric hstep hstage.1
      exact ⟨hin.trans hmem, forall_mem_middle.mpr ⟨ht', hstage.2⟩⟩
  | join hp hdone hsum =>
    rw [counted_of_todo_nil hdone (h.outTotal hp) (h.inTotal hp) fun hsym => (h.inUnused hp hsym).1] at hsum
    exact ⟨nofun, nofun, nofun, nofun, fun _ => hsum, nofun⟩
  | abort hp hdone hsum =>
    rw [counted_of_todo_nil hdone (h.outTotal hp) (h.inTotal hp) fun hsym => (h.inUnused hp hsym).1] at hsum
    exact ⟨nofun, nofun, nofun, nofun, nofun, fun _ => hsum⟩

/-! ## Termination -/

def CountState.measure (file : EdgeFile) (s : CountState) : ℕ :=
  match s.pc with
  | .start => 2 * file.nbEdges + 2
  | .counting => (s.tasks.map CountTask.weight).sum + 1
  | .done => 0
  | .aborted => 0

theorem countDegree_measure {a : CountAct} (ha : countDegree file symmetric nbNodes s a = some s') :
    s'.measure file < s.measure file := by
  cases countDegree_step ha with
  | @launch rs hp hrs =>
    have hsum : ((rs.map fun r => (⟨r.indices, .outEdge⟩ : CountTask)).map CountTask.weight).sum =
        2 * file.nbEdges := by
      rw [List.map_map, ← hrs.sum_length, ← List.sum_map_mul_left]
      rfl
    simp only [CountState.measure, hp, hsum]
    omega
  | work hp hw =>
    simp only [CountState.measure, hp]
    exact Nat.add_lt_add_right (work_weight_lt hw fun t t' ht => countDegree1Atomic_weight ht) 1
  | join hp _ _ | abort hp _ _ =>
    simp only [CountState.measure, hp]
    omega

theorem countDegree_stuck (h : ∀ a, countDegree file symmetric nbNodes s a = none) : s.pc = .done ∨ s.pc = .aborted := by
  cases hpc : s.pc with
  | start =>
    obtain ⟨rs, hrs⟩ := exists_split file.nbEdges
    have := h (.launch rs)
    simp only [countDegree] at this
    rw [if_pos ⟨hpc, hrs⟩] at this
    cases this
  | counting =>
    have hwork := fun i => h (.work i)
    simp only [countDegree, hpc, if_true] at hwork
    have hall := through_of_stuck (P := fun t => t.todo = []) (fun _ htodo => countDegree1Atomic_isSome htodo) hwork
    have := h .join
    simp only [countDegree] at this
    rw [if_pos ⟨hpc, hall⟩] at this
    split at this <;> cases this
  | done => exact Or.inl rfl
  | aborted => exact Or.inr rfl

/-- Every schedule of `count_degree` is finite and comes to `sum_degree` of the counted arrays: it
completes with its result, or stops at the failed assertion. -/
theorem countDegree_ends (file : EdgeFile) (symmetric : Bool) (nbNodes : ℕ) (mem : Offsets) :
    Ends (countDegree file symmetric nbNodes) (CountState.init mem) fun s =>
      (s.pc = .done ∧ sumDegree symmetric nbNodes file.nbEdges (counted file symmetric mem) = some s.offsets) ∨
      (s.pc = .aborted ∧ sumDegree symmetric nbNodes file.nbEdges (counted file symmetric mem) = none) :=
  ends_of_invariant (P := CountInv file symmetric nbNodes mem) Nat.lt_wfRel.wf (CountState.measure file)
    (fun _ _ _ hu ha => countInv_step hu ha) (fun _ _ _ _ ha => countDegree_measure ha)
    (fun _ hu hn => (countDegree_stuck hn).imp (fun hp => ⟨hp, hu.done hp⟩) fun hp => ⟨hp, hu.aborted hp⟩)
    countInv_init

/-! ## The prefix sums -/

theorem prefixSums_eq (a : ℕ → UInt64) (n : ℕ) :
    prefixSums a n = (fun i => if i < n then ∑ j ∈ Finset.range i, a j else a i, ∑ j ∈ Finset.range n, a j) := by
  induction n with
  | zero => simp [prefixSums]
  | succ n ih =>
    rw [prefixSums, ih]
    refine Prod.ext (funext fun i => ?_) ?_
    · simp only [Function.update_apply]
      rcases Nat.lt_trichotomy i n with h | rfl | h
      · rw [if_neg h.ne, if_pos h, if_pos (by omega)]
      · rw [if_pos rfl, if_pos (Nat.lt_succ_self i)]
      · rw [if_neg h.ne', if_neg (by omega), if_neg (by omega)]
    · simp only [lt_irrefl, if_false, Finset.sum_range_succ]

/-- A block of `sum_degree` makes exclusive prefix sums, provided the cells sum up to the edge count. -/
theorem sumDegreeBlock_eq (n m : ℕ) (a : ℕ → UInt64) :
    sumDegreeBlock n m a =
      if ∑ j ∈ Finset.range n, a j = UInt64.ofNat m then
        some fun i => if i ≤ n then ∑ j ∈ Finset.range i, a j else a i
      else none := by
  simp only [sumDegreeBlock, prefixSums_eq]
  split
  · congr 1
    funext i
    rw [Function.update_apply]
    rcases Nat.lt_trichotomy i n with h | rfl | h
    · rw [if_neg h.ne, if_pos h, if_pos h.le]
    · rw [if_pos rfl, if_pos le_rfl]
    · rw [if_neg h.ne', if_neg (by omega), if_neg (by omega)]
  · rfl

theorem sumDegreeBlock_eq_some {n m : ℕ} {a b : ℕ → UInt64} : sumDegreeBlock n m a = some b ↔
    ∑ j ∈ Finset.range n, a j = UInt64.ofNat m ∧ b = fun i => if i ≤ n then ∑ j ∈ Finset.range i, a j else a i := by
  rw [sumDegreeBlock_eq]
  split
  · rename_i h
    simp only [h, true_and, Option.some.injEq, eq_comm]
  · rename_i h
    simp only [h, false_and, reduceCtorEq]

theorem sumDegree_eq_some {n m : ℕ} {s o : Offsets} : sumDegree symmetric n m s = some o ↔
    sumDegreeBlock n m s.outEdgeOffsets = some o.outEdgeOffsets ∧
      if symmetric then sumDegreeBlock n m s.inEdgeOffsets = some o.inEdgeOffsets
      else o.inEdgeOffsets = s.inEdgeOffsets := by
  obtain ⟨oOut, oIn⟩ := o
  unfold sumDegree
  cases symmetric with
  | false =>
    simp only [Option.bind_eq_bind, Option.bind_eq_some_iff, Bool.false_eq_true, if_false, Option.some.injEq,
      Offsets.mk.injEq]
    constructor
    · rintro ⟨x, hx, rfl, rfl⟩
      exact ⟨hx, rfl⟩
    · rintro ⟨hx, rfl⟩
      exact ⟨oOut, hx, rfl, rfl⟩
  | true =>
    simp only [Option.bind_eq_bind, Option.bind_eq_some_iff, if_true, Option.some.injEq, Offsets.mk.injEq]
    constructor
    · rintro ⟨x, hx, y, hy, rfl, rfl⟩
      exact ⟨hx, hy⟩
    · rintro ⟨hx, hy⟩
      exact ⟨oOut, hx, oIn, hy, rfl, rfl⟩

/-- On cells that count the edges by `key`, on top of `a`, where all cells of `a` are zero, the assertion of a block
passes exactly when every key is a vertex. -/
theorem sumDegreeBlock_isSome_iff (file : EdgeFile) {n : ℕ} {a : ℕ → UInt64} (ha : ∀ i < n, a i = 0) (key : Edge → ℕ) :
    (∃ b, sumDegreeBlock n file.nbEdges
        (fun v => a v + UInt64.ofNat (file.edges.countP fun e => key e = v)) = some b) ↔
      ∀ e ∈ file.edges, key e < n := by
  have hsum : ∑ v ∈ Finset.range n, (a v + UInt64.ofNat (file.edges.countP fun e => key e = v)) =
      UInt64.ofNat (file.edges.countP fun e => key e < n) := by
    rw [Finset.sum_add_distrib, Finset.sum_eq_zero fun v hv => ha v (Finset.mem_range.mp hv), zero_add, sum_ofNat64,
      ← start_countP]
    rfl
  have hle : (file.edges.countP fun e => key e < n) ≤ file.nbEdges := List.countP_le_length
  have hlt := file.nbEdges_lt
  simp only [sumDegreeBlock_eq_some, exists_and_left, exists_eq, and_true, hsum]
  constructor
  · intro h
    have hnat := congrArg UInt64.toNat h
    rw [toNat_ofNat64 (hle.trans_lt hlt), toNat_ofNat64 hlt] at hnat
    exact fun e he => of_decide_eq_true (List.countP_eq_length.mp hnat e he)
  · intro h
    have hlen := List.countP_eq_length.mpr fun e he => decide_eq_true (h e he)
    rw [hlen]
    rfl

end GraphBenchmark
