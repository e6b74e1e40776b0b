import GraphBenchmark.Loader.Count

/-! # The two degree counters

`count_degree_0_sequential` adds to each cell the number of edges at its vertex (`countDegree0Sequential_eq`),
and so does every schedule of `count_degree_1_atomic`. -/
namespace GraphBenchmark
open Interleaving Words
set_option autoImplicit false

variable {file : EdgeFile} {symmetric : Bool} {nbNodes : ℕ} {mem s : Offsets} {t : CountState}

/-! ## The sequential counter -/

theorem foldl_countEdge_out (is : List ℕ) (v : ℕ) :
    (is.foldl (countEdge file symmetric) s).outEdgeOffsets v =
      s.outEdgeOffsets v + UInt64.ofNat (is.countP fun i => (file.edge i).src.toNat = v) := by
  induction is generalizing s with
  | nil => exact (add_zero _).symm
  | cons i is ih =>
    rw [List.foldl_cons, ih]
    simp only [countEdge, bump_apply, List.countP_cons, decide_eq_true_eq, UInt64.ofNat_add]
    abel

theorem foldl_countEdge_in (is : List ℕ) (v : ℕ) :
    (is.foldl (countEdge file true) s).inEdgeOffsets v =
      s.inEdgeOffsets v + UInt64.ofNat (is.countP fun i => (file.edge i).dst.toNat = v) := by
  induction is generalizing s with
  | nil => exact (add_zero _).symm
  | cons i is ih =>
    rw [List.foldl_cons, ih]
    simp only [countEdge, if_true, bump_apply, List.countP_cons, decide_eq_true_eq, UInt64.ofNat_add]
    abel

theorem foldl_countEdge_asymmetric (is : List ℕ) :
    (is.foldl (countEdge file false) s).inEdgeOffsets = s.inEdgeOffsets := by
  induction is generalizing s with
  | nil => rfl
  | cons i is ih =>
    rw [List.foldl_cons, ih]
    rfl

theorem EdgeFile.countP_range (file : EdgeFile) (p : Edge → Prop) [DecidablePred p] :
    (List.range file.nbEdges).countP (fun i => p (file.edge i)) = file.edges.countP fun e => p e := by
  rw [file.countP_edges, ← Multiset.coe_range, Multiset.coe_countP]

theorem countDegree0Sequential_eq (file : EdgeFile) (symmetric : Bool) (mem : Offsets) :
    countDegree0Sequential file symmetric mem = counted file symmetric mem := by
  have hout : (countDegree0Sequential file symmetric mem).outEdgeOffsets =
      (counted file symmetric mem).outEdgeOffsets := by
    funext v
    rw [countDegree0Sequential, foldl_countEdge_out, file.countP_range fun e => e.src.toNat = v]
    rfl
  have hin : (countDegree0Sequential file symmetric mem).inEdgeOffsets =
      (counted file symmetric mem).inEdgeOffsets := by
    funext v
    cases symmetric with
    | false => rw [countDegree0Sequential, foldl_countEdge_asymmetric]; rfl
    | true =>
      rw [countDegree0Sequential, foldl_countEdge_in, file.countP_range fun e => e.dst.toNat = v]
      rfl
  exact congrArg₂ Offsets.mk hout hin

/-! ## The parallel counter -/

theorem countDegreeAtomic_eq_some {a : CountAct} {u : CountState}
    (h : countDegreeAtomic file symmetric nbNodes t a = some u) :
    a ≠ .join ∧ countDegree file symmetric nbNodes t a = some u := by
  obtain ⟨hok, hstep⟩ := provided_eq_some.mp h
  refine ⟨fun hjoin => ?_, hstep⟩
  subst hjoin
  cases hok

theorem countDegreeAtomic_pc {a : CountAct} {u : CountState}
    (h : countDegreeAtomic file symmetric nbNodes t a = some u) : u.pc = .counting := by
  obtain ⟨hne, hstep⟩ := countDegreeAtomic_eq_some h
  cases a with
  | join => exact absurd rfl hne
  | launch rs =>
    simp only [countDegree] at hstep
    split at hstep
    · cases hstep
      rfl
    · cases hstep
  | work i =>
    simp only [countDegree] at hstep
    split at hstep
    · rename_i hp
      obtain ⟨p, -, rfl⟩ := Option.map_eq_some_iff.mp hstep
      exact hp
    · cases hstep

theorem countDegreeAtomic_stuck (hn : ∀ a, countDegreeAtomic file symmetric nbNodes t a = none) :
    t.pc ≠ .start ∧ (t.pc = .counting → ∀ x ∈ t.tasks, x.todo = []) := by
  have hnone : ∀ a, a ≠ .join → countDegree file symmetric nbNodes t a = none := by
    intro a hne
    have h := hn a
    cases a with
    | join => exact absurd rfl hne
    | _ => exact h
  constructor
  · intro hp
    obtain ⟨rs, hrs⟩ := exists_split file.nbEdges
    have h := hnone (.launch rs) (by simp)
    simp only [countDegree] at h
    rw [if_pos ⟨hp, hrs⟩] at h
    cases h
  · intro hp
    have hwork := fun i => hnone (.work i) (by simp)
    simp only [countDegree, hp, if_true] at hwork
    exact through_of_stuck (P := fun x => x.todo = []) (fun _ htodo => countDegree1Atomic_isSome htodo) hwork

/-- Every schedule of `count_degree_1_atomic`, over every split of the edges, is finite and leaves the two
arrays as `count_degree_0_sequential` leaves them, whatever they held. -/
theorem countDegreeAtomic_ends (file : EdgeFile) (symmetric : Bool) (nbNodes : ℕ) (mem : Offsets) :
    Ends (countDegreeAtomic file symmetric nbNodes) (CountState.init mem) fun s =>
      (∀ t ∈ s.tasks, t.todo = []) ∧ s.offsets = countDegree0Sequential file symmetric mem := by
  refine ends_of_invariant
    (P := fun s => CountInv file symmetric nbNodes mem s ∧ (s.pc = .start ∨ s.pc = .counting))
    Nat.lt_wfRel.wf (CountState.measure file) (fun u a v hu ha => ?_) (fun u a v _ ha => ?_) (fun s hs hn => ?_)
    ⟨countInv_init, Or.inl rfl⟩
  · exact ⟨countInv_step hu.1 (countDegreeAtomic_eq_some ha).2, Or.inr (countDegreeAtomic_pc ha)⟩
  · exact countDegree_measure (countDegreeAtomic_eq_some ha).2
  · obtain ⟨hinv, hpc⟩ := hs
    obtain ⟨hne, hthrough⟩ := countDegreeAtomic_stuck hn
    have hp : s.pc = .counting := hpc.resolve_left hne
    refine ⟨hthrough hp, ?_⟩
    rw [countDegree0Sequential_eq]
    exact counted_of_todo_nil (hthrough hp) (hinv.outTotal hp) (hinv.inTotal hp) fun hsym => (hinv.inUnused hp hsym).1

end GraphBenchmark
