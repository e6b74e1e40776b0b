import GraphBenchmark.Loader.Csr
import GraphBenchmark.Loader.Cursors
import GraphBenchmark.Bfs.PushBounds
import GraphBenchmark.PageRank.Push

/-! # What the assertions of the loader admit

From zeroed arrays `sum_degree` passes exactly when the ends it counts are vertices: the sources, and with
`SYMMETRIC` the destinations (`assertionsPass_iff`). The traversals index by destinations, and without
`SYMMETRIC` nobody has looked at these. -/
namespace GraphBenchmark
open Interleaving Words
set_option autoImplicit false

/-- From zeroed arrays every schedule of `count_degree` gets past the assertions of `sum_degree`. -/
def AssertionsPass (file : EdgeFile) (symmetric : Bool) (n : ℕ) : Prop :=
  ∀ mem : Offsets, mem.Zeroed n → Ends (countDegree file symmetric n) (CountState.init mem) fun s => s.pc = .done

/-- Every entry of the edge arrays that were built is a vertex, and so is every index into `visited` and `rank` in
any run of `bfs_push` and `pr_push`. -/
structure Graph.Safe (g : Graph) : Prop where
  out : ∀ x < g.nbEdges, (g.outEdges x).toNat < g.nbNodes
  inn : g.symmetric = true → ∀ x < g.nbEdges, (g.inEdges x).toNat < g.nbNodes
  visited : ∀ start threads grain mem bufferMem s, start.toNat < g.nbNodes →
    Reach (bfsPush g threads grain) (PushState.init g start mem bufferMem) s →
    ∀ t ∈ s.tasks, ∀ dst ∈ t.access, dst.toNat < g.nbNodes
  rank : ∀ iteration s, Reach (prPush g iteration) PrState.init s →
    ∀ t ∈ s.adders, ∀ dst ∈ t.access, dst.toNat < g.nbNodes

/-- The assertions tell whether all endpoints are vertices, and what gets past them is safe to traverse. -/
structure Validated (file : EdgeFile) (symmetric : Bool) (n : ℕ) : Prop where
  exact : AssertionsPass file symmetric n ↔ file.EndpointsBelow n
  safe : ∀ g, Created file symmetric n g → g.Safe

variable {file : EdgeFile} {symmetric : Bool} {n : ℕ} {mem : Offsets} {g : Graph}

/-! ## The assertions -/

theorem sumDegree_counted_isSome (hmem : mem.Zeroed n) :
    (∃ o, sumDegree symmetric n file.nbEdges (counted file symmetric mem) = some o) ↔
      (∀ e ∈ file.edges, e.src.toNat < n) ∧ (symmetric = true → ∀ e ∈ file.edges, e.dst.toNat < n) := by
  have hout := sumDegreeBlock_isSome_iff file (fun i hi => (hmem i hi).1) fun e => e.src.toNat
  have hin := sumDegreeBlock_isSome_iff file (fun i hi => (hmem i hi).2) fun e => e.dst.toNat
  rw [← hout, ← hin]
  cases symmetric with
  | false =>
    constructor
    · rintro ⟨o, ho⟩
      exact ⟨⟨_, (sumDegree_eq_some.mp ho).1⟩, nofun⟩
    · rintro ⟨⟨b, hb⟩, -⟩
      exact ⟨⟨b, mem.inEdgeOffsets⟩, sumDegree_eq_some.mpr ⟨hb, rfl⟩⟩
  | true =>
    constructor
    · rintro ⟨o, ho⟩
      obtain ⟨hb, hc⟩ := sumDegree_eq_some.mp ho
      exact ⟨⟨_, hb⟩, fun _ => ⟨_, hc⟩⟩
    · rintro ⟨⟨b, hb⟩, hc⟩
      obtain ⟨c, hc⟩ := hc rfl
      exact ⟨⟨b, c⟩, sumDegree_eq_some.mpr ⟨hb, hc⟩⟩

theorem assertionsPass_iff : AssertionsPass file symmetric n ↔
    (∀ e ∈ file.edges, e.src.toNat < n) ∧ (symmetric = true → ∀ e ∈ file.edges, e.dst.toNat < n) := by
  constructor
  · intro h
    have hzero : Offsets.Zeroed ⟨fun _ => 0, fun _ => 0⟩ n := fun _ _ => ⟨rfl, rfl⟩
    exact (sumDegree_counted_isSome hzero).mp (countDegree_ends_iff.mp (h _ hzero))
  · intro h mem hmem
    exact countDegree_ends_iff.mpr ((sumDegree_counted_isSome hmem).mpr h)

/-- A graph that was built got past the assertions. -/
theorem created_counted (h : Created file symmetric n g) :
    (∀ e ∈ file.edges, e.src.toNat < n) ∧ (symmetric = true → ∀ e ∈ file.edges, e.dst.toNat < n) := by
  obtain ⟨mem, s, -, -, -, hmem, hs, hsp, -⟩ := h
  exact (sumDegree_counted_isSome hmem).mp ⟨_, countDegree_done hs hsp⟩

/-! ## The traversals -/

/-- A task of `pr_push` looks at vertices, and every destination it holds is below `n`. -/
def AddTask.Below (size n : ℕ) (t : AddTask) : Prop := (∀ i ∈ t.indices, i < size) ∧ ∀ d ∈ t.edges, d.toNat < n

theorem AddStep.below (hg : ∀ u < g.nbNodes, ∀ d ∈ g.outSlice u, d.toNat < n) {s s' : Ranks} {t t' : AddTask}
    (h : AddStep g s t s' t') (ht : t.Below g.nbNodes n) : t'.Below g.nbNodes n := by
  obtain ⟨hindices, hedges⟩ := ht
  cases h with
  | load => exact ⟨hindices, hedges⟩
  | swap => exact ⟨hindices, fun d hd => hedges d (List.mem_cons_of_mem _ hd)⟩
  | retry => exact ⟨hindices, hedges⟩
  | @next i is => exact ⟨fun j hj => hindices j (List.mem_cons_of_mem i hj), hg i (hindices i List.mem_cons_self)⟩

/-- Every load and every swap goes to the cell of a vertex. -/
theorem prPush_access_lt {iteration : ℕ} {s : PrState} (hg : ∀ u < g.nbNodes, ∀ d ∈ g.outSlice u, d.toNat < n)
    (h : Reach (prPush g iteration) PrState.init s) : ∀ t ∈ s.adders, ∀ d ∈ t.access, d.toNat < n := by
  have hbelow : ∀ t ∈ s.adders, t.Below g.nbNodes n := by
    refine h.invariant (P := fun s => ∀ t ∈ s.adders, t.Below g.nbNodes n) (fun t ht => absurd ht List.not_mem_nil)
      fun u a v hu ha => ?_
    cases prPush_step ha with
    | launchAdd hp hlt hrs =>
      intro t ht
      obtain ⟨r, hr, rfl⟩ := List.mem_map.mp ht
      exact ⟨fun i hi => hrs.mem_iff.mp ⟨r, hr, hi⟩, fun d hd => absurd hd List.not_mem_nil⟩
    | add hp hw =>
      obtain ⟨pre, t, post, t', hts, hbody, rfl⟩ := work_eq_some hw
      rw [hts] at hu
      obtain ⟨hown, hothers⟩ := forall_mem_middle.mp hu
      exact forall_mem_middle.mpr ⟨(addBody_step hbody).below hg hown, hothers⟩
    | joinAdd hp hdone => exact fun t ht => absurd ht List.not_mem_nil
    | _ => exact hu
  intro t ht d hd
  exact (hbelow t ht).2 d (List.mem_of_mem_head? hd)

theorem Graph.Safe.of_entries (hout : g.OutWellFormed)
    (hin : g.symmetric = true → ∀ x < g.nbEdges, (g.inEdges x).toNat < g.nbNodes) : g.Safe :=
  ⟨hout.entry_lt, hin, fun _ _ _ _ _ _ hs h => bfsPush_access_lt (fun _ _ => outRead_lt hout) hs h,
    fun _ _ h => prPush_access_lt (fun _ hu _ hd => hout.entry_of_mem hu hd) h⟩

theorem Graph.Safe.of_le (h : 2 ^ 32 ≤ g.nbNodes) : g.Safe :=
  ⟨fun _ _ => (UInt32.toNat_lt _).trans_le h, fun _ _ _ => (UInt32.toNat_lt _).trans_le h,
    fun _ _ _ _ _ _ _ _ _ _ _ _ => (UInt32.toNat_lt _).trans_le h, fun _ _ _ _ _ _ _ => (UInt32.toNat_lt _).trans_le h⟩

theorem created_safe (hfile : file.EndpointsBelow n) (hout : ∀ v, file.outDegree v ≤ 2 ^ 32)
    (hin : symmetric = true → ∀ v, file.inDegree v ≤ 2 ^ 32) (h : Created file symmetric n g) : g.Safe := by
  obtain ⟨t, offsets, rfl, hexact, hexact'⟩ := created_exact hfile hout hin h
  exact .of_entries hexact.csr fun hsym => (hexact' hsym).csr.entry_lt

/-! ## A vertex with more than `2^32` edges -/

/-- What one direction of a finished run is, whatever the degrees. -/
theorem exists_created_of_mem (symmetric : Bool) (hfile : file.EndpointsBelow n) (outMem inMem : ℕ → UInt32) :
    ∃ (t : CreateState) (offsets : Offsets), Created file symmetric n (t.graph file symmetric n offsets) ∧
      LaneSafe file Edge.src outMem t.arrays.outArray (t.tasks.map CreateTask.outDrawer) ∧
      (symmetric = true → LaneSafe file Edge.dst inMem t.arrays.inArray (t.tasks.map CreateTask.inDrawer)) := by
  have hmem : Offsets.Zeroed ⟨fun _ => 0, fun _ => 0⟩ n := fun _ _ => ⟨rfl, rfl⟩
  obtain ⟨s, hs, hsp, hoff⟩ := (countDegree_zeroed symmetric hfile hmem).exists
  obtain ⟨t, ht, htp⟩ := (createEdges_completes file symmetric s.offsets outMem inMem).exists
  have hne : t.pc ≠ .start := htp.trans_ne nofun
  refine ⟨t, s.offsets, ⟨_, s, outMem, inMem, t, hmem, hs, hsp, ht, htp, rfl⟩, ?_, fun hsym => ?_⟩
  · have hoffsets : LanePrefix file n Edge.src s.offsets.outEdgeOffsets :=
      ⟨fun e he => (hfile e he).1, fun i hi => (hoff i hi).1⟩
    exact (LaneSafe.rule hoffsets Edge.dst outMem).out ht hne
  · subst hsym
    have hoffsets : LanePrefix file n Edge.dst s.offsets.inEdgeOffsets :=
      ⟨fun e he => (hfile e he).2, fun i hi => (hoff i hi).2 rfl⟩
    exact (LaneSafe.rule hoffsets Edge.src inMem).inn ht hne

/-- The slot behind the first `2^32` of a vertex is one of the array. -/
theorem unwritten_lt (key : Edge → UInt32) {v : ℕ} (hkey : ∀ e ∈ file.edges, (key e).toNat < n)
    (hv : 2 ^ 32 < file.degree key v) : Slices.start (file.degree key) v + 2 ^ 32 < file.nbEdges := by
  have hlt := vertex_of_degree hkey ((Nat.zero_le _).trans_lt hv)
  have hslot := Slices.start_add_lt hlt hv
  rwa [show Slices.start (file.degree key) n = file.nbEdges from
    start_countP_key file.edges (fun e => (key e).toNat) n hkey] at hslot

theorem degrees_of_safe (hfile : file.EndpointsBelow n) (hn : n < 2 ^ 32)
    (h : ∀ g, Created file symmetric n g → g.Safe) :
    (∀ v, file.outDegree v ≤ 2 ^ 32) ∧ (symmetric = true → ∀ v, file.inDegree v ≤ 2 ^ 32) := by
  -- the arrays hold an id that is no vertex wherever nothing is stored
  obtain ⟨t, offsets, hcreated, hout, hin⟩ := exists_created_of_mem symmetric hfile
    (fun _ => UInt32.ofNat n) fun _ => UInt32.ofNat n
  have hsafe := h _ hcreated
  constructor
  · intro v
    by_contra hv
    have hslot := hsafe.out _ (unwritten_lt Edge.src (fun e he => (hfile e he).1) (Nat.lt_of_not_le hv))
    change (t.arrays.outArray.edges _).toNat < n at hslot
    rw [hout.unwritten (Nat.lt_of_not_le hv), toNat_ofNat32 hn] at hslot
    exact absurd hslot (lt_irrefl n)
  · intro hsym v
    by_contra hv
    have hslot := hsafe.inn hsym _ (unwritten_lt Edge.dst (fun e he => (hfile e he).2) (Nat.lt_of_not_le hv))
    change (t.arrays.inArray.edges _).toNat < n at hslot
    rw [(hin hsym).unwritten (Nat.lt_of_not_le hv), toNat_ofNat32 hn] at hslot
    exact absurd hslot (lt_irrefl n)

/-! ## The condition -/

/-- A file the assertions reject is one with an endpoint that is no vertex, and no graph comes of it. -/
theorem Validated.of_rejected
    (h : ¬ ((∀ e ∈ file.edges, e.src.toNat < n) ∧ (symmetric = true → ∀ e ∈ file.edges, e.dst.toNat < n))) :
    Validated file symmetric n := by
  refine ⟨⟨fun hpass => absurd (assertionsPass_iff.mp hpass) h, fun hbelow => absurd ?_ h⟩, fun g hg => ?_⟩
  · exact ⟨fun e he => (hbelow e he).1, fun _ e he => (hbelow e he).2⟩
  · exact absurd (created_counted hg) h

end GraphBenchmark
