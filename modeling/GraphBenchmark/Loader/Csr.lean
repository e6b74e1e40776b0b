import GraphBenchmark.Loader.Edges

/-! # The graph `create_graph` returns

`count_degree` on zeroed arrays and `create_edges` after it, in any schedule, build the compressed rows of
the edge file in both directions. -/
namespace GraphBenchmark
open Interleaving Words
set_option autoImplicit false

/-- Both CSRs of `g` are well formed and hold, row by row, the edges of the file. -/
structure Graph.IsCsrOf (g : Graph) (file : EdgeFile) : Prop where
  out : g.OutWellFormed
  inn : g.InWellFormed
  outRow : ∀ v < g.nbNodes, (g.outSlice v).Perm (file.neighbours Edge.src Edge.dst v)
  inRow : ∀ v < g.nbNodes, (g.inSlice v).Perm (file.neighbours Edge.dst Edge.src v)

variable {file : EdgeFile} {symmetric : Bool} {n : ℕ} {offsets mem : Offsets} {outMem inMem : ℕ → UInt32}

theorem EdgeFile.count_destinations (file : EdgeFile) (u v : UInt32) :
    (file.neighbours Edge.src Edge.dst u.toNat).count v = file.edges.count ⟨u, v⟩ := by
  rw [neighbours, List.count, List.countP_map, List.countP_filter, List.count]
  refine List.countP_congr fun e _ => ?_
  obtain ⟨s, d⟩ := e
  simp [UInt32.toNat_inj, and_comm]

theorem EdgeFile.count_sources (file : EdgeFile) (u v : UInt32) :
    (file.neighbours Edge.dst Edge.src v.toNat).count u = file.edges.count ⟨u, v⟩ := by
  rw [neighbours, List.count, List.countP_map, List.countP_filter, List.count]
  refine List.countP_congr fun e _ => ?_
  obtain ⟨s, d⟩ := e
  simp [UInt32.toNat_inj]

theorem offsetsOk_of_zeroed (hfile : file.EndpointsBelow n) (hout : ∀ v, file.outDegree v ≤ 2 ^ 32)
    (hin : symmetric = true → ∀ v, file.inDegree v ≤ 2 ^ 32) (hmem : mem.Zeroed n) :
    Ends (countDegree file symmetric n) (CountState.init mem) fun s =>
      s.pc = .done ∧ OffsetsOk file symmetric n s.offsets := by
  refine (countDegree_zeroed symmetric hfile hmem).mono fun s _ ⟨hp, ho⟩ => ⟨hp, ?_, fun hsym => ?_⟩
  · exact ⟨fun e he => (hfile e he).1, hout, fun i hi => (ho i hi).1⟩
  · exact ⟨fun e he => (hfile e he).2, hin hsym, fun i hi => (ho i hi).2 hsym⟩

theorem Graph.IsCsrOf.count {g : Graph} (h : g.IsCsrOf file) {u v : UInt32} (hu : u.toNat < g.nbNodes)
    (hv : v.toNat < g.nbNodes) :
    (g.outSlice u.toNat).count v = file.edges.count ⟨u, v⟩ ∧ (g.inSlice v.toNat).count u = file.edges.count ⟨u, v⟩ := by
  rw [(h.outRow _ hu).count_eq, (h.inRow _ hv).count_eq]
  exact ⟨file.count_destinations u v, file.count_sources u v⟩

/-- Loading a symmetric graph: every schedule of `count_degree` completes with rising offsets, every
schedule of `create_edges` after it completes, no store on the way leaves its slice or hits a slot twice,
and in the end both CSRs are exact and transposes of each other. -/
theorem createGraph_exact (hfile : file.EndpointsBelow n) (hout : ∀ v, file.outDegree v ≤ 2 ^ 32)
    (hin : ∀ v, file.inDegree v ≤ 2 ^ 32) (hmem : mem.Zeroed n) (outMem inMem : ℕ → UInt32) :
    Ends (countDegree file true n) (CountState.init mem) fun s => s.pc = .done ∧
      (∀ t, Reach (createEdges file true s.offsets) (CreateState.init outMem inMem) t →
        t.arrays.outArray.InSlices file Edge.src s.offsets.outEdgeOffsets ∧
        t.arrays.inArray.InSlices file Edge.dst s.offsets.inEdgeOffsets) ∧
      Ends (createEdges file true s.offsets) (CreateState.init outMem inMem) fun t => t.pc = .done ∧
        (t.arrays.outArray.stores.map Prod.snd).Perm (List.range file.nbEdges) ∧
        (t.arrays.inArray.stores.map Prod.snd).Perm (List.range file.nbEdges) ∧
        (t.graph file true n s.offsets).IsCsrOf file ∧
        ∀ u v : UInt32, u.toNat < n → v.toNat < n →
          ((t.graph file true n s.offsets).outSlice u.toNat).count v = file.edges.count ⟨u, v⟩ ∧
          ((t.graph file true n s.offsets).inSlice v.toNat).count u = file.edges.count ⟨u, v⟩ := by
  refine (offsetsOk_of_zeroed hfile hout (fun _ => hin) hmem).mono fun s _ ⟨hp, hok⟩ => ⟨hp, fun t ht => ?_, ?_⟩
  · obtain ⟨ho, hi⟩ := createEdges_inSlices hok ht
    exact ⟨ho, hi rfl⟩
  · refine (createEdges_ends hfile hok).mono fun t _ ⟨htp, ho, hi⟩ => ?_
    have hcsr : (t.graph file true n s.offsets).IsCsrOf file := ⟨ho.csr, (hi rfl).csr, ho.row, (hi rfl).row⟩
    exact ⟨htp, ho.stores, (hi rfl).stores, hcsr, fun u v hu hv => hcsr.count hu hv⟩

/-! ## Any run of the loader -/

/-- `g` is what some run of the loader makes of the file, with zeroed offset arrays. -/
def Created (file : EdgeFile) (symmetric : Bool) (n : ℕ) (g : Graph) : Prop :=
  ∃ mem s outMem inMem t, mem.Zeroed n ∧ Reach (countDegree file symmetric n) (CountState.init mem) s ∧ s.pc = .done ∧
    Reach (createEdges file symmetric s.offsets) (CreateState.init outMem inMem) t ∧ t.pc = .done ∧
    g = t.graph file symmetric n s.offsets

/-- The out-CSR holds, row by row, the edges of the file. -/
structure Graph.OutOf (g : Graph) (file : EdgeFile) (n : ℕ) : Prop where
  nbNodes : g.nbNodes = n
  csr : g.OutWellFormed
  row : ∀ v < n, (g.outSlice v).Perm (file.neighbours Edge.src Edge.dst v)

theorem countDegree_of_done {s : CountState} (hp : s.pc = .done) (a : CountAct) : countDegree file symmetric n s a = none := by
  cases a <;> simp [countDegree, hp]

theorem createEdges_of_done {t : CreateState} (hp : t.pc = .done) (a : CreateAct) :
    createEdges file symmetric offsets t a = none := by
  cases a <;> simp [createEdges, hp]

theorem created_exact {g : Graph} (hfile : file.EndpointsBelow n) (hout : ∀ v, file.outDegree v ≤ 2 ^ 32)
    (hin : symmetric = true → ∀ v, file.inDegree v ≤ 2 ^ 32) (h : Created file symmetric n g) :
    ∃ (t : CreateState) (offsets : Offsets), g = t.graph file symmetric n offsets ∧
      t.arrays.outArray.Exact file n Edge.src Edge.dst offsets.outEdgeOffsets ∧
      (symmetric = true → t.arrays.inArray.Exact file n Edge.dst Edge.src offsets.inEdgeOffsets) := by
  obtain ⟨mem, s, outMem, inMem, t, hmem, hs, hsp, ht, htp, rfl⟩ := h
  obtain ⟨-, hok⟩ := (offsetsOk_of_zeroed hfile hout hin hmem).2 s hs (countDegree_of_done hsp)
  obtain ⟨-, hexact⟩ := (createEdges_ends hfile hok).2 t ht (createEdges_of_done htp)
  exact ⟨t, s.offsets, rfl, hexact⟩

theorem created_outOf {g : Graph} (hfile : file.EndpointsBelow n) (hout : ∀ v, file.outDegree v ≤ 2 ^ 32)
    (hin : symmetric = true → ∀ v, file.inDegree v ≤ 2 ^ 32) (h : Created file symmetric n g) : g.OutOf file n := by
  obtain ⟨t, offsets, rfl, hexact, -⟩ := created_exact hfile hout hin h
  exact ⟨rfl, hexact.csr, hexact.row⟩

theorem exists_created (hfile : file.EndpointsBelow n) (hout : ∀ v, file.outDegree v ≤ 2 ^ 32)
    (hin : symmetric = true → ∀ v, file.inDegree v ≤ 2 ^ 32) : ∃ g, Created file symmetric n g := by
  have hmem : Offsets.Zeroed ⟨fun _ => 0, fun _ => 0⟩ n := fun _ _ => ⟨rfl, rfl⟩
  obtain ⟨s, hs, hsp, hok⟩ := (offsetsOk_of_zeroed hfile hout hin hmem).exists
  obtain ⟨t, ht, htp, -⟩ := Ends.exists (createEdges_ends hfile hok) (s := CreateState.init (fun _ => 0) fun _ => 0)
  exact ⟨_, _, s, _, _, t, hmem, hs, hsp, ht, htp, rfl⟩

def parallelFile : EdgeFile := ⟨[⟨0, 1⟩, ⟨1, 1⟩, ⟨0, 1⟩], by decide⟩

theorem createGraph_exact_parallel :
    Ends (countDegree parallelFile true 2) (CountState.init ⟨fun _ => 0, fun _ => 0⟩) fun s => s.pc = .done ∧
      Ends (createEdges parallelFile true s.offsets) (CreateState.init (fun _ => 7) fun _ => 7) fun t =>
        ((t.graph parallelFile true 2 s.offsets).outSlice 0).count 1 = 2 := by
  have hdegree : ∀ key : Edge → UInt32, ∀ v, parallelFile.degree key v ≤ 2 ^ 32 := fun key v =>
    List.countP_le_length.trans (by decide)
  refine (createGraph_exact (by decide) (hdegree Edge.src) (hdegree Edge.dst) (fun _ _ => ⟨rfl, rfl⟩)
    (fun _ => 7) fun _ => 7).mono fun s _ hs => ⟨hs.1, hs.2.2.mono fun t _ ht => ?_⟩
  exact (ht.2.2.2.2 0 1 (by decide) (by decide)).1

end GraphBenchmark
