import GraphBenchmark.Model.Benchmark
import GraphBenchmark.Loader.Admission
import GraphBenchmark.Loader.Reading

/-! # `create_graph`, from the first call of `read` to the graph

Every schedule ends in one of three ways: a call of `read` failed, an assertion of `sum_degree` failed because an
endpoint that it counts is no vertex, or the rows of the file stand in the arrays. -/
namespace GraphBenchmark
open Bytes Interleaving
set_option autoImplicit false

/-! ## The read loop, failing calls included -/

section Reading
variable {file : InputFile} {mem : ℕ → UInt8} {s s' : ReadState} {r : ReadResult}

theorem readLoop_of_ne (hp : s.pc ≠ .loop) (r : ReadResult) : readLoop file s r = none := if_neg fun hc => hp hc.1

theorem readLoop_step (h : ReadInv file mem s) (hs : readLoop file s r = some s') :
    readLoopOk file s r = some s' ∨ s.pc = .loop ∧ s'.pc = .died := by
  cases r with
  | bytes n => exact Or.inl (provided_eq_some.mpr ⟨rfl, hs⟩)
  | error =>
    refine Or.inr ?_
    unfold readLoop at hs
    split at hs
    · rename_i hc
      obtain rfl := Option.some.inj hs
      refine ⟨hc.1, ?_⟩
      -- `-1` is no count the loop can have
      have hcount := h.count hc.1
      have hsize := file.size_lt
      have hne : (-1 : Int64).toUInt64 ≠ s.count := by
        intro heq
        have hword := congrArg UInt64.toNat heq
        rw [hcount, show (-1 : Int64).toUInt64.toNat = 2 ^ 64 - 1 from rfl] at hword
        omega
      show (ReadState.next s (-1)).pc = .died
      rw [ReadState.next, if_pos ⟨hne, by decide⟩, if_pos rfl]
    · cases hs

/-- The loop leaves by its end with the file in memory, or it dies. -/
theorem readLoop_ends (file : InputFile) (mem : ℕ → UInt8) :
    Ends (readLoop file) (ReadState.init file mem) fun s =>
      s.pc = .died ∨ s.pc = .done ∧ ∀ i < file.bytes.length, s.mem i = file.bytes.getD i 0 := by
  refine ends_of_invariant (P := fun s => s.pc = .died ∨ ReadInv file mem s) Nat.lt_wfRel.wf (ReadState.measure file)
    (fun u a v hu ha => ?_) (fun u a v hu ha => ?_) (fun u hu hn => ?_) (Or.inr (readInv_init file mem))
  · rcases hu with hp | hu
    · rw [readLoop_of_ne (hp.trans_ne nofun)] at ha
      cases ha
    · rcases readLoop_step hu ha with hok | ⟨-, hp⟩
      · exact Or.inr (hu.step hok)
      · exact Or.inl hp
  · rcases hu with hp | hu
    · rw [readLoop_of_ne (hp.trans_ne nofun)] at ha
      cases ha
    · rcases readLoop_step hu ha with hok | ⟨hloop, hp⟩
      · exact readLoopOk_measure hu hok
      · show ReadState.measure file v < ReadState.measure file u
        simp only [ReadState.measure, hloop, hp]
        omega
  · rcases hu with hp | hu
    · exact Or.inl hp
    · have hdone := readLoopOk_stuck hu fun r => by rw [readLoopOk, provided, hn, ite_self]
      refine Or.inr ⟨hdone, fun i hi => hu.filled i ?_⟩
      rw [hu.done hdone]
      exact hi

theorem createGraphRead_of_whole (hwhole : file.bytes.length % 8 = 0) :
    createGraphRead file mem = some (ReadState.init file mem) := by
  refine if_pos (UInt64.toNat_inj.mp ?_)
  rw [UInt64.toNat_mod, file.toNat_stSize]
  exact hwhole

theorem records_eq (byteorder : ByteOrder) (h : ∀ i < file.bytes.length, s.mem i = file.bytes.getD i 0) :
    s.records file byteorder = file.edgeFile byteorder := by
  have hedges : (s.records file byteorder).edges = (file.edgeFile byteorder).edges := by
    refine List.map_congr_left fun i hi => ?_
    rw [edgeAt_of_filled byteorder (List.mem_range.mp hi) h, edgeFile_edge byteorder (List.mem_range.mp hi)]
  cases hs : s.records file byteorder
  cases hf : file.edgeFile byteorder
  rw [hs, hf] at hedges
  congr

end Reading

/-! ## The graph of a file -/

/-- The records get past the assertions of `sum_degree`. -/
def EdgeFile.Admitted (records : EdgeFile) (symmetric : Bool) (n : ℕ) : Prop :=
  (∀ e ∈ records.edges, e.src.toNat < n) ∧ (symmetric = true → ∀ e ∈ records.edges, e.dst.toNat < n)

/-- `g` holds the rows of the records, with `SYMMETRIC` in both directions. -/
structure Graph.Holds (g : Graph) (records : EdgeFile) (symmetric : Bool) (n : ℕ) : Prop where
  out : g.OutOf records n
  nbEdges : g.nbEdges = records.nbEdges
  inn : symmetric = true → g.InWellFormed
  inRow : symmetric = true → ∀ v < n, (g.inSlice v).Perm (records.neighbours Edge.dst Edge.src v)

/-- The degrees a cursor of `create_edges` can count, and the destinations nobody checks without `SYMMETRIC`. -/
structure EdgeFile.Fits (records : EdgeFile) (symmetric : Bool) (n : ℕ) : Prop where
  outDegree : ∀ v, records.outDegree v ≤ 2 ^ 32
  inDegree : symmetric = true → ∀ v, records.inDegree v ≤ 2 ^ 32
  dst : symmetric = false → ∀ e ∈ records.edges, e.dst.toNat < n

section Loading
variable {file : InputFile} {records : EdgeFile} {symmetric : Bool} {n : ℕ} {m : Machine} {g : Graph}

theorem EdgeFile.Admitted.endpointsBelow (h : records.Admitted symmetric n) (hfits : records.Fits symmetric n) :
    records.EndpointsBelow n := by
  intro e he
  refine ⟨h.1 e he, ?_⟩
  cases symmetric with
  | false => exact hfits.dst rfl e he
  | true => exact h.2 rfl e he

theorem Graph.Holds.transposed (h : g.Holds records true n) : g.Transposed := by
  intro u v hu hv
  rw [h.out.nbNodes] at hu hv
  rw [(h.out.row _ hu).mem_iff, (h.inRow rfl _ hv).mem_iff, ← List.count_pos_iff, ← List.count_pos_iff,
    records.count_destinations, records.count_sources]

/-- `count_degree`: the assertions fail on records with an endpoint that is no vertex, and on no others. -/
theorem countDegree_ends_or (hmem : m.offsets.Zeroed n) (hfits : records.Fits symmetric n) :
    Ends (countDegree records symmetric n) (CountState.init m.offsets) fun s =>
      (s.pc = .aborted ∧ ¬ records.Admitted symmetric n) ∨
        (s.pc = .done ∧ records.Admitted symmetric n ∧ OffsetsOk records symmetric n s.offsets) := by
  by_cases hadm : records.Admitted symmetric n
  · refine (offsetsOk_of_zeroed (hadm.endpointsBelow hfits) hfits.outDegree hfits.inDegree hmem).mono ?_
    exact fun s _ ⟨hp, hok⟩ => Or.inr ⟨hp, hadm, hok⟩
  · refine (countDegree_ends records symmetric n m.offsets).mono fun s _ hs => ?_
    rcases hs with ⟨-, hsum⟩ | ⟨hp, -⟩
    · exact absurd ((sumDegree_counted_isSome hmem).mp ⟨_, hsum⟩) hadm
    · exact Or.inl ⟨hp, hadm⟩

theorem createEdges_holds {offsets : Offsets} (hfile : records.EndpointsBelow n)
    (hok : OffsetsOk records symmetric n offsets) :
    Ends (createEdges records symmetric offsets) (CreateState.init m.outEdges m.inEdges) fun t =>
      t.pc = .done ∧ (t.graph records symmetric n offsets).Holds records symmetric n := by
  refine (createEdges_ends hfile hok).mono fun t _ ⟨hp, hout, hin⟩ => ⟨hp, ⟨rfl, hout.csr, hout.row⟩, rfl, ?_, ?_⟩
  · exact fun hsym => (hin hsym).csr
  · exact fun hsym => (hin hsym).row

/-- How `create_graph` ends. -/
inductive Loaded (records : EdgeFile) (symmetric : Bool) (n : ℕ) (x : LoadState) : Prop
  | died (h : x.died = true)
  | aborted (h : x.aborted = true) (hadm : ¬ records.Admitted symmetric n)
  | graph (g : Graph) (h : x.graph symmetric n = some g) (hadm : records.Admitted symmetric n)
      (hg : g.Holds records symmetric n)

/-- The two parallel stages, from the records on. -/
theorem countCreate_ends (hmem : m.offsets.Zeroed n) (hfits : records.Fits symmetric n) :
    Ends (andThen (indexed fun records => countDegree records symmetric n) (enterCreate m)
        (indexed fun p => createEdges p.1 symmetric p.2)) (.inl (records, CountState.init m.offsets))
      fun y => Loaded records symmetric n (.inr y) := by
  have hcount : Ends (indexed fun records => countDegree records symmetric n) (records, CountState.init m.offsets)
      fun p => p.1 = records ∧ ((p.2.pc = .aborted ∧ ¬ records.Admitted symmetric n) ∨
        (p.2.pc = .done ∧ records.Admitted symmetric n ∧ OffsetsOk records symmetric n p.2.offsets)) :=
    (countDegree_ends_or hmem hfits).indexed (fun records => countDegree records symmetric n) records
  have hcreate : ∀ p q, Reach (indexed fun records => countDegree records symmetric n)
      (records, CountState.init m.offsets) p → enterCreate m p = some q →
      Ends (indexed fun p => createEdges p.1 symmetric p.2) q fun y => Loaded records symmetric n (.inr (.inr y)) := by
    intro p q hp hq
    unfold enterCreate at hq
    split at hq
    · rename_i hdone
      obtain rfl := Option.some.inj hq
      obtain ⟨s, rfl, -⟩ := reach_indexed_iff.mp hp
      have hstuck : ∀ a, indexed (fun records => countDegree records symmetric n) (records, s) a = none := fun a =>
        Option.map_eq_none_iff.mpr (countDegree_of_done hdone a)
      obtain ⟨-, ⟨hp, -⟩ | ⟨-, hadm, hok⟩⟩ := hcount.2 _ hp hstuck
      · exact absurd (hdone.symm.trans hp) nofun
      · have hends : Ends (indexed fun p => createEdges p.1 symmetric p.2)
            ((records, s.offsets), CreateState.init m.outEdges m.inEdges) fun y =>
            y.1 = (records, s.offsets) ∧
              (y.2.pc = .done ∧ (y.2.graph records symmetric n s.offsets).Holds records symmetric n) :=
          (createEdges_holds (hadm.endpointsBelow hfits) hok).indexed
            (fun p : EdgeFile × Offsets => createEdges p.1 symmetric p.2) (records, s.offsets)
        refine hends.mono fun y _ ⟨hy, htp, hg⟩ => ?_
        obtain ⟨_, t⟩ := y
        obtain rfl := hy
        exact .graph _ (if_pos htp) hadm hg
    · cases hq
  refine (hcount.andThen_or hcreate).mono fun y _ hy => ?_
  rcases hy with ⟨p, rfl, -, ⟨-, ⟨hp, hadm⟩ | ⟨hp, -⟩⟩, hnone⟩ | ⟨p, q, y, rfl, -, -, -, hloaded⟩
  · exact .aborted (decide_eq_true hp) hadm
  · rw [enterCreate, if_pos hp] at hnone
    cases hnone
  · exact hloaded

/-- Every schedule of `create_graph` is finite, and ends with the graph of the records if they are admitted and no
call of `read` has failed. -/
theorem createGraph_ends (hmem : m.offsets.Zeroed n) (hfits : (file.edgeFile m.byteorder).Fits symmetric n) :
    Ends (createGraph file symmetric n m) (.inl (ReadState.init file m.edges))
      (Loaded (file.edgeFile m.byteorder) symmetric n) := by
  have hread := readLoop_ends file m.edges
  have hsecond : ∀ s y, Reach (readLoop file) (ReadState.init file m.edges) s →
      (enterCount file m s).map Sum.inl = some y →
      Ends (andThen (indexed fun records => countDegree records symmetric n) (enterCreate m)
        (indexed fun p => createEdges p.1 symmetric p.2)) y
        fun y => Loaded (file.edgeFile m.byteorder) symmetric n (.inr y) := by
    intro s y hs hy
    obtain ⟨p, hp, rfl⟩ := Option.map_eq_some_iff.mp hy
    unfold enterCount at hp
    split at hp
    · rename_i hdone
      obtain rfl := Option.some.inj hp
      rcases hread.2 s hs (readLoop_of_ne (hdone.trans_ne nofun)) with hdied | ⟨-, hfilled⟩
      · exact absurd (hdone.symm.trans hdied) nofun
      · rw [records_eq m.byteorder hfilled]
        exact countCreate_ends hmem hfits
    · cases hp
  refine (hread.andThen_or hsecond).mono fun x _ hx => ?_
  rcases hx with ⟨s, rfl, -, hp | ⟨hp, -⟩, hnone⟩ | ⟨s, y, x, rfl, -, -, -, hloaded⟩
  · exact .died (decide_eq_true hp)
  · rw [enterCount, if_pos hp] at hnone
    cases hnone
  · exact hloaded

theorem LoadState.graph_eq {s : LoadState} (h : s.graph symmetric n = some g) :
    ∃ records offsets t, s = .inr (.inr ((records, offsets), t)) ∧ t.pc = .done ∧
      g = t.graph records symmetric n offsets := by
  unfold LoadState.graph at h
  split at h
  · rename_i records offsets t
    split at h
    · exact ⟨records, offsets, t, rfl, ‹_›, (Option.some.inj h).symm⟩
    · cases h
  · cases h

theorem createGraph_of_graph {s : LoadState} (h : s.graph symmetric n = some g) (a : LoadAct) :
    createGraph file symmetric n m s a = none := by
  obtain ⟨records, offsets, t, rfl, hp, -⟩ := LoadState.graph_eq h
  rcases a with a | _ | (a | _ | a)
  · rfl
  · rfl
  · rfl
  · rfl
  · show (((createEdges records symmetric offsets t a).map _).map Sum.inr).map Sum.inr = none
    rw [createEdges_of_done hp]
    rfl

/-- A graph that `create_graph` returns holds the records. -/
theorem createGraph_holds (hmem : m.offsets.Zeroed n) (hfits : (file.edgeFile m.byteorder).Fits symmetric n)
    {s : LoadState} (hs : Reach (createGraph file symmetric n m) (.inl (ReadState.init file m.edges)) s)
    (hg : s.graph symmetric n = some g) :
    (file.edgeFile m.byteorder).Admitted symmetric n ∧ g.Holds (file.edgeFile m.byteorder) symmetric n := by
  obtain ⟨records, offsets, t, hst, -, -⟩ := LoadState.graph_eq hg
  cases (createGraph_ends hmem hfits).2 s hs (createGraph_of_graph hg) with
  | died h =>
    rw [hst] at h
    cases h
  | aborted h =>
    rw [hst] at h
    cases h
  | graph g' h hadm hholds =>
    rw [hg] at h
    obtain rfl := Option.some.inj h
    exact ⟨hadm, hholds⟩

end Loading

end GraphBenchmark
