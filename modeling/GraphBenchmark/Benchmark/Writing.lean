import GraphBenchmark.Benchmark.Traversing
import GraphBenchmark.Foundations.Slices
import GraphBenchmark.Loader.Output

/-! # What the benchmark program writes with `-o`

The text is another format of the edge file: read back, it has the records of the file, in some order. -/
namespace GraphBenchmark
open Interleaving
set_option autoImplicit false

/-- How a run of the program ends that writes the graph. -/
inductive WrittenOut (a : BenchArgs) (records : EdgeFile) (x : BenchState) : Prop
  | died (s : LoadState) (hx : x = .inl s) (h : s.died = true)
  | aborted (s : LoadState) (hx : x = .inl s) (h : s.aborted = true) (hadm : ¬ records.Admitted a.symmetric a.nbNodes.toNat)
  | text (l : List Char) (w : WrittenGraph) (hl : x.written a = some l) (hw : readGraph l = some w)
      (hnodes : w.nbNodes = a.nbNodes.toNat) (hedges : w.nbEdges = records.nbEdges)
      (hperm : w.edgeList.Perm (records.edges.map fun e => (e.src.toNat, e.dst.toNat)))

section Writing
variable {g : Graph} {records : EdgeFile} {symmetric : Bool} {n : ℕ}

theorem Graph.Holds.slice_written (h : g.Holds records symmetric n) {i : ℕ} (hi : i < n) :
    g.written.slice i = some ((g.outSlice i).map UInt32.toNat) := by
  have hi' : i < g.nbNodes := h.out.nbNodes.symm ▸ hi
  have hcsr := h.out.csr
  have hlast : (g.outEdgeOffsets (i + 1)).toNat ≤ (g.outEdgeOffsets g.nbNodes).toNat :=
    UInt64.le_iff_toNat_le.mp (hcsr.offsets_le hi' le_rfl)
  rw [GraphBenchmark.slice_written hi' hcsr.last, if_pos]
  exact ⟨UInt64.le_iff_toNat_le.mp (hcsr.mono i hi'), hlast.trans hcsr.last.le⟩

/-- The rows of the graph, one behind the other, are the records. -/
theorem Graph.Holds.edgeList_written (h : g.Holds records symmetric n) (hsrc : ∀ e ∈ records.edges, e.src.toNat < n) :
    g.written.edgeList.Perm (records.edges.map fun e => (e.src.toNat, e.dst.toNat)) := by
  have hrow : ∀ i ∈ List.range n, ((g.written.slice i).getD []).map (fun d => (i, d)) |>.Perm
      ((records.edges.filter fun e => e.src.toNat = i).map fun e => (e.src.toNat, e.dst.toNat)) := by
    intro i hi
    have hlt := List.mem_range.mp hi
    have hperm := ((h.out.row i hlt).map UInt32.toNat).map fun d => (i, d)
    rw [h.slice_written hlt, Option.getD_some]
    refine hperm.trans (List.Perm.of_eq ?_)
    rw [EdgeFile.neighbours, List.map_map, List.map_map]
    refine List.map_congr_left fun e he => ?_
    obtain rfl : e.src.toNat = i := of_decide_eq_true (List.mem_filter.mp he).2
    rfl
  have hall : (records.edges.filter fun e => e.src.toNat ∈ List.range n) = records.edges :=
    List.filter_eq_self.mpr fun e he => decide_eq_true (List.mem_range.mpr (hsrc e he))
  have hslices : (((List.range n).flatMap fun i => records.edges.filter fun e => e.src.toNat = i).map
      fun e => (e.src.toNat, e.dst.toNat)).Perm (records.edges.map fun e => (e.src.toNat, e.dst.toNat)) := by
    have hperm : (((List.range n).flatMap fun i => records.edges.filter fun e => e.src.toNat = i)).Perm
        (records.edges.filter fun e => e.src.toNat ∈ List.range n) := Slices.perm_flatMap_filter List.nodup_range
    rw [hall] at hperm
    exact hperm.map _
  rw [List.map_flatMap] at hslices
  rw [WrittenGraph.edgeList, show g.written.nbNodes = n from h.out.nbNodes]
  exact (List.Perm.flatMap_left _ hrow).trans hslices

variable {binary : String} {mode : Int32} {opts : List BenchOption} {a : BenchArgs} {m : Machine} {file : InputFile}
  {files : String → Option InputFile} {x₀ : BenchState} {path : String}

/-- With `-o` every schedule of the program is finite, and it ends with a text that gives back the records of the file,
unless a call of `read` fails or an endpoint that is counted is no vertex. -/
theorem benchmark_writes (hout : a.output = some path) (hmem : m.offsets.Zeroed a.nbNodes.toNat)
    (hfits : (file.edgeFile m.byteorder).Fits a.symmetric a.nbNodes.toNat)
    (hstart : benchmarkStart a m files = some (file, x₀)) :
    Ends (benchmark a m file) x₀ (WrittenOut a (file.edgeFile m.byteorder)) := by
  obtain ⟨-, rfl⟩ := benchmarkStart_spec hstart
  have hne : a.output ≠ none := by
    rw [hout]
    exact Option.some_ne_none path
  have hnever : ∀ s, enterHub a m s = none := fun s => if_neg hne
  have hload := createGraph_ends hmem hfits
  refine (hload.andThen_or (R := fun _ _ => False) fun s p _ hp => ?_).mono fun x _ hx => ?_
  · rw [hnever] at hp
    cases hp
  · rcases hx with ⟨s, rfl, -, hloaded, -⟩ | ⟨_, _, _, -, -, -, -, hy⟩
    · cases hloaded with
      | died h => exact .died s rfl h
      | aborted h hadm => exact .aborted s rfl h hadm
      | graph g h hadm hg =>
        have hl : BenchState.written a (.inl s) = some g.writeToFile := by
          rw [BenchState.written, if_neg hne, h]
          rfl
        exact .text _ _ hl (readGraph_writeToFile g) hg.out.nbNodes hg.nbEdges (hg.edgeList_written hadm.1)
    · exact hy.elim

end Writing

theorem benchmark_writes_edge :
    ∃ x₀, benchmarkStart ⟨2, 6, false, false, "edge", 0, some "text"⟩ zeroMachine (fun _ => some oneEdgeFile) =
        some (oneEdgeFile, x₀) ∧
      Ends (benchmark ⟨2, 6, false, false, "edge", 0, some "text"⟩ zeroMachine oneEdgeFile) x₀
        (WrittenOut ⟨2, 6, false, false, "edge", 0, some "text"⟩ (oneEdgeFile.edgeFile .little)) := by
  have hstart : benchmarkStart ⟨2, 6, false, false, "edge", 0, some "text"⟩ zeroMachine (fun _ => some oneEdgeFile) =
      some (oneEdgeFile, .inl (.inl (ReadState.init oneEdgeFile fun _ => 42))) := rfl
  exact ⟨_, hstart, benchmark_writes rfl (fun _ _ => ⟨rfl, rfl⟩) (oneEdgeFile_fits false 6 (by decide)) hstart⟩

end GraphBenchmark
