import GraphBenchmark.Benchmark.Renamed
import GraphBenchmark.Reorder.Program

/-! # Traversing a reordered file

The reordering program writes a file, the benchmark program loads and traverses it. What it visits is the image of what
the original records lead to, from the vertex that got the id `0`; with `-m` that is vertex `0`, and the number printed
is the one the original file gives. -/
namespace GraphBenchmark
open Interleaving Levels Words
set_option autoImplicit false

section Records
variable {records out : EdgeFile} {n : ℕ} {l : List UInt32} {mapping : ℕ → UInt32}

theorem Relabelled.renamed (h : Relabelled records out n l mapping) : Renamed records out {v | v.toNat < n} mapping where
  edges := h.edges
  endpoints := h.below
  injOn := fun _ hu _ hv heq => h.numbers.injective h.le hu hv heq

/-- Some vertex got the id `0`. -/
theorem Relabelled.exists_zero (h : Relabelled records out n l mapping) (hn₀ : 0 < n) :
    ∃ s : UInt32, s.toNat < n ∧ mapping s.toNat = 0 := by
  obtain ⟨j, hj, hm⟩ := (h.numbers.bijOn h.le).surjOn (Set.mem_Iio.mpr hn₀)
  have hj' : (UInt32.ofNat j).toNat = j := toNat_ofNat32 ((Set.mem_Iio.mp hj).trans_le h.le)
  exact ⟨UInt32.ofNat j, hj'.symm ▸ hj, by rw [hj']; exact UInt32.toNat_inj.mp hm⟩

end Records

/-- The vertex the traversal of a reordered file starts from, in the original numbering: vertex `0` with `-m`, and
without `-m` and `-a` one of the largest out-degree. -/
structure EdgeFile.IsOrigin (records : EdgeFile) (n : ℕ) (ascending maintain : Bool) (mapping : ℕ → UInt32)
    (s : UInt32) : Prop where
  mapping_eq : mapping s.toNat = 0
  lt : s.toNat < n
  kept : maintain = true → s = 0
  largest : maintain = false → ascending = false → ∀ v < n, records.outDegree v ≤ records.outDegree s.toNat

section Pipeline
variable {records out : EdgeFile} {n : ℕ} {ascending maintain : Bool} {mapping : ℕ → UInt32} {l : List UInt32}
  {s : UInt32}

theorem Relabelled.isOrigin (hrel : Relabelled records out n l mapping)
    (hsort : IsDegreeSort records n ascending maintain mapping out) (hs : s.toNat < n) (hs₀ : mapping s.toNat = 0) :
    records.IsOrigin n ascending maintain mapping s := by
  refine ⟨hs₀, hs, fun hm => ?_, fun hm ha v hv => ?_⟩
  · have hzero := hsort.zero hm
    exact hrel.numbers.injective hrel.le hs (show (0 : UInt32).toNat < n from Nat.zero_lt_of_lt hs) (hs₀.trans hzero.symm)
  · subst hm
    subst ha
    -- in the output the largest out-degree is that of `0`
    have hdegree : ∀ v : UInt32, v.toNat < n → out.outDegree (mapping v.toNat).toNat = records.outDegree v.toNat := by
      intro v hv
      obtain ⟨j, hj, rfl, hm⟩ := hrel.numbers.exists_index hrel.le hv
      rw [hm]
      exact hrel.numbers.outDegree hrel.le hrel.below hrel.edges hj
    have hv' : (UInt32.ofNat v).toNat = v := toNat_ofNat32 (hv.trans_le hrel.le)
    have hmono := hsort.monotone 0 (mapping v).toNat (Nat.zero_le _) (Nat.zero_le _)
      (hv' ▸ hrel.numbers.lt hrel.le (hv'.symm ▸ hv))
    have hsource := hdegree s hs
    have htarget := hdegree (UInt32.ofNat v) (hv'.symm ▸ hv)
    rw [hs₀] at hsource
    rw [hv'] at htarget
    rw [← hsource, ← htarget]
    exact hmono

variable {input output binary : String} {mode : Int32} {ropts : List ReorderOption} {opts : List BenchOption}
  {a : ReorderArgs} {b : BenchArgs} {m : ReorderMachine} {m' : Machine} {file out : InputFile}
  {files : String → Option InputFile} {x₀ x : ReorderState}

/-- Reordering and then traversing, from the bytes of the original file: whatever the schedules of the two programs and
the order `std::sort` returns for ties, the traversal of the written file visits the images of what the original records
lead to from one vertex, which with `-m` is vertex `0`, and prints their number. -/
theorem reordered_visits (files' : String → Option InputFile) (hropts : reorderArgs input output ropts = some a)
    (hopts : benchArgs binary mode opts = some b)
    (hb : b.nbNodes = a.nbNodes) (horder : m'.byteorder = m.byteorder) (hn : a.nbNodes.toNat < 2 ^ 32)
    (hT : 0 ≤ b.threads) (hout : b.output = none)
    (hmode : b.mode = 0 ∨ b.symmetric = true ∧ (b.mode = 1 ∨ b.mode = 2))
    (hfile : (file.edgeFile m.byteorder).EndpointsBelow a.nbNodes.toNat)
    (hdeg : ∀ v, (file.edgeFile m.byteorder).outDegree v < 2 ^ 32)
    (hfits : (file.edgeFile m.byteorder).Fits b.symmetric a.nbNodes.toNat)
    (hmem : ∀ v < a.nbNodes.toNat, m.outEdgeOffsets v = 0) (hm' : m'.Fresh a.nbNodes.toNat)
    (hstart : reorderStart a m files = some (file, x₀)) (hx : Reach (reorder a m file) x₀ x)
    (hwritten : x.written m = some out) (hfound : files' b.binary = some out) :
    ∃ y₀, benchmarkStart b m' files' = some (out, y₀) ∧
    ∃ mapping s, (file.edgeFile m.byteorder).IsOrigin a.nbNodes.toNat a.ascending a.maintain mapping s ∧
      Ends (benchmarkDistinct b m' out) y₀ fun y => (∃ s, y = .inl s ∧ s.died = true) ∨
        ∃ g h, y = .inr (g, h) ∧ h.Revisits (file.edgeFile m.byteorder) mapping s := by
  obtain ⟨hs₀, hthreads⟩ := benchArgs_pos hopts hT
  obtain rfl := reorderStart_spec hstart
  have hn₀ := reorderArgs_spec hropts
  obtain ⟨hwhole, mapping, ⟨l, hl, hnum⟩, hedges⟩ := reorder_written hn₀ hn.le hx hwritten
  have hrel : Relabelled (file.edgeFile m.byteorder) (out.edgeFile m.byteorder) a.nbNodes.toNat
      (newOrder a.maintain l) mapping := ⟨hnum, hedges, hfile, hn.le⟩
  have hsort := Relabels.isDegreeSort ⟨l, hl, hnum⟩ hn₀ hn.le hfile hdeg hmem hedges
  obtain ⟨s, hs, hms⟩ := hrel.exists_zero hn₀
  have hstart' : benchmarkStart b m' files' = some (out, .inl (.inl (ReadState.init out m'.edges))) := by
    rw [benchmarkStart, hfound, Option.bind_some, createGraphRead_of_whole hwhole]
    rfl
  have hlt : ∀ v ∈ {v : UInt32 | v.toNat < a.nbNodes.toNat}, (mapping v.toNat).toNat < b.nbNodes.toNat := fun v hv => by
    rw [hb]
    exact hnum.lt hn.le hv
  rw [← hb] at hn hm' hfits
  exact ⟨_, hstart', mapping, s, hrel.isOrigin hsort hs hms, hrel.renamed.traversed (congrArg out.edgeFile horder) hlt hs₀
    hthreads hn hout hmode hm' hfits hs hms⟩

end Pipeline

theorem reordered_visits_edge :
    ∃ x out y₀,
      Reach (reorder keptArgs zeroReorderMachine oneEdgeFile) (.inl (ReadState.init oneEdgeFile fun _ => 42)) x ∧
      x.written zeroReorderMachine = some out ∧
      benchmarkStart ⟨2, 6, true, false, "edge", 2, none⟩ zeroMachine (fun _ => some out) = some (out, y₀) ∧
      ∃ mapping s, (oneEdgeFile.edgeFile .little).IsOrigin 6 false true mapping s ∧
        Ends (benchmarkDistinct ⟨2, 6, true, false, "edge", 2, none⟩ zeroMachine out) y₀ fun y =>
          (∃ s, y = .inl s ∧ s.died = true) ∨
            ∃ g h, y = .inr (g, h) ∧ h.Revisits (oneEdgeFile.edgeFile .little) mapping s := by
  obtain ⟨x, out, hx, hwritten⟩ := exists_reorder_written keptArgs zeroReorderMachine oneEdgeFile (by decide) (by decide)
  have hstart : reorderStart keptArgs zeroReorderMachine (fun _ => some oneEdgeFile) =
      some (oneEdgeFile, .inl (ReadState.init oneEdgeFile fun _ => 42)) := rfl
  obtain ⟨y₀, hy₀, hends⟩ := reordered_visits (fun _ => some out) keptOptions_args edgeOptions_args rfl rfl (by decide)
    (by decide) rfl (Or.inr ⟨rfl, Or.inr rfl⟩) (by decide) (fun _ => List.countP_le_length.trans_lt (by decide))
    (oneEdgeFile_fits true 6 (by decide)) (fun _ _ => rfl) (zeroMachine_fresh 6) hstart hx hwritten rfl
  exact ⟨x, out, y₀, hx, hwritten, hy₀, hends⟩

end GraphBenchmark
