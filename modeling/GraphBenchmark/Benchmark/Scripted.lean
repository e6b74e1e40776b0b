import GraphBenchmark.Benchmark.Renamed
import GraphBenchmark.Degree.Agreement

/-! # Traversing a file of `degree.py`

The script writes a file, the benchmark program loads and traverses it. The vertex the traversal starts from is the
one that got the id `0`: vertex `0` with `-m`, and without `-m` and `-a` one of the largest degree. -/
namespace GraphBenchmark
open Bytes Interleaving Words
set_option autoImplicit false

/-- The new ids, as numbers of the output file. -/
def DegreeResult.ids (r : DegreeResult) (v : ℕ) : UInt32 := UInt32.ofNat ((r.mapping v).getD 0)

/-- The endpoints of the records. -/
def EdgeFile.vertices (records : EdgeFile) : Set UInt32 := {v | ∃ e ∈ records.edges, e.src = v ∨ e.dst = v}

/-- The vertex the traversal of a file of the script starts from, in the original numbering. -/
structure EdgeFile.IsFirst (records : EdgeFile) (args : DegreeArgs) (ids : ℕ → UInt32) (s : UInt32) : Prop where
  occurs : s ∈ records.vertices
  id_eq : ids s.toNat = 0
  kept : args.maintain = true → s = 0
  largest : args.maintain = false → args.ascending = false →
    ∀ v, records.keyDegree args v ≤ records.keyDegree args s.toNat

section Records
variable {file out : InputFile} {args : DegreeArgs} {byteorder : ByteOrder} {v : UInt32} {r : DegreeResult}

theorem mem_vertices_iff (byteorder : ByteOrder) (hwhole : file.bytes.length % 8 = 0) (v : UInt32) :
    v ∈ (file.edgeFile byteorder).vertices ↔ v.toNat ∈ endpoints (readRecords byteorder file.bytes) := by
  rw [endpoints, readRecords_eq_map byteorder hwhole, List.map_map, List.map_map, List.mem_append, List.mem_map,
    List.mem_map]
  constructor
  · rintro ⟨e, he, rfl | rfl⟩
    · exact Or.inl ⟨e, he, rfl⟩
    · exact Or.inr ⟨e, he, rfl⟩
  · rintro (⟨e, he, heq⟩ | ⟨e, he, heq⟩)
    · exact ⟨e, he, Or.inl (UInt32.toNat_inj.mp heq)⟩
    · exact ⟨e, he, Or.inr (UInt32.toNat_inj.mp heq)⟩

theorem degreePy_mapping (h : degreePy byteorder args file.bytes = .ok r) :
    r.mapping = (numberEdges args (readRecords byteorder file.bytes)).mapping := by
  rw [degreePy_eq rfl (not_outOfIds_of_ok h).1] at h
  split at h
  · rw [← Except.ok.inj h]
  · cases h

/-- The ids of the endpoints fit in the output. -/
theorem mapping_eq_ids (h : degreePy byteorder args file.bytes = .ok r)
    (hv : v.toNat ∈ endpoints (readRecords byteorder file.bytes)) : r.mapping v.toNat = some (r.ids v.toNat).toNat := by
  obtain ⟨l, hfinal⟩ := numberEdges_final args (readRecords byteorder file.bytes)
  have hmapping := hfinal.mapping_eq_getD hv
  have hlt := hfinal.id_lt endpoints_lt (not_outOfIds_of_ok h).2 hmapping hv
  rw [DegreeResult.ids, degreePy_mapping h, toNat_ofNat32 hlt]
  exact hmapping

theorem ids_lt {n : ℕ} (h : degreePy byteorder args file.bytes = .ok r)
    (hbelow : ∀ v ∈ endpoints (readRecords byteorder file.bytes), v < n)
    (hids : ¬ OutOfIds n args (readRecords byteorder file.bytes))
    (hv : v.toNat ∈ endpoints (readRecords byteorder file.bytes)) : (r.ids v.toNat).toNat < n := by
  obtain ⟨l, hfinal⟩ := numberEdges_final args (readRecords byteorder file.bytes)
  exact hfinal.id_lt hbelow hids (degreePy_mapping h ▸ mapping_eq_ids h hv) hv

/-- The script gives the records new names. -/
theorem degreePy_renames (h : degreePy byteorder args file.bytes = .ok r) (hwhole : file.bytes.length % 8 = 0)
    (hout : out.bytes = r.output) :
    Renamed (file.edgeFile byteorder) (out.edgeFile byteorder) (file.edgeFile byteorder).vertices r.ids := by
  obtain ⟨l, hfinal⟩ := numberEdges_final args (readRecords byteorder file.bytes)
  obtain ⟨houtWhole, hread⟩ := degreePy_output h
  rw [← hout] at houtWhole hread
  refine ⟨?_, fun e he => ⟨⟨e, he, Or.inl rfl⟩, e, he, Or.inr rfl⟩, fun u hu v hv heq => ?_⟩
  · have hpairs : (out.edgeFile byteorder).edges.map (fun e => (e.src.toNat, e.dst.toNat)) =
        ((file.edgeFile byteorder).edges.map (Edge.relabel r.ids)).map fun e => (e.src.toNat, e.dst.toNat) := by
      rw [← readRecords_eq_map byteorder houtWhole, hread, newRecords, readRecords_eq_map byteorder hwhole, List.map_map,
        List.map_map]
      refine List.map_congr_left fun e he => ?_
      have hid : ∀ v : UInt32, v ∈ (file.edgeFile byteorder).vertices →
          ((numberEdges args (readRecords byteorder file.bytes)).mapping v.toNat).getD 0 = (r.ids v.toNat).toNat := by
        intro v hv
        rw [← degreePy_mapping h, mapping_eq_ids h ((mem_vertices_iff byteorder hwhole v).mp hv)]
        rfl
      rw [Function.comp_apply, Function.comp_apply, ← readRecords_eq_map byteorder hwhole, hid _ ⟨e, he, Or.inl rfl⟩,
        hid _ ⟨e, he, Or.inr rfl⟩]
      rfl
    refine List.map_injective_iff.mpr (fun e e' heq => ?_) hpairs
    obtain ⟨hsrc, hdst⟩ := Prod.mk.inj heq
    cases e
    cases e'
    exact (Edge.mk.injEq _ _ _ _).mpr ⟨UInt32.toNat_inj.mp hsrc, UInt32.toNat_inj.mp hdst⟩
  · have hu' := (mem_vertices_iff byteorder hwhole u).mp hu
    have hv' := (mem_vertices_iff byteorder hwhole v).mp hv
    have hsame : r.mapping u.toNat = r.mapping v.toNat := by
      rw [mapping_eq_ids h hu', mapping_eq_ids h hv']
      exact congrArg (fun w : UInt32 => some w.toNat) heq
    rw [degreePy_mapping h] at hsame
    exact UInt32.toNat_inj.mp (hfinal.injective hu' hsame)

/-- Some endpoint gets the id `0`. -/
theorem exists_first (h : degreePy byteorder args file.bytes = .ok r) (hwhole : file.bytes.length % 8 = 0)
    (hzero : args.maintain = true → 0 ∈ (readRecords byteorder file.bytes).map (keyOf args)) :
    ∃ s, (file.edgeFile byteorder).IsFirst args r.ids s := by
  obtain ⟨l, hfinal⟩ := numberEdges_final args (readRecords byteorder file.bytes)
  have hmapping := degreePy_mapping h
  have hexists : ∃ v ∈ endpoints (readRecords byteorder file.bytes),
      r.mapping v = some 0 ∧ (args.maintain = true → v = 0) := by
    rw [hmapping]
    cases hm : args.maintain with
    | false =>
      have hne : endpoints (readRecords byteorder file.bytes) ≠ [] := fun hnil => by
        rw [endpoints, List.append_eq_nil_iff, List.map_eq_nil_iff, readRecords_eq_nil_iff] at hnil
        exact (not_outOfIds_of_ok h).1 hnil.1
      have hpos : 0 < (endpoints (readRecords byteorder file.bytes)).dedup.length :=
        List.length_pos_iff.mpr fun hnil => hne ((List.dedup_eq_nil _).mp hnil)
      obtain ⟨v, hv, hid⟩ := (hfinal.compact hm 0).mpr hpos
      exact ⟨v, hv, hid, fun hc => absurd hc Bool.false_ne_true⟩
    | true =>
      have hkey := hzero hm
      refine ⟨0, key_mem_endpoints hkey, ?_, fun _ => rfl⟩
      rw [hfinal.issued.mapping 0, if_pos ⟨hfinal.keep_iff.mpr ⟨hm, hkey⟩, rfl⟩]
  obtain ⟨v, hv, hid, hkept⟩ := hexists
  have hv' : (UInt32.ofNat v).toNat = v := toNat_ofNat32 (endpoints_lt v hv)
  refine ⟨UInt32.ofNat v, ?_, ?_, fun hm => by rw [hkept hm]; rfl, fun hm ha u => ?_⟩
  · rw [mem_vertices_iff byteorder hwhole, hv']
    exact hv
  · rw [DegreeResult.ids, hv', hid]
    rfl
  · rw [keyDegree_eq_degreeOf byteorder hwhole, keyDegree_eq_degreeOf byteorder hwhole, hv']
    by_contra hlt
    have hdegree := not_le.mp hlt
    have hu : u ∈ endpoints (readRecords byteorder file.bytes) :=
      key_mem_endpoints (degreeOf_pos.mp ((Nat.zero_le _).trans_lt hdegree))
    have hnot : ∀ w, ¬ (args.maintain = true ∧ w = 0) := fun w hc => by simp [hm] at hc
    -- a vertex of larger degree would have a lower id
    obtain ⟨i, j, -, hj, hij⟩ := ordersByDegree_of_descending ha u v ⟨hu, hnot u⟩ ⟨hv, hnot v⟩ hdegree
    rw [← hmapping, hid] at hj
    rw [ha, if_neg Bool.false_ne_true, ← Option.some.inj hj] at hij
    exact Nat.not_lt_zero i hij

end Records

section Pipeline
variable {binary : String} {mode : Int32} {opts : List BenchOption} {args : DegreeArgs} {b : BenchArgs} {m : Machine}
  {file out : InputFile} {r : DegreeResult} {files : String → Option InputFile}

/-- Running the script and then traversing, from the bytes of the original file and with any of the script's options:
the traversal of the written file visits the images of what the original records lead to from one vertex. -/
theorem degreePy_visits (hr : degreePy m.byteorder args file.bytes = .ok r) (hwhole : file.bytes.length % 8 = 0)
    (hwritten : out.bytes = r.output) (hopts : benchArgs binary mode opts = some b) (hn : b.nbNodes.toNat < 2 ^ 32)
    (hT : 0 ≤ b.threads) (hout : b.output = none) (hmode : b.mode = 0 ∨ b.symmetric = true ∧ (b.mode = 1 ∨ b.mode = 2))
    (hfile : (file.edgeFile m.byteorder).EndpointsBelow b.nbNodes.toNat)
    (hzero : args.maintain = true → 0 < (file.edgeFile m.byteorder).keyDegree args 0)
    (hfits : (file.edgeFile m.byteorder).Fits b.symmetric b.nbNodes.toNat) (hm : m.Fresh b.nbNodes.toNat)
    (hfound : files b.binary = some out) :
    ∃ y₀, benchmarkStart b m files = some (out, y₀) ∧ ∃ s, (file.edgeFile m.byteorder).IsFirst args r.ids s ∧
      Ends (benchmarkDistinct b m out) y₀ fun y => (∃ s, y = .inl s ∧ s.died = true) ∨
        ∃ g h, y = .inr (g, h) ∧ h.Revisits (file.edgeFile m.byteorder) r.ids s := by
  obtain ⟨hs₀, hthreads⟩ := benchArgs_pos hopts hT
  have hkeyed : args.maintain = true → 0 ∈ (readRecords m.byteorder file.bytes).map (keyOf args) := fun hmaintain => by
    have hpos := hzero hmaintain
    rw [keyDegree_eq_degreeOf m.byteorder hwhole] at hpos
    exact degreeOf_pos.mp hpos
  obtain ⟨s, hs⟩ := exists_first hr hwhole hkeyed
  have hrenamed := degreePy_renames hr hwhole hwritten
  have hbelow : ∀ v ∈ endpoints (readRecords m.byteorder file.bytes), v < b.nbNodes.toNat := by
    intro v hv
    have hv' : (UInt32.ofNat v).toNat = v := toNat_ofNat32 (endpoints_lt v hv)
    obtain ⟨e, he, heq | heq⟩ := (mem_vertices_iff m.byteorder hwhole (UInt32.ofNat v)).mpr (hv'.symm ▸ hv)
    · rw [← hv', ← heq]
      exact (hfile e he).1
    · rw [← hv', ← heq]
      exact (hfile e he).2
  have hids : ∀ v ∈ (file.edgeFile m.byteorder).vertices, (r.ids v.toNat).toNat < b.nbNodes.toNat := fun v hv =>
    ids_lt hr hbelow (fun hof => hof.2.1 (hkeyed hof.1)) ((mem_vertices_iff m.byteorder hwhole v).mp hv)
  have hwhole' := (degreePy_output hr).1
  rw [← hwritten] at hwhole'
  have hstart : benchmarkStart b m files = some (out, .inl (.inl (ReadState.init out m.edges))) := by
    rw [benchmarkStart, hfound, Option.bind_some, createGraphRead_of_whole hwhole']
    rfl
  exact ⟨_, hstart, s, hs, hrenamed.traversed rfl hids hs₀ hthreads hn hout hmode hm hfits hs.occurs hs.id_eq⟩

end Pipeline

/-- `degree.py -m` on three edges, and `./benchmark -f edge -v 6 -s -t 2 -m 2` on what it writes. -/
theorem degreePy_visits_three : ∃ r, ∃ out : InputFile,
    degreePy .little ⟨true, false, false⟩ threeEdgeFile.bytes = .ok r ∧ out.bytes = r.output ∧
      ∃ y₀, benchmarkStart ⟨2, 6, true, false, "edge", 2, none⟩ zeroMachine (fun _ => some out) = some (out, y₀) ∧
        ∃ s, (threeEdgeFile.edgeFile .little).IsFirst ⟨true, false, false⟩ r.ids s ∧
          Ends (benchmarkDistinct ⟨2, 6, true, false, "edge", 2, none⟩ zeroMachine out) y₀ fun y =>
            (∃ s, y = .inl s ∧ s.died = true) ∨
              ∃ g h, y = .inr (g, h) ∧ h.Revisits (threeEdgeFile.edgeFile .little) r.ids s := by
  obtain ⟨r, out, hr, hwritten⟩ := threeEdge_output
  have hfits : (threeEdgeFile.edgeFile .little).Fits true 6 :=
    ⟨fun _ => List.countP_le_length.trans (by decide), fun _ _ => List.countP_le_length.trans (by decide), nofun⟩
  exact ⟨r, out, hr, hwritten, degreePy_visits (m := zeroMachine) hr (by decide) hwritten edgeOptions_args (by decide)
    (by decide) rfl (Or.inr ⟨rfl, Or.inr rfl⟩) (by decide) (by decide) hfits (zeroMachine_fresh 6) rfl⟩

end GraphBenchmark
