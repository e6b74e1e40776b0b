import GraphBenchmark.Model.ReorderMain
import GraphBenchmark.Benchmark.Loading
import GraphBenchmark.Reorder.Sort

/-! # The reordering program, from the bytes of a file to those of the other

The records written are read back as they stood in memory (`edgeFile_toFile`), so what `sort_by_degree` does to the
edges is what the program does to the file. -/
namespace GraphBenchmark
open Bytes Interleaving Words
set_option autoImplicit false

/-! ## Records and bytes -/

section Bytes
variable {byteorder : ByteOrder} {records : EdgeFile}

theorem getD_flatMap_bytes (edges : List Edge) {i k : ℕ} (hi : i < edges.length) (hk : k < 8) :
    (edges.flatMap (Edge.bytes byteorder)).getD (8 * i + k) 0 = (edges[i].bytes byteorder).getD k 0 := by
  induction edges generalizing i with
  | nil => exact absurd hi (Nat.not_lt_zero i)
  | cons e edges ih =>
    have hlen := e.length_bytes byteorder
    rw [List.flatMap_cons]
    cases i with
    | zero => rw [Nat.mul_zero, Nat.zero_add, List.getD_append _ _ _ _ (by omega)]; rfl
    | succ i =>
      rw [List.getD_append_right _ _ _ _ (by omega), hlen, show 8 * (i + 1) + k - 8 = 8 * i + k by omega,
        ih (Nat.lt_of_succ_lt_succ hi)]
      rfl

theorem map_range'_getD {α : Type*} (l : List α) (d : α) (beg k : ℕ) (h : beg + k ≤ l.length) :
    (List.range' beg k).map (fun i => l.getD i d) = (l.drop beg).take k := by
  refine List.ext_getElem ?_ fun i h₁ h₂ => ?_
  · simp only [List.length_map, List.length_range', List.length_take, List.length_drop]
    omega
  · rw [List.length_map, List.length_range'] at h₁
    simp only [List.getElem_map, List.getElem_range', List.getElem_take, List.getElem_drop, Nat.one_mul]
    exact List.getD_eq_getElem _ _ (by omega)

/-- An edge is read back as it was written. -/
theorem edgeAt_toFile {i : ℕ} (hi : i < records.edges.length) :
    edgeAt byteorder (fun k => (records.toFile byteorder).bytes.getD k 0) i = records.edges[i] := by
  have hword : ∀ a, a + 4 ≤ 8 → (List.range' (8 * i + a) 4).map (fun k => (records.toFile byteorder).bytes.getD k 0) =
      ((records.edges[i].bytes byteorder).drop a).take 4 := by
    intro a ha
    rw [← map_range'_getD _ 0 a 4 (by rw [Edge.length_bytes]; exact ha), List.range'_eq_map_range, List.range'_eq_map_range,
      List.map_map, List.map_map]
    refine List.map_congr_left fun k hk => ?_
    have hk' := List.mem_range.mp hk
    have hget : (records.toFile byteorder).bytes.getD (8 * i + (a + k)) 0 =
        (records.edges[i].bytes byteorder).getD (a + k) 0 :=
      getD_flatMap_bytes records.edges hi (by omega)
    rw [← Nat.add_assoc] at hget
    exact hget
  have hsrc := hword 0 (by decide)
  have hdst := hword 4 (by decide)
  have hlen : (toBytes byteorder 4 records.edges[i].src.toNat).length = 4 := length_toBytes _ _ _
  rw [List.drop_zero, Edge.bytes, List.take_left' hlen, Nat.add_zero] at hsrc
  rw [Edge.bytes, List.drop_left' hlen, List.take_of_length_le (length_toBytes _ _ _).le] at hdst
  rw [edgeAt, hsrc, hdst, fromBytes_toBytes (UInt32.toNat_lt _), fromBytes_toBytes (UInt32.toNat_lt _),
    UInt32.ofNat_toNat, UInt32.ofNat_toNat]

theorem edgeFile_toFile (records : EdgeFile) (byteorder : ByteOrder) :
    (records.toFile byteorder).edgeFile byteorder = records := by
  have hlen : (records.toFile byteorder).bytes.length / 8 = records.edges.length := by
    rw [EdgeFile.toFile, Edge.length_flatMap_bytes, Nat.mul_div_cancel _ (by decide)]
  have hedges : ((records.toFile byteorder).edgeFile byteorder).edges = records.edges := by
    refine List.ext_getElem ?_ fun i h₁ h₂ => ?_
    · rw [InputFile.edgeFile, List.length_map, List.length_range, hlen]
    · simp only [InputFile.edgeFile, List.getElem_map, List.getElem_range]
      exact edgeAt_toFile h₂
  cases hs : (records.toFile byteorder).edgeFile byteorder
  rw [hs] at hedges
  cases records
  congr

end Bytes

/-! ## The program -/

/-- How a run of the program ends. -/
inductive Reordered (a : ReorderArgs) (m : ReorderMachine) (file : InputFile) (x : ReorderState) : Prop
  | died (h : x.died = true)
  | written (out : InputFile) (mapping : ℕ → UInt32) (h : x.written m = some out)
      (hlen : out.bytes.length = file.bytes.length)
      (hsort : IsDegreeSort (file.edgeFile m.byteorder) a.nbNodes.toNat a.ascending a.maintain mapping
        (out.edgeFile m.byteorder))

section Program
variable {input output : String} {opts : List ReorderOption} {a : ReorderArgs} {m : ReorderMachine} {file : InputFile}
  {files : String → Option InputFile} {x₀ x : ReorderState}

theorem sortByDegree_of_done {n k : ℕ} {ascending maintain : Bool} {s : SortState} (hp : s.pc = .done) (b : SortAct) :
    sortByDegree n k ascending maintain s b = none := by
  cases b <;> simp [sortByDegree, hp]

theorem ReorderArgs.settle_spec {a b : ReorderArgs} (h : a.settle = some b) : b.nbNodes ≠ 0 := by
  simp only [ReorderArgs.settle] at h
  generalize (if a.debug = true then _ else a) = c at h
  split at h
  · cases h
  · rename_i hn
    obtain rfl := Option.some.inj h
    exact hn

theorem reorderArgs_spec (h : reorderArgs input output opts = some a) : 0 < a.nbNodes.toNat := by
  obtain ⟨b, -, hb⟩ := Option.bind_eq_some_iff.mp h
  exact Nat.pos_of_ne_zero fun h0 => ReorderArgs.settle_spec hb (UInt64.toNat_inj.mp h0)

theorem reorderStart_spec (h : reorderStart a m files = some (file, x₀)) : x₀ = .inl (ReadState.init file m.edges) := by
  obtain ⟨file', -, heq⟩ := Option.map_eq_some_iff.mp h
  obtain ⟨rfl, rfl⟩ := Prod.mk.inj heq
  rfl

/-- Every schedule ends at a failed read or behind `sort_by_degree` on the records of the file. -/
theorem reorder_done (hn₀ : 0 < a.nbNodes.toNat) (hn : a.nbNodes.toNat ≤ 2 ^ 32) :
    Ends (reorder a m file) (.inl (ReadState.init file m.edges)) fun x => x.died = true ∨
      ∃ s, x = .inr (file.edgeFile m.byteorder, s) ∧ s.pc = .done ∧
        SortInv (file.edgeFile m.byteorder) a.nbNodes.toNat a.ascending a.maintain m.outEdgeOffsets s := by
  have hread := readLoop_ends file m.edges
  have hsecond : ∀ s y, Reach (readLoop file) (ReadState.init file m.edges) s → enterSort m file s = some y →
      Ends (indexed fun records => sortByDegree a.nbNodes.toNat records.nbEdges a.ascending a.maintain) y fun y =>
        ∃ s, y = (file.edgeFile m.byteorder, s) ∧ s.pc = .done ∧
          SortInv (file.edgeFile m.byteorder) a.nbNodes.toNat a.ascending a.maintain m.outEdgeOffsets s := by
    intro s y hs hy
    unfold enterSort at hy
    split at hy
    · rename_i hdone
      obtain rfl := Option.some.inj hy
      rcases hread.2 s hs (readLoop_of_ne (hdone.trans_ne nofun)) with hdied | ⟨-, hfilled⟩
      · exact absurd (hdone.symm.trans hdied) nofun
      · rw [records_eq m.byteorder hfilled]
        refine ((sortByDegree_ends hn₀ hn m.ordered m.mapping).indexed (fun records =>
          sortByDegree a.nbNodes.toNat records.nbEdges a.ascending a.maintain) (file.edgeFile m.byteorder)).mono ?_
        intro y _ ⟨hy, hinv, hp⟩
        exact ⟨y.2, by rw [← hy], hp, hinv⟩
    · cases hy
  refine (hread.andThen_or hsecond).mono fun x _ hx => ?_
  rcases hx with ⟨s, rfl, -, hp | ⟨hp, -⟩, hnone⟩ | ⟨s, y₀, y, rfl, -, -, -, s', rfl, hp, hinv⟩
  · exact Or.inl (decide_eq_true hp)
  · rw [enterSort, if_pos hp] at hnone
    cases hnone
  · exact Or.inr ⟨s', rfl, hp, hinv⟩

/-- Some run of the program comes to its end. -/
theorem exists_reorder_written (a : ReorderArgs) (m : ReorderMachine) (file : InputFile) (hn₀ : 0 < a.nbNodes.toNat)
    (hn : a.nbNodes.toNat ≤ 2 ^ 32) :
    ∃ x out, Reach (reorder a m file) (.inl (ReadState.init file m.edges)) x ∧ x.written m = some out := by
  obtain ⟨s, hs, hp, -⟩ := (readLoopOk_ends_filled file m.edges).exists
  obtain ⟨t, ht, -, htp⟩ := (@sortByDegree_ends (s.records file m.byteorder) _ a.ascending a.maintain m.outEdgeOffsets
    hn₀ hn m.ordered m.mapping).exists
  have hsort : Reach (indexed fun records => sortByDegree a.nbNodes.toNat records.nbEdges a.ascending a.maintain)
      (s.records file m.byteorder, SortState.init (s.records file m.byteorder) m.outEdgeOffsets m.ordered m.mapping)
      (s.records file m.byteorder, t) := reach_indexed_iff.mpr ⟨t, rfl, ht⟩
  exact ⟨.inr (s.records file m.byteorder, t), _, hs.of_provided.andThen (if_pos hp) hsort, if_pos htp⟩

/-- A file that the program has written holds the relabelled records, and no partial one. -/
theorem reorder_written (hn₀ : 0 < a.nbNodes.toNat) (hn : a.nbNodes.toNat ≤ 2 ^ 32)
    (hx : Reach (reorder a m file) (.inl (ReadState.init file m.edges)) x) {out : InputFile}
    (hout : x.written m = some out) :
    out.bytes.length % 8 = 0 ∧
    ∃ mapping, Relabels (file.edgeFile m.byteorder) a.nbNodes.toNat a.ascending a.maintain m.outEdgeOffsets mapping ∧
      (out.edgeFile m.byteorder).edges = (file.edgeFile m.byteorder).edges.map (Edge.relabel mapping) := by
  unfold ReorderState.written at hout
  split at hout
  · cases hout
  · rename_i records s
    split at hout
    · rename_i hp
      obtain rfl := Option.some.inj hout
      have hstuck : ∀ b, reorder a m file (.inr (records, s)) b = none := by
        rintro (b | _ | b)
        · rfl
        · rfl
        · show ((sortByDegree a.nbNodes.toNat records.nbEdges a.ascending a.maintain s b).map _).map Sum.inr = none
          rw [sortByDegree_of_done hp]
          rfl
      rcases (reorder_done hn₀ hn).2 _ hx hstuck with hdied | ⟨s', heq, -, hinv⟩
      · cases hdied
      · obtain ⟨rfl, rfl⟩ := Prod.mk.inj (Sum.inr.inj heq)
        obtain ⟨hrel, hedges⟩ := hinv.done hp
        refine ⟨?_, s.mapping, hrel, by rw [edgeFile_toFile]; exact hedges⟩
        show ((s.output (file.edgeFile m.byteorder)).edges.flatMap _).length % 8 = 0
        rw [Edge.length_flatMap_bytes, Nat.mul_mod_left]
    · cases hout

end Program

section Sorts
variable {input output : String} {opts : List ReorderOption} {a : ReorderArgs} {m : ReorderMachine} {file : InputFile}
  {files : String → Option InputFile} {x₀ : ReorderState}

/-- From the bytes of a file to those of the other: every schedule of the program is finite, and unless a call of `read`
fails it ends with the records relabelled by degree in the output file, in their order. -/
theorem reorder_sorts (hopts : reorderArgs input output opts = some a) (hn : a.nbNodes.toNat ≤ 2 ^ 32)
    (hwhole : file.bytes.length % 8 = 0) (hfile : (file.edgeFile m.byteorder).EndpointsBelow a.nbNodes.toNat)
    (hdeg : ∀ v, (file.edgeFile m.byteorder).outDegree v < 2 ^ 32) (hmem : ∀ v < a.nbNodes.toNat, m.outEdgeOffsets v = 0)
    (hstart : reorderStart a m files = some (file, x₀)) :
    Ends (reorder a m file) x₀ (Reordered a m file) := by
  obtain rfl := reorderStart_spec hstart
  have hn₀ := reorderArgs_spec hopts
  refine (reorder_done hn₀ hn).mono fun x _ hx => ?_
  rcases hx with hdied | ⟨s, rfl, hp, hinv⟩
  · exact .died hdied
  · obtain ⟨hrel, hedges⟩ := hinv.done hp
    refine .written _ s.mapping (if_pos hp) ?_ ?_
    · show ((s.output (file.edgeFile m.byteorder)).edges.flatMap _).length = _
      rw [Edge.length_flatMap_bytes, hedges, List.length_map, InputFile.edgeFile, List.length_map, List.length_range]
      omega
    · rw [edgeFile_toFile]
      exact hrel.isDegreeSort hn₀ hn hfile hdeg hmem hedges

end Sorts

/-- `./reorder -i in -o out -v 6 -m`. -/
def keptArgs : ReorderArgs := ⟨"in", "out", 6, false, true, false⟩

theorem keptOptions_args : reorderArgs "" "" [.i "in", .o "out", .v 6, .m] = some keptArgs := by decide

def zeroReorderMachine : ReorderMachine := ⟨.little, fun _ => 42, fun _ => 0, fun _ => 7, fun _ => 7⟩

theorem reorder_sorts_edge :
    ∃ x₀, reorderStart keptArgs zeroReorderMachine (fun _ => some oneEdgeFile) = some (oneEdgeFile, x₀) ∧
      Ends (reorder keptArgs zeroReorderMachine oneEdgeFile) x₀ (Reordered keptArgs zeroReorderMachine oneEdgeFile) := by
  have hstart : reorderStart keptArgs zeroReorderMachine (fun _ => some oneEdgeFile) =
      some (oneEdgeFile, .inl (ReadState.init oneEdgeFile fun _ => 42)) := rfl
  exact ⟨_, hstart, reorder_sorts keptOptions_args (by decide) rfl (by decide)
    (fun _ => List.countP_le_length.trans_lt (by decide)) (fun _ _ => rfl) hstart⟩

end GraphBenchmark
