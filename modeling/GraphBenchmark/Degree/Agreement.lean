import GraphBenchmark.Degree.Order
import GraphBenchmark.Degree.Renaming
import GraphBenchmark.Reorder.Degrees

/-! # The script and the program

`degree.py` and `reorder` hand out ids in different orders, by first appearance or as `std::sort` leaves them. Without
`-a` they agree on how many out-edges each id has, and with `-m` both keep vertex `0`. -/
namespace GraphBenchmark
open Bytes Positions Ranking Words
set_option autoImplicit false

/-! ## The records -/

/-- The degree the script sorts by. -/
def EdgeFile.keyDegree (records : EdgeFile) (args : DegreeArgs) (v : ℕ) : ℕ :=
  if args.indegree then records.inDegree v else records.outDegree v

section Records
variable {file : InputFile} {args : DegreeArgs}

/-- The script reads the same records. -/
theorem readRecords_eq_map (byteorder : ByteOrder) (hwhole : file.bytes.length % 8 = 0) :
    readRecords byteorder file.bytes = (file.edgeFile byteorder).edges.map fun e => (e.src.toNat, e.dst.toNat) := by
  have hlen : (file.bytes.length + 7) / 8 = file.bytes.length / 8 := by omega
  rw [readRecords, InputFile.edgeFile, List.map_map, hlen]
  refine List.map_congr_left fun i hi => ?_
  have hi' := List.mem_range.mp hi
  have hword : ∀ beg, beg + 4 ≤ file.bytes.length → (UInt32.ofNat (fromBytes byteorder
      ((List.range' beg 4).map fun k => file.bytes.getD k 0))).toNat =
      fromBytes byteorder ((file.bytes.drop beg).take 4) := by
    intro beg hbeg
    have hfour : ((file.bytes.drop beg).take 4).length ≤ 4 := by
      rw [List.length_take]
      omega
    rw [map_range'_getD _ 0 beg 4 hbeg, toNat_ofNat32]
    exact (fromBytes_lt byteorder _).trans_le (Nat.pow_le_pow_right (by decide) hfour)
  have hsrc := hword (8 * i) (by omega)
  have hdst := hword (8 * i + 4) (by omega)
  rw [Function.comp_apply, edgeAt, hsrc, hdst, recordAt, List.take_take, List.drop_take, List.drop_drop]
  rfl

theorem keyDegree_eq_degreeOf (byteorder : ByteOrder) (hwhole : file.bytes.length % 8 = 0) (args : DegreeArgs) (v : ℕ) :
    (file.edgeFile byteorder).keyDegree args v = degreeOf args (readRecords byteorder file.bytes) v := by
  unfold EdgeFile.keyDegree degreeOf EdgeFile.inDegree EdgeFile.outDegree
  rw [readRecords_eq_map byteorder hwhole, List.countP_map]
  cases hkey : args.indegree with
  | false => exact List.countP_congr fun e _ => by simp [keyOf, hkey]
  | true => exact List.countP_congr fun e _ => by simp [keyOf, hkey]

end Records

/-! ## The order of the script -/

section Listed
variable {args : DegreeArgs} {edges : List (ℕ × ℕ)} {keep : Bool} {l : List ℕ} {s : DegreeState} {u v i : ℕ}

theorem keyOf_newRecord (args : DegreeArgs) (s : DegreeState) (e : ℕ × ℕ) :
    keyOf args ((s.mapping e.1).getD 0, (s.mapping e.2).getD 0) = (s.mapping (keyOf args e)).getD 0 := by
  unfold keyOf
  split <;> rfl

theorem degreeOf_newRecords (args : DegreeArgs) (s : DegreeState) (edges : List (ℕ × ℕ)) (i : ℕ) :
    degreeOf args (newRecords s edges) i = edges.countP fun e => (s.mapping (keyOf args e)).getD 0 = i := by
  rw [degreeOf, newRecords, List.countP_map]
  refine List.countP_congr fun e _ => ?_
  rw [Function.comp_apply, keyOf_newRecord]

/-- A vertex and its new id have the same edges. -/
theorem Final.degreeOf_id (h : Final args edges keep l s) (hv : v ∈ endpoints edges) (hi : s.mapping v = some i) :
    degreeOf args (newRecords s edges) i = degreeOf args edges v := by
  rw [degreeOf_newRecords, degreeOf]
  refine List.countP_congr fun e he => ?_
  have hkey : keyOf args e ∈ endpoints edges := key_mem_endpoints (List.mem_map_of_mem he)
  have hinj := h.getD_inj hkey hv
  rw [hi, Option.getD_some] at hinj
  rw [decide_eq_true_iff, decide_eq_true_iff, hinj]

theorem Final.degreeOf_zero (h : Final args edges keep l s) (hm : args.maintain = true) :
    degreeOf args (newRecords s edges) 0 = degreeOf args edges 0 := by
  rw [degreeOf_newRecords, degreeOf]
  refine List.countP_congr fun e he => ?_
  rw [decide_eq_true_iff, decide_eq_true_iff, h.getD_eq_zero_iff hm (List.mem_map_of_mem he)]

theorem mem_of_ranked (h : Final args edges keep l s) (hv : 0 < rankedDegree args.maintain (degreeOf args edges) v) :
    v ∈ endpoints edges ∧ v ∈ l ∧ s.mapping v = some (firstId args + l.idxOf v) ∧
      rankedDegree args.maintain (degreeOf args edges) v = degreeOf args edges v := by
  unfold rankedDegree at hv ⊢
  by_cases hkept : args.maintain = true ∧ v = 0
  · rw [if_pos hkept] at hv
    exact absurd hv (Nat.lt_irrefl 0)
  · rw [if_neg hkept] at hv ⊢
    have hends := key_mem_endpoints (degreeOf_pos.mp hv)
    obtain ⟨hmem, hid⟩ := h.mapping_of_ordered ⟨hends, hkept⟩
    exact ⟨hends, hmem, hid, rfl⟩

/-- Ids behind those of the keyed vertices have no edges. -/
theorem degreeOf_eq_zero_of_late (h : Final args edges keep l s) {pre post : List ℕ} (hl : l = pre ++ post)
    (hpre : ∀ v, Ordered args edges v → v ∈ edges.map (keyOf args) → v ∈ pre) (hi : pre.length ≤ i) :
    degreeOf args (newRecords s edges) (firstId args + i) = 0 := by
  rw [degreeOf_newRecords]
  refine List.countP_eq_zero.mpr fun e he hid => ?_
  rw [decide_eq_true_iff] at hid
  have hkey : keyOf args e ∈ edges.map (keyOf args) := List.mem_map_of_mem he
  have hends := key_mem_endpoints hkey
  have hmapping := h.mapping_eq_getD hends
  rw [hid] at hmapping
  have hordered : Ordered args edges (keyOf args e) := by
    refine ⟨hends, fun hkept => ?_⟩
    have hzero := (h.getD_eq_zero_iff hkept.1 hkey).mpr hkept.2
    have hfirst : firstId args = 1 := if_pos hkept.1
    omega
  have hmem := hpre _ hordered hkey
  rw [(h.mapping_of_ordered hordered).2, hl, List.idxOf_append_of_mem hmem] at hmapping
  have hlt := List.idxOf_lt_length_of_mem hmem
  have := Option.some.inj hmapping
  omega

/-- The keyed vertices come first, the larger degrees before the smaller ones. -/
theorem sorted_getElem (hascending : args.ascending = false) {i j : ℕ} (hij : i < j)
    (hj : j < (keyedList args edges).length) :
    degreeOf args edges (keyedList args edges)[j] ≤ degreeOf args edges (keyedList args edges)[i] := by
  have hsorted : (keyedList args edges).Pairwise (DegreeLe args edges) := (sortedKeys_pairwise args edges).filter _
  have hpair := List.pairwise_iff_getElem.mp hsorted i j (by omega) hj hij
  rwa [DegreeLe, hascending, if_neg Bool.false_ne_true] at hpair

theorem degreesByRank_antitone (hascending : args.ascending = false) :
    Antitone fun i => degreeOf args (newRecords (numberEdges args edges) edges) (firstId args + i) := by
  obtain ⟨l', hfinal⟩ := numberEdges_final args edges
  change Final args edges _ (keyedList args edges ++ l') _ at hfinal
  have hdegree : ∀ i (hi : i < (keyedList args edges).length),
      degreeOf args (newRecords (numberEdges args edges) edges) (firstId args + i) =
        degreeOf args edges (keyedList args edges)[i] := by
    intro i hi
    have hmem := List.getElem_mem hi
    obtain ⟨hkey, hkept⟩ := List.mem_filter.mp hmem
    rw [decide_eq_true_iff] at hkept
    have hends := key_mem_endpoints (mem_sortedKeys.mp hkey)
    refine hfinal.degreeOf_id hends ?_
    have hnodup : (keyedList args edges).Nodup := nodup_sortedKeys.filter _
    rw [(hfinal.mapping_of_ordered ⟨hends, hkept⟩).2, List.idxOf_append_of_mem hmem, hnodup.idxOf_getElem]
  have hlate : ∀ i, (keyedList args edges).length ≤ i →
      degreeOf args (newRecords (numberEdges args edges) edges) (firstId args + i) = 0 := fun i hi =>
    degreeOf_eq_zero_of_late hfinal rfl (fun v hv hkey => (mem_keyedList hv).mpr hkey) hi
  intro i j hij
  simp only
  rcases Nat.eq_or_lt_of_le hij with rfl | hlt
  · exact le_rfl
  · by_cases hj : j < (keyedList args edges).length
    · rw [hdegree i (by omega), hdegree j hj]
      exact sorted_getElem hascending hlt hj
    · rw [hlate j (not_lt.mp hj)]
      exact Nat.zero_le _

/-- The script lists the keyed vertices by their degrees. -/
theorem Final.lists (h : Final args edges keep l (numberEdges args edges)) (hascending : args.ascending = false) :
    Lists (rankedDegree args.maintain (degreeOf args edges))
      (fun i => degreeOf args (newRecords (numberEdges args edges) edges) (firstId args + i)) l.idxOf := by
  refine ⟨degreesByRank_antitone hascending, ⟨l.length, fun i hi => ?_⟩, fun u hu v hv heq => ?_, fun v hv => ?_,
    fun i hi => ?_⟩
  · refine degreeOf_eq_zero_of_late h (List.append_nil l).symm (fun v hv _ => (h.mapping_of_ordered hv).1) hi
  · obtain ⟨-, hmem, -, -⟩ := mem_of_ranked h hu
    exact (List.idxOf_inj hmem).mp heq
  · obtain ⟨hends, -, hid, heq⟩ := mem_of_ranked h hv
    rw [heq]
    exact h.degreeOf_id hends hid
  · rw [degreeOf_newRecords, List.countP_pos_iff] at hi
    obtain ⟨e, he, hid⟩ := hi
    rw [decide_eq_true_iff] at hid
    have hkey : keyOf args e ∈ edges.map (keyOf args) := List.mem_map_of_mem he
    have hends := key_mem_endpoints hkey
    have hkept : ¬ (args.maintain = true ∧ keyOf args e = 0) := by
      intro hkept
      have hzero := (h.getD_eq_zero_iff hkept.1 hkey).mpr hkept.2
      have hfirst : firstId args = 1 := if_pos hkept.1
      omega
    refine ⟨keyOf args e, ?_, ?_⟩
    · rw [rankedDegree, if_neg hkept]
      exact degreeOf_pos.mpr hkey
    · have hmapping := h.mapping_eq_getD hends
      rw [hid, (h.mapping_of_ordered ⟨hends, hkept⟩).2] at hmapping
      exact Nat.add_left_cancel (Option.some.inj hmapping)

end Listed

section Agreement
variable {a : ReorderArgs} {m : ReorderMachine} {file out pyOut : InputFile} {r : DegreeResult}

/-- On a file of whole records `degree.py` and `reorder` give each id the same out-degree, with or without `-m`. -/
theorem degreePy_agrees (h : Reorders a m file out) (hwhole : file.bytes.length % 8 = 0) (hascending : a.ascending = false)
    (hr : degreePy m.byteorder ⟨a.maintain, false, false⟩ file.bytes = .ok r) (hout : pyOut.bytes = r.output) (v : ℕ) :
    (pyOut.edgeFile m.byteorder).outDegree v = (out.edgeFile m.byteorder).outDegree v := by
  obtain ⟨mapping, hsort⟩ := h.exists_sort
  obtain ⟨l', hfinal⟩ := numberEdges_final ⟨a.maintain, false, false⟩ (readRecords m.byteorder file.bytes)
  obtain ⟨hpyWhole, hread⟩ := degreePy_output hr
  rw [← hout] at hpyWhole
  have hdegrees : (file.edgeFile m.byteorder).outDegree =
      degreeOf ⟨a.maintain, false, false⟩ (readRecords m.byteorder file.bytes) :=
    funext (keyDegree_eq_degreeOf m.byteorder hwhole ⟨a.maintain, false, false⟩)
  have hpyDegree := keyDegree_eq_degreeOf m.byteorder hpyWhole ⟨a.maintain, false, false⟩ v
  rw [hout, hread] at hpyDegree
  refine Eq.trans hpyDegree ?_
  by_cases hfirst : firstRanked a.maintain ≤ v
  · have hlists := hsort.lists h.below
    rw [hdegrees, hascending] at hlists
    have hat := congrFun ((hfinal.lists rfl).unique hlists) (v - firstRanked a.maintain)
    rw [(hsort.endpointsBelow h.below).degreesByRank, Nat.add_sub_cancel' hfirst] at hat
    rw [← hat]
    exact congrArg _ (Nat.add_sub_cancel' hfirst).symm
  · -- the kept vertex
    unfold firstRanked at hfirst
    split at hfirst
    · rename_i hm
      obtain rfl : v = 0 := by omega
      have hkept := hsort.outDegree h.below h.pos
      rw [hsort.zero hm, hdegrees] at hkept
      rw [hfinal.degreeOf_zero hm, ← hkept]
      rfl
    · omega

end Agreement

/-- The edges from `2` to `1`, from `0` to `1` and from `2` to `0`. -/
def threeEdgeFile : InputFile :=
  ⟨[2, 0, 0, 0, 1, 0, 0, 0, 0, 0, 0, 0, 1, 0, 0, 0, 2, 0, 0, 0, 0, 0, 0, 0], by decide⟩

theorem threeEdge_output : ∃ r, ∃ pyOut : InputFile,
    degreePy .little ⟨true, false, false⟩ threeEdgeFile.bytes = .ok r ∧ pyOut.bytes = r.output := by
  obtain ⟨l, hfinal⟩ := numberEdges_final ⟨true, false, false⟩ (readRecords .little threeEdgeFile.bytes)
  have hids := (newRecords_lt_iff hfinal endpoints_lt).mpr fun hout => absurd (hout.2.2 3 (by decide)) (by decide)
  have hrun := @degreePy_eq .little ⟨true, false, false⟩ threeEdgeFile.bytes _ rfl nofun
  rw [if_pos hids] at hrun
  refine ⟨_, ⟨_, ?_⟩, hrun, rfl⟩
  rw [flatMap_packed_length, newRecords, List.length_map]
  decide

theorem degreePy_agrees_three : ∃ out r, ∃ pyOut : InputFile, Reorders keptArgs zeroReorderMachine threeEdgeFile out ∧
    degreePy .little ⟨true, false, false⟩ threeEdgeFile.bytes = .ok r ∧ pyOut.bytes = r.output ∧
    ∀ v, (pyOut.edgeFile zeroReorderMachine.byteorder).outDegree v =
      (out.edgeFile zeroReorderMachine.byteorder).outDegree v := by
  obtain ⟨out, h⟩ := @exists_reorders keptArgs zeroReorderMachine threeEdgeFile (by decide) (by decide) (by decide)
    (fun _ => List.countP_le_length.trans_lt (by decide)) fun _ _ => rfl
  obtain ⟨r, pyOut, hr, hout⟩ := threeEdge_output
  exact ⟨out, r, pyOut, h, hr, hout, degreePy_agrees h rfl rfl hr hout⟩

end GraphBenchmark
