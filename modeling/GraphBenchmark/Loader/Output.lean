import GraphBenchmark.Loader.Fetching
import GraphBenchmark.Model.Hub
import GraphBenchmark.Model.Output

/-! # What `write_to_file` preserves

The text gives back the counts, the offsets below `nb_nodes` and the edges (`readGraph_writeToFile`), and the
assertion of `sum_degree` gives the last offset. The slices between the offsets are the destinations of the
vertices exactly when the counting began with zeros and no cursor of `create_edges` wrapped (`lossless_iff`); and of the
in-edges, which are not written, it takes that their stores stay in their array. -/
namespace GraphBenchmark
open Interleaving Words Lines
set_option autoImplicit false

/-! ## Reading back -/

/-- What the text determines of a graph. -/
structure Graph.SameOut (g g' : Graph) : Prop where
  nbNodes : g.nbNodes = g'.nbNodes
  nbEdges : g.nbEdges = g'.nbEdges
  offsets : ∀ i ≤ g.nbNodes, g.outEdgeOffsets i = g'.outEdgeOffsets i
  edges : ∀ x < g.nbEdges, g.outEdges x = g'.outEdges x

/-- The graph as its text gives it. -/
def Graph.written (g : Graph) : WrittenGraph where
  nbNodes := g.nbNodes
  nbEdges := g.nbEdges
  offsets := (List.range g.nbNodes).map fun i => (g.outEdgeOffsets i).toNat
  edges := (List.range g.nbEdges).map fun x => (g.outEdges x).toNat

section Text
variable {g g' : Graph} {i : ℕ}

theorem flatMap_line (k : ℕ) (f : ℕ → ℕ) : ((List.range k).flatMap fun i => line (f i)) = lines ((List.range k).map f) :=
  (List.flatMap_map ..).symm

theorem writeToFile_eq (g : Graph) : g.writeToFile =
    title ++ ['\n'] ++ lines (g.nbNodes :: g.nbEdges :: (g.written.offsets ++ g.written.edges)) := by
  have hoffsets := flatMap_line g.nbNodes fun i => (g.outEdgeOffsets i).toNat
  have hedges := flatMap_line g.nbEdges fun x => (g.outEdges x).toNat
  rw [Graph.writeToFile, hoffsets, hedges, Graph.written]
  simp only [lines, List.flatMap_cons, List.flatMap_append, List.append_assoc]

theorem readGraph_writeToFile (g : Graph) : readGraph g.writeToFile = some g.written := by
  have hlen : (title ++ ['\n']).length = title.length + 1 := List.length_append
  have hoffsets : g.written.offsets.length = g.nbNodes := by simp [Graph.written]
  have hedges : g.written.edges.length = g.nbEdges := by simp [Graph.written]
  rw [readGraph, writeToFile_eq, ← hlen, List.drop_left, readNumbers_lines, WrittenGraph.ofNumbers,
    List.take_left' hoffsets, List.drop_left' hoffsets, List.take_of_length_le hedges.le]
  rfl

theorem written_inj (h : g.written = g'.written) : g.nbNodes = g'.nbNodes ∧ g.nbEdges = g'.nbEdges ∧
    (∀ i < g.nbNodes, g.outEdgeOffsets i = g'.outEdgeOffsets i) ∧ ∀ x < g.nbEdges, g.outEdges x = g'.outEdges x := by
  obtain ⟨hn, hm, hoffsets, hedges⟩ := WrittenGraph.mk.inj h
  rw [← hn] at hoffsets
  rw [← hm] at hedges
  refine ⟨hn, hm, fun i hi => ?_, fun x hx => ?_⟩
  · exact UInt64.toNat_inj.mp (List.map_inj_left.mp hoffsets i (List.mem_range.mpr hi))
  · exact UInt32.toNat_inj.mp (List.map_inj_left.mp hedges x (List.mem_range.mpr hx))

/-- Equal texts are of equal graphs, if the last offset is the edge count. -/
theorem sameOut_of_writeToFile (h : g.writeToFile = g'.writeToFile)
    (hlast : g.outEdgeOffsets g.nbNodes = UInt64.ofNat g.nbEdges)
    (hlast' : g'.outEdgeOffsets g'.nbNodes = UInt64.ofNat g'.nbEdges) : g.SameOut g' := by
  have hwritten : g.written = g'.written := by
    have hread := congrArg readGraph h
    rwa [readGraph_writeToFile, readGraph_writeToFile, Option.some.injEq] at hread
  obtain ⟨hn, hm, hoffsets, hedges⟩ := written_inj hwritten
  refine ⟨hn, hm, fun i hi => ?_, hedges⟩
  rcases Nat.lt_or_eq_of_le hi with hlt | rfl
  · exact hoffsets i hlt
  · rw [hlast, hm, ← hlast', hn]

theorem take_drop_range (f : ℕ → ℕ) {beg fin k : ℕ} (h : beg ≤ fin) (hk : fin ≤ k) :
    (((List.range k).map f).drop beg).take (fin - beg) = (List.range' beg (fin - beg)).map f := by
  rw [← List.map_drop, ← List.map_take]
  congr 1
  refine List.ext_getElem ?_ fun i h₁ h₂ => ?_
  · simp only [List.length_take, List.length_drop, List.length_range, List.length_range']
    omega
  · simp

/-- The slice of a vertex in the text is the one in the arrays, if the list of edges reaches that far. -/
theorem slice_written (hi : i < g.nbNodes) (hlast : (g.outEdgeOffsets g.nbNodes).toNat = g.nbEdges) :
    g.written.slice i =
      if (g.outEdgeOffsets i).toNat ≤ (g.outEdgeOffsets (i + 1)).toNat ∧ (g.outEdgeOffsets (i + 1)).toNat ≤ g.nbEdges then
        some ((g.outSlice i).map UInt32.toNat)
      else none := by
  have hbeg : g.written.offsets[i]? = some (g.outEdgeOffsets i).toNat := by simp [Graph.written, hi]
  have hfin : g.written.offsets.getD (i + 1) g.written.nbEdges = (g.outEdgeOffsets (i + 1)).toNat := by
    rcases Nat.lt_or_eq_of_le (Nat.succ_le_of_lt hi) with hlt | heq
    · simp [Graph.written, hlt]
    · rw [show i + 1 = g.nbNodes from heq, hlast]
      simp [Graph.written]
  have hlen : g.written.edges.length = g.nbEdges := by simp [Graph.written]
  simp only [WrittenGraph.slice, hbeg, hfin, hlen, Option.bind_eq_bind, Option.bind_some]
  split
  · rename_i h
    rw [Graph.written, take_drop_range _ h.1 h.2, Graph.outSlice, slots, List.map_map]
    rfl
  · rfl

end Text

/-! ## The graphs `create_graph` builds -/

/-- Reading the integers back, the slice of every vertex is there and holds the destinations of its edges. -/
def WritesRows (file : EdgeFile) (g : Graph) : Prop :=
  ∃ w, readGraph g.writeToFile = some w ∧ ∀ i < g.nbNodes, ∃ l, w.slice i = some l ∧
    l.Perm ((file.neighbours Edge.src Edge.dst i).map UInt32.toNat)

/-- `create_graph` has kept to the arrays it allocated: what it has counted are vertices, and what `create_edges` has
stored to are entries of the edge arrays. A store outside them can change the out-arrays too. -/
structure BuiltInside (file : EdgeFile) (symmetric : Bool) (n : ℕ) (t : CreateState) : Prop where
  src : ∀ e ∈ file.edges, e.src.toNat < n
  dst : symmetric = true → ∀ e ∈ file.edges, e.dst.toNat < n
  out : t.arrays.outArray.Inside file
  inn : symmetric = true → t.arrays.inArray.Inside file

/-- What is built of the file, over offset arrays that held `mem`, is built inside its arrays, has a text that no other
such graph has, and its rows can be read off the text. -/
def Lossless (file : EdgeFile) (symmetric : Bool) (n : ℕ) (mem : Offsets) : Prop :=
  ∀ outMem inMem s t, Loads file symmetric n mem outMem inMem s t →
    BuiltInside file symmetric n t ∧
    (∀ file' symmetric' n' mem' outMem' inMem' s' t', Loads file' symmetric' n' mem' outMem' inMem' s' t' →
      BuiltInside file' symmetric' n' t' →
      (t.graph file symmetric n s.offsets).writeToFile = (t'.graph file' symmetric' n' s'.offsets).writeToFile →
      (t.graph file symmetric n s.offsets).SameOut (t'.graph file' symmetric' n' s'.offsets)) ∧
    WritesRows file (t.graph file symmetric n s.offsets)

/-- With `SYMMETRIC`, over in-offsets that held `mem`: the destinations are vertices, and the slots that `sum_degree`
leaves to them are slots of `in_edges`. -/
def EdgeFile.InStoresInside (file : EdgeFile) (n : ℕ) (mem : Offsets) : Prop :=
  (∀ e ∈ file.edges, e.dst.toNat < n) ∧ file.SlicesInside Edge.dst (offsetsOver n mem.inEdgeOffsets file.inDegree)

section Built
variable {file : EdgeFile} {symmetric : Bool} {n : ℕ} {mem : Offsets} {outMem inMem : ℕ → UInt32} {s : CountState}
  {t : CreateState}

/-- What the counting and `sum_degree` leave in the out-offsets, on top of any contents. -/
theorem Loads.offsets (h : Loads file symmetric n mem outMem inMem s t) :
    (∀ i ≤ n, s.offsets.outEdgeOffsets i =
      ∑ j ∈ Finset.range i, (mem.outEdgeOffsets j + UInt64.ofNat (file.degree Edge.src j))) ∧
      s.offsets.outEdgeOffsets n = UInt64.ofNat file.nbEdges := by
  obtain ⟨hblock, -⟩ := sumDegree_eq_some.mp (countDegree_done h.count h.counted)
  obtain ⟨hsum, heq⟩ := sumDegreeBlock_eq_some.mp hblock
  have hoffsets : ∀ i ≤ n, s.offsets.outEdgeOffsets i =
      ∑ j ∈ Finset.range i, (mem.outEdgeOffsets j + UInt64.ofNat (file.degree Edge.src j)) := by
    intro i hi
    rw [heq]
    exact if_pos hi
  exact ⟨hoffsets, (hoffsets n le_rfl).trans hsum⟩

theorem Loads.last (h : Loads file symmetric n mem outMem inMem s t) :
    (s.offsets.outEdgeOffsets n).toNat = file.nbEdges := by
  rw [h.offsets.2, toNat_ofNat64 file.nbEdges_lt]

/-- Over zeros the out-offsets are the prefix sums of the degrees, and all sources are vertices. -/
theorem Loads.lanePrefix (h : Loads file symmetric n mem outMem inMem s t) (hzero : ∀ i < n, mem.outEdgeOffsets i = 0) :
    LanePrefix file n Edge.src s.offsets.outEdgeOffsets := by
  obtain ⟨hblock, -⟩ := sumDegree_eq_some.mp (countDegree_done h.count h.counted)
  refine ⟨(sumDegreeBlock_isSome_iff file hzero fun e => e.src.toNat).mp ⟨_, hblock⟩, fun i hi => ?_⟩
  rw [h.offsets.1 i hi, Finset.sum_add_distrib, Finset.sum_eq_zero fun j hj => hzero j ?_, zero_add, sum_ofNat64]
  · rfl
  · exact (Finset.mem_range.mp hj).trans_le hi

theorem Loads.refill (h : Loads file symmetric n mem outMem inMem s t) (mem' : ℕ → UInt32) :
    Loads file symmetric n mem mem' inMem s (t.refill mem') :=
  ⟨h.count, h.counted, reach_refill mem' h.create, h.created⟩

theorem Loads.sameOut {file' : EdgeFile} {symmetric' : Bool} {n' : ℕ} {mem' : Offsets} {outMem' inMem' : ℕ → UInt32}
    {s' : CountState} {t' : CreateState} (h : Loads file symmetric n mem outMem inMem s t)
    (h' : Loads file' symmetric' n' mem' outMem' inMem' s' t')
    (heq : (t.graph file symmetric n s.offsets).writeToFile = (t'.graph file' symmetric' n' s'.offsets).writeToFile) :
    (t.graph file symmetric n s.offsets).SameOut (t'.graph file' symmetric' n' s'.offsets) :=
  sameOut_of_writeToFile heq h.offsets.2 h'.offsets.2

theorem writesRows_iff {g : Graph} (hlast : (g.outEdgeOffsets g.nbNodes).toNat = g.nbEdges) : WritesRows file g ↔
    ∀ i < g.nbNodes, (g.outEdgeOffsets i).toNat ≤ (g.outEdgeOffsets (i + 1)).toNat ∧
      (g.outEdgeOffsets (i + 1)).toNat ≤ g.nbEdges ∧
      (g.outSlice i).Perm (file.neighbours Edge.src Edge.dst i) := by
  have hperm : ∀ l l' : List UInt32, (l.map UInt32.toNat).Perm (l'.map UInt32.toNat) ↔ l.Perm l' := fun _ _ =>
    List.map_perm_map_iff fun _ _ => UInt32.toNat_inj.mp
  simp only [WritesRows, readGraph_writeToFile, Option.some.injEq, exists_eq_left']
  refine forall₂_congr fun i hi => ?_
  rw [slice_written hi hlast]
  split
  · rename_i h
    simp only [Option.some.injEq, exists_eq_left', hperm, h.1, h.2, true_and]
  · rename_i h
    simp only [reduceCtorEq, false_and, exists_false, false_iff]
    exact fun hc => h ⟨hc.1, hc.2.1⟩

/-- Rows of the right lengths leave nothing of the old contents in the offsets. -/
theorem Loads.zero_of_writesRows (h : Loads file symmetric n mem outMem inMem s t)
    (hrows : WritesRows file (t.graph file symmetric n s.offsets)) : ∀ i < n, mem.outEdgeOffsets i = 0 := by
  intro i hi
  obtain ⟨hle, -, hperm⟩ := (writesRows_iff h.last).mp hrows i hi
  have hlen := hperm.length_eq
  have hdegree : (file.neighbours Edge.src Edge.dst i).length = file.degree Edge.src i := by
    rw [EdgeFile.neighbours, List.length_map, ← List.countP_eq_length_filter]
    rfl
  have hslice : ((t.graph file symmetric n s.offsets).outSlice i).length =
      (s.offsets.outEdgeOffsets (i + 1)).toNat - (s.offsets.outEdgeOffsets i).toNat := by
    rw [Graph.outSlice, slots, List.length_map, List.length_range']
    rfl
  have hle' : (s.offsets.outEdgeOffsets i).toNat ≤ (s.offsets.outEdgeOffsets (i + 1)).toNat := hle
  have hnext : (s.offsets.outEdgeOffsets (i + 1)).toNat =
      (s.offsets.outEdgeOffsets i).toNat + file.degree Edge.src i := by omega
  have hword := congrArg UInt64.ofNat hnext
  rw [UInt64.ofNat_add, UInt64.ofNat_toNat, UInt64.ofNat_toNat, h.offsets.1 i hi.le, h.offsets.1 (i + 1) hi,
    Finset.sum_range_succ] at hword
  exact add_eq_right.mp (add_left_cancel hword)

/-! ### The stores -/

theorem EdgeFile.SlicesInside.congr {key : Edge → UInt32} {laneOffsets laneOffsets' : ℕ → UInt64}
    (h : file.SlicesInside key laneOffsets) (hkey : ∀ e ∈ file.edges, (key e).toNat < n)
    (heq : ∀ i < n, laneOffsets i = laneOffsets' i) : file.SlicesInside key laneOffsets' := by
  intro v r hr hlt
  have hv := vertex_of_degree hkey ((Nat.zero_le r).trans_lt hr)
  rw [slotAt, ← heq v hv]
  exact h v r hr hlt

theorem Loads.fetched (h : Loads file symmetric n mem outMem inMem s t) :
    ∃ log, FetchRun file symmetric s.offsets outMem inMem t log := h.create.logged (fetches file) []

theorem Loads.outDrawn (h : Loads file symmetric n mem outMem inMem s t) :
    ∃ draws, LaneDrawn file Edge.src s.offsets.outEdgeOffsets t.arrays.outArray [] draws := by
  obtain ⟨log, hlog⟩ := h.fetched
  have hout := hlog.out (h.created.trans_ne nofun)
  rw [createEdges_tasks h.create h.created] at hout
  exact ⟨_, hout⟩

theorem Loads.inDrawn (h : Loads file true n mem outMem inMem s t) :
    ∃ draws, LaneDrawn file Edge.dst s.offsets.inEdgeOffsets t.arrays.inArray [] draws := by
  obtain ⟨log, hlog⟩ := h.fetched
  have hin := hlog.inn (h.created.trans_ne nofun)
  rw [createEdges_tasks h.create h.created] at hin
  exact ⟨_, hin⟩

theorem Loads.inBlock (h : Loads file true n mem outMem inMem s t) : sumDegreeBlock n file.nbEdges
    (fun v => mem.inEdgeOffsets v + UInt64.ofNat (file.inDegree v)) = some s.offsets.inEdgeOffsets :=
  (sumDegree_eq_some.mp (countDegree_done h.count h.counted)).2

theorem Loads.inOffsets (h : Loads file true n mem outMem inMem s t) :
    ∀ i < n, s.offsets.inEdgeOffsets i = offsetsOver n mem.inEdgeOffsets file.inDegree i := by
  intro i hi
  obtain ⟨-, heq⟩ := sumDegreeBlock_eq_some.mp h.inBlock
  rw [offsetsOver, if_pos hi.le, ← sum_add_ofNat, heq]
  exact if_pos hi.le

/-- The stores to `in_edges` are inside exactly when the condition on the in-offsets says so. -/
theorem Loads.inStoresInside_iff (h : Loads file true n mem outMem inMem s t) :
    ((∀ e ∈ file.edges, e.dst.toNat < n) ∧ t.arrays.inArray.Inside file) ↔ file.InStoresInside n mem := by
  obtain ⟨draws, hin⟩ := h.inDrawn
  constructor
  · intro ⟨hdst, hinside⟩
    exact ⟨hdst, (hin.slicesInside hinside).congr hdst h.inOffsets⟩
  · intro ⟨hdst, hslices⟩
    exact ⟨hdst, hin.inside (hslices.congr hdst fun i hi => (h.inOffsets i hi).symm)⟩

/-- In-offsets that began with zeros keep the stores inside. -/
theorem Loads.inStoresInside_of_zero (h : Loads file true n mem outMem inMem s t)
    (hzero : ∀ i < n, mem.inEdgeOffsets i = 0) : file.InStoresInside n mem := by
  have hdst := (sumDegreeBlock_isSome_iff file hzero fun e => e.dst.toNat).mp ⟨_, h.inBlock⟩
  have hprefix : LanePrefix file n Edge.dst (offsetsOver n mem.inEdgeOffsets file.inDegree) :=
    ⟨hdst, fun i hi => offsetsOver_zero hzero hi⟩
  exact ⟨hdst, hprefix.slicesInside⟩

theorem Loads.builtInside (h : Loads file symmetric n mem outMem inMem s t) (hzero : ∀ i < n, mem.outEdgeOffsets i = 0)
    (hin : symmetric = true → file.InStoresInside n mem) : BuiltInside file symmetric n t := by
  have hstarts := h.lanePrefix hzero
  obtain ⟨draws, hout⟩ := h.outDrawn
  refine ⟨hstarts.key_lt, fun hsym => (hin hsym).1, hout.inside hstarts.slicesInside, fun hsym => ?_⟩
  subst hsym
  exact (h.inStoresInside_iff.mpr (hin rfl)).2

/-! ### The rows -/

/-- Cells that hold `1` instead of `0` where nothing was stored make the sum of a row larger. -/
theorem sum_refill_lt (a : EdgeArray) {beg len x : ℕ} (hx : x ∈ List.range' beg len) (hstored : ∀ p ∈ a.stores, p.2 ≠ x) :
    ((List.range' beg len).map fun y => ((a.refill fun _ => 0).edges y).toNat).sum <
      ((List.range' beg len).map fun y => ((a.refill fun _ => 1).edges y).toNat).sum := by
  have hnot : x ∉ a.stores.map Prod.snd := by
    intro hmem
    obtain ⟨p, hp, heq⟩ := List.mem_map.mp hmem
    exact hstored p hp heq
  refine List.sum_lt_sum _ _ (fun y _ => ?_) ⟨x, hx, ?_⟩
  · simp only [EdgeArray.refill]
    split
    · exact le_rfl
    · exact Nat.zero_le _
  · simp only [EdgeArray.refill, if_neg hnot]
    exact Nat.zero_lt_one

/-- A slot nobody stores to shows in the row of its vertex. -/
theorem Loads.degree_of_writesRows (h : Loads file symmetric n mem outMem inMem s t)
    (hzero : ∀ i < n, mem.outEdgeOffsets i = 0)
    (hrows : ∀ fill : UInt32, WritesRows file ((t.refill fun _ => fill).graph file symmetric n s.offsets)) (v : ℕ) :
    file.degree Edge.src v ≤ 2 ^ 32 := by
  by_contra hv
  have hdeg := Nat.lt_of_not_le hv
  have hstarts := h.lanePrefix hzero
  have hsafe := (LaneSafe.rule hstarts Edge.dst outMem).out h.create (h.created.trans_ne nofun)
  have hvn := vertex_of_degree hstarts.key_lt ((Nat.zero_le _).trans_lt hdeg)
  have hbeg := hstarts.toNat_offsets hvn.le
  have hfin := hstarts.toNat_offsets (Nat.succ_le_of_lt hvn)
  rw [Nat.succ_eq_add_one, Slices.start_succ] at hfin
  have hrow : ∀ fill : UInt32, ((List.range' (Slices.start (file.degree Edge.src) v) (file.degree Edge.src v)).map
      ((t.arrays.outArray.refill fun _ => fill).edges)).Perm (file.neighbours Edge.src Edge.dst v) := by
    intro fill
    have hperm := ((writesRows_iff h.last).mp (hrows fill) v hvn).2.2
    change (slots _ (s.offsets.outEdgeOffsets v) (s.offsets.outEdgeOffsets (v + 1))).Perm _ at hperm
    rw [slots, hbeg, hfin, Nat.add_sub_cancel_left] at hperm
    exact hperm
  have hsum := (((hrow 0).trans (hrow 1).symm).map UInt32.toNat).sum_eq
  rw [List.map_map, List.map_map] at hsum
  refine absurd hsum (ne_of_lt (sum_refill_lt t.arrays.outArray (List.mem_range'_1.mpr ⟨?_, ?_⟩) (hsafe.not_stored hdeg)))
  · exact Nat.le_add_right _ _
  · exact Nat.add_lt_add_left hdeg _

theorem Loads.writesRows (h : Loads file symmetric n mem outMem inMem s t) (hzero : ∀ i < n, mem.outEdgeOffsets i = 0)
    (hdegree : ∀ v, file.degree Edge.src v ≤ 2 ^ 32) : WritesRows file (t.graph file symmetric n s.offsets) := by
  have hstarts := h.lanePrefix hzero
  have hok : LaneOk file n Edge.src s.offsets.outEdgeOffsets := ⟨hstarts.key_lt, hdegree, hstarts.offsets_eq⟩
  have hlane := (LaneInv.rule hok Edge.dst outMem).out h.create (h.created.trans_ne nofun)
  rw [createEdges_tasks h.create h.created] at hlane
  refine (writesRows_iff h.last).mpr fun i hi => ⟨?_, ?_, hlane.row hok i hi⟩
  · change (s.offsets.outEdgeOffsets i).toNat ≤ (s.offsets.outEdgeOffsets (i + 1)).toNat
    rw [hstarts.toNat_offsets (Nat.le_of_lt hi), hstarts.toNat_offsets hi]
    exact Slices.start_mono _ (Nat.le_succ i)
  · change (s.offsets.outEdgeOffsets (i + 1)).toNat ≤ file.nbEdges
    rw [hstarts.toNat_offsets hi, ← hstarts.start_eq]
    exact Slices.start_mono _ hi

/-- Where the loader gets past its assertions, the text loses nothing exactly when the out-offsets began with zeros, no
vertex has more out-edges than a cursor counts and, with `SYMMETRIC`, the stores to `in_edges` are inside; and these are
where the in-offsets began with zeros too. -/
theorem lossless_iff (h : ∃ outMem inMem s t, Loads file symmetric n mem outMem inMem s t) :
    (Lossless file symmetric n mem ↔ (∀ i < n, mem.outEdgeOffsets i = 0) ∧ (∀ v, file.outDegree v ≤ 2 ^ 32) ∧
      (symmetric = true → file.InStoresInside n mem)) ∧
    (symmetric = true → (∀ i < n, mem.inEdgeOffsets i = 0) → file.InStoresInside n mem) := by
  refine ⟨⟨fun hlossless => ?_, fun ⟨hzero, hdegree, hin⟩ outMem inMem s t hload => ?_⟩, fun hsym hzero => ?_⟩
  · obtain ⟨outMem, inMem, s, t, hload⟩ := h
    have hzero := hload.zero_of_writesRows (hlossless _ _ _ _ hload).2.2
    have hdegree := hload.degree_of_writesRows hzero fun fill => (hlossless _ _ _ _ (hload.refill fun _ => fill)).2.2
    refine ⟨hzero, hdegree, fun hsym => ?_⟩
    subst hsym
    have hbuilt := (hlossless _ _ _ _ hload).1
    exact hload.inStoresInside_iff.mp ⟨hbuilt.dst rfl, hbuilt.inn rfl⟩
  · exact ⟨hload.builtInside hzero hin, fun _ _ _ _ _ _ _ _ h' _ => hload.sameOut h', hload.writesRows hzero hdegree⟩
  · subst hsym
    obtain ⟨outMem, inMem, s, t, hload⟩ := h
    exact hload.inStoresInside_of_zero hzero

theorem exists_loads_of_counted (h : ∃ o, sumDegree symmetric n file.nbEdges (counted file symmetric mem) = some o) :
    ∃ outMem inMem s t, Loads file symmetric n mem outMem inMem s t := by
  obtain ⟨s, hs, hsp⟩ := (countDegree_ends_iff.mpr h).exists
  obtain ⟨t, ht, htp⟩ := (createEdges_completes file symmetric s.offsets (fun _ => 0) fun _ => 0).exists
  exact ⟨_, _, s, t, hs, hsp, ht, htp⟩

end Built

/-- Vertices without edges before, between and behind the others. -/
def gapFile : EdgeFile := ⟨[⟨3, 1⟩, ⟨1, 1⟩, ⟨3, 0⟩], by decide⟩

theorem gapFile_counted :
    ∃ o, sumDegree true 5 gapFile.nbEdges (counted gapFile true ⟨fun _ => 0, fun _ => 0⟩) = some o := by
  obtain ⟨b, hb⟩ := (sumDegreeBlock_isSome_iff gapFile (n := 5) (a := fun _ => 0) (fun _ _ => rfl)
    fun e => e.src.toNat).mpr (by decide)
  obtain ⟨c, hc⟩ := (sumDegreeBlock_isSome_iff gapFile (n := 5) (a := fun _ => 0) (fun _ _ => rfl)
    fun e => e.dst.toNat).mpr (by decide)
  exact ⟨⟨b, c⟩, sumDegree_eq_some.mpr ⟨hb, hc⟩⟩

theorem lossless_gap : Lossless gapFile true 5 ⟨fun _ => 0, fun _ => 0⟩ := by
  obtain ⟨hiff, hzeroed⟩ := lossless_iff (exists_loads_of_counted gapFile_counted)
  exact hiff.mpr ⟨fun _ _ => rfl, fun _ => List.countP_le_length.trans (by decide), fun hsym => hzeroed hsym fun _ _ => rfl⟩

/-- Old contents that cancel: the assertion passes over them. -/
def recycledMem : Offsets := ⟨fun i => if i = 0 then 1 else if i = 1 then -1 else 0, fun _ => 0⟩

theorem recycledMem_counted : ∃ o, sumDegree false 2 loopFile.nbEdges (counted loopFile false recycledMem) = some o := by
  refine ⟨⟨_, fun _ => 0⟩, sumDegree_eq_some.mpr ⟨sumDegreeBlock_eq_some.mpr ⟨?_, rfl⟩, rfl⟩⟩
  rw [Finset.sum_range_succ, Finset.sum_range_one]
  decide

/-- The first slice of its text reaches behind the only edge. -/
theorem not_lossless_recycled :
    ¬ ∀ (file : EdgeFile) (symmetric : Bool) (n : ℕ) (mem : Offsets),
      (∃ outMem inMem s t, Loads file symmetric n mem outMem inMem s t) → Lossless file symmetric n mem := by
  intro h
  have hloads := exists_loads_of_counted recycledMem_counted
  have hlossless := h loopFile false 2 recycledMem hloads
  obtain ⟨outMem, inMem, s, t, hload⟩ := hloads
  have hzero := hload.zero_of_writesRows (hlossless _ _ _ _ hload).2.2 0 (by decide)
  exact absurd hzero (by decide)

end GraphBenchmark
