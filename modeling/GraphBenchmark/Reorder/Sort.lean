import GraphBenchmark.Reorder.Run
import GraphBenchmark.Loader.Edges

/-! # The relabelling by degree

A mapping that numbers the vertices in a sorted order is an isomorphism onto the output, and in the output the
out-degrees rise or fall with the id. -/
namespace GraphBenchmark
open Interleaving Words
set_option autoImplicit false

/-- `out` is the file relabelled by degree; a vertex that keeps its id is left out of the order. -/
structure IsDegreeSort (file : EdgeFile) (n : ℕ) (ascending maintain : Bool) (mapping : ℕ → UInt32)
    (out : EdgeFile) : Prop where
  bijOn : Set.BijOn (fun v => (mapping v).toNat) (Set.Iio n) (Set.Iio n)
  edges : out.edges = file.edges.map (Edge.relabel mapping)
  monotone : ∀ i j, (if maintain then 1 else 0) ≤ i → i ≤ j → j < n →
    if ascending then out.outDegree i ≤ out.outDegree j else out.outDegree j ≤ out.outDegree i
  zero : maintain = true → mapping 0 = 0

section Relabel
variable {file out : EdgeFile} {n : ℕ} {ascending maintain : Bool} {l : List UInt32} {mem mapping : ℕ → UInt32}

theorem Numbers.degree (h : Numbers n l mapping) (hn : n ≤ 2 ^ 32) {key : Edge → UInt32}
    (hkey : ∀ e : Edge, key (e.relabel mapping) = mapping (key e).toNat) (hlt : ∀ e ∈ file.edges, (key e).toNat < n)
    (hout : out.edges = file.edges.map (Edge.relabel mapping)) {j : ℕ} (hj : j < l.length) :
    out.degree key j = file.degree key l[j].toNat := by
  rw [EdgeFile.degree, EdgeFile.degree, hout, List.countP_map]
  refine List.countP_congr fun e he => ?_
  rw [Function.comp_apply, decide_eq_true_iff, decide_eq_true_iff, hkey, UInt32.toNat_inj]
  exact h.eq_getElem_iff hn (hlt e he) hj

theorem Numbers.outDegree (h : Numbers n l mapping) (hn : n ≤ 2 ^ 32) (hfile : file.EndpointsBelow n)
    (hout : out.edges = file.edges.map (Edge.relabel mapping)) {j : ℕ} (hj : j < l.length) :
    out.outDegree j = file.outDegree l[j].toNat :=
  h.degree hn (fun _ => rfl) (fun e he => (hfile e he).1) hout hj

theorem degree_le_of_not_comesBefore (hdeg : ∀ v, file.outDegree v < 2 ^ 32) {a b : UInt32}
    (ha : mem a.toNat = 0) (hb : mem b.toNat = 0) (h : comesBefore ascending (file.counters mem) b a = false) :
    if ascending then file.outDegree a.toNat ≤ file.outDegree b.toNat
    else file.outDegree b.toNat ≤ file.outDegree a.toNat := by
  have hcount : ∀ v : UInt32, mem v.toNat = 0 → (file.counters mem v.toNat).toNat = file.outDegree v.toNat := by
    intro v hv
    rw [EdgeFile.counters, hv, zero_add, toNat_ofNat32 (hdeg _)]
  rw [← Bool.not_eq_true, comesBefore_iff, Nat.not_lt, sortKey, sortKey, hcount a ha, hcount b hb] at h
  have hlta := hdeg a.toNat
  have hltb := hdeg b.toNat
  cases ascending with
  | false =>
    rw [if_neg Bool.false_ne_true, if_neg Bool.false_ne_true] at h
    rw [if_neg Bool.false_ne_true]
    omega
  | true => exact h

theorem Relabels.isDegreeSort (h : Relabels file n ascending maintain mem mapping) (hn₀ : 0 < n) (hn : n ≤ 2 ^ 32)
    (hfile : file.EndpointsBelow n) (hdeg : ∀ v, file.outDegree v < 2 ^ 32) (hmem : ∀ v < n, mem v = 0)
    (hout : out.edges = file.edges.map (Edge.relabel mapping)) : IsDegreeSort file n ascending maintain mapping out := by
  obtain ⟨l, hl, hnum⟩ := h
  have hlen := hnum.length_eq
  refine ⟨hnum.bijOn hn, hout, fun i j hi hij hj => ?_, fun hm => ?_⟩
  · rcases Nat.eq_or_lt_of_le hij with heq | hlt
    · subst heq
      split <;> exact le_rfl
    · have hj' : j < (newOrder maintain l).length := by omega
      have hi' : i < (newOrder maintain l).length := by omega
      rw [hnum.outDegree hn hfile hout hi', hnum.outDegree hn hfile hout hj']
      exact degree_le_of_not_comesBefore hdeg (hmem _ (hnum.getElem_lt hn hi')) (hmem _ (hnum.getElem_lt hn hj'))
        (newOrder_pairwise maintain hl.2 i j hj' hlt hi)
  · subst hm
    exact hnum.at_index 0 (by omega)

/-- `sort_by_degree` relabels the graph by degree, whatever the schedule and the ties. -/
theorem sortByDegree_exact (hn₀ : 1 ≤ n) (hn : n ≤ 2 ^ 32) (hfile : file.EndpointsBelow n)
    (hdeg : ∀ v, file.outDegree v < 2 ^ 32) (hmem : ∀ v < n, mem v = 0) (ascending maintain : Bool)
    (ordered mapping : ℕ → UInt32) :
    Ends (sortByDegree n file.nbEdges ascending maintain) (SortState.init file mem ordered mapping) fun s =>
      s.pc = .done ∧ IsDegreeSort file n ascending maintain s.mapping (s.output file) :=
  (sortByDegree_ends hn₀ hn ordered mapping).mono fun _ _ ⟨hs, hp⟩ =>
    ⟨hp, (hs.done hp).1.isDegreeSort hn₀ hn hfile hdeg hmem (hs.done hp).2⟩

/-- A file with a tie between `0` and `2`. -/
def tiedFile : EdgeFile := ⟨[⟨0, 1⟩, ⟨1, 1⟩, ⟨1, 2⟩, ⟨2, 0⟩], by decide⟩

theorem sortByDegree_exact_tied :
    Ends (sortByDegree 3 4 false true) (SortState.init tiedFile (fun _ => 0) (fun _ => 7) fun _ => 7) fun s =>
      s.pc = .done ∧ IsDegreeSort tiedFile 3 false true s.mapping (s.output tiedFile) :=
  @sortByDegree_exact tiedFile 3 _ (by decide) (by decide) (by decide)
    (fun _ => List.countP_le_length.trans_lt (by decide)) (fun _ _ => rfl) false true _ _

end Relabel

end GraphBenchmark
