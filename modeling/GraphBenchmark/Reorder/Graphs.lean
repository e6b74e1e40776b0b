import GraphBenchmark.Reorder.Sort
import GraphBenchmark.Loader.Csr
import GraphBenchmark.PageRank.Push

/-! # The graphs of a file and of its relabelling

The loader may scatter the edges of the two files in different orders, but their rows agree as multisets up to the
mapping. So the iterates of `pr_push` agree: its sums do not see the order. -/
namespace GraphBenchmark
open Interleaving Words
set_option autoImplicit false

/-- `out` is `file` under a mapping that numbers the vertices. -/
structure Relabelled (file out : EdgeFile) (n : ℕ) (l : List UInt32) (mapping : ℕ → UInt32) : Prop where
  numbers : Numbers n l mapping
  edges : out.edges = file.edges.map (Edge.relabel mapping)
  below : file.EndpointsBelow n
  le : n ≤ 2 ^ 32

section Relabel
variable {file out : EdgeFile} {n : ℕ} {l : List UInt32} {mapping : ℕ → UInt32} {u v w : UInt32}

theorem Relabelled.endpointsBelow (h : Relabelled file out n l mapping) : out.EndpointsBelow n := by
  intro e he
  rw [h.edges] at he
  obtain ⟨e₀, he₀, rfl⟩ := List.mem_map.mp he
  exact ⟨h.numbers.lt h.le (h.below e₀ he₀).1, h.numbers.lt h.le (h.below e₀ he₀).2⟩

theorem Relabelled.degree_le (h : Relabelled file out n l mapping) {key : Edge → UInt32}
    (hkey : ∀ e : Edge, key (e.relabel mapping) = mapping (key e).toNat) (hlt : ∀ e ∈ file.edges, (key e).toNat < n)
    {b : ℕ} (hb : ∀ v, file.degree key v ≤ b) (v : ℕ) : out.degree key v ≤ b := by
  by_cases hv : v < l.length
  · rw [h.numbers.degree h.le hkey hlt h.edges hv]
    exact hb _
  · have hnone : out.degree key v = 0 := by
      rw [EdgeFile.degree, h.edges, List.countP_map]
      refine List.countP_eq_zero.mpr fun e he => ?_
      have hlt' := h.numbers.lt h.le (hlt e he)
      have hlen := h.numbers.length_eq
      rw [Function.comp_apply, decide_eq_true_iff, hkey]
      omega
    omega

theorem Relabelled.count_edges (h : Relabelled file out n l mapping) (hu : u.toNat < n) (hv : v.toNat < n) :
    out.edges.count ⟨mapping u.toNat, mapping v.toNat⟩ = file.edges.count ⟨u, v⟩ := by
  rw [h.edges, List.count, List.count, List.countP_map]
  refine List.countP_congr fun e he => ?_
  obtain ⟨hsrc, hdst⟩ := h.below e he
  obtain ⟨a, b⟩ := e
  rw [Function.comp_apply, beq_iff_eq, beq_iff_eq, Edge.relabel, Edge.mk.injEq, Edge.mk.injEq]
  constructor
  · exact fun ⟨ha, hb⟩ => ⟨h.numbers.injective h.le hsrc hu ha, h.numbers.injective h.le hdst hv hb⟩
  · intro ⟨ha, hb⟩
    exact ⟨congrArg (fun x : UInt32 => mapping x.toNat) ha, congrArg (fun x : UInt32 => mapping x.toNat) hb⟩

variable {g g' : Graph}

theorem Graph.OutOf.count (h : g.OutOf file n) (hu : u.toNat < n) :
    (g.outSlice u.toNat).count v = file.edges.count ⟨u, v⟩ := by
  rw [(h.row _ hu).count_eq, file.count_destinations]

theorem Graph.OutOf.adj_iff (h : g.OutOf file n) (hu : u.toNat < n) : g.Adj u v ↔ (⟨u, v⟩ : Edge) ∈ file.edges := by
  rw [Graph.Adj, h.nbNodes, and_iff_right hu, ← List.count_pos_iff, h.count hu, List.count_pos_iff]

theorem Relabelled.adj_iff (h : Relabelled file out n l mapping) (hg : g.OutOf file n) (hg' : g'.OutOf out n)
    (hu : u.toNat < n) : g'.Adj (mapping u.toNat) w ↔ ∃ v, w = mapping v.toNat ∧ g.Adj u v := by
  rw [hg'.adj_iff (h.numbers.lt h.le hu), h.edges, List.mem_map]
  constructor
  · intro ⟨⟨a, b⟩, he, heq⟩
    obtain ⟨hsrc, hdst⟩ := Edge.mk.inj heq
    obtain rfl := h.numbers.injective h.le (h.below _ he).1 hu hsrc
    exact ⟨b, hdst.symm, (hg.adj_iff hu).mpr he⟩
  · intro ⟨v, hw, he⟩
    exact ⟨⟨u, v⟩, (hg.adj_iff hu).mp he, by rw [hw]; rfl⟩

theorem count_map_toNat (edges : List UInt32) (v : UInt32) : (edges.map UInt32.toNat).count v.toNat = edges.count v :=
  List.count_map_of_injective edges UInt32.toNat (fun _ _ h => UInt32.toNat_inj.mp h) v

/-- One iteration on the relabelled graph does the same to the values of the images. -/
theorem Relabelled.rankStep (h : Relabelled file out n l mapping) (hg : g.OutOf file n) (hg' : g'.OutOf out n)
    {p p' : ℕ → ℕ} (hp : ∀ v : UInt32, v.toNat < n → p' (mapping v.toNat).toNat = p v.toNat) (hv : v.toNat < n) :
    g'.rankStep p' (mapping v.toNat).toNat = g.rankStep p v.toNat := by
  have hbij := h.numbers.bijOn h.le
  have hsum : ∑ u ∈ Finset.range n, ((g.outSlice u).map UInt32.toNat).count v.toNat * (p u / 2) =
      ∑ u ∈ Finset.range n, ((g'.outSlice u).map UInt32.toNat).count (mapping v.toNat).toNat * (p' u / 2) := by
    refine Finset.sum_nbij (fun u => (mapping u).toNat) (fun u hu => ?_) ?_ ?_ fun u hu => ?_
    · exact Finset.mem_range.mpr (hbij.mapsTo (Finset.mem_range.mp hu))
    · rw [Finset.coe_range]
      exact hbij.injOn
    · rw [Finset.coe_range]
      exact hbij.surjOn
    · have hu' : (UInt32.ofNat u).toNat = u := toNat_ofNat32 ((Finset.mem_range.mp hu).trans_le h.le)
      have hlt : (UInt32.ofNat u).toNat < n := hu'.symm ▸ Finset.mem_range.mp hu
      have hcount := h.count_edges hlt hv
      rw [← hg'.count (h.numbers.lt h.le hlt), ← hg.count hlt] at hcount
      have hval := hp _ hlt
      rw [hu'] at hcount hval
      rw [count_map_toNat, count_map_toNat, hcount, hval]
  rw [Graph.rankStep, Graph.rankStep, hg.nbNodes, hg'.nbNodes, hsum]

theorem Relabelled.ranksAt (h : Relabelled file out n l mapping) (hg : g.OutOf file n) (hg' : g'.OutOf out n) (j : ℕ)
    (hv : v.toNat < n) : g'.ranksAt j (mapping v.toNat).toNat = g.ranksAt j v.toNat := by
  induction j generalizing v with
  | zero => rfl
  | succ j ih =>
    rw [ranksAt_succ, ranksAt_succ]
    exact h.rankStep hg hg' (fun _ hu => ih hu) hv

end Relabel

end GraphBenchmark
