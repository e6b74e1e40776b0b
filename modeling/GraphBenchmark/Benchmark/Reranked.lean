import GraphBenchmark.Benchmark.Reordered
import GraphBenchmark.PageRank.Hub

/-! # Ranks under other names

One iteration over the records commutes with a renaming of the vertices, so the ranks of a reordered file are those of
the original one under the new names. -/
namespace GraphBenchmark
open Interleaving Words
set_option autoImplicit false

namespace Renamed
variable {records out : EdgeFile} {S : Set UInt32} {mapping : ℕ → UInt32} {v : UInt32} {p q : ℕ → ℕ}
  (h : Renamed records out S mapping)
include h

theorem arriving_eq (hpq : ∀ u ∈ S, q (mapping u.toNat).toNat = p u.toNat) (hv : v ∈ S) :
    out.arriving q (mapping v.toNat).toNat = records.arriving p v.toNat := by
  have hdst : records.edges.filter (fun e => (e.relabel mapping).dst.toNat = (mapping v.toNat).toNat) =
      records.edges.filter fun e => e.dst.toNat = v.toNat := by
    refine List.filter_congr fun e he => decide_eq_decide.mpr ?_
    constructor
    · intro heq
      exact congrArg UInt32.toNat (h.injOn (h.endpoints e he).2 hv (UInt32.toNat_inj.mp heq))
    · intro heq
      rw [Edge.relabel, heq]
  rw [EdgeFile.arriving, h.edges, List.filter_map, List.map_map]
  refine congrArg List.sum ((List.map_congr_left fun e he => ?_).trans (congrArg (List.map _) hdst))
  exact hpq e.src (h.endpoints e (List.mem_of_mem_filter he)).1

theorem rankStep_eq (hpq : ∀ u ∈ S, q (mapping u.toNat).toNat = p u.toNat) (hv : v ∈ S) :
    out.rankStep q (mapping v.toNat).toNat = records.rankStep p v.toNat := by
  have harriving :=
    h.arriving_eq (p := fun u => p u / 2) (q := fun u => q u / 2) (fun u hu => congrArg (· / 2) (hpq u hu)) hv
  rw [EdgeFile.rankStep, EdgeFile.rankStep, harriving]

/-- The iterates commute with the new names. -/
theorem iterate_eq (k : ℕ) : ∀ v ∈ S,
    out.rankStep^[k] (fun _ => 4) (mapping v.toNat).toNat = records.rankStep^[k] (fun _ => 4) v.toNat := by
  induction k with
  | zero => exact fun _ _ => rfl
  | succ k ih =>
    intro v hv
    rw [Function.iterate_succ_apply', Function.iterate_succ_apply']
    exact h.rankStep_eq ih hv

end Renamed

section Pipeline
variable {input output : String} {opts : List ReorderOption} {a : ReorderArgs} {m : ReorderMachine} {m' : Machine}
  {file out : InputFile} {files : String → Option InputFile} {x₀ x : ReorderState} {symmetric : Bool}
  {mem : ℕ → RankCell} {iteration : Int32}

end Pipeline

end GraphBenchmark
