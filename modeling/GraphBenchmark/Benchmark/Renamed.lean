import GraphBenchmark.Benchmark.Traversing
import GraphBenchmark.Reorder.Run

/-! # Traversing a file under other names

Where a file has the records of another one under new names, and no two of its vertices share a name, a traversal of
the one visits the new names of what a traversal of the other visits. -/
namespace GraphBenchmark
open Interleaving Levels
set_option autoImplicit false

/-- The records of `out` are those of `records` under the names of `mapping`, which tells the vertices in `S` apart. -/
structure Renamed (records out : EdgeFile) (S : Set UInt32) (mapping : ℕ → UInt32) : Prop where
  edges : out.edges = records.edges.map (Edge.relabel mapping)
  endpoints : ∀ e ∈ records.edges, e.src ∈ S ∧ e.dst ∈ S
  injOn : Set.InjOn (fun v : UInt32 => mapping v.toNat) S

/-- The traversal has visited the images of what the records lead to from `s`, and what it prints is their number. -/
structure HubState.Revisits (h : HubState) (records : EdgeFile) (mapping : ℕ → UInt32) (s : UInt32) : Prop where
  finished : h.finished
  visited : ∀ w : UInt32, h.visited w.toNat = 1 ↔ ∃ v, w = mapping v.toNat ∧ Relation.ReflTransGen records.Adj s v
  printed : ∀ c, h.printed = some c → c = {v | Relation.ReflTransGen records.Adj s v}.ncard

namespace Renamed
variable {records out : EdgeFile} {S : Set UInt32} {mapping : ℕ → UInt32} {s u v w : UInt32}
  (h : Renamed records out S mapping)
include h

theorem mem_of_reach (hs : s ∈ S) (hr : Relation.ReflTransGen records.Adj s v) : v ∈ S := by
  cases hr with
  | refl => exact hs
  | tail _ he => exact (h.endpoints _ he).2

theorem adj_iff (hu : u ∈ S) : out.Adj (mapping u.toNat) w ↔ ∃ v, w = mapping v.toNat ∧ records.Adj u v := by
  rw [EdgeFile.Adj, h.edges, List.mem_map]
  constructor
  · intro ⟨⟨a, b⟩, he, heq⟩
    obtain ⟨hsrc, hdst⟩ := Edge.mk.inj heq
    obtain rfl := h.injOn (h.endpoints _ he).1 hu hsrc
    exact ⟨b, hdst.symm, he⟩
  · intro ⟨v, hw, he⟩
    exact ⟨⟨u, v⟩, he, by rw [hw]; rfl⟩

theorem reach_iff (hs : s ∈ S) :
    Relation.ReflTransGen out.Adj (mapping s.toNat) w ↔
      ∃ v, w = mapping v.toNat ∧ Relation.ReflTransGen records.Adj s v := by
  have hdist : ∀ k w, DistIs out.Adj (mapping s.toNat) k w ↔ ∃ v, w = mapping v.toNat ∧ DistIs records.Adj s k v :=
    fun _ _ => distIs_map_iff (π := fun v : UInt32 => mapping v.toNat)
      (fun _ _ hu hv => h.injOn (h.mem_of_reach hs hu) (h.mem_of_reach hs hv))
      fun _ _ hu => h.adj_iff (h.mem_of_reach hs hu)
  simp only [reach_iff_distIs, hdist]
  constructor
  · intro ⟨k, v, hw, hv⟩
    exact ⟨v, hw, k, hv⟩
  · intro ⟨v, hw, k, hv⟩
    exact ⟨k, v, hw, hv⟩

/-- The new names change no number of vertices reached. -/
theorem ncard_reach (hs : s ∈ S) :
    {w | Relation.ReflTransGen out.Adj (mapping s.toNat) w}.ncard =
      {v | Relation.ReflTransGen records.Adj s v}.ncard := by
  have himage : {w | Relation.ReflTransGen out.Adj (mapping s.toNat) w} =
      (fun v : UInt32 => mapping v.toNat) '' {v | Relation.ReflTransGen records.Adj s v} := by
    ext w
    rw [Set.mem_ofPred_eq, h.reach_iff hs]
    constructor
    · intro ⟨v, hw, hv⟩
      exact ⟨v, hv, hw.symm⟩
    · intro ⟨v, hv, hw⟩
      exact ⟨v, hw.symm, hv⟩
  rw [himage]
  exact (h.injOn.mono fun _ hv => h.mem_of_reach hs hv).ncard_image

theorem revisits {x : HubState} (hs : s ∈ S) (hs₀ : mapping s.toNat = 0) (hvis : x.Visits out 0) :
    x.Revisits records mapping s := by
  refine ⟨hvis.finished, fun w => ?_, fun c hc => ?_⟩
  · rw [hvis.visited, ← hs₀, h.reach_iff hs]
  · rw [hvis.printed c hc, ← hs₀, h.ncard_reach hs]

theorem countP_key_le {key : Edge → UInt32} (hkey : ∀ e : Edge, key (e.relabel mapping) = mapping (key e).toNat)
    (hmem : ∀ e ∈ records.edges, key e ∈ S) {b : ℕ} (hb : ∀ v, records.edges.countP (fun e => (key e).toNat = v) ≤ b)
    (v : ℕ) :
    out.edges.countP (fun e => (key e).toNat = v) ≤ b := by
  rw [h.edges, List.countP_map]
  by_cases hex : ∃ e ∈ records.edges, (mapping (key e).toNat).toNat = v
  · obtain ⟨e₀, he₀, rfl⟩ := hex
    refine le_trans (List.countP_mono_left fun e he heq => ?_) (hb (key e₀).toNat)
    rw [Function.comp_apply, decide_eq_true_iff, hkey] at heq
    rw [decide_eq_true_iff, h.injOn (hmem e he) (hmem e₀ he₀) (UInt32.toNat_inj.mp heq)]
  · rw [List.countP_eq_zero.mpr fun e he heq => ?_]
    · exact Nat.zero_le b
    · rw [Function.comp_apply, decide_eq_true_iff, hkey] at heq
      exact hex ⟨e, he, heq⟩

theorem endpointsBelow {n : ℕ} (hlt : ∀ v ∈ S, (mapping v.toNat).toNat < n) : out.EndpointsBelow n := by
  intro e he
  rw [h.edges] at he
  obtain ⟨e, hmem, rfl⟩ := List.mem_map.mp he
  exact ⟨hlt _ (h.endpoints e hmem).1, hlt _ (h.endpoints e hmem).2⟩

theorem fits {symmetric : Bool} {n : ℕ} (hlt : ∀ v ∈ S, (mapping v.toNat).toNat < n) (hfits : records.Fits symmetric n) :
    out.Fits symmetric n where
  outDegree := h.countP_key_le (fun _ => rfl) (fun e he => (h.endpoints e he).1) hfits.outDegree
  inDegree := fun hsym => h.countP_key_le (fun _ => rfl) (fun e he => (h.endpoints e he).2) (hfits.inDegree hsym)
  dst := fun _ e he => (h.endpointsBelow hlt e he).2

/-- Traversing the renamed file, from its bytes. -/
theorem traversed {b : BenchArgs} {m : Machine} {file : InputFile} (hrecords : file.edgeFile m.byteorder = out)
    (hlt : ∀ v ∈ S, (mapping v.toNat).toNat < b.nbNodes.toNat) (hn₀ : (0 : UInt32).toNat < b.nbNodes.toNat)
    (hT : 0 < b.threads.toInt.toNat) (hn : b.nbNodes.toNat < 2 ^ 32) (hout : b.output = none)
    (hmode : b.mode = 0 ∨ b.symmetric = true ∧ (b.mode = 1 ∨ b.mode = 2)) (hm : m.Fresh b.nbNodes.toNat)
    (hfits : records.Fits b.symmetric b.nbNodes.toNat) (hs : s ∈ S) (hs₀ : mapping s.toNat = 0) :
    Ends (benchmarkDistinct b m file) (.inl (.inl (ReadState.init file m.edges))) fun y =>
      (∃ s, y = .inl s ∧ s.died = true) ∨ ∃ g h, y = .inr (g, h) ∧ h.Revisits records mapping s := by
  have hfits' := h.fits hlt hfits
  subst hrecords
  refine (benchmark_traversed hn₀ hT hn hout hmode hm hfits').mono fun y _ hy => ?_
  cases hy with
  | died s hy hdied => exact Or.inl ⟨s, hy, hdied⟩
  | aborted s hy haborted hadm =>
    have hbelow := h.endpointsBelow hlt
    exact absurd ⟨fun e he => (hbelow e he).1, fun _ e he => (hbelow e he).2⟩ hadm
  | visited g x hy hadm hvis => exact Or.inr ⟨g, x, hy, h.revisits hs hs₀ hvis⟩

end Renamed

end GraphBenchmark
