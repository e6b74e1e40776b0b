import GraphBenchmark.Reorder.Graphs
import GraphBenchmark.Bfs.PushLevels

/-! # The levels of a graph and of its relabelling

`bfs_push` on the relabelled graph skips the edges of the vertex that got the id `lastId`, and on the graph those of
`lastId` itself. So the levels correspond from every source exactly when these are one vertex or neither has an edge
to another one (`Relabelled.levels_iff`). -/
namespace GraphBenchmark
open Interleaving Levels
set_option autoImplicit false

/-- Every edge at `v` is a loop. -/
def EdgeFile.Idle (file : EdgeFile) (v : UInt32) : Prop := ∀ w, (⟨v, w⟩ : Edge) ∈ file.edges → w = v

/-- The levels of `bfs_push` are carried over by the mapping, from every source. -/
def SameLevels (g g' : Graph) (n : ℕ) (mapping : ℕ → UInt32) : Prop :=
  ∀ s : UInt32, s.toNat < n → ∀ k w, g'.PushLevel (mapping s.toNat) k w ↔ ∃ v, w = mapping v.toNat ∧ g.PushLevel s k v

def ReadAfter (g : Graph) (mapping : ℕ → UInt32) (u v : UInt32) : Prop := g.Adj u v ∧ mapping u.toNat ≠ lastId

section Levels
variable {file out : EdgeFile} {n k : ℕ} {l : List UInt32} {mapping : ℕ → UInt32} {g g' : Graph} {s u v w : UInt32}

theorem Graph.OutOf.reach_lt {E : UInt32 → UInt32 → Prop} (h : g.OutOf file n) (hE : ∀ u v, E u v → g.Adj u v)
    (hs : s.toNat < n) (hr : Relation.ReflTransGen E s v) : v.toNat < n :=
  h.nbNodes ▸ GraphBenchmark.reach_lt h.csr (h.nbNodes.symm ▸ hs) (Relation.ReflTransGen.mono hE _ _ hr)

theorem Graph.OutOf.pushLevel_iff (h : g.OutOf file n) (hs : s.toNat < n) :
    g.PushLevel s k v ↔ DistIs (CutOut g.Adj lastId) s k v := by
  rw [GraphBenchmark.pushLevel_iff, distIs_outRead h.csr (h.nbNodes.symm ▸ hs)]

theorem Relabelled.pushLevel_iff (h : Relabelled file out n l mapping) (hg : g.OutOf file n) (hg' : g'.OutOf out n)
    (hs : s.toNat < n) :
    g'.PushLevel (mapping s.toNat) k w ↔ ∃ v, w = mapping v.toNat ∧ DistIs (ReadAfter g mapping) s k v := by
  have hlt : ∀ {u}, Relation.ReflTransGen (ReadAfter g mapping) s u → u.toNat < n := fun hu =>
    hg.reach_lt (fun _ _ he => he.1) hs hu
  rw [hg'.pushLevel_iff (h.numbers.lt h.le hs)]
  refine distIs_map_iff (π := fun v : UInt32 => mapping v.toNat)
    (fun u v hu hv => h.numbers.injective h.le (hlt hu) (hlt hv)) fun u w hu => ?_
  unfold CutOut ReadAfter
  rw [h.adj_iff hg hg' (hlt hu), ← exists_and_right]
  exact exists_congr fun v => and_assoc

theorem Relabelled.sameLevels_iff (h : Relabelled file out n l mapping) (hg : g.OutOf file n) (hg' : g'.OutOf out n) :
    SameLevels g g' n mapping ↔ ∀ s : UInt32, s.toNat < n → ∀ k v,
      DistIs (ReadAfter g mapping) s k v ↔ DistIs (CutOut g.Adj lastId) s k v := by
  refine forall_congr' fun s => forall_congr' fun hs => forall_congr' fun k => ?_
  have hlt : ∀ {E : UInt32 → UInt32 → Prop} {v}, (∀ u v, E u v → g.Adj u v) → DistIs E s k v → v.toNat < n :=
    fun hE hv => hg.reach_lt hE hs hv.reach
  simp only [h.pushLevel_iff hg hg' hs, hg.pushLevel_iff hs]
  constructor
  · intro hw v
    constructor
    · intro hv
      obtain ⟨v', heq, hv'⟩ := (hw _).mp ⟨v, rfl, hv⟩
      rwa [h.numbers.injective h.le (hlt (fun _ _ he => he.1) hv) (hlt (fun _ _ he => he.1) hv') heq]
    · intro hv
      obtain ⟨v', heq, hv'⟩ := (hw _).mpr ⟨v, rfl, hv⟩
      rwa [h.numbers.injective h.le (hlt (fun _ _ he => he.1) hv) (hlt (fun _ _ he => he.1) hv') heq]
  · exact fun hv w => exists_congr fun v => and_congr_right fun _ => hv v

/-- The levels correspond exactly when the vertex with the new id `lastId`, if there is one, is `lastId` or both are
idle. -/
theorem Relabelled.levels_iff (h : Relabelled file out n l mapping) (hg : g.OutOf file n) (hg' : g'.OutOf out n) :
    SameLevels g g' n mapping ↔
      ∀ x : UInt32, x.toNat < n → mapping x.toNat = lastId → x = lastId ∨ file.Idle x ∧ file.Idle lastId := by
  rw [h.sameLevels_iff hg hg']
  -- with a vertex `x` of that id, its edges are the ones that are skipped
  have hskip : ∀ x : UInt32, x.toNat < n → mapping x.toNat = lastId → ∀ s : UInt32, s.toNat < n → ∀ k v,
      DistIs (ReadAfter g mapping) s k v ↔ DistIs (CutOut g.Adj x) s k v := by
    intro x hx hmx s hs k v
    refine distIs_congr fun u v hu => and_congr_right fun _ => not_congr ?_
    have hlt := hg.reach_lt (fun _ _ he => he.1) hs hu
    constructor
    · exact fun hm => h.numbers.injective h.le hlt hx (hm.trans hmx.symm)
    · exact fun hux => hux ▸ hmx
  have hidle : ∀ x : UInt32, x.toNat < n → ((∀ w, g.Adj x w → w = x) ↔ file.Idle x) := fun x hx =>
    forall_congr' fun w => imp_congr_left (hg.adj_iff hx)
  by_cases hex : ∃ x : UInt32, x.toNat < n ∧ mapping x.toNat = lastId
  · obtain ⟨x, hx, hmx⟩ := hex
    have hn : n = 2 ^ 32 := by
      have hlt := h.numbers.lt h.le hx
      have hle := h.le
      rw [hmx, toNat_lastId] at hlt
      omega
    have hall : ∀ s : UInt32, s.toNat < n := fun s => hn ▸ s.toNat_lt
    have hiff : (∀ s : UInt32, s.toNat < n → ∀ k v,
        DistIs (ReadAfter g mapping) s k v ↔ DistIs (CutOut g.Adj lastId) s k v) ↔
        x = lastId ∨ file.Idle x ∧ file.Idle lastId := by
      rw [← hidle x hx, ← hidle lastId (hall _), ← distIs_cutOut_eq_iff]
      refine forall_congr' fun s => ⟨fun hs k v => ?_, fun hs _ k v => ?_⟩
      · rw [← hskip x hx hmx s (hall s), hs (hall s)]
      · rw [hskip x hx hmx s (hall s), hs]
    rw [hiff]
    constructor
    · intro hc y hy hmy
      rwa [h.numbers.injective h.le hy hx (hmy.trans hmx.symm)]
    · exact fun hc => hc x hx hmx
  · refine iff_of_true (fun s hs k v => distIs_congr fun u v hu => and_congr_right fun _ => ?_)
      fun x hx hmx => absurd ⟨x, hx, hmx⟩ hex
    have hlt := hg.reach_lt (fun _ _ he => he.1) hs hu
    refine iff_of_true (fun hm => hex ⟨u, hlt, hm⟩) fun hul => ?_
    -- then `lastId` is no vertex
    have hlast : lastId.toNat < n := hul ▸ hlt
    obtain ⟨j, hj, hmj⟩ := (h.numbers.bijOn h.le).surjOn hlast
    have hj' : (UInt32.ofNat j).toNat = j := Words.toNat_ofNat32 (lt_of_lt_of_le hj h.le)
    exact hex ⟨UInt32.ofNat j, hj'.symm ▸ hj, by rw [hj']; exact UInt32.toNat_inj.mp hmj⟩

end Levels

end GraphBenchmark
