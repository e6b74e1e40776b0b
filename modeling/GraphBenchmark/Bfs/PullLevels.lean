import GraphBenchmark.Bfs.Pull
import GraphBenchmark.Bfs.PushLevels

/-! # The levels of `bfs_pull`

`PullExact` is what `bfs_pull` should do on maps that start out false: go through the levels of the graph
and end with the array of `bfs_push`. It does so exactly when `lastId`, whose in-slice it does not see, is
idle. -/
namespace GraphBenchmark
open Interleaving Levels
set_option autoImplicit false

/-- At the start of round `k`. -/
def AtRound (E : UInt32 → UInt32 → Prop) (n : ℕ) (start : UInt32) (k : ℕ) (s : PullState) : Prop :=
  ∀ v : UInt32, v.toNat < n → (s.inFrontier v.toNat = true ↔ DistIs E start k v) ∧
    s.shared.inFrontierNext v.toNat = false ∧ (s.shared.visited v.toNat = 1 ↔ Within E start k v)

structure PullExact (g : Graph) (start : UInt32) : Prop where
  level : ∀ mem memNext, Blank g.nbNodes mem → Blank g.nbNodes memNext → ∀ s,
    Reach (pullLoop g) (PullState.init start mem memNext) s → s.pc = .head → AtRound g.Adj g.nbNodes start s.iterations s
  ends : ∀ mem memNext, Blank g.nbNodes mem → Blank g.nbNodes memNext →
    Ends (pullLoop g) (PullState.init start mem memNext) fun s => s.pc = .done ∧
      ∀ v : UInt32, s.shared.visited v.toNat = 1 ↔ Relation.ReflTransGen g.Adj start v
  push : ∀ mem memNext, Blank g.nbNodes mem → Blank g.nbNodes memNext → ∀ s,
    Reach (pullLoop g) (PullState.init start mem memNext) s → s.pc = .done → ∀ threads pmem bufferMem t c, 0 < threads →
      Reach (bfsPush g threads .whole) (PushState.init g start pmem bufferMem) t → t.pc = .done c →
      s.shared.visited = t.shared.visited

section Exact
variable {g : Graph} {start : UInt32} {mem memNext : ℕ → Bool} {s : PullState}

theorem cfg_init_blank (hs : start.toNat < g.nbNodes) (hmem : Blank g.nbNodes mem) (hnext : Blank g.nbNodes memNext) :
    (PullState.init start mem memNext).cfg g = Cfg.level g.Pulls start 0 := by
  rw [cfg_init, entry_blank hmem hnext fun v hv => ?_]
  · refine Cfg.ext_iff'.mpr ⟨fun v => ?_, fun v => ?_, fun v => Iff.rfl⟩
    · exact within_zero_iff.trans within_zero_iff.symm
    · exact distIs_zero_iff.trans distIs_zero_iff.symm
  · obtain rfl := distIs_zero_iff.mp hv
    exact hs

theorem pullInv_of_reach (hin : g.InWellFormed) (hs : start.toNat < g.nbNodes) (hmem : Blank g.nbNodes mem)
    (hnext : Blank g.nbNodes memNext) (h : Reach (pullLoop g) (PullState.init start mem memNext) s) :
    PullInv g (Cfg.level g.Pulls start 0) s := by
  rw [← cfg_init_blank hs hmem hnext]
  exact h.invariant (pullInv_enter (Bytes.zero.mark start)) fun _ _ _ hu ha => pullInv_step hin hu ha

theorem pullLoop_reach (hin : g.InWellFormed) (hs : start.toNat < g.nbNodes) (hmem : Blank g.nbNodes mem)
    (hnext : Blank g.nbNodes memNext) :
    Ends (pullLoop g) (PullState.init start mem memNext) fun s => s.pc = .done ∧
      ∀ v : UInt32, s.shared.visited v.toNat = 1 ↔ Relation.ReflTransGen g.Pulls start v :=
  (pullLoop_ends hin (Bytes.zero.mark start)).mono fun _ hr ⟨_, hp⟩ =>
    ⟨hp, (pullInv_of_reach hin hs hmem hnext hr).reach hp⟩

theorem PullInv.atRound (h : PullInv g (Cfg.level g.Pulls start 0) s) (hp : s.pc = .head) :
    AtRound g.Pulls g.nbNodes start s.iterations s := by
  obtain ⟨hcfg, -⟩ := h.head hp
  rw [Cfg.rounds_level, Nat.zero_add] at hcfg
  obtain ⟨hvis, hfront, hnext⟩ := Cfg.ext_iff'.mp hcfg
  intro v hv
  refine ⟨(and_iff_right hv).symm.trans (hfront v), ?_, ?_⟩
  · exact Bool.eq_false_of_not_eq_true fun h => (hnext v).mp ⟨hv, h⟩
  · exact (h.bytes.ne_zero_iff v.toNat).symm.trans (hvis v)

/-- An exact `bfs_pull` reaches along the edges it reads what is reachable in the graph. -/
theorem PullExact.reach_iff (hexact : PullExact g start) (hin : g.InWellFormed) (hs : start.toNat < g.nbNodes)
    (v : UInt32) : Relation.ReflTransGen g.Adj start v ↔ Relation.ReflTransGen g.Pulls start v := by
  have hblank : Blank g.nbNodes fun _ => false := fun _ _ => rfl
  have hpull := pullLoop_reach hin hs hblank hblank
  obtain ⟨s, hr, hn⟩ := hpull.1.exists_stuck
  rw [← ((hexact.ends _ _ hblank hblank).2 s hr hn).2, (hpull.2 s hr hn).2]

theorem PullExact.reach_iff_push (hexact : PullExact g start) (v : UInt32) :
    Relation.ReflTransGen g.Adj start v ↔ Relation.ReflTransGen g.OutRead start v := by
  have hblank : Blank g.nbNodes fun _ => false := fun _ _ => rfl
  obtain ⟨s, hr, hp, hvis⟩ := (hexact.ends _ _ hblank hblank).exists
  obtain ⟨t, htr, -, c, htp⟩ := (bfsPush_ends g start Nat.one_pos (fun _ => 0) fun _ _ => 0).exists
  rw [← hvis, hexact.push _ _ hblank hblank s hr hp 1 _ _ t c Nat.one_pos htr htp, bfsPush_visited Nat.one_pos htr htp]

/-- `bfs_pull` is exact exactly when `lastId` is idle, so on every graph of up to `2^32-1` vertices. -/
theorem pullExact_iff (hout : g.OutWellFormed) (hin : g.InWellFormed) (ht : g.Transposed)
    (hs : start.toNat < g.nbNodes) : PullExact g start ↔ g.LastIdle start := by
  constructor
  · intro hexact
    exact lastIdle_of_reach hout hin ht hs (hexact.reach_iff hin hs) hexact.reach_iff_push
  · intro hidle
    have hE : ∀ k v, DistIs g.Pulls start k v ↔ DistIs g.Adj start k v := fun k v =>
      (distIs_pulls hout hin ht hs k v).symm.trans (hidle.cutIn k v).symm
    have hE' : ∀ k v, DistIs g.OutRead start k v ↔ DistIs g.Adj start k v := fun k v =>
      (distIs_outRead hout hs k v).symm.trans (hidle.cutOut k v).symm
    refine ⟨fun mem memNext hmem hnext s hr hp => ?_, fun mem memNext hmem hnext => ?_,
      fun mem memNext hmem hnext s hr hp threads pmem bufferMem t c hT htr htp => ?_⟩
    · intro v hv
      obtain ⟨h₁, h₂, h₃⟩ := (pullInv_of_reach hin hs hmem hnext hr).atRound hp v hv
      exact ⟨h₁.trans (hE _ v), h₂, h₃.trans (within_congr hE)⟩
    · refine (pullLoop_reach hin hs hmem hnext).mono fun s _ ⟨hp, hvis⟩ => ⟨hp, fun v => ?_⟩
      rw [hvis, reach_congr hE]
    · have hinv := pullInv_of_reach hin hs hmem hnext hr
      obtain ⟨hlevel, -⟩ := (pushInv_of_reach hT htr).done c htp
      refine hinv.bytes.ext hlevel.bytes fun v => ?_
      rw [hinv.reach hp, bfsPush_visited hT htr htp, reach_congr hE, reach_congr hE']

end Exact

theorem lastIdle_of_lt {g : Graph} {start : UInt32} (h : g.OutWellFormed) (hs : start.toNat < g.nbNodes)
    (hn : g.nbNodes < 2 ^ 32) : g.LastIdle start := by
  refine Or.inl fun hr => ?_
  have hlt := reach_lt h hs hr
  rw [toNat_lastId] at hlt
  omega

theorem edgeGraph_inWellFormed : edgeGraph.InWellFormed := by
  refine ⟨rfl, ?_, rfl, ?_⟩ <;> decide

theorem Graph.transposed_of_forall {g : Graph} (h : ∀ i < g.nbNodes, ∀ j < g.nbNodes,
    (UInt32.ofNat j ∈ g.outSlice i ↔ UInt32.ofNat i ∈ g.inSlice j)) : g.Transposed := by
  intro u v hu hv
  have huv := h u.toNat hu v.toNat hv
  rwa [UInt32.ofNat_toNat, UInt32.ofNat_toNat] at huv

theorem edgeGraph_transposed : edgeGraph.Transposed := Graph.transposed_of_forall (by decide)

theorem pullExact_edge : PullExact edgeGraph 0 :=
  (pullExact_iff edgeGraph_outWellFormed edgeGraph_inWellFormed edgeGraph_transposed (by decide)).mpr
    (lastIdle_of_lt edgeGraph_outWellFormed (by decide) (by decide))

theorem wrapGraph_inWellFormed : wrapGraph.InWellFormed := by
  refine ⟨rfl, fun v hv => ?_, rfl, fun x _ => UInt32.toNat_lt _⟩
  have hv' : v < 2 ^ 32 := hv
  unfold wrapGraph
  simp only [hv', if_true]
  split <;> split <;> try split
  all_goals first | decide | omega

theorem wrapGraph_outSlice (u v : UInt32) :
    v ∈ wrapGraph.outSlice u.toNat ↔ u = 0 ∧ v = lastId ∨ u = lastId ∧ v = 1 := by
  have hlt := u.toNat_lt
  by_cases h₀ : u = 0
  · subst h₀
    have hslice : wrapGraph.outSlice (0 : UInt32).toNat = [lastId] := by decide
    rw [hslice, List.mem_singleton]
    exact ⟨fun h => Or.inl ⟨rfl, h⟩, fun h => h.elim (fun h => h.2) fun h => absurd h.1 (by decide)⟩
  · by_cases hl : u = lastId
    · subst hl
      have hslice : wrapGraph.outSlice lastId.toNat = [1] := by decide
      rw [hslice, List.mem_singleton]
      exact ⟨fun h => Or.inr ⟨rfl, h⟩, fun h => h.elim (fun h => absurd h.1 (by decide)) fun h => h.2⟩
    · have hne₀ : u.toNat ≠ 0 := fun h => h₀ (UInt32.toNat_inj.mp h)
      have hnel : u.toNat ≠ 2 ^ 32 - 1 := fun h => hl (UInt32.toNat_inj.mp h)
      have hslice : wrapGraph.outSlice u.toNat = [] := by
        unfold Graph.outSlice wrapGraph
        simp only [hne₀, if_false, hlt, if_true, Nat.succ_ne_zero, (by omega : u.toNat + 1 < 2 ^ 32)]
        rfl
      rw [hslice]
      simp [h₀, hl]

theorem wrapGraph_inSlice (u v : UInt32) :
    u ∈ wrapGraph.inSlice v.toNat ↔ u = 0 ∧ v = lastId ∨ u = lastId ∧ v = 1 := by
  have hlt := v.toNat_lt
  by_cases h₁ : v = 1
  · subst h₁
    have hslice : wrapGraph.inSlice (1 : UInt32).toNat = [lastId] := by decide
    rw [hslice, List.mem_singleton]
    exact ⟨fun h => Or.inr ⟨h, rfl⟩, fun h => h.elim (fun h => absurd h.2 (by decide)) fun h => h.1⟩
  · by_cases hl : v = lastId
    · subst hl
      have hslice : wrapGraph.inSlice lastId.toNat = [0] := by decide
      rw [hslice, List.mem_singleton]
      exact ⟨fun h => Or.inl ⟨h, rfl⟩, fun h => h.elim (fun h => h.1) fun h => absurd h.2 (by decide)⟩
    · have hne₁ : v.toNat ≠ 1 := fun h => h₁ (UInt32.toNat_inj.mp h)
      have hnel : v.toNat ≠ 2 ^ 32 - 1 := fun h => hl (UInt32.toNat_inj.mp h)
      have hslice : wrapGraph.inSlice v.toNat = [] := by
        unfold Graph.inSlice wrapGraph
        rcases Nat.eq_zero_or_pos v.toNat with h₀ | h₀
        · rw [h₀]
          rfl
        · simp only [hlt, if_true, (by omega : v.toNat + 1 < 2 ^ 32)]
          rw [if_neg (by omega), if_neg (by omega)]
          rfl
      rw [hslice]
      simp [h₁, hl]

theorem wrapGraph_transposed : wrapGraph.Transposed := fun u v _ _ =>
  (wrapGraph_outSlice u v).trans (wrapGraph_inSlice u v).symm

theorem wrapGraph_not_pulls :
    ¬ (Relation.ReflTransGen wrapGraph.Adj 0 lastId ↔ Relation.ReflTransGen wrapGraph.Pulls 0 lastId) := by
  intro h
  have hadj : wrapGraph.Adj 0 lastId := ⟨by decide, by decide⟩
  rcases Relation.ReflTransGen.cases_tail (h.mp (Relation.ReflTransGen.single hadj)) with heq | ⟨u, -, -, he⟩
  · exact absurd heq (by decide)
  · cases he

theorem not_pullExact_wrap :
    ¬ ∀ (g : Graph) (start : UInt32), g.OutWellFormed → g.InWellFormed → g.Transposed → start.toNat < g.nbNodes →
      PullExact g start := by
  intro h
  have hexact := h wrapGraph 0 wrapGraph_outWellFormed wrapGraph_inWellFormed wrapGraph_transposed (by decide)
  exact wrapGraph_not_pulls (hexact.reach_iff wrapGraph_inWellFormed (by decide) lastId)

end GraphBenchmark
