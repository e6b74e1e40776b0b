import GraphBenchmark.Bfs.Hybrid
import GraphBenchmark.Bfs.PushLevels
import GraphBenchmark.Foundations.Slices
import GraphBenchmark.Foundations.Words

/-! # The bookkeeping of the switch test

`bfs_pushpull` compares the out-edges of the frontier with those not yet explored. Frontier and processed vertices
are distinct, so the sums stay within `NB_EDGES` and the test never succeeds (`SwitchExact`), unless the traversal
finds `lastId`, whose span wraps. -/
namespace GraphBenchmark
open Interleaving Levels Words
set_option autoImplicit false

def Graph.outDegree (g : Graph) (v : UInt32) : ℕ := (g.outSlice v.toNat).length

/-- The vertices an iteration processes: the frontier it is launched on. -/
def HybridState.processed (s : HybridState) : HybridAct → List UInt32
  | .launch _ => s.frontier
  | _ => []

/-- The push phase with a record of the vertices processed so far. -/
def hybridPushLog (g : Graph) : HybridState × List UInt32 → HybridAct → Option (HybridState × List UInt32) :=
  logged HybridState.processed (hybridPush g false)

/-- At a switch test both counters are exact, and the test does not succeed. -/
structure SwitchTest (g : Graph) (s : HybridState) (processed : List UInt32) : Prop where
  explored : s.shared.explored.toNat = (processed.map g.outDegree).sum
  explored_le : s.shared.explored.toNat ≤ g.nbEdges
  edges : s.shared.edgesInFrontier.toNat = if s.level = 0 then 0 else (s.frontier.map g.outDegree).sum
  edges_le : s.shared.edgesInFrontier ≤ UInt64.ofNat g.nbEdges - s.shared.explored

/-- Every switch test of every run is exact, and the pull block is only reached with an empty frontier. -/
structure SwitchExact (g : Graph) (start : UInt32) : Prop where
  test : ∀ s processed, Reach (hybridPushLog g) (HybridState.init start, []) (s, processed) → s.pc = .head →
    s.frontier ≠ [] → SwitchTest g s processed
  pull : ∀ s processed, Reach (hybridPushLog g) (HybridState.init start, []) (s, processed) → s.pc = .pull →
    s.frontier = []

/-- The traversal never has to look up the edges of `lastId` beside others. -/
def Graph.LastUnmet (g : Graph) (start : UInt32) : Prop :=
  start = lastId ∨ ¬ Relation.ReflTransGen g.Adj start lastId

/-! ## Degrees and spans -/

section Degree
variable {g : Graph} {v : UInt32} {l : List UInt32}

theorem outDegree_eq (g : Graph) (v : UInt32) :
    g.outDegree v = (g.outEdgeOffsets (v.toNat + 1)).toNat - (g.outEdgeOffsets v.toNat).toNat := by
  simp only [Graph.outDegree, Graph.outSlice, slots, List.length_map, List.length_range']

theorem outDegree_add (h : g.OutWellFormed) (hv : v.toNat < g.nbNodes) :
    (g.outEdgeOffsets v.toNat).toNat + g.outDegree v = (g.outEdgeOffsets (v.toNat + 1)).toNat := by
  have hle := UInt64.le_iff_toNat_le.mp (h.mono v.toNat hv)
  rw [outDegree_eq]
  omega

theorem ofNat_outDegree (h : g.OutWellFormed) (hv : v.toNat < g.nbNodes) :
    UInt64.ofNat (g.outDegree v) = g.outEdgeOffsets (v.toNat + 1) - g.outEdgeOffsets v.toNat := by
  rw [eq_sub_iff_add_eq, add_comm]
  have hadd := congrArg UInt64.ofNat (outDegree_add h hv)
  rwa [UInt64.ofNat_add, UInt64.ofNat_toNat, UInt64.ofNat_toNat] at hadd

theorem span_eq (h : g.OutWellFormed) (hv : v.toNat < g.nbNodes) (hl : v ≠ lastId) :
    g.span v = UInt64.ofNat (g.outDegree v) := by
  rw [Graph.span, toNat_add_one hl, ofNat_outDegree h hv]

/-- The span of `lastId` falls short of its degree by all edges up to its own. -/
theorem span_lastId (h : g.OutWellFormed) (hv : lastId.toNat < g.nbNodes) :
    g.span lastId = UInt64.ofNat (g.outDegree lastId) - g.outEdgeOffsets (lastId.toNat + 1) := by
  have hwrap : (lastId + 1).toNat = 0 := rfl
  rw [Graph.span, hwrap, h.zero, ofNat_outDegree h hv]
  abel

theorem start_eq_offsets (h : g.OutWellFormed) {k : ℕ} (hk : k ≤ g.nbNodes) :
    Slices.start (fun i => (g.outEdgeOffsets (i + 1)).toNat - (g.outEdgeOffsets i).toNat) k =
      (g.outEdgeOffsets k).toNat := by
  induction k with
  | zero =>
    rw [h.zero]
    rfl
  | succ k ih =>
    have hle := UInt64.le_iff_toNat_le.mp (h.mono k hk)
    rw [Slices.start_succ, ih (by omega)]
    omega

theorem sum_outDegree_le (h : g.OutWellFormed) (hnodup : l.Nodup) (hlt : ∀ v ∈ l, v.toNat < g.nbNodes) :
    (l.map g.outDegree).sum ≤ g.nbEdges := by
  have hinj : (l.map UInt32.toNat).Nodup := hnodup.map fun _ _ heq => UInt32.toNat_inj.mp heq
  have hsub : (l.map UInt32.toNat).toFinset ⊆ Finset.range g.nbNodes := by
    intro i hi
    obtain ⟨v, hv, rfl⟩ := List.mem_map.mp (List.mem_toFinset.mp hi)
    exact Finset.mem_range.mpr (hlt v hv)
  calc (l.map g.outDegree).sum
      = ((l.map UInt32.toNat).map fun i => (g.outEdgeOffsets (i + 1)).toNat - (g.outEdgeOffsets i).toNat).sum := by
        rw [List.map_map]
        exact congrArg List.sum (List.map_congr_left fun v _ => outDegree_eq g v)
    _ = ∑ i ∈ (l.map UInt32.toNat).toFinset, ((g.outEdgeOffsets (i + 1)).toNat - (g.outEdgeOffsets i).toNat) :=
        (List.sum_toFinset _ hinj).symm
    _ ≤ Slices.start (fun i => (g.outEdgeOffsets (i + 1)).toNat - (g.outEdgeOffsets i).toNat) g.nbNodes :=
        Finset.sum_le_sum_of_subset hsub
    _ = g.nbEdges := by rw [start_eq_offsets h le_rfl, h.last]

theorem sum_span (h : g.OutWellFormed) (hlt : ∀ v ∈ l, v.toNat < g.nbNodes) (hl : lastId ∉ l) :
    (l.map g.span).sum = UInt64.ofNat (l.map g.outDegree).sum := by
  rw [← list_sum_ofNat64]
  exact congrArg List.sum (List.map_congr_left fun v hv => span_eq h (hlt v hv) fun heq => hl (heq ▸ hv))

end Degree

/-! ## The record -/

/-- The record holds each vertex of the levels before the current one once. -/
structure Processed (g : Graph) (start : UInt32) (s : HybridState) (processed : List UInt32) : Prop where
  nodup : processed.Nodup
  mem : ∀ v, v ∈ processed ↔ ∃ j < s.level, DistIs g.OutRead start j v
  sum : (processed.map g.span).sum = g.exploredAt start s.level

section Record
variable {g : Graph} {start : UInt32} {s s' : HybridState} {p p' : List UInt32}

theorem Processed.launch (h : Processed g start s p) (hnodup : s.frontier.Nodup)
    (hmem : ∀ v, v ∈ s.frontier ↔ DistIs g.OutRead start s.level v) (hs' : s'.level = s.level + 1) :
    Processed g start s' (p ++ s.frontier) := by
  refine ⟨List.nodup_append.mpr ⟨h.nodup, hnodup, ?_⟩, fun v => ?_, ?_⟩
  · rintro u hu v hv rfl
    obtain ⟨j, hj, hu'⟩ := (h.mem u).mp hu
    have := hu'.unique ((hmem u).mp hv)
    omega
  · rw [List.mem_append, h.mem, hmem, hs']
    constructor
    · rintro (⟨j, hj, hv⟩ | hv)
      · exact ⟨j, by omega, hv⟩
      · exact ⟨s.level, by omega, hv⟩
    · rintro ⟨j, hj, hv⟩
      rcases Nat.lt_or_ge j s.level with hlt | hge
      · exact Or.inl ⟨j, hlt, hv⟩
      · obtain rfl : j = s.level := by omega
        exact Or.inr hv
  · rw [List.map_append, List.sum_append, h.sum, hs', Graph.exploredAt, Graph.exploredAt, Finset.sum_range_succ,
      Graph.levelSpan, sum_map_eq_finsum g.span hnodup hmem]

/-- Only a launch raises the level, and it records the frontier. -/
theorem level_step {a : HybridAct} (ha : hybridPush g false s a = some s') :
    (s.pc = .ready ∧ s.processed a = s.frontier ∧ s'.level = s.level + 1) ∨
      s.processed a = [] ∧ s'.level = s.level := by
  cases a with
  | launch rs =>
    simp only [hybridPush] at ha
    split at ha
    · rename_i hc
      cases ha
      exact Or.inl ⟨hc.1, rfl, rfl⟩
    · cases ha
  | work i =>
    simp only [hybridPush] at ha
    split at ha
    · obtain ⟨q, -, rfl⟩ := Option.map_eq_some_iff.mp ha
      exact Or.inr ⟨rfl, rfl⟩
    · cases ha
  | test b =>
    simp only [hybridPush] at ha
    split at ha
    · cases ha
      cases b <;> exact Or.inr ⟨rfl, rfl⟩
    · cases ha
  | fall | join =>
    simp only [hybridPush] at ha
    split at ha <;> cases ha
    exact Or.inr ⟨rfl, rfl⟩

theorem processed_step (hinv : HybridInv g start false s) (h : Processed g start s p) {a : HybridAct}
    (ha : hybridPush g false s a = some s') : Processed g start s' (p ++ s.processed a) := by
  rcases level_step ha with ⟨hp, hlog, hlevel⟩ | ⟨hlog, hlevel⟩
  · obtain ⟨hat, -⟩ := hinv.ready hp
    rw [hlog]
    exact h.launch hat.nodup hat.mem hlevel
  · rw [hlog, List.append_nil]
    exact ⟨h.nodup, hlevel ▸ h.mem, hlevel ▸ h.sum⟩

theorem processed_of_reach (hr : Reach (hybridPushLog g) (HybridState.init start, []) (s, p)) :
    HybridInv g start false s ∧ Processed g start s p := by
  have hinit : Processed g start (HybridState.init start) [] :=
    ⟨List.nodup_nil, fun v => iff_of_false List.not_mem_nil fun ⟨j, hj, _⟩ => absurd hj (Nat.not_lt_zero j), rfl⟩
  exact hr.invariant (P := fun x => HybridInv g start false x.1 ∧ Processed g start x.1 x.2)
    ⟨hybridInv_init, hinit⟩ fun x a y ⟨hinv, hx⟩ ha => by
      obtain ⟨hstep, hlog⟩ := logged_eq_some.mp ha
      exact ⟨hybridInv_step hinv hstep, hlog ▸ processed_step hinv hx hstep⟩

end Record

/-! ## The test -/

section Test
variable {g : Graph} {start : UInt32} {s : HybridState} {p : List UInt32}

/-- Where `lastId` has not been read, both counters are sums of degrees of distinct vertices. -/
theorem counters_eq (hout : g.OutWellFormed) (hs : start.toNat < g.nbNodes) (hat : AtTest g start s)
    (hp : Processed g start s p) (hlp : lastId ∉ p) (hlf : s.level ≠ 0 → lastId ∉ s.frontier) :
    (g.exploredAt start s.level).toNat = (p.map g.outDegree).sum ∧
      (g.edgesAt start s.level).toNat = (if s.level = 0 then 0 else (s.frontier.map g.outDegree).sum) ∧
      (p.map g.outDegree).sum + (s.frontier.map g.outDegree).sum ≤ g.nbEdges := by
  have hltp : ∀ v ∈ p, v.toNat < g.nbNodes := fun v hv =>
    have ⟨_, _, hd⟩ := (hp.mem v).mp hv
    (distIs_outRead_lt hout hs hd).2
  have hltf : ∀ v ∈ s.frontier, v.toNat < g.nbNodes := fun v hv => (distIs_outRead_lt hout hs ((hat.mem v).mp hv)).2
  have hnodup : (p ++ s.frontier).Nodup := by
    refine List.nodup_append.mpr ⟨hp.nodup, hat.nodup, ?_⟩
    rintro u hu v hv rfl
    obtain ⟨j, hj, hu'⟩ := (hp.mem u).mp hu
    have := hu'.unique ((hat.mem u).mp hv)
    omega
  have htotal := sum_outDegree_le hout hnodup fun v hv => (List.mem_append.mp hv).elim (hltp v) (hltf v)
  rw [List.map_append, List.sum_append] at htotal
  have hm : g.nbEdges < 2 ^ 64 := hout.last ▸ (g.outEdgeOffsets g.nbNodes).toNat_lt
  refine ⟨?_, ?_, htotal⟩
  · rw [← hp.sum, sum_span hout hltp hlp, toNat_ofNat64 (by omega)]
  · unfold Graph.edgesAt
    by_cases h0 : s.level = 0
    · rw [if_pos h0, if_pos h0]
      rfl
    · rw [if_neg h0, if_neg h0, Graph.levelSpan, ← sum_map_eq_finsum g.span hat.nodup hat.mem,
        sum_span hout hltf (hlf h0), toNat_ofNat64 (by omega)]

theorem LastUnmet.not_mem (h : g.LastUnmet start) (hout : g.OutWellFormed) (hs : start.toNat < g.nbNodes)
    (hat : AtTest g start s) (hp : Processed g start s p) (hne : s.frontier ≠ []) :
    lastId ∉ p ∧ (s.level ≠ 0 → lastId ∉ s.frontier) := by
  rcases h with rfl | h
  · -- no edge of `lastId` is read, so its level is the only one
    have hself : ∀ k v, DistIs g.OutRead lastId k v → k = 0 := by
      intro k v hv
      have hreach := ((distIs_outRead hout hs k v).mpr hv).reach
      rw [reach_cutOut_self hreach] at hv
      exact hv.unique (distIs_zero_iff.mpr rfl)
    obtain ⟨v, hv⟩ := List.exists_mem_of_ne_nil _ hne
    have h0 := hself _ v ((hat.mem v).mp hv)
    refine ⟨fun hl => ?_, fun hlevel => absurd h0 hlevel⟩
    obtain ⟨j, hj, -⟩ := (hp.mem lastId).mp hl
    omega
  · refine ⟨fun hl => ?_, fun _ hl => ?_⟩
    · obtain ⟨j, -, hd⟩ := (hp.mem lastId).mp hl
      exact h (distIs_outRead_lt hout hs hd).1
    · exact h (distIs_outRead_lt hout hs ((hat.mem lastId).mp hl)).1

/-- The frontier never has more out-edges than are left. -/
theorem edgesAt_le (hout : g.OutWellFormed) (hs : start.toNat < g.nbNodes) (hat : AtTest g start s)
    (hp : Processed g start s p) (hlp : lastId ∉ p) (hlf : s.level ≠ 0 → lastId ∉ s.frontier) :
    g.edgesAt start s.level ≤ UInt64.ofNat g.nbEdges - g.exploredAt start s.level := by
  obtain ⟨hexplored, hedges, htotal⟩ := counters_eq hout hs hat hp hlp hlf
  have hm : g.nbEdges < 2 ^ 64 := hout.last ▸ (g.outEdgeOffsets g.nbNodes).toNat_lt
  have hle : g.exploredAt start s.level ≤ UInt64.ofNat g.nbEdges := by
    rw [UInt64.le_iff_toNat_le, hexplored, toNat_ofNat64 hm]
    omega
  rw [UInt64.le_iff_toNat_le, UInt64.toNat_sub_of_le _ _ hle, toNat_ofNat64 hm, hexplored, hedges]
  split <;> omega

theorem switchExact_of_unmet (hout : g.OutWellFormed) (hs : start.toNat < g.nbNodes) (h : g.LastUnmet start) :
    SwitchExact g start := by
  refine ⟨fun s p hr hp hne => ?_, fun s p hr hp => ?_⟩
  · obtain ⟨hinv, hrec⟩ := processed_of_reach hr
    obtain ⟨hat, hedges, -⟩ := hinv.head hp
    obtain ⟨hlp, hlf⟩ := LastUnmet.not_mem h hout hs hat hrec hne
    obtain ⟨hx, he, htotal⟩ := counters_eq hout hs hat hrec hlp hlf
    have hle := edgesAt_le hout hs hat hrec hlp hlf
    rw [← hat.explored] at hx hle
    rw [← hedges] at he hle
    exact ⟨hx, by omega, he, hle⟩
  · obtain ⟨hinv, hrec⟩ := processed_of_reach hr
    obtain ⟨hat, -, hlast⟩ := hinv.pull hp
    by_contra hne
    obtain ⟨hlp, hlf⟩ := LastUnmet.not_mem h hout hs hat hrec hne
    rcases hlast rfl with hempty | hswitch
    · obtain ⟨v, hv⟩ := List.exists_mem_of_ne_nil _ hne
      exact hempty v ((hat.mem v).mp hv)
    · exact absurd (edgesAt_le hout hs hat hrec hlp hlf) (UInt64.not_le.mpr hswitch)

/-! ## The span that wraps -/

/-- A run passes through the test of every iteration. -/
theorem exists_head {k : ℕ} (hr : Reach (hybridPush g false) (HybridState.init start) s) (hk : k ≤ s.level)
    (hpass : s.pc = .pass → k < s.level) :
    ∃ t, Reach (hybridPush g false) (HybridState.init start) t ∧ t.pc = .head ∧ t.level = k := by
  induction hr with
  | refl =>
    have h0 : k = 0 := Nat.le_zero.mp hk
    exact ⟨_, Reach.refl _ _, rfl, h0.symm⟩
  | @tail u v hr hs ih =>
    obtain ⟨a, ha⟩ := hs
    cases hybridPush_step ha with
    | switch hp _ _ | stay hp _ _ | fall hp _ => exact ih hk fun hp' => absurd (hp'.symm.trans hp) nofun
    | launch hp hrs => exact ih (Nat.lt_succ_iff.mp (hpass rfl)) fun hp' => absurd (hp'.symm.trans hp) nofun
    | work hp hw => exact ih hk fun _ => hpass hp
    | join hp hdone =>
      rcases Nat.lt_or_ge k u.level with hlt | hge
      · exact ih hk fun _ => hlt
      · exact ⟨_, Relation.ReflTransGen.tail hr ⟨a, ha⟩, rfl, Nat.le_antisymm hge hk⟩

theorem sum_span_lastId (hout : g.OutWellFormed) {l : List UInt32} (hlt : ∀ v ∈ l, v.toNat < g.nbNodes)
    (hnodup : l.Nodup) (hl : lastId ∈ l) :
    (l.map g.span).sum = UInt64.ofNat (l.map g.outDegree).sum - g.outEdgeOffsets (lastId.toNat + 1) := by
  have hperm := List.perm_cons_erase hl
  have hrest : ∀ v ∈ l.erase lastId, v.toNat < g.nbNodes := fun v hv => hlt v (List.mem_of_mem_erase hv)
  rw [(hperm.map g.span).sum_eq, (hperm.map g.outDegree).sum_eq, List.map_cons, List.map_cons, List.sum_cons,
    List.sum_cons, span_lastId hout (hlt _ hl), sum_span hout hrest hnodup.not_mem_erase, UInt64.ofNat_add]
  abel

/-- A vertex found along an edge shows that the vertices up to `lastId` have edges. -/
theorem offsets_lastId_ne_zero (hout : g.OutWellFormed) (hlast : lastId.toNat < g.nbNodes) {k : ℕ} {v : UInt32}
    (hv : DistIs g.OutRead start (k + 1) v) : g.outEdgeOffsets (lastId.toNat + 1) ≠ 0 := by
  intro hzero
  obtain ⟨-, u, -, he⟩ := distIs_succ_iff.mp hv
  obtain ⟨i, -, hi, -⟩ := mem_slots.mp he
  have hu : (u + 1).toNat ≤ lastId.toNat + 1 := by
    have := (u + 1).toNat_lt
    rw [toNat_lastId]
    omega
  have hle := UInt64.le_iff_toNat_le.mp (hout.offsets_le hu hlast)
  rw [hzero] at hle
  exact absurd (hi.trans_le hle) (Nat.not_lt_zero i)

theorem unmet_of_switchExact (hout : g.OutWellFormed) (hs : start.toNat < g.nbNodes) (h : SwitchExact g start) :
    g.LastUnmet start := by
  by_contra hmet
  obtain ⟨hne, hreach⟩ := not_or.mp hmet
  rw [not_not] at hreach
  obtain ⟨d, hd⟩ := reach_iff_distIs.mp ((reach_congr (distIs_outRead hout hs)).mp (reach_cutOut_target hreach))
  have hd0 : d ≠ 0 := fun h0 => hne (distIs_zero_iff.mp (h0 ▸ hd)).symm
  -- the run comes to an end behind the level of `lastId`, so it passes through the test of that level
  have hinit : HybridInv g start false (HybridState.init start) := hybridInv_init
  obtain ⟨t, ht, hp⟩ := (hybridPush_ends g false hinit).exists
  obtain ⟨q, hq⟩ := ht.logged HybridState.processed []
  have hempty : ∀ v, ¬ DistIs g.OutRead start t.level v := fun v hv => by
    have hmem := (((hinit.of_reach ht).pull hp).1.mem v).mpr hv
    rw [h.pull t q hq hp] at hmem
    cases hmem
  have hlt : d ≤ t.level := by
    by_contra hgt
    obtain ⟨v, hv⟩ := hd.exists_of_le (Nat.le_of_lt (Nat.lt_of_not_le hgt))
    exact hempty v hv
  obtain ⟨u, hu, hup, rfl⟩ := exists_head ht hlt fun hp' => absurd (hp'.symm.trans hp) nofun
  obtain ⟨r, hr⟩ := hu.logged HybridState.processed []
  obtain ⟨hat, hedges, -⟩ := (hinit.of_reach hu).head hup
  have hmem := (hat.mem lastId).mpr hd
  have hltf : ∀ v ∈ u.frontier, v.toNat < g.nbNodes := fun v hv => (distIs_outRead_lt hout hs ((hat.mem v).mp hv)).2
  -- there the span of `lastId` makes the counter fall short of the degrees
  have hexact := (h.test u r hr hup (List.ne_nil_of_mem hmem)).edges
  rw [if_neg hd0] at hexact
  have hshort : u.shared.edgesInFrontier =
      UInt64.ofNat (u.frontier.map g.outDegree).sum - g.outEdgeOffsets (lastId.toNat + 1) := by
    rw [hedges, Graph.edgesAt, if_neg hd0, Graph.levelSpan, ← sum_map_eq_finsum g.span hat.nodup hat.mem,
      sum_span_lastId hout hltf hat.nodup hmem]
  rw [← hexact, UInt64.ofNat_toNat, eq_comm, sub_eq_self] at hshort
  obtain ⟨k, hk⟩ := Nat.exists_eq_succ_of_ne_zero hd0
  rw [hk] at hd
  exact offsets_lastId_ne_zero hout (hltf _ hmem) hd hshort

/-- The bookkeeping is exact, and the jump to the pull block is never taken, exactly when the traversal does not
find `lastId`, so on every graph of up to `2^32-1` vertices. -/
theorem switchExact_iff (hout : g.OutWellFormed) (hs : start.toNat < g.nbNodes) :
    SwitchExact g start ↔ start = lastId ∨ ¬ Relation.ReflTransGen g.Adj start lastId :=
  ⟨unmet_of_switchExact hout hs, switchExact_of_unmet hout hs⟩

end Test

theorem switchExact_edge : SwitchExact edgeGraph 0 := by
  refine (switchExact_iff edgeGraph_outWellFormed (by decide)).mpr (Or.inr fun h => ?_)
  exact absurd (reach_lt edgeGraph_outWellFormed (by decide) h) (by decide)

theorem not_switchExact_wrap :
    ¬ ∀ (g : Graph) (start : UInt32), g.OutWellFormed → start.toNat < g.nbNodes → SwitchExact g start := by
  intro h
  have hedge : wrapGraph.Adj 0 lastId := ⟨by decide, by decide⟩
  rcases unmet_of_switchExact wrapGraph_outWellFormed (by decide)
    (h wrapGraph 0 wrapGraph_outWellFormed (by decide)) with h0 | hreach
  · exact absurd h0 (by decide)
  · exact hreach (Relation.ReflTransGen.single hedge)

end GraphBenchmark
