import GraphBenchmark.Bfs.Push
import Mathlib.Data.Set.Card

/-! # The levels of `bfs_push`

`PushLevelExact` is what a breadth-first search should do. `bfs_push` does it exactly when no vertex
depends on the edges out of `lastId`, whose slice it does not see. -/
namespace GraphBenchmark
open Interleaving Levels
set_option autoImplicit false

/-- At each test of the loop the frontier is the level of the iteration, and every schedule ends after the
last level with the reachable vertices visited and their number printed. -/
structure PushLevelExact (g : Graph) (start : UInt32) (threads : ℕ) : Prop where
  level : ∀ mem bufferMem s, Reach (bfsPush g threads .whole) (PushState.init g start mem bufferMem) s →
    s.pc = .head → AtLevel g.Adj start threads s.iterations s
  ends : ∀ mem bufferMem, Ends (bfsPush g threads .whole) (PushState.init g start mem bufferMem) fun s =>
    (∃ e, IsEcc g.Adj start e ∧ s.iterations = e + 1) ∧
    (∀ v : UInt32, s.shared.visited v.toNat = 1 ↔ Relation.ReflTransGen g.Adj start v) ∧
    s.pc = .done {v | Relation.ReflTransGen g.Adj start v}.ncard

section Count
variable {visited : ℕ → UInt8} {n : ℕ}

theorem countVisited_eq_ncard (hbytes : Bytes visited)
    (hlt : ∀ v : UInt32, visited v.toNat = 1 → v.toNat < n) :
    countVisited visited n = {v : UInt32 | visited v.toNat = 1}.ncard := by
  have hsum : countVisited visited n = ((Finset.range n).filter fun i => visited i = 1).card := by
    rw [Finset.card_filter]
    show ∑ i ∈ Finset.range n, (visited i).toNat = _
    refine Finset.sum_congr rfl fun i _ => ?_
    rcases hbytes i with h | ⟨h, -⟩ <;> rw [h] <;> rfl
  have himage : UInt32.toNat '' {v : UInt32 | visited v.toNat = 1} =
      (((Finset.range n).filter fun i => visited i = 1 : Finset ℕ) : Set ℕ) := by
    ext i
    simp only [Set.mem_image, Set.mem_ofPred_eq, Finset.coe_filter, Finset.mem_range]
    constructor
    · intro ⟨v, hv, hi⟩
      subst hi
      exact ⟨hlt v hv, hv⟩
    · intro ⟨_, hi⟩
      have hi32 : i < 2 ^ 32 := by
        rcases hbytes i with h | ⟨-, h⟩
        · rw [h] at hi
          cases hi
        · exact h
      exact ⟨UInt32.ofNat i, by rw [UInt32.toNat_ofNat_of_lt' hi32]; exact hi, UInt32.toNat_ofNat_of_lt' hi32⟩
  rw [hsum, ← Set.ncard_coe_finset, ← himage, Set.ncard_image_of_injective _ fun a b h => UInt32.toNat_inj.mp h]

end Count

section Exact
variable {g : Graph} {start : UInt32} {threads k : ℕ} {s : PushState} {E E' : UInt32 → UInt32 → Prop}
  {mem : ℕ → UInt32} {bufferMem : ℕ → ℕ → UInt32}

theorem AtLevel.congr (h : AtLevel E start threads k s) (hE : ∀ k v, DistIs E start k v ↔ DistIs E' start k v) :
    AtLevel E' start threads k s :=
  ⟨h.nodup, fun v => (h.mem v).trans (hE k v), h.buffers, fun v => (h.visited v).trans (within_congr hE), h.bytes⟩

/-- Where `bfs_push` stops: one level after the last one, with everything reachable visited. -/
theorem PushInv.finish (h : PushInv g start threads .whole s) (hE : ∀ k v, DistIs g.OutRead start k v ↔ DistIs E start k v)
    {n : ℕ} (hn : n = g.nbNodes) (hlt : ∀ v, Relation.ReflTransGen E start v → v.toNat < n) {c : ℕ} (hp : s.pc = .done c) :
    (∃ e, IsEcc E start e ∧ s.iterations = e + 1) ∧
      (∀ v : UInt32, s.shared.visited v.toNat = 1 ↔ Relation.ReflTransGen E start v) ∧
      s.pc = .done {v | Relation.ReflTransGen E start v}.ncard := by
  obtain ⟨hlevel, hnext, hc⟩ := h.done c hp
  have hempty : ∀ v, ¬ DistIs E start s.iterations v := by
    intro v hv
    rw [← hE, ← hlevel.mem, (ThreadBuffer.contents_eq_nil_iff _).mpr hnext] at hv
    cases hv
  obtain ⟨e, he⟩ : ∃ e, s.iterations = e + 1 := by
    cases hk : s.iterations with
    | zero =>
      rw [hk] at hempty
      exact absurd (distIs_zero_iff.mpr rfl) (hempty start)
    | succ e => exact ⟨e, rfl⟩
  have hvis : ∀ v : UInt32, s.shared.visited v.toNat = 1 ↔ Relation.ReflTransGen E start v := by
    intro v
    rw [hlevel.visited, within_congr hE]
    constructor
    · exact Within.reach
    · intro hr
      rw [he] at hempty ⊢
      exact ((reach_iff_within hempty).mp hr).mono (by omega)
  obtain ⟨u, hu⟩ := h.below e (by omega)
  refine ⟨⟨e, isEcc_of_empty ((hE e u).mp hu) (he ▸ hempty), he⟩, hvis, ?_⟩
  rw [hp, hc, countVisited_eq_ncard hlevel.bytes fun v hv => hn ▸ hlt v ((hvis v).mp hv)]
  simp only [hvis]

theorem bfsPush_iterations {grain : Grain} {s' : PushState} {a : PushAct}
    (ha : bfsPush g threads grain s a = some s') :
    s'.iterations = s.iterations ∨ s.pc = .head ∧ s'.iterations = s.iterations + 1 := by
  cases bfsPush_step ha with
  | launch hp _ _ => exact Or.inr ⟨hp, rfl⟩
  | _ => exact Or.inl rfl

/-- Every iteration before the current one has had its test. -/
theorem bfsPush_head_of_lt (h : Reach (bfsPush g threads .whole) (PushState.init g start mem bufferMem) s) :
    ∀ j < s.iterations, ∃ t, Reach (bfsPush g threads .whole) (PushState.init g start mem bufferMem) t ∧
      t.pc = .head ∧ t.iterations = j := by
  refine (h.invariant (P := fun s => Reach (bfsPush g threads .whole) (PushState.init g start mem bufferMem) s ∧
    ∀ j < s.iterations, ∃ t, Reach (bfsPush g threads .whole) (PushState.init g start mem bufferMem) t ∧
      t.pc = .head ∧ t.iterations = j) ⟨Reach.refl _ _, fun j hj => absurd hj (Nat.not_lt_zero j)⟩ ?_).2
  intro u a v ⟨hu, hbelow⟩ ha
  refine ⟨hu.tail ha, fun j hj => ?_⟩
  rcases bfsPush_iterations ha with hit | ⟨hp, hit⟩
  · exact hbelow j (by omega)
  · rcases Nat.lt_or_ge j u.iterations with hlt | hge
    · exact hbelow j hlt
    · exact ⟨u, hu, hp, by omega⟩

/-- In some run `v` is in the frontier at the head of iteration `k`. -/
def Graph.PushLevel (g : Graph) (start : UInt32) (k : ℕ) (v : UInt32) : Prop :=
  ∃ threads mem bufferMem s, 0 < threads ∧ Reach (bfsPush g threads .whole) (PushState.init g start mem bufferMem) s ∧
    s.pc = .head ∧ s.iterations = k ∧ v ∈ s.frontier.contents

theorem bfsPush_done (hT : 0 < threads) (h : Reach (bfsPush g threads .whole) (PushState.init g start mem bufferMem) s)
    {c : ℕ} (hp : s.pc = .done c) :
    (∀ j < s.iterations, ∃ v, DistIs g.OutRead start j v) ∧ ∀ k ≥ s.iterations, ∀ v, ¬ DistIs g.OutRead start k v := by
  have hinv := pushInv_of_reach hT h
  obtain ⟨hlevel, hnext, -⟩ := hinv.done c hp
  refine ⟨hinv.below, fun k hk v hv => ?_⟩
  obtain ⟨w, hw⟩ := hv.exists_of_le hk
  rw [← hlevel.mem, (ThreadBuffer.contents_eq_nil_iff _).mpr hnext] at hw
  cases hw

theorem bfsPush_visited (hT : 0 < threads) (h : Reach (bfsPush g threads .whole) (PushState.init g start mem bufferMem) s)
    {c : ℕ} (hp : s.pc = .done c) (v : UInt32) :
    s.shared.visited v.toNat = 1 ↔ Relation.ReflTransGen g.OutRead start v := by
  rw [((pushInv_of_reach hT h).done c hp).1.visited]
  constructor
  · exact Within.reach
  · intro hr
    obtain ⟨k, hk⟩ := reach_iff_distIs.mp hr
    exact hk.within.mono (Nat.le_of_not_le fun hge => (bfsPush_done hT h hp).2 k hge v hk)

/-- In every run the frontiers are the levels of the edges read. -/
theorem pushLevel_iff {v : UInt32} : g.PushLevel start k v ↔ DistIs g.OutRead start k v := by
  constructor
  · intro ⟨threads, mem, bufferMem, s, hT, hr, hp, hk, hv⟩
    subst hk
    exact (((pushInv_of_reach hT hr).head hp).1.mem v).mp hv
  · intro hv
    obtain ⟨t, ht, -, c, hp⟩ := (bfsPush_ends g start Nat.one_pos (fun _ => 0) fun _ _ => 0).exists
    have hk : k < t.iterations := Nat.lt_of_not_le fun hk => (bfsPush_done Nat.one_pos ht hp).2 k hk v hv
    obtain ⟨u, hu, hup, rfl⟩ := bfsPush_head_of_lt ht k hk
    exact ⟨1, _, _, u, Nat.one_pos, hu, hup, rfl, (((pushInv_of_reach Nat.one_pos hu).head hup).1.mem v).mpr hv⟩

/-- An exact run shows that the edges read and the edges of the graph have the same levels. -/
theorem PushLevelExact.distIs_iff (hexact : PushLevelExact g start threads) (hT : 0 < threads) (k : ℕ) (v : UInt32) :
    DistIs g.Adj start k v ↔ DistIs g.OutRead start k v := by
  -- below the end of a run the frontier shows both levels, from there on both are empty
  have hends := bfsPush_ends g start hT (fun _ => 0) fun _ _ => 0
  obtain ⟨t, ht, hn⟩ := hends.1.exists_stuck
  obtain ⟨-, c, hp⟩ := hends.2 t ht hn
  obtain ⟨⟨e, hecc, he⟩, -, -⟩ := (hexact.ends _ _).2 t ht hn
  rcases Nat.lt_or_ge k t.iterations with hk | hk
  · obtain ⟨u, hu, hup, rfl⟩ := bfsPush_head_of_lt ht k hk
    rw [← (hexact.level _ _ u hu hup).mem, ((pushInv_of_reach hT hu).head hup).1.mem]
  · constructor
    · intro hv
      have := hecc.2 ⟨v, hv⟩
      omega
    · exact fun hv => absurd hv ((bfsPush_done hT ht hp).2 k hk v)

/-- The graphs and sources on which `bfs_push` is level-exact. Up to `2^32-1` vertices all are: then
`lastId` is not a vertex. -/
theorem pushLevelExact_iff (h : g.OutWellFormed) (hs : start.toNat < g.nbNodes) (hT : 0 < threads) :
    PushLevelExact g start threads ↔ Bypassed g.Adj start lastId := by
  rw [← distIs_cutOut_iff]
  simp only [distIs_outRead h hs]
  constructor
  · exact fun hexact k v => hexact.distIs_iff hT k v
  · intro hE
    have hE' : ∀ k v, DistIs g.OutRead start k v ↔ DistIs g.Adj start k v := fun k v => (hE k v).symm
    refine ⟨fun mem bufferMem s hr hp => ?_, fun mem bufferMem => ?_⟩
    · exact ((pushInv_of_reach hT hr).head hp).1.congr hE'
    · refine (bfsPush_ends g start hT mem bufferMem).mono fun s _ ⟨hinv, c, hp⟩ => ?_
      exact hinv.finish hE' rfl (fun v hv => reach_lt h hs hv) hp

end Exact

theorem bypassed_of_lt {g : Graph} {start : UInt32} (h : g.OutWellFormed) (hs : start.toNat < g.nbNodes)
    (hn : g.nbNodes < 2 ^ 32) : Bypassed g.Adj start lastId := by
  intro k v hk
  have hlt := reach_lt h hs hk.reach
  rw [toNat_lastId] at hlt
  omega

def edgeGraph : Graph where
  symmetric := true
  nbNodes := 2
  nbEdges := 1
  outEdges _ := 1
  outEdgeOffsets i := if i = 0 then 0 else 1
  inEdges _ := 0
  inEdgeOffsets i := if i ≤ 1 then 0 else 1

theorem edgeGraph_outWellFormed : edgeGraph.OutWellFormed := by
  refine ⟨rfl, ?_, rfl, ?_⟩ <;> decide

theorem pushLevelExact_edge : PushLevelExact edgeGraph 0 2 :=
  (pushLevelExact_iff edgeGraph_outWellFormed (by decide) (by decide)).mpr
    (bypassed_of_lt edgeGraph_outWellFormed (by decide) (by decide))

/-! ## A graph with `2^32` vertices -/

/-- The two edges from `0` to `lastId` and from `lastId` to `1`. -/
def wrapGraph : Graph where
  symmetric := true
  nbNodes := 2 ^ 32
  nbEdges := 2
  outEdges x := if x = 0 then lastId else 1
  outEdgeOffsets i := if i = 0 then 0 else if i < 2 ^ 32 then 1 else 2
  inEdges x := if x = 0 then lastId else 0
  inEdgeOffsets i := if i ≤ 1 then 0 else if i < 2 ^ 32 then 1 else 2

theorem wrapGraph_outWellFormed : wrapGraph.OutWellFormed := by
  refine ⟨rfl, fun v hv => ?_, rfl, fun x _ => UInt32.toNat_lt _⟩
  have hv' : v < 2 ^ 32 := hv
  unfold wrapGraph
  simp only [Nat.succ_ne_zero, if_false, hv', if_true]
  split
  · split <;> decide
  · split <;> decide

theorem wrapGraph_reach : Relation.ReflTransGen wrapGraph.Adj 0 1 := by
  have h₁ : wrapGraph.Adj 0 lastId := ⟨by decide, by decide⟩
  have h₂ : wrapGraph.Adj lastId 1 := ⟨by decide, by decide⟩
  exact (Relation.ReflTransGen.single h₁).tail h₂

theorem wrapGraph_outRead {v : UInt32} (h : Relation.ReflTransGen wrapGraph.OutRead 0 v) : v = 0 ∨ v = lastId := by
  induction h with
  | refl => exact Or.inl rfl
  | tail _ he ih =>
    rcases ih with rfl | rfl
    · exact Or.inr (List.mem_singleton.mp he)
    · cases he

theorem not_pushLevelExact_wrap :
    ¬ ∀ (g : Graph) (start : UInt32) (threads : ℕ), g.OutWellFormed → start.toNat < g.nbNodes → 0 < threads →
      PushLevelExact g start threads := by
  intro h
  have hexact := h wrapGraph 0 1 wrapGraph_outWellFormed (by decide) Nat.one_pos
  have hreach := (reach_congr fun k v => hexact.distIs_iff Nat.one_pos k v).mp wrapGraph_reach
  rcases wrapGraph_outRead hreach with h | h <;> exact absurd h (by decide)

end GraphBenchmark
