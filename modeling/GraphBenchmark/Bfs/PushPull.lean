import GraphBenchmark.Bfs.Hybrid
import GraphBenchmark.Bfs.PullLevels
import GraphBenchmark.Model.PushPull

/-! # Runs of `bfs_pushpull`

The push phase stops on a level, the hand-over enters its frontier into the first map, and the pull loop
goes on from there (`HybridInv.ends`). With false maps every switch point gives the same array
(`PushPullExact`), except where the traversal meets `lastId`. -/
namespace GraphBenchmark
open Interleaving Levels
set_option autoImplicit false

/-! ## The hand-over -/

inductive MarkStep (s : MarkState) : MarkState → Prop
  | launch {rs : List BlockedRange} (hp : s.pc = .start) (hrs : Split s.frontier.length rs) :
      MarkStep s { s with tasks := rs.map BlockedRange.indices, pc := .marking }
  | work {i : ℕ} {map : ℕ → Bool} {ts : List (List ℕ)} (hp : s.pc = .marking)
      (hw : work (markBody s.frontier) s.inFrontier s.tasks i = some (map, ts)) :
      MarkStep s { s with inFrontier := map, tasks := ts }
  | join (hp : s.pc = .marking) (hdone : ∀ t ∈ s.tasks, t = []) : MarkStep s { s with tasks := [], pc := .done }

theorem markFrontier_step {s s' : MarkState} {a : MarkAct} (h : markFrontier s a = some s') : MarkStep s s' := by
  cases a with
  | launch rs =>
    simp only [markFrontier] at h
    split at h
    · rename_i hc
      cases h
      exact .launch hc.1 hc.2
    · cases h
  | work i =>
    simp only [markFrontier] at h
    split at h
    · rename_i hp
      obtain ⟨⟨map, ts⟩, hw, rfl⟩ := Option.map_eq_some_iff.mp h
      exact .work hp hw
    · cases h
  | join =>
    simp only [markFrontier] at h
    split at h
    · rename_i hc
      cases h
      exact .join hc.1 hc.2
    · cases h

def Entered (frontier : List UInt32) (mem map : ℕ → Bool) : Prop :=
  ∀ i, map i = true ↔ mem i = true ∨ ∃ v ∈ frontier, v.toNat = i

structure MarkInv (s₀ s : MarkState) : Prop where
  visited : s.visited = s₀.visited
  frontier : s.frontier = s₀.frontier
  next : s.inFrontierNext = s₀.inFrontierNext
  start : s.pc = .start → s.inFrontier = s₀.inFrontier
  marking : s.pc = .marking → ∀ i, (s.inFrontier i = true ∨ ∃ t ∈ s.tasks, ∃ j ∈ t, (s₀.frontier.getD j 0).toNat = i) ↔
    s₀.inFrontier i = true ∨ ∃ v ∈ s₀.frontier, v.toNat = i
  done : s.pc = .done → Entered s₀.frontier s₀.inFrontier s.inFrontier

section Mark
variable {s₀ s s' : MarkState}

theorem markInv_step (h : MarkInv s₀ s) {a : MarkAct} (ha : markFrontier s a = some s') : MarkInv s₀ s' := by
  cases markFrontier_step ha with
  | launch hp hrs =>
    refine ⟨h.visited, h.frontier, h.next, nofun, fun _ i => ?_, nofun⟩
    rw [h.start hp, ← h.frontier, ← hrs.exists_getD_iff (d := 0)]
    simp only [List.mem_map, exists_exists_and_eq_and]
  | work hp hw =>
    refine ⟨h.visited, h.frontier, h.next, fun hp' => absurd (hp'.symm.trans hp) nofun, fun _ k => ?_,
      fun hp' => absurd (hp'.symm.trans hp) nofun⟩
    obtain ⟨pre, t, post, t', hts, hbody, rfl⟩ := work_eq_some hw
    rw [← h.marking hp, hts]
    cases t with
    | nil => cases hbody
    | cons j rest =>
      -- the cell of `j` moves from the list of the task to the map
      obtain ⟨rfl, rfl⟩ := Prod.mk.inj (Option.some.inj hbody)
      have hcell : Function.update s.inFrontier (s.frontier.getD j 0).toNat true k = true ↔
          (s₀.frontier.getD j 0).toNat = k ∨ s.inFrontier k = true := by
        rw [Function.update_apply, h.frontier]
        by_cases hk : k = (s₀.frontier.getD j 0).toNat
        · simp [hk]
        · rw [if_neg hk]
          exact (or_iff_right fun heq => hk heq.symm).symm
      show Function.update s.inFrontier (s.frontier.getD j 0).toNat true k = true ∨ _ ↔ _
      rw [hcell]
      simp only [exists_mem_middle, List.mem_cons, exists_eq_or_imp, or_assoc, or_left_comm]
  | join hp hdone =>
    refine ⟨h.visited, h.frontier, h.next, nofun, nofun, fun _ i => ?_⟩
    rw [← h.marking hp i]
    refine (or_iff_left ?_).symm
    intro ⟨t, ht, j, hj, _⟩
    rw [hdone t ht] at hj
    cases hj

def MarkState.measure (s : MarkState) : ℕ :=
  match s.pc with
  | .start => s.frontier.length + 2
  | .marking => (s.tasks.map List.length).sum + 1
  | .done => 0

theorem markFrontier_measure {a : MarkAct} (ha : markFrontier s a = some s') : s'.measure < s.measure := by
  cases markFrontier_step ha with
  | @launch rs hp hrs =>
    have hlen : ((rs.map BlockedRange.indices).map List.length).sum = s.frontier.length := by
      rw [List.map_map]
      exact hrs.sum_length
    simp only [MarkState.measure, hp, hlen]
    omega
  | work hp hw =>
    have hlt := work_weight_lt (w := List.length) hw fun t t' ht => by
      cases t with
      | nil => cases ht
      | cons j rest =>
        obtain ⟨-, rfl⟩ := Prod.mk.inj (Option.some.inj ht)
        exact Nat.lt_succ_self _
    simp only [MarkState.measure, hp]
    omega
  | join hp hdone =>
    simp only [MarkState.measure, hp]
    omega

theorem markFrontier_stuck (hn : ∀ a, markFrontier s a = none) : s.pc = .done := by
  cases hpc : s.pc with
  | start =>
    obtain ⟨rs, hrs⟩ := exists_split s.frontier.length
    have h := hn (.launch rs)
    simp only [markFrontier] at h
    rw [if_pos ⟨hpc, hrs⟩] at h
    cases h
  | marking =>
    have hbody : ∀ t, ¬ t = [] → markBody s.frontier s.inFrontier t ≠ none := by
      intro t ht
      cases t with
      | nil => exact absurd rfl ht
      | cons i rest => exact Option.some_ne_none _
    have hwork := fun i => hn (.work i)
    simp only [markFrontier, hpc, if_true] at hwork
    have hall := through_of_stuck hbody hwork
    have h := hn .join
    simp only [markFrontier] at h
    rw [if_pos ⟨hpc, hall⟩] at h
    cases h
  | done => rfl

theorem markInv_start (hp : s₀.pc = .start) : MarkInv s₀ s₀ := by
  refine ⟨rfl, rfl, rfl, fun _ => rfl, fun h => ?_, fun h => ?_⟩ <;> rw [hp] at h <;> cases h

theorem markFrontier_ends (hp : s₀.pc = .start) : Ends markFrontier s₀ fun s => s.pc = .done :=
  ends_of_invariant Nat.lt_wfRel.wf MarkState.measure (fun _ _ _ hu ha => markInv_step hu ha)
    (fun _ _ _ _ ha => markFrontier_measure ha) (fun _ _ hn => markFrontier_stuck hn) (markInv_start hp)

theorem markInv_of_reach (hp : s₀.pc = .start) (hr : Reach markFrontier s₀ s) : MarkInv s₀ s :=
  hr.invariant (markInv_start hp) fun _ _ _ hu ha => markInv_step hu ha

end Mark

/-! ## The three phases -/

section Whole
variable {g : Graph} {start : UInt32} {free : Bool} {mem memNext : ℕ → Bool} {s : HybridState} {m₀ m : MarkState}

theorem HybridState.enterMark_eq (hm₀ : s.enterMark mem memNext = some m₀) :
    s.pc = .pull ∧ m₀ = ⟨s.shared.visited, s.frontier, mem, memNext, [], .start⟩ := by
  unfold HybridState.enterMark at hm₀
  split at hm₀
  · exact ⟨‹_›, (Option.some.inj hm₀).symm⟩
  · cases hm₀

theorem MarkState.enterPull_eq {t : PullState} (ht : m.enterPull = some t) :
    m.pc = .done ∧ t = PullState.enter m.visited m.inFrontier m.inFrontierNext := by
  unfold MarkState.enterPull at ht
  split at ht
  · exact ⟨‹_›, (Option.some.inj ht).symm⟩
  · cases ht

/-- The pull loop begins on the level the push phase stopped on, with the set bytes of the two maps added. -/
theorem AtTest.cfg_entry (h : AtTest g start s)
    (hm : MarkInv ⟨s.shared.visited, s.frontier, mem, memNext, [], .start⟩ m) (hp : m.pc = .done) :
    g.cfg m.visited m.inFrontier m.inFrontierNext = g.entry start s.level mem memNext := by
  refine Cfg.ext_iff'.mpr ⟨fun v => ?_, fun v => and_congr_right fun _ => ?_, fun v => and_congr_right fun _ => ?_⟩
  · show m.visited v.toNat ≠ 0 ↔ Within g.OutRead start s.level v
    rw [hm.visited]
    exact h.visited v
  · rw [hm.done hp v.toNat, ← h.mem v]
    refine or_congr_right ⟨?_, fun hv => ⟨v, hv, rfl⟩⟩
    intro ⟨u, hu, huv⟩
    exact UInt32.toNat_inj.mp huv ▸ hu
  · rw [hm.next]

theorem AtTest.ends (h : AtTest g start s) (hin : g.InWellFormed) (hm₀ : s.enterMark mem memNext = some m₀) :
    Ends (andThen markFrontier MarkState.enterPull (pullLoop g)) (.inl m₀) fun x =>
      ∃ t, x = .inr t ∧ PullInv g (g.entry start s.level mem memNext) t ∧ t.pc = .done := by
  obtain ⟨-, rfl⟩ := HybridState.enterMark_eq hm₀
  have hpull : ∀ m t, Reach markFrontier ⟨s.shared.visited, s.frontier, mem, memNext, [], .start⟩ m →
      m.enterPull = some t →
      Ends (pullLoop g) t fun t' => PullInv g (g.entry start s.level mem memNext) t' ∧ t'.pc = .done := by
    intro m t hr ht
    obtain ⟨hp, rfl⟩ := MarkState.enterPull_eq ht
    have hm := markInv_of_reach rfl hr
    rw [← h.cfg_entry hm hp]
    exact pullLoop_ends hin (hm.visited ▸ h.bytes)
  refine ((markFrontier_ends rfl).andThen (fun m _ hp => ?_) hpull).mono fun x _ ⟨m, t, hx, _, _, ht⟩ => ⟨t, hx, ht⟩
  unfold MarkState.enterPull
  rw [if_pos hp]
  exact Option.some_ne_none _

/-- Every schedule of `bfs_pushpull` ends, with what the pull loop makes of the level it was given. -/
theorem HybridInv.ends (h : HybridInv g start free s) (hin : g.InWellFormed) :
    Ends (bfsPushpull g free mem memNext) (.inl s) fun x => ∃ s' t, x = .inr (.inr t) ∧
      Reach (hybridPush g free) s s' ∧ s'.pc = .pull ∧ PullInv g (g.entry start s'.level mem memNext) t ∧
        t.pc = .done := by
  have hsecond : ∀ s' y, Reach (hybridPush g free) s s' → (s'.enterMark mem memNext).map Sum.inl = some y →
      Ends (andThen markFrontier MarkState.enterPull (pullLoop g)) y fun x => s'.pc = .pull ∧
        ∃ t, x = .inr t ∧ PullInv g (g.entry start s'.level mem memNext) t ∧ t.pc = .done := by
    intro s' y hr hy
    obtain ⟨m₀, hm₀, rfl⟩ := Option.map_eq_some_iff.mp hy
    have hp := (HybridState.enterMark_eq hm₀).1
    exact (((h.of_reach hr).pull hp).1.ends hin hm₀).mono fun x _ hx => ⟨hp, hx⟩
  refine ((hybridPush_ends g free h).andThen (fun s' _ hp => ?_) hsecond).mono ?_
  · unfold HybridState.enterMark
    rw [if_pos hp]
    exact Option.some_ne_none _
  · intro x _ ⟨s', y, hx, hr, _, hp, t, hy, ht⟩
    exact ⟨s', t, by rw [hx, hy], hr, hp, ht⟩

end Whole

/-! ## Exactness -/

/-- What the run should end with: the reachable vertices, and the arrays of the other two traversals. -/
structure PushPullResult (g : Graph) (start : UInt32) (t : PullState) : Prop where
  done : t.pc = .done
  visited : ∀ v : UInt32, t.shared.visited v.toNat = 1 ↔ Relation.ReflTransGen g.Adj start v
  push : ∀ threads mem bufferMem u c, 0 < threads →
    Reach (bfsPush g threads .whole) (PushState.init g start mem bufferMem) u → u.pc = .done c →
    t.shared.visited = u.shared.visited
  pull : ∀ mem memNext u, Blank g.nbNodes mem → Blank g.nbNodes memNext →
    Reach (pullLoop g) (PullState.init start mem memNext) u → u.pc = .done → t.shared.visited = u.shared.visited

/-- Whatever the switch tests answer, every schedule ends with the right result. -/
def PushPullExact (g : Graph) (start : UInt32) : Prop :=
  ∀ mem memNext, Blank g.nbNodes mem → Blank g.nbNodes memNext →
    Ends (bfsPushpull g true mem memNext) (.inl (HybridState.init start)) fun x =>
      ∃ t, x = .inr (.inr t) ∧ PushPullResult g start t

section Exact
variable {g : Graph} {start : UInt32}

/-- An exact `bfs_pushpull` shows what the other two traversals reach. -/
theorem PushPullExact.reach_iff (hexact : PushPullExact g start) (hin : g.InWellFormed) (hs : start.toNat < g.nbNodes)
    (v : UInt32) : (Relation.ReflTransGen g.Adj start v ↔ Relation.ReflTransGen g.Pulls start v) ∧
      (Relation.ReflTransGen g.Adj start v ↔ Relation.ReflTransGen g.OutRead start v) := by
  have hblank : Blank g.nbNodes fun _ => false := fun _ _ => rfl
  obtain ⟨_, -, t, -, ht⟩ := (hexact _ _ hblank hblank).exists
  obtain ⟨p, hpr, hp, hpull⟩ := (pullLoop_reach hin hs hblank hblank).exists
  obtain ⟨q, hqr, -, c, hq⟩ := (bfsPush_ends g start Nat.one_pos (fun _ => 0) fun _ _ => 0).exists
  rw [← ht.visited]
  constructor
  · rw [ht.pull _ _ p hblank hblank hpr hp, hpull]
  · rw [ht.push 1 _ _ q c Nat.one_pos hqr hq, bfsPush_visited Nat.one_pos hqr hq]

theorem Graph.LastIdle.entry (h : g.LastIdle start) (hout : g.OutWellFormed) (hin : g.InWellFormed) (ht : g.Transposed)
    (hs : start.toNat < g.nbNodes) {mem memNext : ℕ → Bool} (hmem : Blank g.nbNodes mem)
    (hnext : Blank g.nbNodes memNext) (k : ℕ) :
    g.entry start k mem memNext = Cfg.level g.Pulls start k := by
  have hE : ∀ k v, DistIs g.OutRead start k v ↔ DistIs g.Pulls start k v := fun k v => by
    rw [← distIs_outRead hout hs, ← h.cutOut, h.cutIn, distIs_pulls hout hin ht hs]
  rw [entry_blank hmem hnext fun v hv => ?_]
  · exact Cfg.ext_iff'.mpr ⟨fun v => within_congr hE, hE k, fun v => Iff.rfl⟩
  · rw [← distIs_outRead hout hs, ← h.cutOut] at hv
    exact reach_lt hout hs hv.reach

/-- `bfs_pushpull` is exact at every switch point exactly when `lastId` is idle, so on every graph of up to
`2^32-1` vertices. -/
theorem pushPullExact_iff (hout : g.OutWellFormed) (hin : g.InWellFormed) (ht : g.Transposed)
    (hs : start.toNat < g.nbNodes) : PushPullExact g start ↔ g.LastIdle start := by
  constructor
  · intro hexact
    exact lastIdle_of_reach hout hin ht hs (fun v => (hexact.reach_iff hin hs v).1) fun v =>
      (hexact.reach_iff hin hs v).2
  · intro hidle mem memNext hmem hnext
    have hpulls : ∀ v, Relation.ReflTransGen g.Pulls start v ↔ Relation.ReflTransGen g.Adj start v := fun v =>
      reach_congr fun k v => by rw [← distIs_pulls hout hin ht hs, ← hidle.cutIn]
    have houts : ∀ v, Relation.ReflTransGen g.OutRead start v ↔ Relation.ReflTransGen g.Adj start v := fun v =>
      reach_congr fun k v => by rw [← distIs_outRead hout hs, ← hidle.cutOut]
    refine (hybridInv_init.ends hin).mono fun x _ ⟨s', t, hx, _, _, hinv, hp⟩ => ⟨t, hx, ?_⟩
    rw [hidle.entry hout hin ht hs hmem hnext] at hinv
    have hvis : ∀ v : UInt32, t.shared.visited v.toNat = 1 ↔ Relation.ReflTransGen g.Adj start v := fun v => by
      rw [hinv.reach hp, hpulls]
    refine ⟨hp, hvis, fun threads pmem bufferMem u c hT hur hu => ?_, fun mem' memNext' u hmem' hnext' hur hu => ?_⟩
    · obtain ⟨hlevel, -⟩ := (pushInv_of_reach hT hur).done c hu
      refine hinv.bytes.ext hlevel.bytes fun v => ?_
      rw [hvis, bfsPush_visited hT hur hu, houts]
    · have hu' := pullInv_of_reach hin hs hmem' hnext' hur
      refine hinv.bytes.ext hu'.bytes fun v => ?_
      rw [hvis, hu'.reach hu, hpulls]

end Exact

theorem pushPullExact_edge : PushPullExact edgeGraph 0 :=
  (pushPullExact_iff edgeGraph_outWellFormed edgeGraph_inWellFormed edgeGraph_transposed (by decide)).mpr
    (lastIdle_of_lt edgeGraph_outWellFormed (by decide) (by decide))

theorem not_pushPullExact_wrap :
    ¬ ∀ (g : Graph) (start : UInt32), g.OutWellFormed → g.InWellFormed → g.Transposed → start.toNat < g.nbNodes →
      PushPullExact g start := by
  intro h
  have hexact := h wrapGraph 0 wrapGraph_outWellFormed wrapGraph_inWellFormed wrapGraph_transposed (by decide)
  exact wrapGraph_not_pulls (hexact.reach_iff wrapGraph_inWellFormed (by decide) lastId).1

end GraphBenchmark
