import GraphBenchmark.Model.Hub
import GraphBenchmark.Bfs.Switch
import GraphBenchmark.Bfs.Contents
import GraphBenchmark.Loader.Csr

/-! # Which runs read the in-CSR

The pull loop reads the in-edges of every vertex it finds unvisited, whether the loader has built the in-CSR or not.
So a graph loaded without the flag is only safe where the pull loop finds every vertex visited (`readsBuilt_iff`). -/
namespace GraphBenchmark
open Interleaving Levels
set_option autoImplicit false

/-! ## What the loader builds -/

section Built
variable {file : EdgeFile} {symmetric : Bool} {n : ℕ} {mem offsets : Offsets} {outMem inMem : ℕ → UInt32}
  {s : CountState} {t t' : CreateState}

/-- A record has been stored in the in-edges, or a task has still to treat it. -/
structure StoredOrTodo (file : EdgeFile) (t : CreateState) : Prop where
  record : t.pc ≠ .start → ∀ i < file.nbEdges,
    (∃ slot, (i, slot) ∈ t.arrays.inArray.stores) ∨ ∃ task ∈ t.tasks, i ∈ task.todo
  done : t.pc = .done → t.tasks = []

theorem storedOrTodo_step (h : StoredOrTodo file t) {a : CreateAct} (ha : createEdges file true offsets t a = some t') :
    StoredOrTodo file t' := by
  cases createEdges_step ha with
  | @launch rs hp hrs =>
    refine ⟨fun _ i hi => Or.inr ?_, nofun⟩
    obtain ⟨r, hr, hir⟩ := hrs.mem_iff.mpr hi
    exact ⟨_, List.mem_map_of_mem hr, hir⟩
  | work hp hw =>
    refine ⟨fun hne i hi => ?_, fun hp' => absurd (hp'.symm.trans hp) nofun⟩
    obtain ⟨pre, task, post, task', hts, hbody, rfl⟩ := work_eq_some hw
    have hrec := h.record hne i hi
    rw [hts, exists_mem_middle] at hrec
    rw [exists_mem_middle]
    obtain ⟨j, rest, ⟨rfl, rfl, rfl⟩ | ⟨o, rfl, rfl, rfl⟩ | ⟨rfl, rfl, rfl⟩ | ⟨o, rfl, rfl, rfl⟩⟩ :=
      createEdgesBody_cases hbody
    · exact hrec
    · exact hrec
    · exact hrec
    · -- the record in hand leaves the task and enters the record of stores
      rcases hrec with ⟨slot, hslot⟩ | hi' | hother
      · exact Or.inl ⟨slot, List.mem_cons_of_mem _ hslot⟩
      · rcases List.mem_cons.mp hi' with rfl | hrest
        · exact Or.inl ⟨_, List.mem_cons_self ..⟩
        · exact Or.inr (Or.inl hrest)
      · exact Or.inr (Or.inr hother)
  | join hp hdone =>
    refine ⟨fun _ i hi => Or.inl ?_, fun _ => rfl⟩
    rcases h.record (fun hp' => absurd (hp'.symm.trans hp) nofun) i hi with hslot | ⟨task, htask, hi'⟩
    · exact hslot
    · rw [hdone task htask] at hi'
      cases hi'

theorem storedOrTodo_init : StoredOrTodo file (CreateState.init outMem inMem) := ⟨fun hp => absurd rfl hp, nofun⟩

theorem sumDegree_inEdgeOffsets {o o' : Offsets} {m : ℕ} (h : sumDegree true n m o = some o') :
    ∃ counts, sumDegreeBlock n m counts = some o'.inEdgeOffsets := by
  simp only [sumDegree, if_true, Option.bind_eq_bind, Option.bind_eq_some_iff] at h
  obtain ⟨out, -, inn, hinn, heq⟩ := h
  exact ⟨o.inEdgeOffsets, Option.some.inj heq ▸ hinn⟩

/-- Whatever the file, a loading that completes builds the in-CSR exactly when the flag is set. -/
theorem Loads.inBuilt_iff (h : Loads file symmetric n mem outMem inMem s t) :
    InBuilt file symmetric n s t ↔ symmetric = true := by
  refine ⟨InBuilt.allocated, ?_⟩
  rintro rfl
  have hcount : s.pc = .done → ∃ counts, sumDegreeBlock n file.nbEdges counts = some s.offsets.inEdgeOffsets := by
    refine h.count.invariant (P := fun s : CountState => s.pc = .done →
      ∃ counts, sumDegreeBlock n file.nbEdges counts = some s.offsets.inEdgeOffsets) nofun fun u a v hu ha => ?_
    cases countDegree_step ha with
    | launch hp hrs => exact nofun
    | work hp hw => exact fun hp' => absurd (hp'.symm.trans hp) nofun
    | join hp hdone hsum => exact fun _ => sumDegree_inEdgeOffsets hsum
    | abort hp hdone hsum => exact nofun
  have hcreate := h.create.invariant storedOrTodo_init fun _ _ _ hu ha => storedOrTodo_step hu ha
  refine ⟨rfl, hcount h.counted, fun i hi => ?_⟩
  rcases hcreate.record (fun hp' => absurd (hp'.symm.trans h.created) nofun) i hi with hslot | ⟨task, htask, -⟩
  · exact hslot
  · rw [hcreate.done h.created] at htask
    cases htask

end Built

/-! ## What the pull loop reads -/

section Pull
variable {g : Graph} {s s' : PullState} {a : PullAct}

/-- Every vertex is visited, so every task passes over its indices. -/
structure Quiet (g : Graph) (s : PullState) : Prop where
  visited : ∀ i < g.nbNodes, s.shared.visited (UInt32.ofNat i).toNat ≠ 0
  tasks : ∀ t ∈ s.tasks, (∀ i ∈ t.indices, i < g.nbNodes) ∧ (t.stage = .check ∨ t.stage = .through)

theorem quiet_step (h : Quiet g s) (ha : pullLoop g s a = some s') : Quiet g s' := by
  cases pullLoop_step ha with
  | @launch rs hp hrs =>
    refine ⟨h.visited, fun t ht => ?_⟩
    obtain ⟨r, hr, rfl⟩ := List.mem_map.mp ht
    exact ⟨fun i hi => hrs.mem_iff.mp ⟨r, hr, hi⟩, Or.inl rfl⟩
  | work hp hw =>
    obtain ⟨pre, t, post, t', hts, hbody, rfl⟩ := work_eq_some hw
    have htasks := h.tasks
    rw [hts, forall_mem_middle] at htasks
    obtain ⟨⟨hlt, hstage⟩, hothers⟩ := htasks
    cases pullBody_step hbody with
    | visited hv =>
      refine ⟨h.visited, forall_mem_middle.mpr ⟨⟨fun i hi => hlt i (List.mem_cons_of_mem _ hi), Or.inl rfl⟩, hothers⟩⟩
    | enter hv => exact absurd hv (h.visited _ (hlt _ (List.mem_cons_self ..)))
    | stop => exact ⟨h.visited, forall_mem_middle.mpr ⟨⟨nofun, Or.inr rfl⟩, hothers⟩⟩
    | past | hit _ | miss _ | claim | put => rcases hstage with hstage | hstage <;> cases hstage
  | join hp hdone => exact ⟨h.visited, fun t ht => absurd ht List.not_mem_nil⟩

theorem Quiet.not_readsIn (h : Quiet g s) (a : PullAct) : s.readsIn a = false := by
  cases a with
  | work i =>
    simp only [PullState.readsIn]
    split
    · rename_i t ht
      obtain ⟨hlt, hstage⟩ := h.tasks t (List.mem_of_getElem? ht)
      obtain ⟨is, stage, f⟩ := t
      rcases hstage with rfl | rfl
      · cases is with
        | nil => rfl
        | cons i is => exact decide_eq_false (h.visited i (hlt i (List.mem_cons_self ..)))
      · rfl
    · rfl
  | launch rs | join => rfl

theorem quiet_of_reach (h : Quiet g s) (hr : Reach (pullLoop g) s s') : Quiet g s' :=
  hr.invariant h fun _ _ _ hu ha => quiet_step hu ha

theorem split_unit (n : ℕ) : Split n ((List.range n).map fun i => ⟨i, i + 1⟩) := by
  refine ⟨fun r hr => ?_, ?_⟩
  · obtain ⟨i, -, rfl⟩ := List.mem_map.mp hr
    exact Nat.lt_succ_self i
  · rw [List.flatMap_map]
    have hunit : ∀ i, BlockedRange.indices ⟨i, i + 1⟩ = [i] := fun i => by
      simp only [BlockedRange.indices, Nat.add_sub_cancel_left]
      rfl
    simp only [hunit, List.flatMap_singleton']
    exact List.Perm.refl _

/-- With a vertex left unvisited, some schedule reads its in-edges in the first round. -/
theorem exists_readsIn (hp : s.pc = .head) {i : ℕ} (hi : i < g.nbNodes)
    (hv : s.shared.visited (UInt32.ofNat i).toNat = 0) :
    ∃ s' a s'', Reach (pullLoop g) s s' ∧ pullLoop g s' a = some s'' ∧ s'.readsIn a = true := by
  let s' : PullState := { s with
    shared := { s.shared with cont := false }
    iterations := s.iterations + 1
    tasks := ((List.range g.nbNodes).map fun i => ⟨i, i + 1⟩).map PullTask.ofRange
    pc := .round }
  have hlaunch : pullLoop g s (.launch ((List.range g.nbNodes).map fun i => ⟨i, i + 1⟩)) = some s' := by
    simp only [pullLoop]
    rw [if_pos ⟨hp, split_unit _⟩]
  have htask : s'.tasks[i]? = some ⟨[i], .check, false⟩ := by
    simp only [s', List.map_map, List.getElem?_map, List.getElem?_range hi, Option.map_some, Function.comp_apply,
      PullTask.ofRange, BlockedRange.indices, Nat.add_sub_cancel_left]
    rfl
  have hreads : s'.readsIn (.work i) = true := by
    simp only [PullState.readsIn, htask]
    exact decide_eq_true hv
  have hwork : pullLoop g s' (.work i) ≠ none := by
    simp only [pullLoop, work, htask]
    rw [if_pos rfl]
    exact Option.some_ne_none _
  obtain ⟨s'', hs''⟩ := Option.ne_none_iff_exists'.mp hwork
  exact ⟨s', .work i, s'', (Reach.refl _ _).tail hlaunch, hs'', hreads⟩

end Pull

/-! ## Reads and the built in-CSR -/

/-- Every read of the in-CSR in a run of the traversal finds it built. -/
def ReadsBuilt (file : EdgeFile) (symmetric : Bool) (n : ℕ) (s : CountState) (t : CreateState) (opt : ℤ)
    (start : UInt32) : Prop :=
  ∀ threads grain mem x₀, HubState.init (t.graph file symmetric n s.offsets) mem start opt = some x₀ →
    ∀ x a y, Reach (bfsHub (t.graph file symmetric n s.offsets) threads grain mem) x₀ x →
      bfsHub (t.graph file symmetric n s.offsets) threads grain mem x a = some y → x.readsIn a = true →
        InBuilt file symmetric n s t

/-- The push phase of `bfs_pushpull` ends with every vertex visited. -/
def Graph.PushVisitsAll (g : Graph) (start : UInt32) : Prop :=
  ∀ k, g.EntersPull start k → ∀ i < g.nbNodes, Within g.OutRead start k (UInt32.ofNat i)

/-- Some run of the traversal reads the in-CSR. -/
def Graph.HubReads (g : Graph) (opt : ℤ) (start : UInt32) : Prop :=
  ∃ threads grain mem x₀ x a y, HubState.init g mem start opt = some x₀ ∧ Reach (bfsHub g threads grain mem) x₀ x ∧
    bfsHub g threads grain mem x a = some y ∧ x.readsIn a = true

section Hub
variable {g : Graph} {start : UInt32} {threads : ℕ} {grain : Grain} {mem : HubMem}

theorem hubReach_push {s : PushState} {x : HubState} :
    Reach (bfsHub g threads grain mem) (.push s) x ↔ ∃ s', x = .push s' ∧ Reach (bfsPush g threads grain) s s' := by
  refine reach_embed_iff HubState.push (fun s a s' ha => ⟨.push a, Option.map_eq_some_iff.mpr ⟨s', ha, rfl⟩⟩)
    fun s b y hb => ?_
  cases b with
  | push a =>
    obtain ⟨s', ha, rfl⟩ := Option.map_eq_some_iff.mp hb
    exact ⟨a, s', rfl, ha⟩
  | pull a | pushpull a => cases hb

theorem hubReach_pull {s : PullState} {x : HubState} :
    Reach (bfsHub g threads grain mem) (.pull s) x ↔ ∃ s', x = .pull s' ∧ Reach (pullLoop g) s s' := by
  refine reach_embed_iff HubState.pull (fun s a s' ha => ⟨.pull a, Option.map_eq_some_iff.mpr ⟨s', ha, rfl⟩⟩)
    fun s b y hb => ?_
  cases b with
  | pull a =>
    obtain ⟨s', ha, rfl⟩ := Option.map_eq_some_iff.mp hb
    exact ⟨a, s', rfl, ha⟩
  | push a | pushpull a => cases hb

theorem hubReach_pushpull {s : PushPullState} {x : HubState} :
    Reach (bfsHub g threads grain mem) (.pushpull s) x ↔
      ∃ s', x = .pushpull s' ∧ Reach (bfsPushpull g false mem.inFrontier mem.inFrontierNext) s s' := by
  refine reach_embed_iff HubState.pushpull
    (fun s a s' ha => ⟨.pushpull a, Option.map_eq_some_iff.mpr ⟨s', ha, rfl⟩⟩) fun s b y hb => ?_
  cases b with
  | pushpull a =>
    obtain ⟨s', ha, rfl⟩ := Option.map_eq_some_iff.mp hb
    exact ⟨a, s', rfl, ha⟩
  | push a | pull a => cases hb

/-- `bfs_pull` reads in-edges unless it starts on the only vertex. -/
theorem hubReads_pull_iff : g.HubReads 1 start ↔ ∃ i < g.nbNodes, UInt32.ofNat i ≠ start := by
  constructor
  · rintro ⟨threads, grain, mem, x₀, x, a, y, hx₀, hr, ha, hreads⟩
    obtain rfl : HubState.pull (PullState.init start mem.inFrontier mem.inFrontierNext) = x₀ := Option.some.inj hx₀
    by_contra hall
    have hquiet : Quiet g (PullState.init start mem.inFrontier mem.inFrontierNext) :=
      ⟨fun i hi => (visited_init start _).mpr (not_not.mp fun hne => hall ⟨i, hi, hne⟩),
        fun t ht => absurd ht List.not_mem_nil⟩
    obtain ⟨s, rfl, hs⟩ := hubReach_pull.mp hr
    cases a with
    | pull a => exact Bool.false_ne_true (((quiet_of_reach hquiet hs).not_readsIn a).symm.trans hreads)
    | push a | pushpull a => cases ha
  · intro ⟨i, hi, hne⟩
    have hv := not_not.mp fun h => hne ((visited_init start _).mp h)
    obtain ⟨s, a, s', hs, ha, hreads⟩ := exists_readsIn (g := g)
      (s := PullState.init start (fun _ => false) fun _ => false) rfl hi hv
    exact ⟨1, .whole, ⟨fun _ => 0, fun _ _ => 0, fun _ => false, fun _ => false⟩, _, .pull s, .pull a, .pull s', rfl,
      hubReach_pull.mpr ⟨s, rfl, hs⟩, Option.map_eq_some_iff.mpr ⟨s', ha, rfl⟩, hreads⟩

/-- Where the push phase ends is what the pull block finds visited. -/
theorem entry_visited {s : HybridState} {m₀ m : MarkState} {t : PullState} {inFrontier inFrontierNext : ℕ → Bool}
    (hs : Reach (hybridPush g false) (HybridState.init start) s)
    (hm₀ : s.enterMark inFrontier inFrontierNext = some m₀) (hm : Reach markFrontier m₀ m) (ht : m.enterPull = some t) :
    g.EntersPull start s.level ∧ t.pc = .head ∧ t.tasks = [] ∧
      ∀ v : UInt32, t.shared.visited v.toNat ≠ 0 ↔ Within g.OutRead start s.level v := by
  obtain ⟨hp, rfl⟩ := HybridState.enterMark_eq hm₀
  obtain ⟨-, rfl⟩ := MarkState.enterPull_eq ht
  have hinv : HybridInv g start false s := hybridInv_init.of_reach hs
  refine ⟨hinv.entersPull hp, rfl, rfl, fun v => ?_⟩
  show m.visited v.toNat ≠ 0 ↔ _
  rw [(markInv_of_reach rfl hm).visited]
  exact (hinv.pull hp).1.visited v

/-- `bfs_pushpull` reads in-edges unless its push phase visits every vertex. -/
theorem hubReads_pushpull_iff : g.HubReads 2 start ↔ ¬ g.PushVisitsAll start := by
  constructor
  · rintro ⟨threads, grain, mem, x₀, x, a, y, hx₀, hr, ha, hreads⟩ hall
    obtain rfl : HubState.pushpull (.inl (HybridState.init start)) = x₀ := Option.some.inj hx₀
    obtain ⟨z, rfl, hz⟩ := hubReach_pushpull.mp hr
    rcases reach_andThen hz with ⟨s, rfl, -⟩ | ⟨s, w, w', rfl, hs, hw, hw'⟩
    · cases a <;> cases hreads
    · obtain ⟨m₀, hm₀, rfl⟩ := Option.map_eq_some_iff.mp hw
      rcases reach_andThen hw' with ⟨m, rfl, -⟩ | ⟨m, t, t', rfl, hm, ht, ht'⟩
      · cases a <;> cases hreads
      · obtain ⟨hK, -, htasks, hvis⟩ := entry_visited hs hm₀ hm ht
        have hquiet : Quiet g t := ⟨fun i hi => (hvis _).mpr (hall _ hK i hi), by simp [htasks]⟩
        cases a with
        | pushpull a =>
          rcases a with a | _ | (a | _ | a)
          case second.second => exact Bool.false_ne_true (((quiet_of_reach hquiet ht').not_readsIn a).symm.trans hreads)
          all_goals cases hreads
        | push a | pull a => cases hreads
  · intro hnot
    obtain ⟨k, hk⟩ := not_forall.mp hnot
    obtain ⟨hK, hk⟩ := Classical.not_imp.mp hk
    obtain ⟨i, hi⟩ := not_forall.mp hk
    obtain ⟨hi, hfar⟩ := Classical.not_imp.mp hi
    have hinit : HybridInv g start false (HybridState.init start) := hybridInv_init
    obtain ⟨s, hs, hp⟩ := (hybridPush_ends g false hinit).exists
    have hm₀ : s.enterMark (fun _ => false) (fun _ => false) =
        some ⟨s.shared.visited, s.frontier, fun _ => false, fun _ => false, [], .start⟩ := if_pos hp
    have hpc : (⟨s.shared.visited, s.frontier, fun _ => false, fun _ => false, [], .start⟩ : MarkState).pc = .start := rfl
    obtain ⟨m, hm, hmp⟩ := (markFrontier_ends hpc).exists
    have ht : m.enterPull = some (PullState.enter m.visited m.inFrontier m.inFrontierNext) := if_pos hmp
    obtain ⟨hK', htp, -, hvis⟩ := entry_visited hs hm₀ hm ht
    rw [hK.unique hK', ← hvis, not_not] at hfar
    obtain ⟨t, a, t', hr, ha, hreads⟩ := exists_readsIn htp hi hfar
    have hmark : Reach (andThen markFrontier MarkState.enterPull (pullLoop g)) (.inl _) (.inr t) := Reach.andThen hm ht hr
    have hrun : Reach (bfsPushpull g false (fun _ => false) fun _ => false) (.inl (HybridState.init start))
        (.inr (.inr t)) := hs.andThen (Option.map_eq_some_iff.mpr ⟨_, hm₀, rfl⟩) hmark
    exact ⟨1, .whole, ⟨fun _ => 0, fun _ _ => 0, fun _ => false, fun _ => false⟩, _, .pushpull (.inr (.inr t)),
      .pushpull (.second (.second a)), .pushpull (.inr (.inr t')), rfl, hubReach_pushpull.mpr ⟨_, rfl, hrun⟩,
      by simp [bfsHub, bfsPushpull, Interleaving.andThen, ha], hreads⟩

theorem not_hubReads_push {opt : ℤ} (h1 : opt ≠ 1) (h2 : opt ≠ 2) : ¬ g.HubReads opt start := by
  rintro ⟨threads, grain, mem, x₀, x, a, y, hx₀, hr, ha, hreads⟩
  unfold HubState.init at hx₀
  rw [if_neg h1, if_neg h2] at hx₀
  split at hx₀
  · cases hx₀
    obtain ⟨s, rfl, -⟩ := hubReach_push.mp hr
    cases a <;> cases hreads
  · cases hx₀

/-- Where `lastId` is out of reach the push phase visits what can be reached. -/
theorem pushVisitsAll_iff (hout : g.OutWellFormed) (hs : start.toNat < g.nbNodes)
    (hl : ¬ Relation.ReflTransGen g.Adj start lastId) :
    g.PushVisitsAll start ↔ ∀ i < g.nbNodes, Relation.ReflTransGen g.Adj start (UInt32.ofNat i) := by
  have hinit : HybridInv g start false (HybridState.init start) := hybridInv_init
  obtain ⟨s, hr, hp⟩ := (hybridPush_ends g false hinit).exists
  have hK := (hinit.of_reach hr).entersPull hp
  obtain ⟨p, hlog⟩ := hr.logged HybridState.processed []
  have hat := ((hinit.of_reach hr).pull hp).1
  have hempty : ∀ v, ¬ DistIs g.OutRead start s.level v := fun v hv => by
    have hmem := (hat.mem v).mpr hv
    rw [(switchExact_of_unmet hout hs (Or.inr hl)).pull s p hlog hp] at hmem
    cases hmem
  have hreach : ∀ v, Within g.OutRead start s.level v ↔ Relation.ReflTransGen g.Adj start v := by
    intro v
    have hadj : ∀ k v, DistIs g.OutRead start k v ↔ DistIs g.Adj start k v := fun k v => by
      rw [← distIs_outRead hout hs, distIs_cutOut_of_not_reach hl]
    rw [← reach_congr hadj, reach_iff_distIs, within_iff]
    constructor
    · rintro ⟨j, -, hv⟩
      exact ⟨j, hv⟩
    · rintro ⟨j, hv⟩
      refine ⟨j, ?_, hv⟩
      by_contra hlt
      obtain ⟨u, hu⟩ := hv.exists_of_le (Nat.le_of_lt (Nat.lt_of_not_le hlt))
      exact hempty u hu
  constructor
  · exact fun h i hi => (hreach _).mp (h s.level hK i hi)
  · exact fun h k hk i hi => hk.unique hK ▸ (hreach _).mpr (h i hi)

end Hub

section Loaded
variable {file : EdgeFile} {symmetric : Bool} {n : ℕ} {mem : Offsets} {outMem inMem : ℕ → UInt32}
  {s : CountState} {t : CreateState} {start : UInt32}

/-- The traversals only read adjacency that was built exactly when the flag is set, or the pull block finds every
vertex visited: `bfs_push` has none, `bfs_pull` begins with the start vertex alone, `bfs_pushpull` with what its push
phase has visited. -/
theorem readsBuilt_iff (h : Loads file symmetric n mem outMem inMem s t) (opt : ℤ) (start : UInt32) :
    ReadsBuilt file symmetric n s t opt start ↔ symmetric = true ∨
      (opt = 1 → ∀ i < n, UInt32.ofNat i = start) ∧
      (opt = 2 → (t.graph file symmetric n s.offsets).PushVisitsAll start) := by
  have hbuilt : ReadsBuilt file symmetric n s t opt start ↔
      symmetric = true ∨ ¬ (t.graph file symmetric n s.offsets).HubReads opt start := by
    rw [← h.inBuilt_iff]
    constructor
    · intro hall
      by_cases hreads : (t.graph file symmetric n s.offsets).HubReads opt start
      · obtain ⟨threads, grain, mem, x₀, x, a, y, hx₀, hr, ha, hin⟩ := hreads
        exact Or.inl (hall threads grain mem x₀ hx₀ x a y hr ha hin)
      · exact Or.inr hreads
    · intro hor threads grain mem x₀ hx₀ x a y hr ha hin
      exact hor.resolve_right (not_not.mpr ⟨threads, grain, mem, x₀, x, a, y, hx₀, hr, ha, hin⟩)
  rw [hbuilt]
  refine or_congr_right ?_
  by_cases h1 : opt = 1
  · subst h1
    rw [hubReads_pull_iff, not_exists]
    simp only [not_and, not_not, true_implies]
    exact (and_iff_left fun h2 => absurd h2 (by decide)).symm
  · by_cases h2 : opt = 2
    · subst h2
      rw [hubReads_pushpull_iff, not_not]
      simp only [true_implies]
      exact (and_iff_right fun h1 => absurd h1 (by decide)).symm
    · exact iff_of_true (not_hubReads_push h1 h2) ⟨fun h => absurd h h1, fun h => absurd h h2⟩

theorem exists_loads (hfile : file.EndpointsBelow n) (hout : ∀ v, file.outDegree v ≤ 2 ^ 32)
    (hin : symmetric = true → ∀ v, file.inDegree v ≤ 2 ^ 32) :
    ∃ mem outMem inMem s t, Loads file symmetric n mem outMem inMem s t ∧
      (t.graph file symmetric n s.offsets).OutOf file n := by
  obtain ⟨g, hg⟩ := exists_created hfile hout hin
  have hcsr := created_outOf hfile hout hin hg
  obtain ⟨mem, s, outMem, inMem, t, -, hs, hsp, ht, htp, rfl⟩ := hg
  exact ⟨mem, outMem, inMem, s, t, ⟨hs, hsp, ht, htp⟩, hcsr⟩

end Loaded

theorem parallelFile_degree (key : Edge → UInt32) (v : ℕ) : parallelFile.degree key v ≤ 2 ^ 32 :=
  List.countP_le_length.trans (by decide)

theorem exists_parallel : ∃ mem outMem inMem s t, Loads parallelFile false 2 mem outMem inMem s t ∧
    (t.graph parallelFile false 2 s.offsets).OutOf parallelFile 2 := by
  have hbelow : parallelFile.EndpointsBelow 2 := by decide
  exact exists_loads hbelow (parallelFile_degree _) nofun

/-- Without the flag, but with both vertices visited by the push phase. -/
theorem readsBuilt_parallel : ∃ mem outMem inMem s t, Loads parallelFile false 2 mem outMem inMem s t ∧
    ReadsBuilt parallelFile false 2 s t 2 0 := by
  obtain ⟨mem, outMem, inMem, s, t, h, hcsr⟩ := exists_parallel
  refine ⟨mem, outMem, inMem, s, t, h, (readsBuilt_iff h 2 0).mpr (Or.inr ⟨nofun, fun _ => ?_⟩)⟩
  have hstart : (0 : UInt32).toNat < (t.graph parallelFile false 2 s.offsets).nbNodes :=
    show (0 : UInt32).toNat < 2 by decide
  have hlast : ¬ Relation.ReflTransGen (t.graph parallelFile false 2 s.offsets).Adj 0 lastId := fun hl =>
    absurd (reach_lt hcsr.csr hstart hl) (show ¬ lastId.toNat < 2 by decide)
  refine (pushVisitsAll_iff hcsr.csr hstart hlast).mpr fun i hi => ?_
  have hi' : i < 2 := hi
  have hedge : (t.graph parallelFile false 2 s.offsets).Adj 0 1 :=
    ⟨show 0 < 2 by decide, (hcsr.row 0 (by decide)).mem_iff.mpr (by decide)⟩
  obtain rfl | rfl : i = 0 ∨ i = 1 := by omega
  · exact Relation.ReflTransGen.refl
  · exact Relation.ReflTransGen.single hedge

theorem not_readsBuilt_pull :
    ¬ ∀ (file : EdgeFile) (symmetric : Bool) (n : ℕ) (mem : Offsets) (outMem inMem : ℕ → UInt32) (s : CountState)
      (t : CreateState) (opt : ℤ) (start : UInt32), Loads file symmetric n mem outMem inMem s t →
      (opt = 0 ∨ opt = 1 ∨ opt = 2) → start.toNat < n → ReadsBuilt file symmetric n s t opt start := by
  intro hall
  obtain ⟨mem, outMem, inMem, s, t, h, -⟩ := exists_parallel
  obtain ⟨threads, grain, hubMem, x₀, x, a, y, hx₀, hr, ha, hreads⟩ :=
    hubReads_pull_iff.mpr (show ∃ i < (t.graph parallelFile false 2 s.offsets).nbNodes, UInt32.ofNat i ≠ 0 from
      ⟨1, show 1 < 2 by decide, by decide⟩)
  have hbuilt := hall parallelFile false 2 mem outMem inMem s t 1 0 h (Or.inr (Or.inl rfl)) (by decide) threads grain
    hubMem x₀ hx₀ x a y hr ha hreads
  exact Bool.false_ne_true hbuilt.allocated

end GraphBenchmark
