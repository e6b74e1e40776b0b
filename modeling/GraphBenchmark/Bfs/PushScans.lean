import GraphBenchmark.Bfs.PushLevels
import GraphBenchmark.Bfs.PushSplit
import GraphBenchmark.Loader.Csr

/-! # The edge tests of `bfs_push`

A pass owes the rows of its frontier and pays them test by test. No vertex is in two frontiers, so in every schedule in
which running threads select different buffers there is at most one test for each record, and in the end one for each
record with a visited source. -/
namespace GraphBenchmark
open Interleaving Levels
set_option autoImplicit false

/-- The edge the next step of the body reads and tests. -/
def PushTask.scans (t : PushTask) : List UInt32 :=
  match t.stage, t.edges with
  | .scan, dst :: _ => [dst]
  | _, _ => []

/-- The tests `visited[dst] == 0` in front of the compare-and-swap. -/
def edgeTests (s : PushState) : PushAct → List UInt32
  | .work i => (s.tasks[i]?).elim [] PushTask.scans
  | _ => []

/-- What is left to test. -/
def PushTask.owed (g : Graph) (frontier : ThreadBuffer) (t : PushTask) : List UInt32 :=
  t.edges ++ t.indices.flatMap fun i => g.outScan (frontier.buffer i)

def PushState.owed (g : Graph) (s : PushState) : List UInt32 := s.tasks.flatMap (PushTask.owed g s.frontier)

/-- The vertices of `expanded` have been in a frontier that was launched; their rows are tested or owed. -/
structure ScanInv (g : Graph) (start : UInt32) (threads : ℕ) (s : PushState) (log expanded : List UInt32) : Prop where
  run : SplitInv g start threads s
  nodup : expanded.Nodup
  mem : ∀ v, v ∈ expanded ↔ ∃ j < s.iterations, DistIs g.OutRead start j v
  tests : (log ++ s.owed g).Perm (expanded.flatMap g.outScan)
  idle : s.pc ≠ .pass → s.tasks = []

section Steps
variable {g : Graph} {start : UInt32} {threads tid : ℕ} {frontier : ThreadBuffer} {r r' : PushShared} {t t' : PushTask}
  {s s' : PushState} {a : PushAct} {log expanded : List UInt32} {rs : List BlockedRange} {mem : ℕ → UInt32}
  {bufferMem : ℕ → ℕ → UInt32}

/-- A step of the body pays what it tests. -/
theorem PushStep.owed {grain : Grain} (h : PushStep g threads grain frontier r tid t r' t') :
    t.scans ++ t'.owed g frontier = t.owed g frontier := by
  cases h <;> rfl

theorem owed_finished (h : t.Finished) : t.owed g frontier = [] := by
  obtain ⟨hindices, hedges, -⟩ := h
  rw [PushTask.owed, hindices, hedges]
  rfl

theorem owed_of_tasks (h : s.tasks = []) : s.owed g = [] := by
  rw [PushState.owed, h]
  rfl

/-- What a launch owes: the rows of the frontier. -/
theorem rows_launch (hrs : Split frontier.next rs) :
    ((rs.map PushTask.ofRange).flatMap (PushTask.owed g frontier)).Perm (frontier.contents.flatMap g.outScan) := by
  have hrows : (rs.map PushTask.ofRange).flatMap (PushTask.owed g frontier) =
      (rs.flatMap BlockedRange.indices).flatMap fun i => g.outScan (frontier.buffer i) := by
    rw [List.flatMap_map, List.flatMap_assoc]
    exact List.flatMap_congr fun r _ => List.nil_append _
  rw [hrows, ThreadBuffer.contents, List.flatMap_map]
  exact hrs.2.flatMap_right _

theorem bfsPush_owed (hp : s.pc = .pass) (ha : bfsPush g threads .split s a = some s') :
    (edgeTests s a ++ s'.owed g).Perm (s.owed g) := by
  cases a with
  | launch rs => simp [bfsPush, hp] at ha
  | exit => simp [bfsPush, hp] at ha
  | begin i tid =>
    simp only [bfsPush] at ha
    split at ha
    · cases ha
    · rename_i t ht
      split at ha
      · cases ha
        obtain ⟨pre, post, hts, hset⟩ := exists_middle ht
        rw [PushState.owed, PushState.owed, hset, hts]
        exact List.Perm.of_eq (by simp [edgeTests, PushTask.owed])
      · cases ha
  | work i =>
    simp only [bfsPush, hp, if_true] at ha
    obtain ⟨⟨o, ts⟩, hw, rfl⟩ := Option.map_eq_some_iff.mp ha
    obtain ⟨pre, t, post, t', hget, hts, hbody, rfl⟩ := work_eq_some_at hw
    obtain ⟨tid, hstep⟩ := pushBody_step hbody
    show (edgeTests s (.work i) ++ (pre ++ t' :: post).flatMap (PushTask.owed g s.frontier)).Perm
      (s.tasks.flatMap (PushTask.owed g s.frontier))
    rw [edgeTests, hget, Option.elim_some, hts, List.flatMap_append, List.flatMap_append, List.flatMap_cons,
      List.flatMap_cons, ← hstep.owed, List.append_assoc]
    exact List.perm_append_comm_assoc _ _ _
  | join =>
    simp only [bfsPush] at ha
    split at ha
    · rename_i hc
      cases ha
      have hnil : s.owed g = [] := List.flatMap_eq_nil_iff.mpr fun t ht => owed_finished (hc.2 t ht)
      rw [hnil]
      exact List.Perm.refl []
    · cases ha

theorem edgeTests_eq_nil (hp : s.pc ≠ .pass) (ha : bfsPush g threads .split s a = some s') : edgeTests s a = [] := by
  cases a with
  | work i => simp [bfsPush, hp] at ha
  | _ => rfl

theorem scanInv_init : ScanInv g start threads (PushState.init g start mem bufferMem) [] [] where
  run := splitInv_init
  nodup := List.nodup_nil
  mem := fun _ => iff_of_false List.not_mem_nil fun ⟨j, hj, _⟩ => absurd hj (Nat.not_lt_zero j)
  tests := List.Perm.refl []
  idle := fun _ => rfl

theorem scanInv_step (hT : 0 < threads) (h : ScanInv g start threads s log expanded)
    (hs' : within (PushState.distinctBuffers threads) (bfsPush g threads .split) s a = some s') :
    ∃ expanded', ScanInv g start threads s' (log ++ edgeTests s a) expanded' := by
  have hrun := splitInv_step hT h.run hs'
  have ha := (within_eq_some.mp hs').1
  by_cases hp : s.pc = .pass
  · -- within a pass the tests are what the tasks owe less
    have hpaid : (log ++ edgeTests s a ++ s'.owed g).Perm (expanded.flatMap g.outScan) := by
      rw [List.append_assoc]
      exact ((bfsPush_owed hp ha).append_left log).trans h.tests
    refine ⟨expanded, hrun, h.nodup, ?_, hpaid, ?_⟩
    · rcases bfsPush_iterations ha with hit | ⟨hhead, -⟩
      · rw [hit]
        exact h.mem
      · exact absurd (hp.symm.trans hhead) nofun
    · cases bfsPush_step ha with
      | launch hhead => exact absurd (hp.symm.trans hhead) nofun
      | begin => exact fun hne => absurd hp hne
      | work => exact fun hne => absurd hp hne
      | join => exact fun _ => rfl
      | exit hhead => exact absurd (hp.symm.trans hhead) nofun
  · have htests := h.tests
    rw [owed_of_tasks (h.idle hp), List.append_nil] at htests
    rw [edgeTests_eq_nil hp ha, List.append_nil]
    cases bfsPush_step ha with
    | @launch rs hhead hnext hrs =>
      obtain ⟨hlevel, -⟩ := h.run.1.head hhead
      refine ⟨expanded ++ s.frontier.contents, hrun, ?_, fun v => ?_, ?_, fun hne => absurd rfl hne⟩
      · -- a vertex has one level
        refine h.nodup.append hlevel.nodup fun v hv hv' => ?_
        obtain ⟨j, hj, hdist⟩ := (h.mem v).mp hv
        have heq := hdist.unique ((hlevel.mem v).mp hv')
        omega
      · show v ∈ expanded ++ s.frontier.contents ↔ ∃ j < s.iterations + 1, DistIs g.OutRead start j v
        rw [List.mem_append, h.mem, hlevel.mem, Nat.exists_lt_succ_right]
      · rw [List.flatMap_append]
        exact htests.append (rows_launch hrs)
    | begin hpass => exact absurd hpass hp
    | work hpass => exact absurd hpass hp
    | join hpass => exact absurd hpass hp
    | exit hhead hz =>
      refine ⟨expanded, hrun, h.nodup, h.mem, ?_, fun _ => h.idle hp⟩
      rw [PushState.owed, h.idle hp, List.flatMap_nil, List.append_nil]
      exact htests

theorem scanInv_of_reach (hT : 0 < threads)
    (h : Reach (logged edgeTests (within (PushState.distinctBuffers threads) (bfsPush g threads .split)))
      (PushState.init g start mem bufferMem, []) (s, log)) :
    ∃ expanded, ScanInv g start threads s log expanded := by
  refine h.invariant (P := fun x => ∃ expanded, ScanInv g start threads x.1 x.2 expanded) ⟨[], scanInv_init⟩
    fun u a v hu ha => ?_
  obtain ⟨hstep, hrec⟩ := logged_eq_some.mp ha
  obtain ⟨expanded, hexpanded⟩ := hu
  rw [hrec]
  exact scanInv_step hT hexpanded hstep

end Steps

/-! ## On the records -/

section Records
variable {g : Graph} {records : EdgeFile} {n threads : ℕ} {start v : UInt32} {s : PushState} {log expanded : List UInt32}
  {mem : ℕ → UInt32} {bufferMem : ℕ → ℕ → UInt32}

/-- The records whose rows `bfs_push` reads: `src+1` wraps at `lastId`, and that row looks empty. -/
def EdgeFile.readable (records : EdgeFile) : List Edge := records.edges.filter fun e => e.src ≠ lastId

theorem Graph.OutOf.scan (hg : g.OutOf records n) (hv : v.toNat < n) :
    (g.outScan v).Perm ((records.readable.filter fun e => e.src = v).map Edge.dst) := by
  rw [EdgeFile.readable, List.filter_filter]
  by_cases hlast : v = lastId
  · have hnil : (records.edges.filter fun e => decide (e.src = v) && decide (e.src ≠ lastId)) = [] :=
      List.filter_eq_nil_iff.mpr fun e _ => by simp [hlast]
    have hwrap : (v + 1).toNat = 0 := by
      rw [hlast]
      rfl
    rw [Graph.outScan, hwrap, hg.csr.zero, slots_zero, hnil]
    exact List.Perm.refl []
  · have hrow := hg.row v.toNat hv
    rw [Graph.outScan, toNat_add_one hlast]
    refine hrow.trans (List.Perm.of_eq (congrArg (List.map Edge.dst) (List.filter_congr fun e _ => ?_)))
    rw [Bool.eq_iff_iff, Bool.and_eq_true, decide_eq_true_iff, decide_eq_true_iff, decide_eq_true_iff, UInt32.toNat_inj]
    constructor
    · intro heq
      exact ⟨heq, heq ▸ hlast⟩
    · exact And.left

/-- The rows of distinct vertices, in whatever order, are their records. -/
theorem Graph.OutOf.scans (hg : g.OutOf records n) (hexpanded : expanded.Nodup) (hlt : ∀ v ∈ expanded, v.toNat < n) :
    (expanded.flatMap g.outScan).Perm ((records.readable.filter fun e => e.src ∈ expanded).map Edge.dst) := by
  have hrows : (expanded.flatMap g.outScan).Perm
      (expanded.flatMap fun v => (records.readable.filter fun e => e.src = v).map Edge.dst) :=
    List.Perm.flatMap_left _ fun v hv => hg.scan (hlt v hv)
  rw [← List.map_flatMap] at hrows
  exact hrows.trans ((Slices.perm_flatMap_filter hexpanded).map Edge.dst)

theorem ScanInv.expanded_iff (h : ScanInv g start threads s log expanded) {c : ℕ} (hp : s.pc = .done c) (v : UInt32) :
    v ∈ expanded ↔ s.shared.visited v.toNat = 1 := by
  obtain ⟨hlevel, hnext, -⟩ := h.run.1.done c hp
  rw [h.mem, hlevel.visited, within_iff]
  constructor
  · intro ⟨j, hj, hdist⟩
    exact ⟨j, hj.le, hdist⟩
  · intro ⟨j, hj, hdist⟩
    refine ⟨j, lt_of_le_of_ne hj fun heq => ?_, hdist⟩
    -- the last frontier is empty
    rw [heq, ← hlevel.mem, (ThreadBuffer.contents_eq_nil_iff _).mpr hnext] at hdist
    cases hdist

/-- Whatever the schedule: up to any point of a run a vertex has been tested at most once for each record that ends at it,
and at the end once for each of these with a visited source. Only the row of `lastId` is passed over. -/
theorem bfsPush_scans (hg : g.OutOf records n) (hs : start.toNat < n) (hT : 0 < threads)
    (h : Reach (logged edgeTests (within (PushState.distinctBuffers threads) (bfsPush g threads .split)))
      (PushState.init g start mem bufferMem, []) (s, log)) :
    log.Subperm (records.edges.map Edge.dst) ∧ ∀ c, s.pc = .done c →
      log.Perm ((records.edges.filter fun e => s.shared.visited e.src.toNat = 1 ∧ e.src ≠ lastId).map Edge.dst) := by
  obtain ⟨expanded, hinv⟩ := scanInv_of_reach hT h
  have hlt : ∀ v ∈ expanded, v.toNat < n := by
    intro v hv
    obtain ⟨j, -, hdist⟩ := (hinv.mem v).mp hv
    rw [← hg.nbNodes]
    exact (distIs_outRead_lt hg.csr (hg.nbNodes.symm ▸ hs) hdist).2
  have hrows := hinv.tests.trans (hg.scans hinv.nodup hlt)
  constructor
  · have hsub : ((records.readable.filter fun e => e.src ∈ expanded).map Edge.dst).Sublist (records.edges.map Edge.dst) :=
      (List.filter_sublist.trans List.filter_sublist).map _
    exact (List.sublist_append_left _ _).subperm.trans (hrows.subperm.trans hsub.subperm)
  · intro c hp
    have hne : s.pc ≠ .pass := by
      rw [hp]
      exact nofun
    rw [owed_of_tasks (hinv.idle hne), List.append_nil, EdgeFile.readable, List.filter_filter] at hrows
    refine hrows.trans (List.Perm.of_eq (congrArg (List.map Edge.dst) (List.filter_congr fun e _ => ?_)))
    rw [← Bool.decide_and]
    exact decide_eq_decide.mpr (and_congr_left' (hinv.expanded_iff hp e.src))

end Records

/-- Three records between two vertices, two of them parallel. -/
theorem bfsPush_scans_parallel : ∃ (g : Graph) (s : PushState) (log : List UInt32) (c : ℕ),
    Reach (logged edgeTests (within (PushState.distinctBuffers 2) (bfsPush g 2 .split)))
      (PushState.init g 0 (fun _ => 7) fun _ _ => 7, []) (s, log) ∧ s.pc = .done c ∧
    log.Perm ((parallelFile.edges.filter fun e =>
      s.shared.visited e.src.toNat = 1 ∧ e.src ≠ lastId).map Edge.dst) := by
  have hdegree : ∀ key : Edge → UInt32, ∀ v, parallelFile.degree key v ≤ 2 ^ 32 := fun key v =>
    List.countP_le_length.trans (by decide)
  obtain ⟨g, hcreated⟩ := @exists_created parallelFile true 2 (by decide) (hdegree Edge.src) fun _ => hdegree Edge.dst
  have hg := created_outOf (by decide) (hdegree Edge.src) (fun _ => hdegree Edge.dst) hcreated
  obtain ⟨s, hs, -, c, hp⟩ := (@pushSplit_ends g 0 2 Nat.two_pos (fun _ => 7) fun _ _ => 7).exists
  obtain ⟨log, hlog⟩ := hs.logged edgeTests []
  exact ⟨g, s, log, c, hlog, hp, (bfsPush_scans hg (by decide) (by decide) hlog).2 c hp⟩

end GraphBenchmark
