import GraphBenchmark.Benchmark.Loading
import GraphBenchmark.Bfs.PushLevels
import GraphBenchmark.Bfs.PushPull
import GraphBenchmark.Bfs.PushSplit
import GraphBenchmark.Reorder.Graphs

/-! # What loading and traversing visit

From the bytes of an edge file to the visited array: whatever the traversal, the sizes of the reads, the order of the
tasks and the interleaving of their steps, `benchmark` ends with the vertices that the records lead to from vertex `0`,
unless it stops at a failed read or at a failed assertion. In `bfs_push` running threads have to select different thread
buffers (`benchmarkDistinct`). -/
namespace GraphBenchmark
open Interleaving Levels
set_option autoImplicit false

/-- There is a record from `u` to `v`. -/
def EdgeFile.Adj (records : EdgeFile) (u v : UInt32) : Prop := (⟨u, v⟩ : Edge) ∈ records.edges

/-- The traversal has visited what the records lead to from `start`, and what it prints is their number. -/
structure HubState.Visits (h : HubState) (records : EdgeFile) (start : UInt32) : Prop where
  finished : h.finished
  visited : ∀ v : UInt32, h.visited v.toNat = 1 ↔ Relation.ReflTransGen records.Adj start v
  printed : ∀ c, h.printed = some c → c = {v | Relation.ReflTransGen records.Adj start v}.ncard

/-! ## The dispatch -/

/-- In `bfs_push`, the threads inside a task body select different buffers. -/
def HubState.distinctBuffers (threads : ℕ) : HubState → Bool
  | .push s => s.distinctBuffers threads
  | _ => true

/-- `bfs_hub`, while running threads select different buffers. -/
def hubDistinct (g : Graph) (threads : ℕ) (mem : HubMem) : HubState → HubAct → Option HubState :=
  within (HubState.distinctBuffers threads) (bfsHub g threads .split mem)

section Dispatch
variable {g : Graph} {threads : ℕ} {mem : HubMem}

theorem hub_push {s : PushState} {Q : PushState → Prop}
    (h : Ends (within (PushState.distinctBuffers threads) (bfsPush g threads .split)) s Q) :
    Ends (hubDistinct g threads mem) (.push s) fun y => ∃ s', y = .push s' ∧
      Reach (within (PushState.distinctBuffers threads) (bfsPush g threads .split)) s s' ∧ Q s' := by
  refine h.embed HubState.push (fun s a s' ha => ?_) fun s b y hb => ?_
  · obtain ⟨hstep, hok⟩ := within_eq_some.mp ha
    exact ⟨.push a, within_eq_some.mpr ⟨Option.map_eq_some_iff.mpr ⟨s', hstep, rfl⟩, hok⟩⟩
  · obtain ⟨hstep, hok⟩ := within_eq_some.mp hb
    cases b with
    | push a =>
      obtain ⟨s', ha, rfl⟩ := Option.map_eq_some_iff.mp hstep
      exact ⟨a, s', rfl, within_eq_some.mpr ⟨ha, hok⟩⟩
    | pull a => cases hstep
    | pushpull a => cases hstep

theorem hub_pull {s : PullState} {Q : PullState → Prop} (h : Ends (pullLoop g) s Q) :
    Ends (hubDistinct g threads mem) (.pull s) fun y => ∃ s', y = .pull s' ∧ Reach (pullLoop g) s s' ∧ Q s' := by
  refine h.embed HubState.pull (fun s a s' ha => ?_) fun s b y hb => ?_
  · exact ⟨.pull a, within_eq_some.mpr ⟨Option.map_eq_some_iff.mpr ⟨s', ha, rfl⟩, rfl⟩⟩
  · obtain ⟨hstep, -⟩ := within_eq_some.mp hb
    cases b with
    | push a => cases hstep
    | pull a =>
      obtain ⟨s', ha, rfl⟩ := Option.map_eq_some_iff.mp hstep
      exact ⟨a, s', rfl, ha⟩
    | pushpull a => cases hstep

theorem hub_pushpull {s : PushPullState} {Q : PushPullState → Prop}
    (h : Ends (bfsPushpull g false mem.inFrontier mem.inFrontierNext) s Q) :
    Ends (hubDistinct g threads mem) (.pushpull s) fun y =>
      ∃ s', y = .pushpull s' ∧ Reach (bfsPushpull g false mem.inFrontier mem.inFrontierNext) s s' ∧ Q s' := by
  refine h.embed HubState.pushpull (fun s a s' ha => ?_) fun s b y hb => ?_
  · exact ⟨.pushpull a, within_eq_some.mpr ⟨Option.map_eq_some_iff.mpr ⟨s', ha, rfl⟩, rfl⟩⟩
  · obtain ⟨hstep, -⟩ := within_eq_some.mp hb
    cases b with
    | push a => cases hstep
    | pull a => cases hstep
    | pushpull a =>
      obtain ⟨s', ha, rfl⟩ := Option.map_eq_some_iff.mp hstep
      exact ⟨a, s', rfl, ha⟩

theorem hubInit_distinct {opt : ℤ} {start : UInt32} {h : HubState} (hh : HubState.init g mem start opt = some h) :
    h.distinctBuffers threads = true := by
  unfold HubState.init at hh
  split at hh
  · obtain rfl := Option.some.inj hh
    rfl
  · split at hh
    · obtain rfl := Option.some.inj hh
      rfl
    · split at hh
      · obtain rfl := Option.some.inj hh
        rfl
      · cases hh

end Dispatch

/-! ## The traversals on a loaded graph -/

/-- A fresh machine: what the program reads before it writes it is zero. -/
structure Machine.Fresh (m : Machine) (n : ℕ) : Prop where
  offsets : m.offsets.Zeroed n
  inFrontier : Blank n m.hub.inFrontier
  inFrontierNext : Blank n m.hub.inFrontierNext

section Traversal
variable {g : Graph} {records : EdgeFile} {symmetric : Bool} {n threads : ℕ} {start : UInt32} {mem : HubMem}

theorem Graph.Holds.adj_eq (h : g.Holds records symmetric n) (hfile : records.EndpointsBelow n) :
    g.Adj = records.Adj := by
  funext u v
  refine propext ⟨fun he => ?_, fun he => ?_⟩
  · exact (h.out.adj_iff (h.out.nbNodes ▸ he.1)).mp he
  · exact (h.out.adj_iff (hfile _ he).1).mpr he

variable (hfile : records.EndpointsBelow n) (hs : start.toNat < n) (hn : n < 2 ^ 32)
include hfile hs hn

theorem hubPush_visits (hg : g.Holds records symmetric n) (hT : 0 < threads) :
    Ends (hubDistinct g threads mem) (.push (PushState.init g start mem.frontier mem.buffers)) fun h =>
      h.Visits records start := by
  have hs' : start.toNat < g.nbNodes := hg.out.nbNodes.symm ▸ hs
  have hbypassed := bypassed_of_lt hg.out.csr hs' (hg.out.nbNodes.symm ▸ hn)
  have hE : ∀ k v, DistIs g.OutRead start k v ↔ DistIs g.Adj start k v := fun k v => by
    rw [← distIs_outRead hg.out.csr hs', ← distIs_cutOut_iff.mpr hbypassed]
  refine (hub_push (pushSplit_ends hT mem.frontier mem.buffers)).mono fun h _ hh => ?_
  obtain ⟨s, rfl, -, hinv, c, hp⟩ := hh
  obtain ⟨-, hvis, hc⟩ := (hinv.of_done hp).finish hE rfl (fun v hv => reach_lt hg.out.csr hs' hv) hp
  rw [hg.adj_eq hfile] at hvis hc
  refine ⟨⟨c, hp⟩, hvis, fun c' hc' => ?_⟩
  simp only [HubState.printed, hc, Option.some.injEq] at hc'
  exact hc'.symm

/-- Along the edges `bfs_pull` finds vertices by, it reaches what the records lead to. -/
theorem Graph.Holds.reach_pulls (hg : g.Holds records true n) (v : UInt32) :
    Relation.ReflTransGen g.Pulls start v ↔ Relation.ReflTransGen records.Adj start v := by
  have hs' : start.toNat < g.nbNodes := hg.out.nbNodes.symm ▸ hs
  have hidle := lastIdle_of_lt hg.out.csr hs' (hg.out.nbNodes.symm ▸ hn)
  rw [← hg.adj_eq hfile]
  exact reach_congr fun k v => by rw [← distIs_pulls hg.out.csr (hg.inn rfl) hg.transposed hs', ← hidle.cutIn]

theorem hubPull_visits (hg : g.Holds records true n) (hmem : Blank n mem.inFrontier) (hnext : Blank n mem.inFrontierNext) :
    Ends (hubDistinct g threads mem) (.pull (PullState.init start mem.inFrontier mem.inFrontierNext)) fun h =>
      h.Visits records start := by
  have hs' : start.toNat < g.nbNodes := hg.out.nbNodes.symm ▸ hs
  have hpull := pullLoop_reach (hg.inn rfl) hs' (hg.out.nbNodes.symm ▸ hmem) (hg.out.nbNodes.symm ▸ hnext)
  refine (hub_pull hpull).mono fun h _ hh => ?_
  obtain ⟨s, rfl, -, hp, hvis⟩ := hh
  exact ⟨hp, fun v => (hvis v).trans (hg.reach_pulls hfile hs hn v), nofun⟩

theorem hubPushpull_visits (hg : g.Holds records true n) (hmem : Blank n mem.inFrontier)
    (hnext : Blank n mem.inFrontierNext) :
    Ends (hubDistinct g threads mem) (.pushpull (.inl (HybridState.init start))) fun h => h.Visits records start := by
  have hs' : start.toNat < g.nbNodes := hg.out.nbNodes.symm ▸ hs
  have hidle := lastIdle_of_lt hg.out.csr hs' (hg.out.nbNodes.symm ▸ hn)
  refine (hub_pushpull (hybridInv_init.ends (hg.inn rfl))).mono fun h _ hh => ?_
  obtain ⟨x, rfl, -, s', t, rfl, -, -, hinv, hp⟩ := hh
  rw [hidle.entry hg.out.csr (hg.inn rfl) hg.transposed hs' (hg.out.nbNodes.symm ▸ hmem)
    (hg.out.nbNodes.symm ▸ hnext)] at hinv
  exact ⟨hp, fun v => (hinv.reach hp v).trans (hg.reach_pulls hfile hs hn v), nofun⟩

/-- The three traversals `switch(opt)` selects. -/
theorem hub_visits {m : Machine} {opt : ℤ} {h₀ : HubState} (hg : g.Holds records symmetric n) (hT : 0 < threads)
    (hm : m.Fresh n) (hsym : opt ≠ 0 → symmetric = true) (hh₀ : HubState.init g m.hub start opt = some h₀) :
    Ends (hubDistinct g threads m.hub) h₀ fun h => h.Visits records start := by
  unfold HubState.init at hh₀
  split at hh₀
  · obtain rfl := Option.some.inj hh₀
    exact hubPush_visits hfile hs hn hg hT
  · rename_i hopt
    obtain rfl := hsym hopt
    split at hh₀
    · obtain rfl := Option.some.inj hh₀
      exact hubPull_visits hfile hs hn hg hm.inFrontier hm.inFrontierNext
    · split at hh₀
      · obtain rfl := Option.some.inj hh₀
        exact hubPushpull_visits hfile hs hn hg hm.inFrontier hm.inFrontierNext
      · cases hh₀

end Traversal

/-! ## The program -/

/-- The condition of `hubDistinct`, which concerns the traversal only. -/
def BenchState.distinctBuffers (a : BenchArgs) : BenchState → Bool
  | .inl _ => true
  | .inr y => y.2.distinctBuffers a.threads.toInt.toNat

/-- `benchmark`, while running threads select different buffers. -/
def benchmarkDistinct (a : BenchArgs) (m : Machine) (file : InputFile) : BenchState → BenchAct → Option BenchState :=
  within (BenchState.distinctBuffers a) (benchmark a m file)

/-- How a run ends that traverses the graph. -/
inductive Traversed (records : EdgeFile) (symmetric : Bool) (n : ℕ) (x : BenchState) : Prop
  | died (s : LoadState) (hx : x = .inl s) (h : s.died = true)
  | aborted (s : LoadState) (hx : x = .inl s) (h : s.aborted = true) (hadm : ¬ records.Admitted symmetric n)
  | visited (g : Graph) (h : HubState) (hx : x = .inr (g, h)) (hadm : records.Admitted symmetric n)
      (hvis : h.Visits records 0)

section Program
variable {binary : String} {mode : Int32} {opts : List BenchOption} {a : BenchArgs} {m : Machine} {file : InputFile}
  {files : String → Option InputFile} {x₀ : BenchState}

theorem BenchArgs.settle_spec {a b : BenchArgs} (h : a.settle = some b) : b.nbNodes ≠ 0 ∧ b.threads ≠ 0 := by
  unfold BenchArgs.settle at h
  split at h
  · obtain rfl := Option.some.inj h
    refine ⟨?_, ?_⟩
    · show (65536 : UInt64) ≠ 0
      decide
    · show (4 : Int32) ≠ 0
      decide
  · split at h
    · cases h
    · rename_i hn
      obtain rfl := Option.some.inj h
      refine ⟨hn, ?_⟩
      show (if a.threads = 0 then 1 else a.threads) ≠ 0
      split
      · decide
      · assumption

/-- What the options leave is never without vertices, and never without threads. -/
theorem benchArgs_spec (h : benchArgs binary mode opts = some a) : a.nbNodes ≠ 0 ∧ a.threads ≠ 0 := by
  obtain ⟨b, -, hb⟩ := Option.bind_eq_some_iff.mp h
  exact BenchArgs.settle_spec hb

theorem benchmarkStart_spec (h : benchmarkStart a m files = some (file, x₀)) :
    files a.binary = some file ∧ x₀ = .inl (.inl (ReadState.init file m.edges)) := by
  obtain ⟨file', hfile', h⟩ := Option.bind_eq_some_iff.mp h
  obtain ⟨s, hs, heq⟩ := Option.map_eq_some_iff.mp h
  obtain ⟨rfl, rfl⟩ := Prod.mk.inj heq
  unfold createGraphRead at hs
  split at hs
  · exact ⟨hfile', by rw [← Option.some.inj hs]⟩
  · cases hs

theorem enterHub_spec {s : LoadState} {p : Graph × HubState} (hout : a.output = none) (h : enterHub a m s = some p) :
    ∃ g, s.graph a.symmetric a.nbNodes.toNat = some g ∧
      ∃ h₀, HubState.init g m.hub 0 a.mode.toInt = some h₀ ∧ p = (g, h₀) := by
  rw [enterHub, if_pos hout] at h
  obtain ⟨g, hg, h⟩ := Option.bind_eq_some_iff.mp h
  obtain ⟨h₀, hh₀, rfl⟩ := Option.map_eq_some_iff.mp h
  exact ⟨g, hg, h₀, hh₀, rfl⟩

theorem hubInit_isSome (g : Graph) (mem : HubMem) {mode : Int32} {b : Prop} (h : mode = 0 ∨ b ∧ (mode = 1 ∨ mode = 2)) :
    ∃ h₀, HubState.init g mem 0 mode.toInt = some h₀ := by
  rcases h with rfl | ⟨-, rfl | rfl⟩
  · exact ⟨_, rfl⟩
  · exact ⟨_, rfl⟩
  · exact ⟨_, rfl⟩

/-- The condition as one on the second of the two parts. -/
theorem benchmarkDistinct_eq (hout : a.output = none) : benchmarkDistinct a m file =
    andThen (createGraph file a.symmetric a.nbNodes.toNat m) (enterHub a m)
      (indexed fun g => hubDistinct g a.threads.toInt.toNat m.hub) := by
  have henter : ∀ s p, enterHub a m s = some p → HubState.distinctBuffers a.threads.toInt.toNat p.2 = true := by
    intro s p hp
    obtain ⟨g, -, h₀, hh₀, rfl⟩ := enterHub_spec hout hp
    exact hubInit_distinct hh₀
  have hpart := @within_indexed _ _ Graph (fun g => bfsHub g a.threads.toInt.toNat .split m.hub)
    (HubState.distinctBuffers a.threads.toInt.toNat)
  exact (within_andThen (fun _ => rfl) (fun _ => rfl) henter).trans (congrArg _ hpart)

/-- Every schedule of loading and traversing, from the first call of `read`. -/
theorem benchmark_traversed (hs : (0 : UInt32).toNat < a.nbNodes.toNat) (hT : 0 < a.threads.toInt.toNat)
    (hn : a.nbNodes.toNat < 2 ^ 32) (hout : a.output = none)
    (hmode : a.mode = 0 ∨ a.symmetric = true ∧ (a.mode = 1 ∨ a.mode = 2))
    (hm : m.Fresh a.nbNodes.toNat) (hfits : (file.edgeFile m.byteorder).Fits a.symmetric a.nbNodes.toNat) :
    Ends (benchmarkDistinct a m file) (.inl (.inl (ReadState.init file m.edges)))
      (Traversed (file.edgeFile m.byteorder) a.symmetric a.nbNodes.toNat) := by
  have hsym : a.mode.toInt ≠ 0 → a.symmetric = true := fun hne =>
    hmode.elim (fun h => absurd (h ▸ rfl) hne) fun h => h.1
  have hload := createGraph_ends hm.offsets hfits
  have htraverse : ∀ s p, Reach (createGraph file a.symmetric a.nbNodes.toNat m) (.inl (ReadState.init file m.edges)) s →
      enterHub a m s = some p → Ends (indexed fun g => hubDistinct g a.threads.toInt.toNat m.hub) p
        fun y => Traversed (file.edgeFile m.byteorder) a.symmetric a.nbNodes.toNat (.inr y) := by
    intro s p hr hp
    obtain ⟨g, hg, h₀, hh₀, rfl⟩ := enterHub_spec hout hp
    obtain ⟨hadm, hholds⟩ := createGraph_holds hm.offsets hfits hr hg
    have hends := hub_visits (hadm.endpointsBelow hfits) hs hn hholds hT hm hsym hh₀
    refine (hends.indexed (fun g => hubDistinct g a.threads.toInt.toNat m.hub) g).mono fun y _ ⟨_, hvis⟩ => ?_
    exact .visited y.1 y.2 rfl hadm hvis
  rw [benchmarkDistinct_eq hout]
  refine (hload.andThen_or htraverse).mono fun x _ hx => ?_
  rcases hx with ⟨s, rfl, -, hloaded, hnone⟩ | ⟨s, p, y, rfl, -, -, -, hy⟩
  · cases hloaded with
    | died h => exact .died s rfl h
    | aborted h hadm => exact .aborted s rfl h hadm
    | graph g h hadm hg =>
      obtain ⟨h₀, hh₀⟩ := hubInit_isSome g m.hub hmode
      rw [enterHub, if_pos hout, h, Option.bind_some, hh₀] at hnone
      cases hnone
  · exact hy

theorem benchArgs_pos (h : benchArgs binary mode opts = some a) (hT : 0 ≤ a.threads) :
    (0 : UInt32).toNat < a.nbNodes.toNat ∧ 0 < a.threads.toInt.toNat := by
  obtain ⟨hn, hne⟩ := benchArgs_spec h
  refine ⟨Nat.pos_of_ne_zero fun h => hn (UInt64.toNat_inj.mp h), ?_⟩
  have hne' : a.threads.toInt ≠ 0 := fun h => hne (Int32.toInt_inj.mp h)
  have hle : 0 ≤ a.threads.toInt := Int32.le_iff_toInt_le.mp hT
  omega

/-- From the command line and the bytes of the file to the visited array: every schedule of loading and traversing is
finite in which running threads select different buffers, and it ends with what the records lead to from vertex `0`
visited, unless a call of `read` fails or an endpoint that is counted is no vertex. -/
theorem benchmark_visits (hopts : benchArgs binary mode opts = some a) (hT : 0 ≤ a.threads) (hn : a.nbNodes.toNat < 2 ^ 32)
    (hout : a.output = none) (hmode : a.mode = 0 ∨ a.symmetric = true ∧ (a.mode = 1 ∨ a.mode = 2))
    (hm : m.Fresh a.nbNodes.toNat) (hfits : (file.edgeFile m.byteorder).Fits a.symmetric a.nbNodes.toNat)
    (hstart : benchmarkStart a m files = some (file, x₀)) :
    Ends (benchmarkDistinct a m file) x₀ (Traversed (file.edgeFile m.byteorder) a.symmetric a.nbNodes.toNat) := by
  obtain ⟨hs, hthreads⟩ := benchArgs_pos hopts hT
  obtain ⟨-, rfl⟩ := benchmarkStart_spec hstart
  exact benchmark_traversed hs hthreads hn hout hmode hm hfits

end Program

/-- Little-endian, with zeros in all blocks but the edges. -/
def zeroMachine : Machine where
  byteorder := .little
  edges _ := 42
  offsets := ⟨fun _ => 0, fun _ => 0⟩
  outEdges _ := 0
  inEdges _ := 0
  hub := ⟨fun _ => 0, fun _ _ => 0, fun _ => false, fun _ => false⟩

theorem zeroMachine_fresh (n : ℕ) : zeroMachine.Fresh n := ⟨fun _ _ => ⟨rfl, rfl⟩, fun _ _ => rfl, fun _ _ => rfl⟩

/-- `./benchmark -f edge -v 6 -s -t 2 -m 2`. -/
def edgeOptions : List BenchOption := [.f "edge", .v 6, .s, .t 2, .m 2]

theorem oneEdgeFile_fits (symmetric : Bool) (n : ℕ) (hn : 5 < n) :
    (oneEdgeFile.edgeFile .little).Fits symmetric n := by
  refine ⟨fun _ => List.countP_le_length.trans (by decide), fun _ _ => List.countP_le_length.trans (by decide), ?_⟩
  intro _ e he
  obtain rfl : e = ⟨0, 5⟩ := List.mem_singleton.mp he
  exact hn

theorem edgeOptions_args : benchArgs "" 0 edgeOptions = some ⟨2, 6, true, false, "edge", 2, none⟩ := by decide

theorem benchmark_visits_edge :
    ∃ x₀, benchmarkStart ⟨2, 6, true, false, "edge", 2, none⟩ zeroMachine (fun _ => some oneEdgeFile) =
        some (oneEdgeFile, x₀) ∧
      Ends (benchmarkDistinct ⟨2, 6, true, false, "edge", 2, none⟩ zeroMachine oneEdgeFile) x₀
        (Traversed (oneEdgeFile.edgeFile .little) true 6) := by
  have hstart : benchmarkStart ⟨2, 6, true, false, "edge", 2, none⟩ zeroMachine (fun _ => some oneEdgeFile) =
      some (oneEdgeFile, .inl (.inl (ReadState.init oneEdgeFile fun _ => 42))) := rfl
  exact ⟨_, hstart, benchmark_visits edgeOptions_args (by decide) (by decide) rfl (Or.inr ⟨rfl, Or.inr rfl⟩)
    (zeroMachine_fresh 6) (oneEdgeFile_fits true 6 (by decide)) hstart⟩

end GraphBenchmark
