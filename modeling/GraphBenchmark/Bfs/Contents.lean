import GraphBenchmark.Bfs.PushPull

/-! # What the contents of the two maps do

`bfs_pull` and `bfs_pushpull` do not clear the maps `malloc` returned: a set byte stands for a frontier
vertex. Each run still ends with one array, whatever the schedule (`finalVisited`), and the arrays of two
runs agree exactly when the set bytes lead to the same vertices (`contentsIndependent_iff`). -/
namespace GraphBenchmark
open Interleaving Levels
set_option autoImplicit false

open Classical in
/-- The array the pull loop ends with when it begins on the sets `c`. -/
noncomputable def Graph.finalVisited (g : Graph) (c : Cfg UInt32) (i : ℕ) : UInt8 :=
  if ∃ v : UInt32, v.toNat = i ∧ (c.vis v ∨ c.Led g.Pulls v) then 1 else 0

def PullState.DoneWith (visited : ℕ → UInt8) (s : PullState) : Prop := s.pc = .done ∧ s.shared.visited = visited

def PushPullState.DoneWith (visited : ℕ → UInt8) (x : PushPullState) : Prop := ∃ t, x = .inr (.inr t) ∧ t.DoneWith visited

/-- Every schedule of the two runs of each traversal ends with the same array. -/
structure ContentsIndependent (g : Graph) (start : UInt32) (mem₁ next₁ mem₂ next₂ : ℕ → Bool) : Prop where
  pull : ∃ visited, Ends (pullLoop g) (PullState.init start mem₁ next₁) (PullState.DoneWith visited) ∧
    Ends (pullLoop g) (PullState.init start mem₂ next₂) (PullState.DoneWith visited)
  pushpull : ∃ visited,
    Ends (bfsPushpull g false mem₁ next₁) (.inl (HybridState.init start)) (PushPullState.DoneWith visited) ∧
    Ends (bfsPushpull g false mem₂ next₂) (.inl (HybridState.init start)) (PushPullState.DoneWith visited)

/-- The pull loop is led to the same vertices from level `k`. -/
def SameLead (g : Graph) (start : UInt32) (k : ℕ) (mem₁ next₁ mem₂ next₂ : ℕ → Bool) : Prop :=
  ∀ v, (g.entry start k mem₁ next₁).Led g.Pulls v ↔ (g.entry start k mem₂ next₂).Led g.Pulls v

section Final
variable {g : Graph} {c d : Cfg UInt32} {s : PullState} {start : UInt32} {k : ℕ}
  {mem next mem₁ next₁ mem₂ next₂ : ℕ → Bool}

theorem finalVisited_iff (v : UInt32) : g.finalVisited c v.toNat = 1 ↔ c.vis v ∨ c.Led g.Pulls v := by
  unfold Graph.finalVisited
  split
  · rename_i h
    obtain ⟨u, hu, h⟩ := h
    rw [← UInt32.toNat_inj.mp hu]
    exact iff_of_true rfl h
  · rename_i h
    exact iff_of_false (by decide) fun hv => h ⟨v, rfl, hv⟩

theorem bytes_finalVisited : Bytes (g.finalVisited c) := by
  intro i
  unfold Graph.finalVisited
  split
  · rename_i h
    obtain ⟨v, hv, -⟩ := h
    exact Or.inr ⟨rfl, hv ▸ v.toNat_lt⟩
  · exact Or.inl rfl

theorem PullInv.doneWith (h : PullInv g c s) (hp : s.pc = .done) : s.DoneWith (g.finalVisited c) := by
  refine ⟨hp, h.bytes.ext bytes_finalVisited fun v => ?_⟩
  rw [← h.bytes.ne_zero_iff, h.led hp, finalVisited_iff]

theorem not_vis_of_led {R : UInt32 → UInt32 → Prop} {v : UInt32} (h : c.Led R v) : ¬ c.vis v := by
  obtain ⟨-, u, -, huv⟩ := h
  cases huv with
  | single he => exact he.2
  | tail _ he => exact he.2

theorem finalVisited_entry_eq_iff :
    g.finalVisited (g.entry start k mem₁ next₁) = g.finalVisited (g.entry start k mem₂ next₂) ↔
      SameLead g start k mem₁ next₁ mem₂ next₂ := by
  constructor
  · intro h v
    have hv := (finalVisited_iff (c := g.entry start k mem₁ next₁) v).symm.trans
      ((iff_of_eq (by rw [h])).trans (finalVisited_iff (c := g.entry start k mem₂ next₂) v))
    constructor
    · intro hl
      have hnot : ¬ Within g.OutRead start k v := not_vis_of_led hl
      exact (hv.mp (Or.inr hl)).resolve_left hnot
    · intro hl
      have hnot : ¬ Within g.OutRead start k v := not_vis_of_led hl
      exact (hv.mpr (Or.inr hl)).resolve_left hnot
  · intro h
    refine bytes_finalVisited.ext bytes_finalVisited fun v => ?_
    rw [finalVisited_iff, finalVisited_iff]
    exact or_congr_right (h v)

theorem pullLoop_doneWith (hin : g.InWellFormed) :
    Ends (pullLoop g) (PullState.init start mem next) (PullState.DoneWith (g.finalVisited (g.entry start 0 mem next))) := by
  rw [← cfg_init]
  exact (pullLoop_ends hin (Bytes.zero.mark start)).mono fun s _ ⟨h, hp⟩ => h.doneWith hp

/-- With the real switch test there is one switch level, so one array. -/
theorem bfsPushpull_doneWith (hin : g.InWellFormed) {K : ℕ} (hK : g.EntersPull start K) :
    Ends (bfsPushpull g false mem next) (.inl (HybridState.init start))
      (PushPullState.DoneWith (g.finalVisited (g.entry start K mem next))) := by
  refine (hybridInv_init.ends hin).mono fun x _ ⟨s, t, hx, hr, hpull, ht, hp⟩ => ⟨t, hx, ?_⟩
  rw [hK.unique ((hybridInv_init.of_reach hr).entersPull hpull)]
  exact ht.doneWith hp

theorem exists_entersPull (g : Graph) (start : UInt32) : ∃ K, g.EntersPull start K := by
  have hinit : HybridInv g start false (HybridState.init start) := hybridInv_init
  obtain ⟨s, hr, hp⟩ := (hybridPush_ends g false hinit).exists
  exact ⟨s.level, (hybridInv_init.of_reach hr).entersPull hp⟩

theorem PullState.DoneWith.unique {x y : ℕ → UInt8} {s : PullState} (hx : s.DoneWith x) (hy : s.DoneWith y) : x = y :=
  hx.2.symm.trans hy.2

theorem PushPullState.DoneWith.unique {x y : ℕ → UInt8} {z : PushPullState} (hx : PushPullState.DoneWith x z)
    (hy : PushPullState.DoneWith y z) : x = y := by
  obtain ⟨t, rfl, ht⟩ := hx
  obtain ⟨u, hu, hy⟩ := hy
  cases hu
  exact ht.unique hy

theorem pullIndependent_iff (hin : g.InWellFormed) :
    (∃ visited, Ends (pullLoop g) (PullState.init start mem₁ next₁) (PullState.DoneWith visited) ∧
      Ends (pullLoop g) (PullState.init start mem₂ next₂) (PullState.DoneWith visited)) ↔
      SameLead g start 0 mem₁ next₁ mem₂ next₂ :=
  (exists_common_iff (P := PullState.DoneWith) (fun _ _ _ => PullState.DoneWith.unique) (pullLoop_doneWith hin)
    (pullLoop_doneWith hin)).trans finalVisited_entry_eq_iff

theorem pushpullIndependent_iff (hin : g.InWellFormed) {K : ℕ} (hK : g.EntersPull start K) :
    (∃ visited, Ends (bfsPushpull g false mem₁ next₁) (.inl (HybridState.init start)) (PushPullState.DoneWith visited) ∧
      Ends (bfsPushpull g false mem₂ next₂) (.inl (HybridState.init start)) (PushPullState.DoneWith visited)) ↔
      SameLead g start K mem₁ next₁ mem₂ next₂ :=
  (exists_common_iff (P := PushPullState.DoneWith) (fun _ _ _ => PushPullState.DoneWith.unique)
    (bfsPushpull_doneWith hin hK) (bfsPushpull_doneWith hin hK)).trans finalVisited_entry_eq_iff

/-- The contents make no difference exactly when their set bytes lead to the same vertices from the start
and from the level at which `bfs_pushpull` goes over to the pull loop. -/
theorem contentsIndependent_iff (hin : g.InWellFormed) :
    ContentsIndependent g start mem₁ next₁ mem₂ next₂ ↔
      SameLead g start 0 mem₁ next₁ mem₂ next₂ ∧
        ∀ K, g.EntersPull start K → SameLead g start K mem₁ next₁ mem₂ next₂ := by
  obtain ⟨K, hK⟩ := exists_entersPull g start
  constructor
  · intro ⟨hpull, hpushpull⟩
    refine ⟨(pullIndependent_iff hin).mp hpull, fun K' hK' => ?_⟩
    exact (pushpullIndependent_iff hin hK').mp hpushpull
  · intro ⟨hpull, hpushpull⟩
    exact ⟨(pullIndependent_iff hin).mpr hpull, (pushpullIndependent_iff hin hK).mpr (hpushpull K hK)⟩

theorem sameLead_of_idle (hmem : ∀ u v : UInt32, mem u.toNat = true ∨ next u.toNat = true → ¬ g.Pulls u v) :
    SameLead g start k (fun _ => false) (fun _ => false) mem next := by
  -- an edge of a walk, and the edge that makes a vertex fresh, start at a vertex without a set byte
  have hfront : ∀ u v : UInt32, g.Pulls u v → ((g.entry start k mem next).front u ↔
      (g.entry start k (fun _ => false) fun _ => false).front u) := fun u v he =>
    and_congr_right fun _ => or_congr_left (iff_of_false (fun h => hmem u v (Or.inl h) he) Bool.false_ne_true)
  have hnext : ∀ u v : UInt32, g.Pulls u v → ((g.entry start k mem next).next u ↔
      (g.entry start k (fun _ => false) fun _ => false).next u) := fun u v he =>
    and_congr_right fun _ => iff_of_false (fun h => hmem u v (Or.inr h) he) Bool.false_ne_true
  intro v
  refine and_congr (exists_congr fun w => and_congr_right fun _ => exists_congr fun u => ?_)
    (exists_congr fun u => and_congr_left fun huv => ?_)
  · exact and_congr_left fun he => (hfront u w he).symm
  · obtain ⟨w, ⟨he, -⟩, -⟩ := Relation.TransGen.head'_iff.mp huv
    exact (or_congr (hfront u w he) (hnext u w he)).symm

end Final

theorem contentsIndependent_edge :
    ContentsIndependent edgeGraph 0 (fun _ => false) (fun _ => false) (fun i => decide (i = 1)) fun _ => false := by
  have hidle : ∀ u v : UInt32, decide (u.toNat = 1) = true ∨ false = true → ¬ edgeGraph.Pulls u v := by
    intro u v hu he
    obtain ⟨i, -, -, rfl⟩ := mem_slots.mp he.2
    rcases hu with hu | hu <;> cases hu
  exact (contentsIndependent_iff edgeGraph_inWellFormed).mpr
    ⟨sameLead_of_idle hidle, fun K _ => sameLead_of_idle hidle⟩

/-- Three vertices and one edge, from `1` to `2`. -/
def strayGraph : Graph where
  symmetric := true
  nbNodes := 3
  nbEdges := 1
  outEdges _ := 2
  outEdgeOffsets i := if i ≤ 1 then 0 else 1
  inEdges _ := 1
  inEdgeOffsets i := if i ≤ 2 then 0 else 1

theorem strayGraph_outWellFormed : strayGraph.OutWellFormed := by
  refine ⟨rfl, ?_, rfl, ?_⟩ <;> decide

theorem strayGraph_inWellFormed : strayGraph.InWellFormed := by
  refine ⟨rfl, ?_, rfl, ?_⟩ <;> decide

theorem strayGraph_transposed : strayGraph.Transposed := Graph.transposed_of_forall (by decide)

/-- From `0` nothing is reachable, but a set byte at `1` makes `bfs_pull` visit `2`. -/
theorem strayGraph_not_sameLead :
    ¬ SameLead strayGraph 0 0 (fun _ => false) (fun _ => false) (fun i => decide (i = 1)) fun _ => false := by
  intro h
  have hnot : ¬ Within strayGraph.OutRead 0 0 2 := fun hv => absurd (within_zero_iff.mp hv) (by decide)
  have hfront : (strayGraph.entry 0 0 (fun i => decide (i = 1)) fun _ => false).front 1 := ⟨by decide, Or.inl rfl⟩
  have hedge : strayGraph.Pulls 1 2 := ⟨by decide, by show (1 : UInt32) ∈ _; decide⟩
  obtain ⟨⟨w, -, u, ⟨-, hu⟩, he⟩, -⟩ := (h 2).mpr
    ⟨⟨2, hnot, 1, hfront, hedge⟩, 1, Or.inl hfront, Relation.TransGen.single ⟨hedge, hnot⟩⟩
  obtain ⟨i, -, -, rfl⟩ := mem_slots.mp he.2
  rcases hu with hu | hu
  · cases hu
  · exact absurd (distIs_zero_iff.mp hu) (show (1 : UInt32) ≠ 0 by decide)

theorem not_contentsIndependent_stray :
    ¬ ∀ (g : Graph) (start : UInt32) (mem₁ next₁ mem₂ next₂ : ℕ → Bool), g.OutWellFormed → g.InWellFormed →
      g.Transposed → start.toNat < g.nbNodes → ContentsIndependent g start mem₁ next₁ mem₂ next₂ := by
  intro h
  have hindep := h strayGraph 0 (fun _ => false) (fun _ => false) (fun i => decide (i = 1)) (fun _ => false)
    strayGraph_outWellFormed strayGraph_inWellFormed strayGraph_transposed (by decide)
  exact strayGraph_not_sameLead ((pullIndependent_iff strayGraph_inWellFormed).mp hindep.pull)

end GraphBenchmark
