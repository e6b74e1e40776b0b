import GraphBenchmark.Bfs.Push
import Mathlib.Algebra.Order.BigOperators.Group.Finset

/-! # The blocks `bfs_push` indexes

Two facts about the indices. Whatever the threads do to each other's pushes, every id the run stores is a
vertex, so the tests and swaps stay inside `visited` (`bfsPush_access_lt`). And with pushes in one step the
vertices in the buffers, in the frontier and in the earlier frontiers are different vertices, so no buffer
ever runs out of room (`bfsPush_inBounds`). -/
namespace GraphBenchmark
open Interleaving Claiming Levels
set_option autoImplicit false

/-! ## Every id is a vertex -/

/-- The ids in `b` below the position `k` are below `n`. -/
def ThreadBuffer.Below (b : ThreadBuffer) (k n : ℕ) : Prop := ∀ i < k, (b.buffer i).toNat < n

/-- Every id a task holds is below `n`, its positions are in the frontier, and a push under way has ids below
its position. -/
structure PushTask.Below (n size threads : ℕ) (buffers : ℕ → ThreadBuffer) (t : PushTask) : Prop where
  edges : ∀ d ∈ t.edges, d.toNat < n
  indices : ∀ i ∈ t.indices, i < size
  stage : match t.stage, t.thread with
    | .scan, _ => True
    | .cas d, _ => d.toNat < n
    | .push d, _ => d.toNat < n
    | .store d k, some tid => d.toNat < n ∧ (buffers (tid % threads)).Below k n
    | .bump _ k, some tid => (buffers (tid % threads)).Below (k + 1) n
    | .store _ _, none => False
    | .bump _ _, none => False

/-- The out-edges of a vertex below `n`, as `bfs_push` reads them, lead to vertices below `n`. -/
def Graph.Closed (g : Graph) (n : ℕ) : Prop := ∀ u v : UInt32, u.toNat < n → g.OutRead u v → v.toNat < n

structure PushState.Below (n threads : ℕ) (s : PushState) : Prop where
  buffers : ∀ j, (s.shared.buffers j).Below (s.shared.buffers j).next n
  frontier : s.frontier.Below s.frontier.next n
  tasks : ∀ t ∈ s.tasks, t.Below n s.frontier.next threads s.shared.buffers

section Below
variable {g : Graph} {n size threads tid j : ℕ} {grain : Grain} {frontier b dst : ThreadBuffer} {s s' : PushShared}
  {t t' u : PushTask} {buffers : ℕ → ThreadBuffer} {mem : ℕ → UInt32} {bufferMem : ℕ → ℕ → UInt32} {start : UInt32}

theorem ThreadBuffer.Below.store {k l : ℕ} {d : UInt32} (h : b.Below k n) (hd : d.toNat < n) :
    (b.store l d).Below k n := by
  intro i hi
  show (Function.update b.buffer l d i).toNat < n
  rw [Function.update_apply]
  split
  · exact hd
  · exact h i hi

theorem ThreadBuffer.Below.store_succ {k : ℕ} {d : UInt32} (h : b.Below k n) (hd : d.toNat < n) :
    (b.store k d).Below (k + 1) n := by
  intro i hi
  show (Function.update b.buffer k d i).toNat < n
  rw [Function.update_apply]
  split
  · exact hd
  · exact h i (by omega)

theorem ThreadBuffer.Below.transfer (hb : b.Below b.next n) (hd : dst.Below dst.next n) :
    (b.transfer dst).2.Below (b.transfer dst).2.next n := by
  unfold ThreadBuffer.transfer
  split
  · exact hd
  · intro i hi
    show (if dst.next ≤ i ∧ i < dst.next + b.next then b.buffer (i - dst.next) else dst.buffer i).toNat < n
    split
    · exact hb _ (by omega)
    · exact hd i (by have : i < dst.next + b.next := hi; omega)

/-- No step puts anything but ids below `n` into a buffer. -/
theorem PushStep.below_buffer (h : PushStep g threads grain frontier s tid t s' t')
    (ht : t.Below n size threads s.buffers) {k : ℕ} (hj : (s.buffers j).Below k n) : (s'.buffers j).Below k n := by
  have hupdate : ∀ (d : UInt32) (l m : ℕ), d.toNat < n →
      (Function.update s.buffers (tid % threads)
        { (s.buffers (tid % threads)).store l d with next := m } j).Below k n := by
    intro d l m hd
    rw [Function.update_apply]
    split
    · rename_i heq
      subst heq
      exact hj.store hd
    · exact hj
  cases h with
  | push hg => exact hupdate _ _ _ ht.stage
  | store => exact hupdate _ _ _ ht.stage.1
  | @bump is d es k' =>
    show (Function.update s.buffers _ _ j).Below k n
    rw [Function.update_apply]
    split
    · rename_i heq
      subst heq
      exact hj
    · exact hj
  | _ => exact hj

theorem PushStep.below_next (h : PushStep g threads grain frontier s tid t s' t')
    (ht : t.Below n size threads s.buffers) (hj : (s.buffers j).Below (s.buffers j).next n) :
    (s'.buffers j).Below (s'.buffers j).next n := by
  by_cases hne : j = tid % threads
  · subst hne
    cases h with
    | push hg =>
      simp only [PushShared.onBuffer, Function.update_self]
      exact hj.store_succ ht.stage
    | store =>
      simp only [PushShared.onBuffer, Function.update_self]
      exact hj.store ht.stage.1
    | bump =>
      simp only [PushShared.onBuffer, Function.update_self]
      exact ht.stage
    | _ => exact hj
  · rw [h.buffers_of_ne hne]
    exact hj

theorem PushStep.below_own (hg : g.Closed n) (hfrontier : frontier.Below frontier.next n)
    (h : PushStep g threads grain frontier s tid t s' t')
    (hbuffers : ∀ j, (s.buffers j).Below (s.buffers j).next n)
    (ht : t.Below n frontier.next threads s.buffers) : t'.Below n frontier.next threads s'.buffers := by
  have hedges := ht.edges
  have hindices := ht.indices
  cases h with
  | @next i is =>
    refine ⟨fun d hd => hg _ d (hfrontier i (hindices i List.mem_cons_self)) hd,
      fun j hj => hindices j (List.mem_cons_of_mem i hj), trivial⟩
  | seen hv => exact ⟨fun d hd => hedges d (List.mem_cons_of_mem _ hd), hindices, trivial⟩
  | unseen => exact ⟨fun d hd => hedges d (List.mem_cons_of_mem _ hd), hindices, hedges _ List.mem_cons_self⟩
  | claim hv => exact ⟨hedges, hindices, ht.stage⟩
  | lost hv => exact ⟨hedges, hindices, trivial⟩
  | push hw => exact ⟨hedges, hindices, trivial⟩
  | load hs => exact ⟨hedges, hindices, ht.stage, hbuffers _⟩
  | @store is d es k =>
    refine ⟨hedges, hindices, ?_⟩
    simp only [PushShared.onBuffer, Function.update_self]
    exact ht.stage.2.store_succ ht.stage.1
  | bump => exact ⟨hedges, hindices, trivial⟩

theorem PushStep.below_other (h : PushStep g threads grain frontier s tid t s' t')
    (ht : t.Below n size threads s.buffers) (hu : u.Below n size threads s.buffers) :
    u.Below n size threads s'.buffers := by
  refine ⟨hu.edges, hu.indices, ?_⟩
  have hstage := hu.stage
  obtain ⟨thread, is, es, stage⟩ := u
  cases stage with
  | store d k =>
    cases thread with
    | none => exact hstage
    | some tid' => exact ⟨hstage.1, h.below_buffer ht hstage.2⟩
  | bump d k =>
    cases thread with
    | none => exact hstage
    | some tid' => exact h.below_buffer ht hstage
  | _ => exact hstage

theorem below_transfers (hb : ∀ j, (buffers j).Below (buffers j).next n) (hd : dst.Below dst.next n) (m : ℕ) :
    (∀ j, ((transfers buffers dst m).1 j).Below ((transfers buffers dst m).1 j).next n) ∧
      (transfers buffers dst m).2.Below (transfers buffers dst m).2.next n := by
  induction m with
  | zero => exact ⟨hb, hd⟩
  | succ m ih =>
    refine ⟨fun j => ?_, ?_⟩
    · rw [transfers_succ_fst]
      by_cases hj : j = m
      · subst hj
        rw [Function.update_self, ThreadBuffer.next_transfer_fst]
        exact fun i hi => absurd hi (Nat.not_lt_zero i)
      · rw [Function.update_of_ne hj]
        exact ih.1 j
    · rw [transfers_succ_snd]
      exact (ih.1 m).transfer ih.2

theorem PushState.below_init (hs : start.toNat < n) : (PushState.init g start mem bufferMem).Below n threads := by
  refine ⟨fun j i hi => absurd hi (Nat.not_lt_zero i), fun i hi => ?_, fun t ht => absurd ht List.not_mem_nil⟩
  obtain rfl : i = 0 := Nat.lt_one_iff.mp hi
  exact hs

theorem PushState.Below.step {s s' : PushState} (hg : g.Closed n) (h : s.Below n threads) {a : PushAct}
    (ha : bfsPush g threads grain s a = some s') : s'.Below n threads := by
  cases bfsPush_step ha with
  | @launch rs hp hnext hrs =>
    refine ⟨h.buffers, h.frontier, fun t ht => ?_⟩
    obtain ⟨r, hr, rfl⟩ := List.mem_map.mp ht
    exact ⟨fun d hd => absurd hd List.not_mem_nil, fun i hi => hrs.mem_iff.mp ⟨r, hr, hi⟩, trivial⟩
  | @begin i tid t hp ht hthread =>
    obtain ⟨pre, post, hts, hset⟩ := exists_middle ht
    have htasks := h.tasks
    rw [hts] at htasks
    obtain ⟨hown, hothers⟩ := forall_mem_middle.mp htasks
    refine ⟨h.buffers, h.frontier, ?_⟩
    rw [hset]
    refine forall_mem_middle.mpr ⟨⟨hown.edges, hown.indices, ?_⟩, hothers⟩
    have hstage := hown.stage
    rw [hthread] at hstage
    revert hstage
    cases t.stage <;> simp
  | work hp hw =>
    obtain ⟨pre, t, post, t', hts, hbody, rfl⟩ := work_eq_some hw
    obtain ⟨tid, hstep⟩ := pushBody_step hbody
    have htasks := h.tasks
    rw [hts] at htasks
    obtain ⟨hown, hothers⟩ := forall_mem_middle.mp htasks
    exact ⟨fun j => hstep.below_next hown (h.buffers j), h.frontier,
      forall_mem_middle.mpr ⟨hstep.below_own hg h.frontier h.buffers hown, fun u hu => hstep.below_other hown (hothers u hu)⟩⟩
  | join hp hdone =>
    have hclear : s.frontier.clear.Below s.frontier.clear.next n := fun i hi => absurd hi (Nat.not_lt_zero i)
    obtain ⟨hbuffers, hfrontier⟩ := below_transfers h.buffers hclear threads
    exact ⟨hbuffers, hfrontier, fun t ht => absurd ht List.not_mem_nil⟩
  | exit hp hz => exact ⟨h.buffers, h.frontier, h.tasks⟩

/-- Every test and every swap goes to the byte of a vertex below `n`, for pushes in one step or in three. -/
theorem bfsPush_access_lt {s : PushState} (hg : g.Closed n) (hs : start.toNat < n)
    (h : Reach (bfsPush g threads grain) (PushState.init g start mem bufferMem) s) :
    ∀ t ∈ s.tasks, ∀ d ∈ t.access, d.toNat < n := by
  have hbelow := h.invariant (P := PushState.Below n threads) (PushState.below_init hs)
    fun _ _ _ hu ha => hu.step hg ha
  intro t ht d hd
  have htask := hbelow.tasks t ht
  obtain ⟨thread, is, es, stage⟩ := t
  cases stage with
  | scan =>
    cases es with
    | nil => cases hd
    | cons e es =>
      obtain rfl : e = d := Option.some.inj hd
      exact htask.edges e List.mem_cons_self
  | cas e =>
    obtain rfl : e = d := Option.some.inj hd
    exact htask.stage
  | _ => cases hd

end Below

/-! ## Room in the buffers -/

/-- The vertices a pass takes up: those of its frontier. -/
def taken (s : PushState) : PushAct → List UInt32
  | .launch _ => s.frontier.contents
  | _ => []

/-- The vertices of the frontier that no pass has taken up. -/
def PushState.waiting (s : PushState) : ℕ :=
  match s.pc with
  | .pass => 0
  | _ => s.frontier.next

/-- No index leaves its block; `processed` vertices have been taken up. -/
structure PushState.InBounds (g : Graph) (threads processed : ℕ) (s : PushState) : Prop where
  buffers : ∀ j < threads, (s.shared.buffers j).capacity = g.nbNodes ∧ (s.shared.buffers j).next ≤ (s.shared.buffers j).capacity
  frontier : s.frontier.capacity = g.nbNodes ∧ s.frontier.next ≤ s.frontier.capacity
  total : ∑ j ∈ Finset.range threads, (s.shared.buffers j).next + s.waiting + processed ≤ g.nbNodes
  push : ∀ t ∈ s.tasks, ∀ tid ∈ t.thread, ∀ dst, t.stage = .push dst → (s.shared.buffers (tid % threads)).HasRoom 1
  memcpy : s.pc = .pass → ∀ j < threads, (transfers s.shared.buffers s.frontier.clear j).2.HasRoom
    ((transfers s.shared.buffers s.frontier.clear j).1 j).next
  read : ∀ t ∈ s.tasks, ∀ i ∈ t.indices, i < s.frontier.next

/-- The blocks are as long as `init` made them. -/
def PushState.Capacity (n : ℕ) (s : PushState) : Prop :=
  (∀ j, (s.shared.buffers j).capacity = n) ∧ s.frontier.capacity = n

/-- `log` are the vertices of the levels taken up so far. -/
structure Taken (g : Graph) (start : UInt32) (s : PushState) (log : List UInt32) : Prop where
  nodup : log.Nodup
  mem : ∀ v, v ∈ log ↔ ∃ j < s.iterations, DistIs g.OutRead start j v
  pass : s.pc = .pass → s.frontier.next ≤ log.length

section Room
variable {g : Graph} {start : UInt32} {threads n m : ℕ} {grain : Grain} {buffers : ℕ → ThreadBuffer} {dst : ThreadBuffer}
  {s s' : PushState} {log : List UInt32} {mem : ℕ → UInt32} {bufferMem : ℕ → ℕ → UInt32}

theorem card_le_of_vertices {vs : Multiset UInt32} (hnodup : vs.Nodup) (hlt : ∀ v ∈ vs, v.toNat < n) : vs.card ≤ n := by
  have hinj : (vs.map UInt32.toNat).Nodup := hnodup.map fun _ _ h => UInt32.toNat_inj.mp h
  have hsub : vs.map UInt32.toNat ≤ Multiset.range n := by
    refine (Multiset.le_iff_subset hinj).mpr fun i hi => ?_
    obtain ⟨v, hv, rfl⟩ := Multiset.mem_map.mp hi
    exact Multiset.mem_range.mpr (hlt v hv)
  have hcard := Multiset.card_le_card hsub
  rwa [Multiset.card_map, Multiset.card_range] at hcard

theorem card_handed (threads : ℕ) (buffers : ℕ → ThreadBuffer) :
    (handed threads buffers).card = ∑ j ∈ Finset.range threads, (buffers j).next := by
  rw [handed, Multiset.card_sum]
  exact Finset.sum_congr rfl fun j _ => ThreadBuffer.length_contents _

theorem next_le_total (buffers : ℕ → ThreadBuffer) {j : ℕ} (hj : j < threads) :
    (buffers j).next ≤ ∑ i ∈ Finset.range threads, (buffers i).next :=
  Finset.single_le_sum (f := fun i => (buffers i).next) (fun _ _ => Nat.zero_le _) (Finset.mem_range.mpr hj)

theorem transfers_next (m : ℕ) :
    (transfers buffers dst m).2.next = dst.next + ∑ j ∈ Finset.range m, (buffers j).next := by
  have hcontents : ((transfers buffers dst m).2.contents : Multiset UInt32) = dst.contents + handed m buffers :=
    contents_transfers
  have hcard := congrArg Multiset.card hcontents
  rwa [Multiset.card_add, card_handed, Multiset.coe_card, Multiset.coe_card, ThreadBuffer.length_contents,
    ThreadBuffer.length_contents] at hcard

theorem transfer_capacity (b dst : ThreadBuffer) :
    (b.transfer dst).1.capacity = b.capacity ∧ (b.transfer dst).2.capacity = dst.capacity := by
  unfold ThreadBuffer.transfer
  split <;> exact ⟨rfl, rfl⟩

theorem transfers_capacity (buffers : ℕ → ThreadBuffer) (dst : ThreadBuffer) (m : ℕ) :
    (∀ j, ((transfers buffers dst m).1 j).capacity = (buffers j).capacity) ∧
      (transfers buffers dst m).2.capacity = dst.capacity := by
  induction m with
  | zero => exact ⟨fun _ => rfl, rfl⟩
  | succ m ih =>
    refine ⟨fun j => ?_, ?_⟩
    · rw [transfers_succ_fst]
      by_cases hj : j = m
      · subst hj
        rw [Function.update_self, (transfer_capacity _ _).1]
        exact ih.1 j
      · rw [Function.update_of_ne hj]
        exact ih.1 j
    · rw [transfers_succ_snd, (transfer_capacity _ _).2]
      exact ih.2

theorem PushStep.capacity {frontier : ThreadBuffer} {s s' : PushShared} {tid : ℕ} {t t' : PushTask}
    (h : PushStep g threads grain frontier s tid t s' t') (hs : ∀ j, (s.buffers j).capacity = n) (j : ℕ) :
    (s'.buffers j).capacity = n := by
  by_cases hj : j = tid % threads
  · subst hj
    cases h with
    | push | store | bump =>
      simp only [PushShared.onBuffer, Function.update_self]
      exact hs _
    | _ => exact hs _
  · rw [h.buffers_of_ne hj]
    exact hs j

theorem PushState.Capacity.step (h : s.Capacity n) {a : PushAct} (ha : bfsPush g threads grain s a = some s') :
    s'.Capacity n := by
  cases bfsPush_step ha with
  | work hp hw =>
    obtain ⟨pre, t, post, t', hts, hbody, rfl⟩ := work_eq_some hw
    obtain ⟨tid, hstep⟩ := pushBody_step hbody
    exact ⟨hstep.capacity h.1, h.2⟩
  | join hp hdone =>
    obtain ⟨hbuffers, hfrontier⟩ := transfers_capacity s.shared.buffers s.frontier.clear threads
    exact ⟨fun j => (hbuffers j).trans (h.1 j), hfrontier.trans h.2⟩
  | _ => exact h

theorem bfsPush_taken {a : PushAct} (ha : bfsPush g threads grain s a = some s') :
    (taken s a = [] ∧ s'.iterations = s.iterations ∧ (s'.pc = .pass → s.pc = .pass ∧ s'.frontier = s.frontier)) ∨
      s.pc = .head ∧ taken s a = s.frontier.contents ∧ s'.iterations = s.iterations + 1 ∧ s'.frontier = s.frontier := by
  cases a with
  | launch rs =>
    simp only [bfsPush] at ha
    split at ha
    · rename_i hc
      cases ha
      exact Or.inr ⟨hc.1, rfl, rfl, rfl⟩
    · cases ha
  | begin i tid =>
    simp only [bfsPush] at ha
    split at ha
    · cases ha
    · split at ha
      · cases ha
        exact Or.inl ⟨rfl, rfl, fun hp => ⟨hp, rfl⟩⟩
      · cases ha
  | work i =>
    simp only [bfsPush] at ha
    split at ha
    · obtain ⟨p, -, rfl⟩ := Option.map_eq_some_iff.mp ha
      exact Or.inl ⟨rfl, rfl, fun hp => ⟨hp, rfl⟩⟩
    · cases ha
  | join | exit =>
    simp only [bfsPush] at ha
    split at ha
    · cases ha
      exact Or.inl ⟨rfl, rfl, by simp⟩
    · cases ha

theorem Taken.append_nodup {k : ℕ} (h : Taken g start s log) (hk : s.iterations ≤ k) {vs : List UInt32}
    (hnodup : vs.Nodup) (hmem : ∀ v, v ∈ vs ↔ DistIs g.OutRead start k v) : (log ++ vs).Nodup := by
  refine List.nodup_append.mpr ⟨h.nodup, hnodup, ?_⟩
  rintro u hu v hv rfl
  -- a vertex is in one level only
  obtain ⟨j, hj, hd⟩ := (h.mem u).mp hu
  have := hd.unique ((hmem u).mp hv)
  omega

theorem Taken.step (hinv : PushInv g start threads .whole s) (h : Taken g start s log) {a : PushAct}
    (ha : bfsPush g threads .whole s a = some s') : Taken g start s' (log ++ taken s a) := by
  rcases bfsPush_taken ha with ⟨hnil, hit, hpass⟩ | ⟨hp, htaken, hit, hfrontier⟩
  · rw [hnil, List.append_nil]
    refine ⟨h.nodup, hit ▸ h.mem, fun hp' => ?_⟩
    obtain ⟨hp, hfrontier⟩ := hpass hp'
    rw [hfrontier]
    exact h.pass hp
  · obtain ⟨hlevel, -⟩ := hinv.head hp
    rw [htaken]
    refine ⟨h.append_nodup le_rfl hlevel.nodup hlevel.mem, fun v => ?_, fun _ => ?_⟩
    · rw [List.mem_append, h.mem, hlevel.mem, hit]
      constructor
      · rintro (⟨j, hj, hd⟩ | hd)
        · exact ⟨j, by omega, hd⟩
        · exact ⟨s.iterations, by omega, hd⟩
      · rintro ⟨j, hj, hd⟩
        rcases Nat.lt_or_ge j s.iterations with hlt | hge
        · exact Or.inl ⟨j, hlt, hd⟩
        · obtain rfl : j = s.iterations := by omega
          exact Or.inr hd
    · rw [hfrontier, List.length_append, ThreadBuffer.length_contents]
      omega

/-- During a pass the claimed vertices are new, so with those taken up they are different vertices. -/
theorem PassInv.room {k : ℕ} (hout : g.OutWellFormed) (hs : start.toNat < g.nbNodes)
    (hmem : ∀ v, v ∈ s.frontier.contents ↔ DistIs g.OutRead start k v) (hlog : Taken g start s log)
    (hk : s.iterations = k + 1)
    (h : PassInv g threads .whole s.frontier (Within g.OutRead start k) s.shared s.tasks) :
    ∑ j ∈ Finset.range threads, (s.shared.buffers j).next +
      (held (s.tasks.map (PushTask.claimer g s.frontier))).card + log.length ≤ g.nbNodes := by
  have hlt : ∀ j v, DistIs g.OutRead start j v → v.toNat < g.nbNodes := fun j v hd => (distIs_outRead_lt hout hs hd).2
  have hwithin : ∀ v ∈ log, Within g.OutRead start k v := by
    intro v hv
    obtain ⟨j, hj, hd⟩ := (hlog.mem v).mp hv
    exact hd.within.mono (by omega)
  have hnodup : (handed threads s.shared.buffers + held (s.tasks.map (PushTask.claimer g s.frontier)) +
      (log : Multiset UInt32)).Nodup := by
    refine Multiset.nodup_add.mpr ⟨h.claims.nodup, Multiset.coe_nodup.mpr hlog.nodup, ?_⟩
    exact Multiset.disjoint_left.mpr fun {v} hv hv' => ((h.claims.mem v).mp hv).2 (hwithin v (Multiset.mem_coe.mp hv'))
  have hcard := card_le_of_vertices (n := g.nbNodes) hnodup fun v hv => ?_
  · rwa [Multiset.card_add, Multiset.card_add, card_handed, Multiset.coe_card] at hcard
  · rcases Multiset.mem_add.mp hv with hv | hv
    · rcases h.claims.sound v ((h.claims.mem v).mp hv).1 with hw | ⟨u, hu, he⟩
      · obtain ⟨j, -, hd⟩ := within_iff.mp hw
        exact hlt j v hd
      · exact outRead_lt hout (hlt k u ((hmem u).mp hu)) he
    · obtain ⟨j, -, hd⟩ := (hlog.mem v).mp hv
      exact hlt j v hd

theorem AtLevel.room (hout : g.OutWellFormed) (hs : start.toNat < g.nbNodes) (hlog : Taken g start s log)
    (h : AtLevel g.OutRead start threads s.iterations s) :
    ∑ j ∈ Finset.range threads, (s.shared.buffers j).next + s.frontier.next + log.length ≤ g.nbNodes := by
  have hzero : ∑ j ∈ Finset.range threads, (s.shared.buffers j).next = 0 :=
    Finset.sum_eq_zero fun j hj => h.buffers j (Finset.mem_range.mp hj)
  have hnodup : ((log ++ s.frontier.contents : List UInt32) : Multiset UInt32).Nodup :=
    Multiset.coe_nodup.mpr (hlog.append_nodup le_rfl h.nodup h.mem)
  have hcard := card_le_of_vertices (n := g.nbNodes) hnodup fun v hv => ?_
  · rw [Multiset.coe_card, List.length_append, ThreadBuffer.length_contents] at hcard
    omega
  · rcases List.mem_append.mp (Multiset.mem_coe.mp hv) with hv | hv
    · obtain ⟨j, -, hd⟩ := (hlog.mem v).mp hv
      exact (distIs_outRead_lt hout hs hd).2
    · exact (distIs_outRead_lt hout hs ((h.mem v).mp hv)).2

theorem PushInv.total (hout : g.OutWellFormed) (hs : start.toNat < g.nbNodes) (hlog : Taken g start s log)
    (h : PushInv g start threads .whole s) :
    ∑ j ∈ Finset.range threads, (s.shared.buffers j).next + s.waiting + log.length ≤ g.nbNodes := by
  unfold PushState.waiting
  cases hp : s.pc with
  | head => exact (h.head hp).1.room hout hs hlog
  | pass =>
    obtain ⟨k, hk, hmem, hpass⟩ := h.pass hp
    have := hpass.room hout hs hmem hlog hk
    show _ + 0 + _ ≤ _
    omega
  | done c => exact (h.done c hp).1.room hout hs hlog

theorem held_pos (g : Graph) (frontier : ThreadBuffer) {ts : List PushTask} {t : PushTask} {d : UInt32} (ht : t ∈ ts)
    (hstage : t.stage = .push d) : 0 < (held (ts.map (PushTask.claimer g frontier))).card := by
  obtain ⟨pre, post, rfl⟩ := List.append_of_mem ht
  rw [List.map_append, List.map_cons, held_split, Multiset.card_add]
  have hone : ((t.claimer g frontier).held.toList : Multiset UInt32).card = 1 := by
    simp only [PushTask.claimer, hstage]
    rfl
  omega

theorem PushInv.push_room (hout : g.OutWellFormed) (hs : start.toNat < g.nbNodes) (hT : 0 < threads)
    (hlog : Taken g start s log) (h : PushInv g start threads .whole s) (hcap : s.Capacity g.nbNodes)
    (hpass : s.tasks ≠ [] → s.pc = .pass) {t : PushTask} {tid : ℕ} {d : UInt32} (ht : t ∈ s.tasks)
    (hstage : t.stage = .push d) : (s.shared.buffers (tid % threads)).HasRoom 1 := by
  obtain ⟨k, hk, hmem, hinv⟩ := h.pass (hpass (List.ne_nil_of_mem ht))
  have hroom := hinv.room hout hs hmem hlog hk
  have hheld := held_pos g s.frontier ht hstage
  have hnext := next_le_total s.shared.buffers (Nat.mod_lt tid hT)
  rw [ThreadBuffer.HasRoom, hcap.1]
  omega

theorem bfsPush_tasks (h : Reach (bfsPush g threads grain) (PushState.init g start mem bufferMem) s)
    (hne : s.tasks ≠ []) : s.pc = .pass := by
  refine h.invariant (P := fun s => s.tasks ≠ [] → s.pc = .pass) (fun hn => absurd rfl hn) (fun u a v hu ha hn => ?_) hne
  cases bfsPush_step ha with
  | launch hp hnext hrs => rfl
  | begin hp ht hthread => exact hp
  | work hp hw => exact hp
  | join hp hdone => exact absurd rfl hn
  | exit hp hz => exact absurd (hp.symm.trans (hu hn)) nofun

theorem InBounds.of_total (hcap : s.Capacity g.nbNodes) (hlog : Taken g start s log)
    (htotal : ∑ j ∈ Finset.range threads, (s.shared.buffers j).next + s.waiting + log.length ≤ g.nbNodes) :
    s.frontier.next ≤ s.frontier.capacity ∧ ∀ j < threads,
      (s.shared.buffers j).next ≤ (s.shared.buffers j).capacity ∧
      (transfers s.shared.buffers s.frontier.clear j).2.HasRoom
        ((transfers s.shared.buffers s.frontier.clear j).1 j).next := by
  refine ⟨?_, fun j hj => ⟨?_, ?_⟩⟩
  · rw [hcap.2]
    unfold PushState.waiting at htotal
    split at htotal
    · have := hlog.pass ‹_›
      omega
    · omega
  · have := next_le_total s.shared.buffers hj
    rw [hcap.1 j]
    omega
  · -- the transfers before this one have moved the ids of the buffers before it
    have hsum : ∑ i ∈ Finset.range (j + 1), (s.shared.buffers i).next ≤
        ∑ i ∈ Finset.range threads, (s.shared.buffers i).next :=
      Finset.sum_le_sum_of_subset (Finset.range_subset_range.mpr hj)
    rw [Finset.sum_range_succ] at hsum
    rw [ThreadBuffer.HasRoom, transfers_next, (transfers_capacity _ _ j).2, transfers_of_le le_rfl]
    show 0 + _ + _ ≤ s.frontier.capacity
    rw [hcap.2]
    omega

/-- In every state of every run no index leaves its block, whichever buffers the threads select. -/
theorem bfsPush_inBounds (hout : g.OutWellFormed) (hs : start.toNat < g.nbNodes) (hT : 0 < threads)
    (h : Reach (logged taken (bfsPush g threads .whole)) (PushState.init g start mem bufferMem, []) (s, log)) :
    (ThreadBuffer.init mem g.nbNodes).HasRoom 1 ∧ s.InBounds g threads log.length := by
  obtain ⟨hr, hinv, hcap, hlog⟩ : Reach (bfsPush g threads .whole) (PushState.init g start mem bufferMem) s ∧
      PushInv g start threads .whole s ∧ s.Capacity g.nbNodes ∧ Taken g start s log := by
    refine h.invariant (P := fun x => Reach (bfsPush g threads .whole) (PushState.init g start mem bufferMem) x.1 ∧
      PushInv g start threads .whole x.1 ∧ x.1.Capacity g.nbNodes ∧ Taken g start x.1 x.2)
      ⟨Reach.refl _ _, pushInv_init, ⟨fun _ => rfl, rfl⟩, List.nodup_nil, fun v => by simp [PushState.init], by simp [PushState.init]⟩
      fun u a v ⟨hu, hinv, hcap, hlog⟩ ha => ?_
    obtain ⟨hstep, hrec⟩ := logged_eq_some.mp ha
    rw [hrec]
    exact ⟨hu.tail hstep, pushInv_step hT (by simp) hinv hstep, hcap.step hstep, hlog.step hinv hstep⟩
  have htotal := hinv.total hout hs hlog
  obtain ⟨hfrontier, hbuffers⟩ := InBounds.of_total hcap hlog htotal
  have hbelow := hr.invariant (P := PushState.Below g.nbNodes threads) (PushState.below_init hs)
    fun _ _ _ hu ha => hu.step (fun _ _ => outRead_lt hout) ha
  refine ⟨(Nat.zero_le _).trans_lt hs, ⟨fun j hj => ⟨hcap.1 j, (hbuffers j hj).1⟩, ⟨hcap.2, hfrontier⟩, htotal,
    fun t ht tid _ d hd => ?_, fun _ j hj => (hbuffers j hj).2, fun t ht => (hbelow.tasks t ht).indices⟩⟩
  exact hinv.push_room hout hs hT hlog hcap (bfsPush_tasks hr) ht hd

end Room

/-- Both other vertices are found in the first pass. -/
def starGraph : Graph where
  symmetric := false
  nbNodes := 3
  nbEdges := 2
  outEdges x := [1, 2].getD x 0
  outEdgeOffsets i := if i = 0 then 0 else 2
  inEdges _ := 0
  inEdgeOffsets _ := 0

theorem starGraph_outWellFormed : starGraph.OutWellFormed := by
  refine ⟨rfl, ?_, rfl, ?_⟩ <;> decide

/-- Thread `2` of two finds them, so `buffers[0]` receives all of them. -/
def starRun : List PushAct := [.launch [⟨0, 1⟩], .begin 0 2] ++ List.replicate 7 (.work 0)

theorem bfsPush_inBounds_star : ∃ s log, Reach (logged taken (bfsPush starGraph 2 .whole))
    (PushState.init starGraph 0 (fun _ => 7) fun _ _ => 7, []) (s, log) ∧ (s.shared.buffers 0).next = 2 ∧
      log.length = 1 ∧ s.InBounds starGraph 2 log.length := by
  have hrun : (starRun.foldlM (logged taken (bfsPush starGraph 2 .whole))
      (PushState.init starGraph 0 (fun _ => 7) fun _ _ => 7, [])).any
      (fun x => decide ((x.1.shared.buffers 0).next = 2 ∧ x.2.length = 1)) = true := by decide
  obtain ⟨⟨s, log⟩, hs, hp⟩ := (Option.any_eq_true _ _).mp hrun
  obtain ⟨hnext, hlog⟩ := of_decide_eq_true hp
  have hreach := Reach.of_foldlM hs
  exact ⟨s, log, hreach, hnext, hlog, (bfsPush_inBounds starGraph_outWellFormed (by decide) (by decide) hreach).2⟩

end GraphBenchmark
