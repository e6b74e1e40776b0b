import GraphBenchmark.Model.Push
import GraphBenchmark.Bfs.Adjacency
import GraphBenchmark.Foundations.Claiming
import Mathlib.Algebra.BigOperators.Group.Finset.Basic

/-! # One pass of `bfs_push`

The tasks of a pass claim the unvisited out-neighbours of the frontier (`Claiming`): a successful
compare-and-swap claims a vertex, the push hands it over to a thread buffer. `PassInv` is kept by every
step, for a push in one step whatever the threads, and for a push in three steps as long as no two running
threads use one buffer (`passInv_work`). -/
namespace GraphBenchmark
open Interleaving Claiming
set_option autoImplicit false

/-! ## The thread buffers together -/

/-- The ids in the buffers below `threads`. -/
def handed (threads : ℕ) (buffers : ℕ → ThreadBuffer) : Multiset UInt32 :=
  ∑ i ∈ Finset.range threads, ((buffers i).contents : Multiset UInt32)

section Buffers
variable {threads j n : ℕ} {buffers : ℕ → ThreadBuffer} {b dst : ThreadBuffer} {d : UInt32}

theorem handed_update (buffers : ℕ → ThreadBuffer) (hj : j < threads) (b : ThreadBuffer) :
    handed threads (Function.update buffers j b) + ((buffers j).contents : Multiset UInt32) =
      handed threads buffers + (b.contents : Multiset UInt32) := by
  have hmem : j ∈ Finset.range threads := Finset.mem_range.mpr hj
  have h₁ := Finset.add_sum_erase _ (fun i => ((Function.update buffers j b i).contents : Multiset UInt32)) hmem
  have h₂ := Finset.add_sum_erase _ (fun i => ((buffers i).contents : Multiset UInt32)) hmem
  have h₃ : ∑ i ∈ (Finset.range threads).erase j, ((Function.update buffers j b i).contents : Multiset UInt32) =
      ∑ i ∈ (Finset.range threads).erase j, ((buffers i).contents : Multiset UInt32) :=
    Finset.sum_congr rfl fun i hi => by rw [Function.update_of_ne (Finset.ne_of_mem_erase hi)]
  rw [h₃, Function.update_self] at h₁
  unfold handed
  rw [← h₁, ← h₂]
  abel

theorem handed_push (hj : j < threads) (hb : b.contents = (buffers j).contents ++ [d]) :
    handed threads (Function.update buffers j b) = d ::ₘ handed threads buffers := by
  have h := handed_update buffers hj b
  rw [hb, ← Multiset.coe_add, Multiset.coe_singleton, add_comm (Multiset.ofList _), ← add_assoc] at h
  rw [add_right_cancel h, add_comm, Multiset.singleton_add]

theorem handed_update_same (hj : j < threads) (hb : b.contents = (buffers j).contents) :
    handed threads (Function.update buffers j b) = handed threads buffers := by
  have h := handed_update buffers hj b
  rw [hb] at h
  exact add_right_cancel h

end Buffers

/-! ## The steps of the body -/

/-- What `pushBody` can do, case by case. -/
inductive PushStep (g : Graph) (threads : ℕ) (grain : Grain) (frontier : ThreadBuffer) (s : PushShared) (tid : ℕ) :
    PushTask → PushShared → PushTask → Prop
  | next {i : ℕ} {is : List ℕ} : PushStep g threads grain frontier s tid ⟨some tid, i :: is, [], .scan⟩ s
      ⟨some tid, is, g.outScan (frontier.buffer i), .scan⟩
  | seen {is : List ℕ} {d : UInt32} {es : List UInt32} (h : s.visited d.toNat ≠ 0) :
      PushStep g threads grain frontier s tid ⟨some tid, is, d :: es, .scan⟩ s ⟨some tid, is, es, .scan⟩
  | unseen {is : List ℕ} {d : UInt32} {es : List UInt32} :
      PushStep g threads grain frontier s tid ⟨some tid, is, d :: es, .scan⟩ s ⟨some tid, is, es, .cas d⟩
  | claim {is : List ℕ} {d : UInt32} {es : List UInt32} (h : s.visited d.toNat = 0) :
      PushStep g threads grain frontier s tid ⟨some tid, is, es, .cas d⟩
        { s with visited := Function.update s.visited d.toNat 1, claimed := d :: s.claimed } ⟨some tid, is, es, .push d⟩
  | lost {is : List ℕ} {d : UInt32} {es : List UInt32} (h : s.visited d.toNat ≠ 0) :
      PushStep g threads grain frontier s tid ⟨some tid, is, es, .cas d⟩ s ⟨some tid, is, es, .scan⟩
  | push {is : List ℕ} {d : UInt32} {es : List UInt32} (hg : grain = .whole) :
      PushStep g threads grain frontier s tid ⟨some tid, is, es, .push d⟩ (s.onBuffer threads tid (·.push d))
        ⟨some tid, is, es, .scan⟩
  | load {is : List ℕ} {d : UInt32} {es : List UInt32} (hg : grain = .split) :
      PushStep g threads grain frontier s tid ⟨some tid, is, es, .push d⟩ s
        ⟨some tid, is, es, .store d (s.buffers (tid % threads)).next⟩
  | store {is : List ℕ} {d : UInt32} {es : List UInt32} {n : ℕ} :
      PushStep g threads grain frontier s tid ⟨some tid, is, es, .store d n⟩ (s.onBuffer threads tid (·.store n d))
        ⟨some tid, is, es, .bump d n⟩
  | bump {is : List ℕ} {d : UInt32} {es : List UInt32} {n : ℕ} :
      PushStep g threads grain frontier s tid ⟨some tid, is, es, .bump d n⟩
        (s.onBuffer threads tid fun b => { b with next := n + 1 }) ⟨some tid, is, es, .scan⟩

section Step
variable {g : Graph} {threads tid : ℕ} {grain : Grain} {frontier : ThreadBuffer} {s s' : PushShared}
  {t t' u : PushTask}

theorem pushBody_step (h : pushBody g threads grain frontier s t = some (s', t')) :
    ∃ tid, PushStep g threads grain frontier s tid t s' t' := by
  obtain ⟨thread, is, es, stage⟩ := t
  cases thread with
  | none => cases h
  | some tid =>
    refine ⟨tid, ?_⟩
    cases stage with
    | scan =>
      cases es with
      | nil =>
        cases is with
        | nil => cases h
        | cons i is =>
          obtain ⟨rfl, rfl⟩ := Prod.mk.inj (Option.some.inj h)
          exact .next
      | cons d es =>
        obtain ⟨rfl, rfl⟩ := Prod.mk.inj (Option.some.inj h)
        by_cases hd : s.visited d.toNat = 0
        · simp only [if_pos hd]
          exact .unseen
        · simp only [if_neg hd]
          exact .seen hd
    | cas d =>
      simp only [pushBody] at h
      split at h <;> obtain ⟨rfl, rfl⟩ := Prod.mk.inj (Option.some.inj h)
      · exact .claim ‹_›
      · exact .lost ‹_›
    | push d =>
      cases grain with
      | whole =>
        obtain ⟨rfl, rfl⟩ := Prod.mk.inj (Option.some.inj h)
        exact .push rfl
      | split =>
        obtain ⟨rfl, rfl⟩ := Prod.mk.inj (Option.some.inj h)
        exact .load rfl
    | store d n =>
      obtain ⟨rfl, rfl⟩ := Prod.mk.inj (Option.some.inj h)
      exact .store
    | bump d n =>
      obtain ⟨rfl, rfl⟩ := Prod.mk.inj (Option.some.inj h)
      exact .bump

theorem pushBody_isSome (ht : ¬ t.Finished) (hthread : t.thread ≠ none) :
    pushBody g threads grain frontier s t ≠ none := by
  obtain ⟨thread, is, es, stage⟩ := t
  cases thread with
  | none => exact absurd rfl hthread
  | some tid =>
    cases stage with
    | scan =>
      cases es with
      | nil =>
        cases is with
        | nil => exact absurd ⟨rfl, rfl, rfl⟩ ht
        | cons i is => exact Option.some_ne_none _
      | cons d es => exact Option.some_ne_none _
    | cas d =>
      simp only [pushBody]
      split <;> exact Option.some_ne_none _
    | push d => cases grain <;> exact Option.some_ne_none _
    | store d n => exact Option.some_ne_none _
    | bump d n => exact Option.some_ne_none _

theorem PushStep.running (h : PushStep g threads grain frontier s tid t s' t') : t.running = some tid := by
  cases h <;> exact if_neg (by simp [PushTask.Finished])

def PushTask.weight (g : Graph) (frontier : ThreadBuffer) (t : PushTask) : ℕ :=
  (if t.thread = none then 1 else 0) +
    (t.indices.map fun i => 1 + 5 * (g.outScan (frontier.buffer i)).length).sum + 5 * t.edges.length +
    match t.stage with
    | .scan => 0
    | .cas _ => 4
    | .push _ => 3
    | .store _ _ => 2
    | .bump _ _ => 1

theorem PushStep.weight_lt (h : PushStep g threads grain frontier s tid t s' t') :
    t'.weight g frontier < t.weight g frontier := by
  cases h <;> simp only [PushTask.weight, List.map_cons, List.sum_cons, List.length_cons, List.length_nil] <;> omega

def PushTask.claimer (g : Graph) (frontier : ThreadBuffer) (t : PushTask) : Claimer UInt32 where
  todo := (match t.stage with
    | .cas d => [d]
    | _ => []) ++ t.edges ++ t.indices.flatMap fun i => g.outScan (frontier.buffer i)
  held := match t.stage with
    | .push d => some d
    | .store d _ => some d
    | .bump d _ => some d
    | _ => none

/-- A push under way knows where the buffer's end is and has put its id there. -/
def PushTask.Aligned (threads : ℕ) (grain : Grain) (buffers : ℕ → ThreadBuffer) (t : PushTask) : Prop :=
  match t.stage, t.thread with
  | .store _ n, some tid => grain = .split ∧ (buffers (tid % threads)).next = n
  | .bump d n, some tid =>
    grain = .split ∧ (buffers (tid % threads)).next = n ∧ (buffers (tid % threads)).buffer n = d
  | .store _ _, none => False
  | .bump _ _, none => False
  | _, _ => True

theorem ThreadBuffer.contents_store (b : ThreadBuffer) (d : UInt32) : (b.store b.next d).contents = b.contents := by
  refine List.map_congr_left fun i hi => Function.update_of_ne ?_ _ _
  exact (List.mem_range.mp hi).ne

theorem ThreadBuffer.contents_bump (b : ThreadBuffer) :
    ({ b with next := b.next + 1 } : ThreadBuffer).contents = b.contents ++ [b.buffer b.next] := by
  simp only [contents, List.range_succ, List.map_append, List.map_cons, List.map_nil]

theorem PushStep.move (h : PushStep g threads grain frontier s tid t s' t') (hT : 0 < threads)
    (ht : t.Aligned threads grain s.buffers) :
    Move (fun v => s.visited v.toNat ≠ 0) (handed threads s.buffers) (t.claimer g frontier)
      (fun v => s'.visited v.toNat ≠ 0) (handed threads s'.buffers) (t'.claimer g frontier) := by
  have hj : tid % threads < threads := Nat.mod_lt tid hT
  cases h with
  | next => exact .stay _
  | seen h => exact .skip h
  | unseen => exact .stay _
  | @claim is d es h =>
    exact Move.claim (not_not.mpr h) fun v => update_vertex_iff (P := (· ≠ 0)) (by decide)
  | lost h => exact .skip h
  | push hg =>
    unfold PushShared.onBuffer
    rw [handed_push hj (ThreadBuffer.contents_push _ _)]
    exact .put
  | load hg => exact .stay _
  | store =>
    obtain ⟨-, rfl⟩ := ht
    unfold PushShared.onBuffer
    rw [handed_update_same hj (ThreadBuffer.contents_store _ _)]
    exact .stay _
  | bump =>
    obtain ⟨-, rfl, rfl⟩ := ht
    unfold PushShared.onBuffer
    rw [handed_push hj (ThreadBuffer.contents_bump _)]
    exact .put

/-- A claimed vertex is in some buffer or still with the task that claimed it. -/
theorem PushStep.claimed (h : PushStep g threads grain frontier s tid t s' t') (hT : 0 < threads)
    (ht : t.Aligned threads grain s.buffers) :
    (s'.claimed : Multiset UInt32) + (handed threads s.buffers + ((t.claimer g frontier).held.toList : Multiset UInt32)) =
      s.claimed + (handed threads s'.buffers + ((t'.claimer g frontier).held.toList : Multiset UInt32)) := by
  have hj : tid % threads < threads := Nat.mod_lt tid hT
  cases h with
  | next => rfl
  | seen h => rfl
  | unseen => rfl
  | @claim is d es h =>
    simp only [PushTask.claimer, Option.toList_some, Option.toList_none, Multiset.coe_nil, add_zero,
      ← Multiset.cons_coe, ← Multiset.singleton_add]
    abel
  | lost h => rfl
  | push hg =>
    unfold PushShared.onBuffer
    rw [handed_push hj (ThreadBuffer.contents_push _ _)]
    simp only [PushTask.claimer, Option.toList_some, Option.toList_none, Multiset.coe_nil, add_zero,
      Multiset.coe_singleton, ← Multiset.singleton_add]
    abel
  | load hg => rfl
  | store =>
    obtain ⟨-, rfl⟩ := ht
    unfold PushShared.onBuffer
    rw [handed_update_same hj (ThreadBuffer.contents_store _ _)]
    rfl
  | bump =>
    obtain ⟨-, rfl, rfl⟩ := ht
    unfold PushShared.onBuffer
    rw [handed_push hj (ThreadBuffer.contents_bump _)]
    simp only [PushTask.claimer, Option.toList_some, Option.toList_none, Multiset.coe_nil, add_zero,
      Multiset.coe_singleton, ← Multiset.singleton_add]
    abel

/-- Claims balance in the pool if they balance for the stepping task: `c` are the claims, `o` is handed over, `x` the
task still holds and `r` the others. -/
theorem claimed_of_step {c c' o o' x x' r : Multiset UInt32} (hstep : c' + (o + x) = c + (o' + x'))
    (h : c = o + (x + r)) : c' = o' + (x' + r) := by
  have key : c' + (o + x) = o' + (x' + r) + (o + x) := by
    rw [hstep, h]
    abel
  exact add_right_cancel key

theorem PushStep.bytes (h : PushStep g threads grain frontier s tid t s' t') (hs : Bytes s.visited) :
    Bytes s'.visited := by
  cases h with
  | claim h => exact hs.mark _
  | _ => exact hs

theorem PushStep.aligned_own (h : PushStep g threads grain frontier s tid t s' t')
    (ht : t.Aligned threads grain s.buffers) : t'.Aligned threads grain s'.buffers := by
  cases h with
  | load hg => exact ⟨hg, rfl⟩
  | store =>
    obtain ⟨hg, rfl⟩ := ht
    refine ⟨hg, ?_, ?_⟩
    · simp only [PushShared.onBuffer, Function.update_self, ThreadBuffer.store]
    · simp only [PushShared.onBuffer, Function.update_self, ThreadBuffer.store]
  | _ => trivial

theorem PushStep.buffers_of_ne (h : PushStep g threads grain frontier s tid t s' t') {j : ℕ}
    (hj : j ≠ tid % threads) : s'.buffers j = s.buffers j := by
  cases h with
  | push => exact Function.update_of_ne hj _ _
  | store => exact Function.update_of_ne hj _ _
  | bump => exact Function.update_of_ne hj _ _
  | _ => rfl

/-- The pushes of the other tasks are not disturbed, if their threads use other buffers. -/
theorem PushStep.aligned_other (h : PushStep g threads grain frontier s tid t s' t')
    (hu : u.Aligned threads grain s.buffers)
    (hne : grain = .split → ∀ tid', u.running = some tid' → tid' % threads ≠ tid % threads) :
    u.Aligned threads grain s'.buffers := by
  obtain ⟨thread, is, es, stage⟩ := u
  cases stage with
  | store d n =>
    cases thread with
    | none => exact hu
    | some tid' =>
      obtain ⟨hg, hn⟩ := hu
      have hb := h.buffers_of_ne (hne hg tid' (if_neg (by simp [PushTask.Finished])))
      exact ⟨hg, by rw [hb]; exact hn⟩
  | bump d n =>
    cases thread with
    | none => exact hu
    | some tid' =>
      obtain ⟨hg, hn, hd⟩ := hu
      have hb := h.buffers_of_ne (hne hg tid' (if_neg (by simp [PushTask.Finished])))
      exact ⟨hg, by rw [hb]; exact hn, by rw [hb]; exact hd⟩
  | _ => trivial

end Step

/-! ## The pass -/

/-- The buffers the running threads select. -/
def slotsInUse (threads : ℕ) (ts : List PushTask) : List ℕ := (ts.filterMap PushTask.running).map (· % threads)

/-- The vertices the pass is about to find: the out-neighbours of the frontier. -/
def Graph.NextOf (g : Graph) (frontier : ThreadBuffer) (v : UInt32) : Prop :=
  ∃ u ∈ frontier.contents, v ∈ g.outScan u

/-- What holds during a pass that began with the visited set `V₀`. -/
structure PassInv (g : Graph) (threads : ℕ) (grain : Grain) (frontier : ThreadBuffer) (V₀ : UInt32 → Prop)
    (s : PushShared) (ts : List PushTask) : Prop where
  claims : Claiming.Inv V₀ (g.NextOf frontier) (fun v => s.visited v.toNat ≠ 0) (handed threads s.buffers)
    (ts.map (PushTask.claimer g frontier))
  claimed : (s.claimed : Multiset UInt32) = handed threads s.buffers + held (ts.map (PushTask.claimer g frontier))
  aligned : ∀ t ∈ ts, t.Aligned threads grain s.buffers
  bytes : Bytes s.visited

section Pass
variable {g : Graph} {threads i : ℕ} {grain : Grain} {frontier : ThreadBuffer} {V₀ : UInt32 → Prop}
  {s s' : PushShared} {ts ts' : List PushTask} {rs : List BlockedRange}

theorem handed_eq_zero {buffers : ℕ → ThreadBuffer} (h : ∀ i < threads, (buffers i).next = 0) :
    handed threads buffers = 0 := by
  refine Finset.sum_eq_zero fun i hi => ?_
  rw [(ThreadBuffer.contents_eq_nil_iff _).mpr (h i (Finset.mem_range.mp hi))]
  rfl

theorem passInv_launch (hrs : Split frontier.next rs) (hbuf : ∀ i < threads, (s.buffers i).next = 0)
    (hclaimed : s.claimed = []) (hbytes : Bytes s.visited) :
    PassInv g threads grain frontier (fun v => s.visited v.toNat ≠ 0) s (rs.map PushTask.ofRange) := by
  have hnone : ∀ c ∈ (rs.map PushTask.ofRange).map (PushTask.claimer g frontier), c.held = none := by
    intro c hc
    obtain ⟨t, ht, rfl⟩ := List.mem_map.mp hc
    obtain ⟨r, -, rfl⟩ := List.mem_map.mp ht
    rfl
  have hnext : ∀ v, g.NextOf frontier v ↔
      ∃ c ∈ (rs.map PushTask.ofRange).map (PushTask.claimer g frontier), v ∈ c.todo := by
    intro v
    constructor
    · rintro ⟨u, hu, hv⟩
      obtain ⟨i, hi, rfl⟩ := List.mem_map.mp hu
      obtain ⟨r, hr, hir⟩ := hrs.mem_iff.mpr (List.mem_range.mp hi)
      exact ⟨(PushTask.ofRange r).claimer g frontier, List.mem_map_of_mem (List.mem_map_of_mem hr),
        List.mem_flatMap.mpr ⟨i, hir, hv⟩⟩
    · rintro ⟨c, hc, hv⟩
      obtain ⟨t, ht, rfl⟩ := List.mem_map.mp hc
      obtain ⟨r, hr, rfl⟩ := List.mem_map.mp ht
      obtain ⟨i, hir, hv⟩ := List.mem_flatMap.mp hv
      exact ⟨frontier.buffer i, List.mem_map_of_mem (List.mem_range.mpr (hrs.mem_iff.mp ⟨r, hr, hir⟩)), hv⟩
  refine ⟨?_, ?_, ?_, hbytes⟩
  · rw [handed_eq_zero hbuf]
    exact Inv.start hnext hnone
  · rw [handed_eq_zero hbuf, held_eq_zero hnone, hclaimed]
    rfl
  · intro t ht
    obtain ⟨r, -, rfl⟩ := List.mem_map.mp ht
    trivial

theorem passInv_work (hT : 0 < threads) (hexcl : grain = .split → (slotsInUse threads ts).Nodup)
    (h : PassInv g threads grain frontier V₀ s ts)
    (hw : work (pushBody g threads grain frontier) s ts i = some (s', ts')) :
    PassInv g threads grain frontier V₀ s' ts' := by
  obtain ⟨pre, t, post, t', rfl, hbody, rfl⟩ := work_eq_some hw
  obtain ⟨tid, hstep⟩ := pushBody_step hbody
  have halign := h.aligned t (by simp)
  have hmap : ∀ x, (pre ++ x :: post).map (PushTask.claimer g frontier) =
      pre.map (PushTask.claimer g frontier) ++ x.claimer g frontier :: post.map (PushTask.claimer g frontier) :=
    fun x => by rw [List.map_append, List.map_cons]
  have hclaims := h.claims
  have hclaimed := h.claimed
  rw [hmap] at hclaims hclaimed
  refine ⟨?_, ?_, ?_, hstep.bytes h.bytes⟩
  · rw [hmap]
    exact hclaims.move (hstep.move hT halign)
  · rw [held_split] at hclaimed
    rw [hmap, held_split]
    exact claimed_of_step (hstep.claimed hT halign) hclaimed
  · -- the other tasks are not at the buffer of this thread
    have hother : grain = .split → ∀ u ∈ pre ++ post, ∀ tid', u.running = some tid' → tid' % threads ≠ tid % threads := by
      intro hg u hu tid' hrun heq
      have hnodup := hexcl hg
      rw [slotsInUse, List.filterMap_append, List.filterMap_cons_some hstep.running, List.map_append, List.map_cons]
        at hnodup
      have hnot := (List.nodup_middle.mp hnodup).notMem
      rw [← List.map_append, ← List.filterMap_append] at hnot
      exact hnot (List.mem_map.mpr ⟨tid', List.mem_filterMap.mpr ⟨u, hu, hrun⟩, heq⟩)
    obtain ⟨-, haligned⟩ := forall_mem_middle.mp h.aligned
    exact forall_mem_middle.mpr ⟨hstep.aligned_own halign,
      fun u hu => hstep.aligned_other (haligned u hu) fun hg => hother hg u hu⟩

theorem passInv_begin {tid : ℕ} {t : PushTask} (h : PassInv g threads grain frontier V₀ s ts) (ht : ts[i]? = some t)
    (hthread : t.thread = none) : PassInv g threads grain frontier V₀ s (ts.set i { t with thread := some tid }) := by
  obtain ⟨pre, post, rfl, hset⟩ := exists_middle ht
  obtain ⟨halign, haligned⟩ := forall_mem_middle.mp h.aligned
  -- the thread is no part of the claimer
  have hmap : (pre ++ { t with thread := some tid } :: post).map (PushTask.claimer g frontier) =
      (pre ++ t :: post).map (PushTask.claimer g frontier) := by
    rw [List.map_append, List.map_append, List.map_cons, List.map_cons]
    rfl
  rw [hset]
  refine ⟨hmap ▸ h.claims, hmap ▸ h.claimed, forall_mem_middle.mpr ⟨?_, haligned⟩, h.bytes⟩
  revert halign
  unfold PushTask.Aligned
  rw [hthread]
  cases t.stage <;> simp

/-- When all tasks are through, the buffers hold the new vertices, each once: those the pass claimed. -/
theorem passInv_finish (h : PassInv g threads grain frontier V₀ s ts) (hdone : ∀ t ∈ ts, t.Finished) :
    (∀ v : UInt32, s.visited v.toNat ≠ 0 ↔ V₀ v ∨ g.NextOf frontier v) ∧ (handed threads s.buffers).Nodup ∧
      (∀ v, v ∈ handed threads s.buffers ↔ g.NextOf frontier v ∧ ¬ V₀ v) ∧
      (s.claimed : Multiset UInt32) = handed threads s.buffers := by
  have hnil : ∀ c ∈ ts.map (PushTask.claimer g frontier), c.todo = [] ∧ c.held = none := by
    intro c hc
    obtain ⟨⟨thread, is, es, stage⟩, ht, rfl⟩ := List.mem_map.mp hc
    obtain ⟨rfl, rfl, rfl⟩ := hdone _ ht
    exact ⟨rfl, rfl⟩
  obtain ⟨hvis, hnodup, hmem⟩ := h.claims.finish hnil
  refine ⟨hvis, hnodup, hmem, ?_⟩
  rw [h.claimed, held_eq_zero fun c hc => (hnil c hc).2, add_zero]

end Pass

/-! ## The transfers -/

section Transfers
variable {buffers : ℕ → ThreadBuffer} {dst : ThreadBuffer} {n j : ℕ}

theorem transfers_succ_fst : (transfers buffers dst (n + 1)).1 = Function.update (transfers buffers dst n).1 n
    (((transfers buffers dst n).1 n).transfer (transfers buffers dst n).2).1 := rfl

theorem transfers_succ_snd : (transfers buffers dst (n + 1)).2 =
    (((transfers buffers dst n).1 n).transfer (transfers buffers dst n).2).2 := rfl

theorem transfers_of_le (h : n ≤ j) : (transfers buffers dst n).1 j = buffers j := by
  induction n with
  | zero => rfl
  | succ n ih =>
    have hne : j ≠ n := by omega
    rw [transfers_succ_fst, Function.update_of_ne hne]
    exact ih (by omega)

theorem next_transfers (h : j < n) : ((transfers buffers dst n).1 j).next = 0 := by
  induction n with
  | zero => omega
  | succ n ih =>
    rw [transfers_succ_fst]
    by_cases hj : j = n
    · subst hj
      rw [Function.update_self]
      exact ThreadBuffer.next_transfer_fst _ _
    · rw [Function.update_of_ne hj]
      exact ih (by omega)

theorem contents_transfers :
    ((transfers buffers dst n).2.contents : Multiset UInt32) = dst.contents + handed n buffers := by
  induction n with
  | zero => exact (add_zero _).symm
  | succ n ih =>
    rw [transfers_succ_snd, ThreadBuffer.contents_transfer_snd, ← Multiset.coe_add, ih, transfers_of_le le_rfl, handed, handed,
      Finset.sum_range_succ, add_assoc]

end Transfers

end GraphBenchmark
