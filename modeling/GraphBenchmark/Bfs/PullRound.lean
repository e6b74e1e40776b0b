import GraphBenchmark.Model.Pull
import GraphBenchmark.Bfs.Adjacency
import GraphBenchmark.Foundations.Marking

/-! # One round of `bfs_pull`

The tasks of a round mark the unvisited vertices that have an in-neighbour in the frontier (`Marking`).
`RoundInv` is kept by every step of every task. -/
namespace GraphBenchmark
open Interleaving Marking
set_option autoImplicit false

/-- What `pullBody` can do, case by case. -/
inductive PullStep (g : Graph) (inFrontier : ℕ → Bool) (s : PullShared) : PullTask → PullShared → PullTask → Prop
  | visited {i : ℕ} {is : List ℕ} {f : Bool} (h : s.visited (UInt32.ofNat i).toNat ≠ 0) :
      PullStep g inFrontier s ⟨i :: is, .check, f⟩ s ⟨is, .check, f⟩
  | enter {i : ℕ} {is : List ℕ} {f : Bool} (h : s.visited (UInt32.ofNat i).toNat = 0) :
      PullStep g inFrontier s ⟨i :: is, .check, f⟩ s ⟨is, .scan (UInt32.ofNat i) (g.inScan (UInt32.ofNat i)), f⟩
  | stop {f : Bool} :
      PullStep g inFrontier s ⟨[], .check, f⟩ { s with cont := if f then f else s.cont } ⟨[], .through, f⟩
  | past {is : List ℕ} {d : UInt32} {f : Bool} : PullStep g inFrontier s ⟨is, .scan d [], f⟩ s ⟨is, .check, f⟩
  | hit {is : List ℕ} {d src : UInt32} {srcs : List UInt32} {f : Bool} (h : inFrontier src.toNat = true) :
      PullStep g inFrontier s ⟨is, .scan d (src :: srcs), f⟩ s ⟨is, .found d, true⟩
  | miss {is : List ℕ} {d src : UInt32} {srcs : List UInt32} {f : Bool} (h : ¬ inFrontier src.toNat = true) :
      PullStep g inFrontier s ⟨is, .scan d (src :: srcs), f⟩ s ⟨is, .scan d srcs, f⟩
  | claim {is : List ℕ} {d : UInt32} {f : Bool} : PullStep g inFrontier s ⟨is, .found d, f⟩
      { s with visited := Function.update s.visited d.toNat 1 } ⟨is, .mark d, f⟩
  | put {is : List ℕ} {d : UInt32} {f : Bool} : PullStep g inFrontier s ⟨is, .mark d, f⟩
      { s with inFrontierNext := Function.update s.inFrontierNext d.toNat true } ⟨is, .check, f⟩

section Step
variable {g : Graph} {inFrontier : ℕ → Bool} {s s' : PullShared} {t t' : PullTask}

theorem pullBody_step (h : pullBody g inFrontier s t = some (s', t')) : PullStep g inFrontier s t s' t' := by
  obtain ⟨is, stage, f⟩ := t
  cases stage with
  | check =>
    cases is with
    | nil =>
      obtain ⟨rfl, rfl⟩ := Prod.mk.inj (Option.some.inj h)
      exact .stop
    | cons i is =>
      obtain ⟨rfl, rfl⟩ := Prod.mk.inj (Option.some.inj h)
      by_cases hv : s.visited (UInt32.ofNat i).toNat = 0
      · simp only [if_pos hv]
        exact .enter hv
      · simp only [if_neg hv]
        exact .visited hv
  | scan d srcs =>
    cases srcs with
    | nil =>
      obtain ⟨rfl, rfl⟩ := Prod.mk.inj (Option.some.inj h)
      exact .past
    | cons src srcs =>
      simp only [pullBody] at h
      split at h <;> obtain ⟨rfl, rfl⟩ := Prod.mk.inj (Option.some.inj h)
      · exact .hit ‹_›
      · exact .miss ‹_›
  | found d =>
    obtain ⟨rfl, rfl⟩ := Prod.mk.inj (Option.some.inj h)
    exact .claim
  | mark d =>
    obtain ⟨rfl, rfl⟩ := Prod.mk.inj (Option.some.inj h)
    exact .put
  | through => cases h

theorem pullBody_isSome (ht : t.stage ≠ .through) : pullBody g inFrontier s t ≠ none := by
  obtain ⟨is, stage, f⟩ := t
  cases stage with
  | check => cases is <;> exact Option.some_ne_none _
  | scan d srcs =>
    cases srcs with
    | nil => exact Option.some_ne_none _
    | cons src srcs =>
      simp only [pullBody]
      split <;> exact Option.some_ne_none _
  | found d => exact Option.some_ne_none _
  | mark d => exact Option.some_ne_none _
  | through => exact absurd rfl ht

def PullTask.weight (g : Graph) (t : PullTask) : ℕ :=
  (t.indices.map fun i => 4 + (g.inScan (UInt32.ofNat i)).length).sum +
    match t.stage with
    | .check => 1
    | .scan _ srcs => srcs.length + 4
    | .found _ => 3
    | .mark _ => 2
    | .through => 0

theorem PullStep.weight_lt (h : PullStep g inFrontier s t s' t') : t'.weight g < t.weight g := by
  cases h <;> simp only [PullTask.weight, List.map_cons, List.sum_cons, List.length_cons, List.length_nil] <;> omega

/-- The vertex has an in-neighbour in the frontier. -/
def Graph.Fed (g : Graph) (inFrontier : ℕ → Bool) (v : UInt32) : Prop := ∃ u ∈ g.inScan v, inFrontier u.toNat = true

def PullTask.marker (t : PullTask) : Marker UInt32 where
  todo := (match t.stage with
    | .scan d _ => [d]
    | .found d => [d]
    | _ => []) ++ t.indices.map UInt32.ofNat
  held := match t.stage with
    | .mark d => some d
    | _ => none
  found := t.localCont
  through := decide (t.stage = .through)

def PullShared.marking (s : PullShared) : Marking.Shared UInt32 :=
  ⟨fun v => s.visited v.toNat ≠ 0, fun v => s.inFrontierNext v.toNat = true, s.cont⟩

/-- What a task knows about the vertex in hand: it was not visited when the round began, and the
in-neighbours seen so far are not in the frontier. -/
def PullTask.Aligned (g : Graph) (inFrontier : ℕ → Bool) (V₀ : UInt32 → Prop) (t : PullTask) : Prop :=
  match t.stage with
  | .scan d srcs => ¬ V₀ d ∧ (g.Fed inFrontier d ↔ ∃ u ∈ srcs, inFrontier u.toNat = true)
  | .found d => ¬ V₀ d ∧ g.Fed inFrontier d ∧ t.localCont = true
  | _ => True

variable {V₀ : UInt32 → Prop}

theorem PullStep.aligned (h : PullStep g inFrontier s t s' t') (hbase : ∀ v : UInt32, V₀ v → s.visited v.toNat ≠ 0)
    (ht : t.Aligned g inFrontier V₀) : t'.Aligned g inFrontier V₀ := by
  cases h with
  | enter h => exact ⟨fun hv => hbase _ hv h, Iff.rfl⟩
  | hit h => exact ⟨ht.1, ht.2.mpr ⟨_, List.mem_cons_self .., h⟩, rfl⟩
  | miss h =>
    obtain ⟨hnot, hfed⟩ := ht
    refine ⟨hnot, hfed.trans ?_⟩
    simp only [List.mem_cons, exists_eq_or_imp, h, Bool.false_eq_true, false_or]
  | _ => trivial

theorem PullStep.move (h : PullStep g inFrontier s t s' t') (ht : t.Aligned g inFrontier V₀) :
    Move V₀ (g.Fed inFrontier) s.marking t.marker s'.marking t'.marker := by
  cases h with
  | visited h => exact .skip (Or.inl h)
  | enter h => exact .stay _
  | @stop f => cases f <;> exact .stop
  | past =>
    refine .skip (Or.inr fun hfed => ?_)
    obtain ⟨u, hu, -⟩ := ht.2.mp hfed
    cases hu
  | hit h => exact .find (ht.2.mpr ⟨_, List.mem_cons_self .., h⟩) ht.1
  | miss h => exact .stay _
  | @claim is d f =>
    obtain ⟨hnot, hfed, rfl⟩ := ht
    exact .claim hfed hnot fun v => update_vertex_iff (P := (· ≠ 0)) (by decide)
  | put => exact .put fun v => update_vertex_iff (P := (· = true)) rfl

theorem PullStep.bytes (h : PullStep g inFrontier s t s' t') (hs : Bytes s.visited) : Bytes s'.visited := by
  cases h with
  | claim => exact hs.mark _
  | _ => exact hs

end Step

/-! ## The round -/

/-- What holds during a round that began with the visited set `V₀` and the next map `H`. -/
structure RoundInv (g : Graph) (inFrontier : ℕ → Bool) (V₀ H : UInt32 → Prop) (s : PullShared)
    (ts : List PullTask) : Prop where
  marks : Marking.Inv V₀ H (fun v => v.toNat < g.nbNodes) (g.Fed inFrontier) s.marking (ts.map PullTask.marker)
  aligned : ∀ t ∈ ts, t.Aligned g inFrontier V₀
  bytes : Bytes s.visited

section Round
variable {g : Graph} {inFrontier : ℕ → Bool} {V₀ H : UInt32 → Prop} {s s' : PullShared} {ts ts' : List PullTask}
  {rs : List BlockedRange} {i : ℕ}

theorem roundInv_launch (hrs : Split g.nbNodes rs) (hcont : s.cont = false)
    (hbytes : Bytes s.visited) :
    RoundInv g inFrontier (fun v => s.visited v.toNat ≠ 0) (fun v => s.inFrontierNext v.toNat = true) s
      (rs.map PullTask.ofRange) := by
  have hlists : ∀ v : UInt32, v.toNat < g.nbNodes ↔
      ∃ m ∈ (rs.map PullTask.ofRange).map PullTask.marker, v ∈ m.todo := by
    intro v
    constructor
    · intro hv
      obtain ⟨r, hr, hi⟩ := hrs.mem_iff.mpr hv
      exact ⟨(PullTask.ofRange r).marker, List.mem_map_of_mem (List.mem_map_of_mem hr),
        List.mem_map.mpr ⟨v.toNat, hi, UInt32.ofNat_toNat⟩⟩
    · intro ⟨m, hm, hv⟩
      obtain ⟨t, ht, rfl⟩ := List.mem_map.mp hm
      obtain ⟨r, hr, rfl⟩ := List.mem_map.mp ht
      obtain ⟨j, hj, rfl⟩ := List.mem_map.mp hv
      have hlt := hrs.mem_iff.mp ⟨r, hr, hj⟩
      rw [UInt32.toNat_ofNat']
      exact (Nat.mod_le _ _).trans_lt hlt
  refine ⟨?_, fun t ht => ?_, hbytes⟩
  · have hstart : s.marking = ⟨fun v => s.visited v.toNat ≠ 0, fun v => s.inFrontierNext v.toNat = true, false⟩ := by
      rw [PullShared.marking, hcont]
    rw [hstart]
    refine Inv.start hlists fun m hm => ?_
    obtain ⟨t, ht, rfl⟩ := List.mem_map.mp hm
    obtain ⟨r, hr, rfl⟩ := List.mem_map.mp ht
    exact ⟨rfl, rfl, rfl⟩
  · obtain ⟨r, hr, rfl⟩ := List.mem_map.mp ht
    trivial

theorem roundInv_work (h : RoundInv g inFrontier V₀ H s ts)
    (hw : work (pullBody g inFrontier) s ts i = some (s', ts')) : RoundInv g inFrontier V₀ H s' ts' := by
  refine ⟨?_, ?_, ?_⟩
  · obtain ⟨pre, t, post, t', rfl, hbody, rfl⟩ := work_eq_some hw
    have hmarks := h.marks
    rw [List.map_append, List.map_cons] at hmarks ⊢
    exact hmarks.move ((pullBody_step hbody).move (h.aligned t (by simp)))
  · exact work_forall (P := fun _ t => t.Aligned g inFrontier V₀) hw h.aligned
      (fun t t' _ ht hbody => (pullBody_step hbody).aligned h.marks.base ht) fun _ _ _ _ _ hu => hu
  · obtain ⟨pre, t, post, t', rfl, hbody, rfl⟩ := work_eq_some hw
    exact (pullBody_step hbody).bytes h.bytes

theorem roundInv_finish (h : RoundInv g inFrontier V₀ H s ts) (hdone : ∀ t ∈ ts, t.stage = .through) :
    (∀ v : UInt32, s.visited v.toNat ≠ 0 ↔ V₀ v ∨ (v.toNat < g.nbNodes ∧ g.Fed inFrontier v)) ∧
      (∀ v : UInt32, s.inFrontierNext v.toNat = true ↔ H v ∨ (¬ V₀ v ∧ v.toNat < g.nbNodes ∧ g.Fed inFrontier v)) ∧
      (s.cont = true ↔ ∃ v : UInt32, v.toNat < g.nbNodes ∧ g.Fed inFrontier v ∧ ¬ V₀ v) := by
  refine h.marks.finish fun m hm => ?_
  obtain ⟨t, ht, rfl⟩ := List.mem_map.mp hm
  exact decide_eq_true (hdone t ht)

end Round

end GraphBenchmark
