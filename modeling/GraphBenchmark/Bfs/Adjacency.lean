import GraphBenchmark.Model.Config
import GraphBenchmark.Foundations.Distance
import Mathlib.Data.Finset.Image

/-! # The edges as the traversals read them

A traversal reads the slice of a vertex `v` up to `offsets[v+1]` with `v` a `uint32_t`. For the vertex
`2^32-1` the index wraps to `0` and the slice it reads is empty: `bfs_push` follows the edges that do not
start there, `bfs_pull` those that do not end there. -/
namespace GraphBenchmark
open Levels
set_option autoImplicit false

/-- The vertex whose successor wraps to `0`. -/
def lastId : UInt32 := 4294967295

theorem toNat_lastId : lastId.toNat = 2 ^ 32 - 1 := rfl

theorem toNat_add_one {v : UInt32} (h : v ≠ lastId) : (v + 1).toNat = v.toNat + 1 := by
  have hlt := v.toNat_lt
  have hne : v.toNat ≠ lastId.toNat := fun heq => h (UInt32.toNat_inj.mp heq)
  rw [toNat_lastId] at hne
  rw [UInt32.toNat_add, UInt32.toNat_one, Nat.mod_eq_of_lt (by omega)]

/-- An out-edge as `bfs_push` reads it. -/
def Graph.OutRead (g : Graph) (u v : UInt32) : Prop := v ∈ g.outScan u

/-- An in-edge as `bfs_pull` reads it. -/
def Graph.InRead (g : Graph) (u v : UInt32) : Prop := u ∈ g.inScan v

section Csr
variable {n m : ℕ} {offsets : ℕ → UInt64} {edges : ℕ → UInt32} {x : UInt32} {i j : ℕ}

theorem mem_slots {beg fin : UInt64} :
    x ∈ slots edges beg fin ↔ ∃ i, beg.toNat ≤ i ∧ i < fin.toNat ∧ edges i = x := by
  simp only [slots, List.mem_map, List.mem_range'_1]
  constructor
  · intro ⟨i, ⟨hlo, hhi⟩, h⟩
    exact ⟨i, hlo, by omega, h⟩
  · intro ⟨i, hlo, hhi, h⟩
    exact ⟨i, ⟨hlo, by omega⟩, h⟩

theorem slots_zero (edges : ℕ → UInt32) (beg : UInt64) : slots edges beg 0 = [] := by
  rw [slots, show (0 : UInt64).toNat = 0 from rfl, Nat.zero_sub]
  rfl

theorem IsCsr.offsets_le (h : IsCsr n m offsets edges) (hij : i ≤ j) (hj : j ≤ n) : offsets i ≤ offsets j := by
  induction j with
  | zero =>
    obtain rfl : i = 0 := by omega
    exact UInt64.le_refl _
  | succ j ih =>
    rcases Nat.lt_or_ge j i with hi | hi
    · obtain rfl : i = j + 1 := by omega
      exact UInt64.le_refl _
    · exact UInt64.le_trans (ih hi (by omega)) (h.mono j (by omega))

theorem IsCsr.entry_of_mem (h : IsCsr n m offsets edges) (hi : i < n)
    (hx : x ∈ slots edges (offsets i) (offsets (i + 1))) : x.toNat < n := by
  obtain ⟨k, -, hk, rfl⟩ := mem_slots.mp hx
  have hle := UInt64.le_iff_toNat_le.mp (h.offsets_le (i := i + 1) (j := n) (by omega) le_rfl)
  have hlast := h.last
  exact h.entry_lt k (by omega)

end Csr

section Graph
variable {g : Graph} {u v start : UInt32}

theorem outRead_iff (h : g.OutWellFormed) (hu : u.toNat < g.nbNodes) :
    g.OutRead u v ↔ CutOut g.Adj lastId u v := by
  unfold Graph.OutRead Graph.outScan CutOut Graph.Adj
  by_cases hl : u = lastId
  · have hw : (u + 1).toNat = 0 := by rw [hl]; rfl
    rw [hw, h.zero, slots_zero]
    simp [hl]
  · rw [toNat_add_one hl]
    simp [hl, hu, Graph.outSlice]

theorem inRead_iff (hin : g.InWellFormed) (ht : g.Transposed) (hu : u.toNat < g.nbNodes) (hv : v.toNat < g.nbNodes) :
    g.InRead u v ↔ CutIn g.Adj lastId u v := by
  unfold Graph.InRead Graph.inScan CutIn Graph.Adj
  by_cases hl : v = lastId
  · have hw : (v + 1).toNat = 0 := by rw [hl]; rfl
    rw [hw, hin.zero, slots_zero]
    simp [hl]
  · rw [toNat_add_one hl, ht u v hu hv]
    simp [hl, hu, Graph.inSlice]

theorem adj_lt (h : g.OutWellFormed) (he : g.Adj u v) : v.toNat < g.nbNodes := h.entry_of_mem he.1 he.2

theorem inRead_lt (h : g.InWellFormed) (hv : v.toNat < g.nbNodes) (he : g.InRead u v) : u.toNat < g.nbNodes := by
  unfold Graph.InRead Graph.inScan at he
  by_cases hl : v = lastId
  · have hw : (v + 1).toNat = 0 := by rw [hl]; rfl
    rw [hw, h.zero, slots_zero] at he
    cases he
  · rw [toNat_add_one hl] at he
    exact h.entry_of_mem hv he

theorem reach_lt (h : g.OutWellFormed) (hs : start.toNat < g.nbNodes) (hr : Relation.ReflTransGen g.Adj start v) :
    v.toNat < g.nbNodes := by
  cases hr with
  | refl => exact hs
  | tail _ he => exact adj_lt h he

/-- An edge along which `bfs_pull` finds a vertex. -/
def Graph.Pulls (g : Graph) (u v : UInt32) : Prop := v.toNat < g.nbNodes ∧ g.InRead u v

theorem pulls_iff (hout : g.OutWellFormed) (hin : g.InWellFormed) (ht : g.Transposed) (hu : u.toNat < g.nbNodes) :
    g.Pulls u v ↔ CutIn g.Adj lastId u v := by
  constructor
  · intro ⟨hv, he⟩
    exact (inRead_iff hin ht hu hv).mp he
  · intro he
    have hv := adj_lt hout he.1
    exact ⟨hv, (inRead_iff hin ht hu hv).mpr he⟩

/-- Along the edges it finds vertices by, `bfs_pull` sees the distances of the graph without the edges into
`lastId`. -/
theorem distIs_pulls (hout : g.OutWellFormed) (hin : g.InWellFormed) (ht : g.Transposed)
    (hs : start.toNat < g.nbNodes) (k : ℕ) (v : UInt32) :
    DistIs (CutIn g.Adj lastId) start k v ↔ DistIs g.Pulls start k v :=
  distIs_congr fun _ _ hu =>
    (pulls_iff hout hin ht (reach_lt hout hs (Relation.ReflTransGen.mono (fun _ _ he => he.1) _ _ hu))).symm

/-- Along the edges it reads, `bfs_push` sees the distances of the graph without the edges out of
`lastId`. -/
theorem distIs_outRead (h : g.OutWellFormed) (hs : start.toNat < g.nbNodes) (k : ℕ) (v : UInt32) :
    DistIs (CutOut g.Adj lastId) start k v ↔ DistIs g.OutRead start k v :=
  distIs_congr fun _ _ hu => (outRead_iff h (reach_lt h hs (Relation.ReflTransGen.mono (fun _ _ he => he.1) _ _ hu))).symm

theorem distIs_outRead_lt (hout : g.OutWellFormed) (hs : start.toNat < g.nbNodes) {k : ℕ} {v : UInt32}
    (hv : DistIs g.OutRead start k v) : Relation.ReflTransGen g.Adj start v ∧ v.toNat < g.nbNodes := by
  have hreach := Relation.ReflTransGen.mono (fun _ _ he => he.1) _ _ ((distIs_outRead hout hs k v).mpr hv).reach
  exact ⟨hreach, reach_lt hout hs hreach⟩

theorem outRead_lt (h : g.OutWellFormed) (hu : u.toNat < g.nbNodes) (he : g.OutRead u v) : v.toNat < g.nbNodes :=
  adj_lt h ((outRead_iff h hu).mp he).1

/-- Neither reading direction misses anything: `lastId` is out of reach, or the source is `lastId` itself
and has no edge to another vertex. -/
def Graph.LastIdle (g : Graph) (start : UInt32) : Prop :=
  ¬ Relation.ReflTransGen g.Adj start lastId ∨ start = lastId ∧ ∀ w, g.Adj lastId w → w = lastId

theorem Graph.LastIdle.cutOut (h : g.LastIdle start) (k : ℕ) (v : UInt32) :
    DistIs g.Adj start k v ↔ DistIs (CutOut g.Adj lastId) start k v := by
  rcases h with h | ⟨rfl, h⟩
  · exact distIs_cutOut_of_not_reach h k v
  · exact distIs_cutOut_iff.mpr (bypassed_of_idle h) k v

theorem Graph.LastIdle.cutIn (h : g.LastIdle start) (k : ℕ) (v : UInt32) :
    DistIs g.Adj start k v ↔ DistIs (CutIn g.Adj lastId) start k v := by
  rcases h with h | ⟨rfl, -⟩
  · exact distIs_cutIn_of_not_reach h k v
  · exact distIs_cutIn_source k v

/-- Where both reading directions reach what the graph does, `lastId` is idle. -/
theorem lastIdle_of_reach (hout : g.OutWellFormed) (hin : g.InWellFormed) (ht : g.Transposed)
    (hs : start.toNat < g.nbNodes)
    (hpull : ∀ v, Relation.ReflTransGen g.Adj start v ↔ Relation.ReflTransGen g.Pulls start v)
    (hpush : ∀ v, Relation.ReflTransGen g.Adj start v ↔ Relation.ReflTransGen g.OutRead start v) :
    g.LastIdle start := by
  by_cases hl : Relation.ReflTransGen g.Adj start lastId
  · -- the in-edges lead to `lastId` only where they start, and then the out-edges lead no further
    have hself := (hpull lastId).mp hl
    rw [← reach_congr (distIs_pulls hout hin ht hs)] at hself
    obtain rfl := reach_cutIn_self hself
    refine Or.inr ⟨rfl, fun w hw => ?_⟩
    have hw' := (hpush w).mp (Relation.ReflTransGen.single hw)
    rw [← reach_congr (distIs_outRead hout hs)] at hw'
    exact reach_cutOut_self hw'
  · exact Or.inl hl

end Graph

/-! ## The visited bytes -/

/-- Every cell is `0` or `1`, and `0` where there is no vertex. -/
def Bytes (visited : ℕ → UInt8) : Prop := ∀ i, visited i = 0 ∨ visited i = 1 ∧ i < 2 ^ 32

section Bytes
variable {x y : ℕ → UInt8}

theorem Bytes.zero : Bytes fun _ => 0 := fun _ => Or.inl rfl

theorem Bytes.mark (h : Bytes x) (d : UInt32) : Bytes (Function.update x d.toNat 1) := by
  intro i
  rw [Function.update_apply]
  split
  · exact Or.inr ⟨rfl, by have := d.toNat_lt; omega⟩
  · exact h i

theorem Bytes.ne_zero_iff (h : Bytes x) (i : ℕ) : x i ≠ 0 ↔ x i = 1 := by
  rcases h i with hi | ⟨hi, -⟩ <;> rw [hi] <;> decide

theorem Bytes.ext (hx : Bytes x) (hy : Bytes y) (h : ∀ v : UInt32, x v.toNat = 1 ↔ y v.toNat = 1) : x = y := by
  have hle : ∀ {x y : ℕ → UInt8}, Bytes x → Bytes y → (∀ v : UInt32, x v.toNat = 1 → y v.toNat = 1) →
      ∀ i, x i = 1 → y i = 1 := by
    intro x y hx _ h i hi
    rcases hx i with h₀ | ⟨-, hlt⟩
    · rw [h₀] at hi
      cases hi
    · have hv := h (UInt32.ofNat i)
      rw [UInt32.toNat_ofNat_of_lt' hlt] at hv
      exact hv hi
  funext i
  have h₁ := hle hx hy (fun v => (h v).mp) i
  have h₂ := hle hy hx (fun v => (h v).mpr) i
  rcases hx i with hi | ⟨hi, -⟩ <;> rcases hy i with hj | ⟨hj, -⟩ <;> simp_all

end Bytes

/-! ## The number of levels -/

theorem level_lt {E : UInt32 → UInt32 → Prop} {start v : UInt32} {k : ℕ} (h : DistIs E start k v) : k < 2 ^ 32 := by
  have hall : ∀ w : UInt32, w ∈ (Finset.range (2 ^ 32)).image UInt32.ofNat := by
    intro w
    exact Finset.mem_image.mpr ⟨w.toNat, Finset.mem_range.mpr w.toNat_lt, UInt32.ofNat_toNat⟩
  have hlt := h.lt_card fun w _ => hall w
  have hcard := Finset.card_image_le (s := Finset.range (2 ^ 32)) (f := UInt32.ofNat)
  rw [Finset.card_range] at hcard
  omega

end GraphBenchmark
