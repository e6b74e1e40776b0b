import GraphBenchmark.Foundations.Sweep
import Mathlib.Algebra.BigOperators.Group.Multiset.Basic
import Mathlib.Data.List.GetD
import Mathlib.Data.List.Perm.Basic
import Mathlib.Data.Multiset.Range
import Mathlib.Logic.Function.Basic

/-! # The shared data of the benchmark (`include/config.h`, `src/config.cpp`)

A block of memory is a function from indices to cells; the cells have the source's own widths, so
`uint32_t`, `size_t` and `uint8_t` arithmetic is `UInt32`, `UInt64` and `UInt8` arithmetic and wraps
where the source's does. Sizes and loop counters of type `size_t` that cannot reach `2^64` are
natural numbers. -/
namespace GraphBenchmark
set_option autoImplicit false

/-- `edge_t`. -/
structure Edge where
  src : UInt32
  dst : UInt32
deriving DecidableEq, Repr

/-- `class Graph`. -/
structure Graph where
  symmetric : Bool
  nbNodes : ℕ
  nbEdges : ℕ
  outEdges : ℕ → UInt32
  outEdgeOffsets : ℕ → UInt64
  inEdges : ℕ → UInt32
  inEdgeOffsets : ℕ → UInt64

/-! ## Adjacency slices -/

/-- The cells `for(; beg < end; beg++)` reads. -/
def slots (edges : ℕ → UInt32) (beg fin : UInt64) : List UInt32 :=
  (List.range' beg.toNat (fin.toNat - beg.toNat)).map edges

/-- The slice of vertex `v` in the out-CSR. -/
def Graph.outSlice (g : Graph) (v : ℕ) : List UInt32 := slots g.outEdges (g.outEdgeOffsets v) (g.outEdgeOffsets (v + 1))

/-- The slice of vertex `v` in the in-CSR. -/
def Graph.inSlice (g : Graph) (v : ℕ) : List UInt32 := slots g.inEdges (g.inEdgeOffsets v) (g.inEdgeOffsets (v + 1))

/-- The out-neighbours as a traversal reads them: `src` is a `uint32_t`, so `src+1` wraps. -/
def Graph.outScan (g : Graph) (src : UInt32) : List UInt32 :=
  slots g.outEdges (g.outEdgeOffsets src.toNat) (g.outEdgeOffsets (src + 1).toNat)

/-- The in-neighbours as a traversal reads them: `dst` is a `uint32_t`, so `dst+1` wraps. -/
def Graph.inScan (g : Graph) (dst : UInt32) : List UInt32 :=
  slots g.inEdges (g.inEdgeOffsets dst.toNat) (g.inEdgeOffsets (dst + 1).toNat)

/-- Compressed rows over `n` vertices and `m` slots: the offsets rise from `0` to `m` and every entry
is a vertex. -/
structure IsCsr (n m : ℕ) (offsets : ℕ → UInt64) (edges : ℕ → UInt32) : Prop where
  zero : offsets 0 = 0
  mono : ∀ v < n, offsets v ≤ offsets (v + 1)
  last : (offsets n).toNat = m
  entry_lt : ∀ x < m, (edges x).toNat < n

def Graph.OutWellFormed (g : Graph) : Prop := IsCsr g.nbNodes g.nbEdges g.outEdgeOffsets g.outEdges

def Graph.InWellFormed (g : Graph) : Prop := IsCsr g.nbNodes g.nbEdges g.inEdgeOffsets g.inEdges

/-- There is an edge from `u` to `v`: the out-slice of `u` names `v`. -/
def Graph.Adj (g : Graph) (u v : UInt32) : Prop := u.toNat < g.nbNodes ∧ v ∈ g.outSlice u.toNat

/-- The in-CSR is the transpose of the out-CSR. -/
def Graph.Transposed (g : Graph) : Prop :=
  ∀ u v : UInt32, u.toNat < g.nbNodes → v.toNat < g.nbNodes →
    (v ∈ g.outSlice u.toNat ↔ u ∈ g.inSlice v.toNat)

/-! ## Vertices as array indices -/

theorem update_vertex_iff {β : Type*} {cells : ℕ → β} {x : β} {P : β → Prop} (hx : P x) {d v : UInt32} :
    P (Function.update cells d.toNat x v.toNat) ↔ P (cells v.toNat) ∨ v = d := by
  by_cases h : v = d
  · subst h
    simp [hx]
  · have hne : v.toNat ≠ d.toNat := fun heq => h (UInt32.toNat_inj.mp heq)
    simp [hne, h]

theorem visited_init (start v : UInt32) :
    Function.update (fun _ => (0 : UInt8)) start.toNat 1 v.toNat ≠ 0 ↔ v = start := by
  rw [update_vertex_iff (P := (· ≠ 0)) (by decide)]
  simp

/-! ## `parallel_for` -/

/-- `blocked_range<size_t>(first, last)`. -/
structure BlockedRange where
  first : ℕ
  last : ℕ
deriving DecidableEq, Repr

/-- `for(size_t i = r.begin(); i != r.end(); i++)`. -/
def BlockedRange.indices (r : BlockedRange) : List ℕ := List.range' r.first (r.last - r.first)

/-- The subranges a `parallel_for` over `[0, n)` hands to its workers: none is empty, and together they
hold each index exactly once. The scheduler chooses them. -/
def Split (n : ℕ) (rs : List BlockedRange) : Prop :=
  (∀ r ∈ rs, r.first < r.last) ∧ (rs.flatMap BlockedRange.indices).Perm (List.range n)

instance (n : ℕ) (rs : List BlockedRange) : Decidable (Split n rs) :=
  inferInstanceAs (Decidable ((∀ r ∈ rs, r.first < r.last) ∧ _))

theorem Split.mem_iff {n : ℕ} {rs : List BlockedRange} (h : Split n rs) {i : ℕ} :
    (∃ r ∈ rs, i ∈ r.indices) ↔ i < n := by
  rw [← List.mem_flatMap, h.2.mem_iff, List.mem_range]

theorem Split.exists_getD_iff {α : Type*} {l : List α} {d : α} {rs : List BlockedRange} {P : α → Prop}
    (h : Split l.length rs) : (∃ r ∈ rs, ∃ i ∈ r.indices, P (l.getD i d)) ↔ ∃ x ∈ l, P x := by
  constructor
  · intro ⟨r, hr, i, hi, hP⟩
    have hlt := h.mem_iff.mp ⟨r, hr, hi⟩
    rw [List.getD_eq_getElem _ _ hlt] at hP
    exact ⟨l[i], List.getElem_mem hlt, hP⟩
  · intro ⟨x, hx, hP⟩
    obtain ⟨i, hlt, rfl⟩ := List.mem_iff_getElem.mp hx
    obtain ⟨r, hr, hi⟩ := h.mem_iff.mpr hlt
    exact ⟨r, hr, i, hi, by rwa [List.getD_eq_getElem _ _ hlt]⟩

theorem Split.sum_indices {n : ℕ} {rs : List BlockedRange} (h : Split n rs) :
    (rs.map fun r => (r.indices : Multiset ℕ)).sum = Multiset.range n := by
  have hflat : ∀ rs : List BlockedRange, (rs.map fun r => (r.indices : Multiset ℕ)).sum =
      (rs.flatMap BlockedRange.indices : List ℕ) := by
    intro rs
    induction rs with
    | nil => rfl
    | cons r rs ih => rw [List.map_cons, List.sum_cons, ih, List.flatMap_cons, Multiset.coe_add]
  rw [hflat]
  exact Multiset.coe_eq_coe.mpr h.2

theorem Split.sum_map {M : Type*} [AddCommMonoid M] {n : ℕ} {rs : List BlockedRange} (h : Split n rs) (f : ℕ → M) :
    (rs.map fun r => (r.indices.map f).sum).sum = ((List.range n).map f).sum := by
  have hflat : ∀ rs : List BlockedRange, (rs.map fun r => (r.indices.map f).sum).sum =
      ((rs.flatMap BlockedRange.indices).map f).sum := by
    intro rs
    induction rs with
    | nil => rfl
    | cons r rs ih => rw [List.map_cons, List.sum_cons, ih, List.flatMap_cons, List.map_append, List.sum_append]
  rw [hflat, (h.2.map f).sum_eq]

theorem Split.sum_length {n : ℕ} {rs : List BlockedRange} (h : Split n rs) :
    (rs.map fun r => r.indices.length).sum = n := by
  rw [← List.length_flatMap, h.2.length_eq, List.length_range]

/-- The tasks of a loop that works on the cell of its own index. -/
def sweepTasks (rs : List BlockedRange) : List Sweep.Task := rs.map fun r => ⟨r.indices, 0⟩

theorem Split.sweep_start {β : Type*} {stmts : List (ℕ → β → β)} {cells : ℕ → β} {n : ℕ} {rs : List BlockedRange}
    (h : Split n rs) : Sweep.Inv stmts n cells cells (sweepTasks rs) := by
  have hindices : (sweepTasks rs).flatMap Sweep.Task.indices = rs.flatMap BlockedRange.indices := List.flatMap_map ..
  refine Sweep.Inv.start ?_ (fun i => ?_) fun t ht => ?_
  · rw [hindices, h.2.nodup_iff]
    exact List.nodup_range
  · rw [← h.mem_iff, ← List.mem_flatMap, ← List.mem_flatMap, hindices]
  · obtain ⟨r, -, rfl⟩ := List.mem_map.mp ht
    rfl

/-- The split into one range, which every scheduler may choose. -/
theorem exists_split (n : ℕ) : ∃ rs, Split n rs := by
  rcases Nat.eq_zero_or_pos n with rfl | hn
  · exact ⟨[], by simp, by simp⟩
  · refine ⟨[⟨0, n⟩], by simpa using hn, ?_⟩
    simp [BlockedRange.indices, List.range_eq_range']

/-! ## `thread_buffer` -/

/-- `class thread_buffer`. -/
structure ThreadBuffer where
  buffer : ℕ → UInt32
  capacity : ℕ
  next : ℕ

namespace ThreadBuffer

/-- `init`: `mem` is what the allocated block holds. -/
def init (mem : ℕ → UInt32) (c : ℕ) : ThreadBuffer := ⟨mem, c, 0⟩

def clear (b : ThreadBuffer) : ThreadBuffer := { b with next := 0 }

/-- `buffer[next] = id; next++`. -/
def push (b : ThreadBuffer) (id : UInt32) : ThreadBuffer :=
  { b with buffer := Function.update b.buffer b.next id, next := b.next + 1 }

/-- `transfer`: the source and the destination after it. -/
def transfer (b dst : ThreadBuffer) : ThreadBuffer × ThreadBuffer :=
  if b.next = 0 then (b, dst)
  else ({ b with next := 0 },
    { dst with
      buffer := fun i => if dst.next ≤ i ∧ i < dst.next + b.next then b.buffer (i - dst.next) else dst.buffer i
      next := dst.next + b.next })

/-- The block has room for `n` ids from `next` on: one for a `push`, `next` of the source for a `transfer`. -/
def HasRoom (b : ThreadBuffer) (n : ℕ) : Prop := b.next + n ≤ b.capacity

/-- The ids below `next`. -/
def contents (b : ThreadBuffer) : List UInt32 := (List.range b.next).map b.buffer

@[simp] theorem contents_init (mem : ℕ → UInt32) (c : ℕ) : (init mem c).contents = [] := rfl

@[simp] theorem contents_clear (b : ThreadBuffer) : b.clear.contents = [] := rfl

theorem length_contents (b : ThreadBuffer) : b.contents.length = b.next := by simp [contents]

theorem contents_eq_nil_iff (b : ThreadBuffer) : b.contents = [] ↔ b.next = 0 := by
  rw [← List.length_eq_zero_iff, length_contents]

theorem contents_push (b : ThreadBuffer) (id : UInt32) : (b.push id).contents = b.contents ++ [id] := by
  simp only [contents, push, List.range_succ, List.map_append, List.map_cons, List.map_nil, Function.update_self]
  congr 1
  refine List.map_congr_left fun i hi => Function.update_of_ne ?_ _ _
  exact Nat.ne_of_lt (List.mem_range.mp hi)

theorem next_transfer_fst (b dst : ThreadBuffer) : (b.transfer dst).1.next = 0 := by
  unfold transfer
  split
  · assumption
  · rfl

theorem contents_transfer_snd (b dst : ThreadBuffer) : (b.transfer dst).2.contents = dst.contents ++ b.contents := by
  unfold transfer
  split
  · rename_i h
    rw [(contents_eq_nil_iff b).mpr h, List.append_nil]
  · simp only [contents, List.range_add, List.map_append, List.map_map]
    congr 1
    · refine List.map_congr_left fun i hi => if_neg ?_
      have := List.mem_range.mp hi
      omega
    · refine List.map_congr_left fun i hi => ?_
      have := List.mem_range.mp hi
      simp only [Function.comp_apply]
      rw [if_pos (by omega), Nat.add_sub_cancel_left]

end ThreadBuffer

end GraphBenchmark
