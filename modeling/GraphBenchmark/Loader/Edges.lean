import GraphBenchmark.Loader.Offsets
import GraphBenchmark.Foundations.Scatter

/-! # What `create_edges` leaves in the edge arrays

Each direction of the graph is a `Scatter`: the cursors hand out the ranks of the edges at a vertex, the
stores go to the slots of these ranks. `LaneInv` ties the arrays of one direction to it, and `LaneRule` carries
what holds of one direction through every interleaving of the loop bodies. -/
namespace GraphBenchmark
open Interleaving Words Scatter
set_option autoImplicit false

/-! ## One direction -/

/-- The number of edges whose end `key` is the vertex `v`. -/
def EdgeFile.degree (file : EdgeFile) (key : Edge → UInt32) (v : ℕ) : ℕ :=
  file.edges.countP fun e => (key e).toNat = v

/-- The other ends of the edges at `v`. -/
def EdgeFile.neighbours (file : EdgeFile) (key val : Edge → UInt32) (v : ℕ) : List UInt32 :=
  (file.edges.filter fun e => (key e).toNat = v).map val

/-- What the offsets of one direction have to satisfy for the cursors to work: they are the prefix sums
of the degrees, all keys are vertices, and no degree exceeds the range of a cursor. -/
structure LaneOk (file : EdgeFile) (n : ℕ) (key : Edge → UInt32) (offsets : ℕ → UInt64) : Prop where
  key_lt : ∀ e ∈ file.edges, (key e).toNat < n
  degree_le : ∀ v, file.degree key v ≤ 2 ^ 32
  offsets_eq : ∀ i ≤ n, offsets i = UInt64.ofNat (Slices.start (file.degree key) i)

/-- `LaneOk` without the bound on the degrees. -/
structure LanePrefix (file : EdgeFile) (n : ℕ) (key : Edge → UInt32) (offsets : ℕ → UInt64) : Prop where
  key_lt : ∀ e ∈ file.edges, (key e).toNat < n
  offsets_eq : ∀ i ≤ n, offsets i = UInt64.ofNat (Slices.start (file.degree key) i)

/-- The array `a` and the workers `ws` are at some point of the scatter of the edges by `key`. -/
def LaneInv (file : EdgeFile) (key val : Edge → UInt32) (a : EdgeArray) (ws : List (Drawer ℕ)) : Prop :=
  ∃ stored : Multiset (ℕ × ℕ),
    (a.stores : Multiset (ℕ × ℕ)) =
      stored.map (fun p => (p.1, slot (fun i => (key (file.edge i)).toNat) (file.degree key) p)) ∧
    Scatter.Inv (fun i => (key (file.edge i)).toNat) (fun i => val (file.edge i)) (file.degree key)
      (Multiset.range file.nbEdges) a.edges stored ws ∧
    ∀ v, a.cursors v = UInt32.ofNat (rank (fun i => (key (file.edge i)).toNat) (held ws + stored) v)

section Lane
variable {file : EdgeFile} {n : ℕ} {key val : Edge → UInt32} {offsets : ℕ → UInt64} {a : EdgeArray}
  {pre post ws : List (Drawer ℕ)} {i : ℕ} {rest : List ℕ} {o : UInt32}

theorem EdgeFile.countP_range_degree (file : EdgeFile) (key : Edge → UInt32) (v : ℕ) :
    (Multiset.range file.nbEdges).countP (fun i => (key (file.edge i)).toNat = v) = file.degree key v :=
  (file.countP_edges fun e => (key e).toNat = v).symm

theorem LanePrefix.start_eq (h : LanePrefix file n key offsets) :
    Slices.start (file.degree key) n = file.nbEdges :=
  start_countP_key file.edges (fun e => (key e).toNat) n h.key_lt

theorem LanePrefix.start_lt (h : LanePrefix file n key offsets) {v : ℕ} (hv : v ≤ n) :
    Slices.start (file.degree key) v < 2 ^ 64 :=
  ((Slices.start_mono _ hv).trans_eq h.start_eq).trans_lt file.nbEdges_lt

theorem LanePrefix.toNat_offsets (h : LanePrefix file n key offsets) {v : ℕ} (hv : v ≤ n) :
    (offsets v).toNat = Slices.start (file.degree key) v := by
  rw [h.offsets_eq v hv, toNat_ofNat64 (h.start_lt hv)]

theorem LaneOk.toPrefix (h : LaneOk file n key offsets) : LanePrefix file n key offsets := ⟨h.key_lt, h.offsets_eq⟩

theorem LaneOk.start_eq (h : LaneOk file n key offsets) : Slices.start (file.degree key) n = file.nbEdges :=
  h.toPrefix.start_eq

theorem LaneOk.start_lt (h : LaneOk file n key offsets) {v : ℕ} (hv : v ≤ n) :
    Slices.start (file.degree key) v < 2 ^ 64 := h.toPrefix.start_lt hv

theorem LaneOk.toNat_offsets (h : LaneOk file n key offsets) {v : ℕ} (hv : v ≤ n) :
    (offsets v).toNat = Slices.start (file.degree key) v := h.toPrefix.toNat_offsets hv

theorem LaneInv.start (hcur : ∀ v, a.cursors v = 0) (hstores : a.stores = []) (hheld : ∀ w ∈ ws, w.held = none)
    (htodo : todo ws = Multiset.range file.nbEdges) : LaneInv file key val a ws := by
  refine ⟨0, by rw [hstores]; rfl, Scatter.Inv.start hheld htodo, fun v => ?_⟩
  rw [hcur, held_eq_zero hheld]
  rfl

theorem EdgeArray.fetchAdd_cursors {u v k : ℕ} (h : a.cursors v = UInt32.ofNat k) :
    (a.fetchAdd u).2.cursors v = UInt32.ofNat (k + if u = v then 1 else 0) := by
  show Function.update a.cursors u (a.cursors u + 1) v = _
  by_cases huv : u = v
  · rw [if_pos huv, huv, Function.update_self, h, UInt32.ofNat_add]
    rfl
  · rw [if_neg huv, Function.update_of_ne (Ne.symm huv), h, Nat.add_zero]

theorem LaneInv.fetchAdd (hok : LaneOk file n key offsets) (h : LaneInv file key val a (pre ++ ⟨i :: rest, none⟩ :: post)) :
    LaneInv file key val (a.fetchAdd (key (file.edge i)).toNat).2
      (pre ++ ⟨rest, some (i, (a.fetchAdd (key (file.edge i)).toNat).1.toNat)⟩ :: post) := by
  obtain ⟨stored, hstores, hinv, hcur⟩ := h
  have hrank := hinv.rank_lt (file.countP_range_degree key) (i := i) (by rw [todo_split]; simp)
  have ho : (a.cursors (key (file.edge i)).toNat).toNat =
      rank (fun i => (key (file.edge i)).toNat) (held (pre ++ (⟨i :: rest, none⟩ : Drawer ℕ) :: post) + stored)
        (key (file.edge i)).toNat := by
    rw [hcur, toNat_ofNat32 (hrank.trans_le (hok.degree_le _))]
  refine ⟨stored, hstores, ?_, fun v => ?_⟩
  · have hm := hinv.move (file.countP_range_degree key) Move.draw
    rwa [← ho] at hm
  · rw [held_none] at hcur
    rw [held_some, Multiset.cons_add, rank_cons]
    exact EdgeArray.fetchAdd_cursors (hcur v)

theorem LaneInv.store (hok : LaneOk file n key offsets)
    (h : LaneInv file key val a (pre ++ ⟨rest, some (i, o.toNat)⟩ :: post)) :
    LaneInv file key val
      (a.store i (offsets (key (file.edge i)).toNat + o.toUInt64).toNat (val (file.edge i)))
      (pre ++ ⟨rest, none⟩ :: post) := by
  obtain ⟨stored, hstores, hinv, hcur⟩ := h
  have hslot : (offsets (key (file.edge i)).toNat + o.toUInt64).toNat =
      slot (fun i => (key (file.edge i)).toNat) (file.degree key) (i, o.toNat) := by
    obtain ⟨hi, hlt⟩ := hinv.drawn_lt (file.countP_range_degree key) (p := (i, o.toNat)) (by rw [held_split]; simp)
    have hkey := hok.key_lt _ (file.edge_mem (Multiset.mem_range.mp hi))
    have hend := hok.start_lt (Nat.succ_le_of_lt hkey)
    have hslot_lt := Slices.start_add_lt (Nat.lt_succ_self (key (file.edge i)).toNat) hlt
    rw [UInt64.toNat_add, hok.toNat_offsets hkey.le, UInt32.toNat_toUInt64, Nat.mod_eq_of_lt (hslot_lt.trans hend)]
    rfl
  refine ⟨(i, o.toNat) ::ₘ stored, ?_, ?_, fun v => ?_⟩
  · rw [EdgeArray.store, ← Multiset.cons_coe, hstores, Multiset.map_cons, hslot]
  · rw [hslot]
    exact hinv.move (file.countP_range_degree key) Move.store
  · rw [EdgeArray.store, hcur, held_some, held_none, Multiset.cons_add, Multiset.add_cons]

/-- The stores go to different slots, each in the slice of its edge's key. -/
structure EdgeArray.InSlices (file : EdgeFile) (key : Edge → UInt32) (offsets : ℕ → UInt64) (a : EdgeArray) : Prop where
  nodup : (a.stores.map Prod.snd).Nodup
  mem : ∀ p ∈ a.stores, p.1 < file.nbEdges ∧ (offsets (key (file.edge p.1)).toNat).toNat ≤ p.2 ∧
    p.2 < (offsets ((key (file.edge p.1)).toNat + 1)).toNat

theorem LaneInv.inSlices (hok : LaneOk file n key offsets) (h : LaneInv file key val a ws) :
    a.InSlices file key offsets := by
  obtain ⟨stored, hstores, hinv, -⟩ := h
  constructor
  · rw [← Multiset.coe_nodup, ← Multiset.map_coe, hstores, Multiset.map_map]
    exact hinv.stored_nodup (file.countP_range_degree key)
  · intro p hp
    rw [← Multiset.mem_coe, hstores] at hp
    obtain ⟨q, hq, rfl⟩ := Multiset.mem_map.mp hp
    obtain ⟨hi, hlt⟩ := hinv.drawn_lt (file.countP_range_degree key) (Multiset.mem_add.mpr (Or.inr hq))
    have hi' := Multiset.mem_range.mp hi
    have hkey := hok.key_lt _ (file.edge_mem hi')
    rw [hok.toNat_offsets hkey.le, hok.toNat_offsets (Nat.succ_le_of_lt hkey)]
    exact ⟨hi', Nat.le_add_right _ _, Slices.start_add_lt (Nat.lt_succ_self _) hlt⟩

theorem LaneInv.join (h : LaneInv file key val a ws) (hdone : ∀ w ∈ ws, w.todo = [] ∧ w.held = none) :
    LaneInv file key val a [] := by
  obtain ⟨stored, hstores, hinv, hcur⟩ := h
  have hheld : held ws = held ([] : List (Drawer ℕ)) := held_eq_zero fun w hw => (hdone w hw).2
  have htodo : todo ws = todo ([] : List (Drawer ℕ)) := todo_eq_zero fun w hw => (hdone w hw).1
  refine ⟨stored, hstores, ⟨?_, ?_, hinv.cell⟩, ?_⟩
  · rw [← hheld, ← htodo]
    exact hinv.items
  · rw [← hheld]
    exact hinv.ranked
  · rwa [← hheld]

theorem coe_slots (edges : ℕ → UInt32) {beg fin : UInt64} {b len : ℕ} (hb : beg.toNat = b) (hf : fin.toNat = b + len) :
    (slots edges beg fin : Multiset UInt32) = (Multiset.range len).map fun r => edges (b + r) := by
  rw [slots, hb, hf, Nat.add_sub_cancel_left, List.range'_eq_map_range, List.map_map]
  rfl

theorem EdgeFile.coe_neighbours (file : EdgeFile) (key val : Edge → UInt32) (v : ℕ) :
    (file.neighbours key val v : Multiset UInt32) =
      ((Multiset.range file.nbEdges).filter fun i => (key (file.edge i)).toNat = v).map fun i => val (file.edge i) := by
  rw [neighbours]
  conv_lhs => rw [file.edges_eq_map, List.filter_map, List.map_map]
  rfl

/-- One finished direction: every slot stored once, the rows well formed, and the row of each vertex the
other ends of its edges. -/
structure EdgeArray.Exact (file : EdgeFile) (n : ℕ) (key val : Edge → UInt32) (offsets : ℕ → UInt64)
    (a : EdgeArray) : Prop where
  stores : (a.stores.map Prod.snd).Perm (List.range file.nbEdges)
  csr : IsCsr n file.nbEdges offsets a.edges
  row : ∀ v < n, (slots a.edges (offsets v) (offsets (v + 1))).Perm (file.neighbours key val v)

theorem LaneOk.toNat_offsets_succ (hok : LaneOk file n key offsets) {v : ℕ} (hv : v < n) :
    (offsets (v + 1)).toNat = Slices.start (file.degree key) v + file.degree key v := by
  rw [hok.toNat_offsets hv, Slices.start_succ]

/-- The row of a vertex holds the other ends of its edges, whether these are vertices or not. -/
theorem LaneInv.row (hok : LaneOk file n key offsets) (h : LaneInv file key val a []) :
    ∀ v < n, (slots a.edges (offsets v) (offsets (v + 1))).Perm (file.neighbours key val v) := by
  obtain ⟨stored, -, hinv, -⟩ := h
  obtain ⟨-, hrows⟩ := hinv.finish (file.countP_range_degree key) (n := n)
    (fun i hi => hok.key_lt _ (file.edge_mem (Multiset.mem_range.mp hi))) (by simp)
  intro v hv
  rw [← Multiset.coe_eq_coe, coe_slots a.edges (hok.toNat_offsets hv.le) (hok.toNat_offsets_succ hv), hrows,
    file.coe_neighbours]

theorem LaneInv.exact (hok : LaneOk file n key offsets) (hval : ∀ e ∈ file.edges, (val e).toNat < n)
    (h : LaneInv file key val a []) : a.Exact file n key val offsets := by
  have hrow := h.row hok
  obtain ⟨stored, hstores, hinv, -⟩ := h
  obtain ⟨hslots, hrows⟩ := hinv.finish (file.countP_range_degree key) (n := n)
    (fun i hi => hok.key_lt _ (file.edge_mem (Multiset.mem_range.mp hi))) (by simp)
  refine ⟨?_, ⟨?_, fun v hv => ?_, ?_, fun x hx => ?_⟩, hrow⟩
  · rw [← Multiset.coe_eq_coe, ← Multiset.map_coe, hstores, Multiset.map_map, ← hok.start_eq]
    exact hslots
  · rw [hok.offsets_eq 0 (Nat.zero_le n)]
    rfl
  · rw [UInt64.le_iff_toNat_le, hok.toNat_offsets hv.le, hok.toNat_offsets_succ hv]
    exact Nat.le_add_right _ _
  · rw [hok.toNat_offsets le_rfl, hok.start_eq]
  · -- a slot lies in some row, and a row holds ends of edges
    obtain ⟨v, hv, r, hr, rfl⟩ := Slices.exists_slot (hok.start_eq.symm ▸ hx : x < Slices.start (file.degree key) n)
    have hmem : a.edges (Slices.start (file.degree key) v + r) ∈ file.neighbours key val v := by
      rw [← Multiset.mem_coe, file.coe_neighbours, ← hrows]
      exact Multiset.mem_map.mpr ⟨r, Multiset.mem_range.mpr hr, rfl⟩
    obtain ⟨e, he, heq⟩ := List.mem_map.mp hmem
    rw [← heq]
    exact hval e (List.mem_filter.mp he).1

/-- What a step of a loop body is for one direction. -/
inductive LaneStep (file : EdgeFile) (key val : Edge → UInt32) (offsets : ℕ → UInt64) (a : EdgeArray) :
    Drawer ℕ → EdgeArray → Drawer ℕ → Prop
  | stay (w : Drawer ℕ) : LaneStep file key val offsets a w a w
  | fetchAdd {i : ℕ} {rest : List ℕ} :
      LaneStep file key val offsets a ⟨i :: rest, none⟩ (a.fetchAdd (key (file.edge i)).toNat).2
        ⟨rest, some (i, (a.fetchAdd (key (file.edge i)).toNat).1.toNat)⟩
  | store {i : ℕ} {rest : List ℕ} {o : UInt32} :
      LaneStep file key val offsets a ⟨rest, some (i, o.toNat)⟩
        (a.store i (offsets (key (file.edge i)).toNat + o.toUInt64).toNat (val (file.edge i))) ⟨rest, none⟩

theorem LaneInv.step {a' : EdgeArray} {w w' : Drawer ℕ} (hok : LaneOk file n key offsets)
    (h : LaneInv file key val a (pre ++ w :: post)) (hs : LaneStep file key val offsets a w a' w') :
    LaneInv file key val a' (pre ++ w' :: post) := by
  cases hs with
  | stay => exact h
  | fetchAdd => exact h.fetchAdd hok
  | store => exact h.store hok

/-- How a property of one direction is proved of every run: it holds when the tasks begin, with cleared cursors
over an array that holds `mem`, and every step of a loop body and the join keep it. -/
structure LaneRule (file : EdgeFile) (key val : Edge → UInt32) (offsets : ℕ → UInt64) (mem : ℕ → UInt32)
    (P : EdgeArray → List (Drawer ℕ) → Prop) : Prop where
  start : ∀ ws, (∀ w ∈ ws, w.held = none) → todo ws = Multiset.range file.nbEdges → P ⟨fun _ => 0, mem, []⟩ ws
  step : ∀ a a' w w' pre post, P a (pre ++ w :: post) → LaneStep file key val offsets a w a' w' →
    P a' (pre ++ w' :: post)
  join : ∀ a ws, P a ws → (∀ w ∈ ws, w.todo = [] ∧ w.held = none) → P a []

theorem LaneInv.rule (hok : LaneOk file n key offsets) (val : Edge → UInt32) (mem : ℕ → UInt32) :
    LaneRule file key val offsets mem (LaneInv file key val) :=
  ⟨fun _ => LaneInv.start (fun _ => rfl) rfl, fun _ _ _ _ _ _ h => h.step hok, fun _ _ h => h.join⟩

end Lane

/-! ## Both directions -/

namespace CreateTask

def outDrawer (t : CreateTask) : Drawer ℕ :=
  match t.todo, t.stage with
  | [], _ => ⟨[], none⟩
  | i :: rest, .fetchOut => ⟨i :: rest, none⟩
  | i :: rest, .storeOut o => ⟨rest, some (i, o.toNat)⟩
  | _ :: rest, .fetchIn => ⟨rest, none⟩
  | _ :: rest, .storeIn _ => ⟨rest, none⟩

def inDrawer (t : CreateTask) : Drawer ℕ :=
  match t.todo, t.stage with
  | i :: rest, .storeIn o => ⟨rest, some (i, o.toNat)⟩
  | todo, _ => ⟨todo, none⟩

def weight (t : CreateTask) : ℕ :=
  4 * t.todo.length - match t.stage with
    | .fetchOut => 0
    | .storeOut _ => 1
    | .fetchIn => 2
    | .storeIn _ => 3

theorem outDrawer_fetchOut (todo : List ℕ) : (⟨todo, .fetchOut⟩ : CreateTask).outDrawer = ⟨todo, none⟩ := by
  cases todo <;> rfl

theorem inDrawer_fetchOut (todo : List ℕ) : (⟨todo, .fetchOut⟩ : CreateTask).inDrawer = ⟨todo, none⟩ := by
  cases todo <;> rfl

theorem outDrawer_nil {t : CreateTask} (h : t.todo = []) : t.outDrawer = ⟨[], none⟩ := by
  obtain ⟨todo, stage⟩ := t
  obtain rfl : todo = [] := h
  rfl

theorem inDrawer_nil {t : CreateTask} (h : t.todo = []) : t.inDrawer = ⟨[], none⟩ := by
  obtain ⟨todo, stage⟩ := t
  obtain rfl : todo = [] := h
  cases stage <;> rfl

end CreateTask

section Body
variable {file : EdgeFile} {symmetric : Bool} {offsets : Offsets} {s s' : EdgeArrays} {t t' : CreateTask}

theorem createEdgesBody_cases (h : createEdgesBody file symmetric offsets s t = some (s', t')) : ∃ i rest,
    (t = ⟨i :: rest, .fetchOut⟩ ∧ s' = { s with outArray := (s.outArray.fetchAdd (file.edge i).src.toNat).2 } ∧
      t' = ⟨i :: rest, .storeOut (s.outArray.fetchAdd (file.edge i).src.toNat).1⟩) ∨
    (∃ o, t = ⟨i :: rest, .storeOut o⟩ ∧
      s' = ⟨s.outArray.store i (offsets.outEdgeOffsets (file.edge i).src.toNat + o.toUInt64).toNat (file.edge i).dst,
        s.inArray⟩ ∧
      t' = if symmetric then ⟨i :: rest, .fetchIn⟩ else ⟨rest, .fetchOut⟩) ∨
    (t = ⟨i :: rest, .fetchIn⟩ ∧ s' = { s with inArray := (s.inArray.fetchAdd (file.edge i).dst.toNat).2 } ∧
      t' = ⟨i :: rest, .storeIn (s.inArray.fetchAdd (file.edge i).dst.toNat).1⟩) ∨
    (∃ o, t = ⟨i :: rest, .storeIn o⟩ ∧
      s' = ⟨s.outArray,
        s.inArray.store i (offsets.inEdgeOffsets (file.edge i).dst.toNat + o.toUInt64).toNat (file.edge i).src⟩ ∧
      t' = ⟨rest, .fetchOut⟩) := by
  obtain ⟨todo, stage⟩ := t
  cases todo with
  | nil => cases h
  | cons i rest =>
    refine ⟨i, rest, ?_⟩
    cases stage with
    | fetchOut =>
      obtain ⟨rfl, rfl⟩ := Prod.mk.inj (Option.some.inj h)
      exact Or.inl ⟨rfl, rfl, rfl⟩
    | storeOut o =>
      obtain ⟨rfl, rfl⟩ := Prod.mk.inj (Option.some.inj h)
      exact Or.inr (Or.inl ⟨o, rfl, rfl, rfl⟩)
    | fetchIn =>
      obtain ⟨rfl, rfl⟩ := Prod.mk.inj (Option.some.inj h)
      exact Or.inr (Or.inr (Or.inl ⟨rfl, rfl, rfl⟩))
    | storeIn o =>
      obtain ⟨rfl, rfl⟩ := Prod.mk.inj (Option.some.inj h)
      exact Or.inr (Or.inr (Or.inr ⟨o, rfl, rfl, rfl⟩))

theorem createEdgesBody_isSome (ht : t.todo ≠ []) : createEdgesBody file symmetric offsets s t ≠ none := by
  obtain ⟨todo, stage⟩ := t
  cases todo with
  | nil => exact absurd rfl ht
  | cons i rest => cases stage <;> exact Option.some_ne_none _

theorem createEdgesBody_weight (h : createEdgesBody file symmetric offsets s t = some (s', t')) :
    t'.weight < t.weight := by
  obtain ⟨i, rest, ⟨rfl, -, rfl⟩ | ⟨o, rfl, -, rfl⟩ | ⟨rfl, -, rfl⟩ | ⟨o, rfl, -, rfl⟩⟩ := createEdgesBody_cases h
  case inr.inl => cases symmetric <;> simp [CreateTask.weight] <;> omega
  all_goals simp only [CreateTask.weight, List.length_cons]; omega

theorem createEdgesBody_out (h : createEdgesBody file symmetric offsets s t = some (s', t')) :
    LaneStep file Edge.src Edge.dst offsets.outEdgeOffsets s.outArray t.outDrawer s'.outArray t'.outDrawer := by
  obtain ⟨i, rest, ⟨rfl, rfl, rfl⟩ | ⟨o, rfl, rfl, rfl⟩ | ⟨rfl, rfl, rfl⟩ | ⟨o, rfl, rfl, rfl⟩⟩ :=
    createEdgesBody_cases h
  · exact .fetchAdd
  · have hdrawer : (if symmetric = true then (⟨i :: rest, .fetchIn⟩ : CreateTask) else ⟨rest, .fetchOut⟩).outDrawer =
        ⟨rest, none⟩ := by
      cases symmetric
      · exact CreateTask.outDrawer_fetchOut rest
      · rfl
    rw [hdrawer]
    exact .store
  · exact .stay _
  · rw [CreateTask.outDrawer_fetchOut]
    exact .stay _

theorem createEdgesBody_in (h : createEdgesBody file true offsets s t = some (s', t')) :
    LaneStep file Edge.dst Edge.src offsets.inEdgeOffsets s.inArray t.inDrawer s'.inArray t'.inDrawer := by
  obtain ⟨i, rest, ⟨rfl, rfl, rfl⟩ | ⟨o, rfl, rfl, rfl⟩ | ⟨rfl, rfl, rfl⟩ | ⟨o, rfl, rfl, rfl⟩⟩ :=
    createEdgesBody_cases h
  · exact .stay _
  · exact .stay _
  · exact .fetchAdd
  · rw [CreateTask.inDrawer_fetchOut]
    exact .store

end Body

/-! ## Runs of `create_edges` -/

inductive CreateStep (file : EdgeFile) (symmetric : Bool) (offsets : Offsets) (s : CreateState) : CreateState → Prop
  | launch {rs : List BlockedRange} (hp : s.pc = .start) (hrs : Split file.nbEdges rs) :
      CreateStep file symmetric offsets s { s with tasks := rs.map fun r => ⟨r.indices, .fetchOut⟩, pc := .building }
  | work {i : ℕ} {arrays : EdgeArrays} {ts : List CreateTask} (hp : s.pc = .building)
      (hw : work (createEdgesBody file symmetric offsets) s.arrays s.tasks i = some (arrays, ts)) :
      CreateStep file symmetric offsets s { s with arrays, tasks := ts }
  | join (hp : s.pc = .building) (hdone : ∀ t ∈ s.tasks, t.todo = []) :
      CreateStep file symmetric offsets s { s with tasks := [], pc := .done }

theorem createEdges_step {file : EdgeFile} {symmetric : Bool} {offsets : Offsets} {s s' : CreateState} {a : CreateAct}
    (h : createEdges file symmetric offsets s a = some s') : CreateStep file symmetric offsets s s' := by
  cases a with
  | launch rs =>
    simp only [createEdges] at h
    split at h
    · rename_i hc
      cases h
      exact .launch hc.1 hc.2
    · cases h
  | work i =>
    simp only [createEdges] at h
    split at h
    · rename_i hp
      obtain ⟨⟨arrays, ts⟩, hw, rfl⟩ := Option.map_eq_some_iff.mp h
      exact .work hp hw
    · cases h
  | join =>
    simp only [createEdges] at h
    split at h
    · rename_i hc
      cases h
      exact .join hc.1 hc.2
    · cases h

/-- What holds at each point of `create_edges`. -/
structure CreateInv (file : EdgeFile) (symmetric : Bool) (s : CreateState) : Prop where
  start : s.pc = .start → (∀ v, s.arrays.outArray.cursors v = 0 ∧ s.arrays.inArray.cursors v = 0) ∧
    s.arrays.outArray.stores = [] ∧ s.arrays.inArray.stores = []
  out : s.pc ≠ .start → LaneInv file Edge.src Edge.dst s.arrays.outArray (s.tasks.map CreateTask.outDrawer)
  inn : s.pc ≠ .start → symmetric = true →
    LaneInv file Edge.dst Edge.src s.arrays.inArray (s.tasks.map CreateTask.inDrawer)
  done : s.pc = .done → s.tasks = []

/-- The offsets `create_edges` may rely on. -/
structure OffsetsOk (file : EdgeFile) (symmetric : Bool) (n : ℕ) (offsets : Offsets) : Prop where
  out : LaneOk file n Edge.src offsets.outEdgeOffsets
  inn : symmetric = true → LaneOk file n Edge.dst offsets.inEdgeOffsets

variable {file : EdgeFile} {symmetric : Bool} {n : ℕ} {offsets : Offsets} {s s' : CreateState}
  {outMem inMem : ℕ → UInt32}

theorem createEdges_start (h : Reach (createEdges file symmetric offsets) (CreateState.init outMem inMem) s)
    (hp : s.pc = .start) : s = CreateState.init outMem inMem := by
  refine h.invariant (P := fun s => s.pc = .start → s = CreateState.init outMem inMem) (fun _ => rfl)
    (fun u a v _ ha hp' => ?_) hp
  cases createEdges_step ha with
  | launch hp hrs => cases hp'
  | work hp hw => exact absurd (hp'.symm.trans hp) nofun
  | join hp hdone => cases hp'

/-- What the tasks begin with, what a step of one of them keeps and what the join keeps holds in every run once the
tasks have begun, with any record of the steps. -/
theorem createEdges_rule {β : Type*} {obs : CreateState → CreateAct → List β}
    {P : EdgeArrays → List CreateTask → List β → Prop}
    (hlaunch : ∀ rs, Split file.nbEdges rs → P (CreateState.init outMem inMem).arrays
      (rs.map fun r => ⟨r.indices, .fetchOut⟩) (obs (CreateState.init outMem inMem) (.launch rs)))
    (hwork : ∀ u i pre t post arrays t' log, u.pc = .building → u.tasks[i]? = some t → u.tasks = pre ++ t :: post →
      createEdgesBody file symmetric offsets u.arrays t = some (arrays, t') → P u.arrays (pre ++ t :: post) log →
      P arrays (pre ++ t' :: post) (log ++ obs u (.work i)))
    (hjoin : ∀ u log, (∀ t ∈ u.tasks, t.todo = []) → P u.arrays u.tasks log → P u.arrays [] (log ++ obs u .join))
    {p : CreateState × List β}
    (h : Reach (logged obs (createEdges file symmetric offsets)) (CreateState.init outMem inMem, []) p) :
    (p.1.pc = .start → p = (CreateState.init outMem inMem, [])) ∧ (p.1.pc ≠ .start → P p.1.arrays p.1.tasks p.2) := by
  refine h.invariant (P := fun p => (p.1.pc = .start → p = (CreateState.init outMem inMem, [])) ∧
    (p.1.pc ≠ .start → P p.1.arrays p.1.tasks p.2)) ⟨fun _ => rfl, fun hp => absurd rfl hp⟩ fun u a v ⟨hinit, hrun⟩ ha => ?_
  obtain ⟨hstep, hlog⟩ := logged_eq_some.mp ha
  cases a with
  | launch rs =>
    simp only [createEdges] at hstep
    split at hstep
    · rename_i hc
      obtain rfl := hinit hc.1
      rw [hlog, ← Option.some.inj hstep]
      exact ⟨nofun, fun _ => hlaunch rs hc.2⟩
    · cases hstep
  | work i =>
    simp only [createEdges] at hstep
    split at hstep
    · rename_i hp
      obtain ⟨⟨arrays, ts⟩, hw, heq⟩ := Option.map_eq_some_iff.mp hstep
      obtain ⟨pre, t, post, t', hget, hts, hbody, rfl⟩ := work_eq_some_at hw
      have hP := hrun (hp.trans_ne nofun)
      rw [hts] at hP
      rw [hlog, ← heq]
      exact ⟨fun hstart => absurd (hp.symm.trans hstart) nofun,
        fun _ => hwork u.1 i pre t post arrays t' u.2 hp hget hts hbody hP⟩
    · cases hstep
  | join =>
    simp only [createEdges] at hstep
    split at hstep
    · rename_i hc
      rw [hlog, ← Option.some.inj hstep]
      exact ⟨nofun, fun _ => hjoin u.1 u.2 hc.2 (hrun (hc.1.trans_ne nofun))⟩
    · cases hstep

theorem launch_drawers {rs : List BlockedRange} (hrs : Split file.nbEdges rs) {drawer : CreateTask → Drawer ℕ}
    (hfetch : ∀ todo, drawer ⟨todo, .fetchOut⟩ = ⟨todo, none⟩) :
    (∀ w ∈ (rs.map fun r => (⟨r.indices, .fetchOut⟩ : CreateTask)).map drawer, w.held = none) ∧
      todo ((rs.map fun r => (⟨r.indices, .fetchOut⟩ : CreateTask)).map drawer) = Multiset.range file.nbEdges := by
  rw [List.map_map]
  constructor
  · intro w hw
    obtain ⟨r, -, rfl⟩ := List.mem_map.mp hw
    rw [Function.comp_apply, hfetch]
  · rw [← hrs.sum_indices, todo, List.map_map]
    simp only [Function.comp_def, hfetch]

theorem join_drawers {ts : List CreateTask} (hthrough : ∀ t ∈ ts, t.todo = []) {drawer : CreateTask → Drawer ℕ}
    (hnil : ∀ t : CreateTask, t.todo = [] → drawer t = ⟨[], none⟩) :
    ∀ w ∈ ts.map drawer, w.todo = [] ∧ w.held = none := by
  intro w hw
  obtain ⟨t, ht, rfl⟩ := List.mem_map.mp hw
  rw [hnil t (hthrough t ht)]
  exact ⟨rfl, rfl⟩

/-- A rule for one direction holds of it in every run. `arr` and `drawer` pick the direction out of the state. -/
theorem LaneRule.of_reach {P : EdgeArray → List (Drawer ℕ) → Prop} {key val : Edge → UInt32} {laneOffsets : ℕ → UInt64}
    {mem : ℕ → UInt32} (hrule : LaneRule file key val laneOffsets mem P) (arr : EdgeArrays → EdgeArray)
    (drawer : CreateTask → Drawer ℕ) (hinit : arr (CreateState.init outMem inMem).arrays = ⟨fun _ => 0, mem, []⟩)
    (hfetch : ∀ todo, drawer ⟨todo, .fetchOut⟩ = ⟨todo, none⟩)
    (hnil : ∀ t : CreateTask, t.todo = [] → drawer t = ⟨[], none⟩)
    (hbody : ∀ s t s' t', createEdgesBody file symmetric offsets s t = some (s', t') →
      LaneStep file key val laneOffsets (arr s) (drawer t) (arr s') (drawer t'))
    (h : Reach (createEdges file symmetric offsets) (CreateState.init outMem inMem) s) (hs : s.pc ≠ .start) :
    P (arr s.arrays) (s.tasks.map drawer) := by
  obtain ⟨log, hlog⟩ := h.logged (fun _ _ => ([] : List Unit)) []
  refine (createEdges_rule (P := fun arrays ts _ => P (arr arrays) (ts.map drawer)) ?_ ?_ ?_ hlog).2 hs
  · intro rs hrs
    obtain ⟨hheld, htodo⟩ := launch_drawers hrs hfetch
    rw [hinit]
    exact hrule.start _ hheld htodo
  · intro u i pre t post arrays t' log _ _ _ hstep hP
    rw [List.map_append, List.map_cons] at hP ⊢
    exact hrule.step _ _ _ _ _ _ hP (hbody _ _ _ _ hstep)
  · exact fun u log hthrough hP => hrule.join _ _ hP (join_drawers hthrough hnil)

theorem LaneRule.out {P : EdgeArray → List (Drawer ℕ) → Prop}
    (hrule : LaneRule file Edge.src Edge.dst offsets.outEdgeOffsets outMem P)
    (h : Reach (createEdges file symmetric offsets) (CreateState.init outMem inMem) s) (hs : s.pc ≠ .start) :
    P s.arrays.outArray (s.tasks.map CreateTask.outDrawer) :=
  hrule.of_reach EdgeArrays.outArray CreateTask.outDrawer rfl CreateTask.outDrawer_fetchOut
    (fun _ => CreateTask.outDrawer_nil) (fun _ _ _ _ => createEdgesBody_out) h hs

theorem LaneRule.inn {P : EdgeArray → List (Drawer ℕ) → Prop}
    (hrule : LaneRule file Edge.dst Edge.src offsets.inEdgeOffsets inMem P)
    (h : Reach (createEdges file true offsets) (CreateState.init outMem inMem) s) (hs : s.pc ≠ .start) :
    P s.arrays.inArray (s.tasks.map CreateTask.inDrawer) :=
  hrule.of_reach EdgeArrays.inArray CreateTask.inDrawer rfl CreateTask.inDrawer_fetchOut
    (fun _ => CreateTask.inDrawer_nil) (fun _ _ _ _ => createEdgesBody_in) h hs

theorem createEdges_tasks (h : Reach (createEdges file symmetric offsets) (CreateState.init outMem inMem) s)
    (hp : s.pc = .done) : s.tasks = [] := by
  refine h.invariant (P := fun s => s.pc = .done → s.tasks = []) nofun (fun u a v _ ha hp' => ?_) hp
  cases createEdges_step ha with
  | launch hp hrs => cases hp'
  | work hp hw => exact absurd (hp'.symm.trans hp) nofun
  | join hp hdone => rfl

theorem createInv_of_reach (hok : OffsetsOk file symmetric n offsets)
    (h : Reach (createEdges file symmetric offsets) (CreateState.init outMem inMem) s) :
    CreateInv file symmetric s := by
  refine ⟨fun hp => ?_, (LaneInv.rule hok.out Edge.dst outMem).out h, fun hne hsym => ?_, createEdges_tasks h⟩
  · rw [createEdges_start h hp]
    exact ⟨fun _ => ⟨rfl, rfl⟩, rfl, rfl⟩
  · subst hsym
    exact (LaneInv.rule (hok.inn rfl) Edge.src inMem).inn h hne

def CreateState.measure (file : EdgeFile) (s : CreateState) : ℕ :=
  match s.pc with
  | .start => 4 * file.nbEdges + 2
  | .building => (s.tasks.map CreateTask.weight).sum + 1
  | .done => 0

theorem createEdges_measure {a : CreateAct} (ha : createEdges file symmetric offsets s a = some s') :
    s'.measure file < s.measure file := by
  cases createEdges_step ha with
  | @launch rs hp hrs =>
    have hsum : ((rs.map fun r => (⟨r.indices, .fetchOut⟩ : CreateTask)).map CreateTask.weight).sum =
        4 * file.nbEdges := by
      rw [List.map_map, ← hrs.sum_length, ← List.sum_map_mul_left]
      rfl
    simp only [CreateState.measure, hp, hsum]
    omega
  | work hp hw =>
    simp only [CreateState.measure, hp]
    exact Nat.add_lt_add_right (work_weight_lt hw fun t t' ht => createEdgesBody_weight ht) 1
  | join hp hdone =>
    simp only [CreateState.measure, hp]
    omega

theorem createEdges_stuck (h : ∀ a, createEdges file symmetric offsets s a = none) : s.pc = .done := by
  cases hpc : s.pc with
  | start =>
    obtain ⟨rs, hrs⟩ := exists_split file.nbEdges
    have := h (.launch rs)
    simp only [createEdges] at this
    rw [if_pos ⟨hpc, hrs⟩] at this
    cases this
  | building =>
    have hwork := fun i => h (.work i)
    simp only [createEdges, hpc, if_true] at hwork
    have hall := through_of_stuck (P := fun t => t.todo = []) (fun _ htodo => createEdgesBody_isSome htodo) hwork
    have := h .join
    simp only [createEdges] at this
    rw [if_pos ⟨hpc, hall⟩] at this
    cases this
  | done => rfl

/-- Every schedule of `create_edges` is finite and completes, whatever the offsets. -/
theorem createEdges_completes (file : EdgeFile) (symmetric : Bool) (offsets : Offsets) (outMem inMem : ℕ → UInt32) :
    Ends (createEdges file symmetric offsets) (CreateState.init outMem inMem) fun s => s.pc = .done :=
  ends_of_invariant (P := fun _ => True) Nat.lt_wfRel.wf (CreateState.measure file) (fun _ _ _ _ _ => trivial)
    (fun _ _ _ _ ha => createEdges_measure ha) (fun _ _ hn => createEdges_stuck hn) trivial

/-- Every schedule of `create_edges` is finite and leaves both directions exact. -/
theorem createEdges_ends (hfile : file.EndpointsBelow n) (hok : OffsetsOk file symmetric n offsets) :
    Ends (createEdges file symmetric offsets) (CreateState.init outMem inMem) fun s => s.pc = .done ∧
      s.arrays.outArray.Exact file n Edge.src Edge.dst offsets.outEdgeOffsets ∧
      (symmetric = true → s.arrays.inArray.Exact file n Edge.dst Edge.src offsets.inEdgeOffsets) := by
  refine (createEdges_completes file symmetric offsets outMem inMem).mono fun s hr hdone => ?_
  have hs := createInv_of_reach hok hr
  have hne : s.pc ≠ .start := hdone.trans_ne nofun
  have hout := hs.out hne
  have hin := hs.inn hne
  rw [hs.done hdone] at hout hin
  exact ⟨hdone, hout.exact hok.out fun e he => (hfile e he).2,
    fun hsym => (hin hsym).exact (hok.inn hsym) fun e he => (hfile e he).1⟩

theorem EdgeArray.InSlices.of_stores_nil {key : Edge → UInt32} {offsets : ℕ → UInt64} {a : EdgeArray}
    (h : a.stores = []) : a.InSlices file key offsets := by
  constructor <;> rw [h]
  · exact List.nodup_nil
  · exact fun p hp => absurd hp List.not_mem_nil

/-- At no point has a store gone to a slot twice or outside the slice of its vertex. -/
theorem createEdges_inSlices (hok : OffsetsOk file symmetric n offsets)
    (h : Reach (createEdges file symmetric offsets) (CreateState.init outMem inMem) s) :
    s.arrays.outArray.InSlices file Edge.src offsets.outEdgeOffsets ∧
      (symmetric = true → s.arrays.inArray.InSlices file Edge.dst offsets.inEdgeOffsets) := by
  have hs := createInv_of_reach hok h
  by_cases hp : s.pc = .start
  · obtain ⟨-, hout, hin⟩ := hs.start hp
    exact ⟨.of_stores_nil hout, fun _ => .of_stores_nil hin⟩
  · exact ⟨(hs.out hp).inSlices hok.out, fun hsym => (hs.inn hp hsym).inSlices (hok.inn hsym)⟩

end GraphBenchmark
