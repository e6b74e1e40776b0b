import GraphBenchmark.Loader.Edges

/-! # The cursors of `create_edges`, whatever the degrees

A cursor has 32 bits. `LaneSafe` says what is left of the invariant of one direction when a vertex may have
more edges than that: a draw stays below the degree, so every store stays in the slice of its vertex, and below
`2^32`, so the slot number `2^32` of a slice is never stored to (`LaneSafe.unwritten`). -/
namespace GraphBenchmark
open Interleaving Words Scatter
set_option autoImplicit false

/-- A draw that an edge can make: its number is below the degree of its vertex and is the value of a cursor. -/
def EdgeFile.Draw (file : EdgeFile) (key : Edge → UInt32) (p : ℕ × ℕ) : Prop :=
  p.1 < file.nbEdges ∧ p.2 < file.degree key (key (file.edge p.1)).toNat ∧ p.2 < 2 ^ 32

/-- The slot of a draw. -/
def EdgeFile.slot (file : EdgeFile) (key : Edge → UInt32) (p : ℕ × ℕ) : ℕ :=
  Slices.start (file.degree key) (key (file.edge p.1)).toNat + p.2

/-- What the draws and stores of one direction keep to, over an array that held `mem`. -/
structure LaneSafe (file : EdgeFile) (key : Edge → UInt32) (mem : ℕ → UInt32) (a : EdgeArray)
    (ws : List (Drawer ℕ)) : Prop where
  cursor : ∀ v, ∃ k, a.cursors v = UInt32.ofNat k ∧
    k + (todo ws).countP (fun i => (key (file.edge i)).toNat = v) = file.degree key v
  todo_lt : ∀ i ∈ todo ws, i < file.nbEdges
  held : ∀ w ∈ ws, ∀ p ∈ w.held, file.Draw key p
  stores : ∀ p ∈ a.stores, ∃ r, file.Draw key (p.1, r) ∧ p.2 = file.slot key (p.1, r)
  cell : ∀ x, (∀ p ∈ a.stores, p.2 ≠ x) → a.edges x = mem x

variable {file : EdgeFile} {n : ℕ} {key val : Edge → UInt32} {offsets : ℕ → UInt64} {mem : ℕ → UInt32}
  {a a' : EdgeArray} {pre post ws : List (Drawer ℕ)} {w w' : Drawer ℕ} {i v : ℕ} {rest : List ℕ} {o : UInt32}

theorem LanePrefix.slot_lt (h : LanePrefix file n key offsets) {p : ℕ × ℕ} (hp : file.Draw key p) :
    file.slot key p < Slices.start (file.degree key) n :=
  Slices.start_add_lt (h.key_lt _ (file.edge_mem hp.1)) hp.2.1

theorem LanePrefix.toNat_slot (h : LanePrefix file n key offsets) (hp : file.Draw key (i, o.toNat)) :
    (offsets (key (file.edge i)).toNat + o.toUInt64).toNat = file.slot key (i, o.toNat) := by
  have hkey := h.key_lt _ (file.edge_mem hp.1)
  have hlt : file.slot key (i, o.toNat) < 2 ^ 64 := (h.slot_lt hp).trans (h.start_lt le_rfl)
  rw [UInt64.toNat_add, h.toNat_offsets hkey.le, UInt32.toNat_toUInt64]
  exact Nat.mod_eq_of_lt hlt

theorem vertex_of_degree (hkey : ∀ e ∈ file.edges, (key e).toNat < n) (hv : 0 < file.degree key v) : v < n := by
  obtain ⟨e, he, heq⟩ := List.countP_pos_iff.mp hv
  rw [← of_decide_eq_true heq]
  exact hkey e he

/-! ## The rule -/

theorem LaneSafe.start (hheld : ∀ w ∈ ws, w.held = none) (htodo : todo ws = Multiset.range file.nbEdges) :
    LaneSafe file key mem ⟨fun _ => 0, mem, []⟩ ws := by
  refine ⟨fun v => ⟨0, rfl, ?_⟩, fun i hi => ?_, fun w hw p hp => ?_, fun p hp => absurd hp List.not_mem_nil,
    fun _ _ => rfl⟩
  · rw [htodo, zero_add, file.countP_range_degree]
  · rw [htodo] at hi
    exact Multiset.mem_range.mp hi
  · rw [hheld w hw] at hp
    cases hp

theorem LaneSafe.fetchAdd (h : LaneSafe file key mem a (pre ++ ⟨i :: rest, none⟩ :: post)) :
    LaneSafe file key mem (a.fetchAdd (key (file.edge i)).toNat).2
      (pre ++ ⟨rest, some (i, (a.fetchAdd (key (file.edge i)).toNat).1.toNat)⟩ :: post) := by
  have htodo : todo (pre ++ (⟨i :: rest, none⟩ : Drawer ℕ) :: post) =
      i ::ₘ todo (pre ++ (⟨rest, some (i, (a.fetchAdd (key (file.edge i)).toNat).1.toNat)⟩ : Drawer ℕ) :: post) :=
    todo_cons _ _
  have hcount := h.cursor
  have hlt := h.todo_lt
  rw [htodo] at hlt
  simp only [htodo, Multiset.countP_cons] at hcount
  refine ⟨fun v => ?_, fun j hj => hlt j (Multiset.mem_cons_of_mem hj), ?_, h.stores, h.cell⟩
  · obtain ⟨k, hk, hsum⟩ := hcount v
    exact ⟨_, EdgeArray.fetchAdd_cursors hk, by omega⟩
  · obtain ⟨-, hothers⟩ := forall_mem_middle.mp h.held
    refine forall_mem_middle.mpr ⟨fun p hp => ?_, hothers⟩
    obtain rfl : (i, (a.cursors (key (file.edge i)).toNat).toNat) = p := Option.some.inj hp
    -- the cursor counts, modulo its width, the draws before this one
    obtain ⟨k, hk, hsum⟩ := hcount (key (file.edge i)).toNat
    rw [if_pos rfl] at hsum
    have hle : (UInt32.ofNat k).toNat ≤ k := by
      rw [UInt32.toNat_ofNat']
      exact Nat.mod_le _ _
    have hdraw : (a.cursors (key (file.edge i)).toNat).toNat < file.degree key (key (file.edge i)).toNat := by
      rw [hk]
      omega
    exact ⟨hlt i (Multiset.mem_cons_self _ _), hdraw, UInt32.toNat_lt _⟩

theorem LaneSafe.store (hok : LanePrefix file n key offsets) {x : UInt32}
    (h : LaneSafe file key mem a (pre ++ ⟨rest, some (i, o.toNat)⟩ :: post)) :
    LaneSafe file key mem (a.store i (offsets (key (file.edge i)).toNat + o.toUInt64).toNat x)
      (pre ++ ⟨rest, none⟩ :: post) := by
  have htodo : todo (pre ++ (⟨rest, some (i, o.toNat)⟩ : Drawer ℕ) :: post) =
      todo (pre ++ (⟨rest, none⟩ : Drawer ℕ) :: post) := by
    rw [todo_split, todo_split]
  obtain ⟨hdraw, hothers⟩ := forall_mem_middle.mp h.held
  have hslot := hok.toNat_slot (hdraw _ rfl)
  refine ⟨fun v => htodo ▸ h.cursor v, htodo ▸ h.todo_lt,
    forall_mem_middle.mpr ⟨fun p hp => (by cases hp), hothers⟩, fun p hp => ?_, fun y hy => ?_⟩
  · rcases List.mem_cons.mp hp with rfl | hp
    · exact ⟨o.toNat, hdraw _ rfl, hslot⟩
    · exact h.stores p hp
  · have hne := hy _ (List.mem_cons_self ..)
    show Function.update a.edges _ x y = mem y
    rw [Function.update_of_ne (Ne.symm hne)]
    exact h.cell y fun p hp => hy p (List.mem_cons_of_mem _ hp)

theorem LaneSafe.join (h : LaneSafe file key mem a ws) (hdone : ∀ w ∈ ws, w.todo = [] ∧ w.held = none) :
    LaneSafe file key mem a [] := by
  have htodo : todo ws = todo ([] : List (Drawer ℕ)) := todo_eq_zero fun w hw => (hdone w hw).1
  exact ⟨fun v => htodo ▸ h.cursor v, htodo ▸ h.todo_lt, fun w hw => absurd hw List.not_mem_nil, h.stores, h.cell⟩

theorem LaneSafe.rule (hok : LanePrefix file n key offsets) (val : Edge → UInt32) (mem : ℕ → UInt32) :
    LaneRule file key val offsets mem (LaneSafe file key mem) := by
  refine ⟨fun _ => LaneSafe.start, fun a a' w w' pre post h hs => ?_, fun _ _ h => h.join⟩
  cases hs with
  | stay => exact h
  | fetchAdd => exact h.fetchAdd
  | store => exact h.store hok

/-! ## What no store reaches -/

/-- No store goes to the slot behind the first `2^32` of a slice. -/
theorem LaneSafe.not_stored (h : LaneSafe file key mem a ws) (hv : 2 ^ 32 < file.degree key v) :
    ∀ p ∈ a.stores, p.2 ≠ Slices.start (file.degree key) v + 2 ^ 32 := by
  intro p hp heq
  obtain ⟨r, hdraw, hslot⟩ := h.stores p hp
  rw [hslot] at heq
  obtain ⟨-, hr⟩ := Slices.start_add_inj hdraw.2.1 hv heq
  have := hdraw.2.2
  omega

/-- It keeps what `graph_malloc` returned. -/
theorem LaneSafe.unwritten (h : LaneSafe file key mem a ws) (hv : 2 ^ 32 < file.degree key v) :
    a.edges (Slices.start (file.degree key) v + 2 ^ 32) = mem (Slices.start (file.degree key) v + 2 ^ 32) :=
  h.cell _ (h.not_stored hv)

/-! ## The same run on other memory -/

/-- The array as it would be over `mem`: the cells that were stored to are the same. -/
def EdgeArray.refill (a : EdgeArray) (mem : ℕ → UInt32) : EdgeArray :=
  { a with edges := fun x => if x ∈ a.stores.map Prod.snd then a.edges x else mem x }

def EdgeArrays.refill (s : EdgeArrays) (mem : ℕ → UInt32) : EdgeArrays := { s with outArray := s.outArray.refill mem }

def CreateState.refill (s : CreateState) (mem : ℕ → UInt32) : CreateState := { s with arrays := s.arrays.refill mem }

section Refill
variable {symmetric : Bool} {offsets : Offsets} {outMem inMem : ℕ → UInt32} {s s' : CreateState}

theorem EdgeArray.refill_store (a : EdgeArray) (mem : ℕ → UInt32) (i slot : ℕ) (x : UInt32) :
    (a.store i slot x).refill mem = (a.refill mem).store i slot x := by
  have hedges : (fun y => if y ∈ slot :: a.stores.map Prod.snd then Function.update a.edges slot x y else mem y) =
      Function.update (fun y => if y ∈ a.stores.map Prod.snd then a.edges y else mem y) slot x := by
    funext y
    by_cases hy : y = slot
    · subst hy
      rw [if_pos List.mem_cons_self, Function.update_self, Function.update_self]
    · have hmem : y ∈ slot :: a.stores.map Prod.snd ↔ y ∈ a.stores.map Prod.snd := by
        rw [List.mem_cons, or_iff_right hy]
      rw [Function.update_of_ne hy, Function.update_of_ne hy, if_congr hmem rfl rfl]
  exact congrArg (fun e => (⟨a.cursors, e, (i, slot) :: a.stores⟩ : EdgeArray)) hedges

theorem createEdgesBody_refill (s : EdgeArrays) (t : CreateTask) (mem : ℕ → UInt32) :
    createEdgesBody file symmetric offsets (s.refill mem) t =
      (createEdgesBody file symmetric offsets s t).map fun p => (p.1.refill mem, p.2) := by
  obtain ⟨todo, stage⟩ := t
  cases todo with
  | nil => rfl
  | cons i rest =>
    cases stage with
    | storeOut o =>
      simp only [createEdgesBody, Option.map_some, EdgeArrays.refill, EdgeArray.refill_store]
    | _ => rfl

theorem createEdges_refill (mem : ℕ → UInt32) {a : CreateAct} (ha : createEdges file symmetric offsets s a = some s') :
    createEdges file symmetric offsets (s.refill mem) a = some (s'.refill mem) := by
  cases a with
  | launch rs =>
    simp only [createEdges] at ha ⊢
    split at ha
    · rename_i hc
      cases ha
      exact if_pos hc
    · cases ha
  | work i =>
    simp only [createEdges] at ha ⊢
    split at ha
    · rename_i hp
      obtain ⟨⟨arrays, ts⟩, hw, rfl⟩ := Option.map_eq_some_iff.mp ha
      unfold work at hw
      split at hw
      · cases hw
      · rename_i t ht
        obtain ⟨⟨arrays', t'⟩, hbody, heq⟩ := Option.map_eq_some_iff.mp hw
        obtain ⟨rfl, rfl⟩ := Prod.mk.inj heq
        have hget : (s.refill mem).tasks[i]? = some t := ht
        rw [if_pos (show (s.refill mem).pc = .building from hp)]
        simp only [work, hget]
        rw [show (s.refill mem).arrays = s.arrays.refill mem from rfl, createEdgesBody_refill, hbody]
        rfl
    · cases ha
  | join =>
    simp only [createEdges] at ha ⊢
    split at ha
    · rename_i hc
      cases ha
      exact if_pos hc
    · cases ha

/-- Other memory under the edge array: the same run, with the other contents where nothing was stored. -/
theorem reach_refill (mem : ℕ → UInt32)
    (h : Reach (createEdges file symmetric offsets) (CreateState.init outMem inMem) s) :
    Reach (createEdges file symmetric offsets) (CreateState.init mem inMem) (s.refill mem) := by
  have hinit : (CreateState.init outMem inMem).refill mem = CreateState.init mem inMem := rfl
  rw [← hinit]
  exact h.invariant (P := fun s => Reach (createEdges file symmetric offsets)
    ((CreateState.init outMem inMem).refill mem) (s.refill mem)) (Reach.refl _ _)
    fun _ _ _ hu ha => hu.tail (createEdges_refill mem ha)

end Refill

end GraphBenchmark
