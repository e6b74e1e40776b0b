import GraphBenchmark.Foundations.Tickets
import GraphBenchmark.Loader.Csr
import GraphBenchmark.Loader.Cursors

/-! # What the fetch-adds of `create_edges` return

A cursor is a counter of `2^32` values that hands out slot numbers. What it returns is the number of edges of the
vertex that came before, as long as there are no more of these than it can count, and as long as no store has gone
outside the edges: such a store can hit the cursors themselves, so the law asks for runs without one. -/
namespace GraphBenchmark
open Interleaving Words Scatter Tickets
set_option autoImplicit false

/-! ## The record of a run -/

/-- A fetch-add: whether it is one on `in_offsets`, the edge it is made for, and the value it returns. -/
structure Fetch where
  inward : Bool
  edge : ℕ
  value : UInt32

/-- The fetch-add a task makes in its next step. -/
def CreateTask.fetch (file : EdgeFile) (s : EdgeArrays) (t : CreateTask) : List Fetch :=
  match t.todo, t.stage with
  | i :: _, .fetchOut => [⟨false, i, (s.outArray.fetchAdd (file.edge i).src.toNat).1⟩]
  | i :: _, .fetchIn => [⟨true, i, (s.inArray.fetchAdd (file.edge i).dst.toNat).1⟩]
  | _, _ => []

/-- What the record of a run keeps of a step. -/
def fetches (file : EdgeFile) (s : CreateState) : CreateAct → List Fetch
  | .work i => if s.pc = .building then s.tasks[i]?.toList.flatMap (CreateTask.fetch file s.arrays) else []
  | _ => []

/-- A run of `create_edges` leads to the state `s` and the record `log`. -/
def FetchRun (file : EdgeFile) (symmetric : Bool) (offsets : Offsets) (outMem inMem : ℕ → UInt32) (s : CreateState)
    (log : List Fetch) : Prop :=
  Reach (logged (fetches file) (createEdges file symmetric offsets)) (CreateState.init outMem inMem, []) (s, log)

/-- The fetch-adds of one direction, in their order: the edge and the number. -/
def laneDraws (inward : Bool) (log : List Fetch) : List (ℕ × ℕ) :=
  (log.filter fun f => f.inward = inward).map fun f => (f.edge, f.value.toNat)

/-- The vertex an edge is placed at. -/
def EdgeFile.keyAt (file : EdgeFile) (key : Edge → UInt32) (i : ℕ) : ℕ := (key (file.edge i)).toNat

/-- All stores of one direction were to the `NB_EDGES` entries of its edge array. -/
def EdgeArray.Inside (file : EdgeFile) (a : EdgeArray) : Prop := ∀ slot ∈ a.stores.map Prod.snd, slot < file.nbEdges

/-- Each fetch-add of one direction has returned the number of those before it for the same vertex, no slot has been
stored to twice, and all of them are slots of the edge array. -/
structure LaneExact (file : EdgeFile) (key : Edge → UInt32) (a : EdgeArray) (draws : List (ℕ × ℕ)) : Prop where
  numbered : Numbered (file.keyAt key) id draws
  slots : (a.stores.map Prod.snd).Nodup
  inside : a.Inside file

/-- So it is in both directions. -/
structure FetchesExact (file : EdgeFile) (symmetric : Bool) (s : CreateState) (log : List Fetch) : Prop where
  out : LaneExact file Edge.src s.arrays.outArray (laneDraws false log)
  inn : symmetric = true → LaneExact file Edge.dst s.arrays.inArray (laneDraws true log)

/-- The slot with number `r` of the vertex `v`. -/
def slotAt (offsets : ℕ → UInt64) (v r : ℕ) : UInt64 := offsets v + UInt64.ofNat r

/-- The slices of different vertices have no slot in common. -/
def EdgeFile.SlicesApart (file : EdgeFile) (key : Edge → UInt32) (offsets : ℕ → UInt64) : Prop :=
  ∀ u v, u ≠ v → ∀ r < file.degree key u, ∀ q < file.degree key v, slotAt offsets u r ≠ slotAt offsets v q

/-- The slots that the cursors can give are slots of the edge array. -/
def EdgeFile.SlicesInside (file : EdgeFile) (key : Edge → UInt32) (offsets : ℕ → UInt64) : Prop :=
  ∀ v, ∀ r < file.degree key v, r < 2 ^ 32 → (slotAt offsets v r).toNat < file.nbEdges

/-! ## One direction -/

/-- The draw a worker has begun to hold. -/
def newlyHeld (w w' : Drawer ℕ) : List (ℕ × ℕ) :=
  match w.held with
  | none => w'.held.toList
  | some _ => []

/-- What the draws of one direction keep to, whatever the degrees. -/
structure LaneDrawn (file : EdgeFile) (key : Edge → UInt32) (offsets : ℕ → UInt64) (a : EdgeArray)
    (ws : List (Drawer ℕ)) (draws : List (ℕ × ℕ)) : Prop where
  numbered : Numbered (file.keyAt key) (· % 2 ^ 32) draws
  cursor : ∀ v, a.cursors v = UInt32.ofNat (drawsFor (file.keyAt key) draws v)
  left : ∀ v, drawsFor (file.keyAt key) draws v + (todo ws).countP (fun i => file.keyAt key i = v) = file.degree key v
  stores : ((a.stores.map Prod.snd : List ℕ) : Multiset ℕ) +
      (held ws).map (fun p => (slotAt offsets (file.keyAt key p.1) p.2).toNat) =
    (draws : Multiset (ℕ × ℕ)).map fun p => (slotAt offsets (file.keyAt key p.1) p.2).toNat

section Lane
variable {file : EdgeFile} {n : ℕ} {key val : Edge → UInt32} {offsets : ℕ → UInt64} {mem : ℕ → UInt32}
  {a a' : EdgeArray} {pre post ws : List (Drawer ℕ)} {w w' : Drawer ℕ} {draws : List (ℕ × ℕ)} {i v : ℕ}
  {rest : List ℕ} {o : UInt32}

theorem LaneDrawn.start (hheld : ∀ w ∈ ws, w.held = none) (htodo : todo ws = Multiset.range file.nbEdges) :
    LaneDrawn file key offsets ⟨fun _ => 0, mem, []⟩ ws [] := by
  refine ⟨Numbered.nil, fun _ => rfl, fun v => ?_, ?_⟩
  · rw [htodo]
    exact (Nat.zero_add _).trans (file.countP_range_degree key v)
  · rw [held_eq_zero hheld]
    rfl

theorem LaneDrawn.fetchAdd (h : LaneDrawn file key offsets a (pre ++ ⟨i :: rest, none⟩ :: post) draws) :
    LaneDrawn file key offsets (a.fetchAdd (key (file.edge i)).toNat).2
      (pre ++ ⟨rest, some (i, (a.fetchAdd (key (file.edge i)).toNat).1.toNat)⟩ :: post)
      (draws ++ [(i, (a.fetchAdd (key (file.edge i)).toNat).1.toNat)]) := by
  have hvalue : (a.fetchAdd (key (file.edge i)).toNat).1.toNat =
      drawsFor (file.keyAt key) draws (file.keyAt key i) % 2 ^ 32 := by
    show (a.cursors (file.keyAt key i)).toNat = _
    rw [h.cursor, UInt32.toNat_ofNat']
  have hdraws : ∀ r v, drawsFor (file.keyAt key) (draws ++ [(i, r)]) v =
      drawsFor (file.keyAt key) draws v + if file.keyAt key i = v then 1 else 0 := by
    intro r v
    rw [drawsFor_append, drawsFor_cons]
    exact congrArg _ (Nat.zero_add _)
  refine ⟨h.numbered.snoc hvalue, fun v => ?_, fun v => ?_, ?_⟩
  · rw [hdraws]
    exact EdgeArray.fetchAdd_cursors (h.cursor v)
  · have hleft := h.left v
    rw [todo_cons _ (some (i, (a.fetchAdd (key (file.edge i)).toNat).1.toNat)), Multiset.countP_cons] at hleft
    rw [hdraws]
    omega
  · have hstores := h.stores
    rw [held_none] at hstores
    rw [held_some, ← Multiset.coe_add, Multiset.map_add, ← hstores, Multiset.map_cons, Multiset.add_cons,
      Multiset.coe_singleton, Multiset.map_singleton, ← Multiset.singleton_add, add_comm]
    rfl

theorem LaneDrawn.store {x : UInt32}
    (h : LaneDrawn file key offsets a (pre ++ ⟨rest, some (i, o.toNat)⟩ :: post) draws) :
    LaneDrawn file key offsets (a.store i (offsets (key (file.edge i)).toNat + o.toUInt64).toNat x)
      (pre ++ ⟨rest, none⟩ :: post) draws := by
  have htodo : todo (pre ++ (⟨rest, some (i, o.toNat)⟩ : Drawer ℕ) :: post) =
      todo (pre ++ (⟨rest, none⟩ : Drawer ℕ) :: post) := by
    rw [todo_split, todo_split]
  have hslot : (offsets (key (file.edge i)).toNat + o.toUInt64).toNat =
      (slotAt offsets (file.keyAt key i) o.toNat).toNat := by
    rw [slotAt, UInt64.ofNat_uInt32ToNat]
    rfl
  refine ⟨h.numbered, h.cursor, fun v => htodo ▸ h.left v, ?_⟩
  rw [← h.stores, held_none, held_some, hslot, EdgeArray.store, List.map_cons, ← Multiset.cons_coe, Multiset.map_cons,
    Multiset.cons_add, Multiset.add_cons]

theorem LaneDrawn.step (h : LaneDrawn file key offsets a (pre ++ w :: post) draws)
    (hs : LaneStep file key val offsets a w a' w') :
    LaneDrawn file key offsets a' (pre ++ w' :: post) (draws ++ newlyHeld w w') := by
  cases hs with
  | stay =>
    have hnone : newlyHeld w w = [] := by
      unfold newlyHeld
      cases hheld : w.held <;> rfl
    rw [hnone, List.append_nil]
    exact h
  | fetchAdd => exact h.fetchAdd
  | store =>
    rw [newlyHeld, List.append_nil]
    exact h.store

theorem LaneDrawn.join (h : LaneDrawn file key offsets a ws draws) (hdone : ∀ w ∈ ws, w.todo = [] ∧ w.held = none) :
    LaneDrawn file key offsets a [] draws := by
  have hheld : held ws = held ([] : List (Drawer ℕ)) := held_eq_zero fun w hw => (hdone w hw).2
  have htodo : todo ws = todo ([] : List (Drawer ℕ)) := todo_eq_zero fun w hw => (hdone w hw).1
  exact ⟨h.numbered, h.cursor, fun v => htodo ▸ h.left v, hheld ▸ h.stores⟩

/-! ## When it is exact -/

theorem EdgeFile.degree_lt (file : EdgeFile) (key : Edge → UInt32) (v : ℕ) : file.degree key v < 2 ^ 64 :=
  List.countP_le_length.trans_lt file.nbEdges_lt

theorem EdgeFile.SlicesApart.slotAt_inj (h : file.SlicesApart key offsets) {u v r q : ℕ} (hr : r < file.degree key u)
    (hq : q < file.degree key v) (heq : slotAt offsets u r = slotAt offsets v q) : u = v ∧ r = q := by
  have huv : u = v := by
    by_contra hne
    exact h u v hne r hr q hq heq
  subst huv
  have hnumber := congrArg UInt64.toNat (add_left_cancel heq)
  have hlt := file.degree_lt key u
  rw [toNat_ofNat64 (by omega), toNat_ofNat64 (by omega)] at hnumber
  exact ⟨rfl, hnumber⟩

theorem LaneDrawn.drawsFor_le (h : LaneDrawn file key offsets a ws draws) (v : ℕ) :
    drawsFor (file.keyAt key) draws v ≤ file.degree key v := by
  have hleft := h.left v
  omega

/-- Whatever the degrees, what is stored to are slots that the cursors can give. -/
theorem LaneDrawn.inside (h : LaneDrawn file key offsets a ws draws) (hinside : file.SlicesInside key offsets) :
    a.Inside file := by
  intro slot hslot
  have hmem : slot ∈ (draws : Multiset (ℕ × ℕ)).map fun p => (slotAt offsets (file.keyAt key p.1) p.2).toNat := by
    rw [← h.stores]
    exact Multiset.mem_add.mpr (Or.inl (Multiset.mem_coe.mpr hslot))
  obtain ⟨p, hp, rfl⟩ := Multiset.mem_map.mp hmem
  obtain ⟨r, hr, heq⟩ := h.numbered.exists_lt (Multiset.mem_coe.mp hp)
  have hle : p.2 ≤ r := heq ▸ Nat.mod_le r _
  exact hinside _ p.2 (hle.trans_lt (hr.trans_le (h.drawsFor_le _))) (heq ▸ Nat.mod_lt r (by decide))

theorem LaneDrawn.exact (h : LaneDrawn file key offsets a ws draws) (hdegree : ∀ v, file.degree key v ≤ 2 ^ 32)
    (hapart : file.SlicesApart key offsets) (hinside : file.SlicesInside key offsets) : LaneExact file key a draws := by
  have hnumbered := h.numbered.exact fun v => (h.drawsFor_le v).trans (hdegree v)
  refine ⟨hnumbered, ?_, h.inside hinside⟩
  have hslots := hnumbered.nodup (fun v r => (slotAt offsets v r).toNat) fun u v r q hr hq heq =>
    hapart.slotAt_inj (hr.trans_le (h.drawsFor_le u)) (hq.trans_le (h.drawsFor_le v)) (UInt64.toNat_inj.mp heq)
  rw [← Multiset.coe_nodup, ← Multiset.map_coe, ← h.stores] at hslots
  exact Multiset.coe_nodup.mp (Multiset.nodup_of_le (Multiset.le_add_right _ _) hslots)

theorem LaneDrawn.drawsFor_eq (h : LaneDrawn file key offsets a [] draws) (v : ℕ) :
    drawsFor (file.keyAt key) draws v = file.degree key v := h.left v

theorem LaneDrawn.stores_eq (h : LaneDrawn file key offsets a [] draws) : ((a.stores.map Prod.snd : List ℕ) : Multiset ℕ) =
    (draws : Multiset (ℕ × ℕ)).map fun p => (slotAt offsets (file.keyAt key p.1) p.2).toNat := by
  have hstores := h.stores
  rwa [held_eq_zero fun w hw => absurd hw List.not_mem_nil, Multiset.map_zero, add_zero] at hstores

/-- A finished direction has stored to all slots that its cursors could give. -/
theorem LaneDrawn.slicesInside (h : LaneDrawn file key offsets a [] draws) (hinside : a.Inside file) :
    file.SlicesInside key offsets := by
  intro v r hr hlt
  rw [← h.drawsFor_eq] at hr
  obtain ⟨i, hi, rfl⟩ := h.numbered.exists_mem hr
  rw [Nat.mod_eq_of_lt hlt] at hi
  refine hinside _ (Multiset.mem_coe.mp ?_)
  rw [h.stores_eq]
  exact Multiset.mem_map.mpr ⟨(i, r), Multiset.mem_coe.mpr hi, rfl⟩

theorem LaneDrawn.degree_le (h : LaneDrawn file key offsets a [] draws) (hexact : LaneExact file key a draws) (v : ℕ) :
    file.degree key v ≤ 2 ^ 32 := by
  rw [← h.drawsFor_eq v]
  exact h.numbered.drawsFor_le hexact.numbered (by decide) v

theorem LaneDrawn.slicesApart (h : LaneDrawn file key offsets a [] draws) (hexact : LaneExact file key a draws) :
    file.SlicesApart key offsets := by
  intro u v hne r hr q hq heq
  rw [← h.drawsFor_eq] at hr hq
  obtain ⟨i, hi, rfl⟩ := hexact.numbered.exists_mem hr
  obtain ⟨j, hj, rfl⟩ := hexact.numbered.exists_mem hq
  have hslots := Multiset.coe_nodup.mpr hexact.slots
  rw [h.stores_eq, Multiset.map_coe, Multiset.coe_nodup] at hslots
  -- two draws stored to one slot are the same draw
  have hsame : (i, r) = (j, q) := List.inj_on_of_nodup_map hslots hi hj (congrArg UInt64.toNat heq)
  rw [(Prod.mk.inj hsame).1] at hne
  exact hne rfl

end Lane

/-! ## Runs of `create_edges` -/

section Runs
variable {file : EdgeFile} {symmetric : Bool} {n : ℕ} {offsets : Offsets} {outMem inMem : ℕ → UInt32} {s : CreateState}
  {log : List Fetch}

theorem laneDraws_append (inward : Bool) (l₁ l₂ : List Fetch) :
    laneDraws inward (l₁ ++ l₂) = laneDraws inward l₁ ++ laneDraws inward l₂ := by
  rw [laneDraws, List.filter_append, List.map_append]
  rfl

theorem createEdgesBody_fetch_out {s s' : EdgeArrays} {t t' : CreateTask}
    (h : createEdgesBody file symmetric offsets s t = some (s', t')) :
    laneDraws false (t.fetch file s) = newlyHeld t.outDrawer t'.outDrawer := by
  obtain ⟨i, rest, ⟨rfl, -, rfl⟩ | ⟨o, rfl, -, rfl⟩ | ⟨rfl, -, rfl⟩ | ⟨o, rfl, -, rfl⟩⟩ := createEdgesBody_cases h
  · rfl
  · rfl
  · rfl
  · rw [CreateTask.outDrawer_fetchOut]
    rfl

theorem createEdgesBody_fetch_in {s s' : EdgeArrays} {t t' : CreateTask}
    (h : createEdgesBody file true offsets s t = some (s', t')) :
    laneDraws true (t.fetch file s) = newlyHeld t.inDrawer t'.inDrawer := by
  obtain ⟨i, rest, ⟨rfl, -, rfl⟩ | ⟨o, rfl, -, rfl⟩ | ⟨rfl, -, rfl⟩ | ⟨o, rfl, -, rfl⟩⟩ := createEdgesBody_cases h <;> rfl

/-- One direction of a run keeps to `LaneDrawn`. `arr` and `drawer` pick it out of the state, `inward` out of the
record. -/
theorem LaneDrawn.of_reach {key val : Edge → UInt32} {laneOffsets : ℕ → UInt64} {mem : ℕ → UInt32}
    (arr : EdgeArrays → EdgeArray) (drawer : CreateTask → Drawer ℕ) (inward : Bool)
    (hinit : arr (CreateState.init outMem inMem).arrays = ⟨fun _ => 0, mem, []⟩)
    (hfetch : ∀ todo, drawer ⟨todo, .fetchOut⟩ = ⟨todo, none⟩)
    (hnil : ∀ t : CreateTask, t.todo = [] → drawer t = ⟨[], none⟩)
    (hbody : ∀ s t s' t', createEdgesBody file symmetric offsets s t = some (s', t') →
      LaneStep file key val laneOffsets (arr s) (drawer t) (arr s') (drawer t') ∧
        laneDraws inward (t.fetch file s) = newlyHeld (drawer t) (drawer t'))
    (h : FetchRun file symmetric offsets outMem inMem s log) (hs : s.pc ≠ .start) :
    LaneDrawn file key laneOffsets (arr s.arrays) (s.tasks.map drawer) (laneDraws inward log) := by
  refine (createEdges_rule (P := fun arrays ts log =>
    LaneDrawn file key laneOffsets (arr arrays) (ts.map drawer) (laneDraws inward log)) ?_ ?_ ?_ h).2 hs
  · intro rs hrs
    obtain ⟨hheld, htodo⟩ := launch_drawers hrs hfetch
    rw [hinit]
    exact LaneDrawn.start hheld htodo
  · intro u i pre t post arrays t' log hp hget _ hstep hP
    obtain ⟨hlane, hdraws⟩ := hbody _ _ _ _ hstep
    have hrec : fetches file u (.work i) = t.fetch file u.arrays := by
      simp only [fetches, hp, if_true, hget, Option.toList_some, List.flatMap_singleton]
    rw [List.map_append, List.map_cons] at hP ⊢
    rw [laneDraws_append, hrec, hdraws]
    exact hP.step hlane
  · intro u log hthrough hP
    rw [show fetches file u .join = [] from rfl, List.append_nil]
    exact hP.join (join_drawers hthrough hnil)

theorem FetchRun.out (h : FetchRun file symmetric offsets outMem inMem s log) (hs : s.pc ≠ .start) :
    LaneDrawn file Edge.src offsets.outEdgeOffsets s.arrays.outArray (s.tasks.map CreateTask.outDrawer)
      (laneDraws false log) :=
  LaneDrawn.of_reach EdgeArrays.outArray CreateTask.outDrawer false rfl CreateTask.outDrawer_fetchOut
    (fun _ => CreateTask.outDrawer_nil)
    (fun _ _ _ _ hstep => ⟨createEdgesBody_out hstep, createEdgesBody_fetch_out hstep⟩) h hs

theorem FetchRun.inn (h : FetchRun file true offsets outMem inMem s log) (hs : s.pc ≠ .start) :
    LaneDrawn file Edge.dst offsets.inEdgeOffsets s.arrays.inArray (s.tasks.map CreateTask.inDrawer)
      (laneDraws true log) :=
  LaneDrawn.of_reach EdgeArrays.inArray CreateTask.inDrawer true rfl CreateTask.inDrawer_fetchOut
    (fun _ => CreateTask.inDrawer_nil)
    (fun _ _ _ _ hstep => ⟨createEdgesBody_in hstep, createEdgesBody_fetch_in hstep⟩) h hs

/-! ## The condition -/

/-- No vertex has more edges than a cursor has values. -/
def EdgeFile.CursorsFit (file : EdgeFile) (symmetric : Bool) : Prop :=
  (∀ v, file.outDegree v ≤ 2 ^ 32) ∧ (symmetric = true → ∀ v, file.inDegree v ≤ 2 ^ 32)

/-- The offsets give no slot to two vertices. -/
def Offsets.Apart (offsets : Offsets) (file : EdgeFile) (symmetric : Bool) : Prop :=
  file.SlicesApart Edge.src offsets.outEdgeOffsets ∧ (symmetric = true → file.SlicesApart Edge.dst offsets.inEdgeOffsets)

/-- Nor one outside the edge array. -/
def Offsets.Inside (offsets : Offsets) (file : EdgeFile) (symmetric : Bool) : Prop :=
  file.SlicesInside Edge.src offsets.outEdgeOffsets ∧
    (symmetric = true → file.SlicesInside Edge.dst offsets.inEdgeOffsets)

theorem LaneExact.init (key : Edge → UInt32) (mem : ℕ → UInt32) : LaneExact file key ⟨fun _ => 0, mem, []⟩ [] :=
  ⟨Numbered.nil, List.nodup_nil, fun _ hslot => absurd hslot List.not_mem_nil⟩

theorem FetchRun.start (h : FetchRun file symmetric offsets outMem inMem s log) (hs : s.pc = .start) :
    (s, log) = (CreateState.init outMem inMem, []) :=
  (createEdges_rule (P := fun _ _ _ => True) (by intros; trivial) (by intros; trivial) (by intros; trivial) h).1 hs

theorem FetchRun.exact (h : FetchRun file symmetric offsets outMem inMem s log) (hfit : file.CursorsFit symmetric)
    (hapart : offsets.Apart file symmetric) (hinside : offsets.Inside file symmetric) :
    FetchesExact file symmetric s log := by
  by_cases hs : s.pc = .start
  · obtain ⟨rfl, rfl⟩ := Prod.mk.inj (h.start hs)
    exact ⟨LaneExact.init Edge.src outMem, fun _ => LaneExact.init Edge.dst inMem⟩
  · refine ⟨(h.out hs).exact hfit.1 hapart.1 hinside.1, fun hsym => ?_⟩
    subst hsym
    exact (h.inn hs).exact (hfit.2 rfl) (hapart.2 rfl) (hinside.2 rfl)

/-- A complete run shows all parts of the condition. -/
theorem fit_of_fetchesExact
    (h : ∀ s log, FetchRun file symmetric offsets outMem inMem s log → FetchesExact file symmetric s log) :
    file.CursorsFit symmetric ∧ offsets.Apart file symmetric ∧ offsets.Inside file symmetric := by
  obtain ⟨t, ht, hdone⟩ := (createEdges_completes file symmetric offsets outMem inMem).exists
  obtain ⟨log, hlog⟩ := ht.logged (fetches file) []
  have hrun : FetchRun file symmetric offsets outMem inMem t log := hlog
  have hne : t.pc ≠ .start := hdone.trans_ne nofun
  have htasks := createEdges_tasks ht hdone
  have hexact := h t log hrun
  have hout := hrun.out hne
  rw [htasks, List.map_nil] at hout
  have hin : symmetric = true → LaneDrawn file Edge.dst offsets.inEdgeOffsets t.arrays.inArray [] (laneDraws true log) := by
    intro hsym
    subst hsym
    have hin := hrun.inn hne
    rwa [htasks, List.map_nil] at hin
  exact ⟨⟨hout.degree_le hexact.out, fun hsym => (hin hsym).degree_le (hexact.inn hsym)⟩,
    ⟨hout.slicesApart hexact.out, fun hsym => (hin hsym).slicesApart (hexact.inn hsym)⟩,
    hout.slicesInside hexact.out.inside, fun hsym => (hin hsym).slicesInside (hexact.inn hsym).inside⟩

section Prefix
variable {key : Edge → UInt32} {laneOffsets : ℕ → UInt64}

theorem LanePrefix.toNat_slotAt (h : LanePrefix file n key laneOffsets) {v r : ℕ} (hr : r < file.degree key v) :
    v < n ∧ (slotAt laneOffsets v r).toNat = Slices.start (file.degree key) v + r := by
  have hv := vertex_of_degree h.key_lt ((Nat.zero_le r).trans_lt hr)
  have hlt := (Slices.start_add_lt hv hr).trans (h.start_lt le_rfl)
  rw [slotAt, h.offsets_eq v hv.le, ← UInt64.ofNat_add, toNat_ofNat64 hlt]
  exact ⟨hv, rfl⟩

theorem LanePrefix.slicesApart (h : LanePrefix file n key laneOffsets) : file.SlicesApart key laneOffsets := by
  intro u v hne r hr q hq heq
  have hsame := congrArg UInt64.toNat heq
  rw [(h.toNat_slotAt hr).2, (h.toNat_slotAt hq).2] at hsame
  exact hne (Slices.start_add_inj hr hq hsame).1

theorem LanePrefix.slicesInside (h : LanePrefix file n key laneOffsets) : file.SlicesInside key laneOffsets := by
  intro v r hr _
  obtain ⟨hv, hslot⟩ := h.toNat_slotAt hr
  rw [hslot, ← h.start_eq]
  exact Slices.start_add_lt hv hr

end Prefix

theorem apart_and_inside_of_zeroed {mem : Offsets} {c : CountState} (hfile : file.EndpointsBelow n) (hmem : mem.Zeroed n)
    (hc : Reach (countDegree file symmetric n) (CountState.init mem) c) (hdone : c.pc = .done) :
    c.offsets.Apart file symmetric ∧ c.offsets.Inside file symmetric := by
  obtain ⟨-, hoff⟩ := (countDegree_zeroed symmetric hfile hmem).2 c hc (countDegree_of_done hdone)
  have hout : LanePrefix file n Edge.src c.offsets.outEdgeOffsets :=
    ⟨fun e he => (hfile e he).1, fun i hi => (hoff i hi).1⟩
  have hin : symmetric = true → LanePrefix file n Edge.dst c.offsets.inEdgeOffsets := fun hsym =>
    ⟨fun e he => (hfile e he).2, fun i hi => (hoff i hi).2 hsym⟩
  exact ⟨⟨hout.slicesApart, fun hsym => (hin hsym).slicesApart⟩, hout.slicesInside, fun hsym => (hin hsym).slicesInside⟩

end Runs

/-- After `count_degree`, in every run of `create_edges` each fetch-add returns the number of edges of its vertex before
it and the stores are to different slots of the edge arrays, exactly when no vertex has more than `2^32` edges and the
offsets keep the vertices apart and inside the arrays; and over zeroed memory they do. -/
theorem fetchesExact_iff (file : EdgeFile) (symmetric : Bool) (n : ℕ) (mem : Offsets) (c : CountState)
    (outMem inMem : ℕ → UInt32) (hfile : file.EndpointsBelow n)
    (hc : Reach (countDegree file symmetric n) (CountState.init mem) c) (hdone : c.pc = .done) :
    ((∀ s log, FetchRun file symmetric c.offsets outMem inMem s log → FetchesExact file symmetric s log) ↔
      file.CursorsFit symmetric ∧ c.offsets.Apart file symmetric ∧ c.offsets.Inside file symmetric) ∧
    (mem.Zeroed n → c.offsets.Apart file symmetric ∧ c.offsets.Inside file symmetric) :=
  ⟨⟨fit_of_fetchesExact, fun h _ _ hrun => hrun.exact h.1 h.2.1 h.2.2⟩,
    fun hmem => apart_and_inside_of_zeroed hfile hmem hc hdone⟩

theorem fetchesExact_parallel : ∃ c,
    Reach (countDegree parallelFile true 2) (CountState.init ⟨fun _ => 0, fun _ => 0⟩) c ∧ c.pc = .done ∧
      ∀ s log, FetchRun parallelFile true c.offsets (fun _ => 7) (fun _ => 7) s log →
        FetchesExact parallelFile true s log := by
  have hmem : Offsets.Zeroed ⟨fun _ => 0, fun _ => 0⟩ 2 := fun _ _ => ⟨rfl, rfl⟩
  have hfile : parallelFile.EndpointsBelow 2 := by decide
  obtain ⟨c, hc, hdone, -⟩ := (countDegree_zeroed true hfile hmem).exists
  have hiff := fetchesExact_iff parallelFile true 2 _ c (fun _ => 7) (fun _ => 7) hfile hc hdone
  refine ⟨c, hc, hdone, hiff.1.mpr ⟨⟨fun v => ?_, fun _ v => ?_⟩, hiff.2 hmem⟩⟩
  · exact List.countP_le_length.trans (by decide)
  · exact List.countP_le_length.trans (by decide)

/-- A file that names one edge, a loop, once more than a cursor has values. -/
def hubFile : EdgeFile := ⟨List.replicate (2 ^ 32 + 1) ⟨0, 0⟩, by rw [List.length_replicate]; decide⟩

theorem hubFile_outDegree : hubFile.outDegree 0 = 2 ^ 32 + 1 := by
  show List.countP _ (List.replicate (2 ^ 32 + 1) _) = _
  rw [List.countP_replicate, if_pos (by decide)]

/-- The last of these edges gets the slot of the first one. -/
theorem not_fetchesExact_hub : ¬ ∀ (file : EdgeFile) (symmetric : Bool) (n : ℕ) (mem : Offsets) (c : CountState)
    (outMem inMem : ℕ → UInt32), file.EndpointsBelow n → mem.Zeroed n →
    Reach (countDegree file symmetric n) (CountState.init mem) c → c.pc = .done →
    ∀ s log, FetchRun file symmetric c.offsets outMem inMem s log → FetchesExact file symmetric s log := by
  intro h
  have hfile : hubFile.EndpointsBelow 1 := by
    intro e he
    rw [List.eq_of_mem_replicate he]
    decide
  have hmem : Offsets.Zeroed ⟨fun _ => 0, fun _ => 0⟩ 1 := fun _ _ => ⟨rfl, rfl⟩
  obtain ⟨c, hc, hdone, -⟩ := (countDegree_zeroed false hfile hmem).exists
  have hfit := (fit_of_fetchesExact (h hubFile false 1 _ c (fun _ => 0) (fun _ => 0) hfile hmem hc hdone)).1
  have hle := hfit.1 0
  rw [hubFile_outDegree] at hle
  omega

end GraphBenchmark
