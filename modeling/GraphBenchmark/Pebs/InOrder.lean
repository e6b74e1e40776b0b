import GraphBenchmark.Pebs.Records
import GraphBenchmark.Foundations.Run

/-! # Samples in order

As long as no sample that is taken up goes round the end of the data area, every run keeps `InOrder`. The first one that
does ends it (`inOrder_of_inOnePiece`). -/
namespace GraphBenchmark
open Interleaving Words
set_option autoImplicit false

/-! ## The record of a run -/

inductive PerfEvent
  | publish (r : PerfRecord)
  | consume
  | load (off : ℕ)

/-- The bytes read at `pc`. -/
def loads (pc : CollectPc) : List PerfEvent := (List.range pc.access.2).map fun i => .load (pc.access.1 + i)

/-- What happens in a step: a record is taken up where its address is pushed, or where `switch` falls to `default`. -/
def perfEvents (s : PerfState) : PerfAct → List PerfEvent
  | .output _ => []
  | .terminate => []
  | .store =>
    match s.kernel with
    | .idle => []
    | .storing r k => if r.bytes[k]? = none then [.publish r] else []
  | .collect =>
    match s.collect with
    | .type off =>
      loads (.type off) ++ if UInt32.ofNat (s.load (.type off)) = perfRecordSample then [] else [.consume]
    | .push _ _ => [.consume]
    | pc => loads pc

def PerfEvent.published : PerfEvent → Option PerfRecord
  | .publish r => some r
  | _ => none

def PerfEvent.isConsume : PerfEvent → Bool
  | .consume => true
  | _ => false

/-- The records published, in order. -/
def published (log : List PerfEvent) : List PerfRecord := log.filterMap PerfEvent.published

/-- How many records have been taken up. -/
def consumed (log : List PerfEvent) : ℕ := log.countP PerfEvent.isConsume

/-- `sampled_address` holds the samples taken up so far, `data_tail` stands between two records, at most one behind what
is taken up, `data_head` behind the last one, and all reads are inside the data area. -/
structure InOrder (s : PerfState) (log : List PerfEvent) : Prop where
  sampled : s.sampledAddress = ((published log).take (consumed log)).filterMap PerfRecord.addr
  consumed_le : consumed log ≤ (published log).length
  boundary : ∃ k ≤ consumed log, consumed log ≤ k + 1 ∧ s.dataTail = UInt64.ofNat (totalSize ((published log).take k))
  head : s.dataHead = UInt64.ofNat (totalSize (published log))
  tail_le : totalSize (published log) < 2 ^ 64 → s.dataTail ≤ s.dataHead
  inside : ∀ off, PerfEvent.load off ∈ log → off < dataSize

/-- The sample whose address is read does not go round the end of the data area. -/
def inOnePiece (s : PerfState) : PerfAct → Bool
  | .collect =>
    match s.collect with
    | .addr off => decide (off + 24 ≤ dataSize)
    | _ => true
  | _ => true

section Log
variable {log log' : List PerfEvent} {pc : CollectPc} {off : ℕ}

@[simp] theorem published_append (log log' : List PerfEvent) :
    published (log ++ log') = published log ++ published log' :=
  List.filterMap_append

@[simp] theorem consumed_append (log log' : List PerfEvent) : consumed (log ++ log') = consumed log + consumed log' :=
  List.countP_append

@[simp] theorem published_loads (pc : CollectPc) : published (loads pc) = [] := by
  rw [published, loads, List.filterMap_map]
  exact List.filterMap_eq_nil_iff.mpr fun _ _ => rfl

@[simp] theorem consumed_loads (pc : CollectPc) : consumed (loads pc) = 0 := by
  rw [consumed, loads, List.countP_map]
  exact List.countP_eq_zero.mpr fun _ _ => Bool.false_ne_true

theorem mem_loads : PerfEvent.load off ∈ loads pc ↔ pc.access.1 ≤ off ∧ off < pc.access.1 + pc.access.2 := by
  rw [loads, List.mem_map]
  constructor
  · rintro ⟨i, hi, heq⟩
    obtain rfl := PerfEvent.load.inj heq
    rw [List.mem_range] at hi
    omega
  · intro ⟨hle, hlt⟩
    refine ⟨off - pc.access.1, List.mem_range.mpr (by omega), ?_⟩
    rw [Nat.add_sub_cancel' hle]

end Log

/-! ## The invariant -/

/-- What the sampling thread knows of the first record that is not taken up. -/
def Taking (past live : List PerfRecord) : CollectPc → Prop
  | .type off => off = totalSize past % dataSize ∧ live ≠ []
  | .addr off => off = totalSize past % dataSize ∧ ∃ misc ip addr rest, live = .sample misc ip addr :: rest
  | .ip off vaddr => off = totalSize past % dataSize ∧ off + 24 ≤ dataSize ∧
    ∃ misc ip rest, live = .sample misc ip vaddr :: rest
  | .push off vaddr => off = totalSize past % dataSize ∧ ∃ misc ip rest, live = .sample misc ip vaddr :: rest
  | .size off => off = totalSize past % dataSize ∧ live ≠ []
  | .advance size => ∃ r rest, live = r :: rest ∧ size.toNat = r.size
  | _ => True

/-- Whether the record at `data_tail` is taken up. -/
def CollectPc.taken : CollectPc → ℕ
  | .size _ => 1
  | .advance _ => 1
  | _ => 0

theorem CollectPc.taken_le_one (pc : CollectPc) : pc.taken ≤ 1 := by
  cases pc with
  | size off => exact le_rfl
  | advance size => exact le_rfl
  | _ => exact Nat.zero_le 1

structure LogInv (past live : List PerfRecord) (s : PerfState) (log : List PerfEvent) : Prop where
  published_eq : published log = past ++ live
  consumed_eq : consumed log = past.length + s.collect.taken
  sampled : s.sampledAddress = ((past ++ live).take (consumed log)).filterMap PerfRecord.addr
  inside : ∀ off, PerfEvent.load off ∈ log → off < dataSize

def PerfInv (p : PerfState × List PerfEvent) : Prop :=
  ∃ past live, RingInv past live p.1 ∧ Taking past live p.1.collect ∧ LogInv past live p.1 p.2

section Inv
variable {past live : List PerfRecord} {s : PerfState} {log : List PerfEvent} {r : PerfRecord}

theorem Taking.append {pc : CollectPc} (h : Taking past live pc) (rs : List PerfRecord) :
    Taking past (live ++ rs) pc := by
  cases pc with
  | type off => exact ⟨h.1, List.append_ne_nil_of_left_ne_nil h.2 rs⟩
  | size off => exact ⟨h.1, List.append_ne_nil_of_left_ne_nil h.2 rs⟩
  | addr off =>
    obtain ⟨hoff, misc, ip, addr, rest, rfl⟩ := h
    exact ⟨hoff, misc, ip, addr, rest ++ rs, rfl⟩
  | ip off vaddr =>
    obtain ⟨hoff, hfits, misc, ip, rest, rfl⟩ := h
    exact ⟨hoff, hfits, misc, ip, rest ++ rs, rfl⟩
  | push off vaddr =>
    obtain ⟨hoff, misc, ip, rest, rfl⟩ := h
    exact ⟨hoff, misc, ip, rest ++ rs, rfl⟩
  | advance size =>
    obtain ⟨r, rest, rfl, hsize⟩ := h
    exact ⟨r, rest ++ rs, rfl, hsize⟩
  | test => trivial
  | poll => trivial
  | done => trivial

theorem Taking.taken_le {pc : CollectPc} (h : Taking past live pc) : pc.taken ≤ live.length := by
  cases pc with
  | size off => exact List.length_pos_of_ne_nil h.2
  | advance size =>
    obtain ⟨r, rest, rfl, -⟩ := h
    exact Nat.succ_le_succ (Nat.zero_le _)
  | _ => exact Nat.zero_le _

theorem PerfInv.inOrder {p : PerfState × List PerfEvent} (h : PerfInv p) : InOrder p.1 p.2 := by
  obtain ⟨past, live, hring, htaking, hpub, hcons, hsampled, hinside⟩ := h
  have htaken := htaking.taken_le
  have hone := p.1.collect.taken_le_one
  refine ⟨hpub ▸ hsampled, ?_, ⟨past.length, by omega, by omega, ?_⟩, ?_, fun hlt => ?_, hinside⟩
  · rw [hpub, List.length_append]
    omega
  · rw [hpub, List.take_left]
    exact hring.tail
  · rw [hpub, totalSize_append]
    exact hring.head
  · rw [hpub, totalSize_append] at hlt
    rw [hring.head, hring.tail, UInt64.le_iff_toNat_le, toNat_ofNat64 hlt, toNat_ofNat64 (by omega)]
    exact Nat.le_add_right _ _

theorem PerfInv.init (cells : ℕ → UInt8) : PerfInv (PerfState.init cells, []) :=
  ⟨[], [], RingInv.init cells, trivial, rfl, rfl, rfl, nofun⟩

/-! ### The kernel -/

theorem LogInv.publish (h : LogInv past live s log) (htaken : s.collect.taken ≤ live.length) {s' : PerfState}
    (hcollect : s'.collect = s.collect) (hs : s'.sampledAddress = s.sampledAddress) :
    LogInv past (live ++ [r]) s' (log ++ [.publish r]) := by
  obtain ⟨hpub, hcons, hsampled, hinside⟩ := h
  have hsame : consumed (log ++ [.publish r]) = consumed log := consumed_append log [.publish r]
  refine ⟨?_, by rw [hsame, hcollect, hcons], ?_, fun off hoff => ?_⟩
  · rw [published_append, hpub, List.append_assoc]
    rfl
  · have htake : (past ++ live ++ [r]).take (consumed log) = (past ++ live).take (consumed log) := by
      refine List.take_append_of_le_length ?_
      rw [List.length_append]
      omega
    rw [hs, hsampled, hsame, ← List.append_assoc, htake]
  · rcases List.mem_append.mp hoff with hoff | hoff
    · exact hinside off hoff
    · cases List.mem_singleton.mp hoff

theorem LogInv.congr (h : LogInv past live s log) {s' : PerfState} (hcollect : s'.collect = s.collect)
    (hs : s'.sampledAddress = s.sampledAddress) : LogInv past live s' log :=
  ⟨h.published_eq, by rw [hcollect]; exact h.consumed_eq, hs.trans h.sampled, h.inside⟩

theorem perfInv_store {s' : PerfState} (h : PerfInv (s, log)) (hs : s.storeNext = some s') :
    PerfInv (s', log ++ perfEvents s .store) := by
  obtain ⟨past, live, hring, htaking, hlog⟩ := h
  cases hkernel : s.kernel with
  | idle =>
    simp only [PerfState.storeNext, hkernel] at hs
    cases hs
  | storing r k =>
    simp only [PerfState.storeNext, hkernel] at hs
    simp only [perfEvents, hkernel]
    cases hb : r.bytes[k]? with
    | some b =>
      rw [hb] at hs
      cases hs
      rw [if_neg (Option.some_ne_none b), List.append_nil]
      exact ⟨past, live, hring.store hkernel hb, htaking, hlog.congr rfl rfl⟩
    | none =>
      rw [hb] at hs
      cases hs
      rw [if_pos rfl]
      exact ⟨past, live ++ [r], hring.publish hkernel hb, htaking.append [r], hlog.publish htaking.taken_le rfl rfl⟩

/-! ### The sampling thread -/

theorem loads_inside {pc : CollectPc} (h : pc.access.1 + pc.access.2 ≤ dataSize) :
    ∀ off, PerfEvent.load off ∈ loads pc → off < dataSize := fun off hoff => by
  have hmem := mem_loads.mp hoff
  omega

/-- A step that only reads. -/
theorem LogInv.loaded (h : LogInv past live s log) {s' : PerfState} {pc : CollectPc}
    (htaken : s'.collect.taken = s.collect.taken) (hs : s'.sampledAddress = s.sampledAddress)
    (hpc : pc.access.1 + pc.access.2 ≤ dataSize) : LogInv past live s' (log ++ loads pc) := by
  have hsame : consumed (log ++ loads pc) = consumed log := by
    rw [consumed_append, consumed_loads, Nat.add_zero]
  refine ⟨?_, by rw [hsame, htaken, h.consumed_eq], by rw [hs, hsame, h.sampled], fun off hoff => ?_⟩
  · rw [published_append, published_loads, List.append_nil, h.published_eq]
  · exact (List.mem_append.mp hoff).elim (h.inside off) (loads_inside hpc off)

/-- The step that takes up the record `r`. -/
theorem LogInv.consume {rest : List PerfRecord} (h : LogInv past (r :: rest) s log) (hfree : s.collect.taken = 0)
    {s' : PerfState} (htaken : s'.collect.taken = 1) (hs : s'.sampledAddress = s.sampledAddress ++ r.addr.toList) :
    LogInv past (r :: rest) s' (log ++ [.consume]) := by
  obtain ⟨hpub, hcons, hsampled, hinside⟩ := h
  have hnext : consumed (log ++ [.consume]) = past.length + 1 := by
    rw [consumed_append, hcons, hfree]
    rfl
  rw [hfree, Nat.add_zero] at hcons
  refine ⟨?_, by rw [hnext, htaken], ?_, fun off hoff => ?_⟩
  · rw [published_append, hpub]
    exact List.append_nil _
  · rw [hs, hsampled, hnext, hcons, List.take_left, List.take_length_add_append, List.filterMap_append]
    congr 1
  · rcases List.mem_append.mp hoff with hoff | hoff
    · exact hinside off hoff
    · cases List.mem_singleton.mp hoff

/-- A step of the sampling thread that only reads. -/
theorem perfInv_read (hring : RingInv past live s) (hlog : LogInv past live s log) {pc pc' : CollectPc}
    (hpc : s.collect = pc) (htaking : Taking past live pc') (htaken : pc'.taken = pc.taken)
    (hinside : pc.access.1 + pc.access.2 ≤ dataSize) : PerfInv ({ s with collect := pc' }, log ++ loads pc) :=
  ⟨past, live, hring.congr rfl rfl rfl rfl, htaking, hlog.loaded (by rw [hpc]; exact htaken) rfl hinside⟩

theorem perfInv_type {off : ℕ} (hring : RingInv past live s) (htaking : Taking past live (.type off))
    (hlog : LogInv past live s log) (hpc : s.collect = .type off) :
    PerfInv (
      { s with collect := if UInt32.ofNat (s.load (.type off)) = perfRecordSample then .addr off else .size off },
      log ++ (loads (.type off) ++
        if UInt32.ofNat (s.load (.type off)) = perfRecordSample then [] else [.consume])) := by
  obtain ⟨rfl, hne⟩ := htaking
  obtain ⟨r, rest, rfl⟩ := List.exists_cons_of_ne_nil hne
  have hheader := header_fits past
  have hinside : totalSize past % dataSize + 4 ≤ dataSize := by omega
  rw [hring.load_type]
  by_cases htype : r.type = perfRecordSample
  · obtain ⟨misc, ip, addr, rfl⟩ := PerfRecord.type_eq_iff.mp htype
    rw [if_pos htype, if_pos htype, List.append_nil]
    exact perfInv_read hring hlog hpc ⟨rfl, misc, ip, addr, rest, rfl⟩ rfl hinside
  · have hnone : r.addr = none := by
      cases r with
      | sample misc ip addr => exact absurd rfl htype
      | other type misc body => rfl
    have hread : LogInv past (r :: rest) s (log ++ loads (.type (totalSize past % dataSize))) :=
      hlog.loaded rfl rfl hinside
    rw [if_neg htype, if_neg htype, ← List.append_assoc]
    refine ⟨past, _, hring.congr rfl rfl rfl rfl, ⟨rfl, hne⟩, hread.consume (by rw [hpc]; rfl) rfl ?_⟩
    rw [hnone]
    exact (List.append_nil _).symm

theorem perfInv_advance {size : UInt16} (hring : RingInv past live s) (htaking : Taking past live (.advance size))
    (hlog : LogInv past live s log) (hpc : s.collect = .advance size) :
    PerfInv ({ s with dataTail := s.dataTail + size.toUInt64, collect := .test }, log) := by
  obtain ⟨r, rest, rfl, hsize⟩ := htaking
  obtain ⟨hpub, hcons, hsampled, hinside⟩ := hlog
  rw [List.append_cons] at hpub hsampled
  refine ⟨past ++ [r], rest, hring.advance hsize, trivial, hpub, ?_, hsampled, hinside⟩
  rw [hcons, hpc, List.length_append]
  rfl

/-- One case for each place the thread may be at. -/
theorem perfInv_collect {s' : PerfState} (h : PerfInv (s, log)) (hok : inOnePiece s .collect = true)
    (hs : s.collectNext = some s') : PerfInv (s', log ++ perfEvents s .collect) := by
  obtain ⟨past, live, hring, htaking, hlog⟩ := h
  simp only [PerfState.collectNext] at hs
  cases hpc : s.collect with
  | test =>
    simp only [hpc, Option.some.injEq] at hs
    simp only [perfEvents, hpc]
    subst hs
    refine perfInv_read hring hlog hpc ?_ ?_ (Nat.zero_le _)
    · split <;> trivial
    · split <;> rfl
  | poll =>
    simp only [hpc, Option.some.injEq] at hs
    simp only [perfEvents, hpc]
    subst hs
    refine perfInv_read hring hlog hpc ?_ ?_ (Nat.zero_le _)
    · split
      · trivial
      · rename_i hne
        refine ⟨?_, hring.live_ne_nil hne⟩
        rw [hring.tail]
        exact position_mod _ 0
    · split <;> rfl
  | type off =>
    simp only [hpc, Option.some.injEq] at hs
    simp only [perfEvents, hpc]
    rw [hpc] at htaking
    subst hs
    exact perfInv_type hring htaking hlog hpc
  | addr off =>
    simp only [hpc, Option.some.injEq] at hs
    simp only [perfEvents, hpc]
    rw [hpc] at htaking
    obtain ⟨rfl, misc, ip, addr, rest, rfl⟩ := htaking
    simp only [inOnePiece, hpc, decide_eq_true_eq] at hok
    rw [hring.load_addr hok] at hs
    subst hs
    exact perfInv_read hring hlog hpc ⟨rfl, hok, misc, ip, rest, rfl⟩ rfl hok
  | ip off vaddr =>
    simp only [hpc, Option.some.injEq] at hs
    simp only [perfEvents, hpc]
    rw [hpc] at htaking
    obtain ⟨hoff, hfits, hsample⟩ := htaking
    subst hs
    refine perfInv_read hring hlog hpc ⟨hoff, hsample⟩ rfl ?_
    show off + 8 + 8 ≤ dataSize
    omega
  | push off vaddr =>
    simp only [hpc, Option.some.injEq] at hs
    simp only [perfEvents, hpc]
    rw [hpc] at htaking
    obtain ⟨hoff, misc, ip, rest, rfl⟩ := htaking
    subst hs
    exact ⟨past, _, hring.congr rfl rfl rfl rfl, ⟨hoff, List.cons_ne_nil _ _⟩, hlog.consume (by rw [hpc]; rfl) rfl rfl⟩
  | size off =>
    simp only [hpc, Option.some.injEq] at hs
    simp only [perfEvents, hpc]
    rw [hpc] at htaking
    obtain ⟨rfl, hne⟩ := htaking
    obtain ⟨r, rest, rfl⟩ := List.exists_cons_of_ne_nil hne
    have hsize := hring.load_size
    subst hs
    exact perfInv_read hring hlog hpc ⟨r, rest, rfl, hsize⟩ rfl (header_fits past)
  | advance size =>
    simp only [hpc, Option.some.injEq] at hs
    simp only [perfEvents, hpc]
    rw [hpc] at htaking
    subst hs
    have hnone : loads (.advance size) = [] := rfl
    rw [hnone, List.append_nil]
    exact perfInv_advance hring htaking hlog hpc
  | done =>
    simp only [hpc] at hs
    cases hs

theorem perfInv_step {s' : PerfState} {a : PerfAct} (h : PerfInv (s, log)) (hok : inOnePiece s a = true)
    (hs : perf s a = some s') : PerfInv (s', log ++ perfEvents s a) := by
  cases a with
  | output r =>
    obtain ⟨past, live, hring, htaking, hlog⟩ := h
    simp only [perf] at hs
    split at hs
    · split at hs
      · rename_i hroom
        cases hs
        rw [perfEvents, List.append_nil]
        exact ⟨past, live, hring.output hroom, htaking, hlog.congr rfl rfl⟩
      · cases hs
    · cases hs
  | store => exact perfInv_store h hs
  | collect => exact perfInv_collect h hok hs
  | terminate =>
    obtain ⟨past, live, hring, htaking, hlog⟩ := h
    cases hs
    rw [perfEvents, List.append_nil]
    exact ⟨past, live, hring.congr rfl rfl rfl rfl, htaking, hlog.congr rfl rfl⟩

theorem perfInv_of_reach {cells : ℕ → UInt8} {p : PerfState × List PerfEvent}
    (h : Reach (logged perfEvents (provided inOnePiece perf)) (PerfState.init cells, []) p) : PerfInv p := by
  refine h.invariant (PerfInv.init cells) fun u a v hu ha => ?_
  obtain ⟨hstep, hlog⟩ := logged_eq_some.mp ha
  obtain ⟨hok, hstep⟩ := provided_eq_some.mp hstep
  have hv := perfInv_step hu hok hstep
  rwa [← hlog] at hv

/-- A step that reads the address of a sample going round the end. -/
theorem not_inOrder_of_step {p q : PerfState × List PerfEvent} {a : PerfAct} (hok : inOnePiece p.1 a = false)
    (hs : logged perfEvents perf p a = some q) : ¬ InOrder q.1 q.2 := by
  intro h
  obtain ⟨-, hlog⟩ := logged_eq_some.mp hs
  cases a with
  | collect =>
    simp only [inOnePiece] at hok
    split at hok
    · rename_i off hpc
      rw [decide_eq_false_iff_not] at hok
      have hmem : PerfEvent.load (off + 23) ∈ q.2 := by
        rw [hlog]
        simp only [perfEvents, hpc]
        refine List.mem_append_right _ (mem_loads.mpr ⟨?_, ?_⟩)
        · exact Nat.add_le_add_left (by decide) off
        · exact Nat.lt_succ_self _
      have hlt := h.inside _ hmem
      omega
    · cases hok
  | _ => cases hok

/-! ## A stream of samples -/

/-- The kernel stores the rest of a record and publishes it. -/
theorem reach_publish {k : ℕ} (n : ℕ) (h : RingInv past live s) (hkernel : s.kernel = .storing r k)
    (hn : k + n = r.size) :
    ∃ s', Reach perf s s' ∧ RingInv past (live ++ [r]) s' ∧ s'.kernel = .idle ∧ s'.collect = s.collect ∧
      s'.shouldTerminate = s.shouldTerminate := by
  have hlen := r.length_bytes
  induction n generalizing s k with
  | zero =>
    have hb : r.bytes[k]? = none := List.getElem?_eq_none (by omega)
    have hstep : perf s .store = some { s with dataHead := s.dataHead + UInt64.ofNat r.size, kernel := .idle } := by
      simp only [perf, PerfState.storeNext, hkernel, hb]
    exact ⟨_, (Reach.refl _ _).tail hstep, h.publish hkernel hb, rfl, rfl, rfl⟩
  | succ n ih =>
    have hk : k < r.bytes.length := by omega
    have hb : r.bytes[k]? = some r.bytes[k] := List.getElem?_eq_getElem hk
    have hstep : perf s .store = some { s with
        cells := Function.update s.cells ((s.dataHead.toNat + k) % dataSize) r.bytes[k]
        kernel := .storing r (k + 1) } := by
      simp only [perf, PerfState.storeNext, hkernel, hb]
    obtain ⟨s', hreach, hs'⟩ := ih (h.store hkernel hb) rfl (by omega)
    exact ⟨s', hreach.head hstep, hs'⟩

theorem reach_output (r : PerfRecord) (h : RingInv past live s) (hkernel : s.kernel = .idle)
    (hroom : totalSize live + r.size ≤ dataSize) :
    ∃ s', Reach perf s s' ∧ RingInv past (live ++ [r]) s' ∧ s'.kernel = .idle ∧ s'.collect = s.collect ∧
      s'.shouldTerminate = s.shouldTerminate := by
  rw [← h.head_sub_tail] at hroom
  have hstep : perf s (.output r) = some { s with kernel := .storing r 0 } := by
    simp only [perf, hkernel, if_pos hroom]
  obtain ⟨s', hreach, hs'⟩ := reach_publish r.size (h.output hroom) rfl (Nat.zero_add _)
  exact ⟨s', hreach.head hstep, hs'⟩

section Sample
variable {misc : UInt16} {ip addr : UInt64} {rest : List PerfRecord}

theorem reach_addr (h : RingInv past (.sample misc ip addr :: rest) s) (hcollect : s.collect = .test)
    (hgo : s.shouldTerminate = false) : Reach perf s { s with collect := .addr (totalSize past % dataSize) } := by
  have hne : s.dataHead ≠ s.dataTail := by
    intro heq
    have hsub := h.head_sub_tail
    rw [heq, sub_self, totalSize_cons] at hsub
    have hsize := (PerfRecord.sample misc ip addr).eight_le_size
    have hzero : (0 : UInt64).toNat = 0 := rfl
    omega
  have hoff : s.dataTail.toNat % dataSize = totalSize past % dataSize := by
    rw [h.tail]
    exact position_mod _ 0
  have htest : perf s .collect = some { s with collect := .poll } := by
    simp [perf, PerfState.collectNext, hcollect, hgo]
  have hpoll : perf { s with collect := .poll } .collect =
      some { s with collect := .type (totalSize past % dataSize) } := by
    simp only [perf, PerfState.collectNext, if_neg hne, hoff]
  have htype : perf { s with collect := .type (totalSize past % dataSize) } .collect =
      some { s with collect := .addr (totalSize past % dataSize) } := by
    have hload : UInt32.ofNat (s.load (.type (totalSize past % dataSize))) = perfRecordSample := h.load_type
    exact congrArg some (congrArg (fun pc => { s with collect := pc }) (if_pos hload))
  exact (((Reach.refl _ _).tail htest).tail hpoll).tail htype

/-- The thread takes up a sample that lies in one piece. -/
theorem reach_taken (h : RingInv past (.sample misc ip addr :: rest) s) (hcollect : s.collect = .test)
    (hgo : s.shouldTerminate = false) (hfits : totalSize past % dataSize + 24 ≤ dataSize) :
    ∃ s', Reach perf s s' ∧ RingInv (past ++ [.sample misc ip addr]) rest s' ∧ s'.kernel = s.kernel ∧
      s'.collect = .test ∧ s'.shouldTerminate = false := by
  have haddr : perf { s with collect := .addr (totalSize past % dataSize) } .collect =
      some { s with collect := .ip (totalSize past % dataSize) addr } := by
    have hload : UInt64.ofNat (s.load (.addr (totalSize past % dataSize))) = addr := h.load_addr hfits
    exact congrArg some (congrArg (fun v => { s with collect := .ip (totalSize past % dataSize) v }) hload)
  have hip : perf { s with collect := .ip (totalSize past % dataSize) addr } .collect =
      some { s with collect := .push (totalSize past % dataSize) addr } := rfl
  have hpush : perf { s with collect := .push (totalSize past % dataSize) addr } .collect =
      some { s with sampledAddress := s.sampledAddress ++ [addr], collect := .size (totalSize past % dataSize) } := rfl
  obtain ⟨size, hsize⟩ : ∃ size, size = UInt16.ofNat (s.load (.size (totalSize past % dataSize))) := ⟨_, rfl⟩
  have hsize' : perf { s with sampledAddress := s.sampledAddress ++ [addr], collect := .size (totalSize past % dataSize) }
      .collect = some { s with sampledAddress := s.sampledAddress ++ [addr], collect := .advance size } := by
    rw [hsize]
    rfl
  have hadvance : perf { s with sampledAddress := s.sampledAddress ++ [addr], collect := .advance size } .collect =
      some { s with
        sampledAddress := s.sampledAddress ++ [addr]
        dataTail := s.dataTail + size.toUInt64
        collect := .test } := rfl
  have hring : RingInv past (.sample misc ip addr :: rest) { s with sampledAddress := s.sampledAddress ++ [addr] } :=
    h.congr rfl rfl rfl rfl
  exact ⟨_, (((((reach_addr h hcollect hgo).tail haddr).tail hip).tail hpush).tail hsize').tail hadvance,
    hring.advance (hsize ▸ h.load_size), rfl, rfl, hgo⟩

end Sample

theorem totalSize_replicate (n : ℕ) : totalSize (List.replicate n (.sample 0 0 1)) = 24 * n := by
  simp [totalSize, PerfRecord.size, Nat.mul_comm]

theorem reach_samples (cells : ℕ → UInt8) {n : ℕ} (hn : 24 * n ≤ dataSize) :
    ∃ s, Reach perf (PerfState.init cells) s ∧ RingInv (List.replicate n (.sample 0 0 1)) [] s ∧ s.kernel = .idle ∧
      s.collect = .test ∧ s.shouldTerminate = false := by
  induction n with
  | zero => exact ⟨_, Reach.refl _ _, RingInv.init cells, rfl, rfl, rfl⟩
  | succ n ih =>
    obtain ⟨s, hs, hring, hkernel, hcollect, hgo⟩ := ih (by omega)
    obtain ⟨t, ht, hring', hkernel', hcollect', hgo'⟩ := reach_output (.sample 0 0 1) hring hkernel (by decide)
    have hfits : totalSize (List.replicate n (.sample 0 0 1)) % dataSize + 24 ≤ dataSize := by
      rw [totalSize_replicate, Nat.mod_eq_of_lt (by omega)]
      omega
    obtain ⟨u, hu, hring'', hkernel'', hcollect'', hgo''⟩ :=
      reach_taken hring' (hcollect'.trans hcollect) (hgo'.trans hgo) hfits
    rw [← List.replicate_succ'] at hring''
    exact ⟨u, (hs.trans ht).trans hu, hring'', hkernel''.trans hkernel', hcollect'', hgo''⟩

/-- Every run reads the samples in order as long as each sample that is taken up lies in one piece, and no longer. -/
theorem inOrder_of_inOnePiece (cells : ℕ → UInt8) :
    (∀ p, Reach (logged perfEvents (provided inOnePiece perf)) (PerfState.init cells, []) p → InOrder p.1 p.2) ∧
      ∀ p a q, Reach (logged perfEvents perf) (PerfState.init cells, []) p → inOnePiece p.1 a = false →
        logged perfEvents perf p a = some q → ¬ InOrder q.1 q.2 :=
  ⟨fun _ hp => (perfInv_of_reach hp).inOrder, fun _ _ _ _ hok hs => not_inOrder_of_step hok hs⟩

/-- 24 does not divide the size: of a stream of samples, number 11184811 starts 16 bytes before the end. -/
theorem not_inOrder : ¬ ∀ (cells : ℕ → UInt8) (p : PerfState × List PerfEvent),
    Reach (logged perfEvents perf) (PerfState.init cells, []) p → InOrder p.1 p.2 := by
  intro h
  obtain ⟨s, hs, hring, hkernel, hcollect, hgo⟩ := reach_samples (fun _ => 0) (show 24 * 11184810 ≤ dataSize by decide)
  obtain ⟨t, ht, hring', -, hcollect', hgo'⟩ := reach_output (.sample 0 0 1) hring hkernel (by decide)
  have haddr := reach_addr hring' (hcollect'.trans hcollect) (hgo'.trans hgo)
  rw [totalSize_replicate] at haddr
  obtain ⟨log, hlog⟩ := ((hs.trans ht).trans haddr).logged perfEvents []
  have hstep : logged perfEvents perf ({ t with collect := .addr (24 * 11184810 % dataSize) }, log) .collect =
      some _ := rfl
  have hend : inOnePiece { t with collect := .addr (24 * 11184810 % dataSize) } .collect = false :=
    decide_eq_false (show ¬ 24 * 11184810 % dataSize + 24 ≤ dataSize by decide)
  exact not_inOrder_of_step (p := (_, log)) hend hstep (h _ _ (hlog.tail hstep))

end Inv

end GraphBenchmark
