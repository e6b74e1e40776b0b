import GraphBenchmark.Degree.Mapping
import Mathlib.Data.List.Dedup
import Mathlib.Data.List.Perm.Subperm

/-! # The relabelled file

The mapping is injective on the endpoints and without gaps, and the output is the input with the mapping applied,
whenever the script gets to its end. -/
namespace GraphBenchmark
open Bytes Positions
set_option autoImplicit false

/-! ## Writing and reading back -/

def packed (byteorder : ByteOrder) (e : ℕ × ℕ) : List UInt8 := toBytes byteorder 4 e.1 ++ toBytes byteorder 4 e.2

section Records
variable {byteorder : ByteOrder} {ids : List (ℕ × ℕ)} {e : ℕ × ℕ} {i : ℕ}

theorem packed_length (byteorder : ByteOrder) (e : ℕ × ℕ) : (packed byteorder e).length = 8 := by
  rw [packed, List.length_append, length_toBytes, length_toBytes]

theorem flatMap_packed_length (byteorder : ByteOrder) (ids : List (ℕ × ℕ)) :
    (ids.flatMap (packed byteorder)).length = 8 * ids.length := by
  induction ids with
  | nil => rfl
  | cons e ids ih =>
    rw [List.flatMap_cons, List.length_append, packed_length, ih, List.length_cons]
    omega

theorem writeRecords_map (byteorder : ByteOrder) (ids : List (ℕ × ℕ)) :
    writeRecords byteorder (ids.map fun e => (some e.1, some e.2)) =
      if ∀ e ∈ ids, e.1 < 2 ^ 32 ∧ e.2 < 2 ^ 32 then some (ids.flatMap (packed byteorder)) else none := by
  induction ids with
  | nil => rfl
  | cons e ids ih =>
    unfold writeRecords at ih ⊢
    rw [List.map_cons, List.mapM_cons, packRecord]
    by_cases he : e.1 < 2 ^ 32 ∧ e.2 < 2 ^ 32
    · rw [if_pos he]
      have hall : (∀ e' ∈ e :: ids, e'.1 < 2 ^ 32 ∧ e'.2 < 2 ^ 32) ↔ ∀ e' ∈ ids, e'.1 < 2 ^ 32 ∧ e'.2 < 2 ^ 32 := by
        rw [List.forall_mem_cons]
        exact and_iff_right he
      simp only [hall]
      split at ih
      · rename_i hids
        obtain ⟨bs, hbs, hflat⟩ := Option.map_eq_some_iff.mp ih
        rw [if_pos hids, hbs]
        show some (packed byteorder e :: bs).flatten = _
        rw [List.flatten_cons, hflat, List.flatMap_cons]
      · rename_i hids
        rw [if_neg hids, Option.map_eq_none_iff.mp ih]
        rfl
    · rw [if_neg he, if_neg (fun h => he (h e List.mem_cons_self))]
      rfl

theorem drop_flatMap {α β : Type*} {f : α → List β} {k : ℕ} (hf : ∀ a, (f a).length = k) (l : List α) (i : ℕ) :
    (l.flatMap f).drop (k * i) = (l.drop i).flatMap f := by
  induction l generalizing i with
  | nil => simp
  | cons a l ih =>
    cases i with
    | zero => rfl
    | succ i =>
      rw [List.flatMap_cons, Nat.mul_succ, Nat.add_comm, ← List.drop_drop, List.drop_left' (hf a), List.drop_succ_cons,
        ih]

theorem recordAt_flatMap (byteorder : ByteOrder) (hi : ids[i]? = some e) (he : e.1 < 2 ^ 32 ∧ e.2 < 2 ^ 32) :
    recordAt byteorder (ids.flatMap (packed byteorder)) i = e := by
  obtain ⟨hlt, hget⟩ := List.getElem?_eq_some_iff.mp hi
  have hbytes : ((ids.flatMap (packed byteorder)).drop (8 * i)).take 8 = packed byteorder e := by
    rw [drop_flatMap (packed_length byteorder), List.drop_eq_getElem_cons hlt, hget, List.flatMap_cons,
      List.take_left' (packed_length byteorder e)]
  have h4 : (toBytes byteorder 4 e.1).length = 4 := length_toBytes _ _ _
  dsimp only [recordAt]
  rw [hbytes, packed, List.take_left' h4, List.drop_left' h4, fromBytes_toBytes he.1, fromBytes_toBytes he.2]

theorem recordAt_lt (byteorder : ByteOrder) (file : List UInt8) (i : ℕ) :
    (recordAt byteorder file i).1 < 2 ^ 32 ∧ (recordAt byteorder file i).2 < 2 ^ 32 := by
  have hbound : ∀ bs : List UInt8, bs.length ≤ 4 → fromBytes byteorder bs < 2 ^ 32 := fun bs hbs =>
    (fromBytes_lt byteorder bs).trans_le (Nat.pow_le_pow_right (by decide) hbs)
  constructor
  · refine hbound _ ?_
    rw [List.length_take]
    omega
  · refine hbound _ ?_
    rw [List.length_drop, List.length_take]
    omega

end Records

/-! ## The mapping of a run -/

theorem nodup_length_le {b : ℕ} {l : List ℕ} (hl : l.Nodup) (hb : ∀ v ∈ l, v < b) : l.length ≤ b := by
  have hle := (List.subperm_of_subset hl fun v hv => List.mem_range.mpr (hb v hv)).length_le
  rwa [List.length_range] at hle

theorem mem_of_nodup_length {b : ℕ} {l : List ℕ} (hl : l.Nodup) (hb : ∀ v ∈ l, v < b) (hlen : b ≤ l.length) {v : ℕ}
    (hv : v < b) : v ∈ l := by
  have hsub := List.subperm_of_subset hl fun v hv => List.mem_range.mpr (hb v hv)
  have hperm := hsub.perm_of_length_le (by rwa [List.length_range])
  exact hperm.mem_iff.mpr (List.mem_range.mpr hv)

/-- The endpoints of the edges, with repetitions. -/
def endpoints (edges : List (ℕ × ℕ)) : List ℕ := edges.map Prod.fst ++ edges.map Prod.snd

/-- The final state numbers the endpoints by their positions in `l`. -/
structure Final (args : DegreeArgs) (edges : List (ℕ × ℕ)) (keep : Bool) (l : List ℕ) (s : DegreeState) : Prop where
  issued : Issued args keep l s
  keep_iff : keep = true ↔ args.maintain = true ∧ 0 ∈ edges.map (keyOf args)
  mem_iff : ∀ v, v ∈ endpoints edges ↔ v ∈ l ∨ (keep = true ∧ v = 0)
  output : s.sortedOutput = edges.map fun e => (s.mapping e.1, s.mapping e.2)

/-- With `-m`, vertex `0` is not keyed and all `b` vertices occur: id `0` stays unused, so the last id is `b`. -/
def OutOfIds (b : ℕ) (args : DegreeArgs) (edges : List (ℕ × ℕ)) : Prop :=
  args.maintain = true ∧ 0 ∉ edges.map (keyOf args) ∧ ∀ v < b, v ∈ endpoints edges

section Run
variable {args : DegreeArgs} {edges : List (ℕ × ℕ)} {keep : Bool} {l : List ℕ} {s : DegreeState} {v : ℕ}

theorem key_mem_endpoints (h : v ∈ edges.map (keyOf args)) : v ∈ endpoints edges := by
  obtain ⟨e, he, rfl⟩ := List.mem_map.mp h
  unfold keyOf endpoints
  rw [List.mem_append]
  split
  · exact Or.inr (List.mem_map_of_mem he)
  · exact Or.inl (List.mem_map_of_mem he)

/-- The list behind the ids starts with the keyed vertices in sorted order. -/
theorem numberEdges_final (args : DegreeArgs) (edges : List (ℕ × ℕ)) :
    ∃ l', Final args edges (args.maintain && decide (0 ∈ sortedKeys args edges))
      (((sortedKeys args edges).filter fun v => ¬ (args.maintain ∧ v = 0)) ++ l') (numberEdges args edges) := by
  have hkeyed := (issued_init args).keyed (sortedKeys args edges) nodup_sortedKeys fun _ _ => rfl
  rw [Bool.false_or, List.nil_append] at hkeyed
  have hemitted := hkeyed.emitted edges
  obtain ⟨l', hissued, hl'⟩ := hemitted.issued
  refine ⟨l', hissued, ?_, fun v => ⟨fun hv => ?_, ?_⟩, ?_⟩
  · rw [Bool.and_eq_true, decide_eq_true_iff, mem_sortedKeys]
  · have hdefined : (edges.foldl emitEdge ((sortedKeys args edges).foldl (numberKeyed args) (DegreeState.init args))).mapping v ≠
        none := by
      rcases List.mem_append.mp hv with hv | hv
      · obtain ⟨e, he, rfl⟩ := List.mem_map.mp hv
        exact (hemitted.new e he).1
      · obtain ⟨e, he, rfl⟩ := List.mem_map.mp hv
        exact (hemitted.new e he).2
    rw [Ne, hissued.mapping_eq_none_iff] at hdefined
    by_contra hnot
    exact hdefined (not_or.mp hnot)
  · rintro (hv | ⟨hkeep, rfl⟩)
    · rcases List.mem_append.mp hv with hv | hv
      · exact key_mem_endpoints (mem_sortedKeys.mp (List.mem_of_mem_filter hv))
      · exact List.mem_append.mpr (hl' v hv)
    · rw [Bool.and_eq_true, decide_eq_true_iff, mem_sortedKeys] at hkeep
      exact key_mem_endpoints hkeep.2
  · have hout := hemitted.output
    rw [keyed_output] at hout
    exact hout

namespace Final
variable (h : Final args edges keep l s)
include h

theorem firstId_pos (hk : keep = true) : firstId args = 1 := if_pos (h.issued.maintain hk)

theorem injective {u : ℕ} (hu : u ∈ endpoints edges) (heq : s.mapping u = s.mapping v) : u = v := by
  rw [h.issued.mapping, h.issued.mapping] at heq
  by_cases hu0 : keep = true ∧ u = 0
  · by_cases hv0 : keep = true ∧ v = 0
    · rw [hu0.2, hv0.2]
    · rw [if_pos hu0, if_neg hv0] at heq
      have hle := (numbered_lt heq.symm).1
      rw [h.firstId_pos hu0.1] at hle
      omega
  · rw [if_neg hu0] at heq
    by_cases hv0 : keep = true ∧ v = 0
    · rw [if_pos hv0] at heq
      have hle := (numbered_lt heq).1
      rw [h.firstId_pos hv0.1] at hle
      omega
    · rw [if_neg hv0] at heq
      exact numbered_inj (((h.mem_iff u).mp hu).resolve_right hu0) heq

theorem defined (hv : v ∈ endpoints edges) : s.mapping v ≠ none := by
  rw [Ne, h.issued.mapping_eq_none_iff]
  intro hnot
  exact ((h.mem_iff v).mp hv).elim hnot.1 hnot.2

theorem keep_eq_false (hm : args.maintain = false) : keep = false := by
  cases hk : keep with
  | false => rfl
  | true =>
    have hm' := h.issued.maintain hk
    rw [hm] at hm'
    cases hm'

theorem mem_iff_of_not_keep (hk : keep = false) : v ∈ endpoints edges ↔ v ∈ l := by
  rw [h.mem_iff v, hk]
  simp

theorem length_dedup : (endpoints edges).dedup.length = l.length + if keep then 1 else 0 := by
  have hperm : (endpoints edges).dedup.Perm (if keep then 0 :: l else l) := by
    refine (List.perm_ext_iff_of_nodup (List.nodup_dedup _) ?_).mpr fun v => ?_
    · split
      · rename_i hk
        exact List.nodup_cons.mpr ⟨h.issued.zero hk, h.issued.nodup⟩
      · exact h.issued.nodup
    · rw [List.mem_dedup, h.mem_iff v]
      cases keep with
      | false => simp
      | true => simp [or_comm]
  rw [hperm.length_eq]
  split <;> rfl

theorem compact (hm : args.maintain = false) (i : ℕ) :
    (∃ v ∈ endpoints edges, s.mapping v = some i) ↔ i < (endpoints edges).dedup.length := by
  have hk := h.keep_eq_false hm
  have hfirst : firstId args = 0 := by
    unfold firstId
    rw [if_neg (by simp [hm])]
  have hlength := h.length_dedup
  have hmapping : ∀ v, s.mapping v = numbered 0 l v := fun v => by
    rw [h.issued.mapping v, hk, hfirst]
    simp
  rw [hk, if_neg Bool.false_ne_true, Nat.add_zero] at hlength
  rw [hlength]
  constructor
  · rintro ⟨v, -, hv⟩
    rw [hmapping v] at hv
    have hlt := (numbered_lt hv).2
    omega
  · intro hi
    obtain ⟨v, hv, hid⟩ := exists_numbered (c := 0) h.issued.nodup (Nat.zero_le i) (by omega)
    exact ⟨v, (h.mem_iff_of_not_keep hk).mpr hv, (hmapping v).trans hid⟩

/-! ## Running out of ids -/

variable {b : ℕ} (hb : ∀ v ∈ endpoints edges, v < b)
include hb

theorem length_le : l.length ≤ b :=
  nodup_length_le h.issued.nodup fun v hv => hb v ((h.mem_iff v).mpr (Or.inl hv))

theorem id_lt (hnot : ¬ OutOfIds b args edges) {i : ℕ} (hi : s.mapping v = some i) (hv : v ∈ endpoints edges) :
    i < b := by
  have hpos := hb v hv
  rw [h.issued.mapping v] at hi
  by_cases hzero : keep = true ∧ v = 0
  · rw [if_pos hzero] at hi
    have := Option.some.inj hi
    omega
  · rw [if_neg hzero] at hi
    have hlt := (numbered_lt hi).2
    have hle := h.length_le hb
    rcases Nat.lt_or_ge l.length b with hlen | hlen
    · have hfirst : firstId args ≤ 1 := by
        unfold firstId
        split <;> omega
      omega
    · -- all vertices are in `l`, vertex `0` too
      have hall : ∀ u < b, u ∈ l := fun u hu =>
        mem_of_nodup_length h.issued.nodup (fun w hw => hb w ((h.mem_iff w).mpr (Or.inl hw))) hlen hu
      have hkeep : keep ≠ true := fun hk => h.issued.zero hk (hall 0 (by omega))
      have hm : args.maintain ≠ true := fun hm =>
        hnot ⟨hm, fun hkey => hkeep (h.keep_iff.mpr ⟨hm, hkey⟩), fun u hu => (h.mem_iff u).mpr (Or.inl (hall u hu))⟩
      have hfirst : firstId args = 0 := if_neg hm
      omega

theorem exists_id_eq (hpos : 0 < b) (hout : OutOfIds b args edges) : ∃ v ∈ endpoints edges, s.mapping v = some b := by
  obtain ⟨hm, hkey, hall⟩ := hout
  have hk : keep = false := by
    cases hk : keep with
    | false => rfl
    | true => exact absurd (h.keep_iff.mp hk).2 hkey
  have hlen : b ≤ l.length := by
    have hsub : List.range b ⊆ l := fun u hu => (h.mem_iff_of_not_keep hk).mp (hall u (List.mem_range.mp hu))
    have hle := (List.subperm_of_subset List.nodup_range hsub).length_le
    rwa [List.length_range] at hle
  have hle := h.length_le hb
  have hfirst : firstId args = 1 := if_pos hm
  obtain ⟨v, hv, hid⟩ := exists_numbered (c := 1) (i := b) h.issued.nodup (by omega) (by omega)
  refine ⟨v, (h.mem_iff_of_not_keep hk).mpr hv, ?_⟩
  rw [h.issued.mapping v, hk, hfirst, hid]
  simp

end Final

end Run

/-! ## The script -/

/-- The mapping is defined and injective on the endpoints, its ids have no gaps without `-m`, and the output is the
input relabelled. -/
structure DegreeRelabels (byteorder : ByteOrder) (args : DegreeArgs) (file : List UInt8) (r : DegreeResult) : Prop where
  defined : ∀ v ∈ endpoints (readRecords byteorder file), r.mapping v ≠ none
  injective : ∀ u ∈ endpoints (readRecords byteorder file), ∀ v ∈ endpoints (readRecords byteorder file),
    r.mapping u = r.mapping v → u = v
  length : r.output.length = file.length
  record : ∀ i < file.length / 8,
    r.mapping (recordAt byteorder file i).1 = some (recordAt byteorder r.output i).1 ∧
      r.mapping (recordAt byteorder file i).2 = some (recordAt byteorder r.output i).2
  compact : args.maintain = false → ∀ i,
    (∃ v ∈ endpoints (readRecords byteorder file), r.mapping v = some i) ↔
      i < (endpoints (readRecords byteorder file)).dedup.length

section Script
variable {byteorder : ByteOrder} {args : DegreeArgs} {file : List UInt8}

theorem endpoints_lt : ∀ v ∈ endpoints (readRecords byteorder file), v < 2 ^ 32 := by
  intro v hv
  rcases List.mem_append.mp hv with hv | hv
  · obtain ⟨e, he, rfl⟩ := List.mem_map.mp hv
    obtain ⟨i, -, rfl⟩ := List.mem_map.mp he
    exact (recordAt_lt byteorder file i).1
  · obtain ⟨e, he, rfl⟩ := List.mem_map.mp hv
    obtain ⟨i, -, rfl⟩ := List.mem_map.mp he
    exact (recordAt_lt byteorder file i).2

/-- The records of the output, as numbers. -/
def newRecords (s : DegreeState) (edges : List (ℕ × ℕ)) : List (ℕ × ℕ) :=
  edges.map fun e => ((s.mapping e.1).getD 0, (s.mapping e.2).getD 0)

theorem sortedOutput_eq {edges : List (ℕ × ℕ)} {keep : Bool} {l : List ℕ} {s : DegreeState}
    (h : Final args edges keep l s) :
    s.sortedOutput = (newRecords s edges).map fun e => (some e.1, some e.2) := by
  rw [h.output, newRecords, List.map_map]
  refine List.map_congr_left fun e he => ?_
  have hsrc := h.defined (v := e.1) (List.mem_append_left _ (List.mem_map_of_mem he))
  have hdst := h.defined (v := e.2) (List.mem_append_right _ (List.mem_map_of_mem he))
  obtain ⟨i, hi⟩ := Option.ne_none_iff_exists'.mp hsrc
  obtain ⟨j, hj⟩ := Option.ne_none_iff_exists'.mp hdst
  simp only [Function.comp, hi, hj, Option.getD_some]

/-- The script ends normally exactly when all new ids fit in 32 bits. -/
theorem degreePy_eq {s : DegreeState} (hs : s = numberEdges args (readRecords byteorder file)) (hfile : file ≠ []) :
    degreePy byteorder args file =
      if ∀ e ∈ newRecords s (readRecords byteorder file), e.1 < 2 ^ 32 ∧ e.2 < 2 ^ 32 then
        .ok ⟨s.mapping, (newRecords s (readRecords byteorder file)).flatMap (packed byteorder)⟩
      else .error .structError := by
  obtain ⟨l', hfinal⟩ := numberEdges_final args (readRecords byteorder file)
  rw [← hs] at hfinal
  have hwrite := writeRecords_map byteorder (newRecords s (readRecords byteorder file))
  rw [← sortedOutput_eq hfinal] at hwrite
  simp only [degreePy, if_neg hfile, ← hs]
  by_cases hids : ∀ e ∈ newRecords s (readRecords byteorder file), e.1 < 2 ^ 32 ∧ e.2 < 2 ^ 32
  · rw [if_pos hids] at hwrite ⊢
    simp only [hwrite]
  · rw [if_neg hids] at hwrite ⊢
    simp only [hwrite]

theorem newRecords_lt_iff {edges : List (ℕ × ℕ)} {keep : Bool} {l : List ℕ} {s : DegreeState}
    (h : Final args edges keep l s) (hb : ∀ v ∈ endpoints edges, v < 2 ^ 32) :
    (∀ e ∈ newRecords s edges, e.1 < 2 ^ 32 ∧ e.2 < 2 ^ 32) ↔ ¬ OutOfIds (2 ^ 32) args edges := by
  constructor
  · intro hids hout
    obtain ⟨v, hv, hid⟩ := h.exists_id_eq hb (by decide) hout
    rcases List.mem_append.mp hv with hv | hv
    · obtain ⟨e, he, rfl⟩ := List.mem_map.mp hv
      have hlt := (hids _ (List.mem_map_of_mem he)).1
      rw [hid] at hlt
      exact absurd hlt (Nat.lt_irrefl _)
    · obtain ⟨e, he, rfl⟩ := List.mem_map.mp hv
      have hlt := (hids _ (List.mem_map_of_mem he)).2
      rw [hid] at hlt
      exact absurd hlt (Nat.lt_irrefl _)
  · intro hnot e he
    obtain ⟨e, hmem, rfl⟩ := List.mem_map.mp he
    have hlt : ∀ v ∈ endpoints edges, (s.mapping v).getD 0 < 2 ^ 32 := by
      intro v hv
      obtain ⟨i, hi⟩ := Option.ne_none_iff_exists'.mp (h.defined hv)
      rw [hi]
      exact h.id_lt hb hnot hi hv
    exact ⟨hlt _ (List.mem_append_left _ (List.mem_map_of_mem hmem)),
      hlt _ (List.mem_append_right _ (List.mem_map_of_mem hmem))⟩

theorem readRecords_length (hwhole : file.length % 8 = 0) : (readRecords byteorder file).length = file.length / 8 := by
  rw [readRecords, List.length_map, List.length_range]
  omega

theorem readRecords_getElem? (byteorder : ByteOrder) (hwhole : file.length % 8 = 0) {i : ℕ} (hi : i < file.length / 8) :
    (readRecords byteorder file)[i]? = some (recordAt byteorder file i) := by
  rw [readRecords, List.getElem?_map, List.getElem?_range (by omega)]
  rfl

theorem degreeRelabels_of_final {keep : Bool} {l : List ℕ} {s : DegreeState} (hwhole : file.length % 8 = 0)
    (h : Final args (readRecords byteorder file) keep l s)
    (hids : ∀ e ∈ newRecords s (readRecords byteorder file), e.1 < 2 ^ 32 ∧ e.2 < 2 ^ 32) :
    DegreeRelabels byteorder args file
      ⟨s.mapping, (newRecords s (readRecords byteorder file)).flatMap (packed byteorder)⟩ := by
  refine ⟨fun v hv => h.defined hv, fun u hu v _ heq => h.injective hu heq, ?_, fun i hi => ?_,
    fun hm i => h.compact hm i⟩
  · show ((newRecords s (readRecords byteorder file)).flatMap (packed byteorder)).length = file.length
    rw [flatMap_packed_length, newRecords, List.length_map, readRecords_length hwhole]
    omega
  · have hrec := readRecords_getElem? byteorder hwhole hi
    have hnew : (newRecords s (readRecords byteorder file))[i]? =
        some ((s.mapping (recordAt byteorder file i).1).getD 0, (s.mapping (recordAt byteorder file i).2).getD 0) := by
      rw [newRecords, List.getElem?_map, hrec]
      rfl
    have hmem := List.mem_of_getElem? hrec
    obtain ⟨j, hj⟩ := Option.ne_none_iff_exists'.mp
      (h.defined (v := (recordAt byteorder file i).1) (List.mem_append_left _ (List.mem_map_of_mem hmem)))
    obtain ⟨k, hk⟩ := Option.ne_none_iff_exists'.mp
      (h.defined (v := (recordAt byteorder file i).2) (List.mem_append_right _ (List.mem_map_of_mem hmem)))
    have hout := recordAt_flatMap byteorder hnew (hids _ (List.mem_of_getElem? hnew))
    show
      s.mapping _ =
        some (recordAt byteorder ((newRecords s (readRecords byteorder file)).flatMap (packed byteorder)) i).1 ∧
      s.mapping _ =
        some (recordAt byteorder ((newRecords s (readRecords byteorder file)).flatMap (packed byteorder)) i).2
    rw [hout, hj, hk]
    exact ⟨rfl, rfl⟩

theorem readRecords_flatMap {ids : List (ℕ × ℕ)} (hids : ∀ e ∈ ids, e.1 < 2 ^ 32 ∧ e.2 < 2 ^ 32) :
    readRecords byteorder (ids.flatMap (packed byteorder)) = ids := by
  have hlength := flatMap_packed_length byteorder ids
  have hcount : (readRecords byteorder (ids.flatMap (packed byteorder))).length = ids.length := by
    rw [readRecords_length (by omega), hlength]
    omega
  refine List.ext_getElem? fun i => ?_
  by_cases hi : i < ids.length
  · rw [readRecords_getElem? byteorder (by omega) (by omega), List.getElem?_eq_getElem hi,
      recordAt_flatMap byteorder (List.getElem?_eq_getElem hi) (hids _ (List.getElem_mem hi))]
  · rw [List.getElem?_eq_none (by omega), List.getElem?_eq_none (by omega)]

theorem not_outOfIds_of_ok {r : DegreeResult} (hr : degreePy byteorder args file = .ok r) :
    file ≠ [] ∧ ¬ OutOfIds (2 ^ 32) args (readRecords byteorder file) := by
  obtain ⟨l', hfinal⟩ := numberEdges_final args (readRecords byteorder file)
  have hfile : file ≠ [] := by
    rintro rfl
    cases hr
  refine ⟨hfile, (newRecords_lt_iff hfinal endpoints_lt).mp ?_⟩
  by_contra hnot
  rw [degreePy_eq rfl hfile, if_neg hnot] at hr
  cases hr

/-- `degree.py` relabels every file of whole records but the empty one and those on which it runs out of ids. -/
theorem degreeRelabels_iff (byteorder : ByteOrder) (args : DegreeArgs) (file : List UInt8) (hwhole : file.length % 8 = 0) :
    (∃ r, degreePy byteorder args file = .ok r ∧ DegreeRelabels byteorder args file r) ↔
      file ≠ [] ∧ ¬ OutOfIds (2 ^ 32) args (readRecords byteorder file) := by
  obtain ⟨l', hfinal⟩ := numberEdges_final args (readRecords byteorder file)
  have hids := newRecords_lt_iff hfinal endpoints_lt
  constructor
  · rintro ⟨r, hr, -⟩
    exact not_outOfIds_of_ok hr
  · rintro ⟨hfile, hnot⟩
    refine ⟨_, ?_, degreeRelabels_of_final hwhole hfinal (hids.mpr hnot)⟩
    rw [degreePy_eq rfl hfile, if_pos (hids.mpr hnot)]

end Script

theorem degreeRelabels_edge :
    ∃ r, degreePy .little ⟨true, false, false⟩ [5, 0, 0, 0, 0, 0, 0, 0] = .ok r ∧
      DegreeRelabels .little ⟨true, false, false⟩ [5, 0, 0, 0, 0, 0, 0, 0] r := by
  refine (degreeRelabels_iff _ _ _ (by decide)).mpr ⟨by decide, fun hout => ?_⟩
  have hone := hout.2.2 1 (by decide)
  revert hone
  decide

/-- The edges from all vertices from `1` to `b` to vertex `0`. -/
def inwardStar (b : ℕ) : List (ℕ × ℕ) := (List.range b).map fun i => (i + 1, 0)

theorem outOfIds_inwardStar {b : ℕ} (hb : 0 < b) : OutOfIds (b + 1) ⟨true, false, false⟩ (inwardStar b) := by
  refine ⟨rfl, ?_, fun v hv => ?_⟩
  · simp [inwardStar, keyOf]
  · rw [endpoints, List.mem_append, inwardStar, List.map_map, List.map_map]
    cases v with
    | zero => exact Or.inr (List.mem_map.mpr ⟨0, List.mem_range.mpr hb, rfl⟩)
    | succ v => exact Or.inl (List.mem_map.mpr ⟨v, List.mem_range.mpr (by omega), rfl⟩)

/-- `mmap` refuses the empty file, which is a whole number of records; and with `-m`, when vertex `0` is no source and
all other vertices are, `struct.pack` refuses the last id. -/
theorem not_degreeRelabels :
    (¬ ∃ r, degreePy .little ⟨false, false, false⟩ [] = .ok r ∧ DegreeRelabels .little ⟨false, false, false⟩ [] r) ∧
      ¬ ∃ r, degreePy .little ⟨true, false, false⟩ ((inwardStar (2 ^ 32 - 1)).flatMap (packed .little)) = .ok r ∧
        DegreeRelabels .little ⟨true, false, false⟩ ((inwardStar (2 ^ 32 - 1)).flatMap (packed .little)) r := by
  constructor
  · rintro ⟨r, hr, -⟩
    cases hr
  · rintro ⟨r, hr, -⟩
    have hrec : readRecords .little ((inwardStar (2 ^ 32 - 1)).flatMap (packed .little)) = inwardStar (2 ^ 32 - 1) := by
      refine readRecords_flatMap fun e he => ?_
      obtain ⟨i, hi, rfl⟩ := List.mem_map.mp he
      have hlt := List.mem_range.mp hi
      exact ⟨show i + 1 < 2 ^ 32 by omega, Nat.two_pow_pos 32⟩
    have hnot := (not_outOfIds_of_ok hr).2
    rw [hrec] at hnot
    exact hnot (outOfIds_inwardStar (by decide))

end GraphBenchmark
