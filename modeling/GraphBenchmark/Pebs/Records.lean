import GraphBenchmark.Model.Pebs
import GraphBenchmark.Foundations.Circular
import GraphBenchmark.Foundations.Words

/-! # Records in the data area

What the ring holds from `data_tail` to `data_head` is the records published and not yet taken up. A header never goes
round the end of the data area, as all sizes are multiples of 8. A sample may. -/
namespace GraphBenchmark
open Bytes Circular Words
set_option autoImplicit false

theorem dataSize_dvd : dataSize ∣ 2 ^ 64 := by decide

theorem eight_dvd_dataSize : 8 ∣ dataSize := by decide

theorem dataSize_pos : 0 < dataSize := by decide

theorem dataSize_lt : dataSize < 2 ^ 64 := by decide

/-- Positions are kept modulo `2 ^ 64`, a multiple of the size of the data area. -/
theorem position_mod (p k : ℕ) : ((UInt64.ofNat p).toNat + k) % dataSize = (p + k) % dataSize := by
  rw [UInt64.toNat_ofNat', Nat.add_mod, Nat.mod_mod_of_dvd _ dataSize_dvd, ← Nat.add_mod]

/-! ## One record -/

namespace PerfRecord
variable {r : PerfRecord}

def type : PerfRecord → UInt32
  | .sample .. => perfRecordSample
  | .other type .. => type

/-- The `addr` field of a sample. -/
def addr : PerfRecord → Option UInt64
  | .sample _ _ addr => some addr
  | .other .. => none

theorem length_bytes (r : PerfRecord) : r.bytes.length = r.size := by
  cases r with
  | sample misc ip addr => simp [bytes, size, headerBytes]
  | other type misc body =>
    simp [bytes, size, headerBytes]
    omega

theorem eight_dvd_size (r : PerfRecord) : 8 ∣ r.size := by
  cases r with
  | sample misc ip addr => exact ⟨3, rfl⟩
  | other type misc body htype hdvd hlt => exact (Nat.dvd_add_right (Nat.dvd_refl 8)).mpr hdvd

theorem eight_le_size (r : PerfRecord) : 8 ≤ r.size := by
  cases r with
  | sample misc ip addr => exact (by decide : 8 ≤ 24)
  | other type misc body => exact Nat.le_add_right 8 _

theorem size_lt (r : PerfRecord) : r.size < 2 ^ 16 := by
  cases r with
  | sample misc ip addr => exact (by decide : 24 < 2 ^ 16)
  | other type misc body htype hdvd hlt => exact hlt

theorem type_eq_iff : r.type = perfRecordSample ↔ ∃ misc ip addr, r = .sample misc ip addr := by
  cases r with
  | sample misc ip addr => exact iff_of_true rfl ⟨misc, ip, addr, rfl⟩
  | other type misc body htype => exact iff_of_false htype fun ⟨_, _, _, h⟩ => by cases h

theorem bytes_eq (r : PerfRecord) : ∃ misc rest, r.bytes = headerBytes r.type misc r.size ++ rest := by
  cases r with
  | sample misc ip addr => exact ⟨misc, _, rfl⟩
  | other type misc body => exact ⟨misc, body, rfl⟩

theorem take_type (r : PerfRecord) : (r.bytes.drop 0).take 4 = toBytes .little 4 r.type.toNat := by
  obtain ⟨misc, rest, hr⟩ := r.bytes_eq
  rw [List.drop_zero, hr, headerBytes, List.append_assoc, List.append_assoc]
  exact List.take_left' (length_toBytes _ _ _)

theorem take_size (r : PerfRecord) : (r.bytes.drop 6).take 2 = toBytes .little 2 r.size := by
  obtain ⟨misc, rest, hr⟩ := r.bytes_eq
  have h6 : (toBytes .little 4 r.type.toNat ++ toBytes .little 2 misc.toNat).length = 6 := by simp
  rw [hr, headerBytes, List.append_assoc, List.drop_left' h6]
  exact List.take_left' (length_toBytes _ _ _)

theorem take_addr (misc : UInt16) (ip addr : UInt64) :
    ((sample misc ip addr).bytes.drop 16).take 8 = toBytes .little 8 addr.toNat := by
  have h16 : (headerBytes perfRecordSample misc 24 ++ toBytes .little 8 ip.toNat).length = 16 := by
    simp [headerBytes]
  rw [bytes, ← List.append_assoc, List.drop_left' h16]
  exact List.take_of_length_le (length_toBytes _ _ _).le

end PerfRecord

/-! ## The records between `data_tail` and `data_head` -/

/-- The bytes of the records `rs`. -/
def totalSize (rs : List PerfRecord) : ℕ := (rs.map PerfRecord.size).sum

section Total
variable {rs rs' : List PerfRecord} {r : PerfRecord}

@[simp] theorem totalSize_nil : totalSize [] = 0 := rfl

@[simp] theorem totalSize_cons (r : PerfRecord) (rs : List PerfRecord) :
    totalSize (r :: rs) = r.size + totalSize rs := rfl

@[simp] theorem totalSize_append (rs rs' : List PerfRecord) : totalSize (rs ++ rs') = totalSize rs + totalSize rs' := by
  rw [totalSize, List.map_append, List.sum_append]
  rfl

theorem length_flatMap_bytes (rs : List PerfRecord) : (rs.flatMap PerfRecord.bytes).length = totalSize rs := by
  rw [List.length_flatMap, totalSize]
  exact congrArg List.sum (List.map_congr_left fun r _ => r.length_bytes)

theorem eight_dvd_totalSize (rs : List PerfRecord) : 8 ∣ totalSize rs := by
  induction rs with
  | nil => exact ⟨0, rfl⟩
  | cons r rs ih => exact (Nat.dvd_add_right r.eight_dvd_size).mpr ih

theorem header_fits (rs : List PerfRecord) : totalSize rs % dataSize + 8 ≤ dataSize := by
  have hlt := Nat.mod_lt (totalSize rs) dataSize_pos
  obtain ⟨a, ha⟩ := (Nat.dvd_mod_iff eight_dvd_dataSize).mpr (eight_dvd_totalSize rs)
  obtain ⟨b, hb⟩ := eight_dvd_dataSize
  omega

end Total

/-- The records `past` are taken up, and `live` stand between `data_tail` and `data_head`. -/
structure RingInv (past live : List PerfRecord) (s : PerfState) : Prop where
  head : s.dataHead = UInt64.ofNat (totalSize past + totalSize live)
  tail : s.dataTail = UInt64.ofNat (totalSize past)
  holds : Holds dataSize s.cells (totalSize past) (live.flatMap PerfRecord.bytes)
  room : match s.kernel with
    | .idle => totalSize live ≤ dataSize
    | .storing r k => totalSize live + r.size ≤ dataSize ∧ k ≤ r.size ∧
      Holds dataSize s.cells (totalSize past + totalSize live) (r.bytes.take k)

namespace RingInv
variable {past live rest : List PerfRecord} {s s' : PerfState} {r : PerfRecord} {k : ℕ}

theorem congr (h : RingInv past live s) (hhead : s'.dataHead = s.dataHead) (htail : s'.dataTail = s.dataTail)
    (hcells : s'.cells = s.cells) (hkernel : s'.kernel = s.kernel) : RingInv past live s' := by
  obtain ⟨h₁, h₂, h₃, h₄⟩ := h
  exact ⟨hhead.trans h₁, htail.trans h₂, hcells ▸ h₃, by rw [hkernel, hcells]; exact h₄⟩

theorem init (cells : ℕ → UInt8) : RingInv [] [] (PerfState.init cells) :=
  ⟨rfl, rfl, Holds.nil _ _ _, Nat.zero_le _⟩

theorem live_le (h : RingInv past live s) : totalSize live ≤ dataSize := by
  have hroom := h.room
  split at hroom
  · exact hroom
  · omega

theorem head_sub_tail (h : RingInv past live s) : (s.dataHead - s.dataTail).toNat = totalSize live := by
  have hle := h.live_le
  have hlt := dataSize_lt
  rw [h.head, h.tail, UInt64.ofNat_add, add_sub_cancel_left, toNat_ofNat64 (by omega)]

/-- `data_tail` stands at `data_head` only when all is taken up. -/
theorem live_ne_nil (h : RingInv past live s) (hne : s.dataHead ≠ s.dataTail) : live ≠ [] := by
  intro hlive
  refine hne ?_
  rw [h.head, h.tail, hlive]
  rfl

theorem output (h : RingInv past live s)
    (hroom : (s.dataHead - s.dataTail).toNat + r.size ≤ dataSize) :
    RingInv past live { s with kernel := .storing r 0 } := by
  rw [h.head_sub_tail] at hroom
  refine ⟨h.head, h.tail, h.holds, hroom, Nat.zero_le _, ?_⟩
  rw [List.take_zero]
  exact Holds.nil _ _ _

theorem store (h : RingInv past live s) (hkernel : s.kernel = .storing r k) {b : UInt8} (hb : r.bytes[k]? = some b) :
    RingInv past live { s with
      cells := Function.update s.cells ((s.dataHead.toNat + k) % dataSize) b
      kernel := .storing r (k + 1) } := by
  have hroom := h.room
  rw [hkernel] at hroom
  obtain ⟨hfits, -, hholds⟩ := hroom
  have hlen := r.length_bytes
  have hlive := length_flatMap_bytes live
  obtain ⟨hk, hbk⟩ := List.getElem?_eq_some_iff.mp hb
  have hpos : (s.dataHead.toNat + k) % dataSize = (totalSize past + totalSize live + k) % dataSize := by
    rw [h.head, position_mod]
  have htake : (r.bytes.take k).length = k := by
    rw [List.length_take]
    omega
  have hnext : r.bytes.take (k + 1) = r.bytes.take k ++ [b] := by
    rw [List.take_add_one, hb]
    rfl
  refine ⟨h.head, h.tail, ?_, hfits, by omega, ?_⟩
  · rw [hpos]
    exact h.holds.update (by omega) (by omega) b
  · have hsnoc := hholds.snoc (by omega) b
    rw [htake] at hsnoc
    rw [hpos, hnext]
    exact hsnoc

theorem publish (h : RingInv past live s) (hkernel : s.kernel = .storing r k) (hb : r.bytes[k]? = none) :
    RingInv past (live ++ [r]) { s with dataHead := s.dataHead + UInt64.ofNat r.size, kernel := .idle } := by
  have hroom := h.room
  rw [hkernel] at hroom
  obtain ⟨hfits, -, hholds⟩ := hroom
  rw [List.take_of_length_le (List.getElem?_eq_none_iff.mp hb)] at hholds
  have htotal : totalSize (live ++ [r]) = totalSize live + r.size := by simp
  refine ⟨?_, h.tail, ?_, ?_⟩
  · show s.dataHead + UInt64.ofNat r.size = _
    rw [h.head, htotal, ← UInt64.ofNat_add, Nat.add_assoc]
  · rw [List.flatMap_append, List.flatMap_singleton]
    refine holds_append.mpr ⟨h.holds, ?_⟩
    rwa [length_flatMap_bytes]
  · show totalSize (live ++ [r]) ≤ dataSize
    rw [htotal]
    exact hfits

theorem advance (h : RingInv past (r :: rest) s) {size : UInt16} (hsize : size.toNat = r.size) {pc : CollectPc} :
    RingInv (past ++ [r]) rest { s with dataTail := s.dataTail + size.toUInt64, collect := pc } := by
  have hpast : totalSize (past ++ [r]) = totalSize past + r.size := by simp
  have hsum : totalSize past + totalSize (r :: rest) = totalSize (past ++ [r]) + totalSize rest := by
    rw [hpast, totalSize_cons, Nat.add_assoc]
  have hholds := h.holds
  rw [List.flatMap_cons, holds_append, r.length_bytes] at hholds
  refine ⟨by rw [← hsum]; exact h.head, ?_, by rw [hpast]; exact hholds.2, ?_⟩
  · show s.dataTail + size.toUInt64 = _
    have hword : size.toUInt64 = UInt64.ofNat r.size := by
      rw [← hsize]
      exact (UInt64.ofNat_toNat (x := size.toUInt64)).symm
    rw [h.tail, hpast, hword, UInt64.ofNat_add]
  · have hroom := h.room
    rw [hsum] at hroom
    cases hkernel : s.kernel with
    | idle =>
      rw [hkernel] at hroom
      simp only [totalSize_cons] at hroom ⊢
      omega
    | storing r' k =>
      rw [hkernel] at hroom
      simp only [totalSize_cons] at hroom ⊢
      exact ⟨by omega, hroom.2⟩

/-! ## Reading the first record -/

/-- A part of the record at `data_tail`, read in one piece. -/
theorem slice (h : RingInv past (r :: rest) s) {d w : ℕ} (hend : totalSize past % dataSize + d + w ≤ dataSize)
    (hw : d + w ≤ r.size) :
    ((List.range w).map fun i => s.cells (totalSize past % dataSize + d + i)) = (r.bytes.drop d).take w := by
  have hholds := h.holds
  rw [List.flatMap_cons, holds_append] at hholds
  exact hholds.1.slice hend (by rw [r.length_bytes]; exact hw)

theorem load_type (h : RingInv past (r :: rest) s) :
    UInt32.ofNat (s.load (.type (totalSize past % dataSize))) = r.type := by
  have hfits := header_fits past
  have hsize := r.eight_le_size
  have hslice := h.slice (show totalSize past % dataSize + 0 + 4 ≤ dataSize by omega) (by omega)
  rw [r.take_type] at hslice
  show UInt32.ofNat (fromBytes .little ((List.range 4).map fun i => s.cells (totalSize past % dataSize + 0 + i))) = _
  rw [hslice, fromBytes_toBytes r.type.toNat_lt, UInt32.ofNat_toNat]

theorem load_size (h : RingInv past (r :: rest) s) :
    (UInt16.ofNat (s.load (.size (totalSize past % dataSize)))).toNat = r.size := by
  have hfits := header_fits past
  have hsize := r.eight_le_size
  have hslice := h.slice (show totalSize past % dataSize + 6 + 2 ≤ dataSize by omega) (by omega)
  rw [r.take_size] at hslice
  show (UInt16.ofNat (fromBytes .little
    ((List.range 2).map fun i => s.cells (totalSize past % dataSize + 6 + i)))).toNat = _
  rw [hslice, fromBytes_toBytes r.size_lt]
  exact UInt16.toNat_ofNat_of_lt' r.size_lt

/-- A sample that does not go round the end. -/
theorem load_addr {misc : UInt16} {ip addr : UInt64} (h : RingInv past (.sample misc ip addr :: rest) s)
    (hfits : totalSize past % dataSize + 24 ≤ dataSize) :
    UInt64.ofNat (s.load (.addr (totalSize past % dataSize))) = addr := by
  have hslice := h.slice (show totalSize past % dataSize + 16 + 8 ≤ dataSize by omega) (by decide : 16 + 8 ≤ 24)
  rw [PerfRecord.take_addr] at hslice
  show UInt64.ofNat (fromBytes .little ((List.range 8).map fun i => s.cells (totalSize past % dataSize + 16 + i))) = _
  rw [hslice, fromBytes_toBytes addr.toNat_lt, UInt64.ofNat_toNat]

end RingInv

end GraphBenchmark
