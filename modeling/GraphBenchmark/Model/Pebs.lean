import GraphBenchmark.Foundations.Bytes
import Mathlib.Data.UInt
import Mathlib.Logic.Function.Basic

/-! # `cache_collect_sample` (`src/pebs.cpp`)

The ring of one core. The kernel stores a record byte by byte behind `data_head` and then moves `data_head` past it; the
sampling thread takes up the record at `data_tail` and moves `data_tail` past it. One step is one access to what both
sides see. Offsets count from `pbuf`, so those from `data_size` on lie behind the data area. -/
namespace GraphBenchmark
open Bytes
set_option autoImplicit false

/-- `PAGE_SIZE`. -/
def pageSize : ℕ := 4096

/-- `PERF_PAGES`. -/
def perfPages : ℕ := 1 + 2 ^ 16

/-- `data_size`: all that `perf_sample_setup` maps but the first page. -/
def dataSize : ℕ := pageSize * (perfPages - 1)

/-- `PERF_RECORD_SAMPLE`. -/
def perfRecordSample : UInt32 := 9

/-! ## Records -/

/-- `struct perf_event_header`. -/
def headerBytes (type : UInt32) (misc : UInt16) (size : ℕ) : List UInt8 :=
  toBytes .little 4 type.toNat ++ toBytes .little 2 misc.toNat ++ toBytes .little 2 size

/-- A record of the kernel, where `sample` is `struct perf_sample`. Sizes are multiples of 8 that fit `size`. -/
inductive PerfRecord
  | sample (misc : UInt16) (ip addr : UInt64)
  | other (type : UInt32) (misc : UInt16) (body : List UInt8) (htype : type ≠ perfRecordSample)
      (hdvd : 8 ∣ body.length) (hlt : 8 + body.length < 2 ^ 16)

def PerfRecord.size : PerfRecord → ℕ
  | .sample .. => 24
  | .other _ _ body .. => 8 + body.length

def PerfRecord.bytes : PerfRecord → List UInt8
  | .sample misc ip addr =>
    headerBytes perfRecordSample misc 24 ++ (toBytes .little 8 ip.toNat ++ toBytes .little 8 addr.toNat)
  | .other type misc body .. => headerBytes type misc (8 + body.length) ++ body

/-! ## The two sides -/

inductive KernelPc
  | idle
  | storing (r : PerfRecord) (k : ℕ)

/-- Where the sampling thread is. `off` is the offset of `ph`. -/
inductive CollectPc
  | test
  | poll
  | type (off : ℕ)
  | addr (off : ℕ)
  | ip (off : ℕ) (vaddr : UInt64)
  | push (off : ℕ) (vaddr : UInt64)
  | size (off : ℕ)
  | advance (size : UInt16)
  | done

structure PerfState where
  cells : ℕ → UInt8
  dataHead : UInt64
  dataTail : UInt64
  kernel : KernelPc
  collect : CollectPc
  sampledAddress : List UInt64
  shouldTerminate : Bool

inductive PerfAct
  | output (r : PerfRecord)
  | store
  | collect
  | terminate

/-- After `launch_cache_collect`; the mapping and what lies behind it hold `cells`. -/
def PerfState.init (cells : ℕ → UInt8) : PerfState := ⟨cells, 0, 0, .idle, .test, [], false⟩

/-- The bytes a field of a record is read from: offset and width. -/
def CollectPc.access : CollectPc → ℕ × ℕ
  | .type off => (off, 4)
  | .addr off => (off + 16, 8)
  | .ip off _ => (off + 8, 8)
  | .size off => (off + 6, 2)
  | _ => (0, 0)

/-- The field read at `pc`. -/
def PerfState.load (s : PerfState) (pc : CollectPc) : ℕ :=
  fromBytes .little ((List.range pc.access.2).map fun i => s.cells (pc.access.1 + i))

/-- The next byte of the record, and behind the last one the new `data_head`. -/
def PerfState.storeNext (s : PerfState) : Option PerfState :=
  match s.kernel with
  | .idle => none
  | .storing r k =>
    match r.bytes[k]? with
    | some b => some { s with
        cells := Function.update s.cells ((s.dataHead.toNat + k) % dataSize) b
        kernel := .storing r (k + 1) }
    | none => some { s with dataHead := s.dataHead + UInt64.ofNat r.size, kernel := .idle }

/-- The next step of `cache_collect_sample`. -/
def PerfState.collectNext (s : PerfState) : Option PerfState :=
  match s.collect with
  | .test => some { s with collect := if s.shouldTerminate then .done else .poll }
  | .poll => some { s with collect := if s.dataHead = s.dataTail then .test else .type (s.dataTail.toNat % dataSize) }
  | .type off =>
    some { s with collect := if UInt32.ofNat (s.load (.type off)) = perfRecordSample then .addr off else .size off }
  | .addr off => some { s with collect := .ip off (UInt64.ofNat (s.load (.addr off))) }
  | .ip off vaddr => some { s with collect := .push off vaddr } -- `ip` is read and not used
  | .push off vaddr => some { s with sampledAddress := s.sampledAddress ++ [vaddr], collect := .size off }
  | .size off => some { s with collect := .advance (UInt16.ofNat (s.load (.size off))) }
  | .advance size => some { s with dataTail := s.dataTail + size.toUInt64, collect := .test }
  | .done => none

/-- A record is begun where it fits in what `data_tail` has set free. -/
def perf (s : PerfState) : PerfAct → Option PerfState
  | .output r =>
    match s.kernel with
    | .idle =>
      if (s.dataHead - s.dataTail).toNat + r.size ≤ dataSize then some { s with kernel := .storing r 0 } else none
    | .storing .. => none
  | .store => s.storeNext
  | .collect => s.collectNext
  | .terminate => some { s with shouldTerminate := true }

end GraphBenchmark
