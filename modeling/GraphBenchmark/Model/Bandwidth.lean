import Mathlib.Data.UInt
import Mathlib.Data.BitVec

/-! # `create_thread_info` and the access loops (`bw/bw.cpp`)

Addresses and sizes are `UInt64`. A run of a loop is the list of the `memcpy`s it makes. -/
namespace GraphBenchmark
set_option autoImplicit false

inductive AccessMode
  | grouped
  | interleaved
deriving DecidableEq, Repr

/-- `thread_info_t`; `fin` is the field `end`. -/
structure ThreadInfo where
  start : UInt64
  fin : UInt64
  stride : UInt64
  buffer : UInt64
deriving DecidableEq, Repr

/-! ## The generator -/

/-- `init_seed(i)`; `rand i` is the first `rand()` after `srand(i)`. -/
def initSeed (rand : UInt32 → Int32) (i : UInt32) : BitVec 128 := BitVec.ofInt 128 (rand i).toInt

/-- `lehmer64()`: the number returned, and the generator after it. -/
def lehmer64 (g : BitVec 128) : UInt64 × BitVec 128 :=
  let g := g * 0xda942042e4dd58b5#128
  (UInt64.ofBitVec ((g >>> 64).setWidth 64), g)

/-! ## `create_thread_info` -/

section Create
variable (accessSize : UInt64) (alignedAlloc : ℕ → UInt64) (rand : UInt32 → Int32)

/-- What `create_thread_info` leaves: `access_count`, the records, and the generator of its caller. -/
structure Setup where
  accessCount : UInt64
  infos : List ThreadInfo
  lehmer : BitVec 128

/-- `infos[i]`. -/
def threadInfo (buffer sz : UInt64) (threads : ℕ) (m : AccessMode) (i : ℕ) : ThreadInfo :=
  let partition := sz / UInt64.ofNat threads
  match m with
  | .grouped =>
    { start := buffer + UInt64.ofNat i * partition
      fin := buffer + UInt64.ofNat (i + 1) * partition
      stride := accessSize
      buffer := alignedAlloc i }
  | .interleaved =>
    { start := buffer + UInt64.ofNat i * accessSize
      fin := buffer + sz + UInt64.ofNat i * accessSize
      stride := UInt64.ofNat threads * accessSize
      buffer := alignedAlloc i }

/-- `create_thread_info(buffer, sz, threads, m)`; `none` is `die`. -/
def createThreadInfo (buffer sz : UInt64) (threads : ℕ) (m : AccessMode) : Option Setup :=
  let partition := sz / UInt64.ofNat threads
  let accessCount := partition / accessSize
  if accessCount = 0 then none
  else some
    { accessCount := accessCount
      infos := (List.range threads).map (threadInfo accessSize alignedAlloc buffer sz threads m)
      lehmer := (List.range threads).foldl (fun _ i => initSeed rand (UInt32.ofNat i)) 0 }

end Create

/-! ## The access loops -/

structure Memcpy where
  dst : UInt64
  src : UInt64
  n : UInt64
deriving DecidableEq, Repr

section Loops
variable (accessSize accessCount : UInt64) (info : ThreadInfo)

/-- `i&access_count`, the slot of `read_seq` and `write_seq`. -/
def seqSlot (i : UInt64) (g : BitVec 128) : UInt64 × BitVec 128 := (i &&& accessCount, g)

/-- `lehmer64()%access_count`, the slot of `read_random` and `write_random`. -/
def randomSlot (_ : UInt64) (g : BitVec 128) : UInt64 × BitVec 128 :=
  ((lehmer64 g).1 % accessCount, (lehmer64 g).2)

/-- `memcpy(b, memaddr, access_size)`. -/
def copyIn (loc : UInt64) : Memcpy := ⟨info.buffer, info.start + loc * info.stride, accessSize⟩

/-- `memcpy(memaddr, b, access_size)`. -/
def copyOut (loc : UInt64) : Memcpy := ⟨info.start + loc * info.stride, info.buffer, accessSize⟩

/-- The first `n` iterations of a loop that takes its slots from `slot` and copies with `copy`. -/
def accessLoop (slot : UInt64 → BitVec 128 → UInt64 × BitVec 128) (copy : UInt64 → Memcpy) (g : BitVec 128) :
    ℕ → List Memcpy × BitVec 128
  | 0 => ([], g)
  | n + 1 =>
    let (copies, g) := accessLoop slot copy g n
    let (loc, g) := slot (UInt64.ofNat n) g
    (copies ++ [copy loc], g)

/-- The loop of `read_seq`. -/
def readSeq (nbAccesses : UInt64) (g : BitVec 128) : List Memcpy × BitVec 128 :=
  accessLoop (seqSlot accessCount) (copyIn accessSize info) g nbAccesses.toNat

/-- The loop of `read_random`. -/
def readRandom (nbAccesses : UInt64) (g : BitVec 128) : List Memcpy × BitVec 128 :=
  accessLoop (randomSlot accessCount) (copyIn accessSize info) g nbAccesses.toNat

/-- The loop of `write_seq`. -/
def writeSeq (nbAccesses : UInt64) (g : BitVec 128) : List Memcpy × BitVec 128 :=
  accessLoop (seqSlot accessCount) (copyOut accessSize info) g nbAccesses.toNat

/-- The loop of `write_random`. -/
def writeRandom (nbAccesses : UInt64) (g : BitVec 128) : List Memcpy × BitVec 128 :=
  accessLoop (randomSlot accessCount) (copyOut accessSize info) g nbAccesses.toNat

end Loops

end GraphBenchmark
