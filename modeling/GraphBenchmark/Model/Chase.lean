import Mathlib.Data.List.GetD
import Mathlib.Logic.Function.Basic
import Mathlib.Data.UInt

/-! # `create_random` and the chases (`src/pointer_chasing/pointer_chasing.h`)

The memory is a function from addresses to the pointers stored there. An entry is a pointer followed by its pad, so
the pointer of an entry lies at the address of the entry. -/
namespace GraphBenchmark
set_option autoImplicit false

/-- `sizeof(Entry<P>)`: the pointer and the pad, filled up to a multiple of the pointer's size. -/
def entrySize (P : ℕ) : ℕ := (8 + P + 7) / 8 * 8

/-- `&buffer[i]`. -/
def entryAt (P buffer i : ℕ) : ℕ := buffer + i * entrySize P

/-- What `create_random` leaves: the block, the adjusted `buffer_sz`, `len`, and the memory. -/
structure Chain where
  buffer : ℕ
  bufferSz : UInt64
  len : UInt64
  mem : ℕ → ℕ

/-- The linking loop after its first `n` iterations. -/
def linkEntries (P buffer : ℕ) (indices : ℕ → ℕ) (mem : ℕ → ℕ) : ℕ → ℕ → ℕ
  | 0 => mem
  | n + 1 =>
    Function.update (linkEntries P buffer indices mem n) (entryAt P buffer (indices n)) (entryAt P buffer (indices (n + 1)))

/-- `indices` after the shuffle. -/
def shuffledIndices (shuffle : Bool) (randomShuffle : List ℕ → List ℕ) (len : ℕ) : List ℕ :=
  if shuffle then randomShuffle (List.range len) else List.range len

/-- `create_random<P>(buffer_sz, len, shuffle)` with the block at `buffer` and the memory as `malloc` left it. -/
def createRandom (P : ℕ) (bufferSz : UInt64) (shuffle : Bool) (randomShuffle : List ℕ → List ℕ) (buffer : ℕ)
    (mem : ℕ → ℕ) : Chain :=
  let sz := UInt64.ofNat (entrySize P)
  let bufferSz := (bufferSz + sz - 1) / sz * sz
  let len := bufferSz / sz
  let indices i := (shuffledIndices shuffle randomShuffle len.toNat).getD i 0
  let linked := linkEntries P buffer indices mem (len.toNat - 1)
  ⟨buffer, bufferSz, len,
    Function.update linked (entryAt P buffer (indices (len - 1).toNat)) (entryAt P buffer (indices 0))⟩

/-- The positions of `indices` that the linking reads: those of the loop, in its order, and those of the closing link. -/
def linkReads (len : UInt64) : List ℕ :=
  (List.range (len.toNat - 1)).flatMap (fun n => [n, n + 1]) ++ [(len - 1).toNat, 0]

/-- The positions of `indices` that are used at all: it is filled and shuffled before the linking reads it. -/
def indicesUsed (len : UInt64) : List ℕ := List.range len.toNat ++ linkReads len

/-- The entries of `buffer` that are used. -/
def bufferUsed (indices : ℕ → ℕ) (len : UInt64) : List ℕ := (linkReads len).map indices

/-- `read_chase(p, count)`: the addresses it dereferences, and `p` at the end. -/
def readChase (mem : ℕ → ℕ) (p : ℕ) : ℕ → List ℕ × ℕ
  | 0 => ([], p)
  | count + 1 =>
    let (visited, q) := readChase mem (mem p) count
    (p :: visited, q)

/-- `__sync_val_compare_and_swap((void**)p, oldV, newV)`: the value it returns, and the memory after it. -/
def syncValCompareAndSwap (mem : ℕ → ℕ) (p oldV newV : ℕ) : ℕ × (ℕ → ℕ) :=
  (mem p, if mem p = oldV then Function.update mem p newV else mem)

/-- A run of `cas_chase_fail`: the addresses it visits, those of them where the swap succeeds, `p` at the end, and the
memory. -/
structure CasChase where
  visited : List ℕ
  swapped : List ℕ
  p : ℕ
  mem : ℕ → ℕ

/-- `cas_chase_fail(p, count)`. -/
def casChaseFail (mem : ℕ → ℕ) (p : ℕ) : ℕ → CasChase
  | 0 => ⟨[], [], p, mem⟩
  | count + 1 =>
    let (q, after) := syncValCompareAndSwap mem p 0 1
    let run := casChaseFail after q count
    { run with visited := p :: run.visited, swapped := if mem p = 0 then p :: run.swapped else run.swapped }

/-! ## `main` (`src/pointer_chasing/main.cpp`) -/

/-- `PAD_SIZE`. -/
def padSize : ℕ := 0

/-- `(count > (1<<30))? count: (1<<30)`. -/
def clampCount (count : UInt64) : UInt64 := if 2 ^ 30 < count.toNat then count else (1 : UInt64) <<< 30

/-- A run of `main`: the chain it builds, the `count` it settles on, and the addresses it dereferences. -/
structure ChasingRun where
  chain : Chain
  count : UInt64
  visited : List ℕ

/-- `main` with the two numbers of its command line. -/
def chasingMain (bufferSz count : UInt64) (randomShuffle : List ℕ → List ℕ) (buffer : ℕ) (mem : ℕ → ℕ) : ChasingRun :=
  let chain := createRandom padSize bufferSz true randomShuffle buffer mem
  let count := clampCount count
  ⟨chain, count, (readChase chain.mem chain.buffer count.toNat).1⟩

end GraphBenchmark
