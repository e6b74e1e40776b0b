import GraphBenchmark.Model.Loader
import GraphBenchmark.Foundations.Bytes

/-! # Reading the edges (`src/loader.cpp`, `src/reorder.cpp`)

`create_graph` and `sort_by_degree` have the same loop on `read`. The kernel chooses what a call of `read` returns; a
step is one call, with the tests and the body of the loop behind it. Addresses count from `edges`. -/
namespace GraphBenchmark
open Bytes
set_option autoImplicit false

/-- The input file; its size is an `off_t`, and does not change. -/
structure InputFile where
  bytes : List UInt8
  size_lt : bytes.length < 2 ^ 63

namespace InputFile
variable (file : InputFile)

/-- `(size_t)sb.st_size`. -/
def stSize : UInt64 := UInt64.ofNat file.bytes.length

/-- `NB_EDGES`, that is `(size_t)sb.st_size/sizeof(edge_t)`. -/
def nbEdges : UInt64 := file.stSize / 8

/-- `NB_EDGES*sizeof(edge_t)`, what is allocated for `edges`. -/
def edgesSize : UInt64 := file.nbEdges * 8

end InputFile

/-! ## `read` -/

/-- What a call of `read` comes to: the number of bytes it has read, or an error. -/
inductive ReadResult
  | bytes (n : ℕ)
  | error
deriving DecidableEq, Repr

/-- `sz`. -/
def ReadResult.sz : ReadResult → Int64
  | .bytes n => Int64.ofNat n
  | .error => -1

def ReadResult.isBytes : ReadResult → Bool
  | .bytes _ => true
  | .error => false

/-- What POSIX allows `read(fd, cursor, count)` to come to at a file offset: some bytes, at most `count`, while data
remains, and none at the end of the file or where none are asked for. -/
def InputFile.Returns (file : InputFile) (offset : ℕ) (count : UInt64) : ReadResult → Prop
  | .bytes n =>
    if file.bytes.length ≤ offset ∨ count = 0 then n = 0
    else 1 ≤ n ∧ n ≤ count.toNat ∧ offset + n ≤ file.bytes.length
  | .error => True

instance (file : InputFile) (offset : ℕ) (count : UInt64) (r : ReadResult) : Decidable (file.Returns offset count r) :=
  match r with
  | .bytes n => inferInstanceAs (Decidable (if file.bytes.length ≤ offset ∨ count = 0 then n = 0
      else 1 ≤ n ∧ n ≤ count.toNat ∧ offset + n ≤ file.bytes.length))
  | .error => inferInstanceAs (Decidable True)

/-! ## The loop -/

inductive ReadPc
  | loop
  | done
  | died
deriving DecidableEq, Repr

/-- The variables of the loop, the memory from `edges` on, and the offset of `fd`. -/
structure ReadState where
  cursor : UInt64
  count : UInt64
  mem : ℕ → UInt8
  offset : ℕ
  pc : ReadPc

/-- Before the loop. -/
def ReadState.init (file : InputFile) (mem : ℕ → UInt8) : ReadState := ⟨0, file.stSize, mem, 0, .loop⟩

/-- What `read` does to the memory and to `fd`. -/
def ReadState.fill (file : InputFile) (s : ReadState) : ReadResult → ReadState
  | .bytes n =>
    { s with
      mem := fun i =>
        if s.cursor.toNat ≤ i ∧ i < s.cursor.toNat + n then file.bytes.getD (s.offset + (i - s.cursor.toNat)) 0
        else s.mem i
      offset := s.offset + n }
  | .error => s

/-- `sz != count && sz != 0`, where `sz` is converted for the comparison with `count`, and the body of the loop. -/
def ReadState.next (s : ReadState) (sz : Int64) : ReadState :=
  if sz.toUInt64 ≠ s.count ∧ sz ≠ 0 then
    if sz = -1 then { s with pc := .died }
    else { s with cursor := s.cursor + sz.toUInt64, count := s.count - sz.toUInt64 }
  else { s with pc := .done }

/-- One call of `read`. -/
def readLoop (file : InputFile) (s : ReadState) (r : ReadResult) : Option ReadState :=
  if s.pc = .loop ∧ file.Returns s.offset s.count r then some ((s.fill file r).next r.sz) else none

/-- Where `create_graph` enters the loop; `none` is the failed `assert((size_t)sb.st_size%sizeof(edge_t) == 0)`. -/
def createGraphRead (file : InputFile) (mem : ℕ → UInt8) : Option ReadState :=
  if file.stSize % 8 = 0 then some (ReadState.init file mem) else none

/-- Where `sort_by_degree` enters the loop. -/
def sortByDegreeRead (file : InputFile) (mem : ℕ → UInt8) : ReadState := ReadState.init file mem

/-! ## The records -/

/-- `edges[i]` in memory. -/
def edgeAt (byteorder : ByteOrder) (mem : ℕ → UInt8) (i : ℕ) : Edge where
  src := UInt32.ofNat (fromBytes byteorder ((List.range' (8 * i) 4).map mem))
  dst := UInt32.ofNat (fromBytes byteorder ((List.range' (8 * i + 4) 4).map mem))

/-- The records of the file. -/
def InputFile.edgeFile (file : InputFile) (byteorder : ByteOrder) : EdgeFile where
  edges := (List.range (file.bytes.length / 8)).map (edgeAt byteorder fun k => file.bytes.getD k 0)
  size_lt := by
    rw [List.length_map, List.length_range]
    have := file.size_lt
    omega

end GraphBenchmark
