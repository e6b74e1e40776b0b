import GraphBenchmark.Foundations.Blocks
import GraphBenchmark.Model.BwMain

/-! # The memory of the bandwidth program

The bytes of the mapping and of the private buffers: `create_buffer` clears the one, `create_thread_info` fills the
others, and each access copies between the two. -/
namespace GraphBenchmark
open Blocks
set_option autoImplicit false

/-- The copy of `c.n` bytes. -/
def Memcpy.apply (c : Memcpy) (mem : ℕ → UInt8) : ℕ → UInt8 := copy mem c.dst.toNat c.src.toNat c.n.toNat

/-- The program with the bytes of its memory. -/
structure StoredState where
  run : BwState
  mem : ℕ → UInt8

def StoredState.init (mem : ℕ → UInt8) : StoredState := ⟨BwState.init, mem⟩

section Program
variable (o : BwOptions) (libs : BwLibs) (hub : Hub)

/-- `memset(addr, 0, sz)`. -/
def clearedMem (mem : ℕ → UInt8) : ℕ → UInt8 := fill mem libs.addr.toNat 0 (createBufferSize o.size).toNat

/-- `memset(infos[i].buffer, 42, access_size)` for each thread. -/
def createdMem (mem : ℕ → UInt8) : ℕ → UInt8 :=
  fillAll (clearedMem o libs mem) (fun i => (libs.alignedAlloc i).toNat) 42 o.accessSize.toNat o.threads

/-- What the next step of the main thread stores. -/
def mainStore (s : StoredState) : ℕ → UInt8 :=
  match s.run.main with
  | .create =>
    match createdInfo o libs with
    | none => clearedMem o libs s.mem
    | some _ => createdMem o libs s.mem
  | _ => s.mem

/-- What the next step of worker `t` stores. -/
def workerStore (s : StoredState) (t : ℕ) : ℕ → UInt8 :=
  match s.run.pc t, s.run.infos[t]? with
  | .access i, some info =>
    if i < o.nbAccesses.toNat then
      (copyOf hub o.accessSize info (slotOf o.srmode s.run.accessCount (UInt64.ofNat i) (s.run.lehmer t)).1).apply s.mem
    else s.mem
  | _, _ => s.mem

/-- The program and what its steps store. -/
def storedMain (s : StoredState) (a : BwAct) : Option StoredState :=
  (bwMain o libs hub s.run a).map fun r =>
    match a with
    | .main => ⟨r, mainStore o libs s⟩
    | .worker t => ⟨r, workerStore o hub s t⟩
    | .wake _ => ⟨r, s.mem⟩

end Program

end GraphBenchmark
