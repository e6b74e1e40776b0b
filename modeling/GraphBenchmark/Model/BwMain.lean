import GraphBenchmark.Model.Bandwidth
import GraphBenchmark.Model.Barrier

/-! # `main` of the bandwidth program (`bw/main.cpp`)

The main thread creates the records, launches the workers and joins them; the workers cross the global barrier and
make their accesses. Each thread has its own copy of the `thread_local` generator. -/
namespace GraphBenchmark
set_option autoImplicit false

inductive SRMode
  | seq
  | random
deriving DecidableEq, Repr

/-- `read_hub` or `write_hub`; `main` calls `read_hub`. -/
inductive Hub
  | read
  | write
deriving DecidableEq, Repr

/-- What `getopt` finds on the command line. -/
structure BwOptions where
  size : UInt64
  threads : ℕ
  srmode : SRMode
  accessmode : AccessMode
  accessSize : UInt64
  nbAccesses : UInt64

/-- What the calls into the libraries return: the mapping, the blocks, and `rand()` after each seed. -/
structure BwLibs where
  addr : UInt64
  alignedAlloc : ℕ → UInt64
  rand : UInt32 → Int32

/-- The size `create_buffer` gives the mapping. -/
def createBufferSize (sz : UInt64) : UInt64 := (sz + 4096 - 1) / 4096 * 4096

inductive MainPc
  | create
  | launch (i : ℕ)
  | join (i : ℕ)
  | finished
  | died
deriving DecidableEq, Repr

inductive WorkerPc
  | absent
  | entry
  | cross
  | start
  | access (i : ℕ)
  | done
deriving DecidableEq, Repr

/-- The globals, and of each worker where it stands, its generator, its copies and what `lehmer64()` has returned to
it. -/
structure BwState where
  main : MainPc
  accessCount : UInt64
  infos : List ThreadInfo
  mainLehmer : BitVec 128
  barrier : BarrierState
  pc : ℕ → WorkerPc
  lehmer : ℕ → BitVec 128
  copies : ℕ → List Memcpy
  draws : ℕ → List UInt64

/-- Static storage starts as zero, the barrier included. -/
def BwState.init : BwState :=
  { main := .create
    accessCount := 0
    infos := []
    mainLehmer := 0
    barrier := ⟨0, 0, none, fun _ => .outside, fun _ => 0, fun _ => 0⟩
    pc := fun _ => .absent
    lehmer := fun _ => 0
    copies := fun _ => []
    draws := fun _ => [] }

section Program
variable (o : BwOptions) (libs : BwLibs) (hub : Hub)

/-- The call `create_thread_info(addr, size, threads, accessmode)`. -/
def createdInfo : Option Setup :=
  createThreadInfo o.accessSize libs.alignedAlloc libs.rand libs.addr (createBufferSize o.size) o.threads o.accessmode

/-- The slots of the function `srmode` selects. -/
def slotOf (srmode : SRMode) (accessCount : UInt64) : UInt64 → BitVec 128 → UInt64 × BitVec 128 :=
  match srmode with
  | .seq => seqSlot accessCount
  | .random => randomSlot accessCount

/-- The copies of the functions a hub selects. -/
def copyOf (hub : Hub) (accessSize : UInt64) (info : ThreadInfo) : UInt64 → Memcpy :=
  match hub with
  | .read => copyIn accessSize info
  | .write => copyOut accessSize info

/-- What `lehmer64()` returns in one iteration of the function `srmode` selects. -/
def drawsOf (srmode : SRMode) (g : BitVec 128) : List UInt64 :=
  match srmode with
  | .seq => []
  | .random => [(lehmer64 g).1]

/-- The next step of the main thread. -/
def mainStep (s : BwState) : Option BwState :=
  match s.main with
  | .create =>
    match createdInfo o libs with
    | none => some { s with main := .died }
    | some setup =>
      some
        { s with
          main := .launch 0, accessCount := setup.accessCount, infos := setup.infos, mainLehmer := setup.lehmer }
  | .launch i =>
    -- `pthread_create`: the new thread gets a zeroed copy of the thread-local storage
    if i < o.threads then
      some
        { s with
          main := .launch (i + 1), pc := Function.update s.pc i .entry, lehmer := Function.update s.lehmer i 0 }
    else some { s with main := .join 0 }
  | .join i =>
    if i < o.threads then if s.pc i = .done then some { s with main := .join (i + 1) } else none
    else some { s with main := .finished }
  | .finished | .died => none

/-- The next step of worker `t`. -/
def workerStep (s : BwState) (t : ℕ) : Option BwState :=
  match s.pc t with
  | .absent | .done => none
  | .entry => (s.barrier.start t).map fun b => { s with barrier := b, pc := Function.update s.pc t .cross }
  | .cross =>
    if s.barrier.pc t = .outside then some { s with pc := Function.update s.pc t .start }
    else (s.barrier.cross t).map fun b => { s with barrier := b }
  | .start => some { s with pc := Function.update s.pc t (.access 0) }
  | .access i =>
    if i < o.nbAccesses.toNat then
      match s.infos[t]? with
      | none => none
      | some info =>
        let (loc, g) := slotOf o.srmode s.accessCount (UInt64.ofNat i) (s.lehmer t)
        some
          { s with
            pc := Function.update s.pc t (.access (i + 1))
            lehmer := Function.update s.lehmer t g
            copies := Function.update s.copies t (s.copies t ++ [copyOf hub o.accessSize info loc])
            draws := Function.update s.draws t (s.draws t ++ drawsOf o.srmode (s.lehmer t)) }
    else some { s with pc := Function.update s.pc t .done }

inductive BwAct
  | main
  | worker (t : ℕ)
  | wake (t : ℕ)
deriving DecidableEq, Repr

/-- The program: the main thread, the workers, and spurious wake-ups. -/
def bwMain (s : BwState) : BwAct → Option BwState
  | .main => mainStep o libs s
  | .worker t => workerStep o hub s t
  | .wake t => (s.barrier.wake t).map fun b => { s with barrier := b }

end Program

/-- The worker has stored `start_cycle`. -/
def WorkerPc.timed : WorkerPc → Bool
  | .access _ | .done => true
  | _ => false

/-- The step is not a spurious wake-up. -/
def BwAct.calm : BwAct → Bool
  | .wake _ => false
  | _ => true

end GraphBenchmark
