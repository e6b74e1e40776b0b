import GraphBenchmark.Foundations.Tagged
import GraphBenchmark.Model.Pebs

/-! # The sampling thread over all cores (`src/pebs.cpp`)

Each core has its ring and a kernel side that fills it (`Model.Pebs`). The thread looks at `should_terminate`, goes
through the rings one after the other and takes at most one record from each. `CACHE_EVENTS` is `1`: there is one ring
a core. -/
namespace GraphBenchmark
open Tagged
set_option autoImplicit false

/-- Where the thread is: at the condition of its loop, or in the body at ring `i`. -/
inductive SamplerPc
  | test
  | ring (i : ℕ) (pc : CollectPc)
  | done

/-- A ring with its kernel side. -/
structure Ring where
  cells : ℕ → UInt8
  dataHead : UInt64
  dataTail : UInt64
  kernel : KernelPc

/-- `sampled` is `sampled_address`, with the core that each address is from. -/
structure SamplerState where
  rings : ℕ → Ring
  pc : SamplerPc
  sampled : List (ℕ × UInt64)
  shouldTerminate : Bool

def SamplerState.sampledAddress (s : SamplerState) : List UInt64 := s.sampled.map Prod.snd

inductive SamplerAct
  | output (i : ℕ) (r : PerfRecord)
  | store (i : ℕ)
  | collect
  | terminate

/-- `launch_cache_collect`, behind `cache_event_setup`; the mappings hold `cells`. -/
def SamplerState.init (cells : ℕ → ℕ → UInt8) : SamplerState := ⟨fun i => ⟨cells i, 0, 0, .idle⟩, .test, [], false⟩

/-- What the body works on at ring `i`. -/
def SamplerState.body (s : SamplerState) (i : ℕ) (pc : CollectPc) : PerfState where
  cells := (s.rings i).cells
  dataHead := (s.rings i).dataHead
  dataTail := (s.rings i).dataTail
  kernel := (s.rings i).kernel
  collect := pc
  sampledAddress := []
  shouldTerminate := s.shouldTerminate

def SamplerState.setRing (s : SamplerState) (i : ℕ) (p : PerfState) : SamplerState :=
  { s with rings := Function.update s.rings i ⟨p.cells, p.dataHead, p.dataTail, p.kernel⟩ }

/-- Behind a step of the body at ring `i`; a body that is through goes on to the next ring. -/
def SamplerPc.behind (ncores i : ℕ) : CollectPc → SamplerPc
  | .test => if i + 1 < ncores then .ring (i + 1) .poll else .test
  | pc => .ring i pc

/-- The next step of the thread; the step of the body is that of `Model.Pebs`. -/
def SamplerState.collectNext (ncores : ℕ) (s : SamplerState) : Option SamplerState :=
  match s.pc with
  | .test =>
    some { s with pc := if s.shouldTerminate then .done else if 0 < ncores then .ring 0 .poll else .test }
  | .ring i pc =>
    (s.body i pc).collectNext.map fun p =>
      { s.setRing i p with
        pc := SamplerPc.behind ncores i p.collect
        sampled := s.sampled ++ p.sampledAddress.map (Prod.mk i) }
  | .done => none

/-- `cache_collect_sample` with the kernel sides of all cores, and `terminate_cache_collect`. -/
def cacheCollectSample (ncores : ℕ) (s : SamplerState) : SamplerAct → Option SamplerState
  | .output i r => if i < ncores then (perf (s.body i .test) (.output r)).map (s.setRing i) else none
  | .store i => if i < ncores then (perf (s.body i .test) .store).map (s.setRing i) else none
  | .collect => s.collectNext ncores
  | .terminate => some { s with shouldTerminate := true }

/-- Where the thread is, as seen at ring `i`; elsewhere is before the next test of that ring. -/
def SamplerPc.seenAt (i : ℕ) : SamplerPc → CollectPc
  | .ring j pc => if j = i then pc else .test
  | _ => .test

/-- What is seen at ring `i`: the ring, where the thread is in it, and the addresses from it. -/
def SamplerState.view (s : SamplerState) (i : ℕ) : PerfState where
  cells := (s.rings i).cells
  dataHead := (s.rings i).dataHead
  dataTail := (s.rings i).dataTail
  kernel := (s.rings i).kernel
  collect := s.pc.seenAt i
  sampledAddress := ofSource i s.sampled
  shouldTerminate := false

end GraphBenchmark
