import GraphBenchmark.Model.BwMain

/-! # The time stamps of the bandwidth program (`bw/bw.h`, `bw/main.cpp`)

`rdtscll` reads a counter that all cores share and that does not run backwards; each step of the program happens at
some value of it. -/
namespace GraphBenchmark
set_option autoImplicit false

/-- The program with the counter, the time stamps of each worker, and when it has made its copies. -/
structure TimedState where
  run : BwState
  now : UInt64
  startCycle : ℕ → UInt64
  stopCycle : ℕ → UInt64
  times : ℕ → List UInt64

/-- `memset(infos, 0, ..)` clears the time stamps. -/
def TimedState.init (now : UInt64) : TimedState := ⟨BwState.init, now, fun _ => 0, fun _ => 0, fun _ => []⟩

section Program
variable (o : BwOptions) (libs : BwLibs) (hub : Hub)

/-- What worker `t` does with the counter in its next step, at `cycles`. -/
def TimedState.stamp (s : TimedState) (t : ℕ) (cycles : UInt64) : TimedState :=
  match s.run.pc t with
  | .start => { s with startCycle := Function.update s.startCycle t cycles }
  | .access i =>
    if i < o.nbAccesses.toNat then { s with times := Function.update s.times t (s.times t ++ [cycles]) }
    else { s with stopCycle := Function.update s.stopCycle t cycles }
  | _ => s

/-- A step of the program at a value of the counter. -/
def timedMain (s : TimedState) (a : BwAct × UInt64) : Option TimedState :=
  if s.now.toNat ≤ a.2.toNat then
    (bwMain o libs hub s.run a.1).map fun r =>
      match a.1 with
      | .worker t => { s.stamp o t a.2 with run := r, now := a.2 }
      | _ => { s with run := r, now := a.2 }
  else none

end Program

/-! ## What `main` prints -/

/-- `find_start`. -/
def findStart (startCycle : ℕ → UInt64) (threads : ℕ) : UInt64 :=
  (List.range threads).foldl (fun min i => if (startCycle i).toNat < min.toNat then startCycle i else min) 0xffffffffffffffff

/-- `find_stop`. -/
def findStop (stopCycle : ℕ → UInt64) (threads : ℕ) : UInt64 :=
  (List.range threads).foldl (fun max i => if max.toNat < (stopCycle i).toNat then stopCycle i else max) 0

/-- `total_bytes`, in units of 2^20 bytes. -/
def totalBytes (o : BwOptions) : UInt64 := UInt64.ofNat o.threads * o.nbAccesses * o.accessSize / 1024 / 1024

end GraphBenchmark
