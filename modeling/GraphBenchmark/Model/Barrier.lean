import GraphBenchmark.Foundations.Run
import Mathlib.Data.Int.Notation
import Mathlib.Logic.Function.Basic

/-! # `barrier_cross` (`bw/bw.cpp`)

One step is one access to the barrier or one effect of a call on its mutex and its condition. `pthread_cond_wait`
gives the mutex back and blocks in one step; the woken thread takes the mutex again in another one. -/
namespace GraphBenchmark
set_option autoImplicit false

/-- Where a thread stands in `barrier_cross`. -/
inductive CrossPc
  | outside
  | lock
  | inc
  | test
  | wait
  | blocked
  | woken
  | broadcast
  | reset
  | unlock
deriving DecidableEq, Repr

/-- `barrier_t`, with the owner of the mutex, and of each thread where it stands and how many calls it has started
and returned from. -/
structure BarrierState where
  count : ℤ
  crossed : ℤ
  holder : Option ℕ
  pc : ℕ → CrossPc
  started : ℕ → ℕ
  returned : ℕ → ℕ

/-- `barrier_init(b, count)`, with no thread in `barrier_cross`. -/
def barrierInit (count : ℤ) : BarrierState := ⟨count, 0, none, fun _ => .outside, fun _ => 0, fun _ => 0⟩

def BarrierState.goto (s : BarrierState) (t : ℕ) (p : CrossPc) : BarrierState := { s with pc := Function.update s.pc t p }

/-- Thread `t` calls `barrier_cross`. -/
def BarrierState.start (s : BarrierState) (t : ℕ) : Option BarrierState :=
  if s.pc t = .outside then some { s.goto t .lock with started := Function.update s.started t (s.started t + 1) } else none

/-- The next step of thread `t` inside `barrier_cross`. -/
def BarrierState.cross (s : BarrierState) (t : ℕ) : Option BarrierState :=
  match s.pc t with
  | .outside => none
  | .lock => if s.holder = none then some { s.goto t .inc with holder := some t } else none
  | .inc => some { s.goto t .test with crossed := s.crossed + 1 }
  | .test => some (s.goto t (if s.crossed < s.count then .wait else .broadcast))
  | .wait => some { s.goto t .blocked with holder := none }
  | .blocked => none
  | .woken => if s.holder = none then some { s.goto t .unlock with holder := some t } else none
  | .broadcast =>
    some { s with pc := Function.update (fun u => if s.pc u = .blocked then .woken else s.pc u) t .reset }
  | .reset => some { s.goto t .unlock with crossed := 0 }
  | .unlock =>
    some { s.goto t .outside with holder := none, returned := Function.update s.returned t (s.returned t + 1) }

/-- Thread `t` wakes up without a broadcast. -/
def BarrierState.wake (s : BarrierState) (t : ℕ) : Option BarrierState :=
  if s.pc t = .blocked then some (s.goto t .woken) else none

inductive BarrierAct
  | start (t : ℕ)
  | cross (t : ℕ)
  | wake (t : ℕ)
deriving DecidableEq, Repr

/-- `n` threads that call `barrier_cross` again and again. -/
def barrierCross (n : ℕ) (s : BarrierState) : BarrierAct → Option BarrierState
  | .start t => if t < n then s.start t else none
  | .cross t => s.cross t
  | .wake t => s.wake t

end GraphBenchmark
