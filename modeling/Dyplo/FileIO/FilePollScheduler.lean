import Mathlib.Tactic.Positivity
import Mathlib.Tactic.SplitIfs

/-!
# `FilePollScheduler`

A thread that waits for a descriptor polls it together with an internal pipe. `interrupt` sets a
flag and writes to the pipe, `reset` empties the pipe and clears the flag.
-/

namespace Dyplo

/-- Conversion of a 64-bit size or difference to `int`. -/
def toInt (z : Int) : Int := z.bmod (2 ^ 32)

theorem toInt_of_lt {z : Int} (hpos : 0 ≤ z) (hlt : z < 2 ^ 31) : toInt z = z := by
  rw [toInt, Int.bmod_eq_of_le]
  · omega
  · omega

/-- Why a call of a file queue does not return. -/
inductive FileStop
  | interrupted
  | runtimeError (what : String)
  | endOfInput
  /-- The kernel has given no further answer: the call is still under way. -/
  | unanswered
  deriving DecidableEq

structure FilePollScheduler where
  mInterrupted : Bool
  /-- How many bytes are in `m_internal_pipe`. -/
  pipe : Nat
  deriving DecidableEq

namespace FilePollScheduler

def new : FilePollScheduler := ⟨false, 0⟩

def interrupt (s : FilePollScheduler) : FilePollScheduler := ⟨true, s.pipe + 1⟩

/-- `while (::read(...) == sizeof(dummy))` with a buffer of 16 bytes. -/
def drain (pipe : Nat) : Nat :=
  if 16 ≤ pipe then drain (pipe - 16) else 0

def reset (s : FilePollScheduler) : FilePollScheduler := ⟨false, drain s.pipe⟩

private theorem drain_eq_zero (pipe : Nat) : drain pipe = 0 := by
  fun_induction drain pipe with
  | case1 pipe _ ih => exact ih
  | case2 pipe _ => rfl

theorem reset_eq_new (s : FilePollScheduler) : s.reset = new := by
  rw [reset, drain_eq_zero, new]

end FilePollScheduler

/-- What ends a `poll`: the descriptor is ready, another thread has called `interrupt` in the
meantime, or `poll` fails. -/
inductive PollEvent
  | ready
  | interrupt
  | failed
  deriving DecidableEq

/-- The scheduler, and what its coming `poll` calls will see. -/
structure Poller where
  scheduler : FilePollScheduler
  polls : List PollEvent
  deriving DecidableEq

/-- `wait_readable` and `wait_writeable`, which differ in the events they ask for: how the wait
ends, if it does not return. -/
def Poller.wait (p : Poller) : Option FileStop × Poller :=
  if p.scheduler.mInterrupted then (some .interrupted, p)
  else
    match p.polls with
    | [] => (some .unanswered, p)
    | .failed :: polls => (some (.runtimeError "poll() failed"), { p with polls := polls })
    | .interrupt :: polls =>
        (some .interrupted, { scheduler := p.scheduler.interrupt, polls := polls })
    | .ready :: polls =>
        (if p.scheduler.pipe ≠ 0 then some .interrupted else none, { p with polls := polls })

end Dyplo
