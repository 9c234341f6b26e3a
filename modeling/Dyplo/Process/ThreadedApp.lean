import Dyplo.Process.PendingCalls
import Dyplo.Process.StageSteps

/-!
# A threaded application

A chain of `ThreadedProcess`es over `FixedMemoryQueue<PthreadScheduler>` as its main thread uses it:
it calls `push_one` on the first queue for every line of its input, and a `ThreadedProcessSink`
displays the last queue. At the end of the input it calls `wait_empty` on the queues from the first
to the last, and the destructors of the sink and of the processes run from the last to the first.
A chain with a cooperative process in it is another application.
-/

universe u

namespace Dyplo

/-- Where the thread of a `ThreadedProcessSink` is in `process`. It has displayed `shown`
elements of the block at `src`. -/
inductive SinkThread
  | beginRead
  | processItem (src shown : Nat)
  /-- `process` has caught the `InterruptedException`; the thread waits to be joined. -/
  | exited
  | joined

namespace SinkThread

/-- The rest of the loop body after `begin_read`: the exception leaves `process`. -/
def afterBeginRead (src : Nat) : Outcome → SinkThread
  | .returned => .processItem src 0
  | .interrupted => .exited
  | .sleeping => .beginRead

def reading (b : Nat) : SinkThread → Option Nat
  | .beginRead => some b
  | _ => none

end SinkThread

/-- Where `main` is. The stages count from the source to the sink. -/
inductive MainThread (α : Type u)
  | beginWrite (line : α) (lines : List α)
  | store (line : α) (lines : List α)
  | endWrite (lines : List α)
  | waitEmpty (i : Nat)
  | interruptSink
  | joinSink
  | interruptRead (i : Nat)
  | interruptWrite (i : Nat)
  | join (i : Nat)
  | returned
  /-- Nobody catches an `InterruptedException` in `main`. -/
  | uncaught

namespace MainThread

variable {α : Type u}

/-- The head of the reading loop: the next `push_one`, or the first `wait_empty`. -/
def loop : List α → MainThread α
  | [] => .waitEmpty 0
  | line :: lines => .beginWrite line lines

def afterBeginWrite (line : α) (lines : List α) : Outcome → MainThread α
  | .returned => .store line lines
  | .interrupted => .uncaught
  | .sleeping => .beginWrite line lines

/-- After the last queue the destructors follow. -/
def afterWaitEmpty (stages i : Nat) : Outcome → MainThread α
  | .returned => if i < stages then .waitEmpty (i + 1) else .interruptSink
  | .interrupted => .uncaught
  | .sleeping => .waitEmpty i

/-- `terminate()` of the last of `n` processes that are left. -/
def terminate : Nat → MainThread α
  | 0 => .returned
  | i + 1 => .interruptRead i

def writing : MainThread α → Option Nat
  | .beginWrite _ _ => some 1
  | _ => none

def waitsFor (i : Nat) : MainThread α → Bool
  | .waitEmpty j => i == j
  | _ => false

end MainThread

/-- The processes, their queues and the block size of the sink. -/
structure ThreadedApp (T : Nat → Type u) extends Pipeline T where
  sinkBlocksize : Nat
  sinkBlocksize_pos : 0 < sinkBlocksize
  sink_dvd : sinkBlocksize ∣ capacity stages
  capacity_pos : ∀ i, i ≤ stages → 0 < capacity i

variable {T : Nat → Type u}

/-- The sink's log is what `ProcessItemFunction` has been given. -/
structure AppState (A : ThreadedApp T) where
  queues : (i : Nat) → Monitor QueueUser (T i)
  stages : (i : Fin A.stages) → StageThread (T i)
  sink : SinkThread
  main : MainThread (T 0)
  displayed : List (T A.stages)

/-- Who takes a step. -/
inductive AppThread (stages : Nat)
  | main
  | stage (i : Fin stages)
  | sink
  | spurious

namespace AppState

variable {A : ThreadedApp T}

def setQueue (s : AppState A) (i : Nat) (m : Monitor QueueUser (T i)) : AppState A :=
  { s with queues := Function.update s.queues i m }

def setStage (s : AppState A) (i : Fin A.stages) (thread : StageThread (T i)) : AppState A :=
  { s with stages := Function.update s.stages i thread }

/-- The atomic steps of the whole program. -/
inductive Step (s : AppState A) : AppThread A.stages → AppState A → Prop
  | beginWrite {line : T 0} {lines : List (T 0)} {outcome : Outcome}
      {m : Monitor QueueUser (T 0)} :
      s.main = .beginWrite line lines → (s.queues 0).Ready .producer (.beginWrite 1) →
      (s.queues 0).enter .producer (.beginWrite 1) = (outcome, m) →
      Step s .main { s.setQueue 0 m with main := .afterBeginWrite line lines outcome }
  | store {line : T 0} {lines : List (T 0)} {m : Monitor QueueUser (T 0)} :
      s.main = .store line lines → (s.queues 0).Step (.store .producer 0 line) m →
      Step s .main { s.setQueue 0 m with main := .endWrite lines }
  | endWrite {lines : List (T 0)} {m : Monitor QueueUser (T 0)} :
      s.main = .endWrite lines → (s.queues 0).Step (.endWrite .producer 1) m →
      Step s .main { s.setQueue 0 m with main := .loop lines }
  | waitEmpty {i : Nat} {outcome : Outcome} {m : Monitor QueueUser (T i)} :
      s.main = .waitEmpty i → (s.queues i).Ready .waiter .waitEmpty →
      (s.queues i).enter .waiter .waitEmpty = (outcome, m) →
      Step s .main { s.setQueue i m with main := .afterWaitEmpty A.stages i outcome }
  | interruptSink {m : Monitor QueueUser (T A.stages)} :
      s.main = .interruptSink → (s.queues A.stages).Step .interruptRead m →
      Step s .main { s.setQueue A.stages m with main := .joinSink }
  | joinSink : s.main = .joinSink → s.sink = .exited →
      Step s .main { s with sink := .joined, main := .terminate A.stages }
  | interruptRead {i : Nat} {m : Monitor QueueUser (T i)} :
      s.main = .interruptRead i → (s.queues i).Step .interruptRead m →
      Step s .main { s.setQueue i m with main := .interruptWrite i }
  | interruptWrite {i : Nat} {m : Monitor QueueUser (T (i + 1))} :
      s.main = .interruptWrite i → (s.queues (i + 1)).Step .interruptWrite m →
      Step s .main { s.setQueue (i + 1) m with main := .join i }
  | join {i : Fin A.stages} : s.main = .join i → s.stages i = .exited →
      Step s .main { s.setStage i .joined with main := .terminate i }
  | stage {i : Fin A.stages} {thread : StageThread (T i)} {m : Monitor QueueUser (T i)}
      {w : Monitor QueueUser (T (i + 1))} :
      (s.stages i).Step .producer .consumer (A.processor i) (s.queues i) (s.queues (i + 1))
        thread m w →
      Step s (.stage i) (((s.setQueue i m).setQueue (i + 1) w).setStage i thread)
  | sinkBeginRead {outcome : Outcome} {m : Monitor QueueUser (T A.stages)} :
      s.sink = .beginRead → (s.queues A.stages).Ready .consumer (.beginRead A.sinkBlocksize) →
      (s.queues A.stages).enter .consumer (.beginRead A.sinkBlocksize) = (outcome, m) →
      Step s .sink { s.setQueue A.stages m with
        sink := .afterBeginRead m.peers.read.buffer outcome }
  | processItem {src shown : Nat} {m : Monitor QueueUser (T A.stages)} :
      s.sink = .processItem src shown → shown < A.sinkBlocksize →
      (s.queues A.stages).Step (.load .consumer shown) m →
      Step s .sink { s.setQueue A.stages m with
        sink := .processItem src (shown + 1)
        displayed := s.displayed ++ [(s.queues A.stages).peers.queue.mBuff (src + shown)] }
  | sinkEndRead {src : Nat} {m : Monitor QueueUser (T A.stages)} :
      s.sink = .processItem src A.sinkBlocksize →
      (s.queues A.stages).Step (.endRead .consumer A.sinkBlocksize) m →
      Step s .sink { s.setQueue A.stages m with sink := .beginRead }
  | spurious {i : Nat} {t : QueueUser} {m : Monitor QueueUser (T i)} :
      (s.queues i).Step (.spurious t) m → Step s .spurious (s.setQueue i m)

end AppState

namespace ThreadedApp

variable (A : ThreadedApp T)

/-- `main` after it has connected the processes, with all threads started. -/
def start (memory : (i : Nat) → Nat → T i) (lines : List (T 0)) : AppState A where
  queues i := .start (memory i) (A.capacity i)
  stages _ := .beginRead
  sink := .beginRead
  main := .loop lines
  displayed := []

/-- Every interleaving of `main`, the processes and the sink, with spurious wakeups. -/
def system (lines : List (T 0)) : TransitionSystem (AppState A) (AppThread A.stages) where
  init s := ∃ memory, s = A.start memory lines
  step s a t := s.Step a t

/-- The block size in which queue `i` is read. -/
def readBlock (i : Nat) : Nat :=
  if h : i < A.stages then (A.processor ⟨i, h⟩).blocksize else A.sinkBlocksize

end ThreadedApp

end Dyplo
