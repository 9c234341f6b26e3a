import Dyplo.Library.Blockwise
import Dyplo.Scheduler.Wakeup

/-!
# Pipelines of threaded processes

`StaticProcessor::process` takes a block from its input, transforms it into room of its output
and only then ends both. Its thread leaves at either wait when that wait is interrupted, and
nowhere else. Queue `i` feeds stage `i`, whose output is queue `i + 1`.
-/

universe u

namespace Dyplo

/-- The template arguments of a `StaticProcessor`. The block function reads `blocksize` elements
and writes as many. -/
structure StaticProcessor (β γ : Type u) where
  blocksize : Nat
  processBlock : List β → List γ
  blocksize_pos : 0 < blocksize
  processBlock_length : ∀ src, src.length = blocksize → (processBlock src).length = blocksize

/-- A linear pipeline: the capacities are multiples of the adjacent block sizes. -/
structure Pipeline (T : Nat → Type u) where
  stages : Nat
  stages_pos : 1 ≤ stages
  processor : (i : Fin stages) → StaticProcessor (T i) (T (i + 1))
  capacity : Nat → Nat
  input_dvd : ∀ i : Fin stages, (processor i).blocksize ∣ capacity i
  output_dvd : ∀ i : Fin stages, (processor i).blocksize ∣ capacity (i + 1)

/-- Where the thread of a stage is in `process`. The block function loads its block from `src`
and stores its image to `dest`, one slot at a time. -/
inductive StageThread (β : Type u)
  /-- There is no thread. -/
  | joined
  | beginRead
  | beginWrite (src : Nat)
  | processBlock (src dest : Nat) (loaded : List β) (stored : Nat)
  | endRead
  /-- `process` has caught the `InterruptedException`; the thread waits to be joined. -/
  | exited

/-- The rest of the loop body after `begin_read`: the exception leaves `process`. -/
def StageThread.afterBeginRead {β : Type u} (src : Nat) : Outcome → StageThread β
  | .returned => .beginWrite src
  | .interrupted => .exited
  | .sleeping => .beginRead

/-- The rest of the loop body after `begin_write`. The exception leaves `process` without an
`end_read`. -/
def StageThread.afterBeginWrite {β : Type u} (src dest : Nat) : Outcome → StageThread β
  | .returned => .processBlock src dest [] 0
  | .interrupted => .exited
  | .sleeping => .beginWrite src

variable {T : Nat → Type u}

structure PipelineState (P : Pipeline T) where
  queues : (i : Nat) → Monitor Side (T i)
  threads : (i : Fin P.stages) → StageThread (T i)

/-- Who takes a step. -/
inductive Actor (stages : Nat)
  | source
  | sink
  | controller
  | stage (i : Fin stages)

namespace PipelineState

variable {P : Pipeline T}

def setQueue (s : PipelineState P) (i : Nat) (m : Monitor Side (T i)) : PipelineState P :=
  { s with queues := Function.update s.queues i m }

def setThread (s : PipelineState P) (i : Fin P.stages) (t : StageThread (T i)) :
    PipelineState P :=
  { s with threads := Function.update s.threads i t }

/-- What the source may do with the first queue: anything inside its grants. -/
def SourceMayTake (m : Monitor Side (T 0)) : MonitorAction Side (T 0) → Prop
  | .call .producer (.beginWrite _) => True
  | .again .producer => True
  | .store .producer i v => m.peers.WithinGrants (.store i v)
  | .endWrite .producer count => m.peers.WithinGrants (.endWrite count)
  | _ => False

/-- What the sink may do with the last queue: anything inside its grants. -/
def SinkMayTake {i : Nat} (m : Monitor Side (T i)) : MonitorAction Side (T i) → Prop
  | .call .consumer (.beginRead _) => True
  | .again .consumer => True
  | .load .consumer i => m.peers.WithinGrants (.load i)
  | .endRead .consumer count => m.peers.WithinGrants (.endRead count)
  | _ => False

/-- `terminate()` interrupts the input's reader and the output's writer, `resume_read` and
`resume_write` undo it. They may hit any queue at any time, like a spurious wakeup. -/
def ControllerMayTake {i : Nat} : MonitorAction Side (T i) → Prop
  | .interruptRead => True
  | .interruptWrite => True
  | .resumeRead => True
  | .resumeWrite => True
  | .spurious _ => True
  | _ => False

/-- A thread enters the loop of a waiting call, for the first time or after a wakeup. -/
def Ready {i : Nat} (m : Monitor Side (T i)) (t : Side) (call : Call) : Prop :=
  m.threads t = .running ∨ m.threads t = .awake call

/-- The atomic steps of the whole pipeline. -/
inductive Step (s : PipelineState P) : Actor P.stages → PipelineState P → Prop
  | source {a : MonitorAction Side (T 0)} {m : Monitor Side (T 0)} :
      SourceMayTake (s.queues 0) a → (s.queues 0).Step a m → Step s .source (s.setQueue 0 m)
  | sink {a : MonitorAction Side (T P.stages)} {m : Monitor Side (T P.stages)} :
      SinkMayTake (s.queues P.stages) a → (s.queues P.stages).Step a m →
      Step s .sink (s.setQueue P.stages m)
  | controller {i : Nat} {a : MonitorAction Side (T i)} {m : Monitor Side (T i)} :
      ControllerMayTake a → (s.queues i).Step a m → Step s .controller (s.setQueue i m)
  /-- `set_input` and `set_output` start the thread. -/
  | start {i : Fin P.stages} : s.threads i = .joined →
      Step s .controller (s.setThread i .beginRead)
  /-- `m_thread.join()` at the end of `terminate()`. -/
  | join {i : Fin P.stages} : s.threads i = .exited →
      Step s .controller (s.setThread i .joined)
  | beginRead {i : Fin P.stages} {outcome : Outcome} {m : Monitor Side (T i)} :
      s.threads i = .beginRead →
      Ready (s.queues i) .consumer (.beginRead (P.processor i).blocksize) →
      (s.queues i).enter .consumer (.beginRead (P.processor i).blocksize) = (outcome, m) →
      Step s (.stage i) ((s.setQueue i m).setThread i (.afterBeginRead m.peers.read.buffer outcome))
  | beginWrite {i : Fin P.stages} {src : Nat} {outcome : Outcome}
      {m : Monitor Side (T (i + 1))} :
      s.threads i = .beginWrite src →
      Ready (s.queues (i + 1)) .producer (.beginWrite (P.processor i).blocksize) →
      (s.queues (i + 1)).enter .producer (.beginWrite (P.processor i).blocksize) =
        (outcome, m) →
      Step s (.stage i) ((s.setQueue (i + 1) m).setThread i
        (.afterBeginWrite src m.peers.write.buffer outcome))
  | load {i : Fin P.stages} {src dest : Nat} {loaded : List (T i)} {m : Monitor Side (T i)} :
      s.threads i = .processBlock src dest loaded 0 →
      loaded.length < (P.processor i).blocksize →
      (s.queues i).Step (.load .consumer loaded.length) m →
      Step s (.stage i) ((s.setQueue i m).setThread i (.processBlock src dest
        (loaded ++ [(s.queues i).peers.queue.mBuff (src + loaded.length)]) 0))
  | store {i : Fin P.stages} {src dest stored : Nat} {loaded : List (T i)} {v : T (i + 1)}
      {m : Monitor Side (T (i + 1))} :
      s.threads i = .processBlock src dest loaded stored →
      loaded.length = (P.processor i).blocksize → stored < (P.processor i).blocksize →
      ((P.processor i).processBlock loaded)[stored]? = some v →
      (s.queues (i + 1)).Step (.store .producer stored v) m →
      Step s (.stage i) ((s.setQueue (i + 1) m).setThread i
        (.processBlock src dest loaded (stored + 1)))
  | endWrite {i : Fin P.stages} {src dest : Nat} {loaded : List (T i)}
      {m : Monitor Side (T (i + 1))} :
      s.threads i = .processBlock src dest loaded (P.processor i).blocksize →
      (s.queues (i + 1)).Step (.endWrite .producer (P.processor i).blocksize) m →
      Step s (.stage i) ((s.setQueue (i + 1) m).setThread i .endRead)
  | endRead {i : Fin P.stages} {m : Monitor Side (T i)} :
      s.threads i = .endRead →
      (s.queues i).Step (.endRead .consumer (P.processor i).blocksize) m →
      Step s (.stage i) ((s.setQueue i m).setThread i .beginRead)

end PipelineState

namespace Pipeline

/-- The pipeline before any thread has been started. -/
def start (P : Pipeline T) (memory : (i : Nat) → Nat → T i) : PipelineState P :=
  { queues := fun i => .start (memory i) (P.capacity i), threads := fun _ => .joined }

/-- Every interleaving of the source, the stages, the sink and the controller. -/
def system (P : Pipeline T) : TransitionSystem (PipelineState P) (Actor P.stages) where
  init s := ∃ memory, s = P.start memory
  step s a t := s.Step a t

/-- The composed blockwise image of a source stream in front of queue `i`. -/
def image (P : Pipeline T) (xs : List (T 0)) : (i : Nat) → i ≤ P.stages → List (T i)
  | 0, _ => xs
  | i + 1, h => blockwise (P.processor ⟨i, h⟩).blocksize (P.processor ⟨i, h⟩).processBlock
      (P.image xs i (Nat.le_of_succ_le h))

end Pipeline

end Dyplo
