import Dyplo.FileIO.FileOutputQueue
import Dyplo.Process.ThreadedProcess

/-!
# A process that writes to a `FileOutputQueue`

The thread takes its blocks from a `FixedMemoryQueue<PthreadScheduler>`. Its waits for the
descriptor are steps of their own, so that a controller can interrupt the scheduler and reset it
at any point of a flush.
-/

universe u

namespace Dyplo

open PipelineState

/-- A `StaticProcessor` whose output elements are `size` bytes in memory. The bytes of a block fit
an `int`. -/
structure FileStage (β γ : Type u) where
  processor : StaticProcessor β γ
  size : Nat
  encode : γ → List UInt8
  encode_length : ∀ v, (encode v).length = size
  inputCapacity : Nat
  capacity : Nat
  synchronous : Bool
  block_small : processor.blocksize * size < 2 ^ 31

/-- Where a thread is in `while (write_buffer()) m_scheduler.wait_writeable(m_file_handle);`. -/
inductive FlushPoint
  | writeBuffer
  /-- `wait_writeable` is about to test `m_interrupted`. -/
  | waitWriteable
  | poll

/-- What a step of the loop leads to. -/
inductive FlushProgress
  | goesOn (point : FlushPoint)
  | finished
  | interrupted

/-- The steps of the loop. A `poll` returns once the descriptor or the pipe is ready. -/
inductive Flush (s : FileOutput) : FlushPoint → FlushProgress → FileOutput → Prop
  | finished (result : WriteResult) {t : FileOutput} :
      FileOutputQueue.writeBuffer { s with writes := [result] } = .ok false t →
      Flush s .writeBuffer .finished t
  | more (result : WriteResult) {t : FileOutput} :
      FileOutputQueue.writeBuffer { s with writes := [result] } = .ok true t →
      Flush s .writeBuffer (.goesOn .waitWriteable) t
  | flagged : s.poller.scheduler.mInterrupted = true → Flush s .waitWriteable .interrupted s
  | unflagged : s.poller.scheduler.mInterrupted = false → Flush s .waitWriteable (.goesOn .poll) s
  | piped : s.poller.scheduler.pipe ≠ 0 → Flush s .poll .interrupted s
  | ready : s.poller.scheduler.pipe = 0 → Flush s .poll (.goesOn .writeBuffer) s

/-- Where the thread is in `process`. -/
inductive FileThread (β : Type u)
  | joined
  | beginRead
  | beginWrite (src : Nat) (point : FlushPoint)
  | processBlock (src : Nat) (loaded : List β) (stored : Nat)
  | endWrite (point : FlushPoint)
  | endRead
  | exited

namespace FileThread

variable {β : Type u}

def afterBeginRead (src : Nat) : Outcome → FileThread β
  | .returned => .beginWrite src .writeBuffer
  | .interrupted => .exited
  | .sleeping => .beginRead

def inBeginWrite (src : Nat) : FlushProgress → FileThread β
  | .goesOn point => .beginWrite src point
  | .finished => .processBlock src [] 0
  | .interrupted => .exited

/-- The asynchronous variant calls `write_buffer` once. -/
def inEndWrite (synchronous : Bool) : FlushProgress → FileThread β
  | .goesOn point => if synchronous then .endWrite point else .endRead
  | .finished => .endRead
  | .interrupted => .exited

end FileThread

structure FileStageState (β : Type u) where
  input : Monitor Side β
  output : FileOutput
  thread : FileThread β

inductive FileActor
  | source
  | controller
  | stage
  deriving DecidableEq

namespace FileStage

variable {β γ : Type u}

def setScheduler (s : FileStageState β) (scheduler : FilePollScheduler) : FileStageState β :=
  { s with output := { s.output with poller := { s.output.poller with scheduler := scheduler } } }

/-- The element at index `stored` of the block that is being processed. -/
def storeElement (F : FileStage β γ) (s : FileOutput) (stored : Nat) (v : γ) : FileOutput :=
  { s with queue := { s.queue with
      mBuff := overlay s.queue.mBuff (stored * F.size) (F.encode v) } }

/-- The atomic steps. The stage goes on after a `begin_read` or `begin_write` only when its
`DEBUG_ASSERT` holds; a failure of the descriptor ends the program. -/
inductive Step (F : FileStage β γ) (s : FileStageState β) : FileActor → FileStageState β → Prop
  | source {a : MonitorAction Side β} {m : Monitor Side β} :
      SourceMayTake (T := fun _ => β) s.input a → s.input.Step a m →
      Step F s .source { s with input := m }
  | controlInput {a : MonitorAction Side β} {m : Monitor Side β} :
      ControllerMayTake (T := fun _ => β) (i := 0) a → s.input.Step a m →
      Step F s .controller { s with input := m }
  | interrupt : Step F s .controller (setScheduler s s.output.poller.scheduler.interrupt)
  | reset : Step F s .controller (setScheduler s s.output.poller.scheduler.reset)
  | start : s.thread = .joined → Step F s .controller { s with thread := .beginRead }
  | join : s.thread = .exited → Step F s .controller { s with thread := .joined }
  | beginRead {outcome : Outcome} {m : Monitor Side β} :
      s.thread = .beginRead →
      Ready (T := fun _ => β) (i := 0) s.input .consumer (.beginRead F.processor.blocksize) →
      s.input.enter .consumer (.beginRead F.processor.blocksize) = (outcome, m) →
      (outcome = .returned → F.processor.blocksize ≤ m.peers.read.count) →
      Step F s .stage { s with input := m, thread := .afterBeginRead m.peers.read.buffer outcome }
  | beginWrite {src : Nat} {point : FlushPoint} {progress : FlushProgress}
      {output : FileOutput} :
      s.thread = .beginWrite src point → Flush s.output point progress output →
      (progress = .finished → F.processor.blocksize ≤ output.queue.mCapacity) →
      Step F s .stage { s with output := output, thread := .inBeginWrite src progress }
  | load {src : Nat} {loaded : List β} {m : Monitor Side β} :
      s.thread = .processBlock src loaded 0 → loaded.length < F.processor.blocksize →
      s.input.Step (.load .consumer loaded.length) m →
      Step F s .stage { s with
        input := m
        thread := .processBlock src
          (loaded ++ [s.input.peers.queue.mBuff (src + loaded.length)]) 0 }
  | store {src stored : Nat} {loaded : List β} {v : γ} :
      s.thread = .processBlock src loaded stored → loaded.length = F.processor.blocksize →
      (F.processor.processBlock loaded)[stored]? = some v →
      Step F s .stage { s with
        output := F.storeElement s.output stored v
        thread := .processBlock src loaded (stored + 1) }
  | endWrite {src : Nat} {loaded : List β} :
      s.thread = .processBlock src loaded F.processor.blocksize →
      Step F s .stage { s with
        output := FileOutputQueue.commit F.size F.processor.blocksize s.output
        thread := .endWrite .writeBuffer }
  | flush {point : FlushPoint} {progress : FlushProgress} {output : FileOutput} :
      s.thread = .endWrite point → Flush s.output point progress output →
      Step F s .stage { s with output := output, thread := .inEndWrite F.synchronous progress }
  | endRead {m : Monitor Side β} :
      s.thread = .endRead → s.input.Step (.endRead .consumer F.processor.blocksize) m →
      Step F s .stage { s with input := m, thread := .beginRead }

/-- Both queues before the thread has been started. -/
def start (F : FileStage β γ) (inputMemory : Nat → β) (outputMemory : List UInt8) :
    FileStageState β :=
  { input := .start inputMemory F.inputCapacity
    output := .start outputMemory F.capacity
    thread := .joined }

/-- Every interleaving of the source, the stage and the controller. -/
def system (F : FileStage β γ) : TransitionSystem (FileStageState β) FileActor where
  init s := ∃ inputMemory outputMemory, outputMemory.length = F.capacity * F.size ∧
    s = F.start inputMemory outputMemory
  step s a t := F.Step s a t

/-- The bytes of elements in memory. -/
def bytes (F : FileStage β γ) (xs : List γ) : List UInt8 := xs.flatMap F.encode

/-- What the descriptor has taken and what is still to be written. -/
def outputBytes (s : FileStageState β) : List UInt8 := s.output.accepted ++ s.output.queue.pending

end FileStage

end Dyplo
