import Dyplo.FileIO.FileInputQueue
import Dyplo.FileIO.FileOutputQueue
import Dyplo.Scheduler.ClearWakeup

/-!
# What the queues of a process throw

A process takes any class with a `begin_read` and an `end_read` for its input, and any with a
`begin_write` and an `end_write` for its output. An exception of the queue, of its scheduler or of
a process behind it comes out of these calls.
-/

namespace Dyplo

inductive LibraryException
  | interrupted
  | endOfInput
  | endOfOutput
  | truncatedFile
  | runtimeError (what : String)
  deriving DecidableEq

/-- The classes that derive from `EndOfFileException`. -/
def LibraryException.isEndOfFile : LibraryException → Bool
  | .endOfInput => true
  | .endOfOutput => true
  | .truncatedFile => true
  | _ => false

/-- Why a call does not return. -/
inductive CallStop
  | throws (e : LibraryException)
  /-- A null pointer, or regions that overlap. -/
  | undefined
  /-- The call is still under way. -/
  | unanswered
  deriving DecidableEq

abbrev CallM (σ : Type) := EStateM CallStop σ

/-- An input of a process. `others` is what other threads and the kernel do between its calls, and
`reads` how the coming calls of `read(2)` end. -/
structure ReaderClass (σ : Type) where
  beginRead : Nat → CallM σ Nat
  endRead : Nat → CallM σ Unit
  others : σ → σ → Prop
  reads : σ → List ReadResult

structure WriterClass (τ : Type) where
  beginWrite : Nat → CallM τ Nat
  endWrite : Nat → CallM τ Unit
  others : τ → τ → Prop

def FileStop.callStop : FileStop → CallStop
  | .interrupted => .throws .interrupted
  | .runtimeError what => .throws (.runtimeError what)
  | .endOfInput => .throws .endOfInput
  | .unanswered => .unanswered

/-- A call of a file queue. -/
def fileCall {σ α : Type} (c : EStateM FileStop σ α) : CallM σ α := fun s =>
  match c s with
  | .ok a t => .ok a t
  | .error e t => .error e.callStop t

/-- `FileInputQueue` of elements of `size` bytes. -/
def FileInputQueue.reader (size : Nat) : ReaderClass FileInput where
  beginRead countMin := fileCall (beginRead size countMin)
  endRead count := do
    let s ← get
    match endRead size s.queue count with
    | some queue => set { s with queue := queue }
    | none => throw .undefined
  others s t := ∃ poller reads, t = { s with poller := poller, reads := reads }
  reads := FileInput.reads

def FileOutputQueue.writer (size : Nat) (synchronous : Bool) : WriterClass FileOutput where
  beginWrite countMin := fileCall (beginWrite countMin)
  endWrite count := fileCall (endWrite size synchronous count)
  others s t := ∃ poller writes, t = { s with poller := poller, writes := writes }

/-- The schedulers of a queue in memory. -/
inductive MemoryScheduler
  | noop
  /-- Without a process behind it. -/
  | cooperative
  | pthread (scheduler : PthreadScheduler)

/-- A queue in memory with its scheduler. Every time the thread gets the mutex back after a wait,
it finds what the other threads have made of the queue and of the flags. -/
structure MemoryQueue (Q : Type) where
  queue : Q
  scheduler : MemoryScheduler
  wakeups : List (Q × PthreadScheduler)

namespace MemoryQueue

variable {Q : Type}

/-- `m_scheduler.wait_until_not_full()` and `m_scheduler.wait_until_not_empty()` -/
def wait (c : Condition) : CallM (MemoryQueue Q) Unit := do
  let s ← get
  match s.scheduler, c with
  | .pthread scheduler, c =>
      if scheduler.interrupted c then throw (.throws .interrupted)
      else
        match s.wakeups with
        | [] => throw .unanswered
        | (queue, scheduler) :: wakeups => set (MemoryQueue.mk queue (.pthread scheduler) wakeups)
  | .noop, .notFull => throw (.throws (.runtimeError "Not implemented: wait_until_not_full"))
  | .cooperative, .notFull => throw .undefined
  | _, .notEmpty => throw (.throws (.runtimeError "Not implemented: wait_until_not_empty"))

/-- `m_scheduler.trigger_not_empty()`. A signal wakes other threads. -/
def triggerNotEmpty : CallM (MemoryQueue Q) Unit := do
  match (← get).scheduler with
  | .cooperative => throw .undefined
  | _ => return

end MemoryQueue

/-- `while (...) m_scheduler.wait...();` in front of the rest of a `begin_*`, which returns a
count. -/
def waitLoop {σ : Type} (attempt : σ → Option Nat) (wait : CallM σ Unit) : Nat → CallM σ Nat
  | 0 => throw .unanswered
  | turns + 1 => do
      match attempt (← get) with
      | some count => return count
      | none =>
          wait
          waitLoop attempt wait turns

variable {Q τ : Type}

/-- The reader's side of a queue template. What it releases triggers nothing in its own thread. -/
def QueueImpl.reader (impl : QueueImpl Q) (turns : Nat) : ReaderClass (MemoryQueue Q) where
  beginRead countMin :=
    waitLoop (fun s => impl.beginRead s.queue countMin) (MemoryQueue.wait .notEmpty) turns
  endRead count := modify fun s => { s with queue := (impl.endRead s.queue count).getD s.queue }
  others _ _ := True
  reads _ := []

/-- The writer's side, where nothing but other threads reads. -/
def QueueImpl.writer (impl : QueueImpl Q) (turns : Nat) : WriterClass (MemoryQueue Q) where
  beginWrite countMin :=
    waitLoop (fun s => impl.beginWrite s.queue countMin) (MemoryQueue.wait .notFull) turns
  endWrite count := do
    let s ← get
    match impl.endWrite s.queue count with
    | none => return
    | some queue =>
        set { s with queue := queue }
        MemoryQueue.triggerNotEmpty
  others _ _ := True

/-- `CooperativeProcess::process_one` between a queue with a `CooperativeScheduler` and an output.
The block function reads the block of the queue and stores to the output. -/
def QueueImpl.processOne (impl : QueueImpl Q) (blocksize : Nat) (processBlock : Q → τ → τ)
    (out : WriterClass τ) : Nat → CallM (Q × τ) Unit
  | 0 => throw .unanswered
  | turns + 1 => do
      let s ← get
      match impl.beginRead s.1 0 with
      | none => throw (.throws (.runtimeError "Not implemented: wait_until_not_empty"))
      | some count =>
          if count < blocksize then return
          else
            let _ ← onSecond (out.beginWrite blocksize)
            modify fun s => (s.1, processBlock s.1 s.2)
            onSecond (out.endWrite blocksize)
            modify fun s => ((impl.endRead s.1 blocksize).getD s.1, s.2)
            impl.processOne blocksize processBlock out turns

/-- The writer's side of a queue with a `CooperativeScheduler` and the process behind it. -/
def QueueImpl.cooperativeWriter (impl : QueueImpl Q) (blocksize : Nat) (processBlock : Q → τ → τ)
    (out : WriterClass τ) (turns : Nat) : WriterClass (Q × τ) where
  beginWrite countMin :=
    waitLoop (fun s => impl.beginWrite s.1 countMin)
      (impl.processOne blocksize processBlock out turns) turns
  endWrite count := do
    let s ← get
    match impl.endWrite s.1 count with
    | none => return
    | some queue =>
        set (queue, s.2)
        impl.processOne blocksize processBlock out turns
  others s t := t.1 = s.1 ∧ out.others s.2 t.2

/-- The inputs that the library has. -/
inductive LibraryReader : {σ : Type} → ReaderClass σ → Prop
  | fixedMemoryQueue (α : Type) (turns : Nat) :
      LibraryReader ((FixedMemoryQueue.impl α).reader turns)
  | singleElementQueue (α : Type) (turns : Nat) :
      LibraryReader ((SingleElementQueue.impl α).reader turns)
  | fileInputQueue (size : Nat) : LibraryReader (FileInputQueue.reader size)

/-- The outputs that the library has. With a `CooperativeScheduler` any number of processes can be
behind a queue. -/
inductive LibraryWriter : {τ : Type} → WriterClass τ → Prop
  | fixedMemoryQueue (α : Type) (turns : Nat) :
      LibraryWriter ((FixedMemoryQueue.impl α).writer turns)
  | singleElementQueue (α : Type) (turns : Nat) :
      LibraryWriter ((SingleElementQueue.impl α).writer turns)
  | fileOutputQueue (size : Nat) (synchronous : Bool) :
      LibraryWriter (FileOutputQueue.writer size synchronous)
  | cooperativeFixed {τ : Type} {out : WriterClass τ} (hout : LibraryWriter out) (α : Type)
      (blocksize turns : Nat) (processBlock : FixedMemoryQueue α → τ → τ) :
      LibraryWriter ((FixedMemoryQueue.impl α).cooperativeWriter blocksize processBlock out turns)
  | cooperativeSingle {τ : Type} {out : WriterClass τ} (hout : LibraryWriter out) (α : Type)
      (blocksize turns : Nat) (processBlock : SingleElementQueue α → τ → τ) :
      LibraryWriter ((SingleElementQueue.impl α).cooperativeWriter blocksize processBlock out turns)

end Dyplo
