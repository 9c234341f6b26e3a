import Dyplo.Library.WeakestPrecondition
import Dyplo.Process.ThreadedProcess

/-!
# Cooperative processes

A queue with a `CooperativeScheduler` runs the process behind it inside its own `begin_write` and
`end_write`. A process only needs to write blocks to its output, whatever class that is; with its
input queue it is such an output itself, and so a chain is built from its sink upwards.
-/

namespace Dyplo

open CyclicBuffer

/-- Why a call does not return. -/
inductive CooperativeStop
  | interrupted
  | runtimeError (what : String)
  /-- The sink is still waiting: the call is under way. -/
  | unanswered
  /-- A loop has not come to its end in the given number of turns. -/
  | turnsExhausted
  deriving DecidableEq

abbrev CooperativeM (S α : Type) := EStateM CooperativeStop S α

/-- What a writer sees of a queue: `begin_write` returns the count of its grant, and stores go
through the pointer that it has handed out. -/
structure OutputQueue (S γ : Type) where
  beginWrite : Nat → CooperativeM S Nat
  store : Nat → γ → S → S
  endWrite : Nat → CooperativeM S Unit

/-- The effect of an action that never waits. -/
def PeerState.act {β : Type} (q : PeerState β) (a : PeerAction β) : PeerState β :=
  (q.next a).getD q

variable {S β γ : Type}

namespace OutputQueue

/-- Stores through `dest + i`, `dest + i + 1` and so on. -/
def storeFrom (out : OutputQueue S γ) : Nat → List γ → S → S
  | _, [], s => s
  | i, v :: vs, s => out.storeFrom (i + 1) vs (out.store i v s)

/-- `begin_write(dest, blocksize)`, the stores to `dest`, and `end_write(blocksize)`. With one
element this is `push_one`. -/
def put (out : OutputQueue S γ) (blocksize : Nat) (block : List γ) : CooperativeM S Unit := do
  let _ ← out.beginWrite blocksize
  modify (out.storeFrom 0 block)
  out.endWrite blocksize

end OutputQueue

/-- `CooperativeProcess::process_one`, whose every turn takes a block from the input. -/
def processOne (processor : StaticProcessor β γ) (out : OutputQueue S γ) :
    Nat → CooperativeM (PeerState β × S) Unit
  | 0 => throw .turnsExhausted
  | turns + 1 => do
      let s ← get
      match s.1.next (.beginRead 0) with
      | none => throw (.runtimeError "Not implemented: wait_until_not_empty")
      | some q =>
          set (q, s.2)
          if q.read.count < processor.blocksize then return
          else
            let src := straight q.queue.mBuff q.read.buffer processor.blocksize
            onSecond (out.put processor.blocksize (processor.processBlock src))
            modify fun s => (s.1.act (.endRead processor.blocksize), s.2)
            processOne processor out turns

/-- `begin_write` of a queue with a `CooperativeScheduler`: as long as there is no room,
`wait_until_not_full` runs the process downstream. -/
def cooperativeBeginWrite (downstream : CooperativeM (PeerState β × S) Unit) (countMin : Nat) :
    Nat → CooperativeM (PeerState β × S) Nat
  | 0 => throw .turnsExhausted
  | turns + 1 => do
      let s ← get
      match s.1.next (.beginWrite countMin) with
      | some q =>
          set (q, s.2)
          return q.write.count
      | none =>
          downstream
          cooperativeBeginWrite downstream countMin turns

/-- `FixedMemoryQueue<CooperativeScheduler>` with the process that reads it and the output of that
process. The `trigger_not_empty` of `end_write` runs the process. -/
def cooperativeQueue (turns : Nat) (processor : StaticProcessor β γ) (out : OutputQueue S γ) :
    OutputQueue (PeerState β × S) β where
  beginWrite countMin := cooperativeBeginWrite (processOne processor out turns) countMin turns
  store i v s := (s.1.act (.store i v), s.2)
  endWrite count := do
    modify fun s => (s.1.act (.endWrite count), s.2)
    processOne processor out turns

/-- A chain of stages, each with its input queue, in front of a sink with states `S₀` and elements
`γ₀`. The state of the chain has that of the sink in it. -/
inductive Chain (S₀ γ₀ : Type) : Type → Type → Type 1
  | sink : Chain S₀ γ₀ S₀ γ₀
  | stage {S β γ : Type} (capacity : Nat) (processor : StaticProcessor β γ)
      (rest : Chain S₀ γ₀ S γ) : Chain S₀ γ₀ (PeerState β × S) β

namespace Chain

variable {S₀ γ₀ : Type}

/-- The queue at the head of the chain. The loops get the same number of turns everywhere. -/
def queue (turns : Nat) (sink : OutputQueue S₀ γ₀) :
    {S β : Type} → Chain S₀ γ₀ S β → OutputQueue S β
  | _, _, .sink => sink
  | _, _, .stage _ processor rest => cooperativeQueue turns processor (rest.queue turns sink)

/-- The composed blockwise image. -/
def image : {S β : Type} → Chain S₀ γ₀ S β → List β → List γ₀
  | _, _, .sink, xs => xs
  | _, _, .stage _ processor rest, xs =>
      rest.image (blockwise processor.blocksize processor.processBlock xs)

def sinkState : {S β : Type} → Chain S₀ γ₀ S β → S → S₀
  | _, _, .sink, s => s
  | _, _, .stage _ _ rest, s => rest.sinkState s.2

def mapSink (f : S₀ → S₀) : {S β : Type} → Chain S₀ γ₀ S β → S → S
  | _, _, .sink, s => f s
  | _, _, .stage _ _ rest, s => (s.1, rest.mapSink f s.2)

/-- The block size of the stage that writes the sink; `bw` is that of the chain's own writer. -/
def sinkBlock : {S β : Type} → Chain S₀ γ₀ S β → Nat → Nat
  | _, _, .sink, bw => bw
  | _, _, .stage _ processor rest, _ => rest.sinkBlock processor.blocksize

/-- Every queue holds less than a block of the stage that reads it. -/
def Drained : {S β : Type} → Chain S₀ γ₀ S β → S → Prop
  | _, _, .sink, _ => True
  | _, _, .stage _ processor rest, s => s.1.queue.size < processor.blocksize ∧ rest.Drained s.2

/-- Every queue has elements and its capacity is a multiple of the block sizes on both sides. -/
def Divides : {S β : Type} → Chain S₀ γ₀ S β → Nat → Prop
  | _, _, .sink, _ => True
  | _, _, .stage capacity processor rest, bw =>
      1 ≤ capacity ∧ bw ∣ capacity ∧ processor.blocksize ∣ capacity ∧
        rest.Divides processor.blocksize

/-- No queue holds as many elements as its loops have turns. -/
def Below (turns : Nat) : {S β : Type} → Chain S₀ γ₀ S β → Prop
  | _, _, .sink => True
  | _, _, .stage capacity _ rest => capacity < turns ∧ rest.Below turns

/-- The queues have just been constructed. -/
def Fresh (init : S₀ → Prop) : {S β : Type} → Chain S₀ γ₀ S β → S → Prop
  | _, _, .sink, s => init s
  | _, _, .stage capacity _ rest, s =>
      (∃ memory, s.1 = .start memory capacity) ∧ rest.Fresh init s.2

end Chain

end Dyplo
