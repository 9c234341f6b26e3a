import Dyplo.Library.Blockwise
import Dyplo.FileIO.CallsUnderWay

/-!
# Two queues over one pipe

A `FileOutputQueue` on the write end of a `Pipe` and a `FileInputQueue` on its read end, each used
by a thread of its own. Neither has a lock, so that the reads, writes and polls of the two threads
come in any order. What the pipe gives to its reader is what the writer put in, in order.
-/

namespace Dyplo

open FileOutputQueue FileInputQueue

/-- The two queues as their last calls have left them, and the calls under way. -/
structure PipeLink where
  writer : OutputRound
  writing : Option OutputAction
  reader : InputRound
  reading : Option InputAction

/-- A thread calls, the kernel answers its call, or the call is over. -/
inductive PipeAction
  | output (a : OutputAction)
  | outputAnswer (x : OutputAnswer)
  | outputDone
  | input (a : InputAction)
  | inputAnswer (x : InputAnswer)
  | inputDone
  | inputThrows

namespace PipeLink

variable (size : Nat) (synchronous : Bool) (s : PipeLink)

/-- The writer's queue at this moment. -/
def output : OutputRound :=
  match s.writing with
  | none => s.writer
  | some a => s.writer.during size synchronous a

/-- The reader's queue at this moment. -/
def input : InputRound :=
  match s.reading with
  | none => s.reader
  | some a => s.reader.during size a

/-- The bytes in the pipe. -/
def pipe : List UInt8 :=
  (s.output size synchronous).output.accepted.drop (s.input size).input.taken.length

/-- The steps of both threads. An answer is used at once, and a `read` gets the next bytes of the
pipe. The reads of a `begin_read` that returns add up to whole elements, and one that throws has
read nothing. -/
inductive Step : PipeAction → PipeLink → Prop
  | output {a : OutputAction} : s.writing = none → a.Unanswered → s.writer.InTurn a →
      Step (.output a) { s with writing := some a }
  | outputAnswer {a : OutputAction} {x : OutputAnswer} : s.writing = some a →
      (s.writer.during size synchronous (a.answered x)).output.Answered →
      Step (.outputAnswer x) { s with writing := some (a.answered x) }
  | outputDone {a : OutputAction} {w : OutputRound} : s.writing = some a →
      s.writer.next size synchronous a = some w →
      Step .outputDone { s with writer := w, writing := none }
  | input {a : InputAction} : s.reading = none → a.Unanswered → s.reader.InTurn a →
      Step (.input a) { s with reading := some a }
  | inputAnswer {a : InputAction} {x : InputAnswer} : s.reading = some a →
      (s.reader.during size (a.answered x)).input.Answered →
      (s.reader.during size (a.answered x)).input.taken <+:
        (s.output size synchronous).output.accepted →
      Step (.inputAnswer x) { s with reading := some (a.answered x) }
  | inputDone {a : InputAction} {r : InputRound} : s.reading = some a → CallsAligned size a →
      s.reader.next size a = some r → Step .inputDone { s with reader := r, reading := none }
  | inputThrows {a : InputAction} {r : InputRound} : s.reading = some a →
      readBytes a.reads = [] → s.reader.thrown size a = some r →
      Step .inputThrows { s with reader := r, reading := none }

/-- The two queues on a new pipe, with buffers of their own. -/
def system (writeCapacity readCapacity : Nat) : TransitionSystem PipeLink PipeAction where
  init s := (∃ memory : List UInt8, memory.length = writeCapacity * size ∧
      s.writer = .start memory writeCapacity) ∧ s.writing = none ∧
    FreshInput size readCapacity s.reader ∧ s.reading = none
  step := Step size synchronous

/-- Both queues are in order, and the reader has taken nothing but what the writer has put in. -/
structure Inv (writeCapacity : Nat) : Prop where
  writer : OutputInv size writeCapacity s.writer
  writing : ∀ a, s.writing = some a → s.writer.InTurn a ∧
    (s.writer.during size synchronous a).output.accepted.length =
      s.writer.output.accepted.length + takenBytes a.writes
  reader : RoundInv size s.reader
  reading : ∀ a, s.reading = some a → s.reader.InTurn a
  fifo : (s.input size).input.taken <+: (s.output size synchronous).output.accepted

variable {size : Nat} {synchronous : Bool} {s t : PipeLink} {writeCapacity readCapacity : Nat}

private theorem output_idle (h : s.writing = none) : s.output size synchronous = s.writer := by
  rw [output, h]

private theorem output_during {a : OutputAction} (h : s.writing = some a) :
    s.output size synchronous = s.writer.during size synchronous a := by
  rw [output, h]

private theorem input_idle (h : s.reading = none) : s.input size = s.reader := by
  rw [input, h]

private theorem input_during {a : InputAction} (h : s.reading = some a) :
    s.input size = s.reader.during size a := by
  rw [input, h]

private theorem Inv.step (h : Inv size synchronous s writeCapacity) (hsize : 1 ≤ size)
    (hsmall : writeCapacity * size < 2 ^ 31) {a : PipeAction}
    (hs : Step size synchronous s a t) : Inv size synchronous t writeCapacity := by
  have hfifo := h.fifo
  cases hs with
  | @output a hidle hnone hturn =>
    refine ⟨h.writer, ?_, h.reader, h.reading, ?_⟩
    · rintro _ ⟨⟩
      exact ⟨hturn, h.writer.during_counts hsmall hturn (.inl hnone)⟩
    · rw [output_idle hidle] at hfifo
      exact hfifo.trans (h.writer.accepted_during hsmall hturn)
  | @outputAnswer a x hcall hused =>
    obtain ⟨hturn, hcounts⟩ := h.writing a hcall
    have hturn' := (OutputAction.inTurn_answered x).mpr hturn
    refine ⟨h.writer, ?_, h.reader, h.reading, ?_⟩
    · rintro _ ⟨⟩
      exact ⟨hturn', h.writer.during_counts hsmall hturn' (.inr hused)⟩
    · rw [output_during hcall] at hfifo
      exact hfifo.trans (h.writer.during_answered hsmall hturn hcounts hused)
  | @outputDone a w hcall hnext =>
    refine ⟨h.writer.next hsmall (h.writing a hcall).1 hnext, nofun, h.reader, h.reading, ?_⟩
    rw [output_during hcall, ← OutputRound.next_accepted hnext] at hfifo
    exact hfifo
  | @input a hidle hnone hturn =>
    refine ⟨h.writer, h.writing, h.reader, ?_, ?_⟩
    · rintro _ ⟨⟩
      exact hturn
    · rw [input_idle hidle, ← h.reader.during_unanswered hturn hnone] at hfifo
      exact hfifo
  | @inputAnswer a x hcall _ hpipe =>
    refine ⟨h.writer, h.writing, h.reader, ?_, hpipe⟩
    rintro _ ⟨⟩
    exact (InputAction.inTurn_answered x).mpr (h.reading a hcall)
  | @inputDone a r hcall haligned hnext =>
    refine ⟨h.writer, h.writing, h.reader.next hsize (h.reading a hcall) haligned hnext, nofun, ?_⟩
    rw [input_during hcall, ← InputRound.next_taken hnext] at hfifo
    exact hfifo
  | @inputThrows a r hcall hnone hthrown =>
    have hturn := h.reading a hcall
    obtain ⟨hreader, htaken⟩ := h.reader.thrown hturn hnone hthrown
    refine ⟨h.writer, h.writing, hreader, nofun, ?_⟩
    rw [input_during hcall] at hfifo
    change r.input.taken <+: _
    rw [htaken]
    exact (h.reader.taken_during hturn).trans hfifo

private theorem inv_of_reachable (hsize : 1 ≤ size) (hwrite : writeCapacity * size < 2 ^ 31)
    (hread : readCapacity * size < 2 ^ 31)
    (h : (system size synchronous writeCapacity readCapacity).Reachable s) :
    Inv size synchronous s writeCapacity := by
  apply h.invariant (I := fun s => Inv size synchronous s writeCapacity)
  · rintro ⟨w, writing, r, reading⟩ ⟨⟨memory, hmemory, hw⟩, hwriting, ⟨memory', hmemory', hr⟩,
      hreading⟩
    dsimp only at hw hwriting hr hreading
    subst hw hwriting hr hreading
    exact ⟨.start hmemory, nofun, .start hmemory' hread, nofun, List.prefix_refl _⟩
  · intro s a t hinv hs
    exact hinv.step hsize hwrite hs

private theorem Inv.owes (h : Inv size synchronous s writeCapacity)
    (hsmall : writeCapacity * size < 2 ^ 31) :
    Owes size writeCapacity (s.output size synchronous).committed
      (s.output size synchronous).output := by
  cases hcall : s.writing with
  | none =>
    rw [output_idle hcall]
    exact h.writer.owes
  | some a =>
    rw [output_during hcall]
    exact (h.writer.during hsmall synchronous (h.writing a hcall).1).1

private theorem Inv.holds (h : Inv size synchronous s writeCapacity) :
    size ∣ (s.input size).released.length ∧
    (s.input size).released ++ (s.input size).held = (s.input size).input.taken ∧
    (s.input size).held <+: (s.input size).input.queue.mBuff := by
  have hjoin : ∀ {r : InputRound}, r.released <+: r.input.taken →
      r.released ++ r.held = r.input.taken := by
    rintro r ⟨rest, hrest⟩
    rw [InputRound.held, ← hrest, List.drop_left]
  have hreleased := h.reader.released_le_taken
  cases hcall : s.reading with
  | none =>
    rw [input_idle hcall]
    refine ⟨h.reader.released, hjoin hreleased, ?_⟩
    rw [h.reader.held_eq_shown]
    exact List.take_prefix _ _
  | some a =>
    have hturn := h.reading a hcall
    rw [input_during hcall]
    have hsame : (s.reader.during size a).released = s.reader.released := by cases a <;> rfl
    refine ⟨hsame ▸ h.reader.released, hjoin ?_, h.reader.held_during hturn⟩
    rw [hsame]
    exact hreleased.trans (h.reader.taken_during hturn)

private theorem Inv.stream (h : Inv size synchronous s writeCapacity)
    (hsmall : writeCapacity * size < 2 ^ 31) :
    (s.input size).released ++ (s.input size).held ++ s.pipe size synchronous ++
      (s.output size synchronous).output.queue.pending =
      (s.output size synchronous).committed := by
  obtain ⟨rest, hrest⟩ := h.fifo
  have hpipe : s.pipe size synchronous = rest := by rw [pipe, ← hrest, List.drop_left]
  rw [hpipe, h.holds.2.1, hrest]
  exact (h.owes hsmall).stream

end PipeLink

/-- The writer's queue with two elements of two bytes, of which the descriptor has taken none. -/
def pairStored : OutputRound := ⟨⟨⟨[1, 2, 3, 4], 2, 0, 0⟩, ⟨.new, []⟩, [], []⟩, [], true⟩

/-- The writer's queue when the descriptor has taken both. -/
def pairWritten : OutputRound :=
  ⟨⟨⟨[1, 2, 3, 4], 2, 0, 0⟩, ⟨.new, []⟩, [], [1, 2, 3, 4]⟩, [1, 2, 3, 4], false⟩

/-- The reader has got the first byte, and both calls are under way. -/
def pairUnderWay : PipeLink :=
  ⟨pairStored, some (.endWrite 2 [.written 1] []), .start [0, 0, 0, 0] 2,
    some (.beginRead 2 [.data [1]] [])⟩

/-- The first element has been released. -/
def pairReleased : PipeLink :=
  ⟨pairWritten, none, ⟨⟨⟨[3, 4, 3, 4], 2, 1, 1⟩, ⟨.new, []⟩, [], [1, 2, 3, 4],
    [(0, 4), (1, 3)], 0⟩, [1, 2], 0⟩, none⟩

private theorem pairUnderWay_reachable : (PipeLink.system 2 true 2 2).Reachable pairUnderWay := by
  have hstart : (PipeLink.system 2 true 2 2).Reachable
      ⟨.start [0, 0, 0, 0] 2, none, .start [0, 0, 0, 0] 2, none⟩ :=
    .init ⟨⟨_, rfl, rfl⟩, rfl, ⟨_, rfl, rfl⟩, rfl⟩
  have hgranted := (hstart.step (.output (a := .beginWrite 1 [] []) rfl ⟨rfl, rfl⟩
    (by decide))).step (.outputDone (w := { pairStored with output.queue.mBuff := [0, 0, 0, 0] })
      rfl (by decide))
  have hstored := (hgranted.step (.output (a := .store [1, 2, 3, 4]) rfl trivial
    (by decide))).step (.outputDone (w := pairStored) rfl (by decide))
  have hwriting := (hstored.step (.output (a := .endWrite 2 [] []) rfl ⟨rfl, rfl⟩
    (by decide))).step (.outputAnswer (x := .write (.written 1)) rfl (by decide))
  have hboth := (hwriting.step (.input (a := .beginRead 2 [] []) rfl ⟨rfl, rfl⟩
    (by decide))).step (.inputAnswer (x := .read (.data [1])) rfl (by decide) (by decide))
  exact hboth

private theorem pairReleased_reachable : (PipeLink.system 2 true 2 2).Reachable pairReleased := by
  have hflushed := ((pairUnderWay_reachable.step (.outputAnswer (x := .poll .ready) rfl
    (by decide))).step (.outputAnswer (x := .write (.written 3)) rfl (by decide))).step
      (.outputDone (w := pairWritten) rfl (by decide))
  have hshown := (hflushed.step (.inputAnswer (x := .read (.data [2, 3, 4])) rfl (by decide)
    (by decide))).step (.inputDone (r := ⟨⟨⟨[1, 2, 3, 4], 2, 0, 2⟩, ⟨.new, []⟩, [], [1, 2, 3, 4],
      [(0, 4), (1, 3)], 0⟩, [], 2⟩) rfl (by decide) (by decide +kernel))
  have hreleased := (hshown.step (.input (a := .endRead 1) rfl trivial (by decide))).step
    (.inputDone (r := pairReleased.reader) rfl (by decide) (by decide))
  exact hreleased

example : (pairUnderWay.input 2).held = [1] ∧
    (pairUnderWay.output 2 true).output.queue.pending = [2, 3, 4] ∧
    pairReleased.reader.released = [1, 2] := by decide

end Dyplo
