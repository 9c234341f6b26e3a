import Dyplo.FileIO.FileOutputQueue

/-!
# Rounds of `begin_write` and `end_write`

The owner stores into the buffer between a `begin_write` that returned the whole of it and the
`end_write` that commits it. A call that is left by an exception leaves the queue as it was at
that moment.
-/

namespace Dyplo

open FileOutputQueue

/-- A queue in use: the concatenation of the committed blocks, and whether the last call was a
`begin_write` that returned the full capacity. -/
structure OutputRound where
  output : FileOutput
  committed : List UInt8
  granted : Bool
  deriving DecidableEq

/-- The calls of the owner, with the kernel's answers to each, and those of other threads. -/
inductive OutputAction
  | beginWrite (countMin : Nat) (writes : List WriteResult) (polls : List PollEvent)
  | store (memory : List UInt8)
  | endWrite (count : Nat) (writes : List WriteResult) (polls : List PollEvent)
  | interrupt
  | reset

/-- A call starts with the answers it is going to get. -/
def FileOutput.answered (s : FileOutput) (writes : List WriteResult) (polls : List PollEvent) :
    FileOutput :=
  { s with writes := writes, poller := { s.poller with polls := polls } }

namespace OutputRound

/-- The queue after its constructor. -/
def start (memory : List UInt8) (capacity : Nat) : OutputRound :=
  { output := .start memory capacity, committed := [], granted := false }

/-- A call that the kernel has not answered is not over. -/
def next (size : Nat) (synchronous : Bool) (s : OutputRound) : OutputAction → Option OutputRound
  | .beginWrite countMin writes polls =>
      match FileOutputQueue.beginWrite countMin (s.output.answered writes polls) with
      | .ok r output =>
          some { s with output := output, granted := r = output.queue.mCapacity }
      | .error .unanswered _ => none
      | .error _ output => some { s with output := output, granted := false }
  | .store memory =>
      some { s with output.queue.mBuff := memory }
  | .endWrite count writes polls =>
      let block := s.output.queue.mBuff.take (count * size)
      match FileOutputQueue.endWrite size synchronous count (s.output.answered writes polls) with
      | .error .unanswered _ => none
      | .ok _ output | .error _ output =>
          some { output := output, committed := s.committed ++ block, granted := false }
  | .interrupt =>
      some { s with output.poller.scheduler := s.output.poller.scheduler.interrupt }
  | .reset =>
      some { s with output.poller.scheduler := s.output.poller.scheduler.reset }

/-- The buffer belongs to the owner only while it is granted. -/
def InTurn (s : OutputRound) : OutputAction → Prop
  | .store memory => s.granted ∧ memory.length = s.output.queue.mBuff.length
  | .endWrite count _ _ => s.granted ∧ 1 ≤ count ∧ count ≤ s.output.queue.mCapacity
  | _ => True

instance (s : OutputRound) (a : OutputAction) : Decidable (s.InTurn a) := by
  cases a <;> unfold InTurn <;> infer_instance

variable {size : Nat} {synchronous : Bool} {s t : OutputRound} {writes : List WriteResult}
  {polls : List PollEvent}

theorem next_beginWrite {countMin : Nat} {Q : Nat → FileOutput → Prop}
    {E : FileStop → FileOutput → Prop}
    (hspec : wp (FileOutputQueue.beginWrite countMin) Q E (s.output.answered writes polls))
    (hnext : s.next size synchronous (.beginWrite countMin writes polls) = some t) :
    t.committed = s.committed ∧
      ((∃ r, Q r t.output ∧ t.granted = decide (r = t.output.queue.mCapacity)) ∨
        ∃ stop, E stop t.output ∧ t.granted = false) := by
  rw [next] at hnext
  cases hrun : FileOutputQueue.beginWrite countMin (s.output.answered writes polls) with
  | ok r output =>
    rw [hrun] at hnext
    obtain rfl := Option.some.inj hnext
    exact ⟨rfl, .inl ⟨r, (wp_of_ok hrun).mp hspec, rfl⟩⟩
  | error stop output =>
    rw [hrun] at hnext
    have herror := (wp_of_error hrun).mp hspec
    cases stop with
    | unanswered => cases hnext
    | interrupted | runtimeError | endOfInput =>
      obtain rfl := Option.some.inj hnext
      exact ⟨rfl, .inr ⟨_, herror, rfl⟩⟩

/-- What an `end_write` can do to a round. -/
theorem next_endWrite {count : Nat} {Q : Unit → FileOutput → Prop}
    {E : FileStop → FileOutput → Prop}
    (hspec : wp (FileOutputQueue.endWrite size synchronous count) Q E
      (s.output.answered writes polls))
    (hnext : s.next size synchronous (.endWrite count writes polls) = some t) :
    t.committed = s.committed ++ s.output.queue.mBuff.take (count * size) ∧ t.granted = false ∧
      (Q () t.output ∨ ∃ stop, E stop t.output) := by
  rw [next] at hnext
  cases hrun : FileOutputQueue.endWrite size synchronous count
    (s.output.answered writes polls) with
  | ok r output =>
    rw [hrun] at hnext
    obtain rfl := Option.some.inj hnext
    exact ⟨rfl, rfl, .inl ((wp_of_ok hrun).mp hspec)⟩
  | error stop output =>
    rw [hrun] at hnext
    have herror := (wp_of_error hrun).mp hspec
    cases stop with
    | unanswered => cases hnext
    | interrupted | runtimeError | endOfInput =>
      obtain rfl := Option.some.inj hnext
      exact ⟨rfl, rfl, .inr ⟨_, herror⟩⟩

end OutputRound

/-- All sequences of rounds of a queue that has just been constructed. -/
def outputRounds (size capacity : Nat) (synchronous : Bool) :
    TransitionSystem OutputRound OutputAction :=
  .ofNext (fun s => ∃ memory : List UInt8, memory.length = capacity * size ∧
    s = .start memory capacity) OutputRound.InTurn (OutputRound.next size synchronous)

/-- What the descriptor has taken and what is pending are the committed blocks, and nothing is
pending while the buffer is granted. -/
structure OutputInv (size capacity : Nat) (s : OutputRound) : Prop where
  owes : Owes size capacity s.committed s.output
  idle : s.granted → s.output.queue.mBytesToWrite = 0

namespace OutputInv

variable {size capacity : Nat} {s t : OutputRound}

theorem start {memory : List UInt8} (hmemory : memory.length = capacity * size) :
    OutputInv size capacity (.start memory capacity) where
  owes := .start hmemory
  idle h := by cases h

private theorem answered (hs : OutputInv size capacity s) (writes : List WriteResult)
    (polls : List PollEvent) : Owes size capacity s.committed (s.output.answered writes polls) :=
  hs.owes.environment writes _

theorem beginWrite (hs : OutputInv size capacity s) {synchronous : Bool} {countMin : Nat}
    {writes : List WriteResult} {polls : List PollEvent}
    (hnext : s.next size synchronous (.beginWrite countMin writes polls) = some t) :
    OutputInv size capacity t := by
  obtain ⟨hcommitted, hcall⟩ :=
    OutputRound.next_beginWrite ((hs.answered writes polls).beginWrite_spec countMin) hnext
  rcases hcall with ⟨r, ⟨howes, hidle⟩, hgranted⟩ | ⟨stop, howes, hgranted⟩
  · rw [← hcommitted] at howes
    refine ⟨howes, fun hfull => hidle ?_⟩
    rw [hgranted] at hfull
    exact (of_decide_eq_true hfull).trans howes.mCapacity
  · rw [← hcommitted] at howes
    refine ⟨howes, fun hfull => ?_⟩
    rw [hgranted] at hfull
    cases hfull

theorem endWrite (hs : OutputInv size capacity s) {synchronous : Bool} {count : Nat}
    {writes : List WriteResult} {polls : List PollEvent}
    (hidle : s.output.queue.mBytesToWrite = 0) (hsmall : count * size < 2 ^ 31)
    (hcount : count ≤ s.output.queue.mCapacity)
    (hnext : s.next size synchronous (.endWrite count writes polls) = some t) :
    OutputInv size capacity t := by
  rw [hs.owes.mCapacity] at hcount
  obtain ⟨hcommitted, hgranted, hcall⟩ := OutputRound.next_endWrite
    ((hs.answered writes polls).endWrite_spec hidle hsmall hcount synchronous) hnext
  have howes : Owes size capacity t.committed t.output := by
    rw [hcommitted]
    rcases hcall with howes | ⟨stop, howes⟩
    · exact howes
    · exact howes
  refine ⟨howes, fun hfull => ?_⟩
  rw [hgranted] at hfull
  cases hfull

theorem store (hs : OutputInv size capacity s) {synchronous : Bool} {memory : List UInt8}
    (hgranted : s.granted = true) (hmemory : memory.length = s.output.queue.mBuff.length)
    (hnext : s.next size synchronous (.store memory) = some t) : OutputInv size capacity t := by
  obtain rfl := Option.some.inj hnext
  exact ⟨hs.owes.store (hs.idle hgranted) (hmemory.trans hs.owes.length), hs.idle⟩

theorem environment (hs : OutputInv size capacity s) (poller : Poller) :
    OutputInv size capacity { s with output.poller := poller } :=
  ⟨hs.owes.environment _ poller, hs.idle⟩

theorem next (hs : OutputInv size capacity s) (hsmall : capacity * size < 2 ^ 31)
    {synchronous : Bool} {a : OutputAction} (hturn : s.InTurn a)
    (hnext : s.next size synchronous a = some t) : OutputInv size capacity t := by
  cases a with
  | beginWrite countMin writes polls => exact hs.beginWrite hnext
  | store memory => exact hs.store hturn.1 hturn.2 hnext
  | endWrite count writes polls =>
    obtain ⟨hgranted, -, hcount⟩ := hturn
    have hle : count * size ≤ capacity * size := by
      rw [← hs.owes.mCapacity]
      exact Nat.mul_le_mul_right size hcount
    exact hs.endWrite (hs.idle hgranted) (Nat.lt_of_le_of_lt hle hsmall) hcount hnext
  | interrupt =>
    obtain rfl := Option.some.inj hnext
    exact hs.environment _
  | reset =>
    obtain rfl := Option.some.inj hnext
    exact hs.environment _

end OutputInv

/-- After every call the descriptor has taken the committed blocks up to the pending bytes, and a
`begin_write` returns the capacity only when no bytes are pending. -/
theorem fileOutput_stream (size capacity : Nat) (synchronous : Bool)
    (hsmall : capacity * size < 2 ^ 31) (s : OutputRound)
    (h : (outputRounds size capacity synchronous).Reachable s) :
    s.output.accepted ++ s.output.queue.pending = s.committed ∧
    ∀ n writes polls output,
      FileOutputQueue.beginWrite n (s.output.answered writes polls) = .ok capacity output →
      output.queue.mBytesToWrite = 0 := by
  have hinv : OutputInv size capacity s := by
    apply h.invariant (I := OutputInv size capacity)
    · rintro _ ⟨memory, hmemory, rfl⟩
      exact .start hmemory
    · rintro s a t hs ⟨hturn, hnext⟩
      exact hs.next hsmall hturn hnext
  refine ⟨hinv.owes.stream, ?_⟩
  intro n writes polls output hrun
  have hspec := (hinv.answered writes polls).beginWrite_spec n
  rw [wp_of_ok hrun] at hspec
  exact hspec.2 rfl

/-- A block of two bytes is written one byte at a time, and its `end_write` is interrupted in
between. -/
def interruptedRounds : List OutputAction :=
  [.beginWrite 1 [] [], .store [1, 2, 0, 0],
    .endWrite 1 [.written 1, .written 0] [.ready, .interrupt]]

def interruptedOutput : OutputRound :=
  (TransitionSystem.exec OutputRound.InTurn (OutputRound.next 2 true) (.start [0, 0, 0, 0] 2)
    interruptedRounds).get (by decide)

theorem fileOutput_stream_interrupted :
    interruptedOutput.output.accepted ++ interruptedOutput.output.queue.pending =
      interruptedOutput.committed ∧
    ∀ n writes polls output,
      FileOutputQueue.beginWrite n (interruptedOutput.output.answered writes polls) =
        .ok 2 output → output.queue.mBytesToWrite = 0 :=
  fileOutput_stream 2 2 true (by decide) interruptedOutput
    (.run (.init ⟨[0, 0, 0, 0], rfl, rfl⟩)
      (TransitionSystem.run_of_exec (Option.some_get _).symm))

example : interruptedOutput.output.accepted = [1] ∧ interruptedOutput.output.queue.pending = [2] ∧
    interruptedOutput.committed = [1, 2] := by decide

end Dyplo
