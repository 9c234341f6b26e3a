import Dyplo.Process.QueueClasses

/-!
# How a processing thread ends

`ThreadedProcessBase::process` catches the `InterruptedException` that ends its loop. Whatever else
a queue throws leaves the thread function, and the program is terminated.
-/

namespace Dyplo

/-- Where the thread is in `process`. -/
inductive ThreadPlace
  | beginRead
  | beginWrite
  | processBlock
  | endWrite
  | endRead
  /-- `process` has returned, and so has the thread function. -/
  | returned
  | escaped (e : LibraryException)
  deriving DecidableEq

/-- `catch (const dyplo::InterruptedException&)` around `m_processor.process(input, output)` -/
def ThreadPlace.afterThrow (e : LibraryException) : ThreadPlace :=
  if e = .interrupted then .returned else .escaped e

structure ThreadBody (σ τ : Type) where
  input : σ
  output : τ
  place : ThreadPlace

/-- The steps, and how the calls of `read(2)` of a step end. -/
inductive ThreadAction
  | others
  | call (answers : List ReadResult)

def ThreadAction.answers : ThreadAction → List ReadResult
  | others => []
  | call answers => answers

variable {σ τ : Type}

/-- `ThreadedProcessBase::process` with a `StaticProcessor`: every call of its loop is a step. -/
inductive ThreadBody.Step (input : ReaderClass σ) (output : WriterClass τ) (blocksize : Nat)
    (processBlock : σ → τ → τ) (s : ThreadBody σ τ) : ThreadAction → ThreadBody σ τ → Prop
  | others {i : σ} {o : τ} : input.others s.input i → output.others s.output o →
      Step input output blocksize processBlock s .others { s with input := i, output := o }
  | beginRead {count : Nat} {i : σ} {answers : List ReadResult} : s.place = .beginRead →
      input.beginRead blocksize s.input = .ok count i →
      input.reads s.input = answers ++ input.reads i →
      Step input output blocksize processBlock s (.call answers)
        { s with input := i, place := .beginWrite }
  | beginReadThrows {e : LibraryException} {i : σ} {answers : List ReadResult} :
      s.place = .beginRead → input.beginRead blocksize s.input = .error (.throws e) i →
      input.reads s.input = answers ++ input.reads i →
      Step input output blocksize processBlock s (.call answers)
        { s with input := i, place := .afterThrow e }
  | beginWrite {count : Nat} {o : τ} : s.place = .beginWrite →
      output.beginWrite blocksize s.output = .ok count o →
      Step input output blocksize processBlock s (.call [])
        { s with output := o, place := .processBlock }
  | beginWriteThrows {e : LibraryException} {o : τ} : s.place = .beginWrite →
      output.beginWrite blocksize s.output = .error (.throws e) o →
      Step input output blocksize processBlock s (.call [])
        { s with output := o, place := .afterThrow e }
  | processBlock : s.place = .processBlock →
      Step input output blocksize processBlock s (.call [])
        { s with output := processBlock s.input s.output, place := .endWrite }
  | endWrite {o : τ} : s.place = .endWrite → output.endWrite blocksize s.output = .ok () o →
      Step input output blocksize processBlock s (.call [])
        { s with output := o, place := .endRead }
  | endWriteThrows {e : LibraryException} {o : τ} : s.place = .endWrite →
      output.endWrite blocksize s.output = .error (.throws e) o →
      Step input output blocksize processBlock s (.call [])
        { s with output := o, place := .afterThrow e }
  | endRead {i : σ} : s.place = .endRead → input.endRead blocksize s.input = .ok () i →
      Step input output blocksize processBlock s (.call [])
        { s with input := i, place := .beginRead }
  | endReadThrows {e : LibraryException} {i : σ} : s.place = .endRead →
      input.endRead blocksize s.input = .error (.throws e) i →
      Step input output blocksize processBlock s (.call [])
        { s with input := i, place := .afterThrow e }

/-- Every run of a thread, whatever the queues are like when it starts. -/
def threadBody (input : ReaderClass σ) (output : WriterClass τ) (blocksize : Nat)
    (processBlock : σ → τ → τ) : TransitionSystem (ThreadBody σ τ) ThreadAction where
  init s := s.place = .beginRead
  step s a t := s.Step input output blocksize processBlock a t

/-- Neither an `InterruptedException` nor an `EndOfFileException` has left `process`. -/
def ThreadBody.EndsCleanly (s : ThreadBody σ τ) : Prop :=
  ∀ e, s.place = .escaped e → e ≠ .interrupted ∧ e.isEndOfFile = false

/-- A stop that is no `EndOfFileException`. -/
def CallStop.NotAtEnd (stop : CallStop) : Prop := ∀ e, stop = .throws e → e.isEndOfFile = false

/-- An exception that says that the descriptor has come to its end, if it has, and nothing else of
that kind. -/
def CallStop.Reports (answers : List ReadResult) (stop : CallStop) : Prop :=
  ∀ e, stop = .throws e →
    (.endOfFile ∈ answers ↔ e = .endOfInput) ∧ (e.isEndOfFile = true → e = .endOfInput)

/-- `begin_read` throws an `EndOfInputException` at the end of its descriptor and there only. -/
structure ReaderClass.ReportsEnd (c : ReaderClass σ) : Prop where
  beginRead : ∀ n s, wp (c.beginRead n)
    (fun _ t => ∃ answers, c.reads s = answers ++ c.reads t ∧ .endOfFile ∉ answers)
    (fun stop t => ∃ answers, c.reads s = answers ++ c.reads t ∧ stop.Reports answers) s
  endRead : ∀ n s, wp (c.endRead n) (fun _ _ => True) (fun stop _ => ∀ e, stop ≠ .throws e) s

structure WriterClass.ReportsNoEnd (c : WriterClass τ) : Prop where
  beginWrite : ∀ n, Keeps (fun _ => True) CallStop.NotAtEnd (c.beginWrite n)
  endWrite : ∀ n, Keeps (fun _ => True) CallStop.NotAtEnd (c.endWrite n)

section FileQueues

theorem wp_fileCall {α : Type} {c : EStateM FileStop σ α} {Q : α → σ → Prop}
    {E : CallStop → σ → Prop} {s : σ} :
    wp (fileCall c) Q E s ↔ wp c Q (fun e t => E e.callStop t) s := by
  unfold wp fileCall
  cases c s <;> rfl

private theorem keeps_fileCall {α : Type} {c : EStateM FileStop σ α}
    (h : Keeps (fun _ => True) (· ≠ .endOfInput) c) :
    Keeps (fun _ => True) CallStop.NotAtEnd (fileCall c) := by
  intro s hs
  rw [wp_fileCall]
  refine (h s hs).mono (fun _ _ _ => trivial) ?_
  rintro stop _ ⟨hstop, -⟩
  refine ⟨?_, trivial⟩
  rintro e he
  cases stop with
  | endOfInput => exact absurd rfl hstop
  | interrupted => cases he; rfl
  | runtimeError what => cases he; rfl
  | unanswered => cases he

private theorem Poller.wait_ne_endOfInput (p : Poller) : p.wait.1 ≠ some .endOfInput := by
  unfold Poller.wait
  by_cases hflag : p.scheduler.mInterrupted = true
  · simp [hflag]
  · rw [if_neg hflag]
    cases p.polls with
    | nil => simp
    | cons event polls =>
      cases event with
      | ready =>
        by_cases hpipe : p.scheduler.pipe ≠ 0
        · simp [hpipe]
        · simp [hpipe]
      | interrupt => simp
      | failed => simp

namespace FileOutputQueue

private theorem keeps_writeBuffer : Keeps (fun _ => True) (· ≠ .endOfInput) writeBuffer := by
  refine Keeps.get_bind fun s _ => Keeps.ite (fun _ => Keeps.pure _) fun _ => ?_
  cases s.writes with
  | nil => exact Keeps.throw (by simp)
  | cons result writes =>
    cases result with
    | again => exact (Keeps.set trivial).bind fun _ => Keeps.pure _
    | failed => exact (Keeps.set trivial).bind fun _ => Keeps.throw (by simp)
    | written count =>
      exact Keeps.ite (fun _ => Keeps.throw (by simp))
        fun _ => (Keeps.set trivial).bind fun _ => Keeps.pure _

private theorem keeps_waitWriteable : Keeps (fun _ => True) (· ≠ .endOfInput) waitWriteable := by
  refine Keeps.get_bind fun s _ => (Keeps.set trivial).bind fun _ => ?_
  have hwait := s.poller.wait_ne_endOfInput
  cases hstop : s.poller.wait.1 with
  | none => exact Keeps.pure _
  | some stop =>
    rw [hstop] at hwait
    exact Keeps.throw fun h => hwait (congrArg some h)

private theorem keeps_flushLoop (turns : Nat) :
    Keeps (fun _ => True) (· ≠ .endOfInput) (flushLoop turns) := by
  induction turns with
  | zero => exact Keeps.throw (by simp)
  | succ turns ih =>
    exact keeps_writeBuffer.bind fun _ =>
      Keeps.ite (fun _ => keeps_waitWriteable.bind fun _ => ih) fun _ => Keeps.pure _

private theorem keeps_flush : Keeps (fun _ => True) (· ≠ .endOfInput) flush :=
  Keeps.get_bind fun s _ => keeps_flushLoop (s.writes.length + 1)

theorem writer_reportsNoEnd (size : Nat) (synchronous : Bool) :
    (writer size synchronous).ReportsNoEnd where
  beginWrite n := by
    apply keeps_fileCall
    have hrest : ∀ more : Bool, Keeps (fun _ => True) (· ≠ .endOfInput)
        (if more = true then pure 0
          else do
            flush
            return (← get).queue.mCapacity : FileOutputM Nat) := fun more =>
      Keeps.ite (fun _ => Keeps.pure _) fun _ => keeps_flush.bind fun _ =>
        Keeps.get_bind fun _ _ => Keeps.pure _
    unfold beginWrite
    exact Keeps.ite (fun _ => keeps_writeBuffer.bind hrest) fun _ => (Keeps.pure _).bind hrest
  endWrite n := by
    apply keeps_fileCall
    refine (Keeps.modify fun _ _ => trivial).bind fun _ => ?_
    exact Keeps.ite (fun _ => keeps_flush) fun _ => keeps_writeBuffer.bind fun _ => Keeps.pure _

end FileOutputQueue

namespace FileInputQueue

/-- A call that has taken these answers of the kernel has not met the end of the file. -/
def GoesOn (s t : FileInput) : Prop := ∃ answers, s.reads = answers ++ t.reads ∧
  .endOfFile ∉ answers

/-- A call that stops does so with the exception for the end of the file if it has met that. -/
def Stops (s : FileInput) (e : FileStop) (t : FileInput) : Prop :=
  ∃ answers, s.reads = answers ++ t.reads ∧ (.endOfFile ∈ answers ↔ e = .endOfInput)

private theorem GoesOn.of_reads {s t : FileInput} (h : t.reads = s.reads) : GoesOn s t :=
  ⟨[], h.symm, List.not_mem_nil⟩

private theorem Stops.of_reads {s t : FileInput} {e : FileStop} (h : t.reads = s.reads)
    (he : e ≠ .endOfInput) : Stops s e t :=
  ⟨[], h.symm, fun hmem => absurd hmem List.not_mem_nil, fun heq => absurd heq he⟩

private theorem GoesOn.trans {s t u : FileInput} (h : GoesOn s t)
    (h' : GoesOn t u) : GoesOn s u := by
  obtain ⟨answers, hreads, hend⟩ := h
  obtain ⟨answers', hreads', hend'⟩ := h'
  refine ⟨answers ++ answers', by rw [hreads, hreads', List.append_assoc], ?_⟩
  rw [List.mem_append]
  exact fun hmem => hmem.elim hend hend'

private theorem GoesOn.stops {s t u : FileInput} {e : FileStop} (h : GoesOn s t)
    (h' : Stops t e u) :
    Stops s e u := by
  obtain ⟨answers, hreads, hend⟩ := h
  obtain ⟨answers', hreads', hend'⟩ := h'
  refine ⟨answers ++ answers', by rw [hreads, hreads', List.append_assoc], ?_⟩
  rw [List.mem_append, or_iff_right hend]
  exact hend'

private theorem read_answers (position : Nat) (count : Int) (s : FileInput) :
    wp (read position count) (fun result t => s.reads = result :: t.reads) (Stops s) s := by
  rw [read, wp_bind, wp_modify, wp_bind, wp_get]
  cases hreads : s.reads with
  | nil =>
    simp only
    exact (wp_throw _).mpr (.of_reads hreads.symm (by simp))
  | cons result reads =>
    simp only
    rw [wp_ite]
    split_ifs with hanswers
    · exact (wp_bind.trans (wp_set _)).mpr ((wp_pure _).mpr rfl)
    · exact (wp_throw _).mpr (.of_reads hreads.symm (by simp))

private theorem waitReadable_answers (s : FileInput) :
    wp waitReadable (fun _ t => GoesOn s t) (Stops s) s := by
  rw [waitReadable, wp_bind, wp_get, wp_bind, wp_set]
  have hwait := s.poller.wait_ne_endOfInput
  cases hstop : s.poller.wait.1 with
  | none => exact (wp_pure _).mpr (.of_reads rfl)
  | some stop =>
    rw [hstop] at hwait
    exact (wp_throw _).mpr (.of_reads rfl fun h => hwait (congrArg some h))

private theorem finish_answers (size bytesRead : Nat) (s : FileInput) :
    wp (finish size bytesRead) (fun _ t => GoesOn s t) (Stops s) s := by
  rw [finish, wp_bind, wp_modify, wp_bind, wp_get, wp_pure]
  exact .of_reads rfl

private theorem readLoop_answers (size countMin turns bufferPosition : Nat) (bytesToRead : Int)
    (bytesRead : Nat) (s : FileInput) :
    wp (readLoop size countMin turns bufferPosition bytesToRead bytesRead)
      (fun _ t => GoesOn s t) (Stops s) s := by
  induction turns generalizing bufferPosition bytesToRead bytesRead s with
  | zero => exact (wp_throw _).mpr (.of_reads rfl (by simp))
  | succ turns ih =>
    have hone : ∀ (result : ReadResult) (t : FileInput), result ≠ .endOfFile →
        s.reads = result :: t.reads → GoesOn s t := by
      intro result t hne hread
      exact ⟨[result], hread, fun hmem => hne (List.mem_singleton.mp hmem).symm⟩
    apply readLoop_turn (read_answers _ _ s)
    case hfailed =>
      intro t hread
      exact (hone .failed t (by simp) hread).stops (.of_reads rfl (by simp))
    case hend =>
      intro t hread
      exact ⟨[.endOfFile], hread, fun _ => rfl, fun _ => List.mem_cons_self⟩
    case hpoll =>
      intro t hread _
      have hgoes := hone .again t (by simp) hread
      exact (finish_answers _ _ t).mono (fun _ _ h => hgoes.trans h) fun _ _ h => hgoes.stops h
    case hwait =>
      intro t hread _
      have hgoes := hone .again t (by simp) hread
      refine (waitReadable_answers t).mono ?_ fun _ _ h => hgoes.stops h
      intro _ u hwait
      have hgoes' := hgoes.trans hwait
      split_ifs with hmore
      · exact (ih _ _ _ u).mono (fun _ _ h => hgoes'.trans h) fun _ _ h => hgoes'.stops h
      · exact (finish_answers _ _ u).mono (fun _ _ h => hgoes'.trans h) fun _ _ h => hgoes'.stops h
    case hdata =>
      intro bytes t hread
      have hgoes := hone (.data bytes) t (by simp) hread
      split_ifs with hmore
      · exact (ih _ _ _ t).mono (fun _ _ h => hgoes.trans h) fun _ _ h => hgoes.stops h
      · exact (finish_answers _ _ t).mono (fun _ _ h => hgoes.trans h) fun _ _ h => hgoes.stops h

theorem beginRead_answers (size countMin : Nat) (s : FileInput) :
    wp (beginRead size countMin) (fun _ t => GoesOn s t) (Stops s) s := by
  rw [beginRead, wp_bind, wp_get, wp_ite, wp_ite]
  split_ifs with hcarry henough
  · exact (wp_pure _).mpr (.of_reads rfl)
  · exact readLoop_answers _ _ _ _ _ _ s
  · exact readLoop_answers _ _ _ _ _ _ s

private theorem reader_reportsEnd (size : Nat) : (reader size).ReportsEnd where
  beginRead n s := by
    refine wp_fileCall.mpr ((beginRead_answers size n s).mono (fun _ _ h => h) ?_)
    rintro stop t ⟨answers, hreads, hend⟩
    refine ⟨answers, hreads, ?_⟩
    intro e he
    cases stop with
    | endOfInput =>
      cases he
      exact ⟨⟨fun _ => rfl, fun _ => hend.mpr rfl⟩, fun _ => rfl⟩
    | interrupted =>
      cases he
      exact ⟨⟨fun hmem => absurd (hend.mp hmem) (by simp), fun h => by cases h⟩,
        fun h => by cases h⟩
    | runtimeError what =>
      cases he
      exact ⟨⟨fun hmem => absurd (hend.mp hmem) (by simp), fun h => by cases h⟩,
        fun h => by cases h⟩
    | unanswered => cases he
  endRead n s := by
    change wp (get >>= fun s => _) _ _ s
    rw [wp_bind, wp_get]
    cases endRead size s.queue n with
    | none => exact (wp_throw _).mpr fun e he => by cases he
    | some queue => exact (wp_set _).mpr trivial

end FileInputQueue

end FileQueues

section MemoryQueues

variable {Q : Type}

private theorem MemoryQueue.keeps_wait (c : Condition) :
    Keeps (fun _ => True) CallStop.NotAtEnd (wait c : CallM (MemoryQueue Q) Unit) := by
  have hthrow : ∀ {e : LibraryException}, e.isEndOfFile = false →
      CallStop.NotAtEnd (.throws e) := by
    rintro e he _ ⟨⟩
    exact he
  refine Keeps.get_bind fun s _ => ?_
  cases s.scheduler with
  | noop => cases c <;> exact Keeps.throw (hthrow rfl)
  | cooperative =>
    cases c with
    | notFull => exact Keeps.throw fun e he => by cases he
    | notEmpty => exact Keeps.throw (hthrow rfl)
  | pthread scheduler =>
    refine Keeps.ite (fun _ => Keeps.throw (hthrow rfl)) fun _ => ?_
    cases s.wakeups with
    | nil => exact Keeps.throw fun e he => by cases he
    | cons wakeup wakeups => exact Keeps.set trivial

private theorem MemoryQueue.keeps_triggerNotEmpty :
    Keeps (fun _ => True) CallStop.NotAtEnd (triggerNotEmpty : CallM (MemoryQueue Q) Unit) := by
  refine Keeps.get_bind fun s _ => ?_
  cases s.scheduler with
  | cooperative => exact Keeps.throw fun e he => by cases he
  | noop => exact Keeps.pure _
  | pthread scheduler => exact Keeps.pure _

private theorem keeps_waitLoop {attempt : σ → Option Nat} {wait : CallM σ Unit}
    (hwait : Keeps (fun _ => True) CallStop.NotAtEnd wait) (turns : Nat) :
    Keeps (fun _ => True) CallStop.NotAtEnd (waitLoop attempt wait turns) := by
  induction turns with
  | zero => exact Keeps.throw fun e he => by cases he
  | succ turns ih =>
    refine Keeps.get_bind fun s _ => ?_
    cases attempt s with
    | none => exact hwait.bind fun _ => ih
    | some count => exact Keeps.pure count

private theorem QueueImpl.reader_reportsEnd (impl : QueueImpl Q) (turns : Nat) :
    (impl.reader turns).ReportsEnd where
  beginRead n s := by
    refine (keeps_waitLoop (MemoryQueue.keeps_wait .notEmpty) turns s trivial).mono ?_ ?_
    · exact fun _ _ _ => ⟨[], rfl, List.not_mem_nil⟩
    · rintro stop t ⟨hstop, -⟩
      refine ⟨[], rfl, fun e he => ?_⟩
      have hno := hstop e he
      exact ⟨⟨fun hmem => absurd hmem List.not_mem_nil, fun h => by subst h; cases hno⟩,
        fun h => by rw [hno] at h; cases h⟩
  endRead n s := (wp_modify _).mpr trivial

private theorem QueueImpl.writer_reportsNoEnd (impl : QueueImpl Q) (turns : Nat) :
    (impl.writer turns).ReportsNoEnd where
  beginWrite _ := keeps_waitLoop (MemoryQueue.keeps_wait .notFull) turns
  endWrite n := by
    refine Keeps.get_bind fun s _ => ?_
    cases impl.endWrite s.queue n with
    | none => exact Keeps.pure _
    | some queue => exact (Keeps.set trivial).bind fun _ => MemoryQueue.keeps_triggerNotEmpty

private theorem keeps_onSecond {α : Type} {c : CallM τ α} {F : CallStop → Prop}
    (h : Keeps (fun _ => True) F c) :
    Keeps (fun _ => True) F (onSecond c : CallM (σ × τ) α) := by
  intro s _
  rw [wp_onSecond]
  exact h s.2 trivial

private theorem QueueImpl.keeps_processOne (impl : QueueImpl Q) (blocksize : Nat)
    (processBlock : Q → τ → τ) {out : WriterClass τ} (hout : out.ReportsNoEnd) (turns : Nat) :
    Keeps (fun _ => True) CallStop.NotAtEnd (impl.processOne blocksize processBlock out turns) := by
  induction turns with
  | zero => exact Keeps.throw fun e he => by cases he
  | succ turns ih =>
    refine Keeps.get_bind fun s _ => ?_
    cases impl.beginRead s.1 0 with
    | none => exact Keeps.throw fun e he => by cases he; rfl
    | some count =>
      refine Keeps.ite (fun _ => Keeps.pure _) fun _ => ?_
      refine (keeps_onSecond (hout.beginWrite blocksize)).bind fun _ => ?_
      refine (Keeps.modify fun _ _ => trivial).bind fun _ => ?_
      refine (keeps_onSecond (hout.endWrite blocksize)).bind fun _ => ?_
      exact (Keeps.modify fun _ _ => trivial).bind fun _ => ih

private theorem QueueImpl.cooperativeWriter_reportsNoEnd (impl : QueueImpl Q) (blocksize : Nat)
    (processBlock : Q → τ → τ) {out : WriterClass τ} (hout : out.ReportsNoEnd) (turns : Nat) :
    (impl.cooperativeWriter blocksize processBlock out turns).ReportsNoEnd where
  beginWrite _ := keeps_waitLoop (impl.keeps_processOne blocksize processBlock hout turns) turns
  endWrite n := by
    refine Keeps.get_bind fun s _ => ?_
    cases impl.endWrite s.1 n with
    | none => exact Keeps.pure _
    | some queue =>
      exact (Keeps.set trivial).bind fun _ =>
        impl.keeps_processOne blocksize processBlock hout turns

end MemoryQueues

private theorem LibraryReader.reportsEnd {input : ReaderClass σ} (h : LibraryReader input) :
    input.ReportsEnd := by
  cases h with
  | fixedMemoryQueue α turns => exact QueueImpl.reader_reportsEnd _ turns
  | singleElementQueue α turns => exact QueueImpl.reader_reportsEnd _ turns
  | fileInputQueue size => exact FileInputQueue.reader_reportsEnd size

private theorem LibraryWriter.reportsNoEnd {output : WriterClass τ} (h : LibraryWriter output) :
    output.ReportsNoEnd := by
  induction h with
  | fixedMemoryQueue α turns => exact QueueImpl.writer_reportsNoEnd _ turns
  | singleElementQueue α turns => exact QueueImpl.writer_reportsNoEnd _ turns
  | fileOutputQueue size synchronous => exact FileOutputQueue.writer_reportsNoEnd size synchronous
  | cooperativeFixed _ α blocksize turns processBlock ih =>
    exact QueueImpl.cooperativeWriter_reportsNoEnd _ blocksize processBlock ih turns
  | cooperativeSingle _ α blocksize turns processBlock ih =>
    exact QueueImpl.cooperativeWriter_reportsNoEnd _ blocksize processBlock ih turns

namespace ThreadBody

variable {input : ReaderClass σ} {output : WriterClass τ} {blocksize : Nat}
  {processBlock : σ → τ → τ} {s t : ThreadBody σ τ} {a : ThreadAction}

private theorem endsCleanly_afterThrow {e : LibraryException} (hplace : s.place = .afterThrow e)
    (he : e.isEndOfFile = false) : s.EndsCleanly := by
  intro e' hescaped
  rw [hplace, ThreadPlace.afterThrow] at hescaped
  split_ifs at hescaped with hinterrupted
  cases hescaped
  exact ⟨hinterrupted, he⟩

private theorem endsCleanly_of_place {place : ThreadPlace} (hplace : s.place = place)
    (h : ∀ e, place ≠ .escaped e) : s.EndsCleanly :=
  fun e hescaped => absurd (hplace.symm.trans hescaped) (h e)

private theorem Step.at_end (hin : input.ReportsEnd)
    (h : s.Step input output blocksize processBlock a t)
    (hend : .endOfFile ∈ a.answers) : t.place = .escaped .endOfInput := by
  cases h with
  | beginRead _ hcall hreads =>
    obtain ⟨answers, hanswers, hno⟩ := (wp_of_ok hcall).mp (hin.beginRead blocksize s.input)
    rw [hreads] at hanswers
    exact absurd ((List.append_cancel_right hanswers) ▸ hend) hno
  | @beginReadThrows e i _ _ hcall hreads =>
    obtain ⟨answers, hanswers, hreports⟩ :=
      (wp_of_error hcall).mp (hin.beginRead blocksize s.input)
    rw [hreads] at hanswers
    obtain rfl : e = .endOfInput :=
      (hreports e rfl).1.mp ((List.append_cancel_right hanswers) ▸ hend)
    rfl
  | _ => exact absurd hend List.not_mem_nil

private theorem Step.cleanly (hin : input.ReportsEnd) (hout : output.ReportsNoEnd)
    (h : s.Step input output blocksize processBlock a t) (hend : .endOfFile ∉ a.answers)
    (hs : s.EndsCleanly) : t.EndsCleanly := by
  cases h with
  | others => exact hs
  | beginRead | beginWrite | processBlock | endWrite | endRead =>
    exact endsCleanly_of_place rfl fun e he => by cases he
  | @beginReadThrows e i _ _ hcall hreads =>
    obtain ⟨answers, hanswers, hreports⟩ :=
      (wp_of_error hcall).mp (hin.beginRead blocksize s.input)
    rw [hreads] at hanswers
    obtain ⟨hiff, honly⟩ := hreports e rfl
    refine endsCleanly_afterThrow rfl (Bool.eq_false_iff.mpr fun he => hend ?_)
    rw [ThreadAction.answers, List.append_cancel_right hanswers]
    exact hiff.mpr (honly he)
  | beginWriteThrows _ hcall =>
    have hstop := (wp_of_error hcall).mp (hout.beginWrite blocksize s.output trivial)
    exact endsCleanly_afterThrow rfl (hstop.1 _ rfl)
  | endWriteThrows _ hcall =>
    have hstop := (wp_of_error hcall).mp (hout.endWrite blocksize s.output trivial)
    exact endsCleanly_afterThrow rfl (hstop.1 _ rfl)
  | endReadThrows _ hcall =>
    have hstop := (wp_of_error hcall).mp (hin.endRead blocksize s.input)
    exact absurd rfl (hstop _)

private theorem run_escaped {e : LibraryException} {as : List ThreadAction}
    (h : (threadBody input output blocksize processBlock).Run s as t)
    (hs : s.place = .escaped e) : t.place = .escaped e := by
  induction h with
  | nil => exact hs
  | cons hstep _ ih =>
    apply ih
    cases hstep with
    | others => exact hs
    | _ hplace => exact absurd (hplace.symm.trans hs) (by simp)

private theorem run_endsCleanly_iff (hin : input.ReportsEnd) (hout : output.ReportsNoEnd)
    {as : List ThreadAction} (h : (threadBody input output blocksize processBlock).Run s as t)
    (hs : s.EndsCleanly) : t.EndsCleanly ↔ ∀ a ∈ as, .endOfFile ∉ a.answers := by
  induction h with
  | nil => exact ⟨fun _ _ hmem => absurd hmem List.not_mem_nil, fun _ => hs⟩
  | @cons s u t a as hstep hrun ih =>
    rw [List.forall_mem_cons]
    by_cases hend : .endOfFile ∈ a.answers
    · have hescaped := run_escaped hrun (hstep.at_end hin hend)
      refine ⟨fun hclean => ?_, fun hno => absurd hend hno.1⟩
      exact absurd (hclean _ hescaped).2 (by decide)
    · rw [ih (hstep.cleanly hin hout hend hs)]
      exact ⟨fun hrest => ⟨hend, hrest⟩, And.right⟩

end ThreadBody

/-- Whatever queues of the library a process is between, its thread function returns, or goes on,
or is left by a failure of a descriptor or a scheduler, unless a `begin_read` of a
`FileInputQueue` meets the end of its file. -/
theorem process_endsCleanly_iff {input : ReaderClass σ} {output : WriterClass τ}
    (hin : LibraryReader input) (hout : LibraryWriter output) (blocksize : Nat)
    (processBlock : σ → τ → τ) {s t : ThreadBody σ τ} {as : List ThreadAction}
    (hs : s.place = .beginRead)
    (hrun : (threadBody input output blocksize processBlock).Run s as t) :
    t.EndsCleanly ↔ ∀ a ∈ as, .endOfFile ∉ a.answers :=
  ThreadBody.run_endsCleanly_iff hin.reportsEnd hout.reportsNoEnd hrun
    (ThreadBody.endsCleanly_of_place hs fun _ he => by cases he)

/-- A thread between a `FileInputQueue` of bytes whose scheduler has been interrupted, and a
`FixedMemoryQueue` with room for one element. -/
def interruptedThread (reads : List ReadResult) :
    ThreadBody FileInput (MemoryQueue (FixedMemoryQueue UInt8)) where
  input :=
    { queue := ⟨[0], 1, 0, 0⟩, poller := ⟨⟨true, 1⟩, []⟩, reads := reads, taken := []
      requests := [], waits := 0 }
  output := ⟨.new (fun _ => 0) 1, .pthread .new, []⟩
  place := .beginRead

/-- One element is processed, and the wait for the next one is interrupted. -/
theorem process_endsCleanly_iff_interrupted :
    ∃ t, (threadBody (FileInputQueue.reader 1) ((FixedMemoryQueue.impl UInt8).writer 1) 1
        fun _ output => output).Run (interruptedThread [.data [7], .again])
        [.call [.data [7]], .call [], .call [], .call [], .call [], .call [.again]] t ∧
      t.place = .returned ∧
      (t.EndsCleanly ↔ ∀ a ∈ [ThreadAction.call [.data [7]], .call [], .call [], .call [],
        .call [], .call [.again]], .endOfFile ∉ a.answers) := by
  have hrun : ∃ t, (threadBody (FileInputQueue.reader 1)
      ((FixedMemoryQueue.impl UInt8).writer 1) 1 fun _ output => output).Run
      (interruptedThread [.data [7], .again])
      [.call [.data [7]], .call [], .call [], .call [], .call [], .call [.again]] t ∧
      t.place = .returned :=
    ⟨_, .cons (.beginRead rfl rfl rfl) (.cons (.beginWrite rfl rfl) (.cons (.processBlock rfl)
      (.cons (.endWrite rfl rfl) (.cons (.endRead rfl rfl)
        (.cons (.beginReadThrows rfl rfl rfl) (.nil _)))))), rfl⟩
  obtain ⟨t, hrun, hreturned⟩ := hrun
  exact ⟨t, hrun, hreturned,
    process_endsCleanly_iff (.fileInputQueue 1) (.fixedMemoryQueue UInt8 1) 1 _ rfl hrun⟩

/-- The descriptor is at its end: the `EndOfInputException` leaves the thread function. -/
theorem interruptedThread_not_endsCleanly :
    ∃ t, (threadBody (FileInputQueue.reader 1) ((FixedMemoryQueue.impl UInt8).writer 1) 1
        fun _ output => output).Run (interruptedThread [.endOfFile]) [.call [.endOfFile]] t ∧
      t.place = .escaped .endOfInput ∧ ¬t.EndsCleanly := by
  refine ⟨_, .cons (.beginReadThrows rfl rfl rfl) (.nil _), rfl, ?_⟩
  intro hclean
  exact absurd (hclean .endOfInput rfl).2 (by decide)

end Dyplo
