import Dyplo.FileIO.ByteCounts
import Dyplo.FileIO.FileInputLoss
import Dyplo.FileIO.FileOutputPolls
import Dyplo.Process.ThreadEnd

/-!
# The crypto demo application

One loop takes what a `FileInputQueue` has, flips the lowest bit of every byte and hands the result
to a `FileOutputQueue`. Both queues wait with the same `FilePollScheduler`. The end of the input is
the way out of the loop, and nothing waits then for what the output has not taken.
-/

namespace Dyplo

open FileInputQueue FileOutputQueue

/-- `BLOCKSIZE` -/
def Crypto.BLOCKSIZE : Nat := 32 * 1024

/-- Both queues have the same scheduler: their `poller` is one. -/
structure Crypto where
  input : FileInput
  output : FileOutput
  deriving DecidableEq

namespace Crypto

variable {α : Type}

def onInput (c : CallM FileInput α) : CallM Crypto α := fun s =>
  match c s.input with
  | .ok a t => .ok a { input := t, output := { s.output with poller := t.poller } }
  | .error e t => .error e { input := t, output := { s.output with poller := t.poller } }

def onOutput (c : CallM FileOutput α) : CallM Crypto α := fun s =>
  match c s.output with
  | .ok a t => .ok a { input := { s.input with poller := t.poller }, output := t }
  | .error e t => .error e { input := { s.input with poller := t.poller }, output := t }

/-- `*dest++ = *src++ ^ 1;` -/
def crypt (bytes : List UInt8) : List UInt8 := bytes.map (· ^^^ 1)

/-- The loop over the `count` bytes at the front of the two buffers. -/
def cryptBlock (count : Nat) (s : Crypto) : Crypto :=
  { s with output.queue.mBuff :=
      overlay s.output.queue.mBuff 0 (crypt (s.input.queue.mBuff.take count)) }

/-- The loop of `process`, whose every turn takes an answer of the kernel. -/
def loop : Nat → CallM Crypto Unit
  | 0 => throw .unanswered
  | turns + 1 => do
      let count ← onInput ((FileInputQueue.reader 1).beginRead 1)
      let _ ← onOutput ((FileOutputQueue.writer 1 false).beginWrite count)
      if count ≤ 0 then return
      else
        modify (cryptBlock count)
        onOutput ((FileOutputQueue.writer 1 false).endWrite count)
        onInput ((FileInputQueue.reader 1).endRead count)
        loop turns

/-- What `catch (const dyplo::EndOfFileException&)` catches. -/
def caught : CallStop → Bool
  | .throws e => e.isEndOfFile
  | _ => false

def process : CallM Crypto Unit := fun s =>
  match loop (s.input.reads.length + 1) s with
  | .ok _ t => .ok () t
  | .error stop t => if caught stop then .ok () t else .error stop t

/-- What `main` returns once the files are open. Every exception of the library is a
`std::exception`. -/
def exitCode (s : Crypto) : Option Nat :=
  match process s with
  | .ok _ _ => some 0
  | .error (.throws _) _ => some 1
  | .error _ _ => none

/-- The application after its constructor, with the answers that the kernel is going to give. -/
def start (blocksize : Nat) (inputMemory outputMemory : List UInt8) (poller : Poller)
    (reads : List ReadResult) (writes : List WriteResult) : Crypto :=
  { input :=
      { (InputRound.start inputMemory blocksize).input with poller := poller, reads := reads }
    output := { FileOutput.start outputMemory blocksize with poller := poller, writes := writes } }

private theorem crypt_append (xs ys : List UInt8) : crypt (xs ++ ys) = crypt xs ++ crypt ys :=
  List.map_append

private theorem crypt_length (xs : List UInt8) : (crypt xs).length = xs.length := List.length_map _

private theorem crypt_crypt (xs : List UInt8) : crypt (crypt xs) = xs := by
  rw [crypt, crypt, List.map_map]
  apply List.map_id''
  intro x
  change x ^^^ 1 ^^^ 1 = x
  rw [UInt8.xor_assoc, UInt8.xor_self, UInt8.xor_zero]

section Rules

variable {Q : α → Crypto → Prop} {E : CallStop → Crypto → Prop} {s : Crypto}

private theorem wp_onInput {c : CallM FileInput α} : wp (onInput c) Q E s ↔
    wp c (fun a t => Q a { input := t, output := { s.output with poller := t.poller } })
      (fun e t => E e { input := t, output := { s.output with poller := t.poller } }) s.input := by
  unfold wp onInput
  cases c s.input <;> rfl

private theorem wp_onOutput {c : CallM FileOutput α} : wp (onOutput c) Q E s ↔
    wp c (fun a t => Q a { input := { s.input with poller := t.poller }, output := t })
      (fun e t => E e { input := { s.input with poller := t.poller }, output := t }) s.output := by
  unfold wp onOutput
  cases c s.output <;> rfl

private theorem wp_process {Q : Unit → Crypto → Prop} :
    wp process Q E s ↔ wp (loop (s.input.reads.length + 1)) Q
      (fun stop t => if caught stop then Q () t else E stop t) s := by
  unfold wp process
  cases loop (s.input.reads.length + 1) s with
  | ok a t => rfl
  | error stop t => by_cases hcaught : caught stop = true <;> simp [hcaught]

end Rules

end Crypto

namespace FileInputQueue

variable {size : Nat} {s : FileInput}

private theorem read_taken (position : Nat) (count : Int) (s : FileInput) :
    wp (read position count)
      (fun r t => (∀ bytes, r = .data bytes → bytes ≠ []) ∧
        ((∀ bytes, r ≠ .data bytes) → t.taken = s.taken))
      (fun _ t => t.taken = s.taken) s := by
  rw [read, wp_bind, wp_modify, wp_bind, wp_get]
  dsimp only
  cases s.reads with
  | nil => exact (wp_throw _).mpr rfl
  | cons result reads =>
    dsimp only
    rw [wp_ite]
    split_ifs with hanswers
    · rw [wp_bind, wp_set, wp_pure]
      cases result with
      | data bytes =>
        refine ⟨?_, fun hne => absurd rfl (hne bytes)⟩
        intro _ heq
        cases heq
        exact hanswers.1
      | again | endOfFile | failed => exact ⟨by simp, fun _ => List.append_nil _⟩
    · exact (wp_throw _).mpr rfl

/-- A loop that needs no more than a byte only stops with nothing taken. -/
theorem readLoop_stops (countMin turns position bytesRead : Nat) {bytesToRead : Int}
    (hone : bytesToRead ≤ 1) :
    wp (readLoop size countMin turns position bytesToRead bytesRead) (fun _ _ => True)
      (fun _ t => t.taken = s.taken) s := by
  induction turns generalizing s with
  | zero => exact (wp_throw _).mpr rfl
  | succ turns ih =>
    have hfinish : ∀ (bytesRead : Nat) (t : FileInput), wp (finish size bytesRead)
        (fun _ _ => True) (fun _ u => u.taken = s.taken) t := by
      intro bytesRead t
      rw [finish, wp_bind, wp_modify, wp_bind, wp_get, wp_pure]
      trivial
    apply readLoop_turn (read_taken _ _ s)
    case hfailed => exact fun t ht => ht.2 (by simp)
    case hend => exact fun t ht => ht.2 (by simp)
    case hpoll =>
      intro t ht hzero
      exact hfinish _ _
    case hwait =>
      intro t ht hpositive
      have htaken : t.taken = s.taken := ht.2 (by simp)
      apply waitReadable_spec
      · intro poller
        split_ifs with hmore
        · exact (ih (s := { t with poller := poller, waits := t.waits + 1 })).mono
            (fun _ _ h => h) fun _ _ h => h.trans htaken
        · exact hfinish _ _
      · exact fun _ _ => htaken
    case hdata =>
      intro bytes t ht
      split_ifs with hloop
      · have hlength := List.length_pos_iff.mpr (ht.1 bytes rfl)
        omega
      · exact hfinish _ _

/-- A `begin_read` of one byte from an empty queue returns all that it has taken, and stops with
nothing. -/
theorem beginRead_one_spec (hs : Buffered 1 s.queue) (hcarry : s.queue.mCarry = 0)
    (hpos : 1 ≤ s.queue.mCapacity) :
    wp (beginRead 1 1)
      (fun r t => ∃ answers, Returned 1 1 s t answers r ∧ .endOfFile ∉ answers)
      (fun stop t => ∃ answers, s.reads = answers ++ t.reads ∧
        (.endOfFile ∈ answers ↔ stop = .endOfInput) ∧ readBytes answers = [] ∧
        t.taken = s.taken) s := by
  have hstops : wp (beginRead 1 1) (fun _ _ => True) (fun _ t => t.taken = s.taken) s := by
    rw [beginRead, wp_bind, wp_get, wp_ite, if_neg (not_not.mpr hcarry)]
    exact readLoop_stops _ _ _ _ (by decide)
  refine (((beginRead_spec hs.roomy hpos).and (beginRead_answers 1 1 s)).and hstops).mono ?_ ?_
  · rintro r t ⟨⟨hread, answers, hreads, hend⟩, -⟩
    rcases hread with ⟨hne, -⟩ | ⟨-, results, hreturned⟩
    · exact absurd hcarry hne
    · obtain rfl : results = answers :=
        List.append_cancel_right (hreturned.took.reads.symm.trans hreads)
      rw [hcarry] at hreturned
      exact ⟨results, hreturned, hend⟩
  · rintro stop t ⟨⟨⟨results, htook, -⟩, answers, hreads, hend⟩, htaken⟩
    obtain rfl : results = answers :=
      List.append_cancel_right (htook.reads.symm.trans hreads)
    refine ⟨results, hreads, hend, ?_, htaken⟩
    exact List.self_eq_append_right.mp (htaken.symm.trans htook.taken)

private theorem wp_reader_endRead {q : FileInputQueue} {count : Nat}
    (hq : endRead size s.queue count = some q) {Q : Unit → FileInput → Prop}
    {E : CallStop → FileInput → Prop} :
    wp ((reader size).endRead count) Q E s ↔ Q () { s with queue := q } := by
  change wp (get >>= fun s => _) _ _ _ ↔ _
  rw [wp_bind, wp_get, hq]
  exact wp_set _

end FileInputQueue

private theorem FileStop.callStop_ne_undefined (stop : FileStop) : stop.callStop ≠ .undefined := by
  cases stop <;> simp [FileStop.callStop]

private theorem FileOutputQueue.writer_endWrite (size : Nat) (synchronous : Bool) (count : Nat) :
    (writer size synchronous).endWrite count = fileCall (endWrite size synchronous count) := rfl

private theorem FileOutputQueue.Steady.waited_spec {I : FileOutput → Prop} {s : FileOutput}
    (hI : Steady I) (h : I s) {countMin : Nat} (hne : countMin ≠ 0) :
    wp (beginWrite countMin) (fun _ t => I t ∧ t.queue.mBytesToWrite = 0) (fun _ t => I t) s := by
  rw [beginWrite, if_neg hne, wp_bind, wp_pure]
  change wp (flush >>= fun _ => get >>= fun s => pure s.queue.mCapacity) _ _ _
  rw [wp_bind]
  refine (hI.flush_spec h).mono ?_ fun _ _ he => he
  intro _ t ht
  rw [wp_bind, wp_get, wp_pure]
  exact ht

namespace Crypto

variable {blocksize : Nat} {s t : Crypto}

/-- What the output has got, whether its descriptor has taken it or not. -/
def outputBytes (s : Crypto) : List UInt8 := s.output.accepted ++ s.output.queue.pending

/-- Between two turns of the loop everything taken has gone to the output. -/
structure Inv (blocksize : Nat) (s : Crypto) : Prop where
  buffered : Buffered 1 s.input.queue
  mCapacity : s.input.queue.mCapacity = blocksize
  mCarry : s.input.queue.mCarry = 0
  owes : Owes 1 blocksize (crypt s.input.taken) s.output

/-- The kernel has given these answers to the input. -/
structure Answered (s : Crypto) (answers : List ReadResult) (t : Crypto) : Prop where
  reads : s.input.reads = answers ++ t.input.reads
  taken : t.input.taken = s.input.taken ++ readBytes answers

/-- How the loop stops after these answers. -/
structure Stopped (s : Crypto) (answers : List ReadResult) (stop : CallStop) (t : Crypto) :
    Prop where
  answered : Answered s answers t
  defined : stop ≠ .undefined
  atEnd : .endOfFile ∈ answers ↔ caught stop = true
  bytes : outputBytes t <+: crypt t.input.taken
  whole : caught stop = true → outputBytes t = crypt t.input.taken

private theorem Answered.trans {u : Crypto} {xs ys : List ReadResult} (h : Answered s xs t)
    (h' : Answered t ys u) : Answered s (xs ++ ys) u where
  reads := by rw [h.reads, h'.reads, List.append_assoc]
  taken := by rw [h'.taken, h.taken, readBytes_append, List.append_assoc]

private theorem Stopped.after {stop : CallStop} {u : Crypto} {xs ys : List ReadResult}
    (h : Answered s xs t) (hend : .endOfFile ∉ xs) (h' : Stopped t ys stop u) :
    Stopped s (xs ++ ys) stop u where
  answered := h.trans h'.answered
  defined := h'.defined
  atEnd := by rw [List.mem_append, or_iff_right hend, h'.atEnd]
  bytes := h'.bytes
  whole := h'.whole

private theorem caught_callStop (stop : FileStop) :
    caught stop.callStop = true ↔ stop = .endOfInput := by
  cases stop <;> simp [FileStop.callStop, caught, LibraryException.isEndOfFile]

private theorem output_call {α : Type} {c : FileOutputM α} {Q : α → FileOutput → Prop}
    {I : FileOutput → Prop} {s : FileOutput} (hc : wp c Q (fun _ t => I t) s)
    (hend : Keeps (fun _ => True) CallStop.NotAtEnd (fileCall c)) :
    wp (fileCall c) Q (fun stop t => stop ≠ .undefined ∧ caught stop = false ∧ I t) s := by
  have hdefined : wp (fileCall c) (fun _ _ => True) (fun stop _ => stop ≠ .undefined) s :=
    wp_fileCall.mpr (wp_of_forall (fun _ _ => trivial)
      fun e _ => FileStop.callStop_ne_undefined e)
  have hcall : wp (fileCall c) Q (fun _ t => I t) s := wp_fileCall.mpr hc
  refine ((hcall.and hdefined).and (hend s trivial)).mono ?_ ?_
  · rintro a t ⟨⟨hQ, -⟩, -⟩
    exact hQ
  · rintro stop t ⟨⟨hI, hne⟩, hnot, -⟩
    refine ⟨hne, ?_, hI⟩
    cases stop with
    | throws e => exact hnot e rfl
    | undefined | unanswered => rfl

private theorem Inv.stopped {bytes : List UInt8} {answers : List ReadResult} {stop : CallStop}
    (ht : Answered s answers t) (hend : .endOfFile ∉ answers)
    (hstop : stop ≠ .undefined ∧ caught stop = false ∧ Owes 1 blocksize bytes t.output)
    (hbytes : bytes <+: crypt t.input.taken) : Stopped s answers stop t where
  answered := ht
  defined := hstop.1
  atEnd := by rw [hstop.2.1]; exact iff_of_false hend (by simp)
  bytes := by rw [outputBytes, hstop.2.2.stream]; exact hbytes
  whole hcaught := by rw [hstop.2.1] at hcaught; cases hcaught

private theorem Returned.block {s t : FileInput} {answers : List ReadResult} {r : Nat}
    (hs : s.queue.mCarry = 0) (h : Returned 1 1 s t answers r) :
    r = (readBytes answers).length ∧ t.queue.mBuff.take r = readBytes answers := by
  have hr : r = (readBytes answers).length := by
    rw [h.result, hs, Nat.zero_add, Nat.div_one]
  have hbuffer := h.took.buffer
  rw [hs, Nat.zero_mul, Nat.zero_add, List.take_zero, List.nil_append] at hbuffer
  exact ⟨hr, hr ▸ hbuffer⟩

private theorem Inv.release (h : Inv blocksize s) {input : FileInput} {answers : List ReadResult}
    {count : Nat} (hreturned : Returned 1 1 s.input input answers count) :
    ∃ q, FileInputQueue.endRead 1 input.queue count = some q ∧ Buffered 1 q ∧
      q.mCapacity = blocksize ∧ q.mCarry = 0 := by
  have htook := hreturned.took
  have hbuffered := htook.buffered h.buffered
  have hsize : input.queue.mSize = count := hreturned.mSize
  have hcount := (Returned.block h.mCarry hreturned).1
  have hpos : 1 ≤ count := hcount ▸ hreturned.enough
  have hle : count ≤ input.queue.mCapacity := by
    have := htook.fits
    rw [h.mCarry, ← htook.mCapacity] at this
    omega
  obtain ⟨q, hq, hlength, hcapacity, hcarry, -, -⟩ :=
    endRead_spec hbuffered.length (hsize.trans_le hle) hpos hsize.ge
  rw [hsize, Nat.sub_self] at hcarry
  refine ⟨q, hq, ?_, hcapacity.trans (htook.mCapacity.trans h.mCapacity), hcarry⟩
  exact hbuffered.same_memory hlength hcapacity (hcarry ▸ Nat.zero_le _)

private theorem Inv.commit {bytes block : List UInt8} {output : FileOutput}
    (howes : Owes 1 blocksize bytes output) (hidle : output.queue.mBytesToWrite = 0)
    (hsmall : blocksize < 2 ^ 31) {count : Nat} (hlength : block.length = count)
    (hle : count ≤ blocksize) :
    Owes 1 blocksize (bytes ++ block) (FileOutputQueue.commit 1 count { output with
      queue := { output.queue with mBuff := overlay output.queue.mBuff 0 block } }) := by
  have hroom : 0 + block.length ≤ output.queue.mBuff.length := by
    rw [hlength, howes.length]
    omega
  have hbytes : count * 1 < 2 ^ 31 := by
    rw [Nat.mul_one]
    exact Nat.lt_of_le_of_lt hle hsmall
  have hstored := howes.store hidle ((overlay_length hroom).trans howes.length)
  have hcommit := hstored.commit hidle hbytes hle
  rwa [take_overlay_of_length (by rw [hlength, Nat.mul_one])] at hcommit

/-- A turn that comes to its end has taken something and has passed it on. -/
theorem turn_spec (h : Inv blocksize s) (hpos : 0 < blocksize) (hsmall : blocksize < 2 ^ 31)
    {rest : CallM Crypto Unit} {Q : Unit → Crypto → Prop} {E : CallStop → Crypto → Prop}
    (hstop : ∀ answers stop t, Stopped s answers stop t → E stop t)
    (hrest : ∀ answers t, Inv blocksize t → Answered s answers t → .endOfFile ∉ answers →
      wp rest Q E t) :
    wp (do
      let count ← onInput ((reader 1).beginRead 1)
      let _ ← onOutput ((writer 1 false).beginWrite count)
      if count ≤ 0 then return
      else
        modify (cryptBlock count)
        onOutput ((writer 1 false).endWrite count)
        onInput ((reader 1).endRead count)
        rest) Q E s := by
  have hread := beginRead_one_spec h.buffered h.mCarry (h.mCapacity ▸ hpos)
  rw [wp_bind, wp_onInput]
  change wp (fileCall (beginRead 1 1)) _ _ _
  rw [wp_fileCall]
  refine hread.mono ?_ ?_
  · rintro count input ⟨answers, hreturned, hend⟩
    obtain ⟨hcount, hblock⟩ := Returned.block h.mCarry hreturned
    obtain ⟨q, hq, hbuffered, hcapacity, hcarry⟩ := h.release hreturned
    have htook := hreturned.took
    have hpositive : 1 ≤ count := hcount ▸ hreturned.enough
    have hle : count ≤ blocksize := by
      have := htook.fits
      rw [h.mCarry, h.mCapacity] at this
      omega
    have hanswered : ∀ u : Crypto, u.input.reads = input.reads → u.input.taken = input.taken →
        Answered s answers u := by
      intro u hreads htaken
      exact ⟨hreads ▸ htook.reads, htaken.trans htook.taken⟩
    have htaken : crypt input.taken =
        crypt s.input.taken ++ crypt (input.queue.mBuff.take count) := by
      rw [htook.taken, crypt_append, hblock]
    have hlength : (crypt (input.queue.mBuff.take count)).length = count := by
      rw [hblock, crypt_length, hcount]
    have howes := h.owes.environment s.output.writes input.poller
    have hwrite := (FileOutputQueue.Owes.steady 1 blocksize _).waited_spec howes
      (Nat.one_le_iff_ne_zero.mp hpositive)
    rw [wp_bind, wp_onOutput]
    refine (output_call hwrite ((writer_reportsNoEnd 1 false).beginWrite count)).mono ?_ ?_
    · rintro _ output ⟨houtput, hidle⟩
      have hcommit := Inv.commit houtput hidle hsmall hlength hle
      rw [← htaken] at hcommit
      have hend_write := (writer_reportsNoEnd 1 false).endWrite count
      rw [writer_endWrite] at hend_write
      rw [wp_ite, if_neg (by omega), wp_bind, wp_modify, wp_bind, wp_onOutput, writer_endWrite]
      refine (output_call ((FileOutputQueue.Owes.steady _ _ _).endWrite_spec hcommit false)
        hend_write).mono ?_ ?_
      · intro _ final hfinal
        rw [wp_bind, wp_onInput]
        refine (wp_reader_endRead (q := q) ?_).mpr
          (hrest answers _ ?_ (hanswered _ rfl rfl) hend)
        · exact hq
        · exact ⟨hbuffered, hcapacity, hcarry, hfinal.environment final.writes final.poller⟩
      · intro stop final hstopped
        apply hstop answers
        exact Inv.stopped (hanswered _ rfl rfl) hend hstopped List.prefix_rfl
    · rintro stop output hstopped
      apply hstop answers
      apply Inv.stopped (hanswered _ rfl rfl) hend hstopped
      change _ <+: crypt input.taken
      rw [htaken]
      exact List.prefix_append _ _
  · rintro stop input ⟨answers, hreads, hend, hnone, htaken⟩
    have howes := h.owes.environment s.output.writes input.poller
    have hbytes : outputBytes ⟨input, { s.output with poller := input.poller }⟩ =
        crypt input.taken := by
      rw [htaken]
      exact howes.stream
    apply hstop answers
    exact {
      answered := ⟨hreads, by rw [hnone, List.append_nil]; exact htaken⟩
      defined := stop.callStop_ne_undefined
      atEnd := by rw [hend, caught_callStop]
      bytes := hbytes ▸ List.prefix_rfl
      whole := fun _ => hbytes }

private theorem loop_spec (h : Inv blocksize s) (hpos : 0 < blocksize) (hsmall : blocksize < 2 ^ 31)
    (turns : Nat) :
    wp (loop turns) (fun _ _ => False) (fun stop t => ∃ answers, Stopped s answers stop t) s := by
  induction turns generalizing s with
  | zero =>
    refine (wp_throw _).mpr ⟨[], ?_⟩
    exact {
      answered := ⟨rfl, (List.append_nil _).symm⟩
      defined := by simp
      atEnd := iff_of_false List.not_mem_nil (by simp [caught])
      bytes := h.owes.stream ▸ List.prefix_rfl
      whole := fun hcaught => by cases hcaught }
  | succ turns ih =>
    rw [loop]
    apply turn_spec h hpos hsmall
    · exact fun answers stop t hstopped => ⟨answers, hstopped⟩
    · intro answers t ht hanswered hend
      refine (ih ht).mono (fun _ _ hfalse => hfalse) ?_
      rintro stop u ⟨more, hstopped⟩
      exact ⟨answers ++ more, hstopped.after hanswered hend⟩

private theorem start_inv {inputMemory outputMemory : List UInt8}
    (hinput : inputMemory.length = blocksize)
    (houtput : outputMemory.length = blocksize) (hsmall : blocksize < 2 ^ 31) (poller : Poller)
    (reads : List ReadResult) (writes : List WriteResult) :
    Inv blocksize (start blocksize inputMemory outputMemory poller reads writes) where
  buffered :=
    ⟨hinput.trans (Nat.mul_one _).symm, Nat.zero_le _, (Nat.mul_one blocksize).symm ▸ hsmall⟩
  mCapacity := rfl
  mCarry := rfl
  owes := (Owes.start (houtput.trans (Nat.mul_one _).symm)).environment writes poller

private theorem Inv.process_spec (h : Inv blocksize s) (hpos : 0 < blocksize)
    (hsmall : blocksize < 2 ^ 31) :
    wp process (fun _ t => ∃ answers stop, Stopped s answers stop t ∧ caught stop = true)
      (fun stop t => ∃ answers, Stopped s answers stop t ∧ caught stop = false) s := by
  rw [wp_process]
  refine (loop_spec h hpos hsmall _).mono (fun _ _ hfalse => hfalse.elim) ?_
  rintro stop t ⟨answers, hstopped⟩
  split_ifs with hcaught
  · exact ⟨answers, stop, hstopped, hcaught⟩
  · exact ⟨answers, hstopped, Bool.eq_false_of_not_eq_true hcaught⟩

end Crypto

/-- However the kernel answers, the output has got a beginning of what was taken from the input,
with every byte changed. The program succeeds when it has met the end of its input; then the
output has got everything, but what it has not written yet is lost. -/
theorem crypto_stream (blocksize : Nat) (hpos : 0 < blocksize) (hsmall : blocksize < 2 ^ 31)
    (inputMemory outputMemory : List UInt8) (hinput : inputMemory.length = blocksize)
    (houtput : outputMemory.length = blocksize) (poller : Poller) (reads : List ReadResult)
    (writes : List WriteResult) :
    let s := Crypto.start blocksize inputMemory outputMemory poller reads writes
    let t := finalState Crypto.process s
    ∃ answers, reads = answers ++ t.input.reads ∧
      Crypto.outputBytes t <+: Crypto.crypt (readBytes answers) ∧
      (∀ u, Crypto.process s ≠ .error .undefined u) ∧
      (s.exitCode = some 0 ↔ .endOfFile ∈ answers) ∧
      (s.exitCode = some 0 → Crypto.outputBytes t = Crypto.crypt (readBytes answers) ∧
        (t.output.accepted = Crypto.crypt (readBytes answers) ↔
          t.output.queue.pending = [])) := by
  intro s t
  have hspec : wp Crypto.process _ _ s :=
    (Crypto.start_inv hinput houtput hsmall poller reads writes).process_spec hpos hsmall
  have htaken : ∀ {answers stop}, Crypto.Stopped s answers stop t →
      t.input.taken = readBytes answers := fun hstopped => hstopped.answered.taken
  cases hrun : Crypto.process s with
  | ok _ u =>
    rw [wp_of_ok hrun] at hspec
    obtain ⟨answers, stop, hstopped, hcaught⟩ := hspec
    have hu : u = t := by rw [show t = finalState Crypto.process s from rfl, finalState, hrun]
    subst hu
    have hwhole := hstopped.whole hcaught
    rw [htaken hstopped] at hwhole
    refine ⟨answers, hstopped.answered.reads, hwhole ▸ List.prefix_rfl, by simp, ?_, ?_⟩
    · rw [Crypto.exitCode, hrun]
      exact iff_of_true rfl (hstopped.atEnd.mpr hcaught)
    · intro _
      refine ⟨hwhole, ?_⟩
      rw [← hwhole, Crypto.outputBytes]
      exact List.self_eq_append_right
  | error stop u =>
    rw [wp_of_error hrun] at hspec
    obtain ⟨answers, hstopped, hcaught⟩ := hspec
    have hu : u = t := by rw [show t = finalState Crypto.process s from rfl, finalState, hrun]
    subst hu
    have hcode : s.exitCode ≠ some 0 := by
      rw [Crypto.exitCode, hrun]
      cases stop <;> simp
    refine ⟨answers, hstopped.answered.reads, htaken hstopped ▸ hstopped.bytes, ?_, ?_,
      fun h => absurd h hcode⟩
    · intro v hv
      cases hv
      exact hstopped.defined rfl
    · refine iff_of_false hcode ?_
      rw [hstopped.atEnd, hcaught]
      simp

/-- The last block has been written in part when the input ends. -/
theorem crypto_stream_interrupted :
    let s := Crypto.start Crypto.BLOCKSIZE (List.replicate Crypto.BLOCKSIZE 0)
      (List.replicate Crypto.BLOCKSIZE 0) ⟨.new, []⟩ [.data [1, 2], .endOfFile] [.written 1]
    let t := finalState Crypto.process s
    ∃ answers, [.data [1, 2], .endOfFile] = answers ++ t.input.reads ∧
      Crypto.outputBytes t <+: Crypto.crypt (readBytes answers) ∧
      (∀ u, Crypto.process s ≠ .error .undefined u) ∧
      (s.exitCode = some 0 ↔ .endOfFile ∈ answers) ∧
      (s.exitCode = some 0 → Crypto.outputBytes t = Crypto.crypt (readBytes answers) ∧
        (t.output.accepted = Crypto.crypt (readBytes answers) ↔
          t.output.queue.pending = [])) :=
  crypto_stream Crypto.BLOCKSIZE (by decide) (by decide) (List.replicate Crypto.BLOCKSIZE 0)
    (List.replicate Crypto.BLOCKSIZE 0) List.length_replicate List.length_replicate ⟨.new, []⟩
    [.data [1, 2], .endOfFile] [.written 1]

/-! ### Regular files -/

namespace FileInputQueue

variable {s : FileInput}

private theorem beginRead_data (hs : Buffered 1 s.queue) (hcarry : s.queue.mCarry = 0)
    {bytes : List UInt8}
    {reads : List ReadResult} (hne : bytes ≠ []) (hfits : bytes.length ≤ s.queue.mCapacity)
    (hreads : s.reads = .data bytes :: reads) :
    wp (beginRead 1 1)
      (fun r t => Returned 1 1 s t [.data bytes] r ∧ t.reads = reads) (fun _ _ => False) s := by
  have hsmall := hs.small
  have hlength := List.length_pos_iff.mpr hne
  have hspace : toInt (s.queue.mCapacity * (1 : Nat) - (0 : Nat)) = s.queue.mCapacity := by
    rw [toInt_of_lt] <;> push_cast <;> omega
  have hone : toInt ((1 : Nat) * (1 : Nat)) = 1 := by
    rw [toInt_of_lt] <;> decide
  have hanswers : (ReadResult.data bytes).Answers s.queue.mCapacity :=
    ⟨hne, Int.ofNat_le.mpr hfits⟩
  have hrun : wp (beginRead 1 1) (fun _ t => t.reads = reads) (fun _ _ => False) s := by
    rw [beginRead, wp_bind, wp_get, wp_ite, if_neg (not_not.mpr hcarry), readLoop, wp_bind, wp_get,
      wp_bind, hspace, hone]
    apply read_answered hreads hanswers
    rw [wp_ite, if_neg (by omega), finish, wp_bind, wp_modify, wp_bind, wp_get, wp_pure]
  refine (hrun.and (beginRead_one_spec hs hcarry (by omega))).mono ?_ fun _ _ h => h.1
  rintro r t ⟨hrest, answers, hreturned, -⟩
  obtain rfl : [.data bytes] = answers := by
    have hboth : [.data bytes] ++ reads = answers ++ reads := by
      rw [← hreturned.took.reads.trans (congrArg _ hrest), hreads, List.singleton_append]
    exact List.append_cancel_right hboth
  exact ⟨hreturned, hrest⟩

end FileInputQueue

private theorem FileOutputQueue.beginWrite_idle {countMin : Nat} {s : FileOutput}
    (hne : countMin ≠ 0)
    (hidle : s.queue.mBytesToWrite = 0) {Q : Nat → FileOutput → Prop}
    {E : FileStop → FileOutput → Prop} :
    wp (beginWrite countMin) Q E s ↔ Q s.queue.mCapacity s := by
  rw [beginWrite, if_neg hne, wp_bind, wp_pure]
  change wp (flush >>= fun _ => get >>= fun s => pure s.queue.mCapacity) _ _ _ ↔ _
  rw [wp_bind, wp_flush_of_zero hidle, wp_bind, wp_get, wp_pure]

private theorem FileOutputQueue.endWrite_written {size count n : Nat} {s : FileOutput}
    {writes : List WriteResult} (hsmall : count * size < 2 ^ 31) (hpos : 0 < count * size)
    (hwrites : s.writes = .written n :: writes) (hn : n ≤ count * size) :
    wp (endWrite size false count)
      (fun _ t => t.writes = writes ∧ t.accepted = s.accepted ++ s.queue.mBuff.take n ∧
        (n = count * size → t.queue.mBytesToWrite = 0)) (fun _ _ => False) s := by
  have hbytes : (commit size count { s with writes := writes }).queue.mBytesToWrite =
      (count * size : Nat) := by
    rw [commit]
    dsimp only
    rw [toInt_of_lt] <;> push_cast <;> omega
  have hrun := writeBuffer_written (s := commit size count { s with writes := writes })
    (by omega) n
  rw [if_neg (by omega)] at hrun
  have hs : commit size count s = { commit size count { s with writes := writes } with
      writes := .written n :: writes } := by
    rw [commit, commit, ← hwrites]
  rw [endWrite, wp_bind, wp_modify]
  change wp (writeBuffer >>= fun _ => pure ()) _ _ _
  rw [wp_bind, wp_of_ok ((congrArg writeBuffer hs).trans hrun)]
  refine (wp_pure _).mpr ⟨rfl, rfl, ?_⟩
  intro hall
  rw [advance, if_neg (by omega)]

namespace Crypto

variable {blocksize : Nat} {s : Crypto}

/-- A turn over a file that has data, and whose block the output takes at once. -/
theorem Inv.turn_regular (h : Inv blocksize s) (hsmall : blocksize < 2 ^ 31)
    (hidle : s.output.queue.mBytesToWrite = 0) {bytes : List UInt8} {reads : List ReadResult}
    {n : Nat} {writes : List WriteResult} (hne : bytes ≠ []) (hfits : bytes.length ≤ blocksize)
    (hreads : s.input.reads = .data bytes :: reads)
    (hwrites : s.output.writes = .written n :: writes) (hn : n ≤ bytes.length) {turns : Nat}
    {Q : Unit → Crypto → Prop} {E : CallStop → Crypto → Prop}
    (hrest : ∀ t, Inv blocksize t → t.input.reads = reads → t.output.writes = writes →
      t.output.accepted = s.output.accepted ++ crypt (bytes.take n) →
      (n = bytes.length → t.output.queue.mBytesToWrite = 0) → wp (loop turns) Q E t) :
    wp (loop (turns + 1)) Q E s := by
  have hread := beginRead_data h.buffered h.mCarry hne (h.mCapacity.symm ▸ hfits) hreads
  rw [loop, wp_bind, wp_onInput]
  change wp (fileCall (beginRead 1 1)) _ _ _
  rw [wp_fileCall]
  refine hread.mono ?_ fun _ _ hfalse => hfalse.elim
  rintro count input ⟨hreturned, hinput⟩
  obtain ⟨hcount, hblock⟩ := Returned.block h.mCarry hreturned
  obtain ⟨q, hq, hbuffered, hcapacity, hcarry⟩ := h.release hreturned
  have hdata : readBytes [.data bytes] = bytes := readBytes_singleton _
  rw [hdata] at hcount hblock
  have hpositive : 0 < count := hcount ▸ List.length_pos_iff.mpr hne
  have htaken : crypt input.taken =
      crypt s.input.taken ++ crypt (input.queue.mBuff.take count) := by
    rw [hreturned.took.taken, crypt_append, hdata, hblock]
  have hlength : (crypt (input.queue.mBuff.take count)).length = count := by
    rw [hblock, crypt_length, hcount]
  have hbytes : count * 1 < 2 ^ 31 := by omega
  have howes := h.owes.environment s.output.writes input.poller
  have hcommit := Inv.commit howes hidle hsmall hlength (by omega)
  rw [← htaken] at hcommit
  rw [wp_bind, wp_onOutput]
  change wp (fileCall (beginWrite count)) _ _ _
  rw [wp_fileCall]
  refine (FileOutputQueue.beginWrite_idle (by omega) ?_).mpr ?_
  · exact hidle
  rw [wp_ite, if_neg (by omega), wp_bind, wp_modify, wp_bind, wp_onOutput, writer_endWrite,
    wp_fileCall]
  have hend := FileOutputQueue.endWrite_written (n := n) (s := { s.output with
    poller := input.poller
    queue := { s.output.queue with
      mBuff := overlay s.output.queue.mBuff 0 (crypt (input.queue.mBuff.take count)) } })
    hbytes (by omega) hwrites (by omega)
  have hkept := (FileOutputQueue.Owes.steady _ _ _).endWrite_spec hcommit false
  refine (hend.and hkept).mono ?_ fun _ _ h => h.1.elim
  rintro _ final ⟨⟨hleft, haccepted, hall⟩, hfinal⟩
  rw [wp_bind, wp_onInput]
  refine (wp_reader_endRead (q := q) ?_).mpr (hrest _ ?_ hinput hleft ?_ ?_)
  · exact hq
  · exact ⟨hbuffered, hcapacity, hcarry, hfinal.environment final.writes final.poller⟩
  · refine haccepted.trans ?_
    change s.output.accepted ++ (overlay s.output.queue.mBuff 0
      (crypt (input.queue.mBuff.take count))).take n = _
    rw [overlay_zero, List.take_append_of_le_length (by omega), hblock, crypt, crypt,
      List.map_take]
  · exact fun h => hall (by rw [Nat.mul_one, hcount, h])

private theorem Inv.loop_regular {chunks : List (List UInt8)}
    (hchunks : ∀ c ∈ chunks, c ≠ [] ∧ c.length ≤ blocksize) (h : Inv blocksize s)
    (hsmall : blocksize < 2 ^ 31) (hidle : s.output.queue.mBytesToWrite = 0)
    {reads : List ReadResult} {writes : List WriteResult}
    (hreads : s.input.reads = chunks.map .data ++ reads)
    (hwrites : s.output.writes = chunks.map (fun c => .written c.length) ++ writes) {turns : Nat}
    {Q : Unit → Crypto → Prop} {E : CallStop → Crypto → Prop}
    (hrest : ∀ t, Inv blocksize t → t.output.queue.mBytesToWrite = 0 → t.input.reads = reads →
      t.output.writes = writes → t.output.accepted = s.output.accepted ++ crypt chunks.flatten →
      wp (loop turns) Q E t) :
    wp (loop (turns + chunks.length)) Q E s := by
  induction chunks generalizing s with
  | nil => exact hrest s h hidle hreads hwrites (List.append_nil _).symm
  | cons c chunks ih =>
    obtain ⟨hne, hfits⟩ := hchunks c List.mem_cons_self
    apply h.turn_regular hsmall hidle hne hfits hreads hwrites (Nat.le_refl _)
    intro t ht htreads htwrites htaccepted htidle
    rw [List.take_length] at htaccepted
    apply ih (fun d hd => hchunks d (List.mem_cons_of_mem c hd)) ht (htidle rfl) htreads htwrites
    intro u hu huidle hureads huwrites huaccepted
    refine hrest u hu huidle hureads huwrites ?_
    rw [huaccepted, htaccepted, List.flatten_cons, crypt_append, List.append_assoc]

private theorem Inv.loop_end (h : Inv blocksize s) {reads : List ReadResult}
    (hreads : s.input.reads = .endOfFile :: reads) (turns : Nat) :
    wp (loop (turns + 1)) (fun _ _ => False)
      (fun stop t => caught stop = true ∧ t.output.accepted = s.output.accepted) s := by
  rw [loop, wp_bind, wp_onInput]
  change wp (fileCall (beginRead 1 1)) _ _ _
  rw [wp_fileCall, beginRead, wp_bind, wp_get, wp_ite, if_neg (not_not.mpr h.mCarry), readLoop,
    wp_bind, wp_get, wp_bind]
  apply read_answered hreads trivial
  exact (wp_throw _).mpr ⟨rfl, rfl⟩

/-- A regular file that is read in these pieces, and written in these. -/
def overFiles (blocksize : Nat) (memory : List UInt8) (chunks : List (List UInt8))
    (written : List Nat) : Crypto :=
  start blocksize memory memory ⟨.new, []⟩ (chunks.map .data ++ [.endOfFile])
    (written.map .written)

private theorem succeeds {accepted : List UInt8}
    (h : wp (loop (s.input.reads.length + 1)) (fun _ _ => False)
      (fun stop t => caught stop = true ∧ t.output.accepted = accepted) s) :
    s.exitCode = some 0 ∧ (finalState process s).output.accepted = accepted := by
  have hprocess : wp process (fun _ t => t.output.accepted = accepted) (fun _ _ => False) s := by
    rw [wp_process]
    refine h.mono (fun _ _ hfalse => hfalse.elim) ?_
    rintro stop t ⟨hcaught, haccepted⟩
    rw [if_pos hcaught]
    exact haccepted
  obtain ⟨_, t, hrun, haccepted⟩ := hprocess.returns
  rw [exitCode, finalState, hrun]
  exact ⟨rfl, haccepted⟩

private theorem overFiles_concat_spec (hsmall : blocksize < 2 ^ 31) {memory : List UInt8}
    (hmemory : memory.length = blocksize) {chunks : List (List UInt8)} {last : List UInt8} {n : Nat}
    (hn : n ≤ last.length) (hchunks : ∀ c ∈ chunks ++ [last], c ≠ [] ∧ c.length ≤ blocksize) :
    (overFiles blocksize memory (chunks ++ [last]) (chunks.map List.length ++ [n])).exitCode =
        some 0 ∧
      (finalState process (overFiles blocksize memory (chunks ++ [last])
        (chunks.map List.length ++ [n]))).output.accepted =
          crypt (chunks.flatten ++ last.take n) := by
  generalize hs : overFiles blocksize memory (chunks ++ [last]) (chunks.map List.length ++ [n]) = s
  have hinv : Inv blocksize s := hs ▸ start_inv hmemory hmemory hsmall _ _ _
  have hlast := hchunks last (by simp)
  have hreads : s.input.reads = chunks.map .data ++ [.data last, .endOfFile] := by
    simp [← hs, overFiles, start]
  have hwrites : s.output.writes = chunks.map (fun c => .written c.length) ++ [.written n] := by
    simp [← hs, overFiles, start]
  have hempty : s.output.accepted = [] := hs ▸ rfl
  have hturns : s.input.reads.length + 1 = 3 + chunks.length := by
    rw [hreads, List.length_append, List.length_map, List.length_cons, List.length_singleton]
    omega
  apply succeeds
  rw [hturns]
  apply hinv.loop_regular (fun c hc => hchunks c (List.mem_append_left _ hc)) hsmall (hs ▸ rfl)
    hreads hwrites
  intro t ht htidle htreads htwrites htaccepted
  apply ht.turn_regular hsmall htidle hlast.1 hlast.2 htreads htwrites hn
  intro u hu hureads _ huaccepted _
  refine (hu.loop_end hureads 1).mono (fun _ _ hfalse => hfalse) ?_
  rintro stop v ⟨hcaught, hvaccepted⟩
  refine ⟨hcaught, ?_⟩
  rw [hvaccepted, huaccepted, htaccepted, hempty, crypt_append]
  rfl

end Crypto

/-- Over regular files the program succeeds, and what is missing from its output is what the last
`write` has not taken. -/
theorem crypto_output_whole_iff (blocksize : Nat) (hsmall : blocksize < 2 ^ 31)
    (memory : List UInt8) (hmemory : memory.length = blocksize) (chunks : List (List UInt8))
    (last : List UInt8) (n : Nat) (hn : n ≤ last.length)
    (hchunks : ∀ c ∈ chunks ++ [last], c ≠ [] ∧ c.length ≤ blocksize) :
    let s := Crypto.overFiles blocksize memory (chunks ++ [last]) (chunks.map List.length ++ [n])
    s.exitCode = some 0 ∧
      (finalState Crypto.process s).output.accepted =
        Crypto.crypt (chunks.flatten ++ last.take n) ∧
      ((finalState Crypto.process s).output.accepted = Crypto.crypt (chunks ++ [last]).flatten ↔
        n = last.length) := by
  intro s
  obtain ⟨hcode, haccepted⟩ := Crypto.overFiles_concat_spec hsmall hmemory hn hchunks
  refine ⟨hcode, haccepted, ?_⟩
  rw [haccepted]
  constructor
  · intro hall
    have hlength := congrArg List.length hall
    simp only [Crypto.crypt_length, List.length_append, List.flatten_append, List.flatten_singleton,
      List.length_take] at hlength
    omega
  · rintro rfl
    rw [List.take_length, List.flatten_append, List.flatten_singleton]

/-- Of two blocks the last one is written in part. -/
theorem crypto_output_whole_iff_short :
    let chunks : List (List UInt8) := [[1, 2]]
    let last : List UInt8 := [3, 4]
    let s := Crypto.overFiles 2 [0, 0] (chunks ++ [last]) (chunks.map List.length ++ [1])
    s.exitCode = some 0 ∧
      (finalState Crypto.process s).output.accepted =
        Crypto.crypt (chunks.flatten ++ last.take 1) ∧
      ((finalState Crypto.process s).output.accepted = Crypto.crypt (chunks ++ [last]).flatten ↔
        1 = last.length) :=
  crypto_output_whole_iff 2 (by decide) [0, 0] rfl [[1, 2]] [3, 4] 1 (by decide) (by decide)

namespace Crypto

/-- What the writes take of these blocks if the last one takes `lost` bytes less than its block. -/
def writtenBut (lost : Nat) (chunks : List (List UInt8)) : List Nat :=
  chunks.dropLast.map List.length ++
    (chunks.getLast?.map fun last => last.length - lost).toList

private theorem overFiles_spec {blocksize : Nat} (hsmall : blocksize < 2 ^ 31)
    {memory : List UInt8} (hmemory : memory.length = blocksize) {chunks : List (List UInt8)}
    (hchunks : ∀ c ∈ chunks, c ≠ [] ∧ c.length ≤ blocksize) {lost : Nat}
    (hlost : lost ≤ (chunks.getLast?.getD []).length) :
    lost ≤ chunks.flatten.length ∧
      (overFiles blocksize memory chunks (writtenBut lost chunks)).exitCode = some 0 ∧
      (finalState process (overFiles blocksize memory chunks
        (writtenBut lost chunks))).output.accepted =
          crypt (chunks.flatten.take (chunks.flatten.length - lost)) := by
  rcases List.eq_nil_or_concat chunks with rfl | ⟨init, last, rfl⟩
  · refine ⟨hlost, ?_⟩
    have hinv : Inv blocksize (overFiles blocksize memory [] []) :=
      start_inv hmemory hmemory hsmall _ _ _
    have hnone : crypt (([] : List (List UInt8)).flatten.take
        (([] : List (List UInt8)).flatten.length - lost)) = [] := by
      rw [List.flatten_nil, List.take_nil]
      rfl
    rw [hnone]
    exact succeeds (hinv.loop_end rfl 1)
  · rw [List.concat_eq_append] at *
    rw [List.getLast?_concat, Option.getD_some] at hlost
    have hwritten : writtenBut lost (init ++ [last]) =
        init.map List.length ++ [last.length - lost] := by
      rw [writtenBut, List.dropLast_concat, List.getLast?_concat]
      rfl
    have hflatten : (init ++ [last]).flatten = init.flatten ++ last := by simp
    have hlength : (init.flatten ++ last).length - lost =
        init.flatten.length + (last.length - lost) := by
      rw [List.length_append]
      omega
    rw [hwritten, hflatten, hlength, List.take_append,
      List.take_of_length_le (Nat.le_add_right _ _), Nat.add_sub_cancel_left]
    refine ⟨?_, overFiles_concat_spec hsmall hmemory (Nat.sub_le _ _) hchunks⟩
    rw [List.length_append]
    omega

end Crypto

/-- Run over its own output, however the files are read, the program restores its input but for
what the last `write` of either run has not taken. -/
theorem crypto_restores (blocksize : Nat) (hsmall : blocksize < 2 ^ 31) (memory : List UInt8)
    (hmemory : memory.length = blocksize) (chunks chunks' : List (List UInt8))
    (hchunks : ∀ c ∈ chunks, c ≠ [] ∧ c.length ≤ blocksize)
    (hchunks' : ∀ c ∈ chunks', c ≠ [] ∧ c.length ≤ blocksize) (lost lost' : Nat)
    (hlost : lost ≤ (chunks.getLast?.getD []).length)
    (hlost' : lost' ≤ (chunks'.getLast?.getD []).length) :
    let s := Crypto.overFiles blocksize memory chunks (Crypto.writtenBut lost chunks)
    let s' := Crypto.overFiles blocksize memory chunks' (Crypto.writtenBut lost' chunks')
    s.exitCode = some 0 ∧ s'.exitCode = some 0 ∧
      (chunks'.flatten = (finalState Crypto.process s).output.accepted →
        (finalState Crypto.process s').output.accepted =
          chunks.flatten.take (chunks.flatten.length - (lost + lost')) ∧
        ((finalState Crypto.process s').output.accepted = chunks.flatten ↔
          lost = 0 ∧ lost' = 0)) := by
  intro s s'
  obtain ⟨hle, hcode, haccepted⟩ := Crypto.overFiles_spec hsmall hmemory hchunks hlost
  obtain ⟨hle', hcode', haccepted'⟩ := Crypto.overFiles_spec hsmall hmemory hchunks' hlost'
  refine ⟨hcode, hcode', ?_⟩
  intro hflatten
  have hfile : chunks'.flatten =
      Crypto.crypt (chunks.flatten.take (chunks.flatten.length - lost)) := hflatten.trans haccepted
  have hlength : chunks'.flatten.length = chunks.flatten.length - lost := by
    rw [hfile, Crypto.crypt_length, List.length_take]
    omega
  have hrestored : (finalState Crypto.process s').output.accepted =
      chunks.flatten.take (chunks.flatten.length - (lost + lost')) := by
    rw [haccepted', hlength, hfile, Crypto.crypt, Crypto.crypt, ← List.map_take]
    change Crypto.crypt (Crypto.crypt _) = _
    rw [Crypto.crypt_crypt, List.take_take, Nat.min_eq_left (by omega), Nat.sub_sub]
  refine ⟨hrestored, ?_⟩
  rw [hrestored]
  constructor
  · intro hall
    have hsame := congrArg List.length hall
    rw [List.length_take] at hsame
    omega
  · rintro ⟨rfl, rfl⟩
    exact List.take_length

/-- The second run reads what the first one has written byte by byte, and its last write takes
nothing. -/
theorem crypto_restores_bytes :
    let chunks : List (List UInt8) := [[1, 2]]
    let chunks' : List (List UInt8) := [[0], [3]]
    let s := Crypto.overFiles 2 [0, 0] chunks (Crypto.writtenBut 0 chunks)
    let s' := Crypto.overFiles 2 [0, 0] chunks' (Crypto.writtenBut 1 chunks')
    s.exitCode = some 0 ∧ s'.exitCode = some 0 ∧
      (chunks'.flatten = (finalState Crypto.process s).output.accepted →
        (finalState Crypto.process s').output.accepted =
          chunks.flatten.take (chunks.flatten.length - (0 + 1)) ∧
        ((finalState Crypto.process s').output.accepted = chunks.flatten ↔ 0 = 0 ∧ 1 = 0)) :=
  crypto_restores 2 (by decide) [0, 0] rfl [[1, 2]] [[0], [3]] (by decide) (by decide) 0 1
    (by decide) (by decide)

end Dyplo
