import Dyplo.FileIO.FilePollScheduler
import Dyplo.Image.Bytes
import Dyplo.Library.TransitionSystem
import Dyplo.Library.WeakestPrecondition
import Mathlib.Tactic.Positivity

/-!
# `FileOutputQueue`

One buffer is filled by the caller and written out from a position that moves through it. The
bytes that the descriptor has accepted, followed by those still to be written, are what has been
committed.
-/

namespace Dyplo

/-- How a `write` ends. -/
inductive WriteResult
  | written (count : Nat)
  /-- `EAGAIN` -/
  | again
  | failed
  deriving DecidableEq

/-- `m_buff` is kept as bytes, and `m_writeout_position` as an offset into it. -/
structure FileOutputQueue where
  mBuff : List UInt8
  mCapacity : Nat
  mWriteoutPosition : Nat
  mBytesToWrite : Int
  deriving DecidableEq

/-- The queue with its descriptor and its scheduler; `accepted` is what the descriptor has taken. -/
structure FileOutput where
  queue : FileOutputQueue
  poller : Poller
  writes : List WriteResult
  accepted : List UInt8
  deriving DecidableEq

abbrev FileOutputM := EStateM FileStop FileOutput

/-- The bytes at `m_writeout_position` that are still to be written. -/
def FileOutputQueue.pending (q : FileOutputQueue) : List UInt8 :=
  (q.mBuff.drop q.mWriteoutPosition).take q.mBytesToWrite.toNat

/-- The queue after its constructor. -/
def FileOutput.start (memory : List UInt8) (capacity : Nat) : FileOutput :=
  { queue := { mBuff := memory, mCapacity := capacity, mWriteoutPosition := 0, mBytesToWrite := 0 }
    poller := ⟨.new, []⟩
    writes := []
    accepted := [] }

namespace FileOutputQueue

/-- What a `write` of `count` bytes does to the queue. -/
def advance (s : FileOutput) (count : Nat) : FileOutput :=
  { s with
    accepted := s.accepted ++ (s.queue.mBuff.drop s.queue.mWriteoutPosition).take count
    queue :=
      if count < s.queue.mBytesToWrite then
        { s.queue with
          mWriteoutPosition := s.queue.mWriteoutPosition + count
          mBytesToWrite := s.queue.mBytesToWrite - count }
      else { s.queue with mWriteoutPosition := 0, mBytesToWrite := 0 } }

/-- Returns whether the caller needs to wait for more. The kernel never writes more than it was
given. -/
def writeBuffer : FileOutputM Bool := do
  let s ← get
  if s.queue.mBytesToWrite = 0 then return false
  else
    match s.writes with
    | [] => throw .unanswered
    | .again :: writes =>
        set { s with writes := writes }
        return true
    | .failed :: writes =>
        set { s with writes := writes }
        throw (.runtimeError "Failed to write to file")
    | .written count :: writes =>
        if s.queue.mBytesToWrite < count then throw .unanswered
        else
          set (advance { s with writes := writes } count)
          return count < s.queue.mBytesToWrite

def waitWriteable : FileOutputM Unit := do
  let s ← get
  set { s with poller := s.poller.wait.2 }
  match s.poller.wait.1 with
  | none => return
  | some stop => throw stop

/-- `while (write_buffer()) m_scheduler.wait_writeable(m_file_handle);` Every turn takes an answer
of the kernel. -/
def flushLoop : Nat → FileOutputM Unit
  | 0 => throw .unanswered
  | turns + 1 => do
      if ← writeBuffer then
        waitWriteable
        flushLoop turns
      else return

def flush : FileOutputM Unit := do
  let s ← get
  flushLoop (s.writes.length + 1)

/-- `begin_write(buffer, count_min)`; `buffer` is always `m_buff`. -/
def beginWrite (countMin : Nat) : FileOutputM Nat := do
  let more ← if countMin = 0 then writeBuffer else pure false
  if more then return 0
  else
    flush
    return (← get).queue.mCapacity

/-- `m_bytes_to_write = count * sizeof(T); m_writeout_position = (char*)m_buff;` -/
def commit (size count : Nat) (s : FileOutput) : FileOutput :=
  { s with queue := { s.queue with
      mBytesToWrite := toInt (count * size), mWriteoutPosition := 0 } }

def endWrite (size : Nat) (synchronous : Bool) (count : Nat) : FileOutputM Unit := do
  modify (commit size count)
  if synchronous then flush
  else
    let _ ← writeBuffer
    return

theorem pending_of_zero {q : FileOutputQueue} (h : q.mBytesToWrite = 0) : q.pending = [] := by
  rw [pending, h]
  rfl

/-- What holds of a queue whatever the kernel answers and however much a `write` takes. -/
structure Steady (I : FileOutput → Prop) : Prop where
  environment : ∀ {s : FileOutput} (writes : List WriteResult) (poller : Poller), I s →
    I { s with writes := writes, poller := poller }
  advance : ∀ {s : FileOutput} {count : Nat}, I s → (count : Int) ≤ s.queue.mBytesToWrite →
    I (advance s count)

namespace Steady

variable {I : FileOutput → Prop} {s : FileOutput}

theorem writeBuffer_spec (hI : Steady I) (h : I s) :
    wp writeBuffer (fun more t => I t ∧ (more = false → t.queue.mBytesToWrite = 0))
      (fun _ t => I t) s := by
  rw [writeBuffer, wp_bind, wp_get, wp_ite]
  split_ifs with hzero
  · exact (wp_pure _).mpr ⟨h, fun _ => hzero⟩
  · cases hwrites : s.writes with
    | nil => exact (wp_throw _).mpr h
    | cons result writes =>
      have hrest : I { s with writes := writes } := hI.environment writes s.poller h
      cases result with
      | again =>
        rw [wp_bind, wp_set, wp_pure]
        exact ⟨hrest, fun hdone => by cases hdone⟩
      | failed =>
        rw [wp_bind, wp_set, wp_throw]
        exact hrest
      | written count =>
        change wp (if s.queue.mBytesToWrite < count then _ else _) _ _ _
        rw [wp_ite]
        split_ifs with hover
        · exact (wp_throw _).mpr h
        · rw [wp_bind, wp_set, wp_pure]
          refine ⟨hI.advance hrest (Int.not_lt.mp hover), ?_⟩
          intro hall
          rw [FileOutputQueue.advance, if_neg (of_decide_eq_false hall)]

private theorem waitWriteable_spec (hI : Steady I) (h : I s) :
    wp waitWriteable (fun _ t => I t) (fun _ t => I t) s := by
  rw [waitWriteable, wp_bind, wp_get, wp_bind, wp_set]
  have hwait : I { s with poller := s.poller.wait.2 } :=
    hI.environment s.writes s.poller.wait.2 h
  cases s.poller.wait.1 with
  | none => exact (wp_pure _).mpr hwait
  | some stop => exact (wp_throw _).mpr hwait

private theorem flushLoop_spec (hI : Steady I) (h : I s) (turns : Nat) :
    wp (flushLoop turns) (fun _ t => I t ∧ t.queue.mBytesToWrite = 0) (fun _ t => I t) s := by
  induction turns generalizing s with
  | zero => exact (wp_throw _).mpr h
  | succ turns ih =>
    rw [flushLoop, wp_bind]
    refine (hI.writeBuffer_spec h).mono ?_ fun _ _ he => he
    rintro more t ⟨ht, hdone⟩
    cases more with
    | false => exact (wp_pure _).mpr ⟨ht, hdone rfl⟩
    | true =>
      change wp (waitWriteable >>= fun _ => flushLoop turns) _ _ t
      rw [wp_bind]
      refine (hI.waitWriteable_spec ht).mono ?_ fun _ _ he => he
      rintro _ u hu
      exact ih hu

theorem flush_spec (hI : Steady I) (h : I s) :
    wp flush (fun _ t => I t ∧ t.queue.mBytesToWrite = 0) (fun _ t => I t) s := by
  rw [flush, wp_bind, wp_get]
  exact hI.flushLoop_spec h _

theorem beginWrite_spec (hI : Steady I) (h : I s) (countMin : Nat) :
    wp (beginWrite countMin) (fun r t => I t ∧ (r ≠ 0 → t.queue.mBytesToWrite = 0))
      (fun _ t => I t) s := by
  have hflush {s : FileOutput} (h : I s) :
      wp (flush >>= fun _ => get >>= fun s => pure s.queue.mCapacity)
        (fun r t => I t ∧ (r ≠ 0 → t.queue.mBytesToWrite = 0)) (fun _ t => I t) s := by
    rw [wp_bind]
    refine (hI.flush_spec h).mono ?_ fun _ _ he => he
    rintro _ t ⟨ht, hdone⟩
    rw [wp_bind, wp_get, wp_pure]
    exact ⟨ht, fun _ => hdone⟩
  rw [beginWrite]
  by_cases hzero : countMin = 0
  · rw [if_pos hzero, wp_bind]
    refine (hI.writeBuffer_spec h).mono ?_ fun _ _ he => he
    rintro more t ⟨ht, -⟩
    cases more with
    | false => exact hflush ht
    | true => exact (wp_pure _).mpr ⟨ht, fun hne => absurd rfl hne⟩
  · rw [if_neg hzero, wp_bind, wp_pure]
    exact hflush h

/-- However an `end_write` ends, it keeps what its commit has made true. -/
theorem endWrite_spec (hI : Steady I) {size count : Nat} (h : I (commit size count s))
    (synchronous : Bool) :
    wp (endWrite size synchronous count) (fun _ t => I t) (fun _ t => I t) s := by
  rw [endWrite, wp_bind, wp_modify]
  cases synchronous with
  | true => exact (hI.flush_spec h).mono (fun _ _ ht => ht.1) fun _ _ he => he
  | false =>
    change wp (writeBuffer >>= fun _ => pure ()) _ _ _
    rw [wp_bind]
    refine (hI.writeBuffer_spec h).mono ?_ fun _ _ he => he
    rintro more t ⟨ht, -⟩
    exact (wp_pure _).mpr ht

end Steady

/-- The queue of `capacity` elements owes the descriptor the rest of what was committed. -/
structure Owes (size capacity : Nat) (committed : List UInt8) (s : FileOutput) : Prop where
  mCapacity : s.queue.mCapacity = capacity
  length : s.queue.mBuff.length = capacity * size
  bytes_nonneg : 0 ≤ s.queue.mBytesToWrite
  inside : s.queue.mWriteoutPosition + s.queue.mBytesToWrite ≤ capacity * size
  stream : s.accepted ++ s.queue.pending = committed

namespace Owes

variable {size capacity : Nat} {committed : List UInt8} {s : FileOutput}

theorem start {memory : List UInt8} (hmemory : memory.length = capacity * size) :
    Owes size capacity [] (.start memory capacity) := by
  refine ⟨rfl, hmemory, le_refl 0, ?_, rfl⟩
  change (0 : Nat) + (0 : Int) ≤ capacity * size
  positivity

/-- A `write` takes bytes off the front of the pending ones. -/
theorem advance (h : Owes size capacity committed s) {count : Nat}
    (hcount : (count : Int) ≤ s.queue.mBytesToWrite) :
    Owes size capacity committed (advance s count) := by
  have hinside := h.inside
  have hsplit : s.queue.pending =
      (s.queue.mBuff.drop s.queue.mWriteoutPosition).take count ++
        (s.queue.mBuff.drop (s.queue.mWriteoutPosition + count)).take
          (s.queue.mBytesToWrite - count).toNat := by
    have hsum : s.queue.mBytesToWrite.toNat = count + (s.queue.mBytesToWrite - count).toNat := by
      omega
    rw [pending, hsum, List.take_add, List.drop_drop]
  have hstream := h.stream
  rw [hsplit, ← List.append_assoc] at hstream
  unfold FileOutputQueue.advance
  split_ifs with hmore
  · exact ⟨h.mCapacity, h.length, by dsimp only; omega, by dsimp only; push_cast; omega, hstream⟩
  · have hall : (s.queue.mBytesToWrite - count).toNat = 0 := by omega
    rw [hall, List.take_zero, List.append_nil] at hstream
    refine ⟨h.mCapacity, h.length, le_refl 0, ?_, ?_⟩
    · dsimp only
      push_cast
      positivity
    · change (s.accepted ++ _) ++ [] = committed
      rw [List.append_nil]
      exact hstream

/-- Neither the coming answers nor the scheduler belong to what is owed. -/
theorem environment (h : Owes size capacity committed s) (writes : List WriteResult)
    (poller : Poller) :
    Owes size capacity committed { s with writes := writes, poller := poller } :=
  ⟨h.mCapacity, h.length, h.bytes_nonneg, h.inside, h.stream⟩

/-- While nothing is pending, the buffer is free for other contents. -/
theorem store (h : Owes size capacity committed s) (hidle : s.queue.mBytesToWrite = 0)
    {memory : List UInt8} (hmemory : memory.length = capacity * size) :
    Owes size capacity committed { s with queue := { s.queue with mBuff := memory } } := by
  refine ⟨h.mCapacity, hmemory, h.bytes_nonneg, h.inside, ?_⟩
  have hstream := h.stream
  rw [pending_of_zero hidle] at hstream
  have hnone : pending { s.queue with mBuff := memory } = [] := pending_of_zero hidle
  exact (congrArg (s.accepted ++ ·) hnone).trans hstream

/-- The start of an `end_write`: the block at the front of the buffer is what is owed from here
on. -/
theorem of_commit (hcapacity : s.queue.mCapacity = capacity)
    (hlength : s.queue.mBuff.length = capacity * size) {count : Nat}
    (hsmall : count * size < 2 ^ 31) (hcount : count ≤ capacity) :
    Owes size capacity (s.accepted ++ s.queue.mBuff.take (count * size)) (commit size count s) := by
  have hle : count * size ≤ capacity * size := Nat.mul_le_mul_right size hcount
  have hbytes : toInt (count * size) = (count * size : Nat) := by
    rw [toInt_of_lt] <;> push_cast <;> omega
  rw [FileOutputQueue.commit, hbytes]
  refine ⟨hcapacity, hlength, Int.natCast_nonneg _, ?_, rfl⟩
  dsimp only
  push_cast at *
  omega

theorem commit (h : Owes size capacity committed s) (hidle : s.queue.mBytesToWrite = 0)
    {count : Nat} (hsmall : count * size < 2 ^ 31) (hcount : count ≤ capacity) :
    Owes size capacity (committed ++ s.queue.mBuff.take (count * size)) (commit size count s) := by
  have hstream := h.stream
  rw [pending_of_zero hidle, List.append_nil] at hstream
  rw [← hstream]
  exact of_commit h.mCapacity h.length hsmall hcount

theorem steady (size capacity : Nat) (committed : List UInt8) :
    Steady (Owes size capacity committed) :=
  ⟨fun writes poller h => h.environment writes poller, fun h hcount => h.advance hcount⟩

private theorem idle_of_empty (h : Owes size 0 committed s) : s.queue.mBytesToWrite = 0 := by
  have hinside := h.inside
  have hnonneg := h.bytes_nonneg
  simp only [Nat.cast_zero, zero_mul] at hinside
  omega

theorem beginWrite_spec (h : Owes size capacity committed s) (countMin : Nat) :
    wp (beginWrite countMin)
      (fun r t => Owes size capacity committed t ∧ (r = capacity → t.queue.mBytesToWrite = 0))
      (fun _ t => Owes size capacity committed t) s := by
  refine ((steady size capacity committed).beginWrite_spec h countMin).mono ?_ fun _ _ he => he
  rintro r t ⟨ht, hdone⟩
  refine ⟨ht, ?_⟩
  rintro rfl
  by_cases hzero : r = 0
  · subst hzero
    exact ht.idle_of_empty
  · exact hdone hzero

theorem endWrite_spec (h : Owes size capacity committed s) (hidle : s.queue.mBytesToWrite = 0)
    {count : Nat} (hsmall : count * size < 2 ^ 31) (hcount : count ≤ capacity)
    (synchronous : Bool) :
    wp (endWrite size synchronous count)
      (fun _ t => Owes size capacity (committed ++ s.queue.mBuff.take (count * size)) t)
      (fun _ t => Owes size capacity (committed ++ s.queue.mBuff.take (count * size)) t) s :=
  (steady _ _ _).endWrite_spec (h.commit hidle hsmall hcount) synchronous

end Owes

end FileOutputQueue

end Dyplo
