import Dyplo.Image.Reader

/-!
# `HardwareDMAFifo`

The driver's system calls are a parameter: each one returns or fails with an error number, and
may change the device in both cases. A fifo hands out its blocks in a cycle.
-/

namespace Dyplo

/-- A block as the driver's calls exchange it, with the memory that is mapped for it. -/
structure Block where
  id : Nat
  offset : Nat
  size : Nat
  bytesUsed : Nat
  userSignal : Nat
  state : Nat
  data : List UInt8

structure Driver (δ : Type) where
  /-- `DYPLO_IOCGSTATIC_ID` -/
  staticID : EStateM Nat δ Nat
  /-- `DYPLO_IOCDMABLOCK_DEQUEUE`, which may leave another content in the memory. -/
  dequeueBlock (block : Block) : EStateM Nat δ Block
  /-- `DYPLO_IOCDMABLOCK_ENQUEUE` -/
  enqueueBlock (block : Block) : EStateM Nat δ Block
  write (data : List UInt8) : EStateM Nat δ Nat
  fsync : EStateM Nat δ Unit

/-- A system call and its error number, if it fails. -/
def attempt {δ α : Type} (c : EStateM Nat δ α) : EStateM Stop δ (Except Nat α) := fun d =>
  match c d with
  | .ok a d => .ok (.ok a) d
  | .error errno d => .ok (.error errno) d

def throwIOException {σ α : Type} (errno : Nat) (context : String) : EStateM Stop σ α :=
  throw (.throws (.ioException ⟨errno, context⟩))

def eagain : Nat := 11

/-- The vector of blocks and the index of `blocks_head`. What has been enqueued is recorded. -/
structure HardwareDMAFifo where
  blocks : List Block
  blocksHead : Nat
  enqueued : List Block

namespace HardwareDMAFifo

variable {δ : Type} (driver : Driver δ) (fifo : HardwareDMAFifo)

def advance : HardwareDMAFifo :=
  { fifo with
    blocksHead := if fifo.blocksHead + 1 = fifo.blocks.length then 0 else fifo.blocksHead + 1 }

def setBlock (i : Nat) (block : Block) : HardwareDMAFifo :=
  { fifo with blocks := fifo.blocks.set i block }

/-- The index of the block that has been dequeued, or a null pointer if that would block. -/
def dequeue : EStateM Stop δ (Option Nat × HardwareDMAFifo) :=
  match fifo.blocks[fifo.blocksHead]? with
  | none => throw .undefined
  | some block =>
      if block.state = 0 then return (some fifo.blocksHead, fifo.advance)
      else do
        match ← attempt (driver.dequeueBlock block) with
        | .ok reply => return (some fifo.blocksHead, (fifo.setBlock fifo.blocksHead reply).advance)
        | .error errno =>
            if errno = eagain then return (none, fifo)
            else throwIOException errno "DYPLO_IOCDMABLOCK_DEQUEUE"

def enqueue (i : Nat) : EStateM Stop δ HardwareDMAFifo :=
  match fifo.blocks[i]? with
  | none => throw .undefined
  | some block => do
      match ← attempt (driver.enqueueBlock block) with
      | .ok reply => return { fifo.setBlock i reply with enqueued := fifo.enqueued ++ [block] }
      | .error errno => throwIOException errno "DYPLO_IOCDMABLOCK_ENQUEUE"

/-- The loop of `flush` for the next `count` blocks. -/
def flushLoop (fifo : HardwareDMAFifo) : Nat → EStateM Stop δ HardwareDMAFifo
  | 0 => return fifo
  | count + 1 =>
      match fifo.blocks[fifo.blocksHead]? with
      | none => throw .undefined
      | some block =>
          if block.state = 0 then flushLoop fifo.advance count
          else do
            match ← attempt (driver.dequeueBlock block) with
            | .ok reply => flushLoop (fifo.setBlock fifo.blocksHead reply).advance count
            | .error errno => throwIOException errno "DYPLO_IOCDMABLOCK_DEQUEUE"

/-- Once around from `blocks_head` to itself. -/
def flush : EStateM Stop δ HardwareDMAFifo :=
  if fifo.blocks = [] then throw .undefined else fifo.flushLoop driver fifo.blocks.length

end HardwareDMAFifo

@[simp]
theorem wp_throwIOException {σ α : Type} {Q : α → σ → Prop} {E : Stop → σ → Prop} {s : σ}
    (errno : Nat) (context : String) :
    wp (throwIOException errno context : EStateM Stop σ α) Q E s ↔
      E (.throws (.ioException ⟨errno, context⟩)) s := wp_throw _

@[simp]
theorem wp_attempt {δ α : Type} {c : EStateM Nat δ α} {Q : Except Nat α → δ → Prop}
    {E : Stop → δ → Prop} {d : δ} :
    wp (attempt c) Q E d ↔
      wp c (fun a d => Q (.ok a) d) (fun errno d => Q (.error errno) d) d := by
  unfold wp attempt
  cases c d <;> rfl

/-- A driver that leaves the size of a block alone. -/
structure Driver.KeepsSize {δ : Type} (driver : Driver δ) : Prop where
  dequeueBlock : ∀ block d,
    wp (driver.dequeueBlock block) (fun reply _ => reply.size = block.size) (fun _ _ => True) d
  enqueueBlock : ∀ block d,
    wp (driver.enqueueBlock block) (fun reply _ => reply.size = block.size) (fun _ _ => True) d

/-- A driver whose calls succeed. -/
structure Driver.Reliable {δ : Type} (driver : Driver δ) : Prop where
  staticID : ∀ d, wp driver.staticID (fun _ _ => True) (fun _ _ => False) d
  dequeueBlock : ∀ block d,
    wp (driver.dequeueBlock block) (fun _ _ => True) (fun _ _ => False) d
  enqueueBlock : ∀ block d,
    wp (driver.enqueueBlock block) (fun _ _ => True) (fun _ _ => False) d
  fsync : ∀ d, wp driver.fsync (fun _ _ => True) (fun _ _ => False) d

/-- The ID that the control device reports, whenever it reports one. -/
def Driver.Reports {δ : Type} (driver : Driver δ) (id : Nat) : Prop :=
  ∀ d, wp driver.staticID (fun data _ => data % 2 ^ 16 = id) (fun _ _ => True) d

section Reliable

variable {δ : Type} {driver : Driver δ}

private theorem Driver.KeepsSize.dequeueBlock_spec (h : driver.KeepsSize) (block : Block) (d : δ) :
    wp (driver.dequeueBlock block) (fun reply _ => reply.size = block.size)
      (fun _ _ => ¬ driver.Reliable) d := by
  by_cases hreliable : driver.Reliable
  · exact ((h.dequeueBlock block d).and (hreliable.dequeueBlock block d)).mono
      (fun _ _ hr => hr.1) fun _ _ hf => hf.2.elim
  · exact (h.dequeueBlock block d).mono (fun _ _ hr => hr) fun _ _ _ => hreliable

private theorem Driver.KeepsSize.enqueueBlock_spec (h : driver.KeepsSize) (block : Block) (d : δ) :
    wp (driver.enqueueBlock block) (fun reply _ => reply.size = block.size)
      (fun _ _ => ¬ driver.Reliable) d := by
  by_cases hreliable : driver.Reliable
  · exact ((h.enqueueBlock block d).and (hreliable.enqueueBlock block d)).mono
      (fun _ _ hr => hr.1) fun _ _ hf => hf.2.elim
  · exact (h.enqueueBlock block d).mono (fun _ _ hr => hr) fun _ _ _ => hreliable

end Reliable

/-- A driver that does at once what it is asked to do. -/
def Driver.ideal (id : Nat) : Driver Unit where
  staticID := return id
  dequeueBlock block := return { block with state := 0 }
  enqueueBlock block := return { block with state := 1 }
  write data := return data.length
  fsync := return

theorem Driver.ideal_reports {id : Nat} (h : id < 2 ^ 16) : (Driver.ideal id).Reports id :=
  fun _ => (wp_pure _).mpr (Nat.mod_eq_of_lt h)

theorem Driver.ideal_keepsSize (id : Nat) : (Driver.ideal id).KeepsSize where
  dequeueBlock _ _ := (wp_pure _).mpr rfl
  enqueueBlock _ _ := (wp_pure _).mpr rfl

theorem Driver.ideal_reliable (id : Nat) : (Driver.ideal id).Reliable where
  staticID _ := (wp_pure _).mpr trivial
  dequeueBlock _ _ := (wp_pure _).mpr trivial
  enqueueBlock _ _ := (wp_pure _).mpr trivial
  fsync _ := (wp_pure _).mpr trivial

/-- What a call into the hardware can stop with. -/
inductive Stop.OfHardware : Stop → Prop
  | undefined : OfHardware .undefined
  | ioException (e : IOException) : OfHardware (.throws (.ioException e))

namespace HardwareDMAFifo

/-- A fifo with blocks of `S` bytes. -/
structure Configured (S : Nat) (fifo : HardwareDMAFifo) : Prop where
  blocksHead_lt : fifo.blocksHead < fifo.blocks.length
  size : ∀ block ∈ fifo.blocks, block.size = S

/-- What `dequeue` returns, with the fifo as it is then. -/
structure Dequeued (S : Nat) {δ : Type} (driver : Driver δ) (fifo : HardwareDMAFifo)
    (r : Option Nat × HardwareDMAFifo) : Prop where
  configured : r.2.Configured S
  enqueued : r.2.enqueued = fifo.enqueued
  block_lt : ∀ i, r.1 = some i → i < r.2.blocks.length
  not_reliable : r.1 = none → ¬ driver.Reliable

section Configured

variable {S : Nat} {fifo : HardwareDMAFifo}

private theorem Configured.advance (h : fifo.Configured S) : fifo.advance.Configured S where
  blocksHead_lt := by
    have hlt := h.blocksHead_lt
    change (if fifo.blocksHead + 1 = fifo.blocks.length then 0 else fifo.blocksHead + 1) <
      fifo.blocks.length
    split_ifs <;> omega
  size := h.size

theorem Configured.setBlock (h : fifo.Configured S) (i : Nat) {block : Block}
    (hsize : block.size = S) : (fifo.setBlock i block).Configured S where
  blocksHead_lt := by
    have hlength : (fifo.blocks.set i block).length = fifo.blocks.length := List.length_set
    exact h.blocksHead_lt.trans_eq hlength.symm
  size := by
    intro b hb
    rcases List.mem_or_eq_of_mem_set hb with hb | rfl
    · exact h.size b hb
    · exact hsize

variable {δ : Type} {driver : Driver δ} {d : δ}

theorem dequeue_spec (h : fifo.Configured S) (hdriver : driver.KeepsSize) :
    wp (fifo.dequeue driver) (fun r _ => fifo.Dequeued S driver r) (fun _ _ => ¬ driver.Reliable)
      d := by
  have hhead := h.blocksHead_lt
  have hreturned : ∀ fifo' : HardwareDMAFifo, fifo'.Configured S →
      fifo'.enqueued = fifo.enqueued → fifo'.blocks.length = fifo.blocks.length →
      fifo.Dequeued S driver (some fifo.blocksHead, fifo') := by
    intro fifo' hconfigured henqueued hlength
    refine ⟨hconfigured, henqueued, ?_, fun hnone => absurd hnone (Option.some_ne_none _)⟩
    intro i hi
    obtain rfl := Option.some.inj hi
    exact hlength ▸ hhead
  simp only [dequeue, List.getElem?_eq_getElem hhead, wp_ite, wp_pure, wp_bind, wp_attempt,
    wp_throwIOException]
  split_ifs with hstate
  · exact hreturned _ h.advance rfl rfl
  · refine (hdriver.dequeueBlock_spec _ d).mono ?_ ?_
    · intro reply _ hsize
      exact hreturned _ (h.setBlock _ (hsize.trans (h.size _ (List.getElem_mem hhead)))).advance
        rfl List.length_set
    · intro errno d' hunreliable
      split_ifs with hagain
      · exact ⟨h, rfl, fun i hi => absurd hi.symm (Option.some_ne_none i), fun _ => hunreliable⟩
      · exact hunreliable

theorem enqueue_spec (h : fifo.Configured S) (hdriver : driver.KeepsSize) {i : Nat} {block : Block}
    (hblock : fifo.blocks[i]? = some block) :
    wp (fifo.enqueue driver i)
      (fun fifo' _ => fifo'.Configured S ∧ fifo'.enqueued = fifo.enqueued ++ [block])
      (fun _ _ => ¬ driver.Reliable) d := by
  simp only [enqueue, hblock, wp_bind, wp_attempt, wp_pure, wp_throwIOException]
  refine (hdriver.enqueueBlock_spec block d).mono ?_ fun _ _ hunreliable => hunreliable
  intro reply _ hsize
  have hconfigured := h.setBlock i (hsize.trans (h.size _ (List.mem_of_getElem? hblock)))
  exact ⟨⟨hconfigured.blocksHead_lt, hconfigured.size⟩, trivial⟩

private theorem flushLoop_spec (h : fifo.Configured S) (hdriver : driver.KeepsSize) (count : Nat) :
    wp (fifo.flushLoop driver count)
      (fun fifo' _ => fifo'.Configured S ∧ fifo'.enqueued = fifo.enqueued)
      (fun _ _ => ¬ driver.Reliable) d := by
  induction count generalizing fifo d with
  | zero =>
    rw [flushLoop, wp_pure]
    exact ⟨h, rfl⟩
  | succ count ih =>
    have hhead := h.blocksHead_lt
    simp only [flushLoop, List.getElem?_eq_getElem hhead, wp_ite, wp_bind, wp_attempt,
      wp_throwIOException]
    split_ifs with hstate
    · exact ih h.advance
    · refine (hdriver.dequeueBlock_spec _ d).mono ?_ fun _ _ hunreliable => hunreliable
      intro reply d' hsize
      exact ih (h.setBlock _ (hsize.trans (h.size _ (List.getElem_mem hhead)))).advance

theorem flush_spec (h : fifo.Configured S) (hdriver : driver.KeepsSize) :
    wp (fifo.flush driver) (fun fifo' _ => fifo'.Configured S ∧ fifo'.enqueued = fifo.enqueued)
      (fun _ _ => ¬ driver.Reliable) d := by
  have hblocks : fifo.blocks ≠ [] := List.ne_nil_of_length_pos (Nat.zero_lt_of_lt h.blocksHead_lt)
  rw [flush, wp_ite, if_neg hblocks]
  exact flushLoop_spec h hdriver _

end Configured

section Stops

variable {δ : Type} {driver : Driver δ} {fifo : HardwareDMAFifo} {d : δ}

theorem dequeue_stops :
    wp (fifo.dequeue driver) (fun _ _ => True) (fun e _ => e.OfHardware) d := by
  rw [dequeue]
  split
  · rw [wp_throw]
    exact .undefined
  · simp only [wp_ite, wp_pure, wp_bind, wp_attempt, wp_throwIOException]
    split_ifs
    refine wp_of_forall (fun _ _ => trivial) ?_
    intro errno _
    split_ifs
    exact .ioException _

theorem enqueue_stops (i : Nat) :
    wp (fifo.enqueue driver i) (fun _ _ => True) (fun e _ => e.OfHardware) d := by
  rw [enqueue]
  split
  · rw [wp_throw]
    exact .undefined
  · simp only [wp_bind, wp_attempt, wp_pure, wp_throwIOException]
    exact wp_of_forall (fun _ _ => trivial) fun _ _ => .ioException _

end Stops

end HardwareDMAFifo

end Dyplo
