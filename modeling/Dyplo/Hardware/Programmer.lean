import Dyplo.Hardware.DmaFifo

/-!
# `HardwareProgrammer`

The callback that sends an image to the ICAP, through the blocks of a DMA fifo or through a CPU
fifo. The routes are set up by the time it is constructed.
-/

namespace Dyplo

def programmerBlocksize : Nat := 65536

def icapNopInstruction : BitVec 32 := 0x20000000#32

def estimatedFifoSize : Nat := 256

/-- The CPU fifo. The bytes it has taken are recorded. -/
structure HardwareFifo where
  written : List UInt8

/-- `block` is the index of the block that is checked out. -/
structure HardwareProgrammer (δ : Type) where
  dmaWriter : Option HardwareDMAFifo
  block : Option Nat
  cpuFifo : Option HardwareFifo
  cpuBuffer : Option (List UInt8)
  dyploUserId : Nat
  dyploUserIdValid : Bool
  device : δ

abbrev ProgrammerM (δ : Type) := EStateM Stop (HardwareProgrammer δ)

namespace HardwareProgrammer

variable {δ : Type}

/-- As it is constructed over a DMA fifo. -/
def overDMA (fifo : HardwareDMAFifo) (device : δ) : HardwareProgrammer δ where
  dmaWriter := some fifo
  block := none
  cpuFifo := none
  cpuBuffer := none
  dyploUserId := 0
  dyploUserIdValid := false
  device := device

/-- As it is constructed over a CPU fifo. -/
def overCPU (device : δ) : HardwareProgrammer δ where
  dmaWriter := none
  block := none
  cpuFifo := some ⟨[]⟩
  cpuBuffer := none
  dyploUserId := 0
  dyploUserIdValid := false
  device := device

def onDevice {α : Type} (c : EStateM Stop δ α) : ProgrammerM δ α := fun p =>
  match c p.device with
  | .ok a d => .ok a { p with device := d }
  | .error e d => .error e { p with device := d }

variable (driver : Driver δ)

/-- `HardwareControl::readDyploStaticID`, whose result is an `unsigned short`. -/
def readDyploStaticID : EStateM Stop δ Nat := do
  match ← attempt driver.staticID with
  | .ok data => return data % 2 ^ 16
  | .error errno => throwIOException errno "readDyploStaticID"

def getDyploStaticID : ProgrammerM δ Nat := do
  let p ← get
  if p.dyploUserIdValid then return p.dyploUserId
  else
    let id ← onDevice (readDyploStaticID driver)
    modify fun p => { p with dyploUserId := id, dyploUserIdValid := true }
    return id

def verifyStaticID (userId : Nat) : ProgrammerM δ Unit := do
  let id ← getDyploStaticID driver
  if id = userId then return else throw (.throws .staticPartialIDMismatch)

/-- The block that `block` points to. -/
def derefBlock (fifo : HardwareDMAFifo) : Option Nat → ProgrammerM δ (Nat × Block)
  | none => throw .undefined
  | some i =>
      match fifo.blocks[i]? with
      | none => throw .undefined
      | some block => return (i, block)

/-- `if (!block) block = dma_writer->dequeue()`, and the fifo after that. -/
def takeBlock (fifo : HardwareDMAFifo) : ProgrammerM δ HardwareDMAFifo := do
  let p ← get
  if p.block.isSome then return fifo
  else
    let result ← onDevice (fifo.dequeue driver)
    modify fun p => { p with dmaWriter := some result.2, block := result.1 }
    return result.2

/-- The block that is checked out, or else the next one. -/
def checkOut (fifo : HardwareDMAFifo) : ProgrammerM δ (HardwareDMAFifo × Nat × Block) := do
  let fifo ← takeBlock driver fifo
  let p ← get
  let block ← derefBlock fifo p.block
  return (fifo, block)

/-- `dma_writer->enqueue(block); block = NULL` with what has been stored to the block. -/
def enqueueBlock (fifo : HardwareDMAFifo) (i : Nat) (block : Block) : ProgrammerM δ Unit := do
  modify fun p => { p with dmaWriter := some (fifo.setBlock i block) }
  let fifo ← onDevice ((fifo.setBlock i block).enqueue driver i)
  modify fun p => { p with dmaWriter := some fifo, block := none }

/-- `cpu_fifo->write` -/
def writeFifo (fifo : HardwareFifo) (data : List UInt8) : ProgrammerM δ Nat := do
  match ← onDevice (attempt (driver.write data)) with
  | .ok result =>
      modify fun p => { p with cpuFifo := some ⟨fifo.written ++ data.take result⟩ }
      return result
  | .error errno => throwIOException errno ""

def beginProcessData (bytesRemaining : Nat) : ProgrammerM δ (List UInt8 × Nat) := do
  let p ← get
  match p.dmaWriter, p.cpuFifo with
  | some fifo, _ =>
      let out ← checkOut driver fifo
      let block := out.2.2
      return (block.data, if block.size < bytesRemaining then block.size else bytesRemaining)
  | none, some _ =>
      let buffer := p.cpuBuffer.getD (List.replicate bufferSize 0)
      set { p with cpuBuffer := some buffer }
      return (buffer, if bufferSize < bytesRemaining then bufferSize else bytesRemaining)
  | none, none => return ([], 0)

/-- A NOP where the last 64-bit word lacks its second half. -/
def padNOP (data : List UInt8) (lengthBytes : Nat) : List UInt8 :=
  if 0 < lengthBytes % 8 ∧ lengthBytes % 8 ≤ 4 then
    overlay data ((lengthBytes &&& 0xFFFFFFF8) + 4) (storeWord icapNopInstruction)
  else data

/-- The content of a block behind the padding to 64 bits. -/
def padBlock (block : Block) (data : List UInt8) (lengthBytes : Nat) : ProgrammerM δ (List UInt8) :=
  if (0 < lengthBytes % 8 ∧ lengthBytes % 8 ≤ 4) ∧
      block.size < (lengthBytes &&& 0xFFFFFFF8) + 8 then
    throw .undefined
  else return padNOP data lengthBytes

def paddedLength (lengthBytes : Nat) : Nat :=
  if lengthBytes % 8 = 0 then lengthBytes % 2 ^ 32 else (lengthBytes + 7) &&& 0xFFFFFFF8

/-- `data` is the memory behind the pointer of the grant. -/
def endProcessData (data : List UInt8) (lengthBytes : Nat) : ProgrammerM δ Nat := do
  let p ← get
  match p.dmaWriter, p.cpuFifo with
  | some fifo, _ =>
      let block ← derefBlock fifo p.block
      let content ← padBlock block.2 data lengthBytes
      enqueueBlock driver fifo block.1
        { block.2 with data := content, bytesUsed := paddedLength lengthBytes }
      return lengthBytes
  | none, some fifo =>
      set { p with cpuBuffer := some data }
      writeFifo driver fifo (data.take lengthBytes)
  | none, none => return 0

def callback : FpgaImageReaderCallback (HardwareProgrammer δ) where
  beginProcessData := beginProcessData driver
  endProcessData := endProcessData driver
  verifyStaticID := verifyStaticID driver

def nops (count : Nat) : List UInt8 := (List.replicate count (storeWord icapNopInstruction)).flatten

def sendNOP (count : Nat) : ProgrammerM δ Nat := do
  let count := (count + 1) % 2 ^ 32 &&& 0xFFFFFFFE
  let bytes := count * 4 % 2 ^ 32
  let p ← get
  match p.dmaWriter, p.cpuFifo with
  | some fifo, _ =>
      let out ← checkOut driver fifo
      let block := out.2.2
      let count := if block.size < bytes then block.size / 4 else count
      let bytes := if block.size < bytes then block.size else bytes
      enqueueBlock driver out.1 out.2.1
        { block with data := overlay block.data 0 (nops count), bytesUsed := bytes }
      return count
  | none, some fifo =>
      let _ ← writeFifo driver fifo ((nops count).take bytes)
      return count
  | none, none => return 0

def flushDma : ProgrammerM δ Unit := do
  let p ← get
  match p.dmaWriter with
  | none => return
  | some fifo =>
      let fifo ← onDevice (fifo.flush driver)
      modify fun p => { p with dmaWriter := some fifo }

/-- `File::flush` on the CPU fifo: EROFS and EINVAL only say that there is nothing to wait for. -/
def flushFifo : ProgrammerM δ Unit := do
  let p ← get
  match p.cpuFifo with
  | none => return
  | some _ =>
      match ← onDevice (attempt driver.fsync) with
      | .ok _ => return
      | .error errno => if errno = 30 ∨ errno = 22 then return else throwIOException errno ""

/-- `~HardwareProgrammer` up to where it deletes the fifos. -/
def destroy : ProgrammerM δ Unit := do
  let _ ← sendNOP driver estimatedFifoSize
  flushDma driver
  flushFifo driver

/-- `fromFile`, which returns an `unsigned int`. -/
def fromFile (fuel : Nat) (file : File) : ProgrammerM δ Nat := fun p =>
  match FpgaImageReader.run (callback driver) fuel file p with
  | .ok bytes s => .ok (bytes % 2 ^ 32) s.callback
  | .error e s => .error e s.callback

section Rules

variable {driver} {p : HardwareProgrammer δ} {E : Stop → HardwareProgrammer δ → Prop}

@[simp]
theorem wp_onDevice {α : Type} {c : EStateM Stop δ α} {Q : α → HardwareProgrammer δ → Prop} :
    wp (onDevice c) Q E p ↔ wp c (fun a d => Q a { p with device := d })
      (fun e d => E e { p with device := d }) p.device := by
  unfold wp onDevice
  cases c p.device <;> rfl

theorem wp_fromFile {Q : Nat → HardwareProgrammer δ → Prop} {fuel : Nat} {file : File} :
    wp (fromFile driver fuel file) Q E p ↔
      wp (FpgaImageReader.processFile (callback driver) fuel)
        (fun n s => Q (n % 2 ^ 32) s.callback) (fun e s => E e s.callback)
        ⟨file, p, [], [], []⟩ := by
  unfold wp fromFile FpgaImageReader.run
  cases FpgaImageReader.processFile (callback driver) fuel ⟨file, p, [], [], []⟩ <;> rfl

end Rules

/-- The same cached static ID. -/
def SameID (p q : HardwareProgrammer δ) : Prop :=
  q.dyploUserId = p.dyploUserId ∧ q.dyploUserIdValid = p.dyploUserIdValid

/-- Neither fifo has been used. -/
structure SameFifos (p q : HardwareProgrammer δ) : Prop where
  dmaWriter : q.dmaWriter = p.dmaWriter
  block : q.block = p.block
  cpuFifo : q.cpuFifo = p.cpuFifo

section Frame

variable {driver} {p : HardwareProgrammer δ}

/-- The static ID has nothing to do with the fifos. -/
theorem verifyStaticID_frame (userId : Nat) :
    Keeps p.SameFifos (fun _ => True) (verifyStaticID driver userId) := by
  have hread : Keeps p.SameFifos (fun _ => True) (onDevice (readDyploStaticID driver)) :=
    fun q hq => wp_onDevice.mpr (wp_of_forall (fun _ _ => ⟨hq.1, hq.2, hq.3⟩)
      fun _ _ => ⟨trivial, hq.1, hq.2, hq.3⟩)
  have hget : Keeps p.SameFifos (fun _ => True) (getDyploStaticID driver) :=
    .get_bind fun _ _ => .ite (fun _ => .pure _) fun _ => .bind hread fun _ =>
      .bind (.modify fun _ hq => ⟨hq.1, hq.2, hq.3⟩) fun _ => .pure _
  exact .bind hget fun _ => .ite (fun _ => .pure _) fun _ => .throw trivial

private theorem onDevice_frame {α : Type} {c : EStateM Stop δ α}
    (h : ∀ d, wp c (fun _ _ => True) (fun e _ => e.OfHardware) d) :
    Keeps p.SameID Stop.OfHardware (onDevice c) :=
  fun q hq => wp_onDevice.mpr ((h q.device).mono (fun _ _ _ => hq) fun _ _ he => ⟨he, hq⟩)

private theorem derefBlock_frame (fifo : HardwareDMAFifo) (i : Option Nat) :
    Keeps p.SameID Stop.OfHardware (derefBlock fifo i) := by
  unfold derefBlock
  split
  · exact .throw .undefined
  · split
    · exact .throw .undefined
    · exact .pure _

private theorem checkOut_frame (fifo : HardwareDMAFifo) :
    Keeps p.SameID Stop.OfHardware (checkOut driver fifo) := by
  have htake : Keeps p.SameID Stop.OfHardware (takeBlock driver fifo) :=
    .get_bind fun _ _ => .ite (fun _ => .pure _) fun _ =>
      .bind (onDevice_frame fun _ => HardwareDMAFifo.dequeue_stops) fun _ =>
        .bind (.modify fun _ h => h) fun _ => .pure _
  exact .bind htake fun _ => .get_bind fun _ _ => .bind (derefBlock_frame _ _) fun _ => .pure _

private theorem enqueueBlock_frame (fifo : HardwareDMAFifo) (i : Nat) (block : Block) :
    Keeps p.SameID Stop.OfHardware (enqueueBlock driver fifo i block) :=
  .bind (.modify fun _ h => h) fun _ =>
    .bind (onDevice_frame fun _ => HardwareDMAFifo.enqueue_stops i) fun _ => .modify fun _ h => h

private theorem writeFifo_frame (fifo : HardwareFifo) (data : List UInt8) :
    Keeps p.SameID Stop.OfHardware (writeFifo driver fifo data) := by
  have hwrite : ∀ d, wp (attempt (driver.write data)) (fun _ _ => True)
      (fun e _ => e.OfHardware) d :=
    fun _ => wp_attempt.mpr (wp_of_forall (fun _ _ => trivial) fun _ _ => trivial)
  refine .bind (onDevice_frame hwrite) fun result => ?_
  cases result with
  | ok result => exact .bind (.modify fun _ h => h) fun _ => .pure _
  | error errno => exact .throw (.ioException _)

/-- A transfer has nothing to do with the static ID. -/
theorem beginProcessData_frame (n : Nat) :
    Keeps p.SameID Stop.OfHardware (beginProcessData driver n) := by
  refine .get_bind fun q hq => ?_
  split
  · exact .bind (checkOut_frame _) fun _ => .pure _
  · exact .bind (.set hq) fun _ => .pure _
  · exact .pure _

theorem endProcessData_frame (data : List UInt8) (n : Nat) :
    Keeps p.SameID Stop.OfHardware (endProcessData driver data n) := by
  have hpad : ∀ block, Keeps p.SameID Stop.OfHardware (padBlock block data n) := fun _ =>
    .ite (fun _ => .throw .undefined) fun _ => .pure _
  refine .get_bind fun q hq => ?_
  split
  · exact .bind (derefBlock_frame _ _) fun _ => .bind (hpad _) fun _ =>
      .bind (enqueueBlock_frame _ _ _) fun _ => .pure _
  · exact .bind (.set hq) fun _ => writeFifo_frame _ _
  · exact .pure _

end Frame

end HardwareProgrammer

end Dyplo
