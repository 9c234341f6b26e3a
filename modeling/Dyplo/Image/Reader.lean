import Dyplo.FileIO.File
import Dyplo.Image.Description
import Dyplo.Library.WeakestPrecondition

/-!
# `FpgaImageReader`

`processFile` pulls an image out of a file and pushes it through a callback. Every access to the
internal buffer and every call into the callback is recorded. A loop whose length is up to the
callback has fuel; a run without enough of it stops with `outOfFuel`.
-/

namespace Dyplo

abbrev alignSize : Nat := 4 * 1024

abbrev bufferSize : Nat := 4 * alignSize

structure IOException where
  errno : Nat
  context : String
  deriving DecidableEq

inductive ImageException
  | truncatedFile
  | staticPartialIDMismatch
  | runtimeError (what : String)
  | ioException (e : IOException)
  deriving DecidableEq

/-- Why a computation does not return. -/
inductive Stop
  | throws (e : ImageException)
  /-- An access through a null pointer or outside of the buffer. -/
  | undefined
  | outOfFuel
  deriving DecidableEq

/-- The sink of an image. `begin_process_data` hands out a pointer and a grant; the pointer is
the memory behind it, which `end_process_data` sees again with what has been written there. -/
structure FpgaImageReaderCallback (κ : Type) where
  beginProcessData (bytesRemaining : Nat) : EStateM Stop κ (List UInt8 × Nat)
  endProcessData (data : List UInt8) (lengthBytes : Nat) : EStateM Stop κ Nat
  verifyStaticID (userId : Nat) : EStateM Stop κ Unit

inductive ImageEvent
  /-- `read_all` of `count` bytes to this offset of the internal buffer. -/
  | readBuffer (offset count : Nat)
  | processTag (tag : UInt8) (value : List UInt8)
  | verifyStaticID (id : Nat)
  | beginProcessData (request grant : Nat)
  /-- `swap_buffer_aligned` from the internal buffer to the callback's. -/
  | swapBuffer (words : Nat)
  /-- `memcpy` from the internal buffer to the callback's. -/
  | copyBuffer (count : Nat)
  /-- `read_all` to the callback's buffer, and how much it read. -/
  | readCallback (count read : Nat)
  /-- `endProcessData` with the bytes it is told to take. -/
  | endProcessData (bytes : List UInt8)

/-- The file, the callback's own state, and the local variables of `processFile` that are
memory: its buffer and what `cb_buffer` points to. -/
structure ReaderState (κ : Type) where
  file : File
  callback : κ
  buffer : List UInt8
  cbBuffer : List UInt8
  trace : List ImageEvent

abbrev ImageM (κ : Type) := EStateM Stop (ReaderState κ)

namespace FpgaImageReader

variable {κ : Type} (callback : FpgaImageReaderCallback κ)

def emit (event : ImageEvent) : ImageM κ Unit :=
  modify fun s => { s with trace := s.trace ++ [event] }

/-- A call into the callback. -/
def call {α : Type} (c : EStateM Stop κ α) : ImageM κ α := fun s =>
  match c s.callback with
  | .ok a k => .ok a { s with callback := k }
  | .error e k => .error e { s with callback := k }

def beginProcessData (bytesRemaining : Nat) : ImageM κ Nat := do
  let result ← call (callback.beginProcessData bytesRemaining)
  emit (.beginProcessData bytesRemaining result.2)
  modify fun s => { s with cbBuffer := result.1 }
  return result.2

def endProcessData (lengthBytes : Nat) : ImageM κ Nat := do
  let s ← get
  emit (.endProcessData (s.cbBuffer.take lengthBytes))
  call (callback.endProcessData s.cbBuffer lengthBytes)

def verifyStaticID (userId : Nat) : ImageM κ Unit := do
  emit (.verifyStaticID userId)
  call (callback.verifyStaticID userId)

/-- `fpgaImageFile.read_all(buffer_start + offset, count)` -/
def readBuffer (offset count : Nat) : ImageM κ Nat := do
  emit (.readBuffer offset count)
  let s ← get
  let bytes := (s.file.readAll count).1
  if s.buffer.length < offset + bytes.length then throw .undefined
  else
    set { s with file := (s.file.readAll count).2, buffer := overlay s.buffer offset bytes }
    return bytes.length

/-- `fpgaImageFile.read_all(cb_buffer, count)` -/
def readCallback (count : Nat) : ImageM κ Nat := do
  let s ← get
  let bytes := (s.file.readAll count).1
  emit (.readCallback count bytes.length)
  modify fun s =>
    { s with file := (s.file.readAll count).2, cbBuffer := overlay s.cbBuffer 0 bytes }
  return bytes.length

/-- `swap_buffer_aligned(cb_buffer, buffer_start, words)` -/
def swapBuffer (words : Nat) : ImageM κ Unit := do
  emit (.swapBuffer words)
  let s ← get
  if s.buffer.length < 4 * words then throw .undefined
  else set { s with cbBuffer := overlay s.cbBuffer 0 (swapBufferAligned s.buffer words) }

/-- `memcpy(cb_buffer, buffer_start, count)` -/
def copyBuffer (count : Nat) : ImageM κ Unit := do
  emit (.copyBuffer count)
  let s ← get
  if s.buffer.length < count then throw .undefined
  else set { s with cbBuffer := overlay s.cbBuffer 0 (s.buffer.take count) }

/-- The value of a tag is the memory from `data` on; `size` bytes of it belong to the tag. The
`user_id` that is passed on has been stored by then. -/
def processTag (tag : UInt8) (size : Nat) (data : List UInt8) : ImageM κ Unit := do
  emit (.processTag tag (data.take size))
  if tag = 97 then
    let description := parseDescriptionTag data size (some true) (some 0)
    if description.result && description.isPartial == some true then
      verifyStaticID callback (description.userId.getD 0 % 2 ^ 16)

/-- The loop over tag and value pairs from the offset `data` on. It returns the offset of the
data tag. -/
def tagLoop (bytes data : Nat) : ImageM κ Nat := do
  let s ← get
  let tag := byteAt s.buffer data
  if tag = 101 then return data
  else if bytes ≤ data + 1 then throw (.throws .truncatedFile)
  else
    let length := parseU16 (s.buffer.drop (data + 1))
    if bytes ≤ data + 3 + length then throw (.throws .truncatedFile)
    else
      processTag callback tag length (s.buffer.drop (data + 3))
      tagLoop bytes (data + 3 + length)
  termination_by bytes - data

/-- The bytes of the first transfer, which is topped up to `ALIGN_SIZE` unless the image ends
before. -/
def alignFirst (size totalBytes : Nat) : ImageM κ Nat := do
  if size ≤ totalBytes then return size
  else if totalBytes % alignSize = 0 then return totalBytes
  else
    let align := alignSize - totalBytes % alignSize
    let bytes ← readBuffer totalBytes align
    if bytes < align then throw (.throws .truncatedFile)
    else return totalBytes + align

def firstBlock (size totalBytes : Nat) : ImageM κ Nat := do
  let totalBytes ← alignFirst size totalBytes
  let totalBytes := (← beginProcessData callback totalBytes) % 2 ^ 32
  swapBuffer (totalBytes >>> 2)
  let bytes ← endProcessData callback totalBytes
  if bytes < totalBytes then throw (.throws .truncatedFile)
  else return totalBytes

def payloadLoop (size : Nat) : Nat → Nat → ImageM κ Unit
  | 0, totalBytes => if totalBytes < size then throw .outOfFuel else return
  | fuel + 1, totalBytes =>
      if totalBytes < size then do
        let toRead ← beginProcessData callback (size - totalBytes)
        let bytes ← readBuffer 0 toRead
        if bytes < toRead then throw (.throws .truncatedFile)
        else
          swapBuffer (bytes >>> 2)
          let bytes ← endProcessData callback toRead
          if bytes < toRead then throw (.throws .truncatedFile)
          else payloadLoop size fuel ((totalBytes + bytes) % 2 ^ 32)
      else return

/-- The rest of `processFile` once the data tag has been found at `data`. -/
def processPayload (fuel bytes data : Nat) : ImageM κ Nat := do
  if bytes ≤ data + 5 then throw (.throws .truncatedFile)
  else
    let s ← get
    let size := parseU32 (s.buffer.drop (data + 1))
    let totalBytes := bytes - (data + 5)
    set { s with buffer := overlay s.buffer 0 ((s.buffer.drop (data + 5)).take totalBytes) }
    let totalBytes ← firstBlock callback size totalBytes
    payloadLoop callback size fuel totalBytes
    return size

def processBit (fuel bytes : Nat) : ImageM κ Nat := do
  let data ← tagLoop callback bytes 13
  processPayload callback fuel bytes data

def rawLoop : Nat → Nat → ImageM κ Nat
  | 0, _ => throw .outOfFuel
  | fuel + 1, total => do
      let _ ← beginProcessData callback bufferSize
      let bytes ← readCallback bufferSize
      if bytes = 0 then return total
      else
        let bytesWritten ← endProcessData callback bytes
        if bytesWritten < bytes then throw (.throws .truncatedFile)
        else rawLoop fuel (total + bytesWritten)

/-- `parse_u16(buffer_start) == 9 && parse_u16(buffer_start + 11) == 1 && buffer[13] == 'a'` -/
def isBit (buffer : List UInt8) : Bool :=
  parseU16 buffer == 9 && parseU16 (buffer.drop 11) == 1 && byteAt buffer 13 == 97

/-- `*(unsigned int*)buffer_start == 0xFFFFFFFF` -/
def isBin (buffer : List UInt8) : Bool := loadWord buffer == 0xFFFFFFFF#32

/-- `buffer_start[0] == 0x00 && *(unsigned int*)(&buffer_start[4]) == 0xFFFFFFFF` -/
def isPartial (buffer : List UInt8) : Bool :=
  byteAt buffer 0 == 0 && loadWord (buffer.drop 4) == 0xFFFFFFFF#32

/-- The check of a raw image in front of its first block. -/
def checkRaw : ImageM κ Unit := do
  let s ← get
  if isBin s.buffer then return
  else if isPartial s.buffer then verifyStaticID callback (parseU16 (s.buffer.drop 2))
  else throw (.throws (.runtimeError "Unrecognized bitstream format"))

def processRawData (fuel bytes : Nat) : ImageM κ Nat := do
  let total ← beginProcessData callback bytes
  copyBuffer total
  let bytesWritten ← endProcessData callback bytes
  if bytesWritten < bytes then throw (.throws .truncatedFile)
  else rawLoop callback fuel total

def processRaw (fuel bytes : Nat) : ImageM κ Nat := do
  checkRaw callback
  processRawData callback fuel bytes

/-- The first block of the file, which tells the formats apart. -/
def readHeader : ImageM κ Nat := do
  modify fun s => { s with buffer := List.replicate bufferSize 0 }
  let bytes ← readBuffer 0 alignSize
  if bytes < 64 then throw (.throws .truncatedFile)
  else return bytes

def processFile (fuel : Nat) : ImageM κ Nat := do
  let bytes ← readHeader
  let s ← get
  if isBit s.buffer then processBit callback fuel bytes else processRaw callback fuel bytes

/-- `processFile` on a file, with the callback in a given state. -/
def run (fuel : Nat) (file : File) (k : κ) : EStateM.Result Stop (ReaderState κ) Nat :=
  processFile callback fuel
    { file := file, callback := k, buffer := [], cbBuffer := [], trace := [] }

end FpgaImageReader

end Dyplo
