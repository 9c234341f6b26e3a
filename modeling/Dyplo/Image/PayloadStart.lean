import Dyplo.Image.Tags

/-!
# The start of a payload

The first read of a `.bit` file ends inside its payload, or behind that. What it has of the payload
is moved to the front of the internal buffer.
-/

namespace Dyplo

namespace FpgaImageReader

variable {κ : Type} (callback : FpgaImageReaderCallback κ)

/-- `processFile` behind the header, with the size and the bytes that have been read. -/
def processData (fuel size totalBytes : Nat) : ImageM κ Nat := do
  let totalBytes ← firstBlock callback size totalBytes
  payloadLoop callback size fuel totalBytes
  return size

end FpgaImageReader

open FpgaImageReader

/-- The bytes of the first read. -/
abbrev firstRead (content : List UInt8) : Nat := min alignSize content.length

theorem take_firstRead (content : List UInt8) :
    (firstBuffer content).take (firstRead content) = content.take (firstRead content) :=
  take_firstBuffer content (by rw [List.length_take])

/-- The size that stands behind the data tag. -/
def declaredSize (content : List UInt8) (data : Nat) : Nat :=
  parseU32 ((firstBuffer content).drop (data + 1))

/-- The internal buffer once the payload has moved to its start. -/
def payloadBuffer (content : List UInt8) (data : Nat) : List UInt8 :=
  overlay (firstBuffer content) 0
    (((firstBuffer content).drop (data + 5)).take (firstRead content - (data + 5)))

theorem declaredSize_lt (content : List UInt8) (data : Nat) :
    declaredSize content data < 2 ^ 32 := by
  have hhigh := parseU16_lt ((firstBuffer content).drop (data + 1))
  have hlow := parseU16_lt (((firstBuffer content).drop (data + 1)).drop 2)
  rw [declaredSize, parseU32_eq]
  omega

section PayloadStart

variable {content : List UInt8} {data : Nat}

private theorem payloadBuffer_length (content : List UInt8) (data : Nat) :
    (payloadBuffer content data).length = bufferSize := by
  have hlen := firstBuffer_length content
  rw [payloadBuffer, overlay_length, hlen]
  rw [List.length_take, List.length_drop]
  omega

theorem take_payloadBuffer (h : data + 5 ≤ firstRead content) :
    (payloadBuffer content data).take (firstRead content - (data + 5)) =
      (content.drop (data + 5)).take (firstRead content - (data + 5)) := by
  have hslice : ((firstBuffer content).drop (data + 5)).take (firstRead content - (data + 5)) =
      (content.drop (data + 5)).take (firstRead content - (data + 5)) :=
    slice_congr (take_firstRead content) (by omega)
  have hlen : ((content.drop (data + 5)).take (firstRead content - (data + 5))).length =
      firstRead content - (data + 5) := by
    have hread : firstRead content = min alignSize content.length := rfl
    rw [List.length_take, List.length_drop]
    omega
  rw [payloadBuffer, hslice]
  exact take_overlay_of_length hlen

theorem drop_alignSize (h : data + 5 ≤ firstRead content) :
    content.drop alignSize = (content.drop (data + 5)).drop (firstRead content - (data + 5)) := by
  have hskip : data + 5 + (firstRead content - (data + 5)) = firstRead content := by omega
  rw [List.drop_drop, hskip]
  rcases Nat.le_total alignSize content.length with hle | hle
  · rw [firstRead, Nat.min_eq_left hle]
  · rw [firstRead, Nat.min_eq_right hle, List.drop_length, List.drop_of_length_le hle]

/-- The first `total` bytes of a payload stand at the front of the internal buffer, and the file
goes on behind them. -/
structure ReadAhead {κ : Type} (tail : List UInt8) (total : Nat) (s : ReaderState κ) : Prop where
  length : s.buffer.length = bufferSize
  pos : 0 < total
  lt : total < alignSize
  le : total ≤ tail.length
  front : s.buffer.take total = tail.take total
  rest : s.file.content = tail.drop total

theorem readAhead_payloadBuffer {κ : Type} {s : ReaderState κ} (h : data + 5 < firstRead content)
    (hbuffer : s.buffer = payloadBuffer content data)
    (hfile : s.file.content = content.drop alignSize) :
    ReadAhead (content.drop (data + 5)) (firstRead content - (data + 5)) s := by
  have hfirst : firstRead content = min alignSize content.length := rfl
  have hle := Nat.le_of_lt h
  refine ⟨?_, by omega, by omega, ?_, ?_, hfile.trans (drop_alignSize hle)⟩
  · rw [hbuffer, payloadBuffer_length]
  · rw [List.length_drop]
    omega
  · rw [hbuffer, take_payloadBuffer hle]

theorem processPayload_eq {κ : Type} {callback : FpgaImageReaderCallback κ} {s : ReaderState κ}
    (h : data + 5 < firstRead content) (hbuffer : s.buffer = firstBuffer content) (fuel : Nat) :
    processPayload callback fuel (firstRead content) data s =
      processData callback fuel (declaredSize content data) (firstRead content - (data + 5))
        { s with buffer := payloadBuffer content data } := by
  rw [processPayload, if_neg (Nat.not_le.mpr h), payloadBuffer, declaredSize, ← hbuffer]
  rfl

end PayloadStart

end Dyplo
