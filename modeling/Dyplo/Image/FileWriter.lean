import Dyplo.Image.Contract

/-!
# `FpgaImageFileWriter`

The callback that writes an image to another file. `write` is the system call on that file: the
number of bytes it takes, or an error number.
-/

namespace Dyplo

structure FpgaImageFileWriter (σ : Type) where
  outputFile : σ
  buffer : List UInt8

namespace FpgaImageFileWriter

variable {σ : Type} (write : List UInt8 → Nat → EStateM Nat σ Nat)

/-- `output_file.write(buffer, count)` -/
def writeOutput (count : Nat) : EStateM Stop (FpgaImageFileWriter σ) Nat := fun w =>
  match write w.buffer count w.outputFile with
  | .ok result file => .ok result { w with outputFile := file }
  | .error errno file =>
      .error (.throws (.ioException ⟨errno, ""⟩)) { w with outputFile := file }

def callback : FpgaImageReaderCallback (FpgaImageFileWriter σ) where
  beginProcessData bytesRemaining := do
    let w ← get
    return (w.buffer, if bufferSize < bytesRemaining then bufferSize else bytesRemaining)
  endProcessData data lengthBytes := do
    modify fun w => { w with buffer := data }
    writeOutput write lengthBytes
  verifyStaticID _ := return

end FpgaImageFileWriter

/-- A file that takes all it is given. -/
def appendToFile (data : List UInt8) (count : Nat) : EStateM Nat (List UInt8) Nat := do
  modify fun written => written ++ data.take count
  return count

theorem appendToFile_acceptsAll :
    (FpgaImageFileWriter.callback appendToFile).AcceptsAll (fun n g => g = min n bufferSize)
      (fun _ => True) where
  beginProcessData n k _ := by
    have hok : (FpgaImageFileWriter.callback appendToFile).beginProcessData n k =
        .ok (k.buffer, if bufferSize < n then bufferSize else n) k := rfl
    rw [wp_of_ok hok]
    refine ⟨?_, trivial⟩
    change (if bufferSize < n then bufferSize else n) = min n bufferSize
    split_ifs <;> omega
  endProcessData data n k _ := by
    have hok : (FpgaImageFileWriter.callback appendToFile).endProcessData data n k =
        .ok n ⟨k.outputFile ++ data.take n, data⟩ := rfl
    rw [wp_of_ok hok]
    exact ⟨rfl, trivial⟩
  verifyStaticID id k _ := by
    have hok : (FpgaImageFileWriter.callback appendToFile).verifyStaticID id k = .ok () k := rfl
    rw [wp_of_ok hok]
    trivial

end Dyplo
