import Dyplo.Image.Contract

/-!
# The first block of a file

`processFile` tells the formats apart by the first `ALIGN_SIZE` bytes, in a buffer of zeros.
-/

namespace Dyplo

theorem alignSize_eq : alignSize = 4096 := rfl

theorem bufferSize_eq : bufferSize = 16384 := rfl

/-- The internal buffer after the first read. -/
def firstBuffer (content : List UInt8) : List UInt8 :=
  overlay (List.replicate bufferSize 0) 0 (content.take alignSize)

theorem firstBuffer_length (content : List UInt8) :
    (firstBuffer content).length = bufferSize := by
  have hlen : 0 + (content.take alignSize).length ≤
      (List.replicate bufferSize (0 : UInt8)).length := by
    simp only [List.length_take, List.length_replicate, alignSize_eq, bufferSize_eq]
    omega
  rw [firstBuffer, overlay_length hlen, List.length_replicate]

theorem take_firstBuffer (content : List UInt8) {n : Nat}
    (hn : n ≤ (content.take alignSize).length) :
    (firstBuffer content).take n = content.take n := by
  rw [firstBuffer, overlay_zero, List.take_append_of_le_length hn, List.take_take]
  rw [List.length_take] at hn
  rw [Nat.min_eq_left (by omega)]

private theorem byteAt_firstBuffer (content : List UInt8) {i : Nat} (hi : i < alignSize) :
    byteAt (firstBuffer content) i = byteAt content i := by
  rw [firstBuffer, overlay_zero, byteAt_append]
  split_ifs with hlen
  · exact byteAt_take hi
  · have hend : content.length ≤ i := by
      rw [List.length_take] at hlen
      omega
    rw [byteAt_of_length_le hend, byteAt, List.getD_eq_getElem?_getD, List.getElem?_drop,
      List.getElem?_replicate]
    split_ifs <;> rfl

private theorem take_firstBuffer_iff (content text : List UInt8) (offset : Nat)
    (hpos : 0 < text.length) (hlast : byteAt text (text.length - 1) ≠ 0)
    (hoffset : offset + text.length ≤ alignSize) :
    ((firstBuffer content).drop offset).take text.length = text ↔
      (content.drop offset).take text.length = text := by
  have hbytes : ∀ i < text.length, byteAt ((firstBuffer content).drop offset) i =
      byteAt (content.drop offset) i := by
    intro i hi
    rw [byteAt_drop, byteAt_drop, byteAt_firstBuffer content (by omega)]
  rw [take_eq_iff, take_eq_iff]
  constructor
  · rintro ⟨-, h⟩
    refine ⟨?_, fun i hi => (hbytes i hi).symm.trans (h i hi)⟩
    by_contra hshort
    have hend := byteAt_of_length_le
      (show (content.drop offset).length ≤ text.length - 1 by omega)
    rw [← hbytes _ (by omega), h _ (by omega)] at hend
    exact hlast hend
  · rintro ⟨-, h⟩
    refine ⟨?_, fun i hi => (hbytes i hi).trans (h i hi)⟩
    rw [List.length_drop, firstBuffer_length, bufferSize_eq]
    rw [alignSize_eq] at hoffset
    omega

/-- A file that carries the signature of a `.bit` image. -/
def HasBitSignature (content : List UInt8) : Prop :=
  content.take 2 = [0, 9] ∧ (content.drop 11).take 3 = [0, 1, 97]

instance (content : List UInt8) : Decidable (HasBitSignature content) :=
  inferInstanceAs (Decidable (_ ∧ _))

/-- A file that starts like a `.bin` image. -/
def StartsBin (content : List UInt8) : Prop :=
  content.take 4 = [255, 255, 255, 255]

instance (content : List UInt8) : Decidable (StartsBin content) :=
  inferInstanceAs (Decidable (_ = _))

/-- A file that starts like a `.partial` image: a zero, any three bytes and four ones. -/
def StartsPartial (content : List UInt8) : Prop :=
  byteAt content 0 = 0 ∧ (content.drop 4).take 4 = [255, 255, 255, 255]

instance (content : List UInt8) : Decidable (StartsPartial content) :=
  inferInstanceAs (Decidable (_ ∧ _))

/-- The big-endian ID of a `.partial` image. -/
def partialId (content : List UInt8) : Nat :=
  (byteAt content 2).toNat * 256 + (byteAt content 3).toNat

namespace FpgaImageReader

private theorem isBit_eq {mem : List UInt8} (h : 14 ≤ mem.length) :
    isBit mem = true ↔ mem.take 2 = [0, 9] ∧ (mem.drop 11).take 3 = [0, 1, 97] := by
  have hnine := parseU16_eq_iff mem 0 9
  have hone := parseU16_eq_iff (mem.drop 11) 0 1
  have hmagic : mem.take 2 = [0, 9] ↔ byteAt mem 0 = 0 ∧ byteAt mem 1 = 9 := by
    rw [show 2 = [(0 : UInt8), 9].length from rfl, take_eq_iff]
    simp only [List.length_cons, List.length_nil, Nat.forall_lt_succ_right, Nat.not_lt_zero,
      false_imp_iff, implies_true, true_and]
    exact and_iff_right (by omega)
  have htag : (mem.drop 11).take 3 = [0, 1, 97] ↔
      (byteAt (mem.drop 11) 0 = 0 ∧ byteAt (mem.drop 11) 1 = 1) ∧ byteAt mem 13 = 97 := by
    rw [show 3 = [(0 : UInt8), 1, 97].length from rfl, take_eq_iff]
    simp only [List.length_cons, List.length_nil, Nat.forall_lt_succ_right, Nat.not_lt_zero,
      false_imp_iff, implies_true, true_and, List.length_drop, byteAt_drop]
    exact and_iff_right (by omega)
  rw [isBit, Bool.and_eq_true, Bool.and_eq_true, beq_iff_eq, beq_iff_eq, beq_iff_eq, hmagic, htag,
    ← hnine, ← hone, and_assoc]
  rfl
private theorem isBit_iff (content : List UInt8) :
    isBit (firstBuffer content) = true ↔ HasBitSignature content := by
  have hlen : 14 ≤ (firstBuffer content).length := by
    rw [firstBuffer_length, bufferSize_eq]
    decide
  have hmagic := take_firstBuffer_iff content [0, 9] 0 (by decide) (by decide) (by decide)
  have htag := take_firstBuffer_iff content [0, 1, 97] 11 (by decide) (by decide) (by decide)
  rw [isBit_eq hlen]
  exact and_congr hmagic htag

theorem isBin_iff (content : List UInt8) :
    isBin (firstBuffer content) = true ↔ StartsBin content := by
  have h := take_firstBuffer_iff content [255, 255, 255, 255] 0 (by decide) (by decide) (by decide)
  rw [List.drop_zero, List.drop_zero] at h
  rw [isBin, beq_iff_eq, loadWord_eq_ones]
  exact h

theorem isPartial_iff (content : List UInt8) :
    isPartial (firstBuffer content) = true ↔ StartsPartial content := by
  have h := take_firstBuffer_iff content [255, 255, 255, 255] 4 (by decide) (by decide) (by decide)
  rw [isPartial, Bool.and_eq_true, beq_iff_eq, beq_iff_eq, loadWord_eq_ones,
    byteAt_firstBuffer content (by decide)]
  exact and_congr_right fun _ => h

theorem parseU16_partialId (content : List UInt8) :
    parseU16 ((firstBuffer content).drop 2) = partialId content := by
  rw [parseU16_eq, byteAt_drop, byteAt_drop, byteAt_firstBuffer content (by decide),
    byteAt_firstBuffer content (by decide), partialId]

variable {κ : Type} {callback : FpgaImageReaderCallback κ}

/-- The state behind the first read. -/
def headerState (s : ReaderState κ) : ReaderState κ :=
  { s with
    file := ⟨s.file.content.drop alignSize⟩
    buffer := firstBuffer s.file.content
    trace := s.trace ++ [.readBuffer 0 alignSize] }

private theorem wp_readHeader {Q : Nat → ReaderState κ → Prop} {E : Stop → ReaderState κ → Prop}
    {s : ReaderState κ} :
    wp readHeader Q E s ↔
      if s.file.content.length < 64 then E (.throws .truncatedFile) (headerState s)
      else Q (min alignSize s.file.content.length) (headerState s) := by
  have hfits : ¬ (List.replicate bufferSize (0 : UInt8)).length <
      0 + (s.file.readAll alignSize).1.length := by
    rw [List.length_replicate, File.readAll_length, alignSize_eq, bufferSize_eq]
    omega
  have hshort : (s.file.readAll alignSize).1.length < 64 ↔ s.file.content.length < 64 := by
    rw [File.readAll_length, alignSize_eq]
    omega
  rw [readHeader, wp_bind, wp_modify, wp_bind, wp_readBuffer, if_neg hfits, wp_ite, wp_throw,
    wp_pure]
  by_cases h : s.file.content.length < 64
  · rw [if_pos (hshort.mpr h), if_pos h]
    exact Iff.rfl
  · rw [if_neg (mt hshort.mp h), if_neg h, ← File.readAll_length]
    exact Iff.rfl

theorem wp_processFile {Q : Nat → ReaderState κ → Prop} {E : Stop → ReaderState κ → Prop}
    {fuel : Nat} {s : ReaderState κ} :
    wp (processFile callback fuel) Q E s ↔
      if s.file.content.length < 64 then E (.throws .truncatedFile) (headerState s)
      else if HasBitSignature s.file.content then
        wp (processBit callback fuel (min alignSize s.file.content.length)) Q E (headerState s)
      else wp (processRaw callback fuel (min alignSize s.file.content.length)) Q E
        (headerState s) := by
  have hformat : isBit (headerState s).buffer = true ↔ HasBitSignature s.file.content :=
    isBit_iff _
  rw [processFile, wp_bind, wp_readHeader, wp_bind, wp_get, wp_ite]
  simp only [hformat]

end FpgaImageReader

end Dyplo
