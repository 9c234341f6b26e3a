import Mathlib.Data.List.GetD
import Mathlib.Tactic.IntervalCases
import Dyplo.Library.Blockwise

/-!
# Bytes, words and memory

Memory is a list of bytes; the processor is little-endian. A pointer into a memory is the list
of the bytes from there on.
-/

namespace Dyplo

/-- The byte at an offset. -/
def byteAt (mem : List UInt8) (i : Nat) : UInt8 := mem.getD i 0

/-- `memcpy` or `read` to an offset: the bytes around the written ones stay as they are. -/
def overlay (mem : List UInt8) (offset : Nat) (bytes : List UInt8) : List UInt8 :=
  mem.take offset ++ bytes ++ mem.drop (offset + bytes.length)

def parseU16 (data : List UInt8) : Nat :=
  (byteAt data 0).toNat <<< 8 ||| (byteAt data 1).toNat

/-- The four-byte size that follows the data tag. -/
def parseU32 (data : List UInt8) : Nat :=
  (byteAt data 0).toNat <<< 24 ||| (byteAt data 1).toNat <<< 16 |||
    (byteAt data 2).toNat <<< 8 ||| (byteAt data 3).toNat

/-- An `unsigned int` in memory. -/
def loadWord (data : List UInt8) : BitVec 32 :=
  (byteAt data 3).toBitVec ++ (byteAt data 2).toBitVec ++ (byteAt data 1).toBitVec ++
    (byteAt data 0).toBitVec

def storeWord (x : BitVec 32) : List UInt8 :=
  [⟨x.extractLsb' 0 8⟩, ⟨x.extractLsb' 8 8⟩, ⟨x.extractLsb' 16 8⟩, ⟨x.extractLsb' 24 8⟩]

def flipBytes (x : BitVec 32) : BitVec 32 :=
  (x <<< 24) ||| ((x &&& 0xff00#32) <<< 8) ||| ((x &&& 0xff0000#32) >>> 8) |||
    ((x &&& 0xFF000000#32) >>> 24)

/-- The bytes that `swap_buffer_aligned` stores to its destination. -/
def swapBufferAligned (src : List UInt8) : Nat → List UInt8
  | 0 => []
  | size + 1 => storeWord (flipBytes (loadWord src)) ++ swapBufferAligned (src.drop 4) size

theorem byteAt_drop (mem : List UInt8) (i j : Nat) :
    byteAt (mem.drop i) j = byteAt mem (i + j) := by
  simp [byteAt]

theorem byteAt_append (xs ys : List UInt8) (i : Nat) :
    byteAt (xs ++ ys) i = if i < xs.length then byteAt xs i else byteAt ys (i - xs.length) := by
  unfold byteAt
  split_ifs with h
  · rw [List.getD_append _ _ _ _ h]
  · rw [List.getD_append_right _ _ _ _ (Nat.le_of_not_lt h)]

theorem byteAt_take {mem : List UInt8} {i n : Nat} (h : i < n) :
    byteAt (mem.take n) i = byteAt mem i := by
  simp [byteAt, h]

theorem byteAt_of_length_le {mem : List UInt8} {i : Nat} (h : mem.length ≤ i) :
    byteAt mem i = 0 := List.getD_eq_default _ _ h

theorem take_eq_iff (data text : List UInt8) :
    data.take text.length = text ↔
      text.length ≤ data.length ∧ ∀ i < text.length, byteAt data i = byteAt text i := by
  constructor
  · intro h
    have hlen : (data.take text.length).length = text.length := by rw [h]
    rw [List.length_take] at hlen
    refine ⟨by omega, ?_⟩
    intro i hi
    rw [← byteAt_take hi, h]
  · rintro ⟨hlen, hbytes⟩
    apply List.ext_getElem
    · rw [List.length_take]; omega
    · intro i _ hi
      have hbyte := hbytes i hi
      rw [byteAt, byteAt, List.getD_eq_getElem _ _ hi,
        List.getD_eq_getElem _ _ (by omega)] at hbyte
      rw [List.getElem_take, hbyte]

section Memory

variable {mem bytes : List UInt8} {offset : Nat}

theorem overlay_length (h : offset + bytes.length ≤ mem.length) :
    (overlay mem offset bytes).length = mem.length := by
  simp only [overlay, List.length_append, List.length_take, List.length_drop]
  omega

theorem overlay_zero : overlay mem 0 bytes = bytes ++ mem.drop bytes.length := by
  simp [overlay]

theorem take_overlay_zero : (overlay mem 0 bytes).take bytes.length = bytes := by
  rw [overlay_zero, List.take_left]

theorem take_overlay_of_length {n : Nat} (h : bytes.length = n) :
    (overlay mem 0 bytes).take n = bytes := by
  rw [← h, take_overlay_zero]

/-- Reading a whole chunk to the front of a memory that has room for it. -/
theorem overlay_chunk {content : List UInt8} {n : Nat} (hmem : n ≤ mem.length)
    (hcontent : n ≤ content.length) :
    (overlay mem 0 (content.take n)).take n = content.take n ∧
      (overlay mem 0 (content.take n)).length = mem.length := by
  have hlen : (content.take n).length = n := List.length_take_of_le hcontent
  exact ⟨take_overlay_of_length hlen, overlay_length (by omega)⟩

/-- Writing right behind known bytes extends them. -/
theorem take_overlay {known : List UInt8} (hknown : mem.take offset = known)
    (hlen : offset ≤ mem.length) :
    (overlay mem offset bytes).take (offset + bytes.length) = known ++ bytes := by
  have hlength : (mem.take offset ++ bytes).length = offset + bytes.length := by
    rw [List.length_append, List.length_take, Nat.min_eq_left hlen]
  rw [overlay, ← hlength, List.take_left, hknown]

end Memory

theorem parseU16_eq (data : List UInt8) :
    parseU16 data = (byteAt data 0).toNat * 256 + (byteAt data 1).toNat := by
  rw [parseU16, ← Nat.shiftLeft_add_eq_or_of_lt (byteAt data 1).toNat_lt, Nat.shiftLeft_eq]

theorem parseU16_lt (data : List UInt8) : parseU16 data < 65536 := by
  have h0 := (byteAt data 0).toNat_lt
  have h1 := (byteAt data 1).toNat_lt
  rw [parseU16_eq]
  omega

theorem parseU16_eq_iff (data : List UInt8) (high low : UInt8) :
    parseU16 data = high.toNat * 256 + low.toNat ↔ byteAt data 0 = high ∧ byteAt data 1 = low := by
  have hlow := low.toNat_lt
  have hbyte := (byteAt data 1).toNat_lt
  rw [parseU16_eq, ← UInt8.toNat_inj, ← UInt8.toNat_inj]
  omega

section Slices

variable {buffer content : List UInt8} {bytes : Nat}
  (hbuffer : buffer.take bytes = content.take bytes)
include hbuffer

theorem slice_congr {d n : Nat} (h : d + n ≤ bytes) :
    (buffer.drop d).take n = (content.drop d).take n := by
  have hprefix := congrArg (List.take (d + n)) hbuffer
  rw [List.take_take, List.take_take, Nat.min_eq_left h] at hprefix
  rw [List.take_drop, List.take_drop, hprefix]

theorem byteAt_congr {d : Nat} (h : d < bytes) : byteAt buffer d = byteAt content d := by
  rw [← byteAt_take h, hbuffer, byteAt_take h]

theorem parseU16_congr {d : Nat} (h : d + 1 < bytes) :
    parseU16 (buffer.drop d) = parseU16 (content.drop d) := by
  rw [parseU16_eq, parseU16_eq, byteAt_drop, byteAt_drop, byteAt_drop, byteAt_drop,
    byteAt_congr hbuffer (by omega), byteAt_congr hbuffer h]

end Slices

theorem parseU32_eq (data : List UInt8) :
    parseU32 data = parseU16 data * 65536 + parseU16 (data.drop 2) := by
  have hlow : parseU16 (data.drop 2) =
      (byteAt data 2).toNat <<< 8 ||| (byteAt data 3).toNat := by
    simp [parseU16, byteAt]
  have hhigh : (byteAt data 0).toNat <<< 24 ||| (byteAt data 1).toNat <<< 16 =
      parseU16 data <<< 16 := by
    rw [parseU16, Nat.shiftLeft_or_distrib, ← Nat.shiftLeft_add]
  have hlt : parseU16 (data.drop 2) < 2 ^ 16 := parseU16_lt _
  rw [parseU32, Nat.or_assoc, ← hlow, hhigh, ← Nat.shiftLeft_add_eq_or_of_lt hlt,
    Nat.shiftLeft_eq]

private theorem flipBytes_extract (x : BitVec 32) :
    (flipBytes x).extractLsb' 0 8 = x.extractLsb' 24 8 ∧
    (flipBytes x).extractLsb' 8 8 = x.extractLsb' 16 8 ∧
    (flipBytes x).extractLsb' 16 8 = x.extractLsb' 8 8 ∧
    (flipBytes x).extractLsb' 24 8 = x.extractLsb' 0 8 := by
  refine ⟨?_, ?_, ?_, ?_⟩ <;> ext i hi <;> interval_cases i <;> simp [flipBytes]

private theorem loadWord_extract (data : List UInt8) :
    (loadWord data).extractLsb' 0 8 = (byteAt data 0).toBitVec ∧
    (loadWord data).extractLsb' 8 8 = (byteAt data 1).toBitVec ∧
    (loadWord data).extractLsb' 16 8 = (byteAt data 2).toBitVec ∧
    (loadWord data).extractLsb' 24 8 = (byteAt data 3).toBitVec := by
  unfold loadWord
  refine ⟨?_, ?_, ?_, ?_⟩ <;> ext i hi <;>
    rw [BitVec.getElem_extractLsb', BitVec.getLsbD_eq_getElem (by omega)] <;> simp <;> grind

private theorem storeWord_flipBytes (a b c d : UInt8) (rest : List UInt8) :
    storeWord (flipBytes (loadWord (a :: b :: c :: d :: rest))) = [d, c, b, a] := by
  obtain ⟨h0, h1, h2, h3⟩ := loadWord_extract (a :: b :: c :: d :: rest)
  obtain ⟨hf0, hf1, hf2, hf3⟩ := flipBytes_extract (loadWord (a :: b :: c :: d :: rest))
  rw [storeWord, hf0, hf1, hf2, hf3, h0, h1, h2, h3]
  rfl

theorem loadWord_eq_ones (data : List UInt8) :
    loadWord data = 0xFFFFFFFF#32 ↔ data.take 4 = [255, 255, 255, 255] := by
  constructor
  · intro h
    obtain ⟨h0, h1, h2, h3⟩ := loadWord_extract data
    rw [h] at h0 h1 h2 h3
    have hb0 : byteAt data 0 = 255 := UInt8.toBitVec_inj.mp (h0.symm.trans (by decide))
    have hb1 : byteAt data 1 = 255 := UInt8.toBitVec_inj.mp (h1.symm.trans (by decide))
    have hb2 : byteAt data 2 = 255 := UInt8.toBitVec_inj.mp (h2.symm.trans (by decide))
    have hb3 : byteAt data 3 = 255 := UInt8.toBitVec_inj.mp (h3.symm.trans (by decide))
    match data with
    | a :: b :: c :: d :: rest => simp_all [byteAt]
    | [] | [_] | [_, _] | [_, _, _] => simp [byteAt] at hb3
  · intro h
    match data with
    | a :: b :: c :: d :: rest =>
      simp only [List.take_succ_cons, List.take_zero, List.cons.injEq, and_true] at h
      obtain ⟨rfl, rfl, rfl, rfl⟩ := h
      change loadWord [255, 255, 255, 255] = _
      decide
    | [] | [_] | [_, _] | [_, _, _] => simp at h

/-- The words of a length in bytes cover no more than it. -/
theorem four_mul_words_le (n : Nat) : 4 * (n >>> 2) ≤ n := by
  rw [Nat.shiftRight_eq_div_pow]
  exact Nat.mul_div_le n 4

theorem four_mul_words {n : Nat} (h4 : 4 ∣ n) : 4 * (n >>> 2) = n := by
  rw [Nat.shiftRight_eq_div_pow]
  exact Nat.mul_div_cancel' h4

theorem swapBufferAligned_length (src : List UInt8) (size : Nat) :
    (swapBufferAligned src size).length = 4 * size := by
  induction size generalizing src with
  | zero => rfl
  | succ size ih =>
    rw [swapBufferAligned, List.length_append, ih]
    simp only [storeWord, List.length_cons, List.length_nil]
    omega

theorem swapBufferAligned_eq {src : List UInt8} {size : Nat} (h : 4 * size ≤ src.length) :
    swapBufferAligned src size = blockwise 4 List.reverse (src.take (4 * size)) := by
  induction size generalizing src with
  | zero => rw [Nat.mul_zero, List.take_zero, blockwise_nil]; rfl
  | succ size ih =>
    match src, h with
    | a :: b :: c :: d :: rest, h =>
      have hrest : 4 * size ≤ rest.length := by simp only [List.length_cons] at h; omega
      rw [swapBufferAligned, storeWord_flipBytes, List.drop_succ_cons, List.drop_succ_cons,
        List.drop_succ_cons, List.drop_succ_cons, List.drop_zero, ih hrest]
      change _ = blockwise 4 List.reverse ([a, b, c, d] ++ rest.take (4 * size))
      have hblock : [a, b, c, d].length = 4 := rfl
      rw [blockwise_append (by decide) _ (hblock ▸ Nat.dvd_refl 4),
        blockwise_block (by decide) _ hblock]
      rfl

end Dyplo
