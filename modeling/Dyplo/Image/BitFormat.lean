import Dyplo.Image.PayloadStart

/-!
# Well-formed `.bit` headers

The two magic words with nine bytes between them, items of a tag, a length and a value, and the
data tag with the size of the payload. All numbers are big-endian.
-/

namespace Dyplo

def u16Bytes (n : Nat) : List UInt8 := [UInt8.ofNat (n / 256), UInt8.ofNat n]

def u32Bytes (n : Nat) : List UInt8 := u16Bytes (n / 65536) ++ u16Bytes n

structure BitItem where
  tag : UInt8
  value : List UInt8
  tag_ne : tag ≠ 101
  value_length : value.length < 65536

def BitItem.encode (item : BitItem) : List UInt8 :=
  item.tag :: (u16Bytes item.value.length ++ item.value)

structure BitHeader where
  preamble : List UInt8
  items : List BitItem
  size : Nat
  preamble_length : preamble.length = 9
  first_tag : items.head?.map BitItem.tag = some 97
  size_lt : size < 2 ^ 32

namespace BitHeader

def encodeItems (items : List BitItem) : List UInt8 := items.flatMap BitItem.encode

def encode (header : BitHeader) : List UInt8 :=
  0 :: 9 :: (header.preamble ++ (0 :: 1 :: (encodeItems header.items ++
    101 :: u32Bytes header.size)))

end BitHeader

private theorem parseU16_u16Bytes {n : Nat} (h : n < 65536) (rest : List UInt8) :
    parseU16 (u16Bytes n ++ rest) = n := by
  rw [parseU16_eq]
  change (UInt8.ofNat (n / 256)).toNat * 256 + (UInt8.ofNat n).toNat = n
  rw [UInt8.toNat_ofNat', UInt8.toNat_ofNat']
  omega

private theorem u16Bytes_mod (n : Nat) : u16Bytes (n % 65536) = u16Bytes n := by
  have hhigh : UInt8.ofNat (n % 65536 / 256) = UInt8.ofNat (n / 256) := by
    rw [← UInt8.toNat_inj, UInt8.toNat_ofNat', UInt8.toNat_ofNat']
    omega
  have hlow : UInt8.ofNat (n % 65536) = UInt8.ofNat n := by
    rw [← UInt8.toNat_inj, UInt8.toNat_ofNat', UInt8.toNat_ofNat']
    omega
  rw [u16Bytes, u16Bytes, hhigh, hlow]

private theorem parseU32_u32Bytes {n : Nat} (h : n < 2 ^ 32) (rest : List UInt8) :
    parseU32 (u32Bytes n ++ rest) = n := by
  have hlow : (u32Bytes n ++ rest).drop 2 = u16Bytes (n % 65536) ++ rest := by
    rw [u16Bytes_mod]
    rfl
  rw [parseU32_eq, hlow, parseU16_u16Bytes (by omega), u32Bytes, List.append_assoc,
    parseU16_u16Bytes (by omega)]
  omega

namespace BitItem

theorem encode_length (item : BitItem) : item.encode.length = 3 + item.value.length := by
  simp only [encode, u16Bytes, List.length_cons, List.length_append, List.length_nil]
  omega

theorem drop_encode {item : BitItem} {content rest : List UInt8} {data : Nat}
    (h : content.drop data = item.encode ++ rest) :
    content.drop (data + item.encode.length) = rest := by
  rw [← List.drop_drop, h, List.drop_left]

end BitItem

namespace BitHeader

theorem encodeItems_cons (item : BitItem) (items : List BitItem) :
    encodeItems (item :: items) = item.encode ++ encodeItems items := List.flatMap_cons

end BitHeader

section Scan

variable {buffer content rest : List UInt8} {bytes data : Nat}
  (hbuffer : buffer.take bytes = content.take bytes)
include hbuffer

theorem scanTags_dataTag (h : content.drop data = 101 :: rest) (hdata : data < bytes) :
    scanTags buffer bytes data = ([], some data) := by
  have htag : byteAt buffer data = 101 := by
    rw [byteAt_congr hbuffer hdata, ← Nat.add_zero data, ← byteAt_drop, h]
    rfl
  rw [scanTags, if_pos htag]

/-- An item is found if it ends inside of what has been read. -/
theorem scanTags_item {item : BitItem} (h : content.drop data = item.encode ++ rest)
    (hdata : data < bytes) :
    scanTags buffer bytes data =
      if data + item.encode.length < bytes then
        (⟨item.tag, item.value.length, data + 3⟩ ::
            (scanTags buffer bytes (data + item.encode.length)).1,
          (scanTags buffer bytes (data + item.encode.length)).2)
      else ([], none) := by
  have htag : byteAt buffer data = item.tag := by
    rw [byteAt_congr hbuffer hdata, ← Nat.add_zero data, ← byteAt_drop, h]
    rfl
  have hsize : data + 2 < bytes → parseU16 (buffer.drop (data + 1)) = item.value.length := by
    intro hlt
    rw [parseU16_congr hbuffer hlt, ← List.drop_drop, h]
    exact parseU16_u16Bytes item.value_length _
  have hnext : data + item.encode.length = data + 3 + item.value.length := by
    rw [item.encode_length]
    omega
  rw [scanTags, htag, if_neg item.tag_ne, hnext]
  by_cases hend : data + 3 + item.value.length < bytes
  · rw [if_neg (by omega), hsize (by omega), if_neg (by omega), if_pos hend]
  · -- one of the two checks in front of the value fails
    rw [if_neg hend]
    by_cases hshort : bytes ≤ data + 3
    · rw [if_pos (show bytes ≤ data + 3 + _ by omega), ite_self]
    · rw [hsize (by omega), if_neg (by omega), if_pos (by omega)]

private theorem scanTags_encodeItems {items : List BitItem}
    (h : content.drop data = BitHeader.encodeItems items ++ 101 :: rest) (hdata : data < bytes) :
    (scanTags buffer bytes data).2 =
      if data + (BitHeader.encodeItems items).length < bytes then
        some (data + (BitHeader.encodeItems items).length)
      else none := by
  induction items generalizing data with
  | nil =>
    rw [scanTags_dataTag hbuffer h hdata]
    exact (if_pos (show data + 0 < bytes from hdata)).symm
  | cons item items ih =>
    rw [BitHeader.encodeItems_cons, List.append_assoc] at h
    rw [scanTags_item hbuffer h hdata, BitHeader.encodeItems_cons, List.length_append,
      ← Nat.add_assoc]
    by_cases hend : data + item.encode.length < bytes
    · rw [if_pos hend]
      exact ih (BitItem.drop_encode h) hend
    · rw [if_neg hend, if_neg (by omega)]

end Scan

namespace BitHeader

variable (header : BitHeader) (tail : List UInt8)

theorem encode_length :
    header.encode.length = 18 + (encodeItems header.items).length := by
  have hpreamble := header.preamble_length
  simp only [encode, List.length_cons, List.length_append, u32Bytes, u16Bytes, List.length_nil]
  omega

theorem encode_drop : (header.encode ++ tail).drop 13 =
    encodeItems header.items ++ 101 :: (u32Bytes header.size ++ tail) := by
  have hfront : (0 :: 9 :: (header.preamble ++ [0, 1])).length = 13 := by
    simp [header.preamble_length]
  have hsplit : header.encode ++ tail = (0 :: 9 :: (header.preamble ++ [0, 1])) ++
      (encodeItems header.items ++ 101 :: (u32Bytes header.size ++ tail)) := by
    simp [encode]
  rw [hsplit]
  exact List.drop_left' hfront

theorem hasBitSignature : HasBitSignature (header.encode ++ tail) := by
  refine ⟨rfl, ?_⟩
  have hfront : (0 :: 9 :: header.preamble).length = 11 := by simp [header.preamble_length]
  have hsplit : header.encode ++ tail = (0 :: 9 :: header.preamble) ++
      (0 :: 1 :: (encodeItems header.items ++ 101 :: (u32Bytes header.size ++ tail))) := by
    simp [encode]
  rw [hsplit, List.drop_left' hfront]
  have hfirst := header.first_tag
  cases hitems : header.items with
  | nil => rw [hitems] at hfirst; cases hfirst
  | cons item items =>
    rw [hitems] at hfirst
    have htag : item.tag = 97 := Option.some.inj hfirst
    rw [encodeItems_cons, BitItem.encode, htag]
    rfl

private theorem firstBuffer_encode (hlen : header.encode.length ≤ alignSize) :
    ∃ zeros, firstBuffer (header.encode ++ tail) =
      header.encode ++ (tail.take (alignSize - header.encode.length) ++ zeros) := by
  rw [firstBuffer, overlay_zero, List.take_append, List.take_of_length_le hlen, List.append_assoc]
  exact ⟨_, rfl⟩

/-- The data tag of a header is found if it stands inside of the first read. -/
theorem bitData_encode :
    bitData (header.encode ++ tail) =
      if header.encode.length < firstRead (header.encode ++ tail) + 5 then
        some (header.encode.length - 5)
      else none := by
  have halign := alignSize_eq
  have hlength := header.encode_length
  have hfirst : firstRead (header.encode ++ tail) =
      min alignSize (header.encode.length + tail.length) := by rw [firstRead, List.length_append]
  have hoffset : 13 + (encodeItems header.items).length = header.encode.length - 5 := by omega
  have hscan := scanTags_encodeItems (take_firstRead _) (header.encode_drop tail)
    (show 13 < firstRead (header.encode ++ tail) by omega)
  rw [hoffset] at hscan
  exact hscan.trans (if_congr (by omega) rfl rfl)

theorem declaredSize_encode (hlen : header.encode.length ≤ alignSize) :
    declaredSize (header.encode ++ tail) (header.encode.length - 5) = header.size := by
  obtain ⟨zeros, hbuffer⟩ := header.firstBuffer_encode tail hlen
  have hlength := header.encode_length
  have hoffset : header.encode.length - 5 + 1 =
      13 + ((encodeItems header.items).length + 1) := by omega
  rw [declaredSize, hoffset, ← List.drop_drop, hbuffer, encode_drop, ← List.drop_drop,
    List.drop_left, List.drop_succ_cons, List.drop_zero]
  exact parseU32_u32Bytes header.size_lt _

end BitHeader

end Dyplo
