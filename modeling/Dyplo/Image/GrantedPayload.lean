import Dyplo.Image.BufferBounds
import Dyplo.Image.TagDecoding

/-!
# The payload under small grants

The first block is cut off where the grant ends, and what has been read behind that is lost.
-/

namespace Dyplo

/-- What a callback with room for `cap` bytes grants to the first transfer. -/
def firstGrant (cap size total : Nat) : Nat := min (firstRequest size total) cap

/-- A payload of which `total` bytes come with the first read. The first grant does not exceed
it, the second chunk fits the internal buffer, and where the file goes on behind what has been
read, there is what follows in the payload behind what has been granted. -/
structure PayloadFits (cap size total : Nat) (tail : List UInt8) : Prop where
  words : 4 ∣ size
  first : firstGrant cap size total ≤ size
  filled : total < size → alignSize ≤ tail.length
  chunks : cap ≤ bufferSize ∨ size ≤ alignSize + bufferSize
  resumed : (tail.drop (firstBytes size total)).take (size - firstGrant cap size total) =
    (tail.drop (firstGrant cap size total)).take (size - firstGrant cap size total)

section Payload

variable {tail : List UInt8} {cap size total : Nat}

/-- What is left of a payload if the bytes between those that have been granted and those that
have been read are lost. -/
def resumed (tail : List UInt8) (granted read : Nat) : List UInt8 :=
  tail.take granted ++ tail.drop read

private theorem take_resumed {granted read : Nat} (hlen : granted ≤ tail.length)
    (hsize : granted ≤ size) :
    (resumed tail granted read).take size = tail.take size ↔
      (tail.drop read).take (size - granted) = (tail.drop granted).take (size - granted) := by
  have htake : (tail.take granted).length = granted := List.length_take_of_le hlen
  have hsplit :
      tail.take size = tail.take granted ++ (tail.drop granted).take (size - granted) := by
    rw [← List.take_add, Nat.add_sub_cancel' hsize]
  rw [resumed, List.take_append, htake, List.take_of_length_le (by omega), hsplit,
    List.append_cancel_left_eq]

/-- The reader gets to the end of such a payload. -/
structure PayloadReadable (cap size total : Nat) (tail : List UInt8) : Prop where
  filled : total < size → alignSize ≤ tail.length
  chunks : cap ≤ bufferSize ∨ size ≤ firstGrant cap size total + bufferSize
  length : size ≤ (resumed tail (firstGrant cap size total) (firstBytes size total)).length

theorem payloadFits_iff (htotal : total < alignSize) (hsize : size ≤ tail.length) :
    PayloadFits cap size total tail ↔
      4 ∣ size ∧ firstGrant cap size total ≤ size ∧ PayloadReadable cap size total tail ∧
        (resumed tail (firstGrant cap size total) (firstBytes size total)).take size =
          tail.take size := by
  have hchunks : cap ≤ bufferSize ∨ size ≤ firstGrant cap size total + bufferSize ↔
      cap ≤ bufferSize ∨ size ≤ alignSize + bufferSize := by
    have halign := alignSize_eq
    have hbuffer := bufferSize_eq
    rw [firstGrant, firstRequest]
    split_ifs <;> omega
  constructor
  · intro h
    have htake := (take_resumed (Nat.le_trans h.first hsize) h.first).mpr h.resumed
    refine ⟨h.words, h.first, ⟨h.filled, hchunks.mpr h.chunks, ?_⟩, htake⟩
    have hlength := congrArg List.length htake
    rw [List.length_take, List.length_take] at hlength
    omega
  · rintro ⟨hwords, hfirst, hread, htake⟩
    exact ⟨hwords, hfirst, hread.filled, hchunks.mp hread.chunks,
      (take_resumed (Nat.le_trans hfirst hsize) hfirst).mp htake⟩

namespace FpgaImageReader

variable {κ : Type} {callback : FpgaImageReaderCallback κ} {known : Nat → Prop}
  {ready : List Delivery → κ → Prop} {granted : List Delivery → Nat → κ → Prop}
  {s : ReaderState κ} {fuel : Nat}

/-- The payload of whole words, behind a first grant that does not exceed it. -/
theorem processData_spec
    (h : callback.Accepts (fun n g => g = min n cap) known ready granted fun _ => False)
    (hcap : 4 ∣ cap) (hmin : 0 < cap) (hwords : 4 ∣ size) (hsize : size < 2 ^ 32)
    (hfirst : firstGrant cap size total ≤ size) (hfuel : size ≤ fuel)
    (hs : ready (deliveries s.trace) s.callback) (hahead : ReadAhead tail total s)
    (hdelivered : delivered s.trace = []) :
    wp (processData callback fuel size total)
      (fun _ t => PayloadReadable cap size total tail ∧ delivered t.trace =
        swapped ((resumed tail (firstGrant cap size total) (firstBytes size total)).take size))
      (fun _ _ => ¬ PayloadReadable cap size total tail) s := by
  have halign := alignSize_eq
  have htail := hahead.le
  have hgrant4 : 4 ∣ firstGrant cap size total := by
    rw [firstGrant, firstRequest, Nat.min_def]
    split_ifs
    · exact hwords
    · exact hcap
    · decide
    · exact hcap
  have hgrants : ∀ g, g = min (firstRequest size total) cap →
      4 ∣ g ∧ g ≤ firstRequest size total := by
    rintro g rfl
    exact ⟨hgrant4, Nat.min_le_left _ _⟩
  rw [processData, wp_bind]
  refine (firstBlock_grant h hgrants hs hahead).mono ?_ ?_
  · rintro g u ⟨hg, hfilled, hcontent, hready, hlen', hdelivered'⟩
    obtain rfl : g = firstGrant cap size total := hg
    simp only [wp_bind, wp_pure]
    by_cases hchunks : cap ≤ bufferSize ∨ size ≤ firstGrant cap size total + bufferSize
    · have hgranted : firstGrant cap size total ≤ tail.length := by
        have hle : firstGrant cap size total ≤ firstRequest size total := Nat.min_le_left _ _
        rw [firstRequest] at hle
        split_ifs at hle with hsmall
        · omega
        · have := hfilled (Nat.lt_of_not_le hsmall)
          omega
      have htake : (tail.take (firstGrant cap size total)).length = firstGrant cap size total :=
        List.length_take_of_le hgranted
      have hrest : firstGrant cap size total < size → u.file.content =
          (resumed tail (firstGrant cap size total) (firstBytes size total)).drop
            (firstGrant cap size total) := by
        intro _
        rw [hcontent, resumed, List.drop_left' htake]
      have hout : delivered u.trace =
          swapped ((resumed tail (firstGrant cap size total) (firstBytes size total)).take
            (firstGrant cap size total)) := by
        rw [hdelivered', hdelivered, resumed, List.take_left' htake, List.nil_append]
      refine (payloadLoop_spec hcap hmin h hwords hsize fuel (by omega) hchunks hfirst hgrant4
        ?_ hready hlen' hrest hout).mono ?_ ?_
      · rw [resumed, List.length_append, htake]
        omega
      · rintro _ t ⟨hle, hall⟩
        exact ⟨⟨hfilled, hchunks, hle⟩, hall⟩
      · rintro _ _ ⟨-, hshort, -⟩ hread
        exact absurd hread.length (Nat.not_le.mpr hshort)
    · -- the second chunk does not fit the internal buffer
      obtain ⟨fuel, rfl⟩ : ∃ n, fuel = n + 1 := ⟨fuel - 1, by omega⟩
      refine (payloadLoop_overruns h (by omega) (by omega) fuel hready hlen').mono
        (fun _ _ hf => hf.elim) ?_
      intro _ _ _ hread
      exact hchunks hread.chunks
  · rintro _ _ ⟨-, hmore, hshort, -⟩ hread
    exact absurd (hread.filled hmore) (Nat.not_le.mpr hshort)

private theorem swapped_injective {xs ys : List UInt8} (h4 : 4 ∣ xs.length)
    (hlen : xs.length = ys.length)
    (h : swapped xs = swapped ys) : xs = ys :=
  blockwise_injective (by decide) reverse_block_length List.reverse_injective h4 hlen h

end FpgaImageReader

end Payload

/-- A callback with `cap` bytes of memory that takes everything. -/
def boundedCallback (cap : Nat) : FpgaImageReaderCallback Unit where
  beginProcessData bytesRemaining := return (List.replicate cap 0, min bytesRemaining cap)
  endProcessData _ lengthBytes := return lengthBytes
  verifyStaticID _ := return

namespace FpgaImageReader

section Bounded

variable {cap size total : Nat} {tail : List UInt8} {s : ReaderState Unit}

theorem boundedCallback_begin (n : Nat) (k : Unit) :
    (boundedCallback cap).beginProcessData n k = .ok (List.replicate cap 0, min n cap) k := rfl

private theorem boundedCallback_end (data : List UInt8) (n : Nat) (k : Unit) :
    (boundedCallback cap).endProcessData data n k = .ok n k := rfl

private theorem boundedCallback_verify (id : Nat) (k : Unit) :
    (boundedCallback cap).verifyStaticID id k = .ok () k := rfl

theorem boundedCallback_acceptsAll :
    (boundedCallback cap).AcceptsAll (fun n g => g = min n cap) (fun _ => True) where
  beginProcessData n k _ := (wp_of_ok (boundedCallback_begin n k)).mpr ⟨rfl, trivial⟩
  endProcessData data n k _ := (wp_of_ok (boundedCallback_end data n k)).mpr ⟨rfl, trivial⟩
  verifyStaticID id k _ := (wp_of_ok (boundedCallback_verify id k)).mpr trivial

private theorem transfer_length {n : Nat} (hn : n ≤ s.cbBuffer.length)
    {Q : Nat → ReaderState Unit → Prop}
    (hQ : ∀ t, (delivered t.trace).length = (delivered s.trace).length + n → Q n t) :
    wp (swapBuffer (n >>> 2)) (fun _ t => wp (endProcessData (boundedCallback cap) n) Q
      (fun _ _ => True) t) (fun _ _ => True) s := by
  have hwords := four_mul_words_le n
  have hlength := swapBufferAligned_length s.buffer (n >>> 2)
  have hkeep : (overlay s.cbBuffer 0 (swapBufferAligned s.buffer (n >>> 2))).length =
      s.cbBuffer.length := overlay_length (by omega)
  rw [wp_swapBuffer]
  by_cases hshort : s.buffer.length < 4 * (n >>> 2)
  · rw [if_pos hshort]
    trivial
  · rw [if_neg hshort, wp_endProcessData, wp_of_ok (boundedCallback_end _ _ _)]
    refine hQ _ ?_
    rw [delivered_emit, delivered_emit]
    simp [Delivery.bytes, hkeep, Nat.min_eq_left hn]

private theorem firstBlock_length (hahead : ReadAhead tail total s) :
    wp (firstBlock (boundedCallback cap) size total)
      (fun g t => g = firstGrant cap size total ∧
        (delivered t.trace).length = (delivered s.trace).length + g) (fun _ _ => True) s := by
  have halign := alignSize_eq
  have hsmall := firstRequest_le size (Nat.le_of_lt hahead.lt)
  rw [firstBlock, wp_bind]
  refine (alignFirst_spec hahead).mono ?_ fun _ _ _ => trivial
  rintro n t ⟨rfl, -, -, -, -, -, hds⟩
  have hle : firstGrant cap size total ≤ firstRequest size total := Nat.min_le_left _ _
  have hcap : firstGrant cap size total ≤ cap := Nat.min_le_right _ _
  have hword : firstGrant cap size total % 2 ^ 32 = firstGrant cap size total :=
    Nat.mod_eq_of_lt (by omega)
  have hbegin : (boundedCallback cap).beginProcessData (firstRequest size total) t.callback =
      .ok (List.replicate cap 0, firstGrant cap size total) t.callback := rfl
  rw [wp_bind, wp_beginProcessData, wp_of_ok hbegin]
  simp only [hword, wp_bind]
  refine transfer_length ?_ ?_
  · rw [List.length_replicate]
    exact hcap
  · intro u hu
    rw [wp_ite, if_neg (Nat.lt_irrefl _), wp_pure]
    refine ⟨rfl, ?_⟩
    rw [hu, delivered_emit, delivered_congr hds]
    simp

private theorem payloadLoop_length (hsize : size < 2 ^ 32) (fuel total : Nat)
    (s : ReaderState Unit) :
    wp (payloadLoop (boundedCallback cap) size fuel total)
      (fun _ t => (delivered t.trace).length = (delivered s.trace).length + (size - total))
      (fun _ _ => True) s := by
  induction fuel generalizing total s with
  | zero =>
    rw [payloadLoop, wp_ite, wp_pure]
    by_cases hmore : total < size
    · rw [if_pos hmore, wp_throw]
      trivial
    · rw [if_neg hmore]
      omega
  | succ fuel ih =>
    rw [payloadLoop, wp_ite, wp_pure]
    by_cases hmore : total < size
    · obtain ⟨n, hn⟩ : ∃ n, n = min (size - total) cap := ⟨_, rfl⟩
      have hbegin : (boundedCallback cap).beginProcessData (size - total) s.callback =
          .ok (List.replicate cap 0, n) s.callback := hn ▸ rfl
      have hread := s.file.readAll_length n
      rw [if_pos hmore, wp_bind, wp_beginProcessData, wp_of_ok hbegin, wp_bind, wp_readBuffer]
      by_cases hfits : s.buffer.length < 0 + (s.file.readAll n).1.length
      · rw [if_pos hfits]
        trivial
      · rw [if_neg hfits, wp_ite]
        by_cases hshort : (s.file.readAll n).1.length < n
        · rw [if_pos hshort, wp_throw]
          trivial
        · have hall : (s.file.readAll n).1.length = n := by omega
          rw [if_neg hshort]
          simp only [hall, wp_bind]
          refine transfer_length ?_ ?_
          · rw [List.length_replicate]
            omega
          · intro u hu
            have hnext : (total + n) % 2 ^ 32 = total + n := Nat.mod_eq_of_lt (by omega)
            rw [wp_ite, if_neg (Nat.lt_irrefl n), hnext]
            refine (ih (total + n) u).mono ?_ fun _ _ he => he
            intro _ t ht
            rw [delivered_emit, delivered_emit] at hu
            simp only [ImageEvent.delivery, Option.toList_none, List.flatMap_nil,
              List.append_nil] at hu
            omega
    · rw [if_neg hmore]
      omega

/-- Only a payload that fits arrives as it is. -/
theorem processData_bounded (hcap : 4 ∣ cap) (hmin : 0 < cap) (hsize : size < 2 ^ 32)
    {fuel : Nat} (hfuel : size ≤ fuel) (hahead : ReadAhead tail total s)
    (hfits : size ≤ tail.length) (hdelivered : delivered s.trace = []) :
    wp (processData (boundedCallback cap) fuel size total)
      (fun _ t => delivered t.trace = swapped (tail.take size) → PayloadFits cap size total tail)
      (fun _ _ => True) s := by
  by_cases hwhole : 4 ∣ size ∧ firstGrant cap size total ≤ size
  · obtain ⟨hwords, hfirst⟩ := hwhole
    refine (processData_spec boundedCallback_acceptsAll.accepts hcap hmin hwords hsize hfirst hfuel
      trivial hahead hdelivered).mono ?_ fun _ _ _ => trivial
    rintro _ t ⟨hread, hall⟩ himage
    have hleft := List.length_take_of_le hread.length
    have hright := List.length_take_of_le hfits
    rw [hall] at himage
    have hsame := swapped_injective (by rw [hleft]; exact hwords) (hleft.trans hright.symm) himage
    exact (payloadFits_iff hahead.lt hfits).mpr ⟨hwords, hfirst, hread, hsame⟩
  · -- more bytes arrive than there are complete words
    rw [processData, wp_bind]
    refine (firstBlock_length hahead).mono ?_ fun _ _ he => he
    rintro _ t ⟨rfl, hgranted⟩
    simp only [wp_bind, wp_pure]
    refine (payloadLoop_length hsize fuel _ t).mono ?_ fun _ _ he => he
    intro _ u hu himage
    have hwords : (swapped (tail.take size)).length = (tail.take size).length / 4 * 4 :=
      blockwise_length_eq reverse_block_length _
    rw [himage, hgranted, hdelivered, List.length_nil] at hu
    rw [List.length_take_of_le hfits] at hwords
    omega

end Bounded

end FpgaImageReader

end Dyplo
