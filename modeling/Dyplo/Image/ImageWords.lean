import Dyplo.Image.Payload
import Dyplo.Image.Raw

/-!
# The words of an image

A raw image is its own words. Those of a `.bit` image are its payload with the bytes of every word
reversed. Either way the callback gets them in order, in chunks of which only the last can be no
multiple of 64 bits.
-/

namespace Dyplo

open FpgaImageReader

/-- A file that the reader takes with grants of up to `cap` bytes, and the words it stands for. The
static IDs that it asks for are `known`. -/
inductive ImageFile (known : Nat → Prop) (cap : Nat) : List UInt8 → List UInt8 → Prop
  | raw {content : List UInt8} (length : 64 ≤ content.length) (words : 4 ∣ content.length)
      (signature : ¬ HasBitSignature content)
      (format : StartsBin content ∨ StartsPartial content ∧ known (partialId content)) :
      ImageFile known cap content content
  /-- The payload is all in the first read, or fills the first transfer. -/
  | bit (header : BitHeader) (payload trailing : List UInt8)
      (hheader : header.encode.length < alignSize) (hpayload : payload.length = header.size)
      (hpos : 0 < header.size) (words : 4 ∣ header.size)
      (hlength : 64 ≤ (header.encode ++ (payload ++ trailing)).length)
      (hknown : ∀ item ∈ bitItems (header.encode ++ (payload ++ trailing)), ∀ id,
        item.staticID (firstBuffer (header.encode ++ (payload ++ trailing))) = some id → known id)
      (hsize : header.encode.length + header.size ≤ alignSize ∨ alignSize ≤ header.size ∧
        (cap ≤ bufferSize ∨ header.size ≤ alignSize + bufferSize)) :
      ImageFile known cap (header.encode ++ (payload ++ trailing)) (swapped payload)

theorem ImageFile.words_dvd {known : Nat → Prop} {cap : Nat} {content words : List UInt8}
    (h : ImageFile known cap content words) : 4 ∣ words.length := by
  cases h with
  | raw _ h4 => exact h4
  | bit header payload trailing _ hpayload _ h4 =>
    rw [swapped_length (hpayload.symm ▸ h4), hpayload]
    exact h4

theorem ImageFile.bounded {known : Nat → Prop} {cap : Nat} {content words : List UInt8}
    (h : ImageFile known cap content words) : ImageFile known bufferSize content words := by
  cases h with
  | raw length h4 signature format => exact .raw length h4 signature format
  | bit header payload trailing hheader hpayload hpos h4 hlength hknown hsize =>
    exact .bit header payload trailing hheader hpayload hpos h4 hlength hknown
      (hsize.imp_right fun h => ⟨h.1, .inl (Nat.le_refl _)⟩)

private theorem RawChunks.single {content : List UInt8} (hcontent : content ≠ [])
    (hshort : content.length ≤ bufferSize) : RawChunks content [content] where
  flatten := List.flatten_singleton
  nonempty _ hc := List.mem_singleton.mp hc ▸ hcontent
  short _ hc := List.mem_singleton.mp hc ▸ hshort
  aligned := by simp

/-- A chunk of a payload in front of the chunks of the rest. Only the last one ends anywhere. -/
theorem RawChunks.swap {payload : List UInt8} {chunks : List (List UInt8)} {n : Nat}
    (h : RawChunks (swapped (payload.drop n)) chunks) (hle : n ≤ payload.length) (hpos : 0 < n)
    (hshort : n ≤ bufferSize) (h4 : 4 ∣ n) (h8 : 8 ∣ n ∨ n = payload.length) :
    RawChunks (swapped payload) (swapped (payload.take n) :: chunks) := by
  have hlength : (payload.take n).length = n := List.length_take_of_le hle
  have hchunk : (swapped (payload.take n)).length = n :=
    (swapped_length (hlength.symm ▸ h4)).trans hlength
  have hne : swapped (payload.take n) ≠ [] := List.ne_nil_of_length_pos (hchunk.symm ▸ hpos)
  have hsplit : swapped payload = swapped (payload.take n) ++ swapped (payload.drop n) := by
    rw [← blockwise_append (by decide) _ (hlength.symm ▸ h4), List.take_append_drop]
  rcases h8 with h8 | hlast
  · have hdrop : (swapped payload).drop n = swapped (payload.drop n) := by
      rw [hsplit]
      exact List.drop_left' hchunk
    have htake : (swapped payload).take n = swapped (payload.take n) := by
      rw [hsplit]
      exact List.take_left' hchunk
    rw [← hdrop] at h
    rw [← htake]
    refine h.block ?_ hpos hshort h8
    rw [hsplit]
    exact List.append_ne_nil_of_left_ne_nil hne _
  · have hnil : swapped (payload.drop n) = [] := by
      rw [hlast, List.drop_length]
      exact blockwise_nil ..
    rw [hnil] at h
    rw [h.eq_nil, hsplit, hnil, List.append_nil]
    exact .single hne (hchunk.trans_le hshort)

namespace FpgaImageReader

variable {κ : Type} {callback : FpgaImageReaderCallback κ} {known : Nat → Prop}
  {ready : List Delivery → κ → Prop} {granted : List Delivery → Nat → κ → Prop}
  {fails : Stop → Prop} {grants : Nat → Nat → Prop} {cap : Nat} {s : ReaderState κ}
  {tail : List UInt8} {size total : Nat}

private theorem swap_delivery (h : callback.Accepts grants known ready granted fails) {n : Nat}
    {payload : List UInt8} (h4 : 4 ∣ n) (hlen : s.buffer.length = bufferSize) (hn : n ≤ bufferSize)
    (hbuffer : s.buffer.take n = payload) (hs : granted (deliveries s.trace) n s.callback)
    {Q : Nat → ReaderState κ → Prop}
    (hQ : ∀ t, ready (deliveries t.trace) t.callback →
      deliveries t.trace = deliveries s.trace ++ [.data (swapped payload)] → t.file = s.file →
      t.buffer = s.buffer → Q n t) :
    wp (swapBuffer (n >>> 2)) (fun _ t => wp (endProcessData callback n) Q (fun e _ => fails e) t)
      (fun e _ => fails e) s := by
  have hwords := four_mul_words h4
  have hpayload : payload.length = n := by rw [← hbuffer, List.length_take_of_le (by omega)]
  have hlength : (swapped payload).length = n := (swapped_length (hpayload ▸ h4)).trans hpayload
  refine (swapBuffer_spec (by omega)).mono ?_ fun _ _ hf => hf
  rintro _ t ⟨hswap, hfile, hbuffer', hcallback, hds⟩
  rw [hwords, hbuffer] at hswap
  rw [← hcallback, ← hds] at hs
  have hfull : n ≤ t.cbBuffer.length := by
    have htake := congrArg List.length hswap
    rw [List.length_take, hlength] at htake
    omega
  refine (endProcessData_spec h hs (Nat.le_refl n) hfull).mono ?_ fun _ _ hf => hf
  rintro m u ⟨rfl, hready, hds', hfile', hbuffer''⟩
  refine hQ u hready ?_ (hfile'.trans hfile) (hbuffer''.trans hbuffer')
  rw [hds', hds, hswap]

theorem tagLoop_accepts (h : callback.Accepts grants known ready granted fails)
    {bytes data found : Nat} (hfound : (scanTags s.buffer bytes data).2 = some found)
    (hknown : ∀ item ∈ (scanTags s.buffer bytes data).1, ∀ id,
      item.staticID s.buffer = some id → known id)
    (hs : ready (deliveries s.trace) s.callback) :
    wp (tagLoop callback bytes data)
      (fun d t => d = found ∧ ready (deliveries t.trace) t.callback ∧
        chunks (deliveries t.trace) = chunks (deliveries s.trace) ∧
        t.file = s.file ∧ t.buffer = s.buffer)
      (fun e _ => fails e) s := by
  rw [wp_tagLoop bytes data rfl, hfound]
  refine (wp_forM (I := fun t => ready (deliveries t.trace) t.callback ∧
    chunks (deliveries t.trace) = chunks (deliveries s.trace) ∧
    t.file = s.file ∧ t.buffer = s.buffer) ?_ ⟨hs, rfl, rfl, rfl⟩).mono ?_ fun _ _ he => he
  · rintro item hitem t ⟨hready, hchunks, hfile, hbuffer⟩
    have hds : deliveries (t.trace ++
        [.processTag item.tag ((s.buffer.drop item.value).take item.size)]) =
          deliveries t.trace := by simp
    rw [wp_processItem]
    cases hid : item.staticID s.buffer with
    | none => exact ⟨hds.symm ▸ hready, hds.symm ▸ hchunks, hfile, hbuffer⟩
    | some id =>
      refine (verifyStaticID_spec h (hds.symm ▸ hready) (hknown item hitem id hid)).mono ?_
        fun _ _ he => he
      rintro _ u ⟨hready', hds', hfile', hbuffer'⟩
      refine ⟨hready', ?_, hfile'.trans hfile, hbuffer'.trans hbuffer⟩
      rw [hds', hds, chunks_append, hchunks]
      exact List.append_nil _
  · rintro _ t ht
    exact ⟨rfl, ht⟩

variable (h : callback.Accepts (fun n g => g = min n cap) known ready granted fails)
include h

theorem firstBlock_chunk (hcap : alignSize ≤ cap) (h4 : size ≤ total → 4 ∣ size)
    (hlong : total < size → alignSize ≤ tail.length)
    (hs : ready (deliveries s.trace) s.callback) (hahead : ReadAhead tail total s) :
    wp (firstBlock callback size total)
      (fun n t => n = firstRequest size total ∧
        t.file.content = tail.drop (firstBytes size total) ∧
        ready (deliveries t.trace) t.callback ∧ t.buffer.length = bufferSize ∧
        deliveries t.trace = deliveries s.trace ++ [.data (swapped (tail.take n))])
      (fun e _ => fails e) s := by
  have halign := alignSize_eq
  have hsize := bufferSize_eq
  have hsmall := firstRequest_le size (Nat.le_of_lt hahead.lt)
  have hwords : 4 ∣ firstRequest size total := by
    rw [firstRequest]
    split_ifs with hle
    · exact h4 hle
    · decide
  rw [firstBlock, wp_bind]
  refine (alignFirst_spec hahead).mono ?_ ?_
  · rintro n s₁ ⟨rfl, -, hfile₁, hbuffer₁, hlen₁, hcallback₁, hds₁⟩
    rw [← hcallback₁, ← hds₁] at hs
    rw [wp_bind]
    refine (beginProcessData_spec h _ hs).mono ?_ fun _ _ hf => hf
    rintro g s₂ ⟨hgrant, hgranted, hds₂, hfile₂, hbuffer₂⟩
    obtain rfl : g = firstRequest size total := by omega
    have hword : firstRequest size total % 2 ^ 32 = firstRequest size total :=
      Nat.mod_eq_of_lt (by omega)
    simp only [hword, wp_bind]
    refine swap_delivery h hwords (by rw [hbuffer₂, hlen₁]) (by omega)
      (by rw [hbuffer₂, hbuffer₁]) hgranted ?_
    intro t hready hds₃ hfile₃ hbuffer₃
    rw [wp_ite, if_neg (Nat.lt_irrefl _), wp_pure, hfile₃, hfile₂, hbuffer₃, hbuffer₂]
    refine ⟨rfl, hfile₁, hready, hlen₁, ?_⟩
    rw [hds₃, hds₂, hds₁]
  · rintro _ _ ⟨-, hmore, hshort, -⟩
    exact absurd (hlong hmore) (Nat.not_le.mpr hshort)

theorem payloadLoop_chunks (h8 : 8 ∣ cap) (hmin : 0 < cap) (h4 : 4 ∣ size) (hsize : size < 2 ^ 32)
    (hlong : size ≤ tail.length) (fuel : Nat) {total : Nat} {s : ReaderState κ}
    (hfuel : size ≤ total + fuel) (hmax : cap ≤ bufferSize ∨ size ≤ total + bufferSize)
    (htotal : total ≤ size) (hwords : 4 ∣ total)
    (hs : ready (deliveries s.trace) s.callback) (hlen : s.buffer.length = bufferSize)
    (hfile : total < size → s.file.content = tail.drop total) :
    wp (payloadLoop callback size fuel total)
      (fun _ t => ready (deliveries t.trace) t.callback ∧ ∃ cs,
        RawChunks (swapped ((tail.drop total).take (size - total))) cs ∧
        deliveries t.trace = deliveries s.trace ++ cs.map .data)
      (fun e _ => fails e) s := by
  have hdone : ∀ {fuel} {s : ReaderState κ}, ready (deliveries s.trace) s.callback →
      wp (payloadLoop callback size fuel size)
        (fun _ t => ready (deliveries t.trace) t.callback ∧ ∃ cs,
          RawChunks (swapped ((tail.drop size).take (size - size))) cs ∧
          deliveries t.trace = deliveries s.trace ++ cs.map .data)
        (fun e _ => fails e) s := by
    intro fuel s hs
    rw [wp_payloadLoop_done (Nat.le_refl size)]
    refine ⟨hs, [], ?_, (List.append_nil _).symm⟩
    rw [Nat.sub_self, List.take_zero]
    exact .nil
  induction fuel generalizing total s with
  | zero =>
    obtain rfl : total = size := by omega
    exact hdone hs
  | succ fuel ih =>
    rcases Nat.eq_or_lt_of_le htotal with rfl | hmore
    · exact hdone hs
    · have hcontent := hfile hmore
      have hrest : ((tail.drop total).take (size - total)).length = size - total :=
        List.length_take_of_le (by rw [List.length_drop]; omega)
      rw [payloadLoop, wp_ite, if_pos hmore, wp_bind]
      refine (beginProcessData_spec h _ hs).mono ?_ fun _ _ hf => hf
      rintro g s₁ ⟨hg, hgranted, hds₁, hfile₁, hbuffer₁⟩
      have hg4 : 4 ∣ g := by omega
      have hfits : 0 + g ≤ s₁.buffer.length := by rw [hbuffer₁, hlen]; omega
      rw [wp_bind]
      refine (readBuffer_spec hfits).mono ?_ fun _ _ hf => hf
      rintro n s₂ ⟨hn, hfile₂, hbuffer₂, hcallback₂, -, hds₂⟩
      rw [hfile₁, hcontent, List.length_drop] at hn
      obtain rfl : n = g := by omega
      rw [wp_ite, if_neg (Nat.lt_irrefl n)]
      rw [← hcallback₂, ← hds₂] at hgranted
      rw [hfile₁, hcontent] at hbuffer₂
      have hchunk := overlay_chunk (show n ≤ s₁.buffer.length by omega)
        (show n ≤ (tail.drop total).length by rw [List.length_drop]; omega)
      rw [← hbuffer₂, hbuffer₁, hlen] at hchunk
      obtain ⟨hblock, hlen₂⟩ := hchunk
      simp only [wp_bind]
      refine swap_delivery h hg4 hlen₂ (by omega) hblock hgranted ?_
      intro s₃ hready₃ hds₃ hfile₃ hbuffer₃
      have hnext : (total + n) % 2 ^ 32 = total + n := Nat.mod_eq_of_lt (by omega)
      rw [wp_ite, if_neg (Nat.lt_irrefl n), hnext]
      refine (ih (by omega) (by omega) (by omega) (Nat.dvd_add hwords hg4) hready₃
        (by rw [hbuffer₃, hlen₂]) ?_).mono ?_ fun _ _ hf => hf
      · intro _
        rw [hfile₃, hfile₂, hfile₁, hcontent, List.drop_drop]
      · rintro _ t ⟨hready, cs, hcs, hds⟩
        have hdrop : ((tail.drop total).take (size - total)).drop n =
            (tail.drop (total + n)).take (size - (total + n)) := by
          rw [List.drop_take, List.drop_drop]
          congr 1
          omega
        have htake : ((tail.drop total).take (size - total)).take n = (tail.drop total).take n := by
          rw [List.take_take, Nat.min_eq_left (by omega)]
        rw [← hdrop] at hcs
        refine ⟨hready, _, hcs.swap (by omega) (by omega) (by omega) hg4 (by omega), ?_⟩
        rw [hds, hds₃, hds₂, hds₁, htake, List.append_assoc]
        rfl

/-- The payload behind a header that ends inside the first read. -/
theorem processBit_chunks {header : BitHeader} (hheader : header.encode.length < alignSize)
    {tail : List UInt8} (htail : tail ≠ [])
    (hknown : ∀ item ∈ bitItems (header.encode ++ tail), ∀ id,
      item.staticID (firstBuffer (header.encode ++ tail)) = some id → known id) {fuel : Nat} {k : κ}
    (hk : ready [] k) {Q : Nat → ReaderState κ → Prop}
    (hQ : ∀ t total, total = min (alignSize - header.encode.length) tail.length →
      ready (deliveries t.trace) t.callback → chunks (deliveries t.trace) = [] →
      ReadAhead tail total t →
      wp (processData callback fuel header.size total) Q (fun e _ => fails e) t) :
    wp (processBit callback fuel (firstRead (header.encode ++ tail))) Q (fun e _ => fails e)
      (headerState ⟨⟨header.encode ++ tail⟩, k, [], [], []⟩) := by
  have hlength := header.encode_length
  have hpos := List.length_pos_iff.mpr htail
  have hcontent : (header.encode ++ tail).length = header.encode.length + tail.length :=
    List.length_append
  have hfirst : firstRead (header.encode ++ tail) = min alignSize (header.encode ++ tail).length :=
    rfl
  have hpayload : header.encode.length - 5 + 5 = header.encode.length := by omega
  have hscan : bitData (header.encode ++ tail) = some (header.encode.length - 5) := by
    rw [header.bitData_encode, if_pos (by omega)]
  rw [processBit, wp_bind]
  refine (tagLoop_accepts (s := headerState ⟨⟨header.encode ++ tail⟩, k, [], [], []⟩) h hscan
    hknown hk).mono ?_ fun _ _ hf => hf
  rintro data t ⟨rfl, hready, hchunks, hfile, hbuffer⟩
  have hin : header.encode.length - 5 + 5 < firstRead (header.encode ++ tail) := by omega
  have hrest : t.file.content = (header.encode ++ tail).drop alignSize := by rw [hfile]; rfl
  rw [wp_of_eq (processPayload_eq hin hbuffer fuel), hpayload,
    header.declaredSize_encode tail (Nat.le_of_lt hheader)]
  have hahead := readAhead_payloadBuffer
    (s := { t with buffer := payloadBuffer (header.encode ++ tail) (header.encode.length - 5) })
    hin rfl hrest
  rw [hpayload, List.drop_left] at hahead
  exact hQ _ _ (by omega) hready hchunks hahead

/-- An image leaves the reader as its words. -/
theorem image_spec (h8 : 8 ∣ cap) (hcap : bufferSize ≤ cap) {content words : List UInt8}
    (himage : ImageFile known cap content words) {fuel : Nat} (hfuel : content.length ≤ fuel)
    {k : κ} (hk : ready [] k) :
    wp (processFile callback fuel)
      (fun n t => n = words.length ∧ ready (deliveries t.trace) t.callback ∧
        RawChunks words (chunks (deliveries t.trace)))
      (fun e _ => fails e) ⟨⟨content⟩, k, [], [], []⟩ := by
  have halign := alignSize_eq
  have hsize := bufferSize_eq
  cases himage with
  | raw length words signature format =>
    have hgrants : ∀ n g, g = min n cap → GrantsBuffer n g := by
      rintro n g rfl
      constructor <;> omega
    rw [wp_processFile, if_neg (Nat.not_lt.mpr length), if_neg signature]
    refine (processRaw_grantsBuffer (s := headerState ⟨⟨content⟩, k, [], [], []⟩)
      (h.mono hgrants fun _ he => he) hfuel length rfl rfl hk format).mono ?_ fun _ _ hf => hf
    rintro n t ⟨hn, hready, cs, hcs, hds⟩
    have hchunks : chunks (deliveries t.trace) = cs := by
      rw [hds, chunks_append, chunks_append, chunks_data, rawCheck]
      split_ifs <;> rfl
    exact ⟨hn, hready, hchunks.symm ▸ hcs⟩
  | bit header payload trailing hheader hpayload hpos hwords hlength hknown hends =>
    have htail : payload ++ trailing ≠ [] :=
      List.append_ne_nil_of_left_ne_nil (List.ne_nil_of_length_pos (hpayload ▸ hpos)) _
    have hlong : header.size ≤ (payload ++ trailing).length := by
      rw [List.length_append]
      omega
    have hswapped : (swapped payload).length = header.size :=
      (swapped_length (hpayload.symm ▸ hwords)).trans hpayload
    rw [List.length_append] at hfuel
    rw [wp_processFile, if_neg (Nat.not_lt.mpr hlength), if_pos (header.hasBitSignature _)]
    refine processBit_chunks h hheader htail hknown hk ?_
    rintro s total htotal hready hnone hahead
    rw [processData, wp_bind]
    refine (firstBlock_chunk h (by omega) (fun _ => hwords) (by omega) hready hahead).mono ?_
      fun _ _ hf => hf
    rintro n t ⟨rfl, hfile, hready', hlen, hds⟩
    have hrequest : firstRequest header.size total ≤ header.size ∧
        4 ∣ firstRequest header.size total ∧ 0 < firstRequest header.size total ∧
        (8 ∣ firstRequest header.size total ∨
          firstRequest header.size total = header.size) ∧
        (firstRequest header.size total < header.size →
          firstBytes header.size total = firstRequest header.size total) ∧
        (cap ≤ bufferSize ∨ header.size ≤ firstRequest header.size total + bufferSize) ∧
        firstRequest header.size total ≤ bufferSize := by
      rw [firstRequest, firstBytes]
      split_ifs <;> omega
    obtain ⟨hfirst, h4, hstart, h8', hbytes, hmax, hshort⟩ := hrequest
    simp only [wp_bind, wp_pure]
    refine (payloadLoop_chunks h h8 (by omega) hwords header.size_lt hlong fuel (by omega) hmax
      hfirst h4 hready' hlen ?_).mono ?_ fun _ _ hf => hf
    · intro hmore
      rw [hfile, hbytes hmore]
    · rintro _ u ⟨hready'', cs, hcs, hds'⟩
      have hfront : ∀ m, m ≤ header.size → (payload ++ trailing).take m = payload.take m :=
        fun m hm => List.take_append_of_le_length (by omega)
      have hback : ((payload ++ trailing).drop (firstRequest header.size total)).take
          (header.size - firstRequest header.size total) =
            payload.drop (firstRequest header.size total) := by
        rw [List.drop_append_of_le_length (by omega)]
        exact List.take_left' (by rw [List.length_drop, hpayload])
      rw [hback] at hcs
      rw [hfront _ hfirst] at hds
      have hchunks : chunks (deliveries u.trace) =
          swapped (payload.take (firstRequest header.size total)) :: cs := by
        rw [hds', hds, chunks_append, chunks_append, hnone, chunks_data]
        rfl
      refine ⟨hswapped.symm, hready'', ?_⟩
      rw [hchunks]
      exact hcs.swap (by omega) hstart hshort h4 (hpayload.symm ▸ h8')

end FpgaImageReader

end Dyplo
