import Dyplo.Image.BitFormat

/-!
# The payload of a `.bit` image

The payload behind the header leaves the reader with the bytes of every word reversed: first what
the first read has left in the buffer, topped up to `ALIGN_SIZE`, then chunks of what is granted.
-/

namespace Dyplo

/-- The image of a payload. -/
abbrev swapped (payload : List UInt8) : List UInt8 := blockwise 4 List.reverse payload

theorem delivered_of_deliveries {trace trace' : List ImageEvent} {ds : List Delivery}
    (h : deliveries trace' = deliveries trace ++ ds) :
    delivered trace' = delivered trace ++ ds.flatMap Delivery.bytes := by
  rw [delivered, h, List.flatMap_append, delivered]

theorem delivered_emit (trace : List ImageEvent) (event : ImageEvent) :
    delivered (trace ++ [event]) =
      delivered trace ++ event.delivery.toList.flatMap Delivery.bytes :=
  delivered_of_deliveries (deliveries_emit trace event)

theorem delivered_congr {trace trace' : List ImageEvent}
    (h : deliveries trace' = deliveries trace) : delivered trace' = delivered trace := by
  rw [delivered, h, delivered]

theorem reverse_block_length (block : List UInt8) (h : block.length = 4) :
    block.reverse.length = 4 := by
  rw [List.length_reverse, h]

theorem swapped_length {payload : List UInt8} (h4 : 4 ∣ payload.length) :
    (swapped payload).length = payload.length :=
  blockwise_length reverse_block_length h4

/-- The request of the first transfer, with `total` payload bytes of the first read: a small
image as a whole, and of any other `ALIGN_SIZE`. -/
def firstRequest (size total : Nat) : Nat := if size ≤ total then size else alignSize

/-- The payload bytes that have been read by then. -/
def firstBytes (size total : Nat) : Nat := if size ≤ total then total else alignSize

theorem firstRequest_le (size : Nat) {total : Nat} (h : total ≤ alignSize) :
    firstRequest size total ≤ alignSize := by
  rw [firstRequest]
  split_ifs with hle
  · exact Nat.le_trans hle h
  · exact Nat.le_refl _

theorem swapped_take_add {tail : List UInt8} {m n : Nat} (hm : 4 ∣ m) (hlen : m ≤ tail.length) :
    swapped (tail.take (m + n)) = swapped (tail.take m) ++ swapped ((tail.drop m).take n) := by
  rw [List.take_add]
  apply blockwise_append (by decide)
  rwa [List.length_take_of_le hlen]

namespace FpgaImageReader

variable {κ : Type} {callback : FpgaImageReaderCallback κ} {grants : Nat → Nat → Prop}
  {known : Nat → Prop} {ready : List Delivery → κ → Prop}
  {granted : List Delivery → Nat → κ → Prop} {s : ReaderState κ}

private theorem processItem_spec (h : callback.Accepts grants known ready granted fun _ => False)
    (buffer : List UInt8) (item : TagItem)
    (hknown : ∀ id, item.staticID buffer = some id → known id)
    (hs : ready (deliveries s.trace) s.callback) :
    wp (processItem callback buffer item)
      (fun _ t => ready (deliveries t.trace) t.callback ∧ delivered t.trace = delivered s.trace ∧
        t.file = s.file ∧ t.buffer = s.buffer)
      (fun _ _ => False) s := by
  rw [wp_processItem]
  have hds : deliveries (s.trace ++
      [.processTag item.tag ((buffer.drop item.value).take item.size)]) = deliveries s.trace := by
    simp
  cases hid : item.staticID buffer with
  | none => exact ⟨hds.symm ▸ hs, delivered_congr hds, rfl, rfl⟩
  | some id =>
    refine (verifyStaticID_spec h (hds.symm ▸ hs) (hknown id hid)).mono ?_ fun _ _ hf => hf
    rintro _ t ⟨hready, hds', hfile, hbuffer⟩
    refine ⟨hready, ?_, hfile, hbuffer⟩
    rw [delivered_of_deliveries hds', delivered_congr hds]
    exact List.append_nil _

private theorem tagLoop_spec (h : callback.Accepts grants known ready granted fun _ => False)
    {bytes data : Nat} (hknown : ∀ item ∈ (scanTags s.buffer bytes data).1, ∀ id,
      item.staticID s.buffer = some id → known id)
    (hs : ready (deliveries s.trace) s.callback) :
    wp (tagLoop callback bytes data)
      (fun d t => (scanTags s.buffer bytes data).2 = some d ∧
        ready (deliveries t.trace) t.callback ∧ delivered t.trace = delivered s.trace ∧
        t.file = s.file ∧ t.buffer = s.buffer)
      (fun e t => (scanTags s.buffer bytes data).2 = none ∧ e = .throws .truncatedFile ∧
        delivered t.trace = delivered s.trace) s := by
  rw [wp_tagLoop bytes data rfl]
  refine (wp_forM (I := fun t => ready (deliveries t.trace) t.callback ∧
    delivered t.trace = delivered s.trace ∧ t.file = s.file ∧ t.buffer = s.buffer)
    (E := fun _ _ => False) ?_ ⟨hs, rfl, rfl, rfl⟩).mono ?_ fun _ _ hf => hf.elim
  · rintro item hitem t ⟨hready, hdelivered, hfile, hbuffer⟩
    refine (processItem_spec h s.buffer item (hknown item hitem) hready).mono ?_ fun _ _ hf => hf
    rintro _ u ⟨hready', hdelivered', hfile', hbuffer'⟩
    exact ⟨hready', hdelivered'.trans hdelivered, hfile'.trans hfile, hbuffer'.trans hbuffer⟩
  · rintro _ t ⟨hready, hdelivered, hfile, hbuffer⟩
    cases hscan : (scanTags s.buffer bytes data).2 with
    | none => exact ⟨rfl, rfl, hdelivered⟩
    | some d => exact ⟨rfl, hready, hdelivered, hfile, hbuffer⟩

variable {tail : List UInt8} {size total : Nat}

theorem alignFirst_spec (hahead : ReadAhead tail total s) :
    wp (alignFirst size total)
      (fun n t => n = firstRequest size total ∧ (total < size → alignSize ≤ tail.length) ∧
        t.file.content = tail.drop (firstBytes size total) ∧
        t.buffer.take n = tail.take n ∧ t.buffer.length = bufferSize ∧
        t.callback = s.callback ∧ deliveries t.trace = deliveries s.trace)
      (fun e t => e = .throws .truncatedFile ∧ total < size ∧ tail.length < alignSize ∧
        deliveries t.trace = deliveries s.trace) s := by
  obtain ⟨hlen, hpos, htotal, htail, hbuffer, hfile⟩ := hahead
  have hmod : total % alignSize = total := Nat.mod_eq_of_lt htotal
  rw [alignFirst, wp_ite, wp_pure, firstRequest, firstBytes]
  by_cases hsize : size ≤ total
  · rw [if_pos hsize, if_pos hsize, if_pos hsize]
    refine ⟨rfl, fun hlt => absurd hsize (Nat.not_le.mpr hlt), hfile, ?_, hlen, rfl, rfl⟩
    have htake := congrArg (List.take size) hbuffer
    rwa [List.take_take, List.take_take, Nat.min_eq_left hsize] at htake
  · have hfits : total + (alignSize - total) ≤ s.buffer.length := by
      have := alignSize_eq
      have := bufferSize_eq
      omega
    rw [if_neg hsize, if_neg hsize, if_neg hsize, wp_ite, hmod,
      if_neg (Nat.pos_iff_ne_zero.mp hpos), wp_bind]
    refine (readBuffer_spec hfits).mono ?_ fun _ _ hf => hf
    rintro n t ⟨hn, hfile', hbuffer', hcallback, -, hds⟩
    rw [hfile, List.length_drop] at hn
    rw [wp_ite, wp_throw, wp_pure]
    split_ifs with hshort
    · exact ⟨rfl, by omega, by omega, hds⟩
    · have halign : total + (alignSize - total) = alignSize := by omega
      have hmore : (s.file.content.take (alignSize - total)).length = alignSize - total := by
        rw [List.length_take, hfile, List.length_drop]
        omega
      rw [halign]
      refine ⟨rfl, fun _ => by omega, ?_, ?_, ?_, hcallback, hds⟩
      · rw [hfile', hfile, List.drop_drop, halign]
      · have htake : (overlay s.buffer total (s.file.content.take (alignSize - total))).take
            (total + (s.file.content.take (alignSize - total)).length) = _ :=
          take_overlay hbuffer (by omega)
        rw [hmore, halign, hfile, ← List.take_add, halign] at htake
        rw [hbuffer', hfile, htake]
      · rw [hbuffer', overlay_length (by omega), hlen]

theorem firstRequest_cases {n : Nat} {content : List UInt8} (hn : n = firstRequest size total)
    (htail : total < size → alignSize ≤ tail.length)
    (hcontent : content = tail.drop (firstBytes size total)) :
    n = size ∧ size ≤ total ∨
      n = alignSize ∧ total < size ∧ alignSize ≤ tail.length ∧ content = tail.drop alignSize := by
  rw [firstRequest] at hn
  rw [firstBytes] at hcontent
  split_ifs at hn hcontent with hle
  · exact .inl ⟨hn, hle⟩
  · have hlt := Nat.lt_of_not_le hle
    exact .inr ⟨hn, hlt, htail hlt, hcontent⟩

private theorem swap_endProcessData_spec
    (h : callback.Accepts grants known ready granted fun _ => False)
    {n : Nat} {payload : List UInt8} (h4 : 4 ∣ n) (hlen : s.buffer.length = bufferSize)
    (hn : n ≤ bufferSize) (hbuffer : s.buffer.take n = payload)
    (hs : granted (deliveries s.trace) n s.callback) {Q : Nat → ReaderState κ → Prop}
    {E : Stop → ReaderState κ → Prop}
    (hQ : ∀ t, ready (deliveries t.trace) t.callback →
      delivered t.trace = delivered s.trace ++ swapped payload → t.file = s.file →
      t.buffer = s.buffer → Q n t) :
    wp (swapBuffer (n >>> 2)) (fun _ t => wp (endProcessData callback n) Q E t) E s := by
  have hwords := four_mul_words h4
  refine (swapBuffer_spec (by omega)).mono ?_ fun _ _ hf => hf
  rintro _ t ⟨hswap, hfile, hbuffer', hcallback, hds⟩
  rw [hwords, hbuffer] at hswap
  rw [← hcallback, ← hds] at hs
  have hfull : n ≤ t.cbBuffer.length := by
    have hpayload : payload.length = n := by rw [← hbuffer, List.length_take_of_le (by omega)]
    have hlength := congrArg List.length hswap
    rw [List.length_take, swapped_length (hpayload ▸ h4), hpayload] at hlength
    omega
  refine (endProcessData_spec h hs (Nat.le_refl n) hfull).mono ?_ fun _ _ hf => hf.elim
  rintro m u ⟨rfl, hready, hds', hfile', hbuffer''⟩
  refine hQ u hready ?_ (hfile'.trans hfile) (hbuffer''.trans hbuffer')
  rw [delivered_of_deliveries hds', delivered_congr hds, hswap]
  simp [Delivery.bytes]

/-- The first block, of which the callback may take less than has been read. -/
theorem firstBlock_grant (h : callback.Accepts grants known ready granted fun _ => False)
    (hgrants : ∀ g, grants (firstRequest size total) g → 4 ∣ g ∧ g ≤ firstRequest size total)
    (hs : ready (deliveries s.trace) s.callback) (hahead : ReadAhead tail total s) :
    wp (firstBlock callback size total)
      (fun g t => grants (firstRequest size total) g ∧
        (total < size → alignSize ≤ tail.length) ∧
        t.file.content = tail.drop (firstBytes size total) ∧
        ready (deliveries t.trace) t.callback ∧ t.buffer.length = bufferSize ∧
        delivered t.trace = delivered s.trace ++ swapped (tail.take g))
      (fun e t => e = .throws .truncatedFile ∧ total < size ∧ tail.length < alignSize ∧
        delivered t.trace = delivered s.trace) s := by
  have halign := alignSize_eq
  have hsize := bufferSize_eq
  have hsmall := firstRequest_le size (Nat.le_of_lt hahead.lt)
  rw [firstBlock, wp_bind]
  refine (alignFirst_spec hahead).mono ?_ ?_
  · rintro n s₁ ⟨rfl, htail', hfile₁, hbuffer₁, hlen₁, hcallback₁, hds₁⟩
    rw [← hcallback₁, ← hds₁] at hs
    rw [wp_bind]
    refine (beginProcessData_spec h _ hs).mono ?_ fun _ _ hf => hf.elim
    rintro g s₂ ⟨hgrant, hgranted, hds₂, hfile₂, hbuffer₂⟩
    obtain ⟨hwords, hle⟩ := hgrants g hgrant
    have hword : g % 2 ^ 32 = g := Nat.mod_eq_of_lt (by omega)
    have hbuffer₂' : s₂.buffer.take g = tail.take g := by
      have htake := congrArg (List.take g) hbuffer₁
      rwa [List.take_take, List.take_take, Nat.min_eq_left hle, ← hbuffer₂] at htake
    have hlen₂ : s₂.buffer.length = bufferSize := by rw [hbuffer₂, hlen₁]
    simp only [hword, wp_bind]
    refine swap_endProcessData_spec h hwords hlen₂ (by omega) hbuffer₂' hgranted ?_
    intro t hready hdelivered hfile₃ hbuffer₃
    rw [wp_ite, if_neg (Nat.lt_irrefl g), wp_pure, hfile₃, hfile₂]
    refine ⟨hgrant, htail', hfile₁, hready, by rw [hbuffer₃, hlen₂], ?_⟩
    rw [hdelivered, delivered_congr hds₂, delivered_congr hds₁]
  · rintro e t ⟨rfl, hlt, hshort, hds⟩
    exact ⟨rfl, hlt, hshort, delivered_congr hds⟩

theorem firstBlock_spec (h : callback.Accepts grants known ready granted fun _ => False)
    (hgrants : ∀ n g, grants n g → n ≤ alignSize → g = n) (h4 : size ≤ total → 4 ∣ size)
    (hs : ready (deliveries s.trace) s.callback) (hahead : ReadAhead tail total s) :
    wp (firstBlock callback size total)
      (fun n t => (n = size ∧ size ≤ total ∨
          n = alignSize ∧ total < size ∧ alignSize ≤ tail.length ∧
            t.file.content = tail.drop alignSize) ∧
        ready (deliveries t.trace) t.callback ∧ t.buffer.length = bufferSize ∧
        delivered t.trace = delivered s.trace ++ swapped (tail.take n))
      (fun e t => e = .throws .truncatedFile ∧ total < size ∧ tail.length < alignSize ∧
        delivered t.trace = delivered s.trace) s := by
  have hall : ∀ g, grants (firstRequest size total) g → g = firstRequest size total :=
    fun g hg => hgrants _ g hg (firstRequest_le size (Nat.le_of_lt hahead.lt))
  have hwords : ∀ g, grants (firstRequest size total) g →
      4 ∣ g ∧ g ≤ firstRequest size total := by
    intro g hg
    rw [hall g hg]
    refine ⟨?_, Nat.le_refl _⟩
    rw [firstRequest]
    split_ifs with hle
    · exact h4 hle
    · decide
  refine (firstBlock_grant h hwords hs hahead).mono ?_ fun _ _ he => he
  rintro g t ⟨hgrant, htail', hfile', ht⟩
  exact ⟨firstRequest_cases (hall g hgrant) htail' hfile', ht⟩

theorem wp_payloadLoop_done {Q : Unit → ReaderState κ → Prop} {E : Stop → ReaderState κ → Prop}
    (h : size ≤ total) (fuel : Nat) : wp (payloadLoop callback size fuel total) Q E s ↔ Q () s := by
  cases fuel <;> rw [payloadLoop, wp_ite, if_neg (Nat.not_lt.mpr h), wp_pure]

theorem payloadLoop_spec {cap : Nat} (hcap : 4 ∣ cap) (hmin : 0 < cap)
    (h : callback.Accepts (fun n g => g = min n cap) known ready granted fun _ => False)
    (h4 : 4 ∣ size) (hsize : size < 2 ^ 32) (fuel : Nat) {total : Nat} {s : ReaderState κ}
    (hfuel : size ≤ total + fuel) (hmax : cap ≤ bufferSize ∨ size ≤ total + bufferSize)
    (htotal : total ≤ size) (hwords : 4 ∣ total) (htail : total ≤ tail.length)
    (hs : ready (deliveries s.trace) s.callback) (hlen : s.buffer.length = bufferSize)
    (hfile : total < size → s.file.content = tail.drop total)
    (hdelivered : delivered s.trace = swapped (tail.take total)) :
    wp (payloadLoop callback size fuel total)
      (fun _ t => size ≤ tail.length ∧ delivered t.trace = swapped (tail.take size))
      (fun e t => e = .throws .truncatedFile ∧ tail.length < size ∧
        ∃ m, 4 ∣ m ∧ m ≤ tail.length ∧ delivered t.trace = swapped (tail.take m)) s := by
  induction fuel generalizing total s with
  | zero =>
    obtain rfl : total = size := by omega
    rw [payloadLoop, wp_ite, if_neg (Nat.lt_irrefl _), wp_pure]
    exact ⟨htail, hdelivered⟩
  | succ fuel ih =>
    rw [payloadLoop, wp_ite]
    split_ifs with hmore
    · have hcontent := hfile hmore
      rw [wp_bind]
      refine (beginProcessData_spec h _ hs).mono ?_ fun _ _ hf => hf.elim
      rintro g s₁ ⟨hg, hgranted, hds₁, hfile₁, hbuffer₁⟩
      have hg4 : 4 ∣ g := by
        rw [hg, Nat.min_def]
        split_ifs
        · exact Nat.dvd_sub h4 hwords
        · exact hcap
      have hfits : 0 + g ≤ s₁.buffer.length := by rw [hbuffer₁, hlen]; omega
      rw [wp_bind]
      refine (readBuffer_spec hfits).mono ?_ fun _ _ hf => hf
      rintro n s₂ ⟨hn, hfile₂, hbuffer₂, hcallback₂, -, hds₂⟩
      rw [hfile₁, hcontent, List.length_drop] at hn
      rw [wp_ite, wp_throw]
      split_ifs with hshort
      · refine ⟨rfl, by omega, total, hwords, htail, ?_⟩
        rw [delivered_congr hds₂, delivered_congr hds₁, hdelivered]
      · obtain rfl : n = g := by omega
        rw [← hcallback₂, ← hds₂] at hgranted
        rw [hfile₁, hcontent] at hbuffer₂
        have hchunk := overlay_chunk (show n ≤ s₁.buffer.length by omega)
          (show n ≤ (tail.drop total).length by rw [List.length_drop]; omega)
        rw [← hbuffer₂, hbuffer₁, hlen] at hchunk
        obtain ⟨hblock, hlen₂⟩ := hchunk
        simp only [wp_bind]
        refine swap_endProcessData_spec h hg4 hlen₂ (by omega) hblock hgranted ?_
        intro s₃ hready₃ hdelivered₃ hfile₃ hbuffer₃
        have hnext : (total + n) % 2 ^ 32 = total + n := Nat.mod_eq_of_lt (by omega)
        rw [wp_ite, if_neg (Nat.lt_irrefl n), hnext]
        refine ih (by omega) (by omega) (by omega) (Nat.dvd_add hwords hg4) (by omega) hready₃
          (by rw [hbuffer₃, hlen₂]) ?_ ?_
        · intro _
          rw [hfile₃, hfile₂, hfile₁, hcontent, List.drop_drop]
        · rw [hdelivered₃, delivered_congr hds₂, delivered_congr hds₁, hdelivered,
            ← swapped_take_add hwords htail]
    · obtain rfl : total = size := by omega
      rw [wp_pure]
      exact ⟨htail, hdelivered⟩

/-- A `.bit` file up to its payload, or a header that does not end inside the first read. -/
theorem processBit_data (h : callback.Accepts grants known ready granted fun _ => False)
    {content : List UInt8} {fuel : Nat} (hknown : ∀ item ∈ bitItems content, ∀ id,
      item.staticID (firstBuffer content) = some id → known id) {k : κ} (hk : ready [] k)
    {Q : Nat → ReaderState κ → Prop} {E : Stop → ReaderState κ → Prop}
    (hE : ∀ t, (∀ data, bitData content = some data → firstRead content ≤ data + 5) →
      delivered t.trace = [] → E (.throws .truncatedFile) t)
    (hQ : ∀ data t, bitData content = some data → data + 5 < firstRead content →
      ready (deliveries t.trace) t.callback → delivered t.trace = [] →
      ReadAhead (content.drop (data + 5)) (firstRead content - (data + 5)) t →
      wp (processData callback fuel (declaredSize content data)
        (firstRead content - (data + 5))) Q E t) :
    wp (processBit callback fuel (firstRead content)) Q E
      (headerState ⟨⟨content⟩, k, [], [], []⟩) := by
  rw [processBit, wp_bind]
  refine (tagLoop_spec (s := headerState ⟨⟨content⟩, k, [], [], []⟩) h hknown hk).mono ?_ ?_
  · rintro data t ⟨hdata, hready, hdelivered, hfile, hbuffer⟩
    by_cases hend : firstRead content ≤ data + 5
    · rw [processPayload, wp_ite, if_pos hend, wp_throw]
      refine hE t (fun d hd => ?_) hdelivered
      obtain rfl : data = d := Option.some.inj (hdata.symm.trans hd)
      exact hend
    · have hin := Nat.lt_of_not_le hend
      have hcontent : t.file.content = content.drop alignSize := by rw [hfile]; rfl
      rw [wp_of_eq (processPayload_eq hin hbuffer fuel)]
      exact hQ data _ hdata hin hready hdelivered (readAhead_payloadBuffer hin rfl hcontent)
  · rintro e t ⟨hnone, rfl, hdelivered⟩
    refine hE t (fun d hd => ?_) hdelivered
    cases hnone.symm.trans hd

/-- The payload behind a header that ends inside the first read, unless the file ends there. -/
theorem processBit_spec (h : callback.Accepts grants (fun _ => True) ready granted fun _ => False)
    (header : BitHeader) (hheader : header.encode.length < alignSize) (fuel : Nat) {k : κ}
    (hk : ready [] k) {Q : Nat → ReaderState κ → Prop} {E : Stop → ReaderState κ → Prop}
    (hE : ∀ t, tail = [] → delivered t.trace = [] → E (.throws .truncatedFile) t)
    (hQ : ∀ t total, total = min (alignSize - header.encode.length) tail.length →
      ready (deliveries t.trace) t.callback → delivered t.trace = [] →
      ReadAhead tail total t → wp (processData callback fuel header.size total) Q E t) :
    wp (processBit callback fuel (firstRead (header.encode ++ tail))) Q E
      (headerState ⟨⟨header.encode ++ tail⟩, k, [], [], []⟩) := by
  have hlength := header.encode_length
  have hcontent : (header.encode ++ tail).length = header.encode.length + tail.length :=
    List.length_append
  have hfirst : firstRead (header.encode ++ tail) = min alignSize (header.encode ++ tail).length :=
    rfl
  have hpayload : header.encode.length - 5 + 5 = header.encode.length := by omega
  have hscan : bitData (header.encode ++ tail) = some (header.encode.length - 5) := by
    rw [header.bitData_encode, if_pos (by omega)]
  refine processBit_data h (fun _ _ _ _ => trivial) hk ?_ ?_
  · intro t hend hdelivered
    have hle := hend _ hscan
    exact hE t (List.eq_nil_of_length_eq_zero (by omega)) hdelivered
  · intro data t hdata _ hready hdelivered hahead
    obtain rfl := Option.some.inj (hscan.symm.trans hdata)
    rw [hpayload, List.drop_left] at hahead
    rw [hpayload, header.declaredSize_encode tail (Nat.le_of_lt hheader)]
    exact hQ t _ (by omega) hready hdelivered hahead

end FpgaImageReader

end Dyplo
