import Dyplo.Image.BitImage
import Dyplo.Image.Invariance

/-!
# Decoding of the tags

`processTag` is called for the items that an encoder has written, as far as they end inside the
first read, and the payload begins behind the header.
-/

namespace Dyplo

/-- A call of `processTag`. -/
@[simp]
def ImageEvent.tagged : ImageEvent → Option (UInt8 × List UInt8)
  | .processTag tag value => some (tag, value)
  | _ => none

/-- The calls of `processTag`, in order. -/
def processedTags (trace : List ImageEvent) : List (UInt8 × List UInt8) :=
  trace.filterMap ImageEvent.tagged

@[simp]
private theorem processedTags_emit (trace : List ImageEvent) (event : ImageEvent) :
    processedTags (trace ++ [event]) = processedTags trace ++ event.tagged.toList := by
  rw [processedTags, List.filterMap_append]
  cases event <;> rfl

/-- The tag and the value of an item, in the memory that it points into. -/
def TagItem.read (mem : List UInt8) (item : TagItem) : UInt8 × List UInt8 :=
  (item.tag, (mem.drop item.value).take item.size)

def BitItem.pair (item : BitItem) : UInt8 × List UInt8 := (item.tag, item.value)

/-- The offset behind the item `i` of a header. -/
def BitHeader.itemEnd (header : BitHeader) (i : Nat) : Nat :=
  13 + (BitHeader.encodeItems (header.items.take (i + 1))).length

private theorem BitHeader.encodeItems_take_length_le (items : List BitItem) (n : Nat) :
    (encodeItems (items.take n)).length ≤ (encodeItems items).length := by
  have hsplit := congrArg (fun l => (encodeItems l).length) (List.take_append_drop n items)
  simp only [encodeItems, List.flatMap_append, List.length_append] at hsplit ⊢
  omega

private theorem scanTags_inside (buffer : List UInt8) {bytes data : Nat} (h : data < bytes) :
    (∀ item ∈ (scanTags buffer bytes data).1, item.value + item.size < bytes) ∧
      data + 3 * (scanTags buffer bytes data).1.length < bytes ∧
      ∀ d, (scanTags buffer bytes data).2 = some d → d < bytes := by
  induction data using scanTags.induct buffer bytes with
  | case1 data htag =>
    rw [scanTags, if_pos htag]
    exact ⟨by simp, h, fun d hd => Option.some.inj hd ▸ h⟩
  | case2 data htag hend =>
    rw [scanTags, if_neg htag, if_pos hend]
    exact ⟨by simp, h, by simp⟩
  | case3 data htag hend hvalue =>
    rw [scanTags, if_neg htag, if_neg hend, if_pos hvalue]
    exact ⟨by simp, h, by simp⟩
  | case4 data htag hend hvalue ih =>
    obtain ⟨hinside, hcount, hfound⟩ := ih (Nat.lt_of_not_le hvalue)
    rw [scanTags, if_neg htag, if_neg hend, if_neg hvalue]
    refine ⟨List.forall_mem_cons.mpr ⟨Nat.lt_of_not_le hvalue, hinside⟩, ?_, hfound⟩
    simp only [List.length_cons]
    omega

section Scan

variable {buffer content rest : List UInt8} {bytes data : Nat}
  (hbuffer : buffer.take bytes = content.take bytes)
include hbuffer

private theorem read_item {item : BitItem} (h : content.drop data = item.encode ++ rest)
    (hend : data + item.encode.length < bytes) :
    TagItem.read buffer ⟨item.tag, item.value.length, data + 3⟩ = item.pair := by
  have hlength := item.encode_length
  have hbehind : content.drop (data + 3) = item.value ++ rest := by
    rw [← List.drop_drop, h]
    rfl
  have hvalue : (buffer.drop (data + 3)).take item.value.length = item.value := by
    rw [slice_congr hbuffer (by omega), hbehind, List.take_left]
  rw [TagItem.read, hvalue]
  rfl

/-- The scan of encoded items yields those that end inside of what has been read. -/
theorem scanTags_content {items : List BitItem}
    (h : content.drop data = BitHeader.encodeItems items ++ 101 :: rest) (hdata : data < bytes) :
    ∃ n ≤ items.length,
      (scanTags buffer bytes data).1.map (TagItem.read buffer) =
        (items.take n).map BitItem.pair ∧
      ∀ i < items.length, i < n ↔
        data + (BitHeader.encodeItems (items.take (i + 1))).length < bytes := by
  induction items generalizing data with
  | nil =>
    rw [scanTags_dataTag hbuffer h hdata]
    exact ⟨0, Nat.le_refl 0, rfl, by simp⟩
  | cons item items ih =>
    rw [BitHeader.encodeItems_cons, List.append_assoc] at h
    have hlength : ∀ i, (BitHeader.encodeItems ((item :: items).take (i + 1))).length =
        item.encode.length + (BitHeader.encodeItems (items.take i)).length := by
      intro i
      rw [List.take_succ_cons, BitHeader.encodeItems_cons, List.length_append]
    rw [scanTags_item hbuffer h hdata]
    by_cases hend : data + item.encode.length < bytes
    · obtain ⟨n, hn, hread, hends⟩ := ih (BitItem.drop_encode h) hend
      rw [if_pos hend]
      refine ⟨n + 1, Nat.succ_le_succ hn, ?_, ?_⟩
      · rw [List.map_cons, List.take_succ_cons, List.map_cons, hread, read_item hbuffer h hend]
      · intro i hi
        rw [hlength]
        cases i with
        | zero => exact iff_of_true (Nat.succ_pos n) hend
        | succ i =>
          have hnext := hends i (Nat.lt_of_succ_lt_succ hi)
          rw [Nat.succ_lt_succ_iff, hnext]
          omega
    · rw [if_neg hend]
      refine ⟨0, Nat.zero_le _, rfl, ?_⟩
      intro i hi
      rw [hlength]
      omega

end Scan

namespace FpgaImageReader

variable {κ : Type} {callback : FpgaImageReaderCallback κ}

/-- From one state to the other the reader has processed these tags and nothing else. -/
structure Processed (s t : ReaderState κ) (tags : List (UInt8 × List UInt8)) : Prop where
  tags : processedTags t.trace = processedTags s.trace ++ tags
  delivered : delivered t.trace = delivered s.trace
  file : t.file = s.file
  buffer : t.buffer = s.buffer

section Verified

variable (hverify : ∀ id k, ∃ t, callback.verifyStaticID id k = .ok () t)
include hverify

private theorem processItem_tags (buffer : List UInt8) (item : TagItem) (s : ReaderState κ) :
    wp (processItem callback buffer item) (fun _ t => Processed s t [item.read buffer])
      (fun _ _ => False) s := by
  have hemit : Processed s { s with trace := s.trace ++ [.processTag item.tag
      ((buffer.drop item.value).take item.size)] } [item.read buffer] :=
    ⟨processedTags_emit _ _, delivered_congr (by simp), rfl, rfl⟩
  rw [wp_processItem]
  cases item.staticID buffer with
  | none => exact hemit
  | some id =>
    obtain ⟨k, hk⟩ := hverify id s.callback
    change wp (verifyStaticID callback id) _ _ _
    rw [wp_verifyStaticID, wp_of_ok hk]
    refine ⟨?_, ?_, rfl, rfl⟩
    · rw [processedTags_emit, hemit.tags]
      exact List.append_nil _
    · refine (delivered_of_deliveries (deliveries_emit _ _)).trans ?_
      rw [hemit.delivered]
      exact List.append_nil _

private theorem processItems_tags (buffer : List UInt8) (items : List TagItem) (s : ReaderState κ) :
    wp (forM items (processItem callback buffer))
      (fun _ t => Processed s t (items.map (TagItem.read buffer))) (fun _ _ => False) s := by
  induction items generalizing s with
  | nil =>
    rw [List.forM_nil, wp_pure]
    exact ⟨(List.append_nil _).symm, rfl, rfl, rfl⟩
  | cons item items ih =>
    rw [List.forM_cons, wp_bind]
    refine (processItem_tags hverify buffer item s).mono ?_ fun _ _ hf => hf
    intro _ t ht
    refine (ih t).mono ?_ fun _ _ hf => hf
    intro _ u hu
    refine ⟨?_, hu.delivered.trans ht.delivered, hu.file.trans ht.file, hu.buffer.trans ht.buffer⟩
    rw [hu.tags, ht.tags, List.append_assoc]
    rfl

private theorem tagLoop_tags (bytes data : Nat) (s : ReaderState κ) :
    wp (tagLoop callback bytes data)
      (fun d t => (scanTags s.buffer bytes data).2 = some d ∧
        Processed s t ((scanTags s.buffer bytes data).1.map (TagItem.read s.buffer)))
      (fun e t => (scanTags s.buffer bytes data).2 = none ∧ e = .throws .truncatedFile ∧
        Processed s t ((scanTags s.buffer bytes data).1.map (TagItem.read s.buffer))) s := by
  rw [wp_tagLoop bytes data rfl]
  refine (processItems_tags hverify _ _ s).mono ?_ fun _ _ hf => hf.elim
  intro _ t ht
  cases hscan : (scanTags s.buffer bytes data).2 with
  | none => exact ⟨rfl, rfl, ht⟩
  | some d => exact ⟨rfl, ht⟩

end Verified

/-- What the reader does behind the tags processes none. -/
abbrev TagsAre (tags : List (UInt8 × List UInt8)) (s : ReaderState κ) : Prop :=
  processedTags s.trace = tags

private theorem processPayload_tagsAre {tags : List (UInt8 × List UInt8)} (fuel bytes data : Nat) :
    Keeps (TagsAre tags) (fun _ => True) (processPayload callback fuel bytes data) := by
  have hother : ∀ event : ImageEvent, event.tagged = none → ∀ trace, processedTags trace = tags →
      processedTags (trace ++ [event]) = tags := by
    intro event hevent trace htrace
    rw [processedTags_emit, hevent, htrace]
    exact List.append_nil tags
  exact processPayload_keeps ⟨trivial, trivial, trivial⟩ (fun _ _ _ => hother _ rfl)
    (fun _ _ => hother _ rfl) (.of_trace (fun _ _ => hother _ rfl) fun _ => hother _ rfl) fuel bytes
    data

end FpgaImageReader

open FpgaImageReader

/-- The reader in front of the payload of a file that begins with this header. -/
structure AtPayload {κ : Type} (header : BitHeader) (tail : List UInt8) (s : ReaderState κ) :
    Prop where
  tags : processedTags s.trace = header.items.map BitItem.pair
  delivered : delivered s.trace = []
  buffer : s.buffer.take (firstRead (header.encode ++ tail) - header.encode.length) =
    tail.take (firstRead (header.encode ++ tail) - header.encode.length)
  file : s.file.content = tail.drop (firstRead (header.encode ++ tail) - header.encode.length)

private theorem scan_header (header : BitHeader) (tail : List UInt8) :
    ∃ n ≤ header.items.length,
      (bitItems (header.encode ++ tail)).map (TagItem.read (firstBuffer (header.encode ++ tail))) =
        (header.items.take n).map BitItem.pair ∧
      ∀ i < header.items.length, i < n ↔ header.itemEnd i < firstRead (header.encode ++ tail) := by
  have halign := alignSize_eq
  have hlength := header.encode_length
  have hfirst : firstRead (header.encode ++ tail) =
      min alignSize (header.encode.length + tail.length) := by rw [firstRead, List.length_append]
  exact scanTags_content (take_firstRead _) (header.encode_drop tail) (by omega)

section Runs

variable {κ : Type} {callback : FpgaImageReaderCallback κ}
  (hverify : ∀ id k, ∃ t, callback.verifyStaticID id k = .ok () t) (k : κ) (fuel : Nat)

theorem run_bit {content : List UInt8} (hlen : 64 ≤ content.length)
    (hbit : HasBitSignature content) :
    run callback fuel ⟨content⟩ k =
      processBit callback fuel (firstRead content) (headerState ⟨⟨content⟩, k, [], [], []⟩) := by
  rw [run, ← wp_result, wp_processFile, if_neg (Nat.not_lt.mpr hlen), if_pos hbit, wp_result]

include hverify

theorem bit_tagLoop (content : List UInt8) :
    wp (tagLoop callback (firstRead content) 13)
      (fun d t => bitData content = some d ∧
        Processed (headerState ⟨⟨content⟩, k, [], [], []⟩) t
          ((bitItems content).map (TagItem.read (firstBuffer content))))
      (fun e t => bitData content = none ∧ e = .throws .truncatedFile ∧
        Processed (headerState ⟨⟨content⟩, k, [], [], []⟩) t
          ((bitItems content).map (TagItem.read (firstBuffer content))))
      (headerState ⟨⟨content⟩, k, [], [], []⟩) :=
  tagLoop_tags hverify (firstRead content) 13 (headerState ⟨⟨content⟩, k, [], [], []⟩)

private theorem bit_run_tags {content : List UInt8} (hlen : 64 ≤ content.length)
    (hbit : HasBitSignature content) :
    processedTags (finalState (processFile callback fuel) ⟨⟨content⟩, k, [], [], []⟩).trace =
      (bitItems content).map (TagItem.read (firstBuffer content)) := by
  have hrun : wp (processFile callback fuel)
      (fun _ t => TagsAre ((bitItems content).map (TagItem.read (firstBuffer content))) t)
      (fun _ t => TagsAre ((bitItems content).map (TagItem.read (firstBuffer content))) t)
      ⟨⟨content⟩, k, [], [], []⟩ := by
    rw [wp_processFile, if_neg (Nat.not_lt.mpr hlen), if_pos hbit, processBit, wp_bind]
    refine (bit_tagLoop hverify k content).mono ?_ fun _ _ he => he.2.2.tags
    rintro d t ⟨-, ht⟩
    exact (processPayload_tagsAre _ _ _ t ht.tags).mono (fun _ _ hu => hu) fun _ _ hu => hu.2
  exact finalState_of_wp hrun

/-- A header inside the first read is decoded and left behind. -/
theorem header_decoded (header : BitHeader) (tail : List UInt8)
    (hlen : 64 ≤ (header.encode ++ tail).length)
    (hfits : header.encode.length < firstRead (header.encode ++ tail)) :
    (∃ s : ReaderState κ, AtPayload header tail s ∧
      run callback fuel ⟨header.encode ++ tail⟩ k =
        processData callback fuel header.size
          (firstRead (header.encode ++ tail) - header.encode.length) s) ∧
      processedTags (finalState (processFile callback fuel)
        ⟨⟨header.encode ++ tail⟩, k, [], [], []⟩).trace = header.items.map BitItem.pair := by
  have halign := alignSize_eq
  have hlength := header.encode_length
  have hread : firstRead (header.encode ++ tail) = min alignSize (header.encode ++ tail).length :=
    rfl
  have hcontent : (header.encode ++ tail).length = header.encode.length + tail.length :=
    List.length_append
  have hsmall : header.encode.length ≤ alignSize := by omega
  obtain ⟨n, hn, hitems, hends⟩ := scan_header header tail
  have hdata := header.bitData_encode tail
  rw [if_pos (by omega)] at hdata
  have hall : n = header.items.length := by
    by_contra hne
    have hend := (hends n (by omega)).mpr
    have hmono := BitHeader.encodeItems_take_length_le header.items (n + 1)
    rw [BitHeader.itemEnd] at hend
    omega
  rw [hall, List.take_length] at hitems
  have htags := bit_run_tags hverify k fuel hlen (header.hasBitSignature tail)
  refine ⟨?_, htags.trans hitems⟩
  have hreturns : wp (tagLoop callback (firstRead (header.encode ++ tail)) 13)
      (fun d t => d = header.encode.length - 5 ∧
        Processed (headerState ⟨⟨header.encode ++ tail⟩, k, [], [], []⟩) t
          (header.items.map BitItem.pair)) (fun _ _ => False)
      (headerState ⟨⟨header.encode ++ tail⟩, k, [], [], []⟩) := by
    refine (bit_tagLoop hverify k (header.encode ++ tail)).mono ?_ ?_
    · rintro d t ⟨hd, ht⟩
      rw [hdata] at hd
      rw [hitems] at ht
      exact ⟨(Option.some.inj hd).symm, ht⟩
    · rintro _ _ ⟨hnone, -⟩
      rw [hdata] at hnone
      cases hnone
  obtain ⟨_, t, hloop, rfl, ht⟩ := hreturns.returns
  have hstart : header.encode.length - 5 + 5 = header.encode.length := by omega
  have hin : header.encode.length - 5 + 5 < firstRead (header.encode ++ tail) := by omega
  have hbuffer : t.buffer = firstBuffer (header.encode ++ tail) := ht.buffer
  have hrun : run callback fuel ⟨header.encode ++ tail⟩ k =
      processData callback fuel header.size
        (firstRead (header.encode ++ tail) - header.encode.length)
        { t with buffer := payloadBuffer (header.encode ++ tail) (header.encode.length - 5) } := by
    rw [run_bit k fuel hlen (header.hasBitSignature tail), processBit, bind_of_ok hloop,
      processPayload_eq hin hbuffer, header.declaredSize_encode tail hsmall, hstart]
  have htake := take_payloadBuffer (Nat.le_of_lt hin)
  have hdrop := drop_alignSize (Nat.le_of_lt hin)
  rw [hstart, List.drop_left] at htake hdrop
  refine ⟨_, ?_, hrun⟩
  exact ⟨ht.tags, ht.delivered, htake, (congrArg File.content ht.file).trans hdrop⟩

/-- A header that does not end inside the first read is refused. -/
theorem header_refused (header : BitHeader) (tail : List UInt8)
    (hlen : 64 ≤ (header.encode ++ tail).length)
    (hlong : firstRead (header.encode ++ tail) ≤ header.encode.length) :
    ∃ t, run callback fuel ⟨header.encode ++ tail⟩ k = .error (.throws .truncatedFile) t ∧
      delivered t.trace = [] ∧
      ∃ n ≤ header.items.length, processedTags t.trace = (header.items.take n).map BitItem.pair ∧
        ∀ i < header.items.length, i < n ↔
          header.itemEnd i < firstRead (header.encode ++ tail) := by
  have hlength := header.encode_length
  obtain ⟨n, hn, hitems, hends⟩ := scan_header header tail
  have hdata := header.bitData_encode tail
  have hstops : wp (processFile callback fuel) (fun _ _ => False)
      (fun e t => e = .throws .truncatedFile ∧ delivered t.trace = [] ∧
        processedTags t.trace = (header.items.take n).map BitItem.pair)
      ⟨⟨header.encode ++ tail⟩, k, [], [], []⟩ := by
    rw [wp_processFile, if_neg (Nat.not_lt.mpr hlen), if_pos (header.hasBitSignature tail),
      processBit, wp_bind]
    refine (bit_tagLoop hverify k (header.encode ++ tail)).mono ?_ ?_
    · rintro d t ⟨hd, ht⟩
      rw [hitems] at ht
      rw [hdata] at hd
      have hbehind : firstRead (header.encode ++ tail) ≤ d + 5 := by
        split_ifs at hd with hin
        have := Option.some.inj hd
        omega
      rw [processPayload, if_pos hbehind, wp_throw]
      exact ⟨rfl, ht.delivered, ht.tags⟩
    · rintro e t ⟨-, rfl, ht⟩
      rw [hitems] at ht
      exact ⟨rfl, ht.delivered, ht.tags⟩
  obtain ⟨_, t, heq, rfl, hdelivered, htags⟩ := hstops.stops
  exact ⟨t, heq, hdelivered, n, hn, htags, hends⟩

end Runs

/-- The tag loop decodes what an encoder has written, as far as it ends inside the first read, and
stays inside of what has been read for any file. -/
theorem tags_decoded {κ : Type} {callback : FpgaImageReaderCallback κ}
    (hverify : ∀ id k, ∃ t, callback.verifyStaticID id k = .ok () t) (k : κ) (fuel : Nat) :
    (∀ (header : BitHeader) (tail : List UInt8), 64 ≤ (header.encode ++ tail).length →
      header.encode.length < firstRead (header.encode ++ tail) →
      (∃ s : ReaderState κ, AtPayload header tail s ∧
        run callback fuel ⟨header.encode ++ tail⟩ k =
          processData callback fuel header.size
            (firstRead (header.encode ++ tail) - header.encode.length) s) ∧
      processedTags (finalState (processFile callback fuel)
        ⟨⟨header.encode ++ tail⟩, k, [], [], []⟩).trace = header.items.map BitItem.pair) ∧
    (∀ (header : BitHeader) (tail : List UInt8), 64 ≤ (header.encode ++ tail).length →
      firstRead (header.encode ++ tail) ≤ header.encode.length →
      ∃ t, run callback fuel ⟨header.encode ++ tail⟩ k = .error (.throws .truncatedFile) t ∧
        delivered t.trace = [] ∧
        ∃ n ≤ header.items.length,
          processedTags t.trace = (header.items.take n).map BitItem.pair ∧
          ∀ i < header.items.length, i < n ↔
            header.itemEnd i < firstRead (header.encode ++ tail)) ∧
    (∀ content : List UInt8, 64 ≤ content.length → HasBitSignature content →
      wp (tagLoop callback (firstRead content) 13) (fun d _ => d < firstRead content)
        (fun e _ => e = .throws .truncatedFile) (headerState ⟨⟨content⟩, k, [], [], []⟩) ∧
      ∃ items : List TagItem, 13 + 3 * items.length < firstRead content ∧
        (∀ item ∈ items, item.value + item.size < firstRead content) ∧
        processedTags (finalState (processFile callback fuel)
          ⟨⟨content⟩, k, [], [], []⟩).trace = items.map (TagItem.read content)) := by
  refine ⟨fun header tail => header_decoded hverify k fuel header tail,
    fun header tail => header_refused hverify k fuel header tail, ?_⟩
  intro content hlen hbit
  have hstart : 13 < firstRead content := by
    rw [firstRead, alignSize_eq]
    omega
  obtain ⟨hinside, hcount, hfound⟩ :=
    scanTags_inside (firstBuffer content) hstart
  refine ⟨?_, bitItems content, hcount, hinside, ?_⟩
  · refine (bit_tagLoop hverify k content).mono ?_ fun _ _ he => he.2.1
    rintro d t ⟨hd, -⟩
    exact hfound d hd
  · rw [bit_run_tags hverify k fuel hlen hbit]
    apply List.map_congr_left
    intro item hitem
    rw [TagItem.read, TagItem.read,
      slice_congr (take_firstRead content) (Nat.le_of_lt (hinside item hitem))]

theorem tags_decoded_plain :
    (∃ s, AtPayload (plainHeader 100 (by decide)) (List.replicate 100 7) s ∧
      run (FpgaImageFileWriter.callback appendToFile) 0
          ⟨(plainHeader 100 (by decide)).encode ++ List.replicate 100 7⟩ ⟨[], []⟩ =
        processData (FpgaImageFileWriter.callback appendToFile) 0 100
          (firstRead ((plainHeader 100 (by decide)).encode ++ List.replicate 100 7) -
            (plainHeader 100 (by decide)).encode.length) s) ∧
    processedTags (finalState (processFile (FpgaImageFileWriter.callback appendToFile) 0)
      ⟨⟨(plainHeader 100 (by decide)).encode ++ List.replicate 100 7⟩, ⟨[], []⟩, [], [],
        []⟩).trace = [(97, [])] := by
  have hverify : ∀ id k, ∃ t,
      (FpgaImageFileWriter.callback appendToFile).verifyStaticID id k = .ok () t :=
    fun _ w => ⟨w, rfl⟩
  have hlength : ((plainHeader 100 (by decide)).encode ++ List.replicate 100 7).length = 121 := by
    rw [List.length_append, List.length_replicate]
    rfl
  have hfits : (plainHeader 100 (by decide)).encode.length <
      firstRead ((plainHeader 100 (by decide)).encode ++ List.replicate 100 7) := by
    rw [firstRead, hlength]
    decide
  exact (tags_decoded hverify ⟨[], []⟩ 0).1 (plainHeader 100 (by decide)) (List.replicate 100 7)
    (by rw [hlength]; decide) hfits

end Dyplo
