import Dyplo.Image.Invariance
import Dyplo.Image.Payload

/-!
# The bounds of the internal buffer

The chunks of a payload are as long as the callback grants. They fit the internal buffer if the
callback never grants more than that, or if the whole payload does not ask for more.
-/

namespace Dyplo

/-- An access that stays inside the internal buffer. -/
def ImageEvent.InBounds : ImageEvent → Prop
  | .readBuffer offset count => offset + count ≤ bufferSize
  | .swapBuffer words => 4 * words ≤ bufferSize
  | _ => True

/-- Every access so far. -/
def InBounds (trace : List ImageEvent) : Prop := ∀ event ∈ trace, event.InBounds

private theorem InBounds.emit {trace : List ImageEvent} {event : ImageEvent} (h : InBounds trace)
    (hevent : event.InBounds) : InBounds (trace ++ [event]) := by
  intro e he
  rcases List.mem_append.mp he with he | he
  · exact h e he
  · rw [List.mem_singleton.mp he]
    exact hevent

/-- A callback that grants up to `cap` bytes. Only one that grants more than the internal buffer
holds has to take all it is told to. -/
structure FpgaImageReaderCallback.GrantsUpTo {κ : Type} (callback : FpgaImageReaderCallback κ)
    (cap : Nat) (known : Nat → Prop) (I : κ → Prop) : Prop where
  beginProcessData : ∀ n k, I k →
    wp (callback.beginProcessData n) (fun r t => r.2 = min n cap ∧ I t) (fun _ _ => True) k
  endProcessData : ∀ data n k, I k →
    wp (callback.endProcessData data n) (fun m t => (bufferSize < cap → m = n) ∧ I t)
      (fun _ _ => True) k
  verifyStaticID : ∀ id k, I k →
    wp (callback.verifyStaticID id) (fun _ t => known id ∧ I t) (fun _ _ => True) k

/-- A `.bit` image with accepted IDs, so large that its second chunk does not fit the internal
buffer, of which the file holds at least the first `ALIGN_SIZE` bytes. -/
structure Overruns (known : Nat → Prop) (content : List UInt8) : Prop where
  length : 64 ≤ content.length
  signature : HasBitSignature content
  known : ∀ item ∈ bitItems content, ∀ userId,
    item.staticID (firstBuffer content) = some userId → known userId
  payload : ∃ data, bitData content = some data ∧ data + 5 < alignSize ∧
    alignSize + (data + 5) ≤ content.length ∧
    alignSize + bufferSize < parseU32 ((firstBuffer content).drop (data + 1))

namespace FpgaImageReader

variable {κ : Type} {callback : FpgaImageReaderCallback κ} {cap : Nat} {known : Nat → Prop}
  {I : κ → Prop} {s : ReaderState κ}

/-- Between the steps of the reader. -/
def Bounded (I : κ → Prop) (s : ReaderState κ) : Prop := InBounds s.trace ∧ I s.callback

private theorem beginProcessData_bounds (h : callback.GrantsUpTo cap known I) (hs : Bounded I s)
    (n : Nat) :
    wp (beginProcessData callback n)
      (fun g t => g = min n cap ∧ Bounded I t ∧ t.file = s.file)
      (fun _ t => InBounds t.trace) s := by
  rw [wp_beginProcessData]
  refine (h.beginProcessData n _ hs.2).mono ?_ fun _ _ _ => hs.1
  rintro r k ⟨hgrant, hk⟩
  exact ⟨hgrant, ⟨InBounds.emit hs.1 trivial, hk⟩, rfl⟩

private theorem endProcessData_bounds (h : callback.GrantsUpTo cap known I) (hs : Bounded I s)
    (n : Nat) :
    wp (endProcessData callback n) (fun m t => (bufferSize < cap → m = n) ∧ Bounded I t)
      (fun _ t => InBounds t.trace) s := by
  rw [wp_endProcessData]
  refine (h.endProcessData _ n _ hs.2).mono ?_ fun _ _ _ => InBounds.emit hs.1 trivial
  rintro m k ⟨htaken, hk⟩
  exact ⟨htaken, InBounds.emit hs.1 trivial, hk⟩

private theorem verifyStaticID_bounds (h : callback.GrantsUpTo cap known I) (hs : Bounded I s)
    (id : Nat) :
    wp (verifyStaticID callback id)
      (fun _ t => known id ∧ Bounded I t ∧ t.file = s.file ∧ t.buffer = s.buffer)
      (fun _ t => InBounds t.trace) s := by
  rw [wp_verifyStaticID]
  refine (h.verifyStaticID id _ hs.2).mono ?_ fun _ _ _ => InBounds.emit hs.1 trivial
  rintro _ k ⟨hknown, hk⟩
  exact ⟨hknown, ⟨InBounds.emit hs.1 trivial, hk⟩, rfl, rfl⟩

private theorem readBuffer_bounds (hs : Bounded I s) {offset count : Nat}
    (hfits : offset + count ≤ bufferSize) :
    wp (readBuffer offset count)
      (fun n t => n = min count s.file.content.length ∧ Bounded I t)
      (fun _ t => InBounds t.trace) s := by
  rw [wp_readBuffer]
  split_ifs
  · exact InBounds.emit hs.1 hfits
  · exact ⟨s.file.readAll_length count, InBounds.emit hs.1 hfits, hs.2⟩

private theorem swapBuffer_bounds (hs : Bounded I s) {n : Nat} (hfits : n ≤ bufferSize) :
    wp (swapBuffer (n >>> 2)) (fun _ t => Bounded I t) (fun _ t => InBounds t.trace) s := by
  have hwords := Nat.le_trans (four_mul_words_le n) hfits
  rw [wp_swapBuffer]
  split_ifs
  · exact InBounds.emit hs.1 hwords
  · exact ⟨InBounds.emit hs.1 hwords, hs.2⟩

/-- The requests of the loop fit if the grants do, or if the rest of the payload does. -/
theorem payloadLoop_bounds (h : callback.GrantsUpTo cap known I) {size : Nat} (fuel total : Nat)
    (hfits : total < size → cap ≤ bufferSize ∨ alignSize ≤ total ∧ size ≤ alignSize + bufferSize)
    (hs : Bounded I s) :
    wp (payloadLoop callback size fuel total) (fun _ t => InBounds t.trace)
      (fun _ t => InBounds t.trace) s := by
  induction fuel generalizing total s with
  | zero =>
    rw [payloadLoop, wp_ite, wp_throw, wp_pure]
    split_ifs <;> exact hs.1
  | succ fuel ih =>
    rw [payloadLoop, wp_ite, wp_pure]
    split_ifs with hmore
    · rw [wp_bind]
      refine (beginProcessData_bounds h hs _).mono ?_ fun _ _ ht => ht
      rintro g s₁ ⟨hg, hs₁, -⟩
      have hfit := hfits hmore
      have hgrant : g ≤ bufferSize := by omega
      rw [wp_bind]
      refine (readBuffer_bounds hs₁ (by omega)).mono ?_ fun _ _ ht => ht
      rintro n s₂ ⟨hn, hs₂⟩
      rw [wp_ite, wp_throw]
      split_ifs with hshort
      · exact hs₂.1
      · rw [wp_bind]
        refine (swapBuffer_bounds hs₂ (by omega)).mono ?_ fun _ _ ht => ht
        intro _ s₃ hs₃
        rw [wp_bind]
        refine (endProcessData_bounds h hs₃ g).mono ?_ fun _ _ ht => ht
        rintro m s₄ ⟨hm, hs₄⟩
        rw [wp_ite, wp_throw]
        split_ifs with hrefused
        · exact hs₄.1
        · refine ih _ (fun _ => ?_) hs₄
          by_cases hcap : cap ≤ bufferSize
          · exact .inl hcap
          · have htaken := hm (by omega)
            have := alignSize_eq
            have := bufferSize_eq
            right
            omega
    · exact hs.1

private theorem alignFirst_bounds {size total : Nat} (hpos : 0 < total) (htotal : total < alignSize)
    (hs : Bounded I s) :
    wp (alignFirst size total)
      (fun n t => (n = size ∧ size ≤ total ∨
        n = alignSize ∧ alignSize ≤ total + s.file.content.length) ∧ Bounded I t)
      (fun _ t => InBounds t.trace) s := by
  have hmod : total % alignSize = total := Nat.mod_eq_of_lt htotal
  have halign := alignSize_eq
  have hsize := bufferSize_eq
  rw [alignFirst, wp_ite, wp_pure, wp_ite, hmod, if_neg (Nat.pos_iff_ne_zero.mp hpos)]
  split_ifs with hend
  · exact ⟨.inl ⟨rfl, hend⟩, hs⟩
  · rw [wp_bind]
    refine (readBuffer_bounds hs (by omega)).mono ?_ fun _ _ ht => ht
    rintro n t ⟨hn, ht⟩
    rw [wp_ite, wp_throw, wp_pure]
    split_ifs with hshort
    · exact ht.1
    · exact ⟨.inr ⟨by omega, by omega⟩, ht⟩

private theorem processPayload_bounds (h : callback.GrantsUpTo cap known I) {fuel bytes data : Nat}
    (hbytes : bytes ≤ alignSize) (hs : Bounded I s)
    (hfits : cap ≤ bufferSize ∨ alignSize ≤ cap ∧ (data + 5 < bytes →
      alignSize ≤ bytes - (data + 5) + s.file.content.length →
        parseU32 (s.buffer.drop (data + 1)) ≤ alignSize + bufferSize)) :
    wp (processPayload callback fuel bytes data) (fun _ t => InBounds t.trace)
      (fun _ t => InBounds t.trace) s := by
  have halign := alignSize_eq
  have hsize := bufferSize_eq
  rw [processPayload, wp_ite, wp_throw]
  split_ifs with hend
  · exact hs.1
  · simp only [wp_bind, wp_get, wp_set, wp_pure, firstBlock]
    have hpos : 0 < bytes - (data + 5) := by omega
    have htotal : bytes - (data + 5) < alignSize := by omega
    have hmoved : ∀ buffer, Bounded I { s with buffer := buffer } := fun _ => hs
    refine (alignFirst_bounds hpos htotal (hmoved _)).mono ?_ fun _ _ ht => ht
    rintro n s₁ ⟨hn, hs₁⟩
    have hsmall : n ≤ alignSize := by omega
    refine (beginProcessData_bounds h hs₁ n).mono ?_ fun _ _ ht => ht
    rintro g s₂ ⟨hg, hs₂, -⟩
    have hword : g % 2 ^ 32 = g := Nat.mod_eq_of_lt (by omega)
    rw [hword]
    refine (swapBuffer_bounds hs₂ (by omega)).mono ?_ fun _ _ ht => ht
    intro _ s₃ hs₃
    refine (endProcessData_bounds h hs₃ g).mono ?_ fun _ _ ht => ht
    rintro m s₄ ⟨hm, hs₄⟩
    rw [wp_ite, wp_throw, wp_pure]
    split_ifs with hrefused
    · exact hs₄.1
    · refine payloadLoop_bounds h fuel g (fun hmore => ?_) hs₄
      by_cases hcap : cap ≤ bufferSize
      · exact .inl hcap
      · obtain ⟨hmin, hpayload⟩ := hfits.resolve_left hcap
        rcases hn with ⟨hn, -⟩ | ⟨hn, hfile⟩
        · omega
        · exact .inr ⟨by omega, hpayload (by omega) hfile⟩

private theorem tagLoop_bounds (h : callback.GrantsUpTo cap known I) {bytes data : Nat}
    (hs : Bounded I s) :
    wp (tagLoop callback bytes data)
      (fun d t => (scanTags s.buffer bytes data).2 = some d ∧
        (∀ item ∈ (scanTags s.buffer bytes data).1, ∀ userId,
          item.staticID s.buffer = some userId → known userId) ∧
        Bounded I t ∧ t.file = s.file ∧ t.buffer = s.buffer)
      (fun _ t => InBounds t.trace) s := by
  rw [wp_tagLoop bytes data rfl]
  refine (wp_forM_forall
    (I := fun t => Bounded I t ∧ t.file = s.file ∧ t.buffer = s.buffer)
    (P := fun item => ∀ userId, item.staticID s.buffer = some userId → known userId)
    ?_ ⟨hs, rfl, rfl⟩).mono ?_ fun _ _ ht => ht
  · rintro item _ t ⟨ht, hfile, hbuffer⟩
    rw [wp_processItem]
    have hemit : InBounds (t.trace ++ [.processTag item.tag
      ((s.buffer.drop item.value).take item.size)]) := ht.1.emit trivial
    cases hid : item.staticID s.buffer with
    | none => exact ⟨nofun, ⟨hemit, ht.2⟩, hfile, hbuffer⟩
    | some userId =>
      have ht' : Bounded I { t with trace := _ } := ⟨hemit, ht.2⟩
      refine (verifyStaticID_bounds h ht' userId).mono ?_ fun _ _ hu => hu
      rintro _ u ⟨hknown, hu, hfile', hbuffer'⟩
      refine ⟨?_, hu, hfile'.trans hfile, hbuffer'.trans hbuffer⟩
      intro _ hsome
      exact Option.some.inj hsome ▸ hknown
  · rintro _ t ⟨hall, ht, hfile, hbuffer⟩
    cases hscan : (scanTags s.buffer bytes data).2 with
    | none => exact ht.1
    | some d => exact ⟨rfl, hall, ht, hfile, hbuffer⟩

private theorem processRaw_inBounds (fuel bytes : Nat) :
    Keeps (fun s => InBounds s.trace) (fun _ => True) (processRaw callback fuel bytes) := by
  have hverify : ∀ id, Keeps (fun s => InBounds s.trace) (fun _ => True)
      (verifyStaticID callback id) := fun id s hs =>
    (wp_verifyStaticID id).mpr (wp_of_forall (fun _ _ => hs.emit trivial) fun _ _ =>
      ⟨trivial, hs.emit trivial⟩)
  have hcheck : Keeps (fun s => InBounds s.trace) (fun _ => True) (checkRaw callback) :=
    .get_bind fun _ _ => .ite (fun _ => .pure _) fun _ =>
      .ite (fun _ => hverify _) fun _ => .throw trivial
  refine .bind hcheck fun _ => ?_
  exact processRawData_keeps ⟨trivial, trivial, trivial⟩ (fun _ _ _ _ hs => hs.emit trivial)
    (.of_trace (fun _ _ _ hs => hs.emit trivial) fun _ _ hs => hs.emit trivial)
    (fun _ _ _ hs => hs.emit trivial) fuel bytes

/-- Only an image that overruns the buffer of a callback with larger blocks leaves its bounds. -/
theorem processFile_inBounds (h : callback.GrantsUpTo cap known I) {k : κ} (hk : I k)
    {content : List UInt8} (hfits : cap ≤ bufferSize ∨ alignSize ≤ cap ∧ ¬ Overruns known content)
    (fuel : Nat) :
    wp (processFile callback fuel) (fun _ t => InBounds t.trace) (fun _ t => InBounds t.trace)
      ⟨⟨content⟩, k, [], [], []⟩ := by
  have hread : InBounds ([] ++ [.readBuffer 0 alignSize]) :=
    InBounds.emit nofun (show 0 + alignSize ≤ bufferSize by decide)
  rw [wp_processFile]
  split_ifs with hshort hbit
  · exact hread
  · have hs : Bounded I (headerState ⟨⟨content⟩, k, [], [], []⟩) := ⟨hread, hk⟩
    rw [processBit, wp_bind]
    refine (tagLoop_bounds h hs).mono ?_ fun _ _ ht => ht
    rintro data t ⟨hdata, hknown, ht, hfile, hbuffer⟩
    refine processPayload_bounds h (Nat.min_le_left _ _) ht ?_
    rcases hfits with hcap | ⟨hmin, hoverruns⟩
    · exact .inl hcap
    · refine .inr ⟨hmin, fun hend hlen => ?_⟩
      by_contra hsize
      have hcontent : t.file.content.length = content.length - alignSize := by
        rw [hfile]
        exact List.length_drop
      have halign := alignSize_eq
      have hbytes : data + 5 < min alignSize content.length := hend
      have hread : alignSize ≤ min alignSize content.length - (data + 5) +
        t.file.content.length := hlen
      rw [hbuffer] at hsize
      exact hoverruns ⟨Nat.le_of_not_lt hshort, hbit, hknown, data, hdata, by omega, by omega,
        Nat.lt_of_not_le hsize⟩
  · exact (processRaw_inBounds _ _ _ hread).mono (fun _ _ ht => ht) fun _ _ he => he.2

variable {ready : List Delivery → κ → Prop} {granted : List Delivery → Nat → κ → Prop}

/-- A chunk that does not fit the internal buffer leaves its bounds, even where the file ends
before. -/
theorem payloadLoop_overruns
    (h : callback.Accepts (fun n g => g = min n cap) known ready granted fun _ => False)
    (hcap : bufferSize < cap) {size total : Nat} (hsize : total + bufferSize < size) (fuel : Nat)
    (hs : ready (deliveries s.trace) s.callback) (hlen : s.buffer.length = bufferSize) :
    wp (payloadLoop callback size (fuel + 1) total) (fun _ _ => False)
      (fun _ t => ¬ InBounds t.trace) s := by
  rw [payloadLoop, wp_ite, if_pos (by omega), wp_bind]
  refine (beginProcessData_spec h _ hs).mono ?_ fun _ _ hf => hf.elim
  rintro g s₁ ⟨hg, -, -, -, hbuffer⟩
  have houtside : ¬ InBounds (s₁.trace ++ [.readBuffer 0 g]) := by
    intro hall
    have hread : 0 + g ≤ bufferSize :=
      hall _ (List.mem_append_right _ (List.mem_singleton_self _))
    omega
  rw [wp_bind, wp_readBuffer]
  by_cases hlong : s₁.buffer.length < 0 + (s₁.file.readAll g).1.length
  · rw [if_pos hlong]
    exact houtside
  · rw [hbuffer, hlen] at hlong
    rw [hbuffer, hlen, if_neg hlong, if_pos (by omega), wp_throw]
    exact houtside

/-- With blocks that are larger than the internal buffer, the second chunk of such an image is
read past the end of the buffer. -/
theorem processFile_overruns
    (h : callback.Accepts (fun n g => g = min n cap) known ready granted fun _ => False)
    (hcap : bufferSize < cap) {k : κ} (hk : ready [] k) {content : List UInt8}
    (ho : Overruns known content) (fuel : Nat) :
    wp (processFile callback (fuel + 1)) (fun _ _ => False) (fun _ t => ¬ InBounds t.trace)
      ⟨⟨content⟩, k, [], [], []⟩ := by
  obtain ⟨data, hdata, hend, hlen, hsize⟩ := ho.payload
  have halign := alignSize_eq
  have hbufferSize := bufferSize_eq
  rw [wp_processFile, if_neg (Nat.not_lt.mpr ho.length), if_pos ho.signature]
  have hfirst : firstRead content = min alignSize content.length := rfl
  have hin : data + 5 < firstRead content := by omega
  refine processBit_data h ho.known hk ?_ ?_
  · intro t hshort _
    exact absurd (hshort data hdata) (Nat.not_le.mpr hin)
  · intro d t hd _ hready _ hahead
    obtain rfl : data = d := Option.some.inj (hdata.symm.trans hd)
    change alignSize + bufferSize < declaredSize content data at hsize
    rw [processData, wp_bind]
    refine (firstBlock_spec h ?_ (fun hle => by omega) hready hahead).mono ?_ ?_
    · rintro n g rfl hn
      omega
    · rintro n u ⟨hn, hready', hlen', -⟩
      obtain ⟨-, hle⟩ | ⟨rfl, -⟩ := hn
      · omega
      · simp only [wp_bind, wp_pure]
        exact payloadLoop_overruns h hcap hsize fuel hready' hlen'
    · rintro e u ⟨-, -, hshort, -⟩
      rw [List.length_drop] at hshort
      omega

end FpgaImageReader

end Dyplo
