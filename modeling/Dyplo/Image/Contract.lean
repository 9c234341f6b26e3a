import Dyplo.Image.Reader

/-!
# Rules for the steps of the reader

Each step of `processFile` has one rule that says what it does to the state. What the callback
has to offer to the steps that call it is its contract.
-/

namespace Dyplo

/-- What a callback is told, in order. -/
inductive Delivery
  | staticID (id : Nat)
  | data (bytes : List UInt8)

@[simp]
def ImageEvent.delivery : ImageEvent → Option Delivery
  | .verifyStaticID id => some (.staticID id)
  | .endProcessData bytes => some (.data bytes)
  | _ => none

def deliveries (trace : List ImageEvent) : List Delivery := trace.filterMap ImageEvent.delivery

def Delivery.bytes : Delivery → List UInt8
  | .staticID _ => []
  | .data bytes => bytes

def Delivery.chunk : Delivery → Option (List UInt8)
  | .staticID _ => none
  | .data bytes => some bytes

/-- The chunks among the deliveries. -/
def chunks (ds : List Delivery) : List (List UInt8) := ds.filterMap Delivery.chunk

@[simp]
theorem chunks_append (ds ds' : List Delivery) : chunks (ds ++ ds') = chunks ds ++ chunks ds' :=
  List.filterMap_append

@[simp]
theorem chunks_data (xs : List (List UInt8)) : chunks (xs.map .data) = xs := by
  rw [chunks, List.filterMap_map]
  exact List.filterMap_some

/-- The bytes passed to `endProcessData`, concatenated. -/
def delivered (trace : List ImageEvent) : List UInt8 := (deliveries trace).flatMap Delivery.bytes

@[simp]
theorem deliveries_emit (trace : List ImageEvent) (event : ImageEvent) :
    deliveries (trace ++ [event]) = deliveries trace ++ event.delivery.toList := by
  rw [deliveries, List.filterMap_append]
  cases event <;> rfl

namespace FpgaImageReader

variable {κ : Type} {callback : FpgaImageReaderCallback κ} {s : ReaderState κ}
  {E : Stop → ReaderState κ → Prop}

@[simp]
theorem wp_emit {Q : Unit → ReaderState κ → Prop} (event : ImageEvent) :
    wp (emit event) Q E s ↔ Q () { s with trace := s.trace ++ [event] } := wp_modify _

@[simp]
theorem wp_call {α : Type} {c : EStateM Stop κ α} {Q : α → ReaderState κ → Prop} :
    wp (call c) Q E s ↔ wp c (fun a k => Q a { s with callback := k })
      (fun e k => E e { s with callback := k }) s.callback := by
  unfold wp call
  cases c s.callback <;> rfl

variable {Q : Nat → ReaderState κ → Prop}

theorem wp_beginProcessData (n : Nat) :
    wp (beginProcessData callback n) Q E s ↔
      wp (callback.beginProcessData n)
        (fun r k => Q r.2 { s with
          callback := k, cbBuffer := r.1, trace := s.trace ++ [.beginProcessData n r.2] })
        (fun e k => E e { s with callback := k }) s.callback := by
  simp [beginProcessData]

theorem wp_endProcessData (n : Nat) :
    wp (endProcessData callback n) Q E s ↔
      wp (callback.endProcessData s.cbBuffer n)
        (fun m k => Q m { s with
          callback := k, trace := s.trace ++ [.endProcessData (s.cbBuffer.take n)] })
        (fun e k => E e { s with
          callback := k, trace := s.trace ++ [.endProcessData (s.cbBuffer.take n)] })
        s.callback := by
  simp [endProcessData]

theorem wp_verifyStaticID {Q : Unit → ReaderState κ → Prop} (id : Nat) :
    wp (verifyStaticID callback id) Q E s ↔
      wp (callback.verifyStaticID id)
        (fun _ k => Q () { s with callback := k, trace := s.trace ++ [.verifyStaticID id] })
        (fun e k => E e { s with callback := k, trace := s.trace ++ [.verifyStaticID id] })
        s.callback := by
  simp [verifyStaticID]

theorem wp_readBuffer (offset count : Nat) :
    wp (readBuffer offset count) Q E s ↔
      if s.buffer.length < offset + (s.file.readAll count).1.length then
        E .undefined { s with trace := s.trace ++ [.readBuffer offset count] }
      else Q (s.file.readAll count).1.length { s with
        file := (s.file.readAll count).2
        buffer := overlay s.buffer offset (s.file.readAll count).1
        trace := s.trace ++ [.readBuffer offset count] } := by
  simp [readBuffer]

theorem wp_readCallback (count : Nat) :
    wp (readCallback count) Q E s ↔ Q (s.file.readAll count).1.length { s with
      file := (s.file.readAll count).2
      cbBuffer := overlay s.cbBuffer 0 (s.file.readAll count).1
      trace := s.trace ++ [.readCallback count (s.file.readAll count).1.length] } := by
  simp [readCallback]

theorem wp_swapBuffer {Q : Unit → ReaderState κ → Prop} (words : Nat) :
    wp (swapBuffer words) Q E s ↔
      if s.buffer.length < 4 * words then
        E .undefined { s with trace := s.trace ++ [.swapBuffer words] }
      else Q () { s with
        cbBuffer := overlay s.cbBuffer 0 (swapBufferAligned s.buffer words)
        trace := s.trace ++ [.swapBuffer words] } := by
  simp [swapBuffer]

theorem wp_copyBuffer {Q : Unit → ReaderState κ → Prop} (count : Nat) :
    wp (copyBuffer count) Q E s ↔
      if s.buffer.length < count then
        E .undefined { s with trace := s.trace ++ [.copyBuffer count] }
      else Q () { s with
        cbBuffer := overlay s.cbBuffer 0 (s.buffer.take count)
        trace := s.trace ++ [.copyBuffer count] } := by
  simp [copyBuffer]

end FpgaImageReader

/-- A callback that takes an image unless it stops in `fails`. `grants` relates a request to its
grant and `known` holds of the accepted static IDs; `ready` and `granted` say what its state has
to do with the deliveries so far, `granted` while a grant is open. -/
structure FpgaImageReaderCallback.Accepts {κ : Type} (callback : FpgaImageReaderCallback κ)
    (grants : Nat → Nat → Prop) (known : Nat → Prop) (ready : List Delivery → κ → Prop)
    (granted : List Delivery → Nat → κ → Prop) (fails : Stop → Prop) : Prop where
  ready_of_granted : ∀ ds g k, granted ds g k → ready ds k
  beginProcessData : ∀ ds n k, ready ds k →
    wp (callback.beginProcessData n) (fun r t => grants n r.2 ∧ granted ds r.2 t)
      (fun e _ => fails e) k
  endProcessData : ∀ ds g data n k, granted ds g k → n ≤ g → n ≤ data.length →
    wp (callback.endProcessData data n) (fun m t => m = n ∧ ready (ds ++ [.data (data.take n)]) t)
      (fun e _ => fails e) k
  verifyStaticID : ∀ ds id k, ready ds k → known id →
    wp (callback.verifyStaticID id) (fun _ t => ready (ds ++ [.staticID id]) t)
      (fun e _ => fails e) k

theorem FpgaImageReaderCallback.Accepts.mono {κ : Type} {callback : FpgaImageReaderCallback κ}
    {grants grants' : Nat → Nat → Prop} {known : Nat → Prop} {ready : List Delivery → κ → Prop}
    {granted : List Delivery → Nat → κ → Prop} {fails fails' : Stop → Prop}
    (h : callback.Accepts grants known ready granted fails)
    (hgrants : ∀ n g, grants n g → grants' n g) (hfails : ∀ e, fails e → fails' e) :
    callback.Accepts grants' known ready granted fails' where
  ready_of_granted := h.ready_of_granted
  beginProcessData ds n k hk := (h.beginProcessData ds n k hk).mono
    (fun _ _ hr => ⟨hgrants _ _ hr.1, hr.2⟩) fun e _ => hfails e
  endProcessData ds g data n k hk hn hlen :=
    (h.endProcessData ds g data n k hk hn hlen).mono (fun _ _ hr => hr) fun e _ => hfails e
  verifyStaticID ds id k hk hid :=
    (h.verifyStaticID ds id k hk hid).mono (fun _ _ hr => hr) fun e _ => hfails e

namespace FpgaImageReader

variable {κ : Type} {callback : FpgaImageReaderCallback κ} {grants : Nat → Nat → Prop}
  {known : Nat → Prop} {ready : List Delivery → κ → Prop}
  {granted : List Delivery → Nat → κ → Prop} {fails : Stop → Prop} {s : ReaderState κ}

theorem beginProcessData_spec (h : callback.Accepts grants known ready granted fails) (n : Nat)
    (hs : ready (deliveries s.trace) s.callback) :
    wp (beginProcessData callback n)
      (fun g t => grants n g ∧ granted (deliveries t.trace) g t.callback ∧
        deliveries t.trace = deliveries s.trace ∧ t.file = s.file ∧ t.buffer = s.buffer)
      (fun e _ => fails e) s := by
  rw [wp_beginProcessData]
  refine (h.beginProcessData _ n _ hs).mono ?_ fun _ _ hf => hf
  rintro r k ⟨hgrant, hgranted⟩
  have hds : deliveries (s.trace ++ [.beginProcessData n r.2]) = deliveries s.trace := by simp
  refine ⟨hgrant, ?_, hds, rfl, rfl⟩
  rw [hds]
  exact hgranted

theorem endProcessData_spec (h : callback.Accepts grants known ready granted fails) {g n : Nat}
    (hs : granted (deliveries s.trace) g s.callback) (hn : n ≤ g)
    (hlen : n ≤ s.cbBuffer.length) :
    wp (endProcessData callback n)
      (fun m t => m = n ∧ ready (deliveries t.trace) t.callback ∧
        deliveries t.trace = deliveries s.trace ++ [.data (s.cbBuffer.take n)] ∧
        t.file = s.file ∧ t.buffer = s.buffer)
      (fun e _ => fails e) s := by
  rw [wp_endProcessData]
  refine (h.endProcessData _ g s.cbBuffer n _ hs hn hlen).mono ?_ fun _ _ hf => hf
  rintro m k ⟨rfl, hready⟩
  have hds : deliveries (s.trace ++ [.endProcessData (s.cbBuffer.take m)]) =
      deliveries s.trace ++ [.data (s.cbBuffer.take m)] := by simp
  refine ⟨rfl, ?_, hds, rfl, rfl⟩
  rw [hds]
  exact hready

theorem verifyStaticID_spec (h : callback.Accepts grants known ready granted fails) {id : Nat}
    (hs : ready (deliveries s.trace) s.callback) (hid : known id) :
    wp (verifyStaticID callback id)
      (fun _ t => ready (deliveries t.trace) t.callback ∧
        deliveries t.trace = deliveries s.trace ++ [.staticID id] ∧
        t.file = s.file ∧ t.buffer = s.buffer)
      (fun e _ => fails e) s := by
  rw [wp_verifyStaticID]
  refine (h.verifyStaticID _ id _ hs hid).mono ?_ fun _ _ hf => hf
  intro _ k hready
  have hds : deliveries (s.trace ++ [.verifyStaticID id]) =
      deliveries s.trace ++ [.staticID id] := by simp
  refine ⟨?_, hds, rfl, rfl⟩
  rw [hds]
  exact hready

variable {E : Stop → ReaderState κ → Prop}

theorem readBuffer_spec {offset count : Nat} (hfits : offset + count ≤ s.buffer.length) :
    wp (readBuffer offset count)
      (fun n t => n = min count s.file.content.length ∧
        t.file.content = s.file.content.drop count ∧
        t.buffer = overlay s.buffer offset (s.file.content.take count) ∧
        t.callback = s.callback ∧ t.cbBuffer = s.cbBuffer ∧
        deliveries t.trace = deliveries s.trace)
      E s := by
  have hlen := s.file.readAll_length count
  rw [wp_readBuffer, if_neg (by omega)]
  exact ⟨hlen, rfl, rfl, rfl, rfl, by simp⟩

theorem readCallback_spec (count : Nat) :
    wp (readCallback count)
      (fun n t => n = min count s.file.content.length ∧
        t.file.content = s.file.content.drop count ∧
        t.cbBuffer.take n = s.file.content.take count ∧
        t.callback = s.callback ∧ deliveries t.trace = deliveries s.trace)
      E s := by
  rw [wp_readCallback]
  exact ⟨s.file.readAll_length count, rfl, take_overlay_zero, rfl, by simp⟩

theorem swapBuffer_spec {words : Nat} (hfits : 4 * words ≤ s.buffer.length) :
    wp (swapBuffer words)
      (fun _ t => t.cbBuffer.take (4 * words) =
          blockwise 4 List.reverse (s.buffer.take (4 * words)) ∧
        t.file = s.file ∧ t.buffer = s.buffer ∧ t.callback = s.callback ∧
        deliveries t.trace = deliveries s.trace)
      E s := by
  rw [wp_swapBuffer, if_neg (by omega)]
  refine ⟨?_, rfl, rfl, rfl, by simp⟩
  rw [← swapBufferAligned_eq hfits]
  exact take_overlay_of_length (swapBufferAligned_length s.buffer words)

theorem copyBuffer_spec {count : Nat} (hfits : count ≤ s.buffer.length) :
    wp (copyBuffer count)
      (fun _ t => t.cbBuffer.take count = s.buffer.take count ∧
        t.file = s.file ∧ t.callback = s.callback ∧ deliveries t.trace = deliveries s.trace)
      E s := by
  rw [wp_copyBuffer, if_neg (by omega)]
  refine ⟨?_, rfl, rfl, by simp⟩
  exact take_overlay_of_length (List.length_take_of_le hfits)

end FpgaImageReader

namespace FpgaImageReaderCallback

variable {κ : Type} (callback : FpgaImageReaderCallback κ)

/-- A callback that never fails and takes everything in the states `I`. -/
structure AcceptsAll (grants : Nat → Nat → Prop) (I : κ → Prop) : Prop where
  beginProcessData : ∀ n k, I k →
    wp (callback.beginProcessData n) (fun r t => grants n r.2 ∧ I t) (fun _ _ => False) k
  endProcessData : ∀ data n k, I k →
    wp (callback.endProcessData data n) (fun m t => m = n ∧ I t) (fun _ _ => False) k
  verifyStaticID : ∀ id k, I k →
    wp (callback.verifyStaticID id) (fun _ t => I t) (fun _ _ => False) k

theorem AcceptsAll.mono {callback : FpgaImageReaderCallback κ} {grants grants' : Nat → Nat → Prop}
    {I : κ → Prop} (h : callback.AcceptsAll grants I)
    (hgrants : ∀ n g, grants n g → grants' n g) : callback.AcceptsAll grants' I where
  beginProcessData n k hk :=
    (h.beginProcessData n k hk).mono (fun _ _ hr => ⟨hgrants _ _ hr.1, hr.2⟩) fun _ _ hf => hf
  endProcessData := h.endProcessData
  verifyStaticID := h.verifyStaticID

theorem AcceptsAll.accepts {callback : FpgaImageReaderCallback κ} {grants : Nat → Nat → Prop}
    {I : κ → Prop} (h : callback.AcceptsAll grants I) :
    callback.Accepts grants (fun _ => True) (fun _ => I) (fun _ _ => I) (fun _ => False) where
  ready_of_granted _ _ _ hk := hk
  beginProcessData _ n k hk := h.beginProcessData n k hk
  endProcessData _ _ data n k hk _ _ := h.endProcessData data n k hk
  verifyStaticID _ id k hk _ := h.verifyStaticID id k hk

end FpgaImageReaderCallback

/-- A grant of at least `BUFFER_SIZE`, as far as so much has been asked for. The reader counts a
larger first grant as processed (`raw_image_counts_grant`). -/
def GrantsBuffer (request grant : Nat) : Prop :=
  min request bufferSize ≤ grant ∧ grant ≤ request

theorem GrantsBuffer.eq {request grant : Nat} (h : GrantsBuffer request grant)
    (hn : request ≤ bufferSize) : grant = request := by
  obtain ⟨hle, hge⟩ := h
  omega

theorem GrantsBuffer.of_eq_min {request grant : Nat} (h : grant = min request bufferSize) :
    GrantsBuffer request grant := by
  rw [h]
  exact ⟨Nat.le_refl _, Nat.min_le_left _ _⟩

end Dyplo
