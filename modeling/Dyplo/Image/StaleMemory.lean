import Dyplo.Image.TagDecoding
import Dyplo.Library.Agreement
import Dyplo.Library.TraceCheck

/-!
# Stale memory in a `.bit` image

The callback's buffer is filled word by word and handed over byte by byte. The bytes behind the
last complete word of a payload are what the buffer has held before.
-/

namespace Dyplo

/-- The bytes from the start of the callback's buffer that have been written since the last
`beginProcessData`. -/
def ImageEvent.written (n : Nat) : ImageEvent → Nat
  | .beginProcessData .. => 0
  | .swapBuffer words => max n (4 * words)
  | .copyBuffer count => max n count
  | .readCallback _ read => max n read
  | _ => n

/-- Every `endProcessData` takes bytes only that have been written since `beginProcessData`. -/
def writtenCheck : TraceCheck Nat ImageEvent where
  start := 0
  next := ImageEvent.written
  ok := fun n event => ∀ bytes, event = .endProcessData bytes → bytes.length ≤ n

abbrev writtenBytes (trace : List ImageEvent) : Nat := writtenCheck.summary trace

abbrev Fresh (trace : List ImageEvent) : Prop := writtenCheck.Passes trace

private theorem writtenBytes_emit (trace : List ImageEvent) (event : ImageEvent) :
    writtenBytes (trace ++ [event]) = event.written (writtenBytes trace) :=
  writtenCheck.summary_emit trace event

/-- What `write(2)` does: it looks at no more than it is told to, and does not take more. -/
structure WriteCall {σ : Type} (write : List UInt8 → Nat → EStateM Nat σ Nat) : Prop where
  congr : ∀ data data' count file, data.take count = data'.take count →
    write data count file = write data' count file
  le : ∀ data count file n file', write data count file = .ok n file' → n ≤ count

private theorem appendToFile_writeCall : WriteCall appendToFile where
  congr data data' count file h := by
    change EStateM.Result.ok count (file ++ data.take count) = .ok count (file ++ data'.take count)
    rw [h]
  le data count file n file' h := by
    cases h
    exact Nat.le_refl _

namespace FpgaImageReader

variable {σ : Type} {write : List UInt8 → Nat → EStateM Nat σ Nat}

/-- Two readers that differ at most in what the callback's memory holds. -/
structure Alike (s t : ReaderState (FpgaImageFileWriter σ)) : Prop where
  file : s.file = t.file
  buffer : s.buffer = t.buffer
  trace : s.trace = t.trace
  output : s.callback.outputFile = t.callback.outputFile
  left : s.callback.buffer.length = bufferSize
  right : t.callback.buffer.length = bufferSize
  fresh : Fresh s.trace

private theorem beginProcessData_ok (n : Nat) (w : FpgaImageFileWriter σ) :
    (FpgaImageFileWriter.callback write).beginProcessData n w =
      .ok (w.buffer, min n bufferSize) w := by
  have hgrant : (if bufferSize < n then bufferSize else n) = min n bufferSize := by
    split_ifs <;> omega
  rw [← hgrant]
  rfl

private theorem endProcessData_of_ok {data : List UInt8} {n m : Nat} {w : FpgaImageFileWriter σ}
    {file : σ}
    (h : write data n w.outputFile = .ok m file) :
    (FpgaImageFileWriter.callback write).endProcessData data n w = .ok m ⟨file, data⟩ := by
  change FpgaImageFileWriter.writeOutput write n { w with buffer := data } = _
  simp only [FpgaImageFileWriter.writeOutput, h]

private theorem endProcessData_of_error {data : List UInt8} {n errno : Nat}
    {w : FpgaImageFileWriter σ}
    {file : σ} (h : write data n w.outputFile = .error errno file) :
    (FpgaImageFileWriter.callback write).endProcessData data n w =
      .error (.throws (.ioException ⟨errno, ""⟩)) ⟨file, data⟩ := by
  change FpgaImageFileWriter.writeOutput write n { w with buffer := data } = _
  simp only [FpgaImageFileWriter.writeOutput, h]

namespace Alike

variable {s t : ReaderState (FpgaImageFileWriter σ)}

private theorem emit (h : Alike s t) (event : ImageEvent)
    (hevent : ∀ bytes, event = .endProcessData bytes → bytes.length ≤ writtenBytes s.trace) :
    Alike { s with trace := s.trace ++ [event] } { t with trace := t.trace ++ [event] } :=
  { h with
    trace := congrArg (· ++ [event]) h.trace
    fresh := (writtenCheck.passes_emit _ _).mpr ⟨h.fresh, hevent⟩ }

private theorem setBuffer (h : Alike s t) (mem : List UInt8) :
    Alike { s with buffer := mem } { t with buffer := mem } :=
  { h with buffer := rfl }

private theorem readBuffer (h : Alike s t) {offset count : Nat} {E : Stop → _ → _ → Prop}
    (hfits : offset + count ≤ s.buffer.length) :
    Agree (readBuffer offset count) (readBuffer offset count)
      (fun _ s' t' => Alike s' t' ∧ s'.cbBuffer = s.cbBuffer ∧ t'.cbBuffer = t.cbBuffer) E s t := by
  have hlen := s.file.readAll_length count
  have hread := h.emit (.readBuffer offset count) nofun
  unfold Agree
  simp only [wp_readBuffer]
  rw [if_neg (by omega), ← h.file, ← h.buffer, if_neg (by omega)]
  exact ⟨rfl, ⟨rfl, rfl, hread.trace, h.output, h.left, h.right, hread.fresh⟩, trivial, trivial⟩

private theorem alignFirst (h : Alike s t) {size total : Nat} (hlen : s.buffer.length = bufferSize)
    (htotal : total < alignSize) :
    Agree (alignFirst size total) (alignFirst size total) (fun _ s' t' => Alike s' t')
      (fun _ s' t' => Alike s' t') s t := by
  have halign := alignSize_eq
  have hsize := bufferSize_eq
  refine .ite (fun _ => .pure h) fun _ => .ite (fun _ => .pure h) fun hzero => .bind ?_
  have hmod : total % alignSize = total := Nat.mod_eq_of_lt htotal
  refine (h.readBuffer (by omega)).mono ?_ fun _ _ _ he => he
  rintro n s' t' ⟨h', -⟩
  exact .ite (fun _ => .throw h') fun _ => .pure h'

private theorem beginProcessData (h : Alike s t) {E : Stop → _ → _ → Prop} (n : Nat) :
    Agree (beginProcessData (FpgaImageFileWriter.callback write) n)
      (beginProcessData (FpgaImageFileWriter.callback write) n)
      (fun g s' t' => g = min n bufferSize ∧ Alike s' t' ∧ s'.cbBuffer.length = bufferSize ∧
        t'.cbBuffer.length = bufferSize ∧ s'.file = s.file ∧ s'.buffer = s.buffer ∧
        delivered s'.trace = delivered s.trace) E s t := by
  have hemit := h.emit (.beginProcessData n (min n bufferSize)) nofun
  unfold Agree
  simp only [wp_beginProcessData, wp_of_ok (beginProcessData_ok n _)]
  exact ⟨trivial, trivial,
    ⟨h.file, h.buffer, hemit.trace, h.output, h.left, h.right, hemit.fresh⟩,
    h.left, h.right, trivial, trivial, delivered_congr (by simp)⟩

/-- `swap_buffer_aligned` leaves the same words in front of either memory. -/
theorem swapBuffer (h : Alike s t) {E : Stop → _ → _ → Prop} {n : Nat} (h4 : 4 ∣ n)
    (hlen : s.buffer.length = bufferSize) (hn : n ≤ bufferSize)
    (hleft : s.cbBuffer.length = bufferSize) (hright : t.cbBuffer.length = bufferSize) :
    Agree (swapBuffer (n >>> 2)) (swapBuffer (n >>> 2))
      (fun _ s' t' => Alike s' t' ∧ s'.cbBuffer.length = bufferSize ∧
        t'.cbBuffer.length = bufferSize ∧ n ≤ writtenBytes s'.trace ∧
        s'.cbBuffer.take n = swapped (s.buffer.take n) ∧
        t'.cbBuffer.take n = swapped (s.buffer.take n) ∧
        s'.file = s.file ∧ s'.buffer = s.buffer ∧ delivered s'.trace = delivered s.trace)
      E s t := by
  have hwords := four_mul_words h4
  have hfits : 4 * (n >>> 2) ≤ s.buffer.length := by omega
  have hlength := swapBufferAligned_length s.buffer (n >>> 2)
  have htake : ∀ mem : List UInt8,
      (overlay mem 0 (swapBufferAligned s.buffer (n >>> 2))).take n =
        swapped (s.buffer.take n) := by
    intro mem
    rw [take_overlay_of_length (hlength.trans hwords), swapBufferAligned_eq hfits, hwords]
  have hkeep : ∀ mem : List UInt8, mem.length = bufferSize →
      (overlay mem 0 (swapBufferAligned s.buffer (n >>> 2))).length = bufferSize := by
    intro mem hmem
    rw [overlay_length (by omega), hmem]
  have hemit := h.emit (.swapBuffer (n >>> 2)) nofun
  have hwritten : n ≤ writtenBytes (s.trace ++ [.swapBuffer (n >>> 2)]) := by
    rw [writtenBytes_emit, ImageEvent.written, hwords]
    exact Nat.le_max_right _ _
  unfold Agree
  simp only [wp_swapBuffer]
  rw [if_neg (by omega), ← h.buffer, if_neg (by omega)]
  exact ⟨trivial, ⟨h.file, rfl, hemit.trace, h.output, h.left, h.right, hemit.fresh⟩,
    hkeep _ hleft, hkeep _ hright, hwritten, htake _, htake _, trivial, trivial,
    delivered_congr (by simp)⟩

/-- The callback takes bytes that are the same in either memory. -/
theorem endProcessData (h : Alike s t) (hwrite : WriteCall write) {n : Nat} {data : List UInt8}
    (hn : n ≤ bufferSize) (hleft : s.cbBuffer.length = bufferSize)
    (hright : t.cbBuffer.length = bufferSize) (hwritten : n ≤ writtenBytes s.trace)
    (hs : s.cbBuffer.take n = data) (ht : t.cbBuffer.take n = data) :
    Agree (endProcessData (FpgaImageFileWriter.callback write) n)
      (endProcessData (FpgaImageFileWriter.callback write) n)
      (fun m s' t' => m ≤ n ∧ Alike s' t' ∧ s'.file = s.file ∧ s'.buffer = s.buffer ∧
        delivered s'.trace = delivered s.trace ++ data)
      (fun _ s' t' => Alike s' t' ∧ delivered s'.trace = delivered s.trace ++ data) s t := by
  have hevent : ∀ bytes, ImageEvent.endProcessData data = .endProcessData bytes →
      bytes.length ≤ writtenBytes s.trace := by
    intro bytes hbytes
    cases hbytes
    rw [← hs, List.length_take]
    omega
  have hemit := h.emit (.endProcessData data) hevent
  have hdelivered : delivered (s.trace ++ [.endProcessData data]) = delivered s.trace ++ data :=
    (delivered_of_deliveries (deliveries_emit _ _)).trans (by simp [Delivery.bytes])
  have hsame : write t.cbBuffer n t.callback.outputFile =
      write s.cbBuffer n s.callback.outputFile := by
    rw [← h.output]
    exact hwrite.congr _ _ _ _ (ht.trans hs.symm)
  unfold Agree
  simp only [wp_endProcessData, hs, ht]
  cases hresult : write s.cbBuffer n s.callback.outputFile with
  | ok m file =>
    rw [wp_of_ok (endProcessData_of_ok hresult),
      wp_of_ok (endProcessData_of_ok (hsame.trans hresult))]
    exact ⟨rfl, hwrite.le _ _ _ _ _ hresult,
      ⟨h.file, h.buffer, hemit.trace, rfl, hleft, hright, hemit.fresh⟩, trivial, trivial,
      hdelivered⟩
  | error errno file =>
    rw [wp_of_error (endProcessData_of_error hresult),
      wp_of_error (endProcessData_of_error (hsame.trans hresult))]
    exact ⟨rfl, ⟨h.file, h.buffer, hemit.trace, rfl, hleft, hright, hemit.fresh⟩, hdelivered⟩

end Alike

/-- The readers differ at most in the callback's memory, and a piece of the payload is out. -/
def Delivered (tail : List UInt8) (s t : ReaderState (FpgaImageFileWriter σ)) : Prop :=
  Alike s t ∧ ∃ m, delivered s.trace = swapped (tail.take m)

variable (hwrite : WriteCall write) {tail : List UInt8}
  {s t : ReaderState (FpgaImageFileWriter σ)} {size total : Nat}
include hwrite

/-- A first block of whole words. -/
theorem firstBlock_agree (h : Alike s t) (h4 : size ≤ total → 4 ∣ size)
    (hahead : ReadAhead tail total s) (hdelivered : delivered s.trace = []) :
    Agree (firstBlock (FpgaImageFileWriter.callback write) size total)
      (firstBlock (FpgaImageFileWriter.callback write) size total)
      (fun n s' t' => (n = size ∧ size ≤ total ∨
          n = alignSize ∧ total < size ∧ alignSize ≤ tail.length ∧
            s'.file.content = tail.drop alignSize) ∧
        Alike s' t' ∧ s'.buffer.length = bufferSize ∧
        delivered s'.trace = swapped (tail.take n))
      (fun _ s' t' => Delivered tail s' t') s t := by
  have halign := alignSize_eq
  have hsize := bufferSize_eq
  have htotal := hahead.lt
  refine .bind (((h.alignFirst hahead.length htotal).and_left (alignFirst_spec hahead)).mono ?_ ?_)
  · rintro n s₁ t₁ ⟨h₁, hn, htail', hfile', hbuffer₁, hlen₁, -, hds₁⟩
    replace hn := firstRequest_cases hn htail' hfile'
    have hwords : 4 ∣ n := by
      rcases hn with ⟨rfl, hle⟩ | ⟨rfl, -⟩
      · exact h4 hle
      · decide
    have hsmall : n ≤ alignSize := by omega
    refine .bind ((h₁.beginProcessData n).mono ?_ fun _ _ _ he => he)
    rintro g s₂ t₂ ⟨hg, h₂, hleft₂, hright₂, hfile₂, hbuffer₂, hdelivered₂⟩
    obtain rfl : g = n := by omega
    have hword : g % 2 ^ 32 = g := Nat.mod_eq_of_lt (by omega)
    simp only [hword]
    have hlen₂ : s₂.buffer.length = bufferSize := by rw [hbuffer₂, hlen₁]
    refine .bind ((h₂.swapBuffer hwords hlen₂ (by omega) hleft₂ hright₂).mono ?_ fun _ _ _ he => he)
    rintro _ s₃ t₃ ⟨h₃, hleft₃, hright₃, hwritten₃, hs₃, ht₃, hfile₃, hbuffer₃, hdelivered₃⟩
    have hout : delivered s₃.trace ++ swapped (s₂.buffer.take g) = swapped (tail.take g) := by
      rw [hdelivered₃, hdelivered₂, delivered_congr hds₁, hdelivered, hbuffer₂, hbuffer₁,
        List.nil_append]
    refine .bind ((h₃.endProcessData hwrite (by omega) hleft₃ hright₃ hwritten₃ hs₃ ht₃).mono ?_ ?_)
    · rintro m s₄ t₄ ⟨-, h₄, hfile₄, hbuffer₄, hdelivered₄⟩
      rw [hout] at hdelivered₄
      refine .ite (fun _ => .throw ⟨h₄, g, hdelivered₄⟩) fun _ => .pure ⟨?_, h₄, ?_, hdelivered₄⟩
      · rw [hfile₄, hfile₃, hfile₂]
        exact hn
      · rw [hbuffer₄, hbuffer₃, hlen₂]
    · rintro _ s₄ t₄ ⟨h₄, hdelivered₄⟩
      exact ⟨h₄, g, hdelivered₄.trans hout⟩
  · rintro _ s₁ t₁ ⟨h₁, -, -, -, hds₁⟩
    refine ⟨h₁, 0, ?_⟩
    rw [delivered_congr hds₁, hdelivered, List.take_zero]
    exact (blockwise_nil _ _).symm

/-- Chunks of whole words; a last one that is not of whole words is too long for the file. -/
theorem payloadLoop_agree (hend : total < size → 4 ∣ size ∨ tail.length < size)
    (hsize : size < 2 ^ 32) (fuel : Nat) (h : Alike s t) (hlen : s.buffer.length = bufferSize)
    (hwords : 4 ∣ total) (htail : total ≤ tail.length)
    (hfile : total < size → s.file.content = tail.drop total)
    (hdelivered : delivered s.trace = swapped (tail.take total)) :
    Agree (payloadLoop (FpgaImageFileWriter.callback write) size fuel total)
      (payloadLoop (FpgaImageFileWriter.callback write) size fuel total)
      (fun _ s' t' => Delivered tail s' t') (fun _ s' t' => Delivered tail s' t') s t := by
  have hbufferSize := bufferSize_eq
  induction fuel generalizing total s t with
  | zero =>
    exact .ite (fun _ => .throw ⟨h, total, hdelivered⟩) fun _ => .pure ⟨h, total, hdelivered⟩
  | succ fuel ih =>
    refine .ite (fun hmore => ?_) fun _ => .pure ⟨h, total, hdelivered⟩
    have hcontent := hfile hmore
    refine .bind ((h.beginProcessData (size - total)).mono ?_ fun _ _ _ he => he)
    rintro g s₁ t₁ ⟨hg, h₁, hleft₁, hright₁, hfile₁, hbuffer₁, hdelivered₁⟩
    have hfits : 0 + g ≤ s₁.buffer.length := by rw [hbuffer₁, hlen]; omega
    refine .bind (((h₁.readBuffer (E := fun _ _ _ => False) hfits).and_left
      (readBuffer_spec (E := fun _ _ => False) hfits)).mono ?_ ?_)
    · rintro n s₂ t₂ ⟨⟨h₂, hleft₂, hright₂⟩, hn, hfile₂, hbuffer₂, -, -, hds₂⟩
      rw [hfile₁, hcontent, List.length_drop] at hn
      have hdelivered₂ : delivered s₂.trace = swapped (tail.take total) := by
        rw [delivered_congr hds₂, hdelivered₁, hdelivered]
      refine .ite (fun _ => .throw ⟨h₂, total, hdelivered₂⟩) fun hshort => ?_
      obtain rfl : n = g := by omega
      have hg4 : 4 ∣ n := by
        by_cases hlast : n = bufferSize
        · rw [hlast]
          decide
        · have hn' : n = size - total := by omega
          have hsize4 : 4 ∣ size := (hend hmore).resolve_right (by omega)
          rw [hn']
          exact Nat.dvd_sub hsize4 hwords
      rw [hfile₁, hcontent] at hbuffer₂
      have hchunk := overlay_chunk (show n ≤ s₁.buffer.length by omega)
        (show n ≤ (tail.drop total).length by rw [List.length_drop]; omega)
      rw [← hbuffer₂, hbuffer₁, hlen] at hchunk
      obtain ⟨hblock, hlen₂⟩ := hchunk
      rw [← hleft₂] at hleft₁
      rw [← hright₂] at hright₁
      refine .bind ((h₂.swapBuffer hg4 hlen₂ (by omega) hleft₁ hright₁).mono ?_ fun _ _ _ he => he)
      rintro _ s₃ t₃ ⟨h₃, hleft₃, hright₃, hwritten₃, hs₃, ht₃, hfile₃, hbuffer₃, hdelivered₃⟩
      have hout : delivered s₃.trace ++ swapped (s₂.buffer.take n) =
          swapped (tail.take (total + n)) := by
        rw [hdelivered₃, hdelivered₂, hblock, ← swapped_take_add hwords htail]
      refine .bind ((h₃.endProcessData hwrite (by omega) hleft₃ hright₃ hwritten₃ hs₃ ht₃).mono
        ?_ ?_)
      · rintro m s₄ t₄ ⟨hm, h₄, hfile₄, hbuffer₄, hdelivered₄⟩
        rw [hout] at hdelivered₄
        refine .ite (fun _ => .throw ⟨h₄, total + n, hdelivered₄⟩) fun hshort' => ?_
        obtain rfl : m = n := by omega
        have hnext : (total + m) % 2 ^ 32 = total + m := Nat.mod_eq_of_lt (by omega)
        rw [hnext]
        refine ih (fun _ => hend hmore) h₄ (by rw [hbuffer₄, hbuffer₃, hlen₂])
          (Nat.dvd_add hwords hg4) (by omega) ?_ hdelivered₄
        intro _
        rw [hfile₄, hfile₃, hfile₂, hfile₁, hcontent, List.drop_drop]
      · rintro _ s₄ t₄ ⟨h₄, hdelivered₄⟩
        exact ⟨h₄, total + n, hdelivered₄.trans hout⟩
    · rintro _ _ _ ⟨he, -⟩
      exact he.elim

omit hwrite in
private theorem processItem_agree (h : Alike s t) (buffer : List UInt8) (item : TagItem)
    {E : Stop → _ → _ → Prop} :
    Agree (processItem (FpgaImageFileWriter.callback write) buffer item)
      (processItem (FpgaImageFileWriter.callback write) buffer item) (fun _ s' t' => Alike s' t')
      E s t := by
  have hemit := h.emit (.processTag item.tag ((buffer.drop item.value).take item.size)) nofun
  unfold Agree
  simp only [wp_processItem]
  cases item.staticID buffer with
  | none => exact ⟨trivial, hemit⟩
  | some id =>
    have hok : ∀ w, (FpgaImageFileWriter.callback write).verifyStaticID id w = .ok () w :=
      fun _ => rfl
    simp only [wp_verifyStaticID, wp_of_ok (hok _)]
    exact ⟨trivial, hemit.emit (.verifyStaticID id) nofun⟩

omit hwrite in
private theorem tagLoop_agree (h : Alike s t) (bytes data : Nat) :
    Agree (tagLoop (FpgaImageFileWriter.callback write) bytes data)
      (tagLoop (FpgaImageFileWriter.callback write) bytes data)
      (fun _ s' t' => Alike s' t') (fun _ s' t' => Alike s' t') s t := by
  have hright : tagLoop (FpgaImageFileWriter.callback write) bytes data t = _ :=
    tagLoop_eq bytes data t
  rw [← h.buffer] at hright
  refine .of_eq (tagLoop_eq bytes data s) hright (.bind ?_)
  refine (Agree.forM (R := Alike)
    (fun item _ _ _ h' => processItem_agree h' s.buffer item) h).mono ?_ fun _ _ _ he => he
  intro _ s' t' h'
  cases (scanTags s.buffer bytes data).2 with
  | some d => exact .pure h'
  | none => exact .throw h'

end FpgaImageReader

open FpgaImageReader

/-- The file behind the header. -/
def bitPayload (content : List UInt8) : List UInt8 :=
  match bitData content with
  | some data => content.drop (data + 5)
  | none => []

/-- A `.bit` file whose payload ends inside a word that is delivered: with the first block, or
behind it. -/
def EndsInsideWord (content : List UInt8) : Prop :=
  64 ≤ content.length ∧ ∃ data, bitData content = some data ∧ data + 5 < firstRead content ∧
    ¬ 4 ∣ declaredSize content data ∧
      (declaredSize content data ≤ firstRead content - (data + 5) ∨
        alignSize < declaredSize content data ∧
          declaredSize content data ≤ (bitPayload content).length)

/-- What is delivered of a `.bit` file has been written from the file since the last
`beginProcessData`, and does not depend on what the callback's buffer has held before. -/
structure DeliversFileOnly (content : List UInt8) : Prop where
  written : ∀ {σ : Type} {write : List UInt8 → Nat → EStateM Nat σ Nat}, WriteCall write →
    ∀ (fuel : Nat) (w : FpgaImageFileWriter σ), w.buffer.length = bufferSize →
      let t := finalState (processFile (FpgaImageFileWriter.callback write) fuel)
        ⟨⟨content⟩, w, [], [], []⟩
      Fresh t.trace ∧ ∃ m, delivered t.trace = swapped ((bitPayload content).take m)
  alone : ∀ {σ : Type} {write : List UInt8 → Nat → EStateM Nat σ Nat}, WriteCall write →
    ∀ (fuel : Nat) (w w' : FpgaImageFileWriter σ), w.buffer.length = bufferSize →
      w'.buffer.length = bufferSize → w.outputFile = w'.outputFile →
      Agree (processFile (FpgaImageFileWriter.callback write) fuel)
        (processFile (FpgaImageFileWriter.callback write) fuel)
        (fun _ s t => s.trace = t.trace ∧ s.callback.outputFile = t.callback.outputFile)
        (fun _ s t => s.trace = t.trace ∧ s.callback.outputFile = t.callback.outputFile)
        ⟨⟨content⟩, w, [], [], []⟩ ⟨⟨content⟩, w', [], [], []⟩

section Runs

variable {σ : Type} {write : List UInt8 → Nat → EStateM Nat σ Nat} (hwrite : WriteCall write)
  {content : List UInt8}
include hwrite

/-- The payload phase of a file that does not end inside a word. -/
theorem processPayload_agree {data : Nat} (hdata : bitData content = some data)
    (hlen : 64 ≤ content.length) (hwords : ¬ EndsInsideWord content) (fuel : Nat)
    {s t : ReaderState (FpgaImageFileWriter σ)} (h : Alike s t)
    (hbuffer : s.buffer = firstBuffer content) (hfile : s.file.content = content.drop alignSize)
    (hdelivered : delivered s.trace = []) :
    Agree (processPayload (FpgaImageFileWriter.callback write) fuel (firstRead content) data)
      (processPayload (FpgaImageFileWriter.callback write) fuel (firstRead content) data)
      (fun _ s' t' => Delivered (bitPayload content) s' t')
      (fun _ s' t' => Delivered (bitPayload content) s' t') s t := by
  have halign := alignSize_eq
  have hpayload : bitPayload content = content.drop (data + 5) := by rw [bitPayload, hdata]
  have hnothing : Delivered (bitPayload content) s t := by
    refine ⟨h, 0, ?_⟩
    rw [hdelivered, List.take_zero]
    exact (blockwise_nil _ _).symm
  by_cases hend : firstRead content ≤ data + 5
  · exact .ite (fun _ => .throw hnothing) fun hnot => absurd hend hnot
  · have hin := Nat.lt_of_not_le hend
    have hfirst : firstRead content = min alignSize content.length := rfl
    have hlength : (bitPayload content).length = content.length - (data + 5) := by
      rw [hpayload, List.length_drop]
    have hwhole : declaredSize content data ≤ firstRead content - (data + 5) →
        4 ∣ declaredSize content data := by
      intro hle
      by_contra h4
      exact hwords ⟨hlen, data, hdata, hin, h4, .inl hle⟩
    have hmoved := h.setBuffer (payloadBuffer content data)
    have hahead : ReadAhead (bitPayload content) (firstRead content - (data + 5))
        { s with buffer := payloadBuffer content data } :=
      hpayload ▸ readAhead_payloadBuffer hin rfl hfile
    refine .of_eq (processPayload_eq hin hbuffer fuel)
      (processPayload_eq hin (h.buffer.symm.trans hbuffer) fuel) ?_
    refine .bind ((firstBlock_agree hwrite hmoved hwhole hahead hdelivered).mono ?_
      fun _ _ _ he => he)
    rintro n s' t' ⟨hn, h', hlen', hdelivered'⟩
    refine .bind ((payloadLoop_agree hwrite ?_ (declaredSize_lt content data) fuel h' hlen' ?_
      (by omega) ?_ hdelivered').mono (fun _ _ _ h'' => .pure h'') fun _ _ _ he => he)
    · intro hmore
      by_cases h4 : 4 ∣ declaredSize content data
      · exact .inl h4
      · right
        by_contra hshort
        exact hwords ⟨hlen, data, hdata, hin, h4, .inr (by omega)⟩
    · rcases hn with ⟨rfl, hle⟩ | ⟨rfl, -⟩
      · exact hwhole hle
      · decide
    · intro hmore
      obtain ⟨rfl, -⟩ | ⟨rfl, -, -, hfile'⟩ := hn
      · exact absurd hmore (Nat.lt_irrefl _)
      · exact hfile'

/-- Two runs on one file with different memory in the callback. -/
theorem bit_run_agree (hbit : HasBitSignature content) (hwords : ¬ EndsInsideWord content)
    (fuel : Nat) {w w' : FpgaImageFileWriter σ} (hw : w.buffer.length = bufferSize)
    (hw' : w'.buffer.length = bufferSize) (hout : w.outputFile = w'.outputFile) :
    Agree (processFile (FpgaImageFileWriter.callback write) fuel)
      (processFile (FpgaImageFileWriter.callback write) fuel)
      (fun _ s t => Delivered (bitPayload content) s t)
      (fun _ s t => Delivered (bitPayload content) s t)
      ⟨⟨content⟩, w, [], [], []⟩ ⟨⟨content⟩, w', [], [], []⟩ := by
  have hheader : Alike (headerState ⟨⟨content⟩, w, [], [], []⟩)
      (headerState ⟨⟨content⟩, w', [], [], []⟩) :=
    ⟨rfl, rfl, rfl, hout, hw, hw', ⟨nofun, trivial⟩⟩
  have hnothing : ∀ s t : ReaderState (FpgaImageFileWriter σ), Alike s t →
      delivered s.trace = [] → Delivered (bitPayload content) s t := by
    intro s t h hs
    refine ⟨h, 0, ?_⟩
    rw [hs, List.take_zero]
    exact (blockwise_nil _ _).symm
  by_cases hlen : content.length < 64
  · unfold Agree
    simp only [wp_processFile]
    rw [if_pos hlen, if_pos hlen]
    exact ⟨trivial, hnothing _ _ hheader rfl⟩
  · have hlen' : 64 ≤ content.length := Nat.le_of_not_lt hlen
    refine .of_eq (run_bit w fuel hlen' hbit) (run_bit w' fuel hlen' hbit) (.bind ?_)
    have hverify : ∀ id k, ∃ t,
        (FpgaImageFileWriter.callback write).verifyStaticID id k = .ok () t := fun _ k => ⟨k, rfl⟩
    have htags := bit_tagLoop hverify w content
    refine ((tagLoop_agree hheader _ _).and_left htags).mono ?_ ?_
    · rintro data s t ⟨h, hdata, hprocessed⟩
      exact processPayload_agree hwrite hdata hlen' hwords fuel h hprocessed.buffer
        (congrArg File.content hprocessed.file) hprocessed.delivered
    · rintro _ s t ⟨h, -, -, hprocessed⟩
      exact hnothing s t h hprocessed.delivered

end Runs

section Stale

private theorem not_fresh_chunk {trace : List ImageEvent} {n : Nat} {bytes : List UInt8}
    (h4 : ¬ 4 ∣ n)
    (hnothing : writtenBytes trace = 0) (hbytes : bytes.length = n) :
    ¬ Fresh (trace ++ [.swapBuffer (n >>> 2)] ++ [.endProcessData bytes]) := by
  intro hfresh
  have htaken : bytes.length ≤ writtenBytes (trace ++ [.swapBuffer (n >>> 2)]) :=
    ((writtenCheck.passes_emit _ _).mp hfresh).2 bytes rfl
  rw [writtenBytes_emit, hnothing, ImageEvent.written, hbytes, Nat.shiftRight_eq_div_pow] at htaken
  omega

variable {s : ReaderState (FpgaImageFileWriter (List UInt8))}

private theorem append_chunk {n : Nat} (hn : n ≤ bufferSize) (hlen : s.buffer.length = bufferSize)
    (hmem : s.cbBuffer.length = bufferSize)
    {Q : Nat → ReaderState (FpgaImageFileWriter (List UInt8)) → Prop}
    {E : Stop → ReaderState (FpgaImageFileWriter (List UInt8)) → Prop}
    (hQ : ∀ u bytes, bytes.length = n → u.file = s.file → u.buffer = s.buffer →
      u.callback.buffer.length = bufferSize →
      u.trace = s.trace ++ [.swapBuffer (n >>> 2)] ++ [.endProcessData bytes] → Q n u) :
    wp (swapBuffer (n >>> 2)) (fun _ t =>
      wp (endProcessData (FpgaImageFileWriter.callback appendToFile) n) Q E t) E s := by
  have hwords := four_mul_words_le n
  have hlength := swapBufferAligned_length s.buffer (n >>> 2)
  have hkeep : (overlay s.cbBuffer 0 (swapBufferAligned s.buffer (n >>> 2))).length =
      bufferSize := by
    rw [overlay_length (by omega), hmem]
  rw [wp_swapBuffer, if_neg (by omega), wp_endProcessData, wp_of_ok (endProcessData_of_ok rfl)]
  exact hQ _ _ (List.length_take_of_le (hkeep ▸ hn)) rfl rfl hkeep rfl

/-- The last chunk of the loop is not of whole words, and the file holds it. -/
theorem payloadLoop_stale {tail : List UInt8} {size : Nat} (h4 : ¬ 4 ∣ size)
    (hsize : size < 2 ^ 32) (htail : size ≤ tail.length) (fuel : Nat) {total : Nat}
    (hfuel : size ≤ total + fuel) (hmore : total < size) (hwords : 4 ∣ total)
    (hlen : s.buffer.length = bufferSize) (hmem : s.callback.buffer.length = bufferSize)
    (hfile : s.file.content = tail.drop total) :
    wp (payloadLoop (FpgaImageFileWriter.callback appendToFile) size fuel total)
      (fun _ t => ¬ Fresh t.trace) (fun _ t => ¬ Fresh t.trace) s := by
  have hbufferSize := bufferSize_eq
  induction fuel generalizing total s with
  | zero => omega
  | succ fuel ih =>
    rw [payloadLoop, wp_ite, if_pos hmore, wp_bind, wp_beginProcessData,
      wp_of_ok (beginProcessData_ok _ _), wp_bind]
    obtain ⟨n, hn⟩ : ∃ n, n = min (size - total) bufferSize := ⟨_, rfl⟩
    rw [← hn]
    have hread : (s.file.readAll n).1.length = n := by
      rw [File.readAll_length, hfile, List.length_drop]
      omega
    rw [wp_readBuffer, if_neg (by rw [hread, hlen]; omega), hread, wp_ite,
      if_neg (Nat.lt_irrefl n), wp_bind]
    simp only [wp_bind]
    refine append_chunk (by omega) ?_ hmem ?_
    · rw [overlay_length (by rw [hread, hlen]; omega), hlen]
    · intro u bytes hbytes hfile' hbuffer' hmem' htrace
      have hnext : (total + n) % 2 ^ 32 = total + n := Nat.mod_eq_of_lt (by omega)
      rw [wp_ite, if_neg (Nat.lt_irrefl n), hnext]
      by_cases hlast : n = size - total
      · have hdone : total + n = size := by omega
        have hcut : ¬ 4 ∣ n := by
          intro hn4
          exact h4 (hdone ▸ Nat.dvd_add hwords hn4)
        have hstale : ¬ Fresh u.trace := by
          rw [htrace]
          have hnothing : writtenBytes (s.trace ++
              [.beginProcessData (size - total) n] ++ [.readBuffer 0 n]) = 0 := by
            rw [writtenBytes_emit, writtenBytes_emit]
            rfl
          exact not_fresh_chunk hcut hnothing hbytes
        rw [hdone, wp_payloadLoop_done (Nat.le_refl size)]
        exact hstale
      · have hfull : n = bufferSize := by omega
        refine ih (by omega) (by omega) (Nat.dvd_add hwords (by rw [hfull]; decide)) ?_ hmem' ?_
        · rw [hbuffer', overlay_length (by rw [hread, hlen]; omega), hlen]
        · rw [hfile']
          change (s.file.content.drop n) = _
          rw [hfile, List.drop_drop]

variable {tail : List UInt8} {size total : Nat}

private theorem processData_stale_first (h4 : ¬ 4 ∣ size) (hsmall : size ≤ total) (fuel : Nat)
    (hahead : ReadAhead tail total s) (hmem : s.callback.buffer.length = bufferSize) :
    wp (processData (FpgaImageFileWriter.callback appendToFile) fuel size total)
      (fun _ t => ¬ Fresh t.trace) (fun _ t => ¬ Fresh t.trace) s := by
  have halign := alignSize_eq
  have hbufferSize := bufferSize_eq
  have htotal := hahead.lt
  have hn : min size bufferSize = size := by omega
  have hword : size % 2 ^ 32 = size := Nat.mod_eq_of_lt (by omega)
  rw [processData, wp_bind, firstBlock, wp_bind, alignFirst, wp_ite, if_pos hsmall, wp_pure,
    wp_bind, wp_beginProcessData, wp_of_ok (beginProcessData_ok _ _), hn, hword]
  simp only [wp_bind]
  refine append_chunk ?_ ?_ ?_ ?_
  · omega
  · exact hahead.length
  · exact hmem
  · intro u bytes hbytes _ _ _ htrace
    rw [wp_ite, if_neg (Nat.lt_irrefl _), wp_pure, wp_payloadLoop_done (Nat.le_refl _), wp_pure,
      htrace]
    refine not_fresh_chunk h4 ?_ hbytes
    rw [writtenBytes_emit]
    rfl

private theorem processData_stale_rest (h4 : ¬ 4 ∣ size) (hlarge : alignSize < size)
    (hsize : size < 2 ^ 32) (hwhole : size ≤ tail.length) (hahead : ReadAhead tail total s)
    (h : Alike s s) (hdelivered : delivered s.trace = []) :
    wp (processData (FpgaImageFileWriter.callback appendToFile) size size total)
      (fun _ t => ¬ Fresh t.trace) (fun _ t => ¬ Fresh t.trace) s := by
  have hbufferSize := bufferSize_eq
  have halign := alignSize_eq
  have htotal := hahead.lt
  have hfits : size ≤ total → 4 ∣ size := by omega
  have hagree := (firstBlock_agree appendToFile_writeCall h hfits hahead hdelivered).left
  have hblock := firstBlock_spec appendToFile_acceptsAll.accepts (fun n g hg hn => by omega) hfits
    trivial hahead
  rw [processData, wp_bind]
  refine (hblock.and hagree).mono ?_ ?_
  · rintro n u ⟨⟨hn, -, hlen', -⟩, _, -, halike', -⟩
    obtain ⟨rfl, hle⟩ | ⟨rfl, -, -, hfile'⟩ := hn
    · omega
    · simp only [wp_bind, wp_pure]
      exact payloadLoop_stale h4 hsize hwhole _ (Nat.le_add_left _ _) hlarge (by decide) hlen'
        halike'.left hfile'
  · rintro _ _ ⟨⟨-, -, hshort, -⟩, -⟩
    omega

/-- A file that ends inside a word has stale bytes delivered. -/
theorem bit_run_stale {content : List UInt8} (hbit : HasBitSignature content)
    (hinside : EndsInsideWord content) {w : FpgaImageFileWriter (List UInt8)}
    (hw : w.buffer.length = bufferSize) :
    ∃ fuel, wp (processFile (FpgaImageFileWriter.callback appendToFile) fuel)
      (fun _ t => ¬ Fresh t.trace) (fun _ t => ¬ Fresh t.trace)
      ⟨⟨content⟩, w, [], [], []⟩ := by
  obtain ⟨hlen, data, hdata, hend, h4, hinside⟩ := hinside
  refine ⟨declaredSize content data, ?_⟩
  have hheader : Alike (headerState ⟨⟨content⟩, w, [], [], []⟩)
      (headerState ⟨⟨content⟩, w, [], [], []⟩) :=
    ⟨rfl, rfl, rfl, rfl, hw, hw, ⟨nofun, trivial⟩⟩
  have hverify : ∀ id k, ∃ t,
      (FpgaImageFileWriter.callback appendToFile).verifyStaticID id k = .ok () t :=
    fun _ k => ⟨k, rfl⟩
  rw [wp_processFile, if_neg (Nat.not_lt.mpr hlen), if_pos hbit, processBit, wp_bind]
  refine ((bit_tagLoop hverify w content).and
    (tagLoop_agree hheader (firstRead content) 13).left).mono ?_ ?_
  · rintro d s ⟨⟨hd, hprocessed⟩, _, halike⟩
    obtain rfl : data = d := Option.some.inj (hdata.symm.trans hd)
    have hpayload : bitPayload content = content.drop (data + 5) := by rw [bitPayload, hdata]
    have hahead : ReadAhead (bitPayload content) (firstRead content - (data + 5))
        { s with buffer := payloadBuffer content data } :=
      hpayload ▸ readAhead_payloadBuffer hend rfl (congrArg File.content hprocessed.file)
    have hself : Alike s s :=
      ⟨rfl, rfl, rfl, rfl, halike.left, halike.left, halike.fresh⟩
    rw [wp_of_eq (processPayload_eq hend hprocessed.buffer _)]
    rcases hinside with hsmall | ⟨hlarge, hwhole⟩
    · exact processData_stale_first h4 hsmall _ hahead halike.left
    · exact processData_stale_rest h4 hlarge (declaredSize_lt content data) hwhole hahead
        (hself.setBuffer _) hprocessed.delivered
  · rintro _ _ ⟨⟨hnone, -⟩, -⟩
    rw [hdata] at hnone
    cases hnone

end Stale

private theorem EndsInsideWord.not_deliversFileOnly {content : List UInt8}
    (hinside : EndsInsideWord content) (hbit : HasBitSignature content) :
    ¬ DeliversFileOnly content := by
  intro hdelivers
  have hmem : (List.replicate bufferSize (0 : UInt8)).length = bufferSize :=
    List.length_replicate
  obtain ⟨fuel, hstale⟩ := bit_run_stale hbit hinside (w := ⟨[], List.replicate bufferSize 0⟩) hmem
  exact finalState_of_wp hstale
    (hdelivers.written appendToFile_writeCall fuel ⟨[], List.replicate bufferSize 0⟩ hmem).1

/-- The library's file writer is handed nothing stale exactly by the `.bit` files whose payload
does not end inside a word that is delivered. -/
theorem stale_memory_iff (content : List UInt8) (hbit : HasBitSignature content) :
    DeliversFileOnly content ↔ ¬ EndsInsideWord content := by
  constructor
  · intro hdelivers hinside
    exact hinside.not_deliversFileOnly hbit hdelivers
  · intro hwords
    constructor
    · intro σ write hwrite fuel w hw
      have hrun := (bit_run_agree hwrite hbit hwords fuel hw hw rfl).left
      have hfinal : wp (processFile (FpgaImageFileWriter.callback write) fuel)
          (fun _ t => Fresh t.trace ∧
            ∃ m, delivered t.trace = swapped ((bitPayload content).take m))
          (fun _ t => Fresh t.trace ∧
            ∃ m, delivered t.trace = swapped ((bitPayload content).take m))
          ⟨⟨content⟩, w, [], [], []⟩ :=
        hrun.mono (fun _ _ ⟨_, h⟩ => ⟨h.1.fresh, h.2⟩) fun _ _ ⟨_, h⟩ => ⟨h.1.fresh, h.2⟩
      exact finalState_of_wp hfinal
    · intro σ write hwrite fuel w w' hw hw' hout
      exact (bit_run_agree hwrite hbit hwords fuel hw hw' hout).mono
        (fun _ _ _ h => ⟨h.1.trace, h.1.output⟩) fun _ _ _ h => ⟨h.1.trace, h.1.output⟩

section Plain

/-- A plain header in front of a hundred bytes. -/
def plainImage (size : Nat) (h : size < 2 ^ 32) : List UInt8 :=
  (plainHeader size h).encode ++ List.replicate 100 7

private theorem plainImage_length (size : Nat) (h : size < 2 ^ 32) :
    (plainImage size h).length = 121 := by
  rw [plainImage, List.length_append, List.length_replicate, BitHeader.encode_length]
  rfl

private theorem firstRead_plainImage (size : Nat) (h : size < 2 ^ 32) :
    firstRead (plainImage size h) = 121 := by
  rw [firstRead, plainImage_length]
  rfl

private theorem plainImage_declared (size : Nat) (h : size < 2 ^ 32) :
    bitData (plainImage size h) = some 16 ∧ declaredSize (plainImage size h) 16 = size := by
  have hfirst := firstRead_plainImage size h
  have hlength : (plainHeader size h).encode.length = 21 := by
    rw [BitHeader.encode_length]
    rfl
  have hdata := (plainHeader size h).bitData_encode (List.replicate 100 7)
  have hsize := (plainHeader size h).declaredSize_encode (List.replicate 100 7)
    (by rw [hlength]; decide)
  rw [← plainImage, hfirst, hlength] at hdata
  rw [← plainImage, hlength] at hsize
  exact ⟨hdata, hsize⟩

theorem stale_memory_iff_four :
    HasBitSignature (plainImage 4 (by decide)) ∧ DeliversFileOnly (plainImage 4 (by decide)) := by
  have hbit : HasBitSignature (plainImage 4 (by decide)) := BitHeader.hasBitSignature _ _
  refine ⟨hbit, (stale_memory_iff _ hbit).mpr ?_⟩
  rintro ⟨-, data, hdata, -, h4, -⟩
  obtain ⟨hsixteen, hsize⟩ := plainImage_declared 4 (by decide)
  obtain rfl := Option.some.inj (hsixteen.symm.trans hdata)
  rw [hsize] at h4
  exact h4 (Nat.dvd_refl 4)

/-- The fifth byte of a payload of five comes from the callback's buffer. -/
theorem stale_memory_five :
    ¬ ∀ content, HasBitSignature content → DeliversFileOnly content := by
  intro hall
  have hbit : HasBitSignature (plainImage 5 (by decide)) := BitHeader.hasBitSignature _ _
  obtain ⟨hdata, hsize⟩ := plainImage_declared 5 (by decide)
  have hinside : EndsInsideWord (plainImage 5 (by decide)) := by
    refine ⟨by rw [plainImage_length]; decide, 16, hdata, ?_, ?_, .inl ?_⟩
    · rw [firstRead_plainImage]
      decide
    · rw [hsize]
      decide
    · rw [hsize, firstRead_plainImage]
      decide
  exact hinside.not_deliversFileOnly hbit (hall _ hbit)

end Plain

end Dyplo
