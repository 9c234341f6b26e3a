import Dyplo.Image.FileWriter
import Dyplo.Image.Header

/-!
# Raw images

A `.bin` or `.partial` image goes through as it is: the first block out of the internal buffer,
the rest straight into the callback's memory.
-/

namespace Dyplo

/-- The bytes of a raw image as they are delivered: every chunk but the last is a whole number
of 64-bit words. -/
structure RawChunks (content : List UInt8) (chunks : List (List UInt8)) : Prop where
  flatten : chunks.flatten = content
  nonempty : ∀ chunk ∈ chunks, chunk ≠ []
  short : ∀ chunk ∈ chunks, chunk.length ≤ bufferSize
  aligned : ∀ chunk ∈ chunks.dropLast, 8 ∣ chunk.length

theorem RawChunks.nil : RawChunks [] [] := ⟨rfl, nofun, nofun, nofun⟩

theorem RawChunks.eq_nil {chunks : List (List UInt8)} (h : RawChunks [] chunks) : chunks = [] := by
  cases chunks with
  | nil => rfl
  | cons chunk chunks =>
    have hchunk := List.flatten_eq_nil_iff.mp h.flatten chunk List.mem_cons_self
    exact absurd hchunk (h.nonempty chunk List.mem_cons_self)

/-- A chunk of up to `n` bytes in front of the chunks of the rest. -/
theorem RawChunks.block {content : List UInt8} {chunks : List (List UInt8)} {n : Nat}
    (h : RawChunks (content.drop n) chunks) (hcontent : content ≠ []) (hpos : 0 < n)
    (hshort : n ≤ bufferSize) (haligned : 8 ∣ n) :
    RawChunks content (content.take n :: chunks) where
  flatten := by rw [List.flatten_cons, h.flatten, List.take_append_drop]
  nonempty := by
    intro c hc
    rcases List.mem_cons.mp hc with rfl | hc
    · exact fun hnil => hcontent ((List.take_eq_nil_iff.mp hnil).resolve_left (by omega))
    · exact h.nonempty c hc
  short := by
    intro c hc
    rcases List.mem_cons.mp hc with rfl | hc
    · exact (List.length_take_le _ _).trans hshort
    · exact h.short c hc
  aligned := by
    cases chunks with
    | nil => nofun
    | cons c chunks =>
      intro d hd
      rw [List.dropLast_cons_cons] at hd
      rcases List.mem_cons.mp hd with rfl | hd
      · -- a chunk follows, so this one is full
        have hfull : n ≤ content.length := by
          by_contra hend
          rw [List.drop_of_length_le (by omega)] at h
          exact absurd h.eq_nil (List.cons_ne_nil _ _)
        rwa [List.length_take_of_le hfull]
      · exact h.aligned d hd

namespace FpgaImageReader

variable {κ : Type} {callback : FpgaImageReaderCallback κ} {grants : Nat → Nat → Prop}
  {known : Nat → Prop} {ready : List Delivery → κ → Prop}
  {granted : List Delivery → Nat → κ → Prop} {fails : Stop → Prop}

/-- The loop over the rest of the file, whose chunks have to fit what is granted. -/
theorem rawLoop_spec (h : callback.Accepts grants known ready granted fails)
    (fuel total : Nat) (s : ReaderState κ)
    (hgrants : ∀ g, grants bufferSize g → min bufferSize s.file.content.length ≤ g)
    (hfuel : s.file.content.length < fuel)
    (hs : ready (deliveries s.trace) s.callback) :
    wp (rawLoop callback fuel total)
      (fun v t => v = total + s.file.content.length ∧ ready (deliveries t.trace) t.callback ∧
        ∃ chunks, RawChunks s.file.content chunks ∧
          deliveries t.trace = deliveries s.trace ++ chunks.map .data)
      (fun e _ => fails e) s := by
  induction fuel generalizing total s with
  | zero => exact absurd hfuel (Nat.not_lt_zero _)
  | succ fuel ih =>
    rw [rawLoop, wp_bind]
    refine (beginProcessData_spec h bufferSize hs).mono ?_ fun _ _ hf => hf
    rintro g s₁ ⟨hgrant, hgranted, hds₁, hfile₁, -⟩
    have hg := hgrants g hgrant
    rw [wp_bind]
    refine (readCallback_spec bufferSize).mono ?_ fun _ _ hf => hf
    rintro n s₂ ⟨hn, hfile₂, hchunk, hcallback₂, hds₂⟩
    rw [← hcallback₂, ← hds₂] at hgranted
    rw [hfile₁] at hn hfile₂ hchunk
    rw [wp_ite, wp_pure]
    split_ifs with hzero
    · -- the end of the file: the grant stays open
      have hnil : s.file.content = [] := by
        apply List.eq_nil_of_length_eq_zero
        rw [bufferSize_eq] at hn
        omega
      refine ⟨by rw [hnil]; rfl, h.ready_of_granted _ _ _ hgranted, [], ?_, ?_⟩
      · rw [hnil]
        exact .nil
      · rw [hds₂, hds₁, List.map_nil, List.append_nil]
    · have hfull : n ≤ s₂.cbBuffer.length := by
        have hlen := congrArg List.length hchunk
        simp only [List.length_take] at hlen
        omega
      rw [wp_bind]
      refine (endProcessData_spec h hgranted (by omega) hfull).mono ?_ fun _ _ hf => hf
      rintro m s₃ ⟨rfl, hready₃, hds₃, hfile₃, -⟩
      rw [wp_ite, if_neg (Nat.lt_irrefl _)]
      have hcontent₃ : s₃.file.content = s.file.content.drop bufferSize := by rw [hfile₃, hfile₂]
      have hlen₃ : s₃.file.content.length = s.file.content.length - bufferSize := by
        rw [hcontent₃, List.length_drop]
      have hgrants₃ : ∀ g, grants bufferSize g → min bufferSize s₃.file.content.length ≤ g := by
        intro g hg
        have := hgrants g hg
        omega
      refine (ih (total + m) s₃ hgrants₃ (by omega) hready₃).mono ?_ fun _ _ hf => hf
      rintro v t ⟨rfl, hready, chunks, hchunks, hds⟩
      refine ⟨by omega, hready, s.file.content.take bufferSize :: chunks, ?_, ?_⟩
      · rw [hcontent₃] at hchunks
        refine hchunks.block ?_ (by decide) (Nat.le_refl _) (by decide)
        exact fun hnil => hzero (by rw [hn, hnil]; rfl)
      · rw [hds, hds₃, hds₂, hds₁, hchunk, List.append_assoc]
        rfl

/-- What the callback is told before the first block of a raw image. -/
def rawCheck (content : List UInt8) : List Delivery :=
  if StartsBin content then [] else [.staticID (partialId content)]

private theorem checkRaw_spec (h : callback.Accepts grants known ready granted fails)
    {content : List UInt8} {s : ReaderState κ} (hbuffer : s.buffer = firstBuffer content)
    (hs : ready (deliveries s.trace) s.callback)
    (hraw : StartsBin content ∨ StartsPartial content ∧ known (partialId content)) :
    wp (checkRaw callback)
      (fun _ t => ready (deliveries t.trace) t.callback ∧
        deliveries t.trace = deliveries s.trace ++ rawCheck content ∧
        t.file = s.file ∧ t.buffer = s.buffer)
      (fun e _ => fails e) s := by
  rw [checkRaw, wp_bind, wp_get, hbuffer, wp_ite, wp_ite, wp_pure,
    if_congr (isBin_iff content) rfl rfl, if_congr (isPartial_iff content) rfl rfl,
    parseU16_partialId, rawCheck]
  split_ifs with hbin hpart
  · exact ⟨hs, (List.append_nil _).symm, rfl, hbuffer⟩
  · have hknown := (hraw.resolve_left hbin).2
    exact (verifyStaticID_spec h hs hknown).mono (fun _ _ ht => hbuffer ▸ ht) fun _ _ hf => hf
  · exact absurd (hraw.resolve_left hbin).1 hpart

/-- What the callback grants for the first block counts as processed, although no more than the
block is delivered. -/
theorem processRaw_counts_grant (h : callback.Accepts grants known ready granted fails)
    {content : List UInt8} {fuel : Nat} {s : ReaderState κ}
    (hfirst : ∀ g, grants (min alignSize content.length) g →
      min alignSize content.length ≤ g ∧ g ≤ bufferSize)
    (hrest : ∀ g, grants bufferSize g → min bufferSize (content.length - alignSize) ≤ g)
    (hfuel : content.length ≤ fuel)
    (hlen : 64 ≤ content.length) (hbuffer : s.buffer = firstBuffer content)
    (hfile : s.file.content = content.drop alignSize)
    (hs : ready (deliveries s.trace) s.callback)
    (hraw : StartsBin content ∨ StartsPartial content ∧ known (partialId content)) :
    wp (processRaw callback fuel (min alignSize content.length))
      (fun v t => (∃ g, grants (min alignSize content.length) g ∧
          v = g + (content.length - alignSize)) ∧ ready (deliveries t.trace) t.callback ∧
        ∃ chunks, RawChunks content chunks ∧
          deliveries t.trace = deliveries s.trace ++ rawCheck content ++ chunks.map .data)
      (fun e _ => fails e) s := by
  rw [processRaw, wp_bind]
  refine (checkRaw_spec h hbuffer hs hraw).mono ?_ fun _ _ hf => hf
  rintro _ s₁ ⟨hready₁, hds₁, hfile₁, hbuffer₁⟩
  rw [processRawData, wp_bind]
  refine (beginProcessData_spec h _ hready₁).mono ?_ fun _ _ hf => hf
  rintro g s₂ ⟨hgrant, hgranted, hds₂, hfile₂, hbuffer₂⟩
  obtain ⟨hle, hsmall⟩ := hfirst g hgrant
  have hfits : g ≤ s₂.buffer.length := by
    rw [hbuffer₂, hbuffer₁, hbuffer, firstBuffer_length]
    exact hsmall
  rw [wp_bind]
  refine (copyBuffer_spec hfits).mono ?_ fun _ _ hf => hf
  rintro _ s₃ ⟨hcopy, hfile₃, hcallback₃, hds₃⟩
  rw [← hcallback₃, ← hds₃] at hgranted
  have hfull : min alignSize content.length ≤ s₃.cbBuffer.length := by
    have hlen₃ := congrArg List.length hcopy
    simp only [List.length_take] at hlen₃
    omega
  rw [wp_bind]
  refine (endProcessData_spec h hgranted hle hfull).mono ?_ fun _ _ hf => hf
  rintro m s₄ ⟨rfl, hready₄, hds₄, hfile₄, -⟩
  rw [wp_ite, if_neg (Nat.lt_irrefl _)]
  have hcontent₄ : s₄.file.content = content.drop alignSize := by
    rw [hfile₄, hfile₃, hfile₂, hfile₁, hfile]
  have hlen₄ : s₄.file.content.length = content.length - alignSize := by
    rw [hcontent₄, List.length_drop]
  have hgrants₄ : ∀ g, grants bufferSize g → min bufferSize s₄.file.content.length ≤ g := by
    rw [hlen₄]
    exact hrest
  rw [alignSize_eq] at hlen₄
  refine (rawLoop_spec h fuel _ s₄ hgrants₄ (by omega) hready₄).mono ?_ fun _ _ hf => hf
  rintro v t ⟨rfl, hready, chunks, hchunks, hds⟩
  have hfirstChunk : s₃.cbBuffer.take (min alignSize content.length) = content.take alignSize := by
    rw [← Nat.min_eq_left hle, ← List.take_take, hcopy, List.take_take, Nat.min_eq_left hle,
      hbuffer₂, hbuffer₁, hbuffer, take_firstBuffer content (by rw [List.length_take]),
      ← List.take_eq_take_min]
  refine ⟨⟨g, hgrant, by rw [hlen₄, alignSize_eq]⟩, hready, content.take alignSize :: chunks,
    ?_, ?_⟩
  · rw [hcontent₄] at hchunks
    refine hchunks.block ?_ (by decide) (by decide) (by decide)
    rintro rfl
    exact absurd hlen (by decide)
  · rw [hds, hds₄, hfirstChunk, hds₃, hds₂, hds₁]
    simp

theorem processRaw_spec (h : callback.Accepts grants known ready granted fails)
    {content : List UInt8} {fuel : Nat} {s : ReaderState κ}
    (hfirst : ∀ g, grants (min alignSize content.length) g → g = min alignSize content.length)
    (hrest : ∀ g, grants bufferSize g → min bufferSize (content.length - alignSize) ≤ g)
    (hfuel : content.length ≤ fuel)
    (hlen : 64 ≤ content.length) (hbuffer : s.buffer = firstBuffer content)
    (hfile : s.file.content = content.drop alignSize)
    (hs : ready (deliveries s.trace) s.callback)
    (hraw : StartsBin content ∨ StartsPartial content ∧ known (partialId content)) :
    wp (processRaw callback fuel (min alignSize content.length))
      (fun v t => v = content.length ∧ ready (deliveries t.trace) t.callback ∧
        ∃ chunks, RawChunks content chunks ∧
          deliveries t.trace = deliveries s.trace ++ rawCheck content ++ chunks.map .data)
      (fun e _ => fails e) s := by
  have hsmall : min alignSize content.length ≤ bufferSize := by
    rw [alignSize_eq, bufferSize_eq]
    omega
  refine (processRaw_counts_grant h (fun g hg => ?_) hrest hfuel hlen hbuffer hfile hs hraw).mono
    ?_ fun _ _ hf => hf
  · obtain rfl := hfirst g hg
    exact ⟨Nat.le_refl _, hsmall⟩
  · rintro v t ⟨⟨g, hg, hv⟩, hdelivered⟩
    refine ⟨?_, hdelivered⟩
    rw [hv, hfirst g hg, alignSize_eq]
    omega

theorem processRaw_grantsBuffer (h : callback.Accepts GrantsBuffer known ready granted fails)
    {content : List UInt8} {fuel : Nat} {s : ReaderState κ} (hfuel : content.length ≤ fuel)
    (hlen : 64 ≤ content.length) (hbuffer : s.buffer = firstBuffer content)
    (hfile : s.file.content = content.drop alignSize)
    (hs : ready (deliveries s.trace) s.callback)
    (hraw : StartsBin content ∨ StartsPartial content ∧ known (partialId content)) :
    wp (processRaw callback fuel (min alignSize content.length))
      (fun v t => v = content.length ∧ ready (deliveries t.trace) t.callback ∧
        ∃ chunks, RawChunks content chunks ∧
          deliveries t.trace = deliveries s.trace ++ rawCheck content ++ chunks.map .data)
      (fun e _ => fails e) s := by
  have halign := alignSize_eq
  have hsize := bufferSize_eq
  refine processRaw_spec h ?_ ?_ hfuel hlen hbuffer hfile hs hraw
  · intro g hg
    exact hg.eq (by omega)
  · intro g hg
    have := hg.eq (Nat.le_refl _)
    omega

theorem processRaw_unrecognized {content : List UInt8} {fuel bytes : Nat} {s : ReaderState κ}
    (hbuffer : s.buffer = firstBuffer content) (hbin : ¬ StartsBin content)
    (hpart : ¬ StartsPartial content) :
    wp (processRaw callback fuel bytes) (fun _ _ => False)
      (fun e t => e = .throws (.runtimeError "Unrecognized bitstream format") ∧ t = s) s := by
  rw [processRaw, wp_bind, checkRaw, wp_bind, wp_get, hbuffer, wp_ite, wp_ite, wp_throw,
    if_neg (mt (isBin_iff content).mp hbin), if_neg (mt (isPartial_iff content).mp hpart)]
  exact ⟨rfl, rfl⟩

end FpgaImageReader

open FpgaImageReader

private theorem raw_image_returns {κ : Type} {callback : FpgaImageReaderCallback κ} {I : κ → Prop}
    (h : callback.AcceptsAll GrantsBuffer I) {k : κ} (hk : I k) {file : File}
    (hbit : ¬ HasBitSignature file.content) {fuel : Nat} (hfuel : file.content.length ≤ fuel)
    (hlen : 64 ≤ file.content.length)
    (hraw : StartsBin file.content ∨ StartsPartial file.content) :
    ∃ (t : ReaderState κ) (chunks : List (List UInt8)),
      run callback fuel file k = .ok file.content.length t ∧
      deliveries t.trace = rawCheck file.content ++ chunks.map .data ∧
      chunks.flatten = file.content := by
  have hrun : wp (processFile callback fuel)
      (fun v t => v = file.content.length ∧ I t.callback ∧
        ∃ chunks, RawChunks file.content chunks ∧
          deliveries t.trace = rawCheck file.content ++ chunks.map .data)
      (fun _ _ => False) ⟨file, k, [], [], []⟩ := by
    rw [wp_processFile, if_neg (Nat.not_lt.mpr hlen), if_neg hbit]
    exact processRaw_grantsBuffer (s := headerState ⟨file, k, [], [], []⟩) h.accepts hfuel hlen rfl
      rfl hk (hraw.imp_right fun hpart => ⟨hpart, trivial⟩)
  obtain ⟨_, t, heq, rfl, -, chunks, hchunks, hdeliveries⟩ := hrun.returns
  exact ⟨t, chunks, heq, hdeliveries, hchunks.flatten⟩

/-- A callback that grants all of `BUFFER_SIZE` for a first block of fewer bytes gets the image as
it is too, but the size that is returned is too large by what the first grant has too much. -/
theorem raw_image_counts_grant {κ : Type} {callback : FpgaImageReaderCallback κ} {I : κ → Prop}
    (h : callback.AcceptsAll (fun _ grant => grant = bufferSize) I) {k : κ} (hk : I k) {file : File}
    (hbit : ¬ HasBitSignature file.content) {fuel : Nat} (hfuel : file.content.length ≤ fuel)
    (hlen : 64 ≤ file.content.length)
    (hraw : StartsBin file.content ∨ StartsPartial file.content) :
    ∃ (t : ReaderState κ) (chunks : List (List UInt8)),
      run callback fuel file k = .ok (bufferSize + (file.content.length - alignSize)) t ∧
      deliveries t.trace = rawCheck file.content ++ chunks.map .data ∧
      chunks.flatten = file.content := by
  have hsmall : min alignSize file.content.length ≤ bufferSize := by
    rw [alignSize_eq, bufferSize_eq]
    omega
  have hrun : wp (processFile callback fuel)
      (fun v t => v = bufferSize + (file.content.length - alignSize) ∧
        ∃ chunks, RawChunks file.content chunks ∧
          deliveries t.trace = rawCheck file.content ++ chunks.map .data)
      (fun _ _ => False) ⟨file, k, [], [], []⟩ := by
    rw [wp_processFile, if_neg (Nat.not_lt.mpr hlen), if_neg hbit]
    refine (processRaw_counts_grant (s := headerState ⟨file, k, [], [], []⟩) h.accepts ?_ ?_ hfuel
      hlen rfl rfl hk (hraw.imp_right fun hpart => ⟨hpart, trivial⟩)).mono ?_ fun _ _ hf => hf
    · intro g hg
      rw [hg]
      exact ⟨hsmall, Nat.le_refl _⟩
    · intro g hg
      rw [hg]
      exact Nat.min_le_left _ _
    · rintro v t ⟨⟨g, hg, hv⟩, -, hchunks⟩
      rw [hg] at hv
      exact ⟨hv, hchunks⟩
  obtain ⟨v, t, heq, hv, chunks, hchunks, hdeliveries⟩ := hrun.returns
  rw [hv] at heq
  exact ⟨t, chunks, heq, hdeliveries, hchunks.flatten⟩

/-- A file without the `.bit` signature is refused before anything is delivered, or is delivered
as it is, behind the check of the ID of a `.partial` image. -/
theorem raw_image_unchanged {κ : Type} {callback : FpgaImageReaderCallback κ} {I : κ → Prop}
    (h : callback.AcceptsAll GrantsBuffer I) {k : κ} (hk : I k) (file : File)
    (hbit : ¬ HasBitSignature file.content) (fuel : Nat) (hfuel : file.content.length ≤ fuel) :
    (file.content.length < 64 →
      ∃ t, run callback fuel file k = .error (.throws .truncatedFile) t ∧
        deliveries t.trace = []) ∧
    (64 ≤ file.content.length → ¬ StartsBin file.content → ¬ StartsPartial file.content →
      ∃ t, run callback fuel file k =
          .error (.throws (.runtimeError "Unrecognized bitstream format")) t ∧
        deliveries t.trace = []) ∧
    (64 ≤ file.content.length → StartsBin file.content →
      ∃ (t : ReaderState κ) (chunks : List (List UInt8)),
        run callback fuel file k = .ok file.content.length t ∧
        deliveries t.trace = chunks.map .data ∧ chunks.flatten = file.content) ∧
    (64 ≤ file.content.length → ¬ StartsBin file.content → StartsPartial file.content →
      ∃ (t : ReaderState κ) (chunks : List (List UInt8)),
        run callback fuel file k = .ok file.content.length t ∧
        deliveries t.trace = .staticID (partialId file.content) :: chunks.map .data ∧
        chunks.flatten = file.content) := by
  have hds : deliveries ([] ++ [ImageEvent.readBuffer 0 alignSize]) = [] := rfl
  refine ⟨?_, ?_, ?_, ?_⟩
  · intro hshort
    have hrun : wp (processFile callback fuel) (fun _ _ => False)
        (fun e t => e = .throws .truncatedFile ∧ deliveries t.trace = [])
        ⟨file, k, [], [], []⟩ := by
      rw [wp_processFile, if_pos hshort]
      exact ⟨rfl, hds⟩
    obtain ⟨_, t, heq, rfl, hdeliveries⟩ := hrun.stops
    exact ⟨t, heq, hdeliveries⟩
  · intro hlen hbin hpart
    have hrun : wp (processFile callback fuel) (fun _ _ => False)
        (fun e t => e = .throws (.runtimeError "Unrecognized bitstream format") ∧
          deliveries t.trace = []) ⟨file, k, [], [], []⟩ := by
      rw [wp_processFile, if_neg (Nat.not_lt.mpr hlen), if_neg hbit]
      refine (processRaw_unrecognized (s := headerState ⟨file, k, [], [], []⟩) rfl hbin
        hpart).mono (fun _ _ hf => hf) ?_
      rintro _ _ ⟨rfl, rfl⟩
      exact ⟨rfl, hds⟩
    obtain ⟨_, t, heq, rfl, hdeliveries⟩ := hrun.stops
    exact ⟨t, heq, hdeliveries⟩
  · intro hlen hbin
    have hrun := raw_image_returns h hk hbit hfuel hlen (.inl hbin)
    rwa [rawCheck, if_pos hbin] at hrun
  · intro hlen hbin hpart
    have hrun := raw_image_returns h hk hbit hfuel hlen (.inr hpart)
    rwa [rawCheck, if_neg hbin] at hrun

/-- A `.bin` file of 64 bytes. -/
theorem raw_image_unchanged_ones :
    ∃ (t : ReaderState (FpgaImageFileWriter (List UInt8))) (chunks : List (List UInt8)),
      run (FpgaImageFileWriter.callback appendToFile) 64 ⟨List.replicate 64 255⟩
        ⟨[], []⟩ = .ok 64 t ∧
      deliveries t.trace = chunks.map .data ∧ chunks.flatten = List.replicate 64 255 :=
  (raw_image_unchanged (appendToFile_acceptsAll.mono fun _ _ => GrantsBuffer.of_eq_min) trivial
    ⟨List.replicate 64 255⟩ (by decide) 64 (by decide)).2.2.1 (by decide) (by decide)

end Dyplo
