import Dyplo.Hardware.DmaTransfer
import Dyplo.Image.Raw

/-!
# Programming raw images over DMA

The ICAP reads the blocks in the order in which they are enqueued. What it gets of a raw image are
the words of the image; NOPs stand only behind an image with an odd number of words and behind
the last image.
-/

namespace Dyplo

/-- What the device reads of an enqueued block. -/
def Block.sent (block : Block) : List UInt8 := block.data.take block.bytesUsed

/-- A raw image of whole words for the static design `id`. -/
structure RawImage (id : Nat) (content : List UInt8) : Prop where
  length : 64 ≤ content.length
  words : 4 ∣ content.length
  signature : ¬ HasBitSignature content
  format : StartsBin content ∨ StartsPartial content ∧ partialId content = id

namespace HardwareProgrammer

variable {δ : Type} {driver : Driver δ} {S id : Nat} {p : HardwareProgrammer δ}

/-- Files one after the other through one programmer, and its destructor. -/
def program (driver : Driver δ) (fuel : Nat) (images : List (List UInt8)) : ProgrammerM δ Unit := do
  images.forM fun content => do
    let _ ← fromFile driver fuel ⟨content⟩
  destroy driver

private theorem padded_append {xs : List UInt8} (hxs : 8 ∣ xs.length) (ys : List UInt8) :
    padded (xs ++ ys) = xs ++ padded ys := by
  have hmod : (xs ++ ys).length % 8 = ys.length % 8 := by
    rw [List.length_append]
    omega
  rw [padded, padded, hmod]
  split_ifs
  · rfl
  · rw [List.append_assoc]

/-- Only the last chunk of an image can be padded. -/
theorem sent_rawChunks {content : List UInt8} {cs : List (List UInt8)} {blocks : List Block}
    (hchunks : RawChunks content cs) (h4 : 4 ∣ content.length)
    (hsent : List.Forall₂ (Sent S) cs blocks) : blocks.flatMap Block.sent = padded content := by
  induction hsent generalizing content with
  | nil =>
    rw [← hchunks.flatten]
    rfl
  | @cons chunk block cs blocks hblock hrest ih =>
    have hcontent : chunk ++ cs.flatten = content := hchunks.flatten
    cases hcs : cs with
    | nil =>
      rw [hcs, List.flatten_nil, List.append_nil] at hcontent
      subst hcontent
      rw [hcs] at hrest
      cases hrest
      rw [List.flatMap_singleton]
      exact hblock.content h4
    | cons next cs' =>
      have h8 : 8 ∣ chunk.length := by
        apply hchunks.aligned
        rw [hcs, List.dropLast_cons_cons]
        exact List.mem_cons_self
      have hrestChunks : RawChunks cs.flatten cs := by
        refine ⟨rfl, fun c hc => hchunks.nonempty c (List.mem_cons_of_mem _ hc),
          fun c hc => hchunks.short c (List.mem_cons_of_mem _ hc), fun c hc => ?_⟩
        apply hchunks.aligned
        rw [List.dropLast_cons_of_ne_nil (by rw [hcs]; exact List.cons_ne_nil _ _)]
        exact List.mem_cons_of_mem _ hc
      have h4rest : 4 ∣ cs.flatten.length := by
        rw [← hcontent, List.length_append] at h4
        omega
      have hfirst : block.sent = chunk := by
        have hpadded := hblock.content (by omega)
        rwa [padded, if_pos (by omega)] at hpadded
      rw [List.flatMap_cons, ih hrestChunks h4rest, hfirst, ← hcontent, padded_append h8]

/-- After the images `done`. -/
structure Programmed (S id : Nat) (done : List (List UInt8)) (fifo : HardwareDMAFifo)
    (p : HardwareProgrammer δ) : Prop where
  knows : p.Knows id
  overBlocks : OverBlocks S fifo p
  sent : fifo.enqueued.flatMap Block.sent = done.flatMap padded
  aligned : ∀ block ∈ fifo.enqueued, 8 ∣ block.bytesUsed ∧ block.bytesUsed ≤ S

theorem forall_sent {cs : List (List UInt8)} {blocks : List Block}
    (h : List.Forall₂ (Sent S) cs blocks) :
    ∀ block ∈ blocks, 8 ∣ block.bytesUsed ∧ block.bytesUsed ≤ S := by
  induction h with
  | nil => nofun
  | cons hblock _ ih =>
    rw [List.forall_mem_cons]
    exact ⟨⟨hblock.aligned, hblock.fits⟩, ih⟩

theorem nops_length (count : Nat) : (nops count).length = 4 * count := by
  rw [nops, List.length_flatten, List.map_replicate, List.sum_replicate_nat, Nat.mul_comm]
  rfl

variable (hdriver : driver.KeepsSize) (hreports : driver.Reports id) (hS : bufferSize ≤ S)
  (h8 : 8 ∣ S) (hlt : S < 2 ^ 32)
include hdriver hreports hS h8 hlt

/-- One more image. -/
theorem fromFile_spec {done : List (List UInt8)} {fifo : HardwareDMAFifo}
    (hp : Programmed S id done fifo p) {content : List UInt8} (hraw : RawImage id content)
    {fuel : Nat} (hfuel : content.length ≤ fuel) :
    wp (fromFile driver fuel ⟨content⟩)
      (fun _ t => ∃ fifo', Programmed S id (done ++ [content]) fifo' t)
      (fun _ _ => ¬ driver.Reliable) p := by
  have hgrants : ∀ n g, g = min n S → GrantsBuffer n g := by
    rintro n g rfl
    constructor <;> omega
  have haccepts := (accepts hdriver hreports h8 hlt fifo.enqueued).mono hgrants fun _ he => he
  have hready : HasSent S id fifo.enqueued [] p :=
    ⟨hp.knows, fifo, [], hp.overBlocks, (List.append_nil _).symm, .nil⟩
  rw [wp_fromFile, FpgaImageReader.wp_processFile, if_neg (Nat.not_lt.mpr hraw.length),
    if_neg hraw.signature]
  refine (FpgaImageReader.processRaw_grantsBuffer
    (s := FpgaImageReader.headerState ⟨⟨content⟩, p, [], [], []⟩) haccepts hfuel hraw.length rfl
    rfl hready hraw.format).mono ?_ fun _ _ he => he
  rintro _ t ⟨-, ⟨hknows, fifo', blocks, ht, henqueued, hsent⟩, cs, hcs, hds⟩
  have hchunks : chunks (deliveries t.trace) = cs := by
    rw [hds, chunks_append, chunks_append, chunks_data, FpgaImageReader.rawCheck]
    split_ifs <;> rfl
  rw [hchunks] at hsent
  refine ⟨fifo', hknows, ht, ?_, ?_⟩
  · rw [henqueued, List.flatMap_append, hp.sent, sent_rawChunks hcs hraw.words hsent,
      List.flatMap_append, List.flatMap_singleton]
  · intro block hblock
    rw [henqueued] at hblock
    rcases List.mem_append.mp hblock with hblock | hblock
    · exact hp.aligned block hblock
    · exact forall_sent hsent block hblock

private theorem images_spec (images done : List (List UInt8)) {fifo : HardwareDMAFifo}
    (hp : Programmed S id done fifo p) (himages : ∀ image ∈ images, RawImage id image) {fuel : Nat}
    (hfuel : ∀ image ∈ images, image.length ≤ fuel) :
    wp (forM images fun content => do let _ ← fromFile driver fuel ⟨content⟩)
      (fun _ t => ∃ fifo', Programmed S id (done ++ images) fifo' t)
      (fun _ _ => ¬ driver.Reliable) p := by
  induction images generalizing done p fifo with
  | nil =>
    rw [List.forM_nil, wp_pure, List.append_nil]
    exact ⟨fifo, hp⟩
  | cons image images ih =>
    rw [List.forall_mem_cons] at himages hfuel
    rw [List.forM_cons, wp_bind, wp_bind]
    refine (fromFile_spec hdriver hreports hS h8 hlt hp himages.1 hfuel.1).mono ?_ fun _ _ he => he
    rintro _ t ⟨fifo', ht⟩
    rw [wp_pure, List.append_cons]
    exact ih _ ht himages.2 hfuel.2

omit hreports hlt in
/-- The destructor sends a last block of NOPs. -/
theorem sendNOP_spec {done : List (List UInt8)} {fifo : HardwareDMAFifo}
    (hp : Programmed S id done fifo p) :
    wp (sendNOP driver estimatedFifoSize)
      (fun _ t => ∃ fifo', OverBlocks S fifo' t ∧
        fifo'.enqueued.flatMap Block.sent = done.flatMap padded ++ nops estimatedFifoSize ∧
        ∀ block ∈ fifo'.enqueued, 8 ∣ block.bytesUsed ∧ block.bytesUsed ≤ S)
      (fun _ _ => ¬ driver.Reliable) p := by
  have hcount : (estimatedFifoSize + 1) % 2 ^ 32 &&& 0xFFFFFFFE = 256 := by decide
  have hbytes : 256 * 4 % 2 ^ 32 = 1024 := by decide
  have := bufferSize_eq
  simp only [sendNOP, hcount, hbytes, wp_bind, wp_get, hp.overBlocks.dmaWriter, wp_pure]
  refine (checkOut_spec hdriver hp.overBlocks).mono ?_ fun _ _ he => he.2
  rintro out t ⟨ht, henqueued, hblock, hget⟩
  have hsize := ht.configured.size _ (List.mem_of_getElem? hget)
  have hfits : ¬ S < 1024 := by omega
  rw [hsize, if_neg hfits, if_neg hfits]
  refine (enqueueBlock_spec hdriver ht (ht.block_lt _ hblock) rfl).mono ?_ fun _ _ he => he.2
  rintro _ u ⟨fifo', hu, henqueued', -⟩
  have hnops : (nops 256).length = 1024 := nops_length 256
  refine ⟨fifo', hu, ?_, ?_⟩
  · rw [henqueued', henqueued, List.flatMap_append, hp.sent, List.flatMap_singleton, Block.sent,
      ← hnops, take_overlay_zero]
    rfl
  · intro block hmem
    rw [henqueued', henqueued] at hmem
    rcases List.mem_append.mp hmem with hmem | hmem
    · exact hp.aligned block hmem
    · rw [List.mem_singleton.mp hmem]
      exact ⟨show 8 ∣ 1024 by decide, show 1024 ≤ S by omega⟩

omit hreports hlt in
/-- The destructor sends its NOPs and waits for the driver to have read them. -/
theorem destroy_spec {done : List (List UInt8)} {fifo : HardwareDMAFifo}
    (hp : Programmed S id done fifo p) :
    wp (destroy driver)
      (fun _ t => ∃ fifo', t.dmaWriter = some fifo' ∧
        fifo'.enqueued.flatMap Block.sent = done.flatMap padded ++ nops estimatedFifoSize ∧
        ∀ block ∈ fifo'.enqueued, 8 ∣ block.bytesUsed ∧ block.bytesUsed ≤ S)
      (fun _ _ => ¬ driver.Reliable) p := by
  rw [destroy, wp_bind]
  refine (sendNOP_spec hdriver hS h8 hp).mono ?_ fun _ _ he => he
  rintro _ u ⟨fifo', hu, hsent, haligned⟩
  simp only [flushDma, wp_bind, wp_get, hu.dmaWriter, wp_onDevice, wp_modify]
  refine (HardwareDMAFifo.flush_spec hu.configured hdriver).mono ?_ fun _ _ he => he
  rintro fifo'' d ⟨-, henqueued⟩
  rw [← henqueued] at hsent haligned
  rw [flushFifo, wp_bind, wp_get]
  split
  · rw [wp_pure]
    exact ⟨fifo'', rfl, hsent, haligned⟩
  · simp only [wp_bind, wp_onDevice, wp_attempt]
    by_cases hreliable : driver.Reliable
    · refine (hreliable.fsync _).mono ?_ fun _ _ hf => hf.elim
      intro _ _ _
      rw [wp_pure]
      exact ⟨fifo'', rfl, hsent, haligned⟩
    · refine wp_of_forall ?_ ?_
      · intro _ _
        rw [wp_pure]
        exact ⟨fifo'', rfl, hsent, haligned⟩
      · intro errno _
        rw [wp_ite, wp_pure, wp_throwIOException]
        split_ifs
        · exact ⟨fifo'', rfl, hsent, haligned⟩
        · exact hreliable

private theorem program_spec {fifo : HardwareDMAFifo} (hfifo : fifo.Configured S)
    (hnew : fifo.enqueued = []) (device : δ) (images : List (List UInt8))
    (himages : ∀ image ∈ images, RawImage id image) {fuel : Nat}
    (hfuel : ∀ image ∈ images, image.length ≤ fuel) :
    wp (program driver fuel images)
      (fun _ t => ∃ fifo', t.dmaWriter = some fifo' ∧
        fifo'.enqueued.flatMap Block.sent = images.flatMap padded ++ nops estimatedFifoSize ∧
        ∀ block ∈ fifo'.enqueued, 8 ∣ block.bytesUsed ∧ block.bytesUsed ≤ S)
      (fun _ _ => ¬ driver.Reliable) (overDMA fifo device) := by
  have hstart : Programmed S id [] fifo (overDMA fifo device) := by
    refine ⟨nofun, ⟨rfl, hfifo, nofun⟩, ?_, ?_⟩
    · rw [hnew]
      rfl
    · rw [hnew]
      nofun
  rw [program, wp_bind]
  refine (images_spec hdriver hreports hS h8 hlt images [] hstart himages hfuel).mono ?_
    fun _ _ he => he
  rintro _ t ⟨fifo', ht⟩
  exact destroy_spec hdriver hS h8 ht

omit hdriver hreports hS h8 hlt in
/-- What the ICAP reads of raw images: the words of each image, a NOP behind an odd number of
them, and the NOPs of the destructor. Unless the driver fails, all of it is programmed. -/
theorem raw_images_over_dma (hdriver : driver.KeepsSize) (hreports : driver.Reports id)
    (hS : bufferSize ≤ S) (h8 : 8 ∣ S) (hlt : S < 2 ^ 32) {fifo : HardwareDMAFifo}
    (hfifo : fifo.Configured S) (hnew : fifo.enqueued = []) (device : δ)
    (images : List (List UInt8)) (himages : ∀ image ∈ images, RawImage id image) (fuel : Nat)
    (hfuel : ∀ image ∈ images, image.length ≤ fuel) :
    (∀ t, program driver fuel images (overDMA fifo device) = .ok () t →
      ∃ fifo', t.dmaWriter = some fifo' ∧
        fifo'.enqueued.flatMap Block.sent = images.flatMap padded ++ nops estimatedFifoSize ∧
        ∀ block ∈ fifo'.enqueued, 8 ∣ block.bytesUsed ∧ block.bytesUsed ≤ S) ∧
    (driver.Reliable → ∃ t, program driver fuel images (overDMA fifo device) = .ok () t) := by
  have hrun := program_spec hdriver hreports hS h8 hlt hfifo hnew device images himages hfuel
  constructor
  · intro t heq
    exact (wp_of_ok heq).mp hrun
  · intro hreliable
    have hreturns := hrun.mono (fun _ _ _ => trivial) fun _ _ he => he hreliable
    obtain ⟨_, t, heq, -⟩ := hreturns.returns
    exact ⟨t, heq⟩

end HardwareProgrammer

/-- Two free blocks, as the programmer configures them. -/
def HardwareDMAFifo.twoBlocks : HardwareDMAFifo where
  blocks := [⟨0, 0, programmerBlocksize, 0, 0, 0, List.replicate programmerBlocksize 0⟩,
    ⟨1, programmerBlocksize, programmerBlocksize, 0, 0, 0, List.replicate programmerBlocksize 0⟩]
  blocksHead := 0
  enqueued := []

theorem HardwareDMAFifo.twoBlocks_configured : twoBlocks.Configured programmerBlocksize where
  blocksHead_lt := by decide
  size := by
    intro block hblock
    rcases List.mem_pair.mp hblock with rfl | rfl <;> rfl

open HardwareProgrammer in
/-- An image with an even and one with an odd number of words. -/
theorem HardwareProgrammer.raw_images_over_dma_two :
    ∃ t fifo, program (.ideal 7) 68 [List.replicate 64 255, List.replicate 68 255]
        (overDMA .twoBlocks ()) = .ok () t ∧ t.dmaWriter = some fifo ∧
      fifo.enqueued.flatMap Block.sent =
        [List.replicate 64 255, List.replicate 68 255].flatMap padded ++ nops estimatedFifoSize ∧
      ∀ block ∈ fifo.enqueued, 8 ∣ block.bytesUsed ∧ block.bytesUsed ≤ programmerBlocksize := by
  have himages : ∀ image ∈ [List.replicate 64 (255 : UInt8), List.replicate 68 255],
      RawImage 7 image := by
    rintro image himage
    rcases List.mem_pair.mp himage with rfl | rfl
    · exact ⟨by decide, by decide, by decide, .inl (by decide)⟩
    · exact ⟨by decide, by decide, by decide, .inl (by decide)⟩
  have hfuel : ∀ image ∈ [List.replicate 64 (255 : UInt8), List.replicate 68 255],
      image.length ≤ 68 := by
    rintro image himage
    rcases List.mem_pair.mp himage with rfl | rfl <;> decide
  have hboth := raw_images_over_dma (Driver.ideal_keepsSize 7) (Driver.ideal_reports (by decide))
    (by decide) (by decide) (by decide) HardwareDMAFifo.twoBlocks_configured rfl () _ himages 68
    hfuel
  obtain ⟨t, heq⟩ := hboth.2 (Driver.ideal_reliable 7)
  obtain ⟨fifo, hfifo⟩ := hboth.1 t heq
  exact ⟨t, fifo, heq, hfifo⟩

end Dyplo
