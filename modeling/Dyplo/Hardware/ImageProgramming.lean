import Dyplo.Hardware.BufferBounds
import Dyplo.Hardware.RawProgramming
import Dyplo.Image.ImageWords

/-!
# The life of a programmer

Files go through one programmer, one after the other. Whatever is refused on the way, the ICAP
reads the words of the images that are taken, over a DMA fifo as over a CPU fifo.
-/

namespace Dyplo

/-- What the file `content` adds to what has been programmed for the static design `id`: the words
of an image, or nothing if it is refused. -/
inductive Adds (id cap : Nat) (content : List UInt8) : List (List UInt8) → Prop
  | image {words : List UInt8} (h : ImageFile (· = id) cap content words) :
      Adds id cap content [words]
  | truncated (h : content.length < 64) : Adds id cap content []
  | unrecognized (signature : ¬ HasBitSignature content) (hbin : ¬ StartsBin content)
      (hpart : ¬ StartsPartial content) : Adds id cap content []
  | mismatch (h : Mismatch id content) : Adds id cap content []

private theorem Adds.bounded {id cap : Nat} {content : List UInt8} {added : List (List UInt8)}
    (h : Adds id cap content added) : Adds id bufferSize content added := by
  cases h with
  | image h => exact .image h.bounded
  | truncated h => exact .truncated h
  | unrecognized signature hbin hpart => exact .unrecognized signature hbin hpart
  | mismatch h => exact .mismatch h

theorem ImageFile.plain {known : Nat → Prop} {cap size : Nat} (h : size < 2 ^ 32)
    {payload : List UInt8} (hpayload : payload.length = size) (h4 : 4 ∣ size) (hlong : 43 ≤ size)
    (hends : 21 + size ≤ alignSize) :
    ImageFile known cap ((plainHeader size h).encode ++ (payload ++ [])) (swapped payload) := by
  have hheader : (plainHeader size h).encode.length = 21 := by
    rw [BitHeader.encode_length]
    rfl
  have hlength : ((plainHeader size h).encode ++ (payload ++ [])).length = 21 + size := by
    rw [List.append_nil, List.length_append, hheader, hpayload]
  have hscan := scanTags_plainHeader size h (payload ++ [])
    (by rw [firstRead, hlength, alignSize_eq]; omega)
  refine .bit _ payload [] (by rw [hheader]; decide) hpayload (show 0 < size by omega) h4
    (by omega) ?_ (.inl (hheader.symm ▸ hends))
  rw [bitItems, hscan]
  intro item hitem id hid
  obtain rfl := List.mem_singleton.mp hitem
  rw [TagItem.staticID, TagItem.description, parseDescriptionTag, Description.fields] at hid
  cases hid

/-- An image with an odd number of words, one for another static design, the beginning of a file,
and a `.bit` image. -/
def mixedFiles : List (Nat × File) :=
  [(68, ⟨List.replicate 68 255⟩),
    (72, ⟨[0, 0, 0, 8, 255, 255, 255, 255] ++ List.replicate 64 0⟩),
    (3, ⟨[1, 2, 3]⟩),
    (85, ⟨(plainHeader 64 (by decide)).encode ++ (List.replicate 64 1 ++ [])⟩)]

def mixedWords : List (List (List UInt8)) :=
  [[List.replicate 68 255], [], [], [swapped (List.replicate 64 1)]]

private theorem mixedFiles_add (cap : Nat) : List.Forall₂
    (fun file added => file.2.content.length ≤ file.1 ∧ Adds 7 cap file.2.content added)
    mixedFiles mixedWords := by
  refine .cons ⟨by decide, .image (.raw ?_ ?_ ?_ (.inl ?_))⟩ (.cons ⟨by decide, .mismatch ?_⟩
    (.cons ⟨by decide, .truncated (by decide)⟩ (.cons ⟨by decide, .image ?_⟩ .nil)))
  · decide
  · decide
  · decide
  · decide
  · exact .ofPartial (by decide) (by decide) (by decide) (by decide)
  · exact .plain (by decide) List.length_replicate (by decide) (by decide) (by decide)

/-- A driver that writes all it is given. -/
def Driver.WritesWhole {δ : Type} (driver : Driver δ) : Prop :=
  ∀ data d, wp (driver.write data) (fun n _ => n = data.length) (fun _ _ => False) d

theorem Driver.ideal_writesWhole (id : Nat) : (Driver.ideal id).WritesWhole :=
  fun _ _ => (wp_pure _).mpr rfl

namespace HardwareProgrammer

open FpgaImageReader

variable {δ : Type} {driver : Driver δ} {S id : Nat} {p q : HardwareProgrammer δ}

theorem fromFile_refuses (hreports : driver.Reports id) (hp : p.Knows id) {content : List UInt8}
    (h : Adds id S content []) (fuel : Nat) :
    wp (fromFile driver fuel ⟨content⟩) (fun _ _ => False)
      (fun e t => (∃ x, e = .throws x) ∧ t.Knows id ∧ p.SameFifos t) p := by
  have hheader := untouched_headerState hp content
  have hrun : wp (processFile (callback driver) fuel) (fun _ _ => False)
      (fun e t => (∃ x, e = .throws x) ∧ Untouched id p t) ⟨⟨content⟩, p, [], [], []⟩ := by
    cases h with
    | truncated hshort =>
      rw [wp_processFile, if_pos hshort]
      exact ⟨⟨_, rfl⟩, hheader⟩
    | unrecognized signature hbin hpart =>
      rw [wp_processFile]
      split_ifs with hshort
      · exact ⟨⟨_, rfl⟩, hheader⟩
      · refine (processRaw_unrecognized rfl hbin hpart).mono (fun _ _ hf => hf) ?_
        rintro _ t ⟨rfl, rfl⟩
        exact ⟨⟨_, rfl⟩, hheader⟩
    | mismatch h => exact processFile_refuses hreports hp h fuel
  rw [wp_fromFile]
  exact hrun.mono (fun _ _ hf => hf) fun _ _ he => ⟨he.1, he.2.knows, he.2.sameFifos⟩

/-- A life of files that are taken or refused. -/
abbrev Life (driver : Driver δ) (id cap : Nat) (p : HardwareProgrammer δ)
    (files : List (Nat × File)) (all : List (List (List UInt8))) (q : HardwareProgrammer δ) :
    Prop :=
  (programming driver Constructed).Run p files q ∧ List.Forall₂
    (fun file added => file.2.content.length ≤ file.1 ∧ Adds id cap file.2.content added) files all

private theorem Life.adds {I : List (List UInt8) → HardwareProgrammer δ → Prop}
    (hreports : driver.Reports id) (hknows : ∀ done p, I done p → p.Knows id)
    (hsame : ∀ done p q, I done p → q.Knows id → p.SameFifos q → I done q)
    (himage : ∀ done p fuel content words, I done p → ImageFile (· = id) S content words →
      content.length ≤ fuel →
      wp (fromFile driver fuel ⟨content⟩) (fun _ t => I (done ++ [words]) t) (fun _ _ => False) p)
    {files : List (Nat × File)} {all : List (List (List UInt8))}
    (hlife : Life driver id S p files all q) (hp : I [] p) : I all.flatten q := by
  refine hlife.1.accumulates ?_ hlife.2 hp
  rintro done p ⟨fuel, file⟩ q added hI rfl ⟨hfuel, hadds⟩
  apply finalState_of_wp
  have hrefused : added = [] → wp (fromFile driver fuel file) (fun _ t => I (done ++ added) t)
      (fun _ t => I (done ++ added) t) p := by
    rintro rfl
    rw [List.append_nil]
    exact (fromFile_refuses hreports (hknows _ _ hI) hadds fuel).mono (fun _ _ hf => hf.elim)
      fun _ t he => hsame _ _ _ hI he.2.1 he.2.2
  cases hadds with
  | image h => exact (himage _ _ _ _ _ hI h hfuel).mono (fun _ _ ht => ht) fun _ _ hf => hf.elim
  | truncated => exact hrefused rfl
  | unrecognized => exact hrefused rfl
  | mismatch => exact hrefused rfl

section Blocks

variable (hdriver : driver.KeepsSize) (hreports : driver.Reports id) (hS : bufferSize ≤ S)
  (h8 : 8 ∣ S)
include hdriver hreports hS h8

theorem fromFile_sends (hlt : S < 2 ^ 32) {done : List (List UInt8)} {fifo : HardwareDMAFifo}
    (hp : Programmed S id done fifo p) {content words : List UInt8}
    (himage : ImageFile (· = id) S content words) {fuel : Nat} (hfuel : content.length ≤ fuel) :
    wp (fromFile driver fuel ⟨content⟩)
      (fun n t => n = words.length % 2 ^ 32 ∧ ∃ fifo', Programmed S id (done ++ [words]) fifo' t)
      (fun _ _ => ¬ driver.Reliable) p := by
  have hready : HasSent S id fifo.enqueued [] p :=
    ⟨hp.knows, fifo, [], hp.overBlocks, (List.append_nil _).symm, .nil⟩
  rw [wp_fromFile]
  refine (image_spec (accepts hdriver hreports h8 hlt fifo.enqueued) h8 hS himage hfuel
    hready).mono ?_ fun _ _ he => he
  rintro _ t ⟨rfl, ⟨hknows, fifo', blocks, ht, henqueued, hsent⟩, hchunks⟩
  refine ⟨rfl, fifo', hknows, ht, ?_, ?_⟩
  · rw [henqueued, List.flatMap_append, hp.sent, sent_rawChunks hchunks himage.words_dvd hsent,
      List.flatMap_append, List.flatMap_singleton]
  · intro block hblock
    rw [henqueued] at hblock
    rcases List.mem_append.mp hblock with hblock | hblock
    · exact hp.aligned block hblock
    · exact forall_sent hsent block hblock

omit hreports in
theorem destroy_sends {done : List (List UInt8)} {fifo : HardwareDMAFifo}
    (hp : Programmed S id done fifo p) (hreliable : driver.Reliable) :
    wp (destroy driver)
      (fun _ t => ∃ fifo', t.dmaWriter = some fifo' ∧
        fifo'.enqueued.flatMap Block.sent = done.flatMap padded ++ nops estimatedFifoSize ∧
        ∀ block ∈ fifo'.enqueued, 8 ∣ block.bytesUsed ∧ block.bytesUsed ≤ S)
      (fun _ _ => False) p :=
  (destroy_spec hdriver hS h8 hp).mono (fun _ _ ht => ht) fun _ _ he => he hreliable

end Blocks

/-- A programmer over a CPU fifo that has taken `written`. -/
structure OverStream (written : List UInt8) (p : HardwareProgrammer δ) : Prop where
  dmaWriter : p.dmaWriter = none
  cpuFifo : p.cpuFifo = some ⟨written⟩

theorem OverStream.of_sameFifos {written : List UInt8} (hp : OverStream written p)
    (hpq : p.SameFifos q) : OverStream written q where
  dmaWriter := hpq.dmaWriter.trans hp.dmaWriter
  cpuFifo := hpq.cpuFifo.trans hp.cpuFifo

section Stream

variable {written : List UInt8}

private theorem writeFifo_spec (hwrites : driver.WritesWhole) (data : List UInt8) :
    wp (writeFifo driver ⟨written⟩ data)
      (fun n t => n = data.length ∧
        ∃ d, t = { p with cpuFifo := some ⟨written ++ data⟩, device := d })
      (fun _ _ => False) p := by
  simp only [writeFifo, wp_bind, wp_onDevice, wp_attempt, wp_modify, wp_pure]
  refine (hwrites data p.device).mono ?_ fun _ _ hf => hf.elim
  rintro _ d rfl
  rw [List.take_length]
  exact ⟨rfl, d, rfl⟩

/-- A programmer over a CPU fifo takes an image unless the driver fails. -/
theorem accepts_stream (hreports : driver.Reports id) (hwrites : driver.WritesWhole)
    (before : List UInt8) :
    (callback driver).Accepts (fun n g => g = min n bufferSize) (· = id)
      (fun ds p => p.Knows id ∧ OverStream (before ++ (chunks ds).flatten) p)
      (fun ds _ p => p.Knows id ∧ OverStream (before ++ (chunks ds).flatten) p)
      (fun _ => ¬ driver.Reliable) where
  ready_of_granted _ _ _ h := h
  beginProcessData := by
    rintro ds n p ⟨hknows, hp⟩
    change wp (beginProcessData driver n) _ _ _
    simp only [beginProcessData, wp_bind, wp_get, hp.dmaWriter, hp.cpuFifo, wp_set, wp_pure]
    refine ⟨?_, hknows, rfl, rfl⟩
    split_ifs <;> omega
  endProcessData := by
    rintro ds g data n p ⟨hknows, hp⟩ - hlen
    change wp (endProcessData driver data n) _ _ _
    simp only [endProcessData, wp_bind, wp_get, hp.dmaWriter, hp.cpuFifo, wp_set]
    refine (writeFifo_spec hwrites _).mono ?_ fun _ _ hf => hf.elim
    rintro m t ⟨rfl, d, rfl⟩
    have hflatten : (chunks (ds ++ [.data (data.take n)])).flatten =
        (chunks ds).flatten ++ data.take n := by
      rw [chunks_append, List.flatten_append]
      exact congrArg _ List.flatten_singleton
    rw [hflatten, ← List.append_assoc]
    exact ⟨List.length_take_of_le hlen, hknows, rfl, rfl⟩
  verifyStaticID := by
    rintro ds _ p ⟨hknows, hp⟩ rfl
    refine (verifyStaticID_accepts hreports hknows).mono ?_ fun _ _ he => he
    rintro _ t ⟨ht, hfifos⟩
    refine ⟨ht, ?_⟩
    rw [chunks_append]
    exact (List.append_nil _).symm ▸ hp.of_sameFifos hfifos

theorem fromFile_writes (hreports : driver.Reports id) (hwrites : driver.WritesWhole)
    (hp : p.Knows id ∧ OverStream written p) {content words : List UInt8}
    (himage : ImageFile (· = id) bufferSize content words) {fuel : Nat}
    (hfuel : content.length ≤ fuel) :
    wp (fromFile driver fuel ⟨content⟩)
      (fun n t => n = words.length % 2 ^ 32 ∧ t.Knows id ∧ OverStream (written ++ words) t)
      (fun _ _ => ¬ driver.Reliable) p := by
  rw [wp_fromFile]
  refine (image_spec (accepts_stream hreports hwrites written) (by decide) (Nat.le_refl _) himage
    hfuel (k := p) ⟨hp.1, ?_⟩).mono ?_ fun _ _ he => he
  · exact (List.append_nil written).symm ▸ hp.2
  · rintro _ t ⟨rfl, ⟨hknows, ht⟩, hchunks⟩
    rw [hchunks.flatten] at ht
    exact ⟨rfl, hknows, ht⟩

theorem destroy_writes (hreliable : driver.Reliable) (hwrites : driver.WritesWhole)
    (hp : OverStream written p) :
    wp (destroy driver) (fun _ t => OverStream (written ++ nops estimatedFifoSize) t)
      (fun _ _ => False) p := by
  have hcount : (estimatedFifoSize + 1) % 2 ^ 32 &&& 0xFFFFFFFE = estimatedFifoSize := by decide
  have hbytes : estimatedFifoSize * 4 % 2 ^ 32 = estimatedFifoSize * 4 := by decide
  have hnops : (nops estimatedFifoSize).take (estimatedFifoSize * 4) = nops estimatedFifoSize :=
    List.take_of_length_le (by rw [nops_length]; omega)
  simp only [destroy, sendNOP, hcount, hbytes, hnops, wp_bind, wp_get, hp.dmaWriter, hp.cpuFifo]
  refine (writeFifo_spec hwrites _).mono ?_ fun _ _ hf => hf
  rintro _ t ⟨-, d, rfl⟩
  simp only [flushDma, flushFifo, wp_bind, wp_get, wp_pure, hp.dmaWriter, wp_onDevice, wp_attempt]
  exact (hreliable.fsync _).mono (fun _ _ _ => ⟨rfl, rfl⟩) fun _ _ hf => hf.elim

end Stream

theorem programmed_of_life (hdriver : driver.KeepsSize) (hreports : driver.Reports id)
    (hreliable : driver.Reliable) (hS : bufferSize ≤ S) (h8 : 8 ∣ S) (hlt : S < 2 ^ 32)
    {fifo : HardwareDMAFifo} (hfifo : fifo.Configured S) (hnew : fifo.enqueued = []) {device : δ}
    {files : List (Nat × File)} {all : List (List (List UInt8))}
    (hlife : Life driver id S (overDMA fifo device) files all p) :
    ∃ fifo', Programmed S id all.flatten fifo' p := by
  have hstart : Programmed S id [] fifo (overDMA fifo device) := by
    refine ⟨by simp [Knows, overDMA], ⟨rfl, hfifo, by simp [overDMA]⟩, ?_, ?_⟩
    · rw [hnew]
      rfl
    · rw [hnew]
      simp
  apply Life.adds (I := fun done p => ∃ fifo', Programmed S id done fifo' p) hreports
    (fun _ _ ⟨_, hp⟩ => hp.knows) _ _ hlife ⟨fifo, hstart⟩
  · rintro done p q ⟨fifo', hp⟩ hknows hsame
    exact ⟨fifo', hknows, hp.overBlocks.of_sameFifos hsame, hp.sent, hp.aligned⟩
  · rintro done p fuel content words ⟨fifo', hp⟩ himage hfuel
    exact (fromFile_sends hdriver hreports hS h8 hlt hp himage hfuel).mono (fun _ _ ht => ht.2)
      fun _ _ he => he hreliable

theorem overStream_of_life (hreports : driver.Reports id) (hreliable : driver.Reliable)
    (hwrites : driver.WritesWhole) {device : δ} {files : List (Nat × File)}
    {all : List (List (List UInt8))}
    (hlife : Life driver id bufferSize (overCPU device) files all p) :
    p.Knows id ∧ OverStream all.flatten.flatten p := by
  apply Life.adds (I := fun done p => p.Knows id ∧ OverStream done.flatten p) hreports
    (fun _ _ hp => hp.1) _ _ hlife ⟨by simp [Knows, overCPU], rfl, rfl⟩
  · intro done p q hp hknows hsame
    exact ⟨hknows, hp.2.of_sameFifos hsame⟩
  · intro done p fuel content words hp himage hfuel
    rw [List.flatten_append, List.flatten_singleton]
    exact (fromFile_writes hreports hwrites hp himage hfuel).mono (fun _ _ ht => ht.2)
      fun _ _ he => he hreliable

/-- What the ICAP reads in the life of a programmer over DMA: the words of the images that are
taken, with a NOP behind an odd number of them, and the NOPs of the destructor. Whatever has been
refused, the next image is taken. -/
theorem life_over_dma (hdriver : driver.KeepsSize) (hreports : driver.Reports id)
    (hreliable : driver.Reliable) (hS : bufferSize ≤ S) (h8 : 8 ∣ S) (hlt : S < 2 ^ 32)
    {fifo : HardwareDMAFifo} (hfifo : fifo.Configured S) (hnew : fifo.enqueued = []) (device : δ)
    {files : List (Nat × File)} {all : List (List (List UInt8))}
    (hlife : Life driver id S (overDMA fifo device) files all p) :
    (∃ t fifo', destroy driver p = .ok () t ∧ t.dmaWriter = some fifo' ∧
      fifo'.enqueued.flatMap Block.sent =
        all.flatten.flatMap padded ++ nops estimatedFifoSize ∧
      ∀ block ∈ fifo'.enqueued, 8 ∣ block.bytesUsed ∧ block.bytesUsed ≤ S) ∧
    ∀ content words fuel, ImageFile (· = id) S content words → content.length ≤ fuel →
      ∃ q, fromFile driver fuel ⟨content⟩ p = .ok (words.length % 2 ^ 32) q := by
  obtain ⟨fifo', hp⟩ := programmed_of_life hdriver hreports hreliable hS h8 hlt hfifo hnew hlife
  constructor
  · obtain ⟨_, t, heq, ht⟩ := (destroy_sends hdriver hS h8 hp hreliable).returns
    obtain ⟨fifo'', hfifo''⟩ := ht
    exact ⟨t, fifo'', heq, hfifo''⟩
  · intro content words fuel himage hfuel
    have hrun := (fromFile_sends hdriver hreports hS h8 hlt hp himage hfuel).mono
      (fun _ _ ht => ht.1) fun _ _ he => he hreliable
    obtain ⟨n, q, heq, rfl⟩ := hrun.returns
    exact ⟨q, heq⟩

theorem mixed_life (cap : Nat) (p : HardwareProgrammer Unit) :
    ∃ q, Life (.ideal 7) 7 cap p mixedFiles mixedWords q :=
  ⟨_, .cons rfl (.cons rfl (.cons rfl (.cons rfl (.nil _)))), mixedFiles_add cap⟩

theorem life_over_dma_mixed :
    ∃ p t fifo, (programming (.ideal 7) Constructed).Run (overDMA .twoBlocks ()) mixedFiles p ∧
      destroy (.ideal 7) p = .ok () t ∧ t.dmaWriter = some fifo ∧
      fifo.enqueued.flatMap Block.sent =
        mixedWords.flatten.flatMap padded ++ nops estimatedFifoSize := by
  obtain ⟨p, hlife⟩ := mixed_life programmerBlocksize (overDMA .twoBlocks ())
  obtain ⟨⟨t, fifo, hdestroy, hfifo, hsent, -⟩, -⟩ := life_over_dma (Driver.ideal_keepsSize 7)
    (Driver.ideal_reports (by decide)) (Driver.ideal_reliable 7) (by decide) (by decide)
    (by decide) HardwareDMAFifo.twoBlocks_configured rfl () hlife
  exact ⟨p, t, fifo, hlife.1, hdestroy, hfifo, hsent⟩

/-- Over a CPU fifo the words follow each other without a NOP. -/
theorem life_over_cpu (hreports : driver.Reports id) (hreliable : driver.Reliable)
    (hwrites : driver.WritesWhole) (device : δ) {files : List (Nat × File)}
    {all : List (List (List UInt8))}
    (hlife : Life driver id bufferSize (overCPU device) files all p) :
    (∃ t, destroy driver p = .ok () t ∧
      t.cpuFifo = some ⟨all.flatten.flatten ++ nops estimatedFifoSize⟩) ∧
    ∀ content words fuel, ImageFile (· = id) bufferSize content words → content.length ≤ fuel →
      ∃ q, fromFile driver fuel ⟨content⟩ p = .ok (words.length % 2 ^ 32) q := by
  have hp := overStream_of_life hreports hreliable hwrites hlife
  constructor
  · obtain ⟨_, t, heq, ht⟩ := (destroy_writes hreliable hwrites hp.2).returns
    exact ⟨t, heq, ht.cpuFifo⟩
  · intro content words fuel himage hfuel
    have hrun := (fromFile_writes hreports hwrites hp himage hfuel).mono
      (fun _ _ ht => ht.1) fun _ _ he => he hreliable
    obtain ⟨n, q, heq, rfl⟩ := hrun.returns
    exact ⟨q, heq⟩

theorem life_over_cpu_mixed :
    ∃ p t, (programming (.ideal 7) Constructed).Run (overCPU ()) mixedFiles p ∧
      destroy (.ideal 7) p = .ok () t ∧
      t.cpuFifo = some ⟨mixedWords.flatten.flatten ++ nops estimatedFifoSize⟩ := by
  obtain ⟨p, hlife⟩ := mixed_life bufferSize (overCPU ())
  obtain ⟨⟨t, hdestroy, hfifo⟩, -⟩ := life_over_cpu (Driver.ideal_reports (by decide))
    (Driver.ideal_reliable 7) (Driver.ideal_writesWhole 7) () hlife
  exact ⟨p, t, hlife.1, hdestroy, hfifo⟩

/-- What the ICAP reads behind the fifo of a programmer. -/
def icapInput (p : HardwareProgrammer δ) : List UInt8 :=
  match p.dmaWriter with
  | some fifo => fifo.enqueued.flatMap Block.sent
  | none => (p.cpuFifo.map HardwareFifo.written).getD []

private theorem length_le_padded (bytes : List UInt8) : bytes.length ≤ (padded bytes).length := by
  rw [padded]
  split_ifs
  · exact Nat.le_refl _
  · rw [List.length_append]
    omega

private theorem flatten_length_le_padded (all : List (List UInt8)) :
    all.flatten.length ≤ (all.flatMap padded).length := by
  induction all with
  | nil => exact Nat.le_refl _
  | cons bytes all ih =>
    have hfirst := length_le_padded bytes
    rw [List.flatten_cons, List.flatMap_cons, List.length_append, List.length_append]
    omega

private theorem flatMap_padded_eq_iff (all : List (List UInt8)) :
    all.flatMap padded = all.flatten ↔ ∀ bytes ∈ all, 8 ∣ bytes.length := by
  induction all with
  | nil => simp
  | cons bytes all ih =>
    rw [List.flatMap_cons, List.flatten_cons, List.forall_mem_cons, ← ih, Nat.dvd_iff_mod_eq_zero]
    by_cases h8 : bytes.length % 8 = 0
    · rw [padded, if_pos h8, List.append_cancel_left_eq, and_iff_right h8]
    · have hrest := flatten_length_le_padded all
      refine iff_of_false ?_ fun h => h8 h.1
      intro heq
      have hlength := congrArg List.length heq
      have hnop : (storeWord icapNopInstruction).length = 4 := rfl
      rw [padded, if_neg h8, List.length_append, List.length_append, List.length_append] at hlength
      omega

/-- Both kinds of fifo carry the same to the ICAP exactly if every image that is taken has an even
number of words. -/
theorem life_agrees_iff (hdriver : driver.KeepsSize) (hreports : driver.Reports id)
    (hreliable : driver.Reliable) (hwrites : driver.WritesWhole) (hS : bufferSize ≤ S)
    (h8 : 8 ∣ S) (hlt : S < 2 ^ 32) {fifo : HardwareDMAFifo} (hfifo : fifo.Configured S)
    (hnew : fifo.enqueued = []) (device : δ) {files : List (Nat × File)}
    {all : List (List (List UInt8))} (hdma : Life driver id S (overDMA fifo device) files all p)
    (hcpu : (programming driver Constructed).Run (overCPU device) files q) :
    ∃ t u, destroy driver p = .ok () t ∧ destroy driver q = .ok () u ∧
      (t.icapInput = u.icapInput ↔ ∀ words ∈ all.flatten, 8 ∣ words.length) := by
  obtain ⟨fifo', hp⟩ := programmed_of_life hdriver hreports hreliable hS h8 hlt hfifo hnew hdma
  have hq := overStream_of_life hreports hreliable hwrites
    ⟨hcpu, hdma.2.imp fun _ _ h => ⟨h.1, h.2.bounded⟩⟩
  obtain ⟨_, t, hdestroyDMA, fifo'', ht, hsent, -⟩ :=
    (destroy_sends hdriver hS h8 hp hreliable).returns
  obtain ⟨_, u, hdestroyCPU, hu⟩ := (destroy_writes hreliable hwrites hq.2).returns
  refine ⟨t, u, hdestroyDMA, hdestroyCPU, ?_⟩
  have hread : t.icapInput = all.flatten.flatMap padded ++ nops estimatedFifoSize := by
    rw [icapInput, ht]
    exact hsent
  have hwritten : u.icapInput = all.flatten.flatten ++ nops estimatedFifoSize := by
    rw [icapInput, hu.dmaWriter, hu.cpuFifo]
    rfl
  rw [hread, hwritten, List.append_cancel_right_eq, flatMap_padded_eq_iff]

/-- The image with an odd number of words makes a difference. -/
theorem life_agrees_iff_mixed :
    ∃ p q t u, (programming (.ideal 7) Constructed).Run (overDMA .twoBlocks ()) mixedFiles p ∧
      (programming (.ideal 7) Constructed).Run (overCPU ()) mixedFiles q ∧
      destroy (.ideal 7) p = .ok () t ∧ destroy (.ideal 7) q = .ok () u ∧
      t.icapInput ≠ u.icapInput := by
  obtain ⟨p, hdma⟩ := mixed_life programmerBlocksize (overDMA .twoBlocks ())
  obtain ⟨q, hcpu, -⟩ := mixed_life bufferSize (overCPU ())
  obtain ⟨t, u, ht, hu, hagrees⟩ := life_agrees_iff (Driver.ideal_keepsSize 7)
    (Driver.ideal_reports (by decide)) (Driver.ideal_reliable 7) (Driver.ideal_writesWhole 7)
    (by decide) (by decide) (by decide) HardwareDMAFifo.twoBlocks_configured rfl () hdma hcpu
  refine ⟨p, q, t, u, hdma.1, hcpu, ht, hu, ?_⟩
  intro heq
  have hodd := hagrees.mp heq (List.replicate 68 255) List.mem_cons_self
  exact absurd hodd (by decide)

end HardwareProgrammer

end Dyplo
