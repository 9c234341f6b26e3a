import Dyplo.Hardware.ImageProgramming

/-!
# Converted images

What `FpgaImageFileWriter` makes of an image is a raw image of the same words. To the ICAP both
are the same, but nothing in the converted file tells for which static design it is.
-/

namespace Dyplo

open FpgaImageReader

theorem ImageFile.of_startsBin {known : Nat → Prop} {cap : Nat} {words : List UInt8}
    (h4 : 4 ∣ words.length) (hlong : 64 ≤ words.length) (hbin : StartsBin words) :
    ImageFile known cap words words := by
  refine .raw hlong h4 ?_ (.inl hbin)
  rintro ⟨hmagic, -⟩
  have hfront := congrArg (List.take 2) hbin
  rw [List.take_take, Nat.min_eq_left (by decide), hmagic] at hfront
  exact absurd hfront (by decide)

private theorem appendToFile_accepts :
    (FpgaImageFileWriter.callback appendToFile).Accepts (fun n g => g = min n bufferSize)
      (fun _ => True) (fun ds w => w.outputFile = (chunks ds).flatten)
      (fun ds _ w => w.outputFile = (chunks ds).flatten) (fun _ => False) where
  ready_of_granted _ _ _ h := h
  beginProcessData ds n w h := by
    have hok : (FpgaImageFileWriter.callback appendToFile).beginProcessData n w =
        .ok (w.buffer, if bufferSize < n then bufferSize else n) w := rfl
    rw [wp_of_ok hok]
    refine ⟨?_, h⟩
    change (if bufferSize < n then bufferSize else n) = min n bufferSize
    split_ifs <;> omega
  endProcessData ds g data n w h _ _ := by
    have hok : (FpgaImageFileWriter.callback appendToFile).endProcessData data n w =
        .ok n ⟨w.outputFile ++ data.take n, data⟩ := rfl
    rw [wp_of_ok hok, h, chunks_append, List.flatten_append]
    exact ⟨rfl, congrArg _ List.flatten_singleton.symm⟩
  verifyStaticID ds id w h _ := by
    have hok : (FpgaImageFileWriter.callback appendToFile).verifyStaticID id w = .ok () w := rfl
    rw [wp_of_ok hok, chunks_append, List.flatten_append]
    exact h.trans (List.append_nil _).symm

private theorem conversion_words {content words : List UInt8}
    (h : ImageFile (fun _ => True) bufferSize content words) {fuel : Nat}
    (hfuel : content.length ≤ fuel) :
    ∃ s, run (FpgaImageFileWriter.callback appendToFile) fuel ⟨content⟩ ⟨[], []⟩ =
      .ok words.length s ∧ s.callback.outputFile = words := by
  obtain ⟨n, s, heq, rfl, hfile, hchunks⟩ := (image_spec appendToFile_accepts (by decide)
    (Nat.le_refl _) h hfuel (k := ⟨[], []⟩) rfl).returns
  exact ⟨s, heq, hfile.trans hchunks.flatten⟩

namespace HardwareProgrammer

variable {δ : Type} {driver : Driver δ} {S id : Nat} {p : HardwareProgrammer δ}

private theorem Programmed.icapInput_eq {done : List (List UInt8)} {fifo : HardwareDMAFifo}
    (hp : Programmed S id done fifo p) : p.icapInput = done.flatMap padded := by
  rw [icapInput, hp.overBlocks.dmaWriter]
  exact hp.sent

/-- Converted, an image is programmed as the image itself would be, for whatever static design
that has been built. -/
theorem converted_image_programs (hdriver : driver.KeepsSize) (hreports : driver.Reports id)
    (hreliable : driver.Reliable) (hS : bufferSize ≤ S) (h8 : 8 ∣ S) (hlt : S < 2 ^ 32)
    {fifo : HardwareDMAFifo} (hfifo : fifo.Configured S) (hnew : fifo.enqueued = []) {device : δ}
    {files : List (Nat × File)} {all : List (List (List UInt8))}
    (hlife : Life driver id S (overDMA fifo device) files all p) {content words : List UInt8}
    (himage : ImageFile (fun _ => True) bufferSize content words) (hbin : StartsBin words)
    (hlong : 64 ≤ words.length) (fuel : Nat) (hfuel : content.length + words.length ≤ fuel) :
    ∃ s q, run (FpgaImageFileWriter.callback appendToFile) fuel ⟨content⟩ ⟨[], []⟩ =
        .ok words.length s ∧
      fromFile driver fuel ⟨s.callback.outputFile⟩ p = .ok (words.length % 2 ^ 32) q ∧
      q.icapInput = p.icapInput ++ padded words ∧
      (ImageFile (· = id) S content words → ∃ r,
        fromFile driver fuel ⟨content⟩ p = .ok (words.length % 2 ^ 32) r ∧
        r.icapInput = q.icapInput) ∧
      (Mismatch id content → ∃ x r, fromFile driver fuel ⟨content⟩ p = .error (.throws x) r ∧
        r.icapInput = p.icapInput) := by
  obtain ⟨fifo', hp⟩ := programmed_of_life hdriver hreports hreliable hS h8 hlt hfifo hnew hlife
  obtain ⟨s, hrun, hfile⟩ := conversion_words himage (show content.length ≤ fuel by omega)
  have hsends : ∀ {file : List UInt8}, ImageFile (· = id) S file words → file.length ≤ fuel →
      ∃ q, fromFile driver fuel ⟨file⟩ p = .ok (words.length % 2 ^ 32) q ∧
        q.icapInput = p.icapInput ++ padded words := by
    intro file himage hle
    have hwp := (fromFile_sends hdriver hreports hS h8 hlt hp himage hle).mono
      (fun _ _ ht => ht) fun _ _ he => he hreliable
    obtain ⟨n, q, heq, rfl, fifo'', hq⟩ := hwp.returns
    refine ⟨q, heq, ?_⟩
    rw [hq.icapInput_eq, hp.icapInput_eq, List.flatMap_append, List.flatMap_singleton]
  obtain ⟨q, hconverted, hq⟩ := hsends (.of_startsBin himage.words_dvd hlong hbin) (by omega)
  refine ⟨s, q, hrun, hfile ▸ hconverted, hq, ?_, ?_⟩
  · intro hknown
    obtain ⟨r, heq, hr⟩ := hsends hknown (by omega)
    exact ⟨r, heq, hr.trans hq.symm⟩
  · intro hmismatch
    obtain ⟨_, r, heq, ⟨x, rfl⟩, -, hsame⟩ :=
      (fromFile_refuses (S := S) hreports hp.knows (.mismatch hmismatch) fuel).stops
    refine ⟨x, r, heq, ?_⟩
    rw [icapInput, icapInput, hsame.dmaWriter, hsame.cpuFifo]

/-- A `.bit` image of ones behind other files. -/
theorem converted_image_programs_ones :
    ∃ p s q r,
      (programming (.ideal 7) Constructed).Run (overDMA .twoBlocks ()) mixedFiles p ∧
      run (FpgaImageFileWriter.callback appendToFile) 200
        ⟨(plainHeader 64 (by decide)).encode ++ (List.replicate 64 255 ++ [])⟩ ⟨[], []⟩ =
          .ok 64 s ∧
      fromFile (.ideal 7) 200 ⟨s.callback.outputFile⟩ p = .ok 64 q ∧
      fromFile (.ideal 7) 200
        ⟨(plainHeader 64 (by decide)).encode ++ (List.replicate 64 255 ++ [])⟩ p = .ok 64 r ∧
      r.icapInput = q.icapInput := by
  have hlength : (swapped (List.replicate 64 (255 : UInt8))).length = 64 :=
    (swapped_length (by decide)).trans List.length_replicate
  have hplain : ∀ {known : Nat → Prop} {cap : Nat}, ImageFile known cap
      ((plainHeader 64 (by decide)).encode ++ (List.replicate 64 255 ++ []))
      (swapped (List.replicate 64 255)) :=
    .plain (by decide) List.length_replicate (by decide) (by decide) (by decide)
  obtain ⟨p, hlife⟩ := mixed_life programmerBlocksize (overDMA .twoBlocks ())
  obtain ⟨s, q, hrun, hconverted, -, hsame, -⟩ := converted_image_programs
    (Driver.ideal_keepsSize 7) (Driver.ideal_reports (by decide)) (Driver.ideal_reliable 7)
    (by decide) (by decide) (by decide) HardwareDMAFifo.twoBlocks_configured rfl hlife hplain
    (by decide) (by decide) 200 (by decide)
  obtain ⟨r, horiginal, heq⟩ := hsame hplain
  rw [hlength] at hrun hconverted horiginal
  exact ⟨p, s, q, r, hlife.1, hrun, hconverted, horiginal, heq⟩

end HardwareProgrammer

end Dyplo
