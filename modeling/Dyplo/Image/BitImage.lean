import Dyplo.Image.FileWriter
import Dyplo.Image.Payload

/-!
# Delivery of `.bit` images

What the callback gets of a whole file: exactly the payload of a large image, and of a small one
exactly when it ends inside the first read.
-/

namespace Dyplo

open FpgaImageReader

private theorem no_words_delivered {κ : Type} {t : ReaderState κ} (tail : List UInt8)
    (h : delivered t.trace = []) :
    ∃ m, 4 ∣ m ∧ m ≤ tail.length ∧ delivered t.trace = swapped (tail.take m) := by
  refine ⟨0, Nat.dvd_zero 4, Nat.zero_le _, ?_⟩
  rw [h, List.take_zero]
  exact (blockwise_nil _ _).symm

/-- The whole of a large image is delivered, or the file ends before it and whole words of it
are. -/
theorem large_bit_run {κ : Type} {callback : FpgaImageReaderCallback κ} {I : κ → Prop}
    {cap : Nat} (hcap : 4 ∣ cap) (hmin : alignSize ≤ cap) (hmax : cap ≤ bufferSize)
    (h : callback.AcceptsAll (fun n g => g = min n cap) I) {k : κ} (hk : I k)
    (header : BitHeader) (hheader : header.encode.length ≤ 4095)
    (hsize : alignSize ≤ header.size) (h4 : 4 ∣ header.size) (tail : List UInt8) (fuel : Nat)
    (hfuel : header.size ≤ fuel) :
    wp (processFile callback fuel)
      (fun v t => v = header.size ∧ header.size ≤ tail.length ∧
        delivered t.trace = swapped (tail.take header.size))
      (fun e t => e = .throws .truncatedFile ∧ tail.length < header.size ∧
        ∃ m, 4 ∣ m ∧ m ≤ tail.length ∧ delivered t.trace = swapped (tail.take m))
      ⟨⟨header.encode ++ tail⟩, k, [], [], []⟩ := by
  have halign := alignSize_eq
  have hlength := header.encode_length
  have hcontent : (header.encode ++ tail).length = header.encode.length + tail.length :=
    List.length_append
  rw [wp_processFile]
  split_ifs with hshort hsignature
  · change (header.encode ++ tail).length < 64 at hshort
    exact ⟨rfl, by omega, no_words_delivered tail rfl⟩
  · refine processBit_spec h.accepts header (by omega) fuel hk ?_ ?_
    · rintro t rfl hdelivered
      exact ⟨rfl, by rw [List.length_nil]; omega, no_words_delivered _ hdelivered⟩
    · intro t total htotal hready hdelivered hahead
      have hlt := hahead.lt
      rw [processData, wp_bind]
      refine (firstBlock_spec h.accepts ?_ (fun _ => h4) hready hahead).mono ?_ ?_
      · rintro n g rfl hn
        omega
      · rintro n u ⟨hn, hready', hlen', hdelivered'⟩
        rw [hdelivered] at hdelivered'
        simp only [wp_bind, wp_pure]
        obtain ⟨rfl, hle⟩ | ⟨rfl, hle, htail, hfile'⟩ := hn
        · omega
        · refine (payloadLoop_spec hcap (by omega) h.accepts h4 header.size_lt fuel
            (by omega) (.inl hmax) hsize (by decide) htail hready' hlen' (fun _ => hfile')
            hdelivered').mono ?_ fun _ _ he => he
          rintro _ v ⟨hfits, hall⟩
          exact ⟨trivial, hfits, hall⟩
      · rintro e u ⟨rfl, hlt, hshort', hdelivered'⟩
        exact ⟨rfl, by omega, no_words_delivered tail (hdelivered'.trans hdelivered)⟩
  · exact absurd (header.hasBitSignature tail) hsignature

/-- Large `.bit` images are delivered without the trailing bytes of the file; of a file that is
too short, whole words have been delivered before the exception. -/
theorem large_bit_image {κ : Type} {callback : FpgaImageReaderCallback κ} {I : κ → Prop}
    {cap : Nat} (hcap : 4 ∣ cap) (hmin : alignSize ≤ cap) (hmax : cap ≤ bufferSize)
    (h : callback.AcceptsAll (fun n g => g = min n cap) I) {k : κ} (hk : I k)
    (header : BitHeader) (hheader : header.encode.length ≤ 4095)
    (hsize : alignSize ≤ header.size) (h4 : 4 ∣ header.size) (tail : List UInt8) (fuel : Nat)
    (hfuel : header.size ≤ fuel) :
    (header.size ≤ tail.length →
      ∃ t, run callback fuel ⟨header.encode ++ tail⟩ k = .ok header.size t ∧
        delivered t.trace = swapped (tail.take header.size)) ∧
    (tail.length < header.size →
      ∃ t m, run callback fuel ⟨header.encode ++ tail⟩ k = .error (.throws .truncatedFile) t ∧
        4 ∣ m ∧ m ≤ tail.length ∧ delivered t.trace = swapped (tail.take m)) := by
  have hrun := large_bit_run hcap hmin hmax h hk header hheader hsize h4 tail fuel hfuel
  constructor
  · intro hfits
    have hreturns : wp (processFile callback fuel)
        (fun v t => v = header.size ∧ delivered t.trace = swapped (tail.take header.size))
        (fun _ _ => False) ⟨⟨header.encode ++ tail⟩, k, [], [], []⟩ := by
      apply hrun.mono
      · rintro v t ⟨rfl, -, hall⟩
        exact ⟨rfl, hall⟩
      · rintro _ _ ⟨-, hshort, -⟩
        omega
    obtain ⟨_, t, heq, rfl, hall⟩ := hreturns.returns
    exact ⟨t, heq, hall⟩
  · intro hshort
    have hstops : wp (processFile callback fuel) (fun _ _ => False)
        (fun e t => e = .throws .truncatedFile ∧
          ∃ m, 4 ∣ m ∧ m ≤ tail.length ∧ delivered t.trace = swapped (tail.take m))
        ⟨⟨header.encode ++ tail⟩, k, [], [], []⟩ := by
      apply hrun.mono
      · rintro _ _ ⟨-, hfits, -⟩
        omega
      · rintro e t ⟨rfl, -, hdelivered⟩
        exact ⟨rfl, hdelivered⟩
    obtain ⟨_, t, heq, rfl, m, hm⟩ := hstops.stops
    exact ⟨t, m, heq, hm⟩

/-- A header with an empty description. -/
def plainHeader (size : Nat) (h : size < 2 ^ 32) : BitHeader where
  preamble := [15, 240, 15, 240, 15, 240, 15, 240, 0]
  items := [⟨97, [], by decide, by decide⟩]
  size := size
  preamble_length := rfl
  first_tag := rfl
  size_lt := h

theorem large_bit_image_plain :
    ∃ t, run (FpgaImageFileWriter.callback appendToFile) 4096
        ⟨(plainHeader 4096 (by decide)).encode ++ List.replicate 5000 0⟩ ⟨[], []⟩ = .ok 4096 t ∧
      delivered t.trace = swapped ((List.replicate 5000 0).take 4096) :=
  (large_bit_image (by decide) (by decide) (Nat.le_refl _) appendToFile_acceptsAll trivial
    (plainHeader 4096 (by decide)) (by decide) (Nat.le_refl _) (by decide) _ 4096
    (Nat.le_refl _)).1 (by rw [List.length_replicate]; decide)

/-- A small image that ends inside the first read arrives. Of any other, a whole `ALIGN_SIZE` of
bytes arrives, or the file ends too early for that. -/
theorem small_bit_run {κ : Type} {callback : FpgaImageReaderCallback κ} {I : κ → Prop}
    (h : callback.AcceptsAll GrantsBuffer I) {k : κ} (hk : I k) (header : BitHeader)
    (hheader : header.encode.length ≤ 4095) (hpos : 0 < header.size)
    (hsmall : header.size < alignSize) (h4 : 4 ∣ header.size) (payload trailing : List UInt8)
    (hpayload : payload.length = header.size)
    (hfile : 64 ≤ (header.encode ++ (payload ++ trailing)).length) (fuel : Nat) :
    wp (processFile callback fuel)
      (fun v t => v = header.size ∧
        (header.encode.length + header.size ≤ alignSize ∧
            delivered t.trace = swapped payload ∨
          alignSize < header.encode.length + header.size ∧
            (delivered t.trace).length = alignSize))
      (fun _ _ => alignSize < header.encode.length + header.size)
      ⟨⟨header.encode ++ (payload ++ trailing)⟩, k, [], [], []⟩ := by
  have halign := alignSize_eq
  have hlength := header.encode_length
  have htail : (payload ++ trailing).length = header.size + trailing.length := by
    rw [List.length_append, hpayload]
  rw [wp_processFile]
  split_ifs with hshort hsignature
  · exact absurd hfile (Nat.not_le.mpr hshort)
  · refine processBit_spec h.accepts header (by omega) fuel hk ?_ ?_
    · intro t hnil _
      rw [hnil, List.length_nil] at htail
      omega
    · intro t total htotal hready hdelivered hahead
      rw [processData, wp_bind]
      refine (firstBlock_spec h.accepts ?_ (fun _ => h4) hready hahead).mono ?_ ?_
      · intro n g hgrant hn
        have := bufferSize_eq
        exact hgrant.eq (by omega)
      · rintro n u ⟨hn, -, -, hdelivered'⟩
        rw [hdelivered] at hdelivered'
        have hdone : header.size ≤ n := by omega
        rw [wp_bind, wp_payloadLoop_done hdone, wp_pure]
        refine ⟨rfl, ?_⟩
        obtain ⟨rfl, hle⟩ | ⟨rfl, hlt, hfull, -⟩ := hn
        · refine .inl ⟨by omega, ?_⟩
          rw [hdelivered', ← hpayload, List.take_left]
          rfl
        · refine .inr ⟨by omega, ?_⟩
          have htake : ((payload ++ trailing).take alignSize).length = alignSize :=
            List.length_take_of_le hfull
          rw [hdelivered']
          exact (swapped_length (by rw [htake]; decide)).trans htake
      · rintro e u ⟨rfl, hlt, -⟩
        omega
  · exact absurd (header.hasBitSignature _) hsignature

/-- Small `.bit` images arrive exactly if header and payload end inside the first read. -/
theorem small_bit_image {κ : Type} {callback : FpgaImageReaderCallback κ} {I : κ → Prop}
    (h : callback.AcceptsAll GrantsBuffer I) {k : κ} (hk : I k) (header : BitHeader)
    (hheader : header.encode.length ≤ 4095) (hpos : 0 < header.size)
    (hsmall : header.size < alignSize) (h4 : 4 ∣ header.size) (payload trailing : List UInt8)
    (hpayload : payload.length = header.size)
    (hfile : 64 ≤ (header.encode ++ (payload ++ trailing)).length) (fuel : Nat) :
    (∃ t, run callback fuel ⟨header.encode ++ (payload ++ trailing)⟩ k = .ok header.size t ∧
      delivered t.trace = swapped payload) ↔
    header.encode.length + header.size ≤ alignSize := by
  have hrun := small_bit_run h hk header hheader hpos hsmall h4 payload trailing hpayload hfile fuel
  constructor
  · rintro ⟨t, heq, hdelivered⟩
    obtain ⟨-, ⟨hfits, -⟩ | ⟨-, hlen⟩⟩ := (wp_of_ok heq).mp hrun
    · exact hfits
    · rw [hdelivered, swapped_length (hpayload ▸ h4), hpayload] at hlen
      omega
  · intro hfits
    have hreturns : wp (processFile callback fuel)
        (fun v t => v = header.size ∧ delivered t.trace = swapped payload) (fun _ _ => False)
        ⟨⟨header.encode ++ (payload ++ trailing)⟩, k, [], [], []⟩ := by
      refine hrun.mono ?_ fun _ _ he => absurd hfits (Nat.not_le.mpr he)
      rintro v t ⟨rfl, ⟨-, hdelivered⟩ | ⟨hlong, -⟩⟩
      · exact ⟨rfl, hdelivered⟩
      · exact absurd hfits (Nat.not_le.mpr hlong)
    obtain ⟨_, t, heq, rfl, hdelivered⟩ := hreturns.returns
    exact ⟨t, heq, hdelivered⟩

theorem small_bit_image_plain :
    ∃ t, run (FpgaImageFileWriter.callback appendToFile) 0
        ⟨(plainHeader 4000 (by decide)).encode ++ (List.replicate 4000 0 ++ [1, 2, 3])⟩ ⟨[], []⟩ =
          .ok 4000 t ∧
      delivered t.trace = swapped (List.replicate 4000 0) :=
  (small_bit_image (appendToFile_acceptsAll.mono fun _ _ => GrantsBuffer.of_eq_min) trivial
    (plainHeader 4000 (by decide)) (by decide) (by decide) (by decide) (by decide) _ _
    List.length_replicate (by rw [List.length_append, List.length_append,
      List.length_replicate]; decide) 0).mpr (by decide)

/-- A file that ends with an image of which a few words lie behind the first read is refused. -/
theorem small_bit_image_overlong :
    ¬ ∀ (header : BitHeader) (payload trailing : List UInt8), header.encode.length ≤ 4095 →
      0 < header.size → header.size < alignSize → 4 ∣ header.size →
      payload.length = header.size →
      64 ≤ (header.encode ++ (payload ++ trailing)).length →
      ∀ fuel, ∃ t, run (FpgaImageFileWriter.callback appendToFile) fuel
          ⟨header.encode ++ (payload ++ trailing)⟩ ⟨[], []⟩ = .ok header.size t ∧
        delivered t.trace = swapped payload := by
  intro hall
  have hlen : 64 ≤ ((plainHeader 4092 (by decide)).encode ++
      (List.replicate 4092 0 ++ [])).length := by
    rw [List.append_nil, List.length_append, List.length_replicate]
    decide
  obtain ⟨t, heq, hdelivered⟩ := hall (plainHeader 4092 (by decide)) (List.replicate 4092 0) []
    (by decide) (by decide) (by decide) (by decide) List.length_replicate hlen 0
  have hrun := small_bit_run (k := ⟨[], []⟩)
    (appendToFile_acceptsAll.mono fun _ _ => GrantsBuffer.of_eq_min) trivial
    (plainHeader 4092 (by decide)) (by decide) (by decide) (by decide) (by decide)
    (List.replicate 4092 0) [] List.length_replicate hlen 0
  obtain ⟨-, ⟨hfits, -⟩ | ⟨-, hdone⟩⟩ := (wp_of_ok heq).mp hrun
  · exact absurd hfits (by decide)
  · rw [hdelivered, swapped_length (by rw [List.length_replicate]; decide),
      List.length_replicate] at hdone
    exact absurd hdone (by decide)

end Dyplo
