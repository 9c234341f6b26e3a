import Dyplo.Hardware.RawProgramming
import Dyplo.Image.BitImage
import Dyplo.Image.BufferBounds

/-!
# The internal buffer under the library's callbacks

A file writer and a CPU fifo grant what the internal buffer holds. A DMA block is larger, and the
reader asks for as much of it as the image has left.
-/

namespace Dyplo

open FpgaImageReader

/-- Every access to the internal buffer stays inside, however the run ends. -/
def StaysInBounds {κ : Type} (callback : FpgaImageReaderCallback κ) (k : κ)
    (content : List UInt8) : Prop :=
  ∀ fuel, InBounds (finalState (processFile callback fuel) ⟨⟨content⟩, k, [], [], []⟩).trace

private theorem staysInBounds_of_grantsUpTo {κ : Type} {callback : FpgaImageReaderCallback κ}
    {cap : Nat}
    {known : Nat → Prop} {I : κ → Prop} (h : callback.GrantsUpTo cap known I) {k : κ} (hk : I k)
    {content : List UInt8}
    (hfits : cap ≤ bufferSize ∨ alignSize ≤ cap ∧ ¬ Overruns known content) :
    StaysInBounds callback k content := fun fuel =>
  finalState_of_wp (I := fun t : ReaderState κ => InBounds t.trace)
    (processFile_inBounds h hk hfits fuel)

private theorem FpgaImageFileWriter.grantsUpTo {σ : Type}
    (write : List UInt8 → Nat → EStateM Nat σ Nat) :
    (callback write).GrantsUpTo bufferSize (fun _ => True) fun _ => True where
  beginProcessData n w _ := by
    simp only [callback, wp_bind, wp_get, wp_pure]
    refine ⟨?_, trivial⟩
    split_ifs <;> omega
  endProcessData _ _ _ _ :=
    wp_of_forall (fun _ _ => ⟨fun h => absurd h (Nat.lt_irrefl _), trivial⟩) fun _ _ => trivial
  verifyStaticID _ _ _ := wp_of_forall (fun _ _ => ⟨trivial, trivial⟩) fun _ _ => trivial

namespace HardwareProgrammer

variable {δ : Type} {driver : Driver δ} {S id : Nat} {p : HardwareProgrammer δ}

/-- A programmer over a CPU fifo. -/
def OverFifo (p : HardwareProgrammer δ) : Prop := p.dmaWriter = none ∧ p.cpuFifo.isSome

private theorem beginProcessData_overFifo (hp : OverFifo p) (n : Nat) :
    wp (beginProcessData driver n) (fun r t => r.2 = min n bufferSize ∧ OverFifo t)
      (fun _ t => OverFifo t) p := by
  obtain ⟨fifo, hfifo⟩ := Option.isSome_iff_exists.mp hp.2
  simp only [beginProcessData, wp_bind, wp_get, hp.1, hfifo, wp_set, wp_pure]
  refine ⟨?_, rfl, rfl⟩
  split_ifs <;> omega

private theorem endProcessData_overFifo (data : List UInt8) (n : Nat) :
    Keeps OverFifo (fun _ => True) (endProcessData driver data n) := by
  intro p hp
  obtain ⟨fifo, hfifo⟩ := Option.isSome_iff_exists.mp hp.2
  simp only [endProcessData, wp_bind, wp_get, hp.1, hfifo, wp_set, writeFifo, wp_onDevice,
    wp_attempt, wp_modify, wp_pure, wp_throwIOException]
  exact wp_of_forall (fun _ _ => ⟨rfl, rfl⟩) fun _ _ => ⟨trivial, rfl, rfl⟩

private theorem verifyStaticID_overFifo (userId : Nat) :
    Keeps OverFifo (fun _ => True) (verifyStaticID driver userId) := by
  intro p hp
  have hkept : ∀ t, p.SameFifos t → OverFifo t := fun t ht =>
    ⟨ht.dmaWriter.trans hp.1, ht.cpuFifo ▸ hp.2⟩
  exact (verifyStaticID_frame userId p ⟨rfl, rfl, rfl⟩).mono (fun _ t ht => hkept t ht)
    fun _ t he => ⟨trivial, hkept t he.2⟩

private theorem overFifo_grantsUpTo :
    (callback driver).GrantsUpTo bufferSize (fun _ => True) OverFifo where
  beginProcessData n _ hp := (beginProcessData_overFifo hp n).mono (fun _ _ hr => hr)
    fun _ _ _ => trivial
  endProcessData data n _ hp := (endProcessData_overFifo data n _ hp).mono
    (fun _ _ ht => ⟨fun h => absurd h (Nat.lt_irrefl _), ht⟩) fun _ _ _ => trivial
  verifyStaticID id p hp := (verifyStaticID_overFifo id p hp).mono
    (fun _ _ ht => ⟨trivial, ht⟩) fun _ _ _ => trivial

private theorem overFifo_of_reachable
    (hp : (programming driver fun p => ∃ device, p = overCPU device).Reachable p) : OverFifo p := by
  refine programming_keeps ?_ ?_ verifyStaticID_overFifo hp
  · rintro _ ⟨device, rfl⟩
    exact ⟨rfl, rfl⟩
  · exact ⟨fun n p hp => (beginProcessData_overFifo hp n).mono (fun _ _ hr => hr.2)
      fun _ _ ht => ⟨trivial, ht⟩, endProcessData_overFifo⟩

variable (hdriver : driver.KeepsSize)
include hdriver

private theorem beginProcessData_overBlocks (hp : OverSomeBlocks S p) (n : Nat) :
    wp (beginProcessData driver n) (fun r t => r.2 = min n S ∧ OverSomeBlocks S t)
      (fun _ t => OverSomeBlocks S t) p := by
  obtain ⟨fifo, hp⟩ := hp
  refine (beginProcessData_spec hdriver hp n).mono ?_ fun _ _ he => he.1
  rintro r t ⟨hgrant, -, fifo', ht, -⟩
  exact ⟨hgrant, fifo', ht⟩

private theorem endProcessData_overBlocks (hp : OverSomeBlocks S p) (data : List UInt8) (n : Nat) :
    wp (endProcessData driver data n) (fun m t => m = n ∧ OverSomeBlocks S t)
      (fun _ t => OverSomeBlocks S t) p := by
  obtain ⟨fifo, hp⟩ := hp
  refine (endProcessData_spec hdriver hp data n).mono ?_ fun _ _ he => he.1
  rintro m t ⟨hm, fifo', block, ht, -⟩
  exact ⟨hm, fifo', ht⟩

omit hdriver in
private theorem verifyStaticID_overBlocks (userId : Nat) :
    Keeps (OverSomeBlocks S) (fun _ => True) (verifyStaticID driver userId) := by
  rintro p ⟨fifo, hp⟩
  exact (verifyStaticID_frame userId p ⟨rfl, rfl, rfl⟩).mono
    (fun _ _ ht => ⟨fifo, hp.of_sameFifos ht⟩) fun _ _ he => ⟨trivial, fifo, hp.of_sameFifos he.2⟩

private theorem overBlocks_grantsUpTo (hreports : driver.Reports id) :
    (callback driver).GrantsUpTo S (· = id) fun p => OverSomeBlocks S p ∧ p.Knows id where
  beginProcessData n p hp := ((beginProcessData_overBlocks hdriver hp.1 n).and
    (beginProcessData_frame n p ⟨rfl, rfl⟩)).mono
      (fun _ _ hr => ⟨hr.1.1, hr.1.2, hp.2.of_sameID hr.2⟩) fun _ _ _ => trivial
  endProcessData data n p hp := ((endProcessData_overBlocks hdriver hp.1 data n).and
    (endProcessData_frame data n p ⟨rfl, rfl⟩)).mono
      (fun _ _ hr => ⟨fun _ => hr.1.1, hr.1.2, hp.2.of_sameID hr.2⟩) fun _ _ _ => trivial
  verifyStaticID userId p hp := ((verifyStaticID_overBlocks userId p hp.1).and
    (verifyStaticID_spec hreports hp.2 userId)).mono
      (fun _ _ hr => ⟨hr.2.1, hr.1, hr.2.2⟩) fun _ _ _ => trivial

/-- As it is constructed over blocks of `S` bytes. -/
def ConstructedOver (S : Nat) (p : HardwareProgrammer δ) : Prop :=
  ∃ fifo device, p = overDMA fifo device ∧ fifo.Configured S ∧ fifo.enqueued = []

private theorem overBlocks_of_reachable
    (hp : (programming driver (ConstructedOver S)).Reachable p) :
    OverSomeBlocks S p := by
  refine programming_keeps ?_ ?_ verifyStaticID_overBlocks hp
  · rintro _ ⟨fifo, device, rfl, hconfigured, -⟩
    exact ⟨fifo, rfl, hconfigured, nofun⟩
  · exact ⟨fun n p hp => (beginProcessData_overBlocks hdriver hp n).mono (fun _ _ hr => hr.2)
      fun _ _ ht => ⟨trivial, ht⟩, fun data n p hp =>
        (endProcessData_overBlocks hdriver hp data n).mono (fun _ _ hr => hr.2)
          fun _ _ ht => ⟨trivial, ht⟩⟩

omit hdriver in
private theorem ideal_leaves_bounds {fifo : HardwareDMAFifo} (hid : id < 2 ^ 16)
    (hS : bufferSize < S) (h8 : 8 ∣ S) (hlt : S < 2 ^ 32) (hfifo : fifo.Configured S)
    {content : List UInt8} (ho : Overruns (· = id) content) :
    ¬ StaysInBounds (callback (.ideal id)) (overDMA fifo ()) content := by
  have haccepts := (accepts (Driver.ideal_keepsSize id) (Driver.ideal_reports hid) h8 hlt
    fifo.enqueued).mono (fun _ _ hg => hg) fun _ he => he (Driver.ideal_reliable id)
  have hready : HasSent S id fifo.enqueued [] (overDMA fifo ()) :=
    ⟨nofun, fifo, [], ⟨rfl, hfifo, nofun⟩, (List.append_nil _).symm, .nil⟩
  have hrun := processFile_overruns haccepts hS hready ho 0
  intro hall
  have houtside := finalState_of_wp (hrun.mono (fun _ _ hf => hf.elim) fun _ _ he => he)
  exact houtside (hall 1)

end HardwareProgrammer

open HardwareProgrammer

/-- A file writer and a CPU fifo never make the reader leave its buffer. DMA blocks do so exactly
for the images that overrun the buffer. -/
theorem internal_buffer_bounds (content : List UInt8) {id S : Nat} (hid : id < 2 ^ 16)
    (hS : programmerBlocksize ≤ S) (h8 : 8 ∣ S) (hlt : S < 2 ^ 32) :
    (∀ (σ : Type) (write : List UInt8 → Nat → EStateM Nat σ Nat) (w : FpgaImageFileWriter σ),
      StaysInBounds (FpgaImageFileWriter.callback write) w content) ∧
    (∀ (δ : Type) (driver : Driver δ) (p : HardwareProgrammer δ),
      (programming driver fun p => ∃ device, p = overCPU device).Reachable p →
      StaysInBounds (callback driver) p content) ∧
    ((∀ (δ : Type) (driver : Driver δ) (p : HardwareProgrammer δ), driver.KeepsSize →
      driver.Reports id → (programming driver (ConstructedOver S)).Reachable p →
      StaysInBounds (callback driver) p content) ↔ ¬ Overruns (· = id) content) := by
  have halign := alignSize_eq
  have hbuffer := bufferSize_eq
  have hblock : programmerBlocksize = 65536 := rfl
  refine ⟨?_, ?_, ?_, ?_⟩
  · intro σ write w
    exact staysInBounds_of_grantsUpTo (FpgaImageFileWriter.grantsUpTo write) trivial
      (.inl (Nat.le_refl _))
  · intro δ driver p hp
    exact staysInBounds_of_grantsUpTo overFifo_grantsUpTo (overFifo_of_reachable hp)
      (.inl (Nat.le_refl _))
  · intro hall ho
    have hfifo : HardwareDMAFifo.Configured S
        ⟨[⟨0, 0, S, 0, 0, 0, List.replicate S 0⟩], 0, []⟩ :=
      ⟨Nat.zero_lt_one, fun block hblock => List.mem_singleton.mp hblock ▸ rfl⟩
    exact ideal_leaves_bounds hid (by omega) h8 hlt hfifo ho (hall Unit (.ideal id) _
      (Driver.ideal_keepsSize id) (Driver.ideal_reports hid) (.init ⟨_, (), rfl, hfifo, rfl⟩))
  · intro ho δ driver p hkeeps hreports hp
    have hknows : p.Knows id := by
      refine knows_of_reachable hreports ?_ hp
      rintro _ ⟨fifo, device, rfl, -⟩
      rfl
    exact staysInBounds_of_grantsUpTo (overBlocks_grantsUpTo hkeeps hreports)
      ⟨overBlocks_of_reachable hkeeps hp, hknows⟩ (.inr ⟨by omega, ho⟩)

/-- A `.bit` file of one block, programmed through blocks of `programmer_blocksize` bytes. -/
theorem internal_buffer_bounds_plain :
    StaysInBounds (callback (.ideal 0)) (overDMA .twoBlocks ())
      ((plainHeader 64 (by decide)).encode ++ List.replicate 64 0) := by
  have hshort : ¬ Overruns (· = 0)
      ((plainHeader 64 (by decide)).encode ++ List.replicate 64 0) := by
    rintro ⟨-, -, -, data, -, -, hlen, -⟩
    have hlength : ((plainHeader 64 (by decide)).encode ++
      List.replicate 64 (0 : UInt8)).length = 85 := rfl
    have := alignSize_eq
    omega
  exact (internal_buffer_bounds _ (by decide) (Nat.le_refl _) (by decide) (by decide)).2.2.mpr
    hshort Unit (.ideal 0) _ (Driver.ideal_keepsSize 0) (Driver.ideal_reports (by decide))
    (.init ⟨_, (), rfl, HardwareDMAFifo.twoBlocks_configured, rfl⟩)

theorem scanTags_plainHeader (size : Nat) (h : size < 2 ^ 32) (tail : List UInt8)
    (hbytes : 16 < firstRead ((plainHeader size h).encode ++ tail)) :
    scanTags (firstBuffer ((plainHeader size h).encode ++ tail))
      (firstRead ((plainHeader size h).encode ++ tail)) 13 = ([⟨97, 0, 16⟩], some 16) := by
  have hitem : ((plainHeader size h).encode ++ tail).drop 13 =
      BitItem.encode ⟨97, [], by decide, by decide⟩ ++ 101 :: (u32Bytes size ++ tail) := rfl
  have hdata := scanTags_dataTag (take_firstRead _) (BitItem.drop_encode hitem) hbytes
  rw [scanTags_item (take_firstRead _) hitem (by omega), hdata]
  exact if_pos hbytes

private theorem plainHeader_overruns :
    Overruns (· = 0) ((plainHeader 20484 (by decide)).encode ++ List.replicate 20484 0) := by
  have hlength : ((plainHeader 20484 (by decide)).encode ++
      List.replicate 20484 (0 : UInt8)).length = 20505 := by
    rw [List.length_append, List.length_replicate]
    rfl
  have hscan := scanTags_plainHeader 20484 (by decide) (List.replicate 20484 0)
    (by rw [firstRead, hlength]; decide)
  refine ⟨by rw [hlength]; decide, BitHeader.hasBitSignature _ _, ?_, 16, ?_, by decide, ?_, ?_⟩
  · rw [bitItems, hscan]
    intro item hitem userId hid
    obtain rfl := List.mem_singleton.mp hitem
    rw [TagItem.staticID, TagItem.description, parseDescriptionTag, Description.fields] at hid
    cases hid
  · rw [bitData, hscan]
  · rw [hlength]
    decide
  · have hsize := (plainHeader 20484 (by decide)).declaredSize_encode (List.replicate 20484 0)
      (by decide)
    exact (show alignSize + bufferSize < 20484 by decide).trans_eq hsize.symm

/-- A programmer over blocks of `programmer_blocksize` bytes leaves the buffer. -/
theorem internal_buffer_overrun :
    (programming (.ideal 0) (ConstructedOver programmerBlocksize)).Reachable
        (overDMA .twoBlocks ()) ∧
      ¬ StaysInBounds (callback (.ideal 0)) (overDMA .twoBlocks ())
        ((plainHeader 20484 (by decide)).encode ++ List.replicate 20484 0) :=
  ⟨.init ⟨_, (), rfl, HardwareDMAFifo.twoBlocks_configured, rfl⟩,
    ideal_leaves_bounds (by decide) (by decide) (by decide) (by decide)
      HardwareDMAFifo.twoBlocks_configured plainHeader_overruns⟩

end Dyplo
