import Mathlib.Data.List.Forall2
import Mathlib.Data.Nat.Bitwise
import Dyplo.Hardware.StaticID

/-!
# Transfers through DMA blocks

A programmer over a DMA fifo fills one block a transfer and enqueues it, padded to 64 bits. The
block it has checked out stays with it until then, also from one file to the next.
-/

namespace Dyplo

namespace HardwareProgrammer

variable {δ : Type} {driver : Driver δ} {S : Nat} {p : HardwareProgrammer δ}
  {fifo : HardwareDMAFifo}

/-- A programmer over a fifo with blocks of `S` bytes. -/
structure OverBlocks (S : Nat) (fifo : HardwareDMAFifo) (p : HardwareProgrammer δ) : Prop where
  dmaWriter : p.dmaWriter = some fifo
  configured : fifo.Configured S
  block_lt : ∀ i, p.block = some i → i < fifo.blocks.length

/-- The same for any fifo. -/
def OverSomeBlocks (S : Nat) (p : HardwareProgrammer δ) : Prop := ∃ fifo, OverBlocks S fifo p

private theorem takeBlock_spec (hdriver : driver.KeepsSize) (hp : OverBlocks S fifo p) :
    wp (takeBlock driver fifo)
      (fun fifo' t => OverBlocks S fifo' t ∧ fifo'.enqueued = fifo.enqueued ∧
        (t.block = none → ¬ driver.Reliable))
      (fun _ t => OverSomeBlocks S t ∧ ¬ driver.Reliable) p := by
  simp only [takeBlock, wp_bind, wp_get, wp_ite, wp_pure, wp_onDevice, wp_modify]
  split_ifs with hblock
  · refine ⟨hp, trivial, fun hnone => ?_⟩
    rw [hnone] at hblock
    cases hblock
  · refine (HardwareDMAFifo.dequeue_spec hp.configured hdriver).mono ?_ ?_
    · intro r d hr
      exact ⟨⟨rfl, hr.configured, hr.block_lt⟩, hr.enqueued, hr.not_reliable⟩
    · intro _ d hunreliable
      exact ⟨⟨fifo, hp.dmaWriter, hp.configured, hp.block_lt⟩, hunreliable⟩

theorem checkOut_spec (hdriver : driver.KeepsSize) (hp : OverBlocks S fifo p) :
    wp (checkOut driver fifo)
      (fun out t => OverBlocks S out.1 t ∧ out.1.enqueued = fifo.enqueued ∧
        t.block = some out.2.1 ∧ out.1.blocks[out.2.1]? = some out.2.2)
      (fun _ t => OverSomeBlocks S t ∧ ¬ driver.Reliable) p := by
  rw [checkOut, wp_bind]
  refine (takeBlock_spec hdriver hp).mono ?_ fun _ _ he => he
  rintro fifo' t ⟨ht, henqueued, hnone⟩
  rw [wp_bind, wp_get, wp_bind]
  cases hblock : t.block with
  | none =>
    rw [derefBlock, wp_throw]
    exact ⟨⟨fifo', ht⟩, hnone hblock⟩
  | some i =>
    have hget := List.getElem?_eq_getElem (ht.block_lt i hblock)
    simp only [derefBlock, hget, wp_pure]
    exact ⟨ht, henqueued, hblock, trivial⟩

theorem enqueueBlock_spec (hdriver : driver.KeepsSize) (hp : OverBlocks S fifo p) {i : Nat}
    (hi : i < fifo.blocks.length) {block : Block} (hsize : block.size = S) :
    wp (enqueueBlock driver fifo i block)
      (fun _ t => ∃ fifo', OverBlocks S fifo' t ∧ fifo'.enqueued = fifo.enqueued ++ [block] ∧
        t.block = none)
      (fun _ t => OverSomeBlocks S t ∧ ¬ driver.Reliable) p := by
  have hset : (fifo.setBlock i block).blocks[i]? = some block := List.getElem?_set_self hi
  simp only [enqueueBlock, wp_bind, wp_modify, wp_onDevice]
  refine (HardwareDMAFifo.enqueue_spec (hp.configured.setBlock i hsize) hdriver hset).mono ?_ ?_
  · rintro fifo' d ⟨hconfigured, henqueued⟩
    exact ⟨fifo', ⟨rfl, hconfigured, fun j hj => absurd hj.symm (Option.some_ne_none j)⟩,
      henqueued, trivial⟩
  · intro _ d hunreliable
    refine ⟨⟨_, rfl, hp.configured.setBlock i hsize, ?_⟩, hunreliable⟩
    intro j hj
    exact (hp.block_lt j hj).trans_eq List.length_set.symm

theorem beginProcessData_spec (hdriver : driver.KeepsSize) (hp : OverBlocks S fifo p) (n : Nat) :
    wp (beginProcessData driver n)
      (fun r t => r.2 = min n S ∧ t.block.isSome ∧
        ∃ fifo', OverBlocks S fifo' t ∧ fifo'.enqueued = fifo.enqueued)
      (fun _ t => OverSomeBlocks S t ∧ ¬ driver.Reliable) p := by
  simp only [beginProcessData, wp_bind, wp_get, hp.dmaWriter]
  refine (checkOut_spec hdriver hp).mono ?_ fun _ _ he => he
  rintro out t ⟨ht, henqueued, hblock, hget⟩
  have hsize := ht.configured.size _ (List.mem_of_getElem? hget)
  rw [wp_pure, hsize, hblock]
  refine ⟨?_, rfl, out.1, ht, henqueued⟩
  change (if S < n then S else n) = min n S
  split_ifs <;> omega

/-- Where the padding of a transfer of `n` bytes lies inside the block, only the driver can keep
it from being enqueued. -/
theorem endProcessData_spec (hdriver : driver.KeepsSize) (hp : OverBlocks S fifo p)
    (data : List UInt8) (n : Nat) :
    wp (endProcessData driver data n)
      (fun m t => m = n ∧ ∃ fifo' block, OverBlocks S fifo' t ∧
        fifo'.enqueued = fifo.enqueued ++ [block] ∧ block.bytesUsed = paddedLength n ∧
        block.data = padNOP data n)
      (fun _ t => OverSomeBlocks S t ∧
        (p.block.isSome → (0 < n % 8 → n % 8 ≤ 4 → (n &&& 0xFFFFFFF8) + 8 ≤ S) →
          ¬ driver.Reliable)) p := by
  have hhave : OverSomeBlocks S p := ⟨fifo, hp⟩
  simp only [endProcessData, wp_bind, wp_get, hp.dmaWriter]
  cases hblock : p.block with
  | none =>
    rw [derefBlock, wp_throw]
    exact ⟨hhave, fun hsome => absurd hsome Bool.false_ne_true⟩
  | some i =>
    have hi := hp.block_lt i hblock
    have hsize := hp.configured.size _ (List.getElem_mem hi)
    simp only [derefBlock, List.getElem?_eq_getElem hi, wp_pure, padBlock, wp_ite, wp_throw, hsize]
    split_ifs with hpad
    · exact ⟨hhave, fun _ hinside => absurd (hinside hpad.1.1 hpad.1.2) (Nat.not_le.mpr hpad.2)⟩
    · refine (enqueueBlock_spec hdriver hp hi rfl).mono ?_ fun _ _ he => ⟨he.1, fun _ _ => he.2⟩
      rintro _ t ⟨fifo', ht, henqueued, -⟩
      exact ⟨trivial, fifo', _, ht, henqueued, rfl, rfl⟩

theorem OverBlocks.of_sameFifos {q : HardwareProgrammer δ} (hp : OverBlocks S fifo p)
    (hpq : p.SameFifos q) : OverBlocks S fifo q where
  dmaWriter := hpq.dmaWriter.trans hp.dmaWriter
  configured := hp.configured
  block_lt i hi := hp.block_lt i (hpq.block.symm.trans hi)

theorem verifyStaticID_accepts {id : Nat} (hreports : driver.Reports id) (hknows : p.Knows id) :
    wp (verifyStaticID driver id) (fun _ t => t.Knows id ∧ p.SameFifos t)
      (fun _ _ => ¬ driver.Reliable) p := by
  refine (((verifyStaticID_spec hreports hknows id).and (verifyStaticID_refuses id)).and
    (verifyStaticID_frame id p ⟨rfl, rfl, rfl⟩)).mono ?_ ?_
  · rintro _ t ⟨⟨⟨-, ht⟩, -⟩, hfifos⟩
    exact ⟨ht, hfifos⟩
  · rintro e t ⟨⟨⟨hrefuses, -⟩, rfl | hunreliable⟩, -⟩
    · exact absurd rfl (hrefuses.mismatch rfl)
    · exact hunreliable

/-- A chunk as the ICAP gets it, with a NOP behind an odd number of words. -/
def padded (bytes : List UInt8) : List UInt8 :=
  if bytes.length % 8 = 0 then bytes else bytes ++ storeWord icapNopInstruction

/-- The block in which a chunk has been sent. -/
structure Sent (S : Nat) (bytes : List UInt8) (block : Block) : Prop where
  aligned : 8 ∣ block.bytesUsed
  fits : block.bytesUsed ≤ S
  content : 4 ∣ bytes.length → block.data.take block.bytesUsed = padded bytes

private theorem and_not_seven {n : Nat} (h : n < 2 ^ 32) : n &&& 0xFFFFFFF8 = n / 8 * 8 := by
  have hmask : (0xFFFFFFF8 : Nat) = (2 ^ 29 - 1) <<< 3 := by decide
  have hdown : n / 8 * 8 = (n >>> 3) <<< 3 := by
    rw [Nat.shiftLeft_eq, Nat.shiftRight_eq_div_pow]
  rw [hmask, hdown]
  apply Nat.eq_of_testBit_eq
  intro i
  rw [Nat.testBit_and, Nat.testBit_shiftLeft, Nat.testBit_shiftLeft, Nat.testBit_shiftRight,
    Nat.testBit_two_pow_sub_one]
  by_cases hlow : 3 ≤ i
  · have hi : 3 + (i - 3) = i := by omega
    by_cases hhigh : i - 3 < 29
    · simp [hlow, hhigh, hi]
    · have hzero : n.testBit i = false :=
        Nat.testBit_lt_two_pow (h.trans_le (Nat.pow_le_pow_right (by decide) (by omega)))
      simp [hlow, hi, hzero]
  · simp [hlow]

private theorem sent_of_padNOP {data : List UInt8} {n : Nat} {block : Block} (h8 : 8 ∣ S)
    (hS : S < 2 ^ 32) (hn : n ≤ S) (hlen : n ≤ data.length)
    (hused : block.bytesUsed = paddedLength n) (hdata : block.data = padNOP data n) :
    Sent S (data.take n) block := by
  have htake : (data.take n).length = n := List.length_take_of_le hlen
  have hlength : block.bytesUsed = (n + 7) / 8 * 8 := by
    rw [hused, paddedLength]
    split_ifs with hmod
    · rw [Nat.mod_eq_of_lt (by omega)]
      omega
    · exact and_not_seven (by omega)
  refine ⟨by omega, by omega, ?_⟩
  intro h4
  rw [htake] at h4
  rw [hlength, hdata, padNOP, padded, htake]
  by_cases hmod : n % 8 = 0
  · rw [if_pos hmod, if_neg (by omega)]
    congr 1
    omega
  · have hfour : n % 8 = 4 := by omega
    have hnop : (n &&& 0xFFFFFFF8) + 4 = n := by
      rw [and_not_seven (by omega)]
      omega
    have hend : (n + 7) / 8 * 8 = n + (storeWord icapNopInstruction).length := by
      change _ = n + 4
      omega
    rw [if_neg hmod, if_pos (by omega), hnop, hend]
    exact take_overlay rfl hlen

/-- The deliveries have been sent in blocks behind those that had been enqueued before. -/
def HasSent (S id : Nat) (before : List Block) (ds : List Delivery)
    (p : HardwareProgrammer δ) : Prop :=
  p.Knows id ∧ ∃ fifo blocks, OverBlocks S fifo p ∧ fifo.enqueued = before ++ blocks ∧
    List.Forall₂ (Sent S) (chunks ds) blocks

/-- A programmer over a DMA fifo takes an image unless the driver fails. -/
theorem accepts {id : Nat} (hdriver : driver.KeepsSize) (hreports : driver.Reports id)
    (h8 : 8 ∣ S) (hS : S < 2 ^ 32) (before : List Block) :
    (callback driver).Accepts (fun n g => g = min n S) (· = id) (HasSent S id before)
      (fun ds g p => HasSent S id before ds p ∧ p.block.isSome ∧ g ≤ S)
      (fun _ => ¬ driver.Reliable) where
  ready_of_granted _ _ _ h := h.1
  beginProcessData := by
    rintro ds n p ⟨hknows, fifo, blocks, hp, henqueued, hsent⟩
    refine ((beginProcessData_spec hdriver hp n).and
      (beginProcessData_frame n p ⟨rfl, rfl⟩)).mono ?_ fun _ _ he => he.1.2
    rintro r t ⟨⟨hgrant, hblock, fifo', ht, henqueued'⟩, hsame⟩
    refine ⟨hgrant, ⟨hknows.of_sameID hsame, fifo', blocks, ht, ?_, hsent⟩, hblock, ?_⟩
    · rw [henqueued', henqueued]
    · rw [hgrant]
      exact Nat.min_le_right _ _
  endProcessData := by
    rintro ds g data n p ⟨⟨hknows, fifo, blocks, hp, henqueued, hsent⟩, hblock, hg⟩ hn hlen
    have hinside : 0 < n % 8 → n % 8 ≤ 4 → (n &&& 0xFFFFFFF8) + 8 ≤ S := by
      intro hpos _
      rw [and_not_seven (by omega)]
      omega
    refine ((endProcessData_spec hdriver hp data n).and
      (endProcessData_frame data n p ⟨rfl, rfl⟩)).mono ?_ fun _ _ he => he.1.2 hblock hinside
    rintro m t ⟨⟨rfl, fifo', block, ht, henqueued', hused, hdata⟩, hsame⟩
    refine ⟨rfl, hknows.of_sameID hsame, fifo', blocks ++ [block], ht, ?_, ?_⟩
    · rw [henqueued', henqueued, List.append_assoc]
    · rw [chunks_append]
      exact List.rel_append hsent (.cons (sent_of_padNOP h8 hS (hn.trans hg) hlen hused hdata) .nil)
  verifyStaticID := by
    rintro ds _ p ⟨hknows, fifo, blocks, hp, henqueued, hsent⟩ rfl
    refine (verifyStaticID_accepts hreports hknows).mono ?_ fun _ _ he => he
    rintro _ t ⟨ht, hfifos⟩
    refine ⟨ht, fifo, blocks, hp.of_sameFifos hfifos, henqueued, ?_⟩
    rw [chunks_append]
    exact (List.append_nil _).symm ▸ hsent

end HardwareProgrammer

end Dyplo
