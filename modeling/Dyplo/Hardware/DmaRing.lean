import Mathlib.Data.List.Rotate
import Dyplo.Hardware.DmaFifo
import Dyplo.Library.TransitionSystem

/-!
# The ring of blocks

The driver keeps the blocks that it was given in a queue. The class keeps one index and the state
words of the blocks: read from `blocks_head`, the ring has the free blocks in front, then those of
the driver and last those that the user holds.
-/

namespace Dyplo

/-- A driver that also records each `DYPLO_IOCDMABLOCK_DEQUEUE`: the block it names, and the
device before the call. -/
def Driver.recording {δ : Type} (driver : Driver δ) : Driver (δ × List (Nat × δ)) where
  staticID := fun (d, calls) =>
    match driver.staticID d with
    | .ok id d => .ok id (d, calls)
    | .error errno d => .error errno (d, calls)
  dequeueBlock block := fun (d, calls) =>
    match driver.dequeueBlock block d with
    | .ok reply d' => .ok reply (d', calls ++ [(block.id, d)])
    | .error errno d' => .error errno (d', calls ++ [(block.id, d)])
  enqueueBlock block := fun (d, calls) =>
    match driver.enqueueBlock block d with
    | .ok reply d => .ok reply (d, calls)
    | .error errno d => .error errno (d, calls)
  write data := fun (d, calls) =>
    match driver.write data d with
    | .ok count d => .ok count (d, calls)
    | .error errno d => .error errno (d, calls)
  fsync := fun (d, calls) =>
    match driver.fsync d with
    | .ok _ d => .ok () (d, calls)
    | .error errno d => .error errno (d, calls)

/-- A driver with a queue of blocks, oldest first. `ENQUEUE` appends a block and makes its state
non-zero, `DEQUEUE` removes it and clears its state, and what would block changes nothing. -/
structure Driver.Queueing {δ : Type} (driver : Driver δ) (outstanding : δ → List Nat) : Prop where
  enqueueBlock : ∀ block d, wp (driver.enqueueBlock block)
    (fun reply d' => reply.id = block.id ∧ reply.state ≠ 0 ∧
      outstanding d' = outstanding d ++ [block.id])
    (fun _ _ => True) d
  dequeueBlock : ∀ block d, wp (driver.dequeueBlock block)
    (fun reply d' => reply.id = block.id ∧ reply.state = 0 ∧
      outstanding d' = (outstanding d).erase block.id)
    (fun errno d' => errno = eagain → outstanding d' = outstanding d) d

/-- Every recorded call names the oldest block of the driver. -/
def NamesOldest {δ : Type} (outstanding : δ → List Nat) (calls : List (Nat × δ)) : Prop :=
  ∀ call ∈ calls, (outstanding call.2).head? = some call.1

namespace HardwareDMAFifo

/-- The indices of the blocks around the ring, from `blocks_head` on. -/
def ring (fifo : HardwareDMAFifo) : List Nat :=
  (List.range fifo.blocks.length).rotate fifo.blocksHead

/-- The state word of a block. -/
def stateAt (fifo : HardwareDMAFifo) (i : Nat) : Nat :=
  (fifo.blocks[i]?.map Block.state).getD 0

/-- The IDs of the blocks are their indices. -/
def Numbered (fifo : HardwareDMAFifo) : Prop :=
  ∀ (i : Nat) (block : Block), fifo.blocks[i]? = some block → block.id = i

/-- The free blocks come first, then the blocks with the driver, then those that are held. -/
structure InDriverOrder (fifo : HardwareDMAFifo) (outstanding held : List Nat) : Prop where
  blocksHead_lt : fifo.blocksHead < fifo.blocks.length
  numbered : fifo.Numbered
  ring : ∃ free, fifo.ring = free ++ outstanding ++ held ∧ ∀ i ∈ free, fifo.stateAt i = 0
  outstanding : ∀ i ∈ outstanding, fifo.stateAt i ≠ 0
  held : ∀ i ∈ held, fifo.stateAt i = 0

section Ring

variable {fifo : HardwareDMAFifo} {i j : Nat} {block : Block}

private theorem ring_length : fifo.ring.length = fifo.blocks.length := by simp [ring]

private theorem ring_nodup : fifo.ring.Nodup := List.nodup_rotate.mpr List.nodup_range

private theorem mem_ring : i ∈ fifo.ring ↔ i < fifo.blocks.length := by simp [ring]

private theorem ring_head (h : fifo.blocksHead < fifo.blocks.length) :
    fifo.ring.head? = some fifo.blocksHead := by
  rw [ring, List.head?_rotate (by simpa using h), List.getElem?_range h]

private theorem head_of_ring {rest : List Nat} (h : fifo.blocksHead < fifo.blocks.length)
    (hring : fifo.ring = i :: rest) : fifo.blocksHead = i := by
  have hhead := ring_head h
  rw [hring] at hhead
  exact (Option.some.inj hhead).symm

private theorem ring_advance {rest : List Nat} (hring : fifo.ring = i :: rest) :
    fifo.advance.ring = rest ++ [i] := by
  have hrotate : fifo.advance.ring = fifo.ring.rotate 1 := by
    rw [ring, ring, List.rotate_rotate]
    change (List.range fifo.blocks.length).rotate
      (if fifo.blocksHead + 1 = fifo.blocks.length then 0 else fifo.blocksHead + 1) = _
    split_ifs with hlast
    · have hfull := List.rotate_length (List.range fifo.blocks.length)
      rw [List.length_range] at hfull
      rw [hlast, hfull, List.rotate_zero]
    · rfl
  rw [hrotate, hring, List.rotate_cons_succ, List.rotate_zero]

private theorem ring_setBlock : (fifo.setBlock i block).ring = fifo.ring := by
  simp [ring, setBlock]

private theorem stateAt_setBlock (h : i < fifo.blocks.length) :
    (fifo.setBlock i block).stateAt i = block.state := by
  simp [stateAt, setBlock, h]

private theorem stateAt_setBlock_of_ne (h : j ≠ i) :
    (fifo.setBlock i block).stateAt j = fifo.stateAt j := by
  simp [stateAt, setBlock, List.getElem?_set_ne h.symm]

private theorem stateAt_eq (h : fifo.blocks[i]? = some block) : fifo.stateAt i = block.state := by
  simp [stateAt, h]

private theorem advance_blocksHead_lt (h : fifo.blocksHead < fifo.blocks.length) :
    fifo.advance.blocksHead < fifo.advance.blocks.length := by
  change (if fifo.blocksHead + 1 = fifo.blocks.length then 0 else fifo.blocksHead + 1) <
    fifo.blocks.length
  split_ifs <;> omega

private theorem Numbered.setBlock (hnumbered : fifo.Numbered) (hid : block.id = i) :
    (fifo.setBlock i block).Numbered := by
  intro j block' hblock
  change (fifo.blocks.set i block)[j]? = some block' at hblock
  rw [List.getElem?_set] at hblock
  split_ifs at hblock with hij hlt
  · obtain rfl := Option.some.inj hblock
    exact hid.trans hij
  · exact hnumbered j block' hblock

end Ring

section Steps

variable {δ : Type} {driver : Driver δ} {outstanding : δ → List Nat} {fifo : HardwareDMAFifo}
  {held : List Nat} {d : δ × List (Nat × δ)}

/-- A `DEQUEUE` of the oldest block. -/
theorem recording_dequeueBlock_spec (hdriver : driver.Queueing outstanding) {block : Block}
    {rest : List Nat} (hcalls : NamesOldest outstanding d.2)
    (holdest : outstanding d.1 = block.id :: rest) :
    wp (driver.recording.dequeueBlock block)
      (fun reply d' => reply.id = block.id ∧ reply.state = 0 ∧ outstanding d'.1 = rest ∧
        NamesOldest outstanding d'.2)
      (fun errno d' => (errno = eagain → outstanding d'.1 = outstanding d.1) ∧
        NamesOldest outstanding d'.2) d := by
  have hnamed : NamesOldest outstanding (d.2 ++ [(block.id, d.1)]) := by
    intro call hcall
    rcases List.mem_append.mp hcall with hcall | hcall
    · exact hcalls call hcall
    · obtain rfl := List.mem_singleton.mp hcall
      rw [holdest]
      rfl
  have hspec := hdriver.dequeueBlock block d.1
  unfold wp at *
  dsimp only [Driver.recording]
  cases hrun : driver.dequeueBlock block d.1 with
  | ok reply d' =>
    rw [hrun] at hspec
    obtain ⟨hid, hstate, hrest⟩ := hspec
    rw [holdest, List.erase_cons_head] at hrest
    exact ⟨hid, hstate, hrest, hnamed⟩
  | error errno d' =>
    rw [hrun] at hspec
    exact ⟨hspec, hnamed⟩

private theorem recording_enqueueBlock_spec (hdriver : driver.Queueing outstanding) (block : Block)
    (hcalls : NamesOldest outstanding d.2) :
    wp (driver.recording.enqueueBlock block)
      (fun reply d' => reply.id = block.id ∧ reply.state ≠ 0 ∧
        outstanding d'.1 = outstanding d.1 ++ [block.id] ∧ NamesOldest outstanding d'.2)
      (fun _ d' => NamesOldest outstanding d'.2) d := by
  have hspec := hdriver.enqueueBlock block d.1
  unfold wp at *
  dsimp only [Driver.recording]
  cases hrun : driver.enqueueBlock block d.1 with
  | ok reply d' =>
    rw [hrun] at hspec
    exact ⟨hspec.1, hspec.2.1, hspec.2.2, hcalls⟩
  | error errno d' => exact hcalls

/-- The driver's queue holds the blocks ahead that are not the user's, and none behind. -/
structure Flushing (fifo : HardwareDMAFifo) (outstanding ahead behind : List Nat) : Prop where
  blocksHead_lt : fifo.blocksHead < fifo.blocks.length
  numbered : fifo.Numbered
  ring : fifo.ring = ahead ++ behind
  outstanding : outstanding = ahead.filter fun i => fifo.stateAt i ≠ 0
  behind : ∀ i ∈ behind, fifo.stateAt i = 0

/-- The block at the head has been passed over or taken back from the driver. -/
theorem Flushing.next {fifo' : HardwareDMAFifo} {i : Nat} {ahead behind queue queue' : List Nat}
    (h : fifo.Flushing queue (i :: ahead) behind) (hhead : fifo'.blocksHead = fifo.blocksHead)
    (hlength : fifo'.blocks.length = fifo.blocks.length) (hnumbered : fifo'.Numbered)
    (hstate : fifo'.stateAt i = 0) (hother : ∀ j, j ≠ i → fifo'.stateAt j = fifo.stateAt j)
    (hqueue : queue' = ahead.filter fun j => fifo.stateAt j ≠ 0) :
    fifo'.advance.Flushing queue' ahead (behind ++ [i]) := by
  have hnodup := h.ring ▸ fifo.ring_nodup
  rw [List.cons_append, List.nodup_cons, List.mem_append, not_or] at hnodup
  have hne : ∀ j, j ∈ ahead ∨ j ∈ behind → j ≠ i := by
    rintro j (hj | hj) rfl
    · exact hnodup.1.1 hj
    · exact hnodup.1.2 hj
  have hring : fifo'.ring = i :: (ahead ++ behind) := by
    rw [HardwareDMAFifo.ring, hhead, hlength]
    exact h.ring
  constructor
  · exact advance_blocksHead_lt (by rw [hhead, hlength]; exact h.blocksHead_lt)
  · exact hnumbered
  · rw [ring_advance hring, List.append_assoc]
  · rw [hqueue]
    apply List.filter_congr
    intro j hj
    change _ = decide (fifo'.stateAt j ≠ 0)
    rw [hother j (hne j (.inl hj))]
  · intro j hj
    change fifo'.stateAt j = 0
    rcases List.mem_append.mp hj with hj | hj
    · rw [hother j (hne j (.inr hj))]
      exact h.behind j hj
    · obtain rfl := List.mem_singleton.mp hj
      exact hstate

/-- The loop takes back the blocks of the driver, oldest first. -/
theorem flushLoop_order (hdriver : driver.Queueing outstanding) {ahead behind : List Nat}
    (hcalls : NamesOldest outstanding d.2)
    (h : fifo.Flushing (outstanding d.1) ahead behind) :
    wp (fifo.flushLoop driver.recording ahead.length)
      (fun fifo' d' => fifo'.Flushing (outstanding d'.1) [] (behind ++ ahead) ∧
        NamesOldest outstanding d'.2)
      (fun _ d' => NamesOldest outstanding d'.2) d := by
  induction ahead generalizing fifo behind d with
  | nil =>
    rw [List.length_nil, flushLoop, wp_pure, List.append_nil]
    exact ⟨h, hcalls⟩
  | cons i ahead ih =>
    have hlt := h.blocksHead_lt
    obtain rfl : fifo.blocksHead = i := head_of_ring hlt h.ring
    obtain ⟨block, hblock⟩ : ∃ block, fifo.blocks[fifo.blocksHead]? = some block :=
      ⟨_, List.getElem?_eq_getElem hlt⟩
    have hid := h.numbered _ _ hblock
    have hstateAt := stateAt_eq hblock
    have hqueue := h.outstanding
    simp only [List.length_cons, flushLoop, hblock, wp_ite, wp_bind, wp_attempt,
      wp_throwIOException]
    rw [List.append_cons]
    split_ifs with hstate
    · rw [List.filter_cons_of_neg (by simp [hstateAt, hstate])] at hqueue
      exact ih hcalls (h.next rfl rfl h.numbered (hstateAt.trans hstate) (fun _ _ => rfl) hqueue)
    · rw [List.filter_cons_of_pos (by simp [hstateAt, hstate]), ← hid] at hqueue
      refine (recording_dequeueBlock_spec hdriver hcalls hqueue).mono ?_ fun _ _ he => he.2
      rintro reply d' ⟨hreply, hzero, hrest, hcalls'⟩
      exact ih hcalls' (h.next rfl List.length_set (h.numbered.setBlock (hreply.trans hid))
        ((stateAt_setBlock hlt).trans hzero) (fun j hj => stateAt_setBlock_of_ne hj) hrest)

end Steps

section InDriverOrder

variable {δ : Type} {driver : Driver δ} {outstanding : δ → List Nat} {fifo : HardwareDMAFifo}
  {held : List Nat} {d : δ × List (Nat × δ)}

/-- A `flush` leaves nothing with the driver, and the head where it was. -/
theorem InDriverOrder.flush_spec (h : fifo.InDriverOrder (outstanding d.1) held)
    (hdriver : driver.Queueing outstanding) (hcalls : NamesOldest outstanding d.2) :
    wp (fifo.flush driver.recording)
      (fun fifo' d' => fifo'.InDriverOrder [] held ∧ outstanding d'.1 = [] ∧
        fifo'.blocksHead = fifo.blocksHead ∧ fifo'.blocks.length = fifo.blocks.length ∧
        NamesOldest outstanding d'.2)
      (fun _ d' => NamesOldest outstanding d'.2) d := by
  obtain ⟨free, hring, hfree⟩ := h.ring
  have hne : fifo.blocks ≠ [] := List.ne_nil_of_length_pos (Nat.zero_lt_of_lt h.blocksHead_lt)
  have hqueue : outstanding d.1 = fifo.ring.filter fun i => fifo.stateAt i ≠ 0 := by
    have hfree' : free.filter (fun i => fifo.stateAt i ≠ 0) = [] := by
      simpa using hfree
    have hheld' : held.filter (fun i => fifo.stateAt i ≠ 0) = [] := by
      simpa using h.held
    have hout : (outstanding d.1).filter (fun i => fifo.stateAt i ≠ 0) = outstanding d.1 := by
      simpa using h.outstanding
    rw [hring, List.filter_append, List.filter_append, hfree', hheld', hout]
    simp
  have hflushing : fifo.Flushing (outstanding d.1) fifo.ring [] :=
    ⟨h.blocksHead_lt, h.numbered, (List.append_nil _).symm, hqueue, by simp⟩
  have hloop := flushLoop_order hdriver hcalls hflushing
  rw [ring_length] at hloop
  rw [flush, wp_ite, if_neg hne]
  refine hloop.mono ?_ fun _ _ he => he
  rintro fifo' d' ⟨hdone, hcalls'⟩
  have hring' : fifo'.ring = fifo.ring := hdone.ring
  have hlength : fifo'.blocks.length = fifo.blocks.length := by
    rw [← ring_length, hring', ring_length]
  have hhead : fifo'.blocksHead = fifo.blocksHead := by
    have hsame := ring_head hdone.blocksHead_lt
    rw [hring', ring_head h.blocksHead_lt] at hsame
    exact (Option.some.inj hsame).symm
  have hzero : ∀ i ∈ fifo.ring, fifo'.stateAt i = 0 := hdone.behind
  rw [hring] at hzero
  refine ⟨⟨hdone.blocksHead_lt, hdone.numbered, ⟨free ++ outstanding d.1, ?_, ?_⟩, by simp, ?_⟩,
    hdone.outstanding, hhead, hlength, hcalls'⟩
  · rw [hring', hring, List.append_nil]
  · exact fun i hi => hzero i (List.mem_append_left _ hi)
  · exact fun i hi => hzero i (List.mem_append_right _ hi)

/-- The head goes to the end of the ring, as the last block that is held. -/
theorem InDriverOrder.hold {fifo' : HardwareDMAFifo} {queue queue' rest : List Nat} {i : Nat}
    (h : fifo.InDriverOrder queue held) (hring : fifo.ring = i :: (rest ++ queue' ++ held))
    (hhead : fifo'.blocksHead = fifo.blocksHead)
    (hlength : fifo'.blocks.length = fifo.blocks.length) (hnumbered : fifo'.Numbered)
    (hstate : fifo'.stateAt i = 0) (hother : ∀ j, j ≠ i → fifo'.stateAt j = fifo.stateAt j)
    (hrest : ∀ j ∈ rest, fifo.stateAt j = 0) (hqueue : ∀ j ∈ queue', fifo.stateAt j ≠ 0) :
    i ∉ held ∧ fifo'.advance.InDriverOrder queue' (held ++ [i]) := by
  have hnodup := hring ▸ fifo.ring_nodup
  rw [List.nodup_cons, List.mem_append, List.mem_append, not_or, not_or] at hnodup
  obtain ⟨⟨⟨hirest, hiqueue⟩, hiheld⟩, -⟩ := hnodup
  have hsame : ∀ {js : List Nat} {j}, i ∉ js → j ∈ js → fifo'.stateAt j = fifo.stateAt j := by
    intro js j hi hj
    exact hother j fun heq => hi (heq ▸ hj)
  have hring' : fifo'.ring = i :: (rest ++ queue' ++ held) := by
    rw [HardwareDMAFifo.ring, hhead, hlength]
    exact hring
  refine ⟨hiheld, advance_blocksHead_lt (by rw [hhead, hlength]; exact h.blocksHead_lt), hnumbered,
    ⟨rest, ?_, ?_⟩, ?_, ?_⟩
  · rw [ring_advance hring', List.append_assoc (rest ++ queue')]
  · exact fun j hj => (hsame hirest hj).trans (hrest j hj)
  · exact fun j hj => (hsame hiqueue hj).trans_ne (hqueue j hj)
  · intro j hj
    rcases List.mem_append.mp hj with hj | hj
    · exact (hsame hiheld hj).trans (h.held j hj)
    · obtain rfl := List.mem_singleton.mp hj
      exact hstate

/-- A block that `dequeue` returns was not held; it is the first free one, or else the oldest one
with the driver. -/
theorem InDriverOrder.dequeue_spec (h : fifo.InDriverOrder (outstanding d.1) held)
    (hdriver : driver.Queueing outstanding) (hcalls : NamesOldest outstanding d.2)
    (hroom : held.length < fifo.blocks.length) :
    wp (fifo.dequeue driver.recording)
      (fun r d' => r.2.blocks.length = fifo.blocks.length ∧ NamesOldest outstanding d'.2 ∧
        match r.1 with
        | none => r.2.InDriverOrder (outstanding d'.1) held
        | some i => i ∉ held ∧ r.2.InDriverOrder (outstanding d'.1) (held ++ [i]))
      (fun _ d' => NamesOldest outstanding d'.2) d := by
  obtain ⟨free, hring, hfree⟩ := h.ring
  have hlt := h.blocksHead_lt
  obtain ⟨block, hblock⟩ : ∃ block, fifo.blocks[fifo.blocksHead]? = some block :=
    ⟨_, List.getElem?_eq_getElem hlt⟩
  have hid := h.numbered _ _ hblock
  have hstateAt := stateAt_eq hblock
  simp only [dequeue, hblock, wp_ite, wp_pure, wp_bind, wp_attempt, wp_throwIOException]
  cases free with
  | cons i free =>
    obtain rfl : fifo.blocksHead = i := head_of_ring hlt hring
    have hzero := hfree fifo.blocksHead (by simp)
    rw [if_pos (hstateAt.symm.trans hzero)]
    exact ⟨rfl, hcalls, h.hold hring rfl rfl h.numbered hzero (fun _ _ => rfl)
      (fun j hj => hfree j (by simp [hj])) h.outstanding⟩
  | nil =>
    cases hqueue : outstanding d.1 with
    | nil =>
      have hlength := congrArg List.length hring
      rw [ring_length, hqueue] at hlength
      simp only [List.nil_append] at hlength
      omega
    | cons i rest =>
      rw [hqueue] at hring
      obtain rfl : fifo.blocksHead = i := head_of_ring hlt hring
      have hstate := h.outstanding fifo.blocksHead (by simp [hqueue])
      rw [hstateAt] at hstate
      rw [if_neg hstate]
      rw [← hid] at hqueue
      refine (recording_dequeueBlock_spec hdriver hcalls hqueue).mono ?_ ?_
      · rintro reply d' ⟨hreply, hzero, hrest, hcalls'⟩
        have hring' : fifo.ring = fifo.blocksHead :: ([] ++ rest ++ held) := hring
        refine ⟨List.length_set, hcalls', ?_⟩
        rw [hrest]
        exact h.hold hring' rfl List.length_set (h.numbered.setBlock (hreply.trans hid))
          ((stateAt_setBlock hlt).trans hzero) (fun j hj => stateAt_setBlock_of_ne hj) (by simp)
          fun j hj => h.outstanding j (by rw [hqueue]; exact List.mem_cons_of_mem _ hj)
      · rintro errno d' ⟨hsame, hcalls'⟩
        split_ifs with hagain
        · refine ⟨trivial, hcalls', ?_⟩
          rw [hsame hagain]
          exact h
        · exact hcalls'

/-- The block that is held longest becomes the driver's newest one. -/
theorem InDriverOrder.enqueue_spec {i : Nat} (h : fifo.InDriverOrder (outstanding d.1) (i :: held))
    (hdriver : driver.Queueing outstanding) (hcalls : NamesOldest outstanding d.2) :
    wp (fifo.enqueue driver.recording i)
      (fun fifo' d' => fifo'.InDriverOrder (outstanding d'.1) held ∧
        NamesOldest outstanding d'.2)
      (fun _ d' => NamesOldest outstanding d'.2) d := by
  obtain ⟨free, hring, hfree⟩ := h.ring
  have hlt : i < fifo.blocks.length := by
    rw [← mem_ring, hring]
    simp
  obtain ⟨block, hblock⟩ : ∃ block, fifo.blocks[i]? = some block :=
    ⟨_, List.getElem?_eq_getElem hlt⟩
  have hid := h.numbered _ _ hblock
  have hnodup := hring ▸ fifo.ring_nodup
  have hring' :
      free ++ outstanding d.1 ++ i :: held = free ++ (outstanding d.1 ++ [i]) ++ held := by
    simp
  have hne : ∀ j, j ∈ free ∨ j ∈ outstanding d.1 ∨ j ∈ held → j ≠ i := by
    rintro j hj rfl
    rw [List.nodup_middle, List.nodup_cons] at hnodup
    exact hnodup.1 (by simpa [or_assoc] using hj)
  simp only [enqueue, hblock, wp_bind, wp_attempt, wp_pure, wp_throwIOException]
  refine (recording_enqueueBlock_spec hdriver block hcalls).mono ?_ fun _ _ he => he
  rintro reply d' ⟨hreply, hstate, hqueue, hcalls'⟩
  rw [hid] at hqueue
  have hlength : (fifo.setBlock i reply).blocks.length = fifo.blocks.length := List.length_set
  refine ⟨⟨?_, h.numbered.setBlock (hreply.trans hid), ⟨free, ?_, ?_⟩, ?_, ?_⟩, hcalls'⟩
  · exact h.blocksHead_lt.trans_eq hlength.symm
  · change (fifo.setBlock i reply).ring = _
    rw [ring_setBlock, hqueue, hring, hring']
  · intro j hj
    exact (stateAt_setBlock_of_ne (hne j (.inl hj))).trans (hfree j hj)
  · intro j hj
    rw [hqueue] at hj
    rcases List.mem_append.mp hj with hj | hj
    · exact (stateAt_setBlock_of_ne (hne j (.inr (.inl hj)))).trans_ne (h.outstanding j hj)
    · obtain rfl := List.mem_singleton.mp hj
      exact (stateAt_setBlock hlt).trans_ne hstate
  · intro j hj
    exact (stateAt_setBlock_of_ne (hne j (.inr (.inr hj)))).trans
      (h.held j (List.mem_cons_of_mem _ hj))

end InDriverOrder

end HardwareDMAFifo

open HardwareDMAFifo

/-- The fifo, its device, and the blocks that the user holds in the order they were handed out. -/
structure DmaUse (δ : Type) where
  fifo : HardwareDMAFifo
  device : δ × List (Nat × δ)
  held : List Nat

inductive DmaAction
  | dequeue
  /-- Of the block that is held longest. -/
  | enqueue
  | flush

namespace DmaUse

variable {δ : Type} {driver : Driver δ} {outstanding : δ → List Nat} {s t : DmaUse δ}

/-- A call that throws is no step. -/
def next (driver : Driver δ) (s : DmaUse δ) : DmaAction → Option (DmaUse δ)
  | .dequeue =>
      match s.fifo.dequeue driver.recording s.device with
      | .ok (some i, fifo) device => some ⟨fifo, device, s.held ++ [i]⟩
      | .ok (none, fifo) device => some ⟨fifo, device, s.held⟩
      | .error _ _ => none
  | .enqueue =>
      match s.held with
      | [] => none
      | i :: held =>
          match s.fifo.enqueue driver.recording i s.device with
          | .ok fifo device => some ⟨fifo, device, held⟩
          | .error _ _ => none
  | .flush =>
      match s.fifo.flush driver.recording s.device with
      | .ok fifo device => some ⟨fifo, device, s.held⟩
      | .error _ _ => none

/-- `dequeue` is called only while a block is not held. -/
def Allowed (s : DmaUse δ) : DmaAction → Prop
  | .dequeue => s.held.length < s.fifo.blocks.length
  | _ => True

instance (s : DmaUse δ) (a : DmaAction) : Decidable (s.Allowed a) := by
  cases a <;> unfold Allowed <;> infer_instance

/-- The fifo as `reconfigure` leaves it, with a driver that has no blocks. -/
structure Fresh (outstanding : δ → List Nat) (s : DmaUse δ) : Prop where
  blocks : 1 ≤ s.fifo.blocks.length
  blocksHead : s.fifo.blocksHead = 0
  numbered : s.fifo.Numbered
  state : ∀ block ∈ s.fifo.blocks, block.state = 0
  outstanding : outstanding s.device.1 = []
  calls : s.device.2 = []
  held : s.held = []

/-- Everything is in the order of the driver, and every `DEQUEUE` so far named its oldest block. -/
structure Ordered (outstanding : δ → List Nat) (s : DmaUse δ) : Prop where
  order : s.fifo.InDriverOrder (outstanding s.device.1) s.held
  calls : NamesOldest outstanding s.device.2

private theorem Fresh.ordered (h : s.Fresh outstanding) : s.Ordered outstanding := by
  have hstate : ∀ i, s.fifo.stateAt i = 0 := by
    intro i
    unfold stateAt
    cases hblock : s.fifo.blocks[i]? with
    | none => rfl
    | some block => exact h.state block (List.mem_of_getElem? hblock)
  refine ⟨⟨?_, h.numbered, ⟨s.fifo.ring, ?_, fun i _ => hstate i⟩, ?_, fun i _ => hstate i⟩, ?_⟩
  · rw [h.blocksHead]
    exact h.blocks
  · rw [h.outstanding, h.held, List.append_nil, List.append_nil]
  · simp [h.outstanding]
  · simp [h.calls, NamesOldest]

private theorem Ordered.next (h : s.Ordered outstanding) (hdriver : driver.Queueing outstanding)
    {a : DmaAction} (hallowed : s.Allowed a) (hnext : s.next driver a = some t) :
    t.Ordered outstanding := by
  cases a with
  | dequeue =>
    have hspec := h.order.dequeue_spec hdriver h.calls hallowed
    rw [DmaUse.next] at hnext
    cases hrun : s.fifo.dequeue driver.recording s.device with
    | error e d => rw [hrun] at hnext; cases hnext
    | ok r d =>
      obtain ⟨r, fifo⟩ := r
      rw [hrun] at hnext
      obtain ⟨-, hcalls, horder⟩ := (wp_of_ok hrun).mp hspec
      cases r with
      | none =>
        obtain rfl := Option.some.inj hnext
        exact ⟨horder, hcalls⟩
      | some i =>
        obtain rfl := Option.some.inj hnext
        exact ⟨horder.2, hcalls⟩
  | enqueue =>
    rw [DmaUse.next] at hnext
    cases hheld : s.held with
    | nil => rw [hheld] at hnext; cases hnext
    | cons i held =>
      have horder := h.order
      rw [hheld] at hnext horder
      have hspec := horder.enqueue_spec hdriver h.calls
      cases hrun : s.fifo.enqueue driver.recording i s.device with
      | error e d => simp only [hrun] at hnext; cases hnext
      | ok fifo d =>
        simp only [hrun] at hnext
        obtain rfl := Option.some.inj hnext
        obtain ⟨horder', hcalls⟩ := (wp_of_ok hrun).mp hspec
        exact ⟨horder', hcalls⟩
  | flush =>
    have hspec := h.order.flush_spec hdriver h.calls
    rw [DmaUse.next] at hnext
    cases hrun : s.fifo.flush driver.recording s.device with
    | error e d => rw [hrun] at hnext; cases hnext
    | ok fifo d =>
      rw [hrun] at hnext
      obtain rfl := Option.some.inj hnext
      obtain ⟨horder, hempty, -, -, hcalls⟩ := (wp_of_ok hrun).mp hspec
      exact ⟨by rw [hempty]; exact horder, hcalls⟩

end DmaUse

/-- All uses of a fifo that has just been configured. -/
def dmaUses {δ : Type} (driver : Driver δ) (outstanding : δ → List Nat) :
    TransitionSystem (DmaUse δ) DmaAction :=
  .ofNext (DmaUse.Fresh outstanding) DmaUse.Allowed (DmaUse.next driver)

/-- The fifo keeps its blocks in the order of the driver. -/
theorem dmaFifo_in_driver_order {δ : Type} (driver : Driver δ) (outstanding : δ → List Nat)
    (hdriver : driver.Queueing outstanding) (s : DmaUse δ)
    (h : (dmaUses driver outstanding).Reachable s) :
    s.fifo.InDriverOrder (outstanding s.device.1) s.held ∧
    NamesOldest outstanding s.device.2 ∧
    (s.held.length < s.fifo.blocks.length →
      NamesOldest outstanding (finalState (s.fifo.dequeue driver.recording) s.device).2 ∧
      ∀ i fifo d, s.fifo.dequeue driver.recording s.device = .ok (some i, fifo) d → i ∉ s.held) ∧
    NamesOldest outstanding (finalState (s.fifo.flush driver.recording) s.device).2 ∧
    ∀ fifo d, s.fifo.flush driver.recording s.device = .ok fifo d →
      outstanding d.1 = [] ∧ fifo.blocksHead = s.fifo.blocksHead := by
  have hordered : s.Ordered outstanding := by
    apply h.invariant (I := DmaUse.Ordered outstanding)
    · exact fun s hs => hs.ordered
    · rintro s a t hs ⟨hallowed, hnext⟩
      exact hs.next hdriver hallowed hnext
  have hflush := hordered.order.flush_spec hdriver hordered.calls
  refine ⟨hordered.order, hordered.calls, ?_, ?_, ?_⟩
  · intro hroom
    have hdequeue := hordered.order.dequeue_spec hdriver hordered.calls hroom
    constructor
    · exact finalState_of_wp (I := fun d => NamesOldest outstanding d.2)
        (hdequeue.mono (fun _ _ hr => hr.2.1) fun _ _ he => he)
    · intro i fifo d hrun
      exact ((wp_of_ok hrun).mp hdequeue).2.2.1
  · exact finalState_of_wp (I := fun d => NamesOldest outstanding d.2)
      (hflush.mono (fun _ _ hr => hr.2.2.2.2) fun _ _ he => he)
  · intro fifo d hrun
    obtain ⟨-, hempty, hhead, -⟩ := (wp_of_ok hrun).mp hflush
    exact ⟨hempty, hhead⟩

/-- A driver that completes a block whenever it is asked for one that it has. -/
def Driver.queue : Driver (List Nat) where
  staticID := return 0
  dequeueBlock block := do
    let queue ← get
    if block.id ∈ queue then
      set (queue.erase block.id)
      return { block with state := 0 }
    else throw eagain
  enqueueBlock block := do
    modify (· ++ [block.id])
    return { block with state := 1 }
  write data := return data.length
  fsync := return

private theorem Driver.queue_queueing : Driver.queue.Queueing id where
  enqueueBlock block d := by simp [Driver.queue]
  dequeueBlock block d := by
    simp only [Driver.queue, wp_bind, wp_get, wp_ite, wp_set, wp_pure, wp_throw]
    split_ifs <;> simp

/-- Two blocks that have just been configured. -/
def twoBlocks : DmaUse (List Nat) :=
  ⟨⟨[⟨0, 0, 4, 0, 0, 0, []⟩, ⟨1, 4, 4, 0, 0, 0, []⟩], 0, []⟩, ([], []), []⟩

private theorem twoBlocks_fresh : twoBlocks.Fresh id where
  blocks := by decide
  blocksHead := rfl
  numbered := by
    intro i block hblock
    match i with
    | 0 | 1 => cases hblock; rfl
    | i + 2 => cases hblock
  state := by
    intro block hblock
    simp only [twoBlocks, List.mem_cons, List.not_mem_nil, or_false] at hblock
    rcases hblock with rfl | rfl <;> rfl
  outstanding := rfl
  calls := rfl
  held := rfl

/-- Both blocks have been with the driver, and one of them has come back. -/
def heldBlock : DmaUse (List Nat) :=
  (TransitionSystem.exec DmaUse.Allowed (DmaUse.next Driver.queue) twoBlocks
    [.dequeue, .dequeue, .enqueue, .enqueue, .dequeue]).get (by decide)

theorem dmaFifo_in_driver_order_heldBlock :
    heldBlock.fifo.InDriverOrder heldBlock.device.1 heldBlock.held ∧
    NamesOldest id heldBlock.device.2 ∧
    (heldBlock.held.length < heldBlock.fifo.blocks.length →
      NamesOldest id
        (finalState (heldBlock.fifo.dequeue Driver.queue.recording) heldBlock.device).2 ∧
      ∀ i fifo d, heldBlock.fifo.dequeue Driver.queue.recording heldBlock.device =
        .ok (some i, fifo) d → i ∉ heldBlock.held) ∧
    NamesOldest id (finalState (heldBlock.fifo.flush Driver.queue.recording) heldBlock.device).2 ∧
    ∀ fifo d, heldBlock.fifo.flush Driver.queue.recording heldBlock.device = .ok fifo d →
      d.1 = [] ∧ fifo.blocksHead = heldBlock.fifo.blocksHead :=
  dmaFifo_in_driver_order Driver.queue id Driver.queue_queueing heldBlock
    (.run (.init twoBlocks_fresh) (TransitionSystem.run_of_exec (Option.some_get _).symm))

example : heldBlock.fifo.ring = [1, 0] ∧ heldBlock.device.1 = [1] ∧ heldBlock.held = [0] := by
  decide

end Dyplo
