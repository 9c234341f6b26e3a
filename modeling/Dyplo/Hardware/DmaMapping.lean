import Mathlib.Data.List.Nodup
import Mathlib.Tactic.Positivity
import Dyplo.Image.Reader
import Dyplo.Library.TransitionSystem

/-!
# The memory maps of a `HardwareDMAFifo`

Each block of a coherent or streaming fifo has a memory map of its own. The maps that the kernel
holds for the process are part of the state, and so are its answers to the coming system calls.
-/

namespace Dyplo

/-- What the driver's calls exchange. -/
structure InternalBlock where
  id : Nat
  offset : Nat
  size : Nat
  bytesUsed : Nat
  userSignal : Nat
  state : Nat

/-- A block with the address of its map, if it has one. -/
structure MappedBlock extends InternalBlock where
  data : Option Nat

/-- The address and the length of the map of a block. -/
def MappedBlock.mapping (block : MappedBlock) : Option (Nat × Nat) :=
  block.data.map fun address => (address, block.size)

/-- What ends a system call or an allocation. -/
inductive DmaAnswer
  | failed (errno : Nat)
  /-- `DYPLO_IOCDMA_RECONFIGURE` returns what it has granted. -/
  | configured (count size : Nat)
  | allocated
  | outOfMemory
  /-- `DYPLO_IOCDMABLOCK_QUERY` -/
  | block (info : InternalBlock)
  | mapped (address : Nat)

/-- How a call ends that does not return. -/
inductive DmaStop
  | ioException (e : IOException)
  | badAlloc
  /-- The kernel has not answered: the call is still under way. -/
  | unanswered

/-- The fifo, the maps that are live, and the `munmap` calls for what was no live map. -/
structure DmaMaps where
  blocks : List MappedBlock
  blocksHead : Nat
  live : List (Nat × Nat)
  stray : List (Nat × Nat)
  answers : List DmaAnswer

abbrev DmaMapM := EStateM DmaStop DmaMaps

namespace DmaMaps

/-- After the constructor. -/
def start : DmaMaps := ⟨[], 0, [], [], []⟩

/-- `::munmap` -/
def munmap (s : DmaMaps) (address size : Nat) : DmaMaps :=
  if (address, size) ∈ s.live then { s with live := s.live.erase (address, size) }
  else { s with stray := s.stray ++ [(address, size)] }

def setBlock (s : DmaMaps) (i : Nat) (block : MappedBlock) : DmaMaps :=
  { s with blocks := s.blocks.set i block }

/-- The body of the loop of `unmap`. -/
def unmapBlock (s : DmaMaps) (i : Nat) : DmaMaps :=
  match s.blocks[i]? with
  | none => s
  | some block =>
      match block.data with
      | none => s
      | some address => (s.munmap address block.size).setBlock i { block with data := none }

def unmap (s : DmaMaps) : DmaMaps := (List.range s.blocks.length).foldl unmapBlock s

/-- What `std::vector::resize` adds. -/
def newBlock : MappedBlock := ⟨⟨0, 0, 0, 0, 0, 0⟩, none⟩

/-- `offset` is an `unsigned int`. -/
def resize (s : DmaMaps) (numberOfBlocks blocksize : Nat) : DmaMaps :=
  { s with
    blocks := (List.range numberOfBlocks).map fun i =>
      { s.blocks.getD i newBlock with
        id := i, data := none, size := blocksize, offset := (i * blocksize) % 2 ^ 32 }
    blocksHead := 0 }

/-- Also the destructor. What `DYPLO_IOCDMABLOCK_FREE` returns is ignored. -/
def dispose (s : DmaMaps) : DmaMaps := s.unmap

end DmaMaps

/-- `MODE_COHERENT` -/
def modeCoherent : Nat := 2

/-- `MODE_STREAMING` -/
def modeStreaming : Nat := 3

namespace DmaMapM

/-- The kernel's answer to the next call. -/
def ask : DmaMapM DmaAnswer := do
  let s ← get
  match s.answers with
  | [] => throw .unanswered
  | answer :: answers =>
      set { s with answers := answers }
      return answer

/-- The kernel maps memory where nothing is mapped, and never at a null pointer. -/
def dmaMapSingle (size : Nat) : DmaMapM Nat := do
  match ← ask with
  | .failed errno => throw (.ioException ⟨errno, "mmap"⟩)
  | .mapped address => do
      let s ← get
      if address = 0 ∨ address ∈ s.live.map Prod.fst then throw .unanswered
      else
        set { s with live := s.live ++ [(address, size)] }
        return address
  | _ => throw .unanswered

/-- The body of the loop of `reconfigure`. -/
def mapBlock (i : Nat) : DmaMapM Unit := do
  match (← get).blocks[i]? with
  | none => return
  | some block =>
      match ← ask with
      | .failed errno => throw (.ioException ⟨errno, "DYPLO_IOCDMABLOCK_QUERY"⟩)
      | .block info =>
          modify (·.setBlock i ⟨info, block.data⟩)
          let address ← dmaMapSingle info.size
          modify (·.setBlock i ⟨info, some address⟩)
      | _ => throw .unanswered

/-- The loop from block `i` on, for `count` blocks. -/
def mapBlocks (i : Nat) : Nat → DmaMapM Unit
  | 0 => return
  | count + 1 => do
      mapBlock i
      mapBlocks (i + 1) count

/-- `catch (const std::exception&) { dispose(); throw; }` -/
def disposing (c : DmaMapM Unit) : DmaMapM Unit := fun s =>
  match c s with
  | .error .unanswered t => .error .unanswered t
  | .error e t => .error e t.dispose
  | .ok r t => .ok r t

/-- The requested size and count only go to the driver, the protection only to `mmap`. -/
def reconfigure (mode _size _count : Nat) (_readonly : Bool) : DmaMapM Unit := do
  modify DmaMaps.unmap
  match ← ask with
  | .failed errno => throw (.ioException ⟨errno, "reconfigure"⟩)
  | .configured count size =>
      match ← ask with
      | .outOfMemory => throw .badAlloc
      | .allocated =>
          modify (·.resize count size)
          -- `MODE_RINGBUFFER` does not support memory mapping, and other modes have no case
          disposing (if mode = modeCoherent ∨ mode = modeStreaming then mapBlocks 0 count
            else pure ())
      | _ => throw .unanswered
  | _ => throw .unanswered

end DmaMapM

namespace DmaMaps

variable {s t : DmaMaps} {i j : Nat} {m : Nat × Nat}

/-- The map of the block at an index. -/
def mappingAt (s : DmaMaps) (i : Nat) : Option (Nat × Nat) :=
  s.blocks[i]?.bind MappedBlock.mapping

/-- The live maps are those of the blocks, and no two blocks have one in common. -/
structure Owned (s : DmaMaps) : Prop where
  nodup : (s.live.map Prod.fst).Nodup
  live : ∀ m, m ∈ s.live ↔ ∃ i, s.mappingAt i = some m
  distinct : ∀ i j m, s.mappingAt i = some m → s.mappingAt j = some m → i = j
  stray : s.stray = []

private theorem start_owned : start.Owned where
  nodup := List.nodup_nil
  live m := by simp [start, mappingAt]
  distinct i j m hi := by simp [start, mappingAt] at hi
  stray := rfl

private theorem Owned.live_eq_nil (h : s.Owned) (hnone : ∀ i, s.mappingAt i = none) : s.live =
    [] := by
  rw [List.eq_nil_iff_forall_not_mem]
  intro m hm
  obtain ⟨i, hi⟩ := (h.live m).mp hm
  rw [hnone i] at hi
  cases hi

private theorem mappingAt_setBlock (block : MappedBlock) (h : i < s.blocks.length) :
    (s.setBlock i block).mappingAt i = block.mapping := by
  simp [mappingAt, setBlock, h]

private theorem mappingAt_setBlock_of_ne (block : MappedBlock) (h : j ≠ i) :
    (s.setBlock i block).mappingAt j = s.mappingAt j := by
  simp [mappingAt, setBlock, List.getElem?_set_ne h.symm]

private theorem Owned.withAnswers (h : s.Owned) (answers : List DmaAnswer) :
    { s with answers := answers }.Owned :=
  ⟨h.nodup, h.live, h.distinct, h.stray⟩

private theorem Owned.congr (h : s.Owned) (hlive : t.live = s.live)
    (hmapping : ∀ i, t.mappingAt i = s.mappingAt i) (hstray : t.stray = s.stray) : t.Owned where
  nodup := hlive ▸ h.nodup
  live m := by
    rw [hlive, h.live m]
    simp only [hmapping]
  distinct i j m hi hj := h.distinct i j m (hmapping i ▸ hi) (hmapping j ▸ hj)
  stray := hstray.trans h.stray

/-- A `munmap` of the map of a block, which is then forgotten. -/
theorem Owned.forget {block : MappedBlock} {address : Nat} (h : s.Owned)
    (hblock : s.blocks[i]? = some block) (hdata : block.data = some address) :
    ((s.munmap address block.size).setBlock i { block with data := none }).Owned ∧
    ((s.munmap address block.size).setBlock i { block with data := none }).mappingAt i = none := by
  obtain ⟨hlt, -⟩ := List.getElem?_eq_some_iff.mp hblock
  have hmapping : s.mappingAt i = some (address, block.size) := by
    simp [mappingAt, hblock, MappedBlock.mapping, hdata]
  have hlive : (address, block.size) ∈ s.live := (h.live _).mpr ⟨i, hmapping⟩
  have hmunmap : s.munmap address block.size =
      { s with live := s.live.erase (address, block.size) } := if_pos hlive
  rw [hmunmap]
  have hi : ({ s with live := s.live.erase (address, block.size) }.setBlock i
      { block with data := none }).mappingAt i = none := mappingAt_setBlock _ hlt
  have hother : ∀ j, j ≠ i → ({ s with live := s.live.erase (address, block.size) }.setBlock i
      { block with data := none }).mappingAt j = s.mappingAt j :=
    fun j hj => mappingAt_setBlock_of_ne _ hj
  refine ⟨⟨?_, ?_, ?_, h.stray⟩, hi⟩
  · exact h.nodup.sublist (List.erase_sublist.map Prod.fst)
  · intro m
    change m ∈ s.live.erase (address, block.size) ↔ _
    rw [h.nodup.of_map.mem_erase_iff, h.live m]
    constructor
    · rintro ⟨hne, j, hj⟩
      have hji : j ≠ i := by
        rintro rfl
        exact hne (Option.some.inj (hj.symm.trans hmapping))
      exact ⟨j, (hother j hji).trans hj⟩
    · rintro ⟨j, hj⟩
      by_cases hji : j = i
      · rw [hji, hi] at hj
        cases hj
      · rw [hother j hji] at hj
        refine ⟨?_, j, hj⟩
        rintro rfl
        exact hji (h.distinct j i _ hj hmapping)
  · intro j k m hj hk
    by_cases hji : j = i
    · rw [hji, hi] at hj
      cases hj
    · by_cases hki : k = i
      · rw [hki, hi] at hk
        cases hk
      · rw [hother j hji] at hj
        rw [hother k hki] at hk
        exact h.distinct j k m hj hk

private theorem Owned.unmapBlock (h : s.Owned) (i : Nat) :
    (s.unmapBlock i).Owned ∧ (s.unmapBlock i).mappingAt i = none ∧
      ∀ j, s.mappingAt j = none → (s.unmapBlock i).mappingAt j = none := by
  cases hblock : s.blocks[i]? with
  | none =>
    have heq : s.unmapBlock i = s := by simp only [DmaMaps.unmapBlock, hblock]
    rw [heq]
    exact ⟨h, by simp [mappingAt, hblock], fun j hj => hj⟩
  | some block =>
    cases hdata : block.data with
    | none =>
      have heq : s.unmapBlock i = s := by simp only [DmaMaps.unmapBlock, hblock, hdata]
      rw [heq]
      exact ⟨h, by simp [mappingAt, hblock, MappedBlock.mapping, hdata], fun j hj => hj⟩
    | some address =>
      have heq : s.unmapBlock i =
          (s.munmap address block.size).setBlock i { block with data := none } := by
        simp only [DmaMaps.unmapBlock, hblock, hdata]
      obtain ⟨howned, hnone⟩ := h.forget hblock hdata
      rw [heq]
      refine ⟨howned, hnone, ?_⟩
      intro j hj
      by_cases hji : j = i
      · rw [hji]
        exact hnone
      · rw [mappingAt_setBlock_of_ne _ hji, ← hj]
        unfold munmap
        split_ifs <;> rfl

private theorem Owned.unmap (h : s.Owned) : s.unmap.Owned ∧ ∀ i, s.unmap.mappingAt i = none := by
  have hfold : ∀ (is : List Nat) (s : DmaMaps), s.Owned →
      (is.foldl DmaMaps.unmapBlock s).Owned ∧
      (∀ i ∈ is, (is.foldl DmaMaps.unmapBlock s).mappingAt i = none) ∧
      ∀ i, s.mappingAt i = none → (is.foldl DmaMaps.unmapBlock s).mappingAt i = none := by
    intro is
    induction is with
    | nil => exact fun s hs => ⟨hs, by simp, fun i hi => hi⟩
    | cons i is ih =>
      intro s hs
      obtain ⟨howned, hnone, hkeep⟩ := hs.unmapBlock i
      obtain ⟨howned', hnone', hkeep'⟩ := ih _ howned
      refine ⟨howned', ?_, fun j hj => hkeep' j (hkeep j hj)⟩
      intro j hj
      rcases List.mem_cons.mp hj with rfl | hj
      · exact hkeep' j hnone
      · exact hnone' j hj
  obtain ⟨howned, hnone, hkeep⟩ := hfold (List.range s.blocks.length) s h
  refine ⟨howned, ?_⟩
  intro i
  by_cases hi : i < s.blocks.length
  · exact hnone i (List.mem_range.mpr hi)
  · exact hkeep i (by simp [mappingAt, Nat.le_of_not_lt hi])

theorem Owned.dispose (h : s.Owned) : s.dispose.Owned ∧ s.dispose.live = [] :=
  ⟨h.unmap.1, h.unmap.1.live_eq_nil h.unmap.2⟩

theorem Owned.of_none (hlive : s.live = []) (hnone : ∀ i, s.mappingAt i = none)
    (hstray : s.stray = []) : s.Owned where
  nodup := by simp [hlive]
  live m := by simp [hlive, hnone]
  distinct i j m hi := by
    rw [hnone i] at hi
    cases hi
  stray := hstray

private theorem mappingAt_resize (count size i : Nat) :
    (s.resize count size).mappingAt i = none := by
  unfold mappingAt resize
  by_cases hi : i < count <;> simp [hi, MappedBlock.mapping]

/-- A fresh map becomes that of a block without one. -/
theorem Owned.map (info : InternalBlock) {address : Nat} (h : s.Owned)
    (hnone : s.mappingAt i = none) (hi : i < s.blocks.length)
    (hfresh : address ∉ s.live.map Prod.fst) :
    ({ s with live := s.live ++ [(address, info.size)] }.setBlock i
      ⟨info, some address⟩).Owned := by
  have hmapping : ({ s with live := s.live ++ [(address, info.size)] }.setBlock i
      ⟨info, some address⟩).mappingAt i = some (address, info.size) := mappingAt_setBlock _ hi
  have hother : ∀ j, j ≠ i → ({ s with live := s.live ++ [(address, info.size)] }.setBlock i
      ⟨info, some address⟩).mappingAt j = s.mappingAt j :=
    fun j hj => mappingAt_setBlock_of_ne _ hj
  have hnew : ∀ j, s.mappingAt j ≠ some (address, info.size) := by
    intro j hj
    exact hfresh (List.mem_map.mpr ⟨_, (h.live _).mpr ⟨j, hj⟩, rfl⟩)
  refine ⟨?_, ?_, ?_, h.stray⟩
  · change ((s.live ++ [(address, info.size)]).map Prod.fst).Nodup
    rw [List.map_append, List.map_singleton, List.nodup_append_comm]
    exact List.nodup_cons.mpr ⟨hfresh, h.nodup⟩
  · intro m
    change m ∈ s.live ++ [(address, info.size)] ↔ _
    rw [List.mem_append, List.mem_singleton, h.live m]
    constructor
    · rintro (⟨j, hj⟩ | rfl)
      · have hji : j ≠ i := by
          rintro rfl
          rw [hnone] at hj
          cases hj
        exact ⟨j, (hother j hji).trans hj⟩
      · exact ⟨i, hmapping⟩
    · rintro ⟨j, hj⟩
      by_cases hji : j = i
      · rw [hji, hmapping] at hj
        exact .inr (Option.some.inj hj).symm
      · exact .inl ⟨j, (hother j hji).symm.trans hj⟩
  · intro j k m hj hk
    by_cases hji : j = i
    · by_cases hki : k = i
      · rw [hji, hki]
      · rw [hji, hmapping] at hj
        rw [hother k hki, ← hj] at hk
        exact absurd hk (hnew k)
    · by_cases hki : k = i
      · rw [hki, hmapping] at hk
        rw [hother j hji, ← hk] at hj
        exact absurd hj (hnew j)
      · rw [hother j hji] at hj
        rw [hother k hki] at hk
        exact h.distinct j k m hj hk

end DmaMaps

namespace DmaMapM

variable {s : DmaMaps} {E : DmaStop → DmaMaps → Prop}

private theorem ask_spec {Q : DmaAnswer → DmaMaps → Prop} (hnone : E .unanswered s)
    (hanswer : ∀ answer answers, Q answer { s with answers := answers }) : wp ask Q E s := by
  rw [ask, wp_bind, wp_get]
  cases s.answers with
  | nil => exact (wp_throw _).mpr hnone
  | cons answer answers =>
    change wp (set { s with answers := answers } >>= fun _ => pure answer) Q E s
    rw [wp_bind, wp_set, wp_pure]
    exact hanswer answer answers

private theorem dmaMapSingle_spec {size : Nat} {Q : Nat → DmaMaps → Prop}
    (hstop : ∀ e answers, E e { s with answers := answers })
    (hnone : E .unanswered s)
    (hmap : ∀ address answers, address ∉ s.live.map Prod.fst →
      Q address { s with live := s.live ++ [(address, size)], answers := answers }) :
    wp (dmaMapSingle size) Q E s := by
  rw [dmaMapSingle, wp_bind]
  apply ask_spec hnone
  intro answer answers
  cases answer with
  | failed errno => exact (wp_throw _).mpr (hstop _ answers)
  | mapped address =>
    change wp (get >>= fun s => if address = 0 ∨ address ∈ s.live.map Prod.fst then
      throw .unanswered else set { s with live := s.live ++ [(address, size)] } >>= fun _ =>
        pure address) Q E { s with answers := answers }
    rw [wp_bind, wp_get, wp_ite]
    split_ifs with hbad
    · exact (wp_throw _).mpr (hstop _ answers)
    · rw [wp_bind, wp_set, wp_pure]
      exact hmap address answers fun hmem => hbad (.inr hmem)
  | configured | allocated | outOfMemory | block => exact (wp_throw _).mpr (hstop _ answers)

/-- The query and the map of a block that has none yet. -/
theorem mapBlock_spec {i : Nat} (h : s.Owned) (hnone : ∀ j, i ≤ j → s.mappingAt j = none) :
    wp (mapBlock i) (fun _ t => t.Owned ∧ ∀ j, i + 1 ≤ j → t.mappingAt j = none)
      (fun _ t => t.Owned) s := by
  rw [mapBlock, wp_bind, wp_get]
  cases hblock : s.blocks[i]? with
  | none => exact (wp_pure _).mpr ⟨h, fun j hj => hnone j (by omega)⟩
  | some block =>
    obtain ⟨hlt, -⟩ := List.getElem?_eq_some_iff.mp hblock
    have hdata : block.data = none := by
      have hi := hnone i (le_refl i)
      simpa [DmaMaps.mappingAt, hblock, MappedBlock.mapping] using hi
    change wp (ask >>= _) _ _ s
    rw [wp_bind]
    apply ask_spec h
    intro answer answers
    cases answer with
    | block info =>
      have hmapping : ∀ j, ({ s with answers := answers }.setBlock i
          ⟨info, block.data⟩).mappingAt j = s.mappingAt j := by
        intro j
        by_cases hji : j = i
        · subst hji
          refine (DmaMaps.mappingAt_setBlock (s := { s with answers := answers }) _ hlt).trans ?_
          rw [hnone j (le_refl j), MappedBlock.mapping, hdata]
          rfl
        · exact DmaMaps.mappingAt_setBlock_of_ne _ hji
      have hqueried : ({ s with answers := answers }.setBlock i ⟨info, block.data⟩).Owned :=
        h.congr rfl hmapping rfl
      change wp (modify _ >>= fun _ => dmaMapSingle info.size >>= fun address => modify _) _ _ _
      rw [wp_bind, wp_modify, wp_bind]
      apply dmaMapSingle_spec
      · exact fun _ answers' => hqueried.withAnswers answers'
      · exact hqueried
      · intro address answers' hfresh
        rw [wp_modify]
        have hlt' : i < ({ s with answers := answers }.setBlock i
            ⟨info, block.data⟩).blocks.length := hlt.trans_eq List.length_set.symm
        have hmapped := (hqueried.withAnswers answers').map info
          ((hmapping i).trans (hnone i (le_refl i))) hlt' hfresh
        refine ⟨hmapped, ?_⟩
        intro j hj
        have hji : j ≠ i := by omega
        refine (DmaMaps.mappingAt_setBlock_of_ne _ hji).trans ?_
        exact (hmapping j).trans (hnone j (by omega))
    | failed errno => exact (wp_throw _).mpr (h.withAnswers answers)
    | configured | allocated | outOfMemory | mapped =>
      exact (wp_throw _).mpr (h.withAnswers answers)

private theorem mapBlocks_spec {i : Nat} (h : s.Owned) (hnone : ∀ j, i ≤ j → s.mappingAt j = none)
    (count : Nat) :
    wp (mapBlocks i count) (fun _ t => t.Owned) (fun _ t => t.Owned) s := by
  induction count generalizing i s with
  | zero => exact (wp_pure _).mpr h
  | succ count ih =>
    rw [mapBlocks, wp_bind]
    refine (mapBlock_spec h hnone).mono ?_ fun _ _ he => he
    rintro _ t ⟨ht, hnone'⟩
    exact ih ht hnone'

private theorem disposing_spec {c : DmaMapM Unit}
    (h : wp c (fun _ t => t.Owned) (fun _ t => t.Owned) s) :
    wp (disposing c) (fun _ t => t.Owned)
      (fun e t => t.Owned ∧ (e ≠ .unanswered → t.live = [])) s := by
  unfold wp at *
  unfold disposing
  cases hrun : c s with
  | ok r t =>
    rw [hrun] at h
    exact h
  | error e t =>
    rw [hrun] at h
    have hdispose := h.dispose
    cases e with
    | unanswered => exact ⟨h, fun hne => absurd rfl hne⟩
    | ioException e => exact ⟨hdispose.1, fun _ => hdispose.2⟩
    | badAlloc => exact ⟨hdispose.1, fun _ => hdispose.2⟩

theorem reconfigure_spec (h : s.Owned) (mode size count : Nat) (readonly : Bool) :
    wp (reconfigure mode size count readonly) (fun _ t => t.Owned)
      (fun e t => t.Owned ∧ (e ≠ .unanswered → t.live = [])) s := by
  obtain ⟨howned, hnone⟩ := h.unmap
  have hlive := howned.live_eq_nil hnone
  have hstop : ∀ (answers : List DmaAnswer) (e : DmaStop),
      { s.unmap with answers := answers }.Owned ∧
        (e ≠ .unanswered → { s.unmap with answers := answers }.live = []) :=
    fun answers _ => ⟨howned.withAnswers answers, fun _ => hlive⟩
  rw [reconfigure, wp_bind, wp_modify, wp_bind]
  apply ask_spec ⟨howned, fun hne => absurd rfl hne⟩
  intro answer answers
  cases answer with
  | configured granted blocksize =>
    change wp (ask >>= _) _ _ _
    rw [wp_bind]
    apply ask_spec (hstop answers _)
    intro answer answers'
    cases answer with
    | allocated =>
      change wp (modify _ >>= fun _ => disposing _) _ _ _
      rw [wp_bind, wp_modify]
      apply disposing_spec
      have hnone' : ∀ i, ({ s.unmap with answers := answers' }.resize granted
          blocksize).mappingAt i = none := fun i => DmaMaps.mappingAt_resize granted blocksize i
      have hresized : ({ s.unmap with answers := answers' }.resize granted blocksize).Owned :=
        .of_none hlive hnone' howned.stray
      rw [wp_ite]
      split_ifs
      · exact mapBlocks_spec hresized (fun j _ => hnone' j) granted
      · exact (wp_pure _).mpr hresized
    | failed | configured | outOfMemory | block | mapped =>
      exact (wp_throw _).mpr (hstop answers' _)
  | failed | allocated | outOfMemory | block | mapped => exact (wp_throw _).mpr (hstop answers _)

end DmaMapM

/-- The calls of the owner, with the answers of the kernel. -/
inductive DmaMapAction
  | reconfigure (mode size count : Nat) (readonly : Bool) (answers : List DmaAnswer)
  | dispose

namespace DmaMaps

/-- A call that the kernel has not answered is not over. -/
def next (s : DmaMaps) : DmaMapAction → Option DmaMaps
  | .reconfigure mode size count readonly answers =>
      match DmaMapM.reconfigure mode size count readonly { s with answers := answers } with
      | .error .unanswered _ => none
      | .ok _ t | .error _ t => some t
  | .dispose => some s.dispose

private theorem Owned.next {s t : DmaMaps} {a : DmaMapAction} (h : s.Owned)
    (hnext : s.next a = some t) :
    t.Owned := by
  cases a with
  | reconfigure mode size count readonly answers =>
    have hspec := DmaMapM.reconfigure_spec (h.withAnswers answers) mode size count readonly
    rw [DmaMaps.next] at hnext
    cases hrun : DmaMapM.reconfigure mode size count readonly { s with answers := answers } with
    | ok r u =>
      rw [hrun] at hnext
      obtain rfl := Option.some.inj hnext
      exact (wp_of_ok hrun).mp hspec
    | error e u =>
      rw [hrun] at hnext
      have herror := (wp_of_error hrun).mp hspec
      cases e with
      | unanswered => cases hnext
      | ioException | badAlloc =>
        obtain rfl := Option.some.inj hnext
        exact herror.1
  | dispose =>
    obtain rfl := Option.some.inj hnext
    exact h.dispose.1

end DmaMaps

/-- All sequences of `reconfigure` and `dispose` of a fifo that has just been constructed. -/
def dmaConfigurations : TransitionSystem DmaMaps DmaMapAction :=
  .ofNext (fun s => s = .start) (fun _ _ => True) DmaMaps.next

/-- After every call the live maps are those of the blocks, one block for each, and every
`munmap` has been for a live map. A `reconfigure` that throws leaves none, nor does the
destructor. -/
theorem dmaMaps_owned (s : DmaMaps) (h : dmaConfigurations.Reachable s) :
    s.live.Nodup ∧ (∀ m, m ∈ s.live ↔ ∃ block ∈ s.blocks, block.mapping = some m) ∧
    (∀ m ∈ s.live, ∃! i, s.mappingAt i = some m) ∧ s.stray = [] ∧
    (∀ mode size count readonly answers e t,
      DmaMapM.reconfigure mode size count readonly { s with answers := answers } = .error e t →
      e ≠ .unanswered → t.live = []) ∧
    s.dispose.live = [] ∧ s.dispose.stray = [] := by
  have howned : s.Owned := by
    apply h.invariant (I := DmaMaps.Owned)
    · rintro _ rfl
      exact DmaMaps.start_owned
    · rintro s a t hs ⟨-, hnext⟩
      exact hs.next hnext
  refine ⟨howned.nodup.of_map, ?_, ?_, howned.stray, ?_, howned.dispose.2,
    howned.dispose.1.stray⟩
  · intro m
    rw [howned.live m]
    constructor
    · rintro ⟨i, hi⟩
      obtain ⟨block, hblock, hmapping⟩ := Option.bind_eq_some_iff.mp hi
      exact ⟨block, List.mem_of_getElem? hblock, hmapping⟩
    · rintro ⟨block, hmem, hmapping⟩
      obtain ⟨i, hi⟩ := List.mem_iff_getElem?.mp hmem
      exact ⟨i, by rw [DmaMaps.mappingAt, hi]; exact hmapping⟩
  · intro m hm
    obtain ⟨i, hi⟩ := (howned.live m).mp hm
    exact ⟨i, hi, fun j hj => howned.distinct j i m hj hi⟩
  · intro mode size count readonly answers e t hrun hne
    have hspec := DmaMapM.reconfigure_spec (howned.withAnswers answers) mode size count readonly
    exact ((wp_of_error hrun).mp hspec).2 hne

/-- Two blocks are mapped, and then reconfigured to one that cannot be mapped. -/
def remapped : List DmaMapAction :=
  [.reconfigure modeCoherent 4096 2 false [.configured 2 4096, .allocated,
      .block ⟨0, 0, 4096, 0, 0, 0⟩, .mapped 65536, .block ⟨1, 4096, 4096, 0, 0, 0⟩, .mapped 69632],
    .reconfigure modeStreaming 8192 1 true [.configured 1 8192, .allocated,
      .block ⟨0, 0, 8192, 0, 0, 0⟩, .failed 12],
    .reconfigure modeStreaming 4096 1 false [.configured 1 4096, .allocated,
      .block ⟨0, 0, 4096, 0, 0, 0⟩, .mapped 65536]]

def remappedBlocks : DmaMaps :=
  (TransitionSystem.exec (fun _ _ => True) DmaMaps.next .start remapped).get (by decide +kernel)

theorem dmaMaps_owned_remapped :
    remappedBlocks.live.Nodup ∧
    (∀ m, m ∈ remappedBlocks.live ↔ ∃ block ∈ remappedBlocks.blocks, block.mapping = some m) ∧
    (∀ m ∈ remappedBlocks.live, ∃! i, remappedBlocks.mappingAt i = some m) ∧
    remappedBlocks.stray = [] ∧
    (∀ mode size count readonly answers e t,
      DmaMapM.reconfigure mode size count readonly { remappedBlocks with answers := answers } =
        .error e t → e ≠ .unanswered → t.live = []) ∧
    remappedBlocks.dispose.live = [] ∧ remappedBlocks.dispose.stray = [] :=
  dmaMaps_owned remappedBlocks
    (.run (.init rfl) (TransitionSystem.run_of_exec (Option.some_get _).symm))

example : remappedBlocks.live = [(65536, 4096)] := by decide +kernel

end Dyplo
