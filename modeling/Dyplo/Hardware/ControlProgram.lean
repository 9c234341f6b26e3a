import Dyplo.Hardware.AvailableFifos
import Dyplo.Hardware.DmaMapping
import Dyplo.Hardware.ImageProgramming

/-!
# `HardwareControl::program`

One programmer for one file. Its constructor opens a fifo and sets up the route to the ICAP, over
DMA if there is a DMA node to be had and else over a CPU fifo; its destructor closes the fifo, but
only a programmer that has been constructed is destroyed.
-/

namespace Dyplo

def oRdwr : Nat := 2

namespace HardwareContext

variable (context : HardwareContext) (nodes : DeviceNodes)

/-- The handle, or else `errno`. -/
def openDMA (index access : Nat) : Except Nat Nat :=
  nodes.openNode (context.driverPrefix ++ "d" ++ toString index) access

/-- The loop for `count` more nodes from this one on. -/
def openDMAFrom (access : Nat) : Nat → Nat → Except Stop Nat
  | 0, _ => throwErrno enodev
  | count + 1, index =>
      match context.openDMA nodes index access with
      | .ok result => .ok result
      | .error errno =>
          if errno ≠ ebusy then throwErrno errno else openDMAFrom access count (index + 1)

def openAvailableDMA (access : Nat) : Except Stop Nat := context.openDMAFrom nodes access 31 0

/-- What a search among `count` fifos leaves in `errno`. -/
def lastErrno (access : Nat) : Nat → Nat → Nat → Nat
  | 0, _, errno => errno
  | count + 1, fifoIndex, errno =>
      match context.openFifo nodes fifoIndex access with
      | .ok (.error errno) =>
          if errno ≠ ebusy then errno else lastErrno access count (fifoIndex + 1) errno
      | _ => errno

end HardwareContext

/-- The driver with the calls that set up a route. -/
structure RoutingDriver (δ : Type) extends Driver δ where
  /-- `DYPLO_IOCQICAP_INDEX` -/
  icapIndex : EStateM Nat δ Nat
  /-- `DYPLO_IOCTROUTE_TELL_TO_LOGIC` -/
  tellToLogic (destination : Nat) : EStateM Nat δ Unit

namespace RoutingDriver

def ideal (id : Nat) : RoutingDriver Unit where
  toDriver := .ideal id
  icapIndex := return 0
  tellToLogic _ := return

/-- No route to the ICAP can be set up. -/
def unrouted (id : Nat) : RoutingDriver Unit where
  toDriver := .ideal id
  icapIndex := return 0
  tellToLogic _ := throw enodev

end RoutingDriver

/-- Why `HardwareControl::program` does not return. -/
inductive ProgramStop
  | stop (e : Stop)
  | badAlloc
  /-- The kernel has not answered. -/
  | unanswered
  /-- An exception has left a destructor. -/
  | terminated
  deriving DecidableEq

/-- What is thrown, and not the end of the process. -/
def ProgramStop.IsException : ProgramStop → Prop
  | .stop (.throws _) | .badAlloc => True
  | _ => False

def DmaStop.programStop : DmaStop → ProgramStop
  | .ioException e => .stop (.throws (.ioException e))
  | .badAlloc => .badAlloc
  | .unanswered => .unanswered

/-- The handles and the memory maps of the process, the device, and what the ICAP has read from
the fifos that have been closed. -/
structure ProgramState (δ : Type) where
  handles : List Nat
  maps : DmaMaps
  device : δ
  icap : List UInt8

abbrev ProgramM (δ : Type) := EStateM ProgramStop (ProgramState δ)

/-- A fifo over the mapped blocks; `memory` is what a map holds at first. -/
def DmaMaps.fifo (maps : DmaMaps) (memory : Nat × Nat → List UInt8) : HardwareDMAFifo where
  blocks := maps.blocks.map fun b =>
    ⟨b.id, b.offset, b.size, b.bytesUsed, b.userSignal, b.state, (b.mapping.map memory).getD []⟩
  blocksHead := maps.blocksHead
  enqueued := []

namespace HardwareProgrammer

variable {δ : Type} {driver : Driver δ}

/-- The pointer to the fifo stays. -/
abbrev HasWriter (p : HardwareProgrammer δ) : Prop := p.dmaWriter.isSome

private theorem onDevice_hasWriter {α : Type} (c : EStateM Stop δ α) :
    Keeps HasWriter (fun _ => True) (onDevice c) :=
  fun _ hp => wp_onDevice.mpr (wp_of_forall (fun _ _ => hp) fun _ _ => ⟨trivial, hp⟩)

private theorem derefBlock_hasWriter (fifo : HardwareDMAFifo) (i : Option Nat) :
    Keeps HasWriter (fun _ => True) (derefBlock (δ := δ) fifo i) := by
  unfold derefBlock
  split
  · exact .throw trivial
  · split
    · exact .throw trivial
    · exact .pure _

private theorem beginProcessData_hasWriter (n : Nat) :
    Keeps HasWriter (fun _ => True) (beginProcessData driver n) := by
  have htake : ∀ fifo, Keeps HasWriter (fun _ => True) (takeBlock driver fifo) := fun _ =>
    .get_bind fun _ _ => .ite (fun _ => .pure _) fun _ =>
      .bind (onDevice_hasWriter _) fun _ => .bind (.modify fun _ _ => rfl) fun _ => .pure _
  refine .get_bind fun p hp => ?_
  split
  · exact .bind (.bind (htake _) fun _ => .get_bind fun _ _ =>
      .bind (derefBlock_hasWriter _ _) fun _ => .pure _) fun _ => .pure _
  · exact .bind (.set hp) fun _ => .pure _
  · exact .pure _

private theorem endProcessData_hasWriter (data : List UInt8) (n : Nat) :
    Keeps HasWriter (fun _ => True) (endProcessData driver data n) := by
  have hpad : ∀ block, Keeps HasWriter (fun _ => True) (padBlock (δ := δ) block data n) :=
    fun _ => .ite (fun _ => .throw trivial) fun _ => .pure _
  have henqueue : ∀ fifo i block, Keeps HasWriter (fun _ => True)
      (enqueueBlock driver fifo i block) := fun _ _ _ =>
    .bind (.modify fun _ _ => rfl) fun _ => .bind (onDevice_hasWriter _) fun _ =>
      .modify fun _ _ => rfl
  refine .get_bind fun p hp => ?_
  split
  · exact .bind (derefBlock_hasWriter _ _) fun _ => .bind (hpad _) fun _ =>
      .bind (henqueue _ _ _) fun _ => .pure _
  · next hnone _ =>
    rw [HasWriter, hnone] at hp
    cases hp
  · exact .pure _

private theorem verifyStaticID_hasWriter (userId : Nat) :
    Keeps HasWriter (fun _ => True) (verifyStaticID driver userId) := fun p hp =>
  (verifyStaticID_frame userId p ⟨rfl, rfl, rfl⟩).mono
    (fun _ _ ht => by rw [HasWriter, ht.dmaWriter]; exact hp)
    fun _ _ he => ⟨trivial, by rw [HasWriter, he.2.dmaWriter]; exact hp⟩

private theorem fromFile_hasWriter (fuel : Nat) (input : File) :
    Keeps HasWriter (fun _ => True) (fromFile driver fuel input) := by
  have htransfers : (callback driver).TransfersKeep HasWriter (fun _ => True) :=
    ⟨beginProcessData_hasWriter, endProcessData_hasWriter⟩
  intro p hp
  rw [wp_fromFile]
  exact FpgaImageReader.processFile_keeps ⟨trivial, trivial, trivial⟩ htransfers
    verifyStaticID_hasWriter trivial fuel ⟨input, p, [], [], []⟩ hp

end HardwareProgrammer

namespace HardwareControl

variable {δ : Type}

def onDriver {α : Type} (c : EStateM Stop δ α) : ProgramM δ α := fun s =>
  match c s.device with
  | .ok a d => .ok a { s with device := d }
  | .error e d => .error (.stop e) { s with device := d }

def onMaps {α : Type} (c : DmaMapM α) : ProgramM δ α := fun s =>
  match c s.maps with
  | .ok a m => .ok a { s with maps := m }
  | .error e m => .error e.programStop { s with maps := m }

variable (driver : RoutingDriver δ) (context : HardwareContext) (nodes : DeviceNodes)
  (memory : Nat × Nat → List UInt8)

/-- The result is -1 where the call fails, and never `-ENODEV`. -/
def getIcapNodeIndex : EStateM Stop δ Nat := do
  match ← attempt driver.icapIndex with
  | .ok result => return result
  | .error errno => throwIOException errno "getIcapNodeIndex"

/-- `HardwareFifo::addRouteTo` -/
def addRouteTo (destination : Nat) : EStateM Stop δ Unit := do
  match ← attempt (driver.tellToLogic destination) with
  | .ok _ => return
  | .error errno => throwIOException errno "addRouteTo"

/-- The fifo of the programmer has been opened, and has no blocks. -/
def opened (handle : Nat) : ProgramM δ Unit := modify fun s =>
  { s with handles := s.handles ++ [handle], maps := { s.maps with blocks := [], blocksHead := 0 } }

/-- The routes over DMA, behind the opening of the fifo. -/
def constructDMA (icap : Nat) : ProgramM δ (HardwareProgrammer δ) := do
  onMaps (DmaMapM.reconfigure modeCoherent programmerBlocksize 2 false)
  onDriver (addRouteTo driver icap)
  let s ← get
  return .overDMA (s.maps.fifo memory) s.device

/-- The route over a CPU fifo. -/
def constructCPU (icap : Nat) : ProgramM δ (HardwareProgrammer δ) := do
  onDriver (addRouteTo driver icap)
  let s ← get
  return .overCPU s.device

/-- The constructor of `HardwareProgrammer`, with the handle of its fifo. -/
def construct : ProgramM δ (Nat × HardwareProgrammer δ) := do
  let icap ← onDriver (getIcapNodeIndex driver)
  match context.openAvailableDMA nodes oRdwr with
  | .ok handle =>
      opened handle
      let programmer ← constructDMA driver memory icap
      return (handle, programmer)
  | .error _ =>
      match context.openAvailableWriteFifo nodes with
      | .ok handle =>
          opened handle
          let programmer ← constructCPU driver icap
          return (handle, programmer)
      | .error (.throws _) =>
          throw (.stop (.throws (.ioException
            ⟨context.lastErrno nodes oWronly (nodes.getDyploCpuFifoCountW.getD 0) 0 enoent,
              "No available CPU or DMA nodes to program ICAP"⟩)))
      | .error e => throw (.stop e)

/-- `~HardwareProgrammer`, which deletes the fifo: `~HardwareDMAFifo` and `~File`. -/
def destruct (handle : Nat) (programmer : HardwareProgrammer δ) : ProgramM δ Unit := fun s =>
  match HardwareProgrammer.destroy driver.toDriver programmer with
  | .error _ q => .error .terminated { s with device := q.device }
  | .ok _ q => .ok ()
      { handles := s.handles.erase handle
        maps := if programmer.dmaWriter.isSome then s.maps.dispose else s.maps
        device := q.device
        icap := s.icap ++ q.icapInput }

/-- The programmer leaves the scope by the `return` as by an exception. -/
def programWith (fuel : Nat) (input : File) (handle : Nat) (programmer : HardwareProgrammer δ) :
    ProgramM δ Nat := fun s =>
  match HardwareProgrammer.fromFile driver.toDriver fuel input programmer with
  | .ok bytes q => (do destruct driver handle q; return bytes) s
  | .error (.throws e) q => (do destruct driver handle q; throw (ProgramStop.stop (.throws e))) s
  | .error e q => .error (.stop e) { s with device := q.device }

def program (fuel : Nat) (input : File) : ProgramM δ Nat := do
  let made ← construct driver context nodes memory
  programWith driver fuel input made.1 made.2

section Rules

variable {driver} {α : Type} {Q : α → ProgramState δ → Prop}
  {E : ProgramStop → ProgramState δ → Prop} {s : ProgramState δ}

@[simp]
theorem wp_onDriver {c : EStateM Stop δ α} :
    wp (onDriver c) Q E s ↔ wp c (fun a d => Q a { s with device := d })
      (fun e d => E (.stop e) { s with device := d }) s.device := by
  unfold wp onDriver
  cases c s.device <;> rfl

@[simp]
theorem wp_onMaps {c : DmaMapM α} :
    wp (onMaps c) Q E s ↔ wp c (fun a m => Q a { s with maps := m })
      (fun e m => E e.programStop { s with maps := m }) s.maps := by
  unfold wp onMaps
  cases c s.maps <;> rfl

theorem wp_destruct {handle : Nat} {p : HardwareProgrammer δ}
    {Q : Unit → ProgramState δ → Prop} :
    wp (destruct driver handle p) Q E s ↔ wp (HardwareProgrammer.destroy driver.toDriver)
      (fun _ q => Q ()
        { handles := s.handles.erase handle
          maps := if p.dmaWriter.isSome then s.maps.dispose else s.maps
          device := q.device
          icap := s.icap ++ q.icapInput })
      (fun _ q => E .terminated { s with device := q.device }) p := by
  unfold wp destruct
  cases HardwareProgrammer.destroy driver.toDriver p <;> rfl

theorem wp_programWith {fuel handle : Nat} {input : File} {p : HardwareProgrammer δ}
    {Q : Nat → ProgramState δ → Prop} :
    wp (programWith driver fuel input handle p) Q E s ↔
      wp (HardwareProgrammer.fromFile driver.toDriver fuel input)
        (fun bytes q => wp (destruct driver handle q) (fun _ t => Q bytes t) E s)
        (fun e q => match e with
          | .throws e => wp (destruct driver handle q) (fun _ t => E (.stop (.throws e)) t) E s
          | e => E (.stop e) { s with device := q.device }) p := by
  cases hrun : HardwareProgrammer.fromFile driver.toDriver fuel input p with
  | ok bytes q =>
    have heq : programWith driver fuel input handle p s =
        (do destruct driver handle q; return bytes) s := by rw [programWith, hrun]
    simp only [wp_of_eq heq, wp_of_ok hrun, wp_bind, wp_pure]
  | error e q =>
    cases e with
    | throws e =>
      have heq : programWith driver fuel input handle p s =
          (do destruct driver handle q; throw (ProgramStop.stop (.throws e))) s := by
        rw [programWith, hrun]
      simp only [wp_of_eq heq, wp_of_error hrun, wp_bind, wp_throw]
    | undefined =>
      have heq : programWith driver fuel input handle p s =
          .error (.stop .undefined) { s with device := q.device } := by rw [programWith, hrun]
      rw [wp_of_error heq, wp_of_error hrun]
    | outOfFuel =>
      have heq : programWith driver fuel input handle p s =
          .error (.stop .outOfFuel) { s with device := q.device } := by rw [programWith, hrun]
      rw [wp_of_error heq, wp_of_error hrun]

end Rules

/-- The fifo that the constructor opens. -/
def openedFifo (device : δ) : Option Nat :=
  match driver.icapIndex device with
  | .error _ _ => none
  | .ok _ _ =>
      match context.openAvailableDMA nodes oRdwr with
      | .ok handle => some handle
      | .error _ => (context.openAvailableWriteFifo nodes).toOption

variable {driver context nodes memory} {s : ProgramState δ} {icap handle : Nat}

private theorem opened_owned (hlive : s.maps.live = []) (hstray : s.maps.stray = []) :
    ({ s.maps with blocks := [], blocksHead := 0 } : DmaMaps).Owned :=
  .of_none hlive (fun _ => rfl) hstray

private theorem constructDMA_spec (hmaps : s.maps.Owned) :
    wp (constructDMA driver memory icap)
      (fun p t => p.dmaWriter.isSome ∧ t.handles = s.handles ∧ t.maps.Owned)
      (fun _ t => t.handles = s.handles) s := by
  rw [constructDMA, wp_bind, wp_onMaps]
  refine (DmaMapM.reconfigure_spec hmaps _ _ _ _).mono ?_ fun _ _ _ => rfl
  intro _ maps hmaps'
  rw [wp_bind, wp_onDriver]
  refine wp_of_forall ?_ fun _ _ => rfl
  intro _ d
  rw [wp_bind, wp_get, wp_pure]
  exact ⟨rfl, rfl, hmaps'⟩

private theorem constructCPU_spec :
    wp (constructCPU driver icap)
      (fun p t => p.dmaWriter = none ∧ t.handles = s.handles ∧ t.maps = s.maps)
      (fun _ t => t.handles = s.handles) s := by
  rw [constructCPU, wp_bind, wp_onDriver]
  refine wp_of_forall ?_ fun _ _ => rfl
  intro _ d
  rw [wp_bind, wp_get, wp_pure]
  exact ⟨rfl, rfl, rfl⟩

/-- What has been constructed. -/
structure Made (s : ProgramState δ) (fifo : Option Nat) (made : Nat × HardwareProgrammer δ)
    (t : ProgramState δ) : Prop where
  fifo : fifo = some made.1
  handles : t.handles = s.handles ++ [made.1]
  maps : t.maps.Owned
  stream : made.2.dmaWriter = none → t.maps.live = []

/-- The constructor keeps the handle of the fifo that it has opened, whatever happens. -/
theorem construct_spec (hlive : s.maps.live = []) (hstray : s.maps.stray = []) :
    wp (construct driver context nodes memory)
      (Made s (openedFifo driver context nodes s.device))
      (fun _ t => t.handles =
        s.handles ++ (openedFifo driver context nodes s.device).toList) s := by
  have hopened := opened_owned hlive hstray
  rw [construct, wp_bind, wp_onDriver, getIcapNodeIndex, wp_bind, wp_attempt, openedFifo]
  cases hicap : driver.icapIndex s.device with
  | error errno d =>
    rw [wp_of_error hicap]
    exact (wp_throwIOException _ _).mpr (List.append_nil _).symm
  | ok icap d =>
    rw [wp_of_ok hicap]
    change wp (pure icap) _ _ _
    rw [wp_pure]
    cases hdma : context.openAvailableDMA nodes oRdwr with
    | ok handle =>
      change wp (opened handle >>= _) _ _ _
      rw [wp_bind, opened, wp_modify, wp_bind]
      refine (constructDMA_spec hopened).mono ?_ fun _ _ he => he
      rintro p t ⟨hp, hhandles, hmaps⟩
      rw [wp_pure]
      refine ⟨rfl, hhandles, hmaps, ?_⟩
      intro hnone
      rw [hnone] at hp
      cases hp
    | error e =>
      cases hcpu : context.openAvailableWriteFifo nodes with
      | ok handle =>
        change wp (opened handle >>= _) _ _ _
        rw [wp_bind, opened, wp_modify, wp_bind]
        refine constructCPU_spec.mono ?_ fun _ _ he => he
        rintro p t ⟨-, hhandles, hmaps⟩
        rw [wp_pure]
        refine ⟨rfl, hhandles, ?_, fun _ => ?_⟩
        · rw [hmaps]
          exact hopened
        · rw [hmaps]
          exact hlive
      | error e =>
        have hnone : s.handles = s.handles ++ (none : Option Nat).toList :=
          (List.append_nil _).symm
        cases e with
        | throws e => exact (wp_throw _).mpr hnone
        | undefined => exact (wp_throw _).mpr hnone
        | outOfFuel => exact (wp_throw _).mpr hnone

/-- Nothing is left open or mapped by a programmer that is destroyed. -/
theorem programWith_spec {fifo : Option Nat} {made : Nat × HardwareProgrammer δ}
    {t : ProgramState δ} (hmade : Made s fifo made t) (hfresh : made.1 ∉ s.handles) (fuel : Nat)
    (input : File) :
    wp (programWith driver fuel input made.1 made.2)
      (fun _ u => u.handles = s.handles ∧ u.maps.live = [])
      (fun e u => e.IsException → u.handles = s.handles ∧ u.maps.live = []) t := by
  have hclosed : t.handles.erase made.1 = s.handles := by
    rw [hmade.handles, List.erase_append_right _ hfresh, List.erase_cons_head, List.append_nil]
  have hdestruct : ∀ q : HardwareProgrammer δ, (made.2.HasWriter → q.HasWriter) →
      wp (destruct driver made.1 q) (fun _ u => u.handles = s.handles ∧ u.maps.live = [])
        (fun e _ => ¬ e.IsException) t := by
    intro q hq
    rw [wp_destruct]
    refine wp_of_forall (fun _ r => ⟨hclosed, ?_⟩) fun _ _ => id
    change (if q.dmaWriter.isSome then t.maps.dispose else t.maps).live = []
    split_ifs with hwriter
    · exact hmade.maps.dispose.2
    · cases hstream : made.2.dmaWriter with
      | none => exact hmade.stream hstream
      | some writer =>
        have hmadeWriter : made.2.HasWriter := by
          rw [HardwareProgrammer.HasWriter, hstream]
          rfl
        exact absurd (hq hmadeWriter) hwriter
  have hkeeps : wp (HardwareProgrammer.fromFile driver.toDriver fuel input)
      (fun _ q => made.2.HasWriter → q.HasWriter) (fun _ q => made.2.HasWriter → q.HasWriter)
      made.2 := by
    by_cases hwriter : made.2.HasWriter
    · exact (HardwareProgrammer.fromFile_hasWriter fuel input _ hwriter).mono
        (fun _ _ hq _ => hq) fun _ _ hq _ => hq.2
    · exact wp_of_forall (fun _ _ h => absurd h hwriter) fun _ _ h => absurd h hwriter
  rw [wp_programWith]
  refine hkeeps.mono ?_ ?_
  · intro bytes q hq
    exact (hdestruct q hq).mono (fun _ _ hu => hu) fun _ _ hnot hexception =>
      absurd hexception hnot
  · intro e q hq
    cases e with
    | throws e =>
      exact (hdestruct q hq).mono (fun _ _ hu _ => hu) fun _ _ hnot hexception =>
        absurd hexception hnot
    | undefined => exact False.elim
    | outOfFuel => exact False.elim

variable (driver context nodes memory) in
/-- However a file is programmed, the fifo is closed and unmapped again, unless the constructor of
the programmer throws: then the fifo that it has opened stays open. -/
theorem program_releases_fifo (hlive : s.maps.live = []) (hstray : s.maps.stray = [])
    (hfresh : ∀ handle, openedFifo driver context nodes s.device = some handle →
      handle ∉ s.handles) (fuel : Nat) (input : File) :
    (∀ bytes t, program driver context nodes memory fuel input s = .ok bytes t →
      t.handles = s.handles ∧ t.maps.live = []) ∧
    (∀ made u, construct driver context nodes memory s = .ok made u →
      ∀ e t, program driver context nodes memory fuel input s = .error e t → e.IsException →
        t.handles = s.handles ∧ t.maps.live = []) ∧
    ∀ e u, construct driver context nodes memory s = .error e u →
      program driver context nodes memory fuel input s = .error e u ∧
      u.handles = s.handles ++ (openedFifo driver context nodes s.device).toList := by
  have hconstruct : wp (construct driver context nodes memory) _ _ s :=
    construct_spec hlive hstray
  cases hrun : construct driver context nodes memory s with
  | ok made u =>
    have hmade := (wp_of_ok hrun).mp hconstruct
    have hprogram : program driver context nodes memory fuel input s =
        programWith driver fuel input made.1 made.2 u := bind_of_ok hrun
    have hspec : wp (programWith driver fuel input made.1 made.2) _ _ u :=
      programWith_spec hmade (hfresh _ hmade.fifo) fuel input
    rw [hprogram]
    refine ⟨fun bytes t hok => (wp_of_ok hok).mp hspec, ?_, ?_⟩
    · intro _ _ _ e t herror
      exact (wp_of_error herror).mp hspec
    · intro _ _ herror
      cases herror
  | error e u =>
    have hprogram : program driver context nodes memory fuel input s = .error e u :=
      bind_of_error hrun
    rw [hprogram]
    refine ⟨by simp, by simp, ?_⟩
    rintro _ _ heq
    cases heq
    exact ⟨rfl, (wp_of_error hrun).mp hconstruct⟩

/-- Where every node can be opened. -/
def allNodes : DeviceNodes := ⟨fun _ => true, fun _ _ => .ok 9⟩

/-- The kernel grants one block and maps it. -/
def oneBlock : ProgramState Unit where
  handles := [3]
  maps := ⟨[], 0, [], [], [.configured 1 65536, .allocated, .block ⟨0, 0, 65536, 0, 0, 0⟩,
    .mapped 4096]⟩
  device := ()
  icap := []

/-- The handle of a node whose route cannot be set up stays. With a route, an empty file is refused
and the fifo closed. -/
theorem program_releases_fifo_oneBlock :
    (∃ e t, program (.unrouted 7) .new allNodes (fun _ => []) 0 ⟨[]⟩ oneBlock = .error e t ∧
      t.handles = [3, 9]) ∧
    ∃ e t, program (.ideal 7) .new allNodes (fun _ => []) 0 ⟨[]⟩ oneBlock = .error e t ∧
      e.IsException ∧ t.handles = [3] ∧ t.maps.live = [] := by
  have hfresh : ∀ handle, some 9 = some handle → handle ∉ oneBlock.handles := by
    rintro _ ⟨⟩
    decide
  obtain ⟨-, -, hkept⟩ := program_releases_fifo (.unrouted 7) .new allNodes (fun _ => [])
    (s := oneBlock) rfl rfl hfresh 0 ⟨[]⟩
  obtain ⟨-, hclosed, -⟩ := program_releases_fifo (.ideal 7) .new allNodes (fun _ => [])
    (s := oneBlock) rfl rfl hfresh 0 ⟨[]⟩
  refine ⟨⟨_, _, hkept _ _ rfl⟩, ?_⟩
  have hrefused : (match program (.ideal 7) .new allNodes (fun _ => []) 0 ⟨[]⟩ oneBlock with
      | .error (.stop (.throws .truncatedFile)) _ => true
      | _ => false) = true := by decide +kernel
  split at hrefused
  · next t hrun =>
    exact ⟨_, t, hrun, trivial, hclosed _ _ rfl _ _ hrun trivial⟩
  · cases hrefused

end HardwareControl

end Dyplo
