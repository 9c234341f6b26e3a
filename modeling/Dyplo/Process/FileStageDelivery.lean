import Dyplo.Process.FileStage
import Dyplo.Process.Pipeline

/-!
# Delivery to a file across interrupts

An interrupt between two blocks costs nothing. One that hits the flush of a synchronous
`end_write` leaves a block pending in the output that its input still holds.
-/

universe u

namespace Dyplo

open FileOutputQueue FileStage

variable {β γ : Type u}

/-- The place of the thread among those of any `StaticProcessor`: from the start of `end_write`
to `end_read` the block is committed but not released. -/
def FileThread.place : FileThread β → StageThread β
  | .joined => .joined
  | .beginRead => .beginRead
  | .beginWrite src _ => .beginWrite src
  | .processBlock src loaded stored => .processBlock src 0 loaded stored
  | .endWrite _ => .endRead
  | .endRead => .endRead
  | .exited => .exited

/-- The part of the block's image that stands in the output's buffer. -/
def StageBuffer (F : FileStage β γ) (s : FileOutput) : FileThread β → Prop
  | .processBlock _ loaded stored =>
      s.queue.mBytesToWrite = 0 ∧ F.processor.blocksize ≤ F.capacity ∧
        stored ≤ F.processor.blocksize ∧ (0 < stored → loaded.length = F.processor.blocksize) ∧
        s.queue.mBuff.take (stored * F.size) =
          F.bytes ((F.processor.processBlock loaded).take stored)
  | _ => True

namespace FileStage

variable {F : FileStage β γ}

/-- The bytes that the stage has committed. -/
def stageBytes (F : FileStage β γ) (s : FileStageState β) : List UInt8 :=
  F.bytes (blockwise F.processor.blocksize F.processor.processBlock s.input.peers.released ++
    pendingImage F.processor.blocksize F.processor.processBlock s.input.peers s.thread.place)

private theorem bytes_append (xs ys : List γ) : F.bytes (xs ++ ys) = F.bytes xs ++ F.bytes ys :=
  List.flatMap_append

private theorem bytes_length (xs : List γ) : (F.bytes xs).length = xs.length * F.size := by
  induction xs with
  | nil => rw [bytes, List.flatMap_nil, List.length_nil, List.length_nil, Nat.zero_mul]
  | cons x xs ih =>
    change (F.encode x ++ F.bytes xs).length = (x :: xs).length * F.size
    rw [List.length_append, F.encode_length, ih, List.length_cons, Nat.succ_mul, Nat.add_comm]

end FileStage

structure FileStageInv (F : FileStage β γ) (s : FileStageState β) : Prop where
  queue : QueueInv F.inputCapacity s.input
  released_dvd : F.processor.blocksize ∣ s.input.peers.released.length
  reader : StageReader F.processor.blocksize s.input.peers s.thread.place
  buffer : StageBuffer F s.output s.thread
  owes : Owes F.size F.capacity (F.stageBytes s) s.output

private theorem Flush.owes {s t : FileOutput} {size capacity : Nat} {committed : List UInt8}
    {point : FlushPoint} {progress : FlushProgress} (h : Flush s point progress t)
    (hs : Owes size capacity committed s) :
    Owes size capacity committed t ∧ (progress = .finished → t.queue.mBytesToWrite = 0) := by
  cases h with
  | finished result hwrite =>
    have hspec := (Owes.steady size capacity committed).writeBuffer_spec
      (hs.environment [result] s.poller)
    rw [wp_of_ok hwrite] at hspec
    exact ⟨hspec.1, fun _ => hspec.2 rfl⟩
  | more result hwrite =>
    have hspec := (Owes.steady size capacity committed).writeBuffer_spec
      (hs.environment [result] s.poller)
    rw [wp_of_ok hwrite] at hspec
    exact ⟨hspec.1, fun hdone => by cases hdone⟩
  | flagged => exact ⟨hs, fun hdone => by cases hdone⟩
  | unflagged => exact ⟨hs, fun hdone => by cases hdone⟩
  | piped => exact ⟨hs, fun hdone => by cases hdone⟩
  | ready => exact ⟨hs, fun hdone => by cases hdone⟩

/-- The thread does not wait inside a synchronous `end_write` while the scheduler is
interrupted. -/
def EndWriteUndisturbed (s : FileStageState β) (actor : FileActor) (_ : FileStageState β) : Prop :=
  actor = .stage →
    (s.thread = .endWrite .waitWriteable → s.output.poller.scheduler.mInterrupted = false) ∧
      (s.thread = .endWrite .poll → s.output.poller.scheduler.pipe = 0)

namespace FileStageInv

variable {F : FileStage β γ} {s t : FileStageState β}

private theorem start (inputMemory : Nat → β) {outputMemory : List UInt8}
    (hmemory : outputMemory.length = F.capacity * F.size) :
    FileStageInv F (F.start inputMemory outputMemory) where
  queue := .start inputMemory F.inputCapacity
  released_dvd := Nat.dvd_zero _
  reader := trivial
  buffer := trivial
  owes := by
    have hnone : F.stageBytes (F.start inputMemory outputMemory) = [] := by
      change F.bytes (blockwise _ _ [] ++ []) = []
      rw [blockwise_nil]
      rfl
    rw [hnone]
    exact .start hmemory

private theorem input_moves (h : FileStageInv F s) {m : Monitor Side β}
    (hm : QueueInv F.inputCapacity m) (hmoves : ProducerMoves s.input.peers m.peers) :
    FileStageInv F { s with input := m } where
  queue := hm
  released_dvd := by rw [hmoves.released]; exact h.released_dvd
  reader := h.reader.moves hmoves
  buffer := h.buffer
  owes := by
    have hbytes : F.stageBytes { s with input := m } = F.stageBytes s := by
      simp only [stageBytes]
      rw [hmoves.released, h.reader.pendingImage_moves h.queue.peers hmoves]
    rw [hbytes]
    exact h.owes

private theorem setScheduler (h : FileStageInv F s) (scheduler : FilePollScheduler) :
    FileStageInv F (FileStage.setScheduler s scheduler) where
  queue := h.queue
  released_dvd := h.released_dvd
  reader := h.reader
  buffer := by
    have hbuffer := h.buffer
    change StageBuffer F _ s.thread
    cases hthread : s.thread with
    | processBlock src loaded stored => rw [hthread] at hbuffer; exact hbuffer
    | _ => trivial
  owes := h.owes.environment _ _

private theorem idle (h : FileStageInv F s)
    (hpending : pendingImage F.processor.blocksize F.processor.processBlock s.input.peers
      s.thread.place = []) {thread : FileThread β}
    (hthread : thread = .joined ∨ thread = .exited ∨ thread = .beginRead) :
    FileStageInv F { s with thread := thread } := by
  have howes := h.owes
  rw [stageBytes, hpending] at howes
  rcases hthread with rfl | rfl | rfl <;>
    exact ⟨h.queue, h.released_dvd, trivial, trivial, howes⟩

private theorem beginRead (h : FileStageInv F s) (hthread : s.thread = .beginRead)
    {outcome : Outcome}
    {m : Monitor Side β}
    (henter : s.input.enter .consumer (.beginRead F.processor.blocksize) = (outcome, m))
    (hassert : outcome = .returned → F.processor.blocksize ≤ m.peers.read.count) :
    FileStageInv F
      { s with input := m, thread := .afterBeginRead m.peers.read.buffer outcome } := by
  have hmakes : Side.consumer.Makes (.beginRead F.processor.blocksize) := trivial
  obtain ⟨hm, -⟩ := h.queue.consumer_enter hmakes
  have howes := h.owes
  rw [stageBytes, hthread] at howes
  rw [henter] at hm
  rcases s.input.enter_cases .consumer (.beginRead F.processor.blocksize) with
    ⟨p, hp, heq⟩ | ⟨-, -, heq⟩ | ⟨-, -, heq⟩ <;> rw [henter] at heq <;>
    obtain ⟨rfl, rfl⟩ := Prod.mk.inj heq
  · obtain ⟨g, -, rfl⟩ := Option.map_eq_some_iff.mp hp
    exact ⟨hm, h.released_dvd, ⟨rfl, hassert rfl⟩, trivial, howes⟩
  · exact ⟨hm, h.released_dvd, trivial, trivial, howes⟩
  · exact ⟨hm, h.released_dvd, trivial, trivial, howes⟩

/-- `begin_write` hands out a buffer of which nothing is pending. An interrupt here comes between
two blocks. -/
theorem beginWrite (h : FileStageInv F s) {src : Nat} {point : FlushPoint}
    (hthread : s.thread = .beginWrite src point) {progress : FlushProgress} {output : FileOutput}
    (hflush : Flush s.output point progress output)
    (hassert : progress = .finished → F.processor.blocksize ≤ output.queue.mCapacity) :
    FileStageInv F { s with output := output, thread := .inBeginWrite src progress } := by
  obtain ⟨howes, hdone⟩ := hflush.owes h.owes
  have hreader := h.reader
  rw [hthread] at hreader
  rw [stageBytes, hthread] at howes
  cases progress with
  | goesOn point => exact ⟨h.queue, h.released_dvd, hreader, trivial, howes⟩
  | interrupted => exact ⟨h.queue, h.released_dvd, trivial, trivial, howes⟩
  | finished =>
    exact {
      queue := h.queue
      released_dvd := h.released_dvd
      reader := ⟨hreader.1, hreader.2, Nat.zero_le _, List.nil_prefix⟩
      buffer := by
        refine ⟨hdone rfl, howes.mCapacity ▸ hassert rfl, Nat.zero_le _,
          fun hpos => absurd hpos (Nat.lt_irrefl 0), ?_⟩
        rw [Nat.zero_mul, List.take_zero, List.take_zero]
        rfl
      owes := howes }

private theorem load (h : FileStageInv F s) {src : Nat} {loaded : List β}
    (hthread : s.thread = .processBlock src loaded 0)
    (hlen : loaded.length < F.processor.blocksize) {m : Monitor Side β}
    (hstep : s.input.Step (.load .consumer loaded.length) m) :
    FileStageInv F { s with
      input := m
      thread := .processBlock src
        (loaded ++ [s.input.peers.queue.mBuff (src + loaded.length)]) 0 } := by
  have hreader := h.reader
  have howes := h.owes
  have hbuffer := h.buffer
  rw [hthread] at hreader hbuffer
  rw [stageBytes, hthread] at howes
  obtain ⟨hm, -⟩ := h.queue.load (hreader.load_within hlen) hstep
  obtain ⟨hidle, hcap, hstored, -, htake⟩ := hbuffer
  cases hstep with
  | load _ hp =>
    have hnext := hreader.load h.queue.peers hlen hp
    obtain rfl := Option.some.inj hp
    refine ⟨hm, h.released_dvd, hnext, ⟨hidle, hcap, hstored,
      fun hpos => absurd hpos (Nat.lt_irrefl 0), ?_⟩, howes⟩
    rw [List.take_zero, Nat.zero_mul, List.take_zero]
    rfl

/-- The next element of the image is written to the buffer, of which nothing is pending. -/
theorem store (h : FileStageInv F s) {src stored : Nat} {loaded : List β} {v : γ}
    (hthread : s.thread = .processBlock src loaded stored)
    (hlen : loaded.length = F.processor.blocksize)
    (hv : (F.processor.processBlock loaded)[stored]? = some v) :
    FileStageInv F { s with
      output := F.storeElement s.output stored v
      thread := .processBlock src loaded (stored + 1) } := by
  have hreader := h.reader
  have howes := h.owes
  have hbuffer := h.buffer
  rw [hthread] at hreader hbuffer
  rw [stageBytes, hthread] at howes
  obtain ⟨hidle, hcap, -, -, htake⟩ := hbuffer
  obtain ⟨hlt, hget⟩ := List.getElem?_eq_some_iff.mp hv
  rw [F.processor.processBlock_length loaded hlen] at hlt
  have hinside : (stored + 1) * F.size ≤ s.output.queue.mBuff.length := by
    rw [h.owes.length]
    exact Nat.mul_le_mul_right F.size (Nat.le_trans hlt hcap)
  rw [Nat.succ_mul] at hinside
  have hfits : stored * F.size + (F.encode v).length ≤ s.output.queue.mBuff.length := by
    rw [F.encode_length]
    exact hinside
  exact {
    queue := h.queue
    released_dvd := h.released_dvd
    reader := hreader
    buffer := by
      refine ⟨hidle, hcap, hlt, fun _ => hlen, ?_⟩
      have htake' : (overlay s.output.queue.mBuff (stored * F.size) (F.encode v)).take
          (stored * F.size + (F.encode v).length) = _ ++ F.encode v :=
        take_overlay htake (Nat.le_of_add_right_le hfits)
      rw [F.encode_length] at htake'
      rw [Nat.succ_mul, List.take_add_one, hv, bytes_append]
      refine htake'.trans (congrArg _ ?_)
      exact (List.append_nil _).symm
    owes := howes.store hidle ((overlay_length hfits).trans h.owes.length) }

/-- The start of `end_write` makes the image of the block at the front of the input pending. -/
theorem endWrite (h : FileStageInv F s) {src : Nat} {loaded : List β}
    (hthread : s.thread = .processBlock src loaded F.processor.blocksize) :
    FileStageInv F { s with
      output := commit F.size F.processor.blocksize s.output
      thread := .endWrite .writeBuffer } := by
  have hreader := h.reader
  have howes := h.owes
  have hbuffer := h.buffer
  rw [hthread] at hreader hbuffer
  rw [stageBytes, hthread] at howes
  obtain ⟨hidle, hcap, -, hfull, htake⟩ := hbuffer
  have hlen := hfull F.processor.blocksize_pos
  have hblock : F.bytes (pendingImage F.processor.blocksize F.processor.processBlock
      s.input.peers .endRead) = s.output.queue.mBuff.take (F.processor.blocksize * F.size) := by
    have hall : (F.processor.processBlock loaded).take F.processor.blocksize =
        F.processor.processBlock loaded :=
      List.take_of_length_le (Nat.le_of_eq (F.processor.processBlock_length loaded hlen))
    rw [htake, hall, pendingImage, hreader.loaded_block hlen]
  have hcommit := howes.commit hidle F.block_small hcap
  refine ⟨h.queue, h.released_dvd, ⟨congrArg Grant.done hreader.1, hreader.2.1⟩, trivial, ?_⟩
  have hbytes : F.stageBytes { s with
      output := commit F.size F.processor.blocksize s.output
      thread := .endWrite .writeBuffer } =
      F.bytes (blockwise F.processor.blocksize F.processor.processBlock
        s.input.peers.released ++ []) ++
        s.output.queue.mBuff.take (F.processor.blocksize * F.size) := by
    rw [← hblock, ← bytes_append, List.append_nil]
    rfl
  rw [hbytes]
  exact hcommit

private theorem flush (h : FileStageInv F s) {point : FlushPoint}
    (hthread : s.thread = .endWrite point)
    {progress : FlushProgress} {output : FileOutput}
    (hflush : Flush s.output point progress output) (hstay : progress ≠ .interrupted) :
    FileStageInv F { s with output := output, thread := .inEndWrite F.synchronous progress } := by
  obtain ⟨howes, -⟩ := hflush.owes h.owes
  have hreader := h.reader
  rw [hthread] at hreader
  rw [stageBytes, hthread] at howes
  cases progress with
  | goesOn point =>
    cases hsync : F.synchronous with
    | true => exact ⟨h.queue, h.released_dvd, hreader, trivial, howes⟩
    | false => exact ⟨h.queue, h.released_dvd, hreader, trivial, howes⟩
  | finished => exact ⟨h.queue, h.released_dvd, hreader, trivial, howes⟩
  | interrupted => exact absurd rfl hstay

private theorem endRead (h : FileStageInv F s) (hthread : s.thread = .endRead) {m : Monitor Side β}
    (hstep : s.input.Step (.endRead .consumer F.processor.blocksize) m) :
    FileStageInv F { s with input := m, thread := .beginRead } := by
  have hreader := h.reader
  have howes := h.owes
  rw [hthread] at hreader
  rw [stageBytes, hthread] at howes
  obtain ⟨hm, -⟩ := h.queue.endRead hreader.endRead_within hstep
  cases hstep with
  | @endRead _ _ p _ _ hp _ =>
    obtain ⟨hdvd, himage⟩ := hreader.endRead (f := F.processor.processBlock) h.queue.peers
      F.processor.blocksize_pos h.released_dvd hp
    refine ⟨hm, hdvd, trivial, trivial, ?_⟩
    change Owes _ _ (F.bytes (blockwise _ _ p.released ++ [])) s.output
    rw [List.append_nil, himage]
    exact howes

/-- Every step of every actor keeps the invariant, unless it interrupts an `end_write`. -/
theorem step (h : FileStageInv F s) {actor : FileActor} (hs : F.Step s actor t)
    (hok : EndWriteUndisturbed s actor t) : FileStageInv F t := by
  cases hs with
  | source hmay hstep =>
    obtain ⟨hm, hmoves⟩ := h.queue.source_step (T := fun _ => β) hmay hstep
    exact h.input_moves hm hmoves
  | controlInput hmay hstep =>
    obtain ⟨hm, hpeers⟩ := h.queue.controller_step (T := fun _ => β) (i := 0) hmay hstep
    exact h.input_moves hm (hpeers ▸ .refl _)
  | interrupt => exact h.setScheduler _
  | reset => exact h.setScheduler _
  | start hthread => exact h.idle (by rw [hthread]; rfl) (.inr (.inr rfl))
  | join hthread => exact h.idle (by rw [hthread]; rfl) (.inl rfl)
  | beginRead hthread _ henter hassert => exact h.beginRead hthread henter hassert
  | beginWrite hthread hflush hassert => exact h.beginWrite hthread hflush hassert
  | load hthread hlen hstep => exact h.load hthread hlen hstep
  | store hthread hlen hv => exact h.store hthread hlen hv
  | endWrite hthread => exact h.endWrite hthread
  | @flush point progress output hthread hflush =>
    apply h.flush hthread hflush
    rintro rfl
    obtain ⟨hflag, hpipe⟩ := hok rfl
    cases hflush with
    | flagged hset => rw [hflag hthread] at hset; cases hset
    | piped hfull => exact hfull (hpipe hthread)
  | endRead hthread hstep => exact h.endRead hthread hstep

/-- The block that has been committed but not released. -/
theorem pending_block (h : FileStageInv F s) : ∃ block,
    s.input.peers.released ++ block <+: s.input.peers.committed ∧
    F.processor.blocksize ∣ block.length ∧
    (s.thread = .joined → block = []) ∧
    pendingImage F.processor.blocksize F.processor.processBlock s.input.peers s.thread.place =
      blockwise F.processor.blocksize F.processor.processBlock block := by
  have hreader := h.reader
  rw [h.queue.peers.fifo]
  cases hplace : s.thread.place with
  | endRead =>
    rw [hplace] at hreader
    obtain ⟨-, hlen⟩ := h.queue.peers.holds_block hreader.1 hreader.2
    have hblock := List.length_take_of_le hlen
    refine ⟨s.input.peers.queue.content.take F.processor.blocksize, ?_, ?_, ?_, ?_⟩
    · exact (List.prefix_append_right_inj _).mpr (List.take_prefix _ _)
    · rw [hblock]
    · intro hjoined
      rw [hjoined] at hplace
      cases hplace
    · rw [blockwise_block F.processor.blocksize_pos _ hblock]
      rfl
  | _ =>
    refine ⟨[], ?_, Nat.dvd_zero _, fun _ => rfl, ?_⟩
    · rw [List.append_nil]
      exact List.prefix_append _ _
    · rw [blockwise_nil]
      rfl

end FileStageInv

/-- As long as no `end_write` waits under an interrupt, the descriptor's bytes and the pending
ones are the image of whole blocks from the front of the input stream, each block once. A stage
that has been joined has released them all. -/
theorem fileStage_delivers (F : FileStage β γ) (s : FileStageState β)
    (h : (F.system.restrict EndWriteUndisturbed).Reachable s) :
    ∃ stream, stream <+: s.input.peers.committed ∧ F.processor.blocksize ∣ stream.length ∧
      outputBytes s =
        F.bytes (blockwise F.processor.blocksize F.processor.processBlock stream) ∧
      (s.thread = .joined → stream = s.input.peers.released) := by
  have hinv : FileStageInv F s := by
    apply h.restrict_invariant (I := FileStageInv F)
    · rintro _ ⟨inputMemory, outputMemory, hmemory, rfl⟩
      exact .start inputMemory hmemory
    · intro s actor t hs hstep hok
      exact hs.step hstep hok
  obtain ⟨block, hprefix, hdvd, hjoined, hpending⟩ := hinv.pending_block
  refine ⟨_, hprefix, ?_, ?_, ?_⟩
  · rw [List.length_append]
    exact Nat.dvd_add hinv.released_dvd hdvd
  · rw [blockwise_append F.processor.blocksize_pos _ hinv.released_dvd, ← hpending]
    exact hinv.owes.stream
  · intro hthread
    rw [hjoined hthread, List.append_nil]

/-- `AddFive` on single bytes, between an input of one element and a file. -/
def addFiveFile : FileStage Nat Nat where
  processor := addFive
  size := 1
  encode v := [UInt8.ofNat v]
  encode_length _ := rfl
  inputCapacity := 1
  capacity := 1
  synchronous := true
  block_small := by decide

section Runs

open MonitorAction FileActor

/-- The source has pushed the element 60, which the stage holds. -/
def busyInput : Monitor Side Nat where
  peers :=
    { queue :=
        { mBuff := Function.update (fun _ => 0) 0 60
          mEnd := 1, mFirst := 0, mLast := 0, mSize := 1 }
      write := ⟨0, 1, 1⟩
      read := ⟨0, 1, 0⟩
      committed := [60]
      released := []
      stored := Function.update (fun _ => none) 0 (some 60)
      loads := [(0, 60)] }
  scheduler := .new
  threads := Function.update (Function.update (fun _ => .running) .producer .running) .consumer
    .running

/-- The first `write` of its image finds the descriptor busy. -/
def busy : FileStageState Nat where
  input := busyInput
  output :=
    { queue := { mBuff := [65], mCapacity := 1, mWriteoutPosition := 0, mBytesToWrite := 1 }
      poller := ⟨.new, []⟩
      writes := []
      accepted := [] }
  thread := .endWrite .waitWriteable

private theorem undisturbed_outside {s t : FileStageState Nat} {actor : FileActor}
    (h : ∀ point, s.thread ≠ .endWrite point) : EndWriteUndisturbed s actor t :=
  fun _ => ⟨fun heq => absurd heq (h _), fun heq => absurd heq (h _)⟩

private theorem busy_reachable :
    (addFiveFile.system.restrict EndWriteUndisturbed).Reachable busy := by
  have hstart : (addFiveFile.system.restrict EndWriteUndisturbed).Reachable
      (addFiveFile.start (fun _ => 0) [0]) := .init ⟨_, _, rfl, rfl⟩
  have hroom := hstart.step (a := source)
    ⟨.source (a := call .producer (.beginWrite 1)) trivial (.call rfl),
      undisturbed_outside (by intro point h; cases h)⟩
  have hstored := hroom.step (a := source)
    ⟨.source (a := MonitorAction.store .producer 0 60) (show 0 ≤ 0 ∧ 0 < 1 by decide)
      (.store rfl rfl), undisturbed_outside (by intro point h; cases h)⟩
  have hpushed := hstored.step (a := source)
    ⟨.source (a := MonitorAction.endWrite .producer 1) (show 0 + 1 ≤ 1 by decide)
      (.endWrite rfl rfl (.nobody (by intro t call h; cases t <;> cases h))),
      undisturbed_outside (by intro point h; cases h)⟩
  have hthread := hpushed.step (a := controller)
    ⟨.start rfl, undisturbed_outside (by intro point h; cases h)⟩
  have hread := hthread.step (a := stage)
    ⟨.beginRead rfl (.inl rfl) rfl (fun _ => Nat.le_refl 1),
      undisturbed_outside (by intro point h; cases h)⟩
  have hwrite := hread.step (a := stage)
    ⟨.beginWrite rfl (.finished .again rfl) (fun _ => Nat.le_refl 1),
      undisturbed_outside (by intro point h; cases h)⟩
  have hloaded := hwrite.step (a := stage)
    ⟨.load rfl (show 0 < 1 by decide) (.load rfl rfl),
      undisturbed_outside (by intro point h; cases h)⟩
  have hdone := hloaded.step (a := stage)
    ⟨.store (v := (65 : Nat)) rfl rfl rfl,
      undisturbed_outside (by intro point h; cases h)⟩
  have hcommitted := hdone.step (a := stage)
    ⟨.endWrite rfl, undisturbed_outside (by intro point h; cases h)⟩
  exact hcommitted.step (a := stage)
    ⟨.flush rfl (.more .again (t := busy.output) (by decide +kernel)), fun _ =>
      ⟨(by intro h; cases h), (by intro h; cases h)⟩⟩

theorem fileStage_delivers_busy :
    ∃ stream, stream <+: busy.input.peers.committed ∧ 1 ∣ stream.length ∧
      outputBytes busy = addFiveFile.bytes (blockwise 1 addFive.processBlock stream) ∧
      (busy.thread = .joined → stream = busy.input.peers.released) :=
  fileStage_delivers addFiveFile busy busy_reachable

/-- The interrupt ends the wait of `end_write`, whose block stays pending. After the restart the
stage finds the block in its input again. -/
theorem fileStage_repeats_block :
    ∃ s, addFiveFile.system.Reachable s ∧ s.input.peers.committed = [60] ∧
      outputBytes s = [65, 65] ∧
      ¬ ∃ stream, stream <+: s.input.peers.committed ∧
        outputBytes s = addFiveFile.bytes (blockwise 1 addFive.processBlock stream) := by
  have hbusy := busy_reachable.of_restrict
  have hinterrupt := hbusy.step (a := controller) .interrupt
  have hexited := hinterrupt.step (a := stage) (.flush rfl (.flagged rfl))
  have hjoined := hexited.step (a := controller) (.join rfl)
  have hreset := hjoined.step (a := controller) .reset
  rw [FilePollScheduler.reset_eq_new] at hreset
  have hthread := hreset.step (a := controller) (.start rfl)
  have hread := hthread.step (a := stage)
    (.beginRead rfl (.inl rfl) rfl fun _ => Nat.le_refl 1)
  have hwrite := hread.step (a := stage)
    (.beginWrite rfl (.finished (.written 1) (t := advance busy.output 1)
      (by decide +kernel)) fun _ => Nat.le_refl 1)
  have hloaded := hwrite.step (a := stage) (.load rfl (show 0 < 1 by decide) (.load rfl rfl))
  have hdone := hloaded.step (a := stage) (.store (v := (65 : Nat)) rfl rfl rfl)
  have hcommitted := hdone.step (a := stage) (.endWrite rfl)
  refine ⟨_, hcommitted, rfl, by decide +kernel, ?_⟩
  rintro ⟨stream, hprefix, hbytes⟩
  have hlen := congrArg List.length hbytes
  rw [bytes_length, blockwise_length (b := 1) addFive.processBlock_length (Nat.one_dvd _)] at hlen
  have htwo : stream.length * 1 = 2 := hlen.symm
  have hone : stream.length ≤ 1 := hprefix.length_le
  omega

end Runs

end Dyplo
