import Dyplo.Process.ThreadedProcess
import Dyplo.Queue.Moves

/-!
# Exactly-once delivery through a pipeline

A stage owns the reader's side of its input and the writer's side of its output. Its invariant
speaks of these two sides only, so the steps of its neighbours and of the controller leave it
alone, and an interrupt can only end a thread between two blocks.
-/

universe u

namespace Dyplo

open CyclicBuffer PipelineState

variable {β γ : Type u}

/-- The reader's side of the input, by where the thread is. -/
def StageReader (b : Nat) (p : PeerState β) : StageThread β → Prop
  | .joined => True
  | .exited => True
  | .beginRead => True
  | .beginWrite src => p.read = ⟨src, p.read.count, 0⟩ ∧ b ≤ p.read.count
  | .processBlock src _ loaded _ =>
      p.read = ⟨src, p.read.count, 0⟩ ∧ b ≤ p.read.count ∧ loaded.length ≤ b ∧
        loaded <+: p.queue.content
  | .endRead => p.read.done = 0 ∧ b ≤ p.read.count

/-- The writer's side of the output, by where the thread is. -/
def StageWriter (b : Nat) (f : List β → List γ) (p : PeerState γ) : StageThread β → Prop
  | .processBlock _ dest loaded stored =>
      p.write = ⟨dest, p.write.count, 0⟩ ∧ b ≤ p.write.count ∧ stored ≤ b ∧
        (0 < stored → loaded.length = b) ∧
        ∀ j, j < stored → (f loaded)[j]? = some (p.queue.mBuff (p.queue.mFirst + j))
  | _ => True

/-- The block the thread has committed but not released. -/
def pendingImage (b : Nat) (f : List β → List γ) (p : PeerState β) : StageThread β → List γ
  | .endRead => f (p.queue.content.take b)
  | _ => []

namespace StageReader

variable {b : Nat} {f : List β → List γ} {p p' : PeerState β} {thread : StageThread β}

theorem moves (h : StageReader b p thread) (hmoves : ProducerMoves p p') :
    StageReader b p' thread := by
  cases thread with
  | processBlock src dest loaded stored =>
    obtain ⟨hread, hcount, hlen, hloaded⟩ := h
    simp only [StageReader, hmoves.read]
    exact ⟨hread, hcount, hlen, hloaded.trans hmoves.content⟩
  | beginWrite src => simpa only [StageReader, hmoves.read] using h
  | endRead => simpa only [StageReader, hmoves.read] using h
  | _ => trivial

theorem pendingImage_moves (h : StageReader b p thread) (hp : PeerInv p)
    (hmoves : ProducerMoves p p') : pendingImage b f p' thread = pendingImage b f p thread := by
  cases thread with
  | endRead =>
    obtain ⟨hdone, hcount⟩ := h
    obtain ⟨tail, htail⟩ := hmoves.content
    simp only [pendingImage]
    rw [← htail, List.take_append_of_le_length (hp.holds_block hdone hcount).2]
  | _ => rfl

/-- The next element of the block is read from the granted slots. -/
theorem load {src dest : Nat} {loaded : List β}
    (h : StageReader b p (.processBlock src dest loaded 0)) (hp : PeerInv p)
    (hlen : loaded.length < b) (hs : p.next (.load loaded.length) = some p') :
    StageReader b p'
      (.processBlock src dest (loaded ++ [p.queue.mBuff (src + loaded.length)]) 0) := by
  obtain rfl := Option.some.inj hs
  obtain ⟨hread, hcount, -, hloaded⟩ := h
  have hdone : p.read.done = 0 := congrArg Grant.done hread
  have hbuffer : p.read.buffer = src := congrArg Grant.buffer hread
  obtain ⟨hslot, hrun⟩ := hp.read_slot (i := loaded.length) (by omega) (by omega)
  rw [hdone, Nat.sub_zero, hbuffer] at hslot
  rw [hdone, Nat.sub_zero] at hrun
  have hget := hp.wellFormed.content_getElem hrun
  rw [← hslot] at hget
  refine ⟨hread, hcount, by simp only [List.length_append, List.length_singleton]; omega, ?_⟩
  obtain ⟨tail, htail⟩ := hloaded
  change _ <+: p.queue.content
  rw [← htail, List.getElem?_append_right (Nat.le_refl _), Nat.sub_self] at hget
  obtain ⟨rest, rfl⟩ : ∃ rest, tail = p.queue.mBuff (src + loaded.length) :: rest := by
    cases tail with
    | nil => cases hget
    | cons v rest => exact ⟨rest, congrArg (· :: rest) (Option.some.inj hget)⟩
  rw [← htail]
  exact ⟨rest, by simp⟩

theorem load_within {src dest stored : Nat} {loaded : List β}
    (h : StageReader b p (.processBlock src dest loaded stored)) (hlen : loaded.length < b) :
    p.WithinGrants (.load loaded.length) := by
  obtain ⟨hread, hcount, -⟩ := h
  have hdone : p.read.done = 0 := congrArg Grant.done hread
  change p.read.done ≤ loaded.length ∧ loaded.length < p.read.count
  omega

theorem loaded_block {src dest stored : Nat} {loaded : List β}
    (h : StageReader b p (.processBlock src dest loaded stored)) (hlen : loaded.length = b) :
    p.queue.content.take b = loaded := by
  obtain ⟨-, -, -, hloaded⟩ := h
  rw [← hlen]
  exact (List.prefix_iff_eq_take.mp hloaded).symm

theorem endRead_within (h : StageReader b p .endRead) : p.WithinGrants (.endRead b) := by
  obtain ⟨hdone, hcount⟩ := h
  change p.read.done + b ≤ p.read.count
  omega

theorem endRead (h : StageReader b p .endRead) (hp : PeerInv p) (hb : 0 < b)
    (hdvd : b ∣ p.released.length) (hs : p.next (.endRead b) = some p') :
    b ∣ p'.released.length ∧
      blockwise b f p'.released = blockwise b f p.released ++ pendingImage b f p .endRead := by
  obtain rfl := Option.some.inj hs
  have hrun := hp.read_le_readRun h.endRead_within
  constructor
  · change b ∣ (p.released ++ straight _ _ _).length
    rw [List.length_append, straight_length]
    exact Nat.dvd_add hdvd (Nat.dvd_refl _)
  · change blockwise b f (p.released ++ straight _ _ _) = _
    rw [blockwise_append_block hb f hdvd (straight_length _ _ _), pendingImage,
      hp.content_take hrun]

end StageReader

/-- One stage between its input `p` and its output `q`. -/
structure StageInv (processor : StaticProcessor β γ) (p : PeerState β) (q : PeerState γ)
    (thread : StageThread β) : Prop where
  last_dvd : processor.blocksize ∣ p.queue.mLast
  released_dvd : processor.blocksize ∣ p.released.length
  first_dvd : processor.blocksize ∣ q.queue.mFirst
  reader : StageReader processor.blocksize p thread
  writer : StageWriter processor.blocksize processor.processBlock q thread
  delivered : q.committed =
    blockwise processor.blocksize processor.processBlock p.released ++
      pendingImage processor.blocksize processor.processBlock p thread

namespace StageInv

variable {processor : StaticProcessor β γ} {p p' : PeerState β} {q q' : PeerState γ}
  {thread : StageThread β}

theorem input_moves (h : StageInv processor p q thread) (hp : PeerInv p)
    (hmoves : ProducerMoves p p') : StageInv processor p' q thread where
  last_dvd := by rw [hmoves.mLast]; exact h.last_dvd
  released_dvd := by rw [hmoves.released]; exact h.released_dvd
  first_dvd := h.first_dvd
  reader := h.reader.moves hmoves
  writer := h.writer
  delivered := by
    rw [h.delivered, hmoves.released, h.reader.pendingImage_moves hp hmoves]

theorem output_moves (h : StageInv processor p q thread) (hmoves : ConsumerMoves q q') :
    StageInv processor p q' thread where
  last_dvd := h.last_dvd
  released_dvd := h.released_dvd
  first_dvd := by rw [hmoves.mFirst]; exact h.first_dvd
  reader := h.reader
  writer := by
    have hwriter := h.writer
    cases thread with
    | processBlock src dest loaded stored =>
      simpa only [StageWriter, hmoves.write, hmoves.mBuff, hmoves.mFirst] using hwriter
    | _ => trivial
  delivered := by rw [hmoves.committed]; exact h.delivered

theorem idle (h : StageInv processor p q thread) {thread' : StageThread β}
    (hpending : pendingImage processor.blocksize processor.processBlock p thread = [])
    (hthread : thread' = .joined ∨ thread' = .exited ∨ thread' = .beginRead) :
    StageInv processor p q thread' := by
  have hdelivered := h.delivered
  rw [hpending] at hdelivered
  rcases hthread with rfl | rfl | rfl <;>
    exact { h with reader := trivial, writer := trivial, delivered := hdelivered }

theorem beginRead (h : StageInv processor p q .beginRead) (hp : PeerInv p)
    (hcap : processor.blocksize ∣ p.queue.mEnd)
    (hs : p.next (.beginRead processor.blocksize) = some p') :
    StageInv processor p' q (.beginWrite p'.read.buffer) := by
  obtain ⟨⟨buffer, count⟩, hg, rfl⟩ := Option.map_eq_some_iff.mp hs
  obtain ⟨hsize, rfl, rfl⟩ := FixedMemoryQueue.beginRead_eq_some.mp hg
  exact { h with
    reader := ⟨rfl, hp.wellFormed.block_le_readRun h.last_dvd hcap hsize⟩
    writer := trivial
    delivered := h.delivered }

theorem beginWrite {src : Nat} (h : StageInv processor p q (.beginWrite src)) (hq : PeerInv q)
    (hcap : processor.blocksize ∣ q.queue.mEnd)
    (hs : q.next (.beginWrite processor.blocksize) = some q') :
    StageInv processor p q' (.processBlock src q'.write.buffer [] 0) := by
  obtain ⟨⟨buffer, count⟩, hg, rfl⟩ := Option.map_eq_some_iff.mp hs
  obtain ⟨hroom, rfl, rfl⟩ := FixedMemoryQueue.beginWrite_eq_some.mp hg
  exact { h with
    reader := ⟨h.reader.1, h.reader.2, Nat.zero_le _, List.nil_prefix⟩
    writer := ⟨rfl, hq.wellFormed.block_le_writeRun h.first_dvd hcap hroom, Nat.zero_le _,
      fun hpos => absurd hpos (Nat.lt_irrefl 0), fun j hj => absurd hj (Nat.not_lt_zero j)⟩
    delivered := h.delivered }

theorem load {src dest : Nat} {loaded : List β}
    (h : StageInv processor p q (.processBlock src dest loaded 0)) (hp : PeerInv p)
    (hlen : loaded.length < processor.blocksize)
    (hs : p.next (.load loaded.length) = some p') :
    StageInv processor p' q
      (.processBlock src dest (loaded ++ [p.queue.mBuff (src + loaded.length)]) 0) := by
  have hreader := h.reader.load hp hlen hs
  obtain rfl := Option.some.inj hs
  obtain ⟨hwrite, hroom, -, -, -⟩ := h.writer
  exact { h with
    reader := hreader
    writer := ⟨hwrite, hroom, Nat.zero_le _, fun hpos => absurd hpos (Nat.lt_irrefl 0),
      fun j hj => absurd hj (Nat.not_lt_zero j)⟩
    delivered := h.delivered }

theorem store_within {src dest stored : Nat} {loaded : List β} {v : γ}
    (h : StageInv processor p q (.processBlock src dest loaded stored))
    (hlt : stored < processor.blocksize) : q.WithinGrants (.store stored v) := by
  obtain ⟨hwrite, hroom, -⟩ := h.writer
  have hdone : q.write.done = 0 := congrArg Grant.done hwrite
  change q.write.done ≤ stored ∧ stored < q.write.count
  omega

/-- The next element of the image is written to the granted slots. -/
theorem store {src dest stored : Nat} {loaded : List β} {v : γ}
    (h : StageInv processor p q (.processBlock src dest loaded stored)) (hq : PeerInv q)
    (hlen : loaded.length = processor.blocksize) (hlt : stored < processor.blocksize)
    (hv : (processor.processBlock loaded)[stored]? = some v)
    (hs : q.next (.store stored v) = some q') :
    StageInv processor p q' (.processBlock src dest loaded (stored + 1)) := by
  obtain rfl := Option.some.inj hs
  obtain ⟨hwrite, hroom, -, -, himage⟩ := h.writer
  have hdone : q.write.done = 0 := congrArg Grant.done hwrite
  obtain ⟨hslot, -⟩ := hq.write_slot (i := stored) (by omega) (by omega)
  rw [hdone, Nat.sub_zero] at hslot
  exact { h with
    reader := h.reader
    writer := by
      refine ⟨hwrite, hroom, hlt, fun _ => hlen, ?_⟩
      intro j hj
      change _ = some (Function.update q.queue.mBuff (q.write.buffer + stored) v
        (q.queue.mFirst + j))
      rw [hslot]
      by_cases hjs : j = stored
      · subst hjs; rw [Function.update_self]; exact hv
      · rw [Function.update_of_ne (by omega)]
        exact himage j (by omega)
    delivered := h.delivered }

theorem endWrite_within {src dest : Nat} {loaded : List β}
    (h : StageInv processor p q (.processBlock src dest loaded processor.blocksize)) :
    q.WithinGrants (.endWrite processor.blocksize) := by
  obtain ⟨hwrite, hroom, -⟩ := h.writer
  have hdone : q.write.done = 0 := congrArg Grant.done hwrite
  change q.write.done + processor.blocksize ≤ q.write.count
  omega

/-- `end_write` commits the image of the block at the front of the input. -/
theorem endWrite {src dest : Nat} {loaded : List β}
    (h : StageInv processor p q (.processBlock src dest loaded processor.blocksize))
    (hs : q.next (.endWrite processor.blocksize) = some q') :
    StageInv processor p q' .endRead := by
  obtain rfl := Option.some.inj hs
  obtain ⟨hread, hcount, -, -⟩ := h.reader
  obtain ⟨-, -, -, hfull, himage⟩ := h.writer
  have hlen := hfull processor.blocksize_pos
  have hblock := h.reader.loaded_block hlen
  have hstored : straight q.queue.mBuff q.queue.mFirst processor.blocksize =
      processor.processBlock loaded := by
    apply List.ext_getElem?
    intro j
    by_cases hj : j < processor.blocksize
    · rw [himage j hj, straight_getElem _ _ _ _ hj]
    · rw [List.getElem?_eq_none (by simp; omega), List.getElem?_eq_none
        (by rw [processor.processBlock_length loaded hlen]; omega)]
  exact { h with
    first_dvd := FixedMemoryQueue.dvd_increment h.first_dvd (Nat.dvd_refl _)
    reader := ⟨congrArg Grant.done hread, hcount⟩
    writer := trivial
    delivered := by
      have hdelivered := h.delivered
      simp only [pendingImage, List.append_nil] at hdelivered
      change q.committed ++ straight q.queue.mBuff q.queue.mFirst processor.blocksize = _
      rw [hdelivered, hstored, pendingImage, hblock] }

theorem endRead (h : StageInv processor p q .endRead) (hp : PeerInv p)
    (hs : p.next (.endRead processor.blocksize) = some p') :
    StageInv processor p' q .beginRead := by
  obtain ⟨hdvd, himage⟩ := h.reader.endRead (f := processor.processBlock) hp
    processor.blocksize_pos h.released_dvd hs
  obtain rfl := Option.some.inj hs
  exact { h with
    last_dvd := FixedMemoryQueue.dvd_increment h.last_dvd (Nat.dvd_refl _)
    released_dvd := hdvd
    reader := trivial
    writer := trivial
    delivered := by
      rw [himage]
      exact h.delivered.trans (List.append_nil _).symm }

end StageInv

/-- The calls a side of a queue makes. -/
def Side.Makes : Side → Call → Prop
  | .producer, .beginWrite _ => True
  | .consumer, .beginRead _ => True
  | _, _ => False

/-- One queue of the pipeline: its peers' invariant, and every wait is one of its own side. -/
structure QueueInv (capacity : Nat) (m : Monitor Side β) : Prop where
  peers : PeerInv m.peers
  mEnd : m.peers.queue.mEnd = capacity
  awake : ∀ t call, m.threads t = .awake call → t.Makes call
  asleep : ∀ t call, m.threads t = .asleep call → t.Makes call

namespace QueueInv

variable {capacity : Nat} {m m' : Monitor Side β}

theorem start (memory : Nat → β) (capacity : Nat) :
    QueueInv capacity (Monitor.start memory capacity) :=
  ⟨.start memory capacity, rfl, nofun, nofun⟩

private theorem update (h : QueueInv capacity m) {p : PeerState β} (hp : PeerInv p)
    (hend : p.queue.mEnd = m.peers.queue.mEnd) {t : Side} {status : ThreadStatus}
    (hstatus : ∀ call, status = .awake call ∨ status = .asleep call → t.Makes call) :
    QueueInv capacity { m with peers := p, threads := Function.update m.threads t status } := by
  refine ⟨hp, hend.trans h.mEnd, ?_, ?_⟩
  · intro u call hu
    change Function.update m.threads t status u = .awake call at hu
    rcases status_update hu with ⟨rfl, hnew⟩ | hu
    · exact hstatus call (.inl hnew)
    · exact h.awake u call hu
  · intro u call hu
    change Function.update m.threads t status u = .asleep call at hu
    rcases status_update hu with ⟨rfl, hnew⟩ | hu
    · exact hstatus call (.inr hnew)
    · exact h.asleep u call hu

private theorem signal (h : QueueInv capacity m) {p : PeerState β} (hp : PeerInv p)
    (hend : p.queue.mEnd = m.peers.queue.mEnd) {c : Condition} {threads : Side → ThreadStatus}
    (hsignal : Signal c m.threads threads) (scheduler : PthreadScheduler) :
    QueueInv capacity { peers := p, scheduler := scheduler, threads := threads } := by
  refine ⟨hp, hend.trans h.mEnd, ?_, ?_⟩
  · intro u call hu
    exact (hsignal.waits_of_awake hu).elim (h.awake u call) (h.asleep u call)
  · intro u call hu
    exact h.asleep u call (hsignal.asleep_of_asleep hu)

private theorem enter (h : QueueInv capacity m) {t : Side} {call : Call} (hmakes : t.Makes call)
    (hnext : ∀ p, m.attempt call = some p →
      PeerInv p ∧ p.queue.mEnd = m.peers.queue.mEnd) :
    QueueInv capacity (m.enter t call).2 := by
  rcases m.enter_cases t call with ⟨p, hp, heq⟩ | ⟨-, -, heq⟩ | ⟨-, -, heq⟩
  · rw [heq]
    exact h.update (hnext p hp).1 (hnext p hp).2 (by rintro call' (h' | h') <;> cases h')
  · rw [heq]
    exact h.update h.peers rfl (by rintro call' (h' | h') <;> cases h')
  · rw [heq]
    refine h.update h.peers rfl ?_
    rintro call' (h' | h')
    · cases h'
    · obtain rfl := ThreadStatus.asleep.inj h'
      exact hmakes

private theorem producer_enter (h : QueueInv capacity m) {call : Call}
    (hmakes : Side.producer.Makes call) : QueueInv capacity (m.enter .producer call).2 ∧
      ProducerMoves m.peers (m.enter .producer call).2.peers := by
  cases call with
  | beginRead n => exact hmakes.elim
  | waitEmpty => exact hmakes.elim
  | beginWrite n =>
    refine ⟨h.enter hmakes fun p hp => ⟨h.peers.beginWrite hp,
      peers_mEnd (a := PeerAction.beginWrite n) hp⟩, ?_⟩
    rcases m.enter_cases .producer (.beginWrite n) with ⟨p, hp, heq⟩ | ⟨-, -, heq⟩ | ⟨-, -, heq⟩
    · rw [heq]; exact PeerInv.beginWrite_moves hp
    · rw [heq]; exact .refl _
    · rw [heq]; exact .refl _

theorem consumer_enter (h : QueueInv capacity m) {call : Call}
    (hmakes : Side.consumer.Makes call) : QueueInv capacity (m.enter .consumer call).2 ∧
      ConsumerMoves m.peers (m.enter .consumer call).2.peers := by
  cases call with
  | beginWrite n => exact hmakes.elim
  | waitEmpty => exact hmakes.elim
  | beginRead n =>
    refine ⟨h.enter hmakes fun p hp => ⟨h.peers.beginRead hp,
      peers_mEnd (a := PeerAction.beginRead n) hp⟩, ?_⟩
    rcases m.enter_cases .consumer (.beginRead n) with ⟨p, hp, heq⟩ | ⟨-, -, heq⟩ | ⟨-, -, heq⟩
    · rw [heq]; exact PeerInv.beginRead_moves hp
    · rw [heq]; exact .refl _
    · rw [heq]; exact .refl _

private theorem store (h : QueueInv capacity m) {t : Side} {i : Nat} {v : β}
    (hg : m.peers.WithinGrants (.store i v)) (hs : m.Step (.store t i v) m') :
    QueueInv capacity m' ∧ ProducerMoves m.peers m'.peers := by
  cases hs with
  | store hrun hp =>
    exact ⟨⟨h.peers.store hg hp, (peers_mEnd hp).trans h.mEnd, h.awake, h.asleep⟩,
      h.peers.store_moves hg hp⟩

private theorem endWrite (h : QueueInv capacity m) {t : Side} {count : Nat}
    (hg : m.peers.WithinGrants (.endWrite count)) (hs : m.Step (.endWrite t count) m') :
    QueueInv capacity m' ∧ ProducerMoves m.peers m'.peers := by
  cases hs with
  | endWrite hrun hp hsignal =>
    exact ⟨h.signal (h.peers.endWrite hg hp) (peers_mEnd hp) hsignal _,
      h.peers.endWrite_moves hg hp⟩

theorem load (h : QueueInv capacity m) {t : Side} {i : Nat}
    (hg : m.peers.WithinGrants (.load i)) (hs : m.Step (.load t i) m') :
    QueueInv capacity m' ∧ ConsumerMoves m.peers m'.peers := by
  cases hs with
  | load hrun hp =>
    exact ⟨⟨h.peers.load hg hp, (peers_mEnd hp).trans h.mEnd, h.awake, h.asleep⟩,
      PeerInv.load_moves hp⟩

theorem endRead (h : QueueInv capacity m) {t : Side} {count : Nat}
    (hg : m.peers.WithinGrants (.endRead count)) (hs : m.Step (.endRead t count) m') :
    QueueInv capacity m' ∧ ConsumerMoves m.peers m'.peers := by
  cases hs with
  | endRead hrun hp hsignal =>
    exact ⟨h.signal (h.peers.endRead hg hp) (peers_mEnd hp) hsignal _,
      PeerInv.endRead_moves hp⟩

variable {T : Nat → Type u}

theorem source_step {a : MonitorAction Side (T 0)} {m m' : Monitor Side (T 0)}
    (h : QueueInv capacity m) (hmay : SourceMayTake m a) (hs : m.Step a m') :
    QueueInv capacity m' ∧ ProducerMoves m.peers m'.peers := by
  unfold SourceMayTake at hmay
  split at hmay
  · cases hs with
    | call _ => exact h.producer_enter trivial
  · cases hs with
    | again hawake => exact h.producer_enter (h.awake _ _ hawake)
  · exact h.store hmay hs
  · exact h.endWrite hmay hs
  · exact hmay.elim

private theorem sink_step {i : Nat} {a : MonitorAction Side (T i)} {m m' : Monitor Side (T i)}
    (h : QueueInv capacity m) (hmay : SinkMayTake m a) (hs : m.Step a m') :
    QueueInv capacity m' ∧ ConsumerMoves m.peers m'.peers := by
  unfold SinkMayTake at hmay
  split at hmay
  · cases hs with
    | call _ => exact h.consumer_enter trivial
  · cases hs with
    | again hawake => exact h.consumer_enter (h.awake _ _ hawake)
  · exact h.load hmay hs
  · exact h.endRead hmay hs
  · exact hmay.elim

theorem controller_step {i : Nat} {a : MonitorAction Side (T i)} {m m' : Monitor Side (T i)}
    (h : QueueInv capacity m) (hmay : ControllerMayTake a) (hs : m.Step a m') :
    QueueInv capacity m' ∧ m'.peers = m.peers := by
  cases hs with
  | interruptRead hsignal => exact ⟨h.signal h.peers rfl hsignal _, rfl⟩
  | interruptWrite hsignal => exact ⟨h.signal h.peers rfl hsignal _, rfl⟩
  | resumeRead hsignal => exact ⟨h.signal h.peers rfl hsignal _, rfl⟩
  | resumeWrite hsignal => exact ⟨h.signal h.peers rfl hsignal _, rfl⟩
  | @spurious t call hasleep =>
    refine ⟨h.update h.peers rfl ?_, rfl⟩
    rintro call' (hcall | hcall)
    · obtain rfl := ThreadStatus.awake.inj hcall
      exact h.asleep t call hasleep
    · cases hcall
  | _ => exact hmay.elim

end QueueInv

variable {T : Nat → Type u} {P : Pipeline T}

structure PipelineInv (s : PipelineState P) : Prop where
  queue : ∀ i, QueueInv (P.capacity i) (s.queues i)
  stage : ∀ i : Fin P.stages,
    StageInv (P.processor i) (s.queues i).peers (s.queues (i + 1)).peers (s.threads i)

namespace PipelineInv

variable {s : PipelineState P}

private theorem setQueue_queue (h : PipelineInv s) {j : Nat} {m : Monitor Side (T j)}
    (hm : QueueInv (P.capacity j) m) (i : Nat) :
    QueueInv (P.capacity i) ((s.setQueue j m).queues i) := by
  change QueueInv (P.capacity i) (Function.update s.queues j m i)
  by_cases hij : i = j
  · subst hij; rwa [Function.update_self]
  · rw [Function.update_of_ne hij]; exact h.queue i

private theorem stage_of_consumer (h : PipelineInv s) {j : Nat} {m : Monitor Side (T j)}
    (hmoves : ConsumerMoves (s.queues j).peers m.peers) (k : Fin P.stages) (hk : (k : Nat) ≠ j) :
    StageInv (P.processor k) ((s.setQueue j m).queues k).peers
      ((s.setQueue j m).queues (k + 1)).peers (s.threads k) := by
  change StageInv (P.processor k) (Function.update s.queues j m k).peers
    (Function.update s.queues j m (k + 1)).peers (s.threads k)
  rw [Function.update_of_ne hk]
  by_cases hj : (k : Nat) + 1 = j
  · subst hj; rw [Function.update_self]; exact (h.stage k).output_moves hmoves
  · rw [Function.update_of_ne hj]; exact h.stage k

private theorem stage_of_producer (h : PipelineInv s) {j : Nat} {m : Monitor Side (T j)}
    (hmoves : ProducerMoves (s.queues j).peers m.peers) (k : Fin P.stages)
    (hk : (k : Nat) + 1 ≠ j) :
    StageInv (P.processor k) ((s.setQueue j m).queues k).peers
      ((s.setQueue j m).queues (k + 1)).peers (s.threads k) := by
  change StageInv (P.processor k) (Function.update s.queues j m k).peers
    (Function.update s.queues j m (k + 1)).peers (s.threads k)
  rw [Function.update_of_ne hk]
  by_cases hj : (k : Nat) = j
  · subst hj; rw [Function.update_self]; exact (h.stage k).input_moves (h.queue k).peers hmoves
  · rw [Function.update_of_ne hj]; exact h.stage k

private theorem stage_reads (h : PipelineInv s) {i : Fin P.stages} {m : Monitor Side (T i)}
    {thread : StageThread (T i)} (hm : QueueInv (P.capacity i) m)
    (hmoves : ConsumerMoves (s.queues i).peers m.peers)
    (hstage : StageInv (P.processor i) m.peers (s.queues (i + 1)).peers thread) :
    PipelineInv ((s.setQueue i m).setThread i thread) := by
  refine ⟨h.setQueue_queue hm, ?_⟩
  intro k
  by_cases hki : k = i
  · subst hki
    change StageInv (P.processor k) (Function.update s.queues k m k).peers
      (Function.update s.queues k m (k + 1)).peers (Function.update s.threads k thread k)
    rw [Function.update_self, Function.update_self, Function.update_of_ne (by omega)]
    exact hstage
  · have hother := h.stage_of_consumer hmoves k (fun heq => hki (Fin.ext heq))
    change StageInv (P.processor k) _ _ (Function.update s.threads i thread k)
    rw [Function.update_of_ne hki]
    exact hother

private theorem stage_writes (h : PipelineInv s) {i : Fin P.stages} {m : Monitor Side (T (i + 1))}
    {thread : StageThread (T i)} (hm : QueueInv (P.capacity (i + 1)) m)
    (hmoves : ProducerMoves (s.queues (i + 1)).peers m.peers)
    (hstage : StageInv (P.processor i) (s.queues i).peers m.peers thread) :
    PipelineInv ((s.setQueue (i + 1) m).setThread i thread) := by
  refine ⟨h.setQueue_queue hm, ?_⟩
  intro k
  by_cases hki : k = i
  · subst hki
    change StageInv (P.processor k) (Function.update s.queues (k + 1) m k).peers
      (Function.update s.queues (k + 1) m (k + 1)).peers (Function.update s.threads k thread k)
    rw [Function.update_self, Function.update_self, Function.update_of_ne (by omega)]
    exact hstage
  · have hother := h.stage_of_producer hmoves k
      (fun heq => hki (Fin.ext (Nat.add_right_cancel heq)))
    change StageInv (P.processor k) _ _ (Function.update s.threads i thread k)
    rw [Function.update_of_ne hki]
    exact hother

private theorem stage_moves (h : PipelineInv s) {i : Fin P.stages} {thread : StageThread (T i)}
    (hstage : StageInv (P.processor i) (s.queues i).peers (s.queues (i + 1)).peers thread) :
    PipelineInv (s.setThread i thread) := by
  refine ⟨h.queue, ?_⟩
  intro k
  change StageInv (P.processor k) _ _ (Function.update s.threads i thread k)
  by_cases hki : k = i
  · subst hki; rw [Function.update_self]; exact hstage
  · rw [Function.update_of_ne hki]; exact h.stage k

private theorem beginRead_step (h : PipelineInv s) {i : Fin P.stages} {outcome : Outcome}
    {m : Monitor Side (T i)} (hthread : s.threads i = .beginRead)
    (henter : (s.queues i).enter .consumer (.beginRead (P.processor i).blocksize) = (outcome, m)) :
    PipelineInv ((s.setQueue i m).setThread i
      (.afterBeginRead m.peers.read.buffer outcome)) := by
  have hstage := h.stage i
  rw [hthread] at hstage
  have hmakes : Side.consumer.Makes (.beginRead (P.processor i).blocksize) := trivial
  obtain ⟨hm, hmoves⟩ := (h.queue i).consumer_enter hmakes
  rw [henter] at hm hmoves
  apply h.stage_reads hm hmoves
  rcases (s.queues i).enter_cases .consumer (.beginRead (P.processor i).blocksize) with
    ⟨p, hp, heq⟩ | ⟨-, -, heq⟩ | ⟨-, -, heq⟩ <;> rw [henter] at heq <;>
    obtain ⟨rfl, rfl⟩ := Prod.mk.inj heq
  · exact hstage.beginRead (h.queue i).peers ((h.queue i).mEnd ▸ P.input_dvd i) hp
  · exact hstage.idle rfl (.inr (.inl rfl))
  · exact hstage

private theorem beginWrite_step (h : PipelineInv s) {i : Fin P.stages} {src : Nat}
    {outcome : Outcome}
    {m : Monitor Side (T (i + 1))} (hthread : s.threads i = .beginWrite src)
    (henter : (s.queues (i + 1)).enter .producer (.beginWrite (P.processor i).blocksize) =
      (outcome, m)) :
    PipelineInv ((s.setQueue (i + 1) m).setThread i
      (.afterBeginWrite src m.peers.write.buffer outcome)) := by
  have hstage := h.stage i
  rw [hthread] at hstage
  have hmakes : Side.producer.Makes (.beginWrite (P.processor i).blocksize) := trivial
  obtain ⟨hm, hmoves⟩ := (h.queue (i + 1)).producer_enter hmakes
  rw [henter] at hm hmoves
  apply h.stage_writes hm hmoves
  rcases (s.queues (i + 1)).enter_cases .producer (.beginWrite (P.processor i).blocksize) with
    ⟨p, hp, heq⟩ | ⟨-, -, heq⟩ | ⟨-, -, heq⟩ <;> rw [henter] at heq <;>
    obtain ⟨rfl, rfl⟩ := Prod.mk.inj heq
  · exact hstage.beginWrite (h.queue (i + 1)).peers
      ((h.queue (i + 1)).mEnd ▸ P.output_dvd i) hp
  · exact hstage.idle rfl (.inr (.inl rfl))
  · exact hstage

/-- Every step of every actor keeps the invariant. -/
theorem step (h : PipelineInv s) {actor : Actor P.stages} {t : PipelineState P}
    (hs : s.Step actor t) : PipelineInv t := by
  cases hs with
  | source hmay hstep =>
    obtain ⟨hm, hmoves⟩ := (h.queue 0).source_step hmay hstep
    exact ⟨h.setQueue_queue hm, fun k => h.stage_of_producer hmoves k (by omega)⟩
  | sink hmay hstep =>
    obtain ⟨hm, hmoves⟩ := (h.queue P.stages).sink_step hmay hstep
    exact ⟨h.setQueue_queue hm, fun k => h.stage_of_consumer hmoves k (by omega)⟩
  | @controller i a m hmay hstep =>
    obtain ⟨hm, hpeers⟩ := (h.queue i).controller_step hmay hstep
    refine ⟨h.setQueue_queue hm, fun k => ?_⟩
    by_cases hki : (k : Nat) = i
    · exact h.stage_of_producer (hpeers ▸ .refl _) k (by omega)
    · exact h.stage_of_consumer (hpeers ▸ .refl _) k hki
  | @start i hthread =>
    have hstage := h.stage i
    rw [hthread] at hstage
    exact h.stage_moves (hstage.idle rfl (.inr (.inr rfl)))
  | @join i hthread =>
    have hstage := h.stage i
    rw [hthread] at hstage
    exact h.stage_moves (hstage.idle rfl (.inl rfl))
  | beginRead hthread _ henter => exact h.beginRead_step hthread henter
  | beginWrite hthread _ henter => exact h.beginWrite_step hthread henter
  | @load i src dest loaded m hthread hlen hstep =>
    have hstage := h.stage i
    rw [hthread] at hstage
    obtain ⟨hm, hmoves⟩ := (h.queue i).load (hstage.reader.load_within hlen) hstep
    cases hstep with
    | load _ hp =>
      exact h.stage_reads hm hmoves (hstage.load (h.queue i).peers hlen hp)
  | @store i src dest stored loaded v m hthread hlen hlt hv hstep =>
    have hstage := h.stage i
    rw [hthread] at hstage
    obtain ⟨hm, hmoves⟩ := (h.queue (i + 1)).store (hstage.store_within hlt) hstep
    cases hstep with
    | store _ hp =>
      exact h.stage_writes hm hmoves (hstage.store (h.queue (i + 1)).peers hlen hlt hv hp)
  | @endWrite i src dest loaded m hthread hstep =>
    have hstage := h.stage i
    rw [hthread] at hstage
    obtain ⟨hm, hmoves⟩ := (h.queue (i + 1)).endWrite hstage.endWrite_within hstep
    cases hstep with
    | endWrite _ hp _ => exact h.stage_writes hm hmoves (hstage.endWrite hp)
  | @endRead i m hthread hstep =>
    have hstage := h.stage i
    rw [hthread] at hstage
    obtain ⟨hm, hmoves⟩ := (h.queue i).endRead hstage.reader.endRead_within hstep
    cases hstep with
    | endRead _ hp _ => exact h.stage_reads hm hmoves (hstage.endRead (h.queue i).peers hp)

theorem start (P : Pipeline T) (memory : (i : Nat) → Nat → T i) : PipelineInv (P.start memory) where
  queue i := .start (memory i) (P.capacity i)
  stage i := {
    last_dvd := Nat.dvd_zero _
    released_dvd := Nat.dvd_zero _
    first_dvd := Nat.dvd_zero _
    reader := trivial
    writer := trivial
    delivered := by
      change [] = blockwise _ _ [] ++ []
      rw [blockwise_nil, List.append_nil] }

/-- What has been committed to queue `i` is a prefix of the image of the source's stream. -/
theorem committed_image (h : PipelineInv s) (i : Nat) (hi : i ≤ P.stages) :
    (s.queues i).peers.committed <+: P.image (s.queues 0).peers.committed i hi := by
  induction i with
  | zero => exact List.prefix_refl _
  | succ i ih =>
    have hstage := h.stage ⟨i, hi⟩
    have hfifo := (h.queue i).peers.fifo
    refine List.IsPrefix.trans ?_ (blockwise_mono _ _ (ih (Nat.le_of_succ_le hi)))
    rw [hstage.delivered]
    cases hthread : s.threads ⟨i, hi⟩ with
    | endRead =>
      have hreader := hstage.reader
      rw [hthread] at hreader
      obtain ⟨-, hlen⟩ := (h.queue i).peers.holds_block hreader.1 hreader.2
      rw [pendingImage, ← blockwise_append_block (P.processor ⟨i, hi⟩).blocksize_pos _
        hstage.released_dvd (List.length_take_of_le hlen)]
      apply blockwise_mono
      change (s.queues i).peers.released ++ _ <+: (s.queues i).peers.committed
      rw [hfifo]
      exact (List.prefix_append_right_inj _).mpr (List.take_prefix _ _)
    | _ =>
      rw [pendingImage, List.append_nil]
      · apply blockwise_mono
        change (s.queues i).peers.released <+: (s.queues i).peers.committed
        rw [hfifo]
        exact List.prefix_append _ _
      all_goals nofun

end PipelineInv

theorem Pipeline.invariant {s : PipelineState P} (h : P.system.Reachable s) : PipelineInv s := by
  apply h.invariant (I := PipelineInv)
  · rintro s ⟨memory, rfl⟩
    exact .start P memory
  · intro s a t hinv hs
    exact hinv.step hs

/-- Every stage delivers each block exactly once, whatever is interrupted, joined, resumed and
restarted: what it has committed is the blockwise image of what it has released, but for one
block between `end_write` and `end_read`. The sink's stream is a prefix of the composed image of
the source's stream. -/
theorem pipeline_exactly_once (P : Pipeline T) (s : PipelineState P)
    (h : P.system.Reachable s) :
    (∀ i : Fin P.stages, ∃ pending,
      (s.queues (i + 1)).peers.committed =
        blockwise (P.processor i).blocksize (P.processor i).processBlock
          (s.queues i).peers.released ++ pending ∧
      (pending = [] ∨ s.threads i = .endRead ∧ ∃ block,
        block.length = (P.processor i).blocksize ∧ block <+: (s.queues i).peers.queue.content ∧
        pending = (P.processor i).processBlock block) ∧
      (s.threads i = .joined → pending = [])) ∧
    (s.queues P.stages).peers.released <+:
      P.image (s.queues 0).peers.committed P.stages (Nat.le_refl _) := by
  have hinv := Pipeline.invariant h
  refine ⟨fun i => ⟨_, (hinv.stage i).delivered, ?_, ?_⟩, ?_⟩
  · cases hthread : s.threads i with
    | endRead =>
      have hreader := (hinv.stage i).reader
      rw [hthread] at hreader
      obtain ⟨-, hlen⟩ := (hinv.queue i).peers.holds_block hreader.1 hreader.2
      exact .inr ⟨rfl, _, List.length_take_of_le hlen, List.take_prefix _ _, rfl⟩
    | _ => exact .inl rfl
  · intro hthread
    rw [hthread]
    rfl
  · have himage := hinv.committed_image P.stages (Nat.le_refl _)
    rw [(hinv.queue P.stages).peers.fifo] at himage
    exact (List.prefix_append _ _).trans himage

/-- `process_block_add_constant<int, 5, 1>`. -/
def addFive : StaticProcessor Nat Nat where
  blocksize := 1
  processBlock := List.map (· + 5)
  blocksize_pos := by decide
  processBlock_length _ h := by rw [List.length_map, h]

/-- One `AddFive` process between two queues of two elements. -/
def addFivePipeline : Pipeline (fun _ => Nat) where
  stages := 1
  stages_pos := Nat.le_refl 1
  processor _ := addFive
  capacity _ := 2
  input_dvd _ := Nat.one_dvd _
  output_dvd _ := Nat.one_dvd _

def addFiveStage : Fin addFivePipeline.stages := ⟨0, Nat.one_pos⟩

/-- The element 60 has been pushed, and its stage is between `end_write` and `end_read`. -/
theorem pipeline_exactly_once_addFive :
    ∃ s : PipelineState addFivePipeline, (s.queues 1).peers.committed = [65] ∧
      (∀ i : Fin 1, ∃ pending,
        (s.queues (i + 1)).peers.committed =
          blockwise 1 addFive.processBlock (s.queues i).peers.released ++ pending ∧
        (pending = [] ∨ s.threads i = .endRead ∧ ∃ block,
          block.length = 1 ∧ block <+: (s.queues i).peers.queue.content ∧
          pending = addFive.processBlock block) ∧
        (s.threads i = .joined → pending = [])) ∧
      (s.queues 1).peers.released <+:
        addFivePipeline.image (s.queues 0).peers.committed 1 (Nat.le_refl 1) := by
  have hstart : addFivePipeline.system.Reachable (addFivePipeline.start fun _ _ => (0 : Nat)) :=
    .init ⟨_, rfl⟩
  have hthread := hstart.step (.start (i := addFiveStage) rfl)
  have hroom := hthread.step (.source (a := .call .producer (.beginWrite 1)) trivial (.call rfl))
  have hstored := hroom.step (.source (a := .store .producer 0 (60 : Nat))
    (show 0 ≤ 0 ∧ 0 < 2 by decide) (.store rfl rfl))
  have hpushed := hstored.step (.source (a := .endWrite .producer 1)
    (show 0 + 1 ≤ 2 by decide)
    (.endWrite rfl rfl (.nobody (by intro t call h; cases t <;> cases h))))
  have hread := hpushed.step (.beginRead (i := addFiveStage) rfl (.inl rfl) rfl)
  have hwrite := hread.step (.beginWrite (i := addFiveStage) rfl (.inl rfl) rfl)
  have hloaded := hwrite.step
    (.load (i := addFiveStage) rfl (show 0 < 1 by decide) (.load rfl rfl))
  have hdone := hloaded.step (.store (i := addFiveStage) (v := (65 : Nat))
    rfl rfl (show 0 < 1 by decide) rfl (.store rfl rfl))
  have hcommitted := hdone.step (.endWrite (i := addFiveStage) rfl
    (.endWrite rfl rfl (.nobody (by intro t call h; cases t <;> cases h))))
  exact ⟨_, rfl, pipeline_exactly_once addFivePipeline _ hcommitted⟩

end Dyplo
