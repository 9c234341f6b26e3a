import Dyplo.Process.Pipeline

/-!
# Interrupting a stage at its loop head

The interrupt flags are looked at only when a call would have to wait. A stage whose flags are
both set therefore goes on while its input holds a block and its output has room for one, and
leaves `process` at the first wait.
-/

universe u

namespace Dyplo

open PipelineState

section Statuses

variable {ι α : Type*} [DecidableEq ι]

theorem Signal.running {c : Condition} {threads threads' : ι → ThreadStatus}
    (h : Signal c threads threads') {t : ι} (ht : threads t = .running) :
    threads' t = .running := by
  cases h with
  | nobody => exact ht
  | @wake u call hasleep _ =>
    have hne : t ≠ u := by
      rintro rfl
      rw [ht] at hasleep
      cases hasleep
    rw [Function.update_of_ne hne]
    exact ht

private theorem Monitor.enter_other (m : Monitor ι α) {t u : ι} (call : Call) (hne : u ≠ t) :
    (m.enter t call).2.threads u = m.threads u := by
  rcases m.enter_cases t call with ⟨p, -, heq⟩ | ⟨-, -, heq⟩ | ⟨-, -, heq⟩ <;> rw [heq] <;>
    exact Function.update_of_ne hne _ _

private theorem Monitor.enter_own (m : Monitor ι α) (t : ι) (call : Call) :
    (m.enter t call).1 = .sleeping ∨ (m.enter t call).2.threads t = .running := by
  rcases m.enter_cases t call with ⟨p, -, heq⟩ | ⟨-, -, heq⟩ | ⟨-, -, heq⟩ <;> rw [heq]
  · right
    change Function.update _ t _ t = _
    exact Function.update_self ..
  · right
    change Function.update _ t _ t = _
    exact Function.update_self ..
  · exact .inl rfl

/-- A running thread runs on until it makes a waiting call itself. -/
theorem Monitor.Step.running {m m' : Monitor ι α} {a : MonitorAction ι α} (hs : m.Step a m')
    {t : ι} (hown : ∀ call, a ≠ .call t call) (ht : m.threads t = .running) :
    m'.threads t = .running := by
  cases hs with
  | @call u call _ =>
    have hne : t ≠ u := by
      rintro rfl
      exact hown call rfl
    rw [m.enter_other call hne]
    exact ht
  | @again u call hawake =>
    have hne : t ≠ u := by
      rintro rfl
      rw [ht] at hawake
      cases hawake
    rw [m.enter_other call hne]
    exact ht
  | @spurious u call hasleep =>
    have hne : t ≠ u := by
      rintro rfl
      rw [ht] at hasleep
      cases hasleep
    exact (Function.update_of_ne hne _ _).trans ht
  | store _ _ => exact ht
  | load _ _ => exact ht
  | endWrite _ _ hsignal => exact hsignal.running ht
  | endRead _ _ hsignal => exact hsignal.running ht
  | interruptRead hsignal => exact hsignal.running ht
  | interruptWrite hsignal => exact hsignal.running ht
  | resumeRead hsignal => exact hsignal.running ht
  | resumeWrite hsignal => exact hsignal.running ht

end Statuses

variable {T : Nat → Type u} {P : Pipeline T}

/-- A stage sleeps, or has just been woken, only inside its own two waiting calls. -/
structure SidesRun (s : PipelineState P) (i : Fin P.stages) : Prop where
  consumer : s.threads i = .beginRead ∨ (s.queues i).threads .consumer = .running
  producer : (∃ src, s.threads i = .beginWrite src) ∨
    (s.queues (i + 1)).threads .producer = .running

/-- Not inside `begin_read`. -/
def StageThread.PastRead {β : Type u} : StageThread β → Prop
  | .beginRead => False
  | _ => True

/-- Not inside `begin_write`. -/
def StageThread.PastWrite {β : Type u} : StageThread β → Prop
  | .beginWrite _ => False
  | _ => True

namespace SidesRun

variable {s : PipelineState P}

private theorem reader_running {i : Fin P.stages} (h : SidesRun s i) {thread : StageThread (T i)}
    (hthread : s.threads i = thread) (hpast : thread.PastRead) :
    (s.queues i).threads .consumer = .running := by
  rcases h.consumer with hread | hrun
  · rw [← hthread, hread] at hpast
    exact hpast.elim
  · exact hrun

private theorem writer_running {i : Fin P.stages} (h : SidesRun s i) {thread : StageThread (T i)}
    (hthread : s.threads i = thread) (hpast : thread.PastWrite) :
    (s.queues (i + 1)).threads .producer = .running := by
  rcases h.producer with ⟨src, hwrite⟩ | hrun
  · rw [← hthread, hwrite] at hpast
    exact hpast.elim
  · exact hrun

private theorem setQueue {i : Fin P.stages} (h : SidesRun s i) {j : Nat} {m : Monitor Side (T j)}
    (hconsumer : (i : Nat) = j → (s.queues j).threads .consumer = .running →
      m.threads .consumer = .running)
    (hproducer : (i : Nat) + 1 = j → (s.queues j).threads .producer = .running →
      m.threads .producer = .running) :
    SidesRun (s.setQueue j m) i := by
  constructor
  · refine h.consumer.imp_right fun hrun => ?_
    change (Function.update s.queues j m i).threads .consumer = .running
    by_cases hij : (i : Nat) = j
    · subst hij
      rw [Function.update_self]
      exact hconsumer rfl hrun
    · rw [Function.update_of_ne hij]
      exact hrun
  · refine h.producer.imp_right fun hrun => ?_
    change (Function.update s.queues j m (i + 1)).threads .producer = .running
    by_cases hij : (i : Nat) + 1 = j
    · subst hij
      rw [Function.update_self]
      exact hproducer rfl hrun
    · rw [Function.update_of_ne hij]
      exact hrun

private theorem setThread_other {i k : Fin P.stages} (h : SidesRun s k) (hne : k ≠ i)
    (thread : StageThread (T i)) : SidesRun (s.setThread i thread) k := by
  have hthread : (s.setThread i thread).threads k = s.threads k :=
    Function.update_of_ne hne _ _
  constructor
  · rw [hthread]
    exact h.consumer
  · rw [hthread]
    exact h.producer

private theorem setThread_self {i : Fin P.stages} {thread : StageThread (T i)}
    (hconsumer : thread = .beginRead ∨ (s.queues i).threads .consumer = .running)
    (hproducer : (∃ src, thread = .beginWrite src) ∨
      (s.queues (i + 1)).threads .producer = .running) :
    SidesRun (s.setThread i thread) i := by
  have hthread : (s.setThread i thread).threads i = thread := Function.update_self ..
  constructor
  · rw [hthread]
    exact hconsumer
  · rw [hthread]
    exact hproducer

private theorem reads (h : ∀ k, SidesRun s k) {i : Fin P.stages} {m : Monitor Side (T i)}
    {thread : StageThread (T i)}
    (hkeep : (s.queues i).threads .producer = .running → m.threads .producer = .running)
    (hconsumer : thread = .beginRead ∨ m.threads .consumer = .running)
    (hproducer : (∃ src, thread = .beginWrite src) ∨
      (s.queues (i + 1)).threads .producer = .running) (k : Fin P.stages) :
    SidesRun ((s.setQueue i m).setThread i thread) k := by
  by_cases hki : k = i
  · subst hki
    refine setThread_self ?_ ?_
    · change _ ∨ (Function.update s.queues k m k).threads .consumer = .running
      rw [Function.update_self]
      exact hconsumer
    · change _ ∨ (Function.update s.queues k m (k + 1)).threads .producer = .running
      rw [Function.update_of_ne (by omega)]
      exact hproducer
  · refine ((h k).setQueue (fun heq => absurd (Fin.ext heq) hki) ?_).setThread_other hki _
    intro _ hrun
    exact hkeep hrun

private theorem writes (h : ∀ k, SidesRun s k) {i : Fin P.stages} {m : Monitor Side (T (i + 1))}
    {thread : StageThread (T i)}
    (hkeep : (s.queues (i + 1)).threads .consumer = .running →
      m.threads .consumer = .running)
    (hconsumer : thread = .beginRead ∨ (s.queues i).threads .consumer = .running)
    (hproducer : (∃ src, thread = .beginWrite src) ∨ m.threads .producer = .running)
    (k : Fin P.stages) : SidesRun ((s.setQueue (i + 1) m).setThread i thread) k := by
  by_cases hki : k = i
  · subst hki
    refine setThread_self ?_ ?_
    · change _ ∨ (Function.update s.queues (k + 1) m k).threads .consumer = .running
      rw [Function.update_of_ne (by omega)]
      exact hconsumer
    · change _ ∨ (Function.update s.queues (k + 1) m (k + 1)).threads .producer = .running
      rw [Function.update_self]
      exact hproducer
  · refine ((h k).setQueue ?_ fun heq => ?_).setThread_other hki _
    · intro _ hrun
      exact hkeep hrun
    · exact absurd (Fin.ext (Nat.add_right_cancel heq)) hki

/-- Every step of every actor leaves the stages' sides awake outside their waiting calls. -/
theorem step (h : ∀ k, SidesRun s k) {actor : Actor P.stages} {t : PipelineState P}
    (hs : s.Step actor t) : ∀ k, SidesRun t k := by
  cases hs with
  | @source a m hmay hstep =>
    refine fun k => (h k).setQueue (fun _ hrun => hstep.running ?_ hrun) fun heq => ?_
    · rintro call rfl
      exact hmay
    · exact absurd heq (Nat.succ_ne_zero _)
  | @sink a m hmay hstep =>
    refine fun k => (h k).setQueue (fun heq => ?_) fun _ hrun => hstep.running ?_ hrun
    · exact absurd heq (Nat.ne_of_lt k.isLt)
    · rintro call rfl
      exact hmay
  | @controller j a m hmay hstep =>
    have hown : ∀ t call, a ≠ .call t call := by
      rintro t call rfl
      exact hmay
    exact fun k => (h k).setQueue (fun _ hrun => hstep.running (hown _) hrun)
      fun _ hrun => hstep.running (hown _) hrun
  | @start i hthread =>
    intro k
    by_cases hki : k = i
    · subst hki
      exact setThread_self (.inl rfl) (.inr ((h k).writer_running hthread trivial))
    · exact (h k).setThread_other hki _
  | @join i hthread =>
    intro k
    by_cases hki : k = i
    · subst hki
      exact setThread_self (.inr ((h k).reader_running hthread trivial))
        (.inr ((h k).writer_running hthread trivial))
    · exact (h k).setThread_other hki _
  | @beginRead i outcome m hthread hready henter =>
    have hother := (s.queues i).enter_other (t := .consumer) (u := .producer)
      (.beginRead (P.processor i).blocksize) (by decide)
    rw [henter] at hother
    refine reads h (fun hrun => hother.trans hrun) ?_
      (.inr ((h i).writer_running hthread trivial))
    have hown := (s.queues i).enter_own .consumer (.beginRead (P.processor i).blocksize)
    rw [henter] at hown
    exact hown.imp_left (by rintro rfl; rfl)
  | @beginWrite i src outcome m hthread hready henter =>
    have hother := (s.queues (i + 1)).enter_other (t := .producer) (u := .consumer)
      (.beginWrite (P.processor i).blocksize) (by decide)
    rw [henter] at hother
    refine writes h (fun hrun => hother.trans hrun)
      (.inr ((h i).reader_running hthread trivial)) ?_
    have hown := (s.queues (i + 1)).enter_own .producer
      (.beginWrite (P.processor i).blocksize)
    rw [henter] at hown
    exact hown.imp_left (by rintro rfl; exact ⟨src, rfl⟩)
  | @load i src dest loaded m hthread hlen hstep =>
    have hrun := fun u => hstep.running (t := u) (by intro call hcall; cases hcall)
    exact reads h (hrun _) (.inr (hrun _ ((h i).reader_running hthread trivial)))
      (.inr ((h i).writer_running hthread trivial))
  | @store i src dest stored loaded v m hthread hlen hlt hv hstep =>
    have hrun := fun u => hstep.running (t := u) (by intro call hcall; cases hcall)
    exact writes h (hrun _) (.inr ((h i).reader_running hthread trivial))
      (.inr (hrun _ ((h i).writer_running hthread trivial)))
  | @endWrite i src dest loaded m hthread hstep =>
    have hrun := fun u => hstep.running (t := u) (by intro call hcall; cases hcall)
    exact writes h (hrun _) (.inr ((h i).reader_running hthread trivial))
      (.inr (hrun _ ((h i).writer_running hthread trivial)))
  | @endRead i m hthread hstep =>
    have hrun := fun u => hstep.running (t := u) (by intro call hcall; cases hcall)
    exact reads h (hrun _) (.inr (hrun _ ((h i).reader_running hthread trivial)))
      (.inr ((h i).writer_running hthread trivial))

end SidesRun

private theorem Pipeline.sidesRun {s : PipelineState P} (h : P.system.Reachable s) :
    ∀ i, SidesRun s i := by
  apply h.invariant (I := fun s => ∀ i, SidesRun s i)
  · rintro s ⟨memory, rfl⟩ i
    exact ⟨.inr rfl, .inr rfl⟩
  · intro s a t hinv hs
    exact SidesRun.step hinv hs

variable {β γ : Type u}

/-- Where the thread stands `n` steps after its loop head, with `done` blocks ended in the
output, if the input held `held` blocks and the output had room for `room`. -/
def StepsTaken (b held room n done : Nat) : StageThread β → Prop
  | .joined => False
  | .beginRead => done ≤ min held room ∧ n = done * (2 * b + 4)
  | .beginWrite _ => done ≤ room ∧ done < held ∧ n = done * (2 * b + 4) + 1
  | .processBlock _ _ loaded stored =>
      done < min held room ∧ n = done * (2 * b + 4) + 2 + loaded.length + stored
  | .endRead => done ≤ min held room ∧ n + 1 = done * (2 * b + 4)
  | .exited => done = min held room ∧ n ≤ done * (2 * b + 4) + 2

/-- A stage on its way out, between the input `m` and the output `w`. At its loop head their
states were `p` and `q`. -/
structure Winding (processor : StaticProcessor β γ) (p : PeerState β) (q : PeerState γ)
    (m : Monitor Side β) (w : Monitor Side γ) (thread : StageThread β) (n done : Nat) :
    Prop where
  readFlag : m.scheduler.interrupted .notEmpty = true
  writeFlag : w.scheduler.interrupted .notFull = true
  reader : m.threads .consumer = .running ∨
    m.threads .consumer = .awake (.beginRead processor.blocksize)
  writer : w.threads .producer = .running
  committed : m.peers.committed = p.committed
  released : w.peers.released = q.released
  mEnd : w.peers.queue.mEnd = q.queue.mEnd
  ended : w.peers.committed.length = q.committed.length + done * processor.blocksize
  taken : StepsTaken processor.blocksize (p.queue.size / processor.blocksize)
    (q.queue.available / processor.blocksize) n done thread

private theorem Monitor.enter_flagged {ι α : Type*} [DecidableEq ι] {m m' : Monitor ι α} {t : ι}
    {call : Call} {outcome : Outcome} (hflag : m.scheduler.interrupted call.condition = true)
    (henter : m.enter t call = (outcome, m')) :
    m'.scheduler = m.scheduler ∧ m'.threads t = .running ∧
      (outcome = .returned ∧ m.attempt call = some m'.peers ∨
        outcome = .interrupted ∧ call.Waits m.peers.queue ∧ m'.peers = m.peers) := by
  rcases m.enter_cases t call with ⟨p, hp, heq⟩ | ⟨hnone, -, heq⟩ | ⟨-, hclear, -⟩
  · rw [henter] at heq
    obtain ⟨rfl, rfl⟩ := Prod.mk.inj heq
    exact ⟨rfl, Function.update_self (f := m.threads) .., .inl ⟨rfl, hp⟩⟩
  · rw [henter] at heq
    obtain ⟨rfl, rfl⟩ := Prod.mk.inj heq
    exact ⟨rfl, Function.update_self (f := m.threads) ..,
      .inr ⟨rfl, (m.attempt_eq_none call).mp hnone, rfl⟩⟩
  · rw [hflag] at hclear
    cases hclear

private theorem lt_div_iff_block_left {b left done total : Nat} (hb : 0 < b)
    (h : left + done * b = total) : done < total / b ↔ b ≤ left := by
  rw [Nat.lt_iff_add_one_le, Nat.le_div_iff_mul_le hb, Nat.succ_mul]
  omega

theorem PeerInv.committed_length {α : Type*} {p : PeerState α} (h : PeerInv p) :
    p.committed.length = p.released.length + p.queue.size := by
  rw [h.fifo, List.length_append, FixedMemoryQueue.content_length]
  rfl

theorem PeerInv.available_add_size {α : Type*} {p : PeerState α} (h : PeerInv p) :
    p.queue.available + p.queue.size = p.queue.mEnd :=
  Nat.sub_add_cancel h.wellFormed.size_le

private theorem StageInv.ended_length {processor : StaticProcessor β γ} {p : PeerState β}
    {q : PeerState γ} {thread : StageThread β} (h : StageInv processor p q thread)
    (hnone : pendingImage processor.blocksize processor.processBlock p thread = []) :
    q.committed.length = p.released.length := by
  rw [h.delivered, hnone, List.append_nil,
    blockwise_length processor.processBlock_length h.released_dvd]

namespace Winding

variable {processor : StaticProcessor β γ} {p : PeerState β} {q : PeerState γ}
  {m m' : Monitor Side β} {w w' : Monitor Side γ} {thread : StageThread β} {n done : Nat}

private theorem size (h : Winding processor p q m w thread n done) (hp : PeerInv p)
    (hstart : StageInv processor p q .beginRead) (hm : PeerInv m.peers)
    (hstage : StageInv processor m.peers w.peers thread)
    (hnone : pendingImage processor.blocksize processor.processBlock m.peers thread = []) :
    m.peers.queue.size + done * processor.blocksize = p.queue.size := by
  have hnow := hm.committed_length
  have hthen := hp.committed_length
  rw [h.committed, ← hstage.ended_length hnone, h.ended] at hnow
  rw [← hstart.ended_length rfl] at hthen
  omega

private theorem available (h : Winding processor p q m w thread n done) (hq : PeerInv q)
    (hw : PeerInv w.peers) :
    w.peers.queue.available + done * processor.blocksize = q.queue.available := by
  have hnow := hw.committed_length
  have hthen := hq.committed_length
  have hroom := hw.available_add_size
  have hfirst := hq.available_add_size
  rw [h.released, h.ended] at hnow
  rw [h.mEnd] at hroom
  omega

/-- `begin_read` returns while a whole block is left, and throws afterwards. -/
theorem beginRead (h : Winding processor p q m w .beginRead n done) (hp : PeerInv p)
    (hstart : StageInv processor p q .beginRead) (hm : PeerInv m.peers)
    (hstage : StageInv processor m.peers w.peers .beginRead) {outcome : Outcome}
    (henter : m.enter .consumer (.beginRead processor.blocksize) = (outcome, m')) :
    Winding processor p q m' w (.afterBeginRead m'.peers.read.buffer outcome) (n + 1) done := by
  obtain ⟨hdone, hn⟩ := h.taken
  have hsize := h.size hp hstart hm hstage rfl
  obtain ⟨hscheduler, hrun, ⟨rfl, hattempt⟩ | ⟨rfl, hwaits, hpeers⟩⟩ :=
    Monitor.enter_flagged h.readFlag henter
  · obtain ⟨⟨buffer, count⟩, hgrant, hpeers⟩ := Option.map_eq_some_iff.mp hattempt
    obtain ⟨hblock, -, -⟩ := FixedMemoryQueue.beginRead_eq_some.mp hgrant
    change processor.blocksize ≤ m.peers.queue.size at hblock
    have hlt := (lt_div_iff_block_left processor.blocksize_pos hsize).mpr hblock
    exact { h with
      readFlag := by rw [hscheduler]; exact h.readFlag
      reader := .inl hrun
      committed := by rw [← hpeers]; exact h.committed
      taken := ⟨hdone.trans (min_le_right _ _), hlt, by omega⟩ }
  · change m.peers.queue.size < processor.blocksize at hwaits
    have hle := Nat.le_of_not_lt (mt (lt_div_iff_block_left processor.blocksize_pos hsize).mp
      (Nat.not_le_of_lt hwaits))
    exact { h with
      readFlag := by rw [hscheduler]; exact h.readFlag
      reader := .inl hrun
      committed := by rw [hpeers]; exact h.committed
      taken := ⟨hdone.antisymm ((min_le_left _ _).trans hle), by omega⟩ }

/-- `begin_write` returns while there is room for a whole block, and throws afterwards: the
block taken from the input stays there. -/
theorem beginWrite {src : Nat} (h : Winding processor p q m w (.beginWrite src) n done)
    (hq : PeerInv q) (hw : PeerInv w.peers) {outcome : Outcome}
    (henter : w.enter .producer (.beginWrite processor.blocksize) = (outcome, w')) :
    Winding processor p q m w' (.afterBeginWrite src w'.peers.write.buffer outcome) (n + 1)
      done := by
  obtain ⟨hroom, hheld, hn⟩ := h.taken
  have havailable := h.available hq hw
  obtain ⟨hscheduler, hrun, ⟨rfl, hattempt⟩ | ⟨rfl, hwaits, hpeers⟩⟩ :=
    Monitor.enter_flagged h.writeFlag henter
  · obtain ⟨⟨buffer, count⟩, hgrant, hpeers⟩ := Option.map_eq_some_iff.mp hattempt
    obtain ⟨hblock, -, -⟩ := FixedMemoryQueue.beginWrite_eq_some.mp hgrant
    have hlt := (lt_div_iff_block_left processor.blocksize_pos havailable).mpr hblock
    exact { h with
      writeFlag := by rw [hscheduler]; exact h.writeFlag
      writer := hrun
      released := by rw [← hpeers]; exact h.released
      mEnd := by rw [← hpeers]; exact h.mEnd
      ended := by rw [← hpeers]; exact h.ended
      taken := ⟨lt_min hheld hlt, by simp only [List.length_nil]; omega⟩ }
  · change w.peers.queue.available < processor.blocksize at hwaits
    have hle := Nat.le_of_not_lt (mt (lt_div_iff_block_left processor.blocksize_pos
      havailable).mp (Nat.not_le_of_lt hwaits))
    exact { h with
      writeFlag := by rw [hscheduler]; exact h.writeFlag
      writer := hrun
      released := by rw [hpeers]; exact h.released
      mEnd := by rw [hpeers]; exact h.mEnd
      ended := by rw [hpeers]; exact h.ended
      taken := ⟨(le_min hheld.le hroom).antisymm ((min_le_right _ _).trans hle), by omega⟩ }

private theorem load {src dest : Nat} {loaded : List β} {v : β}
    (h : Winding processor p q m w (.processBlock src dest loaded 0) n done)
    (hs : m.Step (.load .consumer loaded.length) m') :
    Winding processor p q m' w (.processBlock src dest (loaded ++ [v]) 0) (n + 1) done := by
  obtain ⟨hdone, hn⟩ := h.taken
  cases hs with
  | load hrun hp' =>
    obtain rfl := Option.some.inj hp'
    exact { h with
      reader := .inl hrun
      committed := h.committed
      taken := ⟨hdone, by rw [List.length_append, List.length_singleton]; omega⟩ }

private theorem store {src dest stored : Nat} {loaded : List β} {v : γ}
    (h : Winding processor p q m w (.processBlock src dest loaded stored) n done)
    (hs : w.Step (.store .producer stored v) w') :
    Winding processor p q m w' (.processBlock src dest loaded (stored + 1)) (n + 1) done := by
  obtain ⟨hdone, hn⟩ := h.taken
  cases hs with
  | store hrun hp' =>
    obtain rfl := Option.some.inj hp'
    exact { h with
      writer := hrun
      released := h.released
      mEnd := h.mEnd
      ended := h.ended
      taken := ⟨hdone, by omega⟩ }

private theorem endWrite {src dest : Nat} {loaded : List β}
    (h : Winding processor p q m w (.processBlock src dest loaded processor.blocksize) n done)
    (hlen : loaded.length = processor.blocksize)
    (hs : w.Step (.endWrite .producer processor.blocksize) w') :
    Winding processor p q m w' .endRead (n + 1) (done + 1) := by
  obtain ⟨hdone, hn⟩ := h.taken
  cases hs with
  | endWrite hrun hp' hsignal =>
    obtain rfl := Option.some.inj hp'
    exact { h with
      writer := hsignal.running hrun
      released := h.released
      mEnd := h.mEnd
      ended := by
        change (w.peers.committed ++ CyclicBuffer.straight _ _ _).length = _
        rw [List.length_append, CyclicBuffer.straight_length, h.ended, Nat.succ_mul]
        omega
      taken := ⟨hdone, by rw [Nat.succ_mul]; omega⟩ }

private theorem endRead (h : Winding processor p q m w .endRead n done)
    (hs : m.Step (.endRead .consumer processor.blocksize) m') :
    Winding processor p q m' w .beginRead (n + 1) done := by
  obtain ⟨hdone, hn⟩ := h.taken
  cases hs with
  | endRead hrun hp' hsignal =>
    obtain rfl := Option.some.inj hp'
    exact { h with
      reader := .inl (hsignal.running hrun)
      committed := h.committed
      taken := ⟨hdone, hn⟩ }

private theorem steps_le (h : Winding processor p q m w thread n done)
    (hstage : StageInv processor m.peers w.peers thread) :
    n ≤ min (p.queue.size / processor.blocksize) (q.queue.available / processor.blocksize) *
      (2 * processor.blocksize + 4) + 2 := by
  have hplace := h.taken
  have hmono {k : Nat} (hk : k ≤ min (p.queue.size / processor.blocksize)
      (q.queue.available / processor.blocksize)) :=
    Nat.mul_le_mul_right (2 * processor.blocksize + 4) hk
  cases thread with
  | joined => exact hplace.elim
  | beginRead =>
    obtain ⟨hdone, hn⟩ := hplace
    have := hmono hdone
    omega
  | beginWrite src =>
    obtain ⟨hroom, hheld, hn⟩ := hplace
    have := hmono (le_min hheld.le hroom)
    omega
  | processBlock src dest loaded stored =>
    obtain ⟨hdone, hn⟩ := hplace
    obtain ⟨-, -, hloaded, -⟩ := hstage.reader
    obtain ⟨-, -, hstored, -⟩ := hstage.writer
    have := hmono (Nat.succ_le_of_lt hdone)
    rw [Nat.succ_mul] at this
    omega
  | endRead =>
    obtain ⟨hdone, hn⟩ := hplace
    have := hmono hdone
    omega
  | exited =>
    obtain ⟨rfl, hn⟩ := hplace
    exact hn

private theorem left_input (h : Winding processor p q m w .exited n done) (hp : PeerInv p)
    (hstart : StageInv processor p q .beginRead) (hm : PeerInv m.peers)
    (hstage : StageInv processor m.peers w.peers .exited) :
    m.peers.released = p.released ++ p.queue.content.take (done * processor.blocksize) ∧
      m.peers.queue.content = p.queue.content.drop (done * processor.blocksize) := by
  have hlen : m.peers.released.length = p.released.length + done * processor.blocksize := by
    rw [← hstage.ended_length rfl, h.ended, hstart.ended_length rfl]
  have hall : p.released ++ p.queue.content = m.peers.released ++ m.peers.queue.content := by
    rw [← hm.fifo, h.committed, hp.fifo]
  constructor
  · have htake := congrArg (List.take m.peers.released.length) hall
    rw [List.take_left, hlen, List.take_length_add_append] at htake
    exact htake.symm
  · have hdrop := congrArg (List.drop m.peers.released.length) hall
    rw [List.drop_left, hlen, List.drop_length_add_append] at hdrop
    exact hdrop.symm

private theorem left_output (h : Winding processor p q m w .exited n done) (hp : PeerInv p)
    (hq : PeerInv q) (hstart : StageInv processor p q .beginRead) (hm : PeerInv m.peers)
    (hw : PeerInv w.peers) (hstage : StageInv processor m.peers w.peers .exited) :
    w.peers.queue.content = q.queue.content ++ blockwise processor.blocksize
      processor.processBlock (p.queue.content.take (done * processor.blocksize)) := by
  have hthen : q.committed = blockwise processor.blocksize processor.processBlock p.released :=
    hstart.delivered.trans (List.append_nil _)
  have hnow : w.peers.committed =
      blockwise processor.blocksize processor.processBlock m.peers.released :=
    hstage.delivered.trans (List.append_nil _)
  rw [(h.left_input hp hstart hm hstage).1,
    blockwise_append processor.blocksize_pos _ hstart.released_dvd, ← hthen, hw.fifo, hq.fifo,
    h.released, List.append_assoc] at hnow
  exact List.append_cancel_left hnow

end Winding

namespace PipelineState

variable {P : Pipeline T}

/-- `n` steps of stage `i`, while no other thread touches its queues. -/
def Alone (s : PipelineState P) (i : Fin P.stages) (n : Nat) (t : PipelineState P) : Prop :=
  P.system.Run s (List.replicate n (.stage i)) t

/-- The blocks that stage `i` can still take and end without waiting. -/
def blocksLeft (s : PipelineState P) (i : Fin P.stages) : Nat :=
  min ((s.queues i).peers.queue.size / (P.processor i).blocksize)
    ((s.queues (i + 1)).peers.queue.available / (P.processor i).blocksize)

/-- Left alone, stage `i` does exactly `k` more blocks and leaves `process`. -/
structure StopsAfter (s : PipelineState P) (i : Fin P.stages) (k : Nat) : Prop where
  stops : ∃ n t, s.Alone i n t ∧ t.threads i = .exited
  steps : ∀ n t, s.Alone i n t → n ≤ k * (2 * (P.processor i).blocksize + 4) + 2
  goesOn : ∀ n t, s.Alone i n t → t.threads i = .exited ∨ ∃ u, t.Step (.stage i) u
  awake : ∀ n t, s.Alone i n t → ∀ call, (t.queues i).threads .consumer ≠ .asleep call ∧
    (t.queues (i + 1)).threads .producer ≠ .asleep call
  input : ∀ n t, s.Alone i n t → t.threads i = .exited →
    (t.queues i).peers.queue.content =
      (s.queues i).peers.queue.content.drop (k * (P.processor i).blocksize)
  output : ∀ n t, s.Alone i n t → t.threads i = .exited →
    (t.queues (i + 1)).peers.queue.content = (s.queues (i + 1)).peers.queue.content ++
      blockwise (P.processor i).blocksize (P.processor i).processBlock
        ((s.queues i).peers.queue.content.take (k * (P.processor i).blocksize))

end PipelineState

theorem Signal.exists {ι : Type*} [DecidableEq ι] (c : Condition) (threads : ι → ThreadStatus) :
    ∃ threads', Signal c threads threads' := by
  by_cases h : ∃ t call, threads t = .asleep call ∧ call.condition = c
  · obtain ⟨t, call, hasleep, hc⟩ := h
    exact ⟨_, .wake hasleep hc⟩
  · exact ⟨threads, .nobody fun t call hasleep hc => h ⟨t, call, hasleep, hc⟩⟩

section Alone

variable {s t u : PipelineState P} {i : Fin P.stages} {n : Nat}

/-- Stage `i` has taken `n` steps since its loop head in `s`. -/
def WindingFrom (s : PipelineState P) (i : Fin P.stages) (n : Nat) (t : PipelineState P) :
    Prop :=
  ∃ done, Winding (P.processor i) (s.queues i).peers (s.queues (i + 1)).peers (t.queues i)
    (t.queues (i + 1)) (t.threads i) n done

private theorem WindingFrom.start (hthread : s.threads i = .beginRead)
    (hready : Ready (s.queues i) .consumer (.beginRead (P.processor i).blocksize))
    (hside : SidesRun s i)
    (hread : (s.queues i).scheduler.interrupted .notEmpty = true)
    (hwrite : (s.queues (i + 1)).scheduler.interrupted .notFull = true) :
    WindingFrom s i 0 s :=
  ⟨0, {
    readFlag := hread
    writeFlag := hwrite
    reader := hready
    writer := hside.writer_running hthread trivial
    committed := rfl
    released := rfl
    mEnd := rfl
    ended := by rw [Nat.zero_mul]; rfl
    taken := by
      rw [hthread]
      exact ⟨Nat.zero_le _, (Nat.zero_mul _).symm⟩ }⟩

private theorem WindingFrom.of_reads {m : Monitor Side (T i)} {thread : StageThread (T i)}
    {done : Nat}
    (h : Winding (P.processor i) (s.queues i).peers (s.queues (i + 1)).peers m
      (t.queues (i + 1)) thread n done) :
    WindingFrom s i n ((t.setQueue i m).setThread i thread) := by
  refine ⟨done, ?_⟩
  change Winding _ _ _ (Function.update t.queues i m i)
    (Function.update t.queues i m (i + 1)) (Function.update t.threads i thread i) _ _
  rw [Function.update_self, Function.update_self, Function.update_of_ne (by omega)]
  exact h

private theorem WindingFrom.of_writes {w : Monitor Side (T (i + 1))} {thread : StageThread (T i)}
    {done : Nat}
    (h : Winding (P.processor i) (s.queues i).peers (s.queues (i + 1)).peers (t.queues i) w
      thread n done) :
    WindingFrom s i n ((t.setQueue (i + 1) w).setThread i thread) := by
  refine ⟨done, ?_⟩
  change Winding _ _ _ (Function.update t.queues (i + 1) w i)
    (Function.update t.queues (i + 1) w (i + 1)) (Function.update t.threads i thread i) _ _
  rw [Function.update_self, Function.update_self, Function.update_of_ne (by omega)]
  exact h

/-- The stage's own step winds it down further. -/
theorem WindingFrom.step (h : WindingFrom s i n t) (hs : PipelineInv s)
    (hthread : s.threads i = .beginRead) (ht : PipelineInv t) (hstep : t.Step (.stage i) u) :
    WindingFrom s i (n + 1) u := by
  obtain ⟨done, h⟩ := h
  have hstart := hs.stage i
  rw [hthread] at hstart
  have hstage := ht.stage i
  cases hstep with
  | beginRead hplace _ henter =>
    rw [hplace] at h hstage
    exact .of_reads (h.beginRead (hs.queue i).peers hstart (ht.queue i).peers hstage henter)
  | beginWrite hplace _ henter =>
    rw [hplace] at h
    exact .of_writes (h.beginWrite (hs.queue (i + 1)).peers (ht.queue (i + 1)).peers henter)
  | load hplace _ hmove =>
    rw [hplace] at h
    exact .of_reads (h.load hmove)
  | store hplace _ _ _ hmove =>
    rw [hplace] at h
    exact .of_writes (h.store hmove)
  | endWrite hplace hmove =>
    rw [hplace] at h hstage
    obtain ⟨-, -, -, hfull, -⟩ := hstage.writer
    exact .of_writes (h.endWrite (hfull (P.processor i).blocksize_pos) hmove)
  | endRead hplace hmove =>
    rw [hplace] at h
    exact .of_reads (h.endRead hmove)

/-- Until it has left, the stage can take its next step: it never waits for another thread. -/
theorem WindingFrom.goesOn (h : WindingFrom s i n t) (ht : PipelineInv t)
    (hside : SidesRun t i) : t.threads i = .exited ∨ ∃ u, t.Step (.stage i) u := by
  obtain ⟨done, h⟩ := h
  have hstage := ht.stage i
  cases hplace : t.threads i with
  | joined =>
    rw [hplace] at h
    exact h.taken.elim
  | exited => exact .inl rfl
  | beginRead => exact .inr ⟨_, .beginRead hplace h.reader rfl⟩
  | beginWrite src => exact .inr ⟨_, .beginWrite hplace (.inl h.writer) rfl⟩
  | processBlock src dest loaded stored =>
    rw [hplace] at hstage
    obtain ⟨-, -, hloaded, -⟩ := hstage.reader
    obtain ⟨-, -, hstored, hfull, -⟩ := hstage.writer
    rcases Nat.lt_or_eq_of_le hloaded with hlt | heq
    · -- the block function is still reading its block
      obtain rfl : stored = 0 := by
        by_contra hne
        exact absurd (hfull (Nat.pos_of_ne_zero hne)) (Nat.ne_of_lt hlt)
      exact .inr ⟨_, .load hplace hlt (.load (hside.reader_running hplace trivial) rfl)⟩
    · rcases Nat.lt_or_eq_of_le hstored with hlt | rfl
      · -- it is writing the image
        have hv : stored < ((P.processor i).processBlock loaded).length := by
          rw [(P.processor i).processBlock_length loaded heq]
          exact hlt
        exact .inr ⟨_, .store hplace heq hlt (List.getElem?_eq_getElem hv)
          (.store h.writer rfl)⟩
      · obtain ⟨threads, hsignal⟩ := Signal.exists .notEmpty (t.queues (i + 1)).threads
        exact .inr ⟨_, .endWrite hplace (.endWrite h.writer rfl hsignal)⟩
  | endRead =>
    obtain ⟨threads, hsignal⟩ := Signal.exists .notFull (t.queues i).threads
    exact .inr ⟨_, .endRead hplace (.endRead (hside.reader_running hplace trivial) rfl hsignal)⟩

private theorem WindingFrom.alone (hs : PipelineInv s) (hthread : s.threads i = .beginRead)
    (h : WindingFrom s i n t) (ht : P.system.Reachable t) {k : Nat} (hrun : t.Alone i k u) :
    WindingFrom s i (n + k) u := by
  induction k generalizing n t with
  | zero =>
    cases hrun
    exact h
  | succ k ih =>
    cases hrun with
    | cons hstep hrun =>
      have hnext := ih (h.step hs hthread (Pipeline.invariant ht) hstep) (ht.step hstep) hrun
      rwa [Nat.add_assoc, Nat.add_comm 1 k] at hnext

end Alone

/-- A stage at its loop head whose flags are both set does exactly the blocks that its input
holds and its output has room for, and then leaves with the exception. It never sleeps, the rest
of the input stays queued, and the images are appended to the output. -/
theorem stage_stops_interrupted (P : Pipeline T) (s : PipelineState P)
    (hreach : P.system.Reachable s) (i : Fin P.stages) (hthread : s.threads i = .beginRead)
    (hready : Ready (s.queues i) .consumer (.beginRead (P.processor i).blocksize))
    (hread : (s.queues i).scheduler.interrupted .notEmpty = true)
    (hwrite : (s.queues (i + 1)).scheduler.interrupted .notFull = true) :
    s.StopsAfter i (s.blocksLeft i) := by
  have hs := Pipeline.invariant hreach
  have hstart := hs.stage i
  rw [hthread] at hstart
  have hfirst := WindingFrom.start hthread hready (Pipeline.sidesRun hreach i) hread hwrite
  have hwinding : ∀ n t, s.Alone i n t → WindingFrom s i n t := by
    intro n t hrun
    have h := hfirst.alone hs hthread hreach hrun
    rwa [Nat.zero_add] at h
  have hsteps : ∀ n t, s.Alone i n t →
      n ≤ s.blocksLeft i * (2 * (P.processor i).blocksize + 4) + 2 := by
    intro n t hrun
    obtain ⟨done, h⟩ := hwinding n t hrun
    exact h.steps_le ((Pipeline.invariant (hreach.run hrun)).stage i)
  have hgoesOn : ∀ n t, s.Alone i n t → t.threads i = .exited ∨ ∃ u, t.Step (.stage i) u :=
    fun n t hrun => (hwinding n t hrun).goesOn (Pipeline.invariant (hreach.run hrun))
      (Pipeline.sidesRun (hreach.run hrun) i)
  have hleft : ∀ n t, s.Alone i n t → t.threads i = .exited →
      Winding (P.processor i) (s.queues i).peers (s.queues (i + 1)).peers (t.queues i)
        (t.queues (i + 1)) .exited n (s.blocksLeft i) := by
    intro n t hrun hexit
    obtain ⟨done, h⟩ := hwinding n t hrun
    rw [hexit] at h
    obtain rfl := h.taken.1
    exact h
  refine ⟨TransitionSystem.Run.exists_of_bounded hgoesOn hsteps, hsteps, hgoesOn, ?_, ?_, ?_⟩
  · intro n t hrun call
    obtain ⟨done, h⟩ := hwinding n t hrun
    constructor
    · intro hasleep
      rcases h.reader with hrunning | hawake
      · rw [hrunning] at hasleep
        cases hasleep
      · rw [hawake] at hasleep
        cases hasleep
    · intro hasleep
      rw [h.writer] at hasleep
      cases hasleep
  · intro n t hrun hexit
    have ht := Pipeline.invariant (hreach.run hrun)
    have hstage := ht.stage i
    rw [hexit] at hstage
    exact ((hleft n t hrun hexit).left_input (hs.queue i).peers hstart (ht.queue i).peers
      hstage).2
  · intro n t hrun hexit
    have ht := Pipeline.invariant (hreach.run hrun)
    have hstage := ht.stage i
    rw [hexit] at hstage
    exact (hleft n t hrun hexit).left_output (hs.queue i).peers (hs.queue (i + 1)).peers hstart
      (ht.queue i).peers (ht.queue (i + 1)).peers hstage

/-- Interrupted with one element in front of it, an `AddFive` stage adds five to it and leaves. -/
theorem stage_stops_interrupted_addFive :
    ∃ s : PipelineState addFivePipeline, (s.queues 0).peers.queue.content = [(60 : Nat)] ∧
      s.StopsAfter addFiveStage 1 := by
  have hstart : addFivePipeline.system.Reachable (addFivePipeline.start fun _ _ => (0 : Nat)) :=
    .init ⟨_, rfl⟩
  have hthread := hstart.step (.start (i := addFiveStage) rfl)
  have hroom := hthread.step (.source (a := .call .producer (.beginWrite 1)) trivial (.call rfl))
  have hstored := hroom.step (.source (a := .store .producer 0 (60 : Nat))
    (show 0 ≤ 0 ∧ 0 < 2 by decide) (.store rfl rfl))
  have hpushed := hstored.step (.source (a := .endWrite .producer 1)
    (show 0 + 1 ≤ 2 by decide)
    (.endWrite rfl rfl (.nobody (by intro t call h; cases t <;> cases h))))
  have hread := hpushed.step (.controller (i := 0) (a := .interruptRead) trivial
    (.interruptRead (.nobody (by intro t call h; cases t <;> cases h))))
  have hwrite := hread.step (.controller (i := 1) (a := .interruptWrite) trivial
    (.interruptWrite (.nobody (by intro t call h; cases t <;> cases h))))
  exact ⟨_, rfl, stage_stops_interrupted addFivePipeline _ hwrite addFiveStage rfl (.inl rfl)
    rfl rfl⟩

end Dyplo
