import Mathlib.Algebra.Order.BigOperators.Group.Finset
import Dyplo.Process.PendingCalls

/-!
# The loop of a stage, step by step

`StaticProcessor::process` between two queues, whoever else uses them. A thread in its loop can
go on, unless it sleeps in one of its queues with reason; every element of its input takes it a
bounded number of steps, and a step that puts it to sleep takes one from the threads that are up.
-/

universe u

namespace Dyplo

section Stage

variable {ι : Type*} [DecidableEq ι] {β γ : Type u} {producer consumer : ι}
  {processor : StaticProcessor β γ} {thread thread' : StageThread β} {m m' : Monitor ι β}
  {w w' : Monitor ι γ}

/-- One step of `StaticProcessor::process` between its input and its output, which the thread
uses as `consumer` and as `producer`. -/
inductive StageThread.Step (producer consumer : ι) (processor : StaticProcessor β γ) :
    StageThread β → Monitor ι β → Monitor ι γ → StageThread β → Monitor ι β → Monitor ι γ → Prop
  | beginRead {m m' : Monitor ι β} {w : Monitor ι γ} {outcome : Outcome} :
      m.Ready consumer (.beginRead processor.blocksize) →
      m.enter consumer (.beginRead processor.blocksize) = (outcome, m') →
      Step producer consumer processor .beginRead m w
        (.afterBeginRead m'.peers.read.buffer outcome) m' w
  | beginWrite {src : Nat} {m : Monitor ι β} {w w' : Monitor ι γ} {outcome : Outcome} :
      w.Ready producer (.beginWrite processor.blocksize) →
      w.enter producer (.beginWrite processor.blocksize) = (outcome, w') →
      Step producer consumer processor (.beginWrite src) m w
        (.afterBeginWrite src w'.peers.write.buffer outcome) m w'
  | load {src dest : Nat} {loaded : List β} {m m' : Monitor ι β} {w : Monitor ι γ} :
      loaded.length < processor.blocksize → m.Step (.load consumer loaded.length) m' →
      Step producer consumer processor (.processBlock src dest loaded 0) m w
        (.processBlock src dest (loaded ++ [m.peers.queue.mBuff (src + loaded.length)]) 0) m' w
  | store {src dest stored : Nat} {loaded : List β} {v : γ} {m : Monitor ι β}
      {w w' : Monitor ι γ} :
      loaded.length = processor.blocksize → stored < processor.blocksize →
      (processor.processBlock loaded)[stored]? = some v →
      w.Step (.store producer stored v) w' →
      Step producer consumer processor (.processBlock src dest loaded stored) m w
        (.processBlock src dest loaded (stored + 1)) m w'
  | endWrite {src dest : Nat} {loaded : List β} {m : Monitor ι β} {w w' : Monitor ι γ} :
      w.Step (.endWrite producer processor.blocksize) w' →
      Step producer consumer processor (.processBlock src dest loaded processor.blocksize) m w
        .endRead m w'
  | endRead {m m' : Monitor ι β} {w : Monitor ι γ} :
      m.Step (.endRead consumer processor.blocksize) m' →
      Step producer consumer processor .endRead m w .beginRead m' w

/-- The call of its input that the thread of a stage is inside of. -/
def StageThread.reading (b : Nat) : StageThread β → Option Nat
  | .beginRead => some b
  | _ => none

/-- The call of its output that the thread of a stage is inside of. -/
def StageThread.writing (b : Nat) : StageThread β → Option Nat
  | .beginWrite _ => some b
  | _ => none

/-- What a step of a stage does to its two queues. -/
structure StageMoves (processor : StaticProcessor β γ) (p p' : PeerState β) (q q' : PeerState γ)
    (thread' : StageThread β) : Prop where
  input : PeerInv p'
  output : PeerInv q'
  reads : ConsumerMoves p p'
  writes : ProducerMoves q q'
  stage : StageInv processor p' q' thread'

theorem StageThread.Step.moves
    (hs : thread.Step producer consumer processor m w thread' m' w')
    (hstage : StageInv processor m.peers w.peers thread) (hm : PeerInv m.peers)
    (hw : PeerInv w.peers) (hin : processor.blocksize ∣ m.peers.queue.mEnd)
    (hout : processor.blocksize ∣ w.peers.queue.mEnd) :
    StageMoves processor m.peers m'.peers w.peers w'.peers thread' := by
  cases hs with
  | beginRead _ henter =>
    obtain ⟨-, -, ⟨rfl, hp, -⟩ | ⟨rfl, hp, -⟩ | ⟨rfl, hp, -⟩⟩ := Monitor.enter_spec henter
    · exact ⟨hm.beginRead hp, hw, PeerInv.beginRead_moves hp, .refl _,
        hstage.beginRead hm hin hp⟩
    · rw [hp]
      exact ⟨hm, hw, .refl _, .refl _, hstage.idle rfl (.inr (.inl rfl))⟩
    · rw [hp]
      exact ⟨hm, hw, .refl _, .refl _, hstage⟩
  | beginWrite _ henter =>
    obtain ⟨-, -, ⟨rfl, hp, -⟩ | ⟨rfl, hp, -⟩ | ⟨rfl, hp, -⟩⟩ := Monitor.enter_spec henter
    · exact ⟨hm, hw.beginWrite hp, .refl _, PeerInv.beginWrite_moves hp,
        hstage.beginWrite hw hout hp⟩
    · rw [hp]
      exact ⟨hm, hw, .refl _, .refl _, hstage.idle rfl (.inr (.inl rfl))⟩
    · rw [hp]
      exact ⟨hm, hw, .refl _, .refl _, hstage⟩
  | load hlen hstep =>
    have hg := hstage.reader.load_within hlen
    cases hstep with
    | load _ hp =>
      exact ⟨hm.load hg hp, hw, PeerInv.load_moves hp, .refl _, hstage.load hm hlen hp⟩
  | @store src dest stored loaded v _ _ _ hlen hlt hv hstep =>
    have hg := hstage.store_within (v := v) hlt
    cases hstep with
    | store _ hp =>
      exact ⟨hm, hw.store hg hp, .refl _, hw.store_moves hg hp, hstage.store hw hlen hlt hv hp⟩
  | endWrite hstep =>
    have hg := hstage.endWrite_within
    cases hstep with
    | endWrite _ hp _ =>
      exact ⟨hm, hw.endWrite hg hp, .refl _, hw.endWrite_moves hg hp, hstage.endWrite hp⟩
  | endRead hstep =>
    have hg := hstage.reader.endRead_within
    cases hstep with
    | endRead _ hp _ =>
      exact ⟨hm.endRead hg hp, hw, PeerInv.endRead_moves hp, .refl _, hstage.endRead hm hp⟩

end Stage

namespace PipelineState

variable {T : Nat → Type u} {P : Pipeline T} {s t : PipelineState P}

private theorem setQueue_input_only (s : PipelineState P) (i : Nat) (m : Monitor Side (T i)) :
    (s.setQueue i m).setQueue (i + 1) (s.queues (i + 1)) = s.setQueue i m := by
  have hkeep : s.queues (i + 1) = (s.setQueue i m).queues (i + 1) :=
    (Function.update_of_ne (Nat.succ_ne_self _) _ _).symm
  rw [hkeep, setQueue, Function.update_eq_self]

private theorem setQueue_output_only (s : PipelineState P) (i : Nat)
    (w : Monitor Side (T (i + 1))) :
    (s.setQueue i (s.queues i)).setQueue (i + 1) w = s.setQueue (i + 1) w := by
  rw [setQueue, setQueue, Function.update_eq_self]
  rfl

/-- The stages of every pipeline run this loop, whatever else uses their queues. -/
theorem step_stage_iff {i : Fin P.stages} :
    s.Step (.stage i) t ↔ ∃ thread m w,
      (s.threads i).Step .producer .consumer (P.processor i) (s.queues i) (s.queues (i + 1))
        thread m w ∧ t = ((s.setQueue i m).setQueue (i + 1) w).setThread i thread := by
  constructor
  · intro hs
    cases hs with
    | beginRead hthread hready henter =>
      rw [hthread]
      exact ⟨_, _, _, .beginRead hready henter, by rw [setQueue_input_only]⟩
    | beginWrite hthread hready henter =>
      rw [hthread]
      exact ⟨_, _, _, .beginWrite hready henter, by rw [setQueue_output_only]⟩
    | load hthread hlen hstep =>
      rw [hthread]
      exact ⟨_, _, _, .load hlen hstep, by rw [setQueue_input_only]⟩
    | store hthread hlen hlt hv hstep =>
      rw [hthread]
      exact ⟨_, _, _, .store hlen hlt hv hstep, by rw [setQueue_output_only]⟩
    | endWrite hthread hstep =>
      rw [hthread]
      exact ⟨_, _, _, .endWrite hstep, by rw [setQueue_output_only]⟩
    | endRead hthread hstep =>
      rw [hthread]
      exact ⟨_, _, _, .endRead hstep, by rw [setQueue_input_only]⟩
  · rintro ⟨thread, m, w, hstep, rfl⟩
    generalize hthread : s.threads i = place at hstep
    cases hstep with
    | beginRead hready henter => rw [setQueue_input_only]; exact .beginRead hthread hready henter
    | beginWrite hready henter =>
      rw [setQueue_output_only]; exact .beginWrite hthread hready henter
    | load hlen hstep => rw [setQueue_input_only]; exact .load hthread hlen hstep
    | store hlen hlt hv hstep => rw [setQueue_output_only]; exact .store hthread hlen hlt hv hstep
    | endWrite hstep => rw [setQueue_output_only]; exact .endWrite hthread hstep
    | endRead hstep => rw [setQueue_input_only]; exact .endRead hthread hstep

end PipelineState

section Sleepers

variable {ι : Type*} [DecidableEq ι] {α : Type u} {m m' : Monitor ι α}

instance : Fintype Side := ⟨{.producer, .consumer}, fun t => by cases t <;> decide⟩

instance : Fintype QueueUser :=
  ⟨{.producer, .consumer, .waiter}, fun t => by cases t <;> decide⟩

def ThreadStatus.up : ThreadStatus → Nat
  | .asleep _ => 0
  | _ => 1

/-- How many users of a queue are not asleep. -/
def Monitor.up [Fintype ι] (m : Monitor ι α) : Nat := ∑ t, (m.threads t).up

theorem Monitor.up_of_sleeping [Fintype ι] {t : ι} {call : Call} (hready : m.Ready t call)
    (henter : m.enter t call = (.sleeping, m')) :
    m'.peers = m.peers ∧ m'.up < m.up := by
  obtain ⟨-, hothers, ⟨houtcome, -⟩ | ⟨houtcome, -⟩ | ⟨-, hpeers, hasleep, -⟩⟩ :=
    Monitor.enter_spec henter
  · cases houtcome
  · cases houtcome
  · refine ⟨hpeers, Finset.sum_lt_sum ?_ ⟨t, Finset.mem_univ t, ?_⟩⟩
    · intro u _
      by_cases hut : u = t
      · rw [hut, hasleep]
        exact Nat.zero_le _
      · rw [hothers u hut]
    · rw [hasleep]
      rcases hready with hrun | hawake
      · rw [hrun]; exact Nat.zero_lt_one
      · rw [hawake]; exact Nat.zero_lt_one

omit [DecidableEq ι] in
private theorem Monitor.attempt_released {call : Call} {p : PeerState α}
    (h : m.attempt call = some p) : p.released = m.peers.released := by
  cases call with
  | beginWrite n => obtain ⟨g, -, rfl⟩ := Option.map_eq_some_iff.mp h; rfl
  | beginRead n => obtain ⟨g, -, rfl⟩ := Option.map_eq_some_iff.mp h; rfl
  | waitEmpty =>
    obtain ⟨-, rfl⟩ : m.peers.queue.empty = true ∧ m.peers = p := by
      simpa [Monitor.attempt] using h
    rfl

theorem Monitor.enter_released {t : ι} {call : Call} {outcome : Outcome}
    (henter : m.enter t call = (outcome, m')) : m'.peers.released = m.peers.released := by
  obtain ⟨-, -, ⟨-, hp, -⟩ | ⟨-, hp, -⟩ | ⟨-, hp, -⟩⟩ := Monitor.enter_spec henter
  · exact Monitor.attempt_released hp
  · rw [hp]
  · rw [hp]

theorem Monitor.Step.released {a : MonitorAction ι α} (hs : m.Step a m')
    (ha : ∀ t count, a ≠ .endRead t count) : m'.peers.released = m.peers.released := by
  cases hs with
  | @call t call _ => exact Monitor.enter_released (Prod.mk.eta (p := m.enter t call)).symm
  | @again t call _ => exact Monitor.enter_released (Prod.mk.eta (p := m.enter t call)).symm
  | endWrite _ hp _ => obtain rfl := Option.some.inj hp; rfl
  | store _ hp => obtain rfl := Option.some.inj hp; rfl
  | load _ hp => obtain rfl := Option.some.inj hp; rfl
  | endRead _ _ _ => exact absurd rfl (ha _ _)
  | _ => rfl

end Sleepers

section Measures

variable {ι : Type*} [DecidableEq ι] {β γ : Type u} {producer consumer : ι}
  {processor : StaticProcessor β γ} {thread thread' : StageThread β} {m m' : Monitor ι β}
  {w w' : Monitor ι γ}

/-- The steps a stage has taken when it has released `released` elements. -/
def StageThread.taken (b released : Nat) : StageThread β → Nat
  | .beginRead => released * (2 * b + 4)
  | .beginWrite _ => released * (2 * b + 4) + 1
  | .processBlock _ _ loaded stored => released * (2 * b + 4) + 2 + loaded.length + stored
  | .endRead => released * (2 * b + 4) + 2 * b + 3
  | .exited => released * (2 * b + 4) + 2
  | .joined => released * (2 * b + 4) + 3

/-- A step of a stage counts, or it puts the stage to sleep in one of its queues. -/
theorem StageThread.Step.advances [Fintype ι]
    (hs : thread.Step producer consumer processor m w thread' m' w')
    (hstage : StageInv processor m.peers w.peers thread) :
    thread.taken processor.blocksize m.peers.released.length <
        thread'.taken processor.blocksize m'.peers.released.length ∨
      thread' = thread ∧ m'.peers.released = m.peers.released ∧ m'.up ≤ m.up ∧ w'.up ≤ w.up ∧
        (m'.up < m.up ∨ w'.up < w.up) := by
  cases hs with
  | @beginRead _ _ _ outcome hready henter =>
    cases outcome with
    | sleeping =>
      obtain ⟨hpeers, hup⟩ := Monitor.up_of_sleeping hready henter
      exact .inr ⟨rfl, by rw [hpeers], Nat.le_of_lt hup, le_rfl, .inl hup⟩
    | returned =>
      left
      obtain ⟨-, -, ⟨-, hp, -⟩ | ⟨houtcome, -⟩ | ⟨houtcome, -⟩⟩ := Monitor.enter_spec henter
      · obtain ⟨g, -, hm⟩ := Option.map_eq_some_iff.mp hp
        rw [← hm]
        exact Nat.lt_succ_self _
      · cases houtcome
      · cases houtcome
    | interrupted =>
      left
      obtain ⟨-, -, ⟨houtcome, -⟩ | ⟨-, hp, -⟩ | ⟨houtcome, -⟩⟩ := Monitor.enter_spec henter
      · cases houtcome
      · rw [hp]
        exact Nat.lt_add_of_pos_right Nat.two_pos
      · cases houtcome
  | @beginWrite src _ _ _ outcome hready henter =>
    cases outcome with
    | sleeping =>
      obtain ⟨-, hup⟩ := Monitor.up_of_sleeping hready henter
      exact .inr ⟨rfl, rfl, le_rfl, Nat.le_of_lt hup, .inr hup⟩
    | returned => exact .inl (Nat.lt_succ_self _)
    | interrupted => exact .inl (Nat.lt_succ_self _)
  | @load src dest loaded _ _ _ hlen hstep =>
    left
    cases hstep with
    | load _ hp =>
      obtain rfl := Option.some.inj hp
      simp only [taken, List.length_append, List.length_singleton]
      exact Nat.lt_succ_self _
  | store => exact .inl (Nat.lt_succ_self _)
  | endWrite _ =>
    left
    obtain ⟨-, -, hlen, -⟩ := hstage.reader
    simp only [taken]
    omega
  | endRead hstep =>
    left
    cases hstep with
    | endRead _ hp _ =>
      obtain rfl := Option.some.inj hp
      have hpos := processor.blocksize_pos
      have hmore : (m.peers.released.length + 1) * (2 * processor.blocksize + 4) ≤
          (m.peers.released.length + processor.blocksize) * (2 * processor.blocksize + 4) :=
        Nat.mul_le_mul_right _ (by omega)
      rw [Nat.succ_mul] at hmore
      change _ < (m.peers.released ++ CyclicBuffer.straight _ _ _).length * _
      rw [List.length_append, CyclicBuffer.straight_length]
      simp only [taken]
      omega

/-- A stage takes a bounded number of steps for every element of its input. -/
theorem StageInv.taken_le {p : PeerState β} {q : PeerState γ} {total : Nat}
    (h : StageInv processor p q thread) (hp : PeerInv p) (htotal : p.committed.length ≤ total) :
    thread.taken processor.blocksize p.released.length ≤
      total * (2 * processor.blocksize + 4) + 3 := by
  have hpos := processor.blocksize_pos
  have hlength := hp.committed_length
  have hreleased : p.released.length * (2 * processor.blocksize + 4) ≤
      total * (2 * processor.blocksize + 4) := Nat.mul_le_mul_right _ (by omega)
  have hholds : p.read.done = 0 → processor.blocksize ≤ p.read.count →
      p.released.length * (2 * processor.blocksize + 4) + (2 * processor.blocksize + 4) ≤
        total * (2 * processor.blocksize + 4) := by
    intro hdone hcount
    have hlen := (hp.holds_block hdone hcount).2
    rw [FixedMemoryQueue.content_length] at hlen
    change processor.blocksize ≤ p.queue.size at hlen
    rw [← Nat.succ_mul]
    exact Nat.mul_le_mul_right _ (by omega)
  have hreader := h.reader
  cases thread with
  | beginRead => simp only [StageThread.taken]; omega
  | exited => simp only [StageThread.taken]; omega
  | joined => simp only [StageThread.taken]; omega
  | beginWrite src =>
    have := hholds (congrArg Grant.done hreader.1) hreader.2
    simp only [StageThread.taken]
    omega
  | processBlock src dest loaded stored =>
    obtain ⟨hread, hcount, hlen, -⟩ := hreader
    obtain ⟨-, -, hstored, -⟩ := h.writer
    have := hholds (congrArg Grant.done hread) hcount
    simp only [StageThread.taken]
    omega
  | endRead =>
    have := hholds hreader.1 hreader.2
    simp only [StageThread.taken]
    omega

theorem StageInv.committed_dvd {p : PeerState β} {q : PeerState γ}
    (h : StageInv processor p q thread) (hp : PeerInv p) :
    processor.blocksize ∣ q.committed.length := by
  rw [h.delivered, List.length_append,
    blockwise_length processor.processBlock_length h.released_dvd]
  refine Nat.dvd_add h.released_dvd ?_
  have hreader := h.reader
  cases thread with
  | endRead =>
    have hlen := (hp.holds_block hreader.1 hreader.2).2
    have hblock := processor.processBlock_length _ (List.length_take_of_le hlen)
    exact ⟨1, hblock.trans (Nat.mul_one _).symm⟩
  | _ => exact Nat.dvd_zero _

/-- A stage in its loop takes a step, or sleeps in one of its queues with reason. -/
theorem StageThread.step_or_asleep
    (hm : m.Inside consumer ((thread.reading processor.blocksize).map .beginRead))
    (hw : w.Inside producer ((thread.writing processor.blocksize).map .beginWrite))
    (hstage : StageInv processor m.peers w.peers thread)
    (hlive : thread ≠ .exited ∧ thread ≠ .joined) :
    (∃ thread' m' w', thread.Step producer consumer processor m w thread' m' w') ∨
      (thread = .beginRead ∧ m.peers.queue.size < processor.blocksize ∧
        m.scheduler.interrupted .notEmpty = false) ∨
      (∃ src, thread = .beginWrite src) ∧ w.peers.queue.available < processor.blocksize := by
  cases thread with
  | joined => exact absurd rfl hlive.2
  | exited => exact absurd rfl hlive.1
  | beginRead =>
    rcases hm with hready | ⟨-, hwaits, hflag⟩
    · exact .inl ⟨_, _, _, .beginRead hready rfl⟩
    · exact .inr (.inl ⟨rfl, hwaits, hflag⟩)
  | beginWrite src =>
    rcases hw with hready | ⟨-, hwaits, -⟩
    · exact .inl ⟨_, _, _, .beginWrite hready rfl⟩
    · exact .inr (.inr ⟨⟨src, rfl⟩, hwaits⟩)
  | processBlock src dest loaded stored =>
    obtain ⟨-, -, hloaded, -⟩ := hstage.reader
    obtain ⟨-, -, hstored, hfull, -⟩ := hstage.writer
    left
    rcases Nat.lt_or_eq_of_le hloaded with hlt | heq
    · -- the block function is still reading its block
      obtain rfl : stored = 0 := by
        by_contra hne
        exact absurd (hfull (Nat.pos_of_ne_zero hne)) (Nat.ne_of_lt hlt)
      exact ⟨_, _, _, .load hlt (.load hm rfl)⟩
    · rcases Nat.lt_or_eq_of_le hstored with hlt | rfl
      · -- it is writing the image
        have hv : stored < (processor.processBlock loaded).length := by
          rw [processor.processBlock_length loaded heq]
          exact hlt
        exact ⟨_, _, _, .store heq hlt (List.getElem?_eq_getElem hv) (.store hw rfl)⟩
      · obtain ⟨threads, hsignal⟩ := Signal.exists .notEmpty w.threads
        exact ⟨_, _, _, .endWrite (.endWrite hw rfl hsignal)⟩
  | endRead =>
    obtain ⟨threads, hsignal⟩ := Signal.exists .notFull m.threads
    exact .inl ⟨_, _, _, .endRead (.endRead hm rfl hsignal)⟩

end Measures

namespace Pipeline

variable {ι : Type*} {T : Nat → Type u} (P : Pipeline T)

/-- The steps that stage `i` has taken. -/
def taken (queues : (i : Nat) → Monitor ι (T i))
    (threads : (i : Fin P.stages) → StageThread (T i)) (i : Fin P.stages) : Nat :=
  (threads i).taken (P.processor i).blocksize (queues i).peers.released.length

/-- How many users of the queues are not asleep. -/
def up [Fintype ι] (queues : (i : Nat) → Monitor ι (T i)) : Nat :=
  ∑ i ∈ Finset.range (P.stages + 1), (queues i).up

theorem image_length_le (xs : List (T 0)) (i : Nat) (hi : i ≤ P.stages) :
    (P.image xs i hi).length ≤ xs.length := by
  induction i with
  | zero => exact le_rfl
  | succ i ih =>
    rw [Pipeline.image, blockwise_length_eq (P.processor ⟨i, hi⟩).processBlock_length]
    exact (Nat.div_mul_le_self _ _).trans (ih (Nat.le_of_succ_le hi))

variable {P} {queues queues' : (i : Nat) → Monitor ι (T i)}
  {threads : (i : Fin P.stages) → StageThread (T i)} {producer consumer : ι}

theorem up_lt [Fintype ι] (hle : ∀ j, (queues' j).up ≤ (queues j).up) {i : Nat} (hi : i ≤ P.stages)
    (hlt : (queues' i).up < (queues i).up) : P.up queues' < P.up queues :=
  Finset.sum_lt_sum (fun j _ => hle j) ⟨i, Finset.mem_range.mpr (Nat.lt_succ_of_le hi), hlt⟩

section Step

variable {i : Fin P.stages} {thread : StageThread (T i)} {m : Monitor ι (T i)}
  {w : Monitor ι (T (i + 1))}

theorem stage_released (hw : w.peers.released = (queues (i + 1)).peers.released) (k : Nat)
    (hk : k ≠ i) :
    (Function.update (Function.update queues i m) (i + 1) w k).peers.released =
      (queues k).peers.released := by
  by_cases hk' : k = i + 1
  · subst hk'
    rw [Function.update_self]
    exact hw
  · rw [Function.update_of_ne hk', Function.update_of_ne hk]

/-- A step of a stage counts, or puts the stage to sleep. -/
theorem stage_advances [DecidableEq ι] [Fintype ι]
    (hs : (threads i).Step producer consumer (P.processor i) (queues i) (queues (i + 1)) thread m w)
    (hstage : StageInv (P.processor i) (queues i).peers (queues (i + 1)).peers (threads i))
    (hw : w.peers.released = (queues (i + 1)).peers.released) :
    (∀ k, k ≠ i → P.taken (Function.update (Function.update queues i m) (i + 1) w)
      (Function.update threads i thread) k = P.taken queues threads k) ∧
    (P.taken queues threads i < P.taken (Function.update (Function.update queues i m) (i + 1) w)
        (Function.update threads i thread) i ∨
      P.taken (Function.update (Function.update queues i m) (i + 1) w)
          (Function.update threads i thread) i = P.taken queues threads i ∧
        P.up (Function.update (Function.update queues i m) (i + 1) w) < P.up queues) := by
  have hself : P.taken (Function.update (Function.update queues i m) (i + 1) w)
      (Function.update threads i thread) i =
        thread.taken (P.processor i).blocksize m.peers.released.length := by
    rw [taken, Function.update_self, Function.update_of_ne (Nat.ne_of_lt (Nat.lt_succ_self _)),
      Function.update_self]
  refine ⟨?_, ?_⟩
  · intro k hk
    rw [taken, Function.update_of_ne hk, stage_released hw k fun heq => hk (Fin.ext heq)]
    rfl
  · rw [hself]
    rcases hs.advances hstage with hlt | ⟨rfl, hm, hup, hup', hless⟩
    · exact .inl hlt
    · refine .inr ⟨by rw [hm]; rfl, ?_⟩
      have hle : ∀ j, (Function.update (Function.update queues i m) (i + 1) w j).up ≤
          (queues j).up := by
        intro j
        by_cases hj : j = i + 1
        · subst hj; rw [Function.update_self]; exact hup'
        · rw [Function.update_of_ne hj]
          by_cases hji : j = i
          · subst hji; rw [Function.update_self]; exact hup
          · rw [Function.update_of_ne hji]
      rcases hless with hlt | hlt
      · refine up_lt hle (Nat.le_of_lt i.isLt) ?_
        rw [Function.update_of_ne (Nat.ne_of_lt (Nat.lt_succ_self _)), Function.update_self]
        exact hlt
      · refine up_lt hle i.isLt ?_
        rw [Function.update_self]
        exact hlt

end Step

theorem sum_left_lt {before after bound : Fin P.stages → Nat} (hle : ∀ i, before i ≤ after i)
    (hbound : ∀ i, after i ≤ bound i) {i : Fin P.stages} (hlt : before i < after i) :
    ∑ i, (bound i - after i) < ∑ i, (bound i - before i) := by
  refine Finset.sum_lt_sum (fun k _ => Nat.sub_le_sub_left (hle k) _) ⟨i, Finset.mem_univ i, ?_⟩
  have := hbound i
  omega

end Pipeline

end Dyplo
