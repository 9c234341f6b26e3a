import Dyplo.Process.CooperativeChain
import Dyplo.Scheduler.PthreadScheduler

/-!
# Cooperative chains in front of a queue that can throw

The `begin_write` of the sink throws when a `NoopScheduler` or an interrupted `PthreadScheduler`
finds no room. The exception passes through the `end_write` of every queue upstream after its
block has been committed and before the stage has released it.
-/

namespace Dyplo

open CyclicBuffer OutputQueue

variable {S β γ : Type}

inductive SinkScheduler
  | noop
  | pthread (scheduler : PthreadScheduler)

/-- What other threads do while the chain waits for room. -/
inductive SinkEvent
  /-- The consumer calls `pop_one`. -/
  | pop
  | interrupt
  deriving DecidableEq

namespace SinkScheduler

/-- What `wait_until_not_full` throws instead of waiting. -/
def waitUntilNotFull : SinkScheduler → Option CooperativeStop
  | .noop => some (.runtimeError "Not implemented: wait_until_not_full")
  | .pthread scheduler => if scheduler.interrupted .notFull then some .interrupted else none

def interruptNotFull : SinkScheduler → SinkScheduler
  | .noop => .noop
  | .pthread scheduler => .pthread scheduler.interruptNotFull

def resumeNotFull : SinkScheduler → SinkScheduler
  | .noop => .noop
  | .pthread scheduler => .pthread scheduler.resumeNotFull

end SinkScheduler

/-- The sink, and what other threads are going to do to it while the chain waits. -/
structure SinkQueue (γ : Type) where
  peers : PeerState γ
  scheduler : SinkScheduler
  events : List SinkEvent

namespace SinkQueue

/-- `pop_one` on a queue that is not empty. -/
def popOne (q : PeerState γ) : PeerState γ :=
  match q.next (.beginRead 1) with
  | some q' => q'.act (.endRead 1)
  | none => q

def happen (s : SinkQueue γ) : SinkEvent → SinkQueue γ
  | .pop => { s with peers := popOne s.peers }
  | .interrupt => { s with scheduler := s.scheduler.interruptNotFull }

/-- The loop of `begin_write`. Every turn but the last waits for another thread. -/
def beginWriteLoop (countMin : Nat) : Nat → CooperativeM (SinkQueue γ) Nat
  | 0 => throw .turnsExhausted
  | turns + 1 => do
      let s ← get
      match s.peers.next (.beginWrite countMin) with
      | some q =>
          set { s with peers := q }
          return q.write.count
      | none =>
          match s.scheduler.waitUntilNotFull, s.events with
          | some stop, _ => throw stop
          | none, [] => throw .unanswered
          | none, event :: events =>
              set ({ s with events := events }.happen event)
              beginWriteLoop countMin turns

/-- `FixedMemoryQueue` with a `NoopScheduler` or a `PthreadScheduler`. -/
def output (γ : Type) : OutputQueue (SinkQueue γ) γ where
  beginWrite countMin := do
    let s ← get
    beginWriteLoop countMin (s.events.length + 1)
  store i v s := { s with peers := s.peers.act (.store i v) }
  endWrite count := modify fun s => { s with peers := s.peers.act (.endWrite count) }

/-- How many elements the consumer takes before somebody interrupts the wait. -/
def popsAhead (events : List SinkEvent) : Nat := (events.takeWhile (· == .pop)).length

/-- How many elements the sink has or is going to have room for. -/
def grantable (s : SinkQueue γ) : Nat :=
  s.peers.queue.available +
    if s.scheduler.waitUntilNotFull.isSome then 0 else popsAhead s.events

end SinkQueue

/-- What happens at the two ends of a chain. -/
inductive ChainCall (β : Type)
  /-- `push_one` on the head queue. -/
  | push (v : β) (events : List SinkEvent)
  /-- `resume_write` on the head queue, which runs the chain again. -/
  | run (events : List SinkEvent)
  | sink (event : SinkEvent)
  /-- `resume_write` on the sink. -/
  | resumeSink

/-- The state after a call that returns or throws. -/
def ChainCall.finish (result : EStateM.Result CooperativeStop S Unit) : Option S :=
  match result with
  | .ok _ s => some s
  | .error .unanswered _ => none
  | .error .turnsExhausted _ => none
  | .error _ s => some s

section Calls

variable (turns capacity : Nat) (processor : StaticProcessor β γ) {γ₀ : Type}
  (rest : Chain (SinkQueue γ₀) γ₀ S γ)

/-- The sink with what happens to it during the coming call. -/
def expecting (events : List SinkEvent) (s : PeerState β × S) : PeerState β × S :=
  (Chain.stage capacity processor rest).mapSink (fun u => { u with events := events }) s

def ChainCall.next (s : PeerState β × S) : ChainCall β → Option (PeerState β × S)
  | .push v events =>
      finish (((Chain.stage capacity processor rest).queue turns (SinkQueue.output γ₀)).put 1 [v]
        (expecting capacity processor rest events s))
  | .run events =>
      finish (processOne processor (rest.queue turns (SinkQueue.output γ₀)) turns
        (expecting capacity processor rest events s))
  | .sink event => some ((Chain.stage capacity processor rest).mapSink (·.happen event) s)
  | .resumeSink =>
      some ((Chain.stage capacity processor rest).mapSink
        (fun u => { u with scheduler := u.scheduler.resumeNotFull }) s)

/-- The sink has room for every block that the call completes, when the stage needs it. -/
def ChainCall.Granted (s : PeerState β × S) (a : ChainCall β) (_ : PeerState β × S) : Prop :=
  match a with
  | .push v events =>
      ((Chain.stage capacity processor rest).image (s.1.committed ++ [v])).length ≤
        ((Chain.stage capacity processor rest).sinkState s).peers.committed.length +
          ({ (Chain.stage capacity processor rest).sinkState s with events := events } :
            SinkQueue γ₀).grantable
  | _ => True

/-- All runs of a new chain with at least one stage in front of the given sink. -/
def chainCalls (sinkCapacity : Nat) (scheduler : SinkScheduler) :
    TransitionSystem (PeerState β × S) (ChainCall β) :=
  .ofNext
    ((Chain.stage capacity processor rest).Fresh fun u =>
      ∃ memory, u = ⟨.start memory sinkCapacity, scheduler, []⟩)
    (fun _ _ => True) (ChainCall.next turns capacity processor rest)

end Calls

namespace SinkQueue

variable {capacity b : Nat} {written : List γ} {s : SinkQueue γ}

private theorem popOne_spec {q : PeerState γ} (h : Level capacity b 1 written q)
    (hsize : 1 ≤ q.queue.mSize) :
    Level capacity b 1 written (popOne q) ∧
      (popOne q).queue.available = q.queue.available + 1 := by
  obtain ⟨q', hnext, rfl, hread⟩ := h.beginRead hsize
  have hrun := h.peers.wellFormed.block_le_readRun (Nat.one_dvd _) (Nat.one_dvd _) hsize
  have hg : 0 + 1 ≤ q.queue.readRun := by omega
  have hle := h.peers.wellFormed.size_le
  rw [popOne, hnext]
  refine ⟨hread.endRead hg, ?_⟩
  change q.queue.mEnd - (q.queue.mSize - 1) = q.queue.mEnd - q.queue.mSize + 1
  omega

private theorem happen_spec (h : Level capacity b 1 written s.peers) (event : SinkEvent) :
    Level capacity b 1 written (s.happen event).peers := by
  cases event with
  | interrupt => exact h
  | pop =>
    by_cases hsize : 1 ≤ s.peers.queue.mSize
    · exact (popOne_spec h hsize).1
    · have hnone : s.peers.next (.beginRead 1) = none :=
        PeerState.beginRead_waits (Nat.lt_of_not_le hsize)
      change Level capacity b 1 written (popOne s.peers)
      rw [popOne, hnone]
      exact h

private theorem pop_next (hroom : ¬ b ≤ s.peers.queue.available) (hgrant : b ≤ s.grantable) :
    s.scheduler.waitUntilNotFull = none ∧ ∃ events, s.events = .pop :: events := by
  rw [grantable] at hgrant
  cases hwait : s.scheduler.waitUntilNotFull with
  | some stop =>
    rw [hwait] at hgrant
    exact absurd hgrant hroom
  | none =>
    rw [hwait] at hgrant
    refine ⟨rfl, ?_⟩
    cases hevents : s.events with
    | nil =>
      rw [hevents] at hgrant
      exact absurd hgrant hroom
    | cons event events =>
      rw [hevents] at hgrant
      cases event with
      | interrupt => exact absurd hgrant hroom
      | pop => exact ⟨events, rfl⟩

private theorem grantable_pop {events : List SinkEvent} (h : Level capacity b 1 written s.peers)
    (hsize : 1 ≤ s.peers.queue.mSize) (hwait : s.scheduler.waitUntilNotFull = none)
    (hevents : s.events = .pop :: events) :
    ({ s with peers := popOne s.peers, events := events } : SinkQueue γ).grantable =
      s.grantable := by
  rw [grantable, grantable, (popOne_spec h hsize).2, hwait, hevents]
  change s.peers.queue.available + 1 + popsAhead events =
    s.peers.queue.available + (popsAhead events + 1)
  omega

/-- The wait for a block ends when the consumer takes enough elements before an interrupt. -/
theorem beginWriteLoop_spec (hcap : 1 ≤ capacity) (hb : b ∣ capacity) (turns : Nat)
    (h : Level capacity b 1 written s.peers) (hturns : s.events.length < turns)
    (hgrant : b ≤ s.grantable) :
    wp (beginWriteLoop b turns)
      (fun _ t => ∃ u : SinkQueue γ, Level capacity b 1 written u.peers ∧
        u.grantable = s.grantable ∧
        ∃ q, u.peers.next (.beginWrite b) = some q ∧ t = { u with peers := q })
      (fun _ _ => False) s := by
  induction turns generalizing s with
  | zero => exact absurd hturns (Nat.not_lt_zero _)
  | succ turns ih =>
    rw [beginWriteLoop, wp_bind, wp_get]
    by_cases hroom : b ≤ s.peers.queue.available
    · obtain ⟨q, hnext, -⟩ := h.beginWrite hroom
      rw [hnext]
      dsimp only
      rw [wp_bind, wp_set, wp_pure]
      exact ⟨s, h, rfl, q, hnext, rfl⟩
    · obtain ⟨hwait, events, hevents⟩ := pop_next hroom hgrant
      have hsize : 1 ≤ s.peers.queue.mSize := by
        have hle := Nat.le_of_dvd hcap hb
        rw [FixedMemoryQueue.available, FixedMemoryQueue.capacity, h.mEnd] at hroom
        change ¬ b ≤ capacity - s.peers.queue.mSize at hroom
        omega
      have hsame := grantable_pop h hsize hwait hevents
      rw [PeerState.beginWrite_waits (Nat.lt_of_not_le hroom)]
      dsimp only
      rw [hwait, hevents]
      dsimp only
      rw [wp_bind, wp_set, ← hsame]
      rw [hevents] at hturns
      exact ih (s := { s with peers := popOne s.peers, events := events }) (popOne_spec h hsize).1
        (Nat.lt_of_succ_lt_succ hturns) (hsame ▸ hgrant)

private theorem output_storeFrom (i : Nat) (block : List γ) (s : SinkQueue γ) :
    (output γ).storeFrom i block s = { s with peers := s.peers.storeFrom i block } := by
  induction block generalizing s i with
  | nil => rfl
  | cons v vs ih => exact ih (i + 1) _

/-- `written` has been committed to the sink, and it has or gets room for the rest of `target`. -/
def Holds (capacity b : Nat) (target written : List γ) (s : SinkQueue γ) : Prop :=
  Level capacity b 1 written s.peers ∧ target.length ≤ written.length + s.grantable

/-- The sink takes blocks as long as it is granted room. -/
theorem accepts (hcap : 1 ≤ capacity) (hb : b ∣ capacity) :
    (output γ).Accepts b (Holds capacity b) := by
  rintro target written s block - hblock htarget ⟨h, hroom⟩
  have hlen := htarget.length_le
  rw [List.length_append, hblock] at hlen
  have hgrant : b ≤ s.grantable := by omega
  rw [OutputQueue.put, wp_bind]
  change wp (get >>= fun s => beginWriteLoop b (s.events.length + 1)) _ _ s
  rw [wp_bind, wp_get]
  refine (beginWriteLoop_spec hcap hb _ h (Nat.lt_succ_self _) hgrant).mono ?_ fun _ _ he => he
  rintro r _ ⟨u, hu, hsame, q, hnext, rfl⟩
  obtain ⟨hend, hsize, -⟩ := hu.putBlock hb hnext hblock
  rw [wp_bind, wp_modify, output_storeFrom]
  change wp (modify _ : CooperativeM (SinkQueue γ) Unit) _ _ _
  rw [wp_modify]
  refine ⟨hend, ?_⟩
  have havailable : ((q.storeFrom 0 block).act (.endWrite b)).queue.available + b =
      u.peers.queue.available := by
    have hle := hend.size_le
    simp only [FixedMemoryQueue.available, FixedMemoryQueue.capacity, FixedMemoryQueue.size,
      hend.mEnd, hu.mEnd]
    omega
  rw [← hsame, grantable] at hroom
  rw [List.length_append, hblock]
  change target.length ≤ written.length + b +
    (((q.storeFrom 0 block).act (.endWrite b)).queue.available +
      if u.scheduler.waitUntilNotFull.isSome then 0 else popsAhead u.events)
  omega

private theorem holds_of_level (h : Level capacity b 1 written s.peers) :
    Holds capacity b written written s := ⟨h, Nat.le_add_right _ _⟩

end SinkQueue

section Runs

variable {turns capacity sinkCapacity : Nat} {processor : StaticProcessor β γ} {γ₀ : Type}
  {rest : Chain (SinkQueue γ₀) γ₀ S γ} {s t : PeerState β × S} {written : List β}

/-- Between two calls everything that was committed has been delivered, up to incomplete blocks. -/
def AllDelivered (capacity sinkCapacity : Nat) (processor : StaticProcessor β γ)
    (rest : Chain (SinkQueue γ₀) γ₀ S γ) (written : List β) (s : PeerState β × S) : Prop :=
  (Chain.stage capacity processor rest).Holds
    (SinkQueue.Holds sinkCapacity (rest.sinkBlock processor.blocksize)) 1 written written s

/-- The capacities fit the block sizes, and the loops have turns enough. -/
structure ChainFits (turns capacity sinkCapacity : Nat) (processor : StaticProcessor β γ)
    (rest : Chain (SinkQueue γ₀) γ₀ S γ) : Prop where
  divides : (Chain.stage capacity processor rest).Divides 1
  sink_pos : 1 ≤ sinkCapacity
  sink_dvd : rest.sinkBlock processor.blocksize ∣ sinkCapacity
  below : (Chain.stage capacity processor rest).Below turns

private theorem ChainFits.push (hfits : ChainFits turns capacity sinkCapacity processor rest)
    (hs : AllDelivered capacity sinkCapacity processor rest written s) {v : β}
    {events : List SinkEvent}
    (hgranted : ChainCall.Granted capacity processor rest s (.push v events) s) :
    wp (((Chain.stage capacity processor rest).queue turns (SinkQueue.output γ₀)).put 1 [v])
      (fun _ t => AllDelivered capacity sinkCapacity processor rest (written ++ [v]) t)
      (fun _ _ => False) (expecting capacity processor rest events s) := by
  have hsink := hs.sinkState
  change ((Chain.stage capacity processor rest).image (s.1.committed ++ [v])).length ≤ _ at hgranted
  rw [hs.1.committed, hsink.1.committed] at hgranted
  have hexpecting : (Chain.stage capacity processor rest).Holds
      (SinkQueue.Holds sinkCapacity (rest.sinkBlock processor.blocksize)) 1 (written ++ [v])
      written (expecting capacity processor rest events s) :=
    hs.mapSink ⟨hsink.1, hgranted⟩
  have haccepts : ((Chain.stage capacity processor rest).queue turns
      (SinkQueue.output γ₀)).Accepts 1 _ :=
    Chain.accepts (SinkQueue.accepts hfits.sink_pos hfits.sink_dvd) hfits.divides hfits.below
  exact haccepts _ written _ [v] (Nat.one_dvd _) rfl (List.prefix_refl _) hexpecting

private theorem ChainFits.run (hfits : ChainFits turns capacity sinkCapacity processor rest)
    (hs : AllDelivered capacity sinkCapacity processor rest written s)
    (events : List SinkEvent) :
    wp (processOne processor (rest.queue turns (SinkQueue.output γ₀)) turns)
      (fun _ t => AllDelivered capacity sinkCapacity processor rest written t)
      (fun _ _ => False) (expecting capacity processor rest events s) := by
  have hsink := hs.sinkState
  obtain ⟨hlevel, -, hrest⟩ : AllDelivered capacity sinkCapacity processor rest written
      (expecting capacity processor rest events s) :=
    hs.mapSink (SinkQueue.holds_of_level hsink.1)
  have haccepts : (rest.queue turns (SinkQueue.output γ₀)).Accepts processor.blocksize _ :=
    Chain.accepts (SinkQueue.accepts hfits.sink_pos hfits.sink_dvd) hfits.divides.2.2.2
      hfits.below.2
  exact processOne_spec haccepts hfits.divides.2.2.1 (List.prefix_refl _) turns hlevel
    (Nat.lt_of_le_of_lt hlevel.size_le hfits.below.1) hrest

private theorem finish_of_wp {c : CooperativeM S Unit} {u t : S} {I : S → Prop}
    (h : wp c (fun _ t => I t) (fun _ _ => False) u) (hnext : ChainCall.finish (c u) = some t) :
    I t := by
  obtain ⟨_, t', heq, ht'⟩ := h.returns
  rw [heq] at hnext
  obtain rfl := Option.some.inj hnext
  exact ht'

private theorem ChainFits.next (hfits : ChainFits turns capacity sinkCapacity processor rest)
    (hs : AllDelivered capacity sinkCapacity processor rest written s) {a : ChainCall β}
    (hnext : a.next turns capacity processor rest s = some t)
    (hgranted : a.Granted capacity processor rest s t) :
    ∃ written', AllDelivered capacity sinkCapacity processor rest written' t := by
  cases a with
  | push v events => exact ⟨_, finish_of_wp (hfits.push hs hgranted) hnext⟩
  | run events => exact ⟨_, finish_of_wp (hfits.run hs events) hnext⟩
  | sink event =>
    obtain rfl := Option.some.inj hnext
    exact ⟨written, hs.mapSink (SinkQueue.holds_of_level
      (SinkQueue.happen_spec hs.sinkState.1 event))⟩
  | resumeSink =>
    obtain rfl := Option.some.inj hnext
    exact ⟨written, hs.mapSink (SinkQueue.holds_of_level hs.sinkState.1)⟩

/-- As long as the sink grants the blocks that each push completes, no push throws and every
element of the head queue is in the sink's stream exactly once. -/
theorem cooperative_chain_exactly_once (turns capacity sinkCapacity : Nat)
    (processor : StaticProcessor β γ) (rest : Chain (SinkQueue γ₀) γ₀ S γ)
    (scheduler : SinkScheduler) (hfits : ChainFits turns capacity sinkCapacity processor rest)
    (s : PeerState β × S)
    (h : ((chainCalls turns capacity processor rest sinkCapacity scheduler).restrict
      (ChainCall.Granted capacity processor rest)).Reachable s) :
    ((Chain.stage capacity processor rest).sinkState s).peers.committed =
      (Chain.stage capacity processor rest).image s.1.committed ∧
    ∀ v events, ChainCall.Granted capacity processor rest s (.push v events) s →
      ∃ t, ((Chain.stage capacity processor rest).queue turns (SinkQueue.output γ₀)).put 1 [v]
          (expecting capacity processor rest events s) = .ok () t ∧
        t.1.committed = s.1.committed ++ [v] := by
  have hinv : ∃ written, AllDelivered capacity sinkCapacity processor rest written s := by
    apply h.restrict_invariant
      (I := fun s => ∃ written, AllDelivered capacity sinkCapacity processor rest written s)
    · intro s hfresh
      refine ⟨[], hfresh.holds ?_⟩
      rintro _ ⟨memory, rfl⟩
      rw [Chain.image_nil]
      exact SinkQueue.holds_of_level (.start memory sinkCapacity _ 1)
    · rintro s a t ⟨written, hs⟩ ⟨-, hnext⟩ hgranted
      exact hfits.next hs hnext hgranted
  obtain ⟨written, hs⟩ := hinv
  refine ⟨hs.1.committed ▸ hs.sinkState.1.committed, ?_⟩
  intro v events hgranted
  obtain ⟨_, t, heq, ht⟩ := (hfits.push hs hgranted).returns
  exact ⟨t, heq, by rw [ht.1.committed, hs.1.committed]⟩

instance (s : PeerState β × S) (a : ChainCall β) (t : PeerState β × S) :
    Decidable (a.Granted capacity processor rest s t) := by
  cases a <;> unfold ChainCall.Granted <;> infer_instance

end Runs

section Throws

abbrev NoopChain := PeerState Nat × PeerState Nat × SinkQueue Nat

/-- Two `AddOne` processes in front of a `NoopScheduler` queue of one element. -/
def noopStart : NoopChain :=
  (.start (fun _ => 0) 1, .start (fun _ => 0) 1, ⟨.start (fun _ => 0) 1, .noop, []⟩)

def noopNext : NoopChain → ChainCall Nat → Option NoopChain :=
  ChainCall.next 2 1 addOne (.stage 1 addOne .sink)

private theorem noop_fits : ChainFits 2 1 1 addOne
    (.stage 1 addOne .sink : Chain (SinkQueue Nat) Nat _ _) where
  divides := ⟨by decide, by decide, by decide, by decide, by decide, by decide, trivial⟩
  sink_pos := by decide
  sink_dvd := by decide
  below := ⟨by decide, by decide, trivial⟩

/-- The first push fills the sink. -/
def noopPushed : NoopChain := (noopNext noopStart (.push 50 [])).get (by decide +kernel)

theorem cooperative_chain_exactly_once_pushed :
    ((Chain.stage 1 addOne (.stage 1 addOne .sink)).sinkState noopPushed).peers.committed =
      (Chain.stage 1 addOne (.stage 1 addOne .sink) : Chain (SinkQueue Nat) Nat _ _).image
        noopPushed.1.committed ∧
    ∀ v events, ChainCall.Granted 1 addOne (.stage 1 addOne .sink) noopPushed (.push v events)
        noopPushed →
      ∃ t, ((Chain.stage 1 addOne (.stage 1 addOne .sink)).queue 2 (SinkQueue.output Nat)).put 1 [v]
          (expecting 1 addOne (.stage 1 addOne .sink) events noopPushed) = .ok () t ∧
        t.1.committed = noopPushed.1.committed ++ [v] := by
  have hstart : ((chainCalls 2 1 addOne (.stage 1 addOne .sink) 1 .noop).restrict
      (ChainCall.Granted 1 addOne (.stage 1 addOne .sink))).Reachable noopStart :=
    .init ⟨⟨_, rfl⟩, ⟨_, rfl⟩, _, rfl⟩
  have hnext : noopNext noopStart (.push 50 []) = some noopPushed := (Option.some_get _).symm
  have hgranted : ChainCall.Granted 1 addOne (.stage 1 addOne .sink) noopStart (.push 50 [])
      noopPushed := by decide +kernel
  have hpushed := hstart.step ⟨⟨trivial, hnext⟩, hgranted⟩
  exact cooperative_chain_exactly_once 2 1 1 addOne (.stage 1 addOne .sink) .noop noop_fits
    noopPushed hpushed

/-- The second push throws. The sink is drained and the chain is run again, twice. -/
def throwingCalls : List (ChainCall Nat) :=
  [.push 50 [], .push 51 [], .sink .pop, .run [], .sink .pop, .run []]

def noopThrown : NoopChain :=
  (TransitionSystem.exec (fun _ _ => True) noopNext noopStart throwingCalls).get
    (by decide +kernel)

/-- The first stage finds the block that it had committed in its input again. -/
theorem cooperative_chain_repeats_block :
    (chainCalls 2 1 addOne (.stage 1 addOne .sink) 1 .noop).Reachable noopThrown ∧
    noopThrown.1.committed = [50, 51] ∧ noopThrown.2.2.peers.committed = [52, 53, 53] ∧
    ¬ noopThrown.2.2.peers.committed <+:
      (Chain.stage 1 addOne (.stage 1 addOne .sink) : Chain (SinkQueue Nat) Nat _ _).image
        noopThrown.1.committed :=
  ⟨.run (.init ⟨⟨_, rfl⟩, ⟨_, rfl⟩, _, rfl⟩)
    (TransitionSystem.run_of_exec (Option.some_get _).symm), by decide +kernel,
    by decide +kernel, by decide +kernel⟩

end Throws

end Dyplo
