import Dyplo.Scheduler.PthreadScheduler

/-!
# No lost wakeup between one producer and one consumer
-/

namespace Dyplo

inductive Side
  | producer
  | consumer
  deriving DecidableEq

variable {α : Type*}

/-- The producer calls `begin_write` and `end_write`, the consumer `begin_read` and `end_read`,
and the controller whatever it likes. Nothing is assumed about the committed counts. -/
def SideMayTake (capacity : Nat) : MonitorAction Side α → Prop
  | .call .producer (.beginWrite n) => 1 ≤ n ∧ n ≤ capacity
  | .call .consumer (.beginRead n) => 1 ≤ n ∧ n ≤ capacity
  | .call _ _ => False
  | .store t _ _ => t = .producer
  | .endWrite t _ => t = .producer
  | .load t _ => t = .consumer
  | .endRead t _ => t = .consumer
  | _ => True

/-- A producer, a consumer and a controller on a `FixedMemoryQueue<PthreadScheduler>`. -/
def pthreadQueue (α : Type*) (capacity : Nat) :
    TransitionSystem (Monitor Side α) (MonitorAction Side α) where
  init m := ∃ memory, m = .start memory capacity
  step m a m' := SideMayTake capacity a ∧ m.Step a m'

/-- The condition a side waits for. -/
def Side.condition : Side → Condition
  | .producer => .notFull
  | .consumer => .notEmpty

/-- The calls a side waits in. -/
def Side.Calls (capacity : Nat) : Side → Call → Prop
  | .producer, call => ∃ n, call = .beginWrite n ∧ 1 ≤ n ∧ n ≤ capacity
  | .consumer, call => ∃ n, call = .beginRead n ∧ 1 ≤ n ∧ n ≤ capacity

private theorem Side.Calls.condition {capacity : Nat} {t : Side} {call : Call}
    (h : t.Calls capacity call) : call.condition = t.condition := by
  cases t with
  | producer => obtain ⟨n, rfl, -⟩ := h; rfl
  | consumer => obtain ⟨n, rfl, -⟩ := h; rfl

/-- A side waits only in its own calls, and a sleeper has reason to sleep: its loop condition
holds and its interrupt flag is clear. -/
def Settled (capacity : Nat) (q : FixedMemoryQueue α) (scheduler : PthreadScheduler) (t : Side) :
    ThreadStatus → Prop
  | .running => True
  | .awake call => t.Calls capacity call
  | .asleep call =>
      t.Calls capacity call ∧ call.Waits q ∧ scheduler.interrupted call.condition = false

def WakeupInv (capacity : Nat) (m : Monitor Side α) : Prop :=
  ∀ t, Settled capacity m.peers.queue m.scheduler t (m.threads t)

private theorem Settled.calls {capacity : Nat} {q : FixedMemoryQueue α}
    {scheduler : PthreadScheduler}
    {t : Side} {call : Call} (h : Settled capacity q scheduler t (.asleep call)) :
    t.Calls capacity call := h.1

namespace WakeupInv

variable {capacity : Nat} {m : Monitor Side α}

private theorem only_sleeper (h : WakeupInv capacity m) (t : Side) {u : Side} {call : Call}
    (hu : m.threads u = .asleep call) (hc : call.condition = t.condition) : u = t := by
  have hs := h u
  rw [hu] at hs
  rw [hs.calls.condition] at hc
  cases t <;> cases u <;> first | rfl | cases hc

private theorem update (h : WakeupInv capacity m) {p : PeerState α} (hq : p.queue = m.peers.queue)
    {t : Side} {status : ThreadStatus}
    (hs : Settled capacity m.peers.queue m.scheduler t status) :
    WakeupInv capacity { m with peers := p, threads := Function.update m.threads t status } := by
  intro u
  change Settled capacity p.queue m.scheduler u (Function.update m.threads t status u)
  rw [hq]
  by_cases hut : u = t
  · subst hut; rw [Function.update_self]; exact hs
  · rw [Function.update_of_ne hut]; exact h u

private theorem enter (h : WakeupInv capacity m) {t : Side} {call : Call}
    (hcall : t.Calls capacity call) : WakeupInv capacity (m.enter t call).2 := by
  rcases m.enter_cases t call with ⟨p, hp, heq⟩ | ⟨-, -, heq⟩ | ⟨hnone, hflag, heq⟩
  · rw [heq]
    exact h.update (Monitor.attempt_queue hp) trivial
  · rw [heq]
    exact h.update rfl trivial
  · rw [heq]
    exact h.update rfl ⟨hcall, (m.attempt_eq_none call).mp hnone, hflag⟩

private theorem signal (h : WakeupInv capacity m) {t : Side} {threads : Side → ThreadStatus}
    (hsignal : Signal t.condition m.threads threads) (p : PeerState α)
    (scheduler : PthreadScheduler)
    (hother : ∀ u call, u ≠ t → m.threads u = .asleep call →
      call.Waits p.queue ∧ scheduler.interrupted call.condition = false) :
    WakeupInv capacity { peers := p, scheduler := scheduler, threads := threads } := by
  intro u
  change Settled capacity p.queue scheduler u (threads u)
  cases hu : threads u with
  | running => trivial
  | awake call =>
    have hs := h u
    rcases hsignal.waits_of_awake hu with hold | hold <;> rw [hold] at hs
    · exact hs
    · exact hs.calls
  | asleep call =>
    have hold := hsignal.asleep_of_asleep hu
    have hs := h u
    rw [hold] at hs
    have hne : u ≠ t := by
      rintro rfl
      exact hsignal.no_sleeper u (fun v c hv hc => h.only_sleeper u hv hc) hu hs.calls.condition
    exact ⟨hs.calls, hother u call hne hold⟩

private theorem setInterrupted (h : WakeupInv capacity m) {t : Side} {threads : Side → ThreadStatus}
    (hsignal : Signal t.condition m.threads threads) (value : Bool) :
    WakeupInv capacity { m with
      scheduler := m.scheduler.setInterrupted t.condition value, threads := threads } := by
  apply h.signal hsignal
  intro u call hne hu
  have hs := h u
  rw [hu] at hs
  refine ⟨hs.2.1, ?_⟩
  rw [PthreadScheduler.interrupted_setInterrupted_of_ne]
  · exact hs.2.2
  · intro hc
    exact hne (h.only_sleeper t hu hc)

private theorem transfer (h : WakeupInv capacity m) {t u : Side} (htu : t ≠ u)
    (hrun : m.threads u = .running) {threads : Side → ThreadStatus}
    (hsignal : Signal t.condition m.threads threads) (p : PeerState α) :
    WakeupInv capacity { m with peers := p, threads := threads } := by
  apply h.signal hsignal
  intro v call hne hv
  have hvu : v = u := by
    cases t <;> cases u <;> cases v <;> first | rfl | exact absurd rfl htu | exact absurd rfl hne
  rw [hvu, hrun] at hv
  cases hv

private theorem step (h : WakeupInv capacity m) {a : MonitorAction Side α} {m' : Monitor Side α}
    (hmay : SideMayTake capacity a) (hs : m.Step a m') : WakeupInv capacity m' := by
  cases hs with
  | @call t call hrun =>
    apply h.enter
    cases t <;> cases call <;> first | exact ⟨_, rfl, hmay⟩ | exact hmay.elim
  | @again t call hawake =>
    apply h.enter
    have hst := h t
    rwa [hawake] at hst
  | @spurious t call hasleep =>
    have hst := h t
    rw [hasleep] at hst
    exact h.update rfl hst.calls
  | store hrun hp => obtain rfl := Option.some.inj hp; exact h
  | load hrun hp => obtain rfl := Option.some.inj hp; exact h
  | @endWrite t count p threads hrun hp hsignal =>
    obtain rfl : t = .producer := hmay
    exact h.transfer (t := .consumer) (u := .producer) (by decide) hrun hsignal p
  | @endRead t count p threads hrun hp hsignal =>
    obtain rfl : t = .consumer := hmay
    exact h.transfer (t := .producer) (u := .consumer) (by decide) hrun hsignal p
  | interruptRead hsignal => exact h.setInterrupted (t := .consumer) hsignal true
  | interruptWrite hsignal => exact h.setInterrupted (t := .producer) hsignal true
  | resumeRead hsignal => exact h.setInterrupted (t := .consumer) hsignal false
  | resumeWrite hsignal => exact h.setInterrupted (t := .producer) hsignal false

end WakeupInv

private theorem pthreadQueue_invariant {capacity : Nat} {m : Monitor Side α}
    (h : (pthreadQueue α capacity).Reachable m) : WakeupInv capacity m := by
  apply h.invariant (I := WakeupInv capacity)
  · rintro m ⟨memory, rfl⟩ t
    trivial
  · rintro m a m' hinv ⟨hmay, hs⟩
    exact hinv.step hmay hs

/-- Whoever sleeps in `begin_write(n)` or `begin_read(n)` still has to wait and has not been
interrupted, in every interleaving with interrupts, resumes and spurious wakeups. -/
theorem pthreadQueue_no_lost_wakeup (capacity : Nat) (m : Monitor Side α)
    (h : (pthreadQueue α capacity).Reachable m) :
    (∀ call, m.threads .producer = .asleep call →
      ∃ n, call = .beginWrite n ∧ m.peers.queue.available < n ∧
        m.scheduler.mInterruptedNotFull = false) ∧
    ∀ call, m.threads .consumer = .asleep call →
      ∃ n, call = .beginRead n ∧ m.peers.queue.size < n ∧
        m.scheduler.mInterruptedNotEmpty = false := by
  have hinv := pthreadQueue_invariant h
  constructor
  · intro call hsleep
    have hs := hinv .producer
    rw [hsleep] at hs
    obtain ⟨⟨n, rfl, -⟩, hwaits, hflag⟩ := hs
    exact ⟨n, rfl, hwaits, hflag⟩
  · intro call hsleep
    have hs := hinv .consumer
    rw [hsleep] at hs
    obtain ⟨⟨n, rfl, -⟩, hwaits, hflag⟩ := hs
    exact ⟨n, rfl, hwaits, hflag⟩

/-- A consumer that found the queue empty. -/
def consumerAsleep : Monitor Side Nat :=
  ((Monitor.start (fun _ => 0) 2).enter .consumer (.beginRead 1)).2

theorem pthreadQueue_no_lost_wakeup_consumerAsleep :
    (∀ call, consumerAsleep.threads .producer = .asleep call →
      ∃ n, call = .beginWrite n ∧ consumerAsleep.peers.queue.available < n ∧
        consumerAsleep.scheduler.mInterruptedNotFull = false) ∧
    ∀ call, consumerAsleep.threads .consumer = .asleep call →
      ∃ n, call = .beginRead n ∧ consumerAsleep.peers.queue.size < n ∧
        consumerAsleep.scheduler.mInterruptedNotEmpty = false :=
  pthreadQueue_no_lost_wakeup 2 consumerAsleep
    (.step (a := MonitorAction.call Side.consumer (Call.beginRead 1)) (.init ⟨fun _ => 0, rfl⟩)
      ⟨(by decide : 1 ≤ 1 ∧ 1 ≤ 2), Monitor.Step.call rfl⟩)

example : consumerAsleep.threads .consumer = .asleep (.beginRead 1) := rfl

end Dyplo
