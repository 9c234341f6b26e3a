import Dyplo.Queue.Peers

/-!
# Queues with a `PthreadScheduler`

The mutex-protected bodies are atomic steps. Waiting on a condition releases the mutex and
puts the thread to sleep; a signal makes one arbitrary sleeper of the condition runnable, and a
sleeper may also wake up without a signal. A thread that was woken tests its loop condition
again once it gets the mutex.
-/

namespace Dyplo

inductive Condition
  | notFull
  | notEmpty
  deriving DecidableEq

structure PthreadScheduler where
  mInterruptedNotFull : Bool
  mInterruptedNotEmpty : Bool

namespace PthreadScheduler

def new : PthreadScheduler := ⟨false, false⟩

/-- The flag that `wait_until_not_full` or `wait_until_not_empty` tests before it waits. -/
def interrupted (s : PthreadScheduler) : Condition → Bool
  | .notFull => s.mInterruptedNotFull
  | .notEmpty => s.mInterruptedNotEmpty

def setInterrupted (s : PthreadScheduler) (c : Condition) (value : Bool) : PthreadScheduler :=
  match c with
  | .notFull => { s with mInterruptedNotFull := value }
  | .notEmpty => { s with mInterruptedNotEmpty := value }

def interruptNotFull (s : PthreadScheduler) : PthreadScheduler := s.setInterrupted .notFull true

def interruptNotEmpty (s : PthreadScheduler) : PthreadScheduler := s.setInterrupted .notEmpty true

def resumeNotFull (s : PthreadScheduler) : PthreadScheduler := s.setInterrupted .notFull false

def resumeNotEmpty (s : PthreadScheduler) : PthreadScheduler := s.setInterrupted .notEmpty false

theorem interrupted_setInterrupted_of_ne {s : PthreadScheduler} {c d : Condition} {value : Bool}
    (h : d ≠ c) : (s.setInterrupted c value).interrupted d = s.interrupted d := by
  cases c <;> cases d <;> first | rfl | exact absurd rfl h

end PthreadScheduler

/-- The calls that can wait. -/
inductive Call
  | beginWrite (countMin : Nat)
  | beginRead (countMin : Nat)
  | waitEmpty

def Call.condition : Call → Condition
  | .beginWrite _ => .notFull
  | .beginRead _ => .notEmpty
  | .waitEmpty => .notFull

inductive ThreadStatus
  | running
  /-- Out of the wait, about to lock the mutex and test the loop condition again. -/
  | awake (call : Call)
  | asleep (call : Call)

/-- How the locked body of a waiting call ends. -/
inductive Outcome
  | returned
  | interrupted
  | sleeping
  deriving DecidableEq

/-- A queue with its scheduler and the threads that use it. -/
structure Monitor (ι α : Type*) where
  peers : PeerState α
  scheduler : PthreadScheduler
  threads : ι → ThreadStatus

/-- The loop condition under which a call waits. -/
def Call.Waits {α : Type*} (q : FixedMemoryQueue α) : Call → Prop
  | .beginWrite countMin => q.available < countMin
  | .beginRead countMin => q.size < countMin
  | .waitEmpty => q.empty = false

variable {ι α : Type*}

/-- `pthread_cond_signal`: one arbitrary sleeper of the condition becomes runnable. -/
inductive Signal [DecidableEq ι] (c : Condition) (threads : ι → ThreadStatus) :
    (ι → ThreadStatus) → Prop
  | wake {t : ι} {call : Call} : threads t = .asleep call → call.condition = c →
      Signal c threads (Function.update threads t (.awake call))
  | nobody : (∀ t call, threads t = .asleep call → call.condition ≠ c) → Signal c threads threads

namespace Monitor

def start (memory : Nat → α) (capacity : Nat) : Monitor ι α :=
  { peers := .start memory capacity, scheduler := .new, threads := fun _ => .running }

/-- The loop of a waiting call when its condition holds; no result when it has to wait. -/
def attempt (m : Monitor ι α) : Call → Option (PeerState α)
  | .beginWrite countMin => m.peers.next (.beginWrite countMin)
  | .beginRead countMin => m.peers.next (.beginRead countMin)
  | .waitEmpty => if m.peers.queue.empty then some m.peers else none

theorem attempt_eq_none (m : Monitor ι α) (call : Call) :
    m.attempt call = none ↔ call.Waits m.peers.queue := by
  cases call with
  | beginWrite countMin =>
    simp [attempt, PeerState.next, FixedMemoryQueue.beginWrite, Call.Waits]
  | beginRead countMin =>
    simp [attempt, PeerState.next, FixedMemoryQueue.beginRead, Call.Waits]
  | waitEmpty => simp [attempt, Call.Waits]

theorem attempt_queue {m : Monitor ι α} {call : Call} {p : PeerState α}
    (h : m.attempt call = some p) : p.queue = m.peers.queue := by
  cases call with
  | beginWrite countMin => obtain ⟨g, -, rfl⟩ := Option.map_eq_some_iff.mp h; rfl
  | beginRead countMin => obtain ⟨g, -, rfl⟩ := Option.map_eq_some_iff.mp h; rfl
  | waitEmpty =>
    obtain ⟨-, rfl⟩ : m.peers.queue.empty = true ∧ m.peers = p := by simpa [attempt] using h
    rfl

variable [DecidableEq ι]

/-- The locked body of a waiting call, up to its return, its exception or its wait. -/
def enter (m : Monitor ι α) (t : ι) (call : Call) : Outcome × Monitor ι α :=
  match m.attempt call with
  | some p =>
      (.returned, { m with peers := p, threads := Function.update m.threads t .running })
  | none =>
      if m.scheduler.interrupted call.condition then
        (.interrupted, { m with threads := Function.update m.threads t .running })
      else
        (.sleeping, { m with threads := Function.update m.threads t (.asleep call) })

end Monitor

/-- What the threads and the controller of one queue do. -/
inductive MonitorAction (ι α : Type*)
  | call (t : ι) (call : Call)
  | again (t : ι)
  | spurious (t : ι)
  | store (t : ι) (i : Nat) (v : α)
  | load (t : ι) (i : Nat)
  | endWrite (t : ι) (count : Nat)
  | endRead (t : ι) (count : Nat)
  | interruptRead
  | interruptWrite
  | resumeRead
  | resumeWrite

/-- The atomic steps. A thread acts only while it runs; the controller acts at any time. -/
inductive Monitor.Step [DecidableEq ι] (m : Monitor ι α) :
    MonitorAction ι α → Monitor ι α → Prop
  | call {t : ι} {call : Call} : m.threads t = .running →
      Step m (.call t call) (m.enter t call).2
  | again {t : ι} {call : Call} : m.threads t = .awake call →
      Step m (.again t) (m.enter t call).2
  | spurious {t : ι} {call : Call} : m.threads t = .asleep call →
      Step m (.spurious t) { m with threads := Function.update m.threads t (.awake call) }
  | store {t : ι} {i : Nat} {v : α} {p : PeerState α} : m.threads t = .running →
      m.peers.next (.store i v) = some p → Step m (.store t i v) { m with peers := p }
  | load {t : ι} {i : Nat} {p : PeerState α} : m.threads t = .running →
      m.peers.next (.load i) = some p → Step m (.load t i) { m with peers := p }
  | endWrite {t : ι} {count : Nat} {p : PeerState α} {threads : ι → ThreadStatus} :
      m.threads t = .running → m.peers.next (.endWrite count) = some p →
      Signal .notEmpty m.threads threads →
      Step m (.endWrite t count) { m with peers := p, threads := threads }
  | endRead {t : ι} {count : Nat} {p : PeerState α} {threads : ι → ThreadStatus} :
      m.threads t = .running → m.peers.next (.endRead count) = some p →
      Signal .notFull m.threads threads →
      Step m (.endRead t count) { m with peers := p, threads := threads }
  | interruptRead {threads : ι → ThreadStatus} : Signal .notEmpty m.threads threads →
      Step m .interruptRead
        { m with scheduler := m.scheduler.interruptNotEmpty, threads := threads }
  | interruptWrite {threads : ι → ThreadStatus} : Signal .notFull m.threads threads →
      Step m .interruptWrite
        { m with scheduler := m.scheduler.interruptNotFull, threads := threads }
  | resumeRead {threads : ι → ThreadStatus} : Signal .notEmpty m.threads threads →
      Step m .resumeRead
        { m with scheduler := m.scheduler.resumeNotEmpty, threads := threads }
  | resumeWrite {threads : ι → ThreadStatus} : Signal .notFull m.threads threads →
      Step m .resumeWrite
        { m with scheduler := m.scheduler.resumeNotFull, threads := threads }

theorem status_update [DecidableEq ι] {threads : ι → ThreadStatus} {t u : ι}
    {status status' : ThreadStatus} (h : Function.update threads t status u = status') :
    u = t ∧ status = status' ∨ threads u = status' := by
  by_cases hut : u = t
  · rw [hut, Function.update_self] at h
    exact .inl ⟨hut, h⟩
  · rw [Function.update_of_ne hut] at h
    exact .inr h

namespace Signal

variable [DecidableEq ι] {c : Condition} {threads threads' : ι → ThreadStatus}

/-- A signal puts nobody to sleep. -/
theorem asleep_of_asleep (h : Signal c threads threads') {t : ι} {call : Call}
    (ht : threads' t = .asleep call) : threads t = .asleep call := by
  cases h with
  | nobody => exact ht
  | wake _ _ =>
    rcases status_update ht with ⟨-, hwoken⟩ | ht
    · cases hwoken
    · exact ht

/-- Whoever is waking after a signal was so before it, or slept in the same call. -/
theorem waits_of_awake (h : Signal c threads threads') {t : ι} {call : Call}
    (ht : threads' t = .awake call) : threads t = .awake call ∨ threads t = .asleep call := by
  cases h with
  | nobody => exact .inl ht
  | wake hasleep _ =>
    rcases status_update ht with ⟨rfl, hwoken⟩ | ht
    · obtain rfl := ThreadStatus.awake.inj hwoken
      exact .inr hasleep
    · exact .inl ht

theorem no_sleeper (h : Signal c threads threads') (t : ι)
    (honly : ∀ u call, threads u = .asleep call → call.condition = c → u = t)
    {u : ι} {call : Call} (hu : threads' u = .asleep call) : call.condition ≠ c := by
  intro hc
  obtain rfl := honly u call (h.asleep_of_asleep hu) hc
  cases h with
  | nobody hnone => exact hnone u call hu hc
  | @wake v woken hv hvc =>
    obtain rfl := honly v woken hv hvc
    rw [Function.update_self] at hu
    cases hu

end Signal

/-- What `enter` can lead to: the call returns, throws, or sleeps with its condition false and
its interrupt flag clear. -/
theorem Monitor.enter_cases [DecidableEq ι] (m : Monitor ι α) (t : ι) (call : Call) :
    (∃ p, m.attempt call = some p ∧ m.enter t call =
      (.returned, { m with peers := p, threads := Function.update m.threads t .running })) ∨
    (m.attempt call = none ∧ m.scheduler.interrupted call.condition = true ∧ m.enter t call =
      (.interrupted, { m with threads := Function.update m.threads t .running })) ∨
    (m.attempt call = none ∧ m.scheduler.interrupted call.condition = false ∧ m.enter t call =
      (.sleeping, { m with threads := Function.update m.threads t (.asleep call) })) := by
  unfold Monitor.enter
  cases hattempt : m.attempt call with
  | some p => exact .inl ⟨p, rfl, rfl⟩
  | none =>
    cases hflag : m.scheduler.interrupted call.condition with
    | true => exact .inr (.inl ⟨rfl, rfl, by simp⟩)
    | false => exact .inr (.inr ⟨rfl, rfl, by simp⟩)

end Dyplo
