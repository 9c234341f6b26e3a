import Dyplo.Scheduler.WaitEmpty
import Dyplo.Process.InterruptedStage

/-!
# Who is inside which call of a queue

A queue between two processes has one producer, one consumer and possibly a thread in
`wait_empty`. Whoever sleeps there does so in the call it is in, still has to wait and has not
been interrupted, as long as the producer and `wait_empty` are never inside the queue together.
-/

universe u

namespace Dyplo

/-- The waiting call that each user of a queue is inside of. -/
structure PendingCalls where
  beginWrite : Option Nat
  beginRead : Option Nat
  waitEmpty : Bool

namespace PendingCalls

def of (c : PendingCalls) : QueueUser → Option Call
  | .producer => c.beginWrite.map .beginWrite
  | .consumer => c.beginRead.map .beginRead
  | .waiter => if c.waitEmpty then some .waitEmpty else none

/-- The producer and `wait_empty` sleep on the same condition. -/
def Apart (c : PendingCalls) : Prop := c.beginWrite = none ∨ c.waitEmpty = false

private theorem of_producer {c : PendingCalls} {call : Call} (h : c.of .producer = some call) :
    ∃ n, call = .beginWrite n ∧ c.beginWrite = some n := by
  obtain ⟨n, hn, rfl⟩ := Option.map_eq_some_iff.mp h
  exact ⟨n, rfl, hn⟩

private theorem of_consumer {c : PendingCalls} {call : Call} (h : c.of .consumer = some call) :
    ∃ n, call = .beginRead n ∧ c.beginRead = some n := by
  obtain ⟨n, hn, rfl⟩ := Option.map_eq_some_iff.mp h
  exact ⟨n, rfl, hn⟩

private theorem of_waiter {c : PendingCalls} {call : Call} (h : c.of .waiter = some call) :
    call = .waitEmpty ∧ c.waitEmpty = true := by
  cases hempty : c.waitEmpty with
  | true =>
    rw [of, hempty] at h
    exact ⟨(Option.some.inj h).symm, rfl⟩
  | false =>
    rw [of, hempty] at h
    cases h

theorem of_notEmpty {c : PendingCalls} {t : QueueUser} {call : Call} (h : c.of t = some call)
    (hc : call.condition = .notEmpty) : t = .consumer := by
  cases t with
  | consumer => rfl
  | producer => obtain ⟨n, rfl, -⟩ := of_producer h; cases hc
  | waiter => obtain ⟨rfl, -⟩ := of_waiter h; cases hc

/-- Only one user at a time waits until a queue is not full. -/
theorem of_notFull {c : PendingCalls} (hapart : c.Apart) {t u : QueueUser} {call call' : Call}
    (ht : c.of t = some call) (hc : call.condition = .notFull) (hu : c.of u = some call')
    (hc' : call'.condition = .notFull) : t = u := by
  have hboth : c.of .producer = none ∨ c.of .waiter = none := by
    rcases hapart with hnone | hfalse
    · exact .inl (by rw [of, hnone]; rfl)
    · exact .inr (by rw [of, hfalse]; rfl)
  cases t with
  | consumer => obtain ⟨n, rfl, -⟩ := of_consumer ht; cases hc
  | producer =>
    cases u with
    | consumer => obtain ⟨n, rfl, -⟩ := of_consumer hu; cases hc'
    | producer => rfl
    | waiter =>
      rcases hboth with hnone | hnone
      · rw [hnone] at ht; cases ht
      · rw [hnone] at hu; cases hu
  | waiter =>
    cases u with
    | consumer => obtain ⟨n, rfl, -⟩ := of_consumer hu; cases hc'
    | waiter => rfl
    | producer =>
      rcases hboth with hnone | hnone
      · rw [hnone] at hu; cases hu
      · rw [hnone] at ht; cases ht

end PendingCalls

/-- What the locked body of a waiting call leaves alone, and how it ends. -/
theorem Monitor.enter_spec {ι α : Type*} [DecidableEq ι] {m m' : Monitor ι α} {t : ι}
    {call : Call} {outcome : Outcome} (henter : m.enter t call = (outcome, m')) :
    m'.scheduler = m.scheduler ∧ (∀ u, u ≠ t → m'.threads u = m.threads u) ∧
      (outcome = .returned ∧ m.attempt call = some m'.peers ∧ m'.threads t = .running ∨
        outcome = .interrupted ∧ m'.peers = m.peers ∧ m'.threads t = .running ∧
          m.scheduler.interrupted call.condition = true ∨
        outcome = .sleeping ∧ m'.peers = m.peers ∧ m'.threads t = .asleep call ∧
          call.Waits m.peers.queue ∧ m.scheduler.interrupted call.condition = false) := by
  have hcases := m.enter_cases t call
  rw [henter] at hcases
  rcases hcases with ⟨p, hp, heq⟩ | ⟨-, hflag, heq⟩ | ⟨hnone, hflag, heq⟩
  · obtain ⟨rfl, rfl⟩ := Prod.mk.inj heq
    exact ⟨rfl, fun u hu => Function.update_of_ne hu _ _,
      .inl ⟨rfl, hp, Function.update_self (f := m.threads) ..⟩⟩
  · obtain ⟨rfl, rfl⟩ := Prod.mk.inj heq
    exact ⟨rfl, fun u hu => Function.update_of_ne hu _ _,
      .inr (.inl ⟨rfl, rfl, Function.update_self (f := m.threads) .., hflag⟩)⟩
  · obtain ⟨rfl, rfl⟩ := Prod.mk.inj heq
    exact ⟨rfl, fun u hu => Function.update_of_ne hu _ _,
      .inr (.inr ⟨rfl, rfl, Function.update_self (f := m.threads) ..,
        (m.attempt_eq_none call).mp hnone, hflag⟩)⟩

/-- A thread enters the loop of a waiting call, for the first time or after a wakeup. -/
def Monitor.Ready {ι α : Type*} (m : Monitor ι α) (t : ι) (call : Call) : Prop :=
  m.threads t = .running ∨ m.threads t = .awake call

/-- A thread runs outside its waiting calls. Inside one it can take the call up again, or it
sleeps there with reason. -/
def Monitor.Inside {ι α : Type*} (m : Monitor ι α) (t : ι) : Option Call → Prop
  | none => m.threads t = .running
  | some call => m.Ready t call ∨ m.threads t = .asleep call ∧ call.Waits m.peers.queue ∧
      m.scheduler.interrupted call.condition = false

variable {α : Type u}

/-- Every thread that is not running is inside its pending call, and a sleeper has reason to
sleep. -/
structure Attended (m : Monitor QueueUser α) (c : PendingCalls) : Prop where
  awake : ∀ t call, m.threads t = .awake call → c.of t = some call
  asleep : ∀ t call, m.threads t = .asleep call →
    c.of t = some call ∧ call.Waits m.peers.queue ∧
      m.scheduler.interrupted call.condition = false

namespace Attended

variable {m m' : Monitor QueueUser α} {c : PendingCalls}

theorem start (memory : Nat → α) (capacity : Nat) (c : PendingCalls) :
    Attended (Monitor.start memory capacity) c := ⟨nofun, nofun⟩

theorem running (h : Attended m c) {t : QueueUser} (hnone : c.of t = none) :
    m.threads t = .running := by
  cases ht : m.threads t with
  | running => rfl
  | awake call => rw [h.awake t call ht] at hnone; cases hnone
  | asleep call => rw [(h.asleep t call ht).1] at hnone; cases hnone

theorem inside (h : Attended m c) {t : QueueUser} {call : Call} (hsome : c.of t = some call) :
    (m.threads t = .running ∨ m.threads t = .awake call) ∨
      m.threads t = .asleep call ∧ call.Waits m.peers.queue ∧
        m.scheduler.interrupted call.condition = false := by
  cases ht : m.threads t with
  | running => exact .inl (.inl rfl)
  | awake call' =>
    rw [h.awake t call' ht] at hsome
    obtain rfl := Option.some.inj hsome
    exact .inl (.inr rfl)
  | asleep call' =>
    obtain ⟨hpending, hwaits, hflag⟩ := h.asleep t call' ht
    rw [hpending] at hsome
    obtain rfl := Option.some.inj hsome
    exact .inr ⟨rfl, hwaits, hflag⟩

theorem inside_of (h : Attended m c) (t : QueueUser) : m.Inside t (c.of t) := by
  cases hc : c.of t with
  | none => exact h.running hc
  | some call => exact h.inside hc

private theorem repend (h : Attended m c) {c' : PendingCalls}
    (hsame : ∀ t, m.threads t ≠ .running → c'.of t = c.of t) : Attended m c' := by
  refine ⟨?_, ?_⟩
  · intro t call ht
    rw [hsame t (by rw [ht]; nofun)]
    exact h.awake t call ht
  · intro t call ht
    rw [hsame t (by rw [ht]; nofun)]
    exact h.asleep t call ht

theorem setRead (h : Attended m c) {r : Option Nat}
    (hr : m.threads .consumer = .running ∨ r = c.beginRead) :
    Attended m { c with beginRead := r } := by
  rcases hr with hrun | rfl
  · refine h.repend fun t ht => ?_
    cases t with
    | consumer => exact absurd hrun ht
    | producer => rfl
    | waiter => rfl
  · exact h

theorem setWrite (h : Attended m c) {r : Option Nat}
    (hr : m.threads .producer = .running ∨ r = c.beginWrite) :
    Attended m { c with beginWrite := r } := by
  rcases hr with hrun | rfl
  · refine h.repend fun t ht => ?_
    cases t with
    | consumer => rfl
    | producer => exact absurd hrun ht
    | waiter => rfl
  · exact h

theorem setWait (h : Attended m c) {r : Bool}
    (hr : m.threads .waiter = .running ∨ r = c.waitEmpty) :
    Attended m { c with waitEmpty := r } := by
  rcases hr with hrun | rfl
  · refine h.repend fun t ht => ?_
    cases t with
    | consumer => rfl
    | producer => rfl
    | waiter => exact absurd hrun ht
  · exact h

/-- The call a thread is inside of returns, throws or sleeps. -/
theorem enter (h : Attended m c) {t : QueueUser} {call : Call} (hcall : c.of t = some call)
    {outcome : Outcome} (henter : m.enter t call = (outcome, m')) : Attended m' c := by
  obtain ⟨hscheduler, hothers, hown⟩ := Monitor.enter_spec henter
  have hqueue : m'.peers.queue = m.peers.queue := by
    rcases hown with ⟨-, hp, -⟩ | ⟨-, hp, -⟩ | ⟨-, hp, -⟩
    · exact Monitor.attempt_queue hp
    · rw [hp]
    · rw [hp]
  refine ⟨fun u call' hu => ?_, fun u call' hu => ?_⟩
  · by_cases hut : u = t
    · subst hut
      rcases hown with ⟨-, -, hrun⟩ | ⟨-, -, hrun, -⟩ | ⟨-, -, hasleep, -⟩
      · rw [hrun] at hu; cases hu
      · rw [hrun] at hu; cases hu
      · rw [hasleep] at hu; cases hu
    · exact h.awake u call' (hothers u hut ▸ hu)
  · rw [hqueue, hscheduler]
    by_cases hut : u = t
    · subst hut
      rcases hown with ⟨-, -, hrun⟩ | ⟨-, -, hrun, -⟩ | ⟨-, -, hasleep, hwaits, hflag⟩
      · rw [hrun] at hu; cases hu
      · rw [hrun] at hu; cases hu
      · rw [hasleep] at hu
        obtain rfl := ThreadStatus.asleep.inj hu
        exact ⟨hcall, hwaits, hflag⟩
    · exact h.asleep u call' (hothers u hut ▸ hu)

private theorem signal (h : Attended m c) {cond : Condition} {threads : QueueUser → ThreadStatus}
    (hsignal : Signal cond m.threads threads) {p : PeerState α} {scheduler : PthreadScheduler}
    (hother : ∀ t call, threads t = .asleep call → c.of t = some call →
      call.Waits m.peers.queue → m.scheduler.interrupted call.condition = false →
        call.Waits p.queue ∧ scheduler.interrupted call.condition = false) :
    Attended { peers := p, scheduler := scheduler, threads := threads } c := by
  refine ⟨?_, ?_⟩
  · intro t call ht
    rcases hsignal.waits_of_awake ht with hold | hold
    · exact h.awake t call hold
    · exact (h.asleep t call hold).1
  · intro t call ht
    obtain ⟨hpending, hwaits, hflag⟩ := h.asleep t call (hsignal.asleep_of_asleep ht)
    exact ⟨hpending, hother t call ht hpending hwaits hflag⟩

private theorem no_reader (h : Attended m c) {threads : QueueUser → ThreadStatus}
    (hsignal : Signal .notEmpty m.threads threads) {t : QueueUser} {call : Call}
    (ht : threads t = .asleep call) : call.condition ≠ .notEmpty :=
  hsignal.no_sleeper .consumer
    (fun u _ hu hc => PendingCalls.of_notEmpty (h.asleep u _ hu).1 hc) ht

private theorem no_writer (h : Attended m c) (hapart : c.Apart) {threads : QueueUser → ThreadStatus}
    (hsignal : Signal .notFull m.threads threads) {t : QueueUser} {call : Call}
    (ht : threads t = .asleep call) : call.condition ≠ .notFull := by
  intro hc
  have hold := (h.asleep t call (hsignal.asleep_of_asleep ht)).1
  exact hsignal.no_sleeper t
    (fun u _ hu hcu => PendingCalls.of_notFull hapart (h.asleep u _ hu).1 hcu hold hc) ht hc

theorem store (h : Attended m c) {t : QueueUser} {i : Nat} {v : α}
    (hs : m.Step (.store t i v) m') : Attended m' c := by
  cases hs with
  | store _ hp => obtain rfl := Option.some.inj hp; exact ⟨h.awake, h.asleep⟩

theorem load (h : Attended m c) {t : QueueUser} {i : Nat} (hs : m.Step (.load t i) m') :
    Attended m' c := by
  cases hs with
  | load _ hp => obtain rfl := Option.some.inj hp; exact ⟨h.awake, h.asleep⟩

theorem endWrite (h : Attended m c) {count : Nat} (hs : m.Step (.endWrite .producer count) m') :
    Attended m' c := by
  cases hs with
  | endWrite hrun hp hsignal =>
    obtain rfl := Option.some.inj hp
    refine h.signal hsignal fun t call ht hpending hwaits hflag => ⟨?_, hflag⟩
    cases t with
    | producer =>
      rw [hsignal.running hrun] at ht
      cases ht
    | consumer =>
      obtain ⟨n, rfl, -⟩ := PendingCalls.of_consumer hpending
      exact absurd rfl (h.no_reader hsignal ht)
    | waiter =>
      obtain ⟨rfl, -⟩ := PendingCalls.of_waiter hpending
      simp only [Call.Waits, FixedMemoryQueue.empty, FixedMemoryQueue.size,
        FixedMemoryQueue.endWrite, beq_eq_false_iff_ne] at hwaits ⊢
      omega

theorem endRead (h : Attended m c) (hapart : c.Apart) {count : Nat}
    (hs : m.Step (.endRead .consumer count) m') : Attended m' c := by
  cases hs with
  | endRead hrun hp hsignal =>
    obtain rfl := Option.some.inj hp
    refine h.signal hsignal fun t call ht hpending _ _ => ?_
    cases t with
    | consumer =>
      rw [hsignal.running hrun] at ht
      cases ht
    | producer =>
      obtain ⟨n, rfl, -⟩ := PendingCalls.of_producer hpending
      exact absurd rfl (h.no_writer hapart hsignal ht)
    | waiter =>
      obtain ⟨rfl, -⟩ := PendingCalls.of_waiter hpending
      exact absurd rfl (h.no_writer hapart hsignal ht)

theorem interruptRead (h : Attended m c) (hs : m.Step .interruptRead m') : Attended m' c := by
  cases hs with
  | interruptRead hsignal =>
    refine h.signal hsignal fun t call ht _ hwaits hflag => ⟨hwaits, ?_⟩
    rw [PthreadScheduler.interruptNotEmpty,
      PthreadScheduler.interrupted_setInterrupted_of_ne (h.no_reader hsignal ht)]
    exact hflag

theorem interruptWrite (h : Attended m c) (hapart : c.Apart) (hs : m.Step .interruptWrite m') :
    Attended m' c := by
  cases hs with
  | interruptWrite hsignal =>
    refine h.signal hsignal fun t call ht _ hwaits hflag => ⟨hwaits, ?_⟩
    rw [PthreadScheduler.interruptNotFull,
      PthreadScheduler.interrupted_setInterrupted_of_ne (h.no_writer hapart hsignal ht)]
    exact hflag

theorem spurious (h : Attended m c) {t : QueueUser} (hs : m.Step (.spurious t) m') :
    Attended m' c := by
  cases hs with
  | spurious hasleep =>
    refine ⟨fun u call' hu => ?_, fun u call' hu => ?_⟩
    · rcases status_update hu with ⟨rfl, hnew⟩ | hu
      · obtain rfl := ThreadStatus.awake.inj hnew
        exact (h.asleep u _ hasleep).1
      · exact h.awake u call' hu
    · rcases status_update hu with ⟨-, hnew⟩ | hu
      · cases hnew
      · exact h.asleep u call' hu

end Attended

end Dyplo
