import Dyplo.Scheduler.PthreadScheduler

/-!
# `wait_empty` beside a producer

Producers and `wait_empty` callers sleep on `m_condition_not_full` with different predicates, and
`end_read` wakes one of them. The producer keeps its wakeups as long as the room it waits for is
not announced to the other sleeper.
-/

namespace Dyplo

/-- The threads of a queue that somebody waits to see empty. -/
inductive QueueUser
  | producer
  | consumer
  | waiter
  deriving DecidableEq

variable {α : Type*}

/-- Each thread makes its own calls; interrupts, resumes and spurious wakeups are free. -/
def UserMayTake (capacity : Nat) : MonitorAction QueueUser α → Prop
  | .call .producer (.beginWrite n) => n ≤ capacity
  | .call .consumer (.beginRead _) => True
  | .call .waiter .waitEmpty => True
  | .call _ _ => False
  | .store t _ _ => t = .producer
  | .endWrite t _ => t = .producer
  | .load t _ => t = .consumer
  | .endRead t _ => t = .consumer
  | _ => True

/-- A producer, a consumer and a caller of `wait_empty` on a
`FixedMemoryQueue<PthreadScheduler>`. -/
def queueUsers (α : Type*) (capacity : Nat) :
    TransitionSystem (Monitor QueueUser α) (MonitorAction QueueUser α) where
  init m := ∃ memory, m = .start memory capacity
  step m a m' := UserMayTake capacity a ∧ m.Step a m'

/-- The producer sleeps beside enough room and nobody is left to wake it. -/
def Starved (m : Monitor QueueUser α) : Prop :=
  (∃ n, m.threads .producer = .asleep (.beginWrite n) ∧ n ≤ m.peers.queue.available) ∧
    (∃ n, m.threads .consumer = .asleep (.beginRead n)) ∧
    (m.threads .waiter = .asleep .waitEmpty ∨ m.threads .waiter = .running)

/-- An `end_read` that makes the room a sleeping producer waits for does not spend its signal on
a sleeping `wait_empty`. -/
def SparesProducer (m : Monitor QueueUser α) (a : MonitorAction QueueUser α)
    (m' : Monitor QueueUser α) : Prop :=
  ∀ count n, a = .endRead .consumer count → m.threads .producer = .asleep (.beginWrite n) →
    n ≤ (m.peers.queue.endRead count).available → m.threads .waiter = .asleep .waitEmpty →
    m'.threads .waiter = .asleep .waitEmpty

/-- The calls a thread waits in. -/
def QueueUser.Calls : QueueUser → Call → Prop
  | .producer, .beginWrite _ => True
  | .consumer, .beginRead _ => True
  | .waiter, .waitEmpty => True
  | _, _ => False

/-- Threads wait in their own calls only, and a sleeping producer still has to wait. -/
structure UserInv (m : Monitor QueueUser α) : Prop where
  awake : ∀ t call, m.threads t = .awake call → t.Calls call
  asleep : ∀ t call, m.threads t = .asleep call → t.Calls call
  producer : ∀ n, m.threads .producer = .asleep (.beginWrite n) → m.peers.queue.available < n

namespace UserInv

variable {m : Monitor QueueUser α}

private theorem update (h : UserInv m) {p : PeerState α} (hp : p.queue = m.peers.queue)
    {t : QueueUser}
    {status : ThreadStatus}
    (hcalls : ∀ call, status = .awake call ∨ status = .asleep call → t.Calls call)
    (hproducer : ∀ n, t = .producer → status = .asleep (.beginWrite n) →
      m.peers.queue.available < n) :
    UserInv { m with peers := p, threads := Function.update m.threads t status } := by
  constructor
  · intro u call hu
    change Function.update m.threads t status u = .awake call at hu
    rcases status_update hu with ⟨rfl, hstatus⟩ | hu
    · exact hcalls call (.inl hstatus)
    · exact h.awake u call hu
  · intro u call hu
    change Function.update m.threads t status u = .asleep call at hu
    rcases status_update hu with ⟨rfl, hstatus⟩ | hu
    · exact hcalls call (.inr hstatus)
    · exact h.asleep u call hu
  · intro n hn
    change Function.update m.threads t status .producer = .asleep (.beginWrite n) at hn
    change p.queue.available < n
    rw [hp]
    rcases status_update hn with ⟨rfl, hstatus⟩ | hn
    · exact hproducer n rfl hstatus
    · exact h.producer n hn

private theorem enter (h : UserInv m) {t : QueueUser} {call : Call} (hcall : t.Calls call) :
    UserInv (m.enter t call).2 := by
  rcases m.enter_cases t call with ⟨p, hp, heq⟩ | ⟨-, -, heq⟩ | ⟨hnone, -, heq⟩
  · rw [heq]
    refine h.update (Monitor.attempt_queue hp) ?_ ?_
    · rintro c (hc | hc) <;> cases hc
    · intro n _ hn; cases hn
  · rw [heq]
    refine h.update rfl ?_ ?_
    · rintro c (hc | hc) <;> cases hc
    · intro n _ hn; cases hn
  · rw [heq]
    refine h.update rfl ?_ ?_
    · rintro c (hc | hc)
      · cases hc
      · obtain rfl := ThreadStatus.asleep.inj hc
        exact hcall
    · intro n _ hn
      obtain rfl := ThreadStatus.asleep.inj hn
      exact (m.attempt_eq_none (.beginWrite n)).mp hnone

private theorem signal (h : UserInv m) {c : Condition} {threads : QueueUser → ThreadStatus}
    (hsignal : Signal c m.threads threads) {p : PeerState α} (scheduler : PthreadScheduler)
    (hproducer : ∀ n, threads .producer = .asleep (.beginWrite n) → p.queue.available < n) :
    UserInv { peers := p, scheduler := scheduler, threads := threads } := by
  refine ⟨?_, ?_, hproducer⟩
  · intro u call hu
    exact (hsignal.waits_of_awake hu).elim (h.awake u call) (h.asleep u call)
  · intro u call hu
    exact h.asleep u call (hsignal.asleep_of_asleep hu)

private theorem signal_same (h : UserInv m) {c : Condition} {threads : QueueUser → ThreadStatus}
    (hsignal : Signal c m.threads threads) (scheduler : PthreadScheduler) :
    UserInv { m with scheduler := scheduler, threads := threads } :=
  h.signal hsignal scheduler fun n hn => h.producer n (hsignal.asleep_of_asleep hn)

/-- The signal of an `end_read` with enough room for the sleeping producer wakes it, since it
does not go to `wait_empty`. -/
theorem endRead (h : UserInv m) {count : Nat} {p : PeerState α}
    {threads : QueueUser → ThreadStatus} (hp : m.peers.next (.endRead count) = some p)
    (hsignal : Signal .notFull m.threads threads)
    (hspares : SparesProducer m (.endRead .consumer count)
      { m with peers := p, threads := threads }) :
    UserInv { m with peers := p, threads := threads } := by
  obtain rfl := Option.some.inj hp
  apply h.signal hsignal
  intro n hn
  change (m.peers.queue.endRead count).available < n
  have hold := hsignal.asleep_of_asleep hn
  by_contra hroom
  cases hsignal with
  | nobody hnone => exact hnone .producer _ hold rfl
  | @wake v woken hv hc =>
    cases v with
    | producer => rw [Function.update_self] at hn; cases hn
    | consumer =>
      have hcall := h.asleep .consumer woken hv
      cases woken with
      | beginRead k => cases hc
      | _ => exact hcall
    | waiter =>
      have hcall := h.asleep .waiter woken hv
      cases woken with
      | waitEmpty =>
        have hasleep := hspares count n rfl hold (Nat.le_of_not_lt hroom) hv
        change Function.update m.threads .waiter _ .waiter = _ at hasleep
        rw [Function.update_self] at hasleep
        cases hasleep
      | _ => exact hcall

private theorem step (h : UserInv m) {capacity : Nat} {a : MonitorAction QueueUser α}
    {m' : Monitor QueueUser α} (hmay : UserMayTake capacity a) (hs : m.Step a m')
    (hspares : SparesProducer m a m') : UserInv m' := by
  cases hs with
  | @call t call hrun =>
    apply h.enter
    cases t <;> cases call <;> trivial
  | @again t call hawake => exact h.enter (h.awake t call hawake)
  | @spurious t call hasleep =>
    refine h.update rfl ?_ ?_
    · rintro c (hc | hc)
      · obtain rfl := ThreadStatus.awake.inj hc
        exact h.asleep t call hasleep
      · cases hc
    · intro n _ hn; cases hn
  | store hrun hp => obtain rfl := Option.some.inj hp; exact ⟨h.awake, h.asleep, h.producer⟩
  | load hrun hp => obtain rfl := Option.some.inj hp; exact ⟨h.awake, h.asleep, h.producer⟩
  | @endWrite t count p threads hrun hp hsignal =>
    obtain rfl : t = .producer := hmay
    apply h.signal hsignal
    intro n hn
    -- the producer itself is the one that commits
    rw [hsignal.asleep_of_asleep hn] at hrun
    cases hrun
  | @endRead t count p threads hrun hp hsignal =>
    obtain rfl : t = .consumer := hmay
    exact h.endRead hp hsignal hspares
  | interruptRead hsignal => exact h.signal_same hsignal _
  | interruptWrite hsignal => exact h.signal_same hsignal _
  | resumeRead hsignal => exact h.signal_same hsignal _
  | resumeWrite hsignal => exact h.signal_same hsignal _

end UserInv

/-- As long as no `end_read` announces the producer's room to `wait_empty`, a sleeping producer
still has to wait; in particular it never starves beside room. -/
theorem waitEmpty_spares_producer (capacity : Nat) (m : Monitor QueueUser α)
    (h : ((queueUsers α capacity).restrict SparesProducer).Reachable m) :
    (∀ n, m.threads .producer = .asleep (.beginWrite n) → m.peers.queue.available < n) ∧
      ¬ Starved m := by
  have hinv : UserInv m := by
    apply h.restrict_invariant (I := UserInv)
    · rintro m ⟨memory, rfl⟩
      exact ⟨nofun, nofun, nofun⟩
    · rintro m a m' hinv ⟨hmay, hs⟩ hspares
      exact hinv.step hmay hs hspares
  refine ⟨hinv.producer, ?_⟩
  rintro ⟨⟨n, hn, hroom⟩, -⟩
  exact absurd (hinv.producer n hn) (by omega)

section Runs

open MonitorAction QueueUser

/-- A producer that found its queue of one element full. -/
theorem waitEmpty_spares_producer_full :
    ∃ m : Monitor QueueUser Nat, m.threads .producer = .asleep (.beginWrite 1) ∧
      (∀ n, m.threads .producer = .asleep (.beginWrite n) → m.peers.queue.available < n) ∧
        ¬ Starved m := by
  have hstart : ((queueUsers Nat 1).restrict SparesProducer).Reachable
      (.start (fun _ => 0) 1) := .init ⟨_, rfl⟩
  have hroom := hstart.step (a := call producer (.beginWrite 1))
    ⟨⟨Nat.le_refl 1, .call rfl⟩, by intro count n ha; cases ha⟩
  have hfull := hroom.step (a := endWrite producer 1)
    ⟨⟨rfl, .endWrite rfl rfl (.nobody (by intro t call h; cases t <;> cases h))⟩,
      by intro count n ha; cases ha⟩
  have hsleep := hfull.step (a := call producer (.beginWrite 1))
    ⟨⟨Nat.le_refl 1, .call rfl⟩, by intro count n ha; cases ha⟩
  exact ⟨_, rfl, waitEmpty_spares_producer 1 _ hsleep⟩

/-- The signal of the `end_read` that empties the queue goes to `wait_empty`, which returns; the
producer sleeps on beside an empty queue. -/
theorem waitEmpty_starves_producer :
    ∃ m, (queueUsers Nat 1).Reachable m ∧ Starved m := by
  have hstart : (queueUsers Nat 1).Reachable (.start (fun _ => 0) 1) := .init ⟨_, rfl⟩
  have hroom := hstart.step (a := call producer (.beginWrite 1))
    ⟨Nat.le_refl 1, .call rfl⟩
  have hfull := hroom.step (a := endWrite producer 1)
    ⟨rfl, .endWrite rfl rfl (.nobody (by intro t call h; cases t <;> cases h))⟩
  have hproducer := hfull.step (a := call producer (.beginWrite 1))
    ⟨Nat.le_refl 1, .call rfl⟩
  have hwaiter := hproducer.step (a := call waiter .waitEmpty) ⟨trivial, .call rfl⟩
  have hread := hwaiter.step (a := call consumer (.beginRead 1)) ⟨trivial, .call rfl⟩
  have hempty := hread.step (a := endRead consumer 1)
    ⟨rfl, .endRead rfl rfl (.wake (t := .waiter) rfl rfl)⟩
  have hreturned := hempty.step (a := again waiter) ⟨trivial, .again rfl⟩
  have hconsumer := hreturned.step (a := call consumer (.beginRead 1)) ⟨trivial, .call rfl⟩
  exact ⟨_, hconsumer, ⟨1, rfl, by decide⟩, ⟨1, rfl⟩, .inr rfl⟩

end Runs

end Dyplo
