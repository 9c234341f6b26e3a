import Dyplo.Queue.SingleElementQueue
import Dyplo.Scheduler.Wakeup

/-!
# `clear()` beside a sleeping producer

`clear()` makes room and signals nobody. A producer that sleeps for that room goes on sleeping;
whoever sleeps in any other interleaving has reason to.
-/

namespace Dyplo

/-- What the two queue templates have in common: their locked bodies without the scheduler. -/
structure QueueImpl (Q : Type*) where
  clear : Q → Q
  empty : Q → Bool
  /-- The count of `begin_write`, unless it has to wait. -/
  beginWrite : Q → Nat → Option Nat
  /-- `end_write` before it signals; no result where it does nothing and signals nobody. -/
  endWrite : Q → Nat → Option Q
  beginRead : Q → Nat → Option Nat
  endRead : Q → Nat → Option Q
  /-- Whether there is a `resume_read` and a `resume_write`. -/
  resumes : Bool

def FixedMemoryQueue.impl (α : Type*) : QueueImpl (FixedMemoryQueue α) where
  clear := clear
  empty := empty
  beginWrite q countMin := (q.beginWrite countMin).map Prod.snd
  endWrite q count := some (q.endWrite count)
  beginRead q countMin := (q.beginRead countMin).map Prod.snd
  endRead q count := some (q.endRead count)
  resumes := true

def SingleElementQueue.impl (α : Type*) : QueueImpl (SingleElementQueue α) where
  clear := clear
  empty := empty
  beginWrite := beginWrite
  endWrite := endWrite
  beginRead := beginRead
  endRead := endRead
  resumes := false

/-- A queue with its scheduler and its two peers. What is left of the peers' grants is with them;
their stores and loads touch nothing that a wait looks at. -/
structure ClearMonitor (Q : Type*) where
  queue : Q
  writeGrant : Nat
  readGrant : Nat
  scheduler : PthreadScheduler
  threads : Side → ThreadStatus

/-- The calls a peer makes, with any count. -/
def Side.MayCall : Side → Call → Prop
  | .producer, .beginWrite _ => True
  | .consumer, .beginRead _ => True
  | _, _ => False

private theorem Side.MayCall.condition {t : Side} {call : Call} (h : t.MayCall call) :
    call.condition = t.condition := by
  cases t <;> cases call <;> first | rfl | exact h.elim

inductive ClearAction
  | call (t : Side) (call : Call)
  | again (t : Side)
  | spurious (t : Side)
  | endWrite (count : Nat)
  | endRead (count : Nat)
  /-- `clear()`, by a thread of its own. -/
  | clear
  | interruptRead
  | interruptWrite
  | resumeRead
  | resumeWrite

variable {Q : Type*} (impl : QueueImpl Q)

/-- The loop condition of a waiting call: the count when it holds. -/
def QueueImpl.attempt (q : Q) : Call → Option Nat
  | .beginWrite countMin => impl.beginWrite q countMin
  | .beginRead countMin => impl.beginRead q countMin
  | .waitEmpty => if impl.empty q then some 0 else none

namespace ClearMonitor

def start (q : Q) : ClearMonitor Q :=
  { queue := q, writeGrant := 0, readGrant := 0, scheduler := .new, threads := fun _ => .running }

/-- A call returns with a grant. -/
def granted (m : ClearMonitor Q) (t : Side) (call : Call) (count : Nat) : ClearMonitor Q :=
  { m with
    writeGrant := if call.condition = .notFull then count else m.writeGrant
    readGrant := if call.condition = .notEmpty then count else m.readGrant
    threads := Function.update m.threads t .running }

/-- The locked body of a waiting call, up to its return, its exception or its wait. -/
def enter (m : ClearMonitor Q) (t : Side) (call : Call) : ClearMonitor Q :=
  match impl.attempt m.queue call with
  | some count => m.granted t call count
  | none =>
      if m.scheduler.interrupted call.condition then
        { m with threads := Function.update m.threads t .running }
      else { m with threads := Function.update m.threads t (.asleep call) }

/-- The atomic steps. `clear()` is called when no grant is outstanding: what the peers have not
used of theirs they have given up. -/
inductive Step (m : ClearMonitor Q) : ClearAction → ClearMonitor Q → Prop
  | call {t : Side} {call : Call} : m.threads t = .running → t.MayCall call →
      Step m (.call t call) (m.enter impl t call)
  | again {t : Side} {call : Call} : m.threads t = .awake call →
      Step m (.again t) (m.enter impl t call)
  | spurious {t : Side} {call : Call} : m.threads t = .asleep call →
      Step m (.spurious t) { m with threads := Function.update m.threads t (.awake call) }
  | endWrite {count : Nat} {q : Q} {threads : Side → ThreadStatus} :
      m.threads .producer = .running → count ≤ m.writeGrant →
      impl.endWrite m.queue count = some q → Signal .notEmpty m.threads threads →
      Step m (.endWrite count)
        { m with queue := q, writeGrant := m.writeGrant - count, threads := threads }
  | endWriteNone {count : Nat} : m.threads .producer = .running →
      impl.endWrite m.queue count = none → Step m (.endWrite count) m
  | endRead {count : Nat} {q : Q} {threads : Side → ThreadStatus} :
      m.threads .consumer = .running → count ≤ m.readGrant →
      impl.endRead m.queue count = some q → Signal .notFull m.threads threads →
      Step m (.endRead count)
        { m with queue := q, readGrant := m.readGrant - count, threads := threads }
  | endReadNone {count : Nat} : m.threads .consumer = .running →
      impl.endRead m.queue count = none → Step m (.endRead count) m
  | clear : Step m .clear { m with queue := impl.clear m.queue, writeGrant := 0, readGrant := 0 }
  | interruptRead {threads : Side → ThreadStatus} : Signal .notEmpty m.threads threads →
      Step m .interruptRead
        { m with scheduler := m.scheduler.interruptNotEmpty, threads := threads }
  | interruptWrite {threads : Side → ThreadStatus} : Signal .notFull m.threads threads →
      Step m .interruptWrite
        { m with scheduler := m.scheduler.interruptNotFull, threads := threads }
  | resumeRead {threads : Side → ThreadStatus} : impl.resumes = true →
      Signal .notEmpty m.threads threads →
      Step m .resumeRead { m with scheduler := m.scheduler.resumeNotEmpty, threads := threads }
  | resumeWrite {threads : Side → ThreadStatus} : impl.resumes = true →
      Signal .notFull m.threads threads →
      Step m .resumeWrite { m with scheduler := m.scheduler.resumeNotFull, threads := threads }

/-- No thread sleeps in a call that would return by now. -/
def NobodyStarves (m : ClearMonitor Q) : Prop :=
  ∀ t call, m.threads t = .asleep call → impl.attempt m.queue call = none

/-- The producer sleeps in a `begin_write` that fits the empty queue. -/
def ProducerSleeps (fits : Q → Nat → Prop) (m : ClearMonitor Q) : Prop :=
  ∃ n, m.threads .producer = .asleep (.beginWrite n) ∧ fits m.queue n

end ClearMonitor

/-- A producer, a consumer, a thread that calls `clear()` and a controller on one queue. -/
def clearedQueue (init : Q → Prop) : TransitionSystem (ClearMonitor Q) ClearAction where
  init m := ∃ q, init q ∧ m = .start q
  step m a m' := m.Step impl a m'

/-- `clear()` is not called while the producer sleeps for room that it would make. -/
def ClearSparesProducer (fits : Q → Nat → Prop) (m : ClearMonitor Q) (a : ClearAction)
    (_ : ClearMonitor Q) : Prop :=
  a = .clear → ¬ m.ProducerSleeps fits

/-- What `clear()` does to the waits: the readers' stay, and so do those of the writers that do
not fit. -/
structure QueueImpl.Clears (fits : Q → Nat → Prop) : Prop where
  beginRead : ∀ q n, impl.beginRead q n = none → impl.beginRead (impl.clear q) n = none
  beginWrite : ∀ q n, impl.beginWrite q n = none →
    (impl.beginWrite (impl.clear q) n = none ↔ ¬ fits q n)

/-- The peers wait in their own calls only, and whoever sleeps still has to. -/
structure ClearInv (m : ClearMonitor Q) : Prop where
  awake : ∀ t call, m.threads t = .awake call → t.MayCall call
  asleep : ∀ t call, m.threads t = .asleep call → t.MayCall call
  waits : m.NobodyStarves impl

namespace ClearInv

variable {impl} {m : ClearMonitor Q}

private theorem only_sleeper (h : ClearInv impl m) (t : Side) {u : Side} {call : Call}
    (hu : m.threads u = .asleep call) (hc : call.condition = t.condition) : u = t := by
  rw [(h.asleep u call hu).condition] at hc
  cases t <;> cases u <;> first | rfl | cases hc

private theorem update (h : ClearInv impl m) {m' : ClearMonitor Q} {t : Side}
    (status : ThreadStatus)
    (hqueue : m'.queue = m.queue) (hthreads : m'.threads = Function.update m.threads t status)
    (hcalls : ∀ call, status = .awake call ∨ status = .asleep call → t.MayCall call)
    (hwaits : ∀ call, status = .asleep call → impl.attempt m.queue call = none) :
    ClearInv impl m' := by
  constructor
  · intro u call hu
    rw [hthreads] at hu
    rcases status_update hu with ⟨rfl, hstatus⟩ | hu
    · exact hcalls call (.inl hstatus)
    · exact h.awake u call hu
  · intro u call hu
    rw [hthreads] at hu
    rcases status_update hu with ⟨rfl, hstatus⟩ | hu
    · exact hcalls call (.inr hstatus)
    · exact h.asleep u call hu
  · intro u call hu
    rw [hthreads] at hu
    rw [hqueue]
    rcases status_update hu with ⟨rfl, hstatus⟩ | hu
    · exact hwaits call hstatus
    · exact h.waits u call hu

private theorem enter (h : ClearInv impl m) {t : Side} {call : Call} (hcall : t.MayCall call) :
    ClearInv impl (m.enter impl t call) := by
  unfold ClearMonitor.enter
  cases hattempt : impl.attempt m.queue call with
  | some count =>
    refine h.update .running rfl rfl ?_ ?_
    · rintro c (hc | hc) <;> cases hc
    · intro c hc; cases hc
  | none =>
    simp only
    split_ifs
    · refine h.update .running rfl rfl ?_ ?_
      · rintro c (hc | hc) <;> cases hc
      · intro c hc; cases hc
    · refine h.update (.asleep call) rfl rfl ?_ ?_
      · rintro c (hc | hc) <;> cases hc
        exact hcall
      · intro c hc
        obtain rfl := ThreadStatus.asleep.inj hc
        exact hattempt

private theorem signal (h : ClearInv impl m) {c : Condition} {m' : ClearMonitor Q}
    (hsignal : Signal c m.threads m'.threads) (hwaits : m'.NobodyStarves impl) :
    ClearInv impl m' := by
  refine ⟨?_, ?_, hwaits⟩
  · intro u call hu
    exact (hsignal.waits_of_awake hu).elim (h.awake u call) (h.asleep u call)
  · intro u call hu
    exact h.asleep u call (hsignal.asleep_of_asleep hu)

private theorem signal_same (h : ClearInv impl m) {c : Condition} {m' : ClearMonitor Q}
    (hsignal : Signal c m.threads m'.threads) (hqueue : m'.queue = m.queue) :
    ClearInv impl m' := by
  apply h.signal hsignal
  intro u call hu
  rw [hqueue]
  exact h.waits u call (hsignal.asleep_of_asleep hu)

/-- The peer that commits or releases is running, and the other one is signalled: afterwards
nobody sleeps. -/
theorem transfer (h : ClearInv impl m) {t u : Side} (htu : t ≠ u)
    (hrun : m.threads u = .running) {m' : ClearMonitor Q}
    (hsignal : Signal t.condition m.threads m'.threads) : ClearInv impl m' := by
  apply h.signal hsignal
  intro v call hv
  have hold := hsignal.asleep_of_asleep hv
  have hvu : v ≠ u := by
    rintro rfl
    rw [hrun] at hold
    cases hold
  have hvt : v = t := by
    cases t <;> cases u <;> cases v <;> first | rfl | exact absurd rfl htu | exact absurd rfl hvu
  have hawake := hsignal.no_sleeper t (fun w c hw hc => h.only_sleeper t hw hc) hv
  exact absurd (hvt ▸ (h.asleep v call hold).condition) hawake

private theorem clear_iff (h : ClearInv impl m) {fits : Q → Nat → Prop} (hclears : impl.Clears fits)
    {m' : ClearMonitor Q} (hs : m.Step impl .clear m') :
    m'.NobodyStarves impl ↔ ¬ m.ProducerSleeps fits := by
  cases hs
  constructor
  · rintro hnobody ⟨n, hn, hfits⟩
    have hwaits : impl.beginWrite m.queue n = none := h.waits .producer _ hn
    exact (hclears.beginWrite m.queue n hwaits).mp (hnobody .producer _ hn) hfits
  · intro hspared t call ht
    change m.threads t = .asleep call at ht
    have hwaits := h.waits t call ht
    have hcall := h.asleep t call ht
    cases t with
    | producer =>
      cases call with
      | beginWrite n =>
        exact (hclears.beginWrite m.queue n hwaits).mpr fun hfits => hspared ⟨n, ht, hfits⟩
      | _ => exact hcall.elim
    | consumer =>
      cases call with
      | beginRead n => exact hclears.beginRead m.queue n hwaits
      | _ => exact hcall.elim

private theorem step (h : ClearInv impl m) {fits : Q → Nat → Prop} (hclears : impl.Clears fits)
    {a : ClearAction} {m' : ClearMonitor Q} (hs : m.Step impl a m')
    (hspares : ClearSparesProducer fits m a m') : ClearInv impl m' := by
  cases hs with
  | call hrun hcall => exact h.enter hcall
  | again hawake => exact h.enter (h.awake _ _ hawake)
  | @spurious t call hasleep =>
    refine h.update (.awake call) rfl rfl ?_ ?_
    · rintro c (hc | hc) <;> cases hc
      exact h.asleep t call hasleep
    · intro c hc; cases hc
  | endWrite hrun _ _ hsignal =>
    exact h.transfer (t := .consumer) (u := .producer) (by decide) hrun hsignal
  | endWriteNone => exact h
  | endRead hrun _ _ hsignal =>
    exact h.transfer (t := .producer) (u := .consumer) (by decide) hrun hsignal
  | endReadNone => exact h
  | clear => exact ⟨h.awake, h.asleep, (h.clear_iff hclears .clear).mpr (hspares rfl)⟩
  | interruptRead hsignal => exact h.signal_same hsignal rfl
  | interruptWrite hsignal => exact h.signal_same hsignal rfl
  | resumeRead _ hsignal => exact h.signal_same hsignal rfl
  | resumeWrite _ hsignal => exact h.signal_same hsignal rfl

end ClearInv

private theorem clearedQueue_invariant {impl} {init : Q → Prop} {fits : Q → Nat → Prop}
    (hclears : impl.Clears fits) {m : ClearMonitor Q}
    (h : ((clearedQueue impl init).restrict (ClearSparesProducer fits)).Reachable m) :
    ClearInv impl m := by
  apply h.restrict_invariant (I := ClearInv impl)
  · rintro m ⟨q, -, rfl⟩
    exact ⟨nofun, nofun, nofun⟩
  · intro m a m' hinv hs hspares
    exact hinv.step hclears hs hspares

variable (α : Type*)

private theorem FixedMemoryQueue.impl_beginWrite_eq_none (q : FixedMemoryQueue α) (n : Nat) :
    (FixedMemoryQueue.impl α).beginWrite q n = none ↔ q.available < n :=
  Option.map_eq_none_iff.trans beginWrite_eq_none

private theorem FixedMemoryQueue.impl_beginRead_eq_none (q : FixedMemoryQueue α) (n : Nat) :
    (FixedMemoryQueue.impl α).beginRead q n = none ↔ q.size < n :=
  Option.map_eq_none_iff.trans beginRead_eq_none

private theorem FixedMemoryQueue.impl_clears :
    (FixedMemoryQueue.impl α).Clears fun q n => n ≤ q.capacity where
  beginRead q n h := by
    rw [impl_beginRead_eq_none] at h ⊢
    exact Nat.lt_of_le_of_lt (Nat.zero_le _) h
  beginWrite q n _ := by
    rw [impl_beginWrite_eq_none]
    exact Nat.not_le.symm

/-- What the peers may still commit and release is there. -/
structure GrantsFit {α : Type*} (m : ClearMonitor (FixedMemoryQueue α)) : Prop where
  wellFormed : m.queue.WellFormed
  write : m.writeGrant ≤ m.queue.writeRun
  read : m.readGrant ≤ m.queue.readRun

namespace GrantsFit

variable {α} {m : ClearMonitor (FixedMemoryQueue α)}

private theorem enter (h : GrantsFit m) (t : Side) (call : Call) :
    GrantsFit (m.enter (FixedMemoryQueue.impl α) t call) := by
  unfold ClearMonitor.enter
  cases hattempt : (FixedMemoryQueue.impl α).attempt m.queue call with
  | none => simp only; split_ifs <;> exact ⟨h.wellFormed, h.write, h.read⟩
  | some count =>
    cases call with
    | beginWrite n =>
      obtain ⟨g, hg, rfl⟩ := Option.map_eq_some_iff.mp hattempt
      obtain ⟨-, -, hcount⟩ := FixedMemoryQueue.beginWrite_eq_some.mp hg
      exact ⟨h.wellFormed, Nat.le_of_eq hcount, h.read⟩
    | beginRead n =>
      obtain ⟨g, hg, rfl⟩ := Option.map_eq_some_iff.mp hattempt
      obtain ⟨-, -, hcount⟩ := FixedMemoryQueue.beginRead_eq_some.mp hg
      exact ⟨h.wellFormed, h.write, Nat.le_of_eq hcount⟩
    | waitEmpty =>
      change (if m.queue.empty = true then some 0 else none) = some count at hattempt
      split_ifs at hattempt
      obtain rfl := Option.some.inj hattempt
      exact ⟨h.wellFormed, Nat.zero_le _, h.read⟩

private theorem endWrite (h : GrantsFit m) {count : Nat} (hcount : count ≤ m.writeGrant) :
    m.writeGrant - count ≤ (m.queue.endWrite count).writeRun := by
  have hwrite := h.write
  by_cases hall : count < m.queue.writeRun
  · rw [(h.wellFormed.endWrite_run hall).2]
    omega
  · omega

private theorem endRead (h : GrantsFit m) {count : Nat} (hcount : count ≤ m.readGrant) :
    m.readGrant - count ≤ (m.queue.endRead count).readRun := by
  have hread := h.read
  by_cases hall : count < m.queue.readRun
  · rw [(h.wellFormed.endRead_run hall).2]
    omega
  · omega

private theorem step (h : GrantsFit m) {a : ClearAction} {m' : ClearMonitor (FixedMemoryQueue α)}
    (hs : m.Step (FixedMemoryQueue.impl α) a m') : GrantsFit m' := by
  have hwrite := h.write
  have hread := h.read
  cases hs with
  | call => exact h.enter _ _
  | again => exact h.enter _ _
  | endWrite _ hcount hq =>
    obtain rfl := Option.some.inj hq
    have hle := hcount.trans hwrite
    exact ⟨h.wellFormed.endWrite hle, h.endWrite hcount,
      hread.trans (h.wellFormed.readRun_endWrite hle)⟩
  | endRead _ hcount hq =>
    obtain rfl := Option.some.inj hq
    have hle := hcount.trans hread
    exact ⟨h.wellFormed.endRead hle, hwrite.trans (h.wellFormed.writeRun_endRead hle),
      h.endRead hcount⟩
  | clear => exact ⟨m.queue.clear_wellFormed, Nat.zero_le _, Nat.zero_le _⟩
  | _ => exact ⟨h.wellFormed, h.write, h.read⟩

end GrantsFit

/-- `clear()` and peers that keep to their grants keep the fill count of the queue between zero
and its capacity. -/
theorem clearedQueue_grantsFit {capacity : Nat} {m : ClearMonitor (FixedMemoryQueue α)}
    (h : (clearedQueue (FixedMemoryQueue.impl α) fun q => ∃ memory,
      q = .new memory capacity).Reachable m) : GrantsFit m := by
  apply h.invariant (I := GrantsFit)
  · rintro m ⟨q, ⟨memory, rfl⟩, rfl⟩
    exact ⟨FixedMemoryQueue.new_wellFormed memory capacity, Nat.zero_le _, Nat.zero_le _⟩
  · intro m a m' hfit hs
    exact hfit.step hs

private theorem SingleElementQueue.impl_clears :
    (SingleElementQueue.impl α).Clears fun _ _ => True where
  beginRead q n h := by
    obtain ⟨hn, -⟩ := beginRead_eq_none.mp h
    exact beginRead_eq_none.mpr ⟨hn, rfl⟩
  beginWrite q n h := by
    constructor
    · intro hclear
      cases (beginWrite_eq_none.mp hclear).2
    · exact fun hfalse => absurd trivial hfalse

/-- In every run in which `clear()` is not called while the producer sleeps for the room that it
would make, nobody sleeps beside what he waits for; and otherwise that `clear()` starves him. -/
theorem clear_no_lost_wakeup :
    (∀ (capacity : Nat) (m : ClearMonitor (FixedMemoryQueue α)),
      ((clearedQueue (FixedMemoryQueue.impl α) fun q => ∃ memory, q = .new memory capacity).restrict
        (ClearSparesProducer fun q n => n ≤ q.capacity)).Reachable m →
      m.NobodyStarves (FixedMemoryQueue.impl α) ∧
        (∀ n ≤ m.queue.capacity, m.threads .producer = .asleep (.beginWrite n) →
          m.queue.empty = false) ∧
        ∀ m', m.Step (FixedMemoryQueue.impl α) .clear m' →
          (m'.NobodyStarves (FixedMemoryQueue.impl α) ↔
            ∀ n, m.threads .producer = .asleep (.beginWrite n) → ¬ n ≤ m.queue.capacity)) ∧
    ∀ m : ClearMonitor (SingleElementQueue α),
      ((clearedQueue (SingleElementQueue.impl α) fun q => ∃ buffer, q = .new buffer).restrict
        (ClearSparesProducer fun _ _ => True)).Reachable m →
      m.NobodyStarves (SingleElementQueue.impl α) ∧
        (∀ n, m.threads .producer = .asleep (.beginWrite n) → m.queue.empty = false) ∧
        ∀ m', m.Step (SingleElementQueue.impl α) .clear m' →
          (m'.NobodyStarves (SingleElementQueue.impl α) ↔
            ∀ n, m.threads .producer ≠ .asleep (.beginWrite n)) := by
  constructor
  · intro capacity m hm
    have hinv := clearedQueue_invariant (FixedMemoryQueue.impl_clears α) hm
    refine ⟨hinv.waits, ?_, ?_⟩
    · intro n hn hsleep
      have hwaits : m.queue.capacity - m.queue.size < n :=
        (FixedMemoryQueue.impl_beginWrite_eq_none α _ _).mp (hinv.waits .producer _ hsleep)
      simp only [FixedMemoryQueue.empty, beq_eq_false_iff_ne]
      omega
    · intro m' hs
      rw [hinv.clear_iff (FixedMemoryQueue.impl_clears α) hs]
      exact not_exists.trans (forall_congr' fun n => not_and)
  · intro m hm
    have hinv := clearedQueue_invariant (SingleElementQueue.impl_clears α) hm
    refine ⟨hinv.waits, ?_, ?_⟩
    · intro n hsleep
      have hfull := (SingleElementQueue.beginWrite_eq_none.mp (hinv.waits .producer _ hsleep)).2
      rw [SingleElementQueue.empty, hfull]
      rfl
    · intro m' hs
      rw [hinv.clear_iff (SingleElementQueue.impl_clears α) hs]
      simp only [ClearMonitor.ProducerSleeps, and_true, not_exists, ne_eq]

section Runs

open ClearAction

/-- A queue that has been cleared, with a consumer that found it empty. -/
theorem clear_no_lost_wakeup_consumer :
    ∃ m : ClearMonitor (FixedMemoryQueue Nat), m.threads .consumer = .asleep (.beginRead 1) ∧
      m.NobodyStarves (FixedMemoryQueue.impl Nat) := by
  have hstart : ((clearedQueue (FixedMemoryQueue.impl Nat) fun q => ∃ memory,
      q = .new memory 1).restrict (ClearSparesProducer fun q n => n ≤ q.capacity)).Reachable
      (.start (.new (fun _ => 0) 1)) := .init ⟨_, ⟨_, rfl⟩, rfl⟩
  have hroom := hstart.step (a := call .producer (.beginWrite 1))
    ⟨.call rfl trivial, by intro ha; cases ha⟩
  have hfull := hroom.step (a := endWrite 1)
    ⟨.endWrite rfl (Nat.le_refl 1) rfl (.nobody (by intro t c h; cases t <;> cases h)),
      by intro ha; cases ha⟩
  have hclear := hfull.step (a := clear)
    ⟨.clear, by rintro - ⟨n, hn, -⟩; cases hn⟩
  have hsleep := hclear.step (a := call .consumer (.beginRead 1))
    ⟨.call rfl trivial, by intro ha; cases ha⟩
  exact ⟨_, rfl, ((clear_no_lost_wakeup Nat).1 1 _ hsleep).1⟩

/-- A producer that found either queue full sleeps on beside the empty queue. -/
theorem clear_starves_producer :
    (∃ m, (clearedQueue (FixedMemoryQueue.impl Nat) fun q => ∃ memory,
        q = .new memory 1).Reachable m ∧
      m.threads .producer = .asleep (.beginWrite 1) ∧ m.queue.empty = true) ∧
    ∃ m, (clearedQueue (SingleElementQueue.impl Nat) fun q => ∃ buffer,
        q = .new buffer).Reachable m ∧
      m.threads .producer = .asleep (.beginWrite 1) ∧ m.queue.empty = true := by
  constructor
  · have hstart : (clearedQueue (FixedMemoryQueue.impl Nat) fun q => ∃ memory,
        q = .new memory 1).Reachable (.start (.new (fun _ => 0) 1)) := .init ⟨_, ⟨_, rfl⟩, rfl⟩
    have hroom := hstart.step (a := call .producer (.beginWrite 1)) (.call rfl trivial)
    have hfull := hroom.step (a := endWrite 1)
      (.endWrite rfl (Nat.le_refl 1) rfl (.nobody (by intro t c h; cases t <;> cases h)))
    have hsleep := hfull.step (a := call .producer (.beginWrite 1)) (.call rfl trivial)
    exact ⟨_, hsleep.step (a := clear) .clear, rfl, rfl⟩
  · have hstart : (clearedQueue (SingleElementQueue.impl Nat) fun q => ∃ buffer,
        q = .new buffer).Reachable (.start (.new 0)) := .init ⟨_, ⟨_, rfl⟩, rfl⟩
    have hroom := hstart.step (a := call .producer (.beginWrite 1)) (.call rfl trivial)
    have hfull := hroom.step (a := endWrite 1)
      (.endWrite rfl (Nat.le_refl 1) rfl (.nobody (by intro t c h; cases t <;> cases h)))
    have hsleep := hfull.step (a := call .producer (.beginWrite 1)) (.call rfl trivial)
    exact ⟨_, hsleep.step (a := clear) .clear, rfl, rfl⟩

end Runs

end Dyplo
