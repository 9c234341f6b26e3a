import Dyplo.Process.AppDelivery

/-!
# No wakeup is lost

`end_read` signals a condition on which both the producer of a queue and `main` in `wait_empty`
may sleep. They never do at the same time, because `main` waits for a queue only when those in
front of it are empty, and then its producer has nothing to write.
-/

universe u

namespace Dyplo

section Stage

variable {β γ : Type u} {processor : StaticProcessor β γ} {thread thread' : StageThread β}
  {m m' : Monitor QueueUser β} {w w' : Monitor QueueUser γ} {c d : PendingCalls}

/-- A stage's step, with what it is inside of before and after. -/
theorem StageThread.Step.attends
    (hs : thread.Step .producer .consumer processor m w thread' m' w') (hm : Attended m c)
    (hw : Attended w d) (hc : c.beginRead = thread.reading processor.blocksize)
    (hd : d.beginWrite = thread.writing processor.blocksize) (hapart : c.Apart) :
    Attended m' { c with beginRead := thread'.reading processor.blocksize } ∧
      Attended w' { d with beginWrite := thread'.writing processor.blocksize } := by
  cases hs with
  | beginRead _ henter =>
    have hcall : c.of .consumer = some (.beginRead processor.blocksize) := by
      rw [PendingCalls.of, hc]; rfl
    have hwriter : w.threads .producer = .running := hw.running (by
      rw [PendingCalls.of, hd]; rfl)
    refine ⟨(hm.enter hcall henter).setRead ?_, hw.setWrite (.inl hwriter)⟩
    obtain ⟨-, -, ⟨-, -, hrun⟩ | ⟨-, -, hrun, -⟩ | ⟨rfl, -⟩⟩ := Monitor.enter_spec henter
    · exact .inl hrun
    · exact .inl hrun
    · exact .inr hc.symm
  | beginWrite _ henter =>
    have hcall : d.of .producer = some (.beginWrite processor.blocksize) := by
      rw [PendingCalls.of, hd]; rfl
    have hreader : m.threads .consumer = .running := hm.running (by
      rw [PendingCalls.of, hc]; rfl)
    refine ⟨hm.setRead (.inl hreader), (hw.enter hcall henter).setWrite ?_⟩
    obtain ⟨-, -, ⟨-, -, hrun⟩ | ⟨-, -, hrun, -⟩ | ⟨rfl, -⟩⟩ := Monitor.enter_spec henter
    · exact .inl hrun
    · exact .inl hrun
    · exact .inr hd.symm
  | load _ hstep => exact ⟨(hm.load hstep).setRead (.inr hc.symm), hw.setWrite (.inr hd.symm)⟩
  | store _ _ _ hstep =>
    exact ⟨hm.setRead (.inr hc.symm), (hw.store hstep).setWrite (.inr hd.symm)⟩
  | endWrite hstep =>
    exact ⟨hm.setRead (.inr hc.symm), (hw.endWrite hstep).setWrite (.inr hd.symm)⟩
  | endRead hstep =>
    have hreader : m.threads .consumer = .running := hm.running (by
      rw [PendingCalls.of, hc]; rfl)
    exact ⟨(hm.endRead hapart hstep).setRead (.inl (hstep.running (by simp) hreader)),
      hw.setWrite (.inr hd.symm)⟩

end Stage

variable {T : Nat → Type u} {A : ThreadedApp T}

namespace AppState

/-- The `begin_write` of queue `i` that its producer is inside of. -/
def writeCall (s : AppState A) : Nat → Option Nat
  | 0 => s.main.writing
  | k + 1 =>
    if h : k < A.stages then (s.stages ⟨k, h⟩).writing (A.processor ⟨k, h⟩).blocksize else none

/-- The `begin_read` of queue `i` that its consumer is inside of. -/
def readCall (s : AppState A) (i : Nat) : Option Nat :=
  if h : i < A.stages then (s.stages ⟨i, h⟩).reading (A.processor ⟨i, h⟩).blocksize
  else if i = A.stages then s.sink.reading A.sinkBlocksize else none

/-- Who is inside a waiting call of queue `i`. -/
def pending (s : AppState A) (i : Nat) : PendingCalls :=
  ⟨s.writeCall i, s.readCall i, s.main.waitsFor i⟩

def Attendance (s : AppState A) : Prop := ∀ i, Attended (s.queues i) (s.pending i)

variable {s t : AppState A}

theorem readCall_stage (i : Fin A.stages) :
    s.readCall i = (s.stages i).reading (A.processor i).blocksize := dif_pos i.isLt

theorem writeCall_stage (i : Fin A.stages) :
    s.writeCall (i + 1) = (s.stages i).writing (A.processor i).blocksize := dif_pos i.isLt

theorem readCall_sink : s.readCall A.stages = s.sink.reading A.sinkBlocksize := by
  rw [readCall, dif_neg (Nat.lt_irrefl _), if_pos rfl]

private theorem writeCall_setStage {i : Fin A.stages} {thread : StageThread (T i)} {j : Nat}
    (hj : j ≠ i + 1) : (s.setStage i thread).writeCall j = s.writeCall j := by
  cases j with
  | zero => rfl
  | succ k =>
    by_cases hk : k < A.stages
    · have hne : (⟨k, hk⟩ : Fin A.stages) ≠ i := fun heq => hj (by rw [← heq])
      simp only [writeCall, dif_pos hk]
      exact congrArg _ (Function.update_of_ne hne _ _)
    · simp only [writeCall, dif_neg hk]

private theorem readCall_setStage {i : Fin A.stages} {thread : StageThread (T i)} {j : Nat}
    (hj : j ≠ i) : (s.setStage i thread).readCall j = s.readCall j := by
  by_cases hk : j < A.stages
  · have hne : (⟨j, hk⟩ : Fin A.stages) ≠ i := fun heq => hj (by rw [← heq])
    simp only [readCall, dif_pos hk]
    exact congrArg _ (Function.update_of_ne hne _ _)
  · simp only [readCall, dif_neg hk]
    rfl

private theorem pending_input (i : Fin A.stages) (thread : StageThread (T i)) :
    (s.setStage i thread).pending i =
      { s.pending i with beginRead := thread.reading (A.processor i).blocksize } := by
  have hself : (s.setStage i thread).stages i = thread := Function.update_self ..
  rw [pending, writeCall_setStage (by omega), readCall_stage, hself]
  rfl

private theorem pending_output (i : Fin A.stages) (thread : StageThread (T i)) :
    (s.setStage i thread).pending (i + 1) =
      { s.pending (i + 1) with beginWrite := thread.writing (A.processor i).blocksize } := by
  have hself : (s.setStage i thread).stages i = thread := Function.update_self ..
  rw [pending, readCall_setStage (by omega), writeCall_stage, hself]
  rfl

private theorem pending_other {i : Fin A.stages} {thread : StageThread (T i)} {j : Nat}
    (hi : j ≠ i) (ho : j ≠ i + 1) : (s.setStage i thread).pending j = s.pending j := by
  rw [pending, writeCall_setStage ho, readCall_setStage hi]
  rfl

private theorem Attendance.setQueue {i : Nat} {m : Monitor QueueUser (T i)}
    (hqueues : t.queues = Function.update s.queues i m) (hm : Attended m (t.pending i))
    (hother : ∀ j, j ≠ i → Attended (s.queues j) (t.pending j)) : t.Attendance := by
  intro j
  rw [hqueues]
  by_cases hji : j = i
  · subst hji; rw [Function.update_self]; exact hm
  · rw [Function.update_of_ne hji]; exact hother j hji

/-- The producer of a queue that `main` waits for is a stage without anything to write. -/
theorem pending_apart {lines : List (T 0)} (h : AppInv lines s) (i : Nat) :
    (s.pending i).Apart := by
  cases hmain : s.main with
  | waitEmpty j =>
    by_cases hij : i = j
    · subst hij
      left
      change s.writeCall i = none
      cases i with
      | zero => rw [writeCall, hmain]; rfl
      | succ k =>
        by_cases hk : k < A.stages
        · have hidle := h.idle ⟨k, hk⟩ (h.drained k (by rw [hmain]; exact Nat.lt_succ_self k))
          rw [writeCall, dif_pos hk]
          cases hthread : s.stages ⟨k, hk⟩ with
          | beginWrite src => rw [hthread] at hidle; exact hidle.elim
          | _ => rfl
        · rw [writeCall, dif_neg hk]
    · right
      change s.main.waitsFor i = false
      rw [hmain]
      exact beq_false_of_ne hij
  | _ =>
    right
    change s.main.waitsFor i = false
    rw [hmain]
    rfl

private theorem Attendance.stage_step (h : s.Attendance) {i : Fin A.stages}
    {thread : StageThread (T i)}
    {m : Monitor QueueUser (T i)} {w : Monitor QueueUser (T (i + 1))}
    (hapart : (s.pending i).Apart)
    (hs : (s.stages i).Step .producer .consumer (A.processor i) (s.queues i) (s.queues (i + 1))
      thread m w) :
    (((s.setQueue i m).setQueue (i + 1) w).setStage i thread).Attendance := by
  obtain ⟨hm, hw⟩ := hs.attends (h i) (h (i + 1)) (readCall_stage i) (writeCall_stage i) hapart
  intro j
  change Attended (Function.update (Function.update s.queues i m) (i + 1) w j)
    ((s.setStage i thread).pending j)
  by_cases ho : j = i + 1
  · subst ho
    rw [Function.update_self, pending_output]
    exact hw
  · rw [Function.update_of_ne ho]
    by_cases hi : j = i
    · subst hi
      rw [Function.update_self, pending_input]
      exact hm
    · rw [Function.update_of_ne hi, pending_other hi ho]
      exact h j

private theorem Attendance.sink_step (h : s.Attendance) {m : Monitor QueueUser (T A.stages)}
    (hqueues : t.queues = Function.update s.queues A.stages m) (hstages : t.stages = s.stages)
    (hmain : t.main = s.main)
    (hm : Attended m
      { s.pending A.stages with beginRead := t.sink.reading A.sinkBlocksize }) :
    t.Attendance := by
  have hwrite : ∀ j, t.writeCall j = s.writeCall j := by
    intro j
    cases j <;> simp only [writeCall, hmain, hstages]
  refine .setQueue hqueues ?_ fun j hj => ?_
  · rw [pending, hwrite, readCall_sink, hmain]
    exact hm
  · have hread : t.readCall j = s.readCall j := by
      simp only [readCall, hstages, if_neg hj]
    rw [pending, hwrite, hread, hmain]
    exact h j

private theorem Attendance.main_step (h : s.Attendance) {i : Nat} {m : Monitor QueueUser (T i)}
    {main : MainThread (T 0)} (hm : Attended m (s.pending i))
    (hwrite : i = 0 → m.threads .producer = .running ∨ main.writing = s.main.writing)
    (hwait : m.threads .waiter = .running ∨ main.waitsFor i = s.main.waitsFor i)
    (hwriteOther : i ≠ 0 → s.main.writing = none)
    (hwaitOther : ∀ j, j ≠ i → s.main.waitsFor j = false) :
    Attendance { s.setQueue i m with main := main } := by
  refine .setQueue rfl ?_ fun j hj => ?_
  · cases i with
    | zero => exact (hm.setWrite (hwrite rfl)).setWait hwait
    | succ k => exact hm.setWait hwait
  · have hwaiter : (s.queues j).threads .waiter = .running := (h j).running (by
      rw [PendingCalls.of]
      exact if_neg (by rw [pending, hwaitOther j hj]; exact Bool.false_ne_true))
    cases j with
    | zero =>
      have hproducer : (s.queues 0).threads .producer = .running := (h 0).running (by
        rw [PendingCalls.of]
        exact congrArg (Option.map Call.beginWrite) (hwriteOther (Ne.symm hj)))
      exact ((h 0).setWrite (.inl hproducer)).setWait (.inl hwaiter)
    | succ k => exact (h (k + 1)).setWait (.inl hwaiter)

private theorem Attendance.main_outside (h : s.Attendance) {i : Nat} {m : Monitor QueueUser (T i)}
    {main : MainThread (T 0)} (hm : Attended m (s.pending i)) (hwriting : s.main.writing = none)
    (hwaiting : ∀ j, s.main.waitsFor j = false)
    (hrun : ∀ t, (s.queues i).threads t = .running → m.threads t = .running) :
    Attendance { s.setQueue i m with main := main } := by
  refine h.main_step hm (fun hi => .inl (hrun _ ?_)) (.inl (hrun _ ?_)) (fun _ => hwriting)
    (fun j _ => hwaiting j)
  · subst hi
    apply (h 0).running
    rw [PendingCalls.of]
    exact congrArg (Option.map Call.beginWrite) hwriting
  · apply (h i).running
    rw [PendingCalls.of]
    exact if_neg (by rw [pending, hwaiting i]; exact Bool.false_ne_true)

private theorem terminate_outside {α : Type u} (n : Nat) :
    (MainThread.terminate n : MainThread α).writing = none ∧
      ∀ j, (MainThread.terminate n : MainThread α).waitsFor j = false := by
  cases n <;> exact ⟨rfl, fun _ => rfl⟩

private theorem Attendance.joinSink_step (h : s.Attendance) (hmain : s.main = .joinSink)
    (hsink : s.sink = .exited) :
    Attendance { s with sink := .joined, main := .terminate A.stages } := by
  obtain ⟨hwriting, hwaiting⟩ := terminate_outside (α := T 0) A.stages
  intro j
  have hpending : pending { s with sink := .joined, main := .terminate A.stages } j =
      s.pending j := by
    simp only [pending, PendingCalls.mk.injEq]
    refine ⟨?_, ?_, ?_⟩
    · cases j with
      | zero =>
        rw [writeCall, writeCall, hmain]
        exact hwriting
      | succ k => rfl
    · simp only [readCall, hsink, SinkThread.reading]
    · rw [hwaiting, hmain]
      rfl
  rw [hpending]
  exact h j

/-- A stage has left its loop before `main` joins it. -/
theorem Attendance.join_step (h : s.Attendance) {i : Fin A.stages} (hmain : s.main = .join i)
    (hstage : s.stages i = .exited) :
    Attendance { s.setStage i .joined with main := .terminate i } := by
  obtain ⟨hwriting, hwaiting⟩ := terminate_outside (α := T 0) i
  have hself : (s.setStage i .joined).stages i = .joined := Function.update_self ..
  intro j
  have hpending : pending { s.setStage i .joined with main := .terminate i } j = s.pending j := by
    simp only [pending, PendingCalls.mk.injEq]
    refine ⟨?_, ?_, ?_⟩
    · cases j with
      | zero =>
        rw [writeCall, writeCall, hmain]
        exact hwriting
      | succ k =>
        change (s.setStage i .joined).writeCall (k + 1) = s.writeCall (k + 1)
        by_cases hk : k + 1 = i + 1
        · rw [hk, writeCall_stage, writeCall_stage, hstage, hself]
          rfl
        · exact writeCall_setStage hk
    · change (s.setStage i .joined).readCall j = s.readCall j
      by_cases hj : j = i
      · rw [hj, readCall_stage, readCall_stage, hstage, hself]
        rfl
      · exact readCall_setStage hj
    · rw [hwaiting, hmain]
      rfl
  rw [hpending]
  exact h j

private theorem Attendance.step {lines : List (T 0)} (h : s.Attendance) (hinv : AppInv lines s)
    {thread : AppThread A.stages} (hs : s.Step thread t) : t.Attendance := by
  cases hs with
  | @beginWrite line rest outcome m hmain _ henter =>
    have hcall : (s.pending 0).of .producer = some (.beginWrite 1) := by
      rw [PendingCalls.of, pending, writeCall, hmain]; rfl
    obtain ⟨-, hothers, hown⟩ := Monitor.enter_spec henter
    refine h.main_step ((h 0).enter hcall henter) (fun _ => ?_) (.inr ?_)
      (fun hne => absurd rfl hne)
      (fun j _ => by rw [hmain]; rfl)
    · rcases hown with ⟨-, -, hrun⟩ | ⟨-, -, hrun, -⟩ | ⟨rfl, -⟩
      · exact .inl hrun
      · exact .inl hrun
      · rw [hmain]; exact .inr rfl
    · rw [hmain]
      cases outcome <;> rfl
  | store hmain hstep =>
    exact h.main_outside ((h 0).store hstep) (by rw [hmain]; rfl) (fun _ => by rw [hmain]; rfl)
      (fun _ => hstep.running (by simp))
  | endWrite hmain hstep =>
    exact h.main_outside ((h 0).endWrite hstep) (by rw [hmain]; rfl)
      (fun _ => by rw [hmain]; rfl) (fun _ => hstep.running (by simp))
  | @waitEmpty i outcome m hmain _ henter =>
    have hcall : (s.pending i).of .waiter = some .waitEmpty := by
      rw [PendingCalls.of, pending, hmain]
      exact if_pos (beq_self_eq_true i)
    obtain ⟨-, hothers, hown⟩ := Monitor.enter_spec henter
    refine h.main_step ((h i).enter hcall henter) (fun hi => .inl ?_) ?_
      (fun _ => by rw [hmain]; rfl) (fun j hj => by rw [hmain]; exact beq_false_of_ne hj)
    · subst hi
      rw [hothers .producer (by decide)]
      apply (h 0).running
      rw [PendingCalls.of, pending, writeCall, hmain]
      rfl
    · rcases hown with ⟨-, -, hrun⟩ | ⟨-, -, hrun, -⟩ | ⟨rfl, -⟩
      · exact .inl hrun
      · exact .inl hrun
      · rw [hmain]; exact .inr rfl
  | interruptSink hmain hstep =>
    exact h.main_outside ((h _).interruptRead hstep) (by rw [hmain]; rfl)
      (fun _ => by rw [hmain]; rfl) (fun _ => hstep.running (by simp))
  | joinSink hmain hsink => exact h.joinSink_step hmain hsink
  | interruptRead hmain hstep =>
    exact h.main_outside ((h _).interruptRead hstep) (by rw [hmain]; rfl)
      (fun _ => by rw [hmain]; rfl) (fun _ => hstep.running (by simp))
  | interruptWrite hmain hstep =>
    exact h.main_outside ((h _).interruptWrite (pending_apart hinv _) hstep)
      (by rw [hmain]; rfl) (fun _ => by rw [hmain]; rfl) (fun _ => hstep.running (by simp))
  | join hmain hstage => exact h.join_step hmain hstage
  | stage hstep => exact h.stage_step (pending_apart hinv _) hstep
  | @sinkBeginRead outcome m hsink _ henter =>
    have hcall : (s.pending A.stages).of .consumer = some (.beginRead A.sinkBlocksize) := by
      rw [PendingCalls.of, pending, readCall_sink, hsink]; rfl
    refine h.sink_step rfl rfl rfl (((h _).enter hcall henter).setRead ?_)
    obtain ⟨-, -, ⟨-, -, hrun⟩ | ⟨-, -, hrun, -⟩ | ⟨rfl, -⟩⟩ := Monitor.enter_spec henter
    · exact .inl hrun
    · exact .inl hrun
    · right
      rw [pending, readCall_sink, hsink]
      rfl
  | processItem hsink _ hstep =>
    refine h.sink_step rfl rfl rfl (((h _).load hstep).setRead (.inr ?_))
    rw [pending, readCall_sink, hsink]
    rfl
  | sinkEndRead hsink hstep =>
    have hreader : (s.queues A.stages).threads .consumer = .running := (h _).running (by
      rw [PendingCalls.of, pending, readCall_sink, hsink]; rfl)
    exact h.sink_step rfl rfl rfl
      (((h _).endRead (pending_apart hinv _) hstep).setRead
        (.inl (hstep.running (by simp) hreader)))
  | spurious hstep => exact .setQueue rfl ((h _).spurious hstep) fun j _ => h j

end AppState

theorem ThreadedApp.attendance {lines : List (T 0)} {s : AppState A}
    (h : (A.system lines).Reachable s) : s.Attendance := by
  have hall : (s.Shutdown s.main ∧ AppInv lines s) ∧ s.Attendance := by
    apply h.invariant (I := fun s => (s.Shutdown s.main ∧ AppInv lines s) ∧ s.Attendance)
    · rintro s ⟨memory, rfl⟩
      exact ⟨ThreadedApp.invariant (.init ⟨memory, rfl⟩), fun i => .start _ _ _⟩
    · rintro s thread t ⟨⟨hshutdown, hinv⟩, hattendance⟩ hs
      exact ⟨⟨hs.shutdown hshutdown, hinv.step hshutdown hs⟩, hattendance.step hinv hs⟩
  exact hall.2

/-- In every interleaving, with spurious wakeups, whoever sleeps in a queue still has to wait and
has not been interrupted, and nobody else sleeps on the same condition: no signal can go to a
thread that it does not concern. -/
theorem threadedApp_no_lost_wakeup (A : ThreadedApp T) (lines : List (T 0)) (s : AppState A)
    (h : (A.system lines).Reachable s) (i : Nat) (t : QueueUser) (call : Call)
    (hsleep : (s.queues i).threads t = .asleep call) :
    call.Waits (s.queues i).peers.queue ∧
      (s.queues i).scheduler.interrupted call.condition = false ∧
      ∀ u call', (s.queues i).threads u = .asleep call' → call'.condition = call.condition →
        u = t := by
  have hattended := ThreadedApp.attendance h i
  obtain ⟨hpending, hwaits, hflag⟩ := hattended.asleep t call hsleep
  refine ⟨hwaits, hflag, fun u call' hu hc => ?_⟩
  have hpending' := (hattended.asleep u call' hu).1
  cases hcondition : call.condition with
  | notEmpty =>
    rw [PendingCalls.of_notEmpty hpending hcondition]
    exact PendingCalls.of_notEmpty hpending' (hc.trans hcondition)
  | notFull =>
    exact PendingCalls.of_notFull (AppState.pending_apart (ThreadedApp.invariant h).2 i) hpending'
      (hc.trans hcondition) hpending hcondition

/-- The stage has found its input empty. -/
theorem threadedApp_no_lost_wakeup_addFive :
    ∃ s : AppState addFiveApp, (s.queues 0).threads .consumer = .asleep (.beginRead 1) ∧
      (Call.beginRead 1).Waits (s.queues 0).peers.queue ∧
      (s.queues 0).scheduler.interrupted .notEmpty = false ∧
      ∀ u call', (s.queues 0).threads u = .asleep call' → call'.condition = .notEmpty →
        u = .consumer := by
  have hstart : (addFiveApp.system [(60 : Nat)]).Reachable
      (addFiveApp.start (fun _ _ => (0 : Nat)) [(60 : Nat)]) := .init ⟨_, rfl⟩
  have hsleep := hstart.step (.stage (i := addFiveAppStage) (.beginRead (.inl rfl) rfl))
  exact ⟨_, rfl, threadedApp_no_lost_wakeup addFiveApp [(60 : Nat)] _ hsleep 0 .consumer _ rfl⟩

end Dyplo
