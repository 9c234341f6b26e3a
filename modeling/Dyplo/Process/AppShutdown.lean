import Dyplo.Process.ThreadedApp

/-!
# Setting up and taking down

Nobody is interrupted before `main` has seen all queues empty. From then on `main` takes the sink
and the processes down one after the other, and waits for a thread only after it has set the
flag that makes it leave.
-/

universe u

namespace Dyplo

section Stage

variable {ι : Type*} [DecidableEq ι] {β γ : Type u} {producer consumer : ι}
  {processor : StaticProcessor β γ} {thread thread' : StageThread β} {m m' : Monitor ι β}
  {w w' : Monitor ι γ}

private theorem Monitor.Step.scheduler {m m' : Monitor ι β} {a : MonitorAction ι β}
    (hs : m.Step a m')
    (ha : a ≠ .interruptRead ∧ a ≠ .interruptWrite ∧ a ≠ .resumeRead ∧ a ≠ .resumeWrite) :
    m'.scheduler = m.scheduler := by
  obtain ⟨hread, hwrite, hread', hwrite'⟩ := ha
  cases hs with
  | @call t call _ => exact (Monitor.enter_spec (Prod.mk.eta (p := m.enter t call)).symm).1
  | @again t call _ => exact (Monitor.enter_spec (Prod.mk.eta (p := m.enter t call)).symm).1
  | interruptRead _ => exact absurd rfl hread
  | interruptWrite _ => exact absurd rfl hwrite
  | resumeRead _ => exact absurd rfl hread'
  | resumeWrite _ => exact absurd rfl hwrite'
  | _ => rfl

namespace StageThread.Step

private theorem schedulers (hs : thread.Step producer consumer processor m w thread' m' w') :
    m'.scheduler = m.scheduler ∧ w'.scheduler = w.scheduler := by
  cases hs with
  | beginRead _ henter => exact ⟨(Monitor.enter_spec henter).1, rfl⟩
  | beginWrite _ henter => exact ⟨rfl, (Monitor.enter_spec henter).1⟩
  | load _ hstep => exact ⟨hstep.scheduler ⟨nofun, nofun, nofun, nofun⟩, rfl⟩
  | store _ _ _ hstep => exact ⟨rfl, hstep.scheduler ⟨nofun, nofun, nofun, nofun⟩⟩
  | endWrite hstep => exact ⟨rfl, hstep.scheduler ⟨nofun, nofun, nofun, nofun⟩⟩
  | endRead hstep => exact ⟨hstep.scheduler ⟨nofun, nofun, nofun, nofun⟩, rfl⟩

private theorem live (hs : thread.Step producer consumer processor m w thread' m' w') :
    thread ≠ .exited ∧ thread ≠ .joined ∧ thread' ≠ .joined := by
  cases hs with
  | @beginRead m _ _ outcome _ _ => cases outcome <;> exact ⟨nofun, nofun, nofun⟩
  | @beginWrite _ _ _ _ outcome _ _ => cases outcome <;> exact ⟨nofun, nofun, nofun⟩
  | _ => exact ⟨nofun, nofun, nofun⟩

private theorem stays (hs : thread.Step producer consumer processor m w thread' m' w')
    (hm : m.scheduler = .new) (hw : w.scheduler = .new) : thread' ≠ .exited := by
  cases hs with
  | beginRead _ henter =>
    obtain ⟨-, -, ⟨rfl, -⟩ | ⟨-, -, -, hflag⟩ | ⟨rfl, -⟩⟩ := Monitor.enter_spec henter
    · nofun
    · rw [hm] at hflag; cases hflag
    · nofun
  | beginWrite _ henter =>
    obtain ⟨-, -, ⟨rfl, -⟩ | ⟨-, -, -, hflag⟩ | ⟨rfl, -⟩⟩ := Monitor.enter_spec henter
    · nofun
    · rw [hw] at hflag; cases hflag
    · nofun
  | _ => nofun

end StageThread.Step

end Stage

variable {T : Nat → Type u} {A : ThreadedApp T}

namespace AppState

/-- All threads are in their loops and no flag is set. -/
structure Open (s : AppState A) : Prop where
  quiet : ∀ i, (s.queues i).scheduler = .new
  stages : ∀ i, s.stages i ≠ .exited ∧ s.stages i ≠ .joined
  sink : s.sink ≠ .exited ∧ s.sink ≠ .joined

/-- The sink and the last processes have been taken down; the first `n` are left. -/
structure JoinedFrom (s : AppState A) (n : Nat) : Prop where
  sink : s.sink = .joined
  stages : ∀ i : Fin A.stages, s.stages i = .joined ↔ n ≤ i

def Interrupted (s : AppState A) (i : Nat) : Prop :=
  (s.queues i).scheduler.interrupted .notEmpty = true

/-- What `main` has interrupted and joined so far. -/
def Shutdown (s : AppState A) : MainThread (T 0) → Prop
  | .waitEmpty i => i ≤ A.stages ∧ s.Open
  | .joinSink => s.Interrupted A.stages ∧ s.sink ≠ .joined ∧ ∀ i, s.stages i ≠ .joined
  | .interruptRead i => i < A.stages ∧ s.JoinedFrom (i + 1)
  | .interruptWrite i => i < A.stages ∧ s.JoinedFrom (i + 1) ∧ s.Interrupted i
  | .join i => i < A.stages ∧ s.JoinedFrom (i + 1) ∧ s.Interrupted i
  | .returned => s.JoinedFrom 0
  | .uncaught => False
  | _ => s.Open

/-- What the threads other than `main` do to each other's life. -/
structure KeepsRunning (s t : AppState A) : Prop where
  main : t.main = s.main
  schedulers : ∀ i, (t.queues i).scheduler = (s.queues i).scheduler
  stages : ∀ i, t.stages i = .joined ↔ s.stages i = .joined
  sink : t.sink = .joined ↔ s.sink = .joined
  exits : s.Open → (∀ i, t.stages i ≠ .exited) ∧ t.sink ≠ .exited

private theorem KeepsRunning.joinedFrom {s t : AppState A} (h : s.KeepsRunning t) {n : Nat}
    (hs : s.JoinedFrom n) : t.JoinedFrom n :=
  ⟨h.sink.mpr hs.sink, fun i => (h.stages i).trans (hs.stages i)⟩

private theorem KeepsRunning.open {s t : AppState A} (h : s.KeepsRunning t)
    (hs : s.Open) : t.Open where
  quiet i := (h.schedulers i).trans (hs.quiet i)
  stages i := ⟨(h.exits hs).1 i, fun hjoined => (hs.stages i).2 ((h.stages i).mp hjoined)⟩
  sink := ⟨(h.exits hs).2, fun hjoined => hs.sink.2 (h.sink.mp hjoined)⟩

private theorem KeepsRunning.interrupted {s t : AppState A} (h : s.KeepsRunning t) {i : Nat}
    (hs : s.Interrupted i) : t.Interrupted i := by
  unfold Interrupted
  rw [h.schedulers]
  exact hs

private theorem KeepsRunning.shutdown {s t : AppState A} (h : s.KeepsRunning t)
    (hs : s.Shutdown s.main) : t.Shutdown t.main := by
  rw [h.main]
  cases hmain : s.main with
  | waitEmpty i => rw [hmain] at hs; exact ⟨hs.1, h.open hs.2⟩
  | joinSink =>
    rw [hmain] at hs
    obtain ⟨hflag, hsink, hstages⟩ := hs
    exact ⟨h.interrupted hflag, fun hjoined => hsink (h.sink.mp hjoined),
      fun i hjoined => hstages i ((h.stages i).mp hjoined)⟩
  | interruptRead i => rw [hmain] at hs; exact ⟨hs.1, h.joinedFrom hs.2⟩
  | interruptWrite i =>
    rw [hmain] at hs; exact ⟨hs.1, h.joinedFrom hs.2.1, h.interrupted hs.2.2⟩
  | join i => rw [hmain] at hs; exact ⟨hs.1, h.joinedFrom hs.2.1, h.interrupted hs.2.2⟩
  | returned => rw [hmain] at hs; exact h.joinedFrom hs
  | uncaught => rw [hmain] at hs; exact hs.elim
  | _ => rw [hmain] at hs; exact h.open hs

section Updates

variable {s : AppState A}

private theorem setQueue_scheduler {i : Nat} {m : Monitor QueueUser (T i)}
    (hm : m.scheduler = (s.queues i).scheduler) (j : Nat) :
    ((s.setQueue i m).queues j).scheduler = (s.queues j).scheduler := by
  change (Function.update s.queues i m j).scheduler = _
  by_cases hji : j = i
  · subst hji; rw [Function.update_self]; exact hm
  · rw [Function.update_of_ne hji]

private theorem setQueue_interrupted {i : Nat} {m : Monitor QueueUser (T i)}
    (hs : (s.queues i).Step .interruptRead m) : (s.setQueue i m).Interrupted i := by
  change (Function.update s.queues i m i).scheduler.interrupted .notEmpty = true
  rw [Function.update_self]
  cases hs with
  | interruptRead _ => rfl

private theorem setQueue_interruptWrite {i j : Nat} {m : Monitor QueueUser (T i)}
    (hs : (s.queues i).Step .interruptWrite m) (hj : s.Interrupted j) :
    (s.setQueue i m).Interrupted j := by
  change (Function.update s.queues i m j).scheduler.interrupted .notEmpty = true
  by_cases hji : j = i
  · subst hji
    rw [Function.update_self]
    cases hs with
    | interruptWrite _ => exact hj
  · rw [Function.update_of_ne hji]
    exact hj

private theorem setQueue_open {i : Nat} {m : Monitor QueueUser (T i)} {main : MainThread (T 0)}
    (hm : m.scheduler = (s.queues i).scheduler) (hs : s.Open) :
    Open { s.setQueue i m with main := main } :=
  ⟨fun j => (setQueue_scheduler hm j).trans (hs.quiet j), hs.stages, hs.sink⟩

end Updates

/-- A thread other than `main` takes a step. -/
theorem Step.keepsRunning {s t : AppState A} {thread : AppThread A.stages}
    (hs : s.Step thread t) (hthread : thread ≠ .main) : s.KeepsRunning t := by
  cases hs with
  | @stage i thread m w hstep =>
    obtain ⟨hm, hw⟩ := hstep.schedulers
    obtain ⟨hexited, hjoined, hjoined'⟩ := hstep.live
    have hother : ∀ j, j ≠ i → (((s.setQueue i m).setQueue (i + 1) w).setStage i thread).stages j =
        s.stages j := fun j hne => Function.update_of_ne hne _ _
    have hself : (((s.setQueue i m).setQueue (i + 1) w).setStage i thread).stages i = thread :=
      Function.update_self ..
    refine ⟨rfl, fun j => ?_, fun j => ?_, .rfl, fun hopen => ⟨fun j => ?_, hopen.sink.1⟩⟩
    · refine (setQueue_scheduler ?_ j).trans (setQueue_scheduler hm j)
      rw [hw]
      exact (setQueue_scheduler hm _).symm
    · by_cases hji : j = i
      · subst hji
        rw [hself]
        exact iff_of_false hjoined' hjoined
      · rw [hother j hji]
    · by_cases hji : j = i
      · subst hji
        rw [hself]
        exact hstep.stays (hopen.quiet _) (hopen.quiet _)
      · rw [hother j hji]
        exact (hopen.stages j).1
  | @sinkBeginRead outcome m hsink _ henter =>
    obtain ⟨hm, -, hown⟩ := Monitor.enter_spec henter
    refine ⟨rfl, setQueue_scheduler hm, fun _ => .rfl, iff_of_false ?_ ?_, fun hopen =>
      ⟨fun j => (hopen.stages j).1, ?_⟩⟩
    · cases outcome <;> nofun
    · rw [hsink]; nofun
    · rcases hown with ⟨rfl, -⟩ | ⟨-, -, -, hflag⟩ | ⟨rfl, -⟩
      · nofun
      · rw [hopen.quiet] at hflag; cases hflag
      · nofun
  | @processItem src shown m hsink _ hstep =>
    have hm := hstep.scheduler ⟨nofun, nofun, nofun, nofun⟩
    refine ⟨rfl, setQueue_scheduler hm, fun _ => .rfl, iff_of_false nofun ?_, fun hopen =>
      ⟨fun j => (hopen.stages j).1, nofun⟩⟩
    rw [hsink]; nofun
  | @sinkEndRead src m hsink hstep =>
    have hm := hstep.scheduler ⟨nofun, nofun, nofun, nofun⟩
    refine ⟨rfl, setQueue_scheduler hm, fun _ => .rfl, iff_of_false nofun ?_, fun hopen =>
      ⟨fun j => (hopen.stages j).1, nofun⟩⟩
    rw [hsink]; nofun
  | spurious hstep =>
    have hm := hstep.scheduler ⟨nofun, nofun, nofun, nofun⟩
    exact ⟨rfl, setQueue_scheduler hm, fun _ => .rfl, .rfl, fun hopen =>
      ⟨fun j => (hopen.stages j).1, hopen.sink.1⟩⟩
  | _ => exact absurd rfl hthread

theorem start_open (memory : (i : Nat) → Nat → T i) (lines : List (T 0)) :
    (A.start memory lines).Open := by
  refine ⟨fun _ => rfl, fun _ => ⟨?_, ?_⟩, ?_, ?_⟩
  all_goals
    intro h
    cases h

theorem shutdown_loop {s : AppState A} (hs : s.Open) (lines : List (T 0)) :
    s.Shutdown (.loop lines) := by
  cases lines with
  | nil => exact ⟨Nat.zero_le _, hs⟩
  | cons line lines => exact hs

private theorem shutdown_terminate {s : AppState A} {n : Nat} (hn : n ≤ A.stages)
    (hs : s.JoinedFrom n) : s.Shutdown (.terminate n) := by
  cases n with
  | zero => exact hs
  | succ i => exact ⟨hn, hs⟩

theorem Step.shutdown {s t : AppState A} {thread : AppThread A.stages} (hs : s.Step thread t)
    (h : s.Shutdown s.main) : t.Shutdown t.main := by
  cases hs with
  | @beginWrite line lines outcome m hmain _ henter =>
    rw [hmain] at h
    obtain ⟨hm, -, hown⟩ := Monitor.enter_spec henter
    have hopen : ∀ main, Open { s.setQueue 0 m with main := main } := fun _ => setQueue_open hm h
    rcases hown with ⟨rfl, -⟩ | ⟨-, -, -, hflag⟩ | ⟨rfl, -⟩
    · exact hopen _
    · rw [h.quiet] at hflag; cases hflag
    · exact hopen _
  | store hmain hstep =>
    rw [hmain] at h
    exact setQueue_open (hstep.scheduler ⟨nofun, nofun, nofun, nofun⟩) h
  | endWrite hmain hstep =>
    rw [hmain] at h
    exact shutdown_loop (setQueue_open (hstep.scheduler ⟨nofun, nofun, nofun, nofun⟩) h) _
  | @waitEmpty i outcome m hmain _ henter =>
    rw [hmain] at h
    obtain ⟨hi, h⟩ := h
    obtain ⟨hm, -, hown⟩ := Monitor.enter_spec henter
    have hopen : ∀ main, Open { s.setQueue i m with main := main } := fun _ => setQueue_open hm h
    rcases hown with ⟨rfl, -⟩ | ⟨-, -, -, hflag⟩ | ⟨rfl, -⟩
    · by_cases hlt : i < A.stages
      · rw [MainThread.afterWaitEmpty, if_pos hlt]
        exact ⟨hlt, hopen _⟩
      · rw [MainThread.afterWaitEmpty, if_neg hlt]
        exact hopen _
    · rw [h.quiet] at hflag; cases hflag
    · exact ⟨hi, hopen _⟩
  | interruptSink hmain hstep =>
    rw [hmain] at h
    exact ⟨setQueue_interrupted hstep, h.sink.2, fun i => (h.stages i).2⟩
  | joinSink hmain hsink =>
    rw [hmain] at h
    exact shutdown_terminate (Nat.le_refl _)
      ⟨rfl, fun i => iff_of_false (h.2.2 i) (Nat.not_le_of_lt i.isLt)⟩
  | interruptRead hmain hstep =>
    rw [hmain] at h
    exact ⟨h.1, ⟨h.2.sink, h.2.stages⟩, setQueue_interrupted hstep⟩
  | interruptWrite hmain hstep =>
    rw [hmain] at h
    exact ⟨h.1, ⟨h.2.1.sink, h.2.1.stages⟩, setQueue_interruptWrite hstep h.2.2⟩
  | @join i hmain hstage =>
    rw [hmain] at h
    obtain ⟨-, hjoined, -⟩ := h
    refine shutdown_terminate (Nat.le_of_lt i.isLt) ⟨hjoined.sink, fun j => ?_⟩
    change Function.update s.stages i .joined j = .joined ↔ (i : Nat) ≤ j
    by_cases hji : j = i
    · subst hji
      rw [Function.update_self]
      exact iff_of_true rfl (Nat.le_refl _)
    · rw [Function.update_of_ne hji, hjoined.stages j]
      have hne : (j : Nat) ≠ i := fun heq => hji (Fin.ext heq)
      omega
  | stage hstep => exact (Step.stage hstep).keepsRunning nofun |>.shutdown h
  | sinkBeginRead h₁ h₂ h₃ => exact (Step.sinkBeginRead h₁ h₂ h₃).keepsRunning nofun |>.shutdown h
  | processItem h₁ h₂ h₃ => exact (Step.processItem h₁ h₂ h₃).keepsRunning nofun |>.shutdown h
  | sinkEndRead h₁ h₂ => exact (Step.sinkEndRead h₁ h₂).keepsRunning nofun |>.shutdown h
  | spurious hstep => exact (Step.spurious hstep).keepsRunning nofun |>.shutdown h

end AppState

end Dyplo
