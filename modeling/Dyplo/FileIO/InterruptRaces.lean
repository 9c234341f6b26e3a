import Mathlib.Logic.Function.Basic
import Dyplo.FileIO.FilePollScheduler
import Dyplo.Library.TransitionSystem

/-!
# `interrupt`, `reset` and the waits, step by step

`FilePollScheduler` has no lock. Any number of threads call it, and each of them is between two
of its steps while others take theirs.
-/

namespace Dyplo

/-- Where a thread is. -/
inductive PollThread
  | idle
  /-- In `interrupt`, before its `write`. -/
  | interrupting
  /-- In `reset`, behind a `read` of 16 bytes. -/
  | draining
  /-- In `reset`, behind a shorter `read`. -/
  | clearing
  /-- In `wait_readable` or `wait_writeable`, before the `poll`. -/
  | polling
  deriving DecidableEq

/-- How a `poll` ends the wait. -/
inductive WaitEnd
  | returns
  | interrupted
  | runtimeError
  deriving DecidableEq

/-- The steps of the threads. A test of the flag says whether the wait throws. -/
inductive PollAction (ι : Type*)
  | setFlag (t : ι)
  | write (t : ι)
  | writeFailed (t : ι)
  | read (t : ι)
  | clearFlag (t : ι)
  | testFlag (t : ι) (throws : Bool)
  | poll (t : ι) (result : WaitEnd)
  deriving DecidableEq

structure PollThreads (ι : Type*) where
  scheduler : FilePollScheduler
  threads : ι → PollThread

namespace PollThreads

variable {ι : Type*} [DecidableEq ι]

def start : PollThreads ι := ⟨.new, fun _ => .idle⟩

/-- Thread `t` goes on to `place`. -/
def move (s : PollThreads ι) (t : ι) (place : PollThread) (scheduler : FilePollScheduler) :
    PollThreads ι :=
  ⟨scheduler, Function.update s.threads t place⟩

inductive Step (s : PollThreads ι) : PollAction ι → PollThreads ι → Prop
  | setFlag {t : ι} : s.threads t = .idle →
      Step s (.setFlag t) (s.move t .interrupting { s.scheduler with mInterrupted := true })
  | write {t : ι} : s.threads t = .interrupting →
      Step s (.write t) (s.move t .idle { s.scheduler with pipe := s.scheduler.pipe + 1 })
  | writeFailed {t : ι} : s.threads t = .interrupting →
      Step s (.writeFailed t) (s.move t .idle s.scheduler)
  | readFull {t : ι} : s.threads t = .idle ∨ s.threads t = .draining → 16 ≤ s.scheduler.pipe →
      Step s (.read t)
        (s.move t .draining { s.scheduler with pipe := s.scheduler.pipe - 16 })
  | readShort {t : ι} : s.threads t = .idle ∨ s.threads t = .draining → s.scheduler.pipe < 16 →
      Step s (.read t) (s.move t .clearing { s.scheduler with pipe := 0 })
  | clearFlag {t : ι} : s.threads t = .clearing →
      Step s (.clearFlag t) (s.move t .idle { s.scheduler with mInterrupted := false })
  | flagSet {t : ι} : s.threads t = .idle → s.scheduler.mInterrupted = true →
      Step s (.testFlag t true) s
  | flagClear {t : ι} : s.threads t = .idle → s.scheduler.mInterrupted = false →
      Step s (.testFlag t false) (s.move t .polling s.scheduler)
  /-- The pipe is readable, whether or not the file is ready. -/
  | pollPipe {t : ι} : s.threads t = .polling → s.scheduler.pipe ≠ 0 →
      Step s (.poll t .interrupted) (s.move t .idle s.scheduler)
  /-- Only the file is ready. -/
  | pollFile {t : ι} : s.threads t = .polling → s.scheduler.pipe = 0 →
      Step s (.poll t .returns) (s.move t .idle s.scheduler)
  | pollFailed {t : ι} : s.threads t = .polling →
      Step s (.poll t .runtimeError) (s.move t .idle s.scheduler)

end PollThreads

/-- Any number of threads that interrupt, reset and wait, in any interleaving. -/
def pollThreads (ι : Type*) [DecidableEq ι] : TransitionSystem (PollThreads ι) (PollAction ι) where
  init s := s = .start
  step s a t := s.Step a t

namespace PollThreads

variable {ι : Type*} [DecidableEq ι] {s s' : PollThreads ι} {t : ι} {a : PollAction ι}

private theorem move_same (place : PollThread) (scheduler : FilePollScheduler) :
    (s.move t place scheduler).threads t = place := by
  simp [move]

private theorem move_other {u : ι} (h : u ≠ t) (place : PollThread)
    (scheduler : FilePollScheduler) :
    (s.move t place scheduler).threads u = s.threads u := by
  simp [move, h]

private theorem threads_move {u : ι} {place place' : PollThread} {scheduler : FilePollScheduler}
    (h : (s.move t place' scheduler).threads u = place) :
    (u = t ∧ place' = place) ∨ s.threads u = place := by
  by_cases hu : u = t
  · subst hu
    rw [move_same] at h
    exact .inl ⟨rfl, h⟩
  · rw [move_other hu] at h
    exact .inr h

/-- Alone, `interrupt` does what it does at once. -/
theorem interrupt_run (h : s.threads t = .idle) :
    ∃ s', (pollThreads ι).Run s [.setFlag t, .write t] s' ∧
      s'.scheduler = s.scheduler.interrupt := by
  refine ⟨_, .cons (.setFlag h) (.cons (.write (move_same _ _)) (.nil _)), rfl⟩

/-- Alone, `reset` empties the pipe, however much there is in it. -/
theorem reset_run (n : Nat) (h : s.threads t = .idle ∨ s.threads t = .draining)
    (hpipe : s.scheduler.pipe / 16 = n) :
    ∃ s', (pollThreads ι).Run s (List.replicate (n + 1) (.read t) ++ [.clearFlag t]) s' ∧
      s'.scheduler = s.scheduler.reset := by
  rw [FilePollScheduler.reset_eq_new]
  induction n generalizing s with
  | zero =>
    have hshort : s.scheduler.pipe < 16 := by omega
    exact ⟨_, .cons (.readShort h hshort) (.cons (.clearFlag (move_same _ _)) (.nil _)), rfl⟩
  | succ n ih =>
    have hfull : 16 ≤ s.scheduler.pipe := by omega
    have hrest : (s.scheduler.pipe - 16) / 16 = n := by omega
    obtain ⟨s', hrun, hs'⟩ := ih
      (s := s.move t .draining { s.scheduler with pipe := s.scheduler.pipe - 16 })
      (.inr (move_same _ _)) hrest
    exact ⟨s', .cons (.readFull h hfull) hrun, hs'⟩

private theorem Step.pipe_pos (h : s.Step a s') (hread : ∀ u, a ≠ .read u)
    (hpos : s.scheduler.pipe ≠ 0) : s'.scheduler.pipe ≠ 0 := by
  cases h with
  | readFull => exact absurd rfl (hread _)
  | readShort => exact absurd rfl (hread _)
  | write => exact Nat.succ_ne_zero _
  | _ => exact hpos

private theorem run_pipe_pos {as : List (PollAction ι)} (h : (pollThreads ι).Run s as s')
    (hread : ∀ u, .read u ∉ as) (hpos : s.scheduler.pipe ≠ 0) : s'.scheduler.pipe ≠ 0 := by
  induction h with
  | nil => exact hpos
  | cons hstep _ ih =>
    refine ih (fun u hu => hread u (List.mem_cons_of_mem _ hu)) (hstep.pipe_pos ?_ hpos)
    rintro u rfl
    exact hread u List.mem_cons_self

/-- Every wait throws: a test of the flag throws or goes on to the `poll`, and this does not
block and does not return. -/
structure WaitsThrow (s : PollThreads ι) : Prop where
  tests : ∀ u, s.threads u = .idle → ∃ throws s', s.Step (.testFlag u throws) s'
  polls : ∀ u, s.threads u = .polling → ∃ s', s.Step (.poll u .interrupted) s'
  never : ∀ u s', ¬s.Step (.poll u .returns) s'

private theorem waitsThrow_of_pipe (hpos : s.scheduler.pipe ≠ 0) : s.WaitsThrow where
  tests := by
    intro u hidle
    cases hflag : s.scheduler.mInterrupted with
    | true => exact ⟨true, _, .flagSet hidle hflag⟩
    | false => exact ⟨false, _, .flagClear hidle hflag⟩
  polls := fun u hpolling => ⟨_, .pollPipe hpolling hpos⟩
  never := by
    intro u s' h
    cases h with
    | pollFile _ hempty => exact hpos hempty

/-- Nobody is in the middle of an `interrupt`. -/
def Quiet (s : PollThreads ι) : Prop := ∀ u, s.threads u ≠ .interrupting

/-- Without an `interrupt` the pipe only becomes emptier, the flag is not set, and whoever has
finished draining has found the pipe empty. -/
theorem Step.quiet (h : s.Step a s') (hset : ∀ u, a ≠ .setFlag u) (hquiet : s.Quiet) :
    s'.Quiet ∧ s'.scheduler.pipe ≤ s.scheduler.pipe ∧
      (s.scheduler.mInterrupted = false → s'.scheduler.mInterrupted = false) ∧
      ∀ u, s'.threads u = .clearing → s.threads u = .clearing ∨ s'.scheduler.pipe = 0 := by
  have hmove : ∀ {u : ι} (place : PollThread) {scheduler : FilePollScheduler},
      place ≠ .interrupting → (s.move u place scheduler).Quiet := by
    intro u place scheduler hplace v hv
    rcases threads_move hv with ⟨-, hv⟩ | hv
    · exact hplace hv
    · exact hquiet v hv
  have hclearing : ∀ {u : ι} (place : PollThread) {scheduler : FilePollScheduler},
      place ≠ .clearing → ∀ v, (s.move u place scheduler).threads v = .clearing →
        s.threads v = .clearing ∨ scheduler.pipe = 0 := by
    intro u place scheduler hplace v hv
    exact .inl ((threads_move hv).resolve_left fun hv => hplace hv.2)
  cases h with
  | setFlag => exact absurd rfl (hset _)
  | write hwriting => exact absurd hwriting (hquiet _)
  | writeFailed hwriting => exact absurd hwriting (hquiet _)
  | readFull =>
    exact ⟨hmove .draining (by decide), Nat.sub_le _ _, id, hclearing .draining (by decide)⟩
  | readShort => exact ⟨hmove .clearing (by decide), Nat.zero_le _, id, fun _ _ => .inr rfl⟩
  | clearFlag =>
    exact ⟨hmove .idle (by decide), Nat.le_refl _, fun _ => rfl, hclearing .idle (by decide)⟩
  | flagSet => exact ⟨hquiet, Nat.le_refl _, id, fun _ hu => .inl hu⟩
  | flagClear =>
    exact ⟨hmove .polling (by decide), Nat.le_refl _, id, hclearing .polling (by decide)⟩
  | pollPipe | pollFile | pollFailed =>
    exact ⟨hmove .idle (by decide), Nat.le_refl _, id, hclearing .idle (by decide)⟩

/-- While thread `t` resets: once it has found the pipe empty, the pipe stays empty. -/
structure Resetting (t : ι) (s : PollThreads ι) : Prop where
  quiet : s.Quiet
  drained : s.threads t = .clearing → s.scheduler.pipe = 0

private theorem Resetting.step (h : Resetting t s) (hstep : s.Step a s')
    (hset : ∀ u, a ≠ .setFlag u) :
    Resetting t s' := by
  obtain ⟨hquiet, hpipe, -, hclearing⟩ := hstep.quiet hset h.quiet
  refine ⟨hquiet, fun ht => ?_⟩
  rcases hclearing t ht with ht | hempty
  · have := h.drained ht
    omega
  · exact hempty

/-- The scheduler is as it was in the beginning. -/
structure Clean (s : PollThreads ι) : Prop where
  quiet : s.Quiet
  scheduler : s.scheduler = .new

private theorem Clean.step (h : s.Clean) (hstep : s.Step a s') (hset : ∀ u, a ≠ .setFlag u) :
    s'.Clean := by
  obtain ⟨hquiet, hpipe, hflag, -⟩ := hstep.quiet hset h.quiet
  rw [h.scheduler] at hpipe hflag
  have hempty : s'.scheduler.pipe = 0 := Nat.le_zero.mp hpipe
  have hunset : s'.scheduler.mInterrupted = false := hflag rfl
  refine ⟨hquiet, ?_⟩
  rw [FilePollScheduler.new, ← hempty, ← hunset]

private theorem run_without_setFlag {I : PollThreads ι → Prop} {as : List (PollAction ι)}
    (hstep : ∀ {s s' a}, I s → s.Step a s' → (∀ u, a ≠ .setFlag u) → I s')
    (h : (pollThreads ι).Run s as s') (hset : ∀ u, .setFlag u ∉ as) (hs : I s) : I s' := by
  induction h with
  | nil => exact hs
  | cons hfirst _ ih =>
    refine ih (fun u hu => hset u (List.mem_cons_of_mem _ hu)) (hstep hs hfirst ?_)
    rintro u rfl
    exact hset u List.mem_cons_self

/-- A whole `reset` of thread `t`, from its first `read` on, that no `interrupt` overlaps. -/
inductive CleanReset (t : ι) (s s' : PollThreads ι) : Prop
  | mk {s₁ s₂ : PollThreads ι} {as : List (PollAction ι)} (hquiet : s.Quiet)
      (hidle : s.threads t = .idle) (hread : s.Step (.read t) s₁)
      (hrun : (pollThreads ι).Run s₁ as s₂) (hset : ∀ u, .setFlag u ∉ as)
      (hclear : s₂.Step (.clearFlag t) s')

private theorem CleanReset.clean (h : CleanReset t s s') : s'.Clean := by
  obtain ⟨hquiet, hidle, hread, hrun, hset, hclear⟩ := h
  have hstart : Resetting t s := ⟨hquiet, fun ht => absurd (hidle.symm.trans ht) (by decide)⟩
  have hreset := run_without_setFlag Resetting.step hrun hset (hstart.step hread (by simp))
  cases hclear with
  | clearFlag hclearing =>
    refine ⟨(hreset.step (.clearFlag hclearing) (by simp)).quiet, ?_⟩
    exact congrArg (FilePollScheduler.mk false) (hreset.drained hclearing)

/-- No wait throws on account of an `interrupt`. -/
def WaitsPass (s : PollThreads ι) : Prop :=
  ∀ u s', ¬s.Step (.testFlag u true) s' ∧ ¬s.Step (.poll u .interrupted) s'

private theorem Clean.waitsPass (h : s.Clean) : s.WaitsPass := by
  intro u s'
  have hflag : s.scheduler.mInterrupted = false := by rw [h.scheduler, FilePollScheduler.new]
  have hpipe : s.scheduler.pipe = 0 := by rw [h.scheduler, FilePollScheduler.new]
  constructor
  · intro htest
    cases htest with
    | flagSet _ hset =>
      rw [hflag] at hset
      cases hset
  · intro hpoll
    cases hpoll with
    | pollPipe _ hpos => exact hpos hpipe

/-- An `interrupt` that writes behind the last `read` of a `reset` ends every wait until the next
`reset` reads, and after a `reset` that no `interrupt` overlaps no wait throws until the next
`interrupt`. -/
theorem pollThreads_interrupts :
    (∀ {s s₁ s₂ : PollThreads ι} {t : ι} {as : List (PollAction ι)},
      s.Step (.write t) s₁ → (pollThreads ι).Run s₁ as s₂ → (∀ u, .read u ∉ as) →
        s₂.WaitsThrow) ∧
    ∀ {s s₁ s₂ : PollThreads ι} {t : ι} {as : List (PollAction ι)},
      CleanReset t s s₁ → (pollThreads ι).Run s₁ as s₂ → (∀ u, .setFlag u ∉ as) →
        s₂.WaitsPass := by
  constructor
  · intro s s₁ s₂ t as hwrite hrun hread
    have hpos : s₁.scheduler.pipe ≠ 0 := by
      cases hwrite
      exact Nat.succ_ne_zero _
    exact waitsThrow_of_pipe (run_pipe_pos hrun hread hpos)
  · intro s s₁ s₂ t as hreset hrun hset
    exact (run_without_setFlag Clean.step hrun hset hreset.clean).waitsPass

/-- The `interrupt` of one thread overlaps the `reset` of another, which takes back the flag. The
byte in the pipe still ends the wait. No `interrupt` overlaps the next `reset`. -/
theorem pollThreads_interrupts_overlap :
    ∃ s s' : PollThreads Bool,
      (pollThreads Bool).Run .start
        [.read false, .setFlag true, .write true, .clearFlag false] s ∧ s.WaitsThrow ∧
      (pollThreads Bool).Run s
        [.testFlag false false, .poll false .interrupted, .read false, .clearFlag false] s' ∧
      s'.WaitsPass := by
  obtain ⟨hwritten, hreset⟩ := pollThreads_interrupts (ι := Bool)
  have hstart : (pollThreads Bool).Run .start
      [.read false, .setFlag true, .write true, .clearFlag false] _ :=
    .cons (.readShort (.inl rfl) (by decide))
      (.cons (.setFlag rfl) (.cons (.write rfl) (.cons (.clearFlag rfl) (.nil _))))
  have hthrows : WaitsThrow (ι := Bool) _ :=
    hwritten (s := .move (.move .start false .clearing ⟨false, 0⟩) true .interrupting ⟨true, 0⟩)
      (.write (t := true) rfl) (.cons (.clearFlag (t := false) rfl) (.nil _)) (by simp)
  refine ⟨_, _, hstart, hthrows,
    .cons (.flagClear rfl rfl) (.cons (.pollPipe rfl (by decide))
      (.cons (.readShort (.inl rfl) (by decide)) (.cons (.clearFlag rfl) (.nil _)))), ?_⟩
  exact hreset (.mk (by intro t; cases t <;> decide) rfl (.readShort (.inl rfl) (by decide))
    (.nil _) (by simp) (.clearFlag rfl)) (.nil _) (by simp)

end PollThreads

end Dyplo
