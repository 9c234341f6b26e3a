import Mathlib.Tactic.SplitIfs
import Dyplo.Library.TransitionSystem

/-!
# The thread of a `ThreadedProcessBase`

`set_input` and `set_output` start the thread when both queues are set, and `terminate` joins it.
The base keeps one handle, which every start overwrites. When a thread returns from `process` is up
to its processor and its queues.
-/

namespace Dyplo

/-- What `m_thread` holds: `pthread_self()`, a thread, or what a failed `pthread_create` leaves. -/
inductive ThreadHandle
  | self
  | thread (id : Nat)
  | undefined
  deriving DecidableEq

variable {ι ο : Type}

/-- Where a thread is in `run`. -/
inductive ProcessThread (ι ο : Type)
  /-- It has not read the members yet. -/
  | started
  /-- It is in `m_processor.process(input, output)`. -/
  | processing (input : Option ι) (output : Option ο)
  | returned
  deriving DecidableEq

/-- What the caller is doing. -/
inductive OwnerPlace
  | idle
  /-- In the `m_thread.join()` of `terminate`. -/
  | joining
  deriving DecidableEq

/-- The members, and all threads that have been started and not joined. A null pointer is `none`. -/
structure ThreadedProcessBase (ι ο : Type) where
  input : Option ι
  output : Option ο
  mThread : ThreadHandle
  threads : List (Nat × ProcessThread ι ο)
  nextId : Nat
  place : OwnerPlace
  deriving DecidableEq

namespace ThreadedProcessBase

/-- After the constructor. -/
def new : ThreadedProcessBase ι ο where
  input := none
  output := none
  mThread := .self
  threads := []
  nextId := 0
  place := .idle

variable (s : ThreadedProcessBase ι ο)

/-- `input && output` -/
def bothSet : Bool := s.input.isSome && s.output.isSome

/-- `start`, with `pthread_create` successful or not. -/
def start (created : Bool) : ThreadedProcessBase ι ο :=
  if created then
    { s with
      mThread := .thread s.nextId
      threads := s.threads ++ [(s.nextId, .started)]
      nextId := s.nextId + 1 }
  else { s with mThread := .undefined }

def setInput (value : Option ι) (created : Bool) : ThreadedProcessBase ι ο :=
  let s := { s with input := value }
  if s.bothSet then s.start created else s

def setOutput (value : Option ο) (created : Bool) : ThreadedProcessBase ι ο :=
  let s := { s with output := value }
  if s.bothSet then s.start created else s

/-- `input = NULL; output = NULL` at the end of `terminate`. -/
def clear : ThreadedProcessBase ι ο :=
  { s with input := none, output := none, place := .idle }

/-- `terminate` up to the join, before which both queues are interrupted. -/
def terminate : ThreadedProcessBase ι ο :=
  if s.bothSet then { s with place := .joining } else s.clear

/-- A successful join. -/
def join (id : Nat) : ThreadedProcessBase ι ο :=
  { s with mThread := .self, threads := s.threads.filter fun thread => thread.1 ≠ id }

/-- The thread goes on to another place. -/
def moveThread (id : Nat) (t : ProcessThread ι ο) : ThreadedProcessBase ι ο :=
  { s with threads := s.threads.map fun thread => if thread.1 = id then (id, t) else thread }

end ThreadedProcessBase

/-- Calls of the owner, which pass no null pointers, and steps of threads. -/
inductive OwnerAction (ι ο : Type)
  | setInput (value : ι) (created : Bool)
  | setOutput (value : ο) (created : Bool)
  | terminate
  | joined
  | enter (id : Nat)
  | leave (id : Nat)

/-- No `pthread_create` fails. -/
def OwnerAction.creates : OwnerAction ι ο → Prop
  | .setInput _ created => created = true
  | .setOutput _ created => created = true
  | _ => True

/-- The atomic steps. A call of the owner comes after the one before has returned. -/
inductive ThreadedProcessBase.Step (s : ThreadedProcessBase ι ο) :
    OwnerAction ι ο → ThreadedProcessBase ι ο → Prop
  | setInput {value : ι} {created : Bool} : s.place = .idle →
      Step s (.setInput value created) (s.setInput (some value) created)
  | setOutput {value : ο} {created : Bool} : s.place = .idle →
      Step s (.setOutput value created) (s.setOutput (some value) created)
  | terminate : s.place = .idle → Step s .terminate s.terminate
  /-- `pthread_join` fails with `EDEADLK`. -/
  | joinSelf : s.place = .joining → s.mThread = .self → Step s .joined s.clear
  | join {id : Nat} : s.place = .joining → s.mThread = .thread id → (id, .returned) ∈ s.threads →
      Step s .joined (s.join id).clear
  | enter {id : Nat} : (id, .started) ∈ s.threads →
      Step s (.enter id) (s.moveThread id (.processing s.input s.output))
  | leave {id : Nat} {input : Option ι} {output : Option ο} :
      (id, .processing input output) ∈ s.threads →
      Step s (.leave id) (s.moveThread id .returned)

/-- Every sequence of calls of one owner. -/
def threadOwner (ι ο : Type) : TransitionSystem (ThreadedProcessBase ι ο) (OwnerAction ι ο) where
  init s := s = .new
  step s a t := s.Step a t

/-- There is one thread if both queues are set and none otherwise, and it works on these queues. -/
structure ThreadedProcessBase.OwnsOneThread (s : ThreadedProcessBase ι ο) : Prop where
  count : s.threads.length = if s.bothSet then 1 else 0
  uses : ∀ id input output, (id, .processing input output) ∈ s.threads →
    input = s.input ∧ output = s.output

/-- Neither setter is called while both queues are set, and `pthread_create` does not fail. -/
def PlumbsOnce (s : ThreadedProcessBase ι ο) : OwnerAction ι ο → Prop
  | .setInput _ created => s.bothSet = false ∧ (s.output.isSome = true → created = true)
  | .setOutput _ created => s.bothSet = false ∧ (s.input.isSome = true → created = true)
  | _ => True

/-- A thread that is in `process` is there with these queues. -/
def ProcessThread.Uses (input : Option ι) (output : Option ο) : ProcessThread ι ο → Prop
  | .processing input' output' => input' = input ∧ output' = output
  | _ => True

/-- The handle is that of the only thread, which is there exactly when both queues are set. -/
inductive ThreadedProcessBase.Owned (s : ThreadedProcessBase ι ο) : Prop
  | unset : s.bothSet = false → s.threads = [] → s.mThread = .self → s.place = .idle → Owned s
  | set {id : Nat} {t : ProcessThread ι ο} : s.bothSet = true → s.threads = [(id, t)] →
      s.mThread = .thread id → t.Uses s.input s.output → Owned s

namespace ThreadedProcessBase

variable {s : ThreadedProcessBase ι ο}

private theorem bothSet_setInput (value : ι) :
    ({ s with input := some value } : ThreadedProcessBase ι ο).bothSet = s.output.isSome := by
  simp [bothSet]

private theorem bothSet_setOutput (value : ο) :
    ({ s with output := some value } : ThreadedProcessBase ι ο).bothSet = s.input.isSome := by
  simp [bothSet]

private theorem Owned.start (hthreads : s.threads = []) (hset : s.bothSet = true) :
    (s.start true).Owned := by
  have hone : (s.start true).threads = [(s.nextId, .started)] := by
    simp [ThreadedProcessBase.start, hthreads]
  exact .set hset hone rfl trivial

private theorem Owned.startIfSet (hthreads : s.threads = []) (hself : s.mThread = .self)
    (hplace : s.place = .idle) {created : Bool} (hcreated : s.bothSet = true → created = true) :
    (if s.bothSet then s.start created else s).Owned := by
  split_ifs with hset
  · rw [hcreated hset]
    exact .start hthreads hset
  · exact .unset (by simpa using hset) hthreads hself hplace

private theorem Owned.clear (hthreads : s.threads = [])
    (hself : s.mThread = .self) : s.clear.Owned :=
  .unset rfl hthreads hself rfl

private theorem Owned.threads_eq_nil (h : s.Owned) (hset : s.bothSet = false) :
    s.threads = [] ∧ s.mThread = .self ∧ s.place = .idle := by
  cases h with
  | unset _ hthreads hself hplace => exact ⟨hthreads, hself, hplace⟩
  | set hset' _ _ _ => rw [hset] at hset'; cases hset'

private theorem Owned.of_mem (h : s.Owned) {id : Nat} {t : ProcessThread ι ο}
    (hmem : (id, t) ∈ s.threads) :
    s.bothSet = true ∧ s.threads = [(id, t)] ∧ s.mThread = .thread id ∧
      t.Uses s.input s.output := by
  cases h with
  | unset _ hthreads _ _ =>
    rw [hthreads] at hmem
    cases hmem
  | set hset hthreads hhandle huses =>
    rw [hthreads] at hmem
    obtain ⟨rfl, rfl⟩ := Prod.mk.inj (List.mem_singleton.mp hmem)
    exact ⟨hset, hthreads, hhandle, huses⟩

private theorem Owned.moveThread (h : s.Owned) {id : Nat} {t t' : ProcessThread ι ο}
    (hmem : (id, t) ∈ s.threads) (huses : t'.Uses s.input s.output) :
    (s.moveThread id t').Owned := by
  obtain ⟨hset, hthreads, hhandle, -⟩ := h.of_mem hmem
  exact .set hset (by simp [ThreadedProcessBase.moveThread, hthreads]) hhandle huses

/-- A step keeps the one thread unless a setter is called on a live process. -/
theorem Owned.step (h : s.Owned) {a : OwnerAction ι ο} {t : ThreadedProcessBase ι ο}
    (hstep : s.Step a t) (hplumbs : PlumbsOnce s a) : t.Owned := by
  cases hstep with
  | @setInput value created hplace =>
    obtain ⟨hthreads, hself, -⟩ := h.threads_eq_nil hplumbs.1
    apply Owned.startIfSet (s := { s with input := some value }) hthreads hself hplace
    intro hset
    exact hplumbs.2 ((bothSet_setInput value).symm.trans hset)
  | @setOutput value created hplace =>
    obtain ⟨hthreads, hself, -⟩ := h.threads_eq_nil hplumbs.1
    apply Owned.startIfSet (s := { s with output := some value }) hthreads hself hplace
    intro hset
    exact hplumbs.2 ((bothSet_setOutput value).symm.trans hset)
  | terminate hplace =>
    unfold ThreadedProcessBase.terminate
    split_ifs with hset
    · cases h with
      | unset hnot _ _ _ => rw [hset] at hnot; cases hnot
      | set hset hthreads hhandle huses => exact .set hset hthreads hhandle huses
    · obtain ⟨hthreads, hself, -⟩ := h.threads_eq_nil (by simpa using hset)
      exact .clear hthreads hself
  | joinSelf hplace hself =>
    cases h with
    | unset _ hthreads _ _ => exact .clear hthreads hself
    | set _ _ hhandle _ => rw [hself] at hhandle; cases hhandle
  | @join id hplace hhandle hmem =>
    obtain ⟨-, hthreads, -, -⟩ := h.of_mem hmem
    exact .clear (by simp [ThreadedProcessBase.join, hthreads]) rfl
  | enter hmem => exact h.moveThread hmem ⟨rfl, rfl⟩
  | leave hmem => exact h.moveThread hmem trivial

private theorem Step.bothSet_of_terminate {t : ThreadedProcessBase ι ο} (h : s.Step .terminate t)
    (hidle : t.place = .idle) : t.bothSet = false := by
  cases h with
  | terminate hplace =>
    unfold ThreadedProcessBase.terminate at hidle ⊢
    by_cases hset : s.bothSet = true
    · rw [if_pos hset] at hidle
      cases hidle
    · rw [if_neg hset]
      rfl

private theorem Step.bothSet_of_joined {t : ThreadedProcessBase ι ο} (h : s.Step .joined t) :
    t.bothSet = false := by
  cases h with
  | joinSelf _ _ => rfl
  | join _ _ _ => rfl

private theorem not_ownsOneThread_start {created : Bool} (hset : s.bothSet = true)
    (hthreads : s.threads.length = if created then 1 else 0) :
    ¬ (s.start created).OwnsOneThread := by
  intro h
  have hcount := h.count
  cases created with
  | true =>
    have hset' : (s.start true).bothSet = true := hset
    rw [hset'] at hcount
    simp only [ThreadedProcessBase.start, if_true, List.length_append, List.length_singleton]
      at hcount hthreads
    omega
  | false =>
    have hset' : (s.start false).bothSet = true := hset
    rw [hset'] at hcount
    simp only [ThreadedProcessBase.start, Bool.false_eq_true, if_false, if_true]
      at hcount hthreads
    omega

private theorem Owned.ownsOneThread (h : s.Owned) : s.OwnsOneThread := by
  constructor
  · cases h with
    | unset hset hthreads _ _ => simp [hset, hthreads]
    | set hset hthreads _ _ => simp [hset, hthreads]
  · intro id input output hmem
    exact (h.of_mem hmem).2.2.2

/-- What a setter that breaks the condition finds: the other queue is set, and there is a thread
already or there will be none. -/
theorem Owned.of_broken (h : s.Owned) {other created : Bool}
    (hother : s.bothSet = true → other = true) (hcreated : s.bothSet = true → created = true)
    (hbroken : ¬ (s.bothSet = false ∧ (other = true → created = true))) :
    other = true ∧ s.threads.length = if created then 1 else 0 := by
  by_cases hset : s.bothSet = true
  · exact ⟨hother hset, by rw [h.ownsOneThread.count, hset, hcreated hset]⟩
  · have hunset : s.bothSet = false := by simpa using hset
    obtain ⟨hother', hfails⟩ := Classical.not_imp.mp fun hplumbs => hbroken ⟨hunset, hplumbs⟩
    rw [h.ownsOneThread.count, hunset, if_neg hfails]
    exact ⟨hother', rfl⟩

/-- The condition is exact: a call that breaks it leaves too many threads or none, unless the start
of a second thread fails. -/
theorem Owned.not_ownsOneThread (h : s.Owned) {a : OwnerAction ι ο} {t : ThreadedProcessBase ι ο}
    (hstep : s.Step a t) (hbroken : ¬ PlumbsOnce s a) (hcreates : s.bothSet = true → a.creates) :
    ¬ t.OwnsOneThread := by
  cases hstep with
  | @setInput value created hplace =>
    have hother : s.bothSet = true → s.output.isSome = true := by simp [bothSet]
    obtain ⟨houtput, hthreads⟩ := h.of_broken hother hcreates hbroken
    have hset := (bothSet_setInput (s := s) value).trans houtput
    rw [ThreadedProcessBase.setInput, if_pos hset]
    exact not_ownsOneThread_start hset hthreads
  | @setOutput value created hplace =>
    have hother : s.bothSet = true → s.input.isSome = true := by simp +contextual [bothSet]
    obtain ⟨hinput, hthreads⟩ := h.of_broken hother hcreates hbroken
    have hset := (bothSet_setOutput (s := s) value).trans hinput
    rw [ThreadedProcessBase.setOutput, if_pos hset]
    exact not_ownsOneThread_start hset hthreads
  | terminate _ => exact absurd trivial hbroken
  | joinSelf _ _ => exact absurd trivial hbroken
  | join _ _ _ => exact absurd trivial hbroken
  | enter _ => exact absurd trivial hbroken
  | leave _ => exact absurd trivial hbroken

end ThreadedProcessBase

private theorem owned_of_reachable {s : ThreadedProcessBase ι ο}
    (hs : ((threadOwner ι ο).restrict fun s a _ => PlumbsOnce s a).Reachable s) : s.Owned := by
  apply hs.restrict_invariant
  · rintro s rfl
    exact .unset rfl rfl rfl rfl
  · intro s a t h hstep hplumbs
    exact h.step hstep hplumbs

/-- A process whose setters are called only while a queue is missing never has a second thread, and
has none when `terminate` has returned. -/
theorem ownsOneThread_of_reachable {s : ThreadedProcessBase ι ο}
    (hs : ((threadOwner ι ο).restrict fun s a _ => PlumbsOnce s a).Reachable s) :
    s.OwnsOneThread ∧ ∀ t, s.Step .terminate t ∨ s.Step .joined t → t.place = .idle →
      t.threads = [] := by
  have howned := owned_of_reachable hs
  refine ⟨howned.ownsOneThread, ?_⟩
  rintro t (hstep | hstep) hidle
  · exact ((howned.step hstep trivial).threads_eq_nil (hstep.bothSet_of_terminate hidle)).1
  · exact ((howned.step hstep trivial).threads_eq_nil hstep.bothSet_of_joined).1

section Example

/-- Queues are numbered. -/
def plumbed : ThreadedProcessBase Nat Nat :=
  (ThreadedProcessBase.new.setInput (some 0) true).setOutput (some 1) true

private theorem plumbed_reachable :
    ((threadOwner Nat Nat).restrict fun s a _ => PlumbsOnce s a).Reachable plumbed := by
  have hinput : ((threadOwner Nat Nat).restrict fun s a _ => PlumbsOnce s a).Reachable
      (ThreadedProcessBase.new.setInput (some 0) true) := by
    apply TransitionSystem.Reachable.step (a := .setInput 0 true) (.init rfl)
    exact ⟨.setInput rfl, rfl, fun _ => rfl⟩
  apply hinput.step (a := .setOutput 1 true)
  exact ⟨.setOutput rfl, rfl, fun _ => rfl⟩

theorem ownsOneThread_of_reachable_plumbed :
    plumbed.OwnsOneThread ∧ ∀ t, plumbed.Step .terminate t ∨ plumbed.Step .joined t →
      t.place = .idle → t.threads = [] :=
  ownsOneThread_of_reachable plumbed_reachable

/-- A second `set_input` starts a second thread, and the handle of the first one is lost. -/
theorem replumbed_not_ownsOneThread :
    (threadOwner Nat Nat).Reachable (plumbed.setInput (some 2) true) ∧
      ¬ (plumbed.setInput (some 2) true).OwnsOneThread := by
  refine ⟨plumbed_reachable.of_restrict.step (a := .setInput 2 true) (.setInput rfl), ?_⟩
  intro h
  exact absurd h.count (by decide)

end Example

end Dyplo
