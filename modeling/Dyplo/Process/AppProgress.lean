import Mathlib.Algebra.BigOperators.Fin
import Dyplo.Library.Inevitable
import Dyplo.Queue.BlockProgress
import Dyplo.Process.AppAttendance
import Dyplo.Process.AppMeasures

/-!
# The threaded application returns

No thread can go on forever, and somebody can always go on: a stage that cannot write finds its
output too full, so the next one can read, and so on to the sink.
-/

universe u

namespace Dyplo

variable {T : Nat → Type u} {A : ThreadedApp T}

namespace AppState

/-- The steps a stage has taken. -/
def stageTaken (s : AppState A) (i : Fin A.stages) : Nat := A.taken s.queues s.stages i

def sinkTaken (s : AppState A) : Nat :=
  s.sink.taken A.sinkBlocksize (s.queues A.stages).peers.released.length

/-- The steps that all threads together have ahead of them, for `total` lines. -/
def left (total : Nat) (s : AppState A) : Nat :=
  s.main.left A.stages +
    (∑ i : Fin A.stages, (total * (2 * (A.processor i).blocksize + 4) + 3 - s.stageTaken i)) +
    (total * (A.sinkBlocksize + 2) + 2 - s.sinkTaken)

/-- How many users of the queues are not asleep. -/
def up (s : AppState A) : Nat := A.toPipeline.up s.queues

/-- What a step that counts does to the three kinds of threads. -/
structure Advances (s t : AppState A) : Prop where
  main : t.main.left A.stages ≤ s.main.left A.stages
  stages : ∀ i, s.stageTaken i ≤ t.stageTaken i
  sink : s.sinkTaken ≤ t.sinkTaken
  strict : t.main.left A.stages < s.main.left A.stages ∨
    (∃ i, s.stageTaken i < t.stageTaken i) ∨ s.sinkTaken < t.sinkTaken

/-- No thread has more steps behind it than there are. -/
structure WithinBounds (total : Nat) (s : AppState A) : Prop where
  stages : ∀ i, s.stageTaken i ≤ total * (2 * (A.processor i).blocksize + 4) + 3
  sink : s.sinkTaken ≤ total * (A.sinkBlocksize + 2) + 2

private theorem Advances.left_lt {total : Nat} {s t : AppState A} (h : s.Advances t)
    (ht : t.WithinBounds total) : t.left total < s.left total := by
  have hmain := h.main
  have hsink := h.sink
  have hbound := ht.sink
  have hsum : ∑ i : Fin A.stages,
        (total * (2 * (A.processor i).blocksize + 4) + 3 - t.stageTaken i) ≤
      ∑ i : Fin A.stages,
        (total * (2 * (A.processor i).blocksize + 4) + 3 - s.stageTaken i) :=
    Finset.sum_le_sum fun i _ => Nat.sub_le_sub_left (h.stages i) _
  unfold left
  rcases h.strict with hlt | ⟨i, hlt⟩ | hlt
  · omega
  · have hless : ∑ i : Fin A.stages,
          (total * (2 * (A.processor i).blocksize + 4) + 3 - t.stageTaken i) <
        ∑ i : Fin A.stages,
          (total * (2 * (A.processor i).blocksize + 4) + 3 - s.stageTaken i) :=
      Pipeline.sum_left_lt h.stages ht.stages hlt
    omega
  · omega

private theorem left_congr {total : Nat} {s t : AppState A} (hmain : t.main = s.main)
    (hstages : ∀ i, t.stageTaken i = s.stageTaken i) (hsink : t.sinkTaken = s.sinkTaken) :
    t.left total = s.left total := by
  unfold left
  rw [hmain, hsink, Finset.sum_congr rfl fun i _ => by rw [hstages i]]

private theorem setQueue_released {s : AppState A} {i : Nat} {m : Monitor QueueUser (T i)}
    (hm : m.peers.released = (s.queues i).peers.released) (j : Nat) :
    ((s.setQueue i m).queues j).peers.released = (s.queues j).peers.released := by
  change (Function.update s.queues i m j).peers.released = _
  by_cases hji : j = i
  · subst hji; rw [Function.update_self]; exact hm
  · rw [Function.update_of_ne hji]

private theorem setQueue_up {s : AppState A} {i : Nat} {m : Monitor QueueUser (T i)}
    (hm : m.up ≤ (s.queues i).up) (j : Nat) :
    ((s.setQueue i m).queues j).up ≤ (s.queues j).up := by
  change (Function.update s.queues i m j).up ≤ _
  by_cases hji : j = i
  · subst hji; rw [Function.update_self]; exact hm
  · rw [Function.update_of_ne hji]

private theorem setQueue_up_lt {s : AppState A} {i : Nat} {m : Monitor QueueUser (T i)}
    (hi : i ≤ A.stages) (hm : m.up < (s.queues i).up) {t : AppState A}
    (ht : t.queues = (s.setQueue i m).queues) : t.up < s.up := by
  refine Pipeline.up_lt (fun j => ?_) hi ?_
  · rw [ht]
    exact setQueue_up (Nat.le_of_lt hm) j
  · rw [ht]
    change (Function.update s.queues i m i).up < _
    rw [Function.update_self]
    exact hm

section Steps

variable {lines : List (T 0)} {s t : AppState A}

/-- A step counts, or it only puts a thread to sleep. -/
def Progress (total : Nat) (s t : AppState A) : Prop :=
  s.Advances t ∨ t.left total = s.left total ∧ t.up < s.up

private theorem Advances.of_main (hreleased : ∀ j, (t.queues j).peers.released =
    (s.queues j).peers.released) (hstages : t.stages = s.stages) (hsink : t.sink = s.sink)
    (hmain : t.main.left A.stages < s.main.left A.stages) : s.Advances t where
  main := Nat.le_of_lt hmain
  stages i := by rw [stageTaken, stageTaken, Pipeline.taken, Pipeline.taken, hreleased, hstages]
  sink := by rw [sinkTaken, sinkTaken, hreleased, hsink]
  strict := .inl hmain

private theorem Progress.of_sleep {i : Nat} {t' : QueueUser} {call : Call}
    {m : Monitor QueueUser (T i)}
    (hi : i ≤ A.stages) (hready : (s.queues i).Ready t' call)
    (henter : (s.queues i).enter t' call = (.sleeping, m))
    (ht : t = s.setQueue i m) {total : Nat} : Progress total s t := by
  obtain ⟨hpeers, hup⟩ := Monitor.up_of_sleeping hready henter
  subst ht
  have hreleased := setQueue_released (s := s) (congrArg PeerState.released hpeers)
  refine .inr ⟨left_congr rfl (fun k => ?_) ?_, setQueue_up_lt hi hup rfl⟩
  · rw [stageTaken, stageTaken, Pipeline.taken, hreleased]
    rfl
  · rw [sinkTaken, sinkTaken, hreleased]
    rfl

private theorem Advances.of_sink {m : Monitor QueueUser (T A.stages)} {sink : SinkThread}
    {displayed : List (T A.stages)}
    (hlt : s.sinkTaken < sink.taken A.sinkBlocksize m.peers.released.length) :
    s.Advances { s.setQueue A.stages m with sink := sink, displayed := displayed } := by
  have hsink : sinkTaken { s.setQueue A.stages m with sink := sink, displayed := displayed } =
      sink.taken A.sinkBlocksize m.peers.released.length := by
    change sink.taken _ (Function.update s.queues A.stages m A.stages).peers.released.length = _
    rw [Function.update_self]
  rw [← hsink] at hlt
  refine ⟨le_rfl, fun i => ?_, Nat.le_of_lt hlt, .inr (.inr hlt)⟩
  change _ ≤ (s.stages i).taken _ (Function.update s.queues A.stages m i).peers.released.length
  rw [Function.update_of_ne (Nat.ne_of_lt i.isLt)]
  exact le_rfl

private theorem progress_stage (h : AppInv lines s) {i : Fin A.stages} {thread : StageThread (T i)}
    {m : Monitor QueueUser (T i)} {w : Monitor QueueUser (T (i + 1))}
    (hs : (s.stages i).Step .producer .consumer (A.processor i) (s.queues i) (s.queues (i + 1))
      thread m w) {total : Nat} :
    Progress total s (((s.setQueue i m).setQueue (i + 1) w).setStage i thread) := by
  have hwrites := (h.stageMoves hs).writes.released
  have hsink : sinkTaken (((s.setQueue i m).setQueue (i + 1) w).setStage i thread) =
      s.sinkTaken := by
    change s.sink.taken _
      (Function.update (Function.update s.queues i m) (i + 1) w A.stages).peers.released.length = _
    rw [Pipeline.stage_released hwrites _ (Nat.ne_of_gt i.isLt)]
    rfl
  obtain ⟨hother, hlt | ⟨heq, hup⟩⟩ := Pipeline.stage_advances hs (h.stage i) hwrites
  · refine .inl ⟨le_rfl, fun k => ?_, hsink.ge, .inr (.inl ⟨i, hlt⟩)⟩
    by_cases hk : k = i
    · subst hk; exact Nat.le_of_lt hlt
    · exact (hother k hk).ge
  · refine .inr ⟨left_congr rfl (fun k => ?_) hsink, hup⟩
    by_cases hk : k = i
    · subst hk; exact heq
    · exact hother k hk

/-- Every step but a spurious wakeup counts, or puts a thread to sleep. -/
theorem Step.progress (h : AppInv lines s) (hshutdown : s.Shutdown s.main) {total : Nat}
    {thread : AppThread A.stages} (hs : s.Step thread t) (hthread : thread ≠ .spurious) :
    Progress total s t := by
  cases hs with
  | @beginWrite line rest outcome m hmain hready henter =>
    rw [hmain] at hshutdown
    have hm := setQueue_released (s := s) (Monitor.enter_released henter)
    obtain ⟨-, -, ⟨rfl, -⟩ | ⟨-, -, -, hflag⟩ | ⟨rfl, -⟩⟩ := Monitor.enter_spec henter
    · refine .inl (.of_main hm rfl rfl ?_)
      rw [hmain]
      exact Nat.add_lt_add_right (Nat.lt_succ_self _) _
    · rw [hshutdown.quiet] at hflag; cases hflag
    · exact .of_sleep (Nat.zero_le _) hready henter
        (by rw [MainThread.afterBeginWrite, ← hmain]; rfl)
  | store hmain hstep =>
    refine .inl (.of_main (setQueue_released (hstep.released (by simp))) rfl rfl ?_)
    rw [hmain]
    exact Nat.add_lt_add_right (Nat.lt_succ_self _) _
  | endWrite hmain hstep =>
    refine .inl (.of_main (setQueue_released (hstep.released (by simp))) rfl rfl ?_)
    rw [hmain]
    exact MainThread.left_loop _ _
  | @waitEmpty i outcome m hmain hready henter =>
    rw [hmain] at hshutdown
    have hm := setQueue_released (s := s) (Monitor.enter_released henter)
    obtain ⟨-, -, ⟨rfl, -⟩ | ⟨-, -, -, hflag⟩ | ⟨rfl, -⟩⟩ := Monitor.enter_spec henter
    · refine .inl (.of_main hm rfl rfl ?_)
      rw [hmain]
      exact MainThread.left_afterWaitEmpty _ _
    · rw [hshutdown.2.quiet] at hflag; cases hflag
    · exact .of_sleep hshutdown.1 hready henter
        (by rw [MainThread.afterWaitEmpty, ← hmain]; rfl)
  | interruptSink hmain hstep =>
    refine .inl (.of_main (setQueue_released (hstep.released (by simp))) rfl rfl ?_)
    rw [hmain]
    exact Nat.lt_succ_self _
  | joinSink hmain hsink =>
    have hmainLess : (MainThread.terminate A.stages : MainThread (T 0)).left A.stages <
        s.main.left A.stages := by
      rw [hmain]
      exact Nat.lt_succ_of_le (MainThread.left_terminate _ _)
    refine .inl ⟨Nat.le_of_lt hmainLess, fun _ => le_rfl, ?_, .inl hmainLess⟩
    rw [sinkTaken, hsink]
    exact Nat.le_succ _
  | interruptRead hmain hstep =>
    refine .inl (.of_main (setQueue_released (hstep.released (by simp))) rfl rfl ?_)
    rw [hmain]
    exact Nat.lt_succ_self _
  | interruptWrite hmain hstep =>
    refine .inl (.of_main (setQueue_released (hstep.released (by simp))) rfl rfl ?_)
    rw [hmain]
    exact Nat.lt_succ_self _
  | @join i hmain hstage =>
    have hmainLess : (MainThread.terminate i : MainThread (T 0)).left A.stages <
        s.main.left A.stages := by
      rw [hmain]
      exact Nat.lt_succ_of_le (MainThread.left_terminate _ _)
    refine .inl ⟨Nat.le_of_lt hmainLess, fun k => ?_, le_rfl, .inl hmainLess⟩
    change s.stageTaken k ≤ (Function.update s.stages i .joined k).taken _ _
    by_cases hk : k = i
    · subst hk
      rw [Function.update_self, stageTaken, Pipeline.taken, hstage]
      exact Nat.le_succ _
    · rw [Function.update_of_ne hk]
      exact le_rfl
  | stage hstep => exact progress_stage h hstep
  | @sinkBeginRead outcome m hsink hready henter =>
    have hm := Monitor.enter_released henter
    cases outcome with
    | sleeping =>
      exact .of_sleep le_rfl hready henter (by rw [SinkThread.afterBeginRead, ← hsink]; rfl)
    | returned =>
      refine .inl (.of_sink ?_)
      rw [sinkTaken, hsink, hm]
      exact Nat.lt_succ_self _
    | interrupted =>
      refine .inl (.of_sink ?_)
      rw [sinkTaken, hsink, hm]
      exact Nat.lt_succ_self _
  | processItem hsink _ hstep =>
    refine .inl (.of_sink ?_)
    rw [sinkTaken, hsink, hstep.released (by simp)]
    exact Nat.lt_succ_self _
  | sinkEndRead hsink hstep =>
    refine .inl (.of_sink ?_)
    rw [sinkTaken, hsink]
    cases hstep with
    | endRead _ hp _ =>
      obtain rfl := Option.some.inj hp
      have hpos := A.sinkBlocksize_pos
      have hmore : ((s.queues A.stages).peers.released.length + 1) * (A.sinkBlocksize + 2) ≤
          ((s.queues A.stages).peers.released.length + A.sinkBlocksize) *
            (A.sinkBlocksize + 2) := Nat.mul_le_mul_right _ (by omega)
      rw [Nat.succ_mul] at hmore
      change _ < ((s.queues A.stages).peers.released ++
        CyclicBuffer.straight _ _ _).length * _
      rw [List.length_append, CyclicBuffer.straight_length]
      simp only [SinkThread.taken]
      omega
  | spurious _ => exact absurd rfl hthread

end Steps

end AppState

namespace AppInv

variable {lines : List (T 0)} {s : AppState A}

private theorem committed_length_le (h : AppInv lines s) (i : Nat) (hi : i ≤ A.stages) :
    (s.queues i).peers.committed.length ≤ lines.length :=
  (h.committed_image i hi).length_le.trans (A.image_length_le lines i hi)

private theorem withinBounds (h : AppInv lines s) : s.WithinBounds lines.length where
  stages i := (h.stage i).taken_le (h.queue i).1 (h.committed_length_le i (Nat.le_of_lt i.isLt))
  sink := h.sink.taken_le A.sinkBlocksize_pos (h.queue A.stages).1
    (h.committed_length_le _ (Nat.le_refl _))

private theorem readBlock_dvd (h : AppInv lines s) (i : Nat) (hi : i ≤ A.stages) :
    A.readBlock i ∣ (s.queues i).peers.released.length := by
  by_cases hlt : i < A.stages
  · rw [ThreadedApp.readBlock, dif_pos hlt]
    exact (h.stage ⟨i, hlt⟩).released_dvd
  · obtain rfl : i = A.stages := by omega
    rw [ThreadedApp.readBlock, dif_neg hlt]
    exact h.sink.released_dvd

end AppInv

private theorem ThreadedApp.readBlock_dvd_capacity (A : ThreadedApp T) (i : Nat)
    (hi : i ≤ A.stages) :
    A.readBlock i ∣ A.capacity i := by
  by_cases hlt : i < A.stages
  · rw [ThreadedApp.readBlock, dif_pos hlt]
    exact A.input_dvd ⟨i, hlt⟩
  · obtain rfl : i = A.stages := by omega
    rw [ThreadedApp.readBlock, dif_neg hlt]
    exact A.sink_dvd

private theorem ThreadedApp.image_length (A : ThreadedApp T) {lines : List (T 0)}
    (hdvd : ∀ i, i ≤ A.stages → A.readBlock i ∣ lines.length) (i : Nat) (hi : i ≤ A.stages) :
    (A.image lines i hi).length = lines.length := by
  induction i with
  | zero => rfl
  | succ i ih =>
    have hlt : i < A.stages := hi
    have hlen := ih (Nat.le_of_succ_le hi)
    have hblock := hdvd i (Nat.le_of_succ_le hi)
    rw [ThreadedApp.readBlock, dif_pos hlt, ← hlen] at hblock
    rw [Pipeline.image, blockwise_length (A.processor ⟨i, hi⟩).processBlock_length hblock]
    exact hlen

namespace AppState

variable {lines : List (T 0)} {s : AppState A}

/-- Nobody can take a step. -/
def Stuck (s : AppState A) : Prop := ∀ thread t, thread ≠ .spurious → ¬ s.Step thread t

private theorem Stuck.stage (h : s.Stuck) (hinv : AppInv lines s) (hattendance : s.Attendance)
    (i : Fin A.stages) (hlive : s.stages i ≠ .exited ∧ s.stages i ≠ .joined) :
    (s.stages i = .beginRead ∧ (s.queues i).peers.queue.size < (A.processor i).blocksize ∧
        (s.queues i).scheduler.interrupted .notEmpty = false) ∨
      (∃ src, s.stages i = .beginWrite src) ∧
        (s.queues (i + 1)).peers.queue.available < (A.processor i).blocksize := by
  have hreads : (s.queues i).Inside .consumer
      (((s.stages i).reading (A.processor i).blocksize).map .beginRead) := by
    rw [← readCall_stage i]
    exact (hattendance i).inside_of .consumer
  have hwrites : (s.queues (i + 1)).Inside .producer
      (((s.stages i).writing (A.processor i).blocksize).map .beginWrite) := by
    rw [← writeCall_stage i]
    exact (hattendance (i + 1)).inside_of .producer
  rcases StageThread.step_or_asleep hreads hwrites (hinv.stage i) hlive with
    ⟨thread, m, w, hstep⟩ | hasleep
  · exact absurd (Step.stage hstep) (h _ _ (by simp))
  · exact hasleep

private theorem Stuck.sink (h : s.Stuck) (hinv : AppInv lines s) (hattendance : s.Attendance)
    (hlive : s.sink ≠ .exited ∧ s.sink ≠ .joined) :
    (s.queues A.stages).peers.queue.size < A.sinkBlocksize ∧
      (s.queues A.stages).scheduler.interrupted .notEmpty = false := by
  have hshown := hinv.sink.shown
  have hattended := hattendance A.stages
  have hreader : s.sink.reading A.sinkBlocksize = none →
      (s.queues A.stages).threads .consumer = .running :=
    fun hnone => hattended.running (by rw [PendingCalls.of, pending, readCall_sink, hnone]; rfl)
  cases hsink : s.sink with
  | exited => exact absurd hsink hlive.1
  | joined => exact absurd hsink hlive.2
  | beginRead =>
    have hcall : (s.pending A.stages).of .consumer = some (.beginRead A.sinkBlocksize) := by
      rw [PendingCalls.of, pending, readCall_sink, hsink]; rfl
    rcases hattended.inside hcall with hready | ⟨-, hwaits, hflag⟩
    · exact absurd (Step.sinkBeginRead hsink hready rfl) (h _ _ (by simp))
    · exact ⟨hwaits, hflag⟩
  | processItem src shown =>
    rw [hsink] at hshown hreader
    rcases Nat.lt_or_eq_of_le hshown.2.2.1 with hlt | rfl
    · exact absurd (Step.processItem hsink hlt (.load (hreader rfl) rfl)) (h _ _ (by simp))
    · obtain ⟨threads, hsignal⟩ := Signal.exists .notFull (s.queues A.stages).threads
      exact absurd (Step.sinkEndRead hsink (.endRead (hreader rfl) rfl hsignal)) (h _ _ (by simp))

/-- If all stages and the sink are stuck in their loops, no queue holds a block for its reader: a
stage that sleeps for room finds its output too full to be without one. -/
theorem Stuck.no_block (h : s.Stuck) (hinv : AppInv lines s) (hattendance : s.Attendance)
    (hopen : s.Open) (i : Nat) (hi : i ≤ A.stages) :
    (s.queues i).peers.queue.size < A.readBlock i := by
  induction hdistance : A.stages - i generalizing i with
  | zero =>
    obtain rfl : i = A.stages := by omega
    rw [ThreadedApp.readBlock, dif_neg (Nat.lt_irrefl _)]
    exact (h.sink hinv hattendance hopen.sink).1
  | succ n ih =>
    have hlt : i < A.stages := by omega
    rw [ThreadedApp.readBlock, dif_pos hlt]
    rcases h.stage hinv hattendance ⟨i, hlt⟩ (hopen.stages _) with ⟨-, hsize, -⟩ | ⟨-, hfull⟩
    · exact hsize
    · exfalso
      have hnext := ih (i + 1) hlt (by omega)
      have hq := (hinv.queue (i + 1)).1
      have hend := (hinv.queue (i + 1)).2
      have hroom := hq.available_add_size
      rw [hend] at hroom
      have hsome := block_room_or_content (A.capacity_pos (i + 1) hlt) (A.output_dvd ⟨i, hlt⟩)
        (A.readBlock_dvd_capacity (i + 1) hlt)
        ((hinv.stage ⟨i, hlt⟩).committed_dvd (hinv.queue i).1) (hinv.readBlock_dvd (i + 1) hlt)
        hq.committed_length (by omega)
      change (s.queues (i + 1)).peers.queue.available < (A.processor ⟨i, hlt⟩).blocksize at hfull
      omega

private theorem Stuck.waitEmpty (h : s.Stuck) (hinv : AppInv lines s) (hattendance : s.Attendance)
    (hdvd : ∀ i, i ≤ A.stages → A.readBlock i ∣ lines.length) {i : Nat}
    (hmain : s.main = .waitEmpty i) (hi : i ≤ A.stages) (hopen : s.Open) : False := by
  have hcall : (s.pending i).of .waiter = some .waitEmpty := by
    rw [PendingCalls.of, pending, hmain]
    exact if_pos (beq_self_eq_true i)
  rcases (hattendance i).inside hcall with hready | ⟨-, hwaits, -⟩
  · exact absurd (Step.waitEmpty hmain hready rfl) (h _ _ (by simp))
  · have hblock := h.no_block hinv hattendance hopen i hi
    have hlength := (hinv.queue i).1.committed_length
    have hpushed := hinv.feeding
    rw [hmain] at hpushed
    rw [hinv.committed_of_drained hpushed i hi (by rw [hmain]; exact le_rfl),
      A.image_length hdvd] at hlength
    have hsize : A.readBlock i ∣ (s.queues i).peers.queue.size :=
      (Nat.dvd_add_right (hinv.readBlock_dvd i hi)).mp (hlength ▸ hdvd i hi)
    have hzero := Nat.eq_zero_of_dvd_of_lt hsize hblock
    exact beq_eq_false_iff_ne.mp hwaits hzero

private theorem Stuck.beginWrite (h : s.Stuck) (hinv : AppInv lines s) (hattendance : s.Attendance)
    {line : T 0} {rest : List (T 0)} (hmain : s.main = .beginWrite line rest) (hopen : s.Open) :
    False := by
  have hcall : (s.pending 0).of .producer = some (.beginWrite 1) := by
    rw [PendingCalls.of, pending, writeCall, hmain]; rfl
  rcases (hattendance 0).inside hcall with hready | ⟨-, hwaits, -⟩
  · exact absurd (Step.beginWrite hmain hready rfl) (h _ _ (by simp))
  · have hblock := h.no_block hinv hattendance hopen 0 (Nat.zero_le _)
    have hroom := (hinv.queue 0).1.available_add_size
    rw [(hinv.queue 0).2] at hroom
    have hle := Nat.le_of_dvd (A.capacity_pos 0 (Nat.zero_le _))
      (A.readBlock_dvd_capacity 0 (Nat.zero_le _))
    change (s.queues 0).peers.queue.available < 1 at hwaits
    omega

private theorem Stuck.join (h : s.Stuck) (hinv : AppInv lines s) (hattendance : s.Attendance)
    {i : Nat} (hmain : s.main = .join i) (hi : i < A.stages) (hjoined : s.JoinedFrom (i + 1))
    (hflag : s.Interrupted i) : False := by
  have hnot : s.stages ⟨i, hi⟩ ≠ .joined :=
    fun heq => absurd ((hjoined.stages ⟨i, hi⟩).mp heq) (Nat.not_succ_le_self i)
  by_cases hexited : s.stages ⟨i, hi⟩ = .exited
  · exact absurd (Step.join (i := ⟨i, hi⟩) hmain hexited) (h _ _ (by simp))
  · rcases h.stage hinv hattendance ⟨i, hi⟩ ⟨hexited, hnot⟩ with ⟨-, -, hclear⟩ | ⟨⟨src, heq⟩, -⟩
    · rw [Interrupted, hclear] at hflag
      cases hflag
    · have hidle := hinv.idle ⟨i, hi⟩
        (hinv.drained i (by rw [hmain]; exact Nat.lt_succ_of_lt hi))
      rw [heq] at hidle
      exact hidle

/-- Nobody is stuck before `main` has returned, if the lines are whole blocks for every reader. -/
theorem Stuck.returned (h : s.Stuck) (hshutdown : s.Shutdown s.main) (hinv : AppInv lines s)
    (hattendance : s.Attendance)
    (hdvd : ∀ i, i ≤ A.stages → A.readBlock i ∣ lines.length) : s.main = .returned := by
  have hproducer : s.main.writing = none → (s.queues 0).threads .producer = .running := by
    intro hnone
    apply (hattendance 0).running
    rw [PendingCalls.of]
    exact congrArg (Option.map Call.beginWrite) hnone
  cases hmain : s.main with
  | returned => rfl
  | uncaught => rw [hmain] at hshutdown; exact hshutdown.elim
  | beginWrite line rest =>
    rw [hmain] at hshutdown
    exact (h.beginWrite hinv hattendance hmain hshutdown).elim
  | store line rest =>
    exact absurd (Step.store hmain (.store (hproducer (by rw [hmain]; rfl)) rfl)) (h _ _ (by simp))
  | endWrite rest =>
    obtain ⟨threads, hsignal⟩ := Signal.exists .notEmpty (s.queues 0).threads
    exact absurd (Step.endWrite hmain (.endWrite (hproducer (by rw [hmain]; rfl)) rfl hsignal))
      (h _ _ (by simp))
  | waitEmpty i =>
    rw [hmain] at hshutdown
    exact (h.waitEmpty hinv hattendance hdvd hmain hshutdown.1 hshutdown.2).elim
  | interruptSink =>
    obtain ⟨threads, hsignal⟩ := Signal.exists .notEmpty (s.queues A.stages).threads
    exact absurd (Step.interruptSink hmain (.interruptRead hsignal)) (h _ _ (by simp))
  | joinSink =>
    rw [hmain] at hshutdown
    obtain ⟨hflag, hnot, -⟩ := hshutdown
    by_cases hexited : s.sink = .exited
    · exact absurd (Step.joinSink hmain hexited) (h _ _ (by simp))
    · have hclear := (h.sink hinv hattendance ⟨hexited, hnot⟩).2
      rw [Interrupted, hclear] at hflag
      cases hflag
  | interruptRead i =>
    obtain ⟨threads, hsignal⟩ := Signal.exists .notEmpty (s.queues i).threads
    exact absurd (Step.interruptRead hmain (.interruptRead hsignal)) (h _ _ (by simp))
  | interruptWrite i =>
    obtain ⟨threads, hsignal⟩ := Signal.exists .notFull (s.queues (i + 1)).threads
    exact absurd (Step.interruptWrite hmain (.interruptWrite hsignal)) (h _ _ (by simp))
  | join i =>
    rw [hmain] at hshutdown
    exact (h.join hinv hattendance hmain hshutdown.1 hshutdown.2.1 hshutdown.2.2).elim

/-- A step of the program, whoever takes it; no thread wakes up without a reason. -/
def QuietStep (s t : AppState A) : Prop :=
  ∃ thread : AppThread A.stages, thread ≠ .spurious ∧ s.Step thread t

/-- A thread wakes up although nobody has signalled. -/
def SpuriousStep (s t : AppState A) : Prop := s.Step .spurious t

end AppState

private theorem AppInv.dvd_of_returned {lines : List (T 0)} {s : AppState A} (h : AppInv lines s)
    (hmain : s.main = .returned) : ∀ i, i ≤ A.stages → A.readBlock i ∣ lines.length := by
  have hdvd : ∀ i (hi : i ≤ A.stages), A.readBlock i ∣ (A.image lines i hi).length := by
    intro i hi
    rw [← h.drained_image i hi (by rw [hmain]; exact Nat.lt_succ_of_le hi)]
    exact h.readBlock_dvd i hi
  have hlength : ∀ i (hi : i ≤ A.stages), (A.image lines i hi).length = lines.length := by
    intro i hi
    induction i with
    | zero => rfl
    | succ i ih =>
      have hlt : i < A.stages := hi
      have hblock := hdvd i (Nat.le_of_succ_le hi)
      rw [ThreadedApp.readBlock, dif_pos hlt] at hblock
      rw [Pipeline.image, blockwise_length (A.processor ⟨i, hi⟩).processBlock_length hblock]
      exact ih (Nat.le_of_succ_le hi)
  intro i hi
  rw [← hlength i hi]
  exact hdvd i hi

/-- From every state of every interleaving the program returns sooner or later, whoever is
scheduled and however many spurious wakeups are still to come, if and only if the number of lines
is a multiple of every block size. -/
theorem threadedApp_returns (A : ThreadedApp T) (lines : List (T 0)) (s : AppState A)
    (h : (A.system lines).Reachable s) (n : Nat) :
    Inevitable (Interspersed AppState.QuietStep AppState.SpuriousStep)
        (fun t => t.1.main = .returned) (s, n) ↔
      ∀ i, i ≤ A.stages → A.readBlock i ∣ lines.length := by
  have hquiet : ∀ s t : AppState A, (A.system lines).Reachable s → s.QuietStep t →
      (A.system lines).Reachable t := by
    rintro s t hs ⟨thread, -, hstep⟩
    exact hs.step hstep
  have hspurious : ∀ s t : AppState A, (A.system lines).Reachable s → s.SpuriousStep t →
      (A.system lines).Reachable t := fun s t hs hstep => hs.step hstep
  constructor
  · intro hinevitable
    obtain ⟨t, ht, hreturned⟩ := hinevitable.exists_of_invariant
      (I := fun t => (A.system lines).Reachable t.1)
      (fun _ _ hs hst => hst.preserves hquiet hspurious hs) h
    exact (ThreadedApp.invariant ht).2.dvd_of_returned hreturned
  · intro hdvd
    refine Inevitable.interspersed (Q := fun t : AppState A => t.main = .returned)
      (m := fun s => (s.left lines.length, s.up)) (wellFounded_lt.prod_lex wellFounded_lt)
      ?_ ?_ hspurious h n
    · intro s hs
      obtain ⟨hshutdown, hinv⟩ := ThreadedApp.invariant hs
      by_cases hnext : ∃ t, s.QuietStep t
      · exact .inr hnext
      · left
        refine AppState.Stuck.returned ?_ hshutdown hinv (ThreadedApp.attendance hs) hdvd
        intro thread t hthread hs'
        exact hnext ⟨t, thread, hthread, hs'⟩
    · rintro s t hs ⟨thread, hthread, hs'⟩
      obtain ⟨hshutdown, hinv⟩ := ThreadedApp.invariant hs
      have ht := hs.step hs'
      refine ⟨ht, ?_⟩
      rcases hs'.progress hinv hshutdown hthread with hadvances | ⟨hleft, hup⟩
      · exact .left _ _ (hadvances.left_lt (ThreadedApp.invariant ht).2.withinBounds)
      · rw [hleft]
        exact .right _ hup

/-- Two lines through `AddFive`, with three spurious wakeups on the way. -/
theorem threadedApp_returns_addFive :
    Inevitable (Interspersed AppState.QuietStep AppState.SpuriousStep)
        (fun t => t.1.main = .returned)
        (addFiveApp.start (fun _ _ => (0 : Nat)) [(60 : Nat), (61 : Nat)], 3) ↔
      ∀ i, i ≤ addFiveApp.stages → addFiveApp.readBlock i ∣ [(60 : Nat), (61 : Nat)].length :=
  threadedApp_returns addFiveApp [(60 : Nat), (61 : Nat)] _ (.init ⟨_, rfl⟩) 3

end Dyplo
