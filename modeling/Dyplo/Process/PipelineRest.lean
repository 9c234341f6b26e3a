import Dyplo.Library.Inevitable
import Dyplo.Queue.BlockProgress
import Dyplo.Process.PipelineAttendance

/-!
# Pipelines come to rest

Left alone, the stages of a pipeline work until each of them waits for a block or for room. If
the last queue still has room then, no stage has held anything back.
-/

universe u

namespace Dyplo

private theorem StageInv.committed_all {β γ : Type u} {processor : StaticProcessor β γ}
    {p : PeerState β}
    {q : PeerState γ} (h : StageInv processor p q .beginRead) (hp : PeerInv p)
    (hsize : p.queue.size < processor.blocksize) :
    q.committed = blockwise processor.blocksize processor.processBlock p.committed := by
  have hrest : blockwise processor.blocksize processor.processBlock p.queue.content = [] := by
    apply blockwise_of_lt
    rw [FixedMemoryQueue.content_length]
    exact hsize
  rw [h.delivered, hp.fifo, blockwise_append processor.blocksize_pos _ h.released_dvd, hrest]
  rfl

section Undisturbed

variable {ι : Type*} [DecidableEq ι] {β γ : Type u} {producer consumer : ι}
  {processor : StaticProcessor β γ} {thread thread' : StageThread β} {m m' : Monitor ι β}
  {w w' : Monitor ι γ}

private theorem StageThread.Step.scheduler
    (hs : thread.Step producer consumer processor m w thread' m' w') :
    m'.scheduler = m.scheduler ∧ w'.scheduler = w.scheduler := by
  cases hs with
  | beginRead _ henter => exact ⟨(Monitor.enter_spec henter).1, rfl⟩
  | beginWrite _ henter => exact ⟨rfl, (Monitor.enter_spec henter).1⟩
  | load _ hstep => cases hstep with | load _ _ => exact ⟨rfl, rfl⟩
  | store _ _ _ hstep => cases hstep with | store _ _ => exact ⟨rfl, rfl⟩
  | endWrite hstep => cases hstep with | endWrite _ _ _ => exact ⟨rfl, rfl⟩
  | endRead hstep => cases hstep with | endRead _ _ _ => exact ⟨rfl, rfl⟩

private theorem StageThread.Step.stays_live
    (hs : thread.Step producer consumer processor m w thread' m' w')
    (hm : m.scheduler.interrupted .notEmpty = false)
    (hw : w.scheduler.interrupted .notFull = false) :
    thread' ≠ .exited ∧ thread' ≠ .joined := by
  cases hs with
  | beginRead _ henter =>
    obtain ⟨-, -, ⟨rfl, -⟩ | ⟨-, -, -, hflag⟩ | ⟨rfl, -⟩⟩ := Monitor.enter_spec henter
    · exact ⟨by simp [afterBeginRead], by simp [afterBeginRead]⟩
    · exact absurd (hm.symm.trans hflag) (by simp)
    · exact ⟨by simp [afterBeginRead], by simp [afterBeginRead]⟩
  | beginWrite _ henter =>
    obtain ⟨-, -, ⟨rfl, -⟩ | ⟨-, -, -, hflag⟩ | ⟨rfl, -⟩⟩ := Monitor.enter_spec henter
    · exact ⟨by simp [afterBeginWrite], by simp [afterBeginWrite]⟩
    · exact absurd (hw.symm.trans hflag) (by simp)
    · exact ⟨by simp [afterBeginWrite], by simp [afterBeginWrite]⟩
  | _ => exact ⟨by simp, by simp⟩

end Undisturbed

variable {T : Nat → Type u} {P : Pipeline T}

namespace PipelineState

variable {s t : PipelineState P}

/-- Some stage takes a step. -/
def Works (s t : PipelineState P) : Prop := ∃ i, s.Step (.stage i) t

/-- Every stage is in its loop, and nobody has been interrupted. -/
structure Undisturbed (s : PipelineState P) : Prop where
  live (i : Fin P.stages) : s.threads i ≠ .exited ∧ s.threads i ≠ .joined
  reads (i : Fin P.stages) : (s.queues i).scheduler.interrupted .notEmpty = false
  writes (i : Fin P.stages) : (s.queues (i + 1)).scheduler.interrupted .notFull = false

/-- Stage `i` waits for a block of its input or for room in its output. -/
def Waits (s : PipelineState P) (i : Fin P.stages) : Prop :=
  (s.threads i = .beginRead ∧ (s.queues i).peers.queue.size < (P.processor i).blocksize) ∨
    (∃ src, s.threads i = .beginWrite src) ∧
      (s.queues (i + 1)).peers.queue.available < (P.processor i).blocksize

/-- The last queue has room for a block of the last stage. -/
def HasRoom (s : PipelineState P) : Prop :=
  ∀ i : Fin P.stages, (i : Nat) + 1 = P.stages →
    (P.processor i).blocksize ≤ (s.queues (i + 1)).peers.queue.available

/-- The steps that the stages have ahead of them, for a source of `total` elements. -/
def left (total : Nat) (s : PipelineState P) : Nat :=
  ∑ i : Fin P.stages,
    (total * (2 * (P.processor i).blocksize + 4) + 3 - P.taken s.queues s.threads i)

private theorem Undisturbed.works (h : s.Undisturbed) (hs : s.Works t) : t.Undisturbed := by
  obtain ⟨i, hs⟩ := hs
  obtain ⟨thread, m, w, hstep, rfl⟩ := step_stage_iff.mp hs
  obtain ⟨hm, hw⟩ := hstep.scheduler
  have hscheduler : ∀ j, (Function.update (Function.update s.queues i m) (i + 1) w j).scheduler =
      (s.queues j).scheduler := by
    intro j
    by_cases hj : j = i + 1
    · subst hj; rw [Function.update_self]; exact hw
    · rw [Function.update_of_ne hj]
      by_cases hji : j = i
      · subst hji; rw [Function.update_self]; exact hm
      · rw [Function.update_of_ne hji]
  refine ⟨fun k => ?_, fun k => ?_, fun k => ?_⟩
  · change Function.update s.threads i thread k ≠ _ ∧ Function.update s.threads i thread k ≠ _
    by_cases hk : k = i
    · subst hk
      rw [Function.update_self]
      exact hstep.stays_live (h.reads k) (h.writes k)
    · rw [Function.update_of_ne hk]
      exact h.live k
  · exact (congrArg (PthreadScheduler.interrupted · .notEmpty) (hscheduler k)).trans (h.reads k)
  · exact (congrArg (PthreadScheduler.interrupted · .notFull) (hscheduler (k + 1))).trans
      (h.writes k)

private theorem moves_of_stage (hinv : PipelineInv s) {i : Fin P.stages}
    {thread : StageThread (T i)}
    {m : Monitor Side (T i)} {w : Monitor Side (T (i + 1))}
    (hs : (s.threads i).Step .producer .consumer (P.processor i) (s.queues i) (s.queues (i + 1))
      thread m w) :
    StageMoves (P.processor i) (s.queues i).peers m.peers (s.queues (i + 1)).peers w.peers
      thread :=
  hs.moves (hinv.stage i) (hinv.queue i).peers (hinv.queue (i + 1)).peers
    ((hinv.queue i).mEnd ▸ P.input_dvd i) ((hinv.queue (i + 1)).mEnd ▸ P.output_dvd i)

private theorem Works.source (hinv : PipelineInv s) (hs : s.Works t) :
    (t.queues 0).peers.committed = (s.queues 0).peers.committed := by
  obtain ⟨i, hs⟩ := hs
  obtain ⟨thread, m, w, hstep, rfl⟩ := step_stage_iff.mp hs
  change (Function.update (Function.update s.queues i m) (i + 1) w 0).peers.committed = _
  rw [Function.update_of_ne (Nat.succ_ne_zero i).symm]
  have hreads := (moves_of_stage hinv hstep).reads
  obtain ⟨i, hi⟩ := i
  by_cases hzero : i = 0
  · subst hzero
    rw [Function.update_self]
    exact hreads.committed
  · rw [Function.update_of_ne (Ne.symm hzero)]

private theorem Works.descends (hinv : PipelineInv s) (hs : s.Works t) {total : Nat}
    (hbound : ∀ i, P.taken t.queues t.threads i ≤
      total * (2 * (P.processor i).blocksize + 4) + 3) :
    t.left total < s.left total ∨ t.left total = s.left total ∧ P.up t.queues < P.up s.queues := by
  obtain ⟨i, hs⟩ := hs
  obtain ⟨thread, m, w, hstep, rfl⟩ := step_stage_iff.mp hs
  have hwrites := (moves_of_stage hinv hstep).writes
  obtain ⟨hother, hlt | ⟨heq, hup⟩⟩ := Pipeline.stage_advances hstep (hinv.stage i)
    hwrites.released
  · left
    refine Pipeline.sum_left_lt (fun k => ?_) hbound hlt
    by_cases hk : k = i
    · subst hk; exact Nat.le_of_lt hlt
    · exact (hother k hk).ge
  · refine .inr ⟨Finset.sum_congr rfl fun k _ => ?_, hup⟩
    by_cases hk : k = i
    · subst hk; exact congrArg (_ - ·) heq
    · exact congrArg (_ - ·) (hother k hk)

theorem waits_of_stuck (hinv : PipelineInv s) (hattendance : s.Attendance)
    (hquiet : s.Undisturbed) (hstuck : ∀ t, ¬ s.Works t) (i : Fin P.stages) : s.Waits i := by
  rcases StageThread.step_or_asleep (hattendance.reader i) (hattendance.writer i) (hinv.stage i)
    (hquiet.live i) with ⟨thread, m, w, hstep⟩ | ⟨hthread, hsize, -⟩ | hroom
  · exact absurd ⟨i, step_stage_iff.mpr ⟨thread, m, w, hstep, rfl⟩⟩ (hstuck _)
  · exact .inl ⟨hthread, hsize⟩
  · exact .inr hroom

/-- If all stages wait and the last one has room, all of them wait for a block: where a stage
waits for room, the next one would have a block. -/
theorem Waits.drained (hinv : PipelineInv s)
    (hcap : ∀ i, 0 < i → i < P.stages → 0 < P.capacity i) (hwaits : ∀ i, s.Waits i)
    (hroom : s.HasRoom) (i : Fin P.stages) :
    s.threads i = .beginRead ∧ (s.queues i).peers.queue.size < (P.processor i).blocksize := by
  obtain ⟨i, hi⟩ := i
  induction hdistance : P.stages - i generalizing i with
  | zero => omega
  | succ n ih =>
    rcases hwaits ⟨i, hi⟩ with hread | ⟨-, hfull⟩
    · exact hread
    · exfalso
      by_cases hlast : i + 1 = P.stages
      · exact absurd (hroom ⟨i, hi⟩ hlast) (Nat.not_le_of_lt hfull)
      · have hlt : i + 1 < P.stages := by omega
        have hsize : (s.queues (i + 1)).peers.queue.size < (P.processor ⟨i + 1, hlt⟩).blocksize :=
          (ih (i + 1) hlt (by omega)).2
        have hq := (hinv.queue (i + 1)).peers
        have hend := (hinv.queue (i + 1)).mEnd
        have htotal := hq.available_add_size
        rw [hend] at htotal
        have hsome := block_room_or_content (hcap (i + 1) (Nat.succ_pos i) hlt)
          (P.output_dvd ⟨i, hi⟩) (P.input_dvd ⟨i + 1, hlt⟩)
          ((hinv.stage ⟨i, hi⟩).committed_dvd (hinv.queue i).peers)
          (hinv.stage ⟨i + 1, hlt⟩).released_dvd hq.committed_length (by omega)
        change (s.queues (i + 1)).peers.queue.available < (P.processor ⟨i, hi⟩).blocksize at hfull
        omega

theorem committed_eq_image (hinv : PipelineInv s)
    (hdrained : ∀ i : Fin P.stages, s.threads i = .beginRead ∧
      (s.queues i).peers.queue.size < (P.processor i).blocksize) (i : Nat) (hi : i ≤ P.stages) :
    (s.queues i).peers.committed = P.image (s.queues 0).peers.committed i hi := by
  induction i with
  | zero => rfl
  | succ i ih =>
    obtain ⟨hthread, hsize⟩ := hdrained ⟨i, hi⟩
    have hstage := hinv.stage ⟨i, hi⟩
    rw [hthread] at hstage
    rw [Pipeline.image, ← ih (Nat.le_of_succ_le hi)]
    exact hstage.committed_all (hinv.queue i).peers hsize

end PipelineState

private theorem PipelineInv.taken_le {s : PipelineState P} (h : PipelineInv s) (i : Fin P.stages) :
    P.taken s.queues s.threads i ≤
      (s.queues 0).peers.committed.length * (2 * (P.processor i).blocksize + 4) + 3 :=
  (h.stage i).taken_le (h.queue i).peers
    ((h.committed_image i (Nat.le_of_lt i.isLt)).length_le.trans (P.image_length_le _ i _))

/-- No run of the stages goes on forever, and none of their steps is undone. -/
theorem PipelineState.Undisturbed.rests {s : PipelineState P} (hquiet : s.Undisturbed)
    (h : P.system.Reachable s) :
    Inevitable PipelineState.Works (fun t => P.system.Reachable t ∧ t.Undisturbed ∧
      (t.queues 0).peers.committed = (s.queues 0).peers.committed ∧ ∀ u, ¬ t.Works u) s := by
  have hstart : P.system.Reachable s ∧ s.Undisturbed ∧
      (s.queues 0).peers.committed = (s.queues 0).peers.committed := ⟨h, hquiet, rfl⟩
  refine Inevitable.of_wellFounded
    (I := fun t => P.system.Reachable t ∧ t.Undisturbed ∧
      (t.queues 0).peers.committed = (s.queues 0).peers.committed)
    (m := fun t => (t.left (s.queues 0).peers.committed.length, P.up t.queues))
    (wellFounded_lt.prod_lex wellFounded_lt) ?_ ?_ hstart
  · rintro t ⟨ht, hquiet, hsource⟩
    by_cases hnext : ∃ u, t.Works u
    · exact .inr hnext
    · exact .inl ⟨ht, hquiet, hsource, fun u hu => hnext ⟨u, hu⟩⟩
  · rintro t u ⟨ht, hquiet, hsource⟩ hworks
    obtain ⟨i, hs⟩ := id hworks
    have hinv := Pipeline.invariant ht
    have hu := ht.step hs
    have hsame := (hworks.source hinv).trans hsource
    refine ⟨⟨hu, hquiet.works hworks, hsame⟩, ?_⟩
    have hbound := (Pipeline.invariant hu).taken_le
    rw [hsame] at hbound
    rcases hworks.descends hinv hbound with hlt | ⟨heq, hup⟩
    · exact .left _ _ hlt
    · rw [heq]
      exact .right _ hup

/-- From every reachable state in which all stages are in their loops and no interrupt is
pending, whoever is scheduled: the stages come to rest. Each of them then waits for a block or
for room, and if the last one has room, no input holds a block and the last queue has got the
whole image of the source's stream. -/
theorem pipeline_comes_to_rest (P : Pipeline T)
    (hcap : ∀ i, 0 < i → i < P.stages → 0 < P.capacity i) (s : PipelineState P)
    (h : P.system.Reachable s) (hquiet : s.Undisturbed) :
    Inevitable PipelineState.Works (fun t =>
      (∀ u, ¬ t.Works u) ∧ t.Undisturbed ∧ (∀ i, t.Waits i) ∧
      (t.queues 0).peers.committed = (s.queues 0).peers.committed ∧
      (t.HasRoom →
        (∀ i : Fin P.stages, (t.queues i).peers.queue.size < (P.processor i).blocksize) ∧
        (t.queues P.stages).peers.committed =
          P.image (s.queues 0).peers.committed P.stages (Nat.le_refl _))) s := by
  apply (hquiet.rests h).mono
  rintro t ⟨ht, hquiet, hsource, hstuck⟩
  have hinv := Pipeline.invariant ht
  have hwaits := PipelineState.waits_of_stuck hinv (Pipeline.attendance ht) hquiet hstuck
  refine ⟨hstuck, hquiet, hwaits, hsource, fun hroom => ?_⟩
  have hdrained := PipelineState.Waits.drained hinv hcap hwaits hroom
  refine ⟨fun i => (hdrained i).2, ?_⟩
  rw [← hsource]
  exact PipelineState.committed_eq_image hinv hdrained P.stages (Nat.le_refl _)

theorem addFivePipeline_pushed :
    ∃ s : PipelineState addFivePipeline, addFivePipeline.system.Reachable s ∧ s.Undisturbed ∧
      (s.queues 0).peers.committed = [60] := by
  have hstart : addFivePipeline.system.Reachable (addFivePipeline.start fun _ _ => (0 : Nat)) :=
    .init ⟨_, rfl⟩
  have hthread := hstart.step (.start (i := addFiveStage) rfl)
  have hroom := hthread.step (.source (a := .call .producer (.beginWrite 1)) trivial (.call rfl))
  have hstored := hroom.step (.source (a := .store .producer 0 (60 : Nat))
    (show 0 ≤ 0 ∧ 0 < 2 by decide) (.store rfl rfl))
  have hpushed := hstored.step (.source (a := .endWrite .producer 1)
    (show 0 + 1 ≤ 2 by decide)
    (.endWrite rfl rfl (.nobody (by intro t call h; cases t <;> cases h))))
  have honly : ∀ i : Fin 1, i = addFiveStage := fun i => Subsingleton.elim i addFiveStage
  refine ⟨_, hpushed, ⟨fun i => ?_, fun i => ?_, fun i => ?_⟩, rfl⟩
  · obtain rfl := honly i
    exact ⟨(by intro h; cases h), (by intro h; cases h)⟩
  · obtain rfl := honly i
    rfl
  · obtain rfl := honly i
    rfl

theorem pipeline_comes_to_rest_addFive :
    ∃ s : PipelineState addFivePipeline, (s.queues 0).peers.committed = [60] ∧
      Inevitable PipelineState.Works (fun t =>
        (∀ u, ¬ t.Works u) ∧ t.Undisturbed ∧ (∀ i, t.Waits i) ∧
        (t.queues 0).peers.committed = (s.queues 0).peers.committed ∧
        (t.HasRoom →
          (∀ i : Fin addFivePipeline.stages, (t.queues i).peers.queue.size <
            (addFivePipeline.processor i).blocksize) ∧
          (t.queues addFivePipeline.stages).peers.committed =
            addFivePipeline.image (s.queues 0).peers.committed addFivePipeline.stages
              (Nat.le_refl _))) s := by
  obtain ⟨s, hs, hquiet, hpushed⟩ := addFivePipeline_pushed
  exact ⟨s, hpushed, pipeline_comes_to_rest addFivePipeline (fun _ _ _ => Nat.two_pos) s hs hquiet⟩

end Dyplo
