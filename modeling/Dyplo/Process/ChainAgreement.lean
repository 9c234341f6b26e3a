import Dyplo.Process.CooperativeChain
import Dyplo.Process.PipelineRest

/-!
# Threads and cooperative calls agree

A pipeline of threaded processes and a chain of cooperative processes with the same block
functions deliver the same stream, as soon as the threads have come to rest.
-/

namespace Dyplo

variable {T : Nat → Type} {S₀ S : Type}

/-- The chain that has the queues and processors of a pipeline from queue `i` on. -/
inductive Pipeline.Mirrors (P : Pipeline T) :
    {S : Type} → (i : Nat) → Chain S₀ (T P.stages) S (T i) → Prop
  | sink : Mirrors P P.stages .sink
  | stage {S : Type} {i : Nat} (hi : i < P.stages) {rest : Chain S₀ (T P.stages) S (T (i + 1))} :
      Mirrors P (i + 1) rest → Mirrors P i (.stage (P.capacity i) (P.processor ⟨i, hi⟩) rest)

namespace Pipeline.Mirrors

variable {P : Pipeline T} {i : Nat} {c : Chain S₀ (T P.stages) S (T i)}

private theorem image (h : P.Mirrors i c) (xs : List (T 0)) (hi : i ≤ P.stages) :
    c.image (P.image xs i hi) = P.image xs P.stages (Nat.le_refl _) := by
  induction h with
  | sink => rfl
  | stage hlt hrest ih => exact ih hlt

private theorem divides (h : P.Mirrors i c) (hcap : ∀ j, 0 < j → j < P.stages → 0 < P.capacity j)
    (hpos : 0 < i) {bw : Nat} (hbw : i < P.stages → bw ∣ P.capacity i) : c.Divides bw := by
  induction h generalizing bw with
  | sink => trivial
  | @stage S i hlt rest hrest ih =>
    refine ⟨hcap i hpos hlt, hbw hlt, P.input_dvd ⟨i, hlt⟩, ih (Nat.succ_pos i) fun _ => ?_⟩
    exact P.output_dvd ⟨i, hlt⟩

end Pipeline.Mirrors

section HeadCalls

variable {β γ : Type} {sink : OutputQueue S₀ γ} {ready : S₀ → Prop} {received : S₀ → List γ}
  {δ : Type} {capacity turns : Nat} {processor : StaticProcessor β δ} {rest : Chain S₀ γ S δ}

/-- After every call on its head, the sink of a chain has received the image of what has been
committed to the head. -/
theorem headCalls_received
    (hsink : sink.AlwaysGrants ready received (rest.sinkBlock processor.blocksize))
    (hb : processor.blocksize ∣ capacity) (hrest : rest.Divides processor.blocksize)
    (hturns : (Chain.stage capacity processor rest).Below turns) {s : PeerState β × S}
    (h : (headCalls sink (fun s₀ => ready s₀ ∧ received s₀ = []) turns capacity processor
      rest).Reachable s) :
    received ((Chain.stage capacity processor rest).sinkState s) =
      (Chain.stage capacity processor rest).image s.1.committed := by
  obtain ⟨target, written, hs⟩ := headCalls_holds hsink hb hrest hturns h
  rw [hs.1.committed]
  exact hs.sinkState.2

end HeadCalls

/-- The same source stream, once through threads and once through cooperative calls: the threads
come to rest, and if their last queue has room then, it has got exactly what the sink of the
chain has received. -/
theorem schedulers_agree (P : Pipeline T)
    (hcap : ∀ i, 0 < i → i < P.stages → 0 < P.capacity i)
    (sink : OutputQueue S₀ (T P.stages)) (ready : S₀ → Prop) (received : S₀ → List (T P.stages))
    (turns : Nat) (rest : Chain S₀ (T P.stages) S (T 1)) (hrest : P.Mirrors 1 rest)
    (hsink : sink.AlwaysGrants ready received
      (rest.sinkBlock (P.processor ⟨0, P.stages_pos⟩).blocksize))
    (hturns : (Chain.stage (P.capacity 0) (P.processor ⟨0, P.stages_pos⟩) rest).Below turns)
    (c : PeerState (T 0) × S)
    (hc : (headCalls sink (fun s₀ => ready s₀ ∧ received s₀ = []) turns (P.capacity 0)
      (P.processor ⟨0, P.stages_pos⟩) rest).Reachable c)
    (s : PipelineState P) (hs : P.system.Reachable s) (hquiet : s.Undisturbed)
    (hsame : c.1.committed = (s.queues 0).peers.committed) :
    Inevitable PipelineState.Works (fun t => (∀ u, ¬ t.Works u) ∧
      (t.HasRoom → (t.queues P.stages).peers.committed =
        received ((Chain.stage (P.capacity 0) (P.processor ⟨0, P.stages_pos⟩) rest).sinkState
          c))) s := by
  have hreceived := headCalls_received hsink (P.input_dvd ⟨0, P.stages_pos⟩)
    (hrest.divides hcap Nat.one_pos fun _ => P.output_dvd ⟨0, P.stages_pos⟩) hturns hc
  have himage := (Pipeline.Mirrors.stage P.stages_pos hrest).image c.1.committed (Nat.zero_le _)
  apply (hquiet.rests hs).mono
  rintro t ⟨ht, hquiet, hsource, hstuck⟩
  refine ⟨hstuck, fun hroom => ?_⟩
  have hinv := Pipeline.invariant ht
  have hwaits := PipelineState.waits_of_stuck hinv (Pipeline.attendance ht) hquiet hstuck
  have hdrained := PipelineState.Waits.drained hinv hcap hwaits hroom
  rw [hreceived, PipelineState.committed_eq_image hinv hdrained P.stages (Nat.le_refl _), hsource,
    ← hsame]
  exact himage.symm

/-- `AddFive` over a queue of two elements, after `push_one(60)`. -/
def addFivePushed : PeerState Nat × List Nat × (Nat → Nat) :=
  (TransitionSystem.exec (HeadCall.Allowed 2 1)
    (HeadCall.next ((Chain.stage 2 addFive .sink).queue 3 logSink))
    (.start (fun _ => 0) 2, [], fun _ => 0) [.beginWrite 1, .store 0 60, .endWrite 1]).get
    (by decide +kernel)

theorem schedulers_agree_addFive :
    ∃ s : PipelineState addFivePipeline, addFivePushed.2.1 = [65] ∧
      Inevitable PipelineState.Works (fun t => (∀ u, ¬ t.Works u) ∧
        (t.HasRoom → (t.queues 1).peers.committed = addFivePushed.2.1)) s := by
  obtain ⟨s, hs, hquiet, hpushed⟩ := addFivePipeline_pushed
  have hcommitted : addFivePushed.1.committed = [60] := by decide +kernel
  refine ⟨s, by decide +kernel, ?_⟩
  exact schedulers_agree addFivePipeline (fun _ _ _ => Nat.two_pos) logSink (fun _ => True)
    Prod.fst 3 .sink .sink logSink_grants ⟨by decide, trivial⟩ addFivePushed
    (.run (.init ⟨⟨_, rfl⟩, trivial, rfl⟩)
      (TransitionSystem.run_of_exec (Option.some_get _).symm)) s hs hquiet
    (hcommitted.trans hpushed.symm)

end Dyplo
