import Dyplo.Process.AppShutdown
import Dyplo.Process.AppSides

/-!
# Every line is displayed

What the sink has displayed is a prefix of the image of what `main` has read. `wait_empty` is
enough to know that a queue has been worked off: a stage ends its output before it ends its
input, so behind an empty queue no block is under way, and it is the queues in front that keep
it empty.
-/

universe u

namespace Dyplo

open CyclicBuffer

variable {T : Nat → Type u} {A : ThreadedApp T}

/-- How many queues `main` has seen empty since it stopped to push. -/
def MainThread.drained {α : Type u} (stages : Nat) : MainThread α → Nat
  | .beginWrite _ _ => 0
  | .store _ _ => 0
  | .endWrite _ => 0
  | .waitEmpty i => i
  | .uncaught => 0
  | _ => stages + 1

/-- The queues, the stages between them, both ends, and the queues that are done. -/
structure AppInv (lines : List (T 0)) (s : AppState A) : Prop where
  queue : ∀ i, PeerInv (s.queues i).peers ∧ (s.queues i).peers.queue.mEnd = A.capacity i
  stage : ∀ i : Fin A.stages,
    StageInv (A.processor i) (s.queues i).peers (s.queues (i + 1)).peers (s.stages i)
  feeding : Feeding lines (s.queues 0).peers s.main
  sink : SinkInv A.sinkBlocksize (s.queues A.stages).peers s.displayed s.sink
  drained : ∀ j, j < s.main.drained A.stages → (s.queues j).peers.queue.mSize = 0

namespace AppInv

variable {lines : List (T 0)} {s t : AppState A}

private theorem start (memory : (i : Nat) → Nat → T i) (lines : List (T 0)) :
    AppInv lines (A.start memory lines) where
  queue i := ⟨.start (memory i) (A.capacity i), rfl⟩
  stage i := {
    last_dvd := Nat.dvd_zero _
    released_dvd := Nat.dvd_zero _
    first_dvd := Nat.dvd_zero _
    reader := trivial
    writer := trivial
    delivered := by
      change [] = blockwise _ _ [] ++ []
      rw [blockwise_nil, List.append_nil] }
  feeding := .loop (List.nil_append lines)
  sink := ⟨Nat.dvd_zero _, Nat.dvd_zero _, rfl⟩
  drained j hj := rfl

private theorem still (h : AppInv lines s) (hpeers : ∀ i, (t.queues i).peers = (s.queues i).peers)
    (hstage : ∀ i : Fin A.stages,
      StageInv (A.processor i) (s.queues i).peers (s.queues (i + 1)).peers (t.stages i))
    (hfeeding : Feeding lines (s.queues 0).peers t.main)
    (hsink : SinkInv A.sinkBlocksize (s.queues A.stages).peers t.displayed t.sink)
    (hdrained : ∀ j, j < t.main.drained A.stages → (s.queues j).peers.queue.mSize = 0) :
    AppInv lines t where
  queue i := by rw [hpeers]; exact h.queue i
  stage i := by rw [hpeers, hpeers]; exact hstage i
  feeding := by rw [hpeers]; exact hfeeding
  sink := by rw [hpeers]; exact hsink
  drained j hj := by rw [hpeers]; exact hdrained j hj

private theorem setQueue_peers {i : Nat} {m : Monitor QueueUser (T i)}
    (hm : m.peers = (s.queues i).peers) (j : Nat) :
    ((s.setQueue i m).queues j).peers = (s.queues j).peers := by
  change (Function.update s.queues i m j).peers = _
  by_cases hji : j = i
  · subst hji; rw [Function.update_self]; exact hm
  · rw [Function.update_of_ne hji]

private theorem setQueue_queue (h : AppInv lines s) {i : Nat} {m : Monitor QueueUser (T i)}
    (hm : PeerInv m.peers) (hend : m.peers.queue.mEnd = (s.queues i).peers.queue.mEnd) (j : Nat) :
    PeerInv ((s.setQueue i m).queues j).peers ∧
      ((s.setQueue i m).queues j).peers.queue.mEnd = A.capacity j := by
  change PeerInv (Function.update s.queues i m j).peers ∧
    (Function.update s.queues i m j).peers.queue.mEnd = A.capacity j
  by_cases hji : j = i
  · subst hji; rw [Function.update_self]; exact ⟨hm, hend.trans (h.queue j).2⟩
  · rw [Function.update_of_ne hji]; exact h.queue j

private theorem stage_of_consumer {j : Nat} {m : Monitor QueueUser (T j)}
    (hmoves : ConsumerMoves (s.queues j).peers m.peers) {k : Fin A.stages} (hk : (k : Nat) ≠ j)
    (h : StageInv (A.processor k) (s.queues k).peers (s.queues (k + 1)).peers (s.stages k)) :
    StageInv (A.processor k) ((s.setQueue j m).queues k).peers
      ((s.setQueue j m).queues (k + 1)).peers (s.stages k) := by
  change StageInv (A.processor k) (Function.update s.queues j m k).peers
    (Function.update s.queues j m (k + 1)).peers (s.stages k)
  rw [Function.update_of_ne hk]
  by_cases hj : (k : Nat) + 1 = j
  · subst hj; rw [Function.update_self]; exact h.output_moves hmoves
  · rw [Function.update_of_ne hj]; exact h

private theorem stage_of_producer {j : Nat} {m : Monitor QueueUser (T j)}
    (hmoves : ProducerMoves (s.queues j).peers m.peers) {k : Fin A.stages}
    (hk : (k : Nat) + 1 ≠ j) (hp : PeerInv (s.queues k).peers)
    (h : StageInv (A.processor k) (s.queues k).peers (s.queues (k + 1)).peers (s.stages k)) :
    StageInv (A.processor k) ((s.setQueue j m).queues k).peers
      ((s.setQueue j m).queues (k + 1)).peers (s.stages k) := by
  change StageInv (A.processor k) (Function.update s.queues j m k).peers
    (Function.update s.queues j m (k + 1)).peers (s.stages k)
  rw [Function.update_of_ne hk]
  by_cases hj : (k : Nat) = j
  · subst hj; rw [Function.update_self]; exact h.input_moves hp hmoves
  · rw [Function.update_of_ne hj]; exact h

private theorem feeding_setQueue {j : Nat} {m : Monitor QueueUser (T j)}
    (hmoves : j = 0 → ConsumerMoves (s.queues j).peers m.peers)
    (h : Feeding lines (s.queues 0).peers s.main) :
    Feeding lines ((s.setQueue j m).queues 0).peers s.main := by
  change Feeding lines (Function.update s.queues j m 0).peers s.main
  by_cases hj : 0 = j
  · subst hj; rw [Function.update_self]; exact h.moves (hmoves rfl)
  · rw [Function.update_of_ne hj]; exact h

private theorem sink_setQueue {j : Nat} {m : Monitor QueueUser (T j)}
    (hmoves : j = A.stages → ProducerMoves (s.queues j).peers m.peers)
    (hp : PeerInv (s.queues A.stages).peers)
    (h : SinkInv A.sinkBlocksize (s.queues A.stages).peers s.displayed s.sink) :
    SinkInv A.sinkBlocksize ((s.setQueue j m).queues A.stages).peers s.displayed s.sink := by
  change SinkInv _ (Function.update s.queues j m A.stages).peers _ _
  by_cases hj : A.stages = j
  · subst hj; rw [Function.update_self]; exact h.moves hp (hmoves rfl)
  · rw [Function.update_of_ne hj]; exact h

private theorem feeds (h : AppInv lines s) {m : Monitor QueueUser (T 0)} {main : MainThread (T 0)}
    (hm : PeerInv m.peers) (hmoves : ProducerMoves (s.queues 0).peers m.peers)
    (hfeeding : Feeding lines m.peers main) (hdrained : main.drained A.stages = 0) :
    AppInv lines { s.setQueue 0 m with main := main } where
  queue := h.setQueue_queue hm hmoves.mEnd
  stage k := stage_of_producer hmoves (Nat.succ_ne_zero _) (h.queue k).1 (h.stage k)
  feeding := by
    change Feeding lines (Function.update s.queues 0 m 0).peers main
    rw [Function.update_self]
    exact hfeeding
  sink := by
    change SinkInv _ (Function.update s.queues 0 m A.stages).peers _ _
    rw [Function.update_of_ne (Nat.ne_of_gt A.stages_pos)]
    exact h.sink
  drained j hj := by
    change j < main.drained A.stages at hj
    omega

private theorem displays (h : AppInv lines s) {m : Monitor QueueUser (T A.stages)}
    {sink : SinkThread}
    {displayed : List (T A.stages)} (hm : PeerInv m.peers)
    (hmoves : ConsumerMoves (s.queues A.stages).peers m.peers)
    (hshrinks : m.peers.queue.mSize ≤ (s.queues A.stages).peers.queue.mSize)
    (hsink : SinkInv A.sinkBlocksize m.peers displayed sink) :
    AppInv lines { s.setQueue A.stages m with sink := sink, displayed := displayed } where
  queue := h.setQueue_queue hm hmoves.mEnd
  stage k := stage_of_consumer hmoves (Nat.ne_of_lt k.isLt) (h.stage k)
  feeding := feeding_setQueue (fun _ => hmoves) h.feeding
  sink := by
    change SinkInv _ (Function.update s.queues A.stages m A.stages).peers _ _
    rw [Function.update_self]
    exact hsink
  drained j hj := by
    have hempty := h.drained j hj
    change (Function.update s.queues A.stages m j).peers.queue.mSize = 0
    by_cases hjs : j = A.stages
    · subst hjs; rw [Function.update_self]; omega
    · rw [Function.update_of_ne hjs]; exact hempty

theorem idle (h : AppInv lines s) (i : Fin A.stages)
    (hempty : (s.queues i).peers.queue.mSize = 0) : (s.stages i).Idle :=
  (h.stage i).idle_of_empty (h.queue i).1 hempty

theorem stageMoves (h : AppInv lines s) {i : Fin A.stages} {thread : StageThread (T i)}
    {m : Monitor QueueUser (T i)} {w : Monitor QueueUser (T (i + 1))}
    (hs : (s.stages i).Step .producer .consumer (A.processor i) (s.queues i) (s.queues (i + 1))
      thread m w) :
    StageMoves (A.processor i) (s.queues i).peers m.peers (s.queues (i + 1)).peers w.peers
      thread := by
  have hdvd := A.input_dvd i
  have hdvd' := A.output_dvd i
  rw [← (h.queue i).2] at hdvd
  rw [← (h.queue (i + 1)).2] at hdvd'
  exact hs.moves (h.stage i) (h.queue i).1 (h.queue (i + 1)).1 hdvd hdvd'

/-- A stage takes a step of its loop. -/
theorem stage_step (h : AppInv lines s) {i : Fin A.stages} {thread : StageThread (T i)}
    {m : Monitor QueueUser (T i)} {w : Monitor QueueUser (T (i + 1))}
    (hs : (s.stages i).Step .producer .consumer (A.processor i) (s.queues i) (s.queues (i + 1))
      thread m w) :
    AppInv lines (((s.setQueue i m).setQueue (i + 1) w).setStage i thread) := by
  have hmoves := h.stageMoves hs
  have hsecond : (s.setQueue i m).queues (i + 1) = s.queues (i + 1) :=
    Function.update_of_ne (Nat.succ_ne_self _) _ _
  have hwrites : ProducerMoves ((s.setQueue i m).queues (i + 1)).peers w.peers := by
    rw [hsecond]
    exact hmoves.writes
  have hqueue := h.setQueue_queue hmoves.input hmoves.reads.mEnd
  constructor
  · intro j
    change PeerInv (Function.update (s.setQueue i m).queues (i + 1) w j).peers ∧
      (Function.update (s.setQueue i m).queues (i + 1) w j).peers.queue.mEnd = A.capacity j
    by_cases hj : j = i + 1
    · subst hj
      rw [Function.update_self]
      exact ⟨hmoves.output, hmoves.writes.mEnd.trans (h.queue _).2⟩
    · rw [Function.update_of_ne hj]
      exact hqueue j
  · intro k
    by_cases hki : k = i
    · subst hki
      change StageInv _ (Function.update (Function.update s.queues k m) (k + 1) w k).peers
        (Function.update (Function.update s.queues k m) (k + 1) w (k + 1)).peers
        (Function.update s.stages k thread k)
      rw [Function.update_self, Function.update_self, Function.update_of_ne (by omega),
        Function.update_self]
      exact hmoves.stage
    · have hne : (k : Nat) ≠ i := fun heq => hki (Fin.ext heq)
      have hother := stage_of_producer (s := s.setQueue i m) hwrites (k := k) (by omega)
        (hqueue k).1 (stage_of_consumer hmoves.reads hne (h.stage k))
      change StageInv _ _ _ (Function.update s.stages i thread k)
      rw [Function.update_of_ne hki]
      exact hother
  · exact feeding_setQueue (s := s.setQueue i m) nofun
      (feeding_setQueue (fun _ => hmoves.reads) h.feeding)
  · exact sink_setQueue (s := s.setQueue i m) (fun _ => hwrites) (hqueue _).1
      (sink_setQueue (fun heq => absurd heq (Nat.ne_of_lt i.isLt)) (h.queue _).1 h.sink)
  · intro j hj
    change j < s.main.drained A.stages at hj
    have hempty := h.drained j hj
    change (Function.update (Function.update s.queues i m) (i + 1) w j).peers.queue.mSize = 0
    by_cases hj₁ : j = i + 1
    · -- the stage in front of an empty queue that is done has nothing to write
      subst hj₁
      have hidle := h.idle i (h.drained i (by omega))
      rw [Function.update_self, (hs.starved hidle).2]
      exact hempty
    · rw [Function.update_of_ne hj₁]
      by_cases hj₀ : j = i
      · subst hj₀
        rw [Function.update_self]
        have := hs.shrinks
        omega
      · rw [Function.update_of_ne hj₀]
        exact hempty

private theorem mainMoves (h : AppInv lines s) {main : MainThread (T 0)}
    (hpeers : ∀ i, (t.queues i).peers = (s.queues i).peers)
    (ht : t.stages = s.stages ∧ t.sink = s.sink ∧ t.displayed = s.displayed ∧ t.main = main)
    (hfeeding : Feeding lines (s.queues 0).peers main)
    (hdrained : ∀ j, j < main.drained A.stages → (s.queues j).peers.queue.mSize = 0) :
    AppInv lines t := by
  obtain ⟨hstages, hsink, hdisplayed, rfl⟩ := ht
  refine h.still hpeers ?_ hfeeding ?_ hdrained
  · rw [hstages]; exact h.stage
  · rw [hsink, hdisplayed]; exact h.sink

private theorem beginWrite_step (h : AppInv lines s) {line : T 0} {rest : List (T 0)}
    (hmain : s.main = .beginWrite line rest) {m : Monitor QueueUser (T 0)}
    (hp : (s.queues 0).peers.next (.beginWrite 1) = some m.peers) :
    AppInv lines { s.setQueue 0 m with main := .store line rest } := by
  have hq := (h.queue 0).1
  have hfeeding := h.feeding
  rw [hmain] at hfeeding
  refine h.feeds (hq.beginWrite hp) (PeerInv.beginWrite_moves hp) ?_ rfl
  obtain ⟨⟨buffer, count⟩, hg, hm⟩ := Option.map_eq_some_iff.mp hp
  obtain ⟨hroom, rfl, rfl⟩ := FixedMemoryQueue.beginWrite_eq_some.mp hg
  rw [← hm]
  exact ⟨rfl, hq.wellFormed.block_le_writeRun (Nat.one_dvd _) (Nat.one_dvd _) hroom, hfeeding⟩

private theorem store_step (h : AppInv lines s) {line : T 0} {rest : List (T 0)}
    (hmain : s.main = .store line rest) {m : Monitor QueueUser (T 0)}
    (hs : (s.queues 0).Step (.store .producer 0 line) m) :
    AppInv lines { s.setQueue 0 m with main := .endWrite rest } := by
  have hq := (h.queue 0).1
  have hfeeding := h.feeding
  rw [hmain] at hfeeding
  obtain ⟨hdone, hcount, hrest⟩ := hfeeding
  have hg : (s.queues 0).peers.WithinGrants (.store 0 line) := by
    change (s.queues 0).peers.write.done ≤ 0 ∧ 0 < (s.queues 0).peers.write.count
    omega
  cases hs with
  | store _ hp =>
    refine h.feeds (hq.store hg hp) (hq.store_moves hg hp) ?_ rfl
    obtain rfl := Option.some.inj hp
    refine ⟨hdone, hcount, ?_⟩
    have hslot := (hq.write_slot (i := 0) hg.1 hg.2).1
    rw [Nat.zero_sub] at hslot
    change _ ++ Function.update (s.queues 0).peers.queue.mBuff
      ((s.queues 0).peers.write.buffer + 0) line (s.queues 0).peers.queue.mFirst :: rest = lines
    rw [hslot, Nat.add_zero, Function.update_self]
    exact hrest

private theorem endWrite_step (h : AppInv lines s) {rest : List (T 0)}
    (hmain : s.main = .endWrite rest) {m : Monitor QueueUser (T 0)}
    (hs : (s.queues 0).Step (.endWrite .producer 1) m) :
    AppInv lines { s.setQueue 0 m with main := .loop rest } := by
  have hq := (h.queue 0).1
  have hfeeding := h.feeding
  rw [hmain] at hfeeding
  obtain ⟨hdone, hcount, hrest⟩ := hfeeding
  have hg : (s.queues 0).peers.WithinGrants (.endWrite 1) := by
    change (s.queues 0).peers.write.done + 1 ≤ (s.queues 0).peers.write.count
    omega
  cases hs with
  | endWrite _ hp _ =>
    refine h.feeds (hq.endWrite hg hp) (hq.endWrite_moves hg hp) ?_ ?_
    · obtain rfl := Option.some.inj hp
      apply Feeding.loop
      change ((s.queues 0).peers.committed ++ straight _ _ 1) ++ rest = lines
      rw [← hrest, List.append_assoc]
      rfl
    · cases rest <;> rfl

private theorem waitEmpty_step (h : AppInv lines s) {i : Nat} (hmain : s.main = .waitEmpty i)
    (hi : i ≤ A.stages) {m : Monitor QueueUser (T i)}
    (hp : (s.queues i).attempt .waitEmpty = some m.peers) :
    AppInv lines { s.setQueue i m with main := .afterWaitEmpty A.stages i .returned } := by
  obtain ⟨hempty, hpeers⟩ : (s.queues i).peers.queue.empty = true ∧
      (s.queues i).peers = m.peers := by
    simpa [Monitor.attempt] using hp
  have hfeeding := h.feeding
  have hdrained := h.drained
  rw [hmain] at hfeeding hdrained
  have hnext : Feeding lines (s.queues 0).peers (.afterWaitEmpty A.stages i .returned) ∧
      (MainThread.afterWaitEmpty A.stages i .returned : MainThread (T 0)).drained A.stages ≤
        i + 1 := by
    by_cases hlt : i < A.stages
    · rw [MainThread.afterWaitEmpty, if_pos hlt]
      exact ⟨hfeeding, le_rfl⟩
    · rw [MainThread.afterWaitEmpty, if_neg hlt]
      exact ⟨hfeeding, Nat.succ_le_succ (Nat.le_of_not_lt hlt)⟩
  refine h.mainMoves (setQueue_peers hpeers.symm) ⟨rfl, rfl, rfl, rfl⟩ hnext.1 ?_
  intro j hj
  rcases Nat.lt_or_eq_of_le (Nat.le_of_lt_succ (hj.trans_le hnext.2)) with hlt | rfl
  · exact hdrained j hlt
  · exact beq_iff_eq.mp hempty

private theorem closing_step (h : AppInv lines s)
    (hcommitted : (s.queues 0).peers.committed = lines)
    (hall : ∀ j, j < A.stages + 1 → (s.queues j).peers.queue.mSize = 0) (n : Nat)
    (hpeers : ∀ i, (t.queues i).peers = (s.queues i).peers)
    (hstage : ∀ i : Fin A.stages,
      StageInv (A.processor i) (s.queues i).peers (s.queues (i + 1)).peers (t.stages i))
    (hsink : SinkInv A.sinkBlocksize (s.queues A.stages).peers t.displayed t.sink)
    (hmain : t.main = .terminate n) : AppInv lines t := by
  refine h.still hpeers hstage ?_ hsink ?_
  · rw [hmain]
    cases n <;> exact hcommitted
  · rw [hmain]
    cases n <;> exact hall

theorem step (h : AppInv lines s) (hshutdown : s.Shutdown s.main)
    {thread : AppThread A.stages} (hs : s.Step thread t) : AppInv lines t := by
  have hfeeding := h.feeding
  have hdrained := h.drained
  cases hs with
  | beginWrite hmain _ henter =>
    obtain ⟨-, -, ⟨rfl, hp, -⟩ | ⟨-, -, -, hflag⟩ | ⟨rfl, hp, -⟩⟩ := Monitor.enter_spec henter
    · exact h.beginWrite_step hmain hp
    · rw [hmain] at hshutdown
      rw [hshutdown.quiet] at hflag
      cases hflag
    · rw [hmain] at hfeeding
      exact h.mainMoves (setQueue_peers hp) ⟨rfl, rfl, rfl, rfl⟩ hfeeding nofun
  | store hmain hstep => exact h.store_step hmain hstep
  | endWrite hmain hstep => exact h.endWrite_step hmain hstep
  | waitEmpty hmain _ henter =>
    rw [hmain] at hshutdown
    obtain ⟨-, -, ⟨rfl, hp, -⟩ | ⟨-, -, -, hflag⟩ | ⟨rfl, hp, -⟩⟩ := Monitor.enter_spec henter
    · exact h.waitEmpty_step hmain hshutdown.1 hp
    · rw [hshutdown.2.quiet] at hflag
      cases hflag
    · rw [hmain] at hfeeding hdrained
      exact h.mainMoves (setQueue_peers hp) ⟨rfl, rfl, rfl, rfl⟩ hfeeding hdrained
  | interruptSink hmain hstep =>
    rw [hmain] at hfeeding hdrained
    cases hstep with
    | interruptRead _ =>
      exact h.mainMoves (setQueue_peers rfl) ⟨rfl, rfl, rfl, rfl⟩ hfeeding hdrained
  | joinSink hmain hsink =>
    rw [hmain] at hfeeding hdrained
    have hshown := h.sink
    rw [hsink] at hshown
    exact h.closing_step hfeeding hdrained A.stages (fun _ => rfl) h.stage
      ⟨hshown.last_dvd, hshown.released_dvd, hshown.shown⟩ rfl
  | interruptRead hmain hstep =>
    rw [hmain] at hfeeding hdrained
    cases hstep with
    | interruptRead _ =>
      exact h.mainMoves (setQueue_peers rfl) ⟨rfl, rfl, rfl, rfl⟩ hfeeding hdrained
  | interruptWrite hmain hstep =>
    rw [hmain] at hfeeding hdrained
    cases hstep with
    | interruptWrite _ =>
      exact h.mainMoves (setQueue_peers rfl) ⟨rfl, rfl, rfl, rfl⟩ hfeeding hdrained
  | @join i hmain hstage =>
    rw [hmain] at hfeeding hdrained
    refine h.closing_step hfeeding hdrained i (fun _ => rfl) (fun j => ?_) h.sink rfl
    change StageInv _ _ _ (Function.update s.stages i .joined j)
    by_cases hji : j = i
    · subst hji
      have hexited := h.stage j
      rw [hstage] at hexited
      rw [Function.update_self]
      exact hexited.idle rfl (.inl rfl)
    · rw [Function.update_of_ne hji]
      exact h.stage j
  | stage hstep => exact h.stage_step hstep
  | sinkBeginRead hsink _ henter =>
    have hq := (h.queue A.stages).1
    have hinv := h.sink
    rw [hsink] at hinv
    have hdvd := A.sink_dvd
    rw [← (h.queue A.stages).2] at hdvd
    obtain ⟨-, -, ⟨rfl, hp, -⟩ | ⟨rfl, hp, -⟩ | ⟨rfl, hp, -⟩⟩ := Monitor.enter_spec henter
    · exact h.displays (hq.beginRead hp) (PeerInv.beginRead_moves hp)
        (by rw [Monitor.attempt_queue hp]) (hinv.beginRead hq hdvd hp)
    · exact h.still (setQueue_peers hp) h.stage hfeeding hinv.exit hdrained
    · exact h.still (setQueue_peers hp) h.stage hfeeding hinv hdrained
  | processItem hsink hlt hstep =>
    have hq := (h.queue A.stages).1
    have hinv := h.sink
    rw [hsink] at hinv
    have hg := hinv.processItem_within hlt
    cases hstep with
    | load _ hp =>
      refine h.displays (hq.load hg hp) (PeerInv.load_moves hp) ?_ (hinv.processItem hq hlt hp)
      obtain rfl := Option.some.inj hp
      exact le_rfl
  | sinkEndRead hsink hstep =>
    have hq := (h.queue A.stages).1
    have hinv := h.sink
    rw [hsink] at hinv
    have hg := hinv.endRead_within
    cases hstep with
    | endRead _ hp _ =>
      refine h.displays (hq.endRead hg hp) (PeerInv.endRead_moves hp) ?_ (hinv.endRead hq hp)
      obtain rfl := Option.some.inj hp
      exact Nat.sub_le _ _
  | spurious hstep =>
    cases hstep with
    | spurious _ =>
      exact h.mainMoves (setQueue_peers rfl) ⟨rfl, rfl, rfl, rfl⟩ hfeeding hdrained

private theorem fed (h : AppInv lines s) : (s.queues 0).peers.committed <+: lines := by
  have hfeeding := h.feeding
  cases hmain : s.main with
  | beginWrite line rest => rw [hmain] at hfeeding; exact ⟨_, hfeeding⟩
  | store line rest => rw [hmain] at hfeeding; exact ⟨_, hfeeding.2.2⟩
  | endWrite rest => rw [hmain] at hfeeding; exact ⟨_, hfeeding.2.2⟩
  | _ => rw [hmain] at hfeeding; exact hfeeding ▸ List.prefix_refl _

private theorem released_prefix (h : AppInv lines s) (i : Nat) :
    (s.queues i).peers.released <+: (s.queues i).peers.committed :=
  (h.queue i).1.fifo ▸ List.prefix_append _ _

/-- What has been committed to queue `i` is a prefix of the image of the lines. -/
theorem committed_image (h : AppInv lines s) (i : Nat) (hi : i ≤ A.stages) :
    (s.queues i).peers.committed <+: A.image lines i hi := by
  induction i with
  | zero => exact h.fed
  | succ i ih =>
    have hstage := h.stage ⟨i, hi⟩
    have hfifo := (h.queue i).1.fifo
    refine List.IsPrefix.trans ?_ (blockwise_mono _ _ (ih (Nat.le_of_succ_le hi)))
    rw [hstage.delivered]
    cases hthread : s.stages ⟨i, hi⟩ with
    | endRead =>
      have hreader := hstage.reader
      rw [hthread] at hreader
      obtain ⟨-, hlen⟩ := (h.queue i).1.holds_block hreader.1 hreader.2
      rw [pendingImage, ← blockwise_append_block (A.processor ⟨i, hi⟩).blocksize_pos _
        hstage.released_dvd (List.length_take_of_le hlen)]
      apply blockwise_mono
      change (s.queues i).peers.released ++ _ <+: (s.queues i).peers.committed
      rw [hfifo]
      exact (List.prefix_append_right_inj _).mpr (List.take_prefix _ _)
    | _ =>
      rw [pendingImage, List.append_nil]
      · exact blockwise_mono _ _ (h.released_prefix i)
      all_goals simp

private theorem released_of_drained (h : AppInv lines s) {i : Nat}
    (hi : i < s.main.drained A.stages) :
    (s.queues i).peers.released = (s.queues i).peers.committed := by
  have hnil : (s.queues i).peers.queue.content = [] := by
    apply List.eq_nil_of_length_eq_zero
    rw [FixedMemoryQueue.content_length]
    exact h.drained i hi
  rw [(h.queue i).1.fifo, hnil, List.append_nil]

theorem committed_of_drained (h : AppInv lines s)
    (hpushed : (s.queues 0).peers.committed = lines) (i : Nat) (hi : i ≤ A.stages)
    (hdrained : i ≤ s.main.drained A.stages) :
    (s.queues i).peers.committed = A.image lines i hi := by
  induction i with
  | zero => exact hpushed
  | succ i ih =>
    have hstage := h.stage ⟨i, hi⟩
    have hidle := h.idle ⟨i, hi⟩ (h.drained i hdrained)
    have hpending : pendingImage (A.processor ⟨i, hi⟩).blocksize
        (A.processor ⟨i, hi⟩).processBlock (s.queues i).peers (s.stages ⟨i, hi⟩) = [] := by
      cases hthread : s.stages ⟨i, hi⟩ with
      | endRead => rw [hthread] at hidle; exact hidle.elim
      | _ => rfl
    have hdelivered := hstage.delivered
    rw [hpending, List.append_nil] at hdelivered
    rw [hdelivered, Pipeline.image, ← ih (Nat.le_of_succ_le hi) (Nat.le_of_succ_le hdrained),
      ← h.released_of_drained hdrained]

private theorem pushed_of_drained (h : AppInv lines s) (hpos : 0 < s.main.drained A.stages) :
    (s.queues 0).peers.committed = lines := by
  have hfeeding := h.feeding
  cases hmain : s.main with
  | beginWrite line rest => rw [hmain] at hpos; exact absurd hpos (Nat.lt_irrefl 0)
  | store line rest => rw [hmain] at hpos; exact absurd hpos (Nat.lt_irrefl 0)
  | endWrite rest => rw [hmain] at hpos; exact absurd hpos (Nat.lt_irrefl 0)
  | _ => rw [hmain] at hfeeding; exact hfeeding

theorem drained_image (h : AppInv lines s) (i : Nat) (hi : i ≤ A.stages)
    (hdrained : i < s.main.drained A.stages) :
    (s.queues i).peers.released = A.image lines i hi := by
  rw [h.released_of_drained hdrained]
  exact h.committed_of_drained (h.pushed_of_drained (by omega)) i hi (Nat.le_of_lt hdrained)

private theorem displayed_prefix (h : AppInv lines s) :
    s.displayed <+: (s.queues A.stages).peers.committed := by
  have hshown := h.sink.shown
  cases hsink : s.sink with
  | processItem src shown =>
    rw [hsink] at hshown
    obtain ⟨-, -, -, hdisplayed⟩ := hshown
    rw [hdisplayed, (h.queue A.stages).1.fifo]
    exact (List.prefix_append_right_inj _).mpr (List.take_prefix _ _)
  | _ =>
    rw [hsink] at hshown
    exact hshown ▸ h.released_prefix _

end AppInv

theorem ThreadedApp.invariant {lines : List (T 0)} {s : AppState A}
    (h : (A.system lines).Reachable s) : s.Shutdown s.main ∧ AppInv lines s := by
  apply h.invariant (I := fun s => s.Shutdown s.main ∧ AppInv lines s)
  · rintro s ⟨memory, rfl⟩
    exact ⟨AppState.shutdown_loop (AppState.start_open memory lines) lines,
      .start memory lines⟩
  · rintro s thread t ⟨hshutdown, hinv⟩ hs
    exact ⟨hs.shutdown hshutdown, hinv.step hshutdown hs⟩

/-- In every interleaving the sink displays a prefix of the image of the lines. A queue from which
`wait_empty` has returned stays empty and everything has gone through it; when `main` returns,
the whole image has been displayed and every thread has been joined. -/
theorem threadedApp_displays (A : ThreadedApp T) (lines : List (T 0)) (s : AppState A)
    (h : (A.system lines).Reachable s) :
    s.displayed <+: A.image lines A.stages (Nat.le_refl _) ∧
    s.main ≠ .uncaught ∧
    (∀ i (hi : i ≤ A.stages), i < s.main.drained A.stages →
      (s.queues i).peers.queue.mSize = 0 ∧ (s.queues i).peers.released = A.image lines i hi) ∧
    (s.main = .returned →
      s.displayed = A.image lines A.stages (Nat.le_refl _) ∧ s.sink = .joined ∧
        ∀ i, s.stages i = .joined) := by
  obtain ⟨hshutdown, hinv⟩ := ThreadedApp.invariant h
  refine ⟨hinv.displayed_prefix.trans (hinv.committed_image _ _), ?_, ?_, ?_⟩
  · intro hmain
    rw [hmain] at hshutdown
    exact hshutdown
  · intro i hi hdrained
    exact ⟨hinv.drained i hdrained, hinv.drained_image i hi hdrained⟩
  · intro hmain
    rw [hmain] at hshutdown
    have hall : A.stages < s.main.drained A.stages := by
      rw [hmain]
      exact Nat.lt_succ_self _
    have hshown := hinv.sink.shown
    rw [hshutdown.sink] at hshown
    refine ⟨?_, hshutdown.sink, fun i => (hshutdown.stages i).mpr (Nat.zero_le _)⟩
    rw [← hinv.drained_image A.stages (Nat.le_refl _) hall]
    exact hshown

/-- One `AddFive` process between two queues of two elements, in front of a sink. -/
def addFiveApp : ThreadedApp (fun _ => Nat) where
  toPipeline := addFivePipeline
  sinkBlocksize := 1
  sinkBlocksize_pos := Nat.one_pos
  sink_dvd := Nat.one_dvd _
  capacity_pos _ _ := Nat.two_pos

def addFiveAppStage : Fin addFiveApp.stages := ⟨0, Nat.one_pos⟩

/-- The only line is 60: the program displays 65 and returns. -/
theorem threadedApp_displays_addFive :
    ∃ s : AppState addFiveApp, s.main = .returned ∧
      s.displayed <+: addFiveApp.image [(60 : Nat)] 1 (Nat.le_refl 1) ∧
      s.main ≠ .uncaught ∧
      (∀ i (hi : i ≤ 1), i < s.main.drained 1 →
        (s.queues i).peers.queue.mSize = 0 ∧
          (s.queues i).peers.released = addFiveApp.image [(60 : Nat)] i hi) ∧
      (s.main = .returned →
        s.displayed = addFiveApp.image [(60 : Nat)] 1 (Nat.le_refl 1) ∧ s.sink = .joined ∧
          ∀ i, s.stages i = .joined) := by
  have hstart : (addFiveApp.system [(60 : Nat)]).Reachable
      (addFiveApp.start (fun _ _ => (0 : Nat)) [(60 : Nat)]) := .init ⟨_, rfl⟩
  have hroom := hstart.step (.beginWrite rfl (.inl rfl) rfl)
  have hstored := hroom.step (.store rfl (.store rfl rfl))
  have hpushed := hstored.step (.endWrite rfl
    (.endWrite rfl rfl (.nobody (by intro t call h; cases t <;> cases h))))
  have hread := hpushed.step (.stage (i := addFiveAppStage) (.beginRead (.inl rfl) rfl))
  have hwrite := hread.step (.stage (i := addFiveAppStage) (.beginWrite (.inl rfl) rfl))
  have hloaded := hwrite.step (.stage (i := addFiveAppStage)
    (.load (show 0 < 1 by decide) (.load rfl rfl)))
  have hdone := hloaded.step (.stage (i := addFiveAppStage)
    (.store (v := (65 : Nat)) rfl (show 0 < 1 by decide) rfl (.store rfl rfl)))
  have hcommitted := hdone.step (.stage (i := addFiveAppStage)
    (.endWrite (.endWrite rfl rfl (.nobody (by intro t call h; cases t <;> cases h)))))
  have hreleased := hcommitted.step (.stage (i := addFiveAppStage)
    (.endRead (.endRead rfl rfl (.nobody (by intro t call h; cases t <;> cases h)))))
  have hempty := hreleased.step (.waitEmpty rfl (.inl rfl) rfl)
  have htaken := hempty.step (.sinkBeginRead rfl (.inl rfl) rfl)
  have hshown := htaken.step (.processItem rfl (show 0 < 1 by decide) (.load rfl rfl))
  have hended := hshown.step (.sinkEndRead rfl
    (.endRead rfl rfl (.nobody (by intro t call h; cases t <;> cases h))))
  have hall := hended.step (.waitEmpty rfl (.inl rfl) rfl)
  have hsink := hall.step (.interruptSink rfl
    (.interruptRead (.nobody (by intro t call h; cases t <;> cases h))))
  have hleft := hsink.step (.sinkBeginRead rfl (.inl rfl) rfl)
  have hjoined := hleft.step (.joinSink rfl rfl)
  have hinput := hjoined.step (.interruptRead rfl
    (.interruptRead (.nobody (by intro t call h; cases t <;> cases h))))
  have houtput := hinput.step (.interruptWrite rfl
    (.interruptWrite (.nobody (by intro t call h; cases t <;> cases h))))
  have hexited := houtput.step (.stage (i := addFiveAppStage) (.beginRead (.inl rfl) rfl))
  have hreturned := hexited.step (.join (i := addFiveAppStage) rfl rfl)
  exact ⟨_, rfl, threadedApp_displays addFiveApp [(60 : Nat)] _ hreturned⟩

end Dyplo
