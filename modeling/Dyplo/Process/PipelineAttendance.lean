import Dyplo.Process.StageSteps

/-!
# Every stage of a pipeline is inside its call

A stage that waits in one of its queues sleeps there only as long as it has a reason: whoever
takes the reason away signals it. This holds whatever the neighbours, the source, the sink and
the controller do.
-/

universe u

namespace Dyplo

namespace Signal

variable {ι : Type*} [DecidableEq ι] {c : Condition} {threads threads' : ι → ThreadStatus} {t : ι}

private theorem status (h : Signal c threads threads') (t : ι) : threads' t = threads t ∨
    ∃ call, threads t = .asleep call ∧ call.condition = c ∧ threads' t = .awake call := by
  cases h with
  | nobody => exact .inl rfl
  | @wake u call hasleep hc =>
    by_cases htu : t = u
    · subst htu
      exact .inr ⟨call, hasleep, hc, Function.update_self ..⟩
    · exact .inl (Function.update_of_ne htu _ _)

private theorem wakes (h : Signal c threads threads') {call : Call} (ht : threads t = .asleep call)
    (hc : call.condition = c)
    (honly : ∀ u call, threads u = .asleep call → call.condition = c → u = t) :
    threads' t = .awake call := by
  rcases h.status t with heq | ⟨call', ht', -, hawake⟩
  · exact absurd hc (h.no_sleeper t honly (heq.trans ht))
  · rw [ht] at ht'
    obtain rfl := ThreadStatus.asleep.inj ht'
    exact hawake

end Signal

private theorem Side.Makes.condition {t : Side} {call : Call} (h : t.Makes call) :
    call.condition = t.condition := by
  cases t <;> cases call <;> first | rfl | exact h.elim

/-- Who takes part in an action as a user of the queue. -/
def MonitorAction.user {ι α : Type*} : MonitorAction ι α → Option ι
  | .call t _ | .again t | .store t _ _ | .load t _ | .endWrite t _ | .endRead t _ => some t
  | _ => none

namespace Monitor.Inside

variable {α : Type u} {m m' : Monitor Side α} {t : Side} {pending : Option Call}

private theorem signal (h : m.Inside t pending) {c : Condition} {threads : Side → ThreadStatus}
    (hsignal : Signal c m.threads threads) {p : PeerState α} {scheduler : PthreadScheduler}
    (honly : ∀ call, pending = some call → call.condition = c →
      ∀ u call', m.threads u = .asleep call' → call'.condition = c → u = t)
    (hother : ∀ call, pending = some call → call.condition ≠ c → call.Waits m.peers.queue →
      call.Waits p.queue ∧
        scheduler.interrupted call.condition = m.scheduler.interrupted call.condition) :
    Monitor.Inside { peers := p, scheduler := scheduler, threads := threads } t pending := by
  cases pending with
  | none => exact hsignal.running h
  | some call =>
    rcases h with (hrun | hawake) | ⟨hasleep, hwaits, hflag⟩
    · exact .inl (.inl (hsignal.running hrun))
    · rcases hsignal.status t with heq | ⟨call', hasleep, -⟩
      · exact .inl (.inr (heq.trans hawake))
      · rw [hawake] at hasleep
        cases hasleep
    · by_cases hc : call.condition = c
      · exact .inl (.inr (hsignal.wakes hasleep hc (honly call rfl hc)))
      · obtain ⟨hstill, hsame⟩ := hother call rfl hc hwaits
        rcases hsignal.status t with heq | ⟨call', hasleep', hc', -⟩
        · exact .inr ⟨heq.trans hasleep, hstill, hsame.trans hflag⟩
        · rw [hasleep] at hasleep'
          obtain rfl := ThreadStatus.asleep.inj hasleep'
          exact absurd hc' hc

private theorem update (h : m.Inside t pending) {u : Side} (hut : t ≠ u) (status : ThreadStatus)
    {p : PeerState α} (hp : p.queue = m.peers.queue) :
    Monitor.Inside { m with peers := p, threads := Function.update m.threads u status } t
      pending := by
  have hkeep : Function.update m.threads u status t = m.threads t := Function.update_of_ne hut _ _
  cases pending with
  | none => exact hkeep.trans h
  | some call =>
    rcases h with (hrun | hawake) | ⟨hasleep, hwaits, hflag⟩
    · exact .inl (.inl (hkeep.trans hrun))
    · exact .inl (.inr (hkeep.trans hawake))
    · exact .inr ⟨hkeep.trans hasleep, hp ▸ hwaits, hflag⟩

private theorem enter_other (h : m.Inside t pending) {u : Side} (hut : t ≠ u) (call : Call) :
    (m.enter u call).2.Inside t pending := by
  rcases m.enter_cases u call with ⟨p, hp, heq⟩ | ⟨-, -, heq⟩ | ⟨-, -, heq⟩
  · rw [heq]
    exact h.update hut _ (Monitor.attempt_queue hp)
  · rw [heq]
    exact h.update hut _ rfl
  · rw [heq]
    exact h.update hut _ rfl

/-- What anybody else does leaves a thread inside its call, or wakes it. -/
theorem step (h : m.Inside t pending) (hpending : ∀ call, pending = some call → t.Makes call)
    (hasleep : ∀ u call, m.threads u = .asleep call → u.Makes call)
    {a : MonitorAction Side α} (ha : a.user ≠ some t) (hs : m.Step a m') :
    m'.Inside t pending := by
  have hother : ∀ {u : Side}, a.user = some u → t ≠ u := by
    rintro u hu rfl
    exact ha hu
  have honly : ∀ c, ∀ call, pending = some call → call.condition = c →
      ∀ u call', m.threads u = .asleep call' → call'.condition = c → u = t := by
    rintro c call hcall rfl u call' hu hc
    have ht := (hpending call hcall).condition
    have hu' := (hasleep u call' hu).condition
    rw [hc, ht] at hu'
    cases t <;> cases u <;> first | rfl | cases hu'
  cases hs with
  | call _ => exact h.enter_other (hother rfl) _
  | again _ => exact h.enter_other (hother rfl) _
  | @spurious u call hu =>
    by_cases hut : t = u
    · subst hut
      cases pending with
      | none => rw [Monitor.Inside, hu] at h; cases h
      | some call' =>
        rcases h with (hrun | hawake) | ⟨hsleeps, -⟩
        · rw [hu] at hrun; cases hrun
        · rw [hu] at hawake; cases hawake
        · rw [hu] at hsleeps
          obtain rfl := ThreadStatus.asleep.inj hsleeps
          exact .inl (.inr (Function.update_self ..))
    · exact h.update hut _ rfl
  | store _ hp =>
    obtain rfl := Option.some.inj hp
    cases pending with
    | none => exact h
    | some call => cases call <;> exact h
  | load _ hp =>
    obtain rfl := Option.some.inj hp
    cases pending with
    | none => exact h
    | some call => exact h
  | endWrite _ hp hsignal =>
    obtain rfl := Option.some.inj hp
    refine h.signal hsignal (honly _) fun call hcall hc hwaits => ⟨?_, rfl⟩
    cases call with
    | beginRead n => exact absurd rfl hc
    | waitEmpty => cases t <;> exact (hpending _ hcall).elim
    | beginWrite n =>
      change m.peers.queue.mEnd - m.peers.queue.mSize < n at hwaits
      change m.peers.queue.mEnd - (m.peers.queue.mSize + _) < n
      omega
  | endRead _ hp hsignal =>
    obtain rfl := Option.some.inj hp
    refine h.signal hsignal (honly _) fun call hcall hc hwaits => ⟨?_, rfl⟩
    cases call with
    | beginWrite n => exact absurd rfl hc
    | waitEmpty => cases t <;> exact (hpending _ hcall).elim
    | beginRead n => exact Nat.lt_of_le_of_lt (Nat.sub_le _ _) hwaits
  | interruptRead hsignal =>
    exact h.signal hsignal (honly _) fun call _ hc hwaits =>
      ⟨hwaits, PthreadScheduler.interrupted_setInterrupted_of_ne hc⟩
  | interruptWrite hsignal =>
    exact h.signal hsignal (honly _) fun call _ hc hwaits =>
      ⟨hwaits, PthreadScheduler.interrupted_setInterrupted_of_ne hc⟩
  | resumeRead hsignal =>
    exact h.signal hsignal (honly _) fun call _ hc hwaits =>
      ⟨hwaits, PthreadScheduler.interrupted_setInterrupted_of_ne hc⟩
  | resumeWrite hsignal =>
    exact h.signal hsignal (honly _) fun call _ hc hwaits =>
      ⟨hwaits, PthreadScheduler.interrupted_setInterrupted_of_ne hc⟩

end Monitor.Inside

private theorem Monitor.inside_of_enter {α : Type u} {m m' : Monitor Side α} {t : Side}
    {call : Call}
    {outcome : Outcome} (henter : m.enter t call = (outcome, m')) :
    outcome = .sleeping ∧ m'.Inside t (some call) ∨ outcome ≠ .sleeping ∧ m'.Inside t none := by
  obtain ⟨hscheduler, -, ⟨rfl, -, hrun⟩ | ⟨rfl, -, hrun, -⟩ | ⟨rfl, hpeers, hasleep, hwaits,
    hflag⟩⟩ := Monitor.enter_spec henter
  · exact .inr ⟨by simp, hrun⟩
  · exact .inr ⟨by simp, hrun⟩
  · refine .inl ⟨rfl, .inr ⟨hasleep, ?_, ?_⟩⟩
    · rw [hpeers]; exact hwaits
    · rw [hscheduler]; exact hflag

/-- What nobody but its producer does to a queue. -/
def Monitor.KeepsProducer {α : Type u} (m m' : Monitor Side α) : Prop :=
  ∀ n : Option Nat, m.Inside .producer (n.map .beginWrite) → m'.Inside .producer (n.map .beginWrite)

/-- What nobody but its consumer does to a queue. -/
def Monitor.KeepsConsumer {α : Type u} (m m' : Monitor Side α) : Prop :=
  ∀ n : Option Nat, m.Inside .consumer (n.map .beginRead) → m'.Inside .consumer (n.map .beginRead)

namespace QueueInv

variable {α : Type u} {capacity : Nat} {m m' : Monitor Side α}

private theorem keepsProducer (h : QueueInv capacity m) {a : MonitorAction Side α}
    (ha : a.user ≠ some .producer) (hs : m.Step a m') : m.KeepsProducer m' := by
  intro n hn
  refine hn.step ?_ h.asleep ha hs
  rintro call hcall
  obtain ⟨k, -, rfl⟩ := Option.map_eq_some_iff.mp hcall
  trivial

private theorem keepsConsumer (h : QueueInv capacity m) {a : MonitorAction Side α}
    (ha : a.user ≠ some .consumer) (hs : m.Step a m') : m.KeepsConsumer m' := by
  intro n hn
  refine hn.step ?_ h.asleep ha hs
  rintro call hcall
  obtain ⟨k, -, rfl⟩ := Option.map_eq_some_iff.mp hcall
  trivial

end QueueInv

section Stage

variable {β γ : Type u} {processor : StaticProcessor β γ} {thread thread' : StageThread β}
  {m m' : Monitor Side β} {w w' : Monitor Side γ}

private theorem StageThread.Step.inside
    (hs : thread.Step .producer .consumer processor m w thread' m' w')
    (hm : m.Inside .consumer ((thread.reading processor.blocksize).map .beginRead))
    (hw : w.Inside .producer ((thread.writing processor.blocksize).map .beginWrite)) :
    m'.Inside .consumer ((thread'.reading processor.blocksize).map .beginRead) ∧
      w'.Inside .producer ((thread'.writing processor.blocksize).map .beginWrite) := by
  cases hs with
  | @beginRead _ _ _ outcome _ henter =>
    rcases Monitor.inside_of_enter henter with ⟨rfl, hinside⟩ | ⟨hne, hinside⟩
    · exact ⟨hinside, hw⟩
    · cases outcome with
      | returned => exact ⟨hinside, .inl (.inl hw)⟩
      | interrupted => exact ⟨hinside, hw⟩
      | sleeping => exact absurd rfl hne
  | @beginWrite _ _ _ _ outcome _ henter =>
    rcases Monitor.inside_of_enter henter with ⟨rfl, hinside⟩ | ⟨hne, hinside⟩
    · exact ⟨hm, hinside⟩
    · cases outcome with
      | returned => exact ⟨hm, hinside⟩
      | interrupted => exact ⟨hm, hinside⟩
      | sleeping => exact absurd rfl hne
  | load _ hstep => exact ⟨hstep.running (by simp) hm, hw⟩
  | store _ _ _ hstep => exact ⟨hm, hstep.running (by simp) hw⟩
  | endWrite hstep => exact ⟨hm, hstep.running (by simp) hw⟩
  | endRead hstep => exact ⟨.inl (.inl (hstep.running (by simp) hm)), hw⟩

private theorem StageThread.Step.keeps {c d : Nat}
    (hs : thread.Step .producer .consumer processor m w thread' m' w') (hm : QueueInv c m)
    (hw : QueueInv d w) : m.KeepsProducer m' ∧ w.KeepsConsumer w' := by
  cases hs with
  | beginRead _ henter =>
    refine ⟨fun n hn => ?_, fun _ h => h⟩
    have hkeep := hn.enter_other (u := .consumer) (by simp) (.beginRead processor.blocksize)
    rwa [henter] at hkeep
  | beginWrite _ henter =>
    refine ⟨fun _ h => h, fun n hn => ?_⟩
    have hkeep := hn.enter_other (u := .producer) (by simp) (.beginWrite processor.blocksize)
    rwa [henter] at hkeep
  | load _ hstep => exact ⟨hm.keepsProducer (by simp [MonitorAction.user]) hstep, fun _ h => h⟩
  | store _ _ _ hstep =>
    exact ⟨fun _ h => h, hw.keepsConsumer (by simp [MonitorAction.user]) hstep⟩
  | endWrite hstep => exact ⟨fun _ h => h, hw.keepsConsumer (by simp [MonitorAction.user]) hstep⟩
  | endRead hstep => exact ⟨hm.keepsProducer (by simp [MonitorAction.user]) hstep, fun _ h => h⟩

end Stage

variable {T : Nat → Type u} {P : Pipeline T}

namespace PipelineState

/-- Every stage is inside the call that it waits in. -/
structure Attendance (s : PipelineState P) : Prop where
  reader (i : Fin P.stages) : (s.queues i).Inside .consumer
    (((s.threads i).reading (P.processor i).blocksize).map .beginRead)
  writer (i : Fin P.stages) : (s.queues (i + 1)).Inside .producer
    (((s.threads i).writing (P.processor i).blocksize).map .beginWrite)

namespace Attendance

variable {s t : PipelineState P}

private theorem setQueue (h : s.Attendance) {j : Nat} {m : Monitor Side (T j)}
    (hr : j < P.stages → (s.queues j).KeepsConsumer m)
    (hw : 0 < j → (s.queues j).KeepsProducer m) : (s.setQueue j m).Attendance := by
  refine ⟨fun i => ?_, fun i => ?_⟩
  · change Monitor.Inside (Function.update s.queues j m i) _ _
    by_cases hij : (i : Nat) = j
    · subst hij
      rw [Function.update_self]
      exact hr i.isLt _ (h.reader i)
    · rw [Function.update_of_ne hij]
      exact h.reader i
  · change Monitor.Inside (Function.update s.queues j m (i + 1)) _ _
    by_cases hij : (i : Nat) + 1 = j
    · subst hij
      rw [Function.update_self]
      exact hw (Nat.succ_pos i) _ (h.writer i)
    · rw [Function.update_of_ne hij]
      exact h.writer i

private theorem setThread (h : s.Attendance) {i : Fin P.stages} {thread : StageThread (T i)}
    (hr : (s.queues i).Inside .consumer
      ((thread.reading (P.processor i).blocksize).map .beginRead))
    (hw : (s.queues (i + 1)).Inside .producer
      ((thread.writing (P.processor i).blocksize).map .beginWrite)) :
    (s.setThread i thread).Attendance := by
  refine ⟨fun k => ?_, fun k => ?_⟩
  · change (s.queues k).Inside _ (((Function.update s.threads i thread k).reading _).map _)
    by_cases hki : k = i
    · subst hki; rw [Function.update_self]; exact hr
    · rw [Function.update_of_ne hki]; exact h.reader k
  · change (s.queues (k + 1)).Inside _ (((Function.update s.threads i thread k).writing _).map _)
    by_cases hki : k = i
    · subst hki; rw [Function.update_self]; exact hw
    · rw [Function.update_of_ne hki]; exact h.writer k

/-- A stage takes a step between its neighbours. -/
theorem stage (h : s.Attendance) (hinv : PipelineInv s) {i : Fin P.stages}
    {thread : StageThread (T i)} {m : Monitor Side (T i)} {w : Monitor Side (T (i + 1))}
    (hs : (s.threads i).Step .producer .consumer (P.processor i) (s.queues i) (s.queues (i + 1))
      thread m w) :
    (((s.setQueue i m).setQueue (i + 1) w).setThread i thread).Attendance := by
  obtain ⟨hm, hw⟩ := hs.inside (h.reader i) (h.writer i)
  obtain ⟨hkeepsIn, hkeepsOut⟩ := hs.keeps (hinv.queue i) (hinv.queue (i + 1))
  refine ⟨fun k => ?_, fun k => ?_⟩
  · change Monitor.Inside (Function.update (Function.update s.queues i m) (i + 1) w k) _
      (((Function.update s.threads i thread k).reading _).map _)
    by_cases hki : k = i
    · subst hki
      rw [Function.update_self, Function.update_of_ne (Nat.ne_of_lt (Nat.lt_succ_self _)),
        Function.update_self]
      exact hm
    · rw [Function.update_of_ne hki]
      have hne : (k : Nat) ≠ i := fun heq => hki (Fin.ext heq)
      have hreader := h.reader k
      clear hki
      obtain ⟨k, hk⟩ := k
      by_cases hnext : k = i + 1
      · subst hnext
        rw [Function.update_self]
        exact hkeepsOut _ hreader
      · rw [Function.update_of_ne hnext, Function.update_of_ne hne]
        exact hreader
  · change Monitor.Inside (Function.update (Function.update s.queues i m) (i + 1) w (k + 1)) _
      (((Function.update s.threads i thread k).writing _).map _)
    by_cases hki : k = i
    · subst hki
      rw [Function.update_self, Function.update_self]
      exact hw
    · have hne : (k : Nat) + 1 ≠ i + 1 := fun heq => hki (Fin.ext (Nat.succ.inj heq))
      rw [Function.update_of_ne hki, Function.update_of_ne hne]
      have hwriter := h.writer k
      obtain ⟨i, hi⟩ := i
      by_cases hprevious : (k : Nat) + 1 = i
      · subst hprevious
        rw [Function.update_self]
        exact hkeepsIn _ hwriter
      · rw [Function.update_of_ne hprevious]
        exact hwriter

private theorem step (h : s.Attendance) (hinv : PipelineInv s) {actor : Actor P.stages}
    (hs : s.Step actor t) : t.Attendance := by
  cases actor with
  | stage i =>
    obtain ⟨thread, m, w, hstep, rfl⟩ := step_stage_iff.mp hs
    exact h.stage hinv hstep
  | source =>
    cases hs with
    | @source a m hmay hstep =>
      refine h.setQueue (fun _ => (hinv.queue 0).keepsConsumer ?_ hstep)
        fun hpos => absurd hpos (Nat.lt_irrefl 0)
      unfold SourceMayTake at hmay
      split at hmay <;> first | exact hmay.elim | simp [MonitorAction.user]
  | sink =>
    cases hs with
    | @sink a m hmay hstep =>
      refine h.setQueue (fun hlt => absurd hlt (Nat.lt_irrefl _))
        fun _ => (hinv.queue P.stages).keepsProducer ?_ hstep
      unfold SinkMayTake at hmay
      split at hmay <;> first | exact hmay.elim | simp [MonitorAction.user]
  | controller =>
    cases hs with
    | @controller i a m hmay hstep =>
      have hnobody : a.user = none := by
        cases a <;> first | rfl | exact hmay.elim
      exact h.setQueue (fun _ => (hinv.queue i).keepsConsumer (by simp [hnobody]) hstep)
        fun _ => (hinv.queue i).keepsProducer (by simp [hnobody]) hstep
    | @start i hthread =>
      have hreader := h.reader i
      have hwriter := h.writer i
      rw [hthread] at hreader hwriter
      exact h.setThread (.inl (.inl hreader)) hwriter
    | @join i hthread =>
      have hreader := h.reader i
      have hwriter := h.writer i
      rw [hthread] at hreader hwriter
      exact h.setThread hreader hwriter

end Attendance

end PipelineState

theorem Pipeline.attendance {s : PipelineState P} (h : P.system.Reachable s) : s.Attendance := by
  have hboth : PipelineInv s ∧ s.Attendance := by
    apply h.invariant (I := fun s => PipelineInv s ∧ s.Attendance)
    · rintro s ⟨memory, rfl⟩
      exact ⟨.start P memory, fun _ => rfl, fun _ => rfl⟩
    · rintro s a t ⟨hinv, hs⟩ hstep
      exact ⟨hinv.step hstep, hs.step hinv hstep⟩
  exact hboth.2

end Dyplo
