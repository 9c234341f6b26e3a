import Dyplo.FileIO.FileOutputRounds

/-!
# Polling a `FileOutputQueue`

`begin_write(0)` asks for the buffer without waiting, and a caller that does not get it gives up
with `end_write(0)`. The commit of no elements takes the place of the bytes that are still to be
written.
-/

namespace Dyplo

namespace FileOutputQueue

variable {size : Nat} {s : FileOutput}

/-- The pending bytes lie in the buffer. -/
structure InBuffer (size : Nat) (s : FileOutput) : Prop where
  length : s.queue.mBuff.length = s.queue.mCapacity * size
  inside : s.queue.mWriteoutPosition + s.queue.mBytesToWrite.toNat ≤ s.queue.mBuff.length

private theorem toInt_toNat_le (n : Nat) : (toInt n).toNat ≤ n := by
  rw [toInt, Int.bmod_def]
  split_ifs <;> omega

namespace InBuffer

private theorem start {memory : List UInt8} {capacity : Nat}
    (hmemory : memory.length = capacity * size) :
    InBuffer size (.start memory capacity) :=
  ⟨hmemory, Nat.zero_le _⟩

private theorem environment (h : InBuffer size s) (writes : List WriteResult) (poller : Poller) :
    InBuffer size { s with writes := writes, poller := poller } :=
  ⟨h.length, h.inside⟩

private theorem pending_length (h : InBuffer size s) :
    s.queue.pending.length = s.queue.mBytesToWrite.toNat := by
  have hinside := h.inside
  rw [pending, List.length_take, List.length_drop]
  omega

private theorem advance (h : InBuffer size s) (count : Nat) : InBuffer size (advance s count) := by
  have hinside := h.inside
  unfold FileOutputQueue.advance
  split_ifs with hmore
  · exact ⟨h.length, by dsimp only; omega⟩
  · exact ⟨h.length, Nat.zero_le _⟩

private theorem commit (h : InBuffer size s) {count : Nat} (hcount : count ≤ s.queue.mCapacity) :
    InBuffer size (commit size count s) := by
  have hle : count * size ≤ s.queue.mCapacity * size := Nat.mul_le_mul_right size hcount
  have hbytes := toInt_toNat_le (count * size)
  have hlength := h.length
  rw [Nat.cast_mul] at hbytes
  refine ⟨h.length, ?_⟩
  rw [FileOutputQueue.commit]
  dsimp only
  rw [Nat.zero_add, hlength]
  exact hbytes.trans hle

private theorem steady (size : Nat) : Steady (InBuffer size) :=
  ⟨fun writes poller h => h.environment writes poller, fun h _ => h.advance _⟩

end InBuffer

section Poll

variable {Q : Bool → FileOutput → Prop} {E : FileStop → FileOutput → Prop}

private theorem wp_writeBuffer_of_zero (h : s.queue.mBytesToWrite = 0) :
    wp writeBuffer Q E s ↔ Q false s := by
  rw [writeBuffer, wp_bind, wp_get, wp_ite, if_pos h, wp_pure]

theorem wp_flush_of_zero {Q : Unit → FileOutput → Prop} (h : s.queue.mBytesToWrite = 0) :
    wp flush Q E s ↔ Q () s := by
  rw [flush, wp_bind, wp_get, flushLoop, wp_bind, wp_writeBuffer_of_zero h]
  exact wp_pure _

private theorem endWrite_zero_spec (size : Nat) (synchronous : Bool) (s : FileOutput) :
    wp (endWrite size synchronous 0)
      (fun _ t => t.accepted = s.accepted ∧ t.queue.pending = []) (fun _ _ => False) s := by
  have hzero : (commit size 0 s).queue.mBytesToWrite = 0 := by simp [commit, toInt]
  rw [endWrite, wp_bind, wp_modify]
  cases synchronous with
  | true => exact (wp_flush_of_zero hzero).mpr ⟨rfl, pending_of_zero hzero⟩
  | false =>
    change wp (writeBuffer >>= fun _ => pure ()) _ _ _
    rw [wp_bind, wp_writeBuffer_of_zero hzero, wp_pure]
    exact ⟨rfl, pending_of_zero hzero⟩

/-- What the `write` of a poll takes is all that is pending, or there is something left. -/
theorem beginWrite_zero_spec (h : InBuffer size s) :
    wp (beginWrite 0)
      (fun _ t => t.accepted = s.accepted ++ s.queue.pending ↔
        s.queue.pending = [] ∨ s.writes.head? = some (.written s.queue.pending.length))
      (fun _ _ => True) s := by
  have hflush {t : FileOutput} {P : FileOutput → Prop} (ht : t.queue.mBytesToWrite = 0)
      (hP : P t) : wp (flush >>= fun _ => get >>= fun s => pure s.queue.mCapacity)
        (fun _ t => P t) (fun _ _ => True) t := by
    rw [wp_bind, wp_flush_of_zero ht, wp_bind, wp_get, wp_pure]
    exact hP
  rw [beginWrite, if_pos rfl, wp_bind]
  by_cases hzero : s.queue.mBytesToWrite = 0
  · rw [wp_writeBuffer_of_zero hzero]
    apply hflush hzero
    simp [pending_of_zero hzero]
  · rw [writeBuffer, wp_bind, wp_get, wp_ite, if_neg hzero]
    have hlen := h.pending_length
    cases hwrites : s.writes with
    | nil => exact (wp_throw _).mpr trivial
    | cons result writes =>
      cases result with
      | again =>
        rw [wp_bind, wp_set, wp_pure]
        refine (wp_pure _).mpr (List.self_eq_append_right.trans (or_iff_left ?_).symm)
        exact fun hhead => by cases hhead
      | failed =>
        rw [wp_bind, wp_set, wp_throw]
        trivial
      | written count =>
        change wp (if s.queue.mBytesToWrite < count then _ else _) _ _ _
        rw [wp_ite]
        split_ifs with hover
        · exact (wp_throw _).mpr trivial
        · rw [wp_bind, wp_set, wp_pure]
          by_cases hmore : (count : Int) < s.queue.mBytesToWrite
          · have hshort : count ≠ s.queue.pending.length := by omega
            rw [decide_eq_true hmore]
            refine (wp_pure _).mpr (iff_of_false ?_ ?_)
            · intro heq
              have htaken := congrArg List.length (List.append_cancel_left heq)
              rw [List.length_take, List.length_drop] at htaken
              omega
            · rintro (hnil | hhead)
              · rw [hnil, List.length_nil] at hlen
                omega
              · simp [hshort] at hhead
          · have hall : count = s.queue.mBytesToWrite.toNat := by omega
            rw [decide_eq_false hmore]
            apply hflush
            · rw [advance, if_neg hmore]
            · refine iff_of_true ?_ (.inr ?_)
              · rw [hall]
                rfl
              · rw [hlen, hall]
                rfl

end Poll

end FileOutputQueue

open FileOutputQueue

namespace OutputRound

variable {size : Nat} {synchronous : Bool} {s t : OutputRound}

/-- A block may be committed while the buffer is granted, and no elements at any time. -/
def PollInTurn (s : OutputRound) : OutputAction → Prop
  | .store memory => s.granted ∧ memory.length = s.output.queue.mBuff.length
  | .endWrite count _ _ => s.granted ∧ count ≤ s.output.queue.mCapacity ∨ count = 0
  | _ => True

instance (s : OutputRound) : (a : OutputAction) → Decidable (s.PollInTurn a)
  | .beginWrite .. | .interrupt | .reset => .isTrue trivial
  | .store memory =>
      inferInstanceAs (Decidable (s.granted ∧ memory.length = s.output.queue.mBuff.length))
  | .endWrite count .. =>
      @instDecidableOr (s.granted ∧ count ≤ s.output.queue.mCapacity) (count = 0)
        instDecidableAnd (Nat.decEq count 0)

private theorem InBuffer.next (hs : InBuffer size s.output) {a : OutputAction}
    (hturn : s.PollInTurn a)
    (hnext : s.next size synchronous a = some t) : InBuffer size t.output := by
  cases a with
  | beginWrite countMin writes polls =>
    have hspec := (InBuffer.steady size).beginWrite_spec
      (hs.environment writes { s.output.poller with polls := polls }) countMin
    obtain ⟨-, ⟨r, hreturn, -⟩ | ⟨stop, hstop, -⟩⟩ := next_beginWrite hspec hnext
    · exact hreturn.1
    · exact hstop
  | store memory =>
    obtain rfl := Option.some.inj hnext
    have hlength : memory.length = s.output.queue.mBuff.length := hturn.2
    exact ⟨hlength.trans hs.length, hlength ▸ hs.inside⟩
  | endWrite count writes polls =>
    have hcount : count ≤ s.output.queue.mCapacity := by
      rcases hturn with ⟨-, hcount⟩ | rfl
      · exact hcount
      · exact Nat.zero_le _
    have hspec := (InBuffer.steady size).endWrite_spec
      ((hs.environment writes { s.output.poller with polls := polls }).commit hcount) synchronous
    obtain ⟨-, -, hreturn | ⟨stop, hstop⟩⟩ := next_endWrite hspec hnext
    · exact hreturn
    · exact hstop
  | interrupt =>
    obtain rfl := Option.some.inj hnext
    exact ⟨hs.length, hs.inside⟩
  | reset =>
    obtain rfl := Option.some.inj hnext
    exact ⟨hs.length, hs.inside⟩

end OutputRound

/-- All uses of a queue that has just been constructed, commits of no elements among them. -/
def outputPolls (size capacity : Nat) (synchronous : Bool) :
    TransitionSystem OutputRound OutputAction :=
  .ofNext (fun s => ∃ memory : List UInt8, memory.length = capacity * size ∧
    s = .start memory capacity) OutputRound.PollInTurn (OutputRound.next size synchronous)

/-- No elements are committed only while nothing is pending, and a block fits an `int`. -/
def CommitsInOrder (size : Nat) (s : OutputRound) (a : OutputAction) (_ : OutputRound) : Prop :=
  ∀ count writes polls, a = .endWrite count writes polls →
    (count = 0 → s.output.queue.pending = []) ∧ count * size < 2 ^ 31

private theorem OutputInv.next_poll {size capacity : Nat} {synchronous : Bool} {s t : OutputRound}
    {a : OutputAction} (hs : OutputInv size capacity s) (hturn : s.PollInTurn a)
    (hnext : s.next size synchronous a = some t) (horder : CommitsInOrder size s a t) :
    OutputInv size capacity t := by
  cases a with
  | beginWrite countMin writes polls => exact hs.beginWrite hnext
  | store memory => exact hs.store hturn.1 hturn.2 hnext
  | endWrite count writes polls =>
    obtain ⟨hpending, hsmall⟩ := horder count writes polls rfl
    rcases hturn with ⟨hgranted, hcount⟩ | rfl
    · exact hs.endWrite (hs.idle hgranted) hsmall hcount hnext
    · have hlength := congrArg List.length (hpending rfl)
      have hinside := hs.owes.inside
      have hnonneg := hs.owes.bytes_nonneg
      have hbuffer := hs.owes.length
      rw [pending, List.length_take, List.length_drop, List.length_nil] at hlength
      exact hs.endWrite (by push_cast at *; omega) hsmall (Nat.zero_le _) hnext
  | interrupt =>
    obtain rfl := Option.some.inj hnext
    exact hs.environment _
  | reset =>
    obtain rfl := Option.some.inj hnext
    exact hs.environment _

/-- Nothing is lost in a run that commits no elements only while nothing is pending. From any
state, a poll and such a commit keep every byte exactly when nothing is pending before or the
`write` of the poll takes all of it. -/
theorem fileOutput_endWrite_zero_iff (size capacity : Nat) (synchronous : Bool) :
    (∀ s, ((outputPolls size capacity synchronous).restrict (CommitsInOrder size)).Reachable s →
      s.output.accepted ++ s.output.queue.pending = s.committed) ∧
    ∀ s, (outputPolls size capacity synchronous).Reachable s →
      ∀ writes writes' polls polls' r u,
        FileOutputQueue.beginWrite 0 (s.output.answered writes polls) = .ok r u →
        ∃ v, FileOutputQueue.endWrite size synchronous 0 (u.answered writes' polls') = .ok () v ∧
          (v.accepted ++ v.queue.pending = s.output.accepted ++ s.output.queue.pending ↔
            s.output.queue.pending = [] ∨
              writes.head? = some (.written s.output.queue.pending.length)) := by
  constructor
  · intro s h
    have hinv : OutputInv size capacity s := by
      apply h.restrict_invariant (I := OutputInv size capacity)
      · rintro _ ⟨memory, hmemory, rfl⟩
        exact .start hmemory
      · rintro s a t hs ⟨hturn, hnext⟩ horder
        exact hs.next_poll hturn hnext horder
    exact hinv.owes.stream
  intro s h writes writes' polls polls' r u hpoll
  have hinv : InBuffer size s.output := by
    apply h.invariant (I := fun s => InBuffer size s.output)
    · rintro _ ⟨memory, hmemory, rfl⟩
      exact .start hmemory
    · rintro s a t hs ⟨hturn, hnext⟩
      exact OutputRound.InBuffer.next hs hturn hnext
  have hbegin := (wp_of_ok hpoll).mp
    (beginWrite_zero_spec (hinv.environment writes { s.output.poller with polls := polls }))
  have hend := endWrite_zero_spec size synchronous (u.answered writes' polls')
  cases hrun : FileOutputQueue.endWrite size synchronous 0 (u.answered writes' polls') with
  | ok x v =>
    obtain ⟨haccepted, hpending⟩ := (wp_of_ok hrun).mp hend
    refine ⟨v, rfl, ?_⟩
    rw [hpending, haccepted, List.append_nil]
    exact hbegin
  | error stop v => exact ((wp_of_error hrun).mp hend).elim

/-- One byte is committed and does not get through. -/
def stuckOutput : OutputRound :=
  (TransitionSystem.exec OutputRound.PollInTurn (OutputRound.next 1 false) (.start [0] 1)
    [.beginWrite 1 [] [], .store [7], .endWrite 1 [.again] []]).get (by decide)

private theorem stuckOutput_reachable : (outputPolls 1 1 false).Reachable stuckOutput :=
  .run (.init ⟨[0], rfl, rfl⟩) (TransitionSystem.run_of_exec (Option.some_get _).symm)

/-- A poll finds the descriptor still full. -/
def stuckPoll : FileOutput :=
  finalState (FileOutputQueue.beginWrite 0) (stuckOutput.output.answered [.again] [])

theorem fileOutput_endWrite_zero_iff_stuck :
    (OutputRound.start [0] 1).output.accepted ++ (OutputRound.start [0] 1).output.queue.pending =
      [] ∧
    ∃ v, FileOutputQueue.endWrite 1 false 0 (stuckPoll.answered [] []) = .ok () v ∧
      (v.accepted ++ v.queue.pending =
          stuckOutput.output.accepted ++ stuckOutput.output.queue.pending ↔
        stuckOutput.output.queue.pending = [] ∨
          [WriteResult.again].head? = some (.written stuckOutput.output.queue.pending.length)) :=
  ⟨(fileOutput_endWrite_zero_iff 1 1 false).1 (.start [0] 1) (.init ⟨[0], rfl, rfl⟩),
    (fileOutput_endWrite_zero_iff 1 1 false).2 stuckOutput stuckOutput_reachable [.again] [] [] [] 0
      stuckPoll (by decide)⟩

/-- The poll returns 0, and the commit of no elements that follows loses the byte. -/
theorem fileOutput_endWrite_zero_loses :
    ¬ ∀ (size capacity : Nat) (synchronous : Bool) (s : OutputRound),
      (outputPolls size capacity synchronous).Reachable s →
      ∀ writes writes' polls polls' r u v,
        FileOutputQueue.beginWrite 0 (s.output.answered writes polls) = .ok r u →
        FileOutputQueue.endWrite size synchronous 0 (u.answered writes' polls') = .ok () v →
        v.accepted ++ v.queue.pending = s.output.accepted ++ s.output.queue.pending := by
  intro h
  have hkept := h 1 1 false stuckOutput stuckOutput_reachable [.again] [] [] [] 0 stuckPoll
    (finalState (FileOutputQueue.endWrite 1 false 0) (stuckPoll.answered [] []))
    (by decide) (by decide)
  revert hkept
  decide

end Dyplo
