import Dyplo.FileIO.FileInputRounds
import Dyplo.FileIO.FileOutputRounds

/-!
# Calls under way

A call on a file queue reads, writes and polls several times, and other threads take their steps in
between. A call under way is the call with the answers that the kernel has given so far: where it
stands is where these answers take it.
-/

namespace Dyplo

open FileOutputQueue FileInputQueue

inductive OutputAnswer
  | write (result : WriteResult)
  | poll (event : PollEvent)

namespace OutputAction

/-- The call with one more answer. -/
def answered : OutputAction → OutputAnswer → OutputAction
  | .beginWrite n writes polls, .write result => .beginWrite n (writes ++ [result]) polls
  | .beginWrite n writes polls, .poll event => .beginWrite n writes (polls ++ [event])
  | .endWrite n writes polls, .write result => .endWrite n (writes ++ [result]) polls
  | .endWrite n writes polls, .poll event => .endWrite n writes (polls ++ [event])
  | a, _ => a

def writes : OutputAction → List WriteResult
  | .beginWrite _ writes _ | .endWrite _ writes _ => writes
  | _ => []

def Unanswered : OutputAction → Prop
  | .beginWrite _ writes polls | .endWrite _ writes polls => writes = [] ∧ polls = []
  | _ => True

private theorem Unanswered.writes {a : OutputAction} (h : a.Unanswered) : a.writes = [] := by
  cases a with
  | beginWrite | endWrite => exact h.1
  | _ => rfl

theorem inTurn_answered {a : OutputAction} {s : OutputRound} (x : OutputAnswer) :
    s.InTurn (a.answered x) ↔ s.InTurn a := by
  cases a <;> cases x <;> rfl

end OutputAction

/-- Every answer that has been given has been used. -/
def FileOutput.Answered (s : FileOutput) : Prop := s.writes = [] ∧ s.poller.polls = []

instance (s : FileOutput) : Decidable s.Answered := inferInstanceAs (Decidable (_ ∧ _))

/-- Where a call under way stands. The block of an `end_write` is committed from the start, and
the calls that ask nothing of the kernel have not begun. -/
def OutputRound.during (size : Nat) (synchronous : Bool) (s : OutputRound) :
    OutputAction → OutputRound
  | .beginWrite countMin writes polls =>
      { output :=
          finalState (FileOutputQueue.beginWrite countMin) (s.output.answered writes polls)
        committed := s.committed
        granted := false }
  | .endWrite count writes polls =>
      { output := finalState (FileOutputQueue.endWrite size synchronous count)
          (s.output.answered writes polls)
        committed := s.committed ++ s.output.queue.mBuff.take (count * size)
        granted := false }
  | _ => s

/-- How many bytes a `write` has taken. -/
def WriteResult.taken : WriteResult → Nat
  | .written count => count
  | _ => 0

def takenBytes (results : List WriteResult) : Nat := (results.map WriteResult.taken).sum

private theorem takenBytes_append (xs ys : List WriteResult) :
    takenBytes (xs ++ ys) = takenBytes xs + takenBytes ys := by
  rw [takenBytes, List.map_append, List.sum_append]
  rfl

/-- Since state `s` the descriptor has taken what the writes say that have been answered. -/
structure WroteSince (size capacity : Nat) (committed : List UInt8) (s t : FileOutput) : Prop where
  owes : Owes size capacity committed t
  answers : ∃ results, s.writes = results ++ t.writes ∧
    t.accepted.length = s.accepted.length + takenBytes results

namespace WroteSince

variable {size capacity : Nat} {committed : List UInt8} {s t u : FileOutput}

private theorem refl (h : Owes size capacity committed s) :
    WroteSince size capacity committed s s :=
  ⟨h, [], rfl, rfl⟩

private theorem answer (h : WroteSince size capacity committed s t) {result : WriteResult}
    (hwrites : t.writes = result :: u.writes) (howes : Owes size capacity committed u)
    (hlength : u.accepted.length = t.accepted.length + result.taken) :
    WroteSince size capacity committed s u := by
  obtain ⟨results, hresults, hlen⟩ := h.answers
  refine ⟨howes, results ++ [result], ?_, ?_⟩
  · rw [hresults, hwrites, List.append_assoc]
    rfl
  · rw [hlength, hlen, takenBytes_append, Nat.add_assoc]
    rfl

private theorem wait (h : WroteSince size capacity committed s t) (poller : Poller) :
    WroteSince size capacity committed s { t with poller := poller } :=
  ⟨h.owes.environment t.writes poller, h.answers⟩

private theorem keeps_writeBuffer :
    Keeps (WroteSince size capacity committed s) (fun _ => True) writeBuffer := by
  refine Keeps.get_bind fun t ht => Keeps.ite (fun _ => Keeps.pure _) fun _ => ?_
  cases hwrites : t.writes with
  | nil => exact Keeps.throw trivial
  | cons result writes =>
    have howes := ht.owes.environment writes t.poller
    cases result with
    | again => exact (Keeps.set (ht.answer hwrites howes rfl)).bind fun _ => Keeps.pure _
    | failed => exact (Keeps.set (ht.answer hwrites howes rfl)).bind fun _ => Keeps.throw trivial
    | written count =>
      refine Keeps.ite (fun _ => Keeps.throw trivial) fun hover => ?_
      have hcount := Int.not_lt.mp hover
      refine (Keeps.set (ht.answer (u := advance { t with writes := writes } count) hwrites
        (howes.advance hcount) ?_)).bind fun _ => Keeps.pure _
      have hinside := ht.owes.inside
      have hlength := ht.owes.length
      change (t.accepted ++ (t.queue.mBuff.drop t.queue.mWriteoutPosition).take count).length = _
      rw [List.length_append, List.length_take, List.length_drop, hlength, Nat.min_eq_left]
      · rfl
      · omega

private theorem keeps_waitWriteable :
    Keeps (WroteSince size capacity committed s) (fun _ => True) waitWriteable := by
  refine Keeps.get_bind fun t ht => (Keeps.set (ht.wait _)).bind fun _ => ?_
  cases t.poller.wait.1 with
  | none => exact Keeps.pure _
  | some stop => exact Keeps.throw trivial

private theorem keeps_flushLoop (turns : Nat) :
    Keeps (WroteSince size capacity committed s) (fun _ => True) (flushLoop turns) := by
  induction turns with
  | zero => exact Keeps.throw trivial
  | succ turns ih =>
    exact keeps_writeBuffer.bind fun _ =>
      Keeps.ite (fun _ => keeps_waitWriteable.bind fun _ => ih) fun _ => Keeps.pure _

private theorem keeps_flush :
    Keeps (WroteSince size capacity committed s) (fun _ => True) flush :=
  Keeps.get_bind fun s _ => keeps_flushLoop (s.writes.length + 1)

private theorem beginWrite (h : Owes size capacity committed s) (countMin : Nat) :
    WroteSince size capacity committed s (finalState (FileOutputQueue.beginWrite countMin) s) := by
  have hrest : ∀ more : Bool, Keeps (WroteSince size capacity committed s) (fun _ => True)
      (if more = true then pure 0
        else do
          flush
          return (← get).queue.mCapacity : FileOutputM Nat) := fun more =>
    Keeps.ite (fun _ => Keeps.pure _) fun _ => keeps_flush.bind fun _ =>
      Keeps.get_bind fun _ _ => Keeps.pure _
  refine Keeps.finalState (F := fun _ => True) ?_ (refl h)
  unfold FileOutputQueue.beginWrite
  exact Keeps.ite (fun _ => keeps_writeBuffer.bind hrest) fun _ => (Keeps.pure _).bind hrest

private theorem endWrite {count : Nat} (h : Owes size capacity committed (commit size count s))
    (synchronous : Bool) :
    WroteSince size capacity committed (commit size count s)
      (finalState (FileOutputQueue.endWrite size synchronous count) s) := by
  apply finalState_of_wp
  rw [FileOutputQueue.endWrite, wp_bind, wp_modify]
  have hrest : Keeps (WroteSince size capacity committed (commit size count s)) (fun _ => True)
      (if synchronous = true then flush
        else do
          let _ ← writeBuffer
          return : FileOutputM Unit) :=
    Keeps.ite (fun _ => keeps_flush) fun _ => keeps_writeBuffer.bind fun _ => Keeps.pure _
  exact (hrest _ (refl h)).mono (fun _ _ ht => ht) fun _ _ he => he.2

end WroteSince

namespace OutputInv

variable {size capacity : Nat} {synchronous : Bool} {s t : OutputRound} {a : OutputAction}

/-- A call under way owes the rest of what is committed, and has written what the answers say that
it has used. -/
theorem during (hs : OutputInv size capacity s) (hsmall : capacity * size < 2 ^ 31)
    (synchronous : Bool) (hturn : s.InTurn a) :
    Owes size capacity (s.during size synchronous a).committed
      (s.during size synchronous a).output ∧
    ∃ results rest, a.writes = results ++ rest ∧
      (s.during size synchronous a).output.accepted.length =
        s.output.accepted.length + takenBytes results ∧
      ((s.during size synchronous a).output.writes = [] → rest = []) := by
  cases a with
  | beginWrite countMin writes polls =>
    obtain ⟨howes, results, hresults, hlength⟩ :=
      WroteSince.beginWrite (hs.owes.environment writes { s.output.poller with polls := polls })
        countMin
    exact ⟨howes, results, _, hresults, hlength, id⟩
  | endWrite count writes polls =>
    obtain ⟨hgranted, -, hcount⟩ := hturn
    rw [hs.owes.mCapacity] at hcount
    have hblock := Nat.lt_of_le_of_lt (Nat.mul_le_mul_right size hcount) hsmall
    have hstart := hs.owes.environment writes { s.output.poller with polls := polls }
    obtain ⟨howes, results, hresults, hlength⟩ :=
      WroteSince.endWrite (hstart.commit (hs.idle hgranted) hblock hcount) synchronous
    exact ⟨howes, results, _, hresults, hlength, id⟩
  | _ => exact ⟨hs.owes, [], [], rfl, rfl, fun _ => rfl⟩

theorem during_counts (hs : OutputInv size capacity s) (hsmall : capacity * size < 2 ^ 31)
    (hturn : s.InTurn a)
    (hused : a.Unanswered ∨ (s.during size synchronous a).output.Answered) :
    (s.during size synchronous a).output.accepted.length =
      s.output.accepted.length + takenBytes a.writes := by
  obtain ⟨-, results, rest, hwrites, hlength, hrest⟩ := hs.during hsmall synchronous hturn
  have hnil : rest = [] := by
    rcases hused with hnone | hall
    · rw [hnone.writes] at hwrites
      exact (List.append_eq_nil_iff.mp hwrites.symm).2
    · exact hrest hall.1
  rw [hlength, hwrites, hnil, List.append_nil]

theorem during_answered (hs : OutputInv size capacity s) (hsmall : capacity * size < 2 ^ 31)
    (hturn : s.InTurn a) {x : OutputAnswer}
    (hcounts : (s.during size synchronous a).output.accepted.length =
      s.output.accepted.length + takenBytes a.writes)
    (hused : (s.during size synchronous (a.answered x)).output.Answered) :
    (s.during size synchronous a).output.accepted <+:
      (s.during size synchronous (a.answered x)).output.accepted := by
  have hturn' := (OutputAction.inTurn_answered x).mpr hturn
  have hcommitted : (s.during size synchronous (a.answered x)).committed =
      (s.during size synchronous a).committed := by cases a <;> cases x <;> rfl
  have hmore : takenBytes a.writes ≤ takenBytes (a.answered x).writes := by
    cases a <;> cases x <;>
      simp [OutputAction.answered, OutputAction.writes, takenBytes_append]
  have hbefore := (hs.during hsmall synchronous hturn).1.stream
  have hafter := (hs.during hsmall synchronous hturn').1.stream
  rw [hcommitted] at hafter
  apply List.prefix_of_prefix_length_le ⟨_, hbefore⟩ ⟨_, hafter⟩
  rw [hcounts, hs.during_counts hsmall hturn' (.inr hused)]
  omega

theorem accepted_during (hs : OutputInv size capacity s) (hsmall : capacity * size < 2 ^ 31)
    (hturn : s.InTurn a) :
    s.output.accepted <+: (s.during size synchronous a).output.accepted := by
  obtain ⟨howes, results, rest, -, hlength, -⟩ := hs.during hsmall synchronous hturn
  have hcommitted : s.committed <+: (s.during size synchronous a).committed := by
    cases a with
    | endWrite => exact List.prefix_append _ _
    | _ => exact List.prefix_refl _
  have hbefore : s.output.accepted <+: s.committed := ⟨_, hs.owes.stream⟩
  apply List.prefix_of_prefix_length_le (hbefore.trans hcommitted) ⟨_, howes.stream⟩
  omega

end OutputInv

theorem OutputRound.next_accepted {size : Nat} {synchronous : Bool} {s t : OutputRound}
    {a : OutputAction} (hnext : s.next size synchronous a = some t) :
    t.output.accepted = (s.during size synchronous a).output.accepted := by
  cases a with
  | beginWrite =>
    obtain ⟨-, ⟨_, hreturned, -⟩ | ⟨_, hthrown, -⟩⟩ := next_beginWrite (wp_finalState _ _) hnext
    · exact congrArg FileOutput.accepted hreturned
    · exact congrArg FileOutput.accepted hthrown
  | endWrite =>
    obtain ⟨-, -, hreturned | ⟨_, hthrown⟩⟩ := next_endWrite (wp_finalState _ _) hnext
    · exact congrArg FileOutput.accepted hreturned
    · exact congrArg FileOutput.accepted hthrown
  | _ =>
    obtain rfl := Option.some.inj hnext
    rfl

inductive InputAnswer
  | read (result : ReadResult)
  | poll (event : PollEvent)

namespace InputAction

/-- The call with one more answer. -/
def answered : InputAction → InputAnswer → InputAction
  | .beginRead n reads polls, .read result => .beginRead n (reads ++ [result]) polls
  | .beginRead n reads polls, .poll event => .beginRead n reads (polls ++ [event])
  | a, _ => a

def reads : InputAction → List ReadResult
  | .beginRead _ reads _ => reads
  | .endRead _ => []

def Unanswered : InputAction → Prop
  | .beginRead _ reads polls => reads = [] ∧ polls = []
  | .endRead _ => True

theorem inTurn_answered {a : InputAction} {s : InputRound} (x : InputAnswer) :
    s.InTurn (a.answered x) ↔ s.InTurn a := by
  cases a <;> cases x <;> rfl

end InputAction

/-- Every answer that has been given has been used. -/
def FileInput.Answered (s : FileInput) : Prop := s.reads = [] ∧ s.poller.polls = []

instance (s : FileInput) : Decidable s.Answered := inferInstanceAs (Decidable (_ ∧ _))

namespace InputRound

variable {size : Nat} {s t : InputRound} {a : InputAction}

/-- Where a call under way stands. An `end_read` asks nothing of the kernel and has not begun. -/
def during (size : Nat) (s : InputRound) : InputAction → InputRound
  | .beginRead countMin reads polls =>
      let poller := { s.input.poller with polls := polls }
      { s with input :=
          finalState (FileInputQueue.beginRead size countMin) (s.input.answered reads poller) }
  | .endRead _ => s

/-- How a `begin_read` throws: there is no result, but the queue is as the call has left it. -/
def thrown (size : Nat) (s : InputRound) : InputAction → Option InputRound
  | .beginRead countMin reads polls =>
      let poller := { s.input.poller with polls := polls }
      match FileInputQueue.beginRead size countMin (s.input.answered reads poller) with
      | .ok _ _ => none
      | .error .unanswered _ => none
      | .error _ input => some { s with input := input }
  | .endRead _ => none

/-- What has been taken from the descriptor and has not been released. -/
def held (s : InputRound) : List UInt8 := s.input.taken.drop s.released.length

end InputRound

theorem InputRound.next_taken {size : Nat} {s t : InputRound} {a : InputAction}
    (hnext : s.next size a = some t) : t.input.taken = (s.during size a).input.taken := by
  cases a with
  | beginRead =>
    obtain ⟨r, input, hrun, -, rfl⟩ := next_beginRead hnext
    dsimp only [during]
    rw [finalState, hrun]
  | endRead count =>
    obtain ⟨q, -, rfl⟩ := Option.map_eq_some_iff.mp hnext
    rfl

namespace RoundInv

variable {size countMin : Nat} {s t : InputRound} {reads : List ReadResult}
  {polls : List PollEvent} {a : InputAction}

private theorem during_took (hs : RoundInv size s)
    (hturn : s.InTurn (.beginRead countMin reads polls)) :
    ∃ results, Took size (s.input.answered reads { s.input.poller with polls := polls })
      (s.during size (.beginRead countMin reads polls)).input results := by
  apply finalState_of_wp (I := fun t => ∃ results,
    Took size (s.input.answered reads { s.input.poller with polls := polls }) t results)
  refine (beginRead_spec (s := s.input.answered reads { s.input.poller with polls := polls })
    hs.buffered.roomy hturn.2).mono ?_ ?_
  · rintro r t (⟨-, -, -, rfl⟩ | ⟨-, results, hreturned⟩)
    · exact ⟨[], .refl hs.buffered.roomy⟩
    · exact ⟨results, hreturned.took⟩
  · rintro _ t ⟨results, htook, -⟩
    exact ⟨results, htook⟩

theorem taken_during (hs : RoundInv size s) (hturn : s.InTurn a) :
    s.input.taken <+: (s.during size a).input.taken := by
  cases a with
  | beginRead countMin reads polls =>
    obtain ⟨results, htook⟩ := hs.during_took hturn
    rw [htook.taken]
    exact List.prefix_append _ _
  | endRead count => exact List.prefix_refl _

theorem during_unanswered (hs : RoundInv size s) (hturn : s.InTurn a) (hnone : a.Unanswered) :
    (s.during size a).input.taken = s.input.taken := by
  cases a with
  | beginRead countMin reads polls =>
    obtain ⟨rfl, -⟩ := hnone
    obtain ⟨results, htook⟩ := hs.during_took hturn
    obtain rfl := (List.append_eq_nil_iff.mp htook.reads.symm).1
    rw [htook.taken]
    exact List.append_nil _
  | endRead count => rfl

theorem held_eq_shown (hs : RoundInv size s) : s.held = s.shown size := by
  rw [InputRound.held, hs.gapless, List.drop_left]

/-- What has been taken and not released stands at the front of the buffer, also while a call is
under way. -/
theorem held_during (hs : RoundInv size s) (hturn : s.InTurn a) :
    (s.during size a).held <+: (s.during size a).input.queue.mBuff := by
  cases a with
  | beginRead countMin reads polls =>
    obtain ⟨results, htook⟩ := hs.during_took hturn
    have hheld : (s.during size (.beginRead countMin reads polls)).held =
        s.input.queue.mBuff.take (s.input.queue.mCarry * size) ++ readBytes results := by
      rw [InputRound.held, htook.taken]
      change (s.input.taken ++ _).drop s.released.length = _
      rw [hs.gapless, List.append_assoc, List.drop_left, hs.shown_idle hturn.1]
    rw [hheld]
    exact htook.buffer ▸ List.take_prefix _ _
  | endRead count =>
    change s.held <+: s.input.queue.mBuff
    rw [hs.held_eq_shown]
    exact List.take_prefix _ _

/-- A `begin_read` that throws without having read anything leaves everything as it was. -/
theorem thrown (hs : RoundInv size s) (hturn : s.InTurn a) (hnone : readBytes a.reads = [])
    (ht : s.thrown size a = some t) : RoundInv size t ∧ t.input.taken = s.input.taken := by
  cases a with
  | endRead count => cases ht
  | beginRead countMin reads polls =>
    have hspec := beginRead_spec
      (s := s.input.answered reads { s.input.poller with polls := polls }) hs.buffered.roomy hturn.2
    rw [InputRound.thrown] at ht
    dsimp only at ht
    cases hrun : FileInputQueue.beginRead size countMin
      (s.input.answered reads { s.input.poller with polls := polls }) with
    | ok r input => rw [hrun] at ht; cases ht
    | error stop input =>
      rw [hrun] at ht
      rw [wp_of_error hrun] at hspec
      obtain ⟨results, htook, hsize⟩ := hspec
      have hempty : readBytes results = [] := by
        have hall : readBytes (results ++ input.reads) = [] := htook.reads ▸ hnone
        rw [readBytes_append] at hall
        exact (List.append_eq_nil_iff.mp hall).1
      have htaken : input.taken = s.input.taken := by
        rw [htook.taken, hempty]
        exact List.append_nil _
      have hidle : input.queue.mSize = s.input.queue.mCarry := hsize.trans (hs.idle hturn.1)
      obtain rfl : { s with input := input } = t := by
        cases stop with
        | unanswered => cases ht
        | interrupted | runtimeError | endOfInput => exact Option.some.inj ht
      refine ⟨?_, htaken⟩
      exact {
        buffered := htook.buffered hs.buffered
        size_le := by
          change input.queue.mSize ≤ input.queue.mCapacity
          rw [htook.mCapacity, hsize]
          exact hs.size_le
        granted := fun hgranted => absurd hturn.1 hgranted
        idle := fun _ => hidle.trans htook.mCarry.symm
        released := hs.released
        gapless := by
          change input.taken = s.released ++ input.queue.mBuff.take (input.queue.mSize * size)
          rw [htaken, hs.gapless, hs.shown_idle hturn.1, hidle]
          exact congrArg (s.released ++ ·) (htook.carry_eq hs.buffered).symm }

end RoundInv

end Dyplo
