import Dyplo.FileIO.FileInputRounds

/-!
# What `FileInputQueue` can lose

`m_carry` is only brought up to date by a consuming `end_read`. What a call has read is lost when
the call is left by an exception, and also when it returns but its elements are not consumed.
-/

namespace Dyplo

open FileInputQueue

variable {size : Nat}

namespace FileInputQueue

variable {s : FileInput} {countMin : Nat}

theorem beginRead_carry (hcarry : s.queue.mCarry ≠ 0) (hle : countMin ≤ s.queue.mCarry) :
    beginRead size countMin s = .ok s.queue.mCarry s := by
  have hrun : wp (beginRead size countMin) (fun r t => r = s.queue.mCarry ∧ t = s)
      (fun _ _ => False) s := by
    rw [beginRead, wp_bind, wp_get, wp_ite, if_pos hcarry, wp_ite, if_pos hle, wp_pure]
    exact ⟨rfl, rfl⟩
  obtain ⟨r, t, heq, rfl, rfl⟩ := hrun.returns
  exact heq

theorem read_answered {position : Nat} {count : Int} {result : ReadResult}
    {reads : List ReadResult} (hreads : s.reads = result :: reads) (hfit : result.Answers count)
    {Q : ReadResult → FileInput → Prop} {E : FileStop → FileInput → Prop}
    (hQ : Q result { s with
      queue := { s.queue with mBuff := overlay s.queue.mBuff position result.bytes }
      reads := reads
      taken := s.taken ++ result.bytes
      requests := s.requests ++ [(position, count)] }) :
    wp (read position count) Q E s := by
  rw [read, wp_bind, wp_modify, wp_bind, wp_get]
  dsimp only
  rw [hreads]
  dsimp only
  rw [wp_ite, if_pos hfit, wp_bind, wp_set, wp_pure]
  exact hQ

theorem beginRead_poll (hcarry : s.queue.mCarry = 0) {reads : List ReadResult}
    (hreads : s.reads = .again :: reads) :
    ∃ t, beginRead size 0 s = .ok 0 t := by
  have hrun : wp (beginRead size 0) (fun r _ => r = 0) (fun _ _ => False) s := by
    rw [beginRead, wp_bind, wp_get, wp_ite, if_neg (not_not.mpr hcarry), readLoop, wp_bind, wp_get,
      wp_bind]
    apply read_answered hreads trivial
    rw [wp_ite, if_pos rfl, finish, wp_bind, wp_modify, wp_bind, wp_get, wp_pure]
    change s.queue.mCarry + 0 / size = 0
    rw [hcarry, Nat.zero_div]
  obtain ⟨r, t, heq, rfl⟩ := hrun.returns
  exact ⟨t, heq⟩

/-- One element arrives in an empty queue. -/
theorem beginRead_one (hs : Buffered size s.queue) (hcarry : s.queue.mCarry = 0)
    (hcap : 1 ≤ s.queue.mCapacity) {element : List UInt8} (hsize : 0 < size)
    (helement : element.length = size) (hreads : s.reads = [.data element]) :
    ∃ t, beginRead size 1 s = .ok 1 t ∧ t.reads = [] := by
  have hfits : 1 * size ≤ s.queue.mCapacity * size := Nat.mul_le_mul_right size hcap
  have hsmall := hs.small
  have hspace : toInt (s.queue.mCapacity * size - (0 : Nat)) = s.queue.mCapacity * size := by
    rw [toInt_of_lt] <;> push_cast <;> omega
  have hone : toInt ((1 : Nat) * size) = size := by
    rw [toInt_of_lt] <;> push_cast <;> omega
  have hanswers : (ReadResult.data element).Answers (s.queue.mCapacity * size) := by
    refine ⟨?_, ?_⟩
    · intro hnil
      rw [hnil, List.length_nil] at helement
      omega
    · rw [helement]
      push_cast at *
      omega
  have hrun : wp (beginRead size 1) (fun r t => r = 1 ∧ t.reads = []) (fun _ _ => False) s := by
    rw [beginRead, wp_bind, wp_get, wp_ite, if_neg (not_not.mpr hcarry), readLoop, wp_bind, wp_get,
      wp_bind, hspace, hone]
    apply read_answered hreads hanswers
    rw [wp_ite, if_neg (by rw [helement]; omega), finish, wp_bind, wp_modify, wp_bind, wp_get,
      wp_pure]
    refine ⟨?_, rfl⟩
    change s.queue.mCarry + (0 + element.length) / size = 1
    rw [hcarry, helement, Nat.zero_add, Nat.zero_add, Nat.div_self hsize]
  obtain ⟨r, t, heq, rfl, hdone⟩ := hrun.returns
  exact ⟨t, heq, hdone⟩

end FileInputQueue

/-- Between two rounds: some taken bytes are neither released nor shown any more. -/
structure Missing (size : Nat) (s : InputRound) (lost : List UInt8) : Prop where
  buffered : Buffered size s.input.queue
  granted : s.granted = 0
  idle : s.input.queue.mSize = s.input.queue.mCarry
  taken : s.input.taken = s.released ++ s.shown size ++ lost

namespace Missing

variable {s : InputRound} {lost : List UInt8} {init : InputRound → Prop}

/-- The carry can be shown and released, which leaves an empty queue with the same bytes
missing. -/
theorem release_carry (h : Missing size s lost)
    (hs : (inputRounds size init (ReadsAligned size)).Reachable s) :
    ∃ t, (inputRounds size init (ReadsAligned size)).Reachable t ∧ Missing size t lost ∧
      t.input.queue.mCarry = 0 ∧ t.input.queue.mCapacity = s.input.queue.mCapacity := by
  by_cases hcarry : s.input.queue.mCarry = 0
  · exact ⟨s, hs, h, hcarry, rfl⟩
  · have hread : beginRead size 0 (s.input.answered [] ⟨s.input.poller.scheduler, []⟩) =
        .ok s.input.queue.mCarry (s.input.answered [] ⟨s.input.poller.scheduler, []⟩) :=
      beginRead_carry hcarry (Nat.zero_le _)
    have hnext : s.next size (.beginRead 0 [] []) = some { s with
        input := s.input.answered [] ⟨s.input.poller.scheduler, []⟩
        granted := s.input.queue.mCarry } := by
      rw [InputRound.next]
      dsimp only
      rw [hread]
      rfl
    have hshown := hs.step (a := InputAction.beginRead 0 [] [])
      ⟨⟨⟨h.granted, Nat.zero_le _⟩, by intro r hr; cases hr⟩, hnext⟩
    have hcap : s.input.queue.mSize ≤ s.input.queue.mCapacity := h.idle ▸ h.buffered.carry_le
    have hpos : 1 ≤ s.input.queue.mCarry := Nat.one_le_iff_ne_zero.mpr hcarry
    obtain ⟨q, hq, hlength, hcapacity, hleft, hsize, hsplit⟩ :=
      endRead_spec h.buffered.length hcap hpos (Nat.le_of_eq h.idle.symm)
    have hnone : s.input.queue.mSize - s.input.queue.mCarry = 0 := by rw [h.idle, Nat.sub_self]
    rw [hnone] at hleft hsize hsplit
    refine ⟨_, hshown.step (a := InputAction.endRead s.input.queue.mCarry)
      ⟨⟨⟨hpos, Nat.le_refl _⟩, trivial⟩, congrArg (Option.map _) hq⟩, ?_, hleft, hcapacity⟩
    refine ⟨h.buffered.same_memory hlength hcapacity (by rw [hleft]; exact Nat.zero_le _), rfl,
      hsize.trans hleft.symm, ?_⟩
    change s.input.taken =
      (s.released ++ s.input.queue.mBuff.take (s.input.queue.mCarry * size)) ++
        q.mBuff.take (q.mSize * size) ++ lost
    rw [h.taken, InputRound.shown, h.idle, hsize]
    simp

/-- A later element whose first byte differs from the first missing one is delivered in its
place. -/
theorem exists_gap (h : Missing size s lost) (hsize : 0 < size)
    (hs : (inputRounds size init (ReadsAligned size)).Reachable s)
    (hcap : 1 ≤ s.input.queue.mCapacity) (hlost : lost ≠ []) :
    ∃ t, (inputRounds size init (ReadsAligned size)).Reachable t ∧
      ¬ t.released <+: t.input.taken := by
  obtain ⟨s, hs, h, hcarry, hcapacity⟩ := h.release_carry hs
  rw [← hcapacity] at hcap
  obtain ⟨x, rest, rfl⟩ := List.exists_cons_of_ne_nil hlost
  have hother : x + 1 ≠ x := by
    intro heq
    simp at heq
  have helement : ((x + 1) :: List.replicate (size - 1) 0).length = size := by
    rw [List.length_cons, List.length_replicate]
    omega
  obtain ⟨u, hread, hdone⟩ := beginRead_one
    (s := s.input.answered [.data ((x + 1) :: List.replicate (size - 1) 0)]
      ⟨s.input.poller.scheduler, []⟩) h.buffered hcarry hcap hsize helement rfl
  have hnext : s.next size (.beginRead 1 [.data ((x + 1) :: List.replicate (size - 1) 0)] []) =
      some { s with input := u, granted := 1 } := by
    rw [InputRound.next]
    dsimp only
    rw [hread]
    dsimp only
    rw [if_pos hdone]
  have hone := hs.step (a := InputAction.beginRead 1 _ [])
    ⟨⟨⟨h.granted, hcap⟩, by
      intro r hr
      obtain rfl := List.mem_singleton.mp hr
      change size ∣ (_ :: _).length
      rw [helement]⟩, hnext⟩
  have hout := InputRound.beginRead_outcome h.buffered h.idle hsize hcap hnext
  have hfront : u.queue.mBuff.take (1 * size) = (x + 1) :: List.replicate (size - 1) 0 := by
    have hbuffer := hout.buffer
    rw [hcarry, readBytes_singleton] at hbuffer
    simpa [ReadResult.bytes, helement, Nat.sub_add_cancel hsize] using hbuffer
  have hbuffered := hout.buffered h.buffered
  obtain ⟨q, hq, -⟩ := endRead_spec hbuffered.length
    (by rw [hout.mSize, hout.mCapacity]; exact hcap) (Nat.le_refl 1) (Nat.le_of_eq hout.mSize.symm)
  refine ⟨_, hone.step (a := InputAction.endRead 1)
    ⟨⟨⟨Nat.le_refl 1, Nat.le_refl 1⟩, trivial⟩, congrArg (Option.map _) hq⟩, ?_⟩
  change ¬ s.released ++ u.queue.mBuff.take (1 * size) <+: u.taken
  have htaken : u.taken =
      s.input.taken ++ readBytes [.data ((x + 1) :: List.replicate (size - 1) 0)] :=
    hout.taken
  have hempty : s.shown size = [] := by
    rw [InputRound.shown, h.idle, hcarry, Nat.zero_mul, List.take_zero]
  rw [hfront, htaken, h.taken, hempty, List.append_nil, List.append_assoc,
    List.prefix_append_right_inj, List.cons_append, List.cons_prefix_cons]
  rintro ⟨heq, -⟩
  exact hother heq

end Missing

/-- `FilePollScheduler::reset` -/
def FileInput.reset (s : FileInput) : FileInput :=
  { s with poller := { s.poller with scheduler := s.poller.scheduler.reset } }

/-- What a call that was left by an exception leaves to the next one: the carry is as it was, and
whatever the call has read is missing. -/
theorem RoundInv.missing {s : InputRound} (hs : RoundInv size s) (hidle : s.granted = 0)
    {countMin : Nat} (hcount : countMin ≤ s.input.queue.mCapacity) {reads : List ReadResult}
    {poller : Poller} {stop : FileStop} {u : FileInput}
    (hleft : FileInputQueue.beginRead size countMin (s.input.answered reads poller) =
      .error stop u)
    (hreads : u.reads = []) :
    Missing size { s with input := u.reset } (readBytes reads) ∧
      u.queue.mCapacity = s.input.queue.mCapacity ∧
      (readBytes reads ≠ [] → 1 ≤ s.input.queue.mCapacity) := by
  have hspec := beginRead_spec (s := s.input.answered reads poller) hs.buffered.roomy hcount
  rw [wp_of_error hleft] at hspec
  obtain ⟨results, htook, hmSize⟩ := hspec
  obtain rfl : reads = results := by
    have hall : reads = results ++ u.reads := htook.reads
    rwa [hreads, List.append_nil] at hall
  have hcarry : u.queue.mCarry = s.input.queue.mCarry := htook.mCarry
  have hsize : u.queue.mSize = s.input.queue.mSize := hmSize
  have hcapacity : u.queue.mCapacity = s.input.queue.mCapacity := htook.mCapacity
  have hfits : s.input.queue.mCarry * size + (readBytes reads).length ≤
      s.input.queue.mCapacity * size := htook.fits
  have hfront : u.queue.mBuff.take (s.input.queue.mCarry * size) =
      s.input.queue.mBuff.take (s.input.queue.mCarry * size) := htook.carry_eq hs.buffered
  refine ⟨⟨htook.buffered hs.buffered, hidle, ?_, ?_⟩, hcapacity, ?_⟩
  · exact hsize.trans ((hs.idle hidle).trans hcarry.symm)
  · change u.taken = s.released ++ u.queue.mBuff.take (u.queue.mSize * size) ++ readBytes reads
    have htaken : u.taken = s.input.taken ++ readBytes reads := htook.taken
    rw [htaken, hs.gapless, hs.shown_idle hidle, hsize, hs.idle hidle, hfront]
  · intro hnonempty
    by_contra hzero
    have hcap : s.input.queue.mCapacity = 0 := by omega
    rw [hcap, Nat.zero_mul] at hfits
    exact hnonempty (List.eq_nil_of_length_eq_zero (by omega))

private theorem Missing.roundInv {s : InputRound} (h : Missing size s [])
    (hcap : s.input.queue.mCarry ≤ s.input.queue.mCapacity) (hreleased : size ∣ s.released.length) :
    RoundInv size s where
  buffered := h.buffered
  size_le := h.idle ▸ hcap
  granted hgranted := absurd h.granted hgranted
  idle _ := h.idle
  released := hreleased
  gapless := by rw [h.taken, List.append_nil]

/-- `t` comes after `s` in some sequence of rounds with reads of whole elements. -/
def InputRound.Follows (size : Nat) (s t : InputRound) : Prop :=
  (inputRounds size (fun x => x = s) (ReadsAligned size)).Reachable t

/-- After an interrupted `begin_read` and `reset`, the following rounds deliver the stream without
a gap exactly when the interrupted call had read nothing. -/
theorem interrupted_read_keeps_stream (size : Nat) (hsize : 1 ≤ size) (s : InputRound)
    (hs : RoundInv size s) (hidle : s.granted = 0) (countMin : Nat)
    (hcount : countMin ≤ s.input.queue.mCapacity) (reads : List ReadResult)
    (poller : Poller) (u : FileInput)
    (hleft : beginRead size countMin (s.input.answered reads poller) = .error .interrupted u)
    (hreads : u.reads = []) :
    ((∀ t, InputRound.Follows size { s with input := u.reset } t → t.released <+: t.input.taken) ↔
      readBytes reads = []) ∧
    ((∀ t, InputRound.Follows size { s with input := u.reset } t →
        t.input.taken = t.released ++ t.shown size) ↔ readBytes reads = []) := by
  obtain ⟨hmissing, hcapacity, hroom⟩ := hs.missing hidle hcount hleft hreads
  have hkeeps : readBytes reads = [] → ∀ t,
      InputRound.Follows size { s with input := u.reset } t → RoundInv size t := by
    intro hnone t ht
    rw [hnone] at hmissing
    have hinit : ∀ x, x = { s with input := u.reset } →
        RoundInv size x ∧ x.input.queue.mCapacity = u.queue.mCapacity := by
      rintro _ rfl
      exact ⟨hmissing.roundInv hmissing.buffered.carry_le hs.released, rfl⟩
    exact (inputRounds_invariant hsize hinit (fun _ => ReadsAligned.callsAligned) ht).1
  have hloses : readBytes reads ≠ [] → ∃ t,
      InputRound.Follows size { s with input := u.reset } t ∧ ¬ t.released <+: t.input.taken := by
    intro hnonempty
    exact hmissing.exists_gap hsize (.init rfl) (hcapacity ▸ hroom hnonempty) hnonempty
  constructor
  · constructor
    · intro hall
      by_contra hnonempty
      obtain ⟨t, ht, hgap⟩ := hloses hnonempty
      exact hgap (hall t ht)
    · intro hnone t ht
      exact (hkeeps hnone t ht).released_le_taken
  · constructor
    · intro hall
      by_contra hnonempty
      obtain ⟨t, ht, hgap⟩ := hloses hnonempty
      exact hgap ⟨_, (hall t ht).symm⟩
    · intro hnone t ht
      exact (hkeeps hnone t ht).gapless

/-- A queue for two elements of two bytes. -/
def pairStart : InputRound := .start [0, 0, 0, 0] 2

private theorem pairStart_roundInv : RoundInv 2 pairStart := .start rfl (by decide)

/-- A call that is interrupted before it has read anything. -/
def pairInterrupted : FileInput :=
  { pairStart.input with
    poller := ⟨⟨true, 1⟩, []⟩
    requests := [(0, 4)]
    waits := 1 }

theorem interrupted_read_keeps_stream_pair :
    ((∀ t, InputRound.Follows 2 { pairStart with input := pairInterrupted.reset } t →
      t.released <+: t.input.taken) ↔ readBytes [.again] = []) ∧
    ((∀ t, InputRound.Follows 2 { pairStart with input := pairInterrupted.reset } t →
        t.input.taken = t.released ++ t.shown 2) ↔ readBytes [.again] = []) :=
  interrupted_read_keeps_stream 2 (by decide) pairStart pairStart_roundInv rfl 2 (by decide)
    [.again] ⟨.new, [.interrupt]⟩ pairInterrupted (by decide +kernel) rfl

/-- A call that is interrupted when it has read one of two elements. -/
def pairLost : FileInput :=
  { queue := { pairStart.input.queue with mBuff := [1, 2, 0, 0] }
    poller := ⟨⟨true, 1⟩, []⟩
    reads := []
    taken := [1, 2]
    requests := [(0, 4), (2, 2)]
    waits := 1 }

/-- After `reset` the next element is delivered in the place of the one that was read before the
interrupt. -/
theorem interrupted_read_loses_element :
    beginRead 2 2 (pairStart.input.answered [.data [1, 2], .again] ⟨.new, [.interrupt]⟩) =
        .error .interrupted pairLost ∧
      ∃ t, InputRound.Follows 2 { pairStart with input := pairLost.reset } t ∧
        t.input.taken = [1, 2, 3, 4] ∧ t.released = [3, 4] := by
  have hreset : pairLost.reset = { pairLost with poller := ⟨.new, []⟩ } := by
    rw [FileInput.reset, FilePollScheduler.reset_eq_new]
    rfl
  rw [hreset]
  have hrun : TransitionSystem.exec (fun s a => s.InTurn a ∧ ReadsAligned 2 a) (InputRound.next 2)
      { pairStart with input := { pairLost with poller := ⟨.new, []⟩ } }
      [.beginRead 1 [.data [3, 4]] [], .endRead 1] = some _ := rfl
  exact ⟨by decide +kernel, _, .run (.init rfl) (TransitionSystem.run_of_exec hrun), rfl, rfl⟩

end Dyplo
