import Dyplo.FileIO.FileInputLoss

/-!
# Looking at input without consuming it

The in-memory queues show what was not consumed again. `FileInputQueue` does so only for a call
that was answered from the carry: anything it has read since is behind the carry, where the next
`begin_read` reads.
-/

namespace Dyplo

open FileInputQueue

variable {size : Nat}

/-- The calls on a queue, with what other threads do to its scheduler. -/
inductive InputCall
  | beginRead (countMin : Nat) (reads : List ReadResult) (polls : List PollEvent)
  | endRead (count : Nat)
  | interrupt
  | reset

namespace InputRound

/-- `begin_read`, whether it returns or not. -/
def called (size : Nat) (s : InputRound) (countMin : Nat) (reads : List ReadResult)
    (polls : List PollEvent) : InputRound :=
  match FileInputQueue.beginRead size countMin
      (s.input.answered reads ⟨s.input.poller.scheduler, polls⟩) with
  | .ok r input => { s with input := input, granted := r }
  | .error _ input => { s with input := input, granted := 0 }

/-- The caller releases as much as it likes of what it was shown, in as many parts as it likes. -/
def afterCall (size capacity : Nat) (s : InputRound) : InputCall → InputRound → Prop
  | .beginRead countMin reads polls, t =>
      countMin ≤ capacity ∧ (∀ r ∈ reads, size ∣ r.bytes.length) ∧
        t = s.called size countMin reads polls
  | .endRead count, t =>
      count ≤ s.granted ∧ ∃ q, FileInputQueue.endRead size s.input.queue count = some q ∧
        t = { input := { s.input with queue := q }
              released := s.released ++ s.input.queue.mBuff.take (count * size)
              granted := s.granted - count }
  | .interrupt, t => t = { s with input := { s.input with
      poller := { s.input.poller with scheduler := s.input.poller.scheduler.interrupt } } }
  | .reset, t => t = { s with input := s.input.reset }

end InputRound

/-- All sequences of calls, with reads of whole elements. -/
def inputCalls (size capacity : Nat) : TransitionSystem InputRound InputCall where
  init := FreshInput size capacity
  step s a t := s.afterCall size capacity a t

structure CallInv (size capacity : Nat) (s : InputRound) : Prop where
  buffered : Buffered size s.input.queue
  mCapacity : s.input.queue.mCapacity = capacity
  carry_le : s.input.queue.mCarry ≤ s.input.queue.mSize
  size_le : s.input.queue.mSize ≤ s.input.queue.mCapacity
  granted_le : s.granted ≤ s.input.queue.mSize

namespace FileInputQueue

variable {s t : FileInput} {results : List ReadResult}

private theorem Returned.le_capacity {countMin r : Nat} (hsize : 0 < size)
    (h : Returned size countMin s t results r) : r ≤ s.queue.mCapacity := by
  rw [h.result]
  exact elements_fit hsize h.took.fits

end FileInputQueue

namespace CallInv

variable {capacity : Nat} {s t : InputRound}

private theorem called (hs : CallInv size capacity s) (hsize : 0 < size) {countMin : Nat}
    (hcount : countMin ≤ capacity) (reads : List ReadResult) (polls : List PollEvent) :
    CallInv size capacity (s.called size countMin reads polls) := by
  rw [← hs.mCapacity] at hcount
  have hspec := beginRead_spec (s := s.input.answered reads ⟨s.input.poller.scheduler, polls⟩)
    hs.buffered.roomy hcount
  rw [InputRound.called]
  cases hrun : beginRead size countMin
    (s.input.answered reads ⟨s.input.poller.scheduler, polls⟩) with
  | ok r u =>
    rw [wp_of_ok hrun] at hspec
    rcases hspec with ⟨-, -, rfl, rfl⟩ | ⟨-, results, hreturned⟩
    · exact ⟨hs.buffered, hs.mCapacity, hs.carry_le, hs.size_le, hs.carry_le⟩
    · have hle := hreturned.le_capacity hsize
      have htook := hreturned.took
      refine ⟨htook.buffered hs.buffered, htook.mCapacity.trans hs.mCapacity, ?_, ?_, ?_⟩
      · change u.queue.mCarry ≤ u.queue.mSize
        rw [hreturned.mSize, htook.mCarry, hreturned.result]
        exact Nat.le_add_right _ _
      · change u.queue.mSize ≤ u.queue.mCapacity
        rw [hreturned.mSize, htook.mCapacity]
        exact hle
      · exact Nat.le_of_eq hreturned.mSize.symm
  | error stop u =>
    rw [wp_of_error hrun] at hspec
    obtain ⟨results, htook, hmSize⟩ := hspec
    have hcarry : u.queue.mCarry = s.input.queue.mCarry := htook.mCarry
    have hsame : u.queue.mSize = s.input.queue.mSize := hmSize
    have hcap : u.queue.mCapacity = s.input.queue.mCapacity := htook.mCapacity
    refine ⟨htook.buffered hs.buffered, hcap.trans hs.mCapacity, ?_, ?_, Nat.zero_le _⟩
    · change u.queue.mCarry ≤ u.queue.mSize
      rw [hcarry, hsame]
      exact hs.carry_le
    · change u.queue.mSize ≤ u.queue.mCapacity
      rw [hsame, hcap]
      exact hs.size_le

private theorem endRead (hs : CallInv size capacity s) {count : Nat} (hcount : count ≤ s.granted)
    {q : FileInputQueue} (hq : FileInputQueue.endRead size s.input.queue count = some q)
    (released : List UInt8) :
    CallInv size capacity
      { input := { s.input with queue := q }, released := released,
        granted := s.granted - count } := by
  have hgranted := hs.granted_le
  rcases Nat.eq_zero_or_pos count with rfl | hpos
  · obtain rfl : s.input.queue = q := by simpa [FileInputQueue.endRead] using hq
    exact ⟨hs.buffered, hs.mCapacity, hs.carry_le, hs.size_le, hgranted⟩
  · obtain ⟨q', hq', hlength, hcapacity, hcarry, hleft, -⟩ :=
      endRead_spec hs.buffered.length hs.size_le hpos (Nat.le_trans hcount hgranted)
    obtain rfl : q' = q := Option.some.inj (hq'.symm.trans hq)
    have hsize := hs.size_le
    have hfits : q'.mCarry ≤ s.input.queue.mCapacity := by omega
    refine ⟨hs.buffered.same_memory hlength hcapacity hfits, hcapacity.trans hs.mCapacity,
      ?_, ?_, ?_⟩
    · change q'.mCarry ≤ q'.mSize
      omega
    · change q'.mSize ≤ q'.mCapacity
      omega
    · change s.granted - count ≤ q'.mSize
      omega

private theorem step (hs : CallInv size capacity s) (hsize : 0 < size) {a : InputCall}
    (h : s.afterCall size capacity a t) : CallInv size capacity t := by
  cases a with
  | beginRead countMin reads polls =>
    obtain ⟨hcount, -, rfl⟩ := h
    exact hs.called hsize hcount reads polls
  | endRead count =>
    obtain ⟨hcount, q, hq, rfl⟩ := h
    exact hs.endRead hcount hq _
  | interrupt =>
    obtain rfl := h
    exact ⟨hs.buffered, hs.mCapacity, hs.carry_le, hs.size_le, hs.granted_le⟩
  | reset =>
    obtain rfl := h
    exact ⟨hs.buffered, hs.mCapacity, hs.carry_le, hs.size_le, hs.granted_le⟩

end CallInv

private theorem inputCalls_invariant {capacity : Nat} (hsize : 0 < size)
    (hsmall : capacity * size < 2 ^ 31) {s : InputRound}
    (h : (inputCalls size capacity).Reachable s) : CallInv size capacity s := by
  apply h.invariant (I := CallInv size capacity)
  · rintro s ⟨memory, hmemory, rfl⟩
    exact ⟨⟨hmemory, Nat.zero_le _, hsmall⟩, rfl, Nat.le_refl _, Nat.zero_le _, Nat.le_refl _⟩
  · intro s a t hs hstep
    exact hs.step hsize hstep

/-- The elements that a call shows. -/
def FileInput.elements (size : Nat) (s : FileInput) (r : Nat) : List UInt8 :=
  s.queue.mBuff.take (r * size)

/-- However the next call goes, it shows the elements `u` has shown again, and first. Between the
two calls there may be an `end_read(0)`. -/
def ShownAgain (size capacity : Nat) (u : FileInput) (r : Nat) : Prop :=
  ∀ q, (q = u.queue ∨ endRead size u.queue 0 = some q) →
    ∀ countMin reads poller r' v, countMin ≤ capacity → (∀ x ∈ reads, size ∣ x.bytes.length) →
      beginRead size countMin ({ u with queue := q }.answered reads poller) = .ok r' v →
      u.elements size r <+: v.elements size r'

private theorem elements_length {s : FileInput} (hs : Buffered size s.queue) {r : Nat}
    (hr : r ≤ s.queue.mCapacity) : (s.elements size r).length = r * size := by
  rw [FileInput.elements, List.length_take, hs.length]
  exact Nat.min_eq_left (Nat.mul_le_mul_right size hr)

/-- A call that had to read shows elements which the next poll does not. -/
theorem FileInputQueue.Returned.not_shownAgain {s u : FileInput} (hs : Buffered size s.queue)
    (hsize : 0 < size)
    {countMin r : Nat} {results : List ReadResult} (hr : 0 < r)
    (hread : ¬ (s.queue.mCarry ≠ 0 ∧ countMin ≤ s.queue.mCarry))
    (h : Returned size (countMin - s.queue.mCarry) s u results r) :
    ¬ ShownAgain size s.queue.mCapacity u r := by
  intro hagain
  have hlen := elements_length (h.took.buffered hs) (r := r)
    (h.took.mCapacity ▸ h.le_capacity hsize)
  have henough := h.enough_granted hsize
  have hcarry := h.took.mCarry
  by_cases hzero : s.queue.mCarry = 0
  · obtain ⟨v, hpoll⟩ : ∃ v, beginRead size 0 (u.answered [.again] u.poller) = .ok 0 v :=
      beginRead_poll (hcarry.trans hzero) rfl
    have hprefix := hagain _ (.inl rfl) 0 [.again] u.poller 0 v (Nat.zero_le _)
      (by intro x hx; obtain rfl := List.mem_singleton.mp hx; exact Nat.dvd_zero size) hpoll
    have hle := hprefix.length_le
    rw [hlen, FileInput.elements, Nat.zero_mul, List.take_zero, List.length_nil] at hle
    have hmul : 0 < r * size := Nat.mul_pos hr hsize
    omega
  · have hcall : beginRead size 0 (u.answered [] u.poller) =
        .ok u.queue.mCarry (u.answered [] u.poller) :=
      beginRead_carry (by rw [← hcarry] at hzero; exact hzero) (Nat.zero_le _)
    have hprefix := hagain _ (.inl rfl) 0 [] u.poller _ _ (Nat.zero_le _)
      (by intro x hx; cases hx) hcall
    have hle := hprefix.length_le
    have hcarry_le : u.queue.mCarry ≤ u.queue.mCapacity := by
      rw [hcarry, h.took.mCapacity]
      exact hs.carry_le
    have hlen' : ((u.answered [] u.poller).elements size u.queue.mCarry).length =
        u.queue.mCarry * size := elements_length (h.took.buffered hs) hcarry_le
    rw [hlen, hlen', hcarry] at hle
    have hle' : r ≤ s.queue.mCarry := Nat.le_of_mul_le_mul_right hle hsize
    exact hread ⟨hzero, Nat.le_trans henough hle'⟩

private theorem carry_shownAgain {u : FileInput} (hu : Buffered size u.queue) :
    ShownAgain size u.queue.mCapacity u u.queue.mCarry := by
  intro q hq countMin reads poller r' v hcount haligned hcall
  obtain rfl : q = u.queue := by
    rcases hq with hq | hq
    · exact hq
    · simpa [endRead, eq_comm] using hq
  have hspec := beginRead_spec (s := u.answered reads poller) hu.roomy hcount
  have hcall' : beginRead size countMin (u.answered reads poller) = .ok r' v := hcall
  rw [wp_of_ok hcall'] at hspec
  rcases hspec with ⟨-, -, rfl, rfl⟩ | ⟨-, results, hreturned⟩
  · exact List.prefix_refl _
  · have htook := hreturned.took
    have hwhole : size ∣ (readBytes results).length := by
      apply readBytes_aligned
      intro x hx
      have hall : reads = results ++ v.reads := htook.reads
      exact haligned x (hall ▸ List.mem_append_left _ hx)
    have hbuffer : v.queue.mBuff.take (u.queue.mCarry * size + (readBytes results).length) =
        u.queue.mBuff.take (u.queue.mCarry * size) ++ readBytes results := htook.buffer
    have hr' : r' = u.queue.mCarry + (readBytes results).length / size := hreturned.result
    rw [FileInput.elements, FileInput.elements, hr', Nat.add_mul, Nat.div_mul_cancel hwhole,
      hbuffer]
    exact List.prefix_append _ _

/-- In every state that calls can reach: the elements that a `begin_read` shows are shown again if
they are not consumed, exactly when the call was answered from the carry. -/
theorem look_is_harmless_iff (size capacity : Nat) (hsize : 1 ≤ size)
    (hsmall : capacity * size < 2 ^ 31) (s : InputRound)
    (h : (inputCalls size capacity).Reachable s) (countMin : Nat) (hcount : countMin ≤ capacity)
    (reads : List ReadResult) (poller : Poller) (r : Nat) (u : FileInput)
    (hcall : beginRead size countMin (s.input.answered reads poller) = .ok r u) (hr : 0 < r) :
    ShownAgain size capacity u r ↔
      s.input.queue.mCarry ≠ 0 ∧ countMin ≤ s.input.queue.mCarry := by
  have hinv := inputCalls_invariant hsize hsmall h
  have hspec := beginRead_spec (s := s.input.answered reads poller) hinv.buffered.roomy
    (hinv.mCapacity ▸ hcount)
  rw [wp_of_ok hcall] at hspec
  rcases hspec with ⟨hcarry, hle, rfl, rfl⟩ | ⟨hread, results, hreturned⟩
  · refine ⟨fun _ => ⟨hcarry, hle⟩, fun _ => ?_⟩
    have hagain := carry_shownAgain (u := s.input.answered reads poller) hinv.buffered
    rwa [hinv.mCapacity.symm]
  · refine ⟨fun hagain => ?_, fun hanswered => absurd hanswered hread⟩
    rw [← hinv.mCapacity] at hagain
    have hnot : ¬ ShownAgain size s.input.queue.mCapacity u r :=
      Returned.not_shownAgain (s := s.input.answered reads poller) hinv.buffered hsize hr hread
        hreturned
    exact absurd hagain hnot

/-- Two elements have been read and one of them consumed. -/
def pairLeft : InputRound :=
  { input := { pairStart.input with
      queue := { mBuff := [3, 4, 3, 4], mCapacity := 2, mCarry := 1, mSize := 1 }
      taken := [1, 2, 3, 4]
      requests := [(0, 4)] }
    released := [1, 2]
    granted := 1 }

theorem look_is_harmless_iff_carry :
    ShownAgain 2 2 (pairLeft.input.answered [] ⟨.new, []⟩) 1 ↔
      pairLeft.input.queue.mCarry ≠ 0 ∧ 1 ≤ pairLeft.input.queue.mCarry := by
  have hstart : (inputCalls 2 2).Reachable pairStart := .init ⟨_, rfl, rfl⟩
  have hread := hstart.step (a := InputCall.beginRead 1 [.data [1, 2, 3, 4]] [])
    ⟨by decide, by decide, rfl⟩
  have hleft := hread.step (t := pairLeft) (a := InputCall.endRead 1)
    ⟨by decide +kernel, pairLeft.input.queue, by decide +kernel, by decide +kernel⟩
  exact look_is_harmless_iff 2 2 (by decide) (by decide) pairLeft hleft 1 (by decide) []
    ⟨.new, []⟩ 1 _ rfl (by decide)

/-- The element of the first call is not consumed, and the second call overwrites it. -/
theorem look_loses_element :
    ∃ u v, beginRead 2 1 (pairStart.input.answered [.data [1, 2]] ⟨.new, []⟩) = .ok 1 u ∧
      endRead 2 u.queue 0 = some u.queue ∧
      beginRead 2 1 (u.answered [.data [3, 4]] ⟨.new, []⟩) = .ok 1 v ∧
      u.elements 2 1 = [1, 2] ∧ v.elements 2 1 = [3, 4] ∧ ¬ ShownAgain 2 2 u 1 := by
  let u : FileInput := { pairStart.input with
    queue := { mBuff := [1, 2, 0, 0], mCapacity := 2, mCarry := 0, mSize := 1 }
    taken := [1, 2]
    requests := [(0, 4)] }
  let v : FileInput := { pairStart.input with
    queue := { mBuff := [3, 4, 0, 0], mCapacity := 2, mCarry := 0, mSize := 1 }
    taken := [1, 2, 3, 4]
    requests := [(0, 4)] }
  have hsecond : beginRead 2 1 (u.answered [.data [3, 4]] ⟨.new, []⟩) = .ok 1 v := by
    decide +kernel
  refine ⟨u, v, by decide +kernel, rfl, hsecond, rfl, rfl, ?_⟩
  intro hagain
  have hprefix := hagain u.queue (.inl rfl) 1 [.data [3, 4]] ⟨.new, []⟩ 1 v (by decide)
    (by decide) hsecond
  exact absurd hprefix (by decide)

end Dyplo
