import Dyplo.FileIO.FileInputQueue
import Dyplo.Library.TransitionSystem

/-!
# Rounds of `begin_read` and `end_read`

A round asks for elements and releases some of those it was shown. As long as every call reads
whole elements, the released stream and the shown elements together are everything that has been
taken from the descriptor.
-/

namespace Dyplo

open FileInputQueue

/-- A queue in use: what has been released so far, and how many elements the last `begin_read`
shows that have not been released. -/
structure InputRound where
  input : FileInput
  released : List UInt8
  granted : Nat
  deriving DecidableEq

/-- The calls of the owner, with the kernel's answers to each. -/
inductive InputAction
  | beginRead (countMin : Nat) (reads : List ReadResult) (polls : List PollEvent)
  | endRead (count : Nat)

/-- A call starts with the answers it is going to get. -/
def FileInput.answered (s : FileInput) (reads : List ReadResult) (poller : Poller) : FileInput :=
  { s with poller := poller, reads := reads, requests := [] }

namespace InputRound

variable {size : Nat} {s t : InputRound}

/-- The queue after its constructor. -/
def start (memory : List UInt8) (capacity : Nat) : InputRound :=
  { input :=
      { queue := { mBuff := memory, mCapacity := capacity, mCarry := 0, mSize := 0 }
        poller := ⟨.new, []⟩
        reads := []
        taken := []
        requests := []
        waits := 0 }
    released := []
    granted := 0 }

/-- The elements at `m_buff` that have not been released. -/
def shown (size : Nat) (s : InputRound) : List UInt8 :=
  s.input.queue.mBuff.take (s.input.queue.mSize * size)

/-- A call that returns has consumed all of its answers. -/
def next (size : Nat) (s : InputRound) : InputAction → Option InputRound
  | .beginRead countMin reads polls =>
      let poller := { s.input.poller with polls := polls }
      match FileInputQueue.beginRead size countMin (s.input.answered reads poller) with
      | .ok r input =>
          if input.reads = [] then some { s with input := input, granted := r } else none
      | .error _ _ => none
  | .endRead count =>
      (FileInputQueue.endRead size s.input.queue count).map fun q =>
        { input := { s.input with queue := q }
          released := s.released ++ s.input.queue.mBuff.take (count * size)
          granted := 0 }

/-- A round begins when the one before it is over, and releases at least one of the elements it
was shown, if there are any. -/
def InTurn (s : InputRound) : InputAction → Prop
  | .beginRead countMin _ _ => s.granted = 0 ∧ countMin ≤ s.input.queue.mCapacity
  | .endRead count => 1 ≤ count ∧ count ≤ s.granted

instance (s : InputRound) (a : InputAction) : Decidable (s.InTurn a) := by
  cases a <;> unfold InTurn <;> infer_instance

end InputRound

/-- Every `read` returns whole elements. -/
def ReadsAligned (size : Nat) : InputAction → Prop
  | .beginRead _ reads _ => ∀ r ∈ reads, size ∣ r.bytes.length
  | .endRead _ => True

/-- The reads of a call add up to whole elements. -/
def CallsAligned (size : Nat) : InputAction → Prop
  | .beginRead _ reads _ => size ∣ (readBytes reads).length
  | .endRead _ => True

instance (size : Nat) (a : InputAction) : Decidable (ReadsAligned size a) := by
  cases a <;> unfold ReadsAligned <;> infer_instance

instance (size : Nat) (a : InputAction) : Decidable (CallsAligned size a) := by
  cases a <;> unfold CallsAligned <;> infer_instance

/-- All sequences of rounds from the given states whose calls meet a condition on the kernel's
answers. -/
def inputRounds (size : Nat) (init : InputRound → Prop) (ok : InputAction → Prop) :
    TransitionSystem InputRound InputAction :=
  .ofNext init (fun s a => s.InTurn a ∧ ok a) (InputRound.next size)

/-- A queue that has just been constructed. -/
def FreshInput (size capacity : Nat) (s : InputRound) : Prop :=
  ∃ memory : List UInt8, memory.length = capacity * size ∧ s = .start memory capacity

theorem readBytes_aligned {size : Nat} {reads : List ReadResult}
    (h : ∀ r ∈ reads, size ∣ r.bytes.length) : size ∣ (readBytes reads).length := by
  induction reads with
  | nil => exact Nat.dvd_zero size
  | cons r reads ih =>
    change size ∣ (r.bytes ++ readBytes reads).length
    rw [List.length_append]
    exact Nat.dvd_add (h r List.mem_cons_self) (ih fun x hx => h x (List.mem_cons_of_mem r hx))

theorem ReadsAligned.callsAligned {size : Nat} {a : InputAction} (h : ReadsAligned size a) :
    CallsAligned size a := by
  cases a with
  | beginRead countMin reads polls => exact readBytes_aligned h
  | endRead count => trivial

/-- Between two calls nothing has been lost: what was taken is what was released and what is
shown next. -/
structure RoundInv (size : Nat) (s : InputRound) : Prop where
  buffered : Buffered size s.input.queue
  size_le : s.input.queue.mSize ≤ s.input.queue.mCapacity
  granted : s.granted ≠ 0 → s.input.queue.mSize = s.granted
  idle : s.granted = 0 → s.input.queue.mSize = s.input.queue.mCarry
  released : size ∣ s.released.length
  gapless : s.input.taken = s.released ++ s.shown size

namespace RoundInv

variable {size : Nat} {s t : InputRound}

theorem start {capacity : Nat} {memory : List UInt8} (hmemory : memory.length = capacity * size)
    (hsmall : capacity * size < 2 ^ 31) : RoundInv size (.start memory capacity) where
  buffered := ⟨hmemory, Nat.zero_le _, hsmall⟩
  size_le := Nat.zero_le _
  granted h := absurd rfl h
  idle _ := rfl
  released := Nat.dvd_zero size
  gapless := by simp [InputRound.shown, InputRound.start]

end RoundInv

/-- What a `begin_read` that returns has done, whatever the kernel answered. -/
structure ReadOutcome (size countMin : Nat) (s t : InputRound) (reads : List ReadResult) :
    Prop where
  released : t.released = s.released
  mCapacity : t.input.queue.mCapacity = s.input.queue.mCapacity
  mCarry : t.input.queue.mCarry = s.input.queue.mCarry
  length : t.input.queue.mBuff.length = s.input.queue.mBuff.length
  taken : t.input.taken = s.input.taken ++ readBytes reads
  buffer : t.input.queue.mBuff.take (s.input.queue.mCarry * size + (readBytes reads).length) =
    s.input.queue.mBuff.take (s.input.queue.mCarry * size) ++ readBytes reads
  fits : s.input.queue.mCarry * size + (readBytes reads).length ≤
    s.input.queue.mCapacity * size
  granted : t.granted = s.input.queue.mCarry + (readBytes reads).length / size
  mSize : t.input.queue.mSize = t.granted
  enough : countMin ≤ t.granted
  requests : ∀ r ∈ t.input.requests, ∃ earlier, earlier <+: reads ∧
    r.1 = s.input.queue.mCarry * size + (readBytes earlier).length ∧
    r.1 + r.2 = s.input.queue.mCapacity * size
  waits : countMin = 0 → t.input.waits = s.input.waits

theorem FileInputQueue.Returned.enough_granted {size countMin : Nat} {s t : FileInput}
    {results : List ReadResult} {r : Nat} (hsize : 0 < size)
    (h : Returned size (countMin - s.queue.mCarry) s t results r) : countMin ≤ r := by
  have hdiv : countMin - s.queue.mCarry ≤ (readBytes results).length / size :=
    (Nat.le_div_iff_mul_le hsize).mpr h.enough
  have := h.result
  omega

namespace InputRound

variable {size countMin : Nat} {s t : InputRound} {reads : List ReadResult}
  {polls : List PollEvent}

theorem next_beginRead (hnext : s.next size (.beginRead countMin reads polls) = some t) :
    ∃ r input, FileInputQueue.beginRead size countMin
        (s.input.answered reads { s.input.poller with polls := polls }) = .ok r input ∧
      input.reads = [] ∧ t = { s with input := input, granted := r } := by
  rw [next] at hnext
  dsimp only at hnext
  cases hrun : FileInputQueue.beginRead size countMin
    (s.input.answered reads { s.input.poller with polls := polls }) with
  | error e input => rw [hrun] at hnext; cases hnext
  | ok r input =>
    rw [hrun] at hnext
    simp only [Option.ite_none_right_eq_some, Option.some.injEq] at hnext
    exact ⟨r, input, rfl, hnext.1, hnext.2.symm⟩

theorem beginRead_outcome (hs : Buffered size s.input.queue)
    (hidle : s.input.queue.mSize = s.input.queue.mCarry) (hsize : 0 < size)
    (hcount : countMin ≤ s.input.queue.mCapacity)
    (hnext : s.next size (.beginRead countMin reads polls) = some t) :
    ReadOutcome size countMin s t reads := by
  have hspec := beginRead_spec (s := s.input.answered reads ⟨s.input.poller.scheduler, polls⟩)
    hs.roomy hcount
  obtain ⟨r, u, hrun, hreads, rfl⟩ := next_beginRead hnext
  rw [wp_of_ok hrun] at hspec
  rcases hspec with ⟨hcarry, hle, rfl, rfl⟩ | ⟨-, results, hreturned⟩
  · obtain rfl : reads = [] := hreads
    exact {
      released := rfl
      mCapacity := rfl
      mCarry := rfl
      length := rfl
      taken := (List.append_nil _).symm
      buffer := (List.append_nil _).symm
      fits := Nat.mul_le_mul_right size hs.carry_le
      granted := by simp [readBytes, FileInput.answered]
      mSize := hidle
      enough := hle
      requests := nofun
      waits := fun _ => rfl }
  · have htook := hreturned.took
    obtain rfl : reads = results := by
      have hall : reads = results ++ u.reads := htook.reads
      rwa [hreads, List.append_nil] at hall
    exact {
      released := rfl
      mCapacity := htook.mCapacity
      mCarry := htook.mCarry
      length := htook.length
      taken := htook.taken
      buffer := htook.buffer
      fits := htook.fits
      granted := hreturned.result
      mSize := hreturned.mSize
      enough := hreturned.enough_granted hsize
      requests := fun r hr => (htook.requests r hr).resolve_left (List.not_mem_nil)
      waits := fun hzero => hreturned.waits (by omega) }

end InputRound

namespace ReadOutcome

variable {size countMin : Nat} {s t : InputRound} {reads : List ReadResult}

private theorem granted_le (h : ReadOutcome size countMin s t reads) (hsize : 0 < size) :
    t.granted ≤ s.input.queue.mCapacity := by
  rw [h.granted]
  exact elements_fit hsize h.fits

theorem buffered (h : ReadOutcome size countMin s t reads)
    (hs : Buffered size s.input.queue) : Buffered size t.input.queue :=
  hs.same_memory h.length h.mCapacity (h.mCarry ▸ hs.carry_le)

private theorem shown_length (h : ReadOutcome size countMin s t reads) (hsize : 0 < size)
    (hs : Buffered size s.input.queue) : (t.shown size).length = t.granted * size := by
  have hle : t.granted * size ≤ s.input.queue.mCapacity * size :=
    Nat.mul_le_mul_right size (h.granted_le hsize)
  rw [InputRound.shown, h.mSize, List.length_take, h.length, hs.length, Nat.min_eq_left hle]

private theorem shown_eq (h : ReadOutcome size countMin s t reads)
    (hwhole : size ∣ (readBytes reads).length) :
    t.shown size = s.input.queue.mBuff.take (s.input.queue.mCarry * size) ++ readBytes reads := by
  rw [InputRound.shown, h.mSize, h.granted, Nat.add_mul, Nat.div_mul_cancel hwhole, h.buffer]

end ReadOutcome

namespace RoundInv

variable {size : Nat} {s t : InputRound}

private theorem outcome (hs : RoundInv size s) (hsize : 0 < size) {countMin : Nat}
    {reads : List ReadResult} {polls : List PollEvent}
    (hturn : s.InTurn (.beginRead countMin reads polls))
    (hnext : s.next size (.beginRead countMin reads polls) = some t) :
    ReadOutcome size countMin s t reads :=
  InputRound.beginRead_outcome hs.buffered (hs.idle hturn.1) hsize hturn.2 hnext

theorem shown_idle (hs : RoundInv size s) (hidle : s.granted = 0) :
    s.shown size = s.input.queue.mBuff.take (s.input.queue.mCarry * size) := by
  rw [InputRound.shown, hs.idle hidle]

private theorem beginRead (hs : RoundInv size s) (hsize : 0 < size) {countMin : Nat}
    {reads : List ReadResult} (hidle : s.granted = 0)
    (hwhole : size ∣ (readBytes reads).length) (h : ReadOutcome size countMin s t reads) :
    RoundInv size t where
  buffered := h.buffered hs.buffered
  size_le := by rw [h.mSize, h.mCapacity]; exact h.granted_le hsize
  granted _ := h.mSize
  idle hnone := by
    have hgranted := h.granted
    rw [hnone] at hgranted
    rw [h.mSize, h.mCarry, hnone]
    exact (Nat.eq_zero_of_add_eq_zero_right hgranted.symm).symm
  released := by rw [h.released]; exact hs.released
  gapless := by
    rw [h.taken, h.released, h.shown_eq hwhole, hs.gapless, hs.shown_idle hidle,
      List.append_assoc]

private theorem endRead (hs : RoundInv size s) {count : Nat} (hturn : s.InTurn (.endRead count))
    (hnext : s.next size (.endRead count) = some t) : RoundInv size t := by
  obtain ⟨hpos, hcount⟩ := hturn
  have hsize := hs.granted (by omega)
  obtain ⟨q, hq, hlength, hcapacity, hcarry, hleft, hsplit⟩ :=
    endRead_spec hs.buffered.length hs.size_le hpos (hsize ▸ hcount)
  rw [InputRound.next, hq] at hnext
  obtain rfl := Option.some.inj hnext
  have hle : count * size ≤ s.input.queue.mBuff.length := by
    rw [hs.buffered.length]
    exact Nat.mul_le_mul_right size (Nat.le_trans (hsize ▸ hcount) hs.size_le)
  exact {
    buffered := by
      have hcap := hs.size_le
      have hfits : q.mCarry ≤ s.input.queue.mCapacity := by omega
      exact hs.buffered.same_memory hlength hcapacity hfits
    size_le := by
      have hcap := hs.size_le
      change q.mSize ≤ q.mCapacity
      omega
    granted := fun h => absurd rfl h
    idle := fun _ => hleft.trans hcarry.symm
    released := by
      change size ∣ (s.released ++ _).length
      rw [List.length_append, List.length_take, Nat.min_eq_left hle]
      exact Nat.dvd_add hs.released (Nat.dvd_mul_left size count)
    gapless := by
      change s.input.taken = (s.released ++ _) ++ q.mBuff.take (q.mSize * size)
      rw [hs.gapless, InputRound.shown, hsplit, hleft, List.append_assoc] }

theorem next (hs : RoundInv size s) (hsize : 0 < size) {a : InputAction} (hturn : s.InTurn a)
    (haligned : CallsAligned size a) (hnext : s.next size a = some t) : RoundInv size t := by
  cases a with
  | beginRead countMin reads polls =>
    exact hs.beginRead hsize hturn.1 haligned (hs.outcome hsize hturn hnext)
  | endRead count => exact hs.endRead hturn hnext

theorem released_le_taken (hs : RoundInv size s) : s.released <+: s.input.taken := by
  rw [hs.gapless]
  exact List.prefix_append _ _

end RoundInv

private theorem next_mCapacity {size : Nat} {s t : InputRound} (hs : RoundInv size s)
    (hsize : 0 < size) {a : InputAction} (hturn : s.InTurn a) (hnext : s.next size a = some t) :
    t.input.queue.mCapacity = s.input.queue.mCapacity := by
  cases a with
  | beginRead countMin reads polls => exact (hs.outcome hsize hturn hnext).mCapacity
  | endRead count =>
    obtain ⟨hpos, hcount⟩ := hturn
    obtain ⟨q, hq, -, hcapacity, -⟩ := endRead_spec hs.buffered.length hs.size_le hpos
      (hs.granted (by omega) ▸ hcount)
    rw [InputRound.next, hq] at hnext
    obtain rfl := Option.some.inj hnext
    exact hcapacity

theorem inputRounds_invariant {size capacity : Nat} (hsize : 0 < size)
    {init : InputRound → Prop}
    (hinit : ∀ s, init s → RoundInv size s ∧ s.input.queue.mCapacity = capacity)
    {ok : InputAction → Prop} (hok : ∀ a, ok a → CallsAligned size a) {s : InputRound}
    (h : (inputRounds size init ok).Reachable s) :
    RoundInv size s ∧ s.input.queue.mCapacity = capacity := by
  apply h.invariant (I := fun s => RoundInv size s ∧ s.input.queue.mCapacity = capacity) hinit
  rintro s a t ⟨hinv, hcap⟩ ⟨⟨hturn, ha⟩, hnext⟩
  exact ⟨hinv.next hsize hturn (hok a ha) hnext,
    (next_mCapacity hinv hsize hturn hnext).trans hcap⟩

private theorem FreshInput.roundInv {size capacity : Nat} (hsmall : capacity * size < 2 ^ 31)
    (s : InputRound) (h : FreshInput size capacity s) :
    RoundInv size s ∧ s.input.queue.mCapacity = capacity := by
  obtain ⟨memory, hmemory, rfl⟩ := h
  exact ⟨.start hmemory hsmall, rfl⟩

private theorem readBytes_prefix_length {earlier reads : List ReadResult} (h : earlier <+: reads) :
    (readBytes earlier).length ≤ (readBytes reads).length := by
  obtain ⟨later, rfl⟩ := h
  rw [readBytes_append, List.length_append]
  exact Nat.le_add_right _ _

/-- With reads of whole elements every `begin_read` shows the next unconsumed elements of the
stream, at least as many as it was asked for. Its reads fill the free part of the buffer, and it
never waits when it was not asked for any element. -/
theorem fileInput_stream (size capacity : Nat) (hsize : 1 ≤ size)
    (hsmall : capacity * size < 2 ^ 31) (s t : InputRound)
    (h : (inputRounds size (FreshInput size capacity) (ReadsAligned size)).Reachable s)
    (n : Nat) (reads : List ReadResult) (polls : List PollEvent)
    (hstep : (inputRounds size (FreshInput size capacity) (ReadsAligned size)).step s
      (.beginRead n reads polls) t) :
    (n ≤ t.granted ∧ t.granted ≤ capacity ∧ (t.granted = 0 → n = 0)) ∧
    (t.released = s.released ∧ t.input.taken = t.released ++ t.shown size ∧
      (t.shown size).length = t.granted * size) ∧
    (∀ r ∈ t.input.requests, 0 ≤ r.2 ∧ r.1 + r.2 = capacity * size ∧
      ∃ earlier, earlier <+: reads ∧
        r.1 = s.input.queue.mCarry * size + (readBytes earlier).length) ∧
    (n = 0 → t.input.waits = s.input.waits) := by
  obtain ⟨⟨hturn, haligned⟩, hnext⟩ := hstep
  obtain ⟨hinv, hcap⟩ := inputRounds_invariant hsize (FreshInput.roundInv hsmall)
    (fun _ => ReadsAligned.callsAligned) h
  have hout := hinv.outcome hsize hturn hnext
  have hinv' := hinv.beginRead hsize hturn.1 haligned.callsAligned hout
  have hle := hout.granted_le hsize
  have henough := hout.enough
  rw [hcap] at hle
  refine ⟨⟨henough, hle, fun hnone => by omega⟩,
    ⟨hout.released, hinv'.gapless, hout.shown_length hsize hinv.buffered⟩, ?_, hout.waits⟩
  intro r hr
  obtain ⟨earlier, hearlier, hposition, hsum⟩ := hout.requests r hr
  have hlen := readBytes_prefix_length hearlier
  have hfits := hout.fits
  rw [hcap] at hsum hfits
  have hinside : (r.1 : Int) ≤ (capacity * size : Nat) := by
    rw [hposition]
    exact_mod_cast Nat.le_trans (Nat.add_le_add_left hlen _) hfits
  push_cast at hinside
  exact ⟨by omega, hsum, earlier, hearlier, hposition⟩

/-- Elements of two bytes: a wait, a read of two elements, and the release of one of them. -/
def pairRounds : List InputAction :=
  [.beginRead 1 [.again, .data [1, 2, 3, 4]] [.ready], .endRead 1]

def pairCarry : InputRound :=
  (TransitionSystem.exec (fun s a => s.InTurn a ∧ ReadsAligned 2 a) (InputRound.next 2)
    (.start [0, 0, 0, 0] 2) pairRounds).get (by decide)

/-- The second element is the carry of a call that asks for two. -/
def pairShown : InputRound :=
  (pairCarry.next 2 (.beginRead 2 [.data [5, 6]] [])).get (by decide)

theorem fileInput_stream_pair :
    (2 ≤ pairShown.granted ∧ pairShown.granted ≤ 2 ∧ (pairShown.granted = 0 → 2 = 0)) ∧
    (pairShown.released = pairCarry.released ∧
      pairShown.input.taken = pairShown.released ++ pairShown.shown 2 ∧
      (pairShown.shown 2).length = pairShown.granted * 2) ∧
    (∀ r ∈ pairShown.input.requests, 0 ≤ r.2 ∧ r.1 + r.2 = (2 : Nat) * (2 : Nat) ∧
      ∃ earlier, earlier <+: [ReadResult.data [5, 6]] ∧
        r.1 = pairCarry.input.queue.mCarry * 2 + (readBytes earlier).length) ∧
    (2 = 0 → pairShown.input.waits = pairCarry.input.waits) :=
  fileInput_stream 2 2 (by decide) (by decide) pairCarry pairShown
    (.run (.init ⟨[0, 0, 0, 0], rfl, rfl⟩)
      (TransitionSystem.run_of_exec (Option.some_get _).symm)) 2 [.data [5, 6]] []
    ⟨by decide, (Option.some_get _).symm⟩

example : pairShown.released = [1, 2] ∧ pairShown.shown 2 = [3, 4, 5, 6] := by decide

/-- As long as the reads of every call add up to whole elements, the released elements are the
stream cut into elements and nothing is discarded. The first call whose reads do not add up
discards bytes. -/
theorem fileInput_whole_calls (size capacity : Nat) (hsize : 1 ≤ size)
    (hsmall : capacity * size < 2 ^ 31) (s : InputRound)
    (h : (inputRounds size (FreshInput size capacity) (CallsAligned size)).Reachable s) :
    (size ∣ s.released.length ∧ s.released <+: s.input.taken ∧
      s.input.taken = s.released ++ s.shown size) ∧
    ∀ n reads polls t, s.InTurn (.beginRead n reads polls) →
      s.next size (.beginRead n reads polls) = some t →
      (t.input.taken = t.released ++ t.shown size ↔ size ∣ (readBytes reads).length) := by
  obtain ⟨hinv, -⟩ := inputRounds_invariant hsize (FreshInput.roundInv hsmall) (fun _ h => h) h
  refine ⟨⟨hinv.released, hinv.released_le_taken, hinv.gapless⟩, ?_⟩
  intro n reads polls t hturn hnext
  have hout := hinv.outcome hsize hturn hnext
  constructor
  · intro hgapless
    have hlen := congrArg List.length hgapless
    have hcarry : (s.shown size).length = s.input.queue.mCarry * size := by
      rw [hinv.shown_idle hturn.1, List.length_take, hinv.buffered.length]
      exact Nat.min_eq_left (Nat.mul_le_mul_right size hinv.buffered.carry_le)
    rw [hout.taken, hinv.gapless, hout.released, List.length_append, List.length_append,
      List.length_append, hout.shown_length hsize hinv.buffered, hout.granted, hcarry,
      Nat.add_mul] at hlen
    have hwhole : (readBytes reads).length = (readBytes reads).length / size * size := by omega
    exact ⟨_, hwhole.trans (Nat.mul_comm _ _)⟩
  · intro hwhole
    exact (hinv.beginRead hsize hturn.1 hwhole hout).gapless

/-- Two elements of two bytes that arrive as one byte and three. -/
def splitRounds : List InputAction :=
  [.beginRead 2 [.data [1], .data [2, 3, 4]] [], .endRead 2]

def splitReleased : InputRound :=
  (TransitionSystem.exec (fun s a => s.InTurn a ∧ CallsAligned 2 a) (InputRound.next 2)
    (.start [0, 0, 0, 0] 2) splitRounds).get (by decide)

theorem fileInput_whole_calls_split :
    (2 ∣ splitReleased.released.length ∧ splitReleased.released <+: splitReleased.input.taken ∧
      splitReleased.input.taken = splitReleased.released ++ splitReleased.shown 2) ∧
    ∀ n reads polls t, splitReleased.InTurn (.beginRead n reads polls) →
      splitReleased.next 2 (.beginRead n reads polls) = some t →
      (t.input.taken = t.released ++ t.shown 2 ↔ 2 ∣ (readBytes reads).length) :=
  fileInput_whole_calls 2 2 (by decide) (by decide) splitReleased
    (.run (.init ⟨[0, 0, 0, 0], rfl, rfl⟩)
      (TransitionSystem.run_of_exec (Option.some_get _).symm))

/-- Three bytes are read for one element, and the third is overwritten by the next call. -/
def oddRounds : List InputAction :=
  [.beginRead 1 [.data [1], .data [2, 3]] [], .endRead 1, .beginRead 1 [.data [4, 5]] [],
    .endRead 1]

theorem fileInput_odd_bytes_lost :
    ∃ s, (inputRounds 2 (FreshInput 2 2) fun _ => True).Reachable s ∧
      s.released = [1, 2, 4, 5] ∧ s.input.taken = [1, 2, 3, 4, 5] ∧
      ¬ s.released <+: s.input.taken := by
  have hrun : TransitionSystem.exec (fun s a => s.InTurn a ∧ True) (InputRound.next 2)
      (.start [0, 0, 0, 0] 2) oddRounds = some _ := rfl
  exact ⟨_, .run (.init ⟨[0, 0, 0, 0], rfl, rfl⟩) (TransitionSystem.run_of_exec hrun),
    rfl, rfl, by decide⟩

end Dyplo
