import Dyplo.FileIO.FilePollScheduler
import Dyplo.Image.Bytes
import Dyplo.Library.WeakestPrecondition
import Mathlib.Tactic.Positivity

/-!
# `FileInputQueue`

The queue reads ahead into its buffer and moves what was not consumed to the front. `read` gets
bytes, while carry and size count elements of `size` bytes. The kernel's answers are part of the
state: a call consumes them in order.
-/

namespace Dyplo

/-- How a `read` ends. -/
inductive ReadResult
  | data (bytes : List UInt8)
  /-- `EAGAIN` -/
  | again
  | endOfFile
  | failed
  deriving DecidableEq

def ReadResult.bytes : ReadResult → List UInt8
  | .data bytes => bytes
  | _ => []

/-- A successful `read` returns at least one byte and at most what it was asked for. -/
def ReadResult.Answers (count : Int) : ReadResult → Prop
  | .data bytes => bytes ≠ [] ∧ bytes.length ≤ count
  | _ => True

instance (count : Int) (r : ReadResult) : Decidable (r.Answers count) := by
  cases r <;> unfold ReadResult.Answers <;> infer_instance

/-- `m_buff` is kept as bytes. -/
structure FileInputQueue where
  mBuff : List UInt8
  mCapacity : Nat
  mCarry : Nat
  mSize : Nat
  deriving DecidableEq

/-- The queue with its descriptor and its scheduler. The logs are what has been taken from the
descriptor, the buffer offset and count of every `read`, and the number of `wait_readable`
calls. -/
structure FileInput where
  queue : FileInputQueue
  poller : Poller
  reads : List ReadResult
  taken : List UInt8
  requests : List (Nat × Int)
  waits : Nat
  deriving DecidableEq

abbrev FileInputM := EStateM FileStop FileInput

namespace FileInputQueue

def waitReadable : FileInputM Unit := do
  let s ← get
  set { s with poller := s.poller.wait.2, waits := s.waits + 1 }
  match s.poller.wait.1 with
  | none => return
  | some stop => throw stop

/-- `::read(m_file_handle, m_buff + position, count)` -/
def read (position : Nat) (count : Int) : FileInputM ReadResult := do
  modify fun s => { s with requests := s.requests ++ [(position, count)] }
  let s ← get
  match s.reads with
  | [] => throw .unanswered
  | result :: reads =>
      if result.Answers count then
        set { s with
          queue := { s.queue with mBuff := overlay s.queue.mBuff position result.bytes }
          reads := reads
          taken := s.taken ++ result.bytes }
        return result
      else throw .unanswered

/-- `m_size = m_carry + (bytes_read / sizeof(T)); return m_size;` -/
def finish (size bytesRead : Nat) : FileInputM Nat := do
  modify fun s =>
    { s with queue := { s.queue with mSize := s.queue.mCarry + bytesRead / size } }
  return (← get).queue.mSize

/-- The loop of `begin_read`, whose every turn takes an answer of the kernel. -/
def readLoop (size countMin : Nat) : Nat → Nat → Int → Nat → FileInputM Nat
  | 0, _, _, _ => throw .unanswered
  | turns + 1, bufferPosition, bytesToRead, bytesRead => do
      let s ← get
      let bufferSpaceAvailable := toInt (s.queue.mCapacity * size - bufferPosition)
      match ← read bufferPosition bufferSpaceAvailable with
      | .failed => throw (.runtimeError "Failed to read file")
      | .again =>
          if countMin = 0 then finish size bytesRead
          else
            waitReadable
            if 0 < bytesToRead then
              readLoop size countMin turns bufferPosition bytesToRead bytesRead
            else finish size bytesRead
      | .endOfFile => throw .endOfInput
      | .data bytes =>
          if 0 < bytesToRead - bytes.length then
            readLoop size countMin turns (bufferPosition + bytes.length)
              (bytesToRead - bytes.length) (bytesRead + bytes.length)
          else finish size (bytesRead + bytes.length)

/-- `begin_read(buffer, count_min)`; `buffer` is always `m_buff`. -/
def beginRead (size countMin : Nat) : FileInputM Nat := do
  let s ← get
  let turns := s.reads.length + 1
  if s.queue.mCarry ≠ 0 then
    if countMin ≤ s.queue.mCarry then return s.queue.mCarry
    else
      let countMin := countMin - s.queue.mCarry
      readLoop size countMin turns (s.queue.mCarry * size) (toInt (countMin * size)) 0
  else readLoop size countMin turns 0 (toInt (countMin * size)) 0

/-- `memmove(m_buff, m_buff + source, count)` -/
def memmove (mem : List UInt8) (source count : Nat) : List UInt8 :=
  overlay mem 0 ((mem.drop source).take count)

/-- `memcpy(m_buff, m_buff + source, count)`, which is undefined when the regions overlap. -/
def memcpy (mem : List UInt8) (source count : Nat) : Option (List UInt8) :=
  if count ≤ source then some (memmove mem source count) else none

def endRead (size : Nat) (q : FileInputQueue) (count : Nat) : Option FileInputQueue :=
  if count = 0 then some q
  else
    let carry := q.mSize - count
    if carry ≠ 0 then
      if count < carry then
        some { q with
          mBuff := memmove q.mBuff (count * size) (carry * size), mCarry := carry, mSize := carry }
      else
        (memcpy q.mBuff (count * size) (carry * size)).map fun mem =>
          { q with mBuff := mem, mCarry := carry, mSize := carry }
    else some { q with mCarry := 0, mSize := 0 }

/-- The bytes that a list of answers takes from the descriptor. -/
def readBytes (results : List ReadResult) : List UInt8 := results.flatMap ReadResult.bytes

theorem readBytes_append (xs ys : List ReadResult) :
    readBytes (xs ++ ys) = readBytes xs ++ readBytes ys := List.flatMap_append

theorem readBytes_singleton (r : ReadResult) : readBytes [r] = r.bytes :=
  List.flatMap_singleton _ _

private theorem answers_length_le {r : ReadResult} {count : Int}
    (h : r.Answers count) (hcount : 0 ≤ count) : (r.bytes.length : Int) ≤ count := by
  cases r with
  | data bytes => exact h.2
  | _ => exact hcount

/-- A queue whose byte counts fit an `int`. -/
structure Buffered (size : Nat) (q : FileInputQueue) : Prop where
  length : q.mBuff.length = q.mCapacity * size
  carry_le : q.mCarry ≤ q.mCapacity
  small : q.mCapacity * size < 2 ^ 31

/-- A queue whose room behind the carry fits an `int`. -/
structure Roomy (size : Nat) (q : FileInputQueue) : Prop where
  length : q.mBuff.length = q.mCapacity * size
  carry_le : q.mCarry ≤ q.mCapacity
  room : (q.mCapacity - q.mCarry) * size < 2 ^ 31

theorem Buffered.roomy {size : Nat} {q : FileInputQueue} (h : Buffered size q) : Roomy size q where
  length := h.length
  carry_le := h.carry_le
  room := Nat.lt_of_le_of_lt (Nat.mul_le_mul_right size (Nat.sub_le _ _)) h.small

/-- A call changes what is in the buffer, not the buffer. -/
theorem Buffered.same_memory {size : Nat} {q q' : FileInputQueue} (h : Buffered size q)
    (hlength : q'.mBuff.length = q.mBuff.length) (hcapacity : q'.mCapacity = q.mCapacity)
    (hcarry : q'.mCarry ≤ q.mCapacity) : Buffered size q' where
  length := by rw [hlength, hcapacity]; exact h.length
  carry_le := by rw [hcapacity]; exact hcarry
  small := by rw [hcapacity]; exact h.small

/-- What a call has done once it has consumed these answers: the bytes stand behind the carry,
and every `read` was asked to fill the buffer from where it stopped. -/
structure Took (size : Nat) (s t : FileInput) (results : List ReadResult) : Prop where
  reads : s.reads = results ++ t.reads
  taken : t.taken = s.taken ++ readBytes results
  mCapacity : t.queue.mCapacity = s.queue.mCapacity
  mCarry : t.queue.mCarry = s.queue.mCarry
  length : t.queue.mBuff.length = s.queue.mBuff.length
  buffer : t.queue.mBuff.take (s.queue.mCarry * size + (readBytes results).length) =
    s.queue.mBuff.take (s.queue.mCarry * size) ++ readBytes results
  fits : s.queue.mCarry * size + (readBytes results).length ≤ s.queue.mCapacity * size
  requests : ∀ r ∈ t.requests, r ∈ s.requests ∨ ∃ earlier, earlier <+: results ∧
    r.1 = s.queue.mCarry * size + (readBytes earlier).length ∧
    r.1 + r.2 = s.queue.mCapacity * size

namespace Took

variable {size : Nat} {s t : FileInput} {results : List ReadResult}

theorem refl (h : Roomy size s.queue) : Took size s s [] where
  reads := rfl
  taken := (List.append_nil _).symm
  mCapacity := rfl
  mCarry := rfl
  length := rfl
  buffer := (List.append_nil _).symm
  fits := Nat.mul_le_mul_right size h.carry_le
  requests _ hr := .inl hr

theorem buffered (h : Took size s t results) (hs : Buffered size s.queue) :
    Buffered size t.queue :=
  hs.same_memory h.length h.mCapacity (h.mCarry ▸ hs.carry_le)

theorem carry_eq (h : Took size s t results) (hs : Buffered size s.queue) :
    t.queue.mBuff.take (s.queue.mCarry * size) = s.queue.mBuff.take (s.queue.mCarry * size) := by
  have hlen : (s.queue.mBuff.take (s.queue.mCarry * size)).length = s.queue.mCarry * size := by
    rw [List.length_take, hs.length]
    exact Nat.min_eq_left (Nat.mul_le_mul_right size hs.carry_le)
  have hbuffer := congrArg (List.take (s.queue.mCarry * size)) h.buffer
  rwa [List.take_take, Nat.min_eq_left (Nat.le_add_right _ _), List.take_left' hlen] at hbuffer

private theorem space (h : Took size s t results) (hs : Roomy size s.queue) :
    toInt (t.queue.mCapacity * size - (s.queue.mCarry * size + (readBytes results).length : Nat)) =
      s.queue.mCapacity * size - (s.queue.mCarry * size + (readBytes results).length : Nat) := by
  have hfits := h.fits
  have hroom := hs.room
  rw [Nat.sub_mul] at hroom
  rw [h.mCapacity]
  apply toInt_of_lt <;> push_cast <;> omega

private theorem wait (h : Took size s t results) (poller : Poller) (waits : Nat) :
    Took size s { t with poller := poller, waits := waits } results :=
  ⟨h.reads, h.taken, h.mCapacity, h.mCarry, h.length, h.buffer, h.fits, h.requests⟩

private theorem setSize (h : Took size s t results) (mSize : Nat) :
    Took size s { t with queue := { t.queue with mSize := mSize } } results :=
  ⟨h.reads, h.taken, h.mCapacity, h.mCarry, h.length, h.buffer, h.fits, h.requests⟩

end Took

variable {size : Nat} {s t : FileInput} {results : List ReadResult}

/-- One more answer goes behind the bytes that the call has read so far. -/
theorem read_spec (hs : Roomy size s.queue) (h : Took size s t results) {position : Nat}
    (hposition : position = s.queue.mCarry * size + (readBytes results).length) :
    wp (read position (toInt (t.queue.mCapacity * size - position)))
      (fun r u => Took size s u (results ++ [r]) ∧ u.queue.mSize = t.queue.mSize ∧
        u.waits = t.waits)
      (fun _ u => Took size s u results ∧ u.queue.mSize = t.queue.mSize) t := by
  subst hposition
  have hspace := h.space hs
  have hfits := h.fits
  have hlength : t.queue.mBuff.length = s.queue.mCapacity * size := h.length.trans hs.length
  rw [hspace]
  have hrequests : ∀ more, ∀ r ∈ t.requests ++ [(s.queue.mCarry * size +
      (readBytes results).length, (s.queue.mCapacity * size -
        (s.queue.mCarry * size + (readBytes results).length : Nat) : Int))],
      r ∈ s.requests ∨ ∃ earlier, earlier <+: results ++ more ∧
        r.1 = s.queue.mCarry * size + (readBytes earlier).length ∧
        r.1 + r.2 = s.queue.mCapacity * size := by
    intro more r hr
    rcases List.mem_append.mp hr with hr | hr
    · rcases h.requests r hr with hold | ⟨earlier, hearlier, hr⟩
      · exact .inl hold
      · exact .inr ⟨earlier, hearlier.trans (List.prefix_append _ _), hr⟩
    · obtain rfl := List.mem_singleton.mp hr
      exact .inr ⟨results, List.prefix_append _ _, rfl, by push_cast; omega⟩
  have hrequests_nil := hrequests []
  rw [List.append_nil] at hrequests_nil
  rw [read, wp_bind, wp_modify, wp_bind, wp_get]
  cases hreads : t.reads with
  | nil =>
    rw [wp_throw]
    exact ⟨⟨h.reads.trans (by rw [hreads]), h.taken, h.mCapacity, h.mCarry, h.length, h.buffer,
      h.fits, hrequests_nil⟩, rfl⟩
  | cons result rest =>
    change wp (if result.Answers _ then _ else _) _ _ _
    rw [wp_ite]
    split_ifs with hanswers
    · have hlen := answers_length_le hanswers (by push_cast; omega)
      have hroom : s.queue.mCarry * size + (readBytes results).length + result.bytes.length ≤
          s.queue.mCapacity * size := by
        push_cast at hlen
        omega
      rw [wp_bind, wp_set, wp_pure]
      refine ⟨⟨?_, ?_, h.mCapacity, h.mCarry, ?_, ?_, ?_, hrequests [result]⟩, rfl, rfl⟩
      · rw [h.reads, hreads, List.append_assoc]
        rfl
      · change t.taken ++ result.bytes = _
        rw [h.taken, readBytes_append, readBytes_singleton, List.append_assoc]
      · exact (overlay_length (hlength ▸ hroom)).trans h.length
      · rw [readBytes_append, readBytes_singleton, List.length_append, ← Nat.add_assoc,
          ← List.append_assoc]
        exact take_overlay h.buffer (hlength ▸ hfits)
      · rw [readBytes_append, readBytes_singleton, List.length_append]
        omega
    · rw [wp_throw]
      exact ⟨⟨h.reads.trans (by rw [hreads]), h.taken, h.mCapacity, h.mCarry, h.length, h.buffer,
        h.fits, hrequests_nil⟩, rfl⟩

theorem waitReadable_spec {Q : Unit → FileInput → Prop} {E : FileStop → FileInput → Prop}
    (hQ : ∀ poller, Q () { t with poller := poller, waits := t.waits + 1 })
    (hE : ∀ stop poller, E stop { t with poller := poller, waits := t.waits + 1 }) :
    wp waitReadable Q E t := by
  rw [waitReadable, wp_bind, wp_get, wp_bind, wp_set]
  cases t.poller.wait.1 with
  | none => exact (wp_pure _).mpr (hQ _)
  | some stop => exact (wp_throw _).mpr (hE stop _)

theorem elements_fit (hsize : 0 < size) {carry bytes capacity : Nat}
    (h : carry * size + bytes ≤ capacity * size) : carry + bytes / size ≤ capacity := by
  have hdiv : bytes / size * size ≤ bytes := Nat.div_mul_le_self _ _
  have hmul : (carry + bytes / size) * size ≤ capacity * size := by
    rw [Nat.add_mul]
    exact Nat.le_trans (Nat.add_le_add_left hdiv _) h
  exact Nat.le_of_mul_le_mul_right hmul hsize

/-- How a call of `begin_read` that reads comes back. -/
structure Returned (size countMin : Nat) (s t : FileInput) (results : List ReadResult) (r : Nat) :
    Prop where
  took : Took size s t results
  result : r = s.queue.mCarry + (readBytes results).length / size
  mSize : t.queue.mSize = r
  enough : countMin * size ≤ (readBytes results).length
  waits : countMin = 0 → t.waits = s.waits

private theorem finish_spec (h : Took size s t results) {countMin : Nat}
    (henough : countMin * size ≤ (readBytes results).length)
    (hwaits : countMin = 0 → t.waits = s.waits) {bytesRead : Nat}
    (hbytes : bytesRead = (readBytes results).length) {E : FileStop → FileInput → Prop} :
    wp (finish size bytesRead)
      (fun r u => ∃ results, Returned size countMin s u results r) E t := by
  rw [finish, wp_bind, wp_modify, wp_bind, wp_get, wp_pure]
  refine ⟨results, h.setSize _, ?_, rfl, henough, hwaits⟩
  change t.queue.mCarry + bytesRead / size = _
  rw [h.mCarry, hbytes]

/-- One turn of the loop, by how its `read` ends. -/
theorem readLoop_turn {countMin turns position bytesRead : Nat} {bytesToRead : Int} {s : FileInput}
    {R : ReadResult → FileInput → Prop} {Q : Nat → FileInput → Prop}
    {E : FileStop → FileInput → Prop}
    (hread : wp (read position (toInt (s.queue.mCapacity * size - position))) R E s)
    (hfailed : ∀ t, R .failed t → E (.runtimeError "Failed to read file") t)
    (hend : ∀ t, R .endOfFile t → E .endOfInput t)
    (hpoll : ∀ t, R .again t → countMin = 0 → wp (finish size bytesRead) Q E t)
    (hwait : ∀ t, R .again t → countMin ≠ 0 → wp waitReadable
      (fun _ u => if 0 < bytesToRead then
          wp (readLoop size countMin turns position bytesToRead bytesRead) Q E u
        else wp (finish size bytesRead) Q E u) E t)
    (hdata : ∀ bytes t, R (.data bytes) t → if 0 < bytesToRead - bytes.length then
        wp (readLoop size countMin turns (position + bytes.length) (bytesToRead - bytes.length)
          (bytesRead + bytes.length)) Q E t
      else wp (finish size (bytesRead + bytes.length)) Q E t) :
    wp (readLoop size countMin (turns + 1) position bytesToRead bytesRead) Q E s := by
  rw [readLoop, wp_bind, wp_get, wp_bind]
  refine hread.mono ?_ fun _ _ h => h
  intro r t hr
  cases r with
  | failed => exact (wp_throw _).mpr (hfailed t hr)
  | endOfFile => exact (wp_throw _).mpr (hend t hr)
  | again =>
    change wp (if countMin = 0 then _ else _) _ _ _
    rw [wp_ite]
    by_cases hzero : countMin = 0
    · rw [if_pos hzero]
      exact hpoll t hr hzero
    · rw [if_neg hzero, wp_bind]
      refine (hwait t hr hzero).mono ?_ fun _ _ h => h
      intro _ u hu
      rw [wp_ite]
      exact hu
  | data bytes =>
    change wp (if 0 < bytesToRead - bytes.length then _ else _) _ _ _
    rw [wp_ite]
    exact hdata bytes t hr

/-- The loop returns with enough bytes behind the carry; left early, it has changed neither the
carry nor the size. -/
theorem readLoop_spec (hs : Roomy size s.queue) {countMin : Nat} (turns : Nat)
    (h : Took size s t results) (hsize : t.queue.mSize = s.queue.mSize)
    (hwaits : countMin = 0 → t.waits = s.waits) {position bytesRead : Nat} {bytesToRead : Int}
    (hposition : position = s.queue.mCarry * size + (readBytes results).length)
    (hread : bytesRead = (readBytes results).length)
    (hsum : bytesToRead + bytesRead = countMin * size) :
    wp (readLoop size countMin turns position bytesToRead bytesRead)
      (fun r u => ∃ results, Returned size countMin s u results r)
      (fun _ u => ∃ results, Took size s u results ∧ u.queue.mSize = s.queue.mSize) t := by
  induction turns generalizing t results position bytesRead bytesToRead with
  | zero => exact (wp_throw _).mpr ⟨results, h, hsize⟩
  | succ turns ih =>
    have hlength : ∀ r : ReadResult, (readBytes (results ++ [r])).length =
        (readBytes results).length + r.bytes.length := by
      intro r
      rw [readBytes_append, readBytes_singleton, List.length_append]
    have hagain : (readBytes (results ++ [.again])).length = (readBytes results).length :=
      hlength .again
    apply readLoop_turn (R := fun r u => Took size s u (results ++ [r]) ∧
      u.queue.mSize = s.queue.mSize ∧ u.waits = t.waits)
    case hread =>
      rw [← hsize]
      exact (read_spec hs h hposition).mono (fun _ _ h => h) fun _ _ h => ⟨results, h⟩
    case hfailed =>
      rintro u ⟨htook, husize, -⟩
      exact ⟨_, htook, husize⟩
    case hend =>
      rintro u ⟨htook, husize, -⟩
      exact ⟨_, htook, husize⟩
    case hpoll =>
      rintro u ⟨htook, -, huwaits⟩ hzero
      apply finish_spec htook _ (fun hz => huwaits.trans (hwaits hz)) (by omega)
      rw [hzero]
      omega
    case hwait =>
      rintro u ⟨htook, husize, -⟩ hpositive
      apply waitReadable_spec
      · intro poller
        split_ifs with hmore
        · apply ih (htook.wait poller _) husize (fun hz => absurd hz hpositive) _ _ hsum <;> omega
        · apply finish_spec (htook.wait poller _) _ (fun hz => absurd hz hpositive) (by omega)
          rw [hagain]
          omega
      · intro stop poller
        exact ⟨_, htook.wait _ _, husize⟩
    case hdata =>
      rintro bytes u ⟨htook, husize, huwaits⟩
      have hmore : (readBytes (results ++ [.data bytes])).length =
          (readBytes results).length + bytes.length := hlength (.data bytes)
      split_ifs with hloop
      · apply ih htook husize (fun hz => huwaits.trans (hwaits hz))
        · omega
        · omega
        · push_cast; omega
      · apply finish_spec htook _ (fun hz => huwaits.trans (hwaits hz)) (by omega)
        rw [hmore]
        omega

/-- `begin_read` hands out the carry alone, or reads behind it. -/
theorem beginRead_spec (hs : Roomy size s.queue) {countMin : Nat}
    (hcount : countMin ≤ s.queue.mCapacity) :
    wp (beginRead size countMin)
      (fun r t => (s.queue.mCarry ≠ 0 ∧ countMin ≤ s.queue.mCarry ∧ r = s.queue.mCarry ∧ t = s) ∨
        ¬ (s.queue.mCarry ≠ 0 ∧ countMin ≤ s.queue.mCarry) ∧
          ∃ results, Returned size (countMin - s.queue.mCarry) s t results r)
      (fun _ t => ∃ results, Took size s t results ∧ t.queue.mSize = s.queue.mSize) s := by
  have hint : ∀ m, m ≤ s.queue.mCapacity - s.queue.mCarry → toInt (m * size) = m * size := by
    intro m hm
    have hmul := Nat.mul_le_mul_right size hm
    apply toInt_of_lt
    · positivity
    · exact_mod_cast Nat.lt_of_le_of_lt hmul hs.room
  rw [beginRead, wp_bind, wp_get, wp_ite]
  by_cases hcarry : s.queue.mCarry ≠ 0
  · rw [if_pos hcarry, wp_ite]
    by_cases hle : countMin ≤ s.queue.mCarry
    · rw [if_pos hle, wp_pure]
      exact .inl ⟨hcarry, hle, rfl, rfl⟩
    · rw [if_neg hle]
      dsimp only
      rw [hint _ (by omega)]
      refine (readLoop_spec hs _ (.refl hs) rfl (fun _ => rfl) rfl rfl ?_).mono ?_ fun _ _ h => h
      · simp [readBytes]
      · rintro r t hreturned
        exact .inr ⟨fun h => hle h.2, hreturned⟩
  · have hzero : s.queue.mCarry = 0 := not_not.mp hcarry
    have hsub : countMin - s.queue.mCarry = countMin := by omega
    rw [if_neg hcarry, hint _ (by omega), hsub]
    refine (readLoop_spec hs _ (.refl hs) rfl (fun _ => rfl) ?_ rfl ?_).mono ?_ fun _ _ h => h
    · simp [readBytes, hzero]
    · simp [readBytes]
    · rintro r t hreturned
      exact .inr ⟨fun h => hcarry h.1, hreturned⟩

private theorem memmove_spec {mem : List UInt8} {source count : Nat}
    (h : source + count ≤ mem.length) :
    (memmove mem source count).length = mem.length ∧
      (memmove mem source count).take count = (mem.drop source).take count := by
  have hlen : ((mem.drop source).take count).length = count := by
    rw [List.length_take, List.length_drop]
    omega
  constructor
  · apply overlay_length
    rw [hlen]
    omega
  · exact take_overlay_of_length hlen

/-- What `end_read` leaves behind: the elements after the released ones, at the front. The
regions of a `memcpy` never overlap. -/
theorem endRead_spec {q : FileInputQueue} (hlength : q.mBuff.length = q.mCapacity * size)
    (hsize : q.mSize ≤ q.mCapacity) {count : Nat} (hpos : 1 ≤ count) (hcount : count ≤ q.mSize) :
    ∃ q', endRead size q count = some q' ∧ q'.mBuff.length = q.mBuff.length ∧
      q'.mCapacity = q.mCapacity ∧ q'.mCarry = q.mSize - count ∧ q'.mSize = q.mSize - count ∧
      q.mBuff.take (q.mSize * size) =
        q.mBuff.take (count * size) ++ q'.mBuff.take ((q.mSize - count) * size) := by
  have hsplit : q.mSize * size = count * size + (q.mSize - count) * size := by
    rw [← Nat.add_mul]
    congr 1
    omega
  have hfits : q.mSize * size ≤ q.mCapacity * size := Nat.mul_le_mul_right size hsize
  have hinside : count * size + (q.mSize - count) * size ≤ q.mBuff.length := by omega
  obtain ⟨hkeep, hfront⟩ := memmove_spec hinside
  rw [endRead, if_neg (by omega)]
  dsimp only
  split_ifs with hcarry hlt
  · refine ⟨_, rfl, hkeep, rfl, rfl, rfl, ?_⟩
    rw [hfront, hsplit, List.take_add]
  · have hdisjoint : (q.mSize - count) * size ≤ count * size :=
      Nat.mul_le_mul_right size (by omega)
    rw [memcpy, if_pos hdisjoint]
    refine ⟨_, rfl, hkeep, rfl, rfl, rfl, ?_⟩
    rw [hfront, hsplit, List.take_add]
  · have hnone : q.mSize - count = 0 := not_not.mp hcarry
    refine ⟨_, rfl, rfl, rfl, hnone.symm, hnone.symm, ?_⟩
    rw [hsplit, hnone]
    simp

end FileInputQueue

end Dyplo
