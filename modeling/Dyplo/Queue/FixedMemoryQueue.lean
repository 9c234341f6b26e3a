import Mathlib.Tactic.SplitIfs
import Dyplo.Library.CyclicBuffer

/-!
# The fixed-memory queue

`FixedMemoryQueueImpl` without its scheduler: the buffer, the two pointers and the fill count.
Pointers are offsets from `m_buff`, so `m_end` is the capacity. Where the source would call
`m_scheduler.wait_until_not_full()` or `wait_until_not_empty()`, the operation here has no
result, and the scheduler layers decide what happens next.
-/

namespace Dyplo

open CyclicBuffer

structure FixedMemoryQueue (α : Type*) where
  mBuff : Nat → α
  mEnd : Nat
  mFirst : Nat
  mLast : Nat
  mSize : Nat

namespace FixedMemoryQueue

variable {α : Type*}

/-- The constructor. The memory comes from `new T[capacity]`: its content is arbitrary. -/
def new (buffer : Nat → α) (capacity : Nat) : FixedMemoryQueue α :=
  { mBuff := buffer, mEnd := capacity, mFirst := 0, mLast := 0, mSize := 0 }

def capacity (q : FixedMemoryQueue α) : Nat := q.mEnd

def size (q : FixedMemoryQueue α) : Nat := q.mSize

def available (q : FixedMemoryQueue α) : Nat := q.capacity - q.size

def empty (q : FixedMemoryQueue α) : Bool := q.size == 0

def full (q : FixedMemoryQueue α) : Bool := q.size == q.capacity

def clear (q : FixedMemoryQueue α) : FixedMemoryQueue α :=
  { q with mFirst := 0, mLast := 0, mSize := 0 }

def increment (q : FixedMemoryQueue α) (what count : Nat) : Nat :=
  if what + count = q.mEnd then 0 else what + count

/-- What `begin_write` computes after its wait: the contiguous room from `m_first` on. -/
def writeRun (q : FixedMemoryQueue α) : Nat :=
  if q.mFirst < q.mLast then q.mLast - q.mFirst
  else if q.mLast = q.mFirst then if q.mSize = 0 then q.mEnd - q.mFirst else 0
  else q.mEnd - q.mFirst

/-- What `begin_read` computes after its wait: the contiguous content from `m_last` on. -/
def readRun (q : FixedMemoryQueue α) : Nat :=
  if q.mLast < q.mFirst then q.mFirst - q.mLast
  else if q.mSize ≠ 0 then q.mEnd - q.mLast
  else 0

/-- `begin_write(buffer, count_min)`: the pointer and the count, unless it has to wait. -/
def beginWrite (q : FixedMemoryQueue α) (countMin : Nat) : Option (Nat × Nat) :=
  if q.available < countMin then none else some (q.mFirst, q.writeRun)

def endWrite (q : FixedMemoryQueue α) (count : Nat) : FixedMemoryQueue α :=
  { q with mFirst := q.increment q.mFirst count, mSize := q.mSize + count }

/-- `begin_read(buffer, count_min)`: the pointer and the count, unless it has to wait. -/
def beginRead (q : FixedMemoryQueue α) (countMin : Nat) : Option (Nat × Nat) :=
  if q.size < countMin then none else some (q.mLast, q.readRun)

def endRead (q : FixedMemoryQueue α) (count : Nat) : FixedMemoryQueue α :=
  { q with mLast := q.increment q.mLast count, mSize := q.mSize - count }

/-- A store through a pointer handed out by `begin_write`. -/
def store (q : FixedMemoryQueue α) (address : Nat) (v : α) : FixedMemoryQueue α :=
  { q with mBuff := Function.update q.mBuff address v }

/-- The elements in the queue: `m_size` slots read cyclically from `m_last`. -/
def content (q : FixedMemoryQueue α) : List α :=
  window q.mBuff q.mEnd q.mLast q.mSize

/-- Both pointers are inside the buffer and `m_first` is `m_size` slots after `m_last`. -/
structure WellFormed (q : FixedMemoryQueue α) : Prop where
  size_le : q.mSize ≤ q.mEnd
  last_lt : q.mLast < max 1 q.mEnd
  first_lt : q.mFirst < max 1 q.mEnd
  ring : q.mLast + q.mSize = q.mFirst ∨ q.mLast + q.mSize = q.mFirst + q.mEnd

@[simp]
theorem content_length (q : FixedMemoryQueue α) : q.content.length = q.mSize := by
  simp [content]

theorem new_wellFormed (buffer : Nat → α) (capacity : Nat) :
    (new buffer capacity).WellFormed := by
  refine ⟨Nat.zero_le _, ?_, ?_, .inl rfl⟩
  · change 0 < max 1 capacity; omega
  · change 0 < max 1 capacity; omega

theorem clear_wellFormed (q : FixedMemoryQueue α) : q.clear.WellFormed := by
  refine ⟨Nat.zero_le _, ?_, ?_, .inl rfl⟩
  · change 0 < max 1 q.mEnd; omega
  · change 0 < max 1 q.mEnd; omega

theorem beginWrite_eq_some {q : FixedMemoryQueue α} {countMin buffer count : Nat} :
    q.beginWrite countMin = some (buffer, count) ↔
      countMin ≤ q.available ∧ buffer = q.mFirst ∧ count = q.writeRun := by
  unfold beginWrite
  split
  · simp; omega
  · simp [eq_comm]; omega

theorem beginWrite_eq_none {q : FixedMemoryQueue α} {countMin : Nat} :
    q.beginWrite countMin = none ↔ q.available < countMin := by
  unfold beginWrite
  split <;> simp_all

theorem beginRead_eq_none {q : FixedMemoryQueue α} {countMin : Nat} :
    q.beginRead countMin = none ↔ q.size < countMin := by
  unfold beginRead
  split <;> simp_all

theorem beginRead_eq_some {q : FixedMemoryQueue α} {countMin buffer count : Nat} :
    q.beginRead countMin = some (buffer, count) ↔
      countMin ≤ q.mSize ∧ buffer = q.mLast ∧ count = q.readRun := by
  unfold beginRead size
  split
  · simp; omega
  · simp [eq_comm]; omega

namespace WellFormed

variable {q : FixedMemoryQueue α}

theorem writeRun_eq (h : q.WellFormed) : q.writeRun = min q.available (q.mEnd - q.mFirst) := by
  obtain ⟨hsize, hlast, hfirst, hring⟩ := h
  unfold writeRun available capacity size
  split_ifs <;> omega

theorem readRun_eq (h : q.WellFormed) : q.readRun = min q.mSize (q.mEnd - q.mLast) := by
  obtain ⟨hsize, hlast, hfirst, hring⟩ := h
  unfold readRun
  split_ifs <;> omega

theorem writeRun_le (h : q.WellFormed) : q.writeRun ≤ q.mEnd - q.mSize := by
  have := h.writeRun_eq
  unfold available capacity size at this
  omega

theorem first_add_writeRun (h : q.WellFormed) : q.mFirst + q.writeRun ≤ q.mEnd := by
  have hrun := h.writeRun_eq
  obtain ⟨hsize, hlast, hfirst, hring⟩ := h
  omega

theorem readRun_le (h : q.WellFormed) : q.readRun ≤ q.mSize := by
  have := h.readRun_eq
  omega

theorem last_add_readRun (h : q.WellFormed) : q.mLast + q.readRun ≤ q.mEnd := by
  have hrun := h.readRun_eq
  obtain ⟨hsize, hlast, hfirst, hring⟩ := h
  omega

theorem first_eq_mod (h : q.WellFormed) (hpos : 0 < q.mEnd) :
    q.mFirst = (q.mLast + q.mSize) % q.mEnd := by
  obtain ⟨hsize, hlast, hfirst, hring⟩ := h
  rcases hring with hring | hring
  · rw [hring, Nat.mod_eq_of_lt (by omega)]
  · rw [hring, Nat.add_mod_right, Nat.mod_eq_of_lt (by omega)]

theorem store (h : q.WellFormed) (address : Nat) (v : α) : (q.store address v).WellFormed :=
  ⟨h.size_le, h.last_lt, h.first_lt, h.ring⟩

theorem endWrite (h : q.WellFormed) {count : Nat} (hcount : count ≤ q.writeRun) :
    (q.endWrite count).WellFormed := by
  have hle := h.writeRun_le
  have hin := h.first_add_writeRun
  obtain ⟨hsize, hlast, hfirst, hring⟩ := h
  constructor
  · simp only [FixedMemoryQueue.endWrite]; omega
  · exact hlast
  · simp only [FixedMemoryQueue.endWrite, increment]; split <;> omega
  · simp only [FixedMemoryQueue.endWrite, increment]; split <;> omega

theorem endRead (h : q.WellFormed) {count : Nat} (hcount : count ≤ q.readRun) :
    (q.endRead count).WellFormed := by
  have hle := h.readRun_le
  have hin := h.last_add_readRun
  obtain ⟨hsize, hlast, hfirst, hring⟩ := h
  constructor
  · simp only [FixedMemoryQueue.endRead]; omega
  · simp only [FixedMemoryQueue.endRead, increment]; split <;> omega
  · exact hfirst
  · simp only [FixedMemoryQueue.endRead, increment]; split <;> omega

theorem content_endWrite (h : q.WellFormed) {count : Nat} (hcount : count ≤ q.writeRun) :
    (q.endWrite count).content = q.content ++ straight q.mBuff q.mFirst count := by
  have hin := h.first_add_writeRun
  change window q.mBuff q.mEnd q.mLast (q.mSize + count) = _
  rw [window_add, content]
  congr 1
  rcases Nat.eq_zero_or_pos q.mEnd with hzero | hpos
  · have : count = 0 := by omega
    subst this
    rfl
  · rw [← window_mod, ← h.first_eq_mod hpos, window_eq_straight _ _ _ _ (by omega)]

theorem content_endRead (h : q.WellFormed) {count : Nat} (hcount : count ≤ q.readRun) :
    q.content = straight q.mBuff q.mLast count ++ (q.endRead count).content := by
  have hle := h.readRun_le
  have hin := h.last_add_readRun
  have hsplit : q.mSize = count + (q.mSize - count) := by omega
  rw [content, hsplit, window_add, window_eq_straight _ _ _ _ (by omega)]
  congr 1
  change _ = window q.mBuff q.mEnd (q.increment q.mLast count) (q.mSize - count)
  unfold increment
  split
  · next hend => rw [hend, ← window_mod, Nat.mod_self]
  · rfl

theorem write_slot_free (h : q.WellFormed) {i j : Nat} (hi : i < q.writeRun) (hj : j < q.mSize) :
    (q.mLast + j) % q.mEnd ≠ q.mFirst + i := by
  have hle := h.writeRun_le
  have hin := h.first_add_writeRun
  have hpos : 0 < q.mEnd := by omega
  have hslot : q.mFirst + i = (q.mLast + q.mSize + i) % q.mEnd := by
    rw [← Nat.mod_add_mod, ← h.first_eq_mod hpos, Nat.mod_eq_of_lt (by omega)]
  rw [hslot]
  exact slot_ne (by omega) (by omega)

theorem content_store (h : q.WellFormed) {i : Nat} (v : α) (hi : i < q.writeRun) :
    (q.store (q.mFirst + i) v).content = q.content := by
  apply window_update
  intro j hj
  exact h.write_slot_free hi hj

/-- The element at the front of a read grant is the one at the front of the content. -/
theorem content_getElem (h : q.WellFormed) {i : Nat} (hi : i < q.readRun) :
    q.content[i]? = some (q.mBuff (q.mLast + i)) := by
  have hle := h.readRun_le
  have hin := h.last_add_readRun
  have hlen : i < q.content.length := by rw [content_length]; omega
  rw [List.getElem?_eq_getElem hlen]
  simp only [content, window, List.getElem_map, List.getElem_range]
  rw [Nat.mod_eq_of_lt (by omega)]

theorem writeRun_endRead (h : q.WellFormed) {count : Nat} (hcount : count ≤ q.readRun) :
    q.writeRun ≤ (q.endRead count).writeRun := by
  rw [h.writeRun_eq, (h.endRead hcount).writeRun_eq]
  simp only [FixedMemoryQueue.endRead, available, capacity, size]
  omega

theorem readRun_endWrite (h : q.WellFormed) {count : Nat} (hcount : count ≤ q.writeRun) :
    q.readRun ≤ (q.endWrite count).readRun := by
  rw [h.readRun_eq, (h.endWrite hcount).readRun_eq]
  simp only [FixedMemoryQueue.endWrite]
  omega

/-- While part of the room is left the write pointer has not wrapped. -/
theorem endWrite_run (h : q.WellFormed) {count : Nat} (hcount : count < q.writeRun) :
    (q.endWrite count).mFirst = q.mFirst + count ∧
      (q.endWrite count).writeRun = q.writeRun - count := by
  have hin := h.first_add_writeRun
  have hne : q.mFirst + count ≠ q.mEnd := by omega
  rw [(h.endWrite (Nat.le_of_lt hcount)).writeRun_eq, h.writeRun_eq]
  simp only [FixedMemoryQueue.endWrite, increment, hne, if_false, available, capacity, size,
    true_and]
  omega

/-- While part of the content is left in front of the buffer end the read pointer has not
wrapped. -/
theorem endRead_run (h : q.WellFormed) {count : Nat} (hcount : count < q.readRun) :
    (q.endRead count).mLast = q.mLast + count ∧
      (q.endRead count).readRun = q.readRun - count := by
  have hin := h.last_add_readRun
  have hne : q.mLast + count ≠ q.mEnd := by omega
  rw [(h.endRead (Nat.le_of_lt hcount)).readRun_eq, h.readRun_eq]
  simp only [FixedMemoryQueue.endRead, increment, hne, if_false, true_and]
  omega

end WellFormed

end FixedMemoryQueue

end Dyplo
