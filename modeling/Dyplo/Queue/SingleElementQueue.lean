import Mathlib.Tactic.SplitIfs
import Dyplo.Queue.FixedMemoryQueue

/-!
# The queue of one element

`SingleElementQueue` without its scheduler. As for `FixedMemoryQueue`, an operation has no result
where the source would wait.
-/

namespace Dyplo

structure SingleElementQueue (α : Type*) where
  mBuffer : α
  mFull : Bool

namespace SingleElementQueue

variable {α : Type*}

/-- The constructor. `m_buffer` is not initialised: its content is arbitrary. -/
def new (buffer : α) : SingleElementQueue α := ⟨buffer, false⟩

def capacity (_ : SingleElementQueue α) : Nat := 1

def size (q : SingleElementQueue α) : Nat := if q.mFull then 1 else 0

def available (q : SingleElementQueue α) : Nat := 1 - q.size

def empty (q : SingleElementQueue α) : Bool := !q.mFull

def full (q : SingleElementQueue α) : Bool := q.mFull

def clear (q : SingleElementQueue α) : SingleElementQueue α := { q with mFull := false }

/-- `begin_write(buffer, count_min)`: the count, unless it has to wait. The pointer is to
`m_buffer`; with a count of 0 there is none. -/
def beginWrite (q : SingleElementQueue α) (countMin : Nat) : Option Nat :=
  if countMin ≠ 0 then if q.mFull then none else some 1
  else if q.mFull then some 0
  else some 1

/-- `end_write(count)`. Without a count it does not even lock the queue. -/
def endWrite (q : SingleElementQueue α) (count : Nat) : Option (SingleElementQueue α) :=
  if count ≠ 0 then some { q with mFull := true } else none

/-- `begin_read(buffer, count_min)`: the count, unless it has to wait. -/
def beginRead (q : SingleElementQueue α) (countMin : Nat) : Option Nat :=
  if countMin ≠ 0 then if q.mFull then some 1 else none
  else if q.mFull then some 1
  else some 0

/-- `end_read(count)`. Without a count it does not even lock the queue. -/
def endRead (q : SingleElementQueue α) (count : Nat) : Option (SingleElementQueue α) :=
  if count ≠ 0 then some { q with mFull := false } else none

theorem beginWrite_eq_none {q : SingleElementQueue α} {countMin : Nat} :
    q.beginWrite countMin = none ↔ countMin ≠ 0 ∧ q.mFull = true := by
  unfold beginWrite
  split_ifs <;> simp_all

theorem beginRead_eq_none {q : SingleElementQueue α} {countMin : Nat} :
    q.beginRead countMin = none ↔ countMin ≠ 0 ∧ q.mFull = false := by
  unfold beginRead
  split_ifs <;> simp_all

end SingleElementQueue

end Dyplo
