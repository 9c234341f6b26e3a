import Dyplo.Library.TransitionSystem
import Dyplo.Queue.FixedMemoryQueue

/-!
# The runs that are granted

Calls that keep to their grants never bring the pointers out of order, `clear` included. What
`begin_write` and `begin_read` hand out is then all the room and all the content in one piece.
-/

namespace Dyplo

variable {α : Type*}

/-- The queue, and how much each side may still pass to `end_write` and to `end_read`. -/
structure GrantedQueue (α : Type*) where
  queue : FixedMemoryQueue α
  writeLeft : Nat
  readLeft : Nat

inductive QueueCall
  | beginWrite (countMin : Nat)
  | endWrite (count : Nat)
  | beginRead (countMin : Nat)
  | endRead (count : Nat)
  | clear
  deriving DecidableEq

namespace GrantedQueue

def start (memory : Nat → α) (capacity : Nat) : GrantedQueue α :=
  ⟨.new memory capacity, 0, 0⟩

/-- The effect of a call. `clear` takes the content back from a reader, while a writer may still
commit what it has been granted. -/
def next (s : GrantedQueue α) : QueueCall → Option (GrantedQueue α)
  | .beginWrite countMin => (s.queue.beginWrite countMin).map fun g => { s with writeLeft := g.2 }
  | .endWrite count =>
      some { s with queue := s.queue.endWrite count, writeLeft := s.writeLeft - count }
  | .beginRead countMin => (s.queue.beginRead countMin).map fun g => { s with readLeft := g.2 }
  | .endRead count =>
      some { s with queue := s.queue.endRead count, readLeft := s.readLeft - count }
  | .clear => some { s with queue := s.queue.clear, readLeft := 0 }

def WithinGrants (s : GrantedQueue α) : QueueCall → Prop
  | .endWrite count => count ≤ s.writeLeft
  | .endRead count => count ≤ s.readLeft
  | _ => True

instance (s : GrantedQueue α) (a : QueueCall) : Decidable (s.WithinGrants a) := by
  cases a <;> unfold WithinGrants <;> infer_instance

end GrantedQueue

/-- Every sequence of calls that keep to their grants. -/
def grantedCalls (α : Type*) (capacity : Nat) : TransitionSystem (GrantedQueue α) QueueCall :=
  .ofNext (fun s => ∃ memory, s = .start memory capacity) GrantedQueue.WithinGrants
    GrantedQueue.next

/-- `begin_write` and `begin_read` grant the longest run, and never take a full queue for an
empty one. -/
structure FixedMemoryQueue.MaximalRuns (q : FixedMemoryQueue α) : Prop where
  first_lt : 0 < q.capacity → q.mFirst < q.capacity
  last_lt : 0 < q.capacity → q.mLast < q.capacity
  no_slots : q.capacity = 0 → q.mFirst = 0 ∧ q.mLast = 0
  size_le : q.mSize ≤ q.capacity
  first_eq : q.mFirst = (q.mLast + q.mSize) % q.capacity
  beginWrite : ∀ countMin, q.beginWrite countMin =
    if q.available < countMin then none
    else some (q.mFirst, min q.available (q.capacity - q.mFirst))
  beginRead : ∀ countMin, q.beginRead countMin =
    if q.size < countMin then none else some (q.mLast, min q.size (q.capacity - q.mLast))
  full_iff : q.writeRun = 0 ↔ q.full = true
  empty_iff : q.readRun = 0 ↔ q.empty = true

/-- The debug assertions of a call: `increment` stays within the buffer, and no more is released
than there is. -/
def FixedMemoryQueue.AssertionsHold (q : FixedMemoryQueue α) : QueueCall → Prop
  | .endWrite count => q.mFirst + count ≤ q.mEnd
  | .endRead count => q.mLast + count ≤ q.mEnd ∧ count ≤ q.mSize
  | _ => True

namespace FixedMemoryQueue.WellFormed

variable {q : FixedMemoryQueue α}

private theorem maximalRuns (h : q.WellFormed) : q.MaximalRuns := by
  have hwrite := h.writeRun_eq
  have hread := h.readRun_eq
  have hlast := h.last_lt
  have hfirst := h.first_lt
  have hsize := h.size_le
  have hmod : q.mFirst = (q.mLast + q.mSize) % q.capacity := by
    rcases Nat.eq_zero_or_pos q.mEnd with hzero | hpos
    · have hring := h.ring
      rw [capacity, hzero, Nat.mod_zero]
      omega
    · exact h.first_eq_mod hpos
  constructor
  · intro hpos
    unfold capacity at hpos ⊢
    omega
  · intro hpos
    unfold capacity at hpos ⊢
    omega
  · intro hzero
    unfold capacity at hzero
    omega
  · exact hsize
  · exact hmod
  · intro countMin
    rw [FixedMemoryQueue.beginWrite, hwrite, capacity]
  · intro countMin
    rw [FixedMemoryQueue.beginRead, hread, capacity, size]
  · rw [hwrite, full, beq_iff_eq, available, capacity, size]
    omega
  · rw [hread, empty, beq_iff_eq, size]
    omega

private theorem writeRun_clear : q.clear.writeRun = q.mEnd := by
  simp [clear, writeRun]

private theorem sub_le_writeRun_endWrite (h : q.WellFormed) {count left : Nat}
    (hcount : count ≤ left)
    (hleft : left ≤ q.writeRun) : left - count ≤ (q.endWrite count).writeRun := by
  rcases Nat.lt_or_ge count q.writeRun with hlt | hall
  · rw [(h.endWrite_run hlt).2]
    omega
  · omega

private theorem sub_le_readRun_endRead (h : q.WellFormed) {count left : Nat} (hcount : count ≤ left)
    (hleft : left ≤ q.readRun) : left - count ≤ (q.endRead count).readRun := by
  rcases Nat.lt_or_ge count q.readRun with hlt | hall
  · rw [(h.endRead_run hlt).2]
    omega
  · omega

end FixedMemoryQueue.WellFormed

/-- The pointers are in order, and both grants lie within the runs. -/
structure GrantedInv (capacity : Nat) (s : GrantedQueue α) : Prop where
  mEnd : s.queue.mEnd = capacity
  wellFormed : s.queue.WellFormed
  write_le : s.writeLeft ≤ s.queue.writeRun
  read_le : s.readLeft ≤ s.queue.readRun

namespace GrantedInv

variable {capacity : Nat} {s t : GrantedQueue α}

private theorem start (memory : Nat → α) (capacity : Nat) :
    GrantedInv capacity (GrantedQueue.start memory capacity) :=
  ⟨rfl, FixedMemoryQueue.new_wellFormed memory capacity, Nat.zero_le _, Nat.zero_le _⟩

private theorem step (h : GrantedInv capacity s) {a : QueueCall} (hg : s.WithinGrants a)
    (hs : s.next a = some t) : GrantedInv capacity t := by
  obtain ⟨hend, hwf, hwrite, hread⟩ := h
  cases a with
  | beginWrite countMin =>
    obtain ⟨⟨buffer, count⟩, hgrant, rfl⟩ := Option.map_eq_some_iff.mp hs
    obtain ⟨-, -, rfl⟩ := FixedMemoryQueue.beginWrite_eq_some.mp hgrant
    exact ⟨hend, hwf, Nat.le_refl _, hread⟩
  | endWrite count =>
    obtain rfl := Option.some.inj hs
    have hrun : count ≤ s.queue.writeRun := Nat.le_trans hg hwrite
    exact ⟨hend, hwf.endWrite hrun, hwf.sub_le_writeRun_endWrite hg hwrite,
      Nat.le_trans hread (hwf.readRun_endWrite hrun)⟩
  | beginRead countMin =>
    obtain ⟨⟨buffer, count⟩, hgrant, rfl⟩ := Option.map_eq_some_iff.mp hs
    obtain ⟨-, -, rfl⟩ := FixedMemoryQueue.beginRead_eq_some.mp hgrant
    exact ⟨hend, hwf, hwrite, Nat.le_refl _⟩
  | endRead count =>
    obtain rfl := Option.some.inj hs
    have hrun : count ≤ s.queue.readRun := Nat.le_trans hg hread
    exact ⟨hend, hwf.endRead hrun, Nat.le_trans hwrite (hwf.writeRun_endRead hrun),
      hwf.sub_le_readRun_endRead hg hread⟩
  | clear =>
    obtain rfl := Option.some.inj hs
    refine ⟨hend, s.queue.clear_wellFormed, ?_, Nat.zero_le _⟩
    have hroom := hwf.writeRun_le
    change s.writeLeft ≤ s.queue.clear.writeRun
    rw [FixedMemoryQueue.WellFormed.writeRun_clear]
    omega

private theorem assertionsHold (h : GrantedInv capacity s) {a : QueueCall} (hg : s.WithinGrants a) :
    s.queue.AssertionsHold a := by
  have hfirst := h.wellFormed.first_add_writeRun
  have hlast := h.wellFormed.last_add_readRun
  have hsize := h.wellFormed.readRun_le
  have hwrite := h.write_le
  have hread := h.read_le
  cases a with
  | endWrite count =>
    change count ≤ s.writeLeft at hg
    change s.queue.mFirst + count ≤ s.queue.mEnd
    omega
  | endRead count =>
    change count ≤ s.readLeft at hg
    change s.queue.mLast + count ≤ s.queue.mEnd ∧ count ≤ s.queue.mSize
    omega
  | beginWrite countMin => trivial
  | beginRead countMin => trivial
  | clear => trivial

private theorem of_reachable (h : (grantedCalls α capacity).Reachable s) :
    GrantedInv capacity s := by
  refine h.invariant ?_ ?_
  · rintro s ⟨memory, rfl⟩
    exact start memory capacity
  · rintro s a t hinv ⟨hg, hs⟩
    exact hinv.step hg hs

end GrantedInv

/-- In every state that calls within their grants reach, the runs are maximal, and no debug
assertion of a further such call fires. -/
theorem maximalRuns_of_reachable {capacity : Nat} {s : GrantedQueue α}
    (h : (grantedCalls α capacity).Reachable s) :
    s.queue.capacity = capacity ∧ s.queue.MaximalRuns ∧
    ∀ a, s.WithinGrants a → s.queue.AssertionsHold a :=
  have hinv := GrantedInv.of_reachable h
  ⟨hinv.mEnd, hinv.wellFormed.maximalRuns, fun _ hg => hinv.assertionsHold hg⟩

/-- Three of four slots are written and two released; then the last slot is written, which
takes `m_first` back to the start. -/
theorem maximalRuns_of_reachable_wrapped :
    ∃ s : GrantedQueue Nat, (grantedCalls Nat 4).Reachable s ∧
      (s.queue.mFirst, s.queue.mLast, s.queue.mSize) = (0, 2, 2) ∧
      s.queue.capacity = 4 ∧ s.queue.MaximalRuns ∧
      ∀ a, s.WithinGrants a → s.queue.AssertionsHold a := by
  have hrun : TransitionSystem.exec GrantedQueue.WithinGrants GrantedQueue.next
      (.start (fun _ => 0) 4)
      [.beginWrite 1, .endWrite 3, .beginRead 2, .endRead 2, .beginWrite 0, .endWrite 1] =
      some ⟨⟨fun _ => 0, 4, 0, 2, 2⟩, 0, 1⟩ := rfl
  have hreach : (grantedCalls Nat 4).Reachable _ :=
    .run (.init ⟨_, rfl⟩) (TransitionSystem.run_of_exec hrun)
  exact ⟨_, hreach, rfl, maximalRuns_of_reachable hreach⟩

end Dyplo
