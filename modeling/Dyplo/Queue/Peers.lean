import Mathlib.Order.Interval.Set.Basic
import Mathlib.Data.Set.Lattice
import Mathlib.Order.CompletePartialOrder
import Dyplo.Library.TransitionSystem
import Dyplo.Queue.FixedMemoryQueue

/-!
# One producer and one consumer

The four locked bodies of the queue are atomic steps. The producer's stores and the consumer's
loads go through the pointers handed out by `begin_write` and `begin_read`; they are steps of
their own and may fall anywhere between the locked ones.
-/

namespace Dyplo

open CyclicBuffer

/-- What the last `begin_*` handed out, and how much of it `end_*` has taken since. -/
structure Grant where
  buffer : Nat
  count : Nat
  done : Nat

/-- The slots of a grant that are still with the peer. -/
def Grant.outstanding (g : Grant) : Set Nat :=
  Set.Ico (g.buffer + g.done) (g.buffer + g.count)

/-- The queue with both grants. The logs number the elements of the stream: `committed` and
`released` are what the `end_*` calls passed on, `stored` the producer's last store to each
position, and `loads` everything the consumer has ever read, with its position. -/
structure PeerState (α : Type*) where
  queue : FixedMemoryQueue α
  write : Grant
  read : Grant
  committed : List α
  released : List α
  stored : Nat → Option α
  loads : List (Nat × α)

inductive PeerAction (α : Type*)
  | beginWrite (countMin : Nat)
  | store (i : Nat) (v : α)
  | endWrite (count : Nat)
  | beginRead (countMin : Nat)
  | load (i : Nat)
  | endRead (count : Nat)

variable {α : Type*}

namespace PeerState

def start (memory : Nat → α) (capacity : Nat) : PeerState α :=
  { queue := .new memory capacity, write := ⟨0, 0, 0⟩, read := ⟨0, 0, 0⟩,
    committed := [], released := [], stored := fun _ => none, loads := [] }

/-- The effect of each action, whoever takes it. A `begin_*` that has to wait is no step. -/
def next (s : PeerState α) : PeerAction α → Option (PeerState α)
  | .beginWrite countMin =>
      (s.queue.beginWrite countMin).map fun g => { s with write := ⟨g.1, g.2, 0⟩ }
  | .store i v =>
      some { s with
        queue := s.queue.store (s.write.buffer + i) v
        stored := Function.update s.stored (s.committed.length + (i - s.write.done)) (some v) }
  | .endWrite count =>
      some { s with
        queue := s.queue.endWrite count
        write := { s.write with done := s.write.done + count }
        committed := s.committed ++ straight s.queue.mBuff s.queue.mFirst count }
  | .beginRead countMin =>
      (s.queue.beginRead countMin).map fun g => { s with read := ⟨g.1, g.2, 0⟩ }
  | .load i =>
      some { s with
        loads := s.loads ++ [(s.released.length + (i - s.read.done),
          s.queue.mBuff (s.read.buffer + i))] }
  | .endRead count =>
      some { s with
        queue := s.queue.endRead count
        read := { s.read with done := s.read.done + count }
        released := s.released ++ straight s.queue.mBuff s.queue.mLast count }

/-- Each peer uses, commits and releases at most what its last `begin_*` granted. -/
def WithinGrants (s : PeerState α) : PeerAction α → Prop
  | .beginWrite _ => True
  | .store i _ => s.write.done ≤ i ∧ i < s.write.count
  | .endWrite count => s.write.done + count ≤ s.write.count
  | .beginRead _ => True
  | .load i => s.read.done ≤ i ∧ i < s.read.count
  | .endRead count => s.read.done + count ≤ s.read.count

instance (s : PeerState α) (a : PeerAction α) : Decidable (s.WithinGrants a) := by
  cases a <;> unfold WithinGrants <;> infer_instance

end PeerState

/-- Every interleaving of one producer and one consumer that keep to their grants. -/
def peers (α : Type*) (capacity : Nat) : TransitionSystem (PeerState α) (PeerAction α) :=
  .ofNext (fun s => ∃ memory, s = .start memory capacity) PeerState.WithinGrants PeerState.next

/-- The joint invariant of the pointers, both grants and the logs. -/
structure PeerInv (s : PeerState α) : Prop where
  wellFormed : s.queue.WellFormed
  fifo : s.committed = s.released ++ s.queue.content
  write_done : s.write.done ≤ s.write.count
  write_grant : s.write.done < s.write.count →
    s.write.buffer + s.write.done = s.queue.mFirst ∧
      s.write.count - s.write.done ≤ s.queue.writeRun
  read_done : s.read.done ≤ s.read.count
  read_grant : s.read.done < s.read.count →
    s.read.buffer + s.read.done = s.queue.mLast ∧
      s.read.count - s.read.done ≤ s.queue.readRun
  stored_committed : ∀ p v, s.stored p = some v → p < s.committed.length →
    s.committed[p]? = some v
  stored_pending : ∀ i v, s.stored (s.committed.length + i) = some v →
    i < s.queue.writeRun ∧ s.queue.mBuff (s.queue.mFirst + i) = v
  loads_committed : ∀ l ∈ s.loads, s.committed[l.1]? = some l.2

namespace PeerInv

variable {s t : PeerState α}

theorem start (memory : Nat → α) (capacity : Nat) :
    PeerInv (PeerState.start memory capacity) where
  wellFormed := FixedMemoryQueue.new_wellFormed memory capacity
  fifo := rfl
  write_done := Nat.le_refl 0
  write_grant h := absurd h (Nat.lt_irrefl 0)
  read_done := Nat.le_refl 0
  read_grant h := absurd h (Nat.lt_irrefl 0)
  stored_committed _ _ h := by cases h
  stored_pending _ _ h := by cases h
  loads_committed _ h := by cases h

theorem beginWrite (h : PeerInv s) {countMin : Nat}
    (hs : s.next (.beginWrite countMin) = some t) : PeerInv t := by
  obtain ⟨⟨buffer, count⟩, hg, rfl⟩ := Option.map_eq_some_iff.mp hs
  obtain ⟨-, rfl, rfl⟩ := FixedMemoryQueue.beginWrite_eq_some.mp hg
  exact { h with
    write_done := Nat.zero_le _
    write_grant := fun _ => ⟨rfl, Nat.le_refl _⟩ }

theorem beginRead (h : PeerInv s) {countMin : Nat}
    (hs : s.next (.beginRead countMin) = some t) : PeerInv t := by
  obtain ⟨⟨buffer, count⟩, hg, rfl⟩ := Option.map_eq_some_iff.mp hs
  obtain ⟨-, rfl, rfl⟩ := FixedMemoryQueue.beginRead_eq_some.mp hg
  exact { h with
    read_done := Nat.zero_le _
    read_grant := fun _ => ⟨rfl, Nat.le_refl _⟩ }

/-- The slot behind index `i` of the write grant. -/
theorem write_slot (h : PeerInv s) {i : Nat} (hlo : s.write.done ≤ i) (hhi : i < s.write.count) :
    s.write.buffer + i = s.queue.mFirst + (i - s.write.done) ∧
      i - s.write.done < s.queue.writeRun := by
  obtain ⟨hbuffer, hrun⟩ := h.write_grant (by omega)
  omega

theorem read_slot (h : PeerInv s) {i : Nat} (hlo : s.read.done ≤ i) (hhi : i < s.read.count) :
    s.read.buffer + i = s.queue.mLast + (i - s.read.done) ∧
      i - s.read.done < s.queue.readRun := by
  obtain ⟨hbuffer, hrun⟩ := h.read_grant (by omega)
  omega

theorem write_le_writeRun (h : PeerInv s) {count : Nat}
    (hg : s.write.done + count ≤ s.write.count) : count ≤ s.queue.writeRun := by
  by_cases hlt : s.write.done < s.write.count
  · have := (h.write_grant hlt).2; omega
  · omega

theorem read_le_readRun (h : PeerInv s) {count : Nat}
    (hg : s.read.done + count ≤ s.read.count) : count ≤ s.queue.readRun := by
  by_cases hlt : s.read.done < s.read.count
  · have := (h.read_grant hlt).2; omega
  · omega

theorem store (h : PeerInv s) {i : Nat} {v : α} (hg : s.WithinGrants (.store i v))
    (hs : s.next (.store i v) = some t) : PeerInv t := by
  obtain rfl := Option.some.inj hs
  obtain ⟨hslot, hrun⟩ := h.write_slot hg.1 hg.2
  exact { h with
    wellFormed := h.wellFormed.store _ _
    fifo := by
      rw [hslot]
      change s.committed = s.released ++ _
      rw [h.wellFormed.content_store v hrun]
      exact h.fifo
    stored_committed := by
      intro p w hp hlt
      change p < s.committed.length at hlt
      change Function.update s.stored _ _ p = some w at hp
      rw [Function.update_of_ne (by omega)] at hp
      exact h.stored_committed p w hp hlt
    stored_pending := by
      intro j w hj
      change Function.update s.stored _ _ (s.committed.length + j) = some w at hj
      change j < s.queue.writeRun ∧ Function.update s.queue.mBuff _ v (s.queue.mFirst + j) = w
      by_cases hji : j = i - s.write.done
      · subst hji
        rw [Function.update_self] at hj
        rw [hslot, Function.update_self]
        exact ⟨hrun, Option.some.inj hj⟩
      · rw [Function.update_of_ne (by omega)] at hj
        rw [Function.update_of_ne (by omega)]
        exact h.stored_pending j w hj }

theorem endWrite (h : PeerInv s) {count : Nat} (hg : s.WithinGrants (.endWrite count))
    (hs : s.next (.endWrite count) = some t) : PeerInv t := by
  obtain rfl := Option.some.inj hs
  change s.write.done + count ≤ s.write.count at hg
  have hcount := h.write_le_writeRun hg
  have hlen : (s.committed ++ straight s.queue.mBuff s.queue.mFirst count).length =
      s.committed.length + count := by simp
  exact { h with
    wellFormed := h.wellFormed.endWrite hcount
    fifo := by
      change s.committed ++ _ = s.released ++ _
      rw [h.wellFormed.content_endWrite hcount, ← List.append_assoc, ← h.fifo]
    write_done := hg
    write_grant := by
      intro hlt
      change s.write.done + count < s.write.count at hlt
      obtain ⟨hbuffer, hrun⟩ := h.write_grant (by omega)
      have hleft : count < s.queue.writeRun := by omega
      obtain ⟨hptr, hrun'⟩ := h.wellFormed.endWrite_run hleft
      change s.write.buffer + (s.write.done + count) = (s.queue.endWrite count).mFirst ∧
        s.write.count - (s.write.done + count) ≤ (s.queue.endWrite count).writeRun
      omega
    read_grant := by
      intro hlt
      obtain ⟨hbuffer, hrun⟩ := h.read_grant hlt
      exact ⟨hbuffer, hrun.trans (h.wellFormed.readRun_endWrite hcount)⟩
    stored_committed := by
      intro p v hp hlt
      change s.stored p = some v at hp
      change p < (s.committed ++ straight s.queue.mBuff s.queue.mFirst count).length at hlt
      change (s.committed ++ straight s.queue.mBuff s.queue.mFirst count)[p]? = some v
      rw [hlen] at hlt
      by_cases hold : p < s.committed.length
      · rw [List.getElem?_append_left hold]
        exact h.stored_committed p v hp hold
      · obtain ⟨i, rfl⟩ := Nat.exists_eq_add_of_le (Nat.le_of_not_lt hold)
        rw [List.getElem?_append_right (by omega), Nat.add_sub_cancel_left,
          straight_getElem _ _ _ _ (by omega)]
        exact congrArg some (h.stored_pending i v hp).2
    stored_pending := by
      intro i v hi
      change s.stored ((s.committed ++ straight s.queue.mBuff s.queue.mFirst count).length + i) =
        some v at hi
      rw [hlen, Nat.add_assoc] at hi
      obtain ⟨hrun, hmem⟩ := h.stored_pending (count + i) v hi
      have hleft : count < s.queue.writeRun := by omega
      obtain ⟨hptr, hrun'⟩ := h.wellFormed.endWrite_run hleft
      change i < (s.queue.endWrite count).writeRun ∧
        s.queue.mBuff ((s.queue.endWrite count).mFirst + i) = v
      rw [hptr, hrun', Nat.add_assoc]
      exact ⟨by omega, hmem⟩
    loads_committed := by
      intro l hl
      have hold := h.loads_committed l hl
      have hlt := (List.getElem?_eq_some_iff.mp hold).1
      exact (List.getElem?_append_left hlt).trans hold }

theorem load (h : PeerInv s) {i : Nat} (hg : s.WithinGrants (.load i))
    (hs : s.next (.load i) = some t) : PeerInv t := by
  obtain rfl := Option.some.inj hs
  obtain ⟨hslot, hrun⟩ := h.read_slot hg.1 hg.2
  exact { h with
    loads_committed := by
      intro l hl
      rcases List.mem_append.mp hl with hl | hl
      · exact h.loads_committed l hl
      · obtain rfl := List.mem_singleton.mp hl
        change s.committed[s.released.length + (i - s.read.done)]? =
          some (s.queue.mBuff (s.read.buffer + i))
        rw [h.fifo, List.getElem?_append_right (by omega), Nat.add_sub_cancel_left, hslot]
        exact h.wellFormed.content_getElem hrun }

theorem endRead (h : PeerInv s) {count : Nat} (hg : s.WithinGrants (.endRead count))
    (hs : s.next (.endRead count) = some t) : PeerInv t := by
  obtain rfl := Option.some.inj hs
  change s.read.done + count ≤ s.read.count at hg
  have hcount := h.read_le_readRun hg
  have hmore := h.wellFormed.writeRun_endRead hcount
  exact { h with
    wellFormed := h.wellFormed.endRead hcount
    fifo := by
      change s.committed = (s.released ++ _) ++ _
      rw [List.append_assoc, ← h.wellFormed.content_endRead hcount]
      exact h.fifo
    write_grant := by
      intro hlt
      obtain ⟨hbuffer, hrun⟩ := h.write_grant hlt
      exact ⟨hbuffer, hrun.trans hmore⟩
    read_done := hg
    read_grant := by
      intro hlt
      change s.read.done + count < s.read.count at hlt
      obtain ⟨hbuffer, hrun⟩ := h.read_grant (by omega)
      have hleft : count < s.queue.readRun := by omega
      obtain ⟨hptr, hrun'⟩ := h.wellFormed.endRead_run hleft
      change s.read.buffer + (s.read.done + count) = (s.queue.endRead count).mLast ∧
        s.read.count - (s.read.done + count) ≤ (s.queue.endRead count).readRun
      omega
    stored_pending := by
      intro i v hi
      obtain ⟨hrun, hmem⟩ := h.stored_pending i v hi
      exact ⟨Nat.lt_of_lt_of_le hrun hmore, hmem⟩ }

theorem next (h : PeerInv s) {a : PeerAction α} (hg : s.WithinGrants a)
    (hs : s.next a = some t) : PeerInv t := by
  cases a with
  | beginWrite countMin => exact h.beginWrite hs
  | store i v => exact h.store hg hs
  | endWrite count => exact h.endWrite hg hs
  | beginRead countMin => exact h.beginRead hs
  | load i => exact h.load hg hs
  | endRead count => exact h.endRead hg hs

private theorem write_inside (h : PeerInv s) : s.write.outstanding ⊆ Set.Iio s.queue.mEnd := by
  intro a ha
  obtain ⟨hlo, hhi⟩ := Set.mem_Ico.mp ha
  obtain ⟨hbuffer, hrun⟩ := h.write_grant (by omega)
  have := h.wellFormed.first_add_writeRun
  exact Set.mem_Iio.mpr (by omega)

private theorem read_inside (h : PeerInv s) : s.read.outstanding ⊆ Set.Iio s.queue.mEnd := by
  intro a ha
  obtain ⟨hlo, hhi⟩ := Set.mem_Ico.mp ha
  obtain ⟨hbuffer, hrun⟩ := h.read_grant (by omega)
  have := h.wellFormed.last_add_readRun
  exact Set.mem_Iio.mpr (by omega)

private theorem grants_disjoint
    (h : PeerInv s) : Disjoint s.write.outstanding s.read.outstanding := by
  rw [Set.disjoint_left]
  intro a hw hr
  obtain ⟨hwlo, hwhi⟩ := Set.mem_Ico.mp hw
  obtain ⟨hrlo, hrhi⟩ := Set.mem_Ico.mp hr
  obtain ⟨hwbuffer, hwrun⟩ := h.write_grant (by omega)
  obtain ⟨hrbuffer, hrrun⟩ := h.read_grant (by omega)
  have hle := h.wellFormed.readRun_le
  have hin := h.wellFormed.last_add_readRun
  have hfree := h.wellFormed.write_slot_free (i := a - s.queue.mFirst) (j := a - s.queue.mLast)
    (by omega) (by omega)
  rw [Nat.mod_eq_of_lt (by omega)] at hfree
  omega

end PeerInv

theorem peers_mEnd {s t : PeerState α} {a : PeerAction α} (hs : s.next a = some t) :
    t.queue.mEnd = s.queue.mEnd := by
  cases a with
  | beginWrite countMin => obtain ⟨g, -, rfl⟩ := Option.map_eq_some_iff.mp hs; rfl
  | beginRead countMin => obtain ⟨g, -, rfl⟩ := Option.map_eq_some_iff.mp hs; rfl
  | store i v => obtain rfl := Option.some.inj hs; rfl
  | endWrite count => obtain rfl := Option.some.inj hs; rfl
  | load i => obtain rfl := Option.some.inj hs; rfl
  | endRead count => obtain rfl := Option.some.inj hs; rfl

private theorem peers_invariant {capacity : Nat} {s : PeerState α}
    (h : (peers α capacity).Reachable s) : PeerInv s ∧ s.queue.mEnd = capacity := by
  apply h.invariant (I := fun s => PeerInv s ∧ s.queue.mEnd = capacity)
  · rintro s ⟨memory, rfl⟩
    exact ⟨.start memory capacity, rfl⟩
  · rintro s a t ⟨hinv, hcap⟩ ⟨hg, hs⟩
    exact ⟨hinv.next hg hs, (peers_mEnd hs).trans hcap⟩

/-- In every interleaving the outstanding grants are disjoint parts of the buffer, and the
committed stream is the released stream followed by the queue's content. Every element reaches
its position as the producer last stored it, and every load sees it there. -/
theorem peers_fifo (capacity : Nat) (s : PeerState α) (h : (peers α capacity).Reachable s) :
    (s.write.outstanding ⊆ Set.Iio capacity ∧ s.read.outstanding ⊆ Set.Iio capacity ∧
      Disjoint s.write.outstanding s.read.outstanding) ∧
    s.committed = s.released ++
      window s.queue.mBuff capacity s.queue.mLast s.queue.mSize ∧
    (∀ p v, s.stored p = some v → p < s.committed.length → s.committed[p]? = some v) ∧
    ∀ l ∈ s.loads, s.committed[l.1]? = some l.2 := by
  obtain ⟨hinv, rfl⟩ := peers_invariant h
  exact ⟨⟨hinv.write_inside, hinv.read_inside, hinv.grants_disjoint⟩, hinv.fifo,
    hinv.stored_committed, hinv.loads_committed⟩

/-- The calls of the test `border_cases`, with stores and loads in between. -/
def borderCases : List (PeerAction Nat) :=
  [.beginWrite 1, .store 0 1, .store 1 2, .store 2 3, .endWrite 3, .beginRead 1, .load 1,
    .endRead 2, .beginWrite 1, .store 0 4, .store 1 5, .endWrite 1, .endWrite 1, .beginWrite 1,
    .beginRead 1, .store 0 6, .endWrite 1, .beginWrite 1, .load 0, .endRead 2, .beginWrite 1]

def borderState : PeerState Nat :=
  (TransitionSystem.exec PeerState.WithinGrants PeerState.next (.start (fun _ => 0) 5)
    borderCases).get (by decide)

theorem peers_fifo_borderCases :
    (borderState.write.outstanding ⊆ Set.Iio 5 ∧ borderState.read.outstanding ⊆ Set.Iio 5 ∧
      Disjoint borderState.write.outstanding borderState.read.outstanding) ∧
    borderState.committed = borderState.released ++
      window borderState.queue.mBuff 5 borderState.queue.mLast borderState.queue.mSize ∧
    (∀ p v, borderState.stored p = some v → p < borderState.committed.length →
      borderState.committed[p]? = some v) ∧
    ∀ l ∈ borderState.loads, borderState.committed[l.1]? = some l.2 :=
  peers_fifo 5 borderState (.run (.init ⟨fun _ => 0, rfl⟩)
    (TransitionSystem.run_of_exec (Option.some_get _).symm))

example : borderState.committed = [1, 2, 3, 4, 5, 6] ∧ borderState.released = [1, 2, 3, 4] := by
  decide

end Dyplo
