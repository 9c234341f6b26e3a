import Dyplo.Queue.Peers

/-!
# Peers that move whole blocks

A `StaticProcessor` asks its queues for `blocksize` elements and ends with `blocksize`, whatever
count it was given. The wait looks at the total fill, the count stops at the buffer end: the
block is contiguous in every run exactly when the block size divides the capacity.
-/

namespace Dyplo

/-- How a peer uses its side of the queue: with arbitrary counts inside its grants, or one block
after the other. -/
inductive Discipline
  | free
  | blocks (blocksize : Nat)

namespace Discipline

/-- `busy` says that the peer is between its `begin_*` and its `end_*`. -/
def AllowsBegin (busy : Bool) (countMin : Nat) : Discipline → Prop
  | free => True
  | blocks b => busy = false ∧ countMin = b

/-- A blockwise peer does not look at the granted count. -/
def AllowsEnd (busy : Bool) (g : Grant) (count : Nat) : Discipline → Prop
  | free => g.done + count ≤ g.count
  | blocks b => busy = true ∧ count = b

/-- The capacity holds a whole number of the peer's blocks. -/
def Divides (capacity : Nat) : Discipline → Prop
  | free => True
  | blocks b => b ∣ capacity

end Discipline

structure BlockState (α : Type*) where
  peers : PeerState α
  writing : Bool
  reading : Bool

variable {α : Type*}

namespace BlockState

def Allowed (writer reader : Discipline) (s : BlockState α) : PeerAction α → Prop
  | .beginWrite countMin => writer.AllowsBegin s.writing countMin
  | .store i v => s.peers.WithinGrants (.store i v)
  | .endWrite count => writer.AllowsEnd s.writing s.peers.write count
  | .beginRead countMin => reader.AllowsBegin s.reading countMin
  | .load i => s.peers.WithinGrants (.load i)
  | .endRead count => reader.AllowsEnd s.reading s.peers.read count

def next (s : BlockState α) (a : PeerAction α) : Option (BlockState α) :=
  (s.peers.next a).map fun p =>
    match a with
    | .beginWrite _ => { s with peers := p, writing := true }
    | .endWrite _ => { s with peers := p, writing := false }
    | .beginRead _ => { s with peers := p, reading := true }
    | .endRead _ => { s with peers := p, reading := false }
    | _ => { s with peers := p }

end BlockState

/-- Every interleaving of a producer and a consumer with the given disciplines. -/
def blockPeers (memory : Nat → α) (capacity : Nat) (writer reader : Discipline) :
    TransitionSystem (BlockState α) (PeerAction α) :=
  .ofNext (fun s => s = ⟨.start memory capacity, false, false⟩)
    (BlockState.Allowed writer reader) BlockState.next

namespace FixedMemoryQueue.WellFormed

variable {q : FixedMemoryQueue α} {b : Nat}

private theorem le_sub_of_dvd {m n : Nat} (hm : b ∣ m) (hn : b ∣ n) (h : m < n) : b ≤ n - m :=
  Nat.le_of_dvd (by omega) (Nat.dvd_sub hn hm)

/-- An aligned read pointer sees every block of a divisible buffer in one piece. -/
theorem block_le_readRun (h : q.WellFormed) (hlast : b ∣ q.mLast) (hcap : b ∣ q.mEnd)
    (hsize : b ≤ q.mSize) : b ≤ q.readRun := by
  rw [h.readRun_eq]
  refine le_min hsize ?_
  have hle := h.size_le
  have hlt := h.last_lt
  rcases Nat.eq_zero_or_pos q.mEnd with hzero | hpos
  · omega
  · exact le_sub_of_dvd hlast hcap (by omega)

/-- An aligned write pointer sees room for every block of a divisible buffer in one piece. -/
theorem block_le_writeRun (h : q.WellFormed) (hfirst : b ∣ q.mFirst) (hcap : b ∣ q.mEnd)
    (hroom : b ≤ q.available) : b ≤ q.writeRun := by
  rw [h.writeRun_eq]
  refine le_min hroom ?_
  have hlt := h.first_lt
  have hle : q.available ≤ q.mEnd := Nat.sub_le _ _
  rcases Nat.eq_zero_or_pos q.mEnd with hzero | hpos
  · omega
  · exact le_sub_of_dvd hfirst hcap (by omega)

end FixedMemoryQueue.WellFormed

theorem FixedMemoryQueue.dvd_increment {q : FixedMemoryQueue α} {b what count : Nat}
    (h : b ∣ what) (hcount : b ∣ count) : b ∣ q.increment what count := by
  unfold increment
  split
  · exact Nat.dvd_zero b
  · exact Nat.dvd_add h hcount

/-- A blockwise peer keeps its pointer aligned, and between `begin_*` and `end_*` it holds a
whole untouched block. -/
def AlignedSide (d : Discipline) (busy : Bool) (g : Grant) (pointer : Nat) : Prop :=
  match d with
  | .free => True
  | .blocks b => b ∣ pointer ∧ (busy = true → g.done = 0 ∧ b ≤ g.count)

structure BlockInv (capacity : Nat) (writer reader : Discipline) (s : BlockState α) : Prop where
  peers : PeerInv s.peers
  capacity : s.peers.queue.mEnd = capacity
  writer : AlignedSide writer s.writing s.peers.write s.peers.queue.mFirst
  reader : AlignedSide reader s.reading s.peers.read s.peers.queue.mLast

namespace BlockInv

variable {capacity : Nat} {writer reader : Discipline} {s t : BlockState α}

private theorem withinGrants (h : BlockInv capacity writer reader s) {a : PeerAction α}
    (ha : s.Allowed writer reader a) : s.peers.WithinGrants a := by
  cases a with
  | beginWrite countMin => trivial
  | store i v => exact ha
  | endWrite count =>
    cases writer with
    | free => exact ha
    | blocks b =>
      obtain ⟨hbusy, rfl⟩ := ha
      obtain ⟨hdone, hle⟩ := h.writer.2 hbusy
      change _ + count ≤ _
      omega
  | beginRead countMin => trivial
  | load i => exact ha
  | endRead count =>
    cases reader with
    | free => exact ha
    | blocks b =>
      obtain ⟨hbusy, rfl⟩ := ha
      obtain ⟨hdone, hle⟩ := h.reader.2 hbusy
      change _ + count ≤ _
      omega

private theorem next (h : BlockInv capacity writer reader s) (hw : writer.Divides capacity)
    (hr : reader.Divides capacity) {a : PeerAction α} (ha : s.Allowed writer reader a)
    (hs : s.next a = some t) : BlockInv capacity writer reader t := by
  have hgrant := h.withinGrants ha
  obtain ⟨p, hp, rfl⟩ := Option.map_eq_some_iff.mp hs
  have hpeers := h.peers.next hgrant hp
  have hcap := (peers_mEnd hp).trans h.capacity
  obtain ⟨hinv, hend, hwriter, hreader⟩ := h
  cases a with
  | beginWrite countMin =>
    obtain ⟨⟨buffer, count⟩, hg, rfl⟩ := Option.map_eq_some_iff.mp hp
    obtain ⟨hroom, rfl, rfl⟩ := FixedMemoryQueue.beginWrite_eq_some.mp hg
    refine ⟨hpeers, hcap, ?_, hreader⟩
    cases writer with
    | free => trivial
    | blocks b =>
      obtain ⟨-, rfl⟩ := ha
      exact ⟨hwriter.1, fun _ => ⟨rfl,
        hinv.wellFormed.block_le_writeRun hwriter.1 (hend ▸ hw) hroom⟩⟩
  | store i v =>
    obtain rfl := Option.some.inj hp
    exact ⟨hpeers, hcap, hwriter, hreader⟩
  | endWrite count =>
    obtain rfl := Option.some.inj hp
    refine ⟨hpeers, hcap, ?_, hreader⟩
    cases writer with
    | free => trivial
    | blocks b =>
      obtain ⟨-, rfl⟩ := ha
      exact ⟨FixedMemoryQueue.dvd_increment hwriter.1 (Nat.dvd_refl _), nofun⟩
  | beginRead countMin =>
    obtain ⟨⟨buffer, count⟩, hg, rfl⟩ := Option.map_eq_some_iff.mp hp
    obtain ⟨hsize, rfl, rfl⟩ := FixedMemoryQueue.beginRead_eq_some.mp hg
    refine ⟨hpeers, hcap, hwriter, ?_⟩
    cases reader with
    | free => trivial
    | blocks b =>
      obtain ⟨-, rfl⟩ := ha
      exact ⟨hreader.1, fun _ => ⟨rfl,
        hinv.wellFormed.block_le_readRun hreader.1 (hend ▸ hr) hsize⟩⟩
  | load i =>
    obtain rfl := Option.some.inj hp
    exact ⟨hpeers, hcap, hwriter, hreader⟩
  | endRead count =>
    obtain rfl := Option.some.inj hp
    refine ⟨hpeers, hcap, hwriter, ?_⟩
    cases reader with
    | free => trivial
    | blocks b =>
      obtain ⟨-, rfl⟩ := ha
      exact ⟨FixedMemoryQueue.dvd_increment hreader.1 (Nat.dvd_refl _), nofun⟩

private theorem start (memory : Nat → α) (capacity : Nat) (writer reader : Discipline) :
    BlockInv capacity writer reader ⟨.start memory capacity, false, false⟩ := by
  refine ⟨.start memory capacity, rfl, ?_, ?_⟩
  · cases writer with
    | free => trivial
    | blocks b => exact ⟨Nat.dvd_zero b, nofun⟩
  · cases reader with
    | free => trivial
    | blocks b => exact ⟨Nat.dvd_zero b, nofun⟩

end BlockInv

theorem blockPeers_invariant {memory : Nat → α} {capacity : Nat} {writer reader : Discipline}
    (hw : writer.Divides capacity) (hr : reader.Divides capacity) {s : BlockState α}
    (h : (blockPeers memory capacity writer reader).Reachable s) :
    BlockInv capacity writer reader s := by
  apply h.invariant (I := BlockInv capacity writer reader)
  · rintro s rfl
    exact .start memory capacity writer reader
  · rintro s a t hinv ⟨ha, hs⟩
    exact hinv.next hw hr ha hs

section Unaligned

variable {memory : Nat → α} {capacity b first last size : Nat} {writer reader : Discipline}

/-- Both peers are idle and the queue stands at these cursors. -/
private structure IdleAt (s : BlockState α) (capacity first last size : Nat) : Prop where
  mEnd : s.peers.queue.mEnd = capacity
  mFirst : s.peers.queue.mFirst = first
  mLast : s.peers.queue.mLast = last
  mSize : s.peers.queue.mSize = size
  writing : s.writing = false
  reading : s.reading = false

private theorem next_beginRead (s : BlockState α) {n : Nat} (hn : n ≤ s.peers.queue.mSize) :
    s.next (.beginRead n) = some { s with
      peers := { s.peers with read := ⟨s.peers.queue.mLast, s.peers.queue.readRun, 0⟩ }
      reading := true } := by
  have hg := FixedMemoryQueue.beginRead_eq_some.mpr
    (And.intro hn (And.intro (Eq.refl s.peers.queue.mLast) (Eq.refl s.peers.queue.readRun)))
  simp only [BlockState.next, PeerState.next, hg, Option.map_some]

private theorem next_beginWrite (s : BlockState α) {n : Nat}
    (hn : n ≤ s.peers.queue.available) :
    s.next (.beginWrite n) = some { s with
      peers := { s.peers with write := ⟨s.peers.queue.mFirst, s.peers.queue.writeRun, 0⟩ }
      writing := true } := by
  have hg := FixedMemoryQueue.beginWrite_eq_some.mpr
    (And.intro hn (And.intro (Eq.refl s.peers.queue.mFirst) (Eq.refl s.peers.queue.writeRun)))
  simp only [BlockState.next, PeerState.next, hg, Option.map_some]

private theorem read_run (n : Nat)
    (h : ∃ s, (blockPeers memory capacity writer reader).Reachable s ∧
      IdleAt s capacity first last size)
    (hn : n ≤ size) (hin : last + n < capacity) (hbegin : reader.AllowsBegin false n)
    (hend : ∀ q : FixedMemoryQueue α, q.mEnd = capacity → q.mFirst = first → q.mLast = last →
      q.mSize = size → reader.AllowsEnd true ⟨last, q.readRun, 0⟩ n) :
    ∃ s, (blockPeers memory capacity writer reader).Reachable s ∧
      IdleAt s capacity first (last + n) (size - n) := by
  obtain ⟨s, hs, hidle⟩ := h
  rw [← hidle.reading] at hbegin
  have hfirst := hs.step (a := PeerAction.beginRead n)
    ⟨hbegin, next_beginRead s (hidle.mSize ▸ hn)⟩
  have hallowed := hend s.peers.queue hidle.mEnd hidle.mFirst hidle.mLast hidle.mSize
  rw [← hidle.mLast] at hallowed
  refine ⟨_, hfirst.step (a := .endRead n) ⟨hallowed, rfl⟩,
    hidle.mEnd, hidle.mFirst, ?_, ?_, hidle.writing, rfl⟩
  · change s.peers.queue.increment s.peers.queue.mLast n = last + n
    rw [FixedMemoryQueue.increment, hidle.mLast, hidle.mEnd, if_neg (by omega)]
  · exact congrArg (· - n) hidle.mSize

private theorem write_run (n : Nat)
    (h : ∃ s, (blockPeers memory capacity writer reader).Reachable s ∧
      IdleAt s capacity first last size)
    (hn : n ≤ capacity - size) (hbegin : writer.AllowsBegin false n)
    (hend : ∀ q : FixedMemoryQueue α, q.mEnd = capacity → q.mFirst = first → q.mLast = last →
      q.mSize = size → writer.AllowsEnd true ⟨first, q.writeRun, 0⟩ n) :
    ∃ s, (blockPeers memory capacity writer reader).Reachable s ∧
      IdleAt s capacity (if first + n = capacity then 0 else first + n) last (size + n) := by
  obtain ⟨s, hs, hidle⟩ := h
  have hroom : n ≤ s.peers.queue.available := by
    rw [FixedMemoryQueue.available, FixedMemoryQueue.capacity, FixedMemoryQueue.size,
      hidle.mEnd, hidle.mSize]
    exact hn
  rw [← hidle.writing] at hbegin
  have hfirst := hs.step (a := PeerAction.beginWrite n) ⟨hbegin, next_beginWrite s hroom⟩
  have hallowed := hend s.peers.queue hidle.mEnd hidle.mFirst hidle.mLast hidle.mSize
  rw [← hidle.mFirst] at hallowed
  refine ⟨_, hfirst.step (a := .endWrite n) ⟨hallowed, rfl⟩,
    hidle.mEnd, ?_, hidle.mLast, ?_, rfl, hidle.reading⟩
  · change s.peers.queue.increment s.peers.queue.mFirst n = _
    rw [FixedMemoryQueue.increment, hidle.mFirst, hidle.mEnd]
  · exact congrArg (· + n) hidle.mSize

private theorem start_idle (memory : Nat → α) (capacity : Nat) (writer reader : Discipline) :
    ∃ s, (blockPeers memory capacity writer reader).Reachable s ∧ IdleAt s capacity 0 0 0 :=
  ⟨_, .init rfl, rfl, rfl, rfl, rfl, rfl, rfl⟩

private theorem quotient_bounds (hb : 1 ≤ b) (hC : b ≤ capacity) (hdvd : ¬ b ∣ capacity) :
    capacity = capacity / b * b + capacity % b ∧ 0 < capacity % b ∧ capacity % b < b ∧
      b ≤ capacity / b * b := by
  have hdiv : capacity / b * b + capacity % b = capacity := by
    rw [Nat.mul_comm]; exact Nat.div_add_mod capacity b
  have hpos : capacity % b ≠ 0 := fun h => hdvd (Nat.dvd_of_mod_eq_zero h)
  have hlt := Nat.mod_lt capacity (show b > 0 from hb)
  have hone : 1 ≤ capacity / b := (Nat.one_le_div_iff hb).mpr hC
  have hmul : 1 * b ≤ capacity / b * b := Nat.mul_le_mul_right b hone
  omega

/-- The queue is filled once and read in blocks until less than one block is left before the
buffer end. -/
private theorem read_blocks (memory : Nat → α) (hb : 1 ≤ b) (hC : b ≤ capacity)
    (hdvd : ¬ b ∣ capacity) (i : Nat) (hi : i ≤ capacity / b) :
    ∃ s, (blockPeers memory capacity .free (.blocks b)).Reachable s ∧
      IdleAt s capacity 0 (i * b) (capacity - i * b) := by
  have hq := quotient_bounds hb hC hdvd
  induction i with
  | zero =>
    have hfull := write_run capacity (start_idle memory capacity .free (.blocks b))
      (Nat.le_refl _) trivial (by
        intro q hend hfirst hlast hsize
        change 0 + capacity ≤ q.writeRun
        rw [FixedMemoryQueue.writeRun, hend, hfirst, hlast, hsize]
        simp)
    simpa using hfull
  | succ i ih =>
    have hmul : (i + 1) * b ≤ capacity / b * b := Nat.mul_le_mul_right b hi
    rw [Nat.succ_mul] at hmul ⊢
    have hnext := read_run b (ih (by omega)) (by omega) (by omega) ⟨rfl, rfl⟩
      (fun _ _ _ _ _ => ⟨rfl, rfl⟩)
    rwa [Nat.sub_sub] at hnext

private theorem exists_short_read (memory : Nat → α) (hb : 1 ≤ b) (hC : b ≤ capacity)
    (hdvd : ¬ b ∣ capacity) :
    ∃ s t, (blockPeers memory capacity .free (.blocks b)).Reachable s ∧
      (blockPeers memory capacity .free (.blocks b)).step s (.beginRead b) t ∧
      t.peers.read.count < b := by
  obtain ⟨hsum, hpos, hlt, hle⟩ := quotient_bounds hb hC hdvd
  obtain ⟨s, hs, hidle⟩ := write_run b (read_blocks memory hb hC hdvd _ le_rfl)
    (by omega) trivial (by
      intro q hend hfirst hlast hsize
      change 0 + b ≤ q.writeRun
      rw [FixedMemoryQueue.writeRun, hend, hfirst, hlast, if_pos (by omega)]
      omega)
  rw [if_neg (by omega)] at hidle
  refine ⟨s, _, hs, ⟨⟨hidle.reading, rfl⟩, next_beginRead s ?_⟩, ?_⟩
  · rw [hidle.mSize]; omega
  · change s.peers.queue.readRun < b
    rw [FixedMemoryQueue.readRun, hidle.mEnd, hidle.mFirst, hidle.mLast, hidle.mSize,
      if_neg (by omega), if_pos (by omega)]
    omega

/-- The producer writes blocks until less than one block of room is left before the buffer
end. -/
private theorem write_blocks (memory : Nat → α) (hb : 1 ≤ b) (hC : b ≤ capacity)
    (hdvd : ¬ b ∣ capacity) (i : Nat) (hi : i ≤ capacity / b) :
    ∃ s, (blockPeers memory capacity (.blocks b) .free).Reachable s ∧
      IdleAt s capacity (i * b) 0 (i * b) := by
  have hq := quotient_bounds hb hC hdvd
  induction i with
  | zero => simpa using start_idle memory capacity (.blocks b) .free
  | succ i ih =>
    have hmul : (i + 1) * b ≤ capacity / b * b := Nat.mul_le_mul_right b hi
    rw [Nat.succ_mul] at hmul ⊢
    have hnext := write_run b (ih (by omega)) (by omega) ⟨rfl, rfl⟩
      (fun _ _ _ _ _ => ⟨rfl, rfl⟩)
    rwa [if_neg (by omega)] at hnext

private theorem exists_short_write (memory : Nat → α) (hb : 1 ≤ b) (hC : b ≤ capacity)
    (hdvd : ¬ b ∣ capacity) :
    ∃ s t, (blockPeers memory capacity (.blocks b) .free).Reachable s ∧
      (blockPeers memory capacity (.blocks b) .free).step s (.beginWrite b) t ∧
      t.peers.write.count < b := by
  obtain ⟨hsum, hpos, hlt, hle⟩ := quotient_bounds hb hC hdvd
  obtain ⟨s, hs, hidle⟩ := read_run b (write_blocks memory hb hC hdvd _ le_rfl)
    (by omega) (by omega) trivial (by
      intro q hend hfirst hlast hsize
      change 0 + b ≤ q.readRun
      rw [FixedMemoryQueue.readRun, hfirst, hlast, if_pos (by omega)]
      omega)
  refine ⟨s, _, hs, ⟨⟨hidle.writing, rfl⟩, next_beginWrite s ?_⟩, ?_⟩
  · rw [FixedMemoryQueue.available, FixedMemoryQueue.capacity, FixedMemoryQueue.size,
      hidle.mEnd, hidle.mSize]
    omega
  · change s.peers.queue.writeRun < b
    rw [FixedMemoryQueue.writeRun, hidle.mEnd, hidle.mFirst, hidle.mLast, hidle.mSize]
    split_ifs <;> omega

end Unaligned

/-- `StaticProcessor` may rely on contiguous blocks of `b` exactly when `b` divides the
capacity: on the read side against any producer, and on the write side against any consumer. -/
theorem block_contiguity (memory : Nat → α) (b capacity : Nat) (hb : 1 ≤ b)
    (hC : b ≤ capacity) :
    ((∀ s t, (blockPeers memory capacity .free (.blocks b)).Reachable s →
        (blockPeers memory capacity .free (.blocks b)).step s (.beginRead b) t →
        b ≤ t.peers.read.count) ↔ b ∣ capacity) ∧
    ((∀ s t, (blockPeers memory capacity (.blocks b) .free).Reachable s →
        (blockPeers memory capacity (.blocks b) .free).step s (.beginWrite b) t →
        b ≤ t.peers.write.count) ↔ b ∣ capacity) := by
  refine ⟨⟨?_, ?_⟩, ⟨?_, ?_⟩⟩
  · intro hall
    by_contra hdvd
    obtain ⟨s, t, hs, hst, hshort⟩ := exists_short_read memory hb hC hdvd
    exact absurd (hall s t hs hst) (by omega)
  · intro hdvd s t hs hst
    have hblocks : (Discipline.blocks b).Divides capacity := hdvd
    have hfree : Discipline.free.Divides capacity := trivial
    have hinv := blockPeers_invariant hfree hblocks (hs.step hst)
    obtain ⟨p, -, rfl⟩ := Option.map_eq_some_iff.mp hst.2
    exact (hinv.reader.2 rfl).2
  · intro hall
    by_contra hdvd
    obtain ⟨s, t, hs, hst, hshort⟩ := exists_short_write memory hb hC hdvd
    exact absurd (hall s t hs hst) (by omega)
  · intro hdvd s t hs hst
    have hblocks : (Discipline.blocks b).Divides capacity := hdvd
    have hfree : Discipline.free.Divides capacity := trivial
    have hinv := blockPeers_invariant hblocks hfree (hs.step hst)
    obtain ⟨p, -, rfl⟩ := Option.map_eq_some_iff.mp hst.2
    exact (hinv.writer.2 rfl).2

theorem block_contiguity_two_five :
    ((∀ s t, (blockPeers (fun _ => 0) 5 .free (.blocks 2)).Reachable s →
        (blockPeers (fun _ => 0) 5 .free (.blocks 2)).step s (.beginRead 2) t →
        2 ≤ t.peers.read.count) ↔ 2 ∣ 5) ∧
    ((∀ s t, (blockPeers (fun _ => 0) 5 (.blocks 2) .free).Reachable s →
        (blockPeers (fun _ => 0) 5 (.blocks 2) .free).step s (.beginWrite 2) t →
        2 ≤ t.peers.write.count) ↔ 2 ∣ 5) :=
  block_contiguity (fun _ => (0 : Nat)) 2 5 (by decide) (by decide)

end Dyplo
