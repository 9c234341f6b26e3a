import Dyplo.Queue.Blocks

/-!
# Blockwise peers never block each other

What has been committed is a whole number of the producer's blocks and what has been released a
whole number of the consumer's, so the fill level cannot stop between "too full to write" and
"too empty to read".
-/

namespace Dyplo

variable {α : Type*}

private theorem two_mul_le_of_dvd {b C : Nat} (hC : 0 < C) (hdvd : b ∣ C) (hne : b ≠ C) :
    2 * b ≤ C := by
  obtain ⟨k, rfl⟩ := hdvd
  have hk : 2 ≤ k := by
    rcases k with - | - | k
    · simp at hC
    · simp at hne
    · omega
  rw [Nat.mul_comm b k]
  exact Nat.mul_le_mul_right b hk

/-- A fill level between whole blocks of both kinds leaves room for a block or holds one. -/
theorem block_room_or_content {bw br C size written read : Nat} (hC : 0 < C) (hbw : bw ∣ C)
    (hbr : br ∣ C) (hwritten : bw ∣ written) (hread : br ∣ read) (hsum : written = read + size)
    (hsize : size ≤ C) : bw ≤ C - size ∨ br ≤ size := by
  by_cases hw : bw = C
  · -- everything written fills whole buffers, so the fill level is a number of read blocks
    have hdvd : br ∣ size := by
      have hwhole : br ∣ read + size := hsum ▸ Nat.dvd_trans hbr (hw ▸ hwritten)
      exact (Nat.dvd_add_right hread).mp hwhole
    rcases Nat.eq_zero_or_pos size with hzero | hpos
    · left; omega
    · right; exact Nat.le_of_dvd hpos hdvd
  · by_cases hr : br = C
    · have hdvd : bw ∣ C - size := by
        have hwhole : bw ∣ read := Nat.dvd_trans hbw (hr ▸ hread)
        have hfill : bw ∣ size := (Nat.dvd_add_right hwhole).mp (hsum ▸ hwritten)
        exact Nat.dvd_sub hbw hfill
      rcases Nat.eq_zero_or_pos (C - size) with hzero | hpos
      · right; omega
      · left; exact Nat.le_of_dvd hpos hdvd
    · -- both blocks are at most half of the buffer
      have hw2 := two_mul_le_of_dvd hC hbw hw
      have hr2 := two_mul_le_of_dvd hC hbr hr
      omega

/-- Both peers have moved whole blocks only. -/
structure WholeBlocks (bw br : Nat) (s : BlockState α) : Prop where
  committed : bw ∣ s.peers.committed.length
  released : br ∣ s.peers.released.length

private theorem WholeBlocks.next {bw br : Nat} {s t : BlockState α} (h : WholeBlocks bw br s)
    {a : PeerAction α} (ha : s.Allowed (.blocks bw) (.blocks br) a) (hs : s.next a = some t) :
    WholeBlocks bw br t := by
  obtain ⟨p, hp, rfl⟩ := Option.map_eq_some_iff.mp hs
  cases a with
  | beginWrite countMin => obtain ⟨g, -, rfl⟩ := Option.map_eq_some_iff.mp hp; exact ⟨h.1, h.2⟩
  | beginRead countMin => obtain ⟨g, -, rfl⟩ := Option.map_eq_some_iff.mp hp; exact ⟨h.1, h.2⟩
  | store i v => obtain rfl := Option.some.inj hp; exact ⟨h.1, h.2⟩
  | load i => obtain rfl := Option.some.inj hp; exact ⟨h.1, h.2⟩
  | endWrite count =>
    obtain ⟨-, rfl⟩ := ha
    obtain rfl := Option.some.inj hp
    refine ⟨?_, h.2⟩
    change count ∣ (s.peers.committed ++ _).length
    rw [List.length_append, CyclicBuffer.straight_length]
    exact Nat.dvd_add h.committed (Nat.dvd_refl count)
  | endRead count =>
    obtain ⟨-, rfl⟩ := ha
    obtain rfl := Option.some.inj hp
    refine ⟨h.1, ?_⟩
    change count ∣ (s.peers.released ++ _).length
    rw [List.length_append, CyclicBuffer.straight_length]
    exact Nat.dvd_add h.released (Nat.dvd_refl count)

private theorem wholeBlocks_of_reachable {memory : Nat → α} {capacity bw br : Nat}
    {s : BlockState α}
    (h : (blockPeers memory capacity (.blocks bw) (.blocks br)).Reachable s) :
    WholeBlocks bw br s := by
  apply h.invariant (I := WholeBlocks bw br)
  · rintro s rfl
    exact ⟨Nat.dvd_zero bw, Nat.dvd_zero br⟩
  · rintro s a t hinv ⟨ha, hs⟩
    exact hinv.next ha hs

/-- In a buffer with room for at least one element, one of the two peers can always go on:
`begin_write` and `begin_read` of a block never have to wait at the same time. -/
theorem block_peers_progress (memory : Nat → α) (capacity bw br : Nat) (hpos : 1 ≤ capacity)
    (hw : bw ∣ capacity) (hr : br ∣ capacity) (s : BlockState α)
    (h : (blockPeers memory capacity (.blocks bw) (.blocks br)).Reachable s) :
    (bw ≤ s.peers.queue.available ∨ br ≤ s.peers.queue.size) ∧
      ¬ (s.peers.queue.beginWrite bw = none ∧ s.peers.queue.beginRead br = none) := by
  have hwriter : (Discipline.blocks bw).Divides capacity := hw
  have hreader : (Discipline.blocks br).Divides capacity := hr
  have hinv := blockPeers_invariant hwriter hreader h
  have hwhole := wholeBlocks_of_reachable h
  have hsum : s.peers.committed.length = s.peers.released.length + s.peers.queue.mSize := by
    rw [hinv.peers.fifo, List.length_append, FixedMemoryQueue.content_length]
  have hsize : s.peers.queue.mSize ≤ capacity := hinv.capacity ▸ hinv.peers.wellFormed.size_le
  have hroom := block_room_or_content hpos hw hr hwhole.committed hwhole.released hsum hsize
  have hprogress : bw ≤ s.peers.queue.available ∨ br ≤ s.peers.queue.size := by
    rw [FixedMemoryQueue.available, FixedMemoryQueue.capacity, hinv.capacity]
    exact hroom
  refine ⟨hprogress, ?_⟩
  rintro ⟨hwait, hwait'⟩
  simp only [FixedMemoryQueue.beginWrite, FixedMemoryQueue.beginRead, ite_eq_left_iff,
    reduceCtorEq, imp_false, not_not] at hwait hwait'
  omega

/-- Blocks of two and of three elements in a buffer of six, after one block has been written. -/
theorem block_peers_progress_two_three :
    ∃ s : BlockState Nat, s.peers.queue.mSize = 2 ∧
      (2 ≤ s.peers.queue.available ∨ 3 ≤ s.peers.queue.size) ∧
      ¬ (s.peers.queue.beginWrite 2 = none ∧ s.peers.queue.beginRead 3 = none) := by
  have hstart : (blockPeers (fun _ => 0) 6 (.blocks 2) (.blocks 3)).Reachable
      (⟨.start (fun _ => 0) 6, false, false⟩ : BlockState Nat) := .init rfl
  have hbegin := hstart.step (a := PeerAction.beginWrite 2)
    ⟨(show false = false ∧ 2 = 2 from ⟨rfl, rfl⟩), rfl⟩
  have hend := hbegin.step (a := PeerAction.endWrite 2)
    ⟨(show true = true ∧ 2 = 2 from ⟨rfl, rfl⟩), rfl⟩
  exact ⟨_, rfl, block_peers_progress (fun _ => 0) 6 2 3 (by decide) (by decide) (by decide) _ hend⟩

/-- Every block size divides a capacity of zero, and there both peers wait from the start. -/
theorem block_peers_empty_buffer :
    1 ∣ 0 ∧ ∃ s, (blockPeers (fun _ => (0 : Nat)) 0 (.blocks 1) (.blocks 1)).Reachable s ∧
      ¬ (1 ≤ s.peers.queue.available ∨ 1 ≤ s.peers.queue.size) ∧
      s.peers.queue.beginWrite 1 = none ∧ s.peers.queue.beginRead 1 = none :=
  ⟨by decide, _, .init rfl, by decide, rfl, rfl⟩

end Dyplo
