import Dyplo.Queue.Blocks

/-!
# What one peer's steps leave alone

Each peer relies on the other one to keep its pointer, its grant and its slots as they are.
-/

namespace Dyplo

open CyclicBuffer

variable {α : Type*}

/-- What the producer's steps keep: the consumer's side, and the content up to an addition at
its end. -/
structure ProducerMoves (p p' : PeerState α) : Prop where
  mEnd : p'.queue.mEnd = p.queue.mEnd
  mLast : p'.queue.mLast = p.queue.mLast
  read : p'.read = p.read
  released : p'.released = p.released
  content : p.queue.content <+: p'.queue.content

/-- What the consumer's steps keep: the producer's side and the memory. -/
structure ConsumerMoves (p p' : PeerState α) : Prop where
  mEnd : p'.queue.mEnd = p.queue.mEnd
  mFirst : p'.queue.mFirst = p.queue.mFirst
  mBuff : p'.queue.mBuff = p.queue.mBuff
  write : p'.write = p.write
  committed : p'.committed = p.committed

theorem ProducerMoves.refl (p : PeerState α) : ProducerMoves p p :=
  ⟨rfl, rfl, rfl, rfl, List.prefix_refl _⟩

theorem ConsumerMoves.refl (p : PeerState α) : ConsumerMoves p p := ⟨rfl, rfl, rfl, rfl, rfl⟩

namespace PeerInv

variable {p p' : PeerState α}

theorem beginWrite_moves {countMin : Nat} (hs : p.next (.beginWrite countMin) = some p') :
    ProducerMoves p p' := by
  obtain ⟨g, -, rfl⟩ := Option.map_eq_some_iff.mp hs
  exact ⟨rfl, rfl, rfl, rfl, List.prefix_refl _⟩

theorem store_moves (h : PeerInv p) {i : Nat} {v : α} (hg : p.WithinGrants (.store i v))
    (hs : p.next (.store i v) = some p') : ProducerMoves p p' := by
  obtain rfl := Option.some.inj hs
  obtain ⟨hslot, hrun⟩ := h.write_slot hg.1 hg.2
  refine ⟨rfl, rfl, rfl, rfl, ?_⟩
  change _ <+: (p.queue.store (p.write.buffer + i) v).content
  rw [hslot]
  exact (h.wellFormed.content_store v hrun).symm ▸ List.prefix_refl _

theorem endWrite_moves (h : PeerInv p) {count : Nat} (hg : p.WithinGrants (.endWrite count))
    (hs : p.next (.endWrite count) = some p') : ProducerMoves p p' := by
  obtain rfl := Option.some.inj hs
  refine ⟨rfl, rfl, rfl, rfl, ?_⟩
  change _ <+: (p.queue.endWrite count).content
  rw [h.wellFormed.content_endWrite (h.write_le_writeRun hg)]
  exact List.prefix_append _ _

theorem beginRead_moves {countMin : Nat} (hs : p.next (.beginRead countMin) = some p') :
    ConsumerMoves p p' := by
  obtain ⟨g, -, rfl⟩ := Option.map_eq_some_iff.mp hs
  exact ⟨rfl, rfl, rfl, rfl, rfl⟩

theorem load_moves {i : Nat} (hs : p.next (.load i) = some p') : ConsumerMoves p p' := by
  obtain rfl := Option.some.inj hs
  exact ⟨rfl, rfl, rfl, rfl, rfl⟩

theorem endRead_moves {count : Nat} (hs : p.next (.endRead count) = some p') :
    ConsumerMoves p p' := by
  obtain rfl := Option.some.inj hs
  exact ⟨rfl, rfl, rfl, rfl, rfl⟩

/-- The first elements of the content stand in one piece behind the read pointer. -/
theorem content_take (h : PeerInv p) {count : Nat} (hcount : count ≤ p.queue.readRun) :
    p.queue.content.take count = straight p.queue.mBuff p.queue.mLast count := by
  rw [h.wellFormed.content_endRead hcount]
  exact List.take_left' (straight_length _ _ _)

/-- A reader that holds a block holds it at the front of the content. -/
theorem holds_block (h : PeerInv p) {b : Nat} (hdone : p.read.done = 0)
    (hcount : b ≤ p.read.count) : b ≤ p.queue.readRun ∧ b ≤ p.queue.content.length := by
  have hrun : b ≤ p.queue.readRun := h.read_le_readRun (by omega)
  have := h.wellFormed.readRun_le
  rw [FixedMemoryQueue.content_length]
  omega

end PeerInv

end Dyplo
