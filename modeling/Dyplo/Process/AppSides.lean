import Dyplo.Process.ThreadedApp

/-!
# What each thread of the application sees

A stage owns the reader's side of its input and the writer's side of its output, the sink the
reader's side of the last queue and `main` the writer's side of the first. Each of them keeps its
own invariant and does not notice the others.
-/

universe u

namespace Dyplo

open CyclicBuffer

section Stage

variable {ι : Type*} [DecidableEq ι] {β γ : Type u} {producer consumer : ι}
  {processor : StaticProcessor β γ} {thread thread' : StageThread β} {m m' : Monitor ι β}
  {w w' : Monitor ι γ}

/-- Outside its two queues, between two blocks. -/
def StageThread.Idle : StageThread β → Prop
  | .joined => True
  | .beginRead => True
  | .exited => True
  | _ => False

theorem StageInv.idle_of_empty {p : PeerState β} {q : PeerState γ}
    (h : StageInv processor p q thread) (hp : PeerInv p) (hempty : p.queue.mSize = 0) :
    thread.Idle := by
  have hpos := processor.blocksize_pos
  have hreader := h.reader
  have hblock : p.read.done = 0 → ¬ processor.blocksize ≤ p.read.count := by
    intro hdone hcount
    have hlen := (hp.holds_block hdone hcount).2
    rw [FixedMemoryQueue.content_length] at hlen
    omega
  cases thread with
  | joined => trivial
  | beginRead => trivial
  | exited => trivial
  | beginWrite src => exact hblock (congrArg Grant.done hreader.1) hreader.2
  | processBlock src dest loaded stored =>
    exact hblock (congrArg Grant.done hreader.1) hreader.2.1
  | endRead => exact hblock hreader.1 hreader.2

theorem StageThread.Step.starved
    (hs : thread.Step producer consumer processor m w thread' m' w') (hidle : thread.Idle) :
    m'.peers.queue = m.peers.queue ∧ w' = w := by
  cases hs with
  | beginRead _ henter =>
    obtain ⟨-, -, ⟨-, hp, -⟩ | ⟨-, hp, -⟩ | ⟨-, hp, -⟩⟩ := Monitor.enter_spec henter
    · exact ⟨Monitor.attempt_queue hp, rfl⟩
    · rw [hp]; exact ⟨rfl, rfl⟩
    · rw [hp]; exact ⟨rfl, rfl⟩
  | _ => exact hidle.elim

theorem StageThread.Step.shrinks
    (hs : thread.Step producer consumer processor m w thread' m' w') :
    m'.peers.queue.mSize ≤ m.peers.queue.mSize := by
  cases hs with
  | beginRead _ henter =>
    obtain ⟨-, -, ⟨-, hp, -⟩ | ⟨-, hp, -⟩ | ⟨-, hp, -⟩⟩ := Monitor.enter_spec henter
    · rw [Monitor.attempt_queue hp]
    · rw [hp]
    · rw [hp]
  | load _ hstep => cases hstep with | load _ hp => obtain rfl := Option.some.inj hp; exact le_rfl
  | endRead hstep =>
    cases hstep with
    | endRead _ hp _ => obtain rfl := Option.some.inj hp; exact Nat.sub_le _ _
  | _ => exact le_rfl

end Stage

section Ends

variable {α : Type u}

/-- What `main` has pushed, is about to commit and has still to push. -/
def Feeding (lines : List α) (p : PeerState α) : MainThread α → Prop
  | .beginWrite line rest => p.committed ++ line :: rest = lines
  | .store line rest =>
      p.write.done = 0 ∧ 1 ≤ p.write.count ∧ p.committed ++ line :: rest = lines
  | .endWrite rest =>
      p.write.done = 0 ∧ 1 ≤ p.write.count ∧
        p.committed ++ p.queue.mBuff p.queue.mFirst :: rest = lines
  | _ => p.committed = lines

theorem Feeding.moves {lines : List α} {p p' : PeerState α} {main : MainThread α}
    (h : Feeding lines p main) (hmoves : ConsumerMoves p p') : Feeding lines p' main := by
  cases main with
  | beginWrite line rest => simpa only [Feeding, hmoves.committed] using h
  | store line rest => simpa only [Feeding, hmoves.write, hmoves.committed] using h
  | endWrite rest =>
    simpa only [Feeding, hmoves.write, hmoves.committed, hmoves.mBuff, hmoves.mFirst] using h
  | _ => exact hmoves.committed.trans h

theorem Feeding.loop {lines : List α} {p : PeerState α} {rest : List α}
    (h : p.committed ++ rest = lines) : Feeding lines p (.loop rest) := by
  cases rest with
  | nil => exact (List.append_nil _).symm.trans h
  | cons line rest => exact h

/-- The sink's side of the last queue. -/
def Displaying (b : Nat) (p : PeerState α) (displayed : List α) : SinkThread → Prop
  | .processItem src shown =>
      p.read = ⟨src, p.read.count, 0⟩ ∧ b ≤ p.read.count ∧ shown ≤ b ∧
        displayed = p.released ++ p.queue.content.take shown
  | _ => displayed = p.released

structure SinkInv (b : Nat) (p : PeerState α) (displayed : List α) (sink : SinkThread) :
    Prop where
  last_dvd : b ∣ p.queue.mLast
  released_dvd : b ∣ p.released.length
  shown : Displaying b p displayed sink

namespace SinkInv

variable {b : Nat} {p p' : PeerState α} {displayed : List α} {sink : SinkThread}

theorem moves (h : SinkInv b p displayed sink) (hp : PeerInv p) (hmoves : ProducerMoves p p') :
    SinkInv b p' displayed sink := by
  refine ⟨hmoves.mLast ▸ h.last_dvd, hmoves.released ▸ h.released_dvd, ?_⟩
  cases sink with
  | processItem src shown =>
    obtain ⟨hread, hcount, hshown, hdisplayed⟩ := h.shown
    have hlen := (hp.holds_block (congrArg Grant.done hread) hcount).2
    obtain ⟨tail, htail⟩ := hmoves.content
    simp only [Displaying, hmoves.read, hmoves.released]
    refine ⟨hread, hcount, hshown, ?_⟩
    rw [← htail, List.take_append_of_le_length (by omega)]
    exact hdisplayed
  | _ => exact h.shown.trans hmoves.released.symm

theorem beginRead (h : SinkInv b p displayed .beginRead) (hp : PeerInv p)
    (hcap : b ∣ p.queue.mEnd) (hs : p.next (.beginRead b) = some p') :
    SinkInv b p' displayed (.processItem p'.read.buffer 0) := by
  obtain ⟨⟨buffer, count⟩, hg, rfl⟩ := Option.map_eq_some_iff.mp hs
  obtain ⟨hsize, rfl, rfl⟩ := FixedMemoryQueue.beginRead_eq_some.mp hg
  refine ⟨h.last_dvd, h.released_dvd, rfl,
    hp.wellFormed.block_le_readRun h.last_dvd hcap hsize, Nat.zero_le _, ?_⟩
  rw [List.take_zero, List.append_nil]
  exact h.shown

theorem processItem_within {src shown : Nat} (h : SinkInv b p displayed (.processItem src shown))
    (hlt : shown < b) : p.WithinGrants (.load shown) := by
  obtain ⟨hread, hcount, -⟩ := h.shown
  have hdone : p.read.done = 0 := congrArg Grant.done hread
  change p.read.done ≤ shown ∧ shown < p.read.count
  omega

theorem processItem {src shown : Nat} (h : SinkInv b p displayed (.processItem src shown))
    (hp : PeerInv p) (hlt : shown < b) (hs : p.next (.load shown) = some p') :
    SinkInv b p' (displayed ++ [p.queue.mBuff (src + shown)]) (.processItem src (shown + 1)) := by
  obtain rfl := Option.some.inj hs
  obtain ⟨hread, hcount, -, hdisplayed⟩ := h.shown
  have hdone : p.read.done = 0 := congrArg Grant.done hread
  have hbuffer : p.read.buffer = src := congrArg Grant.buffer hread
  obtain ⟨hslot, hrun⟩ := hp.read_slot (i := shown) (by omega) (by omega)
  rw [hdone, Nat.sub_zero, hbuffer] at hslot
  rw [hdone, Nat.sub_zero] at hrun
  have hget := hp.wellFormed.content_getElem hrun
  rw [← hslot] at hget
  refine ⟨h.last_dvd, h.released_dvd, hread, hcount, hlt, ?_⟩
  change _ = p.released ++ p.queue.content.take (shown + 1)
  rw [List.take_add_one, hget, hdisplayed, List.append_assoc]
  rfl

theorem endRead_within {src : Nat} (h : SinkInv b p displayed (.processItem src b)) :
    p.WithinGrants (.endRead b) := by
  obtain ⟨hread, hcount, -⟩ := h.shown
  have hdone : p.read.done = 0 := congrArg Grant.done hread
  change p.read.done + b ≤ p.read.count
  omega

theorem endRead {src : Nat} (h : SinkInv b p displayed (.processItem src b)) (hp : PeerInv p)
    (hs : p.next (.endRead b) = some p') : SinkInv b p' displayed .beginRead := by
  have hrun := hp.read_le_readRun h.endRead_within
  obtain rfl := Option.some.inj hs
  obtain ⟨-, -, -, hdisplayed⟩ := h.shown
  refine ⟨FixedMemoryQueue.dvd_increment h.last_dvd (Nat.dvd_refl _), ?_, ?_⟩
  · change b ∣ (p.released ++ straight _ _ _).length
    rw [List.length_append, straight_length]
    exact Nat.dvd_add h.released_dvd (Nat.dvd_refl _)
  · change displayed = p.released ++ straight _ _ _
    rw [hdisplayed, hp.content_take hrun]

theorem exit (h : SinkInv b p displayed .beginRead) : SinkInv b p displayed .exited :=
  ⟨h.last_dvd, h.released_dvd, h.shown⟩

end SinkInv

end Ends

end Dyplo
