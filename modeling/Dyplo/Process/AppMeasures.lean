import Dyplo.Process.AppSides

/-!
# How far each thread of the application is

Every thread has a bounded number of steps ahead of it, and a step that puts a thread to sleep
takes one from the threads that are up. A thread in its loop can go on, unless it sleeps with
reason.
-/

universe u

namespace Dyplo

/-- The steps the sink has taken when it has released `released` elements. -/
def SinkThread.taken (b released : Nat) : SinkThread → Nat
  | .beginRead => released * (b + 2)
  | .processItem _ shown => released * (b + 2) + 1 + shown
  | .exited => released * (b + 2) + 1
  | .joined => released * (b + 2) + 2

theorem SinkInv.taken_le {α : Type u} {b total : Nat} {p : PeerState α} {displayed : List α}
    {sink : SinkThread} (h : SinkInv b p displayed sink) (hb : 0 < b) (hp : PeerInv p)
    (htotal : p.committed.length ≤ total) :
    sink.taken b p.released.length ≤ total * (b + 2) + 2 := by
  have hlength := hp.committed_length
  have hreleased : p.released.length * (b + 2) ≤ total * (b + 2) :=
    Nat.mul_le_mul_right _ (by omega)
  cases sink with
  | processItem src shown =>
    obtain ⟨hread, hcount, hshown, -⟩ := h.shown
    have hlen := (hp.holds_block (congrArg Grant.done hread) hcount).2
    rw [FixedMemoryQueue.content_length] at hlen
    change b ≤ p.queue.size at hlen
    have hmore : (p.released.length + 1) * (b + 2) ≤ total * (b + 2) :=
      Nat.mul_le_mul_right _ (by omega)
    rw [Nat.succ_mul] at hmore
    simp only [SinkThread.taken]
    omega
  | _ => simp only [SinkThread.taken]; omega

/-- The steps that `main` has ahead of it, but for those that put it to sleep. -/
def MainThread.left {α : Type u} (stages : Nat) : MainThread α → Nat
  | .beginWrite _ lines => 4 * stages + 6 + 3 * lines.length
  | .store _ lines => 4 * stages + 5 + 3 * lines.length
  | .endWrite lines => 4 * stages + 4 + 3 * lines.length
  | .waitEmpty i => 3 * stages + 3 + (stages - i)
  | .interruptSink => 3 * stages + 2
  | .joinSink => 3 * stages + 1
  | .interruptRead i => 3 * i + 3
  | .interruptWrite i => 3 * i + 2
  | .join i => 3 * i + 1
  | .returned => 0
  | .uncaught => 0

namespace MainThread

variable {α : Type u}

theorem left_loop (stages : Nat) (lines : List α) :
    (loop lines).left stages < (endWrite lines).left stages := by
  cases lines <;> simp only [loop, left, List.length_nil, List.length_cons] <;> omega

theorem left_terminate (stages n : Nat) :
    (terminate n : MainThread α).left stages ≤ 3 * n := by
  cases n <;> simp only [terminate, left] <;> omega

theorem left_afterWaitEmpty (stages i : Nat) :
    (afterWaitEmpty stages i .returned : MainThread α).left stages <
      (waitEmpty i : MainThread α).left stages := by
  by_cases hlt : i < stages
  · rw [afterWaitEmpty, if_pos hlt]
    simp only [left]
    omega
  · rw [afterWaitEmpty, if_neg hlt]
    simp only [left]
    omega

end MainThread

end Dyplo
