import Mathlib.Data.List.Basic

/-!
# Checks of a trace

A check reads the events of a trace in order. It keeps a summary of those it has seen and holds
each event against that.
-/

universe u v

structure TraceCheck (σ : Type u) (ε : Type v) where
  start : σ
  next : σ → ε → σ
  ok : σ → ε → Prop

namespace TraceCheck

variable {σ : Type u} {ε : Type v} (M : TraceCheck σ ε)

def summary (events : List ε) : σ := events.foldl M.next M.start

def PassesFrom : σ → List ε → Prop
  | _, [] => True
  | s, event :: events => M.ok s event ∧ PassesFrom (M.next s event) events

/-- Every event is as the check wants it. -/
def Passes (events : List ε) : Prop := M.PassesFrom M.start events

@[simp]
theorem summary_emit (events : List ε) (event : ε) :
    M.summary (events ++ [event]) = M.next (M.summary events) event := by
  rw [summary, List.foldl_append]
  rfl

theorem passesFrom_append (s : σ) (events events' : List ε) :
    M.PassesFrom s (events ++ events') ↔
      M.PassesFrom s events ∧ M.PassesFrom (events.foldl M.next s) events' := by
  induction events generalizing s with
  | nil => simp [PassesFrom]
  | cons event events ih => simp [PassesFrom, ih, and_assoc]

/-- One more event. -/
@[simp]
theorem passes_emit (events : List ε) (event : ε) :
    M.Passes (events ++ [event]) ↔ M.Passes events ∧ M.ok (M.summary events) event := by
  rw [Passes, passesFrom_append]
  simp [PassesFrom, Passes, summary]

end TraceCheck
