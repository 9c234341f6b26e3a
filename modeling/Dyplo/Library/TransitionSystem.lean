import Mathlib.Data.List.Forall2
import Mathlib.Logic.Relation

/-!
# Labelled transition systems

States, initial states and labelled atomic steps. A safety property is proved from an
invariant that every single step keeps; a run is a list of labels, so that a violating
interleaving can be exhibited as a value.
-/

universe u v w

/-- A system of atomic steps. The label says who moved and what was done. -/
structure TransitionSystem (σ : Type u) (ι : Type v) where
  init : σ → Prop
  step : σ → ι → σ → Prop

namespace TransitionSystem

variable {σ : Type u} {ι : Type v} {τ : Type w} (S : TransitionSystem σ ι)

/-- The states some interleaving reaches. -/
inductive Reachable : σ → Prop
  | init {s : σ} : S.init s → Reachable s
  | step {s t : σ} {a : ι} : Reachable s → S.step s a t → Reachable t

/-- A finite interleaving from one state to another, with its labels in order. -/
inductive Run : σ → List ι → σ → Prop
  | nil (s : σ) : Run s [] s
  | cons {s t u : σ} {a : ι} {as : List ι} : S.step s a t → Run t as u → Run s (a :: as) u

variable {S}

/-- What holds initially and survives every step holds of every reachable state. -/
theorem Reachable.invariant {I : σ → Prop} (hinit : ∀ s, S.init s → I s)
    (hstep : ∀ s a t, I s → S.step s a t → I t) {s : σ} (hs : S.Reachable s) : I s := by
  induction hs with
  | init h => exact hinit _ h
  | step _ h ih => exact hstep _ _ _ ih h

theorem Reachable.run {s t : σ} {as : List ι} (hs : S.Reachable s) (h : S.Run s as t) :
    S.Reachable t := by
  induction h with
  | nil => exact hs
  | cons hstep _ ih => exact ih (hs.step hstep)

theorem Run.snoc {s t u : σ} {as : List ι} {a : ι} (h : S.Run s as t) (hstep : S.step t a u) :
    S.Run s (as ++ [a]) u := by
  induction h with
  | nil s => exact .cons hstep (.nil _)
  | cons hfirst _ ih => exact .cons hfirst (ih hstep)

theorem Run.accumulates {α : Type w} {I : List α → σ → Prop} {adds : ι → List α → Prop}
    (hstep : ∀ done s a t added, I done s → S.step s a t → adds a added → I (done ++ added) t)
    {s t : σ} {as : List ι} (h : S.Run s as t) {all : List (List α)}
    (hall : List.Forall₂ adds as all) {done : List α} (hs : I done s) :
    I (done ++ all.flatten) t := by
  induction h generalizing all done with
  | nil =>
    cases hall
    rwa [List.flatten_nil, List.append_nil]
  | cons hfirst _ ih =>
    obtain ⟨added, rest, hadded, hrest, rfl⟩ := List.forall₂_cons_left_iff.mp hall
    rw [List.flatten_cons, ← List.append_assoc]
    exact ih hrest (hstep _ _ _ _ _ hs hfirst hadded)

theorem Run.exists_of_bounded {s : σ} {a : ι} {Q : σ → Prop} {bound : Nat}
    (hgoesOn : ∀ n t, S.Run s (List.replicate n a) t → Q t ∨ ∃ u, S.step t a u)
    (hbound : ∀ n t, S.Run s (List.replicate n a) t → n ≤ bound) :
    ∃ n t, S.Run s (List.replicate n a) t ∧ Q t := by
  have hlong : ∀ k, ∃ n t, S.Run s (List.replicate n a) t ∧ (Q t ∨ n = k) := by
    intro k
    induction k with
    | zero => exact ⟨0, s, .nil s, .inr rfl⟩
    | succ k ih =>
      obtain ⟨n, t, hrun, hQ | rfl⟩ := ih
      · exact ⟨n, t, hrun, .inl hQ⟩
      · rcases hgoesOn n t hrun with hQ | ⟨u, hstep⟩
        · exact ⟨n, t, hrun, .inl hQ⟩
        · refine ⟨n + 1, u, ?_, .inr rfl⟩
          rw [List.replicate_succ']
          exact hrun.snoc hstep
  obtain ⟨n, t, hrun, hQ | rfl⟩ := hlong (bound + 1)
  · exact ⟨n, t, hrun, hQ⟩
  · exact absurd (hbound _ t hrun) (Nat.not_succ_le_self bound)

/-- The runs all of whose steps meet a condition. -/
def restrict (S : TransitionSystem σ ι) (ok : σ → ι → σ → Prop) : TransitionSystem σ ι where
  init := S.init
  step s a t := S.step s a t ∧ ok s a t

/-- What holds initially and survives every step that meets the condition holds in every state
that such steps reach. -/
theorem Reachable.restrict_invariant {ok : σ → ι → σ → Prop} {I : σ → Prop}
    (hinit : ∀ s, S.init s → I s) (hstep : ∀ s a t, I s → S.step s a t → ok s a t → I t)
    {s : σ} (hs : (S.restrict ok).Reachable s) : I s := by
  apply Reachable.invariant (S := S.restrict ok) hinit _ hs
  rintro s a t hI ⟨hstep', hok⟩
  exact hstep s a t hI hstep' hok

theorem Reachable.of_restrict {ok : σ → ι → σ → Prop} {s : σ}
    (hs : (S.restrict ok).Reachable s) : S.Reachable s := by
  induction hs with
  | init h => exact .init h
  | step _ h ih => exact ih.step h.1

/-- The system of a deterministic step function whose labels are restricted by a contract. -/
def ofNext (init : σ → Prop) (allowed : σ → ι → Prop) (next : σ → ι → Option σ) :
    TransitionSystem σ ι where
  init := init
  step s a t := allowed s a ∧ next s a = some t

/-- Executes a list of labels and stops at the first one that is not allowed or not enabled. -/
def exec (allowed : σ → ι → Prop) [∀ s a, Decidable (allowed s a)]
    (next : σ → ι → Option σ) (s : σ) : List ι → Option σ
  | [] => some s
  | a :: as => if allowed s a then (next s a).bind fun t => exec allowed next t as else none

theorem run_of_exec {init : σ → Prop} {allowed : σ → ι → Prop}
    [∀ s a, Decidable (allowed s a)] {next : σ → ι → Option σ} {s t : σ} {as : List ι}
    (h : exec allowed next s as = some t) : (ofNext init allowed next).Run s as t := by
  induction as generalizing s with
  | nil =>
    obtain rfl : s = t := by simpa [exec] using h
    exact .nil s
  | cons a as ih =>
    rw [exec] at h
    split at h
    · next hallowed =>
      obtain ⟨u, hu, h⟩ := Option.bind_eq_some_iff.mp h
      exact .cons ⟨hallowed, hu⟩ (ih h)
    · contradiction

end TransitionSystem
