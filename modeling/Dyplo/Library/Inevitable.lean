import Mathlib.Logic.Basic

/-!
# What happens sooner or later

A property is inevitable if every sequence of steps goes on until it holds, however the steps are
chosen. Steps that lead nowhere do not spoil it, as long as only so many come in between.
-/

universe u v

variable {σ : Type u} {step extra : σ → σ → Prop} {Q : σ → Prop}

inductive Inevitable (step : σ → σ → Prop) (Q : σ → Prop) : σ → Prop
  | now {s : σ} : Q s → Inevitable step Q s
  | later {s : σ} : (∃ t, step s t) → (∀ t, step s t → Inevitable step Q t) → Inevitable step Q s

/-- The steps of `step`, with so many more of `extra` in between. -/
inductive Interspersed (step extra : σ → σ → Prop) : σ × Nat → σ × Nat → Prop
  | step {s t : σ} {n : Nat} : step s t → Interspersed step extra (s, n) (t, n)
  | extra {s t : σ} {n : Nat} : extra s t → Interspersed step extra (s, n + 1) (t, n)

theorem Interspersed.preserves {I : σ → Prop} (hstep : ∀ s t, I s → step s t → I t)
    (hextra : ∀ s t, I s → extra s t → I t) {s t : σ × Nat}
    (h : Interspersed step extra s t) (hs : I s.1) : I t.1 := by
  cases h with
  | step hst => exact hstep _ _ hs hst
  | extra hst => exact hextra _ _ hs hst

namespace Inevitable

theorem mono {Q' : σ → Prop} (hQ : ∀ s, Q s → Q' s) {s : σ} (h : Inevitable step Q s) :
    Inevitable step Q' s := by
  induction h with
  | now hs => exact .now (hQ _ hs)
  | later hnext _ ih => exact .later hnext ih

theorem of_measure {I : σ → Prop} {m : σ → Nat}
    (hgoesOn : ∀ s, I s → Q s ∨ ∃ t, step s t)
    (hstep : ∀ s t, I s → step s t → I t ∧ m t < m s) {s : σ} (hs : I s) :
    Inevitable step Q s := by
  induction hmeasure : m s using Nat.strongRecOn generalizing s with
  | ind n ih =>
    rcases hgoesOn s hs with hQ | hnext
    · exact .now hQ
    · apply Inevitable.later hnext
      intro t hst
      obtain ⟨ht, hlt⟩ := hstep s t hs hst
      exact ih (m t) (hmeasure ▸ hlt) ht rfl

theorem of_wellFounded {τ : Type v} {r : τ → τ → Prop} (hr : WellFounded r) {I : σ → Prop}
    {m : σ → τ} (hgoesOn : ∀ s, I s → Q s ∨ ∃ t, step s t)
    (hstep : ∀ s t, I s → step s t → I t ∧ r (m t) (m s)) {s : σ} (hs : I s) :
    Inevitable step Q s := by
  induction hmeasure : m s using hr.induction generalizing s with
  | _ x ih =>
    rcases hgoesOn s hs with hQ | hnext
    · exact .now hQ
    · apply Inevitable.later hnext
      intro t hst
      obtain ⟨ht, hlt⟩ := hstep s t hs hst
      exact ih (m t) (hmeasure ▸ hlt) ht rfl

theorem interspersed {τ : Type v} {r : τ → τ → Prop} (hr : WellFounded r) {I : σ → Prop}
    {m : σ → τ} (hgoesOn : ∀ s, I s → Q s ∨ ∃ t, step s t)
    (hstep : ∀ s t, I s → step s t → I t ∧ r (m t) (m s))
    (hextra : ∀ s t, I s → extra s t → I t) {s : σ} (hs : I s) (n : Nat) :
    Inevitable (Interspersed step extra) (fun t => Q t.1) (s, n) := by
  refine of_wellFounded (I := fun t => I t.1) (m := fun t => (t.2, m t.1))
    (Prod.lex Nat.lt_wfRel ⟨r, hr⟩).wf ?_ ?_ hs
  · rintro ⟨s, n⟩ hs
    rcases hgoesOn s hs with hQ | ⟨t, hst⟩
    · exact .inl hQ
    · exact .inr ⟨(t, n), .step hst⟩
  · rintro _ _ hs (hst | hst)
    · obtain ⟨ht, hlt⟩ := hstep _ _ hs hst
      exact ⟨ht, .right _ hlt⟩
    · exact ⟨hextra _ _ hs hst, .left _ _ (Nat.lt_succ_self _)⟩

theorem exists_of_invariant {I : σ → Prop} (hstep : ∀ s t, I s → step s t → I t) {s : σ}
    (h : Inevitable step Q s) (hs : I s) : ∃ t, I t ∧ Q t := by
  induction h with
  | now hQ => exact ⟨_, hs, hQ⟩
  | later hnext _ ih =>
    obtain ⟨t, hst⟩ := hnext
    exact ih t hst (hstep _ t hs hst)

end Inevitable
