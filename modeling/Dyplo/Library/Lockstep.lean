import Mathlib.Data.List.Forall2

/-!
# Two machines in lockstep

A machine answers each call with an observation. Two machines whose states stay related answer
every sequence of calls that a contract allows with related observations.
-/

universe u v w x y

namespace Lockstep

variable {σ : Type u} {τ : Type v} {ι : Type w} {ο : Type x} {π : Type y}

/-- The observations that a sequence of calls makes. -/
def trace (f : σ → ι → σ × ο) : σ → List ι → List ο
  | _, [] => []
  | s, a :: as => (f s a).2 :: trace f (f s a).1 as

/-- Every call of a sequence is allowed in the state that it meets. -/
def Allowed (allowed : σ → ι → Prop) (f : σ → ι → σ × ο) : σ → List ι → Prop
  | _, [] => True
  | s, a :: as => allowed s a ∧ Allowed allowed f (f s a).1 as

instance decidableAllowed (allowed : σ → ι → Prop) [∀ s a, Decidable (allowed s a)]
    (f : σ → ι → σ × ο) : ∀ s as, Decidable (Allowed allowed f s as)
  | _, [] => inferInstanceAs (Decidable True)
  | s, a :: as =>
      have := decidableAllowed allowed f (f s a).1 as
      inferInstanceAs (Decidable (allowed s a ∧ Allowed allowed f (f s a).1 as))

variable {f : σ → ι → σ × ο} {g : τ → ι → τ × π} {R : σ → τ → Prop} {allowed : σ → ι → Prop}
  {allowed' : τ → ι → Prop} {s : σ} {t : τ}

theorem allowed_iff (hcall : ∀ s t a, R s t → (allowed s a ↔ allowed' t a))
    (hstep : ∀ s t a, R s t → allowed s a → R (f s a).1 (g t a).1) (h : R s t) (as : List ι) :
    Allowed allowed f s as ↔ Allowed allowed' g t as := by
  induction as generalizing s t with
  | nil => exact Iff.rfl
  | cons a as ih =>
    constructor
    · rintro ⟨ha, hrest⟩
      exact ⟨(hcall s t a h).mp ha, (ih (hstep s t a h ha)).mp hrest⟩
    · rintro ⟨ha, hrest⟩
      have ha' := (hcall s t a h).mpr ha
      exact ⟨ha', (ih (hstep s t a h ha')).mpr hrest⟩

theorem forall₂_trace {obs : ο → π → Prop}
    (hobs : ∀ s t a, R s t → allowed s a → obs (f s a).2 (g t a).2)
    (hstep : ∀ s t a, R s t → allowed s a → R (f s a).1 (g t a).1) (h : R s t) (as : List ι)
    (has : Allowed allowed f s as) : List.Forall₂ obs (trace f s as) (trace g t as) := by
  induction as generalizing s t with
  | nil => exact .nil
  | cons a as ih => exact .cons (hobs s t a h has.1) (ih (hstep s t a h has.1) has.2)

end Lockstep
