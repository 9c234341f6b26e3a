import Mathlib.Logic.Basic
import Mathlib.Tactic.SplitIfs

/-!
# Weakest preconditions of computations that can stop early

A computation either returns a value or stops with an error, and keeps its state in both cases.
`wp c Q E s` holds when `c`, started in `s`, returns inside `Q` or stops inside `E`.
-/

universe u

variable {ε σ τ α β : Type u}

instance decidableEqResult [DecidableEq ε] [DecidableEq σ] [DecidableEq α] :
    DecidableEq (EStateM.Result ε σ α)
  | .ok a s, .ok b t => decidable_of_iff (a = b ∧ s = t) (by simp)
  | .error d s, .error e t => decidable_of_iff (d = e ∧ s = t) (by simp)
  | .ok _ _, .error _ _ => isFalse (by intro h; cases h)
  | .error _ _, .ok _ _ => isFalse (by intro h; cases h)

/-- The state in which a computation ends, whether it returns or stops. -/
def finalState (c : EStateM ε σ α) (s : σ) : σ :=
  match c s with
  | .ok _ t => t
  | .error _ t => t

/-- A computation on the second part of the state. -/
def onSecond (c : EStateM ε τ α) : EStateM ε (σ × τ) α := fun s =>
  match c s.2 with
  | .ok a t => .ok a (s.1, t)
  | .error e t => .error e (s.1, t)

def wp (c : EStateM ε σ α) (Q : α → σ → Prop) (E : ε → σ → Prop) (s : σ) : Prop :=
  match c s with
  | .ok a t => Q a t
  | .error e t => E e t

section Rules

variable {c : EStateM ε σ α} {Q Q' : α → σ → Prop} {E E' : ε → σ → Prop} {s : σ}

theorem wp_of_ok {a : α} {t : σ} (h : c s = .ok a t) : wp c Q E s ↔ Q a t := by
  rw [wp, h]

theorem wp_of_error {e : ε} {t : σ} (h : c s = .error e t) : wp c Q E s ↔ E e t := by
  rw [wp, h]

@[simp]
theorem wp_pure (a : α) : wp (pure a : EStateM ε σ α) Q E s ↔ Q a s := Iff.rfl

@[simp]
theorem wp_throw (e : ε) : wp (throw e : EStateM ε σ α) Q E s ↔ E e s := Iff.rfl

@[simp]
theorem wp_get {Q : σ → σ → Prop} : wp (get : EStateM ε σ σ) Q E s ↔ Q s s := Iff.rfl

@[simp]
theorem wp_set {Q : PUnit → σ → Prop} (t : σ) :
    wp (set t : EStateM ε σ PUnit) Q E s ↔ Q ⟨⟩ t := Iff.rfl

@[simp]
theorem wp_modify {Q : PUnit → σ → Prop} (f : σ → σ) :
    wp (modify f : EStateM ε σ PUnit) Q E s ↔ Q ⟨⟩ (f s) := Iff.rfl

@[simp]
theorem wp_bind {f : α → EStateM ε σ β} {Q : β → σ → Prop} :
    wp (c >>= f) Q E s ↔ wp c (fun a t => wp (f a) Q E t) E s := by
  change (match EStateM.bind c f s with | .ok a t => Q a t | .error e t => E e t) ↔ _
  unfold EStateM.bind wp
  cases c s <;> rfl

@[simp]
theorem wp_map {f : α → β} {Q : β → σ → Prop} :
    wp (f <$> c) Q E s ↔ wp c (fun a t => Q (f a) t) E s := by
  change (match EStateM.map f c s with | .ok a t => Q a t | .error e t => E e t) ↔ _
  unfold EStateM.map wp
  cases c s <;> rfl

@[simp]
theorem wp_ite {p : Prop} [Decidable p] {d : EStateM ε σ α} :
    wp (if p then c else d) Q E s ↔ if p then wp c Q E s else wp d Q E s := by
  split <;> rfl

@[simp]
theorem wp_onSecond {c : EStateM ε τ α} {Q : α → σ × τ → Prop} {E : ε → σ × τ → Prop}
    {s : σ × τ} :
    wp (onSecond c) Q E s ↔ wp c (fun a t => Q a (s.1, t)) (fun e t => E e (s.1, t)) s.2 := by
  unfold wp onSecond
  cases c s.2 <;> rfl

/-- The rule of consequence. -/
theorem wp.mono (h : wp c Q E s) (hQ : ∀ a t, Q a t → Q' a t) (hE : ∀ e t, E e t → E' e t) :
    wp c Q' E' s := by
  unfold wp at *
  cases hc : c s with
  | ok a t => rw [hc] at h; exact hQ a t h
  | error e t => rw [hc] at h; exact hE e t h

theorem wp.and (h : wp c Q E s) (h' : wp c Q' E' s) :
    wp c (fun a t => Q a t ∧ Q' a t) (fun e t => E e t ∧ E' e t) s := by
  unfold wp at *
  cases hc : c s with
  | ok a t => rw [hc] at h h'; exact ⟨h, h'⟩
  | error e t => rw [hc] at h h'; exact ⟨h, h'⟩

/-- Postconditions that hold of every outcome. -/
theorem wp_of_forall (hQ : ∀ a t, Q a t) (hE : ∀ e t, E e t) : wp c Q E s := by
  unfold wp
  cases c s with
  | ok a t => exact hQ a t
  | error e t => exact hE e t

/-- Computations that come to the same satisfy the same. -/
theorem wp_of_eq {d : EStateM ε σ α} {t : σ} (h : c s = d t) : wp c Q E s ↔ wp d Q E t := by
  unfold wp
  rw [h]

/-- A computation goes on from where its first part returns. -/
theorem bind_of_ok {f : α → EStateM ε σ β} {a : α} {t : σ} (h : c s = .ok a t) :
    (c >>= f) s = f a t := by
  change EStateM.bind c f s = f a t
  rw [EStateM.bind, h]

theorem bind_of_error {f : α → EStateM ε σ β} {e : ε} {t : σ} (h : c s = .error e t) :
    (c >>= f) s = .error e t := by
  change EStateM.bind c f s = .error e t
  rw [EStateM.bind, h]

/-- What a computation comes to, read off its postconditions. -/
theorem wp_result (r : EStateM.Result ε σ α) :
    wp c (fun a t => r = .ok a t) (fun e t => r = .error e t) s ↔ c s = r := by
  unfold wp
  cases c s with
  | ok a t => exact eq_comm
  | error e t => exact eq_comm

theorem finalState_of_wp {I : σ → Prop} (h : wp c (fun _ t => I t) (fun _ t => I t) s) :
    I (finalState c s) := by
  unfold wp at h
  unfold finalState
  cases hc : c s with
  | ok a t => rw [hc] at h; exact h
  | error e t => rw [hc] at h; exact h

theorem wp_finalState (c : EStateM ε σ α) (s : σ) :
    wp c (fun _ t => t = finalState c s) (fun _ t => t = finalState c s) s := by
  unfold wp finalState
  cases c s <;> rfl

theorem wp_congr {F : α → σ → Prop} {G : ε → σ → Prop} (hframe : wp c F G s)
    (hQ : ∀ a t, F a t → (Q a t ↔ Q' a t)) : wp c Q E s ↔ wp c Q' E s := by
  unfold wp at *
  cases hc : c s with
  | ok a t => rw [hc] at hframe; exact hQ a t hframe
  | error e t => exact Iff.rfl

/-- A computation that cannot stop returns. -/
theorem wp.returns (h : wp c Q (fun _ _ => False) s) : ∃ a t, c s = .ok a t ∧ Q a t := by
  unfold wp at h
  cases hc : c s with
  | ok a t => rw [hc] at h; exact ⟨a, t, rfl, h⟩
  | error e t => rw [hc] at h; exact h.elim

/-- A computation that cannot return stops. -/
theorem wp.stops (h : wp c (fun _ _ => False) E s) : ∃ e t, c s = .error e t ∧ E e t := by
  unfold wp at h
  cases hc : c s with
  | ok a t => rw [hc] at h; exact h.elim
  | error e t => rw [hc] at h; exact ⟨e, t, rfl, h⟩

theorem wp_forM_forall {f : α → EStateM ε σ PUnit} {P : α → Prop} {I : σ → Prop}
    {E : ε → σ → Prop} {xs : List α}
    (hf : ∀ x ∈ xs, ∀ s, I s → wp (f x) (fun _ t => P x ∧ I t) E s) {s : σ} (hs : I s) :
    wp (forM xs f) (fun _ t => (∀ x ∈ xs, P x) ∧ I t) E s := by
  induction xs generalizing s with
  | nil => exact ⟨nofun, hs⟩
  | cons x xs ih =>
    rw [List.forM_cons, wp_bind]
    refine (hf x List.mem_cons_self s hs).mono ?_ fun _ _ h => h
    rintro _ t ⟨hx, ht⟩
    refine (ih (fun y hy => hf y (List.mem_cons_of_mem x hy)) ht).mono ?_ fun _ _ h => h
    rintro _ u ⟨hxs, hu⟩
    exact ⟨List.forall_mem_cons.mpr ⟨hx, hxs⟩, hu⟩

theorem wp_forM {f : α → EStateM ε σ PUnit} {I : σ → Prop} {E : ε → σ → Prop} {xs : List α}
    (hf : ∀ x ∈ xs, ∀ s, I s → wp (f x) (fun _ t => I t) E s) {s : σ} (hs : I s) :
    wp (forM xs f) (fun _ t => I t) E s := by
  have hloop : wp (forM xs f) (fun _ t => (∀ x ∈ xs, True) ∧ I t) E s := by
    apply wp_forM_forall _ hs
    intro x hx s hs
    exact (hf x hx s hs).mono (fun _ _ h => ⟨trivial, h⟩) fun _ _ h => h
  exact hloop.mono (fun _ _ h => h.2) fun _ _ h => h

end Rules

-- Beyond its rules a `wp` is not to be computed.
attribute [irreducible] wp

/-- A computation that keeps an invariant however it ends, and stops in `F` only. -/
def Keeps (I : σ → Prop) (F : ε → Prop) (c : EStateM ε σ α) : Prop :=
  ∀ s, I s → wp c (fun _ t => I t) (fun e t => F e ∧ I t) s

namespace Keeps

variable {I : σ → Prop} {F : ε → Prop} {c d : EStateM ε σ α} {f : α → EStateM ε σ β}

theorem pure (a : α) : Keeps I F (pure a : EStateM ε σ α) :=
  fun _ hs => (wp_pure a).mpr hs

theorem throw {e : ε} (he : F e) : Keeps I F (throw e : EStateM ε σ α) :=
  fun _ hs => (wp_throw e).mpr ⟨he, hs⟩

theorem modify {f : σ → σ} (hf : ∀ s, I s → I (f s)) :
    Keeps I F (modify f : EStateM ε σ PUnit) :=
  fun s hs => (wp_modify f).mpr (hf s hs)

theorem set {s : σ} (hs : I s) : Keeps I F (set s : EStateM ε σ PUnit) :=
  fun _ _ => (wp_set s).mpr hs

theorem bind (hc : Keeps I F c) (hf : ∀ a, Keeps I F (f a)) : Keeps I F (c >>= f) :=
  fun s hs => wp_bind.mpr ((hc s hs).mono (fun a t ht => hf a t ht) fun _ _ he => he)

/-- What is read is a state in which the invariant holds. -/
theorem get_bind {f : σ → EStateM ε σ α} (hf : ∀ s, I s → Keeps I F (f s)) :
    Keeps I F (get >>= f) :=
  fun s hs => wp_bind.mpr (wp_get.mpr (hf s hs s hs))

theorem ite {p : Prop} [Decidable p] (hc : p → Keeps I F c) (hd : ¬ p → Keeps I F d) :
    Keeps I F (if p then c else d) := by
  split_ifs with h
  · exact hc h
  · exact hd h

theorem mono {F' : ε → Prop} (hc : Keeps I F c) (hF : ∀ e, F e → F' e) : Keeps I F' c :=
  fun s hs => (hc s hs).mono (fun _ _ ht => ht) fun e _ he => ⟨hF e he.1, he.2⟩

theorem forM {f : α → EStateM ε σ PUnit} {xs : List α} (hf : ∀ x ∈ xs, Keeps I F (f x)) :
    Keeps I F (forM xs f) :=
  fun _ hs => wp_forM (fun x hx s hs => hf x hx s hs) hs

theorem finalState (hc : Keeps I F c) {s : σ} (hs : I s) : I (finalState c s) :=
  finalState_of_wp ((hc s hs).mono (fun _ _ ht => ht) fun _ _ he => he.2)

end Keeps
