import Dyplo.Library.WeakestPrecondition

/-!
# Pairs of runs

Two computations agree when both return the same value or both stop with the same error. What the
states of the two runs have in common is said by two relations, for the two ways to end.
-/

universe u

variable {ε σ τ α β : Type u}

def Agree (c : EStateM ε σ α) (d : EStateM ε τ α) (Q : α → σ → τ → Prop) (E : ε → σ → τ → Prop)
    (s : σ) (t : τ) : Prop :=
  wp c (fun a s' => wp d (fun b t' => a = b ∧ Q a s' t') (fun _ _ => False) t)
    (fun e s' => wp d (fun _ _ => False) (fun f t' => e = f ∧ E e s' t') t) s

namespace Agree

variable {c : EStateM ε σ α} {d : EStateM ε τ α} {Q Q' : α → σ → τ → Prop}
  {E E' : ε → σ → τ → Prop} {s : σ} {t : τ}

theorem pure {a : α} (h : Q a s t) :
    Agree (pure a : EStateM ε σ α) (pure a : EStateM ε τ α) Q E s t :=
  (wp_pure a).mpr ((wp_pure a).mpr ⟨rfl, h⟩)

theorem throw {e : ε} (h : E e s t) :
    Agree (throw e : EStateM ε σ α) (throw e : EStateM ε τ α) Q E s t :=
  (wp_throw e).mpr ((wp_throw e).mpr ⟨rfl, h⟩)

theorem mono (h : Agree c d Q E s t) (hQ : ∀ a s' t', Q a s' t' → Q' a s' t')
    (hE : ∀ e s' t', E e s' t' → E' e s' t') : Agree c d Q' E' s t := by
  apply wp.mono h
  · intro a s' h'
    exact h'.mono (fun _ t' ht => ⟨ht.1, hQ a s' t' ht.2⟩) fun _ _ hf => hf
  · intro e s' h'
    exact h'.mono (fun _ _ hf => hf) fun _ t' ht => ⟨ht.1, hE e s' t' ht.2⟩

theorem and_left (h : Agree c d Q E s t) {P : α → σ → Prop} {F : ε → σ → Prop} (hc : wp c P F s) :
    Agree c d (fun a s' t' => Q a s' t' ∧ P a s') (fun e s' t' => E e s' t' ∧ F e s') s t := by
  apply (wp.and h hc).mono
  · rintro a s' ⟨h', hP⟩
    exact h'.mono (fun _ t' ht => ⟨ht.1, ht.2, hP⟩) fun _ _ hf => hf
  · rintro e s' ⟨h', hF⟩
    exact h'.mono (fun _ _ hf => hf) fun _ t' ht => ⟨ht.1, ht.2, hF⟩

theorem cases (h : Agree c d Q E s t) :
    (∃ a s' t', c s = .ok a s' ∧ d t = .ok a t' ∧ Q a s' t') ∨
      ∃ e s' t', c s = .error e s' ∧ d t = .error e t' ∧ E e s' t' := by
  unfold Agree at h
  cases hc : c s with
  | ok a s' =>
    obtain ⟨b, t', hd, rfl, hQ⟩ := ((wp_of_ok hc).mp h).returns
    exact .inl ⟨a, s', t', rfl, hd, hQ⟩
  | error e s' =>
    obtain ⟨f, t', hd, rfl, hE⟩ := ((wp_of_error hc).mp h).stops
    exact .inr ⟨e, s', t', rfl, hd, hE⟩

theorem of_ok {a : α} {s' : σ} {t' : τ} (hc : c s = .ok a s') (hd : d t = .ok a t')
    (h : Q a s' t') : Agree c d Q E s t :=
  (wp_of_ok hc).mpr ((wp_of_ok hd).mpr ⟨rfl, h⟩)

theorem of_error {e : ε} {s' : σ} {t' : τ} (hc : c s = .error e s') (hd : d t = .error e t')
    (h : E e s' t') : Agree c d Q E s t :=
  (wp_of_error hc).mpr ((wp_of_error hd).mpr ⟨rfl, h⟩)

theorem left (h : Agree c d Q E s t) :
    wp c (fun a s' => ∃ t', Q a s' t') (fun e s' => ∃ t', E e s' t') s := by
  obtain ⟨a, s', t', hc, -, hQ⟩ | ⟨e, s', t', hc, -, hE⟩ := h.cases
  · exact (wp_of_ok hc).mpr ⟨t', hQ⟩
  · exact (wp_of_error hc).mpr ⟨t', hE⟩

theorem of_eq {c' : EStateM ε σ α} {d' : EStateM ε τ α} {s' : σ} {t' : τ} (hc : c s = c' s')
    (hd : d t = d' t') (h : Agree c' d' Q E s' t') : Agree c d Q E s t := by
  obtain ⟨a, s'', t'', hc', hd', hQ⟩ | ⟨e, s'', t'', hc', hd', hE⟩ := h.cases
  · exact of_ok (hc.trans hc') (hd.trans hd') hQ
  · exact of_error (hc.trans hc') (hd.trans hd') hE

theorem bind {f : α → EStateM ε σ β} {g : α → EStateM ε τ β} {Q : β → σ → τ → Prop}
    (h : Agree c d (fun a s' t' => Agree (f a) (g a) Q E s' t') E s t) :
    Agree (c >>= f) (d >>= g) Q E s t := by
  obtain ⟨a, s', t', hc, hd, hnext⟩ | ⟨e, s', t', hc, hd, hE⟩ := h.cases
  · unfold Agree at hnext ⊢
    simp only [wp_bind, wp_of_ok hc, wp_of_ok hd]
    exact hnext
  · unfold Agree
    simp only [wp_bind, wp_of_error hc, wp_of_error hd]
    exact ⟨trivial, hE⟩

theorem ite {p : Prop} [Decidable p] {c' : EStateM ε σ α} {d' : EStateM ε τ α}
    (hc : p → Agree c d Q E s t) (hd : ¬ p → Agree c' d' Q E s t) :
    Agree (if p then c else c') (if p then d else d') Q E s t := by
  split_ifs with h
  · exact hc h
  · exact hd h

theorem forM {f : α → EStateM ε σ PUnit} {g : α → EStateM ε τ PUnit} {R : σ → τ → Prop}
    {xs : List α} (hf : ∀ x ∈ xs, ∀ s t, R s t → Agree (f x) (g x) (fun _ => R) E s t)
    (h : R s t) : Agree (forM xs f) (forM xs g) (fun _ => R) E s t := by
  induction xs generalizing s t with
  | nil => exact pure h
  | cons x xs ih =>
    rw [List.forM_cons, List.forM_cons]
    apply bind
    apply (hf x List.mem_cons_self s t h).mono _ fun _ _ _ hE => hE
    intro _ s' t' h'
    exact ih (fun y hy => hf y (List.mem_cons_of_mem x hy)) h'

end Agree
