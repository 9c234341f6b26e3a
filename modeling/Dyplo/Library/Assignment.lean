import Mathlib.Algebra.GroupWithZero.Nat
import Mathlib.Data.Finset.Lattice.Fold
import Mathlib.Order.Bounds.Basic
import Mathlib.Order.Lattice.Nat

/-!
# Assigning resources to weighted demands

Each demand may get one of the resources it allows, and no resource is given away twice. The
greatest total weight that can be met satisfies a recursion on the demands, and counting every
demand that could still get something bounds it from above.
-/

universe u

namespace Assignment

variable {ι : Type u}

structure Demand (ι : Type u) where
  allowed : Finset ι
  weight : Nat

/-- A partial assignment of free resources: allowed, and without a resource given twice. -/
structure IsPartial (demands : List (Demand ι)) (free : Finset ι) (choices : List (Option ι)) :
    Prop where
  length : choices.length = demands.length
  allowed : ∀ (k : Nat) (d : Demand ι) (p : ι), demands[k]? = some d → choices[k]? = some (some p) →
    p ∈ free ∧ p ∈ d.allowed
  distinct : ∀ (j k : Nat) (p : ι), choices[j]? = some (some p) →
    choices[k]? = some (some p) → j = k

/-- The total weight of the demands that got a resource. -/
def value : List (Demand ι) → List (Option ι) → Nat
  | d :: demands, choice :: choices =>
      (if choice.isSome then d.weight else 0) + value demands choices
  | _, _ => 0

variable {d : Demand ι} {demands : List (Demand ι)} {free : Finset ι} {choice : Option ι}
  {choices : List (Option ι)}

theorem isPartial_nil : IsPartial ([] : List (Demand ι)) free [] where
  length := rfl
  allowed k d p hd := by cases hd
  distinct j k p hj := by cases hj

theorem value_replicate (demands : List (Demand ι)) :
    value demands (List.replicate demands.length none) = 0 := by
  induction demands with
  | nil => rfl
  | cons d demands ih =>
    rw [List.length_cons, List.replicate_succ, value, ih]
    rfl

/-- The choices that the first demand has. -/
def Offered (d : Demand ι) (free : Finset ι) (choice : Option ι) : Prop :=
  ∀ p, choice = some p → p ∈ free ∧ p ∈ d.allowed

theorem offered_none : Offered d free none := by
  intro p hp
  cases hp

section Choices

variable [DecidableEq ι]

/-- The resources that are left by the first choice. -/
def leave (free : Finset ι) : Option ι → Finset ι
  | none => free
  | some p => free.erase p

theorem mem_leave {p : ι} : p ∈ leave free choice ↔ p ∈ free ∧ choice ≠ some p := by
  cases choice with
  | none => exact ⟨fun h => ⟨h, fun hp => by cases hp⟩, fun h => h.1⟩
  | some q =>
    rw [leave, Finset.mem_erase, and_comm, ne_comm (a := p)]
    exact and_congr_right fun _ => (not_congr Option.some_inj).symm

/-- The first demand takes its choice, and the others share what is left. -/
theorem isPartial_cons : IsPartial (d :: demands) free (choice :: choices) ↔
    (∀ p, choice = some p → p ∈ free ∧ p ∈ d.allowed) ∧
      IsPartial demands (leave free choice) choices := by
  constructor
  · intro h
    refine ⟨fun p hp => h.allowed 0 d p rfl (congrArg some hp), ?_, ?_, ?_⟩
    · exact Nat.succ.inj h.length
    · intro k e p he hp
      obtain ⟨hfree, hallowed⟩ := h.allowed (k + 1) e p he hp
      refine ⟨mem_leave.mpr ⟨hfree, ?_⟩, hallowed⟩
      rintro rfl
      exact absurd (h.distinct 0 (k + 1) p rfl hp) (Nat.succ_ne_zero k).symm
    · intro j k p hj hk
      exact Nat.succ.inj (h.distinct (j + 1) (k + 1) p hj hk)
  · rintro ⟨hchoice, h⟩
    -- a later choice is not the first one, which has left
    have hlater : ∀ (k : Nat) (p : ι), choices[k]? = some (some p) → choice ≠ some p := by
      intro k p hp
      have hk : k < demands.length := by
        rw [← h.length]
        exact (List.getElem?_eq_some_iff.mp hp).1
      exact (mem_leave.mp (h.allowed k demands[k] p (List.getElem?_eq_getElem hk) hp).1).2
    refine ⟨congrArg Nat.succ h.length, ?_, ?_⟩
    · intro k e p he hp
      cases k with
      | zero =>
        obtain rfl := Option.some.inj he
        exact hchoice p (Option.some.inj hp)
      | succ k =>
        obtain ⟨hleft, hallowed⟩ := h.allowed k e p he hp
        exact ⟨(mem_leave.mp hleft).1, hallowed⟩
    · intro j k p hj hk
      cases j with
      | zero =>
        cases k with
        | zero => rfl
        | succ k => exact absurd (Option.some.inj hj) (hlater k p hk)
      | succ j =>
        cases k with
        | zero => exact absurd (Option.some.inj hk) (hlater j p hj)
        | succ k => exact congrArg Nat.succ (h.distinct j k p hj hk)

theorem isPartial_replicate (demands : List (Demand ι)) (free : Finset ι) :
    IsPartial demands free (List.replicate demands.length none) := by
  induction demands with
  | nil => exact isPartial_nil
  | cons d demands ih =>
    refine isPartial_cons.mpr ⟨?_, ih⟩
    intro p hp
    cases hp

/-- The greatest total weight, by recursion on the demands: the first one is left out, or gets
one of its resources. -/
def best : List (Demand ι) → Finset ι → Nat
  | [], _ => 0
  | d :: demands, free =>
      max (best demands free)
        ((free ∩ d.allowed).sup fun p => d.weight + best demands (free.erase p))

/-- What is gained from the first demand on, once its choice has been made. -/
def gain (d : Demand ι) (demands : List (Demand ι)) (free : Finset ι) (choice : Option ι) : Nat :=
  (if choice.isSome then d.weight else 0) + best demands (leave free choice)

theorem offered_some {p : ι} : Offered d free (some p) ↔ p ∈ free ∩ d.allowed := by
  rw [Finset.mem_inter]
  constructor
  · intro h
    exact h p rfl
  · intro hp q hq
    obtain rfl := Option.some.inj hq
    exact hp

theorem gain_le_best (h : Offered d free choice) :
    gain d demands free choice ≤ best (d :: demands) free := by
  cases choice with
  | none =>
    rw [gain, best]
    simp only [Option.isSome_none, Bool.false_eq_true, if_false, Nat.zero_add, leave]
    exact le_max_left _ _
  | some p =>
    have hp : p ∈ free ∩ d.allowed := offered_some.mp h
    refine le_trans ?_ (le_max_right _ _)
    exact Finset.le_sup (f := fun p => d.weight + best demands (free.erase p)) hp

theorem exists_gain_eq_best (d : Demand ι) (demands : List (Demand ι)) (free : Finset ι) :
    ∃ choice, Offered d free choice ∧ gain d demands free choice = best (d :: demands) free := by
  have hskip : Offered d free none := offered_none
  have hnone : gain d demands free none = best demands free := by
    simp only [gain, Option.isSome_none, Bool.false_eq_true, if_false, Nat.zero_add, leave]
  rcases Finset.eq_empty_or_nonempty (free ∩ d.allowed) with hempty | hsome
  · refine ⟨none, hskip, ?_⟩
    rw [hnone, best, hempty, Finset.sup_empty]
    exact (max_eq_left (Nat.zero_le _)).symm
  · obtain ⟨p, hp, hsup⟩ := Finset.exists_mem_eq_sup (free ∩ d.allowed) hsome
      fun p => d.weight + best demands (free.erase p)
    rcases le_total (best demands free)
        ((free ∩ d.allowed).sup fun p => d.weight + best demands (free.erase p)) with hle | hle
    · refine ⟨some p, offered_some.mpr hp, ?_⟩
      rw [best, max_eq_right hle, hsup]
      rfl
    · refine ⟨none, hskip, ?_⟩
      rw [hnone, best, max_eq_left hle]

theorem value_le_best (h : IsPartial demands free choices) :
    value demands choices ≤ best demands free := by
  induction demands generalizing free choices with
  | nil =>
    cases choices with
    | nil => exact Nat.le_refl 0
    | cons choice choices => cases h.length
  | cons d demands ih =>
    cases choices with
    | nil => cases h.length
    | cons choice choices =>
      obtain ⟨hoffered, hrest⟩ := isPartial_cons.mp h
      calc value (d :: demands) (choice :: choices)
          = (if choice.isSome then d.weight else 0) + value demands choices := rfl
        _ ≤ gain d demands free choice := Nat.add_le_add_left (ih hrest) _
        _ ≤ best (d :: demands) free := gain_le_best hoffered

theorem exists_value_eq_best (demands : List (Demand ι)) (free : Finset ι) :
    ∃ choices, IsPartial demands free choices ∧ value demands choices = best demands free := by
  induction demands generalizing free with
  | nil => exact ⟨[], isPartial_nil, rfl⟩
  | cons d demands ih =>
    obtain ⟨choice, hoffered, hgain⟩ := exists_gain_eq_best d demands free
    obtain ⟨choices, hrest, hvalue⟩ := ih (leave free choice)
    refine ⟨choice :: choices, isPartial_cons.mpr ⟨hoffered, hrest⟩, ?_⟩
    rw [← hgain, value, hvalue, gain]

theorem isGreatest_best (demands : List (Demand ι)) (free : Finset ι) :
    IsGreatest {v | ∃ choices, IsPartial demands free choices ∧ value demands choices = v}
      (best demands free) := by
  refine ⟨exists_value_eq_best demands free, ?_⟩
  rintro v ⟨choices, hassigned, rfl⟩
  exact value_le_best hassigned

/-- The optimistic bound: every demand that could get something from what is free gets it. -/
def attainable : List (Demand ι) → Finset ι → Nat
  | [], _ => 0
  | d :: demands, free =>
      (if (free ∩ d.allowed).Nonempty then d.weight else 0) + attainable demands free

theorem attainable_mono (demands : List (Demand ι)) {less : Finset ι} (h : less ⊆ free) :
    attainable demands less ≤ attainable demands free := by
  induction demands with
  | nil => exact Nat.le_refl 0
  | cons d demands ih =>
    refine Nat.add_le_add ?_ ih
    by_cases hless : (less ∩ d.allowed).Nonempty
    · rw [if_pos hless, if_pos (hless.mono (Finset.inter_subset_inter_right h))]
    · rw [if_neg hless]
      exact Nat.zero_le _

theorem leave_subset (free : Finset ι) (choice : Option ι) : leave free choice ⊆ free := by
  intro p hp
  exact (mem_leave.mp hp).1

theorem best_le_attainable (demands : List (Demand ι)) (free : Finset ι) :
    best demands free ≤ attainable demands free := by
  induction demands generalizing free with
  | nil => exact Nat.le_refl 0
  | cons d demands ih =>
    obtain ⟨choice, hoffered, hgain⟩ := exists_gain_eq_best d demands free
    rw [← hgain]
    refine Nat.add_le_add ?_
      ((ih (leave free choice)).trans (attainable_mono demands (leave_subset free choice)))
    cases choice with
    | none => exact Nat.zero_le _
    | some p =>
      have hp : (free ∩ d.allowed).Nonempty := ⟨p, offered_some.mp hoffered⟩
      rw [if_pos hp]
      exact Nat.le_refl _

theorem attainable_eq_zero (h : best demands free = 0) : attainable demands free = 0 := by
  induction demands generalizing free with
  | nil => rfl
  | cons d demands ih =>
    have hskip : gain d demands free none ≤ best (d :: demands) free :=
      gain_le_best offered_none
    have hrest : best demands free = 0 := by
      rw [h, gain] at hskip
      simpa [leave] using hskip
    rw [attainable, ih hrest, Nat.add_zero]
    by_cases hsome : (free ∩ d.allowed).Nonempty
    · obtain ⟨p, hp⟩ := hsome
      have hpick : gain d demands free (some p) ≤ best (d :: demands) free :=
        gain_le_best (offered_some.mpr hp)
      rw [h, gain] at hpick
      rw [if_pos ⟨p, hp⟩]
      simp only [Option.isSome_some, if_true] at hpick
      omega
    · exact if_neg hsome

theorem attainable_le_total (demands : List (Demand ι)) (free : Finset ι) :
    attainable demands free ≤ (demands.map Demand.weight).sum := by
  induction demands with
  | nil => exact Nat.le_refl 0
  | cons d demands ih =>
    rw [List.map_cons, List.sum_cons]
    refine Nat.add_le_add ?_ ih
    split_ifs
    · exact Nat.le_refl _
    · exact Nat.zero_le _

end Choices

end Assignment
