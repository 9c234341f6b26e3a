import Dyplo.Library.Assignment
import Dyplo.Library.FirstMaximum
import Mathlib.Data.Finset.Sort

/-!
# Branch and bound with one record for each level

What `WeightedPartitioner` searches, without its bits and its arithmetic. A call on a level
tries the free partitions of its function in ascending order and then leaves the function out,
until it has reached the bound. Every level keeps the choice of the first of its calls with the
greatest outcome.
-/

universe u

namespace Dyplo

open Assignment FirstMaximum

/-- The arguments of one call: the partitions still free and the score so far. -/
structure SearchCall (ι : Type u) where
  free : Finset ι
  score : Nat

variable {ι : Type u} [LinearOrder ι]

/-- The choices of a call in the order in which they are tried. -/
def alternatives (d : Demand ι) (free : Finset ι) : List (Option ι) :=
  ((free ∩ d.allowed).sort (· ≤ ·)).map some ++ [none]

private theorem mem_alternatives {d : Demand ι} {free : Finset ι} {choice : Option ι} :
    choice ∈ alternatives d free ↔ Offered d free choice := by
  cases choice with
  | none => simp [alternatives, offered_none]
  | some p => simp [alternatives, offered_some]

namespace SearchCall

/-- What the call returns. -/
def outcome (demands : List (Demand ι)) (c : SearchCall ι) : Nat :=
  c.score + best demands c.free

/-- The call that follows a choice. -/
def descend (d : Demand ι) (c : SearchCall ι) (choice : Option ι) : SearchCall ι :=
  ⟨leave c.free choice, c.score + if choice.isSome then d.weight else 0⟩

/-- The choices that the call follows before it reaches its bound. -/
def triedChoices (d : Demand ι) (demands : List (Demand ι)) (c : SearchCall ι) :
    List (Option ι) :=
  tried (attainable (d :: demands) c.free) (gain d demands c.free) 0 (alternatives d c.free)

def children (d : Demand ι) (demands : List (Demand ι)) (c : SearchCall ι) :
    List (SearchCall ι) :=
  (c.triedChoices d demands).map (c.descend d)

/-- What the call has gained at its end, and `local_solution`. -/
def kept (d : Demand ι) (demands : List (Demand ι)) (c : SearchCall ι) : Nat × Option ι :=
  (c.triedChoices d demands).foldl (improve (gain d demands c.free) id) (0, none)

def choice (d : Demand ι) (demands : List (Demand ι)) (c : SearchCall ι) : Option ι :=
  (c.kept d demands).2

variable {d : Demand ι} {demands : List (Demand ι)} {c : SearchCall ι}

theorem outcome_descend (choice : Option ι) :
    (c.descend d choice).outcome demands = c.score + gain d demands c.free choice := by
  rw [outcome, descend, gain, Nat.add_assoc]

/-- The partitions among the tried choices. -/
def triedPartitions (d : Demand ι) (demands : List (Demand ι)) (c : SearchCall ι) :
    List (Option ι) :=
  tried (attainable (d :: demands) c.free) (gain d demands c.free) 0
    (((c.free ∩ d.allowed).sort (· ≤ ·)).map some)

theorem triedChoices_eq (d : Demand ι) (demands : List (Demand ι)) (c : SearchCall ι) :
    c.triedChoices d demands = c.triedPartitions d demands ++
      if ((c.triedPartitions d demands).foldl (improve (gain d demands c.free) id)
        (0, none)).1 < attainable (d :: demands) c.free then [none] else [] :=
  tried_concat id _ none (0, none)

private theorem offered_of_tried {choice : Option ι} (h : choice ∈ c.triedChoices d demands) :
    Offered d c.free choice :=
  mem_alternatives.mp (tried_subset h)

private theorem outcome_child_le {x : SearchCall ι} (h : x ∈ c.children d demands) :
    x.outcome demands ≤ c.outcome (d :: demands) := by
  obtain ⟨choice, htried, rfl⟩ := List.mem_map.mp h
  rw [outcome_descend, outcome]
  exact Nat.add_le_add_left (gain_le_best (offered_of_tried htried)) _

private theorem gain_le_attainable :
    ∀ choice ∈ alternatives d c.free,
      gain d demands c.free choice ≤ attainable (d :: demands) c.free := by
  intro choice h
  exact (gain_le_best (mem_alternatives.mp h)).trans (best_le_attainable _ _)

private theorem exists_choice (h : 0 < best (d :: demands) c.free) :
    ∃ choice, Offered d c.free choice ∧
      gain d demands c.free choice = best (d :: demands) c.free ∧
      (c.triedChoices d demands).argmax (gain d demands c.free) = some choice ∧
      c.kept d demands = (best (d :: demands) c.free, choice) := by
  obtain ⟨top, hoffered, htop⟩ := exists_gain_eq_best d demands c.free
  have hmem : top ∈ alternatives d c.free := mem_alternatives.mpr hoffered
  cases hfirst : (alternatives d c.free).argmax (gain d demands c.free) with
  | none =>
    rw [List.argmax_eq_none.mp hfirst] at hmem
    cases hmem
  | some choice =>
    have hchoice := mem_alternatives.mp (List.argmax_mem hfirst)
    have hgain : gain d demands c.free choice = best (d :: demands) c.free := by
      apply le_antisymm (gain_le_best hchoice)
      rw [← htop]
      exact List.le_of_mem_argmax hmem hfirst
    have hpos : 0 < gain d demands c.free choice := hgain ▸ h
    have htried : (c.triedChoices d demands).argmax (gain d demands c.free) = some choice :=
      argmax_tried gain_le_attainable hfirst hpos
    refine ⟨choice, hchoice, hgain, htried, ?_⟩
    rw [kept, foldl_improve, htried, Option.elim_some, improve_of_lt hpos, hgain]
    rfl

private theorem triedChoices_eq_nil (h : best (d :: demands) c.free = 0) :
    c.triedChoices d demands = [] := by
  rw [triedChoices, attainable_eq_zero h]
  cases alternatives d c.free with
  | nil => rfl
  | cons x xs => exact if_neg (Nat.lt_irrefl 0)

private theorem choice_eq_none
    (h : best (d :: demands) c.free = 0) : c.choice d demands = none := by
  rw [choice, kept, triedChoices_eq_nil h]
  rfl

theorem kept_fst (d : Demand ι) (demands : List (Demand ι)) (c : SearchCall ι) :
    (c.kept d demands).1 = best (d :: demands) c.free := by
  rcases Nat.eq_zero_or_pos (best (d :: demands) c.free) with hzero | hpos
  · rw [kept, triedChoices_eq_nil hzero, hzero]
    rfl
  · obtain ⟨choice, -, -, -, hkept⟩ := exists_choice hpos
    rw [hkept]

end SearchCall

/-- What the levels end up with, from the calls on the first of them: each level keeps the
choice of the first of its calls with the greatest outcome. -/
def recorded : List (Demand ι) → List (SearchCall ι) → List (Option ι)
  | [], _ => []
  | d :: demands, calls =>
      ((calls.argmax (SearchCall.outcome (d :: demands))).bind (SearchCall.choice d demands)) ::
        recorded demands (calls.flatMap (SearchCall.children d demands))

/-- The outcomes and choices of the calls on the `k`-th level below the given ones. -/
def levelRecords : List (Demand ι) → List (SearchCall ι) → Nat → List (Nat × Option ι)
  | [], _, _ => []
  | d :: demands, calls, 0 =>
      calls.map fun c => (c.outcome (d :: demands), c.choice d demands)
  | d :: demands, calls, k + 1 =>
      levelRecords demands (calls.flatMap (SearchCall.children d demands)) k

theorem levelRecords_append (demands : List (Demand ι)) (calls more : List (SearchCall ι))
    (k : Nat) : levelRecords demands (calls ++ more) k =
      levelRecords demands calls k ++ levelRecords demands more k := by
  induction demands generalizing calls more k with
  | nil => rfl
  | cons d demands ih =>
    cases k with
    | zero => exact List.map_append
    | succ k =>
      rw [levelRecords, List.flatMap_append]
      exact ih _ _ k

theorem levelRecords_nil (demands : List (Demand ι)) (k : Nat) :
    levelRecords demands [] k = [] := by
  induction demands generalizing k with
  | nil => rfl
  | cons d demands ih =>
    cases k with
    | zero => rfl
    | succ k => exact ih k

/-- Where the first greatest call of a level can gain nothing more, so it is for the first
greatest call of the next level. -/
def Settles : List (Demand ι) → List (SearchCall ι) → Prop
  | [], _ => True
  | d :: demands, calls =>
      (∀ c next, calls.argmax (SearchCall.outcome (d :: demands)) = some c →
        (calls.flatMap (SearchCall.children d demands)).argmax
          (SearchCall.outcome demands) = some next →
        best (d :: demands) c.free = 0 → best demands next.free = 0) ∧
      Settles demands (calls.flatMap (SearchCall.children d demands))

/-- What a level records, from its calls one after the other. -/
theorem recorded_getElem (demands : List (Demand ι)) (calls : List (SearchCall ι)) (k : Nat)
    (hk : k < demands.length) :
    (recorded demands calls)[k]? =
      some ((levelRecords demands calls k).foldl (improve Prod.fst Prod.snd) (0, none)).2 := by
  induction demands generalizing calls k with
  | nil => exact absurd hk (Nat.not_lt_zero k)
  | cons d demands ih =>
    cases k with
    | succ k => exact ih _ k (Nat.lt_of_succ_lt_succ hk)
    | zero =>
      rw [recorded, List.getElem?_cons_zero, levelRecords, List.foldl_map]
      change some _ = some (calls.foldl (improve (SearchCall.outcome (d :: demands))
        (SearchCall.choice d demands)) (0, none)).2
      rw [foldl_improve]
      congr 1
      cases calls.argmax (SearchCall.outcome (d :: demands)) with
      | none => rfl
      | some c =>
        rw [Option.bind_some, Option.elim_some]
        rcases Nat.eq_zero_or_pos (c.outcome (d :: demands)) with hzero | hpos
        · rw [improve_of_le hzero.le]
          exact SearchCall.choice_eq_none (Nat.eq_zero_of_add_eq_zero hzero).2
        · rw [improve_of_lt hpos]

theorem recorded_length (demands : List (Demand ι)) (calls : List (SearchCall ι)) :
    (recorded demands calls).length = demands.length := by
  induction demands generalizing calls with
  | nil => rfl
  | cons d demands ih => exact congrArg Nat.succ (ih _)

section Recorded

variable {d : Demand ι} {demands : List (Demand ι)} {calls : List (SearchCall ι)}
  {c : SearchCall ι}

/-- While the first greatest call of a level can gain something, its choice leads to the first
greatest call of the next level. -/
theorem argmax_next (hc : calls.argmax (SearchCall.outcome (d :: demands)) = some c)
    (h : 0 < best (d :: demands) c.free) :
    ∃ choice, Offered d c.free choice ∧
      gain d demands c.free choice = best (d :: demands) c.free ∧
      c.choice d demands = choice ∧
      (calls.flatMap (SearchCall.children d demands)).argmax (SearchCall.outcome demands) =
        some (c.descend d choice) := by
  obtain ⟨choice, hoffered, hgain, hfirst, hkept⟩ := SearchCall.exists_choice h
  have hchild : (c.children d demands).argmax (SearchCall.outcome demands) =
      some (c.descend d choice) :=
    argmax_map SearchCall.outcome_descend hfirst
  refine ⟨choice, hoffered, hgain, congrArg Prod.snd hkept, ?_⟩
  refine argmax_flatMap (fun x _ y hy => SearchCall.outcome_child_le hy) hc hchild ?_
  rw [SearchCall.outcome_descend, hgain, SearchCall.outcome]

private theorem exists_of_argmax_next {next : SearchCall ι}
    (hnext : (calls.flatMap (SearchCall.children d demands)).argmax
      (SearchCall.outcome demands) = some next) :
    ∃ c, calls.argmax (SearchCall.outcome (d :: demands)) = some c := by
  cases hc : calls.argmax (SearchCall.outcome (d :: demands)) with
  | some c => exact ⟨c, rfl⟩
  | none =>
    rw [List.argmax_eq_none.mp hc] at hnext
    cases hnext

private theorem settles_nil (demands : List (Demand ι)) : Settles demands [] := by
  induction demands with
  | nil => trivial
  | cons d demands ih =>
    refine ⟨?_, ih⟩
    intro c next hc
    cases hc

private theorem exists_of_not_settles (h : ¬Settles demands calls) :
    ∃ c, calls.argmax (SearchCall.outcome demands) = some c := by
  cases hc : calls.argmax (SearchCall.outcome demands) with
  | some c => exact ⟨c, rfl⟩
  | none =>
    rw [List.argmax_eq_none.mp hc] at h
    exact absurd (settles_nil demands) h

private theorem recorded_of_settled (hsettles : Settles demands calls)
    (hzero : ∀ c, calls.argmax (SearchCall.outcome demands) = some c →
      best demands c.free = 0) :
    recorded demands calls = List.replicate demands.length none := by
  induction demands generalizing calls with
  | nil => rfl
  | cons d demands ih =>
    obtain ⟨hstep, hrest⟩ := hsettles
    rw [recorded, List.length_cons, List.replicate_succ, ih hrest]
    · congr 1
      cases hc : calls.argmax (SearchCall.outcome (d :: demands)) with
      | none => rfl
      | some c => exact SearchCall.choice_eq_none (hzero c hc)
    · intro next hnext
      obtain ⟨c, hc⟩ := exists_of_argmax_next hnext
      exact hstep c next hc hnext (hzero c hc)

private theorem recorded_optimal (hsettles : Settles demands calls)
    (hc : calls.argmax (SearchCall.outcome demands) = some c) :
    IsPartial demands c.free (recorded demands calls) ∧
      value demands (recorded demands calls) = best demands c.free := by
  induction demands generalizing calls c with
  | nil => exact ⟨isPartial_nil, rfl⟩
  | cons d demands ih =>
    rcases Nat.eq_zero_or_pos (best (d :: demands) c.free) with hzero | hpos
    · have hall : recorded (d :: demands) calls =
          List.replicate (d :: demands).length none := by
        apply recorded_of_settled hsettles
        intro c' hc'
        obtain rfl := Option.some.inj (hc.symm.trans hc')
        exact hzero
      rw [hall, hzero]
      exact ⟨isPartial_replicate _ _, value_replicate _⟩
    · obtain ⟨choice, hoffered, hgain, hchoice, hnext⟩ := argmax_next hc hpos
      obtain ⟨hassigned, hvalue⟩ := ih hsettles.2 hnext
      rw [recorded, hc, Option.bind_some, hchoice]
      refine ⟨isPartial_cons.mpr ⟨hoffered, hassigned⟩, ?_⟩
      rw [value, hvalue, ← hgain, gain]
      rfl

private theorem best_le_value_recorded (hc : calls.argmax (SearchCall.outcome demands) = some c) :
    best demands c.free ≤ value demands (recorded demands calls) := by
  induction demands generalizing calls c with
  | nil => exact Nat.le_refl 0
  | cons d demands ih =>
    rcases Nat.eq_zero_or_pos (best (d :: demands) c.free) with hzero | hpos
    · rw [hzero]
      exact Nat.zero_le _
    · obtain ⟨choice, -, hgain, hchoice, hnext⟩ := argmax_next hc hpos
      rw [recorded, hc, Option.bind_some, hchoice, value, ← hgain, gain]
      exact Nat.add_le_add_left (ih hnext) _

/-- Levels that do not settle record more than can be met. -/
theorem best_lt_value_recorded (hsettles : ¬Settles demands calls)
    (hc : calls.argmax (SearchCall.outcome demands) = some c) :
    best demands c.free < value demands (recorded demands calls) := by
  induction demands generalizing calls c with
  | nil => exact absurd trivial hsettles
  | cons d demands ih =>
    have htail : value demands
        (recorded demands (calls.flatMap (SearchCall.children d demands))) ≤
        value (d :: demands) (recorded (d :: demands) calls) := by
      rw [recorded, value]
      exact Nat.le_add_left _ _
    by_cases hrest : Settles demands (calls.flatMap (SearchCall.children d demands))
    · -- it is this level that gains nothing while the next one does
      obtain ⟨c', next, hc', hnext, hzero, hgains⟩ : ∃ c' next,
          calls.argmax (SearchCall.outcome (d :: demands)) = some c' ∧
          (calls.flatMap (SearchCall.children d demands)).argmax
            (SearchCall.outcome demands) = some next ∧
          best (d :: demands) c'.free = 0 ∧ best demands next.free ≠ 0 := by
        by_contra hnone
        refine hsettles ⟨fun c' next hc' hnext hzero => ?_, hrest⟩
        by_contra hgains
        exact hnone ⟨c', next, hc', hnext, hzero, hgains⟩
      obtain rfl := Option.some.inj (hc.symm.trans hc')
      rw [hzero]
      have hmet := best_le_value_recorded hnext
      omega
    · rcases Nat.eq_zero_or_pos (best (d :: demands) c.free) with hzero | hpos
      · rw [hzero]
        obtain ⟨next, hnext⟩ := exists_of_not_settles hrest
        have hmore := ih hrest hnext
        omega
      · obtain ⟨choice, -, hgain, hchoice, hnext⟩ := argmax_next hc hpos
        have hmore := ih hrest hnext
        rw [recorded, hc, Option.bind_some, hchoice, value, ← hgain, gain]
        exact Nat.add_lt_add_left hmore _

theorem recorded_optimal_iff (hc : calls.argmax (SearchCall.outcome demands) = some c) :
    IsPartial demands c.free (recorded demands calls) ∧
      value demands (recorded demands calls) = best demands c.free ↔
    Settles demands calls := by
  constructor
  · rintro ⟨-, hvalue⟩
    by_contra hsettles
    exact absurd hvalue (best_lt_value_recorded hsettles hc).ne'
  · intro hsettles
    exact recorded_optimal hsettles hc

end Recorded

end Dyplo
