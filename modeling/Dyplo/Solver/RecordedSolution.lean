import Dyplo.Solver.WeightedPartitioner

/-!
# The solution that `WeightedPartitioner` records

Every level of the search keeps its own best score, over all branches. Where the branch that
gives the result ends early, the levels below it keep entries of branches that lost, and
`solution` may then put two functions on one partition.
-/

namespace Dyplo

open Assignment FirstMaximum BitMembers

/-- The scores of the functions that have a partition. -/
def assignedScore : List WeightedFunction → List Int → Nat
  | f :: functions, x :: solution =>
      (if 0 ≤ x then f.score.toNat else 0) + assignedScore functions solution
  | _, _ => 0

/-- The solution gives distinct available partitions to functions that allow them, and its
scores add up to the returned one. -/
structure Realises (functions : List WeightedFunction) (availableMask : BitVec 32)
    (solution : List Int) (score : BitVec 32) : Prop where
  length : solution.length = functions.length
  allowed : ∀ (i : Nat) (x : Int) (f : WeightedFunction), solution[i]? = some x →
    functions[i]? = some f → 0 ≤ x →
    availableMask.getLsbD x.toNat = true ∧ f.mask.getLsbD x.toNat = true
  distinct : ∀ (i j : Nat) (x : Int), solution[i]? = some x → solution[j]? = some x → 0 ≤ x → i = j
  scores : assignedScore functions solution = score.toNat

private theorem localSolution_nonneg {choice : Option Nat} :
    0 ≤ localSolution choice ↔ ∃ p, choice = some p := by
  cases choice with
  | none => exact iff_of_false (by decide) (fun ⟨p, hp⟩ => by cases hp)
  | some p => exact iff_of_true (Int.natCast_nonneg p) ⟨p, rfl⟩

private theorem assignedScore_map (functions : List WeightedFunction)
    (choices : List (Option Nat)) :
    assignedScore functions (choices.map localSolution) =
      value (functions.map WeightedFunction.demand) choices := by
  induction functions generalizing choices with
  | nil => rfl
  | cons f functions ih =>
    cases choices with
    | nil => rfl
    | cons choice choices =>
      rw [List.map_cons, List.map_cons, assignedScore, value, ih]
      congr 1
      cases choice with
      | none => rfl
      | some p => exact if_pos (Int.natCast_nonneg p)

/-- A vector of choices, in the way `solution` holds it. -/
theorem realises_map_iff {functions : List WeightedFunction} {availableMask score : BitVec 32}
    {choices : List (Option Nat)} :
    Realises functions availableMask (choices.map localSolution) score ↔
      IsPartial (functions.map WeightedFunction.demand) (members availableMask) choices ∧
        value (functions.map WeightedFunction.demand) choices = score.toNat := by
  constructor
  · intro h
    refine ⟨⟨?_, ?_, ?_⟩, ?_⟩
    · simpa using h.length
    · intro k d p hd hp
      obtain ⟨f, hf, rfl⟩ : ∃ f, functions[k]? = some f ∧ f.demand = d := by
        simpa using hd
      have hx : (choices.map localSolution)[k]? = some (p : Int) := by
        rw [List.getElem?_map, hp]
        rfl
      obtain ⟨havailable, hmask⟩ := h.allowed k p f hx hf (Int.natCast_nonneg p)
      exact ⟨mem_members.mpr havailable, mem_members.mpr hmask⟩
    · intro j k p hj hk
      refine h.distinct j k p ?_ ?_ (Int.natCast_nonneg p)
      · rw [List.getElem?_map, hj]
        rfl
      · rw [List.getElem?_map, hk]
        rfl
    · rw [← assignedScore_map]
      exact h.scores
  · rintro ⟨h, hvalue⟩
    -- a non-negative entry is a choice
    have hchoice : ∀ (k : Nat) (x : Int), (choices.map localSolution)[k]? = some x → 0 ≤ x →
        choices[k]? = some (some x.toNat) := by
      intro k x hx hnonneg
      obtain ⟨choice, hk, rfl⟩ :
          ∃ choice, choices[k]? = some choice ∧ localSolution choice = x := by
        simpa using hx
      obtain ⟨p, rfl⟩ := localSolution_nonneg.mp hnonneg
      exact hk
    refine ⟨by simpa using h.length, ?_, ?_, ?_⟩
    · intro i x f hx hf hnonneg
      have hd : (functions.map WeightedFunction.demand)[i]? = some f.demand := by
        rw [List.getElem?_map, hf]
        rfl
      obtain ⟨havailable, hmask⟩ := h.allowed i f.demand x.toNat hd (hchoice i x hx hnonneg)
      exact ⟨mem_members.mp havailable, mem_members.mp hmask⟩
    · intro i j x hi hj hnonneg
      exact h.distinct i j x.toNat (hchoice i x hi hnonneg) (hchoice j x hj hnonneg)
    · rw [assignedScore_map]
      exact hvalue

namespace WeightedPartitioner

private theorem solution_eq (p : WeightedPartitioner) {records : PartitionRecords}
    {c : SearchCall Nat}
    (h : p.startRecords.Absorbs records 0 (levelRecords p.demands [c])) :
    records.solution = (recorded p.demands [c]).map localSolution := by
  have hlength : records.solution.length = p.functions.length := by
    rw [h.solution]
    exact List.length_replicate
  have hdemands : p.demands.length = p.functions.length := List.length_map _
  apply List.ext_getElem?
  intro k
  rw [List.getElem?_map]
  by_cases hk : k < p.functions.length
  · have hentry := congrArg Prod.snd (h.entry k)
    have hstart : p.startRecords.entry k = (0, localSolution none) := by
      simp [PartitionRecords.entry, startRecords, localSolution, hk]
    rw [Nat.zero_add, hstart] at hentry
    rw [recorded_getElem _ _ k (hdemands ▸ hk), Option.map_some]
    rw [foldl_improve_translate localSolution Prod.snd _ (0, none)] at hentry
    change _ = localSolution _ at hentry
    have hin : k < records.solution.length := hlength ▸ hk
    rw [← hentry, List.getElem?_eq_getElem hin]
    change _ = some (records.solution.getD k (-1))
    rw [List.getD_eq_getElem?_getD, List.getElem?_eq_getElem hin, Option.getD_some]
  · rw [List.getElem?_eq_none (by omega), List.getElem?_eq_none
      (by rw [recorded_length]; omega)]
    rfl

/-- The recorded solution realises the returned score exactly when the levels of the search
settle. -/
theorem solve_realises_iff (p : WeightedPartitioner) (htotal : totalScore p.functions < 2 ^ 32)
    (availableMask : BitVec 32) {turns : Nat} (hturns : 33 ≤ turns) :
    ∃ score p', p.solve turns availableMask = some (score, p') ∧
      (Realises p.functions availableMask p'.records.solution score ↔
        Settles p.demands [⟨members availableMask, 0⟩]) := by
  obtain ⟨records, hsolve, habsorbs⟩ := p.solve_spec htotal availableMask hturns
  refine ⟨_, _, hsolve, ?_⟩
  change Realises p.functions availableMask records.solution _ ↔ _
  rw [p.solution_eq habsorbs, realises_map_iff, BitVec.toNat_ofNat,
    Nat.mod_eq_of_lt (best_lt htotal _)]
  exact recorded_optimal_iff (c := ⟨members availableMask, 0⟩) List.argmax_singleton

/-- Four functions on two partitions. The best branch gives both to the first two functions and
calls nobody below them; the last function keeps the entry of a branch without the first. -/
def leftover : WeightedPartitioner where
  functions := [⟨0b11, 1⟩, ⟨0b01, 5⟩, ⟨0b00, 1⟩, ⟨0b10, 1⟩]
  records := ⟨[], []⟩

theorem solve_realises_iff_leftover :
    totalScore leftover.functions < 2 ^ 32 ∧
    ∃ score p', leftover.solve 33 0b11 = some (score, p') ∧
      (Realises leftover.functions 0b11 p'.records.solution score ↔
        Settles leftover.demands [⟨members (0b11 : BitVec 32), 0⟩]) :=
  ⟨by decide, leftover.solve_realises_iff (by decide) 0b11 (Nat.le_refl 33)⟩

/-- Six is returned, but two functions are put on partition 1 and the scores add up to seven. -/
theorem leftover_not_realises :
    ∃ p', leftover.solve 33 0b11 = some (6, p') ∧ p'.records.solution = [1, 0, -1, 1] ∧
      ¬Realises leftover.functions 0b11 p'.records.solution 6 := by
  refine ⟨{ leftover with records := ⟨[1, 0, -1, 1], [6, 6, 6, 6]⟩ }, rfl, rfl, ?_⟩
  intro h
  exact absurd (h.distinct 0 3 1 rfl rfl (by decide)) (by decide)

end WeightedPartitioner

end Dyplo
