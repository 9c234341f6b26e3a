import Dyplo.Library.Assignment
import Dyplo.Library.BitMembers

/-!
# `Partitioner`

Every function is put on a partition of its own. The call for a function returns what the call
for the next one has returned for the first partition that fits: no other partition is tried,
and without one the loop has to get past the last bit of the mask.
-/

namespace Dyplo

open Assignment BitMembers

structure Partitioner where
  functionMasks : List (BitVec 32)
  solution : List Nat

namespace Partitioner

/-- The loop of `recurse`: `recurse` stands for the recursive call, `functionIndex` is the entry
of `solution` that is written, and `turns` bounds the number of turns. -/
def findPartition (recurse : BitVec 32 → List Nat → Option (Int × List Nat))
    (functionMask : BitVec 32) (functionIndex : Nat) (mask : BitVec 32) :
    (turns index : Nat) → (indexBit : BitVec 32) → List Nat → Option (Int × List Nat)
  | 0, _, _, _ => none
  | turns + 1, index, indexBit, solution =>
      if indexBit ≤ mask then
        if mask &&& indexBit ≠ 0#32 ∧ functionMask &&& indexBit ≠ 0#32 then
          (recurse (mask &&& ~~~indexBit) solution).map fun (r, solution) =>
            (r, if 0 ≤ r then solution.set functionIndex index else solution)
        else
          findPartition recurse functionMask functionIndex mask turns (index + 1)
            (indexBit <<< 1) solution
      else some (-1, solution)

/-- `recurse`, with the functions from `functionIndex` on. -/
def recurse (turns : Nat) : List (BitVec 32) → (functionIndex : Nat) → (mask : BitVec 32) →
    List Nat → Option (Int × List Nat)
  | [], _, _, solution => some (0, solution)
  | functionMask :: functionMasks, functionIndex, mask, solution =>
      findPartition (recurse turns functionMasks (functionIndex + 1)) functionMask functionIndex
        mask turns 0 1 solution

/-- `std::vector::resize`. -/
def resize (solution : List Nat) (size : Nat) : List Nat :=
  solution.take size ++ List.replicate (size - solution.length) 0

def solve (p : Partitioner) (turns : Nat) (availableMask : BitVec 32) :
    Option (Int × Partitioner) :=
  (recurse turns p.functionMasks 0 availableMask
    (resize p.solution p.functionMasks.length)).map
    fun (r, solution) => (r, { p with solution := solution })

def demands (functionMasks : List (BitVec 32)) : List (Demand Nat) :=
  functionMasks.map fun functionMask => ⟨members functionMask, 1⟩

/-- Every function gets an available partition that its mask allows, and no two get the same. -/
def IsAssignment (functionMasks : List (BitVec 32)) (availableMask : BitVec 32)
    (solution : List Nat) : Prop :=
  IsPartial (demands functionMasks) (members availableMask) (solution.map some)

/-- `solve` ends, tells whether there is an assignment, and leaves one in `solution`. -/
def Decides (p : Partitioner) (availableMask : BitVec 32) : Prop :=
  ∃ r p' bound, (∀ turns, bound ≤ turns → p.solve turns availableMask = some (r, p')) ∧
    (0 ≤ r ↔ ∃ solution, IsAssignment p.functionMasks availableMask solution) ∧
    (0 ≤ r → IsAssignment p.functionMasks availableMask p'.solution)

/-- The lowest free partition that a function allows. -/
def lowest (functionMask mask : BitVec 32) : Option Nat :=
  (common mask functionMask 0).head?

/-- First fit: each function in turn takes the lowest free partition that it allows. -/
def firstFit : List (BitVec 32) → BitVec 32 → List Nat
  | [], _ => []
  | functionMask :: functionMasks, mask =>
      match lowest functionMask mask with
      | none => []
      | some p => p :: firstFit functionMasks (mask &&& ~~~BitVec.twoPow 32 p)

/-- What is still free where first fit gets stuck, if it does. -/
def leftWhenStuck : List (BitVec 32) → BitVec 32 → Option (BitVec 32)
  | [], _ => none
  | functionMask :: functionMasks, mask =>
      match lowest functionMask mask with
      | none => some mask
      | some p => leftWhenStuck functionMasks (mask &&& ~~~BitVec.twoPow 32 p)

section Loop

variable {next : BitVec 32 → List Nat → Option (Int × List Nat)} {functionMask mask : BitVec 32}
  {functionIndex turns index p : Nat} {solution : List Nat}

/-- Where nothing fits, a mask with its last bit set is never less than the bit, and the loop
does not end. -/
theorem findPartition_hangs (hnone : ∀ p, index ≤ p → p ∉ members mask ∩ members functionMask)
    (hlast : 31 ∈ members mask) (turns : Nat) :
    findPartition next functionMask functionIndex mask turns index (BitVec.twoPow 32 index)
      solution = none := by
  induction turns generalizing index with
  | zero => rfl
  | succ turns ih =>
    have hle : BitVec.twoPow 32 index ≤ mask := by
      by_cases hindex : index < 32
      · exact (twoPow_le hindex).mpr ⟨31, hlast, by omega⟩
      · rw [BitVec.le_def, BitVec.toNat_twoPow_of_le (Nat.le_of_not_lt hindex)]
        exact Nat.zero_le _
    rw [findPartition, if_pos hle, if_neg (mt twoPow_mem_both.mp (hnone index (Nat.le_refl _))),
      twoPow_shiftLeft_one]
    exact ih fun p hp => hnone p (by omega)

private theorem findPartition_fails
    (hnone : ∀ p, index ≤ p → p ∉ members mask ∩ members functionMask)
    (hlast : 31 ∉ members mask) (hindex : index ≤ 31) (hturns : 32 ≤ turns + index) :
    findPartition next functionMask functionIndex mask turns index (BitVec.twoPow 32 index)
      solution = some (-1, solution) := by
  induction turns generalizing index with
  | zero => omega
  | succ turns ih =>
    rw [findPartition]
    by_cases hle : BitVec.twoPow 32 index ≤ mask
    · obtain ⟨j, hj, hij⟩ := (twoPow_le (by omega)).mp hle
      have hbefore : index ≠ 31 := by
        rintro rfl
        have hlt := lt_of_mem hj
        obtain rfl : j = 31 := by omega
        exact hlast hj
      rw [if_pos hle, if_neg (mt twoPow_mem_both.mp (hnone index (Nat.le_refl _))),
        twoPow_shiftLeft_one]
      exact ih (fun p hp => hnone p (by omega)) (by omega) (by omega)
    · rw [if_neg hle]

/-- The loop stops at the first partition that fits, whatever the recursive call returns. -/
theorem findPartition_finds {rest : List Nat} (hcommon : common mask functionMask index = p :: rest)
    (turns : Nat) :
    findPartition next functionMask functionIndex mask turns index (BitVec.twoPow 32 index)
      solution =
        if p < index + turns then
          (next (mask &&& ~~~BitVec.twoPow 32 p) solution).map fun (r, solution) =>
            (r, if 0 ≤ r then solution.set functionIndex p else solution)
        else none := by
  have hmem : p ∈ common mask functionMask index := hcommon ▸ List.mem_cons_self
  obtain ⟨hindex, hp⟩ := mem_common.mp hmem
  induction turns generalizing index with
  | zero => rw [if_neg (by omega), findPartition]
  | succ turns ih =>
    have hlt : index < 32 := by
      have := lt_of_mem (Finset.mem_inter.mp hp).1
      omega
    have hle : BitVec.twoPow 32 index ≤ mask :=
      (twoPow_le hlt).mpr ⟨p, (Finset.mem_inter.mp hp).1, hindex⟩
    rw [findPartition, if_pos hle]
    rw [common_eq hlt] at hcommon
    by_cases hfits : index ∈ members mask ∩ members functionMask
    · rw [if_pos hfits] at hcommon
      obtain ⟨rfl, -⟩ := List.cons.inj hcommon
      rw [if_pos (twoPow_mem_both.mpr hfits), if_pos (by omega)]
    · rw [if_neg hfits] at hcommon
      have hne : index ≠ p := fun heq => hfits (heq ▸ hp)
      rw [if_neg (mt twoPow_mem_both.mp hfits), twoPow_shiftLeft_one,
        ih hcommon (hcommon ▸ List.mem_cons_self) (by omega)]
      congr 1
      rw [Nat.add_assoc, Nat.add_comm 1 turns]

end Loop

private theorem lowest_eq_none {functionMask mask : BitVec 32}
    (h : lowest functionMask mask = none) :
    ∀ p, 0 ≤ p → p ∉ members mask ∩ members functionMask := by
  intro p hp hmem
  have hcommon := mem_common.mpr ⟨hp, hmem⟩
  rw [List.head?_eq_none_iff.mp h] at hcommon
  cases hcommon

private theorem lowest_eq_some {functionMask mask : BitVec 32} {p : Nat}
    (h : lowest functionMask mask = some p) :
    p ∈ members mask ∩ members functionMask ∧ ∃ rest, common mask functionMask 0 = p :: rest :=
  ⟨(mem_common.mp (List.mem_of_mem_head? h)).2, List.head?_eq_some_iff.mp h⟩

private theorem recurse_cons {functionMask mask : BitVec 32} {functionMasks : List (BitVec 32)}
    {p : Nat}
    (h : lowest functionMask mask = some p) (turns functionIndex : Nat) (solution : List Nat) :
    recurse turns (functionMask :: functionMasks) functionIndex mask solution =
      if p < turns then
        (recurse turns functionMasks (functionIndex + 1) (mask &&& ~~~BitVec.twoPow 32 p)
          solution).map fun (r, solution) =>
            (r, if 0 ≤ r then solution.set functionIndex p else solution)
      else none := by
  obtain ⟨-, rest, hcommon⟩ := lowest_eq_some h
  change findPartition (recurse turns functionMasks (functionIndex + 1)) functionMask
    functionIndex mask turns 0 (BitVec.twoPow 32 0) solution = _
  rw [findPartition_finds hcommon, Nat.zero_add]

private theorem set_take_append {xs ys : List Nat} {i p : Nat} (hi : i < xs.length) :
    (xs.take (i + 1) ++ ys).set i p = xs.take i ++ p :: ys := by
  have hlen : (xs.take i).length = i := List.length_take_of_le hi.le
  rw [List.take_succ_eq_append_getElem hi, List.append_assoc, List.set_append_right _ _ hlen.le,
    hlen, Nat.sub_self]
  rfl

private theorem recurse_fits {functionMasks : List (BitVec 32)} {mask : BitVec 32}
    (h : leftWhenStuck functionMasks mask = none) {turns functionIndex : Nat} (hturns : 32 ≤ turns)
    {solution : List Nat} (hlen : solution.length = functionIndex + functionMasks.length) :
    recurse turns functionMasks functionIndex mask solution =
      some (0, solution.take functionIndex ++ firstFit functionMasks mask) := by
  induction functionMasks generalizing mask functionIndex with
  | nil =>
    have hall : solution.length ≤ functionIndex := hlen.le
    rw [recurse, firstFit, List.append_nil, List.take_of_length_le hall]
  | cons functionMask functionMasks ih =>
    rw [List.length_cons] at hlen
    rw [leftWhenStuck] at h
    cases hlowest : lowest functionMask mask with
    | none =>
      rw [hlowest] at h
      cases h
    | some p =>
      rw [hlowest] at h
      have hp := lt_of_mem (Finset.mem_inter.mp (lowest_eq_some hlowest).1).1
      rw [recurse_cons hlowest, if_pos (by omega), ih h (by omega), Option.map_some, firstFit,
        hlowest]
      change some ((0 : Int), (solution.take (functionIndex + 1) ++ _).set functionIndex p) = _
      rw [set_take_append (by omega)]

private theorem recurse_fails {functionMasks : List (BitVec 32)} {mask left : BitVec 32}
    (h : leftWhenStuck functionMasks mask = some left) (hlast : 31 ∉ members left)
    {turns functionIndex : Nat} (hturns : 32 ≤ turns) {solution : List Nat} :
    recurse turns functionMasks functionIndex mask solution = some (-1, solution) := by
  induction functionMasks generalizing mask functionIndex with
  | nil => cases h
  | cons functionMask functionMasks ih =>
    rw [leftWhenStuck] at h
    cases hlowest : lowest functionMask mask with
    | none =>
      rw [hlowest] at h
      obtain rfl := Option.some.inj h
      exact findPartition_fails (lowest_eq_none hlowest) hlast (Nat.zero_le _) hturns
    | some p =>
      rw [hlowest] at h
      have hp := lt_of_mem (Finset.mem_inter.mp (lowest_eq_some hlowest).1).1
      rw [recurse_cons hlowest, if_pos (by omega), ih h]
      rfl

private theorem recurse_hangs {functionMasks : List (BitVec 32)} {mask left : BitVec 32}
    (h : leftWhenStuck functionMasks mask = some left) (hlast : 31 ∈ members left)
    (turns functionIndex : Nat) (solution : List Nat) :
    recurse turns functionMasks functionIndex mask solution = none := by
  induction functionMasks generalizing mask functionIndex with
  | nil => cases h
  | cons functionMask functionMasks ih =>
    rw [leftWhenStuck] at h
    cases hlowest : lowest functionMask mask with
    | none =>
      rw [hlowest] at h
      obtain rfl := Option.some.inj h
      exact findPartition_hangs (lowest_eq_none hlowest) hlast turns
    | some p =>
      rw [hlowest] at h
      rw [recurse_cons hlowest, ih h]
      split_ifs <;> rfl

private theorem firstFit_isAssignment {functionMasks : List (BitVec 32)} {mask : BitVec 32}
    (h : leftWhenStuck functionMasks mask = none) :
    IsAssignment functionMasks mask (firstFit functionMasks mask) := by
  induction functionMasks generalizing mask with
  | nil => exact isPartial_nil
  | cons functionMask functionMasks ih =>
    rw [leftWhenStuck] at h
    cases hlowest : lowest functionMask mask with
    | none =>
      rw [hlowest] at h
      cases h
    | some p =>
      rw [hlowest] at h
      have hrest := ih h
      rw [IsAssignment, members_clear] at hrest
      rw [firstFit, hlowest]
      exact isPartial_cons.mpr ⟨offered_some.mpr (lowest_eq_some hlowest).1, hrest⟩

private theorem resize_length (solution : List Nat) (size : Nat) :
    (resize solution size).length = size := by
  rw [resize, List.length_append, List.length_take, List.length_replicate]
  omega

/-- `solve` decides assignability exactly when first fit never gets stuck where an assignment
exists or where the last partition is still free. -/
theorem decides_iff (p : Partitioner) (availableMask : BitVec 32) :
    p.Decides availableMask ↔
      ∀ left, leftWhenStuck p.functionMasks availableMask = some left →
        31 ∉ members left ∧
          ¬∃ solution, IsAssignment p.functionMasks availableMask solution := by
  constructor
  · rintro ⟨r, p', bound, hsolve, hiff, -⟩ left hleft
    have hlast : 31 ∉ members left := by
      intro hlast
      have hnone := hsolve bound (Nat.le_refl _)
      rw [solve, recurse_hangs hleft hlast] at hnone
      cases hnone
    refine ⟨hlast, fun hassignable => ?_⟩
    have hresult := hsolve (max bound 32) (le_max_left _ _)
    rw [solve, recurse_fails hleft hlast (le_max_right _ _)] at hresult
    obtain ⟨rfl, -⟩ := Prod.mk.inj (Option.some.inj hresult)
    exact absurd (hiff.mpr hassignable) (by decide)
  · intro h
    cases hleft : leftWhenStuck p.functionMasks availableMask with
    | none =>
      have hfits := firstFit_isAssignment hleft
      refine ⟨0, { p with solution := firstFit p.functionMasks availableMask }, 32, ?_,
        iff_of_true (Int.le_refl 0) ⟨_, hfits⟩, fun _ => hfits⟩
      intro turns hturns
      rw [solve, recurse_fits hleft hturns (by rw [resize_length, Nat.zero_add])]
      rfl
    | some left =>
      obtain ⟨hlast, hnone⟩ := h left hleft
      refine ⟨-1, { p with solution := resize p.solution p.functionMasks.length }, 32, ?_,
        iff_of_false (by decide) hnone, fun hr => absurd hr (by decide)⟩
      intro turns hturns
      rw [solve, recurse_fails hleft hlast hturns]
      rfl

/-- Two functions: the first one may use both partitions, the second one only partition 0. -/
def crossing : Partitioner where
  functionMasks := [0b11, 0b01]
  solution := []

/-- The first function takes partition 0 and `solve` gives up, although the functions can be
assigned the other way round. -/
theorem crossing_not_decides :
    crossing.solve 32 0b11 = some (-1, { crossing with solution := [0, 0] }) ∧
    IsAssignment crossing.functionMasks 0b11 [1, 0] ∧ ¬crossing.Decides 0b11 := by
  have hassignment : IsAssignment crossing.functionMasks 0b11 [1, 0] := by
    refine isPartial_cons.mpr ⟨offered_some.mpr (by decide), ?_⟩
    exact isPartial_cons.mpr ⟨offered_some.mpr (by decide), isPartial_nil⟩
  refine ⟨rfl, hassignment, ?_⟩
  rintro ⟨r, p', bound, hsolve, hiff, -⟩
  have hresult := hsolve (max bound 32) (le_max_left _ _)
  have hstuck : leftWhenStuck crossing.functionMasks 0b11 = some 0b10 := by decide
  rw [solve, recurse_fails hstuck (by decide) (le_max_right _ _)] at hresult
  obtain ⟨rfl, -⟩ := Prod.mk.inj (Option.some.inj hresult)
  exact absurd (hiff.mpr ⟨_, hassignment⟩) (by decide)

end Partitioner

end Dyplo
