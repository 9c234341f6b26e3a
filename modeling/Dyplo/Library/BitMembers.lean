import Mathlib.Data.Finset.Sort

/-!
# Bit vectors as sets of their bits

A mask stands for the set of its one bits. A loop that shifts a single bit upwards visits the
members in ascending order, and has visited them all once the bit exceeds the mask or has been
shifted out.
-/

namespace BitMembers

open BitVec

variable {w : Nat}

def members (x : BitVec w) : Finset Nat := (Finset.range w).filter (x.getLsbD ·)

@[simp]
theorem mem_members {x : BitVec w} {i : Nat} : i ∈ members x ↔ x.getLsbD i = true := by
  rw [members, Finset.mem_filter, Finset.mem_range]
  exact and_iff_right_of_imp BitVec.lt_of_getLsbD

theorem lt_of_mem {x : BitVec w} {i : Nat} (h : i ∈ members x) : i < w :=
  BitVec.lt_of_getLsbD (mem_members.mp h)

theorem and_ne_zero {x y : BitVec w} : x &&& y ≠ 0#w ↔ (members x ∩ members y).Nonempty := by
  constructor
  · intro hne
    by_contra hempty
    apply hne
    apply BitVec.eq_of_getLsbD_eq
    intro i _
    rw [BitVec.getLsbD_and, BitVec.getLsbD_zero, Bool.eq_false_iff]
    intro hboth
    rw [Bool.and_eq_true] at hboth
    exact hempty ⟨i, Finset.mem_inter.mpr ⟨mem_members.mpr hboth.1, mem_members.mpr hboth.2⟩⟩
  · rintro ⟨i, hi⟩ hzero
    obtain ⟨hx, hy⟩ := Finset.mem_inter.mp hi
    have hbit : (x &&& y).getLsbD i = true := by
      rw [BitVec.getLsbD_and, mem_members.mp hx, mem_members.mp hy]
      rfl
    rw [hzero, BitVec.getLsbD_zero] at hbit
    cases hbit

theorem and_twoPow_ne_zero {x : BitVec w} {i : Nat} :
    x &&& twoPow w i ≠ 0#w ↔ i ∈ members x := by
  rw [BitVec.and_twoPow, mem_members]
  by_cases hi : x.getLsbD i = true
  · rw [if_pos hi]
    refine iff_of_true ?_ hi
    intro hzero
    have hbit := BitVec.getLsbD_twoPow (w := w) i i
    rw [hzero, BitVec.getLsbD_zero] at hbit
    simp [BitVec.lt_of_getLsbD hi] at hbit
  · rw [if_neg hi]
    exact iff_of_false (fun h => h rfl) hi

theorem twoPow_mem_both {x y : BitVec w} {i : Nat} :
    x &&& twoPow w i ≠ 0#w ∧ y &&& twoPow w i ≠ 0#w ↔ i ∈ members x ∩ members y := by
  rw [and_twoPow_ne_zero, and_twoPow_ne_zero, Finset.mem_inter]

theorem members_clear (x : BitVec w) (i : Nat) :
    members (x &&& ~~~twoPow w i) = (members x).erase i := by
  ext j
  rw [mem_members, Finset.mem_erase, mem_members, BitVec.getLsbD_and, BitVec.getLsbD_not,
    BitVec.getLsbD_twoPow]
  by_cases hj : x.getLsbD j = true
  · have hlt := BitVec.lt_of_getLsbD hj
    by_cases hij : i = j
    · subst hij
      simp [hlt]
    · simp [hj, hlt, hij, Ne.symm hij]
  · simp [hj]

theorem twoPow_shiftLeft_one (i : Nat) : twoPow w i <<< 1 = twoPow w (i + 1) := by
  rw [BitVec.twoPow_eq, BitVec.twoPow_eq, BitVec.shiftLeft_add]

theorem twoPow_ne_zero {i : Nat} : twoPow w i ≠ 0#w ↔ i < w := by
  rw [ne_eq, ← BitVec.toNat_inj, BitVec.toNat_twoPow_eq_ite, BitVec.toNat_zero]
  by_cases hi : i < w
  · rw [if_pos hi]
    exact iff_of_true (Nat.two_pow_pos i).ne' hi
  · rw [if_neg hi]
    exact iff_of_false (fun h => h rfl) hi

theorem twoPow_le {x : BitVec w} {i : Nat} (hi : i < w) :
    twoPow w i ≤ x ↔ ∃ j ∈ members x, i ≤ j := by
  rw [BitVec.le_def, BitVec.toNat_twoPow_of_lt hi]
  constructor
  · intro hle
    obtain ⟨j, hj, hbit⟩ := Nat.exists_ge_and_testBit_of_ge_two_pow hle
    exact ⟨j, mem_members.mpr hbit, hj⟩
  · rintro ⟨j, hj, hij⟩
    have hbit : x.toNat.testBit j = true := mem_members.mp hj
    exact (Nat.pow_le_pow_right Nat.two_pos hij).trans (Nat.ge_two_pow_of_testBit hbit)

/-- The members of both masks from `i` on, in ascending order. -/
def common (x y : BitVec w) (i : Nat) : List Nat :=
  (List.range' i (w - i)).filter fun j => decide (j ∈ members x ∩ members y)

theorem mem_common {x y : BitVec w} {i j : Nat} :
    j ∈ common x y i ↔ i ≤ j ∧ j ∈ members x ∩ members y := by
  rw [common, List.mem_filter, decide_eq_true_eq, List.mem_range'_1]
  constructor
  · intro h
    exact ⟨h.1.1, h.2⟩
  · rintro ⟨hij, hj⟩
    have hlt := lt_of_mem (Finset.mem_inter.mp hj).1
    exact ⟨⟨hij, by omega⟩, hj⟩

theorem common_of_le {x y : BitVec w} {i : Nat} (hi : w ≤ i) : common x y i = [] := by
  rw [common, Nat.sub_eq_zero_of_le hi]
  rfl

theorem common_eq {x y : BitVec w} {i : Nat} (hi : i < w) :
    common x y i =
      if i ∈ members x ∩ members y then i :: common x y (i + 1) else common x y (i + 1) := by
  have hlen : w - i = (w - (i + 1)) + 1 := by omega
  rw [common, hlen, List.range'_succ, List.filter_cons]
  simp only [decide_eq_true_eq]
  rfl

theorem common_eq_nil {x y : BitVec w} {i : Nat} (h : ¬∃ j ∈ members x, i ≤ j) :
    common x y i = [] := by
  rw [List.eq_nil_iff_forall_not_mem]
  intro j hj
  obtain ⟨hij, hmem⟩ := mem_common.mp hj
  exact h ⟨j, (Finset.mem_inter.mp hmem).1, hij⟩

theorem common_zero (x y : BitVec w) :
    common x y 0 = (members x ∩ members y).sort (· ≤ ·) := by
  have hset : members x ∩ members y = (common x y 0).toFinset := by
    ext j
    rw [List.mem_toFinset, mem_common]
    exact (and_iff_right (Nat.zero_le j)).symm
  have hnodup : (common x y 0).Nodup := (List.nodup_range' ..).filter _
  have hsorted : (common x y 0).Pairwise (· ≤ ·) :=
    (List.pairwise_le_range' ..).filter _
  rw [hset, (List.toFinset_sort (· ≤ ·) hnodup).mpr hsorted]

end BitMembers
