import Mathlib.Data.List.Basic

/-!
# Files

A regular file that is read front to back. The kernel may cut any `read` short, but returns
nothing only at the end of the file.
-/

namespace Dyplo

structure File where
  content : List UInt8

namespace File

/-- `::read`: the kernel returns at most `limit` of the requested bytes. -/
def read (f : File) (count limit : Nat) : List UInt8 × File :=
  (f.content.take (min count limit), ⟨f.content.drop (min count limit)⟩)

/-- The loop of `read_all`, with the kernel's limit for each `read`. It has no result when the
limits run out first. -/
def readAllLoop (f : File) (count : Nat) (bytes : List UInt8) :
    List Nat → Option (List UInt8 × File)
  | [] => none
  | limit :: limits =>
      let result := f.read count limit
      if result.1 = [] then some (bytes, result.2)
      else if count - result.1.length = 0 then some (bytes ++ result.1, result.2)
      else readAllLoop result.2 (count - result.1.length) (bytes ++ result.1) limits

/-- `read_all` never returns a short read until the end of the file. -/
def readAll (f : File) (count : Nat) : List UInt8 × File :=
  (f.content.take count, ⟨f.content.drop count⟩)

theorem readAll_length (f : File) (count : Nat) :
    (f.readAll count).1.length = min count f.content.length := List.length_take

private theorem read_readAll (f : File) (count limit : Nat) :
    (f.read count limit).1 ++
        ((f.read count limit).2.readAll (count - (f.read count limit).1.length)).1 =
      (f.readAll count).1 ∧
    ((f.read count limit).2.readAll (count - (f.read count limit).1.length)).2 =
      (f.readAll count).2 := by
  have hlen : (f.read count limit).1.length = min (min count limit) f.content.length :=
    List.length_take
  rw [hlen]
  change f.content.take (min count limit) ++ (f.content.drop (min count limit)).take _ =
    f.content.take count ∧
    File.mk ((f.content.drop (min count limit)).drop _) = ⟨f.content.drop count⟩
  by_cases hshort : f.content.length ≤ min count limit
  · rw [List.drop_of_length_le hshort, List.take_of_length_le hshort,
      List.take_of_length_le (by omega : f.content.length ≤ count),
      List.drop_of_length_le (by omega : f.content.length ≤ count)]
    simp
  · have hfull : min (min count limit) f.content.length = min count limit := by omega
    have hsplit : min count limit + (count - min count limit) = count := by omega
    rw [hfull, ← List.take_add, List.drop_drop, hsplit]
    exact ⟨rfl, rfl⟩

/-- However the kernel splits the reads, the loop ends and returns what `readAll` returns. -/
theorem readAllLoop_eq (f : File) (count : Nat) (bytes : List UInt8) (limits : List Nat)
    (hpos : ∀ limit ∈ limits, 0 < limit) (henough : count < limits.length) :
    f.readAllLoop count bytes limits =
      some (bytes ++ (f.readAll count).1, (f.readAll count).2) := by
  induction limits generalizing f count bytes with
  | nil => exact absurd henough (Nat.not_lt_zero _)
  | cons limit limits ih =>
    have hlimit : 0 < limit := hpos limit List.mem_cons_self
    have hlen : (f.read count limit).1.length = min (min count limit) f.content.length :=
      List.length_take
    obtain ⟨hbytes, hrest⟩ := read_readAll f count limit
    rw [readAllLoop]
    split_ifs with hnone hdone
    · have hzero : min (min count limit) f.content.length = 0 := by rw [← hlen, hnone]; rfl
      rcases Nat.eq_zero_or_pos count with rfl | hcount
      · simp [readAll, read]
      · have hnil : f.content = [] := List.eq_nil_of_length_eq_zero (by omega)
        simp [readAll, read, hnil]
    · rw [hdone] at hbytes hrest
      rw [← hbytes, ← hrest]
      simp [readAll]
    · have hprogress : (f.read count limit).1.length ≠ 0 :=
        fun h => hnone (List.eq_nil_of_length_eq_zero h)
      have hpos' : ∀ l ∈ limits, 0 < l := fun l hl => hpos l (List.mem_cons_of_mem limit hl)
      simp only [List.length_cons] at henough
      rw [ih _ _ _ hpos' (by omega), List.append_assoc, hbytes, hrest]

end File

end Dyplo
