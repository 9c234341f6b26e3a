import Mathlib.Data.Nat.Digits.Defs
import Mathlib.Tactic.IntervalCases
import Mathlib.Tactic.Positivity
import Dyplo.Image.Description

/-!
# The partitions of a function

A directory holds one image for each partition that a function can be programmed into; the last
number in the name of a file is the partition. What C++ leaves undefined, a signed overflow or a
shift of an `int` by 32 and more, is `none`.
-/

namespace Dyplo

/-- An entry of a directory. The name ends before its NUL. -/
structure Dirent where
  dType : UInt8
  name : List UInt8

/-- `DT_UNKNOWN` -/
def dtUnknown : UInt8 := 0

/-- `DT_REG` -/
def dtReg : UInt8 := 8

/-- `DT_LNK` -/
def dtLnk : UInt8 := 10

/-- The entries that both look-ups read. -/
def Dirent.isFile (entry : Dirent) : Bool :=
  entry.dType == dtReg || entry.dType == dtLnk || entry.dType == dtUnknown

def isDigit (c : UInt8) : Bool := 48 ≤ c && c ≤ 57

/-- The result of an operation on `int`. -/
def checkInt (x : Int) : Option Int := if -2 ^ 31 ≤ x ∧ x < 2 ^ 31 then some x else none

/-- The inner loop of `parse_number_from_name`, over the characters before a digit, last one
first. -/
def parseNumberDigits (result weight : Int) : List UInt8 → Option Int
  | [] => some result
  | c :: before =>
      if isDigit c then do
        let term ← checkInt (weight * (c.toNat - 48))
        let result ← checkInt (result + term)
        let weight ← checkInt (weight * 10)
        parseNumberDigits result weight before
      else some result

/-- There is no value where an `int` overflows, which is undefined in the source: what the look-ups
return must not depend on it. Where there is a value, `Wraparound.parseNumberFromName` has it too
(`parseNumberFromName_wraparound`). -/
def parseNumberFromName (name : List UInt8) : Option Int :=
  match name.reverse.dropWhile fun c => !isDigit c with
  | [] => some (-1)
  | c :: before => parseNumberDigits (c.toNat - 48) 10 before

namespace HardwareContext

/-- The body of the loop of `getAvailablePartitionsIn`. -/
def addPartition (result : BitVec 32) (entry : Dirent) : Option (BitVec 32) :=
  if entry.isFile then do
    let index ← parseNumberFromName entry.name
    if 0 ≤ index then
      if index < 32 then some (result ||| 1#32 <<< index.toNat) else none
    else some result
  else some result

def getAvailablePartitionsIn (entries : List Dirent) : Option (BitVec 32) :=
  entries.foldlM addPartition 0

/-- The body of the loop of `findPartitionIn`. -/
def addPossible (path : List UInt8) (partition : Int) (possible : List (List UInt8))
    (entry : Dirent) : Option (List (List UInt8)) :=
  if entry.isFile then do
    let index ← parseNumberFromName entry.name
    some (if index = partition then possible ++ [path ++ 47 :: entry.name] else possible)
  else some possible

/-- `".partial"` -/
def partialPostfix : List UInt8 := [46, 112, 97, 114, 116, 105, 97, 108]

/-- `std::string::rfind` -/
def rfind (text pattern : List UInt8) : Option Nat :=
  ((List.range (text.length + 1)).filter fun i => startsWith (text.drop i) pattern).getLast?

def isPartialName (name : List UInt8) : Bool :=
  partialPostfix.length < name.length &&
    rfind name partialPostfix == some (name.length - partialPostfix.length)

/-- Several files for one partition: the first `.partial` one, else the first one. -/
def choosePartition : List (List UInt8) → List UInt8
  | [] => []
  | [only] => only
  | first :: others => ((first :: others).find? isPartialName).getD first

def findPartitionIn (path : List UInt8) (entries : List Dirent) (partition : Int) :
    Option (List UInt8) :=
  (entries.foldlM (addPossible path partition) []).map choosePartition

end HardwareContext

/-- The last digits of a name, the last one first. -/
def lastDigits (name : List UInt8) : List UInt8 :=
  (name.reverse.dropWhile fun c => !isDigit c).takeWhile isDigit

/-- The value of digits of which the last one comes first. -/
def digitsValue (digits : List UInt8) : Nat :=
  Nat.ofDigits 10 (digits.map fun c => c.toNat - 48)

/-- The last number of a name. -/
def lastNumber (name : List UInt8) : Nat := digitsValue (lastDigits name)

/-- An entry is an image for partition `i`. -/
def Dirent.Serves (entry : Dirent) (i : Nat) : Prop :=
  entry.isFile = true ∧ lastDigits entry.name ≠ [] ∧ lastNumber entry.name = i

/-- The number of an entry fits an `int`, and a shift of one. -/
def Dirent.Fits (entry : Dirent) : Prop :=
  entry.isFile = true → (lastDigits entry.name).length ≤ 9 ∧ lastNumber entry.name < 32

theorem checkInt_of_lt {x : Int} (h : 0 ≤ x ∧ x < 2 ^ 31) : checkInt x = some x := by
  rw [checkInt, if_pos ⟨by omega, h.2⟩]

theorem isDigit_bounds {c : UInt8} (h : isDigit c = true) : 48 ≤ c.toNat ∧ c.toNat ≤ 57 := by
  simpa [isDigit, UInt8.le_iff_toNat_le] using h

@[simp] private theorem digitsValue_nil : digitsValue [] = 0 := rfl

private theorem digitsValue_cons {c : UInt8} (digits : List UInt8) (hc : isDigit c = true) :
    (digitsValue (c :: digits) : Int) = c.toNat - 48 + 10 * digitsValue digits := by
  have hbounds := isDigit_bounds hc
  simp only [digitsValue, List.map_cons, Nat.ofDigits_cons]
  push_cast
  omega

/-- Nine digits always fit; the weight of a tenth one does not. -/
theorem parseNumberDigits_eq {result : Int} {k : Nat} (before : List UInt8) (hk : k ≤ 9)
    (hresult : 0 ≤ result ∧ result < 10 ^ k) :
    parseNumberDigits result (10 ^ k) before =
      if k + (before.takeWhile isDigit).length ≤ 9 then
        some (result + 10 ^ k * digitsValue (before.takeWhile isDigit))
      else none := by
  induction before generalizing result k with
  | nil => simp [parseNumberDigits, hk]
  | cons c before ih =>
    by_cases hc : isDigit c = true
    · have hbounds := isDigit_bounds hc
      rw [parseNumberDigits, if_pos hc, List.takeWhile_cons_of_pos hc]
      by_cases h9 : k = 9
      · subst h9
        have hweight : checkInt (10 ^ 9 * 10) = none := by decide
        rw [if_neg (by simp), hweight]
        simp
      · have hpow : (10 : Int) ^ k * 10 = 10 ^ (k + 1) := (pow_succ 10 k).symm
        have hmax : (10 : Int) ^ (k + 1) ≤ 10 ^ 9 := by gcongr <;> omega
        have hpos : (0 : Int) < 10 ^ k := by positivity
        have hdigit : (0 : Int) ≤ c.toNat - 48 ∧ (c.toNat : Int) - 48 ≤ 9 := by omega
        have hlow : 0 ≤ (10 : Int) ^ k * (c.toNat - 48) := by nlinarith
        have hhigh : (10 : Int) ^ k * (c.toNat - 48) ≤ 10 ^ k * 9 := by nlinarith
        rw [checkInt_of_lt ⟨hlow, by omega⟩, Option.bind_eq_bind, Option.bind_some,
          checkInt_of_lt ⟨by omega, by omega⟩, Option.bind_some, hpow,
          checkInt_of_lt ⟨by omega, by omega⟩, Option.bind_some,
          ih (by omega) ⟨by omega, by omega⟩]
        have hsum : result + 10 ^ k * ((c.toNat : Int) - 48) +
            10 ^ (k + 1) * digitsValue (before.takeWhile isDigit) =
            result + 10 ^ k * digitsValue (c :: before.takeWhile isDigit) := by
          rw [digitsValue_cons _ hc]
          ring
        rw [hsum, List.length_cons, Nat.add_right_comm, Nat.add_assoc]
    · rw [parseNumberDigits, if_neg hc, List.takeWhile_cons_of_neg hc]
      simp [hk]

theorem parseNumberFromName_eq (name : List UInt8) :
    parseNumberFromName name =
      if lastDigits name = [] then some (-1)
      else if (lastDigits name).length ≤ 9 then some (lastNumber name : Int)
      else none := by
  unfold parseNumberFromName lastNumber lastDigits
  cases hdigits : name.reverse.dropWhile fun c => !isDigit c with
  | nil => simp
  | cons c before =>
    have hc : isDigit c = true := by
      have hhead := List.head?_dropWhile_not (fun c => !isDigit c) name.reverse
      rw [hdigits] at hhead
      simpa using hhead
    have hbounds := isDigit_bounds hc
    change parseNumberDigits (c.toNat - 48) (10 ^ 1) before = _
    rw [parseNumberDigits_eq before (by omega) ⟨by omega, by omega⟩,
      List.takeWhile_cons_of_pos hc]
    rw [digitsValue_cons _ hc, pow_one, List.length_cons, Nat.add_comm 1,
      if_neg (List.cons_ne_nil _ _)]

namespace HardwareContext

variable {entries : List Dirent}

/-- The bit that an entry contributes. -/
def partitionBit (entry : Dirent) : BitVec 32 :=
  if entry.isFile = true ∧ lastDigits entry.name ≠ [] then 1#32 <<< lastNumber entry.name else 0

private theorem addPartition_of_fits {entry : Dirent} (result : BitVec 32) (h : entry.Fits) :
    addPartition result entry = some (result ||| partitionBit entry) := by
  unfold addPartition partitionBit
  by_cases hfile : entry.isFile = true
  · obtain ⟨hlen, hlt⟩ := h hfile
    rw [if_pos hfile, parseNumberFromName_eq]
    by_cases hdigits : lastDigits entry.name = []
    · simp [hdigits]
    · have hlt' : (lastNumber entry.name : Int) < 32 := by omega
      simp [hfile, hdigits, hlen, hlt']
  · simp [hfile]

private theorem addPartition_of_not_fits {entry : Dirent} (result : BitVec 32) (h : ¬ entry.Fits) :
    addPartition result entry = none := by
  unfold Dirent.Fits at h
  push Not at h
  obtain ⟨hfile, h⟩ := h
  have hdigits : lastDigits entry.name ≠ [] := by
    intro hnil
    have hnumber : lastNumber entry.name = 0 := by rw [lastNumber, hnil, digitsValue_nil]
    have := h (by simp [hnil])
    omega
  rw [addPartition, if_pos hfile, parseNumberFromName_eq, if_neg hdigits]
  by_cases hlen : (lastDigits entry.name).length ≤ 9
  · have hlt : ¬ (lastNumber entry.name : Int) < 32 := by have := h hlen; omega
    simp [hlen, hlt]
  · simp [hlen]

private theorem foldlM_addPartition (result : BitVec 32) (h : ∀ entry ∈ entries, entry.Fits) :
    entries.foldlM addPartition result =
      some (entries.foldl (fun bits entry => bits ||| partitionBit entry) result) := by
  induction entries generalizing result with
  | nil => rfl
  | cons entry entries ih =>
    rw [List.foldlM_cons, addPartition_of_fits result (h entry (by simp)), List.foldl_cons]
    exact ih _ fun e he => h e (by simp [he])

private theorem fits_of_foldlM {result bits : BitVec 32}
    (h : entries.foldlM addPartition result = some bits) : ∀ entry ∈ entries, entry.Fits := by
  induction entries generalizing result with
  | nil => simp
  | cons entry entries ih =>
    rw [List.foldlM_cons] at h
    by_cases hfits : entry.Fits
    · rw [addPartition_of_fits result hfits] at h
      simp only [List.mem_cons, forall_eq_or_imp]
      exact ⟨hfits, ih h⟩
    · rw [addPartition_of_not_fits result hfits] at h
      cases h

private theorem getLsbD_partitionBit {entry : Dirent} {i : Nat} (hi : i < 32) :
    (partitionBit entry).getLsbD i = true ↔ entry.Serves i := by
  unfold partitionBit Dirent.Serves
  by_cases hserves : entry.isFile = true ∧ lastDigits entry.name ≠ []
  · rw [if_pos hserves, BitVec.getLsbD_shiftLeft]
    simp only [hi, decide_true, Bool.true_and, BitVec.getLsbD_one]
    grind
  · rw [if_neg hserves]
    simp only [BitVec.ofNat_eq_ofNat, BitVec.getLsbD_zero, Bool.false_eq_true, false_iff]
    exact fun h => hserves ⟨h.1, h.2.1⟩

private theorem getLsbD_foldl (result : BitVec 32) {i : Nat} (hi : i < 32) :
    (entries.foldl (fun bits entry => bits ||| partitionBit entry) result).getLsbD i = true ↔
      result.getLsbD i = true ∨ ∃ entry ∈ entries, entry.Serves i := by
  induction entries generalizing result with
  | nil => simp
  | cons entry entries ih =>
    rw [List.foldl_cons, ih, BitVec.getLsbD_or, Bool.or_eq_true, getLsbD_partitionBit hi]
    simp only [List.exists_mem_cons_iff, or_assoc]

/-- The candidates of `findPartitionIn` are the entries that serve the partition. -/
theorem foldlM_addPossible {partition : Nat} (path : List UInt8) (possible : List (List UInt8))
    (h : ∀ entry ∈ entries, entry.Fits) :
    ∃ others, entries.foldlM (addPossible path partition) possible = some (possible ++ others) ∧
      (∀ name ∈ others, name ≠ []) ∧
      (others ≠ [] ↔ ∃ entry ∈ entries, entry.Serves partition) := by
  induction entries generalizing possible with
  | nil => exact ⟨[], by simp⟩
  | cons entry entries ih =>
    have hentry := h entry (by simp)
    have hrest : ∀ e ∈ entries, e.Fits := fun e he => h e (by simp [he])
    by_cases hserves : entry.Serves partition
    · obtain ⟨others, hfold, hne, -⟩ := ih (possible ++ [path ++ 47 :: entry.name]) hrest
      refine ⟨(path ++ 47 :: entry.name) :: others, ?_, by simpa using hne, by simp [hserves]⟩
      rw [List.foldlM_cons, addPossible, if_pos hserves.1, parseNumberFromName_eq,
        if_neg hserves.2.1, if_pos (hentry hserves.1).1, hserves.2.2]
      simpa using hfold
    · obtain ⟨others, hfold, hne, hiff⟩ := ih possible hrest
      refine ⟨others, ?_, hne, by simpa [hserves] using hiff⟩
      rw [List.foldlM_cons, ← hfold]
      suffices addPossible path partition possible entry = some possible by rw [this]; rfl
      unfold addPossible
      by_cases hfile : entry.isFile = true
      · rw [if_pos hfile, parseNumberFromName_eq]
        by_cases hdigits : lastDigits entry.name = []
        · have hneg : ¬ (-1 : Int) = partition := by omega
          simp [hdigits, hneg]
        · have hother : lastNumber entry.name ≠ partition := fun h => hserves ⟨hfile, hdigits, h⟩
          simp [hdigits, (hentry hfile).1, hother]
      · rw [if_neg hfile]

private theorem choosePartition_mem {possible : List (List UInt8)} (h : possible ≠ []) :
    choosePartition possible ∈ possible := by
  match possible with
  | [only] => simp [choosePartition]
  | first :: second :: others =>
    change ((first :: second :: others).find? isPartialName).getD first ∈ _
    cases hfind : (first :: second :: others).find? isPartialName with
    | none => simp
    | some name => exact List.mem_of_find?_eq_some hfind

private theorem findPartitionIn_spec (path : List UInt8) (partition : Nat)
    (h : ∀ entry ∈ entries, entry.Fits) :
    ∃ found, findPartitionIn path entries partition = some found ∧
      (found ≠ [] ↔ ∃ entry ∈ entries, entry.Serves partition) := by
  obtain ⟨others, hfold, hne, hiff⟩ := foldlM_addPossible path [] h
  refine ⟨choosePartition others, by rw [findPartitionIn, hfold]; rfl, ?_⟩
  rw [← hiff]
  by_cases hothers : others = []
  · simp [hothers, choosePartition]
  · simp [hothers, hne _ (choosePartition_mem hothers)]

/-- The two look-ups run to their end and agree on every partition. -/
def LookupsAgree (path : List UInt8) (entries : List Dirent) : Prop :=
  ∃ bits, getAvailablePartitionsIn entries = some bits ∧ ∀ i < 32,
    ∃ found, findPartitionIn path entries (i : Nat) = some found ∧
      (bits.getLsbD i = true ↔ found ≠ [])

/-- The look-ups agree unless the number of a file is 32 and more or overflows. -/
theorem lookupsAgree_iff (path : List UInt8) (entries : List Dirent) :
    LookupsAgree path entries ↔ ∀ entry ∈ entries, entry.Fits := by
  constructor
  · rintro ⟨bits, hbits, -⟩
    exact fits_of_foldlM hbits
  · intro h
    refine ⟨_, foldlM_addPartition 0 h, fun i hi => ?_⟩
    obtain ⟨found, hfound, hiff⟩ := findPartitionIn_spec path i h
    refine ⟨found, hfound, ?_⟩
    rw [getLsbD_foldl 0 hi, hiff]
    simp

/-- `32.bit` asks for a shift by 32. -/
theorem not_lookupsAgree_thirtyTwo :
    ¬ LookupsAgree [47] [⟨dtReg, [51, 50, 46, 98, 105, 116]⟩] := by
  rintro ⟨bits, hbits, -⟩
  have hnone : getAvailablePartitionsIn [⟨dtReg, [51, 50, 46, 98, 105, 116]⟩] = none := by decide
  rw [hnone] at hbits
  cases hbits

end HardwareContext

end Dyplo
