import Mathlib.Data.List.TakeWhile
import Dyplo.Hardware.Partitions

/-!
# Reading a number from the end of a name

`parse_number_from_name` walks backwards through a string with an `int` result and an `int` weight.
Here every character is read through its position, and `int` wraps around: the weight goes one
digit further than the result and is the first to leave its range. The look-ups of partitions are
stated over the other reading, in which an overflow has no value. The scan itself is stated over
this one, in which every name has one, and `parseNumberFromName_wraparound` says that the two agree
wherever nothing overflows.
-/

namespace Dyplo

namespace Wraparound

/-- The value of a digit as an `int`. -/
def digit (c : UInt8) : BitVec 32 := BitVec.ofNat 32 (c.toNat - 48)

/-- The inner loop, with `pos` at this offset. There is no result where a character outside of the
string is read. -/
def addDigits (name : List UInt8) : Nat → BitVec 32 → BitVec 32 → Option (BitVec 32)
  | 0, result, _ => some result
  | pos + 1, result, weight => do
      let c ← name[pos]?
      if isDigit c then addDigits name pos (result + weight * digit c) (weight * 10)
      else some result

/-- The outer loop with `pos` one below this offset. When the loop ends, `pos` is in front of the
string, where it is compared and not read. -/
def scan (name : List UInt8) : Nat → Option Int
  | 0 => some (-1)
  | pos + 1 => do
      let c ← name[pos]?
      if isDigit c then (addDigits name pos (digit c) 10).map BitVec.toInt
      else scan name pos

def parseNumberFromName (name : List UInt8) : Option Int := scan name name.length

end Wraparound

/-- The value of digits, read from left to right. -/
def decimalValue (digits : List UInt8) : Nat :=
  digits.foldl (fun value c => 10 * value + (c.toNat - 48)) 0

/-- The last run of digits of a name that cannot be made longer. -/
structure LastRun (name before digits after : List UInt8) : Prop where
  split : name = before ++ digits ++ after
  digits_ne_nil : digits ≠ []
  isDigit_digits : ∀ c ∈ digits, isDigit c = true
  starts : ∀ c ∈ before.getLast?, isDigit c = false
  ends : ∀ c ∈ after, isDigit c = false

private theorem LastRun.exists_digit {name before digits after : List UInt8}
    (h : LastRun name before digits after) : ∃ c ∈ name, isDigit c = true := by
  obtain ⟨c, hc⟩ := List.exists_mem_of_ne_nil digits h.digits_ne_nil
  refine ⟨c, ?_, h.isDigit_digits c hc⟩
  rw [h.split]
  exact List.mem_append_left _ (List.mem_append_right _ hc)

private theorem decimalValue_snoc (digits : List UInt8) (c : UInt8) :
    decimalValue (digits ++ [c]) = 10 * decimalValue digits + (c.toNat - 48) := by
  simp [decimalValue]

private theorem decimalValue_reverse (digits : List UInt8) :
    decimalValue digits.reverse = digitsValue digits := by
  induction digits with
  | nil => rfl
  | cons c digits ih =>
    rw [List.reverse_cons, decimalValue_snoc, ih, digitsValue, digitsValue, List.map_cons,
      Nat.ofDigits_cons, Nat.add_comm]

namespace Wraparound

variable {name before digits after : List UInt8}

private theorem getElem?_middle (front back : List UInt8) (c : UInt8) :
    (front ++ c :: back)[front.length]? = some c := by simp

/-- The inner loop adds the digits from the last one on, and stops in front of the first. -/
theorem addDigits_eq (hdigits : ∀ c ∈ digits, isDigit c = true)
    (hstarts : ∀ c ∈ before.getLast?, isDigit c = false) (result weight : BitVec 32) :
    addDigits (before ++ digits ++ after) (before ++ digits).length result weight =
      some (result + weight * BitVec.ofNat 32 (decimalValue digits)) := by
  induction digits using List.reverseRecOn generalizing after result weight with
  | nil =>
    rw [List.append_nil]
    have hresult : result + weight * BitVec.ofNat 32 (decimalValue []) = result := by
      simp [decimalValue]
    rw [hresult]
    rcases List.eq_nil_or_concat before with rfl | ⟨front, c, rfl⟩
    · rfl
    · rw [List.concat_eq_append] at hstarts ⊢
      have hc : isDigit c = false := hstarts c (by simp)
      rw [List.length_append, List.length_singleton, addDigits, List.append_assoc,
        List.singleton_append, getElem?_middle]
      simp [hc]
  | append_singleton digits c ih =>
    have hc : isDigit c = true := hdigits c (by simp)
    have hrest : ∀ d ∈ digits, isDigit d = true := fun d hd => hdigits d (by simp [hd])
    have hassoc : before ++ (digits ++ [c]) ++ after = before ++ digits ++ c :: after := by simp
    have hlength : (before ++ (digits ++ [c])).length = (before ++ digits).length + 1 := by
      simp [Nat.add_assoc]
    rw [hassoc, hlength, addDigits, getElem?_middle]
    simp only [Option.bind_eq_bind, Option.bind_some, hc, if_true]
    rw [ih hrest, decimalValue_snoc, BitVec.ofNat_add, BitVec.ofNat_mul, digit]
    have hsum : ∀ value d : BitVec 32, result + weight * d + weight * 10 * value =
        result + weight * (10 * value + d) := by grind
    exact congrArg some (hsum _ _)

private theorem scan_append (front after : List UInt8) {skipped : List UInt8}
    (hskipped : ∀ c ∈ skipped, isDigit c = false) :
    scan (front ++ skipped ++ after) (front ++ skipped).length =
      scan (front ++ skipped ++ after) front.length := by
  induction skipped using List.reverseRecOn generalizing after with
  | nil => simp
  | append_singleton skipped c ih =>
    have hc : isDigit c = false := hskipped c (by simp)
    have hrest : ∀ d ∈ skipped, isDigit d = false := fun d hd => hskipped d (by simp [hd])
    have hassoc : front ++ (skipped ++ [c]) ++ after = front ++ skipped ++ c :: after := by simp
    have hlength : (front ++ (skipped ++ [c])).length = (front ++ skipped).length + 1 := by
      simp [Nat.add_assoc]
    rw [hassoc, hlength, scan, getElem?_middle, ← ih _ hrest]
    simp [hc]

private theorem parseNumberFromName_of_no_digit (h : ∀ c ∈ name, isDigit c = false) :
    parseNumberFromName name = some (-1) := by
  have hscan := scan_append [] [] h
  rw [List.nil_append, List.append_nil] at hscan
  exact hscan

private theorem parseNumberFromName_of_lastRun (h : LastRun name before digits after) :
    parseNumberFromName name = some (BitVec.ofNat 32 (decimalValue digits)).toInt := by
  obtain ⟨digits, c, rfl⟩ := (List.eq_nil_or_concat' digits).resolve_left h.digits_ne_nil
  have hc : isDigit c = true := h.isDigit_digits c (by simp)
  have hrest : ∀ d ∈ digits, isDigit d = true := fun d hd => h.isDigit_digits d (by simp [hd])
  have hlength : (before ++ (digits ++ [c])).length = (before ++ digits).length + 1 := by
    simp [Nat.add_assoc]
  have hassoc : before ++ (digits ++ [c]) ++ after = before ++ digits ++ c :: after := by simp
  have hscan := scan_append (before ++ (digits ++ [c])) [] h.ends
  rw [List.append_nil, ← h.split] at hscan
  rw [parseNumberFromName, hscan, hlength, h.split, hassoc, scan, getElem?_middle]
  simp only [Option.bind_eq_bind, Option.bind_some, hc, if_true]
  rw [addDigits_eq hrest h.starts, decimalValue_snoc, BitVec.ofNat_add, BitVec.ofNat_mul, digit,
    Option.map_some, BitVec.add_comm]
  rfl

end Wraparound

private theorem isDigit_of_mem_lastDigits {name : List UInt8} {c : UInt8}
    (h : c ∈ lastDigits name) :
    isDigit c = true := List.mem_takeWhile_imp h

private theorem lastDigits_eq_nil_iff (name : List UInt8) :
    lastDigits name = [] ↔ ∀ c ∈ name, isDigit c = false := by
  rw [lastDigits]
  cases hdrop : name.reverse.dropWhile fun c => !isDigit c with
  | nil => simpa using List.dropWhile_eq_nil_iff.mp hdrop
  | cons c before =>
    have hhead := List.head?_dropWhile_not (fun c => !isDigit c) name.reverse
    have hmem : c ∈ name := by
      have hsub : c ∈ name.reverse.dropWhile fun c => !isDigit c := by simp [hdrop]
      exact List.mem_reverse.mp ((List.dropWhile_sublist _).mem hsub)
    rw [hdrop] at hhead
    have hc : isDigit c = true := by simpa using hhead
    rw [List.takeWhile_cons_of_pos hc]
    constructor
    · intro hnil
      cases hnil
    · intro hnone
      rw [hnone c hmem] at hc
      cases hc

private theorem exists_lastRun {name : List UInt8} (h : lastDigits name ≠ []) :
    ∃ before after, LastRun name before (lastDigits name).reverse after := by
  let after := (name.reverse.takeWhile fun c => !isDigit c).reverse
  let before := ((name.reverse.dropWhile fun c => !isDigit c).dropWhile isDigit).reverse
  have hrest : (name.reverse.dropWhile fun c => !isDigit c).reverse =
      before ++ (lastDigits name).reverse := by
    rw [lastDigits, ← List.reverse_append, List.takeWhile_append_dropWhile]
  refine ⟨before, after, ?_, ?_, ?_, ?_, ?_⟩
  · calc name = (name.reverse.takeWhile (fun c => !isDigit c) ++
            name.reverse.dropWhile (fun c => !isDigit c)).reverse := by
          rw [List.takeWhile_append_dropWhile, List.reverse_reverse]
      _ = (name.reverse.dropWhile fun c => !isDigit c).reverse ++ after :=
          List.reverse_append
      _ = before ++ (lastDigits name).reverse ++ after := by rw [hrest]
  · rwa [ne_eq, List.reverse_eq_nil_iff]
  · intro c hc
    exact isDigit_of_mem_lastDigits (List.mem_reverse.mp hc)
  · intro c hc
    have hhead := List.head?_dropWhile_not isDigit (name.reverse.dropWhile fun c => !isDigit c)
    rw [List.getLast?_reverse] at hc
    rw [Option.mem_def.mp hc] at hhead
    simpa using hhead
  · intro c hc
    simpa using List.mem_takeWhile_imp (List.mem_reverse.mp hc)

private theorem lastNumber_lt (name : List UInt8) : lastNumber name < 10 ^
    (lastDigits name).length := by
  have hdigit : ∀ d ∈ (lastDigits name).map fun c => c.toNat - 48, d < 10 := by
    intro d hd
    obtain ⟨c, hc, rfl⟩ := List.mem_map.mp hd
    have hbounds := isDigit_bounds (isDigit_of_mem_lastDigits hc)
    omega
  have hlt := Nat.ofDigits_lt_base_pow_length (by decide) hdigit
  rwa [List.length_map] at hlt

private theorem toInt_ofNat_of_lt {value : Nat} (h : value < 2 ^ 31) :
    (BitVec.ofNat 32 value).toInt = value := by
  rw [BitVec.toInt_ofNat', Int.bmod_eq_of_le]
  · omega
  · omega

/-- Where no `int` overflows, wrapping around makes no difference. -/
theorem parseNumberFromName_wraparound {name : List UInt8} {n : Int}
    (h : parseNumberFromName name = some n) : Wraparound.parseNumberFromName name = some n := by
  rw [parseNumberFromName_eq] at h
  by_cases hnil : lastDigits name = []
  · rw [if_pos hnil] at h
    rw [Wraparound.parseNumberFromName_of_no_digit ((lastDigits_eq_nil_iff name).mp hnil), h]
  · rw [if_neg hnil] at h
    obtain ⟨before, after, hrun⟩ := exists_lastRun hnil
    rw [Wraparound.parseNumberFromName_of_lastRun hrun, decimalValue_reverse]
    by_cases hlength : (lastDigits name).length ≤ 9
    · rw [if_pos hlength] at h
      have hlt : lastNumber name < 10 ^ 9 :=
        Nat.lt_of_lt_of_le (lastNumber_lt name) (Nat.pow_le_pow_right (by decide) hlength)
      rw [← h, ← lastNumber, toInt_ofNat_of_lt (by omega)]
    · rw [if_neg hlength] at h
      cases h

/-- The scan never leaves the string. It finds no number where there is no digit, and else the last
one, whatever becomes of the weight behind its first digit. -/
theorem parseNumberFromName_last (name : List UInt8) :
    ∃ n, Wraparound.parseNumberFromName name = some n ∧
      ((∀ c ∈ name, isDigit c = false) → n = -1) ∧
      ((∃ c ∈ name, isDigit c = true) → ∃ before digits after, LastRun name before digits after) ∧
      ∀ before digits after, LastRun name before digits after → decimalValue digits < 2 ^ 31 →
        n = decimalValue digits := by
  by_cases hnil : lastDigits name = []
  · have hnone := (lastDigits_eq_nil_iff name).mp hnil
    refine ⟨-1, Wraparound.parseNumberFromName_of_no_digit hnone, fun _ => rfl, ?_, ?_⟩
    · rintro ⟨c, hmem, hc⟩
      rw [hnone c hmem] at hc
      cases hc
    · intro before digits after hrun
      obtain ⟨c, hmem, hc⟩ := hrun.exists_digit
      rw [hnone c hmem] at hc
      cases hc
  · obtain ⟨before, after, hrun⟩ := exists_lastRun hnil
    refine ⟨_, Wraparound.parseNumberFromName_of_lastRun hrun, ?_, fun _ => ⟨_, _, _, hrun⟩, ?_⟩
    · intro hnone
      exact absurd ((lastDigits_eq_nil_iff name).mpr hnone) hnil
    · intro before' digits after' hrun' hlt
      have hsame := (Wraparound.parseNumberFromName_of_lastRun hrun).symm.trans
        (Wraparound.parseNumberFromName_of_lastRun hrun')
      rw [Option.some.inj hsame, toInt_ofNat_of_lt hlt]

end Dyplo
