import Mathlib.Data.List.Infix
import Dyplo.Image.Description

/-!
# Where a number ends

`strtoul` skips white space, a sign and `0x`, and reads digits up to the first other byte. Memory
behind that byte does not count; without such a byte, the digits go on into what follows.
-/

namespace Dyplo

/-- White space goes first. -/
def afterSpace (text : List UInt8) : List UInt8 := text.dropWhile isSpace

/-- The text behind white space and a sign. -/
def afterSign (text : List UInt8) : List UInt8 :=
  if (afterSpace text).head? == some 45 || (afterSpace text).head? == some 43 then
    (afterSpace text).drop 1
  else afterSpace text

/-- The text behind a `0x`. -/
def afterPrefix (text : List UInt8) : List UInt8 :=
  if startsWith text [48, 120] || startsWith text [48, 88] then text.drop 2 else text

/-- The text from the first digit on. -/
def digitText (text : List UInt8) : List UInt8 := afterPrefix (afterSign text)

def hexValue (digits : List Nat) : Nat :=
  digits.foldl (fun value digit => 16 * value + digit) 0

/-- The number for a sign and the value of the digits. -/
def strtoulResult (negative : Bool) (value : Nat) : Nat :=
  if 2 ^ 64 ≤ value then 2 ^ 64 - 1
  else if negative then (2 ^ 64 - value) % 2 ^ 64
  else value

private theorem strtoul16_eq (text : List UInt8) :
    strtoul16 text = strtoulResult ((afterSpace text).head? == some 45)
      (hexValue (hexDigits (digitText text))) := by
  have hdigits : hexDigits (digitText text) =
      if startsWith (afterSign text) [48, 120] || startsWith (afterSign text) [48, 88] then
        hexDigits ((afterSign text).drop 2)
      else hexDigits (afterSign text) := by
    rw [digitText, afterPrefix, apply_ite hexDigits]
  rw [hdigits]
  rfl

/-- Nothing in a text ends a number. -/
def Unfinished (text : List UInt8) : Prop :=
  ∀ c ∈ digitText text, (hexDigit c).isSome = true

instance (text : List UInt8) : Decidable (Unfinished text) :=
  List.decidableBAll (fun c => (hexDigit c).isSome = true) (digitText text)

/-- More digits give `ULONG_MAX`, and so does what is there as far as an `unsigned int` can tell. -/
def Saturated (text : List UInt8) : Prop :=
  2 ^ 64 ≤ 16 * hexValue (hexDigits (digitText text)) ∧ strtoul16 text % 2 ^ 32 = 2 ^ 32 - 1

instance (text : List UInt8) : Decidable (Saturated text) := by
  unfold Saturated; infer_instance

theorem prefix_append_iff {xs ys key : List UInt8} (h : ¬ (xs <+: key ∧ xs ≠ key)) :
    key <+: xs ++ ys ↔ key <+: xs := by
  constructor
  · intro hkey
    rcases List.prefix_or_prefix_of_prefix hkey (List.prefix_append xs ys) with hle | hle
    · exact hle
    · by_cases heq : xs = key
      · rw [heq]
      · exact absurd ⟨hle, heq⟩ h
  · intro hkey
    exact hkey.trans (List.prefix_append xs ys)

theorem startsWith_iff (data text : List UInt8) : startsWith data text = true ↔ text <+: data := by
  rw [startsWith, beq_iff_eq, List.prefix_iff_eq_take]
  exact eq_comm

theorem startsWith_append {xs key : List UInt8} (ys : List UInt8)
    (h : ¬ (xs <+: key ∧ xs ≠ key)) : startsWith (xs ++ ys) key = startsWith xs key := by
  rw [Bool.eq_iff_iff, startsWith_iff, startsWith_iff, prefix_append_iff h]

private theorem startsWith_concat {key : List UInt8} {c : UInt8} (xs : List UInt8)
    (hc : key.getLast? ≠ some c) : startsWith (xs ++ [c]) key = startsWith xs key := by
  have hkey : key ≠ xs ++ [c] := by
    intro heq
    exact hc (by simp [heq])
  rw [Bool.eq_iff_iff, startsWith_iff, startsWith_iff, List.prefix_concat_iff]
  exact or_iff_right hkey

theorem startsWith_append_cons {key : List UInt8} {c : UInt8} (xs ys : List UInt8)
    (hc : c ∉ key) : startsWith (xs ++ c :: ys) key = startsWith xs key := by
  have hends : ¬ (xs ++ [c] <+: key ∧ xs ++ [c] ≠ key) := by
    rintro ⟨hle, -⟩
    exact hc (hle.subset (by simp))
  have hlast : key.getLast? ≠ some c := by
    intro hlast
    exact hc (List.mem_of_getLast? hlast)
  rw [List.append_cons, startsWith_append ys hends, startsWith_concat xs hlast]

section Digits

variable {xs : List UInt8}

private theorem hexDigits_append (ys : List UInt8) (h : ∀ c ∈ xs, (hexDigit c).isSome = true) :
    hexDigits (xs ++ ys) = hexDigits xs ++ hexDigits ys := by
  induction xs with
  | nil => rfl
  | cons c xs ih =>
    obtain ⟨digit, hdigit⟩ := Option.isSome_iff_exists.mp (h c (by simp))
    have hrest := ih fun c hc => h c (by simp [hc])
    simp only [List.cons_append, hexDigits, hdigit, hrest]

private theorem hexDigits_append_of_not (ys : List UInt8)
    (h : ¬ ∀ c ∈ xs, (hexDigit c).isSome = true) : hexDigits (xs ++ ys) = hexDigits xs := by
  induction xs with
  | nil => simp at h
  | cons c xs ih =>
    cases hdigit : hexDigit c with
    | none => simp only [List.cons_append, hexDigits, hdigit]
    | some digit =>
      have hrest := ih fun hall => h (by simpa [hdigit] using hall)
      simp only [List.cons_append, hexDigits, hdigit, hrest]

private theorem hexValue_concat (digits : List Nat) (digit : Nat) :
    hexValue (digits ++ [digit]) = 16 * hexValue digits + digit := by
  simp [hexValue]

private theorem le_hexValue_append (digits : List Nat) {more : List Nat} (h : more ≠ []) :
    16 * hexValue digits ≤ hexValue (digits ++ more) := by
  induction more using List.reverseRecOn with
  | nil => exact absurd rfl h
  | append_singleton more digit ih =>
    rw [← List.append_assoc, hexValue_concat]
    by_cases hmore : more = []
    · rw [hmore, List.append_nil]
      omega
    · have := ih hmore
      omega

end Digits

section Parts

variable {text : List UInt8}

/-- A byte that can be no part of what goes before the digits. -/
def Plain (c : UInt8) : Prop :=
  isSpace c = false ∧ c ≠ 43 ∧ c ≠ 45 ∧ c ≠ 88 ∧ c ≠ 120

instance (c : UInt8) : Decidable (Plain c) := by unfold Plain; infer_instance

private theorem afterSpace_append (ys : List UInt8) (h : afterSpace text ≠ []) :
    afterSpace (text ++ ys) = afterSpace text ++ ys := by
  have hspace : (text.dropWhile isSpace).isEmpty = false := by simpa [afterSpace] using h
  rw [afterSpace, List.dropWhile_append, hspace]
  rfl

private theorem afterSign_append (ys : List UInt8) (h : afterSpace text ≠ []) :
    afterSign (text ++ ys) = afterSign text ++ ys := by
  rw [afterSign, afterSpace_append ys h, List.head?_append_of_ne_nil _ h, afterSign]
  split_ifs
  · rw [List.drop_append_of_le_length (List.length_pos_of_ne_nil h)]
  · rfl

private theorem afterPrefix_append (ys : List UInt8) (h : text ≠ []) (h0 : text ≠ [48]) :
    afterPrefix (text ++ ys) = afterPrefix text ++ ys := by
  have hkey : ∀ x : UInt8, ¬ (text <+: [48, x] ∧ text ≠ [48, x]) := by
    rintro x ⟨hle, hne⟩
    rcases List.prefix_cons_iff.mp hle with rfl | ⟨t, rfl, ht⟩
    · exact h rfl
    · rcases List.prefix_cons_iff.mp ht with rfl | ⟨u, rfl, hu⟩
      · exact h0 rfl
      · rw [List.prefix_nil.mp hu] at hne
        exact hne rfl
  rw [afterPrefix, startsWith_append ys (hkey 120), startsWith_append ys (hkey 88), afterPrefix]
  split_ifs with hx
  · have hlen : 2 ≤ text.length := by
      rcases Bool.or_eq_true_iff.mp hx with hx | hx <;>
        exact ((startsWith_iff _ _).mp hx).length_le
    rw [List.drop_append_of_le_length hlen]
  · rfl

private theorem strtoul16_append (ys : List UInt8) (hsign : afterSign text ≠ [])
    (hzero : afterSign text ≠ [48]) :
    strtoul16 (text ++ ys) = strtoulResult ((afterSpace text).head? == some 45)
      (hexValue (hexDigits (digitText text ++ ys))) := by
  have hspace : afterSpace text ≠ [] := by
    intro hnil
    exact hsign (by simp [afterSign, hnil])
  rw [strtoul16_eq, afterSpace_append ys hspace, List.head?_append_of_ne_nil _ hspace,
    digitText, afterSign_append ys hspace, afterPrefix_append ys hsign hzero, ← digitText]

private theorem strtoul16_append_of_finished (ys : List UInt8) (h : ¬ Unfinished text) :
    strtoul16 (text ++ ys) = strtoul16 text := by
  have hsign : afterSign text ≠ [] := by
    intro hnil
    exact h (by simp [Unfinished, digitText, hnil, afterPrefix, startsWith])
  have hzero : afterSign text ≠ [48] := by
    intro hzero
    exact h (by simp [Unfinished, digitText, hzero, afterPrefix, startsWith, hexDigit])
  rw [strtoul16_append ys hsign hzero, hexDigits_append_of_not ys h, strtoul16_eq]

private theorem afterSpace_concat {c : UInt8} (hc : Plain c) :
    afterSpace (text ++ [c]) = afterSpace text ++ [c] := by
  by_cases hspace : afterSpace text = []
  · have hall : text.dropWhile isSpace = [] := hspace
    rw [hspace, afterSpace, List.dropWhile_append, if_pos (by rw [hall]; rfl)]
    simp [hc.1]
  · rw [afterSpace_append _ hspace]

private theorem afterSign_concat {c : UInt8} (hc : Plain c) :
    afterSign (text ++ [c]) = afterSign text ++ [c] := by
  by_cases hspace : afterSpace text = []
  · have hconcat : afterSpace (text ++ [c]) = afterSpace text ++ [c] := afterSpace_concat hc
    rw [hspace, List.nil_append] at hconcat
    simp [afterSign, hspace, hconcat, hc.2.1, hc.2.2.1]
  · rw [afterSign_append _ hspace]

private theorem head_afterSpace_concat {c : UInt8} (hc : Plain c) :
    ((afterSpace (text ++ [c])).head? == some 45) = ((afterSpace text).head? == some 45) := by
  rw [afterSpace_concat hc]
  cases afterSpace text with
  | nil => simp [hc.2.2.1]
  | cons d rest => rfl

private theorem digitText_concat {c : UInt8} (hc : Plain c) :
    digitText (text ++ [c]) = digitText text ++ [c] := by
  obtain ⟨-, -, -, hX, hx⟩ := id hc
  rw [digitText, afterSign_concat hc, afterPrefix, startsWith_concat _ (by simp [hx.symm]),
    startsWith_concat _ (by simp [hX.symm]), digitText, afterPrefix]
  split_ifs with h
  · have hlen : 2 ≤ (afterSign text).length := by
      rcases Bool.or_eq_true_iff.mp h with h | h <;>
        exact ((startsWith_iff _ _).mp h).length_le
    rw [List.drop_append_of_le_length hlen]
  · rfl

private theorem strtoul16_concat {c : UInt8} (hc : Plain c) :
    strtoul16 (text ++ [c]) = strtoulResult ((afterSpace text).head? == some 45)
      (hexValue (hexDigits (digitText text ++ [c]))) := by
  rw [strtoul16_eq, head_afterSpace_concat hc, digitText_concat hc]

theorem strtoul16_append_cons {c : UInt8} (ys : List UInt8) (hc : Plain c)
    (hdigit : hexDigit c = none) : strtoul16 (text ++ c :: ys) = strtoul16 text := by
  have hfinished : ¬ Unfinished (text ++ [c]) := by
    intro h
    have := h c (by simp [digitText_concat hc])
    simp [hdigit] at this
  rw [List.append_cons, strtoul16_append_of_finished ys hfinished, strtoul16_concat hc,
    strtoul16_eq]
  by_cases h : Unfinished text
  · rw [hexDigits_append _ h]
    simp [hexDigits, hdigit]
  · rw [hexDigits_append_of_not _ h]

private theorem strtoul16_concat_digit {c : UInt8} {digit : Nat} (hc : Plain c)
    (hdigit : hexDigit c = some digit) (h : Unfinished text) :
    strtoul16 (text ++ [c]) = strtoulResult ((afterSpace text).head? == some 45)
      (16 * hexValue (hexDigits (digitText text)) + digit) := by
  have hsingle : hexDigits [c] = [digit] := by simp [hexDigits, hdigit]
  rw [strtoul16_concat hc, hexDigits_append _ h, hsingle, hexValue_concat]

private theorem strtoul16_append_of_saturated (ys : List UInt8) (h : Unfinished text)
    (hsat : Saturated text) : strtoul16 (text ++ ys) % 2 ^ 32 = 2 ^ 32 - 1 := by
  obtain ⟨hvalue, hmod⟩ := hsat
  have hsign : afterSign text ≠ [] := by
    intro hnil
    simp [digitText, hnil, afterPrefix, startsWith, hexDigits, hexValue] at hvalue
  have hzero : afterSign text ≠ [48] := by
    intro hzero
    simp [digitText, hzero, afterPrefix, startsWith, hexDigits, hexDigit, hexValue] at hvalue
  rw [strtoul16_append ys hsign hzero, hexDigits_append ys h]
  by_cases hmore : hexDigits ys = []
  · rw [hmore, List.append_nil, ← strtoul16_eq]
    exact hmod
  · have hlarge := hvalue.trans (le_hexValue_append (hexDigits (digitText text)) hmore)
    rw [strtoulResult, if_pos hlarge]
    rfl

private theorem strtoul16_append_differs (h : Unfinished text) (hsat : ¬ Saturated text) :
    ∃ ys zs, strtoul16 (text ++ ys) % 2 ^ 32 ≠ strtoul16 (text ++ zs) % 2 ^ 32 := by
  have h0 := strtoul16_concat_digit (by decide) (show hexDigit 48 = some 0 from rfl) h
  have h1 := strtoul16_concat_digit (by decide) (show hexDigit 49 = some 1 from rfl) h
  by_cases hvalue : 2 ^ 64 ≤ 16 * hexValue (hexDigits (digitText text))
  · refine ⟨[], [48], ?_⟩
    rw [List.append_nil, h0, strtoulResult, if_pos (by omega)]
    intro heq
    exact hsat ⟨hvalue, by omega⟩
  · refine ⟨[48], [49], ?_⟩
    have hsmall : ∀ digit < 2,
        ¬ 2 ^ 64 ≤ 16 * hexValue (hexDigits (digitText text)) + digit := by omega
    rw [h0, h1, strtoulResult, if_neg (hsmall 0 (by omega)), strtoulResult,
      if_neg (hsmall 1 (by omega))]
    split_ifs <;> omega

theorem strtoul16_append_eq_iff :
    (∀ ys zs, strtoul16 (text ++ ys) % 2 ^ 32 = strtoul16 (text ++ zs) % 2 ^ 32) ↔
      (Unfinished text → Saturated text) := by
  constructor
  · intro h hunfinished
    by_contra hsat
    obtain ⟨ys, zs, hne⟩ := strtoul16_append_differs hunfinished hsat
    exact hne (h ys zs)
  · intro h ys zs
    by_cases hunfinished : Unfinished text
    · rw [strtoul16_append_of_saturated ys hunfinished (h hunfinished),
        strtoul16_append_of_saturated zs hunfinished (h hunfinished)]
    · rw [strtoul16_append_of_finished ys hunfinished, strtoul16_append_of_finished zs hunfinished]

end Parts

end Dyplo
