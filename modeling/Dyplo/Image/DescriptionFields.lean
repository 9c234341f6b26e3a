import Dyplo.Image.Strtoul

/-!
# The fields of a description

The loop of `parseDescriptionTag` splits the description at its semicolons. A field that a
semicolon or a NUL ends is read on its own; the last field of a description without a NUL is read
together with the memory behind it.
-/

namespace Dyplo

/-- The bytes behind the last semicolon. -/
def lastField (text : List UInt8) : List UInt8 := (text.splitOn 59).getLastD []

/-- The two bytes that end a field. -/
def EndsField (c : UInt8) : Prop := c = 59 ∨ c = 0

section EndsField

variable {c : UInt8}

private theorem EndsField.notMem_userIdKey (h : EndsField c) : c ∉ userIdKey := by
  rcases h with rfl | rfl <;> decide

private theorem EndsField.notMem_partialKey (h : EndsField c) : c ∉ partialKey := by
  rcases h with rfl | rfl <;> decide

private theorem EndsField.plain (h : EndsField c) : Plain c := by
  rcases h with rfl | rfl <;> decide

private theorem EndsField.hexDigit_eq_none (h : EndsField c) : hexDigit c = none := by
  rcases h with rfl | rfl <;> decide

private theorem EndsField.ne_T (h : EndsField c) : c ≠ 84 := by
  rcases h with rfl | rfl <;> decide

end EndsField

namespace Description

variable {d : Description} {xs text : List UInt8}

private theorem drop_append_of_startsWith {key : List UInt8} (rest : List UInt8)
    (h : startsWith xs key = true) :
    (xs ++ rest).drop key.length = xs.drop key.length ++ rest :=
  List.drop_append_of_le_length ((startsWith_iff _ _).mp h).length_le

private theorem field_append_cons {c : UInt8} (hc : EndsField c) (rest : List UInt8) :
    d.field (xs ++ c :: rest) = d.field xs := by
  rw [Description.field, startsWith_append_cons _ _ hc.notMem_userIdKey,
    startsWith_append_cons _ _ hc.notMem_partialKey, Description.field]
  by_cases huser : startsWith xs userIdKey = true
  · have hdrop : (xs ++ c :: rest).drop 7 = xs.drop 7 ++ c :: rest :=
      drop_append_of_startsWith _ huser
    rw [if_pos huser, if_pos huser, hdrop, strtoul16_append_cons _ hc.plain hc.hexDigit_eq_none]
  · rw [if_neg huser, if_neg huser]
    by_cases hpart : startsWith xs partialKey = true
    · have hlen : 8 ≤ xs.length := ((startsWith_iff _ _).mp hpart).length_le
      have hbyte : (byteAt (xs ++ c :: rest) 8 == 84) = (byteAt xs 8 == 84) := by
        rw [byteAt_append]
        split_ifs with hlt
        · rfl
        · have h8 : xs.length = 8 := by omega
          simp [byteAt, h8, hc.ne_T]
      rw [hbyte]
    · simp [hpart]

private theorem fields_of_memchr {data : List UInt8} {size stop : Nat} (hsize : size ≠ 0)
    (hstop : (memchr data 59 size).getD size = stop) :
    d.fields data size =
      if size - stop = 0 then d.field data
      else (d.field data).fields (data.drop (stop + 1)) (size - stop - 1) := by
  rw [Description.fields, dif_neg hsize, hstop]

private theorem memchr_append_cons {c : UInt8} (ys : List UInt8) (size : Nat)
    (hc : c ∉ xs) (hsize : xs.length < size) : memchr (xs ++ c :: ys) c size = some xs.length := by
  rw [memchr, List.take_append, List.take_of_length_le (by omega), List.findIdx?_append]
  have hxs : xs.findIdx? (· == c) = none := by
    rw [List.findIdx?_eq_none_iff]
    intro x hx
    simpa using fun h : x = c => hc (h ▸ hx)
  obtain ⟨more, hmore⟩ := Nat.exists_eq_add_of_lt hsize
  rw [hxs, show size - xs.length = more + 1 by omega, List.take_succ_cons]
  simp [List.findIdx?_cons]

private theorem memchr_of_notMem {c : UInt8} (rest : List UInt8) (hc : c ∉ xs) :
    memchr (xs ++ rest) c xs.length = none := by
  rw [memchr, List.take_left, List.findIdx?_eq_none_iff]
  intro x hx
  simpa using fun h : x = c => hc (h ▸ hx)

private theorem lastField_append_cons (ys : List UInt8) (hxs : (59 : UInt8) ∉ xs) :
    lastField (xs ++ 59 :: ys) = lastField ys := by
  rw [lastField, List.splitOn_append_cons_self_of_not_mem hxs, lastField]
  cases h : ys.splitOn 59 with
  | nil => exact absurd h (List.splitOn_ne_nil _ _)
  | cons first others => rfl

/-- The loop reads the fields one after another, and the last one with what is behind it. -/
theorem fields_eq (rest : List UInt8) :
    d.fields (text ++ rest) text.length =
      if lastField text = [] then (text.splitOn 59).dropLast.foldl Description.field d
      else ((text.splitOn 59).dropLast.foldl Description.field d).field
        (lastField text ++ rest) := by
  induction hlen : text.length using Nat.strong_induction_on generalizing text d with
  | h n ih =>
    subst hlen
    by_cases hmem : (59 : UInt8) ∈ text
    · obtain ⟨xs, ys, rfl, hxs⟩ := List.eq_append_cons_of_mem hmem
      have hsize : xs.length < (xs ++ 59 :: ys).length := by simp
      have hleft : (xs ++ 59 :: ys).length - xs.length = ys.length + 1 := by simp
      have hstop : (memchr (xs ++ 59 :: (ys ++ rest)) 59 (xs ++ 59 :: ys).length).getD
          (xs ++ 59 :: ys).length = xs.length := by
        rw [memchr_append_cons _ _ hxs hsize, Option.getD_some]
      have hdrop : (xs ++ 59 :: (ys ++ rest)).drop (xs.length + 1) = ys ++ rest := by
        rw [List.append_cons, List.drop_left' (by simp)]
      rw [List.append_assoc, List.cons_append, fields_of_memchr (by omega) hstop, hleft,
        if_neg (by omega), field_append_cons (.inl rfl), hdrop, Nat.add_sub_cancel,
        ih ys.length (by omega) rfl, lastField_append_cons ys hxs,
        List.splitOn_append_cons_self_of_not_mem hxs,
        List.dropLast_cons_of_ne_nil (List.splitOn_ne_nil _ _), List.foldl_cons]
    · have hsplit : text.splitOn 59 = [text] := List.splitOn_eq_singleton hmem
      have hlast : lastField text = text := by rw [lastField, hsplit]; rfl
      rw [hlast, hsplit, List.dropLast_singleton, List.foldl_nil]
      by_cases hnil : text = []
      · rw [if_pos hnil, Description.fields, dif_pos (by rw [hnil]; rfl)]
      · have hstop : (memchr (text ++ rest) 59 text.length).getD text.length = text.length := by
          rw [memchr_of_notMem rest hmem, Option.getD_none]
        rw [if_neg hnil, fields_of_memchr (by simpa using hnil) hstop, if_pos (Nat.sub_self _)]

private theorem field_userId (number : List UInt8) :
    d.field (userIdKey ++ number) =
      { d with userId := d.userId.map fun _ => strtoul16 number % 2 ^ 32, result := true } := by
  have hstart : startsWith (userIdKey ++ number) userIdKey = true :=
    (startsWith_iff _ _).mpr (List.prefix_append _ _)
  have hdrop : (userIdKey ++ number).drop 7 = number := List.drop_left' rfl
  rw [Description.field, if_pos hstart, hdrop]

private theorem field_partialKey (value : List UInt8) :
    d.field (partialKey ++ value) =
      { d with isPartial := d.isPartial.map fun _ => byteAt value 0 == 84 } := by
  have hstart : startsWith (partialKey ++ value) partialKey = true :=
    (startsWith_iff _ _).mpr (List.prefix_append _ _)
  have huser : startsWith (partialKey ++ value) userIdKey = false := by
    rw [startsWith_append value (by decide)]
    decide
  have hbyte : byteAt (partialKey ++ value) 8 = byteAt value 0 := by
    rw [byteAt_append]
    rfl
  obtain ⟨result, isPartial, userId⟩ := d
  rw [Description.field, huser, hstart, hbyte]
  cases isPartial <;> simp

private theorem field_other (huser : ¬ userIdKey <+: xs) (hpart : ¬ partialKey <+: xs) :
    d.field xs = d := by
  rw [← startsWith_iff] at huser hpart
  simp [Description.field, huser, hpart]

/-- What fields say together: for each key the last field counts. -/
def ofFields (fields : List (List UInt8)) (isPartial : Option Bool) (userId : Option Nat) :
    Description where
  result := fields.any (startsWith · userIdKey)
  isPartial := isPartial.map fun old =>
    ((fields.filter (startsWith · partialKey)).getLast?.map fun field =>
      field[8]? == some 84).getD old
  userId := userId.map fun old =>
    ((fields.filter (startsWith · userIdKey)).getLast?.map fun field =>
      strtoul16 (field.drop 7)).getD old

/-- Reading fields one after another is reading them together. -/
theorem foldl_field (fields : List (List UInt8)) (isPartial : Option Bool) (userId : Option Nat)
    (hfits : ∀ field ∈ fields, startsWith field userIdKey = true →
      strtoul16 (field.drop 7) < 2 ^ 32) :
    fields.foldl Description.field ⟨false, isPartial, userId⟩ =
      ofFields fields isPartial userId := by
  induction fields using List.reverseRecOn with
  | nil => simp [ofFields]
  | append_singleton fields last ih =>
    rw [List.foldl_append, List.foldl_cons, List.foldl_nil,
      ih fun field hfield => hfits field (by simp [hfield])]
    by_cases huser : userIdKey <+: last
    · obtain ⟨number, rfl⟩ := huser
      have hstart : startsWith (userIdKey ++ number) userIdKey = true :=
        (startsWith_iff _ _).mpr (List.prefix_append _ _)
      have hpart : startsWith (userIdKey ++ number) partialKey = false := by
        simp [startsWith, userIdKey, partialKey]
      have hdrop : (userIdKey ++ number).drop 7 = number := List.drop_left' rfl
      have hlt := hfits (userIdKey ++ number) (by simp) hstart
      rw [hdrop] at hlt
      rw [field_userId, Nat.mod_eq_of_lt hlt]
      cases userId <;> simp [ofFields, hstart, hpart, hdrop]
    · by_cases hpart : partialKey <+: last
      · obtain ⟨value, rfl⟩ := hpart
        have hstart : startsWith (partialKey ++ value) partialKey = true :=
          (startsWith_iff _ _).mpr (List.prefix_append _ _)
        have huser : startsWith (partialKey ++ value) userIdKey = false := by
          simp [startsWith, userIdKey, partialKey]
        have hchar : ((partialKey ++ value)[8]? == some 84) = (byteAt value 0 == 84) := by
          cases value <;> simp [partialKey, byteAt]
        rw [field_partialKey, ← hchar]
        cases isPartial <;> simp [ofFields, hstart, huser]
      · rw [field_other huser hpart]
        rw [← startsWith_iff] at huser hpart
        simp [ofFields, huser, hpart]

private theorem lastField_concat {c : UInt8} (text : List UInt8) (hc : c ≠ 59) :
    lastField (text ++ [c]) = lastField text ++ [c] := by
  induction hlen : text.length using Nat.strong_induction_on generalizing text with
  | h n ih =>
    subst hlen
    by_cases hmem : (59 : UInt8) ∈ text
    · obtain ⟨xs, ys, rfl, hxs⟩ := List.eq_append_cons_of_mem hmem
      rw [List.append_assoc, List.cons_append, lastField_append_cons _ hxs,
        lastField_append_cons _ hxs]
      have hlt : ys.length < (xs ++ 59 :: ys).length := by
        rw [List.length_append, List.length_cons]
        omega
      exact ih ys.length hlt ys rfl
    · have hconcat : (59 : UInt8) ∉ text ++ [c] := by simp [hmem, hc.symm]
      rw [lastField, List.splitOn_eq_singleton hconcat, lastField, List.splitOn_eq_singleton hmem]
      rfl

private theorem dropLast_append_lastField (text : List UInt8) :
    (text.splitOn 59).dropLast ++ [lastField text] = text.splitOn 59 := by
  have hne : text.splitOn 59 ≠ [] := List.splitOn_ne_nil _ _
  rw [lastField, List.getLastD_eq_getLast?, List.getLast?_eq_some_getLast hne, Option.getD_some,
    List.dropLast_append_getLast]

private theorem fields_of_nul (rest : List UInt8) (hnul : text.getLast? = some 0) :
    d.fields (text ++ rest) text.length = (text.splitOn 59).foldl Description.field d := by
  obtain ⟨init, rfl⟩ := List.getLast?_eq_some_iff.mp hnul
  have hlast := lastField_concat init (show (0 : UInt8) ≠ 59 by decide)
  rw [fields_eq, if_neg (by simp [hlast]), ← dropLast_append_lastField (init ++ [0]),
    List.foldl_append, List.foldl_cons, List.foldl_nil, List.dropLast_concat, hlast,
    List.append_assoc, List.singleton_append, field_append_cons (.inr rfl),
    field_append_cons (.inr rfl)]

/-- A NUL-terminated description is read as its fields say, whatever is behind it. -/
theorem parseDescriptionTag_eq_ofFields (text rest : List UInt8) (isPartial : Option Bool)
    (userId : Option Nat) (hnul : text.getLast? = some 0)
    (hfits : ∀ field ∈ text.splitOn 59, startsWith field userIdKey = true →
      strtoul16 (field.drop 7) < 2 ^ 32) :
    parseDescriptionTag (text ++ rest) text.length isPartial userId =
      ofFields (text.splitOn 59) isPartial userId := by
  rw [parseDescriptionTag, fields_of_nul rest hnul, foldl_field _ _ _ hfits]

/-- `"UserID=1f;;PARTIAL=T"` with its NUL. -/
theorem parseDescriptionTag_eq_ofFields_id :
    parseDescriptionTag ((userIdKey ++ [49, 102, 59, 59] ++ partialKey ++ [84, 0]) ++ [98]) 21
      (some false) (some 0) = ⟨true, some true, some 31⟩ := by
  have h := parseDescriptionTag_eq_ofFields
    (userIdKey ++ [49, 102, 59, 59] ++ partialKey ++ [84, 0]) [98] (some false) (some 0)
    (by decide) (by decide)
  exact h.trans (by decide)

/-- A field that is read alike whatever is behind it: it ends inside no key, and the number in it
is finished, or too large for more digits to count. -/
def SelfContained (field : List UInt8) : Prop :=
  ¬ field <+: partialKey ∧ ¬ (field <+: userIdKey ∧ field ≠ userIdKey) ∧
    ∀ number, field = userIdKey ++ number → Unfinished number → Saturated number

private theorem field_append_of_selfContained (rest : List UInt8) (h : SelfContained xs) :
    d.field (xs ++ rest) = d.field xs := by
  obtain ⟨hpart, huser, hnumber⟩ := h
  by_cases hkey : userIdKey <+: xs
  · obtain ⟨number, rfl⟩ := hkey
    have heq := strtoul16_append_eq_iff.mpr (hnumber number rfl) rest []
    rw [List.append_nil] at heq
    rw [List.append_assoc, field_userId, field_userId, heq]
  · by_cases hkey' : partialKey <+: xs
    · obtain ⟨value, rfl⟩ := hkey'
      cases value with
      | nil => exact absurd (by simp) hpart
      | cons c value =>
        rw [List.append_assoc, field_partialKey, field_partialKey]
        rfl
    · have hpart' : ¬ (xs <+: partialKey ∧ xs ≠ partialKey) := fun h => hpart h.1
      rw [field_other hkey hkey', field_other]
      · rwa [prefix_append_iff huser]
      · rwa [prefix_append_iff hpart']

private theorem selfContained_of_field_append (result isPartial : Bool) (userId : Nat)
    (h : ∀ rest rest', Description.field ⟨result, some isPartial, some userId⟩ (xs ++ rest) =
      Description.field ⟨result, some isPartial, some userId⟩ (xs ++ rest')) :
    SelfContained xs := by
  refine ⟨?_, ?_, ?_⟩
  · rintro ⟨more, hmore⟩
    have heq := h (more ++ [84]) (more ++ [70])
    rw [← List.append_assoc, ← List.append_assoc, hmore, field_partialKey, field_partialKey] at heq
    simp [byteAt] at heq
  · rintro ⟨⟨more, hmore⟩, -⟩
    have heq := h (more ++ [48]) (more ++ [49])
    have h0 : strtoul16 [48] % 2 ^ 32 = 0 := by decide
    have h1 : strtoul16 [49] % 2 ^ 32 = 1 := by decide
    rw [← List.append_assoc, ← List.append_assoc, hmore, field_userId, field_userId, h0, h1] at heq
    simp at heq
  · intro number hxs
    rw [← strtoul16_append_eq_iff]
    intro rest rest'
    have heq := h rest rest'
    rw [hxs, List.append_assoc, List.append_assoc, field_userId, field_userId] at heq
    simpa using heq

private theorem foldl_field_some (fields : List (List UInt8)) (result isPartial : Bool)
    (userId : Nat) :
    ∃ result' isPartial' userId', fields.foldl Description.field
      ⟨result, some isPartial, some userId⟩ = ⟨result', some isPartial', some userId'⟩ := by
  induction fields generalizing result isPartial userId with
  | nil => exact ⟨_, _, _, rfl⟩
  | cons first fields ih =>
    rw [List.foldl_cons]
    by_cases huser : userIdKey <+: first
    · obtain ⟨number, rfl⟩ := huser
      rw [field_userId]
      exact ih _ _ _
    · by_cases hpart : partialKey <+: first
      · obtain ⟨value, rfl⟩ := hpart
        rw [field_partialKey]
        exact ih _ _ _
      · rw [field_other huser hpart]
        exact ih _ _ _

/-- What is read of a description depends on it alone exactly when its last field is empty or
self-contained. -/
theorem parseDescriptionTag_append_eq_iff (text : List UInt8) :
    (∀ rest rest' isPartial userId,
      parseDescriptionTag (text ++ rest) text.length isPartial userId =
        parseDescriptionTag (text ++ rest') text.length isPartial userId) ↔
      (lastField text = [] ∨ SelfContained (lastField text)) := by
  constructor
  · intro h
    by_cases hlast : lastField text = []
    · exact .inl hlast
    · right
      obtain ⟨result, isPartial, userId, hfold⟩ :=
        foldl_field_some (text.splitOn 59).dropLast false false 0
      apply selfContained_of_field_append result isPartial userId
      intro rest rest'
      have heq := h rest rest' (some false) (some 0)
      rwa [parseDescriptionTag, fields_eq, if_neg hlast, hfold, parseDescriptionTag, fields_eq,
        if_neg hlast, hfold] at heq
  · intro h rest rest' isPartial userId
    rw [parseDescriptionTag, fields_eq, parseDescriptionTag, fields_eq]
    by_cases hlast : lastField text = []
    · rw [if_pos hlast, if_pos hlast]
    · have hself := h.resolve_left hlast
      rw [if_neg hlast, if_neg hlast, field_append_of_selfContained rest hself,
        field_append_of_selfContained rest' hself]

/-- `"UserID=12"` without a NUL: the letter of the next tag is a hexadecimal digit. -/
theorem parseDescriptionTag_reads_next_tag :
    ¬ ∀ (text rest rest' : List UInt8) (isPartial : Option Bool) (userId : Option Nat),
      parseDescriptionTag (text ++ rest) text.length isPartial userId =
        parseDescriptionTag (text ++ rest') text.length isPartial userId := by
  intro h
  have heq := congrArg Description.userId
    (h (userIdKey ++ [49, 50]) [98] [] (some true) (some 0))
  have hlen : (userIdKey ++ [49, 50]).length ≠ 0 := by decide
  have hstop : ∀ rest : List UInt8,
      (memchr (userIdKey ++ [49, 50] ++ rest) 59 (userIdKey ++ [49, 50]).length).getD
        (userIdKey ++ [49, 50]).length = (userIdKey ++ [49, 50]).length := by
    intro rest
    rw [memchr_of_notMem rest (by decide), Option.getD_none]
  rw [parseDescriptionTag, fields_of_memchr hlen (hstop _), if_pos (Nat.sub_self _),
    parseDescriptionTag, fields_of_memchr hlen (hstop _), if_pos (Nat.sub_self _)] at heq
  revert heq
  decide

end Description

end Dyplo
