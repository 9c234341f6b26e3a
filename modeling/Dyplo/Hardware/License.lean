import Dyplo.FileIO.FilePollScheduler
import Dyplo.Hardware.Partitions
import Dyplo.Image.Reader
import Dyplo.Image.Strtoul

/-!
# The licence file

`writeDyploLicenseFile` looks through the lines of a file for a key and writes what it has found to
the device. The variable for the key starts with whatever is in its memory.
-/

namespace Dyplo

/-- How the extraction of an `unsigned long long` from a stream ends. -/
inductive Extraction
  /-- The stream is at its end before a number starts; the variable keeps its value. -/
  | blank
  /-- There is no number or too large a one; this value is stored and the stream has failed. -/
  | failed (stored : BitVec 64)
  | number (value : BitVec 64)
  deriving DecidableEq

/-- `std::istringstream(text) >> std::hex >> value` -/
def extractHex (text : List UInt8) : Extraction :=
  if afterSpace text = [] then .blank
  else if hexDigits (digitText text) = [] then .failed 0
  else if 2 ^ 64 ≤ hexValue (hexDigits (digitText text)) then .failed (BitVec.allOnes 64)
  else if (afterSpace text).head? = some 45 then
    .number (-BitVec.ofNat 64 (hexValue (hexDigits (digitText text))))
  else .number (BitVec.ofNat 64 (hexValue (hexDigits (digitText text))))

/-- What is stored to the variable. -/
def Extraction.stored : Extraction → Option (BitVec 64)
  | .blank => none
  | .failed stored => some stored
  | .number value => some value

/-- The number, if there is one. -/
def Extraction.value? : Extraction → Option (BitVec 64)
  | .number value => some value
  | _ => none

/-- `std::string::find`, with no result for `npos`. -/
def findText (text : List UInt8) : List UInt8 → Option Nat
  | [] => if text = [] then some 0 else none
  | c :: line => if startsWith (c :: line) text then some 0 else (findText text line).map (· + 1)

/-- The text up to its first NUL, as `c_str()` is read. -/
def cString (text : List UInt8) : List UInt8 := text.takeWhile (· != 0)

inductive LicenseStop
  | ioException (e : IOException)
  /-- `std::out_of_range` -/
  | outOfRange
  | undefined
  deriving DecidableEq

/-- The state is the list of keys that the driver has been called with. -/
abbrev LicenseM := EStateM LicenseStop (List (BitVec 64))

namespace HardwareControl

/-- `"DYPLO_DNA"` -/
def dyploDna : List UInt8 := [68, 89, 80, 76, 79, 95, 68, 78, 65]

/-- `"="` -/
def equalSign : List UInt8 := [61]

/-- `DYPLO_IOCSLICENSE_KEY` is a parameter; it fails with an error number. -/
def writeDyploLicense (ioctl : BitVec 64 → Option Nat) (licenseBlob : BitVec 64) :
    LicenseM Unit := do
  modify fun written => written ++ [licenseBlob]
  match ioctl licenseBlob with
  | none => return
  | some errno => throw (.ioException ⟨errno, "writeDyploLicense"⟩)

/-- `std::string::npos` -/
def npos : Nat := 2 ^ 64 - 1

/-- Conversion of an `int` to `size_t` -/
def toSize (z : Int) : Nat := (z % 2 ^ 64).toNat

def mentionsKey (line : List UInt8) : Bool := (findText dyploDna line).isSome

/-- `int equal_pos = line.find("=")` -/
def equalPos (line : List UInt8) : Int := toInt ((findText equalSign line).getD npos)

/-- `std::string::substr` -/
def substr (line : List UInt8) (pos : Nat) : Except LicenseStop (List UInt8) :=
  if line.length < pos then .error .outOfRange else .ok (line.drop pos)

/-- An operation that may be undefined. -/
def defined {α : Type} : Option α → Except LicenseStop α
  | none => .error .undefined
  | some a => .ok a

/-- `line.substr(equal_pos + 1)` -/
def valueText (line : List UInt8) : Except LicenseStop (List UInt8) := do
  let pos ← defined (checkInt (equalPos line + 1))
  substr line (toSize pos)

/-- What an extraction from a text stores. -/
def storedFrom (text : List UInt8) : Option (BitVec 64) := (extractHex (cString text)).stored

/-- The body of the loop over the lines. -/
def readLine (hash : BitVec 64) (line : List UInt8) : Except LicenseStop (BitVec 64) :=
  if mentionsKey line then do
    let value ← valueText line
    return (storedFrom value).getD hash
  else return hash

/-- The lines are those that `getline` reads; there are none at all where the file cannot be
opened. `hash` is what the variable holds before it is set. -/
def writeDyploLicenseFile (ioctl : BitVec 64 → Option Nat) (hash : BitVec 64)
    (licenseFile : Option (List (List UInt8))) : LicenseM Unit :=
  match licenseFile with
  | none => writeDyploLicense ioctl hash
  | some lines =>
      match lines.foldlM readLine hash with
      | .error stop => throw stop
      | .ok hash => writeDyploLicense ioctl hash

/-- A line that assigns a key. -/
def isLicenseLine (line : List UInt8) : Bool := mentionsKey line && line.contains 61

/-- The number that follows the first `=` of a line. -/
def licenseKey (line : List UInt8) : Option (BitVec 64) :=
  (extractHex (cString ((line.dropWhile (· != 61)).drop 1))).value?

/-- The key of the last line that assigns one. -/
def IsKeyOf (lines : List (List UInt8)) (key : BitVec 64) : Prop :=
  ∃ line, (lines.filter isLicenseLine).getLast? = some line ∧ licenseKey line = some key

/-- Nothing but the key of the file is ever written, and without a line for it there is an
exception instead. -/
def WritesKeyOnly (ioctl : BitVec 64 → Option Nat) (licenseFile : Option (List (List UInt8))) :
    Prop :=
  ∀ hash, wp (writeDyploLicenseFile ioctl hash licenseFile)
    (fun _ written => (∀ key ∈ written, IsKeyOf (licenseFile.getD []) key) ∧
      (licenseFile.getD []).filter isLicenseLine ≠ [])
    (fun stop written => stop ≠ .undefined ∧
      (∀ key ∈ written, IsKeyOf (licenseFile.getD []) key) ∧
      ((licenseFile.getD []).filter isLicenseLine = [] → written = [])) []

/-- What the lines that mention the key leave in the variable is the key of the file, or one of
them is so long that `substr` throws. -/
def Settles (lines : List (List UInt8)) : Prop :=
  match (lines.filter mentionsKey).mapM valueText with
  | .error stop => stop ≠ .undefined
  | .ok texts => ∃ key, IsKeyOf lines key ∧
      (texts.filterMap storedFrom).getLast? = some key

private theorem foldlM_readLine (lines : List (List UInt8)) (hash : BitVec 64) :
    lines.foldlM readLine hash = ((lines.filter mentionsKey).mapM valueText).map fun texts =>
      (texts.filterMap storedFrom).getLast?.getD hash := by
  induction lines generalizing hash with
  | nil => rfl
  | cons line lines ih =>
    rw [List.foldlM_cons, readLine]
    by_cases hmentions : mentionsKey line = true
    · rw [if_pos hmentions, List.filter_cons_of_pos hmentions, List.mapM_cons]
      cases valueText line with
      | error stop => rfl
      | ok text =>
        change lines.foldlM readLine ((storedFrom text).getD hash) = _
        rw [ih]
        cases (lines.filter mentionsKey).mapM valueText with
        | error stop => rfl
        | ok texts =>
          change Except.ok _ = Except.ok (((text :: texts).filterMap storedFrom).getLast?.getD hash)
          cases hstored : storedFrom text with
          | none => simp [hstored]
          | some value => simp [hstored, List.getLast?_cons]
    · rw [if_neg hmentions, List.filter_cons_of_neg hmentions]
      exact ih hash

private theorem wp_writeDyploLicense {ioctl : BitVec 64 → Option Nat} {key : BitVec 64}
    {Q : Unit → List (BitVec 64) → Prop} {E : LicenseStop → List (BitVec 64) → Prop} :
    wp (writeDyploLicense ioctl key) Q E [] ↔
      match ioctl key with
      | none => Q () [key]
      | some errno => E (.ioException ⟨errno, "writeDyploLicense"⟩) [key] := by
  rw [writeDyploLicense, wp_bind, wp_modify]
  cases ioctl key with
  | none => exact wp_pure ()
  | some errno => exact wp_throw _

private theorem IsKeyOf.ne_nil {lines : List (List UInt8)} {key : BitVec 64}
    (h : IsKeyOf lines key) :
    lines.filter isLicenseLine ≠ [] := by
  obtain ⟨line, hline, -⟩ := h
  intro hnil
  rw [hnil] at hline
  cases hline

private theorem IsKeyOf.unique {lines : List (List UInt8)} {key key' : BitVec 64}
    (h : IsKeyOf lines key) (h' : IsKeyOf lines key') : key = key' := by
  obtain ⟨line, hline, hkey⟩ := h
  obtain ⟨line', hline', hkey'⟩ := h'
  obtain rfl := Option.some.inj (hline.symm.trans hline')
  exact Option.some.inj (hkey.symm.trans hkey')

section Write

variable {ioctl : BitVec 64 → Option Nat} {licenseFile : Option (List (List UInt8))}

private theorem writes_key_iff (key : BitVec 64) :
    wp (writeDyploLicense ioctl key)
      (fun _ written => (∀ key ∈ written, IsKeyOf (licenseFile.getD []) key) ∧
        (licenseFile.getD []).filter isLicenseLine ≠ [])
      (fun stop written => stop ≠ .undefined ∧
        (∀ key ∈ written, IsKeyOf (licenseFile.getD []) key) ∧
        ((licenseFile.getD []).filter isLicenseLine = [] → written = [])) [] ↔
      IsKeyOf (licenseFile.getD []) key := by
  rw [wp_writeDyploLicense]
  cases ioctl key with
  | none =>
    simp only [List.mem_singleton, forall_eq]
    exact ⟨fun h => h.1, fun h => ⟨h, h.ne_nil⟩⟩
  | some errno =>
    simp only [List.mem_singleton, forall_eq]
    exact ⟨fun h => h.2.1, fun h => ⟨by simp, h, fun hnil => absurd hnil h.ne_nil⟩⟩

private theorem not_writesKeyOnly_none : ¬ WritesKeyOnly ioctl none := by
  intro h
  have hkey := (writes_key_iff 0).mp (h 0)
  exact hkey.ne_nil rfl

private theorem writesKeyOnly_some_iff (lines : List (List UInt8)) :
    WritesKeyOnly ioctl (some lines) ↔ ∀ hash, match lines.foldlM readLine hash with
      | .error stop => stop ≠ .undefined
      | .ok key => IsKeyOf lines key := by
  refine forall_congr' fun hash => ?_
  rw [writeDyploLicenseFile]
  cases lines.foldlM readLine hash with
  | error stop =>
    simp only [wp_throw]
    simp
  | ok key => exact writes_key_iff key

private theorem writesKeyOnly_iff_settles (lines : List (List UInt8)) :
    WritesKeyOnly ioctl (some lines) ↔ Settles lines := by
  rw [writesKeyOnly_some_iff, Settles]
  cases htexts : (lines.filter mentionsKey).mapM valueText with
  | error stop =>
    have hread : ∀ hash, lines.foldlM readLine hash = .error stop := by
      intro hash
      rw [foldlM_readLine, htexts]
      rfl
    simp [hread]
  | ok texts =>
    have hread : ∀ hash, lines.foldlM readLine hash =
        .ok ((texts.filterMap storedFrom).getLast?.getD hash) := by
      intro hash
      rw [foldlM_readLine, htexts]
      rfl
    simp only [hread]
    constructor
    · intro h
      cases hlast : (texts.filterMap storedFrom).getLast? with
      | some key =>
        rw [hlast] at h
        exact ⟨key, h 0, rfl⟩
      | none =>
        -- What is in the memory of the variable is written.
        rw [hlast] at h
        exact absurd ((h 0).unique (h 1)) (by decide)
    · rintro ⟨key, hkey, hlast⟩ hash
      rw [hlast]
      exact hkey

end Write

section Short

/-- The text behind the first `=`, or all of a line without one. -/
def behindEqual (line : List UInt8) : List UInt8 :=
  if 61 ∈ line then (line.dropWhile (· != 61)).drop 1 else line

private theorem findText_equalSign (line : List UInt8) :
    if 61 ∈ line then ∃ i < line.length, findText equalSign line = some i ∧
      line.drop (i + 1) = (line.dropWhile (· != 61)).drop 1
    else findText equalSign line = none := by
  induction line with
  | nil => simp [findText, equalSign]
  | cons c line ih =>
    by_cases hc : c = 61
    · subst hc
      rw [if_pos List.mem_cons_self]
      exact ⟨0, by simp, by simp [findText, startsWith, equalSign], by simp⟩
    · have hstart : ¬ startsWith (c :: line) equalSign = true := by
        simp [startsWith, equalSign, hc]
      have hmem : 61 ∈ c :: line ↔ 61 ∈ line := by
        rw [List.mem_cons, or_iff_right (Ne.symm hc)]
      have hdrop : (c :: line).dropWhile (· != 61) = line.dropWhile (· != 61) :=
        List.dropWhile_cons_of_pos (by simpa using hc)
      rw [findText, if_neg hstart, hdrop]
      simp only [hmem]
      split_ifs at ih ⊢ with hin
      · obtain ⟨i, hi, hfind, hrest⟩ := ih
        refine ⟨i + 1, by simpa using hi, ?_, ?_⟩
        · simp [hfind]
        · simpa using hrest
      · simp [ih]

private theorem substrPosition {i : Nat} (h : i + 1 < 2 ^ 31) :
    checkInt (toInt i + 1) = some (i + 1) ∧ toSize (i + 1) = i + 1 := by
  have hint : toInt i = i := toInt_of_lt (by omega) (by omega)
  have hsize : ((i : Int) + 1) % 2 ^ 64 = i + 1 := Int.emod_eq_of_lt (by omega) (by omega)
  rw [hint, checkInt_of_lt (by omega), toSize, hsize]
  exact ⟨rfl, by omega⟩

private theorem substrPosition_npos : checkInt (toInt npos + 1) = some 0 := by decide

private theorem valueText_of_short {line : List UInt8} (h : line.length < 2 ^ 31) :
    valueText line = .ok (behindEqual line) := by
  have hfind := findText_equalSign line
  rw [valueText, behindEqual, equalPos]
  by_cases hin : 61 ∈ line
  · rw [if_pos hin] at hfind ⊢
    obtain ⟨i, hi, hi', hrest⟩ := hfind
    obtain ⟨hcheck, hpos⟩ := substrPosition (i := i) (by omega)
    rw [hi', Option.getD_some, hcheck]
    change substr line (toSize (i + 1)) = _
    rw [hpos, substr, if_neg (by omega), hrest]
  · have hzero : toSize 0 = 0 := by decide
    rw [if_neg hin] at hfind ⊢
    rw [hfind, Option.getD_none, substrPosition_npos]
    change substr line (toSize 0) = _
    rw [hzero, substr, if_neg (Nat.not_lt_zero _), List.drop_zero]

private theorem mapM_valueText_of_short {lines : List (List UInt8)}
    (h : ∀ line ∈ lines, line.length < 2 ^ 31) :
    lines.mapM valueText = .ok (lines.map behindEqual) := by
  induction lines with
  | nil => rfl
  | cons line lines ih =>
    rw [List.mapM_cons, valueText_of_short (h line List.mem_cons_self),
      ih fun other hother => h other (List.mem_cons_of_mem line hother)]
    rfl

private theorem getLast?_filter_eq_some_iff {α : Type} {p : α → Bool} {xs : List α} {x : α} :
    (xs.filter p).getLast? = some x ↔
      ∃ before after, xs = before ++ x :: after ∧ p x = true ∧ ∀ y ∈ after, p y = false := by
  rw [List.getLast?_filter, List.find?_eq_some_iff_append]
  constructor
  · rintro ⟨hx, after, before, hreverse, hafter⟩
    refine ⟨before.reverse, after.reverse, ?_, hx, ?_⟩
    · rw [← List.reverse_reverse xs, hreverse]
      simp
    · intro y hy
      simpa using hafter y (List.mem_reverse.mp hy)
  · rintro ⟨before, after, rfl, hx, hafter⟩
    refine ⟨hx, after.reverse, before.reverse, by simp, ?_⟩
    intro y hy
    simp [hafter y (List.mem_reverse.mp hy)]

private theorem storedFrom_of_licenseKey {line : List UInt8} {key : BitVec 64}
    (hline : isLicenseLine line = true) (hkey : licenseKey line = some key) :
    storedFrom (behindEqual line) = some key := by
  have hequal : 61 ∈ line := by
    rw [isLicenseLine, Bool.and_eq_true, List.contains_iff_mem] at hline
    exact hline.2
  rw [behindEqual, if_pos hequal, storedFrom]
  rw [licenseKey] at hkey
  cases hextract : extractHex (cString ((line.dropWhile (· != 61)).drop 1)) with
  | blank => rw [hextract] at hkey; cases hkey
  | failed stored => rw [hextract] at hkey; cases hkey
  | number value => rw [hextract] at hkey; exact hkey

private theorem behindEqual_of_not_licenseLine {line : List UInt8}
    (hmentions : mentionsKey line = true)
    (h : isLicenseLine line = false) : behindEqual line = line := by
  rw [isLicenseLine, hmentions, Bool.true_and] at h
  rw [behindEqual, if_neg]
  intro hin
  rw [List.contains_iff_mem.mpr hin] at h
  cases h

private theorem getLast?_stored_iff {before after : List (List UInt8)} {line : List UInt8}
    {key : BitVec 64}
    (hline : isLicenseLine line = true) (hafter : ∀ other ∈ after, isLicenseLine other = false)
    (hkey : licenseKey line = some key) :
    ((((before ++ line :: after).filter mentionsKey).map behindEqual).filterMap
        storedFrom).getLast? = some key ↔
      ∀ value ∈ ((after.filter mentionsKey).filterMap storedFrom).getLast?, value = key := by
  have hmentions : mentionsKey line = true := by
    rw [isLicenseLine, Bool.and_eq_true] at hline
    exact hline.1
  have hsame : ∀ other ∈ after.filter mentionsKey, behindEqual other = id other := by
    intro other hother
    obtain ⟨hin, hmentions⟩ := List.mem_filter.mp hother
    exact behindEqual_of_not_licenseLine hmentions (hafter other hin)
  have hrest : (after.filter mentionsKey).map behindEqual = after.filter mentionsKey :=
    (List.map_congr_left hsame).trans (List.map_id _)
  rw [List.filter_append, List.filter_cons_of_pos hmentions, List.map_append, List.map_cons, hrest,
    List.filterMap_append, List.filterMap_cons_some (storedFrom_of_licenseKey hline hkey),
    List.getLast?_append, List.getLast?_cons]
  cases ((after.filter mentionsKey).filterMap storedFrom).getLast? with
  | none => simp
  | some value => simp

/-- Where the position of every `=` fits an `int`, the key of the file is written if it can be read
and no later line that mentions it without a `=` replaces it. -/
theorem settles_iff_of_short {lines : List (List UInt8)}
    (h : ∀ line ∈ lines, line.length < 2 ^ 31) :
    Settles lines ↔ ∃ before line after key, lines = before ++ line :: after ∧
      isLicenseLine line = true ∧ (∀ other ∈ after, isLicenseLine other = false) ∧
      licenseKey line = some key ∧
      ∀ value ∈ ((after.filter mentionsKey).filterMap storedFrom).getLast?, value = key := by
  rw [Settles, mapM_valueText_of_short fun line hline => h line (List.mem_of_mem_filter hline)]
  constructor
  · rintro ⟨key, ⟨line, hlast, hkey⟩, hstored⟩
    obtain ⟨before, after, rfl, hline, hafter⟩ := getLast?_filter_eq_some_iff.mp hlast
    exact ⟨before, line, after, key, rfl, hline, hafter, hkey,
      (getLast?_stored_iff hline hafter hkey).mp hstored⟩
  · rintro ⟨before, line, after, key, rfl, hline, hafter, hkey, hvalue⟩
    exact ⟨key, ⟨line, getLast?_filter_eq_some_iff.mpr ⟨before, after, rfl, hline, hafter⟩, hkey⟩,
      (getLast?_stored_iff hline hafter hkey).mpr hvalue⟩

end Short

/-- Only a file whose last key can be read and stays in the variable keeps the device from being
written with something else. -/
theorem writesKeyOnly_iff (ioctl : BitVec 64 → Option Nat) :
    ¬ WritesKeyOnly ioctl none ∧
      ∀ lines, (WritesKeyOnly ioctl (some lines) ↔ Settles lines) ∧
        ((∀ line ∈ lines, line.length < 2 ^ 31) →
          (Settles lines ↔ ∃ before line after key, lines = before ++ line :: after ∧
            isLicenseLine line = true ∧ (∀ other ∈ after, isLicenseLine other = false) ∧
            licenseKey line = some key ∧
            ∀ value ∈ ((after.filter mentionsKey).filterMap storedFrom).getLast?, value = key)) :=
  ⟨not_writesKeyOnly_none, fun lines => ⟨writesKeyOnly_iff_settles lines, settles_iff_of_short⟩⟩

/-- `"DYPLO_DNA=5"` -/
def keyLine : List UInt8 := dyploDna ++ [61, 53]

theorem writesKeyOnly_iff_keyLine : WritesKeyOnly (fun _ => none) (some [keyLine]) := by
  obtain ⟨hsettles, hshort⟩ := (writesKeyOnly_iff fun _ => none).2 [keyLine]
  have hlength : ∀ line ∈ [keyLine], line.length < 2 ^ 31 := by decide
  have hkey : licenseKey keyLine = some 5 := by decide
  refine hsettles.mpr ((hshort hlength).mpr ⟨[], keyLine, [], 5, rfl, by decide, ?_, hkey, ?_⟩)
  · simp
  · simp

/-- `"DYPLO_DNA: 5"` -/
def noEqualSign : List UInt8 := dyploDna ++ [58, 32, 53]

/-- Without a `=` the scan starts at the `D` of the line, and 13 is written. -/
theorem noEqualSign_not_writesKeyOnly :
    writeDyploLicenseFile (fun _ => none) 0 (some [noEqualSign]) [] = .ok () [13] ∧
      ¬ WritesKeyOnly (fun _ => none) (some [noEqualSign]) := by
  have hrun : writeDyploLicenseFile (fun _ => none) 0 (some [noEqualSign]) [] = .ok () [13] := by
    decide
  refine ⟨hrun, ?_⟩
  intro h
  have hfound := ((wp_of_ok hrun).mp (h 0)).2
  exact hfound (by decide)

end HardwareControl

end Dyplo
