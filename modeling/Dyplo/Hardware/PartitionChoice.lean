import Dyplo.Hardware.Partitions
import Dyplo.Image.Strtoul

/-!
# Which file `findPartitionIn` picks

Several files of a directory can be for one partition. `.partial` files come first, and among
equals the order of the directory decides.
-/

namespace Dyplo

/-- What `parse_number_from_name` returns on a machine. Where the digits of a name overflow an
`int`, it may be any number. -/
structure NumberFromName where
  value : List UInt8 → Int
  agrees : ∀ {name number}, parseNumberFromName name = some number → value name = number

instance : Inhabited NumberFromName where
  default :=
    { value := fun name => (parseNumberFromName name).getD 0
      agrees := fun h => by rw [h, Option.getD_some] }

/-- An entry that `findPartitionIn` adds to its possible partitions. -/
def Dirent.isCandidate (number : NumberFromName) (partition : Int) (entry : Dirent) : Bool :=
  entry.isFile && number.value entry.name == partition

/-- The name ends in `.partial`. -/
def Dirent.isPartial (entry : Dirent) : Prop := HardwareContext.partialPostfix <:+ entry.name

instance (entry : Dirent) : Decidable entry.isPartial :=
  inferInstanceAs (Decidable (HardwareContext.partialPostfix <:+ entry.name))

namespace HardwareContext

variable (number : NumberFromName) (path : List UInt8) (partition : Int) {entries : List Dirent}

/-- `std::string(path) + '/' + entry->d_name` -/
def join (entry : Dirent) : List UInt8 := path ++ 47 :: entry.name

/-- The body of the loop of `findPartitionIn`, where every name has a number. -/
def addPossibleBy (possible : List (List UInt8)) (entry : Dirent) : List (List UInt8) :=
  if entry.isFile then
    if number.value entry.name = partition then possible ++ [join path entry] else possible
  else possible

/-- `findPartitionIn`, where every name has a number. -/
def findPartitionBy (entries : List Dirent) : List UInt8 :=
  choosePartition (entries.foldl (addPossibleBy number path partition) [])

private theorem addPossibleBy_eq {possible next : List (List UInt8)} {entry : Dirent}
    (h : addPossible path partition possible entry = some next) :
    addPossibleBy number path partition possible entry = next := by
  unfold addPossible at h
  unfold addPossibleBy
  by_cases hfile : entry.isFile = true
  · rw [if_pos hfile] at h ⊢
    obtain ⟨index, hindex, hadd⟩ := Option.bind_eq_some_iff.mp h
    rw [number.agrees hindex]
    exact Option.some.inj hadd
  · rw [if_neg hfile] at h ⊢
    exact Option.some.inj h

private theorem findPartitionBy_eq {found : List UInt8}
    (h : findPartitionIn path entries partition = some found) :
    findPartitionBy number path partition entries = found := by
  obtain ⟨possible, hfold, rfl⟩ := Option.map_eq_some_iff.mp h
  suffices hloop : ∀ start, entries.foldlM (addPossible path partition) start = some possible →
      entries.foldl (addPossibleBy number path partition) start = possible by
    rw [findPartitionBy, hloop [] hfold]
  clear hfold h
  induction entries with
  | nil => exact fun _ hnil => Option.some.inj hnil
  | cons entry entries ih =>
    intro start hloop
    rw [List.foldlM_cons, Option.bind_eq_bind, Option.bind_eq_some_iff] at hloop
    obtain ⟨next, hstep, hrest⟩ := hloop
    rw [List.foldl_cons, addPossibleBy_eq number path partition hstep]
    exact ih next hrest

private theorem foldl_addPossibleBy (entries : List Dirent) (possible : List (List UInt8)) :
    entries.foldl (addPossibleBy number path partition) possible =
      possible ++ (entries.filter (Dirent.isCandidate number partition)).map (join path) := by
  induction entries generalizing possible with
  | nil => simp
  | cons entry entries ih =>
    rw [List.foldl_cons, ih, addPossibleBy, List.filter_cons, Dirent.isCandidate]
    by_cases hfile : entry.isFile = true
    · by_cases hnumber : number.value entry.name = partition <;> simp [hfile, hnumber]
    · simp [hfile]

/-- The last place where `pattern` can be is the end of `text`. -/
theorem rfind_eq_iff {text pattern : List UInt8} (hlen : pattern.length ≤ text.length) :
    rfind text pattern = some (text.length - pattern.length) ↔ pattern <:+ text := by
  have hlast : startsWith (text.drop (text.length - pattern.length)) pattern = true ↔
      pattern <:+ text := by
    rw [startsWith_iff, List.suffix_iff_eq_drop]
    refine ⟨fun h => h.eq_of_length ?_, fun h => ⟨[], by rw [← h, List.append_nil]⟩⟩
    rw [List.length_drop]
    omega
  constructor
  · intro h
    have hmem := List.mem_of_getLast? h
    exact hlast.mp (List.mem_filter.mp hmem).2
  · intro h
    -- further to the right the rest of the text is too short
    have hshort : ∀ i ∈ (List.range pattern.length).map (text.length - pattern.length + 1 + ·),
        ¬startsWith (text.drop i) pattern = true := by
      intro i hi hstarts
      obtain ⟨k, hk, rfl⟩ := List.mem_map.mp hi
      have hprefix := ((startsWith_iff _ _).mp hstarts).length_le
      rw [List.length_drop] at hprefix
      have := List.mem_range.mp hk
      omega
    have hsplit : text.length + 1 = text.length - pattern.length + 1 + pattern.length := by omega
    rw [rfind, hsplit, List.range_add, List.filter_append, List.filter_eq_nil_iff.mpr hshort,
      List.append_nil, List.range_succ, List.filter_append, List.filter_singleton, hlast.mpr h,
      cond_true, List.getLast?_concat]

private theorem suffix_join {entry : Dirent} :
    partialPostfix <:+ join path entry ↔ entry.isPartial := by
  have hslash : (47 : UInt8) ∉ partialPostfix := by decide
  constructor
  · intro h
    rcases List.suffix_or_suffix_of_suffix h (List.suffix_append path (47 :: entry.name)) with
      hname | hname
    · rcases List.suffix_cons_iff.mp hname with heq | hname
      · exact absurd (heq ▸ List.mem_cons_self) hslash
      · exact hname
    · exact absurd (hname.subset List.mem_cons_self) hslash
  · intro h
    exact (h.trans (List.suffix_cons 47 entry.name)).trans (List.suffix_append path _)

private theorem isPartialName_join {entry : Dirent} :
    isPartialName (join path entry) = true ↔ entry.isPartial := by
  rw [isPartialName, Bool.and_eq_true, decide_eq_true_eq, beq_iff_eq]
  constructor
  · rintro ⟨hlen, hfound⟩
    exact (suffix_join path).mp ((rfind_eq_iff hlen.le).mp hfound)
  · intro h
    have hname := h.length_le
    have hlen : partialPostfix.length < (join path entry).length := by
      rw [join, List.length_append, List.length_cons]
      omega
    exact ⟨hlen, (rfind_eq_iff hlen.le).mpr ((suffix_join path).mpr h)⟩

private theorem choosePartition_eq (names : List (List UInt8)) :
    choosePartition names = ((names.find? isPartialName).or names.head?).getD [] := by
  match names with
  | [] => rfl
  | [only] => cases h : isPartialName only <;> simp [choosePartition, h]
  | first :: second :: others =>
    change ((first :: second :: others).find? isPartialName).getD first = _
    cases (first :: second :: others).find? isPartialName <;> rfl

/-- The entry that is picked. -/
def chosenEntry (entries : List Dirent) : Option Dirent :=
  (entries.find? fun entry => entry.isCandidate number partition && entry.isPartial).or
    (entries.find? (Dirent.isCandidate number partition))

private theorem findPartitionBy_eq_chosenEntry (entries : List Dirent) :
    findPartitionBy number path partition entries =
      ((chosenEntry number partition entries).map (join path)).getD [] := by
  have hpartial : isPartialName ∘ join path = fun entry => decide entry.isPartial := by
    funext entry
    rw [Function.comp_apply, Bool.eq_iff_iff, isPartialName_join, decide_eq_true_eq]
  rw [findPartitionBy, foldl_addPossibleBy, List.nil_append, choosePartition_eq, List.find?_map,
    hpartial, List.find?_filter, List.head?_map, List.head?_filter, chosenEntry, Option.map_or]
  simp only [Bool.decide_and, Bool.decide_eq_true]

/-- The rule by which a file is picked out of the entries of a directory. -/
structure Picks (entries : List Dirent) (found : List UInt8) : Prop where
  nil_iff : found = [] ↔ ∀ entry ∈ entries, ¬entry.isCandidate number partition
  candidate : found ≠ [] →
    ∃ entry ∈ entries, entry.isCandidate number partition ∧ found = join path entry
  firstPartial : (∃ entry ∈ entries, entry.isCandidate number partition ∧ entry.isPartial) →
    ∃ before entry after, entries = before ++ entry :: after ∧
      entry.isCandidate number partition ∧ entry.isPartial ∧ found = join path entry ∧
      ∀ other ∈ before, other.isCandidate number partition → ¬other.isPartial
  first : (∀ entry ∈ entries, entry.isCandidate number partition → ¬entry.isPartial) →
    found ≠ [] → ∃ before entry after, entries = before ++ entry :: after ∧
      entry.isCandidate number partition ∧ found = join path entry ∧
      ∀ other ∈ before, ¬other.isCandidate number partition

variable {number path partition}

private theorem join_ne_nil {entry : Dirent} : join path entry ≠ [] :=
  List.append_ne_nil_of_right_ne_nil path (List.cons_ne_nil 47 entry.name)

private theorem findPartitionBy_picks (entries : List Dirent) :
    Picks number path partition entries (findPartitionBy number path partition entries) := by
  rw [findPartitionBy_eq_chosenEntry, chosenEntry]
  cases hpartial : entries.find? fun entry =>
      entry.isCandidate number partition && entry.isPartial with
  | some entry =>
    obtain ⟨hentry, before, after, rfl, hbefore⟩ := List.find?_eq_some_iff_append.mp hpartial
    rw [Bool.and_eq_true, decide_eq_true_eq] at hentry
    simp only [Bool.not_eq_true', Bool.and_eq_false_imp, decide_eq_false_iff_not] at hbefore
    have hmem : entry ∈ before ++ entry :: after := List.mem_append_right before List.mem_cons_self
    constructor
    · exact ⟨fun h => absurd h join_ne_nil, fun h => absurd hentry.1 (h entry hmem)⟩
    · exact fun _ => ⟨entry, hmem, hentry.1, rfl⟩
    · exact fun _ => ⟨before, entry, after, rfl, hentry.1, hentry.2, rfl, hbefore⟩
    · exact fun h _ => absurd hentry.2 (h entry hmem hentry.1)
  | none =>
    have hnever : ∀ entry ∈ entries, entry.isCandidate number partition → ¬entry.isPartial := by
      simpa using hpartial
    have hno : ¬∃ entry ∈ entries, entry.isCandidate number partition ∧ entry.isPartial := by
      rintro ⟨entry, hmem, hcandidate, hentry⟩
      exact hnever entry hmem hcandidate hentry
    cases hfirst : entries.find? (Dirent.isCandidate number partition) with
    | some entry =>
      obtain ⟨hentry, before, after, rfl, hbefore⟩ := List.find?_eq_some_iff_append.mp hfirst
      have hmem : entry ∈ before ++ entry :: after :=
        List.mem_append_right before List.mem_cons_self
      constructor
      · exact ⟨fun h => absurd h join_ne_nil, fun h => absurd hentry (h entry hmem)⟩
      · exact fun _ => ⟨entry, hmem, hentry, rfl⟩
      · exact fun h => absurd h hno
      · exact fun _ _ => ⟨before, entry, after, rfl, hentry, rfl, by simpa using hbefore⟩
    | none =>
      constructor
      · exact ⟨fun _ => List.find?_eq_none.mp hfirst, fun _ => rfl⟩
      · exact fun h => absurd rfl h
      · exact fun h => absurd h hno
      · exact fun _ h => absurd rfl h

private theorem suffix_findPartitionBy (entries : List Dirent) :
    partialPostfix <:+ findPartitionBy number path partition entries ↔
      ∃ entry ∈ entries, entry.isCandidate number partition ∧ entry.isPartial := by
  have hpicks : Picks number path partition entries _ := findPartitionBy_picks entries
  constructor
  · intro h
    have hfound : findPartitionBy number path partition entries ≠ [] := by
      intro hnil
      rw [hnil, List.suffix_nil] at h
      exact List.cons_ne_nil _ _ h
    obtain ⟨entry, hmem, hcandidate, hjoin⟩ := hpicks.candidate hfound
    rw [hjoin] at h
    exact ⟨entry, hmem, hcandidate, (suffix_join path).mp h⟩
  · intro h
    obtain ⟨before, entry, after, -, -, hentry, hjoin, -⟩ := hpicks.firstPartial h
    rw [hjoin]
    exact (suffix_join path).mpr hentry

/-- `findPartitionIn` picks by the rule, whatever overflowing numbers are taken for. In whatever
order the directory is listed, the result is a `.partial` file or it is not. -/
theorem findPartitionIn_picks (number : NumberFromName) (path : List UInt8) (partition : Int)
    (entries : List Dirent) :
    Picks number path partition entries (findPartitionBy number path partition entries) ∧
    (∀ found, findPartitionIn path entries partition = some found →
      findPartitionBy number path partition entries = found) ∧
    ∀ listing, listing.Perm entries →
      (partialPostfix <:+ findPartitionBy number path partition listing ↔
        partialPostfix <:+ findPartitionBy number path partition entries) := by
  refine ⟨findPartitionBy_picks entries, fun _ h => findPartitionBy_eq number path partition h, ?_⟩
  intro listing hperm
  simp only [suffix_findPartitionBy, hperm.mem_iff]

end HardwareContext

end Dyplo
