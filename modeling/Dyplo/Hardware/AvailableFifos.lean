import Mathlib.Data.Nat.Digits.Defs
import Mathlib.Data.Nat.Find
import Dyplo.Image.Reader

/-!
# The first available fifo

A context looks for a fifo that can be opened among the device nodes that its prefix names. How
many of them there are is counted by the names of the default prefix.
-/

namespace Dyplo

def enoent : Nat := 2

def eacces : Nat := 13

def ebusy : Nat := 16

def enodev : Nat := 19

def oRdonly : Nat := 0

def oWronly : Nat := 1

def oAccmode : Nat := 3

/-- The device nodes that exist, and whether a node gives a handle or an error number when it is
opened. -/
structure DeviceNodes where
  present : String → Bool
  outcome : String → Nat → Except Nat Nat

namespace DeviceNodes

variable (nodes : DeviceNodes)

/-- `::open` -/
def openNode (name : String) (access : Nat) : Except Nat Nat :=
  if nodes.present name then nodes.outcome name access else .error enoent

/-- The loop of `count_numbered_files`; `pattern` goes without its `%d`. There is no result where
the assertion fails or the count leaves `int`. -/
def countFrom (pattern : String) (result : Nat) : Option Nat :=
  if (pattern ++ toString result).length < 64 then
    if nodes.present (pattern ++ toString result) then
      if result + 1 < 2 ^ 31 then countFrom pattern (result + 1) else none
    else some result
  else none
  termination_by 2 ^ 31 - result

def countNumberedFiles (pattern : String) : Option Nat := nodes.countFrom pattern 0

def getDyploCpuFifoCountR : Option Nat := nodes.countNumberedFiles "/dev/dyplor"

def getDyploCpuFifoCountW : Option Nat := nodes.countNumberedFiles "/dev/dyplow"

end DeviceNodes

def throwErrno {α : Type} (errno : Nat) : Except Stop α :=
  .error (.throws (.ioException ⟨errno, ""⟩))

/-- `bitstream_basepath` plays no part here. -/
structure HardwareContext where
  driverPrefix : String

namespace HardwareContext

variable (context : HardwareContext) (nodes : DeviceNodes)

/-- The context of the default constructor. -/
def new : HardwareContext := ⟨"/dev/dyplo"⟩

/-- The handle, or else `errno`. -/
def openFifo (fifo access : Nat) : Except Stop (Except Nat Nat) :=
  if access &&& oAccmode = oRdonly then
    .ok (nodes.openNode (context.driverPrefix ++ "r" ++ toString fifo) access)
  else if access &&& oAccmode = oWronly then
    .ok (nodes.openNode (context.driverPrefix ++ "w" ++ toString fifo) access)
  else throwErrno eacces

/-- The loop for `count` more fifos from this one on. -/
def openFirst (access : Nat) : Nat → Nat → Except Stop Nat
  | 0, _ => throwErrno enodev
  | count + 1, fifoIndex => do
      match ← context.openFifo nodes fifoIndex access with
      | .ok fileDesc => return fileDesc
      | .error errno =>
          if errno ≠ ebusy then throwErrno errno else openFirst access count (fifoIndex + 1)

/-- What the two searches share: the number of fifos and how they are opened. -/
def openAvailable (numberOfCpuFifos : Option Nat) (access : Nat) : Except Stop Nat :=
  match numberOfCpuFifos with
  | none => .error .undefined
  | some count => context.openFirst nodes access count 0

def openAvailableWriteFifo : Except Stop Nat :=
  context.openAvailable nodes nodes.getDyploCpuFifoCountW oWronly

def openAvailableReadFifo : Except Stop Nat :=
  context.openAvailable nodes nodes.getDyploCpuFifoCountR oRdonly

end HardwareContext

/-- Of `m` fifos the first one that is not busy decides: its handle is returned or its error thrown,
and `ENODEV` is for the case that there is none. -/
structure Searches (opens : Nat → Except Nat Nat) (m : Nat) (result : Except Stop Nat) : Prop where
  handle : ∀ i < m, ∀ fileDesc, opens i = .ok fileDesc → (∀ j < i, opens j = .error ebusy) →
    result = .ok fileDesc
  error : ∀ i < m, ∀ errno, opens i = .error errno → errno ≠ ebusy →
    (∀ j < i, opens j = .error ebusy) → result = throwErrno errno
  noDevice : result = throwErrno enodev ↔ ∀ i < m, opens i = .error ebusy

/-- A count of fifos that gives what a search among `m` of them gives. -/
def CountServes (opens : Nat → Except Nat Nat) (m count : Nat) : Prop :=
  (∀ i < m, opens i = .error ebusy) ∧ count ≤ m ∨
    ∃ k < m, k < count ∧ (∀ j < k, opens j = .error ebusy) ∧ opens k ≠ .error ebusy ∧
      opens k ≠ .error enodev

/-- The nodes that start with this name are numbered from 0 to below `m`. -/
def DeviceNodes.Numbered (nodes : DeviceNodes) (base : String) (m : Nat) : Prop :=
  ∀ i, nodes.present (base ++ toString i) = true ↔ i < m

/-- Exactly the first `count` numbers have a node, as far as the next one. -/
structure DeviceNodes.Leading (nodes : DeviceNodes) (base : String) (count : Nat) : Prop where
  present : ∀ i < count, nodes.present (base ++ toString i) = true
  absent : nodes.present (base ++ toString count) = false
  isInt : count < 2 ^ 31

private theorem path_inj {base : String} {i j : Nat} :
    base ++ toString i = base ++ toString j ↔ i = j := by
  refine ⟨fun h => ?_, fun h => by rw [h]⟩
  have hdigits : Nat.toDigits 10 i = Nat.toDigits 10 j := by
    have hlist := congrArg String.toList h
    simpa [Nat.repr] using hlist
  rw [← Nat.ofDigitChars_ten_toDigits (n := i), hdigits, Nat.ofDigitChars_ten_toDigits]

namespace DeviceNodes

variable {nodes : DeviceNodes} {pattern : String}

private theorem filename_length (hpattern : pattern.length ≤ 53) {result : Nat}
    (hresult : result < 2 ^ 31) : (pattern ++ toString result).length < 64 := by
  have hdigits : (toString result).length ≤ 10 := Nat.repr_length result 10 (by decide) (by omega)
  rw [String.length_append]
  omega

private theorem countFrom_eq_some_iff (hpattern : pattern.length ≤ 53) {result : Nat}
    (hresult : result < 2 ^ 31) (count : Nat) :
    nodes.countFrom pattern result = some count ↔
      result ≤ count ∧
        (∀ i, result ≤ i → i < count → nodes.present (pattern ++ toString i) = true) ∧
        nodes.present (pattern ++ toString count) = false ∧ count < 2 ^ 31 := by
  fun_induction countFrom nodes pattern result with
  | case1 result hlength hpresent hmore ih =>
    rw [ih hmore]
    constructor
    · rintro ⟨hle, hall, habsent⟩
      refine ⟨by omega, ?_, habsent⟩
      intro i hi hlt
      rcases Nat.eq_or_lt_of_le hi with rfl | hi
      · exact hpresent
      · exact hall i hi hlt
    · rintro ⟨hle, hall, habsent, hlt⟩
      have hne : result ≠ count := by
        rintro rfl
        rw [habsent] at hpresent
        cases hpresent
      exact ⟨by omega, fun i hi => hall i (by omega), habsent, hlt⟩
  | case2 result hlength hpresent hmore =>
    constructor
    · intro h
      cases h
    · rintro ⟨hle, -, habsent, hlt⟩
      obtain rfl : result = count := by omega
      rw [habsent] at hpresent
      cases hpresent
  | case3 result hlength habsent =>
    constructor
    · intro h
      obtain rfl := Option.some.inj h
      exact ⟨le_rfl, fun i hi hlt => absurd hi (by omega), by simpa using habsent, hresult⟩
    · rintro ⟨hle, hall, -⟩
      rcases Nat.eq_or_lt_of_le hle with rfl | hlt
      · rfl
      · exact absurd (hall result le_rfl hlt) habsent
  | case4 result hlength => exact absurd (filename_length hpattern hresult) hlength

private theorem countNumberedFiles_eq_some_iff (hpattern : pattern.length ≤ 53) (count : Nat) :
    nodes.countNumberedFiles pattern = some count ↔ nodes.Leading pattern count := by
  rw [countNumberedFiles, countFrom_eq_some_iff hpattern (by decide)]
  constructor
  · rintro ⟨-, hall, habsent, hlt⟩
    exact ⟨fun i hi => hall i (Nat.zero_le i) hi, habsent, hlt⟩
  · intro h
    exact ⟨Nat.zero_le count, fun i _ hi => h.present i hi, h.absent, h.isInt⟩

private theorem Numbered.openNode_eq {base : String} {m : Nat} (h : nodes.Numbered base m)
    (access : Nat) :
    nodes.openNode (base ++ toString m) access = .error enoent := by
  have habsent : ¬ nodes.present (base ++ toString m) = true := by
    rw [h m]
    exact Nat.lt_irrefl m
  rw [openNode, if_neg habsent]

private theorem Numbered.leading {base : String} {m : Nat} (h : nodes.Numbered base m)
    (hm : m < 2 ^ 31) :
    nodes.Leading base m where
  present i hi := (h i).mpr hi
  absent := by
    have habsent := (h m).not.mpr (Nat.lt_irrefl m)
    simpa using habsent
  isInt := hm

end DeviceNodes

section Search

variable {context : HardwareContext} {nodes : DeviceNodes} {access : Nat}
  {opens : Nat → Except Nat Nat}

/-- What becomes of a fifo that is not busy. -/
def openResult : Except Nat Nat → Except Stop Nat
  | .ok fileDesc => .ok fileDesc
  | .error errno => throwErrno errno

private theorem openResult_eq_throwErrno_iff {r : Except Nat Nat} {errno : Nat} :
    openResult r = throwErrno errno ↔ r = .error errno := by
  cases r with
  | ok fileDesc => simp [openResult, throwErrno]
  | error errno' => simp [openResult, throwErrno]

private theorem first_unique {i k : Nat} (hbusy : ∀ j < i, opens j = .error ebusy)
    (hfirst : opens i ≠ .error ebusy) (hbusy' : ∀ j < k, opens j = .error ebusy)
    (hfirst' : opens k ≠ .error ebusy) : i = k := by
  rcases Nat.lt_trichotomy i k with hlt | rfl | hlt
  · exact absurd (hbusy' i hlt) hfirst
  · rfl
  · exact absurd (hbusy k hlt) hfirst'

private theorem openFirst_of_busy (hopens : ∀ i, context.openFifo nodes i access = .ok (opens i))
    {count fifoIndex : Nat}
    (hbusy : ∀ j, fifoIndex ≤ j → j < fifoIndex + count → opens j = .error ebusy) :
    context.openFirst nodes access count fifoIndex = throwErrno enodev := by
  induction count generalizing fifoIndex with
  | zero => rfl
  | succ count ih =>
    have hhere := hbusy fifoIndex le_rfl (by omega)
    rw [HardwareContext.openFirst, hopens, hhere]
    exact ih fun j hj hlt => hbusy j (by omega) (by omega)

private theorem openFirst_of_first (hopens : ∀ i, context.openFifo nodes i access = .ok (opens i))
    {count fifoIndex k : Nat} (hfrom : fifoIndex ≤ k) (hk : k < fifoIndex + count)
    (hbusy : ∀ j, fifoIndex ≤ j → j < k → opens j = .error ebusy)
    (hfirst : opens k ≠ .error ebusy) :
    context.openFirst nodes access count fifoIndex = openResult (opens k) := by
  induction count generalizing fifoIndex with
  | zero => omega
  | succ count ih =>
    rw [HardwareContext.openFirst, hopens]
    rcases Nat.eq_or_lt_of_le hfrom with rfl | hlt
    · cases hresult : opens fifoIndex with
      | ok fileDesc => rfl
      | error errno =>
        have hne : errno ≠ ebusy := by
          rintro rfl
          exact hfirst hresult
        change (if errno ≠ ebusy then throwErrno errno else _) = throwErrno errno
        rw [if_pos hne]
    · rw [hbusy fifoIndex le_rfl hlt]
      exact ih hlt (by omega) fun j hj => hbusy j (by omega)

variable {m : Nat}

private theorem exists_first (hend : opens m = .error enoent) :
    ∃ k ≤ m, (∀ j < k, opens j = .error ebusy) ∧ opens k ≠ .error ebusy := by
  classical
  have hex : ∃ k, opens k ≠ .error ebusy := by
    refine ⟨m, ?_⟩
    rw [hend]
    decide
  refine ⟨Nat.find hex, Nat.find_min' hex ?_, ?_, Nat.find_spec hex⟩
  · rw [hend]
    decide
  · intro j hj
    exact not_not.mp (Nat.find_min hex hj)

/-- What a search has to give where fifo `k` is the first one that is not busy. -/
theorem Searches.iff_of_first {result : Except Stop Nat} {k : Nat} (hk : k ≤ m)
    (hbusy : ∀ j < k, opens j = .error ebusy) (hfirst : opens k ≠ .error ebusy) :
    Searches opens m result ↔
      if k = m then result = throwErrno enodev
      else result = openResult (opens k) ∧ opens k ≠ .error enodev := by
  split_ifs with heq
  · subst heq
    constructor
    · intro h
      exact h.noDevice.mpr hbusy
    · intro h
      refine ⟨?_, ?_, iff_of_true h hbusy⟩
      · intro i hi fileDesc hopen hbusy'
        rw [hbusy i hi] at hopen
        cases hopen
      · intro i hi errno hopen hne hbusy'
        rw [hbusy i hi] at hopen
        cases hopen
        exact absurd rfl hne
  · have hlt : k < m := Nat.lt_of_le_of_ne hk heq
    have hnotAll : ¬ ∀ i < m, opens i = .error ebusy := fun h => hfirst (h k hlt)
    constructor
    · intro h
      have hresult : result = openResult (opens k) := by
        cases hopen : opens k with
        | ok fileDesc => exact h.handle k hlt fileDesc hopen hbusy
        | error errno =>
          apply h.error k hlt errno hopen _ hbusy
          rintro rfl
          exact hfirst hopen
      refine ⟨hresult, ?_⟩
      intro hopen
      rw [hopen] at hresult
      exact hnotAll (h.noDevice.mp hresult)
    · rintro ⟨hresult, hne⟩
      refine ⟨?_, ?_, ?_⟩
      · intro i hi fileDesc hopen hbusy'
        obtain rfl := first_unique hbusy' (by rw [hopen]; simp) hbusy hfirst
        rw [hresult, hopen]
        rfl
      · intro i hi errno hopen herrno hbusy'
        obtain rfl := first_unique hbusy' (by rw [hopen]; simpa using herrno) hbusy hfirst
        rw [hresult, hopen]
        rfl
      · refine iff_of_false ?_ hnotAll
        intro hnoDevice
        rw [hresult] at hnoDevice
        exact hne (openResult_eq_throwErrno_iff.mp hnoDevice)

private theorem countServes_iff_of_first {count k : Nat} (hk : k ≤ m)
    (hbusy : ∀ j < k, opens j = .error ebusy) (hfirst : opens k ≠ .error ebusy) :
    CountServes opens m count ↔
      if k = m then count ≤ m else k < count ∧ opens k ≠ .error enodev := by
  constructor
  · rintro (⟨hall, hcount⟩ | ⟨i, hi, hcount, hbusy', hfirst', hne⟩)
    · have hend : ¬ k < m := fun hlt => hfirst (hall k hlt)
      rwa [if_pos (by omega)]
    · obtain rfl := first_unique hbusy' hfirst' hbusy hfirst
      rw [if_neg (by omega)]
      exact ⟨hcount, hne⟩
  · intro h
    split_ifs at h with heq
    · subst heq
      exact .inl ⟨hbusy, h⟩
    · exact .inr ⟨k, by omega, h.1, hbusy, hfirst, h.2⟩

private theorem countServes_self_iff (hend : opens m = .error enoent) :
    CountServes opens m m ↔
      ∀ i < m, (∀ j < i, opens j = .error ebusy) → opens i ≠ .error enodev := by
  obtain ⟨k, hk, hbusy, hfirst⟩ := exists_first hend
  have hbusy_ne : ∀ i < k, opens i ≠ .error enodev := by
    intro i hi
    rw [hbusy i hi]
    decide
  rw [countServes_iff_of_first hk hbusy hfirst]
  split_ifs with heq
  · exact iff_of_true le_rfl fun i hi _ => hbusy_ne i (by omega)
  · have hlt : k < m := by omega
    constructor
    · rintro ⟨-, hne⟩ i hi hbusy'
      rcases Nat.lt_trichotomy i k with hik | rfl | hki
      · exact hbusy_ne i hik
      · exact hne
      · exact absurd (hbusy' k hki) hfirst
    · intro h
      exact ⟨hlt, h k hlt hbusy⟩

private theorem searches_openFirst_iff
    (hopens : ∀ i, context.openFifo nodes i access = .ok (opens i))
    (hend : opens m = .error enoent) (count : Nat) :
    Searches opens m (context.openFirst nodes access count 0) ↔ CountServes opens m count := by
  obtain ⟨k, hk, hbusy, hfirst⟩ := exists_first hend
  rw [Searches.iff_of_first hk hbusy hfirst, countServes_iff_of_first hk hbusy hfirst]
  rcases Nat.lt_or_ge k count with hlt | hge
  · rw [openFirst_of_first hopens (Nat.zero_le k) (by omega) (fun j _ => hbusy j) hfirst]
    split_ifs with heq
    · subst heq
      rw [openResult_eq_throwErrno_iff, hend]
      exact iff_of_false (by decide) (by omega)
    · simp [hlt]
  · rw [openFirst_of_busy hopens fun j _ hj => hbusy j (by omega)]
    split_ifs with heq
    · exact iff_of_true rfl (by omega)
    · refine iff_of_false ?_ (by omega)
      rintro ⟨hresult, hne⟩
      exact hne (openResult_eq_throwErrno_iff.mp hresult.symm)

private theorem searches_openAvailable_iff
    (hopens : ∀ i, context.openFifo nodes i access = .ok (opens i))
    (hend : opens m = .error enoent) (numberOfCpuFifos : Option Nat) :
    Searches opens m (context.openAvailable nodes numberOfCpuFifos access) ↔
      ∃ count, numberOfCpuFifos = some count ∧ CountServes opens m count := by
  cases numberOfCpuFifos with
  | some count =>
    rw [HardwareContext.openAvailable, searches_openFirst_iff hopens hend]
    simp
  | none =>
    obtain ⟨k, hk, hbusy, hfirst⟩ := exists_first hend
    rw [Searches.iff_of_first hk hbusy hfirst]
    refine iff_of_false ?_ (by simp)
    split_ifs with heq
    · rintro ⟨⟩
    · rintro ⟨hresult, -⟩
      cases hopen : opens k with
      | ok fileDesc =>
        rw [hopen] at hresult
        cases hresult
      | error errno =>
        rw [hopen] at hresult
        cases hresult

end Search

namespace HardwareContext

variable (context : HardwareContext) (nodes : DeviceNodes)

/-- How the nodes of the context open for writing. -/
def opensForWriting (i : Nat) : Except Nat Nat :=
  nodes.openNode (context.driverPrefix ++ "w" ++ toString i) oWronly

/-- How the nodes of the context open for reading. -/
def opensForReading (i : Nat) : Except Nat Nat :=
  nodes.openNode (context.driverPrefix ++ "r" ++ toString i) oRdonly

private theorem searches_numbered_iff {base pattern : String} {access m : Nat}
    {opens : Nat → Except Nat Nat}
    (h : nodes.Numbered base m) (hopens : ∀ i, opens i = nodes.openNode (base ++ toString i) access)
    (hopenFifo : ∀ i, context.openFifo nodes i access = .ok (opens i))
    (hpattern : pattern.length ≤ 53) :
    Searches opens m (context.openAvailable nodes (nodes.countNumberedFiles pattern) access) ↔
      ∃ count, nodes.Leading pattern count ∧ CountServes opens m count := by
  have hend : opens m = .error enoent := (hopens m).trans (h.openNode_eq access)
  rw [searches_openAvailable_iff hopenFifo hend]
  simp only [DeviceNodes.countNumberedFiles_eq_some_iff hpattern]

/-- Both searches find the first available fifo of their context exactly when the number of nodes
with the default prefix serves the context as well. -/
theorem openAvailable_searches_iff {context : HardwareContext} {nodes : DeviceNodes} {mw mr : Nat}
    (hw : nodes.Numbered (context.driverPrefix ++ "w") mw)
    (hr : nodes.Numbered (context.driverPrefix ++ "r") mr) :
    (Searches (context.opensForWriting nodes) mw (context.openAvailableWriteFifo nodes) ↔
      ∃ count, nodes.Leading "/dev/dyplow" count ∧
        CountServes (context.opensForWriting nodes) mw count) ∧
    (Searches (context.opensForReading nodes) mr (context.openAvailableReadFifo nodes) ↔
      ∃ count, nodes.Leading "/dev/dyplor" count ∧
        CountServes (context.opensForReading nodes) mr count) := by
  constructor
  · exact searches_numbered_iff context nodes hw (fun _ => rfl) (fun _ => rfl) (by decide)
  · exact searches_numbered_iff context nodes hr (fun _ => rfl) (fun _ => rfl) (by decide)

/-- With the default prefix the nodes are counted that are opened. -/
theorem new_searches_iff {nodes : DeviceNodes} {m : Nat} (h : nodes.Numbered "/dev/dyplow" m)
    (hm : m < 2 ^ 31) :
    Searches (new.opensForWriting nodes) m (new.openAvailableWriteFifo nodes) ↔
      ∀ k < m, (∀ j < k, new.opensForWriting nodes j = .error ebusy) →
        new.opensForWriting nodes k ≠ .error enodev := by
  have hopens : ∀ i, new.openFifo nodes i oWronly = .ok (new.opensForWriting nodes i) :=
    fun _ => rfl
  have hend : new.opensForWriting nodes m = .error enoent := h.openNode_eq oWronly
  have hcount : nodes.getDyploCpuFifoCountW = some m :=
    (DeviceNodes.countNumberedFiles_eq_some_iff (by decide) m).mpr (h.leading hm)
  rw [openAvailableWriteFifo, hcount, ← countServes_self_iff hend]
  exact searches_openFirst_iff hopens hend m

/-- A free node of another prefix, which has no fifo with the default prefix beside it. -/
def otherNodes : DeviceNodes where
  present name := name == "/dev/otherw0"
  outcome _ _ := .ok 3

private theorem otherNodes_numbered : otherNodes.Numbered "/dev/otherw" 1 := by
  intro i
  have hpath : "/dev/otherw0" = "/dev/otherw" ++ toString 0 := by decide
  rw [otherNodes, hpath, beq_iff_eq, path_inj]
  omega

private theorem otherNodes_numbered_read : otherNodes.Numbered "/dev/otherr" 0 := by
  intro i
  have hother : "/dev/otherr" ++ toString i ≠ "/dev/otherw0" := by
    intro h
    have hlist := congrArg (fun name => name.toList[10]?) h
    simp at hlist
  rw [otherNodes, beq_iff_eq]
  exact iff_of_false hother (Nat.not_lt_zero i)

private theorem otherNodes_leading : otherNodes.Leading "/dev/dyplow" 0 :=
  ⟨fun i hi => absurd hi (Nat.not_lt_zero i), by decide, by decide⟩

theorem openAvailable_searches_iff_otherNodes :
    (Searches (opensForWriting ⟨"/dev/other"⟩ otherNodes) 1
        (openAvailableWriteFifo ⟨"/dev/other"⟩ otherNodes) ↔
      ∃ count, otherNodes.Leading "/dev/dyplow" count ∧
        CountServes (opensForWriting ⟨"/dev/other"⟩ otherNodes) 1 count) ∧
    (Searches (opensForReading ⟨"/dev/other"⟩ otherNodes) 0
        (openAvailableReadFifo ⟨"/dev/other"⟩ otherNodes) ↔
      ∃ count, otherNodes.Leading "/dev/dyplor" count ∧
        CountServes (opensForReading ⟨"/dev/other"⟩ otherNodes) 0 count) :=
  openAvailable_searches_iff otherNodes_numbered otherNodes_numbered_read

/-- The free node is not found. -/
theorem otherNodes_not_searches :
    otherNodes.Numbered "/dev/otherw" 1 ∧
      ¬ Searches (opensForWriting ⟨"/dev/other"⟩ otherNodes) 1
        (openAvailableWriteFifo ⟨"/dev/other"⟩ otherNodes) := by
  refine ⟨otherNodes_numbered, ?_⟩
  intro h
  have hcount : otherNodes.getDyploCpuFifoCountW = some 0 :=
    (DeviceNodes.countNumberedFiles_eq_some_iff (by decide) 0).mpr otherNodes_leading
  have hfree := h.handle 0 Nat.one_pos 3 (by decide) fun j hj => absurd hj (Nat.not_lt_zero j)
  rw [openAvailableWriteFifo, hcount] at hfree
  cases hfree

end HardwareContext

end Dyplo
