import Dyplo.Image.Reader

/-!
# `read_all` on any descriptor

`read_all` calls `read(2)` until it has `count` bytes. A `read` that fails behind others that
have succeeded is reported in the same way as the end of the file: by what has been read.
-/

namespace Dyplo

/-- What a call of `read(2)` reports: a positive count, 0 or -1. -/
inductive ReadReport
  | data (chunk : List UInt8)
  | endOfFile
  | error (errno : Nat)
  deriving DecidableEq

namespace ReadReport

def chunk : ReadReport → List UInt8
  | data chunk => chunk
  | endOfFile => []
  | error _ => []

end ReadReport

/-- A descriptor, by the outcomes of the calls of `read(2)` on it, which are numbered. -/
structure Descriptor where
  read (call request : Nat) : ReadReport
  positive : ∀ {call request chunk}, read call request = .data chunk → chunk ≠ []
  bounded : ∀ {call request chunk}, read call request = .data chunk → chunk.length ≤ request

namespace Descriptor

variable (fd : Descriptor)

/-- The loop of `read_all` from the `call`-th `read` on, with `bytes` read so far: what it
returns or throws, and what the calls of `read` have reported. -/
def readAllFrom (call count : Nat) (bytes : List UInt8) :
    Except IOException (List UInt8) × List ReadReport :=
  match _hread : fd.read call count with
  | .endOfFile => (.ok bytes, [.endOfFile])
  | .error errno =>
      (if bytes.length ≠ 0 then .ok bytes else .error ⟨errno, ""⟩, [.error errno])
  | .data chunk =>
      if count - chunk.length = 0 then (.ok (bytes ++ chunk), [.data chunk])
      else
        let rest := readAllFrom (call + 1) (count - chunk.length) (bytes ++ chunk)
        (rest.1, .data chunk :: rest.2)
  termination_by count
  decreasing_by
    have hpos := List.length_pos_of_ne_nil (fd.positive _hread)
    have hle := fd.bounded _hread
    omega

/-- `read_all`, whose first `read` is the `call`-th of the descriptor. -/
def readAll (call count : Nat) : Except IOException (List UInt8) × List ReadReport :=
  fd.readAllFrom call count []

/-- `k` calls of `read` in a row, each for what is still missing of `count` bytes, have been
successful and have given `bytes`. -/
inductive Receives (call count : Nat) : Nat → List UInt8 → Prop
  | start : Receives call count 0 []
  | more {k : Nat} {bytes chunk : List UInt8} (hreceives : Receives call count k bytes)
      (hmissing : bytes.length < count)
      (hread : fd.read (call + k) (count - bytes.length) = .data chunk) :
      Receives call count (k + 1) (bytes ++ chunk)

/-- A `read` fails between the first byte and the last one of `count` bytes. -/
def FailsPartway (call count : Nat) : Prop :=
  ∃ k bytes errno, fd.Receives call count k bytes ∧ bytes ≠ [] ∧ bytes.length < count ∧
    fd.read (call + k) (count - bytes.length) = .error errno

/-- A short result means the end of the file: `read_all` ends, what it returns is what has been
read, no more than `count` bytes, and fewer only if `read` has reported the end of the file.
Every error is thrown. -/
structure ShortMeansEnd (call count : Nat) : Prop where
  terminates : (fd.readAll call count).2.length ≤ count
  concatenates : ∀ {bytes}, (fd.readAll call count).1 = .ok bytes →
    bytes = (fd.readAll call count).2.flatMap ReadReport.chunk
  bounded : ∀ {bytes}, (fd.readAll call count).1 = .ok bytes → bytes.length ≤ count
  short : ∀ {bytes}, (fd.readAll call count).1 = .ok bytes → bytes.length < count →
    .endOfFile ∈ (fd.readAll call count).2
  raised : ∀ {errno}, .error errno ∈ (fd.readAll call count).2 →
    (fd.readAll call count).1 = .error ⟨errno, ""⟩

variable {fd} {call count : Nat}

private theorem Receives.le_length {k : Nat} {bytes : List UInt8}
    (h : fd.Receives call count k bytes) : k ≤ bytes.length := by
  induction h with
  | start => exact Nat.zero_le _
  | more hreceives hmissing hread ih =>
    have hpos := List.length_pos_of_ne_nil (fd.positive hread)
    rw [List.length_append]
    omega

section Steps

variable {bytes : List UInt8}

private theorem readAllFrom_endOfFile (hread : fd.read call count = .endOfFile) :
    fd.readAllFrom call count bytes = (.ok bytes, [.endOfFile]) := by
  rw [readAllFrom]
  split <;> simp_all

private theorem readAllFrom_error {errno : Nat} (hread : fd.read call count = .error errno) :
    fd.readAllFrom call count bytes =
      (if bytes.length ≠ 0 then .ok bytes else .error ⟨errno, ""⟩, [.error errno]) := by
  rw [readAllFrom]
  split <;> simp_all

private theorem readAllFrom_data {chunk : List UInt8} (hread : fd.read call count = .data chunk) :
    fd.readAllFrom call count bytes =
      if count - chunk.length = 0 then (.ok (bytes ++ chunk), [.data chunk])
      else
        let rest := fd.readAllFrom (call + 1) (count - chunk.length) (bytes ++ chunk)
        (rest.1, .data chunk :: rest.2) := by
  rw [readAllFrom]
  split <;> simp_all

end Steps

/-- What `k` successful calls have reported. -/
structure Reported (k : Nat) (bytes : List UInt8) (outcomes : List ReadReport) : Prop where
  length_eq : outcomes.length = k
  chunks : outcomes.flatMap ReadReport.chunk = bytes
  noError : ∀ errno, .error errno ∉ outcomes

private theorem Reported.more {k : Nat} {bytes chunk : List UInt8} {outcomes : List ReadReport}
    (h : Reported k bytes outcomes) :
    Reported (k + 1) (bytes ++ chunk) (outcomes ++ [.data chunk]) where
  length_eq := by rw [List.length_append, h.length_eq, List.length_singleton]
  chunks := by rw [List.flatMap_append, h.chunks, List.flatMap_singleton, ReadReport.chunk]
  noError := by
    intro errno hmem
    rcases List.mem_append.mp hmem with hmem | hmem
    · exact h.noError errno hmem
    · cases List.mem_singleton.mp hmem

private theorem Receives.readAll_eq {k : Nat} {bytes : List UInt8}
    (h : fd.Receives call count k bytes) (hmissing : bytes.length < count) :
    ∃ before, Reported k bytes before ∧
      fd.readAll call count =
        ((fd.readAllFrom (call + k) (count - bytes.length) bytes).1,
          before ++ (fd.readAllFrom (call + k) (count - bytes.length) bytes).2) := by
  induction h with
  | start => exact ⟨[], ⟨rfl, rfl, fun _ => List.not_mem_nil⟩, rfl⟩
  | @more k bytes chunk hreceives hbefore hread ih =>
    obtain ⟨before, hreported, hrun⟩ := ih hbefore
    rw [List.length_append] at hmissing
    have hmore : count - bytes.length - chunk.length ≠ 0 := by omega
    rw [readAllFrom_data hread, if_neg hmore] at hrun
    refine ⟨before ++ [.data chunk], hreported.more, ?_⟩
    rw [hrun, List.length_append, ← Nat.sub_sub, ← Nat.add_assoc, List.append_assoc,
      List.singleton_append]

private theorem exists_last (fd : Descriptor) (call : Nat) {count : Nat} (hcount : 0 < count) :
    ∃ k bytes, fd.Receives call count k bytes ∧ bytes.length < count ∧
      ∀ chunk, fd.read (call + k) (count - bytes.length) = .data chunk →
        count - bytes.length - chunk.length = 0 := by
  by_contra hgoes
  push Not at hgoes
  -- otherwise there are more of them than bytes
  have hmany : ∀ n, ∃ bytes, fd.Receives call count n bytes ∧ bytes.length < count := by
    intro n
    induction n with
    | zero => exact ⟨[], .start, hcount⟩
    | succ n ih =>
      obtain ⟨bytes, hreceives, hmissing⟩ := ih
      obtain ⟨chunk, hread, hmore⟩ := hgoes n bytes hreceives hmissing
      refine ⟨bytes ++ chunk, hreceives.more hmissing hread, ?_⟩
      rw [List.length_append]
      omega
  obtain ⟨bytes, hreceives, hmissing⟩ := hmany count
  exact absurd hreceives.le_length (by omega)

/-- How `read_all` ends, behind the calls that were successful. -/
theorem readAll_cases (fd : Descriptor) (call : Nat) {count : Nat} (hcount : 0 < count) :
    ∃ k bytes before, fd.Receives call count k bytes ∧ Reported k bytes before ∧
      ((bytes.length = count ∧ fd.readAll call count = (.ok bytes, before)) ∨
        (bytes.length < count ∧ fd.readAll call count = (.ok bytes, before ++ [.endOfFile])) ∨
        ∃ errno, bytes.length < count ∧
          fd.read (call + k) (count - bytes.length) = .error errno ∧
          fd.readAll call count =
            (if bytes.length ≠ 0 then .ok bytes else .error ⟨errno, ""⟩,
              before ++ [.error errno])) := by
  obtain ⟨k, bytes, hreceives, hmissing, hlast⟩ := exists_last fd call hcount
  obtain ⟨before, hreported, hrun⟩ := hreceives.readAll_eq hmissing
  cases hread : fd.read (call + k) (count - bytes.length) with
  | endOfFile =>
    rw [readAllFrom_endOfFile hread] at hrun
    exact ⟨k, bytes, before, hreceives, hreported, .inr (.inl ⟨hmissing, hrun⟩)⟩
  | error errno =>
    rw [readAllFrom_error hread] at hrun
    exact ⟨k, bytes, before, hreceives, hreported, .inr (.inr ⟨errno, hmissing, hread, hrun⟩)⟩
  | data chunk =>
    have hall := hlast chunk hread
    have hbounded := fd.bounded hread
    rw [readAllFrom_data hread, if_pos hall] at hrun
    refine ⟨k + 1, bytes ++ chunk, before ++ [.data chunk], hreceives.more hmissing hread,
      hreported.more, .inl ⟨?_, hrun⟩⟩
    rw [List.length_append]
    omega

private theorem FailsPartway.readAll_eq (h : fd.FailsPartway call count) :
    ∃ bytes errno, bytes ≠ [] ∧ (fd.readAll call count).1 = .ok bytes ∧
      .error errno ∈ (fd.readAll call count).2 := by
  obtain ⟨k, bytes, errno, hreceives, hsome, hmissing, hread⟩ := h
  obtain ⟨before, -, hrun⟩ := hreceives.readAll_eq hmissing
  have hlength : bytes.length ≠ 0 := fun hzero => hsome (List.eq_nil_of_length_eq_zero hzero)
  rw [readAllFrom_error hread, if_pos hlength] at hrun
  rw [hrun]
  exact ⟨bytes, errno, hsome, rfl, List.mem_append_right before List.mem_cons_self⟩

private theorem FailsPartway.not_shortMeansEnd (h : fd.FailsPartway call count) :
    ¬fd.ShortMeansEnd call count := by
  obtain ⟨bytes, errno, -, hresult, herror⟩ := h.readAll_eq
  intro hshort
  rw [hshort.raised herror] at hresult
  cases hresult

private theorem shortMeansEnd_of_not_failsPartway (hcount : 0 < count)
    (h : ¬fd.FailsPartway call count) : fd.ShortMeansEnd call count := by
  obtain ⟨k, bytes, before, hreceives, ⟨hlength, hbytes, hnoError⟩, hend⟩ :=
    readAll_cases fd call hcount
  have hk := hreceives.le_length
  rcases hend with ⟨hfull, hrun⟩ | ⟨hmissing, hrun⟩ | ⟨errno, hmissing, hread, hrun⟩
  · constructor <;> simp only [hrun, Except.ok.injEq]
    · omega
    · rintro _ rfl
      exact hbytes.symm
    · rintro _ rfl
      exact hfull.le
    · rintro _ rfl hlt
      omega
    · exact fun hmem => absurd hmem (hnoError _)
  · constructor <;>
      simp only [hrun, Except.ok.injEq, List.length_append, List.length_singleton,
        List.flatMap_append, List.flatMap_singleton, List.mem_append, List.mem_singleton]
    · omega
    · rintro _ rfl
      rw [hbytes, ReadReport.chunk, List.append_nil]
    · rintro _ rfl
      exact hmissing.le
    · exact fun _ _ => Or.inr trivial
    · rintro _ (hmem | hmem)
      · exact absurd hmem (hnoError _)
      · cases hmem
  · -- nothing has been read before the error, so it is thrown
    have hnone : bytes = [] := by
      by_contra hsome
      exact h ⟨k, bytes, errno, hreceives, hsome, hmissing, hread⟩
    rw [hnone, List.length_nil, if_neg (not_not.mpr rfl)] at hrun
    constructor <;>
      simp only [hrun, reduceCtorEq, false_implies, implies_true, List.length_append,
        List.length_singleton, List.mem_append, List.mem_singleton, ReadReport.error.injEq]
    · omega
    · rintro _ (hmem | rfl)
      · exact absurd hmem (hnoError _)
      · rfl

variable (fd) in
/-- Where the raw loop of `processFile` calls `read_all`, by the number of the next `read`. It
ends with a call that returns nothing or throws. -/
inductive RawCall (first : Nat) : Nat → Prop
  | first : RawCall first first
  | next {call : Nat} {chunk : List UInt8} (hcall : RawCall first call)
      (hread : (fd.readAll call bufferSize).1 = .ok chunk) (hsome : chunk ≠ []) :
      RawCall first (call + (fd.readAll call bufferSize).2.length)

variable (fd) in
/-- The raw loop never takes what has been read in front of an error for a chunk. -/
def RawChunksWhole (first : Nat) : Prop :=
  ∀ {call chunk errno}, fd.RawCall first call → (fd.readAll call bufferSize).1 = .ok chunk →
    .error errno ∉ (fd.readAll call bufferSize).2

private theorem rawChunksWhole_iff {first : Nat} :
    fd.RawChunksWhole first ↔ ∀ call, fd.RawCall first call → ¬fd.FailsPartway call bufferSize := by
  constructor
  · intro hwhole call hcall hfails
    obtain ⟨bytes, errno, -, hresult, herror⟩ := hfails.readAll_eq
    exact hwhole hcall hresult herror
  · intro hnever call chunk errno hcall hresult herror
    have hshort := shortMeansEnd_of_not_failsPartway (by decide) (hnever call hcall)
    rw [hshort.raised herror] at hresult
    cases hresult

/-- A short result of `read_all` means the end of the file exactly when no `read` fails behind
a successful one, and so it is for the chunks of a raw image. -/
theorem shortMeansEnd_iff (fd : Descriptor) (call : Nat) {count : Nat} (hcount : 0 < count) :
    (fd.ShortMeansEnd call count ↔ ¬fd.FailsPartway call count) ∧
    (fd.RawChunksWhole call ↔
      ∀ later, fd.RawCall call later → ¬fd.FailsPartway later bufferSize) :=
  ⟨⟨fun hshort hfails => hfails.not_shortMeansEnd hshort,
    shortMeansEnd_of_not_failsPartway hcount⟩, rawChunksWhole_iff⟩

/-- One byte, and then a medium that fails with `EIO`. -/
def brokenMedium : Descriptor where
  read call request :=
    match call, request with
    | 0, _ + 1 => .data [255]
    | 0, 0 => .endOfFile
    | _ + 1, _ => .error 5
  positive := by
    intro call request chunk h
    split at h <;> cases h
    exact List.cons_ne_nil _ _
  bounded := by
    intro call request chunk h
    split at h <;> cases h
    exact Nat.le_add_left _ _

theorem shortMeansEnd_iff_brokenMedium :
    0 < 1 ∧ (brokenMedium.ShortMeansEnd 0 1 ↔ ¬brokenMedium.FailsPartway 0 1) :=
  ⟨Nat.one_pos, (shortMeansEnd_iff brokenMedium 0 Nat.one_pos).1⟩

/-- Two bytes are asked for, one is returned, and the error is not thrown. -/
theorem brokenMedium_not_shortMeansEnd :
    brokenMedium.readAll 0 2 = (.ok [255], [.data [255], .error 5]) ∧
    ¬brokenMedium.ShortMeansEnd 0 2 := by
  have hfails : brokenMedium.FailsPartway 0 2 :=
    ⟨1, [255], 5, Receives.start.more Nat.two_pos rfl, List.cons_ne_nil _ _, Nat.one_lt_two, rfl⟩
  refine ⟨?_, hfails.not_shortMeansEnd⟩
  have hfirst : brokenMedium.read 0 2 = .data [255] := rfl
  have hsecond : brokenMedium.read 1 1 = .error 5 := rfl
  rw [readAll, readAllFrom_data hfirst, if_neg (by decide)]
  change ((brokenMedium.readAllFrom 1 1 [255]).1, _ :: (brokenMedium.readAllFrom 1 1 [255]).2) = _
  rw [readAllFrom_error hsecond]
  rfl

end Descriptor

end Dyplo
