import Dyplo.Hardware.Programmer
import Dyplo.Image.Header
import Dyplo.Image.Invariance
import Dyplo.Library.TransitionSystem

/-!
# The static ID of a partial image

A partial image belongs to one static design. The ID it asks for is compared with the ID of the
logic before anything is transferred.
-/

namespace Dyplo

/-- A partial image for another static design than `id`. -/
inductive Mismatch (id : Nat) (content : List UInt8) : Prop
  | ofPartial : ¬ HasBitSignature content → ¬ StartsBin content → StartsPartial content →
      partialId content ≠ id → Mismatch id content
  | ofBit (item : TagItem) (userId : Nat) : HasBitSignature content → item ∈ bitItems content →
      item.staticID (firstBuffer content) = some userId → userId ≠ id → Mismatch id content

namespace HardwareProgrammer

variable {δ : Type} {driver : Driver δ} {id : Nat} {p q : HardwareProgrammer δ}

/-- A cached ID is the right one. -/
def Knows (id : Nat) (p : HardwareProgrammer δ) : Prop :=
  p.dyploUserIdValid = true → p.dyploUserId = id

theorem Knows.of_sameID (h : p.Knows id) (hpq : p.SameID q) : q.Knows id := by
  intro hvalid
  rw [hpq.2] at hvalid
  exact hpq.1.trans (h hvalid)

/-- How a check of the static ID refuses an image: by a mismatch, or for another reason. -/
def Refuses (mismatch : Prop) (e : Stop) : Prop :=
  e = .throws .staticPartialIDMismatch ∧ mismatch ∨
    ∃ x, e = .throws x ∧ x ≠ .staticPartialIDMismatch

private theorem Refuses.throws {mismatch : Prop} {e : Stop} (h : Refuses mismatch e) :
    ∃ x, e = .throws x := by
  rcases h with ⟨rfl, -⟩ | ⟨x, rfl, -⟩
  · exact ⟨_, rfl⟩
  · exact ⟨x, rfl⟩

theorem Refuses.mismatch {mismatch : Prop} {e : Stop} (h : Refuses mismatch e)
    (he : e = .throws .staticPartialIDMismatch) : mismatch := by
  rcases h with ⟨-, h⟩ | ⟨x, rfl, hx⟩
  · exact h
  · exact absurd (Stop.throws.inj he) hx

theorem verifyStaticID_spec (hdriver : driver.Reports id) (hp : p.Knows id) (userId : Nat) :
    wp (verifyStaticID driver userId) (fun _ t => userId = id ∧ t.Knows id)
      (fun e t => Refuses (userId ≠ id) e ∧ t.Knows id) p := by
  have hcompare : ∀ t : HardwareProgrammer δ, t.Knows id →
      wp (if id = userId then pure () else throw (.throws .staticPartialIDMismatch))
        (fun _ t => userId = id ∧ t.Knows id)
        (fun e t => Refuses (userId ≠ id) e ∧ t.Knows id) t := by
    intro t ht
    rw [wp_ite, wp_pure, wp_throw]
    split_ifs with heq
    · exact ⟨heq.symm, ht⟩
    · exact ⟨.inl ⟨rfl, Ne.symm heq⟩, ht⟩
  rw [verifyStaticID, wp_bind, getDyploStaticID, wp_bind, wp_get, wp_ite]
  split_ifs with hvalid
  · rw [wp_pure, hp hvalid]
    exact hcompare p hp
  · simp only [wp_bind, wp_onDevice, readDyploStaticID, wp_attempt, wp_modify, wp_pure]
    refine (hdriver p.device).mono ?_ ?_
    · rintro data d rfl
      exact hcompare _ fun _ => rfl
    · intro errno d _
      rw [wp_throwIOException]
      refine ⟨.inr ⟨_, rfl, ?_⟩, fun hvalid' => absurd hvalid' hvalid⟩
      intro heq
      cases heq

theorem verifyStaticID_refuses (userId : Nat) :
    wp (verifyStaticID driver userId) (fun _ _ => True)
      (fun e _ => e = .throws .staticPartialIDMismatch ∨ ¬ driver.Reliable) p := by
  rw [verifyStaticID, wp_bind]
  have hanswer : wp (getDyploStaticID driver) (fun _ _ => True) (fun _ _ => ¬ driver.Reliable)
      p := by
    rw [getDyploStaticID, wp_bind, wp_get, wp_ite]
    split_ifs
    · exact (wp_pure _).mpr trivial
    · simp only [wp_bind, wp_onDevice, readDyploStaticID, wp_attempt, wp_modify, wp_pure,
        wp_throwIOException]
      by_cases hreliable : driver.Reliable
      · exact (hreliable.staticID _).mono (fun _ _ _ => trivial) fun _ _ hf => hf.elim
      · exact wp_of_forall (fun _ _ => trivial) fun _ _ => hreliable
  refine hanswer.mono ?_ fun _ _ hunreliable => .inr hunreliable
  intro data t _
  rw [wp_ite, wp_pure, wp_throw]
  split_ifs
  exact .inl rfl

/-- Nothing has been transferred since the programmer was in the state `p`. -/
structure Untouched (id : Nat) (p : HardwareProgrammer δ)
    (t : ReaderState (HardwareProgrammer δ)) : Prop where
  no_endProcessData : ∀ bytes, .endProcessData bytes ∉ t.trace
  knows : t.callback.Knows id
  sameFifos : p.SameFifos t.callback

private theorem Untouched.emit {s : ReaderState (HardwareProgrammer δ)} (h : Untouched id p s)
    (event : ImageEvent) (hevent : event.delivery = none) :
    Untouched id p { s with trace := s.trace ++ [event] } where
  no_endProcessData := by
    intro bytes hbytes
    rcases List.mem_append.mp hbytes with hbytes | hbytes
    · exact h.no_endProcessData bytes hbytes
    · rw [← List.mem_singleton.mp hbytes] at hevent
      cases hevent
  knows := h.knows
  sameFifos := h.sameFifos

open FpgaImageReader

variable {s : ReaderState (HardwareProgrammer δ)}

private theorem reader_verifyStaticID_spec (hdriver : driver.Reports id) (hs : Untouched id p s)
    (userId : Nat) :
    wp (FpgaImageReader.verifyStaticID (callback driver) userId)
      (fun _ t => userId = id ∧ Untouched id p t)
      (fun e t => Refuses (userId ≠ id) e ∧ Untouched id p t) s := by
  have htrace : ∀ bytes, .endProcessData bytes ∉ s.trace ++ [.verifyStaticID userId] := by
    intro bytes hbytes
    rcases List.mem_append.mp hbytes with hbytes | hbytes
    · exact hs.no_endProcessData bytes hbytes
    · cases List.mem_singleton.mp hbytes
  rw [wp_verifyStaticID]
  refine ((verifyStaticID_spec hdriver hs.knows userId).and
    (verifyStaticID_frame userId _ hs.sameFifos)).mono ?_ ?_
  · rintro _ t ⟨⟨heq, hknows⟩, hfifos⟩
    exact ⟨heq, htrace, hknows, hfifos⟩
  · rintro e t ⟨⟨he, hknows⟩, -, hfifos⟩
    exact ⟨he, htrace, hknows, hfifos⟩

/-- Behind the tags every ID that an item asks for has been verified. -/
theorem tagLoop_verifies (hdriver : driver.Reports id) {buffer : List UInt8}
    (hbuffer : s.buffer = buffer) (hs : Untouched id p s) (bytes data : Nat) :
    wp (tagLoop (callback driver) bytes data)
      (fun _ t => (∀ item ∈ (scanTags buffer bytes data).1, ∀ userId,
        item.staticID buffer = some userId → userId = id) ∧ Untouched id p t)
      (fun e t => Refuses (∃ item ∈ (scanTags buffer bytes data).1, ∃ userId,
        item.staticID buffer = some userId ∧ userId ≠ id) e ∧ Untouched id p t) s := by
  rw [wp_tagLoop bytes data hbuffer]
  refine (wp_forM_forall (I := Untouched id p)
    (P := fun item => ∀ userId, item.staticID buffer = some userId → userId = id)
    ?_ hs).mono ?_ fun _ _ he => he
  · intro item hitem t ht
    rw [wp_processItem]
    have hemit := ht.emit (.processTag item.tag ((buffer.drop item.value).take item.size)) rfl
    cases hid : item.staticID buffer with
    | none => exact ⟨nofun, hemit⟩
    | some userId =>
      refine (reader_verifyStaticID_spec hdriver hemit userId).mono ?_ ?_
      · rintro _ u ⟨heq, hu⟩
        refine ⟨?_, hu⟩
        rintro _ hsome
        exact (Option.some.inj hsome).symm.trans heq
      · rintro e u ⟨⟨rfl, hne⟩ | he, hu⟩
        · exact ⟨.inl ⟨rfl, item, hitem, userId, hid, hne⟩, hu⟩
        · exact ⟨.inr he, hu⟩
  · rintro _ t ⟨hall, ht⟩
    cases (scanTags buffer bytes data).2 with
    | none => exact ⟨.inr ⟨_, rfl, nofun⟩, ht⟩
    | some d => exact ⟨hall, ht⟩

private theorem checkRaw_verifies (hdriver : driver.Reports id) {content : List UInt8}
    (hbuffer : s.buffer = firstBuffer content) (hs : Untouched id p s) :
    wp (checkRaw (callback driver))
      (fun _ t => (¬ StartsBin content → StartsPartial content → partialId content = id) ∧
        Untouched id p t)
      (fun e t => Refuses (¬ StartsBin content ∧ StartsPartial content ∧ partialId content ≠ id) e ∧
        Untouched id p t) s := by
  rw [checkRaw, wp_bind, wp_get, hbuffer, wp_ite, wp_ite, wp_pure, wp_throw,
    if_congr (isBin_iff content) rfl rfl, if_congr (isPartial_iff content) rfl rfl,
    parseU16_partialId]
  split_ifs with hbin hpart
  · exact ⟨fun h => absurd hbin h, hs⟩
  · refine (reader_verifyStaticID_spec hdriver hs _).mono ?_ ?_
    · rintro _ t ⟨heq, ht⟩
      exact ⟨fun _ _ => heq, ht⟩
    · rintro e t ⟨⟨rfl, hne⟩ | he, ht⟩
      · exact ⟨.inl ⟨rfl, hbin, hpart, hne⟩, ht⟩
      · exact ⟨.inr he, ht⟩
  · exact ⟨.inr ⟨_, rfl, nofun⟩, hs⟩

private theorem transfersKeep (driver : Driver δ) {I : HardwareProgrammer δ → Prop}
    (hI : ∀ p q, I p → p.SameID q → I q) :
    (callback driver).TransfersKeep I Stop.OfHardware where
  beginProcessData n p hp := (beginProcessData_frame n p ⟨rfl, rfl⟩).mono
    (fun _ _ ht => hI p _ hp ht) fun _ _ he => ⟨he.1, hI p _ hp he.2⟩
  endProcessData data n p hp := (endProcessData_frame data n p ⟨rfl, rfl⟩).mono
    (fun _ _ ht => hI p _ hp ht) fun _ _ he => ⟨he.1, hI p _ hp he.2⟩

theorem untouched_headerState (hp : p.Knows id) (content : List UInt8) :
    Untouched id p (headerState ⟨⟨content⟩, p, [], [], []⟩) where
  no_endProcessData _ hbytes := nomatch List.mem_singleton.mp hbytes
  knows := hp
  sameFifos := ⟨rfl, rfl, rfl⟩

theorem processFile_refuses (hdriver : driver.Reports id) (hp : p.Knows id) {content : List UInt8}
    (h : Mismatch id content) (fuel : Nat) :
    wp (processFile (callback driver) fuel) (fun _ _ => False)
      (fun e t => (∃ x, e = .throws x) ∧ Untouched id p t) ⟨⟨content⟩, p, [], [], []⟩ := by
  have hheader := untouched_headerState hp content
  rw [wp_processFile]
  split_ifs with hshort hbit
  · exact ⟨⟨_, rfl⟩, hheader⟩
  · rw [processBit, wp_bind]
    refine (tagLoop_verifies hdriver rfl hheader _ _).mono ?_ fun _ _ he => ⟨he.1.throws, he.2⟩
    rintro _ t ⟨hall, -⟩
    cases h with
    | ofPartial hraw => exact absurd hbit hraw
    | ofBit item userId _ hitem hid hne => exact absurd (hall item hitem userId hid) hne
  · rw [processRaw, wp_bind]
    refine (checkRaw_verifies hdriver rfl hheader).mono ?_ fun _ _ he => ⟨he.1.throws, he.2⟩
    rintro _ t ⟨heq, -⟩
    cases h with
    | ofPartial _ hbin hpart hne => exact absurd (heq hbin hpart) hne
    | ofBit _ _ hsignature => exact absurd hsignature hbit

/-- Nothing but a mismatch raises the exception for it. -/
theorem mismatch_of_processFile (hdriver : driver.Reports id) (hp : p.Knows id)
    (content : List UInt8) (fuel : Nat) :
    wp (processFile (callback driver) fuel) (fun _ _ => True)
      (fun e _ => e = .throws .staticPartialIDMismatch →
        64 ≤ content.length ∧ Mismatch id content) ⟨⟨content⟩, p, [], [], []⟩ := by
  have htransfers : (callback driver).TransfersKeep (fun _ => True)
      (· ≠ .throws .staticPartialIDMismatch) := by
    have hframe := transfersKeep driver (I := fun _ => True) fun _ _ _ _ => trivial
    have hother : ∀ e : Stop, e.OfHardware → e ≠ .throws .staticPartialIDMismatch := by
      rintro _ (_ | _) <;> nofun
    exact ⟨fun n => (hframe.beginProcessData n).mono hother,
      fun data n => (hframe.endProcessData data n).mono hother⟩
  have hreader : StopsReader (· ≠ .throws .staticPartialIDMismatch) := ⟨nofun, nofun, nofun⟩
  have hheader := untouched_headerState hp content
  rw [wp_processFile]
  split_ifs with hshort hbit
  · nofun
  · rw [processBit, wp_bind]
    refine (tagLoop_verifies hdriver rfl hheader _ _).mono ?_ ?_
    · intro d t _
      exact (processPayload_transfers hreader htransfers _ _ _ t trivial).mono
        (fun _ _ _ => trivial) fun _ _ he heq => absurd heq he.1
    · rintro e t ⟨he, -⟩ heq
      obtain ⟨item, hitem, userId, hid, hne⟩ := he.mismatch heq
      exact ⟨Nat.le_of_not_lt hshort, .ofBit item userId hbit hitem hid hne⟩
  · rw [processRaw, wp_bind]
    refine (checkRaw_verifies hdriver rfl hheader).mono ?_ ?_
    · intro _ t _
      exact (processRawData_transfers hreader htransfers _ _ t trivial).mono (fun _ _ _ => trivial)
        fun _ _ he heq => absurd heq he.1
    · rintro e t ⟨he, -⟩ heq
      obtain ⟨hbin, hpart, hne⟩ := he.mismatch heq
      exact ⟨Nat.le_of_not_lt hshort, .ofPartial hbit hbin hpart hne⟩

/-- As it is constructed over the first fifo that can be opened. -/
def Constructed (p : HardwareProgrammer δ) : Prop :=
  (∃ fifo device, p = overDMA fifo device) ∨ ∃ device, p = overCPU device

/-- The life of a programmer: files that are programmed with `fromFile`, which may fail. -/
def programming (driver : Driver δ) (init : HardwareProgrammer δ → Prop) :
    TransitionSystem (HardwareProgrammer δ) (Nat × File) where
  init := init
  step p file q := q = finalState (fromFile driver file.1 file.2) p

theorem programming_keeps {init I : HardwareProgrammer δ → Prop} (hinit : ∀ p, init p → I p)
    (htransfers : (callback driver).TransfersKeep I fun _ => True)
    (hverify : ∀ userId, Keeps I (fun _ => True) (verifyStaticID driver userId))
    (hp : (programming driver init).Reachable p) : I p := by
  refine hp.invariant hinit ?_
  rintro p ⟨fuel, file⟩ _ hI rfl
  have hfile := processFile_keeps ⟨trivial, trivial, trivial⟩ htransfers hverify trivial fuel
    ⟨file, p, [], [], []⟩ hI
  apply finalState_of_wp
  rw [wp_fromFile]
  exact hfile.mono (fun _ _ ht => ht) fun _ _ he => he.2

private theorem verifyStaticID_keeps_knows (hdriver : driver.Reports id) (userId : Nat) :
    Keeps (Knows id) (fun _ => True) (verifyStaticID driver userId) :=
  fun _ hp => (verifyStaticID_spec hdriver hp userId).mono (fun _ _ ht => ht.2)
    fun _ _ he => ⟨trivial, he.2⟩

theorem knows_of_reachable {init : HardwareProgrammer δ → Prop} (hdriver : driver.Reports id)
    (hinit : ∀ p, init p → p.dyploUserIdValid = false)
    (hp : (programming driver init).Reachable p) : p.Knows id := by
  have htransfers := transfersKeep driver (I := Knows id) fun _ _ hp => hp.of_sameID
  refine programming_keeps ?_ ?_ (verifyStaticID_keeps_knows hdriver) hp
  · intro p hp hvalid
    rw [hinit p hp] at hvalid
    cases hvalid
  · exact ⟨fun n => (htransfers.beginProcessData n).mono fun _ _ => trivial,
      fun data n => (htransfers.endProcessData data n).mono fun _ _ => trivial⟩

/-- A partial image for another static design is refused before anything is transferred, and
only such an image raises `StaticPartialIDMismatchException`. -/
theorem foreign_partial_refused (hdriver : driver.Reports id)
    (hp : (programming driver Constructed).Reachable p) (content : List UInt8) (fuel : Nat) :
    (Mismatch id content → ∃ e t, run (callback driver) fuel ⟨content⟩ p = .error (.throws e) t ∧
      fromFile driver fuel ⟨content⟩ p = .error (.throws e) t.callback ∧
      (∀ bytes, .endProcessData bytes ∉ t.trace) ∧
      t.callback.dmaWriter = p.dmaWriter ∧ t.callback.cpuFifo = p.cpuFifo) ∧
    (∀ q, fromFile driver fuel ⟨content⟩ p = .error (.throws .staticPartialIDMismatch) q →
      64 ≤ content.length ∧ Mismatch id content) := by
  have hknows : p.Knows id := by
    refine knows_of_reachable hdriver ?_ hp
    rintro _ (⟨fifo, device, rfl⟩ | ⟨device, rfl⟩) <;> rfl
  constructor
  · intro h
    obtain ⟨_, t, heq, ⟨e, rfl⟩, ht⟩ := (processFile_refuses hdriver hknows h fuel).stops
    refine ⟨e, t, heq, ?_, ht.no_endProcessData, ht.sameFifos.dmaWriter, ht.sameFifos.cpuFifo⟩
    rw [fromFile, run, heq]
  · intro q heq
    have hfile : wp (fromFile driver fuel ⟨content⟩) (fun _ _ => True)
        (fun e _ => e = .throws .staticPartialIDMismatch →
          64 ≤ content.length ∧ Mismatch id content) p :=
      wp_fromFile.mpr (mismatch_of_processFile hdriver hknows content fuel)
    exact (wp_of_error heq).mp hfile rfl

/-- A `.partial` image for the design 8 on the design 7. -/
theorem foreign_partial_refused_seven :
    ∃ e t, run (callback (.ideal 7)) 0 ⟨[0, 0, 0, 8, 255, 255, 255, 255] ++ List.replicate 64 0⟩
        (overCPU ()) = .error (.throws e) t ∧
      fromFile (.ideal 7) 0 ⟨[0, 0, 0, 8, 255, 255, 255, 255] ++ List.replicate 64 0⟩
        (overCPU ()) = .error (.throws e) t.callback ∧
      (∀ bytes, .endProcessData bytes ∉ t.trace) ∧
      t.callback.dmaWriter = none ∧ t.callback.cpuFifo = some ⟨[]⟩ :=
  (foreign_partial_refused (Driver.ideal_reports (by decide)) (.init (.inr ⟨(), rfl⟩)) _ 0).1
    (.ofPartial (by decide) (by decide) (by decide) (by decide))

end HardwareProgrammer

end Dyplo
