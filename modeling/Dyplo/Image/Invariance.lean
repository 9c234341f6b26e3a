import Dyplo.Image.Tags

/-!
# Invariants of a callback

What the three calls into a callback keep, `processFile` keeps, for every file and however it
ends.
-/

namespace Dyplo

/-- The transfers to a callback keep `I` and stop in `F` only. -/
structure FpgaImageReaderCallback.TransfersKeep {κ : Type} (callback : FpgaImageReaderCallback κ)
    (I : κ → Prop) (F : Stop → Prop) : Prop where
  beginProcessData : ∀ n, Keeps I F (callback.beginProcessData n)
  endProcessData : ∀ data n, Keeps I F (callback.endProcessData data n)

/-- The reader's own ways to stop in the middle of an image. -/
structure StopsReader (F : Stop → Prop) : Prop where
  truncatedFile : F (.throws .truncatedFile)
  undefined : F .undefined
  outOfFuel : F .outOfFuel

namespace FpgaImageReader

variable {κ : Type} {callback : FpgaImageReaderCallback κ} {I : κ → Prop}
  {P : κ → List ImageEvent → Prop} {F : Stop → Prop}

/-- An invariant of the callback's state. -/
abbrev OnCallback (I : κ → Prop) (s : ReaderState κ) : Prop := I s.callback

/-- An invariant of the callback's state and of what has been recorded. -/
abbrev OnTrace (P : κ → List ImageEvent → Prop) (s : ReaderState κ) : Prop :=
  P s.callback s.trace

/-- An event that does not touch the invariant. -/
def Survives (P : κ → List ImageEvent → Prop) (event : ImageEvent) : Prop :=
  ∀ k trace, P k trace → P k (trace ++ [event])

/-- The transfers to a callback, with what is recorded of them, keep `P` and stop in `F` only. -/
structure StepsKeep (callback : FpgaImageReaderCallback κ) (P : κ → List ImageEvent → Prop)
    (F : Stop → Prop) : Prop where
  beginProcessData : ∀ n k trace, P k trace →
    wp (callback.beginProcessData n) (fun r t => P t (trace ++ [.beginProcessData n r.2]))
      (fun e t => F e ∧ P t trace) k
  endProcessData : ∀ data n k trace, P k trace →
    wp (callback.endProcessData data n)
      (fun _ t => P t (trace ++ [.endProcessData (data.take n)]))
      (fun e t => F e ∧ P t (trace ++ [.endProcessData (data.take n)])) k

private theorem StepsKeep.of_transfers (h : callback.TransfersKeep I F) :
    StepsKeep callback (fun k _ => I k) F :=
  ⟨fun n k _ hk => h.beginProcessData n k hk, fun data n k _ hk => h.endProcessData data n k hk⟩

theorem StepsKeep.of_trace {T : List ImageEvent → Prop}
    (hbegin : ∀ n g trace, T trace → T (trace ++ [.beginProcessData n g]))
    (hend : ∀ bytes trace, T trace → T (trace ++ [.endProcessData bytes])) :
    StepsKeep callback (fun _ trace => T trace) (fun _ => True) where
  beginProcessData n _ trace ht :=
    wp_of_forall (fun _ _ => hbegin n _ trace ht) fun _ _ => ⟨trivial, ht⟩
  endProcessData _ _ _ trace ht :=
    wp_of_forall (fun _ _ => hend _ trace ht) fun _ _ => ⟨trivial, hend _ trace ht⟩

private theorem emit_keeps {event : ImageEvent} (h : Survives P event) :
    Keeps (OnTrace P) F (emit event) :=
  .modify fun s hs => h s.callback s.trace hs

private theorem call_keeps {α : Type} {c : EStateM Stop κ α} (h : Keeps I F c) :
    Keeps (OnCallback I) F (call c) :=
  fun s hs => wp_call.mpr ((h s.callback hs).mono (fun _ _ ht => ht) fun _ _ he => he)

private theorem beginProcessData_keeps (h : StepsKeep callback P F) (n : Nat) :
    Keeps (OnTrace P) F (beginProcessData callback n) := fun s hs =>
  (wp_beginProcessData n).mpr ((h.beginProcessData n s.callback s.trace hs).mono
    (fun _ _ ht => ht) fun _ _ he => he)

private theorem endProcessData_keeps (h : StepsKeep callback P F) (n : Nat) :
    Keeps (OnTrace P) F (endProcessData callback n) := fun s hs =>
  (wp_endProcessData n).mpr ((h.endProcessData s.cbBuffer n s.callback s.trace hs).mono
    (fun _ _ ht => ht) fun _ _ he => he)

private theorem verifyStaticID_keeps (h : ∀ id, Keeps I F (callback.verifyStaticID id)) (id : Nat) :
    Keeps (OnCallback I) F (verifyStaticID callback id) :=
  .bind (.modify fun _ hs => hs) fun _ => call_keeps (h id)

private theorem readCallback_keeps {count : Nat}
    (h : ∀ read, Survives P (.readCallback count read)) :
    Keeps (OnTrace P) F (readCallback count : ImageM κ Nat) :=
  .get_bind fun _ _ => .bind (emit_keeps (h _)) fun _ => .bind (.modify fun _ hs => hs) fun _ =>
    .pure _

variable (hF : StopsReader F)
include hF

private theorem readBuffer_keeps {offset count : Nat} (h : Survives P (.readBuffer offset count)) :
    Keeps (OnTrace P) F (readBuffer offset count : ImageM κ Nat) := by
  refine .bind (emit_keeps h) fun _ => .get_bind fun s hs => .ite (fun _ => ?_) fun _ => ?_
  · exact .throw hF.undefined
  · exact .bind (.set hs) fun _ => .pure _

private theorem swapBuffer_keeps {words : Nat} (h : Survives P (.swapBuffer words)) :
    Keeps (OnTrace P) F (swapBuffer words : ImageM κ Unit) :=
  .bind (emit_keeps h) fun _ => .get_bind fun _ hs =>
    .ite (fun _ => .throw hF.undefined) fun _ => .set hs

private theorem copyBuffer_keeps {count : Nat} (h : Survives P (.copyBuffer count)) :
    Keeps (OnTrace P) F (copyBuffer count : ImageM κ Unit) :=
  .bind (emit_keeps h) fun _ => .get_bind fun _ hs =>
    .ite (fun _ => .throw hF.undefined) fun _ => .set hs

section Bit

variable (hread : ∀ offset count, Survives P (.readBuffer offset count))
include hread

private theorem alignFirst_keeps (size totalBytes : Nat) :
    Keeps (OnTrace P) F (alignFirst size totalBytes : ImageM κ Nat) := by
  refine .ite (fun _ => .pure _) fun _ => .ite (fun _ => .pure _) fun _ => ?_
  refine .bind (readBuffer_keeps hF (hread _ _)) fun _ => .ite (fun _ => ?_) fun _ => .pure _
  exact .throw hF.truncatedFile

variable (hswap : ∀ words, Survives P (.swapBuffer words)) (h : StepsKeep callback P F)
include hswap h

private theorem firstBlock_keeps (size totalBytes : Nat) :
    Keeps (OnTrace P) F (firstBlock callback size totalBytes) := by
  refine .bind (alignFirst_keeps hF hread _ _) fun _ =>
    .bind (beginProcessData_keeps h _) fun _ => ?_
  refine .bind (swapBuffer_keeps hF (hswap _)) fun _ => .bind (endProcessData_keeps h _) fun _ => ?_
  exact .ite (fun _ => .throw hF.truncatedFile) fun _ => .pure _

private theorem payloadLoop_keeps (size fuel total : Nat) :
    Keeps (OnTrace P) F (payloadLoop callback size fuel total) := by
  induction fuel generalizing total with
  | zero => exact .ite (fun _ => .throw hF.outOfFuel) fun _ => .pure _
  | succ fuel ih =>
    refine .ite (fun _ => ?_) fun _ => .pure _
    refine .bind (beginProcessData_keeps h _) fun _ =>
      .bind (readBuffer_keeps hF (hread _ _)) fun _ => ?_
    refine .ite (fun _ => .throw hF.truncatedFile) fun _ => ?_
    refine .bind (swapBuffer_keeps hF (hswap _)) fun _ =>
      .bind (endProcessData_keeps h _) fun _ => ?_
    exact .ite (fun _ => .throw hF.truncatedFile) fun _ => ih _

theorem processPayload_keeps (fuel bytes data : Nat) :
    Keeps (OnTrace P) F (processPayload callback fuel bytes data) := by
  refine .ite (fun _ => .throw hF.truncatedFile) fun _ => .get_bind fun s hs => ?_
  refine .bind (.set hs) fun _ => .bind (firstBlock_keeps hF hread hswap h _ _) fun _ => ?_
  exact .bind (payloadLoop_keeps hF hread hswap h _ _ _) fun _ => .pure _

end Bit

section Raw

variable (hread : ∀ count read, Survives P (.readCallback count read))
  (h : StepsKeep callback P F)
include hread h

private theorem rawLoop_keeps (fuel total : Nat) :
    Keeps (OnTrace P) F (rawLoop callback fuel total) := by
  induction fuel generalizing total with
  | zero => exact .throw hF.outOfFuel
  | succ fuel ih =>
    refine .bind (beginProcessData_keeps h _) fun _ =>
      .bind (readCallback_keeps (hread _)) fun _ => ?_
    refine .ite (fun _ => .pure _) fun _ => .bind (endProcessData_keeps h _) fun _ => ?_
    exact .ite (fun _ => .throw hF.truncatedFile) fun _ => ih _

theorem processRawData_keeps (hcopy : ∀ count, Survives P (.copyBuffer count)) (fuel bytes : Nat) :
    Keeps (OnTrace P) F (processRawData callback fuel bytes) := by
  refine .bind (beginProcessData_keeps h _) fun _ => ?_
  refine .bind (copyBuffer_keeps hF (hcopy _)) fun _ => ?_
  refine .bind (endProcessData_keeps h _) fun _ => .ite (fun _ => ?_) fun _ => ?_
  · exact .throw hF.truncatedFile
  · exact rawLoop_keeps hF hread h _ _

end Raw

section Transfers

variable (h : callback.TransfersKeep I F)
include h

theorem processPayload_transfers (fuel bytes data : Nat) :
    Keeps (OnCallback I) F (processPayload callback fuel bytes data) :=
  processPayload_keeps hF (fun _ _ _ _ hk => hk) (fun _ _ _ hk => hk) (.of_transfers h) fuel bytes
    data

theorem processRawData_transfers (fuel bytes : Nat) :
    Keeps (OnCallback I) F (processRawData callback fuel bytes) :=
  processRawData_keeps hF (fun _ _ _ _ hk => hk) (.of_transfers h) (fun _ _ _ hk => hk) fuel bytes

end Transfers

omit hF in
private theorem checkRaw_keeps (hverify : ∀ id, Keeps I F (callback.verifyStaticID id))
    (hformat : F (.throws (.runtimeError "Unrecognized bitstream format"))) :
    Keeps (OnCallback I) F (checkRaw callback) :=
  .get_bind fun _ _ => .ite (fun _ => .pure _) fun _ =>
    .ite (fun _ => verifyStaticID_keeps hverify _) fun _ => .throw hformat

omit hF in
private theorem processItem_keeps (hverify : ∀ id, Keeps I F (callback.verifyStaticID id))
    (buffer : List UInt8) (item : TagItem) :
    Keeps (OnCallback I) F (processItem callback buffer item) :=
  .bind (.modify fun _ hs => hs) fun _ =>
    .ite (fun _ => .ite (fun _ => verifyStaticID_keeps hverify _) fun _ => .pure _) fun _ => .pure _

private theorem tagLoop_keeps (hverify : ∀ id, Keeps I F (callback.verifyStaticID id))
    (bytes data : Nat) : Keeps (OnCallback I) F (tagLoop callback bytes data) := by
  intro s hs
  rw [wp_tagLoop bytes data rfl]
  have hitems : Keeps (OnCallback I) F
      (forM (scanTags s.buffer bytes data).1 (processItem callback s.buffer)) :=
    .forM fun item _ => processItem_keeps hverify s.buffer item
  refine (hitems s hs).mono ?_ fun _ _ he => he
  intro _ t ht
  cases (scanTags s.buffer bytes data).2 with
  | none => exact ⟨hF.truncatedFile, ht⟩
  | some d => exact ht

theorem processFile_keeps (h : callback.TransfersKeep I F)
    (hverify : ∀ id, Keeps I F (callback.verifyStaticID id))
    (hformat : F (.throws (.runtimeError "Unrecognized bitstream format"))) (fuel : Nat) :
    Keeps (OnCallback I) F (processFile callback fuel) := by
  have hheader : Keeps (OnCallback I) F (readHeader : ImageM κ Nat) :=
    .bind (.modify fun _ hs => hs) fun _ =>
      .bind (readBuffer_keeps (P := fun k _ => I k) hF fun _ _ hk => hk) fun _ =>
        .ite (fun _ => .throw hF.truncatedFile) fun _ => .pure _
  refine .bind hheader fun _ => .get_bind fun _ _ => .ite (fun _ => ?_) fun _ => ?_
  · exact .bind (tagLoop_keeps hF hverify _ _) fun _ => processPayload_transfers hF h _ _ _
  · exact .bind (checkRaw_keeps hverify hformat) fun _ => processRawData_transfers hF h _ _

end FpgaImageReader

end Dyplo
