import Dyplo.Image.Tags
import Dyplo.Library.TraceCheck

/-!
# Grants

`beginProcessData` returns how much space there is behind the pointer. What the reader writes
there, and what it tells `endProcessData` to take, should be no more than that.
-/

namespace Dyplo

/-- What a callback grants and is told to take. -/
inductive CallbackCall
  | beginProcessData (grant : Nat)
  | endProcessData (lengthBytes : Nat)

/-- The callback with a record of its calls. -/
def FpgaImageReaderCallback.logged {κ : Type} (callback : FpgaImageReaderCallback κ) :
    FpgaImageReaderCallback (List CallbackCall × κ) where
  beginProcessData bytesRemaining := do
    let result ← onSecond (callback.beginProcessData bytesRemaining)
    modify fun s => (s.1 ++ [.beginProcessData result.2], s.2)
    return result
  endProcessData data lengthBytes := do
    modify fun s => (s.1 ++ [.endProcessData lengthBytes], s.2)
    onSecond (callback.endProcessData data lengthBytes)
  verifyStaticID userId := onSecond (callback.verifyStaticID userId)

/-- A callback with room for `cap` bytes. -/
def FpgaImageReaderCallback.Grants {κ : Type} (callback : FpgaImageReaderCallback κ) (cap : Nat) :
    Prop :=
  ∀ n k, wp (callback.beginProcessData n) (fun r _ => r.2 = min n cap) (fun _ _ => True) k

/-- The bytes that a step writes to the callback's memory. -/
@[simp]
def ImageEvent.writes : ImageEvent → Nat
  | .swapBuffer words => 4 * words
  | .copyBuffer count => count
  | .readCallback _ read => read
  | _ => 0

@[simp]
def ImageEvent.grant (g : Nat) : ImageEvent → Nat
  | .beginProcessData _ grant => grant
  | _ => g

/-- Every write fits the grant before it. -/
def writesCheck : TraceCheck Nat ImageEvent where
  start := 0
  next := ImageEvent.grant
  ok := fun g event => event.writes ≤ g

@[simp]
def CallbackCall.grant (g : Nat) : CallbackCall → Nat
  | .beginProcessData grant => grant
  | .endProcessData _ => g

@[simp]
def CallbackCall.taken : CallbackCall → Nat
  | .beginProcessData _ => 0
  | .endProcessData lengthBytes => lengthBytes

/-- Every `endProcessData` takes what has been granted before it. -/
def takesCheck : TraceCheck Nat CallbackCall where
  start := 0
  next := CallbackCall.grant
  ok := fun g call => call.taken ≤ g

namespace FpgaImageReader

variable {κ : Type} {callback : FpgaImageReaderCallback κ}

/-- So far the reader has stayed inside of its grants, the last of which is `g`. -/
structure Granted (g : Nat) (s : ReaderState (List CallbackCall × κ)) : Prop where
  writes : writesCheck.Passes s.trace
  takes : takesCheck.Passes s.callback.1
  traceGrant : writesCheck.summary s.trace = g
  logGrant : takesCheck.summary s.callback.1 = g

/-- So far the reader has stayed inside of its grants. -/
def InsideGrants (s : ReaderState (List CallbackCall × κ)) : Prop := ∃ g, Granted g s

theorem insideGrants_header (content : List UInt8) (k : κ) :
    InsideGrants (headerState ⟨⟨content⟩, ([], k), [], [], []⟩) :=
  ⟨0, ⟨Nat.zero_le _, trivial⟩, trivial, rfl, rfl⟩

namespace Granted

variable {g : Nat} {s : ReaderState (List CallbackCall × κ)}

private theorem emit (h : Granted g s) (event : ImageEvent) (hwrites : event.writes ≤ g)
    (hgrant : event.grant g = g) : Granted g { s with trace := s.trace ++ [event] } where
  writes := (writesCheck.passes_emit _ _).mpr ⟨h.writes, h.traceGrant.symm ▸ hwrites⟩
  takes := h.takes
  traceGrant := by
    rw [TraceCheck.summary_emit, h.traceGrant]
    exact hgrant
  logGrant := h.logGrant

private theorem beginProcessData (h : Granted g s) (P : Nat → Prop) {n : Nat}
    (hgrants : ∀ k, wp (callback.beginProcessData n) (fun r _ => P r.2) (fun _ _ => True) k) :
    wp (beginProcessData callback.logged n)
      (fun g' t => P g' ∧ Granted g' t ∧ t.file = s.file) (fun _ t => InsideGrants t) s := by
  rw [wp_beginProcessData]
  change wp (onSecond _ >>= _) _ _ _
  rw [wp_bind, wp_onSecond]
  refine (hgrants s.callback.2).mono ?_ ?_
  · intro r k hr
    rw [wp_bind, wp_modify, wp_pure]
    refine ⟨hr, ⟨?_, ?_, ?_, ?_⟩, rfl⟩
    · exact (writesCheck.passes_emit _ _).mpr ⟨h.writes, Nat.zero_le _⟩
    · exact (takesCheck.passes_emit _ _).mpr ⟨h.takes, Nat.zero_le _⟩
    · exact writesCheck.summary_emit _ _
    · exact takesCheck.summary_emit _ _
  · intro _ k _
    exact ⟨g, h.writes, h.takes, h.traceGrant, h.logGrant⟩

private theorem endProcessData (h : Granted g s) {n : Nat} (hn : n ≤ g) :
    wp (endProcessData callback.logged n) (fun _ t => InsideGrants t ∧ t.file = s.file)
      (fun _ t => InsideGrants t) s := by
  have hevent := h.emit (.endProcessData (s.cbBuffer.take n)) (Nat.zero_le _) rfl
  have htaken : ∀ k : κ, Granted g { s with
      callback := (s.callback.1 ++ [.endProcessData n], k)
      trace := s.trace ++ [.endProcessData (s.cbBuffer.take n)] } := by
    intro k
    refine ⟨hevent.writes, ?_, hevent.traceGrant, ?_⟩
    · exact (takesCheck.passes_emit _ _).mpr ⟨h.takes, h.logGrant.symm ▸ hn⟩
    · exact (takesCheck.summary_emit _ _).trans h.logGrant
  rw [wp_endProcessData]
  change wp (modify _ >>= _) _ _ _
  rw [wp_bind, wp_modify, wp_onSecond]
  exact wp_of_forall (fun _ k => ⟨⟨g, htaken k⟩, rfl⟩) fun _ k => ⟨g, htaken k⟩

private theorem verifyStaticID (h : Granted g s) (id : Nat) :
    wp (verifyStaticID callback.logged id) (fun _ t => Granted g t ∧ t.file = s.file)
      (fun _ t => InsideGrants t) s := by
  have hevent := h.emit (.verifyStaticID id) (Nat.zero_le _) rfl
  have hcalled : ∀ k : κ, Granted g { s with
      callback := (s.callback.1, k), trace := s.trace ++ [.verifyStaticID id] } :=
    fun _ => ⟨hevent.writes, hevent.takes, hevent.traceGrant, hevent.logGrant⟩
  rw [wp_verifyStaticID]
  change wp (onSecond _) _ _ _
  rw [wp_onSecond]
  exact wp_of_forall (fun _ k => ⟨hcalled k, rfl⟩) fun _ k => ⟨g, hcalled k⟩

private theorem readBuffer (h : Granted g s) (offset count : Nat) :
    wp (readBuffer offset count) (fun n t => n ≤ count ∧ Granted g t)
      (fun _ t => InsideGrants t) s := by
  have hevent := h.emit (.readBuffer offset count) (Nat.zero_le _) rfl
  rw [wp_readBuffer]
  split_ifs
  · exact ⟨g, hevent⟩
  · refine ⟨?_, hevent.writes, hevent.takes, hevent.traceGrant, hevent.logGrant⟩
    rw [File.readAll_length]
    exact Nat.min_le_left _ _

private theorem swapBuffer (h : Granted g s) {words : Nat} (hfits : 4 * words ≤ g) :
    wp (swapBuffer words) (fun _ t => Granted g t) (fun _ t => InsideGrants t) s := by
  have hevent := h.emit (.swapBuffer words) hfits rfl
  rw [wp_swapBuffer]
  split_ifs
  · exact ⟨g, hevent⟩
  · exact ⟨hevent.writes, hevent.takes, hevent.traceGrant, hevent.logGrant⟩

private theorem copyBuffer (h : Granted g s) {count : Nat} (hfits : count ≤ g) :
    wp (copyBuffer count) (fun _ t => Granted g t ∧ t.file = s.file)
      (fun _ t => InsideGrants t) s := by
  have hevent := h.emit (.copyBuffer count) hfits rfl
  rw [wp_copyBuffer]
  split_ifs
  · exact ⟨g, hevent⟩
  · exact ⟨⟨hevent.writes, hevent.takes, hevent.traceGrant, hevent.logGrant⟩, rfl⟩

private theorem readCallback (h : Granted g s) {count : Nat}
    (hfits : min count s.file.content.length ≤ g) {E : Stop → _ → Prop} :
    wp (readCallback count)
      (fun n t => n ≤ g ∧ Granted g t ∧
        t.file.content.length = s.file.content.length - n) E s := by
  have hread := s.file.readAll_length count
  have hevent := h.emit (.readCallback count (s.file.readAll count).1.length)
    (hread ▸ hfits) rfl
  rw [wp_readCallback]
  refine ⟨hread ▸ hfits,
    ⟨hevent.writes, hevent.takes, hevent.traceGrant, hevent.logGrant⟩, ?_⟩
  change (s.file.content.drop count).length = _
  rw [hread, List.length_drop]
  omega

end Granted

section Runs

private theorem processItem_granted (buffer : List UInt8) (item : TagItem) :
    Keeps (InsideGrants (κ := κ)) (fun _ => True)
      (processItem callback.logged buffer item) := by
  rintro s ⟨g, hs⟩
  have hitem := hs.emit (.processTag item.tag ((buffer.drop item.value).take item.size))
    (Nat.zero_le _) rfl
  rw [wp_processItem]
  cases item.staticID buffer with
  | none => exact ⟨g, hitem⟩
  | some id =>
    exact (hitem.verifyStaticID id).mono (fun _ _ ht => ⟨g, ht.1⟩) fun _ _ he => ⟨trivial, he⟩

private theorem tagLoop_granted (bytes data : Nat) :
    Keeps (InsideGrants (κ := κ)) (fun _ => True) (tagLoop callback.logged bytes data) := by
  intro s hs
  rw [wp_tagLoop bytes data rfl]
  have hitems : Keeps (InsideGrants (κ := κ)) (fun _ => True)
      (forM (scanTags s.buffer bytes data).1 (processItem callback.logged s.buffer)) :=
    .forM fun item _ => processItem_granted s.buffer item
  refine (hitems s hs).mono ?_ fun _ _ he => he
  intro _ t ht
  cases (scanTags s.buffer bytes data).2 with
  | none => exact ⟨trivial, ht⟩
  | some d => exact ht

private theorem transfer_granted {g n : Nat} {s : ReaderState (List CallbackCall × κ)}
    (h : Granted g s)
    (hn : n ≤ g) {Q : Nat → ReaderState (List CallbackCall × κ) → Prop}
    (hQ : ∀ m t, InsideGrants t → Q m t) :
    wp (swapBuffer (n >>> 2)) (fun _ t => wp (endProcessData callback.logged n) Q
      (fun _ u => True ∧ InsideGrants u) t) (fun _ u => True ∧ InsideGrants u) s := by
  have hwords := Nat.le_trans (four_mul_words_le n) hn
  refine (h.swapBuffer hwords).mono ?_ fun _ _ he => ⟨trivial, he⟩
  intro _ t ht
  exact (ht.endProcessData hn).mono (fun m u hu => hQ m u hu.1) fun _ _ he => ⟨trivial, he⟩

private theorem beginProcessData_any (n : Nat) (k : κ) :
    wp (callback.beginProcessData n) (fun _ _ => True) (fun _ _ => True) k :=
  wp_of_forall (fun _ _ => trivial) fun _ _ => trivial

private theorem firstBlock_granted (size totalBytes : Nat) :
    Keeps (InsideGrants (κ := κ)) (fun _ => True)
      (firstBlock callback.logged size totalBytes) := by
  have halign : Keeps (InsideGrants (κ := κ)) (fun _ => True) (alignFirst size totalBytes) := by
    refine .ite (fun _ => .pure _) fun _ => .ite (fun _ => .pure _) fun _ => .bind ?_ fun _ =>
      .ite (fun _ => .throw trivial) fun _ => .pure _
    rintro s ⟨g, hs⟩
    exact (hs.readBuffer _ _).mono (fun _ _ ht => ⟨g, ht.2⟩) fun _ _ he => ⟨trivial, he⟩
  refine .bind halign fun n => ?_
  rintro s ⟨g, hs⟩
  rw [wp_bind]
  refine (hs.beginProcessData (fun _ => True) fun k => beginProcessData_any n k).mono ?_
    fun _ _ he => ⟨trivial, he⟩
  rintro g' t ⟨-, ht, -⟩
  simp only [wp_bind]
  refine transfer_granted ht (Nat.mod_le _ _) ?_
  intro m u hu
  rw [wp_ite, wp_throw, wp_pure]
  split_ifs
  · exact ⟨trivial, hu⟩
  · exact hu

private theorem payloadLoop_granted (size fuel total : Nat) :
    Keeps (InsideGrants (κ := κ)) (fun _ => True)
      (payloadLoop callback.logged size fuel total) := by
  induction fuel generalizing total with
  | zero => exact .ite (fun _ => .throw trivial) fun _ => .pure _
  | succ fuel ih =>
    refine .ite (fun _ => ?_) fun _ => .pure _
    rintro s ⟨g, hs⟩
    rw [wp_bind]
    refine (hs.beginProcessData (fun _ => True) fun k => beginProcessData_any _ k).mono ?_
      fun _ _ he => ⟨trivial, he⟩
    rintro toRead t ⟨-, ht, -⟩
    rw [wp_bind]
    refine (ht.readBuffer 0 toRead).mono ?_ fun _ _ he => ⟨trivial, he⟩
    rintro n u ⟨hn, hu⟩
    rw [wp_ite, wp_throw]
    split_ifs with hshort
    · exact ⟨trivial, toRead, hu⟩
    · obtain rfl : n = toRead := by omega
      simp only [wp_bind]
      refine transfer_granted hu (Nat.le_refl n) ?_
      intro m v hv
      rw [wp_ite, wp_throw]
      split_ifs
      · exact ⟨trivial, hv⟩
      · exact ih _ v hv

theorem processBit_granted (fuel bytes : Nat) :
    Keeps (InsideGrants (κ := κ)) (fun _ => True) (processBit callback.logged fuel bytes) := by
  refine .bind (tagLoop_granted _ _) fun data => .ite (fun _ => .throw trivial) fun _ => ?_
  refine .get_bind fun s hs => .bind (.set ?_) fun _ => .bind (firstBlock_granted _ _) fun _ =>
    .bind (payloadLoop_granted _ _ _) fun _ => .pure _
  obtain ⟨g, h⟩ := hs
  exact ⟨g, h.writes, h.takes, h.traceGrant, h.logGrant⟩

variable {cap : Nat} (hgrants : callback.Grants cap)
include hgrants

/-- Chunks of a raw image that fit the callback. -/
theorem rawLoop_granted (fuel total : Nat) {s : ReaderState (List CallbackCall × κ)}
    (hs : InsideGrants s) (hrest : min bufferSize s.file.content.length ≤ cap) :
    wp (rawLoop callback.logged fuel total) (fun _ t => InsideGrants t)
      (fun _ t => InsideGrants t) s := by
  induction fuel generalizing total s with
  | zero =>
    rw [rawLoop, wp_throw]
    exact hs
  | succ fuel ih =>
    obtain ⟨g, hs⟩ := hs
    rw [rawLoop, wp_bind]
    refine (hs.beginProcessData (· = min bufferSize cap) fun k => hgrants bufferSize k).mono ?_
      fun _ _ he => he
    rintro g' t ⟨rfl, ht, hfile⟩
    rw [wp_bind]
    refine (ht.readCallback (by rw [hfile]; omega)).mono ?_ fun _ _ (hf : False) => hf.elim
    rintro n u ⟨hn, hu, hlen⟩
    rw [wp_ite, wp_pure]
    split_ifs
    · exact ⟨_, hu⟩
    · rw [wp_bind]
      refine (hu.endProcessData hn).mono ?_ fun _ _ he => he
      rintro m v ⟨hv, hfile'⟩
      rw [wp_ite, wp_throw]
      split_ifs
      · exact hv
      · rw [hfile] at hlen
        exact ih _ hv (by rw [hfile', hlen]; omega)

theorem processRaw_granted (fuel bytes : Nat) {s : ReaderState (List CallbackCall × κ)}
    (hs : InsideGrants s) (hfirst : bytes ≤ cap)
    (hrest : min bufferSize s.file.content.length ≤ cap) :
    wp (processRaw callback.logged fuel bytes) (fun _ t => InsideGrants t)
      (fun _ t => InsideGrants t) s := by
  have hcheck : wp (checkRaw callback.logged) (fun _ t => InsideGrants t ∧ t.file = s.file)
      (fun _ t => InsideGrants t) s := by
    rw [checkRaw, wp_bind, wp_get, wp_ite, wp_ite, wp_pure, wp_throw]
    split_ifs
    · exact ⟨hs, rfl⟩
    · obtain ⟨g, hs⟩ := hs
      exact (hs.verifyStaticID _).mono (fun _ _ ht => ⟨⟨g, ht.1⟩, ht.2⟩) fun _ _ he => he
    · exact hs
  rw [processRaw, wp_bind]
  refine hcheck.mono ?_ fun _ _ he => he
  rintro _ s₁ ⟨⟨g, h₁⟩, hfile₁⟩
  rw [processRawData, wp_bind]
  refine (h₁.beginProcessData (· = min bytes cap) fun k => hgrants bytes k).mono ?_ fun _ _ he => he
  rintro g' s₂ ⟨rfl, h₂, hfile₂⟩
  rw [wp_bind]
  refine (h₂.copyBuffer (Nat.le_refl _)).mono ?_ fun _ _ he => he
  rintro _ s₃ ⟨h₃, hfile₃⟩
  rw [wp_bind]
  refine (h₃.endProcessData (Nat.le_min.mpr ⟨Nat.le_refl _, hfirst⟩)).mono ?_ fun _ _ he => he
  rintro m s₄ ⟨h₄, hfile₄⟩
  rw [wp_ite, wp_throw]
  split_ifs
  · exact h₄
  · exact rawLoop_granted hgrants _ _ h₄ (by rw [hfile₄, hfile₃, hfile₂, hfile₁]; exact hrest)

end Runs

end FpgaImageReader

end Dyplo
