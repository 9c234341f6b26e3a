import Dyplo.Image.Header

/-!
# The tags of a `.bit` image

The tag loop is a scan of the buffer, which finds the items and where they end, and a pass over
the items, which may call into the callback.
-/

namespace Dyplo

/-- A tag, the size of its value and the offset of its value in the buffer. -/
structure TagItem where
  tag : UInt8
  size : Nat
  value : Nat

/-- The items from `data` on, and the offset of the data tag unless the block ends before. -/
def scanTags (buffer : List UInt8) (bytes data : Nat) : List TagItem × Option Nat :=
  if byteAt buffer data = 101 then ([], some data)
  else if bytes ≤ data + 1 then ([], none)
  else if bytes ≤ data + 3 + parseU16 (buffer.drop (data + 1)) then ([], none)
  else
    let rest := scanTags buffer bytes (data + 3 + parseU16 (buffer.drop (data + 1)))
    (⟨byteAt buffer data, parseU16 (buffer.drop (data + 1)), data + 3⟩ :: rest.1, rest.2)
  termination_by bytes - data

/-- The items of a `.bit` image, as far as the first block holds them. -/
def bitItems (content : List UInt8) : List TagItem :=
  (scanTags (firstBuffer content) (min alignSize content.length) 13).1

/-- The offset of the data tag of a `.bit` image. -/
def bitData (content : List UInt8) : Option Nat :=
  (scanTags (firstBuffer content) (min alignSize content.length) 13).2

/-- What `parseDescriptionTag` makes of an item, started with `is_partial = true`. -/
def TagItem.description (item : TagItem) (buffer : List UInt8) : Description :=
  parseDescriptionTag (buffer.drop item.value) item.size (some true) (some 0)

/-- The static ID that an item asks for. -/
def TagItem.staticID (item : TagItem) (buffer : List UInt8) : Option Nat :=
  if item.tag = 97 ∧ (item.description buffer).result = true ∧
      (item.description buffer).isPartial = some true then
    some ((item.description buffer).userId.getD 0 % 2 ^ 16)
  else none

namespace FpgaImageReader

variable {κ : Type} {callback : FpgaImageReaderCallback κ} {s : ReaderState κ}
  {E : Stop → ReaderState κ → Prop}

def processItem (callback : FpgaImageReaderCallback κ) (buffer : List UInt8) (item : TagItem) :
    ImageM κ Unit :=
  processTag callback item.tag item.size (buffer.drop item.value)

theorem wp_processItem {Q : Unit → ReaderState κ → Prop} (buffer : List UInt8) (item : TagItem) :
    wp (processItem callback buffer item) Q E s ↔
      match item.staticID buffer with
      | none => Q () { s with
          trace := s.trace ++ [.processTag item.tag ((buffer.drop item.value).take item.size)] }
      | some id => wp (verifyStaticID callback id) Q E { s with
          trace := s.trace ++
            [.processTag item.tag ((buffer.drop item.value).take item.size)] } := by
  rw [processItem, processTag, wp_bind, wp_emit, wp_ite, TagItem.staticID]
  by_cases htag : item.tag = 97
  · rw [if_pos htag]
    change wp (if (item.description buffer).result &&
        (item.description buffer).isPartial == some true
      then verifyStaticID callback ((item.description buffer).userId.getD 0 % 2 ^ 16)
      else pure ()) Q E _ ↔ _
    rw [wp_ite, wp_pure]
    by_cases hid : (item.description buffer).result = true ∧
        (item.description buffer).isPartial = some true
    · rw [if_pos (by simpa using hid), if_pos ⟨htag, hid⟩]
    · rw [if_neg (by simpa using hid), if_neg fun h => hid h.2]
  · rw [if_neg htag, if_neg fun h => htag h.1, wp_pure]

private theorem processItem_frame (buffer : List UInt8) (item : TagItem) :
    wp (processItem callback buffer item) (fun _ t => t.file = s.file ∧ t.buffer = s.buffer)
      (fun _ t => t.file = s.file ∧ t.buffer = s.buffer) s := by
  rw [wp_processItem]
  cases item.staticID buffer with
  | none => exact ⟨rfl, rfl⟩
  | some id =>
    change wp (verifyStaticID callback id) _ _ _
    rw [wp_verifyStaticID]
    unfold wp
    cases callback.verifyStaticID id s.callback <;> exact ⟨rfl, rfl⟩

/-- The tag loop scans the buffer and processes the items. -/
theorem wp_tagLoop {Q : Nat → ReaderState κ → Prop} {buffer : List UInt8} (bytes data : Nat)
    (hbuffer : s.buffer = buffer) :
    wp (tagLoop callback bytes data) Q E s ↔
      wp (forM (scanTags buffer bytes data).1 (processItem callback buffer))
        (fun _ t => match (scanTags buffer bytes data).2 with
          | some data => Q data t
          | none => E (.throws .truncatedFile) t) E s := by
  induction data using scanTags.induct buffer bytes generalizing s with
  | case1 data htag =>
    rw [tagLoop, wp_bind, wp_get, hbuffer, scanTags, wp_ite, if_pos htag, if_pos htag,
      List.forM_nil, wp_pure, wp_pure]
  | case2 data htag hend =>
    rw [tagLoop, wp_bind, wp_get, hbuffer, scanTags, wp_ite, if_neg htag, if_neg htag, wp_ite,
      if_pos hend, if_pos hend, List.forM_nil, wp_pure, wp_throw]
  | case3 data htag hend hvalue =>
    rw [tagLoop, wp_bind, wp_get, hbuffer, scanTags, wp_ite, if_neg htag, if_neg htag, wp_ite,
      if_neg hend, if_neg hend, wp_ite, if_pos hvalue, if_pos hvalue,
      List.forM_nil, wp_pure, wp_throw]
  | case4 data htag hend hvalue ih =>
    rw [tagLoop, wp_bind, wp_get, hbuffer, scanTags, wp_ite, if_neg htag, if_neg htag, wp_ite,
      if_neg hend, if_neg hend, wp_ite, if_neg hvalue, if_neg hvalue, wp_bind, List.forM_cons,
      wp_bind]
    have hframe : wp (processItem callback buffer
        ⟨byteAt buffer data, parseU16 (buffer.drop (data + 1)), data + 3⟩)
        (fun _ t => t.file = s.file ∧ t.buffer = s.buffer)
        (fun _ t => t.file = s.file ∧ t.buffer = s.buffer) s := processItem_frame _ _
    exact wp_congr hframe fun _ t ht => ih (ht.2.trans hbuffer)

theorem tagLoop_eq (bytes data : Nat) (s : ReaderState κ) :
    tagLoop callback bytes data s =
      (forM (scanTags s.buffer bytes data).1 (processItem callback s.buffer) >>= fun _ =>
        match (scanTags s.buffer bytes data).2 with
        | some data => pure data
        | none => throw (.throws .truncatedFile)) s := by
  have hpass := (wp_result (c := forM (scanTags s.buffer bytes data).1
    (processItem callback s.buffer) >>= fun _ => match (scanTags s.buffer bytes data).2 with
      | some data => pure data
      | none => throw (.throws .truncatedFile)) (s := s) _).mpr rfl
  rw [wp_bind] at hpass
  rw [← wp_result, wp_tagLoop bytes data rfl]
  refine hpass.mono ?_ fun _ _ he => he
  intro _ t ht
  cases hscan : (scanTags s.buffer bytes data).2 with
  | some d => rw [hscan] at ht; exact (wp_pure d).mp ht
  | none => rw [hscan] at ht; exact (wp_throw (Stop.throws .truncatedFile)).mp ht

end FpgaImageReader

end Dyplo
