import Dyplo.Image.GrantedPayload
import Dyplo.Image.Grants
import Dyplo.Image.Raw

/-!
# What a grant has to hold

For which files a callback with a fixed capacity gets the whole image without being told to take
more than it has granted.
-/

namespace Dyplo

open FpgaImageReader

/-- The offset of the data tag among the tags of the whole file. -/
def dataTag (content : List UInt8) : Option Nat := (scanTags content content.length 13).2

/-- The size that the file has behind its data tag. -/
def payloadSize (content : List UInt8) (data : Nat) : Nat := parseU32 (content.drop (data + 1))

/-- A data tag in front of a payload that the file holds as a whole. -/
structure HoldsPayload (content : List UInt8) (data : Nat) : Prop where
  tag : dataTag content = some data
  length : data + 5 + payloadSize content data ≤ content.length

/-- What a file has to deliver: the payload of a `.bit` image with the bytes of every word
reversed, and a raw image as it is. -/
def IsImage (content image : List UInt8) : Prop :=
  if HasBitSignature content then
    ∃ data, HoldsPayload content data ∧
      image = swapped ((content.drop (data + 5)).take (payloadSize content data))
  else image = content

/-- A file that is told apart by its first bytes. -/
structure Recognised (content : List UInt8) : Prop where
  length : 64 ≤ content.length
  format : HasBitSignature content ∨ StartsBin content ∨ StartsPartial content

/-- Against a callback with room for `cap` bytes nothing is written or taken beyond a grant, and
one that takes what it is told to gets the whole image. -/
structure RespectsGrants (cap : Nat) (content : List UInt8) : Prop where
  inside : ∀ {κ : Type} {callback : FpgaImageReaderCallback κ}, callback.Grants cap →
    ∀ (fuel : Nat) (k : κ),
      let t := finalState (processFile callback.logged fuel) ⟨⟨content⟩, ([], k), [], [], []⟩
      writesCheck.Passes t.trace ∧ takesCheck.Passes t.callback.1
  complete : ∀ {κ : Type} {callback : FpgaImageReaderCallback κ} {I : κ → Prop},
    callback.AcceptsAll (fun n g => g = min n cap) I → ∀ (fuel : Nat) (k : κ), I k →
      content.length ≤ fuel → ∀ image, IsImage content image →
        ∃ v t, run callback fuel ⟨content⟩ k = .ok v t ∧ delivered t.trace = image

/-- When grants of up to `cap` bytes are enough. -/
def GrantsSuffice (cap : Nat) (content : List UInt8) : Prop :=
  if HasBitSignature content then
    ∀ data, HoldsPayload content data → data + 5 < firstRead content ∧
      PayloadFits cap (payloadSize content data) (firstRead content - (data + 5))
        (content.drop (data + 5))
  else firstRead content ≤ cap ∧ min bufferSize (content.length - alignSize) ≤ cap

section Scan

private theorem scanTags_ge (buffer : List UInt8) (bytes : Nat) {data d : Nat}
    (h : (scanTags buffer bytes data).2 = some d) : data ≤ d := by
  induction data using scanTags.induct buffer bytes with
  | case1 data htag =>
    rw [scanTags, if_pos htag] at h
    exact Nat.le_of_eq (Option.some.inj h)
  | case2 data htag hend =>
    rw [scanTags, if_neg htag, if_pos hend] at h
    cases h
  | case3 data htag hend hvalue =>
    rw [scanTags, if_neg htag, if_neg hend, if_pos hvalue] at h
    cases h
  | case4 data htag hend hvalue ih =>
    rw [scanTags, if_neg htag, if_neg hend, if_neg hvalue] at h
    have := ih h
    omega

/-- A scan of the first bytes finds the data tag exactly if it is among them. -/
theorem scanTags_prefix {buffer content : List UInt8} {bytes : Nat}
    (hbuffer : buffer.take bytes = content.take bytes) (hbytes : bytes ≤ content.length)
    {data d : Nat} (hdata : data < bytes) :
    (scanTags buffer bytes data).2 = some d ↔
      (scanTags content content.length data).2 = some d ∧ d < bytes := by
  induction data using scanTags.induct buffer bytes with
  | case1 data htag =>
    have htag' := (byteAt_congr hbuffer hdata).symm.trans htag
    rw [scanTags, if_pos htag, scanTags, if_pos htag']
    refine (and_iff_left_of_imp fun hd => ?_).symm
    exact Option.some.inj hd ▸ hdata
  | case2 data htag hend =>
    have htag' := byteAt_congr hbuffer hdata ▸ htag
    rw [scanTags, if_neg htag, if_pos hend, scanTags, if_neg htag']
    constructor
    · intro hnone
      cases hnone
    · rintro ⟨hd, hlt⟩
      split_ifs at hd
      have := scanTags_ge _ _ hd
      omega
  | case3 data htag hend hvalue =>
    have htag' := byteAt_congr hbuffer hdata ▸ htag
    rw [scanTags, if_neg htag, if_neg hend, if_pos hvalue, scanTags, if_neg htag']
    constructor
    · intro hnone
      cases hnone
    · rintro ⟨hd, hlt⟩
      split_ifs at hd
      have hge := scanTags_ge _ _ hd
      rw [parseU16_congr hbuffer (by omega)] at hvalue
      omega
  | case4 data htag hend hvalue ih =>
    have htag' := byteAt_congr hbuffer hdata ▸ htag
    have hsize := parseU16_congr hbuffer (show data + 1 + 1 < bytes by omega)
    have hleft : (scanTags buffer bytes data).2 =
        (scanTags buffer bytes (data + 3 + parseU16 (buffer.drop (data + 1)))).2 := by
      rw [scanTags, if_neg htag, if_neg hend, if_neg hvalue]
    have hright : (scanTags content content.length data).2 =
        (scanTags content content.length (data + 3 + parseU16 (buffer.drop (data + 1)))).2 := by
      rw [scanTags, if_neg htag', if_neg (by omega), ← hsize, if_neg (by omega)]
    rw [hleft, hright]
    exact ih (by omega)

variable {content : List UInt8} {data : Nat}

private theorem bitData_iff (hlen : 64 ≤ content.length) :
    bitData content = some data ↔ dataTag content = some data ∧ data < firstRead content := by
  have halign := alignSize_eq
  have hfirst : firstRead content = min alignSize content.length := rfl
  exact scanTags_prefix (take_firstRead content) (by omega) (by omega)

private theorem declaredSize_eq (h : data + 5 ≤ firstRead content) :
    declaredSize content data = payloadSize content data := by
  have hlow : parseU16 ((firstBuffer content).drop (data + 1 + 2)) =
      parseU16 (content.drop (data + 1 + 2)) :=
    parseU16_congr (take_firstRead content) (by omega)
  rw [declaredSize, payloadSize, parseU32_eq, parseU32_eq, List.drop_drop, List.drop_drop, hlow,
    parseU16_congr (take_firstRead content) (by omega)]

end Scan

namespace FpgaImageReader

variable {κ : Type} {callback : FpgaImageReaderCallback κ} {content : List UInt8} {cap fuel : Nat}

private theorem bit_complete (hcap : 8 ≤ cap) (h8 : 8 ∣ cap) {I : κ → Prop}
    (h : callback.AcceptsAll (fun n g => g = min n cap) I) {k : κ} (hk : I k)
    (hlen : 64 ≤ content.length) (hbit : HasBitSignature content)
    (hfuel : content.length ≤ fuel) {data : Nat} (hholds : HoldsPayload content data)
    (hin : data + 5 < firstRead content)
    (hfits : PayloadFits cap (payloadSize content data) (firstRead content - (data + 5))
      (content.drop (data + 5))) :
    ∃ v t, run callback fuel ⟨content⟩ k = .ok v t ∧ delivered t.trace =
      swapped ((content.drop (data + 5)).take (payloadSize content data)) := by
  have htotal : firstRead content - (data + 5) < alignSize := by
    have hfirst : firstRead content = min alignSize content.length := rfl
    omega
  have hend := hholds.length
  have hsize : payloadSize content data ≤ (content.drop (data + 5)).length := by
    rw [List.length_drop]
    omega
  have hfound := (bitData_iff hlen).mpr ⟨hholds.tag, by omega⟩
  obtain ⟨hwords, hfirst, hread, htake⟩ := (payloadFits_iff htotal hsize).mp hfits
  have hrun : wp (processFile callback fuel)
      (fun _ t => delivered t.trace =
        swapped ((content.drop (data + 5)).take (payloadSize content data)))
      (fun _ _ => False) ⟨⟨content⟩, k, [], [], []⟩ := by
    rw [wp_processFile, if_neg (Nat.not_lt.mpr hlen), if_pos hbit]
    refine processBit_data h.accepts (fun _ _ _ _ => trivial) hk ?_ ?_
    · intro _ hnone _
      exact absurd (hnone data hfound) (Nat.not_le.mpr hin)
    · intro d t hd _ hready hdelivered hahead
      obtain rfl : data = d := Option.some.inj (hfound.symm.trans hd)
      have hlt := declaredSize_lt content data
      rw [declaredSize_eq (Nat.le_of_lt hin)] at hlt ⊢
      refine (processData_spec h.accepts (Nat.dvd_trans (by decide) h8) (by omega) hwords hlt
        hfirst (by omega) hready hahead hdelivered).mono ?_ ?_
      · rintro _ u ⟨-, hall⟩
        rw [hall, htake]
      · intro _ _ hnot
        exact hnot hread
  obtain ⟨v, t, heq, hall⟩ := hrun.returns
  exact ⟨v, t, heq, hall⟩

private theorem bit_fits (hcap : 8 ≤ cap) (h8 : 8 ∣ cap) (hlen : 64 ≤ content.length)
    (hbit : HasBitSignature content) (hfuel : content.length ≤ fuel) {data : Nat}
    (hholds : HoldsPayload content data) {v : Nat} {t : ReaderState Unit}
    (hrun : run (boundedCallback cap) fuel ⟨content⟩ () = .ok v t)
    (hdelivered : delivered t.trace =
      swapped ((content.drop (data + 5)).take (payloadSize content data))) :
    data + 5 < firstRead content ∧
      PayloadFits cap (payloadSize content data) (firstRead content - (data + 5))
        (content.drop (data + 5)) := by
  have hend := hholds.length
  have hsize : payloadSize content data ≤ (content.drop (data + 5)).length := by
    rw [List.length_drop]
    omega
  have hwhole : wp (processFile (boundedCallback cap) fuel)
      (fun _ u => delivered u.trace =
          swapped ((content.drop (data + 5)).take (payloadSize content data)) →
        data + 5 < firstRead content ∧
          PayloadFits cap (payloadSize content data) (firstRead content - (data + 5))
            (content.drop (data + 5)))
      (fun _ _ => True) ⟨⟨content⟩, (), [], [], []⟩ := by
    rw [wp_processFile, if_neg (Nat.not_lt.mpr hlen), if_pos hbit]
    change wp (processBit (boundedCallback cap) fuel (firstRead content)) _ _ _
    refine processBit_data boundedCallback_acceptsAll.accepts (fun _ _ _ _ => trivial) trivial
      (fun _ _ _ => trivial) ?_
    intro d u hd hin _ hnothing hahead
    have htag := ((bitData_iff hlen).mp hd).1
    obtain rfl : data = d := Option.some.inj (hholds.tag.symm.trans htag)
    have hlt := declaredSize_lt content data
    rw [declaredSize_eq (Nat.le_of_lt hin)] at hlt ⊢
    refine (processData_bounded (Nat.dvd_trans (by decide) h8) (by omega) hlt (by omega) hahead
      hsize hnothing).mono ?_ fun _ _ he => he
    intro _ w hw himage
    exact ⟨hin, hw himage⟩
  exact (wp_of_ok hrun).mp hwhole hdelivered

private theorem rawCheck_bytes (content : List UInt8) (cs : List (List UInt8)) :
    (rawCheck content ++ cs.map Delivery.data).flatMap Delivery.bytes = cs.flatten := by
  have hdata : (cs.map Delivery.data).flatMap Delivery.bytes = cs.flatten := by
    rw [List.flatMap_map]
    exact List.flatMap_id
  rw [List.flatMap_append, hdata, rawCheck]
  split_ifs <;> rfl

private theorem raw_complete {I : κ → Prop} (h : callback.AcceptsAll (fun n g => g = min n cap) I)
    {k : κ}
    (hk : I k) (hlen : 64 ≤ content.length) (hbit : ¬ HasBitSignature content)
    (hraw : StartsBin content ∨ StartsPartial content) (hfuel : content.length ≤ fuel)
    (hfirst : firstRead content ≤ cap) (hrest : min bufferSize (content.length - alignSize) ≤ cap) :
    ∃ v t, run callback fuel ⟨content⟩ k = .ok v t ∧ delivered t.trace = content := by
  have hrun : wp (processFile callback fuel) (fun _ t => delivered t.trace = content)
      (fun _ _ => False) ⟨⟨content⟩, k, [], [], []⟩ := by
    rw [wp_processFile, if_neg (Nat.not_lt.mpr hlen), if_neg hbit]
    refine (processRaw_spec (s := headerState ⟨⟨content⟩, k, [], [], []⟩) h.accepts ?_ ?_ hfuel hlen
      rfl rfl hk (hraw.imp_right fun hpart => ⟨hpart, trivial⟩)).mono ?_ fun _ _ hf => hf
    · rintro g rfl
      exact Nat.min_eq_left hfirst
    · rintro g rfl
      omega
    · rintro _ t ⟨-, -, cs, hcs, hds⟩
      rw [delivered, hds, ← hcs.flatten]
      exact rawCheck_bytes _ cs
  obtain ⟨v, t, heq, hall⟩ := hrun.returns
  exact ⟨v, t, heq, hall⟩

private theorem le_of_writes {before : List ImageEvent} {n grant read : Nat}
    (h : writesCheck.Passes (before ++ [.beginProcessData n grant] ++ [.readCallback n read])) :
    read ≤ grant := by
  have hwritten := ((writesCheck.passes_emit _ _).mp h).2
  rwa [TraceCheck.summary_emit] at hwritten

private theorem le_of_takes {before : List CallbackCall} {grant lengthBytes : Nat}
    (h : takesCheck.Passes (before ++ [.beginProcessData grant] ++ [.endProcessData lengthBytes])) :
    lengthBytes ≤ grant := by
  have htaken := ((takesCheck.passes_emit _ _).mp h).2
  rwa [TraceCheck.summary_emit] at htaken

section Demands

variable (cap) (k : List CallbackCall × Unit)

private theorem boundedCallback_logs_begin (n : Nat) :
    (boundedCallback cap).logged.beginProcessData n k =
      .ok (List.replicate cap 0, min n cap) (k.1 ++ [.beginProcessData (min n cap)], ()) := rfl

private theorem boundedCallback_logs_end (data : List UInt8) (n : Nat) :
    (boundedCallback cap).logged.endProcessData data n k =
      .ok n (k.1 ++ [.endProcessData n], ()) := rfl

private theorem boundedCallback_logs_verify (id : Nat) :
    (boundedCallback cap).logged.verifyStaticID id k = .ok () k := rfl

private theorem checkRaw_logged (hraw : StartsBin content ∨ StartsPartial content) :
    wp (checkRaw (boundedCallback cap).logged)
      (fun _ t => t.file = ⟨content.drop alignSize⟩ ∧ t.buffer.length = bufferSize ∧
        t.callback = k)
      (fun _ _ => False) (headerState ⟨⟨content⟩, k, [], [], []⟩) := by
  have hlen := firstBuffer_length content
  have hbuffer : (headerState ⟨⟨content⟩, k, [], [], []⟩).buffer = firstBuffer content := rfl
  rw [checkRaw, wp_bind, wp_get, hbuffer, wp_ite, wp_ite, wp_pure, wp_throw,
    if_congr (isBin_iff content) rfl rfl, if_congr (isPartial_iff content) rfl rfl,
    wp_verifyStaticID]
  split_ifs with hbin hpart
  · exact ⟨rfl, hlen, rfl⟩
  · exact (wp_of_ok (boundedCallback_logs_verify cap k _)).mpr ⟨rfl, hlen, rfl⟩
  · exact hraw.elim hbin hpart

end Demands

/-- A raw image is written and taken in the sizes of the reader, whatever has been granted. -/
theorem raw_demands (hlen : 64 ≤ content.length) (hbit : ¬ HasBitSignature content)
    (hraw : StartsBin content ∨ StartsPartial content) :
    wp (processFile (boundedCallback cap).logged 1)
      (fun _ t => writesCheck.Passes t.trace → takesCheck.Passes t.callback.1 →
        firstRead content ≤ cap ∧ min bufferSize (content.length - alignSize) ≤ cap)
      (fun _ t => writesCheck.Passes t.trace → takesCheck.Passes t.callback.1 →
        firstRead content ≤ cap ∧ min bufferSize (content.length - alignSize) ≤ cap)
      ⟨⟨content⟩, ([], ()), [], [], []⟩ := by
  have halign := alignSize_eq
  have hsize := bufferSize_eq
  have hfirst : firstRead content = min alignSize content.length := rfl
  have hread : ((⟨content.drop alignSize⟩ : File).readAll bufferSize).1.length =
      min bufferSize (content.length - alignSize) := by
    rw [File.readAll_length, List.length_drop]
  have hboth : ∀ {taken read : Nat}, taken ≤ min taken cap → read ≤ min bufferSize cap →
      taken ≤ cap ∧ read ≤ cap := by
    omega
  rw [wp_processFile, if_neg (Nat.not_lt.mpr hlen), if_neg hbit]
  change wp (processRaw (boundedCallback cap).logged 1 (firstRead content)) _ _ _
  rw [processRaw, wp_bind]
  refine (checkRaw_logged cap ([], ()) hraw).mono ?_ fun _ _ hf => hf.elim
  rintro _ ⟨_, _, buffer, _, trace⟩ ⟨rfl, hlen', rfl⟩
  change buffer.length = bufferSize at hlen'
  have hcopies : ¬ buffer.length < min (firstRead content) cap := by omega
  rw [processRawData, wp_bind, wp_beginProcessData,
    wp_of_ok (boundedCallback_logs_begin cap _ _), wp_bind, wp_copyBuffer, if_neg hcopies, wp_bind,
    wp_endProcessData, wp_of_ok (boundedCallback_logs_end cap _ _ _), wp_ite,
    if_neg (Nat.lt_irrefl _), rawLoop, wp_bind, wp_beginProcessData,
    wp_of_ok (boundedCallback_logs_begin cap _ _), wp_bind, wp_readCallback, wp_ite, wp_pure,
    ← hread]
  by_cases hzero : ((⟨content.drop alignSize⟩ : File).readAll bufferSize).1.length = 0
  · rw [if_pos hzero]
    intro hwrites htakes
    have htaken := le_of_takes ((takesCheck.passes_emit _ _).mp htakes).1
    exact hboth htaken (le_of_writes hwrites)
  · rw [if_neg hzero, wp_bind, wp_endProcessData, wp_of_ok (boundedCallback_logs_end cap _ _ _),
      wp_ite, if_neg (Nat.lt_irrefl _), rawLoop, wp_throw]
    intro hwrites htakes
    have htakes' := ((takesCheck.passes_emit _ _).mp htakes).1
    have htaken := le_of_takes ((takesCheck.passes_emit _ _).mp htakes').1
    exact hboth htaken (le_of_writes ((writesCheck.passes_emit _ _).mp hwrites).1)

end FpgaImageReader

open FpgaImageReader

/-- A raw image. -/
theorem raw_grants_iff {cap : Nat} {content : List UInt8} (h : Recognised content)
    (hbit : ¬ HasBitSignature content) : RespectsGrants cap content ↔
      firstRead content ≤ cap ∧ min bufferSize (content.length - alignSize) ≤ cap := by
  have hraw := h.format.resolve_left hbit
  constructor
  · intro hrespects
    have hgrants : (boundedCallback cap).Grants cap := fun n k =>
      (wp_of_ok (boundedCallback_begin n k)).mpr rfl
    obtain ⟨hwrites, htakes⟩ := hrespects.inside hgrants 1 ()
    exact finalState_of_wp (raw_demands h.length hbit hraw) hwrites htakes
  · rintro ⟨hfirst, hrest⟩
    constructor
    · intro κ callback hgrants fuel k
      have hrun : wp (processFile callback.logged fuel) (fun _ t => InsideGrants t)
          (fun _ t => InsideGrants t) ⟨⟨content⟩, ([], k), [], [], []⟩ := by
        rw [wp_processFile, if_neg (Nat.not_lt.mpr h.length), if_neg hbit]
        refine processRaw_granted hgrants _ _ (insideGrants_header content k) hfirst ?_
        change min bufferSize (content.drop alignSize).length ≤ cap
        rw [List.length_drop]
        exact hrest
      obtain ⟨g, hfinal⟩ := finalState_of_wp hrun
      exact ⟨hfinal.writes, hfinal.takes⟩
    · intro κ callback I haccepts fuel k hk hfuel image himage
      rw [IsImage, if_neg hbit] at himage
      rw [himage]
      exact raw_complete haccepts hk h.length hbit hraw hfuel hfirst hrest

private theorem recognised_ones : Recognised (List.replicate 64 255) :=
  ⟨by decide, .inr (.inl (by decide))⟩

end Dyplo
