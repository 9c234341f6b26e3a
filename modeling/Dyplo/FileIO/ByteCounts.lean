import Dyplo.FileIO.FileInputRounds
import Dyplo.FileIO.FileOutputQueue
import Dyplo.Library.Inevitable

/-!
# Byte counts in an `int`

Both file queues compute numbers of bytes in `size_t` and keep them in an `int`. What is left of a
count there decides how much `end_write` hands to `write` and how much `begin_read` asks `read`
for.
-/

namespace Dyplo

private theorem toInt_lt (z : Int) : toInt z < 2 ^ 31 := by
  have hlt : z.bmod (2 ^ 32) < ((2 ^ 32 : Nat) + 1) / 2 := Int.bmod_lt (by decide)
  exact hlt

namespace FileOutputQueue

variable {size count capacity : Nat} {s t : FileOutput}

/-- A call of `write_buffer` whose `write` takes something. -/
def WritesOn (s t : FileOutput) : Prop :=
  s.queue.mBytesToWrite ≠ 0 ∧ ∃ count more, 0 < count ∧
    writeBuffer { s with writes := .written count :: s.writes } = .ok more t

/-- However `end_write` ends, enough successful calls of `write_buffer` hand over `count` elements
and then nothing more. -/
def HandsOver (size : Nat) (synchronous : Bool) (count : Nat) (s : FileOutput) : Prop :=
  ∀ writes poller, Inevitable WritesOn
    (fun t => t.queue.mBytesToWrite = 0 ∧
      t.accepted.length = s.accepted.length + count * size)
    (finalState (endWrite size synchronous count) { s with writes := writes, poller := poller })

theorem writeBuffer_written (hne : s.queue.mBytesToWrite ≠ 0) (count : Nat) :
    writeBuffer { s with writes := .written count :: s.writes } =
      if s.queue.mBytesToWrite < count then
        .error .unanswered { s with writes := .written count :: s.writes }
      else .ok (count < s.queue.mBytesToWrite) (advance s count) := by
  rw [← wp_result, writeBuffer, wp_bind, wp_get, wp_ite, if_neg hne]
  change wp (if s.queue.mBytesToWrite < count then _ else _) _ _ _
  rw [wp_ite]
  split_ifs with hover
  · exact (wp_throw _).mpr rfl
  · exact (wp_bind.trans (wp_set _)).mpr ((wp_pure _).mpr rfl)

private theorem writesOn_iff : WritesOn s t ↔
    ∃ count : Nat, 0 < count ∧ (count : Int) ≤ s.queue.mBytesToWrite ∧ t = advance s count := by
  constructor
  · rintro ⟨hne, count, more, hpos, hrun⟩
    rw [writeBuffer_written hne] at hrun
    split_ifs at hrun with hover
    cases hrun
    exact ⟨count, hpos, by omega, rfl⟩
  · rintro ⟨count, hpos, hle, rfl⟩
    have hne : s.queue.mBytesToWrite ≠ 0 := by omega
    refine ⟨hne, count, decide (count < s.queue.mBytesToWrite), hpos, ?_⟩
    rw [writeBuffer_written hne, if_neg (by omega)]

/-- What a queue can still have written after this commit. -/
def Bounded (bound : Nat) (s : FileOutput) : Prop :=
  s.accepted.length + s.queue.mBytesToWrite.toNat ≤ bound

private theorem steady_bounded (bound : Nat) : Steady (Bounded bound) where
  environment _ _ h := h
  advance := by
    intro s count h hcount
    unfold Bounded at h ⊢
    unfold FileOutputQueue.advance
    have htaken : ((s.queue.mBuff.drop s.queue.mWriteoutPosition).take count).length ≤ count :=
      List.length_take_le _ _
    split_ifs with hmore
    · simp only [List.length_append]
      omega
    · simp only [List.length_append]
      omega

private theorem bounded_commit (size count : Nat) (s : FileOutput) :
    Bounded (s.accepted.length + (toInt (count * size)).toNat) (commit size count s) := by
  rw [Bounded, commit]

private theorem Owes.inevitable {committed : List UInt8} (h : Owes size capacity committed s) :
    Inevitable WritesOn (fun t => t.queue.mBytesToWrite = 0 ∧ t.accepted = committed) s := by
  apply Inevitable.of_measure (I := Owes size capacity committed)
    (m := fun t => t.queue.mBytesToWrite.toNat) _ _ h
  · intro t ht
    by_cases hidle : t.queue.mBytesToWrite = 0
    · have hstream := ht.stream
      rw [pending_of_zero hidle, List.append_nil] at hstream
      exact .inl ⟨hidle, hstream⟩
    · have hnonneg := ht.bytes_nonneg
      exact .inr ⟨FileOutputQueue.advance t 1, writesOn_iff.mpr ⟨1, Nat.one_pos, by omega, rfl⟩⟩
  · intro t u ht htu
    obtain ⟨n, hpos, hn, rfl⟩ := writesOn_iff.mp htu
    refine ⟨ht.advance hn, ?_⟩
    unfold FileOutputQueue.advance
    split_ifs with hmore
    · dsimp only
      omega
    · dsimp only
      omega

/-- A block is handed over exactly when its number of bytes fits an `int`. -/
theorem handsOver_iff (hlength : s.queue.mBuff.length = s.queue.mCapacity * size)
    (hcount : count ≤ s.queue.mCapacity) (synchronous : Bool) :
    HandsOver size synchronous count s ↔ count * size < 2 ^ 31 := by
  have hle : count * size ≤ s.queue.mCapacity * size := Nat.mul_le_mul_right size hcount
  constructor
  · intro h
    have hspec := (steady_bounded _).endWrite_spec (bounded_commit size count s) synchronous
    have hstep : ∀ u v, Bounded (s.accepted.length + (toInt (count * size)).toNat) u →
        WritesOn u v → Bounded (s.accepted.length + (toInt (count * size)).toNat) v := by
      intro u v hu huv
      obtain ⟨n, -, hn, rfl⟩ := writesOn_iff.mp huv
      exact (steady_bounded _).advance hu hn
    obtain ⟨t, hbound, hdone, haccepted⟩ :=
      (h s.writes s.poller).exists_of_invariant hstep (finalState_of_wp hspec)
    unfold Bounded at hbound
    have hint := toInt_lt (count * size)
    generalize toInt (count * size) = bytes at hbound hint
    omega
  · intro hsmall writes poller
    have howes : Owes size s.queue.mCapacity (s.accepted ++ s.queue.mBuff.take (count * size))
        (commit size count { s with writes := writes, poller := poller }) :=
      .of_commit (s := { s with writes := writes, poller := poller }) rfl hlength hsmall hcount
    have hfinal : Owes size s.queue.mCapacity (s.accepted ++ s.queue.mBuff.take (count * size))
        (finalState (endWrite size synchronous count)
          { s with writes := writes, poller := poller }) :=
      finalState_of_wp ((Owes.steady _ _ _).endWrite_spec howes synchronous)
    refine hfinal.inevitable.mono ?_
    rintro t ⟨hdone, haccepted⟩
    refine ⟨hdone, ?_⟩
    rw [haccepted, List.length_append, List.length_take, hlength, Nat.min_eq_left hle]

end FileOutputQueue

namespace FileInputQueue

variable {size countMin : Nat} {s : FileInput}

/-- A `read` that is asked to fill the buffer from where it starts. -/
def FillsBuffer (size : Nat) (q : FileInputQueue) (request : Nat × Int) : Prop :=
  0 ≤ request.2 ∧ request.1 + request.2 = q.mCapacity * size

/-- `begin_read` returns with enough elements only and never asks for anything but the free part of
the buffer. -/
def ReadsWithin (size countMin : Nat) (s : FileInput) : Prop :=
  wp (beginRead size countMin)
    (fun r t => countMin ≤ r ∧ ∀ request ∈ t.requests, FillsBuffer size s.queue request)
    (fun _ t => ∀ request ∈ t.requests, FillsBuffer size s.queue request)
    { s with requests := [] }

private theorem Took.fillsBuffer {t : FileInput} {results : List ReadResult}
    (h : Took size { s with requests := [] } t results) :
    ∀ request ∈ t.requests, FillsBuffer size s.queue request := by
  intro request hrequest
  obtain ⟨earlier, ⟨later, rfl⟩, hposition, hsum⟩ :=
    (h.requests request hrequest).resolve_left List.not_mem_nil
  have hfits : s.queue.mCarry * size + (readBytes (earlier ++ later)).length ≤
      s.queue.mCapacity * size := h.fits
  rw [readBytes_append, List.length_append] at hfits
  have hsum' : request.1 + request.2 = (s.queue.mCapacity * size : Nat) := by
    push_cast
    exact hsum
  have hposition' : request.1 = s.queue.mCarry * size + (readBytes earlier).length := hposition
  exact ⟨by omega, hsum⟩

section Requests

private theorem read_requests (position : Nat) (count : Int) (s : FileInput) :
    wp (read position count) (fun _ t => t.requests = s.requests ++ [(position, count)])
      (fun _ t => t.requests = s.requests ++ [(position, count)]) s := by
  rw [read, wp_bind, wp_modify, wp_bind, wp_get]
  cases s.reads with
  | nil => exact (wp_throw _).mpr rfl
  | cons result reads =>
    change wp (if result.Answers count then _ else _) _ _ _
    rw [wp_ite]
    split_ifs with hanswers
    · exact (wp_bind.trans (wp_set _)).mpr ((wp_pure _).mpr rfl)
    · exact (wp_throw _).mpr rfl

/-- The requests that a loop has made after its first `read`. -/
def requestsFrom (size turns position : Nat) (s : FileInput) : List (Nat × Int) :=
  s.requests ++ if turns = 0 then [] else [(position, toInt (s.queue.mCapacity * size - position))]

private theorem subset_requestsFrom (size turns position : Nat) (s : FileInput) :
    s.requests ⊆ requestsFrom size turns position s := List.subset_append_left _ _

private theorem waitReadable_requests (s : FileInput) :
    wp waitReadable (fun _ t => t.requests = s.requests) (fun _ t => s.requests ⊆ t.requests) s :=
  waitReadable_spec (fun _ => rfl) fun _ _ => List.Subset.refl _

private theorem finish_requests (size bytesRead : Nat) {s t : FileInput}
    (h : t.requests = s.requests) :
    wp (finish size bytesRead) (fun _ u => s.requests ⊆ u.requests)
      (fun _ u => s.requests ⊆ u.requests) t := by
  rw [finish, wp_bind, wp_modify, wp_bind, wp_get, wp_pure]
  exact h ▸ List.Subset.refl _

/-- However a loop ends, its first `read` has been made. -/
theorem readLoop_requests (size countMin turns position : Nat) (bytesToRead : Int)
    (bytesRead : Nat) (s : FileInput) :
    wp (readLoop size countMin turns position bytesToRead bytesRead)
      (fun _ t => requestsFrom size turns position s ⊆ t.requests)
      (fun _ t => requestsFrom size turns position s ⊆ t.requests) s := by
  induction turns generalizing position bytesToRead bytesRead s with
  | zero =>
    have hnone : requestsFrom size 0 position s = s.requests := List.append_nil _
    rw [hnone]
    exact (wp_throw _).mpr (List.Subset.refl _)
  | succ turns ih =>
    have hagain : ∀ (position : Nat) (bytesToRead : Int) (bytesRead : Nat) (t u : FileInput),
        u.requests = t.requests →
        wp (readLoop size countMin turns position bytesToRead bytesRead)
          (fun _ v => t.requests ⊆ v.requests) (fun _ v => t.requests ⊆ v.requests) u := by
      intro position bytesToRead bytesRead t u hu
      rw [← hu]
      exact (ih position bytesToRead bytesRead u).mono
        (fun _ _ hv => List.Subset.trans (subset_requestsFrom _ _ _ u) hv)
        fun _ _ hv => List.Subset.trans (subset_requestsFrom _ _ _ u) hv
    apply readLoop_turn (R := fun _ t => t.requests = requestsFrom size (turns + 1) position s)
    case hread =>
      exact (read_requests _ _ s).mono (fun _ _ ht => ht) fun _ _ ht => ht ▸ List.Subset.refl _
    case hfailed =>
      intro t ht
      exact ht ▸ List.Subset.refl _
    case hend =>
      intro t ht
      exact ht ▸ List.Subset.refl _
    case hpoll =>
      intro t ht _
      rw [← ht]
      exact finish_requests size bytesRead rfl
    case hwait =>
      intro t ht _
      rw [← ht]
      refine (waitReadable_requests t).mono ?_ fun _ _ h => h
      intro _ u hu
      split_ifs with hmore
      · exact hagain _ _ _ t u hu
      · exact finish_requests size bytesRead hu
    case hdata =>
      intro bytes t ht
      rw [← ht]
      split_ifs with hmore
      · exact hagain _ _ _ t t rfl
      · exact finish_requests size _ rfl

end Requests

/-- What a call that reads asks for first. -/
def firstRequest (size : Nat) (q : FileInputQueue) : Nat × Int :=
  (q.mCarry * size, toInt (q.mCapacity * size - (q.mCarry * size : Nat)))

private theorem beginRead_requests (size : Nat) (hread : s.queue.mCarry < countMin) :
    wp (beginRead size countMin) (fun _ t => firstRequest size s.queue ∈ t.requests)
      (fun _ t => firstRequest size s.queue ∈ t.requests) s := by
  have hloop : ∀ (countMin : Nat) (bytesToRead : Int),
      wp (readLoop size countMin (s.reads.length + 1) (s.queue.mCarry * size) bytesToRead 0)
        (fun _ t => firstRequest size s.queue ∈ t.requests)
        (fun _ t => firstRequest size s.queue ∈ t.requests) s := by
    intro countMin bytesToRead
    have hfirst : firstRequest size s.queue ∈
        requestsFrom size (s.reads.length + 1) (s.queue.mCarry * size) s :=
      List.mem_append_right _ (List.mem_singleton_self _)
    exact (readLoop_requests size countMin _ _ bytesToRead 0 s).mono (fun _ _ ht => ht hfirst)
      fun _ _ ht => ht hfirst
  rw [beginRead, wp_bind, wp_get, wp_ite]
  by_cases hcarry : s.queue.mCarry ≠ 0
  · rw [if_pos hcarry, wp_ite, if_neg (Nat.not_le.mpr hread)]
    exact hloop _ _
  · have hzero : s.queue.mCarry * size = 0 := by rw [not_not.mp hcarry, Nat.zero_mul]
    rw [if_neg hcarry]
    rw [hzero] at hloop
    exact hloop _ _

private theorem fillsBuffer_firstRequest_iff {q : FileInputQueue}
    (hcarry : q.mCarry ≤ q.mCapacity) :
    FillsBuffer size q (firstRequest size q) ↔ (q.mCapacity - q.mCarry) * size < 2 ^ 31 := by
  have hle : q.mCarry * size ≤ q.mCapacity * size := Nat.mul_le_mul_right size hcarry
  have hroom : (q.mCapacity - q.mCarry) * size + q.mCarry * size = q.mCapacity * size := by
    rw [← Nat.add_mul, Nat.sub_add_cancel hcarry]
  have hdifference : (q.mCapacity * size : Int) - (q.mCarry * size : Nat) =
      ((q.mCapacity - q.mCarry) * size : Nat) := by
    rw [← Int.natCast_mul]
    omega
  rw [FillsBuffer, firstRequest, hdifference]
  constructor
  · rintro ⟨-, hfill⟩
    have hint := toInt_lt ((q.mCapacity - q.mCarry) * size : Nat)
    dsimp only at hfill
    generalize toInt ((q.mCapacity - q.mCarry) * size : Nat) = bytes at hfill hint
    rw [← Int.natCast_mul] at hfill
    omega
  · intro hsmall
    rw [toInt_of_lt (Int.natCast_nonneg _) (by exact_mod_cast hsmall)]
    refine ⟨Int.natCast_nonneg _, ?_⟩
    rw [← Int.natCast_mul]
    omega

/-- A call of `begin_read` is safe exactly when the carry is enough or the room behind the carry
fits an `int`. -/
theorem readsWithin_iff (hsize : 0 < size)
    (hlength : s.queue.mBuff.length = s.queue.mCapacity * size)
    (hcarry : s.queue.mCarry ≤ s.queue.mCapacity) (hpos : 1 ≤ countMin)
    (hcount : countMin ≤ s.queue.mCapacity) :
    ReadsWithin size countMin s ↔
      countMin ≤ s.queue.mCarry ∨ (s.queue.mCapacity - s.queue.mCarry) * size < 2 ^ 31 := by
  constructor
  · intro h
    by_cases henough : countMin ≤ s.queue.mCarry
    · exact .inl henough
    · right
      have hfirst := beginRead_requests (s := { s with requests := [] }) size
        (Nat.lt_of_not_le henough)
      have hfills : FillsBuffer size s.queue (firstRequest size s.queue) :=
        finalState_of_wp (I := fun _ => FillsBuffer size s.queue (firstRequest size s.queue))
          ((h.and hfirst).mono (fun _ _ ht => ht.1.2 _ ht.2) fun _ _ ht => ht.1 _ ht.2)
      exact (fillsBuffer_firstRequest_iff hcarry).mp hfills
  · rintro (henough | hroom)
    · have hcarried : s.queue.mCarry ≠ 0 := by omega
      rw [ReadsWithin, beginRead, wp_bind, wp_get, wp_ite, if_pos hcarried, wp_ite, if_pos henough,
        wp_pure]
      exact ⟨henough, fun request hrequest => absurd hrequest List.not_mem_nil⟩
    · have hroomy : Roomy size s.queue := ⟨hlength, hcarry, hroom⟩
      refine (beginRead_spec (s := { s with requests := [] }) hroomy hcount).mono ?_ ?_
      · rintro r t (⟨-, henough, rfl, rfl⟩ | ⟨-, results, hreturned⟩)
        · exact ⟨henough, fun request hrequest => absurd hrequest List.not_mem_nil⟩
        · exact ⟨hreturned.enough_granted hsize, hreturned.took.fillsBuffer⟩
      · rintro _ t ⟨results, htook, -⟩
        exact htook.fillsBuffer

end FileInputQueue

/-- When the byte counts of a call survive their conversion to `int`. -/
theorem byteCounts_iff {size : Nat} (hsize : 0 < size) :
    (∀ (s : FileOutput) (count : Nat) (synchronous : Bool),
      s.queue.mBuff.length = s.queue.mCapacity * size → count ≤ s.queue.mCapacity →
        (FileOutputQueue.HandsOver size synchronous count s ↔ count * size < 2 ^ 31)) ∧
    ∀ (s : FileInput) (countMin : Nat),
      s.queue.mBuff.length = s.queue.mCapacity * size → s.queue.mCarry ≤ s.queue.mCapacity →
        1 ≤ countMin → countMin ≤ s.queue.mCapacity →
          (FileInputQueue.ReadsWithin size countMin s ↔
            countMin ≤ s.queue.mCarry ∨
              (s.queue.mCapacity - s.queue.mCarry) * size < 2 ^ 31) := by
  constructor
  · intro s count synchronous hlength hcount
    exact FileOutputQueue.handsOver_iff hlength hcount synchronous
  · intro s countMin hlength hcarry hpos hcount
    exact FileInputQueue.readsWithin_iff hsize hlength hcarry hpos hcount

theorem byteCounts_iff_words :
    FileOutputQueue.HandsOver 4 true 2 (FileOutput.start (List.replicate 8 0) 2) ∧
    FileInputQueue.ReadsWithin 4 2 (InputRound.start (List.replicate 8 0) 2).input := by
  obtain ⟨hwrite, hread⟩ := byteCounts_iff (by decide : 0 < 4)
  constructor
  · exact (hwrite _ 2 true (by decide) (by decide)).mpr (by decide)
  · exact (hread _ 2 (by decide) (by decide) (by decide) (by decide)).mpr (.inr (by decide))

/-- The byte count of 2 ^ 20 elements of 4096 bytes wraps to zero: none is written, and none is
asked for. -/
theorem pages_not_byteCounts :
    ¬ FileOutputQueue.HandsOver 4096 false (2 ^ 20)
      (FileOutput.start (List.replicate (2 ^ 20 * 4096) 0) (2 ^ 20)) ∧
    ¬ FileInputQueue.ReadsWithin 4096 1
      (InputRound.start (List.replicate (2 ^ 20 * 4096) 0) (2 ^ 20)).input := by
  have hlength : (List.replicate (2 ^ 20 * 4096) (0 : UInt8)).length = 2 ^ 20 * 4096 :=
    List.length_replicate
  generalize List.replicate (2 ^ 20 * 4096) (0 : UInt8) = memory at hlength ⊢
  constructor
  · intro h
    have hcount : 2 ^ 20 * 4096 < 2 ^ 31 :=
      (FileOutputQueue.handsOver_iff (s := FileOutput.start memory (2 ^ 20)) hlength
        (Nat.le_refl _) false).mp h
    exact absurd hcount (by decide)
  · intro h
    have hroom : 1 ≤ 0 ∨ (2 ^ 20 - 0) * 4096 < 2 ^ 31 :=
      (FileInputQueue.readsWithin_iff (s := (InputRound.start memory (2 ^ 20)).input) (by decide)
        hlength (Nat.zero_le _) (Nat.le_refl _) Nat.one_le_two_pow).mp h
    exact absurd hroom (by decide)

end Dyplo
