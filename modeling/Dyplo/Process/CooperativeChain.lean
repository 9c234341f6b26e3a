import Dyplo.Process.CooperativeProcess
import Dyplo.Queue.BlockProgress
import Dyplo.Queue.Moves

/-!
# Chains of cooperative processes

An output accepts the blocks of a target stream when it takes the next one, returns, and is ready
for the one after it. What a stage needs of its output is what its input queue offers in turn, so
that a chain accepts blocks as soon as its sink does.
-/

namespace Dyplo

open CyclicBuffer OutputQueue

variable {S β γ : Type}

/-- `R target written s` says that `written` has been delivered and the rest of `target` can be:
the next block of `b` elements is taken and keeps it so. -/
def OutputQueue.Accepts (out : OutputQueue S γ) (b : Nat) (R : List γ → List γ → S → Prop) :
    Prop :=
  ∀ target written s block, b ∣ written.length → block.length = b →
    written ++ block <+: target → R target written s →
    wp (out.put b block) (fun _ t => R target (written ++ block) t) (fun _ _ => False) s

theorem PeerState.beginWrite_waits {q : PeerState β} {count : Nat}
    (h : q.queue.available < count) : q.next (.beginWrite count) = none := by
  rw [PeerState.next, FixedMemoryQueue.beginWrite, if_pos h]
  rfl

theorem PeerState.beginRead_waits {q : PeerState β} {count : Nat} (h : q.queue.size < count) :
    q.next (.beginRead count) = none := by
  rw [PeerState.next, FixedMemoryQueue.beginRead, if_pos h]
  rfl

/-- A queue to which `written` has been committed in blocks of `bw` elements, and whose reader
takes blocks of `b`. -/
structure Level (capacity bw b : Nat) (written : List β) (q : PeerState β) : Prop where
  peers : PeerInv q
  mEnd : q.queue.mEnd = capacity
  committed : q.committed = written
  first_dvd : bw ∣ q.queue.mFirst
  written_dvd : bw ∣ written.length
  last_dvd : b ∣ q.queue.mLast
  released_dvd : b ∣ q.released.length

namespace Level

variable {capacity bw b : Nat} {written : List β} {q q' : PeerState β}

theorem start (memory : Nat → β) (capacity bw b : Nat) :
    Level capacity bw b [] (.start memory capacity) where
  peers := .start memory capacity
  mEnd := rfl
  committed := rfl
  first_dvd := Nat.dvd_zero _
  written_dvd := Nat.dvd_zero _
  last_dvd := Nat.dvd_zero _
  released_dvd := Nat.dvd_zero _

theorem size_le (h : Level capacity bw b written q) : q.queue.mSize ≤ capacity := by
  have := h.peers.wellFormed.size_le
  rwa [h.mEnd] at this

private theorem written_length (h : Level capacity bw b written q) :
    written.length = q.released.length + q.queue.mSize := by
  rw [← h.committed, h.peers.fifo, List.length_append, FixedMemoryQueue.content_length]

private theorem room (h : Level capacity bw b written q) (hcap : 1 ≤ capacity) (hbw : bw ∣ capacity)
    (hb : b ∣ capacity) (hdrained : q.queue.mSize < b) : bw ≤ q.queue.available := by
  have hroom := block_room_or_content hcap hbw hb h.written_dvd h.released_dvd h.written_length
    h.size_le
  rw [FixedMemoryQueue.available, FixedMemoryQueue.capacity, h.mEnd]
  exact hroom.resolve_right (Nat.not_le_of_lt hdrained)

theorem beginWrite (h : Level capacity bw b written q) {count : Nat}
    (hroom : count ≤ q.queue.available) :
    ∃ q', q.next (.beginWrite count) = some q' ∧
      q' = { q with write := ⟨q.queue.mFirst, q.queue.writeRun, 0⟩ } ∧
      Level capacity bw b written q' := by
  have hgrant : q.queue.beginWrite count = some (q.queue.mFirst, q.queue.writeRun) :=
    FixedMemoryQueue.beginWrite_eq_some.mpr ⟨hroom, rfl, rfl⟩
  have hnext : q.next (.beginWrite count) =
      some { q with write := ⟨q.queue.mFirst, q.queue.writeRun, 0⟩ } := by
    rw [PeerState.next, hgrant]
    rfl
  exact ⟨_, hnext, rfl, { h with peers := h.peers.beginWrite hnext }⟩

private theorem store (h : Level capacity bw b written q) {i : Nat} {v : β}
    (hg : q.WithinGrants (.store i v)) :
    Level capacity bw b written (q.act (.store i v)) :=
  { h with peers := h.peers.store hg rfl }

private theorem endWrite (h : Level capacity bw b written q) {count : Nat} (hcount : bw ∣ count)
    (hg : q.WithinGrants (.endWrite count)) :
    Level capacity bw b (written ++ straight q.queue.mBuff q.queue.mFirst count)
      (q.act (.endWrite count)) where
  peers := h.peers.endWrite hg rfl
  mEnd := h.mEnd
  committed := congrArg (· ++ straight q.queue.mBuff q.queue.mFirst count) h.committed
  first_dvd := FixedMemoryQueue.dvd_increment h.first_dvd hcount
  written_dvd := by
    rw [List.length_append, straight_length]
    exact Nat.dvd_add h.written_dvd hcount
  last_dvd := h.last_dvd
  released_dvd := h.released_dvd

theorem beginRead (h : Level capacity bw b written q) {count : Nat}
    (hcount : count ≤ q.queue.mSize) :
    ∃ q', q.next (.beginRead count) = some q' ∧
      q' = { q with read := ⟨q.queue.mLast, q.queue.readRun, 0⟩ } ∧
      Level capacity bw b written q' := by
  have hgrant : q.queue.beginRead count = some (q.queue.mLast, q.queue.readRun) :=
    FixedMemoryQueue.beginRead_eq_some.mpr ⟨hcount, rfl, rfl⟩
  have hnext : q.next (.beginRead count) =
      some { q with read := ⟨q.queue.mLast, q.queue.readRun, 0⟩ } := by
    rw [PeerState.next, hgrant]
    rfl
  exact ⟨_, hnext, rfl, { h with peers := h.peers.beginRead hnext }⟩

theorem endRead (h : Level capacity bw b written q) (hg : q.WithinGrants (.endRead b)) :
    Level capacity bw b written (q.act (.endRead b)) where
  peers := h.peers.endRead hg rfl
  mEnd := h.mEnd
  committed := h.committed
  first_dvd := h.first_dvd
  written_dvd := h.written_dvd
  last_dvd := FixedMemoryQueue.dvd_increment h.last_dvd (Nat.dvd_refl b)
  released_dvd := by
    change b ∣ (q.released ++ straight _ _ _).length
    rw [List.length_append, straight_length]
    exact Nat.dvd_add h.released_dvd (Nat.dvd_refl b)

private theorem block_written (h : Level capacity bw b written q) (hrun : b ≤ q.queue.readRun) :
    q.released ++ straight q.queue.mBuff q.queue.mLast b <+: written := by
  rw [← h.committed, h.peers.fifo, ← h.peers.content_take hrun]
  exact (List.prefix_append_right_inj _).mpr (List.take_prefix _ _)

private theorem image_eq (h : Level capacity bw b written q) (hb : 0 < b)
    (hdrained : q.queue.mSize < b)
    (f : List β → List γ) : blockwise b f q.released = blockwise b f written := by
  have hrest : blockwise b f q.queue.content = [] := by
    rw [blockwise, FixedMemoryQueue.content_length, Nat.div_eq_of_lt hdrained]
    rfl
  rw [← h.committed, h.peers.fifo, blockwise_append hb f h.released_dvd, hrest, List.append_nil]

end Level

/-- The stores of a list of elements from index `i` on. -/
def PeerState.storeFrom (q : PeerState β) : Nat → List β → PeerState β
  | _, [] => q
  | i, v :: vs => (q.act (.store i v)).storeFrom (i + 1) vs

/-- The stores of a block through a fresh grant stand behind `m_first`, one after the other. -/
theorem PeerInv.storeFrom {q : PeerState β} (hq : PeerInv q) (hdone : q.write.done = 0) {i : Nat}
    {block : List β} (hfit : i + block.length ≤ q.write.count) :
    ∃ mem stored,
      q.storeFrom i block = { q with queue := { q.queue with mBuff := mem }, stored := stored } ∧
      PeerInv { q with queue := { q.queue with mBuff := mem }, stored := stored } ∧
      straight mem q.queue.mFirst (i + block.length) =
        straight q.queue.mBuff q.queue.mFirst i ++ block := by
  induction block generalizing q i with
  | nil => exact ⟨q.queue.mBuff, q.stored, rfl, hq, (List.append_nil _).symm⟩
  | cons v vs ih =>
    rw [List.length_cons] at hfit
    have hg : q.WithinGrants (.store i v) := by
      change q.write.done ≤ i ∧ i < q.write.count
      omega
    obtain ⟨hslot, -⟩ := hq.write_slot hg.1 hg.2
    rw [hdone, Nat.sub_zero] at hslot
    have hq' := hq.store hg rfl
    have hfit' : i + 1 + vs.length ≤ (q.act (.store i v)).write.count := by
      change i + 1 + vs.length ≤ q.write.count
      omega
    obtain ⟨mem, stored, heq, hinv, hmem⟩ := ih hq' hdone hfit'
    refine ⟨mem, stored, heq, hinv, ?_⟩
    have hlen : i + (v :: vs).length = i + 1 + vs.length := by rw [List.length_cons]; omega
    rw [hlen]
    refine hmem.trans ?_
    change straight (Function.update q.queue.mBuff (q.write.buffer + i) v) q.queue.mFirst (i + 1) ++
      vs = _
    rw [hslot, straight_update, ← List.append_cons]

/-- A granted block that is stored and committed extends what has been written. -/
theorem Level.putBlock {capacity bw b : Nat} {written : List β} {q q' : PeerState β}
    (h : Level capacity bw b written q) (hbw : bw ∣ capacity)
    (hnext : q.next (.beginWrite bw) = some q') {block : List β} (hblock : block.length = bw) :
    Level capacity bw b (written ++ block)
        ((q'.storeFrom 0 block).act (.endWrite bw)) ∧
      ((q'.storeFrom 0 block).act (.endWrite bw)).queue.mSize = q.queue.mSize + bw ∧
      ((q'.storeFrom 0 block).act (.endWrite bw)).released = q.released := by
  obtain ⟨g, hgrant, -⟩ := Option.map_eq_some_iff.mp hnext
  obtain ⟨hroom, -⟩ := FixedMemoryQueue.beginWrite_eq_some.mp hgrant
  obtain ⟨q'', hnext', rfl, hbegin⟩ := h.beginWrite hroom
  obtain rfl := Option.some.inj (hnext'.symm.trans hnext)
  have hrun := h.peers.wellFormed.block_le_writeRun h.first_dvd (h.mEnd ▸ hbw) hroom
  have hfit : 0 + block.length ≤ q.queue.writeRun := by omega
  obtain ⟨mem, stored, hstores, hinv, hmem⟩ := hbegin.peers.storeFrom rfl hfit
  have hwrote : straight mem q.queue.mFirst bw = block := by
    rw [Nat.zero_add, hblock] at hmem
    exact hmem
  have hstored : Level capacity bw b written _ := { hbegin with peers := hinv }
  have hg : 0 + bw ≤ q.queue.writeRun := by omega
  have hend := hstored.endWrite (Nat.dvd_refl bw) hg
  change Level _ _ _ (written ++ straight mem q.queue.mFirst bw) _ at hend
  rw [hwrote] at hend
  rw [hstores]
  exact ⟨hend, rfl, rfl⟩

private theorem cooperativeQueue_storeFrom {turns : Nat} {processor : StaticProcessor β γ}
    {out : OutputQueue S γ} (i : Nat) (block : List β) (q : PeerState β) (s : S) :
    (cooperativeQueue turns processor out).storeFrom i block (q, s) =
      (q.storeFrom i block, s) := by
  induction block generalizing q i with
  | nil => rfl
  | cons v vs ih => exact ih (i + 1) _

/-- `process_one` returns once its input holds less than a block; what it has taken from there, it
has delivered. -/
theorem processOne_spec {out : OutputQueue S γ} {processor : StaticProcessor β γ}
    {R : List γ → List γ → S → Prop} (hout : out.Accepts processor.blocksize R)
    {capacity bw : Nat} (hb : processor.blocksize ∣ capacity) {target written : List β}
    (htarget : written <+: target) (turns : Nat) {q : PeerState β} {s : S}
    (h : Level capacity bw processor.blocksize written q) (hturns : q.queue.mSize < turns)
    (hR : R (blockwise processor.blocksize processor.processBlock target)
      (blockwise processor.blocksize processor.processBlock q.released) s) :
    wp (processOne processor out turns)
      (fun _ t => Level capacity bw processor.blocksize written t.1 ∧
        t.1.queue.mSize < processor.blocksize ∧
        R (blockwise processor.blocksize processor.processBlock target)
          (blockwise processor.blocksize processor.processBlock t.1.released) t.2)
      (fun _ _ => False) (q, s) := by
  induction turns generalizing q s with
  | zero => exact absurd hturns (Nat.not_lt_zero _)
  | succ turns ih =>
    obtain ⟨q', hnext, rfl, hread⟩ := h.beginRead (Nat.zero_le _)
    rw [processOne, wp_bind, wp_get]
    dsimp only
    rw [hnext]
    dsimp only
    rw [wp_bind, wp_set, wp_ite]
    by_cases hsmall : q.queue.readRun < processor.blocksize
    · rw [if_pos hsmall, wp_pure]
      refine ⟨hread, ?_, hR⟩
      by_contra hfull
      have hrun := h.peers.wellFormed.block_le_readRun h.last_dvd (h.mEnd ▸ hb)
        (Nat.le_of_not_lt hfull)
      omega
    · have hrun : processor.blocksize ≤ q.queue.readRun := Nat.le_of_not_lt hsmall
      have hpos := processor.blocksize_pos
      have hblock := straight_length q.queue.mBuff q.queue.mLast processor.blocksize
      have himage := blockwise_append_block hpos processor.processBlock h.released_dvd hblock
      have hdvd : processor.blocksize ∣
          (blockwise processor.blocksize processor.processBlock q.released).length := by
        rw [blockwise_length processor.processBlock_length h.released_dvd]
        exact h.released_dvd
      have hfits : blockwise processor.blocksize processor.processBlock q.released ++
          processor.processBlock (straight q.queue.mBuff q.queue.mLast processor.blocksize) <+:
            blockwise processor.blocksize processor.processBlock target := by
        rw [← himage]
        exact blockwise_mono _ _ ((h.block_written hrun).trans htarget)
      have hput := hout _ _ s _ hdvd (processor.processBlock_length _ hblock) hfits hR
      rw [if_neg hsmall, wp_bind, wp_onSecond]
      refine hput.mono ?_ fun _ _ he => he
      rintro _ t ht
      rw [← himage] at ht
      rw [wp_bind, wp_modify]
      have hg : PeerState.WithinGrants { q with read := ⟨q.queue.mLast, q.queue.readRun, 0⟩ }
          (.endRead processor.blocksize) := by
        change 0 + processor.blocksize ≤ q.queue.readRun
        omega
      refine ih (hread.endRead hg) ?_ ht
      change q.queue.mSize - processor.blocksize < turns
      have := h.peers.wellFormed.readRun_le
      omega

private theorem cooperativeBeginWrite_spec {downstream : CooperativeM (PeerState β × S) Unit}
    {countMin turns : Nat} (hturns : 0 < turns) {q q' : PeerState β} {s : S}
    (hnext : q.next (.beginWrite countMin) = some q')
    {Q : Nat → PeerState β × S → Prop} {E : CooperativeStop → PeerState β × S → Prop}
    (hQ : Q q'.write.count (q', s)) :
    wp (cooperativeBeginWrite downstream countMin turns) Q E (q, s) := by
  obtain ⟨turns, rfl⟩ := Nat.exists_eq_add_one_of_ne_zero (Nat.ne_of_gt hturns)
  rw [cooperativeBeginWrite, wp_bind, wp_get]
  dsimp only
  rw [hnext]
  dsimp only
  rw [wp_bind, wp_set, wp_pure]
  exact hQ

private theorem cooperativeQueue_accepts {out : OutputQueue S γ} {processor : StaticProcessor β γ}
    {R : List γ → List γ → S → Prop} (hout : out.Accepts processor.blocksize R)
    {capacity bw turns : Nat} (hcap : 1 ≤ capacity) (hbw : bw ∣ capacity)
    (hb : processor.blocksize ∣ capacity) (hturns : capacity < turns) :
    (cooperativeQueue turns processor out).Accepts bw fun target written s =>
      Level capacity bw processor.blocksize written s.1 ∧
      s.1.queue.mSize < processor.blocksize ∧
      R (blockwise processor.blocksize processor.processBlock target)
        (blockwise processor.blocksize processor.processBlock s.1.released) s.2 := by
  rintro target written ⟨q, s⟩ block hwritten hblock htarget ⟨h, hdrained, hR⟩
  dsimp only at h hdrained hR
  have hroom := h.room hcap hbw hb hdrained
  obtain ⟨q', hnext, -⟩ := h.beginWrite hroom
  obtain ⟨hend, -, hreleased⟩ := h.putBlock hbw hnext hblock
  rw [OutputQueue.put, wp_bind]
  apply cooperativeBeginWrite_spec (Nat.zero_lt_of_lt hturns) hnext
  rw [wp_bind, wp_modify, cooperativeQueue_storeFrom]
  change wp (modify _ >>= fun _ => processOne processor out turns) _ _ _
  rw [wp_bind, wp_modify]
  exact processOne_spec hout hb htarget turns hend
    (Nat.lt_of_le_of_lt hend.size_le hturns) (hreleased ▸ hR)

namespace Chain

variable {S₀ γ₀ : Type}

/-- `written` has passed through the whole chain, up to incomplete blocks, and the sink can take
the image of the rest of `target`. -/
def Holds (R : List γ₀ → List γ₀ → S₀ → Prop) :
    {S β : Type} → Chain S₀ γ₀ S β → Nat → List β → List β → S → Prop
  | _, _, .sink, _, target, written, s => R target written s
  | _, _, .stage capacity processor rest, bw, target, written, s =>
      Level capacity bw processor.blocksize written s.1 ∧
      s.1.queue.mSize < processor.blocksize ∧
      rest.Holds R processor.blocksize
        (blockwise processor.blocksize processor.processBlock target)
        (blockwise processor.blocksize processor.processBlock s.1.released) s.2

variable {R R' : List γ₀ → List γ₀ → S₀ → Prop} {c : Chain S₀ γ₀ S β} {bw turns : Nat}
  {target target' written : List β} {s : S}

theorem accepts {sink : OutputQueue S₀ γ₀} (hsink : sink.Accepts (c.sinkBlock bw) R)
    (hdivides : c.Divides bw) (hbelow : c.Below turns) :
    (c.queue turns sink).Accepts bw (c.Holds R bw) := by
  induction c generalizing bw with
  | sink => exact hsink
  | stage capacity processor rest ih =>
    obtain ⟨hcap, hbw, hb, hrest⟩ := hdivides
    exact cooperativeQueue_accepts (ih hsink hrest hbelow.2) hcap hbw hb hbelow.1

private theorem Holds.drained (h : c.Holds R bw target written s) : c.Drained s := by
  induction c generalizing bw with
  | sink => trivial
  | stage capacity processor rest ih => exact ⟨h.2.1, ih h.2.2⟩

theorem Holds.sinkState (h : c.Holds R bw target written s) :
    R (c.image target) (c.image written) (c.sinkState s) := by
  induction c generalizing bw with
  | sink => exact h
  | stage capacity processor rest ih =>
    obtain ⟨hlevel, hdrained, hrest⟩ := h
    rw [hlevel.image_eq processor.blocksize_pos hdrained] at hrest
    exact ih hrest

theorem Holds.mapSink (h : c.Holds R bw target written s) {f : S₀ → S₀}
    (hsink : R' (c.image target') (c.image written) (f (c.sinkState s))) :
    c.Holds R' bw target' written (c.mapSink f s) := by
  induction c generalizing bw with
  | sink => exact hsink
  | stage capacity processor rest ih =>
    obtain ⟨hlevel, hdrained, hrest⟩ := h
    refine ⟨hlevel, hdrained, ?_⟩
    have himage := hlevel.image_eq processor.blocksize_pos hdrained processor.processBlock
    rw [himage] at hrest
    change rest.Holds R' _ _ (blockwise _ _ s.1.released) _
    rw [himage]
    exact ih hrest hsink

private theorem mapSink_id (s : S) : c.mapSink id s = s := by
  induction c with
  | sink => rfl
  | stage capacity processor rest ih => exact Prod.ext rfl (ih s.2)

private theorem Holds.of_sink (h : c.Holds R bw target written s)
    (hsink : R' (c.image target') (c.image written) (c.sinkState s)) :
    c.Holds R' bw target' written s := by
  have hsame := h.mapSink (f := id) hsink
  rwa [mapSink_id] at hsame

theorem image_nil : c.image [] = [] := by
  induction c with
  | sink => rfl
  | stage capacity processor rest ih => rw [image, blockwise_nil, ih]

theorem Fresh.holds {init : S₀ → Prop} (h : c.Fresh init s)
    (hinit : ∀ s₀, init s₀ → R (c.image target) [] s₀) : c.Holds R bw target [] s := by
  induction c generalizing bw with
  | sink => exact hinit _ h
  | stage capacity processor rest ih =>
    obtain ⟨⟨memory, hq⟩, hrest⟩ := h
    rw [Holds, hq]
    refine ⟨.start memory capacity bw _, processor.blocksize_pos, ?_⟩
    change rest.Holds R _ _ (blockwise _ _ []) _
    rw [blockwise_nil]
    exact ih hrest hinit

end Chain

/-- What the owner of the head queue does. -/
inductive HeadCall (β : Type)
  | beginWrite (countMin : Nat)
  | store (i : Nat) (v : β)
  | endWrite (count : Nat)

/-- The calls on a head queue of the given capacity whose reader takes blocks of `b` elements. No
more is asked of `begin_write` than an incomplete block leaves free, and stores and `end_write`
keep to the grant. -/
def HeadCall.Allowed (capacity b : Nat) (s : PeerState β × S) : HeadCall β → Prop
  | .beginWrite countMin => countMin + b ≤ capacity + 1
  | .store i v => s.1.WithinGrants (.store i v)
  | .endWrite count => s.1.WithinGrants (.endWrite count)

/-- The state after a call that returns. -/
def HeadCall.next (head : OutputQueue (PeerState β × S) β) (s : PeerState β × S) :
    HeadCall β → Option (PeerState β × S)
  | .beginWrite countMin =>
      match head.beginWrite countMin s with
      | .ok _ t => some t
      | .error _ _ => none
  | .store i v => some (head.store i v s)
  | .endWrite count =>
      match head.endWrite count s with
      | .ok _ t => some t
      | .error _ _ => none

/-- All sequences of calls on the head of a new chain with at least one stage. -/
def headCalls {S₀ γ₀ : Type} (sink : OutputQueue S₀ γ₀) (init : S₀ → Prop) (turns capacity : Nat)
    (processor : StaticProcessor β γ) (rest : Chain S₀ γ₀ S γ) :
    TransitionSystem (PeerState β × S) (HeadCall β) :=
  .ofNext ((Chain.stage capacity processor rest).Fresh init)
    (HeadCall.Allowed capacity processor.blocksize)
    (HeadCall.next ((Chain.stage capacity processor rest).queue turns sink))

/-- A sink that takes every block of `b` elements: once it is ready it stays so. -/
def OutputQueue.AlwaysGrants (out : OutputQueue S γ) (ready : S → Prop) (received : S → List γ)
    (b : Nat) : Prop :=
  ∀ s block, ready s → block.length = b →
    wp (out.put b block) (fun _ t => ready t ∧ received t = received s ++ block)
      (fun _ _ => False) s

section HeadCalls

variable {S₀ γ₀ : Type} {sink : OutputQueue S₀ γ₀} {ready : S₀ → Prop}
  {received : S₀ → List γ₀} {capacity turns : Nat} {processor : StaticProcessor β γ}
  {rest : Chain S₀ γ₀ S γ}

/-- Everything that was written is in the chain or has been received, in order. -/
def Delivered (ready : S₀ → Prop) (received : S₀ → List γ₀) (_ written : List γ₀) (s : S₀) :
    Prop :=
  ready s ∧ received s = written

private theorem OutputQueue.AlwaysGrants.accepts {b : Nat}
    (h : sink.AlwaysGrants ready received b) :
    sink.Accepts b (Delivered ready received) := by
  rintro target written s block - hblock - ⟨hready, hreceived⟩
  refine (h s block hready hblock).mono ?_ fun _ _ he => he
  rintro _ t ⟨ht, hmore⟩
  exact ⟨ht, by rw [hmore, hreceived]⟩

/-- Every call on a drained chain returns and drains it again. -/
theorem HeadCall.returns
    (hrest : (rest.queue turns sink).Accepts processor.blocksize
      (rest.Holds (Delivered ready received) processor.blocksize))
    (hb : processor.blocksize ∣ capacity) (hturns : capacity < turns) {s : PeerState β × S}
    {target written : List β}
    (h : (Chain.stage capacity processor rest).Holds (Delivered ready received) 1 target written s)
    {a : HeadCall β} (ha : a.Allowed capacity processor.blocksize s) :
    ∃ t written', a.next ((Chain.stage capacity processor rest).queue turns sink) s = some t ∧
      (Chain.stage capacity processor rest).Holds (Delivered ready received) 1 written' written'
        t := by
  have hfree : (Chain.stage capacity processor rest).Holds (Delivered ready received) 1 written
    written s := h.of_sink h.sinkState
  obtain ⟨q, u⟩ := s
  obtain ⟨hlevel, hdrained, hR⟩ := hfree
  dsimp only at hlevel hdrained hR
  cases a with
  | beginWrite countMin =>
    have hroom : countMin ≤ q.queue.available := by
      rw [FixedMemoryQueue.available, FixedMemoryQueue.capacity, hlevel.mEnd]
      change countMin + processor.blocksize ≤ capacity + 1 at ha
      change countMin ≤ capacity - q.queue.mSize
      omega
    obtain ⟨q', hnext, hq', hlevel'⟩ := hlevel.beginWrite hroom
    have hcall : wp (((Chain.stage capacity processor rest).queue turns sink).beginWrite countMin)
        (fun _ t => t = (q', u)) (fun _ _ => False) (q, u) :=
      cooperativeBeginWrite_spec (Nat.zero_lt_of_lt hturns) hnext rfl
    obtain ⟨r, t, heq, rfl⟩ := hcall.returns
    refine ⟨(q', u), written, by rw [HeadCall.next, heq], hlevel', ?_⟩
    subst hq'
    exact ⟨hdrained, hR⟩
  | store i v => exact ⟨(q.act (.store i v), u), written, rfl, hlevel.store ha, hdrained, hR⟩
  | endWrite count =>
    have hend := hlevel.endWrite (Nat.one_dvd count) ha
    have hgoal := processOne_spec (R := rest.Holds (Delivered ready received) processor.blocksize)
      hrest hb (List.prefix_refl _) turns hend (Nat.lt_of_le_of_lt hend.size_le hturns)
      (hR.of_sink hR.sinkState)
    have hcall : wp (((Chain.stage capacity processor rest).queue turns sink).endWrite count) _ _
        (q, u) := wp_bind.mpr ((wp_modify _).mpr hgoal)
    obtain ⟨r, t, heq, hlevel', hdrained', hR'⟩ := hcall.returns
    refine ⟨t, _, ?_, hlevel', hdrained', hR'⟩
    rw [HeadCall.next, heq]

theorem headCalls_holds {sink : OutputQueue S₀ γ₀} {ready : S₀ → Prop} {received : S₀ → List γ₀}
    {turns capacity : Nat} {processor : StaticProcessor β γ} {rest : Chain S₀ γ₀ S γ}
    (hsink : sink.AlwaysGrants ready received (rest.sinkBlock processor.blocksize))
    (hb : processor.blocksize ∣ capacity) (hrest : rest.Divides processor.blocksize)
    (hturns : (Chain.stage capacity processor rest).Below turns) {s : PeerState β × S}
    (h : (headCalls sink (fun s₀ => ready s₀ ∧ received s₀ = []) turns capacity processor
      rest).Reachable s) :
    ∃ target written, (Chain.stage capacity processor rest).Holds (Delivered ready received) 1
      target written s := by
  have haccepts := Chain.accepts hsink.accepts hrest hturns.2
  apply h.invariant (I := fun s => ∃ target written,
    (Chain.stage capacity processor rest).Holds (Delivered ready received) 1 target written s)
  · intro s hfresh
    exact ⟨[], [], hfresh.holds fun _ hinit => hinit⟩
  · rintro s a t ⟨target, written, hs⟩ ⟨hallowed, hnext⟩
    obtain ⟨t', written', hnext', ht⟩ := HeadCall.returns haccepts hb hturns.1 hs hallowed
    obtain rfl := Option.some.inj (hnext'.symm.trans hnext)
    exact ⟨_, _, ht⟩

/-- Every call on the head of a chain returns, leaves every queue with less than a block, and the
sink has received the composed image of everything that was committed to the head. -/
theorem cooperative_chain_composes (sink : OutputQueue S₀ γ₀) (ready : S₀ → Prop)
    (received : S₀ → List γ₀) (turns capacity : Nat) (processor : StaticProcessor β γ)
    (rest : Chain S₀ γ₀ S γ)
    (hsink : sink.AlwaysGrants ready received (rest.sinkBlock processor.blocksize))
    (hb : processor.blocksize ∣ capacity) (hrest : rest.Divides processor.blocksize)
    (hturns : (Chain.stage capacity processor rest).Below turns) (s : PeerState β × S)
    (h : (headCalls sink (fun s₀ => ready s₀ ∧ received s₀ = []) turns capacity processor
      rest).Reachable s) :
    (Chain.stage capacity processor rest).Drained s ∧
    received ((Chain.stage capacity processor rest).sinkState s) =
      (Chain.stage capacity processor rest).image s.1.committed ∧
    ∀ a : HeadCall β, a.Allowed capacity processor.blocksize s →
      ∃ t, a.next ((Chain.stage capacity processor rest).queue turns sink) s = some t := by
  have haccepts := Chain.accepts hsink.accepts hrest hturns.2
  obtain ⟨target, written, hs⟩ := headCalls_holds hsink hb hrest hturns h
  refine ⟨hs.drained, ?_, ?_⟩
  · rw [hs.1.committed]
    exact hs.sinkState.2
  · intro a ha
    obtain ⟨t, -, hnext, -⟩ := HeadCall.returns haccepts hb hturns.1 hs ha
    exact ⟨t, hnext⟩

end HeadCalls

/-- `process_block_add_one` on single elements. -/
def addOne : StaticProcessor Nat Nat where
  blocksize := 1
  processBlock := List.map (· + 1)
  blocksize_pos := Nat.one_pos
  processBlock_length _ h := by rw [List.length_map, h]

/-- A sink that is never full: what it has received, and the memory it hands out. -/
def logSink : OutputQueue (List Nat × (Nat → Nat)) Nat where
  beginWrite countMin := pure countMin
  store i v s := (s.1, Function.update s.2 i v)
  endWrite count := modify fun s => (s.1 ++ straight s.2 0 count, s.2)

theorem logSink_grants : logSink.AlwaysGrants (fun _ => True) Prod.fst 1 := by
  rintro ⟨log, mem⟩ block - hblock
  obtain ⟨v, rfl⟩ := List.length_eq_one_iff.mp hblock
  rw [OutputQueue.put, wp_bind]
  change wp (pure 1 : CooperativeM (List Nat × (Nat → Nat)) Nat) _ _ _
  rw [wp_pure, wp_bind, wp_modify]
  change wp (modify _ : CooperativeM (List Nat × (Nat → Nat)) Unit) _ _ _
  rw [wp_modify]
  refine ⟨trivial, ?_⟩
  change log ++ [Function.update mem 0 v 0] = log ++ [v]
  rw [Function.update_self]

instance (capacity b : Nat) (s : PeerState β × S) (a : HeadCall β) :
    Decidable (a.Allowed capacity b s) := by
  cases a <;> unfold HeadCall.Allowed <;> infer_instance

/-- Two `AddOne` processes with an inner queue of the given capacity. -/
def addTwoHead (turns innerCapacity : Nat) :
    OutputQueue (PeerState Nat × PeerState Nat × List Nat × (Nat → Nat)) Nat :=
  (Chain.stage 1 addOne (.stage innerCapacity addOne .sink)).queue turns logSink

def addTwoStart (innerCapacity : Nat) : PeerState Nat × PeerState Nat × List Nat × (Nat → Nat) :=
  (.start (fun _ => 0) 1, .start (fun _ => 0) innerCapacity, [], fun _ => 0)

/-- `push_one(50)` -/
def pushFifty : List (HeadCall Nat) := [.beginWrite 1, .store 0 50, .endWrite 1]

def addTwoPushed : PeerState Nat × PeerState Nat × List Nat × (Nat → Nat) :=
  (TransitionSystem.exec (HeadCall.Allowed 1 1) (HeadCall.next (addTwoHead 2 1)) (addTwoStart 1)
    pushFifty).get (by decide +kernel)

theorem cooperative_chain_composes_addTwo :
    (Chain.stage 1 addOne (.stage 1 addOne .sink)).Drained addTwoPushed ∧
    addTwoPushed.2.2.1 =
      (Chain.stage 1 addOne (.stage 1 addOne .sink) : Chain (List Nat × (Nat → Nat)) Nat _ _).image
        addTwoPushed.1.committed ∧
    ∀ a : HeadCall Nat, a.Allowed 1 1 addTwoPushed →
      ∃ t, a.next (addTwoHead 2 1) addTwoPushed = some t :=
  cooperative_chain_composes logSink (fun _ => True) Prod.fst 2 1 addOne (.stage 1 addOne .sink)
    logSink_grants (Nat.dvd_refl 1) ⟨Nat.le_refl 1, Nat.dvd_refl 1, Nat.dvd_refl 1, trivial⟩
    ⟨by decide, by decide, trivial⟩ addTwoPushed
    (.run (.init ⟨⟨_, rfl⟩, ⟨_, rfl⟩, trivial, rfl⟩)
      (TransitionSystem.run_of_exec (Option.some_get _).symm))

example : addTwoPushed.1.committed = [50] ∧ addTwoPushed.2.2.1 = [52] := by decide +kernel

/-- A queue without elements has nothing for its process and no room for its writer: `begin_write`
runs the process again and again. -/
theorem cooperativeBeginWrite_empty {out : OutputQueue S γ} {processor : StaticProcessor β γ}
    (turns : Nat) {countMin : Nat} (hcount : 0 < countMin) (rounds : Nat) {q : PeerState β} {s : S}
    (hq : Level 0 1 processor.blocksize [] q) :
    wp (cooperativeBeginWrite (processOne processor out turns) countMin rounds)
      (fun _ _ => False) (fun _ _ => True) (q, s) := by
  induction rounds generalizing q with
  | zero => exact (wp_throw _).mpr trivial
  | succ rounds ih =>
    have hsize : q.queue.mSize = 0 := Nat.le_zero.mp hq.size_le
    have hnone : q.next (.beginWrite countMin) = none := by
      apply PeerState.beginWrite_waits
      rw [FixedMemoryQueue.available, FixedMemoryQueue.capacity, hq.mEnd]
      omega
    rw [cooperativeBeginWrite, wp_bind, wp_get]
    dsimp only
    rw [hnone]
    dsimp only
    rw [wp_bind]
    cases turns with
    | zero => exact (wp_throw _).mpr trivial
    | succ turns =>
      obtain ⟨q', hnext, rfl, hread⟩ := hq.beginRead (Nat.zero_le _)
      have hrun : q.queue.readRun < processor.blocksize := by
        have := hq.peers.wellFormed.readRun_le
        have := processor.blocksize_pos
        omega
      rw [processOne, wp_bind, wp_get]
      dsimp only
      rw [hnext]
      dsimp only
      rw [wp_bind, wp_set, wp_ite, if_pos hrun, wp_pure]
      exact ih hread

private theorem processOne_stuck {out : OutputQueue S γ} {processor : StaticProcessor β γ} {s : S}
    (hput : ∀ block, wp (out.put processor.blocksize block) (fun _ _ => False)
      (fun _ _ => True) s) (turns : Nat) {q q' : PeerState β}
    (hnext : q.next (.beginRead 0) = some q') (hfull : ¬ q'.read.count < processor.blocksize) :
    wp (processOne processor out turns) (fun _ _ => False) (fun _ _ => True) (q, s) := by
  cases turns with
  | zero => exact (wp_throw _).mpr trivial
  | succ turns =>
    rw [processOne, wp_bind, wp_get]
    dsimp only
    rw [hnext]
    dsimp only
    rw [wp_bind, wp_set, wp_ite, if_neg hfull, wp_bind, wp_onSecond]
    exact (hput _).mono (fun _ _ h => h.elim) fun _ _ h => h

private theorem addTwo_stuck (turns : Nat) {q q' : PeerState Nat}
    (hnext : (q.act (.endWrite 1)).next (.beginRead 0) = some q') (hfull : ¬ q'.read.count < 1) :
    HeadCall.next (addTwoHead turns 0) (q, (addTwoStart 0).2) (.endWrite 1) = none := by
  have hinner (block : List Nat) : wp
      (((Chain.stage 0 addOne .sink).queue turns logSink).put 1 block)
      (fun _ _ => False) (fun _ _ => True) (addTwoStart 0).2 := by
    rw [OutputQueue.put, wp_bind]
    exact (cooperativeBeginWrite_empty _ Nat.one_pos _ (.start _ 0 1 _)).mono
      (fun _ _ h => h.elim) fun _ _ h => h
  have hcall : wp ((addTwoHead turns 0).endWrite 1) (fun _ _ => False) (fun _ _ => True)
      (q, (addTwoStart 0).2) :=
    wp_bind.mpr ((wp_modify _).mpr (processOne_stuck hinner turns hnext hfull))
  obtain ⟨e, t, heq, -⟩ := hcall.stops
  rw [HeadCall.next, heq]

/-- Every block size divides a capacity of zero. With an inner queue of that capacity the first
`push_one` does not return, however many turns its loops are given. -/
theorem cooperative_chain_empty_queue :
    1 ∣ 0 ∧ logSink.AlwaysGrants (fun _ => True) Prod.fst 1 ∧
    ∀ turns, ∃ s, (headCalls logSink (fun s₀ => True ∧ s₀.1 = []) (turns + 1) 1 addOne
        (.stage 0 addOne .sink)).Reachable s ∧
      HeadCall.Allowed 1 1 s (.endWrite 1) ∧
      HeadCall.next (addTwoHead (turns + 1) 0) s (.endWrite 1) = none := by
  refine ⟨by decide, logSink_grants, fun turns => ?_⟩
  have hstart : (headCalls logSink (fun s₀ => True ∧ s₀.1 = []) (turns + 1) 1 addOne
      (.stage 0 addOne .sink)).Reachable (addTwoStart 0) :=
    .init ⟨⟨_, rfl⟩, ⟨_, rfl⟩, trivial, rfl⟩
  have hgrant := hstart.step (a := HeadCall.beginWrite 1) ⟨show 1 + 1 ≤ 1 + 1 by decide, rfl⟩
  have hstored := hgrant.step (a := HeadCall.store 0 50)
    ⟨show 0 ≤ 0 ∧ 0 < 1 by decide, rfl⟩
  refine ⟨_, hstored, show 0 + 1 ≤ 1 by decide, ?_⟩
  exact addTwo_stuck (turns + 1) rfl (by decide)

end Dyplo
