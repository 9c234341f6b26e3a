import Dyplo.Library.Lockstep
import Dyplo.Queue.SingleElementQueue
import Dyplo.Scheduler.PthreadScheduler

/-!
# A single element two ways

`SingleElementQueue` keeps a flag where `FixedMemoryQueue` keeps two pointers and a count. With
room for one element nobody who keeps to the grants can tell them apart.
-/

namespace Dyplo

/-- The locked bodies of a queue template, and what its pointers point to. A wait has no result;
the other bodies say which conditions they trigger. -/
structure QueueTemplate (Q P α : Type*) where
  clear : Q → Q
  size : Q → Nat
  available : Q → Nat
  empty : Q → Bool
  full : Q → Bool
  beginWrite : Q → Nat → Option (Option P × Nat)
  endWrite : Q → Nat → Q × List Condition
  beginRead : Q → Nat → Option (Option P × Nat)
  endRead : Q → Nat → Q × List Condition
  store : Q → P → α → Q
  load : Q → P → α

def FixedMemoryQueue.template (α : Type*) : QueueTemplate (FixedMemoryQueue α) Nat α where
  clear := clear
  size := size
  available := available
  empty := empty
  full := full
  beginWrite q countMin := (q.beginWrite countMin).map fun g => (some g.1, g.2)
  endWrite q count := (q.endWrite count, [.notEmpty])
  beginRead q countMin := (q.beginRead countMin).map fun g => (some g.1, g.2)
  endRead q count := (q.endRead count, [.notFull])
  store := store
  load q buffer := q.mBuff buffer

/-- The only pointer is to `m_buffer`, and a count of 0 comes without one. -/
def SingleElementQueue.template (α : Type*) : QueueTemplate (SingleElementQueue α) Unit α where
  clear := clear
  size := size
  available := available
  empty := empty
  full := full
  beginWrite q countMin :=
    (q.beginWrite countMin).map fun count => (if count = 0 then none else some (), count)
  endWrite q count :=
    match q.endWrite count with
    | some q => (q, [.notEmpty])
    | none => (q, [])
  beginRead q countMin :=
    (q.beginRead countMin).map fun count => (if count = 0 then none else some (), count)
  endRead q count :=
    match q.endRead count with
    | some q => (q, [.notFull])
    | none => (q, [])
  store q _ v := { q with mBuffer := v }
  load q _ := q.mBuffer

inductive ElementCall (α : Type*)
  | beginWrite (countMin : Nat)
  /-- A store through the pointer that `begin_write` has handed out. -/
  | store (v : α)
  | endWrite (count : Nat)
  | beginRead (countMin : Nat)
  /-- A load through the pointer that `begin_read` has handed out. -/
  | load
  | endRead (count : Nat)
  | pushOne (data : α)
  | popOne
  | clear
  | waitEmpty

inductive CallResult (α : Type*)
  | returns
  | count (n : Nat)
  | element (v : Option α)
  /-- The call waits for the condition, or the scheduler throws. -/
  | waits (c : Condition)

/-- A result without its element. -/
def CallResult.shape {α : Type*} : CallResult α → CallResult Unit
  | returns => .returns
  | count n => .count n
  | element v => .element (v.map fun _ => ())
  | waits c => .waits c

/-- A queue and its peers: the pointers they have, what is left of their grants, and whether any
element has been stored so far. -/
structure Session (Q P : Type*) where
  queue : Q
  writeBuffer : Option P
  writeLeft : Nat
  readBuffer : Option P
  readLeft : Nat
  stored : Bool

/-- What can be seen of a call: its result, how many elements it has committed or released, what
it has triggered, and the state it leaves. -/
structure Observed (α : Type*) where
  result : CallResult α
  moved : Nat
  triggers : List Condition
  size : Nat
  available : Nat
  empty : Bool
  full : Bool
  stored : Bool

variable {Q P α : Type*}

namespace Session

variable (T : QueueTemplate Q P α)

/-- Both peers before their first call. -/
def start (q : Q) : Session Q P := ⟨q, none, 0, none, 0, false⟩

/-- The observation of a call that ends in this state. -/
def observe (s : Session Q P) (result : CallResult α) (moved : Nat) (triggers : List Condition) :
    Session Q P × Observed α :=
  (s, ⟨result, moved, triggers, T.size s.queue, T.available s.queue, T.empty s.queue,
    T.full s.queue, s.stored⟩)

/-- A store of the writer, who has a pointer. -/
def storeElement (s : Session Q P) (v : α) : Session Q P :=
  match s.writeBuffer with
  | some p => { s with queue := T.store s.queue p v, stored := true }
  | none => s

/-- What the reader's pointer points to. -/
def loadElement (s : Session Q P) : Option α := s.readBuffer.map (T.load s.queue)

/-- The writer's new grant. -/
def grantWrite (s : Session Q P) (g : Option P × Nat) : Session Q P :=
  { s with writeBuffer := g.1, writeLeft := g.2 }

def grantRead (s : Session Q P) (g : Option P × Nat) : Session Q P :=
  { s with readBuffer := g.1, readLeft := g.2 }

def commit (s : Session Q P) (count : Nat) : Session Q P :=
  { s with queue := (T.endWrite s.queue count).1, writeLeft := s.writeLeft - count }

def release (s : Session Q P) (count : Nat) : Session Q P :=
  { s with queue := (T.endRead s.queue count).1, readLeft := s.readLeft - count }

/-- The calls on a queue. `clear` takes the content back from a reader. -/
def call (s : Session Q P) : ElementCall α → Session Q P × Observed α
  | .beginWrite countMin =>
      match T.beginWrite s.queue countMin with
      | none => s.observe T (.waits .notFull) 0 []
      | some g => (s.grantWrite g).observe T (.count g.2) 0 []
  | .store v => (s.storeElement T v).observe T .returns 0 []
  | .endWrite count =>
      (s.commit T count).observe T .returns count (T.endWrite s.queue count).2
  | .beginRead countMin =>
      match T.beginRead s.queue countMin with
      | none => s.observe T (.waits .notEmpty) 0 []
      | some g => (s.grantRead g).observe T (.count g.2) 0 []
  | .load => s.observe T (.element (s.loadElement T)) 0 []
  | .endRead count =>
      (s.release T count).observe T .returns count (T.endRead s.queue count).2
  | .pushOne data =>
      match T.beginWrite s.queue 1 with
      | none => s.observe T (.waits .notFull) 0 []
      | some g =>
          let s := (s.grantWrite g).storeElement T data
          (s.commit T 1).observe T .returns 1 (T.endWrite s.queue 1).2
  | .popOne =>
      match T.beginRead s.queue 1 with
      | none => s.observe T (.waits .notEmpty) 0 []
      | some g =>
          let s := s.grantRead g
          let result := s.loadElement T
          (s.release T 1).observe T (.element result) 1 (T.endRead s.queue 1).2
  | .clear => { s with queue := T.clear s.queue, readLeft := 0 }.observe T .returns 0 []
  | .waitEmpty =>
      if T.empty s.queue then s.observe T .returns 0 [] else s.observe T (.waits .notFull) 0 []

private theorem storeElement_writeLeft (s : Session Q P) (v : α) :
    (s.storeElement T v).writeLeft = s.writeLeft := by
  unfold storeElement
  split <;> rfl

/-- The calls that keep to the grants and ask for one element at most. -/
def WithinGrants (s : Session Q P) : ElementCall α → Prop
  | .beginWrite countMin => countMin ≤ 1
  | .store _ => 0 < s.writeLeft
  | .endWrite count => count ≤ s.writeLeft
  | .beginRead countMin => countMin ≤ 1
  | .load => 0 < s.readLeft
  | .endRead count => count ≤ s.readLeft
  | _ => True

instance (s : Session Q P) (a : ElementCall α) : Decidable (s.WithinGrants a) := by
  cases a <;> unfold WithinGrants <;> infer_instance

end Session

/-- The same content twice. The element slots agree where they are `known` to. -/
structure SameContent (known : Prop) (q : FixedMemoryQueue α) (r : SingleElementQueue α) :
    Prop where
  mEnd : q.mEnd = 1
  mFirst : q.mFirst = 0
  mLast : q.mLast = 0
  mSize : q.mSize = r.size
  element : known → q.mBuff 0 = r.mBuffer

namespace SameContent

variable {known : Prop} {q : FixedMemoryQueue α} {r : SingleElementQueue α}

private theorem size_le (_ : SameContent known q r) : r.size ≤ 1 := by
  unfold SingleElementQueue.size
  split <;> omega

private theorem beginWrite (h : SameContent known q r) {countMin : Nat} (hcount : countMin ≤ 1) :
    q.beginWrite countMin = (r.beginWrite countMin).map fun count => (0, count) := by
  obtain ⟨hend, hfirst, hlast, hsize, -⟩ := h
  unfold FixedMemoryQueue.beginWrite FixedMemoryQueue.writeRun FixedMemoryQueue.available
    FixedMemoryQueue.capacity FixedMemoryQueue.size SingleElementQueue.beginWrite
  rw [hend, hfirst, hlast, hsize, SingleElementQueue.size]
  obtain rfl | rfl : countMin = 0 ∨ countMin = 1 := by omega
  · cases r.mFull <;> rfl
  · cases r.mFull <;> rfl

private theorem beginRead (h : SameContent known q r) {countMin : Nat} (hcount : countMin ≤ 1) :
    q.beginRead countMin = (r.beginRead countMin).map fun count => (0, count) := by
  obtain ⟨hend, hfirst, hlast, hsize, -⟩ := h
  unfold FixedMemoryQueue.beginRead FixedMemoryQueue.readRun FixedMemoryQueue.size
    SingleElementQueue.beginRead
  rw [hend, hfirst, hlast, hsize, SingleElementQueue.size]
  obtain rfl | rfl : countMin = 0 ∨ countMin = 1 := by omega
  · cases r.mFull <;> rfl
  · cases r.mFull <;> rfl

private theorem endWrite (h : SameContent known q r) {count : Nat} (hcount : count + r.size ≤ 1) :
    SameContent known (q.endWrite count) ((SingleElementQueue.template α).endWrite r count).1 ∧
      ((SingleElementQueue.template α).endWrite r count).1.size = count + r.size ∧
      (count ≠ 0 → ((SingleElementQueue.template α).endWrite r count).2 = [.notEmpty]) := by
  obtain ⟨hend, hfirst, hlast, hsize, helement⟩ := h
  obtain rfl | rfl : count = 0 ∨ count = 1 := by omega
  · refine ⟨⟨hend, ?_, hlast, hsize, helement⟩, (Nat.zero_add _).symm, fun h => absurd rfl h⟩
    rw [FixedMemoryQueue.endWrite, FixedMemoryQueue.increment, hfirst, hend]
    rfl
  · refine ⟨⟨hend, ?_, hlast, ?_, helement⟩, ?_, fun _ => rfl⟩
    · rw [FixedMemoryQueue.endWrite, FixedMemoryQueue.increment, hfirst, hend]
      rfl
    · change q.mSize + 1 = 1
      omega
    · change 1 = 1 + r.size
      omega

private theorem endRead (h : SameContent known q r) {count : Nat} (hcount : count ≤ r.size) :
    SameContent known (q.endRead count) ((SingleElementQueue.template α).endRead r count).1 ∧
      ((SingleElementQueue.template α).endRead r count).1.size = r.size - count ∧
      (count ≠ 0 → ((SingleElementQueue.template α).endRead r count).2 = [.notFull]) := by
  have hle := h.size_le
  obtain ⟨hend, hfirst, hlast, hsize, helement⟩ := h
  obtain rfl | rfl : count = 0 ∨ count = 1 := by omega
  · refine ⟨⟨hend, hfirst, ?_, hsize, helement⟩, rfl, fun h => absurd rfl h⟩
    rw [FixedMemoryQueue.endRead, FixedMemoryQueue.increment, hlast, hend]
    rfl
  · refine ⟨⟨hend, hfirst, ?_, ?_, helement⟩, ?_, fun _ => rfl⟩
    · rw [FixedMemoryQueue.endRead, FixedMemoryQueue.increment, hlast, hend]
      rfl
    · change q.mSize - 1 = 0
      omega
    · change 0 = r.size - 1
      omega

private theorem store (h : SameContent known q r) (v : α) :
    SameContent True (q.store 0 v) { r with mBuffer := v } :=
  ⟨h.mEnd, h.mFirst, h.mLast, h.mSize, fun _ => by
    simp [FixedMemoryQueue.store]⟩

private theorem clear (h : SameContent known q r) : SameContent known q.clear r.clear :=
  ⟨h.mEnd, rfl, rfl, rfl, h.element⟩

private theorem mono {known' : Prop} (h : SameContent known q r) (hknown : known' → known) :
    SameContent known' q r :=
  ⟨h.mEnd, h.mFirst, h.mLast, h.mSize, fun hk => h.element (hknown hk)⟩

private theorem beginWrite_le {countMin count : Nat} (h : r.beginWrite countMin = some count) :
    count + r.size ≤ 1 := by
  unfold SingleElementQueue.beginWrite at h
  unfold SingleElementQueue.size
  split_ifs at h ⊢ <;> cases h <;> omega

private theorem beginRead_le {countMin count : Nat} (h : r.beginRead countMin = some count) :
    count ≤ r.size := by
  unfold SingleElementQueue.beginRead at h
  unfold SingleElementQueue.size
  split_ifs at h ⊢ <;> cases h <;> omega

end SameContent

/-- What is observed of the two queues, of which `same` says whether their memory was the same
to begin with. Otherwise an element that nobody has ever stored may be anything. Committing and
releasing nothing is no reason to trigger, but it does no harm. -/
structure Observed.Agree (same : Prop) (o o' : Observed α) : Prop where
  shape : o.result.shape = o'.result.shape
  element : o'.stored = true ∨ same → o.result = o'.result
  moved : o.moved = o'.moved
  triggers : o'.moved ≠ 0 → o.triggers = o'.triggers
  size : o.size = o'.size
  available : o.available = o'.available
  empty : o.empty = o'.empty
  full : o.full = o'.full
  stored : o.stored = o'.stored

/-- A session on `FixedMemoryQueue` beside one on `SingleElementQueue`. -/
structure SameSession (same : Prop) (s : Session (FixedMemoryQueue α) Nat)
    (t : Session (SingleElementQueue α) Unit) : Prop where
  content : SameContent (t.stored = true ∨ same) s.queue t.queue
  writeLeft : s.writeLeft = t.writeLeft
  readLeft : s.readLeft = t.readLeft
  stored : s.stored = t.stored
  room : t.writeLeft + t.queue.size ≤ 1
  held : t.readLeft ≤ t.queue.size
  writeBuffer : 0 < t.writeLeft → s.writeBuffer = some 0 ∧ t.writeBuffer = some ()
  readBuffer : 0 < t.readLeft → s.readBuffer = some 0 ∧ t.readBuffer = some ()

namespace SameSession

variable {same : Prop} {s : Session (FixedMemoryQueue α) Nat}
  {t : Session (SingleElementQueue α) Unit}

private theorem agree (h : SameSession same s t) {result result' : CallResult α} {moved : Nat}
    {triggers triggers' : List Condition} (hshape : result.shape = result'.shape)
    (helement : t.stored = true ∨ same → result = result')
    (htriggers : moved ≠ 0 → triggers = triggers') :
    Observed.Agree same
      (s.observe (FixedMemoryQueue.template α) result moved triggers).2
      (t.observe (SingleElementQueue.template α) result' moved triggers').2 := by
  obtain ⟨hend, -, -, hsize, -⟩ := h.content
  refine ⟨hshape, helement, rfl, htriggers, hsize, ?_, ?_, ?_, h.stored⟩
  · change s.queue.mEnd - s.queue.mSize = 1 - t.queue.size
    rw [hend, hsize]
  · change (s.queue.mSize == 0) = !t.queue.mFull
    rw [hsize, SingleElementQueue.size]
    cases t.queue.mFull <;> rfl
  · change (s.queue.mSize == s.queue.mEnd) = t.queue.mFull
    rw [hsize, hend, SingleElementQueue.size]
    cases t.queue.mFull <;> rfl

private theorem grantWrite (h : SameSession same s t) {countMin count : Nat}
    (hcount : t.queue.beginWrite countMin = some count) :
    SameSession same (s.grantWrite (some 0, count))
      (t.grantWrite (if count = 0 then none else some (), count)) where
  content := h.content
  writeLeft := rfl
  readLeft := h.readLeft
  stored := h.stored
  room := SameContent.beginWrite_le hcount
  held := h.held
  writeBuffer := by
    intro hpos
    exact ⟨rfl, if_neg (Nat.pos_iff_ne_zero.mp hpos)⟩
  readBuffer := h.readBuffer

private theorem grantRead (h : SameSession same s t) {countMin count : Nat}
    (hcount : t.queue.beginRead countMin = some count) :
    SameSession same (s.grantRead (some 0, count))
      (t.grantRead (if count = 0 then none else some (), count)) where
  content := h.content
  writeLeft := h.writeLeft
  readLeft := rfl
  stored := h.stored
  room := h.room
  held := SameContent.beginRead_le hcount
  writeBuffer := h.writeBuffer
  readBuffer := by
    intro hpos
    exact ⟨rfl, if_neg (Nat.pos_iff_ne_zero.mp hpos)⟩

private theorem storeElement (h : SameSession same s t) (v : α) (hpos : 0 < t.writeLeft) :
    SameSession same (s.storeElement (FixedMemoryQueue.template α) v)
      (t.storeElement (SingleElementQueue.template α) v) := by
  obtain ⟨hs, ht⟩ := h.writeBuffer hpos
  rw [Session.storeElement, Session.storeElement, hs, ht]
  exact { h with
    content := (h.content.store v).mono fun _ => trivial
    stored := rfl
    writeBuffer := fun _ => ⟨rfl, rfl⟩ }

private theorem loadElement_eq (h : SameSession same s t) (hpos : 0 < t.readLeft) :
    s.loadElement (FixedMemoryQueue.template α) = some (s.queue.mBuff 0) ∧
      t.loadElement (SingleElementQueue.template α) = some t.queue.mBuffer := by
  obtain ⟨hs, ht⟩ := h.readBuffer hpos
  rw [Session.loadElement, Session.loadElement, hs, ht]
  exact ⟨rfl, rfl⟩

private theorem commit (h : SameSession same s t) {count : Nat} (hcount : count ≤ t.writeLeft) :
    SameSession same (s.commit (FixedMemoryQueue.template α) count)
        (t.commit (SingleElementQueue.template α) count) ∧
      (count ≠ 0 → ((SingleElementQueue.template α).endWrite t.queue count).2 = [.notEmpty]) := by
  have hroom := h.room
  have hheld := h.held
  obtain ⟨hcontent, hsize, htrigger⟩ := h.content.endWrite (show count + t.queue.size ≤ 1 by omega)
  refine ⟨{ h with content := hcontent, writeLeft := ?_, room := ?_, held := ?_,
                   writeBuffer := ?_ }, htrigger⟩
  · rw [Session.commit, Session.commit, h.writeLeft]
  · change t.writeLeft - count + ((SingleElementQueue.template α).endWrite t.queue count).1.size ≤ 1
    omega
  · change t.readLeft ≤ ((SingleElementQueue.template α).endWrite t.queue count).1.size
    omega
  · intro hpos
    change 0 < t.writeLeft - count at hpos
    exact h.writeBuffer (by omega)

private theorem release (h : SameSession same s t) {count : Nat} (hcount : count ≤ t.readLeft) :
    SameSession same (s.release (FixedMemoryQueue.template α) count)
        (t.release (SingleElementQueue.template α) count) ∧
      (count ≠ 0 → ((SingleElementQueue.template α).endRead t.queue count).2 = [.notFull]) := by
  have hroom := h.room
  have hheld := h.held
  obtain ⟨hcontent, hsize, htrigger⟩ := h.content.endRead (show count ≤ _ by omega)
  refine ⟨{ h with content := hcontent, readLeft := ?_, room := ?_, held := ?_,
                   readBuffer := ?_ }, htrigger⟩
  · rw [Session.release, Session.release, h.readLeft]
  · change t.writeLeft + ((SingleElementQueue.template α).endRead t.queue count).1.size ≤ 1
    omega
  · change t.readLeft - count ≤ ((SingleElementQueue.template α).endRead t.queue count).1.size
    omega
  · intro hpos
    change 0 < t.readLeft - count at hpos
    exact h.readBuffer (by omega)

private theorem withinGrants_iff (h : SameSession same s t) (a : ElementCall α) :
    s.WithinGrants a ↔ t.WithinGrants a := by
  cases a <;> simp only [Session.WithinGrants, h.writeLeft, h.readLeft]

/-- The observations of one call agree, and the sessions it leaves go on in the same way. -/
def Together (same : Prop)
    (x : Session (FixedMemoryQueue α) Nat × Observed α)
    (y : Session (SingleElementQueue α) Unit × Observed α) : Prop :=
  Observed.Agree same x.2 y.2 ∧ SameSession same x.1 y.1

private theorem together (h : SameSession same s t) (result : CallResult α) {moved : Nat}
    {triggers triggers' : List Condition} (htriggers : moved ≠ 0 → triggers = triggers') :
    Together same (s.observe (FixedMemoryQueue.template α) result moved triggers)
      (t.observe (SingleElementQueue.template α) result moved triggers') :=
  ⟨h.agree rfl (fun _ => rfl) htriggers, h⟩

private theorem call_beginWrite (h : SameSession same s t) {countMin : Nat}
    (hcount : countMin ≤ 1) :
    Together same (s.call (FixedMemoryQueue.template α) (.beginWrite countMin))
      (t.call (SingleElementQueue.template α) (.beginWrite countMin)) := by
  simp only [Session.call, FixedMemoryQueue.template, SingleElementQueue.template,
    h.content.beginWrite hcount]
  cases hr : t.queue.beginWrite countMin with
  | none => exact h.together _ fun _ => rfl
  | some count => exact (h.grantWrite hr).together _ fun _ => rfl

private theorem call_beginRead (h : SameSession same s t) {countMin : Nat} (hcount : countMin ≤ 1) :
    Together same (s.call (FixedMemoryQueue.template α) (.beginRead countMin))
      (t.call (SingleElementQueue.template α) (.beginRead countMin)) := by
  simp only [Session.call, FixedMemoryQueue.template, SingleElementQueue.template,
    h.content.beginRead hcount]
  cases hr : t.queue.beginRead countMin with
  | none => exact h.together _ fun _ => rfl
  | some count => exact (h.grantRead hr).together _ fun _ => rfl

private theorem call_endWrite (h : SameSession same s t) {count : Nat}
    (hcount : count ≤ t.writeLeft) :
    Together same (s.call (FixedMemoryQueue.template α) (.endWrite count))
      (t.call (SingleElementQueue.template α) (.endWrite count)) := by
  obtain ⟨hcommit, htrigger⟩ := h.commit hcount
  exact hcommit.together _ fun hmoved => (htrigger hmoved).symm

private theorem call_endRead (h : SameSession same s t) {count : Nat}
    (hcount : count ≤ t.readLeft) :
    Together same (s.call (FixedMemoryQueue.template α) (.endRead count))
      (t.call (SingleElementQueue.template α) (.endRead count)) := by
  obtain ⟨hrelease, htrigger⟩ := h.release hcount
  exact hrelease.together _ fun hmoved => (htrigger hmoved).symm

private theorem load_agrees (h : SameSession same s t) (hpos : 0 < t.readLeft) :
    (CallResult.element (s.loadElement (FixedMemoryQueue.template α))).shape =
        (CallResult.element (t.loadElement (SingleElementQueue.template α))).shape ∧
      (t.stored = true ∨ same →
        CallResult.element (s.loadElement (FixedMemoryQueue.template α)) =
          .element (t.loadElement (SingleElementQueue.template α))) := by
  obtain ⟨hs, ht⟩ := h.loadElement_eq hpos
  rw [hs, ht]
  exact ⟨rfl, fun hknown => by rw [h.content.element hknown]⟩

private theorem call_load (h : SameSession same s t) (hpos : 0 < t.readLeft) :
    Together same (s.call (FixedMemoryQueue.template α) .load)
      (t.call (SingleElementQueue.template α) .load) := by
  obtain ⟨hshape, helement⟩ := h.load_agrees hpos
  exact ⟨h.agree hshape helement fun _ => rfl, h⟩

private theorem call_pushOne (h : SameSession same s t) (data : α) :
    Together same (s.call (FixedMemoryQueue.template α) (.pushOne data))
      (t.call (SingleElementQueue.template α) (.pushOne data)) := by
  have hfixed : (FixedMemoryQueue.template α).beginWrite s.queue 1 =
      (t.queue.beginWrite 1).map fun count => (some 0, count) := by
    simp only [FixedMemoryQueue.template, h.content.beginWrite (Nat.le_refl 1), Option.map_map]
    rfl
  have hsingle : (SingleElementQueue.template α).beginWrite t.queue 1 =
      (t.queue.beginWrite 1).map fun count => (if count = 0 then none else some (), count) := rfl
  rw [Session.call, Session.call, hfixed, hsingle]
  cases hr : t.queue.beginWrite 1 with
  | none => exact h.together _ fun _ => rfl
  | some count =>
    have hone : 0 < count := by
      unfold SingleElementQueue.beginWrite at hr
      split_ifs at hr <;> cases hr <;> omega
    have hstored := (h.grantWrite hr).storeElement data hone
    have hleft : 1 ≤ ((t.grantWrite (if count = 0 then none else some (), count)).storeElement
        (SingleElementQueue.template α) data).writeLeft := by
      rw [Session.storeElement_writeLeft]
      exact hone
    obtain ⟨hcommit, htrigger⟩ := hstored.commit hleft
    exact hcommit.together _ fun hmoved => (htrigger hmoved).symm

private theorem call_popOne (h : SameSession same s t) :
    Together same (s.call (FixedMemoryQueue.template α) .popOne)
      (t.call (SingleElementQueue.template α) .popOne) := by
  have hfixed : (FixedMemoryQueue.template α).beginRead s.queue 1 =
      (t.queue.beginRead 1).map fun count => (some 0, count) := by
    simp only [FixedMemoryQueue.template, h.content.beginRead (Nat.le_refl 1), Option.map_map]
    rfl
  have hsingle : (SingleElementQueue.template α).beginRead t.queue 1 =
      (t.queue.beginRead 1).map fun count => (if count = 0 then none else some (), count) := rfl
  rw [Session.call, Session.call, hfixed, hsingle]
  cases hr : t.queue.beginRead 1 with
  | none => exact h.together _ fun _ => rfl
  | some count =>
    have hone : 0 < count := by
      unfold SingleElementQueue.beginRead at hr
      split_ifs at hr <;> cases hr <;> omega
    have hgranted := h.grantRead hr
    obtain ⟨hshape, helement⟩ := hgranted.load_agrees hone
    obtain ⟨hrelease, htrigger⟩ := hgranted.release (show 1 ≤ _ from hone)
    exact ⟨hrelease.agree hshape helement fun hmoved => (htrigger hmoved).symm, hrelease⟩

private theorem call_clear (h : SameSession same s t) :
    Together same (s.call (FixedMemoryQueue.template α) .clear)
      (t.call (SingleElementQueue.template α) .clear) := by
  have hroom := h.room
  have hcleared : SameSession same { s with queue := s.queue.clear, readLeft := 0 }
      { t with queue := t.queue.clear, readLeft := 0 } :=
    { h with
      content := h.content.clear
      readLeft := rfl
      room := by
        change t.writeLeft + 0 ≤ 1
        omega
      held := Nat.zero_le _
      readBuffer := fun hpos => absurd hpos (Nat.lt_irrefl 0) }
  exact hcleared.together _ fun _ => rfl

private theorem call_waitEmpty (h : SameSession same s t) :
    Together same (s.call (FixedMemoryQueue.template α) .waitEmpty)
      (t.call (SingleElementQueue.template α) .waitEmpty) := by
  have hagree : Observed.Agree same
      (s.observe (FixedMemoryQueue.template α) .returns 0 []).2
      (t.observe (SingleElementQueue.template α) .returns 0 []).2 :=
    h.agree rfl (fun _ => rfl) fun _ => rfl
  have hempty := hagree.empty
  change (FixedMemoryQueue.template α).empty s.queue = (SingleElementQueue.template α).empty t.queue
    at hempty
  rw [Session.call, Session.call, hempty]
  split
  · exact h.together _ fun _ => rfl
  · exact h.together _ fun _ => rfl

private theorem call (h : SameSession same s t) {a : ElementCall α} (ha : t.WithinGrants a) :
    Together same (s.call (FixedMemoryQueue.template α) a)
      (t.call (SingleElementQueue.template α) a) := by
  cases a with
  | beginWrite countMin => exact h.call_beginWrite ha
  | store v => exact (h.storeElement v ha).together _ fun _ => rfl
  | endWrite count => exact h.call_endWrite ha
  | beginRead countMin => exact h.call_beginRead ha
  | load => exact h.call_load ha
  | endRead count => exact h.call_endRead ha
  | pushOne data => exact h.call_pushOne data
  | popOne => exact h.call_popOne
  | clear => exact h.call_clear
  | waitEmpty => exact h.call_waitEmpty

private theorem start (memory : Nat → α) (buffer : α) :
    SameSession (memory 0 = buffer) (.start (.new memory 1)) (.start (.new buffer)) where
  content := ⟨rfl, rfl, rfl, rfl, fun hknown => hknown.resolve_left Bool.false_ne_true⟩
  writeLeft := rfl
  readLeft := rfl
  stored := rfl
  room := Nat.zero_le _
  held := Nat.zero_le _
  writeBuffer := fun hpos => absurd hpos (Nat.lt_irrefl 0)
  readBuffer := fun hpos => absurd hpos (Nat.lt_irrefl 0)

end SameSession

/-- A sequence of calls keeps to the grants of the one queue when it keeps to those of the
other, and then all that can be seen of the two queues is the same. -/
theorem singleElementQueue_lockstep (memory : Nat → α) (buffer : α)
    (calls : List (ElementCall α))
    (hcalls : Lockstep.Allowed Session.WithinGrants (Session.call (SingleElementQueue.template α))
      (.start (.new buffer)) calls) :
    Lockstep.Allowed Session.WithinGrants (Session.call (FixedMemoryQueue.template α))
      (.start (.new memory 1)) calls ∧
    List.Forall₂ (Observed.Agree (memory 0 = buffer))
      (Lockstep.trace (Session.call (FixedMemoryQueue.template α)) (.start (.new memory 1)) calls)
      (Lockstep.trace (Session.call (SingleElementQueue.template α)) (.start (.new buffer))
        calls) := by
  have hstart := SameSession.start memory buffer
  have hiff := Lockstep.allowed_iff (R := SameSession (memory 0 = buffer))
    (fun s t a h => h.withinGrants_iff a)
    (fun s t a h ha => (h.call ((h.withinGrants_iff a).mp ha)).2) hstart calls
  have hallowed := hiff.mpr hcalls
  refine ⟨hallowed, ?_⟩
  exact Lockstep.forall₂_trace (R := SameSession (memory 0 = buffer))
    (fun s t a h ha => (h.call ((h.withinGrants_iff a).mp ha)).1)
    (fun s t a h ha => (h.call ((h.withinGrants_iff a).mp ha)).2) hstart calls hallowed

/-- Polling calls, partial commits, and a writer that has to wait. -/
def pollingCalls : List (ElementCall Nat) :=
  [.beginRead 0, .popOne, .beginWrite 0, .store 7, .endWrite 0, .endWrite 1, .pushOne 8,
    .beginRead 1, .load, .endRead 1, .waitEmpty, .pushOne 9, .beginWrite 0, .clear, .popOne]

theorem singleElementQueue_lockstep_polling :
    Lockstep.Allowed Session.WithinGrants (Session.call (SingleElementQueue.template Nat))
      (.start (.new 0)) pollingCalls ∧
    List.Forall₂ (Observed.Agree False)
      (Lockstep.trace (Session.call (FixedMemoryQueue.template Nat))
        (.start (.new (fun _ => 1) 1)) pollingCalls)
      (Lockstep.trace (Session.call (SingleElementQueue.template Nat)) (.start (.new 0))
        pollingCalls) := by
  have hcalls : Lockstep.Allowed Session.WithinGrants
      (Session.call (SingleElementQueue.template Nat)) (.start (.new 0)) pollingCalls := by
    decide
  have hagree := (singleElementQueue_lockstep (fun _ => 1) 0 pollingCalls hcalls).2
  rw [eq_false Nat.one_ne_zero] at hagree
  exact ⟨hcalls, hagree⟩

end Dyplo
