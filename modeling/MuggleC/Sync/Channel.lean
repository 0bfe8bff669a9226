/- source: sync/channel.c
   digest: The channel, its calls by themselves and as threads of atomic steps. -/

import MuggleC.Base.Utils
import MuggleC.Foundation.Transition

set_option autoImplicit false

namespace MuggleC.Sync

open Base

inductive LockStatus
  | unlock
  | lock
  deriving DecidableEq, Repr

/-- The function that `fn_write` points to. -/
inductive ChannelWrite
  | singleWriter
  | futex
  | mutex
  deriving DecidableEq, Repr

inductive ChannelRead
  | busyLoop
  | futex
  deriving DecidableEq, Repr

/-- `muggle_channel_t`; the mutex belongs to the threads that use the channel. -/
structure Channel (D : Type) where
  capacity : BitVec 32
  flags : BitVec 32
  fnWrite : ChannelWrite
  fnRead : ChannelRead
  writeCursor : BitVec 32
  readCursor : BitVec 32
  writeFutex : LockStatus
  blocks : List D
  deriving DecidableEq, Repr

namespace Channel

variable {D : Type}

def flagSingleWriter : BitVec 32 := 0x01#32

def flagReadBusyLoop : BitVec 32 := 0x02#32

def flagWriteFutex : BitVec 32 := 0x04#32

def selectWrite (flags : BitVec 32) : ChannelWrite :=
  if flags &&& flagSingleWriter ≠ 0#32 then .singleWriter
  else if flags &&& flagWriteFutex ≠ 0#32 then .futex
  else .mutex

def selectRead (flags : BitVec 32) : ChannelRead :=
  if flags &&& flagReadBusyLoop ≠ 0#32 then .busyLoop else .futex

/-- `mutexInit` is what `muggle_mutex_init` returns and `malloc` tells whether the blocks could be
allocated. -/
def init (null : D) (capacity flags : BitVec 32) (mutexInit : Err) (malloc : Bool) :
    Except Err (Channel D) :=
  if capacity.toInt ≤ 0 then .error .invalidParam
  else
    let capacity := roundCapacity capacity
    if capacity.toInt ≤ 0 then .error .invalidParam
    else if mutexInit ≠ .ok then .error mutexInit
    else if malloc = false then .error .memAlloc
    else .ok {
      capacity := capacity
      flags := flags
      fnWrite := selectWrite flags
      fnRead := selectRead flags
      writeCursor := 0#32
      readCursor := capacity - 1#32
      writeFutex := .unlock
      blocks := List.replicate capacity.toNat null }

def fourBlocks (null : D) : Channel D :=
  ⟨4#32, 0#32, .mutex, .futex, 0#32, 3#32, .unlock, List.replicate 4 null⟩

def slot (chan : Channel D) (cursor : BitVec 32) : Nat :=
  (idxInPowOf2Ring cursor chan.capacity).toNat

def isFull (chan : Channel D) : Bool := chan.writeCursor + 1#32 == chan.readCursor

def storeBlock (chan : Channel D) (cursor : BitVec 32) (data : D) : Channel D :=
  { chan with blocks := chan.blocks.set (chan.slot cursor) data }

def storeCursor (chan : Channel D) (cursor : BitVec 32) : Channel D :=
  { chan with writeCursor := cursor }

def writeBody (chan : Channel D) (data : D) : Err × Channel D :=
  if chan.isFull then (.full, chan)
  else
    let chan := chan.storeBlock chan.writeCursor data
    (.ok, chan.storeCursor (chan.writeCursor + 1#32))

private theorem writeBody_fnWrite (chan : Channel D) (data : D) :
    (chan.writeBody data).2.fnWrite = chan.fnWrite := by
  unfold writeBody
  split <;> rfl

/-- A weak compare-exchange that fails spuriously leaves `expected` at `UNLOCK`, which ends the
loop; on a taken lock the call waits for another thread. -/
def lockWrite (chan : Channel D) (spurious : Bool) : Option (Channel D) :=
  match chan.writeFutex with
  | .lock => none
  | .unlock => if spurious then some chan else some { chan with writeFutex := .lock }

private theorem lockWrite_fnWrite {chan chan' : Channel D} {spurious : Bool}
    (h : chan.lockWrite spurious = some chan') : chan'.fnWrite = chan.fnWrite := by
  unfold lockWrite at h
  split at h
  · cases h
  · split at h <;> cases h <;> rfl

def unlockWrite (chan : Channel D) : Channel D := { chan with writeFutex := .unlock }

/-- `muggle_channel_write` with no other thread about. -/
def write (chan : Channel D) (data : D) (spurious : Bool) : Option (Err × Channel D) :=
  match chan.fnWrite with
  | .singleWriter => some (chan.writeBody data)
  | .mutex => some (chan.writeBody data)
  | .futex => (chan.lockWrite spurious).map fun chan =>
      let (ret, chan) := chan.writeBody data
      (ret, chan.unlockWrite)

/-- `muggle_channel_read` with no other thread about: without a visible message it never
returns. -/
def read (chan : Channel D) : Option (D × Channel D) :=
  let rPos := chan.slot (chan.readCursor + 1#32)
  if chan.slot chan.writeCursor ≠ rPos then
    (chan.blocks[rPos]?).map fun data =>
      (data, { chan with readCursor := chan.readCursor + 1#32 })
  else none

/-- One write is accepted and the next read returns its data. -/
def FirstMessageVisible (chan : Channel D) (data : D) (spurious : Bool) : Prop :=
  ∃ chan', chan.write data spurious = some (.ok, chan') ∧ (chan'.read).map Prod.fst = some data

structure Fresh (capacity : BitVec 32) (null : D) (flags : BitVec 32) (k : Nat)
    (chan : Channel D) : Prop where
  capacity_eq : chan.capacity.toNat = 2 ^ k
  le_capacity : capacity.toNat ≤ 2 ^ k
  capacity_lt : 2 ^ k < 2 * capacity.toNat
  requested : capacity.toInt = capacity.toNat
  below : k < 31
  fnWrite_eq : chan.fnWrite = selectWrite flags
  writeCursor_eq : chan.writeCursor = 0#32
  readCursor_eq : chan.readCursor = chan.capacity - 1#32
  unlocked : chan.writeFutex = .unlock
  blocks_eq : chan.blocks = List.replicate (2 ^ k) null

variable {chan : Channel D} {null : D} {capacity flags : BitVec 32} {k : Nat}

theorem init_fresh {mutexInit : Err} {malloc : Bool}
    (h : init null capacity flags mutexInit malloc = .ok chan) :
    ∃ k, Fresh capacity null flags k chan := by
  unfold init at h
  split at h
  · cases h
  · next hpos =>
    dsimp only at h
    split at h
    · cases h
    · next hround =>
      split at h
      · cases h
      · split at h
        · cases h
        · obtain rfl := Except.ok.inj h
          have hp : 0 < capacity.toInt := by omega
          obtain ⟨k, hk, hle, hup⟩ := roundCapacity_spec hp
          have hr := toNat_of_toInt_pos (x := roundCapacity capacity) (by omega)
          have hlt : 2 ^ k < 2 ^ 31 := by
            rw [← hk]
            exact hr.2.2
          have hbelow : k < 31 := (Nat.pow_lt_pow_iff_right (by omega)).mp hlt
          exact ⟨k, hk, hle, hup, (toNat_of_toInt_pos hp).1, hbelow, rfl, rfl, rfl, rfl, by rw [hk]⟩

theorem slot_ofNat (hk : chan.capacity.toNat = 2 ^ k) (n : Nat) :
    chan.slot (BitVec.ofNat 32 n) = n % 2 ^ k :=
  toNat_idxInPowOf2Ring hk n

private theorem write_of_unlocked (h : chan.writeFutex = .unlock) (data : D)
    (spurious : Bool) : chan.write data spurious = some (chan.writeBody data) := by
  rcases chan with ⟨capacity, flags, fnWrite, fnRead, writeCursor, readCursor, writeFutex, blocks⟩
  obtain rfl : writeFutex = .unlock := h
  cases fnWrite with
  | singleWriter => rfl
  | mutex => rfl
  | futex =>
    cases spurious with
    | true =>
      simp only [write, lockWrite, if_true, Option.map_some, writeBody]
      split <;> rfl
    | false =>
      by_cases hf : writeCursor + 1#32 = readCursor <;>
        simp [write, lockWrite, writeBody, isFull, hf, unlockWrite, storeBlock, storeCursor, slot]

theorem Fresh.isFull_iff (h : Fresh capacity null flags k chan) : chan.isFull = true ↔ k = 1 := by
  have hcap := h.capacity_eq
  rw [isFull, beq_iff_eq, h.writeCursor_eq, h.readCursor_eq, ← BitVec.toNat_inj,
    BitVec.toNat_sub, hcap]
  change 1 = (4294967296 - 1 + 2 ^ k) % 4294967296 ↔ k = 1
  constructor
  · intro he
    have htwo : 2 ^ k = 2 ^ 1 := by omega
    exact (Nat.pow_right_inj (by omega)).mp htwo
  · rintro rfl
    rfl

theorem Fresh.firstMessageVisible_iff (h : Fresh capacity null flags k chan) (data : D)
    (spurious : Bool) : chan.FirstMessageVisible data spurious ↔ 2 ≤ k := by
  have hcap := h.capacity_eq
  have hfull := h.isFull_iff
  have hfirst : chan.slot (chan.readCursor + 1#32) = 0 := by
    have hnext : chan.readCursor + 1#32 = BitVec.ofNat 32 (2 ^ k) := by
      rw [h.readCursor_eq, BitVec.sub_add_cancel, ← hcap, BitVec.ofNat_toNat, BitVec.setWidth_eq]
    rw [hnext, slot_ofNat hcap, Nat.mod_self]
  have hslot : chan.slot chan.writeCursor = 0 := by
    rw [h.writeCursor_eq]
    exact (slot_ofNat hcap 0).trans (Nat.zero_mod _)
  have hwritten : chan.slot (chan.writeCursor + 1#32) = 1 % 2 ^ k := by
    rw [h.writeCursor_eq]
    exact slot_ofNat hcap 1
  unfold FirstMessageVisible
  rw [write_of_unlocked h.unlocked]
  rcases Nat.lt_or_ge k 2 with hsmall | hlarge
  · refine ⟨?_, fun hk => absurd hk (by omega)⟩
    rintro ⟨chan', hw, hr⟩
    by_cases hk : k = 1
    · rw [writeBody, if_pos (hfull.mpr hk)] at hw
      cases hw
    · rw [writeBody, if_neg (fun hf => hk (hfull.mp hf))] at hw
      obtain rfl := (Prod.mk.inj (Option.some.inj hw)).2
      have hsame : chan.slot (chan.writeCursor + 1#32) = chan.slot (chan.readCursor + 1#32) := by
        rw [hwritten, hfirst, show k = 0 by omega, Nat.pow_zero, Nat.mod_one]
      change (if chan.slot (chan.writeCursor + 1#32) ≠ chan.slot (chan.readCursor + 1#32) then _
        else none).map Prod.fst = some data at hr
      rw [if_neg (not_not_intro hsame)] at hr
      cases hr
  · have hroom : ¬ chan.isFull = true := by
      intro hf
      have := hfull.mp hf
      omega
    refine ⟨fun _ => hlarge, fun _ => ⟨_, by rw [writeBody, if_neg hroom], ?_⟩⟩
    have hone : 1 < 2 ^ k := Nat.one_lt_two_pow (by omega)
    have hdiff : chan.slot (chan.writeCursor + 1#32) ≠ chan.slot (chan.readCursor + 1#32) := by
      rw [hwritten, hfirst, Nat.mod_eq_of_lt hone]
      decide
    change (if chan.slot (chan.writeCursor + 1#32) ≠ chan.slot (chan.readCursor + 1#32) then
      ((chan.blocks.set (chan.slot chan.writeCursor) data)[chan.slot (chan.readCursor + 1#32)]?).map
        _ else none).map Prod.fst = some data
    rw [if_pos hdiff, hfirst, hslot, List.getElem?_set_self, Option.map_some, Option.map_some]
    rw [h.blocks_eq, List.length_replicate]
    omega

end Channel

end MuggleC.Sync

/-! Each load and store of a shared field, each compare-exchange and each call into the mutex or the
futex is one step. The fields below `reader` record what has happened and are read by no step. -/

namespace MuggleC.Sync.ChannelSteps

open Base Foundation.Transition

/-- Where a thread stands inside `muggle_channel_write`. -/
inductive WriterPc (D : Type)
  | idle
  | lock (data : D)
  | futexWait (data : D)
  | loadWrite (data : D)
  | loadRead (data : D) (w : BitVec 32)
  | loadSlot (data : D)
  | storeBlock (data : D) (w : BitVec 32)
  | loadNext (data : D)
  | storeCursor (data : D) (w : BitVec 32)
  | unlock (data : D) (ret : Err)
  | wakeWriter (data : D) (ret : Err)
  | wake (data : D) (ret : Err)

inductive ReaderPc (D : Type)
  | idle
  | loadPos
  | load (rPos : Nat)
  | wait (rPos : Nat) (w : BitVec 32)
  | asleep (rPos : Nat)
  | fetch (rPos : Nat)
  | loadRead (data : D)
  | storeRead (data : D) (r : BitVec 32)

structure Accepted (ι D : Type) where
  writer : ι
  data : D
  before : BitVec 32
  after : BitVec 32
  slot : Option D

/-- A write that has returned: the unread messages at its full test and the number of its stores to
the blocks and to `write_cursor`. -/
structure Finished (ι D : Type) where
  writer : ι
  data : D
  ret : Err
  seen : Nat
  stores : Nat

structure State (ι D : Type) where
  chan : Channel D
  writeMutex : Option ι
  writer : ι → WriterPc D
  reader : ReaderPc D
  accepted : List (Accepted ι D)
  returned : List D
  finished : List (Finished ι D)
  seen : ι → Nat
  stores : ι → Nat

inductive Event (ι D : Type)
  | write (i : ι) (data : D)
  | writer (i : ι) (spurious : Bool)
  | read
  | reader
  | interrupt

namespace State

variable {ι D : Type} [DecidableEq ι]

def start (chan : Channel D) : State ι D :=
  ⟨chan, none, fun _ => .idle, .idle, [], [], [], fun _ => 0, fun _ => 0⟩

def goto (s : State ι D) (i : ι) (pc : WriterPc D) : State ι D :=
  { s with writer := Function.update s.writer i pc }

def unread (s : State ι D) : Nat := s.accepted.length - s.returned.length

def check (s : State ι D) (i : ι) : State ι D :=
  { s with seen := Function.update s.seen i s.unread }

def countStore (s : State ι D) (i : ι) : State ι D :=
  { s with stores := Function.update s.stores i (s.stores i + 1) }

def putBlock (s : State ι D) (i : ι) (w : BitVec 32) (data : D) : State ι D :=
  { s.countStore i with chan := s.chan.storeBlock w data }

def publish (s : State ι D) (i : ι) (w : BitVec 32) (data : D) : State ι D :=
  { s.countStore i with
    chan := s.chan.storeCursor (w + 1#32)
    accepted := s.accepted ++ [⟨i, data, s.chan.writeCursor, w + 1#32,
      s.chan.blocks[s.chan.slot s.chan.writeCursor]?⟩] }

def wakeReader (s : State ι D) : State ι D :=
  match s.chan.fnRead, s.reader with
  | .futex, .asleep rPos => { s with reader := .load rPos }
  | _, _ => s

def finish (s : State ι D) (i : ι) (data : D) (ret : Err) : State ι D :=
  { s with
    writer := Function.update s.writer i .idle
    finished := s.finished ++ [⟨i, data, ret, s.seen i, s.stores i⟩]
    stores := Function.update s.stores i 0 }

/-- The weak compare-exchange of `lock_write`: a spurious failure leaves `expected` at `UNLOCK` and
so ends the loop, a true failure leads to `futex_wait`. -/
def stepLockFutex (s : State ι D) (i : ι) (data : D) (spurious : Bool) : State ι D :=
  match s.chan.writeFutex with
  | .lock => s.goto i (.futexWait data)
  | .unlock =>
    if spurious then s.goto i (.loadWrite data)
    else { s with chan := { s.chan with writeFutex := .lock } }.goto i (.loadWrite data)

def stepLock (s : State ι D) (i : ι) (data : D) (spurious : Bool) : Option (State ι D) :=
  match s.chan.fnWrite with
  | .singleWriter => some (s.goto i (.loadWrite data))
  | .mutex =>
    if s.writeMutex.isNone then
      some ({ s with writeMutex := some i }.goto i (.loadWrite data))
    else none
  | .futex => some (s.stepLockFutex i data spurious)

def stepUnlock (s : State ι D) (i : ι) (data : D) (ret : Err) : State ι D :=
  match s.chan.fnWrite with
  | .singleWriter => s.goto i (.wake data ret)
  | .mutex => { s with writeMutex := none }.goto i (.wake data ret)
  | .futex => { s with chan := s.chan.unlockWrite }.goto i (.wakeWriter data ret)

/-- The next step of a writer. `futex_wait` may return at any time, so a waiting writer can always
try again. -/
def stepWriter (s : State ι D) (i : ι) (spurious : Bool) : Option (State ι D) :=
  match s.writer i with
  | .idle => none
  | .lock data => s.stepLock i data spurious
  | .futexWait data => some (s.goto i (.lock data))
  | .loadWrite data => some (s.goto i (.loadRead data s.chan.writeCursor))
  | .loadRead data w =>
    if w + 1#32 = s.chan.readCursor then some ((s.check i).goto i (.unlock data .full))
    else some ((s.check i).goto i (.loadSlot data))
  | .loadSlot data => some (s.goto i (.storeBlock data s.chan.writeCursor))
  | .storeBlock data w => some ((s.putBlock i w data).goto i (.loadNext data))
  | .loadNext data => some (s.goto i (.storeCursor data s.chan.writeCursor))
  | .storeCursor data w => some ((s.publish i w data).goto i (.unlock data .ok))
  | .unlock data ret => some (s.stepUnlock i data ret)
  | .wakeWriter data ret => some (s.goto i (.wake data ret))
  | .wake data ret =>
    some ((if ret = .ok then s.wakeReader else s).finish i data ret)

/-- The next step of the reader. `futex_wait` sleeps only while the cursor still has the value that
was loaded, and the busy loop yields instead. -/
def stepReader (s : State ι D) : Option (State ι D) :=
  match s.reader with
  | .idle => none
  | .loadPos => some { s with reader := .load (s.chan.slot (s.chan.readCursor + 1#32)) }
  | .load rPos =>
    if s.chan.slot s.chan.writeCursor ≠ rPos then some { s with reader := .fetch rPos }
    else some { s with reader := .wait rPos s.chan.writeCursor }
  | .wait rPos w =>
    if s.chan.fnRead = .futex ∧ s.chan.writeCursor = w then
      some { s with reader := .asleep rPos }
    else some { s with reader := .load rPos }
  | .asleep _ => none
  | .fetch rPos => (s.chan.blocks[rPos]?).map fun data => { s with reader := .loadRead data }
  | .loadRead data => some { s with reader := .storeRead data s.chan.readCursor }
  | .storeRead data r => some { s with
      chan := { s.chan with readCursor := r + 1#32 }
      reader := .idle
      returned := s.returned ++ [data] }

def step (s : State ι D) : Event ι D → Option (State ι D)
  | .write i data =>
    match s.writer i with
    | .idle => some (s.goto i (.lock data))
    | _ => none
  | .writer i spurious => s.stepWriter i spurious
  | .read =>
    match s.reader with
    | .idle => some { s with reader := .loadPos }
    | _ => none
  | .reader => s.stepReader
  | .interrupt =>
    match s.reader with
    | .asleep rPos => some { s with reader := .load rPos }
    | _ => none

end State

open State

variable {ι D : Type} [DecidableEq ι]

inductive Move (s : State ι D) (i : ι) (spurious : Bool) : State ι D → Prop
  | enterSingle {data : D} (hpc : s.writer i = .lock data)
      (hmode : s.chan.fnWrite = .singleWriter) : Move s i spurious (s.goto i (.loadWrite data))
  | enterMutex {data : D} (hpc : s.writer i = .lock data) (hmode : s.chan.fnWrite = .mutex)
      (hfree : s.writeMutex = none) :
      Move s i spurious ({ s with writeMutex := some i }.goto i (.loadWrite data))
  | enterFutex {data : D} (hpc : s.writer i = .lock data) (hmode : s.chan.fnWrite = .futex)
      (hfree : s.chan.writeFutex = .unlock) (hcas : spurious = false) :
      Move s i spurious
        ({ s with chan := { s.chan with writeFutex := .lock } }.goto i (.loadWrite data))
  | passFutex {data : D} (hpc : s.writer i = .lock data) (hmode : s.chan.fnWrite = .futex)
      (hfree : s.chan.writeFutex = .unlock) (hcas : spurious = true) :
      Move s i spurious (s.goto i (.loadWrite data))
  | busyFutex {data : D} (hpc : s.writer i = .lock data) (hmode : s.chan.fnWrite = .futex)
      (hheld : s.chan.writeFutex = .lock) : Move s i spurious (s.goto i (.futexWait data))
  | retryFutex {data : D} (hpc : s.writer i = .futexWait data) :
      Move s i spurious (s.goto i (.lock data))
  | loadWrite {data : D} (hpc : s.writer i = .loadWrite data) :
      Move s i spurious (s.goto i (.loadRead data s.chan.writeCursor))
  | full {data : D} {w : BitVec 32} (hpc : s.writer i = .loadRead data w)
      (hfull : w + 1#32 = s.chan.readCursor) :
      Move s i spurious ((s.check i).goto i (.unlock data .full))
  | room {data : D} {w : BitVec 32} (hpc : s.writer i = .loadRead data w)
      (hroom : w + 1#32 ≠ s.chan.readCursor) :
      Move s i spurious ((s.check i).goto i (.loadSlot data))
  | loadSlot {data : D} (hpc : s.writer i = .loadSlot data) :
      Move s i spurious (s.goto i (.storeBlock data s.chan.writeCursor))
  | storeBlock {data : D} {w : BitVec 32} (hpc : s.writer i = .storeBlock data w) :
      Move s i spurious ((s.putBlock i w data).goto i (.loadNext data))
  | loadNext {data : D} (hpc : s.writer i = .loadNext data) :
      Move s i spurious (s.goto i (.storeCursor data s.chan.writeCursor))
  | storeCursor {data : D} {w : BitVec 32} (hpc : s.writer i = .storeCursor data w) :
      Move s i spurious ((s.publish i w data).goto i (.unlock data .ok))
  | leaveSingle {data : D} {ret : Err} (hpc : s.writer i = .unlock data ret)
      (hmode : s.chan.fnWrite = .singleWriter) : Move s i spurious (s.goto i (.wake data ret))
  | leaveMutex {data : D} {ret : Err} (hpc : s.writer i = .unlock data ret)
      (hmode : s.chan.fnWrite = .mutex) :
      Move s i spurious ({ s with writeMutex := none }.goto i (.wake data ret))
  | leaveFutex {data : D} {ret : Err} (hpc : s.writer i = .unlock data ret)
      (hmode : s.chan.fnWrite = .futex) :
      Move s i spurious ({ s with chan := s.chan.unlockWrite }.goto i (.wakeWriter data ret))
  | wakeWriter {data : D} {ret : Err} (hpc : s.writer i = .wakeWriter data ret) :
      Move s i spurious (s.goto i (.wake data ret))
  | wake {data : D} {ret : Err} (hpc : s.writer i = .wake data ret) :
      Move s i spurious ((if ret = .ok then s.wakeReader else s).finish i data ret)

variable {s s' : State ι D} {i : ι} {data : D}

theorem move_of_stepWriter {spurious : Bool}
    (h : s.stepWriter i spurious = some s') : Move s i spurious s' := by
  unfold stepWriter at h
  split at h
  · cases h
  · next data hpc =>
    unfold stepLock at h
    split at h
    · next hmode =>
      cases h
      exact .enterSingle hpc hmode
    · next hmode =>
      split at h
      · next hfree =>
        cases h
        exact .enterMutex hpc hmode (Option.isNone_iff_eq_none.mp hfree)
      · cases h
    · next hmode =>
      cases h
      unfold stepLockFutex
      split
      · next hheld => exact .busyFutex hpc hmode hheld
      · next hfree =>
        split
        · next hcas => exact .passFutex hpc hmode hfree hcas
        · next hcas => exact .enterFutex hpc hmode hfree (Bool.eq_false_iff.mpr hcas)
  · next data hpc =>
    cases h
    exact .retryFutex hpc
  · next data hpc =>
    cases h
    exact .loadWrite hpc
  · next data w hpc =>
    split at h
    · next hfull =>
      cases h
      exact .full hpc hfull
    · next hroom =>
      cases h
      exact .room hpc hroom
  · next data hpc =>
    cases h
    exact .loadSlot hpc
  · next data w hpc =>
    cases h
    exact .storeBlock hpc
  · next data hpc =>
    cases h
    exact .loadNext hpc
  · next data w hpc =>
    cases h
    exact .storeCursor hpc
  · next data ret hpc =>
    cases h
    unfold stepUnlock
    split
    · next hmode => exact .leaveSingle hpc hmode
    · next hmode => exact .leaveMutex hpc hmode
    · next hmode => exact .leaveFutex hpc hmode
  · next data ret hpc =>
    cases h
    exact .wakeWriter hpc
  · next data ret hpc =>
    cases h
    exact .wake hpc

inductive ReaderMove (s : State ι D) : State ι D → Prop
  | loadPos (hpc : s.reader = .loadPos) :
      ReaderMove s { s with reader := .load (s.chan.slot (s.chan.readCursor + 1#32)) }
  | visible {rPos : Nat} (hpc : s.reader = .load rPos)
      (hne : s.chan.slot s.chan.writeCursor ≠ rPos) : ReaderMove s { s with reader := .fetch rPos }
  | empty {rPos : Nat} (hpc : s.reader = .load rPos)
      (he : s.chan.slot s.chan.writeCursor = rPos) :
      ReaderMove s { s with reader := .wait rPos s.chan.writeCursor }
  | sleep {rPos : Nat} {w : BitVec 32} (hpc : s.reader = .wait rPos w)
      (hmode : s.chan.fnRead = .futex) (hsame : s.chan.writeCursor = w) :
      ReaderMove s { s with reader := .asleep rPos }
  | again {rPos : Nat} {w : BitVec 32} (hpc : s.reader = .wait rPos w) :
      ReaderMove s { s with reader := .load rPos }
  | fetch {rPos : Nat} {data : D} (hpc : s.reader = .fetch rPos)
      (hdata : s.chan.blocks[rPos]? = some data) : ReaderMove s { s with reader := .loadRead data }
  | loadRead {data : D} (hpc : s.reader = .loadRead data) :
      ReaderMove s { s with reader := .storeRead data s.chan.readCursor }
  | storeRead {data : D} {r : BitVec 32} (hpc : s.reader = .storeRead data r) :
      ReaderMove s { s with
        chan := { s.chan with readCursor := r + 1#32 }
        reader := .idle
        returned := s.returned ++ [data] }
  | call (hpc : s.reader = .idle) : ReaderMove s { s with reader := .loadPos }
  | interrupt {rPos : Nat} (hpc : s.reader = .asleep rPos) :
      ReaderMove s { s with reader := .load rPos }

omit [DecidableEq ι] in
theorem readerMove_of_stepReader (h : s.stepReader = some s') : ReaderMove s s' := by
  unfold stepReader at h
  split at h
  · cases h
  · next hpc =>
    cases h
    exact .loadPos hpc
  · next rPos hpc =>
    split at h
    · next hne =>
      cases h
      exact .visible hpc hne
    · next he =>
      cases h
      exact .empty hpc (not_not.mp he)
  · next rPos w hpc =>
    split at h
    · next hs =>
      cases h
      exact .sleep hpc hs.1 hs.2
    · cases h
      exact .again hpc
  · cases h
  · next rPos hpc =>
    obtain ⟨data, hdata, rfl⟩ := Option.map_eq_some_iff.mp h
    exact .fetch hpc hdata
  · next data hpc =>
    cases h
    exact .loadRead hpc
  · next data r hpc =>
    cases h
    exact .storeRead hpc

theorem step_cases {a : Event ι D} (h : s.step a = some s') :
    (∃ i data, a = .write i data ∧ s.writer i = .idle ∧ s' = s.goto i (.lock data)) ∨
      (∃ i spurious, a = .writer i spurious ∧ Move s i spurious s') ∨ ReaderMove s s' := by
  cases a with
  | write i data =>
    simp only [step] at h
    split at h
    · next hpc =>
      exact .inl ⟨i, data, rfl, hpc, (Option.some.inj h).symm⟩
    · cases h
  | writer i spurious => exact .inr (.inl ⟨i, spurious, rfl, move_of_stepWriter h⟩)
  | read =>
    simp only [step] at h
    split at h
    · next hpc =>
      cases h
      exact .inr (.inr (.call hpc))
    · cases h
  | reader => exact .inr (.inr (readerMove_of_stepReader h))
  | interrupt =>
    simp only [step] at h
    split at h
    · next rPos hpc =>
      cases h
      exact .inr (.inr (.interrupt hpc))
    · cases h

omit [DecidableEq ι] in
private theorem wakeReader_eq (s : State ι D) : ∃ pc, s.wakeReader = { s with reader := pc } := by
  unfold wakeReader
  split
  · exact ⟨_, rfl⟩
  · exact ⟨s.reader, rfl⟩

omit [DecidableEq ι] in
theorem wakeIf_eq (s : State ι D) (ret : Err) :
    ∃ pc, (if ret = .ok then s.wakeReader else s) = { s with reader := pc } := by
  split
  · exact wakeReader_eq s
  · exact ⟨s.reader, rfl⟩

private theorem enter_alone (hpc : s.writer i = .lock data)
    (hmutex : s.writeMutex = none) (hfutex : s.chan.writeFutex = .unlock) (spurious : Bool) :
    ∃ t, s.step (.writer i spurious) = some t ∧ t.writer i = .loadWrite data ∧
      t.finished = s.finished ∧
      (if s.chan.fnWrite = .futex then s.chan.lockWrite spurious else some s.chan) =
        some t.chan := by
  simp only [step, stepWriter, hpc, stepLock]
  cases hm : s.chan.fnWrite with
  | singleWriter => exact ⟨_, rfl, by simp [goto], rfl, rfl⟩
  | mutex =>
    rw [hmutex]
    exact ⟨_, rfl, by simp [goto], rfl, rfl⟩
  | futex =>
    simp only [stepLockFutex, Channel.lockWrite, hfutex, if_true]
    cases spurious with
    | true | false => exact ⟨_, rfl, by simp [goto], rfl, rfl⟩

private theorem body_alone (hpc : s.writer i = .loadWrite data) (spurious : Bool) :
    ∃ n t, run step s (List.replicate n (.writer i spurious)) = some t ∧
      t.writer i = .unlock data (s.chan.writeBody data).1 ∧ t.finished = s.finished ∧
      t.chan = (s.chan.writeBody data).2 := by
  by_cases hfull : s.chan.writeCursor + 1#32 = s.chan.readCursor
  · refine ⟨2, ?_⟩
    simp [List.replicate, run_cons, step, stepWriter, hpc, goto, check, hfull,
      Channel.writeBody, Channel.isFull]
  · refine ⟨6, ?_⟩
    simp [List.replicate, run_cons, step, stepWriter, hpc, goto, check, hfull, putBlock, publish,
      countStore, Channel.writeBody, Channel.isFull, Channel.storeBlock, Channel.storeCursor]

private theorem leave_alone {ret : Err} (hpc : s.writer i = .unlock data ret) (spurious : Bool) :
    ∃ n t, run step s (List.replicate n (.writer i spurious)) = some t ∧
      t.chan = (if s.chan.fnWrite = .futex then s.chan.unlockWrite else s.chan) ∧
      ∃ f, t.finished = s.finished ++ [f] ∧ f.writer = i ∧ f.data = data ∧ f.ret = ret := by
  have hwake : ∀ u : State ι D, u.writer i = .wake data ret →
      ∃ t, u.step (.writer i spurious) = some t ∧ t.chan = u.chan ∧
        ∃ f, t.finished = u.finished ++ [f] ∧ f.writer = i ∧ f.data = data ∧ f.ret = ret := by
    intro u hu
    obtain ⟨pc, he⟩ := wakeIf_eq u ret
    simp only [step, stepWriter, hu, he]
    exact ⟨_, rfl, rfl, _, rfl, rfl, rfl, rfl⟩
  cases hm : s.chan.fnWrite with
  | singleWriter =>
    obtain ⟨t, ht, hchan, hf⟩ := hwake (s.goto i (.wake data ret)) (by simp [goto])
    have hleave : s.step (.writer i spurious) = some (s.goto i (.wake data ret)) := by
      simp only [step, stepWriter, hpc, stepUnlock, hm]
    exact ⟨2, t, run_of_step hleave (run_of_step ht rfl), hchan, hf⟩
  | mutex =>
    obtain ⟨t, ht, hchan, hf⟩ := hwake ({ s with writeMutex := none }.goto i (.wake data ret))
      (by simp [goto])
    have hleave : s.step (.writer i spurious) =
        some ({ s with writeMutex := none }.goto i (.wake data ret)) := by
      simp only [step, stepWriter, hpc, stepUnlock, hm]
    exact ⟨2, t, run_of_step hleave (run_of_step ht rfl), hchan, hf⟩
  | futex =>
    obtain ⟨u, hu⟩ : ∃ u, u = { s with chan := s.chan.unlockWrite }.goto i (.wakeWriter data ret) :=
      ⟨_, rfl⟩
    have hleave : s.step (.writer i spurious) = some u := by
      simp only [step, stepWriter, hpc, stepUnlock, hm, hu]
    have hnext : u.step (.writer i spurious) = some (u.goto i (.wake data ret)) := by
      have hupc : u.writer i = .wakeWriter data ret := by simp [hu, goto]
      simp only [step, stepWriter, hupc]
    obtain ⟨t, ht, hchan, hf⟩ := hwake (u.goto i (.wake data ret)) (by simp [goto])
    refine ⟨3, t, run_of_step hleave (run_of_step hnext (run_of_step ht rfl)), ?_, ?_⟩
    · rw [hchan, hu]
      rfl
    · rw [hu] at hf
      exact hf

/-- A call of `write` whose steps follow each other with nothing in between does what
`Channel.write` computes. -/
theorem write_alone (hidle : s.writer i = .idle) (hmutex : s.writeMutex = none)
    (hfutex : s.chan.writeFutex = .unlock) (data : D) (spurious : Bool) :
    ∃ n t ret, run step s (.write i data :: List.replicate n (.writer i spurious)) = some t ∧
      s.chan.write data spurious = some (ret, t.chan) ∧
      ∃ f, t.finished = s.finished ++ [f] ∧ f.writer = i ∧ f.data = data ∧ f.ret = ret := by
  have hcall : s.step (.write i data) = some (s.goto i (.lock data)) := by
    simp only [step, hidle]
  have hpc : (s.goto i (.lock data)).writer i = .lock data := Function.update_self _ _ _
  obtain ⟨t₁, h₁, hpc₁, hfin₁, hchan₁⟩ := enter_alone hpc hmutex hfutex spurious
  obtain ⟨n₂, t₂, h₂, hpc₂, hfin₂, hchan₂⟩ := body_alone hpc₁ spurious
  obtain ⟨n₃, t₃, h₃, hchan₃, f, hf⟩ := leave_alone hpc₂ spurious
  have hmode : t₂.chan.fnWrite = t₁.chan.fnWrite := by
    rw [hchan₂, Channel.writeBody_fnWrite]
  refine ⟨1 + (n₂ + n₃), t₃, (t₁.chan.writeBody data).1, ?_, ?_, f, ?_⟩
  · rw [Nat.add_comm, List.replicate_succ, List.replicate_add]
    refine run_of_step hcall (run_of_step h₁ ?_)
    rw [run_append, h₂]
    exact h₃
  · change (if s.chan.fnWrite = .futex then s.chan.lockWrite spurious else some s.chan) =
      some t₁.chan at hchan₁
    cases hm : s.chan.fnWrite with
    | futex =>
      rw [hm, if_pos rfl] at hchan₁
      rw [hmode, Channel.lockWrite_fnWrite hchan₁, hm, if_pos rfl, hchan₂] at hchan₃
      simp only [Channel.write, hm, hchan₁, Option.map_some, hchan₃]
    | singleWriter | mutex =>
      rw [hm, if_neg (by decide), Option.some.injEq] at hchan₁
      rw [hmode, ← hchan₁, hm, if_neg (by decide), hchan₂] at hchan₃
      simp only [Channel.write, hm]
      rw [hchan₃, hchan₁]
  · rw [hfin₂, hfin₁] at hf
    exact hf

theorem write_alone_first : ∃ chan : Channel Nat, Channel.init 0 4#32 0#32 .ok true = .ok chan ∧
    ∃ n t ret, run step (start chan) (.write () 7 :: List.replicate n (.writer () false)) = some t ∧
      chan.write 7 false = some (ret, t.chan) ∧
      ∃ f, t.finished = [f] ∧ f.writer = () ∧ f.data = 7 ∧ f.ret = ret :=
  ⟨_, rfl, write_alone rfl rfl rfl 7 false⟩

end MuggleC.Sync.ChannelSteps
