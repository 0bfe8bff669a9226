/- source: sync/ring_buffer.c
   digest: The ring buffer, its calls by themselves and as threads of atomic steps. -/

import MuggleC.Base.Utils
import MuggleC.Foundation.Ring
import MuggleC.Foundation.Transition

set_option autoImplicit false

namespace MuggleC.Sync

open Base

inductive RingWriteMode
  | lock
  | single
  | busyLoop
  deriving DecidableEq, Repr

inductive RingReadMode
  | wait
  | singleWait
  | busyLoop
  | lock
  deriving DecidableEq, Repr

/-- `muggle_ring_buffer_t` without its mutexes and its condition variable. -/
structure RingBuffer (D : Type) where
  capacity : BitVec 32
  flag : BitVec 32
  writeMode : RingWriteMode
  readMode : RingReadMode
  next : BitVec 32
  cursor : BitVec 32
  readCursor : BitVec 32
  datas : List D
  deriving DecidableEq, Repr

namespace RingBuffer

variable {D : Type}

def flagSingleWriter : BitVec 32 := 0x01#32

def flagSingleReader : BitVec 32 := 0x02#32

def flagWriteBusyLoop : BitVec 32 := 0x04#32

def flagReadBusyLoop : BitVec 32 := 0x08#32

def flagMsgReadOnce : BitVec 32 := 0x10#32

def getWriteMode (flag : BitVec 32) : RingWriteMode :=
  if flag &&& flagSingleWriter ≠ 0#32 then .single
  else if flag &&& flagWriteBusyLoop ≠ 0#32 then .busyLoop
  else .lock

/-- Reading each message once excludes the busy loop. -/
def getReadMode (flag : BitVec 32) : Except Err RingReadMode :=
  if flag &&& flagSingleReader ≠ 0#32 then
    if flag &&& flagReadBusyLoop ≠ 0#32 then .ok .busyLoop else .ok .singleWait
  else if flag &&& flagMsgReadOnce ≠ 0#32 then
    if flag &&& flagReadBusyLoop ≠ 0#32 then .error .invalidParam else .ok .lock
  else if flag &&& flagReadBusyLoop ≠ 0#32 then .ok .busyLoop
  else .ok .wait

/-- The results of the calls that `init` makes: the two mutexes, the condition variable, and
`malloc`, which gives the uninitialised contents of `datas`. -/
structure Env (D : Type) where
  writeMutex : Err
  readMutex : Err
  readCv : Err
  malloc : Option (Nat → D)

def init (capacity flag : BitVec 32) (env : Env D) : Except Err (RingBuffer D) :=
  if capacity.toInt ≤ 0 then .error .invalidParam
  else
    let capacity := roundCapacity capacity
    if capacity.toInt ≤ 0 then .error .invalidParam
    else
      match getReadMode flag with
      | .error e => .error e
      | .ok readMode =>
        if env.writeMutex ≠ .ok then .error env.writeMutex
        else if env.readMutex ≠ .ok then .error env.readMutex
        else if env.readCv ≠ .ok then .error env.readCv
        else
          match env.malloc with
          | none => .error .memAlloc
          | some fill => .ok {
              capacity := capacity
              flag := flag
              writeMode := getWriteMode flag
              readMode := readMode
              next := 0#32
              cursor := 0#32
              readCursor := 0#32
              datas := (List.range capacity.toNat).map fill }

def slot (r : RingBuffer D) (idx : BitVec 32) : Nat := (idxInPowOf2Ring idx r.capacity).toNat

def storeData (r : RingBuffer D) (idx : BitVec 32) (data : D) : RingBuffer D :=
  { r with datas := r.datas.set (r.slot idx) data }

def writeSingle (r : RingBuffer D) (data : D) : RingBuffer D :=
  let r := r.storeData r.cursor data
  { r with cursor := r.cursor + 1#32 }

/-- The loop gives up when the weak compare-exchange fails spuriously, since `cur_idx` is then
still `idx`; it waits while an earlier index is not published. -/
def writeBusyLoop (r : RingBuffer D) (data : D) (spurious : Bool) : Option (RingBuffer D) :=
  let idx := r.next
  let r := { r with next := r.next + 1#32 }
  let r := r.storeData idx data
  if r.cursor ≠ idx then none
  else if spurious then some r
  else some { r with cursor := idx + 1#32 }

/-- `muggle_ring_buffer_write` with no other thread about. -/
def write (r : RingBuffer D) (data : D) (spurious : Bool) : Option (Err × RingBuffer D) :=
  match r.writeMode with
  | .lock => some (.ok, r.writeSingle data)
  | .single => some (.ok, r.writeSingle data)
  | .busyLoop => (r.writeBusyLoop data spurious).map fun r => (.ok, r)

def readWait (r : RingBuffer D) (idx : BitVec 32) : Option D :=
  let rPos := r.slot idx
  if r.slot r.cursor ≠ rPos then r.datas[rPos]? else none

def readLock (r : RingBuffer D) : Option (D × RingBuffer D) :=
  let rPos := r.slot r.readCursor
  if r.slot r.cursor ≠ rPos then
    (r.datas[rPos]?).map fun data => (data, { r with readCursor := r.readCursor + 1#32 })
  else none

/-- `muggle_ring_buffer_read` with no other thread about: without a visible message it never
returns. -/
def read (r : RingBuffer D) (idx : BitVec 32) : Option (D × RingBuffer D) :=
  match r.readMode with
  | .wait => (r.readWait idx).map fun data => (data, r)
  | .singleWait => (r.readWait idx).map fun data => (data, r)
  | .busyLoop => (r.readWait idx).map fun data => (data, r)
  | .lock => r.readLock

/-- One write is accepted and the read of index zero, the first, returns its data. -/
def FirstMessageVisible (r : RingBuffer D) (data : D) (spurious : Bool) : Prop :=
  ∃ r', r.write data spurious = some (.ok, r') ∧ (r'.read 0#32).map Prod.fst = some data

structure Fresh (capacity flag : BitVec 32) (k : Nat) (r : RingBuffer D) : Prop where
  capacity_eq : r.capacity.toNat = 2 ^ k
  le_capacity : capacity.toNat ≤ 2 ^ k
  capacity_lt : 2 ^ k < 2 * capacity.toNat
  requested : capacity.toInt = capacity.toNat
  writeMode_eq : r.writeMode = getWriteMode flag
  next_eq : r.next = 0#32
  cursor_eq : r.cursor = 0#32
  readCursor_eq : r.readCursor = 0#32
  length_eq : r.datas.length = 2 ^ k

variable {r : RingBuffer D} {capacity flag : BitVec 32} {k : Nat}

theorem init_fresh {env : Env D}
    (h : init capacity flag env = .ok r) : ∃ k, Fresh capacity flag k r := by
  unfold init at h
  split at h
  · cases h
  · next hpos =>
    dsimp only at h
    split at h
    · cases h
    · split at h
      · cases h
      · split at h
        · cases h
        · split at h
          · cases h
          · split at h
            · cases h
            · split at h
              · cases h
              · obtain rfl := Except.ok.inj h
                have hp : 0 < capacity.toInt := by omega
                obtain ⟨k, hk, hle, hup⟩ := roundCapacity_spec hp
                refine ⟨k, hk, hle, hup, (toNat_of_toInt_pos hp).1, rfl, rfl, rfl, rfl, ?_⟩
                rw [List.length_map, List.length_range, hk]

theorem slot_ofNat (hk : r.capacity.toNat = 2 ^ k) (n : Nat) :
    r.slot (BitVec.ofNat 32 n) = n % 2 ^ k :=
  toNat_idxInPowOf2Ring hk n

private theorem read_first (hk : r.capacity.toNat = 2 ^ k) (hr : r.readCursor = 0#32) :
    (r.read 0#32).map Prod.fst = if r.slot r.cursor ≠ 0 then r.datas[0]? else none := by
  have hzero : r.slot 0#32 = 0 := (slot_ofNat hk 0).trans (Nat.zero_mod _)
  unfold read
  cases r.readMode <;>
    simp only [readWait, readLock, hr, hzero] <;> split <;> simp [Function.comp_def]

theorem Fresh.write_eq (h : Fresh capacity flag k r) (data : D) (spurious : Bool) :
    ∃ r', r.write data spurious = some (.ok, r') ∧ r'.capacity = r.capacity ∧
      r'.readCursor = 0#32 ∧ r'.datas[0]? = some data ∧
      r'.cursor = if r.writeMode = .busyLoop ∧ spurious = true then 0#32 else 1#32 := by
  have hzero : r.slot 0#32 = 0 := (slot_ofNat h.capacity_eq 0).trans (Nat.zero_mod _)
  have hlen : 0 < r.datas.length := by
    rw [h.length_eq]
    exact Nat.two_pow_pos k
  have hput : (r.datas.set (r.slot 0#32) data)[0]? = some data := by
    rw [hzero, List.getElem?_set_self hlen]
  unfold write
  cases hm : r.writeMode with
  | lock | single =>
    refine ⟨_, rfl, rfl, h.readCursor_eq, ?_, ?_⟩
    · simp only [writeSingle, storeData, h.cursor_eq, hput]
    · simp [writeSingle, storeData, h.cursor_eq]
  | busyLoop =>
    have hidx : ¬ r.cursor ≠ r.next := by rw [h.cursor_eq, h.next_eq]; simp
    simp only [writeBusyLoop, storeData, hidx, if_false]
    cases spurious with
    | true =>
      refine ⟨_, rfl, rfl, h.readCursor_eq, ?_, ?_⟩
      · simp only [slot, h.next_eq] at hput ⊢
        exact hput
      · simp [h.cursor_eq]
    | false =>
      refine ⟨_, rfl, rfl, h.readCursor_eq, ?_, ?_⟩
      · simp only [slot, h.next_eq] at hput ⊢
        exact hput
      · simp [h.next_eq]

theorem Fresh.firstMessageVisible_iff (h : Fresh capacity flag k r) (data : D) (spurious : Bool) :
    r.FirstMessageVisible data spurious ↔ 1 ≤ k ∧ (r.writeMode = .busyLoop → spurious = false) := by
  obtain ⟨r', hw, hcap, hread, hdata, hcur⟩ := h.write_eq data spurious
  have hk : r'.capacity.toNat = 2 ^ k := by rw [hcap, h.capacity_eq]
  have hvisible : (r'.read 0#32).map Prod.fst = some data ↔ r'.slot r'.cursor ≠ 0 := by
    rw [read_first hk hread, hdata]
    split <;> simp_all
  have hslot : r'.slot r'.cursor ≠ 0 ↔ 1 ≤ k ∧ (r.writeMode = .busyLoop → spurious = false) := by
    rw [hcur]
    split
    · next hs =>
      have hzero : r'.slot 0#32 = 0 := (slot_ofNat hk 0).trans (Nat.zero_mod _)
      rw [hzero]
      constructor
      · intro hne
        exact absurd rfl hne
      · rintro ⟨_, himp⟩
        have := himp hs.1
        rw [hs.2] at this
        cases this
    · next hs =>
      have hone : r'.slot 1#32 = 1 % 2 ^ k := slot_ofNat hk 1
      rw [hone]
      have himp : r.writeMode = .busyLoop → spurious = false := by
        intro hb
        cases spurious with
        | true => exact absurd ⟨hb, rfl⟩ hs
        | false => rfl
      constructor
      · intro hne
        refine ⟨?_, himp⟩
        rcases Nat.eq_zero_or_pos k with rfl | hp
        · exact absurd rfl hne
        · exact hp
      · rintro ⟨hp, _⟩
        rw [Nat.mod_eq_of_lt (Nat.one_lt_two_pow (by omega))]
        decide
  rw [← hslot, ← hvisible]
  unfold FirstMessageVisible
  rw [hw]
  constructor
  · rintro ⟨r'', he, hr⟩
    obtain rfl := (Prod.mk.inj (Option.some.inj he)).2
    exact hr
  · intro hr
    exact ⟨r', rfl, hr⟩

end RingBuffer

end MuggleC.Sync

/-! Each access to a shared field, each compare-exchange and each call into a mutex is one step.
`muggle_futex_wait` may return at any time, so that waking has no effect on the state. The numbers
in the program counters and the fields of the state after `reader` are read by no step. -/

namespace MuggleC.Sync.RingSteps

open Base Foundation.Transition

/-- Where a thread stands inside `muggle_ring_buffer_write`: in `write_lock` and `write_single` up to
`unlock`, in `write_busy_loop` from `claim` on. -/
inductive WriterPc (D : Type)
  | idle
  | lock (data : D)
  | loadSlot (data : D)
  | store (data : D) (cur : BitVec 32)
  | loadNext (data : D)
  | publish (data : D) (cur : BitVec 32)
  | unlock
  | claim (data : D)
  | fill (data : D) (idx : BitVec 32) (ticket : Nat)
  | exchange (idx : BitVec 32) (ticket : Nat)
  | wake

/-- Where a thread stands inside `muggle_ring_buffer_read`: in `read_wait` and `read_busy_loop` up to
`fetch`, in `read_lock` from `lock` on. -/
inductive ReaderPc (D : Type)
  | idle
  | load (idx : BitVec 32) (number : Nat)
  | wait (idx : BitVec 32) (number : Nat)
  | fetch (idx : BitVec 32) (number : Nat)
  | lock
  | loadCursor
  | loadRead (w : BitVec 32) (written : Nat)
  | waitOnce
  | fetchOnce (rPos : Nat)
  | advance (data : D)
  | unlock

structure Fetch (D : Type) where
  number : Nat
  written : Nat
  data : D

/-- `claimed` counts the claims from `next`; `published` are the claims by which `cursor` moved and
`finished` those whose call has returned. `messages` are the published messages of the other write
modes, `returned` the messages of `read_lock`, and `starved` the numbers of messages written and
returned when `read_lock` found nothing to read. -/
structure State (ι κ D : Type) where
  ring : RingBuffer D
  writeMutex : Option ι
  readMutex : Option κ
  writer : ι → WriterPc D
  reader : κ → ReaderPc D
  claimed : Nat
  published : List Nat
  finished : List Nat
  messages : List D
  fetched : List (Fetch D)
  returned : List D
  starved : List (Nat × Nat)

/-- A caller of `read` asks for a message by its number, of which `idx` is the remainder. -/
inductive Event (ι κ D : Type)
  | write (i : ι) (data : D)
  | writer (i : ι) (spurious : Bool)
  | read (j : κ) (number : Nat)
  | reader (j : κ)

namespace State

variable {ι κ D : Type} [DecidableEq ι] [DecidableEq κ]

def start (ring : RingBuffer D) : State ι κ D :=
  ⟨ring, none, none, fun _ => .idle, fun _ => .idle, 0, [], [], [], [], [], []⟩

def gotoWriter (s : State ι κ D) (i : ι) (pc : WriterPc D) : State ι κ D :=
  { s with writer := Function.update s.writer i pc }

def gotoReader (s : State ι κ D) (j : κ) (pc : ReaderPc D) : State ι κ D :=
  { s with reader := Function.update s.reader j pc }

def storeSlot (s : State ι κ D) (idx : BitVec 32) (data : D) : State ι κ D :=
  { s with ring := s.ring.storeData idx data }

def moveCursor (s : State ι κ D) (cur : BitVec 32) (data : D) : State ι κ D :=
  { s with
    ring := { s.ring with cursor := cur + 1#32 }
    messages := s.messages ++ [data] }

def claimNext (s : State ι κ D) : State ι κ D :=
  { s with
    ring := { s.ring with next := s.ring.next + 1#32 }
    claimed := s.claimed + 1 }

def exchangeCursor (s : State ι κ D) (idx : BitVec 32) (ticket : Nat) : State ι κ D :=
  { s with
    ring := { s.ring with cursor := idx + 1#32 }
    published := s.published ++ [ticket] }

def finish (s : State ι κ D) (ticket : Nat) : State ι κ D :=
  { s with finished := s.finished ++ [ticket] }

/-- The weak compare-exchange and the loop condition around it: the loop goes on while the exchange
fails and finds a value other than `idx`. -/
def stepExchange (s : State ι κ D) (i : ι) (idx : BitVec 32) (ticket : Nat) (spurious : Bool) :
    State ι κ D :=
  if s.ring.cursor = idx ∧ spurious = false then
    ((s.exchangeCursor idx ticket).finish ticket).gotoWriter i .wake
  else if s.ring.cursor ≠ idx then s.gotoWriter i (.exchange idx ticket)
  else (s.finish ticket).gotoWriter i .wake

def stepUnlock (s : State ι κ D) (i : ι) : State ι κ D :=
  { s with writeMutex := none }.gotoWriter i .wake

def stepWriter (s : State ι κ D) (i : ι) (spurious : Bool) : Option (State ι κ D) :=
  match s.writer i with
  | .idle => none
  | .lock data =>
    if s.writeMutex.isNone then
      some ({ s with writeMutex := some i }.gotoWriter i (.loadSlot data))
    else none
  | .loadSlot data => some (s.gotoWriter i (.store data s.ring.cursor))
  | .store data cur => some ((s.storeSlot cur data).gotoWriter i (.loadNext data))
  | .loadNext data => some (s.gotoWriter i (.publish data s.ring.cursor))
  | .publish data cur =>
    some ((s.moveCursor cur data).gotoWriter i
      (match s.ring.writeMode with
        | .lock => .unlock
        | _ => .wake))
  | .unlock => some (s.stepUnlock i)
  | .claim data => some (s.claimNext.gotoWriter i (.fill data s.ring.next s.claimed))
  | .fill data idx ticket => some ((s.storeSlot idx data).gotoWriter i (.exchange idx ticket))
  | .exchange idx ticket => some (s.stepExchange i idx ticket spurious)
  | .wake => some (s.gotoWriter i .idle)

def stepFetch (s : State ι κ D) (j : κ) (number : Nat) (data : D) : State ι κ D :=
  { s with fetched := s.fetched ++ [Fetch.mk number s.messages.length data] }.gotoReader j .idle

def stepAdvance (s : State ι κ D) (j : κ) (data : D) : State ι κ D :=
  { s with
    ring := { s.ring with readCursor := s.ring.readCursor + 1#32 }
    returned := s.returned ++ [data] }.gotoReader j .unlock

def stepStarve (s : State ι κ D) (j : κ) (written : Nat) : State ι κ D :=
  { s with starved := s.starved ++ [(written, s.returned.length)] }.gotoReader j .waitOnce

def stepReader (s : State ι κ D) (j : κ) : Option (State ι κ D) :=
  match s.reader j with
  | .idle => none
  | .load idx number =>
    if s.ring.slot s.ring.cursor ≠ s.ring.slot idx then some (s.gotoReader j (.fetch idx number))
    else some (s.gotoReader j (.wait idx number))
  | .wait idx number => some (s.gotoReader j (.load idx number))
  | .fetch idx number => (s.ring.datas[s.ring.slot idx]?).map fun data => s.stepFetch j number data
  | .lock =>
    if s.readMutex.isNone then some ({ s with readMutex := some j }.gotoReader j .loadCursor)
    else none
  | .loadCursor => some (s.gotoReader j (.loadRead s.ring.cursor s.messages.length))
  | .loadRead w written =>
    if s.ring.slot w ≠ s.ring.slot s.ring.readCursor then
      some (s.gotoReader j (.fetchOnce (s.ring.slot s.ring.readCursor)))
    else some (s.stepStarve j written)
  | .waitOnce => some (s.gotoReader j .loadCursor)
  | .fetchOnce rPos => (s.ring.datas[rPos]?).map fun data => s.gotoReader j (.advance data)
  | .advance data => some (s.stepAdvance j data)
  | .unlock => some ({ s with readMutex := none }.gotoReader j .idle)

def enterWrite (s : State ι κ D) (data : D) : WriterPc D :=
  match s.ring.writeMode with
  | .lock => .lock data
  | .single => .loadSlot data
  | .busyLoop => .claim data

def enterRead (s : State ι κ D) (number : Nat) : ReaderPc D :=
  match s.ring.readMode with
  | .wait => .load (BitVec.ofNat 32 number) number
  | .singleWait => .load (BitVec.ofNat 32 number) number
  | .busyLoop => .load (BitVec.ofNat 32 number) number
  | .lock => .lock

def step (s : State ι κ D) : Event ι κ D → Option (State ι κ D)
  | .write i data =>
    match s.writer i with
    | .idle => some (s.gotoWriter i (s.enterWrite data))
    | _ => none
  | .writer i spurious => s.stepWriter i spurious
  | .read j number =>
    match s.reader j with
    | .idle => some (s.gotoReader j (s.enterRead number))
    | _ => none
  | .reader j => s.stepReader j

end State

open State

variable {ι κ D : Type} [DecidableEq ι] [DecidableEq κ]

inductive WriterMove (s : State ι κ D) (i : ι) (spurious : Bool) : State ι κ D → Prop
  | acquire {data : D} (hpc : s.writer i = .lock data) (hfree : s.writeMutex = none) :
      WriterMove s i spurious ({ s with writeMutex := some i }.gotoWriter i (.loadSlot data))
  | loadSlot {data : D} (hpc : s.writer i = .loadSlot data) :
      WriterMove s i spurious (s.gotoWriter i (.store data s.ring.cursor))
  | store {data : D} {cur : BitVec 32} (hpc : s.writer i = .store data cur) :
      WriterMove s i spurious ((s.storeSlot cur data).gotoWriter i (.loadNext data))
  | loadNext {data : D} (hpc : s.writer i = .loadNext data) :
      WriterMove s i spurious (s.gotoWriter i (.publish data s.ring.cursor))
  | publishLock {data : D} {cur : BitVec 32} (hpc : s.writer i = .publish data cur)
      (hmode : s.ring.writeMode = .lock) :
      WriterMove s i spurious ((s.moveCursor cur data).gotoWriter i .unlock)
  | publish {data : D} {cur : BitVec 32} (hpc : s.writer i = .publish data cur)
      (hmode : s.ring.writeMode ≠ .lock) :
      WriterMove s i spurious ((s.moveCursor cur data).gotoWriter i .wake)
  | release (hpc : s.writer i = .unlock) : WriterMove s i spurious (s.stepUnlock i)
  | claim {data : D} (hpc : s.writer i = .claim data) :
      WriterMove s i spurious (s.claimNext.gotoWriter i (.fill data s.ring.next s.claimed))
  | fill {data : D} {idx : BitVec 32} {ticket : Nat} (hpc : s.writer i = .fill data idx ticket) :
      WriterMove s i spurious ((s.storeSlot idx data).gotoWriter i (.exchange idx ticket))
  | exchange {idx : BitVec 32} {ticket : Nat} (hpc : s.writer i = .exchange idx ticket)
      (hsame : s.ring.cursor = idx) (hcas : spurious = false) :
      WriterMove s i spurious
        (((s.exchangeCursor idx ticket).finish ticket).gotoWriter i .wake)
  | retry {idx : BitVec 32} {ticket : Nat} (hpc : s.writer i = .exchange idx ticket)
      (hne : s.ring.cursor ≠ idx) : WriterMove s i spurious (s.gotoWriter i (.exchange idx ticket))
  | giveUp {idx : BitVec 32} {ticket : Nat} (hpc : s.writer i = .exchange idx ticket)
      (hsame : s.ring.cursor = idx) (hcas : spurious = true) :
      WriterMove s i spurious ((s.finish ticket).gotoWriter i .wake)
  | wake (hpc : s.writer i = .wake) : WriterMove s i spurious (s.gotoWriter i .idle)

omit [DecidableEq κ] in
private theorem move_of_stepWriter {s s' : State ι κ D} {i : ι} {spurious : Bool}
    (h : s.stepWriter i spurious = some s') : WriterMove s i spurious s' := by
  unfold stepWriter at h
  split at h
  · cases h
  · next data hpc =>
    split at h
    · next hfree =>
      cases h
      exact .acquire hpc (Option.isNone_iff_eq_none.mp hfree)
    · cases h
  · next data hpc =>
    cases h
    exact .loadSlot hpc
  · next data cur hpc =>
    cases h
    exact .store hpc
  · next data hpc =>
    cases h
    exact .loadNext hpc
  · next data cur hpc =>
    cases h
    split
    · next hmode => exact .publishLock hpc hmode
    · next hmode => exact .publish hpc hmode
  · next hpc =>
    cases h
    exact .release hpc
  · next data hpc =>
    cases h
    exact .claim hpc
  · next data idx ticket hpc =>
    cases h
    exact .fill hpc
  · next idx ticket hpc =>
    cases h
    unfold stepExchange
    split
    · next hok => exact .exchange hpc hok.1 hok.2
    · next hno =>
      split
      · next hne => exact .retry hpc hne
      · next he =>
        have hsame := not_not.mp he
        exact .giveUp hpc hsame (Bool.not_eq_false _ ▸ fun hf => hno ⟨hsame, hf⟩)
  · next hpc =>
    cases h
    exact .wake hpc

inductive ReaderMove (s : State ι κ D) (j : κ) : State ι κ D → Prop
  | visible {idx : BitVec 32} {number : Nat} (hpc : s.reader j = .load idx number) :
      ReaderMove s j (s.gotoReader j (.fetch idx number))
  | empty {idx : BitVec 32} {number : Nat} (hpc : s.reader j = .load idx number) :
      ReaderMove s j (s.gotoReader j (.wait idx number))
  | again {idx : BitVec 32} {number : Nat} (hpc : s.reader j = .wait idx number) :
      ReaderMove s j (s.gotoReader j (.load idx number))
  | fetch {idx : BitVec 32} {number : Nat} {data : D} (hpc : s.reader j = .fetch idx number)
      (hdata : s.ring.datas[s.ring.slot idx]? = some data) :
      ReaderMove s j (s.stepFetch j number data)
  | acquire (hpc : s.reader j = .lock) (hfree : s.readMutex = none) :
      ReaderMove s j ({ s with readMutex := some j }.gotoReader j .loadCursor)
  | loadCursor (hpc : s.reader j = .loadCursor) :
      ReaderMove s j (s.gotoReader j (.loadRead s.ring.cursor s.messages.length))
  | unread {w : BitVec 32} {written : Nat} (hpc : s.reader j = .loadRead w written)
      (hne : s.ring.slot w ≠ s.ring.slot s.ring.readCursor) :
      ReaderMove s j (s.gotoReader j (.fetchOnce (s.ring.slot s.ring.readCursor)))
  | starve {w : BitVec 32} {written : Nat} (hpc : s.reader j = .loadRead w written)
      (he : s.ring.slot w = s.ring.slot s.ring.readCursor) :
      ReaderMove s j (s.stepStarve j written)
  | retry (hpc : s.reader j = .waitOnce) : ReaderMove s j (s.gotoReader j .loadCursor)
  | fetchOnce {rPos : Nat} {data : D} (hpc : s.reader j = .fetchOnce rPos)
      (hdata : s.ring.datas[rPos]? = some data) : ReaderMove s j (s.gotoReader j (.advance data))
  | advance {data : D} (hpc : s.reader j = .advance data) : ReaderMove s j (s.stepAdvance j data)
  | release (hpc : s.reader j = .unlock) :
      ReaderMove s j ({ s with readMutex := none }.gotoReader j .idle)

omit [DecidableEq ι] in
private theorem move_of_stepReader {s s' : State ι κ D} {j : κ} (h : s.stepReader j = some s') :
    ReaderMove s j s' := by
  unfold stepReader at h
  split at h
  · cases h
  · next idx number hpc =>
    split at h
    · cases h
      exact .visible hpc
    · cases h
      exact .empty hpc
  · next idx number hpc =>
    cases h
    exact .again hpc
  · next idx number hpc =>
    obtain ⟨data, hdata, rfl⟩ := Option.map_eq_some_iff.mp h
    exact .fetch hpc hdata
  · next hpc =>
    split at h
    · next hfree =>
      cases h
      exact .acquire hpc (Option.isNone_iff_eq_none.mp hfree)
    · cases h
  · next hpc =>
    cases h
    exact .loadCursor hpc
  · next w written hpc =>
    split at h
    · next hne =>
      cases h
      exact .unread hpc hne
    · next he =>
      cases h
      exact .starve hpc (not_not.mp he)
  · next hpc =>
    cases h
    exact .retry hpc
  · next rPos hpc =>
    obtain ⟨data, hdata, rfl⟩ := Option.map_eq_some_iff.mp h
    exact .fetchOnce hpc hdata
  · next data hpc =>
    cases h
    exact .advance hpc
  · next hpc =>
    cases h
    exact .release hpc

theorem step_cases {s s' : State ι κ D} {a : Event ι κ D} (h : s.step a = some s') :
    (∃ i data, a = .write i data ∧ s.writer i = .idle ∧ s' = s.gotoWriter i (s.enterWrite data)) ∨
      (∃ i spurious, a = .writer i spurious ∧ WriterMove s i spurious s') ∨
      (∃ j number, a = .read j number ∧ s.reader j = .idle ∧
        s' = s.gotoReader j (s.enterRead number)) ∨
      ∃ j, a = .reader j ∧ ReaderMove s j s' := by
  cases a with
  | write i data =>
    simp only [step] at h
    split at h
    · next hpc => exact .inl ⟨i, data, rfl, hpc, (Option.some.inj h).symm⟩
    · cases h
  | writer i spurious => exact .inr (.inl ⟨i, spurious, rfl, move_of_stepWriter h⟩)
  | read j number =>
    simp only [step] at h
    split at h
    · next hpc =>
      exact .inr (.inr (.inl ⟨j, number, rfl, hpc, (Option.some.inj h).symm⟩))
    · cases h
  | reader j => exact .inr (.inr (.inr ⟨j, rfl, move_of_stepReader h⟩))

end MuggleC.Sync.RingSteps

/-! A claim from `next` is a ticket. Those below the number of moves of `cursor` are published, and
each one from there on belongs to one writer that is still in its call; only the writer with the
lowest of them finds its index in `cursor`. -/

namespace MuggleC.Sync.RingTickets

open Base Foundation.Counter Foundation.Threads Foundation.Transition RingSteps State Function List

variable {ι κ D : Type}

def ticketOf : WriterPc D → Option Nat
  | .fill _ _ ticket => some ticket
  | .exchange _ ticket => some ticket
  | _ => none

/-- No compare-exchange fails spuriously on the claimed index, and fewer than `2 ^ 32` claimed
indices wait to be published when one more is claimed. -/
def SteadyAt (s : State ι κ D) (spurious : Bool) : WriterPc D → Prop
  | .exchange idx _ => spurious = true → s.ring.cursor ≠ idx
  | .claim _ => s.claimed < s.published.length + 4294967296
  | _ => True

instance (s : State ι κ D) (spurious : Bool) (pc : WriterPc D) :
    Decidable (SteadyAt s spurious pc) :=
  match pc with
  | .exchange _ _ => inferInstanceAs (Decidable (_ → _))
  | .claim _ => inferInstanceAs (Decidable (_ < _))
  | .idle => .isTrue trivial
  | .lock _ => .isTrue trivial
  | .loadSlot _ => .isTrue trivial
  | .store _ _ => .isTrue trivial
  | .loadNext _ => .isTrue trivial
  | .publish _ _ => .isTrue trivial
  | .unlock => .isTrue trivial
  | .fill _ _ _ => .isTrue trivial
  | .wake => .isTrue trivial

def Steady (s : State ι κ D) : Event ι κ D → Prop
  | .writer i spurious => SteadyAt s spurious (s.writer i)
  | _ => True

instance (s : State ι κ D) (a : Event ι κ D) : Decidable (Steady s a) :=
  match a with
  | .writer i spurious => inferInstanceAs (Decidable (SteadyAt s spurious (s.writer i)))
  | .write _ _ => .isTrue trivial
  | .read _ _ => .isTrue trivial
  | .reader _ => .isTrue trivial

/-- `cursor` has moved once for each of the first tickets, in their order; a call that has returned
is among them; and every other ticket is still in the hands of a writer. -/
structure Orderly (s : State ι κ D) : Prop where
  cursor_eq : s.ring.cursor = BitVec.ofNat 32 s.published.length
  in_order : s.published = List.range s.published.length
  returned_published : ∀ t ∈ s.finished, t ∈ s.published
  nobody_missing : ∀ t, t < s.claimed → t ∈ s.published ∨ ∃ i, ticketOf (s.writer i) = some t

/-- One step moves `cursor` by one, for the next ticket, or not at all. -/
def Advances (s s' : State ι κ D) : Prop :=
  s'.ring.cursor = s.ring.cursor ∧ s'.published = s.published ∨
    s'.ring.cursor = s.ring.cursor + 1#32 ∧ s'.published = s.published ++ [s.published.length]

def Busy : WriterPc D → Prop
  | .idle => True
  | .claim _ => True
  | .fill _ idx ticket => idx = BitVec.ofNat 32 ticket
  | .exchange idx ticket => idx = BitVec.ofNat 32 ticket
  | .wake => True
  | _ => False

structure TicketInv (s : State ι κ D) : Prop where
  mode : s.ring.writeMode = .busyLoop
  next_eq : s.ring.next = BitVec.ofNat 32 s.claimed
  cursor_eq : s.ring.cursor = BitVec.ofNat 32 s.published.length
  published_eq : s.published = List.range s.published.length
  published_le : s.published.length ≤ s.claimed
  claimed_le : s.claimed ≤ s.published.length + 4294967296
  busy : ∀ i, Busy (s.writer i)
  tickets : Tickets (fun i => ticketOf (s.writer i)) s.published.length s.claimed
  finished : ∀ t ∈ s.finished, t < s.published.length

variable {s s' : State ι κ D} {i : ι} {pc : WriterPc D}

theorem TicketInv.busy_at (h : TicketInv s) (hpc : s.writer i = pc) : Busy pc := hpc ▸ h.busy i

theorem TicketInv.orderly (h : TicketInv s) : Orderly s where
  cursor_eq := h.cursor_eq
  in_order := h.published_eq
  returned_published t ht := by
    rw [h.published_eq]
    exact mem_range.mpr (h.finished t ht)
  nobody_missing t ht := by
    rcases Nat.lt_or_ge t s.published.length with hlt | hge
    · left
      rw [h.published_eq]
      exact mem_range.mpr hlt
    · exact .inr (h.tickets.cover t hge ht)

private theorem start_inv {capacity flag : BitVec 32} {env : RingBuffer.Env D} {r : RingBuffer D}
    (hi : RingBuffer.init capacity flag env = .ok r) (hmode : r.writeMode = .busyLoop) :
    TicketInv (start r : State ι κ D) := by
  obtain ⟨k, hfresh⟩ := RingBuffer.init_fresh hi
  refine ⟨hmode, hfresh.next_eq, hfresh.cursor_eq, rfl, Nat.le_refl _, Nat.zero_le _,
    fun _ => trivial, ⟨?_, ?_, ?_⟩, ?_⟩
  · intro i t ht
    cases ht
  · intro i j t ht
    cases ht
  · intro t _ ht
    exact absurd ht (Nat.not_lt_zero t)
  · intro t ht
    exact absurd ht not_mem_nil

variable [DecidableEq ι]

theorem busy_update (h : TicketInv s) (i : ι) (hpc : Busy pc) :
    ∀ j, Busy (update s.writer i pc j) :=
  (forall_update_iff s.writer fun _ pc => Busy pc).mpr ⟨hpc, fun j _ => h.busy j⟩

theorem ticketOf_update_of_ne (writer : ι → WriterPc D) (i : ι) (pc : WriterPc D)
    (j : ι) (hne : j ≠ i) : ticketOf (update writer i pc j) = ticketOf (writer j) := by
  rw [update_of_ne hne]

theorem goto_inv (h : TicketInv s) (hpc : Busy pc)
    (hticket : ticketOf pc = ticketOf (s.writer i)) : TicketInv (s.gotoWriter i pc) := by
  refine { h with busy := busy_update h i hpc, tickets := h.tickets.keep ?_ }
  exact (forall_update_iff s.writer fun j pc => ticketOf pc = ticketOf (s.writer j)).mpr
    ⟨hticket, fun _ _ => rfl⟩

private theorem claim_inv (h : TicketInv s) {data : D}
    (hpc : s.writer i = .claim data) (hroom : s.claimed < s.published.length + 4294967296) :
    TicketInv (s.claimNext.gotoWriter i (.fill data s.ring.next s.claimed)) := by
  refine { h with
    next_eq := ?_
    published_le := Nat.le_succ_of_le h.published_le
    claimed_le := hroom
    busy := busy_update h i h.next_eq
    tickets := h.tickets.issue h.published_le (by rw [hpc]; rfl) ?_
      (ticketOf_update_of_ne s.writer i (.fill data s.ring.next s.claimed)) }
  · change s.ring.next + 1#32 = BitVec.ofNat 32 (s.claimed + 1)
    rw [h.next_eq, ofNat_succ]
  · exact congrArg ticketOf (update_self i _ s.writer)

private theorem exchange_inv (h : TicketInv s) {idx : BitVec 32} {ticket : Nat}
    (hpc : s.writer i = .exchange idx ticket) (hsame : s.ring.cursor = idx) :
    ticket = s.published.length ∧
      TicketInv (((s.exchangeCursor idx ticket).finish ticket).gotoWriter i .wake) := by
  have hrange := h.tickets.range i ticket (by rw [hpc]; rfl)
  have hmax := h.claimed_le
  have hidx : idx = BitVec.ofNat 32 ticket := h.busy_at hpc
  have hlow : ticket = s.published.length :=
    eq_of_ofNat_eq (w := 32) hrange.1 (by omega) (by rw [← hidx, ← hsame, h.cursor_eq])
  have hlen : (s.published ++ [ticket]).length = s.published.length + 1 := length_append
  refine ⟨hlow, { h with
    cursor_eq := ?_
    published_eq := ?_
    published_le := ?_
    claimed_le := ?_
    busy := busy_update h i trivial
    tickets := ?_
    finished := ?_ }⟩
  · change idx + 1#32 = BitVec.ofNat 32 (s.published ++ [ticket]).length
    rw [hlen, hidx, hlow, ofNat_succ]
  · change s.published ++ [ticket] = range (s.published ++ [ticket]).length
    rw [hlen, range_succ, ← h.published_eq, hlow]
  · change (s.published ++ [ticket]).length ≤ s.claimed
    omega
  · change s.claimed ≤ (s.published ++ [ticket]).length + 4294967296
    omega
  · change Tickets (fun j => ticketOf (update s.writer i .wake j))
      (s.published ++ [ticket]).length s.claimed
    rw [hlen]
    apply h.tickets.serve (i := i) (by rw [hpc, ← hlow]; rfl)
    · exact congrArg ticketOf (update_self i _ s.writer)
    · exact ticketOf_update_of_ne s.writer i .wake
  · intro t ht
    change t < (s.published ++ [ticket]).length
    rcases mem_append.mp ht with ht | ht
    · have := h.finished t ht
      omega
    · rw [mem_singleton.mp ht]
      omega

theorem writer_inv {spurious : Bool} (h : TicketInv s) (hsteady : SteadyAt s spurious (s.writer i))
    (hm : WriterMove s i spurious s') : TicketInv s' ∧ Advances s s' := by
  cases hm with
  | claim hpc =>
    rw [hpc] at hsteady
    exact ⟨claim_inv h hpc hsteady, .inl ⟨rfl, rfl⟩⟩
  | @fill data idx ticket hpc =>
    have hstored : TicketInv (s.storeSlot idx data) := { h with }
    have hbusy := h.busy_at hpc
    exact ⟨goto_inv hstored hbusy (congrArg ticketOf hpc).symm, .inl ⟨rfl, rfl⟩⟩
  | @exchange idx ticket hpc hsame hcas =>
    obtain ⟨hlow, hinv⟩ := exchange_inv h hpc hsame
    refine ⟨hinv, .inr ⟨?_, ?_⟩⟩
    · change idx + 1#32 = s.ring.cursor + 1#32
      rw [hsame]
    · change s.published ++ [ticket] = _
      rw [hlow]
  | retry hpc hne =>
    have hbusy := h.busy_at hpc
    exact ⟨goto_inv h hbusy (congrArg ticketOf hpc).symm, .inl ⟨rfl, rfl⟩⟩
  | giveUp hpc hsame hcas =>
    rw [hpc] at hsteady
    exact absurd hsame (hsteady hcas)
  | wake hpc =>
    exact ⟨goto_inv h trivial (congrArg ticketOf hpc).symm, .inl ⟨rfl, rfl⟩⟩
  -- a writer of a busy loop never takes the lock
  | acquire hpc _ | loadSlot hpc | store hpc | loadNext hpc | publishLock hpc _ | publish hpc _
  | release hpc => exact False.elim (h.busy_at hpc)

variable [DecidableEq κ]

omit [DecidableEq ι] in
private theorem reader_inv {j : κ} (h : TicketInv s) (hm : ReaderMove s j s') :
    TicketInv s' ∧ Advances s s' := by
  cases hm <;> exact ⟨{ h with }, .inl ⟨rfl, rfl⟩⟩

private theorem step_inv {a : Event ι κ D} (h : TicketInv s) (hsteady : Steady s a)
    (hs : s.step a = some s') : TicketInv s' ∧ Advances s s' := by
  rcases step_cases hs with ⟨i, data, rfl, hpc, rfl⟩ | ⟨i, spurious, rfl, hm⟩ |
    ⟨j, number, rfl, hpc, rfl⟩ | ⟨j, rfl, hm⟩
  · have henter : s.enterWrite data = .claim data := by
      rw [enterWrite, h.mode]
    rw [henter]
    exact ⟨goto_inv h trivial (congrArg ticketOf hpc).symm, .inl ⟨rfl, rfl⟩⟩
  · exact writer_inv h hsteady hm
  · exact ⟨{ h with }, .inl ⟨rfl, rfl⟩⟩
  · exact reader_inv h hm

/-- In every run of a busy-loop ring whose steps are steady, `cursor` moves by one and in the order of
the claims, and no call returns before its claim is published. -/
theorem busy_loop_writes_orderly (capacity flag : BitVec 32) (env : RingBuffer.Env D)
    (r : RingBuffer D) (hi : RingBuffer.init capacity flag env = .ok r)
    (hmode : r.writeMode = .busyLoop) (events : List (Event ι κ D)) (s : State ι κ D)
    (hr : run (guarded step Steady) (start r) events = some s) :
    Orderly s ∧ ∀ a s', guarded step Steady s a = some s' → Advances s s' := by
  have hinv : TicketInv s := by
    apply run_invariant (I := TicketInv) _ (start_inv hi hmode) hr
    intro t a t' ht hstep
    obtain ⟨hsteady, hstep⟩ := guarded_eq_some.mp hstep
    exact (step_inv ht hsteady hstep).1
  refine ⟨hinv.orderly, ?_⟩
  intro a s' hstep
  obtain ⟨hsteady, hstep⟩ := guarded_eq_some.mp hstep
  exact (step_inv hinv hsteady hstep).2

def busyRing : RingBuffer Nat := ⟨2#32, 4#32, .busyLoop, .wait, 0#32, 0#32, 0#32, [0, 0]⟩

def envOk : RingBuffer.Env Nat := ⟨.ok, .ok, .ok, some fun _ => 0⟩

def twoWriters : List (Event Bool Unit Nat) :=
  [.write false 7, .write true 8, .writer false false, .writer true false, .writer true false,
    .writer true false, .writer true true, .writer false false, .writer false false,
    .writer true false, .writer false false, .writer true false]

theorem busy_loop_writes_orderly_two_writers : ∃ s : State Bool Unit Nat,
      run (guarded step Steady) (start busyRing) twoWriters = some s ∧ s.finished = [0, 1] ∧
        Orderly s ∧ ∀ a s', guarded step Steady s a = some s' → Advances s s' := by
  have hrun : (run (guarded step Steady) (start busyRing) twoWriters).map State.finished =
      some [0, 1] := by decide +kernel
  obtain ⟨s, hs, hfinished⟩ := Option.map_eq_some_iff.mp hrun
  exact ⟨s, hs, hfinished,
    busy_loop_writes_orderly 2#32 4#32 envOk busyRing (by decide +kernel) rfl twoWriters s hs⟩

/-- A spurious failure on the claimed index ends the loop: the call returns with its message
unpublished, and every later writer waits for it. -/
theorem spurious_failure_returns_unpublished :
    ¬ ∀ (capacity flag : BitVec 32) (env : RingBuffer.Env Nat) (r : RingBuffer Nat),
      RingBuffer.init capacity flag env = .ok r → r.writeMode = .busyLoop →
      ∀ (events : List (Event Bool Unit Nat)) (s : State Bool Unit Nat),
        run step (start r) events = some s → Orderly s := by
  intro h
  have hrun : (run step (start busyRing : State Bool Unit Nat)
      [.write false 7, .writer false false, .writer false false, .writer false true]).map
      (fun s => (s.finished, s.published)) = some ([0], []) := by decide +kernel
  obtain ⟨s, hs, hlogs⟩ := Option.map_eq_some_iff.mp hrun
  obtain ⟨hfinished, hpublished⟩ := Prod.mk.inj hlogs
  have horderly := h 2#32 4#32 envOk busyRing (by decide +kernel) rfl _ s hs
  have hmem := horderly.returned_published 0 (by rw [hfinished]; exact mem_singleton.mpr rfl)
  rw [hpublished] at hmem
  exact absurd hmem not_mem_nil

end MuggleC.Sync.RingTickets
