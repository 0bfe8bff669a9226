/- source: sync/ring_buffer.c
   digest: What readers of a ring get while its writers are serialised. -/

import MuggleC.Sync.RingBuffer

set_option autoImplicit false

/-! The cursors are remainders of the numbers of messages written and returned. The last
`capacity - 1` messages are in their slots at every time, because the writer inside the lock fills
the one slot that belongs to none of them. -/

namespace MuggleC.Sync.RingReads

open Base Foundation.Counter Foundation.Threads Foundation.Transition RingSteps State Function List

variable {ι κ D : Type}

/-- The mutex serialises the writers, or there is one writer only, as the flag promises. -/
def Serial (ι : Type) (r : RingBuffer D) : Prop :=
  r.writeMode = .lock ∨ r.writeMode = .single ∧ ∀ i j : ι, i = j

/-- A read that fetched its slot while its message was among the last `capacity - 1` got it. -/
structure ReadsExact (s : State ι κ D) : Prop where
  cursor_eq : s.ring.cursor = BitVec.ofNat 32 s.messages.length
  exact : ∀ f ∈ s.fetched, f.number + 1 ≤ f.written →
    f.written ≤ f.number + (s.ring.capacity.toNat - 1) → s.messages[f.number]? = some f.data

def PacedAt (s : State ι κ D) : WriterPc D → Prop
  | .publish _ _ => s.messages.length + 1 ≤ s.returned.length + (s.ring.capacity.toNat - 1)
  | _ => True

instance (s : State ι κ D) (pc : WriterPc D) : Decidable (PacedAt s pc) :=
  match pc with
  | .publish _ _ => inferInstanceAs (Decidable (_ ≤ _))
  | .idle => .isTrue trivial
  | .lock _ => .isTrue trivial
  | .loadSlot _ => .isTrue trivial
  | .store _ _ => .isTrue trivial
  | .loadNext _ => .isTrue trivial
  | .unlock => .isTrue trivial
  | .claim _ => .isTrue trivial
  | .fill _ _ _ => .isTrue trivial
  | .exchange _ _ => .isTrue trivial
  | .wake => .isTrue trivial

def Paced (s : State ι κ D) : Event ι κ D → Prop
  | .writer i _ => PacedAt s (s.writer i)
  | _ => True

instance (s : State ι κ D) (a : Event ι κ D) : Decidable (Paced s a) :=
  match a with
  | .writer i _ => inferInstanceAs (Decidable (PacedAt s (s.writer i)))
  | .write _ _ => .isTrue trivial
  | .read _ _ => .isTrue trivial
  | .reader _ => .isTrue trivial

/-- The messages returned over all readers are the first ones written, each once and in order, and a
read waits only when every message written has been returned. -/
structure OnceExact (s : State ι κ D) : Prop where
  cursor_eq : s.ring.readCursor = BitVec.ofNat 32 s.returned.length
  returned_eq : s.returned = s.messages.take s.returned.length
  starved : ∀ p ∈ s.starved, p.1 = p.2

def inWrite : WriterPc D → Bool
  | .loadSlot _ => true
  | .store _ _ => true
  | .loadNext _ => true
  | .publish _ _ => true
  | .unlock => true
  | _ => false

def inRead : ReaderPc D → Bool
  | .loadCursor => true
  | .loadRead _ _ => true
  | .waitOnce => true
  | .fetchOnce _ => true
  | .advance _ => true
  | .unlock => true
  | _ => false

def WriterOk (k : Nat) (s : State ι κ D) : WriterPc D → Prop
  | .store _ cur => cur = BitVec.ofNat 32 s.messages.length
  | .loadNext data => s.ring.datas[s.messages.length % 2 ^ k]? = some data
  | .publish data cur =>
    s.ring.datas[s.messages.length % 2 ^ k]? = some data ∧ cur = BitVec.ofNat 32 s.messages.length
  | .claim _ => False
  | .fill _ _ _ => False
  | .exchange _ _ => False
  | _ => True

def IndexOk : ReaderPc D → Prop
  | .load idx number => idx = BitVec.ofNat 32 number
  | .wait idx number => idx = BitVec.ofNat 32 number
  | .fetch idx number => idx = BitVec.ofNat 32 number
  | _ => True

structure ReadInv (k : Nat) (s : State ι κ D) : Prop where
  serial : Serial ι s.ring
  capacity_eq : s.ring.capacity.toNat = 2 ^ k
  length_eq : s.ring.datas.length = 2 ^ k
  cursor_eq : s.ring.cursor = BitVec.ofNat 32 s.messages.length
  lock : s.ring.writeMode = .lock →
    Exclusive (s.writeMutex.isSome = true) fun i => inWrite (s.writer i) = true
  writer : ∀ i, WriterOk k s (s.writer i)
  reader : ∀ j, IndexOk (s.reader j)
  stored : ∀ n, n < s.messages.length → s.messages.length < n + 2 ^ k →
    s.ring.datas[n % 2 ^ k]? = s.messages[n]?
  fetched : ∀ f ∈ s.fetched, f.number + 1 ≤ f.written → f.written ≤ f.number + (2 ^ k - 1) →
    s.messages[f.number]? = some f.data

variable {k : Nat} {s s' : State ι κ D} {pc : WriterPc D} {i : ι} {j : κ} {data : D}

theorem ReadInv.writer_at (h : ReadInv k s)
    (hpc : s.writer i = pc) : WriterOk k s pc := hpc ▸ h.writer i

theorem ReadInv.reader_at (h : ReadInv k s) {pc : ReaderPc D}
    (hpc : s.reader j = pc) : IndexOk pc := hpc ▸ h.reader j

def OnceOk (k : Nat) (s : State ι κ D) : ReaderPc D → Prop
  | .loadRead w written =>
    w = BitVec.ofNat 32 written ∧ s.returned.length ≤ written ∧ written ≤ s.messages.length
  | .fetchOnce rPos =>
    rPos = s.returned.length % 2 ^ k ∧ s.returned.length < s.messages.length
  | .advance data => s.messages[s.returned.length]? = some data
  | _ => True

structure OnceInv (k : Nat) (s : State ι κ D) : Prop where
  base : ReadInv k s
  pos : 0 < k
  mode : s.ring.readMode = .lock
  cursor_eq : s.ring.readCursor = BitVec.ofNat 32 s.returned.length
  returned_le : s.returned.length ≤ s.messages.length
  ahead : s.messages.length ≤ s.returned.length + (2 ^ k - 1)
  returned_eq : s.returned = s.messages.take s.returned.length
  lock : Exclusive (s.readMutex.isSome = true) fun j => inRead (s.reader j) = true
  once : ∀ j, OnceOk k s (s.reader j)
  starved : ∀ p ∈ s.starved, p.1 = p.2

theorem OnceInv.once_at (h : OnceInv k s) {pc : ReaderPc D}
    (hpc : s.reader j = pc) : OnceOk k s pc := hpc ▸ h.once j

theorem ReadInv.readsExact (h : ReadInv k s) : ReadsExact s := by
  refine ⟨h.cursor_eq, ?_⟩
  rw [h.capacity_eq]
  exact h.fetched

theorem OnceInv.onceExact (h : OnceInv k s) : OnceExact s :=
  ⟨h.cursor_eq, h.returned_eq, h.starved⟩

private theorem start_inv {capacity flag : BitVec 32} {env : RingBuffer.Env D} {r : RingBuffer D}
    (hi : RingBuffer.init capacity flag env = .ok r) (hserial : Serial ι r) :
    ∃ k, r.capacity.toNat = 2 ^ k ∧ r.readCursor = 0#32 ∧ ReadInv k (start r : State ι κ D) := by
  obtain ⟨k, hfresh⟩ := RingBuffer.init_fresh hi
  refine ⟨k, hfresh.capacity_eq, hfresh.readCursor_eq, hserial, hfresh.capacity_eq,
    hfresh.length_eq, hfresh.cursor_eq, ?_, fun _ => trivial, fun _ => trivial, ?_, ?_⟩
  · intro _
    constructor
    · intro i hi
      cases hi
    · intro i j hi
      cases hi
  · intro n hn
    exact absurd hn (Nat.not_lt_zero n)
  · intro f hf
    exact absurd hf not_mem_nil

theorem ReadInv.others (h : ReadInv k s) {i j : ι}
    (hi : inWrite (s.writer i) = true) (hne : j ≠ i) : inWrite (s.writer j) = false := by
  rw [← Bool.not_eq_true]
  intro hj
  rcases h.serial with hmode | ⟨_, hone⟩
  · exact hne ((h.lock hmode).unique j i hj hi)
  · exact hne (hone j i)

theorem WriterOk.of_outside (s' : State ι κ D)
    (h : WriterOk k s pc) (hout : inWrite pc = false) : WriterOk k s' pc := by
  cases pc with
  | store _ _ => cases hout
  | loadNext _ => cases hout
  | publish _ _ => cases hout
  | _ => exact h

theorem OnceOk.of_outside (s : State ι κ D) {pc : ReaderPc D} (hout : inRead pc = false) :
    OnceOk k s pc := by
  cases pc with
  | loadRead _ _ => cases hout
  | fetchOnce _ => cases hout
  | advance _ => cases hout
  | _ => trivial

theorem OnceOk.append (s' : State ι κ D) {pc : ReaderPc D} (data : D)
    (h : OnceOk k s pc) (hreturned : s'.returned = s.returned)
    (hmessages : s'.messages = s.messages ++ [data]) : OnceOk k s' pc := by
  have hlen : s'.messages.length = s.messages.length + 1 := by
    rw [hmessages, length_append, length_singleton]
  cases pc with
  | loadRead w written =>
    refine ⟨h.1, by rw [hreturned]; exact h.2.1, ?_⟩
    have := h.2.2
    omega
  | fetchOnce rPos =>
    refine ⟨by rw [hreturned]; exact h.1, ?_⟩
    have := h.2
    rw [hreturned]
    omega
  | advance data' =>
    change s'.messages[s'.returned.length]? = some data'
    rw [hmessages, hreturned]
    rw [List.getElem?_append_left (List.getElem?_eq_some_iff.mp h).1]
    exact h
  | _ => trivial

variable {w : BitVec 32} {written : Nat}

theorem OnceInv.slot_eq_iff (h : OnceInv k s) (hok : OnceOk k s (.loadRead w written)) :
    s.ring.slot w = s.ring.slot s.ring.readCursor ↔ written = s.returned.length := by
  obtain ⟨hw, hlow, hhigh⟩ := hok
  have hahead := h.ahead
  have := Nat.two_pow_pos k
  rw [hw, h.cursor_eq, RingBuffer.slot_ofNat h.base.capacity_eq,
    RingBuffer.slot_ofNat h.base.capacity_eq]
  constructor
  · exact eq_of_mod_eq hlow (by omega)
  · intro he
    rw [he]

section Writers

variable [DecidableEq ι]

theorem writers_update (h : ∀ j, WriterOk k s (s.writer j)) (hpc : WriterOk k s pc) (j : ι) :
    WriterOk k s (update s.writer i pc j) :=
  (forall_update_iff s.writer fun _ pc => WriterOk k s pc).mpr ⟨hpc, fun j _ => h j⟩ j

variable (h : ReadInv k s)

include h

theorem writerOk_update (hin : inWrite (s.writer i) = true) (s' : State ι κ D)
    (hpc : WriterOk k s' pc) (j : ι) : WriterOk k s' (update s.writer i pc j) := by
  rcases eq_or_ne j i with rfl | hne
  · rw [update_self]
    exact hpc
  · rw [update_of_ne hne]
    exact (h.writer j).of_outside s' (h.others hin hne)

theorem gotoWriter_inv
    (hin : inWrite pc = true → inWrite (s.writer i) = true) (hpc : WriterOk k s pc) :
    ReadInv k (s.gotoWriter i pc) :=
  { h with
    lock := fun hmode => (h.lock hmode).update_stay hin
    writer := writers_update h.writer hpc }

variable {cur : BitVec 32}

private theorem store_inv (hpc : s.writer i = .store data cur) :
    ReadInv k ((s.storeSlot cur data).gotoWriter i (.loadNext data)) := by
  have hin : inWrite (s.writer i) = true := by rw [hpc]; rfl
  have hcur := h.writer_at hpc
  have hslot : s.ring.slot cur = s.messages.length % 2 ^ k := by
    rw [show cur = BitVec.ofNat 32 s.messages.length from hcur, RingBuffer.slot_ofNat h.capacity_eq]
  have hlt : s.messages.length % 2 ^ k < s.ring.datas.length := by
    rw [h.length_eq]
    exact Nat.mod_lt _ (Nat.two_pow_pos k)
  have hdatas : (s.ring.storeData cur data).datas =
      s.ring.datas.set (s.messages.length % 2 ^ k) data := by
    rw [RingBuffer.storeData, hslot]
  refine { h with
    length_eq := ?_
    lock := fun hmode => (h.lock hmode).update_stay fun _ => hin
    writer := writerOk_update h hin _ ?_
    stored := ?_ }
  · exact (congrArg length hdatas).trans ((length_set).trans h.length_eq)
  · change (s.ring.storeData cur data).datas[s.messages.length % 2 ^ k]? = some data
    rw [hdatas, getElem?_set_self hlt]
  · intro n hn hrecent
    change (s.ring.storeData cur data).datas[n % 2 ^ k]? = s.messages[n]?
    have hne : s.messages.length % 2 ^ k ≠ n % 2 ^ k := by
      intro he
      have := eq_of_mod_eq (Nat.le_of_lt hn) hrecent he
      omega
    rw [hdatas, getElem?_set_ne hne]
    exact h.stored n hn hrecent

theorem publish_inv (hpc : s.writer i = .publish data cur) (hend : pc = .unlock ∨ pc = .wake) :
    ReadInv k ((s.moveCursor cur data).gotoWriter i pc) := by
  have hin : inWrite (s.writer i) = true := by rw [hpc]; rfl
  have hok := h.writer_at hpc
  obtain ⟨hfilled, hcur⟩ := hok
  have hlen : (s.messages ++ [data]).length = s.messages.length + 1 := length_append
  refine { h with
    cursor_eq := ?_
    lock := fun hmode => (h.lock hmode).update_stay fun _ => hin
    writer := writerOk_update h hin _ ?_
    stored := ?_
    fetched := ?_ }
  · change cur + 1#32 = BitVec.ofNat 32 (s.messages ++ [data]).length
    rw [hlen, hcur, ofNat_succ]
  · rcases hend with rfl | rfl
    · trivial
    · trivial
  · intro n hn hrecent
    change n < (s.messages ++ [data]).length at hn
    change (s.messages ++ [data]).length < n + 2 ^ k at hrecent
    change s.ring.datas[n % 2 ^ k]? = (s.messages ++ [data])[n]?
    rcases Nat.lt_or_ge n s.messages.length with hlt | hge
    · rw [getElem?_append_left hlt]
      exact h.stored n hlt (by omega)
    · have hnew : n = s.messages.length := by omega
      rw [hnew, hfilled, getElem?_concat_length]
  · intro f hf hlow hhigh
    have hget := h.fetched f hf hlow hhigh
    change (s.messages ++ [data])[f.number]? = some f.data
    rw [List.getElem?_append_left (List.getElem?_eq_some_iff.mp hget).1]
    exact hget

private theorem acquire_inv (hfree : s.writeMutex = none) :
    ReadInv k ({ s with writeMutex := some i }.gotoWriter i (.loadSlot data)) :=
  { h with
    lock := fun hmode =>
      (h.lock hmode).update_enter (by rw [hfree]; exact Bool.false_ne_true) rfl
    writer := writers_update h.writer trivial }

private theorem release_inv (hpc : s.writer i = .unlock) : ReadInv k (s.stepUnlock i) :=
  { h with
    lock := fun hmode =>
      (h.lock hmode).update_leave (by rw [hpc]; rfl) rfl
    writer := writers_update h.writer trivial }

variable {spurious : Bool}

theorem writer_inv (hm : WriterMove s i spurious s') : ReadInv k s' := by
  cases hm with
  | acquire hpc hfree => exact acquire_inv h hfree
  | loadSlot hpc => exact gotoWriter_inv h (by intro _; rw [hpc]; rfl) h.cursor_eq
  | store hpc => exact store_inv h hpc
  | loadNext hpc =>
    exact gotoWriter_inv h (by intro _; rw [hpc]; rfl) ⟨h.writer_at hpc, h.cursor_eq⟩
  | publishLock hpc hmode => exact publish_inv h hpc (.inl rfl)
  | publish hpc hmode => exact publish_inv h hpc (.inr rfl)
  | release hpc => exact release_inv h hpc
  | wake hpc => exact gotoWriter_inv h (by intro hin; cases hin) trivial
  -- a writer that is serialised claims no ticket
  | claim hpc | fill hpc | exchange hpc _ _ | retry hpc _ | giveUp hpc _ _ =>
    exact False.elim (h.writer_at hpc)

theorem write_inv (i : ι) (data : D) : ReadInv k (s.gotoWriter i (s.enterWrite data)) := by
  rcases h.serial with hmode | ⟨hmode, _⟩
  · rw [enterWrite, hmode]
    exact gotoWriter_inv h (by intro hin; cases hin) trivial
  · rw [enterWrite, hmode]
    refine { h with
      lock := ?_
      writer := writers_update h.writer trivial }
    intro hlock
    change s.ring.writeMode = .lock at hlock
    rw [hmode] at hlock
    cases hlock

omit h

private theorem writer_once (h : OnceInv k s)
    (hpaced : PacedAt s (s.writer i)) (hm : WriterMove s i spurious s') : OnceInv k s' := by
  have hbase := writer_inv h.base hm
  have hpublish : ∀ {data : D} {cur : BitVec 32} {pc : WriterPc D},
      s.writer i = .publish data cur → ReadInv k ((s.moveCursor cur data).gotoWriter i pc) →
      OnceInv k ((s.moveCursor cur data).gotoWriter i pc) := by
    intro data cur pc hpc hb
    rw [hpc] at hpaced
    have hahead : s.messages.length + 1 ≤ s.returned.length + (2 ^ k - 1) := by
      rw [← h.base.capacity_eq]
      exact hpaced
    have hlen : (s.messages ++ [data]).length = s.messages.length + 1 := length_append
    refine { h with
      base := hb
      returned_le := ?_
      ahead := hlen.trans_le hahead
      returned_eq := ?_
      once := ?_ }
    · exact Nat.le_trans h.returned_le (hlen ▸ Nat.le_succ _)
    · change s.returned = (s.messages ++ [data]).take s.returned.length
      rw [take_append_of_le_length h.returned_le]
      exact h.returned_eq
    · intro j
      exact (h.once j).append _ data rfl rfl
  cases hm with
  | publishLock hpc hmode | publish hpc hmode => exact hpublish hpc hbase
  | _ => exact { h with base := hbase }

end Writers

section Readers

variable [DecidableEq κ] {pc : ReaderPc D}

theorem gotoReader_inv (h : ReadInv k s)
    (hpc : IndexOk pc) : ReadInv k (s.gotoReader j pc) :=
  { h with
    reader := (forall_update_iff s.reader fun _ pc => IndexOk pc).mpr ⟨hpc, fun j _ => h.reader j⟩ }

private theorem fetch_inv (h : ReadInv k s) {idx : BitVec 32} {number : Nat}
    (hpc : s.reader j = .fetch idx number) (hdata : s.ring.datas[s.ring.slot idx]? = some data) :
    ReadInv k (s.stepFetch j number data) := by
  have hidx := h.reader_at hpc
  have hslot : s.ring.slot idx = number % 2 ^ k := by
    rw [show idx = BitVec.ofNat 32 number from hidx, RingBuffer.slot_ofNat h.capacity_eq]
  rw [hslot] at hdata
  have hnote : ReadInv k { s with
      fetched := s.fetched ++ [Fetch.mk number s.messages.length data] } := by
    refine { h with fetched := ?_ }
    intro f hf hlow hhigh
    rcases mem_append.mp hf with hf | hf
    · exact h.fetched f hf hlow hhigh
    · rw [mem_singleton.mp hf] at hlow hhigh ⊢
      exact (h.stored number (by exact hlow) (by dsimp only at hhigh; omega)).symm.trans hdata
  exact gotoReader_inv hnote trivial

theorem reader_inv (h : ReadInv k s) (hm : ReaderMove s j s') : ReadInv k s' := by
  cases hm with
  | visible hpc | empty hpc | again hpc =>
    have hidx := h.reader_at hpc
    exact gotoReader_inv h hidx
  | fetch hpc hdata => exact fetch_inv h hpc hdata
  | acquire hpc hfree =>
    have hlocked : ReadInv k { s with readMutex := some j } := { h with }
    exact gotoReader_inv hlocked trivial
  | loadCursor hpc | unread hpc hne | retry hpc | fetchOnce hpc hdata =>
    exact gotoReader_inv h trivial
  | @starve w written hpc he =>
    have hnoted : ReadInv k { s with starved := s.starved ++ [(written, s.returned.length)] } :=
      { h with }
    exact gotoReader_inv hnoted trivial
  | @advance data hpc =>
    have hmoved : ReadInv k { s with
        ring := { s.ring with readCursor := s.ring.readCursor + 1#32 }
        returned := s.returned ++ [data] } := { h with }
    exact gotoReader_inv hmoved trivial
  | release hpc =>
    have hfreed : ReadInv k { s with readMutex := none } := { h with }
    exact gotoReader_inv hfreed trivial

theorem read_inv (h : ReadInv k s) (j : κ) (number : Nat) :
    ReadInv k (s.gotoReader j (s.enterRead number)) := by
  apply gotoReader_inv h
  unfold enterRead
  split
  · rfl
  · rfl
  · rfl
  · trivial

theorem readers_update (h : ∀ i, OnceOk k s (s.reader i)) (hpc : OnceOk k s pc) (i : κ) :
    OnceOk k s (update s.reader j pc i) :=
  (forall_update_iff s.reader fun _ pc => OnceOk k s pc).mpr ⟨hpc, fun i _ => h i⟩ i

theorem gotoReader_once (h : OnceInv k s) (hbase : ReadInv k (s.gotoReader j pc))
    (hin : inRead pc = true → inRead (s.reader j) = true) (hpc : OnceOk k s pc) :
    OnceInv k (s.gotoReader j pc) :=
  { h with
    base := hbase
    lock := h.lock.update_stay hin
    once := readers_update h.once hpc }

private theorem starve_once (h : OnceInv k s) (hbase : ReadInv k (s.stepStarve j written))
    (hpc : s.reader j = .loadRead w written)
    (he : s.ring.slot w = s.ring.slot s.ring.readCursor) : OnceInv k (s.stepStarve j written) := by
  have hok := h.once_at hpc
  have hall := (h.slot_eq_iff hok).mp he
  have hmove : OnceInv k (s.gotoReader j .waitOnce) :=
    gotoReader_once h (gotoReader_inv h.base trivial) (by intro _; rw [hpc]; rfl) trivial
  refine { hmove with base := hbase, starved := ?_ }
  intro p hp
  rcases mem_append.mp hp with hp | hp
  · exact h.starved p hp
  · rw [mem_singleton.mp hp]
    exact hall

private theorem advance_once (h : OnceInv k s) (hbase : ReadInv k (s.stepAdvance j data))
    (hpc : s.reader j = .advance data) : OnceInv k (s.stepAdvance j data) := by
  have hget : s.messages[s.returned.length]? = some data := h.once_at hpc
  have hin : inRead (s.reader j) = true := by rw [hpc]; rfl
  have hlt := (List.getElem?_eq_some_iff.mp hget).1
  have hlen : (s.returned ++ [data]).length = s.returned.length + 1 := List.length_append
  have hahead := h.ahead
  refine { h with
    base := hbase
    cursor_eq := ?_
    returned_le := ?_
    ahead := ?_
    returned_eq := ?_
    lock := h.lock.update_stay fun _ => hin
    once := ?_ }
  · change s.ring.readCursor + 1#32 = BitVec.ofNat 32 (s.returned ++ [data]).length
    rw [hlen, h.cursor_eq, ofNat_succ]
  · exact hlen.trans_le hlt
  · change s.messages.length ≤ (s.returned ++ [data]).length + (2 ^ k - 1)
    omega
  · change s.returned ++ [data] = s.messages.take (s.returned ++ [data]).length
    rw [hlen, take_add_one, hget, ← h.returned_eq]
    rfl
  · refine (forall_update_iff s.reader fun _ pc => OnceOk k _ pc).mpr ⟨trivial, ?_⟩
    intro i hne
    apply OnceOk.of_outside
    rw [← Bool.not_eq_true]
    intro hi
    exact hne (h.lock.unique i j hi hin)

private theorem reader_once (h : OnceInv k s) (hm : ReaderMove s j s') : OnceInv k s' := by
  have hbase := reader_inv h.base hm
  cases hm with
  | visible hpc | empty hpc | again hpc =>
    exact gotoReader_once h hbase (by intro hin; cases hin) trivial
  | @fetch idx number data hpc hdata =>
    have hmove : OnceInv k (s.gotoReader j .idle) :=
      gotoReader_once h (gotoReader_inv h.base trivial) (by intro hin; cases hin) trivial
    exact { hmove with base := hbase }
  | acquire hpc hfree =>
    exact { h with
      base := hbase
      lock := h.lock.update_enter (by rw [hfree]; exact Bool.false_ne_true) rfl
      once := readers_update h.once trivial }
  | loadCursor hpc =>
    exact gotoReader_once h hbase (by intro _; rw [hpc]; rfl)
      ⟨h.base.cursor_eq, h.returned_le, Nat.le_refl _⟩
  | @unread w written hpc hne =>
    have hok := h.once_at hpc
    have hnot : written ≠ s.returned.length := fun he => hne ((h.slot_eq_iff hok).mpr he)
    refine gotoReader_once h hbase (by intro _; rw [hpc]; rfl) ⟨?_, ?_⟩
    · rw [h.cursor_eq, RingBuffer.slot_ofNat h.base.capacity_eq]
    · have := hok.2.1
      have := hok.2.2
      omega
  | starve hpc he => exact starve_once h hbase hpc he
  | retry hpc => exact gotoReader_once h hbase (by intro _; rw [hpc]; rfl) trivial
  | @fetchOnce rPos data hpc hdata =>
    obtain ⟨hpos, hlt⟩ := h.once_at hpc
    have hahead := h.ahead
    refine gotoReader_once h hbase (by intro _; rw [hpc]; rfl) ?_
    change s.messages[s.returned.length]? = some data
    rw [← h.base.stored s.returned.length hlt (by omega), ← hpos]
    exact hdata
  | advance hpc => exact advance_once h hbase hpc
  | release hpc =>
    exact { h with
      base := hbase
      lock := h.lock.update_leave (by rw [hpc]; rfl) rfl
      once := readers_update h.once trivial }

end Readers

variable [DecidableEq ι] [DecidableEq κ] {a : Event ι κ D}

private theorem step_inv (h : ReadInv k s) (hs : s.step a = some s') : ReadInv k s' := by
  rcases step_cases hs with ⟨i, data, rfl, hpc, rfl⟩ | ⟨i, spurious, rfl, hm⟩ |
    ⟨j, number, rfl, hpc, rfl⟩ | ⟨j, rfl, hm⟩
  · exact write_inv h i data
  · exact writer_inv h hm
  · exact read_inv h j number
  · exact reader_inv h hm

private theorem step_once (h : OnceInv k s)
    (hpaced : Paced s a) (hs : s.step a = some s') : OnceInv k s' := by
  rcases step_cases hs with ⟨i, data, rfl, hpc, rfl⟩ | ⟨i, spurious, rfl, hm⟩ |
    ⟨j, number, rfl, hpc, rfl⟩ | ⟨j, rfl, hm⟩
  · exact { h with base := write_inv h.base i data }
  · exact writer_once h hpaced hm
  · have henter : s.enterRead number = .lock := by rw [enterRead, h.mode]
    have hbase := read_inv h.base j number
    rw [henter] at hbase ⊢
    exact gotoReader_once h hbase (by intro hin; cases hin) trivial
  · exact reader_once h hm

/-- With serialised writers a read in time is exact, and reading once over all readers returns the
messages in the order written. -/
theorem ring_reads_exact (capacity flag : BitVec 32) (env : RingBuffer.Env D) (r : RingBuffer D)
    (hi : RingBuffer.init capacity flag env = .ok r) (hcap : 2 ≤ r.capacity.toNat)
    (hserial : Serial ι r) : (∀ (events : List (Event ι κ D)) (s : State ι κ D),
      run step (start r) events = some s → ReadsExact s) ∧
    (r.readMode = .lock → ∀ (events : List (Event ι κ D)) (s : State ι κ D),
      run (guarded step Paced) (start r) events = some s → ReadsExact s ∧ OnceExact s) := by
  obtain ⟨k, hk, hread, hstart⟩ := start_inv (ι := ι) (κ := κ) hi hserial
  refine ⟨?_, ?_⟩
  · intro events s hr
    have hinv : ReadInv k s := run_invariant (fun _ _ _ ht hstep => step_inv ht hstep) hstart hr
    exact hinv.readsExact
  · intro hmode events s hr
    have hpos : 0 < k := by
      rcases Nat.eq_zero_or_pos k with rfl | hp
      · omega
      · exact hp
    have honce : OnceInv k (start r : State ι κ D) := by
      refine ⟨hstart, hpos, hmode, hread, Nat.le_refl _, Nat.zero_le _, rfl, ?_,
        fun _ => trivial, ?_⟩
      · constructor
        · intro j hj
          cases hj
        · intro i j hi
          cases hi
      · intro p hp
        exact absurd hp not_mem_nil
    have hinv : OnceInv k s := by
      apply run_invariant (I := OnceInv k) _ honce hr
      intro t a t' ht hstep
      obtain ⟨hpaced, hstep⟩ := guarded_eq_some.mp hstep
      exact step_once ht hpaced hstep
    exact ⟨hinv.base.readsExact, hinv.onceExact⟩

def onceRing : RingBuffer Nat := ⟨2#32, 16#32, .lock, .lock, 0#32, 0#32, 0#32, [0, 0]⟩

def waitRing : RingBuffer Nat := ⟨2#32, 0#32, .lock, .wait, 0#32, 0#32, 0#32, [0, 0]⟩

def twoReaders : List (Event Bool Bool Nat) :=
  [.read false 0, .reader false, .write true 5] ++ List.replicate 7 (.writer true false)
    ++ List.replicate 3 (.reader false) ++ [.read true 0] ++ List.replicate 2 (.reader true)

def twoMessages : List (Event Bool Bool Nat) :=
  [.read false 0] ++ List.replicate 3 (.reader false) ++ [.write true 5]
    ++ List.replicate 7 (.writer true false) ++ List.replicate 6 (.reader false)
    ++ [.write false 6] ++ List.replicate 7 (.writer false false) ++ [.read true 0]
    ++ List.replicate 6 (.reader true)

theorem ring_reads_exact_two_messages :
    (∃ s : State Bool Bool Nat, run step (start waitRing) twoReaders = some s ∧
      s.fetched.map Fetch.data = [5, 5] ∧ ReadsExact s) ∧
    ∃ s : State Bool Bool Nat, run (guarded step Paced) (start onceRing) twoMessages = some s ∧
      s.returned = [5, 6] ∧ s.starved = [(0, 0)] ∧ ReadsExact s ∧ OnceExact s := by
  refine ⟨?_, ?_⟩
  · have hrun : (run step (start waitRing : State Bool Bool Nat) twoReaders).map
        (fun s => s.fetched.map Fetch.data) = some [5, 5] := by decide +kernel
    obtain ⟨s, hs, hfetched⟩ := Option.map_eq_some_iff.mp hrun
    exact ⟨s, hs, hfetched,
      (ring_reads_exact 2#32 0#32 RingTickets.envOk waitRing (by decide +kernel) (by decide)
        (.inl rfl)).1 twoReaders s hs⟩
  · have hrun : (run (guarded step Paced) (start onceRing) twoMessages).map
        (fun s => (s.returned, s.starved)) = some ([5, 6], [(0, 0)]) := by decide +kernel
    obtain ⟨s, hs, hlogs⟩ := Option.map_eq_some_iff.mp hrun
    obtain ⟨hreturned, hstarved⟩ := Prod.mk.inj hlogs
    exact ⟨s, hs, hreturned, hstarved,
      (ring_reads_exact 2#32 16#32 RingTickets.envOk onceRing (by decide +kernel) (by decide)
        (.inl rfl)).2 rfl twoMessages s hs⟩

end MuggleC.Sync.RingReads
