/- source: sync/channel.c
   digest: With serialised writers and one reader the channel is a lossless bounded queue, and what
   its callers see of that. -/

import MuggleC.Sync.ChannelLock

set_option autoImplicit false

/-! The invariant speaks of the numbers of accepted and of returned messages, of which the cursors
are the remainders modulo `2 ^ 32`. The tests for full and empty are exact because the two numbers
differ by less than the capacity. -/

namespace MuggleC.Sync.ChannelFifo

open Base Foundation.Counter Foundation.Transition Foundation.Threads ChannelSteps State ChannelLock
open Function List

variable {ι D : Type} [DecidableEq ι]

/-- The accepted messages in the order in which the writes took effect. -/
def messages (s : State ι D) : List D := s.accepted.map Accepted.data

def RoomOk (k : Nat) (s : State ι D) : WriterPc D → Prop
  | .loadSlot _ => s.accepted.length + 2 < s.returned.length + 2 ^ k
  | .storeBlock _ _ => s.accepted.length + 2 < s.returned.length + 2 ^ k
  | .loadNext _ => s.accepted.length + 2 < s.returned.length + 2 ^ k
  | .storeCursor _ _ => s.accepted.length + 2 < s.returned.length + 2 ^ k
  | _ => True

def SeenOk (k seen : Nat) : WriterPc D → Prop
  | .loadSlot _ => seen ≠ 2 ^ k - 2
  | .storeBlock _ _ => seen ≠ 2 ^ k - 2
  | .loadNext _ => seen ≠ 2 ^ k - 2
  | .storeCursor _ _ => seen ≠ 2 ^ k - 2
  | .unlock _ ret => ret = .full ↔ seen = 2 ^ k - 2
  | .wakeWriter _ ret => ret = .full ↔ seen = 2 ^ k - 2
  | .wake _ ret => ret = .full ↔ seen = 2 ^ k - 2
  | _ => True

def WakeDue (s : State ι D) : Prop :=
  s.accepted.length = s.returned.length ∨ ∃ i, pending (s.writer i) ≠ []

def ReaderOk (k : Nat) (s : State ι D) : ReaderPc D → Prop
  | .idle => True
  | .loadPos => True
  | .load rPos => rPos = s.returned.length % 2 ^ k
  | .wait rPos w => rPos = s.returned.length % 2 ^ k ∧ w = BitVec.ofNat 32 s.returned.length
  | .asleep rPos => rPos = s.returned.length % 2 ^ k ∧ s.chan.fnRead = .futex ∧ WakeDue s
  | .fetch rPos => rPos = s.returned.length % 2 ^ k ∧ s.returned.length < s.accepted.length
  | .loadRead data => (messages s)[s.returned.length]? = some data
  | .storeRead data r =>
    (messages s)[s.returned.length]? = some data ∧ r = s.chan.readCursor

structure FifoInv (k : Nat) (s : State ι D) : Prop where
  base : WriterInv k s
  mode : s.chan.fnWrite = .mutex ∨ (s.chan.fnWrite = .singleWriter ∧ ∀ i j : ι, i = j)
  two_le : 2 ≤ k
  below : k < 31
  read_le : s.returned.length ≤ s.accepted.length
  write_le : s.accepted.length + 2 ≤ s.returned.length + 2 ^ k
  readCursor_eq : s.chan.readCursor = BitVec.ofNat 32 (2 ^ k - 1 + s.returned.length)
  stored : ∀ n, s.returned.length ≤ n → n < s.accepted.length →
    s.chan.blocks[n % 2 ^ k]? = (messages s)[n]?
  order : s.returned <+: messages s
  room : ∀ i, RoomOk k s (s.writer i)
  seen : ∀ i, SeenOk k (s.seen i) (s.writer i)
  full_iff : ∀ f ∈ s.finished, f.ret = .full ↔ f.seen = 2 ^ k - 2
  reader : ReaderOk k s s.reader

omit [DecidableEq ι] in
theorem length_messages (s : State ι D) : (messages s).length = s.accepted.length :=
  length_map _

namespace FifoInv

variable {k : Nat} {s : State ι D} (h : FifoInv k s)

include h

theorem pow_le : 2 ^ 2 ≤ 2 ^ k ∧ 2 ^ k < 2 ^ 31 :=
  ⟨Nat.pow_le_pow_right (by omega) h.two_le, Nat.pow_lt_pow_right (by omega) h.below⟩

private theorem serialised (spurious : Bool) : Serialised s spurious := by
  rcases h.mode with hm | ⟨hm, hone⟩
  · refine ⟨fun hs => ?_, fun hs => ?_⟩ <;> rw [hm] at hs <;> cases hs
  · refine ⟨fun _ => hone, fun hs => ?_⟩
    rw [hm] at hs
    cases hs

theorem fullTest_iff : s.chan.writeCursor + 1#32 = s.chan.readCursor ↔ s.unread = 2 ^ k - 2 := by
  have hp := h.pow_le
  have hr := h.read_le
  have hw := h.write_le
  rw [h.base.cursor_eq, ofNat_succ, h.readCursor_eq, unread]
  constructor
  · intro he
    have := eq_of_ofNat_eq (by omega) (by omega) he.symm
    omega
  · intro he
    congr 1
    omega

theorem emptyTest_iff : s.chan.slot s.chan.writeCursor = s.returned.length % 2 ^ k ↔
      s.accepted.length = s.returned.length := by
  have hr := h.read_le
  have hw := h.write_le
  rw [h.base.cursor_eq, Channel.slot_ofNat h.base.capacity_eq]
  constructor
  · exact eq_of_mod_eq hr (by omega)
  · intro he
    rw [he]

theorem readPos_eq : s.chan.slot (s.chan.readCursor + 1#32) = s.returned.length % 2 ^ k := by
  have hp := h.pow_le
  rw [h.readCursor_eq, ofNat_succ, Channel.slot_ofNat h.base.capacity_eq,
    show 2 ^ k - 1 + s.returned.length + 1 = s.returned.length + 2 ^ k by omega, Nat.add_mod_right]

theorem next_stored (hlt : s.returned.length < s.accepted.length) :
    s.chan.blocks[s.returned.length % 2 ^ k]? = (messages s)[s.returned.length]? :=
  h.stored _ (Nat.le_refl _) hlt

end FifoInv

variable {s s' : State ι D} {i : ι} {spurious : Bool} {k : Nat}

theorem move_data (hm : Move s i spurious s') :
    (s'.chan.blocks = s.chan.blocks ∧ s'.accepted = s.accepted) ∨
      (∃ data w, s.writer i = .storeBlock data w ∧
        s' = (s.putBlock i w data).goto i (.loadNext data)) ∨
      (∃ data w, s.writer i = .storeCursor data w ∧
        s' = (s.publish i w data).goto i (.unlock data .ok)) := by
  cases hm with
  | storeBlock hpc => exact .inr (.inl ⟨_, _, hpc, rfl⟩)
  | storeCursor hpc => exact .inr (.inr ⟨_, _, hpc, rfl⟩)
  | @wake data ret hpc =>
    obtain ⟨pc, he⟩ := wakeIf_eq s ret
    rw [he]
    exact .inl ⟨rfl, rfl⟩
  | _ => exact .inl ⟨rfl, rfl⟩

theorem messages_publish (s : State ι D) (i : ι) (w : BitVec 32) (data : D) (pc : WriterPc D) :
    messages ((s.publish i w data).goto i pc) = messages s ++ [data] := by
  simp [messages, goto, publish]

theorem move_bounds (hm : Move s i spurious s') (h : FifoInv k s) :
    messages s <+: messages s' ∧ s'.accepted.length + 2 ≤ s.returned.length + 2 ^ k := by
  rcases move_data hm with ⟨_, hacc⟩ | ⟨data, w, _, rfl⟩ | ⟨data, w, hpc, rfl⟩
  · rw [messages, messages, hacc]
    exact ⟨prefix_refl _, h.write_le⟩
  · exact ⟨prefix_refl _, h.write_le⟩
  · have hroom := h.room i
    rw [hpc] at hroom
    rw [messages_publish]
    refine ⟨prefix_append _ _, ?_⟩
    simp only [goto, publish, length_append, length_singleton]
    simp only [RoomOk] at hroom
    omega

private theorem move_stored
    (hm : Move s i spurious s') (h : FifoInv k s) (n : Nat) (hn : s.returned.length ≤ n)
    (hlt : n < s'.accepted.length) : s'.chan.blocks[n % 2 ^ k]? = (messages s')[n]? := by
  have hknown := h.base.known i
  have hroom := h.room i
  rcases move_data hm with ⟨hblk, hacc⟩ | ⟨data, w, hpc, rfl⟩ | ⟨data, w, hpc, rfl⟩
  · rw [hacc] at hlt
    rw [hblk, messages, hacc]
    exact h.stored n hn hlt
  · rw [hpc] at hknown hroom
    obtain rfl : w = s.chan.writeCursor := hknown
    simp only [RoomOk] at hroom
    change n < s.accepted.length at hlt
    have hother : s.accepted.length % 2 ^ k ≠ n % 2 ^ k := by
      intro he
      have := eq_of_mod_eq (m := n) (n := s.accepted.length) (by omega) (by omega) he
      omega
    simp only [goto, putBlock, Channel.storeBlock]
    rw [h.base.cursor_eq, Channel.slot_ofNat h.base.capacity_eq, getElem?_set_ne hother]
    exact h.stored n hn hlt
  · rw [hpc] at hknown
    obtain ⟨rfl, hdata⟩ := hknown
    rw [h.base.cursor_eq, Channel.slot_ofNat h.base.capacity_eq] at hdata
    rw [messages_publish]
    simp only [goto, publish, Channel.storeCursor, length_append, length_singleton]
      at hlt ⊢
    rcases Nat.lt_or_ge n s.accepted.length with hold | hnew
    · rw [getElem?_append_left (by rw [length_messages]; exact hold)]
      exact h.stored n hn hold
    · obtain rfl : n = s.accepted.length := by omega
      rw [hdata, ← length_messages, getElem?_concat_length]

variable {pc : WriterPc D} {r : BitVec 32} {a : Event ι D} {rPos : Nat}

omit [DecidableEq ι] in
theorem RoomOk.mono (h : RoomOk k s pc) (hacc : s'.accepted = s.accepted)
    (hret : s.returned.length ≤ s'.returned.length) : RoomOk k s' pc := by
  cases pc <;> simp only [RoomOk, hacc] at h ⊢ <;> omega

omit [DecidableEq ι] in
theorem RoomOk.of_outside (hout : inside pc = false) : RoomOk k s pc := by
  cases pc <;> simp_all [RoomOk, inside]

variable (hm : Move s i spurious s')

include hm

private theorem move_room (h : FifoInv k s) (j : ι) : RoomOk k s' (s'.writer j) := by
  have hf := move_framed hm
  have hj := h.room j
  rcases eq_or_ne j i with rfl | hne
  · have hknown := h.base.known j
    cases hm with
    | @room data w hpc hroom =>
      rw [hpc] at hknown
      obtain rfl : w = s.chan.writeCursor := hknown
      have hnot : s.unread ≠ 2 ^ k - 2 := fun he => hroom (h.fullTest_iff.mpr he)
      have hw := h.write_le
      simp only [unread] at hnot
      simp only [goto, check, update_self, RoomOk]
      omega
    | loadSlot hpc | loadNext hpc => simpa [goto, RoomOk, hpc] using hj
    | storeBlock hpc => simpa [goto, putBlock, countStore, RoomOk, hpc] using hj
    | wake hpc => simp [finish, RoomOk]
    | _ => simp [goto, RoomOk]
  · rw [hf.other j hne]
    rcases move_data hm with ⟨_, hacc⟩ | ⟨data, w, _, rfl⟩ | ⟨data, w, hpc, rfl⟩
    · exact hj.mono hacc (Nat.le_of_eq (by rw [hf.returned_eq]))
    · exact hj
    · apply RoomOk.of_outside
      cases hin : inside (s.writer j) with
      | false => rfl
      | true =>
        have hi : inside (s.writer i) = true := by rw [hpc]; rfl
        exact absurd (h.base.exclusive.unique j i hin hi) hne

private theorem move_seen (h : FifoInv k s) (j : ι) : SeenOk k (s'.seen j) (s'.writer j) := by
  have hf := move_framed hm
  have hj := h.seen j
  rcases eq_or_ne j i with rfl | hne
  · have hknown := h.base.known j
    cases hm with
    | @full data w hpc hfull =>
      rw [hpc] at hknown
      obtain rfl : w = s.chan.writeCursor := hknown
      simp only [goto, check, update_self, SeenOk, true_iff]
      exact h.fullTest_iff.mp hfull
    | @room data w hpc hroom =>
      rw [hpc] at hknown
      obtain rfl : w = s.chan.writeCursor := hknown
      simp only [goto, check, update_self, SeenOk]
      exact fun he => hroom (h.fullTest_iff.mpr he)
    | storeCursor hpc => simpa [goto, publish, countStore, SeenOk, hpc] using hj
    | wake hpc => simp [finish, SeenOk]
    | storeBlock hpc => simpa [goto, putBlock, countStore, SeenOk, hpc] using hj
    | enterSingle hpc | enterMutex hpc | enterFutex hpc | passFutex hpc | busyFutex hpc
    | retryFutex hpc | loadWrite hpc => simp [goto, SeenOk]
    | loadSlot hpc | loadNext hpc | leaveSingle hpc | leaveMutex hpc | leaveFutex hpc
    | wakeWriter hpc => simpa [goto, SeenOk, hpc] using hj
  · rw [hf.other j hne]
    have hsame : s'.seen j = s.seen j := by
      cases hm with
      | full hpc hfull | room hpc hroom => exact update_of_ne hne _ _
      | @wake data ret hpc =>
        obtain ⟨pc, he⟩ := wakeIf_eq s ret
        rw [he]
        rfl
      | _ => rfl
    rw [hsame]
    exact hj

private theorem move_full_iff (h : FifoInv k s) :
    ∀ f ∈ s'.finished, f.ret = .full ↔ f.seen = 2 ^ k - 2 := by
  cases hm with
  | @wake data ret hpc =>
    have hseen := h.seen i
    rw [hpc] at hseen
    obtain ⟨pc, he⟩ := wakeIf_eq s ret
    rw [he]
    intro f hf
    rcases mem_append.mp hf with hf | hf
    · exact h.full_iff f hf
    · obtain rfl := mem_singleton.mp hf
      exact hseen
  | _ => exact h.full_iff

private theorem move_wakeDue
    (hcall : ∀ data, s.writer i ≠ .wake data .ok) (h : WakeDue s) : WakeDue s' := by
  have hf := move_framed hm
  have hkeep : s'.accepted = s.accepted → pending (s'.writer i) = pending (s.writer i) →
      WakeDue s' := by
    intro hacc hpend
    rcases h with he | ⟨j, hj⟩
    · exact .inl (by rw [hacc, hf.returned_eq, he])
    · refine .inr ⟨j, ?_⟩
      rcases eq_or_ne j i with rfl | hne
      · rw [hpend]
        exact hj
      · rw [hf.other j hne]
        exact hj
  cases hm with
  | storeCursor hpc => exact .inr ⟨i, by simp [goto, pending]⟩
  | @wake data ret hpc =>
    have hret : ret ≠ .ok := by
      rintro rfl
      exact hcall data hpc
    refine hkeep ?_ ?_
    · rw [if_neg hret]
      rfl
    · rw [if_neg hret, hpc, pending_eq_nil_of_ret hret]
      simp [finish, pending]
  | @leaveSingle data ret hpc | @leaveMutex data ret hpc | @leaveFutex data ret hpc
  | @wakeWriter data ret hpc =>
    exact hkeep rfl (by cases ret <;> simp [goto, hpc, pending])
  | enterSingle hpc | enterMutex hpc | enterFutex hpc | passFutex hpc | busyFutex hpc
  | retryFutex hpc | loadWrite hpc | full hpc | room hpc | loadSlot hpc | storeBlock hpc
  | loadNext hpc => exact hkeep rfl (by simp [goto, hpc, pending])

omit hm

omit [DecidableEq ι] in
theorem ReaderOk.mono {pc : ReaderPc D} (h : ReaderOk k s pc)
    (hret : s'.returned = s.returned) (hfn : s'.chan.fnRead = s.chan.fnRead)
    (hrc : s'.chan.readCursor = s.chan.readCursor) (hmsg : messages s <+: messages s')
    (hwake : ∀ rPos, pc = .asleep rPos → WakeDue s → WakeDue s') : ReaderOk k s' pc := by
  have hlen := hmsg.length_le
  rw [length_messages, length_messages] at hlen
  have hget : ∀ {n : Nat} {data : D}, (messages s)[n]? = some data →
      (messages s')[n]? = some data := by
    intro n data hn
    obtain ⟨t, ht⟩ := hmsg
    have hlt := (List.getElem?_eq_some_iff.mp hn).1
    rw [← ht, List.getElem?_append_left hlt, hn]
  cases pc with
  | idle => trivial
  | loadPos => trivial
  | load rPos | wait rPos w => simpa [ReaderOk, hret] using h
  | asleep rPos =>
    obtain ⟨hpos, hmode, hdue⟩ := h
    exact ⟨by rw [hret]; exact hpos, by rw [hfn]; exact hmode, hwake rPos rfl hdue⟩
  | fetch rPos =>
    obtain ⟨hpos, hlt⟩ := h
    refine ⟨by rw [hret]; exact hpos, ?_⟩
    rw [hret]
    omega
  | loadRead data =>
    simp only [ReaderOk, hret] at h ⊢
    exact hget h
  | storeRead data r =>
    simp only [ReaderOk, hret, hrc] at h ⊢
    exact ⟨hget h.1, h.2⟩

omit [DecidableEq ι] in
private theorem wakeReader_readerOk (h : ReaderOk k s s.reader) :
    ReaderOk k s s.wakeReader.reader ∧ ∀ rPos, s.wakeReader.reader ≠ .asleep rPos := by
  cases hpc : s.reader with
  | asleep rPos =>
    rw [hpc] at h
    have he : s.wakeReader.reader = .load rPos := by
      simp [wakeReader, h.2.1, hpc]
    rw [he]
    exact ⟨h.1, fun _ hc => by cases hc⟩
  | _ =>
    have he : s.wakeReader.reader = s.reader := by
      simp [wakeReader, hpc]
    rw [he, hpc]
    rw [hpc] at h
    exact ⟨h, fun _ hc => by cases hc⟩

theorem move_reader (hm : Move s i spurious s') (h : FifoInv k s) : ReaderOk k s' s'.reader := by
  have hf := move_framed hm
  have hmsg := (move_bounds hm h).1
  by_cases hcall : ∃ data, s.writer i = .wake data .ok
  · obtain ⟨data, hpc⟩ := hcall
    obtain ⟨hok, hawake⟩ := wakeReader_readerOk h.reader
    have hs' : s'.reader = s.wakeReader.reader := by
      cases hm with
      | @wake data' ret' hpc' =>
        rw [hpc] at hpc'
        cases hpc'
        rfl
      | _ => simp_all
    rw [hs']
    exact hok.mono hf.returned_eq hf.fnRead_eq hf.readCursor_eq hmsg
      fun rPos hr => absurd hr (hawake rPos)
  · have hsame : s'.reader = s.reader := by
      cases hm with
      | @wake data ret hpc =>
        have hret : ret ≠ .ok := by
          rintro rfl
          exact hcall ⟨data, hpc⟩
        rw [if_neg hret]
        rfl
      | _ => rfl
    rw [hsame]
    exact h.reader.mono hf.returned_eq hf.fnRead_eq hf.readCursor_eq hmsg
      fun _ _ => move_wakeDue hm fun data hpc => hcall ⟨data, hpc⟩

private theorem move_inv (hm : Move s i spurious s') (h : FifoInv k s) : FifoInv k s' := by
  have hf := move_framed hm
  obtain ⟨hmsg, hbound⟩ := move_bounds hm h
  have hlen := hmsg.length_le
  rw [length_messages, length_messages] at hlen
  have hr := h.read_le
  refine ⟨ChannelLock.move_inv hm (h.serialised spurious) h.base, ?_, h.two_le, h.below, ?_, ?_, ?_,
    ?_, ?_, move_room hm h, move_seen hm h, move_full_iff hm h, move_reader hm h⟩
  · rw [hf.fnWrite_eq]
    exact h.mode
  · rw [hf.returned_eq]
    omega
  · rw [hf.returned_eq]
    exact hbound
  · rw [hf.readCursor_eq, hf.returned_eq]
    exact h.readCursor_eq
  · rw [hf.returned_eq]
    exact move_stored hm h
  · rw [hf.returned_eq]
    exact h.order.trans hmsg

private theorem call_inv (data : D) (hpc : s.writer i = .idle)
    (h : FifoInv k s) : FifoInv k (s.goto i (.lock data)) := by
  have hother : ∀ j, j ≠ i → (s.goto i (.lock data)).writer j = s.writer j :=
    fun j hj => update_of_ne hj _ _
  have hself : (s.goto i (.lock data)).writer i = .lock data := update_self _ _ _
  refine ⟨ChannelLock.call_inv data hpc h.base, h.mode, h.two_le, h.below, h.read_le, h.write_le,
    h.readCursor_eq, h.stored, h.order, ?_, ?_, h.full_iff, ?_⟩
  · intro j
    rcases eq_or_ne j i with rfl | hne
    · rw [hself]
      trivial
    · rw [hother j hne]
      exact (h.room j).mono rfl (Nat.le_refl _)
  · intro j
    rcases eq_or_ne j i with rfl | hne
    · rw [hself]
      trivial
    · rw [hother j hne]
      exact h.seen j
  · refine h.reader.mono rfl rfl rfl (prefix_refl _) ?_
    rintro rPos _ (he | ⟨j, hj⟩)
    · exact .inl he
    · refine .inr ⟨j, ?_⟩
      rcases eq_or_ne j i with rfl | hne
      · rw [hpc] at hj
        exact absurd rfl hj
      · rw [hother j hne]
        exact hj

theorem FifoInv.setReader (h : FifoInv k s) {pc : ReaderPc D}
    (hm : ReaderMove s { s with reader := pc }) (hpc : ReaderOk k s pc) :
    FifoInv k { s with reader := pc } := by
  refine ⟨readerMove_inv hm h.base, h.mode, h.two_le, h.below, h.read_le, h.write_le,
    h.readCursor_eq, h.stored, h.order, ?_, h.seen, h.full_iff, ?_⟩
  · intro j
    exact (h.room j).mono rfl (Nat.le_refl _)
  · exact hpc.mono rfl rfl rfl (prefix_refl _) fun _ _ hdue => hdue

private theorem storeRead_inv (h : FifoInv k s) {data : D} (hpc : s.reader = .storeRead data r) :
    FifoInv k { s with
      chan := { s.chan with readCursor := r + 1#32 }
      reader := .idle
      returned := s.returned ++ [data] } := by
  have hok := h.reader
  rw [hpc] at hok
  obtain ⟨hdata, rfl⟩ := hok
  have hlt : s.returned.length < s.accepted.length := by
    rw [← length_messages]
    exact (List.getElem?_eq_some_iff.mp hdata).1
  have hw := h.write_le
  refine ⟨readerMove_inv (.storeRead hpc) h.base, h.mode, h.two_le, h.below, ?_, ?_, ?_, ?_, ?_, ?_,
    h.seen, h.full_iff, trivial⟩
  · simp only [length_append, length_singleton]
    omega
  · simp only [length_append, length_singleton]
    omega
  · simp only [length_append, length_singleton]
    rw [h.readCursor_eq, ofNat_succ, Nat.add_assoc]
  · intro n hn hn'
    simp only [length_append, length_singleton] at hn
    exact h.stored n (by omega) hn'
  · obtain ⟨t, ht⟩ := h.order
    change s.returned ++ [data] <+: messages s
    rw [← ht, getElem?_append_right (Nat.le_refl _), Nat.sub_self] at hdata
    rw [← ht, prefix_append_right_inj]
    cases t with
    | nil => cases hdata
    | cons d t =>
      cases hdata
      exact ⟨t, rfl⟩
  · intro j
    exact (h.room j).mono rfl (by rw [length_append]; omega)

private theorem readerMove_fifo (hm : ReaderMove s s') (h : FifoInv k s) : FifoInv k s' := by
  have hok := h.reader
  cases hm with
  | loadPos hpc => exact h.setReader (.loadPos hpc) h.readPos_eq
  | @visible rPos hpc hne =>
    rw [hpc] at hok
    obtain rfl : rPos = s.returned.length % 2 ^ k := hok
    refine h.setReader (.visible hpc hne) ⟨rfl, ?_⟩
    have hr := h.read_le
    have hdiff : s.accepted.length ≠ s.returned.length := fun he => hne (h.emptyTest_iff.mpr he)
    omega
  | @empty rPos hpc he =>
    rw [hpc] at hok
    obtain rfl : rPos = s.returned.length % 2 ^ k := hok
    refine h.setReader (.empty hpc he) ⟨rfl, ?_⟩
    rw [h.base.cursor_eq, h.emptyTest_iff.mp he]
  | @sleep rPos w hpc hmode hsame =>
    rw [hpc] at hok
    obtain ⟨hpos, rfl⟩ := hok
    refine h.setReader (.sleep hpc hmode hsame) ⟨hpos, hmode, .inl ?_⟩
    have hr := h.read_le
    have hw := h.write_le
    have hp := h.pow_le
    rw [h.base.cursor_eq] at hsame
    exact eq_of_ofNat_eq hr (by omega) hsame
  | again hpc =>
    rw [hpc] at hok
    exact h.setReader (.again hpc) hok.1
  | @fetch rPos data hpc hdata =>
    rw [hpc] at hok
    obtain ⟨rfl, hlt⟩ := hok
    refine h.setReader (.fetch hpc hdata) ?_
    rw [h.next_stored hlt] at hdata
    exact hdata
  | loadRead hpc =>
    rw [hpc] at hok
    exact h.setReader (.loadRead hpc) ⟨hok, rfl⟩
  | storeRead hpc => exact storeRead_inv h hpc
  | call hpc => exact h.setReader (.call hpc) trivial
  | interrupt hpc =>
    rw [hpc] at hok
    exact h.setReader (.interrupt hpc) hok.1

theorem step_fifo (h : FifoInv k s) (he : s.step a = some s') : FifoInv k s' := by
  rcases step_cases he with ⟨i, data, rfl, hpc, rfl⟩ | ⟨i, spurious, rfl, hm⟩ | hm
  · exact call_inv data hpc h
  · exact move_inv hm h
  · exact readerMove_fifo hm h

/-- Without another call of `write` and without an interrupt, the read that is under way, or the
next one, can return the first unread message. -/
def Delivers (s : State ι D) : Prop :=
  ∃ (actions : List (Event ι D)) (s' : State ι D) (data : D),
    (∀ a ∈ actions, a = .read ∨ a = .reader ∨ ∃ i, a = .writer i false) ∧
      run step s actions = some s' ∧ (messages s)[s.returned.length]? = some data ∧
      s'.returned = s.returned ++ [data]

theorem Delivers.of_step {s t : State ι D} (hd : Delivers t)
    (ha : a = .read ∨ a = .reader ∨ ∃ i, a = .writer i false) (he : s.step a = some t)
    (hacc : t.accepted = s.accepted) (hret : t.returned = s.returned) : Delivers s := by
  obtain ⟨actions, u, data, hall, hrun, hmsg, hu⟩ := hd
  refine ⟨a :: actions, u, data, ?_, ?_, ?_, ?_⟩
  · intro b hb
    rcases mem_cons.mp hb with rfl | hb
    · exact ha
    · exact hall b hb
  · rw [run_cons, he]
    exact hrun
  · rw [messages, hacc, hret] at hmsg
    exact hmsg
  · rw [hu, hret]

theorem delivers_storeRead (h : FifoInv k s) {data : D}
    (hpc : s.reader = .storeRead data r) : Delivers s := by
  have hok := h.reader
  rw [hpc] at hok
  refine ⟨[.reader], { s with
    chan := { s.chan with readCursor := r + 1#32 }
    reader := .idle
    returned := s.returned ++ [data] }, data, ?_, ?_, hok.1, rfl⟩
  · intro a ha
    exact .inr (.inl (mem_singleton.mp ha))
  · simp only [run_cons, step, stepReader, hpc, Option.bind_some, run_nil]

theorem delivers_fetch (h : FifoInv k s) (hpc : s.reader = .fetch rPos) : Delivers s := by
  have hok := h.reader
  rw [hpc] at hok
  obtain ⟨rfl, hlt⟩ := hok
  have hlen : s.returned.length < (messages s).length := by
    rw [length_messages]
    exact hlt
  have hdata := h.next_stored hlt
  rw [getElem?_eq_getElem hlen] at hdata
  have he : s.step .reader = some { s with reader := .loadRead (messages s)[s.returned.length] } := by
    simp only [step, stepReader, hpc, hdata, Option.map_some]
  have h1 := step_fifo h he
  have he1 : State.step { s with reader := .loadRead (messages s)[s.returned.length] } .reader =
      some { s with reader := .storeRead (messages s)[s.returned.length] s.chan.readCursor } := rfl
  exact ((delivers_storeRead (step_fifo h1 he1) rfl).of_step (.inr (.inl rfl)) he1 rfl rfl).of_step
    (.inr (.inl rfl)) he rfl rfl

variable (h : FifoInv k s) (hlt : s.returned.length < s.accepted.length)

include h hlt

theorem delivers_load (hpc : s.reader = .load rPos) : Delivers s := by
  have hok := h.reader
  rw [hpc] at hok
  obtain rfl : rPos = s.returned.length % 2 ^ k := hok
  have hne : s.chan.slot s.chan.writeCursor ≠ s.returned.length % 2 ^ k := by
    intro he
    have := h.emptyTest_iff.mp he
    omega
  have he : s.step .reader = some { s with reader := .fetch (s.returned.length % 2 ^ k) } := by
    simp only [step, stepReader, hpc, if_pos hne]
  exact (delivers_fetch (step_fifo h he) rfl).of_step (.inr (.inl rfl)) he rfl rfl

private theorem delivers_asleep (hpc : s.reader = .asleep rPos) : Delivers s := by
  have hok := h.reader
  rw [hpc] at hok
  obtain ⟨_, hfutex, hdue⟩ := hok
  -- the last step of the call wakes the reader
  have hwake : ∀ {t : State ι D} {i : ι} {data : D}, FifoInv k t →
      t.returned.length < t.accepted.length → t.reader = .asleep rPos → t.chan.fnRead = .futex →
      t.writer i = .wake data .ok → Delivers t := by
    intro t i data ht hlt' hr hfn hw
    have he : t.step (.writer i false) =
        some ({ t with reader := .load rPos }.finish i data .ok) := by
      simp [step, stepWriter, hw, wakeReader, hfn, hr]
    exact (delivers_load (step_fifo ht he) hlt' rfl).of_step (.inr (.inr ⟨i, rfl⟩)) he rfl rfl
  rcases hdue with he | ⟨i, hi⟩
  · omega
  · obtain ⟨data, hw | hw | hw⟩ := pending_ne_nil hi
    · rcases h.mode with hm | ⟨hm, _⟩
      · have he : s.step (.writer i false) =
            some ({ s with writeMutex := none }.goto i (.wake data .ok)) := by
          simp [step, stepWriter, hw, stepUnlock, hm]
        exact (hwake (step_fifo h he) hlt hpc hfutex (update_self _ _ _)).of_step
          (.inr (.inr ⟨i, rfl⟩)) he rfl rfl
      · have he : s.step (.writer i false) = some (s.goto i (.wake data .ok)) := by
          simp [step, stepWriter, hw, stepUnlock, hm]
        exact (hwake (step_fifo h he) hlt hpc hfutex (update_self _ _ _)).of_step
          (.inr (.inr ⟨i, rfl⟩)) he rfl rfl
    · have he : s.step (.writer i false) = some (s.goto i (.wake data .ok)) := by
        simp [step, stepWriter, hw]
      exact (hwake (step_fifo h he) hlt hpc hfutex (update_self _ _ _)).of_step
        (.inr (.inr ⟨i, rfl⟩)) he rfl rfl
    · exact hwake h hlt hpc hfutex hw

theorem FifoInv.delivers : Delivers s := by
  have hloadPos : ∀ {t : State ι D}, FifoInv k t → t.returned.length < t.accepted.length →
      t.reader = .loadPos → Delivers t := by
    intro t ht hlt' hpc
    have he : t.step .reader =
        some { t with reader := .load (t.chan.slot (t.chan.readCursor + 1#32)) } := by
      simp only [step, stepReader, hpc]
    exact (delivers_load (step_fifo ht he) hlt' rfl).of_step (.inr (.inl rfl)) he rfl rfl
  cases hpc : s.reader with
  | idle =>
    have he : s.step .read = some { s with reader := .loadPos } := by
      simp only [step, hpc]
    exact (hloadPos (step_fifo h he) hlt rfl).of_step (.inl rfl) he rfl rfl
  | loadPos => exact hloadPos h hlt hpc
  | load rPos => exact delivers_load h hlt hpc
  | wait rPos w =>
    have hok := h.reader
    rw [hpc] at hok
    obtain ⟨_, rfl⟩ := hok
    have hawake : ¬ (s.chan.fnRead = .futex ∧
        s.chan.writeCursor = BitVec.ofNat 32 s.returned.length) := by
      rintro ⟨_, hsame⟩
      have hw := h.write_le
      have hp := h.pow_le
      rw [h.base.cursor_eq] at hsame
      have := eq_of_ofNat_eq h.read_le (by omega) hsame
      omega
    have he : s.step .reader = some { s with reader := .load rPos } := by
      simp only [step, stepReader, hpc, if_neg hawake]
    exact (delivers_load (step_fifo h he) hlt rfl).of_step (.inr (.inl rfl)) he rfl rfl
  | asleep rPos => exact delivers_asleep h hlt hpc
  | fetch rPos => exact delivers_fetch h hpc
  | loadRead data =>
    have he : s.step .reader = some { s with reader := .storeRead data s.chan.readCursor } := by
      simp only [step, stepReader, hpc]
    exact (delivers_storeRead (step_fifo h he) rfl).of_step (.inr (.inl rfl)) he rfl rfl
  | storeRead data r => exact delivers_storeRead h hpc

omit h hlt

theorem start_fifo {null : D} {capacity flags : BitVec 32} {chan : Channel D}
    (h : Channel.Fresh capacity null flags k chan) (hk : 2 ≤ k)
    (hmode : chan.fnWrite = .mutex ∨ (chan.fnWrite = .singleWriter ∧ ∀ i j : ι, i = j)) :
    FifoInv k (start chan : State ι D) := by
  have hpow : 2 ^ 2 ≤ 2 ^ k := Nat.pow_le_pow_right (by omega) hk
  refine ⟨start_inv h, hmode, hk, h.below, Nat.le_refl _, ?_, ?_, ?_, prefix_refl _, ?_, ?_, ?_,
    trivial⟩
  · change 0 + 2 ≤ 0 + 2 ^ k
    omega
  · change chan.readCursor = BitVec.ofNat 32 (2 ^ k - 1 + 0)
    have hcap := h.capacity_eq
    rw [h.readCursor_eq, ← BitVec.toNat_inj, BitVec.toNat_sub, hcap]
    simp only [BitVec.toNat_ofNat]
    omega
  · intro n _ hn
    exact absurd hn (Nat.not_lt_zero n)
  · intro i
    exact trivial
  · intro i
    exact trivial
  · intro f hf
    cases hf

/-- The channel is a lossless queue: reads return the accepted messages in the order in which the
writes took effect, a reader that sleeps on an unread message is about to be woken, each write that
returns `MUGGLE_OK` is accepted, and one is refused exactly when it saw `capacity - 2` unread
messages. -/
structure Lossless (s : State ι D) : Prop where
  order : s.returned <+: messages s
  delivers : s.returned.length < s.accepted.length → Delivers s
  wake : ∀ rPos, s.reader = .asleep rPos → WakeDue s
  fetched : ∀ rPos, s.reader = .fetch rPos → s.returned.length < s.accepted.length ∧
    s.chan.blocks[rPos]? = (messages s)[s.returned.length]?
  log : ∀ i, okOf s i ++ pending (s.writer i) = acceptedOf s i
  full_iff : ∀ f ∈ s.finished, f.ret = .full ↔ f.seen = s.chan.capacity.toNat - 2
  results : ∀ f ∈ s.finished, (f.ret = .ok ∧ f.stores = 2) ∨ (f.ret = .full ∧ f.stores = 0)

theorem FifoInv.lossless (h : FifoInv k s) : Lossless s := by
  refine ⟨h.order, h.delivers, ?_, ?_, h.base.log, ?_, h.base.results⟩
  · intro rPos hpc
    have hok := h.reader
    rw [hpc] at hok
    exact hok.2.2
  · intro rPos hpc
    have hok := h.reader
    rw [hpc] at hok
    obtain ⟨rfl, hlt⟩ := hok
    exact ⟨hlt, h.next_stored hlt⟩
  · rw [h.base.capacity_eq]
    exact h.full_iff

/-- Every run of a channel of rounded capacity at least four, with any number of writers in mutex
mode or one in single-writer mode and with one reader in either read mode, is lossless. -/
theorem channel_lossless (null : D) (capacity flags : BitVec 32) (mutexInit : Err) (malloc : Bool)
    (chan : Channel D) (hi : Channel.init null capacity flags mutexInit malloc = .ok chan)
    (hcap : 4 ≤ chan.capacity.toNat)
    (hmode : chan.fnWrite = .mutex ∨ (chan.fnWrite = .singleWriter ∧ ∀ i j : ι, i = j))
    (actions : List (Event ι D)) (s : State ι D) (hr : run step (start chan) actions = some s) :
    Lossless s := by
  obtain ⟨k, hk⟩ := Channel.init_fresh hi
  have hk2 : 2 ≤ k := by
    rw [hk.capacity_eq] at hcap
    exact (Nat.pow_le_pow_iff_right (a := 2) (by omega)).mp hcap
  have hI : FifoInv k s := by
    refine run_invariant ?_ (start_fifo hk hk2 hmode) hr
    intro t a t' ht he
    exact step_fifo ht he
  exact hI.lossless

def sleepingRun : List (Event Bool Nat) :=
  [.read, .reader, .reader, .reader, .write false 1, .write true 2] ++
    List.replicate 9 (.writer false false) ++ List.replicate 9 (.writer true false) ++
    List.replicate 4 .reader

theorem channel_lossless_sleeping :
    ∃ s, run step (start (.fourBlocks 0)) sleepingRun = some s ∧ Lossless s := by
  have hsome : (run step (start (.fourBlocks 0)) sleepingRun).isSome = true := by decide
  obtain ⟨s, hs⟩ := Option.isSome_iff_exists.mp hsome
  exact ⟨s, hs, channel_lossless 0 4#32 0#32 .ok true (.fourBlocks 0) rfl (by decide) (.inl rfl)
    sleepingRun s hs⟩

end MuggleC.Sync.ChannelFifo

/-! A caller of the channel sees a write from its call to its return: either its message becomes the
last accepted one on the way, or the full test refuses it. A read takes the next message in its last
step. -/

namespace MuggleC.Sync.ChannelEffects

open Base ChannelSteps State ChannelLock ChannelFifo Function

variable {ι D : Type}

def dataOf : WriterPc D → Option D
  | .idle => none
  | .lock data => some data
  | .futexWait data => some data
  | .loadWrite data => some data
  | .loadRead data _ => some data
  | .loadSlot data => some data
  | .storeBlock data _ => some data
  | .loadNext data => some data
  | .storeCursor data _ => some data
  | .unlock data _ => some data
  | .wakeWriter data _ => some data
  | .wake data _ => some data

def refused : WriterPc D → Bool
  | .unlock _ ret => ret ≠ .ok
  | .wakeWriter _ ret => ret ≠ .ok
  | .wake _ ret => ret ≠ .ok
  | _ => false

def FindsFull (s : State ι D) (i : ι) : Prop :=
  match s.writer i with
  | .loadRead _ w => w + 1#32 = s.chan.readCursor
  | _ => False

instance (s : State ι D) (i : ι) : Decidable (FindsFull s i) := by
  unfold FindsFull
  split <;> infer_instance

theorem dataOf_eq_none {pc : WriterPc D} : dataOf pc = none ↔ pc = .idle := by
  cases pc <;> simp [dataOf]

private theorem pending_leave (data : D) (ret : Err) :
    pending (.wake data ret) = pending (.unlock data ret) ∧
      pending (.wakeWriter data ret) = pending (.unlock data ret) := by
  cases ret <;> exact ⟨rfl, rfl⟩

inductive WriterEffect (s s' : State ι D) (i : ι) (data : D) : Prop
  | quiet (hdata : dataOf (s'.writer i) = some data)
      (hpend : pending (s'.writer i) = pending (s.writer i)) (hmsg : messages s' = messages s)
  | publish (hbefore : pending (s.writer i) = []) (hafter : s'.writer i = .unlock data .ok)
      (hmsg : messages s' = messages s ++ [data])
  | finish {ret : Err} (hbefore : s.writer i = .wake data ret) (hafter : s'.writer i = .idle)
      (hmsg : messages s' = messages s)

variable [DecidableEq ι] {s s' : State ι D} {i : ι} {spurious : Bool}

theorem move_effect (hm : Move s i spurious s') :
    ∃ data, dataOf (s.writer i) = some data ∧ WriterEffect s s' i data := by
  cases hm with
  | @storeCursor data w hpc =>
    refine ⟨data, by rw [hpc]; rfl, .publish (by rw [hpc]; rfl) (update_self _ _ _) ?_⟩
    exact messages_publish s i w data _
  | @wake data ret hpc =>
    obtain ⟨pc, he⟩ := wakeIf_eq s ret
    rw [he]
    exact ⟨data, by rw [hpc]; rfl, .finish hpc (update_self _ _ _) rfl⟩
  | @leaveSingle data ret hpc hmode | @leaveMutex data ret hpc hmode =>
    refine ⟨data, by rw [hpc]; rfl, .quiet (by simp [goto, dataOf]) ?_ rfl⟩
    simp only [goto, update_self, hpc, (pending_leave data ret).1]
  | @leaveFutex data ret hpc hmode =>
    refine ⟨data, by rw [hpc]; rfl, .quiet (by simp [goto, dataOf]) ?_ rfl⟩
    simp only [goto, update_self, hpc, (pending_leave data ret).2]
  | @wakeWriter data ret hpc =>
    refine ⟨data, by rw [hpc]; rfl, .quiet (by simp [goto, dataOf]) ?_ rfl⟩
    simp only [goto, update_self, hpc, pending_leave data ret]
  | _ hpc =>
    refine ⟨_, by rw [hpc]; rfl, .quiet (by simp [goto, dataOf]) ?_ rfl⟩
    simp [goto, hpc, pending]

theorem move_refused (hm : Move s i spurious s')
    (h : refused (s'.writer i) = true) : refused (s.writer i) = true ∨ FindsFull s i := by
  cases hm with
  | @full data w hpc hfull =>
    right
    rw [FindsFull, hpc]
    exact hfull
  | @wake data ret hpc =>
    obtain ⟨pc, he⟩ := wakeIf_eq s ret
    simp [finish, refused] at h
  | leaveSingle hpc hmode | leaveMutex hpc hmode | leaveFutex hpc hmode | wakeWriter hpc =>
    left
    simpa [goto, refused, hpc] using h
  | _ hpc => simp [goto, refused] at h

theorem move_reader_idle (hm : Move s i spurious s')
    (h : s.reader = .idle) : s'.reader = .idle := by
  cases hm with
  | @wake data ret hpc =>
    split
    · unfold wakeReader
      split
      · next he => rw [h] at he; cases he
      · exact h
    · exact h
  | _ hpc => exact h

theorem mem_messages_of_pending {k : Nat} (h : WriterInv k s) {data : D}
    (hp : data ∈ pending (s.writer i)) : data ∈ messages s := by
  have hmem : data ∈ acceptedOf s i := by
    rw [← h.log i]
    exact List.mem_append_right _ hp
  obtain ⟨a, ha, rfl⟩ := List.mem_map.mp hmem
  exact List.mem_map_of_mem (List.mem_filter.mp ha).1

omit [DecidableEq ι] in
theorem readerMove_effect (hm : ReaderMove s s') :
    s'.writer = s.writer ∧ s'.accepted = s.accepted ∧ (s'.returned = s.returned ∨
      ∃ data r, s.reader = .storeRead data r ∧ s'.returned = s.returned ++ [data] ∧
        s'.reader = .idle) := by
  cases hm with
  | storeRead hpc => exact ⟨rfl, rfl, .inr ⟨_, _, hpc, rfl, rfl⟩⟩
  | _ hpc => exact ⟨rfl, rfl, .inl rfl⟩

end MuggleC.Sync.ChannelEffects
