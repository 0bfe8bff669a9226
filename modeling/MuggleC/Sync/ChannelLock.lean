/- source: sync/channel.c
   digest: One writer at a time between lock and unlock, and what that gives every accepted write. -/

import MuggleC.Foundation.Ring
import MuggleC.Sync.Channel

set_option autoImplicit false

namespace MuggleC.Sync.ChannelLock

open Base Foundation.Counter Foundation.Transition Foundation.Threads ChannelSteps State
open Function List

variable {ι D : Type} [DecidableEq ι]

def inside : WriterPc D → Bool
  | .loadWrite _ => true
  | .loadRead _ _ => true
  | .loadSlot _ => true
  | .storeBlock _ _ => true
  | .loadNext _ => true
  | .storeCursor _ _ => true
  | .unlock _ _ => true
  | _ => false

def Locked (s : State ι D) : Prop :=
  match s.chan.fnWrite with
  | .singleWriter => True
  | .mutex => s.writeMutex.isSome = true
  | .futex => s.chan.writeFutex = .lock

def LocalOk (chan : Channel D) : WriterPc D → Prop
  | .loadRead _ w => w = chan.writeCursor
  | .storeBlock _ w => w = chan.writeCursor
  | .loadNext data => chan.blocks[chan.slot chan.writeCursor]? = some data
  | .storeCursor data w =>
    w = chan.writeCursor ∧ chan.blocks[chan.slot chan.writeCursor]? = some data
  | .unlock _ ret => ret = .ok ∨ ret = .full
  | .wakeWriter _ ret => ret = .ok ∨ ret = .full
  | .wake _ ret => ret = .ok ∨ ret = .full
  | _ => True

def pending : WriterPc D → List D
  | .unlock data .ok => [data]
  | .wakeWriter data .ok => [data]
  | .wake data .ok => [data]
  | _ => []

def storesMade : WriterPc D → Nat
  | .loadNext _ => 1
  | .storeCursor _ _ => 1
  | .unlock _ .ok => 2
  | .wakeWriter _ .ok => 2
  | .wake _ .ok => 2
  | _ => 0

def acceptedOf (s : State ι D) (i : ι) : List D :=
  (s.accepted.filter (fun a => a.writer = i)).map Accepted.data

def okOf (s : State ι D) (i : ι) : List D :=
  (s.finished.filter (fun f => f.writer = i ∧ f.ret = .ok)).map Finished.data

def OwnSlot (n : Nat) (a : Accepted ι D) : Prop :=
  a.before = BitVec.ofNat 32 n ∧ a.after = BitVec.ofNat 32 (n + 1) ∧ a.slot = some a.data

structure WriterInv (k : Nat) (s : State ι D) : Prop where
  capacity_eq : s.chan.capacity.toNat = 2 ^ k
  length_eq : s.chan.blocks.length = 2 ^ k
  exclusive : Exclusive (Locked s) (fun i => inside (s.writer i) = true)
  cursor_eq : s.chan.writeCursor = BitVec.ofNat 32 s.accepted.length
  known : ∀ i, LocalOk s.chan (s.writer i)
  own : ∀ n a, s.accepted[n]? = some a → OwnSlot n a
  log : ∀ i, okOf s i ++ pending (s.writer i) = acceptedOf s i
  stores_eq : ∀ i, s.stores i = storesMade (s.writer i)
  results : ∀ f ∈ s.finished, (f.ret = .ok ∧ f.stores = 2) ∨ (f.ret = .full ∧ f.stores = 0)

/-- The single writer is alone, and no compare-exchange of the futex lock fails spuriously. -/
def Serialised (s : State ι D) (spurious : Bool) : Prop :=
  (s.chan.fnWrite = .singleWriter → ∀ i j : ι, i = j) ∧
    (s.chan.fnWrite = .futex → spurious = false)

variable {i : ι} {pc : WriterPc D} {s s' : State ι D} {spurious : Bool} {k : Nat}

theorem inside_update {f : ι → WriterPc D} (h : inside pc = true → inside (f i) = true) (j : ι)
    (hj : inside (update f i pc j) = true) : inside (f j) = true := by
  rcases eq_or_ne j i with rfl | hne
  · rw [update_self] at hj
    exact h hj
  · rwa [update_of_ne hne] at hj

private theorem inside_update_of_ne {f : ι → WriterPc D} (j : ι) (hne : j ≠ i)
    (hj : inside (update f i pc j) = true) : inside (f j) = true := by
  rwa [update_of_ne hne] at hj

private theorem move_exclusive (hm : Move s i spurious s') (hser : Serialised s spurious)
    (h : Exclusive (Locked s) (fun i => inside (s.writer i) = true)) :
    Exclusive (Locked s') (fun i => inside (s'.writer i) = true) := by
  cases hm with
  | enterSingle hpc hmode =>
    refine ⟨fun _ _ => ?_, fun j k _ _ => hser.1 hmode j k⟩
    simp only [Locked, goto, hmode]
  | enterMutex hpc hmode hfree | enterFutex hpc hmode hfree hcas =>
    refine h.enter ?_ ?_ (inside_update_of_ne (i := i))
    · simp [Locked, hmode, hfree]
    · simp [Locked, goto, hmode]
  | passFutex hpc hmode hfree hcas =>
    rw [hser.2 hmode] at hcas
    cases hcas
  | busyFutex hpc hmode hheld | retryFutex hpc | wakeWriter hpc =>
    exact h.stay id (inside_update (by simp [inside]))
  | loadWrite hpc | loadSlot hpc | loadNext hpc =>
    exact h.stay id (inside_update (by simp [inside, hpc]))
  | full hpc hfull | room hpc hroom =>
    exact h.stay id (inside_update (by simp [inside, hpc, check]))
  | storeBlock hpc => exact h.stay id (inside_update (by simp [inside, hpc, putBlock, countStore]))
  | storeCursor hpc => exact h.stay id (inside_update (by simp [inside, hpc, publish, countStore]))
  | leaveSingle hpc hmode | leaveMutex hpc hmode | leaveFutex hpc hmode =>
    exact h.leave (i := i) (by simp [inside, hpc]) (by simp [goto, inside]) inside_update_of_ne
  | @wake data ret hpc =>
    obtain ⟨pc, he⟩ := wakeIf_eq s ret
    rw [he]
    exact h.stay id (inside_update (by simp [inside]))

structure Framed (s s' : State ι D) (i : ι) : Prop where
  capacity_eq : s'.chan.capacity = s.chan.capacity
  fnWrite_eq : s'.chan.fnWrite = s.chan.fnWrite
  fnRead_eq : s'.chan.fnRead = s.chan.fnRead
  readCursor_eq : s'.chan.readCursor = s.chan.readCursor
  length_eq : s'.chan.blocks.length = s.chan.blocks.length
  returned_eq : s'.returned = s.returned
  other : ∀ j, j ≠ i → s'.writer j = s.writer j

theorem move_framed (hm : Move s i spurious s') : Framed s s' i := by
  cases hm with
  | storeBlock hpc =>
    exact ⟨rfl, rfl, rfl, rfl, length_set, rfl, fun j hj => update_of_ne hj _ _⟩
  | @wake data ret hpc =>
    obtain ⟨pc, he⟩ := wakeIf_eq s ret
    rw [he]
    exact ⟨rfl, rfl, rfl, rfl, rfl, rfl, fun j hj => update_of_ne hj _ _⟩
  | _ => exact ⟨rfl, rfl, rfl, rfl, rfl, rfl, fun j hj => update_of_ne hj _ _⟩

private theorem move_stores (hm : Move s i spurious s') :
    (s'.chan.writeCursor = s.chan.writeCursor ∧ s'.chan.blocks = s.chan.blocks) ∨
      inside (s.writer i) = true := by
  cases hm with
  | storeBlock hpc | storeCursor hpc => exact .inr (by rw [hpc]; rfl)
  | @wake data ret hpc =>
    obtain ⟨pc, he⟩ := wakeIf_eq s ret
    rw [he]
    exact .inl ⟨rfl, rfl⟩
  | _ => exact .inl ⟨rfl, rfl⟩

theorem LocalOk.congr {chan chan' : Channel D} (h : LocalOk chan pc)
    (hcap : chan'.capacity = chan.capacity) (hcur : chan'.writeCursor = chan.writeCursor)
    (hblk : chan'.blocks = chan.blocks) : LocalOk chan' pc := by
  cases pc <;> simp_all [LocalOk, Channel.slot]

theorem LocalOk.of_outside {chan chan' : Channel D} (h : LocalOk chan pc)
    (hout : inside pc = false) : LocalOk chan' pc := by
  cases pc <;> simp_all [LocalOk, inside]

private theorem move_known_self
    (hm : Move s i spurious s') (h : WriterInv k s) : LocalOk s'.chan (s'.writer i) := by
  have hi := h.known i
  cases hm with
  | @storeBlock data w hpc =>
    rw [hpc] at hi
    obtain rfl : w = s.chan.writeCursor := hi
    have hlt : s.chan.slot s.chan.writeCursor < s.chan.blocks.length := by
      rw [h.length_eq, h.cursor_eq, Channel.slot_ofNat h.capacity_eq]
      exact Nat.mod_lt _ (Nat.two_pow_pos k)
    simp only [goto, putBlock, update_self, LocalOk, Channel.storeBlock]
    exact getElem?_set_self hlt
  | loadNext hpc =>
    rw [hpc] at hi
    simp only [goto, update_self]
    exact ⟨rfl, hi⟩
  | @leaveSingle data ret hpc hmode | @leaveMutex data ret hpc hmode
  | @leaveFutex data ret hpc hmode | @wakeWriter data ret hpc => simpa [goto, LocalOk, hpc] using hi
  | wake hpc => simp [finish, LocalOk]
  | _ => simp [goto, LocalOk]

private theorem move_known
    (hm : Move s i spurious s') (h : WriterInv k s) (j : ι) : LocalOk s'.chan (s'.writer j) := by
  rcases eq_or_ne j i with rfl | hne
  · exact move_known_self hm h
  · have hf := move_framed hm
    rw [hf.other j hne]
    rcases move_stores hm with ⟨hcur, hblk⟩ | hin
    · exact (h.known j).congr hf.capacity_eq hcur hblk
    · refine (h.known j).of_outside ?_
      cases hj : inside (s.writer j) with
      | false => rfl
      | true => exact absurd (h.exclusive.unique j i hj hin) hne

private theorem move_accepted (hm : Move s i spurious s') :
    (s'.accepted = s.accepted ∧ s'.chan.writeCursor = s.chan.writeCursor) ∨
      ∃ data w, s.writer i = .storeCursor data w ∧
        s' = (s.publish i w data).goto i (.unlock data .ok) := by
  cases hm with
  | storeCursor hpc => exact .inr ⟨_, _, hpc, rfl⟩
  | @wake data ret hpc =>
    obtain ⟨pc, he⟩ := wakeIf_eq s ret
    rw [he]
    exact .inl ⟨rfl, rfl⟩
  | _ => exact .inl ⟨rfl, rfl⟩

private theorem move_own (hm : Move s i spurious s') (h : WriterInv k s) :
    s'.chan.writeCursor = BitVec.ofNat 32 s'.accepted.length ∧
      ∀ n a, s'.accepted[n]? = some a → OwnSlot n a := by
  rcases move_accepted hm with ⟨ha, hc⟩ | ⟨data, w, hpc, rfl⟩
  · rw [ha, hc]
    exact ⟨h.cursor_eq, h.own⟩
  · have hi := h.known i
    rw [hpc] at hi
    obtain ⟨rfl, hdata⟩ := hi
    have hnext : s.chan.writeCursor + 1#32 = BitVec.ofNat 32 (s.accepted.length + 1) := by
      rw [h.cursor_eq, ofNat_succ]
    simp only [goto, publish, Channel.storeCursor, length_append, length_singleton]
    refine ⟨hnext, ?_⟩
    intro n a hn
    rw [getElem?_append] at hn
    split at hn
    · exact h.own n a hn
    · next hge =>
      obtain ⟨hz, rfl⟩ := List.getElem?_eq_some_iff.mp hn
      rw [List.length_singleton] at hz
      obtain rfl : n = s.accepted.length := by omega
      simp only [Nat.sub_self, getElem_cons_zero]
      exact ⟨h.cursor_eq, hnext, hdata⟩

theorem pending_eq_nil_of_ret {data : D} {ret : Err} (h : ret ≠ .ok) :
    pending (WriterPc.wake data ret) = [] := by
  cases ret <;> simp_all [pending]

theorem pending_ne_nil (h : pending pc ≠ []) :
    ∃ data, pc = .unlock data .ok ∨ pc = .wakeWriter data .ok ∨ pc = .wake data .ok := by
  cases pc with
  | unlock data ret | wakeWriter data ret | wake data ret => cases ret <;> simp_all [pending]
  | _ => exact absurd rfl h

theorem log_of_unchanged (hf : Framed s s' i) (hacc : s'.accepted = s.accepted)
    (hfin : s'.finished = s.finished) (hpend : pending (s'.writer i) = pending (s.writer i)) (j : ι)
    (h : okOf s j ++ pending (s.writer j) = acceptedOf s j) :
    okOf s' j ++ pending (s'.writer j) = acceptedOf s' j := by
  simp only [okOf, acceptedOf, hacc, hfin] at h ⊢
  rcases eq_or_ne j i with rfl | hne
  · rw [hpend]
    exact h
  · rw [hf.other j hne]
    exact h

private theorem move_log (hm : Move s i spurious s') (h : WriterInv k s) (j : ι) :
    okOf s' j ++ pending (s'.writer j) = acceptedOf s' j := by
  have hf := move_framed hm
  have hj := h.log j
  cases hm with
  | storeCursor hpc =>
    rcases eq_or_ne j i with rfl | hne
    · rw [hpc] at hj
      simpa [okOf, acceptedOf, goto, publish, countStore, pending] using hj
    · rw [hf.other j hne]
      simpa [okOf, acceptedOf, goto, publish, countStore, Ne.symm hne] using hj
  | @wake data ret hpc =>
    obtain ⟨pc, he⟩ := wakeIf_eq s ret
    rw [he] at hf ⊢
    rcases eq_or_ne j i with rfl | hne
    · rw [hpc] at hj
      by_cases hret : ret = .ok
      · subst hret
        simpa [okOf, acceptedOf, finish, pending] using hj
      · simpa [okOf, acceptedOf, finish, pending, hret] using hj
    · rw [hf.other j hne]
      simpa [okOf, acceptedOf, finish, Ne.symm hne] using hj
  | @leaveSingle data ret hpc | @leaveMutex data ret hpc | @leaveFutex data ret hpc
  | @wakeWriter data ret hpc =>
    exact log_of_unchanged hf rfl rfl (by cases ret <;> simp [goto, hpc, pending]) j hj
  | enterSingle hpc | enterMutex hpc | enterFutex hpc | passFutex hpc | busyFutex hpc
  | retryFutex hpc | loadWrite hpc | full hpc | room hpc | loadSlot hpc | storeBlock hpc
  | loadNext hpc => exact log_of_unchanged hf rfl rfl (by simp [goto, hpc, pending]) j hj

private theorem move_stores_eq (hm : Move s i spurious s') (h : WriterInv k s) (j : ι) :
    s'.stores j = storesMade (s'.writer j) := by
  have hj := h.stores_eq j
  have hf := move_framed hm
  rcases eq_or_ne j i with rfl | hne
  · cases hm with
    | storeBlock hpc => simp_all [goto, putBlock, countStore, storesMade]
    | storeCursor hpc => simp_all [goto, publish, countStore, storesMade]
    | @wake data ret hpc =>
      obtain ⟨pc, he⟩ := wakeIf_eq s ret
      simp [finish, storesMade]
    | @leaveSingle data ret hpc hmode | @leaveMutex data ret hpc hmode
    | @leaveFutex data ret hpc hmode | @wakeWriter data ret hpc =>
      cases ret <;> simp_all [goto, storesMade]
    | _ => simp_all [goto, check, storesMade]
  · rw [hf.other j hne, ← hj]
    cases hm with
    | storeBlock hpc | storeCursor hpc => exact update_of_ne hne _ _
    | @wake data ret hpc =>
      obtain ⟨pc, he⟩ := wakeIf_eq s ret
      rw [he]
      exact update_of_ne hne _ _
    | _ => rfl

private theorem move_results (hm : Move s i spurious s') (h : WriterInv k s) :
    ∀ f ∈ s'.finished, (f.ret = .ok ∧ f.stores = 2) ∨ (f.ret = .full ∧ f.stores = 0) := by
  cases hm with
  | @wake data ret hpc =>
    have hi := h.known i
    have hst := h.stores_eq i
    rw [hpc] at hi hst
    obtain ⟨pc, he⟩ := wakeIf_eq s ret
    rw [he]
    intro f hf
    rcases mem_append.mp hf with hf | hf
    · exact h.results f hf
    · obtain rfl := mem_singleton.mp hf
      rcases hi with rfl | rfl
      · exact .inl ⟨rfl, hst⟩
      · exact .inr ⟨rfl, hst⟩
  | _ => exact h.results

theorem move_inv (hm : Move s i spurious s') (hser : Serialised s spurious) (h : WriterInv k s) :
    WriterInv k s' := by
  have hf := move_framed hm
  obtain ⟨hcur, hown⟩ := move_own hm h
  exact ⟨by rw [hf.capacity_eq, h.capacity_eq], by rw [hf.length_eq, h.length_eq],
    move_exclusive hm hser h.exclusive, hcur, move_known hm h, hown, move_log hm h,
    move_stores_eq hm h, move_results hm h⟩

theorem call_inv {s : State ι D} (data : D) (hpc : s.writer i = .idle)
    (h : WriterInv k s) : WriterInv k (s.goto i (.lock data)) := by
  have hf : Framed s (s.goto i (.lock data)) i :=
    ⟨rfl, rfl, rfl, rfl, rfl, rfl, fun j hj => update_of_ne hj _ _⟩
  refine ⟨h.capacity_eq, h.length_eq, h.exclusive.stay id (inside_update (by simp [inside])),
    h.cursor_eq, ?_, h.own, ?_, ?_, h.results⟩
  · intro j
    rcases eq_or_ne j i with rfl | hne
    · simp [goto, LocalOk]
    · rw [hf.other j hne]
      exact h.known j
  · intro j
    exact log_of_unchanged hf rfl rfl (by simp [goto, hpc, pending]) j (h.log j)
  · intro j
    have hj := h.stores_eq j
    rcases eq_or_ne j i with rfl | hne
    · simpa [goto, storesMade, hpc] using hj
    · rw [hf.other j hne]
      exact hj

theorem readerMove_inv (hm : ReaderMove s s') (h : WriterInv k s) : WriterInv k s' := by
  cases hm with
  | storeRead hpc =>
    refine ⟨h.capacity_eq, h.length_eq, h.exclusive, h.cursor_eq, ?_, h.own, h.log, h.stores_eq,
      h.results⟩
    intro j
    exact (h.known j).congr rfl rfl rfl
  | _ =>
    exact ⟨h.capacity_eq, h.length_eq, h.exclusive, h.cursor_eq, h.known, h.own, h.log,
      h.stores_eq, h.results⟩

theorem start_inv {null : D} {capacity flags : BitVec 32} {chan : Channel D}
    (h : Channel.Fresh capacity null flags k chan) : WriterInv k (start chan : State ι D) := by
  refine ⟨h.capacity_eq, ?_, ⟨?_, ?_⟩, h.writeCursor_eq, ?_, ?_, ?_, ?_, ?_⟩
  · change chan.blocks.length = 2 ^ k
    rw [h.blocks_eq, length_replicate]
  · intro i hi
    simp [start, inside] at hi
  · intro i j hi
    simp [start, inside] at hi
  · simp [start, LocalOk]
  · intro n a hn
    simp [start] at hn
  · simp [start, okOf, acceptedOf, pending]
  · simp [start, storesMade]
  · intro f hf
    simp [start] at hf

private theorem step_inv {a : Event ι D} (h : WriterInv k s)
    (hser : ∀ i spurious, a = .writer i spurious → Serialised s spurious)
    (he : s.step a = some s') : WriterInv k s' := by
  rcases step_cases he with ⟨i, data, rfl, hpc, rfl⟩ | ⟨i, spurious, rfl, hm⟩ | hm
  · exact call_inv data hpc h
  · exact move_inv hm (hser i spurious rfl) h
  · exact readerMove_inv hm h

private theorem step_fnWrite {a : Event ι D} (he : s.step a = some s') :
    s'.chan.fnWrite = s.chan.fnWrite := by
  rcases step_cases he with ⟨i, data, rfl, hpc, rfl⟩ | ⟨i, spurious, rfl, hm⟩ | hm
  · rfl
  · exact (move_framed hm).fnWrite_eq
  · cases hm <;> rfl

/-- At most one writer is inside; the write that takes effect as number `n` has its data in the slot
of `n` and moves the cursor from `n` to `n + 1`; and the writes of each thread that have returned
`MUGGLE_OK` are the ones that took effect, up to one that is about to return. -/
structure WritesSerial (s : State ι D) : Prop where
  exclusive : ∀ i j, inside (s.writer i) = true → inside (s.writer j) = true → i = j
  own : ∀ n a, s.accepted[n]? = some a → OwnSlot n a
  cursor_eq : s.chan.writeCursor = BitVec.ofNat 32 s.accepted.length
  log : ∀ i, okOf s i ++ pending (s.writer i) = acceptedOf s i

def NoSpurious (_ : State ι D) : Event ι D → Prop
  | .writer _ spurious => spurious = false
  | _ => True

instance (s : State ι D) (a : Event ι D) : Decidable (NoSpurious s a) := by
  cases a <;> simp only [NoSpurious] <;> infer_instance

/-- In every run of a channel in futex write mode in which no compare-exchange fails spuriously,
writers exclude each other and every accepted write has its own slot. -/
theorem futex_writes_serial (null : D) (capacity flags : BitVec 32) (mutexInit : Err)
    (malloc : Bool) (chan : Channel D)
    (hi : Channel.init null capacity flags mutexInit malloc = .ok chan)
    (hmode : chan.fnWrite = .futex) (actions : List (Event ι D)) (s : State ι D)
    (hr : run (guarded step NoSpurious) (start chan) actions = some s) : WritesSerial s := by
  obtain ⟨k, hk⟩ := Channel.init_fresh hi
  have hI : WriterInv k s ∧ s.chan.fnWrite = .futex := by
    refine run_invariant (I := fun t => WriterInv k t ∧ t.chan.fnWrite = .futex) ?_
      ⟨start_inv hk, hmode⟩ hr
    rintro t a t' ⟨ht, hf⟩ he
    obtain ⟨hg, he⟩ := guarded_eq_some.mp he
    refine ⟨step_inv ht ?_ he, by rw [step_fnWrite he, hf]⟩
    rintro i spurious rfl
    refine ⟨fun hs => ?_, fun _ => hg⟩
    rw [hf] at hs
    cases hs
  obtain ⟨h, _⟩ := hI
  exact ⟨h.exclusive.unique, h.own, h.cursor_eq, h.log⟩

def futexChannel : Channel Nat := ⟨4#32, 4#32, .futex, .futex, 0#32, 3#32, .unlock, [0, 0, 0, 0]⟩

def waitingRun : List (Event Bool Nat) :=
  [.write false 1, .write true 2, .writer false false, .writer true false] ++
    List.replicate 7 (.writer false false) ++ List.replicate 9 (.writer true false)

theorem futex_writes_serial_waiting :
    ∃ s, run (guarded step NoSpurious) (start futexChannel) waitingRun = some s ∧
      WritesSerial s := by
  have hsome : (run (guarded step NoSpurious) (start futexChannel) waitingRun).isSome = true := by
    decide
  obtain ⟨s, hs⟩ := Option.isSome_iff_exists.mp hsome
  exact ⟨s, hs, futex_writes_serial 0 4#32 4#32 .ok true futexChannel rfl rfl waitingRun s hs⟩

def spuriousRun : List (Event Bool Nat) :=
  [.write false 1, .write true 2, .writer false true, .writer true false] ++
    List.replicate 5 (.writer false false) ++ List.replicate 5 (.writer true false) ++
    List.replicate 4 (.writer false false) ++ List.replicate 4 (.writer true false)

theorem spurious_failure_loses_write : ¬ ∀ (capacity flags : BitVec 32) (chan : Channel Nat),
      Channel.init 0 capacity flags .ok true = .ok chan → chan.fnWrite = .futex →
      ∀ (actions : List (Event Bool Nat)) (s : State Bool Nat),
        run step (start chan) actions = some s → WritesSerial s := by
  intro h
  have hsome : (run step (start futexChannel) spuriousRun).isSome = true := by decide
  obtain ⟨s, hs⟩ := Option.isSome_iff_exists.mp hsome
  have hcur := (h 4#32 4#32 futexChannel rfl rfl spuriousRun s hs).cursor_eq
  have hend : (run step (start futexChannel) spuriousRun).map
      (fun s => (s.chan.writeCursor, s.accepted.length, s.finished.map Finished.ret)) =
        some (1#32, 2, [.ok, .ok]) := by decide
  rw [hs, Option.map_some, Option.some.injEq, Prod.mk.injEq, Prod.mk.injEq] at hend
  rw [hend.1, hend.2.1] at hcur
  exact absurd hcur (by decide)

end MuggleC.Sync.ChannelLock
