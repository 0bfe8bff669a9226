/- source: memory/threadsafe_memory_pool.c
   digest: The thread-safe memory pool and its callers as threads of atomic steps. -/

import Mathlib.Data.List.Perm.Basic
import MuggleC.Foundation.Ring
import MuggleC.Foundation.Transition
import MuggleC.Memory.BlockArea

set_option autoImplicit false

/-! Each access to a shared field, the compare-exchange and each call into the mutex is one step.
The fields of the state after `pc` record what has happened and are read by no step. -/

namespace MuggleC.Memory

open Base Foundation.Ring BlockArea

/-- `muggle_ts_memory_pool_t` without its mutex; `ptrs` gives the block of each ring entry. -/
structure TsMemoryPool where
  capacity : BitVec 32
  blockSize : BitVec 32
  ptrs : List (BitVec 32)
  allocCursor : BitVec 32
  freeCursor : BitVec 32
  deriving DecidableEq, Repr

namespace TsMemoryPool

def headSize : Nat := 72

/-- The results of the calls that `init` makes: the mutex and the two `malloc`s. -/
structure Env where
  freeMutex : Err
  data : Bool
  ptrs : Bool
  deriving DecidableEq, Repr

/-- `muggle_ts_memory_pool_init`; `none` if a store `block->pool = pool` of its loop falls outside
the memory that `malloc` returned. -/
def init (capacity dataSize : BitVec 32) (env : Env) : Option (Except Err TsMemoryPool) :=
  if capacity.toInt ≤ 0 then some (.error .invalidParam)
  else if dataSize.toInt ≤ 0 then some (.error .invalidParam)
  else
    let capacity := roundCapacity capacity
    if capacity.toInt ≤ 0 then some (.error .invalidParam)
    else
      let blockSize := (nextPowOf2 (BitVec.ofNat 64 headSize + dataSize.signExtend 64)).setWidth 32
      if blockSize.toInt ≤ 0 then some (.error .invalidParam)
      else if env.freeMutex ≠ .ok then some (.error env.freeMutex)
      else if env.data = false ∨ env.ptrs = false then some (.error .memAlloc)
      else if headsFit headSize blockSize capacity then
        some (.ok {
          capacity := capacity
          blockSize := blockSize
          ptrs := blocksOf blockSize capacity
          allocCursor := 0#32
          freeCursor := capacity })
      else none

def pos (pool : TsMemoryPool) (cursor : BitVec 32) : BitVec 32 := idxInPowOf2Ring cursor pool.capacity

def ringEntries (pool : TsMemoryPool) : List (BitVec 32) :=
  window pool.ptrs (pool.pos pool.allocCursor).toNat (pool.freeCursor - pool.allocCursor).toNat

def blocks (pool : TsMemoryPool) : List (BitVec 32) := blocksOf pool.blockSize pool.capacity

inductive Pc
  | idle
  | load
  | check (expected : BitVec 32)
  | fetch (allocCursor : BitVec 32)
  | exchange (allocCursor allocPos data : BitVec 32)
  | lock (block : BitVec 32)
  | loadPos (block : BitVec 32)
  | store (block : BitVec 32) (freePos : BitVec 32)
  | loadNext (block : BitVec 32)
  | publish (block : BitVec 32) (freeCursor : BitVec 32)
  | unlock
  deriving DecidableEq, Repr

/-- The pool, its mutex and its callers. `held` are the blocks that callers hold, `returning` those
given to a `free` that has not moved `free_cursor`, `refused` the blocks that were handed out at the
check of each `alloc` that returned `NULL`, `taken` and `freed` the numbers of moves of the cursors,
and `since` the value of `taken` when the thread read `alloc_cursor`. -/
structure State (ι : Type) where
  pool : TsMemoryPool
  freeMutex : Option ι
  pc : ι → Pc
  held : List (BitVec 32)
  returning : List (ι × BitVec 32)
  refused : List (List (BitVec 32))
  taken : Nat
  freed : Nat
  since : ι → Nat

inductive Event (ι : Type)
  | alloc (i : ι)
  | free (i : ι) (data : BitVec 32)
  | step (i : ι) (spurious : Bool)
  deriving DecidableEq, Repr

namespace State

variable {ι : Type} [DecidableEq ι]

def start (pool : TsMemoryPool) : State ι :=
  ⟨pool, none, fun _ => .idle, [], [], [], 0, 0, fun _ => 0⟩

def handedOut (s : State ι) : List (BitVec 32) := s.held ++ s.returning.map Prod.snd

def goto (s : State ι) (i : ι) (pc : Pc) : State ι :=
  { s with pc := Function.update s.pc i pc }

def reload (s : State ι) (i : ι) : State ι :=
  { s with
    pc := Function.update s.pc i (.check s.pool.allocCursor)
    since := Function.update s.since i s.taken }

def refuse (s : State ι) (i : ι) : State ι :=
  { s with
    pc := Function.update s.pc i .idle
    refused := s.refused ++ [s.handedOut] }

def handOut (s : State ι) (i : ι) (data : BitVec 32) : State ι :=
  { s with
    pc := Function.update s.pc i .idle
    held := s.held ++ [data] }

def moveAlloc (s : State ι) (cursor : BitVec 32) : State ι :=
  { s with
    pool := { s.pool with allocCursor := cursor }
    taken := s.taken + 1 }

def giveBack (s : State ι) (i : ι) (block : BitVec 32) : State ι :=
  { s with
    pc := Function.update s.pc i (.lock block)
    held := s.held.erase block
    returning := s.returning ++ [(i, block)] }

def acquire (s : State ι) (i : ι) (block : BitVec 32) : State ι :=
  { s with
    pc := Function.update s.pc i (.loadPos block)
    freeMutex := some i }

def storePtr (s : State ι) (i : ι) (block freePos : BitVec 32) : State ι :=
  { s with
    pc := Function.update s.pc i (.loadNext block)
    pool := { s.pool with ptrs := s.pool.ptrs.set freePos.toNat block } }

def moveFree (s : State ι) (i : ι) (block cursor : BitVec 32) : State ι :=
  { s with
    pc := Function.update s.pc i .unlock
    pool := { s.pool with freeCursor := cursor }
    returning := s.returning.erase (i, block)
    freed := s.freed + 1 }

def release (s : State ι) (i : ι) : State ι :=
  { s with
    pc := Function.update s.pc i .idle
    freeMutex := none }

/-- The weak compare-exchange and the loop condition around it: a failure leaves the cursor's value
in `expected`, and the loop ends if that is the position `alloc_pos`. -/
def stepExchange (s : State ι) (i : ι) (allocCursor allocPos data : BitVec 32) (spurious : Bool) :
    State ι :=
  if s.pool.allocCursor = allocCursor ∧ spurious = false then
    (s.moveAlloc (allocCursor + 1#32)).handOut i data
  else if s.pool.allocCursor ≠ allocPos then s.reload i
  else s.handOut i data

/-- The next step of thread `i`. -/
def stepThread (s : State ι) (i : ι) (spurious : Bool) : Option (State ι) :=
  match s.pc i with
  | .idle => none
  | .load => some (s.reload i)
  | .check expected =>
    if expected = s.pool.freeCursor then some (s.refuse i) else some (s.goto i (.fetch expected))
  | .fetch allocCursor =>
    (s.pool.ptrs[(s.pool.pos allocCursor).toNat]?).map fun data =>
      s.goto i (.exchange allocCursor (s.pool.pos allocCursor) data)
  | .exchange allocCursor allocPos data => some (s.stepExchange i allocCursor allocPos data spurious)
  | .lock block => if s.freeMutex.isNone then some (s.acquire i block) else none
  | .loadPos block => some (s.goto i (.store block (s.pool.pos s.pool.freeCursor)))
  | .store block freePos => some (s.storePtr i block freePos)
  | .loadNext block => some (s.goto i (.publish block s.pool.freeCursor))
  | .publish block freeCursor => some (s.moveFree i block (freeCursor + 1#32))
  | .unlock => some (s.release i)

/-- Only a block that somebody holds may be given back. -/
def step (s : State ι) : Event ι → Option (State ι)
  | .alloc i => if s.pc i = .idle then some (s.goto i .load) else none
  | .free i data => if s.pc i = .idle ∧ data ∈ s.held then some (s.giveBack i data) else none
  | .step i spurious => s.stepThread i spurious

end State

open State

variable {ι : Type} [DecidableEq ι]

inductive Move (s : State ι) (i : ι) (spurious : Bool) : State ι → Prop
  | load (hpc : s.pc i = .load) : Move s i spurious (s.reload i)
  | refuse {expected : BitVec 32} (hpc : s.pc i = .check expected)
      (hempty : expected = s.pool.freeCursor) : Move s i spurious (s.refuse i)
  | proceed {expected : BitVec 32} (hpc : s.pc i = .check expected)
      (hne : expected ≠ s.pool.freeCursor) : Move s i spurious (s.goto i (.fetch expected))
  | fetch {cursor data : BitVec 32} (hpc : s.pc i = .fetch cursor)
      (hdata : s.pool.ptrs[(s.pool.pos cursor).toNat]? = some data) :
      Move s i spurious (s.goto i (.exchange cursor (s.pool.pos cursor) data))
  | take {cursor allocPos data : BitVec 32} (hpc : s.pc i = .exchange cursor allocPos data)
      (hsame : s.pool.allocCursor = cursor) (hcas : spurious = false) :
      Move s i spurious ((s.moveAlloc (cursor + 1#32)).handOut i data)
  | retry {cursor allocPos data : BitVec 32} (hpc : s.pc i = .exchange cursor allocPos data)
      (hfail : s.pool.allocCursor ≠ cursor ∨ spurious = true)
      (hne : s.pool.allocCursor ≠ allocPos) : Move s i spurious (s.reload i)
  | giveUp {cursor allocPos data : BitVec 32} (hpc : s.pc i = .exchange cursor allocPos data)
      (hfail : s.pool.allocCursor ≠ cursor ∨ spurious = true)
      (he : s.pool.allocCursor = allocPos) : Move s i spurious (s.handOut i data)
  | acquire {block : BitVec 32} (hpc : s.pc i = .lock block) (hfree : s.freeMutex = none) :
      Move s i spurious (s.acquire i block)
  | loadPos {block : BitVec 32} (hpc : s.pc i = .loadPos block) :
      Move s i spurious (s.goto i (.store block (s.pool.pos s.pool.freeCursor)))
  | store {block freePos : BitVec 32} (hpc : s.pc i = .store block freePos) :
      Move s i spurious (s.storePtr i block freePos)
  | loadNext {block : BitVec 32} (hpc : s.pc i = .loadNext block) :
      Move s i spurious (s.goto i (.publish block s.pool.freeCursor))
  | publish {block cursor : BitVec 32} (hpc : s.pc i = .publish block cursor) :
      Move s i spurious (s.moveFree i block (cursor + 1#32))
  | release (hpc : s.pc i = .unlock) : Move s i spurious (s.release i)

private theorem move_of_stepThread {s s' : State ι} {i : ι} {spurious : Bool}
    (h : s.stepThread i spurious = some s') : Move s i spurious s' := by
  unfold stepThread at h
  split at h
  · cases h
  · next hpc =>
    cases h
    exact .load hpc
  · next expected hpc =>
    split at h
    · next he =>
      cases h
      exact .refuse hpc he
    · next hne =>
      cases h
      exact .proceed hpc hne
  · next cursor hpc =>
    obtain ⟨data, hdata, rfl⟩ := Option.map_eq_some_iff.mp h
    exact .fetch hpc hdata
  · next cursor allocPos data hpc =>
    cases h
    unfold stepExchange
    split
    · next hok => exact .take hpc hok.1 hok.2
    · next hno =>
      have hfail : s.pool.allocCursor ≠ cursor ∨ spurious = true := by
        rw [Classical.not_and_iff_not_or_not, Bool.not_eq_false] at hno
        exact hno
      split
      · next hne => exact .retry hpc hfail hne
      · next he => exact .giveUp hpc hfail (not_not.mp he)
  · next block hpc =>
    split at h
    · next hfree =>
      cases h
      exact .acquire hpc (Option.isNone_iff_eq_none.mp hfree)
    · cases h
  · next block hpc =>
    cases h
    exact .loadPos hpc
  · next block freePos hpc =>
    cases h
    exact .store hpc
  · next block hpc =>
    cases h
    exact .loadNext hpc
  · next block cursor hpc =>
    cases h
    exact .publish hpc
  · next hpc =>
    cases h
    exact .release hpc

private theorem step_cases {s s' : State ι} {a : Event ι} (h : s.step a = some s') :
    (∃ i, a = .alloc i ∧ s.pc i = .idle ∧ s' = s.goto i .load) ∨
      (∃ i data, a = .free i data ∧ s.pc i = .idle ∧ data ∈ s.held ∧ s' = s.giveBack i data) ∨
      ∃ i spurious, a = .step i spurious ∧ Move s i spurious s' := by
  cases a with
  | alloc i =>
    simp only [step] at h
    split at h
    · next hpc => exact .inl ⟨i, rfl, hpc, (Option.some.inj h).symm⟩
    · cases h
  | free i data =>
    simp only [step] at h
    split at h
    · next hc => exact .inr (.inl ⟨i, data, rfl, hc.1, hc.2, (Option.some.inj h).symm⟩)
    · cases h
  | step i spurious => exact .inr (.inr ⟨i, spurious, rfl, move_of_stepThread h⟩)

end TsMemoryPool

end MuggleC.Memory

/-! The invariant speaks of the number of blocks `taken` out of the ring and of the number `freed`
back into it, of which the cursors are the remainders modulo `2 ^ 32`; the entries between the two
numbers are the free blocks. An entry is written only while it lies outside the ring's window. -/

namespace MuggleC.Memory.TsPoolLedger

open Base Foundation.Counter Foundation.Ring Foundation.Threads Foundation.Transition
open BlockArea TsMemoryPool State Function List BitVec

variable {ι : Type}

def inside : Pc → Bool
  | .loadPos _ => true
  | .store _ _ => true
  | .loadNext _ => true
  | .publish _ _ => true
  | .unlock => true
  | _ => false

def freeing : Pc → Option (BitVec 32)
  | .lock block => some block
  | .loadPos block => some block
  | .store block _ => some block
  | .loadNext block => some block
  | .publish block _ => some block
  | _ => none

/-- Fewer moves of `alloc_cursor` have passed since the thread read it than would bring a cursor
back to the value that was read. -/
def Timely (s : State ι) (i : ι) : Prop :=
  s.taken + s.pool.capacity.toNat < s.since i + 4294967296

instance (s : State ι) (i : ι) : Decidable (Timely s i) := inferInstanceAs (Decidable (_ < _))

def DecidedAt (s : State ι) (i : ι) (spurious : Bool) : Pc → Prop
  | .check _ => Timely s i
  | .exchange allocCursor allocPos _ =>
    Timely s i ∧
      (s.pool.allocCursor ≠ allocCursor ∨ spurious = true → s.pool.allocCursor ≠ allocPos)
  | _ => True

instance (s : State ι) (i : ι) (spurious : Bool) (pc : Pc) :
    Decidable (DecidedAt s i spurious pc) :=
  match pc with
  | .check _ => inferInstanceAs (Decidable (Timely s i))
  | .exchange _ _ _ => inferInstanceAs (Decidable (Timely s i ∧ (_ ∨ _ → _)))
  | .idle => .isTrue trivial
  | .load => .isTrue trivial
  | .fetch _ => .isTrue trivial
  | .lock _ => .isTrue trivial
  | .loadPos _ => .isTrue trivial
  | .store _ _ => .isTrue trivial
  | .loadNext _ => .isTrue trivial
  | .publish _ _ => .isTrue trivial
  | .unlock => .isTrue trivial

def Decided (s : State ι) : Event ι → Prop
  | .alloc _ => True
  | .free _ _ => True
  | .step i spurious => DecidedAt s i spurious (s.pc i)

instance (s : State ι) (a : Event ι) : Decidable (Decided s a) :=
  match a with
  | .alloc _ => .isTrue trivial
  | .free _ _ => .isTrue trivial
  | .step i spurious => inferInstanceAs (Decidable (DecidedAt s i spurious (s.pc i)))

/-- What the callers of the pool may rely on. -/
structure PoolSound (s : State ι) : Prop where
  distinct : s.pool.blocks.Nodup
  held_once : s.held.Nodup
  none_lost : (s.handedOut ++ s.pool.ringEntries).Perm s.pool.blocks
  quiescent : (∀ i, s.pc i = .idle) → (s.held ++ s.pool.ringEntries).Perm s.pool.blocks
  refused_full : ∀ r ∈ s.refused, r.Perm s.pool.blocks

def entries (k : Nat) (s : State ι) : List (BitVec 32) :=
  window s.pool.ptrs s.taken (2 ^ k + s.freed - s.taken)

def AllocOk (k : Nat) (s : State ι) (since : Nat) : Pc → Prop
  | .check expected => expected = BitVec.ofNat 32 since ∧ since ≤ s.taken
  | .fetch cursor =>
    cursor = BitVec.ofNat 32 since ∧ since ≤ s.taken ∧ since < 2 ^ k + s.freed
  | .exchange cursor _ data =>
    cursor = BitVec.ofNat 32 since ∧ since ≤ s.taken ∧ since < 2 ^ k + s.freed ∧
      (s.taken = since → s.pool.ptrs[since % 2 ^ k]? = some data)
  | _ => True

def FreeOk (k : Nat) (s : State ι) : Pc → Prop
  | .store _ freePos => freePos.toNat = (2 ^ k + s.freed) % 2 ^ k
  | .loadNext block => s.pool.ptrs[(2 ^ k + s.freed) % 2 ^ k]? = some block
  | .publish block cursor =>
    s.pool.ptrs[(2 ^ k + s.freed) % 2 ^ k]? = some block ∧ cursor = BitVec.ofNat 32 (2 ^ k + s.freed)
  | _ => True

structure Inv (k : Nat) (s : State ι) : Prop where
  below : k ≤ 30
  capacity_eq : s.pool.capacity.toNat = 2 ^ k
  length_eq : s.pool.ptrs.length = 2 ^ k
  alloc_eq : s.pool.allocCursor = BitVec.ofNat 32 s.taken
  free_eq : s.pool.freeCursor = BitVec.ofNat 32 (2 ^ k + s.freed)
  freed_le : s.freed ≤ s.taken
  taken_le : s.taken ≤ 2 ^ k + s.freed
  distinct : s.pool.blocks.Nodup
  perm : (s.handedOut ++ entries k s).Perm s.pool.blocks
  returning_iff : ∀ i b, (i, b) ∈ s.returning ↔ freeing (s.pc i) = some b
  lock : Exclusive (s.freeMutex.isSome = true) fun i => inside (s.pc i) = true
  alloc : ∀ i, AllocOk k s (s.since i) (s.pc i)
  free : ∀ i, FreeOk k s (s.pc i)
  refused : ∀ r ∈ s.refused, r.Perm s.pool.blocks

variable {dataSize expected block : BitVec 32} {pool : TsMemoryPool} {pc : Pc}

private theorem toNat_blockBytes (hpos : 0 < dataSize.toInt) (hlt : dataSize.toNat < 2 ^ 31) :
    0 < (BitVec.ofNat 64 headSize + dataSize.signExtend 64).toNat ∧
      (BitVec.ofNat 64 headSize + dataSize.signExtend 64).toNat < 2 ^ 32 := by
  rw [BitVec.toNat_add, toNat_signExtend_of_pos hpos, BitVec.toNat_ofNat, headSize]
  omega

private theorem init_spec {capacity : BitVec 32} {env : Env}
    (h : TsMemoryPool.init capacity dataSize env = some (.ok pool)) :
    ∃ k, k ≤ 30 ∧ pool.capacity.toNat = 2 ^ k ∧ pool.ptrs = pool.blocks ∧ pool.blocks.Nodup ∧
      pool.allocCursor = 0#32 ∧ pool.freeCursor = pool.capacity := by
  unfold TsMemoryPool.init at h
  split at h
  · cases h
  split at h
  · cases h
  next hcap hsize =>
  -- the arithmetic comes first, while the context is small
  have hcpos : 0 < capacity.toInt := by omega
  have hspos : 0 < dataSize.toInt := by omega
  obtain ⟨k, hk, _, _⟩ := roundCapacity_spec hcpos
  obtain ⟨_, _, hs31⟩ := toNat_of_toInt_pos hspos
  have hbytes := toNat_blockBytes hspos hs31
  dsimp only at h
  split at h
  · cases h
  next hround =>
  have hk31 : 2 ^ k < 2 ^ 31 := hk ▸ (toNat_of_toInt_pos (by omega)).2.2
  have hk30 : k < 31 := (Nat.pow_lt_pow_iff_right (by omega)).mp hk31
  split at h
  · cases h
  next hblock =>
  split at h
  · cases h
  split at h
  · cases h
  split at h
  · next hfits =>
    obtain rfl := Except.ok.inj (Option.some.inj h)
    have hne : BitVec.ofNat 64 headSize + dataSize.signExtend 64 ≠ 0#64 := by
      intro hz
      rw [hz] at hbytes
      exact absurd hbytes.1 (by decide)
    obtain ⟨b, hb⟩ := setWidth_nextPowOf2_spec hne hbytes.2
      (by intro hz; rw [hz] at hblock; exact hblock (by decide))
    exact ⟨k, Nat.le_of_lt_succ hk30, hk, rfl, nodup_blocksOf hb hk
      (product_ne_zero (by decide) hk hfits), rfl, rfl⟩
  · cases h

namespace Inv

variable {k : Nat} {s : State ι} (h : Inv k s)

include h

private theorem pow_le : 2 ^ k ≤ 2 ^ 30 := Nat.pow_le_pow_right (by omega) h.below

private theorem length_entries : (entries k s).length = 2 ^ k + s.freed - s.taken := by
  have := h.freed_le
  have := Nat.two_pow_pos k
  exact length_window (by rw [h.length_eq]; omega)

private theorem length_blocks : s.pool.blocks.length = 2 ^ k := by
  rw [blocks, length_blocksOf, h.capacity_eq]

private theorem count : s.handedOut.length + s.freed = s.taken := by
  have hlen := h.perm.length_eq
  have := h.taken_le
  rw [length_append, h.length_entries, h.length_blocks] at hlen
  omega

private theorem ringEntries_eq : s.pool.ringEntries = entries k s := by
  have := h.freed_le
  have := h.pow_le
  rw [ringEntries, entries, TsMemoryPool.pos, h.alloc_eq, h.free_eq,
    toNat_idxInPowOf2Ring h.capacity_eq, toNat_ofNat_sub h.taken_le (by omega), ← h.length_eq,
    window_mod]

theorem nodup_handedOut : s.handedOut.Nodup :=
  (nodup_append.mp (h.perm.nodup_iff.mpr h.distinct)).1

private theorem nodup_returning : s.returning.Nodup :=
  (nodup_append.mp h.nodup_handedOut).2.1.of_map

theorem room {i : ι} {b : BitVec 32} (hf : freeing (s.pc i) = some b) :
    2 ^ k + s.freed < s.taken + 2 ^ k := by
  have hmem := (h.returning_iff i b).mpr hf
  have hpos : 0 < s.handedOut.length := by
    rw [handedOut, length_append, length_map]
    have := length_pos_of_mem hmem
    omega
  have := h.count
  omega

private theorem handedOut_of_idle (hidle : ∀ i, s.pc i = .idle) : s.handedOut = s.held := by
  have hnone : s.returning = [] := by
    apply eq_nil_iff_forall_not_mem.mpr
    intro p hp
    have hf := (h.returning_iff p.1 p.2).mp hp
    rw [hidle p.1] at hf
    cases hf
  rw [handedOut, hnone, map_nil, append_nil]

private theorem sound : PoolSound s := by
  have hperm : (s.handedOut ++ s.pool.ringEntries).Perm s.pool.blocks := by
    rw [h.ringEntries_eq]
    exact h.perm
  refine ⟨h.distinct, (nodup_append.mp h.nodup_handedOut).1, hperm, ?_, h.refused⟩
  intro hidle
  rw [← h.handedOut_of_idle hidle]
  exact hperm

end Inv

private theorem start_inv {capacity : BitVec 32} {env : Env}
    (h : TsMemoryPool.init capacity dataSize env = some (.ok pool)) :
    ∃ k, Inv k (start pool : State ι) := by
  obtain ⟨k, hk, hcap, hptrs, hnodup, ha, hf⟩ := init_spec h
  have hlen : pool.ptrs.length = 2 ^ k := by
    rw [hptrs, blocks, length_blocksOf, hcap]
  refine ⟨k, hk, hcap, hlen, ha, ?_, Nat.le_refl _, Nat.zero_le _, hnodup, ?_, ?_, ?_,
    fun _ => trivial, fun _ => trivial, ?_⟩
  · rw [start, hf, Nat.add_zero, ← hcap, ofNat_toNat, setWidth_eq]
  · have hall : entries k (start pool : State ι) = pool.blocks := by
      change window pool.ptrs 0 (2 ^ k + 0 - 0) = pool.blocks
      rw [window_eq_drop (by omega), drop_zero, hptrs]
    rw [hall]
    exact List.Perm.refl _
  · intro i b
    exact iff_of_false (not_mem_nil) (by intro hn; cases hn)
  · constructor
    · intro i hi
      cases hi
    · intro i j hi
      cases hi
  · intro r hr
    exact absurd hr not_mem_nil

variable [DecidableEq ι]

def relocate (s : State ι) (i : ι) (pc : Pc) (since : Nat) (freeMutex : Option ι) : State ι :=
  { s with
    freeMutex := freeMutex
    pc := Function.update s.pc i pc
    since := Function.update s.since i since }

private theorem goto_eq_relocate (s : State ι) (i : ι) (pc : Pc) :
    s.goto i pc = relocate s i pc (s.since i) s.freeMutex := by
  rw [goto, relocate, update_eq_self]

variable {k : Nat} {s : State ι} {i : ι}

omit [DecidableEq ι] in
private theorem freeOk_of_outside (h : inside pc = false) : FreeOk k s pc := by
  cases pc with
  | store _ _ => cases h
  | loadNext _ => cases h
  | publish _ _ => cases h
  | _ => trivial

theorem returning_stay (h : Inv k s) (i : ι) (pc : Pc) (hfreeing : freeing pc = freeing (s.pc i))
    (j : ι) (b : BitVec 32) : (j, b) ∈ s.returning ↔ freeing (update s.pc i pc j) = some b := by
  rw [h.returning_iff j b]
  rcases eq_or_ne j i with rfl | hne
  · rw [update_self, hfreeing]
  · rw [update_of_ne hne]

theorem allocOk_update (h : Inv k s) (i : ι) (pc : Pc) (hpc : AllocOk k s (s.since i) pc) (j : ι) :
    AllocOk k s (s.since j) (update s.pc i pc j) := by
  rcases eq_or_ne j i with rfl | hne
  · rw [update_self]
    exact hpc
  · rw [update_of_ne hne]
    exact h.alloc j

theorem relocate_inv (h : Inv k s) (i : ι) (pc : Pc) (since : Nat)
    (freeMutex : Option ι) (hfreeing : freeing pc = freeing (s.pc i))
    (hlock : Exclusive (freeMutex.isSome = true) fun j => inside (update s.pc i pc j) = true)
    (halloc : AllocOk k s since pc) (hfree : FreeOk k s pc) :
    Inv k (relocate s i pc since freeMutex) where
  below := h.below
  capacity_eq := h.capacity_eq
  length_eq := h.length_eq
  alloc_eq := h.alloc_eq
  free_eq := h.free_eq
  freed_le := h.freed_le
  taken_le := h.taken_le
  distinct := h.distinct
  perm := h.perm
  returning_iff := returning_stay h i pc hfreeing
  lock := hlock
  alloc j := by
    change AllocOk k s (update s.since i since j) (update s.pc i pc j)
    rcases eq_or_ne j i with rfl | hne
    · rw [update_self, update_self]
      exact halloc
    · rw [update_of_ne hne, update_of_ne hne]
      exact h.alloc j
  free := (forall_update_iff s.pc fun _ pc => FreeOk k s pc).mpr ⟨hfree, fun j _ => h.free j⟩
  refused := h.refused

theorem goto_inv (h : Inv k s)
    (hfreeing : freeing pc = freeing (s.pc i)) (hin : inside pc = true → inside (s.pc i) = true)
    (halloc : AllocOk k s (s.since i) pc) (hfree : FreeOk k s pc) : Inv k (s.goto i pc) := by
  rw [goto_eq_relocate]
  exact relocate_inv h i pc _ _ hfreeing (h.lock.update_stay hin) halloc hfree

private theorem reload_inv (h : Inv k s) (hf : freeing (s.pc i) = none) : Inv k (s.reload i) := by
  refine relocate_inv h i (.check s.pool.allocCursor) s.taken s.freeMutex hf.symm
    (h.lock.update_stay ?_) ⟨h.alloc_eq, Nat.le_refl _⟩ trivial
  intro hin
  cases hin

omit [DecidableEq ι] in
theorem Inv.entries_nil (h : Inv k s) (hpc : s.pc i = .check expected) (htime : Timely s i)
    (he : expected = s.pool.freeCursor) : entries k s = [] := by
  have hok := h.alloc i
  rw [hpc] at hok
  obtain ⟨hexp, hle⟩ := hok
  rw [Timely, h.capacity_eq] at htime
  have := h.freed_le
  have := h.taken_le
  have hsame := eq_of_ofNat_eq (w := 32) (m := s.since i) (n := 2 ^ k + s.freed) (by omega)
    (by omega) (by rw [← h.free_eq, ← he, hexp])
  rw [entries, show 2 ^ k + s.freed - s.taken = 0 by omega, window_zero]

private theorem refuse_inv (h : Inv k s) (hpc : s.pc i = .check expected) (htime : Timely s i)
    (he : expected = s.pool.freeCursor) : Inv k (s.refuse i) := by
  have hidle : Inv k (s.goto i .idle) :=
    goto_inv h (by rw [hpc]; rfl) (by intro hin; cases hin) trivial trivial
  have hfull : s.handedOut.Perm s.pool.blocks := by
    have hperm := h.perm
    rw [h.entries_nil hpc htime he, append_nil] at hperm
    exact hperm
  have hall : ∀ r ∈ s.refused ++ [s.handedOut], r.Perm s.pool.blocks := by
    intro r hr
    rcases mem_append.mp hr with hr | hr
    · exact h.refused r hr
    · rw [mem_singleton.mp hr]
      exact hfull
  exact { hidle with refused := hall }

omit [DecidableEq ι] in
theorem AllocOk.mono {k since : Nat} (h : AllocOk k s since pc)
    (s' : State ι) (ht : s.taken ≤ s'.taken) (hf : s.freed ≤ s'.freed)
    (hp : s'.taken = s.taken → s.taken < 2 ^ k + s.freed →
      s'.pool.ptrs[s.taken % 2 ^ k]? = s.pool.ptrs[s.taken % 2 ^ k]?) :
    AllocOk k s' since pc := by
  cases pc with
  | check expected => exact ⟨h.1, Nat.le_trans h.2 ht⟩
  | fetch cursor => exact ⟨h.1, Nat.le_trans h.2.1 ht, by have := h.2.2; omega⟩
  | exchange cursor allocPos data =>
    obtain ⟨hc, hle, hlt, hdata⟩ := h
    refine ⟨hc, Nat.le_trans hle ht, by omega, ?_⟩
    intro he
    have hsame : s.taken = since := by omega
    have hget := hp (by omega) (by omega)
    rw [hsame] at hget
    rw [hget]
    exact hdata hsame
  | _ => trivial

private theorem take_inv (h : Inv k s) {cursor allocPos data : BitVec 32}
    (hpc : s.pc i = .exchange cursor allocPos data) (htime : Timely s i)
    (hsame : s.pool.allocCursor = cursor) :
    Inv k ((s.moveAlloc (cursor + 1#32)).handOut i data) := by
  have hok := h.alloc i
  rw [hpc] at hok
  obtain ⟨hc, hle, hlt, hdata⟩ := hok
  rw [Timely, h.capacity_eq] at htime
  have := Nat.two_pow_pos k
  have hnow : s.taken = s.since i :=
    eq_of_ofNat_eq (w := 32) hle (by omega) (by rw [← h.alloc_eq, hsame, hc])
  have hfl := h.freed_le
  have hfirst : entries k s = data :: window s.pool.ptrs (s.taken + 1)
      (2 ^ k + s.freed - (s.taken + 1)) := by
    have hget := hdata hnow
    rw [← hnow, ← h.length_eq] at hget
    rw [entries, show 2 ^ k + s.freed - s.taken = 2 ^ k + s.freed - (s.taken + 1) + 1 by omega,
      window_succ (by rw [h.length_eq]; omega) hget]
  have hidle : Inv k (s.goto i .idle) :=
    goto_inv h (by rw [hpc]; rfl) (by intro hin; cases hin) trivial trivial
  refine { hidle with
    alloc_eq := ?_
    freed_le := Nat.le_succ_of_le hfl
    taken_le := ?_
    perm := ?_
    alloc := ?_ }
  · change cursor + 1#32 = BitVec.ofNat 32 (s.taken + 1)
    rw [hc, hnow, ofNat_succ]
  · change s.taken + 1 ≤ 2 ^ k + s.freed
    omega
  · have hperm := h.perm
    rw [hfirst, handedOut] at hperm
    refine List.Perm.trans ?_ hperm
    change ((s.held ++ [data]) ++ s.returning.map Prod.snd ++ _).Perm _
    rw [List.append_assoc, List.append_assoc, List.append_assoc, List.singleton_append]
    exact List.Perm.append_left _ List.perm_middle.symm
  · intro j
    apply (hidle.alloc j).mono ((s.moveAlloc (cursor + 1#32)).handOut i data)
      (Nat.le_succ s.taken) (Nat.le_refl s.freed)
    intro he
    exact absurd he (Nat.succ_ne_self _)

private theorem giveBack_inv (h : Inv k s)
    (hpc : s.pc i = .idle) (hmem : block ∈ s.held) : Inv k (s.giveBack i block) := by
  have hnot : ∀ b, (i, b) ∉ s.returning := by
    intro b hb
    have hf := (h.returning_iff i b).mp hb
    rw [hpc] at hf
    cases hf
  refine { h with
    perm := ?_
    returning_iff := ?_
    lock := h.lock.update_stay (by intro hin; cases hin)
    alloc := ?_
    free := ?_ }
  · refine List.Perm.trans (List.Perm.append_right _ ?_) h.perm
    change (s.held.erase block ++ (s.returning ++ [(i, block)]).map Prod.snd).Perm _
    rw [map_append]
    exact (List.Perm.append_left _ perm_append_comm).trans (perm_middle.trans
        (List.Perm.append_right _ (perm_cons_erase hmem).symm))
  · intro j b
    change (j, b) ∈ s.returning ++ [(i, block)] ↔ freeing (update s.pc i (.lock block) j) = some b
    rw [mem_append, mem_singleton]
    rcases eq_or_ne j i with rfl | hne
    · simp [hnot b, freeing, eq_comm]
    · rw [update_of_ne hne, h.returning_iff j b]
      simp [hne]
  · exact allocOk_update h i (.lock block) trivial
  · exact (forall_update_iff s.pc fun _ pc => FreeOk k s pc).mpr ⟨trivial, fun j _ => h.free j⟩

private theorem acquire_inv (h : Inv k s)
    (hpc : s.pc i = .lock block) (hfree : s.freeMutex = none) : Inv k (s.acquire i block) := by
  have hlock : Exclusive ((some i).isSome = true)
      fun j => inside (update s.pc i (.loadPos block) j) = true :=
    h.lock.update_enter (by rw [hfree]; exact Bool.false_ne_true) rfl
  have hinv := relocate_inv h i (.loadPos block) (s.since i) (some i) (by rw [hpc]; rfl) hlock
    trivial trivial
  rw [relocate, update_eq_self] at hinv
  exact hinv

private theorem release_inv (h : Inv k s) (hpc : s.pc i = .unlock) : Inv k (s.release i) := by
  have hlock : Exclusive ((none : Option ι).isSome = true)
      fun j => inside (update s.pc i .idle j) = true :=
    h.lock.update_leave (by rw [hpc]; rfl) rfl
  have hinv := relocate_inv h i .idle (s.since i) none (by rw [hpc]; rfl) hlock trivial trivial
  rw [relocate, update_eq_self] at hinv
  exact hinv

theorem freeOk_update (h : Inv k s) (hin : inside (s.pc i) = true) (s' : State ι)
    (hpc : FreeOk k s' pc) (j : ι) : FreeOk k s' (update s.pc i pc j) := by
  rcases eq_or_ne j i with rfl | hne
  · rw [update_self]
    exact hpc
  · rw [update_of_ne hne]
    apply freeOk_of_outside
    rw [← Bool.not_eq_true]
    intro hj
    exact hne (h.lock.unique j i hj hin)

private theorem storePtr_inv (h : Inv k s) {freePos : BitVec 32}
    (hpc : s.pc i = .store block freePos) : Inv k (s.storePtr i block freePos) := by
  have hpos := h.free i
  rw [hpc] at hpos
  have hroom := h.room (i := i) (b := block) (by rw [hpc]; rfl)
  have hle := h.taken_le
  have hlt : freePos.toNat < s.pool.ptrs.length := by
    rw [hpos, h.length_eq]
    exact Nat.mod_lt _ (Nat.two_pow_pos k)
  refine { h with
    length_eq := ?_
    perm := ?_
    returning_iff := returning_stay h i (.loadNext block) (by rw [hpc]; rfl)
    lock := h.lock.update_stay (by intro _; rw [hpc]; rfl)
    alloc := ?_
    free := freeOk_update h (by rw [hpc]; rfl) _ ?_ }
  · exact (length_set).trans h.length_eq
  · have hsame : entries k (s.storePtr i block freePos) = entries k s := by
      change window (s.pool.ptrs.set freePos.toNat block) s.taken (2 ^ k + s.freed - s.taken) = _
      have hbehind : freePos.toNat =
          (s.taken + (2 ^ k + s.freed - s.taken)) % s.pool.ptrs.length := by
        rw [hpos, h.length_eq, Nat.add_sub_cancel' hle]
      rw [hbehind, window_set_behind block (by rw [h.length_eq]; omega), entries]
    rw [hsame]
    exact h.perm
  · intro j
    apply (allocOk_update h i (.loadNext block) trivial j).mono (s.storePtr i block freePos)
      (Nat.le_refl s.taken) (Nat.le_refl s.freed)
    intro _ hbefore
    apply getElem?_set_ne
    rw [hpos]
    intro he
    have := eq_of_mod_eq hle hroom he
    omega
  · change (s.pool.ptrs.set freePos.toNat block)[(2 ^ k + s.freed) % 2 ^ k]? = some block
    rw [← hpos, getElem?_set_self hlt]

private theorem moveFree_inv (h : Inv k s) {cursor : BitVec 32}
    (hpc : s.pc i = .publish block cursor) : Inv k (s.moveFree i block (cursor + 1#32)) := by
  have hpos := h.free i
  rw [hpc] at hpos
  obtain ⟨hentry, hcursor⟩ := hpos
  have hroom := h.room (i := i) (b := block) (by rw [hpc]; rfl)
  have hle := h.taken_le
  have hmem : (i, block) ∈ s.returning := (h.returning_iff i block).mpr (by rw [hpc]; rfl)
  refine { h with
    free_eq := ?_
    freed_le := by change s.freed + 1 ≤ s.taken; omega
    taken_le := by change s.taken ≤ 2 ^ k + (s.freed + 1); omega
    perm := ?_
    returning_iff := ?_
    lock := h.lock.update_stay (by intro _; rw [hpc]; rfl)
    alloc := ?_
    free := freeOk_update h (by rw [hpc]; rfl) _ trivial }
  · change cursor + 1#32 = BitVec.ofNat 32 (2 ^ k + (s.freed + 1))
    rw [hcursor, ofNat_succ, Nat.add_assoc]
  · have hgrown : entries k (s.moveFree i block (cursor + 1#32)) = entries k s ++ [block] := by
      change window s.pool.ptrs s.taken (2 ^ k + (s.freed + 1) - s.taken) = _
      rw [show 2 ^ k + (s.freed + 1) - s.taken = 2 ^ k + s.freed - s.taken + 1 by omega, entries]
      apply window_snoc (by rw [h.length_eq]; omega)
      rw [Nat.add_sub_cancel' hle, h.length_eq]
      exact hentry
    have hout : (s.returning.map Prod.snd).Perm
        (block :: (s.returning.erase (i, block)).map Prod.snd) :=
      (perm_cons_erase hmem).map Prod.snd
    rw [hgrown]
    refine List.Perm.trans ?_ h.perm
    change (s.held ++ (s.returning.erase (i, block)).map Prod.snd ++ (entries k s ++ [block])).Perm
      (s.held ++ s.returning.map Prod.snd ++ entries k s)
    rw [List.append_assoc, List.append_assoc, ← List.append_assoc _ (entries k s)]
    apply List.Perm.append_left
    exact (perm_append_singleton _ _).trans (hout.symm.append_right (entries k s))
  · intro j b
    change (j, b) ∈ s.returning.erase (i, block) ↔ freeing (update s.pc i .unlock j) = some b
    rw [h.nodup_returning.mem_erase_iff, h.returning_iff j b]
    rcases eq_or_ne j i with rfl | hne
    · rw [update_self, hpc]
      simp [freeing, eq_comm]
    · simp [hne]
  · intro j
    exact (allocOk_update h i .unlock trivial j).mono (s.moveFree i block (cursor + 1#32))
      (Nat.le_refl s.taken) (Nat.le_succ s.freed) fun _ _ => rfl

private theorem move_inv {s s' : State ι} {spurious : Bool} (h : Inv k s)
    (hd : DecidedAt s i spurious (s.pc i)) (hm : Move s i spurious s') : Inv k s' := by
  cases hm with
  | load hpc | retry hpc hfail hne => exact reload_inv h (by rw [hpc]; rfl)
  | refuse hpc he =>
    rw [hpc] at hd
    exact refuse_inv h hpc hd he
  | proceed hpc hne =>
    have hok := h.alloc i
    rw [hpc] at hok hd
    obtain ⟨hexp, hle⟩ := hok
    have hlt : s.since i < 2 ^ k + s.freed := by
      have := h.taken_le
      apply Nat.lt_of_le_of_ne (by omega)
      intro he
      rw [hexp, he, ← h.free_eq] at hne
      exact hne rfl
    exact goto_inv h (by rw [hpc]; rfl) (by intro hin; cases hin) ⟨hexp, hle, hlt⟩ trivial
  | @fetch cursor data hpc hdata =>
    have hok := h.alloc i
    rw [hpc] at hok
    obtain ⟨hc, hle, hlt⟩ := hok
    rw [hc, TsMemoryPool.pos, toNat_idxInPowOf2Ring h.capacity_eq] at hdata
    exact goto_inv h (by rw [hpc]; rfl) (by intro hin; cases hin) ⟨hc, hle, hlt, fun _ => hdata⟩
      trivial
  | take hpc hsame hcas =>
    rw [hpc] at hd
    exact take_inv h hpc hd.1 hsame
  | giveUp hpc hfail he =>
    rw [hpc] at hd
    exact absurd he (hd.2 hfail)
  | acquire hpc hfree => exact acquire_inv h hpc hfree
  | loadPos hpc =>
    refine goto_inv h (by rw [hpc]; rfl) (by intro _; rw [hpc]; rfl) trivial ?_
    change (s.pool.pos s.pool.freeCursor).toNat = _
    rw [h.free_eq, TsMemoryPool.pos, toNat_idxInPowOf2Ring h.capacity_eq]
  | store hpc => exact storePtr_inv h hpc
  | loadNext hpc =>
    have hok := h.free i
    rw [hpc] at hok
    exact goto_inv h (by rw [hpc]; rfl) (by intro _; rw [hpc]; rfl) trivial ⟨hok, h.free_eq⟩
  | publish hpc => exact moveFree_inv h hpc
  | release hpc => exact release_inv h hpc

private theorem step_inv {s s' : State ι} {a : Event ι} (h : Inv k s) (hd : Decided s a)
    (hs : s.step a = some s') : Inv k s' := by
  rcases step_cases hs with ⟨i, rfl, hpc, rfl⟩ | ⟨i, data, rfl, hpc, hmem, rfl⟩ |
    ⟨i, spurious, rfl, hm⟩
  · exact goto_inv h (by rw [hpc]; rfl) (by intro hin; cases hin) trivial trivial
  · exact giveBack_inv h hpc hmem
  · exact move_inv h hd hm

/-- In every run of callers of a pool whose compare-exchanges are all decided, every state is
sound. -/
theorem ts_pool_sound (capacity dataSize : BitVec 32) (env : Env) (pool : TsMemoryPool)
    (hi : TsMemoryPool.init capacity dataSize env = some (.ok pool)) (events : List (Event ι))
    (s : State ι) (hr : run (guarded step Decided) (start pool) events = some s) : PoolSound s := by
  obtain ⟨k, hstart⟩ := start_inv (ι := ι) hi
  have hinv : Inv k s := by
    apply run_invariant (I := Inv k) _ hstart hr
    intro t a t' ht hstep
    obtain ⟨hd, hstep⟩ := guarded_eq_some.mp hstep
    exact step_inv ht hd hstep
  exact hinv.sound

def twoBlocks : TsMemoryPool := ⟨2#32, 128#32, [0#32, 128#32], 0#32, 2#32⟩

def envOk : Env := ⟨.ok, true, true⟩

def steps (i : Bool) (n : Nat) : List (Event Bool) := List.replicate n (.step i false)

def twoCallers : List (Event Bool) :=
  [.alloc false, .alloc true] ++ steps true 3 ++ steps false 4 ++ steps true 4
    ++ [.alloc false] ++ steps false 2 ++ [.free true 0#32] ++ steps true 6
    ++ [.alloc false] ++ steps false 3 ++ [.step false true] ++ steps false 3

theorem ts_pool_sound_two_callers :
    ∃ s : State Bool, run (guarded step Decided) (start twoBlocks) twoCallers = some s ∧
      s.held = [128#32, 0#32] ∧ s.refused = [[0#32, 128#32]] ∧ PoolSound s := by
  have hrun : (run (guarded step Decided) (start twoBlocks) twoCallers).map
      (fun s => (s.held, s.refused)) = some ([128#32, 0#32], [[0#32, 128#32]]) := by
    decide +kernel
  obtain ⟨s, hs, hfields⟩ := Option.map_eq_some_iff.mp hrun
  obtain ⟨hheld, hrefused⟩ := Prod.mk.inj hfields
  exact ⟨s, hs, hheld, hrefused,
    ts_pool_sound 2#32 8#32 envOk twoBlocks (by decide +kernel) twoCallers s hs⟩

/-- In the first lap a cursor is its own position: an exchange that fails spuriously ends the loop,
and the block it returns is still the first entry of the ring. -/
theorem spurious_failure_hands_out_twice :
    ¬ ∀ (capacity dataSize : BitVec 32) (env : Env) (pool : TsMemoryPool),
      TsMemoryPool.init capacity dataSize env = some (.ok pool) →
      ∀ (events : List (Event Bool)) (s : State Bool),
        run step (start pool) events = some s → PoolSound s := by
  intro h
  have hrun : (run step (start twoBlocks : State Bool)
      ([.alloc false, .alloc true] ++ steps false 3 ++ [.step false true] ++ steps true 4)).map
      State.held = some [0#32, 0#32] := by decide +kernel
  obtain ⟨s, hs, hheld⟩ := Option.map_eq_some_iff.mp hrun
  have hsound := h 2#32 8#32 envOk twoBlocks (by decide +kernel) _ s hs
  have honce := hsound.held_once
  rw [hheld] at honce
  exact absurd honce (by decide)

end MuggleC.Memory.TsPoolLedger
