/- source: memory/memory_pool.c
   digest: The block pool over a ring of pointers, and runs of alloc and free on it. -/

import Mathlib.Data.List.Perm.Basic
import MuggleC.Foundation.Ring
import MuggleC.Foundation.Transition

/-! The entries of the ring from `alloc_index` on, cyclically and `capacity - used` of them, are the
blocks that are not handed out; the other entries are stale. A block pointer is the index of its
data buffer with a byte offset, which is computed in `unsigned int` and wraps. -/

set_option autoImplicit false

namespace MuggleC.Memory

open Foundation.Slice Foundation.Ring List

def u32 (n : Nat) : Nat := n % 4294967296

theorem u32_of_lt {n : Nat} (h : n < 4294967296) : u32 n = n := Nat.mod_eq_of_lt h

structure Block where
  buf : Nat
  offset : Nat
  deriving DecidableEq, Repr

/-- Which of the three `malloc` calls of a function succeed. -/
structure Malloc where
  bufs : Bool
  data : Bool
  ptr : Bool
  deriving DecidableEq, Repr

/-- `muggle_memory_pool_t`. Entry `k` of `dataBufs` is the number of bytes requested for data
buffer `k`; the `unsigned int` fields are natural numbers. -/
structure MemoryPool where
  dataBufs : List Nat
  ptrBuf : List Block
  allocIndex : Nat
  freeIndex : Nat
  capacity : Nat
  used : Nat
  blockSize : Nat
  numBuf : Nat
  flag : Nat
  peak : Nat
  deriving DecidableEq, Repr

namespace MemoryPool

def constantSize : Nat := 1

def blocksOf (buf blockSize n : Nat) : List Block :=
  (List.range n).map fun i => ⟨buf, u32 (i * blockSize)⟩

def init (initCapacity blockSize : UInt32) (mem : Malloc) : Option MemoryPool :=
  let capacity := if initCapacity = 0 then 8 else initCapacity.toNat
  if blockSize = 0 then none
  else if !mem.bufs then none
  else if !mem.ptr then none
  else if !mem.data then none
  else some
    { dataBufs := [u32 (blockSize.toNat * capacity)]
      ptrBuf := blocksOf 0 blockSize.toNat capacity
      allocIndex := 0
      freeIndex := 0
      capacity := capacity
      used := 0
      blockSize := blockSize.toNat
      numBuf := 1
      flag := 0
      peak := 0 }

structure Sections where
  free1 : Nat × Nat
  free2 : Nat × Nat
  alloc1 : Nat × Nat
  alloc2 : Nat × Nat

def sections (pool : MemoryPool) : Sections :=
  if pool.used = pool.capacity then
    { free1 := (pool.freeIndex, pool.capacity - pool.freeIndex)
      free2 := (0, pool.freeIndex)
      alloc1 := (0, 0)
      alloc2 := (0, 0) }
  else if pool.allocIndex > pool.freeIndex then
    { free1 := (pool.freeIndex, pool.allocIndex - pool.freeIndex)
      free2 := (0, 0)
      alloc1 := (pool.allocIndex, pool.capacity - pool.allocIndex)
      alloc2 := (0, pool.freeIndex) }
  else
    { free1 := (pool.freeIndex, pool.capacity - pool.freeIndex)
      free2 := (0, pool.allocIndex)
      alloc1 := (pool.allocIndex, pool.freeIndex - pool.allocIndex)
      alloc2 := (0, 0) }

def copySections (pool : MemoryPool) : List Block × List Block :=
  let s := sections pool
  let copy := fun part : Nat × Nat => slice pool.ptrBuf part.1 part.2
  (copy s.free1 ++ (if s.free2.2 > 0 then copy s.free2 else []),
    if s.free1.2 > 0 then copy s.alloc1 ++ (if s.alloc2.2 > 0 then copy s.alloc2 else []) else [])

def grow (pool : MemoryPool) (capacity : Nat) : MemoryPool :=
  let deltaSize := capacity - pool.capacity
  let copied := copySections pool
  { pool with
    dataBufs := pool.dataBufs ++ [u32 (pool.blockSize * deltaSize)]
    ptrBuf := copied.1 ++ copied.2 ++ blocksOf pool.numBuf pool.blockSize deltaSize
    freeIndex := 0
    allocIndex := copied.1.length
    numBuf := u32 (pool.numBuf + 1)
    capacity := capacity }

def ensureSpace (pool : MemoryPool) (capacity : UInt32) (mem : Malloc) : MemoryPool × Bool :=
  if capacity.toNat ≤ pool.capacity then (pool, true)
  else if pool.flag &&& constantSize ≠ 0 then (pool, false)
  else if !mem.bufs then (pool, false)
  else if !mem.data then (pool, false)
  else if !mem.ptr then (pool, false)
  else (grow pool capacity.toNat, true)

def nextIndex (pool : MemoryPool) (index : Nat) : Nat :=
  if u32 (index + 1) = pool.capacity then 0 else u32 (index + 1)

/-- The entry at `alloc_index` is handed out. -/
def takeBlock (pool : MemoryPool) : MemoryPool × Option Block :=
  let used := u32 (pool.used + 1)
  ({ pool with
      used := used
      peak := if used > pool.peak then used else pool.peak
      allocIndex := nextIndex pool pool.allocIndex },
    pool.ptrBuf[pool.allocIndex]?)

def alloc (pool : MemoryPool) (mem : Malloc) : MemoryPool × Option Block :=
  if pool.used = pool.capacity then
    match ensureSpace pool (UInt32.ofNat (pool.capacity * 2)) mem with
    | (pool', true) => takeBlock pool'
    | (pool', false) => (pool', none)
  else takeBlock pool

def free (pool : MemoryPool) (data : Block) : MemoryPool :=
  { pool with
    ptrBuf := pool.ptrBuf.set pool.freeIndex data
    freeIndex := nextIndex pool pool.freeIndex
    used := u32 (pool.used + 4294967295) }

def setFlag (pool : MemoryPool) (flag : UInt32) : MemoryPool := { pool with flag := flag.toNat }

def available (pool : MemoryPool) : List Block :=
  window pool.ptrBuf pool.allocIndex (pool.capacity - pool.used)

structure RingInv (pool : MemoryPool) : Prop where
  size : pool.ptrBuf.length = pool.capacity
  alloc_lt : pool.allocIndex < pool.capacity
  used_le : pool.used ≤ pool.capacity
  capacity_lt : pool.capacity < 4294967296
  free_eq : pool.freeIndex = (pool.allocIndex + (pool.capacity - pool.used)) % pool.capacity

theorem length_blocksOf (buf blockSize n : Nat) : (blocksOf buf blockSize n).length = n := by
  simp [blocksOf]

theorem mem_blocksOf_buf {buf blockSize n : Nat} {p : Block} (h : p ∈ blocksOf buf blockSize n) :
    p.buf = buf := by
  simp only [blocksOf, mem_map] at h
  obtain ⟨i, _, rfl⟩ := h
  rfl

theorem nodup_blocksOf {buf blockSize n : Nat} (h0 : 0 < blockSize)
    (h : blockSize * n < 4294967296) : (blocksOf buf blockSize n).Nodup := by
  apply List.Nodup.map_on _ nodup_range
  intro i hi j hj he
  rw [mem_range] at hi hj
  have hlt : ∀ k < n, k * blockSize < 4294967296 := by
    intro k hk
    calc k * blockSize ≤ n * blockSize := Nat.mul_le_mul_right _ (Nat.le_of_lt hk)
      _ = blockSize * n := Nat.mul_comm _ _
      _ < 4294967296 := h
  have hoff : u32 (i * blockSize) = u32 (j * blockSize) := congrArg Block.offset he
  rw [u32_of_lt (hlt i hi), u32_of_lt (hlt j hj)] at hoff
  exact Nat.eq_of_mul_eq_mul_right h0 hoff

variable {pool : MemoryPool}

theorem init_eq_some {initCapacity blockSize : UInt32} {mem : Malloc}
    (h : init initCapacity blockSize mem = some pool) :
    ∃ capacity, (if initCapacity = 0 then 8 else initCapacity.toNat) = capacity ∧ 0 < capacity ∧
      capacity < 4294967296 ∧ 0 < blockSize.toNat ∧
      pool = ⟨[u32 (blockSize.toNat * capacity)], blocksOf 0 blockSize.toNat capacity, 0, 0,
        capacity, 0, blockSize.toNat, 1, 0, 0⟩ := by
  have hpos : ∀ {n : UInt32}, n ≠ 0 → 0 < n.toNat := fun hn =>
    Nat.pos_of_ne_zero fun hz => hn (UInt32.toNat_inj.mp hz)
  unfold init at h
  dsimp only at h
  split at h
  · cases h
  next hbs =>
  split at h
  · cases h
  split at h
  · cases h
  split at h
  · cases h
  cases h
  refine ⟨_, rfl, ?_, ?_, hpos hbs, rfl⟩
  · split
    · decide
    · next hne => exact hpos hne
  · split
    · decide
    · exact initCapacity.toNat_lt

theorem length_available (hp : RingInv pool) :
    (available pool).length = pool.capacity - pool.used := by
  apply length_window
  rw [hp.size]
  omega

theorem nextIndex_eq {index : Nat} (hc : pool.capacity < 4294967296)
    (hi : index < pool.capacity) : nextIndex pool index = (index + 1) % pool.capacity := by
  unfold nextIndex
  rw [u32_of_lt (by omega)]
  split
  · next h => rw [h, Nat.mod_self]
  · next h => rw [Nat.mod_eq_of_lt (by omega)]

variable (hp : RingInv pool)

include hp

theorem takeBlock_spec (h : pool.used < pool.capacity) :
    ∃ b, (takeBlock pool).2 = some b ∧ available pool = b :: available (takeBlock pool).1 ∧
      RingInv (takeBlock pool).1 ∧ (takeBlock pool).1.used = pool.used + 1 := by
  obtain ⟨hs, ha, hu, hc, hf⟩ := hp
  have hlt : pool.allocIndex < pool.ptrBuf.length := by omega
  obtain ⟨b, hb⟩ : ∃ b, pool.ptrBuf[pool.allocIndex]? = some b :=
    ⟨_, getElem?_eq_getElem hlt⟩
  have hused : u32 (pool.used + 1) = pool.used + 1 := u32_of_lt (by omega)
  have hnext := nextIndex_eq hc ha
  have hsplit : pool.capacity - pool.used = (pool.capacity - (pool.used + 1)) + 1 := by omega
  refine ⟨b, hb, ?_, ⟨hs, ?_, ?_, hc, ?_⟩, hused⟩
  · unfold available takeBlock
    rw [hused, hnext, hsplit, window_succ (by omega) (by rw [Nat.mod_eq_of_lt hlt, hb]), ← hs,
      window_mod]
  · change nextIndex pool pool.allocIndex < pool.capacity
    rw [hnext]
    exact Nat.mod_lt _ (by omega)
  · change u32 (pool.used + 1) ≤ pool.capacity
    omega
  · change pool.freeIndex =
      (nextIndex pool pool.allocIndex + (pool.capacity - u32 (pool.used + 1))) % pool.capacity
    rw [hf, hused, hnext, Nat.mod_add_mod]
    congr 1
    omega

theorem free_spec (h : 0 < pool.used) (data : Block) :
    available (free pool data) = available pool ++ [data] ∧ RingInv (free pool data) ∧
      (free pool data).used = pool.used - 1 := by
  obtain ⟨hs, ha, hu, hc, hf⟩ := hp
  have hused : u32 (pool.used + 4294967295) = pool.used - 1 := by
    unfold u32
    omega
  have hfree : pool.freeIndex < pool.capacity := by
    rw [hf]
    exact Nat.mod_lt _ (by omega)
  have hsplit : pool.capacity - (pool.used - 1) = (pool.capacity - pool.used) + 1 := by omega
  refine ⟨?_, ⟨?_, ha, ?_, hc, ?_⟩, hused⟩
  · unfold available free
    rw [hused, hsplit, hf, ← hs]
    exact window_set data (by omega)
  · change (pool.ptrBuf.set pool.freeIndex data).length = pool.capacity
    rw [length_set, hs]
  · change u32 (pool.used + 4294967295) ≤ pool.capacity
    omega
  · change nextIndex pool pool.freeIndex =
      (pool.allocIndex + (pool.capacity - u32 (pool.used + 4294967295))) % pool.capacity
    rw [nextIndex_eq hc hfree, hused, hf, Nat.mod_add_mod, hsplit, Nat.add_assoc]

theorem RingInv.setFlag (flag : UInt32) : RingInv (pool.setFlag flag) :=
  ⟨hp.size, hp.alloc_lt, hp.used_le, hp.capacity_lt, hp.free_eq⟩

theorem freeIndex_of_full (h : pool.used = pool.capacity) : pool.freeIndex = pool.allocIndex := by
  rw [hp.free_eq, h, Nat.sub_self, Nat.add_zero, Nat.mod_eq_of_lt hp.alloc_lt]

theorem RingInv.end_cases : pool.allocIndex + (pool.capacity - pool.used) = pool.freeIndex ∨
      pool.allocIndex + (pool.capacity - pool.used) = pool.freeIndex + pool.capacity := by
  obtain ⟨_, ha, _, _, hf⟩ := hp
  by_cases hsmall : pool.allocIndex + (pool.capacity - pool.used) < pool.capacity
  · rw [Nat.mod_eq_of_lt hsmall] at hf
    omega
  · rw [Nat.mod_eq_sub_mod (by omega), Nat.mod_eq_of_lt (by omega)] at hf
    omega

private theorem copySections_eq (h : pool.used ≠ 0) :
    (copySections pool).1.length = pool.used ∧ (copySections pool).2 = available pool := by
  have hfull := freeIndex_of_full hp
  have hend := hp.end_cases
  obtain ⟨hs, ha, hu, hc, hf⟩ := hp
  have hopt (l : List Block) (i n : Nat) : (if n > 0 then slice l i n else []) = slice l i n := by
    split
    · rfl
    · next hz => rw [show n = 0 by omega, slice_zero]
  by_cases hcap : pool.used = pool.capacity
  · simp only [copySections, sections, hcap, hopt, ↓reduceIte]
    constructor
    · rw [length_append, length_slice (by omega), length_slice (by omega)]
      omega
    · simp [available, hcap]
  · by_cases hgt : pool.allocIndex > pool.freeIndex
    · have hpos : pool.allocIndex - pool.freeIndex > 0 := by omega
      simp only [copySections, sections, hcap, hgt, hopt, hpos, ↓reduceIte]
      constructor
      · rw [length_append, length_slice (by omega), slice_zero]
        simp only [length_nil]
        omega
      · rw [available, window_eq_drop_append (by omega) (by omega) (by omega),
          show pool.allocIndex + (pool.capacity - pool.used) - pool.ptrBuf.length =
            pool.freeIndex by omega, slice, slice, drop_zero,
          take_of_length_le (by rw [length_drop]; omega)]
    · have hpos : pool.capacity - pool.freeIndex > 0 := by
        have : pool.freeIndex < pool.capacity := by
          rw [hf]
          exact Nat.mod_lt _ (by omega)
        omega
      simp only [copySections, sections, hcap, hgt, hopt, hpos, ↓reduceIte]
      constructor
      · rw [length_append, length_slice (by omega), length_slice (by omega)]
        omega
      · rw [available, window_eq_slice (by omega), slice_zero, append_nil,
          show pool.freeIndex - pool.allocIndex = pool.capacity - pool.used by omega]

theorem grow_spec (h : pool.used ≠ 0) {capacity : Nat} (hgt : pool.capacity < capacity)
    (hlt : capacity < 4294967296) : available (grow pool capacity) = available pool ++
        blocksOf pool.numBuf pool.blockSize (capacity - pool.capacity) ∧
      RingInv (grow pool capacity) := by
  obtain ⟨hstale, havail⟩ := copySections_eq hp h
  have hlen := length_available hp
  obtain ⟨hs, ha, hu, hc, hf⟩ := hp
  have htotal : (grow pool capacity).ptrBuf.length = capacity := by
    simp only [grow, length_append, hstale, havail, hlen, length_blocksOf]
    omega
  refine ⟨?_, ⟨htotal, ?_, ?_, hlt, ?_⟩⟩
  · change window (grow pool capacity).ptrBuf (copySections pool).1.length (capacity - pool.used) = _
    rw [window_eq_drop (by rw [htotal, hstale]; omega)]
    simp only [grow, havail, append_assoc, drop_left]
  · change (copySections pool).1.length < capacity
    omega
  · change pool.used ≤ capacity
    omega
  · change 0 = ((copySections pool).1.length + (capacity - pool.used)) % capacity
    rw [hstale, show pool.used + (capacity - pool.used) = capacity by omega, Nat.mod_self]

end MemoryPool

end MuggleC.Memory

namespace MuggleC.Memory.PoolLedger

open Foundation.Transition MemoryPool List

/-- A pool with the history of its clients: the blocks `held`, `owned` by the pool and `taken` by
`alloc` in order, and the `supply` in the order in which blocks became available. -/
structure Ledger where
  pool : MemoryPool
  held : List Block
  owned : List Block
  taken : List Block
  supply : List Block
  deriving DecidableEq, Repr

inductive Action
  | alloc (mem : Malloc)
  | free (data : Block)
  | setFlag (flag : UInt32)
  deriving DecidableEq, Repr

def gained (before after : MemoryPool) : List Block :=
  blocksOf before.numBuf before.blockSize (after.capacity - before.capacity)

def opened (pool : MemoryPool) : Ledger :=
  ⟨pool, [], pool.ptrBuf, [], pool.ptrBuf⟩

def stepAlloc (L : Ledger) (mem : Malloc) : Ledger :=
  match L.pool.alloc mem with
  | (pool, none) => { L with pool := pool }
  | (pool, some b) =>
    { pool := pool
      held := L.held ++ [b]
      owned := L.owned ++ gained L.pool pool
      taken := L.taken ++ [b]
      supply := L.supply ++ gained L.pool pool }

/-- Only a block that is handed out may be given back. -/
def step (L : Ledger) : Action → Option Ledger
  | .alloc mem => some (stepAlloc L mem)
  | .free data =>
    if data ∈ L.held then
      some { L with
        pool := L.pool.free data
        held := L.held.erase data
        supply := L.supply ++ [data] }
    else none
  | .setFlag flag => some { L with pool := L.pool.setFlag flag }

def Grows (pool : MemoryPool) (mem : Malloc) : Prop :=
  pool.used = pool.capacity ∧ pool.flag &&& constantSize = 0 ∧
    mem.bufs = true ∧ mem.data = true ∧ mem.ptr = true

instance (pool : MemoryPool) (mem : Malloc) : Decidable (Grows pool mem) :=
  inferInstanceAs (Decidable (_ ∧ _ ∧ _ ∧ _ ∧ _))

variable {pool : MemoryPool} {L : Ledger}

theorem alloc_of_not_full (h : pool.used ≠ pool.capacity) (mem : Malloc) :
    pool.alloc mem = pool.takeBlock := by
  simp [alloc, h]

theorem toNat_double (hc : pool.capacity < 2147483648) :
    (UInt32.ofNat (pool.capacity * 2)).toNat = pool.capacity * 2 := by
  exact Nat.mod_eq_of_lt (by omega)

theorem alloc_of_refused (hc : pool.capacity < 2147483648)
    (h0 : 0 < pool.capacity) (hfull : pool.used = pool.capacity) {mem : Malloc}
    (h : ¬ Grows pool mem) : pool.alloc mem = (pool, none) := by
  have hnot : ¬ pool.capacity * 2 ≤ pool.capacity := by omega
  have he : pool.ensureSpace (UInt32.ofNat (pool.capacity * 2)) mem = (pool, false) := by
    unfold ensureSpace
    rw [toNat_double hc, if_neg hnot]
    by_cases hflag : pool.flag &&& constantSize = 0
    · rcases mem with ⟨mb, md, mp⟩
      cases mb <;> cases md <;> cases mp <;> simp_all [Grows]
    · rw [if_pos hflag]
  rw [alloc, if_pos hfull, he]

theorem alloc_of_grows (hc : pool.capacity < 2147483648) (h0 : 0 < pool.capacity) {mem : Malloc}
    (h : Grows pool mem) : pool.alloc mem = (pool.grow (pool.capacity * 2)).takeBlock := by
  obtain ⟨hfull, hflag, hb, hd, hp⟩ := h
  have hnot : ¬ pool.capacity * 2 ≤ pool.capacity := by omega
  have he : pool.ensureSpace (UInt32.ofNat (pool.capacity * 2)) mem =
      (pool.grow (pool.capacity * 2), true) := by
    unfold ensureSpace
    rw [toNat_double hc, if_neg hnot, if_neg (by simp [hflag])]
    simp [hb, hd, hp]
  rw [alloc, if_pos hfull, he]

/-- The handed-out and the available blocks are together every block of the pool, once. -/
structure Inv (L : Ledger) : Prop where
  ring : RingInv L.pool
  block_pos : 0 < L.pool.blockSize
  bufs_pos : 0 < L.pool.numBuf
  bufs_le : L.pool.numBuf ≤ L.pool.capacity
  used_eq : L.pool.used = L.held.length
  perm : (L.held ++ L.pool.available).Perm L.owned
  nodup : L.owned.Nodup
  below : ∀ b ∈ L.owned, b.buf < L.pool.numBuf
  queue : L.supply = L.taken ++ L.pool.available

theorem Inv.capacity_pos (hL : Inv L) : 0 < L.pool.capacity :=
  Nat.lt_of_le_of_lt (Nat.zero_le _) hL.ring.alloc_lt

theorem Inv.available_not_held (hL : Inv L) {b : Block}
    (hb : b ∈ L.pool.available) : b ∉ L.held := by
  have hn : (L.held ++ L.pool.available).Nodup := hL.perm.nodup_iff.mpr hL.nodup
  intro hh
  exact (disjoint_of_nodup_append hn) hh hb

theorem init_ring {initCapacity blockSize : UInt32} {mem : Malloc}
    (hi : MemoryPool.init initCapacity blockSize mem = some pool) :
    RingInv pool ∧ pool.available = pool.ptrBuf := by
  obtain ⟨cap, _, hc0, hc1, _, rfl⟩ := init_eq_some hi
  have hlen := length_blocksOf 0 blockSize.toNat cap
  refine ⟨⟨hlen, hc0, Nat.zero_le _, hc1, ?_⟩, ?_⟩
  · change 0 = (0 + (cap - 0)) % cap
    simp
  · unfold available
    dsimp only
    rw [Foundation.Ring.window_eq_drop (by omega), drop_zero]

theorem opened_inv {initCapacity blockSize : UInt32} {mem : Malloc}
    (hi : MemoryPool.init initCapacity blockSize mem = some pool)
    (hfit : pool.blockSize * pool.capacity < 4294967296) : Inv (opened pool) := by
  obtain ⟨hring, havail⟩ := init_ring hi
  obtain ⟨cap, _, hc0, _, hb0, rfl⟩ := init_eq_some hi
  refine ⟨hring, hb0, Nat.one_pos, hc0, rfl, ?_, nodup_blocksOf hb0 hfit, ?_, ?_⟩
  · simp only [opened, havail, nil_append]
    exact List.Perm.refl _
  · intro b hb
    have hbuf : b.buf = 0 := mem_blocksOf_buf hb
    change b.buf < 1
    omega
  · simp only [opened, havail, nil_append]

def extended (L : Ledger) (pool : MemoryPool) : Ledger :=
  { L with
    pool := pool
    owned := L.owned ++ gained L.pool pool
    supply := L.supply ++ gained L.pool pool }

theorem extended_inv (hL : Inv L) (hused : L.pool.used ≠ 0) {capacity : Nat}
    (hgt : L.pool.capacity < capacity) (hlt : capacity < 4294967296)
    (hfit : L.pool.blockSize * (capacity - L.pool.capacity) < 4294967296) :
    Inv (extended L (L.pool.grow capacity)) := by
  obtain ⟨havail, hring⟩ := grow_spec hL.ring hused hgt hlt
  obtain ⟨_, hb, hn0, hn, hu, hperm, hnd, hbelow, hq⟩ := hL
  have hnum : (L.pool.grow capacity).numBuf = L.pool.numBuf + 1 := u32_of_lt (by omega)
  have hg : gained L.pool (L.pool.grow capacity) =
      blocksOf L.pool.numBuf L.pool.blockSize (capacity - L.pool.capacity) := rfl
  refine ⟨hring, hb, ?_, ?_, hu, ?_, ?_, ?_, ?_⟩
  · change 0 < (L.pool.grow capacity).numBuf
    omega
  · change (L.pool.grow capacity).numBuf ≤ capacity
    omega
  · simp only [extended, havail, hg]
    rw [← append_assoc]
    exact hperm.append_right _
  · refine nodup_append.mpr ⟨hnd, nodup_blocksOf hb hfit, ?_⟩
    intro x hx y hy hxy
    have hbuf := mem_blocksOf_buf hy
    have hlow := hbelow x hx
    rw [hxy] at hlow
    omega
  · intro x hx
    simp only [extended, hg, mem_append] at hx
    change x.buf < (L.pool.grow capacity).numBuf
    rcases hx with hx | hx
    · have := hbelow x hx
      omega
    · have := mem_blocksOf_buf hx
      omega
  · simp only [extended, havail, hg, hq, append_assoc]

def handedOut (L : Ledger) (b : Block) : Ledger :=
  { L with pool := L.pool.takeBlock.1, held := L.held ++ [b], taken := L.taken ++ [b] }

private theorem handedOut_inv (hL : Inv L) (h : L.pool.used < L.pool.capacity) :
    ∃ b, L.pool.takeBlock.2 = some b ∧ b ∉ L.held ∧ Inv (handedOut L b) := by
  obtain ⟨b, hb, havail, hring, hused⟩ := takeBlock_spec hL.ring h
  have hfresh : b ∉ L.held := hL.available_not_held (by rw [havail]; exact mem_cons_self)
  obtain ⟨_, hb0, hn0, hn, hu, hperm, hnd, hbelow, hq⟩ := hL
  rw [havail] at hperm hq
  refine ⟨b, hb, hfresh, hring, hb0, hn0, hn, ?_, ?_, hnd, hbelow, ?_⟩
  · simp only [handedOut, hused, length_append, length_singleton, hu]
  · simpa only [handedOut, append_assoc, singleton_append] using hperm
  · simpa only [handedOut, append_assoc, singleton_append] using hq

theorem gained_self (pool after : MemoryPool) (h : after.capacity = pool.capacity) :
    gained pool after = [] := by
  simp [gained, h, blocksOf]

theorem stepAlloc_cases (hL : Inv L) (mem : Malloc)
    (hcap : L.pool.used = L.pool.capacity → L.pool.capacity < 2147483648)
    (hfit : Grows L.pool mem → L.pool.blockSize * L.pool.capacity < 4294967296) :
    (L.pool.used = L.pool.capacity ∧ ¬ Grows L.pool mem ∧ L.pool.alloc mem = (L.pool, none) ∧
        stepAlloc L mem = L) ∨
      ∃ b, (L.pool.alloc mem).2 = some b ∧ b ∉ L.held ∧ Inv (stepAlloc L mem) := by
  have hpos := hL.capacity_pos
  by_cases hfull : L.pool.used = L.pool.capacity
  · by_cases hg : Grows L.pool mem
    · right
      have hM : Inv (extended L (L.pool.grow (L.pool.capacity * 2))) := by
        apply extended_inv hL
        · omega
        · omega
        · omega
        · rw [show L.pool.capacity * 2 - L.pool.capacity = L.pool.capacity by omega]
          exact hfit hg
      have hroom : (extended L (L.pool.grow (L.pool.capacity * 2))).pool.used <
          (extended L (L.pool.grow (L.pool.capacity * 2))).pool.capacity := by
        change L.pool.used < L.pool.capacity * 2
        omega
      obtain ⟨b, hb, hnew, hI⟩ := handedOut_inv hM hroom
      have he := alloc_of_grows (hcap hfull) hpos hg
      have hout : L.pool.alloc mem = ((L.pool.grow (L.pool.capacity * 2)).takeBlock.1, some b) := by
        rw [he, ← hb]
        rfl
      have hstep : stepAlloc L mem = handedOut (extended L (L.pool.grow (L.pool.capacity * 2))) b := by
        simp only [stepAlloc, hout]
        rfl
      exact ⟨b, by rw [hout], hnew, by rw [hstep]; exact hI⟩
    · left
      have he := alloc_of_refused (hcap hfull) hpos hfull hg
      exact ⟨hfull, hg, he, by simp only [stepAlloc, he]⟩
  · right
    have hroom : L.pool.used < L.pool.capacity := by
      have := hL.ring.used_le
      omega
    obtain ⟨b, hb, hnew, hI⟩ := handedOut_inv hL hroom
    have hout : L.pool.alloc mem = (L.pool.takeBlock.1, some b) := by
      rw [alloc_of_not_full hfull, ← hb]
    have hstep : stepAlloc L mem = handedOut L b := by
      simp only [stepAlloc, hout, gained_self L.pool L.pool.takeBlock.1 rfl, append_nil]
      rfl
    exact ⟨b, by rw [hout], hnew, by rw [hstep]; exact hI⟩

theorem stepFree_inv (hL : Inv L) {data : Block} (hd : data ∈ L.held) : Inv { L with
      pool := L.pool.free data
      held := L.held.erase data
      supply := L.supply ++ [data] } := by
  have hlen : 0 < L.held.length := length_pos_of_mem hd
  have hused : 0 < L.pool.used := by
    rw [hL.used_eq]
    exact hlen
  obtain ⟨havail, hring, hu'⟩ := free_spec hL.ring hused data
  obtain ⟨_, hb, hn0, hn, hu, hperm, hnd, hbelow, hq⟩ := hL
  refine ⟨hring, hb, hn0, hn, ?_, ?_, hnd, hbelow, ?_⟩
  · rw [hu', hu, length_erase_of_mem hd]
  · rw [havail, ← append_assoc]
    refine List.Perm.trans ?_ hperm
    exact perm_append_comm.trans ((perm_cons_erase hd).symm.append_right _)
  · rw [havail, hq, append_assoc]

/-- An `alloc` on a full pool doubles the capacity inside `unsigned int`, and so does the byte
size of the new data buffer. -/
def NoWrap (L : Ledger) : Action → Prop
  | .alloc mem => L.pool.used = L.pool.capacity → L.pool.capacity < 2147483648 ∧
      (Grows L.pool mem → L.pool.blockSize * L.pool.capacity < 4294967296)
  | _ => True

instance (L : Ledger) (a : Action) : Decidable (NoWrap L a) := by
  cases a <;> simp only [NoWrap] <;> infer_instance

theorem step_inv {L M : Ledger} {a : Action} (hL : Inv L) (hw : NoWrap L a)
    (he : step L a = some M) : Inv M := by
  cases a with
  | alloc mem =>
    cases he
    rcases stepAlloc_cases hL mem (fun h => (hw h).1) (fun h => (hw h.1).2 h) with
      ⟨_, _, _, hsame⟩ | ⟨b, _, _, hI⟩
    · rw [hsame]
      exact hL
    · exact hI
  | free data =>
    simp only [step] at he
    split at he
    · next hd =>
      cases he
      exact stepFree_inv hL hd
    · simp at he
  | setFlag flag =>
    cases he
    obtain ⟨hring, hb, hn0, hn, hu, hperm, hnd, hbelow, hq⟩ := hL
    exact ⟨hring.setFlag flag, hb, hn0, hn, hu, hperm, hnd, hbelow, hq⟩

theorem run_inv {L M : Ledger} {actions : List Action} (hL : Inv L)
    (hr : run (guarded step NoWrap) L actions = some M) : Inv M := by
  apply run_invariant _ hL hr
  intro K a K' hK he
  obtain ⟨hw, he⟩ := guarded_eq_some.mp he
  exact step_inv hK hw he

/-- What a client of the pool may rely on. -/
structure PoolSound (L : Ledger) : Prop where
  used_eq : L.pool.used = L.held.length
  free_index : L.pool.freeIndex =
    (L.pool.allocIndex + (L.pool.capacity - L.pool.used)) % L.pool.capacity
  length_eq : L.pool.available.length = L.pool.capacity - L.pool.used
  all_blocks : (L.held ++ L.pool.available).Perm L.owned
  once : L.owned.Nodup
  recycled_in_order : L.supply = L.taken ++ L.pool.available
  not_held : ∀ mem b, (L.pool.alloc mem).2 = some b → b ∉ L.held
  refused : ∀ mem, L.pool.used = L.pool.capacity → ¬ Grows L.pool mem →
    L.pool.alloc mem = (L.pool, none)

theorem Inv.not_held (hL : Inv L)
    (hcap : L.pool.used = L.pool.capacity → L.pool.capacity < 2147483648) (mem : Malloc)
    (b : Block) (hb : (L.pool.alloc mem).2 = some b) : b ∉ L.held := by
  have hpos := hL.capacity_pos
  by_cases hfull : L.pool.used = L.pool.capacity
  · by_cases hg : Grows L.pool mem
    · have hc := hcap hfull
      obtain ⟨havail, hring⟩ := grow_spec hL.ring (show L.pool.used ≠ 0 by omega)
        (show L.pool.capacity < L.pool.capacity * 2 by omega) (by omega)
      obtain ⟨b', hb', hfront, _, _⟩ := takeBlock_spec hring (by
        change L.pool.used < L.pool.capacity * 2
        omega)
      rw [alloc_of_grows hc hpos hg, hb'] at hb
      obtain rfl := Option.some.inj hb
      have hempty : L.pool.available = [] := by
        apply eq_nil_of_length_eq_zero
        rw [length_available hL.ring]
        omega
      have hmem : b' ∈ blocksOf L.pool.numBuf L.pool.blockSize
          (L.pool.capacity * 2 - L.pool.capacity) := by
        rw [hempty, nil_append] at havail
        rw [← havail, hfront]
        exact mem_cons_self
      intro hheld
      have hbuf := mem_blocksOf_buf hmem
      have hlow := hL.below b' (hL.perm.mem_iff.mp (mem_append_left _ hheld))
      omega
    · rw [alloc_of_refused (hcap hfull) hpos hfull hg] at hb
      simp at hb
  · rcases stepAlloc_cases hL mem (fun h => absurd h hfull) (fun h => absurd h.1 hfull) with
      ⟨h, _⟩ | ⟨b', hb', hnew, _⟩
    · exact absurd h hfull
    · rw [hb'] at hb
      cases hb
      exact hnew

theorem Inv.sound (hL : Inv L) (hcap : L.pool.capacity < 2147483648) : PoolSound L := by
  refine ⟨hL.used_eq, hL.ring.free_eq, length_available hL.ring, hL.perm, hL.nodup, hL.queue,
    hL.not_held (fun _ => hcap), ?_⟩
  intro mem hfull hg
  have hpos := hL.capacity_pos
  exact alloc_of_refused hcap hpos hfull hg

/-- The total capacity stays below `2 ^ 31`. -/
def Bounded (L : Ledger) : Action → Prop
  | .alloc mem => Grows L.pool mem → L.pool.capacity * 2 < 2147483648
  | _ => True

instance (L : Ledger) (a : Action) : Decidable (Bounded L a) := by
  cases a <;> simp only [Bounded] <;> infer_instance

/-- The byte size of the data buffer that a growing `alloc` requests fits `unsigned int`. -/
def Fits (L : Ledger) : Action → Prop
  | .alloc mem => Grows L.pool mem → L.pool.blockSize * L.pool.capacity < 4294967296
  | _ => True

instance (L : Ledger) (a : Action) : Decidable (Fits L a) := by
  cases a <;> simp only [Fits] <;> infer_instance

private theorem stepAlloc_capacity (hL : Inv L) (hcap : L.pool.capacity < 2147483648)
    {mem : Malloc} (hb : Grows L.pool mem → L.pool.capacity * 2 < 2147483648) :
    (stepAlloc L mem).pool.capacity < 2147483648 := by
  have hpos := hL.capacity_pos
  have hpool : (stepAlloc L mem).pool = (L.pool.alloc mem).1 := by
    unfold stepAlloc
    split
    · next h => rw [h]
    · next h => rw [h]
  rw [hpool]
  by_cases hfull : L.pool.used = L.pool.capacity
  · by_cases hg : Grows L.pool mem
    · rw [alloc_of_grows hcap hpos hg]
      exact hb hg
    · rw [alloc_of_refused hcap hpos hfull hg]
      exact hcap
  · rw [alloc_of_not_full hfull]
    exact hcap

/-- Every run of `alloc` and `free` in which no data buffer's byte size wraps is sound. -/
theorem pool_sound (initCapacity blockSize : UInt32) (mem : Malloc) (pool : MemoryPool)
    (hi : MemoryPool.init initCapacity blockSize mem = some pool)
    (hcap : pool.capacity < 2147483648) (hfit : pool.blockSize * pool.capacity < 4294967296)
    (actions : List Action) (L : Ledger)
    (hr : run (guarded (guarded step Bounded) Fits) (opened pool) actions = some L) :
    PoolSound L := by
  have hI : Inv L ∧ L.pool.capacity < 2147483648 := by
    refine run_invariant (I := fun K => Inv K ∧ K.pool.capacity < 2147483648) ?_
      ⟨opened_inv hi hfit, hcap⟩ hr
    rintro K a K' ⟨hK, hKc⟩ he
    obtain ⟨hf, he⟩ := guarded_eq_some.mp he
    obtain ⟨hb, he⟩ := guarded_eq_some.mp he
    have hw : NoWrap K a := by
      cases a with
      | alloc m => exact fun _ => ⟨hKc, hf⟩
      | free data => trivial
      | setFlag flag => trivial
    refine ⟨step_inv hK hw he, ?_⟩
    cases a with
    | alloc m =>
      cases he
      exact stepAlloc_capacity hK hKc hb
    | free data =>
      simp only [step] at he
      split at he
      · cases he
        exact hKc
      · simp at he
    | setFlag flag =>
      cases he
      exact hKc
  exact hI.1.sound hI.2

def memoryOk : Malloc := ⟨true, true, true⟩

def twoBlocks : MemoryPool :=
  ⟨[32], [⟨0, 0⟩, ⟨0, 16⟩], 0, 0, 2, 0, 16, 1, 0, 0⟩

theorem pool_sound_two_blocks :
    PoolSound ⟨⟨[32], [⟨0, 0⟩, ⟨0, 16⟩], 1, 1, 2, 2, 16, 1, 0, 2⟩, [⟨0, 16⟩, ⟨0, 0⟩],
      [⟨0, 0⟩, ⟨0, 16⟩], [⟨0, 0⟩, ⟨0, 16⟩, ⟨0, 0⟩], [⟨0, 0⟩, ⟨0, 16⟩, ⟨0, 0⟩]⟩ :=
  pool_sound 2 16 memoryOk twoBlocks (by decide) (by decide) (by decide)
    [.alloc memoryOk, .alloc memoryOk, .free ⟨0, 0⟩, .alloc memoryOk] _ (by decide)

def wrappedPool : MemoryPool :=
  ⟨[1073741824], [⟨0, 0⟩, ⟨0, 1073741824⟩, ⟨0, 2147483648⟩, ⟨0, 3221225472⟩, ⟨0, 0⟩],
    0, 0, 5, 0, 1073741824, 1, 0, 0⟩

theorem wrapped_block_handed_out_twice :
    ¬ ∀ (initCapacity blockSize : UInt32) (mem : Malloc) (pool : MemoryPool),
      MemoryPool.init initCapacity blockSize mem = some pool → pool.capacity < 2147483648 →
      ∀ (actions : List Action) (L : Ledger),
        run (guarded step Bounded) (opened pool) actions = some L → PoolSound L := by
  intro h
  have hrun : (run (guarded step Bounded) (opened wrappedPool)
      [.alloc memoryOk, .alloc memoryOk, .alloc memoryOk, .alloc memoryOk]).isSome := by decide
  obtain ⟨L, hL⟩ := Option.isSome_iff_exists.mp hrun
  have hsound := h 5 1073741824 memoryOk wrappedPool (by decide) (by decide) _ L hL
  have hnext : (run (guarded step Bounded) (opened wrappedPool)
      [.alloc memoryOk, .alloc memoryOk, .alloc memoryOk, .alloc memoryOk]).map
        (fun L => (decide ((L.pool.alloc memoryOk).2 = some ⟨0, 0⟩), decide (⟨0, 0⟩ ∈ L.held))) =
      some (true, true) := by decide
  rw [hL, Option.map_some, Option.some.injEq, Prod.mk.injEq] at hnext
  exact hsound.not_held memoryOk ⟨0, 0⟩ (of_decide_eq_true hnext.1) (of_decide_eq_true hnext.2)

end MuggleC.Memory.PoolLedger

namespace MuggleC.Memory.PoolGrowth

open Foundation.Slice Foundation.Ring Foundation.Transition MemoryPool PoolLedger

variable {pool : MemoryPool} {L : Ledger} {capacity : Nat}

theorem ensureSpace_success {pool' : MemoryPool} {capacity : UInt32} {mem : Malloc}
    (he : pool.ensureSpace capacity mem = (pool', true)) :
    (capacity.toNat ≤ pool.capacity ∧ pool' = pool) ∨
      (pool.capacity < capacity.toNat ∧ pool' = pool.grow capacity.toNat) := by
  unfold ensureSpace at he
  split at he
  · next h =>
    left
    exact ⟨h, (Prod.mk.inj he).1.symm⟩
  · next h =>
    right
    refine ⟨by omega, ?_⟩
    split at he
    · simp at he
    · split at he
      · simp at he
      · split at he
        · simp at he
        · split at he
          · simp at he
          · exact (Prod.mk.inj he).1.symm

/-- A growth appends the new blocks to the queue, leaves the handed-out blocks and their count
alone, and no later run that stays inside 32 bits hands out a block twice. -/
structure GrowthKeeps (L : Ledger) (pool : MemoryPool) : Prop where
  queue : pool.available = L.pool.available ++ gained L.pool pool
  used : pool.used = L.pool.used
  buffers : L.pool.dataBufs <+: pool.dataBufs
  later : ∀ (actions : List Action) (M : Ledger),
    run (guarded step NoWrap) (extended L pool) actions = some M →
      ∀ mem b, NoWrap M (.alloc mem) → (M.pool.alloc mem).2 = some b → b ∉ M.held

theorem later_of_inv (hI : Inv (extended L pool)) (actions : List Action) (M : Ledger)
    (hr : run (guarded step NoWrap) (extended L pool) actions = some M) (mem : Malloc) (b : Block)
    (hw : NoWrap M (.alloc mem)) (hb : (M.pool.alloc mem).2 = some b) : b ∉ M.held :=
  (run_inv hI hr).not_held (fun hfull => (hw hfull).1) mem b hb

private theorem growthKeeps_self (hL : Inv L) : GrowthKeeps L L.pool := by
  have hg := gained_self L.pool L.pool rfl
  have hsame : extended L L.pool = L := by simp [extended, hg]
  refine ⟨by simp [hg], rfl, List.prefix_refl _, later_of_inv ?_⟩
  rw [hsame]
  exact hL

private theorem growthKeeps_grow (hL : Inv L) (hused : L.pool.used ≠ 0)
    (hgt : L.pool.capacity < capacity) (hlt : capacity < 4294967296)
    (hfit : L.pool.blockSize * (capacity - L.pool.capacity) < 4294967296) :
    GrowthKeeps L (L.pool.grow capacity) :=
  ⟨(grow_spec hL.ring hused hgt hlt).1, rfl, List.prefix_append _ _,
    later_of_inv (extended_inv hL hused hgt hlt hfit)⟩

theorem grow_unused (hp : RingInv pool) (h : pool.used = 0) (hgt : pool.capacity < capacity) :
    (pool.grow capacity).available[0]? = some ⟨pool.numBuf, 0⟩ := by
  obtain ⟨hs, ha, hu, hc, hf⟩ := hp
  have hfree : pool.freeIndex = pool.allocIndex := by
    rw [hf, h, Nat.sub_zero, Nat.add_mod_right, Nat.mod_eq_of_lt ha]
  have hcap : ¬ pool.used = pool.capacity := by omega
  have hgt' : ¬ pool.allocIndex > pool.freeIndex := by omega
  have hstale : (copySections pool).1.length = pool.capacity := by
    simp only [copySections, sections, hcap, hgt', ↓reduceIte]
    rw [List.length_append, length_slice (by omega)]
    split
    · rw [length_slice (by omega)]
      omega
    · simp only [List.length_nil]
      omega
  have hfront : (copySections pool).2 = [] := by
    simp only [copySections, sections, hcap, ↓reduceIte, hfree, Nat.sub_self]
    simp
  have hlen : (pool.grow capacity).ptrBuf.length = capacity := by
    simp only [grow, List.length_append, hstale, hfront, length_blocksOf, List.length_nil]
    omega
  change (window (pool.grow capacity).ptrBuf (copySections pool).1.length
    (capacity - pool.used))[0]? = _
  rw [getElem?_window (by omega) (by omega), hlen, hstale, Nat.add_zero, Nat.mod_eq_of_lt hgt]
  simp only [grow, hfront, List.append_nil]
  rw [List.getElem?_append_right (by omega), hstale, Nat.sub_self]
  obtain ⟨d, hd⟩ : ∃ d, capacity - pool.capacity = d + 1 := ⟨capacity - pool.capacity - 1, by omega⟩
  simp [blocksOf, hd, List.range_succ_eq_map, u32]

private theorem not_growthKeeps_unused (hL : Inv L) (hused : L.pool.used = 0)
    (hgt : L.pool.capacity < capacity) : ¬ GrowthKeeps L (L.pool.grow capacity) := by
  intro hk
  have hpos : 0 < L.pool.available.length := by
    have := hL.ring.alloc_lt
    rw [length_available hL.ring]
    omega
  have hnew := grow_unused hL.ring hused hgt
  rw [hk.queue, List.getElem?_append_left hpos] at hnew
  have hmem : (⟨L.pool.numBuf, 0⟩ : Block) ∈ L.pool.available := List.mem_of_getElem? hnew
  have hlow := hL.below _ (hL.perm.mem_iff.mp (List.mem_append_right _ hmem))
  exact Nat.lt_irrefl _ hlow

/-- A successful `ensure_space` on a reachable pool keeps the queue exactly when a block is handed
out or the pool is already large enough. -/
theorem ensureSpace_keeps_iff (initCapacity blockSize : UInt32) (mem : Malloc) (pool : MemoryPool)
    (hi : MemoryPool.init initCapacity blockSize mem = some pool)
    (hfit : pool.blockSize * pool.capacity < 4294967296) (actions : List Action) (L : Ledger)
    (hr : run (guarded step NoWrap) (opened pool) actions = some L) (capacity : UInt32)
    (mem' : Malloc) (pool' : MemoryPool) (he : L.pool.ensureSpace capacity mem' = (pool', true))
    (hfit' : L.pool.blockSize * (capacity.toNat - L.pool.capacity) < 4294967296) :
    GrowthKeeps L pool' ↔ L.pool.used ≠ 0 ∨ capacity.toNat ≤ L.pool.capacity := by
  have hL : Inv L := run_inv (opened_inv hi hfit) hr
  rcases ensureSpace_success he with ⟨hle, rfl⟩ | ⟨hgt, rfl⟩
  · exact ⟨fun _ => .inr hle, fun _ => growthKeeps_self hL⟩
  · constructor
    · intro hk
      left
      intro hused
      exact not_growthKeeps_unused hL hused hgt hk
    · rintro (hused | hle)
      · exact growthKeeps_grow hL hused hgt capacity.toNat_lt hfit'
      · omega

def oneBlock : MemoryPool := ⟨[16], [⟨0, 0⟩], 0, 0, 1, 0, 16, 1, 0, 0⟩

theorem ensureSpace_keeps_iff_one_block : GrowthKeeps (opened oneBlock)
        ⟨[16, 16], [⟨0, 0⟩, ⟨1, 0⟩], 1, 0, 2, 0, 16, 2, 0, 0⟩ ↔
      (opened oneBlock).pool.used ≠ 0 ∨ (2 : UInt32).toNat ≤ (opened oneBlock).pool.capacity :=
  ensureSpace_keeps_iff 1 16 memoryOk oneBlock (by decide) (by decide) [] (opened oneBlock) rfl 2
    memoryOk _ (by decide) (by decide)

/-- After the growth of an unused pool the entry that `free` overwrites is an available block, and
the block that was given back is handed out twice. -/
theorem unused_growth_hands_out_twice :
    ¬ ∀ (initCapacity blockSize : UInt32) (mem : Malloc) (pool : MemoryPool),
      MemoryPool.init initCapacity blockSize mem = some pool →
      ∀ (actions : List Action) (L : Ledger),
        run (guarded step NoWrap) (opened pool) actions = some L →
        ∀ (capacity : UInt32) (mem' : Malloc) (pool' : MemoryPool),
          L.pool.ensureSpace capacity mem' = (pool', true) → GrowthKeeps L pool' := by
  intro h
  have hk := h 1 16 memoryOk oneBlock (by decide) [] (opened oneBlock) rfl 2 memoryOk
    ⟨[16, 16], [⟨0, 0⟩, ⟨1, 0⟩], 1, 0, 2, 0, 16, 2, 0, 0⟩ (by decide)
  have hrun : run (guarded step NoWrap) (extended (opened oneBlock)
      ⟨[16, 16], [⟨0, 0⟩, ⟨1, 0⟩], 1, 0, 2, 0, 16, 2, 0, 0⟩)
      [.alloc memoryOk, .free ⟨1, 0⟩, .alloc memoryOk] = some
        ⟨⟨[16, 16], [⟨1, 0⟩, ⟨1, 0⟩], 1, 1, 2, 1, 16, 2, 0, 1⟩, [⟨1, 0⟩], [⟨0, 0⟩, ⟨1, 0⟩],
          [⟨1, 0⟩, ⟨1, 0⟩], [⟨0, 0⟩, ⟨1, 0⟩, ⟨1, 0⟩]⟩ := by decide
  exact hk.later _ _ hrun memoryOk ⟨1, 0⟩ (by decide) (by decide) (by decide)

end MuggleC.Memory.PoolGrowth
