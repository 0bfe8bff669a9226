/- source: memory/memory_pool.c, memory/threadsafe_memory_pool.c, memory/sowr_memory_pool.c
   digest: When the blocks of the three pools fill their memory and do not overlap. -/

import Mathlib.Data.Nat.Log
import MuggleC.Memory.MemoryPool
import MuggleC.Memory.SowrMemoryPool
import MuggleC.Memory.TsMemoryPool

set_option autoImplicit false

/-! The plain pool computes in `unsigned int`, the two others in `int`. -/

namespace MuggleC.Memory.PoolSizes

open Base Memory.MemoryPool Memory.PoolLedger Memory.PoolGrowth List BitVec

/-- A piece of memory of `bytes` bytes with blocks of `size` bytes at the `offsets`. -/
structure Area where
  size : Int
  bytes : Nat
  offsets : List Int
  deriving DecidableEq, Repr

/-- The blocks fill the memory, each lies inside and no two overlap. -/
structure Area.LaidOut (a : Area) : Prop where
  requested : (a.bytes : Int) = a.offsets.length * a.size
  inside : ∀ o ∈ a.offsets, 0 ≤ o ∧ o < a.bytes ∧ o + a.size ≤ a.bytes
  apart : a.offsets.Pairwise fun o p => o + a.size ≤ p ∨ p + a.size ≤ o

theorem laidOut_row {b : Nat} (hb : 0 < b) (n : Nat) :
    Area.LaidOut ⟨b, b * n, (range n).map fun i => ((b * i : Nat) : Int)⟩ := by
  have hstep : ∀ {i j : Nat}, i < j → b * i + b ≤ b * j := by
    intro i j hij
    calc b * i + b = b * (i + 1) := (Nat.mul_succ b i).symm
      _ ≤ b * j := Nat.mul_le_mul_left b hij
  refine ⟨?_, ?_, ?_⟩
  · push_cast
    rw [length_map, length_range, Int.mul_comm]
  · intro o ho
    obtain ⟨i, hi, rfl⟩ := mem_map.mp ho
    have := hstep (mem_range.mp hi)
    dsimp only
    omega
  · rw [pairwise_map]
    apply pairwise_lt_range.imp
    intro i j hij
    have := hstep hij
    dsimp only
    omega

def dataArea (blockSize bytes : Nat) (blocks : List Block) : Area :=
  ⟨blockSize, bytes, blocks.map fun p => (p.offset : Int)⟩

theorem dataArea_laidOut_iff {b : Nat} (hb : 0 < b) (buf n : Nat) :
    (dataArea b (u32 (b * n)) (blocksOf buf b n)).LaidOut ↔ b * n < 4294967296 := by
  constructor
  · intro h
    have hreq := h.requested
    have hlt : u32 (b * n) < 4294967296 := Nat.mod_lt _ (by decide)
    dsimp only [dataArea] at hreq
    rw [length_map, length_blocksOf, ← Int.natCast_mul, Int.natCast_inj] at hreq
    rw [Nat.mul_comm, ← hreq]
    exact hlt
  · intro h
    have hoff : ((blocksOf buf b n).map fun p => (p.offset : Int)) =
        (range n).map fun i => ((b * i : Nat) : Int) := by
      rw [blocksOf, map_map]
      apply map_congr_left
      intro i hi
      have hi' := Nat.mul_le_mul_left b (Nat.le_of_lt (mem_range.mp hi))
      dsimp only [Function.comp]
      rw [Nat.mul_comm, u32_of_lt (by omega)]
    rw [dataArea, hoff, u32_of_lt h]
    exact laidOut_row hb n

def newArea (before after : MemoryPool) : Area :=
  dataArea after.blockSize (after.dataBufs.getLastD 0)
    (after.ptrBuf.drop (after.ptrBuf.length - (after.capacity - before.capacity)))

def initArea (pool : MemoryPool) : Area :=
  dataArea pool.blockSize (pool.dataBufs.getLastD 0) pool.ptrBuf

inductive Call
  | alloc (mem : Malloc)
  | free (data : Block)
  | ensureSpace (capacity : UInt32) (mem : Malloc)
  | setFlag (flag : UInt32)
  deriving DecidableEq, Repr

def call (pool : MemoryPool) : Call → MemoryPool
  | .alloc mem => (pool.alloc mem).1
  | .free data => pool.free data
  | .ensureSpace capacity mem => (pool.ensureSpace capacity mem).1
  | .setFlag flag => pool.setFlag flag

structure Sized (pool : MemoryPool) : Prop where
  block_pos : 0 < pool.blockSize
  capacity_pos : 0 < pool.capacity
  capacity_lt : pool.capacity < 4294967296

variable {mem : Malloc} {pool : MemoryPool} {initCapacity blockSize : UInt32}
  {capacity dataSize : BitVec 32}

private theorem ensureSpace_failure {pool pool' : MemoryPool} {capacity : UInt32}
    (he : pool.ensureSpace capacity mem = (pool', false)) : pool' = pool := by
  unfold ensureSpace at he
  repeat' split at he
  all_goals cases he
  all_goals rfl

private theorem ensureSpace_fst (pool : MemoryPool) (capacity : UInt32) (mem : Malloc) :
    (pool.ensureSpace capacity mem).1 = pool ∨ pool.capacity < capacity.toNat ∧
        (pool.ensureSpace capacity mem).1 = pool.grow capacity.toNat := by
  cases hok : (pool.ensureSpace capacity mem).2 with
  | true =>
    rcases ensureSpace_success (Prod.ext rfl hok) with ⟨_, hsame⟩ | hgrow
    · exact .inl hsame
    · exact .inr hgrow
  | false => exact .inl (ensureSpace_failure (Prod.ext rfl hok))

theorem Sized.ensureSpace (h : Sized pool) (capacity : UInt32) (mem : Malloc) :
    Sized (pool.ensureSpace capacity mem).1 := by
  rcases ensureSpace_fst pool capacity mem with hsame | ⟨hlt, hgrow⟩
  · rw [hsame]
    exact h
  · rw [hgrow]
    exact ⟨h.block_pos, Nat.lt_of_le_of_lt (Nat.zero_le _) hlt, capacity.toNat_lt⟩

theorem Sized.takeBlock (h : Sized pool) : Sized pool.takeBlock.1 :=
  ⟨h.block_pos, h.capacity_pos, h.capacity_lt⟩

theorem Sized.after (h : Sized pool) (c : Call) : Sized (call pool c) := by
  cases c with
  | alloc mem =>
    have hspace := h.ensureSpace (UInt32.ofNat (pool.capacity * 2)) mem
    show Sized (pool.alloc mem).1
    rw [alloc]
    split
    · split
      · next heq =>
        rw [heq] at hspace
        exact hspace.takeBlock
      · next heq =>
        rw [heq] at hspace
        exact hspace
    · exact h.takeBlock
  | free data | setFlag flag => exact ⟨h.block_pos, h.capacity_pos, h.capacity_lt⟩
  | ensureSpace capacity mem => exact h.ensureSpace capacity mem

theorem Sized.afterAll (h : Sized pool) (cs : List Call) : Sized (cs.foldl call pool) := by
  induction cs generalizing pool with
  | nil => exact h
  | cons c cs ih => exact ih (h.after c)

def initBlocks (initCapacity : UInt32) : Nat := if initCapacity = 0 then 8 else initCapacity.toNat

variable (h : MemoryPool.init initCapacity blockSize mem = some pool)

include h

theorem init_fields : 0 < blockSize.toNat ∧ pool.blockSize = blockSize.toNat ∧
      pool.capacity = initBlocks initCapacity ∧
      pool.dataBufs = [u32 (blockSize.toNat * initBlocks initCapacity)] ∧
      pool.ptrBuf = MemoryPool.blocksOf 0 blockSize.toNat (initBlocks initCapacity) := by
  obtain ⟨_, rfl, _, _, hpos, rfl⟩ := init_eq_some h
  exact ⟨hpos, rfl, rfl, rfl, rfl⟩

theorem sized_init : Sized pool := by
  obtain ⟨_, _, hc0, hc1, hpos, rfl⟩ := init_eq_some h
  exact ⟨hpos, hc0, hc1⟩

theorem initArea_laidOut_iff :
    (initArea pool).LaidOut ↔ blockSize.toNat * initBlocks initCapacity < 4294967296 := by
  obtain ⟨hpos, hbs, _, hdata, hptr⟩ := init_fields h
  rw [initArea, hbs, hdata, hptr]
  exact dataArea_laidOut_iff hpos 0 _

omit h

theorem newArea_grow (h : 0 < pool.blockSize) (capacity : Nat) :
    (newArea pool (pool.grow capacity)).LaidOut ↔
      pool.blockSize * (capacity - pool.capacity) < 4294967296 := by
  have hnew : newArea pool (pool.grow capacity) =
      dataArea pool.blockSize (u32 (pool.blockSize * (capacity - pool.capacity)))
        (MemoryPool.blocksOf pool.numBuf pool.blockSize (capacity - pool.capacity)) := by
    simp only [newArea, grow, getLastD_concat]
    congr 1
    rw [length_append, length_blocksOf, Nat.add_sub_cancel]
    exact drop_left
  rw [hnew]
  exact dataArea_laidOut_iff h _ _

private theorem doubling_iff (h : Sized pool) (hg : Grows pool mem) :
    (pool.capacity < (pool.alloc mem).1.capacity ∧ (newArea pool (pool.alloc mem).1).LaidOut) ↔
      pool.capacity < 2147483648 ∧ pool.blockSize * pool.capacity < 4294967296 := by
  have hpos := h.capacity_pos
  by_cases hc : pool.capacity < 2147483648
  · have hsub : pool.capacity * 2 - pool.capacity = pool.capacity := by omega
    have hgrow := newArea_grow h.block_pos (pool.capacity * 2)
    rw [hsub] at hgrow
    rw [alloc_of_grows hc hpos hg]
    constructor
    · rintro ⟨_, harea⟩
      exact ⟨hc, hgrow.mp harea⟩
    · rintro ⟨_, hfit⟩
      refine ⟨?_, hgrow.mpr hfit⟩
      show pool.capacity < pool.capacity * 2
      omega
  · have hwrap : (UInt32.ofNat (pool.capacity * 2)).toNat ≤ pool.capacity := by
      rw [UInt32.toNat_ofNat']
      omega
    have hsame : pool.alloc mem = pool.takeBlock := by
      rw [alloc, if_pos hg.1, MemoryPool.ensureSpace, if_pos hwrap]
    rw [hsame]
    constructor
    · rintro ⟨hmore, _⟩
      exact absurd hmore (Nat.lt_irrefl _)
    · rintro ⟨hc', _⟩
      exact absurd hc' hc

/-- The least power of two that is not below `x`. -/
def leastPowOf2 (x : Nat) : Nat := 2 ^ Nat.clog 2 x

private theorem leastPowOf2_pos (x : Nat) : 0 < leastPowOf2 x := Nat.two_pow_pos _

theorem leastPowOf2_eq {x k : Nat} (hle : x ≤ 2 ^ k) (hlt : 2 ^ k < 2 * x) :
    2 ^ k = leastPowOf2 x := by
  have hx : x ≤ 2 ^ Nat.clog 2 x := Nat.le_pow_clog (by decide) x
  have hk : 2 ^ k < 2 ^ (Nat.clog 2 x + 1) := by
    omega
  have hupper : k < Nat.clog 2 x + 1 := (Nat.pow_lt_pow_iff_right (by decide)).mp hk
  have hlower : Nat.clog 2 x ≤ k := Nat.clog_le_of_le_pow hle
  rw [leastPowOf2, show k = Nat.clog 2 x by omega]

variable {x : BitVec 64}

private theorem toNat_nextPowOf2 (hx : x ≠ 0#64) (h : x.toNat < 2 ^ 32) :
    (nextPowOf2 x).toNat = leastPowOf2 x.toNat := by
  obtain ⟨k, hk, hle, hlt⟩ := nextPowOf2_spec hx h
  rw [hk, leastPowOf2_eq hle hlt]

variable {capacity : BitVec 32}

theorem toNat_roundCapacity (h : 0 < capacity.toInt) :
    (roundCapacity capacity).toNat = leastPowOf2 capacity.toNat := by
  obtain ⟨k, hk, hle, hlt⟩ := roundCapacity_spec h
  rw [hk, leastPowOf2_eq hle hlt]

theorem rounded_fits_iff (hx : x ≠ 0#64) (h : x.toNat < 2 ^ 32) {c : Int} (hc : 0 < c) :
    (0 < ((nextPowOf2 x).setWidth 32).toInt ∧ c * ((nextPowOf2 x).setWidth 32).toInt < 2147483648) ↔
      c * leastPowOf2 x.toNat < 2147483648 := by
  have hpos := leastPowOf2_pos x.toNat
  have hnat : ((nextPowOf2 x).setWidth 32).toNat = leastPowOf2 x.toNat % 4294967296 := by
    rw [toNat_setWidth, toNat_nextPowOf2 hx h]
  constructor
  · rintro ⟨hb, hfit⟩
    obtain ⟨hint, hne, _⟩ := toNat_of_toInt_pos hb
    have hsmall : leastPowOf2 x.toNat < 4294967296 := by
      -- A power of two from `2 ^ 32` on leaves no remainder.
      by_contra hge
      have hpow : 2 ^ 32 ≤ 2 ^ Nat.clog 2 x.toNat := not_lt.mp hge
      have hdvd : 4294967296 ∣ leastPowOf2 x.toNat :=
        Nat.pow_dvd_pow 2 ((Nat.pow_le_pow_iff_right (by decide)).mp hpow)
      omega
    rw [Nat.mod_eq_of_lt hsmall] at hnat
    rw [hint, hnat] at hfit
    exact hfit
  · intro hfit
    have hle : (1 : Int) * leastPowOf2 x.toNat ≤ c * leastPowOf2 x.toNat :=
      Int.mul_le_mul_of_nonneg_right hc (Int.natCast_nonneg _)
    have hval : ((nextPowOf2 x).setWidth 32).toInt = leastPowOf2 x.toNat := by
      rw [Nat.mod_eq_of_lt (by omega)] at hnat
      rw [toInt_eq_toNat_cond, hnat, if_pos (by omega)]
    rw [hval]
    exact ⟨by omega, hfit⟩

/-- The memory for `capacity` blocks of `block_size` bytes. -/
def intArea (blockSize capacity : BitVec 32) : Area :=
  ⟨blockSize.toInt, BlockArea.areaBytes blockSize capacity,
    (BlockArea.blocksOf blockSize capacity).map BitVec.toInt⟩

private theorem toInt_blockAt {blockSize : BitVec 32} {i : Nat} (hi : i < 2 ^ 32)
    (h : blockSize.toNat * i < 2 ^ 31) :
    (BlockArea.blockAt blockSize i).toInt = ((blockSize.toNat * i : Nat) : Int) := by
  have hnat : (BlockArea.blockAt blockSize i).toNat = blockSize.toNat * i := by
    rw [BlockArea.blockAt, toNat_mul, toNat_ofNat, Nat.mod_eq_of_lt hi]
    exact Nat.mod_eq_of_lt (by omega)
  rw [toInt_eq_toNat_cond, hnat, if_pos (by omega)]

private theorem areaBytes_eq_iff {blockSize : BitVec 32} (hb : blockSize.toNat < 2 ^ 31)
    (hc : capacity.toNat < 2 ^ 31) :
    BlockArea.areaBytes blockSize capacity = blockSize.toNat * capacity.toNat ↔
      blockSize.toNat * capacity.toNat < 2 ^ 31 := by
  have hprod : blockSize.toNat * capacity.toNat ≤ 2 ^ 31 * 2 ^ 31 :=
    Nat.mul_le_mul (by omega) (by omega)
  have hnat : (capacity * blockSize).toNat = blockSize.toNat * capacity.toNat % 2 ^ 32 := by
    rw [toNat_mul, Nat.mul_comm]
  have hmsb := msb_eq_false_iff_two_mul_lt (x := capacity * blockSize)
  rw [BlockArea.areaBytes, toNat_signExtend, toNat_setWidth, hnat]
  cases hm : (capacity * blockSize).msb with
  | false =>
    have := hmsb.mp hm
    simp only [Bool.false_eq_true, ↓reduceIte]
    omega
  | true =>
    have hge : ¬ 2 * (capacity * blockSize).toNat < 2 ^ 32 := by
      intro hlt
      rw [hmsb.mpr hlt] at hm
      exact Bool.noConfusion hm
    simp only [↓reduceIte]
    omega

theorem intArea_laidOut_iff {blockSize : BitVec 32} (hc : 0 < capacity.toInt) :
    (intArea blockSize capacity).LaidOut ↔
      0 < blockSize.toInt ∧ capacity.toInt * blockSize.toInt < 2147483648 := by
  obtain ⟨hcint, hcpos, hclt⟩ := toNat_of_toInt_pos hc
  constructor
  · intro h
    have hreq := h.requested
    have hfirst : (BlockArea.blockAt blockSize 0).toInt ∈ (intArea blockSize capacity).offsets :=
      mem_map_of_mem (mem_map_of_mem (mem_range.mpr hcpos))
    have hbytes := h.inside _ hfirst
    dsimp only [intArea] at hreq hbytes
    rw [length_map, BlockArea.length_blocksOf] at hreq
    have hpos : 0 < blockSize.toInt := by
      by_contra hle
      have := Int.mul_nonpos_of_nonneg_of_nonpos (Int.natCast_nonneg capacity.toNat) (not_lt.mp hle)
      omega
    obtain ⟨hbint, _, hblt⟩ := toNat_of_toInt_pos hpos
    rw [hbint, ← Int.natCast_mul, Int.natCast_inj, Nat.mul_comm] at hreq
    have hfit := (areaBytes_eq_iff hblt hclt).mp hreq
    rw [hcint, hbint, ← Int.natCast_mul, Nat.mul_comm]
    omega
  · rintro ⟨hpos, hfit⟩
    obtain ⟨hbint, hbpos, hblt⟩ := toNat_of_toInt_pos hpos
    rw [hcint, hbint, ← Int.natCast_mul, Nat.mul_comm] at hfit
    have hoff : (BlockArea.blocksOf blockSize capacity).map BitVec.toInt =
        (List.range capacity.toNat).map fun i => ((blockSize.toNat * i : Nat) : Int) := by
      rw [BlockArea.blocksOf, map_map]
      apply map_congr_left
      intro i hi
      have hi' := mem_range.mp hi
      have hle := Nat.mul_le_mul_left blockSize.toNat (Nat.le_of_lt hi')
      exact toInt_blockAt (by omega) (by omega)
    rw [intArea, hoff, hbint, (areaBytes_eq_iff hblt hclt).mpr (by omega)]
    exact laidOut_row hbpos _

/-- `muggle_ts_memory_pool_init` reports no error when the mutex and the memory are got. -/
def TsAccepts (capacity dataSize : BitVec 32) : Prop :=
  ∀ e, TsMemoryPool.init capacity dataSize ⟨.ok, true, true⟩ ≠ some (.error e)

/-- The memory for the blocks that `muggle_ts_memory_pool_init` asks for. -/
def tsArea (capacity dataSize : BitVec 32) : Area :=
  intArea ((nextPowOf2 (BitVec.ofNat 64 TsMemoryPool.headSize + dataSize.signExtend 64)).setWidth 32)
    (roundCapacity capacity)

private theorem tsArea_of_init {env : TsMemoryPool.Env} {pool : TsMemoryPool}
    (h : TsMemoryPool.init capacity dataSize env = some (.ok pool)) :
    intArea pool.blockSize pool.capacity = tsArea capacity dataSize ∧
      pool.ptrs = BlockArea.blocksOf pool.blockSize pool.capacity := by
  unfold TsMemoryPool.init at h
  dsimp only at h
  split at h
  · cases h
  split at h
  · cases h
  split at h
  · cases h
  split at h
  · cases h
  split at h
  · cases h
  split at h
  · cases h
  split at h
  · cases h
    exact ⟨rfl, rfl⟩
  · cases h

theorem TsAccepts.pos (h : TsAccepts capacity dataSize) :
    0 < capacity.toInt ∧ 0 < dataSize.toInt ∧ 0 < (roundCapacity capacity).toInt := by
  have hc : ¬ capacity.toInt ≤ 0 := by
    intro hle
    exact h .invalidParam (by rw [TsMemoryPool.init, if_pos hle])
  have hd : ¬ dataSize.toInt ≤ 0 := by
    intro hle
    exact h .invalidParam (by rw [TsMemoryPool.init, if_neg hc, if_pos hle])
  have hr : ¬ (roundCapacity capacity).toInt ≤ 0 := by
    intro hle
    exact h .invalidParam (by rw [TsMemoryPool.init, if_neg hc, if_neg hd, if_pos hle])
  exact ⟨by omega, by omega, by omega⟩

theorem tsAccepts_of_pos (hc : 0 < capacity.toInt)
    (hd : 0 < dataSize.toInt) (hr : 0 < (roundCapacity capacity).toInt)
    (hb : 0 < ((nextPowOf2 (BitVec.ofNat 64 TsMemoryPool.headSize +
      dataSize.signExtend 64)).setWidth 32).toInt) : TsAccepts capacity dataSize := by
  intro e he
  unfold TsMemoryPool.init at he
  rw [if_neg (by omega), if_neg (by omega), if_neg (by omega), if_neg (by omega),
    if_neg (by simp), if_neg (by simp)] at he
  split at he <;> cases he

/-- The capacity that the sowr pool takes for the one it is given. -/
def sowrCapacity (capacity : BitVec 32) : BitVec 32 := if capacity.toInt ≤ 0 then 8#32 else capacity

/-- `muggle_sowr_memory_pool_init` reports no error when the memory is got. -/
def SowrAccepts (capacity dataSize : BitVec 32) : Prop :=
  ∀ e, SowrMemoryPool.init capacity dataSize true ≠ some (.error e)

/-- The memory for the blocks that `muggle_sowr_memory_pool_init` asks for. -/
def sowrArea (capacity dataSize : BitVec 32) : Area :=
  intArea ((nextPowOf2 (dataSize.signExtend 64 + BitVec.ofNat 64 SowrMemoryPool.headSize)).setWidth 32)
    (roundCapacity (sowrCapacity capacity))

private theorem sowrArea_of_init {malloc : Bool} {pool : SowrMemoryPool}
    (h : SowrMemoryPool.init capacity dataSize malloc = some (.ok pool)) :
    intArea pool.blockSize pool.capacity = sowrArea capacity dataSize := by
  unfold SowrMemoryPool.init at h
  dsimp only at h
  rw [← sowrCapacity] at h
  split at h
  · cases h
  split at h
  · cases h
    rfl
  · cases h

private theorem sowrCapacity_pos (capacity : BitVec 32) : 0 < (sowrCapacity capacity).toInt := by
  unfold sowrCapacity
  split
  · decide
  · omega

theorem SowrAccepts.pos (h : SowrAccepts capacity dataSize) :
    0 < (roundCapacity (sowrCapacity capacity)).toInt := by
  by_contra hle
  refine h .invalidParam ?_
  unfold SowrMemoryPool.init
  rw [← sowrCapacity, if_pos (not_lt.mp hle)]

theorem sowrAccepts_of_pos (hr : 0 < (roundCapacity (sowrCapacity capacity)).toInt)
    (dataSize : BitVec 32) : SowrAccepts capacity dataSize := by
  intro e he
  unfold SowrMemoryPool.init at he
  dsimp only at he
  rw [← sowrCapacity, if_neg (by omega)] at he
  split at he <;> cases he

theorem tsArea_laidOut_iff (h : TsAccepts capacity dataSize) : (tsArea capacity dataSize).LaidOut ↔
      leastPowOf2 capacity.toNat * leastPowOf2 (dataSize.toNat + 72) < 2147483648 := by
  obtain ⟨hc, hd, hr⟩ := h.pos
  obtain ⟨_, _, hdlt⟩ := toNat_of_toInt_pos hd
  have hx : (BitVec.ofNat 64 TsMemoryPool.headSize + dataSize.signExtend 64).toNat =
      dataSize.toNat + 72 := by
    rw [toNat_add, toNat_signExtend_of_pos hd, toNat_ofNat, TsMemoryPool.headSize]
    omega
  have hne : BitVec.ofNat 64 TsMemoryPool.headSize + dataSize.signExtend 64 ≠ 0#64 := by
    intro hz
    rw [hz, toNat_ofNat] at hx
    omega
  rw [tsArea, intArea_laidOut_iff hr, rounded_fits_iff hne (by omega) hr, hx,
    (toNat_of_toInt_pos hr).1, toNat_roundCapacity hc, ← Int.natCast_mul]
  omega

private theorem toNat_sowr_size (dataSize : BitVec 32) :
    ((dataSize.signExtend 64 + BitVec.ofNat 64 SowrMemoryPool.headSize).toNat : Int) =
      (dataSize.toInt + 16) % 18446744073709551616 := by
  rw [toNat_add, toNat_signExtend, toNat_setWidth, toNat_ofNat,
    SowrMemoryPool.headSize, toInt_eq_msb_cond]
  cases dataSize.msb <;> simp only [Bool.false_eq_true, ↓reduceIte] <;> omega

theorem sowrArea_laidOut_iff (h : SowrAccepts capacity dataSize) :
    (sowrArea capacity dataSize).LaidOut ↔
      -16 < dataSize.toInt ∧ leastPowOf2 (sowrCapacity capacity).toNat *
        leastPowOf2 (dataSize.toInt + 16).toNat < 2147483648 := by
  have hr := h.pos
  have hlow := le_toInt dataSize
  have hhigh := toInt_lt (x := dataSize)
  have hsize := toNat_sowr_size dataSize
  rw [sowrArea, intArea_laidOut_iff hr]
  by_cases hd : -16 < dataSize.toInt
  · have hx : (dataSize.signExtend 64 + BitVec.ofNat 64 SowrMemoryPool.headSize).toNat =
        (dataSize.toInt + 16).toNat := by omega
    have hne : dataSize.signExtend 64 + BitVec.ofNat 64 SowrMemoryPool.headSize ≠ 0#64 := by
      intro hz
      rw [hz, toNat_ofNat] at hx
      omega
    rw [rounded_fits_iff hne (by omega) hr, hx, (toNat_of_toInt_pos hr).1,
      toNat_roundCapacity (sowrCapacity_pos capacity), ← Int.natCast_mul]
    omega
  · -- The sum is zero or has ones above its last 31 places, and both are rounded to zero.
    have hzero : nextPowOf2 (dataSize.signExtend 64 + BitVec.ofNat 64 SowrMemoryPool.headSize) =
        0#64 := by
      by_cases he : dataSize.toInt = -16
      · have hx : dataSize.signExtend 64 + BitVec.ofNat 64 SowrMemoryPool.headSize = 0#64 := by
          apply BitVec.eq_of_toNat_eq
          rw [toNat_ofNat]
          omega
        rw [hx]
        decide
      · exact nextPowOf2_of_high (by omega)
    rw [hzero]
    constructor
    · rintro ⟨hpos, _⟩
      exact absurd hpos (by decide)
    · rintro ⟨hd', _⟩
      exact absurd hd' hd

/-- What the plain pool asks for is laid out as expected: by `init`, by a growth that the caller asks
for after any calls, and by the doubling of `alloc`. -/
structure PlainSizes (initCapacity blockSize : UInt32) (pool : MemoryPool) : Prop where
  init : (initArea pool).LaidOut ↔ blockSize.toNat * initBlocks initCapacity < 4294967296
  grown : ∀ (cs : List Call) (capacity : UInt32) (mem : Malloc) (after : MemoryPool),
    (cs.foldl call pool).ensureSpace capacity mem = (after, true) →
      (cs.foldl call pool).capacity < capacity.toNat →
      ((newArea (cs.foldl call pool) after).LaidOut ↔
        (cs.foldl call pool).blockSize * (capacity.toNat - (cs.foldl call pool).capacity) <
          4294967296)
  doubled : ∀ (cs : List Call) (mem : Malloc), Grows (cs.foldl call pool) mem →
    ((cs.foldl call pool).capacity < ((cs.foldl call pool).alloc mem).1.capacity ∧
        (newArea (cs.foldl call pool) ((cs.foldl call pool).alloc mem).1).LaidOut ↔
      (cs.foldl call pool).capacity < 2147483648 ∧
        (cs.foldl call pool).blockSize * (cs.foldl call pool).capacity < 4294967296)

private theorem plainSizes_of_init (h : MemoryPool.init initCapacity blockSize mem = some pool) :
    PlainSizes initCapacity blockSize pool := by
  refine ⟨initArea_laidOut_iff h, ?_, ?_⟩
  · intro cs capacity mem after he hlt
    have hsized := (sized_init h).afterAll cs
    rcases ensureSpace_success he with ⟨hle, _⟩ | ⟨_, rfl⟩
    · exact absurd hlt (Nat.not_lt.mpr hle)
    · exact newArea_grow hsized.block_pos _
  · intro cs mem hg
    exact doubling_iff ((sized_init h).afterAll cs) hg

/-- For everything that the three `init` functions accept, and every growth of the plain pool, the
memory holds every block apart from the others exactly when its size fits the type in which it is
computed; and a full pool grows exactly when twice its capacity fits. -/
theorem sizes_fit_iff (initCapacity blockSize : UInt32) (capacity dataSize : BitVec 32) :
    (∀ (mem : Malloc) (pool : MemoryPool), MemoryPool.init initCapacity blockSize mem = some pool →
      PlainSizes initCapacity blockSize pool) ∧
    (TsAccepts capacity dataSize → ((tsArea capacity dataSize).LaidOut ↔
        leastPowOf2 capacity.toNat * leastPowOf2 (dataSize.toNat + 72) < 2147483648) ∧
      ∀ (env : TsMemoryPool.Env) (pool : TsMemoryPool),
        TsMemoryPool.init capacity dataSize env = some (.ok pool) →
          intArea pool.blockSize pool.capacity = tsArea capacity dataSize ∧
            pool.ptrs = BlockArea.blocksOf pool.blockSize pool.capacity) ∧
    (SowrAccepts capacity dataSize → ((sowrArea capacity dataSize).LaidOut ↔
        -16 < dataSize.toInt ∧ leastPowOf2 (sowrCapacity capacity).toNat *
          leastPowOf2 (dataSize.toInt + 16).toNat < 2147483648) ∧
      ∀ (malloc : Bool) (pool : SowrMemoryPool),
        SowrMemoryPool.init capacity dataSize malloc = some (.ok pool) →
          intArea pool.blockSize pool.capacity = sowrArea capacity dataSize) :=
  ⟨fun _ _ h => plainSizes_of_init h,
    fun h => ⟨tsArea_laidOut_iff h, fun _ _ hi => tsArea_of_init hi⟩,
    fun h => ⟨sowrArea_laidOut_iff h, fun _ _ hi => sowrArea_of_init hi⟩⟩

theorem sizes_fit_iff_four :
    (∃ pool, MemoryPool.init 4 16 ⟨true, true, true⟩ = some pool ∧ (initArea pool).LaidOut) ∧
      (TsAccepts 4#32 56#32 ∧ (tsArea 4#32 56#32).LaidOut) ∧
      (SowrAccepts 4#32 56#32 ∧ (sowrArea 4#32 56#32).LaidOut) := by
  have hts : TsAccepts 4#32 56#32 :=
    tsAccepts_of_pos (by decide) (by decide) (by decide) (by decide)
  have hsowr : SowrAccepts 4#32 56#32 := sowrAccepts_of_pos (by decide) _
  obtain ⟨hplain, htsArea, hsowrArea⟩ := sizes_fit_iff 4 16 4#32 56#32
  refine ⟨⟨_, rfl, ?_⟩, ⟨hts, ?_⟩, ⟨hsowr, ?_⟩⟩
  · exact (hplain ⟨true, true, true⟩ _ rfl).init.mpr (by decide)
  · exact (htsArea hts).1.mpr (by decide)
  · exact (hsowrArea hsowr).1.mpr (by decide)

theorem sizes_wrap : (∃ pool, MemoryPool.init 65536 65536 ⟨true, true, true⟩ = some pool ∧
        pool.dataBufs = [0] ∧ ¬ (initArea pool).LaidOut) ∧
      (TsAccepts 65536#32 65464#32 ∧ (tsArea 65536#32 65464#32).bytes = 0 ∧
        ¬ (tsArea 65536#32 65464#32).LaidOut) ∧
      (SowrAccepts 65536#32 65520#32 ∧ (sowrArea 65536#32 65520#32).bytes = 0 ∧
        ¬ (sowrArea 65536#32 65520#32).LaidOut) := by
  have hts : TsAccepts 65536#32 65464#32 :=
    tsAccepts_of_pos (by decide) (by decide) (by decide) (by decide)
  have hsowr : SowrAccepts 65536#32 65520#32 := sowrAccepts_of_pos (by decide) _
  refine ⟨⟨_, rfl, rfl, ?_⟩, ⟨hts, by decide, ?_⟩, ⟨hsowr, by decide, ?_⟩⟩
  · intro h
    have hinit : MemoryPool.init 65536 65536 ⟨true, true, true⟩ = some _ := rfl
    exact absurd ((initArea_laidOut_iff hinit).mp h) (by decide)
  · intro h
    exact absurd ((tsArea_laidOut_iff hts).mp h) (by decide)
  · intro h
    exact absurd ((sowrArea_laidOut_iff hsowr).mp h) (by decide)

end MuggleC.Memory.PoolSizes
