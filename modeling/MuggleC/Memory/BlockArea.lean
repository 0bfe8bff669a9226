/- source: memory/threadsafe_memory_pool.c, memory/sowr_memory_pool.c
   digest: Blocks of one size in one piece of memory, with their offsets computed in `int`. -/

import Mathlib.Data.List.Nodup
import MuggleC.Base.Utils

set_option autoImplicit false

/-! Both pools compute the offsets of the blocks and the size of their memory in `int`, and store
the head of every block while they are initialised. -/

namespace MuggleC.Memory.BlockArea

open Base List BitVec

def blockAt (blockSize : BitVec 32) (i : Nat) : BitVec 32 := blockSize * BitVec.ofNat 32 i

def blocksOf (blockSize capacity : BitVec 32) : List (BitVec 32) :=
  (List.range capacity.toNat).map (blockAt blockSize)

/-- The bytes asked for by `malloc(capacity * block_size)`: an `int` product made a `size_t`. -/
def areaBytes (blockSize capacity : BitVec 32) : Nat :=
  ((capacity * blockSize).signExtend 64).toNat

def headFits (headSize bytes : Nat) (block : BitVec 32) : Bool :=
  0 ≤ block.toInt && block.toInt + headSize ≤ bytes

def headsFit (headSize : Nat) (blockSize capacity : BitVec 32) : Bool :=
  (blocksOf blockSize capacity).all (headFits headSize (areaBytes blockSize capacity))

theorem length_blocksOf (blockSize capacity : BitVec 32) :
    (blocksOf blockSize capacity).length = capacity.toNat := by
  rw [blocksOf, length_map, length_range]

variable {blockSize capacity : BitVec 32}

theorem getElem?_blocksOf {i : Nat} (hi : i < capacity.toNat) :
    (blocksOf blockSize capacity)[i]? = some (blockAt blockSize i) := by
  rw [blocksOf, getElem?_map, getElem?_range hi]
  rfl

theorem nodup_blocksOf {b k : Nat} (hb : blockSize.toNat = 2 ^ b) (hk : capacity.toNat = 2 ^ k)
    (hfit : capacity * blockSize ≠ 0#32) : (blocksOf blockSize capacity).Nodup := by
  have hsum : k + b < 32 := by
    by_contra hge
    apply hfit
    rw [← toNat_inj, toNat_mul, hk, hb, ← Nat.pow_add]
    exact Nat.mod_eq_zero_of_dvd (Nat.pow_dvd_pow 2 (by omega))
  have hat : ∀ i, i < 2 ^ k → (blockAt blockSize i).toNat = 2 ^ b * i := by
    intro i hi
    have hprod : 2 ^ b * i < 2 ^ 32 := by
      calc 2 ^ b * i < 2 ^ b * 2 ^ k := Nat.mul_lt_mul_of_pos_left hi (Nat.two_pow_pos b)
        _ = 2 ^ (b + k) := (Nat.pow_add 2 b k).symm
        _ ≤ 2 ^ 32 := Nat.pow_le_pow_right (by omega) (by omega)
    have hi32 : i < 2 ^ 32 := by
      omega
    rw [blockAt, toNat_mul, hb, toNat_ofNat, Nat.mod_eq_of_lt hi32, Nat.mod_eq_of_lt hprod]
  apply List.Nodup.map_on _ nodup_range
  intro i hi j hj he
  rw [List.mem_range, hk] at hi hj
  have hoff := congrArg BitVec.toNat he
  rw [hat i hi, hat j hj] at hoff
  exact Nat.eq_of_mul_eq_mul_left (Nat.two_pow_pos b) hoff

theorem product_ne_zero {headSize : Nat} {k : Nat}
    (hhead : 0 < headSize) (hk : capacity.toNat = 2 ^ k)
    (hfits : headsFit headSize blockSize capacity = true) : capacity * blockSize ≠ 0#32 := by
  intro hzero
  have hmem : blockAt blockSize 0 ∈ blocksOf blockSize capacity :=
    mem_map.mpr ⟨0, mem_range.mpr (hk ▸ Nat.two_pow_pos k), rfl⟩
  have hfirst := all_eq_true.mp hfits _ hmem
  have hnone : (signExtend 64 0#32).toNat = 0 := by decide
  rw [headFits, areaBytes, hzero, hnone, Bool.and_eq_true, decide_eq_true_eq,
    decide_eq_true_eq] at hfirst
  omega

end MuggleC.Memory.BlockArea
