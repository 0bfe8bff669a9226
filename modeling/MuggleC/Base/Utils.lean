/- source: base/utils.c, base/macro.h, base/err.h
   digest: Error codes, rounding up to a power of two, and positions in a power-of-two ring. -/

import Mathlib.Order.Bounds.Basic
import MuggleC.Foundation.Lanes

set_option autoImplicit false

namespace MuggleC.Base

open Foundation.Smear BitVec

/-- The result codes of `err.h`. -/
inductive Err
  | ok
  | unknown
  | todo
  | memAlloc
  | memDuplicateFree
  | nullParam
  | invalidParam
  | acqLock
  | sysCall
  | interrupt
  | beyondRange
  | full
  | cryptPlaintextSize
  | cryptKeySize
  deriving DecidableEq, Repr

/-- `IS_POW_OF_2`, which also holds of zero. -/
def isPowOf2 (x : BitVec 64) : Bool := x &&& (x - 1#64) == 0#64

/-- The smearing stops at a shift of 16, so it fills 32 places. -/
def nextPowOf2 (x : BitVec 64) : BitVec 64 :=
  if isPowOf2 x then x
  else
    let x := x ||| x >>> 1
    let x := x ||| x >>> 2
    let x := x ||| x >>> 4
    let x := x ||| x >>> 8
    let x := x ||| x >>> 16
    x + 1#64

def idxInPowOf2Ring (idx capacity : BitVec 32) : BitVec 32 := idx &&& (capacity - 1#32)

/-- `ROUND_UP_POW_OF_2_MUL` of an `unsigned int`. -/
def roundUpPowOf2Mul (x n : BitVec 32) : BitVec 32 := (x + n - 1#32) &&& ~~~(n - 1#32)

/-- `MUGGLE_DS_CAP_IS_VALID`. The `int` that `1<<31` gives is negative, so that the conversion to
`uint64_t` extends it by ones. -/
def dsCapIsValid (capacity : Nat) : Bool := capacity < 2 ^ 64 - 2 ^ 31

def grownCapacity (old capacity : Nat) (mem : Bool) : Nat :=
  if old < capacity ∧ dsCapIsValid capacity = true ∧ mem = true then capacity else old

theorem grownCapacity_cases (old capacity : Nat) (mem : Bool) :
    grownCapacity old capacity mem = old ∨
      old < capacity ∧ mem = true ∧ grownCapacity old capacity mem = capacity := by
  unfold grownCapacity
  split
  · next h => exact .inr ⟨h.1, h.2.2, rfl⟩
  · exact .inl rfl

variable {x : BitVec 64} {capacity : BitVec 32} {k : Nat}

theorem isPowOf2_iff (hx : x ≠ 0#64) : isPowOf2 x = true ↔ ∃ k, x.toNat = 2 ^ k := by
  have h0 : x.toNat ≠ 0 := by
    intro h
    exact hx (eq_of_toNat_eq h)
  have hpred : (x - 1#64).toNat = x.toNat - 1 := by
    simp only [toNat_sub, toNat_ofNat]
    omega
  rw [isPowOf2, beq_iff_eq, ← toNat_inj, toNat_and, hpred, toNat_ofNat,
    Nat.zero_mod, Nat.and_sub_one_eq_zero_iff_isPowerOfTwo h0]
  rfl

theorem smeared_rounds (x : BitVec 64) : let a := x ||| x >>> 1
    let b := a ||| a >>> 2
    let c := b ||| b >>> 4
    let d := c ||| c >>> 8
    Smeared x.toNat 32 (d ||| d >>> 16).toNat := by
  have hround : ∀ {y : BitVec 64} {s : Nat}, Smeared x.toNat s y.toNat →
      Smeared x.toNat (s + s) (y ||| y >>> s).toNat := by
    intro y s hy
    exact hy.double
  exact hround (hround (hround (hround (hround (smeared_one x.toNat)))))

theorem nextPowOf2_eq_iff (hp : ¬ isPowOf2 x = true) (h : x.toNat.log2 < 63) :
    (nextPowOf2 x).toNat = 2 ^ (x.toNat.log2 + 1) ↔
      ∀ i ≤ x.toNat.log2, ∃ d < 32, x.toNat.testBit (i + d) = true := by
  have hsmear := smeared_rounds x
  have hlt := hsmear.lt
  have hpow : 2 ^ (x.toNat.log2 + 1) ≤ 2 ^ 63 := Nat.pow_le_pow_right (by omega) (by omega)
  have hpos := Nat.two_pow_pos (x.toNat.log2 + 1)
  rw [nextPowOf2, if_neg hp, toNat_add, toNat_ofNat, Nat.mod_eq_of_lt (by omega)]
  simp only [← Nat.lt_succ_iff]
  rw [← hsmear.eq_ones_iff hlt]
  omega

theorem log2_bounds (hx : x ≠ 0#64) (hp : ¬ isPowOf2 x = true) :
    2 ^ x.toNat.log2 < x.toNat ∧ x.toNat < 2 ^ (x.toNat.log2 + 1) := by
  have h0 : x.toNat ≠ 0 := fun hz => hx (eq_of_toNat_eq hz)
  have hne : x.toNat ≠ 2 ^ x.toNat.log2 := fun he => hp ((isPowOf2_iff hx).mpr ⟨_, he⟩)
  have hlow := Nat.log2_self_le h0
  exact ⟨by omega, Nat.lt_log2_self⟩

theorem nextPowOf2_spec (hx : x ≠ 0#64) (h : x.toNat < 2 ^ 32) :
    ∃ k, (nextPowOf2 x).toNat = 2 ^ k ∧ x.toNat ≤ 2 ^ k ∧ 2 ^ k < 2 * x.toNat := by
  have h0 : x.toNat ≠ 0 := fun hz => hx (eq_of_toNat_eq hz)
  by_cases hp : isPowOf2 x = true
  · obtain ⟨k, hk⟩ := (isPowOf2_iff hx).mp hp
    exact ⟨k, by rw [nextPowOf2, if_pos hp, hk], by omega, by omega⟩
  · have hlog : x.toNat.log2 < 32 := (Nat.log2_lt h0).mpr h
    obtain ⟨hlow, hhigh⟩ := log2_bounds hx hp
    refine ⟨x.toNat.log2 + 1, (nextPowOf2_eq_iff hp (Nat.lt_trans hlog (by decide))).mpr ?_,
      by omega, by omega⟩
    intro i hi
    exact ⟨x.toNat.log2 - i, by omega, by rw [Nat.add_sub_cancel' hi, Nat.testBit_log2 h0]⟩

/-- The result is right exactly for a power of two, and for a number without 32 zeros in a row below
its top bit. -/
theorem nextPowOf2_isLeast_iff (x : BitVec 64) (h1 : 1 ≤ x.toNat) (h63 : x.toNat ≤ 2 ^ 63) :
    IsLeast {p | x.toNat ≤ p ∧ ∃ k, p = 2 ^ k} (nextPowOf2 x).toNat ↔
      (∃ k, x.toNat = 2 ^ k) ∨
        ∀ i ≤ x.toNat.log2, ∃ d < 32, x.toNat.testBit (i + d) = true := by
  have hx : x ≠ 0#64 := by
    rintro rfl
    simp at h1
  by_cases hp : isPowOf2 x = true
  · have hk := (isPowOf2_iff hx).mp hp
    rw [nextPowOf2, if_pos hp]
    exact iff_of_true ⟨⟨Nat.le_refl _, hk⟩, fun _ hq => hq.1⟩ (.inl hk)
  · obtain ⟨hlow, hhigh⟩ := log2_bounds hx hp
    have hlog : x.toNat.log2 < 63 :=
      (Nat.pow_lt_pow_iff_right (by omega)).mp (Nat.lt_of_lt_of_le hlow h63)
    have hleast : IsLeast {p | x.toNat ≤ p ∧ ∃ k, p = 2 ^ k} (2 ^ (x.toNat.log2 + 1)) := by
      refine ⟨⟨Nat.le_of_lt hhigh, _, rfl⟩, ?_⟩
      rintro _ ⟨hle, k, rfl⟩
      have hlt : 2 ^ x.toNat.log2 < 2 ^ k := Nat.lt_of_lt_of_le hlow hle
      exact Nat.pow_le_pow_right (by omega) ((Nat.pow_lt_pow_iff_right (by omega)).mp hlt)
    rw [or_iff_right (mt (isPowOf2_iff hx).mpr hp), ← nextPowOf2_eq_iff hp hlog]
    exact ⟨fun h => h.unique hleast, fun h => h ▸ hleast⟩

theorem nextPowOf2_isLeast_five :
    IsLeast {p | (5#64).toNat ≤ p ∧ ∃ k, p = 2 ^ k} (nextPowOf2 5#64).toNat := by
  refine (nextPowOf2_isLeast_iff 5#64 (by decide) (by decide)).mpr (.inr fun i hi => ?_)
  have hlog : (5#64).toNat.log2 = 2 := by decide
  rw [hlog] at hi
  exact ⟨2 - i, by omega, by rw [Nat.add_sub_cancel' hi]; decide⟩

theorem nextPowOf2_not_isLeast : ¬ IsLeast {p | (1099511627777#64).toNat ≤ p ∧ ∃ k, p = 2 ^ k}
      (nextPowOf2 1099511627777#64).toNat := by
  rintro ⟨⟨-, hk⟩, -⟩
  exact absurd ((isPowOf2_iff (by decide)).mpr hk) (by decide)

theorem nextPowOf2_of_high (h : 2 ^ 64 - 2 ^ 31 ≤ x.toNat) : nextPowOf2 x = 0#64 := by
  have hlt := x.isLt
  have hx : x ≠ 0#64 := by
    rintro rfl
    rw [toNat_ofNat] at h
    omega
  have hnot : ¬ isPowOf2 x = true := by
    intro hp
    obtain ⟨k, hk⟩ := (isPowOf2_iff hx).mp hp
    have hk64 : k < 64 := by
      rw [hk] at hlt
      exact (Nat.pow_lt_pow_iff_right (by omega)).mp hlt
    have hle : 2 ^ k ≤ 2 ^ 63 := Nat.pow_le_pow_right (by omega) (by omega)
    omega
  have hones : ∀ i, 31 ≤ i → i < 64 → x.toNat.testBit i = true := by
    intro i hlow hhigh
    have hquot : x.toNat / 2 ^ 31 = 2 ^ 33 - 1 := by omega
    rw [show i = i - 31 + 31 by omega, ← Nat.testBit_div_two_pow, hquot,
      Nat.testBit_two_pow_sub_one, decide_eq_true_eq]
    omega
  have hnear : ∀ i, i < 64 → ∃ d, d < 32 ∧ x.toNat.testBit (i + d) = true := by
    intro i hi
    rcases Nat.lt_or_ge i 31 with hlow | hhigh
    · exact ⟨31 - i, by omega, hones _ (by omega) (by omega)⟩
    · exact ⟨0, by omega, hones _ hhigh hi⟩
  rw [nextPowOf2, if_neg hnot]
  apply eq_of_toNat_eq
  rw [toNat_add, ((smeared_rounds x).eq_ones_iff (isLt _)).mpr hnear]
  rfl

def roundCapacity (capacity : BitVec 32) : BitVec 32 :=
  (nextPowOf2 (capacity.signExtend 64)).setWidth 32

theorem toNat_of_toInt_pos {x : BitVec 32} (h : 0 < x.toInt) :
    x.toInt = x.toNat ∧ 0 < x.toNat ∧ x.toNat < 2 ^ 31 := by
  rw [toInt_eq_toNat_cond] at h ⊢
  split at h <;> omega

theorem toNat_signExtend_of_lt {x : BitVec 32} (h : x.toNat < 2 ^ 31) :
    (x.signExtend 64).toNat = x.toNat := by
  have hmsb : x.msb = false := by
    rw [msb_eq_false_iff_two_mul_lt]
    omega
  rw [signExtend_eq_setWidth_of_msb_false hmsb, toNat_setWidth]
  omega

theorem toNat_signExtend_of_pos {x : BitVec 32} (h : 0 < x.toInt) :
    (x.signExtend 64).toNat = x.toNat :=
  toNat_signExtend_of_lt (toNat_of_toInt_pos h).2.2

theorem roundCapacity_spec (h : 0 < capacity.toInt) :
    ∃ k, (roundCapacity capacity).toNat = 2 ^ k ∧ capacity.toNat ≤ 2 ^ k ∧
      2 ^ k < 2 * capacity.toNat := by
  obtain ⟨_, hpos, hlt⟩ := toNat_of_toInt_pos h
  have hext := toNat_signExtend_of_pos h
  have hne : capacity.signExtend 64 ≠ 0#64 := by
    intro hz
    rw [hz, toNat_ofNat] at hext
    omega
  obtain ⟨k, hk, hle, hup⟩ := nextPowOf2_spec hne (by omega)
  rw [hext] at hle hup
  refine ⟨k, ?_, hle, hup⟩
  rw [roundCapacity, toNat_setWidth, hk]
  exact Nat.mod_eq_of_lt (by omega)

theorem setWidth_nextPowOf2_spec (hx : x ≠ 0#64) (h : x.toNat < 2 ^ 32)
    (hne : (nextPowOf2 x).setWidth 32 ≠ 0#32) :
    ∃ k, ((nextPowOf2 x).setWidth 32).toNat = 2 ^ k := by
  obtain ⟨k, hk, _, _⟩ := nextPowOf2_spec hx h
  refine ⟨k, ?_⟩
  rw [ne_eq, ← toNat_inj, toNat_setWidth, hk, toNat_ofNat] at hne
  rw [toNat_setWidth, hk]
  apply Nat.mod_eq_of_lt
  by_contra hge
  have hdvd : 2 ^ 32 ∣ 2 ^ k :=
    Nat.pow_dvd_pow 2 ((Nat.pow_le_pow_iff_right (by omega)).mp (not_lt.mp hge))
  exact hne (Nat.mod_eq_zero_of_dvd hdvd)

theorem toNat_idxInPowOf2Ring (hc : capacity.toNat = 2 ^ k)
    (n : Nat) : (idxInPowOf2Ring (BitVec.ofNat 32 n) capacity).toNat = n % 2 ^ k := by
  have hlt := capacity.isLt
  have hpos : 0 < 2 ^ k := Nat.two_pow_pos k
  have hpred : (capacity - 1#32).toNat = 2 ^ k - 1 := by
    simp only [toNat_sub, toNat_ofNat]
    omega
  have hk : k < 32 := by
    rw [hc] at hlt
    exact (Nat.pow_lt_pow_iff_right (by omega)).mp hlt
  rw [idxInPowOf2Ring, toNat_and, hpred, toNat_ofNat, Nat.and_two_pow_sub_one_eq_mod]
  exact Nat.mod_mod_of_dvd _ (Nat.pow_dvd_pow 2 (by omega))

theorem toNat_idxInPowOf2Ring_self (hc : capacity.toNat = 2 ^ k)
    (x : BitVec 32) : (idxInPowOf2Ring x capacity).toNat = x.toNat % 2 ^ k := by
  have h := toNat_idxInPowOf2Ring hc x.toNat
  rwa [ofNat_toNat, setWidth_eq] at h

theorem roundUpPowOf2Mul_eq_self {x n : BitVec 32} (hn : n.toNat = 2 ^ k) :
    roundUpPowOf2Mul x n = x ↔ 2 ^ k ∣ x.toNat := by
  have hpos := Nat.two_pow_pos k
  have hmask : (n - 1#32).toNat = 2 ^ k - 1 := by
    simp only [toNat_sub, toNat_ofNat]
    omega
  have hlow : x &&& (n - 1#32) = 0#32 ↔ 2 ^ k ∣ x.toNat := by
    rw [← toNat_inj, toNat_and, hmask, Nat.and_two_pow_sub_one_eq_mod,
      toNat_ofNat, Nat.zero_mod, Nat.dvd_iff_mod_eq_zero]
  have hassoc : x + n - 1#32 = x + (n - 1#32) := by
    rw [BitVec.sub_eq_add_neg, BitVec.add_assoc, ← BitVec.sub_eq_add_neg]
  rw [← hlow, roundUpPowOf2Mul, hassoc]
  constructor
  · intro h
    rw [← h, BitVec.and_assoc, BitVec.and_comm (~~~_), BitVec.and_not_self]
    exact BitVec.and_zero
  · intro h
    rw [add_eq_or_of_and_eq_zero _ _ h]
    ext i hi
    have hbit := congrArg (·[i]) h
    simp only [getElem_and, getElem_or, getElem_not]
    cases hx : x[i] with
    | false => simp
    | true => simpa [hx] using hbit

end MuggleC.Base
