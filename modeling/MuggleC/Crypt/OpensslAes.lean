/- source: crypt/openssl/openssl_aes.c
   digest: AES of the optimised build, which inverts all bytes of a word at once by a tower of fields. -/

import MuggleC.Crypt.InternalAes

set_option autoImplicit false

/-! `openssl_sub_u32`, `openssl_sub_u64` and `openssl_inv_sub_u64` are made of the same parts, and
each constant of the source has one byte in all places: `mask` gives the word of a byte. -/

namespace MuggleC.Crypt.OpensslSub

open Crypt.Modes Foundation.Lanes

section Parts

variable {w : ℕ} (mask : Byte → BitVec w)

inductive Turn
  | one
  | two

def turn : Turn → BitVec w → BitVec w
  | .one, y => (y &&& mask 0xFE) >>> 1 ||| (y &&& mask 0x01) <<< 7
  | .two, y => (y &&& mask 0xFC) >>> 2 ||| (y &&& mask 0x03) <<< 6

def addTurned (s : BitVec w × BitVec w) (t : Turn × Byte) : BitVec w × BitVec w :=
  let y := turn mask t.1 s.2
  (s.1 ^^^ (y &&& mask t.2), y)

def transfer (first : Byte) (terms : List (Turn × Byte)) (x : BitVec w) : BitVec w :=
  (terms.foldl (addTurned mask) (x &&& mask first, x)).1

def mulWith (half : BitVec w → BitVec w) (m : Byte) (x y : BitVec w) : BitVec w :=
  let a := x &&& y
  let a := a ^^^ half a
  a ^^^ (((x <<< 1 &&& y) ^^^ (y <<< 1 &&& x)) &&& mask m)

def mul2 (m : Byte) : BitVec w → BitVec w → BitVec w :=
  mulWith mask (fun a => (a &&& mask m) >>> 1) m

def twice (m : Byte) (a : BitVec w) : BitVec w :=
  let t := a &&& mask m
  let t := t ||| t >>> 1
  t ^^^ (a <<< 1 &&& mask m)

def mul4 (x y : BitVec w) : BitVec w :=
  let a2 := (x &&& mask 0xCC) >>> 2 ||| (x &&& mask 0x33) <<< 2
  let a3 := mul2 mask 0xAA x y
  let a4 := mul2 mask 0xAA a2 y
  let a5 := (a3 &&& mask 0xCC) >>> 2
  let a3 := a3 ^^^ ((a4 <<< 2 ^^^ a4) &&& mask 0xCC)
  a3 ^^^ twice mask 0x22 a5

def addTimes8 (a3 : BitVec w) : BitVec w :=
  let a5 := twice mask 0xA0 a3
  let a4 := a5 &&& mask 0xC0
  let a6 := a4 >>> 2
  let a4 := a4 ^^^ (a5 <<< 2 &&& mask 0xC0)
  let a4 := a4 ||| twice mask 0x20 a6
  (a3 ^^^ a4 >>> 4) &&& mask 0x0F

def inPairs (a4 : BitVec w) : BitVec w :=
  let a4 := a4 &&& mask 0x03
  let a4 := a4 ^^^ (a4 &&& mask 0x02) >>> 1
  a4 ||| a4 <<< 2

def inv4 (half : BitVec w → BitVec w) (a3 : BitVec w) : BitVec w :=
  let a2 := a3 ^^^ (a3 &&& mask 0x0C) >>> 2
  let a4 := mulWith mask half 0x0A a3 a2
  let a5 := twice mask 0x08 a4
  mul2 mask 0x0A a2 (inPairs mask (a4 ^^^ a5 >>> 2))

def inv8 (half : BitVec w → BitVec w) (x : BitVec w) : BitVec w :=
  let a1 := x ^^^ (x &&& mask 0xF0) >>> 4
  let a3 := inv4 mask half (addTimes8 mask (mul4 mask x a1))
  let a3 := a3 ||| a3 <<< 4
  mul4 mask a1 a3

def sub (half : BitVec w → BitVec w) (x : BitVec w) : BitVec w :=
  let x := transfer mask 0xDD
    [(.one, 0x57), (.one, 0x1C), (.one, 0x4A), (.one, 0x42), (.one, 0x64), (.one, 0xE0)] x
  let x := inv8 mask half x
  let x := transfer mask 0x39
    [(.one, 0x3F), (.two, 0x97), (.one, 0x9B), (.one, 0x3C), (.one, 0xDD), (.one, 0x72)] x
  x ^^^ mask 0x63

def invSub (half : BitVec w → BitVec w) (x : BitVec w) : BitVec w :=
  let x := x ^^^ mask 0x63
  let x := transfer mask 0xFD
    [(.one, 0x5E), (.one, 0xF3), (.one, 0xF5), (.one, 0x78), (.one, 0x77), (.one, 0x15),
      (.one, 0xA5)] x
  let x := inv8 mask half x
  transfer mask 0xB5
    [(.one, 0x40), (.one, 0x80), (.one, 0x16), (.one, 0xEB), (.one, 0x97), (.one, 0xFB),
      (.one, 0x7D)] x

def xtime (a : BitVec w) : BitVec w :=
  let b := a &&& mask 0x80
  let a := a ^^^ b
  let b := b - b >>> 7
  let b := b &&& mask 0x1B
  b ^^^ a <<< 1

end Parts

def mask32 (m : Byte) : BitVec 32 := rep 4 m

def mask64 (m : Byte) : BitVec 64 := rep 8 m

/-- `(a4 & 0x0A0A0A0A0Au) >> 1`. The constant has five bytes, so that the conjunction is one of
64 bits. -/
def half32 (a4 : BitVec 32) : BitVec 32 := ((a4.setWidth 64 &&& 0x0A0A0A0A0A) >>> 1).setWidth 32

def half64 (a4 : BitVec 64) : BitVec 64 := (a4 &&& mask64 0x0A) >>> 1

def subU32 : BitVec 32 → BitVec 32 := sub mask32 half32

def subU64 : BitVec 64 → BitVec 64 := sub mask64 half64

def invSubU64 : BitVec 64 → BitVec 64 := invSub mask64 half64

def xtimeU32 : BitVec 32 → BitVec 32 := xtime mask32

def xtimeU64 : BitVec 64 → BitVec 64 := xtime mask64

def subByte : Byte → Byte := sub id fun a => (a &&& 0x0A) >>> 1

def invSubByte : Byte → Byte := invSub id fun a => (a &&& 0x0A) >>> 1

def xtimeByte : Byte → Byte := xtime id

theorem forall_byte {p : Byte → Prop} (h₀ : ∀ b : BitVec 6, p (0#2 ++ b))
    (h₁ : ∀ b : BitVec 6, p (1#2 ++ b)) (h₂ : ∀ b : BitVec 6, p (2#2 ++ b))
    (h₃ : ∀ b : BitVec 6, p (3#2 ++ b)) (b : Byte) : p b := by
  have hquarter : ∀ q : BitVec 2, q = 0#2 ∨ q = 1#2 ∨ q = 2#2 ∨ q = 3#2 := by decide
  have hb : p (b.extractLsb' 6 2 ++ b.extractLsb' 0 6) := by
    rcases hquarter (b.extractLsb' 6 2) with hq | hq | hq | hq <;> rw [hq]
    · exact h₀ _
    · exact h₁ _
    · exact h₂ _
    · exact h₃ _
  rwa [BitVec.extractLsb'_append_extractLsb'_eq_extractLsb' (by decide),
    BitVec.extractLsb'_eq_self] at hb

-- the kernel goes through one quarter at a time
theorem subByte_eq : ∀ b : Byte, subByte b = InternalAes.sbox b := by
  apply forall_byte <;> decide +kernel

private theorem invSubByte_eq : ∀ b : Byte, invSubByte b = InternalAes.invSbox b := by
  apply forall_byte <;> decide +kernel

def lowPair (a : Byte) : Byte := (a &&& 0x03) ^^^ (a &&& 0x03 &&& 0x02) >>> 1

private theorem fitsLeft_lowPair : ∀ a : Byte, FitsLeft 2 (lowPair a) := by
  decide +kernel

private theorem fitsLeft_inPairs : ∀ a : Byte, FitsLeft 4 (inPairs id a) := by
  decide +kernel

private theorem fitsLeft_inv4 (half : Byte → Byte) (a : Byte) : FitsLeft 4 (inv4 id half a) := by
  have hhalf : ∀ a : Byte, FitsLeft 4 ((a &&& 0x0A) >>> 1) := by decide +kernel
  have hm : FitsLeft 4 (0x0A : Byte) := by decide
  have hy : FitsLeft 4 _ := fitsLeft_inPairs (mulWith id half 0x0A a (a ^^^ (a &&& 0x0C) >>> 2) ^^^
      twice id 0x08 (mulWith id half 0x0A a (a ^^^ (a &&& 0x0C) >>> 2)) >>> 2)
  exact ((hy.and _).xor (hhalf _)).xor (hm.and _)

private theorem fitsRight_twice : ∀ a : Byte, FitsRight 2 (twice id 0x08 a) := by
  decide +kernel

private theorem top_le : ∀ a : Byte, ((a &&& 0x80) >>> 7).toNat ≤ (a &&& 0x80).toNat := by
  decide +kernel

private theorem fitsLeft_rest : ∀ a : Byte, FitsLeft 1 (a ^^^ (a &&& 0x80)) := by
  decide +kernel
section Lanes

variable {n i : ℕ} (hi : i < n)

include hi

private theorem lane_turn (t : Turn) (y : BitVec (8 * n)) :
    lane 8 (turn (rep n) t y) i = turn id t (lane 8 y i) := by
  cases t with
  | one | two =>
    rw [turn, lane_or, lane_and_rep_ushiftRight y (by decide) (by decide) hi,
      lane_and_rep_shiftLeft y (by decide) (by decide) hi]
    rfl

private theorem lane_foldl_addTurned (terms : List (Turn × Byte)) (x y : BitVec (8 * n)) :
    lane 8 (terms.foldl (addTurned (rep n)) (x, y)).1 i =
      (terms.foldl (addTurned id) (lane 8 x i, lane 8 y i)).1 := by
  induction terms generalizing x y with
  | nil => rfl
  | cons t terms ih =>
    rw [List.foldl_cons, List.foldl_cons, addTurned, ih, lane_xor, lane_and_rep _ _ hi,
      lane_turn hi]
    rfl

theorem lane_transfer (first : Byte) (terms : List (Turn × Byte)) (x : BitVec (8 * n)) :
    lane 8 (transfer (rep n) first terms x) i = transfer id first terms (lane 8 x i) := by
  rw [transfer, lane_foldl_addTurned hi, lane_and_rep x first hi]
  rfl

variable {m : Byte}

private theorem lane_cross (hm : FitsRight 1 m) (x y : BitVec (8 * n)) :
    lane 8 (((x <<< 1 &&& y) ^^^ (y <<< 1 &&& x)) &&& rep n m) i =
      ((lane 8 x i <<< 1 &&& lane 8 y i) ^^^ (lane 8 y i <<< 1 &&& lane 8 x i)) &&& m := by
  have hswap : ∀ {w : ℕ} (x y m : BitVec w), x &&& y &&& m = x &&& m &&& y := by
    intro w x y m
    ac_rfl
  -- The mask goes next to the shifted word, where it stops the bits of the lane below.
  rw [xor_and, xor_and, lane_xor, hswap, hswap (y <<< 1), lane_and (x <<< 1 &&& rep n m),
    lane_and (y <<< 1 &&& rep n m), lane_shiftLeft_and_rep x hm hi,
    lane_shiftLeft_and_rep y hm hi, hswap _ m, hswap _ m]

theorem lane_half (a : BitVec (8 * n)) :
    lane 8 ((a &&& rep n (0x0A : Byte)) >>> 1) i = (lane 8 a i &&& 0x0A) >>> 1 :=
  lane_and_rep_ushiftRight a (by decide) (by decide : FitsRight 1 (0x0A : Byte)) hi

variable {half : BitVec (8 * n) → BitVec (8 * n)} {half' : Byte → Byte}

theorem lane_mulWith (hhalf : ∀ a, lane 8 (half a) i = half' (lane 8 a i)) (hm : FitsRight 1 m)
    (x y : BitVec (8 * n)) :
    lane 8 (mulWith (rep n) half m x y) i = mulWith id half' m (lane 8 x i) (lane 8 y i) := by
  simp only [mulWith, lane_xor, hhalf, lane_and x y, lane_cross hi hm]
  rfl

theorem lane_mul2 (hm : FitsRight 1 m) (x y : BitVec (8 * n)) :
    lane 8 (mul2 (rep n) m x y) i = mul2 id m (lane 8 x i) (lane 8 y i) :=
  lane_mulWith hi (fun a => lane_and_rep_ushiftRight a (by decide) hm hi) hm x y

theorem lane_twice (hm : FitsRight 1 m) (a : BitVec (8 * n)) :
    lane 8 (twice (rep n) m a) i = twice id m (lane 8 a i) := by
  simp only [twice, lane_xor, lane_or, lane_and_rep a m hi,
    lane_and_rep_ushiftRight a (by decide) hm hi, lane_shiftLeft_and_rep a hm hi]
  rfl

private theorem lane_mul4 (x y : BitVec (8 * n)) :
    lane 8 (mul4 (rep n) x y) i = mul4 id (lane 8 x i) (lane 8 y i) := by
  have hscale : ∀ a : BitVec (8 * n), lane 8 ((a <<< 2 ^^^ a) &&& rep n (0xCC : Byte)) i =
      (lane 8 a i <<< 2 ^^^ lane 8 a i) &&& 0xCC := by
    intro a
    rw [xor_and, xor_and, lane_xor, lane_and_rep a _ hi,
      lane_shiftLeft_and_rep a (by decide : FitsRight 2 (0xCC : Byte)) hi]
  simp only [mul4, lane_xor, hscale, lane_twice hi (by decide : FitsRight 1 (0x22 : Byte)),
    lane_mul2 hi (by decide : FitsRight 1 (0xAA : Byte)), lane_or,
    lane_and_rep_ushiftRight _ (by decide) (by decide : FitsRight 2 (0xCC : Byte)) hi,
    lane_and_rep_shiftLeft _ (by decide) (by decide : FitsLeft 2 (0x33 : Byte)) hi]
  rfl

private theorem lane_addTimes8 (a : BitVec (8 * n)) :
    lane 8 (addTimes8 (rep n) a) i = addTimes8 id (lane 8 a i) := by
  have hm : FitsRight 2 (0xC0 : Byte) := by decide
  rw [addTimes8, xor_and, lane_xor, lane_and_rep a _ hi,
    lane_ushiftRight_and_rep _ (by decide : FitsLeft 4 (0x0F : Byte)) hi, lane_or, lane_xor,
    lane_shiftLeft_and_rep _ hm hi]
  simp only [lane_and_rep _ _ hi, lane_and_rep_ushiftRight _ (by decide : 2 ≤ 8) hm hi,
    lane_twice hi (by decide : FitsRight 1 (0xA0 : Byte)),
    lane_twice hi (by decide : FitsRight 1 (0x20 : Byte)), addTimes8, xor_and, id]

private theorem lane_inPairs (a : BitVec (8 * n)) :
    lane 8 (inPairs (rep n) a) i = inPairs id (lane 8 a i) := by
  have hlow : ∀ j < n, lane 8 ((a &&& rep n (0x03 : Byte)) ^^^
      (a &&& rep n (0x03 : Byte) &&& rep n (0x02 : Byte)) >>> 1) j = lowPair (lane 8 a j) := by
    intro j hj
    rw [lane_xor, lane_and_rep a _ hj,
      lane_and_rep_ushiftRight _ (by decide) (by decide : FitsRight 1 (0x02 : Byte)) hj,
      lane_and_rep a _ hj]
    rfl
  rw [inPairs, lane_or, lane_shiftLeft (by decide) (fun j hj => ?_) hi, hlow i hi]
  · rfl
  · rw [hlow j hj]
    exact fitsLeft_lowPair _

theorem lane_inv4 (hhalf : ∀ a, lane 8 (half a) i = half' (lane 8 a i)) (a : BitVec (8 * n)) :
    lane 8 (inv4 (rep n) half a) i = inv4 id half' (lane 8 a i) := by
  have hm : FitsRight 1 (0x0A : Byte) := by decide
  -- No mask follows this shift before the sum, but `a5` has no bit that it could lose.
  have ht : ∀ b : BitVec (8 * n), lane 8 (twice (rep n) 0x08 b >>> 2) i =
      twice id 0x08 (lane 8 b i) >>> 2 := by
    intro b
    rw [lane_ushiftRight (by decide) (fun j hj => ?_), lane_twice hi (by decide)]
    rw [lane_twice hj (by decide)]
    exact fitsRight_twice _
  simp only [inv4, lane_mul2 hi hm, lane_inPairs hi, lane_xor, ht, lane_mulWith hi hhalf hm,
    lane_and_rep_ushiftRight _ (by decide : 2 ≤ 8) (by decide : FitsRight 2 (0x0C : Byte)) hi, id]

variable (hhalf : ∀ a, ∀ j < n, lane 8 (half a) j = half' (lane 8 a j)) (x : BitVec (8 * n))

include hhalf x

theorem lane_inv8 : lane 8 (inv8 (rep n) half x) i = inv8 id half' (lane 8 x i) := by
  -- An inverse has only the lower half of its byte, so that it can be doubled.
  have ht : ∀ b : BitVec (8 * n), lane 8 (inv4 (rep n) half b <<< 4) i =
      inv4 id half' (lane 8 b i) <<< 4 := by
    intro b
    rw [lane_shiftLeft (by decide) (fun j hj => ?_) hi, lane_inv4 hi fun a => hhalf a i hi]
    rw [lane_inv4 hj fun a => hhalf a j hj]
    exact fitsLeft_inv4 half' _
  simp only [inv8, lane_mul4 hi, lane_or, ht, lane_inv4 hi fun a => hhalf a i hi,
    lane_addTimes8 hi, lane_xor, id,
    lane_and_rep_ushiftRight _ (by decide : 4 ≤ 8) (by decide : FitsRight 4 (0xF0 : Byte)) hi]

theorem lane_sub_eq : lane 8 (sub (rep n) half x) i = sub id half' (lane 8 x i) := by
  simp only [sub, lane_xor, lane_transfer hi, lane_inv8 hi hhalf, lane_rep _ hi, id]

theorem lane_invSub_eq : lane 8 (invSub (rep n) half x) i = invSub id half' (lane 8 x i) := by
  simp only [invSub, lane_xor, lane_transfer hi, lane_inv8 hi hhalf, lane_rep _ hi, id]

omit hhalf x

theorem lane_xtime (a : BitVec (8 * n)) : lane 8 (xtime (rep n) a) i = xtime id (lane 8 a i) := by
  have htop : FitsRight 7 (0x80 : Byte) := by decide
  -- The subtraction borrows nothing from the byte above.
  have hborrow : ∀ j < n, (lane 8 ((a &&& rep n (0x80 : Byte)) >>> 7) j).toNat ≤
      (lane 8 (a &&& rep n (0x80 : Byte)) j).toNat := by
    intro j hj
    rw [lane_and_rep_ushiftRight a (by decide) htop hj, lane_and_rep a _ hj]
    exact top_le _
  have hrest : ∀ j < n, FitsLeft 1 (lane 8 (a ^^^ (a &&& rep n (0x80 : Byte))) j) := by
    intro j hj
    rw [lane_xor, lane_and_rep a _ hj]
    exact fitsLeft_rest _
  rw [xtime, lane_xor, lane_and_rep _ _ hi, lane_sub hborrow hi,
    lane_and_rep_ushiftRight a (by decide) htop hi, lane_and_rep a _ hi,
    lane_shiftLeft (by decide) hrest hi, lane_xor, lane_and_rep a _ hi]
  rfl

end Lanes

private theorem half32_eq (a : BitVec 32) : half32 a = (a &&& mask32 0x0A) >>> 1 := by
  have hmask : mask32 0x0A = (0x0A0A0A0A0A : BitVec 64).setWidth 32 := by decide
  apply BitVec.eq_of_getLsbD_eq
  intro j hj
  simp only [half32, hmask, BitVec.getLsbD_setWidth, BitVec.getLsbD_ushiftRight,
    BitVec.getLsbD_and, hj, show 1 + j < 64 by omega, decide_true, Bool.true_and]
  by_cases htop : 1 + j < 32
  · rw [decide_eq_true htop, Bool.true_and]
  · rw [BitVec.getLsbD_of_ge a (1 + j) (Nat.not_lt.mp htop), Bool.false_and, Bool.false_and]

private theorem lane_half32 (a : BitVec 32) {j : ℕ} (hj : j < 4) :
    lane 8 (half32 a) j = (lane 8 a j &&& 0x0A) >>> 1 := by
  rw [half32_eq]
  exact lane_half (n := 4) hj a

theorem lane_half64 (a : BitVec 64) {j : ℕ} (hj : j < 8) :
    lane 8 (half64 a) j = (lane 8 a j &&& 0x0A) >>> 1 :=
  lane_half (n := 8) hj a

variable {i : ℕ}

private theorem lane_subU32 (x : BitVec 32) (hi : i < 4) :
    lane 8 (subU32 x) i = InternalAes.sbox (lane 8 x i) := by
  rw [← subByte_eq]
  exact lane_sub_eq (n := 4) hi (fun a _ hj => lane_half32 a hj) x

private theorem lane_subU64 (x : BitVec 64) (hi : i < 8) :
    lane 8 (subU64 x) i = InternalAes.sbox (lane 8 x i) := by
  rw [← subByte_eq]
  exact lane_sub_eq (n := 8) hi (fun a _ hj => lane_half64 a hj) x

private theorem lane_invSubU64 (x : BitVec 64) (hi : i < 8) :
    lane 8 (invSubU64 x) i = InternalAes.invSbox (lane 8 x i) := by
  rw [← invSubByte_eq]
  exact lane_invSub_eq (n := 8) hi (fun a _ hj => lane_half64 a hj) x

private theorem lane_xtimeU32 (x : BitVec 32) (hi : i < 4) :
    lane 8 (xtimeU32 x) i = xtimeByte (lane 8 x i) :=
  lane_xtime (n := 4) hi x

private theorem lane_xtimeU64 (x : BitVec 64) (hi : i < 8) :
    lane 8 (xtimeU64 x) i = xtimeByte (lane 8 x i) :=
  lane_xtime (n := 8) hi x

end MuggleC.Crypt.OpensslSub

namespace MuggleC.Crypt.OpensslAes

open Crypt.Modes Crypt.Words Crypt.OpensslSub
open Crypt.InternalAes (square place tables keyWords schedule sizes galoisLoop galoisMul)
open Foundation.Feistel (Halves)
open Foundation.Lanes Foundation.Rijndael BitVec

/-- `muggle_aes_subkeys_t` with `rd_key` as words of 64 bits, those that have been written. -/
structure Subkeys where
  rk : List (BitVec 64)
  rounds : ℕ

abbrev State2 := Vector (BitVec 64) 2

def bytes (state : State2) : Block 16 :=
  Vector.ofFn fun k => lane 8 (state.get ⟨k.val / 8, by omega⟩) (k.val % 8)

def ofBytes (b : Block 16) : State2 :=
  Vector.ofFn fun c => u64 (Vector.ofFn fun k => b.get ⟨8 * c.val + k.val, by omega⟩)

/-- `openssl_shift_row`, which moves the bytes of each row. -/
def shiftRow (state : State2) : State2 :=
  let s0 := bytes state
  ofBytes (Vector.ofFn fun k =>
    let r := k.val % 4
    let j := k.val / 4
    s0.get ⟨4 * ((r + j) % 4) + r, by omega⟩)

def invShiftRow (state : State2) : State2 :=
  let s0 := bytes state
  ofBytes (Vector.ofFn fun k =>
    let r := k.val % 4
    let j := k.val / 4
    s0.get ⟨4 * ((4 + j - r) % 4) + r, by omega⟩)

def swapParts (k : ℕ) (upper lower d : BitVec 64) : BitVec 64 :=
  (d &&& upper) >>> k ||| (d &&& lower) <<< k

def swap16 : BitVec 64 → BitVec 64 := swapParts 16 0xFFFF0000FFFF0000 0x0000FFFF0000FFFF

def swap8 : BitVec 64 → BitVec 64 := swapParts 8 0xFF00FF00FF00FF00 0x00FF00FF00FF00FF

def addNext (s s1 : BitVec 64) : BitVec 64 :=
  u64 #v[lane 8 s 0 ^^^ lane 8 s1 1, lane 8 s 1 ^^^ lane 8 s1 2,
    lane 8 s 2 ^^^ lane 8 s1 3, lane 8 s 3 ^^^ lane 8 s1 0,
    lane 8 s 4 ^^^ lane 8 s1 5, lane 8 s 5 ^^^ lane 8 s1 6,
    lane 8 s 6 ^^^ lane 8 s1 7, lane 8 s 7 ^^^ lane 8 s1 4]

def mixWord (d : BitVec 64) : BitVec 64 × BitVec 64 :=
  let s1 := d
  let s := s1
  let s := s ^^^ swap16 s
  let s := s ^^^ swap8 s
  let s := s ^^^ s1
  let s1 := xtimeU64 s1
  let s := s ^^^ s1
  (addNext s s1, s1)

def invMixWord (d : BitVec 64) : BitVec 64 :=
  let (s, s1) := mixWord d
  let s1 := xtimeU64 s1
  let s1 := s1 ^^^ swap16 s1
  let s := s ^^^ s1
  let s1 := xtimeU64 s1
  let s1 := s1 ^^^ swap8 s1
  s ^^^ s1

def mixColumns (state : State2) : State2 := state.map fun d => (mixWord d).1

def invMixColumns (state : State2) : State2 := state.map invMixWord

/-- `openssl_add_round_key` with `w + 2 * i`. -/
def addRoundKey (w : List (BitVec 64)) (i : ℕ) (state : State2) : State2 :=
  Vector.ofFn fun c => state.get c ^^^ w.getD (2 * i + c.val) 0

def cipher (input : Block 16) (w : List (BitVec 64)) (nr : ℕ) : Block 16 :=
  let state := ofBytes input
  let state := addRoundKey w 0 state
  let state := (List.range' 1 (nr - 1)).foldl (fun state i =>
    let state := state.map subU64
    let state := shiftRow state
    let state := mixColumns state
    addRoundKey w i state) state
  let state := state.map subU64
  let state := shiftRow state
  let state := addRoundKey w nr state
  bytes state

def invCipher (input : Block 16) (w : List (BitVec 64)) (nr : ℕ) : Block 16 :=
  let state := ofBytes input
  let state := addRoundKey w nr state
  let state := (List.range' 1 (nr - 1)).reverse.foldl (fun state i =>
    let state := invShiftRow state
    let state := state.map invSubU64
    let state := addRoundKey w i state
    invMixColumns state) state
  let state := invShiftRow state
  let state := state.map invSubU64
  let state := addRoundKey w 0 state
  bytes state

def rotWord (x : BitVec 32) : BitVec 32 :=
  u32 #v[lane 8 x 1, lane 8 x 2, lane 8 x 3, lane 8 x 0]

structure Expansion where
  w : List (BitVec 64)
  prev : BitVec 64
  rcon : BitVec 32

def turnTemp (nk i : ℕ) (temp rcon : BitVec 32) : BitVec 32 × BitVec 32 :=
  let n := nk / 2
  if i % n = 0 then (subU32 (rotWord temp) ^^^ rcon, xtimeU32 rcon)
  else if 6 < nk ∧ i % n = 2 then (subU32 temp, rcon)
  else (temp, rcon)

def expandStep (nk : ℕ) (s : Expansion) (i : ℕ) : Expansion :=
  let n := nk / 2
  let (temp, rcon) := turnTemp nk i (halves s.prev).h s.rcon
  let prev := halves (s.w.getD (i - n) 0)
  let prev := { prev with l := prev.l ^^^ temp }
  let prev := { prev with h := prev.h ^^^ prev.l }
  let prev := ofHalves prev
  ⟨s.w ++ [prev], prev, rcon⟩

def keyBlocks (key : List Byte) (nk : ℕ) : List (BitVec 64) :=
  (List.range (nk / 2)).map fun j => u64 (Vector.ofFn fun k => key.getD (8 * j + k.val) 0)

def keyExpansion (key : List Byte) (nr nk : ℕ) : List (BitVec 64) :=
  let w := keyBlocks key nk
  let n := nk / 2
  let start : Expansion := ⟨w, w.getD (n - 1) 0, u32 #v[1, 0, 0, 0]⟩
  ((List.range' n ((nr + 1) * 2 - n)).foldl (expandStep nk) start).w

def rounds : KeyBits → ℕ
  | .bits128 => 10
  | .bits192 => 12
  | .bits256 => 14

/-- `muggle_openssl_aes_set_key`, with a key size that it supports. -/
def setKey (bits : KeyBits) (key : List Byte) : Subkeys :=
  ⟨keyExpansion key (rounds bits) (bits.value / 32).toNat, rounds bits⟩

/-- The functions of the optimised build. -/
def code : AesCode Subkeys where
  expandKey := setKey
  encrypt sk input := cipher input sk.rk sk.rounds
  decrypt sk input := invCipher input sk.rk sk.rounds

def view (state : State2) : State 8 := square (bytes state)

def column (d : BitVec 64) (h : ℕ) : Word 8 := fun r => lane 8 d (4 * h + r.val)

theorem view_apply (state : State2) (r c : Fin 4) :
    view state r c = column (state.get ⟨c.val / 2, by omega⟩) (c.val % 2) r := by
  have hword : (4 * c.val + r.val) / 8 = c.val / 2 := by omega
  have hbyte : (4 * c.val + r.val) % 8 = 4 * (c.val % 2) + r.val := by omega
  refine (Vector.getElem_ofFn (place r c).isLt).trans ?_
  simp only [place, hword, hbyte]
  rfl

private theorem get_ofBytes (b : Block 16) (c : Fin 2) :
    (ofBytes b).get c = u64 (Vector.ofFn fun k => b.get ⟨8 * c.val + k.val, by omega⟩) :=
  Vector.getElem_ofFn c.isLt

private theorem bytes_ofBytes (b : Block 16) : bytes (ofBytes b) = b := by
  apply Vector.ext
  intro k hk
  have hplace : 8 * (k / 8) + k % 8 = k := Nat.div_add_mod k 8
  refine (Vector.getElem_ofFn hk).trans ?_
  rw [get_ofBytes]
  refine (lane_u64 _ ⟨k % 8, Nat.mod_lt k (by decide)⟩).trans ?_
  refine (Vector.getElem_ofFn (Nat.mod_lt k (by decide))).trans ?_
  simp only [hplace]
  rfl

theorem view_ofBytes (b : Block 16) : view (ofBytes b) = square b := by
  rw [view, bytes_ofBytes]

theorem view_map (f : BitVec 64 → BitVec 64) (state : State2) (r c : Fin 4) :
    view (state.map f) r c = column (f (state.get ⟨c.val / 2, by omega⟩)) (c.val % 2) r := by
  rw [view_apply]
  exact congrArg (column · (c.val % 2) r) (Vector.getElem_map f (by omega))

variable {f : BitVec 64 → BitVec 64} {h n i : ℕ} {rcon : BitVec 32} {s : Expansion}

theorem view_map_lanes {g : Byte → Byte} (hf : ∀ d, ∀ i < 8, lane 8 (f d) i = g (lane 8 d i))
    (state : State2) (r c : Fin 4) : view (state.map f) r c = g (view state r c) := by
  rw [view_map, view_apply]
  exact hf _ _ (by omega)

private theorem view_shiftRow (state : State2) (r c : Fin 4) :
    view (shiftRow state) r c = view state r (c + r) := by
  have hrow : (4 * c.val + r.val) % 4 = r.val := by omega
  have hcol : (4 * c.val + r.val) / 4 = c.val := by omega
  have hsum : (c + r).val = (r.val + c.val) % 4 := by
    rw [Fin.val_add, Nat.add_comm]
  rw [shiftRow, view_ofBytes]
  refine (Vector.getElem_ofFn (place r c).isLt).trans ?_
  simp only [place, hrow, hcol, ← hsum]
  rfl

private theorem view_invShiftRow (state : State2) (r c : Fin 4) :
    view (invShiftRow state) r c = view state r (c - r) := by
  have hrow : (4 * c.val + r.val) % 4 = r.val := by omega
  have hcol : (4 * c.val + r.val) / 4 = c.val := by omega
  have hsub : (c - r).val = (4 + c.val - r.val) % 4 := by
    omega
  rw [invShiftRow, view_ofBytes]
  refine (Vector.getElem_ofFn (place r c).isLt).trans ?_
  simp only [place, hrow, hcol, ← hsub]
  rfl

theorem column_xor (a b : BitVec 64) (h : ℕ) (r : Fin 4) :
    column (a ^^^ b) h r = column a h r ^^^ column b h r :=
  lane_xor ..

theorem getLsbD_swapParts {k : ℕ} {upper lower : BitVec 64}
    (hupper : ∀ t < 64, upper.getLsbD (k + t) = decide (t % (2 * k) < k))
    (hlower : ∀ t < 64, k ≤ t → lower.getLsbD (t - k) = decide (k ≤ t % (2 * k))) (d : BitVec 64)
    {t : ℕ} (ht : t < 64) : (swapParts k upper lower d).getLsbD t =
      d.getLsbD (if t % (2 * k) < k then k + t else t - k) := by
  rw [swapParts, getLsbD_or, getLsbD_ushiftRight, getLsbD_and,
    getLsbD_shiftLeft, getLsbD_and, hupper t ht]
  split
  · rename_i hlow
    by_cases htk : t < k
    · simp [hlow, htk]
    · simp [hlow, hlower t ht (Nat.not_lt.mp htk), Nat.not_le.mpr hlow]
  · rename_i hhigh
    have hk : k ≤ t := (Nat.not_lt.mp hhigh).trans (Nat.mod_le t _)
    simp [hlower t ht hk, Nat.not_lt.mp hhigh, Nat.not_lt.mpr hk, ht]

theorem column_swap16 (d : BitVec 64) (hh : h < 2) (r : Fin 4) :
    column (swap16 d) h r = column d h (r + 2) := by
  have hval : ∀ r : Fin 4, (r + 2).val = if r.val < 2 then r.val + 2 else r.val - 2 := by decide
  apply eq_of_getLsbD_eq
  intro j hj
  rw [column, column, getLsbD_lane _ _ hj, getLsbD_lane _ _ hj, swap16,
    getLsbD_swapParts (by decide) (by decide) d (by omega), hval]
  congr 1
  split <;> split <;> omega

theorem column_swap8 (d : BitVec 64) (hh : h < 2) (r : Fin 4) :
    column (swap8 d) h r = column d h (r ^^^ 1) := by
  have hval : ∀ r : Fin 4, (r ^^^ 1).val = if r.val % 2 < 1 then r.val + 1 else r.val - 1 := by
    decide
  apply eq_of_getLsbD_eq
  intro j hj
  rw [column, column, getLsbD_lane _ _ hj, getLsbD_lane _ _ hj, swap8,
    getLsbD_swapParts (by decide) (by decide) d (by omega), hval]
  congr 1
  split <;> split <;> omega

theorem column_xtime (d : BitVec 64) (hh : h < 2) (r : Fin 4) :
    column (xtimeU64 d) h r = xtimeByte (column d h r) :=
  lane_xtimeU64 d (by omega)

private theorem column_addNext (s s1 : BitVec 64) (hh : h < 2) (r : Fin 4) :
    column (addNext s s1) h r = column s h r ^^^ column s1 h (r + 1) := by
  refine (lane_u64 _ ⟨4 * h + r.val, by omega⟩).trans ?_
  obtain rfl | rfl : h = 0 ∨ h = 1 := by omega
  · fin_cases r <;> rfl
  · fin_cases r <;> rfl

theorem xor_exchange (a : Word 8) (r : Fin 4) :
    a r ^^^ a (r + 2) ^^^ (a (r ^^^ 1) ^^^ a ((r ^^^ 1) + 2)) =
      a r ^^^ (a (r + 1) ^^^ a (r + 2) ^^^ a (r + 3)) := by
  fin_cases r
  · show a 0 ^^^ a 2 ^^^ (a 1 ^^^ a 3) = a 0 ^^^ (a 1 ^^^ a 2 ^^^ a 3)
    ac_rfl
  · ac_rfl
  · show a 2 ^^^ a 0 ^^^ (a 3 ^^^ a 1) = a 2 ^^^ (a 3 ^^^ a 0 ^^^ a 1)
    ac_rfl
  · ac_rfl

theorem column_mixWord (d : BitVec 64) (hh : h < 2) (r : Fin 4) : column (mixWord d).1 h r =
      (column d h (r + 1) ^^^ column d h (r + 2) ^^^ column d h (r + 3)) ^^^
        (xtimeByte (column d h r) ^^^ xtimeByte (column d h (r + 1))) := by
  have hothers : ∀ x y : Byte, x ^^^ y ^^^ x = y := by
    intro x y
    rw [BitVec.xor_comm, ← BitVec.xor_assoc, BitVec.xor_self, BitVec.zero_xor]
  simp only [mixWord, column_addNext _ _ hh, column_xor, column_swap8 _ hh, column_swap16 _ hh,
    column_xtime _ hh, xor_exchange]
  -- `s` is the sum of the column, and `s ^= s1` takes the entry of its own row out again.
  rw [hothers, BitVec.xor_assoc]

theorem xtimeByte_eq : ∀ a : Byte, xtimeByte a = a <<< 1 ^^^ (if a.getLsbD 7 then 0x1B else 0) := by
  decide +kernel

theorem xtimeByte_xor (a b : Byte) : xtimeByte (a ^^^ b) = xtimeByte a ^^^ xtimeByte b := by
  have hif : ∀ p q : Bool, (if p ^^ q then (0x1B : Byte) else 0) =
      (if p then 0x1B else 0) ^^^ (if q then 0x1B else 0) := by decide
  rw [xtimeByte_eq, xtimeByte_eq, xtimeByte_eq, getLsbD_xor, hif,
    shiftLeft_xor_distrib]
  ac_rfl

def times4 (a : Word 8) : Word 8 := fun r => xtimeByte (xtimeByte (a r))

def times8 (a : Word 8) : Word 8 := fun r => xtimeByte (times4 a r)

theorem column_invMixWord (d : BitVec 64) (hh : h < 2) (r : Fin 4) : column (invMixWord d) h r =
      column (mixWord d).1 h r ^^^ (times4 (column d h) r ^^^ times4 (column d h) (r + 2)) ^^^
        (times8 (column d h) r ^^^ (times8 (column d h) (r + 1) ^^^
          times8 (column d h) (r + 2) ^^^ times8 (column d h) (r + 3))) := by
  rw [← xor_exchange]
  simp only [invMixWord, column_xor, column_swap8 _ hh, column_swap16 _ hh, column_xtime _ hh,
    xtimeByte_xor, times8, times4]
  simp only [mixWord, column_xtime _ hh]

theorem galoisLoop_succ (n : ℕ) (a b r : Byte) : galoisLoop (n + 1) a b r = if a = 0 then r
    else galoisLoop n (a >>> 1) (xtimeByte b) (if a &&& 0x01 ≠ 0 then r ^^^ b else r) := by
  have hdouble : ∀ b : Byte,
      (if b &&& 0x80 ≠ 0 then b <<< 1 ^^^ 0x1b else b <<< 1) = xtimeByte b := by decide +kernel
  rw [← hdouble]
  rfl

theorem galoisMul_one (a : Byte) : galoisMul 0x01 a = a := by
  simp [galoisMul, galoisLoop_succ]

theorem galoisMul_two (a : Byte) : galoisMul 0x02 a = xtimeByte a := by
  simp [galoisMul, galoisLoop_succ]

theorem galoisMul_three (a : Byte) : galoisMul 0x03 a = a ^^^ xtimeByte a := by
  simp [galoisMul, galoisLoop_succ]

theorem galoisMul_nine (a : Byte) :
    galoisMul 0x09 a = a ^^^ xtimeByte (xtimeByte (xtimeByte a)) := by
  simp [galoisMul, galoisLoop_succ]

theorem galoisMul_eleven (a : Byte) :
    galoisMul 0x0b a = a ^^^ xtimeByte a ^^^ xtimeByte (xtimeByte (xtimeByte a)) := by
  simp [galoisMul, galoisLoop_succ]

theorem galoisMul_thirteen (a : Byte) : galoisMul 0x0d a =
    a ^^^ xtimeByte (xtimeByte a) ^^^ xtimeByte (xtimeByte (xtimeByte a)) := by
  simp [galoisMul, galoisLoop_succ]

theorem galoisMul_fourteen (a : Byte) : galoisMul 0x0e a =
    xtimeByte a ^^^ xtimeByte (xtimeByte a) ^^^ xtimeByte (xtimeByte (xtimeByte a)) := by
  simp [galoisMul, galoisLoop_succ]

private theorem column_mixWord_eq (d : BitVec 64) (hh : h < 2) (r : Fin 4) :
    column (mixWord d).1 h r = mixColumn tables.mix (column d h) r := by
  have hmix : mixColumn tables.mix (column d h) r =
      galoisMul 0x02 (column d h r) ^^^ galoisMul 0x03 (column d h (r + 1)) ^^^
        galoisMul 0x01 (column d h (r + 2)) ^^^ galoisMul 0x01 (column d h (r + 3)) := rfl
  rw [column_mixWord d hh, hmix, galoisMul_two, galoisMul_three, galoisMul_one, galoisMul_one]
  ac_rfl

private theorem column_invMixWord_eq (d : BitVec 64) (hh : h < 2) (r : Fin 4) :
    column (invMixWord d) h r = mixColumn tables.invMix (column d h) r := by
  have hmix : mixColumn tables.invMix (column d h) r =
      galoisMul 0x0e (column d h r) ^^^ galoisMul 0x0b (column d h (r + 1)) ^^^
        galoisMul 0x0d (column d h (r + 2)) ^^^ galoisMul 0x09 (column d h (r + 3)) := rfl
  rw [column_invMixWord d hh, column_mixWord d hh, hmix, galoisMul_fourteen, galoisMul_eleven,
    galoisMul_thirteen, galoisMul_nine]
  simp only [times8, times4]
  ac_rfl

/-- The words of 32 bits that a list of words of 64 bits holds. -/
def words (w : List (BitVec 64)) : List (Word 8) := w.flatMap fun d => [column d 0, column d 1]

private theorem length_words (w : List (BitVec 64)) : (words w).length = 2 * w.length := by
  induction w with
  | nil => rfl
  | cons d w ih =>
    rw [words, List.flatMap_cons, List.length_append, ← words, ih, List.length_cons]
    exact Nat.add_comm ..

theorem wordAt_words (w : List (BitVec 64)) (i : ℕ) (hh : h < 2) :
    wordAt (words w) (2 * i + h) = column (w.getD i 0) h := by
  induction w generalizing i with
  | nil =>
    funext r
    simp [wordAt, words, column, lane]
  | cons d w ih =>
    cases i with
    | zero =>
      obtain rfl | rfl : h = 0 ∨ h = 1 := by omega
      · rfl
      · rfl
    | succ i =>
      have hindex : 2 * (i + 1) + h = 2 * i + h + 1 + 1 := by omega
      rw [hindex]
      exact ih i

private theorem view_addRoundKey (w : List (BitVec 64)) (i : ℕ) (state : State2) (r c : Fin 4) :
    view (addRoundKey w i state) r c = view state r c ^^^ roundKey (words w) i r c := by
  have hword : 4 * i + c.val = 2 * (2 * i + c.val / 2) + c.val % 2 := by omega
  have hget : (addRoundKey w i state).get ⟨c.val / 2, by omega⟩ =
      state.get ⟨c.val / 2, by omega⟩ ^^^ w.getD (2 * i + c.val / 2) 0 :=
    Vector.getElem_ofFn (by omega)
  rw [roundKey, hword, wordAt_words w _ (Nat.mod_lt _ (by decide)), view_apply, view_apply, hget,
    column_xor]

def machine (w : List (BitVec 64)) : Machine State2 where
  addKey := addRoundKey w
  sub state := state.map subU64
  shift := shiftRow
  mix := mixColumns
  invSub state := state.map invSubU64
  invShift := invShiftRow
  invMix := invMixColumns

private theorem view_map_columns {g : Fin 4 → Byte → Byte}
    (hf : ∀ d, ∀ h < 2, ∀ r, column (f d) h r = mixColumn g (column d h) r) (state : State2)
    (r c : Fin 4) : view (state.map f) r c = mixColumn g (fun r => view state r c) r := by
  have hcolumn : (fun r => view state r c) = column (state.get ⟨c.val / 2, by omega⟩) (c.val % 2) :=
    funext fun r => view_apply state r c
  rw [view_map, hcolumn]
  exact hf _ _ (Nat.mod_lt _ (by decide)) r

theorem simulates (w : List (BitVec 64)) :
    Machine.Simulates view (machine w) (tables.machine (roundKey (words w))) where
  addKey i s := funext₂ fun r c => view_addRoundKey w i s r c
  sub s := funext₂ fun r c => view_map_lanes (fun d _ hi => lane_subU64 d hi) s r c
  shift s := funext₂ fun r c => view_shiftRow s r c
  mix s := funext₂ fun r c => view_map_columns (fun d _ hh => column_mixWord_eq d hh) s r c
  invSub s := funext₂ fun r c => view_map_lanes (fun d _ hi => lane_invSubU64 d hi) s r c
  invShift s := funext₂ fun r c => view_invShiftRow s r c
  invMix s := funext₂ fun r c => view_map_columns (fun d _ hh => column_invMixWord_eq d hh) s r c

theorem square_cipher (w : List (BitVec 64)) (nr : ℕ) (b : Block 16) :
    square (cipher b w nr) = (tables.machine (roundKey (words w))).encrypt nr (square b) := by
  rw [← view_ofBytes b, ← (simulates w).encrypt]
  rfl

theorem square_invCipher (w : List (BitVec 64)) (nr : ℕ) (b : Block 16) :
    square (invCipher b w nr) = (tables.machine (roundKey (words w))).decrypt nr (square b) := by
  rw [← view_ofBytes b, ← (simulates w).decrypt]
  rfl

theorem lane_halves_l (d : BitVec 64) (r : Fin 4) : lane 8 (halves d).l r = column d 0 r := by
  apply eq_of_getLsbD_eq
  intro j hj
  rw [column, getLsbD_lane _ _ hj, getLsbD_lane _ _ hj]
  simp [halves]
  omega

theorem lane_halves_h (d : BitVec 64) (r : Fin 4) : lane 8 (halves d).h r = column d 1 r := by
  apply eq_of_getLsbD_eq
  intro j hj
  have hplace : 32 + (8 * r.val + j) = 8 * (4 * 1 + r.val) + j := by omega
  rw [column, getLsbD_lane _ _ hj, getLsbD_lane _ _ hj]
  simp [halves, hplace]
  omega

private theorem lane_rotWord (x : BitVec 32) (r : Fin 4) :
    lane 8 (rotWord x) r = lane 8 x (r + 1 : Fin 4) := by
  refine (InternalAes.lane_u32 _ r).trans ?_
  fin_cases r <;> rfl

def rconAt (n i : ℕ) : Word 8 := fun r => if r.val = 0 then tables.rcon ((i - 1) / n) else 0

private theorem rconAt_succ (hn : 1 < n) (hi : 0 < i) (hlast : i < 30) (r : Fin 4) :
    rconAt n (i + 1) r = if i % n = 0 then xtimeByte (rconAt n i r) else rconAt n i r := by
  have hdouble : ∀ k < 14, xtimeByte (tables.rcon k) = tables.rcon (k + 1) := by decide +kernel
  have hzero : xtimeByte 0 = 0 := by decide
  obtain ⟨a, rfl⟩ : ∃ a, i = a + 1 := ⟨i - 1, by omega⟩
  simp only [rconAt, Nat.add_sub_cancel]
  -- The index is that of the words of the plain build, two of which are written in a turn.
  by_cases hmod : (a + 1) % n = 0
  · have hdiv : (a + 1) / n = a / n + 1 := Nat.succ_div_of_mod_eq_zero hmod
    have hle : (a + 1) / n ≤ (a + 1) / 2 := Nat.div_le_div_left hn (by decide)
    rw [if_pos hmod, hdiv]
    split
    · rw [hdouble _ (by omega)]
    · rw [hzero]
  · rw [if_neg hmod, Nat.succ_div_of_mod_ne_zero hmod]

private theorem lane_turnTemp (hrcon : ∀ r : Fin 4, lane 8 rcon r = rconAt n i r) (temp : BitVec 32)
    (r : Fin 4) : lane 8 (turnTemp (2 * n) i temp rcon).1 r =
      tables.temp (2 * n) (2 * i) (fun r => lane 8 temp r) r := by
  have hhalf : 2 * n / 2 = n := Nat.mul_div_cancel_left n (by decide)
  have hmod : 2 * i % (2 * n) = 2 * (i % n) := Nat.mul_mod_mul_left 2 i n
  have hindex : (2 * i - 1) / (2 * n) = (i - 1) / n := by
    rw [← Nat.div_div_eq_div_mul, show (2 * i - 1) / 2 = i - 1 by omega]
  have hzero : 2 * (i % n) = 0 ↔ i % n = 0 := by omega
  have hfour : 2 * (i % n) = 4 ↔ i % n = 2 := by omega
  simp only [turnTemp, Tables.temp, hhalf, hmod, hindex, hzero, hfour]
  split
  · rw [lane_xor, lane_subU32 _ r.isLt, lane_rotWord, hrcon]
    simp only [rconAt, Fin.val_eq_zero_iff]
    rfl
  · split
    · exact lane_subU32 _ r.isLt
    · rfl

private theorem lane_turnTemp_rcon (hn : 1 < n) (hi : 0 < i) (hlast : i < 30)
    (hrcon : ∀ r : Fin 4, lane 8 rcon r = rconAt n i r) (temp : BitVec 32) (r : Fin 4) :
    lane 8 (turnTemp (2 * n) i temp rcon).2 r = rconAt n (i + 1) r := by
  have hhalf : 2 * n / 2 = n := Nat.mul_div_cancel_left n (by decide)
  rw [rconAt_succ hn hi hlast, turnTemp, hhalf]
  split
  · rw [lane_xtimeU32 _ r.isLt, hrcon]
  · split
    · exact hrcon r
    · exact hrcon r

structure Expanding (n i : ℕ) (s : Expansion) : Prop where
  length : s.w.length = i
  prev : s.prev = s.w.getD (i - 1) 0
  rcon : ∀ r : Fin 4, lane 8 s.rcon r = rconAt n i r

theorem Expanding.step (h : Expanding n i s) (hn : 1 < n) (hi : n ≤ i)
    (hlast : i < 30) : Expanding n (i + 1) (expandStep (2 * n) s i) where
  length := by
    rw [← h.length]
    exact List.length_append
  prev := by
    rw [Nat.add_sub_cancel, ← h.length]
    simp [expandStep]
  rcon r := lane_turnTemp_rcon hn (by omega) hlast h.rcon _ r

theorem words_append (w : List (BitVec 64)) (d : BitVec 64) :
    words (w ++ [d]) = words w ++ [column d 0] ++ [column d 1] := by
  rw [words, List.flatMap_append, ← words, List.append_assoc]
  rfl

theorem halves_prev (n i : ℕ) (s : Expansion) : let x := halves (s.w.getD (i - n) 0)
    let temp := (turnTemp (2 * n) i (halves s.prev).h s.rcon).1
    halves (expandStep (2 * n) s i).prev = ⟨x.l ^^^ temp, x.h ^^^ (x.l ^^^ temp)⟩ := by
  have hhalf : 2 * n / 2 = n := Nat.mul_div_cancel_left n (by decide)
  simp only [expandStep, hhalf, halves_ofHalves]

theorem Expanding.column_zero (h : Expanding n i s) (r : Fin 4) :
    column (expandStep (2 * n) s i).prev 0 r = column (s.w.getD (i - n) 0) 0 r ^^^
      tables.temp (2 * n) (2 * i) (column s.prev 1) r := by
  have hlast : (fun r : Fin 4 => lane 8 (halves s.prev).h r) = column s.prev 1 :=
    funext (lane_halves_h s.prev)
  rw [← lane_halves_l, halves_prev, lane_xor, lane_halves_l, lane_turnTemp h.rcon, hlast]

private theorem column_one (n i : ℕ) (s : Expansion) (r : Fin 4) :
    column (expandStep (2 * n) s i).prev 1 r = column (s.w.getD (i - n) 0) 1 r ^^^
      column (expandStep (2 * n) s i).prev 0 r := by
  rw [← lane_halves_h, ← lane_halves_l, halves_prev, lane_xor, lane_halves_h]

theorem Expanding.words_step (h : Expanding n i s) (hn : 1 < n)
    (hi : n ≤ i) : words (expandStep (2 * n) s i).w = tables.expand (2 * n) 2 (words s.w) := by
  have hlen : (words s.w).length = 2 * i := by rw [length_words, h.length]
  have hfirst : tables.nextWord (2 * n) (words s.w) = column (expandStep (2 * n) s i).prev 0 := by
    funext r
    rw [Tables.nextWord, hlen, show 2 * i - 2 * n = 2 * (i - n) + 0 by omega,
      show 2 * i - 1 = 2 * (i - 1) + 1 by omega, wordAt_words _ _ (by decide),
      wordAt_words _ _ (by decide), ← h.prev, h.column_zero]
  have hsecond : tables.nextWord (2 * n) (words s.w ++ [column (expandStep (2 * n) s i).prev 0]) =
      column (expandStep (2 * n) s i).prev 1 := by
    funext r
    -- The index of the second word is odd, so that the first one is added as it is.
    rw [Tables.nextWord, List.length_append, hlen, List.length_singleton, Tables.temp_odd,
      Nat.add_sub_cancel, ← hlen, wordAt_append_length, hlen,
      show 2 * i + 1 - 2 * n = 2 * (i - n) + 1 by omega, wordAt_append_left _ (by omega),
      wordAt_words _ _ (by decide), column_one]
  rw [show (expandStep (2 * n) s i).w = s.w ++ [(expandStep (2 * n) s i).prev] from rfl,
    words_append, ← hsecond, ← hfirst]
  rfl

theorem Expanding.words_foldl {m : ℕ} (h : Expanding n i s) (hn : 1 < n) (hi : n ≤ i)
    (hlast : i + m ≤ 30) : words ((List.range' i m).foldl (expandStep (2 * n)) s).w =
      tables.expand (2 * n) (2 * m) (words s.w) := by
  induction m generalizing i s with
  | zero => rfl
  | succ m ih =>
    have hstep := h.step hn hi (by omega)
    rw [List.range'_succ, List.foldl_cons, ih hstep (by omega) (by omega), h.words_step hn hi,
      ← Tables.expand_add, Nat.mul_succ, Nat.add_comm]

private theorem words_keyBlocks (key : List Byte) (n : ℕ) :
    words (keyBlocks key (2 * n)) = keyWords key (2 * n) := by
  have hhalf : ∀ n, 2 * n / 2 = n := fun n => Nat.mul_div_cancel_left n (by decide)
  induction n with
  | zero => rfl
  | succ n ih =>
    have hblocks : keyBlocks key (2 * (n + 1)) = keyBlocks key (2 * n) ++
        [u64 (Vector.ofFn fun k => key.getD (8 * n + k.val) 0)] := by
      rw [keyBlocks, keyBlocks, hhalf, hhalf, List.range_succ, List.map_append]
      rfl
    have hword : ∀ h < 2, column (u64 (Vector.ofFn fun k => key.getD (8 * n + k.val) 0)) h =
        fun r : Fin 4 => key.getD (4 * (2 * n + h) + r.val) 0 := by
      intro h hh
      funext r
      refine (lane_u64 _ ⟨4 * h + r.val, by omega⟩).trans ?_
      refine (Vector.getElem_ofFn _).trans ?_
      have hbyte : 8 * n + (4 * h + r.val) = 4 * (2 * n + h) + r.val := by omega
      exact congrArg (key.getD · 0) hbyte
    have hwords : keyWords key (2 * (n + 1)) = keyWords key (2 * n) ++
        [fun r => key.getD (4 * (2 * n + 0) + r.val) 0] ++
        [fun r => key.getD (4 * (2 * n + 1) + r.val) 0] := by
      rw [keyWords, show 2 * (n + 1) = 2 * n + 1 + 1 by omega, List.range_succ, List.range_succ,
        List.map_append, List.map_append]
      rfl
    rw [hblocks, words_append, ih, hword 0 (by decide), hword 1 (by decide), hwords]

private theorem expanding_start (key : List Byte) (hn : 1 < n) :
    Expanding n n ⟨keyBlocks key (2 * n), (keyBlocks key (2 * n)).getD (n - 1) 0,
      u32 #v[1, 0, 0, 0]⟩ where
  length := by
    rw [keyBlocks, List.length_map, List.length_range, Nat.mul_div_cancel_left n (by decide)]
  prev := rfl
  rcon r := by
    rw [rconAt, Nat.div_eq_of_lt (by omega)]
    refine (InternalAes.lane_u32 _ r).trans ?_
    fin_cases r <;> rfl

private theorem words_keyExpansion (key : List Byte) (nr : ℕ) (hn : 1 < n) (hnr : nr ≤ 14)
    (hlast : n ≤ 2 * (nr + 1)) : words (keyExpansion key nr (2 * n)) =
      tables.expand (2 * n) (4 * (nr + 1) - 2 * n) (keyWords key (2 * n)) := by
  have hhalf : 2 * n / 2 = n := Nat.mul_div_cancel_left n (by decide)
  have hcount : 4 * (nr + 1) - 2 * n = 2 * ((nr + 1) * 2 - n) := by omega
  rw [keyExpansion, hhalf, hcount, ← words_keyBlocks]
  exact (expanding_start key hn).words_foldl hn (Nat.le_refl n) (by omega)

variable (bits : KeyBits) (key : List Byte)

include bits key

theorem words_setKey : words (setKey bits key).rk = schedule bits key := by
  cases bits with
  | bits128 => exact words_keyExpansion key 10 (n := 2) (by decide) (by decide) (by decide)
  | bits192 => exact words_keyExpansion key 12 (n := 3) (by decide) (by decide) (by decide)
  | bits256 => exact words_keyExpansion key 14 (n := 4) (by decide) (by decide) (by decide)

theorem rounds_setKey : (setKey bits key).rounds = (sizes bits).1 := by
  cases bits with
  | bits128 => rfl
  | bits192 => rfl
  | bits256 => rfl

theorem square_encrypt (b : Block 16) : square (code.encrypt (code.expandKey bits key) b) =
      (tables.machine (roundKey (schedule bits key))).encrypt (sizes bits).1 (square b) := by
  rw [← words_setKey, ← rounds_setKey bits key]
  exact square_cipher ..

theorem square_decrypt (b : Block 16) : square (code.decrypt (code.expandKey bits key) b) =
      (tables.machine (roundKey (schedule bits key))).decrypt (sizes bits).1 (square b) := by
  rw [← words_setKey, ← rounds_setKey bits key]
  exact square_invCipher ..

end MuggleC.Crypt.OpensslAes
