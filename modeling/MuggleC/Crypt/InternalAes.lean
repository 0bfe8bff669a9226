/- source: crypt/internal/internal_aes.c, crypt/aes.c
   digest: AES of the plain build: tables, and a state of bytes with the rows of the square one
   after another. -/

import MuggleC.Crypt.Modes
import MuggleC.Foundation.Rijndael

set_option autoImplicit false

namespace MuggleC.Crypt.InternalAes

open Base Crypt.Modes Crypt.Words Foundation Foundation.Lanes Foundation.Rijndael List BitVec

def sboxTable : List ℕ :=
  [0x63, 0x7c, 0x77, 0x7b, 0xf2, 0x6b, 0x6f, 0xc5, 0x30, 0x01, 0x67, 0x2b, 0xfe, 0xd7, 0xab, 0x76,
   0xca, 0x82, 0xc9, 0x7d, 0xfa, 0x59, 0x47, 0xf0, 0xad, 0xd4, 0xa2, 0xaf, 0x9c, 0xa4, 0x72, 0xc0,
   0xb7, 0xfd, 0x93, 0x26, 0x36, 0x3f, 0xf7, 0xcc, 0x34, 0xa5, 0xe5, 0xf1, 0x71, 0xd8, 0x31, 0x15,
   0x04, 0xc7, 0x23, 0xc3, 0x18, 0x96, 0x05, 0x9a, 0x07, 0x12, 0x80, 0xe2, 0xeb, 0x27, 0xb2, 0x75,
   0x09, 0x83, 0x2c, 0x1a, 0x1b, 0x6e, 0x5a, 0xa0, 0x52, 0x3b, 0xd6, 0xb3, 0x29, 0xe3, 0x2f, 0x84,
   0x53, 0xd1, 0x00, 0xed, 0x20, 0xfc, 0xb1, 0x5b, 0x6a, 0xcb, 0xbe, 0x39, 0x4a, 0x4c, 0x58, 0xcf,
   0xd0, 0xef, 0xaa, 0xfb, 0x43, 0x4d, 0x33, 0x85, 0x45, 0xf9, 0x02, 0x7f, 0x50, 0x3c, 0x9f, 0xa8,
   0x51, 0xa3, 0x40, 0x8f, 0x92, 0x9d, 0x38, 0xf5, 0xbc, 0xb6, 0xda, 0x21, 0x10, 0xff, 0xf3, 0xd2,
   0xcd, 0x0c, 0x13, 0xec, 0x5f, 0x97, 0x44, 0x17, 0xc4, 0xa7, 0x7e, 0x3d, 0x64, 0x5d, 0x19, 0x73,
   0x60, 0x81, 0x4f, 0xdc, 0x22, 0x2a, 0x90, 0x88, 0x46, 0xee, 0xb8, 0x14, 0xde, 0x5e, 0x0b, 0xdb,
   0xe0, 0x32, 0x3a, 0x0a, 0x49, 0x06, 0x24, 0x5c, 0xc2, 0xd3, 0xac, 0x62, 0x91, 0x95, 0xe4, 0x79,
   0xe7, 0xc8, 0x37, 0x6d, 0x8d, 0xd5, 0x4e, 0xa9, 0x6c, 0x56, 0xf4, 0xea, 0x65, 0x7a, 0xae, 0x08,
   0xba, 0x78, 0x25, 0x2e, 0x1c, 0xa6, 0xb4, 0xc6, 0xe8, 0xdd, 0x74, 0x1f, 0x4b, 0xbd, 0x8b, 0x8a,
   0x70, 0x3e, 0xb5, 0x66, 0x48, 0x03, 0xf6, 0x0e, 0x61, 0x35, 0x57, 0xb9, 0x86, 0xc1, 0x1d, 0x9e,
   0xe1, 0xf8, 0x98, 0x11, 0x69, 0xd9, 0x8e, 0x94, 0x9b, 0x1e, 0x87, 0xe9, 0xce, 0x55, 0x28, 0xdf,
   0x8c, 0xa1, 0x89, 0x0d, 0xbf, 0xe6, 0x42, 0x68, 0x41, 0x99, 0x2d, 0x0f, 0xb0, 0x54, 0xbb, 0x16]

def invSboxTable : List ℕ :=
  [0x52, 0x09, 0x6a, 0xd5, 0x30, 0x36, 0xa5, 0x38, 0xbf, 0x40, 0xa3, 0x9e, 0x81, 0xf3, 0xd7, 0xfb,
   0x7c, 0xe3, 0x39, 0x82, 0x9b, 0x2f, 0xff, 0x87, 0x34, 0x8e, 0x43, 0x44, 0xc4, 0xde, 0xe9, 0xcb,
   0x54, 0x7b, 0x94, 0x32, 0xa6, 0xc2, 0x23, 0x3d, 0xee, 0x4c, 0x95, 0x0b, 0x42, 0xfa, 0xc3, 0x4e,
   0x08, 0x2e, 0xa1, 0x66, 0x28, 0xd9, 0x24, 0xb2, 0x76, 0x5b, 0xa2, 0x49, 0x6d, 0x8b, 0xd1, 0x25,
   0x72, 0xf8, 0xf6, 0x64, 0x86, 0x68, 0x98, 0x16, 0xd4, 0xa4, 0x5c, 0xcc, 0x5d, 0x65, 0xb6, 0x92,
   0x6c, 0x70, 0x48, 0x50, 0xfd, 0xed, 0xb9, 0xda, 0x5e, 0x15, 0x46, 0x57, 0xa7, 0x8d, 0x9d, 0x84,
   0x90, 0xd8, 0xab, 0x00, 0x8c, 0xbc, 0xd3, 0x0a, 0xf7, 0xe4, 0x58, 0x05, 0xb8, 0xb3, 0x45, 0x06,
   0xd0, 0x2c, 0x1e, 0x8f, 0xca, 0x3f, 0x0f, 0x02, 0xc1, 0xaf, 0xbd, 0x03, 0x01, 0x13, 0x8a, 0x6b,
   0x3a, 0x91, 0x11, 0x41, 0x4f, 0x67, 0xdc, 0xea, 0x97, 0xf2, 0xcf, 0xce, 0xf0, 0xb4, 0xe6, 0x73,
   0x96, 0xac, 0x74, 0x22, 0xe7, 0xad, 0x35, 0x85, 0xe2, 0xf9, 0x37, 0xe8, 0x1c, 0x75, 0xdf, 0x6e,
   0x47, 0xf1, 0x1a, 0x71, 0x1d, 0x29, 0xc5, 0x89, 0x6f, 0xb7, 0x62, 0x0e, 0xaa, 0x18, 0xbe, 0x1b,
   0xfc, 0x56, 0x3e, 0x4b, 0xc6, 0xd2, 0x79, 0x20, 0x9a, 0xdb, 0xc0, 0xfe, 0x78, 0xcd, 0x5a, 0xf4,
   0x1f, 0xdd, 0xa8, 0x33, 0x88, 0x07, 0xc7, 0x31, 0xb1, 0x12, 0x10, 0x59, 0x27, 0x80, 0xec, 0x5f,
   0x60, 0x51, 0x7f, 0xa9, 0x19, 0xb5, 0x4a, 0x0d, 0x2d, 0xe5, 0x7a, 0x9f, 0x93, 0xc9, 0x9c, 0xef,
   0xa0, 0xe0, 0x3b, 0x4d, 0xae, 0x2a, 0xf5, 0xb0, 0xc8, 0xeb, 0xbb, 0x3c, 0x83, 0x53, 0x99, 0x61,
   0x17, 0x2b, 0x04, 0x7e, 0xba, 0x77, 0xd6, 0x26, 0xe1, 0x69, 0x14, 0x63, 0x55, 0x21, 0x0c, 0x7d]

def mixTable : List Byte :=
  [0x02, 0x03, 0x01, 0x01,
   0x01, 0x02, 0x03, 0x01,
   0x01, 0x01, 0x02, 0x03,
   0x03, 0x01, 0x01, 0x02]

def invMixTable : List Byte :=
  [0x0e, 0x0b, 0x0d, 0x09,
   0x09, 0x0e, 0x0b, 0x0d,
   0x0d, 0x09, 0x0e, 0x0b,
   0x0b, 0x0d, 0x09, 0x0e]

def rconTable : List (BitVec 32) :=
  [0x01000000, 0x02000000, 0x04000000, 0x08000000, 0x10000000, 0x20000000, 0x40000000,
   0x80000000, 0x1b000000, 0x36000000, 0x6c000000, 0xd8000000, 0xab000000, 0x4d000000,
   0x9a000000]

def sbox (b : Byte) : Byte := BitVec.ofNat 8 (sboxTable.getD b.toNat 0)

def invSbox (b : Byte) : Byte := BitVec.ofNat 8 (invSboxTable.getD b.toNat 0)

/-- `muggle_aes_subkeys_t`, with the entries of `rd_key` that have been written. -/
structure Subkeys where
  rdKey : List (BitVec 32)
  rounds : ℕ

/-- The loop of `galois_mul`, which ends when no bit of `a` is left. -/
def galoisLoop : ℕ → Byte → Byte → Byte → Byte
  | 0, _, _, r => r
  | n + 1, a, b, r =>
    if a = 0 then r
    else
      let r := if a &&& 0x01 ≠ 0 then r ^^^ b else r
      let t := b &&& 0x80
      let b := b <<< 1
      let b := if t ≠ 0 then b ^^^ 0x1b else b
      galoisLoop n (a >>> 1) b r

/-- `galois_mul`. A byte has no bit left after eight turns. -/
def galoisMul (a b : Byte) : Byte := galoisLoop 8 a b 0

private theorem galoisLoop_zero (n : ℕ) (b r : Byte) : galoisLoop n 0 b r = r := by
  cases n with
  | zero => rfl
  | succ n => rfl

private theorem galoisLoop_add {n : ℕ} {a : Byte} (h : a.toNat < 2 ^ n) (m : ℕ) (b r : Byte) :
    galoisLoop (n + m) a b r = galoisLoop n a b r := by
  induction n generalizing a b r with
  | zero =>
    have hzero : a = 0 := eq_of_toNat_eq (Nat.lt_one_iff.mp h)
    rw [hzero, galoisLoop_zero, galoisLoop_zero]
  | succ n ih =>
    have hhalf : (a >>> 1).toNat < 2 ^ n := by
      rw [toNat_ushiftRight, Nat.shiftRight_eq_div_pow]
      omega
    rw [Nat.succ_add, galoisLoop, galoisLoop]
    split
    · rfl
    · exact ih hhalf _ _

theorem galoisMul_eq (m : ℕ) (a b : Byte) : galoisLoop (8 + m) a b 0 = galoisMul a b :=
  galoisLoop_add a.isLt m b 0

/-- `muggle_aes_add_round_key` with `&rd_key[4 * i]`: row `r` gets byte `r` of each of the words. -/
def addRoundKey (sk : Subkeys) (i : ℕ) (state : Block 16) : Block 16 :=
  Vector.ofFn fun k => state.get k ^^^
    (sk.rdKey.getD (4 * i + k.val % 4) 0 >>> (8 * (3 - k.val / 4)) &&& 0xff).setWidth 8

def subBytes (state : Block 16) : Block 16 := state.map sbox

def invSubBytes (state : Block 16) : Block 16 := state.map invSbox

def shiftRows (state : Block 16) : Block 16 :=
  #v[state[0], state[1], state[2], state[3],
    state[5], state[6], state[7], state[4],
    state[10], state[11], state[8], state[9],
    state[15], state[12], state[13], state[14]]

def invShiftRows (state : Block 16) : Block 16 :=
  #v[state[0], state[1], state[2], state[3],
    state[7], state[4], state[5], state[6],
    state[10], state[11], state[8], state[9],
    state[13], state[14], state[15], state[12]]

local instance neZero_four : NeZero 4 := ⟨by decide⟩

def mixWith (m : List Byte) (arr : Block 16) : Block 16 :=
  Vector.ofFn fun idx =>
    let i := idx.val / 4
    let j : Fin 4 := ⟨idx.val % 4, Nat.mod_lt _ (by decide)⟩
    let term := fun k : Fin 4 =>
      galoisMul (m.getD (4 * i + k.val) 0) (arr.get ⟨4 * k.val + j.val, by omega⟩)
    term 0 ^^^ term 1 ^^^ term 2 ^^^ term 3

def mixColumn : Block 16 → Block 16 := mixWith mixTable

def invMixColumn : Block 16 → Block 16 := mixWith invMixTable

def rotWord (word : BitVec 32) : BitVec 32 :=
  u32 #v[lane 8 word 3, lane 8 word 0, lane 8 word 1, lane 8 word 2]

def subWord (word : BitVec 32) : BitVec 32 :=
  u32 #v[sbox (lane 8 word 0), sbox (lane 8 word 1), sbox (lane 8 word 2), sbox (lane 8 word 3)]

def sizes : KeyBits → ℕ × ℕ
  | .bits128 => (10, 4)
  | .bits192 => (12, 6)
  | .bits256 => (14, 8)

def keyWord (key : List Byte) (i : ℕ) : BitVec 32 :=
  (key.getD (4 * i + 0) 0).setWidth 32 <<< 24 ||| (key.getD (4 * i + 1) 0).setWidth 32 <<< 16 |||
    (key.getD (4 * i + 2) 0).setWidth 32 <<< 8 ||| (key.getD (4 * i + 3) 0).setWidth 32

def expandStep (nk : ℕ) (rdKey : List (BitVec 32)) (i : ℕ) : List (BitVec 32) :=
  let temp := rdKey.getD (i - 1) 0
  let temp :=
    if i % nk = 0 then subWord (rotWord temp) ^^^ rconTable.getD ((i - 1) / nk) 0
    else if 6 < nk ∧ i % nk = 4 then subWord temp
    else temp
  rdKey ++ [rdKey.getD (i - nk) 0 ^^^ temp]

/-- The key expansion of `muggle_aes_set_key`. -/
def expandKey (bits : KeyBits) (key : List Byte) : Subkeys :=
  let (nr, nk) := sizes bits
  let rdKey := (List.range nk).map (keyWord key)
  ⟨(List.range' nk (4 * (nr + 1) - nk)).foldl (expandStep nk) rdKey, nr⟩

def encRound (sk : Subkeys) (i : ℕ) (state : Block 16) : Block 16 :=
  addRoundKey sk i (mixColumn (shiftRows (subBytes state)))

def encLastRound (sk : Subkeys) (i : ℕ) (state : Block 16) : Block 16 :=
  addRoundKey sk i (shiftRows (subBytes state))

def decLastRound (sk : Subkeys) (i : ℕ) (state : Block 16) : Block 16 :=
  invSubBytes (invShiftRows (addRoundKey sk i state))

def decRound (sk : Subkeys) (i : ℕ) (state : Block 16) : Block 16 :=
  invSubBytes (invShiftRows (invMixColumn (addRoundKey sk i state)))

def checkRounds (sk : Subkeys) : Except Err Unit :=
  checkRet (sk.rounds = 10 ∨ sk.rounds = 12 ∨ sk.rounds = 14) .invalidParam

def aesEncrypt (sk : Subkeys) (state : Block 16) : Except Err (Block 16) := do
  checkRounds sk
  let state := addRoundKey sk 0 state
  let state := encRound sk 1 state
  let state := encRound sk 2 state
  let state := encRound sk 3 state
  let state := encRound sk 4 state
  let state := encRound sk 5 state
  let state := encRound sk 6 state
  let state := encRound sk 7 state
  let state := encRound sk 8 state
  let state := encRound sk 9 state
  if sk.rounds = 10 then
    pure (encLastRound sk 10 state)
  else
    let state := encRound sk 10 state
    let state := encRound sk 11 state
    if sk.rounds = 12 then
      pure (encLastRound sk 12 state)
    else
      let state := encRound sk 12 state
      let state := encRound sk 13 state
      pure (encLastRound sk 14 state)

def aesDecrypt (sk : Subkeys) (state : Block 16) : Except Err (Block 16) := do
  checkRounds sk
  let state :=
    if 10 < sk.rounds then
      let state :=
        if sk.rounds = 14 then
          let state := decLastRound sk 14 state
          let state := decRound sk 13 state
          decRound sk 12 state
        else
          decLastRound sk 12 state
      let state := decRound sk 11 state
      decRound sk 10 state
    else
      decLastRound sk 10 state
  let state := decRound sk 9 state
  let state := decRound sk 8 state
  let state := decRound sk 7 state
  let state := decRound sk 6 state
  let state := decRound sk 5 state
  let state := decRound sk 4 state
  let state := decRound sk 3 state
  let state := decRound sk 2 state
  let state := decRound sk 1 state
  pure (addRoundKey sk 0 state)

def transpose (b : Block 16) : Block 16 :=
  #v[b[0], b[4], b[8], b[12],
    b[1], b[5], b[9], b[13],
    b[2], b[6], b[10], b[14],
    b[3], b[7], b[11], b[15]]

/-- `muggle_aes_crypt` with the function for the operation. -/
def crypt (f : Block 16 → Except Err (Block 16)) (input : Block 16) : Block 16 :=
  let state := transpose input
  match f state with
  | .ok state => transpose state
  | .error _ => transpose state

/-- The functions of the plain build. -/
def code : AesCode Subkeys where
  expandKey := expandKey
  encrypt sk := crypt (aesEncrypt sk)
  decrypt sk := crypt (aesDecrypt sk)

def place (r c : Fin 4) : Fin 16 := ⟨4 * c.val + r.val, by omega⟩

def square (b : Block 16) : State 8 := fun r c => b.get (place r c)

def view (state : Block 16) : State 8 := fun r c => state.get (place c r)

def wordView (w : BitVec 32) : Word 8 := fun r => lane 8 w (3 - r.val)

def words (rdKey : List (BitVec 32)) : List (Word 8) := rdKey.map wordView

def tables : Tables 8 where
  sub := sbox
  invSub := invSbox
  mix k := galoisMul (mixTable.getD k 0)
  invMix k := galoisMul (invMixTable.getD k 0)
  rcon k := lane 8 (rconTable.getD k 0) 3

def machine (sk : Subkeys) : Machine (Block 16) where
  addKey := addRoundKey sk
  sub := subBytes
  shift := shiftRows
  mix := mixColumn
  invSub := invSubBytes
  invShift := invShiftRows
  invMix := invMixColumn

theorem wordAt_words (rdKey : List (BitVec 32)) (i : ℕ) :
    wordAt (words rdKey) i = wordView (rdKey.getD i 0) := by
  have hzero : wordView 0 = fun _ => 0 := by
    funext r
    simp [wordView, lane]
  rw [wordAt, words, getD_eq_getElem?_getD, getD_eq_getElem?_getD, getElem?_map,
    ← hzero, Option.getD_map]

private theorem ushiftRight_and_setWidth (w : BitVec 32) (j : ℕ) :
    (w >>> (8 * j) &&& 0xff).setWidth 8 = lane 8 w j := by
  apply eq_of_getLsbD_eq
  intro i hi
  have hmask : ∀ i < 8, (0xff : BitVec 32).getLsbD i = true := by decide
  rw [getLsbD_lane _ _ hi, getLsbD_setWidth, getLsbD_and, getLsbD_ushiftRight, hmask i hi]
  simp [hi]

private theorem view_addRoundKey (sk : Subkeys) (i : ℕ) (state : Block 16) (r c : Fin 4) :
    view (addRoundKey sk i state) r c = view state r c ^^^ roundKey (words sk.rdKey) i r c := by
  have hrow : (4 * r.val + c.val) / 4 = r.val := by omega
  have hcol : (4 * r.val + c.val) % 4 = c.val := by omega
  have hget := Vector.getElem_ofFn (f := fun k : Fin 16 => state.get k ^^^
    (sk.rdKey.getD (4 * i + k.val % 4) 0 >>> (8 * (3 - k.val / 4)) &&& 0xff).setWidth 8)
    (place c r).isLt
  rw [roundKey, wordAt_words]
  refine hget.trans ?_
  simp only [ushiftRight_and_setWidth, place, hrow, hcol]
  rfl

private theorem view_map (f : Byte → Byte) (state : Block 16) (r c : Fin 4) :
    view (state.map f) r c = f (view state r c) :=
  Vector.getElem_map f (place c r).isLt

private theorem view_shiftRows (state : Block 16) (r c : Fin 4) :
    view (shiftRows state) r c = view state r (c + r) := by
  fin_cases r <;> fin_cases c <;> rfl

private theorem view_invShiftRows (state : Block 16) (r c : Fin 4) :
    view (invShiftRows state) r c = view state r (c - r) := by
  fin_cases r <;> fin_cases c <;> rfl

def Circulant (m : List Byte) : Prop :=
  ∀ r k : Fin 4, m.getD (4 * r.val + (r + k).val) 0 = m.getD k.val 0

private theorem view_mixWith {m : List Byte} (hm : Circulant m) (state : Block 16) (r c : Fin 4) :
    view (mixWith m state) r c =
      Rijndael.mixColumn (fun k => galoisMul (m.getD k 0)) (fun r => view state r c) r := by
  let f : Word 8 := fun k => galoisMul (m.getD (4 * r.val + k.val) 0) (view state k c)
  have hget : view (mixWith m state) r c = f 0 ^^^ f 1 ^^^ f 2 ^^^ f 3 := by
    refine (Vector.getElem_ofFn (place c r).isLt).trans ?_
    have hrow : (4 * r.val + c.val) / 4 = r.val := by omega
    have hcol : (4 * r.val + c.val) % 4 = c.val := by omega
    simp only [place, hrow, hcol]
    rfl
  have hterm : ∀ k : Fin 4, f (r + k) = galoisMul (m.getD k 0) (view state (r + k) c) := by
    intro k
    rw [← hm r k]
  have hfirst : f r = galoisMul (m.getD (0 : Fin 4) 0) (view state r c) := by
    have h := hterm 0
    rwa [Fin.add_zero] at h
  rw [hget, ← xor_rotate f r, hfirst, hterm, hterm, hterm]
  rfl

private theorem circulant_mixTable : Circulant mixTable := by
  unfold Circulant
  decide

private theorem circulant_invMixTable : Circulant invMixTable := by
  unfold Circulant
  decide

theorem simulates (sk : Subkeys) :
    Machine.Simulates view (machine sk) (tables.machine (roundKey (words sk.rdKey))) where
  addKey i s := funext₂ fun r c => view_addRoundKey sk i s r c
  sub s := funext₂ fun r c => view_map sbox s r c
  shift s := funext₂ fun r c => view_shiftRows s r c
  mix s := funext₂ fun r c => view_mixWith circulant_mixTable s r c
  invSub s := funext₂ fun r c => view_map invSbox s r c
  invShift s := funext₂ fun r c => view_invShiftRows s r c
  invMix s := funext₂ fun r c => view_mixWith circulant_invMixTable s r c

set_option maxRecDepth 2000 in
private theorem aesEncrypt_eq {sk : Subkeys} (h : sk.rounds = 10 ∨ sk.rounds = 12 ∨ sk.rounds = 14)
    (state : Block 16) : aesEncrypt sk state = .ok ((machine sk).encrypt sk.rounds state) := by
  obtain ⟨rdKey, rounds⟩ := sk
  rcases h with rfl | rfl | rfl
  · rfl
  · rfl
  · rfl

set_option maxRecDepth 2000 in
private theorem aesDecrypt_eq {sk : Subkeys} (h : sk.rounds = 10 ∨ sk.rounds = 12 ∨ sk.rounds = 14)
    (state : Block 16) : aesDecrypt sk state = .ok ((machine sk).decrypt sk.rounds state) := by
  obtain ⟨rdKey, rounds⟩ := sk
  rcases h with rfl | rfl | rfl
  · rfl
  · rfl
  · rfl

theorem view_transpose (b : Block 16) : view (transpose b) = square b := by
  funext r c
  fin_cases r <;> fin_cases c <;> rfl

theorem square_transpose (state : Block 16) : square (transpose state) = view state := by
  funext r c
  fin_cases r <;> fin_cases c <;> rfl

theorem square_crypt_encrypt {sk : Subkeys} (h : sk.rounds = 10 ∨ sk.rounds = 12 ∨ sk.rounds = 14)
    (b : Block 16) : square (code.encrypt sk b) =
      (tables.machine (roundKey (words sk.rdKey))).encrypt sk.rounds (square b) := by
  rw [← view_transpose b, ← (simulates sk).encrypt, ← square_transpose]
  simp only [code, crypt, aesEncrypt_eq h]

theorem square_crypt_decrypt {sk : Subkeys} (h : sk.rounds = 10 ∨ sk.rounds = 12 ∨ sk.rounds = 14)
    (b : Block 16) : square (code.decrypt sk b) =
      (tables.machine (roundKey (words sk.rdKey))).decrypt sk.rounds (square b) := by
  rw [← view_transpose b, ← (simulates sk).decrypt, ← square_transpose]
  simp only [code, crypt, aesDecrypt_eq h]

theorem lane_u32 (b : Block 4) (i : Fin 4) : lane 8 (u32 b) i = b.get i := lane_join b.get i

theorem wordView_xor (a b : BitVec 32) (r : Fin 4) :
    wordView (a ^^^ b) r = wordView a r ^^^ wordView b r :=
  lane_xor ..

private theorem wordView_subWord (w : BitVec 32) (r : Fin 4) :
    wordView (subWord w) r = sbox (wordView w r) := by
  fin_cases r
  · exact lane_u32 _ 3
  · exact lane_u32 _ 2
  · exact lane_u32 _ 1
  · exact lane_u32 _ 0

private theorem wordView_rotWord (w : BitVec 32) (r : Fin 4) :
    wordView (rotWord w) r = wordView w (r + 1) := by
  fin_cases r
  · exact lane_u32 _ 3
  · exact lane_u32 _ 2
  · exact lane_u32 _ 1
  · exact lane_u32 _ 0

private theorem wordView_rcon (k : ℕ) (r : Fin 4) :
    wordView (rconTable.getD k 0) r = if r = 0 then tables.rcon k else 0 := by
  have htable : ∀ k < 15, ∀ r : Fin 4,
      wordView (rconTable.getD k 0) r = if r = 0 then tables.rcon k else 0 := by
    decide +kernel
  by_cases hk : k < 15
  · exact htable k hk r
  · have hnone : rconTable[k]? = none := getElem?_eq_none (Nat.not_lt.mp hk)
    simp [tables, wordView, lane, hnone]

private theorem wordView_temp (nk i : ℕ) (w : BitVec 32) :
    wordView (if i % nk = 0 then subWord (rotWord w) ^^^ rconTable.getD ((i - 1) / nk) 0
      else if 6 < nk ∧ i % nk = 4 then subWord w else w) = tables.temp nk i (wordView w) := by
  funext r
  rw [Tables.temp]
  split
  · rw [wordView_xor, wordView_subWord, wordView_rotWord, wordView_rcon]
    rfl
  · split
    · exact wordView_subWord w r
    · rfl

private theorem words_expandStep (nk : ℕ) (rdKey : List (BitVec 32)) :
    words (expandStep nk rdKey rdKey.length) =
      words rdKey ++ [tables.nextWord nk (words rdKey)] := by
  have hlen : (words rdKey).length = rdKey.length := length_map ..
  have hnext : tables.nextWord nk (words rdKey) = wordView (rdKey.getD (rdKey.length - nk) 0 ^^^
      (if rdKey.length % nk = 0 then subWord (rotWord (rdKey.getD (rdKey.length - 1) 0)) ^^^
          rconTable.getD ((rdKey.length - 1) / nk) 0
        else if 6 < nk ∧ rdKey.length % nk = 4 then subWord (rdKey.getD (rdKey.length - 1) 0)
        else rdKey.getD (rdKey.length - 1) 0)) := by
    funext r
    rw [wordView_xor, wordView_temp, Tables.nextWord, hlen, wordAt_words, wordAt_words]
  rw [hnext]
  exact map_append

private theorem length_expandStep (nk i : ℕ) (rdKey : List (BitVec 32)) :
    (expandStep nk rdKey i).length = rdKey.length + 1 :=
  length_append

private theorem words_foldl_expandStep (nk m : ℕ) (rdKey : List (BitVec 32)) :
    words ((range' rdKey.length m).foldl (expandStep nk) rdKey) =
      tables.expand nk m (words rdKey) := by
  induction m generalizing rdKey with
  | zero => rfl
  | succ m ih =>
    have h := ih (expandStep nk rdKey rdKey.length)
    rw [length_expandStep, words_expandStep] at h
    exact h

def keyWords (key : List Byte) (nk : ℕ) : List (Word 8) :=
  (List.range nk).map fun i r => key.getD (4 * i + r.val) 0

private theorem lane_setWidth_shiftLeft (b : Byte) {i : ℕ} (j : ℕ) (hi : i < 4) :
    lane 8 (b.setWidth 32 <<< (8 * j)) i = if i = j then b else 0 := by
  apply eq_of_getLsbD_eq
  intro t ht
  rw [getLsbD_lane _ _ ht, getLsbD_shiftLeft, getLsbD_setWidth]
  rcases Nat.lt_trichotomy i j with h | rfl | h
  · have hlow : 8 * i + t < 8 * j := by omega
    simp [hlow, Nat.ne_of_lt h]
  · have hin : 8 * i + t < 32 := by omega
    simp [hin, show t < 32 by omega]
  · rw [getLsbD_of_ge b (8 * i + t - 8 * j) (by omega)]
    simp [Nat.ne_of_gt h]

private theorem wordView_keyWord (key : List Byte) (i : ℕ) (r : Fin 4) :
    wordView (keyWord key i) r = key.getD (4 * i + r.val) 0 := by
  have hr : 3 - r.val < 4 := by omega
  have hlast : ∀ b : Byte, lane 8 (b.setWidth 32) (3 - r.val) = if 3 - r.val = 0 then b else 0 :=
    fun b => by
      rw [← lane_setWidth_shiftLeft b 0 hr, Nat.mul_zero, shiftLeft_zero]
  rw [wordView, keyWord, lane_or, lane_or, lane_or, lane_setWidth_shiftLeft _ 3 hr,
    lane_setWidth_shiftLeft _ 2 hr, lane_setWidth_shiftLeft _ 1 hr, hlast]
  fin_cases r <;> simp

def schedule (bits : KeyBits) (key : List Byte) : List (Word 8) :=
  tables.expand (sizes bits).2 (4 * ((sizes bits).1 + 1) - (sizes bits).2)
    (keyWords key (sizes bits).2)

variable (bits : KeyBits) (key : List Byte)

include bits key

theorem words_expandKey : words (expandKey bits key).rdKey = schedule bits key := by
  have hkey : words ((range (sizes bits).2).map (keyWord key)) = keyWords key (sizes bits).2 := by
    rw [words, map_map, keyWords]
    exact map_congr_left fun i _ => funext fun r => wordView_keyWord key i r
  have h := words_foldl_expandStep (sizes bits).2 (4 * ((sizes bits).1 + 1) - (sizes bits).2)
    ((range (sizes bits).2).map (keyWord key))
  rw [hkey, length_map, length_range] at h
  exact h

theorem rounds_expandKey :
    (expandKey bits key).rounds = (sizes bits).1 := rfl

theorem rounds_valid : (expandKey bits key).rounds = 10 ∨ (expandKey bits key).rounds = 12 ∨
      (expandKey bits key).rounds = 14 := by
  cases bits with
  | bits128 => exact .inl rfl
  | bits192 => exact .inr (.inl rfl)
  | bits256 => exact .inr (.inr rfl)

theorem square_encrypt (b : Block 16) : square (code.encrypt (code.expandKey bits key) b) =
      (tables.machine (roundKey (schedule bits key))).encrypt (sizes bits).1 (square b) := by
  rw [← words_expandKey, ← rounds_expandKey bits key]
  exact square_crypt_encrypt (rounds_valid bits key) b

theorem square_decrypt (b : Block 16) : square (code.decrypt (code.expandKey bits key) b) =
      (tables.machine (roundKey (schedule bits key))).decrypt (sizes bits).1 (square b) := by
  rw [← words_expandKey, ← rounds_expandKey bits key]
  exact square_crypt_decrypt (rounds_valid bits key) b

end MuggleC.Crypt.InternalAes
