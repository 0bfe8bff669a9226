/- source: crypt/internal/internal_des.c, crypt/openssl/openssl_des.c, crypt/des.c, crypt/tdes.c
   digest: DES and TDES of the plain build, which moves bits one by one, and of the optimised one. -/

import MuggleC.Crypt.Modes

set_option autoImplicit false

namespace MuggleC.Crypt.InternalDes

open Crypt.Modes Crypt.Words Foundation.Feistel Foundation.MovedBits

abbrev Subkey := Block 8

abbrev Subkeys := Vector Subkey 16

/-! ## Permutations of a block

A pair is the source and the target of a `MUGGLE_MOVE_BIT`. -/

def ipLow : List (ℕ × ℕ) :=
  [(57, 0), (49, 1), (41, 2), (33, 3), (25, 4), (17, 5), (9, 6), (1, 7), (59, 8), (51, 9),
   (43, 10), (35, 11), (27, 12), (19, 13), (11, 14), (3, 15), (61, 16), (53, 17), (45, 18),
   (37, 19), (29, 20), (21, 21), (13, 22), (5, 23), (63, 24), (55, 25), (47, 26), (39, 27),
   (31, 28), (23, 29), (15, 30), (7, 31)]

def ipHigh : List (ℕ × ℕ) :=
  [(56, 0), (48, 1), (40, 2), (32, 3), (24, 4), (16, 5), (8, 6), (0, 7), (58, 8), (50, 9),
   (42, 10), (34, 11), (26, 12), (18, 13), (10, 14), (2, 15), (60, 16), (52, 17), (44, 18),
   (36, 19), (28, 20), (20, 21), (12, 22), (4, 23), (62, 24), (54, 25), (46, 26), (38, 27),
   (30, 28), (22, 29), (14, 30), (6, 31)]

def fpLow : List (ℕ × ℕ) :=
  [(39, 0), (7, 1), (47, 2), (15, 3), (55, 4), (23, 5), (63, 6), (31, 7), (38, 8), (6, 9),
   (46, 10), (14, 11), (54, 12), (22, 13), (62, 14), (30, 15), (37, 16), (5, 17), (45, 18),
   (13, 19), (53, 20), (21, 21), (61, 22), (29, 23), (36, 24), (4, 25), (44, 26), (12, 27),
   (52, 28), (20, 29), (60, 30), (28, 31)]

def fpHigh : List (ℕ × ℕ) :=
  [(35, 0), (3, 1), (43, 2), (11, 3), (51, 4), (19, 5), (59, 6), (27, 7), (34, 8), (2, 9),
   (42, 10), (10, 11), (50, 12), (18, 13), (58, 14), (26, 15), (33, 16), (1, 17), (41, 18),
   (9, 19), (49, 20), (17, 21), (57, 22), (25, 23), (32, 24), (0, 25), (40, 26), (8, 27),
   (48, 28), (16, 29), (56, 30), (24, 31)]

def permute (low high : List (ℕ × ℕ)) (x : BitVec 64) : BitVec 64 :=
  ofHalves ⟨(moveBits low x).setWidth 32, (moveBits high x).setWidth 32⟩

def ip : BitVec 64 → BitVec 64 := permute ipLow ipHigh

def fp : BitVec 64 → BitVec 64 := permute fpLow fpHigh

def expand (x : BitVec 32) : Block 8 :=
  #v[((x >>> 31 &&& 0x01) ||| x <<< 1).setWidth 8,
    (x >>> 3).setWidth 8,
    (x >>> 7).setWidth 8,
    (x >>> 11).setWidth 8,
    (x >>> 15).setWidth 8,
    (x >>> 19).setWidth 8,
    (x >>> 23).setWidth 8,
    ((x >>> 27 &&& 0x1f) ||| x <<< 5).setWidth 8]

def sboxTable : List (List ℕ) :=
  [[14, 4, 13, 1, 2, 15, 11, 8, 3, 10, 6, 12, 5, 9, 0, 7,
     0, 15, 7, 4, 14, 2, 13, 1, 10, 6, 12, 11, 9, 5, 3, 8,
     4, 1, 14, 8, 13, 6, 2, 11, 15, 12, 9, 7, 3, 10, 5, 0,
     15, 12, 8, 2, 4, 9, 1, 7, 5, 11, 3, 14, 10, 0, 6, 13],
   [15, 1, 8, 14, 6, 11, 3, 4, 9, 7, 2, 13, 12, 0, 5, 10,
     3, 13, 4, 7, 15, 2, 8, 14, 12, 0, 1, 10, 6, 9, 11, 5,
     0, 14, 7, 11, 10, 4, 13, 1, 5, 8, 12, 6, 9, 3, 2, 15,
     13, 8, 10, 1, 3, 15, 4, 2, 11, 6, 7, 12, 0, 5, 14, 9],
   [10, 0, 9, 14, 6, 3, 15, 5, 1, 13, 12, 7, 11, 4, 2, 8,
     13, 7, 0, 9, 3, 4, 6, 10, 2, 8, 5, 14, 12, 11, 15, 1,
     13, 6, 4, 9, 8, 15, 3, 0, 11, 1, 2, 12, 5, 10, 14, 7,
     1, 10, 13, 0, 6, 9, 8, 7, 4, 15, 14, 3, 11, 5, 2, 12],
   [7, 13, 14, 3, 0, 6, 9, 10, 1, 2, 8, 5, 11, 12, 4, 15,
     13, 8, 11, 5, 6, 15, 0, 3, 4, 7, 2, 12, 1, 10, 14, 9,
     10, 6, 9, 0, 12, 11, 7, 13, 15, 1, 3, 14, 5, 2, 8, 4,
     3, 15, 0, 6, 10, 1, 13, 8, 9, 4, 5, 11, 12, 7, 2, 14],
   [2, 12, 4, 1, 7, 10, 11, 6, 8, 5, 3, 15, 13, 0, 14, 9,
     14, 11, 2, 12, 4, 7, 13, 1, 5, 0, 15, 10, 3, 9, 8, 6,
     4, 2, 1, 11, 10, 13, 7, 8, 15, 9, 12, 5, 6, 3, 0, 14,
     11, 8, 12, 7, 1, 14, 2, 13, 6, 15, 0, 9, 10, 4, 5, 3],
   [12, 1, 10, 15, 9, 2, 6, 8, 0, 13, 3, 4, 14, 7, 5, 11,
     10, 15, 4, 2, 7, 12, 9, 5, 6, 1, 13, 14, 0, 11, 3, 8,
     9, 14, 15, 5, 2, 8, 12, 3, 7, 0, 4, 10, 1, 13, 11, 6,
     4, 3, 2, 12, 9, 5, 15, 10, 11, 14, 1, 7, 6, 0, 8, 13],
   [4, 11, 2, 14, 15, 0, 8, 13, 3, 12, 9, 7, 5, 10, 6, 1,
     13, 0, 11, 7, 4, 9, 1, 10, 14, 3, 5, 12, 2, 15, 8, 6,
     1, 4, 11, 13, 12, 3, 7, 14, 10, 15, 6, 8, 0, 5, 9, 2,
     6, 11, 13, 8, 1, 4, 10, 7, 9, 5, 0, 15, 14, 2, 3, 12],
   [13, 2, 8, 4, 6, 15, 11, 1, 10, 9, 3, 14, 5, 0, 12, 7,
     1, 15, 13, 8, 10, 3, 7, 4, 12, 5, 6, 11, 0, 14, 9, 2,
     7, 11, 4, 1, 9, 12, 14, 2, 0, 6, 10, 13, 15, 3, 5, 8,
     2, 1, 14, 7, 4, 10, 8, 13, 15, 12, 9, 0, 3, 5, 6, 11]]

def sboxIndex (b : Byte) : BitVec 32 :=
  let b := b.setWidth 32
  (b &&& 0x20) ||| (b &&& 0x01) <<< 4 ||| (b >>> 1 &&& 0x0f)

def sbox (p : Block 8) : Block 8 :=
  Vector.ofFn fun i => BitVec.ofNat 8 ((sboxTable.getD i []).getD (sboxIndex (p.get i)).toNat 0)

def pMoves : List (ℕ × ℕ) :=
  [(15, 0), (6, 1), (19, 2), (20, 3), (28, 4), (11, 5), (27, 6), (16, 7), (0, 8), (14, 9),
   (22, 10), (25, 11), (4, 12), (17, 13), (30, 14), (9, 15), (1, 16), (7, 17), (23, 18), (13, 19),
   (31, 20), (26, 21), (2, 22), (8, 23), (18, 24), (12, 25), (29, 26), (5, 27), (21, 28),
   (10, 29), (3, 30), (24, 31)]

def p (x : BitVec 32) : BitVec 32 := moveBits pMoves x

def f (x : BitVec 32) (sk : Subkey) : BitVec 32 :=
  let p' := sbox (xorBlock (expand x) sk)
  let pair := fun (a b : Byte) => (a &&& 0x0f) ||| (b <<< 4 &&& 0xf0)
  p (u32 #v[pair p'[0] p'[1], pair p'[2] p'[3], pair p'[4] p'[5], pair p'[6] p'[7]])

def pc1Low : List (ℕ × ℕ) :=
  [(56, 0), (48, 1), (40, 2), (32, 3), (24, 4), (16, 5), (8, 6), (0, 7), (57, 8), (49, 9),
   (41, 10), (33, 11), (25, 12), (17, 13), (9, 14), (1, 15), (58, 16), (50, 17), (42, 18),
   (34, 19), (26, 20), (18, 21), (10, 22), (2, 23), (59, 24), (51, 25), (43, 26), (35, 27)]

def pc1High : List (ℕ × ℕ) :=
  [(62, 0), (54, 1), (46, 2), (38, 3), (30, 4), (22, 5), (14, 6), (6, 7), (61, 8), (53, 9),
   (45, 10), (37, 11), (29, 12), (21, 13), (13, 14), (5, 15), (60, 16), (52, 17), (44, 18),
   (36, 19), (28, 20), (20, 21), (12, 22), (4, 23), (27, 24), (19, 25), (11, 26), (3, 27)]

def pc1 (key : BitVec 64) : Halves (BitVec 32) := halves (permute pc1Low pc1High key)

def pc2Moves : List (List (ℕ × ℕ)) :=
  [[(13, 0), (16, 1), (10, 2), (23, 3), (0, 4), (4, 5)],
   [(2, 0), (27, 1), (14, 2), (5, 3), (20, 4), (9, 5)],
   [(22, 0), (18, 1), (11, 2), (3, 3), (25, 4), (7, 5)],
   [(15, 0), (6, 1), (26, 2), (19, 3), (12, 4), (1, 5)],
   [(12, 0), (23, 1), (2, 2), (8, 3), (18, 4), (26, 4)],
   [(1, 0), (11, 1), (22, 2), (16, 3), (4, 4), (19, 4)],
   [(15, 0), (20, 1), (10, 2), (27, 3), (5, 4), (24, 4)],
   [(17, 0), (13, 1), (21, 2), (7, 3), (0, 4), (3, 4)]]

def pc2 (k : Halves (BitVec 32)) : Subkey :=
  Vector.ofFn fun i => (moveBits (pc2Moves.getD i []) (if i.val < 4 then k.l else k.h)).setWidth 8

def keyShift (x : BitVec 32) (shift : ℕ) (mask : BitVec 32) : BitVec 32 :=
  x <<< shift ||| (x >>> (28 - shift) &&& mask)

def keyRoundShift : Vector ℕ 16 := #v[1, 1, 2, 2, 2, 2, 2, 2, 1, 2, 2, 2, 2, 2, 2, 1]

def keyRoundMask : Vector (BitVec 32) 16 := #v[1, 1, 3, 3, 3, 3, 3, 3, 1, 3, 3, 3, 3, 3, 3, 1]

def store (ks : Subkeys) (i : Fin 16) (k : Subkey) : Subkeys := ks.set i k

def keyRound (op : Op) (s : Halves (BitVec 32) × Subkeys) (i : Fin 16) :
    Halves (BitVec 32) × Subkeys :=
  let out : Halves (BitVec 32) :=
    ⟨keyShift s.1.l (keyRoundShift.get i) (keyRoundMask.get i),
     keyShift s.1.h (keyRoundShift.get i) (keyRoundMask.get i)⟩
  let idx : Fin 16 := match op with
    | .decrypt => i.rev
    | .encrypt => i
  (out, store s.2 idx (pc2 out))

/-- `muggle_des_set_key_inner`. The loop writes all subkeys, so nothing is left of those before. -/
def setKeyInner (op : Op) (key : Block 8) : Subkeys :=
  ((List.finRange 16).foldl (keyRound op)
    (pc1 (u64 key), Vector.replicate 16 (Vector.replicate 8 0))).2

def feistel (ks : Subkeys) (b64 : Halves (BitVec 32)) : Halves (BitVec 32) :=
  (List.finRange 16).foldl (fun b64 i => ⟨b64.h, b64.l ^^^ f b64.h (ks.get i)⟩) b64

def crypt (ks : Subkeys) (input : Block 8) : Block 8 :=
  let b64 := feistel ks (halves (ip (u64 input)))
  leBytes (fp (ofHalves b64.swap))

/-- `muggle_tdes_crypt`. The halves are swapped once, after the last round. -/
def tdesCrypt (ks1 ks2 ks3 : Subkeys) (input : Block 8) : Block 8 :=
  let b64 := feistel ks1 (halves (ip (u64 input)))
  let b64 := feistel ks2 b64
  let b64 := feistel ks3 b64
  leBytes (fp (ofHalves b64.swap))

/-- The functions of the plain build. -/
def code : DesCode Subkeys where
  setKeyInner := setKeyInner
  crypt := crypt
  tdesCrypt := tdesCrypt

def permuteSource (low high : List (ℕ × ℕ)) (i : ℕ) : ℕ :=
  if i < 32 then sourceOf low i else sourceOf high (i - 32)

theorem getLsbD_permute {low high : List (ℕ × ℕ)} (hlow : Single 32 low) (hhigh : Single 32 high)
    (x : BitVec 64) {i : ℕ} (hi : i < 64) :
    (permute low high x).getLsbD i = x.getLsbD (permuteSource low high i) := by
  rw [permute, getLsbD_ofHalves, permuteSource]
  split
  next h =>
    rw [BitVec.getLsbD_setWidth, hlow.getLsbD x h hi]
    simp [h]
  next h =>
    rw [BitVec.getLsbD_setWidth, hhigh.getLsbD x (by omega) (by omega)]
    simp
    omega

private theorem single_ip : Single 32 ipLow ∧ Single 32 ipHigh := by decide +kernel

private theorem single_fp : Single 32 fpLow ∧ Single 32 fpHigh := by decide +kernel

theorem getLsbD_ip (x : BitVec 64) {i : ℕ} (hi : i < 64) :
    (ip x).getLsbD i = x.getLsbD (permuteSource ipLow ipHigh i) :=
  getLsbD_permute single_ip.1 single_ip.2 x hi

theorem getLsbD_fp (x : BitVec 64) {i : ℕ} (hi : i < 64) :
    (fp x).getLsbD i = x.getLsbD (permuteSource fpLow fpHigh i) :=
  getLsbD_permute single_fp.1 single_fp.2 x hi

theorem permuteSource_inverse : ∀ i < 64, (permuteSource ipLow ipHigh i < 64 ∧
      permuteSource fpLow fpHigh (permuteSource ipLow ipHigh i) = i) ∧
    (permuteSource fpLow fpHigh i < 64 ∧
      permuteSource ipLow ipHigh (permuteSource fpLow fpHigh i) = i) := by
  decide +kernel

private theorem ip_fp (x : BitVec 64) : ip (fp x) = x := by
  apply BitVec.eq_of_getLsbD_eq
  intro i hi
  obtain ⟨⟨hlt, heq⟩, -⟩ := permuteSource_inverse i hi
  rw [getLsbD_ip _ hi, getLsbD_fp _ hlt, heq]

private theorem fp_ip (x : BitVec 64) : fp (ip x) = x := by
  apply BitVec.eq_of_getLsbD_eq
  intro i hi
  obtain ⟨-, hlt, heq⟩ := permuteSource_inverse i hi
  rw [getLsbD_fp _ hi, getLsbD_ip _ hlt, heq]

def network : Network (Block 8) 32 where
  split b := halves (ip (u64 b))
  merge x := leBytes (fp (ofHalves x))
  merge_split b := by rw [ofHalves_halves, fp_ip, leBytes_u64]
  split_merge x := by rw [u64_leBytes, ip_fp, halves_ofHalves]

def keyList (ks : Subkeys) : List Subkey := (List.finRange 16).map ks.get

theorem keyList_eq_reverse {ks ks' : Subkeys} (h : ∀ i : Fin 16, ks'.get i.rev = ks.get i) :
    keyList ks' = (keyList ks).reverse := by
  have hget : ks'.get = ks.get ∘ Fin.rev := funext fun i => by
    rw [Function.comp_apply, ← h, Fin.rev_rev]
  rw [keyList, keyList, ← List.map_reverse, List.finRange_reverse, List.map_map, hget]

theorem get_store (ks : Subkeys) (i j : Fin 16) (k : Subkey) :
    (store ks i k).get j = if i = j then k else ks.get j := by
  simp only [← Fin.val_inj]
  exact Vector.getElem_set i.isLt j.isLt

def Opposite (s s' : Halves (BitVec 32) × Subkeys) : Prop :=
  s'.1 = s.1 ∧ ∀ i : Fin 16, s'.2.get i.rev = s.2.get i

theorem Opposite.keyRound {s s' : Halves (BitVec 32) × Subkeys} (h : Opposite s s') (i : Fin 16) :
    Opposite (keyRound .encrypt s i) (keyRound .decrypt s' i) := by
  obtain ⟨hout, hget⟩ := h
  refine ⟨?_, fun j => ?_⟩
  · simp only [InternalDes.keyRound, hout]
  · simp only [InternalDes.keyRound, hout, get_store, Fin.rev_inj, hget]

theorem Opposite.foldl {s s' : Halves (BitVec 32) × Subkeys} (h : Opposite s s')
    (l : List (Fin 16)) :
    Opposite (l.foldl (InternalDes.keyRound .encrypt) s)
      (l.foldl (InternalDes.keyRound .decrypt) s') := by
  induction l generalizing s s' with
  | nil => exact h
  | cons i l ih => exact ih (h.keyRound i)

theorem keyList_decrypt (key : Block 8) :
    keyList (setKeyInner .decrypt key) = (keyList (setKeyInner .encrypt key)).reverse := by
  have hblank : Opposite (pc1 (u64 key), Vector.replicate 16 (Vector.replicate 8 0))
      (pc1 (u64 key), Vector.replicate 16 (Vector.replicate 8 0)) :=
    ⟨rfl, fun i => (Vector.getElem_replicate _).trans (Vector.getElem_replicate _).symm⟩
  exact keyList_eq_reverse (hblank.foldl _).2

theorem crypt_eq (ks : Subkeys) (b : Block 8) : crypt ks b = network.crypt f (keyList ks) b := by
  rfl

theorem tdesCrypt_eq (ks1 ks2 ks3 : Subkeys) (b : Block 8) :
    tdesCrypt ks1 ks2 ks3 b = network.merge (rounds f (keyList ks3)
      (rounds f (keyList ks2) (rounds f (keyList ks1) (network.split b)))).swap := by
  rfl

end MuggleC.Crypt.InternalDes

namespace MuggleC.Crypt.OpensslDes

open Crypt.Modes Crypt.Words Crypt.InternalDes Foundation.Feistel Foundation.Lanes List BitVec

/-- `MUGGLE_OPENSSL_DES_PERM_OP`: exchanges the bits of `a` under the shifted mask with those of `b`
under the mask. -/
def permOp (a b : BitVec 32) (n : ℕ) (m : BitVec 32) : BitVec 32 × BitVec 32 :=
  let t := (a >>> n ^^^ b) &&& m
  (a ^^^ t <<< n, b ^^^ t)

def hpermOp (a : BitVec 32) (shift : ℕ) (m : BitVec 32) : BitVec 32 :=
  let t := (a <<< shift ^^^ a) &&& m
  a ^^^ t ^^^ t >>> shift

def rotate (v : BitVec 32) (n : ℕ) : BitVec 32 := v >>> n + v <<< (32 - n)

def ip (l r : BitVec 32) : BitVec 32 × BitVec 32 :=
  let (r, l) := permOp r l 4 0x0f0f0f0f
  let (l, r) := permOp l r 16 0x0000ffff
  let (r, l) := permOp r l 2 0x33333333
  let (l, r) := permOp l r 8 0x00ff00ff
  let (r, l) := permOp r l 1 0x55555555
  (l, r)

def fp (l r : BitVec 32) : BitVec 32 × BitVec 32 :=
  let (l, r) := permOp l r 1 0x55555555
  let (r, l) := permOp r l 8 0x00ff00ff
  let (l, r) := permOp l r 2 0x33333333
  let (r, l) := permOp r l 16 0x0000ffff
  let (l, r) := permOp l r 4 0x0f0f0f0f
  (l, r)

def skbTable : List (List ℕ) :=
  [[0x0, 0x10, 0x20000000, 0x20000010, 0x10000, 0x10010, 0x20010000, 0x20010010, 0x800, 0x810,
    0x20000800, 0x20000810, 0x10800, 0x10810, 0x20010800, 0x20010810, 0x20, 0x30, 0x20000020,
    0x20000030, 0x10020, 0x10030, 0x20010020, 0x20010030, 0x820, 0x830, 0x20000820, 0x20000830,
    0x10820, 0x10830, 0x20010820, 0x20010830, 0x80000, 0x80010, 0x20080000, 0x20080010, 0x90000,
    0x90010, 0x20090000, 0x20090010, 0x80800, 0x80810, 0x20080800, 0x20080810, 0x90800, 0x90810,
    0x20090800, 0x20090810, 0x80020, 0x80030, 0x20080020, 0x20080030, 0x90020, 0x90030,
    0x20090020, 0x20090030, 0x80820, 0x80830, 0x20080820, 0x20080830, 0x90820, 0x90830,
    0x20090820, 0x20090830],
   [0x0, 0x2000000, 0x2000, 0x2002000, 0x200000, 0x2200000, 0x202000, 0x2202000, 0x4, 0x2000004,
    0x2004, 0x2002004, 0x200004, 0x2200004, 0x202004, 0x2202004, 0x400, 0x2000400, 0x2400,
    0x2002400, 0x200400, 0x2200400, 0x202400, 0x2202400, 0x404, 0x2000404, 0x2404, 0x2002404,
    0x200404, 0x2200404, 0x202404, 0x2202404, 0x10000000, 0x12000000, 0x10002000, 0x12002000,
    0x10200000, 0x12200000, 0x10202000, 0x12202000, 0x10000004, 0x12000004, 0x10002004,
    0x12002004, 0x10200004, 0x12200004, 0x10202004, 0x12202004, 0x10000400, 0x12000400,
    0x10002400, 0x12002400, 0x10200400, 0x12200400, 0x10202400, 0x12202400, 0x10000404,
    0x12000404, 0x10002404, 0x12002404, 0x10200404, 0x12200404, 0x10202404, 0x12202404],
   [0x0, 0x1, 0x40000, 0x40001, 0x1000000, 0x1000001, 0x1040000, 0x1040001, 0x2, 0x3, 0x40002,
    0x40003, 0x1000002, 0x1000003, 0x1040002, 0x1040003, 0x200, 0x201, 0x40200, 0x40201,
    0x1000200, 0x1000201, 0x1040200, 0x1040201, 0x202, 0x203, 0x40202, 0x40203, 0x1000202,
    0x1000203, 0x1040202, 0x1040203, 0x8000000, 0x8000001, 0x8040000, 0x8040001, 0x9000000,
    0x9000001, 0x9040000, 0x9040001, 0x8000002, 0x8000003, 0x8040002, 0x8040003, 0x9000002,
    0x9000003, 0x9040002, 0x9040003, 0x8000200, 0x8000201, 0x8040200, 0x8040201, 0x9000200,
    0x9000201, 0x9040200, 0x9040201, 0x8000202, 0x8000203, 0x8040202, 0x8040203, 0x9000202,
    0x9000203, 0x9040202, 0x9040203],
   [0x0, 0x100000, 0x100, 0x100100, 0x8, 0x100008, 0x108, 0x100108, 0x1000, 0x101000, 0x1100,
    0x101100, 0x1008, 0x101008, 0x1108, 0x101108, 0x4000000, 0x4100000, 0x4000100, 0x4100100,
    0x4000008, 0x4100008, 0x4000108, 0x4100108, 0x4001000, 0x4101000, 0x4001100, 0x4101100,
    0x4001008, 0x4101008, 0x4001108, 0x4101108, 0x20000, 0x120000, 0x20100, 0x120100, 0x20008,
    0x120008, 0x20108, 0x120108, 0x21000, 0x121000, 0x21100, 0x121100, 0x21008, 0x121008, 0x21108,
    0x121108, 0x4020000, 0x4120000, 0x4020100, 0x4120100, 0x4020008, 0x4120008, 0x4020108,
    0x4120108, 0x4021000, 0x4121000, 0x4021100, 0x4121100, 0x4021008, 0x4121008, 0x4021108,
    0x4121108],
   [0x0, 0x10000000, 0x10000, 0x10010000, 0x4, 0x10000004, 0x10004, 0x10010004, 0x20000000,
    0x30000000, 0x20010000, 0x30010000, 0x20000004, 0x30000004, 0x20010004, 0x30010004, 0x100000,
    0x10100000, 0x110000, 0x10110000, 0x100004, 0x10100004, 0x110004, 0x10110004, 0x20100000,
    0x30100000, 0x20110000, 0x30110000, 0x20100004, 0x30100004, 0x20110004, 0x30110004, 0x1000,
    0x10001000, 0x11000, 0x10011000, 0x1004, 0x10001004, 0x11004, 0x10011004, 0x20001000,
    0x30001000, 0x20011000, 0x30011000, 0x20001004, 0x30001004, 0x20011004, 0x30011004, 0x101000,
    0x10101000, 0x111000, 0x10111000, 0x101004, 0x10101004, 0x111004, 0x10111004, 0x20101000,
    0x30101000, 0x20111000, 0x30111000, 0x20101004, 0x30101004, 0x20111004, 0x30111004],
   [0x0, 0x8000000, 0x8, 0x8000008, 0x400, 0x8000400, 0x408, 0x8000408, 0x20000, 0x8020000,
    0x20008, 0x8020008, 0x20400, 0x8020400, 0x20408, 0x8020408, 0x1, 0x8000001, 0x9, 0x8000009,
    0x401, 0x8000401, 0x409, 0x8000409, 0x20001, 0x8020001, 0x20009, 0x8020009, 0x20401,
    0x8020401, 0x20409, 0x8020409, 0x2000000, 0xa000000, 0x2000008, 0xa000008, 0x2000400,
    0xa000400, 0x2000408, 0xa000408, 0x2020000, 0xa020000, 0x2020008, 0xa020008, 0x2020400,
    0xa020400, 0x2020408, 0xa020408, 0x2000001, 0xa000001, 0x2000009, 0xa000009, 0x2000401,
    0xa000401, 0x2000409, 0xa000409, 0x2020001, 0xa020001, 0x2020009, 0xa020009, 0x2020401,
    0xa020401, 0x2020409, 0xa020409],
   [0x0, 0x100, 0x80000, 0x80100, 0x1000000, 0x1000100, 0x1080000, 0x1080100, 0x10, 0x110,
    0x80010, 0x80110, 0x1000010, 0x1000110, 0x1080010, 0x1080110, 0x200000, 0x200100, 0x280000,
    0x280100, 0x1200000, 0x1200100, 0x1280000, 0x1280100, 0x200010, 0x200110, 0x280010, 0x280110,
    0x1200010, 0x1200110, 0x1280010, 0x1280110, 0x200, 0x300, 0x80200, 0x80300, 0x1000200,
    0x1000300, 0x1080200, 0x1080300, 0x210, 0x310, 0x80210, 0x80310, 0x1000210, 0x1000310,
    0x1080210, 0x1080310, 0x200200, 0x200300, 0x280200, 0x280300, 0x1200200, 0x1200300, 0x1280200,
    0x1280300, 0x200210, 0x200310, 0x280210, 0x280310, 0x1200210, 0x1200310, 0x1280210, 0x1280310],
   [0x0, 0x4000000, 0x40000, 0x4040000, 0x2, 0x4000002, 0x40002, 0x4040002, 0x2000, 0x4002000,
    0x42000, 0x4042000, 0x2002, 0x4002002, 0x42002, 0x4042002, 0x20, 0x4000020, 0x40020,
    0x4040020, 0x22, 0x4000022, 0x40022, 0x4040022, 0x2020, 0x4002020, 0x42020, 0x4042020, 0x2022,
    0x4002022, 0x42022, 0x4042022, 0x800, 0x4000800, 0x40800, 0x4040800, 0x802, 0x4000802,
    0x40802, 0x4040802, 0x2800, 0x4002800, 0x42800, 0x4042800, 0x2802, 0x4002802, 0x42802,
    0x4042802, 0x820, 0x4000820, 0x40820, 0x4040820, 0x822, 0x4000822, 0x40822, 0x4040822, 0x2820,
    0x4002820, 0x42820, 0x4042820, 0x2822, 0x4002822, 0x42822, 0x4042822]]

def skb (i : ℕ) (x : BitVec 32) : BitVec 32 :=
  BitVec.ofNat 32 ((skbTable.getD i []).getD x.toNat 0)

/-- PC-1 of `muggle_openssl_des_set_key_unchecked`, which gives `c` and `d`. -/
def pc1 (key : Block 8) : BitVec 32 × BitVec 32 :=
  let c := (halves (u64 key)).l
  let d := (halves (u64 key)).h
  let (d, c) := permOp d c 4 0x0f0f0f0f
  let c := hpermOp c 18 0xcccc0000
  let d := hpermOp d 18 0xcccc0000
  let (d, c) := permOp d c 1 0x55555555
  let (c, d) := permOp c d 8 0x00ff00ff
  let (d, c) := permOp d c 1 0x55555555
  let d := (d &&& 0x000000ff) <<< 16 ||| (d &&& 0x0000ff00) |||
    (d &&& 0x00ff0000) >>> 16 ||| (c &&& 0xf0000000) >>> 4
  (c &&& 0x0fffffff, d)

def shifts1 : List ℕ := [1, 1, 2, 2, 2, 2, 2, 2, 1, 2, 2, 2, 2, 2, 2, 1]

def shifts2 : List ℕ := [27, 27, 26, 26, 26, 26, 26, 26, 27, 26, 26, 26, 26, 26, 26, 27]

/-- PC-2: the two words of a subkey. -/
def pc2 (c d : BitVec 32) : Subkey :=
  let s := skb 0 (c &&& 0x3f) |||
    skb 1 ((c >>> 6 &&& 0x03) ||| (c >>> 7 &&& 0x3c)) |||
    skb 2 ((c >>> 13 &&& 0x0f) ||| (c >>> 14 &&& 0x30)) |||
    skb 3 ((c >>> 20 &&& 0x01) ||| (c >>> 21 &&& 0x06) ||| (c >>> 22 &&& 0x38))
  let t := skb 4 (d &&& 0x3f) |||
    skb 5 ((d >>> 7 &&& 0x03) ||| (d >>> 8 &&& 0x3c)) |||
    skb 6 (d >>> 15 &&& 0x3f) |||
    skb 7 ((d >>> 21 &&& 0x0f) ||| (d >>> 22 &&& 0x30))
  let t2 := t <<< 16 ||| (s &&& 0x0000ffff)
  let t2' := s >>> 16 ||| (t &&& 0xffff0000)
  leBytes (ofHalves ⟨rotate t2 30, rotate t2' 26⟩)

def keyRound (st : (BitVec 32 × BitVec 32) × Subkeys) (i : Fin 16) :
    (BitVec 32 × BitVec 32) × Subkeys :=
  let shift := fun (x : BitVec 32) =>
    (x >>> shifts1.getD i 0 ||| x <<< shifts2.getD i 0) &&& 0x0fffffff
  let c := shift st.1.1
  let d := shift st.1.2
  ((c, d), store st.2 i (pc2 c d))

def setKeyUnchecked (key : Block 8) : Subkeys :=
  ((List.finRange 16).foldl keyRound
    (pc1 key, Vector.replicate 16 (Vector.replicate 8 0))).2

def exchange (ks : Subkeys) (i : Fin 16) : Subkeys :=
  let bytes := ks.get i
  let ks := store ks i (ks.get i.rev)
  store ks i.rev bytes

local instance neZero_sixteen : NeZero 16 := ⟨by decide⟩

def genSubkeys (op : Op) (key : Block 8) : Subkeys :=
  let ks := setKeyUnchecked key
  match op with
  | .decrypt => [0, 1, 2, 3, 4, 5, 6, 7].foldl exchange ks
  | .encrypt => ks

def sptransTable : List (List ℕ) :=
  [[0x2080800, 0x80000, 0x2000002, 0x2080802, 0x2000000, 0x80802, 0x80002, 0x2000002, 0x80802,
    0x2080800, 0x2080000, 0x802, 0x2000802, 0x2000000, 0x0, 0x80002, 0x80000, 0x2, 0x2000800,
    0x80800, 0x2080802, 0x2080000, 0x802, 0x2000800, 0x2, 0x800, 0x80800, 0x2080002, 0x800,
    0x2000802, 0x2080002, 0x0, 0x0, 0x2080802, 0x2000800, 0x80002, 0x2080800, 0x80000, 0x802,
    0x2000800, 0x2080002, 0x800, 0x80800, 0x2000002, 0x80802, 0x2, 0x2000002, 0x2080000,
    0x2080802, 0x80800, 0x2080000, 0x2000802, 0x2000000, 0x802, 0x80002, 0x0, 0x80000, 0x2000000,
    0x2000802, 0x2080800, 0x2, 0x2080002, 0x800, 0x80802],
   [0x40108010, 0x0, 0x108000, 0x40100000, 0x40000010, 0x8010, 0x40008000, 0x108000, 0x8000,
    0x40100010, 0x10, 0x40008000, 0x100010, 0x40108000, 0x40100000, 0x10, 0x100000, 0x40008010,
    0x40100010, 0x8000, 0x108010, 0x40000000, 0x0, 0x100010, 0x40008010, 0x108010, 0x40108000,
    0x40000010, 0x40000000, 0x100000, 0x8010, 0x40108010, 0x100010, 0x40108000, 0x40008000,
    0x108010, 0x40108010, 0x100010, 0x40000010, 0x0, 0x40000000, 0x8010, 0x100000, 0x40100010,
    0x8000, 0x40000000, 0x108010, 0x40008010, 0x40108000, 0x8000, 0x0, 0x40000010, 0x10,
    0x40108010, 0x108000, 0x40100000, 0x40100010, 0x100000, 0x8010, 0x40008000, 0x40008010, 0x10,
    0x40100000, 0x108000],
   [0x4000001, 0x4040100, 0x100, 0x4000101, 0x40001, 0x4000000, 0x4000101, 0x40100, 0x4000100,
    0x40000, 0x4040000, 0x1, 0x4040101, 0x101, 0x1, 0x4040001, 0x0, 0x40001, 0x4040100, 0x100,
    0x101, 0x4040101, 0x40000, 0x4000001, 0x4040001, 0x4000100, 0x40101, 0x4040000, 0x40100, 0x0,
    0x4000000, 0x40101, 0x4040100, 0x100, 0x1, 0x40000, 0x101, 0x40001, 0x4040000, 0x4000101, 0x0,
    0x4040100, 0x40100, 0x4040001, 0x40001, 0x4000000, 0x4040101, 0x1, 0x40101, 0x4000001,
    0x4000000, 0x4040101, 0x40000, 0x4000100, 0x4000101, 0x40100, 0x4000100, 0x0, 0x4040001,
    0x101, 0x4000001, 0x40101, 0x100, 0x4040000],
   [0x401008, 0x10001000, 0x8, 0x10401008, 0x0, 0x10400000, 0x10001008, 0x400008, 0x10401000,
    0x10000008, 0x10000000, 0x1008, 0x10000008, 0x401008, 0x400000, 0x10000000, 0x10400008,
    0x401000, 0x1000, 0x8, 0x401000, 0x10001008, 0x10400000, 0x1000, 0x1008, 0x0, 0x400008,
    0x10401000, 0x10001000, 0x10400008, 0x10401008, 0x400000, 0x10400008, 0x1008, 0x400000,
    0x10000008, 0x401000, 0x10001000, 0x8, 0x10400000, 0x10001008, 0x0, 0x1000, 0x400008, 0x0,
    0x10400008, 0x10401000, 0x1000, 0x10000000, 0x10401008, 0x401008, 0x400000, 0x10401008, 0x8,
    0x10001000, 0x401008, 0x400008, 0x401000, 0x10400000, 0x10001008, 0x1008, 0x10000000,
    0x10000008, 0x10401000],
   [0x8000000, 0x10000, 0x400, 0x8010420, 0x8010020, 0x8000400, 0x10420, 0x8010000, 0x10000, 0x20,
    0x8000020, 0x10400, 0x8000420, 0x8010020, 0x8010400, 0x0, 0x10400, 0x8000000, 0x10020, 0x420,
    0x8000400, 0x10420, 0x0, 0x8000020, 0x20, 0x8000420, 0x8010420, 0x10020, 0x8010000, 0x400,
    0x420, 0x8010400, 0x8010400, 0x8000420, 0x10020, 0x8010000, 0x10000, 0x20, 0x8000020,
    0x8000400, 0x8000000, 0x10400, 0x8010420, 0x0, 0x10420, 0x8000000, 0x400, 0x10020, 0x8000420,
    0x400, 0x0, 0x8010420, 0x8010020, 0x8010400, 0x420, 0x10000, 0x10400, 0x8010020, 0x8000400,
    0x420, 0x20, 0x10420, 0x8010000, 0x8000020],
   [0x80000040, 0x200040, 0x0, 0x80202000, 0x200040, 0x2000, 0x80002040, 0x200000, 0x2040,
    0x80202040, 0x202000, 0x80000000, 0x80002000, 0x80000040, 0x80200000, 0x202040, 0x200000,
    0x80002040, 0x80200040, 0x0, 0x2000, 0x40, 0x80202000, 0x80200040, 0x80202040, 0x80200000,
    0x80000000, 0x2040, 0x40, 0x202000, 0x202040, 0x80002000, 0x2040, 0x80000000, 0x80002000,
    0x202040, 0x80202000, 0x200040, 0x0, 0x80002000, 0x80000000, 0x2000, 0x80200040, 0x200000,
    0x200040, 0x80202040, 0x202000, 0x40, 0x80202040, 0x202000, 0x200000, 0x80002040, 0x80000040,
    0x80200000, 0x202040, 0x0, 0x2000, 0x80000040, 0x80002040, 0x80202000, 0x80200000, 0x2040,
    0x40, 0x80200040],
   [0x4000, 0x200, 0x1000200, 0x1000004, 0x1004204, 0x4004, 0x4200, 0x0, 0x1000000, 0x1000204,
    0x204, 0x1004000, 0x4, 0x1004200, 0x1004000, 0x204, 0x1000204, 0x4000, 0x4004, 0x1004204, 0x0,
    0x1000200, 0x1000004, 0x4200, 0x1004004, 0x4204, 0x1004200, 0x4, 0x4204, 0x1004004, 0x200,
    0x1000000, 0x4204, 0x1004000, 0x1004004, 0x204, 0x4000, 0x200, 0x1000000, 0x1004004,
    0x1000204, 0x4204, 0x4200, 0x0, 0x200, 0x1000004, 0x4, 0x1000200, 0x0, 0x1000204, 0x1000200,
    0x4200, 0x204, 0x4000, 0x1004204, 0x1000000, 0x1004200, 0x4, 0x4004, 0x1004204, 0x1000004,
    0x1004200, 0x1004000, 0x4004],
   [0x20800080, 0x20820000, 0x20080, 0x0, 0x20020000, 0x800080, 0x20800000, 0x20820080, 0x80,
    0x20000000, 0x820000, 0x20080, 0x820080, 0x20020080, 0x20000080, 0x20800000, 0x20000,
    0x820080, 0x800080, 0x20020000, 0x20820080, 0x20000080, 0x0, 0x820000, 0x20000000, 0x800000,
    0x20020080, 0x20800080, 0x800000, 0x20000, 0x20820000, 0x80, 0x800000, 0x20000, 0x20000080,
    0x20820080, 0x20080, 0x20000000, 0x0, 0x820000, 0x20800080, 0x20020080, 0x20020000, 0x800080,
    0x20820000, 0x80, 0x800080, 0x20020000, 0x20820080, 0x800000, 0x20800000, 0x20000080,
    0x820000, 0x20080, 0x20020080, 0x20800000, 0x80, 0x20820000, 0x820080, 0x0, 0x20000000,
    0x20800080, 0x20000, 0x820080]]

def sptrans (i : ℕ) (x : BitVec 32) : BitVec 32 :=
  BitVec.ofNat 32 ((sptransTable.getD i []).getD (x &&& 0x3f).toNat 0)

/-- What `MUGGLE_OPENSSL_D_ENCRYPT` mixes into a half. The words of a subkey are at an even index and
the one behind it. -/
def f (r : BitVec 32) (sk : Subkey) : BitVec 32 :=
  let u := r ^^^ (halves (u64 sk)).l
  let t := rotate (r ^^^ (halves (u64 sk)).h) 4
  sptrans 0 (u >>> 2) ^^^ sptrans 2 (u >>> 10) ^^^ sptrans 4 (u >>> 18) ^^^ sptrans 6 (u >>> 26) ^^^
    sptrans 1 (t >>> 2) ^^^ sptrans 3 (t >>> 10) ^^^ sptrans 5 (t >>> 18) ^^^ sptrans 7 (t >>> 26)

def dEncrypt (l r : BitVec 32) (sk : Subkey) : BitVec 32 := l ^^^ f r sk

def encryptRounds (ks : Subkeys) (l r : BitVec 32) : Halves (BitVec 32) :=
  let l := dEncrypt l r (ks.get 0)
  let r := dEncrypt r l (ks.get 1)
  let l := dEncrypt l r (ks.get 2)
  let r := dEncrypt r l (ks.get 3)
  let l := dEncrypt l r (ks.get 4)
  let r := dEncrypt r l (ks.get 5)
  let l := dEncrypt l r (ks.get 6)
  let r := dEncrypt r l (ks.get 7)
  let l := dEncrypt l r (ks.get 8)
  let r := dEncrypt r l (ks.get 9)
  let l := dEncrypt l r (ks.get 10)
  let r := dEncrypt r l (ks.get 11)
  let l := dEncrypt l r (ks.get 12)
  let r := dEncrypt r l (ks.get 13)
  let l := dEncrypt l r (ks.get 14)
  let r := dEncrypt r l (ks.get 15)
  ⟨l, r⟩

def encrypt1 (input : Halves (BitVec 32)) (ks : Subkeys) : Halves (BitVec 32) :=
  let r := input.l
  let l := input.h
  let (r, l) := ip r l
  let x := encryptRounds ks (rotate l 29) (rotate r 29)
  let l := rotate x.l 3
  let r := rotate x.h 3
  let (r, l) := fp r l
  ⟨l, r⟩

def encrypt2 (input : Halves (BitVec 32)) (ks : Subkeys) : Halves (BitVec 32) :=
  let r := input.l
  let l := input.h
  let x := encryptRounds ks (rotate l 29) (rotate r 29)
  ⟨rotate x.l 3, rotate x.h 3⟩

def crypt (ks : Subkeys) (input : Block 8) : Block 8 :=
  leBytes (ofHalves (encrypt1 (halves (u64 input)) ks))

def tdesCrypt (ks1 ks2 ks3 : Subkeys) (input : Block 8) : Block 8 :=
  -- What `MUGGLE_OPENSSL_C2L` reads before this is overwritten by the permuted halves.
  let (l, r) := ip (halves (u64 input)).l (halves (u64 input)).h
  let output := encrypt2 ⟨l, r⟩ ks1
  let output := encrypt2 output ks2
  let output := encrypt2 output ks3
  let (r, l) := fp output.h output.l
  leBytes (ofHalves ⟨l, r⟩)

/-- The functions of the optimised build. -/
def code : DesCode Subkeys where
  setKeyInner := genSubkeys
  crypt := crypt
  tdesCrypt := tdesCrypt

theorem permOp_symm {n : ℕ} {m : BitVec 32} (hm : FitsLeft n m) {a b a' b' : BitVec 32}
    (h : permOp a b n m = (a', b')) : permOp a' b' n m = (a, b) := by
  obtain ⟨rfl, rfl⟩ := Prod.mk.inj h
  set t := (a >>> n ^^^ b) &&& m with ht
  have hback : ((a ^^^ t <<< n) >>> n ^^^ (b ^^^ t)) &&& m = t := by
    have hshift : t <<< n >>> n = t := hm.and _
    rw [ushiftRight_xor_distrib, hshift, ht]
    apply eq_of_getLsbD_eq
    intro i hi
    simp only [getLsbD_and, getLsbD_xor]
    cases (a >>> n).getLsbD i <;> cases b.getLsbD i <;> cases m.getLsbD i <;> rfl
  simp only [permOp, hback, BitVec.xor_assoc, BitVec.xor_self, BitVec.xor_zero]

theorem fits_masks : FitsLeft 4 (0x0f0f0f0f : BitVec 32) ∧ FitsLeft 16 (0x0000ffff : BitVec 32) ∧
    FitsLeft 2 (0x33333333 : BitVec 32) ∧ FitsLeft 8 (0x00ff00ff : BitVec 32) ∧
    FitsLeft 1 (0x55555555 : BitVec 32) := by
  decide

private theorem fp_ip (l r : BitVec 32) : fp (ip l r).2 (ip l r).1 = (r, l) := by
  obtain ⟨k4, k16, k2, k8, k1⟩ := fits_masks
  rcases h1 : permOp r l 4 0x0f0f0f0f with ⟨r1, l1⟩
  rcases h2 : permOp l1 r1 16 0x0000ffff with ⟨l2, r2⟩
  rcases h3 : permOp r2 l2 2 0x33333333 with ⟨r3, l3⟩
  rcases h4 : permOp l3 r3 8 0x00ff00ff with ⟨l4, r4⟩
  rcases h5 : permOp r4 l4 1 0x55555555 with ⟨r5, l5⟩
  simp only [ip, fp, h1, h2, h3, h4, h5, permOp_symm k1 h5, permOp_symm k8 h4, permOp_symm k2 h3,
    permOp_symm k16 h2, permOp_symm k4 h1]

private theorem ip_fp (l r : BitVec 32) : ip (fp l r).2 (fp l r).1 = (r, l) := by
  obtain ⟨k4, k16, k2, k8, k1⟩ := fits_masks
  rcases h1 : permOp l r 1 0x55555555 with ⟨l1, r1⟩
  rcases h2 : permOp r1 l1 8 0x00ff00ff with ⟨r2, l2⟩
  rcases h3 : permOp l2 r2 2 0x33333333 with ⟨l3, r3⟩
  rcases h4 : permOp r3 l3 16 0x0000ffff with ⟨r4, l4⟩
  rcases h5 : permOp l4 r4 4 0x0f0f0f0f with ⟨l5, r5⟩
  simp only [ip, fp, h1, h2, h3, h4, h5, permOp_symm k4 h5, permOp_symm k16 h4, permOp_symm k2 h3,
    permOp_symm k8 h2, permOp_symm k1 h1]

private theorem getLsbD_rotate (v : BitVec 32) {n i : ℕ} (hn : n < 32) (hi : i < 32) :
    (rotate v n).getLsbD i = v.getLsbD ((i + n) % 32) := by
  have hdisjoint : v >>> n &&& v <<< (32 - n) = 0#32 := by
    apply eq_of_getLsbD_eq
    intro j hj
    by_cases h : n + j < 32
    · have hlow : j < 32 - n := by omega
      simp [hlow]
    · simp [getLsbD_of_ge v (n + j) (by omega)]
  rw [rotate, add_eq_or_of_and_eq_zero _ _ hdisjoint, getLsbD_or,
    getLsbD_ushiftRight, getLsbD_shiftLeft]
  by_cases h : n + i < 32
  · have hlow : i < 32 - n := by omega
    have hplace : (i + n) % 32 = n + i := by omega
    simp [hlow, hplace]
  · have hhigh : ¬ i < 32 - n := by omega
    have hplace : (i + n) % 32 = i - (32 - n) := by omega
    rw [getLsbD_of_ge v (n + i) (by omega), hplace]
    simp [hhigh, hi]

theorem rotate_rotate (v : BitVec 32) {n n' : ℕ} (hn : n < 32) (hn' : n' < 32)
    (h : n + n' = 32) : rotate (rotate v n) n' = v := by
  apply eq_of_getLsbD_eq
  intro i hi
  have hplace : ((i + n') % 32 + n) % 32 = i := by omega
  rw [getLsbD_rotate _ hn' hi, getLsbD_rotate v hn (Nat.mod_lt _ (by decide)), hplace]

def network : Network (Block 8) 32 where
  split b :=
    let x := ip (halves (u64 b)).l (halves (u64 b)).h
    ⟨rotate x.2 29, rotate x.1 29⟩
  merge x :=
    let y := fp (rotate x.l 3) (rotate x.h 3)
    leBytes (ofHalves ⟨y.2, y.1⟩)
  merge_split b := by
    have hback : ∀ v, rotate (rotate v 29) 3 = v := fun v =>
      rotate_rotate v (by decide) (by decide) (by decide)
    simp only [hback, fp_ip]
    exact (congrArg leBytes (ofHalves_halves _)).trans (leBytes_u64 b)
  split_merge x := by
    have hback : ∀ v, rotate (rotate v 3) 29 = v := fun v =>
      rotate_rotate v (by decide) (by decide) (by decide)
    simp only [u64_leBytes, halves_ofHalves, ip_fp, hback]

theorem encryptRounds_eq (ks : Subkeys) (l r : BitVec 32) :
    encryptRounds ks l r = rounds f (keyList ks) ⟨l, r⟩ := rfl

theorem crypt_eq (ks : Subkeys) (b : Block 8) : crypt ks b = network.crypt f (keyList ks) b := by
  rfl

def turned (x : Halves (BitVec 32)) : Halves (BitVec 32) := ⟨rotate x.h 29, rotate x.l 29⟩

private theorem turned_encrypt2 (x : Halves (BitVec 32)) (ks : Subkeys) :
    turned (encrypt2 x ks) = (rounds f (keyList ks) (turned x)).swap := by
  have hback : ∀ v, rotate (rotate v 3) 29 = v := fun v =>
    rotate_rotate v (by decide) (by decide) (by decide)
  simp only [encrypt2, encryptRounds_eq, turned, hback]
  rfl

theorem tdesCrypt_eq (ks1 ks2 ks3 : Subkeys) (b : Block 8) :
    tdesCrypt ks1 ks2 ks3 b = crypt ks3 (crypt ks2 (crypt ks1 b)) := by
  set x : Halves (BitVec 32) :=
    ⟨(ip (halves (u64 b)).l (halves (u64 b)).h).1, (ip (halves (u64 b)).l (halves (u64 b)).h).2⟩
  have hlast : tdesCrypt ks1 ks2 ks3 b =
      network.merge (rounds f (keyList ks3) (turned (encrypt2 (encrypt2 x ks1) ks2))).swap := rfl
  rw [hlast, turned_encrypt2, turned_encrypt2, crypt_eq, crypt_eq, crypt_eq,
    network.crypt_crypt_crypt]
  rfl

private theorem get_exchange (ks : Subkeys) (i j : Fin 16) :
    (exchange ks i).get j = if j = i ∨ j = i.rev then ks.get j.rev else ks.get j := by
  simp only [exchange, get_store]
  by_cases h : j = i.rev
  · simp [h]
  · by_cases h' : j = i
    · subst h'
      simp [Ne.symm h]
    · simp [h, h', Ne.symm h, Ne.symm h']

private theorem get_foldl_exchange (l : List (Fin 16)) (hl : l.Nodup) (hlow : ∀ i ∈ l, i.val < 8)
    (ks : Subkeys) (j : Fin 16) : (j ∈ l ∨ j.rev ∈ l → (l.foldl exchange ks).get j = ks.get j.rev) ∧
      (¬ (j ∈ l ∨ j.rev ∈ l) → (l.foldl exchange ks).get j = ks.get j) := by
  induction l generalizing ks with
  | nil => simp
  | cons i l ih =>
    obtain ⟨hi, hl⟩ := nodup_cons.mp hl
    have hrev : i.rev ∉ l := by
      intro hmem
      have h := hlow i mem_cons_self
      have h' := hlow i.rev (mem_cons_of_mem i hmem)
      rw [Fin.val_rev] at h'
      omega
    have hrest := ih hl (fun k hk => hlow k (mem_cons_of_mem i hk)) (exchange ks i)
    rw [foldl_cons]
    by_cases hj : j = i ∨ j = i.rev
    · have hout : ¬ (j ∈ l ∨ j.rev ∈ l) := by
        rcases hj with rfl | rfl
        · exact not_or.mpr ⟨hi, hrev⟩
        · rw [Fin.rev_rev]
          exact not_or.mpr ⟨hrev, hi⟩
      have hin : j ∈ i :: l ∨ j.rev ∈ i :: l := by
        rcases hj with rfl | rfl
        · exact .inl mem_cons_self
        · rw [Fin.rev_rev]
          exact .inr mem_cons_self
      refine ⟨fun _ => ?_, fun hnot => absurd hin hnot⟩
      rw [hrest.2 hout, get_exchange, if_pos hj]
    · obtain ⟨hne, hne'⟩ := not_or.mp hj
      have hback : j.rev ≠ i := fun h => hne' (by rw [← h, Fin.rev_rev])
      have hother : ¬ (j.rev = i ∨ j.rev = i.rev) :=
        not_or.mpr ⟨hback, fun h => hne (Fin.rev_inj.mp h)⟩
      rw [get_exchange, get_exchange, if_neg hj, if_neg hother] at hrest
      simpa only [mem_cons, hne, hback, false_or] using hrest

theorem keyList_decrypt (key : Block 8) :
    keyList (genSubkeys .decrypt key) = (keyList (genSubkeys .encrypt key)).reverse := by
  apply keyList_eq_reverse
  intro i
  have hlow : ∀ i : Fin 16, i.rev ∈ [0, 1, 2, 3, 4, 5, 6, 7] ∨
      i.rev.rev ∈ [0, 1, 2, 3, 4, 5, 6, 7] := by
    decide
  rw [genSubkeys, (get_foldl_exchange _ (by decide) (by decide) _ _).1 (hlow i), Fin.rev_rev]
  rfl

end MuggleC.Crypt.OpensslDes
