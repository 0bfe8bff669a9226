/- source: crypt/des.c, crypt/tdes.c, crypt/openssl/openssl_des.c
   digest: TDES against three passes of DES in both builds, and the two builds of DES against each
   other. -/

import MuggleC.Crypt.ModeLaws
import MuggleC.Crypt.OpensslDes

set_option autoImplicit false

namespace MuggleC.Crypt.DesLaws

open Base Crypt.Modes Crypt.ModeLaws Crypt.Words
open Crypt.InternalDes (Subkeys keyList)
open Foundation.Feistel Foundation.Lanes

section Blocks

variable {σ : Type} (code : DesCode σ)

def desBlock (op : Op) (key b : Block 8) : Except Err (Block 8) := do
  let ctx ← desSetKey code op.value Mode.ecb.value (some key) true
  pure (desCrypt code ctx.op ctx.sk b)

def tdesBlock (op : Op) (mode : Mode) (key1 key2 key3 b : Block 8) : Except Err (Block 8) := do
  let ctx ← tdesSetKey code op.value mode.value (some key1) (some key2) (some key3) true
  pure (Modes.tdesCrypt code ctx.op ctx.sk b)

def des (op : Op) (key b : Block 8) : Block 8 := code.crypt (code.setKeyInner op key) b

/-- TDES of a block is what three passes of DES make of it, and one pass if the keys are equal. In
every mode a context for encryption encrypts blocks; those for decryption decrypt them in ECB and
CBC. -/
structure Composes (key1 key2 key3 b : Block 8) : Prop where
  encrypt : ∀ mode, tdesBlock code .encrypt mode key1 key2 key3 b =
    (desBlock code .encrypt key1 b >>= desBlock code .decrypt key2) >>= desBlock code .encrypt key3
  decrypt : ∀ mode, mode = .ecb ∨ mode = .cbc → tdesBlock code .decrypt mode key1 key2 key3 b =
    (desBlock code .decrypt key3 b >>= desBlock code .encrypt key2) >>= desBlock code .decrypt key1
  encrypt_single : key1 = key2 → key2 = key3 → ∀ mode,
    tdesBlock code .encrypt mode key1 key2 key3 b = desBlock code .encrypt key1 b
  decrypt_single : key1 = key2 → key2 = key3 → ∀ mode, mode = .ecb ∨ mode = .cbc →
    tdesBlock code .decrypt mode key1 key2 key3 b = desBlock code .decrypt key1 b

variable {code}

theorem desBlock_eq (op : Op) (key b : Block 8) :
    desBlock code op key b = .ok (des code op key b) := by
  rw [desBlock, desSetKey_ok]
  rfl

theorem tdesBlock_eq (op : Op) (mode : Mode) (key1 key2 key3 b : Block 8) :
    tdesBlock code op mode key1 key2 key3 b =
      .ok (Modes.tdesCrypt code op (tdesKeys code key1 key2 key3 (blockOp op mode)) b) := by
  rw [tdesBlock, tdesSetKey_ok]
  rfl

theorem blockOp_encrypt (mode : Mode) : blockOp .encrypt mode = .encrypt := by
  cases mode with
  | ecb => rfl
  | cbc => rfl
  | cfb => rfl
  | ofb => rfl
  | ctr => rfl

theorem blockOp_block {mode : Mode} (op : Op) (h : mode = .ecb ∨ mode = .cbc) :
    blockOp op mode = op := by
  rcases h with rfl | rfl
  · rfl
  · rfl

def Passes (code : DesCode σ) (op : Op) (key1 key2 key3 b : Block 8) : Prop :=
  code.tdesCrypt (code.setKeyInner op key1) (code.setKeyInner op.inv key2)
      (code.setKeyInner op key3) b =
    des code op key3 (des code op.inv key2 (des code op key1 b))

theorem composes_iff (hinv : ∀ op key b, des code (Op.inv op) key (des code op key b) = b)
    (key1 key2 key3 b : Block 8) : Composes code key1 key2 key3 b ↔
      Passes code .encrypt key1 key2 key3 b ∧ Passes code .decrypt key3 key2 key1 b := by
  constructor
  · intro h
    have henc := h.encrypt .ecb
    have hdec := h.decrypt .ecb (.inl rfl)
    exact ⟨Except.ok.inj henc, Except.ok.inj hdec⟩
  · rintro ⟨henc, hdec⟩
    have encrypt : ∀ mode, tdesBlock code .encrypt mode key1 key2 key3 b =
        .ok (des code .encrypt key3 (des code .decrypt key2 (des code .encrypt key1 b))) := by
      intro mode
      rw [tdesBlock_eq, blockOp_encrypt]
      exact congrArg Except.ok henc
    have decrypt : ∀ mode, mode = .ecb ∨ mode = .cbc →
        tdesBlock code .decrypt mode key1 key2 key3 b =
          .ok (des code .decrypt key1 (des code .encrypt key2 (des code .decrypt key3 b))) := by
      intro mode hmode
      rw [tdesBlock_eq, blockOp_block .decrypt hmode]
      exact congrArg Except.ok hdec
    refine ⟨fun mode => ?_, fun mode hmode => ?_, ?_, ?_⟩
    · simp only [encrypt, desBlock_eq]
      rfl
    · simp only [decrypt mode hmode, desBlock_eq]
      rfl
    · rintro rfl rfl mode
      rw [encrypt, desBlock_eq]
      exact congrArg Except.ok (congrArg _ (hinv .encrypt key1 b))
    · rintro rfl rfl mode hmode
      rw [decrypt mode hmode, desBlock_eq]
      exact congrArg Except.ok (congrArg _ (hinv .decrypt key1 b))

end Blocks

structure OnNetwork (code : DesCode Subkeys) (N : Network (Block 8) 32)
    (f : BitVec 32 → Block 8 → BitVec 32) : Prop where
  crypt_eq : ∀ ks b, code.crypt ks b = N.crypt f (keyList ks) b
  keys : ∀ key, keyList (code.setKeyInner .decrypt key) =
    (keyList (code.setKeyInner .encrypt key)).reverse

theorem internal_onNetwork : OnNetwork InternalDes.code InternalDes.network InternalDes.f :=
  ⟨InternalDes.crypt_eq, InternalDes.keyList_decrypt⟩

theorem openssl_onNetwork : OnNetwork OpensslDes.code OpensslDes.network OpensslDes.f :=
  ⟨OpensslDes.crypt_eq, OpensslDes.keyList_decrypt⟩

namespace OnNetwork

variable {code : DesCode Subkeys} {N : Network (Block 8) 32} {f : BitVec 32 → Block 8 → BitVec 32}

theorem keys_inv (h : OnNetwork code N f) (op : Op) (key : Block 8) :
    keyList (code.setKeyInner op.inv key) = (keyList (code.setKeyInner op key)).reverse := by
  cases op with
  | decrypt =>
    rw [h.keys, List.reverse_reverse]
    rfl
  | encrypt => exact h.keys key

theorem des_inv (h : OnNetwork code N f) (op : Op) (key b : Block 8) :
    des code op.inv key (des code op key b) = b := by
  rw [des, des, h.crypt_eq, h.crypt_eq, h.keys_inv, N.crypt_reverse]

end OnNetwork

def exchangePairs (x : Byte) : Byte := (x &&& 0x55) <<< 1 ||| (x >>> 1 &&& 0x55)

def exchangeBits (b : Block 8) : Block 8 := b.map exchangePairs

private theorem getLsbD_exchangePairs : ∀ x : Byte, ∀ i < 8,
    (exchangePairs x).getLsbD i = x.getLsbD (i ^^^ 1) := by
  decide +kernel

private theorem getLsbD_u64 (b : Block 8) {i : ℕ} (hi : i < 64) :
    (u64 b).getLsbD i = (b.get ⟨i / 8, by omega⟩).getLsbD (i % 8) := by
  rw [← lane_u64, getLsbD_lane _ _ (Nat.mod_lt i (by decide)), Nat.div_add_mod]

private theorem getLsbD_u64_exchangeBits (b : Block 8) {i : ℕ} (hi : i < 64) :
    (u64 (exchangeBits b)).getLsbD i = (u64 b).getLsbD (i ^^^ 1) := by
  have hplace : ∀ k < 64, k ^^^ 1 < 64 ∧ (k ^^^ 1) / 8 = k / 8 ∧ (k ^^^ 1) % 8 = k % 8 ^^^ 1 := by
    decide +kernel
  obtain ⟨hlt, hdiv, hmod⟩ := hplace i hi
  have hget : (exchangeBits b).get ⟨i / 8, by omega⟩ = exchangePairs (b.get ⟨i / 8, by omega⟩) :=
    Vector.getElem_map _ (by omega)
  rw [getLsbD_u64 _ hi, getLsbD_u64 _ hlt, hget,
    getLsbD_exchangePairs _ _ (Nat.mod_lt i (by decide)), hmod]
  simp only [hdiv]

private theorem permuteSource_pairs : ∀ i < 32,
    InternalDes.permuteSource InternalDes.ipLow InternalDes.ipHigh i ^^^ 1 =
      InternalDes.permuteSource InternalDes.ipLow InternalDes.ipHigh (32 + i) ∧
    InternalDes.permuteSource InternalDes.ipLow InternalDes.ipHigh (32 + i) ^^^ 1 =
      InternalDes.permuteSource InternalDes.ipLow InternalDes.ipHigh i := by
  decide +kernel

private theorem split_exchangeBits (b : Block 8) :
    InternalDes.network.split (exchangeBits b) = (InternalDes.network.split b).swap := by
  have hip : ∀ i < 64, (InternalDes.ip (u64 (exchangeBits b))).getLsbD i = (u64 b).getLsbD
      (InternalDes.permuteSource InternalDes.ipLow InternalDes.ipHigh i ^^^ 1) := by
    intro i hi
    rw [InternalDes.getLsbD_ip _ hi,
      getLsbD_u64_exchangeBits b (InternalDes.permuteSource_inverse i hi).1.1]
  apply Halves.ext
  · apply BitVec.eq_of_getLsbD_eq
    intro i hi
    simp only [InternalDes.network, halves, Halves.swap, BitVec.getLsbD_extractLsb', Nat.zero_add]
    rw [hip i (by omega), InternalDes.getLsbD_ip _ (by omega), (permuteSource_pairs i hi).1]
  · apply BitVec.eq_of_getLsbD_eq
    intro i hi
    simp only [InternalDes.network, halves, Halves.swap, BitVec.getLsbD_extractLsb', Nat.zero_add]
    rw [hip (32 + i) (by omega), InternalDes.getLsbD_ip _ (by omega), (permuteSource_pairs i hi).2]

private theorem merge_swap_split (b : Block 8) :
    InternalDes.network.merge (InternalDes.network.split b).swap = exchangeBits b := by
  rw [← split_exchangeBits, InternalDes.network.merge_split]

/-- DES of the plain build makes of the exchanged block the exchanged result. -/
def CommutesAt (op : Op) (key b : Block 8) : Prop :=
  des InternalDes.code op key (exchangeBits b) = exchangeBits (des InternalDes.code op key b)

instance (op : Op) (key b : Block 8) : Decidable (CommutesAt op key b) :=
  inferInstanceAs (Decidable (_ = _))

theorem internal_passes_iff (op : Op) (key1 key2 key3 b : Block 8) :
    Passes InternalDes.code op key1 key2 key3 b ↔
      CommutesAt op.inv key2 (des InternalDes.code op key1 b) := by
  have hdes : ∀ op key b, des InternalDes.code op key b =
      InternalDes.network.crypt InternalDes.f (keyList (InternalDes.code.setKeyInner op key)) b :=
    fun op key b => internal_onNetwork.crypt_eq _ b
  have htdes : ∀ ks1 ks2 ks3, InternalDes.code.tdesCrypt ks1 ks2 ks3 b = _ :=
    fun ks1 ks2 ks3 => InternalDes.tdesCrypt_eq ks1 ks2 ks3 b
  rw [Passes, CommutesAt, htdes, hdes, hdes, hdes, hdes, ← merge_swap_split, ← merge_swap_split]
  exact InternalDes.network.chained_eq_iff ..

theorem openssl_passes (op : Op) (key1 key2 key3 b : Block 8) :
    Passes OpensslDes.code op key1 key2 key3 b :=
  OpensslDes.tdesCrypt_eq ..

/-- In the optimised build TDES always composes. In the plain build, whose passes do not swap the
halves, it does exactly where the second pass commutes with exchanging the pairs of bits that the
initial permutation puts into different halves. -/
theorem tdes_composes_iff (key1 key2 key3 b : Block 8) : Composes OpensslDes.code key1 key2 key3 b ∧
    (Composes InternalDes.code key1 key2 key3 b ↔
      CommutesAt .decrypt key2 (des InternalDes.code .encrypt key1 b) ∧
      CommutesAt .encrypt key2 (des InternalDes.code .decrypt key3 b)) := by
  constructor
  · rw [composes_iff openssl_onNetwork.des_inv]
    exact ⟨openssl_passes .., openssl_passes ..⟩
  · rw [composes_iff internal_onNetwork.des_inv, internal_passes_iff, internal_passes_iff]
    rfl

/-- A block comes back from DES with the subkeys of the other operation, and from TDES with a context
for decryption of blocks. -/
structure BlocksBack {σ : Type} (code : DesCode σ) : Prop where
  des : ∀ key b, des code .decrypt key (des code .encrypt key b) = b
  tdes : ∀ mode, mode = .ecb ∨ mode = .cbc → ∀ key1 key2 key3 b,
    (tdesBlock code .encrypt mode key1 key2 key3 b >>=
      tdesBlock code .decrypt mode key1 key2 key3) = .ok b

variable {code : DesCode Subkeys} {N : Network (Block 8) 32} {f : BitVec 32 → Block 8 → BitVec 32}

private theorem blocksBack_of (h : OnNetwork code N f)
    (htdes : ∀ key1 key2 key3 b, code.tdesCrypt (code.setKeyInner .decrypt key3)
      (code.setKeyInner .encrypt key2) (code.setKeyInner .decrypt key1)
      (code.tdesCrypt (code.setKeyInner .encrypt key1) (code.setKeyInner .decrypt key2)
        (code.setKeyInner .encrypt key3) b) = b) : BlocksBack code where
  des := h.des_inv .encrypt
  tdes mode hmode key1 key2 key3 b := by
    rw [tdesBlock_eq, blockOp_encrypt]
    change tdesBlock code .decrypt mode key1 key2 key3 _ = _
    rw [tdesBlock_eq, blockOp_block .decrypt hmode]
    exact congrArg Except.ok (htdes key1 key2 key3 b)

private theorem internal_tdes_inv (key1 key2 key3 b : Block 8) :
    InternalDes.code.tdesCrypt (InternalDes.code.setKeyInner .decrypt key3)
      (InternalDes.code.setKeyInner .encrypt key2) (InternalDes.code.setKeyInner .decrypt key1)
      (InternalDes.code.tdesCrypt (InternalDes.code.setKeyInner .encrypt key1)
        (InternalDes.code.setKeyInner .decrypt key2) (InternalDes.code.setKeyInner .encrypt key3) b) =
      b := by
  have hpass : ∀ ks1 ks2 ks3 b, InternalDes.code.tdesCrypt ks1 ks2 ks3 b =
      InternalDes.network.crypt InternalDes.f (keyList ks1 ++ keyList ks2 ++ keyList ks3) b := by
    intro ks1 ks2 ks3 b
    exact InternalDes.tdesCrypt_eq ks1 ks2 ks3 b
  have hkeys : keyList (InternalDes.code.setKeyInner .encrypt key2) =
      (keyList (InternalDes.code.setKeyInner .decrypt key2)).reverse :=
    internal_onNetwork.keys_inv .decrypt key2
  rw [hpass, hpass, internal_onNetwork.keys key3, hkeys, internal_onNetwork.keys key1,
    ← List.reverse_append, ← List.reverse_append, ← List.append_assoc,
    InternalDes.network.crypt_reverse]

private theorem openssl_tdes_inv (key1 key2 key3 b : Block 8) :
    OpensslDes.code.tdesCrypt (OpensslDes.code.setKeyInner .decrypt key3)
      (OpensslDes.code.setKeyInner .encrypt key2) (OpensslDes.code.setKeyInner .decrypt key1)
      (OpensslDes.code.tdesCrypt (OpensslDes.code.setKeyInner .encrypt key1)
        (OpensslDes.code.setKeyInner .decrypt key2) (OpensslDes.code.setKeyInner .encrypt key3) b) =
      b := by
  have henc := openssl_passes .encrypt key1 key2 key3 b
  have hdec := openssl_passes .decrypt key3 key2 key1
    (des OpensslDes.code .encrypt key3 (des OpensslDes.code .decrypt key2
      (des OpensslDes.code .encrypt key1 b)))
  have hinv := fun op key b => openssl_onNetwork.des_inv op key b
  refine (congrArg _ henc).trans (hdec.trans ?_)
  change des OpensslDes.code (Op.inv .encrypt) key1 (des OpensslDes.code (Op.inv .decrypt) key2
    (des OpensslDes.code (Op.inv .encrypt) key3 _)) = b
  rw [hinv .encrypt key3, hinv .decrypt key2, hinv .encrypt key1]

/-- In both builds, for every key of DES and every three keys of TDES, decryption of a block takes its
encryption back. -/
theorem blocks_come_back : BlocksBack InternalDes.code ∧ BlocksBack OpensslDes.code :=
  ⟨blocksBack_of internal_onNetwork internal_tdes_inv,
    blocksBack_of openssl_onNetwork openssl_tdes_inv⟩

theorem not_composes_of_zero : ¬ Composes InternalDes.code (leBytes 0) (leBytes 0) (leBytes 0)
    (leBytes 0) := by
  intro h
  have hpasses := ((composes_iff internal_onNetwork.des_inv ..).mp h).1
  have hcommutes := (internal_passes_iff ..).mp hpasses
  have hzero : exchangeBits (leBytes 0) = leBytes 0 := by decide +kernel
  -- exchanging the pairs would have to leave the encrypted block as it is
  have hfixed := internal_onNetwork.des_inv .decrypt (leBytes 0)
    (exchangeBits (des InternalDes.code .encrypt (leBytes 0) (leBytes 0)))
  rw [show des InternalDes.code .decrypt _ _ = _ from hcommutes] at hfixed
  revert hfixed
  decide +kernel

def SameBlock (key b : Block 8) : Prop :=
  ∀ op, desBlock InternalDes.code op key b = desBlock OpensslDes.code op key b

/-- The subkeys read the same backwards, and the halves of the block meet after half of the
rounds. -/
structure Meets (N : Network (Block 8) 32) (f : BitVec 32 → Block 8 → BitVec 32) (ks : Subkeys)
    (b : Block 8) : Prop where
  palindrome : (keyList ks).reverse = keyList ks
  meet : (rounds f ((keyList ks).take 8) (N.split b)).l =
    (rounds f ((keyList ks).take 8) (N.split b)).h

private theorem length_keyList (ks : Subkeys) : (keyList ks).length = 16 := by
  rw [keyList, List.length_map, List.length_finRange]

theorem OnNetwork.des_eq_self (h : OnNetwork code N f) {key b : Block 8}
    (hmeet : Meets N f (code.setKeyInner .encrypt key) b) (op : Op) : des code op key b = b := by
  set ks := keyList (code.setKeyInner .encrypt key) with hks
  have hlen : ks.length = 16 := length_keyList _
  have hhalf : (ks.take 8).reverse = ks.drop 8 := by
    rw [List.reverse_take, hlen, hmeet.palindrome]
  have hkeys : keyList (code.setKeyInner op key) = ks.take 8 ++ (ks.take 8).reverse := by
    rw [hhalf, List.take_append_drop]
    cases op with
    | decrypt => rw [h.keys, hmeet.palindrome]
    | encrypt => rfl
  rw [des, h.crypt_eq, hkeys, N.crypt_palindrome f _ hmeet.meet]

/-- The builds agree on a block that meets in the middle of the rounds of both. -/
theorem sameBlock_of_meets (key b : Block 8)
    (hplain : Meets InternalDes.network InternalDes.f (InternalDes.setKeyInner .encrypt key) b)
    (hfast : Meets OpensslDes.network OpensslDes.f (OpensslDes.genSubkeys .encrypt key) b) :
    SameBlock key b := by
  intro op
  rw [desBlock_eq, desBlock_eq, internal_onNetwork.des_eq_self hplain,
    openssl_onNetwork.des_eq_self hfast]

theorem sameBlock_of_zero : SameBlock (leBytes 0) (leBytes 0xe69c0c2934defe72) :=
  sameBlock_of_meets _ _ ⟨by decide +kernel, by decide +kernel⟩
    ⟨by decide +kernel, by decide +kernel⟩

theorem not_sameBlock_of_zero : ¬ SameBlock (leBytes 0) (leBytes 0) := by
  intro h
  have henc := h .encrypt
  revert henc
  decide +kernel

end MuggleC.Crypt.DesLaws
