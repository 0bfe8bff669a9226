/- source: crypt/aes.c, crypt/internal/internal_aes.c, crypt/openssl/openssl_aes.c
   digest: The two builds of AES expand each key to the same words and make the same of each block,
   so that every mode answers alike in both. -/

import MuggleC.Crypt.ModeLaws
import MuggleC.Crypt.OpensslAes

set_option autoImplicit false

namespace MuggleC.Crypt.AesLaws

open Base Crypt.Modes Crypt.ModeLaws
open Crypt.InternalAes (square place)
open Crypt.OpensslAes (galoisMul_one galoisMul_two galoisMul_three galoisMul_nine
  galoisMul_eleven galoisMul_thirteen galoisMul_fourteen xtimeByte_xor)
open Crypt.OpensslSub (xtimeByte)

section Contexts

variable {σ τ : Type}

def Agree (code : AesCode σ) (code' : AesCode τ) : Prop :=
  ∀ op bits key b,
    aesCrypt code op (code.expandKey bits key) b = aesCrypt code' op (code'.expandKey bits key) b

def ByBlocks {α : Type} (run : ∀ κ : Type, (Op → κ → Block 16 → Block 16) → Context κ → α) :
    Prop :=
  ∀ (κ : Type) (crypt : Op → κ → Block 16 → Block 16) (op : Op) (mode : Mode) (sk : κ),
    run κ crypt ⟨op, mode, sk⟩ = run _ (fun op f => f op) ⟨op, mode, fun op => crypt op sk⟩

variable {code : AesCode σ} {code' : AesCode τ}

theorem Agree.run (h : Agree code code') {α : Type}
    {run : ∀ κ : Type, (Op → κ → Block 16 → Block 16) → Context κ → Except Err α}
    (hrun : ByBlocks run) (op mode : Int) (key : Option (List Byte)) (bits : Int) (ctx : Bool) :
    (aesSetKey code op mode key bits ctx >>= run σ (aesCrypt code)) =
      (aesSetKey code' op mode key bits ctx >>= run τ (aesCrypt code')) := by
  have hbody : ∀ op mode bits key, run σ (aesCrypt code) ⟨op, mode, code.expandKey bits key⟩ =
      run τ (aesCrypt code') ⟨op, mode, code'.expandKey bits key⟩ := by
    intro op mode bits key
    have hcrypt : (fun op => aesCrypt code op (code.expandKey bits key)) =
        fun op => aesCrypt code' op (code'.expandKey bits key) :=
      funext fun op => funext fun b => h op bits key b
    rw [hrun σ, hrun τ, hcrypt]
  simp only [aesSetKey, bind_assoc, pure_bind, hbody]

end Contexts

theorem square_injective {b b' : Block 16} (h : square b = square b') : b = b' := by
  apply Vector.ext
  intro k hk
  have hplace : place ⟨k % 4, by omega⟩ ⟨k / 4, by omega⟩ = ⟨k, hk⟩ :=
    Fin.ext (Nat.div_add_mod k 4)
  have hbyte := congrFun₂ h ⟨k % 4, by omega⟩ ⟨k / 4, by omega⟩
  rw [square, square, hplace] at hbyte
  exact hbyte

theorem builds_agree : Agree InternalAes.code OpensslAes.code := by
  intro op bits key b
  apply square_injective
  cases op with
  | encrypt =>
    rw [aesCrypt, aesCrypt, InternalAes.square_encrypt, OpensslAes.square_encrypt]
  | decrypt =>
    rw [aesCrypt, aesCrypt, InternalAes.square_decrypt, OpensslAes.square_decrypt]

private theorem invSbox_sbox : ∀ b : Byte, InternalAes.invSbox (InternalAes.sbox b) = b := by
  apply OpensslSub.forall_byte <;> decide +kernel

private theorem tables_mix (x : Byte) :
    InternalAes.tables.mix 0 x = xtimeByte x ∧ InternalAes.tables.mix 1 x = x ^^^ xtimeByte x ∧
    InternalAes.tables.mix 2 x = x ∧ InternalAes.tables.mix 3 x = x :=
  ⟨galoisMul_two x, galoisMul_three x, galoisMul_one x, galoisMul_one x⟩

private theorem tables_invMix (x : Byte) : InternalAes.tables.invMix 0 x =
      xtimeByte x ^^^ xtimeByte (xtimeByte x) ^^^ xtimeByte (xtimeByte (xtimeByte x)) ∧
    InternalAes.tables.invMix 1 x = x ^^^ xtimeByte x ^^^ xtimeByte (xtimeByte (xtimeByte x)) ∧
    InternalAes.tables.invMix 2 x =
      x ^^^ xtimeByte (xtimeByte x) ^^^ xtimeByte (xtimeByte (xtimeByte x)) ∧
    InternalAes.tables.invMix 3 x = x ^^^ xtimeByte (xtimeByte (xtimeByte x)) :=
  ⟨galoisMul_fourteen x, galoisMul_eleven x, galoisMul_thirteen x, galoisMul_nine x⟩

private theorem xor_left_comm (a b c : Byte) : a ^^^ (b ^^^ c) = b ^^^ (a ^^^ c) := by ac_rfl

private theorem xor_xor_cancel (a b : Byte) : a ^^^ (a ^^^ b) = b := by
  rw [← BitVec.xor_assoc, BitVec.xor_self, BitVec.zero_xor]

-- equal powers of `xtime` come together and cancel
private theorem tables_inverts : InternalAes.tables.Inverts where
  sub := invSbox_sbox
  add k x y := by
    match k with
    | 0 | 1 | 2 | 3 =>
      simp only [tables_invMix, xtimeByte_xor]
      ac_rfl
  same x := by
    simp only [tables_mix, tables_invMix, xtimeByte_xor, BitVec.xor_assoc, xor_left_comm,
      BitVec.xor_comm, xor_xor_cancel, BitVec.xor_self, BitVec.xor_zero, BitVec.zero_xor]
  below x := by
    simp only [tables_mix, tables_invMix, xtimeByte_xor, BitVec.xor_assoc, xor_left_comm,
      BitVec.xor_comm, xor_xor_cancel, BitVec.xor_self, BitVec.zero_xor]
  across x := by
    simp only [tables_mix, tables_invMix, xtimeByte_xor, BitVec.xor_assoc, xor_left_comm,
      BitVec.xor_comm, xor_xor_cancel, BitVec.xor_self, BitVec.zero_xor]
  above x := by
    simp only [tables_mix, tables_invMix, xtimeByte_xor, BitVec.xor_assoc, xor_left_comm,
      BitVec.xor_comm, xor_xor_cancel, BitVec.xor_self, BitVec.zero_xor]

/-- For each array of round keys and each number of rounds that the checks of the plain build let
through, decryption takes encryption back in both builds. -/
theorem decrypt_encrypt_block :
    (∀ sk : InternalAes.Subkeys, sk.rounds = 10 ∨ sk.rounds = 12 ∨ sk.rounds = 14 → ∀ b,
      InternalAes.code.decrypt sk (InternalAes.code.encrypt sk b) = b) ∧
    ∀ sk : OpensslAes.Subkeys, sk.rounds = 10 ∨ sk.rounds = 12 ∨ sk.rounds = 14 → ∀ b,
      OpensslAes.code.decrypt sk (OpensslAes.code.encrypt sk b) = b := by
  constructor
  · intro sk h b
    apply square_injective
    rw [InternalAes.square_crypt_decrypt h, InternalAes.square_crypt_encrypt h,
      (tables_inverts.machine _).decrypt_encrypt]
  · intro sk _ b
    apply square_injective
    change square (OpensslAes.invCipher (OpensslAes.cipher b sk.rk sk.rounds) sk.rk sk.rounds) = _
    rw [OpensslAes.square_invCipher, OpensslAes.square_cipher,
      (tables_inverts.machine _).decrypt_encrypt]

theorem decrypt_encrypt_block_twelve : InternalAes.code.decrypt ⟨List.replicate 52 0x01020304, 12⟩
      (InternalAes.code.encrypt ⟨List.replicate 52 0x01020304, 12⟩ (Vector.replicate 16 0x5a)) =
      Vector.replicate 16 0x5a :=
  decrypt_encrypt_block.1 _ (.inr (.inl rfl)) _

private theorem builds_schedule (bits : KeyBits) (key : List Byte) :
    InternalAes.words (InternalAes.code.expandKey bits key).rdKey =
      OpensslAes.words (OpensslAes.code.expandKey bits key).rk :=
  (InternalAes.words_expandKey bits key).trans (OpensslAes.words_setKey bits key).symm

def aesBlock {σ : Type} (code : AesCode σ) (op mode : Int) (key : Option (List Byte)) (bits : Int)
    (ctx : Bool) (b : Block 16) : Except Err (Block 16) :=
  aesSetKey code op mode key bits ctx >>= fun ctx => pure (aesCrypt code ctx.op ctx.sk b)

/-- The plain build and the optimised one expand a key to the same words, for the same number of
rounds, and encrypt and decrypt each block alike. -/
theorem internal_openssl_same : (∀ bits key,
      (InternalAes.code.expandKey bits key).rounds = (OpensslAes.code.expandKey bits key).rounds ∧
      InternalAes.words (InternalAes.code.expandKey bits key).rdKey =
        OpensslAes.words (OpensslAes.code.expandKey bits key).rk) ∧
    (∀ op bits key b, aesCrypt InternalAes.code op (InternalAes.code.expandKey bits key) b =
        aesCrypt OpensslAes.code op (OpensslAes.code.expandKey bits key) b) ∧
    ∀ op mode key bits ctx b, aesBlock InternalAes.code op mode key bits ctx b =
        aesBlock OpensslAes.code op mode key bits ctx b := by
  refine ⟨fun bits key => ⟨?_, builds_schedule bits key⟩, builds_agree, ?_⟩
  · exact (InternalAes.rounds_expandKey bits key).trans (OpensslAes.rounds_setKey bits key).symm
  · intro op mode key bits ctx b
    have hrun : ByBlocks fun κ crypt (ctx : Context κ) =>
        (pure (crypt ctx.op ctx.sk b) : Except Err (Block 16)) := fun _ _ _ _ _ => rfl
    exact builds_agree.run hrun op mode key bits ctx

private theorem checkMode_some {κ : Type} (mode : Mode) (ctx : Context κ) :
    checkMode mode (some ctx) = if ctx.mode = mode then .ok ctx else .error .invalidParam := by
  by_cases h : ctx.mode = mode
  · rw [if_pos h]
    exact checkMode_ok h
  · have hcheck : checkRet (ctx.mode = mode) .invalidParam = .error .invalidParam :=
      if_neg (mt of_decide_eq_true h)
    rw [if_neg h]
    show (checkRet (ctx.mode = mode) .invalidParam >>= fun _ => pure ctx) = _
    rw [hcheck]
    rfl

theorem byBlocks_checkMode {α : Type} (mode : Mode)
    {rest : ∀ κ : Type, (Op → κ → Block 16 → Block 16) → Context κ → Except Err α}
    (hrest : ByBlocks rest) :
    ByBlocks fun κ crypt ctx => checkMode mode (some ctx) >>= rest κ crypt := by
  intro κ crypt op mode' sk
  simp only [checkMode_some]
  split
  · exact hrest κ crypt op mode' sk
  · rfl

section Functions

variable (input : Option Message) (iv : Option (Block 16)) (offset : Option ℕ) (output : Bool)

private theorem byBlocks_ecb : ByBlocks fun _ crypt ctx => ecb crypt (some ctx) input output :=
  byBlocks_checkMode .ecb fun _ _ _ _ _ => rfl

private theorem byBlocks_cbc : ByBlocks fun _ crypt ctx => cbc crypt (some ctx) input iv output :=
  byBlocks_checkMode .cbc fun _ _ _ _ _ => rfl

private theorem byBlocks_cfb (mask : Fin 16) :
    ByBlocks fun _ crypt ctx => cfb crypt mask (some ctx) input iv offset output :=
  byBlocks_checkMode .cfb fun _ _ _ _ _ => rfl

private theorem byBlocks_ofb (mask : Fin 16) :
    ByBlocks fun _ crypt ctx => ofb crypt mask (some ctx) input iv offset output :=
  byBlocks_checkMode .ofb fun _ _ _ _ _ => rfl

private theorem byBlocks_ctr (mask : Fin 16) {ν : Type} (count : Nonce ν 16) (nonce : Option ν) :
    ByBlocks fun _ crypt ctx => ctr crypt mask count (some ctx) input nonce offset iv output :=
  byBlocks_checkMode .ctr fun _ _ _ _ _ => rfl

end Functions

/-- What two builds answer, for each mode, on the context that each has filled. -/
structure SameMessages {σ τ : Type} (code : AesCode σ) (code' : AesCode τ) : Prop where
  ecb : ∀ op mode key bits ctx input output,
    (aesSetKey code op mode key bits ctx >>= fun c => aesEcb code (some c) input output) =
      aesSetKey code' op mode key bits ctx >>= fun c => aesEcb code' (some c) input output
  cbc : ∀ op mode key bits ctx input iv output,
    (aesSetKey code op mode key bits ctx >>= fun c => aesCbc code (some c) input iv output) =
      aesSetKey code' op mode key bits ctx >>= fun c => aesCbc code' (some c) input iv output
  cfb : ∀ op mode key bits ctx input iv offset output,
    (aesSetKey code op mode key bits ctx >>=
        fun c => aesCfb128 code (some c) input iv offset output) =
      aesSetKey code' op mode key bits ctx >>=
        fun c => aesCfb128 code' (some c) input iv offset output
  ofb : ∀ op mode key bits ctx input iv offset output,
    (aesSetKey code op mode key bits ctx >>=
        fun c => aesOfb128 code (some c) input iv offset output) =
      aesSetKey code' op mode key bits ctx >>=
        fun c => aesOfb128 code' (some c) input iv offset output
  ctr : ∀ op mode key bits ctx input nonce offset streamBlock output,
    (aesSetKey code op mode key bits ctx >>=
        fun c => aesCtr code (some c) input nonce offset streamBlock output) =
      aesSetKey code' op mode key bits ctx >>=
        fun c => aesCtr code' (some c) input nonce offset streamBlock output

theorem Agree.sameMessages {σ τ : Type} {code : AesCode σ} {code' : AesCode τ}
    (h : Agree code code') : SameMessages code code' where
  ecb op mode key bits ctx input output := h.run (byBlocks_ecb input output) op mode key bits ctx
  cbc op mode key bits ctx input iv output :=
    h.run (byBlocks_cbc input iv output) op mode key bits ctx
  cfb op mode key bits ctx input iv offset output :=
    h.run (byBlocks_cfb input iv (some offset) output 0x0f) op mode key bits ctx
  ofb op mode key bits ctx input iv offset output :=
    h.run (byBlocks_ofb input iv (some offset) output 0x0f) op mode key bits ctx
  ctr op mode key bits ctx input nonce offset streamBlock output :=
    h.run (byBlocks_ctr input streamBlock offset output 0x0f aesNonce (some nonce)) op mode key
      bits ctx

theorem builds_same_messages : SameMessages InternalAes.code OpensslAes.code :=
  builds_agree.sameMessages

end MuggleC.Crypt.AesLaws
