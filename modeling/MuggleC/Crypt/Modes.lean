/- source: crypt/aes.c, crypt/des.c, crypt/tdes.c, crypt/crypt_utils.h
   digest: The five block cipher modes of AES, DES and TDES, and the views of a block in memory. -/

import MuggleC.Base.Utils
import MuggleC.Foundation.Streams

set_option autoImplicit false

/-! The library is built with one of two implementations of the single blocks; the functions of a
build are parameters here. Buffers that a call writes are results; they do not overlap with those it
reads. -/

namespace MuggleC.Crypt.Modes

open Base Foundation.Streams

abbrev Byte := BitVec 8

abbrev Block (n : Nat) := Vector Byte n

/-- `MUGGLE_DECRYPT` and `MUGGLE_ENCRYPT`. -/
inductive Op
  | decrypt
  | encrypt
  deriving DecidableEq, Repr

inductive Mode
  | ecb
  | cbc
  | cfb
  | ofb
  | ctr
  deriving DecidableEq, Repr

/-- The sizes of an AES key. -/
inductive KeyBits
  | bits128
  | bits192
  | bits256
  deriving DecidableEq, Repr

namespace Op

def value : Op → Int
  | decrypt => 0
  | encrypt => 1

def ofInt (v : Int) : Option Op :=
  if v = 0 then some decrypt else if v = 1 then some encrypt else none

def inv : Op → Op
  | decrypt => encrypt
  | encrypt => decrypt

theorem ofInt_value (op : Op) : ofInt op.value = some op := by
  cases op with
  | decrypt => rfl
  | encrypt => rfl

end Op

namespace Mode

def value : Mode → Int
  | ecb => 0
  | cbc => 1
  | cfb => 2
  | ofb => 3
  | ctr => 4

def ofInt (v : Int) : Option Mode :=
  if v = 0 then some ecb
  else if v = 1 then some cbc
  else if v = 2 then some cfb
  else if v = 3 then some ofb
  else if v = 4 then some ctr
  else none

theorem ofInt_value (mode : Mode) : ofInt mode.value = some mode := by
  cases mode with
  | ecb => rfl
  | cbc => rfl
  | cfb => rfl
  | ofb => rfl
  | ctr => rfl

end Mode

namespace KeyBits

def value : KeyBits → Int
  | bits128 => 128
  | bits192 => 192
  | bits256 => 256

def ofInt (v : Int) : Option KeyBits :=
  if v = 128 then some bits128
  else if v = 192 then some bits192
  else if v = 256 then some bits256
  else none

theorem ofInt_value (bits : KeyBits) : ofInt bits.value = some bits := by
  cases bits with
  | bits128 => rfl
  | bits192 => rfl
  | bits256 => rfl

end KeyBits

/-- A context that a `set_key` function has filled; the operation and the mode are valid, so that the
checks of `op` pass. -/
structure Context (κ : Type) where
  op : Op
  mode : Mode
  sk : κ

structure Message where
  bytes : List Byte
  fits : bytes.length < 2 ^ 32

def Message.numBytes (input : Message) : BitVec 32 := BitVec.ofNat 32 input.bytes.length

def checkRet (c : Bool) (err : Err) : Except Err Unit := if c then .ok () else .error err

def require {α : Type} (err : Err) : Option α → Except Err α
  | none => .error err
  | some a => .ok a

def checkMode {κ : Type} (mode : Mode) (ctx : Option (Context κ)) : Except Err (Context κ) := do
  let ctx ← require .nullParam ctx
  checkRet (ctx.mode = mode) .invalidParam
  pure ctx

def checkOffset (n : Nat) (offset : Nat) : Except Err (Fin n) :=
  if h : offset < n then .ok ⟨offset, h⟩ else .error .invalidParam

variable {κ ν : Type} {n : Nat}

def xorBlock (a b : Block n) : Block n := Vector.zipWith (· ^^^ ·) a b

def ecbStep (crypt : Block n → Block n) (_ : Unit) (input : Block n) : Block n × Unit :=
  (crypt input, ())

/-- One block of the CBC loop, with the next `iv`. -/
def cbcStep (op : Op) (crypt : Block n → Block n) (iv input : Block n) : Block n × Block n :=
  match op with
  | .encrypt =>
    let output := crypt (xorBlock iv input)
    (output, output)
  | .decrypt => (xorBlock (crypt input) iv, input)

structure Feedback (n : Nat) where
  iv : Block n
  offset : Fin n

def Feedback.args (s : Feedback n) : Block n × Nat := (s.iv, s.offset.val)

def advance (mask offset : Fin n) : Fin n :=
  ⟨(offset.val + 1) &&& mask.val, Nat.lt_of_le_of_lt Nat.and_le_right mask.isLt⟩

/-- One byte of the CFB loop; the `iv` gets the byte of the ciphertext. -/
def cfbStep (op : Op) (enc : Block n → Block n) (mask : Fin n) (s : Feedback n) (input : Byte) :
    Byte × Feedback n :=
  let iv := if s.offset.val = 0 then enc s.iv else s.iv
  let output := input ^^^ iv.get s.offset
  let cipher := match op with
    | .encrypt => output
    | .decrypt => input
  (output, ⟨iv.set s.offset cipher, advance mask s.offset⟩)

def ofbStep (enc : Block n → Block n) (mask : Fin n) (s : Feedback n) (input : Byte) :
    Byte × Feedback n :=
  let iv := if s.offset.val = 0 then enc s.iv else s.iv
  (input ^^^ iv.get s.offset, ⟨iv, advance mask s.offset⟩)

structure CtrState (ν : Type) (n : Nat) where
  nonce : ν
  offset : Fin n
  streamBlock : Block n

def CtrState.args (s : CtrState ν n) : ν × Nat × Block n := (s.nonce, s.offset.val, s.streamBlock)

structure Nonce (ν : Type) (n : Nat) where
  next : ν → ν
  bytes : ν → Block n

def ctrStep (enc : Block n → Block n) (count : Nonce ν n) (mask : Fin n) (s : CtrState ν n)
    (input : Byte) : Byte × CtrState ν n :=
  let nonce := if s.offset.val = 0 then count.next s.nonce else s.nonce
  let streamBlock := if s.offset.val = 0 then enc (count.bytes nonce) else s.streamBlock
  (input ^^^ streamBlock.get s.offset, ⟨nonce, advance mask s.offset, streamBlock⟩)

/-! ## The modes

A pointer that a function checks is an `Option`; `output` tells whether the output pointer is not
`NULL`. -/

section Generic

variable (crypt : Op → κ → Block n → Block n)

def ecb (ctx : Option (Context κ)) (input : Option Message) (output : Bool) :
    Except Err (List Byte) := do
  let ctx ← checkMode .ecb ctx
  let input ← require .nullParam input
  checkRet (roundUpPowOf2Mul input.numBytes (BitVec.ofNat 32 n) = input.numBytes) .invalidParam
  checkRet output .nullParam
  pure (blockwise (ecbStep (crypt ctx.op ctx.sk)) () input.bytes).1

def cbc (ctx : Option (Context κ)) (input : Option Message) (iv : Option (Block n)) (output : Bool) :
    Except Err (List Byte × Block n) := do
  let ctx ← checkMode .cbc ctx
  let input ← require .nullParam input
  checkRet (roundUpPowOf2Mul input.numBytes (BitVec.ofNat 32 n) = input.numBytes) .invalidParam
  let iv ← require .nullParam iv
  checkRet output .nullParam
  pure (blockwise (cbcStep ctx.op (crypt ctx.op ctx.sk)) iv input.bytes)

def feedback (mode : Mode) (step : Context κ → Feedback n → Byte → Byte × Feedback n)
    (ctx : Option (Context κ)) (input : Option Message) (iv : Option (Block n))
    (ivOffset : Option Nat) (output : Bool) : Except Err (List Byte × Block n × Nat) := do
  let ctx ← checkMode mode ctx
  let input ← require .nullParam input
  let iv ← require .nullParam iv
  let ivOffset ← require .nullParam ivOffset
  let offset ← checkOffset n ivOffset
  checkRet output .nullParam
  let r := emit (step ctx) ⟨iv, offset⟩ input.bytes
  pure (r.1, r.2.args)

variable (mask : Fin n)

def cfb := feedback .cfb fun ctx => cfbStep ctx.op (crypt .encrypt ctx.sk) mask

def ofb := feedback .ofb fun ctx => ofbStep (crypt .encrypt ctx.sk) mask

def ctr (count : Nonce ν n) (ctx : Option (Context κ)) (input : Option Message) (nonce : Option ν)
    (nonceOffset : Option Nat) (streamBlock : Option (Block n)) (output : Bool) :
    Except Err (List Byte × ν × Nat × Block n) := do
  let ctx ← checkMode .ctr ctx
  let input ← require .nullParam input
  let nonce ← require .nullParam nonce
  let nonceOffset ← require .nullParam nonceOffset
  let offset ← checkOffset n nonceOffset
  let streamBlock ← require .nullParam streamBlock
  checkRet output .nullParam
  let r := emit (ctrStep (crypt .encrypt ctx.sk) count mask) ⟨nonce, offset, streamBlock⟩ input.bytes
  pure (r.1, r.2.args)

end Generic

def leBytes (x : BitVec 64) : Block 8 := Vector.ofFn fun i => x.extractLsb' (8 * i) 8

section Aes

/-- The AES code of one build: key expansion and single blocks. -/
structure AesCode (σ : Type) where
  expandKey : KeyBits → List Byte → σ
  encrypt : σ → Block 16 → Block 16
  decrypt : σ → Block 16 → Block 16

variable {σ : Type} (code : AesCode σ)

def aesCrypt (op : Op) (sk : σ) (input : Block 16) : Block 16 :=
  match op with
  | .encrypt => code.encrypt sk input
  | .decrypt => code.decrypt sk input

/-- `muggle_aes_set_key`; `ctx` tells whether there is a context to fill. -/
def aesSetKey (op mode : Int) (key : Option (List Byte)) (bits : Int) (ctx : Bool) :
    Except Err (Context σ) := do
  let op ← require .invalidParam (Op.ofInt op)
  let mode ← require .invalidParam (Mode.ofInt mode)
  let key ← require .nullParam key
  checkRet ctx .nullParam
  let bits ← require .cryptKeySize (KeyBits.ofInt bits)
  pure ⟨op, mode, code.expandKey bits key⟩

/-- The nonce of AES: two words, the low one first. -/
def aesNonce : Nonce (BitVec 64 × BitVec 64) 16 where
  next nonce :=
    let low := nonce.1 + 1#64
    (low, if low = 0#64 then nonce.2 + 1#64 else nonce.2)
  bytes nonce := leBytes nonce.1 ++ leBytes nonce.2

def aesEcb := ecb (aesCrypt code)

def aesCbc := cbc (aesCrypt code)

/-- `muggle_aes_cfb128`, which does not check `iv_offset` for `NULL`. -/
def aesCfb128 (ctx : Option (Context σ)) (input : Option Message) (iv : Option (Block 16))
    (ivOffset : Nat) (output : Bool) : Except Err (List Byte × Block 16 × Nat) :=
  cfb (aesCrypt code) 0x0f ctx input iv (some ivOffset) output

/-- `muggle_aes_ofb128`, which does not check `iv_offset` for `NULL`. -/
def aesOfb128 (ctx : Option (Context σ)) (input : Option Message) (iv : Option (Block 16))
    (ivOffset : Nat) (output : Bool) : Except Err (List Byte × Block 16 × Nat) :=
  ofb (aesCrypt code) 0x0f ctx input iv (some ivOffset) output

/-- `muggle_aes_ctr`, which does not check `nonce` for `NULL`. -/
def aesCtr (ctx : Option (Context σ)) (input : Option Message) (nonce : BitVec 64 × BitVec 64)
    (nonceOffset : Option Nat) (streamBlock : Option (Block 16)) (output : Bool) :
    Except Err (List Byte × (BitVec 64 × BitVec 64) × Nat × Block 16) :=
  ctr (aesCrypt code) 0x0f aesNonce ctx input (some nonce) nonceOffset streamBlock output

end Aes

section Des

/-- The DES code of one build: `muggle_des_set_key_inner`, `muggle_des_crypt` and
`muggle_tdes_crypt`. -/
structure DesCode (σ : Type) where
  setKeyInner : Op → Block 8 → σ
  crypt : σ → Block 8 → Block 8
  tdesCrypt : σ → σ → σ → Block 8 → Block 8

variable {σ : Type} (code : DesCode σ)

def desCrypt (_ : Op) (sk : σ) (input : Block 8) : Block 8 := code.crypt sk input

/-- `muggle_des_set_key`. The modes that only encrypt blocks get the subkeys for encryption. -/
def desSetKey (op mode : Int) (key : Option (Block 8)) (ctx : Bool) : Except Err (Context σ) := do
  let op ← require .invalidParam (Op.ofInt op)
  let key ← require .nullParam key
  checkRet ctx .nullParam
  let mode ← require .invalidParam (Mode.ofInt mode)
  match mode with
  | .ecb | .cbc => pure ⟨op, mode, code.setKeyInner op key⟩
  | .cfb | .ofb | .ctr => pure ⟨op, mode, code.setKeyInner .encrypt key⟩

def desNonce : Nonce (BitVec 64) 8 where
  next nonce := nonce + 1#64
  bytes := leBytes

def desEcb := ecb (desCrypt code)

def desCbc := cbc (desCrypt code)

def desCfb64 := cfb (desCrypt code) 0x07

def desOfb64 := ofb (desCrypt code) 0x07

def desCtr := ctr (desCrypt code) 0x07 desNonce

structure TdesKeys (σ : Type) where
  ctx1 : Context σ
  ctx2 : Context σ
  ctx3 : Context σ

def tdesCrypt (_ : Op) (keys : TdesKeys σ) (input : Block 8) : Block 8 :=
  code.tdesCrypt keys.ctx1.sk keys.ctx2.sk keys.ctx3.sk input

def tdesSetKey (op mode : Int) (key1 key2 key3 : Option (Block 8)) (ctx : Bool) :
    Except Err (Context (TdesKeys σ)) := do
  let op ← require .invalidParam (Op.ofInt op)
  let key1 ← require .nullParam key1
  let key2 ← require .nullParam key2
  let key3 ← require .nullParam key3
  checkRet ctx .nullParam
  let mode ← require .invalidParam (Mode.ofInt mode)
  let set := fun (op : Op) (key : Block 8) => desSetKey code op.value Mode.ecb.value (some key) true
  match mode with
  | .ecb | .cbc =>
    match op with
    | .encrypt => do
      let ctx1 ← set op key1
      let ctx2 ← set op.inv key2
      let ctx3 ← set op key3
      pure ⟨op, mode, ctx1, ctx2, ctx3⟩
    | .decrypt => do
      let ctx1 ← set op key3
      let ctx2 ← set op.inv key2
      let ctx3 ← set op key1
      pure ⟨op, mode, ctx1, ctx2, ctx3⟩
  | .cfb | .ofb | .ctr => do
    let ctx1 ← set .encrypt key1
    let ctx2 ← set .decrypt key2
    let ctx3 ← set .encrypt key3
    pure ⟨op, mode, ctx1, ctx2, ctx3⟩

def tdesEcb := ecb (tdesCrypt code)

def tdesCbc := cbc (tdesCrypt code)

def tdesCfb64 := cfb (tdesCrypt code) 0x07

def tdesOfb64 := ofb (tdesCrypt code) 0x07

def tdesCtr := ctr (tdesCrypt code) 0x07 desNonce

end Des

end MuggleC.Crypt.Modes

/-! `muggle_64bit_block_t` and `muggle_32bit_block_t`, on a host with the low byte first. -/

namespace MuggleC.Crypt.Words

open Crypt.Modes Foundation.Feistel Foundation.Lanes

/-- The `u32` of four `bytes`. -/
def u32 (b : Block 4) : BitVec 32 := join b.get

/-- The `u64` of eight `bytes`. -/
def u64 (b : Block 8) : BitVec 64 := join b.get

/-- `u32.l` and `u32.h`. -/
def halves (x : BitVec 64) : Halves (BitVec 32) := ⟨x.extractLsb' 0 32, x.extractLsb' 32 32⟩

def ofHalves (x : Halves (BitVec 32)) : BitVec 64 := x.h ++ x.l

theorem lane_u64 (b : Block 8) (i : Fin 8) : lane 8 (u64 b) i = b.get i := lane_join b.get i

theorem get_leBytes (x : BitVec 64) (i : Fin 8) : (leBytes x).get i = lane 8 x i :=
  Vector.getElem_ofFn i.isLt

theorem u64_leBytes (x : BitVec 64) : u64 (leBytes x) = x := by
  apply ext_lane (v := 8) (n := 8)
  intro i hi
  rw [lane_u64 (leBytes x) ⟨i, hi⟩, get_leBytes]

theorem leBytes_u64 (b : Block 8) : leBytes (u64 b) = b := by
  apply Vector.ext
  intro i hi
  exact (get_leBytes (u64 b) ⟨i, hi⟩).trans (lane_u64 b ⟨i, hi⟩)

theorem getLsbD_ofHalves (x : Halves (BitVec 32)) (i : ℕ) :
    (ofHalves x).getLsbD i = if i < 32 then x.l.getLsbD i else x.h.getLsbD (i - 32) :=
  BitVec.getLsbD_append

theorem halves_ofHalves (x : Halves (BitVec 32)) : halves (ofHalves x) = x := by
  apply Halves.ext
  · apply BitVec.eq_of_getLsbD_eq
    intro i hi
    simp [halves, getLsbD_ofHalves, hi]
  · apply BitVec.eq_of_getLsbD_eq
    intro i hi
    simp [halves, getLsbD_ofHalves, hi]

theorem ofHalves_halves (x : BitVec 64) : ofHalves (halves x) = x := by
  apply BitVec.eq_of_getLsbD_eq
  intro i hi
  rw [getLsbD_ofHalves]
  split
  · simp [halves, *]
  · have hplace : 32 + (i - 32) = i := by omega
    simp [halves, hplace]
    omega

end MuggleC.Crypt.Words
