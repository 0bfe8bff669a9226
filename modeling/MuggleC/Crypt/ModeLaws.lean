/- source: crypt/aes.c, crypt/des.c, crypt/tdes.c
   digest: What the modes take back, input in pieces, and the key stream of CTR. -/

import MuggleC.Crypt.Modes
import MuggleC.Foundation.Ring

set_option autoImplicit false

namespace MuggleC.Crypt.ModeLaws

open Base Foundation.Streams Modes

variable {κ ν : Type} {n : Nat}

structure Cipher (κ ν : Type) (n : Nat) where
  ecb : Context κ → Message → Except Err (List Byte)
  cbc : Context κ → Block n → Message → Except Err (List Byte × Block n)
  cfb : Context κ → Block n × Nat → Message → Except Err (List Byte × Block n × Nat)
  ofb : Context κ → Block n × Nat → Message → Except Err (List Byte × Block n × Nat)
  ctr : Context κ → ν × Nat × Block n → Message → Except Err (List Byte × ν × Nat × Block n)

def aesCipher {σ : Type} (code : AesCode σ) : Cipher σ (BitVec 64 × BitVec 64) 16 where
  ecb ctx input := aesEcb code (some ctx) (some input) true
  cbc ctx iv input := aesCbc code (some ctx) (some input) (some iv) true
  cfb ctx s input := aesCfb128 code (some ctx) (some input) (some s.1) s.2 true
  ofb ctx s input := aesOfb128 code (some ctx) (some input) (some s.1) s.2 true
  ctr ctx s input := aesCtr code (some ctx) (some input) s.1 (some s.2.1) (some s.2.2) true

def desCipher {σ : Type} (code : DesCode σ) : Cipher σ (BitVec 64) 8 where
  ecb ctx input := desEcb code (some ctx) (some input) true
  cbc ctx iv input := desCbc code (some ctx) (some input) (some iv) true
  cfb ctx s input := desCfb64 code (some ctx) (some input) (some s.1) (some s.2) true
  ofb ctx s input := desOfb64 code (some ctx) (some input) (some s.1) (some s.2) true
  ctr ctx s input := desCtr code (some ctx) (some input) (some s.1) (some s.2.1) (some s.2.2) true

def tdesCipher {σ : Type} (code : DesCode σ) : Cipher (TdesKeys σ) (BitVec 64) 8 where
  ecb ctx input := tdesEcb code (some ctx) (some input) true
  cbc ctx iv input := tdesCbc code (some ctx) (some input) (some iv) true
  cfb ctx s input := tdesCfb64 code (some ctx) (some input) (some s.1) (some s.2) true
  ofb ctx s input := tdesOfb64 code (some ctx) (some input) (some s.1) (some s.2) true
  ctr ctx s input := tdesCtr code (some ctx) (some input) (some s.1) (some s.2.1) (some s.2.2) true

def cipherOf (crypt : Op → κ → Block n → Block n) (mask : Fin n) (count : Nonce ν n) :
    Cipher κ ν n where
  ecb ctx input := ecb crypt (some ctx) (some input) true
  cbc ctx iv input := cbc crypt (some ctx) (some input) (some iv) true
  cfb ctx s input := cfb crypt mask (some ctx) (some input) (some s.1) (some s.2) true
  ofb ctx s input := ofb crypt mask (some ctx) (some input) (some s.1) (some s.2) true
  ctr ctx s input := ctr crypt mask count (some ctx) (some input) (some s.1) (some s.2.1)
    (some s.2.2) true

theorem checkMode_ok {ctx : Context κ} {mode : Mode} (h : ctx.mode = mode) :
    checkMode mode (some ctx) = .ok ctx := by
  change (checkRet (decide (ctx.mode = mode)) .invalidParam >>= fun _ => pure ctx) = _
  rw [h, checkRet, decide_eq_true rfl]
  rfl

theorem checkOffset_ok (offset : Fin n) : checkOffset n offset.val = .ok offset :=
  dif_pos offset.isLt

variable {k : Nat}

theorem checkLength_ok (hk : k < 32) {input : Message} (h : 2 ^ k ∣ input.bytes.length) :
    checkRet (roundUpPowOf2Mul input.numBytes (BitVec.ofNat 32 (2 ^ k)) = input.numBytes)
      .invalidParam = .ok () := by
  have hlen : input.numBytes.toNat = input.bytes.length := by
    rw [Message.numBytes, BitVec.toNat_ofNat, Nat.mod_eq_of_lt input.fits]
  have hn : (BitVec.ofNat 32 (2 ^ k)).toNat = 2 ^ k := by
    rw [BitVec.toNat_ofNat, Nat.mod_eq_of_lt (Nat.pow_lt_pow_right (by decide) hk)]
  rw [checkRet, decide_eq_true ((roundUpPowOf2Mul_eq_self hn).mpr (hlen ▸ h))]
  rfl

section Accepted

variable (crypt : Op → κ → Block n → Block n) (mask : Fin n) (count : Nonce ν n) {ctx : Context κ}
  {input : Message}

theorem ecb_ok {k : Nat} (hn : n = 2 ^ k) (hk : k < 32) (hmode : ctx.mode = .ecb)
    (h : n ∣ input.bytes.length) : (cipherOf crypt mask count).ecb ctx input =
      .ok (blockwise (ecbStep (crypt ctx.op ctx.sk)) () input.bytes).1 := by
  subst hn
  change ecb crypt (some ctx) (some input) true = _
  rw [ecb, checkMode_ok hmode]
  change (checkRet _ _ >>= fun _ => _) = _
  rw [checkLength_ok hk h]
  rfl

theorem cbc_ok {k : Nat} (hn : n = 2 ^ k) (hk : k < 32) (hmode : ctx.mode = .cbc)
    (h : n ∣ input.bytes.length) (iv : Block n) : (cipherOf crypt mask count).cbc ctx iv input =
      .ok (blockwise (cbcStep ctx.op (crypt ctx.op ctx.sk)) iv input.bytes) := by
  subst hn
  change cbc crypt (some ctx) (some input) (some iv) true = _
  rw [cbc, checkMode_ok hmode]
  change (checkRet _ _ >>= fun _ => _) = _
  rw [checkLength_ok hk h]
  rfl

omit crypt mask count in
theorem feedback_ok {mode : Mode} (step : Context κ → Feedback n → Byte → Byte × Feedback n)
    (hmode : ctx.mode = mode) (s : Feedback n) (input : Message) :
    feedback mode step (some ctx) (some input) (some s.args.1) (some s.args.2) true =
      .ok ((emit (step ctx) s input.bytes).1, (emit (step ctx) s input.bytes).2.args) := by
  rw [feedback, checkMode_ok hmode]
  change (checkOffset n s.offset.val >>= fun _ => _) = _
  rw [checkOffset_ok]
  rfl

def Runs {σ τ : Type} (f : τ → Message → Except Err (List Byte × τ)) (args : σ → τ)
    (step : σ → Byte → Byte × σ) : Prop :=
  ∀ s input, f (args s) input =
    .ok ((emit step s input.bytes).1, args (emit step s input.bytes).2)

theorem cfb_runs (hmode : ctx.mode = .cfb) :
    Runs ((cipherOf crypt mask count).cfb ctx) Feedback.args
      (cfbStep ctx.op (crypt .encrypt ctx.sk) mask) := feedback_ok _ hmode

theorem ofb_runs (hmode : ctx.mode = .ofb) :
    Runs ((cipherOf crypt mask count).ofb ctx) Feedback.args
      (ofbStep (crypt .encrypt ctx.sk) mask) := feedback_ok _ hmode

theorem ctr_runs (hmode : ctx.mode = .ctr) :
    Runs ((cipherOf crypt mask count).ctr ctx) CtrState.args
      (ctrStep (crypt .encrypt ctx.sk) count mask) := by
  intro s input
  change ctr crypt mask count (some ctx) (some input) (some s.nonce) (some s.offset.val)
    (some s.streamBlock) true = _
  rw [ctr, checkMode_ok hmode]
  change (checkOffset n s.offset.val >>= fun _ => _) = _
  rw [checkOffset_ok]
  rfl

end Accepted

theorem xorBlock_xorBlock (a b : Block n) : xorBlock (xorBlock a b) a = b := by
  apply Vector.ext
  intro i hi
  rw [xorBlock, xorBlock, Vector.getElem_zipWith, Vector.getElem_zipWith, BitVec.xor_comm,
    ← BitVec.xor_assoc, BitVec.xor_self, BitVec.zero_xor]

theorem byte_xor_xor (a b : Byte) : a ^^^ b ^^^ b = a := by
  rw [BitVec.xor_assoc, BitVec.xor_self, BitVec.xor_zero]

private theorem cbcStep_inverse {enc dec : Block n → Block n} (h : ∀ b, dec (enc b) = b)
    (iv input : Block n) : cbcStep .decrypt dec iv (cbcStep .encrypt enc iv input).1 =
      (input, (cbcStep .encrypt enc iv input).2) := by
  change (xorBlock (dec (enc (xorBlock iv input))) iv, enc (xorBlock iv input)) = _
  rw [h, xorBlock_xorBlock]
  rfl

theorem cfbStep_inverse (enc : Block n → Block n) (mask : Fin n) (s : Feedback n) (input : Byte) :
    cfbStep .decrypt enc mask s (cfbStep .encrypt enc mask s input).1 =
      (input, (cfbStep .encrypt enc mask s input).2) :=
  Prod.ext (byte_xor_xor _ _) rfl

theorem ofbStep_inverse (enc : Block n → Block n) (mask : Fin n) (s : Feedback n) (input : Byte) :
    ofbStep enc mask s (ofbStep enc mask s input).1 = (input, (ofbStep enc mask s input).2) :=
  Prod.ext (byte_xor_xor _ _) rfl

private theorem ctrStep_inverse (enc : Block n → Block n) (count : Nonce ν n) (mask : Fin n)
    (s : CtrState ν n) (input : Byte) :
    ctrStep enc count mask s (ctrStep enc count mask s input).1 =
      (input, (ctrStep enc count mask s input).2) :=
  Prod.ext (byte_xor_xor _ _) rfl

structure BlocksReturn (c : Cipher κ ν n) (enc dec : Mode → Context κ) : Prop where
  ecb : ∀ input : Message, n ∣ input.bytes.length → ∃ out : Message,
    c.ecb (enc .ecb) input = .ok out.bytes ∧ c.ecb (dec .ecb) out = .ok input.bytes
  cbc : ∀ iv, ∀ input : Message, n ∣ input.bytes.length → ∃ (out : Message) (iv' : Block n),
    c.cbc (enc .cbc) iv input = .ok (out.bytes, iv') ∧
      c.cbc (dec .cbc) iv out = .ok (input.bytes, iv')

structure StreamsReturn (c : Cipher κ ν n) (enc dec : Mode → Context κ) : Prop where
  cfb : ∀ iv offset, offset < n → ∀ input : Message, ∃ (out : Message) (s : Block n × Nat),
    c.cfb (enc .cfb) (iv, offset) input = .ok (out.bytes, s) ∧
      c.cfb (dec .cfb) (iv, offset) out = .ok (input.bytes, s)
  ofb : ∀ iv offset, offset < n → ∀ input : Message, ∃ (out : Message) (s : Block n × Nat),
    c.ofb (enc .ofb) (iv, offset) input = .ok (out.bytes, s) ∧
      c.ofb (dec .ofb) (iv, offset) out = .ok (input.bytes, s)
  ctr : ∀ nonce offset streamBlock, offset < n → ∀ input : Message,
    ∃ (out : Message) (s : ν × Nat × Block n),
      c.ctr (enc .ctr) (nonce, offset, streamBlock) input = .ok (out.bytes, s) ∧
        c.ctr (dec .ctr) (nonce, offset, streamBlock) out = .ok (input.bytes, s)

variable {σ : Type} {τ : Type} {f : τ → Message → Except Err (List Byte × τ)} {args : σ → τ}
  {step : σ → Byte → Byte × σ}

theorem Runs.return {g : τ → Message → Except Err (List Byte × τ)}
    {back : σ → Byte → Byte × σ} (hf : Runs f args step) (hg : Runs g args back)
    (h : ∀ s a, back s (step s a).1 = (a, (step s a).2)) (s : σ) (input : Message) :
    ∃ (out : Message) (t : τ), f (args s) input = .ok (out.bytes, t) ∧
      g (args s) out = .ok (input.bytes, t) := by
  refine ⟨⟨(emit step s input.bytes).1, (length_emit step s input.bytes).symm ▸ input.fits⟩,
    args (emit step s input.bytes).2, hf s input, ?_⟩
  rw [hg, emit_undo h]

section Return

variable {crypt : Op → κ → Block n → Block n} {mask : Fin n} {count : Nonce ν n}
  {enc dec : Mode → Context κ}

private theorem blocks_return {k : Nat} (hn : n = 2 ^ k) (hk : k < 32)
    (henc : ∀ mode, (enc mode).mode = mode ∧ (enc mode).op = .encrypt)
    (hdec : ∀ mode, (dec mode).mode = mode ∧ (dec mode).op = .decrypt)
    (hinv : ∀ mode, mode = .ecb ∨ mode = .cbc → ∀ b,
      crypt .decrypt (dec mode).sk (crypt .encrypt (enc mode).sk b) = b) :
    BlocksReturn (cipherOf crypt mask count) enc dec := by
  have hpos : 0 < n := hn ▸ Nat.two_pow_pos k
  constructor
  · intro input hlen
    have hstep : ∀ (s : Unit) b, ecbStep (crypt .decrypt (dec .ecb).sk) s
        (ecbStep (crypt .encrypt (enc .ecb).sk) s b).1 =
          (b, (ecbStep (crypt .encrypt (enc .ecb).sk) s b).2) :=
      fun _ b => congrArg (·, ()) (hinv .ecb (.inl rfl) b)
    obtain ⟨hout, hback⟩ := blockwise_undo hpos hstep () hlen
    refine ⟨⟨_, hout.symm ▸ input.fits⟩, ?_, ?_⟩
    · rw [ecb_ok crypt mask count hn hk (henc .ecb).1 hlen, (henc .ecb).2]
    · rw [ecb_ok crypt mask count hn hk (hdec .ecb).1 (hout.symm ▸ hlen), (hdec .ecb).2, hback]
  · intro iv input hlen
    obtain ⟨hout, hback⟩ := blockwise_undo hpos (cbcStep_inverse (hinv .cbc (.inr rfl))) iv hlen
    refine ⟨⟨_, hout.symm ▸ input.fits⟩,
      (blockwise (cbcStep .encrypt (crypt .encrypt (enc .cbc).sk)) iv input.bytes).2, ?_, ?_⟩
    · rw [cbc_ok crypt mask count hn hk (henc .cbc).1 hlen, (henc .cbc).2]
    · rw [cbc_ok crypt mask count hn hk (hdec .cbc).1 (hout.symm ▸ hlen), (hdec .cbc).2, hback]

private theorem streams_return (henc : ∀ mode, (enc mode).mode = mode ∧ (enc mode).op = .encrypt)
    (hdec : ∀ mode, (dec mode).mode = mode ∧ (dec mode).op = .decrypt)
    (hsame : ∀ mode, mode = .cfb ∨ mode = .ofb ∨ mode = .ctr →
      crypt .encrypt (dec mode).sk = crypt .encrypt (enc mode).sk) :
    StreamsReturn (cipherOf crypt mask count) enc dec := by
  constructor
  · intro iv offset ho input
    have hf := cfb_runs crypt mask count (henc .cfb).1
    have hg := cfb_runs crypt mask count (hdec .cfb).1
    rw [(henc .cfb).2] at hf
    rw [(hdec .cfb).2, hsame .cfb (.inl rfl)] at hg
    exact hf.return hg (cfbStep_inverse _ mask) ⟨iv, ⟨offset, ho⟩⟩ input
  · intro iv offset ho input
    have hf := ofb_runs crypt mask count (henc .ofb).1
    have hg := ofb_runs crypt mask count (hdec .ofb).1
    rw [hsame .ofb (.inr (.inl rfl))] at hg
    exact hf.return hg (ofbStep_inverse _ mask) ⟨iv, ⟨offset, ho⟩⟩ input
  · intro nonce offset streamBlock ho input
    have hf := ctr_runs crypt mask count (henc .ctr).1
    have hg := ctr_runs crypt mask count (hdec .ctr).1
    rw [hsame .ctr (.inr (.inr rfl))] at hg
    exact hf.return hg (ctrStep_inverse _ count mask) ⟨nonce, ⟨offset, ho⟩, streamBlock⟩ input

end Return

def blockOp (op : Op) : Mode → Op
  | .ecb | .cbc => op
  | .cfb | .ofb | .ctr => .encrypt

theorem aesSetKey_ok (code : AesCode σ) (op : Op) (mode : Mode) (bits : KeyBits) (key : List Byte) :
    aesSetKey code op.value mode.value (some key) bits.value true =
      .ok ⟨op, mode, code.expandKey bits key⟩ := by
  rw [aesSetKey, Op.ofInt_value, Mode.ofInt_value, KeyBits.ofInt_value]
  rfl

section DesKeys

variable {σ : Type} (code : DesCode σ) (op : Op) (mode : Mode)

theorem desSetKey_ok (key : Block 8) : desSetKey code op.value mode.value (some key) true =
      .ok ⟨op, mode, code.setKeyInner (blockOp op mode) key⟩ := by
  rw [desSetKey, Op.ofInt_value, Mode.ofInt_value]
  cases mode with
  | ecb => rfl
  | cbc => rfl
  | cfb => rfl
  | ofb => rfl
  | ctr => rfl

def tdesKeys (code : DesCode σ) (key1 key2 key3 : Block 8) : Op → TdesKeys σ
  | .encrypt => ⟨⟨.encrypt, .ecb, code.setKeyInner .encrypt key1⟩,
      ⟨.decrypt, .ecb, code.setKeyInner .decrypt key2⟩,
      ⟨.encrypt, .ecb, code.setKeyInner .encrypt key3⟩⟩
  | .decrypt => ⟨⟨.decrypt, .ecb, code.setKeyInner .decrypt key3⟩,
      ⟨.encrypt, .ecb, code.setKeyInner .encrypt key2⟩,
      ⟨.decrypt, .ecb, code.setKeyInner .decrypt key1⟩⟩

theorem tdesSetKey_ok (key1 key2 key3 : Block 8) :
    tdesSetKey code op.value mode.value (some key1) (some key2) (some key3) true =
      .ok ⟨op, mode, tdesKeys code key1 key2 key3 (blockOp op mode)⟩ := by
  rw [tdesSetKey, Op.ofInt_value, Mode.ofInt_value]
  cases mode with
  | ecb | cbc => cases op with
    | decrypt => rfl
    | encrypt => rfl
  | cfb => rfl
  | ofb => rfl
  | ctr => rfl

end DesKeys

/-- Both contexts of a key can be set for every mode, and decryption with the one takes encryption
with the other back; in ECB and CBC if it does so for single blocks. -/
def TakesBack (c : Cipher κ ν n) (setKey : Int → Int → Except Err (Context κ)) (inverse : Prop) :
    Prop :=
  ∃ enc dec : Mode → Context κ,
    (∀ mode, setKey Op.encrypt.value mode.value = .ok (enc mode)) ∧
    (∀ mode, setKey Op.decrypt.value mode.value = .ok (dec mode)) ∧
    (inverse → BlocksReturn c enc dec) ∧ StreamsReturn c enc dec

private theorem takesBack_of (crypt : Op → κ → Block n → Block n) (mask : Fin n) (count : Nonce ν n)
    (hn : n = 2 ^ k) (hk : k < 32) (sk : Op → κ) {setKey : Int → Int → Except Err (Context κ)}
    (hset : ∀ op mode, setKey op.value mode.value = .ok ⟨op, mode, sk (blockOp op mode)⟩) :
    TakesBack (cipherOf crypt mask count) setKey
      (∀ b, crypt .decrypt (sk .decrypt) (crypt .encrypt (sk .encrypt) b) = b) := by
  refine ⟨_, _, hset .encrypt, hset .decrypt, ?_, ?_⟩
  · intro hinv
    refine blocks_return hn hk (fun _ => ⟨rfl, rfl⟩) (fun _ => ⟨rfl, rfl⟩) ?_
    rintro _ (rfl | rfl)
    · exact hinv
    · exact hinv
  · refine streams_return (fun _ => ⟨rfl, rfl⟩) (fun _ => ⟨rfl, rfl⟩) ?_
    rintro _ (rfl | rfl | rfl)
    · rfl
    · rfl
    · rfl

/-- For every key of every cipher and in every mode, decryption gives back what was encrypted. -/
theorem decryption_takes_back {σ τ : Type} (aes : AesCode σ) (des : DesCode τ) :
    (∀ bits key, TakesBack (aesCipher aes)
      (fun op mode => aesSetKey aes op mode (some key) (KeyBits.value bits) true)
      (∀ b, aes.decrypt (aes.expandKey bits key) (aes.encrypt (aes.expandKey bits key) b) = b)) ∧
    (∀ key, TakesBack (desCipher des) (fun op mode => desSetKey des op mode (some key) true)
      (∀ b, des.crypt (des.setKeyInner .decrypt key) (des.crypt (des.setKeyInner .encrypt key) b) =
        b)) ∧
    (∀ key1 key2 key3, TakesBack (tdesCipher des)
      (fun op mode => tdesSetKey des op mode (some key1) (some key2) (some key3) true)
      (∀ b, des.tdesCrypt (des.setKeyInner .decrypt key3) (des.setKeyInner .encrypt key2)
        (des.setKeyInner .decrypt key1)
        (des.tdesCrypt (des.setKeyInner .encrypt key1) (des.setKeyInner .decrypt key2)
          (des.setKeyInner .encrypt key3) b) = b)) := by
  refine ⟨?_, ?_, ?_⟩
  · intro bits key
    exact takesBack_of (aesCrypt aes) 0x0f aesNonce (k := 4) rfl (by decide)
      (fun _ => aes.expandKey bits key) fun op mode => aesSetKey_ok aes op mode bits key
  · intro key
    exact takesBack_of (desCrypt des) 0x07 desNonce (k := 3) rfl (by decide)
      (fun op => des.setKeyInner op key) fun op mode => desSetKey_ok des op mode key
  · intro key1 key2 key3
    exact takesBack_of (tdesCrypt des) 0x07 desNonce (k := 3) rfl (by decide)
      (tdesKeys des key1 key2 key3) fun op mode => tdesSetKey_ok des op mode key1 key2 key3

def maskAes : AesCode (Block 16) where
  expandKey _ key := block 16 key
  encrypt sk b := xorBlock sk b
  decrypt sk b := xorBlock b sk

def maskDes : DesCode (Block 8) where
  setKeyInner _ key := key
  crypt sk b := xorBlock b sk
  tdesCrypt _ sk _ b := xorBlock b sk

theorem decryption_takes_back_masks : ∃ enc dec : Mode → Context (Block 16),
      aesSetKey maskAes Op.encrypt.value Mode.cbc.value (some [0x2b, 0x7e]) 128 true =
        .ok (enc .cbc) ∧ BlocksReturn (aesCipher maskAes) enc dec := by
  obtain ⟨enc, dec, henc, _, hblocks, _⟩ :=
    (decryption_takes_back maskAes maskDes).1 .bits128 [0x2b, 0x7e]
  exact ⟨enc, dec, henc .cbc, hblocks fun b => xorBlock_xorBlock _ b⟩

def SameAsOne {τ : Type} (good : Message → Prop) (f : τ → Message → Except Err (List Byte × τ))
    (s : τ) : Prop :=
  ∀ (chunks : List Message) (whole : Message), whole.bytes = chunks.flatMap Message.bytes →
    (∀ c ∈ chunks, good c) → ∃ r, f s whole = .ok r ∧ calls f s chunks = .ok r

/-- Every mode takes input in pieces: ECB and CBC in pieces of whole blocks, the others in any. -/
structure Chunked (c : Cipher κ ν n) : Prop where
  ecb : ∀ ctx, ctx.mode = .ecb → SameAsOne (fun m => n ∣ m.bytes.length)
    (fun (_ : Unit) input => (c.ecb ctx input).map (·, ())) ()
  cbc : ∀ ctx, ctx.mode = .cbc → ∀ iv, SameAsOne (fun m => n ∣ m.bytes.length) (c.cbc ctx) iv
  cfb : ∀ ctx, ctx.mode = .cfb → ∀ iv offset, offset < n →
    SameAsOne (fun _ => True) (c.cfb ctx) (iv, offset)
  ofb : ∀ ctx, ctx.mode = .ofb → ∀ iv offset, offset < n →
    SameAsOne (fun _ => True) (c.ofb ctx) (iv, offset)
  ctr : ∀ ctx, ctx.mode = .ctr → ∀ nonce offset streamBlock, offset < n →
    SameAsOne (fun _ => True) (c.ctr ctx) (nonce, offset, streamBlock)

theorem sameAsOne_of {good : List Byte → Prop} {g : σ → List Byte → List Byte × σ}
    (hg : Splits good g) (args : σ → τ)
    (hf : ∀ s c, good c.bytes → f (args s) c = .ok ((g s c.bytes).1, args (g s c.bytes).2))
    (s : σ) :
    SameAsOne (fun m => good m.bytes) f (args s) := by
  intro chunks whole hwhole hgood
  have hall : good whole.bytes := hwhole ▸ hg.good_flatMap hgood
  refine ⟨_, hf s whole hall, ?_⟩
  rw [calls_eq hg hgood hf, hwhole]

theorem Runs.sameAsOne (hf : Runs f args step) (s : σ) :
    SameAsOne (fun _ => True) f (args s) :=
  sameAsOne_of (splits_emit step) args (fun s c _ => hf s c) s

theorem chunked_cipherOf (crypt : Op → κ → Block n → Block n) (mask : Fin n) (count : Nonce ν n)
    (hn : n = 2 ^ k) (hk : k < 32) : Chunked (cipherOf crypt mask count) := by
  have hpos : 0 < n := hn ▸ Nat.two_pow_pos k
  constructor
  · intro ctx hmode
    refine sameAsOne_of (splits_blockwise hpos (ecbStep (crypt ctx.op ctx.sk))) id ?_ ()
    intro _ c hc
    rw [ecb_ok crypt mask count hn hk hmode hc]
    rfl
  · intro ctx hmode iv
    refine sameAsOne_of (splits_blockwise hpos (cbcStep ctx.op (crypt ctx.op ctx.sk))) id ?_ iv
    intro s c hc
    exact cbc_ok crypt mask count hn hk hmode hc s
  · intro ctx hmode iv offset ho
    exact (cfb_runs crypt mask count hmode).sameAsOne ⟨iv, ⟨offset, ho⟩⟩
  · intro ctx hmode iv offset ho
    exact (ofb_runs crypt mask count hmode).sameAsOne ⟨iv, ⟨offset, ho⟩⟩
  · intro ctx hmode nonce offset streamBlock ho
    exact (ctr_runs crypt mask count hmode).sameAsOne ⟨nonce, ⟨offset, ho⟩, streamBlock⟩

/-- In every mode of every cipher and in both directions, calls on consecutive chunks do what one call
on the whole message does. -/
theorem chunks_same_as_whole {σ τ : Type} (aes : AesCode σ) (des : DesCode τ) :
    Chunked (aesCipher aes) ∧ Chunked (desCipher des) ∧ Chunked (tdesCipher des) := by
  refine ⟨?_, ?_, ?_⟩
  · exact chunked_cipherOf (aesCrypt aes) 0x0f aesNonce (k := 4) rfl (by decide)
  · exact chunked_cipherOf (desCrypt des) 0x07 desNonce (k := 3) rfl (by decide)
  · exact chunked_cipherOf (tdesCrypt des) 0x07 desNonce (k := 3) rfl (by decide)

end MuggleC.Crypt.ModeLaws

namespace MuggleC.Crypt.CtrLaws

open Base Foundation Foundation.Streams Modes ModeLaws

variable {κ ν : Type} {n : ℕ}

structure Numbered (count : Nonce ν n) (size : ℕ) where
  number : ν → ℕ
  ofNumber : ℕ → ν
  number_lt : ∀ x, number x < size
  ofNumber_number : ∀ x, ofNumber (number x) = x
  number_ofNumber : ∀ k < size, number (ofNumber k) = k
  next_eq : ∀ x, count.next x = ofNumber ((number x + 1) % size)

namespace Numbered

variable {count : Nonce ν n} {size : ℕ} (N : Numbered count size)

def ahead (nonce : ν) (k : ℕ) : ν := N.ofNumber ((N.number nonce + k) % size)

private theorem ahead_zero (nonce : ν) : N.ahead nonce 0 = nonce := by
  rw [ahead, Nat.add_zero, Nat.mod_eq_of_lt (N.number_lt nonce), N.ofNumber_number]

private theorem next_ahead (hpos : 0 < size) (nonce : ν) (k : ℕ) :
    count.next (N.ahead nonce k) = N.ahead nonce (k + 1) := by
  rw [N.next_eq, ahead, N.number_ofNumber _ (Nat.mod_lt _ hpos), Nat.mod_add_mod, ahead,
    Nat.add_assoc]

theorem ahead_injective (hpos : 0 < size) (nonce : ν) {j k : ℕ} (hj : j < size) (hk : k < size)
    (h : N.ahead nonce (1 + j) = N.ahead nonce (1 + k)) : j = k := by
  have hnum := congrArg N.number h
  rw [ahead, ahead, N.number_ofNumber _ (Nat.mod_lt _ hpos),
    N.number_ofNumber _ (Nat.mod_lt _ hpos)] at hnum
  rcases Nat.le_total j k with hle | hle
  · have := Counter.eq_of_mod_eq (by omega) (by omega) hnum.symm
    omega
  · have := Counter.eq_of_mod_eq (by omega) (by omega) hnum
    omega

end Numbered

/-- The nonce of AES is a number of 128 bits, with its low word first; the carry goes from the low word
to the high one. -/
def aesNumbered : Numbered aesNonce (2 ^ 128) where
  number nonce := nonce.2.toNat * 2 ^ 64 + nonce.1.toNat
  ofNumber k := (BitVec.ofNat 64 k, BitVec.ofNat 64 (k / 2 ^ 64))
  number_lt nonce := by
    omega
  ofNumber_number nonce := by
    apply Prod.ext
    · apply BitVec.eq_of_toNat_eq
      rw [BitVec.toNat_ofNat]
      omega
    · apply BitVec.eq_of_toNat_eq
      rw [BitVec.toNat_ofNat]
      omega
  number_ofNumber k hk := by
    simp only [BitVec.toNat_ofNat]
    omega
  next_eq nonce := by
    have hcarry : nonce.1 + 1#64 = 0#64 ↔ nonce.1.toNat + 1 = 2 ^ 64 := by
      rw [← BitVec.toNat_inj, BitVec.toNat_add, BitVec.toNat_ofNat, BitVec.toNat_ofNat]
      omega
    simp only [aesNonce, hcarry]
    apply Prod.ext
    · apply BitVec.eq_of_toNat_eq
      rw [BitVec.toNat_add, BitVec.toNat_ofNat, BitVec.toNat_ofNat]
      omega
    · apply BitVec.eq_of_toNat_eq
      split
      · rw [BitVec.toNat_add, BitVec.toNat_ofNat, BitVec.toNat_ofNat]
        omega
      · change nonce.2.toNat = _
        rw [BitVec.toNat_ofNat]
        omega

def desNumbered : Numbered desNonce (2 ^ 64) where
  number nonce := nonce.toNat
  ofNumber k := BitVec.ofNat 64 k
  number_lt nonce := nonce.isLt
  ofNumber_number nonce := by
    apply BitVec.eq_of_toNat_eq
    rw [BitVec.toNat_ofNat, Nat.mod_eq_of_lt nonce.isLt]
  number_ofNumber k hk := by
    rw [BitVec.toNat_ofNat, Nat.mod_eq_of_lt hk]
  next_eq nonce := by
    apply BitVec.eq_of_toNat_eq
    simp only [desNonce, BitVec.toNat_add, BitVec.toNat_ofNat]
    omega

section Stream

def started (n p : ℕ) : ℕ := p / n + if p % n = 0 then 0 else 1

private theorem started_succ (n p : ℕ) : started n (p + 1) = p / n + 1 := by
  rw [started]
  split
  · next hmod => rw [Nat.succ_div_of_mod_eq_zero hmod]
  · next hmod => rw [Nat.succ_div_of_mod_ne_zero hmod]

theorem started_of_mod {p : ℕ} (h : p % n = 0) : started n p = p / n := by
  rw [started, if_pos h]
  rfl

variable {count : Nonce ν n} {size : ℕ} (N : Numbered count size) (enc : Block n → Block n)
  (hn : 0 < n)

def streamByte (nonce : ν) (p : ℕ) : Byte :=
  (enc (count.bytes (N.ahead nonce (1 + p / n)))).get ⟨p % n, Nat.mod_lt p hn⟩

structure At (nonce : ν) (p : ℕ) (s : CtrState ν n) : Prop where
  offset : s.offset.val = p % n
  nonce : s.nonce = N.ahead nonce (started n p)
  streamBlock : p % n ≠ 0 → s.streamBlock = enc (count.bytes s.nonce)

variable {N enc}

theorem At.step (hsize : 0 < size) {mask : Fin n}
    (hmask : ∀ offset, (advance mask offset).val = (offset.val + 1) % n) {nonce : ν} {p : ℕ}
    {s : CtrState ν n} (h : At N enc nonce p s) (input : Byte) :
    (ctrStep enc count mask s input).1 = input ^^^ streamByte N enc hn nonce p ∧
      At N enc nonce (p + 1) (ctrStep enc count mask s input).2 := by
  have hnonce : (ctrStep enc count mask s input).2.nonce = N.ahead nonce (p / n + 1) := by
    change (if s.offset.val = 0 then count.next s.nonce else s.nonce) = _
    rw [h.offset, h.nonce]
    split
    · next hmod => rw [started_of_mod hmod, N.next_ahead hsize]
    · next hmod => rw [started, if_neg hmod]
  have hblock : (ctrStep enc count mask s input).2.streamBlock =
      enc (count.bytes (ctrStep enc count mask s input).2.nonce) := by
    by_cases hmod : p % n = 0
    · have hzero : s.offset.val = 0 := h.offset.trans hmod
      simp only [ctrStep, if_pos hzero]
    · have hzero : s.offset.val ≠ 0 := fun h0 => hmod (h.offset.symm.trans h0)
      simp only [ctrStep, if_neg hzero]
      exact h.streamBlock hmod
  refine ⟨?_, ⟨?_, ?_, fun _ => hblock⟩⟩
  · have hplace : s.offset = ⟨p % n, Nat.mod_lt p hn⟩ := Fin.ext h.offset
    change input ^^^ (ctrStep enc count mask s input).2.streamBlock.get s.offset = _
    rw [hblock, hnonce, hplace, streamByte, Nat.add_comm 1]
  · change (advance mask s.offset).val = _
    rw [hmask, h.offset, Nat.mod_add_mod]
  · rw [hnonce, started_succ]

end Stream

/-- A context of CTR can be set for each operation. Each byte of a message meets the byte of the key
stream at its position, the nonce goes on by the blocks that are begun, and the counters of less than
`size` blocks differ. -/
structure CountsUp (c : Cipher κ ν n) (setKey : Int → Int → Except Err (Context κ))
    {count : Nonce ν n} {size : ℕ} (N : Numbered count size) (enc : Block n → Block n) (hn : 0 < n) :
    Prop where
  stream : ∀ op : Op, ∃ ctx, setKey op.value Mode.ctr.value = .ok ctx ∧
    ∀ nonce streamBlock, ∀ input : Message, ∃ offset streamBlock',
      c.ctr ctx (nonce, 0, streamBlock) input =
        .ok (input.bytes.mapIdx fun i b => b ^^^ streamByte N enc hn nonce i,
          N.ahead nonce (started n input.bytes.length), offset, streamBlock')
  fresh : ∀ nonce j k, j < size → k < size →
    N.ahead nonce (1 + j) = N.ahead nonce (1 + k) → j = k

private theorem countsUp_of (crypt : Op → κ → Block n → Block n) (mask : Fin n) {count : Nonce ν n}
    {size : ℕ} (N : Numbered count size) (hn : 0 < n) (hsize : 0 < size)
    (hmask : ∀ offset, (advance mask offset).val = (offset.val + 1) % n) (sk : κ)
    {setKey : Int → Int → Except Err (Context κ)}
    (hset : ∀ op : Op, setKey op.value Mode.ctr.value = .ok ⟨op, .ctr, sk⟩) :
    CountsUp (cipherOf crypt mask count) setKey N (crypt .encrypt sk) hn where
  stream op := by
    refine ⟨_, hset op, ?_⟩
    intro nonce streamBlock input
    have hstart : At N (crypt .encrypt sk) nonce 0 ⟨nonce, ⟨0, hn⟩, streamBlock⟩ := by
      refine ⟨(Nat.zero_mod n).symm, ?_, fun h => absurd (Nat.zero_mod n) h⟩
      rw [started_of_mod (Nat.zero_mod n), Nat.zero_div, N.ahead_zero]
    obtain ⟨hout, hend⟩ := emit_positions (fun _ _ b h => h.step hn hsize hmask b) hstart input.bytes
    have hmode : (⟨op, .ctr, sk⟩ : Context κ).mode = .ctr := rfl
    have hrun := ctr_runs crypt mask count hmode ⟨nonce, ⟨0, hn⟩, streamBlock⟩ input
    obtain ⟨r, hr⟩ : ∃ r, r = emit (ctrStep (crypt .encrypt sk) count mask)
      ⟨nonce, ⟨0, hn⟩, streamBlock⟩ input.bytes := ⟨_, rfl⟩
    simp only [← hr, Nat.zero_add] at hout hend hrun
    refine ⟨r.2.offset.val, r.2.streamBlock, hrun.trans ?_⟩
    rw [hout, CtrState.args, hend.nonce]
  fresh nonce _ _ := N.ahead_injective hsize nonce

/-- In CTR of AES, DES and TDES, from a `nonce_offset` of zero, byte `i` of a message is mixed with
byte `i % n` of the encryption of the counter that is `1 + i / n` ahead of the nonce. The nonce of AES
counts as one number of 128 bits. -/
theorem ctr_closed_form {σ τ : Type} (aes : AesCode σ) (des : DesCode τ) :
    (∀ bits key, CountsUp (aesCipher aes)
      (fun op mode => aesSetKey aes op mode (some key) (KeyBits.value bits) true) aesNumbered
      (aes.encrypt (aes.expandKey bits key)) (by decide)) ∧
    (∀ key, CountsUp (desCipher des) (fun op mode => desSetKey des op mode (some key) true)
      desNumbered (des.crypt (des.setKeyInner .encrypt key)) (by decide)) ∧
    ∀ key1 key2 key3, CountsUp (tdesCipher des)
      (fun op mode => tdesSetKey des op mode (some key1) (some key2) (some key3) true) desNumbered
      (des.tdesCrypt (des.setKeyInner .encrypt key1) (des.setKeyInner .decrypt key2)
        (des.setKeyInner .encrypt key3)) (by decide) := by
  refine ⟨?_, ?_, ?_⟩
  · intro bits key
    exact countsUp_of (aesCrypt aes) 0x0f aesNumbered (by decide) (by decide) (by decide)
      (aes.expandKey bits key) fun op => aesSetKey_ok aes op .ctr bits key
  · intro key
    exact countsUp_of (desCrypt des) 0x07 desNumbered (by decide) (by decide) (by decide)
      (des.setKeyInner .encrypt key) fun op => desSetKey_ok des op .ctr key
  · intro key1 key2 key3
    exact countsUp_of (tdesCrypt des) 0x07 desNumbered (by decide) (by decide) (by decide)
      (tdesKeys des key1 key2 key3 .encrypt) fun op => tdesSetKey_ok des op .ctr key1 key2 key3

/-- The carry from the low word to the high one. -/
example : aesNumbered.ahead (0xffffffffffffffff, 0x5) 1 = (0x0, 0x6) := by decide

end MuggleC.Crypt.CtrLaws
