/- digest: Rounds on a square of four by four entries and the expansion of a key, over any tables,
   and when one way to compute the rounds stands for another. -/

import Mathlib.Data.Fintype.Basic
import Mathlib.Tactic.FinCases

namespace MuggleC.Foundation.Rijndael

open List BitVec

/-- The operations that the rounds are made of, on any representation of the square. -/
structure Machine (σ : Type) where
  addKey : ℕ → σ → σ
  sub : σ → σ
  shift : σ → σ
  mix : σ → σ
  invSub : σ → σ
  invShift : σ → σ
  invMix : σ → σ

namespace Machine

variable {σ τ : Type}

/-- `nr` rounds; the last one does not mix. -/
def encrypt (M : Machine σ) (nr : ℕ) (s : σ) : σ :=
  let s := (List.range' 1 (nr - 1)).foldl
    (fun s i => M.addKey i (M.mix (M.shift (M.sub s)))) (M.addKey 0 s)
  M.addKey nr (M.shift (M.sub s))

def decrypt (M : Machine σ) (nr : ℕ) (s : σ) : σ :=
  let s := (List.range' 1 (nr - 1)).reverse.foldl
    (fun s i => M.invMix (M.addKey i (M.invSub (M.invShift s)))) (M.addKey nr s)
  M.addKey 0 (M.invSub (M.invShift s))

/-- Each operation of `M`, seen through `view`, is the one of `M'`. -/
structure Simulates (view : σ → τ) (M : Machine σ) (M' : Machine τ) : Prop where
  addKey : ∀ i s, view (M.addKey i s) = M'.addKey i (view s)
  sub : ∀ s, view (M.sub s) = M'.sub (view s)
  shift : ∀ s, view (M.shift s) = M'.shift (view s)
  mix : ∀ s, view (M.mix s) = M'.mix (view s)
  invSub : ∀ s, view (M.invSub s) = M'.invSub (view s)
  invShift : ∀ s, view (M.invShift s) = M'.invShift (view s)
  invMix : ∀ s, view (M.invMix s) = M'.invMix (view s)

namespace Simulates

variable {view : σ → τ} {M : Machine σ} {M' : Machine τ}

theorem encrypt (h : Simulates view M M') (nr : ℕ) (s : σ) :
    view (M.encrypt nr s) = M'.encrypt nr (view s) := by
  have hround : ∀ s i, M'.addKey i (M'.mix (M'.shift (M'.sub (view s)))) =
      view (M.addKey i (M.mix (M.shift (M.sub s)))) := fun s i => by
    rw [h.addKey, h.mix, h.shift, h.sub]
  rw [Machine.encrypt, Machine.encrypt, h.addKey, h.shift, h.sub, ← h.addKey 0,
    foldl_hom view hround]

theorem decrypt (h : Simulates view M M') (nr : ℕ) (s : σ) :
    view (M.decrypt nr s) = M'.decrypt nr (view s) := by
  have hround : ∀ s i, M'.invMix (M'.addKey i (M'.invSub (M'.invShift (view s)))) =
      view (M.invMix (M.addKey i (M.invSub (M.invShift s)))) := fun s i => by
    rw [h.invMix, h.addKey, h.invSub, h.invShift]
  rw [Machine.decrypt, Machine.decrypt, h.addKey, h.invSub, h.invShift, ← h.addKey nr,
    foldl_hom view hround]

end Simulates

/-- Each operation is taken back by the one that belongs to it. -/
structure Inverts (M : Machine σ) : Prop where
  addKey : ∀ i s, M.addKey i (M.addKey i s) = s
  sub : ∀ s, M.invSub (M.sub s) = s
  shift : ∀ s, M.invShift (M.shift s) = s
  mix : ∀ s, M.invMix (M.mix s) = s

theorem Inverts.rounds {M : Machine σ} (h : Inverts M) (is : List ℕ) (s : σ) :
    is.reverse.foldl (fun s i => M.invMix (M.addKey i (M.invSub (M.invShift s))))
      (M.shift (M.sub (is.foldl (fun s i => M.addKey i (M.mix (M.shift (M.sub s)))) s))) =
      M.shift (M.sub s) := by
  induction is generalizing s with
  | nil => rfl
  | cons i is ih =>
    rw [foldl_cons, reverse_cons, foldl_append, ih, foldl_cons, foldl_nil,
      h.shift, h.sub, h.addKey, h.mix]

theorem Inverts.decrypt_encrypt {M : Machine σ} (h : Inverts M) (nr : ℕ) (s : σ) :
    M.decrypt nr (M.encrypt nr s) = s := by
  rw [decrypt, encrypt, h.addKey]
  simp only [h.rounds]
  rw [h.shift, h.sub, h.addKey]

end Machine

variable {v : ℕ}

/-- A column of the square, and a word of the expanded key. -/
abbrev Word (v : ℕ) := Fin 4 → BitVec v

/-- The entry in a row and a column. -/
abbrev State (v : ℕ) := Fin 4 → Fin 4 → BitVec v

/-- What a column becomes; `m k` acts on the entry `k` places below. -/
def mixColumn (m : Fin 4 → BitVec v → BitVec v) (a : Word v) : Word v :=
  fun r => m 0 (a r) ^^^ m 1 (a (r + 1)) ^^^ m 2 (a (r + 2)) ^^^ m 3 (a (r + 3))

theorem xor_rotate (f : Word v) (r : Fin 4) :
    f r ^^^ f (r + 1) ^^^ f (r + 2) ^^^ f (r + 3) = f 0 ^^^ f 1 ^^^ f 2 ^^^ f 3 := by
  fin_cases r
  · rfl
  · show f 1 ^^^ f 2 ^^^ f 3 ^^^ f 0 = _
    ac_rfl
  · show f 2 ^^^ f 3 ^^^ f 0 ^^^ f 1 = _
    ac_rfl
  · ac_rfl

structure Tables (v : ℕ) where
  sub : BitVec v → BitVec v
  invSub : BitVec v → BitVec v
  mix : Fin 4 → BitVec v → BitVec v
  invMix : Fin 4 → BitVec v → BitVec v
  rcon : ℕ → BitVec v

namespace Tables

variable (T : Tables v)

/-- Row `r` is shifted by `r` places. -/
def machine (key : ℕ → State v) : Machine (State v) where
  addKey i s := fun r c => s r c ^^^ key i r c
  sub s := fun r c => T.sub (s r c)
  shift s := fun r c => s r (c + r)
  mix s := fun r c => mixColumn T.mix (fun r => s r c) r
  invSub s := fun r c => T.invSub (s r c)
  invShift s := fun r c => s r (c - r)
  invMix s := fun r c => mixColumn T.invMix (fun r => s r c) r

/-- The tables for decryption take those for encryption back. In the sum over a column, only the
product of an entry with itself is left. -/
structure Inverts : Prop where
  sub : ∀ x, T.invSub (T.sub x) = x
  add : ∀ k x y, T.invMix k (x ^^^ y) = T.invMix k x ^^^ T.invMix k y
  same : ∀ x, T.invMix 0 (T.mix 0 x) ^^^ T.invMix 1 (T.mix 3 x) ^^^ T.invMix 2 (T.mix 2 x) ^^^
    T.invMix 3 (T.mix 1 x) = x
  below : ∀ x, T.invMix 0 (T.mix 1 x) ^^^ T.invMix 1 (T.mix 0 x) ^^^ T.invMix 2 (T.mix 3 x) ^^^
    T.invMix 3 (T.mix 2 x) = 0#v
  across : ∀ x, T.invMix 0 (T.mix 2 x) ^^^ T.invMix 1 (T.mix 1 x) ^^^ T.invMix 2 (T.mix 0 x) ^^^
    T.invMix 3 (T.mix 3 x) = 0#v
  above : ∀ x, T.invMix 0 (T.mix 3 x) ^^^ T.invMix 1 (T.mix 2 x) ^^^ T.invMix 2 (T.mix 1 x) ^^^
    T.invMix 3 (T.mix 0 x) = 0#v

variable {T}

theorem Inverts.mixColumn (h : T.Inverts) (a : Word v) :
    mixColumn T.invMix (mixColumn T.mix a) = a := by
  -- the sixteen products, sorted by the entry that they come from
  have hsum : ∀ x y z w : BitVec v,
      T.invMix 0 (T.mix 0 x ^^^ T.mix 1 y ^^^ T.mix 2 z ^^^ T.mix 3 w) ^^^
      T.invMix 1 (T.mix 0 y ^^^ T.mix 1 z ^^^ T.mix 2 w ^^^ T.mix 3 x) ^^^
      T.invMix 2 (T.mix 0 z ^^^ T.mix 1 w ^^^ T.mix 2 x ^^^ T.mix 3 y) ^^^
      T.invMix 3 (T.mix 0 w ^^^ T.mix 1 x ^^^ T.mix 2 y ^^^ T.mix 3 z) = x := by
    intro x y z w
    have hall : T.invMix 0 (T.mix 0 x ^^^ T.mix 1 y ^^^ T.mix 2 z ^^^ T.mix 3 w) ^^^
        T.invMix 1 (T.mix 0 y ^^^ T.mix 1 z ^^^ T.mix 2 w ^^^ T.mix 3 x) ^^^
        T.invMix 2 (T.mix 0 z ^^^ T.mix 1 w ^^^ T.mix 2 x ^^^ T.mix 3 y) ^^^
        T.invMix 3 (T.mix 0 w ^^^ T.mix 1 x ^^^ T.mix 2 y ^^^ T.mix 3 z) =
        (T.invMix 0 (T.mix 0 x) ^^^ T.invMix 1 (T.mix 3 x) ^^^ T.invMix 2 (T.mix 2 x) ^^^
          T.invMix 3 (T.mix 1 x)) ^^^
        (T.invMix 0 (T.mix 1 y) ^^^ T.invMix 1 (T.mix 0 y) ^^^ T.invMix 2 (T.mix 3 y) ^^^
          T.invMix 3 (T.mix 2 y)) ^^^
        (T.invMix 0 (T.mix 2 z) ^^^ T.invMix 1 (T.mix 1 z) ^^^ T.invMix 2 (T.mix 0 z) ^^^
          T.invMix 3 (T.mix 3 z)) ^^^
        (T.invMix 0 (T.mix 3 w) ^^^ T.invMix 1 (T.mix 2 w) ^^^ T.invMix 2 (T.mix 1 w) ^^^
          T.invMix 3 (T.mix 0 w)) := by
      simp only [h.add]
      ac_rfl
    rw [hall, h.same, h.below, h.across, h.above, xor_zero, xor_zero, xor_zero]
  funext r
  fin_cases r
  · exact hsum (a 0) (a 1) (a 2) (a 3)
  · exact hsum (a 1) (a 2) (a 3) (a 0)
  · exact hsum (a 2) (a 3) (a 0) (a 1)
  · exact hsum (a 3) (a 0) (a 1) (a 2)

theorem Inverts.machine (h : T.Inverts) (key : ℕ → State v) : (T.machine key).Inverts where
  addKey i s := by
    funext r c
    change s r c ^^^ key i r c ^^^ key i r c = s r c
    rw [BitVec.xor_assoc, BitVec.xor_self, BitVec.xor_zero]
  sub s := funext₂ fun r c => h.sub (s r c)
  shift s := by
    have hback : ∀ r c : Fin 4, c - r + r = c := by decide
    funext r c
    exact congrArg (s r) (hback r c)
  mix s := by
    funext r c
    exact congrFun (h.mixColumn fun r => s r c) r

end Tables

/-- A word of the expanded key; those that are not there are zero. -/
def wordAt (ws : List (Word v)) (i : ℕ) : Word v := ws.getD i fun _ => 0

theorem wordAt_append_left {ws : List (Word v)} (ws' : List (Word v)) {i : ℕ}
    (hi : i < ws.length) : wordAt (ws ++ ws') i = wordAt ws i := by
  simp [wordAt, getElem?_append_left hi]

theorem wordAt_append_length (ws : List (Word v)) (a : Word v) :
    wordAt (ws ++ [a]) ws.length = a := by
  simp [wordAt]

def roundKey (ws : List (Word v)) (i : ℕ) : State v := fun r c => wordAt ws (4 * i + c) r

namespace Tables

variable (T : Tables v) (nk : ℕ)

/-- What the last word becomes before it is added to the one `nk` places before word `i`. -/
def temp (i : ℕ) (a : Word v) : Word v :=
  if i % nk = 0 then
    fun r => T.sub (a (r + 1)) ^^^ (if r = 0 then T.rcon ((i - 1) / nk) else 0)
  else if 6 < nk ∧ i % nk = 4 then fun r => T.sub (a r)
  else a

theorem temp_odd (n i : ℕ) (a : Word v) : T.temp (2 * n) (2 * i + 1) a = a := by
  have hodd : (2 * i + 1) % (2 * n) % 2 = 1 := by
    rw [Nat.mod_mod_of_dvd _ (Nat.dvd_mul_right 2 n)]
    omega
  have hzero : (2 * i + 1) % (2 * n) ≠ 0 := by omega
  have hfour : (2 * i + 1) % (2 * n) ≠ 4 := by omega
  rw [temp, if_neg hzero, if_neg fun h => hfour h.2]

def nextWord (ws : List (Word v)) : Word v :=
  fun r => wordAt ws (ws.length - nk) r ^^^ T.temp nk ws.length (wordAt ws (ws.length - 1)) r

def expand : ℕ → List (Word v) → List (Word v)
  | 0, ws => ws
  | n + 1, ws => expand n (ws ++ [T.nextWord nk ws])

theorem expand_add (m n : ℕ) (ws : List (Word v)) :
    T.expand nk (m + n) ws = T.expand nk n (T.expand nk m ws) := by
  induction m generalizing ws with
  | zero => rw [Nat.zero_add, expand]
  | succ m ih => rw [Nat.succ_add, expand, expand, ih]

end Tables

end MuggleC.Foundation.Rijndael
