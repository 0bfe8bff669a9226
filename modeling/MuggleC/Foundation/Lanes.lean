/- digest: The bits of a word: smeared, moved one by one, and as rows of narrow lanes. -/

import Mathlib.Algebra.Ring.Nat
import Mathlib.Data.List.Basic

namespace MuggleC.Foundation.Smear

/-- The bits of `y` are the bits of `x`, each copied to the `s` places at and below it. -/
def Smeared (x s y : Nat) : Prop :=
  ∀ i, y.testBit i = true ↔ ∃ d, d < s ∧ x.testBit (i + d) = true

theorem smeared_one (x : Nat) : Smeared x 1 x := by
  intro i
  constructor
  · intro h
    exact ⟨0, Nat.one_pos, h⟩
  · rintro ⟨d, hd, h⟩
    obtain rfl : d = 0 := by omega
    exact h

theorem Smeared.double {x s y : Nat} (h : Smeared x s y) : Smeared x (s + s) (y ||| y >>> s) := by
  intro i
  rw [Nat.testBit_or, Bool.or_eq_true, Nat.testBit_shiftRight, h i, h (s + i)]
  constructor
  · rintro (⟨d, hd, hb⟩ | ⟨d, hd, hb⟩)
    · exact ⟨d, by omega, hb⟩
    · exact ⟨s + d, by omega, by rw [show i + (s + d) = s + i + d by omega]; exact hb⟩
  · rintro ⟨d, hd, hb⟩
    rcases Nat.lt_or_ge d s with hlt | hge
    · exact .inl ⟨d, hlt, hb⟩
    · refine .inr ⟨d - s, by omega, ?_⟩
      rw [show s + i + (d - s) = i + d by omega]
      exact hb

variable {x s y w : Nat}

theorem Smeared.lt (h : Smeared x s y) : y < 2 ^ (x.log2 + 1) := by
  apply Nat.lt_pow_two_of_testBit
  intro i hi
  rw [Bool.eq_false_iff, ne_eq, h i]
  rintro ⟨d, _, hb⟩
  have hlow : x < 2 ^ (i + d) :=
    Nat.lt_of_lt_of_le Nat.lt_log2_self (Nat.pow_le_pow_right (by omega) (by omega))
  simp [Nat.testBit_lt_two_pow hlow] at hb

theorem Smeared.eq_ones_iff (h : Smeared x s y) (hy : y < 2 ^ w) :
    y = 2 ^ w - 1 ↔ ∀ i < w, ∃ d < s, x.testBit (i + d) = true := by
  constructor
  · rintro rfl i hi
    exact (h i).mp (by simpa using hi)
  · intro hx
    apply Nat.eq_of_testBit_eq
    intro i
    by_cases hi : i < w
    · simpa [hi] using (h i).mpr (hx i hi)
    · have hhigh : y < 2 ^ i := Nat.lt_of_lt_of_le hy (Nat.pow_le_pow_right (by omega) (by omega))
      simp [hi, Nat.testBit_lt_two_pow hhigh]

end MuggleC.Foundation.Smear

namespace MuggleC.Foundation.MovedBits

variable {w : ℕ}

def moveBit (x : BitVec w) (source target : ℕ) : BitVec w := ((x >>> source) &&& 1#w) <<< target

/-- The disjunction of moved bits; a move is a source and a target. -/
def moveBits (moves : List (ℕ × ℕ)) (x : BitVec w) : BitVec w :=
  moves.foldr (fun m acc => moveBit x m.1 m.2 ||| acc) 0#w

theorem getLsbD_moveBit (x : BitVec w) (source target : ℕ) {i : ℕ} (hi : i < w) :
    (moveBit x source target).getLsbD i = (target == i && x.getLsbD source) := by
  rcases Nat.lt_trichotomy i target with h | rfl | h
  · simp [moveBit, hi, h, Nat.ne_of_gt h]
  · simp [moveBit, hi]
  · simp [moveBit, hi, Nat.ne_of_lt h, Nat.sub_ne_zero_of_lt h]

theorem getLsbD_moveBits (moves : List (ℕ × ℕ)) (x : BitVec w) {i : ℕ} (hi : i < w) :
    (moveBits moves x).getLsbD i = moves.any fun m => m.2 == i && x.getLsbD m.1 := by
  induction moves with
  | nil => simp [moveBits]
  | cons m moves ih =>
    rw [List.any_cons, ← ih, ← getLsbD_moveBit x m.1 m.2 hi]
    exact BitVec.getLsbD_or

/-- Where the bit at `i` comes from. -/
def sourceOf (moves : List (ℕ × ℕ)) (i : ℕ) : ℕ := ((moves.find? (·.2 == i)).getD (0, 0)).1

/-- Each of the first `n` bits is the target of one move. -/
def Single (n : ℕ) (moves : List (ℕ × ℕ)) : Prop :=
  ∀ i < n, moves.filter (·.2 == i) = [(sourceOf moves i, i)]

instance (n : ℕ) (moves : List (ℕ × ℕ)) : Decidable (Single n moves) :=
  inferInstanceAs (Decidable (∀ i < n, moves.filter (·.2 == i) = [(sourceOf moves i, i)]))

theorem Single.getLsbD {n : ℕ} {moves : List (ℕ × ℕ)} (h : Single n moves) (x : BitVec w) {i : ℕ}
    (hn : i < n) (hi : i < w) : (moveBits moves x).getLsbD i = x.getLsbD (sourceOf moves i) := by
  have hany := List.any_filter (p := (·.2 == i)) (q := fun m => x.getLsbD m.1) (l := moves)
  rw [getLsbD_moveBits moves x hi, ← hany, h i hn, List.any_cons, List.any_nil, Bool.or_false]

end MuggleC.Foundation.MovedBits

namespace MuggleC.Foundation.Lanes

open BitVec

variable {v w n : ℕ}

/-- Lane `i` of a word, the lowest first. -/
def lane (v : ℕ) (x : BitVec w) (i : ℕ) : BitVec v := x.extractLsb' (v * i) v

theorem getLsbD_lane (x : BitVec w) (i : ℕ) {j : ℕ} (hj : j < v) :
    (lane v x i).getLsbD j = x.getLsbD (v * i + j) := by
  simp [lane, hj]

variable {x : BitVec (v * n)} {k i : ℕ} {m : BitVec w}

theorem ext_lane {y : BitVec (v * n)} (h : ∀ i < n, lane v x i = lane v y i) : x = y := by
  apply eq_of_getLsbD_eq
  intro j hj
  have hv : 0 < v := Nat.pos_of_mul_pos_right (Nat.lt_of_le_of_lt (Nat.zero_le j) hj)
  have hlane := h (j / v) (Nat.div_lt_of_lt_mul hj)
  rw [← Nat.div_add_mod j v, ← getLsbD_lane x (j / v) (Nat.mod_lt j hv),
    ← getLsbD_lane y (j / v) (Nat.mod_lt j hv), hlane]

def join : {n : ℕ} → (Fin n → BitVec v) → BitVec (v * n)
  | 0, _ => 0#0
  | _ + 1, f => join (fun i => f i.succ) ++ f 0

theorem getLsbD_join (f : Fin n → BitVec v) (i : Fin n) {j : ℕ} (hj : j < v) :
    (join f).getLsbD (v * i + j) = (f i).getLsbD j := by
  induction n with
  | zero => exact i.elim0
  | succ n ih =>
    have happend : ∀ k, (join f).getLsbD k =
        if k < v then (f 0).getLsbD k else (join fun i => f i.succ).getLsbD (k - v) :=
      fun k => getLsbD_append
    induction i using Fin.cases with
    | zero => simp [happend, hj]
    | succ i =>
      have hpos : ¬ v * (i.val + 1) + j < v := by
        rw [Nat.mul_succ]
        omega
      have hsub : v * (i.val + 1) + j - v = v * i.val + j := by
        rw [Nat.mul_succ]
        omega
      rw [happend, Fin.val_succ, if_neg hpos, hsub, ih]

theorem lane_join (f : Fin n → BitVec v) (i : Fin n) : lane v (join f) i = f i := by
  apply eq_of_getLsbD_eq
  intro j hj
  rw [getLsbD_lane _ _ hj, getLsbD_join f i hj]

theorem lane_and (x y : BitVec w) (i : ℕ) : lane v (x &&& y) i = lane v x i &&& lane v y i :=
  extractLsb'_and

theorem lane_or (x y : BitVec w) (i : ℕ) : lane v (x ||| y) i = lane v x i ||| lane v y i :=
  extractLsb'_or

theorem lane_xor (x y : BitVec w) (i : ℕ) : lane v (x ^^^ y) i = lane v x i ^^^ lane v y i :=
  extractLsb'_xor

theorem xor_and (x y m : BitVec w) : (x ^^^ y) &&& m = (x &&& m) ^^^ (y &&& m) := by
  apply eq_of_getLsbD_eq
  intro j _
  simp only [getLsbD_and, getLsbD_xor, Bool.and_xor_distrib_right]

/-- Nothing is lost by a shift to the left. -/
def FitsLeft (k : ℕ) (x : BitVec w) : Prop := x <<< k >>> k = x

def FitsRight (k : ℕ) (x : BitVec w) : Prop := x >>> k <<< k = x

instance (k : ℕ) (x : BitVec w) : Decidable (FitsLeft k x) := inferInstanceAs (Decidable (_ = _))

instance (k : ℕ) (x : BitVec w) : Decidable (FitsRight k x) := inferInstanceAs (Decidable (_ = _))

theorem fitsLeft_iff {x : BitVec w} : FitsLeft k x ↔ ∀ j < w, w ≤ k + j → x.getLsbD j = false := by
  constructor
  · intro h j _ hkj
    rw [← h]
    simp [Nat.not_lt.mpr hkj]
  · intro h
    apply eq_of_getLsbD_eq
    intro j hj
    by_cases hkj : k + j < w
    · simp [hkj, hj]
    · simp [hkj, h j hj (Nat.not_lt.mp hkj)]

theorem fitsRight_iff {x : BitVec w} : FitsRight k x ↔ ∀ j < k, x.getLsbD j = false := by
  constructor
  · intro h j hj
    rw [← h]
    simp [hj]
  · intro h
    apply eq_of_getLsbD_eq
    intro j hj
    by_cases hkj : j < k
    · simp [hkj, h j hkj]
    · simp [hkj, hj, Nat.add_sub_cancel' (Nat.not_lt.mp hkj)]

theorem FitsLeft.and (h : FitsLeft k m) (x : BitVec w) :
    FitsLeft k (x &&& m) :=
  fitsLeft_iff.mpr fun j hj hkj => by
    rw [getLsbD_and, fitsLeft_iff.mp h j hj hkj, Bool.and_false]

theorem FitsLeft.xor {x y : BitVec w} (hx : FitsLeft k x) (hy : FitsLeft k y) :
    FitsLeft k (x ^^^ y) :=
  fitsLeft_iff.mpr fun j hj hkj => by
    rw [getLsbD_xor, fitsLeft_iff.mp hx j hj hkj, fitsLeft_iff.mp hy j hj hkj, Bool.xor_false]

theorem FitsRight.and (h : FitsRight k m) (x : BitVec w) :
    FitsRight k (x &&& m) :=
  fitsRight_iff.mpr fun j hj => by
    rw [getLsbD_and, fitsRight_iff.mp h j hj, Bool.and_false]

theorem lane_ushiftRight (hk : k ≤ v)
    (h : ∀ i < n, FitsRight k (lane v x i)) (i : ℕ) : lane v (x >>> k) i = lane v x i >>> k := by
  apply eq_of_getLsbD_eq
  intro j hj
  rw [getLsbD_lane _ _ hj, getLsbD_ushiftRight, getLsbD_ushiftRight]
  by_cases hkj : k + j < v
  · rw [getLsbD_lane _ _ hkj]
    congr 1
    omega
  · have hplace : k + (v * i + j) = v * (i + 1) + (k + j - v) := by
      rw [Nat.mul_succ]
      omega
    rw [getLsbD_of_ge (lane v x i) (k + j) (by omega), hplace, ← getLsbD_lane x (i + 1) (by omega)]
    by_cases hi : i + 1 < n
    · exact fitsRight_iff.mp (h (i + 1) hi) _ (by omega)
    · rw [getLsbD_lane _ _ (by omega)]
      apply getLsbD_of_ge
      exact Nat.le_trans (Nat.mul_le_mul_left v (Nat.not_lt.mp hi)) (Nat.le_add_right ..)

theorem lane_shiftLeft (hk : k ≤ v) (h : ∀ i < n, FitsLeft k (lane v x i)) (hi : i < n) :
    lane v (x <<< k) i = lane v x i <<< k := by
  apply eq_of_getLsbD_eq
  intro j hj
  have hin : v * i + j < v * n := Nat.lt_of_lt_of_le (by rw [Nat.mul_succ]; omega)
    (Nat.mul_le_mul_left v hi)
  rw [getLsbD_lane _ _ hj, getLsbD_shiftLeft, getLsbD_shiftLeft]
  by_cases hkj : j < k
  · cases i with
    | zero => simp [hkj]
    | succ i =>
      have hplace : v * (i + 1) + j - k = v * i + (v + j - k) := by
        rw [Nat.mul_succ]
        omega
      rw [hplace, ← getLsbD_lane x i (by omega),
        fitsLeft_iff.mp (h i (by omega)) _ (by omega) (by omega)]
      simp [hkj]
  · have hplace : v * i + j - k = v * i + (j - k) := by omega
    have hlow : ¬ v * i + j < k := by omega
    rw [getLsbD_lane x i (by omega : j - k < v), hplace]
    simp [hlow, hin, hkj, hj]

def rep (n : ℕ) (m : BitVec v) : BitVec (v * n) := join fun _ : Fin n => m

theorem lane_rep (m : BitVec v) (hi : i < n) : lane v (rep n m) i = m :=
  lane_join (fun _ : Fin n => m) ⟨i, hi⟩

section Masks

variable (x : BitVec (v * n)) {m : BitVec v} {i k : ℕ}

theorem lane_and_rep (m : BitVec v) (hi : i < n) : lane v (x &&& rep n m) i = lane v x i &&& m := by
  rw [lane_and, lane_rep m hi]

theorem lane_and_rep_ushiftRight (hk : k ≤ v) (hm : FitsRight k m) (hi : i < n) :
    lane v ((x &&& rep n m) >>> k) i = (lane v x i &&& m) >>> k := by
  rw [lane_ushiftRight hk _ i, lane_and_rep x m hi]
  intro j hj
  rw [lane_and_rep x m hj]
  exact hm.and _

theorem lane_and_rep_shiftLeft (hk : k ≤ v) (hm : FitsLeft k m) (hi : i < n) :
    lane v ((x &&& rep n m) <<< k) i = (lane v x i &&& m) <<< k := by
  rw [lane_shiftLeft hk _ hi, lane_and_rep x m hi]
  intro j hj
  rw [lane_and_rep x m hj]
  exact hm.and _

theorem lane_ushiftRight_and_rep (hm : FitsLeft k m) (hi : i < n) :
    lane v (x >>> k &&& rep n m) i = lane v x i >>> k &&& m := by
  apply eq_of_getLsbD_eq
  intro j hj
  rw [lane_and_rep _ m hi, getLsbD_and, getLsbD_and, getLsbD_lane _ _ hj,
    getLsbD_ushiftRight, getLsbD_ushiftRight]
  by_cases hkj : k + j < v
  · rw [getLsbD_lane _ _ hkj]
    congr 2
    omega
  · rw [fitsLeft_iff.mp hm j hj (Nat.not_lt.mp hkj), Bool.and_false, Bool.and_false]

theorem lane_shiftLeft_and_rep (hm : FitsRight k m) (hi : i < n) :
    lane v (x <<< k &&& rep n m) i = lane v x i <<< k &&& m := by
  apply eq_of_getLsbD_eq
  intro j hj
  have hin : v * i + j < v * n := Nat.lt_of_lt_of_le (by rw [Nat.mul_succ]; omega)
    (Nat.mul_le_mul_left v hi)
  rw [lane_and_rep _ m hi, getLsbD_and, getLsbD_and, getLsbD_lane _ _ hj,
    getLsbD_shiftLeft, getLsbD_shiftLeft]
  by_cases hkj : j < k
  · rw [fitsRight_iff.mp hm j hkj, Bool.and_false, Bool.and_false]
  · have hplace : v * i + j - k = v * i + (j - k) := by omega
    have hlow : ¬ v * i + j < k := by omega
    rw [getLsbD_lane x i (by omega : j - k < v), hplace]
    simp [hlow, hin, hkj, hj]

end Masks

theorem append_sub_append {m : ℕ} (a b : BitVec m) {c d : BitVec v} (h : d.toNat ≤ c.toNat) :
    (a ++ c) - (b ++ d) = (a - b) ++ (c - d) := by
  apply eq_of_toNat_eq
  have happend : ∀ (x : BitVec m) (y : BitVec v), (x ++ y).toNat = x.toNat * 2 ^ v + y.toNat := by
    intro x y
    rw [toNat_append, ← Nat.shiftLeft_add_eq_or_of_lt y.isLt, Nat.shiftLeft_eq]
  have hb := b.isLt
  have hlow : (2 ^ v - d.toNat + c.toNat) % 2 ^ v = c.toNat - d.toNat := by
    rw [show 2 ^ v - d.toNat + c.toNat = 2 ^ v + (c.toNat - d.toNat) by omega, Nat.add_mod_left]
    exact Nat.mod_eq_of_lt (by omega)
  have hpos : 2 ^ v ≤ (2 ^ m - b.toNat) * 2 ^ v := Nat.le_mul_of_pos_left _ (by omega)
  have hall : (2 ^ m - b.toNat) * 2 ^ v + b.toNat * 2 ^ v = 2 ^ m * 2 ^ v := by
    rw [← Nat.add_mul, Nat.sub_add_cancel (Nat.le_of_lt hb)]
  have hsum : 2 ^ m * 2 ^ v - (b.toNat * 2 ^ v + d.toNat) + (a.toNat * 2 ^ v + c.toNat) =
      2 ^ v * (2 ^ m - b.toNat + a.toNat) + (c.toNat - d.toNat) := by
    rw [Nat.mul_comm (2 ^ v), Nat.add_mul]
    omega
  rw [toNat_sub, happend, happend, happend, toNat_sub,
    toNat_sub, hlow, Nat.pow_add, hsum, Nat.mul_comm (2 ^ m), Nat.mod_mul,
    Nat.mul_add_mod, Nat.mod_eq_of_lt (by omega), Nat.mul_add_div (Nat.two_pow_pos v),
    Nat.div_eq_of_lt (by omega : c.toNat - d.toNat < 2 ^ v), Nat.add_zero,
    Nat.mul_comm (2 ^ v), Nat.add_comm]

theorem join_sub (f g : Fin n → BitVec v) (h : ∀ i, (g i).toNat ≤ (f i).toNat) :
    join f - join g = join fun i => f i - g i := by
  induction n with
  | zero => exact BitVec.sub_zero _
  | succ n ih =>
    have htail := ih (fun i => f i.succ) (fun i => g i.succ) fun i => h i.succ
    exact (append_sub_append _ _ (h 0)).trans (congrArg (· ++ (f 0 - g 0)) htail)

theorem lane_sub {y : BitVec (v * n)} (h : ∀ i < n, (lane v y i).toNat ≤ (lane v x i).toNat)
    (hi : i < n) : lane v (x - y) i = lane v x i - lane v y i := by
  have hjoin : ∀ z : BitVec (v * n), (join fun i : Fin n => lane v z i) = z := fun z =>
    ext_lane fun i hi => lane_join (fun i : Fin n => lane v z i) ⟨i, hi⟩
  have hsub := join_sub (fun i : Fin n => lane v x i) (fun i => lane v y i) fun i => h i i.isLt
  rw [hjoin, hjoin] at hsub
  rw [hsub]
  exact lane_join _ ⟨i, hi⟩

end MuggleC.Foundation.Lanes
