/- digest: Slices of a list of cells, counters of a fixed width, and windows read cyclically. -/

import Mathlib.Algebra.Ring.Nat
import Mathlib.Data.List.Rotate
import Mathlib.Data.Nat.ModEq

namespace MuggleC.Foundation.Slice

open List

universe u

variable {α : Type u}

/-- The `n` cells that start at index `i`. -/
def slice (l : List α) (i n : Nat) : List α := (l.drop i).take n

/-- The block copy of `s` over the cells that start at index `i`. -/
def overwrite (l : List α) (i : Nat) (s : List α) : List α :=
  l.take i ++ s ++ l.drop (i + s.length)

@[simp] theorem slice_zero (l : List α) (i : Nat) : slice l i 0 = [] := by
  simp [slice]

variable {l : List α} {i : Nat} {s : List α}

theorem length_slice {n : Nat} (h : i + n ≤ l.length) : (slice l i n).length = n := by
  simp only [slice, length_take, length_drop]
  omega

theorem slice_split (l : List α) (i m n : Nat) :
    slice l i (m + n) = slice l i m ++ slice l (i + m) n := by
  rw [slice, take_add, drop_drop]
  rfl

theorem slice_succ {x : α} (h : l[i]? = some x) (n : Nat) :
    slice l i (n + 1) = x :: slice l (i + 1) n := by
  obtain ⟨hi, rfl⟩ := List.getElem?_eq_some_iff.mp h
  rw [slice, List.drop_eq_getElem_cons hi, List.take_succ_cons]
  rfl

theorem getElem?_slice (l : List α) (i n k : Nat) :
    (slice l i n)[k]? = if k < n then l[i + k]? else none := by
  unfold slice
  split
  · next h => rw [getElem?_take_of_lt h, getElem?_drop]
  · next h => exact getElem?_eq_none (by simp only [length_take]; omega)

variable (h : i + s.length ≤ l.length)

include h

theorem length_overwrite : (overwrite l i s).length = l.length := by
  simp only [overwrite, length_append, length_take, length_drop]
  omega

theorem getElem?_overwrite
    (k : Nat) : (overwrite l i s)[k]? = if i ≤ k ∧ k < i + s.length then s[k - i]? else l[k]? := by
  have hi : (l.take i).length = i := by rw [length_take]; omega
  unfold overwrite
  by_cases h1 : k < i
  · rw [if_neg (by omega), append_assoc, getElem?_append_left (by omega), getElem?_take_of_lt h1]
  · by_cases h2 : k < i + s.length
    · rw [if_pos ⟨by omega, h2⟩, append_assoc, getElem?_append_right (by omega), hi,
        getElem?_append_left (by omega)]
    · rw [if_neg (by omega), getElem?_append_right (by rw [length_append]; omega), getElem?_drop,
        length_append, hi]
      congr 1
      omega

theorem slice_overwrite_of_disjoint {j n : Nat} (hd : j + n ≤ i ∨ i + s.length ≤ j) :
    slice (overwrite l i s) j n = slice l j n := by
  apply ext_getElem?
  intro k
  rw [getElem?_slice, getElem?_slice, getElem?_overwrite h]
  split
  · rw [if_neg (by omega)]
  · rfl

theorem slice_overwrite_self : slice (overwrite l i s) i s.length = s := by
  apply ext_getElem?
  intro k
  rw [getElem?_slice, getElem?_overwrite h]
  split
  · rw [if_pos (by omega)]
    congr 1
    omega
  · next hk => exact (getElem?_eq_none (by omega)).symm

omit h

theorem overwrite_slice {n : Nat} (h : i + n ≤ l.length) : overwrite l i (slice l i n) = l := by
  have hlen := length_slice h
  apply ext_getElem?
  intro k
  rw [getElem?_overwrite (by omega), hlen, getElem?_slice]
  split
  · rw [if_pos (by omega)]
    congr 1
    omega
  · rfl

theorem overwrite_nil (l : List α) (i : Nat) : overwrite l i [] = l := by
  rw [overwrite, append_nil, length_nil, Nat.add_zero, take_append_drop]

theorem overwrite_all {l : List α} (h : s.length = l.length) : overwrite l 0 s = s := by
  rw [overwrite, take_zero, nil_append, Nat.zero_add, h, drop_length, append_nil]

theorem overwrite_cons (h : i < l.length) (x : α) (s : List α) :
    overwrite l i (x :: s) = overwrite (l.set i x) (i + 1) s := by
  have htake : (l.set i x).take (i + 1) = l.take i ++ [x] := by
    have hlen : (l.take i).length = i := length_take_of_le (Nat.le_of_lt h)
    rw [take_set, take_succ_eq_append_getElem h,
      set_append_right _ _ (Nat.le_of_eq hlen), hlen, Nat.sub_self, set_cons_zero]
  rw [overwrite, overwrite, htake, length_cons, drop_set_of_lt (by omega),
    show i + (s.length + 1) = i + 1 + s.length by omega]
  simp only [append_assoc, cons_append, nil_append]

theorem overwrite_overwrite {j : Nat} {t : List α} (hs : i + s.length ≤ l.length)
    (ht : j + t.length ≤ l.length) (hlo : j ≤ i) (hhi : i + s.length ≤ j + t.length) :
    overwrite (overwrite l i s) j t = overwrite l j t := by
  apply ext_getElem?
  intro k
  rw [getElem?_overwrite (by rw [length_overwrite hs]; exact ht), getElem?_overwrite ht]
  split
  · rfl
  · rw [getElem?_overwrite hs, if_neg (by omega)]

end MuggleC.Foundation.Slice

namespace MuggleC.Foundation.Counter

theorem eq_of_mod_eq {m n c : Nat} (hle : m ≤ n) (hlt : n < m + c) (h : n % c = m % c) : n = m := by
  have hz := Nat.sub_mod_eq_zero_of_mod_eq h
  rw [Nat.mod_eq_of_lt (by omega)] at hz
  omega

variable {w : Nat}

theorem eq_of_ofNat_eq {m n : Nat} (hle : m ≤ n) (hlt : n < m + 2 ^ w)
    (h : BitVec.ofNat w n = BitVec.ofNat w m) : n = m := by
  rw [← BitVec.toNat_inj, BitVec.toNat_ofNat, BitVec.toNat_ofNat] at h
  exact eq_of_mod_eq hle hlt h

theorem ofNat_succ (n : Nat) : BitVec.ofNat w n + 1#w = BitVec.ofNat w (n + 1) := by
  rw [BitVec.ofNat_add]

theorem toNat_ofNat_sub {m n : Nat} (hle : m ≤ n) (hlt : n < m + 2 ^ w) :
    (BitVec.ofNat w n - BitVec.ofNat w m).toNat = n - m := by
  obtain ⟨d, rfl⟩ := Nat.exists_eq_add_of_le hle
  have hsub : BitVec.ofNat w (m + d) - BitVec.ofNat w m = BitVec.ofNat w d := by
    rw [BitVec.ofNat_add, BitVec.add_comm, BitVec.add_sub_cancel]
  rw [hsub, BitVec.toNat_ofNat, Nat.mod_eq_of_lt (by omega)]
  omega

end MuggleC.Foundation.Counter

namespace MuggleC.Foundation.Ring

open Foundation.Counter Foundation.Slice List

universe u

variable {α : Type u}

/-- The `n` cells from index `i` on, continued at index `0` after the last cell. -/
def window (l : List α) (i n : Nat) : List α := (l.rotate i).take n

variable {l : List α} {i n : Nat}

theorem length_window (h : n ≤ l.length) : (window l i n).length = n := by
  rw [window, length_take, length_rotate, Nat.min_eq_left h]

@[simp] theorem window_zero (l : List α) (i : Nat) : window l i 0 = [] := rfl

theorem window_mod (l : List α) (i n : Nat) : window l (i % l.length) n = window l i n := by
  rw [window, window, rotate_mod]

theorem window_eq_drop (h : i + n = l.length) : window l i n = l.drop i := by
  rw [window, rotate_eq_drop_append_take (by omega),
    take_append_of_le_length (by rw [length_drop]; omega),
    take_of_length_le (by rw [length_drop]; omega)]

theorem window_eq_drop_append (hi : i ≤ l.length) (h : l.length ≤ i + n)
    (hn : n ≤ l.length) : window l i n = l.drop i ++ l.take (i + n - l.length) := by
  rw [window, rotate_eq_drop_append_take hi, take_append, length_drop,
    take_of_length_le (by rw [length_drop]; omega), take_take]
  congr 2
  omega

theorem window_eq_slice (h : i + n ≤ l.length) : window l i n = slice l i n := by
  rw [window, rotate_eq_drop_append_take (by omega),
    take_append_of_le_length (by rw [length_drop]; omega), slice]

theorem getElem?_window {i n k : Nat} (hn : n ≤ l.length) (hk : k < n) :
    (window l i n)[k]? = l[(i + k) % l.length]? := by
  rw [window, getElem?_take_of_lt hk, getElem?_rotate (by omega), Nat.add_comm]

theorem window_succ {a : α} (hn : n < l.length)
    (ha : l[i % l.length]? = some a) : window l i (n + 1) = a :: window l (i + 1) n := by
  apply ext_getElem?
  intro k
  cases k with
  | zero => rw [getElem?_window (by omega) (by omega), Nat.add_zero, ha, getElem?_cons_zero]
  | succ k =>
    rw [getElem?_cons_succ]
    by_cases hk : k < n
    · rw [getElem?_window (by omega) (by omega), getElem?_window (by omega) hk]
      congr 2
      omega
    · rw [getElem?_eq_none (by rw [length_window (by omega)]; omega),
        getElem?_eq_none (by rw [length_window (by omega)]; omega)]

theorem mod_ne_of_lt {i k n c : Nat} (hk : k < n) (hn : n < k + c) : (i + n) % c ≠ (i + k) % c := by
  intro he
  have := eq_of_mod_eq (by omega) (by omega) he
  omega

theorem window_set_behind (a : α) (hn : n < l.length) :
    window (l.set ((i + n) % l.length) a) i n = window l i n := by
  apply ext_getElem?
  intro k
  by_cases hk : k < n
  · have hne := mod_ne_of_lt (i := i) hk (by omega : n < k + l.length)
    rw [getElem?_window (by rw [length_set]; omega) hk, getElem?_window (by omega) hk,
      length_set, getElem?_set_ne hne]
  · rw [getElem?_eq_none (by rw [length_window (by rw [length_set]; omega)]; omega),
      getElem?_eq_none (by rw [length_window (by omega)]; omega)]

theorem window_snoc {a : α} (hn : n < l.length)
    (ha : l[(i + n) % l.length]? = some a) : window l i (n + 1) = window l i n ++ [a] := by
  have hget : (l.rotate i)[n]? = some a := by
    rw [getElem?_rotate hn, Nat.add_comm n i, ha]
  rw [window, window, take_add_one, hget]
  rfl

theorem window_set (a : α) (hn : n < l.length) :
    window (l.set ((i + n) % l.length) a) i (n + 1) = window l i n ++ [a] := by
  have hlt : (i + n) % l.length < l.length := Nat.mod_lt _ (by omega)
  rw [window_snoc (by rw [length_set]; exact hn)
    (by rw [length_set, getElem?_set_self hlt]), window_set_behind a hn]

end MuggleC.Foundation.Ring
