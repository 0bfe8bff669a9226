/- source: dsaa/sort.c
   digest: Quick sort and shell sort end with a sorted permutation. -/

import MuggleC.Dsaa.Sorts
import MuggleC.Foundation.Sorting

set_option autoImplicit false

namespace MuggleC.Dsaa.QuickSort

open Dsaa.Sorts Foundation.OrderedMap Foundation.Sorting Function List Equiv

variable {α : Type}

@[simp] theorem ok_bind {β γ : Type} (x : β) (f : β → Except Halt γ) : (Except.ok x >>= f) = f x :=
  rfl

structure Holds (n : Nat) (ptr : List α) (v : Nat → α) : Prop where
  length : ptr.length = n
  cell : ∀ i, i < n → ptr[i]? = some (v i)

structure HoldsExcept (n : Nat) (ptr : List α) (v : Nat → α) (hole : Nat) : Prop where
  length : ptr.length = n
  cell : ∀ i, i < n → i ≠ hole → ptr[i]? = some (v i)

section Holds

variable {n i j hole : Nat} {ptr : List α} {v : Nat → α}

theorem load_eq {x : α} (h : ptr[i]? = some x) : load ptr i = .ok x := by
  rw [load, h]

theorem store_eq (h : i < ptr.length) (x : α) : store ptr i x = .ok (ptr.set i x) := by
  rw [store, if_pos h]

theorem Holds.load (h : Holds n ptr v) (hi : i < n) :
    load ptr i = .ok (v i) := load_eq (h.cell i hi)

theorem Holds.except (h : Holds n ptr v) (hole : Nat) : HoldsExcept n ptr v hole :=
  ⟨h.length, fun i hi _ => h.cell i hi⟩

theorem HoldsExcept.move (h : HoldsExcept n ptr v hole) (hin : hole < n) (j : Nat) :
    HoldsExcept n (ptr.set hole (v j)) (v ∘ swap j hole) j := by
  refine ⟨by rw [length_set, h.length], ?_⟩
  intro i hi hij
  by_cases hh : i = hole
  · rw [hh, getElem?_set_self (h.length ▸ hin), comp_apply, swap_apply_right]
  · rw [getElem?_set_ne (Ne.symm hh), h.cell i hi hh, comp_apply,
      swap_apply_of_ne_of_ne hij hh]

theorem HoldsExcept.fill (h : HoldsExcept n ptr v hole) (hin : hole < n) :
    Holds n (ptr.set hole (v hole)) v := by
  refine ⟨by rw [length_set, h.length], ?_⟩
  intro i hi
  by_cases hh : i = hole
  · rw [hh, getElem?_set_self (h.length ▸ hin)]
  · rw [getElem?_set_ne (Ne.symm hh), h.cell i hi hh]

theorem Holds.exchange (h : Holds n ptr v) (hi : i < n) (hj : j < n) :
    ∃ ptr', exchange ptr i j = .ok ptr' ∧ Holds n ptr' (v ∘ swap j i) := by
  have hmove := (h.except i).move hi j
  have hat : (v ∘ swap j i) j = v i := congrArg v (swap_apply_left _ _)
  refine ⟨_, ?_, hmove.fill hj⟩
  rw [Sorts.exchange, h.load hi, h.load hj, ok_bind, ok_bind, store_eq (h.length ▸ hi), ok_bind,
    store_eq (hmove.length ▸ hj), hat]

theorem Holds.eq_map (h : Holds n ptr v) : ptr = (range n).map v := by
  apply ext_getElem?
  intro i
  by_cases hi : i < n
  · rw [h.cell i hi, getElem?_map, getElem?_range hi, Option.map_some]
  · rw [getElem?_eq_none (h.length ▸ Nat.not_lt.mp hi), getElem?_eq_none]
    rw [length_map, length_range]
    exact Nat.not_lt.mp hi

theorem exists_holds (h : 0 < ptr.length) : ∃ v, Holds ptr.length ptr v := by
  refine ⟨fun i => ptr.getD i (ptr.get ⟨0, h⟩), rfl, ?_⟩
  intro i hi
  rw [getD_eq_getElem?_getD, getElem?_eq_getElem hi, Option.getD_some]

end Holds

def Le (cmp : α → α → Int) (a b : α) : Prop := cmp a b ≤ 0

section Order

variable {cmp : α → α → Int} (hc : TotalOrder cmp) {a b : α}

include hc

theorem le_trans (a b c : α) : Le cmp a b → Le cmp b c → Le cmp a c := hc.trans a b c

theorem le_of_not_lt (h : ¬ cmp a b < 0) : Le cmp b a := by
  have := hc.swap a b
  unfold Le
  omega

private theorem not_lt_of_le (h : Le cmp b a) : ¬ cmp a b < 0 := by
  have := hc.swap a b
  unfold Le at h
  omega

theorem le_of_gt (h : cmp a b > 0) : Le cmp b a := by
  have := hc.swap b a
  unfold Le
  omega

end Order

section Insertion

variable {cmp : α → α → Int} (hc : TotalOrder cmp) {n base : Nat}

def Lt (cmp : α → α → Int) (a b : α) : Prop := cmp b a > 0

include hc

variable {ptr : List α} {v : Nat → α}

theorem shift_spec (tmp : α) {j hi : Nat} (hh : HoldsExcept n ptr v (base + j)) (hj : base + j < hi)
    (hn : hi ≤ n) (htmp : v (base + j) = tmp) (hs : SortedExcept (Le cmp) base hi v (base + j)) :
    ∃ j' ptr' w, shift cmp base tmp j ptr = .ok (j', ptr') ∧ base + j' < hi ∧
      HoldsExcept n ptr' w (base + j') ∧ w (base + j') = tmp ∧
      Exchanges (Lt cmp) base hi v w ∧ SortedOn (Le cmp) base hi w := by
  induction j generalizing ptr v with
  | zero =>
    refine ⟨0, ptr, v, rfl, hj, hh, htmp, Relation.ReflTransGen.refl, hs.close ?_⟩
    omega
  | succ j ih =>
    have hload : load ptr (base + j) = .ok (v (base + j)) :=
      load_eq (hh.cell _ (by omega) (by omega))
    by_cases hgt : cmp (v (base + j)) tmp > 0
    · have hlt : Lt cmp (v (base + j + 1)) (v (base + j)) := by
        rw [show base + j + 1 = base + (j + 1) from rfl, htmp]
        exact hgt
      have hmove := hh.move (by omega) (base + j)
      have hslide := hs.slide (Nat.le_add_right base j) hj (le_of_gt hc hlt)
      obtain ⟨j', ptr', w, hrun, hj', hh', htmp', hex, hsort⟩ := ih hmove (by omega)
        (by rw [← htmp]; exact congrArg v (swap_apply_left _ _)) hslide
      refine ⟨j', ptr', w, ?_, hj', hh', htmp', ?_, hsort⟩
      · rw [shift, hload, ok_bind, if_pos hgt, store_eq (by rw [hh.length]; omega), ok_bind, hrun]
      · exact Relation.ReflTransGen.head ⟨base + j, by omega, by omega, hlt, rfl⟩ hex
    · have hlast : Le cmp (v (base + j)) (v (base + (j + 1))) := by
        rw [htmp]
        exact Int.not_lt.mp hgt
      refine ⟨j + 1, ptr, v, ?_, hj, hh, htmp, Relation.ReflTransGen.refl,
        hs.stop (le_trans hc) hj hlast⟩
      rw [shift, hload, ok_bind, if_neg hgt]

private theorem insertCells_spec (m i : Nat) (hh : Holds n ptr v)
    (hn : base + (i + m) ≤ n) (hs : SortedOn (Le cmp) base (base + i) v) :
    ∃ ptr' w, insertCells cmp base m i ptr = .ok ptr' ∧ Holds n ptr' w ∧
      Exchanges (Lt cmp) base (base + (i + m)) v w ∧ SortedOn (Le cmp) base (base + (i + m)) w := by
  induction m generalizing i ptr v with
  | zero => exact ⟨ptr, v, rfl, hh, Relation.ReflTransGen.refl, hs⟩
  | succ m ih =>
    obtain ⟨j, ptr₁, w₁, hshift, hj, hh₁, htmp, hex₁, hs₁⟩ := shift_spec hc (v (base + i))
      (hh.except (base + i)) (Nat.lt_succ_self _) (by omega) rfl hs.snoc
    have hfill := hh₁.fill (by omega)
    rw [htmp] at hfill
    obtain ⟨ptr₂, w₂, hrun, hh₂, hex₂, hs₂⟩ := ih (i + 1) hfill (by omega) hs₁
    rw [show i + 1 + m = i + (m + 1) by omega] at hex₂ hs₂
    refine ⟨ptr₂, w₂, ?_, hh₂, (hex₁.mono (by omega)).trans hex₂, hs₂⟩
    rw [insertCells, hh.load (by omega), ok_bind, hshift, ok_bind]
    simp only []
    rw [store_eq (by rw [hh₁.length]; omega), ok_bind, hrun]

theorem insertionSort_spec (base count : Nat) (hh : Holds n ptr v) (hn : base + count ≤ n) :
    ∃ ptr' w, insertionSort cmp base count ptr = .ok ptr' ∧ Holds n ptr' w ∧
      Exchanges (Lt cmp) base (base + count) v w ∧ SortedOn (Le cmp) base (base + count) w := by
  have hone : ∀ m, SortedOn (Le cmp) base (base + 1) m := by
    intro m i j h1 hij h2
    omega
  rcases Nat.eq_zero_or_pos count with rfl | hpos
  · refine ⟨ptr, v, rfl, hh, Relation.ReflTransGen.refl, ?_⟩
    intro i j h1 hij h2
    omega
  · obtain ⟨ptr', w, hrun, hh', hex, hs⟩ :=
      insertCells_spec hc (count - 1) 1 hh (by omega) (hone v)
    rw [show 1 + (count - 1) = count by omega] at hex hs
    exact ⟨ptr', w, hrun, hh', hex, hs⟩

end Insertion

section Median

variable {cmp : α → α → Int} (hc : TotalOrder cmp) {n left right : Nat}

structure PutInOrder (cmp : α → α → Int) (lo hi i j : Nat) (v w : Nat → α) : Prop where
  rearranges : Rearranges lo hi v w
  keeps : ∀ k, k ≠ i → k ≠ j → w k = v k
  ordered : Le cmp (w i) (w j)
  lowers : Le cmp (w i) (v i)
  among : w i = v i ∨ w i = v j

include hc

theorem le_refl (a : α) : Le cmp a a := le_of_not_lt hc (fun h => by
  have := (hc.swap a a).mp h
  omega)

variable {ptr : List α} {v : Nat → α}

private theorem putInOrder_spec {lo hi i j : Nat} (hh : Holds n ptr v)
    (hi1 : lo ≤ i) (hij : i < j) (hj : j < hi) (hn : hi ≤ n) :
    ∃ ptr' w, putInOrder cmp ptr i j = .ok ptr' ∧ Holds n ptr' w ∧ PutInOrder cmp lo hi i j v w := by
  by_cases hgt : cmp (v i) (v j) > 0
  · obtain ⟨ptr', hrun, hh'⟩ := hh.exchange (i := i) (j := j) (by omega) (by omega)
    have hati : (v ∘ swap j i) i = v j := congrArg v (swap_apply_right _ _)
    have hatj : (v ∘ swap j i) j = v i := congrArg v (swap_apply_left _ _)
    refine ⟨ptr', _, ?_, hh', Rearranges.swap v (by omega) hj hi1 (by omega), ?_, ?_, ?_,
      .inr hati⟩
    · rw [putInOrder, hh.load (by omega), ok_bind, hh.load (by omega), ok_bind, if_pos hgt, hrun]
    · intro k hki hkj
      exact congrArg v (swap_apply_of_ne_of_ne hkj hki)
    · rw [hati, hatj]
      exact le_of_gt hc hgt
    · rw [hati]
      exact le_of_gt hc hgt
  · refine ⟨ptr, v, ?_, hh, Rearranges.refl lo hi v, fun _ _ _ => rfl, Int.not_lt.mp hgt,
      le_refl hc _, .inl rfl⟩
    rw [putInOrder, hh.load (by omega), ok_bind, hh.load (by omega), ok_bind, if_neg hgt]

structure PivotSet (cmp : α → α → Int) (left right : Nat) (pivot : α) (w : Nat → α) : Prop where
  place : w (right - 1) = pivot
  first : Le cmp (w left) pivot
  last : Le cmp pivot (w right)

private theorem median3_spec (hh : Holds n ptr v)
    (hlr : left + 10 ≤ right) (hr : right < n) (hn : 8 * n < 2 ^ 64) :
    ∃ pivot ptr' w, median3 cmp ptr left right = .ok (pivot, ptr') ∧ Holds n ptr' w ∧
      Rearranges left (right + 1) v w ∧ PivotSet cmp left right pivot w := by
  obtain ⟨center, hcenter⟩ : ∃ c, c = add left right / 2 := ⟨_, rfl⟩
  have hbetween : left < center ∧ center < right - 1 := by
    rw [hcenter, add, Nat.mod_eq_of_lt (by omega)]
    omega
  have hpred : sub right 1 = right - 1 := by
    unfold sub
    omega
  obtain ⟨ptr₁, w₁, hrun₁, hh₁, h₁⟩ := putInOrder_spec hc hh (Nat.le_refl left) hbetween.1
    (show center < right + 1 by omega) hr
  obtain ⟨ptr₂, w₂, hrun₂, hh₂, h₂⟩ := putInOrder_spec hc hh₁ (Nat.le_refl left)
    (show left < right by omega) (Nat.lt_succ_self right) hr
  obtain ⟨ptr₃, w₃, hrun₃, hh₃, h₃⟩ := putInOrder_spec hc hh₂ (Nat.le_of_lt hbetween.1)
    (show center < right by omega) (Nat.lt_succ_self right) hr
  obtain ⟨ptr₄, hrun₄, hh₄⟩ := hh₃.exchange (i := center) (j := right - 1) (by omega) (by omega)
  have hplace : (w₃ ∘ swap (right - 1) center) (right - 1) = w₃ center :=
    congrArg w₃ (swap_apply_left _ _)
  have hkeep : ∀ k, k ≠ center → k ≠ right - 1 →
      (w₃ ∘ swap (right - 1) center) k = w₃ k := fun k h1 h2 =>
    congrArg w₃ (swap_apply_of_ne_of_ne h2 h1)
  -- the first cell is not larger than the other two, from the second exchange on
  have hfirst : Le cmp (w₂ left) (w₂ center) := by
    rw [h₂.keeps center (by omega) (by omega)]
    exact hc.trans _ _ _ h₂.lowers h₁.ordered
  have hmiddle : Le cmp (w₃ left) (w₃ center) := by
    rw [h₃.keeps left (by omega) (by omega)]
    rcases h₃.among with heq | heq
    · rw [heq]
      exact hfirst
    · rw [heq]
      exact h₂.ordered
  refine ⟨w₃ center, ptr₄, _, ?_, hh₄, ?_, hplace, ?_, ?_⟩
  · simp only [median3, ← hcenter, hrun₁, hrun₂, hrun₃, hpred, hrun₄, ok_bind]
    rw [hh₄.load (by omega), ok_bind, hplace]
  · exact ((h₁.rearranges.trans h₂.rearranges).trans h₃.rearranges).trans
      (Rearranges.swap w₃ (by omega) (by omega) (by omega) (by omega))
  · rw [hkeep left (by omega) (by omega)]
    exact hmiddle
  · rw [hkeep right (by omega) (by omega)]
    exact h₃.ordered

end Median

section Scans

variable {cmp : α → α → Int} {pivot : α} {n : Nat} {ptr : List α} {v : Nat → α}

structure UpScan (cmp : α → α → Int) (pivot : α) (v : Nat → α) (i stop : Nat) (reads : List Nat) :
    Prop where
  start : i < stop
  passed : ∀ k, i < k → k < stop → cmp (v k) pivot < 0
  stopped : ¬ cmp (v stop) pivot < 0
  reads : ∀ r ∈ reads, i < r ∧ r ≤ stop

structure DownScan (cmp : α → α → Int) (pivot : α) (v : Nat → α) (j stop : Nat) (reads : List Nat) :
    Prop where
  start : stop < j
  passed : ∀ k, stop < k → k < j → cmp (v k) pivot > 0
  stopped : ¬ cmp (v stop) pivot > 0
  reads : ∀ r ∈ reads, stop ≤ r ∧ r < j

private theorem scanUp_spec (hh : Holds n ptr v) (hn : n < 2 ^ 64) {s : Nat} (hs : s < n)
    (hstop : ¬ cmp (v s) pivot < 0) (turns i : Nat) (hi : i < s) (hturns : s - i ≤ turns) :
    ∃ stop reads, scanUp cmp ptr pivot turns i = .ok (stop, reads) ∧ stop ≤ s ∧
      UpScan cmp pivot v i stop reads := by
  induction turns generalizing i with
  | zero => omega
  | succ turns ih =>
    have hnext : add i 1 = i + 1 := Nat.mod_eq_of_lt (by omega)
    have hload := hh.load (i := i + 1) (by omega)
    by_cases hlt : cmp (v (i + 1)) pivot < 0
    · have hne : i + 1 ≠ s := by
        intro he
        exact hstop (he ▸ hlt)
      obtain ⟨stop, reads, hrun, hle, hscan⟩ := ih (i + 1) (by omega) (by omega)
      have hstart := hscan.start
      refine ⟨stop, (i + 1) :: reads, ?_, hle, by omega, ?_, hscan.stopped, ?_⟩
      · simp only [scanUp, hnext, hload, ok_bind, if_pos hlt, hrun]
      · intro k h1 h2
        by_cases hk : k = i + 1
        · rwa [hk]
        · exact hscan.passed k (by omega) h2
      · intro r hr
        rcases mem_cons.mp hr with rfl | hr
        · omega
        · have := hscan.reads r hr
          omega
    · refine ⟨i + 1, [i + 1], ?_, hi, Nat.lt_succ_self i, ?_, hlt, ?_⟩
      · simp only [scanUp, hnext, hload, ok_bind, if_neg hlt]
      · omega
      · intro r hr
        rw [mem_singleton.mp hr]
        omega

private theorem scanDown_spec (hh : Holds n ptr v) {s : Nat} (hstop : ¬ cmp (v s) pivot > 0)
    (turns j : Nat) (hj : s < j) (hjn : j < n) (hn : n < 2 ^ 64) (hturns : j - s ≤ turns) :
    ∃ stop reads, scanDown cmp ptr pivot turns j = .ok (stop, reads) ∧ s ≤ stop ∧
      DownScan cmp pivot v j stop reads := by
  induction turns generalizing j with
  | zero => omega
  | succ turns ih =>
    have hnext : sub j 1 = j - 1 := by
      unfold sub
      omega
    have hload := hh.load (i := j - 1) (by omega)
    by_cases hgt : cmp (v (j - 1)) pivot > 0
    · have hne : j - 1 ≠ s := by
        intro he
        exact hstop (he ▸ hgt)
      obtain ⟨stop, reads, hrun, hle, hscan⟩ := ih (j - 1) (by omega) (by omega) (by omega)
      have hstart := hscan.start
      refine ⟨stop, (j - 1) :: reads, ?_, hle, by omega, ?_, hscan.stopped, ?_⟩
      · simp only [scanDown, hnext, hload, ok_bind, if_pos hgt, hrun]
      · intro k h1 h2
        by_cases hk : k = j - 1
        · rwa [hk]
        · exact hscan.passed k h1 (by omega)
      · intro r hr
        rcases mem_cons.mp hr with rfl | hr
        · omega
        · have := hscan.reads r hr
          omega
    · refine ⟨j - 1, [j - 1], ?_, by omega, by omega, ?_, hgt, ?_⟩
      · simp only [scanDown, hnext, hload, ok_bind, if_neg hgt]
      · omega
      · intro r hr
        rw [mem_singleton.mp hr]
        omega

end Scans

section Partition

variable {cmp : α → α → Int} (hc : TotalOrder cmp) {n left right : Nat} {pivot : α}

/-- Between two rounds: no cell up to `i` is larger than the pivot, and none from `j` on is
smaller. The cells `i` and `j` stop the next scans. -/
structure Narrowed (cmp : α → α → Int) (pivot : α) (left right i j : Nat) (v : Nat → α) : Prop where
  place : v (right - 1) = pivot
  low : left ≤ i
  apart : i < j
  high : j ≤ right - 1
  below : ∀ k, left ≤ k → k ≤ i → Le cmp (v k) pivot
  above : ∀ k, j ≤ k → k ≤ right → Le cmp pivot (v k)

structure Parted (cmp : α → α → Int) (pivot : α) (left right i : Nat) (v : Nat → α) : Prop where
  place : v (right - 1) = pivot
  low : left < i
  high : i ≤ right - 1
  below : ∀ k, left ≤ k → k < i → Le cmp (v k) pivot
  above : ∀ k, i ≤ k → k ≤ right → Le cmp pivot (v k)

variable {v : Nat → α}

theorem Parted.splitAt {i : Nat} (h : Parted cmp pivot left right i v) :
    SplitAt (Le cmp) left i (right + 1) (v ∘ swap (right - 1) i) := by
  have hhigh := h.high
  have hati : (v ∘ swap (right - 1) i) i = pivot :=
    (congrArg v (swap_apply_right _ _)).trans h.place
  constructor
  · intro k h1 h2
    rw [hati, comp_apply, swap_apply_of_ne_of_ne (by omega) (by omega)]
    exact h.below k h1 h2
  · intro k h1 h2
    rw [hati]
    by_cases hk : k = right - 1
    · rw [hk, comp_apply, swap_apply_left]
      exact h.above i (Nat.le_refl i) (by omega)
    · rw [comp_apply, swap_apply_of_ne_of_ne hk (by omega)]
      exact h.above k (by omega) (by omega)

include hc

theorem PivotSet.narrowed (h : PivotSet cmp left right pivot v)
    (hlr : left + 10 ≤ right) : Narrowed cmp pivot left right left (right - 1) v where
  place := h.place
  low := Nat.le_refl left
  apart := by omega
  high := Nat.le_refl _
  below k h1 h2 := by
    rw [show k = left by omega]
    exact h.first
  above k h1 h2 := by
    rcases (by omega : k = right - 1 ∨ k = right) with rfl | rfl
    · rw [h.place]
      exact le_refl hc pivot
    · exact h.last

theorem Narrowed.exchange {i j i' j' : Nat} {up down : List Nat}
    (h : Narrowed cmp pivot left right i j v) (hup : UpScan cmp pivot v i i' up)
    (hdown : DownScan cmp pivot v j j' down) (hlt : i' < j') :
    Narrowed cmp pivot left right i' j' (v ∘ swap j' i') := by
  have hi := hup.start
  have hj := hdown.start
  have hlow := h.low
  have hhigh := h.high
  have hati : (v ∘ swap j' i') i' = v j' := congrArg v (swap_apply_right _ _)
  have hatj : (v ∘ swap j' i') j' = v i' := congrArg v (swap_apply_left _ _)
  have hkeep : ∀ k, k ≠ i' → k ≠ j' → (v ∘ swap j' i') k = v k := fun k h1 h2 =>
    congrArg v (swap_apply_of_ne_of_ne h2 h1)
  refine ⟨?_, by omega, hlt, by omega, ?_, ?_⟩
  · rw [hkeep _ (by omega) (by omega)]
    exact h.place
  · intro k h1 h2
    rcases Nat.eq_or_lt_of_le h2 with rfl | hk
    · rw [hati]
      exact Int.not_lt.mp hdown.stopped
    · rw [hkeep k (by omega) (by omega)]
      rcases Nat.lt_or_ge i k with hik | hki
      · exact Int.le_of_lt (hup.passed k hik hk)
      · exact h.below k h1 hki
  · intro k h1 h2
    rcases Nat.eq_or_lt_of_le h1 with rfl | hk
    · rw [hatj]
      exact le_of_not_lt hc hup.stopped
    · rw [hkeep k (by omega) (by omega)]
      rcases Nat.lt_or_ge k j with hkj | hjk
      · exact le_of_gt hc (hdown.passed k hk hkj)
      · exact h.above k hjk h2

theorem Narrowed.parted {i j i' j' : Nat} {up down : List Nat}
    (h : Narrowed cmp pivot left right i j v) (hup : UpScan cmp pivot v i i' up) (hij : i' ≤ j)
    (hdown : DownScan cmp pivot v j j' down) (hlt : ¬ i' < j') :
    Parted cmp pivot left right i' v := by
  have hi := hup.start
  have hlow := h.low
  have hhigh := h.high
  refine ⟨h.place, by omega, by omega, ?_, ?_⟩
  · intro k h1 h2
    rcases Nat.lt_or_ge i k with hik | hki
    · exact Int.le_of_lt (hup.passed k hik h2)
    · exact h.below k h1 hki
  · intro k h1 h2
    rcases Nat.eq_or_lt_of_le h1 with rfl | hk
    · exact le_of_not_lt hc hup.stopped
    · rcases Nat.lt_or_ge k j with hkj | hjk
      · exact le_of_gt hc (hdown.passed k (by omega) hkj)
      · exact h.above k hjk h2

theorem partitionLoop_spec (hr : right < n) (hn : n < 2 ^ 64) (turns i j : Nat) {ptr : List α}
    (hh : Holds n ptr v) (h : Narrowed cmp pivot left right i j v) (hturns : j - i ≤ turns) :
    ∃ i' ptr' reads w, partitionLoop cmp pivot turns i j ptr = .ok (i', ptr', reads) ∧
      Holds n ptr' w ∧ Rearranges left (right + 1) v w ∧ Parted cmp pivot left right i' w ∧
      ∀ r ∈ reads, left ≤ r ∧ r ≤ right := by
  induction turns generalizing i j ptr v with
  | zero =>
    have := h.apart
    omega
  | succ turns ih =>
    have hlow := h.low
    have hapart := h.apart
    have hhigh := h.high
    -- the cell `j` stops the scan up and the cell `i` the scan down
    obtain ⟨i', up, hrunUp, hi', hup⟩ := scanUp_spec hh hn (show j < n by omega)
      (not_lt_of_le hc (h.above j (Nat.le_refl j) (by omega))) (ptr.length + 1) i hapart
      (by rw [hh.length]; omega)
    obtain ⟨j', down, hrunDown, hj', hdown⟩ := scanDown_spec hh
      (Int.not_lt.mpr (h.below i hlow (Nat.le_refl i))) (ptr.length + 1) j hapart (by omega) hn
      (by rw [hh.length]; omega)
    have hreads : ∀ r ∈ up ++ down, left ≤ r ∧ r ≤ right := by
      intro r hr
      rcases mem_append.mp hr with hr | hr
      · have := hup.reads r hr
        omega
      · have := hdown.reads r hr
        omega
    have hi := hup.start
    have hj := hdown.start
    by_cases hlt : i' < j'
    · obtain ⟨ptr₁, hrunEx, hh₁⟩ := hh.exchange (i := i') (j := j') (by omega) (by omega)
      obtain ⟨i₂, ptr₂, reads, w, hrun, hh₂, hre, hparted, hreads₂⟩ :=
        ih i' j' hh₁ (h.exchange hc hup hdown hlt) (by omega)
      refine ⟨i₂, ptr₂, up ++ down ++ reads, w, ?_, hh₂, ?_, hparted, ?_⟩
      · simp only [partitionLoop, hrunUp, hrunDown, ok_bind, if_pos hlt, hrunEx, hrun]
      · exact (Rearranges.swap v (by omega) (by omega) (by omega) (by omega)).trans hre
      · intro r hr
        rcases mem_append.mp hr with hr | hr
        · exact hreads r hr
        · exact hreads₂ r hr
    · refine ⟨i', ptr, up ++ down, v, ?_, hh, Rearranges.refl _ _ _,
        h.parted hc hup hi' hdown hlt, hreads⟩
      simp only [partitionLoop, hrunUp, hrunDown, ok_bind, if_neg hlt]

end Partition

section Recursion

variable {cmp : α → α → Int} (hc : TotalOrder cmp) {n : Nat}

structure Sorts (cmp : α → α → Int) (n left right : Nat) (v : Nat → α) (ptr : List α)
    (scans : List ScanRead) (w : Nat → α) : Prop where
  holds : Holds n ptr w
  rearranges : Rearranges left (right + 1) v w
  sorted : SortedOn (Le cmp) left (right + 1) w
  scans : ∀ s ∈ scans, s.left ≤ s.index ∧ s.index ≤ s.right ∧ s.right < n

include hc

variable {ptr : List α} {v : Nat → α}

private theorem recursive_of_short {left right : Nat} (hh : Holds n ptr v)
    (hlr : left ≤ right) (hr : right < n) (hn : 8 * n < 2 ^ 64) (hshort : ¬ left + 10 ≤ right) :
    ∃ ptr' w, (∀ depth, 0 < depth → quickSortRecursive cmp depth ptr left right = .ok (ptr', [])) ∧
      Sorts cmp n left right v ptr' [] w := by
  have hcut : ¬ add left quickSortCutoff ≤ right := by
    rw [add, quickSortCutoff, Nat.mod_eq_of_lt (by omega)]
    exact hshort
  have hcount : sub (add right 1) left = right + 1 - left := by
    unfold sub add
    omega
  obtain ⟨ptr', w, hrun, hh', hex, hs⟩ :=
    insertionSort_spec hc left (right + 1 - left) hh (by omega)
  rw [show left + (right + 1 - left) = right + 1 by omega] at hex hs
  refine ⟨ptr', w, ?_, hh', hex.rearranges, hs, fun s h => (not_mem_nil h).elim⟩
  intro depth hd
  obtain ⟨d, rfl⟩ : ∃ d, depth = d + 1 := ⟨depth - 1, by omega⟩
  rw [quickSortRecursive, if_neg hcut, hcount, hrun, ok_bind]

theorem recursive_sorts (m left right : Nat) (hh : Holds n ptr v)
    (hlr : left ≤ right) (hr : right < n) (hn : 8 * n < 2 ^ 64) (hm : right - left ≤ m) :
    ∃ ptr' scans w, (∀ depth, m < depth →
      quickSortRecursive cmp depth ptr left right = .ok (ptr', scans)) ∧
      Sorts cmp n left right v ptr' scans w := by
  induction m generalizing left right ptr v with
  | zero =>
    obtain ⟨ptr', w, hrun, hsorts⟩ := recursive_of_short hc hh hlr hr hn (by omega)
    exact ⟨ptr', [], w, hrun, hsorts⟩
  | succ m ih =>
    by_cases hlong : left + 10 ≤ right
    · have hcut : add left quickSortCutoff ≤ right := by
        rw [add, quickSortCutoff, Nat.mod_eq_of_lt (by omega)]
        exact hlong
      have hpred : sub right 1 = right - 1 := by
        unfold sub
        omega
      obtain ⟨pivot, ptr₁, w₁, hmedian, hh₁, hre₁, hpivot⟩ := median3_spec hc hh hlong hr hn
      obtain ⟨i, ptr₂, reads, w₂, hloop, hh₂, hre₂, hparted, hreads⟩ :=
        partitionLoop_spec hc hr (by omega) (ptr₁.length + 1) left (right - 1) hh₁
          (hpivot.narrowed hc hlong) (by rw [hh₁.length]; omega)
      have hlow := hparted.low
      have hhigh := hparted.high
      obtain ⟨ptr₃, hplace, hh₃⟩ := hh₂.exchange (i := i) (j := right - 1) (by omega) (by omega)
      have hsplit := hparted.splitAt
      -- the two sides of the pivot, one after the other
      obtain ⟨ptr₄, scans₄, w₄, hrun₄, h₄⟩ := ih left (i - 1) hh₃ (by omega) (by omega) (by omega)
      obtain ⟨ptr₅, scans₅, w₅, hrun₅, h₅⟩ :=
        ih (i + 1) right h₄.holds (by omega) hr (by omega)
      have hre₄ := h₄.rearranges
      have hsorted₄ := h₄.sorted
      rw [show i - 1 + 1 = i by omega] at hre₄ hsorted₄
      have hleft : SortedOn (Le cmp) left i w₅ :=
        hsorted₄.congr fun k _ hk => h₅.rearranges.outside (.inl (by omega))
      refine ⟨ptr₅, reads.map (ScanRead.mk left right) ++ scans₄ ++ scans₅, w₅, ?_, h₅.holds, ?_,
        ((hsplit.left hre₄).right h₅.rearranges).sorted (le_trans hc) hleft h₅.sorted, ?_⟩
      · intro depth hd
        obtain ⟨d, rfl⟩ : ∃ d, depth = d + 1 := ⟨depth - 1, by omega⟩
        have hi : sub i 1 = i - 1 ∧ add i 1 = i + 1 := by
          unfold sub add
          omega
        simp only [quickSortRecursive, if_pos hcut, hmedian, hpred, hloop, hplace, hi.1, hi.2,
          hrun₄ d (by omega), hrun₅ d (by omega), ok_bind]
      · exact (((hre₁.trans hre₂).trans
          (Rearranges.swap w₂ (by omega) (by omega) (by omega) (by omega))).trans
          (hre₄.mono (Nat.le_refl _) (by omega))).trans
          (h₅.rearranges.mono (by omega) (Nat.le_refl _))
      · intro s hs
        rcases mem_append.mp hs with hs | hs
        · rcases mem_append.mp hs with hs | hs
          · obtain ⟨r, hr', rfl⟩ := mem_map.mp hs
            exact ⟨(hreads r hr').1, (hreads r hr').2, hr⟩
          · exact h₄.scans s hs
        · exact h₅.scans s hs
    · obtain ⟨ptr', w, hrun, hsorts⟩ := recursive_of_short hc hh hlr hr hn hlong
      exact ⟨ptr', [], w, fun depth hd => hrun depth (Nat.zero_lt_of_lt hd), hsorts⟩

end Recursion

/-- Given as many calls as there are cells, quick sort returns a sorted permutation of them, and no
scan reads outside the range of its call. -/
theorem quickSort_sorts (cmp : α → α → Int) (hc : TotalOrder cmp) (ptr : PtrArray α)
    (hcount : 1 ≤ ptr.cells.length) : ∃ cells scans,
      (∀ depth, ptr.cells.length ≤ depth → quickSort cmp depth ptr = .ok (cells, scans)) ∧
      cells.Perm ptr.cells ∧ cells.Pairwise (fun a b => cmp a b ≤ 0) ∧
      ∀ s ∈ scans, s.left ≤ s.index ∧ s.index ≤ s.right ∧ s.right < ptr.cells.length := by
  obtain ⟨v, hv⟩ := exists_holds hcount
  have hmem := ptr.addressable
  have hlast : sub ptr.cells.length 1 = ptr.cells.length - 1 := by
    unfold pointerSize at hmem
    unfold sub
    omega
  obtain ⟨cells, scans, w, hrun, h⟩ := recursive_sorts hc (ptr.cells.length - 1) 0
    (ptr.cells.length - 1) hv (Nat.zero_le _) (by omega) hmem (by omega)
  have hsorted := h.sorted
  have hre := h.rearranges
  rw [show ptr.cells.length - 1 + 1 = ptr.cells.length by omega] at hsorted hre
  refine ⟨cells, scans, ?_, ?_, ?_, h.scans⟩
  · intro depth hd
    rw [quickSort, hlast]
    exact hrun depth (by omega)
  · rw [h.holds.eq_map]
    exact (hre.perm (Nat.le_refl _)).trans (List.Perm.of_eq hv.eq_map.symm)
  · rw [h.holds.eq_map]
    exact hsorted.pairwise

def twelve : PtrArray Int := ⟨[5, 1, 5, 3, 5, 5, 2, 5, 9, 5, 0, 5], by decide⟩

theorem quickSort_sorts_twelve : ∃ cells scans,
      (∀ depth, 12 ≤ depth → quickSort (fun a b : Int => a - b) depth twelve = .ok (cells, scans)) ∧
      cells.Perm [5, 1, 5, 3, 5, 5, 2, 5, 9, 5, 0, 5] ∧
      cells.Pairwise (fun a b => a - b ≤ 0) ∧
      ∀ s ∈ scans, s.left ≤ s.index ∧ s.index ≤ s.right ∧ s.right < 12 :=
  quickSort_sorts (fun a b : Int => a - b) ⟨fun a b => by omega, fun a b c => by omega⟩ twelve
    (by decide)

example : (quickSort (fun a b : Int => a - b) 12 twelve).map Prod.fst =
    .ok [0, 1, 2, 3, 5, 5, 5, 5, 5, 5, 5, 9] := by decide

end MuggleC.Dsaa.QuickSort

namespace MuggleC.Dsaa.ShellSort

open Dsaa.Sorts Dsaa.QuickSort Foundation.OrderedMap Foundation.Sorting

variable {α : Type} {n increment : Nat} {ptr : List α} {v : Nat → α}

theorem shellShift_spec (cmp : α → α → Int) (tmp : α) (hpos : 0 < increment) (hn : n < 2 ^ 64)
    (turns j : Nat) {hi : Nat} (hh : HoldsExcept n ptr v j)
    (hj : j < hi) (hhi : hi ≤ n) (htmp : v j = tmp) (hturns : j < turns) :
    ∃ j' ptr' w, shellShift cmp increment tmp turns j ptr = .ok (j', ptr') ∧ j' < n ∧
      HoldsExcept n ptr' w j' ∧ w j' = tmp ∧ Rearranges 0 n v w ∧
      (TotalOrder cmp → increment = 1 → SortedExcept (Le cmp) 0 hi v j →
        SortedOn (Le cmp) 0 hi w) := by
  induction turns generalizing j ptr v with
  | zero => omega
  | succ turns ih =>
    by_cases hge : increment ≤ j
    · have hdown : sub j increment = j - increment := by
        unfold sub
        omega
      have hload : load ptr (j - increment) = .ok (v (j - increment)) :=
        load_eq (hh.cell _ (by omega) (by omega))
      by_cases hlt : cmp tmp (v (j - increment)) < 0
      · have hmove := hh.move (by omega) (j - increment)
        obtain ⟨j', ptr', w, hrun, hj', hh', htmp', hre, hsort⟩ := ih (j - increment) hmove
          (by omega) (by rw [← htmp]; exact congrArg v (Equiv.swap_apply_left _ _)) (by omega)
        refine ⟨j', ptr', w, ?_, hj', hh', htmp', ?_, ?_⟩
        · rw [shellShift, if_pos hge, hdown, hload, ok_bind, if_pos hlt,
            store_eq (by rw [hh.length]; omega), ok_bind, hrun]
        · exact (Rearranges.swap v (by omega) (by omega) (by omega) (by omega)).trans hre
        · intro hc hone hs
          obtain ⟨hole, rfl⟩ : ∃ hole, j = hole + 1 := ⟨j - 1, by omega⟩
          subst hone
          apply hsort hc rfl
          apply hs.slide (Nat.zero_le hole) hj
          rw [htmp]
          exact Int.le_of_lt hlt
      · refine ⟨j, ptr, v, ?_, by omega, hh, htmp, Rearranges.refl _ _ _, ?_⟩
        · rw [shellShift, if_pos hge, hdown, hload, ok_bind, if_neg hlt]
        · intro hc hone hs
          obtain ⟨hole, rfl⟩ : ∃ hole, j = hole + 1 := ⟨j - 1, by omega⟩
          subst hone
          apply hs.stop (QuickSort.le_trans hc) hj
          rw [htmp]
          exact le_of_not_lt hc hlt
    · refine ⟨j, ptr, v, ?_, by omega, hh, htmp, Rearranges.refl _ _ _, ?_⟩
      · rw [shellShift, if_neg hge]
      · intro _ hone hs
        apply hs.close
        omega

theorem shellCells_spec (cmp : α → α → Int) (hpos : 0 < increment) (hn : n < 2 ^ 64) (m i : Nat)
    (hh : Holds n ptr v) (hi : i + m ≤ n) :
    ∃ ptr' w, shellCells cmp increment m i ptr = .ok ptr' ∧ Holds n ptr' w ∧
      Rearranges 0 n v w ∧ (TotalOrder cmp → increment = 1 → SortedOn (Le cmp) 0 i v →
        SortedOn (Le cmp) 0 (i + m) w) := by
  induction m generalizing i ptr v with
  | zero => exact ⟨ptr, v, rfl, hh, Rearranges.refl _ _ _, fun _ _ hs => hs⟩
  | succ m ih =>
    obtain ⟨j, ptr₁, w₁, hshift, hj, hh₁, htmp, hre₁, hs₁⟩ := shellShift_spec cmp (v i) hpos hn
      (ptr.length + 1) i (hh.except i) (Nat.lt_succ_self i) (by omega) rfl
      (by rw [hh.length]; omega)
    have hfill := hh₁.fill hj
    rw [htmp] at hfill
    obtain ⟨ptr₂, w₂, hrun, hh₂, hre₂, hs₂⟩ := ih (i + 1) hfill (by omega)
    refine ⟨ptr₂, w₂, ?_, hh₂, hre₁.trans hre₂, ?_⟩
    · simp only [shellCells, hh.load (by omega : i < n), ok_bind, hshift,
        store_eq (by rw [hh₁.length]; omega : j < ptr₁.length), hrun]
    · intro hc hone hs
      rw [show i + (m + 1) = i + 1 + m by omega]
      exact hs₂ hc hone (hs₁ hc hone hs.snoc)

private theorem shellPasses_spec (cmp : α → α → Int) (hn : n < 2 ^ 64) (increment : Nat)
    (hle : increment ≤ n) (hh : Holds n ptr v) :
    ∃ ptr' w, (∀ turns, increment < turns → shellPasses cmp turns increment ptr = .ok ptr') ∧
      Holds n ptr' w ∧ Rearranges 0 n v w ∧
      (TotalOrder cmp → 0 < increment ∨ SortedOn (Le cmp) 0 n v → SortedOn (Le cmp) 0 n w) := by
  induction increment using Nat.strong_induction_on generalizing ptr v with
  | h increment ih =>
    by_cases hpos : 0 < increment
    · obtain ⟨ptr₁, w₁, hpass, hh₁, hre₁, hs₁⟩ := shellCells_spec cmp hpos hn (n - increment)
        increment hh (by omega)
      obtain ⟨ptr₂, w₂, hrun, hh₂, hre₂, hs₂⟩ := ih (increment / 2) (by omega) (by omega) hh₁
      refine ⟨ptr₂, w₂, ?_, hh₂, hre₁.trans hre₂, ?_⟩
      · intro turns ht
        obtain ⟨t, rfl⟩ : ∃ t, turns = t + 1 := ⟨turns - 1, by omega⟩
        rw [shellPasses, if_pos hpos, hh.length, hpass, ok_bind]
        exact hrun t (by omega)
      · intro hc _
        apply hs₂ hc
        rcases Nat.lt_or_ge 1 increment with hmore | hone
        · exact .inl (by omega)
        · have hfirst : SortedOn (Le cmp) 0 increment v := by
            intro i j _ hij hj
            omega
          have hlast := hs₁ hc (by omega) hfirst
          rw [show increment + (n - increment) = n by omega] at hlast
          exact .inr hlast
    · refine ⟨ptr, v, ?_, hh, Rearranges.refl _ _ _, ?_⟩
      · intro turns ht
        obtain ⟨t, rfl⟩ : ∃ t, turns = t + 1 := ⟨turns - 1, by omega⟩
        rw [shellPasses, if_neg hpos]
      · intro _ hs
        exact hs.resolve_left hpos

theorem shellSort_spec (cmp : α → α → Int) (ptr : PtrArray α) :
    ∃ cells, (∀ turns, ptr.cells.length < turns → shellSort cmp turns ptr = .ok cells) ∧
      cells.Perm ptr.cells ∧ (TotalOrder cmp → cells.Pairwise fun a b => cmp a b ≤ 0) := by
  have hmem := ptr.addressable
  unfold pointerSize at hmem
  rcases Nat.eq_zero_or_pos ptr.cells.length with h0 | hpos
  · have hnil := List.length_eq_zero_iff.mp h0
    refine ⟨[], ?_, by rw [hnil], fun _ => List.Pairwise.nil⟩
    intro turns ht
    obtain ⟨t, rfl⟩ : ∃ t, turns = t + 1 := ⟨turns - 1, by omega⟩
    rw [shellSort, h0, Nat.zero_div, hnil, shellPasses, if_neg (Nat.lt_irrefl 0)]
  · obtain ⟨v, hv⟩ := exists_holds hpos
    obtain ⟨cells, w, hrun, hh, hre, hs⟩ := shellPasses_spec cmp (by omega)
      (ptr.cells.length / 2) (by omega) hv
    refine ⟨cells, fun turns ht => hrun turns (by omega), ?_, ?_⟩
    · rw [hh.eq_map]
      exact (hre.perm (Nat.le_refl _)).trans (List.Perm.of_eq hv.eq_map.symm)
    · intro hc
      rw [hh.eq_map]
      apply (hs hc _).pairwise
      rcases Nat.lt_or_ge 1 ptr.cells.length with hmore | hone
      · exact .inl (by omega)
      · exact .inr fun i j _ hij hj => by omega

/-- Given more passes than there are cells, shell sort returns a sorted permutation of them. -/
theorem shellSort_sorts (cmp : α → α → Int) (hc : TotalOrder cmp) (ptr : PtrArray α) :
    ∃ cells, (∀ turns, ptr.cells.length < turns → shellSort cmp turns ptr = .ok cells) ∧
      cells.Perm ptr.cells ∧ cells.Pairwise fun a b => cmp a b ≤ 0 := by
  obtain ⟨cells, hrun, hperm, hs⟩ := shellSort_spec cmp ptr
  exact ⟨cells, hrun, hperm, hs hc⟩

def seven : PtrArray Int := ⟨[4, 9, 1, 7, 4, 0, 2], by decide⟩

theorem shellSort_sorts_seven : ∃ cells, (∀ turns, 7 < turns →
      shellSort (fun a b : Int => a - b) turns seven = .ok cells) ∧
      cells.Perm [4, 9, 1, 7, 4, 0, 2] ∧ cells.Pairwise fun a b => a - b ≤ 0 :=
  shellSort_sorts (fun a b : Int => a - b) ⟨fun a b => by omega, fun a b c => by omega⟩ seven

example : shellSort (fun a b : Int => a - b) 8 seven = .ok [0, 1, 2, 4, 4, 7, 9] := by decide

end MuggleC.Dsaa.ShellSort
