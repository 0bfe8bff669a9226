/- digest: Heap order over the cells 1 to n, a hole that moves up or down, and the cells' multiset. -/

import Mathlib.Order.Interval.Finset.Nat

/-! The cells are a function of their index, from `1` to `n`, and the cell `i / 2` is the parent of
the cell `i`. A sift exchanges the cell at the hole with a neighbour. -/

namespace MuggleC.Foundation.BinaryHeap

open Finset Equiv

universe u

variable {α : Type u}

section Order

variable (le : α → α → Prop)

def HeapOrder (n : Nat) (v : Nat → α) : Prop := ∀ i, 2 ≤ i → i ≤ n → le (v (i / 2)) (v i)

/-- Heap order of all pairs but those with the hole, across which it holds too. -/
structure HeapExcept (n : Nat) (v : Nat → α) (hole : Nat) : Prop where
  elsewhere : ∀ i, 2 ≤ i → i ≤ n → i ≠ hole → i / 2 ≠ hole → le (v (i / 2)) (v i)
  across : ∀ c, 2 ≤ hole → c ≤ n → c / 2 = hole → le (v (hole / 2)) (v c)

variable {le} {n i c : Nat} {v : Nat → α}

theorem HeapOrder.root_le (hrefl : ∀ a, le a a) (htrans : ∀ a b c, le a b → le b c → le a c)
    (h : HeapOrder le n v) (hi : 1 ≤ i) (hn : i ≤ n) : le (v 1) (v i) := by
  induction i using Nat.strong_induction_on with
  | h i ih =>
    rcases Nat.lt_or_ge 1 i with hlt | hle
    · exact htrans _ _ _ (ih (i / 2) (by omega) (by omega) (by omega)) (h i hlt hn)
    · rw [show i = 1 by omega]
      exact hrefl _

theorem HeapExcept.close (h : HeapExcept le n v i) (hup : 2 ≤ i → le (v (i / 2)) (v i))
    (hdown : ∀ c, c ≤ n → c / 2 = i → le (v i) (v c)) : HeapOrder le n v := by
  intro j hj hn
  by_cases hji : j = i
  · rw [hji]
    exact hup (hji ▸ hj)
  · by_cases hpar : j / 2 = i
    · rw [hpar]
      exact hdown j hn hpar
    · exact h.elsewhere j hj hn hji hpar

theorem HeapExcept.up (htrans : ∀ a b c, le a b → le b c → le a c) (h : HeapExcept le n v i)
    (hi : 2 ≤ i) (hn : i ≤ n) : HeapExcept le n (v ∘ swap i (i / 2)) (i / 2) := by
  have hp : i / 2 ≠ i := by omega
  have hat : (v ∘ swap i (i / 2)) i = v (i / 2) := congrArg v (swap_apply_left _ _)
  have hkeep : ∀ j, j ≠ i → j ≠ i / 2 → (v ∘ swap i (i / 2)) j = v j := fun j h1 h2 =>
    congrArg v (swap_apply_of_ne_of_ne h1 h2)
  constructor
  · intro j hj hjn hne hpar
    have hji : j ≠ i := fun he => hpar (he ▸ rfl)
    rw [hkeep j hji hne]
    by_cases hpi : j / 2 = i
    · rw [hpi, hat]
      exact h.across j hi hjn hpi
    · rw [hkeep _ hpi hpar]
      exact h.elsewhere j hj hjn hji hpi
  · intro c hp2 hc hpar
    have htop : le (v (i / 2 / 2)) (v (i / 2)) :=
      h.elsewhere (i / 2) hp2 (by omega) hp (by omega)
    rw [hkeep (i / 2 / 2) (by omega) (by omega)]
    by_cases hci : c = i
    · rw [hci, hat]
      exact htop
    · rw [hkeep c hci (by omega)]
      have hc' := h.elsewhere c (by omega) hc hci (by omega)
      rw [hpar] at hc'
      exact htrans _ _ _ htop hc'

theorem HeapExcept.down (h : HeapExcept le n v i) (hpar : c / 2 = i) (hc : c ≤ n)
    (hmin : ∀ d, d ≤ n → d / 2 = i → le (v c) (v d)) : HeapExcept le n (v ∘ swap i c) c := by
  have hat : (v ∘ swap i c) i = v c := congrArg v (swap_apply_left _ _)
  have hkeep : ∀ j, j ≠ i → j ≠ c → (v ∘ swap i c) j = v j := fun j h1 h2 =>
    congrArg v (swap_apply_of_ne_of_ne h1 h2)
  constructor
  · intro j hj hjn hne hjc
    by_cases hji : j = i
    · rw [hji, hat, hkeep _ (by omega) (by omega)]
      exact h.across c (by omega) hc hpar
    · rw [hkeep j hji hne]
      by_cases hpi : j / 2 = i
      · rw [hpi, hat]
        exact hmin j hjn hpi
      · rw [hkeep _ hpi hjc]
        exact h.elsewhere j hj hjn hji hpi
  · intro d _ hd hdc
    rw [hpar, hat, hkeep d (by omega) (by omega)]
    have hcd := h.elsewhere d (by omega) hd (by omega) (by omega)
    rwa [hdc] at hcd

theorem HeapOrder.snoc (h : HeapOrder le n v) (x : α) :
    HeapExcept le (n + 1) (Function.update v (n + 1) x) (n + 1) := by
  constructor
  · intro i hi hn hne hpar
    rw [Function.update_of_ne hpar, Function.update_of_ne hne]
    exact h i hi (by omega)
  · omega

theorem HeapOrder.popRoot (h : HeapOrder le (n + 1) v) :
    HeapExcept le n (v ∘ swap 1 (n + 1)) 1 := by
  have hkeep : ∀ j, j ≠ 1 → j ≠ n + 1 → (v ∘ swap 1 (n + 1)) j = v j := fun j h1 h2 =>
    congrArg v (swap_apply_of_ne_of_ne h1 h2)
  constructor
  · intro i hi hn hne hpar
    rw [hkeep _ hpar (by omega), hkeep i hne (by omega)]
    exact h i hi (by omega)
  · omega

theorem HeapOrder.popAt (htrans : ∀ a b c, le a b → le b c → le a c) (h : HeapOrder le (n + 1) v)
    (hn : i ≤ n) : HeapExcept le n (v ∘ swap i (n + 1)) i := by
  have hkeep : ∀ j, j ≠ i → j ≠ n + 1 → (v ∘ swap i (n + 1)) j = v j := fun j h1 h2 =>
    congrArg v (swap_apply_of_ne_of_ne h1 h2)
  constructor
  · intro j hj hjn hne hpar
    rw [hkeep _ hpar (by omega), hkeep j hne (by omega)]
    exact h j hj (by omega)
  · intro c h2 hc hpar
    rw [hkeep _ (by omega) (by omega), hkeep c (by omega) (by omega)]
    have hdown := h c (by omega) (by omega)
    rw [hpar] at hdown
    exact htrans _ _ _ (h i h2 (by omega)) hdown

theorem HeapOrder.except (htrans : ∀ a b c, le a b → le b c → le a c) (h : HeapOrder le n v)
    (hn : i ≤ n) : HeapExcept le n v i := by
  constructor
  · intro j hj hjn _ _
    exact h j hj hjn
  · intro c h2 hc hpar
    have hdown := h c (by omega) hc
    rw [hpar] at hdown
    exact htrans _ _ _ (h i h2 hn) hdown

end Order

def cells (n : Nat) (v : Nat → α) : Multiset α := (Finset.Icc 1 n).val.map v

variable {n i j : Nat} {v w : Nat → α}

theorem mem_cells {a : α} : a ∈ cells n v ↔ ∃ i, 1 ≤ i ∧ i ≤ n ∧ v i = a := by
  rw [cells, Multiset.mem_map]
  constructor
  · rintro ⟨i, hi, rfl⟩
    obtain ⟨h1, hn⟩ := mem_Icc.mp (mem_val.mp hi)
    exact ⟨i, h1, hn, rfl⟩
  · rintro ⟨i, h1, hn, rfl⟩
    exact ⟨i, mem_Icc.mpr ⟨h1, hn⟩, rfl⟩

theorem cells_congr (h : ∀ i, 1 ≤ i → i ≤ n → v i = w i) : cells n v = cells n w := by
  apply Multiset.map_congr rfl
  intro i hi
  obtain ⟨h1, hn⟩ := mem_Icc.mp (mem_val.mp hi)
  exact h i h1 hn

theorem cells_succ (n : Nat) (v : Nat → α) : cells (n + 1) v = v (n + 1) ::ₘ cells n v := by
  have hnot : n + 1 ∉ Finset.Icc 1 n := by
    intro hm
    have := (mem_Icc.mp hm).2
    omega
  have hins : insert (n + 1) (Finset.Icc 1 n) = Finset.Icc 1 (n + 1) := by
    ext i
    simp only [mem_insert, mem_Icc]
    omega
  rw [cells, ← hins, insert_val_of_notMem hnot, Multiset.map_cons]
  rfl

theorem cells_swap (hi : 1 ≤ i) (hin : i ≤ n) (hj : 1 ≤ j) (hjn : j ≤ n) :
    cells n (v ∘ swap i j) = cells n v := by
  have hmap : (Finset.Icc 1 n).map (swap i j).toEmbedding = Finset.Icc 1 n := by
    apply map_perm
    intro a ha
    by_contra hout
    apply ha
    apply swap_apply_of_ne_of_ne
    · rintro rfl
      exact hout (mem_coe.mpr (mem_Icc.mpr ⟨hi, hin⟩))
    · rintro rfl
      exact hout (mem_coe.mpr (mem_Icc.mpr ⟨hj, hjn⟩))
  rw [cells, ← Multiset.map_map]
  conv_rhs => rw [cells, ← hmap]
  rfl

end MuggleC.Foundation.BinaryHeap
