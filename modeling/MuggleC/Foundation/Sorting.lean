/- digest: Sorted ranges of cells, rearrangements inside a range, and insertion by exchanges. -/

import Mathlib.Logic.Equiv.Basic
import Mathlib.Data.List.Perm.Lattice
import Mathlib.Data.List.Range

/-! The cells are a function of their index, and a range is half open. An insertion is a hole that
goes down one cell at a time, past larger cells. -/

namespace MuggleC.Foundation.Sorting

open List

universe u

variable {α : Type u}

section Rearranges

def Rearranges (lo hi : Nat) (v w : Nat → α) : Prop :=
  ∃ σ : Equiv.Perm Nat, (∀ i, i < lo ∨ hi ≤ i → σ i = i) ∧ w = v ∘ σ

variable {lo hi lo' hi' n i j : Nat} {v w x : Nat → α}

theorem Rearranges.refl (lo hi : Nat) (v : Nat → α) : Rearranges lo hi v v :=
  ⟨Equiv.refl _, fun _ _ => rfl, rfl⟩

theorem Rearranges.trans (h : Rearranges lo hi v w) (h' : Rearranges lo hi w x) :
    Rearranges lo hi v x := by
  obtain ⟨σ, hσ, rfl⟩ := h
  obtain ⟨τ, hτ, rfl⟩ := h'
  refine ⟨τ.trans σ, ?_, rfl⟩
  intro i hi
  rw [Equiv.trans_apply, hτ i hi, hσ i hi]

theorem Rearranges.mono (h : Rearranges lo hi v w) (hlo : lo' ≤ lo) (hhi : hi ≤ hi') :
    Rearranges lo' hi' v w := by
  obtain ⟨σ, hσ, rfl⟩ := h
  exact ⟨σ, fun i hi => hσ i (by omega), rfl⟩

theorem Rearranges.swap (v : Nat → α) (hi1 : lo ≤ i) (hi2 : i < hi) (hj1 : lo ≤ j) (hj2 : j < hi) :
    Rearranges lo hi v (v ∘ Equiv.swap i j) := by
  refine ⟨Equiv.swap i j, ?_, rfl⟩
  intro k hk
  exact Equiv.swap_apply_of_ne_of_ne (by omega) (by omega)

theorem Rearranges.outside (h : Rearranges lo hi v w) (hi : i < lo ∨ hi ≤ i) : w i = v i := by
  obtain ⟨σ, hσ, rfl⟩ := h
  exact congrArg v (hσ i hi)

theorem Rearranges.forall {p : α → Prop} (h : Rearranges lo hi v w)
    (hp : ∀ i, lo ≤ i → i < hi → p (v i)) (h1 : lo ≤ i) (h2 : i < hi) : p (w i) := by
  obtain ⟨σ, hσ, rfl⟩ := h
  have hin : lo ≤ σ i ∧ σ i < hi := by
    by_contra hout
    have hfix := σ.injective (hσ (σ i) (by omega))
    omega
  exact hp _ hin.1 hin.2

theorem Rearranges.perm (h : Rearranges lo hi v w) (hn : hi ≤ n) :
    ((range n).map w).Perm ((range n).map v) := by
  obtain ⟨σ, hσ, rfl⟩ := h
  have hrange : ((range n).map σ).Perm (range n) := by
    rw [perm_ext_iff_of_nodup (nodup_range.map σ.injective) nodup_range]
    intro k
    simp only [mem_map, mem_range]
    constructor
    · rintro ⟨i, hin, rfl⟩
      by_contra hout
      have hfix := σ.injective (hσ (σ i) (by omega))
      omega
    · intro hk
      refine ⟨σ.symm k, ?_, σ.apply_symm_apply k⟩
      by_contra hout
      have hfix := hσ (σ.symm k) (by omega)
      rw [σ.apply_symm_apply] at hfix
      omega
  rw [← map_map]
  exact hrange.map v

end Rearranges

section Sorted

variable (le : α → α → Prop)

def SortedOn (lo hi : Nat) (v : Nat → α) : Prop :=
  ∀ i j, lo ≤ i → i < j → j < hi → le (v i) (v j)

/-- The cell `m` is between the cells before it and the cells after it. -/
structure SplitAt (lo m hi : Nat) (v : Nat → α) : Prop where
  below : ∀ i, lo ≤ i → i < m → le (v i) (v m)
  above : ∀ i, m + 1 ≤ i → i < hi → le (v m) (v i)

/-- A range that is sorted but for its hole, with larger cells after the hole. -/
structure SortedExcept (lo hi : Nat) (v : Nat → α) (hole : Nat) : Prop where
  elsewhere : ∀ i j, lo ≤ i → i < j → j < hi → i ≠ hole → j ≠ hole → le (v i) (v j)
  above : ∀ j, hole < j → j < hi → le (v hole) (v j)

variable {le} {lo m hi hole n : Nat} {v w x : Nat → α}

theorem SplitAt.left (h : SplitAt le lo m hi v) (hr : Rearranges lo m v w) : SplitAt le lo m hi w := by
  have hm : w m = v m := hr.outside (.inr (Nat.le_refl m))
  constructor
  · intro i h1 h2
    rw [hm]
    exact hr.forall (p := fun a => le a (v m)) h.below h1 h2
  · intro i h1 h2
    rw [hm, hr.outside (.inr (by omega))]
    exact h.above i h1 h2

theorem SplitAt.right (h : SplitAt le lo m hi v) (hr : Rearranges (m + 1) hi v w) :
    SplitAt le lo m hi w := by
  have hm : w m = v m := hr.outside (.inl (by omega))
  constructor
  · intro i h1 h2
    rw [hm, hr.outside (.inl (by omega))]
    exact h.below i h1 h2
  · intro i h1 h2
    rw [hm]
    exact hr.forall (p := fun a => le (v m) a) h.above h1 h2

theorem SplitAt.sorted (htrans : ∀ a b c, le a b → le b c → le a c) (h : SplitAt le lo m hi v)
    (hleft : SortedOn le lo m v) (hright : SortedOn le (m + 1) hi v) : SortedOn le lo hi v := by
  intro i j h1 hij h2
  rcases Nat.lt_trichotomy i m with him | rfl | him
  · rcases Nat.lt_trichotomy j m with hjm | rfl | hjm
    · exact hleft i j h1 hij hjm
    · exact h.below i h1 hij
    · exact htrans _ _ _ (h.below i h1 him) (h.above j hjm h2)
  · exact h.above j hij h2
  · exact hright i j him hij h2

theorem SortedOn.congr (h : SortedOn le lo hi v) (heq : ∀ i, lo ≤ i → i < hi → w i = v i) :
    SortedOn le lo hi w := by
  intro i j h1 hij h2
  rw [heq i h1 (by omega), heq j (by omega) h2]
  exact h i j h1 hij h2

theorem SortedOn.pairwise (h : SortedOn le 0 n v) : ((range n).map v).Pairwise le := by
  rw [pairwise_map]
  apply pairwise_lt_range.imp_of_mem
  intro i j _ hj hij
  exact h i j (Nat.zero_le i) hij (mem_range.mp hj)

theorem SortedOn.snoc (h : SortedOn le lo hi v) : SortedExcept le lo (hi + 1) v hi := by
  constructor
  · intro i j h1 hij h2 _ hj
    exact h i j h1 hij (by omega)
  · omega

theorem SortedExcept.slide (h : SortedExcept le lo hi v (hole + 1)) (hlo : lo ≤ hole)
    (hin : hole + 1 < hi) (hle : le (v (hole + 1)) (v hole)) :
    SortedExcept le lo hi (v ∘ Equiv.swap hole (hole + 1)) hole := by
  have hat : (v ∘ Equiv.swap hole (hole + 1)) hole = v (hole + 1) :=
    congrArg v (Equiv.swap_apply_left _ _)
  have hup : (v ∘ Equiv.swap hole (hole + 1)) (hole + 1) = v hole :=
    congrArg v (Equiv.swap_apply_right _ _)
  have hkeep : ∀ i, i ≠ hole → i ≠ hole + 1 → (v ∘ Equiv.swap hole (hole + 1)) i = v i :=
    fun i h1 h2 => congrArg v (Equiv.swap_apply_of_ne_of_ne h1 h2)
  constructor
  · intro i j h1 hij h2 hi hj
    by_cases hi' : i = hole + 1
    · rw [hi', hup, hkeep j hj (by omega)]
      exact h.elsewhere hole j hlo (by omega) h2 (by omega) (by omega)
    · rw [hkeep i hi hi']
      by_cases hj' : j = hole + 1
      · rw [hj', hup]
        exact h.elsewhere i hole h1 (by omega) (by omega) hi' (by omega)
      · rw [hkeep j hj hj']
        exact h.elsewhere i j h1 hij h2 hi' hj'
  · intro j h1 h2
    rw [hat]
    by_cases hj : j = hole + 1
    · rw [hj, hup]
      exact hle
    · rw [hkeep j (by omega) hj]
      exact h.above j (by omega) h2

theorem SortedExcept.close (h : SortedExcept le lo hi v hole)
    (hbelow : ∀ i, lo ≤ i → i < hole → le (v i) (v hole)) : SortedOn le lo hi v := by
  intro i j h1 hij h2
  by_cases hi : i = hole
  · rw [hi]
    exact h.above j (hi ▸ hij) h2
  · by_cases hj : j = hole
    · rw [hj]
      exact hbelow i h1 (hj ▸ hij)
    · exact h.elsewhere i j h1 hij h2 hi hj

theorem SortedExcept.stop (htrans : ∀ a b c, le a b → le b c → le a c)
    (h : SortedExcept le lo hi v (hole + 1)) (hin : hole + 1 < hi)
    (hle : le (v hole) (v (hole + 1))) : SortedOn le lo hi v := by
  apply h.close
  intro i h1 h2
  rcases Nat.lt_or_ge i hole with hlt | hge
  · exact htrans _ _ _ (h.elsewhere i hole h1 hlt (by omega) (by omega) (by omega)) hle
  · rwa [show i = hole by omega]

end Sorted

section Exchanges

/-- Two neighbours of the range that are in the wrong order change places. -/
def Exchange (lt : α → α → Prop) (lo hi : Nat) (v w : Nat → α) : Prop :=
  ∃ i, lo ≤ i ∧ i + 1 < hi ∧ lt (v (i + 1)) (v i) ∧ w = v ∘ Equiv.swap i (i + 1)

def Exchanges (lt : α → α → Prop) (lo hi : Nat) : (Nat → α) → (Nat → α) → Prop :=
  Relation.ReflTransGen (Exchange lt lo hi)

variable {lt : α → α → Prop} {lo hi hi' : Nat} {v w : Nat → α}

theorem Exchanges.mono (h : Exchanges lt lo hi v w) (hhi : hi ≤ hi') : Exchanges lt lo hi' v w := by
  induction h with
  | refl => exact Relation.ReflTransGen.refl
  | tail _ hstep ih =>
    obtain ⟨i, h1, h2, hlt, hw⟩ := hstep
    exact ih.tail ⟨i, h1, by omega, hlt, hw⟩

theorem Exchanges.rearranges (h : Exchanges lt lo hi v w) : Rearranges lo hi v w := by
  induction h with
  | refl => exact Rearranges.refl lo hi v
  | tail _ hstep ih =>
    obtain ⟨i, h1, h2, _, rfl⟩ := hstep
    exact ih.trans (Rearranges.swap _ h1 (by omega) (by omega) h2)

theorem Exchanges.filter_eq {n : Nat} {p : α → Bool} (h : Exchanges lt lo n v w)
    (hp : ∀ a b, lt b a → p a = false ∨ p b = false) :
    ((range n).map w).filter p = ((range n).map v).filter p := by
  induction h with
  | refl => rfl
  | @tail w x _ hstep ih =>
    obtain ⟨i, -, hi, hlt, rfl⟩ := hstep
    obtain ⟨m, rfl⟩ : ∃ m, n = i + (2 + m) := ⟨n - i - 2, by omega⟩
    have hkeep : ∀ k, k ≠ i → k ≠ i + 1 → w (Equiv.swap i (i + 1) k) = w k :=
      fun k h1 h2 => congrArg w (Equiv.swap_apply_of_ne_of_ne h1 h2)
    have hpre : (range i).map (w ∘ Equiv.swap i (i + 1)) = (range i).map w :=
      map_congr_left fun k hk => hkeep k (by simp at hk; omega) (by simp at hk; omega)
    have hpost : ((range m).map fun k => w (Equiv.swap i (i + 1) (i + (2 + k)))) =
        (range m).map fun k => w (i + (2 + k)) :=
      map_congr_left fun k _ => hkeep _ (by omega) (by omega)
    rw [← ih, range_add, map_append, map_append, hpre, filter_append, filter_append]
    congr 1
    rcases hp _ _ hlt with h | h <;>
      simp [range_add, range_succ, Function.comp_def, hpost, filter_cons, h]

end Exchanges

end MuggleC.Foundation.Sorting
