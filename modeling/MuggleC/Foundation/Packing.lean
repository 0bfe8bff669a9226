/- digest: The most intervals of one length, among given places, that do not overlap. -/

import Mathlib.Data.Finset.Max

namespace MuggleC.Foundation.Packing

variable {place : ℕ → Prop} {m b e p : ℕ} {P : Finset ℕ}

/-- Places from `b` on, whose intervals of length `m` end by `e` and do not overlap. -/
structure Packs (place : ℕ → Prop) (m b e : ℕ) (P : Finset ℕ) : Prop where
  places : ∀ i ∈ P, b ≤ i ∧ i + m ≤ e ∧ place i
  apart : ∀ i ∈ P, ∀ j ∈ P, i < j → i + m ≤ j

def sizes (place : ℕ → Prop) (m b e : ℕ) : Set ℕ := {k | ∃ P, Packs place m b e P ∧ P.card = k}

theorem isGreatest_zero (h : ∀ i, b ≤ i → i + m ≤ e → ¬ place i) :
    IsGreatest (sizes place m b e) 0 := by
  refine ⟨⟨∅, ⟨by simp, by simp⟩, rfl⟩, ?_⟩
  rintro k ⟨P, hP, rfl⟩
  have hempty : P = ∅ := Finset.eq_empty_of_forall_notMem fun i hi =>
    h i (hP.places i hi).1 (hP.places i hi).2.1 (hP.places i hi).2.2
  simp [hempty]

theorem isGreatest_succ {n : ℕ} (hm : 0 < m) (hb : b ≤ p) (he : p + m ≤ e) (hp : place p)
    (hfirst : ∀ i, b ≤ i → place i → p ≤ i) (h : IsGreatest (sizes place m (p + m) e) n) :
    IsGreatest (sizes place m b e) (n + 1) := by
  obtain ⟨⟨P, hP, rfl⟩, hmax⟩ := h
  have hnot : p ∉ P := fun hmem => by
    have := (hP.places p hmem).1
    omega
  refine ⟨⟨insert p P, ⟨fun i hi => ?_, fun i hi j hj hij => ?_⟩, by simp [hnot]⟩, ?_⟩
  · rcases Finset.mem_insert.mp hi with rfl | hi
    · exact ⟨hb, he, hp⟩
    · obtain ⟨h1, h2, h3⟩ := hP.places i hi
      exact ⟨by omega, h2, h3⟩
  · rcases Finset.mem_insert.mp hi with hi | hi <;> rcases Finset.mem_insert.mp hj with hj | hj
    · omega
    · exact hi ▸ (hP.places j hj).1
    · have := (hP.places i hi).1
      omega
    · exact hP.apart i hi j hj hij
  · rintro k ⟨Q, hQ, rfl⟩
    rcases Q.eq_empty_or_nonempty with rfl | hne
    · simp
    · -- without its first place, the packing lies behind the interval of `p`
      have hmin := Q.min'_mem hne
      have hle := hfirst _ (hQ.places _ hmin).1 (hQ.places _ hmin).2.2
      have hrest : Packs place m (p + m) e (Q.erase (Q.min' hne)) := by
        refine ⟨fun i hi => ?_, fun i hi j hj => hQ.apart i (Finset.mem_of_mem_erase hi) j
          (Finset.mem_of_mem_erase hj)⟩
        obtain ⟨hi1, hi2⟩ := Finset.mem_erase.mp hi
        have := hQ.apart _ hmin i hi2 (lt_of_le_of_ne (Q.min'_le i hi2) (Ne.symm hi1))
        exact ⟨by omega, (hQ.places i hi2).2⟩
      have := hmax ⟨_, hrest, rfl⟩
      have := Finset.card_erase_add_one hmin
      omega

end MuggleC.Foundation.Packing
