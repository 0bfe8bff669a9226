/- digest: The first cells of an array as a list, and lists of the elements at given places. -/

import Mathlib.Data.List.Nodup
import Mathlib.Data.List.Perm.Basic

namespace MuggleC.Foundation.Cells

open Function List

universe u

variable {α : Type u}

/-- The first `n` cells. -/
def cells (f : ℕ → α) (n : ℕ) : List α := (List.range n).map f

theorem cells_succ (f : ℕ → α) (n : ℕ) : cells f (n + 1) = cells f n ++ [f n] := by
  rw [cells, range_succ, map_append, map_singleton, cells]

@[simp] theorem length_cells (f : ℕ → α) (n : ℕ) : (cells f n).length = n := by
  rw [cells, length_map, length_range]

theorem mem_cells {f : ℕ → α} {n i : ℕ} (h : i < n) : f i ∈ cells f n :=
  mem_map_of_mem (mem_range.mpr h)

theorem cells_congr {f g : ℕ → α} {n : ℕ} (h : ∀ i < n, g i = f i) : cells g n = cells f n :=
  map_congr_left fun i hi => h i (mem_range.mp hi)

theorem cells_update_of_le (f : ℕ → α) {n i : ℕ} (h : n ≤ i) (x : α) :
    cells (update f i x) n = cells f n :=
  cells_congr fun _ hj => update_of_ne (by omega) ..

theorem cells_push (f : ℕ → α) (n : ℕ) (x : α) :
    cells (update f n x) (n + 1) = cells f n ++ [x] := by
  rw [cells_succ, cells_update_of_le f (Nat.le_refl n), update_self]

theorem cells_update (f : ℕ → α) {n i : ℕ} (x : α) :
    cells (update f i x) n = (cells f n).set i x := by
  apply ext_getElem
  · simp
  · intro j _ _
    by_cases hj : i = j
    · subst hj
      simp [cells]
    · rw [getElem_set_ne hj]
      simp [cells, update_of_ne (Ne.symm hj)]

theorem cells_fill_perm (f : ℕ → α) {n i : ℕ} (h : i ≤ n) :
    (f i :: cells (update f i (f n)) n).Perm (cells f (n + 1)) := by
  rw [cells_succ]
  rcases Nat.lt_or_eq_of_le h with hlt | rfl
  · have hlen : i < (cells f n).length := by rwa [length_cells]
    have hget : (cells f n)[i] = f i := by simp [cells]
    rw [cells_update]
    calc (f i :: (cells f n).set i (f n)).Perm (f i :: f n :: (cells f n).eraseIdx i) :=
          (set_perm_cons_eraseIdx hlen _).cons _
      _ |>.Perm (f n :: f i :: (cells f n).eraseIdx i) := List.Perm.swap ..
      _ |>.Perm (f n :: cells f n) := by
          rw [← hget]
          exact (getElem_cons_eraseIdx_perm hlen).cons _
      _ |>.Perm (cells f n ++ [f n]) := (perm_append_singleton _ _).symm
  · rw [update_eq_self]
    exact (perm_append_singleton _ _).symm

end MuggleC.Foundation.Cells

namespace MuggleC.Foundation.Placement

open Function List

variable {α β : Type} {place : β → Prop} {loc : α → β} {xs : List α}

/-- A list without repetition of elements that are at the right places. -/
structure Holds (loc : α → β) (place : β → Prop) (xs : List α) : Prop where
  nodup : xs.Nodup
  mem : ∀ a ∈ xs, place (loc a)

namespace Holds

variable (h : Holds loc place xs)

include h

theorem not_mem {a : α} (ha : ¬ place (loc a)) : a ∉ xs :=
  fun hmem => ha (h.mem a hmem)

variable [DecidableEq α] {a : α} {b : β}

theorem frame (ha : a ∉ xs) : Holds (update loc a b) place xs := by
  refine ⟨h.nodup, ?_⟩
  intro c hc
  have hne : c ≠ a := by
    rintro rfl
    exact ha hc
  rw [update_of_ne hne]
  exact h.mem c hc

theorem away (ha : ¬ place (loc a)) : Holds (update loc a b) place xs :=
  h.frame (h.not_mem ha)

theorem within (hb : place b) : Holds (update loc a b) place xs := by
  refine ⟨h.nodup, ?_⟩
  intro c hc
  rcases eq_or_ne c a with rfl | hne
  · rw [update_self]
    exact hb
  · rw [update_of_ne hne]
    exact h.mem c hc

theorem erase : Holds (update loc a b) place (xs.erase a) := by
  have hrest : Holds loc place (xs.erase a) :=
    ⟨h.nodup.erase a, fun c hc => h.mem c (mem_of_mem_erase hc)⟩
  exact hrest.frame h.nodup.not_mem_erase

theorem cons (ha : ¬ place (loc a)) (hb : place b) : Holds (update loc a b) place (a :: xs) := by
  have hrest := h.within (a := a) hb
  refine ⟨nodup_cons.mpr ⟨h.not_mem ha, h.nodup⟩, ?_⟩
  intro c hc
  rcases mem_cons.mp hc with rfl | hc
  · rw [update_self]
    exact hb
  · exact hrest.mem c hc

theorem concat (ha : ¬ place (loc a)) (hb : place b) :
    Holds (update loc a b) place (xs ++ [a]) := by
  have hcons := h.cons ha hb
  have hperm : List.Perm (xs ++ [a]) (a :: xs) := perm_append_singleton a xs
  exact ⟨hperm.nodup_iff.mpr hcons.nodup, fun c hc => hcons.mem c (hperm.mem_iff.mp hc)⟩

omit h

theorem tail (h : Holds loc place (a :: xs)) : Holds (update loc a b) place xs := by
  have hrest : Holds loc place xs :=
    ⟨(nodup_cons.mp h.nodup).2, fun c hc => h.mem c (mem_cons_of_mem a hc)⟩
  exact hrest.frame (nodup_cons.mp h.nodup).1

end Holds

end MuggleC.Foundation.Placement
