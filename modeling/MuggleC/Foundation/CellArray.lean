/- digest: Arrays of cells that nothing may have been written to, with sizes of 64 bits. -/

import Mathlib.Algebra.Ring.Nat
import Mathlib.Data.List.Basic

set_option autoImplicit false

namespace MuggleC.Foundation.CellArray

open List

variable {α : Type}

/-- The array of `n` cells in a block whose size in bytes has 64 bits. -/
def mallocCells (α : Type) (size n : Nat) : List (Option α) :=
  replicate (size * n % 2 ^ 64 / size) none

def load (cells : List (Option α)) (i : Nat) : Option α := cells[i]?.join

def store (cells : List (Option α)) (i : Nat) (x : α) : Option (List (Option α)) :=
  if i < cells.length then some (cells.set i (some x)) else none

/-- The loop that copies `n` cells, from index `first` on, to the same places of another array. -/
def copyCells (cell : Nat → Option (Option α)) (first : Nat) :
    Nat → List (Option α) → Option (List (Option α))
  | 0, new => some new
  | n + 1, new => do
    let new ← copyCells cell first n new
    let x ← cell (first + n)
    if first + n < new.length then some (new.set (first + n) x) else none

variable {cells : List (Option α)} {i : Nat}

theorem length_mallocCells {size n : Nat} (hsize : 0 < size) (h : size * n < 2 ^ 64) :
    (mallocCells α size n).length = n := by
  rw [mallocCells, length_replicate, Nat.mod_eq_of_lt h, Nat.mul_div_cancel_left n hsize]

theorem load_eq {x : α} (h : cells[i]? = some (some x)) : load cells i = some x := by
  rw [load, h]
  rfl

theorem store_eq (h : i < cells.length) (x : α) : store cells i x = some (cells.set i (some x)) :=
  if_pos h

theorem copyCells_spec {cell : Nat → Option (Option α)} {first n : Nat} {new : List (Option α)}
    (hnew : first + n ≤ new.length) (hcell : ∀ j, j < n → ∃ x, cell (first + j) = some x) :
    ∃ r, copyCells cell first n new = some r ∧ r.length = new.length ∧
      ∀ j, j < n → r[first + j]? = cell (first + j) := by
  induction n with
  | zero => exact ⟨new, rfl, rfl, fun j hj => absurd hj (Nat.not_lt_zero j)⟩
  | succ n ih =>
    obtain ⟨r, hr, hlen, hget⟩ := ih (by omega) fun j hj => hcell j (by omega)
    obtain ⟨x, hx⟩ := hcell n (Nat.lt_succ_self n)
    have hlt : first + n < r.length := by omega
    refine ⟨r.set (first + n) x, ?_, by rw [length_set, hlen], ?_⟩
    · rw [copyCells, hr]
      dsimp only [Option.bind_eq_bind, Option.bind_some]
      rw [hx]
      exact if_pos hlt
    · intro j hj
      by_cases hjn : j = n
      · rw [hjn, getElem?_set_self hlt, hx]
      · rw [getElem?_set_ne (by omega), hget j (by omega)]

end MuggleC.Foundation.CellArray
