/- digest: Named files under remove, rename and append, and the shift of a row of numbered files. -/

import Mathlib.Data.List.Basic

namespace MuggleC.Foundation.Files

open Function

universe u v

/-- The contents of each file; `none` is a name that no file has. -/
abbrev Directory (ν : Type u) (β : Type v) := ν → Option (List β)

variable {ν : Type u} {β : Type v}

/-- What reading the file gives, where a missing file counts as empty. -/
def content (fs : Directory ν β) (n : ν) : List β := (fs n).getD []

section Operations

variable [DecidableEq ν]

/-- Opening for appending creates a missing file and leaves an existing one as it is. -/
def create (fs : Directory ν β) (n : ν) : Directory ν β := Function.update fs n (some (content fs n))

def append (fs : Directory ν β) (n : ν) (bs : List β) : Directory ν β :=
  Function.update fs n (some (content fs n ++ bs))

def remove (fs : Directory ν β) (n : ν) : Directory ν β := Function.update fs n none

/-- Renaming replaces a file that has the new name, and does nothing without a file to rename. -/
def rename (fs : Directory ν β) (src dst : ν) : Directory ν β :=
  match fs src with
  | none => fs
  | some c => Function.update (Function.update fs src none) dst (some c)

variable {fs : Directory ν β} {n src dst : ν} {bs : List β} {m : ν}

@[simp] theorem create_self : create fs n n = some (content fs n) := update_self ..

theorem create_of_ne (h : m ≠ n) : create fs n m = fs m := update_of_ne h ..

@[simp] theorem content_create (m : ν) : content (create fs n) m = content fs m := by
  by_cases h : m = n
  · subst h
    rw [content, create_self, Option.getD_some]
  · rw [content, create_of_ne h, content]

@[simp] theorem content_append_self : content (append fs n bs) n = content fs n ++ bs := by
  rw [content, append, update_self, Option.getD_some]

theorem append_of_ne (h : m ≠ n) : append fs n bs m = fs m := update_of_ne h ..

theorem content_append_of_ne (h : m ≠ n) : content (append fs n bs) m = content fs m := by
  rw [content, append_of_ne h, content]

@[simp] theorem remove_self : remove fs n n = none := update_self ..

theorem remove_of_ne (h : m ≠ n) : remove fs n m = fs m := update_of_ne h ..

theorem rename_src (h : src ≠ dst) : rename fs src dst src = none := by
  unfold rename
  cases hs : fs src with
  | none => exact hs
  | some c =>
    show update (update fs src none) dst (some c) src = none
    rw [update_of_ne h, update_self]

theorem rename_dst (h : fs dst = none) : rename fs src dst dst = fs src := by
  unfold rename
  cases hs : fs src with
  | none => exact h
  | some c => exact update_self ..

theorem rename_of_ne (hs : m ≠ src) (hd : m ≠ dst) : rename fs src dst m = fs m := by
  unfold rename
  cases fs src with
  | none => rfl
  | some c =>
    show update (update fs src none) dst (some c) m = fs m
    rw [update_of_ne hd, update_of_ne hs]

theorem rename_dst_isSome (h : (fs src).isSome ∨ (fs dst).isSome) :
    (rename fs src dst dst).isSome := by
  unfold rename
  cases hs : fs src with
  | none =>
    rw [hs] at h
    exact h.resolve_left (by simp)
  | some c => simp

theorem isSome_of_create (h : (create fs n m).isSome) : (fs m).isSome ∨ m = n := by
  by_cases hm : m = n
  · exact .inr hm
  · exact .inl (by rwa [create_of_ne hm] at h)

theorem isSome_of_append (h : (append fs n bs m).isSome) : (fs m).isSome ∨ m = n := by
  by_cases hm : m = n
  · exact .inr hm
  · exact .inl (by rwa [append_of_ne hm] at h)

theorem isSome_of_remove (h : (remove fs n m).isSome) : (fs m).isSome := by
  by_cases hm : m = n
  · subst hm
    simp at h
  · rwa [remove_of_ne hm] at h

theorem isSome_of_rename (h : (rename fs src dst m).isSome) : (fs m).isSome ∨ m = dst := by
  by_cases hd : m = dst
  · exact .inr hd
  · by_cases hs : m = src
    · subst hs
      simp [rename_src hd] at h
    · exact .inl (by rwa [rename_of_ne hs hd] at h)

/-- Every file of the row up to place `m` moves one place up, the last one first. -/
def shiftUp (slot : ℕ → ν) : ℕ → Directory ν β → Directory ν β
  | 0, fs => fs
  | m + 1, fs => shiftUp slot m (rename fs (slot m) (slot (m + 1)))

variable {slot : ℕ → ν} {m : ℕ}

theorem shiftUp_of_gt (hs : Function.Injective slot) {k : ℕ} (hk : m < k) :
    shiftUp slot m fs (slot k) = fs (slot k) := by
  induction m generalizing fs with
  | zero => rfl
  | succ m ih =>
    rw [shiftUp, ih (by omega)]
    exact rename_of_ne (hs.ne (by omega)) (hs.ne (by omega))

theorem shiftUp_zero (hs : Function.Injective slot) (hm : fs (slot m) = none) :
    shiftUp slot m fs (slot 0) = none := by
  induction m generalizing fs with
  | zero => exact hm
  | succ m ih =>
    apply ih
    exact rename_src (hs.ne (by omega))

theorem shiftUp_succ (hs : Function.Injective slot) (hm : fs (slot m) = none) {k : ℕ} (hk : k < m) :
    shiftUp slot m fs (slot (k + 1)) = fs (slot k) := by
  induction m generalizing fs with
  | zero => omega
  | succ m ih =>
    rw [shiftUp]
    rcases Nat.lt_or_eq_of_le (Nat.le_of_lt_succ hk) with hlt | rfl
    · rw [ih (rename_src (hs.ne (by omega))) hlt]
      exact rename_of_ne (hs.ne (by omega)) (hs.ne (by omega))
    · rw [shiftUp_of_gt hs (by omega)]
      exact rename_dst hm

end Operations

variable {α : Type u}

/-- The items at the places `n`, …, `0`, in that order. -/
def gather (g : ℕ → List α) : ℕ → List α
  | 0 => g 0
  | n + 1 => g (n + 1) ++ gather g n

variable {g g' : ℕ → List α} {n : ℕ}

theorem gather_congr (h : ∀ k ≤ n, g' k = g k) : gather g' n = gather g n := by
  induction n with
  | zero => exact h 0 (Nat.le_refl 0)
  | succ n ih => rw [gather, gather, h (n + 1) (Nat.le_refl _), ih fun k hk => h k (by omega)]

theorem gather_append {xs : List α} (h0 : g' 0 = g 0 ++ xs)
    (h : ∀ k, 0 < k → k ≤ n → g' k = g k) : gather g' n = gather g n ++ xs := by
  induction n with
  | zero => exact h0
  | succ n ih =>
    rw [gather, gather, h (n + 1) (by omega) (Nat.le_refl _), ih fun k hk hn => h k hk (by omega),
      List.append_assoc]

theorem gather_shift (h0 : g' 0 = [])
    (h : ∀ k < n + 1, g' (k + 1) = g k) : gather g' (n + 1) = gather g n := by
  induction n with
  | zero =>
    show g' 1 ++ g' 0 = g 0
    rw [h 0 (by omega), h0, List.append_nil]
  | succ n ih => rw [gather, ih fun k hk => h k (by omega), h (n + 1) (by omega), gather]

theorem flatten_gather (g : ℕ → List (List α)) (n : ℕ) :
    (gather g n).flatten = gather (fun k => (g k).flatten) n := by
  induction n with
  | zero => rfl
  | succ n ih => rw [gather, List.flatten_append, ih, gather]

end MuggleC.Foundation.Files
