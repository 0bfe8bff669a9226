/- digest: Trees given by labelled child pointers, the walks along their labels, and their growth. -/

import Mathlib.Data.List.Induction

namespace MuggleC.Foundation.Paths

open Function List Option

universe u v w

variable {ν : Type u} {ι : Type v} {ω : Type w}

def walk (child : ν → ι → Option ν) : ν → List ι → Option ν
  | x, [] => some x
  | x, i :: p => (child x i).bind fun y => walk child y p

variable {child : ν → ι → Option ν} {root x y z : ν} {i j : ι} {p q : List ι}

theorem walk_append : walk child x (p ++ q) = (walk child x p).bind fun y => walk child y q := by
  induction p generalizing x with
  | nil => rfl
  | cons i p ih =>
    rw [cons_append, walk, walk, bind_assoc]
    exact congrArg _ (funext fun y => ih)

theorem walk_concat : walk child x (p ++ [i]) = (walk child x p).bind fun y => child y i := by
  rw [walk_append]
  refine congrArg _ (funext fun y => ?_)
  exact bind_fun_some _

/-- No pointer leads to the root, and no two lead to the same node. -/
structure Tree (root : ν) (child : ν → ι → Option ν) : Prop where
  not_root : ∀ x i, child x i ≠ some root
  unique : ∀ x y z i j, child x i = some z → child y j = some z → x = y ∧ i = j

theorem Tree.walk_injective (h : Tree root child) (hp : walk child root p = some z)
    (hq : walk child root q = some z) : p = q := by
  induction p using reverseRecOn generalizing q z with
  | nil =>
    rcases eq_nil_or_concat q with rfl | ⟨q, j, rfl⟩
    · rfl
    · rw [concat_eq_append, walk_concat] at hq
      obtain ⟨y, _, hy⟩ := bind_eq_some_iff.mp hq
      exact absurd (hy.trans hp.symm) (h.not_root y j)
  | append_singleton p i ih =>
    rw [walk_concat] at hp
    obtain ⟨x, hx, hxi⟩ := bind_eq_some_iff.mp hp
    rcases eq_nil_or_concat q with rfl | ⟨q, j, rfl⟩
    · exact absurd (hxi.trans hq.symm) (h.not_root x i)
    · rw [concat_eq_append, walk_concat] at hq
      obtain ⟨y, hy, hyj⟩ := bind_eq_some_iff.mp hq
      obtain ⟨rfl, rfl⟩ := h.unique x y z i j hxi hyj
      rw [ih hx hy, concat_eq_append]

def lookup (child : ν → ι → Option ν) (value : ν → Option ω) (root : ν) (p : List ι) : Option ω :=
  (walk child root p).bind value

section Edit

variable [DecidableEq ν] {value : ν → Option ω}

theorem Tree.lookup_set [DecidableEq ι] (h : Tree root child) (hp : walk child root p = some z)
    (v : Option ω) : lookup child (update value z v) root =
      update (lookup child value root) p v := by
  funext q
  by_cases hq : q = p
  · rw [hq, update_self, lookup, hp]
    exact update_self ..
  · rw [update_of_ne hq, lookup, lookup]
    cases hw : walk child root q with
    | none => rfl
    | some y =>
      refine update_of_ne ?_ _ _
      rintro rfl
      exact hq (h.walk_injective hw hp)

variable [DecidableEq ι]

def grow (child : ν → ι → Option ν) (x : ν) (i : ι) (z : ν) : ν → ι → Option ν :=
  Function.update child x (Function.update (child x) i (some z))

theorem grow_self : grow child x i z x i = some z := by
  rw [grow, update_self, update_self]

theorem grow_of_ne (h : ¬(y = x ∧ j = i)) : grow child x i z y j = child y j := by
  rw [grow]
  by_cases hy : y = x
  · rw [hy, update_self, update_of_ne fun hj => h ⟨hy, hj⟩]
  · rw [update_of_ne hy]

theorem Tree.grow (h : Tree root child) (hroot : z ≠ root) (hfresh : ∀ y j, child y j ≠ some z) :
    Tree root (grow child x i z) := by
  have hcases : ∀ y j t, Paths.grow child x i z y j = some t →
      (y = x ∧ j = i ∧ t = z) ∨ child y j = some t := by
    intro y j t ht
    by_cases hyj : y = x ∧ j = i
    · obtain ⟨rfl, rfl⟩ := hyj
      rw [grow_self] at ht
      exact .inl ⟨rfl, rfl, (some.inj ht).symm⟩
    · rw [grow_of_ne hyj] at ht
      exact .inr ht
  constructor
  · intro y j ht
    rcases hcases y j root ht with ⟨_, _, he⟩ | ht
    · exact hroot he.symm
    · exact h.not_root y j ht
  · intro y y' t j j' ht ht'
    rcases hcases y j t ht with ⟨rfl, rfl, rfl⟩ | hold
    · rcases hcases y' j' t ht' with ⟨rfl, rfl, _⟩ | ht'
      · exact ⟨rfl, rfl⟩
      · exact absurd ht' (hfresh y' j')
    · rcases hcases y' j' t ht' with ⟨_, _, he⟩ | ht'
      · rw [he] at hold
        exact absurd hold (hfresh y j)
      · exact h.unique y y' t j j' hold ht'

theorem walk_grow {t : ν} (hx : child x i = none) (hp : walk child y p = some t) :
    walk (grow child x i z) y p = some t := by
  induction p generalizing y with
  | nil => exact hp
  | cons j p ih =>
    rw [walk] at hp ⊢
    obtain ⟨y', hy', hp⟩ := bind_eq_some_iff.mp hp
    have hyj : ¬(y = x ∧ j = i) := by
      rintro ⟨rfl, rfl⟩
      rw [hx] at hy'
      cases hy'
    rw [grow_of_ne hyj, hy']
    exact ih hp

theorem lookup_grow (hz : ∀ j, child z j = none) (hx : child x i = none) (hne : z ≠ x)
    (hvalue : value z = none) : lookup (grow child x i z) value y p = lookup child value y p := by
  induction p generalizing y with
  | nil => rfl
  | cons j p ih =>
    rw [lookup, lookup, walk, walk]
    by_cases hyj : y = x ∧ j = i
    · obtain ⟨rfl, rfl⟩ := hyj
      rw [grow_self, hx, bind_some, bind_none, bind_none]
      cases p with
      | nil => exact hvalue
      | cons k p =>
        rw [walk, grow_of_ne fun he => hne he.1, hz]
        rfl
    · rw [grow_of_ne hyj]
      cases child y j with
      | none => rfl
      | some t => exact ih

end Edit

end MuggleC.Foundation.Paths
