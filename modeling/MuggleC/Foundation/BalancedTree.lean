/- digest: Trees with stored balance factors, a tree with a hole, and the way up after a change. -/

import Mathlib.Data.List.Basic
import Mathlib.Tactic.Ring

/-! Left and right are treated alike: `join d x b inner outer` has `outer` as its child on side `d`.
A tree with a hole is a list of frames, the innermost one first. -/

namespace MuggleC.Foundation.BalancedTree

open List

inductive Side
  | left
  | right
  deriving DecidableEq, Repr

namespace Side

def other : Side → Side
  | .left => .right
  | .right => .left

/-- What one more level on this side adds to a balance factor. -/
def sign : Side → Int
  | .left => -1
  | .right => 1

theorem sign_other (d : Side) : d.other.sign = -d.sign := by
  cases d with
  | left => rfl
  | right => rfl

end Side

inductive BinTree (α : Type)
  | leaf
  | node (left : BinTree α) (label : α) (balance : Int) (right : BinTree α)

variable {α : Type}

def join (d : Side) (x : α) (b : Int) (inner outer : BinTree α) : BinTree α :=
  match d with
  | .left => .node outer x b inner
  | .right => .node inner x b outer

namespace BinTree

def height : BinTree α → Nat
  | .leaf => 0
  | .node l _ _ r => 1 + max l.height r.height

def inorder : BinTree α → List α
  | .leaf => []
  | .node l x _ r => l.inorder ++ x :: r.inorder

/-- Every stored factor is the height of the right subtree minus that of the left one, and at most
one away from zero. -/
def Balanced : BinTree α → Prop
  | .leaf => True
  | .node l _ b r => b = r.height - l.height ∧ -1 ≤ b ∧ b ≤ 1 ∧ l.Balanced ∧ r.Balanced

def rootBalance : BinTree α → Int
  | .leaf => 0
  | .node _ _ b _ => b

/-- The parts of a tree as seen from one side. -/
def split (d : Side) : BinTree α → Option (α × Int × BinTree α × BinTree α)
  | .leaf => none
  | .node l x b r =>
    match d with
    | .left => some (x, b, r, l)
    | .right => some (x, b, l, r)

end BinTree

theorem BinTree.height_le_length (t : BinTree α) : t.height ≤ t.inorder.length := by
  induction t with
  | leaf => exact Nat.le_refl 0
  | node l x b r ihl ihr =>
    rw [height, inorder, length_append, length_cons]
    omega

theorem join_other (d : Side) (x : α) (b : Int) (inner outer : BinTree α) :
    join d.other x b inner outer = join d x b outer inner := by
  cases d with
  | left => rfl
  | right => rfl

theorem split_join (d : Side) (x : α) (b : Int) (inner outer : BinTree α) :
    (join d x b inner outer).split d = some (x, b, inner, outer) := by
  cases d with
  | left => rfl
  | right => rfl

variable {d : Side} {t inner outer : BinTree α} {x : α} {b : Int}

theorem eq_join_of_split
    (h : t.split d = some (x, b, inner, outer)) : t = join d x b inner outer := by
  cases t with
  | leaf => cases h
  | node l y c r =>
    cases d with
    | left =>
      cases h
      rfl
    | right =>
      cases h
      rfl

theorem exists_join (d : Side) (h : 0 < t.height) :
    ∃ x b inner outer, t = join d x b inner outer := by
  cases t with
  | leaf => cases h
  | node l x b r =>
    cases d with
    | left => exact ⟨x, b, r, l, rfl⟩
    | right => exact ⟨x, b, l, r, rfl⟩

theorem height_join (d : Side) (x : α) (b : Int) (inner outer : BinTree α) :
    (join d x b inner outer).height = 1 + max inner.height outer.height := by
  cases d with
  | left => exact congrArg (1 + ·) (Nat.max_comm _ _)
  | right => rfl

theorem rootBalance_join (d : Side) (x : α) (b : Int) (inner outer : BinTree α) :
    (join d x b inner outer).rootBalance = b := by
  cases d with
  | left => rfl
  | right => rfl

theorem balanced_join : (join d x b inner outer).Balanced ↔
      b = d.sign * ((outer.height : Int) - inner.height) ∧
        -1 ≤ (outer.height : Int) - inner.height ∧ (outer.height : Int) - inner.height ≤ 1 ∧
        inner.Balanced ∧ outer.Balanced := by
  cases d with
  | left =>
    constructor
    · rintro ⟨h, hlo, hhi, ho, hi⟩
      rw [Side.sign]
      exact ⟨by omega, by omega, by omega, hi, ho⟩
    · rintro ⟨h, hlo, hhi, hi, ho⟩
      rw [Side.sign] at h
      exact ⟨by omega, by omega, by omega, ho, hi⟩
  | right =>
    constructor
    · rintro ⟨h, hlo, hhi, hi, ho⟩
      rw [Side.sign]
      exact ⟨by omega, by omega, by omega, hi, ho⟩
    · rintro ⟨h, hlo, hhi, hi, ho⟩
      rw [Side.sign] at h
      exact ⟨by omega, by omega, by omega, hi, ho⟩

/-- One rotation at `x`, whose outer subtree has root `z`; the flag tells whether the height goes
down. -/
def rotateOnce (d : Side) (x : α) (t₁ : BinTree α) (z : α) (bz : Int) (t₂₃ t₄ : BinTree α) :
    BinTree α × Bool :=
  if bz = 0 then (join d z (-d.sign) (join d x d.sign t₁ t₂₃) t₄, false)
  else (join d z 0 (join d x 0 t₁ t₂₃) t₄, true)

/-- Two rotations that bring `y`, the inner grandchild, to the top. -/
def rotateTwice (d : Side) (x : α) (t₁ : BinTree α) (z y : α) (byy : Int) (t₂ t₃ t₄ : BinTree α) :
    BinTree α :=
  if 0 < d.sign * byy then join d y 0 (join d x (-d.sign) t₁ t₂) (join d z 0 t₃ t₄)
  else if byy = 0 then join d y 0 (join d x 0 t₁ t₂) (join d z 0 t₃ t₄)
  else join d y 0 (join d x 0 t₁ t₂) (join d z d.sign t₃ t₄)

def rebalanceOn (d : Side) (x : α) (b : Int) (t₁ outer : BinTree α) : BinTree α × Bool :=
  match outer.split d with
  | none => (join d x b t₁ outer, false)
  | some (z, bz, t₂₃, t₄) =>
    if 0 ≤ d.sign * bz then rotateOnce d x t₁ z bz t₂₃ t₄
    else
      match t₂₃.split d with
      | none => (join d x b t₁ outer, false)
      | some (y, byy, t₂, t₃) => (rotateTwice d x t₁ z y byy t₂ t₃ t₄, true)

def rebalance : BinTree α → BinTree α × Bool
  | .leaf => (.leaf, false)
  | .node l x b r =>
    if b < -1 then rebalanceOn .left x b r l
    else if 1 < b then rebalanceOn .right x b l r
    else (.node l x b r, false)

theorem rebalance_join (d : Side) (x : α) (t₁ outer : BinTree α) :
    rebalance (join d x (2 * d.sign) t₁ outer) = rebalanceOn d x (2 * d.sign) t₁ outer := by
  cases d with
  | left => rfl
  | right => rfl

variable {bz : Int}

theorem rebalanceOn_once (d : Side) (x : α) (b : Int) (t₁ : BinTree α) (z : α)
    (t₂₃ t₄ : BinTree α) (hz : 0 ≤ d.sign * bz) :
    rebalanceOn d x b t₁ (join d z bz t₂₃ t₄) = rotateOnce d x t₁ z bz t₂₃ t₄ := by
  simp only [rebalanceOn, split_join, if_pos hz]

theorem rebalanceOn_twice (d : Side) (x : α) (b : Int) (t₁ : BinTree α) (z : α) (y : α)
    (byy : Int) (t₂ t₃ t₄ : BinTree α) (hz : ¬ 0 ≤ d.sign * bz) :
    rebalanceOn d x b t₁ (join d z bz (join d y byy t₂ t₃) t₄) =
      (rotateTwice d x t₁ z y byy t₂ t₃ t₄, true) := by
  simp only [rebalanceOn, split_join, if_neg hz]

theorem Side.sign_mul_self (d : Side) : d.sign * d.sign = 1 := by
  cases d with
  | left => rfl
  | right => rfl

theorem Side.sign_mul_sign_mul (d : Side) (k : Int) : d.sign * (d.sign * k) = k := by
  rw [← Int.mul_assoc, d.sign_mul_self, Int.one_mul]

theorem Side.sign_mul_eq_zero (d : Side) (k : Int) : d.sign * k = 0 ↔ k = 0 := by
  cases d with
  | left | right => rw [Side.sign]; omega

theorem Side.sign_mul_eq_unit (d : Side) (k : Int) :
    (d.sign * k = 1 ∨ d.sign * k = -1) ↔ (k = 1 ∨ k = -1) := by
  cases d with
  | left | right => rw [Side.sign]; omega

variable {t₁ : BinTree α}

theorem ahead_cases (ho : outer.Balanced) (hh : outer.height = t₁.height + 2) :
    (∃ z bz t₂₃ t₄, outer = join d z bz t₂₃ t₄ ∧ 0 ≤ d.sign * bz) ∨
      ∃ z y byy t₂ t₃ t₄, outer = join d z (-d.sign) (join d y byy t₂ t₃) t₄ := by
  obtain ⟨z, bz, t₂₃, t₄, rfl⟩ := exists_join d (show 0 < outer.height by omega)
  obtain ⟨hbz, hlo, hhi, _, _⟩ := balanced_join.mp ho
  rcases lt_or_ge (d.sign * bz) 0 with hneg | hpos
  · right
    rw [hbz, d.sign_mul_sign_mul] at hneg
    have hpos : 0 < t₂₃.height := by omega
    obtain ⟨y, byy, t₂, t₃, rfl⟩ := exists_join d hpos
    have hlead : (t₄.height : Int) - (join d y byy t₂ t₃).height = -1 := by omega
    rw [hlead, Int.mul_neg_one] at hbz
    exact ⟨z, y, byy, t₂, t₃, t₄, by rw [hbz]⟩
  · exact .inl ⟨z, bz, t₂₃, t₄, rfl, hpos⟩

theorem balanced_of_lead (k : Int)
    (hb : b = d.sign * k) (hk : (outer.height : Int) - inner.height = k) (hlo : -1 ≤ k)
    (hhi : k ≤ 1)
    (hi : inner.Balanced) (ho : outer.Balanced) : (join d x b inner outer).Balanced :=
  balanced_join.mpr ⟨by rw [hk, hb], by omega, by omega, hi, ho⟩

/-- What a repair does to the height: the flag tells whether it goes down. -/
def Repaired (t₁ : BinTree α) (out : BinTree α × Bool) : Prop :=
  out.1.Balanced ∧ out.1.height = t₁.height + if out.2 then 2 else 3

theorem rotateOnce_repaired {z : α} {t₂₃ t₄ : BinTree α} (h₁ : t₁.Balanced)
    (ho : (join d z bz t₂₃ t₄).Balanced) (hh : (join d z bz t₂₃ t₄).height = t₁.height + 2)
    (hz : 0 ≤ d.sign * bz) : Repaired t₁ (rotateOnce d x t₁ z bz t₂₃ t₄) := by
  obtain ⟨hbz, hlo, hhi, h₂₃, h₄⟩ := balanced_join.mp ho
  rw [height_join] at hh
  rw [hbz, d.sign_mul_sign_mul] at hz
  rw [rotateOnce]
  split
  · next hzero =>
    rw [hbz, d.sign_mul_eq_zero] at hzero
    have hx : (join d x d.sign t₁ t₂₃).Balanced :=
      balanced_of_lead 1 (Int.mul_one _).symm (by omega) (by omega) (by omega) h₁ h₂₃
    refine ⟨balanced_of_lead (-1) (Int.mul_neg_one _).symm ?_ (by omega) (by omega) hx h₄, ?_⟩
    · rw [height_join]
      omega
    · simp only [height_join, Bool.false_eq_true, if_false]
      omega
  · next hne =>
    rw [hbz, d.sign_mul_eq_zero] at hne
    have hx : (join d x 0 t₁ t₂₃).Balanced :=
      balanced_of_lead 0 (Int.mul_zero _).symm (by omega) (by omega) (by omega) h₁ h₂₃
    refine ⟨balanced_of_lead 0 (Int.mul_zero _).symm ?_ (by omega) (by omega) hx h₄, ?_⟩
    · rw [height_join]
      omega
    · simp only [height_join, if_true]
      omega

theorem top_repaired {y : α} {l r : BinTree α} (hl : l.Balanced) (hr : r.Balanced)
    (hlh : l.height = t₁.height + 1) (hrh : r.height = t₁.height + 1) :
    Repaired t₁ (join d y 0 l r, true) := by
  refine ⟨balanced_of_lead 0 (Int.mul_zero _).symm (by omega) (by omega) (by omega) hl hr, ?_⟩
  simp only [height_join, if_true]
  omega

theorem rotateTwice_repaired {z y : α} {byy : Int} {t₂ t₃ t₄ : BinTree α}
    (h₁ : t₁.Balanced) (ho : (join d z (-d.sign) (join d y byy t₂ t₃) t₄).Balanced)
    (hh : (join d z (-d.sign) (join d y byy t₂ t₃) t₄).height = t₁.height + 2) :
    Repaired t₁ (rotateTwice d x t₁ z y byy t₂ t₃ t₄, true) := by
  obtain ⟨hbz, _, _, hy, h₄⟩ := balanced_join.mp ho
  obtain ⟨hby, hlo, hhi, h₂, h₃⟩ := balanced_join.mp hy
  have hlead : (t₄.height : Int) - (join d y byy t₂ t₃).height = -1 := by
    have hmul := congrArg (d.sign * ·) hbz
    simp only [d.sign_mul_sign_mul, Int.mul_neg, d.sign_mul_self] at hmul
    exact hmul.symm
  rw [height_join] at hh hlead
  rw [height_join] at hh
  have hx : ∀ b k, b = d.sign * k → -1 ≤ k → k ≤ 0 → (t₂.height : Int) - t₁.height = k →
      (join d x b t₁ t₂).Balanced ∧ (join d x b t₁ t₂).height = t₁.height + 1 := by
    intro b k hb hlo hhi hk
    refine ⟨balanced_of_lead k hb hk (by omega) (by omega) h₁ h₂, ?_⟩
    rw [height_join]
    omega
  have hz : ∀ b k, b = d.sign * k → 0 ≤ k → k ≤ 1 → (t₄.height : Int) - t₃.height = k →
      (join d z b t₃ t₄).Balanced ∧ (join d z b t₃ t₄).height = t₁.height + 1 := by
    intro b k hb hlo hhi hk
    refine ⟨balanced_of_lead k hb hk (by omega) (by omega) h₃ h₄, ?_⟩
    rw [height_join]
    omega
  have hx₀ := hx 0 0 (Int.mul_zero _).symm (by omega) (by omega)
  have hz₀ := hz 0 0 (Int.mul_zero _).symm (by omega) (by omega)
  rw [rotateTwice]
  split
  · next hout =>
    rw [hby, d.sign_mul_sign_mul] at hout
    obtain ⟨hxb, hxh⟩ := hx _ (-1) (Int.mul_neg_one _).symm (by omega) (by omega) (by omega)
    obtain ⟨hzb, hzh⟩ := hz₀ (by omega)
    exact top_repaired hxb hzb hxh hzh
  · next hout =>
    rw [hby, d.sign_mul_sign_mul] at hout
    split
    · next hzero =>
      rw [hby, d.sign_mul_eq_zero] at hzero
      obtain ⟨hxb, hxh⟩ := hx₀ (by omega)
      obtain ⟨hzb, hzh⟩ := hz₀ (by omega)
      exact top_repaired hxb hzb hxh hzh
    · next hne =>
      rw [hby, d.sign_mul_eq_zero] at hne
      obtain ⟨hxb, hxh⟩ := hx₀ (by omega)
      obtain ⟨hzb, hzh⟩ := hz _ 1 (Int.mul_one _).symm (by omega) (by omega) (by omega)
      exact top_repaired hxb hzb hxh hzh

theorem rebalanceOn_repaired (h₁ : t₁.Balanced) (ho : outer.Balanced)
    (hh : outer.height = t₁.height + 2) : Repaired t₁ (rebalanceOn d x b t₁ outer) ∧
      (outer.rootBalance ≠ 0 → (rebalanceOn d x b t₁ outer).2 = true) := by
  rcases ahead_cases (d := d) ho hh with ⟨z, bz, t₂₃, t₄, rfl, hz⟩ | ⟨z, y, byy, t₂, t₃, t₄, rfl⟩
  · rw [rebalanceOn_once d x b t₁ z t₂₃ t₄ hz]
    refine ⟨rotateOnce_repaired h₁ ho hh hz, ?_⟩
    intro hne
    rw [rootBalance_join] at hne
    rw [rotateOnce, if_neg hne]
  · have hz : ¬ 0 ≤ d.sign * (-d.sign) := by
      rw [Int.mul_neg, d.sign_mul_self]
      omega
    rw [rebalanceOn_twice d x b t₁ z y byy t₂ t₃ t₄ hz]
    exact ⟨rotateTwice_repaired h₁ ho hh, fun _ => rfl⟩

/-- A node whose child on one side is the hole. -/
structure Frame (α : Type) where
  side : Side
  label : α
  balance : Int
  sibling : BinTree α

namespace Frame

def close (f : Frame α) (b : Int) (t : BinTree α) : BinTree α := join f.side f.label b f.sibling t

/-- What stands before and after the hole. -/
def before (f : Frame α) : List α :=
  match f.side with
  | .left => []
  | .right => f.sibling.inorder ++ [f.label]

def after (f : Frame α) : List α :=
  match f.side with
  | .left => f.label :: f.sibling.inorder
  | .right => []

theorem inorder_close (f : Frame α) (b : Int) (t : BinTree α) :
    (f.close b t).inorder = f.before ++ t.inorder ++ f.after := by
  cases f with
  | mk side label balance sibling =>
    cases side with
    | left => rfl
    | right => simp [close, join, before, after, BinTree.inorder]

end Frame

def plug : List (Frame α) → BinTree α → BinTree α
  | [], t => t
  | f :: fs, t => plug fs (f.close f.balance t)

def before : List (Frame α) → List α
  | [] => []
  | f :: fs => before fs ++ f.before

def after : List (Frame α) → List α
  | [] => []
  | f :: fs => f.after ++ after fs

theorem inorder_plug (ctx : List (Frame α)) (t : BinTree α) :
    (plug ctx t).inorder = before ctx ++ t.inorder ++ after ctx := by
  induction ctx generalizing t with
  | nil => exact (append_nil _).symm
  | cons f fs ih =>
    rw [plug, ih, Frame.inorder_close, before, after]
    simp only [append_assoc]

theorem plug_append (path ctx : List (Frame α)) (t : BinTree α) :
    plug (path ++ ctx) t = plug ctx (plug path t) := by
  induction path generalizing t with
  | nil => rfl
  | cons f fs ih => exact ih _

theorem before_append (path ctx : List (Frame α)) :
    before (path ++ ctx) = before ctx ++ before path := by
  induction path with
  | nil => exact (append_nil _).symm
  | cons f fs ih => rw [cons_append, before, before, ih, append_assoc]

theorem after_append (path ctx : List (Frame α)) :
    after (path ++ ctx) = after path ++ after ctx := by
  induction path with
  | nil => rfl
  | cons f fs ih => rw [cons_append, after, after, ih, append_assoc]

theorem exists_focus (hx : x ∈ t.inorder) : ∃ ctx l b r, t = plug ctx (.node l x b r) := by
  induction t with
  | leaf => cases hx
  | node l y b r ihl ihr =>
    rw [BinTree.inorder, mem_append, mem_cons] at hx
    rcases hx with hx | rfl | hx
    · obtain ⟨ctx, l', c, r', rfl⟩ := ihl hx
      refine ⟨ctx ++ [⟨.left, y, b, r⟩], l', c, r', ?_⟩
      rw [plug_append]
      rfl
    · exact ⟨[], l, b, r, rfl⟩
    · obtain ⟨ctx, l', c, r', rfl⟩ := ihr hx
      refine ⟨ctx ++ [⟨.right, y, b, l⟩], l', c, r', ?_⟩
      rw [plug_append]
      rfl

theorem height_le_plug (ctx : List (Frame α)) (t : BinTree α) : t.height ≤ (plug ctx t).height := by
  induction ctx generalizing t with
  | nil => exact Nat.le_refl _
  | cons f fs ih =>
    refine Nat.le_trans ?_ (ih _)
    rw [Frame.close, height_join]
    omega

/-- The labels of a tree without that of its root. -/
def below (d : Side) (inner outer : BinTree α) : List α :=
  match d with
  | .left => outer.inorder ++ inner.inorder
  | .right => inner.inorder ++ outer.inorder

theorem below_leaf (d : Side) (inner : BinTree α) : below d inner .leaf = inner.inorder := by
  cases d with
  | left => rfl
  | right => exact append_nil _

theorem join_eq_node (d : Side) (x : α) (b : Int) (inner outer : BinTree α) :
    ∃ l r, join d x b inner outer = .node l x b r ∧
      below d inner outer = l.inorder ++ r.inorder := by
  cases d with
  | left => exact ⟨outer, inner, rfl, rfl⟩
  | right => exact ⟨inner, outer, rfl, rfl⟩

def Spine (d : Side) (path : List (Frame α)) : Prop := ∀ f ∈ path, f.side = d

variable {path : List (Frame α)}

theorem Spine.after_eq_nil (h : Spine .right path) : after path = [] := by
  induction path with
  | nil => rfl
  | cons f fs ih =>
    rw [after, ih fun g hg => h g (mem_cons_of_mem f hg), Frame.after,
      h f mem_cons_self, append_nil]

theorem Spine.before_eq_nil (h : Spine .left path) : before path = [] := by
  induction path with
  | nil => rfl
  | cons f fs ih =>
    rw [before, ih fun g hg => h g (mem_cons_of_mem f hg), Frame.before,
      h f mem_cons_self, append_nil]

/-- The frames are balanced around a hole of the given height. -/
def Fits : List (Frame α) → Nat → Prop
  | [], _ => True
  | f :: fs, h => f.sibling.Balanced ∧ f.balance = f.side.sign * ((h : Int) - f.sibling.height) ∧
      -1 ≤ (h : Int) - f.sibling.height ∧ (h : Int) - f.sibling.height ≤ 1 ∧
      Fits fs (1 + max f.sibling.height h)

variable {ctx : List (Frame α)}

theorem balanced_plug : (plug ctx t).Balanced ↔ t.Balanced ∧ Fits ctx t.height := by
  induction ctx generalizing t with
  | nil => exact ⟨fun h => ⟨h, trivial⟩, And.left⟩
  | cons f fs ih =>
    rw [plug, ih, Frame.close, balanced_join, height_join, Fits]
    constructor
    · rintro ⟨⟨hb, hlo, hhi, hs, ht⟩, hfs⟩
      exact ⟨ht, hs, hb, hlo, hhi, hfs⟩
    · rintro ⟨ht, hs, hb, hlo, hhi, hfs⟩
      exact ⟨⟨hb, hlo, hhi, hs, ht⟩, hfs⟩

theorem balanced_plug_relabel {y : α} {i o : BinTree α} (h : (plug ctx (join d x b i o)).Balanced) :
    (plug ctx (join d y b i o)).Balanced := by
  rw [balanced_plug, balanced_join, height_join] at h ⊢
  exact h

theorem inorder_rotate (d : Side) (x z : α) (b bz b' bz' : Int) (t₁ t₂₃ t₄ : BinTree α) :
    (join d z bz' (join d x b' t₁ t₂₃) t₄).inorder =
      (join d x b t₁ (join d z bz t₂₃ t₄)).inorder := by
  cases d with
  | left | right => simp [join, BinTree.inorder]

theorem rotateOnce_inorder (d : Side) (x : α) (b : Int) (t₁ : BinTree α) (z : α) (bz : Int)
    (t₂₃ t₄ : BinTree α) :
    (rotateOnce d x t₁ z bz t₂₃ t₄).1.inorder = (join d x b t₁ (join d z bz t₂₃ t₄)).inorder := by
  rw [rotateOnce]
  split
  · exact inorder_rotate d x z b bz _ _ t₁ t₂₃ t₄
  · exact inorder_rotate d x z b bz _ _ t₁ t₂₃ t₄

theorem inorder_rotate_twice (d : Side) (x z y : α) (b bz byy b' bz' by' : Int)
    (t₁ t₂ t₃ t₄ : BinTree α) : (join d y by' (join d x b' t₁ t₂) (join d z bz' t₃ t₄)).inorder =
      (join d x b t₁ (join d z bz (join d y byy t₂ t₃) t₄)).inorder := by
  cases d with
  | left | right => simp [join, BinTree.inorder]

theorem rotateTwice_inorder (d : Side) (x : α) (b : Int) (t₁ : BinTree α) (z : α) (bz : Int) (y : α)
    (byy : Int) (t₂ t₃ t₄ : BinTree α) : (rotateTwice d x t₁ z y byy t₂ t₃ t₄).inorder =
      (join d x b t₁ (join d z bz (join d y byy t₂ t₃) t₄)).inorder := by
  rw [rotateTwice]
  split
  · exact inorder_rotate_twice d x z y b bz byy _ _ _ t₁ t₂ t₃ t₄
  · split
    · exact inorder_rotate_twice d x z y b bz byy _ _ _ t₁ t₂ t₃ t₄
    · exact inorder_rotate_twice d x z y b bz byy _ _ _ t₁ t₂ t₃ t₄

theorem rebalanceOn_inorder (d : Side) (x : α) (b : Int) (t₁ outer : BinTree α) :
    (rebalanceOn d x b t₁ outer).1.inorder = (join d x b t₁ outer).inorder := by
  rw [rebalanceOn]
  split
  · rfl
  · next z bz t₂₃ t₄ hz =>
    obtain rfl := eq_join_of_split hz
    split
    · exact rotateOnce_inorder d x b t₁ z bz t₂₃ t₄
    · split
      · rfl
      · next y byy t₂ t₃ hy =>
        obtain rfl := eq_join_of_split hy
        exact rotateTwice_inorder d x b t₁ z bz y byy t₂ t₃ t₄

theorem rebalance_inorder (t : BinTree α) : (rebalance t).1.inorder = t.inorder := by
  cases t with
  | leaf => rfl
  | node l x b r =>
    rw [rebalance]
    split
    · exact rebalanceOn_inorder .left x b r l
    · split
      · exact rebalanceOn_inorder .right x b l r
      · rfl

/-- The way up after the subtree in the hole has become one level higher. -/
def grow : List (Frame α) → BinTree α → BinTree α
  | [], t => t
  | f :: fs, t =>
    if f.balance + f.side.sign = 0 then plug fs (f.close (f.balance + f.side.sign) t)
    else if f.balance + f.side.sign = 1 ∨ f.balance + f.side.sign = -1 then
      grow fs (f.close (f.balance + f.side.sign) t)
    else plug fs (rebalance (f.close (f.balance + f.side.sign) t)).1

/-- The way up after the subtree in the hole has become one level lower. -/
def shrink : List (Frame α) → BinTree α → BinTree α
  | [], t => t
  | f :: fs, t =>
    if f.balance - f.side.sign = 1 ∨ f.balance - f.side.sign = -1 then
      plug fs (f.close (f.balance - f.side.sign) t)
    else if f.balance - f.side.sign = 0 then shrink fs (f.close (f.balance - f.side.sign) t)
    else if (rebalance (f.close (f.balance - f.side.sign) t)).2 then
      shrink fs (rebalance (f.close (f.balance - f.side.sign) t)).1
    else plug fs (rebalance (f.close (f.balance - f.side.sign) t)).1

theorem inorder_plug_close (f : Frame α) (fs : List (Frame α)) (b : Int) (t : BinTree α) :
    (plug fs (f.close b t)).inorder = (plug (f :: fs) t).inorder := by
  rw [plug, inorder_plug, inorder_plug, Frame.inorder_close, Frame.inorder_close]

theorem inorder_plug_rebalance (f : Frame α) (fs : List (Frame α)) (b : Int) (t : BinTree α) :
    (plug fs (rebalance (f.close b t)).1).inorder = (plug (f :: fs) t).inorder := by
  rw [inorder_plug, rebalance_inorder, ← inorder_plug, inorder_plug_close]

theorem grow_inorder (ctx : List (Frame α)) (t : BinTree α) :
    (grow ctx t).inorder = (plug ctx t).inorder := by
  induction ctx generalizing t with
  | nil => rfl
  | cons f fs ih =>
    rw [grow]
    split
    · exact inorder_plug_close f fs _ t
    · split
      · rw [ih]
        exact inorder_plug_close f fs _ t
      · exact inorder_plug_rebalance f fs _ t

theorem shrink_inorder (ctx : List (Frame α)) (t : BinTree α) :
    (shrink ctx t).inorder = (plug ctx t).inorder := by
  induction ctx generalizing t with
  | nil => rfl
  | cons f fs ih =>
    rw [shrink]
    split
    · exact inorder_plug_close f fs _ t
    · split
      · rw [ih]
        exact inorder_plug_close f fs _ t
      · split
        · rw [ih]
          exact inorder_plug_rebalance f fs _ t
        · exact inorder_plug_rebalance f fs _ t

/-- The hole fitted a tree one level lower than the balanced tree that is in it now. -/
def Grown (ctx : List (Frame α)) (t : BinTree α) : Prop :=
  ∃ h, Fits ctx h ∧ t.Balanced ∧ t.height = h + 1 ∧ (t.rootBalance ≠ 0 ∨ h = 0)

section Grown

variable {f : Frame α} {fs : List (Frame α)} {t : BinTree α} (hg : Grown (f :: fs) t)

include hg

theorem Grown.lead : f.balance + f.side.sign = f.side.sign * ((t.height : Int) - f.sibling.height) ∧
      0 ≤ (t.height : Int) - f.sibling.height ∧ (t.height : Int) - f.sibling.height ≤ 2 := by
  obtain ⟨h, ⟨_, hb, hlo, hhi, _⟩, _, hh, _⟩ := hg
  have hlead : (t.height : Int) - f.sibling.height = h - f.sibling.height + 1 := by omega
  refine ⟨?_, by omega, by omega⟩
  rw [hb, hlead]
  ring

theorem Grown.level (hb : f.balance + f.side.sign = 0) :
    (plug fs (f.close (f.balance + f.side.sign) t)).Balanced := by
  have hlead := hg.lead
  rw [hb, eq_comm, f.side.sign_mul_eq_zero] at hlead
  obtain ⟨h, ⟨hs, _, _, _, hfs⟩, ht, hh, _⟩ := hg
  rw [hb]
  refine balanced_plug.mpr ⟨?_, ?_⟩
  · exact balanced_of_lead 0 (Int.mul_zero _).symm hlead.1 (by omega) (by omega) hs ht
  · rw [Frame.close, height_join, show max f.sibling.height t.height = max f.sibling.height h by
      omega]
    exact hfs

theorem Grown.up (hb : f.balance + f.side.sign = 1 ∨ f.balance + f.side.sign = -1) :
    Grown fs (f.close (f.balance + f.side.sign) t) := by
  obtain ⟨hlead, hlo, hhi⟩ := hg.lead
  rw [hlead, f.side.sign_mul_eq_unit] at hb
  obtain ⟨h, ⟨hs, _, _, _, hfs⟩, ht, hh, _⟩ := hg
  refine ⟨_, hfs, ?_, ?_, .inl ?_⟩
  · exact balanced_join.mpr ⟨hlead, by omega, by omega, hs, ht⟩
  · rw [Frame.close, height_join]
    omega
  · rw [Frame.close, rootBalance_join, hlead, ne_eq, f.side.sign_mul_eq_zero]
    omega

variable (hzero : ¬ f.balance + f.side.sign = 0)
    (hunit : ¬ (f.balance + f.side.sign = 1 ∨ f.balance + f.side.sign = -1))

include hzero hunit

theorem Grown.ahead :
    f.balance + f.side.sign = 2 * f.side.sign ∧ t.Balanced ∧ t.height = f.sibling.height + 2 := by
  obtain ⟨hlead, hlo, hhi⟩ := hg.lead
  rw [hlead, f.side.sign_mul_eq_zero] at hzero
  rw [hlead, f.side.sign_mul_eq_unit] at hunit
  have htwo : (t.height : Int) - f.sibling.height = 2 := by omega
  obtain ⟨_, _, ht, _⟩ := hg
  refine ⟨?_, ht, by omega⟩
  rw [hlead, htwo, Int.mul_comm]

theorem Grown.repaired :
    (plug fs (rebalance (f.close (f.balance + f.side.sign) t)).1).Balanced := by
  obtain ⟨hb, ht, hh⟩ := hg.ahead hzero hunit
  obtain ⟨h, ⟨hs, _, _, _, hfs⟩, _, hh', hr⟩ := hg
  have hroot : t.rootBalance ≠ 0 := by
    rcases hr with hr | hr
    · exact hr
    · omega
  have hrep := rebalanceOn_repaired (d := f.side) (x := f.label) (b := 2 * f.side.sign) hs ht hh
  rw [Frame.close, hb, rebalance_join]
  refine balanced_plug.mpr ⟨hrep.1.1, ?_⟩
  rw [hrep.1.2, hrep.2 hroot, if_pos rfl]
  rw [show 1 + max f.sibling.height h = f.sibling.height + 2 by omega] at hfs
  exact hfs

omit hzero hunit

omit hg

theorem grow_balanced {ctx : List (Frame α)} {t : BinTree α} (hg : Grown ctx t) :
    (grow ctx t).Balanced := by
  induction ctx generalizing t with
  | nil =>
    obtain ⟨_, _, ht, _⟩ := hg
    exact ht
  | cons f fs ih =>
    rw [grow]
    split
    · next hzero => exact hg.level hzero
    · next hzero =>
      split
      · next hunit => exact ih (hg.up hunit)
      · next hunit => exact hg.repaired hzero hunit

end Grown

/-- The hole fitted a tree one level higher than the balanced tree that is in it now. -/
def Shrunk (ctx : List (Frame α)) (t : BinTree α) : Prop := t.Balanced ∧ Fits ctx (t.height + 1)

section Shrunk

variable {f : Frame α} {fs : List (Frame α)} {t : BinTree α} (hs : Shrunk (f :: fs) t)

include hs

theorem Shrunk.lead :
    f.balance - f.side.sign = f.side.sign * ((t.height : Int) - f.sibling.height) ∧
      -2 ≤ (t.height : Int) - f.sibling.height ∧ (t.height : Int) - f.sibling.height ≤ 0 := by
  obtain ⟨_, _, hb, hlo, hhi, _⟩ := hs
  refine ⟨?_, by omega, by omega⟩
  rw [hb, Int.natCast_add]
  ring

theorem Shrunk.level (hb : f.balance - f.side.sign = 1 ∨ f.balance - f.side.sign = -1) :
    (plug fs (f.close (f.balance - f.side.sign) t)).Balanced := by
  obtain ⟨hlead, hlo, hhi⟩ := hs.lead
  rw [hlead, f.side.sign_mul_eq_unit] at hb
  obtain ⟨ht, hs, _, _, _, hfs⟩ := hs
  refine balanced_plug.mpr ⟨balanced_join.mpr ⟨hlead, by omega, by omega, hs, ht⟩, ?_⟩
  rw [Frame.close, height_join]
  rw [show max f.sibling.height (t.height + 1) = max f.sibling.height t.height by omega] at hfs
  exact hfs

theorem Shrunk.up (hb : f.balance - f.side.sign = 0) :
    Shrunk fs (f.close (f.balance - f.side.sign) t) := by
  obtain ⟨hlead, hlo, hhi⟩ := hs.lead
  rw [hb, eq_comm, f.side.sign_mul_eq_zero] at hlead
  obtain ⟨ht, hs, _, _, _, hfs⟩ := hs
  rw [hb]
  refine ⟨balanced_of_lead 0 (Int.mul_zero _).symm hlead (by omega) (by omega) hs ht, ?_⟩
  rw [Frame.close, height_join]
  rw [show max f.sibling.height (t.height + 1) = max f.sibling.height t.height + 1 by omega] at hfs
  exact hfs

variable (hunit : ¬ (f.balance - f.side.sign = 1 ∨ f.balance - f.side.sign = -1))
    (hzero : ¬ f.balance - f.side.sign = 0)

include hunit hzero

theorem Shrunk.behind : f.balance - f.side.sign = 2 * f.side.other.sign ∧ f.sibling.Balanced ∧
      f.sibling.height = t.height + 2 := by
  obtain ⟨hlead, hlo, hhi⟩ := hs.lead
  rw [hlead, f.side.sign_mul_eq_zero] at hzero
  rw [hlead, f.side.sign_mul_eq_unit] at hunit
  have htwo : (t.height : Int) - f.sibling.height = -2 := by omega
  obtain ⟨_, hs, _⟩ := hs
  refine ⟨?_, hs, by omega⟩
  rw [hlead, htwo, Side.sign_other]
  ring

theorem Shrunk.repaired : let out := rebalance (f.close (f.balance - f.side.sign) t)
    (out.2 = true → Shrunk fs out.1) ∧ (¬ out.2 = true → (plug fs out.1).Balanced) := by
  obtain ⟨hb, hsib, hh⟩ := hs.behind hunit hzero
  obtain ⟨ht, _, _, _, _, hfs⟩ := hs
  have hrep := (rebalanceOn_repaired (d := f.side.other) (x := f.label)
    (b := 2 * f.side.other.sign) ht hsib hh).1
  rw [Frame.close, hb, ← join_other, rebalance_join]
  rw [show 1 + max f.sibling.height (t.height + 1) = t.height + 3 by omega] at hfs
  refine ⟨fun hdec => ⟨hrep.1, ?_⟩, fun hsame => balanced_plug.mpr ⟨hrep.1, ?_⟩⟩
  · rw [hrep.2, if_pos hdec]
    exact hfs
  · rw [hrep.2, if_neg hsame]
    exact hfs

omit hunit hzero

omit hs

theorem shrink_balanced {ctx : List (Frame α)} {t : BinTree α} (hs : Shrunk ctx t) :
    (shrink ctx t).Balanced := by
  induction ctx generalizing t with
  | nil => exact hs.1
  | cons f fs ih =>
    rw [shrink]
    split
    · next hunit => exact hs.level hunit
    · next hunit =>
      split
      · next hzero => exact ih (hs.up hzero)
      · next hzero =>
        obtain ⟨hdown, hsame⟩ := hs.repaired hunit hzero
        split
        · next hdec => exact ih (hdown hdec)
        · next hdec => exact hsame hdec

end Shrunk

end MuggleC.Foundation.BalancedTree
