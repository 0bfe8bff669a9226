/- digest: Doubly linked chains of nodes, their walks, and the insertion and removal of a node. -/

import Mathlib.Data.List.Chain
import Mathlib.Data.List.Nodup
import Mathlib.Data.List.ReduceOption

/-! A pointer is a node or `none`. A chain is a list of pointers, so that one statement covers chains
that end at a node and chains that end at a null pointer. -/

namespace MuggleC.Foundation.DoublyLinked

open Function List

universe u

variable {ν : Type u}

/-- Neighbours point to each other, as far as they are nodes. -/
def Adjacent (next prev : ν → Option ν) (x y : Option ν) : Prop :=
  (∀ a, x = some a → next a = y) ∧ ∀ b, y = some b → prev b = x

def Linked (next prev : ν → Option ν) (c : List (Option ν)) : Prop :=
  c.IsChain (Adjacent next prev)

variable {next prev next' prev' : ν → Option ν} {c : List (Option ν)}

theorem Linked.congr (h : Linked next prev c) (hnext : ∀ a, some a ∈ c.dropLast → next' a = next a)
    (hprev : ∀ b, some b ∈ c.tail → prev' b = prev b) : Linked next' prev' c := by
  induction c with
  | nil => exact isChain_nil
  | cons x c ih =>
    cases c with
    | nil => exact isChain_singleton x
    | cons y c =>
      obtain ⟨hxy, hc⟩ := isChain_cons_cons.mp h
      refine isChain_cons_cons.mpr ⟨⟨?_, ?_⟩, ?_⟩
      · intro a ha
        rw [hnext a (by rw [ha]; exact mem_cons_self), hxy.1 a ha]
      · intro b hb
        rw [hprev b (by rw [hb]; exact mem_cons_self), hxy.2 b hb]
      · refine ih hc ?_ ?_
        · intro a ha
          exact hnext a (mem_cons_of_mem x ha)
        · intro b hb
          exact hprev b (mem_cons_of_mem y hb)

theorem Linked.reverse (h : Linked next prev c) :
    Linked prev next c.reverse :=
  isChain_reverse.mpr (List.IsChain.imp (fun _ _ hxy => ⟨hxy.2, hxy.1⟩) h)

theorem Linked.head?_eq {a : ν} (h : Linked next prev (some a :: c))
    (hc : c ≠ []) : c.head? = some (next a) := by
  obtain ⟨y, c, rfl⟩ := exists_cons_of_ne_nil hc
  rw [(isChain_cons_cons.mp h).1.1 a rfl]
  rfl

theorem linked_split {pre post : List (Option ν)} {x y : Option ν} :
    Linked next prev (pre ++ x :: y :: post) ↔
      Linked next prev (pre ++ [x]) ∧ Adjacent next prev x y ∧ Linked next prev (y :: post) := by
  rw [Linked, isChain_split, isChain_cons_cons]
  rfl

theorem nodup_split {α : Type u} {pre post : List α} {x y : α}
    (h : (pre ++ x :: y :: post).Nodup) : x ∉ pre ∧ y ∉ pre ++ [x] ∧ x ∉ y :: post ∧ y ∉ post := by
  have h' : ((pre ++ [x]) ++ y :: post).Nodup := by rwa [append_assoc]
  obtain ⟨hpre, hpost, hdisj⟩ := nodup_append.mp h'
  have hx : x ∈ pre ++ [x] := mem_append_right _ mem_cons_self
  refine ⟨?_, ?_, ?_, (nodup_cons.mp hpost).1⟩
  · intro hmem
    exact (nodup_append.mp hpre).2.2 x hmem x mem_cons_self rfl
  · intro hmem
    exact hdisj y hmem y mem_cons_self rfl
  · intro hmem
    exact hdisj x hx x hmem rfl

theorem ne_of_once {pre post : List (Option ν)} {x : Option ν} {a : ν}
    (h : (pre ++ x :: post).reduceOption.Nodup) (ha : some a ∈ pre ++ post) : some a ≠ x := by
  rintro rfl
  have hperm : (pre ++ some a :: post).reduceOption.Perm (a :: (pre ++ post).reduceOption) :=
    perm_middle.filterMap id
  exact (nodup_cons.mp (hperm.nodup_iff.mp h)).1 (reduceOption_mem_iff.mpr ha)

theorem once_of_nodup (h : c.Nodup) : c.reduceOption.Nodup := by
  apply Nodup.filterMap _ h
  intro x y a hx hy
  exact hx.trans hy.symm

section Edit

variable [DecidableEq ν]

def point (field : ν → Option ν) : Option ν → Option ν → ν → Option ν
  | none, _ => field
  | some a, p => Function.update field a p

variable {field : ν → Option ν} {p : Option ν}

theorem point_self {x : Option ν} {a : ν} (h : x = some a) : point field x p a = p := by
  rw [h, point, update_self]

theorem point_of_ne {x : Option ν} {a : ν} (h : some a ≠ x) : point field x p a = field a := by
  cases x with
  | none => rfl
  | some b => exact update_of_ne (fun he => h (congrArg some he)) _ _

variable {pre post : List (Option ν)} {x y : Option ν} {n : ν}

theorem Linked.insert (h : Linked next prev (pre ++ x :: y :: post))
    (hd : (pre ++ x :: y :: post).reduceOption.Nodup) (hn : some n ∉ pre ++ x :: y :: post) :
    Linked (point (update next n y) x (some n)) (point (update prev n x) y (some n))
      (pre ++ x :: some n :: y :: post) := by
  obtain ⟨hpre, hxy, hpost⟩ := linked_split.mp h
  have hassoc : pre ++ x :: y :: post = (pre ++ [x]) ++ y :: post := by simp
  have hx : ∀ a, some a ∈ pre ++ y :: post → some a ≠ x := fun a => ne_of_once hd
  have hy : ∀ a, some a ∈ (pre ++ [x]) ++ post → some a ≠ y := fun a => ne_of_once (hassoc ▸ hd)
  have hne : ∀ a, some a ∈ (pre ++ [x]) ++ y :: post → a ≠ n := fun a ha he =>
    hn (hassoc ▸ he ▸ ha)
  have hnx : some n ≠ x := fun he => hn (by simp [he])
  have hny : some n ≠ y := fun he => hn (by simp [he])
  refine linked_split.mpr ⟨hpre.congr ?_ ?_, ⟨?_, ?_⟩, isChain_cons_cons.mpr
    ⟨⟨?_, ?_⟩, Linked.congr hpost ?_ ?_⟩⟩
  · intro a ha
    rw [dropLast_concat] at ha
    rw [point_of_ne (hx a (mem_append_left _ ha)),
      update_of_ne (hne a (mem_append_left _ (mem_append_left _ ha)))]
  · intro b hb
    have hmem := mem_of_mem_tail hb
    rw [point_of_ne (hy b (mem_append_left _ hmem)), update_of_ne (hne b (mem_append_left _ hmem))]
  · intro a ha
    exact point_self ha
  · intro b hb
    rw [← Option.some.inj hb, point_of_ne hny, update_self]
  · intro a ha
    rw [← Option.some.inj ha, point_of_ne hnx, update_self]
  · intro b hb
    exact point_self hb
  · intro a ha
    have hmem := (dropLast_sublist _).subset ha
    rw [point_of_ne (hx a (mem_append_right _ hmem)), update_of_ne (hne a (mem_append_right _ hmem))]
  · intro b hb
    rw [point_of_ne (hy b (mem_append_right _ hb)),
      update_of_ne (hne b (mem_append_right _ (mem_cons_of_mem y hb)))]

theorem Linked.remove (h : Linked next prev (pre ++ x :: some n :: y :: post))
    (hd : (pre ++ x :: y :: post).reduceOption.Nodup) :
    Linked (point next x y) (point prev y x) (pre ++ x :: y :: post) := by
  obtain ⟨hpre, _, hrest⟩ := linked_split.mp h
  obtain ⟨_, hpost⟩ := isChain_cons_cons.mp hrest
  have hassoc : pre ++ x :: y :: post = (pre ++ [x]) ++ y :: post := by simp
  have hx : ∀ a, some a ∈ pre ++ y :: post → some a ≠ x := fun a => ne_of_once hd
  have hy : ∀ a, some a ∈ (pre ++ [x]) ++ post → some a ≠ y := fun a => ne_of_once (hassoc ▸ hd)
  refine linked_split.mpr ⟨hpre.congr ?_ ?_, ⟨?_, ?_⟩, Linked.congr hpost ?_ ?_⟩
  · intro a ha
    rw [dropLast_concat] at ha
    exact point_of_ne (hx a (mem_append_left _ ha))
  · intro b hb
    exact point_of_ne (hy b (mem_append_left _ (mem_of_mem_tail hb)))
  · intro a ha
    exact point_self ha
  · intro b hb
    exact point_self hb
  · intro a ha
    exact point_of_ne (hx a (mem_append_right _ ((dropLast_sublist _).subset ha)))
  · intro b hb
    exact point_of_ne (hy b (mem_append_right _ hb))

theorem Linked.outside (h : Linked next prev c) (hn : some n ∉ c) (p q : Option ν) :
    Linked (update next n p) (update prev n q) c := by
  apply h.congr
  · rintro a ha
    exact update_of_ne (by rintro rfl; exact hn ((dropLast_sublist _).subset ha)) _ _
  · rintro b hb
    exact update_of_ne (by rintro rfl; exact hn (mem_of_mem_tail hb)) _ _

theorem Linked.remove_update (h : Linked next prev (pre ++ x :: some n :: y :: post))
    (hd : (pre ++ x :: some n :: y :: post).reduceOption.Nodup) (p q : Option ν) :
    Linked (update (point next x y) n p) (update (point prev y x) n q) (pre ++ x :: y :: post) := by
  have hassoc : pre ++ x :: some n :: y :: post = (pre ++ [x]) ++ some n :: y :: post := by simp
  have hn : some n ∉ pre ++ x :: y :: post := fun hmem =>
    ne_of_once (hassoc ▸ hd) (by simpa using hmem) rfl
  refine (h.remove (hd.sublist (Sublist.filterMap id ?_))).outside hn p q
  exact ((sublist_cons_self _ _).cons_cons x).append_left pre

/-- The nodes met from a pointer on along `next`, up to a given pointer; `none` if it is not reached
in the given number of steps. -/
def follow (next : ν → Option ν) (stop : Option ν) : Nat → Option ν → Option (List ν)
  | 0, _ => none
  | fuel + 1, p =>
    if p = stop then some []
    else
      match p with
      | none => none
      | some a => (follow next stop fuel (next a)).map (a :: ·)

theorem Linked.follow {stop : Option ν} {nodes : List ν} {fuel : Nat}
    (h : Linked next prev (nodes.map some ++ [stop])) (hstop : stop ∉ nodes.map some)
    (hp : (nodes.map some ++ [stop]).head? = some p) (hfuel : nodes.length < fuel) :
    follow next stop fuel p = some nodes := by
  induction nodes generalizing fuel p with
  | nil =>
    cases hp
    cases fuel with
    | zero => cases hfuel
    | succ fuel => exact if_pos rfl
  | cons a nodes ih =>
    cases hp
    have hne : some a ≠ stop := fun he => hstop (he ▸ mem_cons_self)
    cases fuel with
    | zero => cases hfuel
    | succ fuel =>
      have hrest : ∃ q, (nodes.map some ++ [stop]).head? = some q ∧ next a = q := by
        cases nodes with
        | nil => exact ⟨stop, rfl, (isChain_cons_cons.mp h).1.1 a rfl⟩
        | cons b nodes => exact ⟨some b, rfl, (isChain_cons_cons.mp h).1.1 a rfl⟩
      obtain ⟨q, hq, hnext⟩ := hrest
      have htail : Linked next prev (nodes.map some ++ [stop]) := List.IsChain.tail h
      rw [DoublyLinked.follow, if_neg hne]
      rw [hnext, ih htail (fun hm => hstop (mem_cons_of_mem _ hm)) hq
        (Nat.lt_of_succ_lt_succ hfuel)]
      rfl

end Edit

end MuggleC.Foundation.DoublyLinked
