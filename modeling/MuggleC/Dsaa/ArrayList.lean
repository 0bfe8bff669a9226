/- source: dsaa/array_list.c, dsaa/dsaa_utils.h
   digest: The list in an array that grows, with `int` indices, against a plain list. -/

import Mathlib.Data.List.ReduceOption
import MuggleC.Base.Utils
import MuggleC.Foundation.CellArray
import MuggleC.Foundation.Transition

set_option autoImplicit false

/-! The array is the list of the nodes that its memory has room for; `none` is a node that nothing
has been written to, and the data of a node is `none` for `NULL`. A function gets stuck when it
reads such a node, goes outside the array, or makes more turns than there are elements. -/

namespace MuggleC.Dsaa

open Base Foundation.CellArray

abbrev ArrayList.Nodes (α : Type) := List (Option (Option α))

structure ArrayList (α : Type) where
  nodes : ArrayList.Nodes α
  capacity : Nat
  size : Nat
  deriving DecidableEq, Repr

namespace ArrayList

variable {α : Type}

def nodeSize : Nat := 8

def mallocNodes (α : Type) (capacity : Nat) : Nodes α :=
  mallocCells (Option α) nodeSize capacity

def loadAt (nodes : Nodes α) (i : BitVec 32) : Option (Option α) :=
  if i.toInt < 0 then none else load nodes i.toNat

def storeAt (nodes : Nodes α) (i : BitVec 32) (data : Option α) : Option (Nodes α) :=
  if i.toInt < 0 then none else store nodes i.toNat data

/-- `muggle_array_list_get_index`; `-index` of the least `int` is that `int` again. -/
def getIndex (l : ArrayList α) (index : BitVec 32) : BitVec 32 :=
  if 0 ≤ index.toInt then
    if (index.signExtend 64).toNat ≥ l.size then -1#32 else index
  else if ((-index).signExtend 64).toNat > l.size then -1#32
  else (BitVec.ofNat 64 l.size - (-index).signExtend 64).setWidth 32

/-- `muggle_array_list_init`, where `mem` tells whether `malloc` gets memory. -/
def init (α : Type) (capacity : BitVec 64) (mem : Bool) : Option (ArrayList α) :=
  let capacity := if capacity.toNat = 0 then 8 else capacity.toNat
  if dsCapIsValid capacity = false ∨ mem = false then none
  else some ⟨mallocNodes α capacity, capacity, 0⟩

/-- The data that the loop of `clear` passes to `func_free`, from the first `n` nodes. -/
def freedNodes (nodes : Nodes α) : Nat → Option (List α)
  | 0 => some []
  | n + 1 => do
    let freed ← freedNodes nodes n
    let data ← load nodes n
    some (freed ++ data.toList)

/-- `muggle_array_list_clear`, with what was passed to `func_free` unless that is `NULL`. -/
def clear (l : ArrayList α) (funcFree : Bool) : Option (List α × ArrayList α) :=
  (if funcFree then freedNodes l.nodes l.size else some []).map fun freed =>
    (freed, { l with size := 0 })

/-- `muggle_array_list_destroy`, which leaves no list. -/
def destroy (l : ArrayList α) (funcFree : Bool) : Option (List α) := (l.clear funcFree).map Prod.fst

def copyNodes (nodes : Nodes α) : Nat → Nodes α → Option (Nodes α) :=
  copyCells (fun i => (load nodes i).map some) 0

def ensureCapacity (l : ArrayList α) (capacity : Nat) (mem : Bool) : Option (Bool × ArrayList α) :=
  if l.capacity ≥ capacity then some (true, l)
  else if dsCapIsValid capacity = false ∨ mem = false then some (false, l)
  else do
    let newNodes ← copyNodes l.nodes l.size (mallocNodes α capacity)
    some (true, { l with nodes := newNodes, capacity := capacity })

/-- `muggle_array_list_index`, which returns a node pointer or `NULL`. -/
def index (l : ArrayList α) (index : BitVec 32) : Option Nat :=
  let idx := l.getIndex index
  if idx.toInt < 0 then none else some idx.toNat

def findFrom (l : ArrayList α) (data : Option α) (cmp : Option α → Option α → Int) :
    Nat → Nat → Option (BitVec 32)
  | 0, _ => none
  | fuel + 1, i =>
    if i < l.size then do
      let x ← load l.nodes i
      if cmp x data = 0 then some (BitVec.ofNat 32 i) else findFrom l data cmp fuel (i + 1)
    else some (-1#32)

def find (l : ArrayList α) (index : BitVec 32) (data : Option α)
    (cmp : Option α → Option α → Int) : Option (BitVec 32) :=
  let index := l.getIndex index
  if index.toInt < 0 then some (-1#32) else findFrom l data cmp (l.size + 1) index.toNat

def makeRoom (l : ArrayList α) (mem : Bool) : Option (Bool × ArrayList α) :=
  if l.size = l.capacity then l.ensureCapacity (l.capacity * 2 % 2 ^ 64) mem else some (true, l)

def insertIndex (l : ArrayList α) (index : BitVec 32) : Option (BitVec 32) :=
  let idx := l.getIndex index
  if idx.toInt < 0 then
    if (index = 0#32 ∨ index = -1#32) ∧ l.size = 0 then some 0#32 else none
  else some idx

/-- The loops of `insert` and `append` from `i` down: a node moves up as long as there is `more`. -/
def moveUp (more : BitVec 32 → Bool) : Nat → BitVec 32 → Nodes α → Option (Nodes α)
  | 0, _, _ => none
  | fuel + 1, i, nodes =>
    if more i then do
      let data ← loadAt nodes i
      let nodes ← storeAt nodes (i + 1#32) data
      moveUp more fuel (i - 1#32) nodes
    else some nodes

/-- `muggle_array_list_insert`, which returns a node pointer or `NULL`. -/
def insert (l : ArrayList α) (index : BitVec 32) (data : Option α) (mem : Bool) :
    Option (Option Nat × ArrayList α) := do
  let (ok, l) ← l.makeRoom mem
  if ok = false then some (none, l)
  else
    match l.insertIndex index with
    | none => some (none, l)
    | some idx =>
      let nodes ← moveUp (fun i => i.toInt ≥ idx.toInt) (l.size + 1)
        (BitVec.ofNat 32 l.size - 1#32) l.nodes
      let nodes ← storeAt nodes idx data
      some (some idx.toNat, { l with nodes := nodes, size := l.size + 1 })

def append (l : ArrayList α) (index : BitVec 32) (data : Option α) (mem : Bool) :
    Option (Option Nat × ArrayList α) := do
  let (ok, l) ← l.makeRoom mem
  if ok = false then some (none, l)
  else
    match l.insertIndex index with
    | none => some (none, l)
    | some idx =>
      let nodes ← moveUp (fun i => i.toInt > idx.toInt) (l.size + 1)
        (BitVec.ofNat 32 l.size - 1#32) l.nodes
      let idx := if l.size = 0 then 0#32 else idx + 1#32
      let nodes ← storeAt nodes idx data
      some (some idx.toNat, { l with nodes := nodes, size := l.size + 1 })

/-- The loop of `remove` from `i` up: nodes move down as long as `i` is below `last`. -/
def moveDown (last : BitVec 32) : Nat → BitVec 32 → Nodes α → Option (Nodes α)
  | 0, _, _ => none
  | fuel + 1, i, nodes =>
    if i.toInt < last.toInt then do
      let data ← loadAt nodes (i + 1#32)
      let nodes ← storeAt nodes i data
      moveDown last fuel (i + 1#32) nodes
    else some nodes

def freedNode (nodes : Nodes α) (index : BitVec 32) (funcFree : Bool) : Option (List (Option α)) :=
  if funcFree then (loadAt nodes index).map ([·]) else some []

/-- `muggle_array_list_remove`, with what was passed to `func_free` unless that is `NULL`. -/
def remove (l : ArrayList α) (index : BitVec 32) (funcFree : Bool) :
    Option (Bool × List (Option α) × ArrayList α) :=
  let index := l.getIndex index
  if index.toInt < 0 then some (false, [], l)
  else do
    let freed ← freedNode l.nodes index funcFree
    let nodes ← moveDown (BitVec.ofNat 32 l.size - 1#32) (l.size + 1) index l.nodes
    some (true, freed, { l with nodes := nodes, size := l.size - 1 })

end ArrayList

end MuggleC.Dsaa

namespace MuggleC.Dsaa.ArrayListRuns

open Base Foundation.CellArray Foundation.Transition ArrayList List
open BitVec hiding getElem?_eq_getElem getElem?_eq_none not_or

variable {α : Type}

def elems (l : ArrayList α) : List (Option α) := (l.nodes.take l.size).map Option.join

def position (n : Nat) (index : Int) : Option Nat :=
  if 0 ≤ index then if index < n then some index.toNat else none
  else if -index ≤ n then some (n + index).toNat else none

def insertPosition (n : Nat) (index : Int) : Option Nat :=
  if n = 0 ∧ (index = 0 ∨ index = -1) then some 0 else position n index

variable {n i : Nat} {xs : List (Option α)} {index : BitVec 32} {nodes : Nodes α} {p : Nat}

theorem position_lt {index : Int} (h : position n index = some p) : p < n := by
  unfold position at h
  split_ifs at h
  all_goals
    cases h
    omega

theorem insertPosition_le {index : Int} (h : insertPosition n index = some p) :
    p ≤ n ∧ (p = n → n = 0) := by
  unfold insertPosition at h
  split at h
  · next h0 =>
    cases h
    omega
  · have := position_lt h
    omega

inductive Call (α : Type)
  | insert (index : BitVec 32) (data : Option α) (mem : Bool)
  | append (index : BitVec 32) (data : Option α) (mem : Bool)
  | remove (index : BitVec 32) (funcFree : Bool)
  | index (index : BitVec 32)
  | find (index : BitVec 32) (data : Option α) (cmp : Option α → Option α → Int)
  | ensureCapacity (capacity : BitVec 64) (mem : Bool)
  | clear (funcFree : Bool)

inductive Result (α : Type)
  | node (node : Option Nat)
  | removed (ok : Bool) (freed : List (Option α))
  | found (index : Int)
  | ensured (ok : Bool)
  | cleared (freed : List α)
  deriving DecidableEq, Repr

def call (l : ArrayList α) : Call α → Option (Result α × ArrayList α)
  | .insert index data mem => (l.insert index data mem).map fun (r, l) => (.node r, l)
  | .append index data mem => (l.append index data mem).map fun (r, l) => (.node r, l)
  | .remove index funcFree => (l.remove index funcFree).map fun (ok, freed, l) => (.removed ok freed, l)
  | .index index => some (.node (l.index index), l)
  | .find index data cmp => (l.find index data cmp).map fun i => (.found i.toInt, l)
  | .ensureCapacity capacity mem =>
    (l.ensureCapacity capacity.toNat mem).map fun (ok, l) => (.ensured ok, l)
  | .clear funcFree => (l.clear funcFree).map fun (freed, l) => (.cleared freed, l)

def step (l : ArrayList α) (c : Call α) : Option (ArrayList α) := (call l c).map Prod.snd

def placed (xs : List (Option α)) (data : Option α) : Option Nat → List (Option α)
  | none => xs
  | some p => xs.insertIdx p data

def insertPlace (l : ArrayList α) (index : BitVec 32) (mem : Bool) : Option Nat :=
  if l.size = l.capacity ∧ mem = false then none else insertPosition (elems l).length index.toInt

def appendPlace (l : ArrayList α) (index : BitVec 32) (mem : Bool) : Option Nat :=
  (insertPlace l index mem).map fun p => if elems l = [] then 0 else p + 1

/-- What a call returns and makes of the elements. -/
def Meets (l l' : ArrayList α) (r : Result α) : Call α → Prop
  | .insert index data mem =>
    r = .node (insertPlace l index mem) ∧ elems l' = placed (elems l) data (insertPlace l index mem)
  | .append index data mem =>
    r = .node (appendPlace l index mem) ∧ elems l' = placed (elems l) data (appendPlace l index mem)
  | .remove index funcFree =>
    match position (elems l).length index.toInt with
    | none => r = .removed false [] ∧ elems l' = elems l
    | some p => r = .removed true (if funcFree then (elems l)[p]?.toList else []) ∧
        elems l' = (elems l).eraseIdx p
  | .index index => r = .node (position (elems l).length index.toInt) ∧ l' = l
  | .find index data cmp =>
    l' = l ∧ r = .found (match position (elems l).length index.toInt with
      | none => -1
      | some p =>
        match ((elems l).drop p).findIdx? fun x => cmp x data == 0 with
        | none => -1
        | some k => (p + k : Nat))
  | .ensureCapacity capacity mem =>
    r = .ensured (capacity.toNat ≤ l.capacity || dsCapIsValid capacity.toNat && mem) ∧
      elems l' = elems l
  | .clear funcFree =>
    r = .cleared (if funcFree then (elems l).reduceOption else []) ∧ elems l' = []

/-- A call on fewer than `2 ^ 31` elements that asks for no size in bytes that wraps around. -/
def Fits (l : ArrayList α) (c : Call α) : Prop :=
  l.size < 2 ^ 31 ∧
    match c with
    | .ensureCapacity capacity _ => nodeSize * capacity.toNat < 2 ^ 64
    | _ => True

instance (l : ArrayList α) (c : Call α) : Decidable (Fits l c) := by
  unfold Fits
  exact c.casesOn (fun _ _ _ => inferInstance) (fun _ _ _ => inferInstance)
    (fun _ _ => inferInstance) (fun _ => inferInstance) (fun _ _ _ => inferInstance)
    (fun _ _ => inferInstance) (fun _ => inferInstance)

structure Holds (l : ArrayList α) (xs : List (Option α)) : Prop where
  size_eq : l.size = xs.length
  cells : ∀ i, i < xs.length → l.nodes[i]? = some xs[i]?
  room : l.size ≤ l.capacity
  length_eq : l.nodes.length = l.capacity
  pos : 0 < l.capacity

variable {l : ArrayList α}

theorem Holds.load (h : Holds l xs) (hi : i < xs.length) : load l.nodes i = xs[i]? := by
  rw [Foundation.CellArray.load, h.cells i hi, Option.join_some]

theorem Holds.elems_eq (h : Holds l xs) : elems l = xs := by
  apply ext_getElem?
  intro i
  rw [elems, getElem?_map, getElem?_take, h.size_eq]
  split
  · next hi =>
    rw [h.cells i hi, getElem?_eq_getElem hi]
    rfl
  · next hi => rw [Option.map_none, getElem?_eq_none (by omega)]

theorem toInt_ofNat (h : n < 2 ^ 31) : (BitVec.ofNat 32 n).toInt = n := by
  rw [toInt_eq_toNat_cond, toNat_ofNat, Nat.mod_eq_of_lt (by omega), if_pos (by omega)]

theorem toInt_pred (h : n ≤ 2 ^ 31) : (BitVec.ofNat 32 n - 1#32).toInt = n - 1 := by
  cases n with
  | zero => decide
  | succ n =>
    have hn : BitVec.ofNat 32 (n + 1) - 1#32 = BitVec.ofNat 32 n := by
      rw [ofNat_add, add_sub_cancel]
    rw [hn, toInt_ofNat (by omega)]
    omega

theorem getIndex_spec (h : l.size < 2 ^ 31) (index : BitVec 32) :
    match position l.size index.toInt with
    | none => l.getIndex index = -1#32
    | some p => l.getIndex index = BitVec.ofNat 32 p := by
  have hint := toInt_eq_toNat_cond index
  unfold position getIndex
  by_cases hneg : 0 ≤ index.toInt
  · have hnat : index.toInt = index.toNat ∧ index.toNat < 2 ^ 31 := by
      split at hint <;> omega
    rw [if_pos hneg, if_pos hneg, toNat_signExtend_of_lt hnat.2]
    by_cases hin : index.toInt < l.size
    · rw [if_pos hin, if_neg (by omega)]
      dsimp only
      rw [hnat.1, Int.toNat_natCast, ofNat_toNat, setWidth_eq]
    · rw [if_neg hin, if_pos (by omega)]
  · have hopp : (-index).toNat = 2 ^ 32 - index.toNat := by
      rw [toNat_neg]
      omega
    rw [if_neg hneg, if_neg hneg]
    by_cases hleast : index.toNat = 2 ^ 31
    · -- The least `int` counts back further than any list of this size reaches.
      have hindex : index = 2147483648#32 := eq_of_toNat_eq hleast
      have hext : ((-index).signExtend 64).toNat = 18446744071562067968 := by
        rw [hindex]
        decide
      rw [if_neg (by omega), hext, if_pos (by omega)]
    · have hext : ((-index).signExtend 64).toNat = 2 ^ 32 - index.toNat := by
        rw [toNat_signExtend_of_lt (by omega), hopp]
      by_cases hin : -index.toInt ≤ l.size
      · rw [if_pos hin, if_neg (by omega)]
        apply eq_of_toNat_eq
        rw [toNat_setWidth, toNat_sub, hext, toNat_ofNat, toNat_ofNat]
        omega
      · rw [if_neg hin, if_pos (by omega)]

theorem getIndex_of_none (h : l.size < 2 ^ 31)
    (hp : position l.size index.toInt = none) : l.getIndex index = -1#32 := by
  have := getIndex_spec h index
  rwa [hp] at this

theorem getIndex_of_some (h : l.size < 2 ^ 31)
    (hp : position l.size index.toInt = some p) : l.getIndex index = BitVec.ofNat 32 p := by
  have := getIndex_spec h index
  rwa [hp] at this

theorem insertIndex_eq (h : l.size < 2 ^ 31) (index : BitVec 32) :
    l.insertIndex index = (insertPosition l.size index.toInt).map (BitVec.ofNat 32) := by
  have hzero : index = 0#32 ↔ index.toInt = 0 := by
    rw [← toInt_inj]
    rfl
  have hlast : index = -1#32 ↔ index.toInt = -1 := by
    rw [← toInt_inj]
    rfl
  unfold insertIndex insertPosition
  simp only [hzero, hlast]
  cases hp : position l.size index.toInt with
  | none =>
    rw [getIndex_of_none h hp, if_pos (by decide)]
    by_cases hempty : l.size = 0 ∧ (index.toInt = 0 ∨ index.toInt = -1)
    · rw [if_pos hempty.symm, if_pos hempty]
      rfl
    · rw [if_neg fun h => hempty h.symm, if_neg hempty]
      rfl
  | some p =>
    have hlt := position_lt hp
    rw [getIndex_of_some h hp, toInt_ofNat (by omega), if_neg (by omega), if_neg (by omega)]
    rfl

theorem loadAt_ofNat (h : i < 2 ^ 31) :
    loadAt nodes (BitVec.ofNat 32 i) = load nodes i := by
  rw [loadAt, toInt_ofNat h, if_neg (by omega), toNat_ofNat, Nat.mod_eq_of_lt (by omega)]

theorem storeAt_ofNat (h : i < 2 ^ 31) (hi : i < nodes.length) (data : Option α) :
    storeAt nodes (BitVec.ofNat 32 i) data = some (nodes.set i (some data)) := by
  rw [storeAt, toInt_ofNat h, if_neg (by omega), toNat_ofNat, Nat.mod_eq_of_lt (by omega),
    store, if_pos hi]

private theorem moveUp_spec {more : BitVec 32 → Bool} {low : Nat} (hn : n < 2 ^ 31)
    (hmore : ∀ m, low ≤ m → m ≤ n → more (BitVec.ofNat 32 m - 1#32) = decide (low < m)) (k : Nat) :
    ∀ (fuel : Nat) (nodes : Nodes α), k < fuel → low + k ≤ n → low + k < nodes.length →
      (∀ j, low ≤ j → j < low + k → ∃ x, nodes[j]? = some (some x)) →
      ∃ nodes', moveUp more fuel (BitVec.ofNat 32 (low + k) - 1#32) nodes = some nodes' ∧
        nodes'.length = nodes.length ∧
        ∀ j, nodes'[j]? = if low < j ∧ j ≤ low + k then nodes[j - 1]? else nodes[j]? := by
  induction k with
  | zero =>
    intro fuel nodes hfuel hlt hlen _
    obtain ⟨fuel, rfl⟩ := Nat.exists_eq_succ_of_ne_zero (Nat.ne_of_gt hfuel)
    refine ⟨nodes, ?_, rfl, ?_⟩
    · rw [moveUp, hmore _ (by omega) hlt, if_neg (by simp)]
    · intro j
      rw [if_neg (by omega)]
  | succ k ih =>
    intro fuel nodes hfuel hlt hlen hcells
    obtain ⟨fuel, rfl⟩ := Nat.exists_eq_succ_of_ne_zero (Nat.ne_of_gt (Nat.lt_of_le_of_lt
      (Nat.zero_le _) hfuel))
    have hi : BitVec.ofNat 32 (low + (k + 1)) - 1#32 = BitVec.ofNat 32 (low + k) := by
      rw [← Nat.add_assoc, ofNat_add, add_sub_cancel]
    have hnext : BitVec.ofNat 32 (low + k) + 1#32 = BitVec.ofNat 32 (low + k + 1) :=
      (ofNat_add _ _).symm
    obtain ⟨x, hx⟩ := hcells (low + k) (by omega) (by omega)
    have hlow : more (BitVec.ofNat 32 (low + k)) = true := by
      rw [← hi, hmore _ (by omega) hlt, decide_eq_true_eq]
      omega
    obtain ⟨nodes', hrun, hlen', hget⟩ := ih fuel (nodes.set (low + k + 1) (some x)) (by omega)
      (by omega) (by rw [length_set]; omega) (by
        intro j hj hjk
        rw [getElem?_set_ne (by omega)]
        exact hcells j hj (by omega))
    refine ⟨nodes', ?_, by rw [hlen', length_set], ?_⟩
    · rw [moveUp, hi, if_pos hlow, loadAt_ofNat (by omega), load_eq hx, hnext]
      dsimp only [Option.bind_eq_bind, Option.bind_some]
      rw [storeAt_ofNat (by omega) (by omega)]
      exact hrun
    · intro j
      rw [hget j]
      by_cases hin : low < j ∧ j ≤ low + k
      · rw [if_pos hin, if_pos (by omega), getElem?_set_ne (by omega)]
      · rw [if_neg hin]
        by_cases hj : j = low + k + 1
        · subst hj
          rw [if_pos (by omega), getElem?_set_self (by omega), Nat.add_sub_cancel, hx]
        · rw [if_neg (by omega), getElem?_set_ne (by omega)]

private theorem moveDown_spec (hn : n ≤ 2 ^ 31) (k : Nat) :
    ∀ (p fuel : Nat) (nodes : Nodes α), p + k + 1 = n → k < fuel → n ≤ nodes.length →
      (∀ j, p < j → j < n → ∃ x, nodes[j]? = some (some x)) →
      ∃ nodes', moveDown (BitVec.ofNat 32 n - 1#32) fuel (BitVec.ofNat 32 p) nodes = some nodes' ∧
        nodes'.length = nodes.length ∧
        ∀ j, nodes'[j]? = if p ≤ j ∧ j + 1 < n then nodes[j + 1]? else nodes[j]? := by
  induction k with
  | zero =>
    intro p fuel nodes hpn hfuel hlen _
    obtain ⟨fuel, rfl⟩ := Nat.exists_eq_succ_of_ne_zero (Nat.ne_of_gt hfuel)
    refine ⟨nodes, ?_, rfl, ?_⟩
    · rw [moveDown, toInt_pred hn, toInt_ofNat (by omega), if_neg (by omega)]
    · intro j
      rw [if_neg (by omega)]
  | succ k ih =>
    intro p fuel nodes hpn hfuel hlen hcells
    obtain ⟨fuel, rfl⟩ := Nat.exists_eq_succ_of_ne_zero (Nat.ne_of_gt (Nat.lt_of_le_of_lt
      (Nat.zero_le _) hfuel))
    have hnext : BitVec.ofNat 32 p + 1#32 = BitVec.ofNat 32 (p + 1) := (ofNat_add _ _).symm
    obtain ⟨x, hx⟩ := hcells (p + 1) (by omega) (by omega)
    obtain ⟨nodes', hrun, hlen', hget⟩ := ih (p + 1) fuel (nodes.set p (some x)) (by omega)
      (by omega) (by rw [length_set]; omega) (by
        intro j hj hjn
        rw [getElem?_set_ne (by omega)]
        exact hcells j (by omega) hjn)
    refine ⟨nodes', ?_, by rw [hlen', length_set], ?_⟩
    · rw [moveDown, toInt_pred hn, toInt_ofNat (by omega), if_pos (by omega), hnext,
        loadAt_ofNat (by omega), load_eq hx]
      dsimp only [Option.bind_eq_bind, Option.bind_some]
      rw [storeAt_ofNat (by omega) (by omega)]
      exact hrun
    · intro j
      rw [hget j]
      by_cases hin : p + 1 ≤ j ∧ j + 1 < n
      · rw [if_pos hin, if_pos (by omega), getElem?_set_ne (by omega)]
      · rw [if_neg hin]
        by_cases hj : j = p
        · subst hj
          rw [if_pos (by omega), getElem?_set_self (by omega), hx]
        · rw [if_neg (by omega), getElem?_set_ne (by omega)]

private theorem copyNodes_spec (n : Nat) (newNodes : Nodes α) (hn : n ≤ newNodes.length)
    (hcells : ∀ j, j < n → ∃ x, nodes[j]? = some (some x)) :
    ∃ r, copyNodes nodes n newNodes = some r ∧ r.length = newNodes.length ∧
      ∀ j, j < n → r[j]? = nodes[j]? := by
  have hcell : ∀ j, j < n → ∃ x, (load nodes (0 + j)).map some = some x := by
    intro j hj
    obtain ⟨x, hx⟩ := hcells j hj
    exact ⟨some x, by rw [Nat.zero_add, load_eq hx]; rfl⟩
  obtain ⟨r, hr, hlen, hget⟩ :=
    @copyCells_spec _ (fun i => (load nodes i).map some) 0 n newNodes (by omega) hcell
  refine ⟨r, hr, hlen, fun j hj => ?_⟩
  obtain ⟨x, hx⟩ := hcells j hj
  have hj' := hget j hj
  rw [Nat.zero_add, load_eq hx] at hj'
  exact hj'.trans hx.symm

theorem length_mallocNodes {capacity : Nat} (h : nodeSize * capacity < 2 ^ 64) :
    (mallocNodes α capacity).length = capacity := length_mallocCells (by decide) h

section Calls

variable {l : ArrayList α} {xs : List (Option α)}

theorem Holds.written (h : Holds l xs) {j : Nat} (hj : j < l.size) :
    ∃ x, l.nodes[j]? = some (some x) := by
  rw [h.size_eq] at hj
  exact ⟨xs.get ⟨j, hj⟩, by rw [h.cells j hj, getElem?_eq_getElem hj]; rfl⟩

theorem ensureCapacity_spec (h : Holds l xs) {capacity : Nat} (hfit : nodeSize * capacity < 2 ^ 64)
    (mem : Bool) : ∃ l', l.ensureCapacity capacity mem =
        some (decide (capacity ≤ l.capacity) || dsCapIsValid capacity && mem, l') ∧
      Holds l' xs ∧
      ((decide (capacity ≤ l.capacity) || dsCapIsValid capacity && mem) = true →
        capacity ≤ l'.capacity) := by
  have hroom := h.room
  rw [ensureCapacity]
  by_cases hle : capacity ≤ l.capacity
  · refine ⟨l, ?_, h, fun _ => hle⟩
    rw [if_pos hle, decide_eq_true hle, Bool.true_or]
  · rw [if_neg hle, decide_eq_false hle, Bool.false_or]
    by_cases hno : dsCapIsValid capacity = false ∨ mem = false
    · have hfalse : (dsCapIsValid capacity && mem) = false := by
        rcases hno with hv | hm
        · rw [hv, Bool.false_and]
        · rw [hm, Bool.and_false]
      refine ⟨l, ?_, h, fun htrue => ?_⟩
      · rw [if_pos hno, hfalse]
      · rw [hfalse] at htrue
        exact Bool.noConfusion htrue
    · have hlen : (mallocNodes α capacity).length = capacity := length_mallocNodes hfit
      obtain ⟨r, hr, hrlen, hget⟩ := copyNodes_spec l.size (mallocNodes α capacity) (by omega)
        fun j hj => h.written hj
      have htrue : (dsCapIsValid capacity && mem) = true := by
        rw [not_or, Bool.not_eq_false, Bool.not_eq_false] at hno
        rw [hno.1, hno.2]
        rfl
      refine ⟨{ l with nodes := r, capacity := capacity }, ?_, ?_, fun _ => Nat.le_refl _⟩
      · rw [if_neg hno, hr, htrue]
        rfl
      · refine ⟨h.size_eq, ?_, ?_, hrlen.trans hlen, ?_⟩
        · intro i hi
          rw [← h.cells i hi]
          exact hget i (by rw [h.size_eq]; exact hi)
        · show l.size ≤ capacity
          omega
        · show 0 < capacity
          omega

theorem makeRoom_spec (h : Holds l xs) (hsize : l.size < 2 ^ 31) (mem : Bool) :
    ∃ l', l.makeRoom mem = some (!decide (l.size = l.capacity ∧ mem = false), l') ∧
      Holds l' xs ∧ (¬ (l.size = l.capacity ∧ mem = false) → l'.size < l'.capacity) := by
  have hroom := h.room
  have hpos := h.pos
  rw [makeRoom]
  by_cases hfull : l.size = l.capacity
  · have hmod : l.capacity * 2 % 2 ^ 64 = l.capacity * 2 := Nat.mod_eq_of_lt (by omega)
    have hvalid : dsCapIsValid (l.capacity * 2) = true := by
      rw [dsCapIsValid, decide_eq_true_eq]
      omega
    obtain ⟨l', hl', hholds, hgrown⟩ :=
      ensureCapacity_spec h (show nodeSize * (l.capacity * 2) < 2 ^ 64 by rw [nodeSize]; omega) mem
    have hok : (decide (l.capacity * 2 ≤ l.capacity) || dsCapIsValid (l.capacity * 2) && mem) = mem := by
      rw [hvalid, Bool.true_and, decide_eq_false (by omega), Bool.false_or]
    rw [hok] at hl' hgrown
    refine ⟨l', ?_, hholds, ?_⟩
    · rw [if_pos hfull, hmod, hl']
      cases mem <;> simp [hfull]
    · intro hgot
      have hmem : mem = true := by
        rw [← Bool.not_eq_false]
        exact fun hm => hgot ⟨hfull, hm⟩
      have := hgrown hmem
      have := hholds.size_eq
      have := h.size_eq
      omega
  · refine ⟨l, ?_, h, fun _ => by omega⟩
    simp [hfull]

theorem place_spec (h : Holds l xs) (hroom : l.size < l.capacity) (hsize : l.size < 2 ^ 31)
    (low : Nat) (hlow : low ≤ l.size) (more : BitVec 32 → Bool)
    (hmore : ∀ m, low ≤ m → m ≤ l.size → more (BitVec.ofNat 32 m - 1#32) = decide (low < m))
    (data : Option α) :
    ∃ nodes nodes', moveUp more (l.size + 1) (BitVec.ofNat 32 l.size - 1#32) l.nodes = some nodes ∧
      storeAt nodes (BitVec.ofNat 32 low) data = some nodes' ∧
      Holds { l with nodes := nodes', size := l.size + 1 } (xs.insertIdx low data) := by
  have hlen := h.length_eq
  have hxs := h.size_eq
  obtain ⟨nodes, hrun, hnodes, hget⟩ := moveUp_spec hsize hmore (l.size - low) (l.size + 1) l.nodes
    (by omega) (by omega) (by omega) fun j _ hj => h.written (by omega)
  rw [Nat.add_sub_cancel' hlow] at hrun hget
  have hins : (xs.insertIdx low data).length = xs.length + 1 :=
    length_insertIdx_of_le_length (by omega) data
  refine ⟨nodes, nodes.set low (some data), hrun, storeAt_ofNat (by omega) (by omega) data, ?_⟩
  refine ⟨?_, ?_, ?_, ?_, h.pos⟩
  · rw [hins, ← hxs]
  · intro j hj
    rw [getElem?_insertIdx]
    by_cases hjl : j = low
    · subst hjl
      rw [getElem?_set_self (by omega), if_neg (by omega), if_pos rfl, if_pos (by omega)]
    · rw [getElem?_set_ne (Ne.symm hjl), hget j, if_neg hjl]
      by_cases hlt : j < low
      · rw [if_pos hlt, if_neg (by omega), h.cells j (by omega)]
      · rw [if_neg hlt, if_pos (by omega), h.cells (j - 1) (by omega)]
  · show l.size + 1 ≤ l.capacity
    omega
  · rw [length_set, hnodes, hlen]

theorem insert_spec (h : Holds l xs) (hsize : l.size < 2 ^ 31) (index : BitVec 32) (data : Option α)
    (mem : Bool) : ∃ l', l.insert index data mem = some (insertPlace l index mem, l') ∧
      Holds l' (placed xs data (insertPlace l index mem)) := by
  obtain ⟨l₁, hmake, hholds, hgrown⟩ := makeRoom_spec h hsize mem
  have hsame : l₁.size = xs.length := hholds.size_eq
  rw [insertPlace, h.elems_eq, ArrayList.insert, hmake]
  dsimp only [Option.bind_eq_bind, Option.bind_some]
  by_cases hfull : l.size = l.capacity ∧ mem = false
  · rw [if_pos hfull, if_pos (by simp [hfull])]
    exact ⟨l₁, rfl, hholds⟩
  · have hsize₁ : l₁.size < 2 ^ 31 := by rw [hsame, ← h.size_eq]; exact hsize
    rw [if_neg hfull, if_neg (by simp [hfull]), insertIndex_eq hsize₁, hsame]
    cases hp : insertPosition xs.length index.toInt with
    | none => exact ⟨l₁, rfl, hholds⟩
    | some p =>
      obtain ⟨hle, _⟩ := insertPosition_le hp
      obtain ⟨nodes, nodes', hmove, hstore, hnew⟩ := place_spec hholds (hgrown hfull) hsize₁
        p (by omega) (fun i => decide (i.toInt ≥ (BitVec.ofNat 32 p).toInt)) (by
          intro m hpm hm
          rw [toInt_ofNat (by omega), toInt_pred (by omega), decide_eq_decide]
          omega) data
      refine ⟨_, ?_, hnew⟩
      rw [hsame] at hmove
      dsimp only [Option.map_some]
      rw [hmove]
      dsimp only [Option.bind_some]
      rw [hstore, toNat_ofNat, Nat.mod_eq_of_lt (by omega)]
      simp [hsame]

theorem append_spec (h : Holds l xs) (hsize : l.size < 2 ^ 31) (index : BitVec 32) (data : Option α)
    (mem : Bool) : ∃ l', l.append index data mem = some (appendPlace l index mem, l') ∧
      Holds l' (placed xs data (appendPlace l index mem)) := by
  obtain ⟨l₁, hmake, hholds, hgrown⟩ := makeRoom_spec h hsize mem
  have hsame : l₁.size = xs.length := hholds.size_eq
  rw [appendPlace, insertPlace, h.elems_eq, ArrayList.append, hmake]
  dsimp only [Option.bind_eq_bind, Option.bind_some]
  by_cases hfull : l.size = l.capacity ∧ mem = false
  · rw [if_pos hfull, if_pos (by simp [hfull])]
    exact ⟨l₁, rfl, hholds⟩
  · have hsize₁ : l₁.size < 2 ^ 31 := by rw [hsame, ← h.size_eq]; exact hsize
    rw [if_neg hfull, if_neg (by simp [hfull]), insertIndex_eq hsize₁, hsame]
    cases hp : insertPosition xs.length index.toInt with
    | none => exact ⟨l₁, rfl, hholds⟩
    | some p =>
      obtain ⟨hle, hend⟩ := insertPosition_le hp
      have hidx : (if xs.length = 0 then 0#32 else BitVec.ofNat 32 p + 1#32) =
          BitVec.ofNat 32 (if xs = [] then 0 else p + 1) := by
        by_cases hnil : xs = []
        · rw [if_pos hnil, if_pos (length_eq_zero_iff.mpr hnil)]
        · rw [if_neg hnil, if_neg fun hz => hnil (length_eq_zero_iff.mp hz)]
          exact (ofNat_add _ _).symm
      have hlow : (if xs = [] then 0 else p + 1) ≤ xs.length := by
        split
        · exact Nat.zero_le _
        · next hnil =>
          have := length_pos_iff.mpr hnil
          omega
      obtain ⟨nodes, nodes', hmove, hstore, hnew⟩ := place_spec hholds (hgrown hfull) hsize₁
        (if xs = [] then 0 else p + 1) (by omega)
        (fun i => decide (i.toInt > (BitVec.ofNat 32 p).toInt)) (by
          intro m hpm hm
          rw [toInt_ofNat (by omega), toInt_pred (by omega), decide_eq_decide]
          split at hpm
          · next hnil =>
            -- No element moves in an empty list.
            rw [hsame, hnil, length_nil] at hm
            omega
          · next hnil =>
            rw [if_neg hnil]
            omega) data
      refine ⟨_, ?_, hnew⟩
      rw [hsame] at hmove
      dsimp only [Option.map_some]
      rw [hmove]
      dsimp only [Option.bind_some]
      rw [hidx, hstore, toNat_ofNat, Nat.mod_eq_of_lt (by omega)]
      simp [hsame]

variable {index : BitVec 32}

private theorem remove_of_none (hsize : l.size < 2 ^ 31) (hp : position l.size index.toInt = none)
    (funcFree : Bool) : l.remove index funcFree = some (false, [], l) := by
  rw [ArrayList.remove, getIndex_of_none hsize hp]
  rfl

private theorem remove_of_some (h : Holds l xs) (hsize : l.size < 2 ^ 31) {p : Nat}
    (hp : position l.size index.toInt = some p) (funcFree : Bool) :
    ∃ l', l.remove index funcFree = some (true, if funcFree then xs[p]?.toList else [], l') ∧
      Holds l' (xs.eraseIdx p) := by
  have hlt := position_lt hp
  have hlen := h.length_eq
  have hroom := h.room
  have hxs := h.size_eq
  obtain ⟨nodes, hrun, hnodes, hget⟩ := moveDown_spec (Nat.le_of_lt hsize) (l.size - 1 - p) p
    (l.size + 1) l.nodes (by omega) (by omega) (by omega) fun j _ hj => h.written hj
  refine ⟨{ l with nodes := nodes, size := l.size - 1 }, ?_, ?_⟩
  · have hfreed : freedNode l.nodes (BitVec.ofNat 32 p) funcFree =
        some (if funcFree then xs[p]?.toList else []) := by
      cases funcFree with
      | false => rfl
      | true =>
        rw [freedNode, if_pos rfl, if_pos rfl, loadAt_ofNat (by omega), h.load (by omega),
          getElem?_eq_getElem (by omega)]
        rfl
    rw [ArrayList.remove, getIndex_of_some hsize hp, toInt_ofNat (by omega), if_neg (by omega),
      hfreed]
    rw [hrun]
    rfl
  · have herase : (xs.eraseIdx p).length = xs.length - 1 :=
      length_eraseIdx_of_lt (by omega)
    refine ⟨?_, ?_, ?_, hnodes.trans hlen, h.pos⟩
    · rw [herase, hxs]
    · intro j hj
      rw [hget j, getElem?_eraseIdx]
      by_cases hjp : j < p
      · rw [if_pos hjp, if_neg (by omega), h.cells j (by omega)]
      · rw [if_neg hjp, if_pos (by omega), h.cells (j + 1) (by omega)]
    · show l.size - 1 ≤ l.capacity
      omega

private theorem index_eq (hsize : l.size < 2 ^ 31) (index : BitVec 32) :
    l.index index = position l.size index.toInt := by
  rw [ArrayList.index]
  cases hp : position l.size index.toInt with
  | none =>
    rw [getIndex_of_none hsize hp]
    rfl
  | some p =>
    have hlt := position_lt hp
    rw [getIndex_of_some hsize hp, toInt_ofNat (by omega), if_neg (by omega), toNat_ofNat,
      Nat.mod_eq_of_lt (by omega)]

private theorem findFrom_spec (h : Holds l xs) (data : Option α) (cmp : Option α → Option α → Int)
    (k : Nat) :
    ∀ fuel i, i + k = xs.length → k < fuel → findFrom l data cmp fuel i =
        some (match (xs.drop i).findIdx? fun x => cmp x data == 0 with
          | none => -1#32
          | some j => BitVec.ofNat 32 (i + j)) := by
  have hxs := h.size_eq
  induction k with
  | zero =>
    intro fuel i hi hfuel
    obtain ⟨fuel, rfl⟩ := Nat.exists_eq_succ_of_ne_zero (Nat.ne_of_gt hfuel)
    rw [findFrom, if_neg (by omega), drop_eq_nil_of_le (by omega)]
    rfl
  | succ k ih =>
    intro fuel i hi hfuel
    obtain ⟨fuel, rfl⟩ := Nat.exists_eq_succ_of_ne_zero (Nat.ne_of_gt (Nat.lt_of_le_of_lt
      (Nat.zero_le _) hfuel))
    have hlt : i < xs.length := by omega
    rw [findFrom, if_pos (by omega), h.load hlt, getElem?_eq_getElem hlt,
      drop_eq_getElem_cons hlt, findIdx?_cons]
    dsimp only [Option.bind_eq_bind, Option.bind_some]
    by_cases heq : cmp xs[i] data = 0
    · rw [if_pos heq, if_pos (by rw [heq]; rfl)]
      rfl
    · rw [if_neg heq, if_neg (by simpa using heq), ih fuel (i + 1) (by omega) (by omega)]
      cases (xs.drop (i + 1)).findIdx? fun x => cmp x data == 0 with
      | none => rfl
      | some j =>
        dsimp only [Option.map_some]
        rw [Nat.add_right_comm, Nat.add_assoc]

theorem find_spec (h : Holds l xs) (hsize : l.size < 2 ^ 31) (index : BitVec 32) (data : Option α)
    (cmp : Option α → Option α → Int) :
    ∃ i, l.find index data cmp = some i ∧ i.toInt = match position l.size index.toInt with
        | none => -1
        | some p =>
          match (xs.drop p).findIdx? fun x => cmp x data == 0 with
          | none => -1
          | some k => (p + k : Nat) := by
  rw [ArrayList.find]
  cases hp : position l.size index.toInt with
  | none =>
    rw [getIndex_of_none hsize hp]
    exact ⟨-1#32, rfl, rfl⟩
  | some p =>
    have hlt := position_lt hp
    have hxs := h.size_eq
    rw [getIndex_of_some hsize hp, toInt_ofNat (by omega), if_neg (by omega), toNat_ofNat,
      Nat.mod_eq_of_lt (by omega),
      findFrom_spec h data cmp (xs.length - p) (l.size + 1) p (by omega) (by omega)]
    refine ⟨_, rfl, ?_⟩
    dsimp only
    cases hk : (xs.drop p).findIdx? fun x => cmp x data == 0 with
    | none => rfl
    | some k =>
      obtain ⟨hdrop, _⟩ := findIdx?_eq_some_iff_getElem.mp hk
      rw [length_drop] at hdrop
      exact toInt_ofNat (by omega)

private theorem freedNodes_spec (h : Holds l xs) (n : Nat) (hn : n ≤ xs.length) :
    freedNodes l.nodes n = some (xs.take n).reduceOption := by
  induction n with
  | zero => rfl
  | succ n ih =>
    have hlt : n < xs.length := hn
    rw [freedNodes, ih (by omega), h.load hlt, getElem?_eq_getElem hlt, take_succ_eq_append_getElem hlt,
      reduceOption_append]
    cases xs[n] <;> rfl

theorem clear_spec (h : Holds l xs) (funcFree : Bool) :
    ∃ l', l.clear funcFree = some (if funcFree then xs.reduceOption else [], l') ∧ Holds l' [] := by
  refine ⟨{ l with size := 0 }, ?_, ⟨rfl, fun i hi => absurd hi (Nat.not_lt_zero i),
    Nat.zero_le _, h.length_eq, h.pos⟩⟩
  rw [clear]
  cases funcFree with
  | false => rfl
  | true =>
    rw [if_pos rfl, if_pos rfl, h.size_eq, freedNodes_spec h _ (Nat.le_refl _), take_length]
    rfl

theorem call_spec (h : Holds l xs) (c : Call α) (hfits : Fits l c) :
    ∃ r l' xs', call l c = some (r, l') ∧ Holds l' xs' ∧ Meets l l' r c := by
  obtain ⟨hsize, hbytes⟩ := hfits
  have hlen : (elems l).length = l.size := by rw [h.elems_eq, h.size_eq]
  cases c with
  | insert index data mem =>
    obtain ⟨l', hl', hnew⟩ := insert_spec h hsize index data mem
    refine ⟨_, l', _, by rw [call, hl']; rfl, hnew, rfl, ?_⟩
    rw [hnew.elems_eq, h.elems_eq]
  | append index data mem =>
    obtain ⟨l', hl', hnew⟩ := append_spec h hsize index data mem
    refine ⟨_, l', _, by rw [call, hl']; rfl, hnew, rfl, ?_⟩
    rw [hnew.elems_eq, h.elems_eq]
  | remove index funcFree =>
    rw [call]
    dsimp only [Meets]
    rw [hlen]
    cases hp : position l.size index.toInt with
    | none => exact ⟨_, l, xs, by rw [remove_of_none hsize hp]; rfl, h, rfl, rfl⟩
    | some p =>
      obtain ⟨l', hl', hnew⟩ := remove_of_some h hsize hp funcFree
      refine ⟨_, l', _, by rw [hl']; rfl, hnew, ?_, ?_⟩
      · rw [h.elems_eq]
      · rw [hnew.elems_eq, h.elems_eq]
  | index index =>
    refine ⟨_, l, xs, rfl, h, ?_, rfl⟩
    rw [hlen, index_eq hsize]
  | find index data cmp =>
    obtain ⟨i, hi, hval⟩ := find_spec h hsize index data cmp
    refine ⟨_, l, xs, by rw [call, hi]; rfl, h, rfl, ?_⟩
    rw [hlen, h.elems_eq, ← hval]
  | ensureCapacity capacity mem =>
    obtain ⟨l', hl', hnew, _⟩ := ensureCapacity_spec h hbytes mem
    refine ⟨_, l', xs, by rw [call, hl']; rfl, hnew, rfl, ?_⟩
    rw [hnew.elems_eq, h.elems_eq]
  | clear funcFree =>
    obtain ⟨l', hl', hnew⟩ := clear_spec h funcFree
    refine ⟨_, l', _, by rw [call, hl']; rfl, hnew, ?_, hnew.elems_eq⟩
    rw [h.elems_eq]

end Calls

private theorem step_holds {l l' : ArrayList α} {c : Call α} (h : ∃ xs, Holds l xs)
    (hs : guarded step Fits l c = some l') : ∃ xs, Holds l' xs := by
  obtain ⟨xs, hxs⟩ := h
  obtain ⟨hfits, hstep⟩ := guarded_eq_some.mp hs
  obtain ⟨r, l₁, xs₁, hcall, hholds, _⟩ := call_spec hxs c hfits
  rw [step, hcall] at hstep
  cases hstep
  exact ⟨xs₁, hholds⟩

theorem init_holds {capacity : BitVec 64} {mem : Bool} (hi : ArrayList.init α capacity mem = some l)
    (hfits : nodeSize * capacity.toNat < 2 ^ 64) : Holds l [] := by
  have hcap : nodeSize * (if capacity.toNat = 0 then 8 else capacity.toNat) < 2 ^ 64 := by
    split
    · decide
    · exact hfits
  have hpos : 0 < if capacity.toNat = 0 then 8 else capacity.toNat := by
    split <;> omega
  unfold ArrayList.init at hi
  generalize (if capacity.toNat = 0 then 8 else capacity.toNat) = c at hi hcap hpos
  dsimp only at hi
  split at hi
  · cases hi
  · cases hi
    exact ⟨rfl, fun i hi => absurd hi (Nat.not_lt_zero i), Nat.zero_le _, length_mallocNodes hcap, hpos⟩

/-- The first `size` nodes are written and hold the elements. -/
structure Stored (l : ArrayList α) : Prop where
  length_eq : (elems l).length = l.size
  load_eq : ∀ p, p < l.size → load l.nodes p = (elems l)[p]?

/-- In every run of calls on fewer than `2 ^ 31` elements in which no size in bytes wraps around,
every further call returns and does to the elements what it does to a list. -/
theorem arrayList_refines (capacity : BitVec 64) (mem : Bool) (start : ArrayList α)
    (hi : ArrayList.init α capacity mem = some start) (hfits : nodeSize * capacity.toNat < 2 ^ 64)
    (cs : List (Call α)) (l : ArrayList α) (hr : run (guarded step Fits) start cs = some l) :
    elems start = [] ∧ Stored l ∧ ∀ c, Fits l c →
      ∃ r l', call l c = some (r, l') ∧ Stored l' ∧ Meets l l' r c := by
  have hstored : ∀ {l : ArrayList α} {xs : List (Option α)}, Holds l xs → Stored l := by
    intro l xs h
    refine ⟨by rw [h.elems_eq, h.size_eq], fun p hp => ?_⟩
    rw [h.elems_eq]
    exact h.load (h.size_eq ▸ hp)
  have hstart := init_holds hi hfits
  obtain ⟨xs, hxs⟩ := run_invariant (fun _ _ _ => step_holds) ⟨[], hstart⟩ hr
  refine ⟨hstart.elems_eq, hstored hxs, ?_⟩
  intro c hc
  obtain ⟨r, l', xs', hcall, hholds, hmeets⟩ := call_spec hxs c hc
  exact ⟨r, l', hcall, hstored hholds, hmeets⟩

def someCalls : List (Call Nat) :=
  [.append (-1#32) (some 5) true, .insert 0#32 (some 3) true, .append (-2#32) none true,
    .insert 7#32 (some 9) true, .remove 0#32 true]

theorem arrayList_refines_some_calls :
    ∃ l, run (guarded step Fits) ⟨[none], 1, 0⟩ someCalls = some l ∧ elems l = [none, some 5] ∧
      Stored l := by
  have hrun : (run (guarded step Fits) ⟨[none], 1, 0⟩ someCalls).map elems = some [none, some 5] := by
    decide +kernel
  obtain ⟨l, hl, helems⟩ := Option.map_eq_some_iff.mp hrun
  exact ⟨l, hl, helems, (arrayList_refines 1#64 true ⟨[none], 1, 0⟩ (by decide +kernel) (by decide)
    someCalls l hl).2.1⟩

/-- The size in bytes of `2 ^ 61` nodes wraps around to zero, and the first insertion writes behind
the memory. -/
theorem wrapped_size_writes_outside :
    ∃ l : ArrayList Nat, ArrayList.init Nat (BitVec.ofNat 64 (2 ^ 61)) true = some l ∧
      elems l = [] ∧ l.insert 0#32 (some 1) true = none :=
  ⟨⟨[], 2 ^ 61, 0⟩, by decide +kernel, rfl, by decide +kernel⟩

end MuggleC.Dsaa.ArrayListRuns
