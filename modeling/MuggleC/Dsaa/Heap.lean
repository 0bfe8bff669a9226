/- source: dsaa/heap.c, dsaa/dsaa_utils.h
   digest: The binary heap in an array that grows keeps its order while no size wraps around. -/

import MuggleC.Base.Utils
import MuggleC.Foundation.BinaryHeap
import MuggleC.Foundation.CellArray
import MuggleC.Foundation.OrderedMap
import MuggleC.Foundation.Transition

set_option autoImplicit false

/-! `none` is a node that nothing has been written to. A function gets stuck when it reads such a
node, goes outside the array, or makes more turns than there are nodes. -/

namespace MuggleC.Dsaa

open Base Foundation.CellArray

namespace Heap

structure Node (κ ω : Type) where
  key : Option κ
  value : Option ω
  deriving DecidableEq, Repr

abbrev Nodes (κ ω : Type) := List (Option (Node κ ω))

end Heap

/-- `muggle_heap_t` without its comparator. -/
structure Heap (κ ω : Type) where
  capacity : Nat
  size : Nat
  nodes : Heap.Nodes κ ω
  deriving DecidableEq, Repr

namespace Heap

variable {κ ω : Type}

def nodeSize : Nat := 16

def mallocNodes (κ ω : Type) (capacity : Nat) : Nodes κ ω :=
  mallocCells (Node κ ω) nodeSize (capacity + 1)

/-- `muggle_heap_init`, where `mem` tells whether `malloc` gets memory. -/
def init (cmp : Option (Option κ → Option κ → Int)) (capacity : BitVec 64) (mem : Bool) :
    Option (Heap κ ω) :=
  match cmp with
  | none => none
  | some _ =>
    let capacity := if capacity.toNat = 0 then 8 else capacity.toNat
    if dsCapIsValid capacity = false ∨ mem = false then none
    else some ⟨capacity, 0, mallocNodes κ ω capacity⟩

/-- `memcpy` of the nodes `1` to `n`. -/
def copyNodes (nodes : Nodes κ ω) : Nat → Nodes κ ω → Option (Nodes κ ω) :=
  copyCells (fun i => nodes[i]?) 1

def ensureCapacity (h : Heap κ ω) (capacity : Nat) (mem : Bool) : Option (Bool × Heap κ ω) :=
  if capacity ≤ h.capacity then some (true, h)
  else if dsCapIsValid capacity = false ∨ mem = false then some (false, h)
  else do
    let newNodes ← copyNodes h.nodes h.size (mallocNodes κ ω capacity)
    some (true, { h with capacity := capacity, nodes := newNodes })

/-- The start of `muggle_heap_insert`: a full array is doubled. -/
def makeRoom (h : Heap κ ω) (mem : Bool) : Option (Bool × Heap κ ω) :=
  if h.capacity = h.size then h.ensureCapacity (h.capacity * 2 % 2 ^ 64) mem else some (true, h)

/-- The loop of `muggle_heap_insert`: where `key` belongs, after parents have moved down. -/
def siftUp (cmp : Option κ → Option κ → Int) (key : Option κ) :
    Nat → Nat → Nodes κ ω → Option (Nat × Nodes κ ω)
  | 0, _, _ => none
  | fuel + 1, idx, nodes =>
    let parentIdx := idx / 2
    if parentIdx = 0 then some (idx, nodes)
    else do
      let parent ← load nodes parentIdx
      if cmp parent.key key ≤ 0 then some (idx, nodes)
      else
        let nodes ← store nodes idx parent
        siftUp cmp key fuel parentIdx nodes

def insert (cmp : Option κ → Option κ → Int) (h : Heap κ ω) (key : Option κ) (value : Option ω)
    (mem : Bool) : Option (Bool × Heap κ ω) := do
  let (ok, h) ← h.makeRoom mem
  if ok = false then some (false, h)
  else
    let size := h.size + 1
    let (idx, nodes) ← siftUp cmp key (size + 1) size h.nodes
    let nodes ← store nodes idx ⟨key, value⟩
    some (true, { h with size := size, nodes := nodes })

def smallerChild (cmp : Option κ → Option κ → Int) (size child : Nat) (nodes : Nodes κ ω) :
    Option Nat :=
  if child = size then some child
  else do
    let right ← load nodes (child + 1)
    let left ← load nodes child
    some (if cmp right.key left.key < 0 then child + 1 else child)

/-- The loop of `muggle_heap_extract`: where the node at `last` belongs, after children have moved
up. -/
def siftDown (cmp : Option κ → Option κ → Int) (last size : Nat) :
    Nat → Nat → Nodes κ ω → Option (Nat × Nodes κ ω)
  | 0, _, _ => none
  | fuel + 1, i, nodes =>
    if i * 2 ≤ size then do
      let child ← smallerChild cmp size (i * 2) nodes
      let lastNode ← load nodes last
      let childNode ← load nodes child
      if 0 ≤ cmp lastNode.key childNode.key then
        let nodes ← store nodes i childNode
        siftDown cmp last size fuel child nodes
      else some (i, nodes)
    else some (i, nodes)

/-- `muggle_heap_extract`, which returns the node that it writes or, for `false`, nothing. -/
def extract (cmp : Option κ → Option κ → Int) (h : Heap κ ω) :
    Option (Option (Node κ ω) × Heap κ ω) :=
  if h.size = 0 then some (none, h)
  else do
    let node ← load h.nodes 1
    let last := h.size
    let size := h.size - 1
    let (i, nodes) ← siftDown cmp last size (size + 1) 1 h.nodes
    let lastNode ← load nodes last
    let nodes ← store nodes i lastNode
    some (some node, { h with size := size, nodes := nodes })

/-- The loop of `muggle_heap_clear` for the next nodes from `i` on, with the data that it frees. -/
def clearNodes (keyFree valueFree : Bool) :
    Nat → Nat → Nodes κ ω → Option (List (κ ⊕ ω) × Nodes κ ω)
  | 0, _, nodes => some ([], nodes)
  | n + 1, i, nodes => do
    let node ← load nodes i
    let keys := if keyFree then node.key.toList.map .inl else []
    let values := if valueFree then node.value.toList.map .inr else []
    let nodes ← store nodes i ⟨none, none⟩
    let (freed, nodes) ← clearNodes keyFree valueFree n (i + 1) nodes
    some (keys ++ values ++ freed, nodes)

/-- `muggle_heap_clear`; `keyFree` and `valueFree` tell whether functions that free data are given. -/
def clear (h : Heap κ ω) (keyFree valueFree : Bool) : Option (List (κ ⊕ ω) × Heap κ ω) := do
  let (freed, nodes) ← clearNodes keyFree valueFree h.size 1 h.nodes
  some (freed, { h with size := 0, nodes := nodes })

/-- `muggle_heap_destroy`, with the data that it frees. -/
def destroy (h : Heap κ ω) (keyFree valueFree : Bool) : Option (List (κ ⊕ ω) × Heap κ ω) := do
  let (freed, h) ← h.clear keyFree valueFree
  some (freed, { h with nodes := [] })

inductive Call (κ ω : Type)
  | insert (key : Option κ) (value : Option ω) (mem : Bool)
  | extract
  | ensureCapacity (capacity : BitVec 64) (mem : Bool)
  deriving DecidableEq, Repr

inductive Reply (κ ω : Type)
  | done (ok : Bool)
  | extracted (node : Option (Node κ ω))
  deriving DecidableEq, Repr

def call (cmp : Option κ → Option κ → Int) (h : Heap κ ω) :
    Call κ ω → Option (Reply κ ω × Heap κ ω)
  | .insert key value mem => (h.insert cmp key value mem).map fun r => (.done r.1, r.2)
  | .extract => (h.extract cmp).map fun r => (.extracted r.1, r.2)
  | .ensureCapacity capacity mem =>
    (h.ensureCapacity capacity.toNat mem).map fun r => (.done r.1, r.2)

def step (cmp : Option κ → Option κ → Int) (h : Heap κ ω) (c : Call κ ω) : Option (Heap κ ω) :=
  (h.call cmp c).map Prod.snd

end Heap

end MuggleC.Dsaa

namespace MuggleC.Dsaa.HeapRuns

open Base Foundation.BinaryHeap Foundation.CellArray Foundation.OrderedMap Foundation.Transition Heap
open Option Equiv
open Function
open List hiding extract getElem?_eq_some_iff

variable {κ ω : Type}

def cell (h : Heap κ ω) (i : Nat) : Node κ ω := (load h.nodes i).getD ⟨none, none⟩

def pairs (h : Heap κ ω) : Multiset (Node κ ω) := cells h.size (cell h)

def keyLe (cmp : Option κ → Option κ → Int) (a b : Node κ ω) : Prop := cmp a.key b.key ≤ 0

/-- The nodes `1` to `size` are there, and no key is smaller than that of the parent. -/
structure Ordered (cmp : Option κ → Option κ → Int) (h : Heap κ ω) : Prop where
  written : ∀ i, 1 ≤ i → i ≤ h.size → (load h.nodes i).isSome
  order : HeapOrder (keyLe cmp) h.size (cell h)

/-- What a call replies and does to the pairs. -/
inductive Meets (cmp : Option κ → Option κ → Int) (h h' : Heap κ ω) : Call κ ω → Reply κ ω → Prop
  | inserted {key : Option κ} {value : Option ω} {mem : Bool}
      (hpairs : pairs h' = ⟨key, value⟩ ::ₘ pairs h) :
      Meets cmp h h' (.insert key value mem) (.done true)
  | refused {key : Option κ} {value : Option ω} {mem : Bool} (hsame : h' = h) :
      Meets cmp h h' (.insert key value mem) (.done false)
  | extracted {node : Node κ ω} (hpairs : pairs h = node ::ₘ pairs h')
      (hmin : ∀ e ∈ pairs h, cmp node.key e.key ≤ 0) :
      Meets cmp h h' .extract (.extracted (some node))
  | empty (hempty : pairs h = 0) (hsame : h' = h) : Meets cmp h h' .extract (.extracted none)
  | ensured {capacity : BitVec 64} {mem : Bool} (hpairs : pairs h' = pairs h) :
      Meets cmp h h' (.ensureCapacity capacity mem) (.done true)
  | notEnsured {capacity : BitVec 64} {mem : Bool} (hsame : h' = h) :
      Meets cmp h h' (.ensureCapacity capacity mem) (.done false)

/-- The size in bytes that a call may pass to `malloc` does not wrap around. -/
def Fits (h : Heap κ ω) : Call κ ω → Prop
  | .insert _ _ _ => h.capacity = h.size → nodeSize * (h.capacity * 2 + 1) < 2 ^ 64
  | .extract => True
  | .ensureCapacity capacity _ => nodeSize * (capacity.toNat + 1) < 2 ^ 64

instance (h : Heap κ ω) (c : Call κ ω) : Decidable (Fits h c) := by
  cases c <;> unfold Fits <;> infer_instance

def Stores (nodes : Nodes κ ω) (n : Nat) (v : Nat → Node κ ω) (hole : Nat) : Prop :=
  ∀ i, 1 ≤ i → i ≤ n → i ≠ hole → nodes[i]? = some (some (v i))

section Stores

variable {nodes : Nodes κ ω} {n i j : Nat} {v : Nat → Node κ ω} {hole : Nat}

theorem Stores.load (h : Stores nodes n v hole) (h1 : 1 ≤ i) (hn : i ≤ n) (hne : i ≠ hole) :
    Foundation.CellArray.load nodes i = some (v i) := load_eq (h i h1 hn hne)

theorem Stores.move (h : Stores nodes n v i) (hi : i < nodes.length) :
    Stores (nodes.set i (some (v j))) n (v ∘ swap i j) j := by
  intro k h1 hn hne
  by_cases hki : k = i
  · rw [hki, getElem?_set_self hi, comp_apply, swap_apply_left]
  · rw [getElem?_set_ne (Ne.symm hki), comp_apply,
      swap_apply_of_ne_of_ne hki hne]
    exact h k h1 hn hki

theorem Stores.fill (h : Stores nodes n v i) (hi : i < nodes.length) :
    Stores (nodes.set i (some (v i))) n v 0 := by
  intro k h1 hn _
  by_cases hki : k = i
  · rw [hki, getElem?_set_self hi]
  · rw [getElem?_set_ne (Ne.symm hki)]
    exact h k h1 hn hki

end Stores

structure Settled (cmp : Option κ → Option κ → Int) (n : Nat) (x : Node κ ω) (nodes : Nodes κ ω)
    (v : Nat → Node κ ω) (j : Nat) (nodes' : Nodes κ ω) (w : Nat → Node κ ω) : Prop where
  length_eq : nodes'.length = nodes.length
  inside : j < nodes.length
  stores : Stores nodes' n w j
  hole : w j = x
  order : HeapOrder (keyLe cmp) n w
  cells_eq : cells n w = cells n v

section Sift

variable {cmp : Option κ → Option κ → Int} {n i c j : Nat} {x : Node κ ω} {nodes nodes' : Nodes κ ω}
  {v w : Nat → Node κ ω}

theorem settled_here (hi : i < nodes.length) (hs : Stores nodes n v i)
    (he : HeapExcept (keyLe cmp) n v i) (hx : v i = x) (hup : 2 ≤ i → keyLe cmp (v (i / 2)) x)
    (hdown : ∀ c, c ≤ n → c / 2 = i → keyLe cmp x (v c)) : Settled cmp n x nodes v i nodes v := by
  subst hx
  exact ⟨rfl, hi, hs, rfl, he.close hup hdown, rfl⟩

theorem Settled.of_moved (h : Settled cmp n x (nodes.set i (some (v c))) (v ∘ swap i c) j nodes' w)
    (hi : 1 ≤ i) (hin : i ≤ n) (hc : 1 ≤ c) (hcn : c ≤ n) : Settled cmp n x nodes v j nodes' w := by
  have hlen : (nodes.set i (some (v c))).length = nodes.length := length_set
  exact ⟨h.length_eq.trans hlen, hlen ▸ h.inside, h.stores, h.hole, h.order,
    h.cells_eq.trans (cells_swap hi hin hc hcn)⟩

theorem Settled.fill (h : Settled cmp n x nodes v j nodes' w) :
    j < nodes'.length ∧ Stores (nodes'.set j (some x)) n w 0 := by
  have hin : j < nodes'.length := h.length_eq ▸ h.inside
  have hfill := h.stores.fill hin
  rw [h.hole] at hfill
  exact ⟨hin, hfill⟩

variable (ho : TotalOrder cmp)

include ho

theorem keyLe_refl (a : Node κ ω) : keyLe cmp a a := by
  have := ho.swap a.key a.key
  rw [keyLe]
  omega

theorem keyLe_trans (a b c : Node κ ω) (hab : keyLe cmp a b) (hbc : keyLe cmp b c) :
    keyLe cmp a c := ho.trans _ _ _ hab hbc

theorem keyLe_of_not_lt {a b : Node κ ω} (h : ¬ cmp a.key b.key < 0) : keyLe cmp b a := by
  have := ho.swap a.key b.key
  rw [keyLe]
  omega

private theorem siftUp_spec {fuel idx : Nat} (hfuel : idx < fuel) (h1 : 1 ≤ idx) (hn : idx ≤ n)
    (hlen : n < nodes.length) (hs : Stores nodes n v idx) (he : HeapExcept (keyLe cmp) n v idx)
    (hx : v idx = x) (hbelow : ∀ c, c ≤ n → c / 2 = idx → keyLe cmp x (v c)) :
    ∃ j nodes' w, siftUp cmp x.key fuel idx nodes = some (j, nodes') ∧
      Settled cmp n x nodes v j nodes' w := by
  induction fuel generalizing idx nodes v with
  | zero => omega
  | succ fuel ih =>
    have hstop : (2 ≤ idx → keyLe cmp (v (idx / 2)) x) → Settled cmp n x nodes v idx nodes v :=
      fun hup => settled_here (by omega) hs he hx hup hbelow
    rw [siftUp]
    by_cases hroot : idx / 2 = 0
    · rw [if_pos hroot]
      exact ⟨idx, nodes, v, rfl, hstop fun h2 => by omega⟩
    · have hparent := hs.load (by omega : 1 ≤ idx / 2) (by omega) (by omega)
      rw [if_neg hroot, hparent, bind_eq_bind, bind_some]
      by_cases hle : cmp (v (idx / 2)).key x.key ≤ 0
      · rw [if_pos hle]
        exact ⟨idx, nodes, v, rfl, hstop fun _ => hle⟩
      · have hlt : keyLe cmp x (v (idx / 2)) := keyLe_of_not_lt ho (by omega)
        rw [if_neg hle, store_eq (by omega), bind_eq_bind, bind_some]
        have hcell : ∀ c, c ≠ idx → c ≠ idx / 2 → (v ∘ swap idx (idx / 2)) c = v c :=
          fun c h h' => congrArg v (swap_apply_of_ne_of_ne h h')
        obtain ⟨j, nodes', w, hrun, hw⟩ := ih (by omega) (by omega) (by omega)
          (by rw [length_set]; exact hlen) (hs.move (by omega))
          (he.up (keyLe_trans ho) (by omega) hn)
          ((congrArg v (swap_apply_right _ _)).trans hx) (by
            intro c hc hpar
            by_cases hci : c = idx
            · rw [hci, comp_apply, swap_apply_left]
              exact hlt
            · rw [hcell c hci (by omega)]
              have hpc := he.elsewhere c (by omega) hc hci (by omega)
              rw [hpar] at hpc
              exact keyLe_trans ho _ _ _ hlt hpc)
        exact ⟨j, nodes', w, hrun, hw.of_moved h1 hn (by omega) (by omega)⟩

theorem least_of_one (hchild : i * 2 ≤ n) (hboth : ¬ i * 2 < n) :
    ∀ d, d ≤ n → d / 2 = i → keyLe cmp (v (i * 2)) (v d) := by
  intro d hd hpar
  rw [show d = i * 2 by omega]
  exact keyLe_refl ho _

theorem least_of_two (hboth : i * 2 < n)
    (hc : c = if cmp (v (i * 2 + 1)).key (v (i * 2)).key < 0 then i * 2 + 1 else i * 2) :
    c / 2 = i ∧ c ≤ n ∧ ∀ d, d ≤ n → d / 2 = i → keyLe cmp (v c) (v d) := by
  split at hc
  · next hlt =>
    subst hc
    refine ⟨by omega, hboth, ?_⟩
    intro d hd hpar
    rcases (by omega : d = i * 2 ∨ d = i * 2 + 1) with rfl | rfl
    · exact Int.le_of_lt hlt
    · exact keyLe_refl ho _
  · next hge =>
    subst hc
    refine ⟨by omega, by omega, ?_⟩
    intro d hd hpar
    rcases (by omega : d = i * 2 ∨ d = i * 2 + 1) with rfl | rfl
    · exact keyLe_refl ho _
    · exact keyLe_of_not_lt ho hge

private theorem smallerChild_spec (h1 : 1 ≤ i) (hchild : i * 2 ≤ n) (hs : Stores nodes n v i) :
    ∃ c, smallerChild cmp n (i * 2) nodes = some c ∧ c / 2 = i ∧ c ≤ n ∧
      ∀ d, d ≤ n → d / 2 = i → keyLe cmp (v c) (v d) := by
  rw [smallerChild]
  by_cases honly : i * 2 = n
  · rw [if_pos honly]
    exact ⟨i * 2, rfl, by omega, hchild, least_of_one ho hchild (by omega)⟩
  · have hright := hs.load (by omega : 1 ≤ i * 2 + 1) (by omega) (by omega)
    have hleft := hs.load (by omega : 1 ≤ i * 2) hchild (by omega)
    rw [if_neg honly, hright, hleft]
    exact ⟨_, rfl, least_of_two ho (by omega) rfl⟩

private theorem siftDown_spec {fuel : Nat} (hfuel : n + 1 < i + fuel) (h1 : 1 ≤ i) (hn : i ≤ n + 1)
    (hlast : nodes[n + 1]? = some (some x)) (hs : Stores nodes n v i)
    (he : HeapExcept (keyLe cmp) n v i) (hx : v i = x) (habove : 2 ≤ i → keyLe cmp (v (i / 2)) x) :
    ∃ j nodes' w, siftDown cmp (n + 1) n fuel i nodes = some (j, nodes') ∧
      nodes'[n + 1]? = some (some x) ∧ Settled cmp n x nodes v j nodes' w := by
  have hlen : n + 1 < nodes.length := (getElem?_eq_some_iff.mp hlast).1
  induction fuel generalizing i nodes v with
  | zero => omega
  | succ fuel ih =>
    have hstop : (∀ c, c ≤ n → c / 2 = i → keyLe cmp x (v c)) →
        Settled cmp n x nodes v i nodes v :=
      fun hdown => settled_here (by omega) hs he hx habove hdown
    rw [siftDown]
    by_cases hleaf : i * 2 ≤ n
    · obtain ⟨c, hsmaller, hpar, hc, hmin⟩ := smallerChild_spec ho h1 hleaf hs
      have hci : c ≠ i := by omega
      rw [if_pos hleaf, hsmaller, bind_eq_bind, bind_some, load_eq hlast,
        bind_eq_bind, bind_some, hs.load (by omega) hc hci, bind_eq_bind,
        bind_some]
      by_cases hge : 0 ≤ cmp x.key (v c).key
      · have hle : keyLe cmp (v c) x := keyLe_of_not_lt ho (by omega)
        rw [if_pos hge, store_eq (by omega), bind_some]
        have hat : (v ∘ swap i c) i = v c := congrArg v (swap_apply_left _ _)
        obtain ⟨j, nodes', w, hrun, hl, hw⟩ := ih (by omega) (by omega) (by omega)
          (by rw [getElem?_set_ne (by omega)]; exact hlast) (hs.move (by omega))
          (he.down hpar hc hmin) ((congrArg v (swap_apply_right _ _)).trans hx)
          (fun _ => by rw [hpar, hat]; exact hle) (by rw [length_set]; exact hlen)
        exact ⟨j, nodes', w, hrun, hl, hw.of_moved h1 (by omega) (by omega) hc⟩
      · rw [if_neg hge]
        refine ⟨i, nodes, v, rfl, hlast, hstop ?_⟩
        intro d hd hdi
        exact keyLe_trans ho _ _ _ (by rw [keyLe]; omega) (hmin d hd hdi)
    · rw [if_neg hleaf]
      exact ⟨i, nodes, v, rfl, hlast, hstop fun c hc hpar => by omega⟩

end Sift

structure Inv (cmp : Option κ → Option κ → Int) (h : Heap κ ω) : Prop where
  capacity_pos : 0 < h.capacity
  length_eq : h.nodes.length = h.capacity + 1
  size_le : h.size ≤ h.capacity
  stores : Stores h.nodes h.size (cell h) 0
  order : HeapOrder (keyLe cmp) h.size (cell h)

variable {cmp : Option κ → Option κ → Int} {h : Heap κ ω}

theorem Inv.ordered (hi : Inv cmp h) : Ordered cmp h where
  written := by
    intro i h1 hn
    rw [hi.stores.load h1 hn (by omega)]
    rfl
  order := hi.order

variable {v : Nat → Node κ ω} {capacity : Nat} {mem : Bool}

theorem cell_of_stores (hs : Stores h.nodes h.size v 0) :
    ∀ i, 1 ≤ i → i ≤ h.size → cell h i = v i := by
  intro i h1 hn
  rw [cell, hs.load h1 hn (by omega)]
  rfl

theorem pairs_of_stores (hs : Stores h.nodes h.size v 0) :
    pairs h = cells h.size v := cells_congr (cell_of_stores hs)

theorem inv_of_stores
    (hpos : 0 < h.capacity) (hlen : h.nodes.length = h.capacity + 1) (hle : h.size ≤ h.capacity)
    (hs : Stores h.nodes h.size v 0) (horder : HeapOrder (keyLe cmp) h.size v) : Inv cmp h where
  capacity_pos := hpos
  length_eq := hlen
  size_le := hle
  stores := by
    intro i h1 hn h0
    rw [cell_of_stores hs i h1 hn]
    exact hs i h1 hn h0
  order := by
    intro i h2 hn
    rw [cell_of_stores hs i (by omega) hn, cell_of_stores hs (i / 2) (by omega) (by omega)]
    exact horder i h2 hn

theorem length_mallocNodes (h : nodeSize * (capacity + 1) < 2 ^ 64) :
    (mallocNodes κ ω capacity).length = capacity + 1 :=
  length_mallocCells (by decide) h

private theorem copyNodes_spec (nodes newNodes : Nodes κ ω) {n : Nat} (hn : n < nodes.length)
    (hnew : n < newNodes.length) :
    ∃ r, copyNodes nodes n newNodes = some r ∧ r.length = newNodes.length ∧
      ∀ i, 1 ≤ i → i ≤ n → r[i]? = nodes[i]? := by
  obtain ⟨r, hr, hlen, hcopy⟩ := @copyCells_spec _ (fun i => nodes[i]?) 1 n newNodes (by omega)
    fun j hj => ⟨_, getElem?_eq_getElem (by omega)⟩
  refine ⟨r, hr, hlen, fun i h1 hi => ?_⟩
  have hi' := hcopy (i - 1) (by omega)
  rwa [Nat.add_sub_cancel' h1] at hi'

theorem ensureCapacity_spec (hi : Inv cmp h) (mem : Bool)
    (hfits : nodeSize * (capacity + 1) < 2 ^ 64) :
    ∃ ok h', h.ensureCapacity capacity mem = some (ok, h') ∧ Inv cmp h' ∧ (ok = false → h' = h) ∧
      (ok = true → capacity ≤ h'.capacity ∧ h'.size = h.size ∧ pairs h' = pairs h) := by
  rw [ensureCapacity]
  by_cases hle : capacity ≤ h.capacity
  · rw [if_pos hle]
    exact ⟨true, h, rfl, hi, fun _ => rfl, fun _ => ⟨hle, rfl, rfl⟩⟩
  · rw [if_neg hle]
    split
    · exact ⟨false, h, rfl, hi, fun _ => rfl, Bool.noConfusion⟩
    · have hnodes := hi.length_eq
      have hsize := hi.size_le
      have hlen := length_mallocNodes (κ := κ) (ω := ω) hfits
      obtain ⟨r, hr, hrlen, hcopy⟩ := copyNodes_spec h.nodes (mallocNodes κ ω capacity)
        (by omega : h.size < h.nodes.length) (by omega)
      have hs : Stores r h.size (cell h) 0 := by
        intro i h1 hn h0
        rw [hcopy i h1 hn]
        exact hi.stores i h1 hn h0
      rw [hr]
      refine ⟨true, ⟨capacity, h.size, r⟩, rfl, ?_, Bool.noConfusion, fun _ =>
        ⟨Nat.le_refl _, rfl, ?_⟩⟩
      · refine inv_of_stores (v := cell h) ?_ ?_ ?_ hs hi.order
        · change 0 < capacity
          omega
        · change r.length = capacity + 1
          omega
        · change h.size ≤ capacity
          omega
      · exact pairs_of_stores hs

theorem ensureCapacity_capacity {h h' : Heap κ ω} {ok : Bool}
    (he : h.ensureCapacity capacity mem = some (ok, h')) :
    h'.capacity = grownCapacity h.capacity capacity mem := by
  rw [ensureCapacity] at he
  rw [grownCapacity]
  split at he
  · cases he
    rw [if_neg (by omega)]
  · split at he
    · next hno =>
      cases he
      rw [if_neg]
      rintro ⟨_, hvalid, hmem⟩
      simp [hvalid, hmem] at hno
    · next hle hgrow =>
      obtain ⟨nodes, _, hn⟩ := bind_eq_some_iff.mp he
      cases hn
      rw [not_or, Bool.not_eq_false, Bool.not_eq_false] at hgrow
      rw [if_pos ⟨by omega, hgrow⟩]

theorem insert_capacity {h h' : Heap κ ω} {key : Option κ} {value : Option ω} {ok : Bool}
    (hi : h.insert cmp key value mem = some (ok, h')) : h'.capacity = if h.capacity = h.size then
      grownCapacity h.capacity (h.capacity * 2 % 2 ^ 64) mem else h.capacity := by
  obtain ⟨⟨grown, g⟩, hroom, hrest⟩ := bind_eq_some_iff.mp hi
  have hg : g.capacity = if h.capacity = h.size then
      grownCapacity h.capacity (h.capacity * 2 % 2 ^ 64) mem else h.capacity := by
    rw [makeRoom] at hroom
    split at hroom
    · next hfull =>
      rw [if_pos hfull]
      exact ensureCapacity_capacity hroom
    · next hfull =>
      cases hroom
      rw [if_neg hfull]
  have hsame : h'.capacity = g.capacity := by
    simp only [] at hrest
    split at hrest
    · cases hrest
      rfl
    · obtain ⟨⟨idx, nodes⟩, _, hrest⟩ := bind_eq_some_iff.mp hrest
      obtain ⟨nodes', _, hrest⟩ := bind_eq_some_iff.mp hrest
      cases hrest
      rfl
  rwa [hsame]

section Calls

variable {cmp : Option κ → Option κ → Int} (ho : TotalOrder cmp) {h : Heap κ ω}

include ho

theorem place_spec (hi : Inv cmp h) (hroom : h.size < h.capacity) (key : Option κ)
    (value : Option ω) :
    ∃ idx nodes nodes', siftUp cmp key (h.size + 2) (h.size + 1) h.nodes = some (idx, nodes) ∧
      store nodes idx ⟨key, value⟩ = some nodes' ∧
      Inv cmp { h with size := h.size + 1, nodes := nodes' } ∧
      pairs { h with size := h.size + 1, nodes := nodes' } = ⟨key, value⟩ ::ₘ pairs h := by
  have hlen := hi.length_eq
  obtain ⟨v, hv⟩ : ∃ v, v = update (cell h) (h.size + 1) ⟨key, value⟩ := ⟨_, rfl⟩
  have hlast : v (h.size + 1) = ⟨key, value⟩ := by rw [hv, update_self]
  have hkeep : ∀ i, i ≤ h.size → v i = cell h i := by
    intro i hle
    rw [hv, update_of_ne (by omega)]
  have hs : Stores h.nodes (h.size + 1) v (h.size + 1) := by
    intro i h1 hn hne
    rw [hkeep i (by omega)]
    exact hi.stores i h1 (by omega) (by omega)
  have he : HeapExcept (keyLe cmp) (h.size + 1) v (h.size + 1) := hv ▸ hi.order.snoc _
  obtain ⟨idx, nodes, w, hrun, hw⟩ := siftUp_spec ho (Nat.lt_succ_self (h.size + 1)) (by omega)
    (Nat.le_refl _) (by omega) hs he hlast (fun c hc hpar => by omega)
  obtain ⟨hin, hfill⟩ := hw.fill
  refine ⟨idx, nodes, nodes.set idx (some ⟨key, value⟩), hrun, store_eq hin _, ?_, ?_⟩
  · refine inv_of_stores hi.capacity_pos ?_ hroom hfill hw.order
    rw [length_set, hw.length_eq, hlen]
  · refine (pairs_of_stores hfill).trans ?_
    rw [hw.cells_eq, cells_succ, hlast, cells_congr fun i _ hle => hkeep i hle]
    rfl

omit ho in
private theorem makeRoom_spec (hi : Inv cmp h) (mem : Bool)
    (hfits : h.capacity = h.size → nodeSize * (h.capacity * 2 + 1) < 2 ^ 64) :
    ∃ ok h', h.makeRoom mem = some (ok, h') ∧ Inv cmp h' ∧ (ok = false → h' = h) ∧
      (ok = true → h'.size < h'.capacity ∧ pairs h' = pairs h) := by
  have hpos := hi.capacity_pos
  have hle := hi.size_le
  rw [makeRoom]
  split
  · next hfull =>
    have hfits' := hfits hfull
    have hmod : h.capacity * 2 % 2 ^ 64 = h.capacity * 2 := by
      rw [nodeSize] at hfits'
      omega
    rw [hmod]
    obtain ⟨ok, h', hgrow, hinv, hfail, hgrown⟩ := ensureCapacity_spec hi mem hfits'
    refine ⟨ok, h', hgrow, hinv, hfail, ?_⟩
    intro hok
    obtain ⟨hcap, hsize, hpairs⟩ := hgrown hok
    exact ⟨by omega, hpairs⟩
  · next hroom => exact ⟨true, h, rfl, hi, fun _ => rfl, fun _ => ⟨by omega, rfl⟩⟩

theorem insert_spec (hi : Inv cmp h) (key : Option κ) (value : Option ω) (mem : Bool)
    (hfits : h.capacity = h.size → nodeSize * (h.capacity * 2 + 1) < 2 ^ 64) :
    ∃ ok h', h.insert cmp key value mem = some (ok, h') ∧ Inv cmp h' ∧ (ok = false → h' = h) ∧
      (ok = true → pairs h' = ⟨key, value⟩ ::ₘ pairs h) := by
  obtain ⟨ok, g, hg, hig, hfail, hgrown⟩ := makeRoom_spec hi mem hfits
  rw [Heap.insert, hg, bind_eq_bind, bind_some]
  cases ok with
  | false => exact ⟨false, g, rfl, hig, hfail, Bool.noConfusion⟩
  | true =>
    obtain ⟨hroom, hpairs⟩ := hgrown rfl
    obtain ⟨idx, nodes, nodes', hrun, hstore, hinv, hp⟩ := place_spec ho hig hroom key value
    refine ⟨true, { g with size := g.size + 1, nodes := nodes' }, ?_, hinv, Bool.noConfusion, ?_⟩
    · change (siftUp cmp key (g.size + 2) (g.size + 1) g.nodes).bind _ = _
      rw [hrun, bind_some]
      change (store nodes idx ⟨key, value⟩).bind _ = _
      rw [hstore]
      rfl
    · intro _
      rw [hp, hpairs]

theorem extract_spec (hi : Inv cmp h) (hsize : h.size ≠ 0) :
    ∃ node h', h.extract cmp = some (some node, h') ∧ Inv cmp h' ∧ pairs h = node ::ₘ pairs h' ∧
      ∀ e ∈ pairs h, cmp node.key e.key ≤ 0 := by
  obtain ⟨n, hn⟩ : ∃ n, h.size = n + 1 := ⟨h.size - 1, by omega⟩
  have hlen := hi.length_eq
  have hle := hi.size_le
  have hs := hi.stores
  have horder := hi.order
  rw [hn] at hs horder
  obtain ⟨v, hv⟩ : ∃ v, v = cell h ∘ swap 1 (n + 1) := ⟨_, rfl⟩
  have hroot : v (n + 1) = cell h 1 := by rw [hv, comp_apply, swap_apply_right]
  have hfirst : v 1 = cell h (n + 1) := by rw [hv, comp_apply, swap_apply_left]
  have hsv : Stores h.nodes n v 1 := by
    intro i h1 hin hne
    rw [hv, comp_apply, swap_apply_of_ne_of_ne hne (by omega)]
    exact hs i h1 (by omega) (by omega)
  obtain ⟨j, nodes, w, hrun, hlast, hw⟩ := siftDown_spec ho (by omega : n + 1 < 1 + (n + 1))
    (Nat.le_refl 1) (by omega) (hs (n + 1) (by omega) (Nat.le_refl _) (by omega)) hsv
    (hv ▸ horder.popRoot) hfirst (fun h2 => by omega)
  obtain ⟨hin, hfill⟩ := hw.fill
  refine ⟨cell h 1, ⟨h.capacity, n, nodes.set j (some (cell h (n + 1)))⟩, ?_, ?_, ?_, ?_⟩
  · rw [extract, if_neg hsize, hs.load (Nat.le_refl 1) (by omega) (by omega), hn]
    change (siftDown cmp (n + 1) n (n + 1) 1 h.nodes).bind _ = _
    rw [hrun, bind_some]
    change (load nodes (n + 1)).bind _ = _
    rw [load_eq hlast, bind_some]
    rw [store_eq hin]
    rfl
  · refine inv_of_stores hi.capacity_pos ?_ ?_ hfill hw.order
    · rw [length_set, hw.length_eq, hlen]
    · change n ≤ h.capacity
      omega
  · have hpairs : pairs h = cells (n + 1) v := by
      rw [pairs, hn, hv, cells_swap (by omega) (by omega) (by omega) (by omega)]
    have hafter : pairs ⟨h.capacity, n, nodes.set j (some (cell h (n + 1)))⟩ = cells n w :=
      pairs_of_stores hfill
    rw [hpairs, cells_succ, hroot, ← hw.cells_eq, hafter]
  · intro e hmem
    obtain ⟨i, h1, hin', rfl⟩ := mem_cells.mp hmem
    exact hi.order.root_le (keyLe_refl ho) (keyLe_trans ho) h1 hin'

theorem call_spec (hi : Inv cmp h) (c : Call κ ω) (hfits : Fits h c) :
    ∃ r h', h.call cmp c = some (r, h') ∧ Inv cmp h' ∧ Meets cmp h h' c r := by
  cases c with
  | insert key value mem =>
    obtain ⟨ok, h', hins, hinv, hfail, hdone⟩ := insert_spec ho hi key value mem hfits
    refine ⟨.done ok, h', ?_, hinv, ?_⟩
    · rw [call, hins]
      rfl
    · cases ok with
      | false => exact .refused (hfail rfl)
      | true => exact .inserted (hdone rfl)
  | extract =>
    by_cases hsize : h.size = 0
    · refine ⟨.extracted none, h, ?_, hi, .empty ?_ rfl⟩
      · rw [call, extract, if_pos hsize]
        rfl
      · rw [pairs, hsize]
        rfl
    · obtain ⟨node, h', hext, hinv, hpairs, hmin⟩ := extract_spec ho hi hsize
      refine ⟨.extracted (some node), h', ?_, hinv, .extracted hpairs hmin⟩
      rw [call, hext]
      rfl
  | ensureCapacity capacity mem =>
    obtain ⟨ok, h', hens, hinv, hfail, hdone⟩ := ensureCapacity_spec hi mem hfits
    refine ⟨.done ok, h', ?_, hinv, ?_⟩
    · rw [call, hens]
      rfl
    · cases ok with
      | false => exact .notEnsured (hfail rfl)
      | true => exact .ensured (hdone rfl).2.2

private theorem step_inv {h' : Heap κ ω} {c : Call κ ω} (hi : Inv cmp h)
    (hs : guarded (step cmp) Fits h c = some h') : Inv cmp h' := by
  obtain ⟨hfits, hs⟩ := guarded_eq_some.mp hs
  obtain ⟨r, g, hcall, hinv, _⟩ := call_spec ho hi c hfits
  rw [step, hcall] at hs
  cases hs
  exact hinv

end Calls

theorem init_inv {capacity : BitVec 64} (hi : init (some cmp) capacity mem = some h)
    (hfits : nodeSize * (capacity.toNat + 1) < 2 ^ 64) : Inv cmp h := by
  obtain ⟨c, hc⟩ : ∃ c, c = if capacity.toNat = 0 then 8 else capacity.toNat := ⟨_, rfl⟩
  have hpos : 0 < c := by
    rw [hc]
    split
    · omega
    · omega
  have hfits' : nodeSize * (c + 1) < 2 ^ 64 := by
    rw [hc]
    split
    · decide
    · exact hfits
  simp only [init, ← hc] at hi
  split at hi
  · cases hi
  · cases hi
    refine inv_of_stores (v := fun _ => ⟨none, none⟩) hpos (length_mallocNodes hfits') (Nat.zero_le _)
      ?_ ?_
    · intro i h1 hn
      change i ≤ 0 at hn
      omega
    · intro i h2 hn
      change i ≤ 0 at hn
      omega

/-- In every run in which no size in bytes wraps around, the heap is in order, and every further call
returns, keeps the order and changes the pairs as it should. -/
theorem heap_sound (cmp : Option κ → Option κ → Int) (ho : TotalOrder cmp) (capacity : BitVec 64)
    (mem : Bool) (start : Heap κ ω) (hi : init (some cmp) capacity mem = some start)
    (hfits : nodeSize * (capacity.toNat + 1) < 2 ^ 64) (cs : List (Call κ ω)) (h : Heap κ ω)
    (hr : run (guarded (step cmp) Fits) start cs = some h) : Ordered cmp h ∧ ∀ c, Fits h c →
      ∃ r h', h.call cmp c = some (r, h') ∧ Ordered cmp h' ∧ Meets cmp h h' c r := by
  have hinv : Inv cmp h := run_invariant (fun _ _ _ => step_inv ho) (init_inv hi hfits) hr
  refine ⟨hinv.ordered, ?_⟩
  intro c hc
  obtain ⟨r, h', hcall, hinv', hmeets⟩ := call_spec ho hinv c hc
  exact ⟨r, h', hcall, hinv'.ordered, hmeets⟩

def byNumber : Option Nat → Option Nat → Int := difference Int.ofNat

theorem byNumber_total : TotalOrder byNumber := difference_total Int.ofNat

def someCalls : List (Call Nat Nat) :=
  [.insert (some 5) (some 50) true, .insert (some 3) none true, .insert (some 4) (some 40) true,
    .extract, .insert (some 1) (some 10) false]

theorem heap_sound_some_calls :
    ∃ h, run (guarded (step byNumber) Fits) ⟨1, 0, [none, none]⟩ someCalls = some h ∧
      Ordered byNumber h := by
  have hsome : (run (guarded (step byNumber) Fits) ⟨1, 0, [none, none]⟩ someCalls).isSome := by
    decide +kernel
  obtain ⟨h, hrun⟩ := Option.isSome_iff_exists.mp hsome
  exact ⟨h, hrun, (heap_sound byNumber byNumber_total 1#64 true ⟨1, 0, [none, none]⟩
    (by decide +kernel) (by decide) someCalls h hrun).1⟩

/-- The size in bytes of `2 ^ 60 + 1` nodes wraps around to that of one node, and the first
insertion writes behind it. -/
theorem wrapped_size_insert_outside :
    ∃ h : Heap Nat Nat, init (some byNumber) (BitVec.ofNat 64 (2 ^ 60)) true = some h ∧
      h.insert byNumber (some 1) none true = none :=
  ⟨⟨2 ^ 60, 0, [none]⟩, by decide +kernel, by decide +kernel⟩

end MuggleC.Dsaa.HeapRuns
