/- source: dsaa/heap.c
   digest: The removal of any node of the heap: its loop, what it leaves and which keys it compares. -/

import MuggleC.Dsaa.Heap

set_option autoImplicit false

/-! The loop of `muggle_heap_remove` can go up and then down. It reads the moved node through a
pointer to the last slot in each turn; when the removed node is the last one, that slot has been
cleared before, and the first move up writes to it. -/

namespace MuggleC.Dsaa

open Foundation.CellArray Function List Option Equiv

namespace Heap

variable {κ ω : Type}

abbrev Compared (κ : Type) := Option κ × Option κ

/-- The part of a turn that moves up: the comparison that it makes and, if it moves, where it goes. -/
def moveUp (cmp : Option κ → Option κ → Int) (last idx : Nat) (nodes : Nodes κ ω) :
    Option (List (Compared κ) × Option (Nat × Nodes κ ω)) :=
  let parentIdx := idx / 2
  if parentIdx ≠ 0 then do
    let parent ← load nodes parentIdx
    let lastNode ← load nodes last
    if cmp lastNode.key parent.key < 0 then
      let nodes ← store nodes idx parent
      some ([(lastNode.key, parent.key)], some (parentIdx, nodes))
    else some ([(lastNode.key, parent.key)], none)
  else some ([], none)

def pickChild (cmp : Option κ → Option κ → Int) (size childIdx : Nat) (nodes : Nodes κ ω) :
    Option (List (Compared κ) × Nat) :=
  if childIdx < size then do
    let right ← load nodes (childIdx + 1)
    let left ← load nodes childIdx
    some ([(right.key, left.key)], if cmp right.key left.key < 0 then childIdx + 1 else childIdx)
  else some ([], childIdx)

def percolate (cmp : Option κ → Option κ → Int) (last size idx : Nat) (nodes : Nodes κ ω) :
    Option (List (Compared κ) × Option (Nat × Nodes κ ω)) :=
  let childIdx := idx * 2
  if childIdx ≤ size then do
    let (calls, childIdx) ← pickChild cmp size childIdx nodes
    let lastNode ← load nodes last
    let child ← load nodes childIdx
    let calls := calls ++ [(lastNode.key, child.key)]
    if 0 ≤ cmp lastNode.key child.key then
      let nodes ← store nodes idx child
      some (calls, some (childIdx, nodes))
    else some (calls, none)
  else some ([], none)

/-- One turn of the loop; it is the last one if there is no place to go on at. -/
def removeTurn (cmp : Option κ → Option κ → Int) (last size idx : Nat) (nodes : Nodes κ ω) :
    Option (List (Compared κ) × Option (Nat × Nodes κ ω)) := do
  let (calls, next) ← moveUp cmp last idx nodes
  match next with
  | some next => some (calls, some next)
  | none =>
    let (calls', next) ← percolate cmp last size idx nodes
    some (calls ++ calls', next)

/-- The loop of `muggle_heap_remove` for so many turns at most. The place where it ends is `none`
while it is still running. -/
def removeLoop (cmp : Option κ → Option κ → Int) (last size : Nat) :
    Nat → Nat → Nodes κ ω → Option (List (Compared κ) × Option (Nat × Nodes κ ω))
  | 0, _, _ => some ([], none)
  | turns + 1, idx, nodes => do
    let (calls, next) ← removeTurn cmp last size idx nodes
    match next with
    | none => some (calls, some (idx, nodes))
    | some (idx, nodes) =>
      let (calls', stop) ← removeLoop cmp last size turns idx nodes
      some (calls ++ calls', stop)

/-- What `muggle_heap_remove` has done: the calls of the comparator, the arguments of the two free
functions, and the result with the heap, once the loop has ended. -/
structure Removal (κ ω : Type) where
  calls : List (Compared κ)
  freedKeys : List κ
  freedValues : List ω
  outcome : Option (Bool × Heap κ ω)
  deriving DecidableEq, Repr

/-- `muggle_heap_remove` for the node at the distance `tmp` from the first one. The two flags tell
whether there are free functions. -/
def remove (cmp : Option κ → Option κ → Int) (keyFree valueFree : Bool) (turns : Nat)
    (h : Heap κ ω) (tmp : Int) : Option (Removal κ ω) :=
  if h.size = 0 ∨ tmp ≤ 0 ∨ (h.size : Int) < tmp then some ⟨[], [], [], some (false, h)⟩
  else do
    let idx := tmp.toNat
    let node ← load h.nodes idx
    let freedKeys := if keyFree then node.key.toList else []
    let freedValues := if valueFree then node.value.toList else []
    let nodes ← store h.nodes idx ⟨none, none⟩
    let last := h.size
    let size := h.size - 1
    let (calls, stop) ← removeLoop cmp last size turns idx nodes
    match stop with
    | none => some ⟨calls, freedKeys, freedValues, none⟩
    | some (idx, nodes) =>
      let lastNode ← load nodes last
      let nodes ← store nodes idx lastNode
      some ⟨calls, freedKeys, freedValues, some (true, { h with size := size, nodes := nodes })⟩

end Heap

namespace HeapRemove

open Foundation.BinaryHeap Foundation.CellArray Foundation.OrderedMap Heap HeapRuns

variable {κ ω : Type}

section Evaluation

variable {cmp : Option κ → Option κ → Int} {last size idx c : Nat} {nodes : Nodes κ ω}
  {calls calls' : List (Compared κ)} {parent child lastNode : Node κ ω}
  {next : Option (Nat × Nodes κ ω)}

variable (cmp) in
theorem moveUp_eq (hroot : idx / 2 ≠ 0) (hp : load nodes (idx / 2) = some parent)
    (hl : load nodes last = some lastNode) (hidx : idx < nodes.length) :
    moveUp cmp last idx nodes = some ([(lastNode.key, parent.key)],
      if cmp lastNode.key parent.key < 0 then some (idx / 2, nodes.set idx (some parent)) else none) := by
  unfold moveUp
  rw [if_pos hroot, hp, bind_eq_bind, bind_some, hl, bind_eq_bind,
    bind_some, store_eq hidx]
  split <;> rfl

theorem percolate_eq (hle : idx * 2 ≤ size)
    (hpick : pickChild cmp size (idx * 2) nodes = some (calls, c))
    (hl : load nodes last = some lastNode) (hc : load nodes c = some child)
    (hidx : idx < nodes.length) :
    percolate cmp last size idx nodes = some (calls ++ [(lastNode.key, child.key)],
      if 0 ≤ cmp lastNode.key child.key then some (c, nodes.set idx (some child)) else none) := by
  unfold percolate
  rw [if_pos hle, hpick, bind_eq_bind, bind_some]
  dsimp only
  rw [hl, bind_eq_bind, bind_some, hc, bind_eq_bind, bind_some,
    store_eq hidx]
  split <;> rfl

theorem removeTurn_of_up {place : Nat × Nodes κ ω}
    (hup : moveUp cmp last idx nodes = some (calls, some place)) :
    removeTurn cmp last size idx nodes = some (calls, some place) := by
  rw [removeTurn, hup, bind_eq_bind, bind_some]

theorem removeTurn_of_down (hup : moveUp cmp last idx nodes = some (calls, none))
    (hdown : percolate cmp last size idx nodes = some (calls', next)) :
    removeTurn cmp last size idx nodes = some (calls ++ calls', next) := by
  rw [removeTurn, hup, bind_eq_bind, bind_some, hdown]
  rfl

theorem removeLoop_of_stop (hturn : removeTurn cmp last size idx nodes = some (calls, none))
    (turns : Nat) :
    removeLoop cmp last size (turns + 1) idx nodes = some (calls, some (idx, nodes)) := by
  rw [removeLoop, hturn, bind_eq_bind, bind_some]

theorem removeLoop_of_go {nodes' : Nodes κ ω} {turns : Nat}
    (hturn : removeTurn cmp last size idx nodes = some (calls, some (c, nodes')))
    (hrun : removeLoop cmp last size turns c nodes' = some (calls', next)) :
    removeLoop cmp last size (turns + 1) idx nodes = some (calls ++ calls', next) := by
  rw [removeLoop, hturn, bind_eq_bind, bind_some]
  dsimp only
  rw [hrun, bind_some]

end Evaluation

structure Agrees (cmp order : Option κ → Option κ → Int) (n : Nat) (v : Nat → Node κ ω) : Prop where
  total : TotalOrder order
  same : ∀ a ∈ cells n v, ∀ b ∈ cells n v, cmp a.key b.key = order a.key b.key

/-- The array around a turn: the moved node is in the slot behind the heap, and its place in the heap
is a hole. -/
structure Sifting (order : Option κ → Option κ → Int) (n idx : Nat) (x : Node κ ω)
    (nodes : Nodes κ ω) (v : Nat → Node κ ω) : Prop where
  pos : 1 ≤ idx
  le : idx ≤ n
  last : nodes[n + 1]? = some (some x)
  stores : Stores nodes n v idx
  except : HeapExcept (keyLe order) n v idx
  hole : v idx = x

section Turn

variable {cmp order : Option κ → Option κ → Int} {n idx : Nat} {x : Node κ ω} {nodes : Nodes κ ω}
  {v : Nat → Node κ ω}

theorem Sifting.length (h : Sifting order n idx x nodes v) : n + 1 < nodes.length :=
  (List.getElem?_eq_some_iff.mp h.last).1

variable {i : Nat} {calls : List (Compared κ)}

theorem cell_mem (h1 : 1 ≤ i) (hn : i ≤ n) : v i ∈ cells n v :=
  mem_cells.mpr ⟨i, h1, hn, rfl⟩

theorem Agrees.swap (h : Agrees cmp order n v) {j : Nat} (hi : 1 ≤ i) (hin : i ≤ n) (hj : 1 ≤ j)
    (hjn : j ≤ n) : Agrees cmp order n (v ∘ swap i j) := by
  refine ⟨h.total, ?_⟩
  rw [cells_swap hi hin hj hjn]
  exact h.same

theorem Agrees.moved (h : Agrees cmp order n v) (hs : Sifting order n idx x nodes v)
    (h1 : 1 ≤ i) (hn : i ≤ n) : cmp x.key (v i).key = order x.key (v i).key := by
  rw [← hs.hole]
  exact h.same _ (cell_mem hs.pos hs.le) _ (cell_mem h1 hn)

variable (ha : Agrees cmp order n v) (hs : Sifting order n idx x nodes v)

include ha hs

private theorem moveUp_spec :
    ∃ calls, (2 ≤ idx ∧ order x.key (v (idx / 2)).key < 0 ∧ moveUp cmp (n + 1) idx nodes =
          some (calls, some (idx / 2, nodes.set idx (some (v (idx / 2)))))) ∨
      ((2 ≤ idx → keyLe order (v (idx / 2)) x) ∧ moveUp cmp (n + 1) idx nodes = some (calls, none)) := by
  have hlen := hs.length
  have hle := hs.le
  by_cases hroot : idx / 2 = 0
  · exact ⟨[], .inr ⟨fun h2 => by omega, if_neg (not_not_intro hroot)⟩⟩
  · have heval := moveUp_eq cmp hroot (hs.stores.load (by omega) (by omega) (by omega))
      (load_eq hs.last) (by omega)
    rw [ha.moved hs (by omega) (by omega)] at heval
    by_cases hlt : order x.key (v (idx / 2)).key < 0
    · rw [if_pos hlt] at heval
      exact ⟨_, .inl ⟨by omega, hlt, heval⟩⟩
    · rw [if_neg hlt] at heval
      exact ⟨_, .inr ⟨fun _ => keyLe_of_not_lt ha.total hlt, heval⟩⟩

private theorem pickChild_spec (hchild : idx * 2 ≤ n) :
    ∃ calls c, pickChild cmp n (idx * 2) nodes = some (calls, c) ∧ c / 2 = idx ∧ c ≤ n ∧
      ∀ d, d ≤ n → d / 2 = idx → keyLe order (v c) (v d) := by
  have hpos := hs.pos
  unfold pickChild
  by_cases hboth : idx * 2 < n
  · have hright := hs.stores.load (by omega : 1 ≤ idx * 2 + 1) (by omega) (by omega)
    have hleft := hs.stores.load (by omega : 1 ≤ idx * 2) (by omega) (by omega)
    have hsame := ha.same _ (cell_mem (v := v) (by omega : 1 ≤ idx * 2 + 1) (by omega)) _
      (cell_mem (v := v) (by omega : 1 ≤ idx * 2) (by omega))
    rw [if_pos hboth, hright, hleft, bind_eq_bind, bind_some, bind_some, hsame]
    exact ⟨_, _, rfl, least_of_two ha.total hboth rfl⟩
  · rw [if_neg hboth]
    exact ⟨_, _, rfl, by omega, hchild, least_of_one ha.total hchild hboth⟩

private theorem percolate_spec :
    ∃ calls, (∃ c, c / 2 = idx ∧ c ≤ n ∧ (∀ d, d ≤ n → d / 2 = idx → keyLe order (v c) (v d)) ∧
        keyLe order (v c) x ∧
        percolate cmp (n + 1) n idx nodes = some (calls, some (c, nodes.set idx (some (v c))))) ∨
      ((∀ d, d ≤ n → d / 2 = idx → order x.key (v d).key < 0) ∧
        percolate cmp (n + 1) n idx nodes = some (calls, none)) := by
  have hlen := hs.length
  have hpos := hs.pos
  by_cases hleaf : idx * 2 ≤ n
  · obtain ⟨calls, c, hpick, hpar, hc, hmin⟩ := pickChild_spec ha hs hleaf
    have heval := percolate_eq hleaf hpick (load_eq hs.last)
      (hs.stores.load (by omega) hc (by omega)) (by omega)
    rw [ha.moved hs (by omega) hc] at heval
    by_cases hge : 0 ≤ order x.key (v c).key
    · rw [if_pos hge] at heval
      exact ⟨_, .inl ⟨c, hpar, hc, hmin, keyLe_of_not_lt ha.total (by omega), heval⟩⟩
    · rw [if_neg hge] at heval
      refine ⟨_, .inr ⟨fun d hd hdi => ?_, heval⟩⟩
      exact ha.total.lt_of_lt_of_le (by omega) (hmin d hd hdi)
  · exact ⟨[], .inr ⟨fun d hd hdi => by omega, if_neg hleaf⟩⟩

theorem removeTurn_spec :
    ∃ calls, (2 ≤ idx ∧ order x.key (v (idx / 2)).key < 0 ∧ removeTurn cmp (n + 1) n idx nodes =
          some (calls, some (idx / 2, nodes.set idx (some (v (idx / 2)))))) ∨
      ((2 ≤ idx → keyLe order (v (idx / 2)) x) ∧
        ((∃ c, c / 2 = idx ∧ c ≤ n ∧ (∀ d, d ≤ n → d / 2 = idx → keyLe order (v c) (v d)) ∧
            keyLe order (v c) x ∧
            removeTurn cmp (n + 1) n idx nodes = some (calls, some (c, nodes.set idx (some (v c))))) ∨
          ((∀ d, d ≤ n → d / 2 = idx → order x.key (v d).key < 0) ∧
            removeTurn cmp (n + 1) n idx nodes = some (calls, none)))) := by
  obtain ⟨calls, ⟨h2, hlt, hup⟩ | ⟨habove, hup⟩⟩ := moveUp_spec ha hs
  · exact ⟨calls, .inl ⟨h2, hlt, removeTurn_of_up hup⟩⟩
  · obtain ⟨calls', ⟨c, hpar, hc, hmin, hle, hgo⟩ | ⟨hbelow, hstop⟩⟩ := percolate_spec ha hs
    · exact ⟨_, .inr ⟨habove, .inl ⟨c, hpar, hc, hmin, hle, removeTurn_of_down hup hgo⟩⟩⟩
    · exact ⟨_, .inr ⟨habove, .inr ⟨hbelow, removeTurn_of_down hup hstop⟩⟩⟩

omit ha hs

variable (cmp order n) in
def Finishes (idx : Nat) (x : Node κ ω) (nodes : Nodes κ ω) (v : Nat → Node κ ω) : Prop :=
  ∃ bound calls j nodes' w,
    (∀ turns, bound ≤ turns →
      removeLoop cmp (n + 1) n turns idx nodes = some (calls, some (j, nodes'))) ∧
    nodes'[n + 1]? = some (some x) ∧ Settled order n x nodes v j nodes' w

theorem finishes_of_stop (hs : Sifting order n idx x nodes v)
    (hturn : removeTurn cmp (n + 1) n idx nodes = some (calls, none))
    (hup : 2 ≤ idx → keyLe order (v (idx / 2)) x)
    (hdown : ∀ d, d ≤ n → d / 2 = idx → order x.key (v d).key < 0) :
    Finishes cmp order n idx x nodes v := by
  have hlen := hs.length
  have hle := hs.le
  refine ⟨1, calls, idx, nodes, v, ?_, hs.last, settled_here (by omega) hs.stores hs.except hs.hole
    hup fun d hd hdi => Int.le_of_lt (hdown d hd hdi)⟩
  intro turns hturns
  obtain ⟨t, rfl⟩ : ∃ t, turns = t + 1 := ⟨turns - 1, by omega⟩
  exact removeLoop_of_stop hturn t

theorem finishes_of_go (hs : Sifting order n idx x nodes v) {c : Nat} (h1 : 1 ≤ c) (hc : c ≤ n)
    (hturn : removeTurn cmp (n + 1) n idx nodes = some (calls, some (c, nodes.set idx (some (v c)))))
    (hnext : Finishes cmp order n c x (nodes.set idx (some (v c))) (v ∘ swap idx c)) :
    Finishes cmp order n idx x nodes v := by
  obtain ⟨bound, calls', j, nodes', w, hrun, hlast, hset⟩ := hnext
  refine ⟨bound + 1, calls ++ calls', j, nodes', w, ?_, hlast, hset.of_moved hs.pos hs.le h1 hc⟩
  intro turns hturns
  obtain ⟨t, rfl⟩ : ∃ t, turns = t + 1 := ⟨turns - 1, by omega⟩
  exact removeLoop_of_go hturn (hrun t (by omega))

theorem Sifting.move (hs : Sifting order n idx x nodes v) {c : Nat} (h1 : 1 ≤ c) (hc : c ≤ n)
    (he : HeapExcept (keyLe order) n (v ∘ swap idx c) c) :
    Sifting order n c x (nodes.set idx (some (v c))) (v ∘ swap idx c) := by
  have hlen := hs.length
  have hle := hs.le
  refine ⟨h1, hc, ?_, hs.stores.move (by omega), he,
    (congrArg v (swap_apply_right _ _)).trans hs.hole⟩
  rw [getElem?_set_ne (by omega)]
  exact hs.last

variable (ha : Agrees cmp order n v) (hs : Sifting order n idx x nodes v)

include ha hs

theorem below_of_up (h2 : 2 ≤ idx) (hlt : order x.key (v (idx / 2)).key < 0) (d : Nat) (hd : d ≤ n)
    (hpar : d / 2 = idx / 2) : order x.key ((v ∘ swap idx (idx / 2)) d).key < 0 := by
  by_cases hdi : d = idx
  · rw [hdi, comp_apply, swap_apply_left]
    exact hlt
  · rw [comp_apply, swap_apply_of_ne_of_ne hdi (by omega)]
    have hpc := hs.except.elsewhere d (by omega) hd hdi (by omega)
    rw [hpar] at hpc
    exact ha.total.lt_of_lt_of_le hlt hpc

private theorem finishes_up (hbelow : ∀ d, d ≤ n → d / 2 = idx → order x.key (v d).key < 0) :
    Finishes cmp order n idx x nodes v := by
  induction idx using Nat.strong_induction_on generalizing nodes v with
  | h idx ih =>
    have hn := hs.le
    obtain ⟨calls, ⟨h2, hlt, hturn⟩ | ⟨habove, ⟨c, hpar, hc, _, hle, _⟩ | ⟨_, hturn⟩⟩⟩ :=
      removeTurn_spec ha hs
    · have hmove := hs.move (by omega : 1 ≤ idx / 2) (by omega)
        (hs.except.up (keyLe_trans ha.total) h2 hn)
      exact finishes_of_go hs (by omega) (by omega) hturn
        (ih (idx / 2) (by omega) (ha.swap hs.pos hn (by omega) (by omega)) hmove
          (below_of_up ha hs h2 hlt))
    · have hlt := hbelow c hc hpar
      have := ha.total.swap x.key (v c).key
      rw [keyLe] at hle
      omega
    · exact finishes_of_stop hs hturn habove hbelow

private theorem finishes_down
    (habove : 2 ≤ idx → keyLe order (v (idx / 2)) x) : Finishes cmp order n idx x nodes v := by
  induction hk : n - idx using Nat.strong_induction_on generalizing idx nodes v with
  | h k ih =>
    have hn := hs.le
    have hpos := hs.pos
    obtain ⟨calls, ⟨h2, hlt, _⟩ | ⟨_, ⟨c, hpar, hc, hmin, hle, hturn⟩ | ⟨hbelow, hturn⟩⟩⟩ :=
      removeTurn_spec ha hs
    · have hle := habove h2
      have := ha.total.swap x.key (v (idx / 2)).key
      rw [keyLe] at hle
      omega
    · have hmove := hs.move (by omega : 1 ≤ c) hc (hs.except.down hpar hc hmin)
      refine finishes_of_go hs (by omega) hc hturn
        (ih (n - c) (by omega) (ha.swap hpos hn (by omega) hc) hmove ?_ rfl)
      intro _
      rw [hpar, comp_apply, swap_apply_left]
      exact hle
    · exact finishes_of_stop hs hturn habove hbelow

theorem Sifting.finishes : Finishes cmp order n idx x nodes v := by
  by_cases hup : 2 ≤ idx ∧ order x.key (v (idx / 2)).key < 0
  · obtain ⟨h2, hlt⟩ := hup
    apply finishes_up ha hs
    intro d hd hpar
    have hacross := hs.except.across d h2 hd hpar
    exact ha.total.lt_of_lt_of_le hlt hacross
  · exact finishes_down ha hs fun h2 => keyLe_of_not_lt ha.total fun hlt => hup ⟨h2, hlt⟩

end Turn

section Call

variable {cmp order : Option κ → Option κ → Int} {h : Heap κ ω} {n : Nat} {v : Nat → Node κ ω}
  {nodes : Nodes κ ω} {idx : Nat} {calls : List (Compared κ)}

theorem Agrees.of_le {w : Nat → Node κ ω} {m : Nat} (ha : Agrees cmp order m v)
    (hsub : cells n w ≤ cells m v) : Agrees cmp order n w :=
  ⟨ha.total, fun a hma b hmb =>
    ha.same a (Multiset.mem_of_le hsub hma) b (Multiset.mem_of_le hsub hmb)⟩

theorem Agrees.heapOrder (ha : Agrees cmp order n v) :
    HeapOrder (keyLe cmp) n v ↔ HeapOrder (keyLe order) n v := by
  have hsame : ∀ i, 2 ≤ i → i ≤ n → (keyLe cmp (v (i / 2)) (v i) ↔ keyLe order (v (i / 2)) (v i)) := by
    intro i h2 hn
    rw [keyLe, keyLe, ha.same _ (cell_mem (by omega) (by omega)) _ (cell_mem (by omega) hn)]
  exact ⟨fun ho i h2 hn => (hsame i h2 hn).mp (ho i h2 hn),
    fun ho i h2 hn => (hsame i h2 hn).mpr (ho i h2 hn)⟩

theorem exists_agrees (ho : TotalOrder fun a b : {k // ∃ e ∈ pairs h, e.key = k} => cmp a.1 b.1) :
    ∃ order, Agrees cmp order h.size (cell h) := by
  obtain ⟨order, htotal, hsame⟩ := exists_totalOrder ho
  exact ⟨order, htotal, fun a ha b hb => hsame _ _ ⟨a, ha, rfl⟩ ⟨b, hb, rfl⟩⟩

theorem stores_of_written (hw : ∀ i, 1 ≤ i → i ≤ h.size → (load h.nodes i).isSome) :
    Stores h.nodes h.size (cell h) 0 := by
  intro i h1 hn _
  obtain ⟨x, hx⟩ := isSome_iff_exists.mp (hw i h1 hn)
  rw [cell, hx, getD_some]
  cases hget : h.nodes[i]? with
  | none => simp [load, hget] at hx
  | some y =>
    rw [load, hget] at hx
    rw [show y = some x from hx]

theorem ordered_of_stores {w : Nat → Node κ ω} (ha : Agrees cmp order n v) (hs : Stores nodes n w 0)
    (horder : HeapOrder (keyLe order) n w) (hcells : cells n w = cells n v) :
    Ordered cmp ⟨h.capacity, n, nodes⟩ ∧ pairs ⟨h.capacity, n, nodes⟩ = cells n v := by
  have hcell := cell_of_stores (h := ⟨h.capacity, n, nodes⟩) hs
  have hw := (ha.of_le hcells.le).heapOrder.mpr horder
  refine ⟨⟨?_, ?_⟩, (pairs_of_stores (h := ⟨h.capacity, n, nodes⟩) hs).trans hcells⟩
  · intro i h1 hn
    rw [hs.load h1 hn (by omega)]
    rfl
  · intro i h2 hn
    rw [hcell i (by omega) hn, hcell (i / 2) (by omega) (Nat.le_trans (Nat.div_le_self i 2) hn)]
    exact hw i h2 hn

theorem remove_eq (keyFree valueFree : Bool) {turns : Nat}
    {stop : Option (Nat × Nodes κ ω)} (hn : h.size = n + 1) (h1 : 1 ≤ idx)
    (hle : idx ≤ n + 1) (hs : Stores h.nodes (n + 1) (cell h) 0)
    (hrun : removeLoop cmp (n + 1) n turns idx (h.nodes.set idx (some ⟨none, none⟩)) =
      some (calls, stop))
    (hstop : ∀ j nodes, stop = some (j, nodes) →
      j < nodes.length ∧ ∃ x, nodes[n + 1]? = some (some x)) :
    ∃ r, remove cmp keyFree valueFree turns h idx = some r ∧ r.calls = calls ∧
      ∀ j nodes x, stop = some (j, nodes) → nodes[n + 1]? = some (some x) →
        r.outcome = some (true, ⟨h.capacity, n, nodes.set j (some x)⟩) := by
  have hin : idx < h.nodes.length := (List.getElem?_eq_some_iff.mp (hs idx h1 hle (by omega))).1
  have hgo : ¬ (h.size = 0 ∨ (idx : Int) ≤ 0 ∨ (h.size : Int) < idx) := by omega
  unfold remove
  rw [if_neg hgo]
  dsimp only
  rw [Int.toNat_natCast, hs.load h1 hle (by omega), bind_eq_bind, bind_some,
    store_eq hin, bind_eq_bind, bind_some, hn, Nat.add_sub_cancel, hrun,
    bind_eq_bind, bind_some]
  cases stop with
  | none => exact ⟨_, rfl, rfl, fun _ _ _ he => by cases he⟩
  | some place =>
    obtain ⟨j, nodes⟩ := place
    obtain ⟨hj, x, hx⟩ := hstop j nodes rfl
    dsimp only
    rw [load_eq hx, bind_some, store_eq hj]
    refine ⟨_, rfl, rfl, ?_⟩
    intro j' nodes' x' he hx'
    cases he
    rw [hx] at hx'
    cases hx'
    rfl

/-- The removal ends with this heap in as much memory, in heap order with the removed pair missing. -/
structure RemovesTo (cmp : Option κ → Option κ → Int) (keyFree valueFree : Bool) (h : Heap κ ω)
    (idx bound : Nat) (h' : Heap κ ω) : Prop where
  ends : ∀ turns, bound ≤ turns → ∃ r, remove cmp keyFree valueFree turns h idx = some r ∧
    r.outcome = some (true, h')
  ordered : Ordered cmp h'
  pairs_eq : pairs h = cell h idx ::ₘ pairs h'
  room : h'.capacity = h.capacity ∧ h'.size + 1 = h.size ∧ h'.nodes.length = h.nodes.length

def Removes (cmp : Option κ → Option κ → Int) (keyFree valueFree : Bool) (h : Heap κ ω) (idx : Nat) :
    Prop :=
  ∃ bound h', RemovesTo cmp keyFree valueFree h idx bound h'

section Outcome

variable (keyFree valueFree : Bool) (hn : h.size = n + 1)
  (hs : Stores h.nodes (n + 1) (cell h) 0)

include hn hs

theorem removesTo_of_loop (h1 : 1 ≤ idx) (hle : idx ≤ n + 1) {bound j : Nat} {x : Node κ ω}
    {w : Nat → Node κ ω}
    (hrun : ∀ turns, bound ≤ turns → ∃ calls, removeLoop cmp (n + 1) n turns idx
      (h.nodes.set idx (some ⟨none, none⟩)) = some (calls, some (j, nodes)))
    (hlast : nodes[n + 1]? = some (some x)) (hlen : nodes.length = h.nodes.length)
    (hj : j < nodes.length) (ha : Agrees cmp order n v) (hfill : Stores (nodes.set j (some x)) n w 0)
    (horder : HeapOrder (keyLe order) n w) (hcells : cells n w = cells n v)
    (hpair : cells (n + 1) (cell h) = cell h idx ::ₘ cells n v) :
    RemovesTo cmp keyFree valueFree h idx bound ⟨h.capacity, n, nodes.set j (some x)⟩ := by
  obtain ⟨hordered, hpairs⟩ := ordered_of_stores (h := h) ha hfill horder hcells
  refine ⟨fun turns ht => ?_, hordered, ?_, rfl, hn.symm, ?_⟩
  · obtain ⟨calls, hloop⟩ := hrun turns ht
    obtain ⟨r, hr, _, hout⟩ := remove_eq keyFree valueFree hn h1 hle hs hloop
      (fun j' nodes' he => by cases he; exact ⟨hj, x, hlast⟩)
    exact ⟨r, hr, hout j nodes x rfl hlast⟩
  · rw [hpairs, pairs, hn, hpair]
  · rw [length_set, hlen]

theorem removes_inner (h1 : 1 ≤ idx) (hle : idx ≤ n) (ha : Agrees cmp order (n + 1) (cell h))
    (ho : HeapOrder (keyLe order) (n + 1) (cell h)) :
    Removes cmp keyFree valueFree h idx := by
  obtain ⟨v, hv⟩ : ∃ v, v = cell h ∘ swap idx (n + 1) := ⟨_, rfl⟩
  have hcells : cells (n + 1) (cell h) = cell h idx ::ₘ cells n v := by
    rw [← cells_swap (v := cell h) h1 (by omega : idx ≤ n + 1) (by omega : 1 ≤ n + 1) (Nat.le_refl _),
      ← hv, cells_succ, hv, comp_apply, swap_apply_right]
  have hav : Agrees cmp order n v := ha.of_le (hcells ▸ Multiset.le_cons_self _ _)
  have hsift : Sifting order n idx (cell h (n + 1)) (h.nodes.set idx (some ⟨none, none⟩)) v := by
    refine ⟨h1, hle, ?_, ?_, hv ▸ ho.popAt (keyLe_trans ha.total) hle, ?_⟩
    · rw [getElem?_set_ne (by omega)]
      exact hs (n + 1) (by omega) (Nat.le_refl _) (by omega)
    · intro i hi hin hne
      rw [getElem?_set_ne (Ne.symm hne), hv, comp_apply,
        swap_apply_of_ne_of_ne hne (by omega)]
      exact hs i hi (by omega) (by omega)
    · rw [hv, comp_apply, swap_apply_left]
  obtain ⟨bound, calls, j, nodes, w, hrun, hlast, hset⟩ := hsift.finishes hav
  obtain ⟨hj, hfill⟩ := hset.fill
  exact ⟨bound, _, removesTo_of_loop keyFree valueFree hn hs h1 (by omega)
    (fun turns ht => ⟨calls, hrun turns ht⟩) hlast
    (hset.length_eq.trans length_set) hj hav hfill hset.order hset.cells_eq hcells⟩

omit hn

variable (cmp) in
theorem moveUp_cleared (h0 : n ≠ 0) (hlen : n + 1 < h.nodes.length) :
    moveUp cmp (n + 1) (n + 1) (h.nodes.set (n + 1) (some ⟨none, none⟩)) =
      some ([(none, (cell h ((n + 1) / 2)).key)], if cmp none (cell h ((n + 1) / 2)).key < 0 then
          some ((n + 1) / 2, (h.nodes.set (n + 1) (some ⟨none, none⟩)).set (n + 1)
            (some (cell h ((n + 1) / 2))))
        else none) := by
  have hlast : (h.nodes.set (n + 1) (some ⟨none, none⟩))[n + 1]? = some (some ⟨none, none⟩) :=
    getElem?_set_self hlen
  refine moveUp_eq cmp (by omega) (load_eq ?_) (load_eq hlast) (by rw [length_set]; exact hlen)
  rw [getElem?_set_ne (by omega)]
  exact hs _ (by omega) (by omega) (by omega)

private theorem removes_last (hn : h.size = n + 1) (ha : Agrees cmp order (n + 1) (cell h))
    (ho : HeapOrder (keyLe order) (n + 1) (cell h)) :
    Removes cmp keyFree valueFree h (n + 1) := by
  have hlen : n + 1 < h.nodes.length :=
    (List.getElem?_eq_some_iff.mp (hs (n + 1) (by omega) (Nat.le_refl _) (by omega))).1
  have han : Agrees cmp order n (cell h) :=
    ha.of_le (cells_succ n (cell h) ▸ Multiset.le_cons_self _ _)
  have hon : HeapOrder (keyLe order) n (cell h) := fun i h2 hin => ho i h2 (by omega)
  obtain ⟨cleared, hcl⟩ : ∃ cleared, cleared = h.nodes.set (n + 1) (some ⟨none, none⟩) := ⟨_, rfl⟩
  have hclen : cleared.length = h.nodes.length := by rw [hcl, length_set]
  have hclast : cleared[n + 1]? = some (some ⟨none, none⟩) := by
    rw [hcl, getElem?_set_self hlen]
  have hcs : ∀ (x : Node κ ω) (hole : Nat), Stores (cleared.set (n + 1) (some x)) n (cell h) hole := by
    intro x hole i h1 hin _
    rw [getElem?_set_ne (by omega), hcl, getElem?_set_ne (by omega)]
    exact hs i h1 (by omega) (by omega)
  have hdown : percolate cmp (n + 1) n (n + 1) cleared = some ([], none) := if_neg (by omega)
  by_cases hup : n ≠ 0 ∧ cmp none (cell h ((n + 1) / 2)).key < 0
  · -- the parent goes to the last slot and is then the moved node
    obtain ⟨h0, hlt⟩ := hup
    have hturn := moveUp_cleared cmp hs h0 hlen
    rw [← hcl, if_pos hlt] at hturn
    have hsift : Sifting order n ((n + 1) / 2) (cell h ((n + 1) / 2))
        (cleared.set (n + 1) (some (cell h ((n + 1) / 2)))) (cell h) :=
      ⟨by omega, by omega, getElem?_set_self (by omega), hcs _ _,
        hon.except (keyLe_trans ha.total) (by omega), rfl⟩
    obtain ⟨bound, calls, j, nodes, w, hrun, hlast, hset⟩ := hsift.finishes han
    obtain ⟨hj, hfill⟩ := hset.fill
    refine ⟨bound + 1, _, removesTo_of_loop keyFree valueFree hn hs (by omega) (Nat.le_refl _) ?_ hlast
      (hset.length_eq.trans (length_set.trans hclen)) hj han hfill hset.order hset.cells_eq
      (cells_succ _ _)⟩
    intro turns ht
    obtain ⟨t, rfl⟩ : ∃ t, turns = t + 1 := ⟨turns - 1, by omega⟩
    rw [← hcl]
    exact ⟨_, removeLoop_of_go (removeTurn_of_up hturn) (hrun t (by omega))⟩
  · -- the loop ends in its first turn
    have hturn : ∃ calls, moveUp cmp (n + 1) (n + 1) cleared = some (calls, none) := by
      by_cases h0 : n = 0
      · exact ⟨[], if_neg (by omega)⟩
      · have hfirst := moveUp_cleared cmp hs h0 hlen
        rw [← hcl, if_neg fun hlt => hup ⟨h0, hlt⟩] at hfirst
        exact ⟨_, hfirst⟩
    obtain ⟨calls, hturn⟩ := hturn
    refine ⟨1, _, removesTo_of_loop keyFree valueFree hn hs (by omega) (Nat.le_refl _) ?_ hclast hclen
      (by omega) han (hcs ⟨none, none⟩ 0) hon rfl (cells_succ _ _)⟩
    intro turns ht
    obtain ⟨t, rfl⟩ : ∃ t, turns = t + 1 := ⟨turns - 1, by omega⟩
    rw [← hcl]
    exact ⟨_, removeLoop_of_stop (removeTurn_of_down hturn hdown) t⟩

end Outcome

theorem removes (keyFree valueFree : Bool) (h1 : 1 ≤ idx) (hle : idx ≤ h.size)
    (ha : Agrees cmp order h.size (cell h)) (hs : Stores h.nodes h.size (cell h) 0)
    (ho : HeapOrder (keyLe order) h.size (cell h)) :
    Removes cmp keyFree valueFree h idx := by
  obtain ⟨n, hn⟩ : ∃ n, h.size = n + 1 := ⟨h.size - 1, by omega⟩
  rw [hn] at hle ha hs ho
  by_cases hlast : idx = n + 1
  · rw [hlast]
    exact removes_last keyFree valueFree hs hn ha ho
  · exact removes_inner keyFree valueFree hn hs h1 (by omega) ha ho

end Call

/-- The removal of a node of a heap in order takes out its pair and keeps the order, whatever the
comparator says of keys that are not in the heap; for any other pointer nothing changes. -/
theorem remove_sound (cmp : Option κ → Option κ → Int) (h : Heap κ ω)
    (ho : TotalOrder fun a b : {k // ∃ e ∈ pairs h, e.key = k} => cmp a.1 b.1)
    (hord : Ordered cmp h) (keyFree valueFree : Bool) (tmp : Int) :
    (1 ≤ tmp ∧ tmp ≤ h.size → Removes cmp keyFree valueFree h tmp.toNat) ∧
      (¬ (1 ≤ tmp ∧ tmp ≤ h.size) → ∀ turns, ∃ r, remove cmp keyFree valueFree turns h tmp = some r ∧
        r.outcome = some (false, h)) := by
  constructor
  · rintro ⟨h1, hle⟩
    obtain ⟨order, ha⟩ := exists_agrees ho
    exact removes keyFree valueFree (by omega) (by omega) ha (stores_of_written hord.written)
      (ha.heapOrder.mp hord.order)
  · intro hout turns
    unfold remove
    rw [if_pos (by omega)]
    exact ⟨_, rfl, rfl⟩

def threeNodes : Heap Nat Nat :=
  ⟨3, 3, [none, some ⟨some 1, some 10⟩, some ⟨some 4, none⟩, some ⟨some 2, some 20⟩]⟩

theorem threeNodes_ordered : Ordered byNumber threeNodes := by
  constructor
  · intro i h1 hn
    change i ≤ 3 at hn
    rcases (by omega : i = 1 ∨ i = 2 ∨ i = 3) with rfl | rfl | rfl <;> rfl
  · intro i h2 hn
    change i ≤ 3 at hn
    rw [keyLe]
    rcases (by omega : i = 2 ∨ i = 3) with rfl | rfl <;> decide

theorem threeNodes_keys : ∀ i, 1 ≤ i → i ≤ threeNodes.size → (cell threeNodes i).key ≠ none := by
  intro i h1 hn
  change i ≤ 3 at hn
  rcases (by omega : i = 1 ∨ i = 2 ∨ i = 3) with rfl | rfl | rfl <;> exact some_ne_none _

theorem remove_sound_three : Removes byNumber true true threeNodes 3 :=
  (remove_sound byNumber threeNodes
    ⟨fun a b => byNumber_total.swap a.1 b.1, fun a b c => byNumber_total.trans a.1 b.1 c.1⟩
    threeNodes_ordered true true 3).1 (by decide)

section Loop

variable {cmp : Option κ → Option κ → Int} {last size idx : Nat} {nodes nodes' : Nodes κ ω}
  {calls : List (Compared κ)} {j : Nat}

private theorem removeLoop_ended {turns : Nat}
    (h : removeLoop cmp last size turns idx nodes = some (calls, some (j, nodes'))) :
    ∀ turns', turns ≤ turns' →
      removeLoop cmp last size turns' idx nodes = some (calls, some (j, nodes')) := by
  induction turns generalizing idx nodes calls with
  | zero => cases h
  | succ turns ih =>
    obtain ⟨⟨calls₁, next⟩, hturn, h⟩ := bind_eq_some_iff.mp h
    cases next with
    | none =>
      cases h
      intro turns' hle
      obtain ⟨t, rfl⟩ : ∃ t, turns' = t + 1 := ⟨turns' - 1, by omega⟩
      exact removeLoop_of_stop hturn t
    | some place =>
      obtain ⟨⟨calls₂, stop⟩, hloop, h⟩ := bind_eq_some_iff.mp h
      cases h
      intro turns' hle
      obtain ⟨t, rfl⟩ : ∃ t, turns' = t + 1 := ⟨turns' - 1, by omega⟩
      exact removeLoop_of_go hturn (ih hloop t (by omega))

private theorem remove_ended {h : Heap κ ω} {keyFree valueFree : Bool} {turns : Nat} {tmp : Int}
    {r : Removal κ ω} {o : Bool × Heap κ ω} (hin : 1 ≤ tmp ∧ tmp ≤ h.size)
    (hr : remove cmp keyFree valueFree turns h tmp = some r) (ho : r.outcome = some o) :
    (∃ node, load h.nodes tmp.toNat = some node ∧
      r.freedKeys = (if keyFree then node.key.toList else []) ∧
      r.freedValues = if valueFree then node.value.toList else []) ∧
    ∀ turns', turns ≤ turns' → remove cmp keyFree valueFree turns' h tmp = some r := by
  unfold remove at hr
  rw [if_neg (by omega)] at hr
  obtain ⟨node, hload, hr⟩ := bind_eq_some_iff.mp hr
  obtain ⟨nodes, hstore, hr⟩ := bind_eq_some_iff.mp hr
  obtain ⟨⟨calls, stop⟩, hloop, hr⟩ := bind_eq_some_iff.mp hr
  cases stop with
  | none =>
    cases hr
    cases ho
  | some place =>
    obtain ⟨lastNode, hlast, hr⟩ := bind_eq_some_iff.mp hr
    obtain ⟨nodes₂, hstore₂, hr⟩ := bind_eq_some_iff.mp hr
    cases hr
    cases ho
    refine ⟨⟨node, hload, rfl, rfl⟩, ?_⟩
    intro turns' hle
    unfold remove
    rw [if_neg (by omega)]
    simp only [hload, bind_eq_bind, bind_some, hstore, removeLoop_ended hloop turns' hle, hlast,
      hstore₂]

end Loop

variable {h : Heap κ ω}

theorem remove_inv {cmp : Option κ → Option κ → Int} (ho : TotalOrder cmp)
    (hi : Inv cmp h) {tmp : Int} (hin : 1 ≤ tmp ∧ tmp ≤ h.size) :
    ∃ bound h', Inv cmp h' ∧ pairs h = cell h tmp.toNat ::ₘ pairs h' ∧
      (∀ turns, bound ≤ turns → ∃ r, remove cmp true true turns h tmp = some r ∧
        r.outcome = some (true, h')) ∧
      ∀ turns r o, remove cmp true true turns h tmp = some r → r.outcome = some o →
        o.2 = h' ∧ r.freedKeys = (cell h tmp.toNat).key.toList ∧
        r.freedValues = (cell h tmp.toNat).value.toList := by
  have htmp : (tmp.toNat : Int) = tmp := Int.toNat_of_nonneg (by omega)
  have ha : Agrees cmp cmp h.size (cell h) := ⟨ho, fun _ _ _ _ => rfl⟩
  obtain ⟨bound, h', hends, hordered, hpairs, hcap, hsize, hlen⟩ :=
    removes true true (by omega : 1 ≤ tmp.toNat) (by omega) ha hi.stores hi.order
  rw [htmp] at hends
  -- every removal that ends agrees with one that has enough turns
  have hsame : ∀ turns r o, remove cmp true true turns h tmp = some r → r.outcome = some o →
      o.2 = h' := by
    intro turns r o hr hout
    obtain ⟨r', hr', hout'⟩ := hends (max turns bound) (Nat.le_max_right _ _)
    rw [(remove_ended hin hr hout).2 _ (Nat.le_max_left _ _)] at hr'
    cases hr'
    rw [hout] at hout'
    rw [some.inj hout']
  have hle := hi.size_le
  refine ⟨bound, h', ?_, hpairs, hends, ?_⟩
  · exact inv_of_stores (by rw [hcap]; exact hi.capacity_pos) (by rw [hlen, hcap, hi.length_eq])
      (by omega) (stores_of_written hordered.written) hordered.order
  · intro turns r o hr hout
    obtain ⟨⟨node, hload, hkeys, hvalues⟩, _⟩ := remove_ended hin hr hout
    have hnode : cell h tmp.toNat = node := by
      rw [cell, hload]
      rfl
    rw [hnode]
    exact ⟨hsame turns r o hr hout, hkeys, hvalues⟩

def Remaining (h : Heap κ ω) (idx : Nat) (k : Option κ) : Prop :=
  k ≠ none ∧ ∃ i, 1 ≤ i ∧ i ≤ h.size ∧ i ≠ idx ∧ (cell h i).key = k

/-- Both arguments of every comparison are such keys. -/
def ComparesRemaining (h : Heap κ ω) (idx : Nat) (calls : List (Compared κ)) : Prop :=
  ∀ call ∈ calls, Remaining h idx call.1 ∧ Remaining h idx call.2

section Compared

variable {cmp : Option κ → Option κ → Int} {n idx : Nat} {nodes : Nodes κ ω}
    {good : Option κ → Prop}

structure Readable (good : Option κ → Prop) (n idx : Nat) (nodes : Nodes κ ω) : Prop where
  pos : 1 ≤ idx
  le : idx ≤ n
  node : ∀ i, 1 ≤ i → i ≤ n + 1 → i ≠ idx → ∃ x, nodes[i]? = some (some x) ∧ good x.key

theorem Readable.load (h : Readable good n idx nodes) {i : Nat} (h1 : 1 ≤ i) (hn : i ≤ n + 1)
    (hne : i ≠ idx) : ∃ x, load nodes i = some x ∧ good x.key := by
  obtain ⟨x, hx, hgood⟩ := h.node i h1 hn hne
  exact ⟨x, load_eq hx, hgood⟩

theorem Readable.length (h : Readable good n idx nodes) : n + 1 < nodes.length := by
  have hle := h.le
  obtain ⟨x, hx, _⟩ := h.node (n + 1) (by omega) (Nat.le_refl _) (by omega)
  exact (List.getElem?_eq_some_iff.mp hx).1

variable {x : Node κ ω} {calls : List (Compared κ)}

theorem Readable.move (h : Readable good n idx nodes) {c : Nat} (h1 : 1 ≤ c)
    (hc : c ≤ n) (hx : good x.key) : Readable good n c (nodes.set idx (some x)) := by
  have hlen := h.length
  refine ⟨h1, hc, ?_⟩
  intro i hi hin hne
  by_cases hii : i = idx
  · exact ⟨x, by rw [hii, getElem?_set_self (by omega)], hx⟩
  · rw [getElem?_set_ne (Ne.symm hii)]
    exact h.node i hi hin hii

structure Good (good : Option κ → Prop) (n : Nat) (calls : List (Compared κ))
    (next : Option (Nat × Nodes κ ω)) : Prop where
  compared : ∀ call ∈ calls, good call.1 ∧ good call.2
  left : ∀ c nodes', next = some (c, nodes') → Readable good n c nodes'

theorem good_nil : Good (ω := ω) good n [] none :=
  ⟨fun _ hc => absurd hc not_mem_nil, fun _ _ he => by cases he⟩

theorem good_append {calls' : List (Compared κ)} {next : Option (Nat × Nodes κ ω)}
    (h : ∀ call ∈ calls, good call.1 ∧ good call.2) (h' : Good good n calls' next) :
    Good good n (calls ++ calls') next := by
  refine ⟨fun call hc => ?_, h'.left⟩
  rcases mem_append.mp hc with hc | hc
  · exact h call hc
  · exact h'.compared call hc

theorem good_single {a b : Option κ} (ha : good a) (hb : good b) :
    ∀ call ∈ [(a, b)], good call.1 ∧ good call.2 := by
  intro call hc
  obtain rfl := mem_singleton.mp hc
  exact ⟨ha, hb⟩

theorem Readable.next {c : Nat} {p : Prop} [Decidable p]
    (h : Readable good n idx nodes) (h1 : 1 ≤ c) (hc : c ≤ n) (hx : good x.key)
    (hcalls : ∀ call ∈ calls, good call.1 ∧ good call.2) :
    Good good n calls (if p then some (c, nodes.set idx (some x)) else none) := by
  refine ⟨hcalls, fun c' nodes' he => ?_⟩
  split at he
  · cases he
    exact h.move h1 hc hx
  · cases he

variable (cmp)

private theorem moveUp_good (h : Readable good n idx nodes) :
    ∃ calls next, moveUp cmp (n + 1) idx nodes = some (calls, next) ∧ Good good n calls next := by
  have hlen := h.length
  have hle := h.le
  by_cases hroot : idx / 2 = 0
  · exact ⟨[], none, if_neg (not_not_intro hroot), good_nil⟩
  · obtain ⟨parent, hp, hpg⟩ := h.load (i := idx / 2) (by omega) (by omega) (by omega)
    obtain ⟨x, hx, hxg⟩ := h.load (i := n + 1) (by omega) (Nat.le_refl _) (by omega)
    exact ⟨_, _, moveUp_eq cmp hroot hp hx (by omega),
      h.next (by omega) (by omega) hpg (good_single hxg hpg)⟩

private theorem pickChild_good (h : Readable good n idx nodes) (hleaf : idx * 2 ≤ n) :
    ∃ calls c, pickChild cmp n (idx * 2) nodes = some (calls, c) ∧
      (∀ call ∈ calls, good call.1 ∧ good call.2) ∧ 1 ≤ c ∧ c ≤ n ∧ c ≠ idx := by
  have hpos := h.pos
  unfold pickChild
  by_cases hboth : idx * 2 < n
  · obtain ⟨right, hr, hrg⟩ := h.load (i := idx * 2 + 1) (by omega) (by omega) (by omega)
    obtain ⟨left, hl, hlg⟩ := h.load (i := idx * 2) (by omega) (by omega) (by omega)
    rw [if_pos hboth, hr, hl, bind_eq_bind, bind_some, bind_some]
    refine ⟨_, _, rfl, good_single hrg hlg, ?_⟩
    split <;> omega
  · rw [if_neg hboth]
    exact ⟨[], idx * 2, rfl, fun _ hc => absurd hc not_mem_nil, by omega, hleaf, by omega⟩

private theorem percolate_good (h : Readable good n idx nodes) :
    ∃ calls next, percolate cmp (n + 1) n idx nodes = some (calls, next) ∧ Good good n calls next := by
  have hlen := h.length
  by_cases hleaf : idx * 2 ≤ n
  · obtain ⟨calls, c, hpick, hcalls, h1, hc, hne⟩ := pickChild_good cmp h hleaf
    obtain ⟨child, hchild, hcg⟩ := h.load h1 (by omega) hne
    obtain ⟨x, hx, hxg⟩ := h.load (i := n + 1) (by omega) (Nat.le_refl _) (by omega)
    exact ⟨_, _, percolate_eq hleaf hpick hx hchild (by omega),
      good_append hcalls (h.next h1 hc hcg (good_single hxg hcg))⟩
  · exact ⟨[], none, if_neg hleaf, good_nil⟩

private theorem removeTurn_good (h : Readable good n idx nodes) :
    ∃ calls next, removeTurn cmp (n + 1) n idx nodes = some (calls, next) ∧ Good good n calls next := by
  obtain ⟨calls, next, hup, hgood⟩ := moveUp_good cmp h
  cases next with
  | some place => exact ⟨calls, some place, removeTurn_of_up hup, hgood⟩
  | none =>
    obtain ⟨calls', next, hdown, hgood'⟩ := percolate_good cmp h
    exact ⟨_, _, removeTurn_of_down hup hdown, good_append hgood.compared hgood'⟩

private theorem removeLoop_good (turns : Nat) (h : Readable good n idx nodes) :
    ∃ calls stop, removeLoop cmp (n + 1) n turns idx nodes = some (calls, stop) ∧
      Good good n calls stop := by
  induction turns generalizing idx nodes with
  | zero => exact ⟨[], none, rfl, good_nil⟩
  | succ turns ih =>
    obtain ⟨calls, next, hturn, hgood⟩ := removeTurn_good cmp h
    cases next with
    | none =>
      refine ⟨calls, some (idx, nodes), removeLoop_of_stop hturn turns, hgood.compared, ?_⟩
      intro j nodes' he
      cases he
      exact h
    | some place =>
      obtain ⟨c, nodes'⟩ := place
      obtain ⟨calls', stop, hrun, hgood'⟩ := ih (hgood.left c nodes' rfl)
      exact ⟨calls ++ calls', stop, removeLoop_of_go hturn hrun, good_append hgood.compared hgood'⟩

end Compared

private theorem first_comparison (cmp : Option κ → Option κ → Int) {n : Nat} (h0 : n ≠ 0)
    (hs : Stores h.nodes (n + 1) (cell h) 0) (hlen : n + 1 < h.nodes.length) :
    ∃ stop, removeLoop cmp (n + 1) n 1 (n + 1) (h.nodes.set (n + 1) (some ⟨none, none⟩)) =
        some ([(none, (cell h ((n + 1) / 2)).key)], stop) ∧
      ∀ j nodes, stop = some (j, nodes) → j < nodes.length ∧ ∃ x, nodes[n + 1]? = some (some x) := by
  have hup := moveUp_cleared cmp hs h0 hlen
  split at hup
  · exact ⟨none, removeLoop_of_go (removeTurn_of_up hup) rfl, fun _ _ he => by cases he⟩
  · refine ⟨_, removeLoop_of_stop (removeTurn_of_down hup (if_neg (by omega))) 0, ?_⟩
    intro j nodes he
    cases he
    exact ⟨by rw [length_set]; exact hlen, _, getElem?_set_self hlen⟩

private theorem loop_compares_remaining (cmp : Option κ → Option κ → Int) {n idx : Nat}
    (hsize : h.size = n + 1) (hs : Stores h.nodes (n + 1) (cell h) 0)
    (hkeys : ∀ i, 1 ≤ i → i ≤ n + 1 → (cell h i).key ≠ none) (h1 : 1 ≤ idx) (hn : idx ≤ n + 1)
    (hcond : idx < n + 1 ∨ n + 1 = 1) (turns : Nat) :
    ∃ calls stop,
      removeLoop cmp (n + 1) n turns idx (h.nodes.set idx (some ⟨none, none⟩)) = some (calls, stop) ∧
      ComparesRemaining h idx calls ∧
      ∀ j nodes, stop = some (j, nodes) → j < nodes.length ∧ ∃ x, nodes[n + 1]? = some (some x) := by
  by_cases hlt : idx < n + 1
  · have hread : Readable (Remaining h idx) n idx (h.nodes.set idx (some ⟨none, none⟩)) := by
      refine ⟨h1, by omega, ?_⟩
      intro i hi hin hne
      refine ⟨cell h i, ?_, hkeys i hi hin, i, hi, by omega, hne, rfl⟩
      rw [getElem?_set_ne (Ne.symm hne)]
      exact hs i hi hin (by omega)
    obtain ⟨calls, stop, hrun, hcalls, hstop⟩ := removeLoop_good cmp turns hread
    refine ⟨calls, stop, hrun, hcalls, ?_⟩
    intro j nodes he
    have hj := hstop j nodes he
    have hle := hj.le
    have hlen := hj.length
    obtain ⟨x, hx, _⟩ := hj.node (n + 1) (by omega) (Nat.le_refl _) (by omega)
    exact ⟨by omega, x, hx⟩
  · obtain rfl : n = 0 := by omega
    obtain rfl : idx = 1 := by omega
    have hlen := (List.getElem?_eq_some_iff.mp (hs 1 (by omega) (by omega) (by omega))).1
    have hnone : ComparesRemaining h 1 ([] : List (Compared κ)) :=
      fun _ hc => absurd hc not_mem_nil
    cases turns with
    | zero => exact ⟨[], none, rfl, hnone, fun _ _ he => by cases he⟩
    | succ turns =>
      refine ⟨[], _, removeLoop_of_stop rfl turns, hnone, ?_⟩
      intro j nodes he
      cases he
      exact ⟨by rw [length_set]; exact hlen, _, getElem?_set_self hlen⟩

/-- The comparator gets only keys of the entries that stay, exactly when the removed node is not the
last of several: then the cleared key of the last slot is compared with that of its parent. -/
theorem compares_remaining_iff (cmp : Option κ → Option κ → Int) (h : Heap κ ω)
    (hwritten : ∀ i, 1 ≤ i → i ≤ h.size → (load h.nodes i).isSome)
    (hkeys : ∀ i, 1 ≤ i → i ≤ h.size → (cell h i).key ≠ none) (keyFree valueFree : Bool) (idx : Nat)
    (h1 : 1 ≤ idx) (hn : idx ≤ h.size) :
    (∀ turns, ∃ r, remove cmp keyFree valueFree turns h idx = some r ∧
        ComparesRemaining h idx r.calls) ↔ (idx < h.size ∨ h.size = 1) := by
  obtain ⟨n, hsize⟩ : ∃ n, h.size = n + 1 := ⟨h.size - 1, by omega⟩
  have hs := stores_of_written hwritten
  rw [hsize] at hn hs ⊢
  have hlen : n + 1 < h.nodes.length :=
    (List.getElem?_eq_some_iff.mp (hs (n + 1) (by omega) (Nat.le_refl _) (by omega))).1
  constructor
  · intro hall
    by_contra hnot
    obtain rfl : idx = n + 1 := by omega
    obtain ⟨r, hr, hcmp⟩ := hall 1
    obtain ⟨stop, hrun, hstop⟩ := first_comparison cmp (by omega : n ≠ 0) hs hlen
    obtain ⟨r', hr', hcalls, _⟩ := remove_eq keyFree valueFree hsize h1
      (Nat.le_refl _) hs hrun hstop
    obtain rfl := Option.some.inj (hr.symm.trans hr')
    rw [hcalls] at hcmp
    exact (hcmp _ (mem_singleton_self _)).1.1 rfl
  · intro hcond turns
    have hloop := loop_compares_remaining cmp hsize hs (hsize ▸ hkeys) h1 hn hcond turns
    obtain ⟨calls, stop, hrun, hcalls, hstop⟩ := hloop
    obtain ⟨r, hr, hrc, _⟩ := remove_eq keyFree valueFree hsize h1 hn hs hrun hstop
    exact ⟨r, hr, hrc ▸ hcalls⟩

theorem compares_remaining_three :
    (∀ turns, ∃ r, remove byNumber true true turns threeNodes (2 : Nat) = some r ∧
      ComparesRemaining threeNodes 2 r.calls) ↔ (2 < 3 ∨ 3 = 1) :=
  compares_remaining_iff byNumber threeNodes threeNodes_ordered.written threeNodes_keys true true 2
    (by decide) (by decide)

theorem not_compares_remaining_of_last :
    ¬ ∀ (cmp : Option Nat → Option Nat → Int) (h : Heap Nat Nat), Ordered cmp h →
      (∀ i, 1 ≤ i → i ≤ h.size → (cell h i).key ≠ none) → ∀ (keyFree valueFree : Bool) (idx : Nat),
        1 ≤ idx → idx ≤ h.size → ∀ (turns : Nat) (r : Removal Nat Nat),
          remove cmp keyFree valueFree turns h idx = some r → ComparesRemaining h idx r.calls := by
  intro hall
  have hcmp := hall byNumber threeNodes threeNodes_ordered threeNodes_keys true true 3 (by decide)
    (by decide) 1 ⟨[(none, some 1)], [2], [20], none⟩ (by decide)
  exact (hcmp (none, some 1) (mem_singleton_self _)).1.1 rfl

end HeapRemove

end MuggleC.Dsaa
