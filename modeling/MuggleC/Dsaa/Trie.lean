/- source: dsaa/trie.c
   digest: The trie is the map that its successful calls make, and which keys leave its arrays. -/

import MuggleC.Dsaa.NodePool
import MuggleC.Foundation.Paths

set_option autoImplicit false

/-! A key is the list of its bytes before the terminating zero. A program gets stuck when it indexes
an array of children outside its bounds. -/

namespace MuggleC.Dsaa.Trie

open Foundation.Blocks Foundation.Program Memory NodePool

/-- The address of the root, which is part of the trie's own record, or of an allocated node. -/
inductive Addr
  | root
  | node (a : Nat)
  deriving DecidableEq, Repr

def childrenSize : Nat := 256

structure Node (ω : Type) where
  children : Nat → Option Addr
  data : Option ω

namespace Node

variable {ω : Type}

def zero : Node ω := ⟨fun _ => none, none⟩

def setChild (i : Nat) (p : Option Addr) (n : Node ω) : Node ω :=
  { n with children := Function.update n.children i p }

def setData (d : Option ω) (n : Node ω) : Node ω := { n with data := d }

end Node

/-- The trie's pool, and what has been passed to the free function. -/
structure Vars (ω : Type) where
  freed : List (Option ω)
  pool : Option MemoryPool

abbrev State (ω : Type) := Store Addr (Node ω) (Vars ω)

abbrev Op (ω α : Type) := Prog (State ω) α

abbrev Key := List (BitVec 8)

variable {ω : Type}

def nodeSize : UInt32 := 2056

def init (ω : Type) (capacity : BitVec 64) (poolMem : Bool) (mem : Malloc) : Option (State ω) :=
  (nodePool capacity nodeSize poolMem mem).map fun pool => {
    heap := fun
      | .root => some .zero
      | .node _ => none
    vars := ⟨[], pool⟩ }

def setPool (pool : Option MemoryPool) (v : Vars ω) : Vars ω := { v with pool := pool }

/-- `muggle_trie_allocate_node`, where `a` is what the pool or `malloc` returns. -/
def allocateNode (a : Nat) : Op ω Unit := do
  takeNode Vars.pool setPool a
  create (.node a) .zero

/-- The place of `children[c]`, where `c` is a signed `char` that becomes an `int`; `none` if it is
not in the array. -/
def place (c : BitVec 8) : Option Nat :=
  if 0 ≤ c.toInt ∧ c.toInt < childrenSize then some c.toInt.toNat else none

def childAt (node : Addr) (c : BitVec 8) : Op ω (Option Addr) := do
  let n ← load node
  inspect fun _ => (place c).map n.children

def setChildAt (node : Addr) (c : BitVec 8) (child : Addr) : Op ω Unit := do
  let i ← inspect fun _ => place c
  modify node (Node.setChild i (some child))

def descend : Key → Addr → Op ω (Option Addr)
  | [], node => pure (some node)
  | c :: p, node => do
    match ← childAt node c with
    | none => pure none
    | some child => descend p child

def find (key : Key) : Op ω (Option Addr) :=
  match key with
  | [] => childAt .root 0#8
  | c :: p => descend (c :: p) .root

/-- The loop of `muggle_trie_insert`, where `blocks` is what the pool or `malloc` returns one after
the other before it returns `NULL`. The result is the last `child`, or `none` if memory ran out. -/
def extend : Key → List Nat → Addr → Op ω (Option Addr)
  | [], _, node => pure (some node)
  | c :: p, blocks, node => do
    match ← childAt node c with
    | some child => extend p blocks child
    | none =>
      match blocks with
      | [] => pure none
      | a :: blocks => do
        allocateNode a
        setChildAt node c (.node a)
        extend p blocks (.node a)

def insert (key : Key) (value : Option ω) (blocks : List Nat) : Op ω (Option Addr) :=
  match key with
  | [] => do
    match ← childAt .root 0#8 with
    | none =>
      match blocks with
      | [] => pure none
      | a :: _ => do
        allocateNode a
        modify (.node a) (Node.setData value)
        setChildAt .root 0#8 (.node a)
        pure (some (.node a))
    | some child => do
      modify child (Node.setData value)
      pure (some child)
  | c :: p => do
    match ← extend (c :: p) blocks .root with
    | none => pure none
    | some child => do
      modify child (Node.setData value)
      pure (some child)

/-- `muggle_trie_remove`; `frees` tells whether there is a free function. -/
def remove (frees : Bool) (key : Key) : Op ω Bool := do
  match ← find key with
  | none => pure false
  | some node => do
    let n ← load node
    adjust fun v => if frees then { v with freed := v.freed ++ [n.data] } else v
    modify node (Node.setData none)
    pure true

def child (s : State ω) (x : Addr) (i : Nat) : Option Addr := (s.heap x).bind fun n => n.children i

def data : State ω → Addr → Option ω := field Node.data

/-- The indices that the bytes of a key stand for; the empty key has its own place. -/
def path : Key → List Nat
  | [] => [0]
  | c :: p => (c :: p).map BitVec.toNat

variable {c : BitVec 8} {s : State ω} {x : Addr} {n : Node ω}

theorem place_of_lt (h : c.toNat < 128) : place c = some c.toNat := by
  have hint : c.toInt = c.toNat := BitVec.toInt_eq_toNat_of_lt (by omega)
  rw [place, hint, if_pos ⟨by omega, by rw [childrenSize]; omega⟩]
  rfl

private theorem place_of_ge (h : 128 ≤ c.toNat) : place c = none := by
  have hint : c.toInt = c.toNat - 256 := by
    rw [BitVec.toInt_eq_toNat_cond, if_neg (by omega)]
    rfl
  exact if_neg fun hc => by omega

theorem childAt_ends {post : Option Addr → State ω → Prop} (hx : s.heap x = some n)
    (hc : c.toNat < 128) : Ends (childAt x c) s post ↔ post (child s x c.toNat) s := by
  rw [childAt, ends_bind, ends_load hx, child, hx]
  refine ends_inspect ?_
  rw [place_of_lt hc]
  rfl

theorem setChildAt_ends {y : Addr}
    {post : Unit → State ω → Prop} (hx : s.heap x = some n) (hc : c.toNat < 128) :
    Ends (setChildAt x c y) s post ↔ post () (s.write x (some (n.setChild c.toNat (some y)))) := by
  rw [setChildAt, ends_bind, ends_inspect (f := fun _ => place c) (place_of_lt hc), ends_modify hx]

private theorem childAt_stuck (hc : 128 ≤ c.toNat) : (childAt x c).run s = none := by
  change (((s.heap x).map fun n => (n, s)).bind fun q => ((place c).map q.1.children).map _) = none
  rw [place_of_ge hc]
  cases s.heap x with
  | none => rfl
  | some n => rfl

end MuggleC.Dsaa.Trie

namespace MuggleC.Dsaa.TrieRuns

open Foundation.Blocks Foundation.Paths Foundation.Program Memory NodePool
open Foundation.Transition (run guarded guarded_eq_some run_invariant)
open Trie
open List hiding insert lookup

variable {ω : Type}

structure Holds (s : State ω) : Prop where
  root : ∃ n, s.heap .root = some n
  closed : ∀ x i y, child s x i = some y → ∃ n, s.heap y = some n
  tree : Tree .root (child s)

def stored (s : State ω) : List Nat → Option ω := lookup (child s) (data s) .root

variable {s : State ω}

theorem Holds.adjust (h : Holds s) (f : Vars ω → Vars ω) : Holds (s.adjust f) :=
  ⟨h.root, h.closed, h.tree⟩

theorem Holds.heap_of_walk (h : Holds s) {x z : Addr} {p : List Nat}
    (hx : ∃ n, s.heap x = some n) (hp : walk (child s) x p = some z) : ∃ n, s.heap z = some n := by
  induction p generalizing x with
  | nil => exact Option.some.inj hp ▸ hx
  | cons i p ih =>
    obtain ⟨y, hy, hp⟩ := Option.bind_eq_some_iff.mp hp
    exact ih (h.closed x i y hy) hp

section Changes

variable {s : State ω} {x y : Addr} {n : Node ω} {a i : Nat} {d : Option ω}
  {pool : Option MemoryPool}

def linked (s : State ω) (pool : Option MemoryPool) (x : Addr) (n : Node ω) (i a : Nat) : State ω :=
  ((s.adjust (setPool pool)).write (.node a) (some .zero)).write x
    (some (n.setChild i (some (.node a))))

theorem child_of_free (hfree : s.heap x = none) : child s x i = none := by
  rw [child, hfree]
  rfl

theorem child_linked (pool : Option MemoryPool) (hx : s.heap x = some n)
    (hfree : s.heap (.node a) = none) : child (linked s pool x n i a) = grow (child s) x i (.node a) := by
  funext y j
  rw [child, linked]
  by_cases hy : y = x
  · rw [hy, heap_write_self, Option.bind_some, grow, Function.update_self]
    have hchild : child s x = n.children := by
      funext k
      rw [child, hx]
      rfl
    rw [hchild]
    rfl
  · rw [heap_write_of_ne hy, grow_of_ne fun he => hy he.1]
    by_cases hya : y = .node a
    · rw [hya, heap_write_self, child_of_free hfree]
      rfl
    · rw [heap_write_of_ne hya]
      rfl

theorem leaf_linked (hx : s.heap x = some n) (hfree : s.heap (.node a) = none) (j : Nat) :
    child (linked s pool x n i a) (.node a) j = none := by
  rw [child_linked pool hx hfree, grow_of_ne fun he => ne_of_heap hx hfree he.1.symm, child_of_free hfree]

private theorem data_linked (hx : s.heap x = some n) (hfree : s.heap (.node a) = none) :
    data (linked s pool x n i a) = data s := by
  have hxa := ne_of_heap hx hfree
  have hnone : data s (.node a) = none := by
    rw [data, field, hfree]
    rfl
  have hzero : data ((s.adjust (setPool pool)).write (.node a) (some .zero)) = data s := by
    rw [data, field_write]
    change Function.update (data s) (.node a) none = data s
    rw [← hnone, Function.update_eq_self]
  refine Eq.trans ?_ hzero
  exact field_write_of_keep (Node.setChild i _) ((heap_write_of_ne hxa).trans hx) fun _ => rfl

theorem Holds.linked (h : Holds s) (pool : Option MemoryPool) (hx : s.heap x = some n)
    (hfree : s.heap (.node a) = none) (hchild : child s x i = none) :
    Holds (linked s pool x n i a) ∧ stored (linked s pool x n i a) = stored s := by
  have hxa := ne_of_heap hx hfree
  have hfresh : ∀ y j, child s y j ≠ some (.node a) := by
    intro y j hyj
    obtain ⟨m, hm⟩ := h.closed y j _ hyj
    rw [hfree] at hm
    cases hm
  have hheap : ∀ y, (∃ m, s.heap y = some m) → ∃ m, (TrieRuns.linked s pool x n i a).heap y = some m :=
    fun y hy => exists_heap_write (exists_heap_write hy)
  refine ⟨⟨hheap _ h.root, ?_, ?_⟩, ?_⟩
  · intro y j z hz
    rw [child_linked pool hx hfree] at hz
    by_cases hyj : y = x ∧ j = i
    · obtain ⟨rfl, rfl⟩ := hyj
      rw [grow_self] at hz
      cases hz
      exact ⟨_, (heap_write_of_ne hxa.symm).trans heap_write_self⟩
    · rw [grow_of_ne hyj] at hz
      exact hheap z (h.closed y j z hz)
  · rw [child_linked pool hx hfree]
    exact h.tree.grow Addr.noConfusion hfresh
  · funext p
    rw [stored, stored, child_linked pool hx hfree, data_linked hx hfree]
    refine lookup_grow (fun j => child_of_free hfree) hchild hxa.symm ?_
    rw [data, field, hfree]
    rfl

theorem Holds.setData (h : Holds s) (hy : s.heap y = some n) {p : List Nat}
    (hp : walk (child s) .root p = some y) : Holds (s.write y (some (n.setData d))) ∧
      stored (s.write y (some (n.setData d))) = Function.update (stored s) p d := by
  have hchild : child (s.write y (some (n.setData d))) = child s := by
    funext x j
    rw [child, child]
    by_cases hx : x = y
    · rw [hx, heap_write_self, hy]
      rfl
    · rw [heap_write_of_ne hx]
  refine ⟨⟨exists_heap_write h.root, ?_, hchild ▸ h.tree⟩, ?_⟩
  · intro x j z hz
    rw [hchild] at hz
    exact exists_heap_write (h.closed x j z hz)
  · have hdata : data (s.write y (some (n.setData d))) = Function.update (data s) y d := by
      rw [data, field_write]
      rfl
    rw [stored, stored, hchild, hdata]
    exact h.tree.lookup_set hp d

end Changes

section Reached

variable {next : Addr → Nat → Option Addr} {x y : Addr} {c : BitVec 8} {pre p : Key} {k : Nat}

def Reached (next : Addr → Nat → Option Addr) (x : Addr) (pre : Key) (k : Nat) : Prop :=
  ∃ j, (walk next x ((pre.take j).map BitVec.toNat)).isSome ∧ pre.length ≤ j + k

/-- No byte from 128 on comes where a walk gets to. -/
def InArray (next : Addr → Nat → Option Addr) (x : Addr) (p : Key) (k : Nat) : Prop :=
  ∀ pre c post, p = pre ++ c :: post → Reached next x pre k → c.toNat < 128

theorem reached_nil : Reached next x [] k := ⟨0, rfl, Nat.zero_le _⟩

private theorem reached_cons_of_child (hchild : next x c.toNat = some y) :
    Reached next x (c :: pre) k ↔ Reached next y pre k := by
  constructor
  · rintro ⟨j, hj, hlen⟩
    rw [length_cons] at hlen
    cases j with
    | zero => exact ⟨0, rfl, by omega⟩
    | succ j =>
      rw [take_succ_cons, map_cons, walk, hchild] at hj
      exact ⟨j, hj, by omega⟩
  · rintro ⟨j, hj, hlen⟩
    refine ⟨j + 1, ?_, by rw [length_cons]; omega⟩
    rw [take_succ_cons, map_cons, walk, hchild]
    exact hj

theorem reached_cons_of_none (hchild : next x c.toNat = none) :
    Reached next x (c :: pre) k ↔ pre.length < k := by
  constructor
  · rintro ⟨j, hj, hlen⟩
    rw [length_cons] at hlen
    cases j with
    | zero => omega
    | succ j =>
      rw [take_succ_cons, map_cons, walk, hchild] at hj
      cases hj
  · intro hlt
    exact ⟨0, rfl, by rw [length_cons]; omega⟩

theorem reached_of_leaf (hleaf : ∀ i, next x i = none) : Reached next x pre k ↔ pre.length ≤ k := by
  cases pre with
  | nil => exact iff_of_true reached_nil (Nat.zero_le k)
  | cons c pre => rw [reached_cons_of_none (hleaf _), length_cons, Nat.succ_le_iff]

theorem inArray_nil : InArray next x [] k := by
  intro pre c post h
  exact absurd h.symm (append_ne_nil_of_right_ne_nil _ (cons_ne_nil _ _))

theorem inArray_cons : InArray next x (c :: p) k ↔
    c.toNat < 128 ∧ ∀ pre b post, p = pre ++ b :: post → Reached next x (c :: pre) k →
      b.toNat < 128 := by
  constructor
  · intro h
    refine ⟨h [] c p rfl reached_nil, ?_⟩
    rintro pre b post rfl hreached
    exact h (c :: pre) b post rfl hreached
  · rintro ⟨hc, hrest⟩ pre b post hp hreached
    cases pre with
    | nil =>
      obtain ⟨rfl, _⟩ := cons.inj hp
      exact hc
    | cons c' pre =>
      obtain ⟨rfl, hp'⟩ := cons.inj hp
      exact hrest pre b post hp' hreached

theorem inArray_cons_of_child (hchild : next x c.toNat = some y) :
    InArray next x (c :: p) k ↔ c.toNat < 128 ∧ InArray next y p k := by
  rw [inArray_cons, InArray]
  simp only [reached_cons_of_child hchild]

theorem inArray_cons_of_none {next' : Addr → Nat → Option Addr} {z : Addr}
    (hchild : next x c.toNat = none) (hleaf : ∀ i, next' z i = none) :
    InArray next x (c :: p) (k + 1) ↔ c.toNat < 128 ∧ InArray next' z p k := by
  rw [inArray_cons, InArray]
  simp only [reached_cons_of_none hchild, reached_of_leaf hleaf, Nat.lt_succ_iff]

theorem inArray_cons_of_end (hchild : next x c.toNat = none) :
    InArray next x (c :: p) 0 ↔ c.toNat < 128 := by
  rw [inArray_cons]
  simp only [reached_cons_of_none hchild, Nat.not_lt_zero, false_imp_iff, implies_true, and_true]

end Reached

section Walks

variable {s : State ω} {x : Addr} {p : Key} {c : BitVec 8}

theorem childAt_lt {α : Type} {f : Option Addr → Op ω α}
    {post : α → State ω → Prop} (h : Ends (childAt x c >>= f) s post) : c.toNat < 128 := by
  by_contra hc
  obtain ⟨_, _, hrun, _⟩ := ends_bind.mp h
  rw [childAt_stuck (Nat.le_of_not_lt hc)] at hrun
  cases hrun

theorem descend_ends (h : Holds s) (hx : ∃ n, s.heap x = some n) (hin : InArray (child s) x p 0) :
    Ends (descend p x) s fun r s' => s' = s ∧ r = walk (child s) x (p.map BitVec.toNat) := by
  induction p generalizing x with
  | nil => exact ends_pure.mpr ⟨rfl, rfl⟩
  | cons c p ih =>
    obtain ⟨n, hn⟩ := hx
    have hc : c.toNat < 128 := (inArray_cons.mp hin).1
    rw [descend, ends_bind, childAt_ends hn hc, map_cons, walk]
    cases hchild : child s x c.toNat with
    | none => exact ends_pure.mpr ⟨rfl, rfl⟩
    | some y => exact ih (h.closed x _ y hchild) ((inArray_cons_of_child hchild).mp hin).2

private theorem inArray_of_descend (h : Holds s) (hx : ∃ n, s.heap x = some n)
    (hends : Ends (descend p x) s fun _ _ => True) : InArray (child s) x p 0 := by
  induction p generalizing x with
  | nil => exact inArray_nil
  | cons c p ih =>
    obtain ⟨n, hn⟩ := hx
    rw [descend] at hends
    have hc := childAt_lt hends
    rw [ends_bind, childAt_ends hn hc] at hends
    cases hchild : child s x c.toNat with
    | none => exact (inArray_cons_of_end hchild).mpr hc
    | some y =>
      rw [hchild] at hends
      exact (inArray_cons_of_child hchild).mpr ⟨hc, ih (h.closed x _ y hchild) hends⟩

def inUse (s : State ω) (a : Nat) : Bool := (s.heap (.node a)).isSome

structure Fresh (s : State ω) (blocks : List Nat) : Prop where
  nodup : blocks.Nodup
  free : ∀ a ∈ blocks, s.heap (.node a) = none
  inside : takes s.vars.pool blocks

def Supplied (s : State ω) : Prop := Backed s.vars.pool fun a => inUse s a

variable {blocks : List Nat} {n : Node ω} {a i : Nat} {pool : Option MemoryPool}

theorem inUse_write (hx : s.heap x = some n) (n' : Node ω) :
    inUse (s.write x (some n')) = inUse s := by
  funext b
  by_cases hb : Addr.node b = x
  · rw [inUse, inUse, hb, heap_write_self, hx]
    rfl
  · rw [inUse, inUse, heap_write_of_ne hb]

theorem inUse_create (b : Nat) : inUse ((s.adjust (setPool pool)).write (.node a) (some .zero)) b =
    (b == a || inUse s b) := by
  by_cases hb : b = a
  · rw [hb, inUse, heap_write_self, beq_self_eq_true]
    rfl
  · rw [inUse, heap_write_of_ne fun he => hb (Addr.node.inj he), beq_eq_false_iff_ne.mpr hb]
    rfl

private theorem inUse_linked (hx : s.heap x = some n) (hfree : s.heap (.node a) = none) :
    inUse (linked s pool x n i a) = fun b => b == a || inUse s b := by
  have hne := ne_of_heap hx hfree
  rw [linked, inUse_write ((heap_write_of_ne (s := s.adjust (setPool pool)) hne).trans hx)]
  exact funext inUse_create

theorem fresh_linked (hfresh : Fresh s (a :: blocks)) (hx : s.heap x = some n)
    (htake : take s.vars.pool a = some pool) : Fresh (linked s pool x n i a) blocks := by
  obtain ⟨hnodup, hfree, hin⟩ := hfresh
  rw [takes, htake] at hin
  refine ⟨(nodup_cons.mp hnodup).2, ?_, hin⟩
  intro b hb
  have hb' := hfree b (mem_cons_of_mem a hb)
  have hba : Addr.node b ≠ .node a := by
    intro he
    exact (nodup_cons.mp hnodup).1 (Addr.node.inj he ▸ hb)
  exact (heap_write_of_ne (ne_of_heap hx hb').symm).trans ((heap_write_of_ne hba).trans hb')

theorem create_setChildAt_ends {α : Type} {f : Op ω α} {post : α → State ω → Prop}
    (hx : s.heap x = some n) (hfree : s.heap (.node a) = none)
    (htake : take s.vars.pool a = some pool) (hc : c.toNat < 128) :
    (Ends (allocateNode a >>= fun _ => setChildAt x c (.node a) >>= fun _ => f) s post) ↔
      Ends f (linked s pool x n c.toNat a) post := by
  have hne := ne_of_heap hx hfree
  rw [ends_bind, allocateNode, ends_bind, ends_takeNode htake, ends_create, ends_bind,
    setChildAt_ends ((heap_write_of_ne (s := s.adjust (setPool pool)) hne).trans hx) hc]
  exact Iff.rfl

theorem Fresh.first (h : Fresh s (a :: blocks)) : s.heap (.node a) = none ∧
    ∃ pool, take s.vars.pool a = some pool := by
  obtain ⟨pool, hpool, _⟩ := (Option.any_eq_true _ _).mp h.inside
  exact ⟨h.free a mem_cons_self, pool, hpool⟩

theorem supplied_linked (hs : Supplied s) (hall : ReturnsAll s.vars.pool (inUse s) (a :: blocks))
    (hx : s.heap x = some n) (hfree : s.heap (.node a) = none)
    (htake : take s.vars.pool a = some pool) : Supplied (linked s pool x n i a) ∧
      ReturnsAll pool (inUse (linked s pool x n i a)) blocks := by
  obtain ⟨ha, hall⟩ := (Bool.and_eq_true _ _).mp hall
  obtain ⟨_, pool', htake', hbacked⟩ := hs.take ha fun _ hb => hb
  cases htake.symm.trans htake'
  rw [htake] at hall
  refine ⟨?_, by rwa [inUse_linked hx hfree]⟩
  rw [Supplied, inUse_linked hx hfree]
  refine hbacked.congr fun b => ?_
  rw [Bool.or_eq_true, beq_iff_eq]

private theorem extend_ends (h : Holds s) {q : List Nat} (hx : walk (child s) .root q = some x)
    (hn : ∃ n, s.heap x = some n) (hfresh : Fresh s blocks)
    (hin : InArray (child s) x p blocks.length) :
    Ends (extend p blocks x) s fun r s' => Holds s' ∧ stored s' = stored s ∧
      (Supplied s → ReturnsAll s.vars.pool (inUse s) blocks → Supplied s') ∧
      ∀ z, r = some z → walk (child s') .root (q ++ p.map BitVec.toNat) = some z ∧
        ∃ n, s'.heap z = some n := by
  induction p generalizing s x q blocks with
  | nil =>
    refine ends_pure.mpr ⟨h, rfl, fun hs _ => hs, ?_⟩
    rintro z ⟨⟩
    rw [map_nil, append_nil]
    exact ⟨hx, hn⟩
  | cons c p ih =>
    obtain ⟨n, hn⟩ := hn
    have hc : c.toNat < 128 := (inArray_cons.mp hin).1
    rw [extend.eq_def, ends_bind, childAt_ends hn hc]
    have hstep : ∀ {t : State ω} {y : Addr}, walk (child t) .root q = some x →
        child t x c.toNat = some y → walk (child t) .root (q ++ [c.toNat]) = some y := by
      intro t y hq hy
      rw [walk_concat, hq]
      exact hy
    cases hchild : child s x c.toNat with
    | some y =>
      have hy := ih h (hstep hx hchild) (h.closed x _ y hchild) hfresh
        ((inArray_cons_of_child hchild).mp hin).2
      rwa [append_assoc] at hy
    | none =>
      cases blocks with
      | nil =>
        refine ends_pure.mpr ⟨h, rfl, fun hs _ => hs, ?_⟩
        rintro z ⟨⟩
      | cons a blocks =>
        obtain ⟨hfree, pool, htake⟩ := hfresh.first
        obtain ⟨ht, hstored⟩ := h.linked pool hn hfree hchild
        have hgrown := child_linked (i := c.toNat) pool hn hfree
        have hy := ih ht (x := .node a) (q := q ++ [c.toNat]) (hstep ?_ ?_)
          (ht.closed x c.toNat _ ?_) (fresh_linked hfresh hn htake)
          ((inArray_cons_of_none hchild (leaf_linked hn hfree)).mp hin).2
        · rw [append_assoc] at hy
          refine (create_setChildAt_ends hn hfree htake hc).mpr (hy.mono ?_)
          rintro r s' ⟨hs', hstored', hsupplied, hr⟩
          refine ⟨hs', hstored'.trans hstored, fun hs hall => ?_, hr⟩
          obtain ⟨ht, hall⟩ := supplied_linked (i := c.toNat) hs hall hn hfree htake
          exact hsupplied ht hall
        · rw [hgrown]
          exact walk_grow hchild hx
        · rw [hgrown, grow_self]
        · rw [hgrown, grow_self]

theorem inArray_of_extend (h : Holds s) (hn : ∃ n, s.heap x = some n) (hfresh : Fresh s blocks)
    (hends : Ends (extend p blocks x) s fun _ _ => True) : InArray (child s) x p blocks.length := by
  induction p generalizing s x blocks with
  | nil => exact inArray_nil
  | cons c p ih =>
    obtain ⟨n, hn⟩ := hn
    rw [extend.eq_def] at hends
    have hc := childAt_lt hends
    rw [ends_bind, childAt_ends hn hc] at hends
    cases hchild : child s x c.toNat with
    | some y =>
      rw [hchild] at hends
      exact (inArray_cons_of_child hchild).mpr ⟨hc, ih h (h.closed x _ y hchild) hfresh hends⟩
    | none =>
      cases blocks with
      | nil => exact (inArray_cons_of_end hchild).mpr hc
      | cons a blocks =>
        obtain ⟨hfree, pool, htake⟩ := hfresh.first
        obtain ⟨ht, _⟩ := h.linked pool hn hfree hchild
        rw [hchild] at hends
        have hgrown := child_linked (i := c.toNat) pool hn hfree
        refine (inArray_cons_of_none hchild (leaf_linked hn hfree)).mpr ⟨hc, ih ht ?_
          (fresh_linked hfresh hn htake) ((create_setChildAt_ends hn hfree htake hc).mp hends)⟩
        exact ht.closed x c.toNat _ (by rw [hgrown, grow_self])

end Walks

section Calls

variable {s : State ω} {key : Key}

theorem find_ends (h : Holds s) (hin : InArray (child s) .root key 0) :
    Ends (find key) s fun r s' => s' = s ∧ r = walk (child s) .root (path key) := by
  cases key with
  | nil =>
    obtain ⟨n, hn⟩ := h.root
    rw [find, childAt_ends hn (by decide), path, walk]
    exact ⟨rfl, (Option.bind_fun_some _).symm⟩
  | cons c p => exact descend_ends h h.root hin

theorem setData_ends {y : Addr} {p : List Nat} {d : Option ω} (h : Holds s)
    (hp : walk (child s) .root p = some y) (hy : ∃ n, s.heap y = some n) :
    Ends (modify y (Node.setData d)) s fun _ s' =>
      (Supplied s → Supplied s') ∧ Holds s' ∧ stored s' = Function.update (stored s) p d := by
  obtain ⟨n, hn⟩ := hy
  rw [ends_modify hn]
  refine ⟨fun hs => ?_, h.setData hn hp⟩
  rw [Supplied, inUse_write hn]
  exact hs

theorem insert_ends {value : Option ω} {blocks : List Nat} (h : Holds s) (hfresh : Fresh s blocks)
    (hin : InArray (child s) .root key blocks.length) :
    Ends (Trie.insert key value blocks) s fun r s' =>
      (Supplied s → ReturnsAll s.vars.pool (inUse s) blocks → Supplied s') ∧ Holds s' ∧ stored s' =
      if r.isSome then Function.update (stored s) (path key) value else stored s := by
  cases key with
  | nil =>
    obtain ⟨n, hn⟩ := h.root
    rw [Trie.insert.eq_def, ends_bind, childAt_ends hn (by decide)]
    cases hchild : child s .root (0#8).toNat with
    | none =>
      cases blocks with
      | nil => exact ends_pure.mpr ⟨fun hs _ => hs, h, rfl⟩
      | cons a blocks =>
        obtain ⟨hfree, pool, htake⟩ := hfresh.first
        have hroot : Addr.root ≠ .node a := Addr.noConfusion
        obtain ⟨ht, hstored⟩ := h.linked pool hn hfree hchild
        have hwalk : walk (child (linked s pool .root n (0#8).toNat a)) .root [0] =
            some (.node a) := by
          change (child _ .root (0#8).toNat).bind _ = _
          rfl
        -- the data is written before the link here, which leaves the same memory
        obtain ⟨t, ht'⟩ : ∃ t, t = s.adjust (setPool pool) := ⟨_, rfl⟩
        have hheap := heap_write_self (s := t) (a := .node a) (n := some (Node.zero (ω := ω)))
        have hroot' : (t.write (.node a) (some (Node.setData value .zero))).heap .root = some n :=
          (heap_write_of_ne hroot).trans (ht' ▸ hn)
        have hwrites : (t.write (.node a) (some (Node.setData value .zero))).write .root
              (some (n.setChild (0#8).toNat (some (.node a)))) =
            (linked s pool .root n (0#8).toNat a).write (.node a)
              (some (Node.setData value .zero)) := by
          rw [linked, ← ht', write_comm hroot, write_write]
        rw [ends_bind, allocateNode, ends_bind, ends_takeNode htake, ← ht', ends_create, ends_bind,
          ends_modify hheap, write_write, ends_bind, setChildAt_ends hroot' (by decide), ends_pure,
          hwrites]
        have hnode : (linked s pool .root n (0#8).toNat a).heap (.node a) = some .zero :=
          (heap_write_of_ne hroot.symm).trans heap_write_self
        obtain ⟨hs', hstored'⟩ := ht.setData (d := value) hnode hwalk
        refine ⟨fun hs hall => ?_, hs', hstored'.trans ?_⟩
        · rw [Supplied, inUse_write hnode]
          exact (supplied_linked hs hall hn hfree htake).1
        · rw [hstored]
          rfl
    | some y =>
      refine ends_bind.mpr ((setData_ends h (p := [0]) ?_ (h.closed _ _ y hchild)).mono ?_)
      · rw [walk, show (0 : Nat) = (0#8).toNat from rfl, hchild]
        rfl
      · intro _ s' hs'
        exact ends_pure.mpr ⟨fun hs _ => hs'.1 hs, hs'.2⟩
  | cons c p =>
    rw [Trie.insert, ends_bind]
    apply (extend_ends h (q := []) rfl h.root hfresh hin).mono
    rintro r t ⟨ht, hstored, hsupplied, hr⟩
    cases r with
    | none => exact ends_pure.mpr ⟨hsupplied, ht, hstored⟩
    | some z =>
      obtain ⟨hz, hn⟩ := hr z rfl
      refine ends_bind.mpr ((setData_ends ht hz hn).mono ?_)
      rintro _ s' ⟨hsupplied', hs', hstored'⟩
      exact ends_pure.mpr ⟨fun hs hall => hsupplied' (hsupplied hs hall), hs',
        hstored'.trans (hstored ▸ rfl)⟩

private theorem remove_ends (frees : Bool) (h : Holds s) (hin : InArray (child s) .root key 0) :
    Ends (remove frees key) s fun r s' => (Supplied s → Supplied s') ∧ Holds s' ∧ stored s' =
      if r then Function.update (stored s) (path key) none else stored s := by
  rw [remove, ends_bind]
  apply (find_ends h hin).mono
  rintro r t ⟨ht, hr⟩
  subst ht
  rw [hr]
  cases hw : walk (child t) .root (path key) with
  | none => exact ends_pure.mpr ⟨id, h, rfl⟩
  | some z =>
    obtain ⟨n, hn⟩ := h.heap_of_walk h.root hw
    rw [ends_bind, ends_load hn, ends_bind, ends_adjust, ends_bind]
    apply (setData_ends (h.adjust _) hw ⟨n, hn⟩).mono
    rintro _ s' ⟨hsupplied, hs', hstored⟩
    refine ends_pure.mpr ⟨fun hs => hsupplied ?_, hs', hstored⟩
    cases frees <;> exact hs

end Calls

/-- A call, with the blocks that the allocator returns for an insertion before it returns `NULL`. -/
inductive Call (ω : Type)
  | find (key : Key)
  | insert (key : Key) (value : Option ω) (blocks : List Nat)
  | remove (frees : Bool) (key : Key)

namespace Call

def key : Call ω → Key
  | find key => key
  | insert key _ _ => key
  | remove _ key => key

def blocks : Call ω → List Nat
  | insert _ _ blocks => blocks
  | _ => []

def hasValue : Call ω → Bool
  | insert _ value _ => value.isSome
  | _ => true

end Call

inductive Reply
  | node (p : Option Addr)
  | removed (b : Bool)

def exec : Call ω → Op ω Reply
  | .find key => do
    let p ← find key
    pure (.node p)
  | .insert key value blocks => do
    let p ← Trie.insert key value blocks
    pure (.node p)
  | .remove frees key => do
    let b ← remove frees key
    pure (.removed b)

/-- The values of the keys after a call: a successful `insert` or `remove` decides on its own key. -/
def afterCall (m : Key → Option ω) : Call ω → Reply → Key → Option ω
  | .insert key value _, .node (some _) => Function.update m key value
  | .remove _ key, .removed true => Function.update m key none
  | _, _ => m

variable {m : Key → Option ω} {c : Call ω} {key : Key}

theorem afterCall_of_ne {reply : Reply} (h : key ≠ c.key) : afterCall m c reply key = m key := by
  rcases c with _ | ⟨key', value, blocks⟩ | ⟨frees, key'⟩
  · rfl
  · rcases reply with (_ | z) | b
    · rfl
    · exact Function.update_of_ne h _ _
    · rfl
  · rcases reply with p | (_ | _)
    · rfl
    · rfl
    · exact Function.update_of_ne h _ _

def step (q : State ω × (Key → Option ω)) (c : Call ω) : Option (State ω × (Key → Option ω)) :=
  ((exec c).run q.1).map fun out => (out.2, afterCall q.2 c out.1)

/-- The blocks are inside the memory of the allocator and not in use. -/
def Available (s : State ω) (c : Call ω) : Bool :=
  decide c.blocks.Nodup && (c.blocks.all fun a => (s.heap (.node a)).isNone) &&
    takes s.vars.pool c.blocks

def Ascii (key : Key) : Bool := key.all fun c => 0 < c.toNat ∧ c.toNat < 128

/-- The blocks are what the pool or `malloc` may return. -/
def Admissible (s : State ω) (c : Call ω) : Bool :=
  ReturnsAll s.vars.pool (inUse s) c.blocks && Ascii c.key && c.hasValue

private theorem fresh_of_available (h : Available s c) : Fresh s c.blocks := by
  obtain ⟨h, htakes⟩ := (Bool.and_eq_true _ _).mp h
  obtain ⟨hnodup, hfree⟩ := (Bool.and_eq_true _ _).mp h
  refine ⟨of_decide_eq_true hnodup, ?_, htakes⟩
  intro a ha
  exact Option.isNone_iff_eq_none.mp (all_eq_true.mp hfree a ha)

theorem Supplied.fresh {blocks : List Nat} (h : Supplied s)
    (hall : ReturnsAll s.vars.pool (inUse s) blocks) : Fresh s blocks := by
  obtain ⟨hnodup, hfree, htakes⟩ := h.takes hall fun _ ha => ha
  refine ⟨hnodup, fun a ha => ?_, htakes⟩
  exact Option.isNone_iff_eq_none.mp (Option.isSome_eq_false_iff.mp (hfree a ha))

theorem ascii_lt (h : Ascii key) {c : BitVec 8} (hc : c ∈ key) : 0 < c.toNat ∧ c.toNat < 128 :=
  of_decide_eq_true (all_eq_true.mp h c hc)

theorem path_injective {key' : Key} (h : 0#8 ∉ key) (h' : 0#8 ∉ key')
    (he : path key = path key') : key = key' := by
  have hmap : ∀ {c : BitVec 8} {p : Key}, 0#8 ∉ c :: p → [0] ≠ (c :: p).map BitVec.toNat := by
    intro c p hc hp
    have hzero : c = 0#8 := BitVec.eq_of_toNat_eq (cons.inj hp).1.symm
    exact hc (hzero ▸ mem_cons_self)
  cases key with
  | nil =>
    cases key' with
    | nil => rfl
    | cons c' p' => exact absurd he (hmap h')
  | cons c p =>
    cases key' with
    | nil => exact absurd he.symm (hmap h)
    | cons c' p' => exact map_injective_iff.mpr (fun _ _ => BitVec.eq_of_toNat_eq) he

private theorem zero_not_mem_of_ascii (h : Ascii key) : 0#8 ∉ key :=
  fun hmem => absurd (ascii_lt h hmem).1 (by decide)

theorem inArray_of_ascii (h : Ascii key) (next : Addr → Nat → Option Addr) (x : Addr)
    (k : Nat) : InArray next x key k := by
  rintro pre c post rfl _
  exact (ascii_lt h (mem_append_right _ mem_cons_self)).2

variable {capacity : BitVec 64} {poolMem : Bool} {mem : Malloc}

theorem init_supplied (h : init ω capacity poolMem mem = some s) (hfit : SizeFits s.vars.pool) :
    Supplied s := by
  obtain ⟨pool, hpool, rfl⟩ := Option.map_eq_some_iff.mp h
  exact (backed_init hpool (by decide) hfit).congr fun a => iff_of_false Bool.false_ne_true id

theorem init_holds (h : init ω capacity poolMem mem = some s) :
    Holds s ∧ ∀ p, stored s p = none := by
  have hheap : s.heap .root = some .zero ∧ ∀ a, s.heap (.node a) = none := by
    obtain ⟨pool, hpool, rfl⟩ := Option.map_eq_some_iff.mp h
    exact ⟨rfl, fun _ => rfl⟩
  have hchild : ∀ x i, child s x i = none := by
    intro x i
    cases x with
    | root =>
      rw [child, hheap.1]
      rfl
    | node a => exact child_of_free (hheap.2 a)
  refine ⟨⟨⟨_, hheap.1⟩, ?_, ⟨?_, ?_⟩⟩, ?_⟩
  · intro x i y hy
    rw [hchild] at hy
    cases hy
  · intro x i hy
    rw [hchild] at hy
    cases hy
  · intro x y z i j hx
    rw [hchild] at hx
    cases hx
  · intro p
    cases p with
    | nil =>
      change data s .root = none
      rw [data, field_eq hheap.1]
      rfl
    | cons i p =>
      rw [stored, lookup, walk, hchild]
      rfl

section Exec

variable {s : State ω} {c : Call ω}

theorem exec_ends (h : Holds s) (hfresh : Fresh s c.blocks)
    (hin : InArray (child s) .root c.key c.blocks.length) :
    Ends (exec c) s fun reply s' =>
      (Supplied s → ReturnsAll s.vars.pool (inUse s) c.blocks → Supplied s') ∧
      Holds s' ∧ ∀ (m : Key → Option ω) (key : Key),
      (path key = path c.key → key = c.key) → stored s (path key) = m key →
        stored s' (path key) = afterCall m c reply key := by
  have hupdate : ∀ {s' : State ω} {v : Option ω},
      stored s' = Function.update (stored s) (path c.key) v →
      ∀ (m : Key → Option ω) (key : Key), (path key = path c.key → key = c.key) →
        stored s (path key) = m key → stored s' (path key) = Function.update m c.key v key := by
    intro s' v hs' m key hinj hkey
    rw [hs']
    by_cases he : key = c.key
    · rw [he, Function.update_self, Function.update_self]
    · rw [Function.update_of_ne he, Function.update_of_ne fun hp => he (hinj hp), hkey]
  cases c with
  | find key =>
    rw [exec, ends_bind]
    apply (find_ends h hin).mono
    rintro r _ ⟨rfl, _⟩
    exact ends_pure.mpr ⟨fun hs _ => hs, h, fun _ _ _ hkey => hkey⟩
  | insert key value blocks =>
    rw [exec, ends_bind]
    apply (insert_ends h hfresh hin).mono
    rintro r s' ⟨hsupplied, hs', hstored⟩
    cases r with
    | none => exact ends_pure.mpr ⟨hsupplied, hs', fun _ _ _ hkey => hstored ▸ hkey⟩
    | some z => exact ends_pure.mpr ⟨hsupplied, hs', hupdate hstored⟩
  | remove frees key =>
    rw [exec, ends_bind]
    apply (remove_ends frees h hin).mono
    rintro r s' ⟨hsupplied, hs', hstored⟩
    cases r with
    | false =>
      exact ends_pure.mpr ⟨fun hs _ => hsupplied hs, hs', fun _ _ _ hkey => hstored ▸ hkey⟩
    | true => exact ends_pure.mpr ⟨fun hs _ => hsupplied hs, hs', hupdate hstored⟩

private theorem exec_ends_iff (h : Holds s) (hfresh : Fresh s c.blocks) :
    Ends (exec c) s (fun _ _ => True) ↔ InArray (child s) .root c.key c.blocks.length := by
  have hfind : ∀ {key : Key}, Ends (find key) s (fun _ _ => True) →
      InArray (child s) .root key 0 := by
    intro key hends
    cases key with
    | nil => exact inArray_nil
    | cons b p => exact inArray_of_descend h h.root hends
  constructor
  · intro hends
    cases c with
    | find key =>
      rw [exec, ends_bind] at hends
      exact hfind (hends.mono fun _ _ _ => trivial)
    | insert key value blocks =>
      rw [exec, ends_bind] at hends
      cases key with
      | nil => exact inArray_nil
      | cons b p =>
        rw [Trie.insert.eq_def, ends_bind] at hends
        exact inArray_of_extend h h.root hfresh (hends.mono fun _ _ _ => trivial)
    | remove frees key =>
      rw [exec, ends_bind, remove, ends_bind] at hends
      exact hfind (hends.mono fun _ _ _ => trivial)
  · intro hin
    exact (exec_ends h hfresh hin).mono fun _ _ _ => trivial

end Exec

/-- The data that `find` leads to, if it finds a node. -/
def found (s : State ω) (r : Option Addr) : Option ω := r.bind (data s)

private theorem find_found (h : Holds s) (hkey : Ascii key) :
    ∃ r, (find key).run s = some (r, s) ∧ found s r = stored s (path key) := by
  obtain ⟨r, _, hrun, rfl, rfl⟩ := find_ends h (inArray_of_ascii hkey (child s) .root 0)
  exact ⟨_, hrun, rfl⟩

def Agrees (q : State ω × (Key → Option ω)) : Prop :=
  Holds q.1 ∧ Supplied q.1 ∧ ∀ key, Ascii key → stored q.1 (path key) = q.2 key

private theorem exec_agrees (h : Agrees (s, m))
    (hc : Admissible s c) : ∃ reply s', (exec c).run s = some (reply, s') ∧
      Agrees (s', afterCall m c reply) := by
  obtain ⟨hc, _⟩ := (Bool.and_eq_true _ _).mp hc
  obtain ⟨hall, hascii⟩ := (Bool.and_eq_true _ _).mp hc
  obtain ⟨reply, s', hrun, hsupplied, hs', hstored⟩ := exec_ends h.1 (h.2.1.fresh hall)
    (inArray_of_ascii hascii _ _ _)
  refine ⟨reply, s', hrun, hs', hsupplied h.2.1 hall, ?_⟩
  intro key hkey
  exact hstored m key (path_injective (zero_not_mem_of_ascii hkey) (zero_not_mem_of_ascii hascii))
    (h.2.2 key hkey)

/-- After any calls `find` leads to the value of the last successful insertion of its key, and to no
data if there is none or the key has been removed since; the next call ends, and the data of all
other keys stays, also when a failed insertion has left nodes behind. -/
theorem trie_is_map {fresh : State ω} (hinit : init ω capacity poolMem mem = some fresh)
    (hfit : SizeFits fresh.vars.pool) {calls : List (Call ω)} {s : State ω}
    {m : Key → Option ω} (hrun : run (guarded step fun q c => Admissible q.1 c)
      (fresh, fun _ => none) calls = some (s, m)) :
    (∀ key, Ascii key → ∃ r, (find key).run s = some (r, s) ∧ found s r = m key) ∧
      ∀ c, Admissible s c → ∃ reply s', (exec c).run s = some (reply, s') ∧
        ∀ key, Ascii key → ∃ r r', (find key).run s = some (r, s) ∧
          (find key).run s' = some (r', s') ∧ found s' r' = afterCall m c reply key ∧
          (key ≠ c.key → found s' r' = found s r) := by
  have hagrees : Agrees (s, m) := by
    refine run_invariant (I := Agrees) ?_ ?_ hrun
    · intro q c q' hq hstep
      obtain ⟨hc, hstep⟩ := guarded_eq_some.mp hstep
      obtain ⟨reply, s', hexec, hs'⟩ := exec_agrees hq hc
      rw [step, hexec] at hstep
      exact Option.some.inj hstep ▸ hs'
    · obtain ⟨hfresh, hnone⟩ := init_holds hinit
      exact ⟨hfresh, init_supplied hinit hfit, fun key _ => hnone _⟩
  have hfind : ∀ {q : State ω × (Key → Option ω)}, Agrees q → ∀ key, Ascii key →
      ∃ r, (find key).run q.1 = some (r, q.1) ∧ found q.1 r = q.2 key := by
    intro q hq key hkey
    obtain ⟨r, hr, hfound⟩ := find_found hq.1 hkey
    exact ⟨r, hr, hfound.trans (hq.2.2 key hkey)⟩
  refine ⟨hfind hagrees, ?_⟩
  intro c hc
  obtain ⟨reply, s', hexec, hs'⟩ := exec_agrees hagrees hc
  refine ⟨reply, s', hexec, ?_⟩
  intro key hkey
  obtain ⟨r, hr, hfound⟩ := hfind hagrees key hkey
  obtain ⟨r', hr', hfound'⟩ := hfind hs' key hkey
  refine ⟨r, r', hr, hr', hfound', ?_⟩
  intro hne
  rw [hfound', hfound]
  exact afterCall_of_ne hne

def someCalls : List (Call Nat) :=
  [.insert [97#8, 98#8] (some 1) [0, 2056], .insert [97#8] (some 2) [],
    .insert [] (some 3) [4294967296], .insert [97#8, 98#8, 99#8, 100#8] (some 4) [4294969352],
    .remove true [97#8, 98#8], .remove true [98#8], .insert [97#8, 98#8] (some 5) [],
    .remove false []]

theorem trie_is_map_some_calls : ∃ fresh s m, init Nat 2#64 true PoolLedger.memoryOk = some fresh ∧
      SizeFits fresh.vars.pool ∧
      run (guarded step fun q c => Admissible q.1 c) (fresh, fun _ => none) someCalls =
        some (s, m) ∧ m [97#8, 98#8] = some 5 ∧
      ∃ r, (find [97#8, 98#8]).run s = some (r, s) ∧ found s r = m [97#8, 98#8] := by
  have hsome : ((init Nat 2#64 true PoolLedger.memoryOk).bind fun fresh =>
      (run (guarded step fun q c => Admissible q.1 c) (fresh, fun _ => none) someCalls).map fun q =>
        (SizeFits fresh.vars.pool, q.2 [97#8, 98#8])) = some (true, some 5) := by decide +kernel
  obtain ⟨fresh, hinit, hq⟩ := Option.bind_eq_some_iff.mp hsome
  obtain ⟨⟨s, m⟩, hrun, hm⟩ := Option.map_eq_some_iff.mp hq
  obtain ⟨hfit, hm⟩ := Prod.mk.inj hm
  exact ⟨fresh, s, m, hinit, hfit, hrun, hm, (trie_is_map hinit hfit hrun).1 _ (by decide)⟩

/-- The pool for 2088992 nodes of 2056 bytes asks `malloc` for 256 bytes. -/
theorem trie_node_outside_pool : ∃ fresh,
      init Nat 2088992#64 true PoolLedger.memoryOk = some fresh ∧
      Admissible fresh (.insert [97#8] (some 1) [0]) ∧
      (exec (.insert [97#8] (some 1) [0])).run fresh = none := by
  obtain ⟨p, hp, hsmall⟩ : ∃ p, nodePool 2088992#64 2056 true PoolLedger.memoryOk =
      some (some p) ∧ u32 (p.blockSize * p.capacity) < p.blockSize := ⟨_, rfl, by decide⟩
  obtain ⟨hreturns, htake⟩ := returns_outside hp hsmall fun _ => false
  refine ⟨_, congrArg (Option.map _) hp, ?_, ?_⟩
  · have hall : ReturnsAll (some p) (fun _ => false) [0] :=
      (Bool.and_eq_true _ _).mpr ⟨hreturns, by rw [htake]; rfl⟩
    exact (Bool.and_eq_true _ _).mpr ⟨(Bool.and_eq_true _ _).mpr ⟨hall, rfl⟩, rfl⟩
  · have hstuck (s : State Nat) (hs : s.vars.pool = some p) : (allocateNode 0).run s = none := by
      refine run_bind_of_stuck _ (takeNode_stuck ?_)
      rw [hs]
      exact htake
    exact run_bind_of_stuck _ (run_bind_of_stuck (p := extend [97#8] [0] .root) _
      (run_bind_of_stuck (p := allocateNode 0) (fun _ => do
        setChildAt .root 97#8 (.node 0)
        extend [] [] (.node 0)) (hstuck _ rfl)))

/-- In every state that calls with any keys reach, the next call keeps its indices inside the arrays
of children exactly when no byte from 128 on comes where its walk gets to; keys are told apart by
their paths. -/
theorem indices_in_array_iff {fresh : State ω}
    (hinit : init ω capacity poolMem mem = some fresh) {calls : List (Call ω)} {s : State ω}
    {m : Key → Option ω} (hrun : run (guarded step fun q c => Available q.1 c)
      (fresh, fun _ => none) calls = some (s, m)) (c : Call ω) (hc : Available s c) :
    (((exec c).run s).isSome ↔ InArray (child s) .root c.key c.blocks.length) ∧
      ∀ key key' : Key, 0#8 ∉ key → 0#8 ∉ key' → key ≠ key' → path key ≠ path key' := by
  have hends : ∀ {t : State ω} {d : Call ω},
      ((exec d).run t).isSome ↔ Ends (exec d) t fun _ _ => True := by
    intro t d
    rw [Option.isSome_iff_exists]
    exact ⟨fun ⟨⟨r, t'⟩, he⟩ => ⟨r, t', he, trivial⟩, fun ⟨r, t', he, _⟩ => ⟨(r, t'), he⟩⟩
  have hholds : Holds s := by
    refine run_invariant (I := fun q => Holds q.1) ?_ (init_holds hinit).1 hrun
    intro q d q' hq hstep
    obtain ⟨hd, hstep⟩ := guarded_eq_some.mp hstep
    obtain ⟨⟨reply, t⟩, hexec, rfl⟩ := Option.map_eq_some_iff.mp hstep
    have hfresh := fresh_of_available hd
    have hin := (exec_ends_iff hq hfresh).mp ⟨reply, t, hexec, trivial⟩
    obtain ⟨_, _, hexec', _, ht, _⟩ := exec_ends hq hfresh hin
    rw [hexec] at hexec'
    cases hexec'
    exact ht
  refine ⟨hends.trans (exec_ends_iff hholds (fresh_of_available hc)), ?_⟩
  intro key key' hkey hkey' hne he
  exact hne (path_injective hkey hkey' he)

theorem utf8_key_leaves_array :
    ((init Nat 0#64 true PoolLedger.memoryOk).bind fun fresh =>
        (find [0xC3#8, 0xA9#8]).run fresh).isNone ∧
      (init Nat 0#64 true PoolLedger.memoryOk).isSome ∧ (0xC3#8).toInt = -61 := by
  refine ⟨?_, ?_, ?_⟩
  · decide
  · decide
  · decide

theorem indices_in_array_iff_some_call : ∃ fresh,
      init Nat 0#64 true PoolLedger.memoryOk = some fresh ∧
      (((exec (.insert [97#8, 0xC3#8] (some 1) [7])).run fresh).isSome ↔
        InArray (child fresh) .root [97#8, 0xC3#8] 1) := by
  have hsome : (init Nat 0#64 true PoolLedger.memoryOk).isSome := by decide
  obtain ⟨fresh, hinit⟩ := Option.isSome_iff_exists.mp hsome
  refine ⟨fresh, hinit, (@indices_in_array_iff _ _ _ _ _ hinit [] _ _ rfl
    (.insert [97#8, 0xC3#8] (some 1) [7]) ?_).1⟩
  exact Option.some.inj hinit ▸ rfl

end MuggleC.Dsaa.TrieRuns
