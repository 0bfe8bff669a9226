/- source: dsaa/avl_tree.c
   digest: The AVL tree with its nodes in memory, and when the memory holds a tree with a hole. -/

import MuggleC.Dsaa.NodePool
import MuggleC.Foundation.BalancedTree

set_option autoImplicit false

/-! `NULL` is `none`. A program gets stuck when it touches an address without a node, and when a
loop makes more turns than there are nodes. -/

namespace MuggleC.Dsaa.AvlTree

open Foundation.BalancedTree (Side)
open Foundation.Blocks Foundation.Program Memory NodePool

structure Node (κ ω : Type) where
  left : Option Nat
  right : Option Nat
  parent : Option Nat
  balance : Int
  key : Option κ
  value : Option ω
  deriving DecidableEq, Repr

namespace Node

variable {κ ω : Type}

def child (n : Node κ ω) : Side → Option Nat
  | .left => n.left
  | .right => n.right

def setChild (d : Side) (p : Option Nat) (n : Node κ ω) : Node κ ω :=
  match d with
  | .left => { n with left := p }
  | .right => { n with right := p }

def setParent (p : Option Nat) (n : Node κ ω) : Node κ ω := { n with parent := p }

def setBalance (b : Int) (n : Node κ ω) : Node κ ω := { n with balance := b }

def setKey (k : Option κ) (n : Node κ ω) : Node κ ω := { n with key := k }

def setValue (v : Option ω) (n : Node κ ω) : Node κ ω := { n with value := v }

end Node

inductive Freed (κ ω : Type)
  | key (k : κ)
  | value (v : ω)
  deriving DecidableEq, Repr

/-- Which of `key_func_free` and `value_func_free` are not `NULL`. -/
structure Frees where
  key : Bool
  value : Bool

/-- What there is beside the memory: the root, the number of nodes, how many times an assertion has
failed, and what has been passed to the free functions. -/
structure Vars (κ ω : Type) where
  root : Option Nat
  nodes : Nat
  failedAsserts : Nat
  freed : List (Freed κ ω)
  pool : Option MemoryPool

abbrev State (κ ω : Type) := Store Nat (Node κ ω) (Vars κ ω)

abbrev Op (κ ω α : Type) := Prog (State κ ω) α

def nodeSize : UInt32 := 48

def empty (κ ω : Type) (pool : Option MemoryPool) : State κ ω := ⟨fun _ => none, ⟨none, 0, 0, [], pool⟩⟩

/-- `muggle_avl_tree_init`; the flag tells whether a comparator is given. -/
def init (κ ω : Type) (cmpGiven : Bool) (capacity : BitVec 64) (poolMem : Bool) (mem : Malloc) :
    Option (State κ ω) :=
  if cmpGiven = false then none
  else (nodePool capacity nodeSize poolMem mem).map (empty κ ω)

variable {κ ω : Type}

def loadRoot : Op κ ω (Option Nat) := get Vars.root

def setRoot (p : Option Nat) (v : Vars κ ω) : Vars κ ω := { v with root := p }

def storeRoot (p : Option Nat) : Op κ ω Unit := adjust (setRoot p)

def turns : Op κ ω Nat := get fun v => v.nodes + 1

def assert (c : Bool) : Op κ ω Unit :=
  adjust fun v => if c then v else { v with failedAsserts := v.failedAsserts + 1 }

def whenSome (p : Option Nat) (f : Nat → Op κ ω Unit) : Op κ ω Unit :=
  match p with
  | none => pure ()
  | some a => f a

def replaceChild (p x : Nat) (z : Option Nat) : Op κ ω Unit := do
  let n ← load p
  modify p (Node.setChild (if n.left = some x then .left else .right) z)

def sideIn (p x : Nat) : Op κ ω Side := do
  let n ← load p
  pure (if n.left = some x then .left else .right)

def rootBecomes (x z : Nat) : Op κ ω Unit := do
  let root ← loadRoot
  storeRoot (if root = some x then some z else root)

def relink (parent : Option Nat) (x z : Nat) : Op κ ω Unit := do
  whenSome parent fun p => replaceChild p x (some z)
  modify z (Node.setParent parent)
  rootBecomes x z

def adopt (t : Option Nat) (x : Nat) : Op κ ω Unit :=
  whenSome t fun a => modify a (Node.setParent (some x))

/-- What tells the two single rotations apart: the high side, the asserted balances, and the table
of the new balances of `x` and `z` with the returned flag. -/
structure SingleRotation where
  high : Side
  xBalance : Int
  zBalance : Int
  table : Int → Int × Int × Bool

def rotateSingle (r : SingleRotation) (node : Nat) : Op κ ω Bool := do
  let x ← load node
  assert (x.child r.high).isSome
  assert (x.balance = r.xBalance)
  let za ← deref (x.child r.high)
  let z ← load za
  assert (z.balance = r.zBalance ∨ z.balance = 0)
  relink x.parent node za
  let z ← load za
  modify node (Node.setChild r.high (z.child r.high.other))
  adopt (z.child r.high.other) node
  modify node (Node.setParent (some za))
  modify za (Node.setChild r.high.other (some node))
  modify node (Node.setBalance (r.table z.balance).1)
  modify za (Node.setBalance (r.table z.balance).2.1)
  pure (r.table z.balance).2.2

def rotateLeft : Nat → Op κ ω Bool :=
  rotateSingle ⟨.right, 2, 1, fun z => if z = 0 then (1, -1, false) else (0, 0, true)⟩

def rotateRight : Nat → Op κ ω Bool :=
  rotateSingle ⟨.left, -2, -1, fun z => if z = 0 then (-1, 1, false) else (0, 0, true)⟩

structure DoubleRotation where
  high : Side
  xBalance : Int
  zBalance : Int
  table : Int → Int × Int

def linkBoth (y l r : Nat) : Op κ ω Unit := do
  modify y (Node.setChild .left (some l))
  modify l (Node.setParent (some y))
  modify y (Node.setChild .right (some r))
  modify r (Node.setParent (some y))

def linkSides (d : Side) (y x z : Nat) : Op κ ω Unit :=
  match d with
  | .right => linkBoth y x z
  | .left => linkBoth y z x

def rotateDouble (r : DoubleRotation) (node : Nat) : Op κ ω Unit := do
  let x ← load node
  assert (x.child r.high).isSome
  let za ← deref (x.child r.high)
  let z ← load za
  assert (z.child r.high.other).isSome
  assert (x.balance = r.xBalance)
  assert (z.balance = r.zBalance)
  let ya ← deref (z.child r.high.other)
  let y ← load ya
  relink x.parent node ya
  modify node (Node.setChild r.high (y.child r.high.other))
  adopt (y.child r.high.other) node
  modify za (Node.setChild r.high.other (y.child r.high))
  adopt (y.child r.high) za
  linkSides r.high ya node za
  modify node (Node.setBalance (r.table y.balance).1)
  modify za (Node.setBalance (r.table y.balance).2)
  modify ya (Node.setBalance 0)

def rotateRightLeft : Nat → Op κ ω Unit :=
  rotateDouble ⟨.right, 2, -1, fun y => if 0 < y then (-1, 0) else if y = 0 then (0, 0) else (0, 1)⟩

def rotateLeftRight : Nat → Op κ ω Unit :=
  rotateDouble ⟨.left, -2, 1, fun y => if 0 < y then (0, -1) else if y = 0 then (0, 0) else (1, 0)⟩

/-- `muggle_avl_tree_rebalance`; the result tells whether the subtree has become lower. -/
def rebalance (node : Nat) : Op κ ω Bool := do
  let n ← load node
  if n.balance < -1 then do
    let ca ← deref n.left
    let child ← load ca
    if child.balance ≤ 0 then rotateRight node
    else do
      rotateLeftRight node
      pure true
  else if 1 < n.balance then do
    let ca ← deref n.right
    let child ← load ca
    if 0 ≤ child.balance then rotateLeft node
    else do
      rotateRightLeft node
      pure true
  else pure false

def setPool (pool : Option MemoryPool) (v : Vars κ ω) : Vars κ ω := { v with pool := pool }

/-- `muggle_avl_tree_allocate_node`, where `got` is what the pool or `malloc` returns. -/
def allocateNode (got : Option Nat) : Op κ ω (Option Nat) := do
  whenSome got fun a => do
    takeNode Vars.pool setPool a
    create a ⟨none, none, none, 0, none, none⟩
    adjust fun v => { v with nodes := v.nodes + 1 }
  pure got

/-- `muggle_memory_pool_free` or `free`. -/
def freeNode (a : Nat) : Op κ ω Unit := do
  release a
  adjust fun v => { v with nodes := v.nodes - 1, pool := give v.pool a }

def logFree (c : Bool) (f : Freed κ ω) : Op κ ω Unit :=
  adjust fun v => if c then { v with freed := v.freed ++ [f] } else v

def eraseKey (frees : Frees) (node : Nat) : Op κ ω Unit := do
  let n ← load node
  match n.key with
  | none => pure ()
  | some k => do
    logFree frees.key (.key k)
    modify node (Node.setKey none)

def eraseValue (frees : Frees) (node : Nat) : Op κ ω Unit := do
  let n ← load node
  match n.value with
  | none => pure ()
  | some v => do
    logFree frees.value (.value v)
    modify node (Node.setValue none)

def eraseNode (frees : Frees) : Nat → Nat → Op κ ω Unit
  | 0, _ => stuck
  | fuel + 1, node => do
    let n ← load node
    whenSome n.left (eraseNode frees fuel)
    let n ← load node
    whenSome n.right (eraseNode frees fuel)
    eraseKey frees node
    eraseValue frees node
    let n ← load node
    whenSome n.parent fun p => replaceChild p node none
    freeNode node

def clear (frees : Frees) : Op κ ω Unit := do
  let root ← loadRoot
  let fuel ← turns
  whenSome root (eraseNode frees fuel)

section Compare

variable (cmp : Option κ → Option κ → Int)

def findFrom (data : Option κ) : Nat → Option Nat → Op κ ω (Option Nat)
  | _, none => pure none
  | 0, some _ => stuck
  | fuel + 1, some node => do
    let n ← load node
    if cmp data n.key = 0 then pure (some node)
    else if cmp data n.key < 0 then findFrom data fuel n.left
    else findFrom data fuel n.right

def find (data : Option κ) : Op κ ω (Option Nat) := do
  let root ← loadRoot
  let fuel ← turns
  findFrom cmp data fuel root

/-- The first loop of `muggle_avl_tree_insert`: the node and the side where the new node goes, or
nothing when the key is there. -/
def insertPoint (key : Option κ) : Nat → Nat → Op κ ω (Option (Nat × Side))
  | 0, _ => stuck
  | fuel + 1, node => do
    let n ← load node
    if cmp key n.key = 0 then pure none
    else if cmp key n.key < 0 then
      match n.left with
      | some l => insertPoint key fuel l
      | none => pure (some (node, .left))
    else
      match n.right with
      | some r => insertPoint key fuel r
      | none => pure (some (node, .right))

def insertRetrace : Nat → Nat → Side → Op κ ω Unit
  | 0, _, _ => stuck
  | fuel + 1, node, side => do
    modify node fun n => n.setBalance (n.balance + side.sign)
    let n ← load node
    if n.balance = 0 then pure ()
    else if n.balance = 1 ∨ n.balance = -1 then
      whenSome n.parent fun p => do
        let d ← sideIn p node
        insertRetrace fuel p d
    else do
      assert (n.balance = 2 ∨ n.balance = -2)
      let _ ← rebalance node
      pure ()

def insertRoot (key : Option κ) (value : Option ω) (got : Option Nat) : Op κ ω (Option Nat) := do
  let node ← allocateNode got
  match node with
  | none => pure none
  | some a => do
    modify a fun n => ((n.setKey key).setValue value).setBalance 0
    storeRoot (some a)
    pure (some a)

def insertAt (key : Option κ) (value : Option ω) (got : Option Nat) (node : Nat) (side : Side) :
    Op κ ω (Option Nat) := do
  let new ← allocateNode got
  match new with
  | none => pure none
  | some a => do
    modify node (Node.setChild side (some a))
    modify a fun n => (((n.setParent (some node)).setKey key).setValue value).setBalance 0
    let fuel ← turns
    insertRetrace fuel node side
    pure (some a)

def insert (key : Option κ) (value : Option ω) (got : Option Nat) : Op κ ω (Option Nat) := do
  let root ← loadRoot
  match root with
  | none => insertRoot key value got
  | some node => do
    let fuel ← turns
    let point ← insertPoint cmp key fuel node
    match point with
    | none => pure none
    | some (node, side) => insertAt key value got node side

end Compare

/-- `while (target->right) target = target->right;`, and the same on the left. -/
def farthest (d : Side) : Nat → Nat → Op κ ω Nat
  | 0, _ => stuck
  | fuel + 1, target => do
    let n ← load target
    match n.child d with
    | some c => farthest d fuel c
    | none => pure target

/-- The keys of two nodes change places, and so do their values. -/
def swapData (node target : Nat) : Op κ ω Unit := do
  let n ← load node
  let m ← load target
  modify node (Node.setKey m.key)
  modify target (Node.setKey n.key)
  modify node (Node.setValue m.value)
  modify target (Node.setValue n.value)

/-- The first loop of `muggle_avl_tree_remove`: the data goes down to a leaf. -/
def sink : Nat → Nat → Op κ ω Nat
  | 0, _ => stuck
  | fuel + 1, node => do
    let n ← load node
    match n.left with
    | some l => do
      let target ← farthest .right fuel l
      swapData node target
      sink fuel target
    | none =>
      match n.right with
      | some r => do
        let target ← farthest .left fuel r
        swapData node target
        sink fuel target
      | none => pure node

def removeRetrace : Nat → Nat → Side → Op κ ω Unit
  | 0, _, _ => stuck
  | fuel + 1, node, side => do
    modify node fun n => n.setBalance (n.balance - side.sign)
    let n ← load node
    if n.balance = 1 ∨ n.balance = -1 then pure ()
    else if n.balance = 0 then
      whenSome n.parent fun p => do
        let d ← sideIn p node
        removeRetrace fuel p d
    else do
      assert (n.balance = 2 ∨ n.balance = -2)
      match n.parent with
      | none => do
        let _ ← rebalance node
        pure ()
      | some p => do
        let d ← sideIn p node
        let decrease ← rebalance node
        if decrease then removeRetrace fuel p d else pure ()

def remove (frees : Frees) (node : Nat) : Op κ ω Unit := do
  let fuel ← turns
  let node ← sink fuel node
  let n ← load node
  match n.parent with
  | none => do
    eraseNode frees fuel node
    storeRoot none
  | some p => do
    let d ← sideIn p node
    eraseNode frees fuel node
    removeRetrace fuel p d

end MuggleC.Dsaa.AvlTree

namespace MuggleC.Dsaa.AvlShape

open Foundation.BalancedTree Foundation.Blocks Foundation.Program AvlTree List NodePool

variable {κ ω : Type}

structure Cell (κ ω : Type) where
  addr : Nat
  key : Option κ
  value : Option ω

def nodeOf (d : Side) (x : Cell κ ω) (b : Int) (parent inner outer : Option Nat) : Node κ ω :=
  match d with
  | .left => ⟨outer, inner, parent, b, x.key, x.value⟩
  | .right => ⟨inner, outer, parent, b, x.key, x.value⟩

section Fields

variable (d : Side) (x : Cell κ ω) (b : Int) (p i o q : Option Nat)

@[simp] theorem nodeOf_child : (nodeOf d x b p i o).child d = o := by cases d <;> rfl

@[simp] theorem nodeOf_child_other : (nodeOf d x b p i o).child d.other = i := by cases d <;> rfl

@[simp] theorem nodeOf_parent : (nodeOf d x b p i o).parent = p := by cases d <;> rfl

@[simp] theorem nodeOf_balance : (nodeOf d x b p i o).balance = b := by cases d <;> rfl

@[simp] theorem nodeOf_key : (nodeOf d x b p i o).key = x.key := by cases d <;> rfl

@[simp] theorem nodeOf_value : (nodeOf d x b p i o).value = x.value := by cases d <;> rfl

@[simp] theorem setChild_nodeOf : (nodeOf d x b p i o).setChild d q = nodeOf d x b p i q := by
  cases d <;> rfl

@[simp] theorem setChild_other_nodeOf :
    (nodeOf d x b p i o).setChild d.other q = nodeOf d x b p q o := by cases d <;> rfl

@[simp] theorem setParent_nodeOf : (nodeOf d x b p i o).setParent q = nodeOf d x b q i o := by
  cases d <;> rfl

@[simp] theorem setBalance_nodeOf (c : Int) :
    (nodeOf d x b p i o).setBalance c = nodeOf d x c p i o := by cases d <;> rfl

@[simp] theorem setKey_nodeOf (k : Option κ) :
    (nodeOf d x b p i o).setKey k = nodeOf d { x with key := k } b p i o := by cases d <;> rfl

@[simp] theorem setValue_nodeOf (v : Option ω) :
    (nodeOf d x b p i o).setValue v = nodeOf d { x with value := v } b p i o := by cases d <;> rfl

theorem side_nodeOf {a : Nat} (h : i ≠ some a) :
    (if (nodeOf d x b p i (some a)).left = some a then Side.left else .right) = d := by
  cases d with
  | left => exact if_pos rfl
  | right => exact if_neg h

end Fields

section Rules

variable {s : State κ ω} {post : Unit → State κ ω → Prop}

theorem ends_loadRoot {post : Option Nat → State κ ω → Prop} :
    Ends loadRoot s post ↔ post s.vars.root s := ends_get

theorem ends_storeRoot {p : Option Nat} :
    Ends (storeRoot p) s post ↔ post () (s.adjust (setRoot p)) := ends_adjust

theorem ends_turns {post : Nat → State κ ω → Prop} : Ends turns s post ↔ post (s.vars.nodes + 1) s :=
  ends_get

theorem ends_assert {c : Bool} (h : c = true) : Ends (assert c) s post ↔ post () s := by
  rw [h]
  exact ends_adjust

@[simp] theorem write_root (s : State κ ω) (a : Nat) (n : Option (Node κ ω)) :
    (s.write a n).vars.root = s.vars.root := rfl

end Rules

structure Rest (s t : State κ ω) : Prop where
  nodes : t.vars.nodes = s.vars.nodes
  failedAsserts : t.vars.failedAsserts = s.vars.failedAsserts
  freed : t.vars.freed = s.vars.freed
  pool : t.vars.pool = s.vars.pool

theorem Rest.refl (s : State κ ω) : Rest s s := ⟨rfl, rfl, rfl, rfl⟩

variable {s : State κ ω}

theorem Rest.trans {t u : State κ ω} (h : Rest s t) (h' : Rest t u) : Rest s u :=
  ⟨h'.nodes.trans h.nodes, h'.failedAsserts.trans h.failedAsserts, h'.freed.trans h.freed,
    h'.pool.trans h.pool⟩

structure Differs (l : List Nat) (s t : State κ ω) : Prop where
  frame : ∀ a, a ∉ l → t.heap a = s.heap a
  root : t.vars.root = s.vars.root
  rest : Rest s t

theorem Differs.refl (l : List Nat) (s : State κ ω) : Differs l s s :=
  ⟨fun _ _ => rfl, rfl, Rest.refl s⟩

variable {a : Nat} {h : Nat → Option (Node κ ω)} {p : Option Nat} {d : Side} {x : Cell κ ω}
  {b : Int} {l : List Nat}

theorem Differs.write {t : State κ ω} (h : Differs l s t) (ha : a ∈ l)
    (n : Option (Node κ ω)) : Differs l s (t.write a n) := by
  refine ⟨?_, h.root, h.rest.trans ⟨rfl, rfl, rfl, rfl⟩⟩
  intro c hc
  exact (heap_write_of_ne (ne_of_mem_of_not_mem ha hc).symm).trans (h.frame c hc)

theorem Differs.trans {l' : List Nat} {t u : State κ ω} (h : Differs l s t)
    (h' : Differs l' t u) (hl : ∀ a ∈ l', a ∈ l) : Differs l s u := by
  refine ⟨?_, h'.root.trans h.root, h.rest.trans h'.rest⟩
  intro a ha
  exact (h'.frame a fun ha' => ha (hl a ha')).trans (h.frame a ha)

def ptr : BinTree (Cell κ ω) → Option Nat
  | .leaf => none
  | .node _ x _ _ => some x.addr

def addrs (t : BinTree (Cell κ ω)) : List Nat := t.inorder.map Cell.addr

def Rep (h : Nat → Option (Node κ ω)) : Option Nat → BinTree (Cell κ ω) → Prop
  | _, .leaf => True
  | p, .node l x b r => h x.addr = some (nodeOf .right x b p (ptr l) (ptr r)) ∧
      Rep h (some x.addr) l ∧ Rep h (some x.addr) r

def parentPtr : List (Frame (Cell κ ω)) → Option Nat
  | [] => none
  | f :: _ => some f.label.addr

def topPtr : Option Nat → List (Frame (Cell κ ω)) → Option Nat
  | p, [] => p
  | _, f :: fs => topPtr (some f.label.addr) fs

def ctxAddrs : List (Frame (Cell κ ω)) → List Nat
  | [] => []
  | f :: fs => f.label.addr :: (addrs f.sibling ++ ctxAddrs fs)

def CtxRep (h : Nat → Option (Node κ ω)) : Option Nat → List (Frame (Cell κ ω)) → Prop
  | _, [] => True
  | p, f :: fs =>
    h f.label.addr = some (nodeOf f.side f.label f.balance (parentPtr fs) (ptr f.sibling) p) ∧
      Rep h (some f.label.addr) f.sibling ∧ CtxRep h (some f.label.addr) fs

@[simp] theorem ptr_join (d : Side) (x : Cell κ ω) (b : Int) (i o : BinTree (Cell κ ω)) :
    ptr (join d x b i o) = some x.addr := by cases d <;> rfl

variable {i o : BinTree (Cell κ ω)} {t : BinTree (Cell κ ω)} {ctx : List (Frame (Cell κ ω))}
  {s : State κ ω}

theorem rep_join : Rep h p (join d x b i o) ↔ h x.addr = some (nodeOf d x b p (ptr i) (ptr o)) ∧
      Rep h (some x.addr) i ∧ Rep h (some x.addr) o := by
  cases d with
  | left => exact and_congr_right fun _ => and_comm
  | right => exact Iff.rfl

theorem mem_addrs_join : a ∈ addrs (join d x b i o) ↔ a = x.addr ∨ a ∈ addrs i ∨ a ∈ addrs o := by
  cases d with
  | left | right =>
    simp only [addrs, join, BinTree.inorder, map_append, map_cons, mem_append, mem_cons]
    tauto

theorem addrs_join_perm (d : Side) (x : Cell κ ω) (b : Int) (i o : BinTree (Cell κ ω)) :
    (addrs (join d x b i o)).Perm (x.addr :: (addrs i ++ addrs o)) := by
  cases d with
  | left =>
    simp only [addrs, join, BinTree.inorder, map_append, map_cons]
    exact perm_middle.trans (perm_append_comm.cons _)
  | right =>
    simp only [addrs, join, BinTree.inorder, map_append, map_cons]
    exact perm_middle

theorem mem_addrs_of_ptr (h : ptr t = some a) : a ∈ addrs t := by
  cases t with
  | leaf => cases h
  | node l x b r =>
    cases h
    exact mem_addrs_join (d := .right).mpr (.inl rfl)

theorem Rep.congr {h h' : Nat → Option (Node κ ω)}
    (hr : Rep h p t) (he : ∀ a ∈ addrs t, h' a = h a) : Rep h' p t := by
  induction t generalizing p with
  | leaf => trivial
  | node l x b r ihl ihr =>
    have hmem : ∀ a, a = x.addr ∨ a ∈ addrs l ∨ a ∈ addrs r → h' a = h a :=
      fun a ha => he a (mem_addrs_join (d := .right).mpr ha)
    obtain ⟨hx, hl, hr⟩ := hr
    refine ⟨(hmem _ (.inl rfl)).trans hx, ?_, ?_⟩
    · exact ihl hl fun a ha => hmem a (.inr (.inl ha))
    · exact ihr hr fun a ha => hmem a (.inr (.inr ha))

theorem CtxRep.congr {h h' : Nat → Option (Node κ ω)} (hc : CtxRep h p ctx)
    (he : ∀ a ∈ ctxAddrs ctx, h' a = h a) : CtxRep h' p ctx := by
  induction ctx generalizing p with
  | nil => trivial
  | cons f fs ih =>
    obtain ⟨hf, hs, hc⟩ := hc
    refine ⟨(he _ mem_cons_self).trans hf, hs.congr ?_, ih hc ?_⟩
    · exact fun a ha => he a (mem_cons_of_mem _ (mem_append_left _ ha))
    · exact fun a ha => he a (mem_cons_of_mem _ (mem_append_right _ ha))

theorem Rep.allocated (hr : Rep h p t) (ha : a ∈ addrs t) : h a ≠ none := by
  induction t generalizing p with
  | leaf => cases ha
  | node l x b r ihl ihr =>
    obtain ⟨hx, hl, hr⟩ := hr
    rcases mem_addrs_join (d := .right).mp ha with rfl | ha | ha
    · rw [hx]
      exact Option.some_ne_none _
    · exact ihl hl ha
    · exact ihr hr ha

theorem CtxRep.allocated (hc : CtxRep h p ctx) (ha : a ∈ ctxAddrs ctx) : h a ≠ none := by
  induction ctx generalizing p with
  | nil => cases ha
  | cons f fs ih =>
    obtain ⟨hf, hs, hc⟩ := hc
    rcases mem_cons.mp ha with rfl | ha
    · rw [hf]
      exact Option.some_ne_none _
    · rcases mem_append.mp ha with ha | ha
      · exact hs.allocated ha
      · exact ih hc ha

structure Owned (s : State κ ω) (l : List Nat) : Prop where
  nodup : l.Nodup
  count : s.vars.nodes = l.length
  mem : ∀ a n, s.heap a = some n → a ∈ l
  backed : Backed s.vars.pool (· ∈ l)

theorem Owned.perm {l' : List Nat} (h : Owned s l) (hp : l.Perm l') : Owned s l' :=
  ⟨hp.nodup_iff.mp h.nodup, h.count.trans hp.length_eq, fun a n ha => hp.mem_iff.mp (h.mem a n ha),
    h.backed.congr fun _ => hp.mem_iff.symm⟩

theorem Owned.keep {t : State κ ω} (h : Owned s l) (hrest : Rest s t)
    (he : ∀ a, a ∉ l → t.heap a = s.heap a) : Owned t l := by
  refine ⟨h.nodup, hrest.nodes.trans h.count, ?_, hrest.pool ▸ h.backed⟩
  intro a n ha
  by_contra hmem
  rw [he a hmem] at ha
  exact hmem (h.mem a n ha)

structure Zip (s : State κ ω) (ctx : List (Frame (Cell κ ω))) (t : BinTree (Cell κ ω)) : Prop where
  root : s.vars.root = topPtr (ptr t) ctx
  around : CtxRep s.heap (ptr t) ctx
  tree : Rep s.heap (parentPtr ctx) t
  owned : Owned s (addrs t ++ ctxAddrs ctx)

private theorem ctxAddrs_cons_perm (f : Frame (Cell κ ω)) (fs : List (Frame (Cell κ ω))) (b : Int)
    (t : BinTree (Cell κ ω)) :
    (addrs t ++ ctxAddrs (f :: fs)).Perm (addrs (f.close b t) ++ ctxAddrs fs) := by
  have hclose := (addrs_join_perm f.side f.label b f.sibling t).append_right (ctxAddrs fs)
  refine List.Perm.trans ?_ hclose.symm
  refine perm_middle.trans (List.Perm.cons _ ?_)
  rw [← append_assoc]
  exact perm_append_comm.append_right _

theorem zip_cons {f : Frame (Cell κ ω)} {fs : List (Frame (Cell κ ω))}
    : Zip s (f :: fs) t ↔ Zip s fs (f.close f.balance t) := by
  have hperm := ctxAddrs_cons_perm f fs f.balance t
  have hptr : ptr (f.close f.balance t) = some f.label.addr := ptr_join _ _ _ _ _
  constructor
  · rintro ⟨hroot, ⟨hf, hs, hc⟩, ht, ho⟩
    refine ⟨?_, ?_, rep_join.mpr ⟨hf, hs, ht⟩, ho.perm hperm⟩
    · rw [hptr]
      exact hroot
    · rw [hptr]
      exact hc
  · rintro ⟨hroot, hc, ht, ho⟩
    rw [hptr] at hroot hc
    obtain ⟨hf, hs, ht⟩ := rep_join.mp ht
    exact ⟨hroot, ⟨hf, hs, hc⟩, ht, ho.perm hperm.symm⟩

theorem zip_plug : Zip s ctx t ↔ Zip s [] (plug ctx t) := by
  induction ctx generalizing t with
  | nil => exact Iff.rfl
  | cons f fs ih =>
    rw [plug, ← ih]
    exact zip_cons

structure Apart (x : Nat) (i o c : List Nat) : Prop where
  rootInner : x ∉ i
  rootOuter : x ∉ o
  rootCtx : x ∉ c
  innerOuter : ∀ a ∈ i, a ∉ o
  innerCtx : ∀ a ∈ i, a ∉ c
  outerCtx : ∀ a ∈ o, a ∉ c
  inner : i.Nodup
  outer : o.Nodup
  ctx : c.Nodup

theorem apart_of_nodup {c : List Nat}
    (h : (addrs (join d x b i o) ++ c).Nodup) : Apart x.addr (addrs i) (addrs o) c := by
  have hp := (((addrs_join_perm d x b i o).append_right c).nodup_iff.mp h)
  rw [cons_append, nodup_cons, nodup_append, nodup_append] at hp
  obtain ⟨hx, ⟨hi, ho, hio⟩, hc, hioc⟩ := hp
  simp only [mem_append, not_or] at hx
  refine ⟨hx.1.1, hx.1.2, hx.2, ?_, ?_, ?_, hi, ho, hc⟩
  · exact fun a ha ha' => hio a ha a ha' rfl
  · exact fun a ha ha' => hioc a (mem_append_left _ ha) a ha' rfl
  · exact fun a ha ha' => hioc a (mem_append_right _ ha) a ha' rfl

theorem Zip.apart (hz : Zip s ctx (join d x b i o)) :
    Apart x.addr (addrs i) (addrs o) (ctxAddrs ctx) := apart_of_nodup hz.owned.nodup

theorem Zip.load (hz : Zip s ctx (join d x b i o)) :
    s.heap x.addr = some (nodeOf d x b (parentPtr ctx) (ptr i) (ptr o)) := (rep_join.mp hz.tree).1

theorem Zip.bound (hz : Zip s ctx t) : t.height + ctx.length ≤ s.vars.nodes := by
  have hctx : ∀ ctx : List (Frame (Cell κ ω)), ctx.length ≤ (ctxAddrs ctx).length := by
    intro ctx
    induction ctx with
    | nil => exact Nat.le_refl 0
    | cons f fs ih =>
      rw [ctxAddrs, length_cons, length_cons, length_append]
      omega
  have hlen := t.height_le_length
  have hc := hctx ctx
  rw [hz.owned.count, length_append, addrs, length_map]
  omega

theorem Zip.relabel {x y : Cell κ ω}
    {b c : Int} (hz : Zip s ctx (join d x b i o)) (hy : y.addr = x.addr) :
    Zip (s.write x.addr (some (nodeOf d y c (parentPtr ctx) (ptr i) (ptr o)))) ctx
      (join d y c i o) := by
  have hap := hz.apart
  obtain ⟨_, hi, ho⟩ := rep_join.mp hz.tree
  have hctx := hz.around
  have hroot := hz.root
  rw [ptr_join] at hctx hroot
  refine ⟨?_, ?_, rep_join.mpr ⟨?_, ?_, ?_⟩, ?_⟩
  · rw [ptr_join, hy]
    exact hroot
  · rw [ptr_join, hy]
    exact hctx.congr fun a ha => heap_write_of_ne (ne_of_mem_of_not_mem ha hap.rootCtx)
  · rw [hy]
    exact heap_write_self
  · rw [hy]
    exact hi.congr fun a ha => heap_write_of_ne (ne_of_mem_of_not_mem ha hap.rootInner)
  · rw [hy]
    exact ho.congr fun a ha => heap_write_of_ne (ne_of_mem_of_not_mem ha hap.rootOuter)
  · have hperm : (addrs (join d x b i o) ++ ctxAddrs ctx).Perm
        (addrs (join d y c i o) ++ ctxAddrs ctx) := by
      refine ((addrs_join_perm d x b i o).trans ?_).append_right _
      rw [← hy]
      exact (addrs_join_perm d y c i o).symm
    refine (hz.owned.perm hperm).keep ⟨rfl, rfl, rfl, rfl⟩ ?_
    intro a ha
    refine heap_write_of_ne ?_
    rintro rfl
    exact ha (mem_append_left _ (mem_addrs_join.mpr (.inl hy.symm)))

end MuggleC.Dsaa.AvlShape
