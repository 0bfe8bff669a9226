/- source: dsaa/linked_list.c
   digest: The doubly linked list, node by node in memory, is the sequence that its calls make. -/

import MuggleC.Dsaa.NodePool
import MuggleC.Foundation.Blocks
import MuggleC.Foundation.DoublyLinked
import MuggleC.Foundation.OrderedMap

set_option autoImplicit false

/-! The sentinels `head` and `tail` are part of the list's own record. A loop gets stuck when it makes
more turns than the list says it has nodes. -/

namespace MuggleC.Dsaa.LinkedList

open Foundation.Blocks Foundation.Program Memory NodePool

/-- The address of a sentinel or of an allocated node. -/
inductive Addr
  | head
  | tail
  | node (a : Nat)
  deriving DecidableEq, Repr

structure Node (ω : Type) where
  prev : Option Addr
  next : Option Addr
  data : Option ω
  deriving DecidableEq, Repr

namespace Node

variable {ω : Type}

def setPrev (p : Option Addr) (n : Node ω) : Node ω := { n with prev := p }

def setNext (p : Option Addr) (n : Node ω) : Node ω := { n with next := p }

def setData (d : Option ω) (n : Node ω) : Node ω := { n with data := d }

end Node

/-- The list's counter and pool, and what has been passed to the free function. -/
structure Vars (ω : Type) where
  size : Nat
  freed : List ω
  pool : Option MemoryPool

abbrev State (ω : Type) := Store Addr (Node ω) (Vars ω)

abbrev Op (ω α : Type) := Prog (State ω) α

variable {ω : Type}

def nodeSize : UInt32 := 24

def init (ω : Type) (capacity : BitVec 64) (poolMem : Bool) (mem : Malloc) : Option (State ω) :=
  (nodePool capacity nodeSize poolMem mem).map fun pool => {
    heap := fun
      | .head => some ⟨none, some .tail, none⟩
      | .tail => some ⟨some .head, none, none⟩
      | .node _ => none
    vars := ⟨0, [], pool⟩ }

def setPool (pool : Option MemoryPool) (v : Vars ω) : Vars ω := { v with pool := pool }

/-- `muggle_linked_list_allocate_node`, where `got` is what the pool or `malloc` returns. All fields
of a new node are written before they are read. -/
def allocateNode : Option Nat → Op ω (Option Addr)
  | none => pure none
  | some a => do
    takeNode Vars.pool setPool a
    create (.node a) ⟨none, none, none⟩
    adjust fun v => { v with size := v.size + 1 }
    pure (some (.node a))

def giveNode (node : Addr) (v : Vars ω) : Vars ω :=
  match node with
  | .node a => { v with pool := give v.pool a }
  | _ => v

def freeNode (node : Addr) : Op ω Unit := do
  let n ← load node
  let prev ← deref n.prev
  modify prev (Node.setNext n.next)
  let n ← load node
  let next ← deref n.next
  modify next (Node.setPrev n.prev)
  release node
  adjust fun v => { giveNode node v with size := v.size - 1 }

/-- `muggle_linked_list_free_data`; `frees` tells whether there is a free function. -/
def freeData (frees : Bool) (node : Addr) : Op ω Unit := do
  let n ← load node
  match n.data with
  | none => pure ()
  | some d => do
    adjust fun v => if frees then { v with freed := v.freed ++ [d] } else v
    modify node (Node.setData none)

def turns : Op ω Nat := get fun v => v.size + 1

def isEmpty : Op ω Bool := do
  let head ← load .head
  pure (head.next = some .tail)

def clearLoop (frees : Bool) : Nat → Option Addr → Op ω Unit
  | 0, _ => stuck
  | fuel + 1, p =>
    if p = some .tail then pure ()
    else do
      let node ← deref p
      let n ← load node
      freeData frees node
      freeNode node
      clearLoop frees fuel n.next

def clear (frees : Bool) : Op ω Unit := do
  let head ← load .head
  let fuel ← turns
  clearLoop frees fuel head.next
  adjust fun v => { v with size := 0 }

/-- `muggle_linked_list_destroy`, before the memory pool goes. -/
def destroy (frees : Bool) : Op ω Unit := clear frees

def size : Op ω Nat := get Vars.size

def search (cmp : Option ω → Option ω → Int) (data : Option ω) :
    Nat → Option Addr → Op ω (Option Addr)
  | 0, _ => stuck
  | fuel + 1, p =>
    if p = some .tail then pure none
    else do
      let node ← deref p
      let n ← load node
      if cmp n.data data = 0 then pure (some node)
      else search cmp data fuel n.next

def orElse (node : Option Addr) (other : Op ω (Option Addr)) : Op ω (Option Addr) :=
  match node with
  | none => other
  | some a => pure (some a)

def headNext : Op ω (Option Addr) := do
  let head ← load .head
  pure head.next

def tailPrev : Op ω (Option Addr) := do
  let tail ← load .tail
  pure tail.prev

def find (cmp : Option ω → Option ω → Int) (node : Option Addr) (data : Option ω) :
    Op ω (Option Addr) := do
  let node ← orElse node headNext
  let fuel ← turns
  search cmp data fuel node

def exceptFor (sentinel : Addr) (p : Option Addr) : Option Addr :=
  if p = some sentinel then none else p

def next (node : Addr) : Op ω (Option Addr) := do
  let n ← load node
  pure (exceptFor .tail n.next)

def prev (node : Addr) : Op ω (Option Addr) := do
  let n ← load node
  pure (exceptFor .head n.prev)

def first : Op ω (Option Addr) := do
  let p ← headNext
  pure (exceptFor .tail p)

def last : Op ω (Option Addr) := do
  let p ← tailPrev
  pure (exceptFor .head p)

/-- The links of the new node `new` before `node`. -/
def linkBefore (new node : Addr) : Op ω Unit := do
  let n ← load node
  let prev ← deref n.prev
  modify prev (Node.setNext (some new))
  let n ← load node
  modify new (Node.setPrev n.prev)
  modify new (Node.setNext (some node))
  modify node (Node.setPrev (some new))

/-- The links of the new node `new` behind `node`. -/
def linkBehind (new node : Addr) : Op ω Unit := do
  let n ← load node
  let next ← deref n.next
  modify next (Node.setPrev (some new))
  let n ← load node
  modify new (Node.setNext n.next)
  modify new (Node.setPrev (some node))
  modify node (Node.setNext (some new))

def insert (node : Option Addr) (data : Option ω) (got : Option Nat) : Op ω (Option Addr) := do
  match ← allocateNode got with
  | none => pure none
  | some new => do
    modify new (Node.setData data)
    let node ← orElse node headNext
    let node ← deref node
    linkBefore new node
    pure (some new)

def append (node : Option Addr) (data : Option ω) (got : Option Nat) : Op ω (Option Addr) := do
  match ← allocateNode got with
  | none => pure none
  | some new => do
    modify new (Node.setData data)
    let node ← orElse node tailPrev
    let node ← deref node
    linkBehind new node
    pure (some new)

def remove (frees : Bool) (node : Addr) : Op ω (Option Addr) := do
  let next ← next node
  freeData frees node
  freeNode node
  pure next

end MuggleC.Dsaa.LinkedList

namespace MuggleC.Dsaa.LinkedListCells

open Foundation.Blocks Foundation.DoublyLinked Foundation.Program Memory NodePool
open LinkedList (Addr Node Vars State Op)
open Function List
open Option hiding map_map mem_map

variable {ω : Type}

def nextField : State ω → Addr → Option Addr := field Node.next

def prevField : State ω → Addr → Option Addr := field Node.prev

def dataField : State ω → Addr → Option (Option ω) := field fun n => some n.data

theorem heap_of_dataField {s : State ω} {a : Addr} {d : Option ω} (h : dataField s a = some d) :
    ∃ n, s.heap a = some n ∧ n.data = d ∧ nextField s a = n.next ∧ prevField s a = n.prev := by
  obtain ⟨n, hn, hd⟩ := bind_eq_some_iff.mp h
  exact ⟨n, hn, some.inj hd, field_eq hn, field_eq hn⟩

section Links

variable {s : State ω} {a : Nat} {x y : Addr} {nx ny na : Node ω}

structure Spliced (s : State ω) (a : Nat) (x y : Addr) (s' : State ω) : Prop where
  next_eq : nextField s' =
    point (Function.update (nextField s) (.node a) (some y)) (some x) (some (.node a))
  prev_eq : prevField s' =
    point (Function.update (prevField s) (.node a) (some x)) (some y) (some (.node a))
  data_eq : dataField s' = dataField s
  vars_eq : s'.vars = s.vars

variable (hx : s.heap x = some nx) (hy : s.heap y = some ny) (ha : s.heap (.node a) = some na)
    (hxy : x ≠ y) (hxa : x ≠ .node a) (hya : y ≠ .node a)

include hx hy ha hxy hxa hya

theorem spliced_writes :
    Spliced s a x y (((s.write x (some (nx.setNext (some (.node a))))).write (.node a)
      (some ((na.setPrev (some x)).setNext (some y)))).write y
        (some (ny.setPrev (some (.node a))))) := by
  obtain ⟨s1, hs1⟩ : ∃ s1, s1 = s.write x (some (nx.setNext (some (.node a)))) := ⟨_, rfl⟩
  obtain ⟨s2, hs2⟩ : ∃ s2, s2 = s1.write (.node a)
    (some ((na.setPrev (some x)).setNext (some y))) := ⟨_, rfl⟩
  have ha1 : s1.heap (.node a) = some na := hs1 ▸ (heap_write_of_ne hxa.symm).trans ha
  have hy2 : s2.heap y = some ny := by
    rw [hs2, heap_write_of_ne hya, hs1, heap_write_of_ne hxy.symm, hy]
  have hdata : dataField s2 = dataField s1 := by
    rw [hs2]
    exact field_write_of_keep (g := fun n : Node ω => some n.data)
      (fun n => (n.setPrev (some x)).setNext (some y)) ha1 fun _ => rfl
  rw [← hs1, ← hs2]
  constructor
  · rw [nextField, field_write_of_keep (Node.setPrev _) hy2 fun _ => rfl, hs2, field_write, hs1,
      field_write, update_comm hxa]
    rfl
  · rw [prevField, field_write, hs2, field_write, hs1,
      field_write_of_keep (Node.setNext _) hx fun _ => rfl]
    rfl
  · refine (field_write_of_keep (Node.setPrev _) hy2 fun _ => rfl).trans (hdata.trans ?_)
    rw [hs1]
    exact field_write_of_keep (Node.setNext _) hx fun _ => rfl
  · rw [hs2, hs1]
    rfl

private theorem linkBefore_ends (hprev : ny.prev = some x) :
    Ends (LinkedList.linkBefore (.node a) y) s fun _ s' => Spliced s a x y s' := by
  have hy1 := (heap_write_of_ne (n := some (nx.setNext (some (.node a)))) hxy.symm).trans hy
  have ha1 := (heap_write_of_ne (n := some (nx.setNext (some (.node a)))) hxa.symm).trans ha
  rw [LinkedList.linkBefore, ends_bind, ends_load hy, hprev, ends_bind, ends_deref, ends_bind,
    ends_modify hx, ends_bind, ends_load hy1, hprev, ends_bind, ends_modify ha1, ends_bind,
    ends_modify heap_write_self, write_write, ends_modify ((heap_write_of_ne hya).trans hy1)]
  exact spliced_writes hx hy ha hxy hxa hya

private theorem linkBehind_ends (hnext : nx.next = some y) :
    Ends (LinkedList.linkBehind (.node a) x) s fun _ s' => Spliced s a x y s' := by
  have hx1 := (heap_write_of_ne (n := some (ny.setPrev (some (.node a)))) hxy).trans hx
  have ha1 := (heap_write_of_ne (n := some (ny.setPrev (some (.node a)))) hya.symm).trans ha
  rw [LinkedList.linkBehind, ends_bind, ends_load hx, hnext, ends_bind, ends_deref, ends_bind,
    ends_modify hy, ends_bind, ends_load hx1, hnext, ends_bind, ends_modify ha1, ends_bind,
    ends_modify heap_write_self, write_write, ends_modify ((heap_write_of_ne hxa).trans hx1)]
  -- the same three writes as before a node, in the other order
  rw [write_comm hya, write_comm hxy.symm, write_comm hxa.symm]
  exact spliced_writes hx hy ha hxy hxa hya

omit hx hy ha hxy hxa hya

structure Unlinked (s : State ω) (a : Nat) (x y : Addr) (s' : State ω) : Prop where
  next_eq : nextField s' = Function.update (point (nextField s) (some x) (some y)) (.node a) none
  prev_eq : prevField s' = Function.update (point (prevField s) (some y) (some x)) (.node a) none
  data_eq : dataField s' = Function.update (dataField s) (.node a) none
  vars_eq : s'.vars = { s.vars with size := s.vars.size - 1, pool := give s.vars.pool a }

private theorem freeNode_ends (hx : s.heap x = some nx) (hy : s.heap y = some ny)
    (ha : s.heap (.node a) = some na) (hxy : x ≠ y) (hxa : x ≠ .node a) (hya : y ≠ .node a)
    (hprev : na.prev = some x) (hnext : na.next = some y) :
    Ends (LinkedList.freeNode (.node a)) s fun _ s' => Unlinked s a x y s' := by
  obtain ⟨s1, hs1⟩ : ∃ s1, s1 = s.write x (some (nx.setNext (some y))) := ⟨_, rfl⟩
  obtain ⟨s2, hs2⟩ : ∃ s2, s2 = s1.write y (some (ny.setPrev (some x))) := ⟨_, rfl⟩
  have ha1 : s1.heap (.node a) = some na := hs1 ▸ (heap_write_of_ne hxa.symm).trans ha
  have hy1 : s1.heap y = some ny := hs1 ▸ (heap_write_of_ne hxy.symm).trans hy
  have ha2 : s2.heap (.node a) = some na := hs2 ▸ (heap_write_of_ne hya.symm).trans ha1
  rw [LinkedList.freeNode, ends_bind, ends_load ha, hprev, hnext, ends_bind, ends_deref, ends_bind,
    ends_modify hx, ← hs1, ends_bind, ends_load ha1, hprev, hnext, ends_bind, ends_deref, ends_bind,
    ends_modify hy1, ← hs2, ends_bind, ends_release ha2, ends_adjust]
  constructor
  · rw [nextField, field_adjust, field_write, hs2,
      field_write_of_keep (Node.setPrev _) hy1 fun _ => rfl, hs1, field_write]
    rfl
  · rw [prevField, field_adjust, field_write, hs2, field_write, hs1,
      field_write_of_keep (Node.setNext _) hx fun _ => rfl]
    rfl
  · rw [dataField, field_adjust, field_write, hs2,
      field_write_of_keep (Node.setPrev _) hy1 fun _ => rfl, hs1,
      field_write_of_keep (Node.setNext _) hx fun _ => rfl]
    rfl
  · rw [hs2, hs1]
    rfl

def released (frees : Bool) (d : Option ω) : List ω := if frees then d.toList else []

private theorem freeData_ends (frees : Bool) (ha : s.heap (.node a) = some na) :
    Ends (LinkedList.freeData frees (.node a)) s fun _ s' =>
      s' = (s.adjust fun v => { v with freed := v.freed ++ released frees na.data }).write (.node a)
        (some (na.setData none)) := by
  rw [LinkedList.freeData, ends_bind, ends_load ha]
  obtain ⟨p, n, d⟩ := na
  cases d with
  | none =>
    rw [ends_pure]
    have hnil : released frees (none : Option ω) = [] := ite_self _
    simp only [hnil, append_nil]
    exact congrArg (fun h => { s with heap := h }) ((update_eq_self _ s.heap).symm.trans
      (congrArg (update s.heap (.node a)) ha))
  | some d =>
    refine (ends_modify (s := s.adjust _) ha).mpr ?_
    cases frees with
    | false => simp [released]
    | true => rfl

end Links

/-- The nodes in order, each with its data. -/
abbrev Cells (ω : Type) := List (Nat × Option ω)

def pointer (e : Nat × Option ω) : Option Addr := some (.node e.1)

def chain (xs : Cells ω) : List (Option Addr) := some .head :: (xs.map pointer ++ [some .tail])

def front : Cells ω → Addr
  | [] => .tail
  | e :: _ => .node e.1

def back (xs : Cells ω) : Addr := (xs.getLast?.map fun e => Addr.node e.1).getD .head

/-- The nodes are the cells in order, linked in both directions between the sentinels; there is no
other node, and the counter is their number. -/
structure Holds (s : State ω) (xs : Cells ω) : Prop where
  linked : Linked (nextField s) (prevField s) (chain xs)
  nodup : (xs.map Prod.fst).Nodup
  head : ∃ d, dataField s .head = some d
  tail : ∃ d, dataField s .tail = some d
  cells : ∀ a d, dataField s (.node a) = some d ↔ (a, d) ∈ xs
  size : s.vars.size = xs.length
  backed : Backed s.vars.pool fun a => a ∈ xs.map Prod.fst

theorem back_concat (pre : Cells ω) (e : Nat × Option ω) : back (pre ++ [e]) = .node e.1 := by
  rw [back, getLast?_concat]
  rfl

private theorem front_split (post : Cells ω) : post.map pointer ++ [some .tail] =
      some (front post) :: (post.map pointer ++ [some Addr.tail]).tail := by
  cases post with
  | nil => rfl
  | cons e post => rfl

private theorem back_split (pre : Cells ω) : some .head :: pre.map pointer =
      (some Addr.head :: pre.map pointer).dropLast ++ [some (back pre)] := by
  rcases eq_nil_or_concat pre with rfl | ⟨pre, e, rfl⟩
  · rfl
  · rw [concat_eq_append, back_concat, map_append, map_singleton, ← cons_append, dropLast_concat]
    rfl

theorem chain_split (pre mid post : Cells ω) :
    chain (pre ++ (mid ++ post)) = (some .head :: pre.map pointer).dropLast ++ some (back pre) ::
      (mid.map pointer ++ some (front post) :: (post.map pointer ++ [some Addr.tail]).tail) := by
  rw [← front_split post, chain, map_append, map_append, append_assoc,
    append_assoc, ← cons_append, back_split pre, append_assoc, ← back_split pre]
  rfl

theorem mem_chain {xs : Cells ω} {b : Addr} :
    some b ∈ chain xs ↔ b = .head ∨ b = .tail ∨ ∃ e ∈ xs, b = .node e.1 := by
  rw [chain, mem_cons, mem_append, mem_map, mem_singleton, some.injEq, some.injEq]
  constructor
  · rintro (h | ⟨e, he, hb⟩ | h)
    · exact .inl h
    · exact .inr (.inr ⟨e, he, (some.inj hb).symm⟩)
    · exact .inr (.inl h)
  · rintro (h | h | ⟨e, he, rfl⟩)
    · exact .inl h
    · exact .inr (.inr h)
    · exact .inr (.inl ⟨e, he, rfl⟩)

theorem nodup_chain {xs : Cells ω} (h : (xs.map Prod.fst).Nodup) : (chain xs).Nodup := by
  have hmap : (xs.map pointer).Nodup := by
    have hinj : Function.Injective fun a => some (Addr.node a) :=
      fun _ _ he => Addr.node.inj (some.inj he)
    have hnodes := List.Nodup.map hinj h
    rwa [map_map] at hnodes
  rw [chain, nodup_cons, nodup_append]
  refine ⟨?_, hmap, nodup_singleton _, ?_⟩
  · simp [pointer]
  · intro x hx y hy he
    obtain ⟨e, _, rfl⟩ := mem_map.mp hx
    rw [mem_singleton.mp hy] at he
    cases he

namespace Holds

variable {s s' : State ω} {pre post xs : Cells ω} {a : Nat} {d : Option ω}

private theorem heap_of_mem (h : Holds s xs) {b : Addr} (hb : some b ∈ chain xs) :
    ∃ n, s.heap b = some n ∧ nextField s b = n.next ∧ prevField s b = n.prev := by
  have hdata : ∃ d, dataField s b = some d := by
    rcases mem_chain.mp hb with rfl | rfl | ⟨e, he, rfl⟩
    · exact h.head
    · exact h.tail
    · exact ⟨e.2, (h.cells e.1 e.2).mpr he⟩
  obtain ⟨d, hd⟩ := hdata
  obtain ⟨n, hn, _, hnext, hprev⟩ := heap_of_dataField hd
  exact ⟨n, hn, hnext, hprev⟩

theorem gap (h : Holds s (pre ++ post)) :
    back pre ≠ front post ∧ ∃ nx ny, s.heap (back pre) = some nx ∧
      s.heap (front post) = some ny ∧ nx.next = some (front post) ∧ ny.prev = some (back pre) := by
  have hchain := chain_split pre [] post
  rw [nil_append, map_nil, nil_append] at hchain
  have hl := h.linked
  have hd := nodup_chain h.nodup
  rw [hchain] at hl hd
  obtain ⟨_, hadj, _⟩ := linked_split.mp hl
  obtain ⟨_, _, hx, _⟩ := nodup_split hd
  obtain ⟨nx, hnx, hnext, _⟩ := h.heap_of_mem (b := back pre) (by rw [hchain]; simp)
  obtain ⟨ny, hny, _, hprev⟩ := h.heap_of_mem (b := front post) (by rw [hchain]; simp)
  refine ⟨?_, nx, ny, hnx, hny, ?_, ?_⟩
  · intro he
    exact hx (he ▸ mem_cons_self)
  · rw [← hnext]
    exact hadj.1 _ rfl
  · rw [← hprev]
    exact hadj.2 _ rfl

theorem around (h : Holds s (pre ++ (a, d) :: post)) :
    back pre ≠ front post ∧ back pre ≠ .node a ∧ front post ≠ .node a ∧
      ∃ nx na ny, s.heap (back pre) = some nx ∧ s.heap (.node a) = some na ∧
        s.heap (front post) = some ny ∧ na.data = d ∧ na.prev = some (back pre) ∧
        na.next = some (front post) := by
  have hd := nodup_chain h.nodup
  rw [show (a, d) :: post = [(a, d)] ++ post from rfl, chain_split] at hd
  obtain ⟨hne, nx, na, hnx, hna, _, hprev⟩ := h.gap
  obtain ⟨hne', na', ny, hna', hny, hnext, _⟩ :=
    (show Holds s ((pre ++ [(a, d)]) ++ post) by rwa [append_assoc]).gap
  rw [back_concat] at hne' hna'
  obtain ⟨n, hn, hdata, _, _⟩ := heap_of_dataField ((h.cells a d).mpr (by simp))
  obtain rfl := some.inj (hna.symm.trans hn)
  obtain rfl := some.inj (hna.symm.trans hna')
  obtain ⟨_, _, hx, _⟩ := nodup_split hd
  refine ⟨?_, hne, hne'.symm, nx, na, ny, hnx, hna, hny, hdata, hprev, hnext⟩
  intro he
  exact hx (he ▸ mem_cons_of_mem _ mem_cons_self)

end Holds

section Calls

variable {s s' : State ω} {pre post xs : Cells ω} {a : Nat} {d : Option ω}

def prepared (s : State ω) (pool : Option MemoryPool) (a : Nat) (d : Option ω) : State ω :=
  (s.adjust fun v => { v with size := v.size + 1, pool := pool }).write (.node a)
    (some ⟨none, none, d⟩)

structure Granted (s : State ω) (xs : Cells ω) (a : Nat) (pool : Option MemoryPool) : Prop where
  free : s.heap (.node a) = none
  took : take s.vars.pool a = some pool
  backed : Backed pool fun b => b = a ∨ b ∈ xs.map Prod.fst

theorem Holds.granted (h : Holds s xs)
    (ha : Returns s.vars.pool (fun b => (s.heap (.node b)).isSome) a) :
    ∃ pool, Granted s xs a pool := by
  obtain ⟨hfree, pool, htook, hbacked⟩ := h.backed.take ha fun b hb => by
    obtain ⟨n, hn⟩ := isSome_iff_exists.mp hb
    exact mem_map.mpr ⟨_, (h.cells b n.data).mp (field_eq hn), rfl⟩
  exact ⟨pool, isSome_eq_false_iff.mp hfree |> isNone_iff_eq_none.mp, htook, hbacked⟩

variable {pool : Option MemoryPool}

theorem Holds.inserted (h : Holds s (pre ++ post)) (hgot : Granted s (pre ++ post) a pool)
    (hs : Spliced (prepared s pool a d) a (back pre) (front post) s') :
    Holds s' (pre ++ (a, d) :: post) := by
  have hfree := hgot.free
  have hout : ∀ e ∈ pre ++ post, e.1 ≠ a := by
    rintro ⟨b, db⟩ hb rfl
    obtain ⟨n, hn, _⟩ := heap_of_dataField ((h.cells b db).mpr hb)
    rw [hfree] at hn
    cases hn
  have hdata : dataField s' = update (dataField s) (.node a) (some d) := by
    rw [hs.data_eq]
    exact field_write
  have hchain := chain_split pre [] post
  have hchain' := chain_split pre [(a, d)] post
  rw [nil_append, map_nil, nil_append] at hchain
  refine ⟨?_, ?_, ?_, ?_, ?_, ?_, ?_⟩
  · have hnew : some (Addr.node a) ∉ chain (pre ++ post) := by
      intro hmem
      rcases mem_chain.mp hmem with he | he | ⟨e, he, hea⟩
      · cases he
      · cases he
      · exact hout e he (Addr.node.inj hea).symm
    have hl := h.linked
    have hd := nodup_chain h.nodup
    rw [hchain] at hl hd hnew
    have hnext : nextField (prepared s pool a d) = update (nextField s) (.node a) none :=
      field_write
    have hprev : prevField (prepared s pool a d) = update (prevField s) (.node a) none :=
      field_write
    rw [hs.next_eq, hs.prev_eq, hnext, hprev, update_idem, update_idem]
    exact hchain' ▸ hl.insert (once_of_nodup hd) hnew
  · have hnodup := h.nodup
    rw [map_append] at hnodup ⊢
    rw [map_cons, nodup_middle, nodup_cons, ← map_append]
    refine ⟨?_, map_append ▸ hnodup⟩
    intro hmem
    obtain ⟨e, he, hea⟩ := mem_map.mp hmem
    exact hout e he hea
  · rw [hdata, update_of_ne Addr.noConfusion]
    exact h.head
  · rw [hdata, update_of_ne Addr.noConfusion]
    exact h.tail
  · intro b db
    rw [hdata, mem_append, mem_cons, Prod.mk.injEq]
    have hcell := h.cells b db
    rw [mem_append] at hcell
    by_cases hb : b = a
    · subst hb
      rw [update_self, some.injEq]
      constructor
      · intro hd
        exact .inr (.inl ⟨rfl, hd.symm⟩)
      · rintro (hmem | ⟨_, hd⟩ | hmem)
        · exact absurd rfl (hout _ (mem_append_left _ hmem))
        · exact hd.symm
        · exact absurd rfl (hout _ (mem_append_right _ hmem))
    · rw [update_of_ne fun he => hb (Addr.node.inj he), hcell]
      constructor
      · exact Or.imp_right .inr
      · exact Or.imp_right fun hr => hr.resolve_left fun he => hb he.1
  · rw [hs.vars_eq, length_append, length_cons, ← Nat.add_assoc, ← length_append, ← h.size]
    rfl
  · rw [hs.vars_eq]
    refine hgot.backed.congr fun b => ?_
    rw [map_append, map_append, map_cons, mem_append, mem_append, mem_cons, or_left_comm]

theorem Holds.unlinked (h : Holds s (pre ++ (a, d) :: post)) {t : State ω}
    (hnext : nextField t = nextField s) (hprev : prevField t = prevField s)
    (hdata : ∀ b, b ≠ .node a → dataField t b = dataField s b) (hsize : t.vars.size = s.vars.size)
    (hpool : t.vars.pool = s.vars.pool) (hs : Unlinked t a (back pre) (front post) s') : Holds s' (pre ++ post) := by
  have hdata' : ∀ b, b ≠ .node a → dataField s' b = dataField s b := by
    intro b hb
    rw [hs.data_eq, update_of_ne hb, hdata b hb]
  have hchain := chain_split pre [] post
  have hchain' := chain_split pre [(a, d)] post
  have hnodup := h.nodup
  rw [map_append, map_cons, nodup_middle, nodup_cons, ← map_append]
    at hnodup
  refine ⟨?_, hnodup.2, ?_, ?_, ?_, ?_, ?_⟩
  · have hl := h.linked
    have hd := nodup_chain h.nodup
    rw [show (a, d) :: post = [(a, d)] ++ post from rfl, hchain'] at hl hd
    rw [hs.next_eq, hs.prev_eq, hnext, hprev]
    exact hchain ▸ hl.remove_update (once_of_nodup hd) none none
  · rw [hdata' _ Addr.noConfusion]
    exact h.head
  · rw [hdata' _ Addr.noConfusion]
    exact h.tail
  · intro b db
    have hcell := h.cells b db
    rw [mem_append, mem_cons, Prod.mk.injEq] at hcell
    rw [mem_append]
    by_cases hb : b = a
    · subst hb
      rw [hs.data_eq, update_self]
      refine iff_of_false (some_ne_none db).symm ?_
      intro hmem
      exact hnodup.1 (mem_map.mpr ⟨(b, db), mem_append.mpr hmem, rfl⟩)
    · rw [hdata' _ fun he => hb (Addr.node.inj he), hcell]
      constructor
      · exact Or.imp_right fun hr => hr.resolve_left fun he => hb he.1
      · exact Or.imp_right .inr
  · have hlen := h.size
    rw [length_append, length_cons] at hlen
    rw [hs.vars_eq, length_append]
    change t.vars.size - 1 = _
    omega
  · have ha : a ∈ (pre ++ (a, d) :: post).map Prod.fst := by simp
    rw [hs.vars_eq, hpool]
    refine (h.backed.give ha).congr fun b => ?_
    rw [map_append, map_append, map_cons, mem_append, mem_append, mem_cons, or_left_comm]
    constructor
    · intro hb
      exact ⟨fun he => hnodup.1 (he ▸ map_append ▸ mem_append.mpr hb), .inr hb⟩
    · rintro ⟨hne, hb⟩
      exact hb.resolve_left hne

theorem allocateNode_ends {post : Option Addr → State ω → Prop}
    (htook : take s.vars.pool a = some pool) : Ends (LinkedList.allocateNode (some a)) s post ↔
      post (some (.node a)) (prepared s pool a none) := by
  rw [LinkedList.allocateNode, ends_bind, ends_takeNode htook, ends_bind, ends_create, ends_bind,
    ends_adjust, ends_pure]
  exact Iff.rfl

theorem setData_ends {post : Unit → State ω → Prop} :
    Ends (modify (.node a) (Node.setData d)) (prepared s pool a none) post ↔
      post () (prepared s pool a d) := by
  refine (ends_modify heap_write_self).trans ?_
  rw [prepared, write_write]
  exact Iff.rfl

theorem heap_prepared_of_ne {b : Addr} (hb : b ≠ .node a) :
    (prepared s pool a d).heap b = s.heap b :=
  heap_write_of_ne hb

private theorem insert_ends (h : Holds s (pre ++ post)) (hgot : Granted s (pre ++ post) a pool)
    {node : Option Addr} (hnode : node = some (front post) ∨ node = none ∧ pre = []) :
    Ends (LinkedList.insert node d (some a)) s fun r s' =>
      r = some (.node a) ∧ Holds s' (pre ++ (a, d) :: post) ∧ s'.vars.freed = s.vars.freed := by
  obtain ⟨hne, nx, ny, hnx, hny, hnext, hprev⟩ := h.gap
  have hxa := ne_of_heap hnx hgot.free
  have hya := ne_of_heap hny hgot.free
  have htarget : Ends (LinkedList.orElse node LinkedList.headNext) (prepared s pool a d) fun p t =>
      p = some (front post) ∧ t = prepared s pool a d := by
    rcases hnode with rfl | ⟨rfl, rfl⟩
    · exact ends_pure.mpr ⟨rfl, rfl⟩
    · rw [LinkedList.orElse, LinkedList.headNext, ends_bind]
      exact (ends_load ((heap_prepared_of_ne hxa).trans hnx)).mpr (ends_pure.mpr ⟨hnext, rfl⟩)
  rw [LinkedList.insert, ends_bind, allocateNode_ends hgot.took]
  rw [ends_bind, setData_ends, ends_bind]
  apply htarget.mono
  rintro p t ⟨rfl, rfl⟩
  rw [ends_bind, ends_deref, ends_bind]
  apply (linkBefore_ends ((heap_prepared_of_ne hxa).trans hnx)
    ((heap_prepared_of_ne hya).trans hny) heap_write_self hne hxa hya hprev).mono
  intro _ s' hs
  exact ends_pure.mpr ⟨rfl, h.inserted hgot hs, (congrArg Vars.freed hs.vars_eq).trans rfl⟩

theorem append_ends (h : Holds s (pre ++ post)) (hgot : Granted s (pre ++ post) a pool)
    {node : Option Addr} (hnode : node = some (back pre) ∨ node = none ∧ post = []) :
    Ends (LinkedList.append node d (some a)) s fun r s' =>
      r = some (.node a) ∧ Holds s' (pre ++ (a, d) :: post) ∧ s'.vars.freed = s.vars.freed := by
  obtain ⟨hne, nx, ny, hnx, hny, hnext, hprev⟩ := h.gap
  have hxa := ne_of_heap hnx hgot.free
  have hya := ne_of_heap hny hgot.free
  have htarget : Ends (LinkedList.orElse node LinkedList.tailPrev) (prepared s pool a d) fun p t =>
      p = some (back pre) ∧ t = prepared s pool a d := by
    rcases hnode with rfl | ⟨rfl, rfl⟩
    · exact ends_pure.mpr ⟨rfl, rfl⟩
    · rw [LinkedList.orElse, LinkedList.tailPrev, ends_bind]
      exact (ends_load ((heap_prepared_of_ne hya).trans hny)).mpr (ends_pure.mpr ⟨hprev, rfl⟩)
  rw [LinkedList.append, ends_bind, allocateNode_ends hgot.took]
  rw [ends_bind, setData_ends, ends_bind]
  apply htarget.mono
  rintro p t ⟨rfl, rfl⟩
  rw [ends_bind, ends_deref, ends_bind]
  apply (linkBehind_ends ((heap_prepared_of_ne hxa).trans hnx)
    ((heap_prepared_of_ne hya).trans hny) heap_write_self hne hxa hya hnext).mono
  intro _ s' hs
  exact ends_pure.mpr ⟨rfl, h.inserted hgot hs, (congrArg Vars.freed hs.vars_eq).trans rfl⟩

theorem erase_ends (h : Holds s (pre ++ (a, d) :: post)) (frees : Bool) :
    Ends (LinkedList.freeData frees (.node a)) s fun _ t =>
      Ends (LinkedList.freeNode (.node a)) t fun _ s' =>
        Holds s' (pre ++ post) ∧ s'.vars.freed = s.vars.freed ++ released frees d := by
  obtain ⟨hne, hxa, hya, nx, na, ny, hnx, hna, hny, rfl, hprev, hnext⟩ := h.around
  apply (freeData_ends frees hna).mono
  intro _ t ht
  have hheap : ∀ b, b ≠ .node a → t.heap b = s.heap b := fun b hb => ht ▸ heap_write_of_ne hb
  have hna' : t.heap (.node a) = some (na.setData none) := ht ▸ heap_write_self
  apply (freeNode_ends ((hheap _ hxa).trans hnx) ((hheap _ hya).trans hny) hna' hne hxa hya hprev
    hnext).mono
  intro _ s' hs
  refine ⟨h.unlinked ?_ ?_ ?_ (ht ▸ rfl) (ht ▸ rfl) hs, ?_⟩
  · rw [ht]
    exact field_write_of_keep (s := s.adjust _) (Node.setData none) hna fun _ => rfl
  · rw [ht]
    exact field_write_of_keep (s := s.adjust _) (Node.setData none) hna fun _ => rfl
  · intro b hb
    rw [dataField, field, hheap b hb]
    rfl
  · rw [hs.vars_eq, ht]
    rfl

theorem clearLoop_ends (h : Holds s xs) (frees : Bool) {fuel : Nat} (hfuel : xs.length < fuel) :
    Ends (LinkedList.clearLoop frees fuel (some (front xs))) s fun _ s' => Holds s' [] ∧
      s'.vars.freed = s.vars.freed ++ xs.flatMap fun e => released frees e.2 := by
  induction xs generalizing s fuel with
  | nil =>
    cases fuel with
    | zero => cases hfuel
    | succ fuel =>
      rw [LinkedList.clearLoop, front, if_pos rfl, ends_pure]
      exact ⟨h, (append_nil _).symm⟩
  | cons e xs ih =>
    cases fuel with
    | zero => cases hfuel
    | succ fuel =>
      obtain ⟨_, _, _, _, na, _, _, hna, _, _, _, hnext⟩ := @Holds.around _ _ [] _ _ _ h
      have hne : some (front (e :: xs)) ≠ some Addr.tail := by
        intro he
        cases he
      rw [LinkedList.clearLoop, if_neg hne, ends_bind, ends_deref, ends_bind]
      refine (ends_load hna).mpr ?_
      rw [ends_bind, hnext]
      apply (@erase_ends _ _ [] _ _ _ h frees).mono
      intro _ t ht
      rw [ends_bind]
      apply ht.mono
      intro _ u ⟨hu, hfreed⟩
      apply (ih hu (Nat.lt_of_succ_lt_succ hfuel)).mono
      intro _ s' ⟨hs', hfreed'⟩
      refine ⟨hs', ?_⟩
      rw [hfreed', hfreed, flatMap_cons, append_assoc]

theorem clear_ends (h : Holds s xs) (frees : Bool) :
    Ends (LinkedList.clear frees) s fun _ s' => Holds s' [] ∧
      s'.vars.freed = s.vars.freed ++ xs.flatMap fun e => released frees e.2 := by
  obtain ⟨_, nx, _, hnx, _, hnext, _⟩ := @Holds.gap _ _ [] _ h
  rw [LinkedList.clear, ends_bind]
  refine (ends_load hnx).mpr ?_
  rw [ends_bind, LinkedList.turns, ends_get, hnext, ends_bind]
  apply (clearLoop_ends h frees (Nat.lt_succ_of_le h.size.ge)).mono
  intro _ s' ⟨hs', hfreed⟩
  rw [ends_adjust]
  exact ⟨⟨hs'.linked, hs'.nodup, hs'.head, hs'.tail, hs'.cells, rfl, hs'.backed⟩, hfreed⟩

private theorem search_ends (cmp : Option ω → Option ω → Int) (data : Option ω)
    (h : Holds s (pre ++ post)) {fuel : Nat} (hfuel : post.length < fuel) :
    Ends (LinkedList.search cmp data fuel (some (front post))) s fun r s' => s' = s ∧
      r = (post.find? fun e => cmp e.2 data = 0).map fun e => .node e.1 := by
  induction post generalizing pre fuel with
  | nil =>
    cases fuel with
    | zero => cases hfuel
    | succ fuel =>
      rw [LinkedList.search, front, if_pos rfl, ends_pure]
      exact ⟨rfl, rfl⟩
  | cons e post ih =>
    cases fuel with
    | zero => cases hfuel
    | succ fuel =>
      obtain ⟨_, _, _, _, na, _, _, hna, _, hdata, _, hnext⟩ := h.around
      have hne : some (front (e :: post)) ≠ some Addr.tail := by
        intro he
        cases he
      rw [LinkedList.search, if_neg hne, ends_bind, ends_deref, ends_bind]
      refine (ends_load hna).mpr ?_
      rw [hdata]
      by_cases hzero : cmp e.2 data = 0
      · rw [if_pos hzero, ends_pure, find?_cons_of_pos (by simpa using hzero)]
        exact ⟨rfl, rfl⟩
      · rw [if_neg hzero, hnext, find?_cons_of_neg (by simpa using hzero)]
        have h' : Holds s ((pre ++ [e]) ++ post) := by rwa [append_assoc]
        exact ih h' (Nat.lt_of_succ_lt_succ hfuel)

end Calls

end MuggleC.Dsaa.LinkedListCells

namespace MuggleC.Dsaa.LinkedListRuns

open Foundation.Blocks Foundation.DoublyLinked Foundation.Program Memory NodePool
open Foundation.OrderedMap (difference)
open Foundation.Transition (run guarded guarded_eq_some run_invariant)
open LinkedList (Addr Node Vars State Op)
open LinkedListCells List

variable {ω : Type}

/-- A call, with the block that the allocator returns for an insertion. -/
inductive Call (ω : Type)
  | insert (node : Option Nat) (data : Option ω) (got : Option Nat)
  | append (node : Option Nat) (data : Option ω) (got : Option Nat)
  | remove (frees : Bool) (node : Nat)
  | clear (frees : Bool)
  | find (node : Option Nat) (data : Option ω)
  | next (node : Nat)
  | prev (node : Nat)
  | first
  | last

def exec (cmp : Option ω → Option ω → Int) : Call ω → Op ω (Option Addr)
  | .insert node data got => LinkedList.insert (node.map .node) data got
  | .append node data got => LinkedList.append (node.map .node) data got
  | .remove frees node => LinkedList.remove frees (.node node)
  | .clear frees => do
    LinkedList.clear frees
    pure none
  | .find node data => LinkedList.find cmp (node.map .node) data
  | .next node => LinkedList.next (.node node)
  | .prev node => LinkedList.prev (.node node)
  | .first => LinkedList.first
  | .last => LinkedList.last

def Call.node : Call ω → Option Nat
  | .insert node _ _ => node
  | .append node _ _ => node
  | .remove _ node => some node
  | .clear _ => none
  | .find node _ => node
  | .next node => some node
  | .prev node => some node
  | .first => none
  | .last => none

def Call.got : Call ω → Option Nat
  | .insert _ _ got => got
  | .append _ _ got => got
  | _ => none

/-- A node that is given is in the list; `got` is `NULL` or what the pool or `malloc` may return. -/
def Admissible (s : State ω) (c : Call ω) : Bool :=
  (c.node.all fun a => (s.heap (.node a)).isSome) &&
    c.got.all (Returns s.vars.pool fun a => (s.heap (.node a)).isSome)

def upTo (x : Nat) (xs : Cells ω) : Cells ω := xs.takeWhile fun e => e.1 ≠ x

def since (x : Nat) (xs : Cells ω) : Cells ω := xs.dropWhile fun e => e.1 ≠ x

def afterCall (xs : Cells ω) : Call ω → Cells ω
  | .insert none data (some a) => (a, data) :: xs
  | .insert (some x) data (some a) => upTo x xs ++ (a, data) :: since x xs
  | .append none data (some a) => xs ++ [(a, data)]
  | .append (some x) data (some a) =>
    upTo x xs ++ (since x xs).take 1 ++ (a, data) :: (since x xs).drop 1
  | .remove _ x => upTo x xs ++ (since x xs).drop 1
  | .clear _ => []
  | _ => xs

def answer (cmp : Option ω → Option ω → Int) (xs : Cells ω) : Call ω → Option (Nat × Option ω)
  | .insert _ data got => got.map (·, data)
  | .append _ data got => got.map (·, data)
  | .remove _ x => ((since x xs).drop 1).head?
  | .clear _ => none
  | .find none data => xs.find? fun e => cmp e.2 data = 0
  | .find (some x) data => (since x xs).find? fun e => cmp e.2 data = 0
  | .next x => ((since x xs).drop 1).head?
  | .prev x => (upTo x xs).getLast?
  | .first => xs.head?
  | .last => xs.getLast?

def releases (xs : Cells ω) : Call ω → List ω
  | .remove frees x => ((since x xs).take 1).flatMap fun e => released frees e.2
  | .clear frees => xs.flatMap fun e => released frees e.2
  | _ => []

def Call.isQuiet : Call ω → Bool
  | .insert _ _ got => got.isNone
  | .append _ _ got => got.isNone
  | .remove _ _ => false
  | .clear _ => false
  | _ => true

/-- A call that only looks, or gets no memory, changes nothing. -/
structure Answers (cmp : Option ω → Option ω → Int) (s : State ω) (xs : Cells ω) (s' : State ω)
    (c : Call ω) (res : Option Addr) : Prop where
  result : res = (answer cmp xs c).map fun e => .node e.1
  freed : s'.vars.freed = s.vars.freed ++ releases xs c
  quiet : c.isQuiet → s' = s

theorem exceptFor_front (post : Cells ω) :
    LinkedList.exceptFor .tail (some (front post)) = post.head?.map fun e => .node e.1 := by
  cases post with
  | nil => rfl
  | cons e post => rfl

theorem exceptFor_back (pre : Cells ω) :
    LinkedList.exceptFor .head (some (back pre)) = pre.getLast?.map fun e => .node e.1 := by
  rw [back]
  cases pre.getLast? with
  | none => rfl
  | some e => rfl

section Refinement

variable {s : State ω} {xs pre post : Cells ω} {x : Nat} {d : Option ω}

private theorem split_at (h : Holds s xs) (hx : (s.heap (.node x)).isSome) :
    ∃ pre d post, xs = pre ++ (x, d) :: post ∧ upTo x xs = pre ∧ since x xs = (x, d) :: post := by
  obtain ⟨n, hn⟩ := Option.isSome_iff_exists.mp hx
  obtain ⟨pre, post, rfl⟩ := append_of_mem ((h.cells x n.data).mp (field_eq hn))
  have hnodup := h.nodup
  rw [map_append, map_cons, nodup_middle, nodup_cons] at hnodup
  have hpre : ∀ e ∈ pre, decide (e.1 ≠ x) = true := by
    rintro e he
    refine decide_eq_true ?_
    rintro rfl
    exact hnodup.1 (mem_append_left _ (mem_map.mpr ⟨e, he, rfl⟩))
  refine ⟨pre, n.data, post, rfl, ?_, ?_⟩
  · rw [upTo, takeWhile_append_of_pos hpre, takeWhile_cons_of_neg (by simp), append_nil]
  · rw [since, dropWhile_append_of_pos hpre, dropWhile_cons_of_neg (by simp)]

theorem next_ends (h : Holds s (pre ++ (x, d) :: post)) :
    Ends (LinkedList.next (.node x)) s fun r s' =>
      s' = s ∧ r = post.head?.map fun e => .node e.1 := by
  obtain ⟨_, _, _, _, na, _, _, hna, _, _, _, hnext⟩ := h.around
  rw [LinkedList.next, ends_bind, ends_load hna, ends_pure, hnext]
  exact ⟨rfl, exceptFor_front post⟩

private theorem prev_ends (h : Holds s (pre ++ (x, d) :: post)) :
    Ends (LinkedList.prev (.node x)) s fun r s' =>
      s' = s ∧ r = pre.getLast?.map fun e => .node e.1 := by
  obtain ⟨_, _, _, _, na, _, _, hna, _, _, hprev, _⟩ := h.around
  rw [LinkedList.prev, ends_bind, ends_load hna, ends_pure, hprev]
  exact ⟨rfl, exceptFor_back pre⟩

theorem headNext_ends (h : Holds s xs) :
    Ends LinkedList.headNext s fun p s' => s' = s ∧ p = some (front xs) := by
  obtain ⟨_, nx, _, hnx, _, hnext, _⟩ := @Holds.gap _ _ [] _ h
  rw [LinkedList.headNext, ends_bind]
  exact (ends_load hnx).mpr (ends_pure.mpr ⟨rfl, hnext⟩)

private theorem tailPrev_ends (h : Holds s xs) :
    Ends LinkedList.tailPrev s fun p s' => s' = s ∧ p = some (back xs) := by
  rw [← append_nil xs] at h
  obtain ⟨_, _, ny, _, hny, _, hprev⟩ := h.gap
  rw [LinkedList.tailPrev, ends_bind]
  exact (ends_load hny).mpr (ends_pure.mpr ⟨rfl, hprev⟩)

private theorem remove_ends (h : Holds s (pre ++ (x, d) :: post)) (frees : Bool) :
    Ends (LinkedList.remove frees (.node x)) s fun r s' =>
      (r = post.head?.map fun e => .node e.1) ∧ Holds s' (pre ++ post) ∧
        s'.vars.freed = s.vars.freed ++ released frees d := by
  rw [LinkedList.remove, ends_bind]
  apply (next_ends h).mono
  rintro r _ ⟨rfl, rfl⟩
  rw [ends_bind]
  apply (erase_ends h frees).mono
  intro _ t ht
  rw [ends_bind]
  apply ht.mono
  intro _ s' hs'
  exact ends_pure.mpr ⟨rfl, hs'⟩

theorem find_ends (cmp : Option ω → Option ω → Int) (data : Option ω) (h : Holds s (pre ++ post))
    {node : Option Addr} (hnode : node = some (front post) ∨ node = none ∧ pre = []) :
    Ends (LinkedList.find cmp node data) s fun r s' => s' = s ∧
      r = (post.find? fun e => cmp e.2 data = 0).map fun e => .node e.1 := by
  have htarget : Ends (LinkedList.orElse node LinkedList.headNext) s fun p t =>
      t = s ∧ p = some (front post) := by
    rcases hnode with rfl | ⟨rfl, rfl⟩
    · exact ends_pure.mpr ⟨rfl, rfl⟩
    · exact headNext_ends h
  have hfuel : post.length < s.vars.size + 1 := by
    rw [h.size, length_append]
    omega
  rw [LinkedList.find, ends_bind]
  apply htarget.mono
  rintro p t ⟨rfl, rfl⟩
  exact search_ends cmp data h hfuel

variable (cmp : Option ω → Option ω → Int)

abbrev Refines (s : State ω) (xs : Cells ω) (c : Call ω) : Prop :=
  Ends (exec cmp c) s fun res s' => Answers cmp s xs s' c res ∧ Holds s' (afterCall xs c)

private theorem quiet_refines (h : Holds s xs) {c : Call ω} {p : Op ω (Option Addr)}
    (hexec : exec cmp c = p) (hafter : afterCall xs c = xs) (hfrees : releases xs c = [])
    (hp : Ends p s fun r s' => s' = s ∧ r = (answer cmp xs c).map fun e => .node e.1) :
    Refines cmp s xs c := by
  rw [Refines, hexec]
  apply hp.mono
  rintro r _ ⟨rfl, hr⟩
  refine ⟨⟨hr, ?_, fun _ => rfl⟩, hafter.symm ▸ h⟩
  rw [hfrees, append_nil]

private theorem added_refines {c : Call ω} {a : Nat} {data : Option ω}
    (hp : Ends (exec cmp c) s fun r s' => r = some (.node a) ∧
      Holds s' (pre ++ (a, data) :: post) ∧ s'.vars.freed = s.vars.freed)
    (hanswer : answer cmp xs c = some (a, data)) (hfrees : releases xs c = [])
    (hloud : c.isQuiet = false) (hafter : afterCall xs c = pre ++ (a, data) :: post) :
    Refines cmp s xs c := by
  apply hp.mono
  intro r s' ⟨hr, hs', hfreed⟩
  refine ⟨⟨?_, ?_, ?_⟩, hafter ▸ hs'⟩
  · rw [hr, hanswer]
    rfl
  · rw [hfreed, hfrees, append_nil]
  · intro hq
    rw [hloud] at hq
    cases hq

private theorem insert_refines (h : Holds s xs) {node got : Option Nat} {data : Option ω}
    (hc : Admissible s (.insert node data got)) : Refines cmp s xs (.insert node data got) := by
  obtain ⟨hnode, hgot⟩ := (Bool.and_eq_true _ _).mp hc
  cases got with
  | none => cases node <;> exact quiet_refines cmp h rfl rfl rfl (ends_pure.mpr ⟨rfl, rfl⟩)
  | some a =>
    obtain ⟨pool, hnew⟩ := h.granted hgot
    cases node with
    | none =>
      exact added_refines cmp (@insert_ends _ _ [] _ _ _ _ h hnew _ (.inr ⟨rfl, rfl⟩))
        rfl rfl rfl rfl
    | some x =>
      obtain ⟨pre, d, post, rfl, hpre, hpost⟩ := split_at h hnode
      refine added_refines cmp (insert_ends h hnew (.inl rfl)) rfl rfl rfl ?_
      rw [afterCall, hpre, hpost]

private theorem append_refines (h : Holds s xs) {node got : Option Nat} {data : Option ω}
    (hc : Admissible s (.append node data got)) : Refines cmp s xs (.append node data got) := by
  obtain ⟨hnode, hgot⟩ := (Bool.and_eq_true _ _).mp hc
  cases got with
  | none => cases node <;> exact quiet_refines cmp h rfl rfl rfl (ends_pure.mpr ⟨rfl, rfl⟩)
  | some a =>
    obtain ⟨pool, hnew⟩ := h.granted hgot
    cases node with
    | none =>
      have h' : Holds s (xs ++ []) := by rwa [append_nil]
      exact added_refines cmp (append_ends h' (by rwa [append_nil]) (.inr ⟨rfl, rfl⟩)) rfl rfl rfl rfl
    | some x =>
      obtain ⟨pre, d, post, rfl, hpre, hpost⟩ := split_at h hnode
      have h' : Holds s ((pre ++ [(x, d)]) ++ post) := by rwa [append_assoc]
      refine added_refines cmp (append_ends h' (by rwa [append_assoc]) (.inl ?_)) rfl rfl rfl ?_
      · rw [back_concat]
        rfl
      · rw [afterCall, hpre, hpost]
        rfl

theorem exec_refines (h : Holds s xs) {c : Call ω} (hc : Admissible s c) : Refines cmp s xs c := by
  obtain ⟨hnode, hgot⟩ := (Bool.and_eq_true _ _).mp hc
  cases c with
  | insert node data got => exact insert_refines cmp h hc
  | append node data got => exact append_refines cmp h hc
  | remove frees x =>
    obtain ⟨pre, d, post, rfl, hpre, hpost⟩ := split_at h hnode
    apply (remove_ends h frees).mono
    intro r s' ⟨hr, hs', hfreed⟩
    refine ⟨⟨?_, ?_, fun hq => Bool.noConfusion hq⟩, ?_⟩
    · rw [hr, answer, hpost]
      rfl
    · rw [hfreed, releases, hpost]
      exact congrArg _ (append_nil _).symm
    · rw [afterCall, hpre, hpost]
      exact hs'
  | clear frees =>
    rw [Refines, exec, ends_bind]
    apply (clear_ends h frees).mono
    intro _ s' ⟨hs', hfreed⟩
    exact ends_pure.mpr ⟨⟨rfl, hfreed, fun hq => Bool.noConfusion hq⟩, hs'⟩
  | find node data =>
    cases node with
    | none =>
      exact quiet_refines cmp h rfl rfl rfl (@find_ends _ _ [] _ cmp data h _ (.inr ⟨rfl, rfl⟩))
    | some x =>
      obtain ⟨pre, d, post, rfl, hpre, hpost⟩ := split_at h hnode
      refine quiet_refines cmp h rfl rfl rfl ?_
      rw [answer, hpost]
      exact find_ends cmp data h (.inl rfl)
  | next x =>
    obtain ⟨pre, d, post, rfl, hpre, hpost⟩ := split_at h hnode
    refine quiet_refines cmp h rfl rfl rfl ?_
    rw [answer, hpost]
    exact next_ends h
  | prev x =>
    obtain ⟨pre, d, post, rfl, hpre, hpost⟩ := split_at h hnode
    refine quiet_refines cmp h rfl rfl rfl ?_
    rw [answer, hpre]
    exact prev_ends h
  | first =>
    refine quiet_refines cmp h (p := LinkedList.first) rfl rfl rfl ?_
    rw [LinkedList.first, ends_bind]
    apply (headNext_ends h).mono
    rintro p _ ⟨rfl, rfl⟩
    exact ends_pure.mpr ⟨rfl, exceptFor_front xs⟩
  | last =>
    refine quiet_refines cmp h (p := LinkedList.last) rfl rfl rfl ?_
    rw [LinkedList.last, ends_bind]
    apply (tailPrev_ends h).mono
    rintro p _ ⟨rfl, rfl⟩
    exact ends_pure.mpr ⟨rfl, exceptFor_back xs⟩

end Refinement

/-- Both walks visit the nodes of the sequence, each node has its data, and the list knows how many
there are. -/
structure Walks (s : State ω) (xs : Cells ω) : Prop where
  forward : follow (nextField s) (some .tail) (xs.length + 1) (nextField s .head) =
    some (xs.map fun e => .node e.1)
  backward : follow (prevField s) (some .head) (xs.length + 1) (prevField s .tail) =
    some (xs.map fun e => Addr.node e.1).reverse
  data : ∀ e ∈ xs, dataField s (.node e.1) = some e.2
  size : LinkedList.size.run s = some (xs.length, s)
  isEmpty : LinkedList.isEmpty.run s = some (xs.isEmpty, s)

theorem walks_of_holds {s : State ω} {xs : Cells ω} (h : Holds s xs) : Walks s xs := by
  obtain ⟨nodes, hnodes⟩ : ∃ nodes, nodes = xs.map fun e => Addr.node e.1 := ⟨_, rfl⟩
  have hchain : chain xs = some .head :: (nodes.map some ++ [some .tail]) := by
    rw [hnodes, map_map]
    rfl
  have hreverse : (chain xs).reverse = some .tail :: (nodes.reverse.map some ++ [some .head]) := by
    rw [hchain, reverse_cons, reverse_append, map_reverse]
    rfl
  have hout : Addr.head ∉ nodes ∧ Addr.tail ∉ nodes := by
    rw [hnodes]
    exact ⟨by simp, by simp⟩
  have hlength : nodes.length < xs.length + 1 := by
    rw [hnodes, length_map]
    exact Nat.lt_succ_self _
  have hsome : ∀ b, b ∉ nodes → some b ∉ nodes.map some := fun b hb hmem => by
    obtain ⟨c, hc, he⟩ := mem_map.mp hmem
    exact hb (Option.some.inj he ▸ hc)
  refine ⟨?_, ?_, fun e he => (h.cells e.1 e.2).mpr he, ?_, ?_⟩
  · have hl := h.linked
    rw [hchain] at hl
    rw [← hnodes]
    exact Linked.follow (List.IsChain.tail hl) (hsome _ hout.2) (hl.head?_eq (by simp)) hlength
  · have hl := h.linked.reverse
    rw [hreverse] at hl
    rw [← hnodes]
    refine Linked.follow (List.IsChain.tail hl) ?_ (hl.head?_eq (by simp)) (by rwa [length_reverse])
    rw [map_reverse, mem_reverse]
    exact hsome _ hout.1
  · change some (s.vars.size, s) = _
    rw [h.size]
  · obtain ⟨_, nx, _, hnx, _, hnext, _⟩ := @Holds.gap _ _ [] _ h
    have hends : Ends LinkedList.isEmpty s fun b s' => b = xs.isEmpty ∧ s' = s := by
      rw [LinkedList.isEmpty, ends_bind]
      refine (ends_load hnx).mpr (ends_pure.mpr ⟨?_, rfl⟩)
      rw [hnext]
      cases xs with
      | nil => rfl
      | cons e xs => rfl
    obtain ⟨b, t, hrun, rfl, rfl⟩ := hends
    exact hrun

theorem init_holds {capacity : BitVec 64} {poolMem : Bool} {mem : Malloc} {s : State ω}
    (h : LinkedList.init ω capacity poolMem mem = some s) (hfit : SizeFits s.vars.pool) :
    Holds s [] ∧ s.vars.freed = [] := by
  obtain ⟨pool, hpool, rfl⟩ := Option.map_eq_some_iff.mp h
  refine ⟨⟨?_, nodup_nil, ⟨none, rfl⟩, ⟨none, rfl⟩, ?_, rfl, ?_⟩, rfl⟩
  · refine isChain_cons_cons.mpr ⟨⟨?_, ?_⟩, isChain_singleton _⟩
    · rintro _ ⟨⟩
      rfl
    · rintro _ ⟨⟩
      rfl
  · intro a d
    exact iff_of_false (Option.some_ne_none d).symm not_mem_nil
  · exact (backed_init hpool (by decide) hfit).congr fun a => iff_of_false not_mem_nil id

def step (cmp : Option ω → Option ω → Int) (q : State ω × Cells ω) (c : Call ω) :
    Option (State ω × Cells ω) :=
  ((exec cmp c).run q.1).map fun out => (out.2, afterCall q.2 c)

private theorem step_holds {cmp : Option ω → Option ω → Int} {q q' : State ω × Cells ω} {c : Call ω}
    (h : Holds q.1 q.2) (hc : Admissible q.1 c) (hstep : step cmp q c = some q') :
    Holds q'.1 q'.2 ∧ q'.2 = afterCall q.2 c ∧
      q'.1.vars.freed = q.1.vars.freed ++ releases q.2 c := by
  obtain ⟨res, s', hexec, hanswers, hs'⟩ := exec_refines cmp h hc
  rw [step, hexec] at hstep
  cases hstep
  exact ⟨hs', rfl, hanswers.freed⟩

/-- After any calls the list is the sequence that the calls make, in both directions; the next call
ends with the answer of the sequence, and a call without memory changes nothing. -/
theorem list_is_sequence {cmp : Option ω → Option ω → Int} {capacity : BitVec 64} {poolMem : Bool}
    {mem : Malloc} {fresh : State ω} (hinit : LinkedList.init ω capacity poolMem mem = some fresh)
    (hfit : SizeFits fresh.vars.pool) {calls : List (Call ω)} {s : State ω} {xs : Cells ω}
    (hrun : run (guarded (step cmp) fun q c => Admissible q.1 c) (fresh, []) calls = some (s, xs)) :
    Walks s xs ∧ ∀ c, Admissible s c → ∃ res s', (exec cmp c).run s = some (res, s') ∧
      Answers cmp s xs s' c res ∧ Walks s' (afterCall xs c) := by
  have hholds : Holds s xs := by
    refine run_invariant (I := fun q => Holds q.1 q.2) ?_ (init_holds hinit hfit).1 hrun
    intro q c q' hq hstep
    obtain ⟨hc, hstep⟩ := guarded_eq_some.mp hstep
    exact (step_holds hq hc hstep).1
  refine ⟨walks_of_holds hholds, fun c hc => ?_⟩
  obtain ⟨res, s', hexec, hanswers, hs'⟩ := exec_refines cmp hholds hc
  exact ⟨res, s', hexec, hanswers, walks_of_holds hs'⟩

def someCalls : List (Call Nat) :=
  [.append none (some 5) (some 0), .insert none (some 4) (some 24),
    .insert (some 0) none (some 4294967296), .append (some 24) (some 7) (some 4294967320),
    .append none (some 8) none, .find (some 4294967296) (some 5), .remove true 4294967320,
    .remove true 0, .last, .clear true, .insert none (some 9) (some 4294967320)]

theorem list_is_sequence_some_calls : ∃ fresh s xs,
      LinkedList.init Nat 2#64 true PoolLedger.memoryOk = some fresh ∧ SizeFits fresh.vars.pool ∧
      run (guarded (step (difference Int.ofNat)) fun q c => Admissible q.1 c)
        (fresh, []) someCalls = some (s, xs) ∧ xs = [(4294967320, some 9)] ∧ Walks s xs := by
  have hsome : ((LinkedList.init Nat 2#64 true PoolLedger.memoryOk).bind fun fresh =>
      (run (guarded (step (difference Int.ofNat)) fun q c => Admissible q.1 c)
        (fresh, []) someCalls).map fun q => (SizeFits fresh.vars.pool, q.2)) =
      some (true, [(4294967320, some 9)]) := by decide +kernel
  obtain ⟨fresh, hinit, hq⟩ := Option.bind_eq_some_iff.mp hsome
  obtain ⟨⟨s, xs⟩, hrun, hxs⟩ := Option.map_eq_some_iff.mp hq
  obtain ⟨hfit, rfl⟩ := Prod.mk.inj hxs
  exact ⟨fresh, s, _, hinit, hfit, hrun, rfl, (list_is_sequence hinit hfit hrun).1⟩

/-- The pool for 178956971 nodes of 24 bytes asks `malloc` for 8 bytes. -/
theorem list_node_outside_pool : ∃ fresh,
      LinkedList.init Nat 178956971#64 true PoolLedger.memoryOk = some fresh ∧
      Admissible fresh (.append none (some 5) (some 0)) ∧
      (exec (difference Int.ofNat) (.append none (some 5) (some 0))).run fresh = none := by
  obtain ⟨p, hp, hsmall⟩ : ∃ p, nodePool 178956971#64 24 true PoolLedger.memoryOk = some (some p) ∧
      u32 (p.blockSize * p.capacity) < p.blockSize := ⟨_, rfl, by decide⟩
  obtain ⟨hreturns, htake⟩ := returns_outside hp hsmall fun _ => false
  refine ⟨_, congrArg (Option.map _) hp, (Bool.and_eq_true _ _).mpr ⟨rfl, hreturns⟩, ?_⟩
  exact run_bind_of_stuck _ (run_bind_of_stuck _ (takeNode_stuck htake))

end MuggleC.Dsaa.LinkedListRuns
