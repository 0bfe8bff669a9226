/- source: dsaa/hash_table.c
   digest: The hash table with its nodes in memory, and what its loops do, chain by chain. -/

import MuggleC.Dsaa.NodePool
import MuggleC.Foundation.DoublyLinked

set_option autoImplicit false

/-! A program gets stuck when it touches an address without a head or a node, and when a loop makes
more turns than there are nodes. -/

namespace MuggleC.Dsaa.HashTable

open Base Foundation.Blocks Foundation.Program Function Memory NodePool

/-- The address of a bucket's head `&nodes[i]`, or of an allocated node. -/
inductive Addr
  | head (i : Nat)
  | node (a : Nat)
  deriving DecidableEq, Repr

structure Node (κ ω : Type) where
  prev : Option Addr
  next : Option Addr
  key : Option κ
  value : Option ω
  deriving DecidableEq, Repr

namespace Node

variable {κ ω : Type}

def setPrev (p : Option Addr) (n : Node κ ω) : Node κ ω := { n with prev := p }

def setNext (p : Option Addr) (n : Node κ ω) : Node κ ω := { n with next := p }

def setKey (k : Option κ) (n : Node κ ω) : Node κ ω := { n with key := k }

def setValue (v : Option ω) (n : Node κ ω) : Node κ ω := { n with value := v }

end Node

/-- What a call of `key_func_free` or `value_func_free` was given. -/
inductive Freed (κ ω : Type)
  | key (k : κ)
  | value (v : ω)
  deriving DecidableEq, Repr

structure Frees where
  key : Bool
  value : Bool

/-- What there is beside the memory: the addresses of the allocated nodes, how many times an
assertion has failed, and what has been passed to the free functions. -/
structure Vars (κ ω : Type) where
  tableSize : Nat
  nodes : List Nat
  failedAsserts : Nat
  freed : List (Freed κ ω)
  pool : Option MemoryPool

abbrev State (κ ω : Type) := Store Addr (Node κ ω) (Vars κ ω)

abbrev Op (κ ω α : Type) := Prog (State κ ω) α

/-- `s_muggle_default_str_hash_func`, over the bytes before the terminating zero; a `char` is
signed. -/
def defaultStrHash (bytes : List (BitVec 8)) : BitVec 64 :=
  bytes.foldl (fun hashVal c => (hashVal <<< 5) + c.signExtend 64) 0#64

variable {κ ω : Type}

/-- The hash function of a table, where `str` gives the bytes that a key points to. -/
def hashFunc (str : Option κ → List (BitVec 8)) (hash : Option (Option κ → BitVec 64)) :
    Option κ → BitVec 64 :=
  hash.getD fun key => defaultStrHash (str key)

def nodeSize : Nat := 32

/-- `muggle_hash_table_init`. The flags tell whether a comparator is given and whether `malloc` got
the memory of the heads. The result is `none` if the loop over the heads leaves that memory, and
`some none` for `false`. -/
def init (κ ω : Type) (cmpGiven : Bool) (tableSize capacity : BitVec 64) (poolMem : Bool)
    (mem : Malloc) (headsMem : Bool) : Option (Option (State κ ω)) :=
  if cmpGiven = false then some none
  else
    match nodePool capacity (UInt32.ofNat nodeSize) poolMem mem with
    | none => some none
    | some pool =>
      let tableSize := if tableSize.toNat < 8 then 10007 else tableSize.toNat
      if headsMem = false then some none
      else if tableSize ≤ nodeSize * tableSize % 2 ^ 64 / nodeSize then
        some (some {
          heap := fun
            | .head i => if i < tableSize then some ⟨none, none, none, none⟩ else none
            | .node _ => none
          vars := ⟨tableSize, [], 0, [], pool⟩ })
      else none

def setPool (pool : Option MemoryPool) (v : Vars κ ω) : Vars κ ω := { v with pool := pool }

def turns : Op κ ω Nat := get fun v => v.nodes.length + 1

def assert (c : Bool) : Op κ ω Unit :=
  adjust fun v => if c then v else { v with failedAsserts := v.failedAsserts + 1 }

def whenSome (p : Option Addr) (f : Addr → Op κ ω Unit) : Op κ ω Unit :=
  match p with
  | none => pure ()
  | some a => f a

def logFree (c : Bool) (f : Freed κ ω) : Op κ ω Unit :=
  adjust fun v => if c then { v with freed := v.freed ++ [f] } else v

/-- A new node; all its fields are written before they are read. -/
def allocateNode (a : Nat) : Op κ ω Unit := do
  takeNode Vars.pool setPool a
  create (.node a) ⟨none, none, none, none⟩
  adjust fun v => { v with nodes := a :: v.nodes }

/-- `muggle_memory_pool_free` or `free`; the heads are not allocated one by one. -/
def freeNode : Addr → Op κ ω Unit
  | .head _ => stuck
  | .node a => do
    release (.node a)
    adjust fun v => { v with nodes := v.nodes.erase a, pool := give v.pool a }

section Compare

variable (hash : Option κ → BitVec 64) (cmp : Option κ → Option κ → Int)

def bucket (key : Option κ) : Op κ ω Nat :=
  get fun v => (hash key).toNat % v.tableSize

def search (key : Option κ) : Nat → Option Addr → Op κ ω (Option Addr)
  | _, none => pure none
  | 0, some _ => stuck
  | fuel + 1, some node => do
    let n ← load node
    if cmp n.key key = 0 then pure (some node)
    else search key fuel n.next

def find (key : Option κ) : Op κ ω (Option Addr) := do
  let idx ← bucket hash key
  let head ← load (.head idx)
  let fuel ← turns
  search cmp key fuel head.next

/-- The new node `a` becomes the first one behind the head of a bucket. -/
def linkFirst (idx a : Nat) (key : Option κ) (value : Option ω) : Op κ ω Unit := do
  modify (.node a) fun n => (n.setKey key).setValue value
  let head ← load (.head idx)
  modify (.node a) (Node.setNext head.next)
  modify (.node a) (Node.setPrev (some (.head idx)))
  modify (.head idx) (Node.setNext (some (.node a)))
  let node ← load (.node a)
  whenSome node.next fun next => modify next (Node.setPrev (some (.node a)))

/-- `muggle_hash_table_put`, where `got` is what the pool or `malloc` returns. -/
def put (key : Option κ) (value : Option ω) (got : Option Nat) : Op κ ω (Option Addr) := do
  let idx ← bucket hash key
  let head ← load (.head idx)
  let fuel ← turns
  let found ← search cmp key fuel head.next
  match found, got with
  | some _, _ => pure none
  | none, none => pure none
  | none, some a => do
    allocateNode a
    linkFirst idx a key value
    pure (some (.node a))

end Compare

def eraseKey (frees : Frees) (node : Addr) : Op κ ω Unit := do
  let n ← load node
  match n.key with
  | none => pure ()
  | some k => do
    logFree frees.key (.key k)
    modify node (Node.setKey none)

def eraseValue (frees : Frees) (node : Addr) : Op κ ω Unit := do
  let n ← load node
  match n.value with
  | none => pure ()
  | some v => do
    logFree frees.value (.value v)
    modify node (Node.setValue none)

/-- The second part of `muggle_hash_table_remove`. -/
def eraseNode (node : Addr) : Op κ ω Unit := do
  let n ← load node
  assert n.prev.isSome
  let prev ← deref n.prev
  modify prev (Node.setNext n.next)
  whenSome n.next fun next => modify next (Node.setPrev n.prev)
  freeNode node

def remove (frees : Frees) (node : Addr) : Op κ ω Unit := do
  eraseKey frees node
  eraseValue frees node
  eraseNode node

def clearChain (frees : Frees) : Nat → Option Addr → Op κ ω Unit
  | _, none => pure ()
  | 0, some _ => stuck
  | fuel + 1, some node => do
    let n ← load node
    remove frees node
    clearChain frees fuel n.next

def clearBuckets (frees : Frees) : List Nat → Op κ ω Unit
  | [] => pure ()
  | i :: is => do
    let head ← load (.head i)
    let fuel ← turns
    clearChain frees fuel head.next
    clearBuckets frees is

def clear (frees : Frees) : Op κ ω Unit := do
  let tableSize ← get Vars.tableSize
  clearBuckets frees (List.range tableSize)

/-- `muggle_hash_table_destroy`, before the memory of the nodes and of the heads goes. -/
def destroy (frees : Frees) : Op κ ω Unit := clear frees

def Node.entry (n : Node κ ω) : Option (Option κ × Option ω) := some (n.key, n.value)

def next : State κ ω → Addr → Option Addr := field Node.next

def prev : State κ ω → Addr → Option Addr := field Node.prev

def entry : State κ ω → Addr → Option (Option κ × Option ω) := field Node.entry

section Rules

variable {s : State κ ω} {a : Addr}

theorem ends_turns {post : Nat → State κ ω → Prop} :
    Ends turns s post ↔ post (s.vars.nodes.length + 1) s := ends_get

theorem ends_bucket {hash : Option κ → BitVec 64} {key : Option κ} {post : Nat → State κ ω → Prop} :
    Ends (bucket hash key) s post ↔ post ((hash key).toNat % s.vars.tableSize) s := ends_get

private theorem ends_assert {c : Bool} {post : Unit → State κ ω → Prop} (h : c = true) :
    Ends (assert c) s post ↔ post () s := by
  rw [h]
  exact ends_adjust

theorem heap_of_entry {e : Option κ × Option ω} (h : entry s a = some e) :
    ∃ n, s.heap a = some n ∧ (n.key, n.value) = e ∧ next s a = n.next ∧ prev s a = n.prev := by
  obtain ⟨n, hn, he⟩ := Option.bind_eq_some_iff.mp h
  exact ⟨n, hn, Option.some.inj he, field_eq hn, field_eq hn⟩

end Rules

end MuggleC.Dsaa.HashTable

namespace MuggleC.Dsaa.HashChains

open Foundation.Blocks Foundation.DoublyLinked Foundation.Program HashTable Function Memory NodePool

variable {κ ω : Type}

def behind (c : List Nat) : List (Option Addr) := c.map (fun a => some (Addr.node a)) ++ [none]

def chain (i : Nat) (c : List Nat) : List (Option Addr) := some (.head i) :: behind c

section Search

variable {s : State κ ω} (cmp : Option κ → Option κ → Int) (key : Option κ) {c : List Nat}

theorem behind_head {next prev : Addr → Option Addr} {a : Nat}
    (h : Linked next prev (behind (a :: c))) :
    (behind c).head? = some (next (.node a)) ∧ Linked next prev (behind c) := by
  have htail : Linked next prev (behind c) := List.IsChain.tail h
  refine ⟨?_, htail⟩
  cases c with
  | nil | cons b c => rw [(List.isChain_cons_cons.mp h).1.1 _ rfl]; rfl

theorem search_ends {fuel : Nat} {p : Option Addr} (hl : Linked (next s) (prev s) (behind c))
    (hp : (behind c).head? = some p) (hin : ∀ a ∈ c, ∃ e, entry s (.node a) = some e)
    (hfuel : c.length < fuel) : Ends (search cmp key fuel p) s fun r s' => s' = s ∧
      ((r = none ∧ ∀ a ∈ c, ∀ e, entry s (.node a) = some e → cmp e.1 key ≠ 0) ∨
        ∃ a ∈ c, ∃ e, r = some (.node a) ∧ entry s (.node a) = some e ∧ cmp e.1 key = 0) := by
  induction c generalizing fuel p with
  | nil =>
    cases hp
    cases fuel with
    | zero => cases hfuel
    | succ fuel =>
      rw [search, ends_pure]
      exact ⟨rfl, .inl ⟨rfl, fun a ha => absurd ha List.not_mem_nil⟩⟩
  | cons a c ih =>
    cases hp
    obtain ⟨e, he⟩ := hin a List.mem_cons_self
    obtain ⟨n, hn, hne, hnext, _⟩ := heap_of_entry he
    have hkey : n.key = e.1 := congrArg Prod.fst hne
    obtain ⟨hhead, htail⟩ := behind_head hl
    cases fuel with
    | zero => cases hfuel
    | succ fuel =>
      rw [search, ends_bind, ends_load hn, hkey]
      by_cases hzero : cmp e.1 key = 0
      · rw [if_pos hzero, ends_pure]
        exact ⟨rfl, .inr ⟨a, List.mem_cons_self, e, rfl, he, hzero⟩⟩
      · rw [if_neg hzero]
        refine (ih htail (hnext ▸ hhead) (fun b hb => hin b (List.mem_cons_of_mem a hb))
          (Nat.lt_of_succ_lt_succ hfuel)).mono ?_
        rintro r s' ⟨rfl, hr⟩
        refine ⟨rfl, hr.imp ?_ ?_⟩
        · intro ⟨hnone, hall⟩
          refine ⟨hnone, ?_⟩
          intro b hb f hf
          rcases List.mem_cons.mp hb with rfl | hb
          · rw [he] at hf
            exact Option.some.inj hf ▸ hzero
          · exact hall b hb f hf
        · intro ⟨b, hb, hrest⟩
          exact ⟨b, List.mem_cons_of_mem a hb, hrest⟩

end Search

section Link

variable {s : State κ ω} {i a : Nat} {key : Option κ} {value : Option ω} {hn : Node κ ω}

theorem linkFirst_ends (hhead : s.heap (.head i) = some hn) (hnode : ∃ n, s.heap (.node a) = some n)
    (hfirst : ∀ x, hn.next = some x → x ≠ .node a ∧ x ≠ .head i ∧ ∃ nx, s.heap x = some nx) :
    Ends (linkFirst i a key value) s fun _ s' => s'.vars = s.vars ∧
      next s' = point (update (next s) (.node a) hn.next) (some (.head i))
        (some (.node a)) ∧
      prev s' = point (update (prev s) (.node a) (some (.head i))) hn.next
        (some (.node a)) ∧
      entry s' = update (entry s) (.node a) (some (key, value)) := by
  obtain ⟨n, hn'⟩ := hnode
  have hne : Addr.head i ≠ .node a := Addr.noConfusion
  obtain ⟨new, hnew⟩ : ∃ new : Node κ ω, new = ⟨some (.head i), hn.next, key, value⟩ := ⟨_, rfl⟩
  have hhead' : (s.write (.node a) (some new)).heap (.head i) = some hn :=
    (heap_write_of_ne hne).trans hhead
  obtain ⟨t, ht⟩ : ∃ t, t = (s.write (.node a) (some new)).write (.head i)
      (some (hn.setNext (some (.node a)))) := ⟨_, rfl⟩
  have hvars : t.vars = s.vars := ht ▸ rfl
  have hnext : next t = update (update (next s) (.node a) hn.next) (.head i)
      (some (.node a)) := by
    rw [ht, next, field_write, field_write, hnew]
    rfl
  have hprev : prev t = update (prev s) (.node a) (some (.head i)) := by
    rw [ht, prev, field_write_of_keep (Node.setNext _) hhead' fun _ => rfl, field_write, hnew]
    rfl
  have hentry : entry t = update (entry s) (.node a) (some (key, value)) := by
    rw [ht, entry, field_write_of_keep (Node.setNext _) hhead' fun _ => rfl, field_write, hnew]
    rfl
  rw [linkFirst, ends_bind, ends_modify hn', ends_bind,
    ends_load ((heap_write_of_ne hne).trans hhead), ends_bind, ends_modify heap_write_self,
    write_write, ends_bind, ends_modify heap_write_self, write_write]
  change Ends _ (s.write (.node a) (some ⟨some (.head i), hn.next, key, value⟩)) _
  rw [← hnew, ends_bind, ends_modify hhead', ends_bind,
    ends_load ((heap_write_of_ne hne.symm).trans heap_write_self), ← ht, hnew]
  cases hy : hn.next with
  | none =>
    rw [hy] at hnext
    exact ends_pure.mpr ⟨hvars, hnext, hprev, hentry⟩
  | some x =>
    obtain ⟨hxa, hxi, nx, hx⟩ := hfirst x hy
    have hx' : t.heap x = some nx := by
      rw [ht, heap_write_of_ne hxi, heap_write_of_ne hxa, hx]
    rw [hy] at hnext
    refine (ends_modify hx').mpr ⟨hvars, ?_, ?_, ?_⟩
    · rw [next, field_write_of_keep (Node.setPrev _) hx' fun _ => rfl]
      exact hnext
    · rw [prev, field_write]
      exact congrArg (fun f => update f x (some (.node a))) hprev
    · rw [entry, field_write_of_keep (Node.setPrev _) hx' fun _ => rfl]
      exact hentry

structure Inserted (s : State κ ω) (i a : Nat) (pool : Option MemoryPool) (y : Option Addr)
    (e : Option κ × Option ω) (s' : State κ ω) : Prop where
  next_eq : next s' = point (Function.update (next s) (.node a) y) (some (.head i)) (some (.node a))
  prev_eq : prev s' = point (Function.update (prev s) (.node a) (some (.head i))) y (some (.node a))
  entry_eq : entry s' = Function.update (entry s) (.node a) (some e)
  vars_eq : s'.vars = { s.vars with nodes := a :: s.vars.nodes, pool := pool }

variable {pool : Option MemoryPool} {y : Option Addr} {e : Option κ × Option ω} {s' : State κ ω}

theorem Inserted.tableSize_eq (h : Inserted s i a pool y e s') :
    s'.vars.tableSize = s.vars.tableSize := by rw [h.vars_eq]

theorem Inserted.nodes_eq (h : Inserted s i a pool y e s') :
    s'.vars.nodes = a :: s.vars.nodes := by rw [h.vars_eq]

theorem Inserted.freed_eq (h : Inserted s i a pool y e s') : s'.vars.freed = s.vars.freed := by
  rw [h.vars_eq]

theorem insert_ends (key : Option κ) (value : Option ω)
    (hhead : s.heap (.head i) = some hn)
    (hfree : s.heap (.node a) = none) (htake : take s.vars.pool a = some pool)
    (hfirst : ∀ x, hn.next = some x → x ≠ .head i ∧ ∃ nx, s.heap x = some nx) :
    Ends (allocateNode a) s fun _ t => Ends (linkFirst i a key value) t
      fun _ s' => Inserted s i a pool hn.next (key, value) s' := by
  obtain ⟨t, ht⟩ : ∃ t, t = (s.adjust (setPool pool)).write (.node a)
    (some ⟨none, none, none, none⟩) := ⟨_, rfl⟩
  rw [allocateNode, ends_bind, ends_takeNode htake, ends_bind, ends_create, ends_adjust, ← ht]
  have hread : ∀ {α : Type} (g : Node κ ω → Option α), field g t =
      update (field g s) (.node a) (g ⟨none, none, none, none⟩) := fun g => ht ▸ field_write
  have hother : ∀ x, x ≠ .node a → t.heap x = s.heap x := fun x hx => ht ▸ heap_write_of_ne hx
  have hnew : t.heap (.node a) = some ⟨none, none, none, none⟩ := ht ▸ heap_write_self
  refine (linkFirst_ends (s := t.adjust _) ((hother _ Addr.noConfusion).trans hhead)
    ⟨_, hnew⟩ ?_).mono ?_
  · intro x hx
    obtain ⟨hxi, nx, hnx⟩ := hfirst x hx
    have hxa := ne_of_heap hnx hfree
    exact ⟨hxa, hxi, nx, (hother x hxa).trans hnx⟩
  · intro _ s' ⟨hvars, hnext, hprev, hentry⟩
    rw [next, field_adjust, hread, update_idem] at hnext
    rw [prev, field_adjust, hread, update_idem] at hprev
    rw [entry, field_adjust, hread, update_idem] at hentry
    exact ⟨hnext, hprev, hentry, hvars.trans (ht ▸ rfl)⟩

end Link

def freedData (frees : Frees) (key : Option κ) (value : Option ω) : List (Freed κ ω) :=
  (if frees.key then key.toList.map .key else []) ++
    if frees.value then value.toList.map .value else []

section Unlink

variable {s : State κ ω} {a : Nat} {q : Addr} {n : Node κ ω} (frees : Frees)

def logged (s : State κ ω) (l : List (Freed κ ω)) : State κ ω :=
  s.adjust fun v => { v with freed := v.freed ++ l }

theorem logged_nil (s : State κ ω) : logged s [] = s := by
  rw [logged, Store.adjust, List.append_nil]

private theorem logged_logged (s : State κ ω) (l l' : List (Freed κ ω)) :
    logged (logged s l) l' = logged s (l ++ l') := by
  change Store.mk s.heap { s.vars with freed := s.vars.freed ++ l ++ l' } = _
  rw [List.append_assoc]
  rfl

theorem logged_write (s : State κ ω) (q : Addr) (n : Option (Node κ ω)) (l : List (Freed κ ω)) :
    logged (s.write q n) l = (logged s l).write q n := rfl

theorem ends_logFree {c : Bool} {f : Freed κ ω} {post : Unit → State κ ω → Prop} :
    Ends (logFree c f) s post ↔ post () (logged s (if c then [f] else [])) := by
  rw [logFree, ends_adjust]
  cases c with
  | false => rw [if_neg Bool.false_ne_true, logged_nil]; rfl
  | true => rfl

private theorem eraseKey_ends (hq : s.heap q = some n) : Ends (eraseKey frees q) s fun _ s' =>
      s' = (logged s (if frees.key then n.key.toList.map .key else [])).write q
        (some (n.setKey none)) := by
  rw [eraseKey, ends_bind, ends_load hq]
  obtain ⟨np, nn, key, nv⟩ := n
  cases key with
  | none =>
    rw [ends_pure]
    change s = (logged s (if frees.key then [] else [])).write q _
    rw [ite_self, logged_nil]
    exact (write_same hq).symm
  | some k =>
    rw [ends_bind, ends_logFree]
    exact (ends_modify (s := logged s _) hq).mpr rfl

private theorem eraseValue_ends (hq : s.heap q = some n) : Ends (eraseValue frees q) s fun _ s' =>
      s' = (logged s (if frees.value then n.value.toList.map .value else [])).write q
        (some (n.setValue none)) := by
  rw [eraseValue, ends_bind, ends_load hq]
  obtain ⟨np, nn, nk, value⟩ := n
  cases value with
  | none =>
    rw [ends_pure]
    change s = (logged s (if frees.value then [] else [])).write q _
    rw [ite_self, logged_nil]
    exact (write_same hq).symm
  | some v =>
    rw [ends_bind, ends_logFree]
    exact (ends_modify (s := logged s _) hq).mpr rfl

private theorem eraseData_ends (hq : s.heap q = some n) :
    Ends (eraseKey frees q) s fun _ s1 => Ends (eraseValue frees q) s1 fun _ s2 =>
      s2 = (logged s (freedData frees n.key n.value)).write q
        (some ⟨n.prev, n.next, none, none⟩) := by
  apply (eraseKey_ends frees hq).mono
  intro _ s1 hs1
  rw [hs1]
  apply (eraseValue_ends frees heap_write_self).mono
  intro _ s2 hs2
  rw [hs2, freedData, ← logged_logged, logged_write, write_write]
  rfl

structure Unlinked (s : State κ ω) (a : Nat) (x : Addr) (y : Option Addr) (l : List (Freed κ ω))
    (s' : State κ ω) : Prop where
  next_eq : next s' = Function.update (point (next s) (some x) y) (.node a) none
  prev_eq : prev s' = Function.update (point (prev s) y (some x)) (.node a) none
  entry_eq : entry s' = Function.update (entry s) (.node a) none
  vars_eq : s'.vars = { s.vars with
    nodes := s.vars.nodes.erase a, freed := s.vars.freed ++ l, pool := give s.vars.pool a }

variable {x : Addr} {y : Option Addr}

section

omit frees

variable {l : List (Freed κ ω)} {s' : State κ ω}

theorem Unlinked.tableSize_eq (h : Unlinked s a x y l s') :
    s'.vars.tableSize = s.vars.tableSize := by rw [h.vars_eq]

theorem Unlinked.nodes_eq (h : Unlinked s a x y l s') :
    s'.vars.nodes = s.vars.nodes.erase a := by rw [h.vars_eq]

theorem Unlinked.freed_eq (h : Unlinked s a x y l s') : s'.vars.freed = s.vars.freed ++ l := by
  rw [h.vars_eq]

private theorem unlinked_release {t : State κ ω}
    (hta : t.heap (.node a) = some n) (hvars : t.vars = s.vars)
    (hnext : next t = point (next s) (some x) y) (hprev : prev t = point (prev s) y (some x))
    (hentry : entry t = entry s) : Ends (freeNode (.node a)) t fun _ s' => Unlinked s a x y [] s' := by
  rw [freeNode, ends_bind, ends_release hta, ends_adjust]
  exact {
    next_eq := hnext ▸ field_write
    prev_eq := hprev ▸ field_write
    entry_eq := hentry ▸ field_write
    vars_eq := by
      rw [← hvars, List.append_nil]
      rfl }

private theorem eraseNode_ends (hq : s.heap (.node a) = some n) (hprev : n.prev = some x)
    (hx : x ≠ .node a ∧ ∃ nx, s.heap x = some nx)
    (hy : ∀ y, n.next = some y → y ≠ .node a ∧ y ≠ x ∧ ∃ ny, s.heap y = some ny) :
    Ends (eraseNode (.node a)) s fun _ s' => Unlinked s a x n.next [] s' := by
  obtain ⟨hxa, nx, hnx⟩ := hx
  obtain ⟨t, ht⟩ : ∃ t, t = s.write x (some (nx.setNext n.next)) := ⟨_, rfl⟩
  have hta : t.heap (.node a) = some n := ht ▸ (heap_write_of_ne hxa.symm).trans hq
  have hnext : next t = point (next s) (some x) n.next := ht ▸ field_write
  have hprev' : prev t = prev s :=
    ht ▸ field_write_of_keep (Node.setNext n.next) hnx fun _ => rfl
  have hentry : entry t = entry s :=
    ht ▸ field_write_of_keep (Node.setNext n.next) hnx fun _ => rfl
  have hvars : t.vars = s.vars := ht ▸ rfl
  rw [eraseNode, ends_bind, ends_load hq, hprev, ends_bind, ends_assert (Option.isSome_some),
    ends_bind, ends_deref, ends_bind, ends_modify hnx, ← ht, ends_bind]
  cases hy' : n.next with
  | none =>
    rw [hy'] at hnext
    exact ends_pure.mpr (unlinked_release hta hvars hnext hprev' hentry)
  | some y =>
    obtain ⟨hya, hyx, ny, hny⟩ := hy y hy'
    have hty : t.heap y = some ny := ht ▸ (heap_write_of_ne hyx).trans hny
    rw [hy'] at hnext
    refine (ends_modify hty).mpr
      (unlinked_release ((heap_write_of_ne hya.symm).trans hta) hvars ?_ ?_ ?_)
    · exact (field_write_of_keep (Node.setPrev (some x)) hty fun _ => rfl).trans hnext
    · exact hprev' ▸ field_write
    · exact (field_write_of_keep (Node.setPrev (some x)) hty fun _ => rfl).trans hentry

end

theorem remove_ends (hq : s.heap (.node a) = some n) (hprev : n.prev = some x)
    (hx : x ≠ .node a ∧ ∃ nx, s.heap x = some nx)
    (hy : ∀ y, n.next = some y → y ≠ .node a ∧ y ≠ x ∧ ∃ ny, s.heap y = some ny) :
    Ends (remove frees (.node a)) s fun _ s' =>
      Unlinked s a x n.next (freedData frees n.key n.value) s' := by
  rw [remove, ends_bind]
  apply (eraseData_ends frees hq).mono
  intro _ s1 h1
  rw [ends_bind]
  apply h1.mono
  -- only the data of the node has changed
  intro _ t ht
  have hheap : ∀ b, b ≠ .node a → t.heap b = s.heap b := fun b hb =>
    ht ▸ heap_write_of_ne hb
  have hnext : next t = next s := by
    have hold : n.next = next s (.node a) := (field_eq hq).symm
    rw [ht]
    refine field_write.trans ?_
    exact (congrArg (update (next s) (.node a)) hold).trans (update_eq_self _ _)
  have hprev' : prev t = prev s := by
    have hold : n.prev = prev s (.node a) := (field_eq hq).symm
    rw [ht]
    refine field_write.trans ?_
    exact (congrArg (update (prev s) (.node a)) hold).trans (update_eq_self _ _)
  have hentry : entry t = update (entry s) (.node a) (some (none, none)) :=
    ht ▸ field_write
  have hta : t.heap (.node a) = some ⟨n.prev, n.next, none, none⟩ := ht ▸ heap_write_self
  have hends := eraseNode_ends hta hprev ⟨hx.1, (hheap x hx.1).symm ▸ hx.2⟩ (fun y hny => by
    obtain ⟨hya, hyx, hex⟩ := hy y hny
    exact ⟨hya, hyx, (hheap y hya).symm ▸ hex⟩)
  apply hends.mono
  intro _ s' hs'
  exact {
    next_eq := hnext ▸ hs'.next_eq
    prev_eq := hprev' ▸ hs'.prev_eq
    entry_eq := by rw [hs'.entry_eq, hentry, update_idem]
    vars_eq := by
      rw [hs'.vars_eq, ht, List.append_nil]
      rfl }

end Unlink

end MuggleC.Dsaa.HashChains
