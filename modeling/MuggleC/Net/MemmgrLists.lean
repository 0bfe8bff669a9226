/- source: net/event/socket_event_memmgr.c, memory/memory_pool.c
   digest: The hand-linked lists of the event memory manager over the ring of its pool. -/

import MuggleC.Foundation.DoublyLinked
import MuggleC.Memory.MemoryPool
import MuggleC.Net.SocketPeer

set_option autoImplicit false

namespace MuggleC.Net.MemmgrLists

open Foundation.DoublyLinked Foundation.Transition Memory MemoryPool Function List

/-- A list node: one of the two heads in the manager, or a block of its pool. -/
inductive Ref
  | active
  | recycle
  | node (b : Block)
  deriving DecidableEq, Repr

/-- `muggle_socket_event_memmgr_t` with the links of all nodes, and what the last call of `allocate`
has returned. -/
structure Memmgr where
  pool : MemoryPool
  next : Ref → Option Ref
  prev : Ref → Option Ref
  returned : Option Block

inductive Op
  | allocate (mem : Malloc)
  | free (node : Block)
  /-- With what `muggle_socket_peer_release` returns. -/
  | recycle (node : Block) (refCnt : BitVec 32)
  /-- With the reference counts that the walk finds. -/
  | clear (refCnt : Block → BitVec 32)

def nodeSize : UInt32 := 184

namespace Memmgr

/-- `muggle_socket_event_memmgr_init` before the peers that it is given, which it puts into the active
list as `allocate` does. A node's links are what its memory happens to hold. -/
def init (capacity : UInt32) (mem : Malloc) (next prev : Ref → Option Ref) : Option Memmgr :=
  (MemoryPool.init capacity nodeSize mem).map fun pool =>
    { pool := pool.setFlag 1
      next := update (update next .active none) .recycle none
      prev := update (update prev .active none) .recycle none
      returned := none }

def insertNode (s : Memmgr) (head node : Ref) : Memmgr :=
  let s := { s with next := update s.next node (s.next head) }
  let s := { s with prev := point s.prev (s.next node) (some node) }
  let s := { s with next := update s.next head (some node) }
  { s with prev := update s.prev node (some head) }

def removeNode (s : Memmgr) (node : Ref) : Memmgr :=
  let s := { s with next := point s.next (s.prev node) (s.next node) }
  let s := { s with prev := point s.prev (s.next node) (s.prev node) }
  { s with prev := update s.prev node none, next := update s.next node none }

def allocate (s : Memmgr) (mem : Malloc) : Memmgr :=
  match s.pool.alloc mem with
  | (pool, none) => { s with pool := pool, returned := none }
  | (pool, some b) => ({ s with
      pool := pool
      next := update s.next (.node b) none
      prev := update s.prev (.node b) none
      returned := some b } : Memmgr).insertNode .active (.node b)

def poolFree (s : Memmgr) (node : Block) : Memmgr := { s with pool := s.pool.free node }

def free (s : Memmgr) (node : Block) : Memmgr := (s.removeNode (.node node)).poolFree node

def recycle (s : Memmgr) (node : Block) (refCnt : BitVec 32) : Memmgr :=
  let s := s.removeNode (.node node)
  if refCnt = 0#32 then s.poolFree node else s.insertNode .recycle (.node node)

/-- The loop of `muggle_socket_event_memmgr_clear` for so many turns at most. -/
def clearFrom (refCnt : Block → BitVec 32) : Nat → Option Ref → Memmgr → Option Memmgr
  | _, none, s => some s
  | turns + 1, some (.node b), s =>
    let nextNode := s.next (.node b)
    clearFrom refCnt turns nextNode (if refCnt b = 0#32 then s.free b else s)
  | _, _, _ => none

def step (s : Memmgr) : Op → Option Memmgr
  | .allocate mem => some (s.allocate mem)
  | .free node => some (s.free node)
  | .recycle node refCnt => some (s.recycle node refCnt)
  | .clear refCnt => clearFrom refCnt s.pool.capacity (s.next .recycle) s

end Memmgr

/-- Where the blocks should be: in the ring in the order in which they come out, or in a list. -/
structure Places where
  ring : List Block
  active : List Block
  recycle : List Block
  returned : Option Block
  deriving DecidableEq, Repr

namespace Places

def start (blocks : List Block) : Places := ⟨blocks, [], [], none⟩

def free (p : Places) (node : Block) : Places :=
  { p with
    ring := p.ring ++ [node]
    active := p.active.erase node
    recycle := p.recycle.erase node }

/-- Only a node that is in one of the lists may be freed or recycled. -/
def step (p : Places) : Op → Option Places
  | .allocate _ =>
    match p.ring with
    | [] => some { p with returned := none }
    | b :: ring => some { p with ring := ring, active := b :: p.active, returned := some b }
  | .free node => if node ∈ p.active ++ p.recycle then some (p.free node) else none
  | .recycle node refCnt =>
    if node ∈ p.active ++ p.recycle then
      if refCnt = 0#32 then some (p.free node)
      else some { p with
        active := p.active.erase node
        recycle := node :: p.recycle.erase node }
    else none
  | .clear refCnt => some { p with
      ring := p.ring ++ p.recycle.filter fun b => refCnt b = 0#32
      recycle := p.recycle.filter fun b => refCnt b ≠ 0#32 }

end Places

def nodes (l : List Block) : List (Option Ref) := l.map (some ∘ .node)

def chain (l m : List Block) : List (Option Ref) :=
  some .active :: (nodes l ++ none :: some .recycle :: (nodes m ++ [none]))

section Links

variable {s : Memmgr} {h n : Ref} {pre post : List (Option Ref)} {l m : List Block} {b : Block}

theorem insertNode_linked (hl : Linked s.next s.prev (pre ++ some h :: post)) (hpost : post ≠ [])
    (hd : (pre ++ some h :: post).reduceOption.Nodup) (hn : some n ∉ pre ++ some h :: post) :
    Linked (s.insertNode h n).next (s.insertNode h n).prev (pre ++ some h :: some n :: post) := by
  obtain ⟨y, post, rfl⟩ := exists_cons_of_ne_nil hpost
  have hy : s.next h = y := (linked_split.mp hl).2.1.1 h rfl
  have hprev : (s.insertNode h n).prev = point (update s.prev n (some h)) y (some n) := by
    simp only [Memmgr.insertNode, update_self, hy]
    cases y with
    | none => rfl
    | some a => exact update_comm (fun hab => hn (by simp [hab])) _ _ _
  have hnext : (s.insertNode h n).next = point (update s.next n y) (some h) (some n) := by
    simp only [Memmgr.insertNode, hy]
    rfl
  rw [hnext, hprev]
  exact hl.insert hd hn

theorem removeNode_linked (hl : Linked s.next s.prev (pre ++ some n :: post)) (hpre : pre ≠ [])
    (hpost : post ≠ []) (hd : (pre ++ some n :: post).reduceOption.Nodup) :
    Linked (s.removeNode n).next (s.removeNode n).prev (pre ++ post) := by
  obtain ⟨pre, x, rfl⟩ := (eq_nil_or_concat' pre).resolve_left hpre
  obtain ⟨y, post, rfl⟩ := exists_cons_of_ne_nil hpost
  have hne : some n ≠ x := fun he => ne_of_once hd (a := n) (by simp [he]) rfl
  simp only [append_assoc, singleton_append] at hl hd ⊢
  obtain ⟨_, hxn, hrest⟩ := linked_split.mp hl
  have hprev : s.prev n = x := hxn.2 _ rfl
  have hnext : s.next n = y := (isChain_cons_cons.mp hrest).1.1 _ rfl
  simp only [Memmgr.removeNode, hprev, hnext, point_of_ne hne]
  exact hl.remove_update hd none none

theorem mem_chain : some (.node b) ∈ chain l m ↔ b ∈ l ++ m := by
  simp [chain, nodes]

theorem chain_once (hd : (l ++ m).Nodup) : (chain l m).reduceOption.Nodup := by
  have hnodes (l : List Block) : (nodes l).reduceOption = l.map .node := by
    simp [nodes, reduceOption, filterMap_map]
  have he : (chain l m).reduceOption = .active :: (l.map .node ++ .recycle :: m.map .node) := by
    simp [chain, hnodes, reduceOption_append, reduceOption_cons_of_some, reduceOption_cons_of_none]
  rw [he, nodup_cons, nodup_middle, nodup_cons, ← map_append]
  exact ⟨by simp, by simp, hd.map fun _ _ => Ref.node.inj⟩

variable (hl : Linked s.next s.prev (chain l m)) (hd : (l ++ m).Nodup)

include hl hd

private theorem insertNode_active (hb : b ∉ l ++ m) :
    Linked (s.insertNode .active (.node b)).next (s.insertNode .active (.node b)).prev
      (chain (b :: l) m) := by
  change Linked s.next s.prev ([] ++ some .active :: (nodes l ++ none :: some .recycle ::
    (nodes m ++ [none]))) at hl
  exact insertNode_linked hl (by simp) (chain_once hd) (mt mem_chain.mp hb)

private theorem insertNode_recycle (hb : b ∉ l ++ m) :
    Linked (s.insertNode .recycle (.node b)).next (s.insertNode .recycle (.node b)).prev
      (chain l (b :: m)) := by
  have hsplit (m : List Block) : chain l m =
      (some .active :: (nodes l ++ [none])) ++ some .recycle :: (nodes m ++ [none]) := by
    simp [chain]
  have hn := mt mem_chain.mp hb
  have hone := chain_once hd
  rw [hsplit] at hl hn hone ⊢
  exact insertNode_linked hl (by simp) hone hn

theorem removeNode_chain (hb : b ∈ l ++ m) : Linked (s.removeNode (.node b)).next
    (s.removeNode (.node b)).prev (chain (l.erase b) (m.erase b)) := by
  have hone := chain_once hd
  by_cases hbl : b ∈ l
  · have hbm : b ∉ m := fun hm => (nodup_append.mp hd).2.2 b hbl b hm rfl
    obtain ⟨l₁, l₂, _, rfl, he⟩ := exists_erase_eq hbl
    have hsplit : chain (l₁ ++ b :: l₂) m = (some .active :: nodes l₁) ++ some (.node b) ::
        (nodes l₂ ++ none :: some .recycle :: (nodes m ++ [none])) := by
      simp [chain, nodes]
    rw [hsplit] at hl hone
    rw [he, erase_of_not_mem hbm]
    simpa [chain, nodes] using removeNode_linked hl (by simp) (by simp) hone
  · obtain ⟨m₁, m₂, _, rfl, he⟩ := exists_erase_eq ((mem_append.mp hb).resolve_left hbl)
    have hsplit : chain l (m₁ ++ b :: m₂) = (some .active :: (nodes l ++ none :: some .recycle ::
        nodes m₁)) ++ some (.node b) :: (nodes m₂ ++ [none]) := by
      simp [chain, nodes]
    rw [hsplit] at hl hone
    rw [he, erase_of_not_mem hbl]
    simpa [chain, nodes] using removeNode_linked hl (by simp) (by simp) hone

end Links

theorem erase_append_perm {l m : List Block} {b : Block} (hd : (l ++ m).Nodup) (hb : b ∈ l ++ m) :
    (b :: (l.erase b ++ m.erase b)).Perm (l ++ m) := by
  have he : (l ++ m).erase b = l.erase b ++ m.erase b := by
    by_cases hl : b ∈ l
    · have hm : b ∉ m := fun hm => (nodup_append.mp hd).2.2 b hl b hm rfl
      rw [erase_append_left _ hl, erase_of_not_mem hm]
    · rw [erase_append_right _ hl, erase_of_not_mem hl]
  rw [← he]
  exact (perm_cons_erase hb).symm

/-- The manager has the blocks where they should be: each in the ring or in one of the lists. -/
structure Sound (blocks : List Block) (s : Memmgr) (p : Places) : Prop where
  ring : s.pool.available = p.ring
  lists : Linked s.next s.prev (chain p.active p.recycle)
  returned : s.returned = p.returned
  all : (p.ring ++ (p.active ++ p.recycle)).Perm blocks
  once : blocks.Nodup

structure Inv (blocks : List Block) (s : Memmgr) (p : Places) : Prop extends Sound blocks s p where
  pool : RingInv s.pool
  size : blocks.length = s.pool.capacity
  small : s.pool.capacity < 2147483648
  flag : s.pool.flag = constantSize

namespace Inv

variable {blocks : List Block} {s : Memmgr} {p : Places} {b : Block}

theorem nodup (hI : Inv blocks s p) : (p.active ++ p.recycle).Nodup :=
  (hI.all.nodup_iff.mpr hI.once).of_append_right

theorem used_eq (hI : Inv blocks s p) : s.pool.used = (p.active ++ p.recycle).length := by
  have havail := length_available hI.pool
  have hall := hI.all.length_eq
  have hle := hI.pool.used_le
  rw [hI.ring] at havail
  rw [length_append, hI.size] at hall
  omega

private theorem allocate (hI : Inv blocks s p) (mem : Malloc) :
    ∃ q, p.step (.allocate mem) = some q ∧ Inv blocks (s.allocate mem) q := by
  by_cases hfull : s.pool.used = s.pool.capacity
  · have hring : p.ring = [] := by
      rw [← hI.ring, ← length_eq_zero_iff, length_available hI.pool, hfull, Nat.sub_self]
    have hno : ¬ PoolLedger.Grows s.pool mem := fun hg =>
      absurd (hI.flag ▸ hg.2.1) (by decide)
    have hpos : 0 < s.pool.capacity := Nat.zero_lt_of_lt hI.pool.alloc_lt
    have hstep : p.step (.allocate mem) = some { p with returned := none } := by
      simp only [Places.step, hring]
    refine ⟨_, hstep, ?_⟩
    rw [Memmgr.allocate, PoolLedger.alloc_of_refused hI.small hpos hfull hno]
    exact { hI with returned := rfl }
  · have hroom : s.pool.used < s.pool.capacity := Nat.lt_of_le_of_ne hI.pool.used_le hfull
    obtain ⟨b, hb, hr, hp, _⟩ := takeBlock_spec hI.pool hroom
    have he : s.pool.alloc mem = (s.pool.takeBlock.1, some b) := by
      rw [PoolLedger.alloc_of_not_full hfull, ← hb]
    have hring := hI.ring.symm.trans hr
    have hmove := perm_middle.trans (hring ▸ hI.all)
    have hout := (nodup_cons.mp (hmove.nodup_iff.mpr hI.once).of_append_right).1
    have hstep : p.step (.allocate mem) = some { p with
        ring := s.pool.takeBlock.1.available, active := b :: p.active, returned := some b } := by
      simp only [Places.step, hring]
    refine ⟨_, hstep, ?_⟩
    rw [Memmgr.allocate, he]
    exact ⟨⟨rfl, insertNode_active (hI.lists.outside (mt mem_chain.mp hout) none none) hI.nodup hout,
      rfl, hmove, hI.once⟩, hp, hI.size, hI.small, hI.flag⟩

theorem free (hI : Inv blocks s p) (hb : b ∈ p.active ++ p.recycle) :
    Inv blocks (s.free b) (p.free b) := by
  have hpos : 0 < s.pool.used := by
    rw [hI.used_eq]
    exact length_pos_of_mem hb
  obtain ⟨hr, hp, _⟩ := free_spec hI.pool hpos b
  refine ⟨⟨?_, removeNode_chain hI.lists hI.nodup hb, hI.returned, ?_, hI.once⟩, hp, hI.size,
    hI.small, hI.flag⟩
  · exact hr.trans (by rw [hI.ring, Places.free])
  · refine Perm.trans ?_ hI.all
    rw [Places.free, append_assoc]
    exact (erase_append_perm hI.nodup hb).append_left _

theorem recycle (hI : Inv blocks s p) (hb : b ∈ p.active ++ p.recycle) (refCnt : BitVec 32) :
    ∃ q, p.step (.recycle b refCnt) = some q ∧ Inv blocks (s.recycle b refCnt) q := by
  simp only [Places.step, if_pos hb, Memmgr.recycle]
  split
  · exact ⟨_, rfl, hI.free hb⟩
  · have hperm := erase_append_perm hI.nodup hb
    obtain ⟨hout, hd⟩ := nodup_cons.mp (hperm.nodup_iff.mpr hI.nodup)
    have hmove : (p.active.erase b ++ b :: p.recycle.erase b).Perm (p.active ++ p.recycle) :=
      perm_middle.trans hperm
    exact ⟨_, rfl, ⟨hI.ring, insertNode_recycle (removeNode_chain hI.lists hI.nodup hb) hd hout,
      hI.returned, (hmove.append_left _).trans hI.all, hI.once⟩, hI.pool, hI.size, hI.small, hI.flag⟩

private theorem clearFrom (refCnt : Block → BitVec 32) {kept rest : List Block} {turns : Nat}
    {cursor : Option Ref} (hI : Inv blocks s p) (hrec : p.recycle = kept ++ rest)
    (hcur : (nodes rest ++ [none]).head? = some cursor) (hturns : rest.length ≤ turns) :
    ∃ t, Memmgr.clearFrom refCnt turns cursor s = some t ∧ Inv blocks t { p with
      ring := p.ring ++ rest.filter fun b => refCnt b = 0#32
      recycle := kept ++ rest.filter fun b => refCnt b ≠ 0#32 } := by
  induction rest generalizing s p kept turns cursor with
  | nil =>
    cases hcur
    refine ⟨s, by cases turns <;> rfl, ?_⟩
    simp only [filter_nil, append_nil] at hrec ⊢
    rw [← hrec]
    exact hI
  | cons b rest ih =>
    cases hcur
    obtain ⟨turns, rfl⟩ := Nat.exists_eq_add_one.mpr (Nat.lt_of_lt_of_le (Nat.zero_lt_succ _) hturns)
    have hlen := Nat.le_of_succ_le_succ hturns
    have hsplit : chain p.active p.recycle = (some .active :: (nodes p.active ++ none ::
        some .recycle :: nodes kept)) ++ some (.node b) :: (nodes rest ++ [none]) := by
      simp [hrec, chain, nodes]
    have hnext : (nodes rest ++ [none]).head? = some (s.next (.node b)) :=
      Linked.head?_eq (List.IsChain.right_of_append (hsplit ▸ hI.lists)) (by simp)
    simp only [Function.comp_apply, Memmgr.clearFrom]
    by_cases h0 : refCnt b = 0#32
    · have hd := hrec ▸ hI.nodup
      have hact : b ∉ p.active := fun hm => (nodup_append.mp hd).2.2 b hm b (by simp) rfl
      have hkept : b ∉ kept := fun hm =>
        (nodup_append.mp hd.of_append_right).2.2 b hm b (by simp) rfl
      have hfree := hI.free (b := b) (by simp [hrec])
      rw [Places.free, erase_of_not_mem hact, hrec, erase_append_right _ hkept, erase_cons_head]
        at hfree
      obtain ⟨t, ht, hIt⟩ := ih hfree rfl hnext hlen
      refine ⟨t, by rw [if_pos h0]; exact ht, ?_⟩
      simpa [h0] using hIt
    · have hrec' : p.recycle = kept ++ [b] ++ rest := by simp [hrec]
      obtain ⟨t, ht, hIt⟩ := ih hI hrec' hnext hlen
      refine ⟨t, by rw [if_neg h0]; exact ht, ?_⟩
      simpa [h0] using hIt

theorem step {op : Op} {q : Places} (hI : Inv blocks s p) (hq : p.step op = some q) :
    ∃ t, s.step op = some t ∧ Inv blocks t q := by
  cases op with
  | allocate mem =>
    obtain ⟨q', hq', ht⟩ := hI.allocate mem
    cases hq.symm.trans hq'
    exact ⟨_, rfl, ht⟩
  | free b =>
    obtain ⟨hb, hq⟩ := Option.ite_none_right_eq_some.mp hq
    cases hq
    exact ⟨_, rfl, hI.free hb⟩
  | recycle b refCnt =>
    obtain ⟨hb, _⟩ := Option.ite_none_right_eq_some.mp hq
    obtain ⟨q', hq', ht⟩ := hI.recycle hb refCnt
    cases hq.symm.trans hq'
    exact ⟨_, rfl, ht⟩
  | clear refCnt =>
    cases hq
    have hsplit : chain p.active p.recycle = (some .active :: (nodes p.active ++ [none])) ++
        some .recycle :: (nodes p.recycle ++ [none]) := by
      simp [chain]
    have hcur : (nodes p.recycle ++ [none]).head? = some (s.next .recycle) :=
      Linked.head?_eq (List.IsChain.right_of_append (hsplit ▸ hI.lists)) (by simp)
    have hlen := hI.used_eq ▸ hI.pool.used_le
    rw [length_append] at hlen
    exact hI.clearFrom refCnt (nil_append _).symm hcur (by omega)

end Inv

variable {capacity : UInt32} {mem : Malloc} {next prev : Ref → Option Ref} {s : Memmgr}

theorem init_inv (hi : Memmgr.init capacity mem next prev = some s)
    (hfit : s.pool.blockSize * s.pool.capacity < 4294967296) :
    Inv s.pool.ptrBuf s (Places.start s.pool.ptrBuf) := by
  obtain ⟨pool, hpool, rfl⟩ := Option.map_eq_some_iff.mp hi
  have hI := PoolLedger.step_inv (a := .setFlag 1) (PoolLedger.opened_inv hpool hfit) trivial rfl
  refine ⟨⟨hI.queue.symm, ?_, rfl, by simp [Places.start], hI.nodup⟩, hI.ring, hI.ring.size, ?_, rfl⟩
  · simp [Linked, chain, nodes, Adjacent, Places.start]
  · obtain ⟨cap, _, _, _, _, rfl⟩ := MemoryPool.init_eq_some hpool
    have : 184 * cap < 4294967296 := hfit
    change cap < 2147483648
    omega

section Loops

variable {blocks : List Block} {m m' : Nodes Block} {r : Option Block} {n : Block}

def ofNodes (m : Nodes Block) (returned : Option Block) : Places :=
  ⟨m.pool, m.active, m.recycled, returned⟩

private theorem ofNodes_allocate (h : m.allocate = some (n, m')) (mem : Malloc) (r : Option Block) :
    (ofNodes m r).step (.allocate mem) = some (ofNodes m' (some n)) := by
  obtain ⟨_, hpool, hactive, hrecycled⟩ := Nodes.allocate_eq_some h
  simp only [Places.step, ofNodes, hpool, hactive, hrecycled]

theorem ofNodes_recycle (hd : (m.active ++ m.recycled).Nodup) (hn : n ∈ m.active)
    (refCnt : BitVec 32) : (ofNodes m r).step (.recycle n refCnt) =
      some (ofNodes (m.recycle (refCnt = 0#32) n) r) := by
  have hout : n ∉ m.recycled := fun hm => (nodup_append.mp hd).2.2 n hn n hm rfl
  have herase : m.recycled.erase n = m.recycled := erase_of_not_mem hout
  have hmem : n ∈ (ofNodes m r).active ++ (ofNodes m r).recycle := mem_append_left _ hn
  rw [Places.step, if_pos hmem]
  split
  · next hzero => simp [ofNodes, Places.free, Nodes.recycle, Nodes.free, Nodes.setPeer, hzero, herase]
  · next hnext => simp [ofNodes, Nodes.recycle, hnext, herase]

private theorem ofNodes_free (hd : (m.active ++ m.recycled).Nodup) (hn : n ∈ m.active) :
    (ofNodes m r).step (.free n) = some (ofNodes (m.free n) r) :=
  ofNodes_recycle hd hn 0#32

private theorem ofNodes_clear (refCnt : Block → BitVec 32) : (ofNodes m r).step (.clear refCnt) =
    some (ofNodes (m.clear fun b => refCnt b = 0#32) r) := by
  simp [Places.step, ofNodes, Nodes.clear]

theorem Inv.follows (hI : Inv blocks s (ofNodes m r)) :
    (∀ mem n m', m.allocate = some (n, m') → ∃ t, s.step (.allocate mem) = some t ∧
      Inv blocks t (ofNodes m' (some n))) ∧
    (∀ n ∈ m.active, ∃ t, s.step (.free n) = some t ∧ Inv blocks t (ofNodes (m.free n) r)) ∧
    (∀ n ∈ m.active, ∀ refCnt, ∃ t, s.step (.recycle n refCnt) = some t ∧
      Inv blocks t (ofNodes (m.recycle (refCnt = 0#32) n) r)) ∧
    ∀ refCnt, ∃ t, s.step (.clear refCnt) = some t ∧
      Inv blocks t (ofNodes (m.clear fun b => refCnt b = 0#32) r) := by
  have hd : (m.active ++ m.recycled).Nodup := hI.nodup
  exact ⟨fun mem n m' h => hI.step (ofNodes_allocate h mem r),
    fun n hn => hI.step (ofNodes_free hd hn),
    fun n hn refCnt => hI.step (ofNodes_recycle hd hn refCnt),
    fun refCnt => hI.step (ofNodes_clear refCnt)⟩

theorem Inv.addPeers {peers : List (Int × PeerType)} (hI : Inv blocks s (ofNodes m r))
    (h : m.addPeers peers = some m') (mem : Malloc) :
    ∃ t r', run Memmgr.step s (replicate peers.length (.allocate mem)) = some t ∧
      Inv blocks t (ofNodes m' r') := by
  induction peers generalizing m s r with
  | nil =>
    cases h
    exact ⟨s, r, rfl, hI⟩
  | cons p peers ih =>
    obtain ⟨⟨n, m₁⟩, halloc, hrest⟩ := Option.bind_eq_some_iff.mp h
    obtain ⟨t, ht, hI₁⟩ := hI.follows.1 mem n m₁ halloc
    obtain ⟨u, r', hu, hIu⟩ := ih (m := m₁.setPeer n ⟨p.1, p.2, false⟩) hI₁ hrest
    exact ⟨u, r', run_of_step ht hu, hIu⟩

theorem nodes_of_init {peer : Block → PeerView} {peers : List (Int × PeerType)}
    (hi : Memmgr.init capacity mem next prev = some s)
    (hfit : s.pool.blockSize * s.pool.capacity < 4294967296)
    (h : (Nodes.ofPool peer s.pool.ptrBuf).addPeers peers = some m) :
    m.all.Nodup ∧ ∃ t r, run Memmgr.step s (replicate peers.length (.allocate mem)) = some t ∧
      Inv s.pool.ptrBuf t (ofNodes m r) := by
  obtain ⟨t, r, ht, hI⟩ := (init_inv hi hfit).addPeers (m := Nodes.ofPool peer s.pool.ptrBuf) h mem
  exact ⟨hI.all.nodup_iff.mpr hI.once, t, r, ht, hI⟩

end Loops

/-- Whatever is called on a manager whose nodes fit 32 bits, its blocks are where they should be. -/
theorem memmgr_sound (capacity : UInt32) (mem : Malloc) (next prev : Ref → Option Ref) (s : Memmgr)
    (hi : Memmgr.init capacity mem next prev = some s)
    (hfit : s.pool.blockSize * s.pool.capacity < 4294967296) (ops : List Op) (p : Places)
    (hr : run Places.step (Places.start s.pool.ptrBuf) ops = some p) :
    ∃ t, run Memmgr.step s ops = some t ∧ Sound s.pool.ptrBuf t p := by
  have hrun : ∃ t, run Memmgr.step s ops = some t ∧ Inv s.pool.ptrBuf t p := by
    refine run_forward ?_ (init_inv hi hfit) hr
    intro u q op q' hI hq
    exact hI.step hq
  obtain ⟨t, ht, hI⟩ := hrun
  exact ⟨t, ht, hI.toSound⟩

theorem memmgr_sound_two_nodes : ∃ s t, Memmgr.init 2 ⟨true, true, true⟩ (fun _ => none)
      (fun _ => none) = some s ∧
    run Memmgr.step s [.allocate ⟨true, true, true⟩, .allocate ⟨true, true, true⟩,
      .recycle ⟨0, 0⟩ 1#32, .allocate ⟨true, true, true⟩, .clear fun _ => 0#32] = some t ∧
    Sound [⟨0, 0⟩, ⟨0, 184⟩] t ⟨[⟨0, 0⟩], [⟨0, 184⟩], [], none⟩ := by
  obtain ⟨t, ht, hs⟩ := memmgr_sound 2 ⟨true, true, true⟩ (fun _ => none) (fun _ => none) _ rfl
    (by decide) [.allocate ⟨true, true, true⟩, .allocate ⟨true, true, true⟩,
      .recycle ⟨0, 0⟩ 1#32, .allocate ⟨true, true, true⟩, .clear fun _ => 0#32] _ rfl
  exact ⟨_, t, rfl, ht, hs⟩

private theorem allocate_of_room (hp : RingInv s.pool) (hroom : s.pool.used < s.pool.capacity) :
    ∃ b, s.pool.available = b :: (s.allocate mem).pool.available ∧
      (s.allocate mem).next .active = some (.node b) := by
  obtain ⟨b, hb, hr, _⟩ := takeBlock_spec hp hroom
  have he : s.pool.alloc mem = (s.pool.takeBlock.1, some b) := by
    rw [PoolLedger.alloc_of_not_full (Nat.ne_of_lt hroom), ← hb]
  refine ⟨b, ?_, ?_⟩
  · rw [Memmgr.allocate, he]
    exact hr
  · simp only [Memmgr.allocate, he, Memmgr.insertNode, update_self]

private theorem allocate_wrapped (hi : Memmgr.init capacity mem next prev = some s)
    (hcap : 536870912 < s.pool.capacity) : (s.allocate mem).next .active = some (.node ⟨0, 0⟩) ∧
      ⟨0, 0⟩ ∈ (s.allocate mem).pool.available := by
  obtain ⟨pool, hpool, rfl⟩ := Option.map_eq_some_iff.mp hi
  obtain ⟨hp, havail⟩ := PoolLedger.init_ring hpool
  have hfields : pool.used = 0 ∧ pool.ptrBuf = blocksOf 0 184 pool.capacity := by
    obtain ⟨_, _, _, _, _, rfl⟩ := MemoryPool.init_eq_some hpool
    exact ⟨rfl, rfl⟩
  obtain ⟨b, hb, hact⟩ := allocate_of_room (s := ⟨pool.setFlag 1, _, _, _⟩) (hp.setFlag 1)
    (Nat.lt_of_le_of_lt (Nat.le_of_eq hfields.1) (Nat.zero_lt_of_lt hcap))
  have hcap' : 536870912 < pool.capacity := hcap
  obtain ⟨n, hn⟩ := Nat.exists_eq_add_one.mpr (Nat.zero_lt_of_lt hcap')
  have hb' := (havail.symm.trans hb).symm.trans hfields.2
  rw [hn, blocksOf, range_succ_eq_map, map_cons, cons.injEq] at hb'
  rw [hact, hb'.1, hb'.2]
  refine ⟨rfl, mem_map.mpr ⟨536870912, mem_map.mpr ⟨536870911, ?_, rfl⟩, rfl⟩⟩
  rw [mem_range]
  omega

theorem first_node_in_two_places : ∃ s t, Memmgr.init 536870913 PoolLedger.memoryOk (fun _ => none)
      (fun _ => none) = some s ∧ run Memmgr.step s [.allocate PoolLedger.memoryOk] = some t ∧
    t.next .active = some (.node ⟨0, 0⟩) ∧ ⟨0, 0⟩ ∈ t.pool.available :=
  ⟨_, _, rfl, rfl, allocate_wrapped rfl (by decide)⟩

end MuggleC.Net.MemmgrLists
