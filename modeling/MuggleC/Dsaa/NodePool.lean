/- source: dsaa/linked_list.c, dsaa/queue.c, dsaa/trie.c, dsaa/avl_tree.c, dsaa/hash_table.c,
   memory/memory_pool.c
   digest: Where the containers have their nodes from, and why no node overlaps another one. -/

import MuggleC.Base.Utils
import MuggleC.Foundation.Blocks
import MuggleC.Memory.MemoryPool

set_option autoImplicit false

namespace MuggleC.Dsaa.NodePool

open Base Foundation.Blocks Foundation.Program Memory MemoryPool PoolLedger List

/-- The node pool that the `init` functions make: they fail, go without a pool or have one.
`poolMem` and `mem` tell which `malloc`s get memory. -/
def nodePool (capacity : BitVec 64) (nodeSize : UInt32) (poolMem : Bool) (mem : Malloc) :
    Option (Option MemoryPool) :=
  if capacity.toNat > 0 then
    if dsCapIsValid capacity.toNat = false then none
    else if poolMem = false then none
    else (MemoryPool.init (UInt32.ofNat capacity.toNat) nodeSize mem).map some
  else some none

/-- Data buffers are taken to be `2 ^ 32` bytes apart. -/
def address (b : Block) : Nat := b.buf * 4294967296 + b.offset

def blockAt (a : Nat) : Block := ⟨a / 4294967296, a % 4294967296⟩

def inBuffer (p : MemoryPool) (b : Block) : Bool :=
  p.dataBufs[b.buf]?.any fun bytes => b.offset + p.blockSize ≤ bytes

/-- The pool of a container, if it has one, after `a` has been returned for a new node; `none` if
the node is not inside the memory of the pool. -/
def take (pool : Option MemoryPool) (a : Nat) : Option (Option MemoryPool) :=
  match pool with
  | none => some none
  | some p =>
    let p' := (p.alloc memoryOk).1
    if inBuffer p' (blockAt a) then some (some p') else none

def give (pool : Option MemoryPool) (a : Nat) : Option MemoryPool :=
  pool.map fun p => p.free (blockAt a)

/-- The pool of a container is one of its variables. -/
def takeNode {ι ν ρ : Type} (pool : ρ → Option MemoryPool) (set : Option MemoryPool → ρ → ρ)
    (a : Nat) : Prog (Store ι ν ρ) Unit :=
  transform fun s => (take (pool s.vars) a).map fun p => s.adjust (set p)

/-- An address that may be returned for a new node: one that is not in use from `malloc`, or the
next block of the pool, which does not outgrow 32 bits if it is full. -/
def Returns (pool : Option MemoryPool) (inUse : Nat → Bool) (a : Nat) : Bool :=
  match pool with
  | none => !inUse a
  | some p => (p.alloc memoryOk).2.map address = some a ∧
      (p.used = p.capacity → p.blockSize * p.capacity < 4294967296)

def ReturnsAll (pool : Option MemoryPool) (inUse : Nat → Bool) : List Nat → Bool
  | [] => true
  | a :: l => Returns pool inUse a &&
      (take pool a).all fun p => ReturnsAll p (fun b => b == a || inUse b) l

def takes (pool : Option MemoryPool) : List Nat → Bool
  | [] => true
  | a :: l => (take pool a).any fun p => takes p l

/-- The size of the first data buffer does not wrap. -/
def SizeFits (pool : Option MemoryPool) : Bool :=
  pool.all fun p => p.blockSize * p.capacity < 4294967296

structure Sited (L : Ledger) : Prop where
  inv : Inv L
  size : 1 < L.pool.blockSize
  bufs : L.pool.dataBufs.length = L.pool.numBuf
  inside : ∀ b ∈ L.owned, inBuffer L.pool b ∧ b.offset < 4294967296

def Backed (pool : Option MemoryPool) (used : Nat → Prop) : Prop :=
  ∀ p ∈ pool, ∃ L, L.pool = p ∧ Sited L ∧ ∀ a, used a ↔ ∃ b ∈ L.held, address b = a

section Programs

variable {ι ν ρ : Type} {pool : ρ → Option MemoryPool} {set : Option MemoryPool → ρ → ρ} {a : Nat}
  {s : Store ι ν ρ}

theorem ends_takeNode {p : Option MemoryPool} {post : Unit → Store ι ν ρ → Prop}
    (h : take (pool s.vars) a = some p) :
    Ends (takeNode pool set a) s post ↔ post () (s.adjust (set p)) := by
  refine ends_transform ?_
  rw [h]
  rfl

theorem takeNode_stuck (h : take (pool s.vars) a = none) :
    (takeNode pool set a).run s = none := by
  change ((take (pool s.vars) a).map _).map _ = none
  rw [h]
  rfl

theorem respects_takeNode {Q : ρ → ρ → Prop} (hpool : ∀ v w, Q v w → pool v = pool w)
    (hset : ∀ p v w, Q v w → Q (set p v) (set p w)) (a : Nat) :
    Respects (Sharing Q) (takeNode pool set a : Prog (Store ι ν ρ) Unit) := by
  refine respects_transform fun s t h => ?_
  rw [hpool _ _ h.vars]
  cases take (pool t.vars) a with
  | none => exact .none
  | some p => exact .some ⟨h.heap, hset p _ _ h.vars⟩

end Programs

variable {b c : Block} {L : Ledger} {p : MemoryPool}

theorem blockAt_address (h : b.offset < 4294967296) : blockAt (address b) = b := by
  obtain ⟨buf, offset⟩ := b
  change offset < 4294967296 at h
  simp only [blockAt, address, Block.mk.injEq]
  omega

theorem inBuffer_blocksOf {bufs : List Nat} {size n : Nat} (hsize : 0 < size)
    (hfit : size * n < 4294967296) (hp : p.blockSize = size)
    (hbufs : p.dataBufs = bufs ++ [u32 (size * n)]) (hb : b ∈ blocksOf bufs.length size n) :
    inBuffer p b ∧ b.offset < 4294967296 := by
  obtain ⟨i, hi, rfl⟩ := mem_map.mp hb
  rw [mem_range] at hi
  have hend : i * size + size ≤ size * n := by
    rw [← Nat.succ_mul, Nat.mul_comm]
    exact Nat.mul_le_mul_left size hi
  have hoff : u32 (i * size) = i * size := u32_of_lt (by omega)
  refine ⟨?_, by change u32 (i * size) < _; omega⟩
  simp only [inBuffer, hbufs, getElem?_append_right (Nat.le_refl _), Nat.sub_self, hp, hoff,
    u32_of_lt hfit]
  exact decide_eq_true hend

private theorem opened_sited {capacity size : UInt32} {mem : Malloc}
    (h : MemoryPool.init capacity size mem = some p) (hsize : 1 < size.toNat)
    (hfit : p.blockSize * p.capacity < 4294967296) : Sited (opened p) := by
  have hinv := opened_inv h hfit
  obtain ⟨cap, _, _, _, _, rfl⟩ := init_eq_some h
  exact ⟨hinv, hsize, rfl, fun b hb =>
    @inBuffer_blocksOf _ _ [] _ _ (Nat.lt_of_succ_lt hsize) hfit rfl rfl hb⟩

private theorem inBuffer_mono {q : MemoryPool} (hsize : q.blockSize = p.blockSize) {l : List Nat}
    (hbufs : q.dataBufs = p.dataBufs ++ l) (h : inBuffer p b) : inBuffer q b := by
  simp only [inBuffer] at h ⊢
  obtain ⟨bytes, hbytes, hle⟩ := (Option.any_eq_true _ _).mp h
  rw [hbufs, getElem?_append_left (List.getElem?_eq_some_iff.mp hbytes).1, hbytes, hsize]
  exact hle

theorem alloc_bufs (hL : Inv L) (hcap : L.pool.used = L.pool.capacity → L.pool.capacity < 2147483648)
    (hb : (L.pool.alloc memoryOk).2 = some b) :
    (L.pool.alloc memoryOk).1.blockSize = L.pool.blockSize ∧
      ∃ n l, (L.pool.alloc memoryOk).1.capacity - L.pool.capacity = n ∧
        (n = 0 ∧ l = [] ∧ (L.pool.alloc memoryOk).1.numBuf = L.pool.numBuf ∨
          L.pool.used = L.pool.capacity ∧ n = L.pool.capacity ∧ l = [u32 (L.pool.blockSize * n)] ∧
            (L.pool.alloc memoryOk).1.numBuf = L.pool.numBuf + 1) ∧
        (L.pool.alloc memoryOk).1.dataBufs = L.pool.dataBufs ++ l := by
  have hpos := hL.capacity_pos
  by_cases hfull : L.pool.used = L.pool.capacity
  · have hc := hcap hfull
    by_cases hg : Grows L.pool memoryOk
    · rw [alloc_of_grows hc hpos hg]
      have hn : L.pool.capacity * 2 - L.pool.capacity = L.pool.capacity := by omega
      have hle := hL.bufs_le
      refine ⟨rfl, _, _, hn, .inr ⟨hfull, rfl, rfl, u32_of_lt (by omega)⟩, ?_⟩
      change L.pool.dataBufs ++ [u32 (L.pool.blockSize * (L.pool.capacity * 2 - L.pool.capacity))] = _
      rw [hn]
    · rw [alloc_of_refused hc hpos hfull hg] at hb
      cases hb
  · rw [alloc_of_not_full hfull]
    exact ⟨rfl, 0, [], Nat.sub_self _, .inl ⟨rfl, rfl, rfl⟩, (append_nil _).symm⟩

theorem Sited.alloc (hL : Sited L) (hb : (L.pool.alloc memoryOk).2 = some b)
    (hfit : L.pool.used = L.pool.capacity → L.pool.blockSize * L.pool.capacity < 4294967296) :
    b ∉ L.held ∧ ∃ M, M.pool = (L.pool.alloc memoryOk).1 ∧ Sited M ∧ M.held = L.held ++ [b] := by
  have hcap : L.pool.used = L.pool.capacity → L.pool.capacity < 2147483648 := by
    intro hfull
    have hmul := Nat.mul_le_mul_right L.pool.capacity hL.size
    have := hfit hfull
    omega
  rcases stepAlloc_cases hL.inv memoryOk hcap (fun hg => hfit hg.1) with
    ⟨_, _, hnone, _⟩ | ⟨b', hb', hfresh, hinv⟩
  · rw [hnone] at hb
    cases hb
  · obtain rfl := Option.some.inj (hb'.symm.trans hb)
    obtain ⟨hsize, n, l, hn, hcases, hbufs⟩ := alloc_bufs hL.inv hcap hb
    have hstep : stepAlloc L memoryOk = ⟨(L.pool.alloc memoryOk).1, L.held ++ [b'],
        L.owned ++ blocksOf L.pool.numBuf L.pool.blockSize n, L.taken ++ [b'],
        L.supply ++ blocksOf L.pool.numBuf L.pool.blockSize n⟩ := by
      rw [stepAlloc, ← hn]
      revert hb
      rcases L.pool.alloc memoryOk with ⟨pool, out⟩
      rintro rfl
      rfl
    rw [hstep] at hinv
    refine ⟨hfresh, _, rfl, ⟨hinv, ?_, ?_, ?_⟩, rfl⟩
    · exact hsize ▸ hL.size
    · change (L.pool.alloc memoryOk).1.dataBufs.length = _
      rw [hbufs, length_append, hL.bufs]
      rcases hcases with ⟨_, rfl, hnum⟩ | ⟨_, _, rfl, hnum⟩
      · exact hnum.symm
      · exact hnum.symm
    · intro c hc
      rcases mem_append.mp hc with hc | hc
      · exact (hL.inside c hc).imp_left (inBuffer_mono hsize hbufs)
      · rcases hcases with ⟨rfl, _, _⟩ | ⟨hfull, rfl, rfl, _⟩
        · cases hc
        · exact inBuffer_blocksOf (Nat.lt_of_succ_lt hL.size) (hfit hfull) hsize hbufs
            (hL.bufs ▸ hc)

theorem Sited.free (hL : Sited L) (hb : b ∈ L.held) : ∃ M, M.pool = L.pool.free b ∧ Sited M ∧
    M.held = L.held.erase b :=
  ⟨_, rfl, ⟨stepFree_inv hL.inv hb, hL.size, hL.bufs, hL.inside⟩, rfl⟩

theorem Sited.held (hL : Sited L) (hb : b ∈ L.held) : inBuffer L.pool b ∧ b.offset < 4294967296 :=
  hL.inside b (hL.inv.perm.subset (mem_append_left _ hb))

theorem Sited.address_inj (hL : Sited L) (hb : b ∈ L.held) (hc : c ∈ L.held)
    (h : address b = address c) : b = c := by
  rw [← blockAt_address (hL.held hb).2, h, blockAt_address (hL.held hc).2]

variable {pool : Option MemoryPool} {used : Nat → Prop} {a : Nat}

theorem Backed.congr {used' : Nat → Prop} (h : Backed pool used) (hused : ∀ a, used' a ↔ used a) :
    Backed pool used' := by
  intro p hp
  obtain ⟨L, hL, hs, ha⟩ := h p hp
  exact ⟨L, hL, hs, fun a => (hused a).trans (ha a)⟩

variable {capacity : BitVec 64} {nodeSize : UInt32} {poolMem : Bool} {mem : Malloc}

theorem init_of_nodePool (h : nodePool capacity nodeSize poolMem mem = some (some p)) :
    MemoryPool.init (UInt32.ofNat capacity.toNat) nodeSize mem = some p := by
  unfold nodePool at h
  split at h
  · split at h
    · cases h
    · split at h
      · cases h
      · obtain ⟨q, hq, he⟩ := Option.map_eq_some_iff.mp h
        exact Option.some.inj he ▸ hq
  · cases h

theorem backed_init (h : nodePool capacity nodeSize poolMem mem = some pool) (hsize : 1 < nodeSize.toNat)
    (hfit : SizeFits pool) : Backed pool fun _ => False := by
  rintro p rfl
  refine ⟨opened p, rfl, opened_sited (init_of_nodePool h) hsize (of_decide_eq_true hfit), ?_⟩
  intro a
  exact iff_of_false id fun ⟨b, hb, _⟩ => not_mem_nil hb

theorem Backed.take {inUse : Nat → Bool} (h : Backed pool used) (ha : Returns pool inUse a)
    (hused : ∀ a, inUse a → used a) : inUse a = false ∧ ∃ pool', take pool a = some pool' ∧
      Backed pool' fun b => b = a ∨ used b := by
  cases pool with
  | none =>
    exact ⟨(Bool.not_eq_true' _).mp ha, none, rfl, fun p hp => by cases hp⟩
  | some p =>
    obtain ⟨L, rfl, hL, hmem⟩ := h p rfl
    obtain ⟨hout, hfit⟩ := of_decide_eq_true ha
    obtain ⟨b, hb, rfl⟩ := Option.map_eq_some_iff.mp hout
    obtain ⟨hfresh, M, hpool, hM, hheld⟩ := hL.alloc hb hfit
    have hin := hM.held (b := b) (by rw [hheld]; exact mem_append_right _ mem_cons_self)
    refine ⟨?_, some M.pool, ?_, ?_⟩
    · rw [← Bool.not_eq_true]
      intro huse
      obtain ⟨c, hc, he⟩ := (hmem _).mp (hused _ huse)
      have hcb : c = b := by
        rw [← blockAt_address (hL.held hc).2, he, blockAt_address hin.2]
      exact hfresh (hcb ▸ hc)
    · rw [NodePool.take, ← hpool, blockAt_address hin.2]
      exact if_pos hin.1
    · rintro _ ⟨⟩
      refine ⟨M, rfl, hM, ?_⟩
      intro d
      change d = address b ∨ used d ↔ _
      rw [hheld, hmem]
      simp only [mem_append, mem_singleton]
      constructor
      · rintro (rfl | ⟨c, hc, rfl⟩)
        · exact ⟨b, .inr rfl, rfl⟩
        · exact ⟨c, .inl hc, rfl⟩
      · rintro ⟨c, hc | rfl, rfl⟩
        · exact .inr ⟨c, hc, rfl⟩
        · exact .inl rfl

theorem Backed.takes {inUse : Nat → Bool} {l : List Nat} (h : Backed pool used)
    (hl : ReturnsAll pool inUse l) (hused : ∀ a, inUse a → used a) :
    l.Nodup ∧ (∀ a ∈ l, inUse a = false) ∧ takes pool l := by
  induction l generalizing pool used inUse with
  | nil => exact ⟨nodup_nil, fun a ha => absurd ha not_mem_nil, rfl⟩
  | cons a l ih =>
    obtain ⟨ha, hl⟩ := (Bool.and_eq_true _ _).mp hl
    obtain ⟨hfree, pool', htake, hbacked⟩ := h.take ha hused
    rw [htake] at hl
    obtain ⟨hnodup, hrest, htakes⟩ := ih hbacked hl fun b hb => by
      rw [Bool.or_eq_true, beq_iff_eq] at hb
      exact hb.imp_right (hused b)
    have hrest' : ∀ b ∈ l, b ≠ a ∧ inUse b = false := by
      intro b hb
      have hb' := hrest b hb
      rw [Bool.or_eq_false_iff, beq_eq_false_iff_ne] at hb'
      exact hb'
    refine ⟨nodup_cons.mpr ⟨fun hmem => (hrest' a hmem).1 rfl, hnodup⟩, ?_, ?_⟩
    · intro b hb
      rcases mem_cons.mp hb with rfl | hb
      · exact hfree
      · exact (hrest' b hb).2
    · rw [NodePool.takes, htake]
      exact htakes

theorem Backed.give (h : Backed pool used) (ha : used a) :
    Backed (give pool a) fun b => b ≠ a ∧ used b := by
  intro q hq
  obtain ⟨p, rfl, rfl⟩ := Option.map_eq_some_iff.mp hq
  obtain ⟨L, rfl, hL, hmem⟩ := h p rfl
  obtain ⟨b, hb, rfl⟩ := (hmem a).mp ha
  rw [blockAt_address (hL.held hb).2]
  obtain ⟨M, hpool, hM, hheld⟩ := hL.free hb
  have hnodup : L.held.Nodup :=
    (nodup_append.mp (hL.inv.perm.nodup_iff.mpr hL.inv.nodup)).1
  refine ⟨M, hpool, hM, ?_⟩
  intro d
  change d ≠ address b ∧ used d ↔ _
  rw [hheld, hmem]
  constructor
  · rintro ⟨hne, c, hc, rfl⟩
    exact ⟨c, (mem_erase_of_ne fun he => hne (congrArg address he)).mpr hc, rfl⟩
  · rintro ⟨c, hc, rfl⟩
    obtain ⟨hcb, hc⟩ := hnodup.mem_erase_iff.mp hc
    exact ⟨fun he => hcb (hL.address_inj hc hb he), c, hc, rfl⟩

theorem returns_next {size n i : Nat} (inUse : Nat → Bool) (hring : p.ptrBuf = blocksOf 0 size n)
    (hi : p.allocIndex = i) (hin : i < n) (hroom : p.used ≠ p.capacity) :
    Returns (some p) inUse (u32 (i * size)) := by
  have hout : (p.alloc memoryOk).2 = some ⟨0, u32 (i * size)⟩ := by
    rw [alloc_of_not_full hroom, takeBlock, hi, hring, blocksOf, getElem?_map, getElem?_range hin]
    rfl
  refine decide_eq_true ⟨?_, fun h => absurd h hroom⟩
  rw [hout, Option.map_some, address, Nat.zero_mul, Nat.zero_add]

variable (h : nodePool capacity nodeSize poolMem mem = some (some p))

include h

theorem returns_first (inUse : Nat → Bool) : Returns (some p) inUse 0 := by
  obtain ⟨cap, _, hpos, _, _, hp⟩ := init_eq_some (init_of_nodePool h)
  have hring : p.ptrBuf = blocksOf 0 nodeSize.toNat cap := hp ▸ rfl
  have hnext := returns_next (i := 0) inUse hring (hp ▸ rfl) hpos (hp ▸ Nat.ne_of_lt hpos)
  rwa [Nat.zero_mul] at hnext

theorem returns_second (inUse : Nat → Bool) (hroom : 1 < p.capacity) :
    Returns (some (p.alloc memoryOk).1) inUse nodeSize.toNat := by
  obtain ⟨cap, _, hpos, _, _, hp⟩ := init_eq_some (init_of_nodePool h)
  have hlt : 1 < cap := by rwa [hp] at hroom
  rw [alloc_of_not_full (hp ▸ Nat.ne_of_lt hpos)]
  have hring : p.takeBlock.1.ptrBuf = blocksOf 0 nodeSize.toNat cap := hp ▸ rfl
  have hindex : p.takeBlock.1.allocIndex = 1 := hp ▸ if_neg (Nat.ne_of_lt hlt)
  have hnext := returns_next inUse hring hindex hlt (hp ▸ Nat.ne_of_lt hlt)
  rwa [Nat.one_mul, u32, Nat.mod_eq_of_lt nodeSize.toNat_lt] at hnext

theorem returns_outside
    (hsmall : u32 (p.blockSize * p.capacity) < p.blockSize) (inUse : Nat → Bool) :
    Returns (some p) inUse 0 ∧ take (some p) 0 = none := by
  obtain ⟨cap, _, hpos, _, _, hp⟩ := init_eq_some (init_of_nodePool h)
  have hroom : p.used ≠ p.capacity := hp ▸ Nat.ne_of_lt hpos
  refine ⟨returns_first h inUse, if_neg ?_⟩
  have hbufs : p.takeBlock.1.dataBufs = [u32 (p.blockSize * p.capacity)] := hp ▸ rfl
  rw [alloc_of_not_full hroom, inBuffer, hbufs]
  change ¬ decide (0 + p.blockSize ≤ u32 (p.blockSize * p.capacity)) = true
  rw [decide_eq_true_eq]
  omega

end MuggleC.Dsaa.NodePool
