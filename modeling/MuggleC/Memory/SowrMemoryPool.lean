/- source: memory/sowr_memory_pool.c
   digest: The pool with one allocating thread, whose frees release every older block. -/

import MuggleC.Foundation.Ring
import MuggleC.Foundation.Transition
import MuggleC.Memory.BlockArea

set_option autoImplicit false

/-! A free stores the number of its block plus one in `free_idx`, and the allocating thread keeps a
position computed from an older value of it. The fields of the state after `owner` record what has
happened and are read by no step. -/

namespace MuggleC.Memory

open Base Foundation.Counter Foundation.Ring Foundation.Transition BlockArea List BitVec

structure SowrMemoryPool where
  capacity : BitVec 32
  blockSize : BitVec 32
  allocIdx : BitVec 32
  freeIdx : BitVec 32
  cachedFreePos : BitVec 32
  deriving DecidableEq, Repr

namespace SowrMemoryPool

def headSize : Nat := 16

/-- `muggle_sowr_memory_pool_init`, where `malloc` tells whether memory was got, which the source
does not test; `none` if a store of its loop falls outside that memory. -/
def init (capacity dataSize : BitVec 32) (malloc : Bool) : Option (Except Err SowrMemoryPool) :=
  let capacity := if capacity.toInt ≤ 0 then 8#32 else capacity
  let capacity := roundCapacity capacity
  if capacity.toInt ≤ 0 then some (.error .invalidParam)
  else
    let blockSize := (nextPowOf2 (dataSize.signExtend 64 + BitVec.ofNat 64 headSize)).setWidth 32
    if malloc = true ∧ headsFit headSize blockSize capacity = true then
      some (.ok {
        capacity := capacity
        blockSize := blockSize
        allocIdx := 0#32
        freeIdx := 0#32
        cachedFreePos := capacity - 1#32 })
    else none

def blocks (pool : SowrMemoryPool) : List (BitVec 32) := blocksOf pool.blockSize pool.capacity

def blockIdx (pool : SowrMemoryPool) (block : BitVec 32) : BitVec 32 :=
  BitVec.ofNat 32 (pool.blocks.idxOf block)

def pos (pool : SowrMemoryPool) (idx : BitVec 32) : BitVec 32 := idxInPowOf2Ring idx pool.capacity

def blockOf (pool : SowrMemoryPool) (allocPos : BitVec 32) : BitVec 32 :=
  pool.blockSize * allocPos

/-- `is_all_free` reads the plain field `alloc_idx`, so it is called by the allocating thread. -/
inductive OwnerPc
  | idle
  | begin
  | load (allocPos : BitVec 32)
  | loadFree
  | compare (freeIdx : BitVec 32) (outstanding : Nat)
  deriving DecidableEq, Repr

/-- `taken` are the blocks returned by `alloc`, in order, of which the first `released` were freed or
superseded; `refused` and `answers` note how many blocks were outstanding when `alloc` returned
`NULL` and when `is_all_free` loaded `free_idx`. -/
structure State where
  pool : SowrMemoryPool
  owner : OwnerPc
  taken : List (BitVec 32)
  released : Nat
  refused : List Nat
  answers : List (Bool × Nat)
  deriving DecidableEq, Repr

/-- A free names its block by the number of its allocation. -/
inductive Event
  | alloc
  | isAllFree
  | owner
  | free (number : Nat)
  deriving DecidableEq, Repr

namespace State

def start (pool : SowrMemoryPool) : State := ⟨pool, .idle, [], 0, [], []⟩

def outstanding (s : State) : List (BitVec 32) := s.taken.drop s.released

def handOut (s : State) (allocPos : BitVec 32) : State :=
  { s with
    pool := { s.pool with allocIdx := s.pool.allocIdx + 1#32 }
    owner := .idle
    taken := s.taken ++ [s.pool.blockOf allocPos] }

def refresh (s : State) : State :=
  { s with pool := { s.pool with cachedFreePos := s.pool.pos (s.pool.freeIdx - 1#32) } }

def refuse (s : State) : State :=
  { s with
    owner := .idle
    refused := s.refused ++ [s.outstanding.length] }

def answer (s : State) (result : Bool) (outstanding : Nat) : State :=
  { s with
    owner := .idle
    answers := s.answers ++ [(result, outstanding)] }

def stepOwner (s : State) : Option State :=
  match s.owner with
  | .idle => none
  | .begin =>
    if s.pool.pos s.pool.allocIdx ≠ s.pool.cachedFreePos then
      some (s.handOut (s.pool.pos s.pool.allocIdx))
    else some { s with owner := .load (s.pool.pos s.pool.allocIdx) }
  | .load allocPos =>
    if allocPos ≠ s.refresh.pool.cachedFreePos then some (s.refresh.handOut allocPos)
    else some s.refresh.refuse
  | .loadFree => some { s with owner := .compare s.pool.freeIdx s.outstanding.length }
  | .compare freeIdx outstanding =>
    some (s.answer (s.pool.pos freeIdx == s.pool.pos s.pool.allocIdx) outstanding)

/-- `muggle_sowr_memory_pool_free` of the block of an allocation: one store. -/
def release (s : State) (number : Nat) (block : BitVec 32) : State :=
  { s with
    pool := { s.pool with freeIdx := s.pool.blockIdx block + 1#32 }
    released := number + 1 }

/-- Frees are issued in the order of allocation, and not of a block that is freed or superseded. -/
def step (s : State) : Event → Option State
  | .alloc => if s.owner = .idle then some { s with owner := .begin } else none
  | .isAllFree => if s.owner = .idle then some { s with owner := .loadFree } else none
  | .owner => s.stepOwner
  | .free number =>
    if s.released ≤ number then (s.taken[number]?).map (s.release number) else none

end State

open State

inductive Move (s : State) : State → Prop
  | enter {pc : OwnerPc} (hpc : s.owner = .idle) (hnew : pc = .begin ∨ pc = .loadFree) :
      Move s { s with owner := pc }
  | cached (hpc : s.owner = .begin) (hne : s.pool.pos s.pool.allocIdx ≠ s.pool.cachedFreePos) :
      Move s (s.handOut (s.pool.pos s.pool.allocIdx))
  | stale (hpc : s.owner = .begin) : Move s { s with owner := .load (s.pool.pos s.pool.allocIdx) }
  | fresh {allocPos : BitVec 32} (hpc : s.owner = .load allocPos)
      (hne : allocPos ≠ s.refresh.pool.cachedFreePos) : Move s (s.refresh.handOut allocPos)
  | refuse {allocPos : BitVec 32} (hpc : s.owner = .load allocPos)
      (he : allocPos = s.refresh.pool.cachedFreePos) : Move s s.refresh.refuse
  | loadFree (hpc : s.owner = .loadFree) :
      Move s { s with owner := .compare s.pool.freeIdx s.outstanding.length }
  | compare {freeIdx : BitVec 32} {n : Nat} (hpc : s.owner = .compare freeIdx n) :
      Move s (s.answer (s.pool.pos freeIdx == s.pool.pos s.pool.allocIdx) n)
  | free {number : Nat} {block : BitVec 32} (hle : s.released ≤ number)
      (hblock : s.taken[number]? = some block) : Move s (s.release number block)

variable {s : State} {dataSize allocPos : BitVec 32} {malloc : Bool} {pool : SowrMemoryPool}
    {k : Nat}

private theorem move_of_step {s' : State} {a : Event} (h : s.step a = some s') : Move s s' := by
  cases a with
  | alloc =>
    simp only [step] at h
    split at h
    · next hpc =>
      cases h
      exact .enter hpc (.inl rfl)
    · cases h
  | isAllFree =>
    simp only [step] at h
    split at h
    · next hpc =>
      cases h
      exact .enter hpc (.inr rfl)
    · cases h
  | owner =>
    simp only [step, stepOwner] at h
    split at h
    · cases h
    · next hpc =>
      split at h
      · next hne =>
        cases h
        exact .cached hpc hne
      · cases h
        exact .stale hpc
    · next allocPos hpc =>
      split at h
      · next hne =>
        cases h
        exact .fresh hpc hne
      · next he =>
        cases h
        exact .refuse hpc (not_not.mp he)
    · next hpc =>
      cases h
      exact .loadFree hpc
    · next freeIdx n hpc =>
      cases h
      exact .compare hpc
  | free number =>
    simp only [step] at h
    split at h
    · next hle =>
      obtain ⟨block, hblock, rfl⟩ := Option.map_eq_some_iff.mp h
      exact .free hle hblock
    · cases h

/-- What the users of the pool may rely on. -/
structure PoolSound (s : State) : Prop where
  distinct : s.pool.blocks.Nodup
  returned_once : s.outstanding.Nodup
  from_pool : ∀ b ∈ s.outstanding, b ∈ s.pool.blocks
  outstanding_le : s.outstanding.length ≤ s.pool.capacity.toNat - 1
  refused_full : ∀ n ∈ s.refused, n = s.pool.capacity.toNat - 1
  answers_exact : ∀ p ∈ s.answers, p.1 = true ↔ p.2 = 0

def OwnerOk (k : Nat) (s : State) : OwnerPc → Prop
  | .load allocPos => allocPos.toNat = s.taken.length % 2 ^ k
  | .compare freeIdx n =>
    ∃ m, n = s.taken.length - m ∧ m ≤ s.released ∧ s.taken.length < m + 2 ^ k ∧
      freeIdx.toNat % 2 ^ k = m % 2 ^ k
  | _ => True

/-- `cached` stands for the value of `released` from which `cached_free_pos` was computed. -/
structure Inv (k : Nat) (s : State) : Prop where
  below : k ≤ 30
  capacity_eq : s.pool.capacity.toNat = 2 ^ k
  distinct : s.pool.blocks.Nodup
  alloc_eq : s.pool.allocIdx = BitVec.ofNat 32 s.taken.length
  released_le : s.released ≤ s.taken.length
  free_eq : s.pool.freeIdx.toNat % 2 ^ k = s.released % 2 ^ k
  cached : ∃ m, m ≤ s.released ∧ s.taken.length + 1 ≤ m + 2 ^ k ∧
    s.pool.cachedFreePos.toNat = (m + (2 ^ k - 1)) % 2 ^ k
  taken_eq : ∀ n, n < s.taken.length → s.taken[n]? = s.pool.blocks[n % 2 ^ k]?
  owner : OwnerOk k s s.owner
  refused : ∀ n ∈ s.refused, n = 2 ^ k - 1
  answers : ∀ p ∈ s.answers, p.1 = true ↔ p.2 = 0

private theorem blockSize_pow
    (hne : (nextPowOf2 (dataSize.signExtend 64 + BitVec.ofNat 64 headSize)).setWidth 32 ≠ 0#32) :
    ∃ b, ((nextPowOf2 (dataSize.signExtend 64 + BitVec.ofNat 64 headSize)).setWidth 32).toNat =
      2 ^ b := by
  obtain ⟨x, hx⟩ : ∃ x, x = dataSize.signExtend 64 + BitVec.ofNat 64 headSize := ⟨_, rfl⟩
  have hcases : x.toNat < 2 ^ 32 ∨ 2 ^ 64 - 2 ^ 31 ≤ x.toNat := by
    have hext : (dataSize.signExtend 64).toInt = dataSize.toInt :=
      toInt_signExtend_of_le (by decide)
    have hlow := le_toInt dataSize
    have hhigh := toInt_lt (x := dataSize)
    rw [toInt_eq_toNat_cond] at hext
    rw [hx, toNat_add, toNat_ofNat, headSize]
    split at hext <;> omega
  rw [← hx] at hne ⊢
  rcases hcases with hsmall | hlarge
  · have hzero : x ≠ 0#64 := by
      rintro rfl
      exact hne (by decide)
    exact setWidth_nextPowOf2_spec hzero hsmall hne
  · rw [nextPowOf2_of_high hlarge] at hne
    exact absurd rfl hne

theorem init_spec {capacity : BitVec 32} (h : init capacity dataSize malloc = some (.ok pool)) :
    ∃ k, k ≤ 30 ∧ pool.capacity.toNat = 2 ^ k ∧ pool.blocks.Nodup ∧ pool.allocIdx = 0#32 ∧
      pool.freeIdx = 0#32 ∧ pool.cachedFreePos = pool.capacity - 1#32 := by
  unfold init at h
  obtain ⟨c, hc⟩ : ∃ c, c = if capacity.toInt ≤ 0 then 8#32 else capacity := ⟨_, rfl⟩
  have hpos : 0 < c.toInt := by
    rw [hc]
    split
    · decide
    · omega
  dsimp only at h
  rw [← hc] at h
  split at h
  · cases h
  next hround =>
  split at h
  · next hfits =>
    obtain rfl := Except.ok.inj (Option.some.inj h)
    obtain ⟨k, hk, _, _⟩ := roundCapacity_spec hpos
    have hk31 : 2 ^ k < 2 ^ 31 := hk ▸ (toNat_of_toInt_pos (by omega)).2.2
    have hk30 : k < 31 := (Nat.pow_lt_pow_iff_right (by omega)).mp hk31
    have hprod := product_ne_zero (by decide) hk hfits.2
    have hsize : (nextPowOf2 (dataSize.signExtend 64 + BitVec.ofNat 64 headSize)).setWidth 32 ≠
        0#32 := by
      intro hz
      rw [hz] at hprod
      exact hprod mul_zero
    obtain ⟨b, hb⟩ := blockSize_pow hsize
    exact ⟨k, by omega, hk, nodup_blocksOf hb hk hprod, rfl, rfl, rfl⟩
  · cases h

private theorem start_inv {capacity : BitVec 32}
    (h : init capacity dataSize malloc = some (.ok pool)) : ∃ k, Inv k (start pool) := by
  obtain ⟨k, hk, hcap, hnodup, ha, hf, hc⟩ := init_spec h
  have hpow := Nat.two_pow_pos k
  refine ⟨k, hk, hcap, hnodup, ha, Nat.le_refl _, ?_, ⟨0, Nat.le_refl _, ?_, ?_⟩, ?_, trivial, ?_, ?_⟩
  · rw [start, hf]
    rfl
  · change 0 + 1 ≤ 0 + 2 ^ k
    omega
  · rw [start, hc, toNat_sub, hcap, toNat_ofNat, Nat.zero_add,
      Nat.mod_eq_of_lt (by omega : 2 ^ k - 1 < 2 ^ k)]
    omega
  · intro n hn
    exact absurd hn (Nat.not_lt_zero n)
  · intro n hn
    exact absurd hn not_mem_nil
  · intro p hp
    exact absurd hp not_mem_nil

namespace Inv

variable {k : Nat} {s : State}

theorem allocPos_eq (h : Inv k s) :
    (s.pool.pos s.pool.allocIdx).toNat = s.taken.length % 2 ^ k := by
  rw [pos, h.alloc_eq, toNat_idxInPowOf2Ring h.capacity_eq]

theorem length_outstanding (s : State) : s.outstanding.length = s.taken.length - s.released := by
  rw [outstanding, length_drop]

theorem outstanding_lt (h : Inv k s) : s.taken.length < s.released + 2 ^ k := by
  obtain ⟨m, hm, hlt, _⟩ := h.cached
  omega

private theorem outstanding_eq (h : Inv k s) :
    s.outstanding = window s.pool.blocks s.released (s.taken.length - s.released) := by
  have hlen : s.pool.blocks.length = 2 ^ k := by rw [blocks, length_blocksOf, h.capacity_eq]
  have hlt := h.outstanding_lt
  apply ext_getElem?
  intro n
  rw [outstanding, getElem?_drop]
  by_cases hn : n < s.taken.length - s.released
  · rw [getElem?_window (by omega) hn, h.taken_eq _ (by omega), hlen]
  · rw [List.getElem?_eq_none (by omega),
      List.getElem?_eq_none (by rw [length_window (by omega)]; omega)]

private theorem sound (h : Inv k s) : PoolSound s := by
  have hlt := h.outstanding_lt
  have hrotate := nodup_rotate (n := s.released).mpr h.distinct
  refine ⟨h.distinct, ?_, ?_, ?_, ?_, h.answers⟩
  · rw [h.outstanding_eq, window]
    exact hrotate.sublist (take_sublist _ _)
  · intro b hb
    rw [h.outstanding_eq, window] at hb
    exact mem_rotate.mp (mem_of_mem_take hb)
  · rw [length_outstanding, h.capacity_eq]
    omega
  · rw [h.capacity_eq]
    exact h.refused

theorem freePos_eq (h : Inv k s) :
    (s.pool.pos (s.pool.freeIdx - 1#32)).toNat = (s.released + (2 ^ k - 1)) % 2 ^ k := by
  have hk := h.below
  have hpow := Nat.two_pow_pos k
  have hdvd : 2 ^ k ∣ 2 ^ 32 := Nat.pow_dvd_pow 2 (by omega)
  obtain ⟨c, hc⟩ := hdvd
  have hc0 : 0 < c := by
    rcases Nat.eq_zero_or_pos c with rfl | hp
    · omega
    · exact hp
  have hturn : 2 ^ 32 - 1 + s.pool.freeIdx.toNat =
      2 ^ k * (c - 1) + (2 ^ k - 1 + s.pool.freeIdx.toNat) := by
    rw [Nat.mul_sub_one, ← hc]
    have : 2 ^ k ≤ 2 ^ k * c := Nat.le_mul_of_pos_right _ hc0
    omega
  rw [pos, toNat_idxInPowOf2Ring_self h.capacity_eq, toNat_sub,
    Nat.mod_mod_of_dvd _ ⟨c, hc⟩, toNat_ofNat]
  rw [hturn, Nat.mul_add_mod, Nat.add_mod, h.free_eq, ← Nat.add_mod, Nat.add_comm]

end Inv

private theorem handOut_inv (h : Inv k s) (hpos : allocPos.toNat = s.taken.length % 2 ^ k)
    (hne : allocPos ≠ s.pool.cachedFreePos) : Inv k (s.handOut allocPos) := by
  obtain ⟨m, hm, hlt, hcached⟩ := h.cached
  have hlen : (s.taken ++ [s.pool.blockOf allocPos]).length = s.taken.length + 1 :=
    length_append
  have hroom : s.taken.length + 1 < m + 2 ^ k := by
    rcases Nat.lt_or_ge (s.taken.length + 1) (m + 2 ^ k) with hr | hr
    · exact hr
    · have heq : s.taken.length = m + (2 ^ k - 1) := by omega
      rw [heq, ← hcached] at hpos
      exact absurd (eq_of_toNat_eq hpos) hne
  refine { h with
    alloc_eq := ?_
    released_le := hlen ▸ Nat.le_succ_of_le h.released_le
    cached := ⟨m, hm, hlen ▸ hroom, hcached⟩
    taken_eq := ?_
    owner := trivial }
  · change s.pool.allocIdx + 1#32 = BitVec.ofNat 32 (s.taken ++ [s.pool.blockOf allocPos]).length
    rw [hlen, h.alloc_eq, ofNat_succ]
  · intro n hn
    change n < (s.taken ++ [s.pool.blockOf allocPos]).length at hn
    change (s.taken ++ [s.pool.blockOf allocPos])[n]? = s.pool.blocks[n % 2 ^ k]?
    rcases Nat.lt_or_ge n s.taken.length with hold | hnew
    · rw [getElem?_append_left hold]
      exact h.taken_eq n hold
    · have hn' : n = s.taken.length := by omega
      have hmod : s.taken.length % 2 ^ k < s.pool.capacity.toNat := by
        rw [h.capacity_eq]
        exact Nat.mod_lt _ (Nat.two_pow_pos k)
      rw [hn', getElem?_concat_length, blocks, getElem?_blocksOf hmod, ← hpos, blockAt,
        ofNat_toNat, setWidth_eq]
      rfl

theorem refresh_inv (h : Inv k s) : Inv k s.refresh :=
  { h with
    cached := ⟨s.released, Nat.le_refl _, h.outstanding_lt, h.freePos_eq⟩
    owner := by
      have hok := h.owner
      cases hpc : s.owner <;> rw [hpc] at hok <;> change OwnerOk k s.refresh s.owner <;> rw [hpc]
      all_goals exact hok }

private theorem refuse_inv (h : Inv k s) (hpos : allocPos.toNat = s.taken.length % 2 ^ k)
    (he : allocPos = s.refresh.pool.cachedFreePos) : Inv k s.refresh.refuse := by
  have hfull : s.outstanding.length = 2 ^ k - 1 := by
    have hlt := h.outstanding_lt
    have hle := h.released_le
    have hmod : s.taken.length % 2 ^ k = (s.released + (2 ^ k - 1)) % 2 ^ k := by
      rw [← hpos, he]
      exact h.freePos_eq
    have := eq_of_mod_eq (m := s.taken.length) (n := s.released + (2 ^ k - 1)) (by omega) (by omega)
      hmod.symm
    rw [Inv.length_outstanding]
    omega
  refine { refresh_inv h with owner := trivial, refused := ?_ }
  intro n hn
  rcases mem_append.mp hn with hn | hn
  · exact h.refused n hn
  · rw [mem_singleton.mp hn]
    exact hfull

private theorem answer_inv (h : Inv k s) {freeIdx : BitVec 32} {n : Nat}
    (hpc : s.owner = .compare freeIdx n) :
    Inv k (s.answer (s.pool.pos freeIdx == s.pool.pos s.pool.allocIdx) n) := by
  have hok := h.owner
  rw [hpc] at hok
  obtain ⟨m, hn, hm, hlt, hmod⟩ := hok
  have hle := h.released_le
  have hexact : (s.pool.pos freeIdx == s.pool.pos s.pool.allocIdx) = true ↔ n = 0 := by
    rw [beq_iff_eq, ← toNat_inj, h.allocPos_eq, pos, toNat_idxInPowOf2Ring_self h.capacity_eq, hmod]
    constructor
    · intro he
      have := eq_of_mod_eq (by omega) hlt he.symm
      omega
    · intro he
      rw [show s.taken.length = m by omega]
  refine { h with owner := trivial, answers := ?_ }
  intro p hp
  rcases mem_append.mp hp with hp | hp
  · exact h.answers p hp
  · rw [mem_singleton.mp hp]
    exact hexact

theorem release_inv (h : Inv k s) {number : Nat} {block : BitVec 32} (hle : s.released ≤ number)
    (hblock : s.taken[number]? = some block) : Inv k (s.release number block) := by
  have hlt := (List.getElem?_eq_some_iff.mp hblock).1
  have hpow := Nat.two_pow_pos k
  have hk32 : 2 ^ k ≤ 2 ^ 30 := Nat.pow_le_pow_right (by omega) h.below
  have hidx : s.pool.blocks.idxOf block = number % 2 ^ k := by
    rw [h.taken_eq number hlt] at hblock
    obtain ⟨hb, he⟩ := List.getElem?_eq_some_iff.mp hblock
    rw [← he]
    exact h.distinct.idxOf_getElem _ hb
  obtain ⟨m, hm, hroom, hcached⟩ := h.cached
  refine { h with
    released_le := hlt
    free_eq := ?_
    cached := ⟨m, by change m ≤ number + 1; omega, hroom, hcached⟩
    owner := ?_ }
  · change (s.pool.blockIdx block + 1#32).toNat % 2 ^ k = (number + 1) % 2 ^ k
    have hsmall : number % 2 ^ k + 1 < 2 ^ 32 := by omega
    rw [blockIdx, hidx, ofNat_succ, toNat_ofNat, Nat.mod_eq_of_lt hsmall, Nat.mod_add_mod]
  · have hok := h.owner
    change OwnerOk k (s.release number block) s.owner
    cases hpc : s.owner with
    | compare freeIdx n =>
      rw [hpc] at hok
      obtain ⟨m, hn, hm, hrest⟩ := hok
      exact ⟨m, hn, by change m ≤ number + 1; omega, hrest⟩
    | load allocPos =>
      rw [hpc] at hok
      exact hok
    | _ => trivial

private theorem move_inv {s' : State} (h : Inv k s) (hm : Move s s') : Inv k s' := by
  have hok := h.owner
  cases hm with
  | enter hpc hnew =>
    refine { h with owner := ?_ }
    rcases hnew with rfl | rfl
    · trivial
    · trivial
  | cached hpc hne => exact handOut_inv h h.allocPos_eq hne
  | stale hpc => exact { h with owner := h.allocPos_eq }
  | fresh hpc hne =>
    rw [hpc] at hok
    exact handOut_inv (refresh_inv h) hok hne
  | refuse hpc he =>
    rw [hpc] at hok
    exact refuse_inv h hok he
  | loadFree hpc =>
    refine { h with owner := ⟨s.released, Inv.length_outstanding s, Nat.le_refl _, ?_, h.free_eq⟩ }
    exact h.outstanding_lt
  | compare hpc => exact answer_inv h hpc
  | free hle hblock => exact release_inv h hle hblock

/-- In every run of the allocating thread and of frees in the order of allocation, no block is
returned while it is outstanding, at most `capacity - 1` are, `alloc` is refused only then, and
`is_all_free` is exact. -/
theorem sowr_pool_sound (capacity dataSize : BitVec 32) (malloc : Bool) (pool : SowrMemoryPool)
    (hi : init capacity dataSize malloc = some (.ok pool)) (events : List Event) (s : State)
    (hr : run step (start pool) events = some s) : PoolSound s := by
  obtain ⟨k, hstart⟩ := start_inv hi
  have hinv : Inv k s := run_invariant (fun _ _ _ ht hs => move_inv ht (move_of_step hs)) hstart hr
  exact hinv.sound

def twoBlocks : SowrMemoryPool := ⟨2#32, 32#32, 0#32, 0#32, 1#32⟩

theorem sowr_pool_sound_two_blocks :
    PoolSound ⟨⟨2#32, 32#32, 2#32, 1#32, 0#32⟩, .idle, [0#32, 32#32], 1, [1],
      [(false, 1), (true, 0)]⟩ :=
  sowr_pool_sound 2#32 16#32 true twoBlocks (by decide +kernel)
    [.alloc, .owner, .isAllFree, .owner, .owner, .alloc, .owner, .owner, .free 0, .isAllFree,
      .owner, .owner, .alloc, .owner, .owner] _ (by decide +kernel)

end SowrMemoryPool

end MuggleC.Memory
