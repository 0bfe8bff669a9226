/- source: dsaa/array_list.c, dsaa/heap.c, dsaa/dsaa_utils.h, dsaa/linked_list.c, dsaa/hash_table.c
   digest: Which runs of an array list or a heap stay below the capacity of `2 ^ 31`. -/

import MuggleC.Dsaa.ArrayList
import MuggleC.Dsaa.Heap
import MuggleC.Dsaa.NodePool
import MuggleC.Memory.PoolSizes

set_option autoImplicit false

/-! `MUGGLE_DS_CAP_IS_VALID` refuses only capacities from `2 ^ 64 - 2 ^ 31` on, so that a structure
stays below `2 ^ 31` just as long as its callers ask for no more. -/

namespace MuggleC.Dsaa.Capacities

open Base Foundation.Transition Memory Option
open NodePool (nodePool)

def SmallRequest (capacity : Nat) (mem : Bool) : Prop :=
  capacity < 2 ^ 31 ∨ dsCapIsValid capacity = false ∨ mem = false

instance (capacity : Nat) (mem : Bool) : Decidable (SmallRequest capacity mem) :=
  inferInstanceAs (Decidable (_ ∨ _ ∨ _))

theorem le_grownCapacity (old capacity : Nat) (mem : Bool) :
    old ≤ grownCapacity old capacity mem := by
  rcases grownCapacity_cases old capacity mem with h | ⟨hlt, _, h⟩ <;> omega

theorem grownCapacity_lt_iff {old : Nat} (h : old < 2 ^ 31) (capacity : Nat) (mem : Bool) :
    grownCapacity old capacity mem < 2 ^ 31 ↔ SmallRequest capacity mem := by
  unfold grownCapacity SmallRequest
  split
  · next hgrow =>
    constructor
    · exact .inl
    · rintro (hlt | hinvalid | hmem)
      · exact hlt
      · rw [hgrow.2.1] at hinvalid
        exact Bool.noConfusion hinvalid
      · rw [hgrow.2.2] at hmem
        exact Bool.noConfusion hmem
  · next hsame =>
    refine ⟨fun _ => ?_, fun _ => h⟩
    by_contra hlarge
    rw [not_or, not_or, Bool.not_eq_false, Bool.not_eq_false] at hlarge
    exact hsame ⟨by omega, hlarge.2⟩

def roomCapacity (size capacity : Nat) (mem : Bool) : Nat :=
  if size = capacity then grownCapacity capacity (capacity * 2 % 2 ^ 64) mem else capacity

def SmallRoom (size capacity : Nat) (mem : Bool) : Prop :=
  size = capacity → SmallRequest (capacity * 2) mem

instance (size capacity : Nat) (mem : Bool) : Decidable (SmallRoom size capacity mem) :=
  inferInstanceAs (Decidable (_ → SmallRequest (capacity * 2) mem))

theorem le_roomCapacity (size capacity : Nat) (mem : Bool) :
    capacity ≤ roomCapacity size capacity mem := by
  unfold roomCapacity
  split
  · exact le_grownCapacity _ _ _
  · exact Nat.le_refl _

theorem roomCapacity_lt_iff {capacity : Nat} (h : capacity < 2 ^ 31) (size : Nat) (mem : Bool) :
    roomCapacity size capacity mem < 2 ^ 31 ↔ SmallRoom size capacity mem := by
  have hmod : capacity * 2 % 2 ^ 64 = capacity * 2 := Nat.mod_eq_of_lt (by omega)
  unfold roomCapacity SmallRoom
  split
  · next hfull =>
    rw [hmod, grownCapacity_lt_iff h]
    exact ⟨fun hs _ => hs, fun hs => hs hfull⟩
  · next hfull => exact ⟨fun _ hf => absurd hf hfull, fun _ => h⟩

theorem initCapacity_lt_iff (capacity : BitVec 64) :
    (if capacity.toNat = 0 then 8 else capacity.toNat) < 2 ^ 31 ↔ capacity.toNat < 2 ^ 31 := by
  split <;> omega

section Lists

variable {α : Type}

open ArrayListRuns

/-- A call that leaves the capacity below `2 ^ 31`. -/
def ListSmall (l : ArrayList α) : Call α → Prop
  | .insert _ _ mem => SmallRoom l.size l.capacity mem
  | .append _ _ mem => SmallRoom l.size l.capacity mem
  | .ensureCapacity capacity mem => SmallRequest capacity.toNat mem
  | .remove _ _ => True
  | .index _ => True
  | .find _ _ _ => True
  | .clear _ => True

instance (l : ArrayList α) (c : Call α) : Decidable (ListSmall l c) :=
  c.casesOn (fun _ _ mem => inferInstanceAs (Decidable (SmallRoom l.size l.capacity mem)))
    (fun _ _ mem => inferInstanceAs (Decidable (SmallRoom l.size l.capacity mem)))
    (fun _ _ => instDecidableTrue) (fun _ => instDecidableTrue) (fun _ _ _ => instDecidableTrue)
    (fun capacity mem => inferInstanceAs (Decidable (SmallRequest capacity.toNat mem)))
    (fun _ => instDecidableTrue)

variable {l l' : ArrayList α} {mem : Bool} {index : BitVec 32} {data : Option α} {r : Option Nat}
  {c : Call α} {capacity : BitVec 64}

theorem ensureCapacity_cases {capacity : Nat} {ok : Bool}
    (he : l.ensureCapacity capacity mem = some (ok, l')) :
    l'.size = l.size ∧ l'.capacity = grownCapacity l.capacity capacity mem ∧
      (ok = true → capacity ≤ l'.capacity) := by
  rw [ArrayList.ensureCapacity] at he
  rw [grownCapacity]
  split at he
  · cases he
    rw [if_neg (by omega)]
    exact ⟨rfl, rfl, fun _ => by omega⟩
  · split at he
    · next hno =>
      cases he
      refine ⟨rfl, ?_, fun h => Bool.noConfusion h⟩
      rw [if_neg]
      rintro ⟨_, hvalid, hmem⟩
      simp [hvalid, hmem] at hno
    · next hle hgrow =>
      obtain ⟨nodes, _, hn⟩ := bind_eq_some_iff.mp he
      cases hn
      rw [not_or, Bool.not_eq_false, Bool.not_eq_false] at hgrow
      rw [if_pos ⟨by omega, hgrow⟩]
      exact ⟨rfl, rfl, fun _ => Nat.le_refl _⟩

private theorem makeRoom_cases {ok : Bool} (hm : l.makeRoom mem = some (ok, l')) :
    l'.size = l.size ∧ l'.capacity = roomCapacity l.size l.capacity mem ∧
      (ok = true → l.size = l.capacity → l.capacity * 2 % 2 ^ 64 ≤ l'.capacity) := by
  rw [ArrayList.makeRoom] at hm
  rw [roomCapacity]
  split at hm
  · next hfull =>
    obtain ⟨hsize, hcap, hok⟩ := ensureCapacity_cases hm
    exact ⟨hsize, by rw [if_pos hfull, hcap], fun h _ => hok h⟩
  · next hfull =>
    cases hm
    exact ⟨rfl, by rw [if_neg hfull], fun _ h => absurd h hfull⟩

structure Inserts (l l' : ArrayList α) (mem : Bool) : Prop where
  capacity_eq : l'.capacity = roomCapacity l.size l.capacity mem
  size_cases : l'.size = l.size ∨ l'.size = l.size + 1 ∧
    (l.size = l.capacity → l.capacity * 2 % 2 ^ 64 ≤ l'.capacity)

theorem inserts_of_makeRoom {g l' : ArrayList α} {ok : Bool}
    (hroom : l.makeRoom mem = some (ok, g)) (hcap : l'.capacity = g.capacity)
    (hsize : l'.size = g.size ∨ ok = true ∧ l'.size = g.size + 1) : Inserts l l' mem := by
  obtain ⟨hg, hgrown, hok⟩ := makeRoom_cases hroom
  refine ⟨hcap.trans hgrown, ?_⟩
  rcases hsize with hsame | ⟨htrue, hmore⟩
  · exact .inl (hsame.trans hg)
  · refine .inr ⟨by rw [hmore, hg], ?_⟩
    rw [hcap]
    exact hok htrue

theorem inserts_of_call (hi : l.insert index data mem = some (r, l') ∨
    l.append index data mem = some (r, l')) : Inserts l l' mem := by
  -- The two functions differ only in where the data goes.
  rcases hi with hi | hi
  all_goals
    obtain ⟨⟨ok, g⟩, hroom, hrest⟩ := bind_eq_some_iff.mp hi
    dsimp only at hrest
    split at hrest
    · cases hrest
      exact inserts_of_makeRoom hroom rfl (.inl rfl)
    · next htrue =>
      split at hrest
      · cases hrest
        exact inserts_of_makeRoom hroom rfl (.inl rfl)
      · obtain ⟨nodes, _, hrest⟩ := bind_eq_some_iff.mp hrest
        obtain ⟨nodes', _, hrest⟩ := bind_eq_some_iff.mp hrest
        cases hrest
        exact inserts_of_makeRoom hroom rfl (.inr ⟨by simpa using htrue, rfl⟩)

inductive Resizes (l l' : ArrayList α) : Call α → Prop
  | inserted {index : BitVec 32} {data : Option α} {mem : Bool} (h : Inserts l l' mem) :
      Resizes l l' (.insert index data mem)
  | appended {index : BitVec 32} {data : Option α} {mem : Bool} (h : Inserts l l' mem) :
      Resizes l l' (.append index data mem)
  | ensured {capacity : BitVec 64} {mem : Bool} (hsize : l'.size = l.size)
      (hcap : l'.capacity = grownCapacity l.capacity capacity.toNat mem) :
      Resizes l l' (.ensureCapacity capacity mem)
  | other {c : Call α} (hc : ListSmall l c) (hsize : l'.size ≤ l.size)
      (hcap : l'.capacity = l.capacity) : Resizes l l' c

theorem step_resizes (hs : step l c = some l') : Resizes l l' c := by
  obtain ⟨⟨r, l₁⟩, hcall, heq⟩ := map_eq_some_iff.mp hs
  cases heq
  cases c with
  | insert index data mem =>
    obtain ⟨⟨r, l₁⟩, hi, heq⟩ := map_eq_some_iff.mp hcall
    cases heq
    exact .inserted (inserts_of_call (.inl hi))
  | append index data mem =>
    obtain ⟨⟨r, l₁⟩, hi, heq⟩ := map_eq_some_iff.mp hcall
    cases heq
    exact .appended (inserts_of_call (.inr hi))
  | remove index funcFree =>
    obtain ⟨⟨ok, freed, l₁⟩, hi, heq⟩ := map_eq_some_iff.mp hcall
    cases heq
    rw [ArrayList.remove] at hi
    split at hi
    · cases hi
      exact .other trivial (Nat.le_refl _) rfl
    · obtain ⟨freed, _, hi⟩ := bind_eq_some_iff.mp hi
      obtain ⟨nodes, _, hi⟩ := bind_eq_some_iff.mp hi
      cases hi
      exact .other trivial (Nat.sub_le _ _) rfl
  | index index =>
    cases hcall
    exact .other trivial (Nat.le_refl _) rfl
  | find index data cmp =>
    obtain ⟨i, _, heq⟩ := map_eq_some_iff.mp hcall
    cases heq
    exact .other trivial (Nat.le_refl _) rfl
  | ensureCapacity capacity mem =>
    obtain ⟨⟨ok, l₁⟩, hi, heq⟩ := map_eq_some_iff.mp hcall
    cases heq
    obtain ⟨hsize, hcap, _⟩ := ensureCapacity_cases hi
    exact .ensured hsize hcap
  | clear funcFree =>
    obtain ⟨⟨freed, l₁⟩, hi, heq⟩ := map_eq_some_iff.mp hcall
    cases heq
    obtain ⟨freed, _, hi⟩ := map_eq_some_iff.mp hi
    cases hi
    exact .other trivial (Nat.zero_le _) rfl

theorem list_capacity_mono (hs : step l c = some l') : l.capacity ≤ l'.capacity := by
  cases step_resizes hs with
  | inserted h | appended h => exact h.capacity_eq ▸ le_roomCapacity _ _ _
  | ensured _ hcap => exact hcap ▸ le_grownCapacity _ _ _
  | other _ _ hcap => exact Nat.le_of_eq hcap.symm

theorem list_capacity_lt_iff (hs : step l c = some l')
    (h : l.capacity < 2 ^ 31) : l'.capacity < 2 ^ 31 ↔ ListSmall l c := by
  cases step_resizes hs with
  | inserted hins | appended hins =>
    rw [hins.capacity_eq]
    exact roomCapacity_lt_iff h _ _
  | ensured _ hcap =>
    rw [hcap]
    exact grownCapacity_lt_iff h _ _
  | other hc _ hcap =>
    rw [hcap]
    exact ⟨fun _ => hc, fun _ => h⟩

structure Room (l : ArrayList α) : Prop where
  size_le : l.size ≤ l.capacity
  pos : 0 < l.capacity
  small : l.capacity < 2 ^ 31

theorem Room.inserts (h : Room l) (hins : Inserts l l' mem) : l'.size ≤ l'.capacity := by
  have hle := le_roomCapacity l.size l.capacity mem
  rw [← hins.capacity_eq] at hle
  obtain ⟨hsize, hpos, hsmall⟩ := h
  rcases hins.size_cases with hsame | ⟨hmore, hfull⟩
  · omega
  · by_cases he : l.size = l.capacity
    · omega
    · omega

theorem Room.step (h : Room l) (hs : guarded step ListSmall l c = some l') : Room l' := by
  obtain ⟨hsmall, hs⟩ := guarded_eq_some.mp hs
  have hmono := list_capacity_mono hs
  refine ⟨?_, Nat.lt_of_lt_of_le h.pos hmono, (list_capacity_lt_iff hs h.small).mpr hsmall⟩
  have hle := h.size_le
  cases step_resizes hs with
  | inserted hins | appended hins => exact h.inserts hins
  | ensured hsize hcap => omega
  | other _ hsize hcap => omega

/-- No number of elements and no index loses anything when it is made an `int`. -/
structure IntExact (l : ArrayList α) : Prop where
  number : ∀ i, i ≤ l.size → (BitVec.ofNat 32 i).toInt = i
  index : ∀ index : BitVec 32, (l.getIndex index).toInt =
    match position l.size index.toInt with
    | none => -1
    | some p => (p : Int)

private theorem intExact_of_lt (h : l.size < 2 ^ 31) : IntExact l := by
  refine ⟨fun i hi => toInt_ofNat (by omega), fun index => ?_⟩
  cases hp : position l.size index.toInt with
  | none =>
    rw [getIndex_of_none h hp]
    rfl
  | some p =>
    have hlt := position_lt hp
    rw [getIndex_of_some h hp]
    exact toInt_ofNat (by omega)

private theorem listInit_fields (hi : ArrayList.init α capacity mem = some l) :
    l.size = 0 ∧ l.capacity = if capacity.toNat = 0 then 8 else capacity.toNat := by
  unfold ArrayList.init at hi
  generalize (if capacity.toNat = 0 then 8 else capacity.toNat) = c at hi
  dsimp only at hi
  split at hi
  · cases hi
  · cases hi
    exact ⟨rfl, rfl⟩

private theorem list_run {start : ArrayList α} {cs : List (Call α)}
    (hi : ArrayList.init α capacity mem = some start) (hr : run step start cs = some l) :
    (l.capacity < 2 ^ 31 ↔
        capacity.toNat < 2 ^ 31 ∧ run (guarded step ListSmall) start cs = some l) ∧
      (l.capacity < 2 ^ 31 → l.size ≤ l.capacity ∧ IntExact l) := by
  obtain ⟨hsize, hcap⟩ := listInit_fields hi
  have hinit := initCapacity_lt_iff capacity
  have hiff := run_lt_iff list_capacity_mono list_capacity_lt_iff hr
  rw [← hcap] at hinit
  refine ⟨by rw [hiff, hinit], fun h => ?_⟩
  obtain ⟨hstart, hguarded⟩ := hiff.mp h
  have hpos : 0 < start.capacity := by
    rw [hcap]
    split <;> omega
  have hroom : Room l := run_invariant (fun _ _ _ => Room.step) ⟨by omega, hpos, hstart⟩ hguarded
  exact ⟨hroom.size_le, intExact_of_lt (Nat.lt_of_le_of_lt hroom.size_le h)⟩

end Lists

section Heaps

variable {κ ω : Type} {cmp : Option κ → Option κ → Int}

/-- A call that leaves the capacity below `2 ^ 31`. -/
def HeapSmall (h : Heap κ ω) : Heap.Call κ ω → Prop
  | .insert _ _ mem => SmallRoom h.size h.capacity mem
  | .extract => True
  | .ensureCapacity capacity mem => SmallRequest capacity.toNat mem

instance (h : Heap κ ω) (c : Heap.Call κ ω) : Decidable (HeapSmall h c) :=
  c.casesOn (fun _ _ mem => inferInstanceAs (Decidable (SmallRoom h.size h.capacity mem)))
    instDecidableTrue
    (fun capacity mem => inferInstanceAs (Decidable (SmallRequest capacity.toNat mem)))

variable {h h' : Heap κ ω} {c : Heap.Call κ ω} {capacity : BitVec 64} {mem : Bool}

private theorem extract_capacity {r : Option (Heap.Node κ ω)}
    (he : h.extract cmp = some (r, h')) : h'.capacity = h.capacity := by
  rw [Heap.extract] at he
  split at he
  · cases he
    rfl
  · obtain ⟨node, _, he⟩ := bind_eq_some_iff.mp he
    obtain ⟨⟨i, nodes⟩, _, he⟩ := bind_eq_some_iff.mp he
    obtain ⟨lastNode, _, he⟩ := bind_eq_some_iff.mp he
    obtain ⟨nodes', _, he⟩ := bind_eq_some_iff.mp he
    cases he
    rfl

def nextCapacity (h : Heap κ ω) : Heap.Call κ ω → Nat
  | .insert _ _ mem => roomCapacity h.size h.capacity mem
  | .extract => h.capacity
  | .ensureCapacity capacity mem => grownCapacity h.capacity capacity.toNat mem

theorem step_capacity (hs : h.step cmp c = some h') : h'.capacity = nextCapacity h c := by
  obtain ⟨⟨r, h₁⟩, hcall, heq⟩ := map_eq_some_iff.mp hs
  cases heq
  cases c with
  | insert key value mem =>
    obtain ⟨⟨ok, h₁⟩, hi, heq⟩ := map_eq_some_iff.mp hcall
    cases heq
    rw [nextCapacity, roomCapacity, HeapRuns.insert_capacity hi]
    simp only [eq_comm]
  | extract =>
    obtain ⟨⟨node, h₁⟩, hi, heq⟩ := map_eq_some_iff.mp hcall
    cases heq
    exact extract_capacity hi
  | ensureCapacity capacity mem =>
    obtain ⟨⟨ok, h₁⟩, hi, heq⟩ := map_eq_some_iff.mp hcall
    cases heq
    exact HeapRuns.ensureCapacity_capacity hi

private theorem heap_capacity_mono (hs : h.step cmp c = some h') : h.capacity ≤ h'.capacity := by
  rw [step_capacity hs]
  cases c with
  | insert key value mem => exact le_roomCapacity _ _ _
  | extract => exact Nat.le_refl _
  | ensureCapacity capacity mem => exact le_grownCapacity _ _ _

private theorem heap_capacity_lt_iff (hs : h.step cmp c = some h')
    (hlt : h.capacity < 2 ^ 31) : h'.capacity < 2 ^ 31 ↔ HeapSmall h c := by
  rw [step_capacity hs]
  cases c with
  | insert key value mem => exact roomCapacity_lt_iff hlt _ _
  | extract => exact ⟨fun _ => trivial, fun _ => hlt⟩
  | ensureCapacity capacity mem => exact grownCapacity_lt_iff hlt _ _

private theorem heapInit_capacity (hi : Heap.init (some cmp) capacity mem = some h) :
    h.capacity = if capacity.toNat = 0 then 8 else capacity.toNat := by
  unfold Heap.init at hi
  generalize (if capacity.toNat = 0 then 8 else capacity.toNat) = c at hi
  dsimp only at hi
  split at hi
  · cases hi
  · cases hi
    rfl

private theorem heap_run {start : Heap κ ω} {cs : List (Heap.Call κ ω)}
    (hi : Heap.init (some cmp) capacity mem = some start)
    (hr : run (Heap.step cmp) start cs = some h) : h.capacity < 2 ^ 31 ↔
      capacity.toNat < 2 ^ 31 ∧ run (guarded (Heap.step cmp) HeapSmall) start cs = some h := by
  rw [run_lt_iff heap_capacity_mono heap_capacity_lt_iff hr, heapInit_capacity hi,
    initCapacity_lt_iff]

end Heaps

private theorem nodePool_capacity_iff {capacity : BitVec 64} {nodeSize : UInt32} {poolMem : Bool}
    {mem : Malloc} {pool : MemoryPool}
    (hp : nodePool capacity nodeSize poolMem mem = some (some pool)) :
    pool.capacity = capacity.toNat ↔ capacity.toNat < 2 ^ 32 := by
  unfold nodePool at hp
  split at hp
  · next hpos =>
    split at hp
    · cases hp
    · split at hp
      · cases hp
      · obtain ⟨pool', hinit, heq⟩ := map_eq_some_iff.mp hp
        cases heq
        constructor
        · intro h
          rw [← h]
          exact (PoolSizes.sized_init hinit).capacity_lt
        · intro h
          obtain ⟨_, _, hcap, _, _⟩ := PoolSizes.init_fields hinit
          have hnat : (UInt32.ofNat capacity.toNat).toNat = capacity.toNat := by
            exact Nat.mod_eq_of_lt h
          rw [hcap, PoolSizes.initBlocks, if_neg, hnat]
          intro hz
          rw [hz] at hnat
          exact absurd hnat.symm (Nat.ne_of_gt hpos)
  · cases hp

/-- Every run of an array list or a heap ends below the capacity `2 ^ 31` exactly when its `init` and
every call ask for less, are refused or get no memory; then sizes and indices are `int`s. A capacity
keeps its value as the `unsigned int` of a node pool exactly when it is below `2 ^ 32`. -/
theorem capacity_small_iff (capacity : BitVec 64) (mem : Bool) :
    (∀ (α : Type) (start : ArrayList α), ArrayList.init α capacity mem = some start →
      ∀ (cs : List (ArrayListRuns.Call α)) (l : ArrayList α),
        run ArrayListRuns.step start cs = some l →
        (l.capacity < 2 ^ 31 ↔ capacity.toNat < 2 ^ 31 ∧
          run (guarded ArrayListRuns.step ListSmall) start cs = some l) ∧
        (l.capacity < 2 ^ 31 → l.size ≤ l.capacity ∧ IntExact l)) ∧
    (∀ (κ ω : Type) (cmp : Option κ → Option κ → Int) (start : Heap κ ω),
      Heap.init (some cmp) capacity mem = some start →
      ∀ (cs : List (Heap.Call κ ω)) (h : Heap κ ω), run (Heap.step cmp) start cs = some h →
        (h.capacity < 2 ^ 31 ↔ capacity.toNat < 2 ^ 31 ∧
          run (guarded (Heap.step cmp) HeapSmall) start cs = some h)) ∧
    (∀ (nodeSize : UInt32) (poolBlocks : Malloc) (pool : MemoryPool),
      nodePool capacity nodeSize mem poolBlocks = some (some pool) →
        (pool.capacity = capacity.toNat ↔ capacity.toNat < 2 ^ 32)) :=
  ⟨fun _ _ hi _ _ hr => list_run hi hr, fun _ _ _ _ hi _ _ hr => heap_run hi hr,
    fun _ _ _ hp => nodePool_capacity_iff hp⟩

theorem capacity_small_iff_some_calls :
    (∃ l, run ArrayListRuns.step ⟨[none], 1, 0⟩ ArrayListRuns.someCalls = some l ∧
        l.capacity < 2 ^ 31 ∧ IntExact l) ∧
      (∃ h, run (Heap.step HeapRuns.byNumber) ⟨1, 0, [none, none]⟩ HeapRuns.someCalls = some h ∧
        h.capacity < 2 ^ 31) ∧
      (∃ pool, nodePool 16#64 24 true ⟨true, true, true⟩ = some (some pool) ∧
        pool.capacity = 16) := by
  refine ⟨?_, ?_, ?_⟩
  · have hrun : (run (guarded ArrayListRuns.step ListSmall) ⟨[none], 1, 0⟩
        ArrayListRuns.someCalls).isSome := by decide +kernel
    obtain ⟨l, hl⟩ := Option.isSome_iff_exists.mp hrun
    have hall := (capacity_small_iff 1#64 true).1 Nat ⟨[none], 1, 0⟩ (by decide +kernel)
      ArrayListRuns.someCalls l (run_of_guarded hl)
    have hlt := hall.1.mpr ⟨by decide, hl⟩
    exact ⟨l, run_of_guarded hl, hlt, (hall.2 hlt).2⟩
  · have hrun : (run (guarded (Heap.step HeapRuns.byNumber) HeapSmall) ⟨1, 0, [none, none]⟩
        HeapRuns.someCalls).isSome := by decide +kernel
    obtain ⟨h, hh⟩ := Option.isSome_iff_exists.mp hrun
    exact ⟨h, run_of_guarded hh, ((capacity_small_iff 1#64 true).2.1 Nat Nat HeapRuns.byNumber
      ⟨1, 0, [none, none]⟩ (by decide +kernel) HeapRuns.someCalls h (run_of_guarded hh)).mpr
        ⟨by decide, hh⟩⟩
  · exact ⟨_, rfl, ((capacity_small_iff 16#64 true).2.2 24 ⟨true, true, true⟩ _ rfl).mpr (by decide)⟩

/-- An array list and a heap accept the capacity `2 ^ 31`, and a node pool for `2 ^ 32 + 1` nodes has
room for one. -/
theorem large_capacities_accepted :
    (∃ l, ArrayList.init Nat (BitVec.ofNat 64 (2 ^ 31)) true = some l ∧ l.capacity = 2 ^ 31) ∧
      (∃ h : Heap Nat Nat, Heap.init (some HeapRuns.byNumber) (BitVec.ofNat 64 (2 ^ 31)) true =
        some h ∧ h.capacity = 2 ^ 31) ∧
      (∃ pool, nodePool (BitVec.ofNat 64 (2 ^ 32 + 1)) 24 true ⟨true, true, true⟩ =
        some (some pool) ∧ pool.capacity = 1) :=
  ⟨⟨_, rfl, rfl⟩, ⟨_, rfl, rfl⟩, ⟨_, rfl, rfl⟩⟩

end MuggleC.Dsaa.Capacities
