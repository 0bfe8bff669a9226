/- source: dsaa/sort.c, dsaa/heap.c
   digest: Four sorts on an array of pointers with size_t indices, and heap sort. -/

import MuggleC.Dsaa.Heap
import MuggleC.Foundation.Ring

set_option autoImplicit false

/-! A function halts early when it uses an index outside the array, or makes more turns than it is
given. Indices are of type `size_t` and wrap. -/

namespace MuggleC.Dsaa.Sorts

def pointerSize : Nat := 8

/-- An array of pointers, which lies in memory as a whole. -/
structure PtrArray (α : Type) where
  cells : List α
  addressable : pointerSize * cells.length < 2 ^ 64

inductive Halt
  | outside (index : Nat)
  | turns
  deriving DecidableEq, Repr

def add (a b : Nat) : Nat := (a + b) % 2 ^ 64

def sub (a b : Nat) : Nat := (a + 2 ^ 64 - b) % 2 ^ 64

variable {α : Type}

def load (ptr : List α) (i : Nat) : Except Halt α :=
  match ptr[i]? with
  | some x => .ok x
  | none => .error (.outside i)

def store (ptr : List α) (i : Nat) (x : α) : Except Halt (List α) :=
  if i < ptr.length then .ok (ptr.set i x) else .error (.outside i)

/-- The inner loop of `muggle_insertion_sort`: where `tmp` belongs, after larger cells have moved
up. -/
def shift (cmp : α → α → Int) (base : Nat) (tmp : α) :
    Nat → List α → Except Halt (Nat × List α)
  | 0, ptr => .ok (0, ptr)
  | j + 1, ptr => do
    let x ← load ptr (base + j)
    if cmp x tmp > 0 then
      let ptr ← store ptr (base + (j + 1)) x
      shift cmp base tmp j ptr
    else .ok (j + 1, ptr)

/-- The outer loop of `muggle_insertion_sort` for the next cells from `i` on. -/
def insertCells (cmp : α → α → Int) (base : Nat) :
    Nat → Nat → List α → Except Halt (List α)
  | 0, _, ptr => .ok ptr
  | n + 1, i, ptr => do
    let tmp ← load ptr (base + i)
    let (j, ptr) ← shift cmp base tmp i ptr
    let ptr ← store ptr (base + j) tmp
    insertCells cmp base n (i + 1) ptr

/-- `muggle_insertion_sort` of the `count` cells from `base` on. -/
def insertionSort (cmp : α → α → Int) (base count : Nat) (ptr : List α) : Except Halt (List α) :=
  insertCells cmp base (count - 1) 1 ptr

/-- The inner loop of `muggle_shell_sort`: where `tmp` belongs, after larger cells have moved up by
`increment`. -/
def shellShift (cmp : α → α → Int) (increment : Nat) (tmp : α) :
    Nat → Nat → List α → Except Halt (Nat × List α)
  | 0, _, _ => .error .turns
  | turns + 1, j, ptr =>
    if increment ≤ j then do
      let x ← load ptr (sub j increment)
      if cmp tmp x < 0 then
        let ptr ← store ptr j x
        shellShift cmp increment tmp turns (sub j increment) ptr
      else .ok (j, ptr)
    else .ok (j, ptr)

/-- One pass of `muggle_shell_sort` for the next cells from `i` on. -/
def shellCells (cmp : α → α → Int) (increment : Nat) : Nat → Nat → List α → Except Halt (List α)
  | 0, _, ptr => .ok ptr
  | n + 1, i, ptr => do
    let tmp ← load ptr i
    let (j, ptr) ← shellShift cmp increment tmp (ptr.length + 1) i ptr
    let ptr ← store ptr j tmp
    shellCells cmp increment n (i + 1) ptr

/-- The passes of `muggle_shell_sort`, with half the increment each time. -/
def shellPasses (cmp : α → α → Int) : Nat → Nat → List α → Except Halt (List α)
  | 0, _, _ => .error .turns
  | turns + 1, increment, ptr =>
    if 0 < increment then do
      let ptr ← shellCells cmp increment (ptr.length - increment) increment ptr
      shellPasses cmp turns (increment / 2) ptr
    else .ok ptr

def shellSort (cmp : α → α → Int) (turns : Nat) (ptr : PtrArray α) : Except Halt (List α) :=
  shellPasses cmp turns (ptr.cells.length / 2) ptr.cells

/-- A block of memory of `bytes` bytes, which may hold anything. -/
structure Block (α : Type) (bytes : Nat) where
  cells : List α
  size : cells.length = bytes / pointerSize

/-- `while (l <= center && r <= right)` of `muggle_merge_sort_recursive`. -/
def mergeCells (cmp : α → α → Int) (ptr : List α) (center right : Nat) :
    Nat → Nat → Nat → Nat → List α → Except Halt (Nat × Nat × Nat × List α)
  | 0, _, _, _, _ => .error .turns
  | turns + 1, l, r, idx, arr =>
    if l ≤ center ∧ r ≤ right then do
      let x ← load ptr l
      let y ← load ptr r
      if cmp x y ≤ 0 then
        let arr ← store arr idx x
        mergeCells cmp ptr center right turns (add l 1) r (add idx 1) arr
      else
        let arr ← store arr idx y
        mergeCells cmp ptr center right turns l (add r 1) (add idx 1) arr
    else .ok (l, r, idx, arr)

def copyRest (ptr : List α) (last : Nat) : Nat → Nat → Nat → List α → Except Halt (Nat × List α)
  | 0, _, _, _ => .error .turns
  | turns + 1, i, idx, arr =>
    if i ≤ last then do
      let x ← load ptr i
      let arr ← store arr idx x
      copyRest ptr last turns (add i 1) (add idx 1) arr
    else .ok (idx, arr)

def copyBack (arr : List α) (right : Nat) : Nat → Nat → List α → Except Halt (List α)
  | 0, _, _ => .error .turns
  | turns + 1, idx, ptr =>
    if idx ≤ right then do
      let x ← load arr idx
      let ptr ← store ptr idx x
      copyBack arr right turns (add idx 1) ptr
    else .ok ptr

/-- The loops of `muggle_merge_sort_recursive` that fill the scratch array. -/
def mergeRuns (cmp : α → α → Int) (ptr : List α) (center right turns l r idx : Nat)
    (arr : List α) : Except Halt (List α) := do
  let (l, r, idx, arr) ← mergeCells cmp ptr center right turns l r idx arr
  let (idx, arr) ← copyRest ptr center turns l idx arr
  let (_, arr) ← copyRest ptr right turns r idx arr
  .ok arr

/-- `muggle_merge_sort_recursive`, at most `depth` calls deep. -/
def mergeSortRecursive (cmp : α → α → Int) :
    Nat → List α → List α → Nat → Nat → Except Halt (List α × List α)
  | 0, _, _, _, _ => .error .turns
  | depth + 1, ptr, arr, left, right =>
    if left < right then do
      let center := add left right / 2
      let (ptr, arr) ← mergeSortRecursive cmp depth ptr arr left center
      let (ptr, arr) ← mergeSortRecursive cmp depth ptr arr (add center 1) right
      let turns := ptr.length + 1
      let arr ← mergeRuns cmp ptr center right turns left (add center 1) left arr
      let ptr ← copyBack arr right turns left ptr
      .ok (ptr, arr)
    else .ok (ptr, arr)

/-- `muggle_merge_sort`, where `arr` is what `malloc` returns. -/
def mergeSort (cmp : α → α → Int) (depth : Nat) (ptr : PtrArray α)
    (arr : Option (Block α (pointerSize * ptr.cells.length % 2 ^ 64))) :
    Except Halt (Bool × List α) :=
  match arr with
  | none => .ok (false, ptr.cells)
  | some arr => do
    let (ptr, _) ← mergeSortRecursive cmp depth ptr.cells arr.cells 0 (sub ptr.cells.length 1)
    .ok (true, ptr)

def exchange (ptr : List α) (i j : Nat) : Except Halt (List α) := do
  let tmp ← load ptr i
  let x ← load ptr j
  let ptr ← store ptr i x
  store ptr j tmp

def putInOrder (cmp : α → α → Int) (ptr : List α) (i j : Nat) : Except Halt (List α) := do
  let x ← load ptr i
  let y ← load ptr j
  if cmp x y > 0 then exchange ptr i j else .ok ptr

def median3 (cmp : α → α → Int) (ptr : List α) (left right : Nat) : Except Halt (α × List α) := do
  let center := add left right / 2
  let ptr ← putInOrder cmp ptr left center
  let ptr ← putInOrder cmp ptr left right
  let ptr ← putInOrder cmp ptr center right
  let ptr ← exchange ptr center (sub right 1)
  let pivot ← load ptr (sub right 1)
  .ok (pivot, ptr)

/-- `while (cmp(ptr[++i], pivot) < 0) {}`, with the indices that it reads. -/
def scanUp (cmp : α → α → Int) (ptr : List α) (pivot : α) :
    Nat → Nat → Except Halt (Nat × List Nat)
  | 0, _ => .error .turns
  | turns + 1, i => do
    let i := add i 1
    let x ← load ptr i
    if cmp x pivot < 0 then
      let (stop, reads) ← scanUp cmp ptr pivot turns i
      .ok (stop, i :: reads)
    else .ok (i, [i])

/-- `while (cmp(ptr[--j], pivot) > 0) {}`, with the indices that it reads. -/
def scanDown (cmp : α → α → Int) (ptr : List α) (pivot : α) :
    Nat → Nat → Except Halt (Nat × List Nat)
  | 0, _ => .error .turns
  | turns + 1, j => do
    let j := sub j 1
    let x ← load ptr j
    if cmp x pivot > 0 then
      let (stop, reads) ← scanDown cmp ptr pivot turns j
      .ok (stop, j :: reads)
    else .ok (j, [j])

/-- The loop of `muggle_quick_sort_recursive`: where the pivot belongs, with the array and the
indices that the scans read. -/
def partitionLoop (cmp : α → α → Int) (pivot : α) :
    Nat → Nat → Nat → List α → Except Halt (Nat × List α × List Nat)
  | 0, _, _, _ => .error .turns
  | turns + 1, i, j, ptr => do
    let (i, up) ← scanUp cmp ptr pivot (ptr.length + 1) i
    let (j, down) ← scanDown cmp ptr pivot (ptr.length + 1) j
    if i < j then
      let ptr ← exchange ptr i j
      let (i, ptr, reads) ← partitionLoop cmp pivot turns i j ptr
      .ok (i, ptr, up ++ down ++ reads)
    else .ok (i, ptr, up ++ down)

/-- One read of a scan, in the call for `left` and `right`. -/
structure ScanRead where
  left : Nat
  right : Nat
  index : Nat
  deriving DecidableEq, Repr

def quickSortCutoff : Nat := 10

/-- `muggle_quick_sort_recursive`, at most `depth` calls deep. -/
def quickSortRecursive (cmp : α → α → Int) :
    Nat → List α → Nat → Nat → Except Halt (List α × List ScanRead)
  | 0, _, _, _ => .error .turns
  | depth + 1, ptr, left, right =>
    if add left quickSortCutoff ≤ right then do
      let (pivot, ptr) ← median3 cmp ptr left right
      let (i, ptr, reads) ← partitionLoop cmp pivot (ptr.length + 1) left (sub right 1) ptr
      let ptr ← exchange ptr i (sub right 1)
      let (ptr, scans) ← quickSortRecursive cmp depth ptr left (sub i 1)
      let (ptr, scans') ← quickSortRecursive cmp depth ptr (add i 1) right
      .ok (ptr, reads.map (ScanRead.mk left right) ++ scans ++ scans')
    else do
      let ptr ← insertionSort cmp left (sub (add right 1) left) ptr
      .ok (ptr, [])

/-- `muggle_quick_sort`, with what its scans read. -/
def quickSort (cmp : α → α → Int) (depth : Nat) (ptr : PtrArray α) :
    Except Halt (List α × List ScanRead) :=
  quickSortRecursive cmp depth ptr.cells 0 (sub ptr.cells.length 1)

end MuggleC.Dsaa.Sorts

/-! Heap sort ignores what the heap calls return, so the run keeps their replies. It gets stuck when
the array or the heap is used outside its bounds, and when it reads a node that was not written. -/

namespace MuggleC.Dsaa.HeapSort

open Base Dsaa.HeapRuns Dsaa.Sorts Foundation.BinaryHeap Foundation.OrderedMap Foundation.Slice List
open Option hiding map_map

variable {κ : Type}

def heapBytes (capacity : Nat) : Nat := Heap.nodeSize * (capacity + 1) % 2 ^ 64

/-- `muggle_heap_insert` of the next cells from `i` on, with the replies. The function `malloc` tells
whether a request in a call gets memory. -/
def insertAll (cmp : Option κ → Option κ → Int) (malloc : Nat → Nat → Bool) (ptr : List (Option κ)) :
    Nat → Nat → Heap κ Empty → Option (List Bool × Heap κ Empty)
  | 0, _, heap => some ([], heap)
  | n + 1, i, heap => do
    let key ← (load ptr i).toOption
    let mem := malloc (i + 1) (heapBytes (heap.capacity * 2 % 2 ^ 64))
    let (ok, heap) ← heap.insert cmp key none mem
    let (replies, heap) ← insertAll cmp malloc ptr n (i + 1) heap
    some (ok :: replies, heap)

/-- `muggle_heap_extract` to the next cells from `i` on, with the replies. -/
def extractAll (cmp : Option κ → Option κ → Int) :
    Nat → Nat → Option (Heap.Node κ Empty) → Heap κ Empty → List (Option κ) →
      Option (List Bool × Heap κ Empty × List (Option κ))
  | 0, _, _, heap, ptr => some ([], heap, ptr)
  | n + 1, i, node, heap, ptr => do
    let (extracted, heap) ← heap.extract cmp
    -- a failed extraction leaves the node of the turn before
    let node ← extracted.or node
    let ptr ← (store ptr i node.key).toOption
    let (replies, heap, ptr) ← extractAll cmp n (i + 1) (some node) heap ptr
    some (extracted.isSome :: replies, heap, ptr)

/-- What heap sort returns and leaves in the array, and what the heap calls reply. -/
structure Run (κ : Type) where
  ok : Bool
  cells : List (Option κ)
  inserts : List Bool
  extracts : List Bool
  deriving DecidableEq, Repr

def heapCapacity (count : Nat) : Nat := (count % 2 ^ 32 + 1) % 2 ^ 32

def heapSort (cmp : Option κ → Option κ → Int) (malloc : Nat → Nat → Bool)
    (ptr : PtrArray (Option κ)) : Option (Run κ) :=
  let count := ptr.cells.length
  let capacity := heapCapacity count
  let mem := malloc 0 (heapBytes (if capacity = 0 then 8 else capacity))
  match Heap.init (some cmp) (BitVec.ofNat 64 capacity) mem with
  | none => some ⟨false, ptr.cells, [], []⟩
  | some heap => do
    let (inserts, heap) ← insertAll cmp malloc ptr.cells count 0 heap
    let (extracts, heap, cells) ← extractAll cmp count 0 none heap ptr.cells
    let _ ← heap.destroy false false
    some ⟨true, cells, inserts, extracts⟩

section Calls

variable {cmp : Option κ → Option κ → Int} (ho : TotalOrder cmp) {h : Heap κ Empty}

theorem card_pairs (h : Heap κ Empty) : (pairs h).card = h.size := by
  rw [pairs, cells, Multiset.card_map, ← Finset.card_def, Nat.card_Icc, Nat.add_sub_cancel]

theorem lt_length_of_load {κ ω : Type} {nodes : Heap.Nodes κ ω} {i : Nat} {node : Heap.Node κ ω}
    (h : Foundation.CellArray.load nodes i = some node) : i < nodes.length := by
  by_contra hge
  rw [Foundation.CellArray.load, getElem?_eq_none (Nat.not_lt.mp hge)] at h
  cases h

private theorem clearNodes_isSome {κ ω : Type} (keyFree valueFree : Bool) (n i : Nat)
    {nodes : Heap.Nodes κ ω} (h : ∀ k, i ≤ k → k < i + n → (Foundation.CellArray.load nodes k).isSome) :
    (Heap.clearNodes keyFree valueFree n i nodes).isSome := by
  induction n generalizing i nodes with
  | zero => rfl
  | succ n ih =>
    obtain ⟨node, hnode⟩ := isSome_iff_exists.mp (h i (Nat.le_refl i) (by omega))
    have hnext : ∀ k, i + 1 ≤ k → k < i + 1 + n →
        (Foundation.CellArray.load (nodes.set i (some ⟨none, none⟩)) k).isSome := by
      intro k h1 h2
      rw [Foundation.CellArray.load, getElem?_set_ne (by omega)]
      exact h k (by omega) (by omega)
    obtain ⟨r, hr⟩ := isSome_iff_exists.mp (ih (i + 1) hnext)
    simp only [Heap.clearNodes, hnode, bind_eq_bind, bind_some,
      Foundation.CellArray.store_eq (lt_length_of_load hnode), hr]
    rfl

theorem destroy_isSome (hi : Inv cmp h) (keyFree valueFree : Bool) :
    (h.destroy keyFree valueFree).isSome := by
  obtain ⟨r, hr⟩ := isSome_iff_exists.mp
    (clearNodes_isSome keyFree valueFree h.size 1 fun k h1 h2 => hi.ordered.written k h1 (by omega))
  rw [Heap.destroy, Heap.clear, hr]
  rfl

include ho

theorem insert_of_room (hi : Inv cmp h) (hroom : h.size < h.capacity) (key : Option κ) (mem : Bool) :
    ∃ h', h.insert cmp key none mem = some (true, h') ∧ Inv cmp h' ∧ h'.capacity = h.capacity ∧
      pairs h' = ⟨key, none⟩ ::ₘ pairs h := by
  obtain ⟨idx, nodes, nodes', hrun, hstore, hinv, hp⟩ := place_spec ho hi hroom key none
  refine ⟨{ h with size := h.size + 1, nodes := nodes' }, ?_, hinv, rfl, hp⟩
  rw [Heap.insert, Heap.makeRoom, if_neg (by omega), bind_eq_bind, bind_some]
  change (Heap.siftUp cmp key (h.size + 2) (h.size + 1) h.nodes).bind _ = _
  rw [hrun, bind_some]
  change (Foundation.CellArray.store nodes idx ⟨key, none⟩).bind _ = _
  rw [hstore]
  rfl

private theorem extract_cases (hi : Inv cmp h) : (h.size = 0 ∧ h.extract cmp = some (none, h)) ∨
      ∃ node h', h.extract cmp = some (some node, h') ∧ Inv cmp h' ∧ h.size = h'.size + 1 ∧
        pairs h = node ::ₘ pairs h' ∧ ∀ e ∈ pairs h, cmp node.key e.key ≤ 0 := by
  by_cases hsize : h.size = 0
  · refine .inl ⟨hsize, ?_⟩
    rw [Heap.extract, if_pos hsize]
  · obtain ⟨node, h', hext, hinv, hpairs, hmin⟩ := extract_spec ho hi hsize
    refine .inr ⟨node, h', hext, hinv, ?_, hpairs, hmin⟩
    rw [← card_pairs, ← card_pairs, hpairs, Multiset.card_cons]

end Calls

section Loops

variable {cmp : Option κ → Option κ → Int} (ho : TotalOrder cmp) {ptr : List (Option κ)}

theorem load_toOption {i : Nat} {x : Option κ} (hx : ptr[i]? = some x) :
    (load ptr i).toOption = some x := by
  rw [load, hx]
  rfl

private theorem store_toOption {i : Nat} (hi : i < ptr.length) (x : Option κ) :
    (store ptr i x).toOption = some (ptr.set i x) := by
  rw [store, if_pos hi]
  rfl

def bare (key : Option κ) : Heap.Node κ Empty := ⟨key, none⟩

include ho

private theorem insertAll_of_room (malloc : Nat → Nat → Bool) (ptr : List (Option κ)) (n i : Nat)
    {h : Heap κ Empty}
    (hi : Inv cmp h) (hroom : h.size + n ≤ h.capacity) (hn : i + n ≤ ptr.length) :
    ∃ h', insertAll cmp malloc ptr n i h = some (replicate n true, h') ∧ Inv cmp h' ∧
      pairs h' = ((slice ptr i n).map bare : Multiset (Heap.Node κ Empty)) + pairs h := by
  induction n generalizing i h with
  | zero => exact ⟨h, rfl, hi, by rw [slice_zero]; rfl⟩
  | succ n ih =>
    obtain ⟨x, hx⟩ : ∃ x, ptr[i]? = some x := ⟨_, getElem?_eq_getElem (by omega)⟩
    obtain ⟨h₁, hins, hinv, hcap, hpairs⟩ := insert_of_room ho hi (by omega) x
      (malloc (i + 1) (heapBytes (h.capacity * 2 % 2 ^ 64)))
    have hsize : h₁.size = h.size + 1 := by
      rw [← card_pairs, hpairs, Multiset.card_cons, card_pairs]
    obtain ⟨h₂, hrun, hinv', hpairs'⟩ := ih (i + 1) hinv (by omega) (by omega)
    refine ⟨h₂, ?_, hinv', ?_⟩
    · simp only [insertAll, load_toOption hx, bind_eq_bind, bind_some, hins, hrun]
      rfl
    · rw [hpairs', hpairs, slice_succ hx, map_cons, ← Multiset.cons_coe, Multiset.cons_add,
        Multiset.add_cons]
      rfl

theorem extractAll_spec (n i : Nat) (node : Option (Heap.Node κ Empty)) (ptr : List (Option κ))
    {h : Heap κ Empty} (hi : Inv cmp h) (hnode : node.isSome ∨ 0 < h.size ∨ n = 0)
    (hn : i + n ≤ ptr.length) :
    ∃ replies h' keys, extractAll cmp n i node h ptr = some (replies, h', overwrite ptr i keys) ∧
      Inv cmp h' ∧ keys.length = n ∧ (h.size = n → replies = replicate n true ∧
        (keys : Multiset (Option κ)) = (pairs h).map Heap.Node.key ∧
        keys.Pairwise fun a b => cmp a b ≤ 0) := by
  induction n generalizing i node ptr h with
  | zero =>
    refine ⟨[], h, [], by rw [extractAll, overwrite_nil], hi, rfl, ?_⟩
    intro hsize
    have hnone : pairs h = 0 := by rw [← Multiset.card_eq_zero, card_pairs, hsize]
    refine ⟨rfl, ?_, List.Pairwise.nil⟩
    rw [hnone]
    rfl
  | succ n ih =>
    have hset : ∀ x, (ptr.set i x).length = ptr.length := fun _ => length_set
    rcases extract_cases ho hi with ⟨hsize, hext⟩ | ⟨next, h₁, hext, hinv, hsize, hpairs, hmin⟩
    · obtain ⟨old, rfl⟩ := isSome_iff_exists.mp (hnode.resolve_right (by omega))
      obtain ⟨replies, h', keys, hrun, hinv', hlen, _⟩ := ih (i + 1) (some old)
        (ptr.set i old.key) hi (.inl rfl) (by rw [hset]; omega)
      refine ⟨false :: replies, h', old.key :: keys, ?_, hinv', by rw [length_cons, hlen], ?_⟩
      · simp only [extractAll, hext, bind_eq_bind, bind_some, none_or,
          store_toOption (by omega : i < ptr.length), hrun, overwrite_cons (by omega : i < ptr.length)]
        rfl
      · omega
    · obtain ⟨replies, h', keys, hrun, hinv', hlen, hall⟩ := ih (i + 1) (some next)
        (ptr.set i next.key) hinv (.inl rfl) (by rw [hset]; omega)
      refine ⟨true :: replies, h', next.key :: keys, ?_, hinv', by rw [length_cons, hlen], ?_⟩
      · simp only [extractAll, hext, bind_eq_bind, bind_some, some_or,
          store_toOption (by omega : i < ptr.length), hrun, overwrite_cons (by omega : i < ptr.length)]
        rfl
      · intro hfull
        obtain ⟨hreplies, hkeys, hsorted⟩ := hall (by omega)
        refine ⟨by rw [hreplies, replicate_succ], ?_, pairwise_cons.mpr ⟨?_, hsorted⟩⟩
        · rw [← Multiset.cons_coe, hkeys, hpairs, Multiset.map_cons]
        · -- the later keys were in the heap when this one was the smallest
          intro b hb
          have hmem : b ∈ (pairs h₁).map Heap.Node.key := by
            rw [← hkeys]
            exact Multiset.mem_coe.mpr hb
          obtain ⟨e, he, rfl⟩ := Multiset.mem_map.mp hmem
          exact hmin e (by rw [hpairs]; exact Multiset.mem_cons_of_mem he)

end Loops

theorem heapCapacity_lt (count : Nat) : heapCapacity count < 2 ^ 32 := Nat.mod_lt _ (by decide)

private theorem init_eq (cmp : Option κ → Option κ → Int) {c : Nat} (hc : c < 2 ^ 32) (mem : Bool) :
    Heap.init (ω := Empty) (some cmp) (BitVec.ofNat 64 c) mem = if mem = true then
        some ⟨if c = 0 then 8 else c, 0, Heap.mallocNodes κ Empty (if c = 0 then 8 else c)⟩
      else none := by
  have hto : (BitVec.ofNat 64 c).toNat = c := by
    rw [BitVec.toNat_ofNat]
    omega
  have hvalid : dsCapIsValid (if c = 0 then 8 else c) = true := by
    rw [dsCapIsValid, decide_eq_true_eq]
    split
    · decide
    · omega
  simp only [Heap.init, hto, hvalid]
  cases mem <;> simp

theorem init_run (cmp : Option κ → Option κ → Int) {c : Nat} (hc : c < 2 ^ 32) {mem : Bool}
    {h : Heap κ Empty} (hi : Heap.init (some cmp) (BitVec.ofNat 64 c) mem = some h) :
    mem = true ∧ h.capacity = (if c = 0 then 8 else c) ∧ h.size = 0 ∧ Inv cmp h := by
  have hinv : Inv cmp h := by
    apply init_inv hi
    rw [BitVec.toNat_ofNat, Heap.nodeSize]
    omega
  rw [init_eq cmp hc] at hi
  split at hi
  · next hmem =>
    cases hi
    exact ⟨hmem, rfl, rfl, hinv⟩
  · cases hi

/-- What a run of heap sort leaves: all cells sorted, and no heap call refused. -/
structure Sorted (cmp : Option κ → Option κ → Int) (ptr : List (Option κ)) (r : Run κ) : Prop where
  perm : r.cells.Perm ptr
  sorted : r.cells.Pairwise fun a b => cmp a b ≤ 0
  inserts : r.inserts = List.replicate ptr.length true
  extracts : r.extracts = List.replicate ptr.length true

/-- Heap sort of fewer than `2 ^ 32 - 1` cells fails only for want of memory. -/
theorem heapSort_sorts (cmp : Option κ → Option κ → Int) (ho : TotalOrder cmp)
    (malloc : Nat → Nat → Bool) (ptr : PtrArray (Option κ))
    (hcount : ptr.cells.length < 2 ^ 32 - 1) :
    ∃ r, heapSort cmp malloc ptr = some r ∧ (r.ok = true → Sorted cmp ptr.cells r) := by
  have hcap : heapCapacity ptr.cells.length = ptr.cells.length + 1 := by
    unfold heapCapacity
    omega
  rw [heapSort]
  split
  · exact ⟨_, rfl, Bool.noConfusion⟩
  · next h hi =>
    obtain ⟨_, hc, hsize, hinv⟩ := init_run cmp (heapCapacity_lt _) hi
    rw [hcap, if_neg (Nat.succ_ne_zero _)] at hc
    obtain ⟨h₁, hins, hinv₁, hpairs⟩ := insertAll_of_room ho malloc ptr.cells
      ptr.cells.length 0 hinv (by omega) (by omega)
    have hempty : pairs h = 0 := by rw [← Multiset.card_eq_zero, card_pairs, hsize]
    have hwhole : slice ptr.cells 0 ptr.cells.length = ptr.cells := by
      rw [slice, drop_zero, take_length]
    rw [hempty, hwhole, add_zero] at hpairs
    have hsize₁ : h₁.size = ptr.cells.length := by
      rw [← card_pairs, hpairs, Multiset.coe_card, length_map]
    obtain ⟨replies, h₂, keys, hext, hinv₂, hlen, hall⟩ := extractAll_spec ho ptr.cells.length 0 none
      ptr.cells hinv₁ (by omega) (by omega)
    obtain ⟨hreplies, hkeys, hsorted⟩ := hall hsize₁
    obtain ⟨d, hd⟩ := Option.isSome_iff_exists.mp (destroy_isSome hinv₂ false false)
    rw [overwrite_all hlen] at hext
    refine ⟨⟨true, keys, _, replies⟩, ?_, fun _ => ⟨?_, hsorted, rfl, hreplies⟩⟩
    · simp only [hins, Option.bind_eq_bind, Option.bind_some, hext, hd]
    · rw [← Multiset.coe_eq_coe, hkeys, hpairs, Multiset.map_coe, map_map]
      exact congrArg _ (map_id ptr.cells)

def five : PtrArray (Option Nat) := ⟨[some 3, some 1, none, some 3, some 2], by decide⟩

theorem heapSort_sorts_five : ∃ r, heapSort byNumber (fun _ _ => true) five = some r ∧
      (r.ok = true → Sorted byNumber five.cells r) :=
  heapSort_sorts byNumber byNumber_total (fun _ _ => true) five (by decide)

example : (heapSort byNumber (fun _ _ => true) five).map Run.cells =
    some [none, some 1, some 2, some 3, some 3] := by decide +kernel

end MuggleC.Dsaa.HeapSort
