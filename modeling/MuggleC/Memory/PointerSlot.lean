/- source: memory/pointer_slot.c
   digest: Slots for pointers, handed out from a ring and linked in the order of insertion. -/

import MuggleC.Base.Utils
import MuggleC.Foundation.DoublyLinked

set_option autoImplicit false

/-! `slots` and `pp_slots` are lists of the entries that `init` has allocated and initialised. An index
behind them and a pointer to no item are faults, and end the run. -/

namespace MuggleC.Memory

open Base Foundation.DoublyLinked

namespace PointerSlot

inductive Ref
  | head
  | tail
  | slot (i : Nat)
  deriving DecidableEq, Repr

structure Item (δ : Type) where
  prev : Option Ref
  next : Option Ref
  slotIdx : BitVec 32
  inUsed : BitVec 32
  data : Option δ
  deriving DecidableEq, Repr

namespace Item

variable {δ : Type}

def setPrev (p : Option Ref) (it : Item δ) : Item δ := { it with prev := p }

def setNext (p : Option Ref) (it : Item δ) : Item δ := { it with next := p }

def setLinks (prev next : Option Ref) (it : Item δ) : Item δ :=
  { it with prev := prev, next := next }

def setData (data : Option δ) (inUsed : BitVec 32) (it : Item δ) : Item δ :=
  { it with data := data, inUsed := inUsed }

end Item

end PointerSlot

open PointerSlot

structure PointerSlot (δ : Type) where
  slots : List (Item δ)
  ppSlots : List Ref
  capacity : BitVec 32
  allocIndex : BitVec 32
  freeIndex : BitVec 32
  head : Item δ
  tail : Item δ
  deriving DecidableEq, Repr

namespace PointerSlot

/-- An index into `slots` or `pp_slots` that is not below the number of entries, and a pointer that is
`NULL` or dangling. -/
inductive Fault
  | outside (idx : BitVec 32)
  | pointer
  deriving DecidableEq, Repr

structure Returned (α : Type) where
  value : α
  asserted : Bool
  deriving DecidableEq, Repr

variable {δ : Type}

/-- `muggle_pointer_slot_init`, where `slotsMem` and `ppSlotsMem` tell whether `malloc` got the memory
of the two arrays. -/
def init (δ : Type) (capacity : BitVec 32) (slotsMem ppSlotsMem : Bool) :
    Except Err (PointerSlot δ) :=
  let capacity := if 0#32 < capacity then capacity else 1#32
  if slotsMem = false ∨ ppSlotsMem = false then .error .memAlloc
  else .ok {
    slots := (List.range capacity.toNat).map fun i => ⟨none, none, BitVec.ofNat 32 i, 0#32, none⟩
    ppSlots := (List.range capacity.toNat).map Ref.slot
    capacity := (nextPowOf2 (capacity.setWidth 64)).setWidth 32
    allocIndex := 0#32
    freeIndex := 0#32
    head := ⟨none, some .tail, 0#32, 0#32, none⟩
    tail := ⟨some .head, none, 0#32, 0#32, none⟩ }

def item (s : PointerSlot δ) : Ref → Option (Item δ)
  | .head => some s.head
  | .tail => some s.tail
  | .slot i => s.slots[i]?

def put (s : PointerSlot δ) (r : Ref) (f : Item δ → Item δ) : PointerSlot δ :=
  match r with
  | .head => { s with head := f s.head }
  | .tail => { s with tail := f s.tail }
  | .slot i => { s with slots := s.slots.modify i f }

def deref (s : PointerSlot δ) (r : Ref) : Except Fault (Item δ) :=
  match s.item r with
  | none => .error .pointer
  | some it => .ok it

def update (s : PointerSlot δ) (p : Option Ref) (f : Item δ → Item δ) :
    Except Fault (PointerSlot δ) :=
  match p with
  | none => .error .pointer
  | some r => do
    let _ ← s.deref r
    pure (s.put r f)

def slotAt (s : PointerSlot δ) (idx : BitVec 32) : Except Fault (Item δ) :=
  match s.slots[idx.toNat]? with
  | none => .error (.outside idx)
  | some it => .ok it

def ppSlotAt (s : PointerSlot δ) (idx : BitVec 32) : Except Fault Ref :=
  match s.ppSlots[idx.toNat]? with
  | none => .error (.outside idx)
  | some r => .ok r

def setPpSlot (s : PointerSlot δ) (idx : BitVec 32) (r : Ref) : Except Fault (PointerSlot δ) :=
  if idx.toNat < s.ppSlots.length then .ok { s with ppSlots := s.ppSlots.set idx.toNat r }
  else .error (.outside idx)

def pos (s : PointerSlot δ) (idx : BitVec 32) : BitVec 32 := idxInPowOf2Ring idx s.capacity

/-- `muggle_pointer_slot_insert`; the slot index comes with a success. -/
def insert (s : PointerSlot δ) (data : Option δ) :
    Except Fault (Returned (Except Err (BitVec 32)) × PointerSlot δ) := do
  let allocIdx := s.pos s.allocIndex
  let pSlot ← s.ppSlotAt allocIdx
  let it ← s.deref pSlot
  if it.inUsed = 1#32 then
    pure (⟨.error .memAlloc, allocIdx == s.pos s.freeIndex⟩, s)
  else
    let s ← s.update (some pSlot) (Item.setLinks s.tail.prev (some .tail))
    let s ← s.update s.tail.prev (Item.setNext (some pSlot))
    let s ← s.update (some .tail) (Item.setPrev (some pSlot))
    let s ← s.update (some pSlot) (Item.setData data 1#32)
    let it ← s.deref pSlot
    pure (⟨.ok it.slotIdx, true⟩, { s with allocIndex := s.allocIndex + 1#32 })

def remove (s : PointerSlot δ) (slotIdx : BitVec 32) :
    Except Fault (Returned (Except Err Unit) × PointerSlot δ) := do
  if s.capacity ≤ slotIdx then
    pure (⟨.error .beyondRange, slotIdx < s.capacity⟩, s)
  else
    let it ← s.slotAt slotIdx
    if it.inUsed = 0#32 then
      pure (⟨.error .memDuplicateFree, it.inUsed == 1#32⟩, s)
    else
      let pSlot := Ref.slot slotIdx.toNat
      let s ← s.setPpSlot (s.pos s.freeIndex) pSlot
      let it ← s.deref pSlot
      let s ← s.update it.prev (Item.setNext it.next)
      let it ← s.deref pSlot
      let s ← s.update it.next (Item.setPrev it.prev)
      let s ← s.update (some pSlot) (Item.setLinks none none)
      let s ← s.update (some pSlot) (Item.setData none 0#32)
      pure (⟨.ok (), true⟩, { s with freeIndex := s.freeIndex + 1#32 })

def get (s : PointerSlot δ) (idx : BitVec 32) : Except Fault (Returned (Option δ)) := do
  if s.capacity ≤ idx then
    pure ⟨none, idx < s.capacity⟩
  else
    let it ← s.slotAt idx
    if it.inUsed = 0#32 then pure ⟨none, true⟩
    else
      let it ← s.slotAt idx
      pure ⟨it.data, true⟩

def iterBegin (s : PointerSlot δ) : Option Ref := s.head.next

def iterEnd (_ : PointerSlot δ) : Option Ref := some .tail

def read {α : Type} (field : Item δ → Option α) (s : PointerSlot δ) (r : Ref) : Option α :=
  (s.item r).bind field

def next : PointerSlot δ → Ref → Option Ref := read Item.next

def prev : PointerSlot δ → Ref → Option Ref := read Item.prev

/-- `muggle_pointer_slot_iter_data`, together with `iter->slot_idx`. -/
def iterData (s : PointerSlot δ) (iter : Ref) : Except Fault (Nat × Option δ) := do
  let it ← s.deref iter
  pure (it.slotIdx.toNat, it.data)

def iterate (s : PointerSlot δ) : Except Fault (List (Nat × Option δ)) :=
  match follow s.next s.iterEnd (s.slots.length + 1) s.iterBegin with
  | none => .error .pointer
  | some refs => refs.mapM s.iterData

inductive Call (δ : Type)
  | insert (data : Option δ)
  | remove (slotIdx : BitVec 32)
  | get (idx : BitVec 32)
  | iterate
  deriving DecidableEq, Repr

inductive Reply (δ : Type)
  | inserted (r : Returned (Except Err (BitVec 32)))
  | removed (r : Returned (Except Err Unit))
  | got (r : Returned (Option δ))
  | visited (entries : List (Nat × Option δ))

def call (s : PointerSlot δ) : Call δ → Except Fault (Reply δ × PointerSlot δ)
  | .insert data => do
    let (r, s) ← s.insert data
    pure (.inserted r, s)
  | .remove slotIdx => do
    let (r, s) ← s.remove slotIdx
    pure (.removed r, s)
  | .get idx => do
    let r ← s.get idx
    pure (.got r, s)
  | .iterate => do
    let entries ← s.iterate
    pure (.visited entries, s)

/-- The replies to a sequence of calls, each with the state after it. -/
def calls (s : PointerSlot δ) : List (Call δ) → Except Fault (List (Reply δ × PointerSlot δ))
  | [] => .ok []
  | c :: cs => do
    let (r, s) ← s.call c
    let rest ← calls s cs
    pure ((r, s) :: rest)

theorem item_put (s : PointerSlot δ) (r a : Ref) (f : Item δ → Item δ) :
    (s.put r f).item a = if a = r then (s.item r).map f else s.item a := by
  cases r with
  | head | tail => cases a <;> simp [put, item]
  | slot i =>
    cases a with
    | head | tail => simp [put, item]
    | slot j =>
      simp only [put, item, List.getElem?_modify, Ref.slot.injEq]
      by_cases h : i = j
      · simp [h]
      · simp [h, Ne.symm h]

def Item.payload (it : Item δ) : Option (BitVec 32 × BitVec 32 × Option δ) :=
  some (it.slotIdx, it.inUsed, it.data)

def payload : PointerSlot δ → Ref → Option (BitVec 32 × BitVec 32 × Option δ) := read Item.payload

section Put

variable {s : PointerSlot δ} {r : Ref} {f : Item δ → Item δ} {it : Item δ}

@[simp] theorem put_ppSlots : (s.put r f).ppSlots = s.ppSlots := by cases r <;> rfl

@[simp] theorem put_capacity : (s.put r f).capacity = s.capacity := by cases r <;> rfl

@[simp] theorem put_allocIndex : (s.put r f).allocIndex = s.allocIndex := by cases r <;> rfl

@[simp] theorem put_freeIndex : (s.put r f).freeIndex = s.freeIndex := by cases r <;> rfl

@[simp] theorem length_put_slots : (s.put r f).slots.length = s.slots.length := by
  cases r with
  | slot i => exact List.length_modify f s.slots i
  | _ => rfl

theorem read_put {α : Type} (field : Item δ → Option α) (h : s.item r = some it) :
    read field (s.put r f) = Function.update (read field s) r (field (f it)) := by
  funext a
  rw [read, item_put]
  by_cases ha : a = r
  · rw [if_pos ha, ha, Function.update_self, h]
    rfl
  · rw [if_neg ha, Function.update_of_ne ha]
    rfl

theorem read_put_of_keep {α : Type} {field : Item δ → Option α} (f : Item δ → Item δ)
    (h : ∀ it, field (f it) = field it) : read field (s.put r f) = read field s := by
  funext a
  rw [read, item_put]
  by_cases ha : a = r
  · rw [if_pos ha, ha, read, Option.bind_map]
    exact congrArg (Option.bind (s.item r)) (funext h)
  · rw [if_neg ha]
    rfl

theorem deref_eq (h : s.item r = some it) : s.deref r = pure it := by
  rw [deref, h]
  rfl

theorem update_eq (h : s.item r = some it) : s.update (some r) f = pure (s.put r f) := by
  rw [update, deref_eq h, pure_bind]

theorem item_put_self (h : s.item r = some it) : (s.put r f).item r = some (f it) := by
  rw [item_put, if_pos rfl, h, Option.map_some]

theorem item_put_of_ne {a : Ref} (h : a ≠ r) : (s.put r f).item a = s.item a := by
  rw [item_put, if_neg h]

private theorem tail_put_of_ne (h : r ≠ .tail) : (s.put r f).tail = s.tail :=
  Option.some.inj (item_put_of_ne h.symm)

end Put

def linkLast (s : PointerSlot δ) (p last : Ref) (data : Option δ) : PointerSlot δ :=
  let s := s.put p (Item.setLinks (some last) (some .tail))
  let s := s.put last (Item.setNext (some p))
  let s := s.put .tail (Item.setPrev (some p))
  let s := s.put p (Item.setData data 1#32)
  { s with allocIndex := s.allocIndex + 1#32 }

theorem insert_of_free {s : PointerSlot δ} {p last : Ref} {it it' : Item δ} (data : Option δ)
    (hpp : s.ppSlots[(s.pos s.allocIndex).toNat]? = some p) (hp : s.item p = some it)
    (hfree : it.inUsed = 0#32) (hlast : s.tail.prev = some last) (hitem : s.item last = some it')
    (hpt : p ≠ .tail) (hlt : last ≠ .tail) (hne : last ≠ p) :
    s.insert data = .ok (⟨.ok it.slotIdx, true⟩, s.linkLast p last data) := by
  have hused : ¬ it.inUsed = 1#32 := by
    rw [hfree]
    decide
  have hat : s.ppSlotAt (s.pos s.allocIndex) = pure p := by
    rw [ppSlotAt, hpp]
    rfl
  have hitem' : ∀ f, (s.put p f).item last = some it' := fun f => (item_put_of_ne hne).trans hitem
  have htail : ∀ f g, ((s.put p f).put last g).item .tail = some s.tail := by
    intro f g
    rw [item_put_of_ne hlt.symm, item_put_of_ne hpt.symm]
    rfl
  have hp' : ∀ f g h, (((s.put p f).put last g).put .tail h).item p = some (f it) := by
    intro f g h
    rw [item_put_of_ne hpt, item_put_of_ne hne.symm, item_put_self hp]
  rw [insert, hat, pure_bind, deref_eq hp, pure_bind, if_neg hused, hlast, update_eq hp, pure_bind,
    tail_put_of_ne hpt, hlast, update_eq (hitem' _), pure_bind, update_eq (htail _ _), pure_bind,
    update_eq (hp' _ _ _), pure_bind, deref_eq (item_put_self (hp' _ _ _)), pure_bind]
  rfl

def unlink (s : PointerSlot δ) (i : Nat) (before after : Ref) : PointerSlot δ :=
  let s := { s with ppSlots := s.ppSlots.set (s.pos s.freeIndex).toNat (.slot i) }
  let s := s.put before (Item.setNext (some after))
  let s := s.put after (Item.setPrev (some before))
  let s := s.put (.slot i) (Item.setLinks none none)
  let s := s.put (.slot i) (Item.setData none 0#32)
  { s with freeIndex := s.freeIndex + 1#32 }

theorem remove_of_used {s : PointerSlot δ} {idx : BitVec 32} {before after : Ref}
    {it itb ita : Item δ} (hidx : idx < s.capacity) (hp : s.item (.slot idx.toNat) = some it)
    (hused : it.inUsed ≠ 0#32) (hpos : (s.pos s.freeIndex).toNat < s.ppSlots.length)
    (hprev : it.prev = some before) (hnext : it.next = some after)
    (hbefore : s.item before = some itb) (hafter : s.item after = some ita)
    (hb : before ≠ .slot idx.toNat) (ha : after ≠ .slot idx.toNat) :
    s.remove idx = .ok (⟨.ok (), true⟩, s.unlink idx.toNat before after) := by
  have hat : s.slotAt idx = pure it := by
    have : s.slots[idx.toNat]? = some it := hp
    rw [slotAt, this]
    rfl
  obtain ⟨t, ht⟩ : ∃ t : PointerSlot δ,
      t = { s with ppSlots := s.ppSlots.set (s.pos s.freeIndex).toNat (.slot idx.toNat) } := ⟨_, rfl⟩
  have hitem : t.item = s.item := by
    rw [ht]
    funext r
    cases r <;> rfl
  have hset : s.setPpSlot (s.pos s.freeIndex) (.slot idx.toNat) = pure t := by
    rw [setPpSlot, if_pos hpos, ht]
    rfl
  rw [← hitem] at hp hbefore hafter
  have hp' : ∀ f, (t.put before f).item (.slot idx.toNat) = some it := fun f =>
    (item_put_of_ne hb.symm).trans hp
  have hafter' : ∀ f, ∃ ita', (t.put before f).item after = some ita' := by
    intro f
    rw [item_put]
    split
    · exact ⟨_, congrArg (Option.map f) hbefore⟩
    · exact ⟨ita, hafter⟩
  have hp'' : ∀ f g, ((t.put before f).put after g).item (.slot idx.toNat) = some it := fun f g =>
    (item_put_of_ne ha.symm).trans (hp' f)
  obtain ⟨ita', hita⟩ := hafter' (Item.setNext (some after))
  rw [remove, if_neg (BitVec.not_le.mpr hidx), hat, pure_bind, if_neg hused]
  simp only []
  rw [hset, pure_bind, deref_eq hp, pure_bind, hprev, hnext, update_eq hbefore, pure_bind,
    deref_eq (hp' _), pure_bind, hnext, hprev, update_eq hita, pure_bind, update_eq (hp'' _ _),
    pure_bind, update_eq (item_put_self (hp'' _ _)), pure_bind, ht]
  rfl

section Links

variable {s : PointerSlot δ} {it itb ita : Item δ} {p last before after : Ref} {data : Option δ}
  {i : Nat}

@[simp] theorem linkLast_ppSlots : (s.linkLast p last data).ppSlots = s.ppSlots := by
  simp [linkLast]

@[simp] theorem linkLast_capacity : (s.linkLast p last data).capacity = s.capacity := by
  simp [linkLast]

@[simp] theorem linkLast_allocIndex :
    (s.linkLast p last data).allocIndex = s.allocIndex + 1#32 := by
  simp [linkLast]

@[simp] theorem linkLast_freeIndex : (s.linkLast p last data).freeIndex = s.freeIndex := by
  simp [linkLast]

@[simp] theorem length_linkLast_slots : (s.linkLast p last data).slots.length = s.slots.length := by
  simp [linkLast]

theorem next_linkLast (hp : s.item p = some it) (hlast : s.item last = some itb) (hne : last ≠ p) :
    (s.linkLast p last data).next =
      point (Function.update s.next p (some .tail)) (some last) (some p) := by
  change read Item.next ((((s.put p _).put last _).put .tail _).put p _) = _
  rw [read_put_of_keep (Item.setData data 1#32) fun _ => rfl,
    read_put_of_keep (Item.setPrev (some p)) fun _ => rfl,
    read_put _ ((item_put_of_ne hne).trans hlast), read_put _ hp]
  rfl

theorem prev_linkLast (hp : s.item p = some it) (hpt : p ≠ .tail) (hlt : last ≠ .tail) :
    (s.linkLast p last data).prev =
      point (Function.update s.prev p (some last)) (some .tail) (some p) := by
  have htail : ∀ f g, ((s.put p f).put last g).item .tail = some s.tail := by
    intro f g
    rw [item_put_of_ne hlt.symm, item_put_of_ne hpt.symm]
    rfl
  change read Item.prev ((((s.put p _).put last _).put .tail _).put p _) = _
  rw [read_put_of_keep (Item.setData data 1#32) fun _ => rfl, read_put _ (htail _ _),
    read_put_of_keep (Item.setNext (some p)) fun _ => rfl, read_put _ hp]
  rfl

theorem payload_linkLast (hp : s.item p = some it) (hpt : p ≠ .tail) (hne : last ≠ p) :
    (s.linkLast p last data).payload =
      Function.update s.payload p (some (it.slotIdx, 1#32, data)) := by
  have hp' : ∀ f g h, (((s.put p f).put last g).put .tail h).item p = some (f it) := by
    intro f g h
    rw [item_put_of_ne hpt, item_put_of_ne hne.symm, item_put_self hp]
  change read Item.payload ((((s.put p _).put last _).put .tail _).put p _) = _
  rw [read_put _ (hp' _ _ _), read_put_of_keep (Item.setPrev (some p)) fun _ => rfl,
    read_put_of_keep (Item.setNext (some p)) fun _ => rfl,
    read_put_of_keep (Item.setLinks (some last) (some .tail)) fun _ => rfl]
  rfl

@[simp] theorem unlink_ppSlots : (s.unlink i before after).ppSlots =
    s.ppSlots.set (s.pos s.freeIndex).toNat (.slot i) := by
  simp [unlink]

@[simp] theorem unlink_capacity : (s.unlink i before after).capacity = s.capacity := by
  simp [unlink]

@[simp] theorem unlink_allocIndex : (s.unlink i before after).allocIndex = s.allocIndex := by
  simp [unlink]

@[simp] theorem unlink_freeIndex : (s.unlink i before after).freeIndex = s.freeIndex + 1#32 := by
  simp [unlink]

@[simp] theorem length_unlink_slots : (s.unlink i before after).slots.length = s.slots.length := by
  simp [unlink]

theorem item_set_ppSlots (l : List Ref) : item { s with ppSlots := l } = s.item := by
  funext r
  cases r <;> rfl

theorem read_set_ppSlots {α : Type} (field : Item δ → Option α) (l : List Ref) :
    read field { s with ppSlots := l } = read field s := by
  funext r
  rfl

variable (hp : s.item (.slot i) = some it)

include hp

theorem item_between (hb : before ≠ .slot i)
    (ha : after ≠ .slot i) (l : List Ref) (f g : Item δ → Item δ) :
    ((put { s with ppSlots := l } before f).put after g).item (.slot i) = some it := by
  rw [item_put_of_ne ha.symm, item_put_of_ne hb.symm, item_set_ppSlots]
  exact hp

theorem next_unlink (hbefore : s.item before = some itb) (hb : before ≠ .slot i)
    (ha : after ≠ .slot i) : (s.unlink i before after).next =
      Function.update (point s.next (some before) (some after)) (.slot i) none := by
  have hbefore' : ∀ l, item { s with ppSlots := l } before = some itb := by
    intro l
    exact hbefore
  change read Item.next ((((put _ before _).put after _).put (.slot i) _).put (.slot i) _) = _
  rw [read_put_of_keep (Item.setData none 0#32) fun _ => rfl,
    read_put _ (item_between hp hb ha _ _ _),
    read_put_of_keep (Item.setPrev (some before)) fun _ => rfl, read_put _ (hbefore' _),
    read_set_ppSlots]
  rfl

theorem prev_unlink (hafter : s.item after = some ita) (hb : before ≠ .slot i)
    (ha : after ≠ .slot i) (hne : after ≠ before) : (s.unlink i before after).prev =
      Function.update (point s.prev (some after) (some before)) (.slot i) none := by
  have hafter' : ∀ l f, (put { s with ppSlots := l } before f).item after = some ita := by
    intro l f
    rw [item_put_of_ne hne, item_set_ppSlots]
    exact hafter
  change read Item.prev ((((put _ before _).put after _).put (.slot i) _).put (.slot i) _) = _
  rw [read_put_of_keep (Item.setData none 0#32) fun _ => rfl,
    read_put _ (item_between hp hb ha _ _ _), read_put _ (hafter' _ _),
    read_put_of_keep (Item.setNext (some after)) fun _ => rfl, read_set_ppSlots]
  rfl

theorem payload_unlink (hb : before ≠ .slot i) (ha : after ≠ .slot i) :
    (s.unlink i before after).payload =
      Function.update s.payload (.slot i) (some (it.slotIdx, 0#32, none)) := by
  change read Item.payload ((((put _ before _).put after _).put (.slot i) _).put (.slot i) _) = _
  rw [read_put _ (item_put_self (item_between hp hb ha _ _ _)),
    read_put_of_keep (Item.setLinks none none) fun _ => rfl,
    read_put_of_keep (Item.setPrev (some before)) fun _ => rfl,
    read_put_of_keep (Item.setNext (some after)) fun _ => rfl, read_set_ppSlots]
  rfl

end Links

end PointerSlot

end MuggleC.Memory
