/- source: memory/pointer_slot.c
   digest: The pointer slots are a table of live entries that remembers the order of insertion, and
   its indices stay inside the arrays exactly if the capacity is a power of two. -/

import MuggleC.Foundation.Ring
import MuggleC.Memory.PointerSlot

set_option autoImplicit false

namespace MuggleC.Memory.SlotOrder

open Base Foundation.Counter Foundation.DoublyLinked Foundation.Ring PointerSlot
open List hiding iterate

variable {δ : Type}

abbrev Live (δ : Type) := List (Nat × Option δ)

/-- What a call may reply when the given entries are live, and which entries are live after it. -/
inductive Meets (capacity : Nat) (s s' : PointerSlot δ) (live : Live δ) :
    Call δ → Reply δ → Live δ → Prop
  | inserted {data : Option δ} {idx : BitVec 32} (hroom : live.length < capacity)
      (hnew : idx.toNat ∉ live.map Prod.fst) :
      Meets capacity s s' live (.insert data) (.inserted ⟨.ok idx, true⟩)
        (live ++ [(idx.toNat, data)])
  | full {data : Option δ} (hfull : live.length = capacity) (hsame : s' = s) :
      Meets capacity s s' live (.insert data) (.inserted ⟨.error .memAlloc, true⟩) live
  | removed {idx : BitVec 32} {d : Option δ} {P Q : Live δ}
      (hlive : live = P ++ (idx.toNat, d) :: Q) :
      Meets capacity s s' live (.remove idx) (.removed ⟨.ok (), true⟩) (P ++ Q)
  | refused {idx : BitVec 32} {e : Err} (hdead : idx.toNat ∉ live.map Prod.fst) (hsame : s' = s)
      (he : e = if idx.toNat < capacity then .memDuplicateFree else .beyondRange) :
      Meets capacity s s' live (.remove idx) (.removed ⟨.error e, false⟩) live
  | got {idx : BitVec 32} {d : Option δ} {asserted : Bool}
      (hlive : ∀ x, (idx.toNat, x) ∈ live → d = x)
      (hdead : idx.toNat ∉ live.map Prod.fst → d = none) (hsame : s' = s) :
      Meets capacity s s' live (.get idx) (.got ⟨d, asserted⟩) live
  | visited (hsame : s' = s) : Meets capacity s s' live .iterate (.visited live) live

/-- Every reply is one that the entries allow which the calls before it have left live. -/
def Follows (capacity : Nat) : PointerSlot δ → Live δ → List (Call δ) →
    List (Reply δ × PointerSlot δ) → Prop
  | _, _, [], replies => replies = []
  | _, _, _ :: _, [] => False
  | s, live, c :: cs, (r, s') :: replies =>
    ∃ live', Meets capacity s s' live c r live' ∧ Follows capacity s' live' cs replies

def slotsOf (live : Live δ) : List Ref := live.map fun e => .slot e.1

def front (live : Live δ) : List (Option Ref) := some .head :: (slotsOf live).map some

def back (live : Live δ) : List (Option Ref) := (slotsOf live).map some ++ [some .tail]

def chain (live : Live δ) : List (Option Ref) := some .head :: back live

/-- `freed` is the number of removals so far; the ring holds the free slots from `alloc_index` on. -/
structure Holds (k freed : Nat) (free : List Nat) (s : PointerSlot δ) (live : Live δ) : Prop where
  below : k ≤ 31
  capacity_eq : s.capacity.toNat = 2 ^ k
  length_slots : s.slots.length = 2 ^ k
  length_ring : s.ppSlots.length = 2 ^ k
  alloc_eq : s.allocIndex = BitVec.ofNat 32 (freed + live.length)
  free_eq : s.freeIndex = BitVec.ofNat 32 freed
  ring : window s.ppSlots (freed + live.length) free.length = free.map Ref.slot
  entries : ∀ r ∈ s.ppSlots, ∃ j, j < 2 ^ k ∧ r = .slot j
  partition : (free ++ live.map Prod.fst).Perm (List.range (2 ^ k))
  used : ∀ e ∈ live, s.payload (.slot e.1) = some (BitVec.ofNat 32 e.1, 1#32, e.2)
  unused : ∀ j ∈ free, s.payload (.slot j) = some (BitVec.ofNat 32 j, 0#32, none)
  linked : Linked s.next s.prev (chain live)

variable {s : PointerSlot δ} {live : Live δ}

theorem item_of_payload {r : Ref} {i u : BitVec 32} {d : Option δ}
    (h : s.payload r = some (i, u, d)) :
    ∃ it, s.item r = some it ∧ it.slotIdx = i ∧ it.inUsed = u ∧ it.data = d := by
  obtain ⟨it, hit, hq⟩ := Option.bind_eq_some_iff.mp h
  obtain ⟨hi, hu⟩ := Prod.mk.inj (Option.some.inj hq)
  exact ⟨it, hit, hi, Prod.mk.inj hu⟩

theorem chain_append (P Q : Live δ) : chain (P ++ Q) = front P ++ back Q := by
  rw [chain, back, front, back, slotsOf, map_append, map_append, append_assoc]
  rfl

private theorem mem_chain {j : Nat} : some (Ref.slot j) ∈ chain live ↔ j ∈ live.map Prod.fst := by
  simp [chain, back, slotsOf]

theorem nodup_chain (h : (live.map Prod.fst).Nodup) : (chain live).Nodup := by
  have hslots : ((live.map Prod.fst).map Ref.slot).Nodup := h.map fun _ _ => Ref.slot.inj
  rw [map_map] at hslots
  have hend : some Ref.tail ∉ (slotsOf live).map some := by simp [slotsOf]
  rw [chain, nodup_cons, back, nodup_append]
  refine ⟨?_, hslots.map (Option.some_injective Ref), nodup_singleton _, ?_⟩
  · simp [slotsOf]
  · intro x hx y hy he
    exact hend (mem_singleton.mp hy ▸ he ▸ hx)

theorem exists_last (live : Live δ) : ∃ pre last, front live = pre ++ [some last] ∧
    last ≠ .tail ∧ (last = .head ∨ ∃ e ∈ live, last = .slot e.1) := by
  rcases eq_nil_or_concat' live with rfl | ⟨P, e, rfl⟩
  · exact ⟨[], .head, rfl, Ref.noConfusion, .inl rfl⟩
  · refine ⟨front P, .slot e.1, ?_, Ref.noConfusion, .inr ⟨e, ?_, rfl⟩⟩
    · rw [front, front, slotsOf, map_append, map_append]
      rfl
    · exact mem_append_right _ mem_cons_self

theorem exists_first (live : Live δ) : ∃ first post, back live = some first :: post ∧
    (first = .tail ∨ ∃ e ∈ live, first = .slot e.1) := by
  cases live with
  | nil => exact ⟨.tail, [], rfl, .inl rfl⟩
  | cons e live => exact ⟨.slot e.1, _, rfl, .inr ⟨e, mem_cons_self, rfl⟩⟩

namespace Holds

variable {k freed : Nat} {free : List Nat} {s : PointerSlot δ} {live : Live δ}
  (h : Holds k freed free s live)

include h

theorem nodup : (free ++ live.map Prod.fst).Nodup :=
  h.partition.nodup_iff.mpr nodup_range

theorem length_eq : free.length + live.length = 2 ^ k := by
  have := h.partition.length_eq
  rwa [length_append, length_map, length_range] at this

theorem lt_iff (j : Nat) : j < 2 ^ k ↔ j ∈ free ∨ j ∈ live.map Prod.fst := by
  rw [← mem_append, h.partition.mem_iff, mem_range]

theorem live_lt {e : Nat × Option δ} (he : e ∈ live) :
    e.1 < 2 ^ k := (h.lt_iff e.1).mpr (.inr (mem_map_of_mem he))

variable {j : Nat} {d : Option δ} {it : Item δ}

theorem not_live (hj : j ∈ free) : j ∉ live.map Prod.fst :=
  fun hmem => (nodup_append.mp h.nodup).2.2 j hj j hmem rfl

theorem nodup_live : (live.map Prod.fst).Nodup :=
  (nodup_append.mp h.nodup).2.1

theorem pos_eq (n : Nat) :
    (s.pos (BitVec.ofNat 32 n)).toNat = n % 2 ^ k := toNat_idxInPowOf2Ring h.capacity_eq n

theorem toNat_ofNat (hj : j < 2 ^ k) : (BitVec.ofNat 32 j).toNat = j := by
  have : 2 ^ k ≤ 2 ^ 31 := Nat.pow_le_pow_right (by omega) h.below
  rw [BitVec.toNat_ofNat, Nat.mod_eq_of_lt (by omega)]

theorem item_slot (hj : j < 2 ^ k) : ∃ it, s.item (.slot j) = some it := by
  rw [← h.length_slots] at hj
  exact ⟨s.slots.get ⟨j, hj⟩, getElem?_eq_getElem hj⟩

theorem item_last {last : Ref}
    (hlast : last = .head ∨ ∃ e ∈ live, last = .slot e.1) : ∃ it, s.item last = some it := by
  rcases hlast with rfl | ⟨e, he, rfl⟩
  · exact ⟨s.head, rfl⟩
  · exact h.item_slot (h.live_lt he)

private theorem item_first {first : Ref}
    (hfirst : first = .tail ∨ ∃ e ∈ live, first = .slot e.1) : ∃ it, s.item first = some it := by
  rcases hfirst with rfl | ⟨e, he, rfl⟩
  · exact ⟨s.tail, rfl⟩
  · exact h.item_slot (h.live_lt he)

omit h

private theorem ring_head (h : Holds k freed (j :: free) s live) :
    s.ppSlots[(freed + live.length) % s.ppSlots.length]? = some (.slot j) := by
  have hlen := h.length_eq
  have hget := getElem?_window (l := s.ppSlots) (i := freed + live.length)
    (n := (j :: free).length) (k := 0) (by rw [h.length_ring]; omega) (Nat.succ_pos _)
  rw [h.ring] at hget
  exact hget.symm

private theorem insert_room (h : Holds k freed (j :: free) s live) (data : Option δ) :
    ∃ s', s.insert data = .ok (⟨.ok (BitVec.ofNat 32 j), true⟩, s') ∧
      Holds k freed free s' (live ++ [(j, data)]) := by
  have hmem : j ∈ j :: free := mem_cons_self
  have hlen := h.length_eq
  rw [length_cons] at hlen
  have hdead := h.not_live hmem
  have hpp := h.ring_head
  have hat : s.ppSlots[(s.pos s.allocIndex).toNat]? = some (.slot j) := by
    rw [h.alloc_eq, h.pos_eq, ← h.length_ring]
    exact hpp
  obtain ⟨it, hit, hidx, hused, _⟩ := item_of_payload (h.unused j hmem)
  obtain ⟨pre, last, hfront, hlt, hlast⟩ := exists_last live
  obtain ⟨itl, hitl⟩ := h.item_last hlast
  have hne : last ≠ .slot j := by
    intro he
    rcases hlast with rfl | ⟨e, hmem, rfl⟩
    · cases he
    · exact hdead (Ref.slot.inj he ▸ mem_map_of_mem hmem)
  have hchain : chain live = pre ++ some last :: some .tail :: [] := by
    have := chain_append live []
    rw [append_nil, hfront, append_assoc] at this
    exact this
  have hnew : chain (live ++ [(j, data)]) =
      pre ++ some last :: some (.slot j) :: some .tail :: [] := by
    rw [chain_append, hfront, append_assoc]
    rfl
  have hlinked := h.linked
  have hnodup := nodup_chain h.nodup_live
  have hout : some (Ref.slot j) ∉ chain live := fun hm => hdead (mem_chain.mp hm)
  rw [hchain] at hlinked hnodup hout
  have hprev : s.tail.prev = some last := (linked_split.mp hlinked).2.1.2 .tail rfl
  have hpt : Ref.slot j ≠ .tail := Ref.noConfusion
  have hins := insert_of_free data hat hit hused hprev hitl hpt hlt hne
  rw [hidx] at hins
  refine ⟨_, hins, ?_⟩
  have hpay : (s.linkLast (.slot j) last data).payload =
      Function.update s.payload (.slot j) (some (BitVec.ofNat 32 j, 1#32, data)) := by
    rw [payload_linkLast hit hpt hne, hidx]
  exact {
    below := h.below
    capacity_eq := by rw [linkLast_capacity, h.capacity_eq]
    length_slots := by rw [length_linkLast_slots, h.length_slots]
    length_ring := by rw [linkLast_ppSlots, h.length_ring]
    alloc_eq := by
      rw [linkLast_allocIndex, h.alloc_eq, ofNat_succ, length_append, Nat.add_assoc]
      rfl
    free_eq := by rw [linkLast_freeIndex, h.free_eq]
    ring := by
      have hring := h.ring
      rw [length_cons, window_succ (by rw [h.length_ring]; omega) hpp, map_cons] at hring
      rw [linkLast_ppSlots, length_append, ← Nat.add_assoc]
      exact (cons.inj hring).2
    entries := by
      rw [linkLast_ppSlots]
      exact h.entries
    partition := by
      refine List.Perm.trans ?_ h.partition
      rw [map_append, ← append_assoc]
      exact perm_append_comm
    used := by
      intro e he
      rw [hpay]
      rcases mem_append.mp he with he | he
      · have : Ref.slot e.1 ≠ .slot j := fun heq => hdead (Ref.slot.inj heq ▸ mem_map_of_mem he)
        rw [Function.update_of_ne this]
        exact h.used e he
      · rw [mem_singleton.mp he, Function.update_self]
    unused := by
      intro i hi
      have : Ref.slot i ≠ .slot j := fun heq =>
        (nodup_cons.mp (nodup_append.mp h.nodup).1).1 (Ref.slot.inj heq ▸ hi)
      rw [hpay, Function.update_of_ne this]
      exact h.unused i (mem_cons_of_mem j hi)
    linked := by
      rw [hnew, next_linkLast hit hitl hne, prev_linkLast hit hpt hlt]
      exact hlinked.insert (once_of_nodup hnodup) hout }

private theorem insert_full (h : Holds k freed [] s live) (data : Option δ) :
    s.insert data = .ok (⟨.error .memAlloc, true⟩, s) := by
  have hlen : live.length = 2 ^ k := by
    have := h.length_eq
    rwa [length_nil, Nat.zero_add] at this
  have hpow := Nat.two_pow_pos k
  have hlt : (freed + live.length) % 2 ^ k < s.ppSlots.length := by
    rw [h.length_ring]
    exact Nat.mod_lt _ hpow
  obtain ⟨r, hr⟩ : ∃ r, s.ppSlots[(freed + live.length) % 2 ^ k]? = some r :=
    ⟨_, getElem?_eq_getElem hlt⟩
  obtain ⟨j, hj, rfl⟩ := h.entries r (mem_of_getElem? hr)
  have hlive : j ∈ live.map Prod.fst := by
    rcases (h.lt_iff j).mp hj with hmem | hmem
    · cases hmem
    · exact hmem
  obtain ⟨e, he, rfl⟩ := mem_map.mp hlive
  obtain ⟨it, hit, _, hused, _⟩ := item_of_payload (h.used e he)
  have hat : s.ppSlotAt (s.pos s.allocIndex) = pure (.slot e.1) := by
    rw [ppSlotAt, h.alloc_eq, h.pos_eq, hr]
    rfl
  have hassert : s.pos s.allocIndex = s.pos s.freeIndex := by
    apply BitVec.eq_of_toNat_eq
    rw [h.alloc_eq, h.free_eq, h.pos_eq, h.pos_eq, hlen, Nat.add_mod_right]
  rw [PointerSlot.insert, hat, pure_bind, deref_eq hit, pure_bind, if_pos hused, hassert,
    beq_self_eq_true]
  rfl

theorem lt_capacity (h : Holds k freed free s live) (idx : BitVec 32) :
    idx < s.capacity ↔ idx.toNat < 2 ^ k := by
  rw [BitVec.lt_def, h.capacity_eq]

private theorem neighbours {P Q : Live δ} (h : Holds k freed free s (P ++ (j, d) :: Q))
    (hit : s.item (.slot j) = some it) : ∃ pre before after post,
      chain (P ++ (j, d) :: Q) = pre ++ some before :: some (.slot j) :: some after :: post ∧
      chain (P ++ Q) = pre ++ some before :: some after :: post ∧
      it.prev = some before ∧ it.next = some after ∧
      (∃ itb, s.item before = some itb) ∧ (∃ ita, s.item after = some ita) ∧
      before ≠ .slot j ∧ after ≠ .slot j ∧ after ≠ before := by
  obtain ⟨pre, before, hfront, _, hbefore⟩ := exists_last P
  obtain ⟨after, post, hback, hafter⟩ := exists_first Q
  have hchain : chain (P ++ (j, d) :: Q) =
      pre ++ some before :: some (.slot j) :: some after :: post := by
    rw [chain_append, hfront, append_assoc, ← hback]
    rfl
  have hrest : chain (P ++ Q) = pre ++ some before :: some after :: post := by
    rw [chain_append, hfront, append_assoc, ← hback]
    rfl
  have hlinked := h.linked
  have hnodup := nodup_chain h.nodup_live
  rw [hchain] at hlinked hnodup
  obtain ⟨_, hleft, hright⟩ := linked_split.mp hlinked
  have hprev : s.prev (.slot j) = some before := hleft.2 _ rfl
  have hnext : s.next (.slot j) = some after := (isChain_cons_cons.mp hright).1.1 _ rfl
  rw [PointerSlot.prev, PointerSlot.read, hit] at hprev
  rw [PointerSlot.next, PointerSlot.read, hit] at hnext
  obtain ⟨hb, hrest'⟩ := nodup_cons.mp (nodup_append.mp hnodup).2.1
  have hj := (nodup_cons.mp hrest').1
  refine ⟨pre, before, after, post, hchain, hrest, hprev, hnext, ?_, ?_, ?_, ?_, ?_⟩
  · apply h.item_last
    apply hbefore.imp_right
    rintro ⟨e, he, heq⟩
    exact ⟨e, mem_append_left _ he, heq⟩
  · apply h.item_first
    apply hafter.imp_right
    rintro ⟨e, he, heq⟩
    exact ⟨e, mem_append_right _ (mem_cons_of_mem _ he), heq⟩
  · intro he
    exact hb (he ▸ mem_cons_self)
  · intro he
    exact hj (he ▸ mem_cons_self)
  · intro he
    exact hb (he ▸ mem_cons_of_mem _ mem_cons_self)

variable {idx : BitVec 32}

private theorem remove_live {P Q : Live δ} (h : Holds k freed free s (P ++ (idx.toNat, d) :: Q)) :
    ∃ s', s.remove idx = .ok (⟨.ok (), true⟩, s') ∧
      Holds k (freed + 1) (free ++ [idx.toNat]) s' (P ++ Q) := by
  have hlen := h.length_eq
  rw [length_append, length_cons] at hlen
  have hmem : (idx.toNat, d) ∈ P ++ (idx.toNat, d) :: Q :=
    mem_append_right _ mem_cons_self
  have hlt := h.live_lt hmem
  have hkeys : ((idx.toNat :: (P ++ Q).map Prod.fst)).Nodup := by
    refine (List.Perm.nodup_iff ?_).mp h.nodup_live
    rw [map_append, map_append, map_cons]
    exact perm_middle
  obtain ⟨hdead, _⟩ := nodup_cons.mp hkeys
  have hdead' : idx.toNat ∉ free := fun hfree =>
    h.not_live hfree (mem_map_of_mem hmem)
  obtain ⟨it, hit, hidx, hused, _⟩ := item_of_payload (h.used _ hmem)
  obtain ⟨pre, before, after, post, hchain, hrest, hprev, hnext, ⟨itb, hitb⟩, ⟨ita, hita⟩, hb, ha,
    hne⟩ := h.neighbours hit
  have hfree : (s.pos s.freeIndex).toNat = freed % 2 ^ k := by rw [h.free_eq, h.pos_eq]
  have hin : (s.pos s.freeIndex).toNat < s.ppSlots.length := by
    rw [hfree, h.length_ring]
    exact Nat.mod_lt _ (Nat.two_pow_pos k)
  have hrem := remove_of_used ((h.lt_capacity idx).mpr hlt) hit (by rw [hused]; decide) hin hprev
    hnext hitb hita hb ha
  have hpay := payload_unlink hit hb ha
  rw [hidx] at hpay
  have hpos : freed % 2 ^ k = (freed + 1 + (P ++ Q).length + free.length) % s.ppSlots.length := by
    rw [h.length_ring, length_append, ← Nat.add_mod_right]
    congr 1
    omega
  refine ⟨_, hrem, ?_⟩
  exact {
    below := h.below
    capacity_eq := by rw [unlink_capacity, h.capacity_eq]
    length_slots := by rw [length_unlink_slots, h.length_slots]
    length_ring := by rw [unlink_ppSlots, length_set, h.length_ring]
    alloc_eq := by
      rw [unlink_allocIndex, h.alloc_eq, length_append, length_append, length_cons]
      congr 1
      omega
    free_eq := by rw [unlink_freeIndex, h.free_eq, ofNat_succ]
    ring := by
      have hring := h.ring
      have hshift : freed + (P ++ (idx.toNat, d) :: Q).length = freed + 1 + (P ++ Q).length := by
        rw [length_append, length_append, length_cons]
        omega
      rw [hshift] at hring
      have hone : (free ++ [idx.toNat]).length = free.length + 1 := length_append
      rw [unlink_ppSlots, hfree, hpos, hone, window_set _ (by rw [h.length_ring]; omega), hring,
        map_append]
      rfl
    entries := by
      intro r hr
      rw [unlink_ppSlots] at hr
      rcases mem_or_eq_of_mem_set hr with hr | rfl
      · exact h.entries r hr
      · exact ⟨idx.toNat, hlt, rfl⟩
    partition := by
      refine List.Perm.trans ?_ h.partition
      rw [append_assoc, map_append, map_append, map_cons, singleton_append]
      exact List.Perm.append_left free perm_middle.symm
    used := by
      intro e he
      have : Ref.slot e.1 ≠ .slot idx.toNat := fun heq =>
        hdead (Ref.slot.inj heq ▸ mem_map_of_mem he)
      rw [hpay, Function.update_of_ne this]
      apply h.used e
      rcases mem_append.mp he with he | he
      · exact mem_append_left _ he
      · exact mem_append_right _ (mem_cons_of_mem _ he)
    unused := by
      intro i hi
      rw [hpay]
      rcases mem_append.mp hi with hi | hi
      · have : Ref.slot i ≠ .slot idx.toNat := fun heq => hdead' (Ref.slot.inj heq ▸ hi)
        rw [Function.update_of_ne this]
        exact h.unused i hi
      · rw [mem_singleton.mp hi, Function.update_self]
    linked := by
      have hlinked := h.linked
      have hnodup := nodup_chain h.nodup_live
      rw [hchain] at hlinked hnodup
      rw [next_unlink hit hitb hb ha, prev_unlink hit hita hb ha hne, hrest]
      exact hlinked.remove_update (once_of_nodup hnodup) none none }

theorem unused_of_dead (h : Holds k freed free s live) (hj : j < 2 ^ k)
    (hdead : j ∉ live.map Prod.fst) :
    s.payload (.slot j) = some (BitVec.ofNat 32 j, 0#32, none) :=
  h.unused j (((h.lt_iff j).mp hj).resolve_right hdead)

theorem slotAt_eq (hit : s.item (.slot idx.toNat) = some it) : s.slotAt idx = pure it := by
  have : s.slots[idx.toNat]? = some it := hit
  rw [slotAt, this]
  rfl

variable (h : Holds k freed free s live)

include h

private theorem remove_dead (hdead : idx.toNat ∉ live.map Prod.fst) :
    s.remove idx = .ok (⟨.error (if idx.toNat < 2 ^ k then .memDuplicateFree else .beyondRange),
      false⟩, s) := by
  rw [remove]
  by_cases hlt : idx.toNat < 2 ^ k
  · obtain ⟨it, hit, _, hused, _⟩ := item_of_payload (h.unused_of_dead hlt hdead)
    rw [if_neg (BitVec.not_le.mpr ((h.lt_capacity idx).mpr hlt)), slotAt_eq hit, pure_bind,
      if_pos hused, hused, if_pos hlt]
    rfl
  · have hge : ¬ idx < s.capacity := fun hc => hlt ((h.lt_capacity idx).mp hc)
    rw [if_pos (BitVec.not_lt.mp hge), decide_eq_false hge, if_neg hlt]
    rfl

private theorem get_live (hlive : (idx.toNat, d) ∈ live) : s.get idx = .ok ⟨d, true⟩ := by
  obtain ⟨it, hit, _, hused, hdata⟩ := item_of_payload (h.used _ hlive)
  have hne : ¬ it.inUsed = 0#32 := by
    rw [hused]
    decide
  rw [PointerSlot.get, if_neg (BitVec.not_le.mpr ((h.lt_capacity idx).mpr (h.live_lt hlive))),
    slotAt_eq hit, pure_bind, if_neg hne, pure_bind, hdata]
  rfl

private theorem get_dead
    (hdead : idx.toNat ∉ live.map Prod.fst) : ∃ asserted, s.get idx = .ok ⟨none, asserted⟩ := by
  rw [PointerSlot.get]
  by_cases hlt : idx.toNat < 2 ^ k
  · obtain ⟨it, hit, _, hused, _⟩ := item_of_payload (h.unused_of_dead hlt hdead)
    rw [if_neg (BitVec.not_le.mpr ((h.lt_capacity idx).mpr hlt)), slotAt_eq hit, pure_bind,
      if_pos hused]
    exact ⟨true, rfl⟩
  · have hge : ¬ idx < s.capacity := fun hc => hlt ((h.lt_capacity idx).mp hc)
    rw [if_pos (BitVec.not_lt.mp hge)]
    exact ⟨_, rfl⟩

private theorem iterData_slotsOf {l : Live δ} (hl : ∀ e ∈ l, e ∈ live) :
    (slotsOf l).mapM s.iterData = .ok l := by
  induction l with
  | nil => rfl
  | cons e l ih =>
    have he := hl e mem_cons_self
    obtain ⟨it, hit, hidx, _, hd⟩ := item_of_payload (h.used e he)
    have hone : s.iterData (.slot e.1) = pure e := by
      rw [iterData, deref_eq hit, pure_bind, hidx, hd, h.toNat_ofNat (h.live_lt he)]
    have hrest := ih fun e he => hl e (mem_cons_of_mem _ he)
    rw [slotsOf, map_cons, mapM_cons, hone, pure_bind]
    change ((slotsOf l).mapM s.iterData >>= _) = _
    rw [hrest]
    rfl

private theorem iterate_eq : s.iterate = .ok live := by
  have hlinked := h.linked
  have htail : Linked s.next s.prev (back live) := List.IsChain.tail hlinked
  have hstop : some Ref.tail ∉ (slotsOf live).map some := by simp [slotsOf]
  have hbegin : (back live).head? = some s.iterBegin := by
    obtain ⟨first, post, hfirst, _⟩ := exists_first live
    rw [chain, hfirst] at hlinked
    have hnext : s.next .head = some first := (isChain_cons_cons.mp hlinked).1.1 .head rfl
    rw [hfirst, head?_cons, ← hnext]
    rfl
  have hfuel : (slotsOf live).length < s.slots.length + 1 := by
    have hlen := h.length_eq
    rw [slotsOf, length_map, h.length_slots]
    omega
  have hfollow : follow s.next s.iterEnd (s.slots.length + 1) s.iterBegin = some (slotsOf live) :=
    htail.follow hstop hbegin hfuel
  rw [iterate, hfollow]
  exact h.iterData_slotsOf fun _ he => he

private theorem call_meets (c : Call δ) :
    ∃ r s' freed' free' live', s.call c = .ok (r, s') ∧ Meets (2 ^ k) s s' live c r live' ∧
      Holds k freed' free' s' live' := by
  cases c with
  | insert data =>
    have hlen := h.length_eq
    cases free with
    | nil =>
      rw [length_nil, Nat.zero_add] at hlen
      refine ⟨_, s, freed, [], live, ?_, .full hlen rfl, h⟩
      rw [call, h.insert_full data]
      rfl
    | cons j free =>
      obtain ⟨s', hins, h'⟩ := h.insert_room data
      have hj := h.toNat_ofNat ((h.lt_iff j).mpr (.inl mem_cons_self))
      refine ⟨.inserted ⟨.ok (BitVec.ofNat 32 j), true⟩, s', freed, free, live ++ [(j, data)], ?_,
        ?_, h'⟩
      · rw [call, hins]
        rfl
      · have hroom : live.length < 2 ^ k := by
          rw [length_cons] at hlen
          omega
        have hmeets : Meets (2 ^ k) s s' live (.insert data)
            (.inserted ⟨.ok (BitVec.ofNat 32 j), true⟩)
            (live ++ [((BitVec.ofNat 32 j).toNat, data)]) :=
          .inserted hroom (by rw [hj]; exact h.not_live mem_cons_self)
        rwa [hj] at hmeets
  | remove idx =>
    by_cases hlive : idx.toNat ∈ live.map Prod.fst
    · obtain ⟨⟨j, d⟩, he, hj⟩ := mem_map.mp hlive
      obtain ⟨P, Q, rfl⟩ := append_of_mem he
      obtain rfl : j = idx.toNat := hj
      obtain ⟨s', hrem, h'⟩ := h.remove_live
      refine ⟨_, s', _, _, P ++ Q, ?_, .removed rfl, h'⟩
      rw [call, hrem]
      rfl
    · refine ⟨_, s, _, _, live, ?_, .refused hlive rfl rfl, h⟩
      rw [call, h.remove_dead hlive]
      rfl
  | get idx =>
    by_cases hlive : idx.toNat ∈ live.map Prod.fst
    · obtain ⟨⟨j, d⟩, he, hj⟩ := mem_map.mp hlive
      obtain rfl : j = idx.toNat := hj
      refine ⟨.got ⟨d, true⟩, s, _, _, live, ?_, .got ?_ (fun hdead => absurd hlive hdead) rfl, h⟩
      · rw [call, h.get_live he]
        rfl
      · intro x hx
        have hx' := h.get_live hx
        rw [h.get_live he] at hx'
        exact congrArg Returned.value (Except.ok.inj hx')
    · obtain ⟨asserted, hget⟩ := h.get_dead hlive
      refine ⟨.got ⟨none, asserted⟩, s, _, _, live, ?_, .got ?_ (fun _ => rfl) rfl, h⟩
      · rw [call, hget]
        rfl
      · intro x hx
        exact absurd (mem_map_of_mem hx) hlive
  | iterate =>
    refine ⟨_, s, _, _, live, ?_, .visited rfl, h⟩
    rw [call, h.iterate_eq]
    rfl

theorem calls_follow (cs : List (Call δ)) :
    ∃ replies, s.calls cs = .ok replies ∧ Follows (2 ^ k) s live cs replies := by
  induction cs generalizing freed free s live with
  | nil => exact ⟨[], rfl, rfl⟩
  | cons c cs ih =>
    obtain ⟨r, s', _, _, live', hcall, hmeets, h'⟩ := h.call_meets c
    obtain ⟨replies, hcalls, hfollows⟩ := ih h'
    refine ⟨(r, s') :: replies, ?_, live', hmeets, hfollows⟩
    rw [calls, hcall]
    change (s'.calls cs >>= _) = _
    rw [hcalls]
    rfl

end Holds

theorem toNat_capacity (capacity : BitVec 32) :
    (if 0#32 < capacity then capacity else 1#32).toNat = max 1 capacity.toNat := by
  have hpos : 0#32 < capacity ↔ 0 < capacity.toNat := BitVec.lt_def
  split
  · next h =>
    have := hpos.mp h
    omega
  · next h =>
    have : ¬ 0 < capacity.toNat := fun hc => h (hpos.mpr hc)
    change 1 = _
    omega

private theorem toNat_rounded {c : BitVec 32} {k : Nat} (hc : c.toNat = 2 ^ k) :
    ((nextPowOf2 (c.setWidth 64)).setWidth 32).toNat = 2 ^ k := by
  have hpos := Nat.two_pow_pos k
  have hwide : (c.setWidth 64).toNat = 2 ^ k := by
    rw [BitVec.toNat_setWidth, hc]
    omega
  have hne : c.setWidth 64 ≠ 0#64 := by
    intro hz
    rw [hz, BitVec.toNat_ofNat] at hwide
    omega
  obtain ⟨m, hm, hle, hup⟩ := nextPowOf2_spec hne (by omega)
  rw [hwide] at hle hup
  have hkm : k ≤ m := (Nat.pow_le_pow_iff_right (by omega)).mp hle
  have hup' : 2 ^ m < 2 ^ (k + 1) := by
    omega
  have hmk : m < k + 1 := (Nat.pow_lt_pow_iff_right (by omega)).mp hup'
  obtain rfl : m = k := by omega
  rw [BitVec.toNat_setWidth, hm]
  exact Nat.mod_eq_of_lt (by omega)

theorem init_holds {capacity : BitVec 32} {slotsMem ppSlotsMem : Bool} {k : Nat}
    (hcap : max 1 capacity.toNat = 2 ^ k) (hi : init δ capacity slotsMem ppSlotsMem = .ok s) :
    Holds k 0 (range (2 ^ k)) s [] := by
  have hc := (toNat_capacity capacity).trans hcap
  have hk : 2 ^ k < 2 ^ 32 := hc ▸ BitVec.isLt _
  rw [init] at hi
  simp only [hc] at hi
  split at hi
  · cases hi
  · obtain rfl := Except.ok.inj hi
    refine {
      below := Nat.le_of_lt_succ ((Nat.pow_lt_pow_iff_right (by omega)).mp hk)
      capacity_eq := toNat_rounded hc
      length_slots := by rw [length_map, length_range]
      length_ring := by rw [length_map, length_range]
      alloc_eq := rfl
      free_eq := rfl
      ring := ?_
      entries := ?_
      partition := by rw [map_nil, append_nil]
      used := fun e he => by cases he
      unused := ?_
      linked := ?_ }
    · change window ((range (2 ^ k)).map Ref.slot) 0 _ = _
      rw [window, rotate_zero, length_range, take_of_length_le]
      rw [length_map, length_range]
    · intro r hr
      obtain ⟨j, hj, rfl⟩ := mem_map.mp hr
      exact ⟨j, mem_range.mp hj, rfl⟩
    · intro j hj
      have hj' := mem_range.mp hj
      have hslot : ∀ f : Nat → Item δ, ((range (2 ^ k)).map f)[j]? = some (f j) := by
        intro f
        rw [getElem?_map, getElem?_range hj']
        rfl
      change ((map _ _)[j]?).bind Item.payload = _
      rw [hslot]
      rfl
    · refine isChain_cons_cons.mpr ⟨⟨?_, ?_⟩, isChain_singleton _⟩
      · intro a ha
        cases ha
        rfl
      · intro b hb
        cases hb
        rfl

/-- With a power of two as capacity, every sequence of calls runs without a fault and replies as a
table of live entries in the order of insertion does. -/
theorem pointer_slot_refines (capacity : BitVec 32) (hcap : ∃ k, max 1 capacity.toNat = 2 ^ k)
    (slotsMem ppSlotsMem : Bool) (s : PointerSlot δ)
    (hi : init δ capacity slotsMem ppSlotsMem = .ok s) (cs : List (Call δ)) :
    ∃ replies, s.calls cs = .ok replies ∧ Follows (max 1 capacity.toNat) s [] cs replies := by
  obtain ⟨k, hk⟩ := hcap
  rw [hk]
  exact (init_holds hk hi).calls_follow cs

def twoSlots : PointerSlot Nat :=
  ⟨[⟨none, none, 0#32, 0#32, none⟩, ⟨none, none, 1#32, 0#32, none⟩], [.slot 0, .slot 1], 2#32, 0#32,
    0#32, ⟨none, some .tail, 0#32, 0#32, none⟩, ⟨some .head, none, 0#32, 0#32, none⟩⟩

theorem pointer_slot_refines_two_slots :
    ∃ replies, twoSlots.calls [.insert (some 7), .insert none, .insert (some 8), .remove 0#32,
        .remove 5#32, .insert (some 9), .iterate, .get 0#32] = .ok replies ∧
      Follows 2 twoSlots [] [.insert (some 7), .insert none, .insert (some 8), .remove 0#32,
        .remove 5#32, .insert (some 9), .iterate, .get 0#32] replies :=
  pointer_slot_refines 2#32 ⟨1, rfl⟩ true true twoSlots (by decide +kernel) _

end MuggleC.Memory.SlotOrder

/-! `init` allocates as many entries as it is asked for, but rounds the capacity that the other
functions compare with up to a power of two. -/

namespace MuggleC.Memory.SlotBounds

open Base Foundation.Counter Foundation.DoublyLinked PointerSlot SlotOrder List BitVec

variable {δ : Type}

/-- No sequence of calls uses an index that is not below the number of entries. -/
def InBounds (s : PointerSlot δ) : Prop := ∀ cs idx, s.calls cs ≠ .error (.outside idx)

def opened (δ : Type) (c : BitVec 32) : PointerSlot δ where
  slots := (List.range c.toNat).map fun i => ⟨none, none, BitVec.ofNat 32 i, 0#32, none⟩
  ppSlots := (List.range c.toNat).map Ref.slot
  capacity := (nextPowOf2 (c.setWidth 64)).setWidth 32
  allocIndex := 0#32
  freeIndex := 0#32
  head := ⟨none, some .tail, 0#32, 0#32, none⟩
  tail := ⟨some .head, none, 0#32, 0#32, none⟩

private theorem length_opened (c : BitVec 32) : (opened δ c).slots.length = c.toNat := by
  change (map _ _).length = _
  rw [length_map, length_range]

variable {c : BitVec 32} {s : PointerSlot δ}

theorem get_outside (hlt : c < (opened δ c).capacity) :
    (opened δ c).calls [.get c] = .error (.outside c) := by
  have hnone : (opened δ c).slots[c.toNat]? = none :=
    getElem?_eq_none (Nat.le_of_eq (length_opened c))
  have hat : (opened δ c).slotAt c = .error (.outside c) := by
    rw [slotAt, hnone]
  rw [calls, call, PointerSlot.get, if_neg (BitVec.not_le.mpr hlt), hat]
  rfl

structure Filled (c n : Nat) (s : PointerSlot δ) : Prop where
  capacity_eq : s.capacity = 0#32
  ring : s.ppSlots = (List.range c).map Ref.slot
  alloc_eq : s.allocIndex = BitVec.ofNat 32 n
  unused : ∀ j, n ≤ j → j < c → ∃ i d, s.payload (.slot j) = some (i, 0#32, d)
  last : ∃ r it, s.tail.prev = some r ∧ s.item r = some it ∧ r ≠ .tail ∧
    ∀ j, n ≤ j → r ≠ .slot j

theorem Filled.pos_eq {c n : Nat} (h : Filled c n s) (x : BitVec 32) : s.pos x = x := by
  rw [pos, idxInPowOf2Ring, h.capacity_eq]
  exact and_allOnes

theorem Filled.insert {c n : Nat} (h : Filled c n s) (hc : c < 2 ^ 32)
    (hn : n < c) : ∃ r s', s.insert none = .ok (r, s') ∧ Filled c (n + 1) s' := by
  obtain ⟨i, d, hpay⟩ := h.unused n (Nat.le_refl n) hn
  obtain ⟨it, hit, _, hused, _⟩ := item_of_payload hpay
  obtain ⟨last, itl, hprev, hitl, hlt, hne⟩ := h.last
  have hpt : Ref.slot n ≠ .tail := Ref.noConfusion
  have hat : s.ppSlots[(s.pos s.allocIndex).toNat]? = some (.slot n) := by
    rw [h.pos_eq, h.alloc_eq, toNat_ofNat, Nat.mod_eq_of_lt (by omega), h.ring,
      getElem?_map, getElem?_range hn]
    rfl
  refine ⟨_, _, insert_of_free none hat hit hused hprev hitl hpt hlt (hne n (Nat.le_refl n)), ?_⟩
  refine {
    capacity_eq := by rw [linkLast_capacity, h.capacity_eq]
    ring := by rw [linkLast_ppSlots, h.ring]
    alloc_eq := by rw [linkLast_allocIndex, h.alloc_eq, ofNat_succ]
    unused := ?_
    last := ?_ }
  · intro j hj hjc
    have hjn : Ref.slot j ≠ .slot n := by
      intro he
      have := Ref.slot.inj he
      omega
    obtain ⟨i, d, hold⟩ := h.unused j (by omega) hjc
    refine ⟨i, d, ?_⟩
    rw [payload_linkLast hit hpt (hne n (Nat.le_refl n)), Function.update_of_ne hjn, hold]
  · have hprev' : (s.linkLast (.slot n) last none).prev .tail = some (.slot n) := by
      rw [prev_linkLast hit hpt hlt, point_self rfl]
    have hpay' : (s.linkLast (.slot n) last none).payload (.slot n) =
        some (it.slotIdx, 1#32, none) := by
      rw [payload_linkLast hit hpt (hne n (Nat.le_refl n)), Function.update_self]
    obtain ⟨it', hit', _⟩ := item_of_payload hpay'
    refine ⟨.slot n, it', hprev', hit', hpt, ?_⟩
    intro j hj he
    have := Ref.slot.inj he
    omega

theorem Filled.insert_outside {c : Nat} (h : Filled c c s) (hc : c < 2 ^ 32) :
    s.insert none = .error (.outside (BitVec.ofNat 32 c)) := by
  have hnone : s.ppSlots[(BitVec.ofNat 32 c).toNat]? = none := by
    rw [BitVec.toNat_ofNat, Nat.mod_eq_of_lt hc, h.ring]
    apply List.getElem?_eq_none
    rw [List.length_map, List.length_range]
  rw [PointerSlot.insert, h.pos_eq, h.alloc_eq, ppSlotAt, hnone]
  rfl

theorem Filled.insertions_outside {c n d : Nat} (h : Filled c n s)
    (hc : c < 2 ^ 32) (hd : n + d = c) :
    s.calls (List.replicate (d + 1) (.insert none)) = .error (.outside (BitVec.ofNat 32 c)) := by
  induction d generalizing n s with
  | zero =>
    obtain rfl : n = c := hd
    rw [List.replicate_succ, calls, call, h.insert_outside hc]
    rfl
  | succ d ih =>
    obtain ⟨r, s', hins, h'⟩ := h.insert hc (by omega)
    have hrest := ih h' (by omega)
    rw [List.replicate_succ, calls, call, hins]
    change (s'.calls (List.replicate (d + 1) (.insert none)) >>= _) = _
    rw [hrest]
    rfl

private theorem opened_filled (hz : (opened δ c).capacity = 0#32) :
    Filled c.toNat 0 (opened δ c) where
  capacity_eq := hz
  ring := rfl
  alloc_eq := rfl
  unused := by
    intro j _ hj
    refine ⟨BitVec.ofNat 32 j, none, ?_⟩
    change ((List.map _ (List.range c.toNat))[j]?).bind Item.payload = _
    rw [getElem?_map, getElem?_range hj]
    rfl
  last := ⟨.head, _, rfl, rfl, Ref.noConfusion, fun _ _ => Ref.noConfusion⟩

private theorem capacity_opened (hpos : 0 < c.toNat) (hpow : ¬ ∃ k, c.toNat = 2 ^ k) :
    c < (opened δ c).capacity ∨ (opened δ c).capacity = 0#32 := by
  have hwide : (c.setWidth 64).toNat = c.toNat := by
    rw [toNat_setWidth]
    omega
  have hne : c.setWidth 64 ≠ 0#64 := by
    intro hz
    rw [hz, toNat_ofNat] at hwide
    omega
  obtain ⟨m, hm, hle, hup⟩ := nextPowOf2_spec hne (by omega)
  have hne' : c.toNat ≠ 2 ^ m := fun he => hpow ⟨m, he⟩
  have hcap : (opened δ c).capacity.toNat = 2 ^ m % 2 ^ 32 := by
    change ((nextPowOf2 (c.setWidth 64)).setWidth 32).toNat = _
    rw [toNat_setWidth, hm]
  rcases Nat.lt_or_ge m 32 with hsmall | hlarge
  · have hfit : 2 ^ m < 2 ^ 32 := Nat.pow_lt_pow_right (by omega) hsmall
    rw [lt_def, hcap, Nat.mod_eq_of_lt hfit]
    omega
  · right
    apply eq_of_toNat_eq
    rw [hcap, Nat.mod_eq_zero_of_dvd (Nat.pow_dvd_pow 2 hlarge)]
    rfl

private theorem exists_outside (hpos : 0 < c.toNat) (hpow : ¬ ∃ k, c.toNat = 2 ^ k) :
    ∃ cs idx, (opened δ c).calls cs = .error (.outside idx) := by
  rcases capacity_opened hpos hpow with hlt | hz
  · exact ⟨_, c, get_outside hlt⟩
  · exact ⟨_, _, (opened_filled hz).insertions_outside c.isLt (Nat.zero_add _)⟩

/-- Every index stays below the number of entries exactly if the capacity is a power of two, or
zero, which stands for one. -/
theorem slot_indices_in_bounds (δ : Type) (capacity : BitVec 32) :
    (∀ slotsMem ppSlotsMem (s : PointerSlot δ),
      init δ capacity slotsMem ppSlotsMem = .ok s → InBounds s) ↔
      ∃ k, max 1 capacity.toNat = 2 ^ k := by
  constructor
  · intro hall
    by_contra hpow
    have hc := toNat_capacity capacity
    rw [← hc] at hpow
    obtain ⟨cs, idx, hout⟩ := exists_outside (δ := δ) (by rw [hc]; omega) hpow
    exact hall true true _ rfl cs idx hout
  · rintro ⟨k, hk⟩ slotsMem ppSlotsMem s hi cs idx hout
    obtain ⟨replies, hcalls, _⟩ := (init_holds hk hi).calls_follow cs
    rw [hcalls] at hout
    cases hout

theorem three_entries_read_outside : ∃ s : PointerSlot Nat, init Nat 3#32 true true = .ok s ∧
      s.calls [.get 3#32] = .error (.outside 3#32) :=
  ⟨opened Nat 3#32, rfl, get_outside (by decide)⟩

end MuggleC.Memory.SlotBounds
