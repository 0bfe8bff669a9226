/- source: dsaa/linked_list.c, hash_table.c, array_list.c, heap.c
   digest: The free functions get everything that was stored and not extracted, once each. -/

import MuggleC.Dsaa.ArrayList
import MuggleC.Dsaa.HashMap
import MuggleC.Dsaa.HeapRemove
import MuggleC.Dsaa.LinkedList
import MuggleC.Foundation.Ledger

set_option autoImplicit false

/-! Every call that can free data is given the free functions. What a call adds to a list of freed
data is what comes behind the part that was there before. -/

namespace MuggleC.Dsaa.Releases

open Foundation.Blocks (ends_load field_eq)
open Foundation.Ledger
open Foundation.OrderedMap (TotalOrder)
open Foundation.Program
open Foundation.Transition (run guarded guarded_eq_some run_invariant)
open List Memory NodePool Option

variable {κ ω : Type}

theorem drop_append_length (l l' : List ω) : (l ++ l').drop l.length = l' :=
  drop_left

namespace ListLedger

open LinkedList (State Addr)
open LinkedListCells (Cells Holds)
open LinkedListRuns (Call exec Admissible Answers afterCall answer releases upTo since)

def stored : Call ω → Option Addr → Multiset ω
  | .insert _ data _, some _ => (data.toList : Multiset ω)
  | .append _ data _, some _ => (data.toList : Multiset ω)
  | _, _ => 0

def call (cmp : Option ω → Option ω → Int) (_ : Nat) (s : State ω) (c : Call ω) :
    Option (Book ω × State ω) :=
  ((exec cmp c).run s).map fun r =>
    (⟨stored c r.1, 0, (r.2.vars.freed.drop s.vars.freed.length : Multiset ω)⟩, r.2)

def destroy (s : State ω) : Option (Multiset ω) :=
  ((LinkedList.destroy true).run s).map fun r =>
    (r.2.vars.freed.drop s.vars.freed.length : Multiset ω)

def frees : Call ω → Bool
  | .remove b _ => b
  | .clear b => b
  | _ => true

def Admits (s : State ω) (c : Call ω) : Bool := Admissible s c && frees c

def values (xs : Cells ω) : Multiset ω := (xs.flatMap fun e => e.2.toList : List ω)

theorem values_append (xs ys : Cells ω) : values (xs ++ ys) = values xs + values ys := by
  rw [values, flatMap_append, ← Multiset.coe_add]
  rfl

private theorem values_cons (e : Nat × Option ω) (xs : Cells ω) :
    values (e :: xs) = (e.2.toList : Multiset ω) + values xs := by
  rfl

private theorem values_split (x : Nat) (xs : Cells ω) :
    values xs = values (upTo x xs) + values (since x xs) := by
  rw [← values_append, upTo, since, takeWhile_append_dropWhile]

theorem values_take_drop (xs : Cells ω) : values xs = values (xs.take 1) + values (xs.drop 1) := by
  rw [← values_append, take_append_drop]

theorem balance (cmp : Option ω → Option ω → Int) (xs : Cells ω) {c : Call ω} (hfrees : frees c) :
    (releases xs c : Multiset ω) + values (afterCall xs c) =
      stored c ((answer cmp xs c).map fun e => .node e.1) + values xs := by
  cases c with
  | insert node data got =>
    cases got with
    | none => cases node <;> rfl
    | some a =>
      cases node with
      | none => exact (zero_add _).trans (values_cons _ _)
      | some x =>
        change 0 + values (upTo x xs ++ (a, data) :: since x xs) = (data.toList : Multiset ω) + _
        rw [values_append, values_cons, values_split x xs]
        abel
  | append node data got =>
    cases got with
    | none => cases node <;> rfl
    | some a =>
      cases node with
      | none =>
        change 0 + values (xs ++ [(a, data)]) = (data.toList : Multiset ω) + _
        rw [values_append, values_cons]
        abel
      | some x =>
        change 0 + values (upTo x xs ++ (since x xs).take 1 ++ (a, data) :: (since x xs).drop 1) =
          (data.toList : Multiset ω) + _
        rw [values_append, values_append, values_cons, values_split x xs,
          values_take_drop (since x xs)]
        abel
  | remove b x =>
    obtain rfl : b = true := hfrees
    change values ((since x xs).take 1) + values (upTo x xs ++ (since x xs).drop 1) = 0 + values xs
    rw [values_append, values_split x xs, values_take_drop (since x xs)]
    abel
  | clear b =>
    obtain rfl : b = true := hfrees
    exact (add_zero _).trans (zero_add _).symm
  | find node data => exact congrArg (· + _) rfl
  | next x => rfl
  | prev x => rfl
  | first => rfl
  | last => rfl

private theorem accounts (cmp : Option ω → Option ω → Int) :
    Accounts (call cmp) (fun s c => Admits s c) destroy
      fun s held => ∃ xs, Holds s xs ∧ held = values xs := by
  constructor
  · rintro turns s _ c e s' ⟨xs, hxs, rfl⟩ hc hcall
    obtain ⟨hc, hfrees⟩ := (Bool.and_eq_true _ _).mp hc
    obtain ⟨res, t, hexec, hanswers, ht⟩ := LinkedListRuns.exec_refines cmp hxs hc
    rw [call, hexec] at hcall
    cases hcall
    refine ⟨values (afterCall xs c), ⟨_, ht, rfl⟩, ?_⟩
    rw [hanswers.result, ← balance cmp xs hfrees, hanswers.freed, drop_append_length, add_zero]
  · rintro s _ c ⟨xs, hxs, rfl⟩ hc
    obtain ⟨res, t, hexec, _⟩ :=
      LinkedListRuns.exec_refines cmp hxs ((Bool.and_eq_true _ _).mp hc).1
    refine ⟨0, fun turns _ => ?_⟩
    rw [call, hexec]
    rfl
  · rintro s _ ⟨xs, hxs, rfl⟩
    obtain ⟨_, t, hrun, _, hfreed⟩ := LinkedListCells.clear_ends hxs true
    rw [destroy, LinkedList.destroy, hrun]
    change some ((t.vars.freed.drop s.vars.freed.length : List ω) : Multiset ω) = _
    rw [hfreed, drop_append_length]
    rfl

end ListLedger

namespace ArrayLedger

open ArrayListRuns (Call Result Fits Holds Meets placed elems position insertPlace appendPlace
  call_spec position_lt insertPosition_le)

def stored : Call ω → Result ω → Multiset ω
  | .insert _ data _, .node (some _) => (data.toList : Multiset ω)
  | .append _ data _, .node (some _) => (data.toList : Multiset ω)
  | _, _ => 0

def freed : Result ω → Multiset ω
  | .removed _ l => (l.reduceOption : Multiset ω)
  | .cleared l => (l : Multiset ω)
  | _ => 0

def call (_ : Nat) (l : ArrayList ω) (c : Call ω) : Option (Book ω × ArrayList ω) :=
  (ArrayListRuns.call l c).map fun r => (⟨stored c r.1, 0, freed r.1⟩, r.2)

def destroy (l : ArrayList ω) : Option (Multiset ω) :=
  (l.destroy true).map fun l => (l : Multiset ω)

def frees : Call ω → Bool
  | .remove _ b => b
  | .clear b => b
  | _ => true

def Admits (l : ArrayList ω) (c : Call ω) : Prop := Fits l c ∧ frees c

instance (l : ArrayList ω) (c : Call ω) : Decidable (Admits l c) :=
  inferInstanceAs (Decidable (_ ∧ _))

def values (xs : List (Option ω)) : Multiset ω := (xs.reduceOption : List ω)

theorem values_cons (x : Option ω) (xs : List (Option ω)) :
    values (x :: xs) = (x.toList : Multiset ω) + values xs := by
  cases x with
  | none => exact (zero_add _).symm
  | some x => rfl

theorem values_perm {xs ys : List (Option ω)} (h : xs.Perm ys) : values xs = values ys :=
  Multiset.coe_eq_coe.mpr (h.filterMap id)

variable {p : Nat} {l : ArrayList ω} {index : BitVec 32} {mem : Bool}

private theorem values_placed (xs : List (Option ω)) (data : Option ω) (hp : p ≤ xs.length) :
    values (placed xs data (some p)) = (data.toList : Multiset ω) + values xs := by
  rw [← values_cons]
  exact values_perm (perm_insertIdx data xs hp)

private theorem values_eraseIdx (xs : List (Option ω)) (hp : p < xs.length) :
    values xs[p]?.toList + values (xs.eraseIdx p) = values xs := by
  rw [← values_perm (getElem_cons_eraseIdx_perm hp), values_cons, getElem?_eq_getElem hp]
  exact congrArg (· + _) ((values_cons _ []).trans (add_zero _))

theorem insertPlace_le (h : insertPlace l index mem = some p) :
    p ≤ (elems l).length ∧ (p = (elems l).length → (elems l).length = 0) := by
  unfold insertPlace at h
  split at h
  · cases h
  · exact insertPosition_le h

private theorem appendPlace_le (h : appendPlace l index mem = some p) : p ≤ (elems l).length := by
  obtain ⟨q, hq, rfl⟩ := map_eq_some_iff.mp h
  obtain ⟨hle, hempty⟩ := insertPlace_le hq
  split
  · exact Nat.zero_le _
  · next hne =>
    have hlen : (elems l).length ≠ 0 := fun h0 => hne (length_eq_zero_iff.mp h0)
    omega

private theorem balance {l' : ArrayList ω} {r : Result ω} {c : Call ω} (h : Meets l l' r c)
    (hfrees : frees c) : freed r + values (elems l') = stored c r + values (elems l) := by
  cases c with
  | insert index data mem =>
    obtain ⟨rfl, he⟩ := h
    rw [he]
    cases hp : insertPlace l index mem with
    | none => rfl
    | some p => exact (zero_add _).trans (values_placed _ _ (insertPlace_le hp).1)
  | append index data mem =>
    obtain ⟨rfl, he⟩ := h
    rw [he]
    cases hp : appendPlace l index mem with
    | none => rfl
    | some p => exact (zero_add _).trans (values_placed _ _ (appendPlace_le hp))
  | remove index b =>
    obtain rfl : b = true := hfrees
    dsimp only [Meets] at h
    cases hp : position (elems l).length index.toInt with
    | none =>
      rw [hp] at h
      rw [h.1, h.2]
      rfl
    | some p =>
      rw [hp] at h
      rw [h.1, h.2]
      exact (values_eraseIdx _ (position_lt hp)).trans (zero_add _).symm
  | index index | find index data cmp =>
    obtain ⟨rfl, rfl⟩ := h
    rfl
  | ensureCapacity capacity mem =>
    obtain ⟨rfl, he⟩ := h
    rw [he]
    rfl
  | clear b =>
    obtain rfl : b = true := hfrees
    obtain ⟨rfl, he⟩ := h
    rw [he]
    exact (add_zero _).trans (zero_add _).symm

private theorem accounts : Accounts (call (ω := ω)) Admits destroy
    fun l held => (∃ xs, Holds l xs) ∧ held = values (elems l) := by
  constructor
  · rintro turns l _ c e l' ⟨⟨xs, hxs⟩, rfl⟩ ⟨hfits, hfrees⟩ hcall
    obtain ⟨r, l₁, xs₁, hr, hholds, hmeets⟩ := call_spec hxs c hfits
    rw [call, hr] at hcall
    cases hcall
    refine ⟨_, ⟨⟨xs₁, hholds⟩, rfl⟩, ?_⟩
    rw [add_zero, balance hmeets hfrees]
  · rintro l _ c ⟨⟨xs, hxs⟩, rfl⟩ ⟨hfits, _⟩
    obtain ⟨r, l₁, _, hr, _⟩ := call_spec hxs c hfits
    refine ⟨0, fun turns _ => ?_⟩
    rw [call, hr]
    rfl
  · rintro l _ ⟨⟨xs, hxs⟩, rfl⟩
    obtain ⟨l', hclear, _⟩ := ArrayListRuns.clear_spec hxs true
    rw [destroy, ArrayList.destroy, hclear, hxs.elems_eq]
    rfl

end ArrayLedger

namespace TableLedger

open HashTable (State Addr Freed Frees)
open HashChains (Unlinked Inserted freedData)
open HashMap (Call Admissible Shaped stored exec)
open Foundation.Buckets (Lists)

def both : Frees := ⟨true, true⟩

def storedBy : Call κ ω → Option Addr → Multiset (Freed κ ω)
  | .put key value _, some _ => (freedData both key value : Multiset (Freed κ ω))
  | _, _ => 0

def call (hash : Option κ → BitVec 64) (cmp : Option κ → Option κ → Int) (_ : Nat) (s : State κ ω)
    (c : Call κ ω) : Option (Book (Freed κ ω) × State κ ω) :=
  ((exec hash cmp c).run s).map fun r =>
    (⟨storedBy c r.1, 0, (r.2.vars.freed.drop s.vars.freed.length : Multiset (Freed κ ω))⟩, r.2)

def destroy (s : State κ ω) : Option (Multiset (Freed κ ω)) :=
  ((HashTable.destroy both).run s).map fun r =>
    (r.2.vars.freed.drop s.vars.freed.length : Multiset (Freed κ ω))

def frees : Call κ ω → Bool
  | .remove f _ => f.key && f.value
  | .clear f => f.key && f.value
  | _ => true

def Admits (s : State κ ω) (c : Call κ ω) : Bool := Admissible s c && frees c

private theorem eq_both {f : Frees} (h : (f.key && f.value) = true) : f = both := by
  obtain ⟨hk, hv⟩ := (Bool.and_eq_true _ _).mp h
  obtain ⟨k, v⟩ := f
  obtain rfl : k = true := hk
  obtain rfl : v = true := hv
  rfl

def entryData (e : Option (Option κ × Option ω)) : List (Freed κ ω) :=
  e.elim [] fun e => freedData both e.1 e.2

def held (s : State κ ω) : Multiset (Freed κ ω) :=
  (s.vars.nodes.flatMap fun a => entryData (stored s a) : List (Freed κ ω))

variable {a : Nat} {y : Option Addr} {e : Option κ × Option ω}

theorem flatMap_update {f : Nat → Option (Option κ × Option ω)} {nodes : List Nat}
    (ha : a ∉ nodes) (e : Option (Option κ × Option ω)) :
    (nodes.flatMap fun b => entryData (Function.update f a e b)) =
      nodes.flatMap fun b => entryData (f b) := by
  refine flatMap_congr fun b hb => ?_
  rw [Function.update_of_ne (ne_of_mem_of_not_mem hb ha)]

private theorem held_inserted {s s' : State κ ω} {i : Nat} {pool : Option MemoryPool}
    (hl : Lists s.vars.nodes (stored s)) (hfree : stored s a = none)
    (hs : Inserted s i a pool y e s') :
    held s' = (freedData both e.1 e.2 : Multiset (Freed κ ω)) + held s := by
  have ha : a ∉ s.vars.nodes := by
    intro hmem
    obtain ⟨f, hf⟩ := (hl.mem_iff a).mp hmem
    rw [hfree] at hf
    cases hf
  rw [held, HashMap.stored_update hs.entry_eq, hs.nodes_eq, flatMap_cons, flatMap_update ha,
    Function.update_self, ← Multiset.coe_add]
  rfl

private theorem held_unlinked {s s' : State κ ω} {x : Addr} {l : List (Freed κ ω)}
    (hl : Lists s.vars.nodes (stored s)) (he : stored s a = some e) (hs : Unlinked s a x y l s') :
    (freedData both e.1 e.2 : Multiset (Freed κ ω)) + held s' = held s := by
  have ha : a ∈ s.vars.nodes := (hl.mem_iff a).mpr ⟨e, he⟩
  have hperm : (s.vars.nodes.flatMap fun b => entryData (stored s b)).Perm
      ((a :: s.vars.nodes.erase a).flatMap fun b => entryData (stored s b)) :=
    (perm_cons_erase ha).flatMap_right _
  rw [held, held, HashMap.stored_update hs.entry_eq, hs.nodes_eq,
    flatMap_update (List.Nodup.not_mem_erase hl.nodup), Multiset.coe_eq_coe.mpr hperm,
    flatMap_cons, he, Multiset.coe_add]
  rfl

def Passed (s t : State κ ω) : Prop :=
  ∃ l, t.vars.freed = s.vars.freed ++ l ∧ (l : Multiset (Freed κ ω)) + held t = held s

theorem passed_unlinked {s t t' : State κ ω} {x : Addr} (h : Passed s t)
    (hl : Lists t.vars.nodes (stored t)) (he : stored t a = some e)
    (hs : Unlinked t a x y (freedData both e.1 e.2) t') : Passed s t' := by
  obtain ⟨l, hfreed, hsum⟩ := h
  refine ⟨l ++ freedData both e.1 e.2, ?_, ?_⟩
  · rw [hs.freed_eq, hfreed, append_assoc]
  · rw [← Multiset.coe_add, add_assoc, held_unlinked hl he hs, hsum]

theorem passed_refl (s : State κ ω) : Passed s s := ⟨[], (append_nil _).symm, zero_add _⟩

section Calls

variable {hash : Option κ → BitVec 64} {s : State κ ω} {chains : Nat → List Nat}
  (cmp : Option κ → Option κ → Int) (h : Shaped hash s chains)

include cmp h

theorem search_ends (key : Option κ)
    {i : Nat} (hi : i < s.vars.tableSize) {n : HashTable.Node κ ω} (hhead : s.heap (.head i) = some n) :
    Ends (HashTable.search cmp key (s.vars.nodes.length + 1) n.next) s fun _ s' => s' = s := by
  have hfirst := h.head_next hi
  rw [show HashTable.next s (.head i) = n.next from field_eq hhead] at hfirst
  refine (HashChains.search_ends cmp key (List.IsChain.tail (h.linked i hi)) hfirst ?_
    (h.length_lt hi)).mono fun _ _ hr => hr.1
  intro a ha
  obtain ⟨e, he, _⟩ := h.filed.stored_of_mem i hi a ha
  exact ⟨e, he⟩

theorem find_ends (key : Option κ) : Ends (HashTable.find hash cmp key) s fun _ s' => s' = s := by
  have hi := Nat.mod_lt (hash key).toNat h.size_pos
  obtain ⟨n, hhead⟩ := h.heap_of_mem hi (HashMap.mem_chain.mpr (.inl rfl))
  rw [HashTable.find, ends_bind, HashTable.ends_bucket, ends_bind, ends_load hhead,
    ends_bind, HashTable.ends_turns]
  exact search_ends cmp h key hi hhead

private theorem put_ends (key : Option κ)
    (value : Option ω) {got : Option Nat} (hgot : Admissible s (.put key value got)) :
    Ends (HashTable.put hash cmp key value got) s fun res s' => res = none ∧ s' = s ∨
      res.isSome ∧ held s' = (freedData both key value : Multiset (Freed κ ω)) + held s ∧
        s'.vars.freed = s.vars.freed ∧ ∃ chains', Shaped hash s' chains' := by
  obtain ⟨i, hi⟩ : ∃ i, i = (hash key).toNat % s.vars.tableSize := ⟨_, rfl⟩
  have hlt : i < s.vars.tableSize := hi ▸ Nat.mod_lt _ h.size_pos
  obtain ⟨n, hhead⟩ := h.heap_of_mem hlt (HashMap.mem_chain.mpr (.inl rfl))
  rw [HashTable.put, ends_bind, HashTable.ends_bucket, ← hi, ends_bind, ends_load hhead,
    ends_bind, HashTable.ends_turns, ends_bind]
  apply (search_ends cmp h key hlt hhead).mono
  rintro found _ rfl
  cases found with
  | some b => exact ends_pure.mpr (.inl ⟨rfl, rfl⟩)
  | none =>
    cases got with
    | none => exact ends_pure.mpr (.inl ⟨rfl, rfl⟩)
    | some a =>
      obtain ⟨pool, hgranted⟩ := h.granted hgot
      apply (h.putNew_ends hlt hhead hgranted key value).mono
      rintro r s' ⟨rfl, hs'⟩
      exact .inr ⟨rfl, held_inserted h.nodes hgranted.stored_eq_none hs', hs'.freed_eq, _,
        h.shaped_inserted hi hgranted hs'⟩

private theorem exec_ends {c : Call κ ω} (hc : Admits s c) : Ends (exec hash cmp c) s fun res s' =>
      (∃ l, s'.vars.freed = s.vars.freed ++ l ∧
        (l : Multiset (Freed κ ω)) + held s' = storedBy c res + held s) ∧
      ∃ chains', Shaped hash s' chains' := by
  obtain ⟨hc, hfrees⟩ := (Bool.and_eq_true _ _).mp hc
  cases c with
  | find key =>
    apply (find_ends cmp h key).mono
    rintro r _ rfl
    exact ⟨⟨[], (append_nil _).symm, rfl⟩, chains, h⟩
  | put key value got =>
    apply (put_ends cmp h key value hc).mono
    rintro r s' (⟨rfl, rfl⟩ | ⟨hr, hheld, hfreed, hs'⟩)
    · exact ⟨⟨[], (append_nil _).symm, rfl⟩, chains, h⟩
    · obtain ⟨b, rfl⟩ := isSome_iff_exists.mp hr
      exact ⟨⟨[], hfreed.trans (append_nil _).symm, (zero_add _).trans hheld⟩, hs'⟩
  | remove f a =>
    obtain rfl := eq_both hfrees
    obtain ⟨n, hn⟩ := isSome_iff_exists.mp hc
    have he : stored s a = some (n.key, n.value) := field_eq hn
    obtain ⟨hi, ha⟩ := h.filed.mem_of_stored a _ he
    rw [exec, ends_bind]
    apply (h.remove_ends both hi ha he).mono
    rintro _ s' ⟨x, y, hs, hs'⟩
    obtain ⟨l, hfreed, hsum⟩ := passed_unlinked (passed_refl s) h.nodes he hs
    exact ends_pure.mpr ⟨⟨l, hfreed, hsum.trans (zero_add _).symm⟩, _, hs'⟩
  | clear f =>
    obtain rfl := eq_both hfrees
    rw [exec, ends_bind]
    apply (HashMap.clear_ends (I := Passed s)
      (fun _ _ _ _ _ _ hp hl he hs => passed_unlinked hp hl he hs) h (passed_refl s)).mono
    rintro _ s' ⟨⟨l, hfreed, hsum⟩, _, _, hs'⟩
    exact ends_pure.mpr ⟨⟨l, hfreed, hsum.trans (zero_add _).symm⟩, hs'⟩

end Calls

private theorem accounts (hash : Option κ → BitVec 64) (cmp : Option κ → Option κ → Int) :
    Accounts (call (ω := ω) hash cmp) (fun s c => Admits s c) destroy
      fun s h => (∃ chains, Shaped hash s chains) ∧ h = held s := by
  constructor
  · rintro turns s _ c e s' ⟨⟨chains, h⟩, rfl⟩ hc hcall
    obtain ⟨res, t, hexec, ⟨l, hfreed, hsum⟩, ht⟩ := exec_ends cmp h hc
    rw [call, hexec] at hcall
    cases hcall
    refine ⟨_, ⟨ht, rfl⟩, ?_⟩
    rw [hfreed, drop_append_length, add_zero, hsum]
  · rintro s _ c ⟨⟨chains, h⟩, rfl⟩ hc
    obtain ⟨res, t, hexec, _⟩ := exec_ends cmp h hc
    refine ⟨0, fun turns _ => ?_⟩
    rw [call, hexec]
    rfl
  · rintro s _ ⟨⟨chains, h⟩, rfl⟩
    obtain ⟨_, t, hrun, ⟨l, hfreed, hsum⟩, hnodes, _⟩ := HashMap.clear_ends (I := Passed s)
      (fun _ _ _ _ _ _ hp hl he hs => passed_unlinked hp hl he hs) h (passed_refl s)
    rw [destroy, HashTable.destroy, hrun]
    change some ((t.vars.freed.drop s.vars.freed.length : List (Freed κ ω)) : Multiset (Freed κ ω)) = _
    rw [hfreed, drop_append_length, ← hsum, held, hnodes]
    exact congrArg some (add_zero _).symm

end TableLedger

namespace HeapLedger

open Heap (Node Reply)
open HeapRuns (Inv Fits pairs cell Meets)
open Foundation.BinaryHeap

inductive Call (κ ω : Type)
  | base (c : Heap.Call κ ω)
  | remove (tmp : Int)
  | clear

def nodeData (n : Node κ ω) : Multiset (κ ⊕ ω) :=
  (n.key.toList.map Sum.inl ++ n.value.toList.map Sum.inr : List (κ ⊕ ω))

def stored : Heap.Call κ ω → Reply κ ω → Multiset (κ ⊕ ω)
  | .insert key value _, .done true => nodeData ⟨key, value⟩
  | _, _ => 0

def taken : Reply κ ω → Multiset (κ ⊕ ω)
  | .extracted (some node) => nodeData node
  | _ => 0

def call (cmp : Option κ → Option κ → Int) (turns : Nat) (h : Heap κ ω) :
    Call κ ω → Option (Book (κ ⊕ ω) × Heap κ ω)
  | .base c => (h.call cmp c).map fun r => (⟨stored c r.1, taken r.1, 0⟩, r.2)
  | .remove tmp => (Heap.remove cmp true true turns h tmp).bind fun r => r.outcome.map fun o =>
    (⟨0, 0, (r.freedKeys.map Sum.inl ++ r.freedValues.map Sum.inr : List (κ ⊕ ω))⟩, o.2)
  | .clear => (h.clear true true).map fun r => (⟨0, 0, (r.1 : Multiset (κ ⊕ ω))⟩, r.2)

def destroy (h : Heap κ ω) : Option (Multiset (κ ⊕ ω)) :=
  (h.destroy true true).map fun r => (r.1 : Multiset (κ ⊕ ω))

def Admits (h : Heap κ ω) : Call κ ω → Prop
  | .base c => Fits h c
  | .remove _ => True
  | .clear => True

instance (h : Heap κ ω) (c : Call κ ω) : Decidable (Admits h c) :=
  match c with
  | .base c => inferInstanceAs (Decidable (Fits h c))
  | .remove _ => inferInstanceAs (Decidable True)
  | .clear => inferInstanceAs (Decidable True)

def held (h : Heap κ ω) : Multiset (κ ⊕ ω) := (pairs h).bind nodeData

variable {h : Heap κ ω} {cmp : Option κ → Option κ → Int}

theorem held_of_pairs {h' : Heap κ ω} {n : Node κ ω} (hp : pairs h = n ::ₘ pairs h') :
    held h = nodeData n + held h' := by
  rw [held, hp, Multiset.cons_bind]
  rfl

private theorem balance {h' : Heap κ ω} {c : Heap.Call κ ω}
    {r : Reply κ ω} (hm : Meets cmp h h' c r) : taken r + held h' = stored c r + held h := by
  cases hm with
  | inserted hpairs => exact (zero_add _).trans (held_of_pairs hpairs)
  | refused hsame | empty _ hsame | notEnsured hsame => rw [hsame]; rfl
  | extracted hpairs _ => exact (held_of_pairs hpairs).symm.trans (zero_add _).symm
  | ensured hpairs => exact congrArg (fun p => 0 + Multiset.bind p nodeData) hpairs

private theorem clearNodes_spec {v : Nat → Node κ ω} (n i : Nat) {nodes : Heap.Nodes κ ω}
    (hs : ∀ k, i ≤ k → k < i + n → nodes[k]? = some (some (v k))) :
    ∃ freed nodes', Heap.clearNodes true true n i nodes = some (freed, nodes') ∧
      (freed : Multiset (κ ⊕ ω)) = (((range' i n).map v : List _) : Multiset _).bind nodeData ∧
      nodes'.length = nodes.length := by
  induction n generalizing i nodes with
  | zero => exact ⟨[], nodes, rfl, rfl, rfl⟩
  | succ n ih =>
    have hi := hs i (Nat.le_refl i) (by omega)
    have hlt : i < nodes.length := (List.getElem?_eq_some_iff.mp hi).1
    have hrest : ∀ k, i + 1 ≤ k → k < i + 1 + n →
        (nodes.set i (some ⟨none, none⟩))[k]? = some (some (v k)) := by
      intro k h1 h2
      rw [getElem?_set_ne (by omega)]
      exact hs k (by omega) (by omega)
    obtain ⟨freed, nodes', hrun, hfreed, hlen⟩ := ih (i + 1) hrest
    refine ⟨(v i).key.toList.map Sum.inl ++ (v i).value.toList.map Sum.inr ++ freed, nodes',
      ?_, ?_, ?_⟩
    · simp only [Heap.clearNodes, Foundation.CellArray.load_eq hi, Foundation.CellArray.store_eq hlt, hrun,
        bind_eq_bind, bind_some, if_true]
    · rw [← Multiset.coe_add, hfreed, range'_succ, map_cons, ← Multiset.cons_coe,
        Multiset.cons_bind]
      rfl
    · rw [hlen, length_set]

private theorem clear_spec (hi : Inv cmp h) : ∃ freed h', h.clear true true = some (freed, h') ∧
      (freed : Multiset (κ ⊕ ω)) = held h ∧ Inv cmp h' ∧ held h' = 0 := by
  obtain ⟨freed, nodes, hrun, hfreed, hlen⟩ := clearNodes_spec (v := cell h) h.size 1
    fun k h1 h2 => hi.stores k h1 (by omega) (by omega)
  refine ⟨freed, { h with size := 0, nodes := nodes }, ?_, hfreed, ?_, ?_⟩
  · rw [Heap.clear, hrun]
    rfl
  · refine HeapRuns.inv_of_stores (v := cell h) hi.capacity_pos (hlen.trans hi.length_eq)
      (Nat.zero_le _) ?_ ?_
    · intro k h1 hk
      change k ≤ 0 at hk
      omega
    · intro k h2 hk
      change k ≤ 0 at hk
      omega
  · rfl

theorem accounts (ho : TotalOrder cmp) :
    Accounts (call (ω := ω) cmp) Admits destroy fun h p => Inv cmp h ∧ p = held h := by
  constructor
  · rintro turns h _ c e h' ⟨hi, rfl⟩ hc hcall
    cases c with
    | base c =>
      obtain ⟨r, h₁, hr, hi₁, hmeets⟩ := HeapRuns.call_spec ho hi c hc
      rw [call, hr] at hcall
      cases hcall
      refine ⟨_, ⟨hi₁, rfl⟩, ?_⟩
      rw [zero_add, balance hmeets]
    | remove tmp =>
      obtain ⟨r, hr, hout⟩ := bind_eq_some_iff.mp hcall
      obtain ⟨o, ho', hbook⟩ := map_eq_some_iff.mp hout
      cases hbook
      by_cases hin : 1 ≤ tmp ∧ tmp ≤ h.size
      · obtain ⟨_, h₁, hi₁, hpairs, _, hsame⟩ := HeapRemove.remove_inv ho hi hin
        obtain ⟨ho₂, hkeys, hvalues⟩ := hsame turns r o hr ho'
        rw [ho₂]
        refine ⟨_, ⟨hi₁, rfl⟩, ?_⟩
        rw [held_of_pairs hpairs, hkeys, hvalues]
        exact (congrArg (· + _) (add_zero _)).trans (zero_add _).symm
      · rw [Heap.remove, if_pos (by omega)] at hr
        cases hr
        cases ho'
        exact ⟨_, ⟨hi, rfl⟩, rfl⟩
    | clear =>
      obtain ⟨freed, h₁, hclear, hfreed, hi₁, hzero⟩ := clear_spec hi
      rw [call, hclear] at hcall
      cases hcall
      refine ⟨_, ⟨hi₁, rfl⟩, ?_⟩
      rw [hzero, add_zero, add_zero, zero_add, hfreed]
  · rintro h _ c ⟨hi, rfl⟩ hc
    cases c with
    | base c =>
      obtain ⟨r, h₁, hr, _⟩ := HeapRuns.call_spec ho hi c hc
      refine ⟨0, fun turns _ => ?_⟩
      rw [call, hr]
      rfl
    | remove tmp =>
      by_cases hin : 1 ≤ tmp ∧ tmp ≤ h.size
      · obtain ⟨bound, h₁, _, _, hends, _⟩ := HeapRemove.remove_inv ho hi hin
        refine ⟨bound, fun turns hle => ?_⟩
        obtain ⟨r, hr, hout⟩ := hends turns hle
        rw [call, hr, bind_some, hout]
        rfl
      · refine ⟨0, fun turns _ => ?_⟩
        rw [call, Heap.remove, if_pos (by omega)]
        rfl
    | clear =>
      obtain ⟨freed, h₁, hclear, _⟩ := clear_spec hi
      refine ⟨0, fun turns _ => ?_⟩
      rw [call, hclear]
      rfl
  · rintro h _ ⟨hi, rfl⟩
    obtain ⟨freed, h₁, hclear, hfreed, _⟩ := clear_spec hi
    rw [destroy, Heap.destroy, hclear]
    exact congrArg some hfreed

/-- Also with removals and clears among the calls the heap stays in order, and the next call returns
and changes the pairs as it should. -/
theorem ordered_with_removals (ho : TotalOrder cmp) {capacity : BitVec 64} {mem : Bool}
    {start : Heap κ ω} (hinit : Heap.init (some cmp) capacity mem = some start)
    (hfits : Heap.nodeSize * (capacity.toNat + 1) < 2 ^ 64) {turns : Nat} {cs : List (Call κ ω)}
    {book : Book (κ ⊕ ω)} (hrun : run (guarded (booked (call cmp turns)) fun q c => Admits q.1 c)
      (start, .empty) cs = some (h, book)) : HeapRuns.Ordered cmp h ∧ ∀ c, Fits h c →
      ∃ r h', h.call cmp c = some (r, h') ∧ HeapRuns.Ordered cmp h' ∧ Meets cmp h h' c r := by
  have hi : Inv cmp h := by
    refine run_invariant (I := fun q => Inv cmp q.1) ?_ (HeapRuns.init_inv hinit hfits) hrun
    intro q c q' hq hstep
    obtain ⟨hc, hstep⟩ := guarded_eq_some.mp hstep
    obtain ⟨⟨e, h'⟩, hcall, rfl⟩ := map_eq_some_iff.mp hstep
    obtain ⟨_, ⟨hi', _⟩, _⟩ := (accounts ho).step turns q.1 _ c e h' ⟨hq, rfl⟩ hc hcall
    exact hi'
  refine ⟨hi.ordered, fun c hc => ?_⟩
  obtain ⟨r, h', hcall, hi', hmeets⟩ := HeapRuns.call_spec ho hi c hc
  exact ⟨r, h', hcall, hi'.ordered, hmeets⟩

end HeapLedger

/-- In every run of calls on a linked list, a hash table, an array list and a heap, whose sizes do not
wrap around, all that was stored and not extracted has been
freed once when `destroy` returns, and nothing else has; and no call gets stuck on the way. -/
theorem released_exactly_once (heapCmp : Option κ → Option κ → Int) (ho : TotalOrder heapCmp)
    (hash : Option κ → BitVec 64) (tableCmp : Option κ → Option κ → Int)
    (listCmp : Option ω → Option ω → Int) :
    (∀ capacity poolMem mem fresh, LinkedList.init ω capacity poolMem mem = some fresh →
      SizeFits fresh.vars.pool →
      ReleasedOnce (ListLedger.call listCmp) (fun s c => ListLedger.Admits s c) ListLedger.destroy
        fresh) ∧
    (∀ tableSize capacity poolMem mem headsMem fresh,
      HashTable.init κ ω true tableSize capacity poolMem mem headsMem = some (some fresh) →
      SizeFits fresh.vars.pool →
      ReleasedOnce (TableLedger.call hash tableCmp) (fun s c => TableLedger.Admits s c)
        TableLedger.destroy fresh) ∧
    (∀ capacity mem start, ArrayList.init ω capacity mem = some start →
      ArrayList.nodeSize * capacity.toNat < 2 ^ 64 →
      ReleasedOnce ArrayLedger.call ArrayLedger.Admits ArrayLedger.destroy start) ∧
    ∀ capacity mem start, Heap.init (κ := κ) (ω := ω) (some heapCmp) capacity mem = some start →
      Heap.nodeSize * (capacity.toNat + 1) < 2 ^ 64 →
      ReleasedOnce (HeapLedger.call heapCmp) HeapLedger.Admits HeapLedger.destroy start := by
  refine ⟨?_, ?_, ?_, ?_⟩
  · intro capacity poolMem mem fresh hinit hfit
    exact (ListLedger.accounts listCmp).releasedOnce
      ⟨[], (LinkedListRuns.init_holds hinit hfit).1, rfl⟩
  · intro tableSize capacity poolMem mem headsMem fresh hinit hfit
    refine (TableLedger.accounts hash tableCmp).releasedOnce
      ⟨HashMap.init_good hash HashMap.never hinit hfit, ?_⟩
    rw [TableLedger.held, (HashMap.init_spec hinit).2.2.2.1]
    rfl
  · intro capacity mem start hinit hfits
    have hholds := ArrayListRuns.init_holds hinit hfits
    refine ArrayLedger.accounts.releasedOnce ⟨⟨[], hholds⟩, ?_⟩
    rw [hholds.elems_eq]
    rfl
  · intro capacity mem start hinit hfits
    refine (HeapLedger.accounts ho).releasedOnce ⟨HeapRuns.init_inv hinit hfits, ?_⟩
    have hsize : start.size = 0 := by
      unfold Heap.init at hinit
      dsimp only at hinit
      generalize (if capacity.toNat = 0 then 8 else capacity.toNat) = c at hinit
      split at hinit
      · cases hinit
      · rw [← Option.some.inj hinit]
    rw [HeapLedger.held, HeapRuns.pairs, hsize]
    rfl

def someHeapCalls : List (HeapLedger.Call Nat Nat) :=
  [.base (.insert (some 5) (some 50) true), .base (.insert (some 3) none true),
    .base (.insert (some 4) (some 40) true), .remove 3, .base .extract, .clear,
    .base (.insert (some 7) (some 70) true)]

theorem released_exactly_once_some_calls :
    ∃ start s book, Heap.init (some HeapRuns.byNumber) 1#64 true = some start ∧
      run (guarded (booked (HeapLedger.call HeapRuns.byNumber 10)) fun q c =>
        HeapLedger.Admits q.1 c) (start, .empty) someHeapCalls = some (s, book) ∧
      ∃ last, HeapLedger.destroy s = some last ∧ book.freed + last + book.taken = book.stored := by
  have hinit : Heap.init (some HeapRuns.byNumber) 1#64 true =
      some (⟨1, 0, [none, none]⟩ : Heap Nat Nat) := by decide +kernel
  have hsome : (run (guarded (booked (HeapLedger.call HeapRuns.byNumber 10)) fun q c =>
      HeapLedger.Admits q.1 c) (⟨1, 0, [none, none]⟩, .empty) someHeapCalls).isSome := by
    decide +kernel
  obtain ⟨⟨s, book⟩, hrun⟩ := Option.isSome_iff_exists.mp hsome
  exact ⟨_, s, book, hinit, hrun, ((released_exactly_once HeapRuns.byNumber
    HeapRuns.byNumber_total (fun _ => 0#64) HeapRuns.byNumber HeapRuns.byNumber).2.2.2 1#64 true _
    hinit (by decide) 10 someHeapCalls s book hrun).1⟩

theorem ordered_with_removals_some_calls :
    ∃ h book, run (guarded (booked (HeapLedger.call HeapRuns.byNumber 10)) fun q c =>
      HeapLedger.Admits q.1 c) (⟨1, 0, [none, none]⟩, .empty) someHeapCalls = some (h, book) ∧
      HeapRuns.Ordered HeapRuns.byNumber h := by
  obtain ⟨⟨h, book⟩, hrun⟩ := Option.isSome_iff_exists.mp (by decide +kernel :
    (run (guarded (booked (HeapLedger.call HeapRuns.byNumber 10)) fun q c =>
      HeapLedger.Admits q.1 c) (⟨1, 0, [none, none]⟩, .empty) someHeapCalls).isSome)
  exact ⟨h, book, hrun, (HeapLedger.ordered_with_removals HeapRuns.byNumber_total
    (by decide +kernel : Heap.init _ 1#64 true = some ⟨1, 0, [none, none]⟩) (by decide) hrun).1⟩

/-- The size in bytes of `2 ^ 61` nodes wraps around to zero, and the first datum is stored behind the
memory, where no call finds it. -/
theorem wrapped_array_loses_datum :
    ∃ l : ArrayList Nat, ArrayList.init Nat (BitVec.ofNat 64 (2 ^ 61)) true = some l ∧
      (ArrayLedger.call 0 l (.insert 0#32 (some 1) true)).isNone :=
  ⟨⟨[], 2 ^ 61, 0⟩, by decide +kernel, by decide +kernel⟩

end MuggleC.Dsaa.Releases
