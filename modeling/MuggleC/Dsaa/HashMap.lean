/- source: dsaa/hash_table.c
   digest: The hash table is the finite map that its calls make, in every state that they reach. -/

import Mathlib.Data.List.Perm.Subperm
import MuggleC.Dsaa.HashTable
import MuggleC.Foundation.OrderedMap
import MuggleC.Foundation.Transition

set_option autoImplicit false

namespace MuggleC.Dsaa.HashMap

open Foundation.Blocks Foundation.Buckets Foundation.DoublyLinked Foundation.OrderedMap
open Foundation.Program
open Foundation.Transition (run guarded guarded_eq_some run_invariant)
open HashTable HashChains Function List Memory NodePool
open Option hiding mem_map

variable {κ ω : Type}

/-- From keys to the entry with the same key. -/
abbrev KeyMap (κ ω : Type) := Option κ → Option (Option κ × Option ω)

def stored (s : State κ ω) : Nat → Option (Option κ × Option ω) := entry s ∘ Addr.node

variable {s : State κ ω} {c : List Nat} {cmpGiven : Bool}

theorem stored_update {s' : State κ ω} {a : Nat} {e : Option (Option κ × Option ω)}
    (h : entry s' = update (entry s) (.node a) e) : stored s' = update (stored s) a e := by
  rw [stored, h]
  exact update_comp_eq_of_injective _ (fun _ _ => Addr.node.inj) _ _

/-- The buckets are linked chains of all nodes, every key is in its own bucket and no key twice, and
the entries are those of the map. No assertion has failed. -/
structure Holds (hash : Option κ → BitVec 64) (cmp : Option κ → Option κ → Int) (s : State κ ω)
    (m : KeyMap κ ω) (chains : Nat → List Nat) : Prop where
  size_pos : 0 < s.vars.tableSize
  heads : ∀ i, i < s.vars.tableSize → ∃ e, entry s (.head i) = some e
  linked : ∀ i, i < s.vars.tableSize → Linked (next s) (prev s) (chain i (chains i))
  filed : Filed s.vars.tableSize (fun key => (hash key).toNat % s.vars.tableSize) (stored s) chains
  keyed : Keyed cmp (stored s) m
  nodes : Lists s.vars.nodes (stored s)
  asserts : s.vars.failedAsserts = 0
  backed : Backed s.vars.pool (· ∈ s.vars.nodes)

def never (_ _ : Option κ) : Int := 1

abbrev Shaped (hash : Option κ → BitVec 64) (s : State κ ω) (chains : Nat → List Nat) : Prop :=
  Holds hash never s (fun _ => none) chains

theorem keyed_never (f : Nat → Option (Option κ × Option ω)) : Keyed never f fun _ => none := by
  constructor
  · intro a b e e' _ _ he
    cases he
  · intro k e
    exact iff_of_false (some_ne_none e).symm fun he => by cases he.2

theorem keyed_empty {cmp : Option κ → Option κ → Int} {f : Nat → Option (Option κ × Option ω)}
    (h : ∀ a e, f a ≠ some e) : Keyed cmp f fun _ => none := by
  constructor
  · intro a b e e' he
    exact absurd he (h a e)
  · intro k e
    exact iff_of_false (some_ne_none e).symm fun ⟨⟨a, ha⟩, _⟩ => h a e ha

def Good (hash : Option κ → BitVec 64) (cmp : Option κ → Option κ → Int) (s : State κ ω)
    (m : KeyMap κ ω) : Prop :=
  ∃ chains, Holds hash cmp s m chains

/-- A call, with the block that the allocator returns for an insertion. -/
inductive Call (κ ω : Type)
  | find (key : Option κ)
  | put (key : Option κ) (value : Option ω) (got : Option Nat)
  | remove (frees : Frees) (node : Nat)
  | clear (frees : Frees)

/-- A block for a new node is one that the pool or `malloc` may return; a node to remove is in the
table. -/
def Admissible (s : State κ ω) : Call κ ω → Bool
  | .find _ => true
  | .put _ _ got => got.all (Returns s.vars.pool fun a => (s.heap (.node a)).isSome)
  | .remove _ node => (s.heap (.node node)).isSome
  | .clear _ => true

section Calls

variable (hash : Option κ → BitVec 64) (cmp : Option κ → Option κ → Int)

def exec : Call κ ω → Op κ ω (Option Addr)
  | .find key => find hash cmp key
  | .put key value got => put hash cmp key value got
  | .remove frees node => do
    remove frees (.node node)
    pure none
  | .clear frees => do
    clear frees
    pure none

def afterCall (s : State κ ω) (m : KeyMap κ ω) : Call κ ω → KeyMap κ ω
  | .find _ => m
  | .put key value got =>
    if (m key).isSome ∨ got = none then m else added cmp m (key, value)
  | .remove _ node =>
    match entry s (.node node) with
    | none => m
    | some e => erased cmp m e.1
  | .clear _ => fun _ => none

/-- What a call returns, frees and leaves alone. -/
def Answers (s : State κ ω) (m : KeyMap κ ω) (s' : State κ ω) : Call κ ω → Option Addr → Prop
  | .find key, res => s' = s ∧
      match m key with
      | none => res = none
      | some e => ∃ a, res = some (.node a) ∧ entry s (.node a) = some e
  | .put key value got, res =>
    if (m key).isSome ∨ got = none then res = none ∧ s' = s
    else ∃ a, got = some a ∧ res = some (.node a) ∧ entry s' (.node a) = some (key, value)
  | .remove frees node, res => res = none ∧ ∃ e, entry s (.node node) = some e ∧
      s'.vars.freed = s.vars.freed ++ freedData frees e.1 e.2
  | .clear _, res => res = none ∧ s'.vars.nodes = []

def step (q : State κ ω × KeyMap κ ω) (c : Call κ ω) : Option (State κ ω × KeyMap κ ω) :=
  ((exec hash cmp c).run q.1).map fun out => (out.2, afterCall cmp q.1 q.2 c)

end Calls

theorem mem_behind {b : Addr} : some b ∈ behind c ↔ ∃ a ∈ c, b = .node a := by
  rw [behind, mem_append, mem_map, mem_singleton]
  constructor
  · rintro (⟨a, ha, he⟩ | he)
    · exact ⟨a, ha, (some.inj he).symm⟩
    · cases he
  · rintro ⟨a, ha, rfl⟩
    exact .inl ⟨a, ha, rfl⟩

theorem mem_chain {i : Nat} {b : Addr} :
    some b ∈ chain i c ↔ b = .head i ∨ ∃ a ∈ c, b = .node a := by
  rw [chain, mem_cons, mem_behind, some.injEq]

theorem nodup_chain {i : Nat} (h : c.Nodup) : (chain i c).Nodup := by
  have hmap : (c.map fun a => some (Addr.node a)).Nodup :=
    List.Nodup.map (fun _ _ he => Addr.node.inj (some.inj he)) h
  rw [chain, nodup_cons, behind, nodup_append]
  refine ⟨?_, hmap, nodup_singleton _, ?_⟩
  · simp
  · intro x hx y hy he
    obtain ⟨a, _, rfl⟩ := mem_map.mp hx
    rw [mem_singleton.mp hy] at he
    cases he

theorem exists_first (c : List Nat) : ∃ y post, behind c = y :: post :=
  exists_cons_of_ne_nil (append_ne_nil_of_right_ne_nil _ (cons_ne_nil _ _))

private theorem exists_last (i : Nat) (c : List Nat) : ∃ pre x,
    some (Addr.head i) :: c.map (fun a => some (Addr.node a)) = pre ++ [some x] := by
  rcases eq_nil_or_concat' c with rfl | ⟨P, a, rfl⟩
  · exact ⟨[], .head i, rfl⟩
  · refine ⟨some (.head i) :: P.map (fun a => some (.node a)), .node a, ?_⟩
    rw [map_append]
    rfl

private theorem chain_append (i : Nat) (P Q : List Nat) :
    chain i (P ++ Q) = (some (Addr.head i) :: P.map fun a => some (Addr.node a)) ++ behind Q := by
  rw [chain, behind, behind, map_append, append_assoc]
  rfl

namespace Holds

variable {hash : Option κ → BitVec 64} {cmp cmp' : Option κ → Option κ → Int} {s : State κ ω}
  {m m' : KeyMap κ ω} {chains : Nat → List Nat} (h : Holds hash cmp s m chains)

include h

theorem rekey (hkeyed : Keyed cmp' (stored s) m') :
    Holds hash cmp' s m' chains :=
  { h with keyed := hkeyed }

private theorem shaped : Shaped hash s chains := h.rekey (keyed_never _)

variable {i : Nat}

theorem length_lt (hi : i < s.vars.tableSize) : (chains i).length < s.vars.nodes.length + 1 := by
  have hsub : (chains i).Subperm s.vars.nodes := by
    apply subperm_of_subset (h.filed.distinct i hi)
    intro a ha
    obtain ⟨e, he, _⟩ := h.filed.stored_of_mem i hi a ha
    exact (h.nodes.mem_iff a).mpr ⟨e, he⟩
  have := hsub.length_le
  omega

theorem heap_of_mem (hi : i < s.vars.tableSize) {b : Addr}
    (hb : some b ∈ chain i (chains i)) : ∃ n, s.heap b = some n := by
  rcases mem_chain.mp hb with rfl | ⟨a, ha, rfl⟩
  · obtain ⟨e, he⟩ := h.heads i hi
    obtain ⟨n, hn, _⟩ := heap_of_entry he
    exact ⟨n, hn⟩
  · obtain ⟨e, he, _⟩ := h.filed.stored_of_mem i hi a ha
    obtain ⟨n, hn, _⟩ := heap_of_entry he
    exact ⟨n, hn⟩

theorem head_next (hi : i < s.vars.tableSize) : (behind (chains i)).head? = some (next s (.head i)) := by
  obtain ⟨y, post, hy⟩ := exists_first (chains i)
  have hl := h.linked i hi
  rw [chain, hy] at hl
  rw [hy, (isChain_cons_cons.mp hl).1.1 _ rfl]
  rfl

theorem linked_other {j a : Nat} (hi : i < s.vars.tableSize)
    (hj : j < s.vars.tableSize) (hne : j ≠ i) (ha : a ∉ chains j) {next' prev' : Addr → Option Addr}
    (hnext : ∀ b, some b ∉ chain i (chains i) → b ≠ .node a → next' b = next s b)
    (hprev : ∀ b, some b ∉ chain i (chains i) → b ≠ .node a → prev' b = prev s b) :
    Linked next' prev' (chain j (chains j)) := by
  have hout : ∀ b, some b ∈ chain j (chains j) → some b ∉ chain i (chains i) ∧ b ≠ .node a := by
    intro b hb
    rcases mem_chain.mp hb with rfl | ⟨c, hc, rfl⟩
    · refine ⟨?_, Addr.noConfusion⟩
      intro hmem
      rcases mem_chain.mp hmem with he | ⟨c, _, he⟩
      · exact hne (Addr.head.inj he)
      · cases he
    · refine ⟨?_, ?_⟩
      · intro hmem
        rcases mem_chain.mp hmem with he | ⟨d, hd, he⟩
        · cases he
        · obtain rfl := Addr.node.inj he
          exact hne (h.filed.apart hj hi hc hd)
      · intro he
        exact ha (Addr.node.inj he ▸ hc)
  refine (h.linked j hj).congr ?_ ?_
  · intro b hb
    obtain ⟨hb, hba⟩ := hout b ((dropLast_sublist _).subset hb)
    exact hnext b hb hba
  · intro b hb
    obtain ⟨hb, hba⟩ := hout b (mem_of_mem_tail hb)
    exact hprev b hb hba

theorem not_stored (hall : ∀ i, i < s.vars.tableSize → chains i = [])
    (a : Nat) (e : Option κ × Option ω) : stored s a ≠ some e := by
  intro he
  obtain ⟨hi, ha⟩ := h.filed.mem_of_stored a e he
  rw [hall _ hi] at ha
  cases ha

theorem nodes_eq_nil (hall : ∀ i, i < s.vars.tableSize → chains i = []) : s.vars.nodes = [] := by
  apply eq_nil_iff_forall_not_mem.mpr
  intro a ha
  obtain ⟨e, he⟩ := (h.nodes.mem_iff a).mp ha
  exact h.not_stored hall a e he

end Holds

section Refinement

variable {hash : Option κ → BitVec 64} {cmp : Option κ → Option κ → Int}
  {s s' : State κ ω} {m : KeyMap κ ω} {chains : Nat → List Nat} {hn : Node κ ω} {y : Option Addr}
  {l : List (Freed κ ω)} {i a : Nat} {e : Option κ × Option ω} {pool : Option MemoryPool}

structure Granted (s : State κ ω) (a : Nat) (pool : Option MemoryPool) : Prop where
  free : s.heap (.node a) = none
  took : take s.vars.pool a = some pool
  backed : Backed pool fun b => b = a ∨ b ∈ s.vars.nodes

theorem Granted.stored_eq_none (h : Granted s a pool) : stored s a = none :=
  congrArg (bind · Node.entry) h.free

theorem Holds.granted (h : Holds hash cmp s m chains)
    (ha : Returns s.vars.pool (fun b => (s.heap (.node b)).isSome) a) :
    ∃ pool, Granted s a pool := by
  obtain ⟨hfree, pool, htook, hbacked⟩ := h.backed.take ha fun b hb => by
    obtain ⟨n, hn⟩ := isSome_iff_exists.mp hb
    exact (h.nodes.mem_iff b).mpr ⟨_, field_eq hn⟩
  exact ⟨pool, isNone_iff_eq_none.mp (isSome_eq_false_iff.mp hfree), htook, hbacked⟩

theorem Holds.linked_inserted (h : Holds hash cmp s m chains)
    (hi : i < s.vars.tableSize) (hfree : stored s a = none)
    (hs : Inserted s i a pool (next s (.head i)) e s') {j : Nat} (hj : j < s.vars.tableSize) :
    Linked (next s') (prev s') (chain j (update chains i (a :: chains i) j)) := by
  obtain ⟨y, post, hy⟩ := exists_first (chains i)
  have hnext := h.head_next hi
  rw [hy] at hnext
  have hl := h.linked i hi
  have hd := nodup_chain (i := i) (h.filed.distinct i hi)
  have hnotin : some (.node a) ∉ chain i (chains i) := by
    intro hin
    rcases mem_chain.mp hin with he | ⟨b, hb, he⟩
    · cases he
    · exact h.filed.not_mem hfree hi (Addr.node.inj he ▸ hb)
  have hcy : y ∈ chain i (chains i) := by
    rw [chain, hy]
    exact mem_cons_of_mem _ mem_cons_self
  rw [hs.next_eq, hs.prev_eq, ← some.inj hnext]
  by_cases hji : j = i
  · rw [hji, update_self]
    rw [chain, hy] at hl hd hnotin
    change Linked _ _ ([] ++ some (.head i) :: some (.node a) :: behind (chains i))
    rw [hy]
    exact Linked.insert hl (once_of_nodup hd) hnotin
  · rw [update_of_ne hji]
    refine h.linked_other hi hj hji (h.filed.not_mem hfree hj) ?_ ?_
    · intro b hb hba
      rw [point_of_ne (ne_of_mem_of_not_mem (mem_chain.mpr (.inl rfl)) hb).symm, update_of_ne hba]
    · intro b hb hba
      rw [point_of_ne (ne_of_mem_of_not_mem hcy hb).symm, update_of_ne hba]

theorem Holds.shaped_inserted (h : Holds hash cmp s m chains)
    (hi : i = (hash e.1).toNat % s.vars.tableSize)
    (hgot : Granted s a pool) (hs : Inserted s i a pool (next s (.head i)) e s') :
    Shaped hash s' (update chains i (a :: chains i)) := by
  have hfree := hgot.stored_eq_none
  have hlt : i < s.vars.tableSize := hi ▸ Nat.mod_lt _ h.size_pos
  have hstored := stored_update hs.entry_eq
  constructor
  · exact hs.tableSize_eq ▸ h.size_pos
  · intro j hj
    rw [hs.entry_eq, update_of_ne Addr.noConfusion]
    exact h.heads j (hs.tableSize_eq ▸ hj)
  · intro j hj
    exact h.linked_inserted hlt hfree hs (hs.tableSize_eq ▸ hj)
  · rw [hstored, hs.tableSize_eq, hi]
    exact h.filed.insert hfree (hi ▸ hlt)
  · exact keyed_never _
  · rw [hstored, hs.nodes_eq]
    exact h.nodes.insert hfree
  · exact (congrArg Vars.failedAsserts hs.vars_eq).trans h.asserts
  · rw [hs.vars_eq]
    exact hgot.backed.congr fun b => mem_cons

theorem Holds.putNew_ends (h : Holds hash cmp s m chains)
    (hi : i < s.vars.tableSize) (hhead : s.heap (.head i) = some hn)
    (hgot : Granted s a pool) (key : Option κ) (value : Option ω) :
    Ends (do allocateNode a; linkFirst i a key value; pure (some (Addr.node a))) s fun r s' =>
      r = some (.node a) ∧ Inserted s i a pool (next s (.head i)) (key, value) s' := by
  have hfirst : ∀ x, hn.next = some x → x ≠ .head i ∧ ∃ nx, s.heap x = some nx := by
    intro x hx
    have hmem := mem_of_mem_head? (h.head_next hi)
    rw [show next s (.head i) = some x from (field_eq hhead).trans hx] at hmem
    obtain ⟨b, hb, rfl⟩ := mem_behind.mp hmem
    exact ⟨Addr.noConfusion, h.heap_of_mem hi (mem_chain.mpr (.inr ⟨b, hb, rfl⟩))⟩
  rw [ends_bind]
  apply (insert_ends key value hhead hgot.free hgot.took hfirst).mono
  intro _ t ht
  rw [ends_bind]
  apply ht.mono
  intro _ s' hs'
  rw [← show next s (.head i) = hn.next from field_eq hhead] at hs'
  exact ends_pure.mpr ⟨rfl, hs'⟩

theorem Holds.neighbours (h : Holds hash cmp s m chains) (hi : i < s.vars.tableSize)
    (ha : a ∈ chains i) : ∃ pre x y post,
      chain i (chains i) = pre ++ some x :: some (.node a) :: y :: post ∧
      chain i ((chains i).erase a) = pre ++ some x :: y :: post := by
  obtain ⟨P, Q, hsplit⟩ := append_of_mem ha
  obtain ⟨y, post, hy⟩ := exists_first Q
  obtain ⟨pre, x, hx⟩ := exists_last i P
  have hP : a ∉ P := by
    intro hmem
    have hd := h.filed.distinct i hi
    rw [hsplit] at hd
    exact (nodup_append.mp hd).2.2 a hmem a mem_cons_self rfl
  refine ⟨pre, x, y, post, ?_, ?_⟩
  · rw [hsplit, chain_append, hx, append_assoc, ← hy]
    rfl
  · rw [hsplit, erase_append_right _ hP, erase_cons_head, chain_append, hx, append_assoc, hy]
    rfl

theorem Holds.linked_unlinked (h : Holds hash cmp s m chains) (hi : i < s.vars.tableSize)
    (ha : a ∈ chains i) {x : Addr} {pre post : List (Option Addr)}
    (hchain : chain i (chains i) = pre ++ some x :: some (.node a) :: y :: post)
    (hchain' : chain i ((chains i).erase a) = pre ++ some x :: y :: post)
    (hs : Unlinked s a x y l s') {j : Nat} (hj : j < s.vars.tableSize) :
    Linked (next s') (prev s') (chain j ((chains j).erase a)) := by
  by_cases hji : j = i
  · have hd := nodup_chain (i := i) (h.filed.distinct i hi)
    have hl := h.linked i hi
    rw [hchain] at hl hd
    rw [hji, hchain', hs.next_eq, hs.prev_eq]
    exact hl.remove_update (once_of_nodup hd) none none
  · have haj : a ∉ chains j := fun hmem => hji (h.filed.apart hj hi hmem ha)
    have hx : some x ∈ chain i (chains i) := by simp [hchain]
    have hy : y ∈ chain i (chains i) := by simp [hchain]
    rw [erase_of_not_mem haj, hs.next_eq, hs.prev_eq]
    refine h.linked_other hi hj hji haj ?_ ?_
    · intro b hb hba
      rw [update_of_ne hba, point_of_ne (ne_of_mem_of_not_mem hx hb).symm]
    · intro b hb hba
      rw [update_of_ne hba, point_of_ne (ne_of_mem_of_not_mem hy hb).symm]

theorem Holds.shaped_unlinked (h : Holds hash cmp s m chains) {a : Nat} {x : Addr}
    (hs : Unlinked s a x y l s') (ha : a ∈ s.vars.nodes)
    (hl : ∀ j, j < s.vars.tableSize → Linked (next s') (prev s') (chain j ((chains j).erase a))) :
    Shaped hash s' fun j => (chains j).erase a := by
  have hstored := stored_update hs.entry_eq
  constructor
  · exact hs.tableSize_eq ▸ h.size_pos
  · intro j hj
    rw [hs.entry_eq, update_of_ne Addr.noConfusion]
    exact h.heads j (hs.tableSize_eq ▸ hj)
  · exact hs.tableSize_eq ▸ hl
  · rw [hstored, hs.tableSize_eq]
    exact h.filed.erase
  · exact keyed_never _
  · rw [hstored, hs.nodes_eq]
    exact h.nodes.erase
  · exact (congrArg Vars.failedAsserts hs.vars_eq).trans h.asserts
  · rw [hs.vars_eq]
    exact (h.backed.give ha).congr fun b => h.nodes.nodup.mem_erase_iff

theorem Holds.remove_ends (h : Holds hash cmp s m chains) (frees : Frees)
    (hi : i < s.vars.tableSize) (ha : a ∈ chains i) (he : stored s a = some e) :
    Ends (remove frees (.node a)) s fun _ s' => ∃ x y,
      Unlinked s a x y (freedData frees e.1 e.2) s' ∧
      Shaped hash s' fun j => (chains j).erase a := by
  obtain ⟨n, hn, hne, hnnext, hnprev⟩ := heap_of_entry he
  obtain ⟨pre, x, y, post, hchain, hchain'⟩ := h.neighbours hi ha
  have hl := h.linked i hi
  have hd := nodup_chain (i := i) (h.filed.distinct i hi)
  rw [hchain] at hl hd
  obtain ⟨_, hxa, hrest⟩ := linked_split.mp hl
  have hay := (isChain_cons_cons.mp hrest).1
  have hprev : n.prev = some x := hnprev.symm.trans (hxa.2 _ rfl)
  have hnext : n.next = y := hnnext.symm.trans (hay.1 _ rfl)
  obtain ⟨_, hax, hx', hya⟩ := nodup_split hd
  have hxne : x ≠ .node a := fun he => hx' (he ▸ mem_cons_self)
  have hmem : ∀ b, some b ∈ pre ++ some x :: some (.node a) :: y :: post →
      ∃ nb, s.heap b = some nb := fun b hb => h.heap_of_mem hi (hchain ▸ hb)
  refine (HashChains.remove_ends frees hn hprev ⟨hxne, hmem x (by simp)⟩ ?_).mono ?_
  · intro b hb
    rw [hnext] at hb
    subst hb
    refine ⟨?_, ?_, hmem b (by simp)⟩
    · intro he
      exact hya (he ▸ mem_cons_self)
    · intro he
      exact hx' (he ▸ mem_cons_of_mem _ mem_cons_self)
  · intro _ s' hs
    have hfreed : freedData frees n.key n.value = freedData frees e.1 e.2 := hne ▸ rfl
    rw [hnext, hfreed] at hs
    refine ⟨x, y, hs, h.shaped_unlinked hs ((h.nodes.mem_iff a).mpr ⟨e, he⟩) ?_⟩
    intro j hj
    exact h.linked_unlinked hi ha hchain hchain' hs hj

section Clear

variable {frees : Frees} {I : State κ ω → Prop}
  (hI : ∀ s a x y e s', I s → Lists s.vars.nodes (stored s) → stored s a = some e →
    Unlinked s a x y (freedData frees e.1 e.2) s' → I s')

include hI

theorem clearChain_ends (h : Shaped hash s chains) (hs : I s) {i : Nat} (hi : i < s.vars.tableSize)
    {c : List Nat} (hc : chains i = c) {fuel : Nat} {p : Option Addr}
    (hp : (behind c).head? = some p) (hfuel : c.length < fuel) :
    Ends (clearChain frees fuel p) s fun _ s' => I s' ∧ s'.vars.tableSize = s.vars.tableSize ∧
      ∃ chains', Shaped hash s' chains' ∧ chains' i = [] ∧ ∀ j, chains j = [] → chains' j = [] := by
  induction c generalizing s chains fuel p with
  | nil =>
    cases hp
    cases fuel with
    | zero => cases hfuel
    | succ fuel => exact ends_pure.mpr ⟨hs, rfl, chains, h, hc, fun _ hj => hj⟩
  | cons a c ih =>
    cases hp
    have ha : a ∈ chains i := hc ▸ mem_cons_self
    obtain ⟨e, he, _⟩ := h.filed.stored_of_mem i hi a ha
    obtain ⟨n, hn, _, hnext, _⟩ := heap_of_entry he
    have hl : Linked (next s) (prev s) (behind (a :: c)) := hc ▸ List.IsChain.tail (h.linked i hi)
    cases fuel with
    | zero => cases hfuel
    | succ fuel =>
      rw [clearChain, ends_bind, ends_load hn, ends_bind]
      apply (h.remove_ends frees hi ha he).mono
      intro _ t ⟨x, y, hunlinked, ht⟩
      have hsize := hunlinked.tableSize_eq
      have hct : (chains i).erase a = c := by rw [hc, erase_cons_head]
      refine (ih ht (hI s a x y e t hs h.nodes he hunlinked) (hsize ▸ hi) hct
        (hnext ▸ (behind_head hl).1) (Nat.lt_of_succ_lt_succ hfuel)).mono ?_
      intro _ s' ⟨hs', hsize', chains', hshaped, hempty, hstay⟩
      refine ⟨hs', hsize'.trans hsize, chains', hshaped, hempty, ?_⟩
      intro j hj
      apply hstay
      rw [hj]
      rfl

private theorem clearBuckets_ends (h : Shaped hash s chains) (hs : I s) {is : List Nat}
    (his : ∀ i ∈ is, i < s.vars.tableSize) :
    Ends (clearBuckets frees is) s fun _ s' => I s' ∧ s'.vars.tableSize = s.vars.tableSize ∧
      ∃ chains', Shaped hash s' chains' ∧ (∀ i ∈ is, chains' i = []) ∧
        ∀ j, chains j = [] → chains' j = [] := by
  induction is generalizing s chains with
  | nil => exact ends_pure.mpr ⟨hs, rfl, chains, h, fun _ hi => absurd hi not_mem_nil,
      fun _ hj => hj⟩
  | cons i is ih =>
    have hi := his i mem_cons_self
    obtain ⟨hn, hhead⟩ := h.heap_of_mem hi (mem_chain.mpr (.inl rfl))
    have hfirst := h.head_next hi
    rw [show next s (.head i) = hn.next from field_eq hhead] at hfirst
    rw [clearBuckets, ends_bind, ends_load hhead, ends_bind, ends_turns, ends_bind]
    apply (clearChain_ends hI h hs hi rfl hfirst (h.length_lt hi)).mono
    intro _ t ⟨hst, hsize, chainst, ht, hempty, hstay⟩
    apply (ih ht hst fun j hj => hsize ▸ his j (mem_cons_of_mem i hj)).mono
    intro _ s' ⟨hs', hsize', chains', hshaped, hempty', hstay'⟩
    refine ⟨hs', hsize'.trans hsize, chains', hshaped, ?_, fun j hj => hstay' j (hstay j hj)⟩
    intro j hj
    rcases mem_cons.mp hj with rfl | hj
    · exact hstay' j hempty
    · exact hempty' j hj

theorem clear_ends (h : Shaped hash s chains) (hs : I s) :
    Ends (clear frees) s fun _ s' => I s' ∧ s'.vars.nodes = [] ∧ (∀ a e, stored s' a ≠ some e) ∧
      ∃ chains', Shaped hash s' chains' := by
  apply (clearBuckets_ends hI h hs fun i hi => mem_range.mp hi).mono
  intro _ s' ⟨hs', hsize, chains', hshaped, hempty, _⟩
  have hall : ∀ i, i < s'.vars.tableSize → chains' i = [] :=
    fun i hi => hempty i (mem_range.mpr (hsize ▸ hi))
  exact ⟨hs', hshaped.nodes_eq_nil hall, hshaped.not_stored hall, chains', hshaped⟩

end Clear

private theorem clear_refines (h : Holds hash cmp s m chains) (frees : Frees) :
    Ends (clear frees) s fun _ s' => Answers s m s' (.clear frees) none ∧
      Good hash cmp s' (afterCall cmp s m (.clear frees)) := by
  apply (clear_ends (I := fun _ => True) (fun _ _ _ _ _ _ _ _ _ _ => trivial) h.shaped trivial).mono
  intro _ s' ⟨_, hnodes, hnone, chains', hs'⟩
  exact ⟨⟨rfl, hnodes⟩, chains', hs'.rekey (keyed_empty hnone)⟩

variable (heq : Equivalence fun a b => cmp a b = 0) (hhash : ∀ a b, cmp a b = 0 → hash a = hash b)

include heq hhash

theorem lookup_ends (h : Holds hash cmp s m chains) (key : Option κ)
    (hhead : s.heap (.head ((hash key).toNat % s.vars.tableSize)) = some hn) :
    Ends (search cmp key (s.vars.nodes.length + 1) hn.next) s fun r s' => s' = s ∧ match m key with
      | none => r = none
      | some e => ∃ a, r = some (.node a) ∧ entry s (.node a) = some e := by
  have hi : (hash key).toNat % s.vars.tableSize < s.vars.tableSize := Nat.mod_lt _ h.size_pos
  have hl : Linked (next s) (prev s) (behind (chains ((hash key).toNat % s.vars.tableSize))) :=
    List.IsChain.tail (h.linked _ hi)
  have hfirst := h.head_next hi
  rw [show next s (.head _) = hn.next from field_eq hhead] at hfirst
  have hin : ∀ a ∈ chains ((hash key).toNat % s.vars.tableSize), ∃ e, entry s (.node a) = some e := by
    intro a ha
    obtain ⟨e, he, _⟩ := h.filed.stored_of_mem _ hi a ha
    exact ⟨e, he⟩
  apply (search_ends cmp key hl hfirst hin (h.length_lt hi)).mono
  rintro r s' ⟨rfl, hr⟩
  refine ⟨rfl, ?_⟩
  rcases hr with ⟨rfl, hnone⟩ | ⟨a, ha, e, rfl, he, hzero⟩
  · have hm : m key = none := by
      apply h.keyed.contents.eq_none.mpr
      intro f ⟨a, hf⟩ hk
      obtain ⟨_, ha⟩ := h.filed.mem_of_stored a f hf
      rw [← hhash _ _ hk] at ha
      exact hnone a ha f hf (heq.symm hk)
    rw [hm]
  · rw [(h.keyed.contents key e).mpr ⟨⟨a, he⟩, heq.symm hzero⟩]
    exact ⟨a, rfl, he⟩

private theorem find_refines (h : Holds hash cmp s m chains) (key : Option κ) :
    Ends (find hash cmp key) s fun res s' =>
      Answers s m s' (.find key) res ∧ Good hash cmp s' m := by
  obtain ⟨hn, hhead⟩ := h.heap_of_mem (Nat.mod_lt (hash key).toNat h.size_pos)
    (mem_chain.mpr (.inl rfl))
  rw [find, ends_bind, ends_bucket, ends_bind, ends_load hhead, ends_bind, ends_turns]
  apply (lookup_ends heq hhash h key hhead).mono
  rintro r s' ⟨rfl, hr⟩
  exact ⟨⟨rfl, hr⟩, chains, h⟩

omit hhash in
theorem Holds.inserted (h : Holds hash cmp s m chains)
    (hi : i = (hash e.1).toNat % s.vars.tableSize) (hnew : m e.1 = none)
    (hgot : Granted s a pool) (hs : Inserted s i a pool (next s (.head i)) e s') :
    Good hash cmp s' (added cmp m e) := by
  refine ⟨_, (h.shaped_inserted hi hgot hs).rekey ?_⟩
  rw [stored_update hs.entry_eq]
  exact h.keyed.insert heq hgot.stored_eq_none hnew

private theorem put_refines (h : Holds hash cmp s m chains) (key : Option κ) (value : Option ω)
    {got : Option Nat} (hgot : Admissible s (.put key value got)) :
    Ends (put hash cmp key value got) s fun res s' =>
      Answers s m s' (.put key value got) res ∧
        Good hash cmp s' (afterCall cmp s m (.put key value got)) := by
  obtain ⟨i, hi⟩ : ∃ i, i = (hash key).toNat % s.vars.tableSize := ⟨_, rfl⟩
  have hlt : i < s.vars.tableSize := hi ▸ Nat.mod_lt _ h.size_pos
  obtain ⟨hn, hhead⟩ := h.heap_of_mem hlt (mem_chain.mpr (.inl rfl))
  rw [put, ends_bind, ends_bucket, ← hi, ends_bind, ends_load hhead, ends_bind, ends_turns, ends_bind]
  apply (lookup_ends heq hhash h key (hi ▸ hhead)).mono
  intro r t ⟨ht, hr⟩
  rw [ht]
  -- a refused call returns `NULL` and leaves everything as it is
  have hrefused : (m key).isSome ∨ got = none → Answers s m s (.put key value got) none ∧
      Good hash cmp s (afterCall cmp s m (.put key value got)) := by
    intro hc
    rw [Answers, if_pos hc, afterCall, if_pos hc]
    exact ⟨⟨rfl, rfl⟩, chains, h⟩
  cases hm : m key with
  | some e =>
    rw [hm] at hr
    obtain ⟨a, rfl, _⟩ := hr
    exact ends_pure.mpr (hrefused (.inl (isSome_of_eq_some hm)))
  | none =>
    rw [hm] at hr
    obtain rfl := hr
    cases got with
    | none => exact ends_pure.mpr (hrefused (.inr rfl))
    | some a =>
      have hnot : ¬ ((m key).isSome ∨ some a = none) := by simp [hm]
      obtain ⟨pool, hgranted⟩ := h.granted hgot
      apply (h.putNew_ends hlt hhead hgranted key value).mono
      intro r' s' ⟨hr', hs'⟩
      rw [Answers, if_neg hnot, afterCall, if_neg hnot]
      refine ⟨⟨a, rfl, hr', ?_⟩, h.inserted heq hi hm hgranted hs'⟩
      rw [hs'.entry_eq, update_self]

omit hhash in
private theorem remove_refines (h : Holds hash cmp s m chains) (frees : Frees) {node : Nat}
    (hnode : Admissible s (.remove frees node)) : Ends (remove frees (.node node)) s fun _ s' =>
      Answers s m s' (.remove frees node) none ∧
        Good hash cmp s' (afterCall cmp s m (.remove frees node)) := by
  obtain ⟨n, hn⟩ := isSome_iff_exists.mp hnode
  have he : entry s (.node node) = some (n.key, n.value) := field_eq hn
  obtain ⟨hi, ha⟩ := h.filed.mem_of_stored node _ he
  apply (h.remove_ends frees hi ha he).mono
  intro _ s' ⟨_, _, hs, hs'⟩
  rw [afterCall, he]
  refine ⟨⟨rfl, _, he, hs.freed_eq⟩, _, hs'.rekey ?_⟩
  rw [stored_update hs.entry_eq]
  exact h.keyed.erase heq he

private theorem exec_refines (h : Good hash cmp s m) {c : Call κ ω} (hc : Admissible s c) :
    Ends (exec hash cmp c) s fun res s' =>
      Answers s m s' c res ∧ Good hash cmp s' (afterCall cmp s m c) := by
  obtain ⟨chains, h⟩ := h
  cases c with
  | find key => exact find_refines heq hhash h key
  | put key value got => exact put_refines heq hhash h key value hc
  | remove frees node =>
    rw [exec, ends_bind]
    apply (remove_refines heq h frees hc).mono
    intro _ s' hs'
    exact ends_pure.mpr hs'
  | clear frees =>
    rw [exec, ends_bind]
    apply (clear_refines h frees).mono
    intro _ s' hs'
    exact ends_pure.mpr hs'

end Refinement

variable {tableSize capacity : BitVec 64} {poolMem headsMem : Bool} {mem : Malloc}

theorem init_spec
    (h : init κ ω cmpGiven tableSize capacity poolMem mem headsMem = some (some s)) :
    0 < s.vars.tableSize ∧
      (∀ i, i < s.vars.tableSize → s.heap (.head i) = some ⟨none, none, none, none⟩) ∧
      (∀ a, s.heap (.node a) = none) ∧ s.vars.nodes = [] ∧ s.vars.failedAsserts = 0 ∧
      nodePool capacity (UInt32.ofNat nodeSize) poolMem mem = some s.vars.pool := by
  unfold init at h
  split at h
  · cases h
  split at h
  · cases h
  next hpool =>
    dsimp only at h
    generalize hsize : (if tableSize.toNat < 8 then 10007 else tableSize.toNat) = size at h
    have hpos : 0 < size := by
      split at hsize
      · omega
      · omega
    split at h
    · cases h
    split at h
    · obtain rfl := some.inj (some.inj h)
      exact ⟨hpos, fun i hi => if_pos hi, fun _ => rfl, rfl, rfl, hpool⟩
    · cases h

theorem init_good (hash : Option κ → BitVec 64) (cmp : Option κ → Option κ → Int)
    (h : init κ ω cmpGiven tableSize capacity poolMem mem headsMem = some (some s))
    (hfit : SizeFits s.vars.pool) : Good hash cmp s fun _ => none := by
  obtain ⟨hpos, hheads, hnodes, hnil, hasserts, hpool⟩ := init_spec h
  have hnone : ∀ a e, stored s a ≠ some e := by
    intro a e he
    obtain ⟨n, hn, _⟩ := heap_of_entry he
    rw [hnodes a] at hn
    cases hn
  refine ⟨fun _ => [], hpos, fun i hi => ⟨_, field_eq (hheads i hi)⟩, ?_, ?_, keyed_empty hnone, ?_,
    hasserts, ?_⟩
  · intro i hi
    refine isChain_cons_cons.mpr ⟨⟨?_, ?_⟩, isChain_singleton _⟩
    · intro a ha
      rw [← some.inj ha]
      exact field_eq (hheads i hi)
    · intro b hb
      cases hb
  · refine ⟨fun _ _ => nodup_nil, fun _ _ a ha => absurd ha not_mem_nil, ?_⟩
    intro a e he
    exact absurd he (hnone a e)
  · rw [hnil]
    refine ⟨nodup_nil, ?_⟩
    intro a
    exact iff_of_false not_mem_nil fun ⟨e, he⟩ => hnone a e he
  · rw [hnil]
    exact (backed_init hpool (by decide) hfit).congr fun a => iff_of_false not_mem_nil id

/-- After any calls the buckets are doubly linked chains, every key is in the bucket of its hash, no
two keys are the same, and the entries are the map that the calls make; the next call ends with the
answer of the map and keeps all of this. -/
theorem table_is_map {cmp : Option κ → Option κ → Int} {str : Option κ → List (BitVec 8)}
    {userHash : Option (Option κ → BitVec 64)} (heq : Equivalence fun a b => cmp a b = 0)
    (hhash : ∀ a b, cmp a b = 0 → hashFunc str userHash a = hashFunc str userHash b)
    {fresh : State κ ω}
    (hinit : init κ ω true tableSize capacity poolMem mem headsMem = some (some fresh))
    (hfit : SizeFits fresh.vars.pool) {calls : List (Call κ ω)} {s : State κ ω} {m : KeyMap κ ω}
    (hrun : run (guarded (step (hashFunc str userHash) cmp) fun q c => Admissible q.1 c)
      (fresh, fun _ => none) calls = some (s, m)) :
    Good (hashFunc str userHash) cmp s m ∧ ∀ c, Admissible s c → ∃ res s',
      (exec (hashFunc str userHash) cmp c).run s = some (res, s') ∧
      Answers s m s' c res ∧ Good (hashFunc str userHash) cmp s' (afterCall cmp s m c) := by
  have hgood : Good (hashFunc str userHash) cmp s m := by
    refine run_invariant (I := fun q => Good (hashFunc str userHash) cmp q.1 q.2) ?_
      (init_good _ cmp hinit hfit) hrun
    intro q c q' hq hstep
    obtain ⟨hc, hstep⟩ := guarded_eq_some.mp hstep
    obtain ⟨res, s', hexec, _, hgood⟩ := exec_refines heq hhash hq hc
    rw [step, hexec] at hstep
    cases hstep
    exact hgood
  exact ⟨hgood, fun c hc => exec_refines heq hhash hgood hc⟩

def intHash (a : Option Int) : BitVec 64 := BitVec.ofInt 64 (a.elim 0 id)

private theorem intHash_compatible (a b : Option Int) (h : difference id a b = 0) :
    hashFunc (fun _ => []) (some intHash) a = hashFunc (fun _ => []) (some intHash) b :=
  congrArg (BitVec.ofInt 64) (Int.sub_eq_zero.mp h)

def someCalls : List (Call Int Nat) :=
  [.put (some 1) (some 10) (some 0), .put (some 9) (some 90) (some 32),
    .put (some 2) (some 20) (some 4294967296), .put (some 9) (some 91) (some 4294967328),
    .put (some 4) (some 40) none, .find (some 9), .remove ⟨true, true⟩ 0, .find (some 1),
    .clear ⟨true, false⟩, .put (some 1) none (some 4294967328)]

theorem table_is_map_some_calls :
    ∃ fresh s m, init Int Nat true 8#64 2#64 true PoolLedger.memoryOk true = some (some fresh) ∧
      SizeFits fresh.vars.pool ∧
      run (guarded (step (hashFunc (fun _ => []) (some intHash)) (difference id)) fun q c =>
        Admissible q.1 c) (fresh, fun _ => none) someCalls = some (s, m) ∧
      Good (hashFunc (fun _ => []) (some intHash)) (difference id) s m := by
  have hsome : ((init Int Nat true 8#64 2#64 true PoolLedger.memoryOk true).bind fun t =>
      t.bind fun fresh => (run (guarded (step (hashFunc (fun _ => []) (some intHash)) (difference id))
        fun q c => Admissible q.1 c) (fresh, fun _ => none) someCalls).map fun _ =>
          SizeFits fresh.vars.pool) = some true := by decide +kernel
  obtain ⟨t, hinit, ht⟩ := Option.bind_eq_some_iff.mp hsome
  obtain ⟨fresh, rfl, ht⟩ := Option.bind_eq_some_iff.mp ht
  obtain ⟨⟨s, m⟩, hrun, hfit⟩ := Option.map_eq_some_iff.mp ht
  exact ⟨fresh, s, m, hinit, hfit, hrun,
    (table_is_map (difference_equivalence id) intHash_compatible hinit hfit hrun).1⟩

/-- The pool for 134217729 nodes of 32 bytes asks `malloc` for 32 bytes. -/
theorem table_node_outside_pool : ∃ fresh s m,
      init Int Nat true 8#64 134217729#64 true PoolLedger.memoryOk true = some (some fresh) ∧
      run (guarded (step intHash (difference id)) fun q c => Admissible q.1 c)
        (fresh, fun _ => none) [.put (some 1) (some 10) (some 0)] = some (s, m) ∧
      Admissible s (.put (some 2) (some 20) (some 32)) ∧
      (exec intHash (difference id) (.put (some 2) (some 20) (some 32))).run s = none := by
  obtain ⟨fresh, s, m, p, hinit, hpool, hnodePool, hroom, hstep, hpool', hstuck⟩ :
      ∃ fresh s m p,
      init Int Nat true 8#64 134217729#64 true PoolLedger.memoryOk true = some (some fresh) ∧
      fresh.vars.pool = some p ∧
      nodePool 134217729#64 32 true PoolLedger.memoryOk = some (some p) ∧ 1 < p.capacity ∧
      step intHash (difference id) (fresh, fun _ => none) (.put (some 1) (some 10) (some 0)) =
        some (s, m) ∧
      s.vars.pool = some (p.alloc PoolLedger.memoryOk).1 ∧
      (exec intHash (difference id) (.put (some 2) (some 20) (some 32))).run s = none :=
    ⟨_, _, _, _, rfl, rfl, rfl, by decide, rfl, rfl, rfl⟩
  refine ⟨fresh, s, m, hinit, ?_, ?_, hstuck⟩
  · refine Option.bind_eq_some_iff.mpr ⟨_, guarded_eq_some.mpr ⟨?_, hstep⟩, rfl⟩
    rw [Admissible, Option.all_some, hpool]
    exact returns_first hnodePool _
  · rw [Admissible, Option.all_some, hpool']
    exact returns_second hnodePool _ hroom

end MuggleC.Dsaa.HashMap
