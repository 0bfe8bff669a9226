/- source: dsaa/avl_tree.c
   digest: The tree is the finite map that its calls make, and what it does once it is cleared. -/

import MuggleC.Dsaa.AvlRemove
import MuggleC.Foundation.OrderedMap
import MuggleC.Foundation.Transition

set_option autoImplicit false

namespace MuggleC.Dsaa.AvlMap

open Foundation.BalancedTree (BinTree Frame plug before after grow inorder_plug exists_focus
  grow_inorder grow_balanced)
open Foundation.OrderedMap Foundation.Program Memory NodePool
open Foundation.Transition (run guarded guarded_eq_some run_invariant)
open AvlTree AvlShape AvlInsert AvlErase AvlRemove
open List hiding after

variable {κ ω : Type}

def entries (t : BinTree (Cell κ ω)) : List (Option κ × Option ω) := t.inorder.map datum

section Search

variable {cmp : Option κ → Option κ → Int} {t : BinTree (Cell κ ω)} {key : Option κ}
  {ctx : List (Frame (Cell κ ω))}

theorem findIn_some {a : Nat}
    (h : findIn cmp key t = some a) : ∃ x ∈ t.inorder, x.addr = a ∧ cmp key x.key = 0 := by
  induction t with
  | leaf => cases h
  | node l x b r ihl ihr =>
    rw [findIn] at h
    split at h
    · next hzero =>
      exact ⟨x, mem_append_right _ mem_cons_self, Option.some.inj h, hzero⟩
    · split at h
      · obtain ⟨y, hy, hk⟩ := ihl h
        exact ⟨y, mem_append_left _ hy, hk⟩
      · obtain ⟨y, hy, hk⟩ := ihr h
        exact ⟨y, mem_append_right _ (mem_cons_of_mem _ hy), hk⟩

theorem findIn_none (ctx : List (Frame (Cell κ ω)))
    (h : findIn cmp key t = none) : ∃ hole, descend cmp key ctx t = some hole := by
  induction t generalizing ctx with
  | leaf => exact ⟨ctx, rfl⟩
  | node l x b r ihl ihr =>
    rw [findIn] at h
    rw [descend]
    split at h
    · cases h
    · next hzero =>
      rw [if_neg hzero]
      split at h
      · next hneg =>
        rw [if_pos hneg]
        exact ihl _ h
      · next hneg =>
        rw [if_neg hneg]
        exact ihr _ h

theorem descend_none (h : descend cmp key ctx t = none) : ∃ x ∈ t.inorder, cmp key x.key = 0 := by
  cases hf : findIn cmp key t with
  | none =>
    obtain ⟨hole, hd⟩ := findIn_none ctx hf
    rw [h] at hd
    cases hd
  | some a =>
    obtain ⟨x, hx, _, hk⟩ := findIn_some hf
    exact ⟨x, hx, hk⟩

variable (ho : TotalOrder cmp)

include ho

private theorem descend_between {hole : List (Frame (Cell κ ω))}
    (ht : t.inorder.Pairwise fun x y => cmp x.key y.key < 0)
    (hbefore : ∀ x ∈ before ctx, cmp x.key key < 0) (hafter : ∀ x ∈ after ctx, cmp key x.key < 0)
    (h : descend cmp key ctx t = some hole) :
    (∀ x ∈ before hole, cmp x.key key < 0) ∧ ∀ x ∈ after hole, cmp key x.key < 0 := by
  induction t generalizing ctx with
  | leaf =>
    cases h
    exact ⟨hbefore, hafter⟩
  | node l x b r ihl ihr =>
    obtain ⟨hl, hxr, hlx⟩ := pairwise_append.mp ht
    obtain ⟨hx, hr⟩ := pairwise_cons.mp hxr
    rw [descend] at h
    split at h
    · cases h
    · next hzero =>
      split at h
      · next hneg =>
        refine ihl hl ?_ ?_ h
        · intro y hy
          rw [before, Frame.before, append_nil] at hy
          exact hbefore y hy
        · intro y hy
          rw [after, Frame.after, cons_append, mem_cons, mem_append] at hy
          rcases hy with rfl | hy | hy
          · exact hneg
          · exact ho.lt_of_lt_of_le hneg (Int.le_of_lt (hx y hy))
          · exact hafter y hy
      · next hneg =>
        have hpos : cmp x.key key < 0 := (ho.swap _ _).mpr (by omega)
        refine ihr hr ?_ ?_ h
        · intro y hy
          rw [before, Frame.before, mem_append, mem_append, mem_singleton] at hy
          rcases hy with hy | hy | rfl
          · exact hbefore y hy
          · exact ho.lt_of_lt_of_le (hlx y hy x mem_cons_self) (Int.le_of_lt hpos)
          · exact hpos
        · intro y hy
          exact hafter y hy

end Search

/-- From keys to the entry with the same key. -/
abbrev KeyMap (κ ω : Type) := Option κ → Option (Option κ × Option ω)

/-- The memory holds one tree that is linked both ways, balanced and in order, with the entries of
the map. No assertion has failed. -/
structure Holds (cmp : Option κ → Option κ → Int) (s : State κ ω) (m : KeyMap κ ω)
    (t : BinTree (Cell κ ω)) : Prop where
  linked : Zip s [] t
  balanced : t.Balanced
  ordered : Ordered cmp (entries t)
  contents : lookup cmp (entries t) = m
  asserts : s.vars.failedAsserts = 0

def Good (cmp : Option κ → Option κ → Int) (s : State κ ω) (m : KeyMap κ ω) : Prop :=
  ∃ t, Holds cmp s m t

/-- A call, with the block that the allocator returns for an insertion. -/
inductive Call (κ ω : Type)
  | find (key : Option κ)
  | insert (key : Option κ) (value : Option ω) (got : Option Nat)
  | remove (frees : Frees) (node : Nat)

/-- A block for a new node is one that the pool or `malloc` may return; a node to remove is in the
tree. -/
def Admissible (s : State κ ω) : Call κ ω → Bool
  | .find _ => true
  | .insert _ _ got => got.all (Returns s.vars.pool fun a => (s.heap a).isSome)
  | .remove _ node => (s.heap node).isSome

section Calls

variable (cmp : Option κ → Option κ → Int)

def exec : Call κ ω → Op κ ω (Option Nat)
  | .find key => find cmp key
  | .insert key value got => AvlTree.insert cmp key value got
  | .remove frees node => do
    remove frees node
    pure none

def afterCall (s : State κ ω) (m : KeyMap κ ω) : Call κ ω → KeyMap κ ω
  | .find _ => m
  | .insert key value got =>
    if (m key).isSome ∨ got = none then m else added cmp m (key, value)
  | .remove _ node =>
    match s.heap node with
    | none => m
    | some n => erased cmp m n.key

def NodeHas (s : State κ ω) (a : Nat) (e : Option κ × Option ω) : Prop :=
  ∃ n, s.heap a = some n ∧ (n.key, n.value) = e

/-- What a call returns, frees and leaves alone. -/
def Answers (s : State κ ω) (m : KeyMap κ ω) (s' : State κ ω) : Call κ ω → Option Nat → Prop
  | .find key, res => s' = s ∧
      match m key with
      | none => res = none
      | some e => ∃ a, res = some a ∧ NodeHas s a e
  | .insert key value got, res =>
    if (m key).isSome ∨ got = none then res = none ∧ s' = s
    else res = got ∧ ∃ a, res = some a ∧ NodeHas s' a (key, value)
  | .remove frees node, res => res = none ∧
      ∃ n, s.heap node = some n ∧ s'.vars.freed = s.vars.freed ++ freedData frees n.key n.value

def step (q : State κ ω × KeyMap κ ω) (c : Call κ ω) : Option (State κ ω × KeyMap κ ω) :=
  ((exec cmp c).run q.1).map fun out => (out.2, afterCall cmp q.1 q.2 c)

end Calls

variable {capacity : BitVec 64} {poolMem : Bool} {mem : Malloc} {fresh : State κ ω}

private theorem init_good (cmp : Option κ → Option κ → Int)
    (hinit : init κ ω true capacity poolMem mem = some fresh) (hfit : SizeFits fresh.vars.pool) :
    Good cmp fresh fun _ => none := by
  obtain ⟨pool, hpool, rfl⟩ := Option.map_eq_some_iff.mp hinit
  refine ⟨.leaf, ⟨rfl, trivial, trivial, nodup_nil, rfl, nofun, ?_⟩, trivial, List.Pairwise.nil, rfl,
    rfl⟩
  exact (backed_init hpool (by decide) hfit).congr fun a => iff_of_false not_mem_nil id

theorem nodeHas_datum {s : State κ ω} {t : BinTree (Cell κ ω)} (hz : Zip s [] t) {x : Cell κ ω}
    (hx : x ∈ t.inorder) : NodeHas s x.addr (datum x) := by
  obtain ⟨ctx, l, b, r, rfl⟩ := exists_focus hx
  exact ⟨_, (zip_plug.mpr hz).load (d := .right), rfl⟩

theorem entries_hole (hole : List (Frame (Cell κ ω))) (x : Cell κ ω) (l r : BinTree (Cell κ ω))
    (b : Int) : entries (plug hole (.node l x b r)) = (before hole ++ l.inorder).map datum ++
      datum x :: (r.inorder ++ after hole).map datum := by
  rw [entries, inorder_plug, BinTree.inorder]
  simp only [map_append, map_cons, append_assoc, cons_append]

section Refinement

variable {cmp : Option κ → Option κ → Int} (ho : TotalOrder cmp) {s : State κ ω} {m : KeyMap κ ω}
  {t : BinTree (Cell κ ω)}

include ho

variable {key : Option κ} {hole : List (Frame (Cell κ ω))} (h : Holds cmp s m t)

include h

theorem Holds.present {x : Cell κ ω} (hx : x ∈ t.inorder)
    (hk : cmp key x.key = 0) : m key = some (datum x) := by
  rw [← h.contents]
  exact lookup_of_mem ho h.ordered (mem_map_of_mem hx) hk

theorem Holds.between (hd : descend cmp key [] t = some hole) :
    (∀ x ∈ before hole, cmp x.key key < 0) ∧ ∀ x ∈ after hole, cmp key x.key < 0 :=
  descend_between ho (pairwise_map.mp h.ordered) (fun _ hx => absurd hx not_mem_nil)
    (fun _ hx => absurd hx not_mem_nil) hd

theorem Holds.absent (hd : descend cmp key [] t = some hole) : m key = none := by
  obtain ⟨hbefore, hafter⟩ := h.between ho hd
  rw [← h.contents, lookup_eq_none]
  intro e he hk
  obtain ⟨x, hx, rfl⟩ := mem_map.mp he
  change cmp key x.key = 0 at hk
  change x ∈ (plug [] t).inorder at hx
  rw [← descend_plug cmp hd, inorder_plug, BinTree.inorder, append_nil, mem_append] at hx
  rcases hx with hx | hx
  · have hlt := hbefore x hx
    have hzero := ho.zero_comm hk
    omega
  · have hlt := hafter x hx
    omega

private theorem find_refines (key : Option κ) :
    Ends (find cmp key) s fun res s' => Answers s m s' (.find key) res ∧ Good cmp s' m := by
  refine (find_ends cmp key h.linked).mono ?_
  rintro _ _ ⟨rfl, rfl⟩
  refine ⟨⟨rfl, ?_⟩, t, h⟩
  cases hf : findIn cmp key t with
  | none =>
    obtain ⟨hole, hd⟩ := findIn_none [] hf
    rw [h.absent ho hd]
  | some a =>
    obtain ⟨x, hx, rfl, hk⟩ := findIn_some hf
    rw [h.present ho hx hk]
    exact ⟨x.addr, rfl, nodeHas_datum h.linked hx⟩

theorem Holds.grow {s' : State κ ω} {value : Option ω}
    {a : Nat} (hd : descend cmp key [] t = some hole)
    (hz : Zip s' [] (grow hole (single a key value))) (hq : Quiet s s') :
    Holds cmp s' (added cmp m (key, value)) (grow hole (single a key value)) := by
  have hplug := descend_plug cmp hd
  obtain ⟨hbefore, hafter⟩ := h.between ho hd
  have hentries : entries (Foundation.BalancedTree.grow hole (single a key value)) =
      (before hole).map datum ++ (key, value) :: (after hole).map datum := by
    rw [entries, grow_inorder]
    refine (entries_hole hole ⟨a, key, value⟩ .leaf .leaf 0).trans ?_
    rw [BinTree.inorder, append_nil, nil_append]
    rfl
  have hold : entries t = (before hole).map datum ++ (after hole).map datum := by
    change entries (plug [] t) = _
    rw [← hplug, entries, inorder_plug, BinTree.inorder, append_nil, map_append]
  have hordered : Ordered cmp
      ((before hole).map datum ++ (key, value) :: (after hole).map datum) := by
    refine ordered_added ho (hold ▸ h.ordered) ?_ ?_
    · intro e he
      obtain ⟨x, hx, rfl⟩ := mem_map.mp he
      exact hbefore x hx
    · intro e he
      obtain ⟨x, hx, rfl⟩ := mem_map.mp he
      exact hafter x hx
  refine ⟨hz, grow_balanced (grown_single (hplug ▸ h.balanced)), hentries ▸ hordered, ?_, ?_⟩
  · rw [hentries, lookup_middle ho hordered, ← hold, h.contents]
  · exact hq.failedAsserts.trans h.asserts

private theorem insert_refines (key : Option κ) (value : Option ω) {got : Option Nat}
    (hgot : Admissible s (.insert key value got)) :
    Ends (AvlTree.insert cmp key value got) s fun res s' =>
      Answers s m s' (.insert key value got) res ∧
        Good cmp s' (afterCall cmp s m (.insert key value got)) := by
  by_cases hrefused : (m key).isSome ∨ got = none
  · have hd : descend cmp key [] t = none ∨ got = none := by
      refine hrefused.imp_left fun hm => ?_
      cases hd : descend cmp key [] t with
      | none => rfl
      | some hole =>
        rw [h.absent ho hd] at hm
        cases hm
    refine (insert_refused_ends cmp value h.linked hd).mono ?_
    rintro _ _ ⟨rfl, rfl⟩
    rw [Answers, if_pos hrefused, afterCall, if_pos hrefused]
    exact ⟨⟨rfl, rfl⟩, t, h⟩
  · obtain ⟨hm, hsome⟩ := not_or.mp hrefused
    obtain ⟨a, rfl⟩ := Option.ne_none_iff_exists'.mp hsome
    cases hd : descend cmp key [] t with
    | none =>
      obtain ⟨x, hx, hk⟩ := descend_none hd
      rw [h.present ho hx hk] at hm
      exact absurd rfl hm
    | some hole =>
      refine (insert_new_ends cmp value h.linked h.balanced hd hgot).mono ?_
      rintro _ s' ⟨rfl, hz, hq⟩
      rw [Answers, if_neg hrefused, afterCall, if_neg hrefused]
      refine ⟨⟨rfl, a, rfl, nodeHas_datum (x := ⟨a, key, value⟩) hz ?_⟩, _, h.grow ho hd hz hq⟩
      rw [grow_inorder, inorder_plug]
      exact mem_append_left _ (mem_append_right _ mem_cons_self)

theorem remove_refines (frees : Frees) {node : Nat} (hnode : Admissible s (.remove frees node)) :
    Ends (remove frees node) s fun _ s' =>
      Answers s m s' (.remove frees node) none ∧
        Good cmp s' (afterCall cmp s m (.remove frees node)) := by
  obtain ⟨n, hn⟩ := Option.isSome_iff_exists.mp hnode
  have hmem := h.linked.owned.mem node n hn
  rw [ctxAddrs, append_nil] at hmem
  obtain ⟨x, hx, rfl⟩ := mem_map.mp hmem
  obtain ⟨ctx, l, b, r, rfl⟩ := exists_focus hx
  have hz := zip_plug.mpr h.linked
  have hload := hz.load (d := .right)
  obtain rfl := Option.some.inj (hn.symm.trans hload)
  have hentries := entries_hole ctx x l r b
  refine (remove_ends frees hz h.balanced).mono ?_
  rintro _ s' ⟨⟨t', hz', hb', hothers⟩, hasserts, hfreed⟩
  have hrest : entries t' =
      (before ctx ++ l.inorder).map datum ++ (r.inorder ++ after ctx).map datum := by
    rw [entries, hothers]
    simp only [map_append, append_assoc]
  have hordered := h.ordered
  rw [hentries] at hordered
  refine ⟨⟨rfl, _, hn, hfreed⟩, t', hz', hb', ?_, ?_, hasserts.trans h.asserts⟩
  · rw [hrest]
    exact (ordered_middle hordered).2.2
  · rw [hrest, lookup_removed ho hordered, ← hentries, h.contents, afterCall, hn]
    rfl

omit h

theorem exec_refines (h : Good cmp s m) {c : Call κ ω} (hc : Admissible s c) :
    Ends (exec cmp c) s fun res s' => Answers s m s' c res ∧ Good cmp s' (afterCall cmp s m c) := by
  obtain ⟨t, h⟩ := h
  cases c with
  | find key => exact find_refines ho h key
  | insert key value got => exact insert_refines ho h key value hc
  | remove frees node =>
    rw [exec, ends_bind]
    refine (remove_refines ho h frees hc).mono ?_
    rintro _ s' hs'
    exact ends_pure.mpr hs'

variable (hinit : init κ ω true capacity poolMem mem = some fresh) (hfit : SizeFits fresh.vars.pool)

include hinit hfit

theorem good_of_run {calls : List (Call κ ω)} {q : State κ ω × KeyMap κ ω}
    (hrun : run (guarded (step cmp) fun q c => Admissible q.1 c) (fresh, fun _ => none) calls =
      some q) : Good cmp q.1 q.2 := by
  refine run_invariant (I := fun q => Good cmp q.1 q.2) ?_ (init_good cmp hinit hfit) hrun
  rintro q c q' hq hstep
  obtain ⟨hc, hstep⟩ := guarded_eq_some.mp hstep
  obtain ⟨res, s', hexec, _, hgood⟩ := exec_refines ho hq hc
  rw [step, hexec] at hstep
  cases hstep
  exact hgood

/-- After any calls the tree is balanced, linked and ordered, no assertion has failed, and its
entries are the map that the calls make; the next call ends with the answer of the map and keeps all
of this. -/
theorem tree_is_map {calls : List (Call κ ω)} {s : State κ ω} {m : KeyMap κ ω}
    (hrun : run (guarded (step cmp) fun q c => Admissible q.1 c) (fresh, fun _ => none) calls =
      some (s, m)) :
    Good cmp s m ∧ ∀ c, Admissible s c → ∃ res s', (exec cmp c).run s = some (res, s') ∧
      Answers s m s' c res ∧ Good cmp s' (afterCall cmp s m c) := by
  have hgood : Good cmp s m := good_of_run ho hinit hfit hrun
  exact ⟨hgood, fun c hc => exec_refines ho hgood hc⟩

end Refinement

def someCalls : List (Call Int Nat) :=
  [.insert (some 1) (some 10) (some 0), .insert (some 2) (some 20) (some 48),
    .insert (some 3) (some 30) (some 4294967296), .insert (some 2) (some 21) (some 4294967344),
    .insert (some 4) (some 40) none, .find (some 3), .remove ⟨true, true⟩ 48, .find (some 2)]

theorem tree_is_map_some_calls :
    ∃ fresh s m, init Int Nat true 2#64 true PoolLedger.memoryOk = some fresh ∧
      SizeFits fresh.vars.pool ∧
      run (guarded (step (difference id)) fun q c => Admissible q.1 c) (fresh, fun _ => none) someCalls =
        some (s, m) ∧ Good (difference id) s m := by
  have hsome : ((init Int Nat true 2#64 true PoolLedger.memoryOk).bind fun fresh =>
      (run (guarded (step (difference id)) fun q c => Admissible q.1 c) (fresh, fun _ => none)
        someCalls).map fun _ => SizeFits fresh.vars.pool) = some true := by decide +kernel
  obtain ⟨fresh, hinit, hq⟩ := Option.bind_eq_some_iff.mp hsome
  obtain ⟨⟨s, m⟩, hrun, hfit⟩ := Option.map_eq_some_iff.mp hq
  exact ⟨fresh, s, m, hinit, hfit, hrun, (tree_is_map (difference_total id) hinit hfit hrun).1⟩

/-- The pool for 89478486 nodes of 48 bytes asks `malloc` for 32 bytes. -/
theorem tree_node_outside_pool : ∃ fresh,
      init Int Nat true 89478486#64 true PoolLedger.memoryOk = some fresh ∧
      Admissible fresh (.insert (some 1) (some 10) (some 0)) ∧
      (exec (difference id) (.insert (some 1) (some 10) (some 0))).run fresh = none := by
  obtain ⟨p, hp, hsmall⟩ : ∃ p, nodePool 89478486#64 48 true PoolLedger.memoryOk =
      some (some p) ∧ u32 (p.blockSize * p.capacity) < p.blockSize := ⟨_, rfl, by decide⟩
  obtain ⟨hreturns, htake⟩ := returns_outside hp hsmall fun _ => false
  refine ⟨empty Int Nat (some p), congrArg (Option.map (empty Int Nat)) hp, hreturns, ?_⟩
  have hstuck : (allocateNode (some 0)).run (empty Int Nat (some p)) = none :=
    run_bind_of_stuck _ (run_bind_of_stuck _ (takeNode_stuck (s := empty Int Nat (some p)) htake))
  have hroot : (insertRoot (some 1) (some 10) (some 0)).run (empty Int Nat (some p)) = none :=
    run_bind_of_stuck _ hstuck
  exact hroot

end MuggleC.Dsaa.AvlMap

namespace MuggleC.Dsaa.AvlClear

open Foundation.BalancedTree (Side BinTree)
open Foundation.OrderedMap (TotalOrder difference difference_total)
open Foundation.Blocks Foundation.Program
open Foundation.Transition (run guarded)
open AvlTree AvlShape AvlErase AvlMap Memory NodePool

variable {κ ω : Type}

structure Same (v w : Vars κ ω) : Prop where
  root : v.root = w.root
  nodes : v.nodes = w.nodes
  pool : v.pool = w.pool

abbrev Alike : State κ ω → State κ ω → Prop := Sharing Same

abbrev Blind {α : Type} (p : Op κ ω α) : Prop := Respects Alike p

section Blind

theorem blind_loadRoot : Blind (loadRoot : Op κ ω (Option Nat)) := respects_get fun _ _ h => h.root

theorem blind_storeRoot (p : Option Nat) : Blind (storeRoot p : Op κ ω Unit) :=
  respects_adjust fun _ _ h => ⟨rfl, h.nodes, h.pool⟩

theorem blind_turns : Blind (turns : Op κ ω Nat) :=
  respects_get fun _ _ h => congrArg (· + 1) h.nodes

theorem blind_assert (c : Bool) : Blind (assert c : Op κ ω Unit) := by
  refine respects_adjust fun v w h => ?_
  cases c with
  | false => exact ⟨h.root, h.nodes, h.pool⟩
  | true => exact h

theorem blind_logFree (c : Bool) (f : Freed κ ω) : Blind (logFree c f) := by
  refine respects_adjust fun v w h => ?_
  cases c with
  | false => exact h
  | true => exact ⟨h.root, h.nodes, h.pool⟩

private theorem blind_freeNode (a : Nat) : Blind (freeNode a : Op κ ω Unit) :=
  respects_bind (respects_release a) fun _ => respects_adjust fun _ _ h =>
    ⟨h.root, congrArg (· - 1) h.nodes, congrArg (give · a) h.pool⟩

theorem blind_whenSome (p : Option Nat) {f : Nat → Op κ ω Unit} (h : ∀ a, Blind (f a)) :
    Blind (whenSome p f) := by
  cases p with
  | none => exact respects_pure ()
  | some a => exact h a

theorem blind_allocateNode (got : Option Nat) : Blind (allocateNode got : Op κ ω (Option Nat)) :=
  respects_bind (blind_whenSome got fun a =>
      respects_bind (respects_takeNode (fun _ _ h => h.pool) (fun _ _ _ h => ⟨h.root, h.nodes, rfl⟩) a)
        fun _ => respects_bind (respects_create a _) fun _ =>
          respects_adjust fun _ _ h => ⟨h.root, congrArg (· + 1) h.nodes, h.pool⟩)
    fun _ => respects_pure got

theorem blind_replaceChild (p x : Nat) (z : Option Nat) :
    Blind (replaceChild p x z : Op κ ω Unit) :=
  respects_bind (respects_load p) fun _ => respects_modify p _

theorem blind_sideIn (p x : Nat) : Blind (sideIn p x : Op κ ω Side) :=
  respects_bind (respects_load p) fun _ => respects_pure _

theorem blind_relink (parent : Option Nat) (x z : Nat) : Blind (relink parent x z : Op κ ω Unit) :=
  respects_bind (blind_whenSome parent fun p => blind_replaceChild p x (some z)) fun _ =>
    respects_bind (respects_modify z _) fun _ =>
      respects_bind blind_loadRoot fun _ => blind_storeRoot _

theorem blind_adopt (t : Option Nat) (x : Nat) : Blind (adopt t x : Op κ ω Unit) :=
  blind_whenSome t fun a => respects_modify a _

private theorem blind_rotateSingle (r : SingleRotation) (node : Nat) :
    Blind (rotateSingle r node : Op κ ω Bool) :=
  respects_bind (respects_load node) fun _ => respects_bind (blind_assert _) fun _ =>
    respects_bind (blind_assert _) fun _ => respects_bind (respects_deref _) fun za =>
    respects_bind (respects_load za) fun _ => respects_bind (blind_assert _) fun _ =>
    respects_bind (blind_relink _ node za) fun _ => respects_bind (respects_load za) fun _ =>
    respects_bind (respects_modify node _) fun _ => respects_bind (blind_adopt _ node) fun _ =>
    respects_bind (respects_modify node _) fun _ => respects_bind (respects_modify za _) fun _ =>
    respects_bind (respects_modify node _) fun _ => respects_bind (respects_modify za _) fun _ =>
    respects_pure _

private theorem blind_linkBoth (y l r : Nat) : Blind (linkBoth y l r : Op κ ω Unit) :=
  respects_bind (respects_modify y _) fun _ => respects_bind (respects_modify l _) fun _ =>
    respects_bind (respects_modify y _) fun _ => respects_modify r _

theorem blind_linkSides (d : Side) (y x z : Nat) : Blind (linkSides d y x z : Op κ ω Unit) := by
  cases d with
  | left => exact blind_linkBoth y z x
  | right => exact blind_linkBoth y x z

private theorem blind_rotateDouble (r : DoubleRotation) (node : Nat) :
    Blind (rotateDouble r node : Op κ ω Unit) :=
  respects_bind (respects_load node) fun _ => respects_bind (blind_assert _) fun _ =>
    respects_bind (respects_deref _) fun za => respects_bind (respects_load za) fun _ =>
    respects_bind (blind_assert _) fun _ => respects_bind (blind_assert _) fun _ =>
    respects_bind (blind_assert _) fun _ => respects_bind (respects_deref _) fun ya =>
    respects_bind (respects_load ya) fun _ => respects_bind (blind_relink _ node ya) fun _ =>
    respects_bind (respects_modify node _) fun _ => respects_bind (blind_adopt _ node) fun _ =>
    respects_bind (respects_modify za _) fun _ => respects_bind (blind_adopt _ za) fun _ =>
    respects_bind (blind_linkSides r.high ya node za) fun _ =>
    respects_bind (respects_modify node _) fun _ => respects_bind (respects_modify za _) fun _ =>
    respects_modify ya _

theorem blind_rebalance (node : Nat) : Blind (rebalance node : Op κ ω Bool) :=
  respects_bind (respects_load node) fun _ =>
    respects_ite (respects_bind (respects_deref _) fun ca => respects_bind (respects_load ca) fun _ =>
        respects_ite (blind_rotateSingle _ node)
          (respects_bind (blind_rotateDouble _ node) fun _ => respects_pure true))
      (respects_ite (respects_bind (respects_deref _) fun ca => respects_bind (respects_load ca) fun _ =>
          respects_ite (blind_rotateSingle _ node)
            (respects_bind (blind_rotateDouble _ node) fun _ => respects_pure true))
        (respects_pure false))

private theorem blind_eraseKey (frees : Frees) (node : Nat) :
    Blind (eraseKey frees node : Op κ ω Unit) := by
  refine respects_bind (respects_load node) fun n => ?_
  cases n.key with
  | none => exact respects_pure ()
  | some k => exact respects_bind (blind_logFree _ _) fun _ => respects_modify node _

private theorem blind_eraseValue (frees : Frees) (node : Nat) :
    Blind (eraseValue frees node : Op κ ω Unit) := by
  refine respects_bind (respects_load node) fun n => ?_
  cases n.value with
  | none => exact respects_pure ()
  | some v => exact respects_bind (blind_logFree _ _) fun _ => respects_modify node _

private theorem blind_eraseNode (frees : Frees) (fuel node : Nat) :
    Blind (eraseNode frees fuel node : Op κ ω Unit) := by
  induction fuel generalizing node with
  | zero => exact respects_stuck
  | succ fuel ih =>
    exact respects_bind (respects_load node) fun _ => respects_bind (blind_whenSome _ ih) fun _ =>
      respects_bind (respects_load node) fun _ => respects_bind (blind_whenSome _ ih) fun _ =>
      respects_bind (blind_eraseKey frees node) fun _ =>
      respects_bind (blind_eraseValue frees node) fun _ => respects_bind (respects_load node) fun _ =>
      respects_bind (blind_whenSome _ fun p => blind_replaceChild p node none) fun _ =>
      blind_freeNode node

private theorem blind_insertRetrace (fuel node : Nat) (side : Side) :
    Blind (insertRetrace fuel node side : Op κ ω Unit) := by
  induction fuel generalizing node side with
  | zero => exact respects_stuck
  | succ fuel ih =>
    exact respects_bind (respects_modify node _) fun _ => respects_bind (respects_load node) fun _ =>
      respects_ite (respects_pure ()) (respects_ite
          (blind_whenSome _ fun p => respects_bind (blind_sideIn p node) fun d => ih p d)
          (respects_bind (blind_assert _) fun _ =>
            respects_bind (blind_rebalance node) fun _ => respects_pure ()))

private theorem blind_insertRoot (key : Option κ) (value : Option ω) (got : Option Nat) :
    Blind (insertRoot key value got) := by
  refine respects_bind (blind_allocateNode got) fun node => ?_
  cases node with
  | none => exact respects_pure none
  | some a =>
    exact respects_bind (respects_modify a _) fun _ => respects_bind (blind_storeRoot _) fun _ =>
      respects_pure (some a)

private theorem blind_insertAt (key : Option κ) (value : Option ω) (got : Option Nat) (node : Nat)
    (side : Side) : Blind (insertAt key value got node side) := by
  refine respects_bind (blind_allocateNode got) fun new => ?_
  cases new with
  | none => exact respects_pure none
  | some a =>
    exact respects_bind (respects_modify node _) fun _ => respects_bind (respects_modify a _) fun _ =>
      respects_bind blind_turns fun fuel =>
      respects_bind (blind_insertRetrace fuel node side) fun _ => respects_pure (some a)

private theorem blind_farthest (d : Side) (fuel target : Nat) :
    Blind (farthest d fuel target : Op κ ω Nat) := by
  induction fuel generalizing target with
  | zero => exact respects_stuck
  | succ fuel ih =>
    refine respects_bind (respects_load target) fun n => ?_
    cases n.child d with
    | none => exact respects_pure target
    | some c => exact ih c

private theorem blind_swapData (node target : Nat) : Blind (swapData node target : Op κ ω Unit) :=
  respects_bind (respects_load node) fun _ => respects_bind (respects_load target) fun _ =>
    respects_bind (respects_modify node _) fun _ => respects_bind (respects_modify target _) fun _ =>
    respects_bind (respects_modify node _) fun _ => respects_modify target _

private theorem blind_sink (fuel node : Nat) : Blind (sink fuel node : Op κ ω Nat) := by
  induction fuel generalizing node with
  | zero => exact respects_stuck
  | succ fuel ih =>
    refine respects_bind (respects_load node) fun n => ?_
    cases n.left with
    | some l =>
      exact respects_bind (blind_farthest .right fuel l) fun target =>
        respects_bind (blind_swapData node target) fun _ => ih target
    | none =>
      cases n.right with
      | some r =>
        exact respects_bind (blind_farthest .left fuel r) fun target =>
          respects_bind (blind_swapData node target) fun _ => ih target
      | none => exact respects_pure node

private theorem blind_removeRetrace (fuel node : Nat) (side : Side) :
    Blind (removeRetrace fuel node side : Op κ ω Unit) := by
  induction fuel generalizing node side with
  | zero => exact respects_stuck
  | succ fuel ih =>
    refine respects_bind (respects_modify node _) fun _ => respects_bind (respects_load node) fun n =>
      respects_ite (respects_pure ()) (respects_ite
          (blind_whenSome _ fun p => respects_bind (blind_sideIn p node) fun d => ih p d)
          (respects_bind (blind_assert _) fun _ => ?_))
    cases n.parent with
    | none => exact respects_bind (blind_rebalance node) fun _ => respects_pure ()
    | some p =>
      exact respects_bind (blind_sideIn p node) fun d => respects_bind (blind_rebalance node)
        fun _ => respects_ite (ih p d) (respects_pure ())

theorem blind_remove (frees : Frees) (node : Nat) : Blind (remove frees node : Op κ ω Unit) := by
  refine respects_bind blind_turns fun fuel => respects_bind (blind_sink fuel node) fun leaf =>
    respects_bind (respects_load leaf) fun n => ?_
  cases n.parent with
  | none => exact respects_bind (blind_eraseNode frees fuel leaf) fun _ => blind_storeRoot none
  | some p =>
    exact respects_bind (blind_sideIn p leaf) fun d =>
      respects_bind (blind_eraseNode frees fuel leaf) fun _ => blind_removeRetrace fuel p d

variable (cmp : Option κ → Option κ → Int)

private theorem blind_findFrom (data : Option κ) (fuel : Nat) (p : Option Nat) :
    Blind (findFrom cmp data fuel p : Op κ ω (Option Nat)) := by
  induction fuel generalizing p with
  | zero =>
    cases p with
    | none => exact respects_pure none
    | some a => exact respects_stuck
  | succ fuel ih =>
    cases p with
    | none => exact respects_pure none
    | some a =>
      exact respects_bind (respects_load a) fun n =>
        respects_ite (respects_pure (some a)) (respects_ite (ih n.left) (ih n.right))

private theorem blind_find (data : Option κ) : Blind (find cmp data : Op κ ω (Option Nat)) :=
  respects_bind blind_loadRoot fun root => respects_bind blind_turns fun fuel =>
    blind_findFrom cmp data fuel root

private theorem blind_insertPoint (key : Option κ) (fuel node : Nat) :
    Blind (insertPoint cmp key fuel node : Op κ ω (Option (Nat × Side))) := by
  induction fuel generalizing node with
  | zero => exact respects_stuck
  | succ fuel ih =>
    refine respects_bind (respects_load node) fun n =>
      respects_ite (respects_pure none) (respects_ite ?_ ?_)
    · cases n.left with
      | none => exact respects_pure _
      | some l => exact ih l
    · cases n.right with
      | none => exact respects_pure _
      | some r => exact ih r

private theorem blind_insert (key : Option κ) (value : Option ω) (got : Option Nat) :
    Blind (AvlTree.insert cmp key value got) := by
  refine respects_bind blind_loadRoot fun root => ?_
  cases root with
  | none => exact blind_insertRoot key value got
  | some node =>
    refine respects_bind blind_turns fun fuel =>
      respects_bind (blind_insertPoint cmp key fuel node) fun point => ?_
    rcases point with _ | ⟨node, side⟩
    · exact respects_pure none
    · exact blind_insertAt key value got node side

private theorem blind_exec (c : Call κ ω) : Blind (exec cmp c) := by
  cases c with
  | find key => exact blind_find cmp key
  | insert key value got => exact blind_insert cmp key value got
  | remove frees node => exact respects_bind (blind_remove frees node) fun _ => respects_pure none

end Blind

section Clear

variable (cmp : Option κ → Option κ → Int)

def replies (s : State κ ω) : List (Call κ ω) → Option (List (Option Nat))
  | [] => some []
  | c :: cs => ((exec cmp c).run s).bind fun out => (replies out.2 cs).map (out.1 :: ·)

variable {s : State κ ω} {t : BinTree (Cell κ ω)}

private theorem replies_alike {t : State κ ω} (h : Alike s t) (calls : List (Call κ ω)) :
    replies cmp s calls = replies cmp t calls := by
  induction calls generalizing s t with
  | nil => rfl
  | cons c cs ih =>
    rw [replies, replies]
    have hc := blind_exec cmp c s t h
    revert hc
    generalize (exec cmp c).run s = x
    generalize (exec cmp c).run t = y
    rintro (⟨he, hR⟩ | _)
    · rw [Option.bind_some, Option.bind_some, he, ih hR]
    · rfl

/-- No key is found, and all later calls return what they return on a new tree over the same pool. -/
def ActsNew (u : State κ ω) : Prop :=
  (∀ key, ∃ v, (find cmp key).run u = some (none, v)) ∧
    ∀ calls, replies cmp u calls = replies cmp (empty κ ω u.vars.pool) calls

theorem clear_ends (frees : Frees) (hz : Zip s [] t) : Ends (clear frees) s fun _ u =>
      (∀ a, u.heap a = none) ∧ u.vars.root = s.vars.root ∧ u.vars.nodes = 0 := by
  have hroot : s.vars.root = ptr t := hz.root
  have hbound := hz.bound
  have hcount := hz.owned.count
  have hmem := hz.owned.mem
  have hnd := hz.owned.nodup
  rw [ctxAddrs, List.append_nil] at hcount hmem hnd
  rw [clear, ends_bind, ends_loadRoot, ends_bind, ends_turns, hroot]
  have hparent : ∀ q, none = some q → q ∉ addrs t ∧ s.heap q ≠ none := by
    intro q hq
    cases hq
  refine (erase_ends frees hz.tree hnd hparent (by rw [List.length_nil] at hbound; omega)).mono ?_
  rintro _ u he
  refine ⟨?_, he.root.trans hroot, ?_⟩
  · intro a
    by_cases ha : a ∈ addrs t
    · exact he.gone a ha
    · rw [he.frame a ha (Option.some_ne_none a).symm]
      cases hs : s.heap a with
      | none => rfl
      | some n => exact absurd (hmem a n hs) ha
  · rw [he.nodes, hcount]
    exact Nat.sub_self _

theorem find_run (u : State κ ω) (key : Option κ) :
    (find cmp key).run u = (findFrom cmp key (u.vars.nodes + 1) u.vars.root).run u := rfl

theorem find_stuck {u : State κ ω} {a : Nat} (hroot : u.vars.root = some a) (ha : u.heap a = none)
    (key : Option κ) : (find cmp key).run u = none := by
  rw [find_run, hroot]
  change ((u.heap a).map _).bind _ = none
  rw [ha]
  rfl

theorem root_none_of_acts_new {frees : Frees} {u : State κ ω} (hz : Zip s [] t)
    (hclear : (clear frees).run s = some ((), u)) (hnew : ActsNew cmp u) : s.vars.root = none := by
  obtain ⟨_, u', hclear', hheap, hroot, _⟩ := clear_ends frees hz
  cases hclear.symm.trans hclear'
  cases hs : s.vars.root with
  | none => rfl
  | some a =>
    obtain ⟨v, hv⟩ := hnew.1 none
    rw [find_stuck cmp (hroot.trans hs) (hheap a)] at hv
    cases hv

/-- After any calls, a tree that is cleared acts as a new one exactly when it was empty. -/
theorem clear_acts_new_iff (ho : TotalOrder cmp) {capacity : BitVec 64} {poolMem : Bool}
    {mem : Malloc} {fresh : State κ ω} (hinit : init κ ω true capacity poolMem mem = some fresh)
    (hfit : SizeFits fresh.vars.pool) {calls : List (Call κ ω)} {s : State κ ω} {m : KeyMap κ ω}
    (hrun : run (guarded (step cmp) fun q c => Admissible q.1 c) (fresh, fun _ => none) calls =
      some (s, m)) (frees : Frees) :
    (∃ u, (clear frees).run s = some ((), u) ∧ ActsNew cmp u) ↔ s.vars.root = none := by
  obtain ⟨t, h⟩ := good_of_run ho hinit hfit hrun
  constructor
  · rintro ⟨u, hclear, hnew⟩
    exact root_none_of_acts_new cmp h.linked hclear hnew
  · intro hnone
    obtain ⟨_, u, hclear, hheap, hroot, hnodes⟩ := clear_ends frees h.linked
    have halike : Alike u (empty κ ω u.vars.pool) :=
      ⟨funext hheap, hroot.trans hnone, hnodes, rfl⟩
    refine ⟨u, hclear, ?_, replies_alike cmp halike⟩
    intro key
    refine ⟨u, ?_⟩
    rw [find_run, halike.vars.root]
    rfl

theorem clear_acts_new_after_removal :
    ∃ fresh s m, init Int Nat true 2#64 true PoolLedger.memoryOk = some fresh ∧
      run (guarded (step (difference id)) fun q c => Admissible q.1 c) (fresh, fun _ => none)
        [.insert (some 1) (some 10) (some 0), .remove ⟨true, true⟩ 0] = some (s, m) ∧
      ∃ u, (clear ⟨true, true⟩).run s = some ((), u) ∧ ActsNew (difference id) u := by
  have hempty : ((init Int Nat true 2#64 true PoolLedger.memoryOk).bind fun fresh =>
      (run (guarded (step (difference id)) fun q c => Admissible q.1 c) (fresh, fun _ => none)
        [.insert (some 1) (some 10) (some 0), .remove ⟨true, true⟩ 0]).map fun q =>
          (SizeFits fresh.vars.pool, q.1.vars.root)) = some (true, none) := by decide +kernel
  obtain ⟨fresh, hinit, hq⟩ := Option.bind_eq_some_iff.mp hempty
  obtain ⟨⟨s, m⟩, hrun, hq⟩ := Option.map_eq_some_iff.mp hq
  obtain ⟨hfit, hroot⟩ := Prod.mk.inj hq
  exact ⟨fresh, s, m, hinit, hrun,
    (clear_acts_new_iff (difference id) (difference_total id) hinit hfit hrun ⟨true, true⟩).mpr hroot⟩

theorem clear_leaves_released_root :
    ¬ ∀ (fresh : State Int Nat), init Int Nat true 0#64 true PoolLedger.memoryOk = some fresh →
      ∀ (calls : List (Call Int Nat)) (s : State Int Nat) (m : KeyMap Int Nat),
      run (guarded (step (difference id)) fun q c => Admissible q.1 c) (fresh, fun _ => none) calls =
        some (s, m) →
      ∀ frees, ∃ u, (clear frees).run s = some ((), u) ∧ ActsNew (difference id) u := by
  intro h
  have hone : ((init Int Nat true 0#64 true PoolLedger.memoryOk).bind fun fresh =>
      (run (guarded (step (difference id)) fun q c => Admissible q.1 c) (fresh, fun _ => none)
        [.insert (some 1) (some 10) (some 100)]).map fun q =>
          (SizeFits fresh.vars.pool, q.1.vars.root)) = some (true, some 100) := by decide +kernel
  obtain ⟨fresh, hinit, hq⟩ := Option.bind_eq_some_iff.mp hone
  obtain ⟨⟨s, m⟩, hrun, hq⟩ := Option.map_eq_some_iff.mp hq
  obtain ⟨hfit, hroot⟩ := Prod.mk.inj hq
  obtain ⟨u, hclear, hnew⟩ := h fresh hinit _ s m hrun ⟨true, true⟩
  obtain ⟨t, hgood⟩ := good_of_run (difference_total id) hinit hfit hrun
  cases (root_none_of_acts_new (difference id) hgood.linked hclear hnew).symm.trans hroot

end Clear

end MuggleC.Dsaa.AvlClear
