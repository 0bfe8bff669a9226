/- source: dsaa/avl_tree.c
   digest: The release of a subtree, and the ways down and up of a removal. -/

import MuggleC.Dsaa.AvlInsert

set_option autoImplicit false

namespace MuggleC.Dsaa.AvlErase

open Foundation.BalancedTree (Side BinTree)
open Foundation.Blocks Foundation.Program AvlTree AvlShape NodePool

variable {κ ω : Type} (frees : Frees)

def freedData (key : Option κ) (value : Option ω) : List (Freed κ ω) :=
  (if frees.key then key.toList.map .key else []) ++
    if frees.value then value.toList.map .value else []

def freedTree : BinTree (Cell κ ω) → List (Freed κ ω)
  | .leaf => []
  | .node l x _ r => freedTree l ++ freedTree r ++ freedData frees x.key x.value

section Rules

variable {s : State κ ω} {a : Nat} {n : Node κ ω} {post : Unit → State κ ω → Prop}

def logged (s : State κ ω) (l : List (Freed κ ω)) : State κ ω :=
  s.adjust fun v => { v with freed := v.freed ++ l }

theorem logged_nil (s : State κ ω) : logged s [] = s := by
  rw [logged, Store.adjust, List.append_nil]

theorem ends_logFree {c : Bool} {f : Freed κ ω} :
    Ends (logFree c f) s post ↔ post () (logged s (if c then [f] else [])) := by
  rw [logFree, ends_adjust]
  cases c with
  | false => rw [if_neg Bool.false_ne_true, logged_nil]; rfl
  | true => rfl

private theorem ends_eraseKey (h : s.heap a = some n) : Ends (eraseKey frees a) s post ↔
      post () ((logged s (if frees.key then n.key.toList.map .key else [])).write a
        (some (n.setKey none))) := by
  rw [eraseKey, ends_bind, ends_load h]
  obtain ⟨l, r, p, b, key, value⟩ := n
  cases key with
  | none =>
    have hlog : (if frees.key then (none : Option κ).toList.map (Freed.key (ω := ω)) else []) = [] :=
      ite_self _
    rw [hlog, logged_nil]
    exact ends_pure.trans (by rw [Node.setKey, write_same h])
  | some k =>
    rw [ends_bind, ends_logFree]
    exact ends_modify h

private theorem ends_eraseValue (h : s.heap a = some n) : Ends (eraseValue frees a) s post ↔
      post () ((logged s (if frees.value then n.value.toList.map .value else [])).write a
        (some (n.setValue none))) := by
  rw [eraseValue, ends_bind, ends_load h]
  obtain ⟨l, r, p, b, key, value⟩ := n
  cases value with
  | none =>
    have hlog : (if frees.value then (none : Option ω).toList.map (Freed.value (κ := κ)) else []) =
        [] := ite_self _
    rw [hlog, logged_nil]
    exact ends_pure.trans (by rw [Node.setValue, write_same h])
  | some v =>
    rw [ends_bind, ends_logFree]
    exact ends_modify h

def released (s : State κ ω) (a : Nat) : State κ ω :=
  (s.write a none).adjust fun v => { v with nodes := v.nodes - 1, pool := give v.pool a }

private theorem ends_freeNode (h : s.heap a = some n) :
    Ends (freeNode a) s post ↔ post () (released s a) := by
  rw [freeNode, ends_bind, ends_release h, ends_adjust]
  rfl

private theorem released_self (s : State κ ω) (a : Nat) : (released s a).heap a = none :=
  heap_write_self (s := s)

theorem released_of_ne (s : State κ ω) {a c : Nat} (h : c ≠ a) : (released s a).heap c = s.heap c :=
  heap_write_of_ne (s := s) h

end Rules

structure Unlinked (a : Nat) (n : Node κ ω) (s u : State κ ω) : Prop where
  gone : u.heap a = none
  cut : ∀ q m, n.parent = some q → s.heap q = some m →
    u.heap q = some (m.setChild (if m.left = some a then .left else .right) none)
  frame : ∀ c, c ≠ a → n.parent ≠ some c → u.heap c = s.heap c
  root : u.vars.root = s.vars.root
  nodes : u.vars.nodes = s.vars.nodes - 1
  failedAsserts : u.vars.failedAsserts = s.vars.failedAsserts
  freed : u.vars.freed = s.vars.freed ++ freedData frees n.key n.value
  pool : u.vars.pool = give s.vars.pool a

private theorem eraseSelf_ends {s : State κ ω} {a : Nat} {n : Node κ ω} (hn : s.heap a = some n)
    (hp : ∀ q, n.parent = some q → q ≠ a ∧ s.heap q ≠ none) : Ends (do
      eraseKey frees a
      eraseValue frees a
      let n ← load a
      whenSome n.parent fun p => replaceChild p a none
      freeNode a) s fun _ u => Unlinked frees a n s u := by
  rw [ends_bind, ends_eraseKey frees hn, ends_bind, ends_eraseValue frees (heap_write_self),
    ends_bind, ends_load (heap_write_self), ends_bind]
  generalize hu : Store.write _ a _ = u
  have hself : u.heap a = some ((n.setKey none).setValue none) := by
    rw [← hu]
    exact heap_write_self
  have hother : ∀ c, c ≠ a → u.heap c = s.heap c := by
    intro c hc
    rw [← hu]
    exact (heap_write_of_ne hc).trans (heap_write_of_ne hc)
  have hfreed : u.vars.freed = s.vars.freed ++ freedData frees n.key n.value := by
    rw [← hu]
    exact List.append_assoc _ _ _
  have hroot : u.vars.root = s.vars.root := by rw [← hu]; rfl
  have hnodes : u.vars.nodes = s.vars.nodes := by rw [← hu]; rfl
  have hasserts : u.vars.failedAsserts = s.vars.failedAsserts := by rw [← hu]; rfl
  have hpool : give u.vars.pool a = give s.vars.pool a := by rw [← hu]; rfl
  change Ends (whenSome n.parent _) u _
  cases hparent : n.parent with
  | none =>
    rw [whenSome, ends_pure, ends_freeNode hself]
    refine ⟨released_self u a, ?_, ?_, hroot, ?_, hasserts, hfreed, hpool⟩
    · rintro q m hq
      rw [hparent] at hq
      cases hq
    · exact fun c hc _ => (released_of_ne u hc).trans (hother c hc)
    · exact congrArg (· - 1) hnodes
  | some q =>
    obtain ⟨hqa, hq⟩ := hp q hparent
    obtain ⟨m, hm⟩ := Option.ne_none_iff_exists'.mp hq
    have hum : u.heap q = some m := (hother q hqa).trans hm
    rw [whenSome, replaceChild, ends_bind, ends_load hum, ends_modify hum,
      ends_freeNode ((heap_write_of_ne hqa.symm).trans hself)]
    refine ⟨released_self _ a, ?_, ?_, hroot, ?_, hasserts, hfreed, hpool⟩
    · intro q' m' hq' hm'
      obtain rfl := Option.some.inj (hparent.symm.trans hq')
      obtain rfl := Option.some.inj (hm.symm.trans hm')
      exact (released_of_ne _ hqa).trans (heap_write_self)
    · intro c hc hpc
      have hcq : c ≠ q := by
        rintro rfl
        exact hpc hparent
      exact (released_of_ne _ hc).trans ((heap_write_of_ne hcq).trans (hother c hc))
    · exact congrArg (· - 1) hnodes

structure Erased (p : Option Nat) (t : BinTree (Cell κ ω)) (s u : State κ ω) : Prop where
  gone : ∀ a ∈ addrs t, u.heap a = none
  cut : ∀ q d y b pp i, p = some q → s.heap q = some (nodeOf d y b pp i (ptr t)) →
    (i = ptr t → i = none) → u.heap q = some (nodeOf d y b pp i none)
  frame : ∀ a, a ∉ addrs t → p ≠ some a → u.heap a = s.heap a
  root : u.vars.root = s.vars.root
  nodes : u.vars.nodes = s.vars.nodes - (addrs t).length
  failedAsserts : u.vars.failedAsserts = s.vars.failedAsserts
  freed : u.vars.freed = s.vars.freed ++ freedTree frees t
  backed : ∀ used, Backed s.vars.pool used → (∀ a ∈ addrs t, used a) →
    Backed u.vars.pool fun a => a ∉ addrs t ∧ used a

private theorem ptr_ne_of_disjoint {l r : BinTree (Cell κ ω)} (h : ∀ a ∈ addrs l, a ∉ addrs r)
    (he : ptr r = ptr l) : ptr r = none := by
  cases hr : ptr r with
  | none => rfl
  | some a => exact absurd (mem_addrs_of_ptr hr) (h a (mem_addrs_of_ptr (he.symm.trans hr)))

theorem Erased.node {p : Option Nat} {l r : BinTree (Cell κ ω)} {x : Cell κ ω} {b : Int}
    {s s₁ s₂ u : State κ ω} (hap : Apart x.addr (addrs l) (addrs r) [])
    (hp : ∀ q, p = some q → q ∉ addrs (.node l x b r)) (hl : Erased frees (some x.addr) l s s₁)
    (hr : Erased frees (some x.addr) r s₁ s₂)
    (hx : Unlinked frees x.addr (nodeOf .right x b p none none) s₂ u) :
    Erased frees p (.node l x b r) s u := by
  have hmem : ∀ a, a ∈ addrs (.node l x b r) ↔ a = x.addr ∨ a ∈ addrs l ∨ a ∈ addrs r :=
    fun a => mem_addrs_join (d := .right)
  have hkeep : ∀ a, a ∉ addrs (.node l x b r) → s₂.heap a = s.heap a := by
    intro a ha
    rw [hmem, not_or, not_or] at ha
    have hne : some x.addr ≠ some a := fun h => ha.1 (Option.some.inj h).symm
    exact (hr.frame a ha.2.2 hne).trans (hl.frame a ha.2.1 hne)
  have hbelow : ∀ a, a ∈ addrs l ∨ a ∈ addrs r → s₂.heap a = none := by
    rintro a (ha | ha)
    · refine (hr.frame a (hap.innerOuter a ha) ?_).trans (hl.gone a ha)
      rintro h
      cases h
      exact hap.rootInner ha
    · exact hr.gone a ha
  refine ⟨?_, ?_, ?_, hx.root.trans (hr.root.trans hl.root), ?_, ?_, ?_, ?_⟩
  · intro a ha
    by_cases hax : a = x.addr
    · rw [hax]
      exact hx.gone
    · refine (hx.frame a hax ?_).trans (hbelow a (((hmem a).mp ha).resolve_left hax))
      exact fun hpa => hp a hpa ha
  · intro q d y c pp i hq hs hi
    have hs₂ := (hkeep q (hp q hq)).trans hs
    have hcut := hx.cut q _ hq hs₂
    have hne : i ≠ some x.addr := fun h => Option.some_ne_none _ (h.symm.trans (hi h))
    rw [ptr, side_nodeOf d y c pp i hne, setChild_nodeOf] at hcut
    exact hcut
  · intro a ha hpa
    exact (hx.frame a (fun h => ha ((hmem a).mpr (.inl h))) hpa).trans (hkeep a ha)
  · have hlen : (addrs (.node l x b r)).length = (addrs l).length + (addrs r).length + 1 := by
      refine (addrs_join_perm .right x b l r).length_eq.trans ?_
      rw [List.length_cons, List.length_append]
    rw [hx.nodes, hr.nodes, hl.nodes, hlen]
    omega
  · exact hx.failedAsserts.trans (hr.failedAsserts.trans hl.failedAsserts)
  · rw [hx.freed, hr.freed, hl.freed, freedTree, nodeOf_key, nodeOf_value]
    simp only [List.append_assoc]
  · intro used hs hused
    have h₁ := hl.backed used hs fun a ha => hused a ((hmem a).mpr (.inr (.inl ha)))
    have h₂ := hr.backed _ h₁ fun a ha =>
      ⟨fun hal => hap.innerOuter a hal ha, hused a ((hmem a).mpr (.inr (.inr ha)))⟩
    rw [hx.pool]
    refine (h₂.give ⟨hap.rootOuter, hap.rootInner, hused _ ((hmem _).mpr (.inl rfl))⟩).congr ?_
    intro a
    rw [hmem]
    tauto

theorem erase_ends {t : BinTree (Cell κ ω)} {s : State κ ω} {p : Option Nat} {fuel : Nat}
    (ht : Rep s.heap p t) (hnd : (addrs t).Nodup)
    (hp : ∀ q, p = some q → q ∉ addrs t ∧ s.heap q ≠ none) (hfuel : t.height ≤ fuel) :
    Ends (whenSome (ptr t) (eraseNode frees fuel)) s fun _ u => Erased frees p t s u := by
  induction t generalizing s p fuel with
  | leaf =>
    rw [ptr, whenSome, ends_pure]
    exact ⟨fun _ ha => absurd ha List.not_mem_nil, fun _ _ _ _ _ _ _ hs _ => hs, fun _ _ _ => rfl,
      rfl, rfl, rfl, (List.append_nil _).symm,
      fun _ hs _ => hs.congr fun _ => and_iff_right List.not_mem_nil⟩
  | node l x b r ihl ihr =>
    obtain ⟨hx, hl, hr⟩ := ht
    have hap : Apart x.addr (addrs l) (addrs r) [] :=
      apart_of_nodup (d := .right) (b := b) (by rw [List.append_nil]; exact hnd)
    rw [BinTree.height] at hfuel
    obtain ⟨fuel, rfl⟩ : ∃ k, fuel = k + 1 := ⟨fuel - 1, by omega⟩
    rw [ptr, whenSome, eraseNode, ends_bind, ends_load hx, ends_bind]
    refine (ihl hl hap.inner ?_ (by omega)).mono ?_
    · intro q hq
      cases hq
      exact ⟨hap.rootInner, by rw [hx]; exact Option.some_ne_none _⟩
    rintro _ s₁ h₁
    have hx₁ : s₁.heap x.addr = some (nodeOf .right x b p none (ptr r)) :=
      h₁.cut x.addr .left x b p (ptr r) rfl hx (ptr_ne_of_disjoint hap.innerOuter)
    have hr₁ : Rep s₁.heap (some x.addr) r := by
      refine hr.congr fun a ha => h₁.frame a (fun ha' => hap.innerOuter a ha' ha) ?_
      intro h
      cases h
      exact hap.rootOuter ha
    rw [ends_bind, ends_load hx₁, ends_bind]
    refine (ihr hr₁ hap.outer ?_ (by omega)).mono ?_
    · intro q hq
      cases hq
      exact ⟨hap.rootOuter, by rw [hx₁]; exact Option.some_ne_none _⟩
    rintro _ s₂ h₂
    have hx₂ : s₂.heap x.addr = some (nodeOf .right x b p none none) :=
      h₂.cut x.addr .right x b p none rfl hx₁ fun _ => rfl
    refine (eraseSelf_ends frees hx₂ ?_).mono ?_
    · intro q hq
      obtain ⟨hmem, halloc⟩ := hp q hq
      have hout := mt (mem_addrs_join (d := .right)).mpr hmem
      rw [not_or, not_or] at hout
      have hne : some x.addr ≠ some q := fun h => hout.1 (Option.some.inj h).symm
      refine ⟨hout.1, ?_⟩
      rw [h₂.frame q hout.2.2 hne, h₁.frame q hout.2.1 hne]
      exact halloc
    · rintro _ u hu
      exact Erased.node frees hap (fun q hq => (hp q hq).1) h₁ h₂ hu

end MuggleC.Dsaa.AvlErase

namespace MuggleC.Dsaa.AvlRemove

open Foundation.BalancedTree (Side BinTree Frame join plug before after shrink Shrunk Spine
  below exists_join height_join height_le_plug plug_append before_append after_append inorder_plug
  balanced_plug balanced_plug_relabel below_leaf join_eq_node join_other)
open Foundation.Blocks Foundation.Program AvlTree AvlShape AvlRotate AvlInsert AvlErase
open List hiding after

variable {κ ω : Type}

def datum (x : Cell κ ω) : Option κ × Option ω := (x.key, x.value)

def holding (x y : Cell κ ω) : Cell κ ω := ⟨x.addr, y.key, y.value⟩

variable {s : State κ ω} {path ctx : List (Frame (Cell κ ω))} {t : BinTree (Cell κ ω)}

private theorem zip_append : Zip s (path ++ ctx) t ↔ Zip s ctx (plug path t) := by
  rw [zip_plug, plug_append, ← zip_plug]

variable {a fuel : Nat} {p : Option Nat} {x y : Cell κ ω} {b c : Int} {inner i : BinTree (Cell κ ω)}
    {s u : State κ ω} {f : Frame (Cell κ ω)} {fs : List (Frame (Cell κ ω))}

private theorem mem_addrs_plug {path : List (Frame (Cell κ ω))}
    (h : a ∈ addrs t) : a ∈ addrs (plug path t) := by
  rw [addrs, inorder_plug, map_append, map_append]
  exact mem_append_left _ (mem_append_right _ h)

private theorem farthest_ends (d : Side) (ht : Rep s.heap p t) (ha : ptr t = some a)
    (hfuel : t.height ≤ fuel) : Ends (farthest d fuel a) s fun res u => u = s ∧ ∃ path y c i,
      Spine d path ∧ t = plug path (join d y c i .leaf) ∧ res = y.addr := by
  induction fuel generalizing t p a with
  | zero =>
    cases t with
    | leaf => cases ha
    | node l x b r =>
      rw [BinTree.height] at hfuel
      omega
  | succ fuel ih =>
    have hpos : 0 < t.height := by
      cases t with
      | leaf => cases ha
      | node l x b r =>
        rw [BinTree.height]
        omega
    obtain ⟨x, b, i, o, rfl⟩ := exists_join d hpos
    obtain ⟨hx, _, ho⟩ := rep_join.mp ht
    rw [ptr_join] at ha
    cases ha
    rw [height_join] at hfuel
    rw [farthest, ends_bind, ends_load hx, nodeOf_child]
    cases hptr : ptr o with
    | none =>
      have hleaf : o = .leaf := by
        cases o with
        | leaf => rfl
        | node l z c r => cases hptr
      rw [hleaf]
      exact ends_pure.mpr ⟨rfl, [], x, b, i, fun f hf => absurd hf not_mem_nil, rfl, rfl⟩
    | some c =>
      refine (ih ho hptr (by omega)).mono ?_
      rintro res u ⟨rfl, path, y, c, i', hpath, rfl, rfl⟩
      refine ⟨rfl, path ++ [⟨d, x, b, i⟩], y, c, i', ?_, ?_, rfl⟩
      · intro f hf
        rcases mem_append.mp hf with hf | hf
        · exact hpath f hf
        · rw [mem_singleton.mp hf]
      · rw [plug_append]
        rfl

private theorem swapData_ends {e d : Side} {o : BinTree (Cell κ ω)}
    (hz : Zip s ctx (join e x b inner (plug path (join d y c i o)))) :
    Ends (swapData x.addr y.addr) s fun _ u =>
      Zip u (path ++ ⟨e, holding x y, b, inner⟩ :: ctx) (join d (holding y x) c i o) ∧
        Rest s u := by
  have hxy : x.addr ≠ y.addr := by
    intro h
    refine hz.apart.rootOuter (mem_addrs_plug ?_)
    rw [h]
    exact mem_addrs_join.mpr (.inl rfl)
  have hx := hz.load
  have hz₁ := zip_append.mpr ((zip_cons (f := ⟨e, holding x y, b, inner⟩)).mpr
    (hz.relabel (y := holding x y) (c := b) rfl))
  have hy := (heap_write_of_ne hxy.symm).symm.trans hz₁.load
  have hz₂ := hz₁.relabel (y := holding y x) (c := c) rfl
  rw [swapData, ends_bind, ends_load hx, ends_bind, ends_load hy, ends_bind, ends_modify hx,
    ends_bind, ends_modify ((heap_write_of_ne hxy.symm).trans hy), ends_bind,
    ends_modify ((heap_write_of_ne hxy).trans (heap_write_self)),
    ends_modify ((heap_write_of_ne hxy.symm).trans (heap_write_self))]
  simp only [nodeOf_key, nodeOf_value, setKey_nodeOf, setValue_nodeOf]
  rw [write_comm hxy.symm, write_write, write_write]
  exact ⟨hz₂, ⟨rfl, rfl, rfl, rfl⟩⟩

private theorem around_swap (e : Side) (hpath : Spine e.other path) :
    (before (path ++ ⟨e, holding x y, b, inner⟩ :: ctx) ++ i.inorder ++
        after (path ++ ⟨e, holding x y, b, inner⟩ :: ctx)).map datum =
      (before ctx ++ below e inner (plug path (join e.other y c i .leaf)) ++ after ctx).map
        datum := by
  rw [before_append, after_append, before, after]
  cases e with
  | left =>
    have hafter : after path = [] := hpath.after_eq_nil
    simp [below, inorder_plug, hafter, Frame.before, Frame.after, Side.other, join, BinTree.inorder,
      datum, holding]
  | right =>
    have hbefore : before path = [] := hpath.before_eq_nil
    simp [below, inorder_plug, hbefore, Frame.before, Frame.after, Side.other, join, BinTree.inorder,
      datum, holding]

def Sunk (others : List (Cell κ ω)) (x : Cell κ ω) (s : State κ ω) (res : Nat) (u : State κ ω) :
    Prop :=
  ∃ hole y c, res = y.addr ∧ Zip u hole (.node .leaf y c .leaf) ∧
    (plug hole (.node .leaf y c .leaf)).Balanced ∧ datum y = datum x ∧
    (before hole ++ after hole).map datum = others.map datum ∧ Rest s u

private theorem sinkThrough_ends (e : Side) {outer : BinTree (Cell κ ω)}
    (ih : ∀ {s : State κ ω} {ctx : List (Frame (Cell κ ω))} {d : Side} {x : Cell κ ω} {b : Int}
      {i o : BinTree (Cell κ ω)}, Zip s ctx (join d x b i o) → (plug ctx (join d x b i o)).Balanced →
      (join d x b i o).height ≤ fuel →
      Ends (sink fuel x.addr) s (Sunk (before ctx ++ below d i o ++ after ctx) x s))
    (hz : Zip s ctx (join e x b inner outer)) (hb : (plug ctx (join e x b inner outer)).Balanced)
    (ha : ptr outer = some a) (hfuel : outer.height ≤ fuel) :
    Ends (do
      let target ← farthest e.other fuel a
      swapData x.addr target
      sink fuel target) s (Sunk (before ctx ++ below e inner outer ++ after ctx) x s) := by
  rw [ends_bind]
  refine (farthest_ends e.other (rep_join.mp hz.tree).2.2 ha hfuel).mono ?_
  rintro _ u ⟨rfl, path, y, c, i, hpath, rfl, rfl⟩
  rw [ends_bind]
  refine (swapData_ends hz).mono ?_
  rintro _ s₁ ⟨hz₁, hrest₁⟩
  have hb₁ : (plug (path ++ ⟨e, holding x y, b, inner⟩ :: ctx)
      (join e.other (holding y x) c i .leaf)).Balanced := by
    refine balanced_plug_relabel (x := y) ?_
    rw [plug_append]
    exact balanced_plug_relabel (x := x) hb
  have hh : (join e.other (holding y x) c i .leaf).height ≤ fuel := by
    have hle := height_le_plug path (join e.other y c i .leaf)
    rw [height_join] at hle ⊢
    omega
  refine (ih hz₁ hb₁ hh).mono ?_
  rintro res u ⟨hole, z, k, hres, hzip, hbal, hdatum, hothers, hrest⟩
  refine ⟨hole, z, k, hres, hzip, hbal, hdatum, ?_, hrest₁.trans hrest⟩
  rw [hothers, below_leaf]
  exact around_swap e hpath

private theorem sink_ends {d : Side} {o : BinTree (Cell κ ω)} (hz : Zip s ctx (join d x b i o))
    (hb : (plug ctx (join d x b i o)).Balanced) (hfuel : (join d x b i o).height ≤ fuel) :
    Ends (sink fuel x.addr) s (Sunk (before ctx ++ below d i o ++ after ctx) x s) := by
  induction fuel generalizing s ctx d x b i o with
  | zero =>
    rw [height_join] at hfuel
    omega
  | succ fuel ih =>
    obtain ⟨l, r, hnode, hbelow⟩ := join_eq_node d x b i o
    rw [hnode] at hz hb hfuel
    rw [hbelow]
    rw [BinTree.height] at hfuel
    rw [sink, ends_bind, ends_load (hz.load (d := .right))]
    cases l with
    | node ll y c lr => exact sinkThrough_ends .left ih hz hb rfl (by omega)
    | leaf =>
      cases r with
      | node rl y c rr => exact sinkThrough_ends .right ih hz hb rfl (by omega)
      | leaf =>
        refine ends_pure.mpr ⟨ctx, x, b, rfl, hz, hb, rfl, ?_, Rest.refl s⟩
        rw [BinTree.inorder, append_nil, append_nil]

variable (frees : Frees)

private theorem eraseLeaf_ends (hz : Zip s ctx (.node .leaf y c .leaf)) (hfuel : 0 < fuel) :
    Ends (eraseNode frees fuel y.addr) s fun _ u =>
      Erased frees (parentPtr ctx) (.node .leaf y c .leaf) s u := by
  refine erase_ends frees hz.tree (nodup_append.mp hz.owned.nodup).1 ?_ hfuel
  intro q hq
  cases ctx with
  | nil => cases hq
  | cons f fs =>
    cases hq
    refine ⟨fun hmem => ?_, hz.around.allocated mem_cons_self⟩
    exact (nodup_append.mp hz.owned.nodup).2.2 _ hmem _ mem_cons_self rfl

private theorem detach_root (hz : Zip s [] (.node .leaf y c .leaf))
    (he : Erased frees none (.node .leaf y c .leaf) s u) :
    Zip (u.adjust (setRoot none)) [] BinTree.leaf := by
  have hout : ∀ a, a ∉ addrs (.node .leaf y c .leaf) →
      a ∉ addrs (.node .leaf y c .leaf) ++ ctxAddrs (κ := κ) (ω := ω) [] := by
    intro a ha
    rwa [ctxAddrs, append_nil]
  refine ⟨rfl, trivial, trivial, nodup_nil, ?_, ?_, ?_⟩
  · exact he.nodes.trans (by rw [hz.owned.count]; rfl)
  · intro a n ha
    by_cases hmem : a ∈ addrs (.node .leaf y c .leaf)
    · cases (he.gone a hmem).symm.trans ha
    · have hs := (he.frame a hmem (Option.some_ne_none a).symm).symm.trans ha
      exact absurd (hz.owned.mem a n hs) (hout a hmem)
  · refine (he.backed _ hz.owned.backed fun a ha => mem_append_left _ ha).congr fun a => ?_
    exact iff_of_false not_mem_nil fun h => hout a h.1 h.2

private theorem detach_zip (hz : Zip s (f :: fs) (.node .leaf y c .leaf))
    (he : Erased frees (some f.label.addr) (.node .leaf y c .leaf) s u) :
    Zip u (f :: fs) BinTree.leaf := by
  obtain ⟨hf, hs, hc⟩ := hz.around
  obtain ⟨_, hnd, hdisj⟩ := nodup_append.mp hz.owned.nodup
  have hout : ∀ a ∈ ctxAddrs (f :: fs), a ∉ addrs (.node .leaf y c .leaf) :=
    fun a ha hmem => hdisj a hmem a ha rfl
  have hkeep : ∀ a ∈ addrs f.sibling ++ ctxAddrs fs, u.heap a = s.heap a := by
    intro a ha
    refine he.frame a (hout a (mem_cons_of_mem _ ha)) ?_
    intro h
    cases h
    exact (nodup_cons.mp hnd).1 ha
  have hsib : ptr f.sibling = some y.addr → ptr f.sibling = none := by
    intro h
    have hmem := mem_cons_of_mem f.label.addr
      (mem_append_left (ctxAddrs fs) (mem_addrs_of_ptr h))
    exact absurd mem_cons_self (hout y.addr hmem)
  refine ⟨he.root.trans hz.root, ⟨he.cut _ _ _ _ _ _ rfl hf hsib, hs.congr ?_, hc.congr ?_⟩,
    trivial, hnd, ?_, ?_, ?_⟩
  · exact fun a ha => hkeep a (mem_append_left _ ha)
  · exact fun a ha => hkeep a (mem_append_right _ ha)
  · rw [he.nodes, hz.owned.count, length_append]
    exact Nat.add_sub_cancel_left _ _
  · intro a n ha
    by_cases hmem : a ∈ addrs (.node .leaf y c .leaf)
    · cases (he.gone a hmem).symm.trans ha
    · by_cases hfa : a = f.label.addr
      · rw [hfa]
        exact mem_cons_self
      · have hne : some f.label.addr ≠ some a := fun h => hfa (Option.some.inj h).symm
        have hs := (he.frame a hmem hne).symm.trans ha
        exact (mem_append.mp (hz.owned.mem a n hs)).resolve_left hmem
  · refine (he.backed _ hz.owned.backed fun a ha => mem_append_left _ ha).congr fun a => ?_
    change a ∈ ctxAddrs (f :: fs) ↔ _
    exact ⟨fun ha => ⟨hout a ha, mem_append_right _ ha⟩,
      fun ⟨hmem, ha⟩ => (mem_append.mp ha).resolve_left hmem⟩

private theorem removeRetrace_ends (hz : Zip s (f :: fs) t) (hs : Shrunk (f :: fs) t)
    (hfuel : fs.length < fuel) : Ends (removeRetrace fuel f.label.addr f.side) s fun _ u =>
      Zip u [] (shrink (f :: fs) t) ∧ Rest s u := by
  induction fuel generalizing s f fs t with
  | zero => omega
  | succ fuel ih =>
    refine bump_ends hz (fun b => b - f.side.sign) ?_
    intro s₁ hz₁ hrest
    rw [nodeOf_balance, nodeOf_parent, shrink]
    by_cases hunit : f.balance - f.side.sign = 1 ∨ f.balance - f.side.sign = -1
    · rw [if_pos hunit, if_pos hunit, ends_pure]
      exact ⟨zip_plug.mp hz₁, hrest⟩
    · rw [if_neg hunit, if_neg hunit]
      by_cases hzero : f.balance - f.side.sign = 0
      · rw [if_pos hzero, if_pos hzero]
        cases fs with
        | nil =>
          rw [parentPtr, whenSome, ends_pure]
          exact ⟨hz₁, hrest⟩
        | cons g gs =>
          rw [parentPtr, whenSome, ends_bind, ends_sideIn_hole hz₁ (ptr_join _ _ _ _ _)]
          refine (ih hz₁ (hs.up hzero) (Nat.lt_of_succ_lt_succ hfuel)).mono ?_
          rintro _ u ⟨hu, hrest'⟩
          exact ⟨hu, hrest.trans hrest'⟩
      · rw [if_neg hzero, if_neg hzero]
        obtain ⟨hb, hsib, hh⟩ := hs.behind hunit hzero
        obtain ⟨hdown, _⟩ := hs.repaired hunit hzero
        -- The sibling is the higher side, so the repair goes by the other side of the frame.
        have hclose : f.close (f.balance - f.side.sign) t =
            join f.side.other f.label (2 * f.side.other.sign) t f.sibling := by
          rw [join_other, ← hb]
          rfl
        have hrep : Ends (rebalance f.label.addr) s₁ (Repairs s₁ fs
            (Foundation.BalancedTree.rebalance (f.close (f.balance - f.side.sign) t))) := by
          rw [hclose] at hz₁ ⊢
          exact rebalance_ends hz₁ hsib hh
        rw [ends_bind, ends_assert (two_levels hb)]
        cases fs with
        | nil =>
          rw [parentPtr, ends_bind]
          refine hrep.mono ?_
          rintro _ u ⟨_, hu, hrest'⟩
          refine ends_pure.mpr ⟨?_, hrest.trans hrest'⟩
          rw [shrink, plug, ite_self]
          exact hu
        | cons g gs =>
          rw [parentPtr, ends_bind, ends_sideIn_hole hz₁ (ptr_join _ _ _ _ _), ends_bind]
          refine hrep.mono ?_
          rintro _ u ⟨rfl, hu, hrest'⟩
          split
          · next hdec =>
            refine (ih hu (hdown hdec) (Nat.lt_of_succ_lt_succ hfuel)).mono ?_
            rintro _ v ⟨hv, hrest''⟩
            exact ⟨hv, (hrest.trans hrest').trans hrest''⟩
          · next hdec => exact ends_pure.mpr ⟨zip_plug.mp hu, hrest.trans hrest'⟩

structure Removed (others : List (Cell κ ω)) (x : Cell κ ω) (s u : State κ ω) : Prop where
  tree : ∃ t, Zip u [] t ∧ t.Balanced ∧ t.inorder.map datum = others.map datum
  failedAsserts : u.vars.failedAsserts = s.vars.failedAsserts
  freed : u.vars.freed = s.vars.freed ++ freedData frees x.key x.value

theorem freed_of_erased (he : Erased frees p (.node .leaf y c .leaf) s u) (hd : datum y = datum x) :
    u.vars.freed = s.vars.freed ++ freedData frees x.key x.value := by
  obtain ⟨hk, hv⟩ := Prod.mk.inj hd
  rw [he.freed, freedTree, hk, hv]
  rfl

theorem remove_ends {l r : BinTree (Cell κ ω)} (hz : Zip s ctx (.node l x b r))
    (hb : (plug ctx (.node l x b r)).Balanced) : Ends (remove frees x.addr) s fun _ u =>
      Removed frees (before ctx ++ (l.inorder ++ r.inorder) ++ after ctx) x s u := by
  have hbound := hz.bound
  rw [remove, ends_bind, ends_turns, ends_bind]
  refine (sink_ends (d := .right) hz hb (by change BinTree.height (.node l x b r) ≤ _; omega)).mono ?_
  rintro _ s₁ ⟨hole, y, c, rfl, hz₁, hb₁, hdatum, hothers, hrest₁⟩
  rw [ends_bind, ends_load (hz₁.load (d := .right)), nodeOf_parent]
  cases hole with
  | nil =>
    rw [parentPtr, ends_bind]
    refine (eraseLeaf_ends frees hz₁ (Nat.succ_pos _)).mono ?_
    rintro _ s₂ he
    rw [ends_storeRoot]
    refine ⟨⟨.leaf, detach_root frees hz₁ he, trivial, hothers⟩, ?_, ?_⟩
    · exact he.failedAsserts.trans hrest₁.failedAsserts
    · exact (freed_of_erased frees he hdatum).trans (by rw [hrest₁.freed])
  | cons f fs =>
    rw [parentPtr, ends_bind, ends_sideIn_hole hz₁ rfl, ends_bind]
    refine (eraseLeaf_ends frees hz₁ (Nat.succ_pos _)).mono ?_
    rintro _ s₂ he
    have hz₂ := detach_zip frees hz₁ he
    have hshrunk : Shrunk (f :: fs) (BinTree.leaf : BinTree (Cell κ ω)) :=
      ⟨trivial, (balanced_plug.mp hb₁).2⟩
    have hlen : fs.length < s.vars.nodes + 1 := by
      have hdepth := hz₁.bound
      rw [length_cons, hrest₁.nodes] at hdepth
      omega
    refine (removeRetrace_ends hz₂ hshrunk hlen).mono ?_
    rintro _ u ⟨hu, hrest⟩
    refine ⟨⟨_, hu, Foundation.BalancedTree.shrink_balanced hshrunk, ?_⟩, ?_, ?_⟩
    · rw [Foundation.BalancedTree.shrink_inorder, inorder_plug, BinTree.inorder, append_nil]
      exact hothers
    · exact (hrest.failedAsserts.trans he.failedAsserts).trans hrest₁.failedAsserts
    · exact (hrest.freed.trans (freed_of_erased frees he hdatum)).trans (by rw [hrest₁.freed])

end MuggleC.Dsaa.AvlRemove
