/- source: dsaa/avl_tree.c
   digest: The rotations on linked nodes, the search for a key, and the way up after an insertion. -/

import MuggleC.Dsaa.AvlTree

set_option autoImplicit false

namespace MuggleC.Dsaa.AvlRotate

open Foundation.BalancedTree (Side BinTree Frame join inorder_rotate inorder_rotate_twice
  rotateOnce rotateTwice rebalance_join rebalanceOn_once rebalanceOn_twice ahead_cases balanced_join)
open Foundation.Blocks Foundation.Program AvlTree AvlShape List

variable {κ ω : Type} {s s₁ u : State κ ω} {d : Side} {ctx : List (Frame (Cell κ ω))}
  {t t₁ t₂ t₃ t₂₃ t₄ : BinTree (Cell κ ω)} {x y z : Cell κ ω} {b bz byy : Int} {m : Node κ ω}
  {q : Option Nat} {a : Nat}

private theorem ends_replaceChild {post : Unit → State κ ω → Prop} {i z : Option Nat} {x : Nat}
    (h : s.heap y.addr = some (nodeOf d y b q i (some x))) (hi : i ≠ some x) :
    Ends (replaceChild y.addr x z) s post ↔ post () (s.write y.addr (some (nodeOf d y b q i z))) := by
  rw [replaceChild, ends_bind, ends_load h, side_nodeOf d y b q i hi, ends_modify h,
    setChild_nodeOf]

private theorem ends_sideIn {post : Side → State κ ω → Prop} {i : Option Nat} {x : Nat}
    (h : s.heap y.addr = some (nodeOf d y b q i (some x))) (hi : i ≠ some x) :
    Ends (sideIn y.addr x) s post ↔ post d s := by
  rw [sideIn, ends_bind, ends_load h, side_nodeOf d y b q i hi, ends_pure]

private theorem topPtr_eq_some {p : Option Nat}
    (h : topPtr p ctx = some a) : p = some a ∨ a ∈ ctxAddrs ctx := by
  induction ctx generalizing p with
  | nil => exact .inl h
  | cons f fs ih =>
    right
    rcases ih h with hf | hmem
    · cases hf
      exact mem_cons_self
    · exact mem_cons_of_mem _ (mem_append_right _ hmem)

structure Relinked (ctx : List (Frame (Cell κ ω))) (z : Nat) (m : Node κ ω) (s t : State κ ω) :
    Prop where
  root : t.vars.root = topPtr (some z) ctx
  around : CtxRep t.heap (some z) ctx
  load : t.heap z = some (m.setParent (parentPtr ctx))
  frame : ∀ a, a ∉ ctxAddrs ctx → a ≠ z → t.heap a = s.heap a
  rest : Rest s t

theorem relink_ends {x z : Nat} (hroot : s.vars.root = topPtr (some x) ctx)
    (hctx : CtxRep s.heap (some x) ctx) (hx : x ∉ ctxAddrs ctx) (hnd : (ctxAddrs ctx).Nodup)
    (hzc : z ∉ ctxAddrs ctx) (hz : s.heap z = some m) :
    Ends (relink (parentPtr ctx) x z) s fun _ t => Relinked ctx z m s t := by
  rw [relink, ends_bind]
  cases ctx with
  | nil =>
    rw [parentPtr, whenSome, ends_pure, ends_bind, ends_modify hz, rootBecomes, ends_bind,
      ends_loadRoot, write_root, hroot, topPtr, if_pos rfl, ends_storeRoot]
    refine ⟨rfl, trivial, heap_write_self, ?_, ⟨rfl, rfl, rfl, rfl⟩⟩
    intro a _ ha
    exact heap_write_of_ne ha
  | cons f fs =>
    obtain ⟨hf, hs, hc⟩ := hctx
    rw [ctxAddrs, mem_cons, mem_append, not_or, not_or] at hx hzc
    rw [ctxAddrs, nodup_cons, mem_append, not_or] at hnd
    have hsib : ptr f.sibling ≠ some x := fun he => hx.2.1 (mem_addrs_of_ptr he)
    have hz' : (s.write f.label.addr
        (some (nodeOf f.side f.label f.balance (parentPtr fs) (ptr f.sibling) (some z)))).heap z =
        some m := (heap_write_of_ne hzc.1).trans hz
    have htop : topPtr (some x) (f :: fs) ≠ some x := by
      intro he
      rcases topPtr_eq_some (p := some f.label.addr) he with h | h
      · exact hx.1 (Option.some.inj h).symm
      · exact hx.2.2 h
    rw [parentPtr, whenSome, ends_replaceChild hf hsib, ends_bind, ends_modify hz', rootBecomes,
      ends_bind, ends_loadRoot, write_root, write_root, hroot, if_neg htop, ends_storeRoot]
    have hkeep : ∀ a, a ≠ f.label.addr → a ≠ z → ((s.write f.label.addr
        (some (nodeOf f.side f.label f.balance (parentPtr fs) (ptr f.sibling) (some z)))).write z
        (some (m.setParent (some f.label.addr)))).heap a = s.heap a :=
      fun a hfa hza => (heap_write_of_ne hza).trans (heap_write_of_ne hfa)
    refine ⟨rfl, ⟨?_, hs.congr ?_, hc.congr ?_⟩, heap_write_self, ?_, ⟨rfl, rfl, rfl, rfl⟩⟩
    · exact (heap_write_of_ne (Ne.symm hzc.1)).trans (heap_write_self)
    · intro a ha
      exact hkeep a (ne_of_mem_of_not_mem ha hnd.1.1) (ne_of_mem_of_not_mem ha hzc.2.1)
    · intro a ha
      exact hkeep a (ne_of_mem_of_not_mem ha hnd.1.2) (ne_of_mem_of_not_mem ha hzc.2.2)
    · intro a ha hza
      refine hkeep a ?_ hza
      rintro rfl
      exact ha mem_cons_self

private theorem adopt_ends (x : Nat) (ht : Rep s.heap q t) (hnd : (addrs t).Nodup) :
    Ends (adopt (ptr t) x) s fun _ u => Rep u.heap (some x) t ∧ Differs (addrs t) s u := by
  cases t with
  | leaf =>
    rw [adopt, ptr, whenSome, ends_pure]
    exact ⟨trivial, Differs.refl _ s⟩
  | node l y b r =>
    obtain ⟨hy, hl, hr⟩ := ht
    have hap : Apart y.addr (addrs l) (addrs r) [] :=
      apart_of_nodup (d := .right) (b := b) (by rw [append_nil]; exact hnd)
    rw [adopt, ptr, whenSome, ends_modify hy, setParent_nodeOf]
    refine ⟨⟨heap_write_self, hl.congr ?_, hr.congr ?_⟩,
      (Differs.refl _ s).write (mem_addrs_of_ptr rfl) _⟩
    · exact fun a ha => heap_write_of_ne (ne_of_mem_of_not_mem ha hap.rootInner)
    · exact fun a ha => heap_write_of_ne (ne_of_mem_of_not_mem ha hap.rootOuter)

theorem graft_ends {α : Type} {post : α → State κ ω → Prop} {next : Unit → Op κ ω α}
    {f : Node κ ω → Node κ ω} {n : Node κ ω} (hn : s.heap a = some n) (ht : Rep s.heap q t)
    (hnd : (addrs t).Nodup)
    (ha : a ∉ addrs t)
    (hnext : ∀ u, u.heap a = some (f n) → Rep u.heap (some a) t → Differs (a :: addrs t) s u →
      Ends (next ()) u post) :
    Ends (modify a f >>= fun _ => adopt (ptr t) a >>= next) s post := by
  have ht' : Rep (s.write a (some (f n))).heap q t :=
    ht.congr fun c hc => heap_write_of_ne (ne_of_mem_of_not_mem hc ha)
  rw [ends_bind, ends_modify hn, ends_bind]
  refine (adopt_ends a ht' hnd).mono ?_
  rintro _ u ⟨hrep, hd⟩
  refine hnext u ((hd.frame a ha).trans (heap_write_self)) hrep ?_
  exact ((Differs.refl _ s).write mem_cons_self _).trans hd fun c hc =>
    mem_cons_of_mem a hc

theorem zip_rebuilt {t' : BinTree (Cell κ ω)}
    {w : Nat} (hz : Zip s ctx t) (hs₁ : Relinked ctx w m s s₁) (hw : ptr t' = some w)
    (hd : Differs (addrs t) s₁ u) (ht' : Rep u.heap (parentPtr ctx) t')
    (hperm : (addrs t').Perm (addrs t)) : Zip u ctx t' ∧ Rest s u := by
  have hdisj : ∀ a ∈ ctxAddrs ctx, a ∉ addrs t := by
    intro a ha ha'
    exact (nodup_append.mp hz.owned.nodup).2.2 a ha' a ha rfl
  have hrest := hs₁.rest.trans hd.rest
  refine ⟨⟨?_, ?_, ht', ?_⟩, hrest⟩
  · rw [hd.root, hs₁.root, hw]
  · rw [hw]
    exact hs₁.around.congr fun a ha => hd.frame a (hdisj a ha)
  · refine (hz.owned.perm (hperm.symm.append_right _)).keep hrest ?_
    intro a ha
    rw [mem_append, not_or] at ha
    have hat : a ∉ addrs t := fun h => ha.1 (hperm.mem_iff.mpr h)
    refine (hd.frame a hat).trans (hs₁.frame a ha.2 ?_)
    rintro rfl
    exact ha.1 (mem_addrs_of_ptr hw)

theorem Apart.outer_join {x : Nat} {i c : List Nat} {i' o' : BinTree (Cell κ ω)}
    (h : Apart x i (addrs (join d z b i' o')) c) : Apart z.addr (addrs i') (addrs o') c := by
  refine apart_of_nodup (d := d) (b := b) (nodup_append.mpr ⟨h.outer, h.ctx, ?_⟩)
  rintro a ha a' ha' rfl
  exact h.outerCtx a ha ha'

private theorem single_rotated {b' bz' : Int} (hz : Zip s ctx (join d x b t₁ (join d z bz t₂₃ t₄)))
    (hs₁ : Relinked ctx z.addr m s s₁) (hd : Differs (x.addr :: z.addr :: addrs t₂₃) s₁ u)
    (hux : u.heap x.addr = some (nodeOf d x b' (some z.addr) (ptr t₁) (ptr t₂₃)))
    (huz : u.heap z.addr = some (nodeOf d z bz' (parentPtr ctx) (some x.addr) (ptr t₄)))
    (h₂₃ : Rep u.heap (some x.addr) t₂₃) :
    Zip u ctx (join d z bz' (join d x b' t₁ t₂₃) t₄) ∧ Rest s u := by
  have hap := hz.apart
  have hapz := Apart.outer_join hap
  obtain ⟨_, h₁, hrep⟩ := rep_join.mp hz.tree
  obtain ⟨_, _, h₄⟩ := rep_join.mp hrep
  have hmem : ∀ a, a = z.addr ∨ a ∈ addrs t₂₃ ∨ a ∈ addrs t₄ →
      a ∈ addrs (join d z bz t₂₃ t₄) := fun a ha => mem_addrs_join.mpr ha
  have hkeep : ∀ a, a ≠ x.addr → a ≠ z.addr → a ∉ addrs t₂₃ → a ∉ ctxAddrs ctx →
      u.heap a = s.heap a := by
    intro a hax haz ha₂₃ hac
    refine (hd.frame a ?_).trans (hs₁.frame a hac haz)
    simp only [mem_cons, not_or]
    exact ⟨hax, haz, ha₂₃⟩
  have h₁' : Rep u.heap (some x.addr) t₁ := by
    refine h₁.congr fun a ha => hkeep a ?_ ?_ ?_ (hap.innerCtx a ha)
    · rintro rfl
      exact hap.rootInner ha
    · exact fun he => hap.innerOuter a ha (hmem a (.inl he))
    · exact fun h => hap.innerOuter a ha (hmem a (.inr (.inl h)))
  have h₄' : Rep u.heap (some z.addr) t₄ := by
    refine h₄.congr fun a ha => hkeep a ?_ ?_ ?_ (hapz.outerCtx a ha)
    · rintro rfl
      exact hap.rootOuter (hmem _ (.inr (.inr ha)))
    · rintro rfl
      exact hapz.rootOuter ha
    · exact fun h => hapz.innerOuter a h ha
  refine zip_rebuilt hz hs₁ (ptr_join _ _ _ _ _) ((Differs.refl _ s₁).trans hd ?_) ?_ ?_
  · intro a ha
    rcases mem_cons.mp ha with rfl | ha
    · exact mem_addrs_join.mpr (.inl rfl)
    · rcases mem_cons.mp ha with rfl | ha
      · exact mem_addrs_join.mpr (.inr (.inr (hmem _ (.inl rfl))))
      · exact mem_addrs_join.mpr (.inr (.inr (hmem _ (.inr (.inl ha)))))
  · refine rep_join.mpr ⟨?_, rep_join.mpr ⟨hux, h₁', h₂₃⟩, h₄'⟩
    rw [ptr_join]
    exact huz
  · exact List.Perm.of_eq (congrArg (map Cell.addr) (inorder_rotate d x z b bz _ _ t₁ t₂₃ t₄))

private theorem rotateSingle_ends (r : SingleRotation)
    (hz : Zip s ctx (join r.high x r.xBalance t₁ (join r.high z bz t₂₃ t₄)))
    (hb : bz = r.zBalance ∨ bz = 0) :
    Ends (rotateSingle r x.addr) s fun decrease t => decrease = (r.table bz).2.2 ∧
      Zip t ctx (join r.high z (r.table bz).2.1 (join r.high x (r.table bz).1 t₁ t₂₃) t₄) ∧
      Rest s t := by
  have hap := hz.apart
  have hapz := Apart.outer_join hap
  obtain ⟨hx, h₁, hrep⟩ := rep_join.mp hz.tree
  obtain ⟨hzn, h₂₃, h₄⟩ := rep_join.mp hrep
  have hroot := hz.root
  have hctx := hz.around
  rw [ptr_join] at hroot hctx hx
  have hmem : ∀ a, a = z.addr ∨ a ∈ addrs t₂₃ ∨ a ∈ addrs t₄ →
      a ∈ addrs (join r.high z bz t₂₃ t₄) := fun a ha => mem_addrs_join.mpr ha
  have hxz : x.addr ≠ z.addr := fun he => hap.rootOuter (he ▸ hmem _ (.inl rfl))
  have hx₂₃ : x.addr ∉ addrs t₂₃ := fun ha => hap.rootOuter (hmem _ (.inr (.inl ha)))
  rw [rotateSingle, ends_bind, ends_load hx]
  simp only [nodeOf_child, nodeOf_balance, nodeOf_parent, Option.isSome_some, decide_true]
  rw [ends_bind, ends_assert rfl, ends_bind, ends_assert rfl, ends_bind, ends_deref, ends_bind,
    ends_load hzn, nodeOf_balance, decide_eq_true hb, ends_bind, ends_assert rfl, ends_bind]
  refine (relink_ends hroot hctx hap.rootCtx hap.ctx hapz.rootCtx hzn).mono ?_
  intro _ s₁ hs₁
  have hz₁ := hs₁.load
  rw [setParent_nodeOf] at hz₁
  have hx₁ := (hs₁.frame x.addr hap.rootCtx hxz).trans hx
  have h₂₃' : Rep s₁.heap (some z.addr) t₂₃ := h₂₃.congr fun a ha =>
    hs₁.frame a (hapz.innerCtx a ha) (ne_of_mem_of_not_mem ha hapz.rootInner)
  rw [ends_bind, ends_load hz₁, nodeOf_child_other]
  refine graft_ends hx₁ h₂₃' hapz.inner hx₂₃ ?_
  intro s₃ hx₃ h₂₃' hd₃
  rw [setChild_nodeOf] at hx₃
  have hz₃ : s₃.heap z.addr = _ := (hd₃.frame z.addr (by simp [hxz.symm, hapz.rootInner])).trans hz₁
  rw [ends_bind, ends_modify hx₃, setParent_nodeOf, ends_bind,
    ends_modify ((heap_write_of_ne (Ne.symm hxz)).trans hz₃), setChild_other_nodeOf, ends_bind,
    ends_modify ((heap_write_of_ne hxz).trans (heap_write_self)), setBalance_nodeOf, ends_bind,
    ends_modify ((heap_write_of_ne (Ne.symm hxz)).trans (heap_write_self)), setBalance_nodeOf,
    ends_pure, nodeOf_balance]
  have hxm : x.addr ∈ x.addr :: z.addr :: addrs t₂₃ := mem_cons_self
  have hzm : z.addr ∈ x.addr :: z.addr :: addrs t₂₃ := mem_cons_of_mem _ mem_cons_self
  have hd : Differs (x.addr :: z.addr :: addrs t₂₃) s₁ s₃ := by
    refine (Differs.refl _ s₁).trans hd₃ fun a ha => ?_
    rcases mem_cons.mp ha with rfl | ha
    · exact hxm
    · exact mem_cons_of_mem _ (mem_cons_of_mem _ ha)
  refine ⟨rfl, single_rotated hz hs₁ ((((hd.write hxm _).write hzm _).write hxm _).write hzm _)
    ((heap_write_of_ne hxz).trans (heap_write_self)) (heap_write_self) ?_⟩
  refine h₂₃'.congr fun a ha => ?_
  have hax : a ≠ x.addr := ne_of_mem_of_not_mem ha hx₂₃
  have haz : a ≠ z.addr := ne_of_mem_of_not_mem ha hapz.rootInner
  rw [heap_write_of_ne haz, heap_write_of_ne hax, heap_write_of_ne haz, heap_write_of_ne hax]

theorem Apart.inner_join {x : Nat} {o c : List Nat} {i' o' : BinTree (Cell κ ω)}
    (h : Apart x (addrs (join d y b i' o')) o c) : Apart y.addr (addrs i') (addrs o') c := by
  refine apart_of_nodup (d := d) (b := b) (nodup_append.mpr ⟨h.inner, h.ctx, ?_⟩)
  rintro a ha a' ha' rfl
  exact h.innerCtx a ha ha'

structure Apart₂ (x z y : Nat) (a₁ a₂ a₃ a₄ c : List Nat) : Prop where
  outside : ∀ a ∈ a₁, a ≠ x ∧ a ≠ z ∧ a ≠ y ∧ a ∉ a₂ ∧ a ∉ a₃ ∧ a ∉ c
  second : ∀ a ∈ a₂, a ≠ x ∧ a ≠ z ∧ a ≠ y ∧ a ∉ a₃ ∧ a ∉ c
  third : ∀ a ∈ a₃, a ≠ x ∧ a ≠ z ∧ a ≠ y ∧ a ∉ c
  fourth : ∀ a ∈ a₄, a ≠ x ∧ a ≠ z ∧ a ≠ y ∧ a ∉ a₂ ∧ a ∉ a₃ ∧ a ∉ c
  roots : x ≠ z ∧ x ≠ y ∧ z ≠ y
  ctx : x ∉ c ∧ z ∉ c ∧ y ∉ c

theorem apart₂_of_zip (hz : Zip s ctx (join d x b t₁ (join d z bz (join d y byy t₂ t₃) t₄))) :
    Apart₂ x.addr z.addr y.addr (addrs t₁) (addrs t₂) (addrs t₃) (addrs t₄) (ctxAddrs ctx) := by
  have hap := hz.apart
  have hapz := Apart.outer_join hap
  have hapy := Apart.inner_join hapz
  have hxo := hap.rootOuter
  have hio := hap.innerOuter
  have hzi := hapz.rootInner
  have hyo := hapz.innerOuter
  simp only [mem_addrs_join, not_or] at hxo hio hzi hyo
  obtain ⟨hxz, ⟨hxy, hx₂, hx₃⟩, hx₄⟩ := hxo
  obtain ⟨hzy, hz₂, hz₃⟩ := hzi
  refine ⟨?_, ?_, ?_, ?_, ⟨hxz, hxy, hzy⟩, hap.rootCtx, hapz.rootCtx, hapy.rootCtx⟩
  · intro a ha
    obtain ⟨haz, ⟨hay, ha₂, ha₃⟩, _⟩ := hio a ha
    exact ⟨ne_of_mem_of_not_mem ha hap.rootInner, haz, hay, ha₂, ha₃, hap.innerCtx a ha⟩
  · intro a ha
    exact ⟨ne_of_mem_of_not_mem ha hx₂, ne_of_mem_of_not_mem ha hz₂,
      ne_of_mem_of_not_mem ha hapy.rootInner, hapy.innerOuter a ha, hapy.innerCtx a ha⟩
  · intro a ha
    exact ⟨ne_of_mem_of_not_mem ha hx₃, ne_of_mem_of_not_mem ha hz₃,
      ne_of_mem_of_not_mem ha hapy.rootOuter, hapy.outerCtx a ha⟩
  · intro a ha
    refine ⟨ne_of_mem_of_not_mem ha hx₄, ne_of_mem_of_not_mem ha hapz.rootOuter, ?_, ?_, ?_,
      hapz.outerCtx a ha⟩
    · exact fun he => hyo a (.inl he) ha
    · exact fun h => hyo a (.inr (.inl h)) ha
    · exact fun h => hyo a (.inr (.inr h)) ha

private theorem double_rotated {b b' bz' by' : Int}
    (hz : Zip s ctx (join d x b t₁ (join d z bz (join d y byy t₂ t₃) t₄)))
    (hs₁ : Relinked ctx y.addr m s s₁)
    (hd : Differs (x.addr :: z.addr :: y.addr :: (addrs t₂ ++ addrs t₃)) s₁ u)
    (hux : u.heap x.addr = some (nodeOf d x b' (some y.addr) (ptr t₁) (ptr t₂)))
    (huz : u.heap z.addr = some (nodeOf d z bz' (some y.addr) (ptr t₃) (ptr t₄)))
    (huy : u.heap y.addr = some (nodeOf d y by' (parentPtr ctx) (some x.addr) (some z.addr)))
    (h₂ : Rep u.heap (some x.addr) t₂) (h₃ : Rep u.heap (some z.addr) t₃) :
    Zip u ctx (join d y by' (join d x b' t₁ t₂) (join d z bz' t₃ t₄)) ∧ Rest s u := by
  have hap := apart₂_of_zip hz
  obtain ⟨_, h₁, hrep⟩ := rep_join.mp hz.tree
  obtain ⟨_, _, h₄⟩ := rep_join.mp hrep
  have hkeep : ∀ a, a ≠ x.addr ∧ a ≠ z.addr ∧ a ≠ y.addr ∧ a ∉ addrs t₂ ∧ a ∉ addrs t₃ ∧
      a ∉ ctxAddrs ctx → u.heap a = s.heap a := by
    rintro a ⟨hax, haz, hay, ha₂, ha₃, hac⟩
    refine (hd.frame a ?_).trans (hs₁.frame a hac hay)
    simp only [mem_cons, mem_append, not_or]
    exact ⟨hax, haz, hay, ha₂, ha₃⟩
  refine zip_rebuilt hz hs₁ (ptr_join _ _ _ _ _) ((Differs.refl _ s₁).trans hd ?_) ?_ ?_
  · intro a ha
    simp only [mem_cons, mem_append] at ha
    simp only [mem_addrs_join]
    tauto
  · refine rep_join.mpr ⟨?_, rep_join.mpr ⟨hux, ?_, h₂⟩, rep_join.mpr ⟨huz, h₃, ?_⟩⟩
    · rw [ptr_join, ptr_join]
      exact huy
    · exact h₁.congr fun a ha => hkeep a (hap.outside a ha)
    · exact h₄.congr fun a ha => hkeep a (hap.fourth a ha)
  · exact List.Perm.of_eq (congrArg (map Cell.addr)
      (inorder_rotate_twice d x z y b bz byy _ _ _ t₁ t₂ t₃ t₄))

private theorem linkSides_ends {x z : Nat} {p i o : Option Nat} {nx nz : Node κ ω} (hxz : x ≠ z)
    (hxy : x ≠ y.addr) (hzy : z ≠ y.addr) (hy : s.heap y.addr = some (nodeOf d y b p i o))
    (hx : s.heap x = some nx) (hz : s.heap z = some nz) : Ends (linkSides d y.addr x z) s fun _ u =>
      u.heap y.addr = some (nodeOf d y b p (some x) (some z)) ∧
      u.heap x = some (nx.setParent (some y.addr)) ∧ u.heap z = some (nz.setParent (some y.addr)) ∧
      Differs [x, z, y.addr] s u := by
  have hd := Differs.refl [x, z, y.addr] s
  have hxm : x ∈ [x, z, y.addr] := by simp
  have hzm : z ∈ [x, z, y.addr] := by simp
  have hym : y.addr ∈ [x, z, y.addr] := by simp
  have hyx := Ne.symm hxy
  have hyz := Ne.symm hzy
  have hzx := Ne.symm hxz
  cases d with
  | left =>
    rw [linkSides, linkBoth, ends_bind, ends_modify hy, ends_bind,
      ends_modify ((heap_write_of_ne hzy).trans hz), ends_bind,
      ends_modify ((heap_write_of_ne hyz).trans (heap_write_self)),
      ends_modify ((heap_write_of_ne hxy).trans ((heap_write_of_ne hxz).trans
        ((heap_write_of_ne hxy).trans hx)))]
    refine ⟨(heap_write_of_ne hyx).trans (heap_write_self), heap_write_self, ?_,
      (((hd.write hym _).write hzm _).write hym _).write hxm _⟩
    exact (heap_write_of_ne hzx).trans ((heap_write_of_ne hzy).trans (heap_write_self))
  | right =>
    rw [linkSides, linkBoth, ends_bind, ends_modify hy, ends_bind,
      ends_modify ((heap_write_of_ne hxy).trans hx), ends_bind,
      ends_modify ((heap_write_of_ne hyx).trans (heap_write_self)),
      ends_modify ((heap_write_of_ne hzy).trans ((heap_write_of_ne hzx).trans
        ((heap_write_of_ne hzy).trans hz)))]
    refine ⟨(heap_write_of_ne hyz).trans (heap_write_self), ?_, heap_write_self,
      (((hd.write hym _).write hxm _).write hym _).write hzm _⟩
    exact (heap_write_of_ne hxz).trans ((heap_write_of_ne hxy).trans (heap_write_self))

private theorem rotateDouble_ends (r : DoubleRotation) (hz : Zip s ctx (join r.high x r.xBalance t₁
      (join r.high z r.zBalance (join r.high y byy t₂ t₃) t₄))) :
    Ends (rotateDouble r x.addr) s fun _ t =>
      Zip t ctx (join r.high y 0 (join r.high x (r.table byy).1 t₁ t₂)
        (join r.high z (r.table byy).2 t₃ t₄)) ∧ Rest s t := by
  have hap := hz.apart
  have hapy := Apart.inner_join (Apart.outer_join hap)
  have hall := apart₂_of_zip hz
  obtain ⟨hxz, hxy, hzy⟩ := hall.roots
  obtain ⟨hx, _, hrep⟩ := rep_join.mp hz.tree
  obtain ⟨hzn, hrep, _⟩ := rep_join.mp hrep
  obtain ⟨hyn, h₂, h₃⟩ := rep_join.mp hrep
  have hroot := hz.root
  have hctx := hz.around
  rw [ptr_join] at hroot hctx hx hzn
  rw [rotateDouble, ends_bind, ends_load hx]
  simp only [nodeOf_child, nodeOf_balance, nodeOf_parent, Option.isSome_some, decide_true]
  rw [ends_bind, ends_assert rfl, ends_bind, ends_deref, ends_bind, ends_load hzn]
  simp only [nodeOf_child_other, nodeOf_balance, Option.isSome_some, decide_true]
  rw [ends_bind, ends_assert rfl, ends_bind, ends_assert rfl, ends_bind, ends_assert rfl,
    ends_bind, ends_deref, ends_bind, ends_load hyn]
  simp only [nodeOf_child, nodeOf_child_other, nodeOf_balance]
  rw [ends_bind]
  refine (relink_ends hroot hctx hap.rootCtx hap.ctx hall.ctx.2.2 hyn).mono ?_
  intro _ s₁ hs₁
  have hy₁ := hs₁.load
  rw [setParent_nodeOf] at hy₁
  have hx₁ := (hs₁.frame x.addr hall.ctx.1 hxy).trans hx
  have hz₁ := (hs₁.frame z.addr hall.ctx.2.1 hzy).trans hzn
  have hnot : ∀ {w : Nat} {l : List Nat}, (∀ a ∈ l, a ≠ w) → w ∉ l := fun h hw => h _ hw rfl
  -- the inner subtree of `y` goes to `x`
  have h₂' : Rep s₁.heap (some y.addr) t₂ := h₂.congr fun a ha => by
    obtain ⟨_, _, hay, _, hac⟩ := hall.second a ha
    exact hs₁.frame a hac hay
  refine graft_ends hx₁ h₂' hapy.inner (hnot fun a ha => (hall.second a ha).1) ?_
  intro s₃ hx₃ h₂' hd₃
  rw [setChild_nodeOf] at hx₃
  have hz₂ : z.addr ∉ addrs t₂ := hnot fun a ha => (hall.second a ha).2.1
  have hy₂ : y.addr ∉ addrs t₂ := hnot fun a ha => (hall.second a ha).2.2.1
  have hz₃ := (hd₃.frame z.addr (by simp [hxz.symm, hz₂])).trans hz₁
  have hy₃ := (hd₃.frame y.addr (by simp [hxy.symm, hy₂])).trans hy₁
  -- the outer subtree of `y` goes to `z`
  have h₃' : Rep s₃.heap (some y.addr) t₃ := h₃.congr fun a ha => by
    obtain ⟨hax, _, hay, hac⟩ := hall.third a ha
    have ha₂ : a ∉ addrs t₂ := fun h => (hall.second a h).2.2.2.1 ha
    exact (hd₃.frame a (by simp [hax, ha₂])).trans (hs₁.frame a hac hay)
  refine graft_ends hz₃ h₃' hapy.outer (hnot fun a ha => (hall.third a ha).2.1) ?_
  intro s₅ hz₅ h₃' hd₅
  rw [setChild_other_nodeOf] at hz₅
  have hx₃' : x.addr ∉ addrs t₃ := hnot fun a ha => (hall.third a ha).1
  have hy₃' : y.addr ∉ addrs t₃ := hnot fun a ha => (hall.third a ha).2.2.1
  have hx₅ := (hd₅.frame x.addr (by simp [hxz, hx₃'])).trans hx₃
  have hy₅ := (hd₅.frame y.addr (by simp [hzy.symm, hy₃'])).trans hy₃
  rw [ends_bind]
  refine (linkSides_ends hxz hxy hzy hy₅ hx₅ hz₅).mono ?_
  rintro _ s₆ ⟨hy₆, hx₆, hz₆, hd₆⟩
  rw [setParent_nodeOf] at hx₆ hz₆
  rw [ends_bind, ends_modify hx₆, setBalance_nodeOf, ends_bind,
    ends_modify ((heap_write_of_ne (Ne.symm hxz)).trans hz₆), setBalance_nodeOf,
    ends_modify ((heap_write_of_ne (Ne.symm hzy)).trans ((heap_write_of_ne (Ne.symm hxy)).trans hy₆)),
    setBalance_nodeOf]
  have hxm : x.addr ∈ x.addr :: z.addr :: y.addr :: (addrs t₂ ++ addrs t₃) := by simp
  have hzm : z.addr ∈ x.addr :: z.addr :: y.addr :: (addrs t₂ ++ addrs t₃) := by simp
  have hym : y.addr ∈ x.addr :: z.addr :: y.addr :: (addrs t₂ ++ addrs t₃) := by simp
  have hd : Differs (x.addr :: z.addr :: y.addr :: (addrs t₂ ++ addrs t₃)) s₁ s₆ := by
    refine (((Differs.refl _ s₁).trans hd₃ ?_).trans hd₅ ?_).trans hd₆ ?_
    · intro a ha
      rcases mem_cons.mp ha with rfl | ha
      · exact hxm
      · simp [ha]
    · intro a ha
      rcases mem_cons.mp ha with rfl | ha
      · exact hzm
      · simp [ha]
    · exact fun a ha => mem_append_left (addrs t₂ ++ addrs t₃) ha
  have hend : ∀ a, a ≠ x.addr → a ≠ z.addr → a ≠ y.addr → s₆.heap a = s₅.heap a := by
    intro a hax haz hay
    exact hd₆.frame a (by simp [hax, haz, hay])
  refine double_rotated hz hs₁ (((hd.write hxm _).write hzm _).write hym _) ?_ ?_
    (heap_write_self) (h₂'.congr ?_) (h₃'.congr ?_)
  · exact (heap_write_of_ne hxy).trans ((heap_write_of_ne hxz).trans (heap_write_self))
  · exact (heap_write_of_ne hzy).trans (heap_write_self)
  · intro a ha
    obtain ⟨hax, haz, hay, ha₃, _⟩ := hall.second a ha
    rw [heap_write_of_ne hay, heap_write_of_ne haz, heap_write_of_ne hax, hend a hax haz hay,
      hd₅.frame a (by simp [haz, ha₃])]
  · intro a ha
    obtain ⟨hax, haz, hay, _⟩ := hall.third a ha
    rw [heap_write_of_ne hay, heap_write_of_ne haz, heap_write_of_ne hax, hend a hax haz hay]

def Repairs (s : State κ ω) (ctx : List (Frame (Cell κ ω))) (out : BinTree (Cell κ ω) × Bool)
    (decrease : Bool) (t : State κ ω) : Prop :=
  decrease = out.2 ∧ Zip t ctx out.1 ∧ Rest s t

def singleOn (d : Side) : SingleRotation :=
  ⟨d, 2 * d.sign, d.sign, fun z => if z = 0 then (d.sign, -d.sign, false) else (0, 0, true)⟩

def doubleOn (d : Side) : DoubleRotation :=
  ⟨d, 2 * d.sign, -d.sign, fun y =>
    if 0 < d.sign * y then (-d.sign, 0) else if y = 0 then (0, 0) else (0, d.sign)⟩

theorem rotateRight_eq : (rotateRight : Nat → Op κ ω Bool) = rotateSingle (singleOn .left) := rfl

theorem rotateLeft_eq : (rotateLeft : Nat → Op κ ω Bool) = rotateSingle (singleOn .right) := rfl

private theorem rotateLeftRight_eq :
    (rotateLeftRight : Nat → Op κ ω Unit) = rotateDouble (doubleOn .left) := by
  have htable : (fun y : Int => if 0 < y then ((0, -1) : Int × Int) else
      if y = 0 then (0, 0) else (1, 0)) = (doubleOn .left).table := by
    funext y
    change _ = if 0 < -1 * y then ((1, 0) : Int × Int) else if y = 0 then (0, 0) else (0, -1)
    rcases lt_trichotomy y 0 with hneg | rfl | hpos
    · rw [if_neg (by omega), if_neg (by omega), if_pos (by omega)]
    · rfl
    · rw [if_pos hpos, if_neg (by omega), if_neg (by omega)]
  rw [rotateLeftRight, htable]
  rfl

private theorem rotateRightLeft_eq :
    (rotateRightLeft : Nat → Op κ ω Unit) = rotateDouble (doubleOn .right) := by
  have htable : (fun y : Int => if 0 < y then ((-1, 0) : Int × Int) else
      if y = 0 then (0, 0) else (0, 1)) = (doubleOn .right).table := by
    funext y
    change _ = if 0 < 1 * y then ((-1, 0) : Int × Int) else if y = 0 then (0, 0) else (0, 1)
    rw [Int.one_mul]
  rw [rotateRightLeft, htable]
  rfl

private theorem rotateOnce_ends
    (hz : Zip s ctx (join d x (2 * d.sign) t₁ (join d z bz t₂₃ t₄))) (hb : bz = d.sign ∨ bz = 0) :
    Ends (rotateSingle (singleOn d) x.addr) s (Repairs s ctx (rotateOnce d x t₁ z bz t₂₃ t₄)) := by
  refine (rotateSingle_ends (singleOn d) hz hb).mono ?_
  rintro decrease t ⟨rfl, ht⟩
  rw [rotateOnce]
  split
  · next hzero =>
    simp only [singleOn, if_pos hzero] at ht ⊢
    exact ⟨rfl, ht⟩
  · next hne =>
    simp only [singleOn, if_neg hne] at ht ⊢
    exact ⟨rfl, ht⟩

private theorem rotateTwice_ends
    (hz : Zip s ctx (join d x (2 * d.sign) t₁ (join d z (-d.sign) (join d y byy t₂ t₃) t₄))) :
    Ends (rotateDouble (doubleOn d) x.addr) s fun _ t =>
      Zip t ctx (rotateTwice d x t₁ z y byy t₂ t₃ t₄) ∧ Rest s t := by
  refine (rotateDouble_ends (doubleOn d) hz).mono ?_
  rintro _ t ⟨ht, hrest⟩
  refine ⟨?_, hrest⟩
  rw [rotateTwice]
  split
  · next hpos =>
    simp only [doubleOn, if_pos hpos] at ht
    exact ht
  · next hpos =>
    split
    · next hzero =>
      simp only [doubleOn, if_neg hpos, if_pos hzero] at ht
      exact ht
    · next hzero =>
      simp only [doubleOn, if_neg hpos, if_neg hzero] at ht
      exact ht

private theorem ends_rebalance {post : Bool → State κ ω → Prop} {c : Nat} {n m : Node κ ω}
    (hn : s.heap a = some n) (hb : n.balance = 2 * d.sign) (hc : n.child d = some c)
    (hm : s.heap c = some m) :
    Ends (rebalance a) s post ↔ Ends (if 0 ≤ d.sign * m.balance then rotateSingle (singleOn d) a
      else do
        rotateDouble (doubleOn d) a
        pure true) s post := by
  rw [rebalance, ends_bind, ends_load hn, hb]
  cases d with
  | left =>
    have hleft : n.left = some c := hc
    have hside : m.balance ≤ 0 ↔ 0 ≤ Side.left.sign * m.balance := by
      rw [Side.sign]
      omega
    rw [if_pos (by decide), hleft, ends_bind, ends_deref, ends_bind, ends_load hm, rotateRight_eq,
      rotateLeftRight_eq]
    simp only [hside]
  | right =>
    have hright : n.right = some c := hc
    have hside : 0 ≤ m.balance ↔ 0 ≤ Side.right.sign * m.balance := by
      rw [Side.sign]
      omega
    rw [if_neg (by decide), if_pos (by decide), hright, ends_bind, ends_deref, ends_bind,
      ends_load hm, rotateLeft_eq, rotateRightLeft_eq]
    simp only [hside]

theorem rebalance_ends {outer : BinTree (Cell κ ω)}
    (hz : Zip s ctx (join d x (2 * d.sign) t₁ outer)) (ho : outer.Balanced)
    (hh : outer.height = t₁.height + 2) : Ends (rebalance x.addr) s
      (Repairs s ctx (Foundation.BalancedTree.rebalance (join d x (2 * d.sign) t₁ outer))) := by
  obtain ⟨hx, _, hrep⟩ := rep_join.mp hz.tree
  rw [rebalance_join]
  rcases ahead_cases (d := d) ho hh with ⟨z, bz, t₂₃, t₄, rfl, hb⟩ | ⟨z, y, byy, t₂, t₃, t₄, rfl⟩
  · have hzn := (rep_join.mp hrep).1
    obtain ⟨hbz, _, hhi, _, _⟩ := balanced_join.mp ho
    have hcase : bz = d.sign ∨ bz = 0 := by
      rw [hbz, d.sign_mul_sign_mul] at hb
      rcases (by omega : (t₄.height : Int) - t₂₃.height = 1 ∨ (t₄.height : Int) - t₂₃.height = 0)
        with hone | hzero
      · left
        rw [hbz, hone, Int.mul_one]
      · right
        rw [hbz, hzero, Int.mul_zero]
    rw [ends_rebalance hx (nodeOf_balance _ _ _ _ _ _) ((nodeOf_child _ _ _ _ _ _).trans
      (ptr_join _ _ _ _ _)) hzn, nodeOf_balance, if_pos hb, rebalanceOn_once d x _ t₁ z t₂₃ t₄ hb]
    exact rotateOnce_ends hz hcase
  · have hzn := (rep_join.mp hrep).1
    have hb : ¬ 0 ≤ d.sign * (-d.sign) := by
      rw [Int.mul_neg, d.sign_mul_self]
      decide
    rw [ends_rebalance hx (nodeOf_balance _ _ _ _ _ _) ((nodeOf_child _ _ _ _ _ _).trans
      (ptr_join _ _ _ _ _)) hzn, nodeOf_balance, if_neg hb,
      rebalanceOn_twice d x _ t₁ z y byy t₂ t₃ t₄ hb, ends_bind]
    refine (rotateTwice_ends hz).mono ?_
    rintro _ t ht
    exact ends_pure.mpr ⟨rfl, ht⟩

end MuggleC.Dsaa.AvlRotate

namespace MuggleC.Dsaa.AvlInsert

open Foundation.BalancedTree (Side BinTree Frame join plug grow Grown balanced_plug)
open Foundation.Blocks Foundation.Program AvlTree AvlShape AvlRotate List Memory NodePool

variable {κ ω : Type} {s : State κ ω} {t : BinTree (Cell κ ω)} {fs : List (Frame (Cell κ ω))}
  {a : Nat} {f : Frame (Cell κ ω)} {post : Option Nat → State κ ω → Prop}
  {ctx : List (Frame (Cell κ ω))} {key : Option κ} {value : Option ω}

theorem ends_sideIn_hole {g : Frame (Cell κ ω)} {gs : List (Frame (Cell κ ω))}
    {post : Side → State κ ω → Prop} (hz : Zip s (g :: gs) t)
    (ha : ptr t = some a) : Ends (sideIn g.label.addr a) s post ↔ post g.side s := by
  obtain ⟨hg, _, _⟩ := hz.around
  rw [ha] at hg
  refine ends_sideIn hg ?_
  intro hs
  have hnd := (nodup_append.mp hz.owned.nodup).2.2 a (mem_addrs_of_ptr ha) a ?_
  · exact hnd rfl
  · exact mem_cons_of_mem _ (mem_append_left _ (mem_addrs_of_ptr hs))

theorem bump_ends {α : Type} {post : α → State κ ω → Prop} {next : Node κ ω → Op κ ω α}
    (hz : Zip s (f :: fs) t) (g : Int → Int)
    (hnext : ∀ s₁, Zip s₁ fs (f.close (g f.balance) t) → Rest s s₁ → Ends (next (nodeOf f.side
      f.label (g f.balance) (parentPtr fs) (ptr f.sibling) (ptr t))) s₁ post) :
    Ends (modify f.label.addr (fun n => n.setBalance (g n.balance)) >>= fun _ =>
      load f.label.addr >>= next) s post := by
  rw [ends_bind, ends_modify hz.around.1, setBalance_nodeOf, nodeOf_balance, ends_bind,
    ends_load (heap_write_self)]
  exact hnext _ (Zip.relabel (x := f.label) (b := f.balance) (zip_cons.mp hz) rfl) ⟨rfl, rfl, rfl, rfl⟩

theorem two_levels {d : Side} {b : Int} (hb : b = 2 * d.sign) : decide (b = 2 ∨ b = -2) = true := by
  rw [hb]
  cases d with
  | left => rfl
  | right => rfl

private theorem insertRetrace_ends {fuel : Nat} (hz : Zip s (f :: fs) t) (hg : Grown (f :: fs) t)
    (hfuel : fs.length < fuel) : Ends (insertRetrace fuel f.label.addr f.side) s fun _ u =>
      Zip u [] (grow (f :: fs) t) ∧ Rest s u := by
  induction fuel generalizing s f fs t with
  | zero => omega
  | succ fuel ih =>
    refine bump_ends hz (fun b => b + f.side.sign) ?_
    intro s₁ hz₁ hrest
    rw [nodeOf_balance, nodeOf_parent, grow]
    by_cases hzero : f.balance + f.side.sign = 0
    · rw [if_pos hzero, if_pos hzero, ends_pure]
      exact ⟨zip_plug.mp hz₁, hrest⟩
    · rw [if_neg hzero, if_neg hzero]
      by_cases hunit : f.balance + f.side.sign = 1 ∨ f.balance + f.side.sign = -1
      · rw [if_pos hunit, if_pos hunit]
        cases fs with
        | nil =>
          rw [parentPtr, whenSome, ends_pure]
          exact ⟨hz₁, hrest⟩
        | cons g gs =>
          rw [parentPtr, whenSome, ends_bind, ends_sideIn_hole hz₁ (ptr_join _ _ _ _ _)]
          refine (ih hz₁ (hg.up hunit) (Nat.lt_of_succ_lt_succ hfuel)).mono ?_
          rintro _ u ⟨hu, hrest'⟩
          exact ⟨hu, hrest.trans hrest'⟩
      · rw [if_neg hunit, if_neg hunit]
        obtain ⟨hb, ht, hh⟩ := hg.ahead hzero hunit
        rw [ends_bind, ends_assert (two_levels hb), ends_bind]
        rw [hb] at hz₁ ⊢
        refine (rebalance_ends hz₁ ht hh).mono ?_
        rintro _ u ⟨_, hu, hrest'⟩
        exact ends_pure.mpr ⟨zip_plug.mp hu, hrest.trans hrest'⟩

section Search

variable (cmp : Option κ → Option κ → Int)

def findIn (data : Option κ) : BinTree (Cell κ ω) → Option Nat
  | .leaf => none
  | .node l x _ r =>
    if cmp data x.key = 0 then some x.addr
    else if cmp data x.key < 0 then findIn data l
    else findIn data r

variable {s : State κ ω} {t : BinTree (Cell κ ω)} {p : Option Nat} {fuel : Nat}

private theorem findFrom_ends (data : Option κ) (ht : Rep s.heap p t) (hfuel : t.height ≤ fuel) :
    Ends (findFrom cmp data fuel (ptr t)) s fun res u => res = findIn cmp data t ∧ u = s := by
  induction t generalizing p fuel with
  | leaf =>
    rw [ptr, findFrom, ends_pure]
    exact ⟨rfl, rfl⟩
  | node l x b r ihl ihr =>
    obtain ⟨hx, hl, hr⟩ := ht
    rw [BinTree.height] at hfuel
    obtain ⟨fuel, rfl⟩ : ∃ k, fuel = k + 1 := ⟨fuel - 1, by omega⟩
    rw [ptr, findFrom, ends_bind, ends_load hx, nodeOf_key, findIn]
    by_cases hzero : cmp data x.key = 0
    · rw [if_pos hzero, if_pos hzero, ends_pure]
      exact ⟨rfl, rfl⟩
    · rw [if_neg hzero, if_neg hzero]
      by_cases hneg : cmp data x.key < 0
      · rw [if_pos hneg, if_pos hneg]
        exact ihl hl (by omega)
      · rw [if_neg hneg, if_neg hneg]
        exact ihr hr (by omega)

theorem find_ends (data : Option κ) (hz : Zip s [] t) :
    Ends (find cmp data) s fun res u => res = findIn cmp data t ∧ u = s := by
  have hbound := hz.bound
  have hroot : s.vars.root = ptr t := hz.root
  rw [find, ends_bind, ends_loadRoot, ends_bind, ends_turns, hroot]
  exact findFrom_ends cmp data hz.tree (by rw [length_nil] at hbound; omega)

def descend (key : Option κ) :
    List (Frame (Cell κ ω)) → BinTree (Cell κ ω) → Option (List (Frame (Cell κ ω)))
  | ctx, .leaf => some ctx
  | ctx, .node l x b r =>
    if cmp key x.key = 0 then none
    else if cmp key x.key < 0 then descend key (⟨.left, x, b, r⟩ :: ctx) l
    else descend key (⟨.right, x, b, l⟩ :: ctx) r

theorem descend_plug {key : Option κ} {ctx hole : List (Frame (Cell κ ω))}
    (h : descend cmp key ctx t = some hole) : plug hole .leaf = plug ctx t := by
  induction t generalizing ctx with
  | leaf =>
    cases h
    rfl
  | node l x b r ihl ihr =>
    rw [descend] at h
    split at h
    · cases h
    · split at h
      · exact ihl h
      · exact ihr h

def point : Option (List (Frame (Cell κ ω))) → Option (Nat × Side)
  | some (f :: _) => some (f.label.addr, f.side)
  | _ => none

private theorem insertPoint_ends (key : Option κ) (ctx : List (Frame (Cell κ ω)))
    {l r : BinTree (Cell κ ω)} {x : Cell κ ω} {b : Int}
    (ht : Rep s.heap p (.node l x b r)) (hfuel : (BinTree.node l x b r).height ≤ fuel) :
    Ends (insertPoint cmp key fuel x.addr) s fun res u =>
      res = point (descend cmp key ctx (.node l x b r)) ∧ u = s := by
  induction fuel generalizing ctx l r x b p with
  | zero =>
    rw [BinTree.height] at hfuel
    omega
  | succ fuel ih =>
    obtain ⟨hx, hl, hr⟩ := ht
    rw [BinTree.height] at hfuel
    rw [insertPoint, ends_bind, ends_load hx, nodeOf_key, descend]
    by_cases hzero : cmp key x.key = 0
    · rw [if_pos hzero, if_pos hzero, ends_pure]
      exact ⟨rfl, rfl⟩
    · rw [if_neg hzero, if_neg hzero]
      by_cases hneg : cmp key x.key < 0
      · rw [if_pos hneg, if_pos hneg]
        cases l with
        | leaf => exact ends_pure.mpr ⟨rfl, rfl⟩
        | node ll y c lr => exact ih _ hl (by omega)
      · rw [if_neg hneg, if_neg hneg]
        cases r with
        | leaf => exact ends_pure.mpr ⟨rfl, rfl⟩
        | node rl y c rr => exact ih _ hr (by omega)

end Search

def single (a : Nat) (key : Option κ) (value : Option ω) : BinTree (Cell κ ω) :=
  .node .leaf ⟨a, key, value⟩ 0 .leaf

private theorem ends_allocateNode_none : Ends (allocateNode none) s post ↔ post none s := by
  rw [allocateNode, ends_bind, whenSome, ends_pure, ends_pure]

def allocated (s : State κ ω) (pool : Option MemoryPool) (a : Nat) : State κ ω :=
  ((s.adjust (setPool pool)).write a (some ⟨none, none, none, 0, none, none⟩)).adjust fun v =>
    { v with nodes := v.nodes + 1 }

variable {pool : Option MemoryPool}

theorem ends_allocateNode (h : take s.vars.pool a = some pool) :
    Ends (allocateNode (some a)) s post ↔ post (some a) (allocated s pool a) := by
  rw [allocateNode, ends_bind, whenSome, ends_bind, ends_takeNode h, ends_bind, ends_create,
    ends_adjust, ends_pure]
  rfl

theorem allocated_self : (allocated s pool a).heap a = some ⟨none, none, none, 0, none, none⟩ :=
  heap_write_self (s := s.adjust _)

theorem allocated_of_ne {c : Nat} (h : c ≠ a) : (allocated s pool a).heap c = s.heap c :=
  heap_write_of_ne (s := s.adjust _) h

theorem Owned.take {l : List Nat} (h : Owned s l)
    (ha : Returns s.vars.pool (fun b => (s.heap b).isSome) a) : s.heap a = none ∧
      ∃ pool, take s.vars.pool a = some pool ∧ Backed pool fun b => b = a ∨ b ∈ l := by
  obtain ⟨hfree, htake⟩ := h.backed.take ha fun b hb => by
    obtain ⟨n, hn⟩ := Option.isSome_iff_exists.mp hb
    exact h.mem b n hn
  exact ⟨Option.isNone_iff_eq_none.mp (Option.isSome_eq_false_iff.mp hfree), htake⟩

private theorem not_mem_of_free
    (hz : Zip s ctx t) (ha : s.heap a = none) : a ∉ addrs t ∧ a ∉ ctxAddrs ctx :=
  ⟨fun h => hz.tree.allocated h ha, fun h => hz.around.allocated h ha⟩

private theorem attach_zip {s u : State κ ω} (hz : Zip s (f :: fs) .leaf) (ha : s.heap a = none)
    (huf : u.heap f.label.addr =
      some (nodeOf f.side f.label f.balance (parentPtr fs) (ptr f.sibling) (some a)))
    (hua : u.heap a = some ⟨none, none, some f.label.addr, 0, key, value⟩)
    (hkeep : ∀ c, c ≠ f.label.addr → c ≠ a → u.heap c = s.heap c) (hroot : u.vars.root = s.vars.root)
    (hnodes : u.vars.nodes = s.vars.nodes + 1)
    (hbacked : Backed u.vars.pool fun b => b = a ∨ b ∈ ctxAddrs (f :: fs)) :
    Zip u (f :: fs) (single a key value) := by
  have hfree := (not_mem_of_free hz ha).2
  have hnd := (nodup_append.mp hz.owned.nodup).2.1
  rw [ctxAddrs, nodup_cons] at hnd
  have hrest : ∀ c, c ∈ addrs f.sibling ++ ctxAddrs fs → u.heap c = s.heap c := by
    intro c hc
    exact hkeep c (ne_of_mem_of_not_mem hc hnd.1)
      (ne_of_mem_of_not_mem (mem_cons_of_mem _ hc) hfree)
  obtain ⟨_, hs, hc⟩ := hz.around
  refine ⟨hroot.trans hz.root, ⟨huf, hs.congr ?_, hc.congr ?_⟩, ⟨hua, trivial, trivial⟩, ?_, ?_, ?_,
    hbacked.congr fun _ => mem_cons⟩
  · exact fun c hc => hrest c (mem_append_left _ hc)
  · exact fun c hc => hrest c (mem_append_right _ hc)
  · exact nodup_cons.mpr ⟨hfree, nodup_cons.mpr hnd⟩
  · rw [hnodes, hz.owned.count]
    rfl
  · intro c n hc
    by_cases hca : c = a
    · rw [hca]
      exact mem_cons_self
    · refine mem_cons_of_mem _ ?_
      by_cases hcf : c = f.label.addr
      · rw [hcf]
        exact mem_cons_self
      · rw [hkeep c hcf hca] at hc
        exact hz.owned.mem c n hc

structure Quiet (s u : State κ ω) : Prop where
  failedAsserts : u.vars.failedAsserts = s.vars.failedAsserts
  freed : u.vars.freed = s.vars.freed

theorem grown_single (hb : (plug ctx .leaf).Balanced) : Grown ctx (single a key value) :=
  ⟨0, (balanced_plug.mp hb).2, ⟨rfl, by decide, by decide, trivial, trivial⟩, rfl, .inr rfl⟩

private theorem insertAt_ends (key : Option κ) (value : Option ω) (hz : Zip s (f :: fs) .leaf)
    (hb : (plug (f :: fs) BinTree.leaf).Balanced)
    (hgot : Returns s.vars.pool (fun b => (s.heap b).isSome) a) :
    Ends (insertAt key value (some a) f.label.addr f.side) s fun res u =>
      res = some a ∧ Zip u [] (grow (f :: fs) (single a key value)) ∧ Quiet s u := by
  obtain ⟨ha, pool, htake, hbacked⟩ := Owned.take hz.owned hgot
  have hf := hz.around.1
  have hfa : f.label.addr ≠ a := ne_of_heap hf ha
  have hf₁ : (allocated s pool a).heap f.label.addr =
      some (nodeOf f.side f.label f.balance (parentPtr fs) (ptr f.sibling) none) :=
    (allocated_of_ne hfa).trans hf
  rw [insertAt, ends_bind, ends_allocateNode htake, ends_bind, ends_modify hf₁, setChild_nodeOf,
    ends_bind, ends_modify ((heap_write_of_ne (Ne.symm hfa)).trans allocated_self), ends_bind,
    ends_turns, ends_bind]
  have hzip : Zip (((allocated s pool a).write f.label.addr (some (nodeOf f.side f.label f.balance
      (parentPtr fs) (ptr f.sibling) (some a)))).write a
      (some ⟨none, none, some f.label.addr, 0, key, value⟩)) (f :: fs) (single a key value) := by
    refine attach_zip hz ha ((heap_write_of_ne hfa).trans heap_write_self) heap_write_self ?_
      rfl rfl hbacked
    intro c hcf hca
    exact (heap_write_of_ne hca).trans ((heap_write_of_ne hcf).trans (allocated_of_ne hca))
  refine (insertRetrace_ends hzip (grown_single hb) ?_).mono ?_
  · have hbound := hzip.bound
    rw [length_cons] at hbound
    change fs.length < (allocated s pool a).vars.nodes + 1
    change _ ≤ (allocated s pool a).vars.nodes at hbound
    omega
  · rintro _ u ⟨hu, hrest⟩
    exact ends_pure.mpr ⟨rfl, hu, hrest.failedAsserts, hrest.freed⟩

section Insert

variable (cmp : Option κ → Option κ → Int) {s : State κ ω} {key : Option κ} {got : Option Nat}
  {t : BinTree (Cell κ ω)}

theorem insertRoot_ends {a : Nat} (key : Option κ) (value : Option ω) (hz : Zip s [] BinTree.leaf)
    (hgot : Returns s.vars.pool (fun b => (s.heap b).isSome) a) :
    Ends (insertRoot key value (some a)) s fun res u =>
      res = some a ∧ Zip u [] (single a key value) ∧ Quiet s u := by
  obtain ⟨_, pool, htake, hbacked⟩ := Owned.take hz.owned hgot
  have hempty : ∀ c, s.heap c = none := by
    intro c
    cases hc : s.heap c with
    | none => rfl
    | some n => cases hz.owned.mem c n hc
  rw [insertRoot, ends_bind, ends_allocateNode htake, ends_bind, ends_modify allocated_self,
    ends_bind, ends_storeRoot, ends_pure]
  refine ⟨rfl, ⟨rfl, trivial, ⟨heap_write_self (s := allocated s pool a), trivial, trivial⟩, ?_, ?_,
    ?_, ?_⟩, rfl, rfl⟩
  · exact nodup_cons.mpr ⟨not_mem_nil, nodup_nil⟩
  · change s.vars.nodes + 1 = 1
    rw [hz.owned.count]
    rfl
  · intro c n hc
    by_cases hca : c = a
    · rw [hca]
      exact mem_cons_self
    · have hold := (heap_write_of_ne (s := allocated s pool a) hca).symm.trans hc
      rw [allocated_of_ne hca, hempty c] at hold
      cases hold
  · exact hbacked.congr fun _ => mem_cons

theorem insert_node_ends {l r : BinTree (Cell κ ω)} {x : Cell κ ω} {b : Int} {value : Option ω}
    {post : Option Nat → State κ ω → Prop}
    (hz : Zip s [] (.node l x b r))
    (hpoint : Ends (match point (descend cmp key [] (.node l x b r)) with
      | none => pure none
      | some (node, side) => insertAt key value got node side) s post) :
    Ends (AvlTree.insert cmp key value got) s post := by
  have hroot : s.vars.root = some x.addr := hz.root
  have hbound := hz.bound
  have hfuel : (BinTree.node l x b r).height ≤ s.vars.nodes + 1 := by
    omega
  rw [AvlTree.insert, ends_bind, ends_loadRoot, hroot, ends_bind, ends_turns, ends_bind]
  refine (insertPoint_ends cmp key [] hz.tree hfuel).mono ?_
  rintro _ u ⟨rfl, rfl⟩
  exact hpoint

theorem insert_new_ends {hole : List (Frame (Cell κ ω))} {a : Nat} (value : Option ω)
    (hz : Zip s [] t) (hb : t.Balanced) (hd : descend cmp key [] t = some hole)
    (hgot : Returns s.vars.pool (fun b => (s.heap b).isSome) a) :
    Ends (AvlTree.insert cmp key value (some a)) s fun res u => res = some a ∧
      Zip u [] (grow hole (single a key value)) ∧ Quiet s u := by
  have hplug := descend_plug cmp hd
  cases t with
  | leaf =>
    cases hd
    have hroot : s.vars.root = none := hz.root
    rw [AvlTree.insert, ends_bind, ends_loadRoot, hroot]
    exact insertRoot_ends key value hz hgot
  | node l x b r =>
    have hhole : Zip s hole .leaf := zip_plug.mpr (hplug ▸ hz)
    have hbal : (plug hole BinTree.leaf).Balanced := hplug ▸ hb
    refine insert_node_ends cmp hz ?_
    rw [hd]
    cases hole with
    | nil => cases hplug
    | cons f fs => exact insertAt_ends key value hhole hbal hgot

theorem insert_refused_ends (value : Option ω) (hz : Zip s [] t)
    (h : descend cmp key [] t = none ∨ got = none) :
    Ends (AvlTree.insert cmp key value got) s fun res u => res = none ∧ u = s := by
  cases t with
  | leaf =>
    have hroot : s.vars.root = none := hz.root
    rw [AvlTree.insert, ends_bind, ends_loadRoot, hroot]
    rcases h with h | rfl
    · cases h
    · rw [insertRoot, ends_bind, ends_allocateNode_none, ends_pure]
      exact ⟨rfl, rfl⟩
  | node l x b r =>
    refine insert_node_ends cmp hz ?_
    cases hd : descend cmp key [] (.node l x b r) with
    | none => exact ends_pure.mpr ⟨rfl, rfl⟩
    | some hole =>
      rcases h with h | rfl
      · rw [h] at hd
        cases hd
      · cases hole with
        | nil => cases descend_plug cmp hd
        | cons f fs =>
          change Ends (insertAt key value none f.label.addr f.side) s _
          rw [insertAt, ends_bind, ends_allocateNode_none, ends_pure]
          exact ⟨rfl, rfl⟩

end Insert

end MuggleC.Dsaa.AvlInsert
