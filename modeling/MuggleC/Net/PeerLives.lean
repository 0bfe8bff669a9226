/- source: net/event/socket_event_memmgr.c, net/socket_peer.c
   digest: The connection that each node of the pool holds, and which one a release closes. -/

import Mathlib.Data.Fintype.Option
import MuggleC.Foundation.Placement
import MuggleC.Net.MemmgrLists
import MuggleC.Net.PeerRefs

set_option autoImplicit false

namespace MuggleC.Net.PeerLives

open Foundation.Placement Foundation.Transition EventMemmgr
open PeerRefs (RefInv SafeAt)
open Function List

section Node

variable {κ : Type}

def Quiet (p : PeerRefs.State κ) : Prop := p.refs = [] ∧ ∀ k, p.pc k = none

def Complete (p : PeerRefs.State κ) : Prop :=
  ∃ k fd, p.effects = (Peer.closing p.peer.onClose fd).map (Prod.mk k)

def Finished (p : PeerRefs.State κ) : Prop := Quiet p ∧ Complete p

def Opened (p : PeerRefs.State κ) : Prop := ∀ k fd, (k, Effect.close fd) ∉ p.effects

variable {p p' : PeerRefs.State κ} {fd : Int} {e : PeerRefs.Event κ} {k : κ} {spurious : Bool}
  {pc : CallPc}

theorem finished_of_zero (h : RefInv fd p)
    (hzero : p.peer.refCnt = 0#32) (hidle : ∀ k, p.pc k = none) : Finished p := by
  rw [h.count] at hzero
  have hrefs : p.refs = [] := eq_nil_of_length_eq_zero (PeerRefs.ofNat_eq_zero h.bound hzero)
  obtain ⟨k, _, hdone⟩ := h.closedOnce.finished hrefs
  exact ⟨⟨hrefs, hidle⟩, k, fd, hdone (hidle k)⟩

variable [DecidableEq κ]

private theorem step_of_quiet (h : Quiet p) (e : PeerRefs.Event κ) : p.step e = none := by
  have hmem : ∀ k, k ∉ p.refs := by
    intro k hk
    rw [h.1] at hk
    cases hk
  cases e with
  | retain k | release k | give k j => exact if_neg fun hc => hmem k hc.2
  | step k spurious => rw [PeerRefs.State.step, h.2 k]

omit [DecidableEq κ] in
theorem busy_of_pc (h : p.pc k = some pc) : ¬ Quiet p := by
  intro hq
  rw [hq.2 k] at h
  cases h

theorem busy_of_step (h : p.step e = some p') : ¬ Quiet p := by
  intro hq
  rw [step_of_quiet hq] at h
  cases h

private theorem step_begin (hbegin : e = .retain k ∨ e = .release k) (he : p.step e = some p') :
    ∃ pc, p' = { p with pc := update p.pc k (some pc) } := by
  rcases hbegin with rfl | rfl
  all_goals
    simp only [PeerRefs.State.step] at he
    split at he
    · exact ⟨_, (Option.some.inj he).symm⟩
    · cases he

private theorem step_give {j : κ} (he : p.step (.give k j) = some p') :
    ∃ refs, p' = { p with refs := refs } := by
  simp only [PeerRefs.State.step] at he
  split at he
  · exact ⟨_, (Option.some.inj he).symm⟩
  · cases he

private theorem step_step (he : p.step (.step k spurious) = some p') :
    ∃ pc, p.pc k = some pc ∧ p' = p.advance k pc spurious := by
  simp only [PeerRefs.State.step] at he
  split at he
  · cases he
  · next pc hpc => exact ⟨pc, hpc, (Option.some.inj he).symm⟩

private theorem pc_of_advance {j : κ} {pc' : CallPc} (hpc : p.pc k = some pc)
    (hj : (p.advance k pc spurious).pc j = some pc') : ∃ pc₀, p.pc j = some pc₀ := by
  rcases PeerRefs.update_pc hj with ⟨rfl, _⟩ | ⟨_, hj⟩
  · exact ⟨pc, hpc⟩
  · exact ⟨pc', hj⟩

private theorem opened_of_advance (h : Opened (p.advance k pc spurious)) : Opened p :=
  fun j fd hmem => h j fd (mem_append_left _ hmem)

private theorem close_advance (spurious : Bool) : ¬ Opened (p.advance k .close spurious) := by
  intro h
  exact h k p.peer.fd (mem_append_right _ (mem_singleton_self _))

omit [DecidableEq κ] in
private theorem opened_at_close (h : RefInv fd p)
    (hpc : p.pc k = some .close) : p.peer.fd = fd ∧ Opened p := by
  have heff := h.effects
  rw [PeerRefs.EffectsOk, h.closer k _ hpc rfl] at heff
  change PeerRefs.ClosingOk fd p k (p.pc k) at heff
  rw [hpc] at heff
  refine ⟨heff.1, ?_⟩
  intro j fd' hmem
  rw [heff.2.1] at hmem
  cases hb : p.peer.onClose <;> rw [hb] at hmem <;> simp at hmem

private theorem finished_of_return
    (h : RefInv fd p) (h' : RefInv fd (p.advance k pc spurious)) (hpc : p.pc k = some pc)
    (hsafe : SafeAt p (some pc)) (hret : (p.peer.callStep spurious pc).next = .ret 0#32) :
    Finished (p.advance k pc spurious) := by
  cases pc with
  | retainLoad | releaseLoad =>
    rw [Peer.callStep, if_neg (h.refCnt_ne_zero (h.holds k _ hpc rfl))] at hret
    cases hret
  | retainCas refCnt =>
    simp only [Peer.callStep] at hret
    split at hret
    · next hcas =>
      rw [← hcas.1, h.count, ← BitVec.ofNat_add] at hret
      have hlen := PeerRefs.ofNat_eq_zero hsafe (Next.ret.inj hret)
      omega
    · cases hret
  | releaseCheck desired =>
    simp only [Peer.callStep] at hret
    split at hret <;> cases hret
  | releaseStore desired =>
    obtain rfl : desired = 0#32 := hsafe
    cases hret
  | releaseCas refCnt =>
    simp only [Peer.callStep] at hret
    split at hret
    · simp only [Peer.afterLoop] at hret
      split at hret
      · cases hret
      · next hne => exact absurd (Next.ret.inj hret) hne
    · cases hret
  | onClose => cases hret
  | close => cases hret
  | setInvalid =>
    obtain ⟨hrefs, _, halone⟩ := PeerRefs.alone_of_closing h hpc rfl
    refine finished_of_zero h' ?_ ?_
    · change p.peer.refCnt = 0#32
      rw [h.count, hrefs]
      rfl
    · intro j
      change update p.pc k none j = none
      rcases eq_or_ne j k with rfl | hne
      · exact update_self j none p.pc
      · rw [update_of_ne hne]
        exact halone j hne

end Node

section System

variable {ν ι : Type}

def filling : LoopPc ν → Option ν
  | .accepting n => some n
  | .accepted n => some n
  | _ => none

def calling : LoopPc ν → Option ν
  | .retaining n => some n
  | .recycling n => some n
  | _ => none

structure Live (s : State ν ι) (n : ν) (fd : Int) (id : Nat) : Prop where
  inv : RefInv fd (s.node n)
  life : s.life n = some id
  opened : Opened (s.node n) → s.fdTable fd = some id

def NodeOk (s : State ν ι) (n : ν) : Loc → Prop
  | .pool => Quiet (s.node n) ∧ (s.life n = none ∨ Complete (s.node n))
  | .fresh => Quiet (s.node n)
  | .active => ∃ fd id, Live s n fd id
  | .detached => ∃ fd id, Live s n fd id
  | .recycle => ∃ fd id, Live s n fd id

structure ListsOk (s : State ν ι) : Prop where
  pool : Holds s.loc (fun l => l = .pool) s.pool
  active : Holds s.loc (fun l => l = .active ∨ l = .fresh) s.active
  recycle : Holds s.loc (fun l => l = .recycle) s.recycle

def blank (fd : Int) : PeerRefs.State (Option ι) :=
  ⟨⟨0#32, fd, false⟩, fun _ => none, [], none, [], []⟩

def LoopAt (s : State ν ι) : LoopPc ν → Prop
  | .idle => True
  | .retaining _ => True
  | .recycling n => s.loc n = .detached
  | .recycled n ret => s.loc n = .detached ∧ (ret = 0#32 → Finished (s.node n))
  | .clearing rest => Holds s.loc (fun l => l = .recycle) rest
  | .freeing n rest => Holds s.loc (fun l => l = .recycle) (n :: rest) ∧ Finished (s.node n)
  | .accepting n => s.loc n = .fresh ∧ s.life n = none ∧ ∃ fd, s.node n = blank fd
  | .accepted n => s.loc n = .fresh ∧
      ∃ fd id, s.node n = blank fd ∧ s.life n = some id ∧ s.fdTable fd = some id

structure Inv (s : State ν ι) : Prop where
  lists : ListsOk s
  nodes : ∀ n, NodeOk s n (s.loc n)
  calls : ∀ n h pc, (s.node n).pc h = some pc → s.callLife h = s.life n
  lives : ∀ n id, s.life n = some id → id < s.accepts
  unique : ∀ m n id, s.life m = some id → s.life n = some id → m = n
  closes : ∀ c ∈ s.closes, ∃ id, c.life = some id ∧ c.closed = some id
  fresh : ∀ n, s.loc n = .fresh → filling s.loop = some n
  loopCalls : ∀ n pc, (s.node n).pc none = some pc → calling s.loop = some n
  loop : LoopAt s s.loop

theorem blank_quiet (fd : Int) : Quiet (blank fd : PeerRefs.State (Option ι)) :=
  ⟨rfl, fun _ => rfl⟩

variable {s t : State ν ι} {n : ν} {p : PeerRefs.State (Option ι)}

theorem nodeOk_iff_live {l : Loc} (hl : l ≠ .pool ∧ l ≠ .fresh) :
    NodeOk s n l ↔ ∃ fd id, Live s n fd id := by
  cases l with
  | pool => exact absurd rfl hl.1
  | fresh => exact absurd rfl hl.2
  | _ => rfl

theorem NodeOk.frame {m : ν} {l : Loc} (hm : NodeOk s m l)
    (hnode : t.node m = s.node m) (hlife : t.life m = s.life m)
    (hfd : ∀ fd id, s.life m = some id → s.fdTable fd = some id → t.fdTable fd = some id) :
    NodeOk t m l := by
  have hlive : (∃ fd id, Live s m fd id) → ∃ fd id, Live t m fd id := by
    rintro ⟨fd, id, hl⟩
    refine ⟨fd, id, ?_, hlife.trans hl.life, ?_⟩
    · rw [hnode]
      exact hl.inv
    · rw [hnode]
      exact fun ho => hfd fd id hl.life (hl.opened ho)
  cases l with
  | pool =>
    rw [NodeOk, hnode, hlife]
    exact hm
  | fresh =>
    rw [NodeOk, hnode]
    exact hm
  | active => exact hlive hm
  | detached => exact hlive hm
  | recycle => exact hlive hm

structure Elsewhere (n : ν) (s t : State ν ι) : Prop where
  node : ∀ m, m ≠ n → t.node m = s.node m
  life : ∀ m, m ≠ n → t.life m = s.life m
  loc : ∀ m, m ≠ n → t.loc m = s.loc m
  callLife : t.callLife = s.callLife
  fdTable : ∀ m fd id, m ≠ n → s.life m = some id → s.fdTable fd = some id →
    t.fdTable fd = some id
  accepts : s.accepts ≤ t.accepts

theorem Elsewhere.inv (h : Elsewhere n s t) (hs : Inv s)
    (hlists : ListsOk t) (hn : NodeOk t n (t.loc n))
    (hcalls : ∀ k pc, (t.node n).pc k = some pc → t.callLife k = t.life n)
    (hlife : ∀ id, t.life n = some id → s.life n = some id ∨ (s.accepts ≤ id ∧ id < t.accepts))
    (hcloses : ∀ c ∈ t.closes, ∃ id, c.life = some id ∧ c.closed = some id)
    (hfresh : ∀ m, t.loc m = .fresh → filling t.loop = some m)
    (hloopCalls : ∀ m pc, (t.node m).pc none = some pc → calling t.loop = some m)
    (hloop : LoopAt t t.loop) : Inv t := by
  have hother : ∀ m id, m ≠ n → t.life m = some id → t.life n ≠ some id := by
    intro m id hne hm hnid
    rw [h.life m hne] at hm
    rcases hlife id hnid with hold | ⟨hge, _⟩
    · exact hne (hs.unique m n id hm hold)
    · have := hs.lives m id hm
      omega
  refine ⟨hlists, ?_, ?_, ?_, ?_, hcloses, hfresh, hloopCalls, hloop⟩
  · intro m
    rcases eq_or_ne m n with rfl | hne
    · exact hn
    · rw [h.loc m hne]
      exact (hs.nodes m).frame (h.node m hne) (h.life m hne) (fun fd id => h.fdTable m fd id hne)
  · intro m k pc hpc
    rcases eq_or_ne m n with rfl | hne
    · exact hcalls k pc hpc
    · rw [h.node m hne] at hpc
      rw [h.callLife, h.life m hne]
      exact hs.calls m k pc hpc
  · intro m id hm
    rcases eq_or_ne m n with rfl | hne
    · rcases hlife id hm with hold | ⟨_, hlt⟩
      · exact Nat.lt_of_lt_of_le (hs.lives m id hold) h.accepts
      · exact hlt
    · rw [h.life m hne] at hm
      exact Nat.lt_of_lt_of_le (hs.lives m id hm) h.accepts
  · intro m m' id hm hm'
    rcases eq_or_ne m n with rfl | hne
    · rcases eq_or_ne m' m with rfl | hne'
      · rfl
      · exact absurd hm (hother m' id hne' hm')
    · rcases eq_or_ne m' n with rfl | hne'
      · exact absurd hm' (hother m id hne hm)
      · rw [h.life m hne] at hm
        rw [h.life m' hne'] at hm'
        exact hs.unique m m' id hm hm'

variable {l : LoopPc ν} {fd : Int} {id : Nat} {k : Option ι} {spurious : Bool} {pc : CallPc}

theorem LoopAt.frame (h : LoopAt s l) (hloc : t.loc = s.loc)
    (hlife : t.life = s.life) (hnode : ∀ m, Quiet (s.node m) → t.node m = s.node m)
    (hfd : ∀ m fd id, Quiet (s.node m) → s.life m = some id → s.fdTable fd = some id →
      t.fdTable fd = some id) : LoopAt t l := by
  cases l with
  | idle => trivial
  | retaining n => trivial
  | recycling n => exact (congrFun hloc n).trans h
  | recycled n ret =>
    refine ⟨(congrFun hloc n).trans h.1, ?_⟩
    intro hret
    have hfin := h.2 hret
    rw [hnode n hfin.1]
    exact hfin
  | clearing rest =>
    rw [LoopAt, hloc]
    exact h
  | freeing n rest =>
    rw [LoopAt, hloc, hnode n h.2.1]
    exact h
  | accepting n =>
    obtain ⟨hl, hn, fd, hb⟩ := h
    refine ⟨(congrFun hloc n).trans hl, (congrFun hlife n).trans hn, fd, ?_⟩
    rw [hnode n (hb ▸ blank_quiet fd)]
    exact hb
  | accepted n =>
    obtain ⟨hl, fd, id, hb, hn, hopen⟩ := h
    have hq : Quiet (s.node n) := hb ▸ blank_quiet fd
    exact ⟨(congrFun hloc n).trans hl, fd, id, (hnode n hq).trans hb, (congrFun hlife n).trans hn,
      hfd n fd id hq hn hopen⟩

theorem Inv.loc_of_busy (hs : Inv s) (hbusy : ¬ Quiet (s.node n)) :
    s.loc n ≠ .pool ∧ s.loc n ≠ .fresh := by
  have hn := hs.nodes n
  constructor
  · intro hl
    rw [hl] at hn
    exact hbusy hn.1
  · intro hl
    rw [hl] at hn
    exact hbusy hn

theorem Inv.live_of_busy (hs : Inv s) (hbusy : ¬ Quiet (s.node n)) : ∃ fd id, Live s n fd id :=
  (nodeOk_iff_live (hs.loc_of_busy hbusy)).mp (hs.nodes n)

theorem setLoop_inv (hs : Inv s) (hfresh : ∀ m, s.loc m = .fresh → filling l = some m)
    (hcalls : ∀ m pc, (s.node m).pc none = some pc → calling l = some m) (hat : LoopAt s l) :
    Inv { s with loop := l } :=
  ⟨⟨hs.lists.pool, hs.lists.active, hs.lists.recycle⟩,
    fun m => (hs.nodes m).frame rfl rfl (fun _ _ _ h => h), hs.calls, hs.lives, hs.unique,
    hs.closes, hfresh, hcalls, hat.frame rfl rfl (fun _ _ => rfl) (fun _ _ _ _ _ h => h)⟩

theorem Inv.loopAt (hs : Inv s) (hloop : s.loop = l) : LoopAt s l := hloop ▸ hs.loop

theorem Inv.no_fresh (hs : Inv s) (hfill : filling s.loop = none) (m : ν) : s.loc m ≠ .fresh := by
  intro hm
  rw [hs.fresh m hm] at hfill
  cases hfill

theorem Inv.loop_idle (hs : Inv s) (hcall : calling s.loop = none) : s.Idle none := by
  intro m
  cases hpc : (s.node m).pc none with
  | none => rfl
  | some pc =>
    rw [hs.loopCalls m pc hpc] at hcall
    cases hcall

theorem Inv.goto (hs : Inv s) (hcall : calling s.loop = none)
    (hfill : filling s.loop = none) (hat : LoopAt s l) : Inv { s with loop := l } := by
  refine setLoop_inv hs (fun m hm => absurd hm (hs.no_fresh hfill m)) ?_ hat
  intro m pc hpc
  rw [hs.loop_idle hcall m] at hpc
  cases hpc

theorem Elsewhere.fill_inv (h : Elsewhere n s t) (hs : Inv s)
    (hcall : calling s.loop = none) (hcloses : t.closes = s.closes) (hlists : ListsOk t)
    (hn : NodeOk t n (t.loc n)) (hself : t.node n = p) (hpc : ∀ k, p.pc k = none)
    (hlife : ∀ id, t.life n = some id → s.life n = some id ∨ (s.accepts ≤ id ∧ id < t.accepts))
    (hfresh : ∀ m, t.loc m = .fresh → filling t.loop = some m) (hloop : LoopAt t t.loop) :
    Inv t := by
  refine h.inv hs hlists hn ?_ hlife ?_ hfresh ?_ hloop
  · intro k pc hk
    rw [hself, hpc k] at hk
    cases hk
  · rw [hcloses]
    exact hs.closes
  · intro m pc hm
    rcases eq_or_ne m n with rfl | hne
    · rw [hself, hpc none] at hm
      cases hm
    · rw [h.node m hne, hs.loop_idle hcall m] at hm
      cases hm

variable [DecidableEq ν] (hs : Inv s) (hl : Live s n fd id) (hbusy : ¬ Quiet (s.node n))
  (hp : RefInv fd p) (hcalls : ∀ k pc, p.pc k = some pc → s.callLife k = s.life n)
  (hloop : ∀ pc, p.pc none = some pc → calling s.loop = some n)

include hs hl hbusy hp hcalls hloop

theorem touch_inv {fdTable : Int → Option Nat} {closes : List Closed}
    (hopen : Opened p → fdTable fd = some id)
    (hfd : ∀ m fd' id', m ≠ n → s.life m = some id' → s.fdTable fd' = some id' →
      fdTable fd' = some id')
    (hcloses : ∀ c ∈ closes, ∃ id, c.life = some id ∧ c.closed = some id) :
    Inv { s.setNode n p with fdTable := fdTable, closes := closes } := by
  have hself : update s.node n p n = p := update_self n p s.node
  have hnode : ∀ m, m ≠ n → update s.node n p m = s.node m :=
    fun m hne => update_of_ne hne p s.node
  have hquiet : ∀ m, Quiet (s.node m) → m ≠ n := by
    rintro m hq rfl
    exact hbusy hq
  have helse : Elsewhere n s { s.setNode n p with fdTable := fdTable, closes := closes } :=
    ⟨hnode, fun _ _ => rfl, fun _ _ => rfl, rfl, hfd, Nat.le_refl _⟩
  refine helse.inv hs ⟨hs.lists.pool, hs.lists.active, hs.lists.recycle⟩ ?_ ?_ ?_ hcloses hs.fresh
    ?_ ?_
  · refine (nodeOk_iff_live (hs.loc_of_busy hbusy)).mpr ⟨fd, id, ?_, hl.life, ?_⟩
    · change RefInv fd (update s.node n p n)
      rw [hself]
      exact hp
    · intro ho
      exact hopen (hself ▸ ho)
  · intro k pc hpc
    exact hcalls k pc (hself ▸ hpc)
  · intro id' hid
    exact .inl hid
  · intro m pc hpc
    rcases eq_or_ne m n with rfl | hne
    · exact hloop pc (hself ▸ hpc)
    · exact hs.loopCalls m pc (hnode m hne ▸ hpc)
  · exact hs.loop.frame rfl rfl (fun m hq => hnode m (hquiet m hq))
      (fun m fd' id' hq => hfd m fd' id' (hquiet m hq))

theorem setNode_inv (hopen : Opened p → Opened (s.node n)) : Inv (s.setNode n p) :=
  touch_inv hs hl hbusy hp hcalls hloop (fun ho => hl.opened (hopen ho)) (fun _ _ _ _ _ h => h)
    hs.closes

omit hs hl hbusy hp hcalls hloop

private theorem close_inv (hs : Inv s) (hl : Live s n fd id) (hpc : (s.node n).pc k = some .close)
    (hp : RefInv fd p) (hclosed : ¬ Opened p)
    (hcalls : ∀ k pc, p.pc k = some pc → s.callLife k = s.life n)
    (hloop : ∀ pc, p.pc none = some pc → calling s.loop = some n) :
    Inv ((s.noteClose n k).setNode n p) := by
  obtain ⟨hfd, hopened⟩ := opened_at_close hl.inv hpc
  have htable := hl.opened hopened
  refine touch_inv (s := s) hs hl (busy_of_pc hpc) hp hcalls hloop (fun ho => absurd ho hclosed) ?_ ?_
  · intro m fd' id' hne hm hopen
    have hfd' : fd' ≠ (s.node n).peer.fd := by
      rintro rfl
      rw [hfd, htable, Option.some.injEq] at hopen
      rw [← hopen] at hm
      exact hne (hs.unique m n id hm hl.life)
    exact (update_of_ne hfd' _ _).trans hopen
  · intro c hc
    rcases mem_append.mp hc with hc | hc
    · exact hs.closes c hc
    · rw [mem_singleton.mp hc]
      refine ⟨id, (hs.calls n k _ hpc).trans hl.life, ?_⟩
      rw [hfd]
      exact htable

private theorem attach_inv (hs : Inv s) (hone : (s.node n).refs = [none]) (onClose : Bool) :
    Inv (s.setNode n { s.node n with peer := { (s.node n).peer with onClose := onClose } }) := by
  have hmem : none ∈ (s.node n).refs := by
    rw [hone]
    exact mem_singleton_self none
  have hbusy : ¬ Quiet (s.node n) := by
    intro hq
    rw [hq.1] at hmem
    cases hmem
  obtain ⟨fd, id, hl⟩ := hs.live_of_busy hbusy
  have hinv := hl.inv
  have hp : RefInv fd { s.node n with peer := { (s.node n).peer with onClose := onClose } } := by
    refine ⟨hinv.count, hinv.bound, hinv.holds, hinv.last, hinv.loaded, hinv.closer, hinv.zeroed,
      ?_, hinv.returns⟩
    rw [PeerRefs.EffectsOk, hinv.zeroedBy_none hmem]
    exact hinv.open_of_mem hmem
  exact setNode_inv hs hl hbusy hp (hs.calls n) (hs.loopCalls n) (fun ho => ho)

theorem Inv.no_fresh_moved (hs : Inv s) (hfill : filling s.loop = some n)
    {l : Loc} (hl : l ≠ .fresh) (m : ν) : update s.loc n l m ≠ .fresh := by
  intro hm
  by_cases hne : m = n
  · rw [hne, update_self] at hm
    exact hl hm
  · rw [update_of_ne hne] at hm
    exact hne (Option.some.inj ((hs.fresh m hm).symm.trans hfill))

theorem relocate_inv {l : Loc} {lp : LoopPc ν} {pool active recycle : List ν} (hs : Inv s)
    (hcall : calling s.loop = none) (hfill : filling s.loop = none) (hl : l ≠ .fresh)
    (hn : NodeOk s n l) (hpool : Holds (update s.loc n l) (fun l => l = .pool) pool)
    (hactive : Holds (update s.loc n l) (fun l => l = .active ∨ l = .fresh) active)
    (hrecycle : Holds (update s.loc n l) (fun l => l = .recycle) recycle)
    (hat : LoopAt { s with loc := update s.loc n l } lp) : Inv { s with
      pool := pool
      active := active
      recycle := recycle
      loop := lp
      loc := update s.loc n l } := by
  have hself : update s.loc n l n = l := update_self n l s.loc
  have hidle := hs.loop_idle hcall
  have helse : Elsewhere n s { s with
      pool := pool, active := active, recycle := recycle, loop := lp,
      loc := update s.loc n l } :=
    ⟨fun _ _ => rfl, fun _ _ => rfl, fun m hne => update_of_ne hne l s.loc, rfl,
      fun _ _ _ _ _ h => h, Nat.le_refl _⟩
  refine helse.inv hs ⟨hpool, hactive, hrecycle⟩ ?_ (hs.calls n) (fun id h => .inl h) hs.closes
    ?_ ?_ ?_
  · change NodeOk _ n (update s.loc n l n)
    rw [hself]
    exact hn.frame rfl rfl (fun _ _ _ h => h)
  · intro m hm
    change update s.loc n l m = .fresh at hm
    rcases eq_or_ne m n with rfl | hne
    · exact absurd (hself.symm.trans hm) hl
    · rw [update_of_ne hne] at hm
      exact absurd hm (hs.no_fresh hfill m)
  · intro m pc hpc
    rw [show (s.node m).pc none = none from hidle m] at hpc
    cases hpc
  · exact hat.frame rfl rfl (fun _ _ => rfl) (fun _ _ _ _ _ h => h)

private theorem recycled_inv {ret : BitVec 32} (hs : Inv s) (hloop : s.loop = .recycled n ret) :
    Inv (if ret = 0#32 then { s.free n with loop := .idle } else { s with
      recycle := n :: s.recycle
      loop := .idle
      loc := update s.loc n .recycle }) := by
  obtain ⟨hloc, hfin⟩ := hs.loopAt hloop
  have hcall : calling s.loop = none := congrArg calling hloop
  have hfill : filling s.loop = none := congrArg filling hloop
  have hn := hs.nodes n
  rw [hloc] at hn
  have hpool : s.loc n ≠ .pool := by simp [hloc]
  have hrecycle : s.loc n ≠ .recycle := by simp [hloc]
  have hactive : ¬ (s.loc n = .active ∨ s.loc n = .fresh) := by simp [hloc]
  split
  · next hret =>
    obtain ⟨hq, hc⟩ := hfin hret
    exact relocate_inv hs hcall hfill (by simp) ⟨hq, .inr hc⟩ (hs.lists.pool.concat hpool rfl)
      (hs.lists.active.away hactive)
      (hs.lists.recycle.away hrecycle) trivial
  · exact relocate_inv hs hcall hfill (by simp) hn
      (hs.lists.pool.away hpool)
      (hs.lists.active.away hactive)
      (hs.lists.recycle.cons hrecycle rfl) trivial

private theorem freeing_inv {rest : List ν} (hs : Inv s) (hloop : s.loop = .freeing n rest) :
    Inv { s.free n with recycle := s.recycle.erase n, loop := .clearing rest } := by
  obtain ⟨hrest, hq, hc⟩ := hs.loopAt hloop
  have hcall : calling s.loop = none := congrArg calling hloop
  have hfill : filling s.loop = none := congrArg filling hloop
  have hloc : s.loc n = .recycle := hrest.mem n mem_cons_self
  exact relocate_inv hs hcall hfill (by simp) ⟨hq, .inr hc⟩ (hs.lists.pool.concat (by simp [hloc]) rfl)
    (hs.lists.active.away (by simp [hloc]))
    hs.lists.recycle.erase hrest.tail

theorem allocate_inv (hs : Inv s) (hloop : s.loop = .idle) (he : s.allocate = some t) : Inv t := by
  have hcall : calling s.loop = none := congrArg calling hloop
  have hfill : filling s.loop = none := congrArg filling hloop
  rw [State.allocate] at he
  split at he
  · cases he
  · next n rest hpool =>
    cases he
    have hlists := hs.lists.pool
    rw [hpool] at hlists
    have hloc : s.loc n = .pool := hlists.mem n mem_cons_self
    have hn := hs.nodes n
    rw [hloc] at hn
    have hblank : State.cleared (s.node n) = blank 0 := by
      rw [State.cleared, blank, funext hn.1.2]
    have hself : update s.node n (State.cleared (s.node n)) n = blank 0 := by
      rw [update_self, hblank]
    have hfresh : update s.loc n .fresh n = .fresh := update_self n _ _
    have hlife : update s.life n none n = none := update_self n _ _
    refine Elsewhere.fill_inv (n := n) (s := s) ⟨fun m hne => update_of_ne hne _ _,
      fun m hne => update_of_ne hne _ _, fun m hne => update_of_ne hne _ _, rfl,
      fun _ _ _ _ _ h => h, Nat.le_refl _⟩ hs hcall rfl
      ⟨hlists.tail, hs.lists.active.cons (by simp [hloc]) (.inr rfl),
        hs.lists.recycle.away (by simp [hloc])⟩ ?_ hself (fun _ => rfl) ?_ ?_ ?_
    · change NodeOk _ n (update s.loc n .fresh n)
      rw [hfresh]
      change Quiet (update s.node n (State.cleared (s.node n)) n)
      rw [hself]
      exact blank_quiet 0
    · intro id hid
      cases hlife.symm.trans hid
    · intro m hm
      change update s.loc n .fresh m = .fresh at hm
      rcases eq_or_ne m n with rfl | hne
      · rfl
      · rw [update_of_ne hne] at hm
        exact absurd hm (hs.no_fresh hfill m)
    · exact ⟨hfresh, hlife, 0, hself⟩

theorem setFd_node {fd₀ : Int} (hb : s.node n = blank fd₀) (fd : Int) :
    (s.setFd n fd).node n = blank fd := by
  change update s.node n _ n = _
  rw [update_self, hb]
  rfl

private theorem setFd_elsewhere (s : State ν ι) (n : ν) (fd : Int) : Elsewhere n s (s.setFd n fd) :=
  ⟨fun _ hne => update_of_ne hne _ _, fun _ _ => rfl, fun _ _ => rfl, rfl,
    fun _ _ _ _ _ h => h, Nat.le_refl _⟩

private theorem accept_interrupted_inv (hs : Inv s) (hloop : s.loop = .accepting n) :
    Inv (s.setFd n invalidSocket) := by
  obtain ⟨hloc, hlife, fd₀, hb⟩ := hs.loopAt hloop
  have hself := setFd_node hb invalidSocket
  refine (setFd_elsewhere s n invalidSocket).fill_inv hs (congrArg calling hloop) rfl
    ⟨hs.lists.pool, hs.lists.active, hs.lists.recycle⟩ ?_ hself (fun _ => rfl)
    (fun id h => .inl h) hs.fresh ?_
  · change NodeOk _ n (s.loc n)
    rw [hloc, NodeOk, hself]
    exact blank_quiet _
  · change LoopAt _ s.loop
    rw [hloop]
    exact ⟨hloc, hlife, _, hself⟩

private theorem accept_failed_inv (hs : Inv s) (hloop : s.loop = .accepting n) :
    Inv { (s.setFd n invalidSocket).free n with active := s.active.erase n, loop := .idle } := by
  obtain ⟨hloc, hlife, fd₀, hb⟩ := hs.loopAt hloop
  have hself := setFd_node hb invalidSocket
  have hnew : update s.loc n .pool n = .pool := update_self n _ _
  refine Elsewhere.fill_inv (n := n) (s := s) ⟨fun m hne => update_of_ne hne _ _,
    fun _ _ => rfl, fun m hne => update_of_ne hne _ _, rfl, fun _ _ _ _ _ h => h,
    Nat.le_refl _⟩ hs (congrArg calling hloop) rfl
    ⟨hs.lists.pool.concat (by simp [hloc]) rfl, hs.lists.active.erase,
      hs.lists.recycle.away (by simp [hloc])⟩ ?_ hself (fun _ => rfl) (fun id h => .inl h) ?_ ?_
  · change NodeOk _ n (update s.loc n .pool n)
    rw [hnew]
    change Quiet ((s.setFd n invalidSocket).node n) ∧ (s.life n = none ∨ _)
    rw [hself]
    exact ⟨blank_quiet _, .inl hlife⟩
  · intro m hm
    exact absurd hm (hs.no_fresh_moved (l := .pool) (congrArg filling hloop) (by simp) m)
  · trivial

private theorem accept_connected_inv (hs : Inv s) (hloop : s.loop = .accepting n)
    (hnew : s.fdTable fd = none) : Inv { s.setFd n fd with
      loop := .accepted n
      fdTable := update s.fdTable fd (some s.accepts)
      life := update s.life n (some s.accepts)
      accepts := s.accepts + 1 } := by
  obtain ⟨hloc, _, fd₀, hb⟩ := hs.loopAt hloop
  have hself := setFd_node hb fd
  have hlife : update s.life n (some s.accepts) n = some s.accepts :=
    update_self n _ _
  have hopen : update s.fdTable fd (some s.accepts) fd = some s.accepts :=
    update_self fd _ _
  have hkeep : ∀ (m : ν) (fd' : Int) (id : Nat), m ≠ n → s.life m = some id →
      s.fdTable fd' = some id → update s.fdTable fd (some s.accepts) fd' = some id := by
    intro m fd' id _ _ h
    have hne : fd' ≠ fd := by
      rintro rfl
      rw [hnew] at h
      cases h
    rw [update_of_ne hne]
    exact h
  refine Elsewhere.fill_inv (n := n) (s := s) ⟨fun m hne => update_of_ne hne _ _,
    fun m hne => update_of_ne hne _ _, fun _ _ => rfl, rfl, hkeep, Nat.le_succ _⟩ hs
    (congrArg calling hloop) rfl ⟨hs.lists.pool, hs.lists.active, hs.lists.recycle⟩ ?_ hself
    (fun _ => rfl) ?_ ?_ ?_
  · change NodeOk _ n (s.loc n)
    rw [hloc]
    change Quiet ((s.setFd n fd).node n)
    rw [hself]
    exact blank_quiet _
  · intro id hid
    obtain rfl : s.accepts = id := Option.some.inj (hlife.symm.trans hid)
    exact .inr ⟨Nat.le_refl _, Nat.lt_succ_self _⟩
  · intro m hm
    have hfill := hs.fresh m hm
    rw [hloop] at hfill
    exact hfill
  · exact ⟨hloc, fd, s.accepts, hself, hlife, hopen⟩

private theorem setRef_inv (hs : Inv s) (hloop : s.loop = .accepted n) : Inv (s.setRef n) := by
  obtain ⟨hloc, fd, id, hb, hlife, hopen⟩ := hs.loopAt hloop
  have hself : (s.setRef n).node n = PeerRefs.State.start none fd false := by
    change update s.node n _ n = _
    rw [update_self, hb]
    rfl
  have hnew : update s.loc n .active n = .active := update_self n _ _
  refine Elsewhere.fill_inv (n := n) (s := s) ⟨fun m hne => update_of_ne hne _ _,
    fun _ _ => rfl, fun m hne => update_of_ne hne _ _, rfl, fun _ _ _ _ _ h => h,
    Nat.le_refl _⟩ hs (congrArg calling hloop) rfl
    ⟨hs.lists.pool.away (by simp [hloc]), hs.lists.active.within (.inl rfl),
      hs.lists.recycle.away (by simp [hloc])⟩ ?_ hself (fun _ => rfl) (fun id h => .inl h) ?_ ?_
  · change NodeOk _ n (update s.loc n .active n)
    rw [hnew]
    refine ⟨fd, id, ?_, hlife, fun _ => hopen⟩
    rw [hself]
    exact PeerRefs.start_inv none fd false
  · intro m hm
    exact absurd hm (hs.no_fresh_moved (l := .active) (congrArg filling hloop) (by simp) m)
  · trivial

variable [DecidableEq ι]

theorem begin_inv {e : PeerRefs.Event (Option ι)} (hs : Inv s) (hidle : s.Idle k)
    (hbegin : e = .retain k ∨ e = .release k) (he : (s.node n).step e = some p)
    (hloop : k = none → calling s.loop = some n) :
    Inv { s.setNode n p with callLife := update s.callLife k (s.life n) } := by
  have hbusy : ¬ Quiet (s.node n) := busy_of_step he
  obtain ⟨fd, id, hl⟩ := hs.live_of_busy hbusy
  have hsafe : PeerRefs.Safe (s.node n) e := by
    rcases hbegin with rfl | rfl
    · trivial
    · trivial
  have hp := PeerRefs.step_inv hl.inv hsafe he
  obtain ⟨pc, rfl⟩ := step_begin hbegin he
  -- nobody loses the connection of its call, since the thread was in none
  have hs' : Inv { s with callLife := update s.callLife k (s.life n) } := by
    refine ⟨⟨hs.lists.pool, hs.lists.active, hs.lists.recycle⟩, ?_, ?_, hs.lives, hs.unique,
      hs.closes, hs.fresh, hs.loopCalls, ?_⟩
    · exact fun m => (hs.nodes m).frame rfl rfl (fun _ _ _ h => h)
    · intro m j pc' hpc'
      have hne : j ≠ k := by
        rintro rfl
        rw [hidle m] at hpc'
        cases hpc'
      exact (update_of_ne hne _ _).trans (hs.calls m j pc' hpc')
    · exact hs.loop.frame rfl rfl (fun _ _ => rfl) (fun _ _ _ _ _ h => h)
  refine setNode_inv hs' ⟨hl.inv, hl.life, hl.opened⟩ hbusy hp ?_ ?_ (fun ho => ho)
  · intro j pc' hj
    rcases PeerRefs.update_pc hj with ⟨rfl, _⟩ | ⟨hne, hj⟩
    · exact update_self j _ _
    · exact (update_of_ne hne _ _).trans (hs.calls n j pc' hj)
  · intro pc' hj
    rcases PeerRefs.update_pc hj with ⟨hk, _⟩ | ⟨_, hj⟩
    · exact hloop hk.symm
    · exact hs.loopCalls n pc' hj

def advanced (s : State ν ι) (n : ν) (k : Option ι) (pc : CallPc) (spurious : Bool) : State ν ι :=
  (if (s.node n).pc k = some .close then s.noteClose n k else s).setNode n
    ((s.node n).advance k pc spurious)

theorem advanceCall_eq (he : s.advanceCall n k spurious = some t) :
    ∃ pc, (s.node n).pc k = some pc ∧ t = advanced s n k pc spurious := by
  obtain ⟨p, hp, rfl⟩ := Option.map_eq_some_iff.mp he
  obtain ⟨pc, hpc, rfl⟩ := step_step hp
  exact ⟨pc, hpc, rfl⟩

theorem advanced_loop (s : State ν ι) (n : ν) (k : Option ι) (pc : CallPc) (spurious : Bool) :
    (advanced s n k pc spurious).loop = s.loop ∧ (advanced s n k pc spurious).loc = s.loc := by
  unfold advanced
  split
  · exact ⟨rfl, rfl⟩
  · exact ⟨rfl, rfl⟩

theorem advanced_node (s : State ν ι) (n : ν) (k : Option ι) (pc : CallPc) (spurious : Bool) :
    (advanced s n k pc spurious).node n = (s.node n).advance k pc spurious :=
  update_self n _ _

omit [DecidableEq ν] in
theorem Inv.advance_live (hs : Inv s)
    (hpc : (s.node n).pc k = some pc) (hsafe : SafeAt (s.node n) (some pc)) (spurious : Bool) :
    ∃ fd id, Live s n fd id ∧ RefInv fd ((s.node n).advance k pc spurious) := by
  obtain ⟨fd, id, hl⟩ := hs.live_of_busy (busy_of_pc hpc)
  have he : (s.node n).step (.step k spurious) = some ((s.node n).advance k pc spurious) := by
    rw [PeerRefs.State.step, hpc]
  have hsafe' : PeerRefs.Safe (s.node n) (.step k spurious) := by
    rw [PeerRefs.Safe, hpc]
    exact hsafe
  exact ⟨fd, id, hl, PeerRefs.step_inv hl.inv hsafe' he⟩

theorem advanced_inv (hs : Inv s) (hpc : (s.node n).pc k = some pc)
    (hsafe : SafeAt (s.node n) (some pc)) (spurious : Bool) : Inv (advanced s n k pc spurious) := by
  obtain ⟨fd, id, hl, hp⟩ := hs.advance_live hpc hsafe spurious
  have hcalls : ∀ j pc', ((s.node n).advance k pc spurious).pc j = some pc' →
      s.callLife j = s.life n := by
    intro j pc' hj
    obtain ⟨pc₀, hj⟩ := pc_of_advance hpc hj
    exact hs.calls n j pc₀ hj
  have hloop : ∀ pc', ((s.node n).advance k pc spurious).pc none = some pc' →
      calling s.loop = some n := by
    intro pc' hj
    obtain ⟨pc₀, hj⟩ := pc_of_advance hpc hj
    exact hs.loopCalls n pc₀ hj
  unfold advanced
  split
  · next hclose =>
    obtain rfl : pc = .close := Option.some.inj (hpc.symm.trans hclose)
    exact close_inv hs hl hpc hp (close_advance spurious) hcalls hloop
  · exact setNode_inv hs hl (busy_of_pc hpc) hp hcalls hloop opened_of_advance

theorem given_inv {j : Option ι}
    (hs : Inv s) (he : (s.node n).step (.give k j) = some p) : Inv (s.setNode n p) := by
  have hbusy : ¬ Quiet (s.node n) := busy_of_step he
  obtain ⟨fd, id, hl⟩ := hs.live_of_busy hbusy
  have hp := PeerRefs.step_inv (e := .give k j) hl.inv trivial he
  obtain ⟨refs, rfl⟩ := step_give he
  exact setNode_inv hs hl hbusy hp (hs.calls n) (hs.loopCalls n) (fun ho => ho)

private theorem returned_inv {value : BitVec 32} (hs : Inv s) (hcall : calling s.loop = some n)
    (hfill : filling s.loop = none)
    (hpc : (s.node n).pc none = some pc) (hsafe : SafeAt (s.node n) (some pc))
    (hret : ((s.node n).peer.callStep spurious pc).next = .ret value)
    (hat : LoopAt (advanced s n none pc spurious) l) :
    Inv { advanced s n none pc spurious with loop := l } := by
  have ht := advanced_inv hs hpc hsafe spurious
  obtain ⟨hloop, hloc⟩ := advanced_loop s n none pc spurious
  refine setLoop_inv ht ?_ ?_ hat
  · intro m hm
    rw [hloc] at hm
    exact absurd hm (hs.no_fresh hfill m)
  · intro m pc' hm
    have hn := ht.loopCalls m pc' hm
    rw [hloop, hcall, Option.some.injEq] at hn
    rw [← hn, advanced_node] at hm
    change update (s.node n).pc none (PeerRefs.State.resume _) none = some pc' at hm
    rw [update_self, hret] at hm
    cases hm

private theorem recycle_inv (hs : Inv s) (hloop : s.loop = .idle) (hmem : n ∈ s.active)
    (he : (s.node n).step (.release none) = some p) : Inv { s.setNode n p with
      active := s.active.erase n
      loop := .recycling n
      loc := update s.loc n .detached
      callLife := update s.callLife none (s.life n) } := by
  have hcall : calling s.loop = none := congrArg calling hloop
  have hfill : filling s.loop = none := congrArg filling hloop
  have hloc : s.loc n = .active := by
    rcases hs.lists.active.mem n hmem with h | h
    · exact h
    · exact absurd h (hs.no_fresh hfill n)
  have hn := hs.nodes n
  rw [hloc] at hn
  have ht : Inv { s with
      active := s.active.erase n
      loop := .recycling n
      loc := update s.loc n .detached } :=
    relocate_inv hs hcall hfill (by simp) hn
      (hs.lists.pool.away (by simp [hloc])) hs.lists.active.erase
      (hs.lists.recycle.away (by simp [hloc])) (update_self n _ _)
  exact begin_inv ht (hs.loop_idle hcall) (.inr rfl) he (fun _ => rfl)

end System

end MuggleC.Net.PeerLives

namespace MuggleC.Net.PeerReuse

open Foundation.Placement Foundation.Transition EventMemmgr PeerLives
open MemmgrLists (Memmgr init_inv)
open PeerRefs (SafeAt)

variable {ν ι : Type} [DecidableEq ν] [DecidableEq ι]

/-- What the next step of the event loop must find: a call of its own that is safe, and, when
`clear` looks at a count of zero, no thread that is still in a call on that node. -/
def LoopSafe (s : State ν ι) : LoopPc ν → Prop
  | .retaining n => SafeAt (s.node n) ((s.node n).pc none)
  | .recycling n => SafeAt (s.node n) ((s.node n).pc none)
  | .clearing (n :: _) => (s.node n).peer.refCnt = 0#32 → ∀ k, (s.node n).pc k = none
  | _ => True

def Safe (s : State ν ι) : Event ν ι → Prop
  | .worker n i (.step _) => SafeAt (s.node n) ((s.node n).pc (some i))
  | .loop _ => LoopSafe s s.loop
  | _ => True

instance [Fintype ι] (s : State ν ι) (l : LoopPc ν) : Decidable (LoopSafe s l) := by
  unfold LoopSafe
  split <;> infer_instance

instance [Fintype ι] (s : State ν ι) (e : Event ν ι) : Decidable (Safe s e) := by
  unfold Safe
  split <;> infer_instance

variable {s t : State ν ι} {spurious : Bool} {n : ν}

private theorem worker_inv [Fintype ν] {i : ι} {op : WorkerOp ι} (hs : Inv s)
    (hsafe : Safe s (.worker n i op)) (he : s.stepWorker n i op = some t) : Inv t := by
  cases op with
  | retain =>
    simp only [State.stepWorker] at he
    split at he
    · next hidle =>
      obtain ⟨p, hp, rfl⟩ := Option.map_eq_some_iff.mp he
      exact begin_inv hs hidle (.inl rfl) hp (fun h => by cases h)
    · cases he
  | release =>
    simp only [State.stepWorker] at he
    split at he
    · next hidle =>
      obtain ⟨p, hp, rfl⟩ := Option.map_eq_some_iff.mp he
      exact begin_inv hs hidle (.inr rfl) hp (fun h => by cases h)
    · cases he
  | give j =>
    simp only [State.stepWorker] at he
    split at he
    · obtain ⟨p, hp, rfl⟩ := Option.map_eq_some_iff.mp he
      exact given_inv hs hp
    · cases he
  | step spurious =>
    obtain ⟨pc, hpc, rfl⟩ := advanceCall_eq he
    refine advanced_inv hs hpc ?_ spurious
    rw [← hpc]
    exact hsafe

omit [DecidableEq ν] [DecidableEq ι] in
private theorem loopReturns_eq {pc : CallPc} {value : BitVec 32}
    (hpc : (s.node n).pc none = some pc) (h : s.loopReturns n spurious = some value) :
    ((s.node n).peer.callStep spurious pc).next = .ret value := by
  rw [State.loopReturns, hpc] at h
  dsimp only at h
  split at h
  · next v hv =>
    cases h
    exact hv
  · cases h

theorem inCall_inv (next : BitVec 32 → LoopPc ν)
    (hs : Inv s) (hcall : calling s.loop = some n) (hfill : filling s.loop = none)
    (hsafe : SafeAt (s.node n) ((s.node n).pc none))
    (hat : ∀ pc value, (s.node n).pc none = some pc → SafeAt (s.node n) (some pc) →
      ((s.node n).peer.callStep spurious pc).next = .ret value →
        LoopAt (advanced s n none pc spurious) (next value))
    (he : ((s.advanceCall n none spurious).map fun u =>
      match s.loopReturns n spurious with
      | some value => { u with loop := next value }
      | none => u) = some t) : Inv t := by
  obtain ⟨u, hu, rfl⟩ := Option.map_eq_some_iff.mp he
  obtain ⟨pc, hpc, rfl⟩ := advanceCall_eq hu
  have hsafe : SafeAt (s.node n) (some pc) := hpc ▸ hsafe
  cases hret : s.loopReturns n spurious with
  | none => exact advanced_inv hs hpc hsafe spurious
  | some value =>
    have hnext := loopReturns_eq hpc hret
    exact returned_inv hs hcall hfill hpc hsafe hnext (hat pc value hpc hsafe hnext)

theorem retaining_inv (hs : Inv s) (hloop : s.loop = .retaining n) (hsafe : LoopSafe s s.loop)
    (he : s.stepLoop spurious = some t) : Inv t := by
  rw [hloop] at hsafe
  rw [State.stepLoop, hloop] at he
  exact inCall_inv (fun _ => .idle) hs (congrArg calling hloop) (congrArg filling hloop)
    hsafe (fun _ _ _ _ _ => trivial) he

theorem recycling_inv (hs : Inv s) (hloop : s.loop = .recycling n) (hsafe : LoopSafe s s.loop)
    (he : s.stepLoop spurious = some t) : Inv t := by
  have hat := hs.loop
  rw [hloop] at hsafe hat
  rw [State.stepLoop, hloop] at he
  refine inCall_inv (.recycled n) hs (congrArg calling hloop) (congrArg filling hloop) hsafe ?_ he
  intro pc value hpc hsafe hnext
  refine ⟨(congrFun (advanced_loop s n none pc spurious).2 n).trans hat, ?_⟩
  rintro rfl
  obtain ⟨fd, id, hl, hp⟩ := hs.advance_live hpc hsafe spurious
  rw [advanced_node]
  exact finished_of_return hl.inv hp hpc hsafe hnext

private theorem clearing_inv {rest : List ν} (hs : Inv s) (hloop : s.loop = .clearing rest)
    (hsafe : LoopSafe s s.loop) (he : s.stepLoop spurious = some t) : Inv t := by
  have hat := hs.loop
  have hgo : ∀ l, LoopAt s l → Inv { s with loop := l } :=
    fun l hl => hs.goto (congrArg calling hloop) (congrArg filling hloop) hl
  rw [hloop] at hsafe hat
  rw [State.stepLoop, hloop] at he
  cases rest with
  | nil =>
    cases he
    exact hgo .idle trivial
  | cons n rest =>
    dsimp only at he
    split at he
    · next hzero =>
      cases he
      have hn := hs.nodes n
      rw [hat.mem n List.mem_cons_self] at hn
      obtain ⟨fd, id, hl⟩ := hn
      exact hgo (.freeing n rest) ⟨hat, finished_of_zero hl.inv hzero (hsafe hzero)⟩
    · cases he
      exact hgo (.clearing rest) ⟨(List.nodup_cons.mp hat.nodup).2,
        fun m hm => hat.mem m (List.mem_cons_of_mem n hm)⟩

private theorem loop_inv (hs : Inv s) (hsafe : LoopSafe s s.loop)
    (he : s.stepLoop spurious = some t) : Inv t := by
  cases hloop : s.loop with
  | idle | accepting n =>
    rw [State.stepLoop, hloop] at he
    cases he
  | retaining n => exact retaining_inv hs hloop hsafe he
  | recycling n => exact recycling_inv hs hloop hsafe he
  | recycled n ret =>
    have hr := recycled_inv hs hloop
    rw [State.stepLoop, hloop] at he
    dsimp only at he
    split at he
    · next hret =>
      cases he
      rw [if_pos hret] at hr
      exact hr
    · next hret =>
      cases he
      rw [if_neg hret] at hr
      exact hr
  | clearing rest => exact clearing_inv hs hloop hsafe he
  | freeing n rest =>
    rw [State.stepLoop, hloop] at he
    cases he
    exact freeing_inv hs hloop
  | accepted n =>
    rw [State.stepLoop, hloop] at he
    cases he
    exact setRef_inv hs hloop

omit [DecidableEq ι] in
private theorem accept_inv {result : AcceptResult} (hs : Inv s)
    (hloop : s.loop = .accepting n) (he : s.accept n result = some t) : Inv t := by
  cases result with
  | interrupted =>
    cases he
    exact accept_interrupted_inv hs hloop
  | failed =>
    cases he
    exact accept_failed_inv hs hloop
  | connected fd =>
    simp only [State.accept] at he
    split at he
    · next hfd =>
      cases he
      exact accept_connected_inv hs hloop hfd.2
    · cases he

variable [Fintype ν]

private theorem step_inv {e : Event ν ι} (hs : Inv s) (hsafe : Safe s e)
    (he : s.step e = some t) : Inv t := by
  cases e with
  | worker n i op => exact worker_inv hs hsafe he
  | retain n =>
    simp only [State.step] at he
    split at he
    · next hc =>
      obtain ⟨u, hu, rfl⟩ := Option.map_eq_some_iff.mp he
      obtain ⟨p, hp, rfl⟩ := Option.map_eq_some_iff.mp hu
      have hcall : calling s.loop = none := congrArg calling hc.1
      have ht : Inv { s with loop := .retaining n } :=
        hs.goto hcall (congrArg filling hc.1) trivial
      exact begin_inv ht (hs.loop_idle hcall) (.inl rfl) hp (fun _ => rfl)
    · cases he
  | grant n i =>
    simp only [State.step] at he
    split at he
    · obtain ⟨p, hp, rfl⟩ := Option.map_eq_some_iff.mp he
      exact given_inv hs hp
    · cases he
  | attach n onClose =>
    simp only [State.step] at he
    split at he
    · next hc =>
      cases he
      exact attach_inv hs hc.2.2 onClose
    · cases he
  | recycle n =>
    simp only [State.step] at he
    split at he
    · next hc =>
      obtain ⟨u, hu, rfl⟩ := Option.map_eq_some_iff.mp he
      obtain ⟨p, hp, rfl⟩ := Option.map_eq_some_iff.mp hu
      exact recycle_inv hs hc.1 hc.2 hp
    · cases he
  | clear =>
    simp only [State.step] at he
    split at he
    · next hloop =>
      cases he
      exact hs.goto (congrArg calling hloop) (congrArg filling hloop) hs.lists.recycle
    · cases he
  | allocate =>
    simp only [State.step] at he
    split at he
    · next hloop => exact allocate_inv hs hloop he
    · cases he
  | accept result =>
    simp only [State.step] at he
    split at he
    · next n hloop => exact accept_inv hs hloop he
    · cases he
  | loop spurious => exact loop_inv hs hsafe he

omit [DecidableEq ν] [DecidableEq ι] [Fintype ν] in
private theorem start_inv {pool : List ν} (hpool : pool.Nodup) (peer : ν → Peer) :
    Inv (start pool peer : State ν ι) := by
  refine ⟨⟨⟨hpool, fun _ _ => rfl⟩, ⟨List.nodup_nil, ?_⟩,
    ⟨List.nodup_nil, ?_⟩⟩, fun n => ⟨⟨rfl, fun _ => rfl⟩, .inl rfl⟩, ?_, ?_, ?_, ?_, ?_, ?_, trivial⟩
  · intro n hn
    cases hn
  · intro n hn
    cases hn
  · intro n k pc hpc
    cases hpc
  · intro n id hid
    cases hid
  · intro m n id hid
    cases hid
  · intro c hc
    cases hc
  · intro n hn
    cases hn
  · intro n pc hpc
    cases hpc

/-- A node that has held a connection is in the pool only when `on_close` has run, the fd has been
closed and the last release has returned; and every fd that a release has closed belonged to the
connection that the released reference was for. -/
structure ReuseSafe (s : State ν ι) : Prop where
  returned : ∀ n ∈ s.pool, s.life n = none ∨ Finished (s.node n)
  closes : ∀ c ∈ s.closes, ∃ id, c.life = some id ∧ c.closed = some id

omit [DecidableEq ν] [DecidableEq ι] [Fintype ν] in
private theorem reuseSafe_of_inv (hs : Inv s) : ReuseSafe s := by
  refine ⟨?_, hs.closes⟩
  intro n hn
  have hok := hs.nodes n
  rw [hs.lists.pool.mem n hn] at hok
  rcases hok.2 with hnone | hc
  · exact .inl hnone
  · exact .inr ⟨hok.1, hc⟩

/-- In every run in which each step is safe, no node is reused before its last release is through,
and every release closes its own connection. -/
theorem node_reused_after_close [Fintype ι] {pool : List ν} (hpool : pool.Nodup) (peer : ν → Peer)
    (events : List (Event ν ι)) (s : State ν ι)
    (hr : run (guarded State.step Safe) (start pool peer) events = some s) : ReuseSafe s := by
  have hs : Inv s := by
    refine run_invariant ?_ (start_inv hpool peer) hr
    intro t e t' ht he
    obtain ⟨hsafe, he⟩ := guarded_eq_some.mp he
    exact step_inv ht hsafe he
  exact reuseSafe_of_inv hs

def onePeer : Memmgr :=
  (Memmgr.init 1 ⟨true, true, true⟩ (fun _ => none) (fun _ => none)).get rfl

def first : {b // b ∈ onePeer.pool.ptrBuf} := ⟨⟨0, 0⟩, by decide⟩

def handOver : List (Event {b // b ∈ onePeer.pool.ptrBuf} Unit) :=
  [.allocate, .accept (.connected 7), .loop false, .attach first true,
    .retain first, .loop false, .loop false, .grant first (),
    .recycle first, .loop false, .loop false, .loop false, .loop false]

def closeThenClear : List (Event {b // b ∈ onePeer.pool.ptrBuf} Unit) :=
  handOver ++ [.worker first () .release] ++ List.replicate 5 (.worker first () (.step false)) ++
    [.clear, .loop false, .loop false]

theorem node_reused_after_close_once :
    Memmgr.init 1 ⟨true, true, true⟩ (fun _ => none) (fun _ => none) = some onePeer ∧
    ∃ s, run (guarded State.step Safe)
        (start onePeer.pool.ptrBuf.attach fun _ => ⟨0#32, 0, false⟩) closeThenClear = some s ∧
      s.pool = [first] ∧ s.closes = [⟨some 0, some 0⟩] ∧ ReuseSafe s := by
  have hmgr : Memmgr.init 1 ⟨true, true, true⟩ (fun _ => none) (fun _ => none) = some onePeer :=
    (Option.some_get _).symm
  have hend : (run (guarded State.step Safe)
      (start onePeer.pool.ptrBuf.attach fun _ => ⟨0#32, 0, false⟩) closeThenClear).map
      (fun s => (s.pool, s.closes)) = some ([first], [⟨some 0, some 0⟩]) := by decide +kernel
  obtain ⟨s, hs, he⟩ := Option.map_eq_some_iff.mp hend
  obtain ⟨hpool, hcloses⟩ := Prod.mk.inj he
  have hnodup : onePeer.pool.ptrBuf.attach.Nodup :=
    List.nodup_attach.mpr (init_inv hmgr (by decide)).once
  exact ⟨hmgr, s, hs, hpool, hcloses, node_reused_after_close hnodup _ closeThenClear s hs⟩

def clearThenClose : List (Event {b // b ∈ onePeer.pool.ptrBuf} Unit) :=
  handOver ++ [.worker first () .release] ++ List.replicate 2 (.worker first () (.step false)) ++
    [.clear, .loop false, .loop false, .loop false, .allocate, .accept (.connected 8), .loop false] ++
    List.replicate 2 (.worker first () (.step false))

theorem clear_lets_release_close_later_connection :
    Memmgr.init 1 ⟨true, true, true⟩ (fun _ => none) (fun _ => none) = some onePeer ∧
    ¬ ∀ (peer : {b // b ∈ onePeer.pool.ptrBuf} → Peer)
      (events : List (Event {b // b ∈ onePeer.pool.ptrBuf} Unit))
      (s : State {b // b ∈ onePeer.pool.ptrBuf} Unit),
      run State.step (start onePeer.pool.ptrBuf.attach peer) events = some s → ReuseSafe s := by
  refine ⟨(Option.some_get _).symm, fun h => ?_⟩
  have hend : (run State.step (start onePeer.pool.ptrBuf.attach fun _ => ⟨0#32, 0, false⟩)
      clearThenClose).map (fun s => s.closes) = some [⟨some 0, some 1⟩] := by decide +kernel
  obtain ⟨s, hs, he⟩ := Option.map_eq_some_iff.mp hend
  obtain ⟨id, hlife, hclosed⟩ := (h _ clearThenClose s hs).closes ⟨some 0, some 1⟩
    (he ▸ List.mem_singleton_self _)
  cases hlife
  cases hclosed

end MuggleC.Net.PeerReuse
