/- source: net/socket_peer.c, net/event/socket_event_memmgr.c, net/event/socket_event_utils.c
   digest: Holders that retain, hand over and release a peer, and the loop that recycles it. -/

import Mathlib.Data.Fintype.Basic
import MuggleC.Net.SocketPeer

set_option autoImplicit false

/-! The list `refs` names the holder of every reference that has not been released; it is what the
count stands for. The fields after it record what the calls have done. -/

namespace MuggleC.Net.PeerRefs

open Foundation.Transition List Function
open BitVec hiding and_self

structure Released (ι : Type) where
  holder : ι
  ret : BitVec 32
  zeroed : Bool

structure State (ι : Type) where
  peer : Peer
  pc : ι → Option CallPc
  refs : List ι
  zeroedBy : Option ι
  effects : List (ι × Effect)
  released : List (Released ι)

inductive Event (ι : Type)
  | retain (i : ι)
  | release (i : ι)
  | give (i j : ι)
  | step (i : ι) (spurious : Bool)

namespace State

variable {ι : Type} [DecidableEq ι]

/-- `muggle_socket_peer_init` for the holder of the first reference. -/
def start (holder : ι) (fd : Int) (onClose : Bool) : State ι :=
  ⟨⟨1#32, fd, onClose⟩, fun _ => none, [holder], none, [], []⟩

def resume : Next → Option CallPc
  | .goto pc => some pc
  | .ret _ => none

def record (i : ι) (pc : CallPc) : Next → List (Released ι)
  | .ret value => if pc.isRelease then [⟨i, value, pc.tookToZero⟩] else []
  | .goto _ => []

def advance (s : State ι) (i : ι) (pc : CallPc) (spurious : Bool) : State ι :=
  let out := s.peer.callStep spurious pc
  { peer := out.peer
    pc := Function.update s.pc i (resume out.next)
    refs :=
      if s.peer.drops spurious pc then s.refs.erase i
      else if s.peer.adds spurious pc then i :: s.refs
      else s.refs
    zeroedBy :=
      if s.peer.drops spurious pc = true ∧ out.peer.refCnt = 0#32 then some i else s.zeroedBy
    effects := s.effects ++ out.effects.map (Prod.mk i)
    released := s.released ++ record i pc out.next }

/-- Only an idle holder of a reference starts a call or hands a reference over. -/
def step (s : State ι) : Event ι → Option (State ι)
  | .retain i =>
    if s.pc i = none ∧ i ∈ s.refs then
      some { s with pc := Function.update s.pc i (some .retainLoad) }
    else none
  | .release i =>
    if s.pc i = none ∧ i ∈ s.refs then
      some { s with pc := Function.update s.pc i (some (.releaseCheck 0#32)) }
    else none
  | .give i j =>
    if s.pc i = none ∧ i ∈ s.refs then some { s with refs := j :: s.refs.erase i } else none
  | .step i spurious =>
    match s.pc i with
    | none => none
    | some pc => some (s.advance i pc spurious)

end State

open State

variable {ι : Type}

def zeroes (s : State ι) : List (Released ι) := s.released.filter Released.zeroed

/-- What the effects and the record are while the release by `i` that took the count to zero is at
the given place, and after it has returned. -/
def ClosingOk (fd : Int) (s : State ι) (i : ι) : Option CallPc → Prop
  | some .onClose => s.peer.fd = fd ∧ s.effects = [] ∧ zeroes s = []
  | some .close => s.peer.fd = fd ∧
      s.effects = (if s.peer.onClose then [Effect.onClose] else []).map (Prod.mk i) ∧ zeroes s = []
  | some .setInvalid =>
    s.effects = (Peer.closing s.peer.onClose fd).map (Prod.mk i) ∧ zeroes s = []
  | none => s.effects = (Peer.closing s.peer.onClose fd).map (Prod.mk i) ∧
      zeroes s = [⟨i, 0#32, true⟩]
  | some _ => False

def EffectsOk (fd : Int) (s : State ι) : Prop :=
  match s.zeroedBy with
  | none => s.peer.fd = fd ∧ s.effects = [] ∧ zeroes s = []
  | some i => ClosingOk fd s i (s.pc i)

structure RefInv (fd : Int) (s : State ι) : Prop where
  count : s.peer.refCnt = BitVec.ofNat 32 s.refs.length
  bound : s.refs.length < 2147483648
  holds : ∀ i pc, s.pc i = some pc → pc.holding = true → i ∈ s.refs
  last : ∀ i desired, s.pc i = some (.releaseStore desired) → s.refs = [i]
  loaded : ∀ i refCnt, s.pc i = some (.releaseCas refCnt) → refCnt ≠ 0#32
  closer : ∀ i pc, s.pc i = some pc → pc.holding = false → s.zeroedBy = some i
  zeroed : s.zeroedBy = none ↔ s.refs ≠ []
  effects : EffectsOk fd s
  returns : ∀ e ∈ s.released, e.ret = 0#32 ↔ e.zeroed = true

theorem ofNat_eq_zero {n : Nat} (h : n < 2147483648) (he : BitVec.ofNat 32 n = 0#32) : n = 0 := by
  rw [← toNat_inj, toNat_ofNat, toNat_ofNat] at he
  omega

theorem ofNat_eq_one {n : Nat} (h : n < 2147483648) (he : BitVec.ofNat 32 n = 1#32) : n = 1 := by
  rw [← toNat_inj, toNat_ofNat, toNat_ofNat] at he
  omega

namespace RefInv

variable {fd : Int} {s : State ι}

theorem refCnt_ne_zero (h : RefInv fd s) {i : ι} (hi : i ∈ s.refs) : s.peer.refCnt ≠ 0#32 := by
  intro hz
  rw [h.count] at hz
  have hlen := ofNat_eq_zero h.bound hz
  have hpos := length_pos_of_mem hi
  omega

theorem refs_of_one (h : RefInv fd s) {i : ι} (hi : i ∈ s.refs) (hone : s.peer.refCnt = 1#32) :
    s.refs = [i] := by
  rw [h.count] at hone
  have hlen := ofNat_eq_one h.bound hone
  obtain ⟨a, ha⟩ := length_eq_one_iff.mp hlen
  rw [ha, mem_singleton] at hi
  rw [ha, hi]

theorem zeroedBy_none (h : RefInv fd s) {i : ι} (hi : i ∈ s.refs) : s.zeroedBy = none :=
  h.zeroed.mpr (ne_nil_of_mem hi)

theorem open_of_mem (h : RefInv fd s) {i : ι} (hi : i ∈ s.refs) :
    s.peer.fd = fd ∧ s.effects = [] ∧ zeroes s = [] := by
  have he := h.effects
  rw [EffectsOk, h.zeroedBy_none hi] at he
  exact he

end RefInv

variable {s : State ι} {i : ι} {pc : CallPc} {fd : Int}

theorem record_ret {value : BitVec 32} {zeroed : Bool} (hrel : pc.isRelease = true)
    (hzero : pc.tookToZero = zeroed) : record i pc (.ret value) = [⟨i, value, zeroed⟩] := by
  rw [record, if_pos hrel, hzero]

theorem alone_inv {next : Option CallPc} (hi : s.pc i = next) (halone : ∀ j, j ≠ i → s.pc j = none)
    (hself : ∀ pc, next = some pc → pc.holding = false) (hcnt : s.peer.refCnt = 0#32)
    (hrefs : s.refs = []) (hzero : s.zeroedBy = some i) (heff : ClosingOk fd s i next)
    (hret : ∀ e ∈ s.released, e.ret = 0#32 ↔ e.zeroed = true) : RefInv fd s := by
  have hpc : ∀ {j pc}, s.pc j = some pc → j = i ∧ pc.holding = false := by
    intro j pc hj
    rcases eq_or_ne j i with rfl | hne
    · exact ⟨rfl, hself pc (hi.symm.trans hj)⟩
    · rw [halone j hne] at hj
      cases hj
  refine ⟨?_, ?_, ?_, ?_, ?_, ?_, ?_, ?_, hret⟩
  · rw [hcnt, hrefs]
    rfl
  · rw [hrefs, length_nil]
    omega
  · intro j pc hj hold
    rw [(hpc hj).2] at hold
    cases hold
  · intro j desired hj
    cases (hpc hj).2
  · intro j refCnt hj
    cases (hpc hj).2
  · intro j pc hj _
    rw [(hpc hj).1, hzero]
  · rw [hzero, hrefs]
    simp
  · rw [EffectsOk, hzero, ← hi] at *
    exact heff

private theorem alone_of_last (h : RefInv fd s) (hone : s.refs = [i])
    (j : ι) (hne : j ≠ i) : s.pc j = none := by
  have hi : i ∈ s.refs := by
    rw [hone]
    exact mem_singleton_self i
  have hnone := h.zeroedBy_none hi
  cases hj : s.pc j with
  | none => rfl
  | some pc =>
    cases hold : pc.holding with
    | true =>
      have hmem := h.holds j pc hj hold
      rw [hone, mem_singleton] at hmem
      exact absurd hmem hne
    | false =>
      rw [h.closer j pc hj hold] at hnone
      cases hnone

theorem alone_of_closing (h : RefInv fd s) (hpc : s.pc i = some pc) (hout : pc.holding = false) :
    s.refs = [] ∧ s.zeroedBy = some i ∧ ∀ j, j ≠ i → s.pc j = none := by
  have hzero := h.closer i pc hpc hout
  have hrefs : s.refs = [] := by
    by_contra hne
    rw [h.zeroed.mpr hne] at hzero
    cases hzero
  refine ⟨hrefs, hzero, ?_⟩
  intro j hne
  cases hj : s.pc j with
  | none => rfl
  | some pc' =>
    cases hold : pc'.holding with
    | true =>
      have hmem := h.holds j pc' hj hold
      rw [hrefs] at hmem
      cases hmem
    | false =>
      rw [h.closer j pc' hj hold, Option.some.injEq] at hzero
      exact absurd hzero hne

theorem start_inv (holder : ι) (fd : Int) (onClose : Bool) :
    RefInv fd (start holder fd onClose) := by
  refine ⟨rfl, by simp [start], ?_, ?_, ?_, ?_, ?_, ⟨rfl, rfl, rfl⟩, ?_⟩
  · intro i pc hpc
    cases hpc
  · intro i desired hpc
    cases hpc
  · intro i refCnt hpc
    cases hpc
  · intro i pc hpc
    cases hpc
  · simp [start]
  · intro e he
    cases he

/-- The count is the number of references not yet released; `on_close` and the close of the fd
happen at most once, in this order and inside the release that took the count to zero; they have
happened when that release has returned; and it is the only one that returns zero. -/
structure ClosedOnce (fd : Int) (s : State ι) : Prop where
  count : s.peer.refCnt.toNat = s.refs.length
  effects : s.effects = [] ∨ ∃ i, s.zeroedBy = some i ∧
    s.effects <+: (Peer.closing s.peer.onClose fd).map (Prod.mk i)
  finished : s.refs = [] → ∃ i, s.zeroedBy = some i ∧ (s.pc i = none →
    s.effects = (Peer.closing s.peer.onClose fd).map (Prod.mk i))
  zeroedBy : s.zeroedBy = none ↔ s.refs ≠ []
  returns : ∀ e ∈ s.released, e.ret = 0#32 ↔ e.zeroed = true
  once : ∀ e ∈ zeroes s, zeroes s = [e] ∧ s.zeroedBy = some e.holder ∧
    s.effects = (Peer.closing s.peer.onClose fd).map (Prod.mk e.holder)

private theorem closingOk_of_zeroed {pc : Option CallPc}
    (h : ClosingOk fd s i pc) {e : Released ι} (he : e ∈ zeroes s) : pc = none := by
  match pc, h with
  | none, _ => rfl
  | some .onClose, h =>
    rw [h.2.2] at he
    cases he
  | some .close, h =>
    rw [h.2.2] at he
    cases he
  | some .setInvalid, h =>
    rw [h.2] at he
    cases he

theorem ClosingOk.effects_prefix {pc : Option CallPc} (h : ClosingOk fd s i pc) :
    s.effects <+: (Peer.closing s.peer.onClose fd).map (Prod.mk i) := by
  match pc, h with
  | none, h => exact ⟨[], by rw [append_nil, h.1]⟩
  | some .onClose, h =>
    rw [h.2.1]
    exact nil_prefix
  | some .close, h =>
    rw [h.2.1, Peer.closing, map_append]
    exact prefix_append _ _
  | some .setInvalid, h => exact ⟨[], by rw [append_nil, h.1]⟩

theorem RefInv.closedOnce (h : RefInv fd s) : ClosedOnce fd s := by
  have heff := h.effects
  refine ⟨?_, ?_, ?_, h.zeroed, h.returns, ?_⟩
  · have := h.bound
    rw [h.count, toNat_ofNat]
    omega
  · cases hz : s.zeroedBy with
    | none =>
      rw [EffectsOk, hz] at heff
      exact .inl heff.2.1
    | some i =>
      rw [EffectsOk, hz] at heff
      exact .inr ⟨i, rfl, ClosingOk.effects_prefix heff⟩
  · intro hrefs
    cases hz : s.zeroedBy with
    | none => exact absurd hrefs (h.zeroed.mp hz)
    | some i =>
      rw [EffectsOk, hz] at heff
      refine ⟨i, rfl, fun hpc => ?_⟩
      change ClosingOk fd s i (s.pc i) at heff
      rw [hpc] at heff
      exact heff.1
  · intro e he
    cases hz : s.zeroedBy with
    | none =>
      rw [EffectsOk, hz] at heff
      rw [heff.2.2] at he
      cases he
    | some i =>
      rw [EffectsOk, hz] at heff
      change ClosingOk fd s i (s.pc i) at heff
      rw [closingOk_of_zeroed heff he] at heff
      rw [heff.2, mem_singleton] at he
      rw [heff.2, he]
      exact ⟨rfl, rfl, heff.1⟩

variable [DecidableEq ι]

inductive Move (s : State ι) (i : ι) : State ι → Prop
  | look {pc' : CallPc} (hi : i ∈ s.refs) (hold' : pc'.holding = true)
      (hlast : ∀ desired, pc' = .releaseStore desired → s.refs = [i])
      (hloaded : ∀ refCnt, pc' = .releaseCas refCnt → refCnt ≠ 0#32) :
      Move s i { s with pc := Function.update s.pc i (some pc') }
  | retained (hpc : s.pc i = some (.retainCas s.peer.refCnt)) :
      Move s i { s with
        peer := { s.peer with refCnt := s.peer.refCnt + 1#32 }
        pc := Function.update s.pc i none
        refs := i :: s.refs }
  | dropped (hpc : s.pc i = some (.releaseCas s.peer.refCnt))
      (hne : s.peer.refCnt - 1#32 ≠ 0#32) :
      Move s i { s with
        peer := { s.peer with refCnt := s.peer.refCnt - 1#32 }
        pc := Function.update s.pc i none
        refs := s.refs.erase i
        released := s.released ++ [⟨i, s.peer.refCnt - 1#32, false⟩] }
  | zeroed (hone : s.refs = [i]) :
      Move s i { s with
        peer := { s.peer with refCnt := 0#32 }
        pc := Function.update s.pc i (some .onClose)
        refs := []
        zeroedBy := some i }
  | onClosed (hpc : s.pc i = some .onClose) :
      Move s i { s with
        pc := Function.update s.pc i (some .close)
        effects := s.effects ++ (if s.peer.onClose then [Effect.onClose] else []).map (Prod.mk i) }
  | closed (hpc : s.pc i = some .close) :
      Move s i { s with
        pc := Function.update s.pc i (some .setInvalid)
        effects := s.effects ++ [(i, .close s.peer.fd)] }
  | invalidated (hpc : s.pc i = some .setInvalid) :
      Move s i { s with
        peer := { s.peer with fd := invalidSocket }
        pc := Function.update s.pc i none
        released := s.released ++ [⟨i, 0#32, true⟩] }

theorem advance_goto {pc pc' : CallPc} {spurious : Bool}
    (hout : s.peer.callStep spurious pc = ⟨s.peer, .goto pc', []⟩)
    (hdrops : s.peer.drops spurious pc = false) (hadds : s.peer.adds spurious pc = false) :
    s.advance i pc spurious = { s with pc := update s.pc i (some pc') } := by
  simp only [advance, hout, hdrops, hadds, resume, record, Bool.false_eq_true, if_false, false_and,
    map_nil, append_nil]

theorem advance_zeroed {spurious : Bool}
    (hout : s.peer.callStep spurious pc = ⟨{ s.peer with refCnt := 0#32 }, .goto .onClose, []⟩)
    (hdrops : s.peer.drops spurious pc = true) (hone : s.refs = [i]) :
    s.advance i pc spurious = { s with
      peer := { s.peer with refCnt := 0#32 }
      pc := update s.pc i (some .onClose)
      refs := []
      zeroedBy := some i } := by
  simp only [advance, hout, hdrops, resume, record, if_true, and_self, map_nil,
    append_nil, hone, erase_cons_head]

private theorem move_retain (h : RefInv fd s) (spurious : Bool) :
    (s.pc i = some .retainLoad → Move s i (s.advance i .retainLoad spurious)) ∧
      ∀ refCnt, s.pc i = some (.retainCas refCnt) →
        Move s i (s.advance i (.retainCas refCnt) spurious) := by
  constructor
  · intro hpc
    have hne := h.refCnt_ne_zero (h.holds i _ hpc rfl)
    rw [advance_goto (by rw [Peer.callStep, if_neg hne]) rfl rfl]
    exact .look (h.holds i _ hpc rfl) rfl (by simp) (by simp)
  · intro refCnt hpc
    by_cases hcas : s.peer.refCnt = refCnt ∧ spurious = false
    · obtain ⟨rfl, rfl⟩ := hcas
      have he : s.advance i (.retainCas s.peer.refCnt) false = { s with
            peer := { s.peer with refCnt := s.peer.refCnt + 1#32 }
            pc := update s.pc i none
            refs := i :: s.refs } := by
        simp [advance, Peer.callStep, resume, record, Peer.drops, Peer.adds, CallPc.isRelease]
      rw [he]
      exact .retained hpc
    · have hadds : s.peer.adds spurious (.retainCas refCnt) = false := decide_eq_false hcas
      rw [advance_goto (by rw [Peer.callStep, if_neg hcas]) rfl hadds]
      exact .look (h.holds i _ hpc rfl) rfl (by simp) (by simp)

private theorem move_shortcut (h : RefInv fd s) (spurious : Bool) :
    (∀ desired, s.pc i = some (.releaseCheck desired) →
        Move s i (s.advance i (.releaseCheck desired) spurious)) ∧
      (s.pc i = some (.releaseStore 0#32) →
        Move s i (s.advance i (.releaseStore 0#32) spurious)) := by
  constructor
  · intro desired hpc
    by_cases hone : s.peer.refCnt = 1#32
    · rw [advance_goto (by rw [Peer.callStep, if_pos hone]) rfl rfl]
      exact .look (h.holds i _ hpc rfl) rfl (fun _ _ => h.refs_of_one (h.holds i _ hpc rfl) hone)
        (by simp)
    · rw [advance_goto (by rw [Peer.callStep, if_neg hone]) rfl rfl]
      exact .look (h.holds i _ hpc rfl) rfl (by simp) (by simp)
  · intro hpc
    have hone := h.last i _ hpc
    rw [advance_zeroed rfl rfl hone]
    exact .zeroed hone

private theorem move_cas (h : RefInv fd s) (spurious : Bool) :
    (s.pc i = some .releaseLoad → Move s i (s.advance i .releaseLoad spurious)) ∧
      ∀ refCnt, s.pc i = some (.releaseCas refCnt) →
        Move s i (s.advance i (.releaseCas refCnt) spurious) := by
  constructor
  · intro hpc
    have hne := h.refCnt_ne_zero (h.holds i _ hpc rfl)
    rw [advance_goto (by rw [Peer.callStep, if_neg hne]) rfl rfl]
    refine .look (h.holds i _ hpc rfl) rfl (by simp) ?_
    intro refCnt hr
    cases hr
    exact hne
  · intro refCnt hpc
    by_cases hcas : s.peer.refCnt = refCnt ∧ spurious = false
    · obtain ⟨rfl, rfl⟩ := hcas
      by_cases hzero : s.peer.refCnt - 1#32 = 0#32
      · have hcnt : s.peer.refCnt = 1#32 := by
          rw [← BitVec.sub_add_cancel s.peer.refCnt 1#32, hzero]
          rfl
        have hone := h.refs_of_one (h.holds i _ hpc rfl) hcnt
        have hout : s.peer.callStep false (.releaseCas s.peer.refCnt) =
            ⟨{ s.peer with refCnt := 0#32 }, .goto .onClose, []⟩ := by
          rw [Peer.callStep, if_pos ⟨rfl, rfl⟩, hzero]
          rfl
        rw [advance_zeroed hout (decide_eq_true ⟨rfl, rfl⟩) hone]
        exact .zeroed hone
      · have hout : s.peer.callStep false (.releaseCas s.peer.refCnt) =
            ⟨{ s.peer with refCnt := s.peer.refCnt - 1#32 }, .ret (s.peer.refCnt - 1#32), []⟩ := by
          rw [Peer.callStep, if_pos ⟨rfl, rfl⟩, Peer.afterLoop, if_neg hzero]
        have hdrops : s.peer.drops false (.releaseCas s.peer.refCnt) = true :=
          decide_eq_true ⟨rfl, rfl⟩
        have hrel : (CallPc.releaseCas s.peer.refCnt).isRelease = true := rfl
        have hzeroed : (CallPc.releaseCas s.peer.refCnt).tookToZero = false := rfl
        have he : s.advance i (.releaseCas s.peer.refCnt) false = { s with
              peer := { s.peer with refCnt := s.peer.refCnt - 1#32 }
              pc := update s.pc i none
              refs := s.refs.erase i
              released := s.released ++ [⟨i, s.peer.refCnt - 1#32, false⟩] } := by
          simp only [advance, hout, hdrops, resume, record_ret (i := i) hrel hzeroed, if_true, hzero,
            and_false, if_false, map_nil, append_nil]
        rw [he]
        exact .dropped hpc hzero
    · have hdrops : s.peer.drops spurious (.releaseCas refCnt) = false := decide_eq_false hcas
      rw [advance_goto (by rw [Peer.callStep, if_neg hcas]) hdrops rfl]
      exact .look (h.holds i _ hpc rfl) rfl (by simp) (by simp)

private theorem move_close (hpc : s.pc i = some pc)
    (hout : pc.holding = false) (spurious : Bool) : Move s i (s.advance i pc spurious) := by
  cases pc with
  | onClose =>
    have he : s.advance i .onClose spurious = { s with
        pc := update s.pc i (some .close)
        effects := s.effects ++
          (if s.peer.onClose then [Effect.onClose] else []).map (Prod.mk i) } := by
      simp [advance, Peer.callStep, resume, record, Peer.drops, Peer.adds]
    rw [he]
    exact .onClosed hpc
  | close =>
    have he : s.advance i .close spurious = { s with
        pc := update s.pc i (some .setInvalid)
        effects := s.effects ++ [(i, .close s.peer.fd)] } := by
      simp [advance, Peer.callStep, resume, record, Peer.drops, Peer.adds]
    rw [he]
    exact .closed hpc
  | setInvalid =>
    have he : s.advance i .setInvalid spurious = { s with
        peer := { s.peer with fd := invalidSocket }
        pc := update s.pc i none
        released := s.released ++ [⟨i, 0#32, true⟩] } := by
      have hrec : record i .setInvalid (.ret 0#32) = [⟨i, 0#32, true⟩] := record_ret rfl rfl
      simp [advance, Peer.callStep, resume, hrec, Peer.drops, Peer.adds]
    rw [he]
    exact .invalidated hpc
  | _ => cases hout

theorem advance_move (h : RefInv fd s) (hpc : s.pc i = some pc) (hfresh : pc.freshShortcut = true)
    (spurious : Bool) : Move s i (s.advance i pc spurious) := by
  cases pc with
  | retainLoad => exact (move_retain h spurious).1 hpc
  | retainCas refCnt => exact (move_retain h spurious).2 refCnt hpc
  | releaseCheck desired => exact (move_shortcut h spurious).1 desired hpc
  | releaseStore desired =>
    obtain rfl : desired = 0#32 := of_decide_eq_true hfresh
    exact (move_shortcut h spurious).2 hpc
  | releaseLoad => exact (move_cas h spurious).1 hpc
  | releaseCas refCnt => exact (move_cas h spurious).2 refCnt hpc
  | onClose | close | setInvalid => exact move_close hpc rfl spurious

theorem update_pc {i j : ι} {next : Option CallPc} (h : update s.pc i next j = some pc) :
    (j = i ∧ next = some pc) ∨ (j ≠ i ∧ s.pc j = some pc) := by
  rcases eq_or_ne j i with rfl | hne
  · rw [update_self] at h
    exact .inl ⟨rfl, h⟩
  · rw [update_of_ne hne] at h
    exact .inr ⟨hne, h⟩

theorem look_inv {pc' : CallPc} (h : RefInv fd s) (hi : i ∈ s.refs) (hold' : pc'.holding = true)
    (hlast : ∀ desired, pc' = .releaseStore desired → s.refs = [i])
    (hloaded : ∀ refCnt, pc' = .releaseCas refCnt → refCnt ≠ 0#32) :
    RefInv fd { s with pc := update s.pc i (some pc') } := by
  have hopen := h.open_of_mem hi
  have hnone := h.zeroedBy_none hi
  refine ⟨h.count, h.bound, ?_, ?_, ?_, ?_, h.zeroed, ?_, h.returns⟩
  · intro j pc hj hold
    rcases update_pc hj with ⟨rfl, _⟩ | ⟨_, hj⟩
    · exact hi
    · exact h.holds j pc hj hold
  · intro j desired hj
    rcases update_pc hj with ⟨rfl, he⟩ | ⟨_, hj⟩
    · exact hlast desired (Option.some.inj he)
    · exact h.last j desired hj
  · intro j refCnt hj
    rcases update_pc hj with ⟨rfl, he⟩ | ⟨_, hj⟩
    · exact hloaded refCnt (Option.some.inj he)
    · exact h.loaded j refCnt hj
  · intro j pc hj hout
    rcases update_pc hj with ⟨rfl, he⟩ | ⟨_, hj⟩
    · rw [← Option.some.inj he, hold'] at hout
      cases hout
    · exact h.closer j pc hj hout
  · rw [EffectsOk, hnone]
    exact hopen

theorem retained_inv (h : RefInv fd s) (hi : i ∈ s.refs) (hroom : s.refs.length + 1 < 2147483648) :
    RefInv fd { s with
      peer := { s.peer with refCnt := s.peer.refCnt + 1#32 }
      pc := update s.pc i none
      refs := i :: s.refs } := by
  have hopen := h.open_of_mem hi
  have hnone := h.zeroedBy_none hi
  refine ⟨?_, hroom, ?_, ?_, ?_, ?_, ?_, ?_, h.returns⟩
  · rw [h.count]
    exact (ofNat_add s.refs.length 1).symm
  · intro j pc hj hold
    rcases update_pc hj with ⟨_, he⟩ | ⟨_, hj⟩
    · cases he
    · exact mem_cons_of_mem _ (h.holds j pc hj hold)
  · intro j desired hj
    rcases update_pc hj with ⟨_, he⟩ | ⟨hne, hj⟩
    · cases he
    · rw [h.last j desired hj, mem_singleton] at hi
      exact absurd hi.symm hne
  · intro j refCnt hj
    rcases update_pc hj with ⟨_, he⟩ | ⟨_, hj⟩
    · cases he
    · exact h.loaded j refCnt hj
  · intro j pc hj hout
    rcases update_pc hj with ⟨_, he⟩ | ⟨_, hj⟩
    · cases he
    · exact h.closer j pc hj hout
  · exact ⟨fun _ => cons_ne_nil _ _, fun _ => hnone⟩
  · rw [EffectsOk, hnone]
    exact hopen

theorem dropped_inv (h : RefInv fd s) (hi : i ∈ s.refs) (hne : s.peer.refCnt - 1#32 ≠ 0#32) :
    RefInv fd { s with
      peer := { s.peer with refCnt := s.peer.refCnt - 1#32 }
      pc := update s.pc i none
      refs := s.refs.erase i
      released := s.released ++ [⟨i, s.peer.refCnt - 1#32, false⟩] } := by
  have hopen := h.open_of_mem hi
  have hnone := h.zeroedBy_none hi
  have hpos := length_pos_of_mem hi
  have hlen := length_erase_of_mem hi
  have hbound := h.bound
  have hcount : s.peer.refCnt - 1#32 = BitVec.ofNat 32 (s.refs.length - 1) := by
    rw [h.count]
    have hsucc : s.refs.length = s.refs.length - 1 + 1 := by omega
    conv_lhs => rw [hsucc, ofNat_add]
    exact add_sub_cancel _ _
  have hrest : s.refs.erase i ≠ [] := by
    intro he
    rw [he, length_nil] at hlen
    rw [hcount, ← hlen] at hne
    exact hne rfl
  refine ⟨?_, ?_, ?_, ?_, ?_, ?_, ⟨fun _ => hrest, fun _ => hnone⟩, ?_, ?_⟩
  · rw [hlen]
    exact hcount
  · rw [hlen]
    omega
  · intro j pc hj hold
    rcases update_pc hj with ⟨_, he⟩ | ⟨hji, hj⟩
    · cases he
    · exact (mem_erase_of_ne hji).mpr (h.holds j pc hj hold)
  · intro j desired hj
    rcases update_pc hj with ⟨_, he⟩ | ⟨hji, hj⟩
    · cases he
    · rw [h.last j desired hj, mem_singleton] at hi
      exact absurd hi.symm hji
  · intro j refCnt hj
    rcases update_pc hj with ⟨_, he⟩ | ⟨_, hj⟩
    · cases he
    · exact h.loaded j refCnt hj
  · intro j pc hj hout
    rcases update_pc hj with ⟨_, he⟩ | ⟨_, hj⟩
    · cases he
    · exact h.closer j pc hj hout
  · rw [EffectsOk, hnone]
    refine ⟨hopen.1, hopen.2.1, ?_⟩
    rw [zeroes, filter_append, ← zeroes, hopen.2.2]
    rfl
  · intro e he
    rcases mem_append.mp he with he | he
    · exact h.returns e he
    · rw [mem_singleton.mp he]
      exact ⟨fun hz => absurd hz hne, fun hz => by cases hz⟩

private theorem zeroed_inv (h : RefInv fd s) (hone : s.refs = [i]) : RefInv fd { s with
      peer := { s.peer with refCnt := 0#32 }
      pc := update s.pc i (some .onClose)
      refs := []
      zeroedBy := some i } := by
  have hi : i ∈ s.refs := by
    rw [hone]
    exact mem_singleton_self i
  refine alone_inv (update_self i (some .onClose) s.pc) ?_ ?_ rfl rfl rfl ?_ h.returns
  · intro j hne
    exact (update_of_ne hne _ _).trans (alone_of_last h hone j hne)
  · rintro pc ⟨⟩
    rfl
  · exact h.open_of_mem hi

private theorem closing_inv {s s' : State ι} (h : RefInv fd s)
    (hpc : s.pc i = some pc) (hout : pc.holding = false) (hm : Move s i s') : RefInv fd s' := by
  obtain ⟨hrefs, hzero, halone⟩ := alone_of_closing h hpc hout
  have hother : ∀ (next : Option CallPc) (j : ι), j ≠ i → update s.pc i next j = none := by
    intro next j hne
    rw [update_of_ne hne]
    exact halone j hne
  have hcnt : s.peer.refCnt = 0#32 := by
    rw [h.count, hrefs]
    rfl
  have heff := h.effects
  rw [EffectsOk, hzero] at heff
  change ClosingOk fd s i (s.pc i) at heff
  cases hm with
  | look hi =>
    rw [hrefs] at hi
    cases hi
  | retained hpc' | dropped hpc' =>
    rw [hpc] at hpc'
    cases hpc'
    cases hout
  | zeroed hone =>
    rw [hrefs] at hone
    cases hone
  | onClosed hpc' =>
    rw [hpc'] at heff
    obtain ⟨hfd, hnil, hrel⟩ := heff
    refine alone_inv (update_self i _ s.pc) (hother _) ?_ hcnt hrefs hzero ?_ h.returns
    · rintro pc' ⟨⟩
      rfl
    · refine ⟨hfd, ?_, hrel⟩
      rw [hnil, nil_append]
  | closed hpc' =>
    rw [hpc'] at heff
    obtain ⟨rfl, he, hrel⟩ := heff
    refine alone_inv (update_self i _ s.pc) (hother _) ?_ hcnt hrefs hzero ?_ h.returns
    · rintro pc' ⟨⟩
      rfl
    · refine ⟨?_, hrel⟩
      rw [he, Peer.closing, map_append]
      rfl
  | invalidated hpc' =>
    rw [hpc'] at heff
    obtain ⟨he, hrel⟩ := heff
    refine alone_inv (update_self i _ s.pc) (hother _) ?_ hcnt hrefs hzero ?_ ?_
    · rintro pc' ⟨⟩
    · refine ⟨he, ?_⟩
      rw [zeroes, filter_append, ← zeroes, hrel]
      rfl
    · intro e hmem
      rcases mem_append.mp hmem with hmem | hmem
      · exact h.returns e hmem
      · rw [mem_singleton.mp hmem]
        exact ⟨fun _ => rfl, fun _ => rfl⟩

private theorem move_inv {s s' : State ι} (h : RefInv fd s) (hm : Move s i s')
    (hroom : ∀ refCnt, s.pc i = some (.retainCas refCnt) → s.refs.length + 1 < 2147483648) :
    RefInv fd s' := by
  cases hm with
  | look hi hold' hlast hloaded => exact look_inv h hi hold' hlast hloaded
  | retained hpc => exact retained_inv h (h.holds i _ hpc rfl) (hroom _ hpc)
  | dropped hpc hne => exact dropped_inv h (h.holds i _ hpc rfl) hne
  | zeroed hone => exact zeroed_inv h hone
  | onClosed hpc => exact closing_inv h hpc rfl (.onClosed hpc)
  | closed hpc => exact closing_inv h hpc rfl (.closed hpc)
  | invalidated hpc => exact closing_inv h hpc rfl (.invalidated hpc)

private theorem give_inv (h : RefInv fd s) (hpc : s.pc i = none)
    (hi : i ∈ s.refs) (j : ι) : RefInv fd { s with refs := j :: s.refs.erase i } := by
  have hopen := h.open_of_mem hi
  have hnone := h.zeroedBy_none hi
  have hpos := length_pos_of_mem hi
  have hlen : (j :: s.refs.erase i).length = s.refs.length := by
    rw [length_cons, length_erase_of_mem hi]
    omega
  refine ⟨?_, ?_, ?_, ?_, h.loaded, h.closer,
    ⟨fun _ => cons_ne_nil _ _, fun _ => hnone⟩, ?_, h.returns⟩
  · rw [hlen]
    exact h.count
  · rw [hlen]
    exact h.bound
  · intro k pc hk hold
    have hne : k ≠ i := by
      rintro rfl
      rw [hpc] at hk
      cases hk
    exact mem_cons_of_mem _ ((mem_erase_of_ne hne).mpr (h.holds k pc hk hold))
  · intro k desired hk
    rw [h.last k desired hk, mem_singleton] at hi
    rw [hi, hk] at hpc
    cases hpc
  · rw [EffectsOk, hnone]
    exact hopen

/-- From this place the next step is not a shortcut that keeps the `desired` of an earlier turn of
the loop, and it does not take the count to `2 ^ 31`. -/
def SafeAt (s : State ι) : Option CallPc → Prop
  | some (.releaseStore desired) => desired = 0#32
  | some (.retainCas _) => s.refs.length + 1 < 2147483648
  | _ => True

instance (s : State ι) (pc : Option CallPc) : Decidable (SafeAt s pc) := by
  unfold SafeAt
  split <;> infer_instance

def Safe (s : State ι) : Event ι → Prop
  | .step i _ => SafeAt s (s.pc i)
  | _ => True

instance (s : State ι) (e : Event ι) : Decidable (Safe s e) := by
  cases e <;> simp only [Safe] <;> infer_instance

theorem step_inv {s s' : State ι} {e : Event ι} (h : RefInv fd s) (hsafe : Safe s e)
    (he : s.step e = some s') : RefInv fd s' := by
  cases e with
  | retain i | release i =>
    simp only [State.step] at he
    split at he
    · next hi =>
      cases he
      exact look_inv h hi.2 rfl (by simp) (by simp)
    · cases he
  | give i j =>
    simp only [State.step] at he
    split at he
    · next hi =>
      cases he
      exact give_inv h hi.1 hi.2 j
    · cases he
  | step i spurious =>
    simp only [State.step] at he
    split at he
    · cases he
    · next pc hpc =>
      cases he
      have hsafe : SafeAt s (some pc) := by
        rw [← hpc]
        exact hsafe
      have hfresh : pc.freshShortcut = true := by
        cases pc with
        | releaseStore desired => exact decide_eq_true hsafe
        | _ => rfl
      refine move_inv h (advance_move h hpc hfresh spurious) ?_
      intro refCnt hcas
      rw [hpc, Option.some.injEq] at hcas
      rw [hcas] at hsafe
      exact hsafe

/-- In every run of retains, hand-overs and releases in which each step is safe, the peer is closed
once, by the release that took its count to zero. -/
theorem peer_closed_once (holder : ι) (fd : Int) (onClose : Bool) (events : List (Event ι))
    (s : State ι) (hr : run (guarded State.step Safe) (start holder fd onClose) events = some s) :
    ClosedOnce fd s := by
  have h : RefInv fd s := by
    refine run_invariant ?_ (start_inv holder fd onClose) hr
    intro t e t' ht he
    obtain ⟨hsafe, he⟩ := guarded_eq_some.mp he
    exact step_inv ht hsafe he
  exact h.closedOnce

def twoHolders : List (Event Bool) :=
  [.retain false, .step false false, .step false false, .give false true,
    .release true, .step true false, .step true false, .step true false,
    .release false, .step false false, .step false false, .step false false, .step false false,
    .step false false]

theorem peer_closed_once_two_holders :
    ∃ s, run (guarded State.step Safe) (start false 5 true) twoHolders = some s ∧
      s.effects = [(false, .onClose), (false, .close 5)] ∧ ClosedOnce 5 s := by
  have hend : (run (guarded State.step Safe) (start false 5 true) twoHolders).map
      (fun s => s.effects) = some [(false, .onClose), (false, .close 5)] := by decide
  obtain ⟨s, hs, he⟩ := Option.map_eq_some_iff.mp hend
  exact ⟨s, hs, he, peer_closed_once false 5 true twoHolders s hs⟩

def staleShortcut : List (Event Bool) :=
  [.retain false, .step false false, .step false false, .give false true,
    .release false, .step false false, .step false false,
    .release true, .step true false, .step true false, .step true false,
    .step false false, .step false false, .step false false]

theorem stale_shortcut_never_closes :
    ¬ ∀ (holder : Bool) (fd : Int) (onClose : Bool) (events : List (Event Bool)) (s : State Bool),
      run State.step (start holder fd onClose) events = some s → ClosedOnce fd s := by
  intro h
  have hend : (run State.step (start false 5 true) staleShortcut).map
      (fun s => (s.refs, s.effects, s.pc false, s.pc true)) = some ([], [], none, none) := by decide
  obtain ⟨s, hs, he⟩ := Option.map_eq_some_iff.mp hend
  simp only [Prod.mk.injEq] at he
  obtain ⟨hrefs, heff, hfalse, htrue⟩ := he
  obtain ⟨i, _, hdone⟩ := (h false 5 true staleShortcut s hs).finished hrefs
  have hpc : s.pc i = none := by
    cases i with
    | false => exact hfalse
    | true => exact htrue
  have hclose := hdone hpc
  rw [heff] at hclose
  cases hb : s.peer.onClose <;> rw [hb] at hclose <;> cases hclose

end MuggleC.Net.PeerRefs

/-! The holder `none` is the event loop and `some i` is a worker. Every peer node of the pool is one
`PeerRefs.State`: the memory of its peer, the threads inside a call on it, and the references to its
present connection. The fields after `fdTable` record what has happened. -/

namespace MuggleC.Net.EventMemmgr

open Foundation.Transition

/-- Where a node is: in the pool, allocated and not yet accepted into, in the active list, taken out
of it by `recycle`, or in the recycle list. -/
inductive Loc
  | pool
  | fresh
  | active
  | detached
  | recycle
  deriving DecidableEq, Repr

inductive LoopPc (ν : Type)
  | idle
  | retaining (n : ν)
  | recycling (n : ν)
  | recycled (n : ν) (ret : BitVec 32)
  | clearing (rest : List ν)
  | freeing (n : ν) (rest : List ν)
  | accepting (n : ν)
  | accepted (n : ν)
  deriving DecidableEq

structure Closed where
  life : Option Nat
  closed : Option Nat
  deriving DecidableEq

structure State (ν ι : Type) where
  node : ν → PeerRefs.State (Option ι)
  pool : List ν
  active : List ν
  recycle : List ν
  loop : LoopPc ν
  fdTable : Int → Option Nat
  accepts : Nat
  loc : ν → Loc
  life : ν → Option Nat
  callLife : Option ι → Option Nat
  closes : List Closed

inductive AcceptResult
  | interrupted
  | failed
  | connected (fd : Int)

inductive WorkerOp (ι : Type)
  | retain
  | release
  | give (j : ι)
  | step (spurious : Bool)

inductive Event (ν ι : Type)
  | worker (n : ν) (i : ι) (op : WorkerOp ι)
  | retain (n : ν)
  | grant (n : ν) (i : ι)
  | attach (n : ν) (onClose : Bool)
  | recycle (n : ν)
  | clear
  | allocate
  | accept (result : AcceptResult)
  | loop (spurious : Bool)

/-- All nodes are in the pool; their memory holds what it happens to hold. The peers that
`muggle_socket_event_memmgr_init` is given go through `allocate` and `accept`. -/
def start {ν ι : Type} (pool : List ν) (peer : ν → Peer) : State ν ι :=
  ⟨fun n => ⟨peer n, fun _ => none, [], none, [], []⟩, pool, [], [], .idle,
    fun _ => none, 0, fun _ => .pool, fun _ => none, fun _ => none, []⟩

namespace State

variable {ν ι : Type} [DecidableEq ν] [DecidableEq ι]

def setNode (s : State ν ι) (n : ν) (p : PeerRefs.State (Option ι)) : State ν ι :=
  { s with node := Function.update s.node n p }

def beginCall (s : State ν ι) (n : ν) (h : Option ι) (e : PeerRefs.Event (Option ι)) :
    Option (State ν ι) :=
  ((s.node n).step e).map fun p =>
    { s.setNode n p with callLife := Function.update s.callLife h (s.life n) }

def noteClose (s : State ν ι) (n : ν) (h : Option ι) : State ν ι :=
  { s with
    closes := s.closes ++ [⟨s.callLife h, s.fdTable (s.node n).peer.fd⟩]
    fdTable := Function.update s.fdTable (s.node n).peer.fd none }

def advanceCall (s : State ν ι) (n : ν) (h : Option ι) (spurious : Bool) : Option (State ν ι) :=
  ((s.node n).step (.step h spurious)).map fun p =>
    (if (s.node n).pc h = some .close then s.noteClose n h else s).setNode n p

def Idle (s : State ν ι) (h : Option ι) : Prop := ∀ n, (s.node n).pc h = none

instance [Fintype ν] (s : State ν ι) (h : Option ι) : Decidable (s.Idle h) :=
  inferInstanceAs (Decidable (∀ n, (s.node n).pc h = none))

def stepWorker [Fintype ν] (s : State ν ι) (n : ν) (i : ι) : WorkerOp ι → Option (State ν ι)
  | .retain => if s.Idle (some i) then s.beginCall n (some i) (.retain (some i)) else none
  | .release => if s.Idle (some i) then s.beginCall n (some i) (.release (some i)) else none
  | .give j =>
    if s.Idle (some i) then ((s.node n).step (.give (some i) (some j))).map (s.setNode n) else none
  | .step spurious => s.advanceCall n (some i) spurious

def free (s : State ν ι) (n : ν) : State ν ι :=
  { s with pool := s.pool ++ [n], loc := Function.update s.loc n .pool }

def cleared (p : PeerRefs.State (Option ι)) : PeerRefs.State (Option ι) :=
  { p with peer := ⟨0#32, 0, false⟩, refs := [], zeroedBy := none, effects := [], released := [] }

def setFd (s : State ν ι) (n : ν) (fd : Int) : State ν ι :=
  s.setNode n { s.node n with peer := { (s.node n).peer with fd := fd } }

def allocate (s : State ν ι) : Option (State ν ι) :=
  match s.pool with
  | [] => none
  | n :: rest => some { s.setNode n (cleared (s.node n)) with
      pool := rest
      active := n :: s.active
      loop := .accepting n
      loc := Function.update s.loc n .fresh
      life := Function.update s.life n none }

/-- The call of `accept` in `muggle_socket_event_accept`, and `muggle_socket_event_memmgr_free` when
there is no connection. The kernel gives a new connection an fd that is not open. -/
def accept (s : State ν ι) (n : ν) : AcceptResult → Option (State ν ι)
  | .interrupted => some (s.setFd n invalidSocket)
  | .failed => some { (s.setFd n invalidSocket).free n with
      active := s.active.erase n
      loop := .idle }
  | .connected fd =>
    if fd ≠ invalidSocket ∧ s.fdTable fd = none then
      some { s.setFd n fd with
        loop := .accepted n
        fdTable := Function.update s.fdTable fd (some s.accepts)
        life := Function.update s.life n (some s.accepts)
        accepts := s.accepts + 1 }
    else none

def setRef (s : State ν ι) (n : ν) : State ν ι :=
  { s.setNode n { s.node n with
      peer := { (s.node n).peer with refCnt := 1#32 }
      refs := [none] } with
    loop := .idle
    loc := Function.update s.loc n .active }

def loopReturns (s : State ν ι) (n : ν) (spurious : Bool) : Option (BitVec 32) :=
  match (s.node n).pc none with
  | none => none
  | some pc =>
    match ((s.node n).peer.callStep spurious pc).next with
    | .ret value => some value
    | .goto _ => none

/-- The next step of the event loop inside a call on a node, inside
`muggle_socket_event_memmgr_recycle` or inside `muggle_socket_event_memmgr_clear`. -/
def stepLoop (s : State ν ι) (spurious : Bool) : Option (State ν ι) :=
  match s.loop with
  | .idle => none
  | .retaining n => (s.advanceCall n none spurious).map fun t =>
      match s.loopReturns n spurious with
      | some _ => { t with loop := .idle }
      | none => t
  | .recycling n => (s.advanceCall n none spurious).map fun t =>
      match s.loopReturns n spurious with
      | some value => { t with loop := .recycled n value }
      | none => t
  | .recycled n ret =>
    if ret = 0#32 then some { s.free n with loop := .idle }
    else some { s with
      recycle := n :: s.recycle
      loop := .idle
      loc := Function.update s.loc n .recycle }
  | .clearing [] => some { s with loop := .idle }
  | .clearing (n :: rest) =>
    if (s.node n).peer.refCnt = 0#32 then some { s with loop := .freeing n rest }
    else some { s with loop := .clearing rest }
  | .freeing n rest => some { s.free n with
      recycle := s.recycle.erase n
      loop := .clearing rest }
  | .accepting _ => none
  | .accepted n => some (s.setRef n)

/-- The event loop starts something new only when it is idle. It hands over no reference that it
does not hold twice, since its own one is released by `recycle`. -/
def step [Fintype ν] (s : State ν ι) : Event ν ι → Option (State ν ι)
  | .worker n i op => s.stepWorker n i op
  | .retain n =>
    if s.loop = .idle ∧ n ∈ s.active then
      (s.beginCall n none (.retain none)).map fun t => { t with loop := .retaining n }
    else none
  | .grant n i =>
    if s.loop = .idle ∧ 2 ≤ (s.node n).refs.count none then
      ((s.node n).step (.give none (some i))).map (s.setNode n)
    else none
  | .attach n onClose =>
    if s.loop = .idle ∧ n ∈ s.active ∧ (s.node n).refs = [none] then
      some (s.setNode n { s.node n with peer := { (s.node n).peer with onClose := onClose } })
    else none
  | .recycle n =>
    if s.loop = .idle ∧ n ∈ s.active then
      (s.beginCall n none (.release none)).map fun t =>
        { t with
          active := t.active.erase n
          loop := .recycling n
          loc := Function.update t.loc n .detached }
    else none
  | .clear => if s.loop = .idle then some { s with loop := .clearing s.recycle } else none
  | .allocate => if s.loop = .idle then s.allocate else none
  | .accept result =>
    match s.loop with
    | .accepting n => s.accept n result
    | _ => none
  | .loop spurious => s.stepLoop spurious

end State

end MuggleC.Net.EventMemmgr
