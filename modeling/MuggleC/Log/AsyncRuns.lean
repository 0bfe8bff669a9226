/- source: log/log_async_logger.c
   digest: Where the async logger's messages and their memory are, in every run. -/

import MuggleC.Log.AsyncLogger
import MuggleC.Sync.ChannelFifo
import Mathlib.Data.List.ReduceOption

set_option autoImplicit false

namespace MuggleC.Log.AsyncLogger

open Base Foundation.Transition Sync
open Sync.ChannelLock (pending WriterInv move_framed)
open Sync.ChannelFifo (messages FifoInv step_fifo)
open Sync.ChannelEffects Function List

variable {ι η : Type}

def inChannel : CallerPc → Option (Option ℕ)
  | .sending id => some (some id)
  | .sendingMarker => some none
  | _ => none

def current : ConsumerPc → List (Option ℕ)
  | .reading => []
  | .writing id _ => [some id]
  | .freePayload id => [some id]
  | .freeMsg id => [some id]
  | .exited => [none]

/-- Every write in the channel belongs to its thread's call, and the messages read are those handled
and the current one. -/
structure Linked (s : System ι η) : Prop where
  writers : ∀ i, dataOf (s.chan.writer i) = inChannel (s.caller i)
  reading : s.consumer ≠ .reading → s.chan.reader = .idle
  returned_eq : s.chan.returned = s.handled.map some ++ current s.consumer

section Steps

variable [DecidableEq ι] {c c' : ChannelSteps.State ι (Option ℕ)} {i : ι} {data : Option ℕ}
  {spurious : Bool} {s : System ι η} {pc : CallerPc}

theorem write_eq
    (h : c.step (.write i data) = some c') : c.writer i = .idle ∧ c' = c.goto i (.lock data) := by
  simp only [ChannelSteps.State.step] at h
  split at h
  · next hpc => exact ⟨hpc, (Option.some.inj h).symm⟩
  · cases h

theorem move_of_writer
    (h : c.step (.writer i spurious) = some c') : ChannelSteps.Move c i spurious c' :=
  ChannelSteps.move_of_stepWriter h

theorem reader_eq (h : c.step .reader = some c') : c'.writer = c.writer ∧ messages c' = messages c ∧
      ((∀ data r, c.reader ≠ .storeRead data r) → c'.returned = c.returned) ∧
      ∀ data r, c.reader = .storeRead data r →
        c'.returned = c.returned ++ [data] ∧ c'.reader = .idle := by
  have hm := ChannelSteps.readerMove_of_stepReader h
  obtain ⟨hw, ha, hret⟩ := readerMove_effect hm
  refine ⟨hw, congrArg (map _) ha, ?_, ?_⟩
  · intro hno
    rcases hret with hret | ⟨data, r, hpc, _⟩
    · exact hret
    · exact absurd hpc (hno data r)
  · intro data r hpc
    simp only [ChannelSteps.State.step, ChannelSteps.State.stepReader, hpc] at h
    cases h
    exact ⟨rfl, rfl⟩

theorem reader_ne_idle (h : c.step .reader = some c') : c.reader ≠ .idle := by
  intro hpc
  simp [ChannelSteps.State.step, ChannelSteps.State.stepReader, hpc] at h

theorem interrupt_eq (h : c.step .interrupt = some c') :
    c.reader ≠ .idle ∧ ∃ pc, c' = { c with reader := pc } := by
  simp only [ChannelSteps.State.step] at h
  split at h
  · next rPos hpc =>
    refine ⟨?_, _, (Option.some.inj h).symm⟩
    rw [hpc]
    exact fun he => by cases he
  · cases h

theorem read_eq (h : c.step .read = some c') : c' = { c with reader := .loadPos } := by
  simp only [ChannelSteps.State.step] at h
  split at h
  · exact (Option.some.inj h).symm
  · cases h

theorem Linked.reading_of_reader (h : Linked s) (hc : s.chan.step .reader = some c) :
    s.consumer = .reading := by
  by_contra hne
  exact reader_ne_idle hc (h.reading hne)

theorem Linked.goto (h : Linked s) (hpc : inChannel pc = inChannel (s.caller i)) (j : ι) :
    dataOf (s.chan.writer j) = inChannel (update s.caller i pc j) := by
  rcases eq_or_ne j i with rfl | hne
  · rw [update_self, hpc]
    exact h.writers j
  · rw [update_of_ne hne]
    exact h.writers j

theorem Linked.writer (h : Linked s) (hc : s.chan.step (.writer i spurious) = some c) :
    ∃ data, inChannel (s.caller i) = some data ∧ WriterEffect s.chan c i data ∧
      ∀ j, j ≠ i → c.writer j = s.chan.writer j := by
  obtain ⟨data, hdata, heff⟩ := move_effect (move_of_writer hc)
  exact ⟨data, (h.writers i) ▸ hdata, heff, (move_framed (move_of_writer hc)).other⟩

theorem Linked.finish (h : Linked s) (hc : s.chan.step (.writer i spurious) = some c)
    (hidle : c.writer i = .idle) : messages c = messages s.chan ∧
      ((∃ id ret, s.caller i = .sending id ∧ s.chan.writer i = .wake (some id) ret ∧
        ({ s with chan := c } : System ι η).afterWrite i =
          { s with chan := c, logging := s.logging.erase i }.goto i .idle) ∨
      (∃ ret, s.caller i = .sendingMarker ∧ s.chan.writer i = .wake none ret ∧
        ({ s with chan := c } : System ι η).afterWrite i = { s with chan := c }.goto i .join)) := by
  obtain ⟨data, hin, heff, _⟩ := h.writer hc
  cases heff with
  | quiet hdata =>
    rw [hidle] at hdata
    cases hdata
  | publish _ hafter =>
    rw [hidle] at hafter
    cases hafter
  | @finish ret hbefore _ hmsg =>
    refine ⟨hmsg, ?_⟩
    cases hpc : s.caller i with
    | sending id =>
      rw [hpc] at hin
      cases hin
      refine .inl ⟨id, ret, rfl, hbefore, ?_⟩
      simp only [System.afterWrite, hpc]
    | sendingMarker =>
      rw [hpc] at hin
      cases hin
      refine .inr ⟨ret, rfl, hbefore, ?_⟩
      simp only [System.afterWrite, hpc]
    | _ => rw [hpc] at hin; cases hin

inductive Goes : CallerPc → CallerPc → Prop
  | enter (c : LogCall) : Goes .idle (.alloc c)
  | noMemory (c : LogCall) : Goes (.alloc c) .idle
  | fill (id : ℕ) (c : LogCall) : Goes (.fill id c) (.payload id c)
  | payload (id : ℕ) (c : LogCall) : Goes (.payload id c) (.send id)
  | destroy : Goes .idle .marker
  | join : Goes .join .returned

inductive Calls : CallerPc → Option ℕ → CallerPc → Prop
  | message (id : ℕ) : Calls (.send id) (some id) (.sending id)
  | marker : Calls .marker none .sendingMarker

inductive Returns : CallerPc → Option ℕ → CallerPc → Prop
  | message (id : ℕ) : Returns (.sending id) (some id) .idle
  | marker : Returns .sendingMarker none .join

inductive Effect (s : System ι η) (e : Event ι η) (s' : System ι η) : Prop
  | still (hcaller : s'.caller = s.caller) (hwriter : s'.chan.writer = s.chan.writer)
      (hmsg : messages s'.chan = messages s.chan) (hnext : s'.next = s.next)
  | alloc {i : ι} {c : LogCall} (hpc : s.caller i = .alloc c)
      (hcaller : s'.caller = update s.caller i (.fill s.next c)) (hchan : s'.chan = s.chan)
      (hnext : s'.next = s.next + 1)
  | goes {i : ι} {old pc : CallerPc} (hpc : s.caller i = old) (hgo : Goes old pc)
      (hcaller : s'.caller = update s.caller i pc) (hchan : s'.chan = s.chan)
      (hnext : s'.next = s.next)
  | calls {i : ι} {data : Option ℕ} {old pc : CallerPc} (hpc : s.caller i = old)
      (hgo : Calls old data pc) (hcaller : s'.caller = update s.caller i pc)
      (hwriter : s'.chan.writer = update s.chan.writer i (.lock data))
      (hmsg : messages s'.chan = messages s.chan) (hnext : s'.next = s.next)
  | writing {i : ι} {spurious : Bool} {data : Option ℕ} {c : ChannelSteps.State ι (Option ℕ)}
      (he : e = .writer i spurious) (hc : s.chan.step (.writer i spurious) = some c)
      (hin : inChannel (s.caller i) = some data) (heff : WriterEffect s.chan c i data)
      (hbusy : c.writer i ≠ .idle) (hs : s' = { s with chan := c })
  | returns {i : ι} {spurious : Bool} {data : Option ℕ} {ret : Err} {old pc : CallerPc}
      (hc : s.chan.step (.writer i spurious) = some s'.chan) (hidle : s'.chan.writer i = .idle)
      (hwake : s.chan.writer i = .wake data ret) (hpc : s.caller i = old)
      (hgo : Returns old data pc) (hcaller : s'.caller = update s.caller i pc)
      (hmsg : messages s'.chan = messages s.chan) (hnext : s'.next = s.next)

variable [DecidableEq η] {s' : System ι η} {e : Event ι η}

theorem Linked.effect (h : Linked s) (hs : s.Step e s') : Effect s e s' := by
  cases hs with
  | enter hpc => exact .goes hpc (.enter _) rfl rfl rfl
  | noMemory hpc => exact .goes hpc (.noMemory _) rfl rfl rfl
  | alloc old hpc => exact .alloc hpc rfl rfl rfl
  | fill now hpc => exact .goes hpc (.fill _ _) rfl rfl rfl
  | payload hpc => exact .goes hpc (.payload _ _) rfl rfl rfl
  | destroy hpc => exact .goes hpc .destroy rfl rfl rfl
  | join hpc => exact .goes hpc .join rfl rfl rfl
  | send hpc hc =>
    obtain ⟨_, rfl⟩ := write_eq hc
    exact .calls hpc (.message _) rfl rfl rfl rfl
  | marker hpc hc =>
    obtain ⟨_, rfl⟩ := write_eq hc
    exact .calls hpc .marker rfl rfl rfl rfl
  | writing hc hbusy =>
    obtain ⟨data, hin, heff, -⟩ := h.writer hc
    exact .writing rfl hc hin heff hbusy rfl
  | written hc hidle =>
    obtain ⟨hmsg, ⟨id, ret, hpc, hwake, he⟩ | ⟨ret, hpc, hwake, he⟩⟩ := h.finish hc hidle
    · rw [he]
      exact .returns hc hidle hwake hpc (.message id) rfl hmsg rfl
    · rw [he]
      exact .returns hc hidle hwake hpc .marker rfl hmsg rfl
  | read hcons hc =>
    obtain rfl := read_eq hc
    exact .still rfl rfl rfl rfl
  | reader hc hno | received hc hpc =>
    obtain ⟨hw, hmsg, -⟩ := reader_eq hc
    exact .still rfl hw hmsg rfl
  | interrupt hc =>
    obtain ⟨_, pc, rfl⟩ := interrupt_eq hc
    exact .still rfl rfl rfl rfl
  | _ => exact .still rfl rfl rfl rfl

theorem Linked.writers_step (h : Linked s) (hs : s.Step e s')
    (j : ι) : dataOf (s'.chan.writer j) = inChannel (s'.caller j) := by
  cases h.effect hs with
  | still hcaller hwriter =>
    rw [hcaller, hwriter]
    exact h.writers j
  | alloc hpc hcaller hchan =>
    rw [hcaller, hchan]
    exact h.goto (by rw [hpc]; rfl) j
  | goes hpc hgo hcaller hchan =>
    rw [hcaller, hchan]
    refine h.goto ?_ j
    rw [hpc]
    cases hgo <;> rfl
  | @calls i data old pc hpc hgo hcaller hwriter =>
    rw [hcaller, hwriter]
    rcases eq_or_ne j i with rfl | hne
    · rw [update_self, update_self]
      cases hgo <;> rfl
    · rw [update_of_ne hne, update_of_ne hne]
      exact h.writers j
  | @writing i spurious data c _ hc hin heff hbusy hs =>
    subst hs
    rcases eq_or_ne j i with rfl | hne
    · cases heff with
      | quiet hdata => exact hdata.trans hin.symm
      | publish _ hafter => exact (congrArg dataOf hafter).trans hin.symm
      | finish _ hafter => exact absurd hafter hbusy
    · exact (congrArg dataOf ((move_framed (move_of_writer hc)).other j hne)).trans (h.writers j)
  | @returns i spurious data ret old pc hc hidle _ _ hgo hcaller =>
    rw [hcaller]
    rcases eq_or_ne j i with rfl | hne
    · rw [update_self, hidle]
      cases hgo <;> rfl
    · rw [update_of_ne hne, (move_framed (move_of_writer hc)).other j hne]
      exact h.writers j

theorem Linked.step (h : Linked s) (hs : s.Step e s') : Linked s' := by
  have hwriters := h.writers_step hs
  have hret := h.returned_eq
  cases hs with
  | send hpc hc | marker hpc hc =>
    obtain ⟨_, rfl⟩ := write_eq hc
    exact ⟨hwriters, h.reading, hret⟩
  | writing hc =>
    have hm := move_of_writer hc
    exact ⟨hwriters, fun hne => move_reader_idle hm (h.reading hne),
      (move_framed hm).returned_eq.trans hret⟩
  | written hc hidle =>
    have hm := move_of_writer hc
    obtain ⟨_, ⟨id, ret, _, _, he⟩ | ⟨ret, _, _, he⟩⟩ := h.finish hc hidle <;> rw [he] at hwriters ⊢ <;>
      exact ⟨hwriters, fun hne => move_reader_idle hm (h.reading hne),
      (move_framed hm).returned_eq.trans hret⟩
  | read hcons hc =>
    obtain rfl := read_eq hc
    exact ⟨hwriters, fun hne => absurd hcons hne, hret⟩
  | turn hcons | loopEnd hcons | freePayload hcons =>
    rw [hcons] at hret
    exact ⟨hwriters, fun _ => h.reading (by rw [hcons]; exact fun he => by cases he), hret⟩
  | freeMsg hcons =>
    rw [hcons] at hret
    refine ⟨hwriters, fun hne => absurd rfl hne, ?_⟩
    simp only [current, map_append, append_nil]
    exact hret
  | reader hc hno =>
    exact ⟨hwriters, fun hne => absurd (h.reading hne) (reader_ne_idle hc),
      ((reader_eq hc).2.2.1 hno).trans hret⟩
  | @received data r c hc hpc =>
    obtain ⟨hnow, hidle⟩ := (reader_eq hc).2.2.2 data r hpc
    rw [h.reading_of_reader hc, current, append_nil] at hret
    rw [hret] at hnow
    cases data <;> exact ⟨hwriters, fun _ => hidle, hnow⟩
  | interrupt hc =>
    obtain ⟨hne, pc, rfl⟩ := interrupt_eq hc
    exact ⟨hwriters, fun hcons => absurd (h.reading hcons) hne, hret⟩
  | _ => exact ⟨hwriters, h.reading, hret⟩

end Steps

def heldBy : CallerPc → ChannelSteps.WriterPc (Option ℕ) → Option ℕ
  | .fill id _, _ => some id
  | .payload id _, _ => some id
  | .send id, _ => some id
  | .sending id, w =>
    match pending w with
    | [] => some id
    | _ :: _ => none
  | _, _ => none

def held (s : System ι η) (i : ι) : Option ℕ := heldBy (s.caller i) (s.chan.writer i)

structure Owned (s : System ι η) : Prop where
  lt : ∀ i id, held s i = some id → id < s.next
  fresh : ∀ i id, held s i = some id → some id ∉ messages s.chan
  unique : ∀ i j id, held s i = some id → held s j = some id → i = j
  known : ∀ id, some id ∈ messages s.chan → id < s.next
  nodup : (messages s.chan).reduceOption.Nodup

variable {s s' : System ι η}

theorem Owned.of_held (h : Owned s) (hnext : s'.next = s.next)
    (hmsg : messages s'.chan = messages s.chan)
    (hheld : ∀ i id, held s' i = some id → held s i = some id) : Owned s' where
  lt i id hi := hnext ▸ h.lt i id (hheld i id hi)
  fresh i id hi := hmsg ▸ h.fresh i id (hheld i id hi)
  unique i j id hi hj := h.unique i j id (hheld i id hi) (hheld j id hj)
  known id hid := hnext ▸ h.known id (hmsg ▸ hid)
  nodup := hmsg ▸ h.nodup

theorem Owned.publish (h : Owned s) {i : ι} {data : Option ℕ}
    (hnext : s'.next = s.next) (hmsg : messages s'.chan = messages s.chan ++ [data])
    (hdata : ∀ id, data = some id → held s i = some id) (hnone : held s' i = none)
    (hother : ∀ j, j ≠ i → held s' j = held s j) : Owned s' := by
  have hheld : ∀ j id, held s' j = some id → j ≠ i ∧ held s j = some id := by
    intro j id hj
    have hne : j ≠ i := by
      rintro rfl
      rw [hnone] at hj
      cases hj
    exact ⟨hne, hother j hne ▸ hj⟩
  refine ⟨?_, ?_, ?_, ?_, ?_⟩
  · intro j id hj
    rw [hnext]
    exact h.lt j id (hheld j id hj).2
  · intro j id hj hmem
    obtain ⟨hne, hold⟩ := hheld j id hj
    rw [hmsg, mem_append, mem_singleton] at hmem
    rcases hmem with hmem | hmem
    · exact h.fresh j id hold hmem
    · exact hne (h.unique j i id hold (hdata id hmem.symm))
  · intro j l id hj hl
    exact h.unique j l id (hheld j id hj).2 (hheld l id hl).2
  · intro id hid
    rw [hnext]
    rw [hmsg, mem_append, mem_singleton] at hid
    rcases hid with hid | hid
    · exact h.known id hid
    · exact h.lt i id (hdata id hid.symm)
  · rw [hmsg, reduceOption_append]
    cases data with
    | none => simpa using h.nodup
    | some id =>
      have hfresh := h.fresh i id (hdata id rfl)
      rw [reduceOption_singleton, Option.toList_some, nodup_append]
      refine ⟨h.nodup, by simp, ?_⟩
      rintro x hx y hy rfl
      rw [mem_singleton] at hy
      exact hfresh (reduceOption_mem_iff.mp (hy ▸ hx))

section Steps

variable [DecidableEq ι] {s s' : System ι η}

private theorem held_goto {i : ι} {pc : CallerPc}
    (hcaller : s'.caller = update s.caller i pc) (hchan : s'.chan = s.chan)
    (hpc : ∀ id, heldBy pc (s.chan.writer i) = some id → held s i = some id) (j : ι) (id : ℕ)
    (hj : held s' j = some id) : held s j = some id := by
  rw [held, hcaller, hchan] at hj
  rcases eq_or_ne j i with rfl | hne
  · rw [update_self] at hj
    exact hpc id hj
  · rw [update_of_ne hne] at hj
    exact hj

theorem Owned.alloc (h : Owned s) {i : ι} {c : LogCall}
    (hcaller : s'.caller = update s.caller i (.fill s.next c)) (hchan : s'.chan = s.chan)
    (hnext : s'.next = s.next + 1) : Owned s' := by
  have hheld : ∀ j id, held s' j = some id → (j = i ∧ id = s.next) ∨ held s j = some id := by
    intro j id hj
    rw [held, hcaller, hchan] at hj
    rcases eq_or_ne j i with rfl | hne
    · rw [update_self] at hj
      exact .inl ⟨rfl, (Option.some.inj hj).symm⟩
    · rw [update_of_ne hne] at hj
      exact .inr hj
  have hnew : ∀ j, held s j ≠ some s.next := fun j hj => Nat.lt_irrefl _ (h.lt j _ hj)
  refine ⟨?_, ?_, ?_, ?_, hchan ▸ h.nodup⟩
  · intro j id hj
    rw [hnext]
    rcases hheld j id hj with ⟨_, rfl⟩ | hold
    · exact Nat.lt_succ_self _
    · exact Nat.lt_succ_of_lt (h.lt j id hold)
  · intro j id hj
    rw [hchan]
    rcases hheld j id hj with ⟨_, rfl⟩ | hold
    · exact fun hmem => Nat.lt_irrefl _ (h.known _ hmem)
    · exact h.fresh j id hold
  · intro j l id hj hl
    rcases hheld j id hj with ⟨rfl, rfl⟩ | hold
    · rcases hheld l _ hl with ⟨rfl, _⟩ | hold
      · rfl
      · exact absurd hold (hnew l)
    · rcases hheld l id hl with ⟨_, rfl⟩ | hold'
      · exact absurd hold (hnew j)
      · exact h.unique j l id hold hold'
  · intro id hid
    rw [hnext]
    exact Nat.lt_succ_of_lt (h.known id (hchan ▸ hid))

variable [DecidableEq η]

theorem Owned.step {e : Event ι η} (h : Owned s) (hl : Linked s) (hs : s.Step e s') : Owned s' := by
  cases hl.effect hs with
  | still hcaller hwriter hmsg hnext =>
    refine h.of_held hnext hmsg fun j id hj => ?_
    rw [held, hcaller, hwriter] at hj
    exact hj
  | alloc hpc hcaller hchan hnext => exact h.alloc hcaller hchan hnext
  | goes hpc hgo hcaller hchan hnext =>
    refine h.of_held hnext (congrArg messages hchan) (held_goto hcaller hchan fun id hi => ?_)
    rw [held, hpc]
    cases hgo <;> exact hi
  | @calls i data old pc hpc hgo hcaller hwriter hmsg hnext =>
    refine h.of_held hnext hmsg fun j id hj => ?_
    rw [held, hcaller, hwriter] at hj
    rcases eq_or_ne j i with rfl | hne
    · rw [update_self, update_self] at hj
      rw [held, hpc]
      cases hgo <;> exact hj
    · rw [update_of_ne hne, update_of_ne hne] at hj
      exact hj
  | @writing i spurious data c _ hc hin heff hbusy hs =>
    subst hs
    have hsame : ∀ j, j ≠ i → held ({ s with chan := c } : System ι η) j = held s j := by
      intro j hne
      simp only [held, (move_framed (move_of_writer hc)).other j hne]
    cases heff with
    | quiet _ hpend hmsg =>
      refine h.of_held rfl hmsg fun j id hj => ?_
      rcases eq_or_ne j i with rfl | hne
      · simp only [held] at hj ⊢
        cases hpc : s.caller j <;> rw [hpc] at hj
        case sending => simpa only [heldBy, hpend] using hj
        all_goals exact hj
      · exact hsame j hne ▸ hj
    | publish hbefore hafter hmsg =>
      refine h.publish rfl hmsg ?_ ?_ hsame
      · rintro id rfl
        cases hpc : s.caller i with
        | sending id' =>
          rw [hpc] at hin
          obtain rfl : id' = id := by
            simpa [inChannel] using hin
          simp only [held, hpc, heldBy, hbefore]
        | _ => rw [hpc] at hin; cases hin
      · simp only [held, hafter]
        cases hpc : s.caller i with
        | sending id' => rfl
        | sendingMarker => rfl
        | _ => rw [hpc] at hin; cases hin
    | finish _ hafter => exact absurd hafter hbusy
  | @returns i spurious data ret old pc hc hidle _ _ hgo hcaller hmsg hnext =>
    refine h.of_held hnext hmsg fun j id hj => ?_
    rw [held, hcaller] at hj
    rcases eq_or_ne j i with rfl | hne
    · rw [update_self, hidle] at hj
      cases hgo <;> cases hj
    · rw [update_of_ne hne, (move_framed (move_of_writer hc)).other j hne] at hj
      exact hj

end Steps

def working : ConsumerPc → Option ℕ
  | .writing id _ => some id
  | .freePayload id => some id
  | .freeMsg id => some id
  | _ => none

def halfReleased : ConsumerPc → List Block
  | .freeMsg id => [.payload id]
  | _ => []

def withoutPayload : CallerPc → Option ℕ
  | .fill id _ => some id
  | .payload id _ => some id
  | _ => none

def withPayload : CallerPc → Option ℕ
  | .send id => some id
  | .sending id => some id
  | _ => none

/-- Every block that is used is live, and the handled messages are those released. -/
structure Ledger (s : System ι η) : Prop where
  nodup : s.allocated.Nodup
  record_iff : ∀ id, .record id ∈ s.allocated ↔ id < s.next
  payload_lt : ∀ id, .payload id ∈ s.allocated → id < s.next
  bare : ∀ i id, withoutPayload (s.caller i) = some id → .payload id ∉ s.allocated
  filled : ∀ i id, withPayload (s.caller i) = some id → .payload id ∈ s.allocated
  accepted : ∀ id, some id ∈ messages s.chan → .payload id ∈ s.allocated
  released_eq : s.released =
    (s.handled.flatMap fun id => [.payload id, .record id]) ++ halfReleased s.consumer
  misused_eq : s.misused = []

theorem held_of_withoutPayload {i : ι} {id : ℕ}
    (h : withoutPayload (s.caller i) = some id) : held s i = some id := by
  rw [held]
  cases hpc : s.caller i with
  | fill id' c | payload id' c => rw [hpc] at h; exact h
  | _ => rw [hpc] at h; cases h

private theorem current_of_working {pc : ConsumerPc} {id : ℕ} (h : working pc = some id) :
    current pc = [some id] := by
  cases pc with
  | reading => cases h
  | exited => cases h
  | _ => exact congrArg (fun i => [some i]) (Option.some.inj h)

section Released

variable [DecidableEq ι] {k : ℕ} {s : System ι η}

theorem handled_spec (hf : FifoInv k s.chan) (hl : Linked s) (ho : Owned s) :
    (s.handled ++ (current s.consumer).reduceOption).Nodup ∧
      ∀ id ∈ s.handled, some id ∈ messages s.chan := by
  obtain ⟨rest, hrest⟩ := hf.order
  have hall : s.handled.map some ++ current s.consumer ++ rest = messages s.chan := by
    rw [← hl.returned_eq]
    exact hrest
  constructor
  · have hnodup := ho.nodup
    rw [← hall, reduceOption_append, reduceOption_append] at hnodup
    have hmap : (s.handled.map some).reduceOption = s.handled := by
      rw [reduceOption, filterMap_map]
      exact filterMap_some
    rw [hmap] at hnodup
    exact (nodup_append.mp hnodup).1
  · intro id hid
    rw [← hall]
    exact mem_append_left _ (mem_append_left _ (mem_map_of_mem hid))

variable {id : ℕ}

theorem working_spec (hf : FifoInv k s.chan) (hl : Linked s) (ho : Owned s)
    (hw : working s.consumer = some id) : some id ∈ messages s.chan ∧ id ∉ s.handled := by
  have hcur := current_of_working hw
  constructor
  · apply hf.order.subset
    rw [hl.returned_eq, hcur]
    exact mem_append_right _ (mem_singleton_self _)
  · intro hid
    have hnodup := (handled_spec hf hl ho).1
    rw [hcur] at hnodup
    exact (nodup_append.mp hnodup).2.2 id hid id (mem_singleton_self _) rfl

omit [DecidableEq ι] in
theorem Ledger.record_released (h : Ledger s) (hid : .record id ∈ s.released) : id ∈ s.handled := by
  rw [h.released_eq, mem_append, mem_flatMap] at hid
  rcases hid with ⟨id', hid', hmem⟩ | hmem
  · simp only [mem_cons, Block.record.injEq, reduceCtorEq, not_mem_nil, or_false, false_or] at hmem
    exact hmem ▸ hid'
  · cases hc : s.consumer <;> rw [hc] at hmem <;> simp [halfReleased] at hmem

omit [DecidableEq ι] in
theorem Ledger.payload_released (h : Ledger s) (hid : .payload id ∈ s.released) :
    id ∈ s.handled ∨ s.consumer = .freeMsg id := by
  rw [h.released_eq, mem_append, mem_flatMap] at hid
  rcases hid with ⟨id', hid', hmem⟩ | hmem
  · simp only [mem_cons, Block.payload.injEq, reduceCtorEq, not_mem_nil, or_false] at hmem
    exact .inl (hmem ▸ hid')
  · cases hc : s.consumer with
    | freeMsg id' =>
      rw [hc] at hmem
      simp only [halfReleased, mem_singleton, Block.payload.injEq] at hmem
      exact .inr (by rw [hmem])
    | _ => rw [hc] at hmem; cases hmem

theorem Ledger.live_held (h : Ledger s) (hf : FifoInv k s.chan) (hl : Linked s) (ho : Owned s)
    {i : ι} (hi : held s i = some id) : s.live (.record id) :=
  ⟨(h.record_iff id).mpr (ho.lt i id hi), fun hrel =>
    ho.fresh i id hi ((handled_spec hf hl ho).2 id (h.record_released hrel))⟩

theorem Ledger.live_working (h : Ledger s) (hf : FifoInv k s.chan) (hl : Linked s) (ho : Owned s)
    (hw : working s.consumer = some id) :
    s.live (.record id) ∧ (s.consumer ≠ .freeMsg id → s.live (.payload id)) := by
  obtain ⟨hmem, hnew⟩ := working_spec hf hl ho hw
  constructor
  · exact ⟨(h.record_iff id).mpr (ho.known id hmem), fun hrel => hnew (h.record_released hrel)⟩
  · intro hne
    refine ⟨h.accepted id hmem, fun hrel => ?_⟩
    rcases h.payload_released hrel with hid | hfree
    · exact hnew hid
    · exact hne hfree

end Released

theorem Ledger.keep (h : Ledger s) (halloc : s'.allocated = s.allocated) (hnext : s'.next = s.next)
    (hmsg : ∀ id, some id ∈ messages s'.chan → .payload id ∈ s.allocated)
    (hbare : ∀ i id, withoutPayload (s'.caller i) = some id → withoutPayload (s.caller i) = some id)
    (hfilled : ∀ i id, withPayload (s'.caller i) = some id → withPayload (s.caller i) = some id)
    (hrel : s'.released =
      (s'.handled.flatMap fun id => [.payload id, .record id]) ++ halfReleased s'.consumer)
    (hmis : s'.misused = []) : Ledger s' where
  nodup := halloc ▸ h.nodup
  record_iff id := by
    rw [halloc, hnext]
    exact h.record_iff id
  payload_lt id hid := hnext ▸ h.payload_lt id (halloc ▸ hid)
  bare i id hi := halloc ▸ h.bare i id (hbare i id hi)
  filled i id hi := halloc ▸ h.filled i id (hfilled i id hi)
  accepted id hid := halloc ▸ hmsg id hid
  released_eq := hrel
  misused_eq := hmis

theorem Ledger.quiet (h : Ledger s) (hcaller : s'.caller = s.caller)
    (hmsg : messages s'.chan = messages s.chan) (halloc : s'.allocated = s.allocated)
    (hnext : s'.next = s.next)
    (hrel : s'.released =
      (s'.handled.flatMap fun id => [.payload id, .record id]) ++ halfReleased s'.consumer)
    (hmis : s'.misused = []) : Ledger s' :=
  h.keep halloc hnext (fun id hid => h.accepted id (hmsg ▸ hid)) (fun _ _ hi => hcaller ▸ hi)
    (fun _ _ hi => hcaller ▸ hi) hrel hmis

theorem Ledger.freeMsg {id : ℕ} (h : Ledger s) (hcons : s.consumer = .freeMsg id) :
    Ledger { s with
      released := s.released ++ [.record id]
      handled := s.handled ++ [id]
      consumer := .reading } := by
  refine h.quiet rfl rfl rfl rfl ?_ h.misused_eq
  have hrel := h.released_eq
  rw [hcons] at hrel
  change s.released ++ [Block.record id] = (s.handled ++ [id]).flatMap _ ++ []
  rw [hrel, flatMap_append, append_nil, append_assoc]
  rfl

section Steps

variable [DecidableEq ι] {caller : ι → CallerPc} {i : ι} {pc : CallerPc} {s : System ι η}

theorem caller_update {p : CallerPc → Prop}
    (hpc : p pc → p (caller i)) (j : ι) (hj : p (update caller i pc j)) : p (caller j) := by
  rcases eq_or_ne j i with rfl | hne
  · rw [update_self] at hj
    exact hpc hj
  · rw [update_of_ne hne] at hj
    exact hj

theorem of_update {f : CallerPc → Option ℕ}
    (hpc : ∀ id, f pc = some id → f (caller i) = some id) (j : ι) (id : ℕ)
    (hj : f (update caller i pc j) = some id) : f (caller j) = some id :=
  caller_update (p := fun pc => f pc = some id) (hpc id) j hj

theorem Ledger.alloc (h : Ledger s) (i : ι) (c : LogCall) (old : LogMsg) :
    Ledger (s.stepAlloc i c (some old)) := by
  have hnew : Block.record s.next ∉ s.allocated := fun hmem =>
    Nat.lt_irrefl _ ((h.record_iff _).mp hmem)
  refine ⟨?_, ?_, ?_, ?_, ?_, ?_, h.released_eq, h.misused_eq⟩
  · exact nodup_append.mpr ⟨h.nodup, by simp, fun x hx y hy hxy =>
      hnew (mem_singleton.mp hy ▸ hxy ▸ hx)⟩
  · intro id
    change _ ∈ s.allocated ++ [Block.record s.next] ↔ id < s.next + 1
    rw [mem_append, h.record_iff, mem_singleton, Block.record.injEq]
    omega
  · intro id hid
    change _ ∈ s.allocated ++ [Block.record s.next] at hid
    rw [mem_append, mem_singleton] at hid
    rcases hid with hid | hid
    · exact Nat.lt_succ_of_lt (h.payload_lt id hid)
    · cases hid
  · intro j id hj hmem
    change _ ∈ s.allocated ++ [Block.record s.next] at hmem
    change withoutPayload (update s.caller i (.fill s.next c) j) = some id at hj
    rw [mem_append, mem_singleton] at hmem
    rcases hmem with hmem | hmem
    · rcases eq_or_ne j i with rfl | hne
      · rw [update_self] at hj
        cases hj
        exact Nat.lt_irrefl _ (h.payload_lt _ hmem)
      · rw [update_of_ne hne] at hj
        exact h.bare j id hj hmem
    · cases hmem
  · intro j id hj
    exact mem_append_left _ (h.filled j id (of_update (fun id' hid' => by cases hid') j id hj))
  · intro id hid
    exact mem_append_left _ (h.accepted id hid)

theorem Ledger.payload (h : Ledger s) (ho : Owned s) {id : ℕ}
    {c : LogCall} (hpc : s.caller i = .payload id c) (hlive : s.live (.record id)) :
    Ledger (s.stepPayload i id c) := by
  have hbare : withoutPayload (s.caller i) = some id := by rw [hpc]; rfl
  have hid := ho.lt i id (held_of_withoutPayload hbare)
  refine ⟨?_, ?_, ?_, ?_, ?_, ?_, h.released_eq, ?_⟩
  · exact nodup_append.mpr ⟨h.nodup, by simp, fun x hx y hy hxy =>
      h.bare i id hbare (mem_singleton.mp hy ▸ hxy ▸ hx)⟩
  · intro id'
    change _ ∈ s.allocated ++ [Block.payload id] ↔ id' < s.next
    rw [mem_append, h.record_iff, mem_singleton]
    simp
  · intro id' hmem
    change _ ∈ s.allocated ++ [Block.payload id] at hmem
    rw [mem_append, mem_singleton, Block.payload.injEq] at hmem
    rcases hmem with hmem | rfl
    · exact h.payload_lt id' hmem
    · exact hid
  · intro j id' hj hmem
    change _ ∈ s.allocated ++ [Block.payload id] at hmem
    have hold := of_update (f := withoutPayload) (fun id' hid' => by cases hid') j id' hj
    rw [mem_append, mem_singleton, Block.payload.injEq] at hmem
    rcases hmem with hmem | rfl
    · exact h.bare j id' hold hmem
    · -- another thread does not have this message
      obtain rfl := ho.unique j i id' (held_of_withoutPayload hold) (held_of_withoutPayload hbare)
      change withoutPayload (update s.caller j (.send id') j) = some id' at hj
      rw [update_self] at hj
      cases hj
  · intro j id' hj
    change withPayload (update s.caller i (.send id) j) = some id' at hj
    rcases eq_or_ne j i with rfl | hne
    · rw [update_self] at hj
      cases hj
      exact mem_append_right _ (mem_singleton_self _)
    · rw [update_of_ne hne] at hj
      exact mem_append_left _ (h.filled j id' hj)
  · intro id' hmem
    exact mem_append_left _ (h.accepted id' hmem)
  · exact (if_pos hlive).trans h.misused_eq

variable {s' : System ι η}

theorem Ledger.goto (h : Ledger s) (hcaller : s'.caller = update s.caller i pc)
    (hbare : ∀ id, withoutPayload pc = some id → withoutPayload (s.caller i) = some id)
    (hfilled : ∀ id, withPayload pc = some id → withPayload (s.caller i) = some id)
    (hmsg : messages s'.chan = messages s.chan) (halloc : s'.allocated = s.allocated)
    (hnext : s'.next = s.next) (hhandled : s'.handled = s.handled)
    (hcons : s'.consumer = s.consumer) (hrel : s'.released = s.released)
    (hmis : s'.misused = []) : Ledger s' := by
  refine h.keep halloc hnext (fun id hid => h.accepted id (hmsg ▸ hid)) ?_ ?_ ?_ hmis
  · rw [hcaller]
    exact of_update hbare
  · rw [hcaller]
    exact of_update hfilled
  · rw [hrel, hhandled, hcons]
    exact h.released_eq

theorem Ledger.leave (h : Ledger s) (hcaller : s'.caller = update s.caller i pc)
    (hbare : withoutPayload pc = none) (hfilled : withPayload pc = none)
    (hmsg : messages s'.chan = messages s.chan) (halloc : s'.allocated = s.allocated)
    (hnext : s'.next = s.next) (hhandled : s'.handled = s.handled)
    (hcons : s'.consumer = s.consumer) (hrel : s'.released = s.released)
    (hmis : s'.misused = []) : Ledger s' := by
  refine h.goto hcaller (fun id hid => ?_) (fun id hid => ?_) hmsg halloc hnext hhandled hcons hrel
    hmis
  · rw [hbare] at hid
    cases hid
  · rw [hfilled] at hid
    cases hid

section Live

variable {k id : ℕ} (h : Ledger s) (hf : FifoInv k s.chan) (hl : Linked s) (ho : Owned s)
include h hf hl ho

theorem Ledger.fill {c : LogCall} (hpc : s.caller i = .fill id c) (now : Stamp) :
    Ledger (s.stepFill i id c now) := by
  have hbare : withoutPayload (s.caller i) = some id := by rw [hpc]; rfl
  refine h.goto rfl (fun id' hid => ?_) (fun id' hid => by cases hid) rfl rfl rfl rfl rfl rfl ?_
  · rw [hbare]
    exact hid
  · exact (if_pos (h.live_held hf hl ho (held_of_withoutPayload hbare))).trans h.misused_eq

theorem Ledger.turn {n : ℕ} (hcons : s.consumer = .writing id n) (x : η) :
    Ledger (s.stepTurn id n x) := by
  have hw : working s.consumer = some id := by rw [hcons]; rfl
  obtain ⟨hrec, hpay⟩ := h.live_working hf hl ho hw
  have hpay := hpay (by rw [hcons]; exact fun he => by cases he)
  refine h.quiet rfl rfl rfl rfl ?_ ?_
  · have hrel := h.released_eq
    rw [hcons] at hrel
    exact hrel
  · have huse : (s.use (.record id)).misused = [] := (if_pos hrec).trans h.misused_eq
    change (if _ then if s.live (.payload id) then (s.use (.record id)).misused else _
      else (s.use (.record id)).misused) = []
    rw [if_pos hpay, huse, ite_self]

theorem Ledger.freePayload (hcons : s.consumer = .freePayload id) :
    Ledger { s.use (.record id) with
      released := s.released ++ [.payload id], consumer := .freeMsg id } := by
  have hw : working s.consumer = some id := by rw [hcons]; rfl
  obtain ⟨hrec, _⟩ := h.live_working hf hl ho hw
  refine h.quiet rfl rfl rfl rfl ?_ ((if_pos hrec).trans h.misused_eq)
  have hrel := h.released_eq
  rw [hcons] at hrel
  change s.released = _ ++ [] at hrel
  rw [append_nil] at hrel
  exact congrArg (· ++ [Block.payload id]) hrel

end Live

theorem Ledger.writing {spurious : Bool} {chan : ChannelSteps.State ι (Option ℕ)} (h : Ledger s)
    (hl : Linked s) (hc : s.chan.step (.writer i spurious) = some chan) :
    Ledger { s with chan := chan } := by
  obtain ⟨data, hin, heff, _⟩ := hl.writer hc
  refine h.keep rfl rfl ?_ (fun _ _ hi => hi) (fun _ _ hi => hi) h.released_eq h.misused_eq
  intro id hid
  cases heff with
  | quiet _ _ hmsg | finish _ _ hmsg => exact h.accepted id (hmsg ▸ hid)
  | publish _ _ hmsg =>
    have hid' : some id ∈ messages s.chan ++ [data] := hmsg ▸ hid
    rw [mem_append, mem_singleton] at hid'
    rcases hid' with hid' | rfl
    · exact h.accepted id hid'
    · apply h.filled i id
      cases hpc : s.caller i with
      | sending id' =>
        rw [hpc] at hin
        exact Option.some.inj hin
      | _ => rw [hpc] at hin; cases hin

theorem Ledger.received {chan : ChannelSteps.State ι (Option ℕ)} (h : Ledger s) (hl : Linked s)
    (hc : s.chan.step .reader = some chan) (data : Option ℕ) :
    Ledger ({ s with chan := chan }.received data) := by
  obtain ⟨_, hmsg, _, _⟩ := reader_eq hc
  refine h.quiet rfl hmsg rfl rfl ?_ h.misused_eq
  have hrel := h.released_eq
  rw [hl.reading_of_reader hc] at hrel
  cases data <;> exact hrel

variable [DecidableEq η]

theorem Ledger.step {k : ℕ} {e : Event ι η} (h : Ledger s)
    (hf : FifoInv k s.chan) (hl : Linked s) (ho : Owned s) (hs : s.Step e s') : Ledger s' := by
  cases hs with
  | drop => exact h
  | config c => exact h.quiet rfl rfl rfl rfl h.released_eq h.misused_eq
  | enter hpc | noMemory hpc | destroy hpc | join hpc =>
    exact h.leave rfl rfl rfl rfl rfl rfl rfl rfl rfl h.misused_eq
  | alloc old hpc => exact h.alloc _ _ old
  | fill now hpc => exact h.fill hf hl ho hpc now
  | payload hpc =>
    exact h.payload ho hpc (h.live_held hf hl ho (held_of_withoutPayload (by rw [hpc]; rfl)))
  | send hpc hc =>
    obtain ⟨_, rfl⟩ := write_eq hc
    refine h.goto rfl (fun id hid => by cases hid) (fun id hid => ?_) rfl rfl rfl rfl rfl rfl
      h.misused_eq
    rw [hpc]
    exact hid
  | marker hpc hc =>
    obtain ⟨_, rfl⟩ := write_eq hc
    exact h.leave rfl rfl rfl rfl rfl rfl rfl rfl rfl h.misused_eq
  | writing hc hbusy => exact h.writing hl hc
  | written hc hidle =>
    obtain ⟨hmsg, ⟨id, ret, _, _, he⟩ | ⟨ret, _, _, he⟩⟩ := hl.finish hc hidle <;>
    · rw [he]
      exact h.leave rfl rfl rfl hmsg rfl rfl rfl rfl rfl h.misused_eq
  | read hcons hc =>
    obtain rfl := read_eq hc
    exact h.quiet rfl rfl rfl rfl h.released_eq h.misused_eq
  | turn hcons hh => exact h.turn hf hl ho hcons _
  | loopEnd hcons =>
    refine h.quiet rfl rfl rfl rfl ?_ h.misused_eq
    have hrel := h.released_eq
    rw [hcons] at hrel
    exact hrel
  | freePayload hcons => exact h.freePayload hf hl ho hcons
  | freeMsg hcons => exact h.freeMsg hcons
  | reader hc hno =>
    obtain ⟨_, hmsg, _, _⟩ := reader_eq hc
    exact h.quiet rfl hmsg rfl rfl h.released_eq h.misused_eq
  | received hc hpc => exact h.received hl hc _
  | interrupt hc =>
    obtain ⟨_, pc, rfl⟩ := interrupt_eq hc
    exact h.quiet rfl rfl rfl rfl h.released_eq h.misused_eq

end Steps

section Runs

variable [DecidableEq ι]

structure Inv (k : ℕ) (s : System ι η) : Prop where
  fifo : FifoInv k s.chan
  linked : Linked s
  owned : Owned s
  ledger : Ledger s

variable {k : ℕ} {e : Event ι η}

omit [DecidableEq ι] in
theorem start_linked (chan : Channel (Option ℕ)) (handler : η → LogHandler) (msg : ℕ → LogMsg)
    (call : ℕ → LogCall) : Linked (System.start chan handler msg call : System ι η) :=
  ⟨fun _ => rfl, fun hne => absurd rfl hne, rfl⟩

omit [DecidableEq ι] in
theorem start_owned (chan : Channel (Option ℕ)) (handler : η → LogHandler) (msg : ℕ → LogMsg)
    (call : ℕ → LogCall) : Owned (System.start chan handler msg call : System ι η) where
  lt _ _ hi := by cases hi
  fresh _ _ hi := by cases hi
  unique _ _ _ hi := by cases hi
  known _ hid := absurd hid not_mem_nil
  nodup := nodup_nil

theorem start_inv {capacity : BitVec 32} {chan : Channel (Option ℕ)}
    (h : Channel.Fresh capacity none 0#32 k chan) (hk : 2 ≤ k) (handler : η → LogHandler)
    (msg : ℕ → LogMsg) (call : ℕ → LogCall) :
    Inv k (System.start chan handler msg call : System ι η) where
  fifo := ChannelFifo.start_fifo h hk (.inl (h.fnWrite_eq.trans rfl))
  linked := start_linked chan handler msg call
  owned := start_owned chan handler msg call
  ledger :=
    { nodup := nodup_nil
      record_iff := fun _ => iff_of_false not_mem_nil (Nat.not_lt_zero _)
      payload_lt := fun _ hid => absurd hid not_mem_nil
      bare := fun _ _ hi => by cases hi
      filled := fun _ _ hi => by cases hi
      accepted := fun _ hid => absurd hid not_mem_nil
      released_eq := rfl
      misused_eq := rfl }

variable [DecidableEq η]

private theorem fifo_step {s s' : System ι η} (h : FifoInv k s.chan)
    (hl : Linked s) (hs : s.Step e s') : FifoInv k s'.chan := by
  cases hs with
  | send hpc hc | marker hpc hc | writing hc hbusy | read hcons hc | reader hc hno
  | received hc hpc | interrupt hc => exact step_fifo h hc
  | written hc hidle =>
    obtain ⟨_, ⟨id, ret, _, _, he⟩ | ⟨ret, _, _, he⟩⟩ := hl.finish hc hidle <;> rw [he] <;>
      exact step_fifo h hc
  | _ => exact h

theorem Inv.step {s s' : System ι η} (h : Inv k s) (he : s.step e = some s') : Inv k s' := by
  obtain ⟨_, hs⟩ := System.step_cases he
  exact ⟨fifo_step h.fifo h.linked hs, h.linked.step hs, h.owned.step h.linked hs,
    h.ledger.step h.fifo h.linked h.owned hs⟩

end Runs

end MuggleC.Log.AsyncLogger
