/- source: log/log_async_logger.c, log/log_logger.c, sync/channel.c
   digest: Which handlers have had their turn with a message of the async logger, and that its thread
   can work off every message that comes before the marker. -/

import MuggleC.Log.AsyncRuns

set_option autoImplicit false

namespace MuggleC.Log.AsyncLogger

open Base Foundation.Transition Sync
open Sync.ChannelLock (move_framed)
open Sync.ChannelFifo (messages)
open Sync.ChannelEffects Function List AsyncLogger.System Option

section Turns

variable {ι η : Type}

def filling : CallerPc → Option (ℕ × LogCall)
  | .fill id c => some (id, c)
  | _ => none

structure Levelled (s : System ι η) : Prop where
  calls : ∀ i id c, filling (s.caller i) = some (id, c) → s.call id = c
  levels : ∀ id, id < s.next → (∀ i c, filling (s.caller i) ≠ some (id, c)) →
    (s.msg id).level = (s.call id).level

variable {s s' : System ι η} {id : ℕ}

theorem Levelled.keep (h : Levelled s) (hnext : s'.next = s.next)
    (hcall : s'.call = s.call) (hmsg : ∀ id, (s'.msg id).level = (s.msg id).level)
    (hpc : ∀ i, filling (s'.caller i) = filling (s.caller i)) : Levelled s' where
  calls i id c hi := hcall ▸ h.calls i id c (hpc i ▸ hi)
  levels id hid hno := by
    rw [hmsg, hcall]
    exact h.levels id (hnext ▸ hid) fun i c => hpc i ▸ hno i c

theorem Levelled.accepted (h : Levelled s) (ho : Owned s)
    (hid : some id ∈ messages s.chan) : (s.msg id).level = (s.call id).level := by
  refine h.levels id (ho.known id hid) fun i c hi => ?_
  apply ho.fresh i id _ hid
  cases hcall : s.caller i <;> rw [hcall] at hi <;> cases hi
  rw [held, hcall]
  rfl

section Steps

variable [DecidableEq ι] {i : ι} {s : System ι η} {c : LogCall}

private theorem filling_update {caller : ι → CallerPc} {pc : CallerPc}
    (hpc : filling pc = filling (caller i)) (j : ι) :
    filling (update caller i pc j) = filling (caller j) := by
  rcases eq_or_ne j i with rfl | hne
  · rw [update_self, hpc]
  · rw [update_of_ne hne]

theorem Levelled.alloc (h : Levelled s) (ho : Owned s)
    (hpc : s.caller i = .alloc c) (old : LogMsg) : Levelled (s.stepAlloc i c (some old)) := by
  have hother : ∀ j id d, filling (s.caller j) = some (id, d) → id < s.next := by
    intro j id d hj
    apply ho.lt j
    cases hcall : s.caller j <;> rw [hcall] at hj <;> cases hj
    rw [held, hcall]
    rfl
  constructor
  · intro j id d hj
    simp only [stepAlloc, goto] at hj ⊢
    rcases eq_or_ne j i with rfl | hne
    · rw [update_self] at hj
      cases hj
      exact update_self _ _ _
    · rw [update_of_ne hne] at hj
      rw [update_of_ne (Nat.ne_of_lt (hother j id d hj))]
      exact h.calls j id d hj
  · intro id hid hno
    simp only [stepAlloc, goto] at hid hno ⊢
    have hne : id ≠ s.next := by
      rintro rfl
      apply hno i c
      rw [update_self]
      rfl
    rw [update_of_ne hne, update_of_ne hne]
    refine h.levels id (by omega) fun j d hj => ?_
    have hji : j ≠ i := by
      rintro rfl
      rw [hpc] at hj
      cases hj
    apply hno j d
    rw [update_of_ne hji]
    exact hj

theorem Levelled.fill (h : Levelled s) {id : ℕ}
    (hpc : s.caller i = .fill id c) (now : Stamp) : Levelled (s.stepFill i id c now) := by
  have hc : s.call id = c := h.calls i id c (by rw [hpc]; rfl)
  constructor
  · intro j id' d hj
    refine h.calls j id' d (caller_update (p := fun pc => filling pc = some (id', d)) ?_ j hj)
    intro he
    cases he
  · intro id' hid hno
    simp only [stepFill, goto, use] at hid hno ⊢
    rcases eq_or_ne id' id with rfl | hne
    · rw [update_self, hc]
    · rw [update_of_ne hne]
      refine h.levels id' hid fun j d hj => ?_
      have hji : j ≠ i := by
        rintro rfl
        rw [hpc] at hj
        exact hne (congrArg Prod.fst (Option.some.inj hj)).symm
      apply hno j d
      rw [update_of_ne hji]
      exact hj

variable [DecidableEq η]

theorem Levelled.step {s' : System ι η} {e : Event ι η} (h : Levelled s) (hl : Linked s)
    (ho : Owned s) (hs : s.Step e s') : Levelled s' := by
  cases hs with
  | alloc old hpc => exact h.alloc ho hpc old
  | fill now hpc => exact h.fill hpc now
  | @payload i id c hpc =>
    have hfill : filling (.send id) = filling (s.caller i) := by rw [hpc]; rfl
    refine h.keep rfl rfl (fun id' => ?_) (filling_update hfill)
    simp only [stepPayload, goto, use]
    rcases eq_or_ne id' id with rfl | hne
    · rw [update_self]
    · rw [update_of_ne hne]
  | enter hpc | noMemory hpc | destroy hpc | send hpc | marker hpc | join hpc =>
    exact h.keep rfl rfl (fun _ => rfl) (filling_update (by rw [hpc]; rfl))
  | written hc hidle =>
    obtain ⟨_, ⟨id, ret, hpc, _, he⟩ | ⟨ret, hpc, _, he⟩⟩ := hl.finish hc hidle <;> rw [he] <;>
      exact h.keep rfl rfl (fun _ => rfl) (filling_update (by rw [hpc]; rfl))
  | _ => exact h.keep rfl rfl (fun _ => rfl) fun _ => rfl

end Steps

def turnsOf (s : System ι η) (id : ℕ) : List (Turn η) := s.turns.filter fun t => t.id = id

def Through (s : System ι η) (id : ℕ) : Prop :=
  id ∈ s.handled ∨ s.consumer = .freePayload id ∨ s.consumer = .freeMsg id

structure Turned (s : System ι η) : Prop where
  recorded : ∀ t ∈ s.turns, t.id < s.next ∧ (t.written = true ↔ t.level ≤ (s.call t.id).level)
  untouched : ∀ id, id ∉ s.handled → working s.consumer ≠ some id → turnsOf s id = []
  taken : ∀ id n, s.consumer = .writing id n →
    n ≤ s.setup.logger.handlers.length ∧
      (turnsOf s id).map Turn.handler = s.setup.logger.handlers.take n
  through : ∀ id, Through s id → (turnsOf s id).map Turn.handler <+: s.setup.logger.handlers

theorem start_turned (chan : Channel (Option ℕ)) (handler : η → LogHandler) (msg : ℕ → LogMsg)
    (call : ℕ → LogCall) : Turned (start chan handler msg call : System ι η) where
  recorded _ ht := absurd ht not_mem_nil
  untouched _ _ _ := rfl
  taken _ _ hcons := by cases hcons
  through id ht := by
    rcases ht with ht | ht | ht
    · exact absurd ht not_mem_nil
    · cases ht
    · cases ht

theorem Turned.keep (h : Turned s) (hturns : s'.turns = s.turns)
    (hcons : s'.consumer = s.consumer) (hhandled : s'.handled = s.handled)
    (hnext : s.next ≤ s'.next) (hcall : ∀ id, id < s.next → s'.call id = s.call id)
    (hhandlers : s.setup.logger.handlers <+: s'.setup.logger.handlers) : Turned s' := by
  have hof : ∀ id, turnsOf s' id = turnsOf s id := fun id => by rw [turnsOf, hturns, turnsOf]
  refine ⟨?_, ?_, ?_, ?_⟩
  · intro t ht
    obtain ⟨hlt, hw⟩ := h.recorded t (hturns ▸ ht)
    rw [hcall t.id hlt]
    exact ⟨Nat.lt_of_lt_of_le hlt hnext, hw⟩
  · intro id hid hw
    rw [hof]
    exact h.untouched id (hhandled ▸ hid) (hcons ▸ hw)
  · intro id n hn
    obtain ⟨hle, htake⟩ := h.taken id n (hcons ▸ hn)
    rw [hof, htake]
    obtain ⟨rest, hrest⟩ := hhandlers
    rw [← hrest, length_append, take_append_of_le_length hle]
    exact ⟨by omega, rfl⟩
  · intro id ht
    rw [hof]
    rw [Through, hhandled, hcons] at ht
    exact (h.through id ht).trans hhandlers

private theorem turnsOf_append (s : System ι η) (id : ℕ) (ts : List (Turn η)) (t : Turn η)
    (hts : s.turns = ts ++ [t]) :
    turnsOf s id = ts.filter (fun t => t.id = id) ++ if t.id = id then [t] else [] := by
  rw [turnsOf, hts, filter_append, filter_singleton]
  by_cases he : t.id = id <;> simp [he]

theorem Turned.move (h : Turned s) (hturns : s'.turns = s.turns)
    (hsetup : s'.setup = s.setup) (hnext : s'.next = s.next) (hcall : s'.call = s.call)
    (huntouched : ∀ id, id ∉ s'.handled → working s'.consumer ≠ some id →
      id ∉ s.handled ∧ working s.consumer ≠ some id)
    (htaken : ∀ id n, s'.consumer = .writing id n → n = 0 ∧ turnsOf s id = [])
    (hthrough : ∀ id, Through s' id → Through s id ∨ ∃ n, s.consumer = .writing id n) :
    Turned s' := by
  have hof : ∀ id, turnsOf s' id = turnsOf s id := fun id => by rw [turnsOf, hturns, turnsOf]
  refine ⟨?_, ?_, ?_, ?_⟩
  · intro t ht
    rw [hnext, hcall]
    exact h.recorded t (hturns ▸ ht)
  · intro id hid hw
    obtain ⟨hid, hw⟩ := huntouched id hid hw
    exact (hof id).trans (h.untouched id hid hw)
  · intro id n hn
    obtain ⟨rfl, hnil⟩ := htaken id n hn
    rw [hof, hnil]
    exact ⟨Nat.zero_le _, rfl⟩
  · intro id ht
    rw [hof, hsetup]
    rcases hthrough id ht with ht | ⟨n, hn⟩
    · exact h.through id ht
    · rw [(h.taken id n hn).2]
      exact take_prefix _ _

theorem Turned.turn [DecidableEq ι] {k : ℕ} (h : Turned s) (hi : Inv k s)
    (hlev : Levelled s) {n : ℕ} {x : η} (hcons : s.consumer = .writing id n)
    (hx : s.setup.logger.handlers[n]? = some x) : Turned (s.stepTurn id n x) := by
  have hw : working s.consumer = some id := by rw [hcons]; rfl
  obtain ⟨hmem, hnew⟩ := working_spec hi.fifo hi.linked hi.owned hw
  have hother : ∀ id', id' ≠ id → turnsOf (s.stepTurn id n x) id' = turnsOf s id' := by
    intro id' hne
    rw [turnsOf_append _ id' s.turns _ rfl, if_neg (fun he => hne he.symm), append_nil, turnsOf]
  refine ⟨?_, ?_, ?_, ?_⟩
  · intro t ht
    rcases mem_append.mp ht with ht | ht
    · exact h.recorded t ht
    · obtain rfl := mem_singleton.mp ht
      refine ⟨hi.owned.known id hmem, ?_⟩
      change _ ↔ _ ≤ (s.call id).level
      rw [← hlev.accepted hi.owned hmem]
      exact shouldWrite_iff
  · intro id' hid hw'
    have hne : id' ≠ id := fun he => hw' (he ▸ rfl)
    rw [hother id' hne]
    refine h.untouched id' hid ?_
    rw [hw]
    exact fun he => hne (Option.some.inj he).symm
  · intro id' m hm
    obtain ⟨rfl, rfl⟩ := ConsumerPc.writing.inj hm
    rw [turnsOf_append _ id s.turns _ rfl, if_pos rfl, map_append]
    change _ ∧ (turnsOf s id).map Turn.handler ++ [x] = s.setup.logger.handlers.take (n + 1)
    rw [(h.taken id n hcons).2, List.take_add_one, hx]
    exact ⟨(List.getElem?_eq_some_iff.mp hx).1, rfl⟩
  · rintro id' (hid | hid | hid)
    · have hne : id' ≠ id := fun he => hnew (he ▸ hid)
      rw [hother id' hne]
      exact h.through id' (.inl hid)
    · cases hid
    · cases hid

section Configure

variable [DecidableEq η]

theorem handlers_configure (s : Setup η) (async : Bool) (c : Config η) :
    s.logger.handlers <+: (s.configure async c).logger.handlers := by
  cases c with
  | addHandler h =>
    have hadd : s.logger.handlers <+: (s.logger.addHandler h (s.handler h)).2.handlers := by
      unfold Logger.addHandler
      split
      · exact prefix_rfl
      · exact prefix_append _ _
    unfold Setup.configure
    dsimp only
    split <;> exact hadd
  | setLevel h level | setFmt h fmt => exact prefix_rfl

variable [DecidableEq ι]

theorem Turned.step {k : ℕ} {s s' : System ι η} {e : Event ι η} (h : Turned s) (hi : Inv k s)
    (hlev : Levelled s) (hi' : Inv k s') (hs : s.Step e s') : Turned s' := by
  cases hs with
  | config c => exact h.keep rfl rfl rfl le_rfl (fun _ _ => rfl) (handlers_configure s.setup true c)
  | alloc old hpc =>
    refine h.keep rfl rfl rfl (Nat.le_succ _) (fun id hid => ?_) prefix_rfl
    exact update_of_ne (Nat.ne_of_lt hid) _ _
  | written hc hidle =>
    obtain ⟨_, ⟨id, ret, hpc, _, he⟩ | ⟨ret, hpc, _, he⟩⟩ := hi.linked.finish hc hidle <;> rw [he] <;>
      exact h.keep rfl rfl rfl le_rfl (fun _ _ => rfl) prefix_rfl
  | turn hcons hh => exact h.turn hi hlev hcons hh
  | @loopEnd id n hcons hh =>
    refine h.move rfl rfl rfl rfl ?_ (fun _ _ hn => by cases hn) ?_
    · intro id' hid hw
      rw [hcons]
      exact ⟨hid, hw⟩
    · rintro id' (hid | hid | hid)
      · exact .inl (.inl hid)
      · obtain rfl := ConsumerPc.freePayload.inj hid
        exact .inr ⟨n, hcons⟩
      · cases hid
  | @freePayload id hcons =>
    refine h.move rfl rfl rfl rfl ?_ (fun _ _ hn => by cases hn) ?_
    · intro id' hid hw
      rw [hcons]
      exact ⟨hid, hw⟩
    · rintro id' (hid | hid | hid)
      · exact .inl (.inl hid)
      · cases hid
      · obtain rfl := ConsumerPc.freeMsg.inj hid
        exact .inl (.inr (.inl hcons))
  | @freeMsg id hcons =>
    refine h.move rfl rfl rfl rfl ?_ (fun _ _ hn => by cases hn) ?_
    · intro id' hid _
      rw [mem_append, mem_singleton, not_or] at hid
      rw [hcons]
      exact ⟨hid.1, fun he => hid.2 (Option.some.inj he).symm⟩
    · rintro id' (hid | hid | hid)
      · rcases mem_append.mp hid with hid | hid
        · exact .inl (.inl hid)
        · obtain rfl := mem_singleton.mp hid
          exact .inl (.inr (.inr hcons))
      · cases hid
      · cases hid
  | @received data r c hc hpc =>
    have hcons := hi.linked.reading_of_reader hc
    have hidle : ∀ id, working s.consumer ≠ some id := by
      intro id
      rw [hcons]
      exact fun he => by cases he
    refine h.move rfl rfl rfl rfl (fun id hid _ => ⟨hid, hidle id⟩) ?_ ?_
    · intro id n hn
      cases data with
      | none => cases hn
      | some id' =>
        obtain ⟨rfl, rfl⟩ := ConsumerPc.writing.inj hn
        have hnew := (working_spec hi'.fifo hi'.linked hi'.owned rfl).2
        exact ⟨rfl, h.untouched id' hnew (hidle id')⟩
    · rintro id (hid | hid | hid)
      · exact .inl (.inl hid)
      · cases data <;> cases hid
      · cases data <;> cases hid
  | _ => exact h.keep rfl rfl rfl le_rfl (fun _ _ => rfl) prefix_rfl

end Configure

structure Serving (hs : List η) (id : ℕ) (s : System ι η) : Prop where
  added : hs <+: s.setup.logger.handlers
  served : Through s id → hs <+: (turnsOf s id).map Turn.handler

theorem Serving.keep {hs : List η} (h : Serving hs id s)
    (hhandlers : s.setup.logger.handlers <+: s'.setup.logger.handlers)
    (hturns : s.turns <+: s'.turns)
    (hthrough : Through s' id → Through s id) : Serving hs id s' where
  added := h.added.trans hhandlers
  served ht := (h.served (hthrough ht)).trans ((hturns.filter _).map _)

section Serving

variable [DecidableEq ι] [DecidableEq η]

theorem Serving.step {hs : List η} {id : ℕ} {s s' : System ι η} {e : Event ι η}
    (h : Serving hs id s) (ht : Turned s) (hl : Linked s) (hstep : s.Step e s') :
    Serving hs id s' := by
  cases hstep with
  | config c => exact h.keep (handlers_configure s.setup true c) prefix_rfl fun ht => ht
  | written hc hidle =>
    obtain ⟨_, ⟨id, ret, hpc, _, he⟩ | ⟨ret, hpc, _, he⟩⟩ := hl.finish hc hidle <;> rw [he] <;>
      exact h.keep prefix_rfl prefix_rfl fun ht => ht
  | turn hcons hh =>
    refine h.keep prefix_rfl (prefix_append _ _) ?_
    rintro (hid | hid | hid)
    · exact .inl hid
    · cases hid
    · cases hid
  | @loopEnd id' n hcons hh =>
    refine ⟨h.added, ?_⟩
    rintro (hid | hid | hid)
    · exact h.served (.inl hid)
    · -- the loop has gone over all handlers
      obtain rfl := ConsumerPc.freePayload.inj hid
      have hall := (ht.taken id' n hcons).2
      rw [take_of_length_le (getElem?_eq_none_iff.mp hh)] at hall
      change hs <+: (turnsOf s id').map Turn.handler
      rw [hall]
      exact h.added
    · cases hid
  | freePayload hcons =>
    refine h.keep prefix_rfl prefix_rfl ?_
    rintro (hid | hid | hid)
    · exact .inl hid
    · cases hid
    · obtain rfl := ConsumerPc.freeMsg.inj hid
      exact .inr (.inl hcons)
  | freeMsg hcons =>
    refine h.keep prefix_rfl prefix_rfl ?_
    rintro (hid | hid | hid)
    · rcases mem_append.mp hid with hid | hid
      · exact .inl hid
      · obtain rfl := mem_singleton.mp hid
        exact .inr (.inr hcons)
    · cases hid
    · cases hid
  | @received data r c hc hpc =>
    refine h.keep prefix_rfl prefix_rfl ?_
    rintro (hid | hid | hid)
    · exact .inl hid
    · cases data <;> cases hid
    · cases data <;> cases hid
  | _ => exact h.keep prefix_rfl prefix_rfl fun ht => ht

end Serving

section Runs

variable [DecidableEq ι]

structure RunInv (k : ℕ) (s : System ι η) : Prop extends Inv k s where
  levelled : Levelled s
  turned : Turned s

variable {k : ℕ}

theorem start_runInv {capacity : BitVec 32} {chan : Channel (Option ℕ)}
    (h : Channel.Fresh capacity none 0#32 k chan) (hk : 2 ≤ k) (handler : η → LogHandler)
    (msg : ℕ → LogMsg) (call : ℕ → LogCall) :
    RunInv k (start chan handler msg call : System ι η) where
  toInv := start_inv h hk handler msg call
  levelled := ⟨(fun _ _ _ hi => by cases hi), fun _ hid => absurd hid (Nat.not_lt_zero _)⟩
  turned := start_turned chan handler msg call

variable [DecidableEq η]

theorem RunInv.step {s s' : System ι η} {e : Event ι η} (h : RunInv k s)
    (he : s.step e = some s') : RunInv k s' := by
  have hi' := h.toInv.step he
  obtain ⟨_, hs⟩ := step_cases he
  exact ⟨hi', h.levelled.step h.linked h.owned hs, h.turned.step h.toInv h.levelled hi' hs⟩

theorem served_of_run {u s : System ι η} {events : List (Event ι η)} (hu : RunInv k u)
    (hr : run step u events = some s) {id : ℕ} (hnot : ¬ Through u id) (ht : Through s id) :
    u.setup.logger.handlers <+: (turnsOf s id).map Turn.handler := by
  have hinv : RunInv k s ∧ Serving u.setup.logger.handlers id s := by
    refine run_invariant (I := fun s => RunInv k s ∧ Serving u.setup.logger.handlers id s) ?_
      ⟨hu, prefix_rfl, fun h => absurd h hnot⟩ hr
    rintro s e s' ⟨h, hserve⟩ he
    exact ⟨h.step he, hserve.step h.turned h.linked (step_cases he).2⟩
  exact hinv.2.served ht

end Runs

end Turns

variable {ι η : Type} [DecidableEq ι] {s₀ s t : System ι η} {e : Event ι η}
  {c : ChannelSteps.State ι (Option ℕ)} {k p : ℕ}

structure Ahead (k p : ℕ) (s₀ s : System ι η) : Prop where
  inv : Inv k s
  destroy_eq : s.destroy = s₀.destroy
  kept : messages s₀.chan <+: messages s.chan
  callers : ∀ i, inChannel (s₀.caller i) = none → s.caller i = s₀.caller i
  le : s.handled.length ≤ p

theorem Ahead.open (h : Ahead k p s₀ s) (hopen : ∀ n, s₀.destroy ≠ .returned n) :
    ∀ n, s.destroy ≠ .returned n := h.destroy_eq ▸ hopen

theorem stepWriter_spec (h : Linked s) {j : ι} (hc : s.chan.step (.writer j false) = some c) :
    ∃ t, s.stepWriter j false = some t ∧ t.chan = c ∧ t.destroy = s.destroy ∧
      t.handled = s.handled ∧ t.consumer = s.consumer ∧
      ∀ i, inChannel (s.caller i) = none → t.caller i = s.caller i := by
  obtain ⟨data, hin, _, _⟩ := h.writer hc
  have hne : ∀ i, inChannel (s.caller i) = none → i ≠ j := by
    rintro i hi rfl
    rw [hi] at hin
    cases hin
  rw [stepWriter, hc]
  refine ⟨_, rfl, ?_⟩
  dsimp only
  split
  · next hidle =>
    obtain ⟨_, ⟨_, _, _, _, he⟩ | ⟨_, _, _, he⟩⟩ := h.finish hc hidle <;> rw [he] <;>
      exact ⟨rfl, rfl, rfl, rfl, fun i hi => Function.update_of_ne (hne i hi) _ _⟩
  · exact ⟨rfl, rfl, rfl, rfl, fun _ _ => rfl⟩

theorem Inv.getElem?_current (h : Inv k s) {m : Option ℕ} (hcur : current s.consumer = [m]) :
    (messages s.chan)[s.handled.length]? = some m := by
  obtain ⟨rest, hrest⟩ := h.fifo.order
  rw [← hrest, h.linked.returned_eq, hcur, append_assoc,
    getElem?_append_right (by rw [length_map]), length_map, Nat.sub_self]
  rfl

theorem Ahead.getElem?_messages (h : Ahead k p s₀ s) {l : ℕ} (hl : l < (messages s₀.chan).length) :
    (messages s.chan)[l]? = (messages s₀.chan)[l]? := by
  obtain ⟨rest, hrest⟩ := h.kept
  rw [← hrest, getElem?_append_left hl]

theorem Ahead.not_exited (hp : p < (messages s₀.chan).length)
    (hno : none ∉ (messages s₀.chan).take p) (h : Ahead k p s₀ s) (hlt : s.handled.length < p) :
    s.consumer ≠ .exited := by
  intro hcons
  have hcur : current s.consumer = [none] := by rw [hcons]; rfl
  have hmark := h.inv.getElem?_current hcur
  rw [h.getElem?_messages (by omega)] at hmark
  apply hno
  apply mem_of_getElem?
  rw [getElem?_take_of_lt hlt]
  exact hmark

theorem Inv.ahead (h : Inv k s) (hle : s.handled.length ≤ p) : Ahead k p s s :=
  ⟨h, rfl, prefix_rfl, fun _ _ => rfl, hle⟩

theorem Inv.handled_le_mark (h : Inv k s) (hmark : (messages s.chan)[p]? = some none) :
    s.handled.length ≤ p := by
  by_contra hlt
  obtain ⟨rest, hrest⟩ := h.fifo.order
  rw [← hrest, h.linked.returned_eq, append_assoc,
    getElem?_append_left (by rw [length_map]; omega), getElem?_map] at hmark
  obtain ⟨id, _, hid⟩ := map_eq_some_iff.mp hmark
  cases hid

variable [DecidableEq η]

theorem messages_step {s' : System ι η} (hl : Linked s) (hs : s.Step e s') :
    messages s'.chan = messages s.chan ∨
      ∃ i data c, inChannel (s.caller i) = some data ∧ s' = { s with chan := c } ∧
        messages s'.chan = messages s.chan ++ [data] := by
  cases hl.effect hs with
  | still hcaller hwriter hmsg | calls hpc hgo hcaller hwriter hmsg | returns _ _ _ _ _ _ hmsg =>
    exact .inl hmsg
  | alloc hpc hcaller hchan | goes hpc hgo hcaller hchan => exact .inl (congrArg messages hchan)
  | writing _ hc hin heff hbusy hs =>
    subst hs
    cases heff with
    | quiet _ _ hmsg | finish _ _ hmsg => exact .inl hmsg
    | publish _ _ hmsg => exact .inr ⟨_, _, _, hin, rfl, hmsg⟩

theorem messages_grow {s' : System ι η} (hl : Linked s) (hs : s.Step e s') :
    messages s.chan <+: messages s'.chan := by
  rcases messages_step hl hs with he | ⟨i, data, c, _, _, he⟩
  · exact he ▸ prefix_rfl
  · exact he ▸ prefix_append _ _

def Own (e : Event ι η) : Prop :=
  e = .consume ∨ e = .reader ∨ (∃ j, e = .writer j false) ∨ ∃ j, e = .join j

/-- Without another call the logger can get to a state with `goal`. -/
def Reaches (goal : System ι η → Prop) (s : System ι η) : Prop :=
  ∃ (events : List (Event ι η)) (s' : System ι η), (∀ e ∈ events, Own e) ∧
    run System.step s events = some s' ∧ goal s'

variable {goal : System ι η → Prop}

theorem Reaches.here (h : goal s) : Reaches goal s :=
  ⟨[], s, fun _ he => absurd he not_mem_nil, run_nil _ _, h⟩

theorem Reaches.of_step (h : Reaches goal t) (hown : Own e)
    (he : s.step e = some t) : Reaches goal s := by
  obtain ⟨events, s', hall, hrun, hgoal⟩ := h
  exact ⟨e :: events, s', forall_mem_cons.mpr ⟨hown, hall⟩, run_of_step he hrun, hgoal⟩

theorem Reaches.then {goal' : System ι η → Prop} (h : Reaches goal s)
    (hnext : ∀ t, goal t → Reaches goal' t) : Reaches goal' s := by
  obtain ⟨events, t, hall, hrun, hgoal⟩ := h
  obtain ⟨events', u, hall', hrun', hgoal'⟩ := hnext t hgoal
  refine ⟨events ++ events', u, forall_mem_append.mpr ⟨hall, hall'⟩, ?_, hgoal'⟩
  rw [run_append, hrun]
  exact hrun'

theorem step_open (hopen : ∀ n, s.destroy ≠ .returned n) :
    s.step .consume = s.stepConsume ∧ s.step .reader = s.stepReader ∧
      ∀ j spurious, s.step (.writer j spurious) = s.stepWriter j spurious := by
  cases hd : s.destroy with
  | returned n => exact absurd hd (hopen n)
  | notCalled | called n => simp only [System.step, hd, implies_true, and_self]

theorem Ahead.consume (h : Ahead k p s₀ s) (he : s.step .consume = some t)
    (hchan : t.chan = s.chan) (hcaller : t.caller = s.caller) (hd : t.destroy = s.destroy)
    (hle : t.handled.length ≤ p) : Ahead k p s₀ t where
  inv := h.inv.step he
  destroy_eq := hd.trans h.destroy_eq
  kept := hchan ▸ h.kept
  callers i hi := (congrFun hcaller i).trans (h.callers i hi)
  le := hle

theorem Ahead.channel (h : Ahead k p s₀ s)
    (he : s.step e = some t) (hd : t.destroy = s.destroy) (hhandled : t.handled = s.handled)
    (hcaller : ∀ i, inChannel (s.caller i) = none → t.caller i = s.caller i) : Ahead k p s₀ t where
  inv := h.inv.step he
  destroy_eq := hd.trans h.destroy_eq
  kept := h.kept.trans (messages_grow h.inv.linked (step_cases he).2)
  callers i hi := by
    have hsame := h.callers i hi
    exact (hcaller i (hsame ▸ hi)).trans hsame
  le := hhandled ▸ h.le

section Current

variable (hopen : ∀ n, s₀.destroy ≠ .returned n)

include hopen

variable {id : ℕ} (h : Ahead k p s₀ s) (hlt : s.handled.length < p)

include h hlt

theorem Ahead.of_freeMsg (hcons : s.consumer = .freeMsg id) :
    Reaches (fun t => Ahead k p s₀ t ∧ t.handled = s.handled ++ [id]) s := by
  have he : s.step .consume = some { s with
      released := s.released ++ [.record id]
      handled := s.handled ++ [id]
      consumer := .reading } := by
    rw [(step_open (h.open hopen)).1, stepConsume, hcons]
  refine (Reaches.here ⟨h.consume he rfl rfl rfl ?_, rfl⟩).of_step (.inl rfl) he
  rw [length_append]
  exact hlt

theorem Ahead.of_freePayload (hcons : s.consumer = .freePayload id) :
    Reaches (fun t => Ahead k p s₀ t ∧ t.handled = s.handled ++ [id]) s := by
  have he : s.step .consume = some { s.use (.record id) with
      released := s.released ++ [.payload id], consumer := .freeMsg id } := by
    rw [(step_open (h.open hopen)).1, stepConsume, hcons]
    rfl
  exact ((h.consume he rfl rfl rfl h.le).of_freeMsg hopen hlt rfl).of_step (.inl rfl) he

theorem Ahead.of_writing {n m : ℕ}
    (hcons : s.consumer = .writing id n) (hm : s.setup.logger.handlers.length - n ≤ m) :
    Reaches (fun t => Ahead k p s₀ t ∧ t.handled = s.handled ++ [id]) s := by
  induction m generalizing s n with
  | zero =>
    have hx : s.setup.logger.handlers[n]? = none := getElem?_eq_none_iff.mpr (by omega)
    have he : s.step .consume = some { s with consumer := .freePayload id } := by
      simp only [(step_open (h.open hopen)).1, stepConsume, hcons, hx]
    exact ((h.consume he rfl rfl rfl h.le).of_freePayload hopen hlt rfl).of_step (.inl rfl) he
  | succ m ih =>
    cases hx : s.setup.logger.handlers[n]? with
    | none =>
      have hlen := getElem?_eq_none_iff.mp hx
      exact ih h hlt hcons (by omega)
    | some x =>
      have he : s.step .consume = some (s.stepTurn id n x) := by
        simp only [(step_open (h.open hopen)).1, stepConsume, hcons, hx]
      refine (ih (h.consume he rfl rfl rfl h.le) hlt rfl ?_).of_step (.inl rfl) he
      change s.setup.logger.handlers.length - (n + 1) ≤ m
      omega

theorem Ahead.of_working (hw : working s.consumer = some id) :
    Reaches (fun t => Ahead k p s₀ t ∧ t.handled = s.handled ++ [id]) s := by
  cases hcons : s.consumer with
  | writing id' n =>
    obtain rfl : id' = id := some.inj ((congrArg working hcons).symm.trans hw)
    exact h.of_writing hopen hlt hcons le_rfl
  | freePayload id' =>
    obtain rfl : id' = id := some.inj ((congrArg working hcons).symm.trans hw)
    exact h.of_freePayload hopen hlt hcons
  | freeMsg id' =>
    obtain rfl : id' = id := some.inj ((congrArg working hcons).symm.trans hw)
    exact h.of_freeMsg hopen hlt hcons
  | reading | exited => rw [hcons] at hw; cases hw

end Current

theorem Ahead.of_delivery (hopen : ∀ n, s₀.destroy ≠ .returned n) (h : Ahead k p s₀ s)
    (hcons : s.consumer = .reading) {actions : List (ChannelSteps.Event ι (Option ℕ))}
    (hall : ∀ a ∈ actions, a = .read ∨ a = .reader ∨ ∃ j, a = .writer j false)
    (hrun : run ChannelSteps.State.step s.chan actions = some c)
    (hret : c.returned ≠ s.chan.returned) :
    Reaches (fun t => Ahead k p s₀ t ∧ t.handled = s.handled ∧ t.consumer ≠ .reading) s := by
  induction actions generalizing s with
  | nil =>
    cases hrun
    exact absurd rfl hret
  | cons a actions ih =>
    rw [run_cons, bind_eq_some_iff] at hrun
    obtain ⟨c', hstep, hrun⟩ := hrun
    obtain ⟨ha, hrest⟩ := forall_mem_cons.mp hall
    obtain ⟨hconsume, hreader, hwriter⟩ := step_open (h.open hopen)
    rcases ha with rfl | rfl | ⟨j, rfl⟩
    · have he : s.step .consume = some { s with chan := c' } := by
        simp only [hconsume, stepConsume, hcons, hstep, map_some]
      have hsame : c'.returned = s.chan.returned := by
        rw [read_eq hstep]
      exact (ih (h.channel he rfl rfl fun _ _ => rfl) hcons hrest hrun (hsame ▸ hret)).of_step
        (.inl rfl) he
    · obtain ⟨_, _, hkeep, _⟩ := reader_eq hstep
      by_cases hlast : ∃ data r, s.chan.reader = .storeRead data r
      · obtain ⟨data, r, hpc⟩ := hlast
        have he : s.step .reader = some ({ s with chan := c' }.received data) := by
          simp only [hreader, stepReader, hstep, map_some, hpc]
        refine (Reaches.here ⟨h.channel he rfl rfl fun _ _ => rfl, rfl, ?_⟩).of_step
          (.inr (.inl rfl)) he
        cases data <;> exact fun hr => by cases hr
      · have hno : ∀ data r, s.chan.reader ≠ .storeRead data r := fun data r hpc =>
          hlast ⟨data, r, hpc⟩
        have he : s.step .reader = some { s with chan := c' } := by
          simp only [hreader, stepReader, hstep, map_some]
        exact (ih (h.channel he rfl rfl fun _ _ => rfl) hcons hrest hrun (hkeep hno ▸ hret)).of_step
          (.inr (.inl rfl)) he
    · have hsame : c'.returned = s.chan.returned :=
        (move_framed (move_of_writer hstep)).returned_eq
      obtain ⟨t, ht, rfl, hd, hhandled, hreading, hcaller⟩ := stepWriter_spec h.inv.linked hstep
      have he : s.step (.writer j false) = some t := (hwriter j false).trans ht
      have hgot := ih (h.channel he hd hhandled hcaller) (hreading.trans hcons) hrest hrun
        (hsame ▸ hret)
      rw [hhandled] at hgot
      exact hgot.of_step (.inr (.inr (.inl ⟨j, rfl⟩))) he

theorem Ahead.takes (hopen : ∀ n, s₀.destroy ≠ .returned n) (hp : p < (messages s₀.chan).length)
    (hno : none ∉ (messages s₀.chan).take p) (h : Ahead k p s₀ s) :
    Reaches (fun t => Ahead k p s₀ t ∧ t.handled.length = p ∧ t.consumer ≠ .reading) s := by
  induction hm : p - s.handled.length using Nat.strong_induction_on generalizing s with
  | h m ih =>
    have hgot : ∀ t, Ahead k p s₀ t ∧ t.handled = s.handled ∧ t.consumer ≠ .reading →
        Reaches (fun t => Ahead k p s₀ t ∧ t.handled.length = p ∧ t.consumer ≠ .reading) t := by
      rintro t ⟨ht, hhandled, hne⟩
      rcases Nat.lt_or_ge t.handled.length p with hlt | hge
      · have hnext : ∀ id, working t.consumer = some id →
            Reaches (fun t => Ahead k p s₀ t ∧ t.handled.length = p ∧ t.consumer ≠ .reading) t := by
          intro id hw
          refine (ht.of_working hopen hlt hw).then ?_
          rintro u ⟨hu, hhu⟩
          refine ih (p - u.handled.length) ?_ hu rfl
          rw [hhandled] at hlt hhu
          rw [hhu, length_append, length_singleton]
          omega
        cases hcons : t.consumer with
        | reading => exact absurd hcons hne
        | exited => exact absurd hcons (ht.not_exited hp hno hlt)
        | writing id n | freePayload id | freeMsg id => exact hnext id (by rw [hcons]; rfl)
      · exact .here ⟨ht, Nat.le_antisymm ht.le hge, hne⟩
    by_cases hcons : s.consumer = .reading
    · have hunread : s.chan.returned.length < s.chan.accepted.length := by
        have hlen := h.kept.length_le
        rw [ChannelFifo.length_messages s.chan] at hlen
        have hle := h.le
        rw [h.inv.linked.returned_eq, hcons, current, append_nil, length_map]
        omega
      obtain ⟨actions, c, data, hall, hrun, _, hret⟩ := h.inv.fifo.delivers hunread
      refine (h.of_delivery hopen hcons hall hrun ?_).then hgot
      rw [hret]
      simp
    · exact hgot s ⟨h, rfl, hcons⟩

theorem Inv.can_handle (h : Inv k s) (hopen : ∀ n, s.destroy ≠ .returned n) {id : ℕ}
    (hp : (messages s.chan)[p]? = some (some id)) (hno : none ∉ (messages s.chan).take p) :
    Reaches (fun t => id ∈ t.handled) s := by
  have hlen := (List.getElem?_eq_some_iff.mp hp).1
  rcases Nat.lt_or_ge p s.handled.length with hlt | hle
  · obtain ⟨rest, hrest⟩ := h.fifo.order
    rw [← hrest, h.linked.returned_eq, append_assoc,
      getElem?_append_left (by rw [length_map]; exact hlt), getElem?_map] at hp
    obtain ⟨id', hid, he⟩ := map_eq_some_iff.mp hp
    cases he
    exact .here (mem_of_getElem? hid)
  · refine ((h.ahead hle).takes hopen hlen hno).then ?_
    rintro t ⟨ht, hlen', hne⟩
    have hcurrent : ∀ m, current t.consumer = [m] → m = some id := by
      intro m hm
      have hat := ht.inv.getElem?_current hm
      rw [hlen', ht.getElem?_messages hlen, hp] at hat
      exact (some.inj hat).symm
    have hw : working t.consumer = some id := by
      cases hcons : t.consumer with
      | reading => exact absurd hcons hne
      | exited => cases hcurrent none (by rw [hcons]; rfl)
      | writing id' n | freePayload id' | freeMsg id' =>
        exact hcurrent (some id') (by rw [hcons]; rfl)
    have hwork : Ahead k (p + 1) s t :=
      ⟨ht.inv, ht.destroy_eq, ht.kept, ht.callers, by omega⟩
    refine (hwork.of_working hopen (by omega) hw).then ?_
    rintro u ⟨_, hu⟩
    refine .here ?_
    rw [hu]
    exact mem_append_right _ (mem_singleton_self _)

theorem Inv.can_return (h : Inv k s) {n : ℕ} (hd : s.destroy = .called n) {i : ι}
    (hpc : s.caller i = .join) (hmark : none ∈ messages s.chan) :
    Reaches (fun t => t.caller i = .returned) s := by
  have hopen : ∀ n, s.destroy ≠ .returned n := by
    rw [hd]
    exact fun _ he => by cases he
  obtain ⟨before, after, hmsg, hno⟩ := eq_append_cons_of_mem hmark
  have hlen : before.length < (messages s.chan).length := by
    rw [hmsg, length_append, length_cons]
    omega
  have hat : (messages s.chan)[before.length]? = some none := by
    rw [hmsg, getElem?_append_right le_rfl, Nat.sub_self]
    rfl
  have htake : (messages s.chan).take before.length = before := by
    rw [hmsg]
    exact take_left
  rw [← htake] at hno
  refine ((h.ahead (h.handled_le_mark hat)).takes hopen hlen hno).then ?_
  rintro t ⟨ht, hlen', hne⟩
  -- the logger thread has taken the marker
  have hexit : t.consumer = .exited := by
    have hcurrent : ∀ id, current t.consumer ≠ [some id] := by
      intro id hm
      have hid := ht.inv.getElem?_current hm
      rw [hlen', ht.getElem?_messages hlen, hat] at hid
      cases hid
    cases hcons : t.consumer with
    | reading => exact absurd hcons hne
    | exited => rfl
    | writing id n | freePayload id | freeMsg id => exact absurd (by rw [hcons]; rfl) (hcurrent id)
  have hjoin : t.caller i = .join := (ht.callers i (by rw [hpc]; rfl)).trans hpc
  have he : t.step (.join i) = some ({ t with destroy := .returned n }.goto i .returned) := by
    simp only [System.step, System.stepJoin, ht.destroy_eq.trans hd, hjoin, hexit]
  refine Reaches.of_step (.here ?_) (.inr (.inr (.inr ⟨i, rfl⟩))) he
  exact Function.update_self _ _ _

end MuggleC.Log.AsyncLogger
