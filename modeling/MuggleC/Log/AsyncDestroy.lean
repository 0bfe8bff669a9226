/- source: log/log_async_logger.c
   digest: What holds when an async logger is destroyed: messages written, memory released. -/

import MuggleC.Log.AsyncDelivery

set_option autoImplicit false

namespace MuggleC.Log.AsyncLogger

open Base Foundation.Transition Sync
open Sync.ChannelLock (pending WriterInv move_framed)
open Sync.ChannelFifo (messages FifoInv step_fifo)
open Sync.ChannelEffects Function List

variable {ι η : Type}

def destroying : CallerPc → Bool
  | .marker => true
  | .sendingMarker => true
  | .join => true
  | .returned => true
  | _ => false

structure Marked (s : System ι η) : Prop where
  uncalled : s.destroy = .notCalled →
    none ∉ messages s.chan ∧ ∀ i, destroying (s.caller i) = false
  before : ∀ n, s.destroy = .called n ∨ s.destroy = .returned n →
    n ≤ (messages s.chan).length ∧ none ∉ (messages s.chan).take n
  ended : ∀ n, s.destroy = .returned n → s.consumer = .exited

section Steps

variable [DecidableEq ι] [DecidableEq η]

theorem destroy_step {s s' : System ι η} {e : Event ι η} (hl : Linked s) (hs : s.Step e s') :
    (∃ i, e = .destroy i ∧ s.destroy = .notCalled ∧ s' = { s with
        destroy := .called s.chan.accepted.length }.goto i .marker) ∨
      (∃ i n, s.destroy = .called n ∧ s.consumer = .exited ∧
        s' = { s with destroy := .returned n }.goto i .returned) ∨
      (s'.destroy = s.destroy ∧
        ∀ i, destroying (s'.caller i) = true → destroying (s.caller i) = true) := by
  have hupdate : ∀ {i : ι} {pc : CallerPc},
      (destroying pc = true → destroying (s.caller i) = true) → ∀ j,
      destroying (update s.caller i pc j) = true → destroying (s.caller j) = true :=
    fun hpc j => caller_update (p := fun pc => destroying pc = true) hpc j
  cases hs with
  | destroy hpc hd => exact .inl ⟨_, rfl, hd, rfl⟩
  | join hpc hd hexit => exact .inr (.inl ⟨_, _, hd, hexit, rfl⟩)
  | enter hpc | noMemory hpc | alloc old hpc | fill now hpc | payload hpc | send hpc hc =>
    exact .inr (.inr ⟨rfl, hupdate (fun h => by cases h)⟩)
  | marker hpc hc => exact .inr (.inr ⟨rfl, hupdate (fun _ => by rw [hpc]; rfl)⟩)
  | written hc hidle =>
    obtain ⟨_, ⟨id, ret, _, _, he⟩ | ⟨ret, hpc, _, he⟩⟩ := hl.finish hc hidle
    · rw [he]
      exact .inr (.inr ⟨rfl, hupdate (fun h => by cases h)⟩)
    · rw [he]
      exact .inr (.inr ⟨rfl, hupdate (fun _ => by rw [hpc]; rfl)⟩)
  | _ => exact .inr (.inr ⟨rfl, fun _ h => h⟩)

theorem Marked.step {s s' : System ι η} {e : Event ι η} (h : Marked s) (hl : Linked s)
    (hopen : ∀ n, s.destroy ≠ .returned n) (hs : s.Step e s') : Marked s' := by
  rcases destroy_step hl hs with ⟨i, _, hd, rfl⟩ | ⟨i, n, hd, hexit, rfl⟩ | ⟨hd, hin⟩
  · have hlen : (messages s.chan).length = s.chan.accepted.length := ChannelFifo.length_messages _
    refine ⟨(fun he => by cases he), ?_, (fun n he => by cases he)⟩
    rintro n (he | he)
    · obtain rfl := Destroy.called.inj he
      exact ⟨hlen.ge, fun hmem => (h.uncalled hd).1 (mem_of_mem_take hmem)⟩
    · cases he
  · refine ⟨(fun he => by cases he), ?_, fun _ _ => hexit⟩
    rintro m (he | he)
    · cases he
    · obtain rfl := Destroy.returned.inj he
      exact h.before n (.inl hd)
  · obtain ⟨rest, hrest⟩ := messages_grow hl hs
    refine ⟨?_, ?_, fun n he => absurd (hd ▸ he) (hopen n)⟩
    · intro he
      obtain ⟨hno, hall⟩ := h.uncalled (hd ▸ he)
      refine ⟨?_, fun i => ?_⟩
      · rcases messages_step hl hs with hmsg | ⟨i, data, c, hdata, _, hmsg⟩
        · rw [hmsg]
          exact hno
        · rw [hmsg, mem_append, mem_singleton]
          rintro (hmem | rfl)
          · exact hno hmem
          · -- the thread that writes the marker is inside destroy
            have hpc := hall i
            cases hcall : s.caller i <;> rw [hcall] at hdata hpc <;> cases hdata
            cases hpc
      · cases hi : destroying (s'.caller i) with
        | false => rfl
        | true => exact absurd (hin i hi) (by rw [hall i]; exact Bool.false_ne_true)
    · intro n hn
      obtain ⟨hle, hno⟩ := h.before n (hd ▸ hn)
      rw [← hrest, length_append, take_append_of_le_length hle]
      exact ⟨by omega, hno⟩

end Steps

theorem start_marked (chan : Channel (Option ℕ)) (handler : η → LogHandler) (msg : ℕ → LogMsg)
    (call : ℕ → LogCall) : Marked (System.start chan handler msg call : System ι η) where
  uncalled _ := ⟨not_mem_nil, fun _ => rfl⟩
  before n h := by rcases h with h | h <;> cases h
  ended n h := by cases h

/-- A write of a thread that `p` tells is about to find the channel full. -/
def Refuses (p : CallerPc → Bool) (s : System ι η) : Event ι η → Prop
  | .writer i _ => p (s.caller i) = true ∧ FindsFull s.chan i
  | _ => False

instance (p : CallerPc → Bool) (s : System ι η) (e : Event ι η) : Decidable (Refuses p s e) := by
  cases e <;> unfold Refuses <;> infer_instance

def Admitted (p : CallerPc → Bool) (s : System ι η) : Prop :=
  ∀ i, p (s.caller i) = true → refused (s.chan.writer i) = false

private theorem dataOf_of_refused {pc : ChannelSteps.WriterPc (Option ℕ)} (h : refused pc = true) :
    dataOf pc ≠ none := by
  intro hnone
  rw [dataOf_eq_none.mp hnone] at h
  cases h

section Refused

variable [DecidableEq ι] [DecidableEq η]

theorem refused_step {s s' : System ι η} {e : Event ι η} (hl : Linked s) (hs : s.Step e s') {j : ι}
    (hj : refused (s'.chan.writer j) = true) :
    s'.caller j = s.caller j ∧ (refused (s.chan.writer j) = true ∨
      ∃ spurious, e = .writer j spurious ∧ FindsFull s.chan j) := by
  -- a thread that moves outside the channel has no write there
  have hgoto : ∀ {i : ι} {pc : CallerPc}, inChannel (s.caller i) = none →
      refused (s.chan.writer j) = true → update s.caller i pc j = s.caller j := by
    intro i pc hout href
    refine update_of_ne ?_ _ _
    rintro rfl
    exact dataOf_of_refused href ((hl.writers j).trans hout)
  cases hl.effect hs with
  | still hcaller hwriter => exact ⟨congrFun hcaller j, .inl (hwriter ▸ hj)⟩
  | alloc hpc hcaller hchan =>
    rw [hchan] at hj
    exact ⟨hcaller ▸ hgoto (by rw [hpc]; rfl) hj, .inl hj⟩
  | goes hpc hgo hcaller hchan =>
    rw [hchan] at hj
    exact ⟨hcaller ▸ hgoto (by rw [hpc]; cases hgo <;> rfl) hj, .inl hj⟩
  | @calls i data old pc hpc hgo hcaller hwriter =>
    rw [hwriter] at hj
    have hne : j ≠ i := by
      rintro rfl
      rw [update_self] at hj
      cases hj
    rw [update_of_ne hne] at hj
    exact ⟨hcaller ▸ update_of_ne hne _ _, .inl hj⟩
  | @writing i spurious data c he hc _ _ _ hs =>
    subst hs
    refine ⟨rfl, ?_⟩
    rcases eq_or_ne j i with rfl | hne
    · rcases move_refused (move_of_writer hc) hj with href | hfull
      · exact .inl href
      · exact .inr ⟨spurious, he, hfull⟩
    · exact .inl ((move_framed (move_of_writer hc)).other j hne ▸ hj)
  | @returns i spurious data ret old pc hc hidle _ _ _ hcaller =>
    have hne : j ≠ i := by
      rintro rfl
      rw [hidle] at hj
      cases hj
    exact ⟨hcaller ▸ update_of_ne hne _ _,
      .inl ((move_framed (move_of_writer hc)).other j hne ▸ hj)⟩

theorem Admitted.step {p : CallerPc → Bool} {s s' : System ι η} {e : Event ι η} (h : Admitted p s)
    (hl : Linked s) (hs : s.Step e s') (hg : ¬ Refuses p s e) : Admitted p s' := by
  intro j hp
  by_contra href
  obtain ⟨hsame, href | ⟨spurious, rfl, hfull⟩⟩ :=
    refused_step hl hs (Bool.eq_true_of_not_eq_false href)
  · rw [h j (hsame ▸ hp)] at href
    cases href
  · exact hg ⟨hsame ▸ hp, hfull⟩

end Refused

def sendsMarker : CallerPc → Bool
  | .sendingMarker => true
  | _ => false

def joined : CallerPc → Bool
  | .join => true
  | .returned => true
  | _ => false

structure MarkerSent (s : System ι η) : Prop where
  admitted : Admitted sendsMarker s
  joining : ∀ i, joined (s.caller i) = true → none ∈ messages s.chan

theorem start_markerSent (chan : Channel (Option ℕ)) (handler : η → LogHandler) (msg : ℕ → LogMsg)
    (call : ℕ → LogCall) : MarkerSent (System.start chan handler msg call : System ι η) where
  admitted i h := by cases h
  joining i h := by cases h

section Marker

variable [DecidableEq ι] [DecidableEq η]

theorem joined_step {s s' : System ι η} {e : Event ι η} (hl : Linked s) (hs : s.Step e s') {j : ι}
    (hj : joined (s'.caller j) = true) : joined (s.caller j) = true ∨
      ∃ ret, s.caller j = .sendingMarker ∧ s.chan.writer j = .wake none ret := by
  have hgoto : ∀ {i : ι} {pc : CallerPc}, s'.caller = update s.caller i pc →
      (joined pc = true → joined (s.caller i) = true) → joined (s.caller j) = true :=
    fun hcaller hpc => caller_update (p := fun pc => joined pc = true) hpc j (hcaller ▸ hj)
  cases hl.effect hs with
  | still hcaller => exact .inl (hcaller ▸ hj)
  | alloc hpc hcaller => exact .inl (hgoto hcaller fun h => by cases h)
  | goes hpc hgo hcaller =>
    refine .inl (hgoto hcaller fun h => ?_)
    rw [hpc]
    cases hgo <;> first | rfl | cases h
  | calls hpc hgo hcaller => exact .inl (hgoto hcaller fun h => by cases hgo <;> cases h)
  | writing _ _ _ _ _ hs =>
    subst hs
    exact .inl hj
  | @returns i spurious data ret old pc _ _ hwake hpc hgo hcaller =>
    cases hgo with
    | message => exact .inl (hgoto hcaller fun h => by cases h)
    | marker =>
      rcases eq_or_ne j i with rfl | hne
      · exact .inr ⟨ret, hpc, hwake⟩
      · rw [hcaller, update_of_ne hne] at hj
        exact .inl hj

theorem MarkerSent.step {k : ℕ} {s s' : System ι η} {e : Event ι η} (h : MarkerSent s)
    (hi : Inv k s) (hs : s.Step e s') (hg : ¬ Refuses sendsMarker s e) : MarkerSent s' := by
  refine ⟨h.admitted.step hi.linked hs hg, fun j hj => (messages_grow hi.linked hs).subset ?_⟩
  rcases joined_step hi.linked hs hj with hj | ⟨ret, hpc, hwake⟩
  · exact h.joining j hj
  · -- the write that returns has not been refused
    have hok := h.admitted j (by rw [hpc]; rfl)
    rw [hwake, refused, decide_eq_false_iff_not, not_not] at hok
    apply mem_messages_of_pending (i := j) hi.fifo.base
    rw [hwake, hok]
    exact mem_singleton_self _

end Marker

theorem two_le_of_fresh {capacity : BitVec 32} {k : ℕ} {chan : Channel (Option ℕ)}
    (h : Channel.Fresh capacity none 0#32 k chan) (hcap : 3 ≤ capacity.toNat) : 2 ≤ k := by
  by_contra hlt
  have hpow : 2 ^ k ≤ 2 ^ 1 := Nat.pow_le_pow_right (by omega) (by omega)
  have hle := h.le_capacity
  omega

theorem handled_of_returned [DecidableEq ι] {k : ℕ} {s : System ι η} (h : Inv k s) (hm : Marked s)
    {n : ℕ} (hd : s.destroy = .returned n) :
    ∀ m ∈ (messages s.chan).take n, ∃ id ∈ s.handled, m = some id := by
  have hret := h.linked.returned_eq
  rw [hm.ended n hd] at hret
  obtain ⟨rest, hrest⟩ := h.fifo.order
  rw [hret] at hrest
  obtain ⟨hle, hno⟩ := hm.before n (.inr hd)
  -- the marker comes after the first `n` messages
  have hn : n ≤ (s.handled.map some).length := by
    by_contra hlt
    apply hno
    rw [← hrest, append_assoc, take_append, mem_append]
    right
    obtain ⟨m, hm⟩ : ∃ m, n - (s.handled.map some).length = m + 1 :=
      ⟨n - (s.handled.map some).length - 1, by omega⟩
    rw [hm]
    exact mem_cons_self
  intro m hmem
  rw [← hrest, append_assoc, take_append_of_le_length hn] at hmem
  obtain ⟨id, hid, rfl⟩ := mem_map.mp (mem_of_mem_take hmem)
  exact ⟨id, hid, rfl⟩

section Guarantee

variable [DecidableEq ι] [DecidableEq η]

/-- The logger thread is through with the message: all handlers added before had their turns, and
wrote if their level was not above the message's. -/
structure WrittenIn (s₀ : System ι η) (events : List (Event ι η)) (s : System ι η) (id : ℕ) :
    Prop where
  handled : id ∈ s.handled
  written_iff : ∀ t ∈ turnsOf s id, (t.written = true ↔ t.level ≤ (s.call id).level)
  turns : ∀ before after u, events = before ++ after → run System.step s₀ before = some u →
    ¬ Through u id → u.setup.logger.handlers <+: (turnsOf s id).map Turn.handler

theorem writtenIn_of_handled {k : ℕ} {s₀ s : System ι η} {events : List (Event ι η)}
    (h₀ : RunInv k s₀) (hr : run System.step s₀ events = some s) {id : ℕ} (hid : id ∈ s.handled) :
    WrittenIn s₀ events s id := by
  have hkeep : ∀ (t : System ι η) e t', RunInv k t → t.step e = some t' → RunInv k t' :=
    fun _ _ _ h he => h.step he
  refine ⟨hid, fun t ht => ?_, ?_⟩
  · obtain ⟨hmem, ht⟩ := mem_filter.mp ht
    rw [← of_decide_eq_true ht]
    exact ((run_invariant hkeep h₀ hr).turned.recorded t hmem).2
  · rintro before after u rfl hu hnot
    rw [run_append, hu] at hr
    exact served_of_run (run_invariant hkeep h₀ hu) hr hnot (.inl hid)

/-- In every run in which the marker's write does not find the channel full, the marker has been
accepted when destroy joins the logger thread, destroy can return, and the messages that had been
accepted when it was called have been written when it has returned. -/
theorem destroy_writes_accepted (capacity : BitVec 32) (mutexInit : Err) (malloc : Bool)
    (chan : Channel (Option ℕ))
    (hi : Channel.init none capacity 0#32 mutexInit malloc = .ok chan) (hcap : 3 ≤ capacity.toNat)
    (handler : η → LogHandler) (msg : ℕ → LogMsg) (call : ℕ → LogCall)
    (events : List (Event ι η)) (s : System ι η)
    (hr : run (guarded System.step fun s e => ¬ Refuses sendsMarker s e)
      (System.start chan handler msg call) events = some s) :
    (∀ i, joined (s.caller i) = true → none ∈ messages s.chan) ∧
      (∀ n i, s.destroy = .called n → s.caller i = .join →
        Reaches (fun t => t.caller i = .returned) s) ∧
      ∀ n, s.destroy = .returned n → ∀ m ∈ (messages s.chan).take n, ∃ id, m = some id ∧
        WrittenIn (System.start chan handler msg call) events s id := by
  obtain ⟨k, hk⟩ := Channel.init_fresh hi
  have hk2 : 2 ≤ k := two_le_of_fresh hk hcap
  have hstart := start_runInv (ι := ι) hk hk2 handler msg call
  have hinv : Inv k s ∧ Marked s ∧ MarkerSent s := by
    refine run_invariant (I := fun s => Inv k s ∧ Marked s ∧ MarkerSent s) ?_
      ⟨hstart.toInv, start_marked chan handler msg call, start_markerSent chan handler msg call⟩ hr
    rintro s e s' ⟨h, hmarked, hsent⟩ he
    obtain ⟨hg, he⟩ := guarded_eq_some.mp he
    obtain ⟨hopen, hs⟩ := System.step_cases he
    exact ⟨h.step he, hmarked.step h.linked hopen hs, hsent.step h hs hg⟩
  obtain ⟨h, hmarked, hsent⟩ := hinv
  refine ⟨hsent.joining, ?_, ?_⟩
  · intro n i hd hpc
    exact h.can_return hd hpc (hsent.joining i (by rw [hpc]; rfl))
  · intro n hd m hm
    obtain ⟨id, hid, rfl⟩ := handled_of_returned h hmarked hd m hm
    exact ⟨id, rfl, writtenIn_of_handled hstart (run_of_guarded hr) hid⟩

end Guarantee

def helloCall : LogCall := ⟨levelInfo, ⟨"main.c".toList, 1, "main".toList⟩, "hello".toList⟩

def oldMsg : LogMsg := ⟨0, 0, 0, 0, ⟨[], 0, []⟩, none⟩

def infoHandler : LogHandler := ⟨levelInfo, none, true⟩

def loggerStart : System Bool Unit :=
  .start (.fourBlocks none) (fun _ => infoHandler) (fun _ => oldMsg) fun _ => helloCall

def logEvents (n : ℕ) : List (Event Bool Unit) :=
  [.log false helloCall, .alloc false (some oldMsg), .fill false ⟨0, 0, 7⟩, .payload false,
    .send false] ++ List.replicate n (.writer false false)

def destroyEvents (n : ℕ) : List (Event Bool Unit) :=
  [.destroy true, .send true] ++ List.replicate n (.writer true false)

def readEvents : List (Event Bool Unit) := .consume :: List.replicate 5 .reader

def writeEvents : List (Event Bool Unit) := List.replicate 4 .consume

def drainedRun : List (Event Bool Unit) :=
  [.config (.addHandler ())] ++ logEvents 9 ++ destroyEvents 9 ++ readEvents ++ writeEvents ++
    readEvents ++ [.join true]

theorem destroy_writes_accepted_drained :
    ∃ s : System Bool Unit, s.destroy = .returned 1 ∧ messages s.chan = [some 0, none] ∧
      (∃ id, some 0 = some id ∧ WrittenIn loggerStart drainedRun s id) ∧ s.turns.length = 1 := by
  have hrun : (run (guarded System.step fun s e => ¬ Refuses sendsMarker s e) loggerStart
      drainedRun).map (fun s => (s.destroy, messages s.chan, s.turns.length)) =
      some (.returned 1, [some 0, none], 1) := by decide
  obtain ⟨s, hs, hobs⟩ := Option.map_eq_some_iff.mp hrun
  obtain ⟨hd, hobs⟩ := Prod.mk.inj hobs
  obtain ⟨hmsg, hturns⟩ := Prod.mk.inj hobs
  refine ⟨s, hd, hmsg, ?_, hturns⟩
  refine (destroy_writes_accepted 4#32 .ok true (.fourBlocks none) rfl (by decide) _ _ _ drainedRun s hs).2.2
    1 hd (some 0) ?_
  rw [hmsg]
  exact mem_cons_self

/-- Two messages fill the channel before the logger thread runs: the marker is refused, and destroy
joins the thread all the same. -/
theorem not_marker_accepted_of_full : ∃ (events : List (Event Bool Unit)) (s : System Bool Unit),
      run System.step loggerStart events = some s ∧ s.caller true = .join ∧
        none ∉ messages s.chan := by
  have hrun : (run System.step loggerStart ([.config (.addHandler ())] ++ logEvents 9 ++
      logEvents 9 ++ destroyEvents 5)).map (fun s => (s.caller true, messages s.chan)) =
      some (.join, [some 0, some 1]) := by decide
  obtain ⟨s, hs, hobs⟩ := Option.map_eq_some_iff.mp hrun
  obtain ⟨hpc, hmsg⟩ := Prod.mk.inj hobs
  refine ⟨_, s, hs, hpc, ?_⟩
  rw [hmsg]
  decide

def sendsMessage : CallerPc → Bool
  | .sending _ => true
  | _ => false

def inLog : CallerPc → Bool
  | .alloc _ => true
  | .fill _ _ => true
  | .payload _ _ => true
  | .send _ => true
  | .sending _ => true
  | _ => false

/-- A message that the channel refuses, a log call after the call of destroy, or a call of destroy
during a log call. -/
def Leaks (s : System ι η) : Event ι η → Prop
  | .log _ _ => s.destroy ≠ .notCalled
  | .destroy _ => s.logging ≠ []
  | e => Refuses sendsMessage s e

instance (s : System ι η) (e : Event ι η) : Decidable (Leaks s e) := by
  refine e.casesOn ?_ ?_ ?_ ?_ ?_ ?_ ?_ ?_ ?_ ?_ ?_ ?_ <;> intros <;> dsimp only [Leaks] <;>
    infer_instance

theorem Leaks.of_refuses {s : System ι η} {e : Event ι η} (h : Refuses sendsMessage s e) :
    Leaks s e := by
  cases e with
  | writer i spurious => exact h
  | _ => exact h.elim

structure Placed (s : System ι η) : Prop where
  admitted : Admitted sendsMessage s
  placed : ∀ id, id < s.next → (∃ i, held s i = some id) ∨ some id ∈ messages s.chan

structure Settled (s : System ι η) : Prop where
  logging : ∀ i, inLog (s.caller i) = true → i ∈ s.logging
  quiet : s.destroy ≠ .notCalled → s.logging = []
  after : ∀ n, s.destroy = .called n ∨ s.destroy = .returned n →
    ∀ m ∈ (messages s.chan).drop n, m = none

theorem start_placed (chan : Channel (Option ℕ)) (handler : η → LogHandler) (msg : ℕ → LogMsg)
    (call : ℕ → LogCall) : Placed (System.start chan handler msg call : System ι η) where
  admitted i h := by cases h
  placed id h := absurd h (Nat.not_lt_zero _)

theorem start_settled (chan : Channel (Option ℕ)) (handler : η → LogHandler) (msg : ℕ → LogMsg)
    (call : ℕ → LogCall) : Settled (System.start chan handler msg call : System ι η) where
  logging i h := by cases h
  quiet h := absurd rfl h
  after n h := by rcases h with h | h <;> cases h

section Memory

variable [DecidableEq ι] [DecidableEq η] {s s' : System ι η} {e : Event ι η} {k : ℕ}

private theorem logging_step (hl : Linked s) (hs : s.Step e s') :
    (s'.logging = s.logging ∧ ∀ j, inLog (s'.caller j) = true → inLog (s.caller j) = true) ∨
      (∃ i c, e = .log i c ∧ s'.logging = s.logging ++ [i] ∧
        ∀ j, j ≠ i → s'.caller j = s.caller j) ∨
      ∃ i, s'.logging = s.logging.erase i ∧ s'.caller i = .idle ∧
        ∀ j, j ≠ i → s'.caller j = s.caller j := by
  have hgoto : ∀ {i : ι} {pc : CallerPc}, (inLog pc = true → inLog (s.caller i) = true) →
      ∀ j, inLog (update s.caller i pc j) = true → inLog (s.caller j) = true :=
    fun hpc j => caller_update (p := fun pc => inLog pc = true) hpc j
  cases hs with
  | @enter i c hpc =>
    exact .inr (.inl ⟨i, c, rfl, rfl, fun j hne => update_of_ne hne _ _⟩)
  | @noMemory i c hpc =>
    exact .inr (.inr ⟨i, rfl, update_self _ _ _, fun j hne =>
      update_of_ne hne _ _⟩)
  | @written i spurious c hc hidle =>
    obtain ⟨_, ⟨id, ret, _, _, he⟩ | ⟨ret, hpc, _, he⟩⟩ := hl.finish hc hidle
    · rw [he]
      exact .inr (.inr ⟨i, rfl, update_self _ _ _, fun j hne =>
        update_of_ne hne _ _⟩)
    · rw [he]
      exact .inl ⟨rfl, hgoto fun h => by cases h⟩
  | alloc old hpc | fill now hpc | payload hpc | send hpc hc =>
    exact .inl ⟨rfl, hgoto fun _ => by rw [hpc]; rfl⟩
  | destroy hpc | marker hpc hc | join hpc => exact .inl ⟨rfl, hgoto fun h => by cases h⟩
  | _ => exact .inl ⟨rfl, fun _ h => h⟩

theorem held_step (hl : Linked s) (ha : Admitted sendsMessage s) (hs : s.Step e s') {j : ι} {id : ℕ}
    (hj : held s j = some id) : held s' j = some id ∨ some id ∈ messages s'.chan := by
  -- whoever moves outside the channel keeps what it has
  have hgoto : ∀ {i : ι} {pc : CallerPc}, s'.caller = update s.caller i pc →
      (∀ l, l ≠ i → s'.chan.writer l = s.chan.writer l) →
      (held s i = some id → heldBy pc (s'.chan.writer i) = some id) → held s' j = some id := by
    intro i pc hcaller hother hpc
    rw [held, hcaller]
    rcases eq_or_ne j i with rfl | hne
    · rw [update_self]
      exact hpc hj
    · rw [update_of_ne hne, hother j hne]
      exact hj
  cases hl.effect hs with
  | still hcaller hwriter =>
    rw [held, hcaller, hwriter]
    exact .inl hj
  | alloc hpc hcaller hchan =>
    refine .inl (hgoto hcaller (fun l _ => by rw [hchan]) fun hid => ?_)
    rw [held, hpc] at hid
    cases hid
  | goes hpc hgo hcaller hchan =>
    refine .inl (hgoto hcaller (fun l _ => by rw [hchan]) fun hid => ?_)
    rw [held, hpc] at hid
    cases hgo <;> exact hid
  | calls hpc hgo hcaller hwriter =>
    refine .inl (hgoto hcaller (fun l hne => hwriter ▸ update_of_ne hne _ _) fun hid => ?_)
    rw [held, hpc] at hid
    rw [hwriter, update_self]
    cases hgo <;> exact hid
  | @writing i spurious data c _ hc hin heff hbusy hs =>
    subst hs
    rcases eq_or_ne j i with rfl | hne
    · cases hpc : s.caller j <;> rw [hpc] at hin <;> rw [held, hpc] at hj
      case sending id' =>
        cases hin
        cases heff with
        | quiet _ hpend _ =>
          left
          rw [held, hpc]
          simpa only [heldBy, hpend] using hj
        | publish hbefore _ hmsg =>
          right
          rw [heldBy, hbefore] at hj
          cases hj
          rw [hmsg]
          exact mem_append_right _ (mem_singleton_self _)
        | finish _ hafter => exact absurd hafter hbusy
      all_goals first | (cases hj; done) | cases hin
    · left
      rw [held, (move_framed (move_of_writer hc)).other j hne]
      exact hj
  | @returns i spurious data ret old pc hc hidle hwake hpc hgo hcaller =>
    refine .inl (hgoto hcaller (move_framed (move_of_writer hc)).other fun hid => ?_)
    cases hgo with
    | message =>
      -- the write that returns has been accepted before
      have hok := ha i (by rw [hpc]; rfl)
      rw [hwake, refused, decide_eq_false_iff_not, not_not] at hok
      rw [held, hpc, hwake, hok] at hid
      cases hid
    | marker =>
      rw [held, hpc] at hid
      cases hid

private theorem next_step (hl : Linked s) (hs : s.Step e s') :
    s'.next = s.next ∨ (s'.next = s.next + 1 ∧ ∃ i, held s' i = some s.next) := by
  cases hs with
  | @alloc i c old hpc =>
    refine .inr ⟨rfl, i, ?_⟩
    simp only [held, System.stepAlloc, System.goto, update_self]
    rfl
  | written hc hidle =>
    obtain ⟨_, ⟨_, _, _, _, he⟩ | ⟨_, _, _, he⟩⟩ := hl.finish hc hidle <;> rw [he] <;>
      exact .inl rfl
  | _ => exact .inl rfl

theorem Placed.step (h : Placed s) (hl : Linked s)
    (hs : s.Step e s') (hg : ¬ Refuses sendsMessage s e) : Placed s' := by
  refine ⟨h.admitted.step hl hs hg, fun id hid => ?_⟩
  have hkeep : id < s.next → (∃ i, held s' i = some id) ∨ some id ∈ messages s'.chan := by
    intro hlt
    rcases h.placed id hlt with ⟨i, hheld⟩ | hmem
    · rcases held_step hl h.admitted hs hheld with hheld | hmem
      · exact .inl ⟨i, hheld⟩
      · exact .inr hmem
    · exact .inr ((messages_grow hl hs).subset hmem)
  rcases next_step hl hs with hnext | ⟨hnext, i, hnew⟩
  · exact hkeep (hnext ▸ hid)
  · rcases Nat.lt_succ_iff_lt_or_eq.mp (hnext ▸ hid) with hlt | rfl
    · exact hkeep hlt
    · exact .inl ⟨i, hnew⟩

theorem Settled.step (h : Settled s) (hl : Linked s)
    (hm : Marked s) (hs : s.Step e s') (hg : ¬ Leaks s e) : Settled s' := by
  refine ⟨?_, ?_, ?_⟩
  · intro j hj
    rcases logging_step hl hs with ⟨hlog, hin⟩ | ⟨i, c, _, hlog, hother⟩ | ⟨i, hlog, hidle, hother⟩
    · rw [hlog]
      exact h.logging j (hin j hj)
    · rw [hlog, mem_append, mem_singleton]
      by_cases hji : j = i
      · exact .inr hji
      · exact .inl (h.logging j (hother j hji ▸ hj))
    · have hji : j ≠ i := by
        rintro rfl
        rw [hidle] at hj
        cases hj
      rw [hlog, mem_erase_of_ne hji]
      exact h.logging j (hother j hji ▸ hj)
  · intro hd
    rcases destroy_step hl hs with ⟨i, rfl, _, rfl⟩ | ⟨i, n, hcall, _, rfl⟩ | ⟨hsame, _⟩
    · exact not_not.mp hg
    · exact h.quiet (by rw [hcall]; exact fun he => by cases he)
    · have hcalled : s.destroy ≠ .notCalled := hsame ▸ hd
      rcases logging_step hl hs with ⟨hlog, _⟩ | ⟨i, c, rfl, _⟩ | ⟨i, hlog, _⟩
      · rw [hlog, h.quiet hcalled]
      · exact absurd hcalled hg
      · rw [hlog, h.quiet hcalled]
        rfl
  · rcases destroy_step hl hs with ⟨i, _, _, rfl⟩ | ⟨i, n, hcall, _, rfl⟩ | ⟨hsame, _⟩
    · rintro n (he | he)
      · obtain rfl := Destroy.called.inj he
        intro m hmem
        change m ∈ (messages s.chan).drop _ at hmem
        rw [drop_of_length_le (ChannelFifo.length_messages s.chan).le] at hmem
        cases hmem
      · cases he
    · rintro m (he | he)
      · cases he
      · obtain rfl := Destroy.returned.inj he
        exact h.after n (.inl hcall)
    · intro n hn m hmem
      rw [hsame] at hn
      rcases messages_step hl hs with hmsg | ⟨i, data, c, hdata, _, hmsg⟩
      · rw [hmsg] at hmem
        exact h.after n hn m hmem
      · rw [hmsg, drop_append_of_le_length (hm.before n hn).1, mem_append, mem_singleton] at hmem
        rcases hmem with hmem | rfl
        · exact h.after n hn m hmem
        · -- a message would come from a log call that is not over
          have hcalled : s.destroy ≠ .notCalled := by
            rcases hn with he | he <;> rw [he] <;> exact fun hno => by cases hno
          have hlog := h.logging i
          rw [h.quiet hcalled] at hlog
          cases hpc : s.caller i <;> rw [hpc] at hdata hlog <;> cases hdata
          · exact absurd (hlog rfl) not_mem_nil
          · rfl

omit [DecidableEq η] in
theorem Inv.released_nodup (h : Inv k s) : s.released.Nodup := by
  have hhandled := (nodup_append.mp (handled_spec h.fifo h.linked h.owned).1).1
  have hflat : (s.handled.flatMap fun id => [Block.payload id, Block.record id]).Nodup := by
    rw [nodup_flatMap]
    refine ⟨fun id _ => by simp, hhandled.imp ?_⟩
    intro a b hne
    simp only [onFun, disjoint_left, mem_cons, not_mem_nil, or_false]
    rintro x (rfl | rfl) <;> simp [hne]
  rw [h.ledger.released_eq]
  refine nodup_append.mpr ⟨hflat, by cases s.consumer <;> simp [halfReleased], ?_⟩
  rintro b hb b' hb' rfl
  cases hcons : s.consumer <;> rw [hcons] at hb' <;>
    simp only [halfReleased, mem_singleton, not_mem_nil] at hb'
  case freeMsg id =>
    subst hb'
    have hw : working s.consumer = some id := by rw [hcons]; rfl
    obtain ⟨id', hid', hb⟩ := mem_flatMap.mp hb
    obtain rfl : id = id' := by simpa using hb
    exact (working_spec h.fifo h.linked h.owned hw).2 hid'

omit [DecidableEq η] in
theorem Inv.allocated_of_released (h : Inv k s) {b : Block}
    (hb : b ∈ s.released) : b ∈ s.allocated := by
  have hmem := (handled_spec h.fifo h.linked h.owned).2
  have haccepted : ∀ id, some id ∈ messages s.chan →
      .payload id ∈ s.allocated ∧ .record id ∈ s.allocated := fun id hid =>
    ⟨h.ledger.accepted id hid, (h.ledger.record_iff id).mpr (h.owned.known id hid)⟩
  cases b with
  | record id => exact (haccepted id (hmem id (h.ledger.record_released hb))).2
  | payload id =>
    rcases h.ledger.payload_released hb with hid | hcons
    · exact (haccepted id (hmem id hid)).1
    · have hw : working s.consumer = some id := by rw [hcons]; rfl
      exact (haccepted id (working_spec h.fifo h.linked h.owned hw).1).1

omit [DecidableEq η] in
theorem handled_of_settled (hi : Inv k s) (hm : Marked s) (hp : Placed s) (h : Settled s) {n : ℕ}
    (hd : s.destroy = .returned n) {id : ℕ} (hid : id < s.next) : id ∈ s.handled := by
  have hcalled : s.destroy ≠ .notCalled := by
    rw [hd]
    exact fun he => by cases he
  have hidle : ∀ i, held s i = none := by
    intro i
    have hlog := h.logging i
    rw [h.quiet hcalled] at hlog
    rw [held]
    cases hpc : s.caller i <;> rw [hpc] at hlog <;>
      first | rfl | exact absurd (hlog rfl) not_mem_nil
  rcases hp.placed id hid with ⟨i, hheld⟩ | hmem
  · rw [hidle i] at hheld
    cases hheld
  · rw [← take_append_drop n (messages s.chan), mem_append] at hmem
    rcases hmem with hmem | hmem
    · obtain ⟨id', hid', he⟩ := handled_of_returned hi hm hd _ hmem
      exact Option.some.inj he ▸ hid'
    · cases h.after n (.inr hd) _ hmem

/-- In every run in which the channel refuses no message and destroy is called after the log calls,
the memory of all messages has been released once when destroy has returned, and none of it has been
used after its release. -/
theorem memory_released_once (capacity : BitVec 32) (mutexInit : Err) (malloc : Bool)
    (chan : Channel (Option ℕ))
    (hi : Channel.init none capacity 0#32 mutexInit malloc = .ok chan) (hcap : 3 ≤ capacity.toNat)
    (handler : η → LogHandler) (msg : ℕ → LogMsg) (call : ℕ → LogCall)
    (events : List (Event ι η)) (s : System ι η)
    (hr : run (guarded System.step fun s e => ¬ Leaks s e) (System.start chan handler msg call)
      events = some s) (n : ℕ) (hd : s.destroy = .returned n) :
    s.released.Perm s.allocated ∧ s.allocated.Nodup ∧ s.misused = [] := by
  obtain ⟨k, hk⟩ := Channel.init_fresh hi
  have hk2 : 2 ≤ k := two_le_of_fresh hk hcap
  have hinv : Inv k s ∧ Marked s ∧ Placed s ∧ Settled s := by
    refine run_invariant (I := fun s => Inv k s ∧ Marked s ∧ Placed s ∧ Settled s) ?_
      ⟨start_inv hk hk2 handler msg call, start_marked chan handler msg call,
        start_placed chan handler msg call, start_settled chan handler msg call⟩ hr
    rintro s e s' ⟨h, hmarked, hplaced, hsettled⟩ he
    obtain ⟨hg, he⟩ := guarded_eq_some.mp he
    obtain ⟨hopen, hs⟩ := System.step_cases he
    exact ⟨h.step he, hmarked.step h.linked hopen hs,
      hplaced.step h.linked hs fun href => hg (.of_refuses href),
      hsettled.step h.linked hmarked hs hg⟩
  obtain ⟨h, hmarked, hplaced, hsettled⟩ := hinv
  refine ⟨?_, h.ledger.nodup, h.ledger.misused_eq⟩
  rw [perm_ext_iff_of_nodup h.released_nodup h.ledger.nodup]
  refine fun b => ⟨h.allocated_of_released, fun hb => ?_⟩
  have hreleased : ∀ id, id < s.next → ∀ b ∈ [Block.payload id, Block.record id],
      b ∈ s.released := by
    intro id hid b hb
    rw [h.ledger.released_eq]
    exact mem_append_left _ (mem_flatMap.mpr ⟨id,
      handled_of_settled h hmarked hplaced hsettled hd hid, hb⟩)
  cases b with
  | record id => exact hreleased id ((h.ledger.record_iff id).mp hb) _ (by simp)
  | payload id => exact hreleased id (h.ledger.payload_lt id hb) _ (by simp)

/-- In every run, also one in which messages are refused or `destroy` comes between the log calls, no
memory is released twice, used after its release, or released without having been allocated. -/
theorem memory_never_misused (capacity : BitVec 32) (mutexInit : Err) (malloc : Bool)
    (chan : Channel (Option ℕ))
    (hi : Channel.init none capacity 0#32 mutexInit malloc = .ok chan) (hcap : 3 ≤ capacity.toNat)
    (handler : η → LogHandler) (msg : ℕ → LogMsg) (call : ℕ → LogCall)
    (events : List (Event ι η)) (s : System ι η)
    (hr : run System.step (System.start chan handler msg call) events = some s) :
    s.released.Nodup ∧ s.released ⊆ s.allocated ∧ s.misused = [] := by
  obtain ⟨k, hk⟩ := Channel.init_fresh hi
  have h : Inv k s := by
    refine run_invariant (I := Inv k) ?_ (start_inv hk (two_le_of_fresh hk hcap) handler msg call) hr
    intro s e s' h he
    exact h.step he
  exact ⟨h.released_nodup, fun _ => h.allocated_of_released, h.ledger.misused_eq⟩

end Memory

theorem memory_released_once_drained :
    ∃ s : System Bool Unit, s.allocated = [.record 0, .payload 0] ∧ s.released.Perm s.allocated ∧
      s.allocated.Nodup ∧ s.misused = [] := by
  have hrun : (run (guarded System.step fun s e => ¬ Leaks s e) loggerStart drainedRun).map
      (fun s => (s.destroy, s.allocated)) = some (.returned 1, [.record 0, .payload 0]) := by decide
  obtain ⟨s, hs, hobs⟩ := Option.map_eq_some_iff.mp hrun
  obtain ⟨hd, halloc⟩ := Prod.mk.inj hobs
  exact ⟨s, halloc, memory_released_once 4#32 .ok true (.fourBlocks none) rfl (by decide) _ _ _ drainedRun s
    hs 1 hd⟩

def refusedRun : List (Event Bool Unit) :=
  [.config (.addHandler ())] ++ logEvents 9 ++ logEvents 9 ++ logEvents 5 ++ readEvents ++
    writeEvents ++ readEvents ++ writeEvents ++ destroyEvents 9 ++ readEvents ++ [.join true]

/-- The record and the payload of a refused message are not released. -/
theorem not_memory_released_of_refused :
    ∃ s : System Bool Unit, run System.step loggerStart refusedRun = some s ∧
      s.destroy = .returned 2 ∧ Block.record 2 ∈ s.allocated ∧ Block.record 2 ∉ s.released ∧
      Block.payload 2 ∈ s.allocated ∧ Block.payload 2 ∉ s.released := by
  have hrun : (run System.step loggerStart refusedRun).map
      (fun s => (s.destroy, s.allocated, s.released)) =
      some (.returned 2, [.record 0, .payload 0, .record 1, .payload 1, .record 2, .payload 2],
        [.payload 0, .record 0, .payload 1, .record 1]) := by decide
  obtain ⟨s, hs, hobs⟩ := Option.map_eq_some_iff.mp hrun
  obtain ⟨hd, hobs⟩ := Prod.mk.inj hobs
  obtain ⟨halloc, hrel⟩ := Prod.mk.inj hobs
  refine ⟨s, hs, hd, ?_⟩
  rw [halloc, hrel]
  decide

theorem memory_never_misused_refused : ∃ s : System Bool Unit,
    run System.step loggerStart refusedRun = some s ∧ s.released.Nodup ∧ s.misused = [] := by
  obtain ⟨s, hs⟩ := Option.isSome_iff_exists.mp
    (by decide : (run System.step loggerStart refusedRun).isSome)
  obtain ⟨hnodup, -, hused⟩ :=
    memory_never_misused 4#32 .ok true (.fourBlocks none) rfl (by decide) _ _ _ refusedRun s hs
  exact ⟨s, hs, hnodup, hused⟩

end MuggleC.Log.AsyncLogger
