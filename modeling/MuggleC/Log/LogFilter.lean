/- source: log/log_sync_logger.c, log/log_async_logger.c, log/log_logger.c, log/log_handler.c
   digest: Which handlers a log call reaches, in a sync and in an async logger, and with what
   timestamp. -/

import MuggleC.Log.AsyncDestroy

set_option autoImplicit false

namespace MuggleC.Log.LogFilter

open Base Foundation.Transition Sync
open Sync.ChannelFifo (messages)
open AsyncLogger System Function

variable {ι η : Type} [DecidableEq η]

/-- The configuration calls of a sync logger; a log call changes nothing of the setup. -/
def syncStep (s : Setup η) (c : Config η) : Option (Setup η) := some (s.configure false c)

private theorem covered_of_syncRun {handler : η → LogHandler} {cs : List (Config η)} {s : Setup η}
    (hr : run (guarded syncStep fun s c => ¬ s.Lowers c) ⟨Logger.init, handler⟩ cs = some s) :
    s.Covered := by
  refine run_invariant ?_ (Setup.covered_init handler) hr
  intro s c s' hs he
  obtain ⟨hg, he⟩ := guarded_eq_some.mp he
  cases he
  exact hs.configure false hg

variable [DecidableEq ι]

/-- The log call of thread `i` goes on after the test of `lowest_log_level`. -/
def Passes (s : System ι η) (i : ι) (c : LogCall) : Prop :=
  ∃ s', s.step (.log i c) = some s' ∧ s'.caller i = .alloc c

private theorem passes_iff {s : System ι η} {i : ι} (hpc : s.caller i = .idle)
    (hopen : ∀ n, s.destroy ≠ .returned n) (c : LogCall) :
    Passes s i c ∨ s.setup.recipients c.level = [] ↔ s.setup.Kept c.level := by
  have he : s.step (.log i c) = some (s.stepLog i c) := by
    cases hd : s.destroy with
    | returned n => exact absurd hd (hopen n)
    | notCalled | called n => simp only [step, hd, hpc]
  have hpass : Passes s i c ↔ s.setup.logger.lowestLogLevel ≤ c.level := by
    constructor
    · rintro ⟨s', hs', hcall⟩
      obtain rfl := Option.some.inj (he.symm.trans hs')
      by_contra hlow
      rw [stepLog, if_pos (by omega), hpc] at hcall
      cases hcall
    · intro hle
      refine ⟨_, he, ?_⟩
      rw [stepLog, if_neg (by omega)]
      exact update_self _ _ _
  rw [hpass, Setup.recipients_eq_nil, Setup.Kept]

/-- A call that lowers an added handler below the filter, a record that gets no memory, or a message
that the channel refuses. -/
def Drops (s : System ι η) : Event ι η → Prop
  | .config c => s.setup.Lowers c
  | .alloc _ none => True
  | e => Refuses sendsMessage s e

instance (s : System ι η) (e : Event ι η) : Decidable (Drops s e) := by
  refine e.casesOn ?_ ?_ (fun i mem => mem.casesOn ?_ ?_) ?_ ?_ ?_ ?_ ?_ ?_ ?_ ?_ ?_ <;> intros <;>
    dsimp only [Drops] <;> infer_instance

omit [DecidableEq η] [DecidableEq ι] in
theorem Drops.of_refuses {s : System ι η} {e : Event ι η} (h : Refuses sendsMessage s e) :
    Drops s e := by
  cases e with
  | writer i spurious => exact h
  | _ => exact h.elim

theorem covered_step {s s' : System ι η} {e : Event ι η} (h : s.setup.Covered) (hl : Linked s)
    (hs : s.Step e s') (hg : ¬ Drops s e) : s'.setup.Covered := by
  cases hs with
  | config c => exact h.configure true hg
  | written hc hidle =>
    obtain ⟨_, ⟨_, _, _, _, he⟩ | ⟨_, _, _, he⟩⟩ := hl.finish hc hidle <;> rw [he] <;> exact h
  | _ => exact h

/-- The log calls of an async logger reach the handlers that they should. -/
structure Reached (s₀ : System ι η) (events : List (Event ι η)) (s : System ι η) : Prop where
  kept : ∀ level, s.setup.Kept level
  placed : ∀ id, id < s.next → (∃ i, held s i = some id) ∨ some id ∈ messages s.chan
  delivered : (∀ n, s.destroy ≠ .returned n) → none ∉ messages s.chan →
    ∀ id, some id ∈ messages s.chan → Reaches (fun t => id ∈ t.handled) s
  written : ∀ id ∈ s.handled, WrittenIn s₀ events s id ∧
    (turnsOf s id).map Turn.handler <+: s.setup.logger.handlers

theorem reached_of_run {k : ℕ} {s₀ s : System ι η} {events : List (Event ι η)} (h₀ : RunInv k s₀)
    (hplaced₀ : Placed s₀) (hcovered₀ : s₀.setup.Covered)
    (hr : run (guarded step fun s e => ¬ Drops s e) s₀ events = some s) : Reached s₀ events s := by
  have hinv : RunInv k s ∧ Placed s ∧ s.setup.Covered := by
    refine run_invariant (I := fun s => RunInv k s ∧ Placed s ∧ s.setup.Covered) ?_
      ⟨h₀, hplaced₀, hcovered₀⟩ hr
    rintro s e s' ⟨h, hplaced, hcovered⟩ he
    obtain ⟨hg, he⟩ := guarded_eq_some.mp he
    obtain ⟨_, hs⟩ := step_cases he
    exact ⟨h.step he, hplaced.step h.linked hs fun href => hg (.of_refuses href),
      covered_step hcovered h.linked hs hg⟩
  obtain ⟨h, hplaced, hcovered⟩ := hinv
  refine ⟨hcovered.kept, hplaced.placed, ?_, ?_⟩
  · intro hopen hno id hid
    obtain ⟨p, hp⟩ := List.getElem?_of_mem hid
    exact h.can_handle hopen hp fun hmem => hno (List.mem_of_mem_take hmem)
  · intro id hid
    exact ⟨writtenIn_of_handled h₀ (run_of_guarded hr) hid, h.turned.through id (.inl hid)⟩

/-- A sync logger writes to exactly the added handlers whose level is not above the call's, and an async
logger goes on with such a call, if and only if the filter keeps the level. While no added handler is
lowered below the filter, it keeps every level, and the accepted messages of an async logger reach
all handlers added before, each by its level of that moment. -/
theorem log_reaches_accepting_handlers (handler : η → LogHandler) :
    (∀ (s : Setup η) (c : LogCall) (now : Stamp),
      (syncLog s c now).map Prod.fst = s.recipients c.level ↔ s.Kept c.level) ∧
    (∀ (cs : List (Config η)) (s : Setup η),
      run (guarded syncStep fun s c => ¬ s.Lowers c) ⟨Logger.init, handler⟩ cs = some s →
      ∀ c now, (syncLog s c now).map Prod.fst = s.recipients c.level) ∧
    (∀ (s : System ι η) (i : ι) (c : LogCall), s.caller i = .idle → (∀ n, s.destroy ≠ .returned n) →
      (Passes s i c ∨ s.setup.recipients c.level = [] ↔ s.setup.Kept c.level)) ∧
    ∀ (capacity : BitVec 32) (mutexInit : Err) (malloc : Bool) (chan : Channel (Option ℕ)),
      Channel.init none capacity 0#32 mutexInit malloc = .ok chan → 3 ≤ capacity.toNat →
      ∀ (msg : ℕ → LogMsg) (call : ℕ → LogCall) (events : List (Event ι η)) (s : System ι η),
        run (guarded System.step fun s e => ¬ Drops s e) (System.start chan handler msg call)
          events = some s →
        Reached (System.start chan handler msg call) events s := by
  refine ⟨Setup.syncLog_exact_iff, ?_, fun s i c hpc hopen => passes_iff hpc hopen c, ?_⟩
  · intro cs s hr c now
    exact (s.syncLog_exact_iff c now).mpr ((covered_of_syncRun hr).kept c.level)
  · intro capacity mutexInit malloc chan hi hcap msg call events s hr
    obtain ⟨k, hk⟩ := Channel.init_fresh hi
    exact reached_of_run (start_runInv hk (two_le_of_fresh hk hcap) handler msg call)
      (start_placed chan handler msg call) (Setup.covered_init handler) hr

theorem log_reaches_accepting_handlers_drained :
    ∃ s : System Bool Unit, s.handled = [0] ∧ WrittenIn loggerStart drainedRun s 0 := by
  have hrun : (run (guarded System.step fun s e => ¬ Drops s e) loggerStart drainedRun).map
      (fun s => s.handled) = some [0] := by decide
  obtain ⟨s, hs, hobs⟩ := Option.map_eq_some_iff.mp hrun
  have hreached := (log_reaches_accepting_handlers (ι := Bool) fun _ : Unit => infoHandler).2.2.2 4#32
    .ok true (.fourBlocks none) rfl (by decide) (fun _ => oldMsg) (fun _ => helloCall) drainedRun s hs
  exact ⟨s, hobs, (hreached.written 0 (hobs ▸ List.mem_singleton_self 0)).1⟩

def loweredRun : List (Config Unit) := [.addHandler (), .setLevel () 0]

theorem not_log_reaches_of_lowered :
    ∃ s : Setup Unit, run syncStep ⟨Logger.init, fun _ => infoHandler⟩ loweredRun = some s ∧
      s.recipients 0 = [()] ∧ syncLog s { helloCall with level := 0 } ⟨0, 0, 7⟩ = [] :=
  ⟨_, rfl, by decide, rfl⟩

/-- The timestamp is the time of the log call, or counts as not set. -/
def Timed (msg : LogMsg) (now : Stamp) : Prop :=
  (msg.tvSec, msg.tvNsec) = (now.tvSec, now.tvNsec) ∨ msg.tvSec = 0

instance (msg : LogMsg) (now : Stamp) : Decidable (Timed msg now) :=
  inferInstanceAs (Decidable (_ ∨ _))

def Settled (s : System ι η) (id : ℕ) : Prop :=
  id < s.next ∧ ∀ i c, s.caller i ≠ .fill id c

section Times

variable {s s' : System ι η} {e : Event ι η} {i : ι} {id : ℕ} {c : LogCall} {now : Stamp}

omit [DecidableEq η] in
theorem Settled.goto {pc : CallerPc} (h : Settled s id) (hpc : ∀ c, pc ≠ .fill id c) (j : ι)
    (c : LogCall) : update s.caller i pc j ≠ .fill id c := by
  rcases eq_or_ne j i with rfl | hne
  · rw [update_self]
    exact hpc c
  · rw [update_of_ne hne]
    exact h.2 j c

theorem Settled.step (h : Settled s id) (hs : s.Step e s') : Settled s' id ∧
    ((s'.msg id).tvSec, (s'.msg id).tvNsec) = ((s.msg id).tvSec, (s.msg id).tvNsec) := by
  cases hs with
  | alloc old hpc =>
    have hne : id ≠ s.next := Nat.ne_of_lt h.1
    refine ⟨⟨Nat.lt_succ_of_lt h.1, h.goto fun c => by simp [hne.symm]⟩, ?_⟩
    simp [System.stepAlloc, System.goto, update_of_ne hne]
  | @fill i id' c now hpc =>
    have hne : id ≠ id' := fun he => h.2 i c (he ▸ hpc)
    refine ⟨⟨h.1, h.goto (by simp)⟩, ?_⟩
    simp [stepFill, System.goto, System.use, update_of_ne hne]
  | @payload i id' c hpc =>
    refine ⟨⟨h.1, h.goto (by simp)⟩, ?_⟩
    rcases eq_or_ne id id' with rfl | hne
    · simp [System.stepPayload, System.goto, System.use]
    · simp [System.stepPayload, System.goto, System.use, update_of_ne hne]
  | @written i spurious chan hc hidle =>
    unfold afterWrite
    split
    · exact ⟨⟨h.1, h.goto (by simp)⟩, rfl⟩
    · exact ⟨⟨h.1, h.goto (by simp)⟩, rfl⟩
    · exact ⟨h, rfl⟩
  | enter hpc | noMemory hpc | destroy hpc | send hpc hc | marker hpc hc | join hpc =>
    exact ⟨⟨h.1, h.goto (by simp)⟩, rfl⟩
  | _ => exact ⟨h, rfl⟩

omit [DecidableEq η] in
private theorem settled_of_fill (ho : Owned s) (hpc : s.caller i = .fill id c) :
    Settled (s.stepFill i id c now) id := by
  have hheld : ∀ j d, s.caller j = .fill id d → held s j = some id := fun j d hj => by
    rw [held, hj]
    rfl
  refine ⟨ho.lt i id (hheld i c hpc), fun j d hj => ?_⟩
  change update s.caller i (.payload id c) j = _ at hj
  rcases eq_or_ne j i with rfl | hne
  · simp at hj
  · rw [update_of_ne hne] at hj
    exact hne (ho.unique j i id (hheld j d hj) (hheld i c hpc))

omit [DecidableEq η] [DecidableEq ι] in
theorem mem_loggerWrite {handler : η → LogHandler} {msg : LogMsg} {hs : List η} {p : η × LogMsg}
    (hp : p ∈ loggerWrite handler msg hs) : p.2 = msg := by
  induction hs with
  | nil => cases hp
  | cons h hs ih =>
    unfold loggerWrite at hp
    split at hp
    · rcases List.mem_cons.mp hp with rfl | hp
      · rfl
      · exact ih hp
    · exact ih hp

private theorem timed_stamp (msg : LogMsg) (hint : FmtHint) (now : Stamp) :
    Timed (msg.stamp hint now) now ↔ hint.time = true ∨ Timed msg now := by
  cases h : hint.time <;> simp [Timed, LogMsg.stamp, h]

end Times

/-- Both loggers: the message of a sync logger starts as zeros, and that of an async one has a right
timestamp at any time after it is filled in exactly if `fmt_hint` asks for it or the memory happens
to hold one. -/
theorem timed_iff (setup : Setup η) (call : LogCall) (now : Stamp) {chan : Channel (Option ℕ)}
    {handler : η → LogHandler} {msg : ℕ → LogMsg} {calls : ℕ → LogCall}
    {pre post : List (Event ι η)} {s u t : System ι η} {i : ι} {id : ℕ} {c : LogCall}
    (hpre : run step (start chan handler msg calls) pre = some s)
    (hpc : s.caller i = .fill id c) (hfill : s.step (.fill i now) = some u)
    (hpost : run step u post = some t) : (∀ p ∈ syncLog setup call now, Timed p.2 now) ∧
      (Timed (t.msg id) now ↔ s.setup.logger.fmtHint.time = true ∨ Timed (s.msg id) now) := by
  constructor
  · intro p hp
    unfold syncLog at hp
    split at hp
    · cases hp
    · rw [mem_loggerWrite hp]
      exact (timed_stamp _ _ _).mpr (.inr (.inr rfl))
  · obtain ⟨-, ho⟩ : Linked s ∧ Owned s := by
      refine run_invariant (I := fun v => Linked v ∧ Owned v) ?_
        ⟨start_linked chan handler msg calls, start_owned chan handler msg calls⟩ hpre
      rintro v e v' ⟨hl, ho⟩ he
      obtain ⟨-, hs⟩ := step_cases he
      exact ⟨hl.step hs, ho.step hl hs⟩
    obtain rfl : s.stepFill i id c now = u := by
      cases (step_cases hfill).2 with
      | fill _ hpc' =>
        rw [hpc] at hpc'
        cases hpc'
        rfl
    obtain ⟨-, hts⟩ := run_invariant (I := fun v => Settled v id ∧
        ((v.msg id).tvSec, (v.msg id).tvNsec) = (((s.stepFill i id c now).msg id).tvSec,
          ((s.stepFill i id c now).msg id).tvNsec))
      (fun v e v' hv he => ((hv.1.step (step_cases he).2).imp_right (·.trans hv.2)))
      ⟨settled_of_fill ho hpc, rfl⟩ hpost
    have hfilled : (s.stepFill i id c now).msg id =
        { (s.msg id).stamp s.setup.logger.fmtHint now with level := c.level, srcLoc := c.srcLoc } :=
      update_self ..
    rw [hfilled, Prod.mk.injEq] at hts
    rw [Timed, hts.1, hts.2]
    exact timed_stamp (s.msg id) _ now

theorem timed_zeros : ∃ t : System Bool Unit,
    run step loggerStart [.config (.addHandler ()), .log false helloCall,
      .alloc false (some oldMsg), .fill false ⟨100, 0, 7⟩, .payload false] = some t ∧
    Timed (t.msg 0) ⟨100, 0, 7⟩ :=
  ⟨_, rfl, (@timed_iff Bool Unit _ _ ⟨Logger.init, fun _ => infoHandler⟩ helloCall ⟨100, 0, 7⟩
    (.fourBlocks none) (fun _ => infoHandler) (fun _ => oldMsg) (fun _ => helloCall)
    [.config (.addHandler ()), .log false helloCall, .alloc false (some oldMsg)] [.payload false]
    _ _ _ false 0 helloCall rfl rfl rfl rfl).2.mpr (.inr (.inr rfl))⟩

theorem not_timed_of_simple : ∃ s : System Bool Unit,
    run step (.start (.fourBlocks none) (fun _ => ⟨levelInfo, some (fmtGetSimple fun _ => []), true⟩)
      (fun _ => oldMsg) fun _ => helloCall) ([.config (.addHandler ()), .log false helloCall,
        .alloc false (some { oldMsg with tvSec := 7 }), .fill false ⟨100, 0, 7⟩, .payload false,
        .send false] ++ List.replicate 9 (.writer false false) ++ readEvents) = some s ∧
    s.consumer = .writing 0 0 ∧ ¬ Timed (s.msg 0) ⟨100, 0, 7⟩ := by
  refine ⟨_, rfl, rfl, ?_⟩
  decide

end MuggleC.Log.LogFilter
