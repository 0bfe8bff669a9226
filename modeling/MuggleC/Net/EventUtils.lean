/- source: net/event/socket_event_utils.c, net/event/socket_event_select.c,
   net/event/socket_event_poll.c, net/event/socket_event_epoll.c
   digest: Refusing connections when there is no room, the timer and the timeout of the loops. -/

import Mathlib.Algebra.Order.Group.Int
import Mathlib.Algebra.Ring.Int.Defs
import Mathlib.Algebra.Ring.Nat
import MuggleC.Net.SocketPeer

set_option autoImplicit false

namespace MuggleC.Net.EventUtils

/-- The sockets that were closed, and how often the listening peer was. -/
structure Refusal where
  closed : List Int
  peerCloses : Nat
  deriving DecidableEq

/-- The loop, of which as many turns are run as the number says, and whether it has returned. -/
def refuseAccept (accept : Nat → Accept) (done : Refusal) : Nat → Refusal × Bool
  | 0 => (done, false)
  | turns + 1 =>
    match accept 0 with
    | .interrupted => refuseAccept (fun i => accept (i + 1)) done turns
    | .wouldBlock => (done, true)
    | .failed =>
      refuseAccept (fun i => accept (i + 1)) { done with peerCloses := done.peerCloses + 1 } turns
    | .connected fd =>
      refuseAccept (fun i => accept (i + 1)) { done with closed := done.closed ++ [fd] } turns

/-- The error that `accept` keeps failing with. -/
inductive Lasting
  | wouldBlock
  | failed
  deriving DecidableEq

def Lasting.result : Lasting → Accept
  | wouldBlock => .wouldBlock
  | failed => .failed

/-- Connections, and interrupted calls as `none`, and from then on the error. -/
def results (early : List (Option Int)) (lasting : Lasting) (i : Nat) : Accept :=
  match early[i]? with
  | some (some fd) => .connected fd
  | some none => .interrupted
  | none => lasting.result

private theorem refuseAccept_early (early : List (Option Int)) (lasting : Lasting) (done : Refusal)
    (turns : Nat) : refuseAccept (results early lasting) done (early.length + turns) =
      refuseAccept (results [] lasting) { done with closed := done.closed ++ early.filterMap id }
        turns := by
  induction early generalizing done with
  | nil => simp
  | cons a early ih =>
    rw [List.length_cons, Nat.add_right_comm]
    cases a with
    | none => exact (ih done).trans (by simp)
    | some fd => exact (ih _).trans (by simp)

theorem refuseAccept_failed (done : Refusal) (turns : Nat) :
    refuseAccept (results [] .failed) done turns =
      ({ done with peerCloses := done.peerCloses + turns }, false) := by
  induction turns generalizing done with
  | zero => rfl
  | succ turns ih =>
    refine (ih { done with peerCloses := done.peerCloses + 1 }).trans ?_
    simp [Nat.add_comm, Nat.add_left_comm]

private theorem refuseAccept_mono {accept : Nat → Accept} {done log : Refusal} {turns : Nat}
    (h : refuseAccept accept done turns = (log, true)) (more : Nat) :
    refuseAccept accept done (turns + more) = (log, true) := by
  induction turns generalizing accept done with
  | zero => simp [refuseAccept] at h
  | succ turns ih =>
    rw [Nat.add_right_comm]
    simp only [refuseAccept] at h ⊢
    cases haccept : accept 0 <;> simp only [haccept] at h ⊢
    · exact ih h
    · exact h
    · exact ih h
    · exact ih h

/-- It returns, having closed what it accepted and the listening peer once on an error, exactly
when the error is that it would block. -/
theorem refuseAccept_iff (early : List (Option Int)) (lasting : Lasting) :
    (∃ turns log, refuseAccept (results early lasting) ⟨[], 0⟩ turns = (log, true) ∧
        log.closed = early.filterMap id ∧ (lasting = .failed → log.peerCloses = 1)) ↔
      lasting = .wouldBlock := by
  constructor
  · rintro ⟨turns, log, h, -⟩
    cases lasting with
    | wouldBlock => rfl
    | failed =>
      have hlater := refuseAccept_mono h early.length
      rw [Nat.add_comm, refuseAccept_early, refuseAccept_failed] at hlater
      simp at hlater
  · rintro rfl
    refine ⟨early.length + 1, _, refuseAccept_early early .wouldBlock ⟨[], 0⟩ 1, by simp, ?_⟩
    simp

theorem refuseAccept_runs_on :
    (¬ ∃ turns log, refuseAccept (results [] .failed) ⟨[], 0⟩ turns = (log, true)) ∧
      refuseAccept (results [] .failed) ⟨[], 0⟩ 2 = (⟨[], 2⟩, false) := by
  refine ⟨?_, rfl⟩
  rintro ⟨turns, log, h⟩
  simp [refuseAccept_failed] at h

structure Timespec where
  sec : Int
  nsec : Int
  deriving DecidableEq

/-- The milliseconds between two readings, as an `int`; the division of C drops the fraction. -/
def intervalMs (t1 t2 : Timespec) : Int :=
  ((t2.sec - t1.sec) * 1000 + (t2.nsec - t1.nsec).tdiv 1000000).bmod (2 ^ 32)

/-- Whether `on_timer` is called, and `t1` afterwards. -/
def timerHandle (timeoutMs : Int) (t1 t2 : Timespec) : Bool × Timespec :=
  if intervalMs t1 t2 ≥ timeoutMs then (true, t2) else (false, t1)

def fired (timeoutMs : Int) : Timespec → List Timespec → List Bool
  | _, [] => []
  | t1, t2 :: clocks =>
    (timerHandle timeoutMs t1 t2).1 :: fired timeoutMs (timerHandle timeoutMs t1 t2).2 clocks

/-- All three loops read the clock before the first turn only with a positive timeout; `t1` is not
initialised otherwise. -/
def loopFired (timeoutMs : Int) (uninit start : Timespec) (clocks : List Timespec) : List Bool :=
  fired timeoutMs (if timeoutMs > 0 then start else uninit) clocks

def elapsed (r c : Timespec) : Int := (c.sec - r.sec) * 1000000000 + (c.nsec - r.nsec)

/-- The checks at which at least the timeout has passed since the last such check, or `r`. -/
def due (timeoutMs : Int) : Timespec → List Timespec → List Bool
  | _, [] => []
  | r, c :: clocks =>
    if timeoutMs * 1000000 ≤ elapsed r c then true :: due timeoutMs c clocks
    else false :: due timeoutMs r clocks

/-- The checks, each with the reading that it is to be compared with. -/
def compared (timeoutMs : Int) : Timespec → List Timespec → List (Timespec × Timespec)
  | _, [] => []
  | r, c :: clocks =>
    (r, c) :: compared timeoutMs (if timeoutMs * 1000000 ≤ elapsed r c then c else r) clocks

/-- The difference of the nanoseconds is negative and no whole number of milliseconds, so that
dropping its fraction makes the interval longer. -/
def RoundsUp (r c : Timespec) : Prop := c.nsec < r.nsec ∧ ¬ (1000000 : Int) ∣ c.nsec - r.nsec

instance (r c : Timespec) : Decidable (RoundsUp r c) := inferInstanceAs (Decidable (_ ∧ _))

/-- The interval before it becomes an `int`. -/
def wholeMs (r c : Timespec) : Int := elapsed r c / 1000000 + if RoundsUp r c then 1 else 0

theorem intervalMs_eq (r c : Timespec) : intervalMs r c = (wholeMs r c).bmod (2 ^ 32) := by
  have h : (c.sec - r.sec) * 1000 + (c.nsec - r.nsec).tdiv 1000000 = wholeMs r c := by
    have hsign : Int.sign 1000000 = 1 := rfl
    rw [Int.tdiv_eq_ediv, hsign, wholeMs, elapsed]
    unfold RoundsUp
    split_ifs <;> omega
  rw [intervalMs, h]

/-- A check is right unless it is in the last millisecond before it is due and rounds up, or the
interval is too long for an `int` and wraps to less than the timeout. -/
def Timely (timeoutMs : Int) (r c : Timespec) : Prop :=
  (RoundsUp r c → elapsed r c / 1000000 ≠ timeoutMs - 1) ∧
    (timeoutMs * 1000000 ≤ elapsed r c → timeoutMs ≤ (wholeMs r c).bmod (2 ^ 32))

instance (timeoutMs : Int) (r c : Timespec) : Decidable (Timely timeoutMs r c) :=
  inferInstanceAs (Decidable (_ ∧ _))

private theorem timely_iff {timeoutMs : Int} {r c : Timespec} (hmax : timeoutMs < 2 ^ 31)
    (hc : 0 ≤ elapsed r c) :
    (timeoutMs ≤ intervalMs r c ↔ timeoutMs * 1000000 ≤ elapsed r c) ↔ Timely timeoutMs r c := by
  rw [intervalMs_eq, Timely]
  by_cases hdue : timeoutMs * 1000000 ≤ elapsed r c
  · simp [hdue]
    omega
  · have hwhole : 0 ≤ wholeMs r c ∧ wholeMs r c < 2 ^ 31 := by
      rw [wholeMs]
      split_ifs <;> omega
    have hint : (wholeMs r c).bmod (2 ^ 32) = wholeMs r c := by
      rw [Int.bmod_def]
      omega
    rw [hint, wholeMs]
    split_ifs with hround <;> simp [hdue, hround] <;> omega

section Runs

variable {timeoutMs : Int} {r uninit start : Timespec} {clocks : List Timespec}

private theorem fired_eq_due (hmax : timeoutMs < 2 ^ 31) (hr : ∀ c ∈ clocks, 0 ≤ elapsed r c)
    (hclocks : clocks.Pairwise fun a b => 0 ≤ elapsed a b) :
    fired timeoutMs r clocks = due timeoutMs r clocks ↔
      ∀ p ∈ compared timeoutMs r clocks, Timely timeoutMs p.1 p.2 := by
  induction clocks generalizing r with
  | nil => simp [fired, due, compared]
  | cons c clocks ih =>
    obtain ⟨hc, hclocks⟩ := List.pairwise_cons.mp hclocks
    simp only [compared, List.forall_mem_cons, ← timely_iff hmax (hr c (by simp))]
    by_cases hdue : timeoutMs * 1000000 ≤ elapsed r c
    · by_cases hfire : timeoutMs ≤ intervalMs r c
      · simp [fired, due, timerHandle, hdue, hfire, ih hc hclocks]
      · simp [fired, due, timerHandle, hdue, hfire]
    · by_cases hfire : timeoutMs ≤ intervalMs r c
      · simp [fired, due, timerHandle, hdue, hfire]
      · simp [fired, due, timerHandle, hdue, hfire, ih (fun d hd => hr d (by simp [hd])) hclocks]

private theorem fired_zero_eq_due (hr : ∀ c ∈ clocks, 0 ≤ elapsed r c)
    (hclocks : clocks.Pairwise fun a b => 0 ≤ elapsed a b) :
    fired 0 uninit clocks = due 0 r clocks ↔
      ∀ p ∈ (uninit :: clocks).zip clocks, 0 ≤ intervalMs p.1 p.2 := by
  induction clocks generalizing r uninit with
  | nil => simp [fired, due]
  | cons c clocks ih =>
    obtain ⟨hc, hclocks⟩ := List.pairwise_cons.mp hclocks
    simp only [List.zip_cons_cons, List.forall_mem_cons]
    by_cases hfire : 0 ≤ intervalMs uninit c
    · simp only [fired, due, timerHandle, ge_iff_le, hfire, if_true, Int.zero_mul, hr c (by simp),
        List.cons.injEq, true_and, ih hc hclocks]
    · simp [fired, due, timerHandle, hr c (by simp), hfire]

end Runs

/-- The calls are the due ones exactly when every check is timely; without a timeout, when no
interval is negative as an `int`, the first of them from a time that was never read. -/
theorem loopFired_iff (timeoutMs : Int) (uninit start : Timespec) (clocks : List Timespec)
    (hmin : 0 ≤ timeoutMs) (hmax : timeoutMs < 2 ^ 31)
    (hclocks : (start :: clocks).Pairwise fun a b => 0 ≤ elapsed a b) :
    loopFired timeoutMs uninit start clocks = due timeoutMs start clocks ↔
      (0 < timeoutMs → ∀ p ∈ compared timeoutMs start clocks, Timely timeoutMs p.1 p.2) ∧
      (timeoutMs = 0 →
        ∀ p ∈ (uninit :: clocks).zip clocks, 0 ≤ (wholeMs p.1 p.2).bmod (2 ^ 32)) := by
  obtain ⟨hstart, hclocks⟩ := List.pairwise_cons.mp hclocks
  simp only [← intervalMs_eq]
  obtain rfl | hpos : 0 = timeoutMs ∨ 0 < timeoutMs := by omega
  · simpa [loopFired] using fired_zero_eq_due hstart hclocks
  · simpa [loopFired, hpos, show timeoutMs ≠ 0 by omega] using fired_eq_due hmax hstart hclocks

theorem loopFired_two_seconds :
    loopFired 1000 ⟨0, 0⟩ ⟨5, 0⟩ [⟨5, 500⟩, ⟨6, 700⟩] = due 1000 ⟨5, 0⟩ [⟨5, 500⟩, ⟨6, 700⟩] :=
  (loopFired_iff 1000 ⟨0, 0⟩ ⟨5, 0⟩ [⟨5, 500⟩, ⟨6, 700⟩] (by decide) (by decide) (by decide)).mpr
    ⟨fun _ => by decide +kernel, by decide⟩

theorem loopFired_early : loopFired 1 ⟨0, 0⟩ ⟨0, 999999999⟩ [⟨1, 0⟩] = [true] ∧
    due 1 ⟨0, 999999999⟩ [⟨1, 0⟩] = [false] := by decide

end MuggleC.Net.EventUtils

namespace MuggleC.Net.SelectTimeout

structure Timeval where
  sec : Int
  usec : Int
  deriving DecidableEq

/-- `timeout` and `save_timeout` before the loop; the latter is filled only for a positive
timeout. -/
def timeouts (timeoutMs : Int) (uninit : Timeval) : Timeval × Timeval :=
  if timeoutMs > 0 then
    let timeout : Timeval := ⟨timeoutMs / 1000, timeoutMs % 1000 * 1000⟩
    (timeout, timeout)
  else (⟨0, 0⟩, uninit)

/-- What `select` is given at each call, where it leaves the listed values in the `timeval` that it
is given. -/
def given (timeoutMs : Int) (timeout save : Timeval) : List Timeval → List (Option Timeval)
  | [] => []
  | left :: lefts =>
    -- `p_timeout` is `NULL` for a negative timeout
    if timeoutMs < 0 then none :: given timeoutMs timeout save lefts
    else
      let timeout := save
      some timeout :: given timeoutMs left save lefts

def loopGiven (timeoutMs : Int) (uninit : Timeval) (lefts : List Timeval) : List (Option Timeval) :=
  given timeoutMs (timeouts timeoutMs uninit).1 (timeouts timeoutMs uninit).2 lefts

def Timeval.Denotes (tv : Timeval) (ms : Int) : Prop :=
  0 ≤ tv.usec ∧ tv.usec < 1000000 ∧ tv.sec * 1000000 + tv.usec = ms * 1000

/-- The argument that is asked for. -/
def Waits (timeoutMs : Int) (arg : Option Timeval) : Prop :=
  if timeoutMs < 0 then arg = none else ∃ tv, arg = some tv ∧ tv.Denotes timeoutMs

private theorem mem_given {timeoutMs : Int} {timeout save : Timeval} {lefts : List Timeval}
    {arg : Option Timeval} : arg ∈ given timeoutMs timeout save lefts ↔
      lefts ≠ [] ∧ arg = if timeoutMs < 0 then none else some save := by
  induction lefts generalizing timeout with
  | nil => simp [given]
  | cons left lefts ih =>
    unfold given
    split_ifs with hneg <;> simp [ih, hneg]

/-- Every call waits as long as asked, unless the timeout is 0: then it waits for as long as the
value says that `save_timeout` was never given. -/
theorem loopGiven_iff (timeoutMs : Int) (uninit : Timeval) (lefts : List Timeval) :
    (∀ arg ∈ loopGiven timeoutMs uninit lefts, Waits timeoutMs arg) ↔
      timeoutMs ≠ 0 ∨ lefts = [] ∨ uninit = ⟨0, 0⟩ := by
  simp only [loopGiven, mem_given, timeouts, Waits, Timeval.Denotes]
  obtain hneg | rfl | hpos : timeoutMs < 0 ∨ timeoutMs = 0 ∨ 0 < timeoutMs := by omega
  · simp [hneg]
    omega
  · obtain ⟨sec, usec⟩ := uninit
    by_cases hl : lefts = []
    · simp [hl]
    · simp [hl]
      omega
  · simp [hpos, show ¬ timeoutMs < 0 by omega, show timeoutMs ≠ 0 by omega]
    omega

theorem loopGiven_uninit :
    loopGiven 0 ⟨7, 0⟩ [⟨0, 0⟩] = [some ⟨7, 0⟩] ∧ ¬ Waits 0 (some ⟨7, 0⟩) := by
  refine ⟨rfl, ?_⟩
  simp [Waits, Timeval.Denotes]

end MuggleC.Net.SelectTimeout
