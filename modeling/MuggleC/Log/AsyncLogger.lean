/- source: log/log_async_logger.c, log/log_logger.c
   digest: The async logger: threads that log or destroy it, its channel, and the logger thread. -/

import MuggleC.Log.Logger
import MuggleC.Sync.Channel

set_option autoImplicit false

/-! A message record and its payload are known by the number of the allocation. The channel carries
these numbers, and `none` is the end marker. A payload that gets no memory is undefined behaviour,
and there is no such step. The fields below `consumer` record what has happened and are read by no
step. -/

namespace MuggleC.Log.AsyncLogger

open Base Sync

/-- Where a thread stands inside `muggle_async_logger_log` or `muggle_async_logger_destroy`. -/
inductive CallerPc
  | idle
  | alloc (c : LogCall)
  | fill (id : ℕ) (c : LogCall)
  | payload (id : ℕ) (c : LogCall)
  | send (id : ℕ)
  | sending (id : ℕ)
  | marker
  | sendingMarker
  | join
  | returned
  deriving DecidableEq, Repr

inductive ConsumerPc
  | reading
  | writing (id : ℕ) (i : ℕ)
  | freePayload (id : ℕ)
  | freeMsg (id : ℕ)
  | exited
  deriving DecidableEq, Repr

inductive Block
  | record (id : ℕ)
  | payload (id : ℕ)
  deriving DecidableEq, Repr

structure Turn (η : Type) where
  id : ℕ
  handler : η
  level : ℤ
  written : Bool

/-- How far `muggle_async_logger_destroy` is, with the number of messages that had been accepted when
it was called. -/
inductive Destroy
  | notCalled
  | called (accepted : ℕ)
  | returned (accepted : ℕ)
  deriving DecidableEq, Repr

structure System (ι η : Type) where
  chan : ChannelSteps.State ι (Option ℕ)
  setup : Setup η
  msg : ℕ → LogMsg
  caller : ι → CallerPc
  consumer : ConsumerPc
  next : ℕ
  call : ℕ → LogCall
  allocated : List Block
  released : List Block
  misused : List Block
  turns : List (Turn η)
  handled : List ℕ
  logging : List ι
  destroy : Destroy

inductive Event (ι η : Type)
  | config (c : Config η)
  | log (i : ι) (c : LogCall)
  | alloc (i : ι) (mem : Option LogMsg)
  | fill (i : ι) (now : Stamp)
  | payload (i : ι)
  | destroy (i : ι)
  | send (i : ι)
  | writer (i : ι) (spurious : Bool)
  | join (i : ι)
  | consume
  | reader
  | interrupt

namespace System

variable {ι η : Type}

/-- `muggle_async_logger_init` after the channel and the thread have been made. -/
def start (chan : Channel (Option ℕ)) (handler : η → LogHandler) (msg : ℕ → LogMsg)
    (call : ℕ → LogCall) : System ι η where
  chan := .start chan
  setup := ⟨Logger.init, handler⟩
  msg := msg
  caller := fun _ => .idle
  consumer := .reading
  next := 0
  call := call
  allocated := []
  released := []
  misused := []
  turns := []
  handled := []
  logging := []
  destroy := .notCalled

def live (s : System ι η) (b : Block) : Prop := b ∈ s.allocated ∧ b ∉ s.released

instance (s : System ι η) (b : Block) : Decidable (s.live b) := by
  unfold live
  infer_instance

def use (s : System ι η) (b : Block) : System ι η :=
  { s with misused := if s.live b then s.misused else s.misused ++ [b] }

variable [DecidableEq ι]

def goto (s : System ι η) (i : ι) (pc : CallerPc) : System ι η :=
  { s with caller := Function.update s.caller i pc }

/-- The test of `lowest_log_level` at the start of a log call. -/
def stepLog (s : System ι η) (i : ι) (c : LogCall) : System ι η :=
  if s.setup.logger.lowestLogLevel > c.level then s
  else { s with logging := s.logging ++ [i] }.goto i (.alloc c)

/-- `p_alloc`, with what the memory holds before. Without memory the call returns. -/
def stepAlloc (s : System ι η) (i : ι) (c : LogCall) : Option LogMsg → System ι η
  | none => { s with logging := s.logging.erase i }.goto i .idle
  | some old => { s with
      msg := Function.update s.msg s.next old
      call := Function.update s.call s.next c
      allocated := s.allocated ++ [Block.record s.next]
      next := s.next + 1 }.goto i (.fill s.next c)

/-- The level, the fields that `fmt_hint` asks for, and the source location. -/
def stepFill (s : System ι η) (i : ι) (id : ℕ) (c : LogCall) (now : Stamp) : System ι η :=
  let s := s.use (Block.record id)
  { s with
    msg := Function.update s.msg id
      { (s.msg id).stamp s.setup.logger.fmtHint now with level := c.level, srcLoc := c.srcLoc }
  }.goto i (.payload id c)

/-- `malloc` of the payload, `vsnprintf`, and the store of the pointer. -/
def stepPayload (s : System ι η) (i : ι) (id : ℕ) (c : LogCall) : System ι η :=
  let s := s.use (Block.record id)
  { s with
    allocated := s.allocated ++ [Block.payload id]
    msg := Function.update s.msg id
      { s.msg id with payload := some (snprintf msgMaxLen c.text) } }.goto i (.send id)

/-- The call of `muggle_channel_write`. -/
def stepSend (s : System ι η) (i : ι) (data : Option ℕ) (pc : CallerPc) : Option (System ι η) :=
  (s.chan.step (.write i data)).map fun chan => { s with chan := chan }.goto i pc

def afterWrite (s : System ι η) (i : ι) : System ι η :=
  match s.caller i with
  | .sending _ => { s with logging := s.logging.erase i }.goto i .idle
  | .sendingMarker => s.goto i .join
  | _ => s

/-- A step inside `muggle_channel_write`. -/
def stepWriter (s : System ι η) (i : ι) (spurious : Bool) : Option (System ι η) :=
  (s.chan.step (.writer i spurious)).map fun chan =>
    let s := { s with chan := chan }
    match chan.writer i with
    | .idle => s.afterWrite i
    | _ => s

omit [DecidableEq ι] in
def received (s : System ι η) (data : Option ℕ) : System ι η :=
  { s with
    consumer :=
      match data with
      | none => .exited
      | some id => .writing id 0 }

/-- A step inside `muggle_channel_read`. -/
def stepReader (s : System ι η) : Option (System ι η) :=
  (s.chan.step .reader).map fun chan =>
    match s.chan.reader with
    | .storeRead data _ => { s with chan := chan }.received data
    | _ => { s with chan := chan }

omit [DecidableEq ι] in
/-- One handler's turn in `muggle_logger_write`. -/
def stepTurn (s : System ι η) (id i : ℕ) (h : η) : System ι η :=
  let s := s.use (Block.record id)
  let handler := s.setup.handler h
  let written := handler.shouldWrite (s.msg id).level
  { s with
    misused := if written then (s.use (Block.payload id)).misused else s.misused
    turns := s.turns ++ [⟨id, h, handler.level, written⟩]
    consumer := .writing id (i + 1) }

/-- A step of the logger thread outside `muggle_channel_read`. -/
def stepConsume (s : System ι η) : Option (System ι η) :=
  match s.consumer with
  | .reading => (s.chan.step .read).map fun chan => { s with chan := chan }
  | .writing id i =>
    match s.setup.logger.handlers[i]? with
    | some h => some (s.stepTurn id i h)
    | none => some { s with consumer := .freePayload id }
  | .freePayload id =>
    let s := s.use (Block.record id)
    some { s with released := s.released ++ [.payload id], consumer := .freeMsg id }
  | .freeMsg id =>
    some { s with
      released := s.released ++ [.record id]
      handled := s.handled ++ [id]
      consumer := .reading }
  | .exited => none

/-- `muggle_thread_join` returns when the logger thread has ended. -/
def stepJoin (s : System ι η) (i : ι) : Option (System ι η) :=
  match s.destroy, s.consumer with
  | .called accepted, .exited =>
    some ({ s with destroy := .returned accepted }.goto i .returned)
  | _, _ => none

variable [DecidableEq η]

/-- Nothing uses the logger once `muggle_async_logger_destroy` has returned. -/
def step (s : System ι η) (e : Event ι η) : Option (System ι η) :=
  match s.destroy with
  | .returned _ => none
  | _ =>
    match e with
    | .config c => some { s with setup := s.setup.configure true c }
    | .log i c =>
      match s.caller i with
      | .idle => some (s.stepLog i c)
      | _ => none
    | .alloc i mem =>
      match s.caller i with
      | .alloc c => some (s.stepAlloc i c mem)
      | _ => none
    | .fill i now =>
      match s.caller i with
      | .fill id c => some (s.stepFill i id c now)
      | _ => none
    | .payload i =>
      match s.caller i with
      | .payload id c => some (s.stepPayload i id c)
      | _ => none
    | .destroy i =>
      match s.caller i, s.destroy with
      | .idle, .notCalled =>
        some ({ s with destroy := .called s.chan.accepted.length }.goto i .marker)
      | _, _ => none
    | .send i =>
      match s.caller i with
      | .send id => s.stepSend i (some id) (.sending id)
      | .marker => s.stepSend i none .sendingMarker
      | _ => none
    | .writer i spurious => s.stepWriter i spurious
    | .join i =>
      match s.caller i with
      | .join => s.stepJoin i
      | _ => none
    | .consume => s.stepConsume
    | .reader => s.stepReader
    | .interrupt => (s.chan.step .interrupt).map fun chan => { s with chan := chan }

inductive Step (s : System ι η) : Event ι η → System ι η → Prop
  | config (c : Config η) : Step s (.config c) { s with setup := s.setup.configure true c }
  | drop {i : ι} {c : LogCall} (hpc : s.caller i = .idle)
      (hlow : s.setup.logger.lowestLogLevel > c.level) : Step s (.log i c) s
  | enter {i : ι} {c : LogCall} (hpc : s.caller i = .idle)
      (hlow : ¬ s.setup.logger.lowestLogLevel > c.level) :
      Step s (.log i c) ({ s with logging := s.logging ++ [i] }.goto i (.alloc c))
  | noMemory {i : ι} {c : LogCall} (hpc : s.caller i = .alloc c) :
      Step s (.alloc i none) ({ s with logging := s.logging.erase i }.goto i .idle)
  | alloc {i : ι} {c : LogCall} (old : LogMsg) (hpc : s.caller i = .alloc c) :
      Step s (.alloc i (some old)) (s.stepAlloc i c (some old))
  | fill {i : ι} {id : ℕ} {c : LogCall} (now : Stamp) (hpc : s.caller i = .fill id c) :
      Step s (.fill i now) (s.stepFill i id c now)
  | payload {i : ι} {id : ℕ} {c : LogCall} (hpc : s.caller i = .payload id c) :
      Step s (.payload i) (s.stepPayload i id c)
  | destroy {i : ι} (hpc : s.caller i = .idle) (hd : s.destroy = .notCalled) :
      Step s (.destroy i) ({ s with destroy := .called s.chan.accepted.length }.goto i .marker)
  | send {i : ι} {id : ℕ} {chan : ChannelSteps.State ι (Option ℕ)} (hpc : s.caller i = .send id)
      (hc : s.chan.step (.write i (some id)) = some chan) :
      Step s (.send i) ({ s with chan := chan }.goto i (.sending id))
  | marker {i : ι} {chan : ChannelSteps.State ι (Option ℕ)} (hpc : s.caller i = .marker)
      (hc : s.chan.step (.write i none) = some chan) :
      Step s (.send i) ({ s with chan := chan }.goto i .sendingMarker)
  | writing {i : ι} {spurious : Bool} {chan : ChannelSteps.State ι (Option ℕ)}
      (hc : s.chan.step (.writer i spurious) = some chan) (hbusy : chan.writer i ≠ .idle) :
      Step s (.writer i spurious) { s with chan := chan }
  | written {i : ι} {spurious : Bool} {chan : ChannelSteps.State ι (Option ℕ)}
      (hc : s.chan.step (.writer i spurious) = some chan) (hidle : chan.writer i = .idle) :
      Step s (.writer i spurious) ({ s with chan := chan }.afterWrite i)
  | join {i : ι} {accepted : ℕ} (hpc : s.caller i = .join) (hd : s.destroy = .called accepted)
      (hexit : s.consumer = .exited) :
      Step s (.join i) ({ s with destroy := .returned accepted }.goto i .returned)
  | read {chan : ChannelSteps.State ι (Option ℕ)} (hcons : s.consumer = .reading)
      (hc : s.chan.step .read = some chan) : Step s .consume { s with chan := chan }
  | turn {id n : ℕ} {h : η} (hcons : s.consumer = .writing id n)
      (hh : s.setup.logger.handlers[n]? = some h) : Step s .consume (s.stepTurn id n h)
  | loopEnd {id n : ℕ} (hcons : s.consumer = .writing id n)
      (hh : s.setup.logger.handlers[n]? = none) :
      Step s .consume { s with consumer := .freePayload id }
  | freePayload {id : ℕ} (hcons : s.consumer = .freePayload id) :
      Step s .consume { s.use (.record id) with
        released := s.released ++ [.payload id], consumer := .freeMsg id }
  | freeMsg {id : ℕ} (hcons : s.consumer = .freeMsg id) :
      Step s .consume { s with
        released := s.released ++ [.record id]
        handled := s.handled ++ [id]
        consumer := .reading }
  | reader {chan : ChannelSteps.State ι (Option ℕ)} (hc : s.chan.step .reader = some chan)
      (hno : ∀ data r, s.chan.reader ≠ .storeRead data r) : Step s .reader { s with chan := chan }
  | received {data : Option ℕ} {r : BitVec 32} {chan : ChannelSteps.State ι (Option ℕ)}
      (hc : s.chan.step .reader = some chan) (hpc : s.chan.reader = .storeRead data r) :
      Step s .reader ({ s with chan := chan }.received data)
  | interrupt {chan : ChannelSteps.State ι (Option ℕ)} (hc : s.chan.step .interrupt = some chan) :
      Step s .interrupt { s with chan := chan }

variable {s s' : System ι η} {i : ι}

private theorem stepLog_cases (hpc : s.caller i = .idle) (c : LogCall) :
    Step s (.log i c) (s.stepLog i c) := by
  unfold stepLog
  split
  · next hlow => exact .drop hpc hlow
  · next hlow => exact .enter hpc hlow

private theorem stepAlloc_cases {c : LogCall} (hpc : s.caller i = .alloc c) (mem : Option LogMsg) :
    Step s (.alloc i mem) (s.stepAlloc i c mem) := by
  cases mem with
  | none => exact .noMemory hpc
  | some old => exact .alloc old hpc

private theorem stepWriter_cases {spurious : Bool} (h : s.stepWriter i spurious = some s') :
    Step s (.writer i spurious) s' := by
  obtain ⟨chan, hc, rfl⟩ := Option.map_eq_some_iff.mp h
  split
  · next hidle => exact .written hc hidle
  · next hbusy => exact .writing hc hbusy

private theorem stepJoin_cases (hpc : s.caller i = .join) (h : s.stepJoin i = some s') :
    Step s (.join i) s' := by
  unfold stepJoin at h
  split at h
  · next n hd hexit =>
    cases h
    exact .join hpc hd hexit
  · cases h

private theorem stepConsume_cases (h : s.stepConsume = some s') : Step s .consume s' := by
  unfold stepConsume at h
  split at h
  · next hcons =>
    obtain ⟨chan, hc, rfl⟩ := Option.map_eq_some_iff.mp h
    exact .read hcons hc
  · next id n hcons =>
    split at h
    · next x hh =>
      cases h
      exact .turn hcons hh
    · next hh =>
      cases h
      exact .loopEnd hcons hh
  · next id hcons =>
    cases h
    exact .freePayload hcons
  · next id hcons =>
    cases h
    exact .freeMsg hcons
  · cases h

private theorem stepReader_cases (h : s.stepReader = some s') : Step s .reader s' := by
  obtain ⟨chan, hc, rfl⟩ := Option.map_eq_some_iff.mp h
  split
  · next data r hpc => exact .received hc hpc
  · next hno => exact .reader hc hno

theorem step_cases {e : Event ι η} (h : s.step e = some s') :
    (∀ n, s.destroy ≠ .returned n) ∧ Step s e s' := by
  unfold step at h
  split at h
  · cases h
  · next hopen =>
    refine ⟨hopen, ?_⟩
    cases e with
    | config c =>
      cases h
      exact .config c
    | log i c =>
      dsimp only at h
      split at h
      · next hpc => exact Option.some.inj h ▸ stepLog_cases hpc c
      · cases h
    | alloc i mem =>
      dsimp only at h
      split at h
      · next c hpc => exact Option.some.inj h ▸ stepAlloc_cases hpc mem
      · cases h
    | fill i now =>
      dsimp only at h
      split at h
      · next id c hpc => exact Option.some.inj h ▸ .fill now hpc
      · cases h
    | payload i =>
      dsimp only at h
      split at h
      · next id c hpc => exact Option.some.inj h ▸ .payload hpc
      · cases h
    | destroy i =>
      dsimp only at h
      split at h
      · next hpc hd => exact Option.some.inj h ▸ .destroy hpc hd
      · cases h
    | send i =>
      dsimp only at h
      split at h
      · next id hpc =>
        obtain ⟨chan, hc, rfl⟩ := Option.map_eq_some_iff.mp h
        exact .send hpc hc
      · next hpc =>
        obtain ⟨chan, hc, rfl⟩ := Option.map_eq_some_iff.mp h
        exact .marker hpc hc
      · cases h
    | join i =>
      dsimp only at h
      split at h
      · next hpc => exact stepJoin_cases hpc h
      · cases h
    | writer i spurious => exact stepWriter_cases h
    | consume => exact stepConsume_cases h
    | reader => exact stepReader_cases h
    | interrupt =>
      obtain ⟨chan, hc, rfl⟩ := Option.map_eq_some_iff.mp h
      exact .interrupt hc

end System

end MuggleC.Log.AsyncLogger
