/- source: log/log_fmt.c, log/log_level.c, log/log_msg.h, log/log_handler.c,
   log/log_console_handler.c, log/log_file_handler.c, log/log_file_rotate_handler.c,
   log/log_file_time_rot_handler.c, log/log_logger.c, log/log_sync_logger.c,
   log/log_async_logger.c, os/path.c
   digest: Log messages and formats, loggers and their filters, and what handlers hand to fwrite. -/

import Mathlib.Algebra.Ring.Int.Defs
import MuggleC.Log.FileRotateHandler
import MuggleC.Log.FileTimeRotHandler

set_option autoImplicit false

namespace MuggleC.Log

open Base

def levelOffset : ℕ := 8

def levelInfo : ℤ := 2 * 2 ^ levelOffset

def levelWarning : ℤ := 3 * 2 ^ levelOffset

def levelError : ℤ := 4 * 2 ^ levelOffset

def levelFatal : ℤ := 5 * 2 ^ levelOffset

def levelNames : List Str :=
  ["TRACE".toList, "DEBUG".toList, "INFO".toList, "WARNING".toList, "ERROR".toList, "FATAL".toList]

def levelToStr (logLevel : ℤ) : Str :=
  let level := logLevel / 2 ^ levelOffset
  if level ≥ 0 ∧ level < levelNames.length then levelNames.getD level.toNat []
  else "UNKNOWN".toList

structure SrcLoc where
  file : Str
  line : BitVec 32
  func : Str
  deriving DecidableEq, Repr

structure LogMsg where
  level : ℤ
  tvSec : ℤ
  tvNsec : ℤ
  tid : ℕ
  srcLoc : SrcLoc
  payload : Option Str
  deriving DecidableEq, Repr

def lastSeparator (path : Str) : ℕ → Option ℕ
  | 0 => none
  | pos + 1 =>
    if path[pos]? = some '/' ∨ path[pos]? = some '\\' then some pos else lastSeparator path pos

section Model

-- The string that the memory of a local array holds from a byte on, before anything is written to
-- the array.
variable (stack : ℕ → Str)

def strncpy (path : Str) (n : ℕ) : Str :=
  if path.length < n then path else path.take n ++ stack n

/-- `muggle_path_basename`, with the string in `ret` after the call. -/
def pathBasename (path : Str) (size : ℕ) : Err × Str :=
  let totalLen := (BitVec.ofNat 32 path.length).toInt
  if size ≤ 1 then (.invalidParam, stack 0)
  else if totalLen ≤ 0 then (.invalidParam, stack 0)
  else
    match lastSeparator path totalLen.toNat with
    | none =>
      if totalLen.toNat > size - 1 then (.invalidParam, stack 0)
      else (.ok, strncpy stack path (size - 1))
    | some pos =>
      let len := totalLen.toNat - 1 - pos
      if len = 0 then (.invalidParam, stack 0)
      else (.ok, (path.drop (pos + 1)).take (if len ≥ size then size - 1 else len))

def intMax : ℕ := 2 ^ 31 - 1

structure Printed where
  ret : ℤ
  stored : Str
  deriving DecidableEq, Repr

def print (bufsize : ℕ) (text : Str) : Printed :=
  ⟨if text.length ≤ intMax then text.length else -1, snprintf bufsize text ++ ['\x00']⟩

def padded3 (i : ℤ) : Str :=
  let sign := if i < 0 then ['-'] else []
  let digits := Nat.toDigits 10 i.natAbs
  sign ++ List.replicate (3 - sign.length - digits.length) '0' ++ digits

def fileNameOf (msg : LogMsg) : Str := (pathBasename stack msg.srcLoc.file maxPath).2

def payloadOf (msg : LogMsg) : Str := msg.payload.getD []

def simpleParts (msg : LogMsg) : List Str :=
  [levelToStr msg.level, ['|'], fileNameOf stack msg, [':'], decimal msg.srcLoc.line.toNat,
    " - ".toList, payloadOf msg, ['\n']]

def fmtSimple (msg : LogMsg) (bufsize : ℕ) : Printed := print bufsize (simpleParts stack msg).flatten

-- `gmtime_r`, or what is in `t` when it fails.
variable (gmtimeR : ℤ → Tm)

open FileTimeRotHandler (padded) in
def complicatedParts (msg : LogMsg) : List Str :=
  let t := gmtimeR msg.tvSec
  [levelToStr msg.level, ['|'], decimal (t.year + 1900), ['-'], padded (t.mon + 1), ['-'],
    padded t.mday, ['T'], padded t.hour, [':'], padded t.min, [':'], padded t.sec, ['.'],
    padded3 ((BitVec.ofInt 32 msg.tvNsec).toInt.tdiv 1000000), ['|'], fileNameOf stack msg, [':'],
    decimal msg.srcLoc.line.toNat, ['|'], msg.srcLoc.func, ['|'], decimal msg.tid, " - ".toList,
    payloadOf msg, ['\n']]

def fmtComplicated (msg : LogMsg) (bufsize : ℕ) : Printed :=
  print bufsize (complicatedParts stack gmtimeR msg).flatten

structure FmtHint where
  level : Bool
  file : Bool
  func : Bool
  time : Bool
  thread : Bool
  deriving DecidableEq, Repr

def FmtHint.union (a b : FmtHint) : FmtHint :=
  ⟨a.level || b.level, a.file || b.file, a.func || b.func, a.time || b.time, a.thread || b.thread⟩

structure LogFmt where
  fmtHint : FmtHint
  fmtFunc : LogMsg → ℕ → Printed

def fmtGetSimple : LogFmt := ⟨⟨true, true, true, false, false⟩, fmtSimple stack⟩

def fmtGetComplicated : LogFmt := ⟨⟨true, true, true, true, true⟩, fmtComplicated stack gmtimeR⟩

end Model

/-- `muggle_log_handler_t` without its functions and its mutex. -/
structure LogHandler where
  level : ℤ
  fmt : Option LogFmt
  needMutex : Bool

structure ConsoleHandler where
  handler : LogHandler
  enableColor : Bool

structure FileHandler where
  handler : LogHandler
  fp : Option Str

/-- What a handler hands to `fwrite`: a string constant, or a number of bytes of `buf`. -/
inductive Request
  | text (s : Str)
  | buf (count : ℕ)
  deriving DecidableEq, Repr

def LogHandler.format (handler : LogHandler) (msg : LogMsg) : Except ℤ Printed :=
  match handler.fmt with
  | none => .error (-1)
  | some fmt =>
    let p := fmt.fmtFunc msg msgMaxLen
    if p.ret < 0 then .error (-2) else .ok p

def ConsoleHandler.requests (h : ConsoleHandler) (msg : LogMsg) : List Request :=
  match h.handler.format msg with
  | .error _ => []
  | .ok p =>
    if h.enableColor ∧ msg.level ≥ levelWarning then
      [.text (if msg.level ≥ levelError then "\x1B[31m".toList else "\x1B[33m".toList),
        .buf p.ret.toNat, .text "\x1B[m".toList]
    else [.buf p.ret.toNat]

def LogHandler.fileRequests (handler : LogHandler) (opened : Bool) (msg : LogMsg) : List Request :=
  match handler.format msg with
  | .error _ => []
  | .ok p => if opened then [.buf p.ret.toNat] else []

def FileHandler.requests (h : FileHandler) (msg : LogMsg) : List Request :=
  h.handler.fileRequests h.fp.isSome msg

def FileRotateHandler.requests (base : LogHandler) (h : FileRotateHandler) (msg : LogMsg) :
    List Request :=
  base.fileRequests h.fp.isSome msg

def FileTimeRotHandler.requests (base : LogHandler) (h : FileTimeRotHandler) (msg : LogMsg) :
    List Request :=
  base.fileRequests h.fp.isSome msg

end MuggleC.Log

namespace MuggleC.Log

open Base Foundation.Transition

def maxHandler : ℕ := 8

/-- `muggle_logger_t` without its functions; `η` names the handlers. -/
structure Logger (η : Type) where
  handlers : List η
  fmtHint : FmtHint
  lowestLogLevel : ℤ

/-- The arguments of a log call, with the text that its format makes of the others. -/
structure LogCall where
  level : ℤ
  srcLoc : SrcLoc
  text : Str
  deriving DecidableEq, Repr

/-- What `timespec_get` and `muggle_thread_current_id` give during a call. -/
structure Stamp where
  tvSec : ℤ
  tvNsec : ℤ
  tid : ℕ
  deriving DecidableEq, Repr

/-- A logger with the handlers that the process has. -/
structure Setup (η : Type) where
  logger : Logger η
  handler : η → LogHandler

inductive Config (η : Type)
  | addHandler (h : η)
  | setLevel (h : η) (level : ℤ)
  | setFmt (h : η) (fmt : Option LogFmt)

variable {η : Type}

/-- The logger that both `init` functions make. -/
def Logger.init : Logger η := ⟨[], ⟨false, false, false, false, false⟩, levelFatal⟩

/-- What the two `add_handler` functions share. -/
def Logger.addHandler (logger : Logger η) (h : η) (handler : LogHandler) : Err × Logger η :=
  if logger.handlers.length ≥ maxHandler then (.beyondRange, logger)
  else (.ok, {
    handlers := logger.handlers ++ [h]
    fmtHint :=
      match handler.fmt with
      | some fmt => logger.fmtHint.union fmt.fmtHint
      | none => logger.fmtHint
    lowestLogLevel :=
      if handler.level < logger.lowestLogLevel then handler.level else logger.lowestLogLevel })

def LogHandler.shouldWrite (handler : LogHandler) (level : ℤ) : Bool :=
  if level < handler.level then false else true

def LogMsg.stamp (msg : LogMsg) (hint : FmtHint) (now : Stamp) : LogMsg :=
  { msg with
    tvSec := if hint.time then now.tvSec else msg.tvSec
    tvNsec := if hint.time then now.tvNsec else msg.tvNsec
    tid := if hint.thread then now.tid else msg.tid }

namespace Setup

variable [DecidableEq η]

def update (s : Setup η) (h : η) (handler : LogHandler) : Setup η :=
  { s with handler := Function.update s.handler h handler }

/-- The calls that set up a logger and its handlers. In an async logger an added handler needs no
mutex. -/
def configure (async : Bool) (s : Setup η) : Config η → Setup η
  | .addHandler h =>
    let (ret, logger) := s.logger.addHandler h (s.handler h)
    let s := { s with logger := logger }
    if async ∧ ret = .ok then s.update h { s.handler h with needMutex := false } else s
  | .setLevel h level => s.update h { s.handler h with level := level }
  | .setFmt h fmt => s.update h { s.handler h with fmt := fmt }

omit [DecidableEq η] in
def recipients (s : Setup η) (level : ℤ) : List η :=
  s.logger.handlers.filter fun h => (s.handler h).level ≤ level

end Setup

/-- The loop of `muggle_logger_write`: the calls of the handlers' write functions. -/
def loggerWrite (handler : η → LogHandler) (msg : LogMsg) : List η → List (η × LogMsg)
  | [] => []
  | h :: hs =>
    if (handler h).shouldWrite msg.level then (h, msg) :: loggerWrite handler msg hs
    else loggerWrite handler msg hs

/-- The message of `muggle_sync_logger_log`. -/
def syncMsg (hint : FmtHint) (c : LogCall) (now : Stamp) : LogMsg :=
  (LogMsg.mk c.level 0 0 0 c.srcLoc (some (snprintf msgMaxLen c.text))).stamp hint now

def syncLog (s : Setup η) (c : LogCall) (now : Stamp) : List (η × LogMsg) :=
  if s.logger.lowestLogLevel > c.level then []
  else loggerWrite s.handler (syncMsg s.logger.fmtHint c now) s.logger.handlers

theorem shouldWrite_iff {handler : LogHandler} {level : ℤ} :
    handler.shouldWrite level = true ↔ handler.level ≤ level := by
  unfold LogHandler.shouldWrite
  split <;> simp <;> omega

private theorem map_loggerWrite (handler : η → LogHandler) (msg : LogMsg) (hs : List η) :
    (loggerWrite handler msg hs).map Prod.fst =
      hs.filter fun h => (handler h).level ≤ msg.level := by
  induction hs with
  | nil => rfl
  | cons h hs ih =>
    unfold loggerWrite
    by_cases hle : (handler h).level ≤ msg.level
    · rw [if_pos (shouldWrite_iff.mpr hle), List.map_cons, ih,
        List.filter_cons_of_pos (by simpa using hle)]
    · rw [if_neg (mt shouldWrite_iff.mp hle), ih, List.filter_cons_of_neg (by simpa using hle)]

namespace Setup

def Covered (s : Setup η) : Prop :=
  ∀ h ∈ s.logger.handlers, s.logger.lowestLogLevel ≤ (s.handler h).level

/-- The filter of the logger lets the message pass, or no handler would take it. -/
def Kept (s : Setup η) (level : ℤ) : Prop :=
  s.logger.lowestLogLevel ≤ level ∨ ∀ h ∈ s.logger.handlers, level < (s.handler h).level

variable {s : Setup η}

theorem recipients_eq_nil {level : ℤ} :
    s.recipients level = [] ↔ ∀ h ∈ s.logger.handlers, level < (s.handler h).level := by
  simp [recipients, List.filter_eq_nil_iff]

theorem Covered.kept (h : s.Covered) (level : ℤ) : s.Kept level := by
  by_cases hle : s.logger.lowestLogLevel ≤ level
  · exact .inl hle
  · right
    intro x hx
    have := h x hx
    omega

theorem syncLog_exact_iff (s : Setup η) (c : LogCall) (now : Stamp) :
    (syncLog s c now).map Prod.fst = s.recipients c.level ↔ s.Kept c.level := by
  unfold syncLog
  split
  · next hlow =>
    rw [List.map_nil, eq_comm, recipients_eq_nil]
    constructor
    · exact .inr
    · rintro (hle | hall)
      · omega
      · exact hall
  · next hlow =>
    have hle : s.logger.lowestLogLevel ≤ c.level := by omega
    rw [map_loggerWrite]
    exact iff_of_true rfl (.inl hle)

theorem covered_init (handler : η → LogHandler) : (⟨Logger.init, handler⟩ : Setup η).Covered := by
  intro h hh
  cases hh

theorem Covered.addHandler (hs : s.Covered) (h : η) :
    ({ s with logger := (s.logger.addHandler h (s.handler h)).2 } : Setup η).Covered := by
  unfold Logger.addHandler
  split
  · exact hs
  · intro x hx
    rcases List.mem_append.mp hx with hx | hx
    · have := hs x hx
      dsimp only
      split <;> omega
    · rw [List.mem_singleton.mp hx]
      dsimp only
      split <;> omega

/-- A call that lowers an added handler below what the filter lets pass. -/
def Lowers (s : Setup η) : Config η → Prop
  | .setLevel h level => h ∈ s.logger.handlers ∧ level < s.logger.lowestLogLevel
  | _ => False

variable [DecidableEq η]

instance (s : Setup η) (c : Config η) : Decidable (s.Lowers c) := by
  cases c <;> unfold Lowers <;> infer_instance

theorem level_update {h x : η} {handler : LogHandler} : ((s.update h handler).handler x).level =
      if x = h then handler.level else (s.handler x).level := by
  change (Function.update s.handler h handler x).level = _
  by_cases hx : x = h
  · rw [hx, if_pos rfl, Function.update_self]
  · rw [if_neg hx, Function.update_of_ne hx]

theorem Covered.configure (hs : s.Covered) (async : Bool) {c : Config η}
    (hc : ¬ s.Lowers c) : (s.configure async c).Covered := by
  cases c with
  | addHandler h =>
    have hadd := hs.addHandler h
    unfold Setup.configure
    dsimp only
    split
    · intro x hx
      rw [level_update]
      split
      · next he => exact he ▸ hadd x hx
      · exact hadd x hx
    · exact hadd
  | setLevel h level =>
    intro x hx
    change s.logger.lowestLogLevel ≤ ((s.update h _).handler x).level
    rw [level_update]
    split
    · next he =>
      subst he
      exact Int.not_lt.mp fun hlt => hc ⟨hx, hlt⟩
    · exact hs x hx
  | setFmt h fmt =>
    intro x hx
    change s.logger.lowestLogLevel ≤ ((s.update h _).handler x).level
    rw [level_update]
    split
    · next he => exact he ▸ hs x hx
    · exact hs x hx

end Setup

end MuggleC.Log

namespace MuggleC.Log.WriteBounds

open List

/-- The handlers of the library. The rotating ones have their base handler apart. -/
inductive Handler
  | console (h : ConsoleHandler)
  | file (h : FileHandler)
  | fileRotate (base : LogHandler) (h : FileRotateHandler)
  | fileTimeRot (base : LogHandler) (h : FileTimeRotHandler)

namespace Handler

def base : Handler → LogHandler
  | console h => h.handler
  | file h => h.handler
  | fileRotate base _ => base
  | fileTimeRot base _ => base

def opened : Handler → Bool
  | console _ => true
  | file h => h.fp.isSome
  | fileRotate _ h => h.fp.isSome
  | fileTimeRot _ h => h.fp.isSome

def requests : Handler → LogMsg → List Request
  | console h => h.requests
  | file h => h.requests
  | fileRotate base h => h.requests base
  | fileTimeRot base h => h.requests base

theorem buf_mem_requests {h : Handler} {fmt : LogFmt} (hfmt : h.base.fmt = some fmt) (msg : LogMsg)
    (n : ℕ) : .buf n ∈ h.requests msg ↔ h.opened = true ∧ (fmt.fmtFunc msg msgMaxLen).ret = n := by
  have hformat : h.base.format msg = if (fmt.fmtFunc msg msgMaxLen).ret < 0 then .error (-2)
      else .ok (fmt.fmtFunc msg msgMaxLen) := by
    rw [LogHandler.format, hfmt]
  have hfile : ∀ opened, .buf n ∈ h.base.fileRequests opened msg ↔
      opened = true ∧ (fmt.fmtFunc msg msgMaxLen).ret = n := by
    intro opened
    rw [LogHandler.fileRequests, hformat]
    by_cases hneg : (fmt.fmtFunc msg msgMaxLen).ret < 0
    · simp only [if_pos hneg, not_mem_nil, false_iff, not_and]
      omega
    · cases opened <;> simp [if_neg hneg]
      omega
  cases h with
  | console h =>
    change h.handler.format msg = _ at hformat
    change .buf n ∈ h.requests msg ↔ true = true ∧ _
    rw [ConsoleHandler.requests, hformat]
    by_cases hneg : (fmt.fmtFunc msg msgMaxLen).ret < 0
    · simp only [if_pos hneg, not_mem_nil, false_iff, not_and]
      omega
    · simp only [if_neg hneg]
      split <;> simp only [mem_cons, reduceCtorEq, Request.buf.injEq, not_mem_nil, or_false,
        false_or, true_and] <;> omega
  | file h => exact hfile _
  | fileRotate base h => exact hfile _
  | fileTimeRot base h => exact hfile _

end Handler

variable {base : LogHandler} {f : Formatted}

theorem fileRotate_write_eq_none {fmt : LogFmt} (hfmt : base.fmt = some fmt) (h : FileRotateHandler)
    (msg : LogMsg) (hf : f.ret = (fmt.fmtFunc msg msgMaxLen).ret) (io : FileRotateHandler.Io)
    (fs : Foundation.Files.Directory Str Char) : FileRotateHandler.write io (some f) h fs = none ↔
      ∃ n, .buf n ∈ h.requests base msg ∧ msgMaxLen < n := by
  have hmem := Handler.buf_mem_requests (h := .fileRotate base h) hfmt msg
  rw [← hf] at hmem
  change ∀ n : ℕ, .buf n ∈ h.requests base msg ↔ h.fp.isSome = true ∧ f.ret = n at hmem
  simp only [hmem, FileRotateHandler.write]
  cases hfp : h.fp with
  | none => split <;> simp
  | some fp =>
    simp only [Option.isSome_some, true_and]
    split
    · next hneg =>
      simp only [reduceCtorEq, false_iff, not_exists, not_and]
      omega
    · next hneg =>
      split
      · next hlt =>
        simp only [true_iff]
        exact ⟨f.ret.toNat, by omega, by omega⟩
      · next hle =>
        simp only [reduceCtorEq, false_iff, not_exists, not_and]
        omega

theorem fileTimeRot_write_eq_none {fmt : LogFmt} (hfmt : base.fmt = some fmt) (localtime : ℤ → Tm)
    (h : FileTimeRotHandler) (msg : LogMsg) (m : FileTimeRotHandler.Msg) (hm : m.fmt = some f)
    (hf : f.ret = (fmt.fmtFunc msg msgMaxLen).ret) {n : ℕ} (hn : .buf n ∈ h.requests base msg)
    (hlt : msgMaxLen < n) : FileTimeRotHandler.write localtime m h = none := by
  obtain ⟨hopen, hret⟩ := (Handler.buf_mem_requests (h := .fileTimeRot base h) hfmt msg n).mp hn
  change h.fp.isSome = true at hopen
  have hfp : ¬ h.fp.isNone = true := by
    rw [← Option.not_isSome, hopen]
    exact Bool.false_ne_true
  rw [FileTimeRotHandler.write, hm]
  simp only [if_neg (show ¬ f.ret < 0 by omega), if_neg hfp,
    if_pos (show (msgMaxLen : ℤ) < f.ret by omega)]

inductive Format
  | simple
  | complicated
  deriving DecidableEq, Repr

namespace Format

variable (stack : ℕ → Str) (gmtimeR : ℤ → Tm)

def fmt : Format → LogFmt
  | simple => fmtGetSimple stack
  | complicated => fmtGetComplicated stack gmtimeR

def parts : Format → LogMsg → List Str
  | simple => simpleParts stack
  | complicated => complicatedParts stack gmtimeR

/-- The lengths of the level's name, the file name, the payload and all else that the format puts
together. -/
def textLength (k : Format) (msg : LogMsg) : ℕ := ((k.parts stack gmtimeR msg).map List.length).sum

theorem fmtFunc_eq (k : Format) (msg : LogMsg) (bufsize : ℕ) :
    (k.fmt stack gmtimeR).fmtFunc msg bufsize = print bufsize (k.parts stack gmtimeR msg).flatten := by
  cases k <;> rfl

theorem length_stored (k : Format) (msg : LogMsg) :
    ((k.fmt stack gmtimeR).fmtFunc msg msgMaxLen).stored.length =
      min (k.textLength stack gmtimeR msg) (msgMaxLen - 1) + 1 := by
  rw [fmtFunc_eq, print, length_append, snprintf, length_take, length_flatten, Nat.min_comm]
  rfl

theorem ret_eq (k : Format) (msg : LogMsg) (n : ℕ) :
    ((k.fmt stack gmtimeR).fmtFunc msg msgMaxLen).ret = n ↔
      k.textLength stack gmtimeR msg = n ∧ n ≤ intMax := by
  have hlen : (k.parts stack gmtimeR msg).flatten.length = k.textLength stack gmtimeR msg :=
    length_flatten
  rw [fmtFunc_eq, print]
  simp only [hlen]
  split <;> omega

end Format

/-- What a handler asks for is stored in its buffer exactly if the text with its terminator fits, or
if the format fails, or if nothing is open. -/
theorem fwrite_within_stored_iff (stack : ℕ → Str) (gmtimeR : ℤ → Tm) (k : Format) (h : Handler)
    (hfmt : h.base.fmt = some (k.fmt stack gmtimeR)) (msg : LogMsg) :
    (∀ n, .buf n ∈ h.requests msg →
        n ≤ ((k.fmt stack gmtimeR).fmtFunc msg msgMaxLen).stored.length) ↔
      (k.textLength stack gmtimeR msg ≤ msgMaxLen ∨ intMax < k.textLength stack gmtimeR msg ∨
        h.opened = false) := by
  have hreq := Handler.buf_mem_requests hfmt msg
  simp only [Format.ret_eq] at hreq
  rw [Format.length_stored]
  constructor
  · intro hall
    by_contra hnot
    simp only [not_or, Bool.not_eq_false] at hnot
    have hle := hall _ ((hreq _).mpr ⟨hnot.2.2, rfl, by omega⟩)
    unfold msgMaxLen at hle hnot
    omega
  · rintro hcond n hn
    obtain ⟨hopen, rfl, hmax⟩ := (hreq n).mp hn
    rcases hcond with hle | hlt | hclosed
    · omega
    · omega
    · rw [hopen] at hclosed
      cases hclosed

def shortMsg : LogMsg := ⟨levelInfo, 0, 0, 0, ⟨"main.c".toList, 1, "main".toList⟩, some ['a']⟩

def simpleConsole : Handler := .console ⟨⟨levelInfo, some (fmtGetSimple fun _ => []), true⟩, false⟩

theorem fwrite_within_stored_short : (∀ n, .buf n ∈ simpleConsole.requests shortMsg →
        n ≤ (fmtSimple (fun _ => []) shortMsg msgMaxLen).stored.length) ↔
      (Format.simple.textLength (fun _ => []) gmtime shortMsg ≤ msgMaxLen ∨
        intMax < Format.simple.textLength (fun _ => []) gmtime shortMsg ∨
        simpleConsole.opened = false) :=
  fwrite_within_stored_iff (fun _ => []) gmtime .simple simpleConsole rfl shortMsg

theorem textLength_payload (stack : ℕ → Str) (gmtimeR : ℤ → Tm) (msg : LogMsg) (payload : Str) :
    Format.simple.textLength stack gmtimeR { msg with payload := some payload } =
      Format.simple.textLength stack gmtimeR { msg with payload := some [] } + payload.length := by
  simp only [Format.textLength, Format.parts, simpleParts, fileNameOf, payloadOf, Option.getD_some,
    map_cons, map_nil, sum_cons, sum_nil, length_nil]
  omega

def longMsg : LogMsg :=
  { shortMsg with payload := some (List.replicate (msgMaxLen - 1) 'a') }

theorem not_fwrite_within_stored_of_long :
    ¬ ∀ (stack : ℕ → Str) (gmtimeR : ℤ → Tm) (k : Format) (h : Handler),
      h.base.fmt = some (k.fmt stack gmtimeR) →
      ∀ msg : LogMsg, (∃ payload ∈ msg.payload, payload.length ≤ msgMaxLen - 1) →
        ∀ n, .buf n ∈ h.requests msg →
          n ≤ ((k.fmt stack gmtimeR).fmtFunc msg msgMaxLen).stored.length := by
  intro hall
  have hlen : Format.simple.textLength (fun _ => []) gmtime longMsg = 17 + (msgMaxLen - 1) := by
    rw [longMsg, textLength_payload, length_replicate]
    exact congrArg (· + (msgMaxLen - 1)) (by decide)
  have hfmt : simpleConsole.base.fmt = some (Format.simple.fmt (fun _ => []) gmtime) := rfl
  have hreq : .buf (17 + (msgMaxLen - 1)) ∈ simpleConsole.requests longMsg := by
    rw [Handler.buf_mem_requests hfmt, Format.ret_eq]
    exact ⟨rfl, hlen, by decide⟩
  have hle := hall (fun _ => []) gmtime .simple simpleConsole hfmt longMsg
    ⟨_, rfl, Nat.le_of_eq length_replicate⟩ _ hreq
  rw [Format.length_stored, hlen] at hle
  exact absurd hle (by decide)

end MuggleC.Log.WriteBounds
