/- source: log/log_file_time_rot_handler.c
   digest: The time-rotating log handler, and exactly when its records are in the file of their
   period. -/

import MuggleC.Base.Utils
import MuggleC.Foundation.Transition
import MuggleC.Log.Format

set_option autoImplicit false

namespace MuggleC.Log

open Base List

/-- The fields of `struct tm` that the handler reads. -/
structure Tm where
  sec : ℤ
  min : ℤ
  hour : ℤ
  mday : ℤ
  mon : ℤ
  year : ℤ
  deriving DecidableEq, Repr

def gmtime (t : ℤ) : Tm :=
  let days := t / 86400
  let rest := t % 86400
  let z := days + 719468
  let era := z / 146097
  let doe := z % 146097
  let yoe := (doe - doe / 1460 + doe / 36524 - doe / 146096) / 365
  let doy := doe - (365 * yoe + yoe / 4 - yoe / 100)
  let mp := (5 * doy + 2) / 153
  let mon := if mp < 10 then mp + 2 else mp - 10
  { sec := rest % 60
    min := rest / 60 % 60
    hour := rest / 3600
    mday := doy - (153 * mp + 2) / 5 + 1
    mon := mon
    year := yoe + era * 400 + (if mon ≤ 1 then 1 else 0) - 1900 }

example : gmtime 951827696 = ⟨56, 34, 12, 29, 1, 100⟩ := by decide

inductive RotateUnit
  | sec
  | min
  | hour
  | day
  /-- Any other character. -/
  | other
  deriving DecidableEq, Repr

structure OpenFile where
  name : Str
  sec : ℤ
  tm : Tm
  deriving DecidableEq, Repr

/-- `muggle_log_file_time_rot_handler_t` without the base handler. -/
structure FileTimeRotHandler where
  filepath : Str
  fp : Option OpenFile
  rotateUnit : RotateUnit
  rotateMod : ℕ
  lastSec : ℤ
  lastTm : Tm
  useLocalTime : Bool
  deriving DecidableEq, Repr

namespace FileTimeRotHandler

open Foundation.Transition

section Model

-- `localtime_r`, which depends on the time zone of the process.
variable (localtime : ℤ → Tm)

/-- The broken-down time under a setting of `use_local_time`. -/
def brokenDown (useLocalTime : Bool) (t : ℤ) : Tm := if useLocalTime then localtime t else gmtime t

/-- A message as `write` sees it: its timestamp, what the format leaves, and the results of `time`,
`fwrite` and `fopen` during the call. -/
structure Msg where
  tvSec : ℤ
  fmt : Option Formatted
  now : ℤ
  fwrite : ℕ
  fopen : Bool

/-- The second that `detect` takes for the message: one without a timestamp counts as new. -/
def Msg.sec (msg : Msg) : ℤ := if msg.tvSec = 0 then msg.now else msg.tvSec

/-- A field divided by `rotate_mod`; the `int` becomes an `unsigned int`. -/
def unitMod (field : ℤ) (rotateMod : ℕ) : ℕ := (BitVec.ofInt 32 field).toNat / rotateMod

/-- The comparison of `detect`. -/
def needRot (unit : RotateUnit) (rotateMod : ℕ) (curr last : Tm) : Bool :=
  match unit with
  | .sec =>
    unitMod curr.sec rotateMod != unitMod last.sec rotateMod || curr.min != last.min ||
      curr.hour != last.hour || curr.mday != last.mday || curr.mon != last.mon ||
      curr.year != last.year
  | .min =>
    unitMod curr.min rotateMod != unitMod last.min rotateMod || curr.hour != last.hour ||
      curr.mday != last.mday || curr.mon != last.mon || curr.year != last.year
  | .hour =>
    unitMod curr.hour rotateMod != unitMod last.hour rotateMod || curr.mday != last.mday ||
      curr.mon != last.mon || curr.year != last.year
  | .day =>
    unitMod curr.mday rotateMod != unitMod last.mday rotateMod || curr.mon != last.mon ||
      curr.year != last.year
  | .other => false

/-- Undefined is a division by a `rotate_mod` of zero. -/
def detect (handler : FileTimeRotHandler) (msg : Msg) : Option (Bool × FileTimeRotHandler) :=
  if msg.sec ≤ handler.lastSec then some (false, handler)
  else if handler.rotateUnit ≠ .other ∧ handler.rotateMod = 0 then none
  else
    let currTm := brokenDown localtime handler.useLocalTime msg.sec
    some (needRot handler.rotateUnit handler.rotateMod currTm handler.lastTm,
      { handler with lastSec := msg.sec, lastTm := currTm })

def padded (i : ℤ) : Str := if (decimal i).length < 2 then '0' :: decimal i else decimal i

def fileName (filepath : Str) (unit : RotateUnit) (tm : Tm) : Str :=
  let day := filepath ++ '.' :: decimal (tm.year + 1900) ++ padded (tm.mon + 1) ++ padded tm.mday
  snprintf maxPath (match unit with
    | .sec => day ++ 'T' :: padded tm.hour ++ padded tm.min ++ padded tm.sec
    | .min => day ++ 'T' :: padded tm.hour ++ padded tm.min
    | .hour => day ++ 'T' :: padded tm.hour
    | .day => day
    | .other => [])

/-- For another unit nothing is printed into `buf`, and what `fopen` then gets is not known. -/
def rotate (fopen : Bool) (handler : FileTimeRotHandler) : Option (Err × FileTimeRotHandler) :=
  if handler.rotateUnit = .other then none
  else if fopen then
    some (.ok, { handler with
      fp := some ⟨fileName handler.filepath handler.rotateUnit handler.lastTm, handler.lastSec,
        handler.lastTm⟩ })
  else some (.sysCall, { handler with fp := none })

/-- The record goes to the open file before the period is looked at. The call is undefined when
`fwrite` is to read past the end of `buf`. -/
def write (msg : Msg) (handler : FileTimeRotHandler) : Option (ℤ × FileTimeRotHandler) :=
  match msg.fmt with
  | none => some (-1, handler)
  | some f =>
    if f.ret < 0 then some (-2, handler)
    else if handler.fp.isNone then some (f.ret, handler)
    else if msgMaxLen < f.ret then none
    else
      (detect localtime handler msg).bind fun (needed, handler) =>
        if needed then (rotate msg.fopen handler).map fun r => (msg.fwrite, r.2)
        else some (msg.fwrite, handler)

/-- What the memory of the handler holds before `init`, as far as `init` reads it. -/
structure Memory where
  /-- `fp` is a null pointer. -/
  fpNull : Bool
  useLocalTime : Bool
  /-- The last byte of `filepath` is zero. -/
  terminated : Bool
  deriving DecidableEq, Repr

/-- `init` from the point where `abs_filepath` is known. It reads `use_local_time` before it sets it,
and `rotate` closes whatever `fp` points to. -/
def init (memory : Memory) (absFilepath : Str) (rotateUnit : RotateUnit) (rotateMod : ℕ)
    (useLocalTime : Bool) (now : ℤ) (fopen : Bool) : Option (Err × FileTimeRotHandler) :=
  if memory.fpNull then
    (copyPath memory.terminated absFilepath).bind fun filepath =>
      rotate fopen ⟨filepath, none, rotateUnit, rotateMod, now,
        brokenDown localtime memory.useLocalTime now, useLocalTime⟩
  else none

end Model

/-- The unit divided by `rotate_mod`, and the larger fields. -/
def period (unit : RotateUnit) (rotateMod : ℕ) (tm : Tm) : ℕ × List ℤ :=
  match unit with
  | .sec => (unitMod tm.sec rotateMod, [tm.min, tm.hour, tm.mday, tm.mon, tm.year])
  | .min => (unitMod tm.min rotateMod, [tm.hour, tm.mday, tm.mon, tm.year])
  | .hour => (unitMod tm.hour rotateMod, [tm.mday, tm.mon, tm.year])
  | .day => (unitMod tm.mday rotateMod, [tm.mon, tm.year])
  | .other => (0, [])

theorem needRot_eq_false_iff {unit : RotateUnit} {rotateMod : ℕ} {curr last : Tm} :
    needRot unit rotateMod curr last = false ↔
      period unit rotateMod curr = period unit rotateMod last := by
  cases unit <;> simp [needRot, period, and_assoc]

/-- The arguments of `init` that stay. -/
structure Setting where
  rotateUnit : RotateUnit
  rotateMod : ℕ
  useLocalTime : Bool
  deriving DecidableEq, Repr

structure Entry where
  sec : ℤ
  file : OpenFile
  deriving DecidableEq, Repr

def Msg.HasRecord (msg : Msg) : Prop := ∃ f ∈ msg.fmt, 0 ≤ f.ret

structure Run where
  handler : FileTimeRotHandler
  entries : List Entry
  deriving DecidableEq, Repr

def entry (handler : FileTimeRotHandler) (msg : Msg) : List Entry :=
  match msg.fmt, handler.fp with
  | some f, some file => if f.ret < 0 then [] else [⟨msg.sec, file⟩]
  | _, _ => []

section Runs

variable (localtime : ℤ → Tm)

def start (memory : Memory) (path : Str) (c : Setting) (now : ℤ) : Option Run :=
  (init localtime memory path c.rotateUnit c.rotateMod c.useLocalTime now true).map fun r =>
    ⟨r.2, []⟩

def step (s : Run) (msg : Msg) : Option Run :=
  (write localtime msg s.handler).map fun r => ⟨r.2, s.entries ++ entry s.handler msg⟩

def Setting.tm (c : Setting) (t : ℤ) : Tm := brokenDown localtime c.useLocalTime t

def Setting.period (c : Setting) (t : ℤ) : ℕ × List ℤ :=
  FileTimeRotHandler.period c.rotateUnit c.rotateMod (c.tm localtime t)

structure InPeriod (c : Setting) (filepath : Str) (e : Entry) : Prop where
  period_eq : c.period localtime e.sec = c.period localtime e.file.sec
  tm_eq : e.file.tm = c.tm localtime e.file.sec
  name_eq : e.file.name = fileName filepath c.rotateUnit e.file.tm

/-- `init` and all writes return, and every record is in a file of its period. -/
def Filed (memory : Memory) (path : Str) (c : Setting) (now : ℤ) (msgs : List Msg) : Prop :=
  ∃ s t, start localtime memory path c now = some s ∧ run (step localtime) s msgs = some t ∧
    ∀ e ∈ t.entries, InPeriod localtime c s.handler.filepath e

def Setting.firstFile (c : Setting) (filepath : Str) (now : ℤ) : OpenFile :=
  ⟨fileName filepath c.rotateUnit (c.tm localtime now), now, c.tm localtime now⟩

structure Inv (c : Setting) (filepath : Str) (now : ℤ) (handler : FileTimeRotHandler) : Prop where
  setting : (⟨handler.rotateUnit, handler.rotateMod, handler.useLocalTime⟩ : Setting) = c
  fp : handler.fp = some (c.firstFile localtime filepath now)
  period_eq : period c.rotateUnit c.rotateMod handler.lastTm = c.period localtime now

/-- A message of the period of `init`, whose record is inside its buffer; of a record of exactly
`msgMaxLen` bytes the last one that is written is the terminator of `snprintf`. -/
structure Timely (c : Setting) (now : ℤ) (msg : Msg) : Prop where
  fits : ∀ f ∈ msg.fmt, f.ret ≤ msgMaxLen
  period_eq : c.period localtime msg.sec = c.period localtime now

end Runs

section Period

variable {localtime : ℤ → Tm} {c : Setting} {filepath : Str} {now : ℤ}

private theorem inPeriod_firstFile {sec : ℤ} :
    InPeriod localtime c filepath ⟨sec, c.firstFile localtime filepath now⟩ ↔
      c.period localtime sec = c.period localtime now :=
  ⟨InPeriod.period_eq, fun h => ⟨h, rfl, rfl⟩⟩

variable {msg : Msg} {s : Run} {file : OpenFile} {msgs : List Msg}

theorem Inv.detect {handler : FileTimeRotHandler} (hmod : 1 ≤ c.rotateMod)
    (h : Inv localtime c filepath now handler)
    (hm : c.period localtime msg.sec = c.period localtime now) :
    ∃ handler', FileTimeRotHandler.detect localtime handler msg = some (false, handler') ∧
      Inv localtime c filepath now handler' := by
  obtain rfl := h.setting
  by_cases hlast : msg.sec ≤ handler.lastSec
  · exact ⟨handler, if_pos hlast, h⟩
  · have hrot : needRot handler.rotateUnit handler.rotateMod
        (brokenDown localtime handler.useLocalTime msg.sec) handler.lastTm = false :=
      needRot_eq_false_iff.mpr (hm.trans h.period_eq.symm)
    have hdiv : ¬(handler.rotateUnit ≠ .other ∧ handler.rotateMod = 0) :=
      fun h => Nat.ne_of_gt hmod h.2
    refine ⟨{ handler with
      lastSec := msg.sec, lastTm := brokenDown localtime handler.useLocalTime msg.sec }, ?_,
      rfl, h.fp, hm⟩
    simp only [FileTimeRotHandler.detect, if_neg hlast, if_neg hdiv, hrot]

theorem step_of_not_hasRecord (h : ¬msg.HasRecord) : step localtime s msg = some s := by
  unfold step write entry
  cases hfmt : msg.fmt with
  | none => simp
  | some f =>
    have hneg : f.ret < 0 := by
      by_contra hpos
      exact h ⟨f, hfmt, Int.not_lt.mp hpos⟩
    cases s.handler.fp <;> simp [hneg]

theorem Inv.step (hmod : 1 ≤ c.rotateMod) (h : Inv localtime c filepath now s.handler)
    (hrec : msg.HasRecord) (hm : Timely localtime c now msg) :
    ∃ t, FileTimeRotHandler.step localtime s msg = some t ∧
      t.entries = s.entries ++ [⟨msg.sec, c.firstFile localtime filepath now⟩] ∧
      Inv localtime c filepath now t.handler := by
  obtain ⟨f, hf, hpos⟩ := hrec
  obtain ⟨handler', hdetect, hI⟩ := h.detect hmod hm.period_eq
  refine ⟨⟨handler', s.entries ++ [⟨msg.sec, c.firstFile localtime filepath now⟩]⟩, ?_, rfl, hI⟩
  have hfmt : msg.fmt = some f := hf
  simp [FileTimeRotHandler.step, write, entry, hfmt, h.fp, hdetect, Int.not_lt.mpr hpos,
    Int.not_lt.mpr (hm.fits f hf)]

theorem entry_of_step {t : Run} (hfp : s.handler.fp = some file)
    (hrec : msg.HasRecord) (hstep : FileTimeRotHandler.step localtime s msg = some t) :
    (∀ f ∈ msg.fmt, f.ret ≤ msgMaxLen) ∧ ⟨msg.sec, file⟩ ∈ t.entries := by
  obtain ⟨f, hf, hpos⟩ := hrec
  have hfmt : msg.fmt = some f := hf
  obtain ⟨r, hw, rfl⟩ := Option.map_eq_some_iff.mp hstep
  constructor
  · intro g hg
    obtain rfl : f = g := Option.some.inj (hfmt.symm.trans hg)
    by_contra hlong
    simp [write, hfmt, hfp, Int.not_lt.mpr hpos, Int.not_le.mp hlong] at hw
  · simp [entry, hfmt, hfp, Int.not_lt.mpr hpos]

theorem entries_subset_of_run {t : Run}
    (h : run (FileTimeRotHandler.step localtime) s msgs = some t) : s.entries ⊆ t.entries := by
  refine run_invariant (I := fun u => s.entries ⊆ u.entries) ?_ (List.Subset.refl _) h
  intro u msg u' hu hstep
  obtain ⟨r, -, rfl⟩ := Option.map_eq_some_iff.mp hstep
  exact subset_append_of_subset_left _ hu

private theorem run_of_not_hasRecord (h : ∀ m ∈ msgs, ¬m.HasRecord) :
    run (FileTimeRotHandler.step localtime) s msgs = some s := by
  induction msgs with
  | nil => rfl
  | cons m msgs ih =>
    rw [forall_mem_cons] at h
    exact run_of_step (step_of_not_hasRecord h.1) (ih h.2)

theorem first_entry {t : Run} (hfp : s.handler.fp = some file) (hrec : ∃ m ∈ msgs, m.HasRecord)
    (hr : run (FileTimeRotHandler.step localtime) s msgs = some t) :
    ∃ e ∈ t.entries, e.file = file := by
  induction msgs with
  | nil => simp at hrec
  | cons m msgs ih =>
    rw [run_cons, Option.bind_eq_some_iff] at hr
    obtain ⟨u, hu, hr⟩ := hr
    by_cases hm : m.HasRecord
    · exact ⟨_, entries_subset_of_run hr (entry_of_step hfp hm hu).2, rfl⟩
    · rw [step_of_not_hasRecord hm, Option.some.injEq] at hu
      subst hu
      obtain ⟨m', hmem, hm'⟩ := hrec
      rcases mem_cons.mp hmem with rfl | hmem
      · exact absurd hm' hm
      · exact ih ⟨m', hmem, hm'⟩ hr

theorem Inv.run_filed_iff (hmod : 1 ≤ c.rotateMod) (h : Inv localtime c filepath now s.handler) :
    (∃ t, run (FileTimeRotHandler.step localtime) s msgs = some t ∧
        ∀ e ∈ t.entries, InPeriod localtime c filepath e) ↔
      (∀ e ∈ s.entries, InPeriod localtime c filepath e) ∧
        ∀ m ∈ msgs, m.HasRecord → Timely localtime c now m := by
  induction msgs generalizing s with
  | nil => simp
  | cons m msgs ih =>
    rw [forall_mem_cons]
    by_cases hm : m.HasRecord
    · constructor
      · rintro ⟨t, hr, hgood⟩
        rw [run_cons, Option.bind_eq_some_iff] at hr
        obtain ⟨u, hu, hr⟩ := hr
        obtain ⟨hfits, hmem⟩ := entry_of_step h.fp hm hu
        have htimely : Timely localtime c now m :=
          ⟨hfits, inPeriod_firstFile.mp (hgood _ (entries_subset_of_run hr hmem))⟩
        obtain ⟨v, hv, hentries, hI⟩ := h.step hmod hm htimely
        obtain rfl : u = v := Option.some.inj (hu.symm.trans hv)
        obtain ⟨hu, hmsgs⟩ := (ih hI).mp ⟨t, hr, hgood⟩
        refine ⟨fun e he => hu e ?_, fun _ => htimely, hmsgs⟩
        rw [hentries]
        exact mem_append_left _ he
      · rintro ⟨hs, hhead, hmsgs⟩
        obtain ⟨u, hu, hentries, hI⟩ := h.step hmod hm (hhead hm)
        have hgood : ∀ e ∈ u.entries, InPeriod localtime c filepath e := by
          intro e he
          rw [hentries, mem_append, mem_singleton] at he
          rcases he with he | rfl
          · exact hs e he
          · exact inPeriod_firstFile.mpr (hhead hm).period_eq
        obtain ⟨t, hr, ht⟩ := (ih hI).mpr ⟨hgood, hmsgs⟩
        exact ⟨t, run_of_step hu hr, ht⟩
    · rw [run_cons, step_of_not_hasRecord hm, Option.bind_some, ih h]
      exact and_congr_right' ⟨fun h => ⟨fun hrec => absurd hrec hm, h⟩, And.right⟩

end Period

/-- The memory of the handler lets `init` come to an end: nothing is closed that was never opened, and
the copy of the path is a string. -/
def Memory.Ready (memory : Memory) (path : Str) : Prop :=
  memory.fpNull = true ∧ (path.length < maxPath - 1 ∨ memory.terminated = true)

private theorem copyPath_eq_some_iff {terminated : Bool} {path : Str} :
    (∃ filepath, copyPath terminated path = some filepath) ↔
      path.length < maxPath - 1 ∨ terminated = true := by
  unfold copyPath
  split
  · next h => simp [h]
  · next h =>
    cases terminated with
    | false => simp [h]
    | true => simp

def Setting.handler (c : Setting) (filepath : Str) (now : ℤ) (tm : Tm) : FileTimeRotHandler :=
  ⟨filepath, some ⟨fileName filepath c.rotateUnit tm, now, tm⟩, c.rotateUnit, c.rotateMod, now, tm,
    c.useLocalTime⟩

theorem start_eq_some_iff (localtime : ℤ → Tm) (memory : Memory) (path : Str) (c : Setting)
    (now : ℤ) (s : Run) : start localtime memory path c now = some s ↔
      memory.fpNull = true ∧ c.rotateUnit ≠ .other ∧ ∃ filepath, copyPath memory.terminated path = some filepath ∧
        s = ⟨c.handler filepath now (brokenDown localtime memory.useLocalTime now), []⟩ := by
  unfold start init
  cases memory.fpNull with
  | false => simp
  | true =>
    cases copyPath memory.terminated path with
    | none => simp
    | some filepath => by_cases hunit : c.rotateUnit = .other <;>
        simp [rotate, Setting.handler, eq_comm, hunit]

theorem inv_start (localtime : ℤ → Tm) (c : Setting) (filepath : Str) (now : ℤ) :
    Inv localtime c filepath now (c.handler filepath now (c.tm localtime now)) :=
  ⟨rfl, rfl, rfl⟩

/-- Every record is in a file of its period exactly if the memory that `init` reads before it sets it
gives the configured zone, the unit is one of the four, and no record belongs to another period than
`init` does. -/
theorem filed_iff (localtime : ℤ → Tm) (memory : Memory) (path : Str) (c : Setting) (now : ℤ)
    (msgs : List Msg) (hmod : 1 ≤ c.rotateMod) :
    Filed localtime memory path c now msgs ↔
      memory.Ready path ∧ c.rotateUnit ≠ .other ∧ ∀ m ∈ msgs, m.HasRecord →
        brokenDown localtime memory.useLocalTime now = c.tm localtime now ∧
          Timely localtime c now m := by
  constructor
  · rintro ⟨s, t, hs, hr, hgood⟩
    obtain ⟨hnull, hunit, filepath, hcopy, rfl⟩ := (start_eq_some_iff ..).mp hs
    refine ⟨⟨hnull, copyPath_eq_some_iff.mp ⟨filepath, hcopy⟩⟩, hunit, ?_⟩
    intro m hm hrec
    obtain ⟨e, he, hfile⟩ := first_entry rfl ⟨m, hm, hrec⟩ hr
    have hzone : brokenDown localtime memory.useLocalTime now = c.tm localtime now := by
      have htm := (hgood e he).tm_eq
      rwa [hfile] at htm
    rw [hzone] at hr
    have hI := inv_start localtime c filepath now
    exact ⟨hzone, ((hI.run_filed_iff hmod).mp ⟨t, hr, hgood⟩).2 m hm hrec⟩
  · rintro ⟨⟨hnull, hpath⟩, hunit, hmsgs⟩
    obtain ⟨filepath, hcopy⟩ := copyPath_eq_some_iff.mpr hpath
    have hs := (start_eq_some_iff localtime memory path c now _).mpr
      ⟨hnull, hunit, filepath, hcopy, rfl⟩
    by_cases hrec : ∃ m ∈ msgs, m.HasRecord
    · obtain ⟨m, hm, hmrec⟩ := hrec
      have hI := inv_start localtime c filepath now
      rw [← (hmsgs m hm hmrec).1] at hI
      obtain ⟨t, hr, ht⟩ := (Inv.run_filed_iff (s := ⟨_, []⟩) hmod hI).mpr
        ⟨fun e he => absurd he not_mem_nil, fun m hm h => (hmsgs m hm h).2⟩
      exact ⟨_, t, hs, hr, ht⟩
    · -- Without a record the zone of the first file does not matter.
      have hnone : ∀ m ∈ msgs, ¬m.HasRecord := fun m hm h => hrec ⟨m, hm, h⟩
      exact ⟨_, _, hs, run_of_not_hasRecord hnone, fun e he => absurd he not_mem_nil⟩

theorem filed_of_same_hour : Filed gmtime ⟨true, false, true⟩ ['/', 'l'] ⟨.hour, 1, false⟩ 3600
      [⟨3700, some (.print ['x']), 0, 1, true⟩] := by
  refine (filed_iff gmtime ⟨true, false, true⟩ ['/', 'l'] ⟨.hour, 1, false⟩ 3600 _
    (by decide)).mpr ⟨⟨rfl, .inl (by decide)⟩, by decide, ?_⟩
  intro m hm _
  rw [mem_singleton] at hm
  subst hm
  refine ⟨by decide, ?_, by decide⟩
  intro f hf
  cases hf
  decide

theorem not_filed_of_next_hour : ¬Filed gmtime ⟨true, false, true⟩ ['/', 'l'] ⟨.hour, 1, false⟩ 3599
      [⟨3600, some (.print ['x']), 0, 1, true⟩] := by
  rintro ⟨s, t, hs, hr, hgood⟩
  obtain ⟨-, -, filepath, -, rfl⟩ := (start_eq_some_iff ..).mp hs
  have hI := inv_start gmtime ⟨.hour, 1, false⟩ filepath 3599
  have htimely := ((hI.run_filed_iff (by decide)).mp ⟨t, hr, hgood⟩).2 _ mem_cons_self
    ⟨.print ['x'], rfl, by decide⟩
  exact absurd htimely.period_eq (by decide)

section Reports

variable (localtime : ℤ → Tm)

/-- What `detect` reports for each message, unless a call divides by zero. -/
def reports (handler : FileTimeRotHandler) : List Msg → Option (List Bool)
  | [] => some []
  | msg :: msgs =>
    (detect localtime handler msg).bind fun (needed, handler) =>
      (reports handler msgs).map (needed :: ·)

/-- The reports that are asked for, where `last` is the latest second seen before. -/
def asked (c : Setting) : ℤ → List Msg → List Bool
  | _, [] => []
  | last, msg :: msgs =>
    decide (last < msg.sec ∧ c.period localtime msg.sec ≠ c.period localtime last) ::
      asked c (max last msg.sec) msgs

def seen (handler : FileTimeRotHandler) (sec : ℤ) : FileTimeRotHandler :=
  { handler with lastSec := sec, lastTm := brokenDown localtime handler.useLocalTime sec }

def setting (handler : FileTimeRotHandler) : Setting :=
  ⟨handler.rotateUnit, handler.rotateMod, handler.useLocalTime⟩

variable {localtime} {handler : FileTimeRotHandler} {msg : Msg} {msgs : List Msg}

theorem detect_of_le (h : msg.sec ≤ handler.lastSec) :
    detect localtime handler msg = some (false, handler) := if_pos h

theorem detect_of_lt (h : handler.lastSec < msg.sec) (hmod : handler.rotateMod ≠ 0) :
    detect localtime handler msg = some (decide (handler.setting.period localtime msg.sec ≠
      period handler.rotateUnit handler.rotateMod handler.lastTm), seen localtime handler msg.sec) := by
  have hrot : ∀ curr last, needRot handler.rotateUnit handler.rotateMod curr last =
      decide (period handler.rotateUnit handler.rotateMod curr ≠
        period handler.rotateUnit handler.rotateMod last) := by
    intro curr last
    rw [← Bool.not_inj_iff, ← decide_not, Bool.eq_iff_iff]
    simp [needRot_eq_false_iff]
  rw [detect, if_neg (Int.not_le.mpr h), if_neg fun h => hmod h.2]
  dsimp only
  rw [hrot]
  rfl

private theorem reports_eq (hmod : handler.rotateMod ≠ 0)
    (htm : handler.lastTm = handler.setting.tm localtime handler.lastSec) :
    reports localtime handler msgs =
      some (asked localtime handler.setting handler.lastSec msgs) := by
  induction msgs generalizing handler with
  | nil => rfl
  | cons m msgs ih =>
    by_cases hlt : handler.lastSec < m.sec
    · have hrest : reports localtime (seen localtime handler m.sec) msgs =
          some (asked localtime handler.setting m.sec msgs) := ih hmod rfl
      have hlast : period handler.rotateUnit handler.rotateMod handler.lastTm =
          handler.setting.period localtime handler.lastSec := by rw [htm]; rfl
      simp [reports, asked, detect_of_lt hlt hmod, hrest, hlt, max_eq_right hlt.le, hlast]
    · have hle := Int.not_lt.mp hlt
      simp [reports, asked, detect_of_le hle, ih hmod htm, hlt, hle]

end Reports

example : asked gmtime ⟨.hour, 1, false⟩ 3600 [⟨4200, none, 0, 0, true⟩, ⟨7200, none, 0, 0, true⟩] =
    [false, true] := by decide

end FileTimeRotHandler

end MuggleC.Log
