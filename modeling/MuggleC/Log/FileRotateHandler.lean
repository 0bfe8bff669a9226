/- source: log/log_file_rotate_handler.c
   digest: The size-rotating log handler: one rotation, and its files after any sequence of writes. -/

import Mathlib.Data.List.Infix
import Mathlib.Data.List.Nodup
import Mathlib.Data.List.Perm.Subperm
import MuggleC.Base.Utils
import MuggleC.Foundation.Files
import MuggleC.Foundation.Transition
import MuggleC.Log.Format

set_option autoImplicit false

namespace MuggleC.Log

open Base

/-- `muggle_log_file_rotate_handler_t` without the base handler; `fp` is the name under which the
open file was opened. -/
structure FileRotateHandler where
  filepath : Str
  fp : Option Str
  maxBytes : ℕ
  backupCount : BitVec 32
  offset : ℕ
  deriving DecidableEq, Repr

namespace FileRotateHandler

open Foundation.Files Foundation.Transition

structure Io where
  /-- How many of the given bytes `fwrite` writes. -/
  fwrite : ℕ → ℕ
  remove : Bool
  /-- The rename of `path.i`, where `0` stands for the log file itself. -/
  rename : ℕ → Bool
  fopen : Bool

def Io.ok : Io := ⟨id, true, fun _ => true, true⟩

def numbered (path : Str) (i : ℤ) : Str := path ++ '.' :: decimal i

def target (path : Str) (i : ℕ) : Str := snprintf maxPath (numbered path (BitVec.ofNat 32 i).toInt)

def muggleOsRename (ok : Bool) (fs : Directory Str Char) (src dst : Str) : Directory Str Char :=
  if ok then rename fs src dst else fs

/-- The buffer of the oldest name is one byte shorter than the others. -/
def removeOldest (io : Io) (handler : FileRotateHandler) (fs : Directory Str Char) :
    Directory Str Char :=
  let buf := snprintf (maxPath - 1) (numbered handler.filepath handler.backupCount.toInt)
  if (fs buf).isSome ∧ io.remove = true then remove fs buf else fs

/-- The loop over `i`, from its first value downwards. -/
def shiftBackups (io : Io) (path : Str) : ℕ → Directory Str Char → Directory Str Char
  | 0, fs => fs
  | i + 1, fs =>
    shiftBackups io path i (muggleOsRename (io.rename (i + 1)) fs
      (snprintf maxPath (numbered path (i + 1 : ℕ))) (target path (i + 2)))

def rounds (handler : FileRotateHandler) : ℕ := (handler.backupCount - 1#32).toInt.toNat

def moved (io : Io) (handler : FileRotateHandler) (fs : Directory Str Char) : Directory Str Char :=
  muggleOsRename (io.rename 0)
    (shiftBackups io handler.filepath handler.rounds (removeOldest io handler fs))
    handler.filepath (snprintf maxPath (handler.filepath ++ ['.', '1']))

def rotate (io : Io) (handler : FileRotateHandler) (fs : Directory Str Char) :
    Err × FileRotateHandler × Directory Str Char :=
  if io.fopen then
    (.ok, { handler with fp := some handler.filepath, offset := 0 },
      create (moved io handler fs) handler.filepath)
  else (.sysCall, { handler with fp := none }, moved io handler fs)

def full (handler : FileRotateHandler) : Bool := handler.maxBytes ≤ handler.offset

/-- What `fwrite` appends, and the advance of the offset. -/
def put (io : Io) (f : Formatted) (fp : Str) (handler : FileRotateHandler)
    (fs : Directory Str Char) : ℕ × FileRotateHandler × Directory Str Char :=
  let bytes := (f.buf.take f.ret.toNat).take (io.fwrite f.ret.toNat)
  (bytes.length, { handler with offset := handler.offset + bytes.length }, append fs fp bytes)

def settle (io : Io) (handler : FileRotateHandler) (fs : Directory Str Char) :
    FileRotateHandler × Directory Str Char :=
  if handler.full then (rotate io handler fs).2 else (handler, fs)

/-- `fmt` is what the handler's format leaves, if it has one. The call is undefined when `fwrite` is
to read past the end of `buf`. -/
def write (io : Io) (fmt : Option Formatted) (handler : FileRotateHandler)
    (fs : Directory Str Char) : Option (ℤ × FileRotateHandler × Directory Str Char) :=
  match fmt with
  | none => some (-1, handler, fs)
  | some f =>
    if f.ret < 0 then some (-2, handler, fs)
    else
      match handler.fp with
      | none => some (f.ret, handler, fs)
      | some fp =>
        if msgMaxLen < f.ret then none
        else
          let (n, handler, fs) := put io f fp handler fs
          some (n, settle io handler fs)

def opened (filepath absFilepath : Str) (maxBytes : ℕ) (backupCount : BitVec 32)
    (fs : Directory Str Char) : FileRotateHandler :=
  ⟨filepath, some absFilepath, maxBytes, backupCount, (content fs absFilepath).length⟩

/-- `init` from the point where `abs_filepath` is known. -/
def init (io : Io) (terminated : Bool) (absFilepath : Str) (maxBytes : ℕ)
    (backupCount : BitVec 32) (fs : Directory Str Char) :
    Option (Except Err (FileRotateHandler × Directory Str Char)) :=
  if io.fopen then
    (copyPath terminated absFilepath).map fun filepath =>
      .ok (settle io (opened filepath absFilepath maxBytes backupCount fs) (create fs absFilepath))
  else some (.error .sysCall)

def slot (path : Str) : ℕ → Str
  | 0 => path
  | k + 1 => numbered path (k + 1 : ℕ)

theorem numbered_natCast (path : Str) (k : ℕ) :
    numbered path k = path ++ '.' :: Nat.toDigits 10 k := by
  rw [numbered, decimal_natCast]

theorem numbered_natCast_injective (path : Str) :
    Function.Injective fun k : ℕ => numbered path k := by
  intro k l h
  simp only [numbered_natCast, List.append_cancel_left_eq, List.cons.injEq, true_and] at h
  exact toDigits_injective h

theorem length_numbered (path : Str) (k : ℕ) : path.length + 2 ≤ (numbered path k).length := by
  have hpos := Nat.length_toDigits_pos (b := 10) (n := k)
  rw [numbered_natCast, List.length_append, List.length_cons]
  omega

theorem numbered_ne_self (path : Str) (k : ℕ) : numbered path k ≠ path := by
  intro h
  have hlen := length_numbered path k
  rw [h] at hlen
  omega

private theorem numbered_one (path : Str) : path ++ ['.', '1'] = numbered path (1 : ℕ) := by
  rfl

theorem slot_injective (path : Str) : Function.Injective (slot path) := by
  intro k l h
  cases k with
  | zero =>
    cases l with
    | zero => rfl
    | succ l => exact absurd h.symm (numbered_ne_self path _)
  | succ k =>
    cases l with
    | zero => exact absurd h (numbered_ne_self path _)
    | succ l => exact numbered_natCast_injective path h

/-- The names up to place `n` fit into every buffer that a rotation prints them to. -/
def Fits (path : Str) (n : ℕ) : Prop := (numbered path n).length < maxPath - 1

instance (path : Str) (n : ℕ) : Decidable (Fits path n) :=
  inferInstanceAs (Decidable ((numbered path n).length < maxPath - 1))

section Fitting

variable {path : Str} {n i : ℕ}

theorem Fits.length_lt (h : Fits path n) (hi : i ≤ n) : (numbered path i).length < maxPath - 1 := by
  have hmono := length_toDigits_mono hi
  have hn : (numbered path n).length < maxPath - 1 := h
  rw [numbered_natCast, List.length_append, List.length_cons] at hn ⊢
  omega

theorem Fits.oldest (h : Fits path n) : snprintf (maxPath - 1) (numbered path n) = numbered path n :=
  snprintf_of_fits h

theorem Fits.printed (h : Fits path n) (hi : i ≤ n) :
    snprintf maxPath (numbered path i) = numbered path i := by
  have hlt := h.length_lt hi
  exact snprintf_of_fits (by omega)

theorem Fits.target (h : Fits path n) (hn : n < 2 ^ 31) (hi : i ≤ n) :
    FileRotateHandler.target path i = numbered path i := by
  have hint : (BitVec.ofNat 32 i).toInt = (i : ℤ) := by
    have hnat : (BitVec.ofNat 32 i).toNat = i := by
      rw [BitVec.toNat_ofNat, Nat.mod_eq_of_lt (by omega)]
    rw [BitVec.toInt_eq_toNat_of_lt (by omega), hnat]
  rw [FileRotateHandler.target, hint, h.printed hi]

theorem Fits.path_length (h : Fits path n) : path.length < maxPath - 1 := by
  have hn : (numbered path n).length < maxPath - 1 := h
  have hlen := length_numbered path n
  omega

end Fitting

section Rotation

variable {handler : FileRotateHandler} {fs : Directory Str Char} {path : Str} {n : ℕ}

private theorem rotate_ok : rotate Io.ok handler fs =
      (.ok, { handler with fp := some handler.filepath, offset := 0 },
        create (moved Io.ok handler fs) handler.filepath) := rfl

theorem rename_shiftBackups (fs : Directory Str Char) (hfits : Fits path n) (hn : n < 2 ^ 31)
    {m : ℕ} (hm : m + 1 ≤ n) : rename (shiftBackups Io.ok path m fs) path (numbered path (1 : ℕ)) =
      shiftUp (slot path) (m + 1) fs := by
  induction m generalizing fs with
  | zero => rfl
  | succ m ih =>
    have hsrc : snprintf maxPath (numbered path (m + 1 : ℕ)) = slot path (m + 1) :=
      hfits.printed (by omega)
    have hdst : FileRotateHandler.target path (m + 2) = slot path (m + 2) :=
      hfits.target hn (by omega)
    rw [shiftBackups, hsrc, hdst, ih _ (by omega)]
    rfl

private theorem removeOldest_ok (hfits : Fits handler.filepath handler.backupCount.toInt.toNat)
    (hpos : 0 < handler.backupCount.toInt) (k : ℕ) (hk : k ≤ handler.backupCount.toInt.toNat) :
    removeOldest Io.ok handler fs (slot handler.filepath k) =
      if k = handler.backupCount.toInt.toNat then none else fs (slot handler.filepath k) := by
  obtain ⟨n, hn⟩ : ∃ n : ℕ, handler.backupCount.toInt = (n + 1 : ℕ) :=
    ⟨handler.backupCount.toInt.toNat - 1, by omega⟩
  rw [hn, Int.toNat_natCast] at hfits hk ⊢
  have hbuf : snprintf (maxPath - 1) (numbered handler.filepath handler.backupCount.toInt) =
      slot handler.filepath (n + 1) := by
    rw [hn]
    exact hfits.oldest
  unfold removeOldest
  rw [hbuf]
  by_cases hkn : k = n + 1
  · subst hkn
    cases hold : fs (slot handler.filepath (n + 1)) with
    | none => simp [hold]
    | some c => simp [Io.ok]
  · split
    · exact remove_of_ne ((slot_injective _).ne hkn)
    · rfl

structure Bounded (handler : FileRotateHandler) : Prop where
  pos : 0 < handler.backupCount.toInt
  fits : Fits handler.filepath handler.backupCount.toNat

variable (h : Bounded handler)

include h

theorem Bounded.toNat_eq : handler.backupCount.toInt.toNat = handler.backupCount.toNat := by
  have hpos := h.pos
  rw [BitVec.toInt_eq_toNat_cond] at hpos ⊢
  split at hpos
  · rw [if_pos ‹_›, Int.toNat_natCast]
  · omega

theorem Bounded.lt : handler.backupCount.toNat < 2 ^ 31 := by
  have hpos := h.pos
  have hcond := BitVec.toInt_eq_toNat_cond handler.backupCount
  split at hcond
  · omega
  · omega

theorem Bounded.pos_toNat : 0 < handler.backupCount.toNat := by
  have hpos := h.pos
  have heq := h.toNat_eq
  omega

theorem Bounded.rounds : handler.rounds + 1 = handler.backupCount.toNat := by
  have hlt := h.lt
  have hpos := h.pos_toNat
  have hsub : (handler.backupCount - 1#32).toNat = handler.backupCount.toNat - 1 := by
    rw [BitVec.toNat_sub_of_le (by rw [BitVec.le_def]; exact hpos)]
    rfl
  have hint : (handler.backupCount - 1#32).toInt = (handler.backupCount - 1#32).toNat :=
    BitVec.toInt_eq_toNat_of_lt (by omega)
  rw [FileRotateHandler.rounds, hint, Int.toNat_natCast, hsub]
  omega

theorem Bounded.moved_eq : moved Io.ok handler fs =
      shiftUp (slot handler.filepath) handler.backupCount.toNat (removeOldest Io.ok handler fs) := by
  have hone : snprintf maxPath (handler.filepath ++ ['.', '1']) =
      numbered handler.filepath (1 : ℕ) := by
    exact h.fits.printed h.pos_toNat
  have hrow := rename_shiftBackups (removeOldest Io.ok handler fs) h.fits h.lt
    (m := handler.rounds) (by rw [h.rounds])
  rw [h.rounds] at hrow
  rw [moved, hone]
  exact hrow

theorem Bounded.oldest {k : ℕ} (hk : k ≤ handler.backupCount.toNat) :
    removeOldest Io.ok handler fs (slot handler.filepath k) =
      if k = handler.backupCount.toNat then none else fs (slot handler.filepath k) := by
  have hfits := h.fits
  rw [← h.toNat_eq] at hfits hk ⊢
  exact removeOldest_ok hfits h.pos k hk

theorem Bounded.moved_succ {k : ℕ} (hk : k < handler.backupCount.toNat) :
    moved Io.ok handler fs (slot handler.filepath (k + 1)) = fs (slot handler.filepath k) := by
  rw [h.moved_eq, shiftUp_succ (slot_injective _) _ hk, h.oldest (by omega), if_neg (by omega)]
  rw [h.oldest (Nat.le_refl _), if_pos rfl]

theorem Bounded.moved_zero : moved Io.ok handler fs handler.filepath = none := by
  have hfree : removeOldest Io.ok handler fs
      (slot handler.filepath handler.backupCount.toNat) = none := by
    rw [h.oldest (Nat.le_refl _), if_pos rfl]
  rw [h.moved_eq]
  exact shiftUp_zero (slot_injective handler.filepath) hfree

end Rotation

end FileRotateHandler

end MuggleC.Log

namespace MuggleC.Log.FileRotateHandler

open Base Foundation.Files Foundation.Transition Function List Option

/-- One call of `write`. -/
structure Event where
  io : Io
  fmt : Option Formatted

def Event.record (e : Event) : List Str :=
  match e.fmt with
  | none => []
  | some f => if f.ret < 0 then [] else [f.buf.take f.ret.toNat]

/-- A handler with its files, the records it was given so far, and the contents of the log file at
each rotation, the last rotation first. -/
structure Run where
  handler : FileRotateHandler
  files : Directory Str Char
  records : List Str
  rotated : List Str

def rotatedOut (handler : FileRotateHandler) (fs : Directory Str Char) : List Str :=
  if handler.full then [content fs handler.filepath] else []

def Event.rotated (e : Event) (handler : FileRotateHandler) (fs : Directory Str Char) : List Str :=
  match e.fmt, handler.fp with
  | some f, some fp =>
    if f.ret < 0 then []
    else
      let (_, handler, fs) := put e.io f fp handler fs
      rotatedOut handler fs
  | _, _ => []

def start (io : Io) (terminated : Bool) (path : Str) (maxBytes : ℕ) (backupCount : BitVec 32)
    (fs : Directory Str Char) : Option Run :=
  match init io terminated path maxBytes backupCount fs with
  | some (.ok (handler, files)) =>
    some ⟨handler, files, [],
      rotatedOut (opened handler.filepath path maxBytes backupCount fs) (create fs path)⟩
  | _ => none

def step (s : Run) (e : Event) : Option Run :=
  (write e.io e.fmt s.handler s.files).map fun (_, handler, files) =>
    ⟨handler, files, s.records ++ e.record, e.rotated s.handler s.files ++ s.rotated⟩

theorem settle_filepath (io : Io) (handler : FileRotateHandler) (fs : Directory Str Char) :
    (settle io handler fs).1.filepath = handler.filepath := by
  unfold settle rotate
  split
  · split <;> rfl
  · rfl

theorem start_ok (terminated : Bool) {path : Str} (maxBytes : ℕ) (backupCount : BitVec 32)
    (fs : Directory Str Char) (hlen : path.length < maxPath - 1) :
    start Io.ok terminated path maxBytes backupCount fs =
      let handler := opened path path maxBytes backupCount fs
      let r := settle Io.ok handler (create fs path)
      some ⟨r.1, r.2, [], rotatedOut handler (create fs path)⟩ := by
  have hcopy : copyPath terminated path = some path := if_pos hlen
  have hinit : init Io.ok terminated path maxBytes backupCount fs = some (.ok
      (settle Io.ok (opened path path maxBytes backupCount fs) (create fs path))) := by
    rw [init, hcopy]
    rfl
  unfold start
  rw [hinit]
  dsimp only
  rw [settle_filepath]
  rfl

variable {s : Run}

theorem step_record {io : Io} {f : Formatted} {fp : Str} (hfp : s.handler.fp = some fp)
    (hpos : 0 ≤ f.ret) (hle : f.ret ≤ msgMaxLen) : step s ⟨io, some f⟩ =
      let p := put io f fp s.handler s.files
      let r := settle io p.2.1 p.2.2
      some ⟨r.1, r.2, s.records ++ [f.buf.take f.ret.toNat],
        rotatedOut p.2.1 p.2.2 ++ s.rotated⟩ := by
  simp only [step, write, Event.record, Event.rotated, hfp, if_neg (Int.not_lt.mpr hpos),
    if_neg (Int.not_lt.mpr hle), map_some]

structure History (initial : Directory Str Char) (path : Str) (n maxBytes : ℕ) (s : Run) :
    Prop where
  /-- Read from the oldest backup on, the files end the text that was there or has been written. -/
  suffix : gather (fun k => content s.files (slot path k)) n <:+
    gather (fun k => content initial (slot path k)) n ++ s.records.flatten
  /-- Each file consists of whole pieces: a file that was there, or a record. -/
  whole : ∃ parts : ℕ → List Str,
    (∀ k ≤ n, content s.files (slot path k) = (parts k).flatten) ∧
      gather parts n <:+ gather (fun k => [content initial (slot path k)]) n ++ s.records
  large : ∀ c ∈ s.rotated, maxBytes ≤ c.length
  /-- The newest backups are the files that were rotated out. -/
  backups : ∀ k < n, ∀ c, s.rotated[k]? = some c → content s.files (slot path (k + 1)) = c

structure Inv (pieces : List Str) (path : Str) (n maxBytes : ℕ) (s : Run) : Prop where
  filepath : s.handler.filepath = path
  fp : s.handler.fp = some path
  maxBytes_eq : s.handler.maxBytes = maxBytes
  count : s.handler.backupCount.toNat = n
  bounded : Bounded s.handler
  offset : s.handler.offset = (content s.files path).length
  whole : ∃ parts : ℕ → List Str,
    (∀ k ≤ n, content s.files (slot path k) = (parts k).flatten) ∧
      gather parts n <:+ pieces ++ s.records
  large : ∀ c ∈ s.rotated, maxBytes ≤ c.length
  backups : ∀ k < n, ∀ c, s.rotated[k]? = some c → content s.files (slot path (k + 1)) = c

section Invariant

variable {pieces : List Str} {path : Str} {n maxBytes : ℕ} {handler : FileRotateHandler}
  {fs : Directory Str Char} {records rotated : List Str}
  (hI : Inv pieces path n maxBytes ⟨handler, fs, records, rotated⟩)

include hI

theorem Inv.put {f : Formatted} : let r := FileRotateHandler.put Io.ok f path handler fs
    Inv pieces path n maxBytes ⟨r.2.1, r.2.2, records ++ [f.buf.take f.ret.toNat], rotated⟩ := by
  obtain ⟨parts, hparts, hsuffix⟩ := hI.whole
  have hbytes : (f.buf.take f.ret.toNat).take (Io.ok.fwrite f.ret.toNat) =
      f.buf.take f.ret.toNat := by
    rw [take_take]
    exact congrArg (f.buf.take ·) (Nat.min_self _)
  have hother : ∀ k, content (append fs path (f.buf.take f.ret.toNat)) (slot path (k + 1)) =
      content fs (slot path (k + 1)) := fun k =>
    content_append_of_ne ((slot_injective path).ne (Nat.succ_ne_zero k))
  simp only [FileRotateHandler.put, hbytes]
  constructor
  case filepath => exact hI.filepath
  case fp => exact hI.fp
  case maxBytes_eq => exact hI.maxBytes_eq
  case count => exact hI.count
  case bounded => exact ⟨hI.bounded.pos, hI.bounded.fits⟩
  case offset =>
    rw [content_append_self, length_append, ← hI.offset]
  case whole =>
    refine ⟨update parts 0 (parts 0 ++ [f.buf.take f.ret.toNat]), ?_, ?_⟩
    · intro k hk
      cases k with
      | zero =>
        have h0 : content fs path = (parts 0).flatten := hparts 0 (by omega)
        show content _ path = _
        simp [h0]
      | succ k =>
        rw [update_of_ne (Nat.succ_ne_zero k), ← hparts (k + 1) hk]
        exact hother k
    · rw [gather_append (update_self ..) fun k hk _ =>
        update_of_ne (Nat.ne_of_gt hk) .., ← append_assoc]
      obtain ⟨dropped, hdropped⟩ := hsuffix
      exact ⟨dropped, by rw [← append_assoc, hdropped]⟩
  case large => exact hI.large
  case backups =>
    intro k hk c hc
    exact (hother k).trans (hI.backups k hk c hc)

theorem Inv.rotate (hfull : handler.full = true) :
    let r := FileRotateHandler.rotate Io.ok handler fs
    Inv pieces path n maxBytes ⟨r.2.1, r.2.2, records, content fs handler.filepath :: rotated⟩ := by
  obtain ⟨parts, hparts, hsuffix⟩ := hI.whole
  have hB : Bounded handler := hI.bounded
  obtain rfl : handler.filepath = path := hI.filepath
  obtain rfl : handler.backupCount.toNat = n := hI.count
  set files := create (moved Io.ok handler fs) handler.filepath with hfiles
  have hlog : content files handler.filepath = [] := by
    rw [hfiles, content_create, content, hB.moved_zero]
    rfl
  have hup : ∀ k < handler.backupCount.toNat,
      content files (slot handler.filepath (k + 1)) = content fs (slot handler.filepath k) := by
    intro k hk
    rw [hfiles, content_create, content, hB.moved_succ hk, content]
  constructor
  case filepath => rfl
  case fp => rfl
  case maxBytes_eq => exact hI.maxBytes_eq
  case count => rfl
  case bounded => exact ⟨hB.pos, hB.fits⟩
  case offset => exact (congrArg length hlog).symm
  case whole =>
    refine ⟨fun k => k.casesOn [] parts, ?_, ?_⟩
    · intro k hk
      cases k with
      | zero => exact hlog
      | succ k => exact (hup k (by omega)).trans (hparts k (by omega))
    · obtain ⟨m, hm⟩ := Nat.exists_eq_add_one.mpr hB.pos_toNat
      rw [hm] at hsuffix ⊢
      rw [gather_shift (g := parts) rfl fun k _ => rfl]
      exact List.IsSuffix.trans (suffix_append _ _) hsuffix
  case large =>
    intro c hc
    rcases mem_cons.mp hc with rfl | hc
    · have hle : handler.maxBytes ≤ handler.offset := of_decide_eq_true hfull
      have hmax : handler.maxBytes = maxBytes := hI.maxBytes_eq
      have hoff : handler.offset = (content fs handler.filepath).length := hI.offset
      omega
    · exact hI.large c hc
  case backups =>
    intro k hk c hc
    apply (hup k hk).trans
    cases k with
    | zero => exact some.inj hc
    | succ k => exact hI.backups k (by omega) c hc

theorem Inv.settle : let r := FileRotateHandler.settle Io.ok handler fs
    Inv pieces path n maxBytes ⟨r.1, r.2, records, rotatedOut handler fs ++ rotated⟩ := by
  unfold FileRotateHandler.settle rotatedOut
  cases hfull : handler.full with
  | false => exact hI
  | true => exact hI.rotate hfull

omit hI

/-- A call of `write` whose file operations succeed and whose record is inside the buffer; of a record
of exactly `msgMaxLen` bytes the last one that is written is the terminator of `snprintf`. -/
def Event.Regular (e : Event) : Prop := e.io = Io.ok ∧ ∀ f ∈ e.fmt, f.ret ≤ msgMaxLen

variable {s : Run}

theorem Inv.step {e : Event} (he : e.Regular) (hI : Inv pieces path n maxBytes s) :
    ∃ t, FileRotateHandler.step s e = some t ∧ Inv pieces path n maxBytes t := by
  obtain ⟨handler, fs, records, rotated⟩ := s
  obtain ⟨io, fmt⟩ := e
  obtain ⟨rfl, hret⟩ : io = Io.ok ∧ ∀ f ∈ fmt, f.ret ≤ msgMaxLen := he
  have hfp : handler.fp = some path := hI.fp
  -- Without a record the call returns before it looks at the file.
  have hskip (ret : ℤ) (hw : write Io.ok fmt handler fs = some (ret, handler, fs))
      (hrec : Event.record ⟨Io.ok, fmt⟩ = [])
      (hrot : Event.rotated ⟨Io.ok, fmt⟩ handler fs = []) :
      ∃ t, FileRotateHandler.step ⟨handler, fs, records, rotated⟩ ⟨Io.ok, fmt⟩ = some t ∧
        Inv pieces path n maxBytes t := by
    refine ⟨⟨handler, fs, records, rotated⟩, ?_, hI⟩
    simp only [FileRotateHandler.step, hw, hrec, hrot, map_some, append_nil, nil_append]
  cases fmt with
  | none => exact hskip (-1) rfl rfl rfl
  | some f =>
    by_cases hneg : f.ret < 0
    · apply hskip (-2)
      · rw [write, if_pos hneg]
      · exact if_pos hneg
      · simp only [Event.rotated, hfp, if_pos hneg]
    · exact ⟨_, step_record hfp (Int.not_lt.mp hneg) (hret f rfl), hI.put.settle⟩

theorem inv_start (terminated : Bool) (path : Str) (maxBytes : ℕ) (backupCount : BitVec 32)
    (fs : Directory Str Char) (hpos : 0 < backupCount.toInt) (hfits : Fits path backupCount.toNat) :
    ∃ s, start Io.ok terminated path maxBytes backupCount fs = some s ∧
      Inv (gather (fun k => [content fs (slot path k)]) backupCount.toNat) path
        backupCount.toNat maxBytes s ∧ s.records = [] := by
  have hI : Inv (gather (fun k => [content fs (slot path k)]) backupCount.toNat) path
      backupCount.toNat maxBytes
      ⟨opened path path maxBytes backupCount fs, create fs path, [], []⟩ := by
    constructor
    case filepath => rfl
    case fp => rfl
    case maxBytes_eq => rfl
    case count => rfl
    case bounded => exact ⟨hpos, hfits⟩
    case offset => exact congrArg length (content_create path).symm
    case whole =>
      refine ⟨fun k => [content fs (slot path k)], fun k _ => ?_, ?_⟩
      · rw [content_create, flatten_singleton]
      · rw [append_nil]
    case large => simp
    case backups => simp
  have hsettled := hI.settle
  rw [append_nil] at hsettled
  exact ⟨_, start_ok terminated maxBytes backupCount fs hfits.path_length, hsettled, rfl⟩

private theorem inv_run {events : List Event} (hevents : ∀ e ∈ events, e.Regular)
    (hI : Inv pieces path n maxBytes s) :
    ∃ t, run FileRotateHandler.step s events = some t ∧ Inv pieces path n maxBytes t := by
  induction events generalizing s with
  | nil => exact ⟨s, rfl, hI⟩
  | cons e events ih =>
    rw [forall_mem_cons] at hevents
    obtain ⟨u, hu, hIu⟩ := hI.step hevents.1
    obtain ⟨t, ht, hIt⟩ := ih hevents.2 hIu
    exact ⟨t, run_of_step hu ht, hIt⟩

theorem Inv.history (hI : Inv (gather (fun k => [content fs (slot path k)]) n) path n maxBytes s) :
    History fs path n maxBytes s := by
  obtain ⟨parts, hparts, hsuffix⟩ := hI.whole
  refine ⟨?_, ⟨parts, hparts, hsuffix⟩, hI.large, hI.backups⟩
  have hflat := hsuffix.flatten
  rw [flatten_append, flatten_gather, flatten_gather] at hflat
  rw [gather_congr hparts]
  simpa only [flatten_singleton] using hflat

end Invariant

private theorem records_of_run {t : Run} {events : List Event} (h : run step s events = some t) :
    t.records = s.records ++ events.flatMap Event.record := by
  induction events generalizing s with
  | nil =>
    rw [run_nil, some.injEq] at h
    rw [h, flatMap_nil, append_nil]
  | cons e events ih =>
    rw [run_cons, bind_eq_some_iff] at h
    obtain ⟨u, hu, h⟩ := h
    obtain ⟨r, -, rfl⟩ := map_eq_some_iff.mp hu
    rw [ih h, flatMap_cons, append_assoc]

/-- `init` and the writes all return, and the files keep the newest part of what was there followed
by every record. -/
def Kept (terminated : Bool) (path : Str) (maxBytes : ℕ) (backupCount : BitVec 32)
    (fs : Directory Str Char) (events : List Event) : Prop :=
  ∃ s t, start Io.ok terminated path maxBytes backupCount fs = some s ∧
    run step s events = some t ∧ t.records = events.flatMap Event.record ∧
      History fs path backupCount.toNat maxBytes t

/-- This needs `backup_count` to be an `int`, its name to fit the buffers, and every record to be
inside its buffer. -/
theorem kept_of_regular {path : Str} {maxBytes : ℕ} {backupCount : BitVec 32} (terminated : Bool)
    (fs : Directory Str Char) {events : List Event} (hpos : 0 < backupCount.toInt)
    (hfits : Fits path backupCount.toNat) (hevents : ∀ e ∈ events, e.Regular) :
    Kept terminated path maxBytes backupCount fs events := by
  obtain ⟨s, hs, hI, hrec⟩ := inv_start terminated path maxBytes backupCount fs hpos hfits
  obtain ⟨t, ht, hIt⟩ := inv_run hevents hI
  refine ⟨s, t, hs, ht, ?_, hIt.history⟩
  rw [records_of_run ht, hrec, nil_append]

theorem kept_of_two_records : Kept false ['/', 'l'] 2 2#32 (fun _ => none)
      [⟨Io.ok, some (.print ['a', 'b'])⟩, ⟨Io.ok, some (.print ['c', 'd'])⟩] :=
  kept_of_regular false _ (by decide) (by decide) (by
    intro e he
    simp only [mem_cons, not_mem_nil, or_false] at he
    rcases he with rfl | rfl
    · exact ⟨rfl, fun f hf => by cases hf; decide⟩
    · exact ⟨rfl, fun f hf => by cases hf; decide⟩)

private theorem step_of_long_text (io : Io) {fp text : Str} (hfp : s.handler.fp = some fp)
    (hlong : msgMaxLen < text.length) : step s ⟨io, some (.print text)⟩ = none := by
  have hneg : ¬(Formatted.print text).ret < 0 := Int.not_lt.mpr (Int.natCast_nonneg _)
  have hgt : (msgMaxLen : ℤ) < (Formatted.print text).ret := Int.ofNat_lt.mpr hlong
  simp only [step, write, hfp, if_neg hneg, if_pos hgt, map_none]

/-- A text of 4100 bytes is longer than the buffer it is printed to, and `fwrite` is given its whole
length. -/
theorem not_kept_of_long_record : ¬Kept true ['/', 'l'] 100 1#32 (fun _ => none)
      [⟨Io.ok, some (.print (List.replicate 4100 'x'))⟩] := by
  rintro ⟨s, t, hs, ht, -⟩
  obtain ⟨u, hu, hI, -⟩ := inv_start true ['/', 'l'] 100 1#32 (fun _ => none) (by decide)
    (by decide)
  obtain rfl : s = u := Option.some.inj (hs.symm.trans hu)
  have hlong : msgMaxLen < (replicate 4100 'x').length := by
    rw [length_replicate]
    decide
  have hstep := step_of_long_text Io.ok hI.fp hlong
  rw [run_cons, hstep] at ht
  cases ht

def targets (path : Str) (m : ℕ) : List Str := (List.range (m + 1)).map fun i => target path (i + 1)

section Created

variable {path : Str} {io : Io} {fs : Directory Str Char} {name : Str}

theorem target_one (path : Str) : target path 1 = snprintf maxPath (path ++ ['.', '1']) := by
  rfl

theorem isSome_of_muggleOsRename {ok : Bool} {src dst : Str}
    (h : (muggleOsRename ok fs src dst name).isSome) : (fs name).isSome ∨ name = dst := by
  cases ok with
  | false => exact .inl h
  | true => exact isSome_of_rename h

private theorem isSome_of_shiftBackups {m : ℕ} (h : (shiftBackups io path m fs name).isSome) :
    (fs name).isSome ∨ name ∈ targets path m := by
  induction m generalizing fs with
  | zero => exact .inl h
  | succ m ih =>
    rcases ih h with hmoved | htarget
    · refine (isSome_of_muggleOsRename hmoved).imp_right fun hname => ?_
      exact mem_map.mpr ⟨m + 1, mem_range.mpr (by omega), hname.symm⟩
    · obtain ⟨i, hi, rfl⟩ := mem_map.mp htarget
      exact .inr (mem_map_of_mem (mem_range.mpr (by have := mem_range.mp hi; omega)))

variable {handler : FileRotateHandler}

private theorem isSome_of_removeOldest
    (h : (removeOldest io handler fs name).isSome) : (fs name).isSome := by
  unfold removeOldest at h
  split at h
  · exact isSome_of_remove h
  · exact h

private theorem isSome_of_moved (h : (moved io handler fs name).isSome) :
    (fs name).isSome ∨ name ∈ targets handler.filepath handler.rounds := by
  rcases isSome_of_muggleOsRename h with hshift | hone
  · exact (isSome_of_shiftBackups hshift).imp_left isSome_of_removeOldest
  · refine .inr (mem_map.mpr ⟨0, mem_range.mpr (Nat.succ_pos _), ?_⟩)
    exact (target_one _).trans hone.symm

/-- The files that a handler can have made: the log file, under its own name or as `strncpy` has cut
it, and the targets of the renames. -/
structure Makes (path : Str) (old : Directory Str Char) (filepath : Str) (backupCount : BitVec 32)
    (handler : FileRotateHandler) (fs : Directory Str Char) : Prop where
  filepath_eq : handler.filepath = filepath
  count_eq : handler.backupCount = backupCount
  fp : ∀ fp ∈ handler.fp, fp = path ∨ fp = filepath
  files : ∀ name, (fs name).isSome →
    (old name).isSome ∨ name = path ∨ name = filepath ∨ name ∈ targets filepath handler.rounds

variable {old : Directory Str Char} {filepath : Str} {backupCount : BitVec 32}
  {handler : FileRotateHandler} (h : Makes path old filepath backupCount handler fs)

include h

theorem Makes.rotate (io : Io) : let r := FileRotateHandler.rotate io handler fs
    Makes path old filepath backupCount r.2.1 r.2.2 := by
  have hmoved : ∀ name, (moved io handler fs name).isSome →
      (old name).isSome ∨ name = path ∨ name = filepath ∨ name ∈ targets filepath handler.rounds := by
    intro name hname
    rcases isSome_of_moved hname with hfs | htarget
    · exact h.files name hfs
    · rw [h.filepath_eq] at htarget
      exact .inr (.inr (.inr htarget))
  unfold FileRotateHandler.rotate
  cases hopen : io.fopen with
  | false =>
    refine ⟨h.filepath_eq, h.count_eq, ?_, hmoved⟩
    intro fp hfp
    cases hfp
  | true =>
    refine ⟨h.filepath_eq, h.count_eq, ?_, ?_⟩
    · intro fp hfp
      cases hfp
      exact .inr h.filepath_eq
    · intro name hname
      rcases isSome_of_create hname with hm | rfl
      · exact hmoved name hm
      · exact .inr (.inr (.inl h.filepath_eq))

theorem Makes.settle (io : Io) : let r := FileRotateHandler.settle io handler fs
    Makes path old filepath backupCount r.1 r.2 := by
  unfold FileRotateHandler.settle
  cases handler.full with
  | false => exact h
  | true => exact h.rotate io

theorem Makes.put {f : Formatted} {fp : Str} (hfp : handler.fp = some fp) (io : Io) :
    let r := FileRotateHandler.put io f fp handler fs
    Makes path old filepath backupCount r.2.1 r.2.2 := by
  refine ⟨h.filepath_eq, h.count_eq, h.fp, ?_⟩
  intro name hname
  rcases isSome_of_append hname with hfs | rfl
  · exact h.files name hfs
  · exact .inr ((h.fp _ hfp).imp_right .inl)

theorem Makes.write {fmt : Option Formatted} {r : ℤ × FileRotateHandler × Directory Str Char}
    (hw : FileRotateHandler.write io fmt handler fs = some r) :
    Makes path old filepath backupCount r.2.1 r.2.2 := by
  unfold FileRotateHandler.write at hw
  split at hw
  · cases hw
    exact h
  · split at hw
    · cases hw
      exact h
    · split at hw
      · cases hw
        exact h
      · next hfp =>
        split at hw
        · cases hw
        · cases hw
          exact (h.put hfp io).settle io

omit h

theorem makes_start {terminated : Bool} {maxBytes : ℕ} {s : Run}
    (h : start io terminated path maxBytes backupCount fs = some s) :
    ∃ filepath, copyPath terminated path = some filepath ∧
      Makes path fs filepath backupCount s.handler s.files := by
  unfold start init at h
  cases hopen : io.fopen with
  | false => simp [hopen] at h
  | true =>
    cases hcopy : copyPath terminated path with
    | none => simp [hopen, hcopy] at h
    | some filepath =>
      have hopened : Makes path fs filepath backupCount
          (opened filepath path maxBytes backupCount fs) (create fs path) := by
        refine ⟨rfl, rfl, ?_, ?_⟩
        · intro fp hfp
          cases hfp
          exact .inl rfl
        · intro name hname
          exact (isSome_of_create hname).imp_right .inl
      simp only [hopen, hcopy, if_true, map_some, some.injEq] at h
      subst h
      exact ⟨filepath, rfl, hopened.settle io⟩

theorem makes_run {s t : Run} {events : List Event} (hr : run step s events = some t)
    (hs : Makes path old filepath backupCount s.handler s.files) :
    Makes path old filepath backupCount t.handler t.files := by
  refine run_invariant (I := fun s => Makes path old filepath backupCount s.handler s.files)
    ?_ hs hr
  intro s e s' hs he
  obtain ⟨r, hw, rfl⟩ := map_eq_some_iff.mp he
  exact hs.write hw

end Created

def AtMost (path : Str) (n : ℕ) (fs : Directory Str Char) : Prop :=
  ∀ ks : List ℕ, ks.Nodup → (∀ k ∈ ks, (fs (numbered path k)).isSome) → ks.length ≤ n

/-- Without backup files at first, there are at most `backup_count` of them after any write, whether
or not the file operations succeed. -/
def BackupsBounded (terminated : Bool) (path : Str) (maxBytes : ℕ) (backupCount : BitVec 32) :
    Prop :=
  ∀ (io : Io) (fs : Directory Str Char) (e : Event) (events : List Event) (s t : Run),
    (∀ k : ℕ, fs (numbered path k) = none) →
    start io terminated path maxBytes backupCount fs = some s →
    run step s (e :: events) = some t → AtMost path backupCount.toNat t.files

section Bound

variable {terminated : Bool} {path filepath : Str} {maxBytes : ℕ} {backupCount : BitVec 32}

private theorem rounds_lt (handler : FileRotateHandler) (h : 0 < handler.backupCount.toNat) :
    handler.rounds < handler.backupCount.toNat := by
  have hsub : (handler.backupCount - 1#32).toNat = handler.backupCount.toNat - 1 := by
    rw [BitVec.toNat_sub_of_le (by rw [BitVec.le_def]; exact h)]
    rfl
  have hcond := BitVec.toInt_eq_toNat_cond (handler.backupCount - 1#32)
  rw [rounds]
  split at hcond <;> omega

private theorem length_copyPath (h : copyPath terminated path = some filepath) :
    filepath.length ≤ path.length := by
  unfold copyPath at h
  split at h
  · cases h
    exact Nat.le_refl _
  · split at h
    · cases h
      exact length_take_le' _ _
    · cases h

private theorem numbered_ne_of_length_le (h : filepath.length ≤ path.length) (k : ℕ) :
    numbered path k ≠ filepath := by
  intro heq
  have hlen := length_numbered path k
  rw [heq] at hlen
  omega

variable {fs : Directory Str Char}

theorem backup_mem_targets {io : Io} {events : List Event} {s t : Run}
    (hfs : ∀ k : ℕ, fs (numbered path k) = none)
    (hs : start io terminated path maxBytes backupCount fs = some s)
    (ht : run step s events = some t) {k : ℕ} (hk : (t.files (numbered path k)).isSome) :
    numbered path k ∈ targets t.handler.filepath t.handler.rounds := by
  obtain ⟨filepath, hcopy, hmakes⟩ := makes_start hs
  have hmakes := makes_run ht hmakes
  rw [hmakes.filepath_eq]
  rcases hmakes.files _ hk with hold | hpath | hfile | hmem
  · rw [hfs k] at hold
    cases hold
  · exact absurd hpath (numbered_ne_self path k)
  · exact absurd hfile (numbered_ne_of_length_le (length_copyPath hcopy) k)
  · exact hmem

private theorem backupsBounded_of_pos (h : 0 < backupCount.toNat) :
    BackupsBounded terminated path maxBytes backupCount := by
  intro io fs e events s t hfs hs ht ks hnodup hks
  obtain ⟨filepath, -, hmakes⟩ := makes_start hs
  have hcount := (makes_run ht hmakes).count_eq
  have hsub : ks.map (fun k : ℕ => numbered path k) ⊆
      targets t.handler.filepath t.handler.rounds := by
    intro name hname
    obtain ⟨k, hk, rfl⟩ := mem_map.mp hname
    exact backup_mem_targets hfs hs ht (hks k hk)
  have hnames := List.Nodup.map (numbered_natCast_injective path) hnodup
  have hle := (hnames.subperm hsub).length_le
  have hrounds := rounds_lt t.handler (by rw [hcount]; exact h)
  rw [length_map, targets, length_map, length_range] at hle
  rw [hcount] at hrounds
  omega

private theorem backupsBounded_of_long (h : maxPath ≤ path.length + 2) :
    BackupsBounded terminated path maxBytes backupCount := by
  intro io fs e events s t hfs hs ht ks _ hks
  cases ks with
  | nil => exact Nat.zero_le _
  | cons k ks =>
    have hmem := backup_mem_targets hfs hs ht (hks k mem_cons_self)
    obtain ⟨i, -, htarget⟩ := mem_map.mp hmem
    have hlen : (target t.handler.filepath (i + 1)).length < maxPath :=
      length_snprintf_lt _ (by decide)
    rw [htarget] at hlen
    have hlong := length_numbered path k
    omega

section Zero

variable {handler : FileRotateHandler} {fs : Directory Str Char}

theorem length_numbered_of_lt (path : Str) {k : ℕ} (hk : k < 10) :
    (numbered path k).length = path.length + 2 := by
  rw [numbered_natCast, Nat.toDigits_of_lt_base hk, length_append]
  rfl

private theorem snprintf_zero_ne_one (path : Str) (size : ℕ) :
    snprintf size (numbered path (0 : ℕ)) ≠ numbered path (1 : ℕ) := by
  intro heq
  have hlen : (snprintf size (numbered path (0 : ℕ))).length = (numbered path (0 : ℕ)).length := by
    rw [heq, length_numbered_of_lt path (by omega), length_numbered_of_lt path (by omega)]
  rw [snprintf, length_take] at hlen
  rw [snprintf, take_of_length_le (by omega)] at heq
  exact absurd (numbered_natCast_injective path heq) Nat.zero_ne_one

private theorem snprintf_zero_ne_self (hshort : path.length + 2 < maxPath) :
    snprintf (maxPath - 1) (numbered path (0 : ℕ)) ≠ path := by
  intro heq
  have hlen := congrArg length heq
  rw [snprintf, length_take, length_numbered_of_lt path (by omega)] at hlen
  omega

private theorem moved_one (hzero : handler.backupCount = 0#32)
    (hshort : handler.filepath.length + 2 < maxPath)
    (h : (fs handler.filepath).isSome ∨ (fs (numbered handler.filepath (1 : ℕ))).isSome) :
    (moved Io.ok handler fs (numbered handler.filepath (1 : ℕ))).isSome := by
  have hone : snprintf maxPath (handler.filepath ++ ['.', '1']) =
      numbered handler.filepath (1 : ℕ) := by
    rw [numbered_one]
    exact snprintf_of_fits (by rw [length_numbered_of_lt _ (by omega)]; exact hshort)
  have hkeep : ∀ name, name ≠ snprintf (maxPath - 1) (numbered handler.filepath (0 : ℕ)) →
      removeOldest Io.ok handler fs name = fs name := by
    intro name hname
    unfold removeOldest
    rw [hzero]
    split
    · exact remove_of_ne hname
    · rfl
  have hrounds : handler.rounds = 0 := by
    rw [rounds, hzero]
    rfl
  rw [moved, hone, hrounds]
  apply rename_dst_isSome
  rw [shiftBackups, hkeep _ (snprintf_zero_ne_self hshort).symm,
    hkeep _ (snprintf_zero_ne_one _ _).symm]
  exact h

theorem settle_one (handler : FileRotateHandler) (fs : Directory Str Char)
    (hzero : handler.backupCount = 0#32)
    (hshort : handler.filepath.length + 2 < maxPath)
    (h : (fs (numbered handler.filepath (1 : ℕ))).isSome ∨
      (fs handler.filepath).isSome ∧ handler.full = true) :
    ((settle Io.ok handler fs).2 (numbered handler.filepath (1 : ℕ))).isSome := by
  unfold settle
  cases hfull : handler.full with
  | false => exact h.resolve_right fun hf => by simp [hfull] at hf
  | true =>
    show (create (moved Io.ok handler fs) handler.filepath _).isSome
    rw [create_of_ne (numbered_ne_self _ _)]
    exact moved_one hzero hshort (h.symm.imp_left And.left)

end Zero

private theorem step_one {s : Run} {f : Formatted} (hpath : s.handler.filepath = path)
    (hfp : s.handler.fp = some path) (hzero : s.handler.backupCount = 0#32)
    (hshort : path.length + 2 < maxPath) (hpos : 0 ≤ f.ret) (hle : f.ret ≤ msgMaxLen)
    (h : (s.files (numbered path (1 : ℕ))).isSome) :
    ∃ t, step s ⟨Io.ok, some f⟩ = some t ∧ (t.files (numbered path (1 : ℕ))).isSome := by
  subst hpath
  refine ⟨_, step_record hfp hpos hle, settle_one _ _ hzero hshort (.inl ?_)⟩
  exact (congrArg isSome (append_of_ne (numbered_ne_self _ _))).trans h

theorem start_one (terminated : Bool) (hshort : path.length + 2 < maxPath) (hfull : maxBytes ≤ (content fs path).length) :
    ∃ s, start Io.ok terminated path maxBytes 0#32 fs = some s ∧ s.handler.filepath = path ∧
      s.handler.fp = some path ∧ s.handler.backupCount = 0#32 ∧
      (s.files (numbered path (1 : ℕ))).isSome := by
  have hopened : (opened path path maxBytes 0#32 fs).full = true := decide_eq_true hfull
  have hone := settle_one (opened path path maxBytes 0#32 fs) (create fs path) rfl hshort
    (.inr ⟨congrArg isSome create_self, hopened⟩)
  refine ⟨_, start_ok terminated maxBytes 0#32 fs (by omega), settle_filepath .., ?_, ?_, hone⟩
  · rw [settle, if_pos hopened, rotate_ok]
    rfl
  · rw [settle, if_pos hopened, rotate_ok]
    rfl

theorem not_backupsBounded_zero (hshort : path.length + 2 < maxPath) :
    ¬BackupsBounded terminated path maxBytes 0#32 := by
  intro h
  set fs : Directory Str Char := update (fun _ => none) path
    (some (replicate maxBytes 'x')) with hfs
  have hself : fs path = some (replicate maxBytes 'x') := update_self ..
  have hother : ∀ k : ℕ, fs (numbered path k) = none := fun k =>
    update_of_ne (numbered_ne_self path k) ..
  have hlen : maxBytes ≤ (content fs path).length := by
    rw [content, hself, getD_some, length_replicate]
  obtain ⟨s, hs, hpath, hfp, hzero, hone⟩ := start_one terminated hshort hlen
  obtain ⟨t, ht, hone⟩ := step_one (f := .print ['x']) hpath hfp hzero hshort (by decide)
    (by decide) hone
  have hle := h Io.ok fs _ [] s t hother hs (run_of_step ht rfl) [1] (by simp) (by simpa using hone)
  simp at hle

/-- The number of backups is bounded by `backup_count` exactly if that is not zero, or if no backup
can be named. -/
theorem backupsBounded_iff (terminated : Bool) (path : Str) (maxBytes : ℕ)
    (backupCount : BitVec 32) :
    BackupsBounded terminated path maxBytes backupCount ↔
      1 ≤ backupCount.toNat ∨ maxPath ≤ path.length + 2 := by
  constructor
  · intro h
    by_contra hnot
    obtain ⟨hcount, hshort⟩ := not_or.mp hnot
    obtain rfl : backupCount = 0#32 := BitVec.eq_of_toNat_eq (by
      show backupCount.toNat = 0
      omega)
    exact not_backupsBounded_zero (Nat.not_le.mp hshort) h
  · rintro (hpos | hlong)
    · exact backupsBounded_of_pos hpos
    · exact backupsBounded_of_long hlong

theorem not_backupsBounded_of_zero : ¬BackupsBounded false ['/', 'l'] 10 0#32 :=
  not_backupsBounded_zero (by decide)

end Bound

end MuggleC.Log.FileRotateHandler
