/- source: memory/bytes_buffer.c
   digest: The byte ring with a truncation mark, and its calls against a byte stream. -/

import MuggleC.Foundation.Ring
import MuggleC.Foundation.Transition

set_option autoImplicit false

/-! With `r ≤ w` the unread bytes are those of `[r, w)`. With `w < r` they are those of `[r, t)`
followed by those of `[0, w)`: the mark `t` says where a write that did not fit before the end
jumped back to the start. Every `int` of the source stays between `-1` and the capacity, so the
fields are integers without a width. A call whose `memcpy` would be handed a negative length is
outside the model. -/

namespace MuggleC.Memory

open Foundation.Slice List

/-- `muggle_bytes_buffer_t`; `buffer` holds the characters behind the `char *`. -/
structure BytesBuffer where
  c : Int
  w : Int
  r : Int
  t : Int
  buffer : List UInt8
  deriving DecidableEq, Repr

namespace BytesBuffer

def copyOut (b : BytesBuffer) (offset numBytes : Int) : List UInt8 :=
  slice b.buffer offset.toNat numBytes.toNat

/-- `memcpy` from the memory of the caller into the buffer. -/
def copyIn (b : BytesBuffer) (offset : Int) (src : List UInt8) : BytesBuffer :=
  { b with buffer := overwrite b.buffer offset.toNat src }

def contiguousWritable (b : BytesBuffer) : Int :=
  if b.w ≥ b.r then
    if b.r ≠ 0 then b.c - b.w else b.c - b.w - 1
  else b.r - b.w - 1

def jumpWritable (b : BytesBuffer) : Int :=
  if b.w ≥ b.r then
    if b.r ≠ 0 then b.r - 1 else 0
  else 0

def jumpReadable (b : BytesBuffer) : Int :=
  if b.w ≥ b.r then 0 else b.w

def contiguousReadable (b : BytesBuffer) : Int :=
  if b.w ≥ b.r then b.w - b.r else b.t - b.r

def writable (b : BytesBuffer) : Int := contiguousWritable b + jumpWritable b

def readable (b : BytesBuffer) : Int := contiguousReadable b + jumpReadable b

def clear (b : BytesBuffer) : BytesBuffer := { b with w := 0, r := 0, t := b.c }

/-- An emptied buffer goes back to the layout with the most contiguous memory. -/
def refresh (b : BytesBuffer) : BytesBuffer :=
  if b.w = b.r then clear b else b

/-- The memory is what `malloc(capacity)` returned, `none` for `NULL`. -/
def init (capacity : Int) (memory : Option (List UInt8)) : Option BytesBuffer :=
  memory.map fun buffer => { c := capacity, w := 0, r := 0, t := capacity, buffer }

def fetch (b : BytesBuffer) (numBytes : Int) : Option (List UInt8) :=
  let cr := contiguousReadable b
  if cr ≥ numBytes then some (copyOut b b.r numBytes)
  else
    let jr := jumpReadable b
    if cr + jr < numBytes then none
    else
      let head := if cr > 0 then copyOut b b.r cr else []
      let remain := numBytes - cr
      some (head ++ copyOut b 0 remain)

def read (b : BytesBuffer) (numBytes : Int) : BytesBuffer × Option (List UInt8) :=
  let cr := contiguousReadable b
  if cr ≥ numBytes then
    let dst := copyOut b b.r numBytes
    let moved := { b with r := b.r + numBytes }
    let wrapped := if moved.r = moved.t then { moved with r := 0 } else moved
    (refresh wrapped, some dst)
  else
    let jr := jumpReadable b
    if cr + jr < numBytes then (b, none)
    else
      let head := if cr > 0 then copyOut b b.r cr else []
      let remain := numBytes - cr
      (refresh { b with r := remain }, some (head ++ copyOut b 0 remain))

def advanceWriter (b : BytesBuffer) (numBytes : Int) : BytesBuffer :=
  let moved := { b with w := b.w + numBytes }
  let marked := if moved.t < moved.w then { moved with t := moved.c } else moved
  if marked.w = marked.c then { marked with w := 0 } else marked

def jumpWriter (b : BytesBuffer) (numBytes : Int) : BytesBuffer :=
  { b with t := b.w, w := numBytes }

def splitWriter (b : BytesBuffer) (cw : Int) (src : List UInt8) : BytesBuffer :=
  let marked := { b with t := b.c }
  let tailed := if cw > 0 then copyIn marked b.w (src.take cw.toNat) else marked
  let remain := (src.length : Int) - cw
  { copyIn tailed 0 (src.drop cw.toNat) with w := remain }

def write (b : BytesBuffer) (src : List UInt8) : BytesBuffer × Bool :=
  let numBytes : Int := src.length
  let cw := contiguousWritable b
  if cw ≥ numBytes then (advanceWriter (copyIn b b.w src) numBytes, true)
  else
    let jw := jumpWritable b
    if cw + jw < numBytes then (b, false)
    else if jw ≥ numBytes then (copyIn (jumpWriter b numBytes) 0 src, true)
    else (splitWriter b cw src, true)

/-- The start of the contiguous memory for the writer, as an offset into the buffer. -/
def writerFc (b : BytesBuffer) (numBytes : Int) : Option Int :=
  if contiguousWritable b ≥ numBytes then some b.w
  else if jumpWritable b ≥ numBytes then some 0
  else none

def writerMove (b : BytesBuffer) (numBytes : Int) : BytesBuffer × Bool :=
  if contiguousWritable b ≥ numBytes then (advanceWriter b numBytes, true)
  else if jumpWritable b ≥ numBytes then (jumpWriter b numBytes, true)
  else (b, false)

/-- The start of the contiguous memory for the reader, as an offset into the buffer. -/
def readerFc (b : BytesBuffer) (numBytes : Int) : Option Int :=
  if contiguousReadable b ≥ numBytes then some b.r else none

def readerMove (b : BytesBuffer) (numBytes : Int) : BytesBuffer × Bool :=
  if contiguousReadable b ≥ numBytes then (refresh { b with r := b.r + numBytes }, true)
  else (b, false)

def contents (b : BytesBuffer) : List UInt8 :=
  if b.r ≤ b.w then copyOut b b.r (b.w - b.r)
  else copyOut b b.r (b.t - b.r) ++ copyOut b 0 b.w

/-- The positions stay inside the memory, the reader does not pass the mark, and a writer
that has not wrapped does not pass it either. -/
structure WellFormed (b : BytesBuffer) : Prop where
  size : (b.buffer.length : Int) = b.c
  r_nonneg : 0 ≤ b.r
  w_nonneg : 0 ≤ b.w
  w_lt : b.w < b.c
  r_le : b.r ≤ b.t
  t_le : b.t ≤ b.c
  t_pos : 0 < b.t
  w_le : b.r ≤ b.w → b.w ≤ b.t

variable {b : BytesBuffer} {src : List UInt8}

theorem init_wellFormed {capacity : Int} {memory : List UInt8}
    (hc : 1 ≤ capacity) (hm : (memory.length : Int) = capacity)
    (hb : init capacity (some memory) = some b) : WellFormed b ∧ contents b = [] := by
  simp only [init, Option.map_some, Option.some.injEq] at hb
  subst hb
  refine ⟨⟨hm, ?_, ?_, ?_, ?_, ?_, ?_, ?_⟩, by simp [contents, copyOut]⟩
  all_goals dsimp only
  all_goals omega

theorem length_contents (hb : WellFormed b) : ((contents b).length : Int) = readable b := by
  obtain ⟨hs, hr, hw, hwc, hrt, htc, ht, hl⟩ := hb
  unfold contents readable contiguousReadable jumpReadable copyOut
  by_cases h : b.r ≤ b.w
  · simp only [h, ↓reduceIte]
    rw [length_slice (by omega)]
    omega
  · simp only [h, ↓reduceIte]
    rw [length_append, length_slice (by omega), length_slice (by omega)]
    omega

theorem clear_wellFormed (hb : WellFormed b) : WellFormed (clear b) ∧ contents (clear b) = [] := by
  obtain ⟨hs, hr, hw, hwc, hrt, htc, ht, hl⟩ := hb
  refine ⟨⟨hs, ?_, ?_, ?_, ?_, ?_, ?_, ?_⟩, by simp [contents, copyOut, clear]⟩
  all_goals dsimp only [clear]
  all_goals omega

theorem refresh_wellFormed (hb : WellFormed b) :
    WellFormed (refresh b) ∧ contents (refresh b) = contents b := by
  unfold refresh
  split
  · next h =>
    obtain ⟨hwf, hc⟩ := clear_wellFormed hb
    refine ⟨hwf, ?_⟩
    rw [hc]
    simp [contents, h, copyOut]
  · exact ⟨hb, rfl⟩

/-- A read that stops at the mark while the writer has not wrapped: the mark is a leftover
of an earlier round, and the reader is sent back to bytes that it has already delivered. -/
def StopsAtStaleMark (b : BytesBuffer) (numBytes : Int) : Prop :=
  b.r ≤ b.w ∧ b.w = b.t ∧ b.r + numBytes = b.t

instance (b : BytesBuffer) (numBytes : Int) : Decidable (StopsAtStaleMark b numBytes) :=
  inferInstanceAs (Decidable (_ ∧ _ ∧ _))

theorem contents_moveReader (hb : WellFormed b) {n : Int} (hn : 0 ≤ n)
    (hc : n ≤ contiguousReadable b) : WellFormed { b with r := b.r + n } ∧
      contents b = copyOut b b.r n ++ contents { b with r := b.r + n } := by
  obtain ⟨hs, hr, hw, hwc, hrt, htc, ht, hl⟩ := hb
  unfold contiguousReadable at hc
  by_cases h : b.r ≤ b.w
  · have h' : b.r + n ≤ b.w := by omega
    refine ⟨⟨hs, ?_, hw, hwc, ?_, htc, ht, fun _ => hl h⟩, ?_⟩
    · dsimp only
      omega
    · dsimp only
      omega
    · simp only [contents, copyOut, h, h', ↓reduceIte]
      rw [show (b.w - b.r).toNat = n.toNat + (b.w - (b.r + n)).toNat by omega, slice_split,
        show (b.r + n).toNat = b.r.toNat + n.toNat by omega]
  · have h' : ¬ b.r + n ≤ b.w := by omega
    refine ⟨⟨hs, ?_, hw, hwc, ?_, htc, ht, fun hle => absurd hle h'⟩, ?_⟩
    · dsimp only
      omega
    · dsimp only
      omega
    · simp only [contents, copyOut, h, h', ↓reduceIte]
      rw [show (b.t - b.r).toNat = n.toNat + (b.t - (b.r + n)).toNat by omega, slice_split,
        show (b.r + n).toNat = b.r.toNat + n.toNat by omega, append_assoc]

theorem contents_wrapReader (hb : WellFormed b) (hm : b.r = b.t) (hw : b.w < b.r) :
    WellFormed { b with r := 0 } ∧ contents { b with r := 0 } = contents b := by
  obtain ⟨hs, hr, hw0, hwc, hrt, htc, ht, hl⟩ := hb
  refine ⟨⟨hs, Int.le_refl _, hw0, hwc, ?_, htc, ht, fun _ => ?_⟩, ?_⟩
  · dsimp only
    omega
  · dsimp only
    omega
  · have h1 : ¬ b.r ≤ b.w := by omega
    simp [contents, copyOut, h1, hw0, ← hm]

@[simp] theorem refresh_c (b : BytesBuffer) : (refresh b).c = b.c := by
  unfold refresh clear
  split <;> rfl

theorem contents_jumpReader (hb : WellFormed b) (hw : b.w < b.r) (remain : Int) (h0 : 0 ≤ remain)
    (h1 : remain ≤ b.w) : WellFormed { b with r := remain } ∧
      contents b = (copyOut b b.r (b.t - b.r) ++ copyOut b 0 remain) ++
        contents { b with r := remain } := by
  obtain ⟨hs, hr, hw0, hwc, hrt, htc, ht, hl⟩ := hb
  refine ⟨⟨hs, h0, hw0, hwc, ?_, htc, ht, fun _ => ?_⟩, ?_⟩
  · dsimp only
    omega
  · dsimp only
    omega
  · have hlin : ¬ b.r ≤ b.w := by omega
    simp only [contents, hlin, h1, ↓reduceIte, copyOut]
    rw [show b.w.toNat = remain.toNat + (b.w - remain).toNat by omega, slice_split, append_assoc]
    simp

structure Reads (b : BytesBuffer) (n : Int) (b' : BytesBuffer) (dst : List UInt8) : Prop where
  wellFormed : WellFormed b'
  length : (dst.length : Int) = n
  oldest : dst <+: contents b
  capacity : b'.c = b.c
  rest : ¬ StopsAtStaleMark b n → contents b = dst ++ contents b'
  replay : StopsAtStaleMark b n → contents b = dst ∧ readable b' = b.t

private theorem read_at_stale_mark (hb : WellFormed b) {n : Int} (hn : 0 ≤ n)
    (hc : n ≤ contiguousReadable b) (hm : b.r + n = b.t) (hlin : b.r ≤ b.w)
    (hlen : ((copyOut b b.r n).length : Int) = n) :
    read b n = ({ b with r := 0 }, some (copyOut b b.r n)) ∧
      Reads b n { b with r := 0 } (copyOut b b.r n) := by
  obtain ⟨_, hcont⟩ := contents_moveReader hb hn hc
  obtain ⟨hs, hr, hw, hwc, hrt, htc, ht, hl⟩ := hb
  have hwt : b.w = b.t := by
    simp only [contiguousReadable, ge_iff_le, hlin, ↓reduceIte] at hc
    omega
  have hkeep : refresh { b with r := 0 } = { b with r := 0 } := by
    unfold refresh
    rw [if_neg]
    dsimp only
    omega
  refine ⟨?_, ?_, hlen, ?_, rfl, ?_, fun _ => ⟨?_, ?_⟩⟩
  · simp only [read, ge_iff_le, hc, hm, ↓reduceIte, hkeep]
  · refine ⟨hs, Int.le_refl _, hw, hwc, ?_, htc, ht, fun _ => hl hlin⟩
    dsimp only
    omega
  · rw [hcont]
    exact prefix_append _ _
  · exact fun hns => absurd ⟨hlin, hwt, hm⟩ hns
  · rw [hcont]
    simp [contents, copyOut, hm, hwt]
  · simp [readable, contiguousReadable, jumpReadable, hwt, Int.le_of_lt ht]

private theorem read_contiguous (hb : WellFormed b) {n : Int} (hn : 0 ≤ n)
    (hc : n ≤ contiguousReadable b) : ∃ b' dst, read b n = (b', some dst) ∧ Reads b n b' dst := by
  obtain ⟨hmove, hcont⟩ := contents_moveReader hb hn hc
  have hpre : copyOut b b.r n <+: contents b := by
    rw [hcont]
    exact prefix_append _ _
  have hlen : ((copyOut b b.r n).length : Int) = n := by
    obtain ⟨hs, hr, hw, hwc, hrt, htc, ht, hl⟩ := hb
    unfold contiguousReadable at hc
    rw [copyOut, length_slice (by split at hc <;> omega)]
    omega
  by_cases hm : b.r + n = b.t
  · by_cases hlin : b.r ≤ b.w
    · exact ⟨_, _, read_at_stale_mark hb hn hc hm hlin hlen⟩
    · obtain ⟨hwrap, hsame⟩ := contents_wrapReader hmove hm (by dsimp only; omega)
      obtain ⟨hfwf, hfresh⟩ := refresh_wellFormed hwrap
      refine ⟨_, _, ?_, hfwf, hlen, hpre, refresh_c _, fun _ => ?_, fun hst => ?_⟩
      · simp only [read, ge_iff_le, hc, ↓reduceIte, hm]
      · rw [hfresh, hsame, hcont]
      · exact absurd hst.1 hlin
  · obtain ⟨hfwf, hfresh⟩ := refresh_wellFormed hmove
    refine ⟨_, _, ?_, hfwf, hlen, hpre, refresh_c _, fun _ => ?_, fun hst => ?_⟩
    · simp only [read, ge_iff_le, hc, ↓reduceIte, hm]
    · rw [hfresh, hcont]
    · exact absurd hst.2.2 hm

private theorem read_across (hb : WellFormed b) {n : Int}
    (hc : ¬ n ≤ contiguousReadable b) (hj : ¬ contiguousReadable b + jumpReadable b < n) :
    ∃ b' dst, read b n = (b', some dst) ∧ Reads b n b' dst := by
  have hwf := hb
  obtain ⟨hs, hr, hw, hwc, hrt, htc, ht, hl⟩ := hwf
  have hlin : ¬ b.r ≤ b.w := by
    intro hlin
    simp only [contiguousReadable, jumpReadable, ge_iff_le, hlin, ↓reduceIte] at hc hj
    omega
  have hcr : contiguousReadable b = b.t - b.r := by simp [contiguousReadable, hlin]
  have hjr : jumpReadable b = b.w := by simp [jumpReadable, hlin]
  obtain ⟨hmove, hcont⟩ := contents_jumpReader hb (by omega) (n - (b.t - b.r)) (by omega) (by omega)
  obtain ⟨hfwf, hfresh⟩ := refresh_wellFormed hmove
  have hhead : (if b.t - b.r > 0 then copyOut b b.r (b.t - b.r) else []) =
      copyOut b b.r (b.t - b.r) := by
    split
    · rfl
    · next hz => simp [copyOut, show (b.t - b.r).toNat = 0 by omega]
  refine ⟨_, copyOut b b.r (b.t - b.r) ++ copyOut b 0 (n - (b.t - b.r)), ?_, hfwf, ?_, ?_,
    refresh_c _, fun _ => ?_, fun hst => ?_⟩
  · rw [hcr] at hc hj
    simp only [read, ge_iff_le, hcr, hc, hj, hhead, ↓reduceIte]
  · rw [length_append, copyOut, copyOut, length_slice (by omega), length_slice (by omega)]
    omega
  · rw [hcont]
    exact prefix_append _ _
  · rw [hfresh, hcont]
  · exact absurd hst.1 hlin

theorem read_spec (hb : WellFormed b) {n : Int} (hn : 0 ≤ n) :
    (readable b < n ∧ read b n = (b, none)) ∨
      ∃ b' dst, read b n = (b', some dst) ∧ Reads b n b' dst := by
  by_cases hc : n ≤ contiguousReadable b
  · exact .inr (read_contiguous hb hn hc)
  · by_cases hj : contiguousReadable b + jumpReadable b < n
    · left
      exact ⟨hj, by simp only [read, ge_iff_le, hc, hj, ↓reduceIte]⟩
    · exact .inr (read_across hb hc hj)

private theorem fetch_eq_read (b : BytesBuffer) (n : Int) : fetch b n = (read b n).2 := by
  unfold fetch read
  dsimp only
  split
  · rfl
  · split <;> rfl

variable (hb : WellFormed b)

include hb

theorem contiguousWritable_nonneg : 0 ≤ contiguousWritable b := by
  obtain ⟨hs, hr, hw, hwc, hrt, htc, ht, hl⟩ := hb
  unfold contiguousWritable
  split
  · split <;> omega
  · omega

theorem advanceWriter_fill (hc : (src.length : Int) ≤ contiguousWritable b) (hlin : b.r ≤ b.w)
    (hfill : b.w + src.length = b.c) : WellFormed (advanceWriter (copyIn b b.w src) src.length) ∧
      contents (advanceWriter (copyIn b b.w src) src.length) =
        slice (overwrite b.buffer b.w.toNat src) b.r.toNat (b.w + src.length - b.r).toNat := by
  obtain ⟨hs, hr, hw, hwc, hrt, htc, ht, hl⟩ := hb
  have hroom : b.w.toNat + src.length ≤ b.buffer.length := by omega
  have hlen := length_overwrite hroom
  have hr0 : b.r ≠ 0 := by
    intro h0
    simp only [contiguousWritable, ge_iff_le, h0, ne_eq, not_true_eq_false, ↓reduceIte] at hc
    omega
  have hout : advanceWriter (copyIn b b.w src) src.length =
      { b with w := 0, t := b.c, buffer := overwrite b.buffer b.w.toNat src } := by
    unfold advanceWriter copyIn
    rw [hfill]
    by_cases htw : b.t < b.c
    · simp [htw]
    · simp [show b.t = b.c by omega]
  rw [hout]
  refine ⟨?_, ?_⟩
  · constructor <;> dsimp only <;> omega
  · have h0 : ¬ b.r ≤ 0 := by omega
    simp only [contents, copyOut, h0, ↓reduceIte, Int.toNat_zero, slice_zero, append_nil]
    rw [hfill]

theorem advanceWriter_linear (hroom : b.w.toNat + src.length ≤ b.buffer.length) (hlin : b.r ≤ b.w)
    (hfill : ¬ b.w + src.length = b.c) : WellFormed (advanceWriter (copyIn b b.w src) src.length) ∧
      contents (advanceWriter (copyIn b b.w src) src.length) =
        slice (overwrite b.buffer b.w.toNat src) b.r.toNat (b.w + src.length - b.r).toNat := by
  obtain ⟨hs, hr, hw, hwc, hrt, htc, ht, hl⟩ := hb
  have hlen := length_overwrite hroom
  have hout : advanceWriter (copyIn b b.w src) src.length =
      { b with w := b.w + src.length, t := if b.t < b.w + src.length then b.c else b.t
               buffer := overwrite b.buffer b.w.toNat src } := by
    unfold advanceWriter copyIn
    by_cases htw : b.t < b.w + src.length
    · simp [htw, hfill]
    · simp [htw, hfill]
  have hle : b.r ≤ b.w + src.length := by omega
  rw [hout]
  refine ⟨?_, ?_⟩
  · constructor <;> dsimp only <;> (try split) <;> omega
  · simp only [contents, copyOut, hle, ↓reduceIte]

private theorem advanceWriter_wrapped
    (hc : (src.length : Int) ≤ contiguousWritable b) (hlin : ¬ b.r ≤ b.w) :
    WellFormed (advanceWriter (copyIn b b.w src) src.length) ∧
      contents (advanceWriter (copyIn b b.w src) src.length) = contents b ++ src := by
  obtain ⟨hs, hr, hw, hwc, hrt, htc, ht, hl⟩ := hb
  have hgap : b.w + src.length < b.r := by
    simp only [contiguousWritable, ge_iff_le, hlin, ↓reduceIte] at hc
    omega
  have hroom : b.w.toNat + src.length ≤ b.buffer.length := by omega
  have hlen := length_overwrite hroom
  have hout : advanceWriter (copyIn b b.w src) src.length =
      { b with w := b.w + src.length, buffer := overwrite b.buffer b.w.toNat src } := by
    unfold advanceWriter copyIn
    have h1 : ¬ b.t < b.w + src.length := by omega
    have h2 : ¬ b.w + src.length = b.c := by omega
    simp only [h1, h2, ↓reduceIte]
  rw [hout]
  refine ⟨?_, ?_⟩
  · constructor <;> dsimp only <;> omega
  · have hgap' : ¬ b.r ≤ b.w + src.length := by omega
    simp only [contents, copyOut, hgap', hlin, ↓reduceIte, Int.toNat_zero]
    rw [slice_overwrite_of_disjoint hroom (.inr (by omega)),
      show (b.w + src.length).toNat = b.w.toNat + src.length by omega, slice_split,
      slice_overwrite_of_disjoint hroom (.inl (by omega)), Nat.zero_add,
      slice_overwrite_self hroom, append_assoc]

theorem contents_advanceWriter (hc : (src.length : Int) ≤ contiguousWritable b) :
    WellFormed (advanceWriter (copyIn b b.w src) src.length) ∧
      contents (advanceWriter (copyIn b b.w src) src.length) = contents b ++ src := by
  by_cases hlin : b.r ≤ b.w
  · have hwf := hb
    obtain ⟨hs, hr, hw, hwc, hrt, htc, ht, hl⟩ := hwf
    have hroom : b.w.toNat + src.length ≤ b.buffer.length := by
      simp only [contiguousWritable, ge_iff_le, hlin, ↓reduceIte] at hc
      split at hc <;> omega
    have hnew : slice (overwrite b.buffer b.w.toNat src) b.r.toNat
        (b.w + src.length - b.r).toNat = contents b ++ src := by
      rw [show (b.w + src.length - b.r).toNat = (b.w - b.r).toNat + src.length by omega,
        slice_split, slice_overwrite_of_disjoint hroom (.inl (by omega)),
        show b.r.toNat + (b.w - b.r).toNat = b.w.toNat by omega, slice_overwrite_self hroom]
      simp only [contents, copyOut, hlin, ↓reduceIte]
    rw [← hnew]
    by_cases hfill : b.w + src.length = b.c
    · exact advanceWriter_fill hb hc hlin hfill
    · exact advanceWriter_linear hb hroom hlin hfill
  · exact advanceWriter_wrapped hb hc hlin

theorem contents_jumpWriter
    (hc : contiguousWritable b < src.length) (hj : (src.length : Int) ≤ jumpWritable b) :
    WellFormed (copyIn (jumpWriter b src.length) 0 src) ∧
      contents (copyIn (jumpWriter b src.length) 0 src) = contents b ++ src := by
  have hcw := contiguousWritable_nonneg hb
  obtain ⟨hs, hr, hw, hwc, hrt, htc, ht, hl⟩ := hb
  have hlin : b.r ≤ b.w := by
    by_contra hlin
    simp only [jumpWritable, ge_iff_le, hlin, ↓reduceIte] at hj
    omega
  have hjr : (src.length : Int) < b.r := by
    simp only [jumpWritable, ge_iff_le, hlin, ↓reduceIte] at hj
    split at hj <;> omega
  have hroom : (0 : Int).toNat + src.length ≤ b.buffer.length := by
    omega
  have hlen := length_overwrite hroom
  refine ⟨?_, ?_⟩
  · constructor <;> dsimp only [copyIn, jumpWriter] <;> omega
  · have hwrap : ¬ b.r ≤ (src.length : Int) := by omega
    simp only [contents, copyOut, copyIn, jumpWriter, hwrap, hlin, ↓reduceIte, Int.toNat_natCast]
    rw [slice_overwrite_of_disjoint hroom (.inr (by rw [Int.toNat_zero]; omega)),
      slice_overwrite_self hroom]

private theorem contents_splitWriter (src : List UInt8) (hc : contiguousWritable b < src.length)
    (ht : (src.length : Int) ≤ contiguousWritable b + jumpWritable b) :
    WellFormed (splitWriter b (contiguousWritable b) src) ∧
      contents (splitWriter b (contiguousWritable b) src) = contents b ++ src ∧
      (splitWriter b (contiguousWritable b) src).c = b.c := by
  obtain ⟨hs, hr, hw, hwc, hrt, htc, hpos, hl⟩ := hb
  have hlin : b.r ≤ b.w := by
    by_contra hlin
    simp only [jumpWritable, ge_iff_le, hlin, ↓reduceIte] at ht
    omega
  have hr0 : b.r ≠ 0 := by
    intro h0
    simp only [jumpWritable, h0, ge_iff_le, hw, ↓reduceIte, ne_eq, not_true_eq_false] at ht
    omega
  obtain ⟨cw, hcw⟩ : ∃ cw, contiguousWritable b = cw := ⟨_, rfl⟩
  have hcw' : cw = b.c - b.w := by
    rw [← hcw]
    simp [contiguousWritable, hlin, hr0]
  have hjw : jumpWritable b = b.r - 1 := by simp [jumpWritable, hlin, hr0]
  have htake : (src.take cw.toNat).length = cw.toNat := by
    rw [length_take]
    omega
  have hdrop : (src.drop cw.toNat).length = src.length - cw.toNat := length_drop ..
  have hroom : b.w.toNat + (src.take cw.toNat).length ≤ b.buffer.length := by omega
  have hlen := length_overwrite hroom
  have hroom' : (0 : Int).toNat + (src.drop cw.toNat).length ≤
      (overwrite b.buffer b.w.toNat (src.take cw.toNat)).length := by
    omega
  have hlen' := length_overwrite hroom'
  have hout : splitWriter b (contiguousWritable b) src = { b with
        w := src.length - cw
        t := b.c
        buffer := overwrite (overwrite b.buffer b.w.toNat (src.take cw.toNat)) (0 : Int).toNat
          (src.drop cw.toNat) } := by
    simp only [splitWriter, copyIn, hcw, show cw > 0 by omega, ↓reduceIte]
  rw [hout]
  refine ⟨?_, ?_, rfl⟩
  · constructor <;> dsimp only <;> omega
  · have hwrap : ¬ b.r ≤ (src.length : Int) - cw := by omega
    simp only [contents, copyOut, hwrap, hlin, ↓reduceIte]
    rw [slice_overwrite_of_disjoint hroom' (.inr (by rw [Int.toNat_zero]; omega)),
      show ((src.length : Int) - cw).toNat = (src.drop cw.toNat).length by omega,
      slice_overwrite_self hroom',
      show (b.c - b.r).toNat = (b.w - b.r).toNat + (src.take cw.toNat).length by omega, slice_split,
      slice_overwrite_of_disjoint hroom (.inl (by omega)),
      show b.r.toNat + (b.w - b.r).toNat = b.w.toNat by omega, slice_overwrite_self hroom,
      append_assoc, take_append_drop]

omit hb

@[simp] theorem advanceWriter_c (b : BytesBuffer) (n : Int) : (advanceWriter b n).c = b.c := by
  unfold advanceWriter
  dsimp only
  split <;> split <;> rfl

theorem write_spec (hb : WellFormed b) (src : List UInt8) :
    (writable b < src.length ∧ write b src = (b, false)) ∨
      ∃ b', write b src = (b', true) ∧ (src.length : Int) ≤ writable b ∧ WellFormed b' ∧
        contents b' = contents b ++ src ∧ b'.c = b.c := by
  have hjw : 0 ≤ jumpWritable b := by
    obtain ⟨hs, hr, hw, hwc, hrt, htc, hpos, hl⟩ := hb
    unfold jumpWritable
    split
    · split <;> omega
    · omega
  by_cases hc : (src.length : Int) ≤ contiguousWritable b
  · right
    obtain ⟨hwf, hcont⟩ := contents_advanceWriter hb hc
    refine ⟨_, ?_, ?_, hwf, hcont, advanceWriter_c _ _⟩
    · simp only [write, ge_iff_le, hc, ↓reduceIte]
    · unfold writable
      omega
  · by_cases ht : contiguousWritable b + jumpWritable b < src.length
    · left
      exact ⟨ht, by simp only [write, ge_iff_le, hc, ht, ↓reduceIte]⟩
    · right
      by_cases hj : (src.length : Int) ≤ jumpWritable b
      · obtain ⟨hwf, hcont⟩ := contents_jumpWriter hb (by omega) hj
        refine ⟨_, ?_, ?_, hwf, hcont, rfl⟩
        · simp only [write, ge_iff_le, hc, ht, hj, ↓reduceIte]
        · unfold writable
          omega
      · obtain ⟨hwf, hcont, hsame⟩ := contents_splitWriter hb src (by omega) (by omega)
        refine ⟨_, ?_, ?_, hwf, hcont, hsame⟩
        · simp only [write, ge_iff_le, hc, ht, hj, ↓reduceIte]
        · unfold writable
          omega

end BytesBuffer

end MuggleC.Memory

namespace MuggleC.Memory.BytesStream

open Foundation.Slice Foundation.Transition BytesBuffer List

/-- The calls of a client. `fill` is `writer_fc`, a copy of the bytes to the returned
address and `writer_move`; `take` is `reader_fc` and `reader_move`. -/
inductive Call
  | write (src : List UInt8)
  | read (numBytes : Nat)
  | fetch (numBytes : Nat)
  | fill (src : List UInt8)
  | take (numBytes : Nat)
  deriving DecidableEq, Repr

/-- A buffer with the bytes that its successful calls have accepted and delivered. -/
structure Stream where
  buf : BytesBuffer
  accepted : List UInt8
  delivered : List UInt8
  deriving DecidableEq, Repr

def start (b : BytesBuffer) : Stream := ⟨b, [], []⟩

def callWrite (s : Stream) (src : List UInt8) : Stream :=
  match s.buf.write src with
  | (b, true) => { s with buf := b, accepted := s.accepted ++ src }
  | (b, false) => { s with buf := b }

def callRead (s : Stream) (numBytes : Nat) : Stream :=
  match s.buf.read numBytes with
  | (b, some dst) => { s with buf := b, delivered := s.delivered ++ dst }
  | (b, none) => { s with buf := b }

def callFill (s : Stream) (src : List UInt8) : Stream :=
  match s.buf.writerFc src.length with
  | none => s
  | some offset =>
    match (copyIn s.buf offset src).writerMove src.length with
    | (b, true) => { s with buf := b, accepted := s.accepted ++ src }
    | (b, false) => { s with buf := b }

def callTake (s : Stream) (numBytes : Nat) : Stream :=
  match s.buf.readerFc numBytes with
  | none => s
  | some offset =>
    match s.buf.readerMove numBytes with
    | (b, true) =>
      { s with buf := b, delivered := s.delivered ++ copyOut s.buf offset numBytes }
    | (b, false) => { s with buf := b }

/-- Every call is enabled; `fetch` has no effect on the buffer. -/
def step (s : Stream) : Call → Option Stream
  | .write src => some (callWrite s src)
  | .read numBytes => some (callRead s numBytes)
  | .fetch _ => some s
  | .fill src => some (callFill s src)
  | .take numBytes => some (callTake s numBytes)

/-- The observations of a first-in first-out byte stream. -/
structure FifoStream (s : Stream) : Prop where
  in_order : s.delivered <+: s.accepted
  count : s.buf.readable = s.accepted.length - s.delivered.length
  peek : ∀ numBytes : Nat, s.buf.fetch numBytes = (s.buf.read numBytes).2

def Tracks (s : Stream) : Prop :=
  WellFormed s.buf ∧ s.accepted = s.delivered ++ s.buf.contents

variable {s : Stream}

theorem Tracks.fifo (hs : Tracks s) : FifoStream s := by
  obtain ⟨hwf, hacc⟩ := hs
  refine ⟨?_, ?_, fun n => fetch_eq_read _ _⟩
  · rw [hacc]
    exact prefix_append _ _
  · rw [← length_contents hwf, hacc, length_append]
    omega

/-- The call is a read that stops at a mark left over from an earlier round. -/
def StaleRead (s : Stream) : Call → Prop
  | .read numBytes => StopsAtStaleMark s.buf numBytes
  | _ => False

private theorem callWrite_tracks (hs : Tracks s) (src : List UInt8) : Tracks (callWrite s src) := by
  obtain ⟨hwf, hacc⟩ := hs
  rcases write_spec hwf src with ⟨_, he⟩ | ⟨b', he, _, hwf', hcont, _⟩
  · simp only [callWrite, he]
    exact ⟨hwf, hacc⟩
  · simp only [callWrite, he]
    exact ⟨hwf', by dsimp only; rw [hcont, hacc, append_assoc]⟩

private theorem callFill_tracks (hs : Tracks s) (src : List UInt8) : Tracks (callFill s src) := by
  obtain ⟨hwf, hacc⟩ := hs
  by_cases hc : (src.length : Int) ≤ contiguousWritable s.buf
  · obtain ⟨hwf', hcont⟩ := contents_advanceWriter hwf hc
    have hc' : (src.length : Int) ≤ contiguousWritable (copyIn s.buf s.buf.w src) := hc
    simp only [callFill, writerFc, writerMove, ge_iff_le, hc, hc', ↓reduceIte]
    exact ⟨hwf', by dsimp only; rw [hcont, hacc, append_assoc]⟩
  · have hc' : ¬ (src.length : Int) ≤ contiguousWritable (copyIn s.buf 0 src) := hc
    by_cases hj : (src.length : Int) ≤ jumpWritable s.buf
    · obtain ⟨hwf', hcont⟩ := contents_jumpWriter hwf (by omega) hj
      have hj' : (src.length : Int) ≤ jumpWritable (copyIn s.buf 0 src) := hj
      simp only [callFill, writerFc, writerMove, ge_iff_le, hc, hj, hc', hj', ↓reduceIte]
      exact ⟨hwf', by
        change s.accepted ++ src = s.delivered ++
          contents (copyIn (jumpWriter s.buf src.length) 0 src)
        rw [hcont, hacc, append_assoc]⟩
    · simp only [callFill, writerFc, ge_iff_le, hc, hj, ↓reduceIte]
      exact ⟨hwf, hacc⟩

private theorem callTake_tracks (hs : Tracks s) (n : Nat) : Tracks (callTake s n) := by
  obtain ⟨hwf, hacc⟩ := hs
  by_cases hc : (n : Int) ≤ contiguousReadable s.buf
  · obtain ⟨hmove, hcont⟩ := contents_moveReader hwf (Int.natCast_nonneg n) hc
    obtain ⟨hwf', hfresh⟩ := refresh_wellFormed hmove
    simp only [callTake, readerFc, readerMove, ge_iff_le, hc, ↓reduceIte]
    exact ⟨hwf', by dsimp only; rw [hfresh, hacc, hcont, append_assoc]⟩
  · simp only [callTake, readerFc, ge_iff_le, hc, ↓reduceIte]
    exact ⟨hwf, hacc⟩

private theorem callRead_tracks (hs : Tracks s) (n : Nat) :
    (¬ StopsAtStaleMark s.buf n → Tracks (callRead s n)) ∧
      (StopsAtStaleMark s.buf n → ¬ FifoStream (callRead s n)) := by
  obtain ⟨hwf, hacc⟩ := hs
  rcases read_spec hwf (Int.natCast_nonneg n) with ⟨hlt, he⟩ |
    ⟨b', dst, he, hwf', hlen, hpre, _, hok, hstale⟩
  · simp only [callRead, he]
    refine ⟨fun _ => ⟨hwf, hacc⟩, fun hst => ?_⟩
    obtain ⟨hlin, hwt, hstop⟩ := hst
    simp only [readable, contiguousReadable, jumpReadable, ge_iff_le, hlin, ↓reduceIte] at hlt
    omega
  · simp only [callRead, he]
    refine ⟨fun hns => ⟨hwf', ?_⟩, fun hst hfifo => ?_⟩
    · rw [hacc, hok hns, append_assoc]
    · obtain ⟨hall, hread⟩ := hstale hst
      have hcount := hfifo.count
      rw [hread, hacc, hall] at hcount
      simp only [Int.sub_self] at hcount
      have := hwf.t_pos
      omega

theorem step_tracks {s' : Stream} {call : Call} (hs : Tracks s) (he : step s call = some s') :
    (¬ StaleRead s call → Tracks s') ∧ (StaleRead s call → ¬ FifoStream s') := by
  cases call with
  | write src =>
    cases he
    exact ⟨fun _ => callWrite_tracks hs src, False.elim⟩
  | read n =>
    cases he
    exact callRead_tracks hs n
  | fetch n =>
    cases he
    exact ⟨fun _ => hs, False.elim⟩
  | fill src =>
    cases he
    exact ⟨fun _ => callFill_tracks hs src, False.elim⟩
  | take n =>
    cases he
    exact ⟨fun _ => callTake_tracks hs n, False.elim⟩

private theorem step_total (s : Stream) (call : Call) : ∃ s', step s call = some s' := by
  cases call <;> exact ⟨_, rfl⟩

private theorem run_tracks (calls : List Call) (hs : Tracks s) :
    (∀ pre t, pre <+: calls → run step s pre = some t → FifoStream t) ↔
      ∀ pre call t, pre ++ [call] <+: calls → run step s pre = some t → ¬ StaleRead t call := by
  induction calls generalizing s with
  | nil =>
    refine ⟨fun _ pre call t hpre _ => ?_, fun _ pre t hpre hrun => ?_⟩
    · simp at hpre
    · obtain rfl := prefix_nil.mp hpre
      cases hrun
      exact hs.fifo
  | cons c calls ih =>
    obtain ⟨s', he⟩ := step_total s c
    obtain ⟨hclean, hstale⟩ := step_tracks hs he
    have hshift (pre : List Call) : run step s (c :: pre) = run step s' pre := by
      rw [run_cons, he, Option.bind_some]
    constructor
    · intro hfifo pre call t hpre hrun
      have hns : ¬ StaleRead s c := fun hst =>
        hstale hst (hfifo [c] s' (by simp) (by rw [hshift, run_nil]))
      cases pre with
      | nil =>
        cases hrun
        obtain ⟨rfl, _⟩ := cons_prefix_cons.mp hpre
        exact hns
      | cons d pre =>
        rw [cons_append, cons_prefix_cons] at hpre
        obtain ⟨rfl, hpre⟩ := hpre
        rw [hshift] at hrun
        refine (ih (hclean hns)).mp (fun pre' u hpre' hrun' => ?_) pre call t hpre hrun
        exact hfifo (d :: pre') u (cons_prefix_cons.mpr ⟨rfl, hpre'⟩) (by rw [hshift, hrun'])
    · intro hns pre t hpre hrun
      have hs' : Tracks s' := hclean (hns [] c s (by simp) rfl)
      cases pre with
      | nil =>
        cases hrun
        exact hs.fifo
      | cons d pre =>
        rw [cons_prefix_cons] at hpre
        obtain ⟨rfl, hpre⟩ := hpre
        rw [hshift] at hrun
        refine (ih hs').mpr (fun pre' call u hpre' hrun' => ?_) pre t hpre hrun
        exact hns (d :: pre') call u (cons_prefix_cons.mpr ⟨rfl, hpre'⟩) (by rw [hshift, hrun'])

/-- A bytes buffer is a first-in first-out byte stream along a call sequence exactly when no
read of the sequence stops at the truncation mark while the writer has not wrapped. -/
theorem fifo_iff_no_stale_read (capacity : Int) (memory : List UInt8) (b : BytesBuffer)
    (hc : 1 ≤ capacity) (hm : (memory.length : Int) = capacity)
    (hb : BytesBuffer.init capacity (some memory) = some b) (calls : List Call) :
    (∀ pre s, pre <+: calls → run step (start b) pre = some s → FifoStream s) ↔
      ∀ pre call s, pre ++ [call] <+: calls → run step (start b) pre = some s →
        ¬ StaleRead s call := by
  obtain ⟨hwf, hempty⟩ := init_wellFormed hc hm hb
  exact run_tracks calls ⟨hwf, by simp [start, hempty]⟩

def five : BytesBuffer := ⟨5, 0, 0, 5, [0, 0, 0, 0, 0]⟩

theorem fifo_iff_no_stale_read_five : (∀ pre s, pre <+: [Call.write [1, 2, 3, 4], .read 3] →
        run step (start five) pre = some s → FifoStream s) ↔
      ∀ pre call s, pre ++ [call] <+: [Call.write [1, 2, 3, 4], .read 3] →
        run step (start five) pre = some s → ¬ StaleRead s call :=
  fifo_iff_no_stale_read 5 [0, 0, 0, 0, 0] five (by decide) (by decide) rfl _

def replayCalls : List Call :=
  [.write [1, 2, 3, 4], .read 3, .write [5, 6], .read 1, .write [7, 8], .read 4, .read 4]

theorem stale_mark_replays :
    ¬ ∀ (capacity : Int) (memory : List UInt8) (b : BytesBuffer), 1 ≤ capacity →
      (memory.length : Int) = capacity → BytesBuffer.init capacity (some memory) = some b →
      ∀ (calls : List Call) (s : Stream), run step (start b) calls = some s → FifoStream s := by
  intro h
  have hrun : run step (start five) replayCalls = some
      ⟨⟨5, 4, 0, 4, [5, 6, 7, 8, 0]⟩, [1, 2, 3, 4, 5, 6, 7, 8],
        [1, 2, 3, 4, 5, 6, 7, 8, 5, 6, 7, 8]⟩ := by decide
  have hfifo := h 5 [0, 0, 0, 0, 0] five (by decide) (by decide) rfl replayCalls _ hrun
  have hlen := hfifo.in_order.length_le
  simp at hlen

end MuggleC.Memory.BytesStream
