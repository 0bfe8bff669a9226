/- source: memory/bytes_buffer.c
   digest: Every sequence of the public operations: layouts, writes, reserved memory, and readers that
     stop at the mark. -/

import MuggleC.Memory.BytesBuffer

set_option autoImplicit false

/-! `writer_fc` and `writer_move` choose a place each, from the numbers they are given. Only `read`,
and not `reader_move`, sends a reader at the mark back to the start. -/

namespace MuggleC.Memory.BytesRuns

open Foundation.Slice Foundation.Transition BytesBuffer

/-- The operations of a client. `reserve` is `writer_fc` together with a copy of `src` to the address
that it returns; `look` is any operation that only reads: `fetch`, `reader_fc` and the three counts. -/
inductive Op
  | write (src : List UInt8)
  | read (numBytes : Nat)
  | reserve (numBytes : Nat) (src : List UInt8)
  | writerMove (numBytes : Nat)
  | readerMove (numBytes : Nat)
  | clear
  | look
  deriving DecidableEq, Repr

/-- A client does not store more bytes than it has asked for. -/
def step (b : BytesBuffer) : Op → Option BytesBuffer
  | .write src => some (b.write src).1
  | .read numBytes => some (b.read numBytes).1
  | .reserve numBytes src =>
    if src.length ≤ numBytes then
      match b.writerFc numBytes with
      | none => some b
      | some offset => some (copyIn b offset src)
    else none
  | .writerMove numBytes => some (b.writerMove numBytes).1
  | .readerMove numBytes => some (b.readerMove numBytes).1
  | .clear => some b.clear
  | .look => some b

structure Unused (b : BytesBuffer) (offset : Int) (n : Nat) : Prop where
  nonneg : 0 ≤ offset
  inside : offset + n ≤ b.c
  linear : b.r ≤ b.w → offset + n ≤ b.r ∨ b.w ≤ offset
  wrapped : b.w < b.r → b.w ≤ offset ∧ offset + n ≤ b.r

section Reserved

variable {b : BytesBuffer} {offset : Int} {n m : Nat} {src : List UInt8}

theorem Unused.mono (h : Unused b offset n) (hmn : m ≤ n) : Unused b offset m := by
  obtain ⟨h0, hin, hlin, hwrap⟩ := h
  refine ⟨h0, by omega, fun hle => ?_, fun hlt => ?_⟩
  · rcases hlin hle with h | h
    · exact .inl (by omega)
    · exact .inr h
  · omega

theorem writerFc_cases (h : b.writerFc n = some offset) :
    (n ≤ contiguousWritable b ∧ offset = b.w) ∨
      (contiguousWritable b < n ∧ n ≤ jumpWritable b ∧ offset = 0) := by
  unfold writerFc at h
  split at h
  · next hc => exact .inl ⟨hc, (Option.some.inj h).symm⟩
  · next hc =>
    split at h
    · next hj => exact .inr ⟨by omega, hj, (Option.some.inj h).symm⟩
    · cases h

theorem writerFc_unused (hb : WellFormed b) (h : b.writerFc n = some offset) :
    Unused b offset n := by
  obtain ⟨hs, hr, hw, hwc, hrt, htc, ht, hl⟩ := hb
  rcases writerFc_cases h with ⟨hc, rfl⟩ | ⟨hc, hj, rfl⟩
  · unfold contiguousWritable at hc
    refine ⟨hw, ?_, fun _ => .inr (Int.le_refl _), fun hlt => ⟨Int.le_refl _, ?_⟩⟩
    · split at hc
      · split at hc <;> omega
      · omega
    · omega
  · unfold jumpWritable at hj
    unfold contiguousWritable at hc
    split at hj
    · split at hj
      · exact ⟨Int.le_refl _, by omega, fun _ => .inl (by omega), fun hlt => by omega⟩
      · omega
    · omega

theorem Unused.copyIn (hb : WellFormed b) (h : Unused b offset src.length) :
    WellFormed (copyIn b offset src) ∧ contents (copyIn b offset src) = contents b := by
  obtain ⟨h0, hin, hlin, hwrap⟩ := h
  have hroom : offset.toNat + src.length ≤ b.buffer.length := by
    have := hb.size
    omega
  have hlen := length_overwrite hroom
  obtain ⟨hs, hr, hw, hwc, hrt, htc, ht, hl⟩ := hb
  refine ⟨⟨by rw [BytesBuffer.copyIn, hlen]; exact hs, hr, hw, hwc, hrt, htc, ht, hl⟩, ?_⟩
  unfold contents copyOut BytesBuffer.copyIn
  dsimp only
  by_cases hle : b.r ≤ b.w
  · rw [if_pos hle, if_pos hle]
    rcases hlin hle with h | h
    · exact slice_overwrite_of_disjoint hroom (.inr (by omega))
    · exact slice_overwrite_of_disjoint hroom (.inl (by omega))
  · rw [if_neg hle, if_neg hle, slice_overwrite_of_disjoint hroom (.inr (by omega)),
      slice_overwrite_of_disjoint hroom (.inl (by rw [Int.toNat_zero]; omega))]

private theorem copyOut_copyIn (hb : WellFormed b) (h : Unused b offset src.length) :
    copyOut (BytesBuffer.copyIn b offset src) offset src.length = src := by
  have hin := h.inside
  have h0 := h.nonneg
  have hs := hb.size
  exact slice_overwrite_self (by omega)

theorem writerMove_spec (hb : WellFormed b) (n : Nat) :
    (b.writerFc n = none ∧ b.writerMove n = (b, false)) ∨
      ∃ offset b', b.writerFc n = some offset ∧ b.writerMove n = (b', true) ∧ WellFormed b' ∧
        contents b' = contents b ++ copyOut b offset n := by
  -- the bytes that are there already, stored once more
  have hself : ∀ offset : Int, Unused b offset n →
      (copyOut b offset n).length = n ∧ BytesBuffer.copyIn b offset (copyOut b offset n) = b := by
    intro offset hu
    have h0 := hu.nonneg
    have hin := hu.inside
    have hs := hb.size
    refine ⟨length_slice (by omega), ?_⟩
    unfold BytesBuffer.copyIn copyOut
    rw [Int.toNat_natCast, overwrite_slice (by omega)]
  unfold writerFc writerMove
  by_cases hc : (n : Int) ≤ contiguousWritable b
  · have hfc : b.writerFc n = some b.w := by
      simp only [writerFc, ge_iff_le, hc, ↓reduceIte]
    obtain ⟨hlen, hsame⟩ := hself b.w (writerFc_unused hb hfc)
    have happ := @contents_advanceWriter b (copyOut b b.w n) hb (by rw [hlen]; exact hc)
    rw [hsame, hlen] at happ
    simp only [ge_iff_le, hc, ↓reduceIte]
    exact .inr ⟨b.w, _, rfl, rfl, happ⟩
  · by_cases hj : (n : Int) ≤ jumpWritable b
    · have hfc : b.writerFc n = some 0 := by
        simp only [writerFc, ge_iff_le, hc, hj, ↓reduceIte]
      obtain ⟨hlen, hsame⟩ := hself 0 (writerFc_unused hb hfc)
      have happ := @contents_jumpWriter b (copyOut b 0 n) hb (by rw [hlen]; omega)
        (by rw [hlen]; exact hj)
      have hjump : BytesBuffer.copyIn (jumpWriter b n) 0 (copyOut b 0 n) = jumpWriter b n := by
        have hbuf : overwrite b.buffer (0 : Int).toNat (copyOut b 0 n) = b.buffer :=
          congrArg BytesBuffer.buffer hsame
        unfold BytesBuffer.copyIn jumpWriter
        rw [hbuf]
      rw [hlen, hjump] at happ
      simp only [ge_iff_le, hc, hj, ↓reduceIte]
      exact .inr ⟨0, _, rfl, rfl, happ⟩
    · simp only [ge_iff_le, hc, hj, ↓reduceIte]
      exact .inl ⟨trivial, trivial⟩

end Reserved

/-- The buffer without memory that `init` sets up when `malloc(0)` is not `NULL`. -/
def nothing : BytesBuffer := ⟨0, 0, 0, 0, []⟩

variable {b : BytesBuffer}

theorem step_wellFormed {b' : BytesBuffer} (op : Op) (hb : WellFormed b)
    (h : step b op = some b') : WellFormed b' := by
  cases op with
  | write src =>
    cases h
    rcases write_spec hb src with ⟨_, he⟩ | ⟨b', he, _, hwf, _⟩
    · rw [he]
      exact hb
    · rw [he]
      exact hwf
  | read n =>
    cases h
    rcases read_spec hb (Int.natCast_nonneg n) with ⟨_, he⟩ | ⟨b', dst, he, hreads⟩
    · rw [he]
      exact hb
    · rw [he]
      exact hreads.wellFormed
  | reserve n src =>
    simp only [step] at h
    split at h
    · next hle =>
      split at h
      · cases h
        exact hb
      · next offset hfc =>
        cases h
        exact (((writerFc_unused hb hfc).mono hle).copyIn hb).1
    · cases h
  | writerMove n =>
    cases h
    rcases writerMove_spec hb n with ⟨_, he⟩ | ⟨offset, b', _, he, hwf, _⟩
    · rw [he]
      exact hb
    · rw [he]
      exact hwf
  | readerMove n =>
    cases h
    unfold readerMove
    split
    · next hc => exact (refresh_wellFormed (contents_moveReader hb (Int.natCast_nonneg n) hc).1).1
    · exact hb
  | clear =>
    cases h
    exact (clear_wellFormed hb).1
  | look =>
    cases h
    exact hb

theorem write_nothing (src : List UInt8) : nothing.write src = (nothing, false) := by
  have hc : contiguousWritable nothing = -1 := rfl
  have hj : jumpWritable nothing = 0 := rfl
  unfold write
  rw [if_neg (by omega), if_pos (by omega)]

theorem step_nothing {op : Op} (h : step nothing op = some b) : b = nothing := by
  cases op with
  | write src =>
    cases h
    rw [write_nothing]
  | read n =>
    cases h
    cases n with
    | zero => rfl
    | succ n =>
      have hc : contiguousReadable nothing = 0 := rfl
      have hj : jumpReadable nothing = 0 := rfl
      unfold BytesBuffer.read
      rw [if_neg (by omega), if_pos (by omega)]
  | reserve n src =>
    simp only [step] at h
    split at h
    · next hle =>
      cases n with
      | zero =>
        obtain rfl : src = [] := List.length_eq_zero_iff.mp (by omega)
        exact (Option.some.inj h).symm
      | succ n =>
        exact (Option.some.inj h).symm
    · cases h
  | writerMove n =>
    cases h
    cases n with
    | zero => rfl
    | succ n =>
      have hc : contiguousWritable nothing = -1 := rfl
      have hj : jumpWritable nothing = 0 := rfl
      unfold writerMove
      rw [hc, hj, if_neg (by omega), if_neg (by omega)]
  | readerMove n =>
    cases h
    cases n with
    | zero => rfl
    | succ n =>
      have hc : contiguousReadable nothing = 0 := rfl
      unfold readerMove
      rw [hc, if_neg (by omega)]
  | clear | look => exact (Option.some.inj h).symm

theorem run_wellFormed {capacity : Int} {memory : List UInt8} {s : BytesBuffer}
    (hm : (memory.length : Int) = capacity) (hb : BytesBuffer.init capacity (some memory) = some b)
    {ops : List Op} (hr : run step b ops = some s) :
    (1 ≤ capacity ∧ WellFormed s) ∨ (capacity = 0 ∧ s = nothing) := by
  by_cases h1 : 1 ≤ capacity
  · exact .inl ⟨h1, run_invariant (fun t op t' ht he => step_wellFormed op ht he)
      (init_wellFormed h1 hm hb).1 hr⟩
  · obtain rfl : memory = [] := List.length_eq_zero_iff.mp (by omega)
    obtain rfl : capacity = 0 := hm.symm
    cases hb
    exact .inr ⟨rfl, run_invariant (I := fun s => s = nothing)
      (fun t op t' ht he => step_nothing (ht ▸ he)) rfl hr⟩

/-- The layout of a buffer: its positions, its unread bytes and the gap of one byte. -/
structure Layout (b : BytesBuffer) : Prop where
  writer : 0 ≤ b.w ∧ b.w < b.c
  reader : 0 ≤ b.r ∧ b.r ≤ b.t ∧ b.t ≤ b.c
  unread : (b.r ≤ b.w ∧ b.w ≤ b.t ∧ contents b = copyOut b b.r (b.w - b.r)) ∨
    (b.w < b.r ∧ contents b = copyOut b b.r (b.t - b.r) ++ copyOut b 0 b.w)
  count : readable b = (contents b).length
  gap : readable b + writable b ≤ b.c - 1

private theorem layout_of_wellFormed (hb : WellFormed b) : Layout b := by
  refine ⟨⟨hb.w_nonneg, hb.w_lt⟩, ⟨hb.r_nonneg, hb.r_le, hb.t_le⟩, ?_, (length_contents hb).symm, ?_⟩
  · by_cases hlin : b.r ≤ b.w
    · exact .inl ⟨hlin, hb.w_le hlin, if_pos hlin⟩
    · exact .inr ⟨by omega, if_neg hlin⟩
  · have htc := hb.t_le
    unfold readable contiguousReadable jumpReadable writable contiguousWritable jumpWritable
    split
    · split <;> omega
    · omega

structure Writes (b : BytesBuffer) (src : List UInt8) : Prop where
  accepted_iff : (b.write src).2 = true ↔ (src.length : Int) ≤ writable b
  accepted : (b.write src).2 = true →
    readable (b.write src).1 = readable b + src.length ∧
      contents (b.write src).1 = contents b ++ src
  refused : (b.write src).2 = false → (b.write src).1 = b

private theorem writes_of_wellFormed (hb : WellFormed b) (src : List UInt8) : Writes b src := by
  rcases write_spec hb src with ⟨hlt, he⟩ | ⟨b', he, hle, hwf, hcont, _⟩
  · rw [← Int.not_le] at hlt
    refine ⟨?_, ?_, ?_⟩ <;> rw [he]
    · exact ⟨Bool.noConfusion, fun hle => absurd hle hlt⟩
    · exact Bool.noConfusion
    · exact fun _ => rfl
  · refine ⟨?_, ?_, ?_⟩ <;> rw [he]
    · exact ⟨fun _ => hle, fun _ => rfl⟩
    · refine fun _ => ⟨?_, hcont⟩
      rw [← length_contents hwf, hcont, List.length_append, Int.natCast_add, length_contents hb]
    · exact Bool.noConfusion

private theorem writes_nothing (src : List UInt8) : Writes nothing src := by
  have hnone : writable nothing = -1 := rfl
  refine ⟨?_, ?_, ?_⟩ <;> rw [write_nothing]
  · exact ⟨Bool.noConfusion, fun hle => by omega⟩
  · exact Bool.noConfusion
  · exact fun _ => rfl

/-- After every sequence of operations the buffer has the layout, if it has memory at all, and a write
appends its bytes when they fit and changes nothing when they do not. -/
theorem layout_and_writes (capacity : Int) (memory : List UInt8) (b : BytesBuffer)
    (hm : (memory.length : Int) = capacity) (hb : BytesBuffer.init capacity (some memory) = some b)
    (ops : List Op) (s : BytesBuffer) (hr : run step b ops = some s) :
    (1 ≤ capacity → Layout s) ∧ (capacity = 0 → s = nothing) ∧ ∀ src, Writes s src := by
  rcases run_wellFormed hm hb hr with ⟨h1, hwf⟩ | ⟨h0, rfl⟩
  · exact ⟨fun _ => layout_of_wellFormed hwf, fun h0 => by omega, writes_of_wellFormed hwf⟩
  · exact ⟨fun h1 => by omega, fun _ => rfl, writes_nothing⟩

def eight : BytesBuffer := ⟨8, 0, 0, 8, [0, 0, 0, 0, 0, 0, 0, 0]⟩

def someOps : List Op :=
  [.write [1, 2, 3, 4, 5], .readerMove 4, .reserve 3 [6, 7], .writerMove 2, .write [8, 9], .read 4]

theorem layout_and_writes_eight :
    ∃ s, run step eight someOps = some s ∧ Layout s ∧ ∀ src, Writes s src := by
  have hrun : run step eight someOps = some ⟨8, 2, 1, 7, [8, 9, 3, 4, 5, 6, 7, 0]⟩ := by decide
  obtain ⟨hlayout, _, hwrites⟩ :=
    layout_and_writes 8 [0, 0, 0, 0, 0, 0, 0, 0] eight rfl rfl someOps _ hrun
  exact ⟨_, hrun, hlayout (by decide), hwrites⟩

theorem not_layout_of_no_memory :
    ¬ ∀ (capacity : Int) (memory : List UInt8) (b : BytesBuffer), (memory.length : Int) = capacity →
      BytesBuffer.init capacity (some memory) = some b →
      ∀ (ops : List Op) (s : BytesBuffer), run step b ops = some s →
        Layout s ∧ ∀ src, Writes s src := by
  intro h
  have hlayout := (h 0 [] nothing rfl rfl [] nothing rfl).1
  exact absurd hlayout.writer.2 (by decide)

section Fewer

variable {s : BytesBuffer} {offset offset' : Int} {m n : Nat} {src : List UInt8}

theorem contents_move_stored (hwf : WellFormed s) (hmn : src.length ≤ n)
    (hfc : s.writerFc n = some offset) {b' : BytesBuffer}
    (he : (copyIn s offset src).writerMove src.length = (b', true)) :
    ∃ offset', s.writerFc src.length = some offset' ∧
      contents b' = contents s ++ copyOut (copyIn s offset src) offset' src.length := by
  obtain ⟨hwf', hcont⟩ := ((writerFc_unused hwf hfc).mono hmn).copyIn hwf
  rcases writerMove_spec hwf' src.length with ⟨_, hno⟩ | ⟨offset', b'', hfc', hyes, _, happ⟩
  · rw [hno] at he
    cases he
  · rw [hyes] at he
    obtain rfl := (Prod.mk.inj he).1
    rw [hcont] at happ
    exact ⟨offset', hfc', happ⟩

private theorem same_place (hfc : s.writerFc n = some offset) (hfc' : s.writerFc m = some offset')
    (hmn : m ≤ n) (h : n ≤ contiguousWritable s ∨ contiguousWritable s < m) : offset' = offset := by
  rcases writerFc_cases hfc with ⟨hn, rfl⟩ | ⟨hn, _, rfl⟩
  · rcases writerFc_cases hfc' with ⟨_, rfl⟩ | ⟨hm, _, rfl⟩
    · rfl
    · omega
  · rcases writerFc_cases hfc' with ⟨hm, rfl⟩ | ⟨_, _, rfl⟩
    · omega
    · rfl

variable (src) in
private theorem contents_move_elsewhere (hwf : WellFormed s) (hn : contiguousWritable s < n)
    (hm : src.length ≤ contiguousWritable s) (hfc : s.writerFc n = some offset) :
    ∃ b', (copyIn s offset src).writerMove src.length = (b', true) ∧
      contents b' = contents s ++ copyOut s s.w src.length := by
  have hmn : src.length ≤ n := by omega
  have hunused := (writerFc_unused hwf hfc).mono hmn
  have hw : s.writerFc src.length = some s.w := by
    simp only [writerFc, ge_iff_le, hm, ↓reduceIte]
  have hok : (copyIn s offset src).writerMove src.length =
      (advanceWriter (copyIn s offset src) src.length, true) := by
    have hm' : (src.length : Int) ≤ contiguousWritable (copyIn s offset src) := hm
    simp only [writerMove, ge_iff_le, hm', ↓reduceIte]
  obtain ⟨offset', hfc', hcont⟩ := contents_move_stored hwf hmn hfc hok
  obtain rfl : s.w = offset' := Option.some.inj (hw.symm.trans hfc')
  refine ⟨_, hok, ?_⟩
  rw [hcont]
  congr 1
  -- the two places are apart, since the start was chosen for more bytes than fit at the writer
  rcases writerFc_cases hfc with ⟨hle, _⟩ | ⟨_, hj, rfl⟩
  · omega
  · have hlin : s.r ≤ s.w := by
      by_contra hlin
      rw [jumpWritable, if_neg hlin] at hj
      omega
    have hroom : (0 : Int).toNat + src.length ≤ s.buffer.length := by
      have := hunused.inside
      have := hwf.size
      omega
    have hleft : (src.length : Int) ≤ s.r := by
      rw [jumpWritable, if_pos hlin] at hj
      split at hj <;> omega
    exact slice_overwrite_of_disjoint hroom (.inr (by omega))

end Fewer

/-- The bytes that a client stores at the returned address and moves over are appended exactly when
the two calls choose the same place: both in front of the end, both at the start, or nothing is
stored. -/
theorem stored_bytes_appended_iff (capacity : Int) (memory : List UInt8) (b : BytesBuffer)
    (hm : (memory.length : Int) = capacity) (hb : BytesBuffer.init capacity (some memory) = some b)
    (ops : List Op) (s : BytesBuffer) (hr : run step b ops = some s) (m n : Nat) (hmn : m ≤ n)
    (offset : Int) (hfc : s.writerFc n = some offset) :
    (∀ src : List UInt8, src.length = m → ∀ b', (copyIn s offset src).writerMove m = (b', true) →
        contents b' = contents s ++ src) ↔
      (n ≤ contiguousWritable s ∨ contiguousWritable s < m ∨ m = 0) := by
  rcases run_wellFormed hm hb hr with ⟨_, hwf⟩ | ⟨_, rfl⟩
  · constructor
    · intro happ
      by_contra hnot
      -- bytes that differ from those in front of the end
      obtain ⟨src, hsrc⟩ : ∃ src, src = (copyOut s s.w m).map (· + 1) := ⟨_, rfl⟩
      have hlen : src.length = m := by
        have hfits : s.writerFc m = some s.w := by
          simp only [writerFc, ge_iff_le, show (m : Int) ≤ contiguousWritable s by omega, ↓reduceIte]
        have hw := writerFc_unused hwf hfits
        have := hw.nonneg
        have := hw.inside
        have := hwf.size
        rw [hsrc, List.length_map, copyOut, length_slice (by omega), Int.toNat_natCast]
      obtain ⟨b', hmove, hcont⟩ := contents_move_elsewhere src hwf (by omega) (by omega) hfc
      rw [hlen] at hmove hcont
      have hsame := List.append_cancel_left ((happ src hlen b' hmove).symm.trans hcont)
      rw [← hsame] at hsrc
      cases src with
      | nil => exact hnot (.inr (.inr hlen.symm))
      | cons x src =>
        have hx := (List.cons.inj hsrc).1
        simp at hx
    · intro hplace src hlen b' hmove
      subst hlen
      obtain ⟨offset', hfc', hcont⟩ := contents_move_stored hwf hmn hfc hmove
      rcases hplace with h | h | h
      · obtain rfl := same_place hfc hfc' hmn (.inl h)
        rw [hcont, copyOut_copyIn hwf ((writerFc_unused hwf hfc).mono hmn)]
      · obtain rfl := same_place hfc hfc' hmn (.inr h)
        rw [hcont, copyOut_copyIn hwf ((writerFc_unused hwf hfc).mono hmn)]
      · obtain rfl := List.length_eq_zero_iff.mp h
        rw [hcont]
        simp [copyOut]
  · cases n with
    | succ n =>
      cases hfc
    | zero =>
      obtain rfl : m = 0 := by omega
      refine ⟨fun _ => .inr (.inr rfl), fun _ src hlen b' hmove => ?_⟩
      obtain rfl := List.length_eq_zero_iff.mp hlen
      obtain rfl := (Prod.mk.inj hmove).1
      rfl

def twoLeft : BytesBuffer := ⟨8, 6, 5, 8, [1, 2, 3, 4, 5, 6, 0, 0]⟩

theorem run_twoLeft :
    run step eight [.write [1, 2, 3, 4, 5, 6], .readerMove 5] = some twoLeft := by decide

theorem stored_bytes_appended_two_left :
    (∀ src : List UInt8, src.length = 3 → ∀ b', (copyIn twoLeft 0 src).writerMove (3 : Nat) = (b', true) →
        contents b' = contents twoLeft ++ src) ↔
      (((3 : Nat) : Int) ≤ contiguousWritable twoLeft ∨ contiguousWritable twoLeft < (3 : Nat) ∨
        3 = 0) :=
  stored_bytes_appended_iff 8 [0, 0, 0, 0, 0, 0, 0, 0] eight rfl rfl _ twoLeft run_twoLeft 3 3
    (Nat.le_refl 3) 0 (by decide)

theorem not_appended_of_two_left :
    ¬ ∀ (capacity : Int) (memory : List UInt8) (b : BytesBuffer), (memory.length : Int) = capacity →
      BytesBuffer.init capacity (some memory) = some b →
      ∀ (ops : List Op) (s : BytesBuffer), run step b ops = some s →
        ∀ (m n : Nat), m ≤ n → ∀ offset, s.writerFc n = some offset →
          ∀ src : List UInt8, src.length = m → ∀ b', (copyIn s offset src).writerMove m = (b', true) →
            contents b' = contents s ++ src := by
  intro h
  have happ := h 8 [0, 0, 0, 0, 0, 0, 0, 0] eight rfl rfl _ twoLeft run_twoLeft 2 3 (by omega) 0
    (by decide) [7, 8] rfl ⟨8, 0, 5, 8, [7, 8, 3, 4, 5, 6, 0, 0]⟩ (by decide)
  exact absurd happ (by decide)

/-- The operation moves the reader of a wrapped layout to the mark and leaves it there. -/
def StopsAtMark (b : BytesBuffer) : Op → Prop
  | .readerMove numBytes => b.w < b.r ∧ b.r + numBytes = b.t
  | _ => False

instance (b : BytesBuffer) (op : Op) : Decidable (StopsAtMark b op) := by
  cases op <;> unfold StopsAtMark <;> infer_instance

structure Ahead (b : BytesBuffer) : Prop where
  wellFormed : WellFormed b
  met : b.r = b.w → b.r = 0
  marked : b.w < b.r → b.r < b.t

/-- While bytes are unread, the reader can take the next one. -/
def Progress (b : BytesBuffer) : Prop :=
  0 < readable b → 0 < contiguousReadable b ∧ (∃ offset, b.readerFc 1 = some offset) ∧
    ∃ b', b.readerMove 1 = (b', true) ∧ readable b' = readable b - 1

theorem Ahead.progress (h : Ahead b) : Progress b := by
  intro hread
  have hcont : 0 < contiguousReadable b := by
    unfold readable contiguousReadable jumpReadable at hread
    unfold contiguousReadable
    split
    · next hle =>
      omega
    · have := h.marked (by omega)
      omega
  have hone : (1 : Int) ≤ contiguousReadable b := by omega
  obtain ⟨hmove, hsplit⟩ := contents_moveReader h.wellFormed Int.one_nonneg hone
  obtain ⟨hwf, hfresh⟩ := refresh_wellFormed hmove
  refine ⟨hcont, ⟨b.r, if_pos hone⟩, _, if_pos hone, ?_⟩
  have hlen := congrArg (fun l : List UInt8 => (l.length : Int)) hsplit
  have hhead : ((copyOut b b.r 1).length : Int) = 1 := by
    have hs := h.wellFormed.size
    have hr := h.wellFormed.r_nonneg
    unfold contiguousReadable at hone
    rw [copyOut, length_slice]
    · rfl
    · have := h.wellFormed.t_le
      have := h.wellFormed.w_lt
      split at hone <;> omega
  simp only [List.length_append, Int.natCast_add, hhead] at hlen
  rw [length_contents h.wellFormed, ← hfresh, length_contents hwf] at hlen
  omega

section Ahead

variable {b b' : BytesBuffer} {n : Int}

theorem ahead_refresh (hb : WellFormed b) (hmark : b.w < b.r → b.r < b.t) : Ahead (refresh b) := by
  have hwf := (refresh_wellFormed hb).1
  unfold refresh at hwf ⊢
  split
  · rw [if_pos ‹_›] at hwf
    exact ⟨hwf, fun _ => rfl, fun h => absurd h (Int.lt_irrefl 0)⟩
  · next hne => exact ⟨hb, fun h => absurd h.symm hne, hmark⟩

theorem Ahead.advance (h : Ahead b) (hb' : WellFormed b') (hn : 0 ≤ n)
    (hc : n ≤ contiguousWritable b) (hr : b'.r = b.r)
    (hw : b'.w = if b.w + n = b.c then 0 else b.w + n)
    (ht : b'.t = if b.t < b.w + n then b.c else b.t) : Ahead b' := by
  obtain ⟨hwf, hmet, hmark⟩ := h
  unfold contiguousWritable at hc
  refine ⟨hb', ?_, ?_⟩
  · rw [hr, hw]
    intro he
    by_cases hlin : b.r ≤ b.w
    · split at he
      · exact he
      · exact hmet (by omega)
    · split at he <;> omega
  · rw [hr, hw, ht]
    intro hlt
    by_cases hlin : b.r ≤ b.w
    · split at hlt
      · split <;> omega
      · omega
    · split <;> omega

theorem Ahead.jump (h : Ahead b) (hb' : WellFormed b') (hj : 0 < jumpWritable b) (hr : b'.r = b.r)
    (hw : b'.w ≤ jumpWritable b) (ht : b'.t = b.w ∨ b'.t = b.c) : Ahead b' := by
  obtain ⟨hwf, hmet, _⟩ := h
  have hwc := hwf.w_lt
  have hlin : b.r ≤ b.w := by
    by_contra hlin
    rw [jumpWritable, if_neg hlin] at hj
    omega
  have hr0 : b.r ≠ 0 := by
    intro h0
    rw [jumpWritable, if_pos hlin, if_neg (not_not_intro h0)] at hj
    omega
  have hjw : jumpWritable b = b.r - 1 := by rw [jumpWritable, if_pos hlin, if_pos hr0]
  refine ⟨hb', fun he => ?_, fun _ => ?_⟩
  · omega
  · rcases ht with ht | ht <;> omega

theorem advanceWriter_w (b : BytesBuffer) (n : Int) :
    (advanceWriter b n).w = if b.w + n = b.c then 0 else b.w + n := by
  unfold advanceWriter
  dsimp only
  split <;> split <;> rfl

theorem advanceWriter_t (b : BytesBuffer) (n : Int) :
    (advanceWriter b n).t = if b.t < b.w + n then b.c else b.t := by
  unfold advanceWriter
  dsimp only
  split <;> split <;> rfl

theorem advanceWriter_r (b : BytesBuffer) (n : Int) : (advanceWriter b n).r = b.r := by
  unfold advanceWriter
  dsimp only
  split <;> split <;> rfl

theorem Ahead.write (h : Ahead b) (src : List UInt8) : Ahead (b.write src).1 := by
  have hwf : WellFormed (b.write src).1 := step_wellFormed (.write src) h.wellFormed rfl
  unfold BytesBuffer.write at hwf ⊢
  dsimp only at hwf ⊢
  split
  · next hc =>
    rw [if_pos hc] at hwf
    exact h.advance hwf (Int.natCast_nonneg _) hc (advanceWriter_r _ _) (advanceWriter_w _ _)
      (advanceWriter_t _ _)
  · next hc =>
    rw [if_neg hc] at hwf
    split
    · exact h
    · next ht =>
      rw [if_neg ht] at hwf
      split
      · next hj =>
        rw [if_pos hj] at hwf
        exact h.jump hwf (by omega) rfl hj (.inl rfl)
      · next hj =>
        rw [if_neg hj] at hwf
        refine h.jump hwf (by omega) ?_ ?_ (.inr ?_)
        · unfold splitWriter
          split <;> rfl
        · change (src.length : Int) - contiguousWritable b ≤ _
          omega
        · unfold splitWriter
          split <;> rfl

theorem Ahead.writerMove (h : Ahead b) (n : Nat) : Ahead (b.writerMove n).1 := by
  have hwf : WellFormed (b.writerMove n).1 :=
    step_wellFormed (.writerMove n) h.wellFormed rfl
  have hcw := contiguousWritable_nonneg h.wellFormed
  unfold BytesBuffer.writerMove at hwf ⊢
  split
  · next hc =>
    rw [if_pos hc] at hwf
    exact h.advance hwf (Int.natCast_nonneg _) hc (advanceWriter_r _ _) (advanceWriter_w _ _)
      (advanceWriter_t _ _)
  · next hc =>
    rw [if_neg hc] at hwf
    split
    · next hj =>
      rw [if_pos hj] at hwf
      exact h.jump hwf (by omega) rfl hj (.inl rfl)
    · exact h

theorem Ahead.read (h : Ahead b) (hn : 0 ≤ n) : Ahead (b.read n).1 := by
  have hb := h.wellFormed
  unfold BytesBuffer.read
  dsimp only
  split
  · next hc =>
    have hmove := (contents_moveReader hb hn hc).1
    by_cases hm : b.r + n = b.t
    · rw [if_pos hm]
      by_cases hlin : b.r ≤ b.w
      · obtain ⟨hs, hr, hw, hwc, hrt, htc, ht, hl⟩ := hb
        refine ahead_refresh ⟨hs, Int.le_refl _, hw, hwc, ?_, htc, ht, fun _ => hl hlin⟩ ?_
        · exact Int.le_of_lt ht
        · exact fun hlt => absurd hlt (Int.not_lt.mpr hw)
      · refine ahead_refresh (contents_wrapReader hmove hm (by dsimp only; omega)).1 ?_
        intro hlt
        have := hb.w_nonneg
        dsimp only at hlt
        omega
    · rw [if_neg hm]
      refine ahead_refresh hmove ?_
      have := hmove.r_le
      dsimp only at this ⊢
      omega
  · next hc =>
    split
    · exact h
    · next hj =>
      have hlin : ¬ b.r ≤ b.w := by
        intro hlin
        simp only [contiguousReadable, jumpReadable, ge_iff_le, hlin, ↓reduceIte] at hc hj
        omega
      simp only [contiguousReadable, jumpReadable, ge_iff_le, hlin, ↓reduceIte] at hc hj ⊢
      refine ahead_refresh (contents_jumpReader hb (by omega) _ (by omega) (by omega)).1 ?_
      intro hlt
      dsimp only at hlt
      omega

end Ahead

private theorem step_ahead {b' : BytesBuffer} {op : Op} (h : Ahead b) (hno : ¬ StopsAtMark b op)
    (he : step b op = some b') : Ahead b' := by
  have hwf := step_wellFormed _ h.wellFormed he
  cases op with
  | write src =>
    cases he
    exact h.write src
  | read n =>
    cases he
    exact h.read (Int.natCast_nonneg n)
  | reserve n src =>
    -- only the bytes change
    have hsame : b'.r = b.r ∧ b'.w = b.w ∧ b'.t = b.t := by
      simp only [step] at he
      split at he
      · split at he <;> cases he <;> exact ⟨rfl, rfl, rfl⟩
      · cases he
    obtain ⟨hr, hw, ht⟩ := hsame
    exact ⟨hwf, by rw [hr, hw]; exact h.met, by rw [hr, hw, ht]; exact h.marked⟩
  | writerMove n =>
    cases he
    exact h.writerMove n
  | readerMove n =>
    cases he
    unfold BytesBuffer.readerMove
    split
    · next hc =>
      have hmove := (contents_moveReader h.wellFormed (Int.natCast_nonneg n) hc).1
      refine ahead_refresh hmove ?_
      intro hlt
      have hle := hmove.r_le
      dsimp only at hlt hle ⊢
      -- a reader in front of the writer has not come from behind it
      have hwrap : b.w < b.r := by
        unfold contiguousReadable at hc
        split at hc <;> omega
      have hne : b.r + n ≠ b.t := fun heq => hno ⟨hwrap, heq⟩
      omega
    · exact h
  | clear =>
    cases he
    exact ⟨hwf, fun _ => rfl, fun hlt => absurd hlt (Int.lt_irrefl 0)⟩
  | look =>
    cases he
    exact h

/-- In every run in which no `reader_move` stops at the mark of a wrapped layout, a reader with
unread bytes can take the next one. -/
theorem reader_progresses (capacity : Int) (memory : List UInt8) (b : BytesBuffer)
    (hm : (memory.length : Int) = capacity) (hb : BytesBuffer.init capacity (some memory) = some b)
    (ops : List Op) (s : BytesBuffer)
    (hr : run (guarded step fun b op => ¬ StopsAtMark b op) b ops = some s) : Progress s := by
  have hstart : Ahead b ∨ b = nothing := by
    rcases run_wellFormed hm hb (run_nil step b) with ⟨_, hwf⟩ | ⟨_, h0⟩
    · cases hb
      exact .inl ⟨hwf, fun _ => rfl, fun hlt => absurd hlt (Int.lt_irrefl 0)⟩
    · exact .inr h0
  have hkept : Ahead s ∨ s = nothing := by
    refine run_invariant (I := fun s => Ahead s ∨ s = nothing) ?_ hstart hr
    intro t op t' ht he
    obtain ⟨hno, he⟩ := guarded_eq_some.mp he
    rcases ht with ht | rfl
    · exact .inl (step_ahead ht hno he)
    · exact .inr (step_nothing he)
  rcases hkept with hs | rfl
  · exact hs.progress
  · exact fun hread => absurd hread (Int.lt_irrefl 0)

def someReads : List Op := [.write [1, 2, 3], .readerMove 2, .write [4, 5], .readerMove 1]

theorem reader_progresses_four :
    ∃ s, run (guarded step fun b op => ¬ StopsAtMark b op) ⟨4, 0, 0, 4, [0, 0, 0, 0]⟩ someReads =
        some s ∧ 0 < readable s ∧ Progress s := by
  have hrun : run (guarded step fun b op => ¬ StopsAtMark b op) ⟨4, 0, 0, 4, [0, 0, 0, 0]⟩ someReads =
      some ⟨4, 1, 3, 4, [5, 2, 3, 4]⟩ := by decide
  exact ⟨_, hrun, by decide,
    reader_progresses 4 [0, 0, 0, 0] ⟨4, 0, 0, 4, [0, 0, 0, 0]⟩ rfl rfl someReads _ hrun⟩

theorem not_progress_of_mark :
    ¬ ∀ (capacity : Int) (memory : List UInt8) (b : BytesBuffer), (memory.length : Int) = capacity →
      BytesBuffer.init capacity (some memory) = some b →
      ∀ (ops : List Op) (s : BytesBuffer), run step b ops = some s →
        0 < readable s → 0 < contiguousReadable s := by
  intro h
  have hrun : run step ⟨4, 0, 0, 4, [0, 0, 0, 0]⟩ (someReads ++ [.readerMove 1]) =
      some ⟨4, 1, 4, 4, [5, 2, 3, 4]⟩ := by decide
  exact absurd (h 4 [0, 0, 0, 0] ⟨4, 0, 0, 4, [0, 0, 0, 0]⟩ rfl rfl _ _ hrun (by decide)) (by decide)

end MuggleC.Memory.BytesRuns
