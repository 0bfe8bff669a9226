/- source: sync/double_buffer.c
   digest: The double buffer: many writers fill the back half while one reader owns the front half. -/

import MuggleC.Base.Utils
import MuggleC.Foundation.Monitor

set_option autoImplicit false

namespace MuggleC.Sync

open Base Function List

/-- `muggle_single_buffer_t`; `none` is an entry that nothing has been stored in. -/
structure SingleBuffer (D : Type) where
  datas : List (Option D)
  cnt : Int
  deriving DecidableEq, Repr

/-- `muggle_double_buffer_t` without its mutex and condition variables; `front` and `back` point to
the entries of `buf`, here `false` and `true`. -/
structure DoubleBuffer (D : Type) where
  buf : Bool → SingleBuffer D
  front : Bool
  back : Bool
  capacity : Int
  nonBlocking : Int

namespace SingleBuffer

variable {D : Type}

def push (p : SingleBuffer D) (data : D) : Option (SingleBuffer D) :=
  if 0 ≤ p.cnt ∧ p.cnt < p.datas.length then
    some ⟨p.datas.set p.cnt.toNat (some data), p.cnt + 1⟩
  else none

def contents (p : SingleBuffer D) : List D := (p.datas.take p.cnt.toNat).reduceOption

structure Filled (p : SingleBuffer D) (capacity : Int) (items : List D) : Prop where
  length_eq : capacity = p.datas.length
  cnt_eq : p.cnt = items.length
  cnt_le : items.length ≤ p.datas.length
  items_eq : p.datas.take items.length = items.map some

namespace Filled

variable {p : SingleBuffer D} {capacity : Int} {items : List D}

theorem contents_eq (h : Filled p capacity items) : p.contents = items := by
  rw [contents, h.cnt_eq, Int.toNat_natCast, h.items_eq]
  show (items.map some).filterMap id = items
  rw [filterMap_map]
  exact filterMap_some

theorem clear (h : Filled p capacity items) : Filled { p with cnt := 0 } capacity [] :=
  ⟨h.length_eq, rfl, Nat.zero_le _, rfl⟩

private theorem push (h : Filled p capacity items) (hroom : p.cnt ≠ capacity) (data : D) :
    ∃ p', p.push data = some p' ∧ Filled p' capacity (items ++ [data]) := by
  have hlt : items.length < p.datas.length := by
    have hle := h.cnt_le
    have hcnt := h.cnt_eq
    have hlen := h.length_eq
    omega
  have hin : 0 ≤ p.cnt ∧ p.cnt < p.datas.length := by
    rw [h.cnt_eq]
    exact ⟨Int.natCast_nonneg _, Int.ofNat_lt.mpr hlt⟩
  have hidx : p.cnt.toNat = items.length := by rw [h.cnt_eq, Int.toNat_natCast]
  refine ⟨_, if_pos hin, ?_, ?_, ?_, ?_⟩
  · rw [length_set]
    exact h.length_eq
  · rw [h.cnt_eq, length_append]
    rfl
  · rw [length_set, length_append]
    exact hlt
  · rw [hidx, length_append, length_singleton, take_add_one,
      getElem?_set_self hlt, take_set_of_le (Nat.le_refl _), h.items_eq, map_append]
    rfl

end Filled

end SingleBuffer

namespace DoubleBuffer

open Foundation.Monitor Foundation.Threads Foundation.Transition

variable {ι D : Type}

/-- The results of the calls that `init` makes. -/
structure Env where
  malloc : Bool → Bool
  mutex : Err
  cvNotFull : Err
  cvNotEmpty : Err

def init (capacity nonBlocking : Int) (env : Env) : Except Err (DoubleBuffer D) :=
  if capacity ≤ 0 then .error .invalidParam
  else if env.malloc false = false then .error .memAlloc
  else if env.malloc true = false then .error .memAlloc
  else if env.mutex ≠ .ok then .error env.mutex
  else if env.cvNotFull ≠ .ok then .error env.cvNotFull
  else if env.cvNotEmpty ≠ .ok then .error env.cvNotEmpty
  else .ok {
    buf := fun _ => ⟨List.replicate capacity.toNat none, 0⟩
    front := false
    back := true
    capacity := capacity
    nonBlocking := nonBlocking }

inductive Call (D : Type)
  | write (data : D)
  | read
  deriving DecidableEq, Repr

/-- The statements of `write` and of `read`. -/
inductive Place (D : Type)
  | writeBack (data : D)
  | writeTest (data : D) (pBack : Bool)
  | writeFull (data : D)
  | writePush (data : D) (pBack : Bool)
  | writeUnlock (data : D)
  | writeReturn (ret : Err) (data : D)
  | readTest
  | readClear
  | readFront
  | readBack (tmp : Bool)
  | readUnlock
  | readReturn
  deriving DecidableEq, Repr

/-- The buffer, and a record that no statement reads: the data that were stored and the data whose
`write` returned `MUGGLE_OK`, each with its thread; the batches that the reader took and the batches
that it returned; and the counts of the back half when a `write` found it full and gave up. -/
structure Shared (ι D : Type) where
  buffer : DoubleBuffer D
  written : List (ι × D)
  accepted : List (ι × D)
  batches : List (List D)
  returned : List (List D)
  refused : List Int

def Shared.start (buffer : DoubleBuffer D) : Shared ι D := ⟨buffer, [], [], [], [], []⟩

def Shared.setHalf (s : Shared ι D) (b : Bool) (p : SingleBuffer D) : Shared ι D :=
  { s with buffer := { s.buffer with buf := Function.update s.buffer.buf b p } }

def entry : Call D → Place D
  | .write data => .writeBack data
  | .read => .readTest

def exec (i : ι) (s : Shared ι D) : Place D → Option (Shared ι D × Next (Call D) (Place D))
  | .writeBack data => some (s, .goto (.writeTest data s.buffer.back))
  | .writeTest data pBack =>
    if (s.buffer.buf pBack).cnt = s.buffer.capacity then
      if s.buffer.nonBlocking ≠ 0 then
        some ({ s with refused := s.refused ++ [(s.buffer.buf s.buffer.back).cnt] },
          .goto (.writeFull data))
      else some (s, .wait (.write data))
    else some (s, .goto (.writePush data pBack))
  | .writeFull data => some (s, .unlock (.writeReturn .full data))
  | .writePush data pBack =>
    ((s.buffer.buf pBack).push data).map fun p =>
      ({ s.setHalf pBack p with written := s.written ++ [(i, data)] }, .goto (.writeUnlock data))
  | .writeUnlock data => some (s, .unlock (.writeReturn .ok data))
  | .readTest =>
    if (s.buffer.buf s.buffer.back).cnt = 0 then some (s, .wait .read)
    else some (s, .goto .readClear)
  | .readClear =>
    some (s.setHalf s.buffer.front { s.buffer.buf s.buffer.front with cnt := 0 },
      .goto .readFront)
  | .readFront =>
    some ({ s with
      buffer := { s.buffer with front := s.buffer.back }
      batches := s.batches ++ [(s.buffer.buf s.buffer.back).contents] },
      .goto (.readBack s.buffer.front))
  | .readBack tmp =>
    some ({ s with buffer := { s.buffer with back := tmp } }, .goto .readUnlock)
  | .readUnlock => some (s, .unlock .readReturn)
  | .writeReturn _ _ => none
  | .readReturn => none

def finish (i : ι) (s : Shared ι D) : Place D → Shared ι D
  | .writeReturn .ok data => { s with accepted := s.accepted ++ [(i, data)] }
  | .readReturn => { s with returned := s.returned ++ [(s.buffer.buf s.buffer.front).contents] }
  | _ => s

def code : Code ι (Shared ι D) (Call D) (Place D) := ⟨entry, exec, finish⟩

/-- Anybody may write, and one thread reads. -/
def OneReader (reader : ι) (i : ι) : Call D → Prop
  | .write _ => True
  | .read => i = reader

instance [DecidableEq ι] (reader i : ι) (c : Call D) : Decidable (OneReader reader i c) :=
  match c with
  | .write _ => .isTrue trivial
  | .read => inferInstanceAs (Decidable (i = reader))

def Good (s : Shared ι D) : Prop :=
  ∀ b, (s.buffer.buf b).Filled s.buffer.capacity (s.buffer.buf b).contents

structure Settled (s : Shared ι D) : Prop where
  good : Good s
  nonempty : ∀ b ∈ s.batches, b ≠ []
  refused : ∀ c ∈ s.refused, c = s.buffer.capacity

structure Free (s : Shared ι D) : Prop extends Settled s where
  apart : s.buffer.front ≠ s.buffer.back
  order : s.batches.flatten ++ (s.buffer.buf s.buffer.back).contents = s.written.map Prod.snd

def Knows (s : Shared ι D) : Place D → Prop
  | .writeBack _ => Free s
  | .writeTest _ pBack => Free s ∧ pBack = s.buffer.back
  | .writeFull _ => Free s
  | .writePush _ pBack => Free s ∧ pBack = s.buffer.back ∧
      (s.buffer.buf pBack).cnt ≠ s.buffer.capacity
  | .writeUnlock _ => Free s
  | .readTest => Free s
  | .readClear => Free s ∧ (s.buffer.buf s.buffer.back).cnt ≠ 0
  | .readFront => Free s ∧ (s.buffer.buf s.buffer.back).cnt ≠ 0 ∧
      (s.buffer.buf s.buffer.front).contents = []
  | .readBack tmp => Settled s ∧ tmp ≠ s.buffer.front ∧ (s.buffer.buf tmp).contents = [] ∧
      s.batches.flatten = s.written.map Prod.snd
  | .readUnlock => Free s
  | .writeReturn _ _ => False
  | .readReturn => False

section Statements

variable {i : ι} {s : Shared ι D}

theorem Good.setHalf (h : Good s) {b : Bool} {p : SingleBuffer D} {items : List D}
    (hp : p.Filled s.buffer.capacity items) : Good (s.setHalf b p) := by
  apply (forall_update_iff s.buffer.buf fun _ p =>
    p.Filled s.buffer.capacity p.contents).mpr
  refine ⟨?_, fun b' _ => h b'⟩
  rw [hp.contents_eq]
  exact hp

theorem Free.push (h : Free s) (hroom : (s.buffer.buf s.buffer.back).cnt ≠ s.buffer.capacity)
    (data : D) : ∃ p, (s.buffer.buf s.buffer.back).push data = some p ∧
      Free { s.setHalf s.buffer.back p with written := s.written ++ [(i, data)] } := by
  obtain ⟨p, hpush, hp⟩ := (h.good s.buffer.back).push hroom data
  refine ⟨p, hpush, ⟨h.good.setHalf hp, h.nonempty, h.refused⟩, h.apart, ?_⟩
  change s.batches.flatten ++ (update s.buffer.buf s.buffer.back p s.buffer.back).contents
    = (s.written ++ [(i, data)]).map Prod.snd
  rw [update_self, hp.contents_eq, ← append_assoc, h.order, map_append]
  rfl

theorem Free.clear (h : Free s) :
    Free (s.setHalf s.buffer.front { s.buffer.buf s.buffer.front with cnt := 0 }) := by
  refine ⟨⟨h.good.setHalf (h.good s.buffer.front).clear, h.nonempty, h.refused⟩, h.apart, ?_⟩
  change s.batches.flatten ++ (update s.buffer.buf s.buffer.front _ s.buffer.back).contents = _
  rw [update_of_ne (Ne.symm h.apart)]
  exact h.order

private theorem contents_ne_nil (h : Good s) {b : Bool} (hcnt : (s.buffer.buf b).cnt ≠ 0) :
    (s.buffer.buf b).contents ≠ [] := by
  intro he
  have hcount := (h b).cnt_eq
  rw [he] at hcount
  exact hcnt hcount

theorem Free.takeBatch (h : Free s) (hcnt : (s.buffer.buf s.buffer.back).cnt ≠ 0)
    (hempty : (s.buffer.buf s.buffer.front).contents = []) : Knows { s with
      buffer := { s.buffer with front := s.buffer.back }
      batches := s.batches ++ [(s.buffer.buf s.buffer.back).contents] }
      (.readBack s.buffer.front) := by
  refine ⟨⟨h.good, ?_, h.refused⟩, h.apart, hempty, ?_⟩
  · intro b hb
    rcases mem_append.mp hb with hb | hb
    · exact h.nonempty b hb
    · rw [mem_singleton.mp hb]
      exact contents_ne_nil h.good hcnt
  · rw [flatten_append, flatten_singleton]
    exact h.order

theorem Settled.swapped (h : Settled s) {tmp : Bool} (hne : tmp ≠ s.buffer.front)
    (hempty : (s.buffer.buf tmp).contents = [])
    (horder : s.batches.flatten = s.written.map Prod.snd) :
    Free { s with buffer := { s.buffer with back := tmp } } := by
  refine ⟨⟨h.good, h.nonempty, h.refused⟩, Ne.symm hne, ?_⟩
  rw [hempty, append_nil, horder]

theorem finish_same (i : ι) (s : Shared ι D) (l : Place D) :
    (finish i s l).buffer = s.buffer ∧ (finish i s l).written = s.written ∧
      (finish i s l).batches = s.batches ∧ (finish i s l).refused = s.refused := by
  unfold finish
  split <;> exact ⟨rfl, rfl, rfl, rfl⟩

theorem Settled.finish (h : Settled s) (l : Place D) : Settled (finish i s l) := by
  obtain ⟨hbuf, _, hbatches, hrefused⟩ := finish_same i s l
  refine ⟨?_, ?_, ?_⟩
  · rw [Good, hbuf]
    exact h.good
  · rw [hbatches]
    exact h.nonempty
  · rw [hrefused, hbuf]
    exact h.refused

theorem Free.finish (h : Free s) (l : Place D) : Free (finish i s l) := by
  obtain ⟨hbuf, hwritten, hbatches, _⟩ := finish_same i s l
  refine ⟨h.toSettled.finish l, ?_, ?_⟩
  · rw [hbuf]
    exact h.apart
  · rw [hbuf, hbatches, hwritten]
    exact h.order

theorem Knows.finish {m : Place D} (h : Knows s m) (l : Place D) : Knows (finish i s l) m := by
  obtain ⟨hbuf, hwritten, hbatches, _⟩ := finish_same i s l
  cases m with
  | writeReturn ret data => exact h.elim
  | readReturn => exact h.elim
  | writeTest data pBack | writePush data pBack | readClear | readFront =>
    exact ⟨h.1.finish l, by rw [hbuf]; exact h.2⟩
  | readBack tmp =>
    exact ⟨h.1.finish l, by rw [hbuf]; exact h.2.1, by rw [hbuf]; exact h.2.2.1,
      by rw [hbatches, hwritten]; exact h.2.2.2⟩
  | writeBack data | writeFull data | writeUnlock data | readTest | readUnlock =>
    exact Free.finish h l

end Statements

def stored : Pc (Call D) (Place D) → List D
  | .inside (.writeUnlock data) => [data]
  | .outside (.writeReturn .ok data) => [data]
  | _ => []

def Reads : Pc (Call D) (Place D) → Prop
  | .lock .read => True
  | .relock .read => True
  | .waiting .read => True
  | .inside .readTest => True
  | .inside .readClear => True
  | .inside .readFront => True
  | .inside (.readBack _) => True
  | .inside .readUnlock => True
  | .outside .readReturn => True
  | _ => False

def HoldsBatch (s : Shared ι D) : Prop :=
  s.batches = s.returned ∧
    ∀ b, s.batches.getLast? = some b → (s.buffer.buf s.buffer.front).contents = b

def BatchDue (s : Shared ι D) : Prop :=
  s.batches = s.returned ++ [(s.buffer.buf s.buffer.front).contents]

def Owns (s : Shared ι D) : Pc (Call D) (Place D) → Prop
  | .inside .readFront => s.batches = s.returned
  | .inside (.readBack _) => BatchDue s
  | .inside .readUnlock => BatchDue s
  | .outside .readReturn => BatchDue s
  | _ => HoldsBatch s

structure SameFront (s s' : Shared ι D) : Prop where
  batches : s'.batches = s.batches
  returned : s'.returned = s.returned
  front : (s'.buffer.buf s'.buffer.front).contents = (s.buffer.buf s.buffer.front).contents

variable {s s' : Shared ι D}

theorem HoldsBatch.same (h : HoldsBatch s) (hs : SameFront s s') : HoldsBatch s' := by
  rw [HoldsBatch, hs.batches, hs.returned, hs.front]
  exact h

theorem BatchDue.same (h : BatchDue s) (hs : SameFront s s') : BatchDue s' := by
  rw [BatchDue, hs.batches, hs.returned, hs.front]
  exact h

theorem Owns.same {pc : Pc (Call D) (Place D)} (h : Owns s pc)
    (hs : SameFront s s') : Owns s' pc := by
  unfold Owns at h ⊢
  split at h
  · rw [hs.batches, hs.returned]
    exact h
  · exact BatchDue.same h hs
  · exact BatchDue.same h hs
  · exact BatchDue.same h hs
  · exact HoldsBatch.same h hs

def Refusing : Place D → Next (Call D) (Place D) → Prop
  | .writeBack _, _ => True
  | .writeTest _ _, .goto (.writeFull _) => True
  | .writeFull _, _ => True
  | _, _ => False

section Places

variable {i : ι} {s : Shared ι D} {pc : Pc (Call D) (Place D)} {l : Place D} {s' : Shared ι D}
  {n : Next (Call D) (Place D)}

theorem knows_outside (h : ¬ pc.Inside) (l : Place D) (hpc : pc = .inside l) : Knows s l := by
  rw [hpc] at h
  exact absurd trivial h

theorem knows_inside (h : Knows s l) (m : Place D)
    (hpc : (.inside l : Pc (Call D) (Place D)) = .inside m) : Knows s m := by
  cases hpc
  exact h

theorem sameFront_push (h : Free s) (p : SingleBuffer D) (data : D) :
    SameFront s { s.setHalf s.buffer.back p with written := s.written ++ [(i, data)] } := by
  refine ⟨rfl, rfl, ?_⟩
  change (update s.buffer.buf s.buffer.back p s.buffer.front).contents = _
  rw [update_of_ne h.apart]

private theorem exec_sameFront (h : Knows s l) (hw : ¬ Reads (.inside l : Pc (Call D) (Place D)))
    (he : exec i s l = some (s', n)) : SameFront s s' := by
  cases l with
  | writeBack data | writeFull data | writeUnlock data =>
    cases he
    exact ⟨rfl, rfl, rfl⟩
  | writeTest data pBack =>
    rw [exec] at he
    split_ifs at he <;> cases he <;> exact ⟨rfl, rfl, rfl⟩
  | writePush data pBack =>
    obtain ⟨hfree, rfl, _⟩ := h
    obtain ⟨p, _, he⟩ := Option.map_eq_some_iff.mp he
    cases he
    exact sameFront_push hfree p data
  | writeReturn ret data => exact h.elim
  | readReturn => exact h.elim
  | _ => exact absurd trivial hw

theorem Knows.settled (h : Knows s l) : Settled s := by
  cases l with
  | writeReturn ret data => exact h.elim
  | readReturn => exact h.elim
  | writeTest data pBack | writePush data pBack | readClear | readFront => exact h.1.toSettled
  | readBack tmp => exact h.1
  | writeBack data | writeFull data | writeUnlock data | readTest | readUnlock => exact h.toSettled

theorem Settled.counts (h : Settled s) (b : Bool) :
    0 ≤ (s.buffer.buf b).cnt ∧ (s.buffer.buf b).cnt ≤ s.buffer.capacity := by
  have hb := h.good b
  rw [hb.cnt_eq, hb.length_eq]
  exact ⟨Int.natCast_nonneg _, Int.ofNat_le.mpr hb.cnt_le⟩

theorem Owns.returned (h : Owns s pc) : s.returned <+: s.batches := by
  unfold Owns at h
  split at h
  · exact h ▸ prefix_rfl
  · exact ⟨_, h.symm⟩
  · exact ⟨_, h.symm⟩
  · exact ⟨_, h.symm⟩
  · exact h.1 ▸ prefix_rfl

theorem Owns.batch (h : Owns s pc) (hpc : ¬ Reads pc) : HoldsBatch s := by
  unfold Owns at h
  split at h
  · exact absurd trivial hpc
  · exact absurd trivial hpc
  · exact absurd trivial hpc
  · exact absurd trivial hpc
  · exact h

private theorem exec_refusing
    (hl : Refusing l n) (he : exec i s l = some (s', n)) : s'.buffer = s.buffer := by
  cases l with
  | writeBack data =>
    cases he
    rfl
  | writeTest data pBack =>
    rw [exec] at he
    split_ifs at he <;> cases he <;> rfl
  | writeFull data =>
    cases he
    rfl
  | _ => cases hl

private theorem init_free {capacity nonBlocking : Int} {env : Env} {buffer : DoubleBuffer D}
    (h : init capacity nonBlocking env = .ok buffer) : Free (.start buffer : Shared ι D) := by
  unfold init at h
  split at h
  · cases h
  · next hpos =>
    split_ifs at h
    cases h
    have hlen : (replicate capacity.toNat (none : Option D)).length = capacity.toNat :=
      length_replicate
    refine ⟨⟨?_, ?_, ?_⟩, Bool.false_ne_true, rfl⟩
    · intro b
      refine ⟨?_, rfl, Nat.zero_le _, rfl⟩
      change capacity = ((replicate capacity.toNat none).length : Int)
      omega
    · intro b hb
      cases hb
    · intro c hc
      cases hc

end Places

structure Asserts [DecidableEq ι] (reader i : ι) (pc : Pc (Call D) (Place D)) (s : Shared ι D) :
    Prop where
  mine : itemsOf i s.written = itemsOf i s.accepted ++ stored pc
  reads : Reads pc → i = reader
  owns : i = reader → Owns s pc
  knows : ∀ l, pc = .inside l → Knows s l

section Run

variable [DecidableEq ι] {reader i : ι} {s : Shared ι D} {l : Place D} {j : ι} {s' : Shared ι D}
  {n : Next (Call D) (Place D)} {pc : Pc (Call D) (Place D)}

private theorem exec_leads (h : Asserts reader i (.inside l) s) :
    ∃ s' n, exec i s l = some (s', n) ∧ Leads Free (Asserts reader i) s' n := by
  have hknows := h.knows l rfl
  cases l with
  | writeBack data =>
    exact ⟨s, _, rfl, h.mine, False.elim, h.owns, knows_inside ⟨hknows, rfl⟩⟩
  | writeTest data pBack =>
    obtain ⟨hfree, rfl⟩ := hknows
    by_cases hfull : (s.buffer.buf s.buffer.back).cnt = s.buffer.capacity
    · by_cases hblock : s.buffer.nonBlocking ≠ 0
      · refine ⟨_, _, (if_pos hfull).trans (if_pos hblock), h.mine, False.elim, h.owns,
          knows_inside ⟨⟨hfree.good, hfree.nonempty, ?_⟩, hfree.apart, hfree.order⟩⟩
        intro c hc
        rcases mem_append.mp hc with hc | hc
        · exact hfree.refused c hc
        · rw [mem_singleton.mp hc]
          exact hfull
      · exact ⟨s, _, (if_pos hfull).trans (if_neg hblock), hfree, h.mine, False.elim, h.owns,
          knows_outside id⟩
    · exact ⟨s, _, if_neg hfull, h.mine, False.elim, h.owns, knows_inside ⟨hfree, rfl, hfull⟩⟩
  | writeFull data | writeUnlock data =>
    exact ⟨s, _, rfl, hknows, h.mine, False.elim, h.owns, knows_outside id⟩
  | writePush data pBack =>
    obtain ⟨hfree, rfl, hroom⟩ := hknows
    obtain ⟨p, hpush, hfree'⟩ := hfree.push (i := i) hroom data
    refine ⟨{ s.setHalf s.buffer.back p with written := s.written ++ [(i, data)] },
      .goto (.writeUnlock data), ?_, ?_, False.elim, ?_, knows_inside hfree'⟩
    · rw [exec, hpush, Option.map_some]
    · change itemsOf i (s.written ++ [(i, data)]) = itemsOf i s.accepted ++ [data]
      rw [itemsOf_append_self, h.mine]
      change itemsOf i s.accepted ++ [] ++ [data] = _
      rw [append_nil]
    · intro hi
      exact HoldsBatch.same (h.owns hi) (sameFront_push hfree p data)
  | readTest =>
    by_cases hempty : (s.buffer.buf s.buffer.back).cnt = 0
    · exact ⟨s, _, if_pos hempty, hknows, h.mine, h.reads, h.owns, knows_outside id⟩
    · exact ⟨s, _, if_neg hempty, h.mine, h.reads, h.owns, knows_inside ⟨hknows, hempty⟩⟩
  | readClear =>
    obtain ⟨hfree, hcnt⟩ := hknows
    refine ⟨_, _, rfl, h.mine, h.reads, fun hi => (h.owns hi : HoldsBatch s).1,
      knows_inside ⟨hfree.clear, ?_, ?_⟩⟩
    · change (update s.buffer.buf s.buffer.front _ s.buffer.back).cnt ≠ 0
      rw [update_of_ne (Ne.symm hfree.apart)]
      exact hcnt
    · change (update s.buffer.buf s.buffer.front _ s.buffer.front).contents = []
      rw [update_self]
      exact (hfree.good s.buffer.front).clear.contents_eq
  | readFront =>
    obtain ⟨hfree, hcnt, hempty⟩ := hknows
    refine ⟨_, _, rfl, h.mine, h.reads, ?_, knows_inside (hfree.takeBatch hcnt hempty)⟩
    intro hi
    change s.batches ++ [(s.buffer.buf s.buffer.back).contents] =
      s.returned ++ [(s.buffer.buf s.buffer.back).contents]
    rw [(h.owns hi : s.batches = s.returned)]
  | readBack tmp =>
    obtain ⟨hset, hne, hempty, horder⟩ := hknows
    exact ⟨_, _, rfl, h.mine, h.reads, h.owns, knows_inside (hset.swapped hne hempty horder)⟩
  | readUnlock => exact ⟨s, _, rfl, hknows, h.mine, h.reads, h.owns, knows_outside id⟩
  | writeReturn ret data | readReturn => exact hknows.elim

private theorem exec_itemsOf (hij : i ≠ j) (he : exec i s l = some (s', n)) :
    itemsOf j s'.written = itemsOf j s.written ∧ s'.accepted = s.accepted := by
  cases l with
  | writeTest data pBack | readTest =>
    rw [exec] at he
    split_ifs at he <;> cases he <;> exact ⟨rfl, rfl⟩
  | writePush data pBack =>
    obtain ⟨p, _, he⟩ := Option.map_eq_some_iff.mp he
    cases he
    exact ⟨itemsOf_append_of_ne hij, rfl⟩
  | writeReturn ret data => cases he
  | readReturn => cases he
  | _ =>
    cases he
    exact ⟨rfl, rfl⟩

theorem Asserts.exec_other (hj : Asserts reader j pc s) (hi : Asserts reader i (.inside l) s)
    (hij : i ≠ j) (hpc : ¬ pc.Inside) (he : exec i s l = some (s', n)) :
    Asserts reader j pc s' := by
  obtain ⟨hwritten, haccepted⟩ := exec_itemsOf hij he
  refine ⟨?_, hj.reads, ?_, knows_outside hpc⟩
  · rw [hwritten, haccepted]
    exact hj.mine
  · intro hreader
    have hw : ¬ Reads (.inside l : Pc (Call D) (Place D)) := by
      intro hr
      exact hij ((hi.reads hr).trans hreader.symm)
    exact (hj.owns hreader).same (exec_sameFront (hi.knows l rfl) hw he)

theorem Asserts.finish (h : Asserts reader i (.outside l) s) :
    Asserts reader i .idle (finish i s l) := by
  refine ⟨?_, False.elim, ?_, knows_outside id⟩
  · have hmine := h.mine
    change _ = _ ++ []
    rw [append_nil, (finish_same i s l).2.1, hmine]
    cases l with
    | writeReturn ret data =>
      cases ret with
      | ok => exact itemsOf_append_self.symm
      | _ => exact append_nil _
    | _ => exact append_nil _
  · intro hreader
    have howns := h.owns hreader
    cases l with
    | readReturn =>
      have hdue : s.batches = s.returned ++ [(s.buffer.buf s.buffer.front).contents] := howns
      refine ⟨hdue, ?_⟩
      intro b hb
      change s.batches.getLast? = some b at hb
      rw [hdue, getLast?_concat] at hb
      exact Option.some.inj hb
    | writeReturn ret data =>
      cases ret <;> exact HoldsBatch.same howns ⟨rfl, rfl, rfl⟩
    | _ => exact howns

theorem Asserts.finish_other (hj : Asserts reader j pc s) (hi : Asserts reader i (.outside l) s)
    (hij : i ≠ j) : Asserts reader j pc (DoubleBuffer.finish i s l) := by
  refine ⟨?_, hj.reads, ?_, fun m hm => (hj.knows m hm).finish l⟩
  · rw [(finish_same i s l).2.1, hj.mine]
    unfold DoubleBuffer.finish
    split
    · rw [itemsOf_append_of_ne hij]
    · rfl
    · rfl
  · intro hreader
    apply (hj.owns hreader).same
    obtain ⟨hbuf, _, hbatches, _⟩ := finish_same i s l
    refine ⟨hbatches, ?_, by rw [hbuf]⟩
    unfold DoubleBuffer.finish
    split
    · rfl
    · exact absurd ((hi.reads trivial).trans hreader.symm) hij
    · rfl

private theorem buffer_rule (reader : ι) :
    Rule (code : Code ι (Shared ι D) (Call D) (Place D)) (OneReader reader) Free
      (Asserts reader) where
  call i c s hc h := by
    cases c with
    | write data => exact ⟨h.mine, False.elim, h.owns, knows_outside id⟩
    | read => exact ⟨h.mine, fun _ => hc, h.owns, knows_outside id⟩
  lockFails i c s h := ⟨h.mine, False.elim, h.owns, knows_outside id⟩
  wake i c s h := by
    cases c with
    | write data => exact ⟨h.mine, False.elim, h.owns, knows_outside id⟩
    | read => exact ⟨h.mine, h.reads, h.owns, knows_outside id⟩
  enter i c s hfree h := by
    cases c with
    | write data =>
      rcases h with h | h <;> exact ⟨h.mine, False.elim, h.owns, knows_inside hfree⟩
    | read =>
      rcases h with h | h <;> exact ⟨h.mine, h.reads, h.owns, knows_inside hfree⟩
  exec i l s h := exec_leads h
  exec_other i j l s s' n pc hij hpc hi he hj := hj.exec_other hi hij hpc he
  finish i l s h := h.finish
  finish_free i l s _ h := h.finish l
  finish_other i j l s pc hij hi hj := hj.finish_other hi hij

abbrev Buffered (ι D : Type) := State ι (Shared ι D) (Call D) (Place D)

/-- What the writers and the reader may rely on. -/
structure BufferSound (reader : ι) (s : Buffered ι D) : Prop where
  order : s.mutex = none → s.data.batches.flatten ++
    (s.data.buffer.buf s.data.buffer.back).contents = s.data.written.map Prod.snd
  returned : s.data.returned <+: s.data.batches
  returned_all : s.pc reader = .idle → s.data.returned = s.data.batches
  accepted : ∀ i, itemsOf i s.data.accepted <+: itemsOf i s.data.written
  accepted_all : ∀ i, s.pc i = .idle → itemsOf i s.data.accepted = itemsOf i s.data.written
  untouched : ¬ Reads (s.pc reader) → ∀ b, s.data.returned.getLast? = some b →
    (s.data.buffer.buf s.data.buffer.front).contents = b
  counts : ∀ b, 0 ≤ (s.data.buffer.buf b).cnt ∧ (s.data.buffer.buf b).cnt ≤ s.data.buffer.capacity
  nonempty : ∀ b ∈ s.data.returned, b ≠ []
  refused_full : ∀ c ∈ s.data.refused, c = s.data.buffer.capacity
  refusal : ∀ i l s' n, s.pc i = .inside l → Refusing l n → exec i s.data l = some (s', n) →
    s'.buffer = s.data.buffer
  runs_on : ∀ i l, s.pc i = .inside l → (exec i s.data l).isSome

/-- In every run of any number of writers and one reader the buffer is sound. -/
theorem buffer_sound (reader : ι) (capacity nonBlocking : Int) (env : Env)
    (buffer : DoubleBuffer D) (hinit : init capacity nonBlocking env = .ok buffer)
    (events : List (Event ι (Call D))) (s : Buffered ι D)
    (hrun : run (permittedStep code (OneReader reader)) (start (.start buffer)) events = some s) :
    BufferSound reader s := by
  have hidle : ∀ i : ι, Asserts reader i .idle (.start buffer : Shared ι D) := fun i =>
    ⟨rfl, False.elim, fun _ => ⟨rfl, fun b hb => by cases hb⟩, knows_outside id⟩
  have hinv := (buffer_rule reader).run_permitted (init_free hinit) hidle hrun
  have hset : Settled s.data := hinv.always Free.toSettled fun i l hA => (hA.knows l rfl).settled
  have howns := (hinv.knows reader).owns rfl
  refine ⟨fun hm => (hinv.free hm).order, howns.returned, ?_, ?_, ?_, ?_, hset.counts, ?_,
    hset.refused, fun i l s' n _ => exec_refusing, ?_⟩
  · intro hpc
    rw [hpc] at howns
    exact howns.1.symm
  · intro i
    exact ⟨_, (hinv.knows i).mine.symm⟩
  · intro i hpc
    exact ((hinv.asserts hpc).mine.trans (append_nil _)).symm
  · intro hpc b hb
    obtain ⟨he, hlast⟩ := howns.batch hpc
    exact hlast b (he ▸ hb)
  · intro b hb
    exact hset.nonempty b (howns.returned.subset hb)
  · intro i l hpc
    exact hinv.runs_on (buffer_rule reader) hpc

end Run

def oneDatum : DoubleBuffer Nat := ⟨fun _ => ⟨[none], 0⟩, false, true, 1, 0⟩

def waitingWrite : List (Event Bool (Call Nat)) :=
  [.call false (.write 7)] ++ steps false 6 ++ [.call false (.write 8)] ++ steps false 3
    ++ [.call true .read] ++ steps true 7 ++ [.wake false] ++ steps false 6
    ++ [.call true .read] ++ steps true 7

theorem buffer_sound_waiting : ∃ s : Buffered Bool Nat,
      run (permittedStep code (OneReader true)) (start (.start oneDatum)) waitingWrite = some s ∧
      s.data.accepted = [(false, 7), (false, 8)] ∧ s.data.returned = [[7], [8]] ∧
      BufferSound true s := by
  have hrun : (run (permittedStep code (OneReader true))
      (start (.start oneDatum) : Buffered Bool Nat) waitingWrite).map
      (fun s => (s.data.accepted, s.data.returned)) =
        some ([(false, 7), (false, 8)], [[7], [8]]) := by decide +kernel
  obtain ⟨s, hs, hfields⟩ := Option.map_eq_some_iff.mp hrun
  obtain ⟨haccepted, hreturned⟩ := Prod.mk.inj hfields
  exact ⟨s, hs, haccepted, hreturned,
    buffer_sound true 1 0 ⟨fun _ => true, .ok, .ok, .ok⟩ oneDatum rfl waitingWrite s hs⟩

end DoubleBuffer

end MuggleC.Sync
